import ProseMarkup.Mark
import Mathlib.Data.List.TakeWhile

namespace ProseMarkup

namespace Text

theorem span_append {p : Char → Bool} {after : List Char} (h : ∀ c ∈ after.head?, p c = false)
    (cs : List Char) :
    (cs ++ after).takeWhile p = cs.takeWhile p ∧
      (cs ++ after).dropWhile p = cs.dropWhile p ++ after := by
  induction cs with
  | nil =>
    cases after with
    | nil => exact ⟨rfl, rfl⟩
    | cons a after => simp [h a rfl]
  | cons c cs ih =>
    by_cases hc : p c
    · simp [hc, ih]
    · simp [hc]

theorem span_append_of_mem {p : Char → Bool} {x : Char} (hp : p x = false) {cs : List Char}
    (hx : x ∈ cs) (r : List Char) :
    (cs ++ r).takeWhile p = cs.takeWhile p ∧ (cs ++ r).dropWhile p = cs.dropWhile p ++ r := by
  induction cs with
  | nil => cases hx
  | cons c cs ih =>
    by_cases hc : p c
    · have hxc : x ≠ c := by
        rintro rfl
        rw [hp] at hc
        contradiction
      simp [hc, ih (List.mem_of_ne_of_mem hxc hx)]
    · simp [hc]

theorem length_le_of_splitAfter? {mark cs past rest : List Char}
    (h : splitAfter? mark cs = some (past, rest)) : mark.length ≤ past.length := by
  induction cs generalizing past with
  | nil => cases h
  | cons c cs ih =>
    by_cases hm : mark <+: c :: cs
    · simp only [splitAfter?, hm, if_true, Option.some.injEq, Prod.mk.injEq] at h
      rw [← h.1]
    · simp only [splitAfter?, hm, if_false] at h
      obtain ⟨⟨past', rest'⟩, hs, he⟩ := Option.map_eq_some_iff.mp h
      cases he
      exact Nat.le_succ_of_le (ih hs)

theorem splitAfter?_of_append {mark past rest : List Char} (hne : mark ≠ [])
    (h : splitAfter? mark (past ++ rest) = some (past, rest)) (r : List Char) :
    splitAfter? mark (past ++ r) = some (past, r) := by
  induction past with
  | nil =>
    have hl := length_le_of_splitAfter? h
    exact absurd (List.length_eq_zero_iff.mp (Nat.le_zero.mp hl)) hne
  | cons c past ih =>
    rw [List.cons_append, splitAfter?] at h ⊢
    by_cases hm : mark <+: c :: (past ++ rest)
    · rw [if_pos hm, Option.some.injEq, Prod.mk.injEq] at h
      obtain ⟨rfl, -⟩ := h
      have hp : c :: past <+: c :: (past ++ r) := List.prefix_append (c :: past) r
      rw [if_pos hp]
      simp
    · rw [if_neg hm] at h
      obtain ⟨⟨past', rest'⟩, hs, he⟩ := Option.map_eq_some_iff.mp h
      cases he
      have hlen : mark.length ≤ (c :: past).length :=
        Nat.le_succ_of_le (length_le_of_splitAfter? hs)
      have hm' : ¬mark <+: c :: (past ++ r) := fun hp =>
        hm ((List.prefix_of_prefix_length_le hp (List.prefix_append (c :: past) r) hlen).trans
          (List.prefix_append (c :: past) rest))
      rw [if_neg hm', ih hs]
      rfl

theorem suffix_of_splitAfter? {mark cs past rest : List Char}
    (h : splitAfter? mark cs = some (past, rest)) : mark <:+ past := by
  induction cs generalizing past with
  | nil => cases h
  | cons c cs ih =>
    rw [splitAfter?] at h
    by_cases hm : mark <+: c :: cs
    · rw [if_pos hm] at h
      cases h
      exact List.suffix_refl _
    · rw [if_neg hm] at h
      obtain ⟨⟨past', rest'⟩, hs, he⟩ := Option.map_eq_some_iff.mp h
      cases he
      exact (ih hs).trans (List.suffix_cons c past')

end Text

namespace Name

theorem isPart_of_isStart {c : Char} (h : isStart c = true) : isPart c = true := by
  simp only [isStart, isPart, Text.isAlphanumeric, Bool.or_eq_true] at h ⊢
  obtain h | h := h
  · exact .inl (.inl (.inl (.inl h)))
  · exact .inl (.inl (.inr h))

def Ends (cs : List Char) : Prop :=
  ∀ c ∈ cs.head?, isPart c = false

theorem read?_append {after : List Char} (h : Ends after) (cs : List Char) :
    read? (cs ++ after) = (read? cs).map fun (name, rest) => (name, rest ++ after) := by
  cases cs with
  | nil =>
    cases after with
    | nil => rfl
    | cons a after =>
      have ha : ¬isStart a = true := by
        intro hs
        have hp := h a rfl
        rw [isPart_of_isStart hs] at hp
        contradiction
      simp [read?, ha]
  | cons c cs =>
    obtain ⟨htake, hdrop⟩ := Text.span_append h cs
    by_cases hc : isStart c
    · simp [read?, hc, htake, hdrop]
    · simp [read?, hc]

theorem isPart_of_read? {cs name rest : List Char} (h : read? cs = some (name, rest)) :
    ∀ c ∈ name, isPart c = true := by
  cases cs with
  | nil => cases h
  | cons a cs =>
    by_cases ha : isStart a
    · simp only [read?, ha, if_true, Option.some.injEq, Prod.mk.injEq] at h
      rw [← h.1]
      refine List.forall_mem_cons.mpr ⟨isPart_of_isStart ha, fun c hc => ?_⟩
      exact List.mem_takeWhile_imp hc
    · simp [read?, ha] at h

def IsName (name : List Char) : Prop :=
  ∃ c cs, name = c :: cs ∧ isStart c = true ∧ ∀ x ∈ cs, isPart x = true

theorem read?_eq_some_iff {cs name rest : List Char} :
    read? cs = some (name, rest) ↔ cs = name ++ rest ∧ IsName name ∧ Ends rest := by
  constructor
  · intro h
    refine ⟨(append_of_read? h).symm, ?_⟩
    cases cs with
    | nil => cases h
    | cons a cs =>
      by_cases ha : isStart a
      · simp only [read?, ha, if_true, Option.some.injEq, Prod.mk.injEq] at h
        obtain ⟨rfl, rfl⟩ := h
        refine ⟨⟨a, _, rfl, ha, fun x => List.mem_takeWhile_imp⟩, fun c hc => ?_⟩
        have hd := List.head?_dropWhile_not isPart cs
        rw [Option.mem_def.mp hc] at hd
        simpa using hd
      · simp [read?, ha] at h
  · rintro ⟨rfl, ⟨c, cs, rfl, hc, hcs⟩, hr⟩
    rw [read?_append hr]
    have ht := List.takeWhile_eq_self_iff.mpr hcs
    have hd := List.dropWhile_eq_nil_iff.mpr hcs
    simp [read?, hc, ht, hd]

theorem isName_iff {cs : List Char} : isName cs = true ↔ IsName cs := by
  unfold isName
  split
  · rename_i hr
    obtain ⟨rfl, hn, -⟩ := read?_eq_some_iff.mp hr
    rw [List.append_nil]
    exact iff_of_true rfl hn
  · rename_i hr
    apply iff_of_false (by decide)
    intro hn
    exact hr cs (read?_eq_some_iff.mpr ⟨(List.append_nil cs).symm, hn, nofun⟩)

theorem isPart_of_isName {cs : List Char} (h : isName cs = true) : ∀ c ∈ cs, isPart c = true := by
  obtain ⟨a, cs, rfl, ha, hcs⟩ := isName_iff.mp h
  exact List.forall_mem_cons.mpr ⟨isPart_of_isStart ha, hcs⟩

theorem isPart_of_isBlank {c : Char} (h : Text.isBlank c = true) : isPart c = false := by
  have range {m n : Nat} (hm : m ≤ c.toNat) (hn : c.toNat ≤ n)
      (hd : ∀ k ∈ List.range' m (n + 1 - m), isPart (.ofNat k) = false) : isPart c = false := by
    rw [← Char.ofNat_toNat c]
    exact hd _ (List.mem_range'_1.mpr ⟨hm, by omega⟩)
  simp only [Text.isBlank, Bool.or_eq_true, Bool.and_eq_true, decide_eq_true_eq] at h
  obtain (((((((((((h | h) | h) | h) | h) | h) | h) | h) | h) | h) | h)) := h
  · subst h
    decide +kernel
  · exact range h.1 h.2 (by decide +kernel)
  iterate 3
    subst h
    decide +kernel
  · exact range h.1 h.2 (by decide +kernel)
  all_goals
    subst h
    decide +kernel

theorem ends_of_isBlank {cs : List Char} (h : ∀ c ∈ cs, Text.isBlank c = true) : Ends cs :=
  fun c hc => isPart_of_isBlank (h c (List.mem_of_mem_head? hc))

theorem ends_cons {c : Char} (h : isPart c = false) (cs : List Char) : Ends (c :: cs) := by
  rintro _ ⟨⟩
  exact h

theorem read?_append_of_mem {x : Char} (hp : isPart x = false) {cs : List Char} (hx : x ∈ cs)
    (r : List Char) :
    read? (cs ++ r) = (read? cs).map fun (name, rest) => (name, rest ++ r) := by
  cases cs with
  | nil => cases hx
  | cons c cs =>
    by_cases hc : isStart c
    · have hxc : x ≠ c := by
        rintro rfl
        rw [isPart_of_isStart hc] at hp
        contradiction
      obtain ⟨htake, hdrop⟩ := Text.span_append_of_mem hp (List.mem_of_ne_of_mem hxc hx) r
      simp [read?, hc, htake, hdrop]
    · simp [read?, hc]

theorem isStart_of_read? {a : Char} {cs name rest : List Char}
    (h : read? (a :: cs) = some (name, rest)) : isStart a = true := by
  by_cases ha : isStart a
  · exact ha
  · simp [read?, ha] at h

end Name

namespace Mark

theorem read_of_isStart {a : Char} (h : Name.isStart a = true) (cs : List Char) :
    read (a :: cs) = readOpening (a :: cs) := by
  rw [read]
  · rintro _ ⟨⟩
    revert h
    decide
  · rintro _ ⟨⟩
    revert h
    decide

theorem read_of_read? {cs name rest : List Char} (h : Name.read? cs = some (name, rest)) :
    read cs = readOpening cs := by
  cases cs with
  | nil => cases h
  | cons a cs => exact read_of_isStart (Name.isStart_of_read? h) cs

theorem read_eq_unclosed {cs name rest : List Char} (h : read cs = .unclosed name rest) :
    Name.read? cs = some (name, rest) ∧ OpeningTag.endsName rest ∧
      OpeningTag.splitEnd? rest = none := by
  have ho : readOpening cs = .unclosed name rest := by
    unfold read at h
    split at h
    · split at h <;> contradiction
    · split at h <;> contradiction
    · exact h
  unfold readOpening at ho
  split at ho
  · contradiction
  · rename_i hn
    split at ho
    · rename_i he
      split at ho
      · contradiction
      · rename_i hs
        cases ho
        exact ⟨hn, he, hs⟩
    · contradiction

theorem read_eq_opening {cs rest : List Char} {tag : OpeningTag}
    (h : read cs = .opening tag rest) :
    ∃ after, Name.read? cs = some (tag.name, after) ∧ OpeningTag.endsName after ∧
      OpeningTag.splitEnd? after = some (tag.inside, rest) := by
  have ho : readOpening cs = .opening tag rest := by
    unfold read at h
    split at h
    · split at h <;> contradiction
    · split at h <;> contradiction
    · exact h
  unfold readOpening at ho
  split at ho
  · contradiction
  · rename_i after hn
    split at ho
    · rename_i he
      split at ho
      · rename_i hs
        cases ho
        exact ⟨after, hn, he, hs⟩
      · contradiction
    · contradiction

theorem read_eq_closing {cs rest : List Char} {tag : ClosingTag}
    (h : read cs = .closing tag rest) :
    ∃ after, cs = '/' :: after ∧ ClosingTag.read? after = some (tag, rest) := by
  unfold read at h
  split at h
  · split at h <;> contradiction
  · rename_i after
    split at h
    · rename_i hr
      cases h
      exact ⟨after, rfl, hr⟩
    · contradiction
  · exact absurd h readOpening_ne_closing

end Mark

namespace OpeningTag

theorem Ending.push_eq_found {c : Char} {x : Ending} {inside rest : List Char} :
    x.push c = found inside rest ↔ ∃ i, inside = c :: i ∧ x = found i rest := by
  cases x with
  | found i r =>
    simp only [push, found.injEq]
    constructor
    · rintro ⟨rfl, rfl⟩
      exact ⟨i, rfl, rfl, rfl⟩
    · rintro ⟨_, rfl, rfl, rfl⟩
      exact ⟨rfl, rfl⟩
  | inQuotes | missing => simp [push]

theorem Ending.push_eq_missing {c : Char} {x : Ending} : x.push c = missing ↔ x = missing := by
  cases x <;> simp [push]

theorem scan_of_found {quote : Option Char} {inside rest : List Char}
    (h : scan quote (inside ++ '>' :: rest) = .found inside rest) (r : List Char) :
    scan quote (inside ++ '>' :: r) = .found inside r := by
  induction inside generalizing quote with
  | nil =>
    cases quote with
    | none => rfl
    | some q =>
      obtain ⟨_, hc, _⟩ := Ending.push_eq_found.mp h
      cases hc
  | cons c inside ih =>
    have push (q : Option Char)
        (hq : (scan q (inside ++ '>' :: rest)).push c = .found (c :: inside) rest) :
        (scan q (inside ++ '>' :: r)).push c = .found (c :: inside) r := by
      obtain ⟨i, hi, hs⟩ := Ending.push_eq_found.mp hq
      cases hi
      exact Ending.push_eq_found.mpr ⟨inside, rfl, ih hs⟩
    cases quote with
    | some q => exact push _ h
    | none =>
      by_cases he : c = '>'
      · simp [scan, he] at h
      · by_cases hl : c = '<'
        · simp [scan, hl] at h
        · simp only [List.cons_append, scan, he, hl, if_false] at h ⊢
          exact push _ h

theorem scan_append_of_found {quote : Option Char} {cs inside rest : List Char}
    (h : scan quote cs = .found inside rest) (r : List Char) :
    scan quote (cs ++ r) = .found inside (rest ++ r) := by
  have hcs := append_of_scan h
  subst hcs
  rw [List.append_assoc]
  exact scan_of_found h (rest ++ r)

/-- In a text that ends with `>` a tag that is missing meets another tag, so it is missing in every
longer text. -/
theorem scan_append_of_missing {quote : Option Char} {cs : List Char} (hq : quote ≠ some '>')
    (hl : cs.getLast? = some '>') (h : scan quote cs = .missing) (r : List Char) :
    scan quote (cs ++ r) = .missing := by
  induction cs generalizing quote with
  | nil => cases hl
  | cons c cs ih =>
    cases cs with
    | nil =>
      -- the last character is in quotes, and does not close them
      obtain rfl : c = '>' := Option.some.inj hl
      cases quote with
      | none => cases h
      | some q =>
        have hgt : '>' ≠ q := fun he => hq (he ▸ rfl)
        simp [scan, hgt, Ending.push] at h
    | cons d cs =>
      have push (q : Option Char) (hq : q ≠ some '>')
          (hs : (scan q (d :: cs)).push c = .missing) :
          (scan q (d :: cs ++ r)).push c = .missing := by
        rw [Ending.push_eq_missing] at hs ⊢
        exact ih hq hl hs
      cases quote with
      | some q =>
        refine push _ ?_ h
        split
        · rintro ⟨⟩
        · exact hq
      | none =>
        by_cases he : c = '>'
        · simp [scan, he] at h
        · by_cases hlt : c = '<'
          · simp [scan, hlt]
          · simp only [List.cons_append, scan, he, hlt, if_false] at h ⊢
            refine push _ ?_ h
            split
            · exact fun hs => he (Option.some.inj hs)
            · rintro ⟨⟩

theorem scanPlain?_eq_some_iff {cs inside rest : List Char} :
    scanPlain? cs = some (inside, rest) ↔
      cs = inside ++ '>' :: rest ∧ '<' ∉ inside ∧ '>' ∉ inside := by
  constructor
  · intro h
    obtain rfl := append_of_scanPlain? h
    refine ⟨rfl, ?_⟩
    induction inside with
    | nil => exact ⟨List.not_mem_nil, List.not_mem_nil⟩
    | cons c inside ih =>
      by_cases hg : c = '>'
      · simp [scanPlain?, hg] at h
      · by_cases hl : c = '<'
        · simp [scanPlain?, hl] at h
        · simp only [List.cons_append, scanPlain?, hg, hl, if_false] at h
          obtain ⟨⟨i, r⟩, hs, he⟩ := Option.map_eq_some_iff.mp h
          cases he
          obtain ⟨hl', hg'⟩ := ih hs
          exact ⟨List.not_mem_cons_of_ne_of_not_mem (Ne.symm hl) hl',
            List.not_mem_cons_of_ne_of_not_mem (Ne.symm hg) hg'⟩
  · rintro ⟨rfl, hl, hg⟩
    induction inside with
    | nil => rfl
    | cons c inside ih =>
      obtain ⟨hcl, hl⟩ := List.ne_and_not_mem_of_not_mem_cons hl
      obtain ⟨hcg, hg⟩ := List.ne_and_not_mem_of_not_mem_cons hg
      simp [scanPlain?, Ne.symm hcl, Ne.symm hcg, ih hl hg]

theorem splitEnd?_of_append {inside rest r : List Char}
    (h : splitEnd? (inside ++ '>' :: (rest ++ r)) = some (inside, rest ++ r))
    (hl : ('>' :: rest).getLast? = some '>') :
    splitEnd? (inside ++ '>' :: rest) = some (inside, rest) := by
  have hlast : (inside ++ '>' :: rest).getLast? = some '>' := by
    rw [List.getLast?_append, hl]
    rfl
  cases hs : scan none (inside ++ '>' :: (rest ++ r)) with
  | found i t =>
    simp only [splitEnd?, hs, Option.some.injEq, Prod.mk.injEq] at h
    obtain ⟨rfl, rfl⟩ := h
    simp only [splitEnd?, scan_of_found hs]
  | inQuotes =>
    -- the quotes that stay open to the end of the longer text stay open here
    simp only [splitEnd?, hs] at h
    obtain ⟨_, hlt, hgt⟩ := scanPlain?_eq_some_iff.mp h
    have hopen : scan none (inside ++ '>' :: rest) = .inQuotes := by
      rw [← List.cons_append, ← List.append_assoc] at hs
      cases hs' : scan none (inside ++ '>' :: rest) with
      | found i t =>
        rw [scan_append_of_found hs' r] at hs
        cases hs
      | inQuotes => rfl
      | missing =>
        rw [scan_append_of_missing (by simp) hlast hs' r] at hs
        cases hs
    simp only [splitEnd?, hopen]
    exact scanPlain?_eq_some_iff.mpr ⟨rfl, hlt, hgt⟩
  | missing => simp [splitEnd?, hs] at h

/-- A tag whose quotes are closed in a text that ends with `>` has its end, or none, in every longer
text as well. -/
theorem splitEnd?_append {cs : List Char} (hl : cs.getLast? = some '>')
    (hq : scan none cs ≠ .inQuotes) (r : List Char) :
    splitEnd? (cs ++ r) = (splitEnd? cs).map fun (inside, rest) => (inside, rest ++ r) := by
  cases h : scan none cs with
  | found inside rest => simp [splitEnd?, h, scan_append_of_found h]
  | inQuotes => contradiction
  | missing => simp [splitEnd?, h, scan_append_of_missing (by simp) hl h]

end OpeningTag

theorem ClosingTag.read?_eq_some {cs rest : List Char} {tag : ClosingTag}
    (h : read? cs = some (tag, rest)) :
    ∃ after, Name.read? cs = some (tag.name, after) ∧ tag.gap = after.takeWhile Text.isBlank ∧
      after.dropWhile Text.isBlank = '>' :: rest := by
  unfold read? at h
  split at h
  · contradiction
  · rename_i after hn
    split at h
    · rename_i hd
      cases h
      exact ⟨after, hn, rfl, hd⟩
    · contradiction

end ProseMarkup
