import ProseMarkup.Proofs.Readers
import ProseMarkup.Enclosure
import Mathlib.Data.List.Basic

namespace ProseMarkup

theorem ClosingTag.read?_append {cs : List Char} (hx : '>' ∈ cs) (r : List Char) :
    read? (cs ++ r) = (read? cs).map fun (tag, rest) => (tag, rest ++ r) := by
  rw [read?, read?, Name.read?_append_of_mem (by decide) hx]
  cases hn : Name.read? cs with
  | none => rfl
  | some x =>
    obtain ⟨name, after⟩ := x
    have hafter : '>' ∈ after := by
      rw [← Name.append_of_read? hn] at hx
      obtain hx | hx := List.mem_append.mp hx
      · exact absurd (Name.isPart_of_read? hn _ hx) (by decide)
      · exact hx
    obtain ⟨htake, hdrop⟩ := Text.span_append_of_mem (p := Text.isBlank) (by decide) hafter r
    simp only [Option.map_some, htake, hdrop]
    cases hd : after.dropWhile Text.isBlank with
    | nil => exact absurd (List.dropWhile_eq_nil_iff.mp hd '>' hafter) (by decide)
    | cons c rest =>
      by_cases hc : c = '>'
      · subst hc
        rfl
      · simp [hc]

namespace Mark

def LeavesOpen (cs : List Char) : Prop :=
  ∃ name rest, Name.read? cs = some (name, rest) ∧ OpeningTag.endsName rest ∧
    OpeningTag.scan none rest = .inQuotes

def extend (r : List Char) : Mark → Mark
  | comment inner rest => comment inner (rest ++ r)
  | closing tag rest => closing tag (rest ++ r)
  | opening tag rest => opening tag (rest ++ r)
  | unclosed name rest => unclosed name (rest ++ r)
  | plain => plain

theorem readOpening_append {cs : List Char} (hl : cs.getLast? = some '>')
    (hq : ¬LeavesOpen cs) (r : List Char) :
    readOpening (cs ++ r) = (readOpening cs).extend r := by
  rw [readOpening, readOpening, Name.read?_append_of_mem (by decide) (List.mem_of_getLast? hl)]
  cases hn : Name.read? cs with
  | none => rfl
  | some x =>
    obtain ⟨name, rest⟩ := x
    have hrest : rest.getLast? = some '>' := by
      rw [← Name.append_of_read? hn, List.getLast?_append] at hl
      cases hr : rest.getLast? with
      | some c => simpa [hr] using hl
      | none =>
        rw [hr, Option.none_or] at hl
        exact absurd (Name.isPart_of_read? hn _ (List.mem_of_getLast? hl)) (by decide)
    have hends : OpeningTag.endsName (rest ++ r) = OpeningTag.endsName rest := by
      cases rest with
      | nil => cases hrest
      | cons c rest => rfl
    simp only [Option.map_some, hends]
    by_cases he : OpeningTag.endsName rest
    · have hopen : OpeningTag.scan none rest ≠ .inQuotes := fun h => hq ⟨name, rest, hn, he, h⟩
      rw [if_pos he, if_pos he, OpeningTag.splitEnd?_append hrest hopen]
      obtain _ | ⟨inside, rest⟩ := OpeningTag.splitEnd? rest <;> rfl
    · rw [if_neg he, if_neg he]
      rfl

theorem read_eq_readOpening {cs : List Char} (hc : ∀ t, cs ≠ '!' :: '-' :: '-' :: t)
    (hs : ∀ t, cs ≠ '/' :: t) : read cs = readOpening cs := by
  rw [read]
  · exact fun t h => hc t h
  · exact fun t h => hs t h

/-- Outside of comments, a mark in a text that ends with `>` and leaves no quotes open is read
without what follows. -/
theorem read_append {cs : List Char} (hl : cs.getLast? = some '>') (hq : ¬LeavesOpen cs)
    (hc : ∀ t, cs ≠ '!' :: '-' :: '-' :: t) (r : List Char) :
    read (cs ++ r) = (read cs).extend r := by
  by_cases hs : ∃ t, cs = '/' :: t
  · obtain ⟨t, rfl⟩ := hs
    have ht : '>' ∈ t := List.mem_of_ne_of_mem (by decide) (List.mem_of_getLast? hl)
    rw [List.cons_append, read, read, ClosingTag.read?_append ht]
    obtain _ | ⟨tag, rest⟩ := ClosingTag.read? t <;> rfl
  · have hs' : ∀ t, cs ≠ '/' :: t := fun t h => hs ⟨t, h⟩
    rw [read_eq_readOpening hc hs', read_eq_readOpening, readOpening_append hl hq]
    · intro t h
      obtain _ | ⟨a, _ | ⟨b, _ | ⟨c, cs⟩⟩⟩ := cs
      · cases hl
      · cases h
        cases hl
      · cases h
        cases hl
      · cases h
        exact hc cs rfl
    · intro t h
      cases cs with
      | nil => cases hl
      | cons a cs =>
        cases h
        exact hs' cs rfl

theorem read_of_comment {inner rest : List Char} (hr : rest ≠ [])
    (h : read (inner ++ rest) = .comment inner rest) (r : List Char) :
    read (inner ++ r) = .comment inner r := by
  unfold read at h
  split at h
  · rename_i cs hcs
    split at h
    · rename_i i rest' hs
      cases h
      have hlen := Text.length_le_of_splitAfter? hs
      obtain _ | ⟨a, _ | ⟨b, i⟩⟩ := i
      · cases hlen
      · simp at hlen
      · cases hcs
        have hs : Text.splitAfter? ['-', '-', '>'] (('-' :: '-' :: i) ++ rest) =
          some ('-' :: '-' :: i, rest) := hs
        have hcut := Text.splitAfter?_of_append (List.cons_ne_nil _ _) hs r
        simp only [List.cons_append] at hcut ⊢
        rw [read, hcut]
    · cases h
      exact absurd rfl hr
  · split at h <;> contradiction
  · exact absurd h readOpening_ne_comment

theorem read_of_append_of_opening {cs rest r : List Char} {tag : OpeningTag}
    (hl : cs.getLast? = some '>') (h : read (cs ++ r) = .opening tag (rest ++ r)) :
    read cs = .opening tag rest := by
  obtain ⟨after, hn, he, hs⟩ := read_eq_opening h
  obtain rfl := (OpeningTag.append_of_splitEnd? hs).symm
  obtain ⟨ha, hname, hends⟩ := Name.read?_eq_some_iff.mp hn
  have hcs : cs = tag.name ++ (tag.inside ++ '>' :: rest) := by
    rw [← List.cons_append, ← List.append_assoc, ← List.append_assoc] at ha
    rw [List.append_cancel_right ha, List.append_assoc]
  have hends' : Name.Ends (tag.inside ++ '>' :: rest) := by
    rcases hi : tag.inside with _ | ⟨c, inside⟩ <;> rw [hi] at hends <;> exact hends
  have he' : OpeningTag.endsName (tag.inside ++ '>' :: rest) := by
    rcases hi : tag.inside with _ | ⟨c, inside⟩ <;> rw [hi] at he <;> exact he
  have hn' := Name.read?_eq_some_iff.mpr ⟨hcs, hname, hends'⟩
  have hlast : ('>' :: rest).getLast? = some '>' := by
    rwa [hcs, ← List.append_assoc, List.getLast?_append_cons] at hl
  rw [read_of_read? hn']
  simp only [readOpening, hn', he', if_true, OpeningTag.splitEnd?_of_append hs hlast]

theorem read_comment (cs : List Char) :
    ∃ inner rest, read ('!' :: '-' :: '-' :: cs) = .comment inner rest := by
  rw [read]
  split
  · exact ⟨_, _, rfl⟩
  · exact ⟨_, _, rfl⟩

theorem read_append_of_comment {cs inner rest : List Char} (hr : rest ≠ [])
    (h : read cs = .comment inner rest) (r : List Char) :
    read (cs ++ r) = .comment inner (rest ++ r) := by
  obtain rfl := append_of_comment h
  rw [List.append_assoc]
  exact read_of_comment hr h (rest ++ r)

theorem read_of_append_of_comment {cs inner rest r : List Char} (hr : r <:+ rest)
    (h : read (cs ++ r) = .comment inner rest) :
    ∃ rest', rest = rest' ++ r ∧ read cs = .comment inner rest' := by
  obtain ⟨rest', rfl⟩ := hr
  refine ⟨rest', rfl, ?_⟩
  by_cases hn : rest' ++ r = []
  · obtain ⟨rfl, rfl⟩ := List.append_eq_nil_iff.mp hn
    simpa using h
  · have ha := append_of_comment h
    rw [← List.append_assoc] at ha
    obtain rfl := List.append_cancel_right ha
    rw [List.append_assoc] at h
    exact read_of_comment hn h rest'

end Mark

namespace Enclosure

variable {step : List Char → Step} {takes : ∀ cs, (step cs).Takes ('<' :: cs)} {inner : Nat}

theorem search_of_pass {cs past rest : List Char} (h : step cs = .pass past rest) :
    search step takes inner ('<' :: cs) = (search step takes inner rest).map (push past) := by
  rw [search, if_pos rfl]
  split <;> simp_all

theorem search_of_enter {cs past rest : List Char} (h : step cs = .enter past rest) :
    search step takes inner ('<' :: cs) =
      (search step takes (inner + 1) rest).map (push past) := by
  rw [search, if_pos rfl]
  split <;> simp_all

theorem search_of_meet {cs rest : List Char} {tag : ClosingTag} (h : step cs = .meet tag rest) :
    search step takes 0 ('<' :: cs) = some ⟨[], tag, rest⟩ := by
  rw [search, if_pos rfl]
  split <;> simp_all

theorem search_of_meet_succ {cs rest : List Char} {tag : ClosingTag}
    (h : step cs = .meet tag rest) :
    search step takes (inner + 1) ('<' :: cs) =
      (search step takes inner rest).map (push tag.text) := by
  rw [search, if_pos rfl]
  split <;> simp_all

theorem search_cons {c : Char} (h : c ≠ '<') (cs : List Char) :
    search step takes inner (c :: cs) = (search step takes inner cs).map (push [c]) := by
  rw [search, if_neg h]

theorem map_push_push (as bs : List Char) (o : Option Enclosure) :
    (o.map (push bs)).map (push as) = o.map (push (as ++ bs)) := by
  rw [Option.map_map]
  congr 1
  funext e
  simp [push]

theorem search_append_of_not_mem {past : List Char} (h : '<' ∉ past) (rest : List Char) :
    search step takes inner (past ++ rest) = (search step takes inner rest).map (push past) := by
  induction past with
  | nil =>
    rw [List.nil_append]
    cases search step takes inner rest <;> rfl
  | cons c past ih =>
    obtain ⟨hc, h⟩ := List.ne_and_not_mem_of_not_mem_cons h
    rw [List.cons_append, search_cons (Ne.symm hc), ih h, map_push_push]
    rfl

/-- Holds of a text that ends with `>`, and in which no tag leaves its quotes open. -/
structure Quiet (cs : List Char) : Prop where
  ends : ∀ c ∈ cs.getLast?, c = '>'
  quotes : ∀ before after, cs = before ++ '<' :: after → ¬Mark.LeavesOpen after

theorem Quiet.of_append {as bs : List Char} (h : Quiet (as ++ bs)) : Quiet bs where
  ends c hc := h.ends c (by rw [List.getLast?_append, Option.mem_def.mp hc]; rfl)
  quotes before after hb := h.quotes (as ++ before) after (by rw [hb, List.append_assoc])

theorem Quiet.getLast? {cs : List Char} (h : Quiet ('<' :: cs)) : cs.getLast? = some '>' := by
  cases cs with
  | nil => exact absurd (h.ends '<' rfl) (by decide)
  | cons c cs =>
    have hne := mt List.getLast?_eq_none_iff.mp (List.cons_ne_nil c cs)
    obtain ⟨x, hx⟩ := Option.ne_none_iff_exists'.mp hne
    rw [hx, h.ends x hx]

def Step.extend (r : List Char) : Step → Step
  | pass past rest => pass past (rest ++ r)
  | enter past rest => enter past (rest ++ r)
  | meet tag rest => meet tag (rest ++ r)

def extend (r : List Char) (e : Enclosure) : Enclosure :=
  { e with rest := e.rest ++ r }

theorem extend_injective (r : List Char) : Function.Injective (extend r) := by
  rintro ⟨body, closing, rest⟩ ⟨body', closing', rest'⟩ h
  simp only [extend, Enclosure.mk.injEq, List.append_cancel_right_eq] at h
  obtain ⟨rfl, rfl, rfl⟩ := h
  rfl

theorem search_nil : search step takes inner [] = none := by
  rw [search]

theorem quiet_rest {cs : List Char} (hcs : Quiet ('<' :: cs))
    (ht : (step cs).Takes ('<' :: cs)) : Quiet (step cs).rest := by
  rw [← ht.1] at hcs
  exact hcs.of_append

/-- A search that succeeds in a text succeeds in a longer one, if its steps are the same there. -/
theorem search_append {cs r : List Char} {e : Enclosure}
    (hstep : ∀ cs, Quiet ('<' :: cs) →
      (step cs).rest ≠ [] ∨ (∃ tag rest, step cs = .meet tag rest) →
      step (cs ++ r) = (step cs).extend r)
    (hcs : Quiet cs) (h : search step takes inner cs = some e) :
    search step takes inner (cs ++ r) = some (e.extend r) := by
  have pass {past : List Char} {o o' : Option Enclosure}
      (ho : ∀ f, o = some f → o' = some (f.extend r)) {e : Enclosure}
      (h : o.map (push past) = some e) : o'.map (push past) = some (e.extend r) := by
    obtain ⟨f, hf, rfl⟩ := Option.map_eq_some_iff.mp h
    rw [ho f hf]
    rfl
  fun_induction search step takes inner cs generalizing e with
  | case1 => cases h
  | case2 inner cs _ past rest hs ih =>
    have hq := quiet_rest hcs (takes cs)
    have hne : rest ≠ [] := by
      rintro rfl
      rw [search_nil] at h
      cases h
    have hs' := hstep cs hcs
    rw [hs] at hq hs'
    rw [List.cons_append, search_of_pass (hs' (.inl hne))]
    exact pass (fun f hf => ih hq hf) h
  | case3 inner cs _ past rest hs ih =>
    have hq := quiet_rest hcs (takes cs)
    have hne : rest ≠ [] := by
      rintro rfl
      rw [search_nil] at h
      cases h
    have hs' := hstep cs hcs
    rw [hs] at hq hs'
    rw [List.cons_append, search_of_enter (hs' (.inl hne))]
    exact pass (fun f hf => ih hq hf) h
  | case4 cs _ tag rest hs =>
    have hs' := hstep cs hcs (.inr ⟨tag, rest, hs⟩)
    rw [hs] at hs'
    rw [List.cons_append, search_of_meet hs']
    cases h
    rfl
  | case5 cs _ tag rest hs inner ih =>
    have hq := quiet_rest hcs (takes cs)
    have hs' := hstep cs hcs (.inr ⟨tag, rest, hs⟩)
    rw [hs] at hq hs'
    rw [List.cons_append, search_of_meet_succ hs']
    exact pass (fun f hf => ih hq hf) h
  | case6 inner c cs hc ih =>
    have hq : Quiet ([c] ++ cs) := hcs
    rw [List.cons_append, search_cons hc]
    exact pass (fun f hf => ih hq.of_append hf) h

theorem rest_suffix_of_search {cs : List Char} {e : Enclosure}
    (h : search step takes inner ('<' :: cs) = some e) : e.rest <:+ (step cs).rest := by
  have pass {past rest : List Char} {n : Nat}
      (h : (search step takes n rest).map (push past) = some e) : e.rest <:+ rest := by
    obtain ⟨f, hf, rfl⟩ := Option.map_eq_some_iff.mp h
    exact ⟨f.text, append_of_search hf⟩
  cases hs : step cs with
  | pass past rest => exact pass (search_of_pass hs ▸ h)
  | enter past rest => exact pass (search_of_enter hs ▸ h)
  | meet tag rest =>
    cases inner with
    | zero =>
      rw [search_of_meet hs] at h
      cases h
      exact List.suffix_refl rest
    | succ inner => exact pass (search_of_meet_succ hs ▸ h)

/-- A search that succeeds inside a text succeeds there without what follows, if its steps are the
same without it. -/
theorem search_of_append {cs r : List Char} {e : Enclosure}
    (hstep : ∀ cs, Quiet ('<' :: cs) → r <:+ (step (cs ++ r)).rest →
      step (cs ++ r) = (step cs).extend r)
    (hcs : Quiet cs) (h : search step takes inner (cs ++ r) = some (e.extend r)) :
    search step takes inner cs = some e := by
  have pass {past : List Char} {o o' : Option Enclosure}
      (ho : ∀ f, o' = some (extend r f) → o = some f) {e : Enclosure}
      (h : o'.map (push past) = some (e.extend r)) : o.map (push past) = some e := by
    obtain ⟨f, hf, he⟩ := Option.map_eq_some_iff.mp h
    have hf' : f = extend r ⟨f.body, f.closing, e.rest⟩ := by
      have hr : f.rest = e.rest ++ r := congrArg rest he
      rw [extend, ← hr]
    rw [hf'] at hf he
    rw [ho _ hf]
    exact congrArg some (extend_injective r he)
  have step_eq {n : Nat} {cs : List Char} {e : Enclosure} (hcs : Quiet ('<' :: cs))
      (h : search step takes n ('<' :: cs ++ r) = some (e.extend r)) :
      step (cs ++ r) = (step cs).extend r :=
    hstep cs hcs ((List.suffix_append e.rest r).trans (rest_suffix_of_search h))
  fun_induction search step takes inner cs generalizing e with
  | case1 =>
    have hl := congrArg List.length (append_of_search h)
    simp only [text, extend, ClosingTag.text, List.length_append, List.length_cons,
      List.nil_append] at hl
    omega
  | case2 inner cs _ past rest hs ih =>
    have hq := quiet_rest hcs (takes cs)
    have hs' := step_eq hcs h
    rw [hs] at hq hs'
    rw [List.cons_append, search_of_pass hs'] at h
    exact pass (fun f hf => ih hq hf) h
  | case3 inner cs _ past rest hs ih =>
    have hq := quiet_rest hcs (takes cs)
    have hs' := step_eq hcs h
    rw [hs] at hq hs'
    rw [List.cons_append, search_of_enter hs'] at h
    exact pass (fun f hf => ih hq hf) h
  | case4 cs _ tag rest hs =>
    have hs' := step_eq hcs h
    rw [hs] at hs'
    rw [List.cons_append, search_of_meet hs'] at h
    exact congrArg some (extend_injective r (Option.some.inj h))
  | case5 cs _ tag rest hs inner ih =>
    have hq := quiet_rest hcs (takes cs)
    have hs' := step_eq hcs h
    rw [hs] at hq hs'
    rw [List.cons_append, search_of_meet_succ hs'] at h
    exact pass (fun f hf => ih hq hf) h
  | case6 inner c cs hc ih =>
    have hq : Quiet ([c] ++ cs) := hcs
    rw [List.cons_append, search_cons hc] at h
    exact pass (fun f hf => ih hq.of_append hf) h

theorem metadataStep_eq_extend {name cs r : List Char}
    (h : Mark.read (cs ++ r) = (Mark.read cs).extend r) :
    metadataStep name (cs ++ r) = (metadataStep name cs).extend r := by
  rw [metadataStep, metadataStep, h]
  cases Mark.read cs with
  | comment | unclosed | plain => rfl
  | closing tag rest =>
    simp only [Mark.extend]
    split <;> rfl
  | opening tag rest =>
    simp only [Mark.extend]
    split
    · rfl
    · split <;> rfl

theorem metadataStep_of_comment {name cs inner rest : List Char}
    (h : Mark.read cs = .comment inner rest) :
    metadataStep name cs = .pass ('<' :: inner) rest := by
  rw [metadataStep, h]

theorem read_eq_extend {cs r : List Char} (hcs : Quiet ('<' :: cs))
    (hc : ∀ inner rest, Mark.read cs = .comment inner rest → rest ≠ []) :
    Mark.read (cs ++ r) = (Mark.read cs).extend r := by
  by_cases ht : ∃ t, cs = '!' :: '-' :: '-' :: t
  · obtain ⟨t, rfl⟩ := ht
    obtain ⟨inner, rest, h⟩ := Mark.read_comment t
    rw [h]
    exact Mark.read_append_of_comment (hc inner rest h) h r
  · exact Mark.read_append hcs.getLast? (hcs.quotes [] cs rfl) (fun t h => ht ⟨t, h⟩) r

theorem read_eq_extend_of_suffix {cs r : List Char} (hcs : Quiet ('<' :: cs))
    (hc : ∀ inner rest, Mark.read (cs ++ r) = .comment inner rest → r <:+ rest) :
    Mark.read (cs ++ r) = (Mark.read cs).extend r := by
  by_cases ht : ∃ t, cs = '!' :: '-' :: '-' :: t
  · obtain ⟨t, rfl⟩ := ht
    obtain ⟨inner, rest, h⟩ := Mark.read_comment (t ++ r)
    have h : Mark.read (('!' :: '-' :: '-' :: t) ++ r) = .comment inner rest := h
    obtain ⟨rest', rfl, h'⟩ := Mark.read_of_append_of_comment (hc inner rest h) h
    rw [h']
    exact h
  · exact Mark.read_append hcs.getLast? (hcs.quotes [] cs rfl) (fun t h => ht ⟨t, h⟩) r

theorem metadataStep_append {name cs r : List Char} (hcs : Quiet ('<' :: cs))
    (hr : (metadataStep name cs).rest ≠ [] ∨ ∃ tag rest, metadataStep name cs = .meet tag rest) :
    metadataStep name (cs ++ r) = (metadataStep name cs).extend r := by
  refine metadataStep_eq_extend (read_eq_extend hcs fun inner rest h => ?_)
  rw [metadataStep_of_comment h] at hr
  obtain hr | ⟨_, _, hr⟩ := hr
  · exact hr
  · cases hr

theorem metadataStep_of_append {name cs r : List Char} (hcs : Quiet ('<' :: cs))
    (hr : r <:+ (metadataStep name (cs ++ r)).rest) :
    metadataStep name (cs ++ r) = (metadataStep name cs).extend r := by
  refine metadataStep_eq_extend (read_eq_extend_of_suffix hcs fun inner rest h => ?_)
  rw [metadataStep_of_comment h] at hr
  exact hr

theorem ofMetadata?_append {name cs r : List Char} {e : Enclosure} (hcs : Quiet cs)
    (h : ofMetadata? name cs = some e) : ofMetadata? name (cs ++ r) = some (e.extend r) :=
  search_append (fun _ => metadataStep_append) hcs h

theorem ofMetadata?_of_append {name cs r : List Char} {e : Enclosure} (hcs : Quiet cs)
    (h : ofMetadata? name (cs ++ r) = some (e.extend r)) : ofMetadata? name cs = some e :=
  search_of_append (fun _ => metadataStep_of_append) hcs h

theorem structuralStep_of_append {v : Vocabulary} {name cs r : List Char}
    (hcs : Quiet ('<' :: cs)) (hr : r <:+ (structuralStep v name (cs ++ r)).rest) :
    structuralStep v name (cs ++ r) = (structuralStep v name cs).extend r := by
  have hm : Mark.read (cs ++ r) = (Mark.read cs).extend r := by
    apply read_eq_extend_of_suffix hcs
    intro inner rest h
    rw [structuralStep, h] at hr
    exact hr
  rw [structuralStep, hm] at hr
  rw [structuralStep, structuralStep, hm]
  cases h : Mark.read cs with
  | comment _ _ => rfl
  | closing tag rest =>
    simp only [Mark.extend]
    split <;> rfl
  | opening tag rest =>
    simp only [h, Mark.extend] at hr ⊢
    by_cases hself : tag.selfClosing
    · simp only [hself, if_true]
      rfl
    · by_cases hname : Text.sameName tag.name name
      · simp only [hself, hname, if_true]
        rfl
      · by_cases hmeta : v.classify (.ofList tag.name) = some .metadata
        · have hrest : Quiet rest := by
            rw [← Mark.text_append_of_opening h] at hcs
            exact hcs.of_append
          simp only [hself, hname, hmeta, if_true] at hr ⊢
          cases hi : ofMetadata? tag.name rest with
          | none =>
            cases ho : ofMetadata? tag.name (rest ++ r) with
            | none => rfl
            | some e =>
              -- an element that ends inside the text is found there
              simp only [ho] at hr
              obtain ⟨w, hw⟩ := hr
              have he : e = extend r ⟨e.body, e.closing, w⟩ := by
                rw [extend, hw]
                rfl
              rw [he] at ho
              rw [ofMetadata?_of_append hrest ho] at hi
              cases hi
          | some e =>
            rw [ofMetadata?_append hrest hi]
            rfl
        · simp only [hself, hname, hmeta, if_false]
          rfl
  | unclosed _ _ => rfl
  | plain => rfl

theorem ofStructural?_of_append {v : Vocabulary} {name cs r : List Char} {e : Enclosure}
    (hcs : Quiet cs) (h : ofStructural? v name (cs ++ r) = some (e.extend r)) :
    ofStructural? v name cs = some e :=
  search_of_append (fun _ => structuralStep_of_append) hcs h

/-- In a text that is quiet the enclosure of an element is found without what follows. -/
theorem find?_of_append {v : Vocabulary} {name cs r : List Char} {e : Enclosure}
    (hcs : Quiet cs) (h : find? v name (cs ++ r) = some (e.extend r)) :
    find? v name cs = some e := by
  rw [find?] at h ⊢
  split
  · rw [if_pos ‹_›] at h
    exact ofMetadata?_of_append hcs h
  · rw [if_neg ‹_›] at h
    exact ofStructural?_of_append hcs h

end Enclosure

end ProseMarkup
