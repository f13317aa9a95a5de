import ProseMarkup.LineMap
import ProseMarkup.Proofs.Slices
import Mathlib.Data.List.TakeWhile

namespace ProseMarkup

open Text (IsSlice)

variable {cs : List Char}

theorem rel_of_getElem? {α : Type} {R : α → α → Prop} {as : List α} (h : as.Pairwise R) {i j : Nat}
    {a b : α} (hij : i < j) (hi : as[i]? = some a) (hj : as[j]? = some b) : R a b := by
  obtain ⟨hi', rfl⟩ := List.getElem?_eq_some_iff.mp hi
  obtain ⟨hj', rfl⟩ := List.getElem?_eq_some_iff.mp hj
  exact List.pairwise_iff_getElem.mp h i j hi' hj' hij

theorem lt_length_takeWhile_iff {α : Type} {p : α → Bool} {as : List α}
    (h : as.Pairwise fun a b => p b = true → p a = true) {n : Nat} :
    n < (as.takeWhile p).length ↔ ∃ a, as[n]? = some a ∧ p a = true := by
  induction as generalizing n with
  | nil => simp
  | cons b as ih =>
    obtain ⟨hb, has⟩ := List.pairwise_cons.mp h
    by_cases hp : p b = true
    · rw [List.takeWhile_cons_of_pos hp, List.length_cons]
      cases n with
      | zero => simp [hp]
      | succ n => rw [Nat.add_lt_add_iff_right, ih has, List.getElem?_cons_succ]
    · rw [List.takeWhile_cons_of_neg hp]
      refine iff_of_false (Nat.not_lt_zero n) ?_
      rintro ⟨a, ha, hpa⟩
      obtain rfl | hmem := List.mem_cons.mp (List.mem_of_getElem? ha)
      · exact hp hpa
      · exact hp (hb a hmem hpa)

namespace Line

variable {l l' : Line} {n : Nat}

def IsOf (cs : List Char) (l : Line) : Prop :=
  l = ⟨0, cs⟩ ∨ ∃ before, cs = before ++ '\n' :: l.tail ∧ l.start = Text.size before + 1

theorem IsOf.isSlice (h : l.IsOf cs) : IsSlice cs l.start (Text.size cs) l.tail := by
  obtain rfl | ⟨before, rfl, hstart⟩ := h
  · exact Text.isSlice_self cs
  · refine ⟨before ++ ['\n'], [], ?_, ?_, ?_⟩
    · simp
    · rw [Text.size_append, hstart]
      rfl
    · rw [Text.size_append, Text.size_cons, hstart, ← Nat.add_assoc]
      rfl

theorem IsOf.eq_of_start (h : l.IsOf cs) (h' : l'.IsOf cs) (hstart : l.start = l'.start) :
    l = l' := by
  refine Line.ext hstart ?_
  rw [← h.isSlice.slice_eq, ← h'.isSlice.slice_eq, hstart]

/-- Holds of the line that an offset is on, the last that starts there or before. -/
structure At (cs : List Char) (n : Nat) (l : Line) : Prop where
  isOf : l.IsOf cs
  le : l.start ≤ n
  last : ∀ l' : Line, l'.IsOf cs → l'.start ≤ n → l'.start ≤ l.start

theorem At.unique (h : l.At cs n) (h' : l'.At cs n) : l = l' :=
  h.isOf.eq_of_start h'.isOf (Nat.le_antisymm (h'.last l h.isOf h.le) (h.last l' h'.isOf h'.le))

theorem IsOf.at_start (h : l.IsOf cs) : l.At cs l.start :=
  ⟨h, Nat.le_refl _, fun _ _ hle => hle⟩

theorem at_min_iff : l.At cs (min n (Text.size cs)) ↔ l.At cs n := by
  constructor
  · rintro ⟨hof, hle, hlast⟩
    refine ⟨hof, by omega, ?_⟩
    intro l' hof' hle'
    exact hlast l' hof' (Nat.le_min.mpr ⟨hle', hof'.isSlice.le⟩)
  · rintro ⟨hof, hle, hlast⟩
    refine ⟨hof, Nat.le_min.mpr ⟨hle, hof.isSlice.le⟩, ?_⟩
    intro l' hof' hle'
    exact hlast l' hof' (by omega)

theorem lineFeed_not_mem_body (l : Line) : '\n' ∉ l.body := by
  intro hmem
  simpa using List.mem_takeWhile_imp hmem

theorem body_of_not_mem (h : '\n' ∉ l.tail) : l.body = l.tail := by
  refine List.takeWhile_eq_self_iff.mpr ?_
  intro c hc
  simpa using ne_of_mem_of_not_mem hc h

theorem body_of_append {past rest : List Char} (h : '\n' ∉ past)
    (htail : l.tail = past ++ '\n' :: rest) : l.body = past := by
  rw [body, htail, List.takeWhile_append_of_pos]
  · simp
  · intro c hc
    simpa using ne_of_mem_of_not_mem hc h

theorem exists_tail_eq (l : Line) : ∃ rest, l.tail = l.body ++ rest :=
  ⟨_, (List.takeWhile_append_dropWhile ..).symm⟩

theorem IsOf.isSlice_body (h : l.IsOf cs) :
    IsSlice cs l.start (l.start + Text.size l.body) l.body := by
  obtain ⟨rest, htail⟩ := l.exists_tail_eq
  exact (htail ▸ h.isSlice).left

structure Follows (l l' : Line) : Prop where
  tail : l.tail = l.body ++ '\n' :: l'.tail
  start : l'.start = l.start + Text.size l.body + 1

theorem follows_of_append {past rest : List Char} {start : Nat} (h : '\n' ∉ past) :
    Follows ⟨start, past ++ '\n' :: rest⟩ ⟨start + Text.size past + 1, rest⟩ := by
  have hbody : body ⟨start, past ++ '\n' :: rest⟩ = past := body_of_append h rfl
  constructor
  · rw [hbody]
  · rw [hbody]

end Line

namespace LineMap

variable {l l' : Line} {n start : Nat}

theorem linesAfter_of_not_mem (h : '\n' ∉ cs) : linesAfter start cs = [] := by
  induction cs generalizing start with
  | nil => rfl
  | cons c cs ih =>
    rw [List.mem_cons, not_or] at h
    obtain ⟨hc, hcs⟩ := h
    rw [linesAfter, if_neg (Ne.symm hc), ih hcs]

theorem linesAfter_append {past rest : List Char} (h : '\n' ∉ past) :
    linesAfter start (past ++ '\n' :: rest) =
      ⟨start + Text.size past + 1, rest⟩ :: linesAfter (start + Text.size past + 1) rest := by
  induction past generalizing start with
  | nil => rfl
  | cons c past ih =>
    rw [List.mem_cons, not_or] at h
    obtain ⟨hc, hpast⟩ := h
    rw [List.cons_append, linesAfter, if_neg (Ne.symm hc), ih hpast, Text.size_cons,
      ← Nat.add_assoc start]

theorem mem_linesAfter_iff : l ∈ linesAfter start cs ↔
    ∃ before, cs = before ++ '\n' :: l.tail ∧ l.start = start + Text.size before + 1 := by
  induction cs generalizing start with
  | nil => simp [linesAfter]
  | cons c cs ih =>
    have hmem : l ∈ linesAfter start (c :: cs) ↔ c = '\n' ∧ l = ⟨start + c.utf8Size, cs⟩ ∨
        l ∈ linesAfter (start + c.utf8Size) cs := by
      rw [linesAfter]
      split <;> simp_all
    rw [hmem, ih]
    constructor
    · rintro (⟨rfl, rfl⟩ | ⟨before, rfl, hstart⟩)
      · exact ⟨[], rfl, rfl⟩
      · exact ⟨c :: before, rfl, by rw [hstart, Text.size_cons, ← Nat.add_assoc start]⟩
    · rintro ⟨before, hcs, hstart⟩
      obtain ⟨rfl, hcons⟩ | ⟨past, rfl, rfl⟩ := List.cons_eq_append_iff.mp hcs
      · cases hcons
        exact .inl ⟨rfl, Line.ext hstart rfl⟩
      · exact .inr ⟨past, rfl, by rw [hstart, Text.size_cons, ← Nat.add_assoc start]⟩

theorem mem_lines_iff : l ∈ (ofText cs).lines ↔ l.IsOf cs := by
  rw [ofText, List.mem_cons, mem_linesAfter_iff, Line.IsOf]
  simp only [Nat.zero_add]

theorem isOf_of_getElem? (h : (ofText cs).lines[n]? = some l) : l.IsOf cs :=
  mem_lines_iff.mp (List.mem_of_getElem? h)

theorem pairwise_linesAfter (start : Nat) (cs : List Char) :
    (⟨start, cs⟩ :: linesAfter start cs).Pairwise fun a b : Line => a.start < b.start := by
  induction cs generalizing start with
  | nil => exact List.pairwise_singleton _ _
  | cons c cs ih =>
    have hlines : (linesAfter start (c :: cs)).Pairwise fun a b => a.start < b.start := by
      rw [linesAfter]
      split
      · exact ih _
      · exact (ih _).of_cons
    refine .cons ?_ hlines
    intro l hl
    obtain ⟨before, -, hstart⟩ := mem_linesAfter_iff.mp hl
    rw [hstart]
    exact Nat.lt_succ_of_le (Nat.le_add_right _ _)

theorem pairwise_lines (cs : List Char) :
    (ofText cs).lines.Pairwise fun a b => a.start < b.start :=
  pairwise_linesAfter 0 cs

theorem next_of_getElem?_linesAfter (h : (⟨start, cs⟩ :: linesAfter start cs)[n]? = some l) :
    (∃ l', (linesAfter start cs)[n]? = some l' ∧ l.Follows l') ∨
      (linesAfter start cs)[n]? = none ∧ '\n' ∉ l.tail := by
  induction n generalizing start cs with
  | zero =>
    cases h
    by_cases hmem : '\n' ∈ cs
    · left
      obtain ⟨past, rest, rfl, hpast⟩ := List.eq_append_cons_of_mem hmem
      rw [linesAfter_append hpast]
      exact ⟨_, rfl, Line.follows_of_append hpast⟩
    · exact .inr ⟨by rw [linesAfter_of_not_mem hmem]; rfl, hmem⟩
  | succ n ih =>
    by_cases hmem : '\n' ∈ cs
    · obtain ⟨past, rest, rfl, hpast⟩ := List.eq_append_cons_of_mem hmem
      rw [linesAfter_append hpast] at h ⊢
      exact ih h
    · rw [linesAfter_of_not_mem hmem] at h
      cases h

theorem next_of_getElem? (h : (ofText cs).lines[n]? = some l) :
    (∃ l', (ofText cs).lines[n + 1]? = some l' ∧ l.Follows l') ∨
      (ofText cs).lines[n + 1]? = none ∧ '\n' ∉ l.tail :=
  next_of_getElem?_linesAfter h

theorem lt_length_started_iff {o : Nat} : n < ((ofText cs).started o).length ↔
    ∃ l, (ofText cs).lines[n]? = some l ∧ l.start ≤ o := by
  rw [started, lt_length_takeWhile_iff]
  · simp only [decide_eq_true_eq]
  · refine (pairwise_lines cs).imp ?_
    intro a b hlt hb
    simp only [decide_eq_true_eq] at hb ⊢
    omega

theorem exists_at (cs : List Char) (o : Nat) : ∃ n l, (ofText cs).lines[n]? = some l ∧ l.At cs o ∧
    ((ofText cs).started o).length = n + 1 ∧ ((ofText cs).started o).getLast? = some l := by
  have hfirst : 0 < ((ofText cs).started o).length :=
    lt_length_started_iff.mpr ⟨⟨0, cs⟩, rfl, Nat.zero_le o⟩
  obtain ⟨n, hn⟩ := Nat.exists_eq_add_of_lt hfirst
  rw [Nat.zero_add] at hn
  have hlast : n < ((ofText cs).started o).length := by omega
  obtain ⟨l, hl, hle⟩ := lt_length_started_iff.mp hlast
  have hat : l.At cs o := by
    refine ⟨isOf_of_getElem? hl, hle, ?_⟩
    intro l' hof hle'
    obtain ⟨m, hm⟩ := List.mem_iff_getElem?.mp (mem_lines_iff.mpr hof)
    have hlt := lt_length_started_iff.mpr ⟨l', hm, hle'⟩
    obtain hmn | rfl : m < n ∨ m = n := by omega
    · exact Nat.le_of_lt (rel_of_getElem? (pairwise_lines cs) hmn hm hl)
    · rw [Option.some.inj (hm.symm.trans hl)]
  have hget : ((ofText cs).started o).getLast? = some l := by
    obtain ⟨later, hlater⟩ : (ofText cs).started o <+: (ofText cs).lines := List.takeWhile_prefix _
    rw [← hlater, List.getElem?_append_left hlast] at hl
    rw [List.getLast?_eq_getElem?, hn, Nat.add_sub_cancel, hl]
  exact ⟨n, l, hl, hat, hn, hget⟩

/-- The position of an offset is that in the line that the offset is on. -/
theorem exists_positionBy_eq (cut : List Char → List (List Char)) (cs : List Char) (o : Nat) :
    ∃ n l, (ofText cs).lines[n]? = some l ∧ l.At cs o ∧ (ofText cs).positionBy cut o =
      ⟨n + 1, l.columnBy cut (min o (Text.size cs)), min o (Text.size cs)⟩ := by
  obtain ⟨n, l, hl, hat, hlength, hlast⟩ := exists_at cs (min o (Text.size cs))
  refine ⟨n, l, hl, Line.at_min_iff.mp hat, ?_⟩
  change Position.mk ((ofText cs).started (min o (Text.size cs))).length
    ((((ofText cs).started (min o (Text.size cs))).getLast?.map
      (·.columnBy cut (min o (Text.size cs)))).getD 1) _ = _
  rw [hlength, hlast]
  rfl

end LineMap

end ProseMarkup
