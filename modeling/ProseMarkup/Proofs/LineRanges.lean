import ProseMarkup.Proofs.Checked.LineMap

namespace ProseMarkup

open Text (IsSlice)

namespace Line

variable {cs : List Char} {l l' : Line}

def ending (l : Line) : List Char :=
  if l.body.getLast? = some '\r' then ['\r'] else []

theorem content_append_ending (l : Line) : l.content ++ l.ending = l.body := by
  rw [content, ending]
  split
  · rename_i h
    rw [List.dropLast_append_getLast? '\r' h]
  · exact List.append_nil _

theorem ending_lineFeed (l : Line) :
    l.ending ++ ['\n'] = if l.body.getLast? = some '\r' then ['\r', '\n'] else ['\n'] := by
  rw [ending]
  split <;> rfl

theorem lineFeed_not_mem_content (l : Line) : '\n' ∉ l.content := by
  intro hmem
  apply l.lineFeed_not_mem_body
  rw [← content_append_ending]
  exact List.mem_append_left _ hmem

theorem Follows.isSlice (h : l.Follows l') (hof : l.IsOf cs) :
    IsSlice cs l.start l'.start (l.body ++ ['\n']) := by
  have htail : l.tail = (l.body ++ ['\n']) ++ l'.tail := by rw [h.tail]; simp
  have hslice := (htail ▸ hof.isSlice).left
  rw [Text.size_append, ← Nat.add_assoc] at hslice
  exact h.start ▸ hslice

theorem isSlice_of_last (hof : l.IsOf cs) (h : '\n' ∉ l.tail) :
    IsSlice cs l.start (Text.size cs) l.body :=
  body_of_not_mem h ▸ hof.isSlice

end Line

namespace LineMap

def nextStart (m : LineMap) (n : Nat) : Nat :=
  (m.lineRange? (n + 1)).elim m.size Prod.fst

def contentOf (cs : List Char) (n : Nat) : List Char :=
  ((ofText cs).lineRange? n).elim [] fun r => Text.slice r.1 r.2 cs

def terminatorOf (cs : List Char) (n : Nat) : List Char :=
  ((ofText cs).lineRange? n).elim [] fun r => Text.slice r.2 ((ofText cs).nextStart n) cs

/-- How the ranges of the lines lie in a text. -/
structure Tiles (cs : List Char) : Prop where
  valid : ∀ n, Checked.lineRange cs n = some ((ofText cs).lineRange? n)
  lineCount : (Checked.lineStarts cs).length = (ofText cs).lineCount
  isSome_iff : ∀ n, ((ofText cs).lineRange? n).isSome ↔ 1 ≤ n ∧ n ≤ (ofText cs).lineCount
  content : ∀ n start stop, (ofText cs).lineRange? n = some (start, stop) →
    IsSlice cs start stop (contentOf cs n) ∧ '\n' ∉ contentOf cs n
  /-- Between two ranges there is what follows the first line's text without its terminator. -/
  terminator : ∀ n start stop next stop', (ofText cs).lineRange? n = some (start, stop) →
    (ofText cs).lineRange? (n + 1) = some (next, stop') →
    IsSlice cs stop next (terminatorOf cs n) ∧ ∃ body, IsSlice cs start next (body ++ ['\n']) ∧
      terminatorOf cs n = if body.getLast? = some '\r' then ['\r', '\n'] else ['\n']
  first : ((ofText cs).lineRange? 1).map Prod.fst = some 0
  last : ∀ start stop, (ofText cs).lineRange? (ofText cs).lineCount = some (start, stop) →
    IsSlice cs stop (Text.size cs) (terminatorOf cs (ofText cs).lineCount) ∧
      ∃ body, IsSlice cs start (Text.size cs) body ∧
        terminatorOf cs (ofText cs).lineCount = if body.getLast? = some '\r' then ['\r'] else []
  join : (List.range (ofText cs).lineCount).flatMap
    (fun i => contentOf cs (i + 1) ++ terminatorOf cs (i + 1)) = cs
  /-- The line of an offset is the one that starts there or before and is the last, or has its
  successor start behind the offset. -/
  line : ∀ cut, ∀ o ≤ Text.size cs, ∃ p, Checked.position cut cs o = some p ∧
    (ofText cs).positionBy cut o = p ∧ ∀ n, n = p.line ↔
      (∃ start stop, (ofText cs).lineRange? n = some (start, stop) ∧ start ≤ o) ∧
        (n = (ofText cs).lineCount ∨
          ∃ next stop, (ofText cs).lineRange? (n + 1) = some (next, stop) ∧ o < next)

section

variable {cs : List Char} {l l' : Line} {n : Nat}

theorem lineRange?_of_getElem? (h : (ofText cs).lines[n]? = some l) :
    (ofText cs).lineRange? (n + 1) = some l.range := by
  rw [lineRange?, h]
  rfl

theorem exists_of_lineRange? {r : Nat × Nat} (h : (ofText cs).lineRange? n = some r) :
    ∃ i l, n = i + 1 ∧ (ofText cs).lines[i]? = some l ∧ r = l.range := by
  cases n with
  | zero => cases h
  | succ i =>
    obtain ⟨l, hl, rfl⟩ := Option.map_eq_some_iff.mp h
    exact ⟨i, l, rfl, hl, rfl⟩

theorem isSome_lineRange?_iff :
    ((ofText cs).lineRange? n).isSome ↔ 1 ≤ n ∧ n ≤ (ofText cs).lineCount := by
  cases n with
  | zero => simp [lineRange?]
  | succ n =>
    rw [lineRange?, Option.isSome_map, isSome_getElem?, lineCount]
    omega

theorem lineCount_of_last (h : (ofText cs).lines[n]? = some l)
    (hnone : (ofText cs).lines[n + 1]? = none) : (ofText cs).lineCount = n + 1 := by
  obtain ⟨hlt, -⟩ := List.getElem?_eq_some_iff.mp h
  have hle := List.getElem?_eq_none_iff.mp hnone
  rw [lineCount]
  omega

theorem nextStart_of_getElem? (h : (ofText cs).lines[n]? = some l) :
    (ofText cs).nextStart n = l.start := by
  rw [nextStart, lineRange?_of_getElem? h]
  rfl

theorem nextStart_of_none (h : (ofText cs).lines[n]? = none) :
    (ofText cs).nextStart n = Text.size cs := by
  rw [nextStart, lineRange?, h]
  rfl

theorem isSlice_content_ending (h : (ofText cs).lines[n]? = some l) :
    IsSlice cs l.start (l.start + Text.size l.body) (l.content ++ l.ending) := by
  rw [l.content_append_ending]
  exact (isOf_of_getElem? h).isSlice_body

theorem isSlice_contentOf (h : (ofText cs).lines[n]? = some l) :
    IsSlice cs l.range.1 l.range.2 (contentOf cs (n + 1)) ∧ contentOf cs (n + 1) = l.content := by
  have hslice : IsSlice cs l.range.1 l.range.2 l.content := (isSlice_content_ending h).left
  have heq : contentOf cs (n + 1) = l.content := by
    rw [contentOf, lineRange?_of_getElem? h]
    exact hslice.slice_eq
  rw [heq]
  exact ⟨hslice, rfl⟩

theorem terminatorOf_eq {t : List Char} (h : (ofText cs).lines[n]? = some l)
    (ht : IsSlice cs l.range.2 ((ofText cs).nextStart (n + 1)) t) :
    terminatorOf cs (n + 1) = t := by
  rw [terminatorOf, lineRange?_of_getElem? h]
  exact ht.slice_eq

theorem terminatorOf_of_follows (h : (ofText cs).lines[n]? = some l)
    (h' : (ofText cs).lines[n + 1]? = some l') (hfollows : l.Follows l') :
    IsSlice cs l.range.2 l'.start (terminatorOf cs (n + 1)) ∧
      terminatorOf cs (n + 1) = l.ending ++ ['\n'] := by
  have hslice : IsSlice cs l.range.2 l'.start (l.ending ++ ['\n']) := by
    have hline := hfollows.isSlice (isOf_of_getElem? h)
    rw [← l.content_append_ending, List.append_assoc] at hline
    exact hline.right
  have heq := terminatorOf_eq h (nextStart_of_getElem? h' ▸ hslice)
  rw [heq]
  exact ⟨hslice, rfl⟩

theorem terminatorOf_of_last (h : (ofText cs).lines[n]? = some l)
    (hnone : (ofText cs).lines[n + 1]? = none) (hlast : '\n' ∉ l.tail) :
    IsSlice cs l.range.2 (Text.size cs) (terminatorOf cs (n + 1)) ∧
      terminatorOf cs (n + 1) = l.ending := by
  have hslice : IsSlice cs l.range.2 (Text.size cs) l.ending := by
    have hline := Line.isSlice_of_last (isOf_of_getElem? h) hlast
    rw [← l.content_append_ending] at hline
    exact hline.right
  have heq := terminatorOf_eq h (nextStart_of_none hnone ▸ hslice)
  rw [heq]
  exact ⟨hslice, rfl⟩

theorem isSlice_terminatorOf (h : (ofText cs).lines[n]? = some l) :
    IsSlice cs l.range.2 ((ofText cs).nextStart (n + 1)) (terminatorOf cs (n + 1)) := by
  obtain ⟨l', h', hfollows⟩ | ⟨hnone, hlast⟩ := next_of_getElem? h
  · rw [nextStart_of_getElem? h']
    exact (terminatorOf_of_follows h h' hfollows).1
  · rw [nextStart_of_none hnone]
    exact (terminatorOf_of_last h hnone hlast).1

theorem isSlice_flatMap (hn : n ≤ (ofText cs).lineCount) :
    IsSlice cs 0 ((ofText cs).nextStart n)
      ((List.range n).flatMap fun i => contentOf cs (i + 1) ++ terminatorOf cs (i + 1)) := by
  induction n with
  | zero => exact Text.isSlice_nil ⟨[], cs, rfl, rfl⟩
  | succ n ih =>
    have hl : (ofText cs).lines[n]? = some (ofText cs).lines[n] := List.getElem?_eq_getElem hn
    generalize (ofText cs).lines[n] = l at hl
    have hcontent := (isSlice_contentOf hl).1
    have hline := hcontent.append (isSlice_terminatorOf hl)
    rw [List.range_succ, List.flatMap_append, List.flatMap_singleton]
    -- the lines before this one end where it starts
    have hbefore := ih (Nat.le_of_succ_le hn)
    rw [nextStart_of_getElem? hl] at hbefore
    exact hbefore.append hline

theorem flatMap_lines (cs : List Char) : (List.range (ofText cs).lineCount).flatMap
    (fun i => contentOf cs (i + 1) ++ terminatorOf cs (i + 1)) = cs := by
  have hend : (ofText cs).nextStart (ofText cs).lineCount = Text.size cs :=
    nextStart_of_none (List.getElem?_eq_none (Nat.le_refl _))
  have hjoin := isSlice_flatMap (Nat.le_refl (ofText cs).lineCount)
  rw [hend] at hjoin
  rw [← hjoin.slice_eq, (Text.isSlice_self cs).slice_eq]

theorem start_le_iff {o : Nat} :
    (∃ start stop, (ofText cs).lineRange? (n + 1) = some (start, stop) ∧ start ≤ o) ↔
      n < ((ofText cs).started o).length := by
  rw [lt_length_started_iff]
  constructor
  · rintro ⟨start, stop, hrange, hle⟩
    obtain ⟨l, hl, heq⟩ := Option.map_eq_some_iff.mp hrange
    cases heq
    exact ⟨l, hl, hle⟩
  · rintro ⟨l, hl, hle⟩
    exact ⟨_, _, lineRange?_of_getElem? hl, hle⟩

theorem eq_length_started_iff {o : Nat} : n = ((ofText cs).started o).length ↔
    (∃ start stop, (ofText cs).lineRange? n = some (start, stop) ∧ start ≤ o) ∧
      (n = (ofText cs).lineCount ∨
        ∃ next stop, (ofText cs).lineRange? (n + 1) = some (next, stop) ∧ o < next) := by
  constructor
  · rintro rfl
    obtain ⟨i, l, hl, hat, hlength, -⟩ := exists_at cs o
    have hnot := Nat.lt_irrefl ((ofText cs).started o).length
    rw [lt_length_started_iff] at hnot
    rw [hlength] at hnot ⊢
    refine ⟨start_le_iff.mpr (by omega), ?_⟩
    obtain ⟨l', hl', -⟩ | ⟨hnone, -⟩ := next_of_getElem? hl
    · refine .inr ⟨_, _, lineRange?_of_getElem? hl', ?_⟩
      by_contra hle
      exact hnot ⟨l', hl', Nat.not_lt.mp hle⟩
    · exact .inl (lineCount_of_last hl hnone).symm
  · rintro ⟨⟨start, stop, hrange, hle⟩, hnext⟩
    obtain ⟨i, l, rfl, hl, heq⟩ := exists_of_lineRange? hrange
    have hi := start_le_iff.mp ⟨start, stop, hrange, hle⟩
    have hnot : ¬ i + 1 < ((ofText cs).started o).length := by
      intro hlt
      obtain ⟨l', hl', hle'⟩ := lt_length_started_iff.mp hlt
      obtain hcount | ⟨next, stop', hrange', hbehind⟩ := hnext
      · obtain ⟨hlast, -⟩ := List.getElem?_eq_some_iff.mp hl'
        exact absurd hcount (Nat.ne_of_lt hlast)
      · rw [lineRange?_of_getElem? hl'] at hrange'
        cases hrange'
        omega
    omega

end

/-- The ranges of the lines, each with its terminator, are the text. -/
theorem tiles_ofText (cs : List Char) : Tiles cs where
  valid := Checked.lineRange_eq cs
  lineCount := by
    rw [Checked.lineStarts_eq, List.length_map]
    rfl
  isSome_iff _ := isSome_lineRange?_iff
  content n start stop h := by
    obtain ⟨i, l, rfl, hl, heq⟩ := exists_of_lineRange? h
    cases heq
    obtain ⟨hslice, hcontent⟩ := isSlice_contentOf hl
    exact ⟨hslice, hcontent ▸ l.lineFeed_not_mem_content⟩
  terminator n start stop next stop' h h' := by
    obtain ⟨i, l, rfl, hl, heq⟩ := exists_of_lineRange? h
    obtain ⟨l', hl', heq'⟩ := Option.map_eq_some_iff.mp h'
    cases heq
    cases heq'
    obtain ⟨l'', hnext, hfollows⟩ | ⟨hnone, -⟩ := next_of_getElem? hl
    · obtain rfl := Option.some.inj (hl'.symm.trans hnext)
      obtain ⟨hslice, hterminator⟩ := terminatorOf_of_follows hl hl' hfollows
      refine ⟨hslice, l.body, ?_, hterminator.trans l.ending_lineFeed⟩
      exact hfollows.isSlice (isOf_of_getElem? hl)
    · cases hl'.symm.trans hnone
  first := rfl
  last start stop h := by
    obtain ⟨i, l, hcount, hl, heq⟩ := exists_of_lineRange? h
    cases heq
    have hnone : (ofText cs).lines[i + 1]? = none :=
      List.getElem?_eq_none (Nat.le_of_eq hcount)
    obtain ⟨l', hl', -⟩ | ⟨-, hlast⟩ := next_of_getElem? hl
    · cases hl'.symm.trans hnone
    · obtain ⟨hslice, hterminator⟩ := terminatorOf_of_last hl hnone hlast
      rw [hcount]
      refine ⟨hslice, l.body, ?_, hterminator⟩
      exact Line.isSlice_of_last (isOf_of_getElem? hl) hlast
  join := flatMap_lines cs
  line cut o ho := by
    refine ⟨_, Checked.position_eq cut cs o, rfl, ?_⟩
    intro n
    change n = ((ofText cs).started (min o (Text.size cs))).length ↔ _
    rw [Nat.min_eq_left ho]
    exact eq_length_started_iff

end LineMap

end ProseMarkup
