import ProseMarkup.Checked.LineMap
import ProseMarkup.Proofs.Checked.Access
import ProseMarkup.Proofs.Lines

namespace ProseMarkup.Checked

open Text (size IsSlice)

theorem sub?_succ_one (n : Nat) : sub? (n + 1) 1 = some n :=
  Nat.add_comm 1 n ▸ sub?_add 1 n

theorem findIdxs_bytes (start : Nat) (cs : List Char) :
    ((bytes cs).findIdxs (· == '\n'.toUInt8) start).map (· + 1) =
      (LineMap.linesAfter start cs).map Line.start := by
  induction cs generalizing start with
  | nil => rfl
  | cons c cs ih =>
    rw [bytes_cons, List.findIdxs_append, List.map_append, String.length_utf8EncodeChar, ih,
      LineMap.linesAfter]
    by_cases hc : c = '\n'
    · subst hc
      rfl
    · have hnone : (String.utf8EncodeChar c).findIdxs (· == '\n'.toUInt8) start = [] := by
        rw [List.findIdxs_eq_nil_iff]
        intro b hb
        apply beq_false_of_ne
        rintro rfl
        exact hc ((toUInt8_mem_utf8EncodeChar (by decide)).mp hb)
      rw [hnone, if_neg hc]
      rfl

theorem lineStarts_eq (cs : List Char) :
    lineStarts cs = (LineMap.ofText cs).lines.map Line.start :=
  congrArg (0 :: ·) (findIdxs_bytes 0 cs)

theorem pairwise_lineStarts (cs : List Char) : (lineStarts cs).Pairwise (· < ·) := by
  rw [lineStarts_eq, List.pairwise_map]
  exact LineMap.pairwise_lines cs

theorem length_takeWhile_linesAfter (start : Nat) (cs : List Char) (n : Nat) :
    ((LineMap.linesAfter start cs).takeWhile (·.start ≤ n)).length =
      ((bytes cs).take (n - start)).count '\n'.toUInt8 := by
  induction cs generalizing start with
  | nil => simp [LineMap.linesAfter, bytes]
  | cons c cs ih =>
    rw [LineMap.linesAfter, bytes_cons, List.take_append, List.count_append,
      String.length_utf8EncodeChar, Nat.sub_sub]
    by_cases hc : c = '\n'
    · have hsize : c.utf8Size = 1 := by rw [hc]; rfl
      have hbytes : String.utf8EncodeChar c = ['\n'.toUInt8] := by rw [hc]; rfl
      rw [if_pos hc, List.takeWhile_cons, hsize, hbytes]
      simp only [decide_eq_true_eq]
      by_cases hn : start + 1 ≤ n
      · obtain ⟨m, rfl⟩ := Nat.exists_eq_add_of_le hn
        rw [if_pos hn, List.length_cons, ih, show start + 1 + m - start = m + 1 by omega,
          List.take_succ_cons, List.take_nil, List.count_singleton_self, Nat.add_comm]
      · rw [if_neg hn, show n - start = 0 by omega, show n - (start + 1) = 0 by omega]
        rfl
    · have hnone : ((String.utf8EncodeChar c).take (n - start)).count '\n'.toUInt8 = 0 := by
        rw [List.count_eq_zero]
        intro hb
        exact hc ((toUInt8_mem_utf8EncodeChar (by decide)).mp (List.mem_of_mem_take hb))
      rw [if_neg hc, ih, hnone, Nat.zero_add]

section

variable {ns : List Nat} {n : Nat}

/-- Holds while the number can only stand among the `size` indexes from `base` on. -/
structure Brackets (ns : List Nat) (n base size : Nat) : Prop where
  pos : 0 < size
  le : base + size ≤ ns.length
  /-- Only the first entry may be too large to go on from. -/
  below : base = 0 ∨ ∃ m, ns[base]? = some m ∧ m ≤ n
  above : ∀ j m, base + size ≤ j → ns[j]? = some m → n < m

theorem brackets_all (n : Nat) (h : ns ≠ []) : Brackets ns n 0 ns.length := by
  refine ⟨List.length_pos_iff.mpr h, by omega, .inl rfl, ?_⟩
  intro j m hj hm
  rw [List.getElem?_eq_none (by omega)] at hm
  cases hm

theorem Brackets.half {base size middle : Nat} (hns : ns.Pairwise (· < ·))
    (h : Brackets ns n base size) (hsize : 1 < size)
    (hmiddle : ns[base + size / 2]? = some middle) :
    Brackets ns n (if n < middle then base else base + size / 2) (size - size / 2) := by
  obtain ⟨hpos, hle, hbelow, habove⟩ := h
  split
  · rename_i hn
    refine ⟨by omega, by omega, hbelow, ?_⟩
    intro j m hj hm
    obtain hj | rfl : base + size / 2 < j ∨ j = base + size / 2 := by omega
    · exact Nat.lt_trans hn (rel_of_getElem? hns hj hmiddle hm)
    · rwa [Option.some.inj (hm.symm.trans hmiddle)]
  · rename_i hn
    refine ⟨by omega, by omega, .inr ⟨middle, hmiddle, Nat.not_lt.mp hn⟩, ?_⟩
    intro j m hj hm
    exact habove j m (by omega) hm

theorem narrow_spec (hns : ns.Pairwise (· < ·)) (base size : Nat) (h : Brackets ns n base size) :
    ∃ i, narrow ns n base size = some i ∧ Brackets ns n i 1 := by
  induction size using Nat.strong_induction_on generalizing base with
  | _ size ih =>
    have hpos := h.pos
    have hle := h.le
    rw [narrow]
    by_cases hsize : 1 < size
    · have hlt : base + size / 2 < ns.length := by omega
      rw [if_pos hsize, List.getElem?_eq_getElem hlt]
      apply ih
      · omega
      · exact h.half hns hsize (List.getElem?_eq_getElem hlt)
    · obtain rfl : size = 1 := by omega
      rw [if_neg hsize]
      exact ⟨base, rfl, h⟩

/-- Holds of the right end of a search: the number stands at the index, or all entries before it are
smaller and all from it on are larger. -/
def Found.IsOf (ns : List Nat) (n : Nat) : Found → Prop
  | hit i => ns[i]? = some n
  | miss i => i ≤ ns.length ∧ ∀ j m, ns[j]? = some m → (j < i → m < n) ∧ (i ≤ j → n < m)

theorem Brackets.isOf {i m : Nat} (hns : ns.Pairwise (· < ·)) (h : Brackets ns n i 1)
    (hget : ns[i]? = some m) :
    Found.IsOf ns n (if m = n then .hit i else .miss (if m < n then i + 1 else i)) := by
  obtain ⟨-, hle, hbelow, habove⟩ := h
  by_cases heq : m = n
  · rw [if_pos heq]
    exact hget.trans (congrArg some heq)
  · rw [if_neg heq]
    by_cases hlt : m < n
    · rw [if_pos hlt]
      refine ⟨hle, ?_⟩
      intro j a ha
      refine ⟨fun hj => ?_, fun hj => habove j a hj ha⟩
      obtain hj | rfl : j < i ∨ j = i := by omega
      · exact Nat.lt_trans (rel_of_getElem? hns hj ha hget) hlt
      · rwa [Option.some.inj (ha.symm.trans hget)]
    · -- an entry above the number is left over only where it is the first
      obtain rfl : i = 0 := by
        obtain hzero | ⟨m', hm', hle'⟩ := hbelow
        · exact hzero
        · rw [Option.some.inj (hm'.symm.trans hget)] at hle'
          omega
      rw [if_neg hlt]
      refine ⟨Nat.zero_le _, ?_⟩
      intro j a ha
      refine ⟨by omega, fun _ => ?_⟩
      obtain hj | rfl : 0 < j ∨ j = 0 := by omega
      · exact habove j a hj ha
      · rw [Option.some.inj (ha.symm.trans hget)]
        omega

theorem searchSorted_spec (hns : ns.Pairwise (· < ·)) (n : Nat) :
    ∃ found, searchSorted ns n = some found ∧ found.IsOf ns n := by
  by_cases hnil : ns = []
  · subst hnil
    refine ⟨.miss 0, rfl, Nat.le_refl _, ?_⟩
    rintro j m ⟨⟩
  · obtain ⟨i, hi, hbrackets⟩ := narrow_spec hns 0 ns.length (brackets_all n hnil)
    have hlt : i < ns.length := hbrackets.le
    have hget := List.getElem?_eq_getElem hlt
    rw [searchSorted, if_neg hnil, hi]
    simp only [Option.bind_eq_bind, Option.bind_some, hget]
    exact ⟨_, rfl, hbrackets.isOf hns hget⟩

end

section

variable {cs : List Char} {l : Line} {n o : Nat}

theorem getElem?_lineStarts (cs : List Char) (n : Nat) :
    (lineStarts cs)[n]? = (LineMap.ofText cs).lines[n]?.map Line.start := by
  rw [lineStarts_eq, List.getElem?_map]

theorem getElem?_lineStarts_of (hl : (LineMap.ofText cs).lines[n]? = some l) :
    (lineStarts cs)[n]? = some l.start := by
  rw [getElem?_lineStarts, hl]
  rfl

/-- The search hits the start of the line that the offset is on, or it misses right behind it. -/
theorem searchSorted_lineStarts (hl : (LineMap.ofText cs).lines[n]? = some l) (hat : l.At cs o) :
    searchSorted (lineStarts cs) o = some (.hit n) ∨
      searchSorted (lineStarts cs) o = some (.miss (n + 1)) := by
  have hstart := getElem?_lineStarts_of hl
  have hlater {j m : Nat} (hj : n < j) (hm : (lineStarts cs)[j]? = some m) : o < m := by
    have hlt := rel_of_getElem? (pairwise_lineStarts cs) hj hstart hm
    rw [getElem?_lineStarts] at hm
    obtain ⟨l', hl', rfl⟩ := Option.map_eq_some_iff.mp hm
    by_contra hle
    have := hat.last l' (LineMap.isOf_of_getElem? hl') (by omega)
    omega
  obtain ⟨found, hsearch, hfound⟩ := searchSorted_spec (pairwise_lineStarts cs) o
  rw [hsearch]
  have hle := hat.le
  cases found with
  | hit i =>
    left
    obtain hi | rfl | hi : i < n ∨ i = n ∨ n < i := by omega
    · have hlt := rel_of_getElem? (pairwise_lineStarts cs) hi hfound hstart
      omega
    · rfl
    · exact absurd (hlater hi hfound) (Nat.lt_irrefl o)
  | miss i =>
    right
    obtain ⟨hlength, hsides⟩ := hfound
    have hi : n < i := by
      by_contra hi
      have hlt := (hsides n l.start hstart).2 (by omega)
      omega
    obtain hi | rfl : n + 1 < i ∨ i = n + 1 := by omega
    · have hget : (lineStarts cs)[n + 1]? = some (lineStarts cs)[n + 1] :=
        List.getElem?_eq_getElem (by omega)
      have hlt := (hsides (n + 1) _ hget).1 hi
      have hgt := hlater (Nat.lt_succ_self n) hget
      omega
    · rfl

theorem length_takeWhile_placed {start i : Nat} (h : start + i ≤ o) (ks : List (List Char)) :
    ((placed i ks).takeWhile fun p => start + p.1 + size p.2 ≤ o).length =
      Line.clustersWithin (o - (start + i)) ks := by
  induction ks generalizing i with
  | nil => rfl
  | cons k ks ih =>
    rw [placed, List.takeWhile_cons, Line.clustersWithin]
    simp only [decide_eq_true_eq]
    by_cases hk : start + i + size k ≤ o
    · rw [if_pos hk, if_pos (by omega), List.length_cons, ih (by omega)]
      congr 2
      omega
    · rw [if_neg hk, if_neg (by omega)]
      rfl

theorem position_eq (cut : List Char → List (List Char)) (cs : List Char) (o : Nat) :
    position cut cs o = some ((LineMap.ofText cs).positionBy cut o) := by
  obtain ⟨n, l, hl, hat, heq⟩ := LineMap.exists_positionBy_eq cut cs o
  rw [← Line.at_min_iff] at hat
  have hstart := getElem?_lineStarts_of hl
  have htail : slice? cs l.start (size cs) = some l.tail := slice?_of hat.isOf.isSlice
  have hcount := length_takeWhile_placed (i := 0) hat.le (cut l.tail)
  rw [heq, Line.columnBy, position]
  obtain h | h := searchSorted_lineStarts hl hat
  · simp only [h, Option.bind_eq_bind, Option.bind_some, hstart, htail, hcount]
    rfl
  · simp only [h, Option.bind_eq_bind, Option.bind_some, sub?_succ_one, hstart, htail, hcount]
    rfl

theorem byte?_last {start stop : Nat} {xs : List Char} {m c : Char} (hm : IsAscii m)
    (h : IsSlice cs start stop (xs ++ [c])) :
    ∃ b, byte? cs (stop - 1) = some b ∧ (b = m.toUInt8 ↔ c = m) := by
  have hpos := c.utf8Size_pos
  have hlength := String.length_utf8EncodeChar c
  have hstop := h.right.start_add
  rw [Text.size_cons, Text.size_nil, Nat.add_zero] at hstop
  have hlt : c.utf8Size - 1 < (String.utf8EncodeChar c).length := by omega
  have hbyte : byte? cs (start + size xs + (c.utf8Size - 1)) = (bytes [c])[c.utf8Size - 1]? := by
    apply byte?_add h.right
    rw [Text.size_cons, Text.size_nil]
    omega
  rw [bytes_cons, List.getElem?_append_left hlt, List.getElem?_eq_getElem hlt] at hbyte
  refine ⟨_, by rw [← hbyte]; congr 1; omega, ?_⟩
  constructor
  · intro hb
    exact (toUInt8_mem_utf8EncodeChar hm).mp (hb ▸ List.getElem_mem hlt)
  · rintro rfl
    simp only [utf8EncodeChar_of_isAscii hm, utf8Size_of_isAscii hm]
    rfl

theorem trimReturn_eq {start stop : Nat} {body : List Char} (h : IsSlice cs start stop body) :
    trimReturn cs start stop =
      some (start + size (if body.getLast? = some '\r' then body.dropLast else body)) := by
  obtain rfl | ⟨xs, c, rfl⟩ := body.eq_nil_or_concat'
  · obtain rfl := h.eq_of_nil
    rw [trimReturn, if_neg (Nat.lt_irrefl start)]
    rfl
  · have hlt := h.lt (by simp)
    have hstop := h.start_add
    obtain ⟨b, hb, hiff⟩ := byte?_last (m := '\r') (by decide) h
    have hsub : sub? stop 1 = some (stop - 1) := if_pos (by omega)
    rw [trimReturn, if_pos hlt, hsub]
    simp only [Option.bind_eq_bind, Option.bind_some, hb, hiff, List.getLast?_concat,
      List.dropLast_concat, Option.some.injEq]
    apply congrArg some
    split
    · rename_i hc
      subst hc
      rw [Text.size_append] at hstop
      change start + (size xs + 1) = stop at hstop
      omega
    · exact hstop.symm

theorem lineRange_eq (cs : List Char) (number : Nat) :
    lineRange cs number = some ((LineMap.ofText cs).lineRange? number) := by
  cases number with
  | zero => rfl
  | succ n =>
    rw [lineRange, LineMap.lineRange?, sub?_succ_one]
    simp only [Option.bind_some, getElem?_lineStarts]
    cases hl : (LineMap.ofText cs).lines[n]? with
    | none => rfl
    | some l =>
      have hof := LineMap.isOf_of_getElem? hl
      have hbody := hof.isSlice_body
      simp only [Option.map_some]
      obtain ⟨l', hl', hfollows⟩ | ⟨hnone, hlast⟩ := LineMap.next_of_getElem? hl
      · have hstop : sub? l'.start 1 = some (l.start + size l.body) := by
          rw [hfollows.start, sub?_succ_one]
        simp only [hl', Option.map_some, hstop, Option.bind_eq_bind, Option.bind_some,
          trimReturn_eq hbody]
        rfl
      · have hstop : l.start + size l.body = size cs := by
          rw [Line.body_of_not_mem hlast, hof.isSlice.start_add]
        rw [hstop] at hbody
        simp only [hnone, Option.map_none, Option.bind_eq_bind, Option.bind_some,
          trimReturn_eq hbody]
        rfl

end

end ProseMarkup.Checked
