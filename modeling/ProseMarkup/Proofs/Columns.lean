import ProseMarkup.Proofs.Checked.LineMap
import Mathlib.Data.Prod.Lex

namespace ProseMarkup

open Text (IsSlice)

/-- Holds of a cut of texts into clusters of at least one character each, where a cluster ends
behind each line feed. -/
structure Text.Segmentation (cut : List Char → List (List Char)) : Prop where
  flatten : ∀ cs, (cut cs).flatten = cs
  ne_nil : ∀ cs, ∀ k ∈ cut cs, k ≠ []
  lineFeed_last : ∀ cs, ∀ k ∈ cut cs, '\n' ∉ k.dropLast

namespace Text.Cluster

theorem continues_of_lineFeed {ctx : Context} (h : ctx.last = .lineFeed) (c : Char) :
    ctx.continues c = false := by
  rw [Context.continues, h]

theorem lineFeed_not_mem_dropLast_cons {c : Char} {own : List Char} (h : c = '\n' → own = [])
    (hown : '\n' ∉ own.dropLast) : '\n' ∉ (c :: own).dropLast := by
  cases own with
  | nil => simp
  | cons d own =>
    rw [List.dropLast_cons_cons, List.mem_cons, not_or]
    refine ⟨?_, hown⟩
    rintro rfl
    cases h rfl

theorem lineFeed_last_clustersFrom (ctx : Context) (cs : List Char) :
    (ctx.last = .lineFeed → (clustersFrom ctx cs).1 = []) ∧
      '\n' ∉ (clustersFrom ctx cs).1.dropLast ∧
      ∀ k ∈ (clustersFrom ctx cs).2, '\n' ∉ k.dropLast := by
  induction cs generalizing ctx with
  | nil => simp [clustersFrom]
  | cons c cs ih =>
    have hcons (before : Context) :
        '\n' ∉ (c :: (clustersFrom (before.add c) cs).1).dropLast := by
      obtain ⟨hnil, hown, -⟩ := ih (before.add c)
      apply lineFeed_not_mem_dropLast_cons _ hown
      rintro rfl
      exact hnil rfl
    by_cases hc : ctx.continues c
    · rw [clustersFrom, if_pos hc]
      refine ⟨?_, hcons ctx, (ih _).2.2⟩
      intro hlast
      rw [continues_of_lineFeed hlast] at hc
      cases hc
    · rw [clustersFrom, if_neg hc]
      refine ⟨fun _ => rfl, List.not_mem_nil, ?_⟩
      exact List.forall_mem_cons.mpr ⟨hcons .empty, (ih _).2.2⟩

theorem segmentation_clusters : Segmentation clusters where
  flatten := clusters_flatten
  ne_nil _ _ := ne_nil_of_mem_clusters
  lineFeed_last cs := (lineFeed_last_clustersFrom .empty cs).2.2

end Text.Cluster

namespace Line

variable {cut : List Char → List (List Char)} {cs k : List Char} {l l' : Line} {s : Span}
  {m n : Nat}

theorem clustersWithin_mono (h : m ≤ n) (ks : List (List Char)) :
    clustersWithin m ks ≤ clustersWithin n ks := by
  induction ks generalizing m n with
  | nil => exact Nat.le_refl 0
  | cons k ks ih =>
    rw [clustersWithin, clustersWithin]
    by_cases hm : Text.size k ≤ m
    · rw [if_pos hm, if_pos (by omega)]
      apply Nat.succ_le_succ
      apply ih
      omega
    · rw [if_neg hm]
      exact Nat.zero_le _

theorem clustersWithin_append (before ks : List (List Char)) (n : Nat) :
    clustersWithin (Text.size before.flatten + n) (before ++ ks) =
      before.length + clustersWithin n ks := by
  induction before with
  | nil => simp
  | cons k before ih =>
    have hsize : Text.size (k :: before).flatten + n - Text.size k =
        Text.size before.flatten + n := by
      rw [List.flatten_cons, Text.size_append]
      omega
    rw [List.cons_append, clustersWithin, hsize, ih, if_pos, List.length_cons]
    · omega
    · rw [List.flatten_cons, Text.size_append]
      omega

theorem columnBy_mono (cut : List Char → List (List Char)) (l : Line) (h : m ≤ n) :
    l.columnBy cut m ≤ l.columnBy cut n := by
  apply Nat.succ_le_succ
  apply clustersWithin_mono
  omega

/-- Holds of the span of a cluster, where all that follows the start of the line is cut. -/
def HasCluster (cut : List Char → List (List Char)) (l : Line) (s : Span) : Prop :=
  ∃ before k after, cut l.tail = before ++ k :: after ∧
    s = .ofText (l.start + Text.size before.flatten) k

theorem columnBy_add {before after : List (List Char)} (hcut : cut l.tail = before ++ after)
    (n : Nat) : l.columnBy cut (l.start + Text.size before.flatten + n) =
      before.length + clustersWithin n after + 1 := by
  rw [columnBy, hcut, Nat.add_assoc, Nat.add_sub_cancel_left, clustersWithin_append]

theorem columnBy_inside (h : l.HasCluster cut s) (hstart : s.start ≤ n) (hstop : n < s.stop) :
    l.columnBy cut n = l.columnBy cut s.start := by
  obtain ⟨before, k, after, hcut, rfl⟩ := h
  change l.start + Text.size before.flatten ≤ n at hstart
  change n < l.start + Text.size before.flatten + Text.size k at hstop
  have hcolumn {m : Nat} (hm : m < Text.size k) :
      l.columnBy cut (l.start + Text.size before.flatten + m) = before.length + 1 := by
    rw [columnBy_add hcut, clustersWithin, if_neg (by omega), Nat.add_zero]
  obtain ⟨m, rfl⟩ := Nat.exists_eq_add_of_le hstart
  rw [hcolumn (m := m) (by omega)]
  exact (hcolumn (m := 0) (by omega)).symm

theorem columnBy_lt (h : l.HasCluster cut s) (hne : s.start < s.stop) (hm : m < s.stop)
    (hn : s.stop ≤ n) : l.columnBy cut m < l.columnBy cut n := by
  have hends : l.columnBy cut s.start < l.columnBy cut s.stop := by
    obtain ⟨before, k, after, hcut, rfl⟩ := h
    have hpos : 0 < Text.size k := by simpa [Span.ofText] using hne
    have hstart := columnBy_add hcut 0
    have hstop := columnBy_add hcut (Text.size k)
    rw [clustersWithin, if_neg (by omega)] at hstart
    rw [clustersWithin, if_pos (Nat.le_refl _)] at hstop
    change l.columnBy cut (l.start + Text.size before.flatten) <
      l.columnBy cut (l.start + Text.size before.flatten + Text.size k)
    rw [Nat.add_zero] at hstart
    omega
  calc l.columnBy cut m
    _ ≤ l.columnBy cut (max m s.start) := columnBy_mono cut l (Nat.le_max_left _ _)
    _ = l.columnBy cut s.start := columnBy_inside h (Nat.le_max_right _ _) (by omega)
    _ < l.columnBy cut s.stop := hends
    _ ≤ l.columnBy cut n := columnBy_mono cut l hn

theorem HasCluster.isSlice (h : l.HasCluster cut s) (hcut : Text.Segmentation cut)
    (hof : l.IsOf cs) : ∃ k ∈ cut l.tail, IsSlice cs s.start s.stop k := by
  obtain ⟨before, k, after, hparts, rfl⟩ := h
  have htail : l.tail = before.flatten ++ (k ++ after.flatten) := by
    rw [← hcut.flatten l.tail, hparts, List.flatten_append, List.flatten_cons]
  refine ⟨k, ?_, (htail ▸ hof.isSlice).right.left⟩
  rw [hparts]
  exact List.mem_append_right before List.mem_cons_self

theorem HasCluster.start_cases (h : l.HasCluster cut s) :
    s.start = l.start ∨ ∃ s', l.HasCluster cut s' ∧ s'.stop = s.start := by
  obtain ⟨before, k, after, hparts, rfl⟩ := h
  obtain rfl | ⟨front, k', rfl⟩ := before.eq_nil_or_concat'
  · exact .inl rfl
  · refine .inr ⟨_, ⟨front, k', k :: after, ?_, rfl⟩, ?_⟩
    · rw [hparts, List.append_assoc]
      rfl
    · change l.start + Text.size front.flatten + Text.size k' = l.start + Text.size _
      rw [List.flatten_append, Text.size_append, Nat.add_assoc]
      simp

theorem IsOf.not_inside (hof : l.IsOf cs) (h : IsSlice cs m n k) (hk : '\n' ∉ k.dropLast)
    (hm : m < l.start) : n ≤ l.start := by
  by_contra hn
  obtain rfl | ⟨before, hcs, hstart⟩ := hof
  · exact absurd hm (Nat.not_lt_zero m)
  · obtain ⟨past, after, rfl, rfl, hsize⟩ := h
    obtain ⟨x, rfl, hx⟩ := Text.exists_append_of_size_le hcs (by omega)
    rw [Text.size_append] at hstart
    have hle : Text.size (x ++ ['\n']) ≤ Text.size k := by
      rw [Text.size_append]
      change Text.size x + 1 ≤ _
      omega
    rw [List.append_cons] at hx
    obtain ⟨y, rfl, -⟩ := Text.exists_append_of_size_le hx.symm hle
    have hy : y ≠ [] := by
      rintro rfl
      rw [List.append_nil, Text.size_append] at hsize
      change Text.size past + (Text.size x + 1) = n at hsize
      omega
    rw [List.dropLast_append_of_ne_nil hy] at hk
    exact hk (by simp)

end Line

def Position.place (p : Position) : Nat ×ₗ Nat :=
  toLex (p.line, p.column)

theorem Position.place_lt_iff {p q : Position} :
    p.place < q.place ↔ p.line < q.line ∨ p.line = q.line ∧ p.column < q.column :=
  Prod.Lex.toLex_lt_toLex

theorem Position.place_le_iff {p q : Position} :
    p.place ≤ q.place ↔ p.line < q.line ∨ p.line = q.line ∧ p.column ≤ q.column :=
  Prod.Lex.toLex_le_toLex

namespace LineMap

variable {cut : List Char → List (List Char)} {cs : List Char} {l : Line} {s : Span} {a b n : Nat}

def IsClusterEnd (cut : List Char → List (List Char)) (cs : List Char) (n : Nat) : Prop :=
  ∃ (l : Line) (s : Span), l.At cs s.start ∧ l.HasCluster cut s ∧ (n = s.start ∨ n = s.stop)

/-- How the positions in a text lie to each other. -/
structure Ascends (cut : List Char → List (List Char)) (cs : List Char) : Prop where
  valid : ∀ n, Checked.position cut cs n = some ((ofText cs).positionBy cut n)
  clamped : ∀ n, (ofText cs).positionBy cut (min n (Text.size cs)) = (ofText cs).positionBy cut n
  exists_line : ∀ n, ∃ l : Line, l.At cs n
  line : ∀ n, ((ofText cs).positionBy cut n).line =
    1 + ((Checked.bytes cs).take n).count '\n'.toUInt8
  le : ∀ a b, a ≤ b →
    ((ofText cs).positionBy cut a).place ≤ ((ofText cs).positionBy cut b).place
  lt_of_line : ∀ a b (l : Line), l.IsOf cs → a < l.start → l.start ≤ b →
    ((ofText cs).positionBy cut a).place < ((ofText cs).positionBy cut b).place
  lt_of_cluster : ∀ a b (l : Line) (s : Span), l.At cs a → l.HasCluster cut s →
    a < s.stop → s.stop ≤ b →
    ((ofText cs).positionBy cut a).place < ((ofText cs).positionBy cut b).place
  column_start : ∀ l : Line, l.IsOf cs → ((ofText cs).positionBy cut l.start).column = 1
  column_inside : ∀ (l : Line) (s : Span) n, l.At cs s.start → l.HasCluster cut s →
    s.start < n → n < s.stop →
    ((ofText cs).positionBy cut n).column = ((ofText cs).positionBy cut s.start).column
  injective : ∀ a b, IsClusterEnd cut cs a → IsClusterEnd cut cs b →
    ((ofText cs).positionBy cut a).place = ((ofText cs).positionBy cut b).place → a = b

/-- Two offsets are on one line, or a line starts between them. -/
theorem positionBy_cases (cut : List Char → List (List Char)) (cs : List Char) (h : a ≤ b) :
    (∃ l : Line, l.At cs a ∧ l.At cs b ∧
      ((ofText cs).positionBy cut a).line = ((ofText cs).positionBy cut b).line ∧
      ((ofText cs).positionBy cut a).column = l.columnBy cut (min a (Text.size cs)) ∧
      ((ofText cs).positionBy cut b).column = l.columnBy cut (min b (Text.size cs))) ∨
    ((ofText cs).positionBy cut a).line < ((ofText cs).positionBy cut b).line ∧
      ∃ l : Line, l.IsOf cs ∧ a < l.start ∧ l.start ≤ b := by
  obtain ⟨i, l, hl, hat, ha⟩ := exists_positionBy_eq cut cs a
  obtain ⟨j, l', hl', hat', hb⟩ := exists_positionBy_eq cut cs b
  rw [ha, hb]
  obtain hij | rfl | hij := Nat.lt_trichotomy i j
  · right
    refine ⟨Nat.succ_lt_succ hij, l', hat'.isOf, ?_, hat'.le⟩
    by_contra hle
    have hback := hat.last l' hat'.isOf (Nat.not_lt.mp hle)
    have hlt := rel_of_getElem? (pairwise_lines cs) hij hl hl'
    omega
  · left
    obtain rfl := Option.some.inj (hl.symm.trans hl')
    exact ⟨l, hat, hat', rfl, rfl, rfl⟩
  · have hback := hat'.last l hat.isOf (Nat.le_trans hat.le h)
    have hlt := rel_of_getElem? (pairwise_lines cs) hij hl' hl
    omega

theorem column_at (cut : List Char → List (List Char)) (h : l.At cs n) :
    ((ofText cs).positionBy cut n).column = l.columnBy cut (min n (Text.size cs)) := by
  obtain ⟨i, l', -, hat, heq⟩ := exists_positionBy_eq cut cs n
  rw [heq, h.unique hat]

theorem place_le (cut : List Char → List (List Char)) (cs : List Char) (h : a ≤ b) :
    ((ofText cs).positionBy cut a).place ≤ ((ofText cs).positionBy cut b).place := by
  rw [Position.place_le_iff]
  obtain ⟨l, -, -, hline, ha, hb⟩ | ⟨hlt, -⟩ := positionBy_cases cut cs h
  · right
    refine ⟨hline, ?_⟩
    rw [ha, hb]
    apply Line.columnBy_mono
    omega
  · exact .inl hlt

theorem place_lt_of_line (cut : List Char → List (List Char)) (h : l.IsOf cs) (ha : a < l.start)
    (hb : l.start ≤ b) :
    ((ofText cs).positionBy cut a).place < ((ofText cs).positionBy cut b).place := by
  rw [Position.place_lt_iff]
  obtain ⟨l', hat, hat', -⟩ | ⟨hlt, -⟩ := positionBy_cases cut cs (show a ≤ b by omega)
  · have hlast := hat'.last l h hb
    have hle := hat.le
    omega
  · exact .inl hlt

section

variable (hcut : Text.Segmentation cut)

include hcut

theorem place_lt_of_cluster (hat : l.At cs a) (h : l.HasCluster cut s) (ha : a < s.stop)
    (hb : s.stop ≤ b) :
    ((ofText cs).positionBy cut a).place < ((ofText cs).positionBy cut b).place := by
  rw [Position.place_lt_iff]
  obtain ⟨k, hk, hslice⟩ := h.isSlice hcut hat.isOf
  have hstop := hslice.isBoundary_stop.le_size
  have hne := hslice.lt (hcut.ne_nil _ k hk)
  obtain ⟨l', hat', -, hline, hca, hcb⟩ | ⟨hlt, -⟩ := positionBy_cases cut cs (show a ≤ b by omega)
  · right
    refine ⟨hline, ?_⟩
    obtain rfl := hat.unique hat'
    rw [hca, hcb]
    apply Line.columnBy_lt h hne
    · omega
    · omega
  · exact .inl hlt

theorem at_inside (hat : l.At cs s.start) (h : l.HasCluster cut s) (hstart : s.start ≤ n)
    (hstop : n < s.stop) : l.At cs n := by
  obtain ⟨k, hk, hslice⟩ := h.isSlice hcut hat.isOf
  refine ⟨hat.isOf, Nat.le_trans hat.le hstart, ?_⟩
  intro l' hof hle
  by_contra hlt
  have hbehind : s.start < l'.start := by
    by_contra hbefore
    exact hlt (hat.last l' hof (Nat.not_lt.mp hbefore))
  have hinside := hof.not_inside hslice (hcut.lineFeed_last _ k hk) hbehind
  omega

theorem column_start (h : l.IsOf cs) : ((ofText cs).positionBy cut l.start).column = 1 := by
  rw [column_at cut h.at_start, Nat.min_eq_left h.isSlice.le, Line.columnBy, Nat.sub_self]
  cases hk : cut l.tail with
  | nil => rfl
  | cons k ks =>
    have hpos := Text.size_pos (hcut.ne_nil l.tail k (hk ▸ List.mem_cons_self))
    rw [Line.clustersWithin, if_neg (by omega)]

theorem column_inside (hat : l.At cs s.start) (h : l.HasCluster cut s) (hstart : s.start < n)
    (hstop : n < s.stop) :
    ((ofText cs).positionBy cut n).column = ((ofText cs).positionBy cut s.start).column := by
  obtain ⟨k, hk, hslice⟩ := h.isSlice hcut hat.isOf
  have hle := hslice.isBoundary_stop.le_size
  have hn := at_inside hcut hat h (Nat.le_of_lt hstart) hstop
  rw [column_at cut hat, column_at cut hn, Nat.min_eq_left (by omega), Nat.min_eq_left (by omega)]
  exact Line.columnBy_inside h (Nat.le_of_lt hstart) hstop

/-- In front of an end of a cluster a line starts, or a cluster of the line before it stops. -/
theorem IsClusterEnd.cases (h : IsClusterEnd cut cs b) (hab : a < b) :
    (∃ l : Line, l.IsOf cs ∧ a < l.start ∧ l.start ≤ b) ∨
      ∃ (l : Line) (s : Span), l.At cs a ∧ l.HasCluster cut s ∧ a < s.stop ∧ s.stop ≤ b := by
  obtain ⟨l, s, hat, hcluster, hb⟩ := h
  obtain ⟨k, hk, hslice⟩ := hcluster.isSlice hcut hat.isOf
  have hsize := hslice.le
  have hline := hat.le
  by_cases hl : a < l.start
  · exact .inl ⟨l, hat.isOf, hl, by omega⟩
  · right
    have ha : l.At cs a := by
      refine ⟨hat.isOf, Nat.not_lt.mp hl, ?_⟩
      intro l' hof hle
      by_cases hbefore : l'.start ≤ s.start
      · exact hat.last l' hof hbefore
      · have hinside := hof.not_inside hslice (hcut.lineFeed_last _ k hk) (Nat.not_le.mp hbefore)
        omega
    obtain rfl | rfl := hb
    · obtain hstart | ⟨s', hcluster', hstop⟩ := hcluster.start_cases
      · omega
      · exact ⟨l, s', ha, hcluster', by omega, by omega⟩
    · exact ⟨l, s, ha, hcluster, hab, Nat.le_refl _⟩

theorem place_lt_of_isClusterEnd (h : IsClusterEnd cut cs b) (hab : a < b) :
    ((ofText cs).positionBy cut a).place < ((ofText cs).positionBy cut b).place := by
  obtain ⟨l, hof, ha, hb⟩ | ⟨l, s, hat, hcluster, ha, hb⟩ := h.cases hcut hab
  · exact place_lt_of_line cut hof ha hb
  · exact place_lt_of_cluster hcut hat hcluster ha hb

end

theorem line_positionBy (cut : List Char → List (List Char)) (cs : List Char) (n : Nat) :
    ((ofText cs).positionBy cut n).line =
      1 + ((Checked.bytes cs).take n).count '\n'.toUInt8 := by
  have hstarted := Checked.length_takeWhile_linesAfter 0 cs (min n (Text.size cs))
  rw [Nat.sub_zero, ← Checked.length_bytes, ← List.take_eq_take_min, Checked.length_bytes]
    at hstarted
  change ((⟨0, cs⟩ :: linesAfter 0 cs).takeWhile (·.start ≤ min n (Text.size cs))).length = _
  rw [List.takeWhile_cons_of_pos (by simp), List.length_cons, hstarted, Nat.add_comm]

theorem positionBy_zero (hcut : Text.Segmentation cut) (cs : List Char) :
    (ofText cs).positionBy cut 0 = .origin := by
  have hhead : Line.IsOf cs ⟨0, cs⟩ := .inl rfl
  exact Position.ext (line_positionBy cut cs 0) (column_start hcut hhead) (Nat.zero_min _)

theorem positionBy_min (cut : List Char → List (List Char)) (cs : List Char) (n : Nat) :
    (ofText cs).positionBy cut (min n (Text.size cs)) = (ofText cs).positionBy cut n := by
  have hsize : (ofText cs).size = Text.size cs := rfl
  rw [positionBy, positionBy, hsize, Nat.min_assoc, Nat.min_self]

/-- Positions are ordered like offsets. -/
theorem ascends_ofText (hcut : Text.Segmentation cut) (cs : List Char) : Ascends cut cs where
  valid := Checked.position_eq cut cs
  clamped := positionBy_min cut cs
  exists_line n := by
    obtain ⟨_, l, _, hat, _⟩ := exists_at cs n
    exact ⟨l, hat⟩
  line := line_positionBy cut cs
  le _ _ := place_le cut cs
  lt_of_line _ _ _ := place_lt_of_line cut
  lt_of_cluster _ _ _ _ := place_lt_of_cluster hcut
  column_start _ := column_start hcut
  column_inside _ _ _ := column_inside hcut
  injective a b ha hb heq := by
    obtain hlt | rfl | hlt := Nat.lt_trichotomy a b
    · exact absurd heq (ne_of_lt (place_lt_of_isClusterEnd hcut hb hlt))
    · rfl
    · exact absurd heq (ne_of_gt (place_lt_of_isClusterEnd hcut ha hlt))

/-- An accent behind its letter is inside the cluster of the letter. -/
theorem ascends_ofText_accent : let cs := "e\u0301\r\nx".toList
    Text.Segmentation Text.Cluster.clusters ∧ Line.At cs 1 ⟨0, cs⟩ ∧
      Line.HasCluster Text.Cluster.clusters ⟨0, cs⟩ ⟨0, 3⟩ ∧
      ((ofText cs).position 1).column = ((ofText cs).position 0).column ∧
      ((ofText cs).position 1).place < ((ofText cs).position 3).place := by
  intro cs
  have hascends := ascends_ofText Text.Cluster.segmentation_clusters cs
  have hcluster : Line.HasCluster Text.Cluster.clusters ⟨0, cs⟩ ⟨0, 3⟩ :=
    ⟨[], ['e', '\u0301'], [['\r', '\n'], ['x']], by decide +kernel, by decide⟩
  have hstart : Line.At cs 0 ⟨0, cs⟩ := Line.IsOf.at_start (.inl rfl)
  have hat : Line.At cs 1 ⟨0, cs⟩ :=
    at_inside Text.Cluster.segmentation_clusters hstart hcluster (by decide) (by decide)
  refine ⟨Text.Cluster.segmentation_clusters, hat, hcluster, ?_, ?_⟩
  · exact hascends.column_inside ⟨0, cs⟩ ⟨0, 3⟩ 1 hstart hcluster (by decide) (by decide)
  · exact hascends.lt_of_cluster 1 3 ⟨0, cs⟩ ⟨0, 3⟩ hat hcluster (by decide) (by decide)

end LineMap

end ProseMarkup
