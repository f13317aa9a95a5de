import ProseMarkup.Proofs.Placement
import ProseMarkup.Proofs.Reports
import Mathlib.Data.List.Perm.Basic

namespace ProseMarkup

namespace Tree

variable {α δ : Type}

mutual

/-- The labels in preorder. Each has the number of labels above it for which `p` holds, counted
from `n`. -/
def levels (p : α → Bool) (n : Nat) : Tree α → List (Nat × α)
  | node a ts => (n, a) :: levelsAll p (if p a then n + 1 else n) ts

def levelsAll (p : α → Bool) (n : Nat) : List (Tree α) → List (Nat × α)
  | [] => []
  | t :: ts => t.levels p n ++ levelsAll p n ts

end

def atLevel (p : α → Bool) (k : Nat) (xs : List (Nat × α)) : List α :=
  (xs.filter fun x => x.1 = k ∧ p x.2).map Prod.snd

mutual

/-- The tree with a leaf in the place of every node at level `k` for which `p` holds. -/
def prune (p : α → Bool) (leaf : α → α) (k n : Nat) : Tree α → Tree α
  | node a ts =>
    if p a ∧ n = k then node (leaf a) []
    else node a (pruneAll p leaf k (if p a then n + 1 else n) ts)

def pruneAll (p : α → Bool) (leaf : α → α) (k n : Nat) : List (Tree α) → List (Tree α)
  | [] => []
  | t :: ts => t.prune p leaf k n :: pruneAll p leaf k n ts

end

variable {p : α → Bool} {leaf : α → α} {k n : Nat}

mutual

theorem le_of_mem_levels {x : Nat × α} : ∀ {n : Nat} {t : Tree α}, x ∈ t.levels p n → n ≤ x.1
  | n, node a ts, h => by
    obtain rfl | h := List.mem_cons.mp h
    · exact Nat.le_refl _
    · have hle := le_of_mem_levelsAll h
      split at hle <;> omega

theorem le_of_mem_levelsAll {x : Nat × α} : ∀ {n : Nat} {ts : List (Tree α)},
    x ∈ levelsAll p n ts → n ≤ x.1
  | _, [], h => by cases h
  | _, t :: ts, h => by
    obtain h | h := List.mem_append.mp h
    · exact le_of_mem_levels h
    · exact le_of_mem_levelsAll h

end

mutual

theorem preorder_eq_map_levels : ∀ (n : Nat) (t : Tree α), (t.levels p n).map Prod.snd = t.preorder
  | n, node a ts => by rw [levels, preorder, List.map_cons, preorderAll_eq_map_levelsAll _ ts]

theorem preorderAll_eq_map_levelsAll : ∀ (n : Nat) (ts : List (Tree α)),
    (levelsAll p n ts).map Prod.snd = preorderAll ts
  | _, [] => rfl
  | n, t :: ts => by
    rw [levelsAll, preorderAll, List.map_append, preorder_eq_map_levels n t,
      preorderAll_eq_map_levelsAll n ts]

end

theorem atLevel_append (xs ys : List (Nat × α)) :
    atLevel p k (xs ++ ys) = atLevel p k xs ++ atLevel p k ys := by
  rw [atLevel, List.filter_append, List.map_append, atLevel, atLevel]

theorem mem_preorder_of_atLevel {t : Tree α} {a : α} (h : a ∈ atLevel p k (t.levels p n)) :
    a ∈ t.preorder := by
  obtain ⟨x, hx, rfl⟩ := List.mem_map.mp h
  rw [← preorder_eq_map_levels (p := p) n t]
  exact List.mem_map_of_mem (List.mem_of_mem_filter hx)

theorem of_mem_atLevel {xs : List (Nat × α)} {a : α} (h : a ∈ atLevel p k xs) : p a = true := by
  obtain ⟨x, hx, rfl⟩ := List.mem_map.mp h
  exact (of_decide_eq_true (List.mem_filter.mp hx).2).2

theorem atLevel_of_pruned {a : α} {ts : List (Tree α)} (ha : p a = true) :
    atLevel p k ((node a ts).levels p k) = [a] := by
  have hbelow : (levelsAll p (k + 1) ts).filter (fun x => x.1 = k ∧ p x.2) = [] := by
    apply List.filter_eq_nil_iff.mpr
    intro x hx
    have hle := le_of_mem_levelsAll hx
    simp only [decide_eq_true_eq, not_and]
    omega
  rw [atLevel, levels, if_pos ha, List.filter_cons, hbelow]
  simp [ha]

theorem atLevel_of_kept {a : α} {ts : List (Tree α)} (ha : ¬(p a ∧ n = k)) :
    atLevel p k ((node a ts).levels p n) =
      atLevel p k (levelsAll p (if p a then n + 1 else n) ts) := by
  rw [atLevel, levels, List.filter_cons_of_neg (by simpa [and_comm] using ha), atLevel]

mutual

theorem lt_of_mem_levels_prune (hleaf : ∀ a, p (leaf a) = false) {x : Nat × α} :
    ∀ {n : Nat} {t : Tree α}, n ≤ k → x ∈ (t.prune p leaf k n).levels p n → p x.2 → x.1 < k
  | n, node a ts, hn, hx, hp => by
    rw [prune] at hx
    split at hx
    · obtain rfl := List.mem_singleton.mp hx
      rw [hleaf] at hp
      contradiction
    · rename_i hk
      obtain rfl | hx := List.mem_cons.mp hx
      · have hne : n ≠ k := fun he => hk ⟨hp, he⟩
        exact Nat.lt_of_le_of_ne hn hne
      · refine lt_of_mem_levelsAll_prune hleaf ?_ hx hp
        by_cases ha : p a
        · have hne : n ≠ k := fun he => hk ⟨ha, he⟩
          rw [if_pos ha]
          omega
        · rwa [if_neg ha]

theorem lt_of_mem_levelsAll_prune (hleaf : ∀ a, p (leaf a) = false) {x : Nat × α} :
    ∀ {n : Nat} {ts : List (Tree α)}, n ≤ k → x ∈ levelsAll p n (pruneAll p leaf k n ts) →
      p x.2 → x.1 < k
  | _, [], _, hx, _ => by cases hx
  | _, t :: ts, hn, hx, hp => by
    obtain hx | hx := List.mem_append.mp hx
    · exact lt_of_mem_levels_prune hleaf hn hx hp
    · exact lt_of_mem_levelsAll_prune hleaf hn hx hp

end

section

variable {span : α → Span} {start : δ → Nat} {own : α → List δ}

def outside (span : α → Span) (start : δ → Nat) (as : List α) (d : δ) : Bool :=
  !as.any fun a => (span a).contains (start d)

/-- Holds of a tree in which what belongs to a node starts in it and in none of those below. -/
def Owned (span : α → Span) (start : δ → Nat) (own : α → List δ) (t : Tree α) : Prop :=
  ∀ u ∈ t.subtrees, ∀ d ∈ own u.label, (span u.label).contains (start d) = true ∧
    ∀ c ∈ u.children, ¬(span c.label).contains (start d) = true

theorem Owned.of_mem_children {a : α} {ts : List (Tree α)} {c : Tree α}
    (h : (node a ts).Owned span start own) (hc : c ∈ ts) : c.Owned span start own :=
  fun u hu => h u (mem_subtrees_node.mpr (.inr ⟨c, hc, hu⟩))

theorem Nested.of_mem_children {a : α} {ts : List (Tree α)} {c : Tree α}
    (h : (node a ts).Nested span) (hc : c ∈ ts) : c.Nested span :=
  h.of_mem (mem_subtrees_of_mem_children (t := node a ts) hc)

theorem Nested.contains_of_mem_preorder {t : Tree α} (h : t.Nested span) {a : α}
    (ha : a ∈ t.preorder) {i : Nat} (hi : (span a).contains i = true) :
    (span t.label).contains i = true := by
  obtain ⟨u, hu, rfl⟩ := mem_preorder.mp ha
  exact h.contains_of_mem hu hi

theorem Owned.contains_of_mem {t : Tree α} (h : t.Owned span start own) (hn : t.Nested span)
    {d : δ} (hd : d ∈ t.preorder.flatMap own) : (span t.label).contains (start d) = true := by
  obtain ⟨a, ha, hd⟩ := List.mem_flatMap.mp hd
  obtain ⟨u, hu, rfl⟩ := mem_preorder.mp ha
  exact hn.contains_of_mem hu (h u hu d hd).1

theorem outside_append {as bs : List α} {d : δ} : outside span start (as ++ bs) d =
    (outside span start as d && outside span start bs d) := by
  rw [outside, List.any_append, Bool.not_or, outside, outside]

theorem outside_of_forall {as : List α} {d : δ}
    (h : ∀ a ∈ as, ¬(span a).contains (start d) = true) : outside span start as d = true := by
  rw [outside, Bool.not_eq_true', List.any_eq_false]
  exact h

theorem exists_of_mem_atLevel {ts : List (Tree α)} {a : α} (hn : ∀ t ∈ ts, t.Nested span)
    (ha : a ∈ atLevel p k (levelsAll p n ts)) {i : Nat} (hi : (span a).contains i = true) :
    ∃ t ∈ ts, (span t.label).contains i = true := by
  obtain ⟨x, hx, rfl⟩ := List.mem_map.mp ha
  have hmem : x.2 ∈ preorderAll ts := by
    rw [← preorderAll_eq_map_levelsAll (p := p) n ts]
    exact List.mem_map_of_mem (List.mem_of_mem_filter hx)
  rw [preorderAll_eq_flatMap] at hmem
  obtain ⟨t, ht, hmem⟩ := List.mem_flatMap.mp hmem
  exact ⟨t, ht, (hn t ht).contains_of_mem_preorder hmem hi⟩

/-- Trees whose spans do not meet are pruned apart from each other. -/
theorem filter_outside_append {as bs : List α} {xs ys : List δ}
    (hx : ∀ d ∈ xs, outside span start bs d = true)
    (hy : ∀ d ∈ ys, outside span start as d = true) :
    (xs ++ ys).filter (outside span start (as ++ bs)) =
      xs.filter (outside span start as) ++ ys.filter (outside span start bs) := by
  rw [List.filter_append]
  congr 1
  · apply List.filter_congr
    intro d hd
    rw [outside_append, hx d hd, Bool.and_true]
  · apply List.filter_congr
    intro d hd
    rw [outside_append, hy d hd, Bool.true_and]

theorem perm_pruneAll {lo hi n : Nat} {ts : List (Tree α)}
    (htile : Span.Tile lo hi (ts.map fun t => span t.label)) (hn : ∀ t ∈ ts, t.Nested span)
    (ho : ∀ t ∈ ts, t.Owned span start own)
    (hp : ∀ t ∈ ts, ((t.prune p leaf k n).preorder.flatMap own).Perm
      ((t.preorder.flatMap own).filter (outside span start (atLevel p k (t.levels p n))) ++
        (atLevel p k (t.levels p n)).flatMap fun a => own (leaf a))) :
    ((preorderAll (pruneAll p leaf k n ts)).flatMap own).Perm
      (((preorderAll ts).flatMap own).filter
          (outside span start (atLevel p k (levelsAll p n ts))) ++
        (atLevel p k (levelsAll p n ts)).flatMap fun a => own (leaf a)) := by
  induction ts generalizing lo with
  | nil => exact .nil
  | cons t ts ih =>
    have apart {i : Nat} (h : (span t.label).contains i = true) :
        ∀ u ∈ ts, ¬(span u.label).contains i = true :=
      fun u hu => htile.not_contains (List.mem_map_of_mem hu) h
    obtain ⟨-, -, htail⟩ := htile
    obtain ⟨hnt, hnts⟩ := List.forall_mem_cons.mp hn
    obtain ⟨hot, hots⟩ := List.forall_mem_cons.mp ho
    obtain ⟨hpt, hpts⟩ := List.forall_mem_cons.mp hp
    have hx : ∀ d ∈ t.preorder.flatMap own,
        outside span start (atLevel p k (levelsAll p n ts)) d = true := by
      intro d hd
      apply outside_of_forall
      intro a ha hi
      obtain ⟨u, hu, hc⟩ := exists_of_mem_atLevel hnts ha hi
      exact apart (hot.contains_of_mem hnt hd) u hu hc
    have hy : ∀ d ∈ (preorderAll ts).flatMap own,
        outside span start (atLevel p k (t.levels p n)) d = true := by
      intro d hd
      apply outside_of_forall
      intro a ha hi
      rw [preorderAll_eq_flatMap, List.flatMap_assoc] at hd
      obtain ⟨u, hu, hd⟩ := List.mem_flatMap.mp hd
      exact apart (hnt.contains_of_mem_preorder (mem_preorder_of_atLevel ha) hi) u hu
        ((hots u hu).contains_of_mem (hnts u hu) hd)
    rw [pruneAll, preorderAll, preorderAll, levelsAll, atLevel_append, List.flatMap_append,
      List.flatMap_append, List.flatMap_append, filter_outside_append hx hy]
    refine (hpt.append (ih htail hnts hots hpts)).trans ?_
    rw [List.append_assoc, List.append_assoc]
    apply List.Perm.append_left
    rw [← List.append_assoc, ← List.append_assoc]
    exact List.perm_append_comm.append_right _

/-- What belongs to a pruned tree is what belonged to the tree outside of the pruned nodes, and what
belongs to the new leaves. -/
theorem perm_prune (p : α → Bool) (leaf : α → α) (k : Nat) {t : Tree α} (hn : t.Nested span)
    (ho : t.Owned span start own) (n : Nat) :
    ((t.prune p leaf k n).preorder.flatMap own).Perm
      ((t.preorder.flatMap own).filter (outside span start (atLevel p k (t.levels p n))) ++
        (atLevel p k (t.levels p n)).flatMap fun a => own (leaf a)) := by
  induction t generalizing n with
  | node a ts ih =>
    by_cases ha : p a ∧ n = k
    · -- all that belongs to the tree starts in the node that is pruned
      obtain ⟨hpa, rfl⟩ := ha
      have hlost : ((node a ts).preorder.flatMap own).filter (outside span start [a]) = [] := by
        apply List.filter_eq_nil_iff.mpr
        intro d hd
        have hc : (span a).contains (start d) = true := ho.contains_of_mem hn hd
        simp [outside, hc]
      rw [atLevel_of_pruned hpa, hlost, prune, if_pos ⟨hpa, rfl⟩]
      exact .refl _
    · -- what belongs to the node itself starts in none of the pruned ones
      obtain ⟨lo, hi, -, -, htile⟩ := hn _ (mem_subtrees_self _)
      have hall := perm_pruneAll htile (fun c hc => hn.of_mem_children hc)
        (fun c hc => ho.of_mem_children hc) fun c hc =>
        ih c hc (hn.of_mem_children hc) (ho.of_mem_children hc) (if p a then n + 1 else n)
      have hkept : (own a).filter (outside span start (atLevel p k
          (levelsAll p (if p a then n + 1 else n) ts))) = own a := by
        apply List.filter_eq_self.mpr
        intro d hd
        apply outside_of_forall
        intro b hb hi
        obtain ⟨c, hc, hi⟩ := exists_of_mem_atLevel (fun c hc => hn.of_mem_children hc) hb hi
        exact (ho _ (mem_subtrees_self _) d hd).2 c hc hi
      rw [atLevel_of_kept ha, prune, if_neg ha, preorder, preorder, List.flatMap_cons,
        List.flatMap_cons, List.filter_append, hkept, List.append_assoc]
      exact hall.append_left _

end

end Tree

namespace Region

def element? (r : Region) : Option Element :=
  match r.piece with
  | .element e => some e
  | _ => none

/-- Holds of an element. One that is kept as text is prose. -/
def isElement (r : Region) : Bool :=
  r.element?.isSome

def toText (limit : Nat) (r : Region) : Region :=
  r.element?.elim r (ofCut limit r.start)

def reports (r : Region) : List Diagnostic :=
  r.notes ++ Segment.notes r

def tooDeep (limit : Nat) (r : Region) : Diagnostic :=
  .nestingTooDeep r.span (r.element?.elim "" fun e => .ofList e.opening.name) limit

theorem exists_of_isElement {r : Region} (h : r.isElement = true) : ∃ e, r.piece = .element e := by
  cases hp : r.piece with
  | element e => exact ⟨e, rfl⟩
  | text | cut | template => simp [isElement, element?, hp] at h

theorem isElement_toText (limit : Nat) (r : Region) : (r.toText limit).isElement = false := by
  obtain ⟨start, piece, notes⟩ := r
  cases piece <;> rfl

theorem toText_of_isElement {r : Region} (h : r.isElement = true) (limit : Nat) :
    (r.toText limit).span = r.span ∧ (r.toText limit).reports = [r.tooDeep limit] ∧
      ∀ id, (Segment.ofRegion id (r.toText limit)).shape = .text := by
  obtain ⟨start, piece, notes⟩ := r
  obtain ⟨e, rfl⟩ := exists_of_isElement h
  exact ⟨rfl, rfl, fun _ => rfl⟩

variable {v : Vocabulary} {limit k depth start : Nat}

theorem pruneAll_prose (chars : List Char) (notes : List Diagnostic) (ts : List (Tree Region)) :
    Tree.pruneAll isElement (toText k) k depth (prose start chars notes ts) =
      prose start chars notes (Tree.pruneAll isElement (toText k) k depth ts) := by
  obtain _ | ⟨⟨⟨start', piece, notes'⟩, us⟩, ts⟩ := ts
  · rfl
  · cases piece with
    | text chars' =>
      cases us with
      | nil => rfl
      | cons u us => rfl
    | cut | template => rfl
    | element e =>
      by_cases hk : depth = k
      · simp [prose, Tree.pruneAll, Tree.prune, isElement, element?, toText, ofCut, hk]
      · simp [prose, Tree.pruneAll, Tree.prune, isElement, element?, hk]

theorem prune_treeOf (hd : depth ≤ k) (hk : k ≤ limit) (e : Element)
    (h : depth < k → regions v k (depth + 1) (start + Text.size e.opening.text) (e.markup v) =
      Tree.pruneAll isElement (toText k) k (depth + 1)
        (regions v limit (depth + 1) (start + Text.size e.opening.text) (e.markup v))) :
    treeOf v k depth start e =
      Tree.prune isElement (toText k) k depth (treeOf v limit depth start e) := by
  have helement : (ofElement v start e).isElement = true := rfl
  obtain hlt | rfl := Nat.lt_or_eq_of_le hd
  · have hne : ¬((ofElement v start e).isElement ∧ depth = k) := by omega
    rw [treeOf, if_pos hlt, treeOf, if_pos (Nat.lt_of_lt_of_le hlt hk), Tree.prune, if_neg hne,
      if_pos helement, h hlt]
  · rw [treeOf, if_neg (Nat.lt_irrefl _), treeOf]
    by_cases hlt : depth < limit
    · rw [if_pos hlt, Tree.prune, if_pos ⟨helement, rfl⟩]
      rfl
    · obtain rfl := Nat.le_antisymm hk (Nat.le_of_not_lt hlt)
      rw [if_neg hlt]
      rfl

/-- The regions under a smaller greatest depth are the regions under a greater one, pruned. -/
theorem regions_eq_prune (v : Vocabulary) {limit k : Nat} (hk : k ≤ limit) (depth start : Nat)
    (cs : List Char) (hd : depth ≤ k) :
    regions v k depth start cs =
      Tree.pruneAll isElement (toText k) k depth (regions v limit depth start cs) := by
  fun_induction regions v limit depth start cs with
  | case1 => exact regions_nil
  | case2 depth start cs hcs passed fault rest h _ ih =>
    rw [regions_of_prose hcs h, ih hd, pruneAll_prose]
  | case3 depth start cs hcs inner rest h _ r ih =>
    rw [regions_of_template h, Tree.pruneAll]
    exact congrArg₂ _ rfl (ih hd)
  | case4 depth start cs hcs e rest h _ _ t ihm ih =>
    rw [regions_of_element h, ih hd, Tree.pruneAll]
    congr 1
    change _ = Tree.prune isElement (toText k) k depth (treeOf v limit depth start e)
    exact prune_treeOf hd hk e ihm

theorem outline_eq_prune (v : Vocabulary) (limits : Limits) {k : Nat} (hk : k ≤ limits.maxDepth)
    (source : List Char) :
    outline v { limits with maxDepth := k } source =
      (outline v limits source).prune isElement (toText k) k 0 := by
  have leaf (notes : List Diagnostic) (ts : List (Tree Region)) :
      Tree.prune isElement (toText k) k 0 (.node ⟨0, .text source, notes⟩ ts) =
        .node ⟨0, .text source, notes⟩ (Tree.pruneAll isElement (toText k) k 0 ts) := rfl
  have hbroken (n : Nat) : { limits with maxDepth := k }.brokenBy? n = limits.brokenBy? n := rfl
  have hregions := regions_eq_prune v hk 0 0 source (Nat.zero_le k)
  rw [outline, outline, hbroken]
  cases limits.brokenBy? (Text.size source) with
  | some => rfl
  | none =>
    simp only [hregions]
    rcases regions v limits.maxDepth 0 0 source with _ | ⟨t, _ | ⟨u, us⟩⟩
    · rfl
    · rfl
    · exact (leaf [] (t :: u :: us)).symm

end Region

def Parser.withDepth (p : Parser) (k : Nat) : Parser :=
  { p with limits := { p.limits with maxDepth := k } }

def Diagnostic.detach (d : Diagnostic) : Diagnostic :=
  { d with node := none }

/-- How a parse with the greatest depth `k` differs from a parse with a greater one. -/
structure Parser.Prunes (p : Parser) (k : Nat) (source : String) (t t' : Tree Region) : Prop where
  tree : t' = t.prune Region.isElement (Region.toText k) k 0
  shallow : ∀ x ∈ t'.levels Region.isElement 0, x.2.isElement → x.1 < k
  /-- A leaf has the span of the element, and it is a segment of text. -/
  leaves : ∀ r : Region, r.isElement → (r.toText k).span = r.span ∧
    ∀ id, (Segment.ofRegion id (r.toText k)).shape = .text
  /-- The reports that start in an element that is now kept as text are replaced by one report on
  that element. -/
  reports : (((p.withDepth k).parse source).diagnostics.map Diagnostic.detach).Perm
    (((p.parse source).diagnostics.filter
        (Tree.outside Region.span (·.span.start)
          (Tree.atLevel Region.isElement k (t.levels Region.isElement 0)))).map Diagnostic.detach ++
      (Tree.atLevel Region.isElement k (t.levels Region.isElement 0)).map (Region.tooDeep k))

namespace Document

theorem discovered_perm (t : Tree Region) :
    (discovered t).Perm (t.preorder.flatMap Region.reports) :=
  List.flatMap_append_perm ..

theorem detached_perm (p : Parser) (source : String) (hn : p.limits.maxDiagnostics = none)
    {f : Diagnostic → Bool} (hf : ∀ d node, f (d.attach node) = f d) :
    (((p.parse source).diagnostics.filter f).map Diagnostic.detach).Perm
      ((((outline p.vocabulary p.limits source.toList).preorder.flatMap
        Region.reports).filter f).map Diagnostic.detach) := by
  have hattach (ds : List Diagnostic) (node : Diagnostic → Nat) :
      ((ds.map fun d => d.attach (node d)).filter f).map Diagnostic.detach =
        (ds.filter f).map Diagnostic.detach := by
    have hfilter : (f ∘ fun d => d.attach (node d)) = f := funext fun d => hf d (node d)
    rw [List.filter_map, List.map_map, hfilter]
    rfl
  rw [diagnostics_parse hn, arrange, hattach]
  apply List.Perm.map
  apply List.Perm.filter
  exact (List.mergeSort_perm ..).trans (discovered_perm _)

theorem reports_of_leaves {rs : List Region} {k : Nat} (h : ∀ r ∈ rs, r.isElement) :
    (rs.flatMap fun r => (r.toText k).reports) = rs.map (Region.tooDeep k) := by
  induction rs with
  | nil => rfl
  | cons r rs ih =>
    obtain ⟨hr, hrs⟩ := List.forall_mem_cons.mp h
    obtain ⟨-, hreports, -⟩ := Region.toText_of_isElement hr k
    rw [List.flatMap_cons, hreports, ih hrs]
    rfl

theorem perm_reports (p : Parser) {k : Nat} (hk : k ≤ p.limits.maxDepth)
    (hn : p.limits.maxDiagnostics = none) (source : String) {rs : List Region}
    (hrs : rs = Tree.atLevel Region.isElement k
      ((outline p.vocabulary p.limits source.toList).levels Region.isElement 0)) :
    (((p.withDepth k).parse source).diagnostics.map Diagnostic.detach).Perm
      (((p.parse source).diagnostics.filter
        (Tree.outside Region.span (·.span.start) rs)).map Diagnostic.detach ++
          rs.map (Region.tooDeep k)) := by
  have htree : outline (p.withDepth k).vocabulary (p.withDepth k).limits source.toList =
      (outline p.vocabulary p.limits source.toList).prune Region.isElement (Region.toText k) k 0 :=
    Region.outline_eq_prune p.vocabulary p.limits hk source.toList
  have helements : ∀ r ∈ rs, r.isElement := by
    subst hrs
    exact fun r hr => Tree.of_mem_atLevel hr
  have howned : (outline p.vocabulary p.limits source.toList).Owned Region.span (·.span.start)
      Region.reports := fun _ hu _ hd => Region.place_of_note hu hd
  have hpruned := Tree.perm_prune Region.isElement (Region.toText k) k
    (Region.nested_outline p.vocabulary p.limits source.toList) howned 0
  have hall := detached_perm (p.withDepth k) source hn (f := fun _ => true) fun _ _ => rfl
  have hkept := detached_perm p source hn (f := Tree.outside Region.span (·.span.start) rs)
    fun _ _ => rfl
  rw [← hrs, reports_of_leaves helements] at hpruned
  rw [List.filter_true, List.filter_true, htree] at hall
  have hleaves : (rs.map (Region.tooDeep k)).map Diagnostic.detach = rs.map (Region.tooDeep k) := by
    rw [List.map_map]
    rfl
  have hsum := hpruned.map Diagnostic.detach
  rw [List.map_append, hleaves] at hsum
  exact (hall.trans hsum).trans (hkept.symm.append_right _)

/-- A smaller greatest depth only prunes: the elements with `k` elements around them are kept as
text, and the reports that start in them are lost. -/
theorem prunes_withDepth (p : Parser) {k : Nat} (hk : k ≤ p.limits.maxDepth)
    (hn : p.limits.maxDiagnostics = none) (source : String) :
    p.Prunes k source (outline p.vocabulary p.limits source.toList)
      (outline p.vocabulary (p.withDepth k).limits source.toList) where
  tree := Region.outline_eq_prune p.vocabulary p.limits hk source.toList
  shallow x hx hp := by
    have htree := Region.outline_eq_prune p.vocabulary p.limits hk source.toList
    exact Tree.lt_of_mem_levels_prune (Region.isElement_toText k) (Nat.zero_le k) (htree ▸ hx) hp
  leaves r hr :=
    have ⟨hspan, _, htext⟩ := Region.toText_of_isElement hr k
    ⟨hspan, htext⟩
  reports := perm_reports p hk hn source rfl

theorem prunes_withDepth_one :
    1 ≤ Parser.sample.limits.maxDepth ∧ Parser.sample.limits.maxDiagnostics = none ∧
      Parser.sample.Prunes 1 "<p>a<p>b</p></p>"
        (outline Parser.sample.vocabulary Parser.sample.limits "<p>a<p>b</p></p>".toList)
        (outline Parser.sample.vocabulary (Parser.sample.withDepth 1).limits
          "<p>a<p>b</p></p>".toList) :=
  ⟨by decide, rfl, prunes_withDepth Parser.sample (by decide) rfl "<p>a<p>b</p></p>"⟩

end Document

end ProseMarkup
