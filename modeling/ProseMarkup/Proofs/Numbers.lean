import ProseMarkup.Proofs.Nesting

namespace ProseMarkup

namespace Tree

variable {α β : Type}

theorem length_subtrees (t : Tree α) : t.subtrees.length = t.size := by
  rw [size_eq_length, preorder_eq_map_subtrees, List.length_map]

/-- The labels in the order in which a walk comes to them that keeps the trees it has still to go
through on a stack. -/
def unstack : List (Tree α) → List α
  | [] => []
  | node a ts :: stack => a :: unstack (ts ++ stack)
termination_by stack => sizeAll stack
decreasing_by
  have sizeAll_append (ts us : List (Tree α)) : sizeAll (ts ++ us) = sizeAll ts + sizeAll us := by
    induction ts with
    | nil => rw [List.nil_append, sizeAll, Nat.zero_add]
    | cons t ts ih => rw [List.cons_append, sizeAll, sizeAll, ih, Nat.add_assoc]
  rw [sizeAll_append, sizeAll, size]
  omega

/-- A walk with a stack goes in preorder. -/
theorem unstack_eq (stack : List (Tree α)) : unstack stack = preorderAll stack := by
  fun_induction unstack stack with
  | case1 => rfl
  | case2 a ts stack ih => rw [ih, preorderAll_append, preorderAll, preorder, List.cons_append]

def Visit.entered? : Visit α → Option α
  | enter a => some a
  | leave _ => none

def Visit.left? : Visit α → Option α
  | enter _ => none
  | leave a => some a

mutual

theorem entered_visits : ∀ t : Tree α, t.visits.filterMap Visit.entered? = t.preorder
  | node a ts => by
    have hcons (us : List (Visit α)) : (Visit.enter a :: us).filterMap Visit.entered? =
        a :: us.filterMap Visit.entered? := rfl
    rw [visits, List.cons_append, hcons, List.filterMap_append, entered_visitsAll ts, preorder]
    exact congrArg (a :: ·) (List.append_nil _)

theorem entered_visitsAll : ∀ ts : List (Tree α),
    (visitsAll ts).filterMap Visit.entered? = preorderAll ts
  | [] => rfl
  | t :: ts => by
    rw [visitsAll, List.filterMap_append, entered_visits t, entered_visitsAll ts, preorderAll]

end

mutual

theorem left_visits_perm : ∀ t : Tree α, (t.visits.filterMap Visit.left?).Perm t.preorder
  | node a ts => by
    rw [visits, List.cons_append, List.filterMap_cons_none rfl, List.filterMap_append, preorder]
    exact (List.perm_append_singleton a _).trans ((left_visitsAll_perm ts).cons a)

theorem left_visitsAll_perm : ∀ ts : List (Tree α),
    ((visitsAll ts).filterMap Visit.left?).Perm (preorderAll ts)
  | [] => .nil
  | t :: ts => by
    rw [visitsAll, List.filterMap_append, preorderAll]
    exact (left_visits_perm t).append (left_visitsAll_perm ts)

end

theorem visits_infix {u t : Tree α} (h : u ∈ t.subtrees) : u.visits <:+: t.visits := by
  have all {c : Tree α} {ts : List (Tree α)} (hc : c ∈ ts) : c.visits <:+: visitsAll ts := by
    induction ts with
    | nil => cases hc
    | cons t ts ih =>
      rw [visitsAll]
      obtain rfl | hc := List.mem_cons.mp hc
      · exact (List.prefix_append _ _).isInfix
      · exact (ih hc).trans (List.suffix_append _ _).isInfix
  induction t with
  | node a ts ih =>
    obtain rfl | ⟨c, hc, hu⟩ := mem_subtrees_node.mp h
    · exact List.infix_rfl
    · exact ((ih c hc hu).trans (all hc)).trans ⟨[.enter a], [.leave a], by rw [visits]; rfl⟩

variable {f : Nat → α → β} {key : β → Nat}

mutual

theorem find?_number (hf : ∀ n a, key (f n a) = n) : ∀ (n i : Nat) (t : Tree α),
    (t.number f n).find? key (n + i) = (t.number f n).subtrees[i]?
  | n, 0, node a ts => by
    rw [number, find?, hf, if_pos (Nat.add_zero n).symm, subtrees]
    rfl
  | n, i + 1, node a ts => by
    have hne : ¬n = n + (i + 1) := by omega
    rw [number, find?, hf, if_neg hne, subtrees, List.getElem?_cons_succ,
      ← findIn?_numberAll hf (n + 1) i ts, Nat.add_right_comm, Nat.add_assoc]

theorem findIn?_numberAll (hf : ∀ n a, key (f n a) = n) : ∀ (n i : Nat) (ts : List (Tree α)),
    findIn? key (n + i) (numberAll f n ts) = (subtreesAll (numberAll f n ts))[i]?
  | _, _, [] => rfl
  | n, i, t :: ts => by
    have hlength : (t.number f n).subtrees.length = t.size := by
      rw [length_subtrees, size_number]
    have hlabel : key (t.number f n).label ≤ n + i := by
      rw [label_number, hf]
      exact Nat.le_add_right n i
    rw [numberAll, findIn?, subtreesAll]
    cases ts with
    | nil =>
      rw [numberAll, subtreesAll, List.append_nil, ← find?_number hf n i t]
      exact if_pos hlabel
    | cons u us =>
      have hhead : ((numberAll f (n + t.size) (u :: us)).head?.any (key ·.label ≤ n + i)) =
          decide (t.size ≤ i) := by
        rw [numberAll, List.head?_cons, Option.any_some, label_number, hf]
        exact decide_eq_decide.mpr Nat.add_le_add_iff_left
      rw [hhead]
      by_cases hi : t.size ≤ i
      · -- the number lies behind the first tree
        obtain ⟨j, rfl⟩ := Nat.exists_eq_add_of_le hi
        rw [if_pos (decide_eq_true hi), ← Nat.add_assoc, findIn?_numberAll hf _ j (u :: us),
          List.getElem?_append_right (hlength ▸ hi), hlength, Nat.add_sub_cancel_left]
      · rw [if_neg (by simpa using hi), if_pos hlabel, find?_number hf n i t,
          List.getElem?_append_left (by omega)]

end

theorem map_preorder_of_mem (hf : ∀ n a, key (f n a) = n) {n : Nat} {t : Tree α} {s : Tree β}
    (hs : s ∈ (t.number f n).subtrees) :
    s.preorder.map key = List.range' (key s.label) s.size := by
  have numbered (k : Nat) (u : Tree α) :
      (u.number f k).preorder.map key =
        List.range' (key (u.number f k).label) (u.number f k).size := by
    rw [map_preorder_number hf, label_number, hf, size_number]
  obtain rfl | ⟨u, -, k, rfl⟩ := exists_of_mem_subtrees_number hs
  · exact numbered n t
  · exact numbered k u

theorem key_of_getElem (hf : ∀ n a, key (f n a) = n) {t : Tree α} {s : Tree β} {n : Nat}
    (h : (t.number f 0).subtrees[n]? = some s) : key s.label = n := by
  have hkeys := map_preorder_number hf 0 t
  rw [preorder_eq_map_subtrees, List.map_map] at hkeys
  have hget : ((t.number f 0).subtrees.map (key ∘ label))[n]? = some (key s.label) := by
    rw [List.getElem?_map, h]
    rfl
  rw [hkeys] at hget
  obtain ⟨hlt, hget⟩ := List.getElem?_eq_some_iff.mp hget
  rw [List.getElem_range', Nat.one_mul, Nat.zero_add] at hget
  exact hget.symm

theorem getElem_key (hf : ∀ n a, key (f n a) = n) {t : Tree α} {s : Tree β}
    (h : s ∈ (t.number f 0).subtrees) : (t.number f 0).subtrees[key s.label]? = some s := by
  obtain ⟨n, hn⟩ := List.mem_iff_getElem?.mp h
  rwa [key_of_getElem hf hn]

theorem key_lt_of_mem_children (hf : ∀ n a, key (f n a) = n) {n : Nat} {t : Tree α} {c s : Tree β}
    (hs : s ∈ (t.number f n).subtrees) (hc : c ∈ s.children) : key s.label < key c.label := by
  have hkeys := map_preorder_of_mem hf hs
  cases s with
  | node b us =>
    rw [preorder, List.map_cons, size, List.range'_succ, List.cons.injEq] at hkeys
    have hmem : key c.label ∈ (preorderAll us).map key := by
      refine List.mem_map_of_mem ?_
      rw [preorderAll_eq_flatMap]
      exact List.mem_flatMap.mpr ⟨c, hc, mem_preorder.mpr ⟨c, c.mem_subtrees_self, rfl⟩⟩
    rw [hkeys.2] at hmem
    exact (List.mem_range'_1.mp hmem).1

mutual

theorem parents_sound (above : Option α) : ∀ t : Tree α,
    List.Forall₂ (fun s p => s = t ∧ p = above ∨
      ∃ u ∈ t.subtrees, s ∈ u.children ∧ p = some u.label) t.subtrees (t.parents above)
  | node a ts => by
    rw [subtrees, parents]
    refine .cons (.inl ⟨rfl, rfl⟩) ((parentsAll_sound (some a) ts).imp ?_)
    rintro s p (⟨hs, rfl⟩ | ⟨u, hu, hs⟩)
    · exact .inr ⟨node a ts, List.mem_cons_self, hs, rfl⟩
    · exact .inr ⟨u, List.mem_cons_of_mem _ hu, hs⟩

theorem parentsAll_sound (above : Option α) : ∀ ts : List (Tree α),
    List.Forall₂ (fun s p => s ∈ ts ∧ p = above ∨
        ∃ u ∈ subtreesAll ts, s ∈ u.children ∧ p = some u.label)
      (subtreesAll ts) (parentsAll above ts)
  | [] => .nil
  | t :: ts => by
    rw [subtreesAll, parentsAll]
    refine List.rel_append ((parents_sound above t).imp ?_) ((parentsAll_sound above ts).imp ?_)
    · rintro s p (⟨rfl, hp⟩ | ⟨u, hu, hs⟩)
      · exact .inl ⟨List.mem_cons_self, hp⟩
      · exact .inr ⟨u, List.mem_append_left _ hu, hs⟩
    · rintro s p (⟨hs, hp⟩ | ⟨u, hu, hs⟩)
      · exact .inl ⟨List.mem_cons_of_mem _ hs, hp⟩
      · exact .inr ⟨u, List.mem_append_right _ hu, hs⟩

end

theorem length_parents (above : Option α) (t : Tree α) : (t.parents above).length = t.size := by
  rw [← (parents_sound above t).length_eq, length_subtrees]

theorem parentsAll_of_mem (hf : ∀ n a, key (f n a) = n) (above : Option β) {c : Tree β}
    (n : Nat) (ts : List (Tree α)) (hc : c ∈ numberAll f n ts) :
    ∃ i, key c.label = n + i ∧ (parentsAll above (numberAll f n ts))[i]? = some above := by
  induction ts generalizing n with
  | nil => cases hc
  | cons t ts ih =>
    rw [numberAll] at hc
    obtain rfl | hc := List.mem_cons.mp hc
    · refine ⟨0, by rw [label_number, hf, Nat.add_zero], ?_⟩
      cases t
      rfl
    · obtain ⟨i, hi, hget⟩ := ih (n + t.size) hc
      have hlength : ((t.number f n).parents above).length = t.size := by
        rw [length_parents, size_number]
      refine ⟨t.size + i, by rw [hi, Nat.add_assoc], ?_⟩
      rw [numberAll, parentsAll, List.getElem?_append_right (by omega), hlength,
        Nat.add_sub_cancel_left, hget]

mutual

theorem parents_of_mem_children (hf : ∀ n a, key (f n a) = n) (above : Option β) {u c : Tree β}
    (hc : c ∈ u.children) : ∀ (n : Nat) (t : Tree α), u ∈ (t.number f n).subtrees →
      ∃ i, key c.label = n + i ∧ ((t.number f n).parents above)[i]? = some (some u.label)
  | n, node a ts, hu => by
    have hbelow : ∃ i, key c.label = n + 1 + i ∧
        (parentsAll (some (f n a)) (numberAll f (n + 1) ts))[i]? = some (some u.label) := by
      obtain rfl | hu := List.mem_cons.mp hu
      · exact parentsAll_of_mem hf _ (n + 1) ts hc
      · exact parentsAll_of_mem_children hf _ hc (n + 1) ts hu
    obtain ⟨i, hi, hget⟩ := hbelow
    refine ⟨i + 1, by omega, ?_⟩
    rw [number, parents, List.getElem?_cons_succ, hget]

theorem parentsAll_of_mem_children (hf : ∀ n a, key (f n a) = n) (above : Option β)
    {u c : Tree β} (hc : c ∈ u.children) : ∀ (n : Nat) (ts : List (Tree α)),
      u ∈ subtreesAll (numberAll f n ts) →
        ∃ i, key c.label = n + i ∧
          (parentsAll above (numberAll f n ts))[i]? = some (some u.label)
  | _, [], hu => nomatch hu
  | n, t :: ts, hu => by
    have hlength : ((t.number f n).parents above).length = t.size := by
      rw [length_parents, size_number]
    rw [numberAll, parentsAll]
    obtain hu | hu := List.mem_append.mp hu
    · obtain ⟨i, hi, hget⟩ := parents_of_mem_children hf above hc n t hu
      obtain ⟨hlt, -⟩ := List.getElem?_eq_some_iff.mp hget
      exact ⟨i, hi, by rw [List.getElem?_append_left hlt, hget]⟩
    · obtain ⟨i, hi, hget⟩ := parentsAll_of_mem_children hf above hc (n + t.size) ts hu
      refine ⟨t.size + i, by omega, ?_⟩
      rw [List.getElem?_append_right (by omega), hlength, Nat.add_sub_cancel_left, hget]

end

theorem parents_eq_some_iff (hf : ∀ n a, key (f n a) = n) {t : Tree α} {n : Nat} {b : β} :
    ((t.number f 0).parents none)[n]? = some (some b) ↔
      ∃ u ∈ (t.number f 0).subtrees, u.label = b ∧ ∃ c ∈ u.children, key c.label = n := by
  constructor
  · intro h
    have hall := parents_sound none (t.number f 0)
    obtain ⟨hp, hget⟩ := List.getElem?_eq_some_iff.mp h
    have hs : n < (t.number f 0).subtrees.length := by rwa [hall.length_eq]
    obtain ⟨-, hnone⟩ | ⟨u, hu, hc, hlabel⟩ := hall.get hs hp
    · rw [List.get_eq_getElem, hget] at hnone
      cases hnone
    · rw [List.get_eq_getElem, hget, Option.some.injEq] at hlabel
      refine ⟨u, hu, hlabel.symm, _, hc, ?_⟩
      exact key_of_getElem hf (List.getElem?_eq_getElem hs)
  · rintro ⟨u, hu, rfl, c, hc, rfl⟩
    obtain ⟨i, hi, hget⟩ := parents_of_mem_children hf none hc 0 t hu
    rwa [hi, Nat.zero_add]

theorem exists_parent {s t : Tree α} (hs : s ∈ t.subtrees) :
    s = t ∨ ∃ u ∈ t.subtrees, s ∈ u.children := by
  induction t with
  | node a ts ih =>
    obtain rfl | ⟨c, hc, hs⟩ := mem_subtrees_node.mp hs
    · exact .inl rfl
    · right
      obtain rfl | ⟨u, hu, hs⟩ := ih c hc hs
      · exact ⟨node a ts, mem_subtrees_self _, hc⟩
      · exact ⟨u, mem_subtrees_node.mpr (.inr ⟨c, hc, hu⟩), hs⟩

end Tree

namespace Parents

def ofTree (t : Tree Segment) : Parents :=
  ((t.parents none).map (Option.map Segment.id)).toArray

theorem getElem?_ofTree {t : Tree Segment} {i p : Nat} : (ofTree t)[i]? = some (some p) ↔
    ∃ s : Segment, (t.parents none)[i]? = some (some s) ∧ s.id = p := by
  rw [ofTree, List.getElem?_toArray, List.getElem?_map, Option.map_eq_some_iff]
  constructor
  · rintro ⟨_, hs, hp⟩
    obtain ⟨s, rfl, rfl⟩ := Option.map_eq_some_iff.mp hp
    exact ⟨s, hs, rfl⟩
  · rintro ⟨s, hs, rfl⟩
    exact ⟨some s, hs, rfl⟩

theorem ordered_ofTree {α : Type} {f : Nat → α → Segment} (hf : ∀ n a, (f n a).id = n)
    (t : Tree α) : Ordered (ofTree (t.number f 0)) := by
  intro i p h
  obtain ⟨s, hs, rfl⟩ := getElem?_ofTree.mp h
  obtain ⟨u, hu, rfl, c, hc, rfl⟩ := (Tree.parents_eq_some_iff hf).mp hs
  exact Tree.key_lt_of_mem_children hf hu hc

end Parents

/-- The segments of a document can be found in several ways, and all of them lead to the same
ones. -/
structure Document.Indexed (d : Document) : Prop where
  stack : Tree.unstack [d.root] = d.segments
  ids : d.segments.map Segment.id = List.range d.size
  contiguous : ∀ s ∈ d.root.subtrees,
    s.preorder.map Segment.id = List.range' s.label.id s.size
  get : ∀ n, d.get? n = d.root.subtrees[n]? ∧ (d.get? n).map Tree.label = d.segments[n]? ∧
    ((d.get? n).isSome ↔ n < d.size)
  /-- The numbers entered during the build are those of the segments above. -/
  parents : d.parents = .ofTree d.root
  parent : ∀ n p, d.parentId? n = some p ↔
    ∃ s ∈ d.root.subtrees, s.label.id = p ∧ ∃ c ∈ s.children, c.label.id = n
  /-- No segment has two parents. -/
  unique : ∀ s ∈ d.root.subtrees, ∀ u ∈ d.root.subtrees, ∀ c ∈ s.children, ∀ c' ∈ u.children,
    c.label.id = c'.label.id → s = u
  orphan : ∀ n, d.parentId? n = none ↔ n = d.root.label.id ∨ d.size ≤ n
  /-- The ancestors are the way up, from a child to its parent, until the root is reached. -/
  ancestors : ∀ s ∈ d.root.subtrees, d.ancestors s.label.id ⊆ d.root.subtrees ∧
    (s :: d.ancestors s.label.id).IsChain (fun c u => c ∈ u.children) ∧
      (s :: d.ancestors s.label.id).getLast? = some d.root
  unknown : ∀ n, d.size ≤ n → d.ancestors n = []
  entered : d.root.visits.filterMap Tree.Visit.entered? = d.segments
  left : (d.root.visits.filterMap Tree.Visit.left?).Perm d.segments
  /-- Between the two visits to a segment all that is below it is entered and left, and nothing
  else. -/
  visits : ∀ s ∈ d.root.subtrees, ∃ before inside after,
    d.root.visits = before ++ .enter s.label :: inside ++ .leave s.label :: after ∧
      inside.filterMap Tree.Visit.entered? = Tree.preorderAll s.children ∧
      (inside.filterMap Tree.Visit.left?).Perm (Tree.preorderAll s.children)

namespace Segment

mutual

/-- A tree enters the numbers of the parents in it, behind those that are there. -/
theorem parents_build (parents : Parents) (above : Option Segment) : ∀ t : Tree Region,
    (build parents (above.map id) t).2.toList = parents.toList ++
      ((t.number ofRegion parents.size).parents above).map (Option.map id)
  | .node r ts => by
    have hbelow :=
      parents_buildAll (parents.push (above.map id)) (some (ofRegion parents.size r)) ts
    rw [Array.size_push, Array.toList_push, List.append_assoc] at hbelow
    exact hbelow

theorem parents_buildAll (parents : Parents) (above : Option Segment) : ∀ ts : List (Tree Region),
    (buildAll parents (above.map id) ts).2.toList = parents.toList ++
      (Tree.parentsAll above (Tree.numberAll ofRegion parents.size ts)).map (Option.map id)
  | [] => (List.append_nil _).symm
  | t :: ts => by
    have hrest := parents_buildAll (build parents (above.map id) t).2 above ts
    rw [(build_number parents _ t).2, parents_build parents above t, List.append_assoc,
      ← List.map_append] at hrest
    exact hrest

end

end Segment

namespace Document

variable {p : Parser} {source : String}

theorem id_ofRegion (n : Nat) (r : Region) : (Segment.ofRegion n r).id = n := rfl

theorem parents_parse (p : Parser) (source : String) :
    (p.parse source).parents = .ofTree (p.parse source).root := by
  rw [root_parse]
  exact congrArg List.toArray
    (Segment.parents_build #[] none (outline p.vocabulary p.limits source.toList))

theorem parentId?_eq_some_iff {n k : Nat} : (p.parse source).parentId? n = some k ↔
    ∃ s ∈ (p.parse source).root.subtrees, s.label.id = k ∧ ∃ c ∈ s.children, c.label.id = n := by
  rw [parentId?, parents_parse, Option.join_eq_some_iff, Parents.getElem?_ofTree, root_parse]
  constructor
  · rintro ⟨b, hb, rfl⟩
    obtain ⟨s, hs, rfl, hc⟩ := (Tree.parents_eq_some_iff id_ofRegion).mp hb
    exact ⟨s, hs, rfl, hc⟩
  · rintro ⟨s, hs, rfl, hc⟩
    exact ⟨s.label, (Tree.parents_eq_some_iff id_ofRegion).mpr ⟨s, hs, rfl, hc⟩, rfl⟩

theorem size_eq_length : (p.parse source).size = (p.parse source).root.subtrees.length := by
  rw [size_parse, Tree.length_subtrees, root_parse, Tree.size_number]

theorem getElem_id {s : Tree Segment} (hs : s ∈ (p.parse source).root.subtrees) :
    (p.parse source).root.subtrees[s.label.id]? = some s := by
  rw [root_parse] at hs ⊢
  exact Tree.getElem_key id_ofRegion hs

theorem id_lt_size {s : Tree Segment} (hs : s ∈ (p.parse source).root.subtrees) :
    s.label.id < (p.parse source).size := by
  obtain ⟨hlt, -⟩ := List.getElem?_eq_some_iff.mp (getElem_id hs)
  rwa [size_eq_length]

theorem id_of_getElem {s : Tree Segment} {n : Nat}
    (h : (p.parse source).root.subtrees[n]? = some s) : s.label.id = n := by
  rw [root_parse] at h
  exact Tree.key_of_getElem id_ofRegion h

theorem id_lt_of_mem_children {c s : Tree Segment} (hs : s ∈ (p.parse source).root.subtrees)
    (hc : c ∈ s.children) : s.label.id < c.label.id := by
  rw [root_parse] at hs
  exact Tree.key_lt_of_mem_children id_ofRegion hs hc

theorem parentId?_of_mem_children {c s : Tree Segment} (hs : s ∈ (p.parse source).root.subtrees)
    (hc : c ∈ s.children) : (p.parse source).parentId? c.label.id = some s.label.id :=
  parentId?_eq_some_iff.mpr ⟨s, hs, rfl, c, hc, rfl⟩

theorem parentId?_eq_none_iff {n : Nat} : (p.parse source).parentId? n = none ↔
    n = (p.parse source).root.label.id ∨ (p.parse source).size ≤ n := by
  constructor
  · intro h
    by_contra hn
    obtain ⟨hroot, hlt⟩ := not_or.mp hn
    rw [Nat.not_le, size_eq_length] at hlt
    have hs := List.getElem_mem hlt
    have hid := id_of_getElem (List.getElem?_eq_getElem hlt)
    obtain hs | ⟨u, hu, hc⟩ := Tree.exists_parent hs
    · rw [hs] at hid
      exact hroot hid.symm
    · have hparent := parentId?_of_mem_children hu hc
      rw [hid, h] at hparent
      cases hparent
  · intro h
    rw [Option.eq_none_iff_forall_ne_some]
    intro k hk
    obtain ⟨s, hs, -, c, hc, rfl⟩ := parentId?_eq_some_iff.mp hk
    have hmem := Tree.mem_subtrees_trans (Tree.mem_subtrees_of_mem_children hc) hs
    have hlt := id_lt_of_mem_children hs hc
    obtain hroot | hsize := h
    · rw [hroot, root_parse, Tree.label_number, id_ofRegion] at hlt
      exact absurd hlt (Nat.not_lt_zero _)
    · exact absurd (id_lt_size hmem) (Nat.not_lt.mpr hsize)

theorem get?_eq (n : Nat) :
    (p.parse source).get? n = (p.parse source).root.subtrees[n]? := by
  have h := Tree.find?_number id_ofRegion 0 n (outline p.vocabulary p.limits source.toList)
  rwa [Nat.zero_add, ← root_parse] at h

theorem get?_id {s : Tree Segment} (hs : s ∈ (p.parse source).root.subtrees) :
    (p.parse source).get? s.label.id = some s :=
  (get?_eq _).trans (getElem_id hs)

theorem parent?_of_mem_children {c s : Tree Segment} (hs : s ∈ (p.parse source).root.subtrees)
    (hc : c ∈ s.children) : (p.parse source).parent? c.label.id = some s := by
  rw [parent?, parentId?_of_mem_children hs hc]
  exact get?_id hs

theorem parent?_eq_none {n : Nat}
    (h : n = (p.parse source).root.label.id ∨ (p.parse source).size ≤ n) :
    (p.parse source).parent? n = none := by
  rw [parent?, parentId?_eq_none_iff.mpr h, Option.bind_none]

theorem ancestors_eq_nil {d : Document} {n : Nat} (h : d.parent? n = none) :
    d.ancestors n = [] := by
  rw [ancestors]
  split
  · rfl
  · simp_all

theorem ancestors_eq_cons {d : Document} {n : Nat} {t : Tree Segment} (h : d.parent? n = some t) :
    d.ancestors n = t :: d.ancestors t.label.id := by
  rw [ancestors]
  split
  · simp_all
  · simp_all

theorem ancestors_of_mem {s : Tree Segment} (hs : s ∈ (p.parse source).root.subtrees) :
    (p.parse source).ancestors s.label.id ⊆ (p.parse source).root.subtrees ∧
      (s :: (p.parse source).ancestors s.label.id).IsChain (fun c u => c ∈ u.children) ∧
      (s :: (p.parse source).ancestors s.label.id).getLast? = some (p.parse source).root := by
  -- a parent has a smaller number
  induction hn : s.label.id using Nat.strong_induction_on generalizing s with
  | _ n ih =>
    subst hn
    obtain rfl | ⟨u, hu, hc⟩ := Tree.exists_parent hs
    · rw [ancestors_eq_nil (parent?_eq_none (.inl rfl))]
      exact ⟨List.nil_subset _, .singleton _, rfl⟩
    · obtain ⟨hsub, hchain, hlast⟩ := ih _ (id_lt_of_mem_children hu hc) hu rfl
      rw [ancestors_eq_cons (parent?_of_mem_children hu hc), List.getLast?_cons_cons]
      exact ⟨List.cons_subset.mpr ⟨hu, hsub⟩, .cons_cons hc hchain, hlast⟩

/-- The numbers of segments, and what is found by them, agree with the tree. -/
theorem indexed_parse (p : Parser) (source : String) : (p.parse source).Indexed where
  stack := by
    rw [Tree.unstack_eq, Tree.preorderAll, Tree.preorderAll, List.append_nil]
    rfl
  ids := by
    rw [List.range_eq_range', size_parse, segments, root_parse]
    exact Tree.map_preorder_number id_ofRegion 0 _
  contiguous s hs := by
    rw [root_parse] at hs
    exact Tree.map_preorder_of_mem id_ofRegion hs
  get n := by
    have hsegments : (p.parse source).segments = (p.parse source).root.subtrees.map Tree.label :=
      Tree.preorder_eq_map_subtrees _
    refine ⟨get?_eq n, ?_, ?_⟩
    · rw [get?_eq, hsegments, List.getElem?_map]
    · rw [get?_eq, size_eq_length, isSome_getElem?]
  parents := parents_parse p source
  parent n k := parentId?_eq_some_iff
  unique s hs u hu c hc c' hc' hid := by
    have hparent := parentId?_of_mem_children hu hc'
    rw [← hid, parentId?_of_mem_children hs hc, Option.some.injEq] at hparent
    exact eq_of_id_eq hs hu hparent
  orphan n := parentId?_eq_none_iff
  ancestors s := ancestors_of_mem
  unknown n h := ancestors_eq_nil (parent?_eq_none (.inr h))
  entered := Tree.entered_visits _
  left := Tree.left_visits_perm _
  visits s hs := by
    obtain ⟨before, after, h⟩ := Tree.visits_infix hs
    cases s with
    | node a ts =>
      refine ⟨before, Tree.visitsAll ts, after, ?_, Tree.entered_visitsAll ts,
        Tree.left_visitsAll_perm ts⟩
      rw [← h, Tree.visits]
      simp only [Tree.label, List.cons_append, List.append_assoc, List.nil_append]

end Document

end ProseMarkup
