import ProseMarkup.Tree
import Mathlib.Data.List.Chain
import Mathlib.Data.List.Forall2

namespace ProseMarkup.Tree

variable {α β γ δ : Type}

mutual

def subtrees : Tree α → List (Tree α)
  | node a ts => node a ts :: subtreesAll ts

def subtreesAll : List (Tree α) → List (Tree α)
  | [] => []
  | t :: ts => t.subtrees ++ subtreesAll ts

end

theorem mem_subtrees_self (t : Tree α) : t ∈ t.subtrees := by
  cases t
  exact List.mem_cons_self

theorem mem_subtreesAll {u : Tree α} {ts : List (Tree α)} :
    u ∈ subtreesAll ts ↔ ∃ t ∈ ts, u ∈ t.subtrees := by
  induction ts with
  | nil => simp [subtreesAll]
  | cons t ts ih => simp [subtreesAll, ih]

theorem mem_subtrees_node {u : Tree α} {a : α} {ts : List (Tree α)} :
    u ∈ (node a ts).subtrees ↔ u = node a ts ∨ ∃ t ∈ ts, u ∈ t.subtrees := by
  rw [subtrees, List.mem_cons, mem_subtreesAll]

theorem mem_subtrees_of_mem_below {u t : Tree α} (h : u ∈ subtreesAll t.children) :
    u ∈ t.subtrees := by
  cases t
  exact List.mem_cons_of_mem _ h

theorem eq_or_mem_of_mem_subtrees {u t : Tree α} (h : u ∈ t.subtrees) :
    u = t ∨ u ∈ subtreesAll t.children := by
  cases t
  exact List.mem_cons.mp h

theorem mem_subtrees_of_mem_children {c t : Tree α} (h : c ∈ t.children) : c ∈ t.subtrees := by
  cases t
  exact mem_subtrees_node.mpr (.inr ⟨c, h, c.mem_subtrees_self⟩)

theorem mem_subtrees_trans {s u t : Tree α} (hs : s ∈ u.subtrees) (hu : u ∈ t.subtrees) :
    s ∈ t.subtrees := by
  induction t with
  | node a ts ih =>
    obtain rfl | ⟨c, hc, hu⟩ := mem_subtrees_node.mp hu
    · exact hs
    · exact mem_subtrees_node.mpr (.inr ⟨c, hc, ih c hc hu⟩)

mutual

theorem preorder_eq_map_subtrees : ∀ t : Tree α, t.preorder = t.subtrees.map label
  | node a ts => by rw [preorder, subtrees, List.map_cons, preorderAll_eq_map_subtreesAll ts, label]

theorem preorderAll_eq_map_subtreesAll :
    ∀ ts : List (Tree α), preorderAll ts = (subtreesAll ts).map label
  | [] => rfl
  | t :: ts => by
    rw [preorderAll, subtreesAll, List.map_append, preorder_eq_map_subtrees t,
      preorderAll_eq_map_subtreesAll ts]

end

theorem mem_preorder {a : α} {t : Tree α} : a ∈ t.preorder ↔ ∃ u ∈ t.subtrees, u.label = a := by
  rw [preorder_eq_map_subtrees, List.mem_map]

theorem label_number (f : Nat → α → β) (n : Nat) (t : Tree α) :
    (t.number f n).label = f n t.label := by
  cases t
  rfl

theorem children_number (f : Nat → α → β) (n : Nat) (t : Tree α) :
    (t.number f n).children = numberAll f (n + 1) t.children := by
  cases t
  rfl

mutual

theorem subtrees_number (f : Nat → α → β) : ∀ (n : Nat) (t : Tree α),
    List.Forall₂ (fun u s => ∃ k, s = u.number f k) t.subtrees (t.number f n).subtrees
  | n, node _ ts => .cons ⟨n, rfl⟩ (subtreesAll_numberAll f (n + 1) ts)

theorem subtreesAll_numberAll (f : Nat → α → β) : ∀ (n : Nat) (ts : List (Tree α)),
    List.Forall₂ (fun u s => ∃ k, s = u.number f k) (subtreesAll ts)
      (subtreesAll (numberAll f n ts))
  | _, [] => .nil
  | n, t :: ts => List.rel_append (subtrees_number f n t) (subtreesAll_numberAll f _ ts)

end

theorem exists_of_mem_subtrees_number {f : Nat → α → β} {n : Nat} {t : Tree α} {s : Tree β}
    (h : s ∈ (t.number f n).subtrees) :
    s = t.number f n ∨ ∃ u ∈ subtreesAll t.children, ∃ k, s = u.number f k := by
  cases t with
  | node a ts =>
    obtain rfl | hs := List.mem_cons.mp h
    · exact .inl rfl
    · obtain ⟨i, hi, rfl⟩ := List.mem_iff_getElem.mp hs
      have hall := subtreesAll_numberAll f (n + 1) ts
      have hj : i < (subtreesAll ts).length := by rwa [hall.length_eq]
      exact .inr ⟨(subtreesAll ts)[i], List.getElem_mem hj, hall.get hj hi⟩

theorem exists_number_of_mem_subtrees (f : Nat → α → β) (n : Nat) {t u : Tree α}
    (hu : u ∈ t.subtrees) : ∃ k, u.number f k ∈ (t.number f n).subtrees := by
  have hall := subtrees_number f n t
  obtain ⟨i, hi, rfl⟩ := List.mem_iff_getElem.mp hu
  have hj : i < (t.number f n).subtrees.length := by rwa [← hall.length_eq]
  obtain ⟨k, hk⟩ := hall.get hi hj
  exact ⟨k, hk ▸ List.getElem_mem hj⟩

mutual

theorem size_number (f : Nat → α → β) : ∀ (n : Nat) (t : Tree α), (t.number f n).size = t.size
  | n, node _ ts => by rw [number, size, size, sizeAll_numberAll f (n + 1) ts]

theorem sizeAll_numberAll (f : Nat → α → β) : ∀ (n : Nat) (ts : List (Tree α)),
    sizeAll (numberAll f n ts) = sizeAll ts
  | _, [] => rfl
  | n, t :: ts => by
    rw [numberAll, sizeAll, sizeAll, size_number f n t, sizeAll_numberAll f _ ts]

end

theorem map_numberAll {f : Nat → α → β} {g : β → γ} {h : α → γ} (hf : ∀ n a, g (f n a) = h a)
    (n : Nat) (ts : List (Tree α)) :
    (numberAll f n ts).map (fun t => g t.label) = ts.map (fun t => h t.label) := by
  induction ts generalizing n with
  | nil => rfl
  | cons t ts ih => rw [numberAll, List.map_cons, List.map_cons, ih, label_number, hf]

theorem length_numberAll (f : Nat → α → β) (n : Nat) (ts : List (Tree α)) :
    (numberAll f n ts).length = ts.length := by
  induction ts generalizing n with
  | nil => rfl
  | cons t ts ih => rw [numberAll, List.length_cons, List.length_cons, ih]

theorem numberAll_eq_nil {f : Nat → α → β} {n : Nat} {ts : List (Tree α)} :
    numberAll f n ts = [] ↔ ts = [] := by
  cases ts <;> simp [numberAll]

mutual

def map (f : α → β) : Tree α → Tree β
  | node a ts => node (f a) (mapAll f ts)

def mapAll (f : α → β) : List (Tree α) → List (Tree β)
  | [] => []
  | t :: ts => t.map f :: mapAll f ts

end

theorem label_map (f : α → β) (t : Tree α) : (t.map f).label = f t.label := by
  cases t
  rfl

mutual

theorem size_map (f : α → β) : ∀ t : Tree α, (t.map f).size = t.size
  | node _ ts => by rw [map, size, size, sizeAll_mapAll f ts]

theorem sizeAll_mapAll (f : α → β) : ∀ ts : List (Tree α), sizeAll (mapAll f ts) = sizeAll ts
  | [] => rfl
  | t :: ts => by rw [mapAll, sizeAll, sizeAll, size_map f t, sizeAll_mapAll f ts]

end

mutual

theorem map_id : ∀ t : Tree α, t.map id = t
  | node a ts => by rw [map, mapAll_id ts, id]

theorem mapAll_id : ∀ ts : List (Tree α), mapAll id ts = ts
  | [] => rfl
  | t :: ts => by rw [mapAll, map_id t, mapAll_id ts]

end

mutual

theorem map_map (f : β → γ) (g : α → β) : ∀ t : Tree α, (t.map g).map f = t.map (f ∘ g)
  | node a ts => by rw [map, map, map, mapAll_mapAll f g ts, Function.comp_apply]

theorem mapAll_mapAll (f : β → γ) (g : α → β) : ∀ ts : List (Tree α),
    mapAll f (mapAll g ts) = mapAll (f ∘ g) ts
  | [] => rfl
  | t :: ts => by rw [mapAll, mapAll, mapAll, map_map f g t, mapAll_mapAll f g ts]

end

theorem mapAll_eq_map (f : α → β) (ts : List (Tree α)) : mapAll f ts = ts.map (Tree.map f) := by
  induction ts with
  | nil => rfl
  | cons t ts ih => rw [mapAll, List.map_cons, ih]

mutual

theorem preorder_map (f : α → β) : ∀ t : Tree α, (t.map f).preorder = t.preorder.map f
  | node a ts => by rw [map, preorder, preorder, preorderAll_mapAll f ts, List.map_cons]

theorem preorderAll_mapAll (f : α → β) : ∀ ts : List (Tree α),
    preorderAll (mapAll f ts) = (preorderAll ts).map f
  | [] => rfl
  | t :: ts => by
    rw [mapAll, preorderAll, preorderAll, preorder_map f t, preorderAll_mapAll f ts,
      List.map_append]

end

mutual

theorem number_map {f : Nat → α → β} {g : γ → α} {f' : Nat → γ → δ} {h : δ → β} {k : Nat}
    (hf : ∀ n c, f (n + k) (g c) = h (f' n c)) : ∀ (n : Nat) (t : Tree γ),
    (t.map g).number f (n + k) = (t.number f' n).map h
  | n, node c ts => by
    rw [map, number, number, map, hf, Nat.add_right_comm, numberAll_mapAll hf (n + 1) ts]

theorem numberAll_mapAll {f : Nat → α → β} {g : γ → α} {f' : Nat → γ → δ} {h : δ → β} {k : Nat}
    (hf : ∀ n c, f (n + k) (g c) = h (f' n c)) : ∀ (n : Nat) (ts : List (Tree γ)),
    numberAll f (n + k) (mapAll g ts) = mapAll h (numberAll f' n ts)
  | _, [] => rfl
  | n, t :: ts => by
    rw [mapAll, numberAll, numberAll, mapAll, number_map hf n t, size_map, Nat.add_right_comm,
      numberAll_mapAll hf _ ts]

end

end ProseMarkup.Tree
