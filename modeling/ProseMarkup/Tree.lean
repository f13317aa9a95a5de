namespace ProseMarkup

inductive Tree (α : Type) where
  | node (label : α) (children : List (Tree α))
deriving Repr

namespace Tree

variable {α β : Type}

def label : Tree α → α
  | node a _ => a

def children : Tree α → List (Tree α)
  | node _ ts => ts

/-- A property of all trees follows when it passes from the children of a node to the node. -/
@[induction_eliminator, elab_as_elim]
theorem induction {motive : Tree α → Prop}
    (node : ∀ a ts, (∀ t ∈ ts, motive t) → motive (node a ts)) : ∀ t, motive t
  | .node a ts => node a ts fun t _ => induction node t

mutual

def size : Tree α → Nat
  | node _ ts => sizeAll ts + 1

def sizeAll : List (Tree α) → Nat
  | [] => 0
  | t :: ts => t.size + sizeAll ts

end

mutual

def preorder : Tree α → List α
  | node a ts => a :: preorderAll ts

def preorderAll : List (Tree α) → List α
  | [] => []
  | t :: ts => t.preorder ++ preorderAll ts

end

mutual

/-- The tree with every label changed by a function of its number and the label. The numbers count
the nodes in preorder from `n`. -/
def number (f : Nat → α → β) (n : Nat) : Tree α → Tree β
  | node a ts => node (f n a) (numberAll f (n + 1) ts)

def numberAll (f : Nat → α → β) (n : Nat) : List (Tree α) → List (Tree β)
  | [] => []
  | t :: ts => t.number f n :: numberAll f (n + t.size) ts

end

mutual

def parents (above : Option α) : Tree α → List (Option α)
  | node a ts => above :: parentsAll (some a) ts

def parentsAll (above : Option α) : List (Tree α) → List (Option α)
  | [] => []
  | t :: ts => t.parents above ++ parentsAll above ts

end

inductive Visit (α : Type) where
  | enter (label : α)
  | leave (label : α)
deriving DecidableEq, Repr

mutual

def visits : Tree α → List (Visit α)
  | node a ts => .enter a :: visitsAll ts ++ [.leave a]

def visitsAll : List (Tree α) → List (Visit α)
  | [] => []
  | t :: ts => t.visits ++ visitsAll ts

end

mutual

def deepest (p : α → Bool) : Tree α → Tree α
  | node a ts => (deepestIn? p ts).getD (node a ts)

def deepestIn? (p : α → Bool) : List (Tree α) → Option (Tree α)
  | [] => none
  | t :: ts => if p t.label then some (t.deepest p) else deepestIn? p ts

end

mutual

/-- The subtree with the number `k`, where `key` gives the numbers in preorder. It lies below the
last child whose number is not greater. -/
def find? (key : α → Nat) (k : Nat) : Tree α → Option (Tree α)
  | node a ts => if key a = k then some (node a ts) else findIn? key k ts

def findIn? (key : α → Nat) (k : Nat) : List (Tree α) → Option (Tree α)
  | [] => none
  | t :: ts =>
    if ts.head?.any (key ·.label ≤ k) then findIn? key k ts
    else if key t.label ≤ k then t.find? key k
    else none

end

mutual

theorem key_of_find? {key : α → Nat} {k : Nat} {s : Tree α} : ∀ {t : Tree α},
    t.find? key k = some s → key s.label = k
  | node a ts, h => by
    rw [find?] at h
    split at h
    · rename_i ha
      cases h
      exact ha
    · exact key_of_findIn? h

theorem key_of_findIn? {key : α → Nat} {k : Nat} {s : Tree α} : ∀ {ts : List (Tree α)},
    findIn? key k ts = some s → key s.label = k
  | t :: ts, h => by
    rw [findIn?] at h
    split at h
    · exact key_of_findIn? h
    · split at h
      · exact key_of_find? h
      · cases h

end

theorem preorderAll_eq_flatMap (ts : List (Tree α)) : preorderAll ts = ts.flatMap preorder := by
  induction ts with
  | nil => rfl
  | cons t ts ih => simp [preorderAll, ih]

theorem preorderAll_append (ts us : List (Tree α)) :
    preorderAll (ts ++ us) = preorderAll ts ++ preorderAll us := by
  rw [preorderAll_eq_flatMap, preorderAll_eq_flatMap, preorderAll_eq_flatMap, List.flatMap_append]

theorem size_eq_length (t : Tree α) : t.size = t.preorder.length := by
  induction t with
  | node a ts ih =>
    have all : ∀ us : List (Tree α), (∀ u ∈ us, u.size = u.preorder.length) →
        sizeAll us = (preorderAll us).length := by
      intro us hu
      induction us with
      | nil => rfl
      | cons u us iu =>
        simp only [List.mem_cons, forall_eq_or_imp] at hu
        simp [sizeAll, preorderAll, hu.1, iu hu.2]
    simp [size, preorder, all ts ih]

end Tree

end ProseMarkup
