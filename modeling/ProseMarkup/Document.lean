import ProseMarkup.Diagnostic.Log
import ProseMarkup.LineMap
import ProseMarkup.Region.Outline
import ProseMarkup.Segment

namespace ProseMarkup

/-- For every segment the number of the one right above it, at its own number. -/
abbrev Parents :=
  Array (Option Nat)

namespace Parents

/-- Holds when every number is entered behind the one above it. -/
def Ordered (parents : Parents) : Prop :=
  ∀ i p : Nat, parents[i]? = some (some p) → p < i

instance (parents : Parents) : Decidable parents.Ordered :=
  decidable_of_iff (∀ i (h : i < parents.size), ∀ p ∈ parents[i], p < i) <| by
    simp only [Ordered, Array.getElem?_eq_some_iff, Option.mem_def]
    exact ⟨fun h i p ⟨hi, hp⟩ => h i hi p hp, fun h i hi p hp => h i p ⟨hi, hp⟩⟩

theorem ordered_empty : Ordered #[] := by
  intro i p h
  simp at h

theorem Ordered.push {parents : Parents} {above : Option Nat} (h : parents.Ordered)
    (habove : ∀ p ∈ above, p < parents.size) : Ordered (parents.push above) := by
  intro i p hp
  rw [Array.getElem?_push] at hp
  split at hp
  · rename_i hi
    rw [hi]
    exact habove p (Option.some.inj hp)
  · exact h i p hp

end Parents

namespace Segment

mutual

/-- Turns regions into segments. A segment has the number of parents entered before its own. -/
def build (parents : Parents) (above : Option Nat) : Tree Region → Tree Segment × Parents
  | .node r ts =>
    let id := parents.size
    let (children, parents) := buildAll (parents.push above) (some id) ts
    (.node (ofRegion id r) children, parents)

def buildAll (parents : Parents) (above : Option Nat) :
    List (Tree Region) → List (Tree Segment) × Parents
  | [] => ([], parents)
  | t :: ts =>
    let (segment, parents) := build parents above t
    let (segments, parents) := buildAll parents above ts
    (segment :: segments, parents)

end

mutual

theorem build_number (parents : Parents) (above : Option Nat) : ∀ t : Tree Region,
    (build parents above t).1 = t.number ofRegion parents.size ∧
      (build parents above t).2.size = parents.size + t.size
  | .node r ts => by
    obtain ⟨hchildren, hsize⟩ := buildAll_number (parents.push above) (some parents.size) ts
    rw [Array.size_push] at hchildren hsize
    rw [build, Tree.number, Tree.size]
    exact ⟨congrArg _ hchildren, by rw [hsize]; omega⟩

theorem buildAll_number (parents : Parents) (above : Option Nat) : ∀ ts : List (Tree Region),
    (buildAll parents above ts).1 = Tree.numberAll ofRegion parents.size ts ∧
      (buildAll parents above ts).2.size = parents.size + Tree.sizeAll ts
  | [] => ⟨rfl, rfl⟩
  | t :: ts => by
    obtain ⟨hsegment, hsize⟩ := build_number parents above t
    obtain ⟨hsegments, hsizes⟩ := buildAll_number (build parents above t).2 above ts
    rw [hsize] at hsegments hsizes
    rw [buildAll, Tree.numberAll, Tree.sizeAll]
    exact ⟨by rw [← hsegment, ← hsegments], by rw [hsizes]; omega⟩

end

mutual

theorem ordered_build {parents : Parents} {above : Option Nat} (h : parents.Ordered)
    (habove : ∀ p ∈ above, p < parents.size) : ∀ t, (build parents above t).2.Ordered
  | .node r ts => by
    apply ordered_buildAll (h.push habove) _ ts
    rintro _ ⟨⟩
    rw [Array.size_push]
    exact Nat.lt_succ_self _

theorem ordered_buildAll {parents : Parents} {above : Option Nat} (h : parents.Ordered)
    (habove : ∀ p ∈ above, p < parents.size) : ∀ ts, (buildAll parents above ts).2.Ordered
  | [] => h
  | t :: ts => by
    apply ordered_buildAll (ordered_build h habove t) _ ts
    intro p hp
    rw [(build_number parents above t).2]
    exact Nat.lt_of_lt_of_le (habove p hp) (Nat.le_add_right _ _)

end

end Segment

@[ext]
structure Document where
  source : String
  path : Option String
  root : Tree Segment
  diagnostics : List Diagnostic
  dropped : Nat
  parents : Parents
  ordered : parents.Ordered

namespace Document

/-- Diagnostics in the order of their discovery: those of the regions, and then those of the
tags. -/
def discovered (t : Tree Region) : List Diagnostic :=
  t.preorder.flatMap Region.notes ++ t.preorder.flatMap Segment.notes

/-- Puts diagnostics in the order of their offsets and attaches each to the deepest segment where it
starts. Diagnostics with the same offset keep their order. -/
def arrange (root : Tree Segment) (ds : List Diagnostic) : List Diagnostic :=
  (ds.mergeSort fun a b => a.span.start ≤ b.span.start).map fun d =>
    d.attach (Segment.nodeAt root d.span.start).label.id

def ofOutline (source : String) (path : Option String) (capacity : Option Nat) (t : Tree Region) :
    Document :=
  let built := Segment.build #[] none t
  let log := (Diagnostic.Log.empty capacity).extend (discovered t)
  { source, path, root := built.1, diagnostics := arrange built.1 log.items, dropped := log.dropped,
    parents := built.2, ordered := Segment.ordered_build Parents.ordered_empty (by simp) t }

def segments (d : Document) : List Segment :=
  d.root.preorder

def size (d : Document) : Nat :=
  d.parents.size

def hasErrors (d : Document) : Bool :=
  d.diagnostics.any (·.severity = .error)

def diagnosticsFor (d : Document) (id : Nat) : List Diagnostic :=
  d.diagnostics.filter (·.node = some id)

def get? (d : Document) (id : Nat) : Option (Tree Segment) :=
  d.root.find? Segment.id id

def parentId? (d : Document) (id : Nat) : Option Nat :=
  d.parents[id]?.join

def parent? (d : Document) (id : Nat) : Option (Tree Segment) :=
  (d.parentId? id).bind d.get?

theorem id_lt_of_parent? {d : Document} {id : Nat} {t : Tree Segment} (h : d.parent? id = some t) :
    t.label.id < id := by
  obtain ⟨p, hp, hget⟩ := Option.bind_eq_some_iff.mp h
  rw [Tree.key_of_find? hget]
  exact d.ordered id p (Option.join_eq_some_iff.mp hp)

def ancestors (d : Document) (id : Nat) : List (Tree Segment) :=
  match _ : d.parent? id with
  | none => []
  | some t => t :: d.ancestors t.label.id
termination_by id
decreasing_by
  -- the numbers fall on the way up
  exact id_lt_of_parent? ‹_›

/-- The deepest segment with the byte at `offset`, or the root if there is none. -/
def nodeAt (d : Document) (offset : Nat) : Tree Segment :=
  Segment.nodeAt d.root offset

def lineMap (d : Document) : LineMap :=
  .ofText d.source.toList

def positions? (d : Document) (id : Nat) : Option (Position × Position) :=
  (d.get? id).map fun t =>
    (d.lineMap.position t.label.span.start, d.lineMap.position t.label.span.stop)

end Document

end ProseMarkup
