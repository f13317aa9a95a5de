import ProseMarkup.Proofs.Attachment
import ProseMarkup.Proofs.Numbers

namespace ProseMarkup

/-- What the search for the segment at an offset finds. -/
structure Document.Locates (d : Document) : Prop where
  mem : ∀ n, d.nodeAt n ∈ d.root.subtrees
  contains : ∀ n < d.source.utf8ByteSize, (d.nodeAt n).label.span.contains n = true
  children : ∀ n, ∀ c ∈ (d.nodeAt n).children, ¬c.label.span.contains n = true
  /-- A segment around the offset is the one that is found, or one of those above it. -/
  above : ∀ n, ∀ s ∈ d.root.subtrees, s.label.span.contains n = true →
    s = d.nodeAt n ∨ s ∈ d.ancestors (d.nodeAt n).label.id
  outside : ∀ n, d.source.utf8ByteSize ≤ n → d.nodeAt n = d.root
  /-- A search that starts at a segment around the offset ends at the same segment. -/
  below : ∀ n, ∀ s ∈ d.root.subtrees, s.label.span.contains n = true →
    Segment.nodeAt s n = d.nodeAt n

namespace Document

variable {p : Parser} {source : String}

theorem eq_or_mem_ancestors {s u : Tree Segment} (hs : s ∈ (p.parse source).root.subtrees)
    (hu : u ∈ s.subtrees) : s = u ∨ s ∈ (p.parse source).ancestors u.label.id := by
  -- a parent has a smaller number
  induction hn : u.label.id using Nat.strong_induction_on generalizing u with
  | _ n ih =>
    subst hn
    obtain rfl | ⟨w, hw, hc⟩ := Tree.exists_parent hu
    · exact .inl rfl
    · have hmem := Tree.mem_subtrees_trans hw hs
      right
      rw [ancestors_eq_cons (parent?_of_mem_children hmem hc)]
      obtain rfl | hanc := ih _ (id_lt_of_mem_children hmem hc) hw rfl
      · exact List.mem_cons_self
      · exact List.mem_cons_of_mem _ hanc

theorem contains_root_iff {n : Nat} :
    (p.parse source).root.label.span.contains n = true ↔ n < source.utf8ByteSize := by
  have hroot : (p.parse source).root.label.span = ⟨0, source.utf8ByteSize⟩ := by
    rw [root_parse, Tree.label_number, ← Text.size_toList]
    exact Region.span_outline p.vocabulary p.limits source.toList
  rw [hroot, Span.contains_iff]
  exact and_iff_right (Nat.zero_le n)

/-- The segment at an offset is the deepest around it. -/
theorem locates_parse (p : Parser) (source : String) : (p.parse source).Locates where
  mem n := Tree.deepest_mem_subtrees _ _
  contains n hn :=
    Tree.label_deepest (p := fun s : Segment => s.span.contains n) (contains_root_iff.mpr hn)
  children n := Tree.forall_children_deepest _
  above n s hs hn :=
    eq_or_mem_ancestors hs (Tree.deepest_mem_of_contains (nested_root p source) hs hn)
  outside n hn := by
    obtain hself | hdeepest := Tree.deepest_eq_self_or (fun s : Segment => s.span.contains n)
      (p.parse source).root
    · exact hself
    · have hmem := Tree.deepest_mem_subtrees (fun s : Segment => s.span.contains n)
        (p.parse source).root
      have hroot := (nested_root p source).contains_of_mem hmem hdeepest
      exact absurd (contains_root_iff.mp hroot) (Nat.not_lt.mpr hn)
  below n s hs hn := Tree.deepest_eq_of_contains (nested_root p source) hs hn

end Document

end ProseMarkup
