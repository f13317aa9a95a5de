import ProseMarkup.Checked.Document
import ProseMarkup.Proofs.Attachment
import ProseMarkup.Proofs.Checked.Element

namespace ProseMarkup

open Text (size IsSlice IsSpan)

variable {source : List Char} {start stop : Nat}

/-- Holds of a segment whose spans cut no character. The inside of a template lies between its
braces. -/
structure Segment.Stands (source : List Char) (s : Segment) : Prop where
  content : IsSlice source s.span.start s.span.stop s.content.toList
  tag : ∀ tag ∈ s.tag?, tag.Stands source
  template : ∀ expression ∈ s.expression?, 2 ≤ s.span.stop ∧
    ∃ inner, IsSlice source (s.span.start + 2) (s.span.stop - 2) inner ∧
      expression = .ofList (Text.trim inner)

/-- Holds of a document whose spans cut no character. -/
structure Document.Stands (d : Document) : Prop where
  segments : ∀ s ∈ d.segments, s.Stands d.source.toList
  diagnostics : ∀ x ∈ d.diagnostics, x.Shows d.source.toList

theorem Diagnostic.shows_of_head {d : Diagnostic} {cs ds : List Char}
    (h : IsSlice source start stop (cs ++ ds)) (hcs : cs ≠ []) (hspan : d.span = .ofText start cs) :
    d.Shows source := by
  have hpos := Text.size_pos hcs
  constructor
  · rw [hspan]
    exact IsSlice.isSpan h.left
  · rw [hspan, Span.ofText]
    dsimp only
    omega

theorem Head.shows_of_read {v : Vocabulary} {cs passed rest : List Char} {f : ProseFault}
    (hcs : cs ≠ []) (hread : read v cs = .prose passed (some f) rest)
    (h : IsSlice source start stop cs) : (f.diagnostic start).Shows source := by
  have happend : passed ++ rest = cs := append_of_read hread
  rw [← happend] at h
  cases passes_of_read hcs hread with
  | @closing _ _ tag => exact Diagnostic.shows_of_head h tag.text_ne_nil rfl
  | @unterminated _ _ tag =>
    rw [List.append_assoc] at h
    exact Diagnostic.shows_of_head h tag.text_ne_nil rfl
  | malformed =>
    rw [List.append_assoc] at h
    exact Diagnostic.shows_of_head h (List.cons_ne_nil _ _) rfl

namespace Region

def PartOf (source : List Char) (r : Region) : Prop :=
  IsSlice source r.span.start r.span.stop r.chars

variable {v : Vocabulary} {limits : Limits} {limit depth : Nat} {u : Tree Region} {d : Diagnostic}

theorem Run.shows {cs last : List Char} {notes : List Diagnostic} (run : Run v start cs last notes)
    (h : IsSlice source start stop cs) : ∀ d ∈ notes, d.Shows source := by
  induction run with
  | nil => exact List.forall_mem_nil _
  | @cons start cs passed rest last fault notes hcs hread _ ih =>
    have hrest := h
    have happend : passed ++ rest = cs := Head.append_of_read hread
    rw [← happend] at hrest
    refine List.forall_mem_append.mpr ⟨?_, ih hrest.right⟩
    intro d hd
    obtain ⟨f, hf, rfl⟩ := List.mem_map.mp hd
    obtain rfl := Option.mem_toList.mp hf
    exact Head.shows_of_read hcs hread h

theorem Yields.shows {cs rest : List Char} {t : Tree Region}
    (hy : Yields v limit depth start cs t rest) (h : IsSlice source start stop cs) :
    ∀ d ∈ t.label.notes, d.Shows source := by
  rw [← hy.append] at h
  cases hy with
  | prose hc run => exact run.shows h
  | template => exact List.forall_mem_nil _
  | @element _ rest e hread =>
    rw [treeOf_chars] at h
    rw [treeOf]
    split
    · rw [Element.text, List.append_assoc] at h
      rw [Tree.label, ofElement]
      split
      · exact List.forall_mem_singleton.mpr
          (Diagnostic.shows_of_head h e.opening.text_ne_nil rfl)
      · exact List.forall_mem_nil _
    · exact List.forall_mem_singleton.mpr
        (Diagnostic.shows_of_head h (List.length_pos_iff.mp e.text_length_pos) rfl)

theorem partOf_of_mem (hu : u ∈ (outline v limits source).subtrees) : u.label.PartOf source := by
  obtain ⟨before, after, hsource, hstart⟩ := located_of_mem hu
  exact ⟨before, after, hsource, hstart.symm, rfl⟩

theorem shows_of_note (hu : u ∈ (outline v limits source).subtrees)
    (hd : d ∈ u.label.notes) : d.Shows source := by
  obtain ⟨limit, hlimit, rfl, -⟩ | ⟨_, before, cs, rest, after, hsource, hy⟩ :=
    cases_of_note hu (List.mem_append_left _ hd)
  · have hpos : 0 < size source := Nat.lt_of_le_of_lt (Nat.zero_le limit) hlimit
    exact ⟨IsSlice.isSpan (Text.isSlice_self source), hpos⟩
  · have hslice : IsSlice source (size before) (size before + size cs) cs :=
      ⟨before, after, hsource, rfl, rfl⟩
    exact hy.shows hslice d hd

end Region

theorem Piece.isSlice_inner {inner : List Char}
    (h : IsSlice source start stop (Piece.template inner).chars) :
    IsSlice source (start + 2) (start + 2 + size inner) inner ∧
      stop = start + 2 + size inner + 2 := by
  have hsplit : (Piece.template inner).chars = ['{', '{'] ++ (inner ++ ['}', '}']) := rfl
  rw [hsplit] at h
  exact ⟨h.right.left, h.right.right.start_add.symm⟩

theorem Tag.ofElement_selfClosing (start : Nat) (e : Element) :
    (ofElement start e).1.selfClosing = e.enclosed.isNone := by
  rw [ofElement]
  cases e.enclosed <;> rfl

namespace Checked

variable {r : Region}

theorem shape?_eq (h : r.PartOf source) :
    shape? source (.ofRegion r) = some (.ofPiece r.start r.piece, Segment.notes r) := by
  obtain ⟨start, piece, notes⟩ := r
  cases piece with
  | text | cut => rfl
  | template inner =>
    have hslice : IsSlice source start (start + size (Piece.template inner).chars)
        (Piece.template inner).chars := h
    simp only [shape?, Raw.ofRegion, RawKind.ofPiece, Span.ofText,
      slice?_of (Piece.isSlice_inner hslice).1, Option.bind_eq_bind, Option.bind_some]
    rfl
  | element e =>
    have hslice : IsSlice source start (start + size e.text) e.text := h
    obtain ⟨hread, hstands, -⟩ := parseElement_eq hslice
    have hname := slice?_of hstands.name
    simp only [Span.ofText] at hread
    simp only [shape?, Raw.ofRegion, RawKind.ofPiece, Region.span, Span.ofText, hread, hname,
      Option.bind_eq_bind, Option.bind_some, String.ofList_toList]
    rw [← Tag.ofElement_cls, ← Tag.ofElement_selfClosing]
    rfl

mutual

theorem build_eq (parents : Parents) (above : Option Nat) : ∀ t : Tree Region,
    (∀ r ∈ t.preorder, r.PartOf source) →
      build source parents above (t.map .ofRegion) =
        some ((Segment.build parents above t).1, t.preorder.flatMap Segment.notes,
          (Segment.build parents above t).2)
  | .node r ts, h => by
    obtain ⟨hr, hts⟩ := List.forall_mem_cons.mp h
    have hall := buildAll_eq (parents.push above) (some parents.size) ts hts
    have hcontent : slice? source (Raw.ofRegion r).start (Raw.ofRegion r).stop = some r.chars :=
      slice?_of hr
    rw [Tree.map, build]
    simp only [hcontent, shape?_eq hr, hall, Option.bind_eq_bind, Option.bind_some]
    rw [Segment.build, Tree.preorder, List.flatMap_cons]
    rfl

theorem buildAll_eq (parents : Parents) (above : Option Nat) : ∀ ts : List (Tree Region),
    (∀ r ∈ Tree.preorderAll ts, r.PartOf source) →
      buildAll source parents above (Tree.mapAll .ofRegion ts) =
        some ((Segment.buildAll parents above ts).1, (Tree.preorderAll ts).flatMap Segment.notes,
          (Segment.buildAll parents above ts).2)
  | [], _ => rfl
  | t :: ts, h => by
    obtain ⟨ht, hts⟩ := List.forall_mem_append.mp h
    have hall := buildAll_eq (Segment.build parents above t).2 above ts hts
    rw [Tree.mapAll, buildAll]
    simp only [build_eq parents above t ht, hall, Option.bind_eq_bind, Option.bind_some]
    rw [Segment.buildAll, Tree.preorderAll, List.flatMap_append]
    rfl

end

end Checked

theorem Segment.stands_ofRegion {r : Region} (h : r.PartOf source) (id : Nat) :
    (Segment.ofRegion id r).Stands source := by
  obtain ⟨start, piece, notes⟩ := r
  constructor
  case content =>
    change IsSlice source _ _ (String.ofList _).toList
    rw [String.toList_ofList]
    exact h
  case tag =>
    cases piece with
    | text | cut | template => rintro _ ⟨⟩
    | element e =>
      rintro _ ⟨⟩
      exact (Checked.parseElement_eq h).2.1
  case template =>
    cases piece with
    | text | cut | element => rintro _ ⟨⟩
    | template inner =>
      rintro _ ⟨⟩
      obtain ⟨hinner, hstop⟩ := Piece.isSlice_inner h
      have hspan : (ofRegion id ⟨start, .template inner, notes⟩).span =
          ⟨start, start + 2 + size inner + 2⟩ := congrArg (Span.mk start) hstop
      rw [hspan]
      exact ⟨Nat.le_add_left 2 _, inner, hinner, rfl⟩

theorem Segment.shows_of_note {r : Region} (h : r.PartOf source) :
    ∀ d ∈ Segment.notes r, d.Shows source := by
  obtain ⟨start, piece, notes⟩ := r
  cases piece with
  | text | cut | template => exact List.forall_mem_nil _
  | element e => exact (Checked.parseElement_eq h).2.2

namespace Document

/-- A parse makes no invalid access to its source, and it gives the document of the source. Every
span in this document lies in the source and cuts no character. -/
theorem stands_parse (p : Parser) (source : String) :
    Checked.parse p source = some (p.parse source) ∧ (p.parse source).Stands := by
  have hregions : ∀ r ∈ (outline p.vocabulary p.limits source.toList).preorder,
      r.PartOf source.toList := by
    intro r hr
    obtain ⟨u, hu, rfl⟩ := Tree.mem_preorder.mp hr
    exact Region.partOf_of_mem hu
  refine ⟨?_, ?_, ?_⟩
  · rw [Checked.parse, Checked.segmentDocument_eq]
    have hordered : (Segment.build #[] none
        (outline p.vocabulary p.limits source.toList)).2.Ordered := (p.parse source).ordered
    simp only [Checked.build_eq #[] none _ hregions, Option.bind_eq_bind, Option.bind_some,
      Checked.assert?_of hordered]
    rfl
  · intro s hs
    obtain ⟨t, ht, rfl⟩ := Tree.mem_preorder.mp hs
    obtain ⟨u, hu, k, rfl⟩ := exists_region_of_mem ht
    rw [Tree.label_number]
    exact Segment.stands_ofRegion (Region.partOf_of_mem hu) k
  · intro x hx
    obtain ⟨d, hd, rfl⟩ := List.mem_map.mp ((arranged_diagnostics p source).perm.mem_iff.mp hx)
    obtain ⟨u, hu, hd | hd⟩ := mem_discovered.mp (items_log_subset p source hd)
    · obtain ⟨hspan, hne⟩ := Region.shows_of_note hu hd
      exact ⟨hspan, hne⟩
    · obtain ⟨hspan, hne⟩ := Segment.shows_of_note (Region.partOf_of_mem hu) d hd
      exact ⟨hspan, hne⟩

end Document

end ProseMarkup
