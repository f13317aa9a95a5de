import ProseMarkup.Proofs.Checked.Document

namespace ProseMarkup

open Checked (notesOf notesOf_prose notesOf_cons)

open Text (size)

theorem Element.size_markup_le (v : Vocabulary) (e : Element) :
    size e.opening.text + size (e.markup v) ≤ size e.text := by
  by_cases hm : e.markup v = []
  · rw [hm, text, Text.size_append]
    exact Nat.add_le_add_left (Nat.zero_le _) _
  · obtain ⟨tail, htext⟩ := Region.text_eq_of_markup hm
    rw [htext, Text.size_append, Text.size_append]
    omega

namespace Region

variable {v : Vocabulary}

theorem row_prose {cs passed rest : List Char} {fault : Option ProseFault} (hcs : cs ≠ [])
    (h : Head.read v cs = .prose passed fault rest) (start : Nat) :
    Span.Row start (start + size passed)
      ((fault.toList.map (·.diagnostic start)).map Diagnostic.span) := by
  cases fault with
  | none => exact Nat.le_add_right _ _
  | some f =>
    have hwithin := Head.within_of_read hcs h start
    refine ⟨hwithin.1, ?_, hwithin.2⟩
    cases f <;> exact Nat.le_add_right _ _

theorem row_ofElement (v : Vocabulary) (start : Nat) (e : Element) :
    Span.Row start (start + size e.opening.text)
      ((ofElement v start e).notes.map Diagnostic.span) := by
  rw [ofElement]
  split
  · exact ⟨Nat.le_refl _, Nat.le_add_right _ _, Nat.le_refl _⟩
  · exact Nat.le_add_right _ _

/-- The reports on an element stand one behind the other in it. The body is scanned behind the
opening tag, and only where no report covers the whole element. -/
theorem row_treeOf {limit depth start : Nat} {e : Element}
    (hmarkup : Span.Row (start + size e.opening.text)
      (start + size e.opening.text + size (e.markup v))
      ((notesOf (regions v limit (depth + 1) (start + size e.opening.text) (e.markup v))).map
        Diagnostic.span)) :
    Span.Row start (start + size e.text)
      (((treeOf v limit depth start e).preorder.flatMap notes).map Diagnostic.span) := by
  have hsize := e.size_markup_le v
  rw [treeOf]
  split
  · rw [Tree.preorder, List.flatMap_cons, List.map_append]
    refine (row_ofElement v start e).append (hmarkup.mono (Nat.le_refl _) ?_)
    omega
  · exact ⟨Nat.le_refl _, Nat.le_add_right _ _, Nat.le_refl _⟩

theorem row_regions (v : Vocabulary) (limit depth start : Nat) (cs : List Char) :
    Span.Row start (start + size cs)
      ((notesOf (regions v limit depth start cs)).map Diagnostic.span) := by
  fun_induction regions v limit depth start cs with
  | case1 => exact Nat.le_refl _
  | case2 depth start cs hcs passed fault rest h _ ih =>
    have happend : passed ++ rest = cs := Head.append_of_read h
    rw [notesOf_prose, List.map_append, ← happend, Text.size_append, ← Nat.add_assoc]
    exact (row_prose hcs h start).append ih
  | case3 depth start cs hcs inner rest h _ r ih =>
    have happend : r.chars ++ rest = cs := Head.append_of_read h
    rw [notesOf_cons, ← happend, Text.size_append, ← Nat.add_assoc]
    exact ih.mono (Nat.le_add_right _ _) (Nat.le_refl _)
  | case4 depth start cs hcs e rest h _ _ t ihm ih =>
    have happend : e.text ++ rest = cs := Head.append_of_read h
    rw [notesOf, Tree.preorderAll, List.flatMap_append, List.map_append, ← happend,
      Text.size_append, ← Nat.add_assoc]
    exact (row_treeOf ihm).append ih

theorem row_outline (v : Vocabulary) (limits : Limits) (source : List Char) :
    Span.Row 0 (size source)
      (((outline v limits source).preorder.flatMap notes).map Diagnostic.span) := by
  have hrow := row_regions v limits.maxDepth 0 0 source
  rw [Nat.zero_add] at hrow
  rw [outline]
  split
  · exact ⟨Nat.le_refl _, Nat.zero_le _, Nat.le_refl _⟩
  · split
    · rename_i h
      rw [h, notesOf, Tree.preorderAll, Tree.preorderAll, List.append_nil] at hrow
      exact hrow
    · exact hrow

end Region

structure Diagnostic.InOrder (ds : List Diagnostic) : Prop where
  nonempty : ∀ d ∈ ds, d.span.start < d.span.stop
  disjoint : ds.Pairwise fun d e => d.span.stop ≤ e.span.start
  ascending : ds.Pairwise fun d e => d.span.start < e.span.start

theorem Diagnostic.InOrder.of_row {lo hi : Nat} {ds : List Diagnostic}
    (hrow : Span.Row lo hi (ds.map span)) (hne : ∀ d ∈ ds, d.span.start < d.span.stop) :
    InOrder ds := by
  have hdisjoint : ds.Pairwise fun d e => d.span.stop ≤ e.span.start :=
    List.pairwise_map.mp hrow.pairwise
  refine ⟨hne, hdisjoint, hdisjoint.imp_of_mem ?_⟩
  intro d e hd _ hle
  exact Nat.lt_of_lt_of_le (hne d hd) hle

/-- A scan by offsets makes its reports in the order of the source, each on some bytes and behind
the one before it. A log without a bound keeps these reports in the same order. -/
theorem Checked.inOrder_segmentDocument (v : Vocabulary) (limits : Limits) (source : List Char) :
    ∃ raw ds, segmentDocument v limits source = some (raw, ds) ∧
      ((outline v limits source).record Region.notes (.empty none)).items = ds ∧
      Diagnostic.InOrder ds := by
  refine ⟨_, _, segmentDocument_eq v limits source, ?_, ?_⟩
  · rw [Tree.record_eq_extend, Diagnostic.Log.extend_unbounded _ rfl]
    rfl
  · refine .of_row (Region.row_outline v limits source) ?_
    intro d hd
    obtain ⟨r, hr, hd⟩ := List.mem_flatMap.mp hd
    obtain ⟨u, hu, rfl⟩ := Tree.mem_preorder.mp hr
    exact (Region.shows_of_note hu hd).nonempty

end ProseMarkup
