import ProseMarkup.Proofs.Ranges

namespace ProseMarkup

namespace Span

def shift (d : Nat) (s : Span) : Span :=
  ⟨s.start + d, s.stop + d⟩

theorem ofText_shift (start d : Nat) (cs : List Char) :
    ofText (start + d) cs = (ofText start cs).shift d := by
  rw [ofText, ofText, shift, Nat.add_right_comm]

end Span

def Diagnostic.shift (d : Nat) (x : Diagnostic) : Diagnostic :=
  { x with span := x.span.shift d }

theorem ProseFault.diagnostic_shift (start d : Nat) (f : ProseFault) :
    f.diagnostic (start + d) = (f.diagnostic start).shift d := by
  cases f <;> simp only [diagnostic, Span.ofText_shift] <;> rfl

namespace Region

def shift (d : Nat) (r : Region) : Region :=
  ⟨r.start + d, r.piece, r.notes.map (·.shift d)⟩

theorem span_shift (d : Nat) (r : Region) : (r.shift d).span = r.span.shift d :=
  Span.ofText_shift ..

theorem ofElement_shift (v : Vocabulary) (start d : Nat) (e : Element) :
    ofElement v (start + d) e = (ofElement v start e).shift d := by
  rw [ofElement, ofElement, shift, Span.ofText_shift]
  split <;> rfl

theorem ofCut_shift (limit start d : Nat) (e : Element) :
    ofCut limit (start + d) e = (ofCut limit start e).shift d := by
  rw [ofCut, ofCut, shift, Span.ofText_shift]
  rfl

theorem prose_shift (start d : Nat) (chars : List Char) (notes : List Diagnostic)
    (ts : List (Tree Region)) :
    prose (start + d) chars (notes.map (·.shift d)) (Tree.mapAll (shift d) ts) =
      Tree.mapAll (shift d) (prose start chars notes ts) := by
  obtain _ | ⟨⟨⟨_, piece, notes'⟩, _ | ⟨u, us⟩⟩, ts⟩ := ts
  · rfl
  · cases piece with
    | text => simp only [prose, Tree.map, Tree.mapAll, shift, List.map_append]
    | cut | template | element => rfl
  · cases piece <;> rfl

variable {v : Vocabulary} {limit : Nat}

/-- The regions of a text that starts later are the same regions, moved. -/
theorem regions_shift (v : Vocabulary) (limit depth start d : Nat) (cs : List Char) :
    regions v limit depth (start + d) cs =
      Tree.mapAll (shift d) (regions v limit depth start cs) := by
  fun_induction regions v limit depth start cs with
  | case1 => exact regions_nil
  | case2 depth start cs hcs passed fault rest h _ ih =>
    rw [regions_of_prose hcs h, Nat.add_right_comm, ih, ← prose_shift, List.map_map]
    congr 1
    exact List.map_congr_left fun f _ => f.diagnostic_shift start d
  | case3 depth start cs hcs inner rest h _ r ih =>
    rw [regions_of_template h, Nat.add_right_comm, Tree.mapAll]
    exact congrArg₂ _ rfl ih
  | case4 depth start cs hcs e rest h _ _ t ihm ih =>
    rw [regions_of_element h, Nat.add_right_comm, ih, Tree.mapAll, treeOf, Nat.add_right_comm,
      ofElement_shift, ofCut_shift]
    congr 1
    by_cases hd : depth < limit
    · simp only [t, hd, dif_pos, if_pos, Tree.map, ihm]
    · simp only [t, hd, dif_neg, if_neg, not_false_eq_true, Tree.map, Tree.mapAll]

theorem mem_prose_of_cut {start : Nat} {chars : List Char} {notes : List Diagnostic}
    {ts : List (Tree Region)} {r : Region} {e : Element} (hr : r ∈ Tree.preorderAll ts)
    (he : r.piece = .cut e) : r ∈ Tree.preorderAll (prose start chars notes ts) := by
  obtain _ | ⟨⟨⟨_, piece, notes'⟩, us⟩, ts⟩ := ts
  · cases hr
  · unfold prose
    split
    · rename_i heq
      cases heq
      obtain rfl | hr := List.mem_cons.mp hr
      · cases he
      · exact List.mem_cons_of_mem _ hr
    · exact List.mem_cons_of_mem _ hr

/-- Where no element is kept as text for its depth, fewer elements around a text change nothing. -/
theorem regions_of_depth_le {depth depth' start : Nat} {cs : List Char} (hle : depth' ≤ depth)
    (hcut : ∀ r ∈ Tree.preorderAll (regions v limit depth start cs), ∀ e, r.piece ≠ .cut e) :
    regions v limit depth' start cs = regions v limit depth start cs := by
  revert hcut
  fun_induction regions v limit depth start cs generalizing depth' with
  | case1 => exact fun _ => regions_nil
  | case2 depth start cs hcs passed fault rest h _ ih =>
    intro hcut
    rw [regions_of_prose hcs h, ih hle fun r hr e he => hcut r (mem_prose_of_cut hr he) e he]
  | case3 depth start cs hcs inner rest h =>
    rename_i ih
    intro hcut
    rw [regions_of_template h]
    exact congrArg₂ _ rfl (ih hle fun r hr => hcut r (List.mem_cons_of_mem _ hr))
  | case4 depth start cs hcs e rest h =>
    rename_i t ihm ih
    intro hcut
    rw [regions_of_element h, ih hle fun r hr => hcut r (List.mem_append_right _ hr)]
    congr 1
    by_cases hd : depth < limit
    · simp only [t, hd, dif_pos] at hcut ⊢
      rw [treeOf, if_pos (Nat.lt_of_le_of_lt hle hd), ihm (Nat.succ_le_succ hle)]
      exact fun r hr => hcut r (List.mem_cons_of_mem _ (List.mem_append_left _ hr))
    · simp only [t, hd, dif_neg, not_false_eq_true] at hcut
      exact absurd rfl (hcut (ofCut limit start e) List.mem_cons_self e)

end Region

end ProseMarkup
