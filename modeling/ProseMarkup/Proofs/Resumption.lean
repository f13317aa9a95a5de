import ProseMarkup.Proofs.Checked.Outline
import ProseMarkup.Proofs.Extents
import ProseMarkup.Proofs.Reports
import ProseMarkup.Proofs.Shift

namespace ProseMarkup

namespace Region

variable {v : Vocabulary} {limit depth start : Nat}

theorem Yields.contains_of_note {cs rest : List Char} {t : Tree Region}
    (h : Yields v limit depth start cs t rest) {d : Diagnostic}
    (hd : d ∈ t.preorder.flatMap notes) : t.label.span.contains d.span.start = true := by
  obtain ⟨r, hr, hd⟩ := List.mem_flatMap.mp hd
  obtain ⟨u, hu, rfl⟩ := Tree.mem_preorder.mp hr
  obtain ⟨_, _, _, _, hy⟩ := Yields.of_mem_subtrees hu h
  exact h.nested.contains_of_mem hu (hy.place_of_note (List.mem_append_left _ hd)).1

theorem Yields.isProse_of_note {cs rest : List Char} {t : Tree Region}
    (h : Yields v limit depth start cs t rest) {d : Diagnostic}
    (hd : d ∈ t.preorder.flatMap notes) (hk : d.kind = .nestingTooDeep) :
    t.label.isProse = false := by
  cases h with
  | @prose chars rest notes hc run =>
    obtain ⟨_, -, hnotes⟩ := run.within_of_note
    have hd : d ∈ notes ++ [] := hd
    rw [List.append_nil] at hd
    have hprose := (hnotes d hd).1
    rw [hk] at hprose
    cases hprose
  | template => rfl
  | element => exact treeOf_isProse _

theorem isProse_of_tooDeep {cs : List Char} {t : Tree Region}
    (ht : t ∈ regions v limit depth start cs) {d : Diagnostic}
    (hd : d ∈ (Tree.preorderAll (regions v limit depth start cs)).flatMap notes)
    (hk : d.kind = .nestingTooDeep) (hstart : d.span.start = t.label.span.start) :
    t.label.isProse = false := by
  rw [Tree.preorderAll_eq_flatMap, List.flatMap_assoc] at hd
  obtain ⟨u, hu, hd⟩ := List.mem_flatMap.mp hd
  obtain ⟨_, _, _, -, hy⟩ := yields_of_mem hu
  have htile := (splits_regions v limit depth start cs).tile
  have htn : t.label.span.contains d.span.start = true := by
    obtain ⟨-, hlt, -⟩ := htile.bounds (List.mem_map_of_mem ht)
    rw [Span.contains_iff, hstart]
    exact ⟨Nat.le_refl _, hlt⟩
  obtain rfl := Tree.eq_of_contains htile ht hu htn (hy.contains_of_note hd)
  exact hy.isProse_of_note hd hk

theorem exists_of_prose_eq_append {start : Nat} {chars : List Char} {notes : List Diagnostic}
    {ts us ws : List (Tree Region)} {t : Tree Region} (ht : t.label.isProse = false)
    (h : prose start chars notes ts = us ++ t :: ws) : ∃ us', ts = us' ++ t :: ws := by
  unfold prose at h
  split at h
  · cases us with
    | nil =>
      obtain ⟨rfl, -⟩ := List.cons.inj h
      cases ht
    | cons u us =>
      obtain ⟨-, rfl⟩ := List.cons.inj h
      exact ⟨_ :: us, rfl⟩
  · cases us with
    | nil =>
      obtain ⟨rfl, -⟩ := List.cons.inj h
      cases ht
    | cons u us => exact ⟨us, (List.cons.inj h).2⟩

/-- Holds of a region, and of those behind it, when a scan of a text starts afresh between them. -/
def Resumes (v : Vocabulary) (limit depth start : Nat) (cs : List Char) (t : Tree Region)
    (ts : List (Tree Region)) : Prop :=
  ∃ passed rest, cs = passed ++ rest ∧ t.label.span.stop = start + Text.size passed ∧
    ts = regions v limit depth (start + Text.size passed) rest

theorem Resumes.later {start : Nat} {passed rest : List Char} {t : Tree Region}
    {ts : List (Tree Region)}
    (h : Resumes v limit depth (start + Text.size passed) rest t ts) :
    Resumes v limit depth start (passed ++ rest) t ts := by
  obtain ⟨passed', rest', rfl, hstop, hts⟩ := h
  rw [Nat.add_assoc, ← Text.size_append] at hstop hts
  exact ⟨passed ++ passed', rest', (List.append_assoc ..).symm, hstop, hts⟩

/-- The regions behind one that is not prose are those of the text behind it. -/
theorem resumes_of_regions {start : Nat} {cs : List Char} {us ts : List (Tree Region)}
    {t : Tree Region} (ht : t.label.isProse = false)
    (h : regions v limit depth start cs = us ++ t :: ts) :
    Resumes v limit depth start cs t ts := by
  fun_induction regions v limit depth start cs generalizing us with
  | case1 => cases us <;> cases h
  | case2 depth start cs _ passed fault rest hread _ ih =>
    obtain ⟨us', h⟩ := exists_of_prose_eq_append ht h
    exact Head.append_of_read hread ▸ (ih h).later
  | case3 depth start cs _ inner rest hread =>
    rename_i ih
    rw [← Head.append_of_read hread]
    cases us with
    | nil =>
      obtain ⟨rfl, rfl⟩ := List.cons.inj h
      exact ⟨_, rest, rfl, rfl, rfl⟩
    | cons u us => exact (ih (List.cons.inj h).2).later
  | case4 depth start cs _ e rest hread =>
    rename_i ih
    rw [← Head.append_of_read hread]
    cases us with
    | nil =>
      obtain ⟨hu, rfl⟩ := List.cons.inj h
      have hu : treeOf v limit depth start e = t := hu
      refine ⟨e.text, rest, rfl, ?_, rfl⟩
      rw [← hu, span, treeOf_chars, treeOf_start]
      rfl
    | cons u us => exact (ih (List.cons.inj h).2).later

end Region

namespace Checked

open Region (regions)
open Text (IsSlice size)

def RawKind.shift (d : Nat) : RawKind → RawKind
  | .text => .text
  | .template inner => .template (inner.shift d)
  | .element cls name openEnd closing selfClosing =>
    .element cls (name.shift d) (openEnd + d) (closing.map (·.shift d)) selfClosing

def Raw.shift (d : Nat) (r : Raw) : Raw :=
  ⟨r.kind.shift d, r.start + d, r.stop + d⟩

theorem closingOf_shift (start d : Nat) (e : Element) :
    closingOf (start + d) e = (closingOf start e).map (·.shift d) := by
  rw [closingOf, closingOf]
  cases e.enclosed with
  | none => rfl
  | some x =>
    simp only [Option.map_some, Span.shift, Nat.add_right_comm start d,
      Nat.add_right_comm (start + _) d]

theorem RawKind.ofPiece_shift (start d : Nat) (p : Piece) :
    ofPiece (start + d) p = (ofPiece start p).shift d := by
  cases p with
  | text | cut => rfl
  | template inner =>
    rw [ofPiece, Nat.add_right_comm, Span.ofText_shift]
    rfl
  | element e =>
    rw [ofPiece, Nat.add_right_comm, Span.ofText_shift, Nat.add_right_comm start d, closingOf_shift]
    rfl

theorem Raw.ofRegion_shift (d : Nat) (r : Region) :
    ofRegion (r.shift d) = (ofRegion r).shift d := by
  have hkind : RawKind.ofPiece (r.shift d).start (r.shift d).piece =
      (RawKind.ofPiece r.start r.piece).shift d := RawKind.ofPiece_shift r.start d r.piece
  rw [ofRegion, hkind, Region.span_shift]
  rfl

theorem notesOf_shift (d : Nat) (ts : List (Tree Region)) :
    notesOf (Tree.mapAll (Region.shift d) ts) = (notesOf ts).map (·.shift d) := by
  rw [notesOf, Tree.preorderAll_mapAll, List.flatMap_map, notesOf, List.map_flatMap]
  rfl

/-- Holds of an element, also of one that is kept as text for its depth, and of a template. -/
def Raw.IsMarkup (notes : List Diagnostic) (r : Raw) : Prop :=
  r.kind ≠ .text ∨ ∃ x ∈ notes, x.kind = .nestingTooDeep ∧ x.span = ⟨r.start, r.stop⟩

/-- What a scan of the part of a source between two offsets owes to this part alone. -/
structure RangeLocal (v : Vocabulary) (limit depth : Nat) (source : List Char) (start stop : Nat)
    (part : List Char) : Prop where
  moved : ∃ ts notes, segmentRange v limit part depth (size part) 0 0 = some (ts, notes) ∧
    segmentRange v limit source depth stop start start =
      some (Tree.mapAll (Raw.shift start) ts, notes.map (·.shift start))
  /-- Behind an element or a template the scan starts afresh. -/
  resumed : ∀ ts t us notes,
    segmentRange v limit source depth stop start start = some (ts ++ t :: us, notes) →
      t.label.IsMarkup notes → ∃ notes', notes' <:+ notes ∧
        segmentRange v limit source depth stop t.label.stop t.label.stop = some (us, notes')

variable {v : Vocabulary} {limit depth start stop : Nat} {source part : List Char}

theorem Raw.IsMarkup.isProse {t : Tree Region} (ht : t ∈ regions v limit depth start part)
    (h : (ofRegion t.label).IsMarkup (notesOf (regions v limit depth start part))) :
    t.label.isProse = false := by
  obtain hkind | ⟨x, hx, hk, hspan⟩ := h
  · unfold Region.isProse
    split
    · rename_i hpiece
      rw [ofRegion, hpiece] at hkind
      exact absurd rfl hkind
    · rfl
  · exact Region.isProse_of_tooDeep ht hx hk (congrArg Span.start hspan)

/-- A scan of a range depends on nothing outside of it. -/
theorem rangeLocal_of_isSlice (v : Vocabulary) (limit depth : Nat)
    (h : IsSlice source start stop part) : RangeLocal v limit depth source start stop part := by
  have hscan : segmentRange v limit source depth stop start start =
      some (Tree.mapAll Raw.ofRegion (regions v limit depth start part),
        notesOf (regions v limit depth start part)) := segmentRange_fresh h
  constructor
  case moved =>
    have hmoved := Region.regions_shift v limit depth 0 start part
    rw [Nat.zero_add] at hmoved
    have hraw : Raw.ofRegion ∘ Region.shift start = Raw.shift start ∘ Raw.ofRegion :=
      funext (Raw.ofRegion_shift start)
    refine ⟨_, _, segmentRange_fresh (Text.isSlice_self part), ?_⟩
    rw [hscan, hmoved, notesOf_shift, Tree.mapAll_mapAll, hraw, ← Tree.mapAll_mapAll]
  case resumed =>
    intro ts t us notes hresult hmarkup
    obtain ⟨hts, rfl⟩ := Prod.mk.inj (Option.some.inj (hscan.symm.trans hresult))
    rw [Tree.mapAll_eq_map] at hts
    obtain ⟨ts', rest, hregions, -, hrest⟩ := List.map_eq_append_iff.mp hts
    obtain ⟨t', us', rfl, rfl, rfl⟩ := List.map_eq_cons_iff.mp hrest
    have hmem : t' ∈ regions v limit depth start part := by
      rw [hregions]
      exact List.mem_append_right _ List.mem_cons_self
    rw [Tree.label_map] at hmarkup ⊢
    obtain ⟨passed, rest, rfl, hstop, rfl⟩ :=
      Region.resumes_of_regions (hmarkup.isProse hmem) hregions
    have hstop : (Raw.ofRegion t'.label).stop = start + size passed := hstop
    rw [hstop, segmentRange_fresh h.right, ← Tree.mapAll_eq_map, hregions]
    refine ⟨_, ?_, rfl⟩
    rw [notesOf, notesOf, Tree.preorderAll_append, Tree.preorderAll, List.flatMap_append,
      List.flatMap_append]
    exact (List.suffix_append _ _).trans (List.suffix_append _ _)

/-- The closing tag behind the range is not read, and an element too deep is kept as text. -/
theorem rangeLocal_of_body : let source := "<p>a<p>b</p>c</p>".toList
    IsSlice source 3 13 "a<p>b</p>c".toList ∧
      RangeLocal Parser.sample.vocabulary 1 1 source 3 13 "a<p>b</p>c".toList := by
  intro source
  have h : IsSlice source 3 13 "a<p>b</p>c".toList :=
    ⟨"<p>".toList, "</p>".toList, by decide, by decide, by decide⟩
  exact ⟨h, rangeLocal_of_isSlice Parser.sample.vocabulary 1 1 h⟩

end Checked

end ProseMarkup
