import ProseMarkup.Parser
import ProseMarkup.Proofs.Ranges
import ProseMarkup.TagSet

namespace ProseMarkup

def Parser.sample : Parser :=
  ⟨TagSet.toVocabulary ⟨⟨["p"], by decide⟩, ⟨["m"], by decide⟩⟩, { maxDiagnostics := none }, none⟩

namespace Region

variable {v : Vocabulary} {limit depth start : Nat}

theorem Yields.exists_note_of_cut {cs rest : List Char} {t : Tree Region} {e : Element}
    (h : Yields v limit depth start cs t rest) (he : t.label.piece = .cut e) :
    ∃ d ∈ t.label.notes, d.kind = .nestingTooDeep ∧ d.span = t.label.span := by
  cases h with
  | prose | template => cases he
  | element =>
    unfold treeOf at he ⊢
    split at he
    · cases he
    · rename_i hd
      cases he
      rw [if_neg hd]
      exact ⟨_, List.mem_singleton_self _, rfl, rfl⟩

theorem exists_note_of_cut {limits : Limits} {source : List Char} {u : Tree Region} {e : Element}
    (hu : u ∈ (outline v limits source).subtrees) (he : u.label.piece = .cut e) :
    ∃ d ∈ u.label.notes, d.kind = .nestingTooDeep ∧ d.span = u.label.span := by
  obtain ⟨_, _, rfl, _⟩ | ⟨_, _, _, _, _, _, hy⟩ := cases_of_mem hu
  · cases he
  · exact hy.exists_note_of_cut he

end Region

namespace Document

variable {p : Parser} {source : String}

theorem diagnostics_parse (hn : p.limits.maxDiagnostics = none) :
    (p.parse source).diagnostics = arrange (p.parse source).root
      (discovered (outline p.vocabulary p.limits source.toList)) := by
  have hl := Diagnostic.Log.extend_unbounded (.empty none) rfl
    (discovered (outline p.vocabulary p.limits source.toList))
  simp only [Parser.parse, ofOutline, hn, hl]
  rfl

theorem mem_diagnostics (hn : p.limits.maxDiagnostics = none) {d : Diagnostic} :
    d ∈ (p.parse source).diagnostics ↔
      ∃ d' ∈ discovered (outline p.vocabulary p.limits source.toList),
        d'.attach (Segment.nodeAt (p.parse source).root d'.span.start).label.id = d := by
  rw [diagnostics_parse hn, arrange, List.mem_map]
  simp only [List.mem_mergeSort]

theorem exists_report_of_note (hn : p.limits.maxDiagnostics = none) {u : Tree Region}
    (hu : u ∈ (outline p.vocabulary p.limits source.toList).subtrees) {d : Diagnostic}
    (hd : d ∈ u.label.notes) :
    ∃ d' ∈ (p.parse source).diagnostics, d'.kind = d.kind ∧ d'.span = d.span := by
  refine ⟨_, (mem_diagnostics hn).mpr ⟨d, ?_, rfl⟩, rfl, rfl⟩
  refine List.mem_append_left _ (List.mem_flatMap.mpr ⟨u.label, ?_, hd⟩)
  exact Tree.mem_preorder.mpr ⟨u, hu, rfl⟩

theorem exists_report_of_cut (hn : p.limits.maxDiagnostics = none) {u : Tree Region}
    (hu : u ∈ (outline p.vocabulary p.limits source.toList).subtrees) {e : Element}
    (he : u.label.piece = .cut e) :
    ∃ d ∈ (p.parse source).diagnostics, d.kind = .nestingTooDeep ∧ d.span = u.label.span := by
  obtain ⟨d, hd, hk, hs⟩ := Region.exists_note_of_cut hu he
  obtain ⟨d', hd', hk', hs'⟩ := exists_report_of_note hn hu hd
  exact ⟨d', hd', hk'.trans hk, hs'.trans hs⟩

theorem piece_ne_cut (hn : p.limits.maxDiagnostics = none)
    (hd : ∀ d ∈ (p.parse source).diagnostics, d.kind ≠ .nestingTooDeep) {u : Tree Region}
    (hu : u ∈ (outline p.vocabulary p.limits source.toList).subtrees) (e : Element) :
    u.label.piece ≠ .cut e := by
  intro he
  obtain ⟨d, hmem, hk, _⟩ := exists_report_of_cut hn hu he
  exact hd d hmem hk

end Document

end ProseMarkup
