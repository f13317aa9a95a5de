import ProseMarkup.Proofs.Arrangement
import ProseMarkup.Proofs.LetterCase.Tags
import ProseMarkup.Proofs.Numbers

namespace ProseMarkup

namespace Tree

variable {α β : Type}

mutual

theorem deepest_map {p : α → Bool} {q : β → Bool} {f : α → β} (h : ∀ a, q (f a) = p a) :
    ∀ t : Tree α, (t.map f).deepest q = (t.deepest p).map f
  | node a ts => by
    rw [map, deepest, deepest, deepestIn?_mapAll h ts]
    cases deepestIn? p ts <;> rfl

theorem deepestIn?_mapAll {p : α → Bool} {q : β → Bool} {f : α → β} (h : ∀ a, q (f a) = p a) :
    ∀ ts : List (Tree α), deepestIn? q (mapAll f ts) = (deepestIn? p ts).map (Tree.map f)
  | [] => rfl
  | t :: ts => by
    rw [mapAll, deepestIn?, deepestIn?, label_map, h, deepest_map h t, deepestIn?_mapAll h ts]
    split
    · rfl
    · rfl

end

mutual

theorem parents_map (f : α → β) : ∀ (above : Option α) (t : Tree α),
    (t.map f).parents (above.map f) = (t.parents above).map (Option.map f)
  | above, node a ts => by
    rw [map, parents, parents, List.map_cons, ← parentsAll_mapAll f (some a) ts, Option.map_some]

theorem parentsAll_mapAll (f : α → β) : ∀ (above : Option α) (ts : List (Tree α)),
    parentsAll (above.map f) (mapAll f ts) = (parentsAll above ts).map (Option.map f)
  | _, [] => rfl
  | above, t :: ts => by
    rw [mapAll, parentsAll, parentsAll, parents_map f above t, parentsAll_mapAll f above ts,
      List.map_append]

end

end Tree

namespace Document

open Diagnostic (caseless)

theorem caseless_discovered_map (t : Tree Region) :
    caseless (discovered (t.map Region.fold)) = caseless (discovered t) := by
  have hnotes (r : Region) : caseless r.fold.notes = caseless r.notes :=
    Diagnostic.caseless_map_mute r.notes
  simp only [discovered, Tree.preorder_map, List.flatMap_map, Diagnostic.caseless_append,
    Diagnostic.caseless_flatMap, hnotes, Segment.caseless_notes_fold]

theorem root_map_fold (p : Parser) (source : String) : (p.parse source).root.map Segment.fold =
    ((outline p.vocabulary p.limits source.toList).map Region.fold).number Segment.ofRegion 0 := by
  rw [root_parse]
  exact (Tree.number_map (k := 0) Segment.ofRegion_fold 0 _).symm

theorem nodeAt_map_fold (t : Tree Segment) (n : Nat) :
    Segment.nodeAt (t.map Segment.fold) n = (Segment.nodeAt t n).map Segment.fold :=
  Tree.deepest_map (fun _ => rfl) t

/-- What a diagnostic is attached to can be read off the folded segments. -/
theorem attached_eq_of_fold {d d' : Document}
    (h : d.root.map Segment.fold = d'.root.map Segment.fold) : d.attached = d'.attached := by
  have hid (d : Document) (n : Nat) : (Segment.nodeAt d.root n).label.id =
      (Segment.nodeAt (d.root.map Segment.fold) n).label.id := by
    rw [nodeAt_map_fold, Tree.label_map]
    rfl
  funext x
  rw [attached, attached, hid d, hid d', h]

theorem parents_eq_of_fold {p : Parser} {source source' : String}
    (h : (p.parse source).root.map Segment.fold = (p.parse source').root.map Segment.fold) :
    (p.parse source).parents = (p.parse source').parents := by
  have hparents (source : String) : (p.parse source).parents =
      .ofTree ((p.parse source).root.map Segment.fold) := by
    have hid : Option.map Segment.id ∘ Option.map Segment.fold = Option.map Segment.id := by
      rw [Option.map_comp_map]
      rfl
    have hmap := Tree.parents_map Segment.fold none (p.parse source).root
    rw [Option.map_none] at hmap
    rw [parents_parse, Parents.ofTree, Parents.ofTree, hmap, List.map_map, hid]
  rw [hparents source, hparents source', h]

theorem arranged_caseless (p : Parser) (source : String) :
    Arranged (·.span.start) ((caseless (p.log source).items).map (p.parse source).attached)
      (caseless (p.parse source).diagnostics) := by
  have hkept := (arranged_diagnostics p source).filter (·.kind ≠ .closingTagMismatch)
  have hcomm : (p.parse source).attached ∘ Diagnostic.mute =
      Diagnostic.mute ∘ (p.parse source).attached := rfl
  rw [List.filter_map] at hkept
  rw [caseless, List.map_map, hcomm, ← List.map_map]
  exact hkept.map fun _ => rfl

/-- Sources that differ only in the case of ASCII letters have the same segments up to the case of
their texts, and the same diagnostics, apart from those on the spelling of closing tags. -/
theorem parse_of_fold_eq (s : TagSet) (limits : Limits) (path : Option String)
    (hn : limits.maxDiagnostics = none) {source source' : String}
    (h : Text.fold source.toList = Text.fold source'.toList) :
    let d := (Parser.mk s.toVocabulary limits path).parse source
    let d' := (Parser.mk s.toVocabulary limits path).parse source'
    d.root.map Segment.fold = d'.root.map Segment.fold ∧
      (∀ id, d.parentId? id = d'.parentId? id) ∧
      caseless d.diagnostics = caseless d'.diagnostics := by
  intro d d'
  have houtline : (outline s.toVocabulary limits source.toList).map Region.fold =
      (outline s.toVocabulary limits source'.toList).map Region.fold := by
    rw [← Region.outline_fold s.caseBlind limits source.toList, h,
      Region.outline_fold s.caseBlind limits source'.toList]
  have hroot : d.root.map Segment.fold = d'.root.map Segment.fold := by
    rw [root_map_fold, root_map_fold, houtline]
  have hparents : d.parents = d'.parents := parents_eq_of_fold hroot
  refine ⟨hroot, fun id => by rw [parentId?, hparents, parentId?], ?_⟩
  have hitems (source : String) :
      caseless ((Parser.mk s.toVocabulary limits path).log source).items =
        caseless (discovered ((outline s.toVocabulary limits source.toList).map Region.fold)) := by
    rw [Parser.log_eq_extend, hn, Diagnostic.Log.extend_unbounded _ rfl, caseless_discovered_map]
    rfl
  have harranged := arranged_caseless (Parser.mk s.toVocabulary limits path) source
  have harranged' := arranged_caseless (Parser.mk s.toVocabulary limits path) source'
  rw [hitems, houtline, ← hitems source', attached_eq_of_fold hroot] at harranged
  exact harranged.unique harranged'

theorem parse_of_fold_eq_mixed_case :
    let s : TagSet := ⟨⟨["p"], by decide⟩, ⟨["m"], by decide⟩⟩
    let limits : Limits := { maxDiagnostics := none }
    let d := (Parser.mk s.toVocabulary limits none).parse "<p a='X'>b<M></M></p></P>"
    let d' := (Parser.mk s.toVocabulary limits none).parse "<p A='x'>B<m></M></P></p>"
    limits.maxDiagnostics = none ∧
      Text.fold "<p a='X'>b<M></M></p></P>".toList = Text.fold "<p A='x'>B<m></M></P></p>".toList ∧
      d.root.map Segment.fold = d'.root.map Segment.fold ∧
      (∀ id, d.parentId? id = d'.parentId? id) ∧
      caseless d.diagnostics = caseless d'.diagnostics := by
  intro s limits d d'
  have hfold : Text.fold "<p a='X'>b<M></M></p></P>".toList =
      Text.fold "<p A='x'>B<m></M></P></p>".toList := by decide +kernel
  exact ⟨rfl, hfold, parse_of_fold_eq s limits none rfl hfold⟩

end Document

end ProseMarkup
