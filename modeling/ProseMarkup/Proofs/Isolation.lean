import ProseMarkup.Proofs.Locality
import ProseMarkup.Proofs.Prose
import ProseMarkup.Proofs.Shift.Tags
import ProseMarkup.Proofs.Tiling
import ProseMarkup.Proofs.Reports

namespace ProseMarkup

namespace ClosingTag

def Proper (t : ClosingTag) : Prop :=
  ∃ cs rest, Mark.read cs = .closing t rest

theorem Proper.read? {t : ClosingTag} (h : t.Proper) :
    read? (t.name ++ (t.gap ++ ['>'])) = some (t, []) := by
  obtain ⟨cs, rest, h⟩ := h
  obtain ⟨after, rfl, hr⟩ := Mark.read_eq_closing h
  have ha := Mark.text_append_of_closing h
  have hcs : after = (t.name ++ (t.gap ++ ['>'])) ++ rest := by
    simpa [text] using ha.symm
  have hgt : '>' ∈ t.name ++ (t.gap ++ ['>']) := by simp
  rw [hcs, read?_append hgt] at hr
  obtain ⟨⟨t', rest'⟩, hp, he⟩ := Option.map_eq_some_iff.mp hr
  obtain ⟨rfl, hrest⟩ := Prod.mk.inj he
  rw [hp, List.append_left_eq_self.mp hrest]

theorem Proper.not_mem {t : ClosingTag} (h : t.Proper) : '<' ∉ t.text.tail := by
  obtain ⟨cs, rest, h⟩ := h
  exact fun hc => (mem_text h hc).1 rfl

theorem Proper.eq_of_text {t t' : ClosingTag} (ht : t.Proper) (ht' : t'.Proper)
    (h : t.text = t'.text) : t = t' := by
  have hdrop (t : ClosingTag) : t.text.drop 2 = t.name ++ (t.gap ++ ['>']) := by simp [text]
  have hr := ht.read?
  rw [← hdrop, h, hdrop, ht'.read?] at hr
  exact (Prod.mk.inj (Option.some.inj hr)).1.symm

theorem eq_of_append_text {as bs : List Char} {t t' : ClosingTag} (ht : t.Proper) (ht' : t'.Proper)
    (h : as ++ t.text = bs ++ t'.text) : as = bs ∧ t = t' := by
  have cut {t t' : ClosingTag} (ht' : t'.Proper) {x : List Char} (hx : t'.text = x ++ t.text) :
      x = [] := by
    cases x with
    | nil => rfl
    | cons c x =>
      have hmem : '<' ∈ t'.text.tail := by
        rw [hx]
        exact List.mem_append_right x List.mem_cons_self
      exact absurd hmem ht'.not_mem
  obtain ⟨x, rfl, hx⟩ | ⟨x, rfl, hx⟩ := List.append_eq_append_iff.mp h
  · obtain rfl := cut ht hx
    exact ⟨(List.append_nil as).symm, ht.eq_of_text ht' hx⟩
  · obtain rfl := cut ht' hx
    exact ⟨List.append_nil bs, (ht'.eq_of_text ht hx).symm⟩

end ClosingTag

namespace Enclosure

/-- The closing tag of an enclosure is one that the search met. -/
theorem exists_meet_of_search {step : List Char → Step}
    {takes : ∀ cs, (step cs).Takes ('<' :: cs)} {inner : Nat} {cs : List Char} {e : Enclosure}
    (h : search step takes inner cs = some e) : ∃ ds rest, step ds = .meet e.closing rest := by
  have pass {past : List Char} {o : Option Enclosure}
      (ho : ∀ f, o = some f → ∃ ds rest, step ds = .meet f.closing rest) {e : Enclosure}
      (h : o.map (push past) = some e) : ∃ ds rest, step ds = .meet e.closing rest := by
    obtain ⟨f, hf, rfl⟩ := Option.map_eq_some_iff.mp h
    exact ho f hf
  fun_induction search step takes inner cs generalizing e with
  | case1 => cases h
  | case2 _ _ _ _ _ _ ih | case3 _ _ _ _ _ _ ih => exact pass (fun f => ih) h
  | case4 cs _ tag rest hs =>
    cases h
    exact ⟨cs, rest, hs⟩
  | case5 _ _ _ _ _ _ ih => exact pass (fun f => ih) h
  | case6 _ _ _ _ ih => exact pass (fun f => ih) h

theorem read_of_metadataStep {name cs rest : List Char} {tag : ClosingTag}
    (h : metadataStep name cs = .meet tag rest) :
    Mark.read cs = .closing tag rest ∧ Text.sameName tag.name name := by
  rw [metadataStep] at h
  split at h
  · cases h
  · rename_i hm
    split at h
    · rename_i hname
      cases h
      exact ⟨hm, hname⟩
    · cases h
  · split at h
    · cases h
    · split at h <;> cases h
  · cases h
  · cases h

theorem read_of_structuralStep {v : Vocabulary} {name cs rest : List Char} {tag : ClosingTag}
    (h : structuralStep v name cs = .meet tag rest) :
    Mark.read cs = .closing tag rest ∧ Text.sameName tag.name name := by
  rw [structuralStep] at h
  split at h
  · cases h
  · rename_i hm
    split at h
    · rename_i hname
      cases h
      exact ⟨hm, hname⟩
    · cases h
  · split at h
    · cases h
    · split at h
      · cases h
      · split at h
        · split at h <;> cases h
        · cases h
  · cases h
  · cases h

theorem closing_of_find? {v : Vocabulary} {name cs : List Char} {e : Enclosure}
    (h : find? v name cs = some e) : e.closing.Proper ∧ Text.sameName e.closing.name name := by
  rw [find?] at h
  split at h
  · obtain ⟨ds, rest, hs⟩ := exists_meet_of_search h
    obtain ⟨hm, hname⟩ := read_of_metadataStep hs
    exact ⟨⟨ds, rest, hm⟩, hname⟩
  · obtain ⟨ds, rest, hs⟩ := exists_meet_of_search h
    obtain ⟨hm, hname⟩ := read_of_structuralStep hs
    exact ⟨⟨ds, rest, hm⟩, hname⟩

theorem proper_of_find? {v : Vocabulary} {name cs : List Char} {e : Enclosure}
    (h : find? v name cs = some e) : e.closing.Proper :=
  (closing_of_find? h).1

end Enclosure

namespace Element

variable {v : Vocabulary}

theorem read?_of_selfClosing {cls : TagClass} {tag : OpeningTag} {cs : List Char}
    (ht : tag.selfClosing) : read? v cls tag cs = some (⟨cls, tag, none⟩, cs) := by
  rw [read?, if_pos ht]

theorem read?_eq_some_iff {cls : TagClass} {tag : OpeningTag} {cs rest : List Char} {e : Element}
    (ht : ¬tag.selfClosing) : read? v cls tag cs = some (e, rest) ↔
      ∃ f, Enclosure.find? v tag.name cs = some f ∧ e = ⟨cls, tag, some (f.body, f.closing)⟩ ∧
        rest = f.rest := by
  rw [read?, if_neg ht, Option.map_eq_some_iff]
  constructor
  · rintro ⟨f, hf, he⟩
    cases he
    exact ⟨f, hf, rfl, rfl⟩
  · rintro ⟨f, hf, rfl, rfl⟩
    exact ⟨f, hf, rfl⟩

theorem read?_eq_some {cls : TagClass} {tag : OpeningTag} {cs rest : List Char} {e : Element}
    (h : read? v cls tag cs = some (e, rest)) :
    e.cls = cls ∧ e.opening = tag ∧ cs = e.tail ++ rest := by
  by_cases ht : tag.selfClosing
  · rw [read?_of_selfClosing ht] at h
    cases h
    exact ⟨rfl, rfl, rfl⟩
  · obtain ⟨f, hf, rfl, rfl⟩ := (read?_eq_some_iff ht).mp h
    exact ⟨rfl, rfl, (Enclosure.append_of_find? hf).symm⟩

theorem eq_of_read? {cls : TagClass} {tag : OpeningTag} {cs rest : List Char} {e e' : Element}
    (h : read? v cls tag cs = some (e, rest)) (h' : read? v cls tag e.tail = some (e', [])) :
    e' = e := by
  by_cases ht : tag.selfClosing
  · rw [read?_of_selfClosing ht] at h h'
    cases h
    cases h'
    rfl
  · obtain ⟨f, hf, rfl, -⟩ := (read?_eq_some_iff ht).mp h
    obtain ⟨f', hf', rfl, hrest⟩ := (read?_eq_some_iff ht).mp h'
    have ha := Enclosure.append_of_find? hf'
    rw [← hrest, List.append_nil] at ha
    obtain ⟨hb, hc⟩ := ClosingTag.eq_of_append_text (Enclosure.proper_of_find? hf')
      (Enclosure.proper_of_find? hf) ha
    rw [hb, hc]

/-- An element that is read inside a text is read without what follows, in a text that is quiet. -/
theorem read?_tail {cls : TagClass} {tag : OpeningTag} {cs rest : List Char} {e : Element}
    (h : read? v cls tag cs = some (e, rest)) (hq : Enclosure.Quiet e.tail) :
    read? v cls tag e.tail = some (e, []) := by
  obtain ⟨-, -, rfl⟩ := read?_eq_some h
  by_cases ht : tag.selfClosing
  · rw [read?_of_selfClosing ht] at h ⊢
    cases h
    rfl
  · obtain ⟨f, hf, he, rfl⟩ := (read?_eq_some_iff ht).mp h
    have hf' : f = Enclosure.extend f.rest ⟨f.body, f.closing, []⟩ := rfl
    rw [hf'] at hf
    exact (read?_eq_some_iff ht).mpr ⟨_, Enclosure.find?_of_append hq hf, he, rfl⟩

end Element

namespace Head

variable {v : Vocabulary}

theorem read_eq_element_iff {cs rest : List Char} {e : Element} :
    read v cs = .element e rest ↔ ∃ ds after, cs = '<' :: ds ∧
      Mark.read ds = .opening e.opening after ∧
      v.classify (.ofList e.opening.name) = some e.cls ∧
      Element.read? v e.cls e.opening after = some (e, rest) := by
  constructor
  · intro h
    rw [read.eq_def] at h
    split at h
    · cases h
    · split at h <;> cases h
    · rename_i ds
      rw [readMark] at h
      split at h
      · cases h
      · split at h <;> cases h
      · rename_i hm
        split at h
        · cases h
        · rename_i hv
          split at h
          · rename_i hr
            cases h
            obtain ⟨rfl, rfl, -⟩ := Element.read?_eq_some hr
            exact ⟨ds, _, rfl, hm, hv, hr⟩
          · cases h
      · split at h <;> cases h
      · cases h
    · cases h
  · rintro ⟨ds, after, rfl, hm, hv, hr⟩
    rw [read, readMark, hm]
    simp only [hv, hr]

theorem getLast?_tail_text (e : Element) : e.text.tail.getLast? = some '>' := by
  cases he : e.enclosed with
  | none => simp [Element.text, Element.tail, he, OpeningTag.text]
  | some x =>
    obtain ⟨body, closing⟩ := x
    have ht : e.text.tail =
        e.opening.text.tail ++ body ++ ('<' :: '/' :: closing.name ++ closing.gap) ++ ['>'] := by
      simp [Element.text, Element.tail, he, OpeningTag.text, ClosingTag.text]
    rw [ht, List.getLast?_append_cons]
    rfl

theorem read_mark_of_read {cs rest : List Char} {e : Element} (h : read v cs = .element e rest) :
    Mark.read e.text.tail = .opening e.opening e.tail := by
  obtain ⟨ds, after, rfl, hm, -, hr⟩ := read_eq_element_iff.mp h
  obtain ⟨-, -, rfl⟩ := Element.read?_eq_some hr
  have ha : e.text.tail ++ rest = ds := by
    have ha := Mark.text_append_of_opening hm
    rw [← List.append_assoc] at ha
    exact (List.cons.inj ha).2
  rw [← ha] at hm
  exact Mark.read_of_append_of_opening (getLast?_tail_text e) hm

/-- Holds of a text that starts with an element which takes all of it. -/
def StandsAlone (v : Vocabulary) (cs : List Char) : Prop :=
  ∃ e, read v cs = .element e []

theorem read_text_of_standsAlone {cs rest : List Char} {e : Element}
    (h : read v cs = .element e rest) (ha : StandsAlone v e.text) :
    read v e.text = .element e [] := by
  obtain ⟨e', h'⟩ := ha
  obtain ⟨ds, after, htext, hm, hv, hr⟩ := read_eq_element_iff.mp h'
  have hds : e.text.tail = ds := congrArg List.tail htext
  rw [← hds, read_mark_of_read h] at hm
  obtain ⟨hopening, rfl⟩ := Mark.opening.inj hm
  obtain ⟨_, _, _, _, hv', hr'⟩ := read_eq_element_iff.mp h
  have hcls : e'.cls = e.cls := by
    rw [← hopening, hv'] at hv
    exact (Option.some.inj hv).symm
  rw [hcls, ← hopening] at hr
  rwa [Element.eq_of_read? hr' hr] at h'

theorem standsAlone_of_quiet {cs rest : List Char} {e : Element}
    (h : read v cs = .element e rest) (hq : Enclosure.Quiet e.tail) : StandsAlone v e.text := by
  obtain ⟨ds, after, rfl, hm, hv, hr⟩ := read_eq_element_iff.mp h
  refine ⟨e, read_eq_element_iff.mpr ⟨e.text.tail, e.tail, rfl, read_mark_of_read h, hv, ?_⟩⟩
  exact Element.read?_tail hr hq

end Head

namespace Region

variable {v : Vocabulary} {limit : Nat}

/-- Where nothing is kept as text for its depth, an element gives the same tree at every place and
at every depth, moved. -/
theorem treeOf_eq_map {depth start : Nat} {e : Element} (hd : depth < limit)
    (hcut : ∀ r ∈ (treeOf v limit depth start e).preorder, ∀ e', r.piece ≠ .cut e') :
    treeOf v limit depth start e = (treeOf v limit 0 0 e).map (shift start) := by
  have hzero : 0 < limit := Nat.zero_lt_of_lt hd
  rw [treeOf, if_pos hd] at hcut ⊢
  have hdepth := regions_of_depth_le (Nat.succ_le_succ (Nat.zero_le depth))
    fun r hr => hcut r (List.mem_cons_of_mem _ hr)
  have hregions := regions_shift v limit 1 (Text.size e.opening.text) start (e.markup v)
  have hlabel := ofElement_shift v 0 start e
  rw [Nat.zero_add] at hlabel
  rw [Nat.add_comm] at hregions
  rw [treeOf, if_pos hzero, Tree.map, Nat.zero_add, Nat.zero_add, ← hlabel, ← hregions, hdepth]

theorem Yields.of_element {depth start : Nat} {cs rest : List Char} {t : Tree Region} {e : Element}
    (h : Yields v limit depth start cs t rest) (he : t.label.piece = .element e) :
    depth < limit ∧ t = treeOf v limit depth start e ∧ Head.read v cs = .element e rest := by
  cases h with
  | prose | template => cases he
  | @element _ _ e' h =>
    by_cases hd : depth < limit
    · rw [treeOf, if_pos hd] at he
      cases he
      exact ⟨hd, rfl, h⟩
    · rw [treeOf, if_neg hd] at he
      cases he

theorem outline_of_element {limits : Limits} {e : Element} {cs : List Char}
    (hsize : limits.brokenBy? (Text.size cs) = none) (h : Head.read v cs = .element e []) :
    outline v limits cs = treeOf v limits.maxDepth 0 0 e := by
  have hr : regions v limits.maxDepth 0 0 cs = [treeOf v limits.maxDepth 0 0 e] := by
    rw [regions_of_element h, regions_nil]
  rw [outline, hsize]
  simp only [hr]

theorem standsAlone_of_outline {limits : Limits} {e : Element} {cs : List Char}
    (h : (outline v limits cs).label.piece = .element e) : Head.StandsAlone v cs := by
  obtain ⟨_, _, ho, _⟩ | ho := outline_cases v limits cs
  · rw [ho] at h
    cases h
  · have hy := (ho ▸ splits_regions v limits.maxDepth 0 0 cs).yields
    generalize outline v limits cs = t at h hy
    cases hy with
    | prose | template => cases h
    | @element _ _ e' hread => exact ⟨e', hread⟩

end Region

theorem Limits.brokenBy?_mono {limits : Limits} {m n : Nat} (h : m ≤ n)
    (hn : limits.brokenBy? n = none) : limits.brokenBy? m = none := by
  rw [brokenBy?, Option.filter_eq_none_iff] at hn ⊢
  intro b hb
  have hlt := hn b hb
  simp only [decide_eq_true_eq] at hlt ⊢
  omega

namespace Segment

theorem exists_element_of_isElement {id : Nat} {r : Region} (h : (ofRegion id r).isElement) :
    ∃ e, r.piece = .element e := by
  rcases hp : r.piece with _ | _ | _ | e
  iterate 3 simp [isElement, tag?, ofRegion, Shape.ofPiece, hp] at h
  exact ⟨e, rfl⟩

theorem isElement_move (n d : Nat) (s : Segment) : (s.move n d).isElement = s.isElement := by
  rw [isElement, isElement, tag?, tag?, move]
  cases s.shape <;> rfl

end Segment

namespace Document

variable {p : Parser} {source : String}

theorem brokenBy?_of_piece {u : Tree Region}
    (hu : u ∈ (outline p.vocabulary p.limits source.toList).subtrees)
    (hp : ∀ chars, u.label.piece ≠ .text chars) :
    p.limits.brokenBy? (Text.size source.toList) = none := by
  rw [outline] at hu
  split at hu
  · obtain rfl | ⟨t, ht, _⟩ := Tree.mem_subtrees_node.mp hu
    · exact absurd rfl (hp source.toList)
    · cases ht
  · assumption

theorem exists_element_of_mem {s : Tree Segment} (hs : s ∈ (p.parse source).root.subtrees)
    (he : s.label.isElement) :
    ∃ depth start cs rest e k, Head.read p.vocabulary cs = .element e rest ∧
      depth < p.limits.maxDepth ∧
      Region.treeOf p.vocabulary p.limits.maxDepth depth start e ∈
        (outline p.vocabulary p.limits source.toList).subtrees ∧
      s = (Region.treeOf p.vocabulary p.limits.maxDepth depth start e).number Segment.ofRegion k ∧
      p.limits.brokenBy? (Text.size e.text) = none := by
  obtain ⟨u, hu, k, rfl⟩ := exists_region_of_mem hs
  rw [Tree.label_number] at he
  obtain ⟨e, hpiece⟩ := Segment.exists_element_of_isElement he
  have hsize := brokenBy?_of_piece hu (by simp [hpiece])
  obtain ⟨_, _, rfl, _⟩ | ⟨depth, before, cs, rest, after, hsource, hy⟩ := Region.cases_of_mem hu
  · cases hpiece
  · have hcs := hy.piece_chars hpiece
    have hle : Text.size e.text ≤ Text.size source.toList := by
      rw [hsource, hcs]
      simp only [Text.size_append]
      omega
    obtain ⟨hd, rfl, hread⟩ := hy.of_element hpiece
    exact ⟨depth, _, cs, rest, e, k, hread, hd, hu, rfl, Limits.brokenBy?_mono hle hsize⟩

/-- An element that is parsed alone gives its segments again exactly when its text starts with an
element that takes all of it, and so it does when no tag in it leaves its quotes open. -/
theorem reparse_element (p : Parser) (source : String) (hlog : p.limits.maxDiagnostics = none)
    (hdeep : ∀ d ∈ (p.parse source).diagnostics, d.kind ≠ .nestingTooDeep) {s : Tree Segment}
    (hs : s ∈ (p.parse source).root.subtrees) (he : s.label.isElement) :
    (s = (p.parse s.label.content).root.map (Segment.move s.label.id s.label.span.start) ↔
      Head.StandsAlone p.vocabulary s.label.content.toList) ∧
    ((∀ before after, s.label.content.toList.tail = before ++ '<' :: after →
      ¬Mark.LeavesOpen after) → Head.StandsAlone p.vocabulary s.label.content.toList) := by
  obtain ⟨depth, start, cs, rest, e, k, hread, hd, hmem, hs, hsize⟩ := exists_element_of_mem hs he
  have hlabel : s.label = Segment.ofRegion k (.ofElement p.vocabulary start e) := by
    rw [hs, Tree.label_number, Region.treeOf, if_pos hd]
    rfl
  have hcontent : s.label.content = .ofList e.text := by
    rw [hlabel]
    rfl
  have hroot : (p.parse s.label.content).root =
      (outline p.vocabulary p.limits e.text).number Segment.ofRegion 0 := by
    rw [hcontent, root_parse, String.toList_ofList]
  rw [hroot, hcontent, String.toList_ofList]
  refine ⟨⟨fun h => ?_, fun h => ?_⟩, fun h => ?_⟩
  · have hroot' : (Segment.ofRegion 0 (outline p.vocabulary p.limits e.text).label).isElement := by
      rw [h, Tree.label_map, Segment.isElement_move, Tree.label_number] at he
      exact he
    obtain ⟨e', he'⟩ := Segment.exists_element_of_isElement hroot'
    exact Region.standsAlone_of_outline he'
  · have halone := Head.read_text_of_standsAlone hread h
    have hcut : ∀ r ∈ (Region.treeOf p.vocabulary p.limits.maxDepth depth start e).preorder, ∀ e',
        r.piece ≠ .cut e' := by
      intro r hr e'
      obtain ⟨u, hu, rfl⟩ := Tree.mem_preorder.mp hr
      exact piece_ne_cut hlog hdeep (Tree.mem_subtrees_trans hu hmem) e'
    have hmap := Tree.number_map (g := Region.shift start) (h := Segment.move k start)
      (fun n r => Segment.ofRegion_shift n k start r) 0
      (Region.treeOf p.vocabulary p.limits.maxDepth 0 0 e)
    rw [Region.outline_of_element hsize halone, hlabel]
    change s = Tree.map (Segment.move k start) _
    rw [← hmap, ← Region.treeOf_eq_map hd hcut, Nat.zero_add]
    exact hs
  · apply Head.standsAlone_of_quiet hread
    have hq : Enclosure.Quiet (e.opening.text.tail ++ e.tail) :=
      ⟨fun c hc => Option.some.inj (hc.symm.trans (Head.getLast?_tail_text e)), h⟩
    exact hq.of_append

theorem reparse_element_behind_text :
    ∃ s ∈ (Parser.sample.parse "x<p>a</p>").root.subtrees, s.label.span = ⟨1, 9⟩ ∧
      s = (Parser.sample.parse s.label.content).root.map (Segment.move s.label.id 1) := by
  have hany : ((Parser.sample.parse "x<p>a</p>").root.subtrees.any fun s =>
      s.label.isElement && s.label.span = ⟨1, 9⟩ && s.label.content = "<p>a</p>") = true := by
    decide +kernel
  obtain ⟨s, hs, h⟩ := List.any_eq_true.mp hany
  simp only [Bool.and_eq_true, decide_eq_true_eq] at h
  obtain ⟨⟨he, hspan⟩, hcontent⟩ := h
  refine ⟨s, hs, hspan, ?_⟩
  have hiff := (reparse_element Parser.sample "x<p>a</p>" rfl (by decide +kernel) hs he).1
  rw [hspan] at hiff
  refine hiff.mpr ⟨⟨.structural, ⟨['p'], []⟩, some (['a'], ⟨['p'], []⟩)⟩, ?_⟩
  rw [hcontent]
  decide +kernel

/-- An inner tag whose quotes close behind the element: alone, the element is text. -/
theorem reparse_element_with_open_quote :
    (∀ d ∈ (Parser.sample.parse "<p><p a=\"x>y</p>\" <").diagnostics, d.kind ≠ .nestingTooDeep) ∧
      ∃ s ∈ (Parser.sample.parse "<p><p a=\"x>y</p>\" <").segments, s.isElement = true ∧
        (Parser.sample.parse s.content).root.label.shape = .text := by
  decide +kernel

end Document

end ProseMarkup
