import ProseMarkup.Proofs.Arrangement
import ProseMarkup.Proofs.Isolation

namespace ProseMarkup

namespace Text

/-- Holds of a longest name right behind `<` or `</` in a text. -/
def HasTagName (cs name : List Char) : Prop :=
  ∃ before mark rest, cs = before ++ (mark ++ (name ++ rest)) ∧
    (mark = ['<'] ∨ mark = ['<', '/']) ∧ Name.IsName name ∧ Name.Ends rest

theorem HasTagName.append_left {bs name : List Char} (h : HasTagName bs name) (as : List Char) :
    HasTagName (as ++ bs) name := by
  obtain ⟨before, mark, rest, rfl, h⟩ := h
  exact ⟨as ++ before, mark, rest, by simp only [List.append_assoc], h⟩

theorem HasTagName.append_right {cs name after : List Char} (h : HasTagName cs name)
    (ha : Name.Ends after) : HasTagName (cs ++ after) name := by
  obtain ⟨before, mark, rest, rfl, hmark, hname, hends⟩ := h
  refine ⟨before, mark, rest ++ after, by simp only [List.append_assoc], hmark, hname, ?_⟩
  cases rest with
  | nil => exact ha
  | cons c rest => exact hends

theorem HasTagName.of_read? {mark cs name rest : List Char} (hm : mark = ['<'] ∨ mark = ['<', '/'])
    (h : Name.read? cs = some (name, rest)) : HasTagName (mark ++ cs) name := by
  obtain ⟨rfl, hname, hends⟩ := Name.read?_eq_some_iff.mp h
  exact ⟨[], mark, rest, rfl, hm, hname, hends⟩

def tagName? : List Char → Option (List Char)
  | '<' :: '/' :: cs => (Name.read? cs).map Prod.fst
  | '<' :: cs => (Name.read? cs).map Prod.fst
  | _ => none

def tagNames : List Char → List (List Char)
  | [] => []
  | c :: cs => (tagName? (c :: cs)).toList ++ tagNames cs

theorem tagName?_eq_some {cs name : List Char} (hn : Name.IsName name) {rest : List Char}
    (hr : Name.Ends rest) {mark : List Char} (hm : mark = ['<'] ∨ mark = ['<', '/'])
    (h : cs = mark ++ (name ++ rest)) : tagName? cs = some name := by
  have hread : Name.read? (name ++ rest) = some (name, rest) :=
    Name.read?_eq_some_iff.mpr ⟨rfl, hn, hr⟩
  obtain rfl | rfl := hm
  · obtain ⟨c, ds, rfl, hc, -⟩ := hn
    have hslash : c ≠ '/' := by
      rintro rfl
      revert hc
      decide
    subst h
    change tagName? ('<' :: c :: (ds ++ rest)) = _
    unfold tagName?
    split
    · rename_i heq
      cases heq
      exact absurd rfl hslash
    · rename_i heq
      cases heq
      exact congrArg (Option.map Prod.fst) hread
    · rename_i hne
      exact absurd rfl (hne _)
  · subst h
    exact congrArg (Option.map Prod.fst) hread

theorem HasTagName.of_tagName? {cs name : List Char} (h : tagName? cs = some name) :
    HasTagName cs name := by
  unfold tagName? at h
  split at h
  · obtain ⟨⟨name, rest⟩, hread, rfl⟩ := Option.map_eq_some_iff.mp h
    exact .of_read? (.inr rfl) hread
  · obtain ⟨⟨name, rest⟩, hread, rfl⟩ := Option.map_eq_some_iff.mp h
    exact .of_read? (.inl rfl) hread
  · cases h

theorem mem_tagNames {cs name : List Char} : name ∈ tagNames cs ↔ HasTagName cs name := by
  constructor
  · intro h
    induction cs with
    | nil => cases h
    | cons c cs ih =>
      obtain h | h := List.mem_append.mp h
      · exact .of_tagName? (Option.mem_toList.mp h)
      · exact (ih h).append_left [c]
  · rintro ⟨before, mark, rest, rfl, hmark, hname, hends⟩
    induction before with
    | nil =>
      have hsome := tagName?_eq_some hname hends hmark rfl
      rw [List.nil_append]
      cases hcs : mark ++ (name ++ rest) with
      | nil =>
        rw [hcs] at hsome
        cases hsome
      | cons c cs =>
        rw [tagNames, ← hcs, hsome]
        exact List.mem_cons_self
    | cons c before ih => exact List.mem_append_right _ ih

end Text

namespace Vocabulary

variable {v w : Vocabulary}

/-- Holds of vocabularies that give every name of a tag in a text the same class. -/
def Agree (v w : Vocabulary) (cs : List Char) : Prop :=
  ∀ name, Text.HasTagName cs name → v.classify (.ofList name) = w.classify (.ofList name)

instance (v w : Vocabulary) (cs : List Char) : Decidable (Agree v w cs) :=
  decidable_of_iff
    (∀ name ∈ Text.tagNames cs, v.classify (.ofList name) = w.classify (.ofList name))
    (forall_congr' fun _ => imp_congr_left Text.mem_tagNames)

theorem Agree.of_append {as bs : List Char} (h : Agree v w (as ++ bs)) : Agree v w bs :=
  fun name hn => h name (hn.append_left as)

theorem Agree.of_suffix {as bs : List Char} (h : Agree v w bs) (hs : as <:+ bs) : Agree v w as := by
  obtain ⟨before, rfl⟩ := hs
  exact h.of_append

theorem Agree.of_append_of_ends {cs after : List Char} (h : Agree v w (cs ++ after))
    (ha : Name.Ends after) : Agree v w cs :=
  fun name hn => h name (hn.append_right ha)

end Vocabulary

open Vocabulary (Agree)

namespace Mark

variable {cs rest name : List Char}

theorem hasTagName_of_opening {tag : OpeningTag} (h : read cs = .opening tag rest) :
    Text.HasTagName ('<' :: cs) tag.name := by
  obtain ⟨after, hn, -⟩ := read_eq_opening h
  exact .of_read? (.inl rfl) hn

theorem hasTagName_of_unclosed (h : read cs = .unclosed name rest) :
    Text.HasTagName ('<' :: cs) name :=
  .of_read? (.inl rfl) (read_eq_unclosed h).1

theorem hasTagName_of_closing {tag : ClosingTag} (h : read cs = .closing tag rest) :
    Text.HasTagName ('<' :: cs) tag.name := by
  obtain ⟨after, rfl, hr⟩ := read_eq_closing h
  obtain ⟨after', hn, -, -⟩ := ClosingTag.read?_eq_some hr
  exact .of_read? (.inr rfl) hn

end Mark

namespace Enclosure

variable {v w : Vocabulary}

theorem search_congr {step step' : List Char → Step} {takes : ∀ cs, (step cs).Takes ('<' :: cs)}
    {takes' : ∀ cs, (step' cs).Takes ('<' :: cs)} {inner : Nat} {cs : List Char}
    (h : ∀ ds, '<' :: ds <:+ cs → step ds = step' ds) :
    search step takes inner cs = search step' takes' inner cs := by
  have later {cs : List Char} (h : ∀ ds, '<' :: ds <:+ '<' :: cs → step ds = step' ds) :
      ∀ ds, '<' :: ds <:+ (step cs).rest → step ds = step' ds :=
    fun ds hds => h ds (hds.trans ⟨(step cs).past, (takes cs).1⟩)
  fun_induction search step takes inner cs with
  | case1 => rw [search_nil]
  | case2 inner cs _ past rest hs ih =>
    have hlater := later h
    have hs' := h cs (List.suffix_refl _)
    rw [hs] at hlater hs'
    rw [search_of_pass hs'.symm, ih hlater]
  | case3 inner cs _ past rest hs ih =>
    have hlater := later h
    have hs' := h cs (List.suffix_refl _)
    rw [hs] at hlater hs'
    rw [search_of_enter hs'.symm, ih hlater]
  | case4 cs _ tag rest hs =>
    have hs' := h cs (List.suffix_refl _)
    rw [hs] at hs'
    rw [search_of_meet hs'.symm]
  | case5 cs _ tag rest hs inner ih =>
    have hlater := later h
    have hs' := h cs (List.suffix_refl _)
    rw [hs] at hlater hs'
    rw [search_of_meet_succ hs'.symm, ih hlater]
  | case6 inner c cs hc ih =>
    rw [search_cons hc, ih fun ds hds => h ds (hds.trans (List.suffix_cons c cs))]

theorem structuralStep_congr {name cs : List Char} (h : Agree v w ('<' :: cs)) :
    structuralStep v name cs = structuralStep w name cs := by
  unfold structuralStep
  split
  · rfl
  · rfl
  · rename_i tag rest hm
    rw [h tag.name (Mark.hasTagName_of_opening hm)]
  · rfl
  · rfl

theorem find?_congr {name cs : List Char}
    (hn : v.classify (.ofList name) = w.classify (.ofList name)) (h : Agree v w cs) :
    find? v name cs = find? w name cs := by
  have hsearch : ofStructural? v name cs = ofStructural? w name cs :=
    search_congr fun ds hds => structuralStep_congr (h.of_suffix hds)
  rw [find?, find?, hn, hsearch]

end Enclosure

theorem Text.exists_append_trim (cs : List Char) :
    ∃ left right, cs = left ++ (trim cs ++ right) ∧ (∀ c ∈ left, isBlank c = true) ∧
      ∀ c ∈ right, isBlank c = true := by
  refine ⟨cs.takeWhile isBlank, ((trimStart cs).reverse.takeWhile isBlank).reverse, ?_,
    fun c hc => List.mem_takeWhile_imp hc, ?_⟩
  · have hend : trim cs ++ ((trimStart cs).reverse.takeWhile isBlank).reverse = trimStart cs := by
      rw [trim, trimEnd, ← List.reverse_append, List.takeWhile_append_dropWhile,
        List.reverse_reverse]
    rw [hend, trimStart, List.takeWhile_append_dropWhile]
  · intro c hc
    exact List.mem_takeWhile_imp (List.mem_reverse.mp hc)

namespace Element

variable {v w : Vocabulary}

theorem isOneOf_congr {name body : List Char}
    (hn : v.classify (.ofList name) = w.classify (.ofList name)) (h : Agree v w body) :
    isOneOf v name body = isOneOf w name body := by
  have htrim : Agree v w (Text.trim body) := by
    obtain ⟨left, right, hbody, -, hblank⟩ := Text.exists_append_trim body
    rw [hbody] at h
    exact h.of_append.of_append_of_ends (Name.ends_of_isBlank hblank)
  unfold isOneOf
  split
  · rename_i cs hcs
    rw [hcs] at htrim
    split
    · rename_i tag rest hm
      have hrest : Agree v w rest := by
        rw [← Mark.text_append_of_opening hm] at htrim
        exact htrim.of_append
      rw [Enclosure.find?_congr hn hrest]
    · rfl
  · rfl

theorem read?_congr {cls : TagClass} {tag : OpeningTag} {cs : List Char}
    (hn : v.classify (.ofList tag.name) = w.classify (.ofList tag.name)) (h : Agree v w cs) :
    read? v cls tag cs = read? w cls tag cs := by
  rw [read?, read?, Enclosure.find?_congr hn h]

variable {e : Element} {rest : List Char}

/-- The body of an element is followed by a tag, so the names in it are names in the text. -/
theorem agree_body {body : List Char} {closing : ClosingTag}
    (he : e.enclosed = some (body, closing)) (h : Agree v w (e.text ++ rest)) :
    Agree v w body := by
  have htext : e.text ++ rest =
      e.opening.text ++ (body ++ '<' :: (closing.text.tail ++ rest)) := by
    rw [text, tail, he]
    simp [ClosingTag.text]
  rw [htext] at h
  exact h.of_append.of_append_of_ends (Name.ends_cons (by decide) _)

variable (hn : v.classify (.ofList e.opening.name) = w.classify (.ofList e.opening.name))
  (h : Agree v w (e.text ++ rest))

include hn h

theorem wrapsItself_congr : e.wrapsItself v = e.wrapsItself w := by
  unfold wrapsItself
  split
  · rename_i he
    exact isOneOf_congr hn (agree_body he h)
  · rfl

theorem markup_congr : e.markup v = e.markup w := by
  unfold markup
  split
  · rename_i he
    rw [isOneOf_congr hn (agree_body he h)]
  · rfl

omit hn

theorem agree_markup : Agree v w (e.markup v) := by
  by_cases hm : e.markup v = []
  · rw [hm]
    exact h.of_suffix List.nil_suffix
  · obtain ⟨closing, -, he, -⟩ := enclosed_of_markup hm
    exact agree_body he h

end Element

namespace Head

variable {v w : Vocabulary}

theorem readMark_congr {cs : List Char} (h : Agree v w ('<' :: cs)) :
    readMark v cs = readMark w cs := by
  unfold readMark
  split
  · rfl
  · rename_i tag rest hm
    rw [h tag.name (Mark.hasTagName_of_closing hm)]
  · rename_i tag rest hm
    have hn := h tag.name (Mark.hasTagName_of_opening hm)
    have hrest : Agree v w rest := by
      rw [← Mark.text_append_of_opening hm] at h
      exact h.of_append
    simp only [hn, Element.read?_congr hn hrest]
  · rename_i name rest hm
    rw [h name (Mark.hasTagName_of_unclosed hm)]
  · rfl

theorem read_congr {cs : List Char} (h : Agree v w cs) : read v cs = read w cs := by
  unfold read
  split
  · rfl
  · rfl
  · exact readMark_congr h
  · rfl

theorem hasTagName_of_read {cs rest : List Char} {e : Element} (h : read v cs = .element e rest) :
    Text.HasTagName cs e.opening.name := by
  obtain ⟨ds, after, rfl, hm, -⟩ := read_eq_element_iff.mp h
  exact Mark.hasTagName_of_opening hm

end Head

namespace Region

variable {v w : Vocabulary}

theorem ofElement_congr {start : Nat} {e : Element}
    (h : e.wrapsItself v = e.wrapsItself w) : ofElement v start e = ofElement w start e := by
  rw [ofElement, ofElement, h]

/-- A scan asks only about the names of tags in its text. -/
theorem regions_congr (limit depth start : Nat) {cs : List Char} (h : Agree v w cs) :
    regions v limit depth start cs = regions w limit depth start cs := by
  fun_induction regions v limit depth start cs with
  | case1 => rw [regions_nil]
  | case2 depth start cs hcs passed fault rest hr _ ih =>
    have hrest : Agree v w rest := by
      rw [← Head.append_of_read hr] at h
      exact h.of_append
    rw [Head.read_congr h] at hr
    rw [regions_of_prose hcs hr, ih hrest]
  | case3 depth start cs hcs inner rest hr _ r ih =>
    have hrest : Agree v w rest := by
      rw [← Head.append_of_read hr] at h
      exact h.of_append
    rw [Head.read_congr h] at hr
    rw [regions_of_template hr, ih hrest]
    rfl
  | case4 depth start cs hcs e rest hr _ _ t ihm ih =>
    have hn := h _ (Head.hasTagName_of_read hr)
    have he : Agree v w (e.text ++ rest) := by
      rwa [show e.text ++ rest = cs from Head.append_of_read hr]
    have hmarkup := ihm (Element.agree_markup he)
    rw [Head.read_congr h] at hr
    rw [regions_of_element hr, ih he.of_append]
    congr 1
    rw [Element.markup_congr hn he] at hmarkup
    rw [treeOf, ← ofElement_congr (Element.wrapsItself_congr hn he)]
    by_cases hd : depth < limit
    · simp only [t, hd, dif_pos, if_pos, Element.markup_congr hn he, hmarkup]
    · simp only [t, hd, dif_neg, if_neg, not_false_eq_true]

theorem outline_congr (limits : Limits) {source : List Char} (h : Agree v w source) :
    outline v limits source = outline w limits source := by
  rw [outline, outline, regions_congr limits.maxDepth 0 0 h]

end Region

def Vocabulary.empty : Vocabulary :=
  ⟨fun _ => false, fun _ => false⟩

theorem Head.read_empty (cs : List Char) :
    (∃ passed rest, read .empty cs = .prose passed none rest) ∨
      ∃ inner rest, read .empty cs = .template inner rest := by
  have mark (cs : List Char) : ∃ passed rest, readMark .empty cs = .prose passed none rest := by
    unfold readMark
    split
    · exact ⟨_, _, rfl⟩
    · exact ⟨_, _, rfl⟩
    · exact ⟨_, _, rfl⟩
    · exact ⟨_, _, rfl⟩
    · exact ⟨_, _, rfl⟩
  unfold read
  split
  · exact .inl ⟨_, _, rfl⟩
  · split
    · exact .inr ⟨_, _, rfl⟩
    · exact .inl ⟨_, _, rfl⟩
  · exact .inl (mark _)
  · exact .inl ⟨_, _, rfl⟩

namespace Region

inductive Tagless : Tree Region → Prop
  | text (start : Nat) (chars : List Char) : Tagless (.node ⟨start, .text chars, []⟩ [])
  | template (start : Nat) (inner : List Char) : Tagless (.node (ofTemplate start inner) [])

theorem tagless_prose {start : Nat} {chars : List Char} {ts : List (Tree Region)}
    (h : ∀ t ∈ ts, Tagless t) : ∀ t ∈ prose start chars [] ts, Tagless t := by
  have alone : ∀ t ∈ .node ⟨start, .text chars, []⟩ [] :: ts, Tagless t :=
    List.forall_mem_cons.mpr ⟨.text start chars, h⟩
  unfold prose
  split
  · obtain ⟨hhead, htail⟩ := List.forall_mem_cons.mp h
    cases hhead
    exact List.forall_mem_cons.mpr ⟨.text start _, htail⟩
  · exact alone

theorem tagless_regions (limit depth start : Nat) (cs : List Char) :
    ∀ t ∈ regions .empty limit depth start cs, Tagless t := by
  fun_induction regions .empty limit depth start cs with
  | case1 => exact List.forall_mem_nil _
  | case2 depth start cs hcs passed fault rest hr _ ih =>
    obtain ⟨passed', rest', hr'⟩ | ⟨inner, rest', hr'⟩ := Head.read_empty cs
    · cases hr.symm.trans hr'
      exact tagless_prose ih
    · cases hr.symm.trans hr'
  | case3 depth start cs hcs inner rest hr _ r ih =>
    exact List.forall_mem_cons.mpr ⟨.template start inner, ih⟩
  | case4 depth start cs hcs e rest hr =>
    obtain ⟨passed', rest', hr'⟩ | ⟨inner, rest', hr'⟩ := Head.read_empty cs
    · cases hr.symm.trans hr'
    · cases hr.symm.trans hr'

theorem tagless_of_mem {limits : Limits} {source : List Char}
    (hsize : limits.brokenBy? (Text.size source) = none) {r : Region}
    (hr : r ∈ (outline .empty limits source).preorder) :
    r.notes = [] ∧ Segment.notes r = [] ∧
      ((∃ chars, r.piece = .text chars) ∨ ∃ inner, r.piece = .template inner) := by
  have leaf {t : Tree Region} (ht : Tagless t) (hr : r ∈ t.preorder) : r.notes = [] ∧
      Segment.notes r = [] ∧ ((∃ chars, r.piece = .text chars) ∨
        ∃ inner, r.piece = .template inner) := by
    cases ht with
    | text start chars =>
      obtain rfl := List.mem_singleton.mp hr
      exact ⟨rfl, rfl, .inl ⟨chars, rfl⟩⟩
    | template start inner =>
      obtain rfl := List.mem_singleton.mp hr
      exact ⟨rfl, rfl, .inr ⟨inner, rfl⟩⟩
  have hts := tagless_regions limits.maxDepth 0 0 source
  simp only [outline, hsize] at hr
  split at hr
  · rename_i t ht
    exact leaf (hts t (ht ▸ List.mem_singleton_self t)) hr
  · obtain rfl | hr := List.mem_cons.mp hr
    · exact ⟨rfl, rfl, .inl ⟨source, rfl⟩⟩
    · rw [Tree.preorderAll_eq_flatMap] at hr
      obtain ⟨t, ht, hr⟩ := List.mem_flatMap.mp hr
      exact leaf (hts t ht) hr

end Region

namespace Document

theorem parse_congr {v w : Vocabulary} (limits : Limits) (path : Option String) {source : String}
    (h : Agree v w source.toList) :
    (Parser.mk v limits path).parse source = (Parser.mk w limits path).parse source := by
  rw [Parser.parse, Parser.parse, Region.outline_congr limits h]

theorem parse_empty (limits : Limits) (path : Option String) (source : String)
    (hsize : limits.brokenBy? source.utf8ByteSize = none) :
    let d := (Parser.mk .empty limits path).parse source
    (∀ s ∈ d.segments, s.shape = .text ∨ ∃ expression, s.shape = .template expression) ∧
      d.diagnostics = [] ∧ d.dropped = 0 := by
  intro d
  rw [← Text.size_toList] at hsize
  have hdiscovered : discovered (outline .empty limits source.toList) = [] := by
    rw [discovered, List.append_eq_nil_iff, List.flatMap_eq_nil_iff, List.flatMap_eq_nil_iff]
    exact ⟨fun r hr => (Region.tagless_of_mem hsize hr).1,
      fun r hr => (Region.tagless_of_mem hsize hr).2.1⟩
  have hlog : (Parser.mk .empty limits path).log source =
      Diagnostic.Log.empty limits.maxDiagnostics := by
    rw [Parser.log_eq_extend, hdiscovered]
    rfl
  refine ⟨?_, ?_, ?_⟩
  · intro s hs
    obtain ⟨t, ht, rfl⟩ := Tree.mem_preorder.mp hs
    obtain ⟨u, hu, k, rfl⟩ := exists_region_of_mem ht
    obtain ⟨-, -, hpiece⟩ := Region.tagless_of_mem hsize (Tree.mem_preorder.mpr ⟨u, hu, rfl⟩)
    rw [Tree.label_number]
    obtain ⟨chars, hp⟩ | ⟨inner, hp⟩ := hpiece
    · left
      rw [Segment.ofRegion, hp]
      rfl
    · right
      rw [Segment.ofRegion, hp]
      exact ⟨_, rfl⟩
  · rw [diagnostics_eq_arrange, hlog, arrange, Diagnostic.Log.empty, List.mergeSort_nil,
      List.map_nil]
  · rw [dropped_eq, hlog]
    rfl

/-- A parse depends on its vocabulary only through the names of tags in the source. When none of
them is known, there are no elements and no reports. -/
theorem parse_of_agree (limits : Limits) (path : Option String) (source : String)
    (v w : Vocabulary) :
    let parse (v : Vocabulary) := (Parser.mk v limits path).parse source
    ((∀ name, Text.HasTagName source.toList name →
        v.classify (.ofList name) = w.classify (.ofList name)) → parse v = parse w) ∧
      ((∀ name, Text.HasTagName source.toList name → v.classify (.ofList name) = none) →
        limits.brokenBy? source.utf8ByteSize = none →
        (∀ s ∈ (parse v).segments, s.shape = .text ∨ ∃ expression, s.shape = .template expression) ∧
          (parse v).diagnostics = [] ∧ (parse v).dropped = 0) := by
  intro parse
  refine ⟨fun h => parse_congr limits path h, fun h hsize => ?_⟩
  have hempty : parse v = parse .empty := parse_congr limits path h
  rw [hempty]
  exact parse_empty limits path source hsize

/-- Names that go on behind a known name are others, and so are names that no tag bears. -/
theorem parse_of_agree_longer_name :
    let source := "<pp>x</pp>{{y}}</q"
    let v := Vocabulary.exact ["p", "x"] ["y"]
    let w := Vocabulary.exact ["z"] []
    (∀ name, Text.HasTagName source.toList name →
        v.classify (.ofList name) = w.classify (.ofList name)) ∧
      (∀ name, Text.HasTagName source.toList name → v.classify (.ofList name) = none) ∧
      (Parser.mk v {} none).parse source = (Parser.mk w {} none).parse source ∧
      ((Parser.mk v {} none).parse source).diagnostics = [] := by
  intro source v w
  have hagree : Agree v w source.toList := by decide +kernel
  have hnone : Agree v .empty source.toList := by decide +kernel
  obtain ⟨hparse, hempty⟩ := parse_of_agree {} none source v w
  exact ⟨hagree, hnone, hparse hagree, (hempty hnone (by decide +kernel)).2.1⟩

end Document

end ProseMarkup
