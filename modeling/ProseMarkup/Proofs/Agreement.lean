import ProseMarkup.Proofs.Isolation
import ProseMarkup.Proofs.Markup.Tags
import ProseMarkup.Proofs.Placement

namespace ProseMarkup

theorem ClosingTag.Proper.read?_name {t : ClosingTag} (h : t.Proper) :
    Name.read? (t.name ++ (t.gap ++ ['>'])) = some (t.name, t.gap ++ ['>']) ∧
      ∀ c ∈ t.gap, Text.isBlank c = true := by
  obtain ⟨after, hn, hgap, hend⟩ := read?_eq_some h.read?
  obtain rfl : after = t.gap ++ ['>'] := by
    rw [hgap, ← hend, List.takeWhile_append_dropWhile]
  refine ⟨hn, fun c hc => ?_⟩
  rw [hgap] at hc
  exact List.mem_takeWhile_imp hc

namespace Lexer

open Token (Mode Lexeme)

def behindName (start : Nat) (tag : OpeningTag) : Lexer :=
  ⟨tag.inside ++ ['>'], start + 1 + Text.size tag.name, [.tag, .content]⟩

theorem drain_of_opening {tag : OpeningTag} (h : Name.read? (tag.name ++ (tag.inside ++ ['>'])) =
    some (tag.name, tag.inside ++ ['>'])) (start : Nat) :
    (ofText start tag.text).drain =
      (⟨.tagStart, .ofList ['<'], start⟩ :: ⟨.identifier, .ofList tag.name, start + 1⟩ ::
        (behindName start tag).tokens, (behindName start tag).drain.2) := by
  have hopen : next ⟨'<' :: (tag.name ++ (tag.inside ++ ['>'])), start, [.content]⟩ =
      (some ⟨.tagStart, .ofList ['<'], start⟩,
        ⟨tag.name ++ (tag.inside ++ ['>']), start + 1, [.tag, .content]⟩) := by
    obtain ⟨-, ⟨a, cs, hname, ha, -⟩, -⟩ := Name.read?_eq_some_iff.mp h
    rw [hname]
    exact next_of_read rfl (.inr (by decide)) (Mode.read_content_of_isStart ha _)
  have htext : tag.text = '<' :: (tag.name ++ (tag.inside ++ ['>'])) := by simp [OpeningTag.text]
  rw [htext, ofText, drain_of_some hopen, drain_of_some (next_name h (start + 1) [.content])]
  rfl

theorem tokens_of_opening {tag : OpeningTag} (h : Name.read? (tag.name ++ (tag.inside ++ ['>'])) =
    some (tag.name, tag.inside ++ ['>'])) (start : Nat) :
    (ofText start tag.text).tokens =
      ⟨.tagStart, .ofList ['<'], start⟩ :: ⟨.identifier, .ofList tag.name, start + 1⟩ ::
        (behindName start tag).tokens :=
  congrArg Prod.fst (drain_of_opening h start)

theorem tokens_of_closing {tag : ClosingTag} (h : tag.Proper) (start : Nat) :
    ∃ ts, (ofText start tag.text).tokens =
      ⟨.closingTagStart, .ofList ['<', '/'], start⟩ ::
        ⟨.identifier, .ofList tag.name, start + 2⟩ :: ts := by
  have hopen : Emits ⟨'<' :: '/' :: (tag.name ++ (tag.gap ++ ['>'])), start, [.content]⟩
      [⟨.closingTagStart, .ofList ['<', '/'], start⟩]
      ⟨tag.name ++ (tag.gap ++ ['>']), start + 2, [.tag, .content]⟩ :=
    emits_of_read rfl (.inr (by decide)) rfl
  have htext : tag.text = '<' :: '/' :: (tag.name ++ (tag.gap ++ ['>'])) := by
    simp [ClosingTag.text]
  rw [htext]
  exact ⟨_, hopen.trans (emits_name h.read?_name.1 (start + 2) [.content])⟩

end Lexer

/-- What a scan has found out about an element that it cuts out. -/
structure Element.Sound (v : Vocabulary) (e : Element) : Prop where
  classified : v.classify (.ofList e.opening.name) = some e.cls
  name : Name.read? (e.opening.name ++ (e.opening.inside ++ ['>'])) =
    some (e.opening.name, e.opening.inside ++ ['>'])
  ends : OpeningTag.endsName (e.opening.inside ++ ['>'])
  empty : e.enclosed = none → e.opening.inside.getLast? = some '/'
  closing : ∀ x, e.enclosed = some x → x.2.Proper ∧ Text.sameName x.2.name e.opening.name

theorem Mark.read?_name_of_opening {cs rest : List Char} {tag : OpeningTag}
    (h : read cs = .opening tag rest) :
    Name.read? (tag.name ++ (tag.inside ++ ['>'])) = some (tag.name, tag.inside ++ ['>']) ∧
      OpeningTag.endsName (tag.inside ++ ['>']) := by
  obtain ⟨after, hn, hends, hs⟩ := read_eq_opening h
  obtain rfl := OpeningTag.append_of_splitEnd? hs
  obtain ⟨-, hname, hafter⟩ := Name.read?_eq_some_iff.mp hn
  have hhead : (tag.inside ++ ['>']).head? = (tag.inside ++ '>' :: rest).head? := by
    cases tag.inside <;> rfl
  refine ⟨Name.read?_eq_some_iff.mpr ⟨rfl, hname, ?_⟩, ?_⟩
  · rwa [Name.Ends, hhead]
  · cases hi : tag.inside with
    | nil => rfl
    | cons c inside => rwa [hi] at hends

theorem Head.sound_of_read {v : Vocabulary} {cs rest : List Char} {e : Element}
    (h : read v cs = .element e rest) : e.Sound v := by
  obtain ⟨ds, after, rfl, hm, hv, hr⟩ := read_eq_element_iff.mp h
  obtain ⟨hname, hends⟩ := Mark.read?_name_of_opening hm
  refine ⟨hv, hname, hends, fun hn => ?_, fun x hx => ?_⟩
  · by_contra hself
    obtain ⟨f, -, he, -⟩ := (Element.read?_eq_some_iff (by simpa [OpeningTag.selfClosing])).mp hr
    rw [he] at hn
    cases hn
  · by_cases hself : e.opening.selfClosing
    · rw [Element.read?_of_selfClosing hself, Option.some.injEq, Prod.mk.injEq] at hr
      rw [← hr.1] at hx
      cases hx
    · obtain ⟨f, hf, he, -⟩ := (Element.read?_eq_some_iff hself).mp hr
      rw [he] at hx
      cases hx
      exact Enclosure.closing_of_find? hf

namespace Tag

def closeNameAt (start : Nat) (e : Element) (x : List Char × ClosingTag) : Span :=
  .ofText (start + Text.size e.opening.text + Text.size x.1 + 2) x.2.name

def mismatchAt (start : Nat) (e : Element) (x : List Char × ClosingTag) : List Diagnostic :=
  if x.2.name = e.opening.name then []
  else [.closingTagMismatch (.ofText (start + Text.size e.opening.text + Text.size x.1) x.2.text)
    (.ofList x.2.name) (.ofList e.opening.name)]

def attributesAt (start : Nat) (e : Element) : List Attribute × List Diagnostic :=
  Attribute.readAll (start + Text.size e.opening.text) (Lexer.behindName start e.opening).tokens

/-- The tags of an element name what the scan has found. -/
theorem ofElement_eq {v : Vocabulary} {e : Element} (h : e.Sound v) (start : Nat) :
    ofElement start e = (⟨e.cls, .ofList e.opening.name, .ofText (start + 1) e.opening.name,
      e.enclosed.map (closeNameAt start e), e.enclosed.isNone, (attributesAt start e).1⟩,
      (attributesAt start e).2 ++ e.enclosed.elim [] (mismatchAt start e)) := by
  have hopening := Lexer.tokens_of_opening h.name start
  rcases hread : Attribute.readAll (start + Text.size e.opening.text)
    (Lexer.behindName start e.opening).tokens with ⟨attributes, notes⟩
  rw [attributesAt, hread]
  cases he : e.enclosed with
  | none =>
    simp only [ofElement, he, hopening, openingName, and_self, if_true, Token.span_ofList,
      List.drop_succ_cons, List.drop_zero, hread]
    rw [Option.elim_none, List.append_nil]
    rfl
  | some x =>
    obtain ⟨body, closing⟩ := x
    obtain ⟨us, hclosing⟩ := Lexer.tokens_of_closing (h.closing _ he).1
      (start + Text.size e.opening.text + Text.size body)
    simp only [ofElement, he, hopening, hclosing, openingName, closingName?, and_self, if_true,
      Token.span_ofList, List.drop_succ_cons, List.drop_zero, hread, Option.map_some,
      Option.toList_some, List.flatMap_singleton, mismatch, String.ofList_inj]
    rfl

theorem kind_of_mem_attributesAt {start : Nat} {e : Element} {d : Diagnostic}
    (h : d ∈ (attributesAt start e).2) : d.kind ≠ .closingTagMismatch :=
  (Attribute.start_of_mem_readAll h).1

end Tag

/-- What the tag of a segment says of the element that it was read from, and of the text of the
segment. -/
structure Tag.Agrees (v : Vocabulary) (source : String) (e : Element) (s : Segment) (tag : Tag) :
    Prop where
  nameSpan : tag.nameSpan = .ofText (s.span.start + 1) e.opening.name
  /-- Whatever is given in its place, the name is the one in the tokens. -/
  token : ∀ given, openingName given (Lexer.ofText s.span.start e.opening.text).tokens =
    ⟨.identifier, .ofList e.opening.name, s.span.start + 1⟩
  name : tag.name = tag.nameSpan.slice source
  maximal : Name.IsName tag.name.toList ∧ ∃ c rest,
    s.content.toList = '<' :: (tag.name.toList ++ c :: rest) ∧ Name.isPart c = false ∧
      (c = '>' ∨ c = '/' ∨ Text.isBlank c = true)
  classified : v.classify tag.name = some tag.cls
  closed : tag.closeNameSpan.isSome = !tag.selfClosing
  closing : ∀ span, tag.closeNameSpan = some span → ∃ before gap,
    s.content.toList = before ++ '<' :: '/' :: ((span.slice source).toList ++ (gap ++ ['>'])) ∧
      (∀ c ∈ gap, Text.isBlank c = true) ∧
      span = .ofText (s.span.start + Text.size before + 2) (span.slice source).toList ∧
      Text.sameName (span.slice source).toList tag.name.toList
  selfClosing : tag.selfClosing → ∃ before, s.content.toList = before ++ ['/', '>']

namespace Tag

variable {v : Vocabulary} {source : String} {e : Element} {before after : List Char}

theorem slice_nameSpan (hs : source.toList = before ++ (e.text ++ after)) :
    (Span.ofText (Text.size before + 1) e.opening.name).slice source = .ofList e.opening.name := by
  have hbefore : Text.size before + 1 = Text.size (before ++ ['<']) := by
    rw [Text.size_append]
    rfl
  have hsplit : source.toList = (before ++ ['<']) ++
      (e.opening.name ++ (e.opening.inside ++ '>' :: (e.tail ++ after))) := by
    rw [hs]
    simp [Element.text, OpeningTag.text]
  rw [hbefore]
  exact Segment.slice_ofText hsplit

theorem slice_closeNameAt {body : List Char} {closing : ClosingTag}
    (hs : source.toList = before ++ (e.text ++ after)) (he : e.enclosed = some (body, closing)) :
    (closeNameAt (Text.size before) e (body, closing)).slice source = .ofList closing.name := by
  have hbefore : Text.size before + Text.size e.opening.text + Text.size body + 2 =
      Text.size (before ++ (e.opening.text ++ (body ++ ['<', '/']))) := by
    simp only [Text.size_append, ← Nat.add_assoc]
    rfl
  have hsplit : source.toList = (before ++ (e.opening.text ++ (body ++ ['<', '/']))) ++
      (closing.name ++ (closing.gap ++ '>' :: after)) := by
    rw [hs]
    simp [Element.text, Element.tail, he, ClosingTag.text]
  rw [closeNameAt, hbefore]
  exact Segment.slice_ofText hsplit

theorem agrees_of_sound (h : e.Sound v) (hs : source.toList = before ++ (e.text ++ after))
    (id : Nat) (notes : List Diagnostic) :
    (ofElement (Text.size before) e).1.Agrees v source e
      (.ofRegion id ⟨Text.size before, .element e, notes⟩) := by
  have he := ofElement_eq h (Text.size before)
  have htext : e.text = '<' :: (e.opening.name ++ (e.opening.inside ++ '>' :: e.tail)) := by
    simp [Element.text, OpeningTag.text]
  obtain ⟨-, hname, hends⟩ := Name.read?_eq_some_iff.mp h.name
  rw [he]
  constructor
  case nameSpan => rfl
  case token =>
    intro given
    have htokens := Lexer.tokens_of_opening h.name (Text.size before)
    change openingName given (Lexer.ofText (Text.size before) e.opening.text).tokens = _
    rw [htokens]
    rfl
  case name => exact (slice_nameSpan hs).symm
  case maximal =>
    have hend : ∃ c rest, e.opening.inside ++ '>' :: e.tail = c :: rest ∧ Name.isPart c = false ∧
        (c = '>' ∨ c = '/' ∨ Text.isBlank c = true) := by
      have hstop := h.ends
      cases hi : e.opening.inside with
      | nil => exact ⟨'>', e.tail, rfl, by decide, .inl rfl⟩
      | cons c inside =>
        rw [hi] at hstop hends
        exact ⟨c, _, rfl, hends c rfl, by simpa [OpeningTag.endsName, or_assoc] using hstop⟩
    obtain ⟨c, rest, hc, hstop⟩ := hend
    rw [String.toList_ofList]
    refine ⟨hname, c, rest, ?_, hstop⟩
    rw [← hc, ← htext]
    exact String.toList_ofList
  case classified => exact h.classified
  case closed => cases e.enclosed <;> rfl
  case closing =>
    intro span hspan
    obtain ⟨⟨body, closing⟩, hx, rfl⟩ := Option.map_eq_some_iff.mp hspan
    obtain ⟨hproper, hsame⟩ := h.closing _ hx
    rw [slice_closeNameAt hs hx, String.toList_ofList, String.toList_ofList]
    refine ⟨e.opening.text ++ body, closing.gap, ?_, hproper.read?_name.2, ?_, hsame⟩
    · change (String.ofList e.text).toList = _
      simp [Element.text, Element.tail, hx, ClosingTag.text]
    · rw [closeNameAt, Text.size_append, ← Nat.add_assoc]
      rfl
  case selfClosing =>
    intro hself
    have hnone : e.enclosed = none := Option.isNone_iff_eq_none.mp hself
    obtain ⟨inside, hinside⟩ := List.getLast?_eq_some_iff.mp (h.empty hnone)
    refine ⟨'<' :: (e.opening.name ++ inside), ?_⟩
    change (String.ofList e.text).toList = _
    simp [htext, hinside, Element.tail, hnone]

end Tag

namespace Region

variable {v : Vocabulary} {limits : Limits} {source : List Char} {u : Tree Region}

theorem inside_of_mem (hu : u ∈ (outline v limits source).subtrees) {inner : List Char}
    (hp : u.label.piece = .template inner) : TemplateInside inner := by
  obtain ⟨_, _, rfl, -⟩ | ⟨_, _, _, _, _, -, hy⟩ := cases_of_mem hu
  · cases hp
  · cases hy with
    | prose => cases hp
    | template h =>
      cases hp
      exact Head.inside_of_read h
    | element h =>
      unfold treeOf at hp
      split at hp <;> cases hp

theorem sound_of_mem (hu : u ∈ (outline v limits source).subtrees) {e : Element}
    (hp : u.label.piece = .element e) : e.Sound v := by
  obtain ⟨_, _, rfl, -⟩ | ⟨_, _, _, _, _, -, hy⟩ := cases_of_mem hu
  · cases hp
  · exact Head.sound_of_read (hy.of_element hp).2.2

theorem Run.kind_of_note {start : Nat} {cs last : List Char} {notes : List Diagnostic}
    (run : Run v start cs last notes) {d : Diagnostic} (hd : d ∈ notes) :
    d.kind ≠ .closingTagMismatch := by
  induction run with
  | nil => cases hd
  | cons _ _ _ ih =>
    obtain hd | hd := List.mem_append.mp hd
    · obtain ⟨f, -, rfl⟩ := List.mem_map.mp hd
      cases f <;> nofun
    · exact ih hd

theorem Yields.kind_of_note {limit depth start : Nat} {cs rest : List Char}
    (h : Yields v limit depth start cs u rest) {d : Diagnostic} (hd : d ∈ u.label.notes) :
    d.kind ≠ .closingTagMismatch := by
  cases h with
  | prose _ run => exact run.kind_of_note hd
  | template => cases hd
  | element h =>
    unfold treeOf at hd
    split at hd
    · simp only [Tree.label, ofElement] at hd
      split at hd
      · obtain rfl := List.mem_singleton.mp hd
        rintro ⟨⟩
      · cases hd
    · obtain rfl : d = _ := List.mem_singleton.mp hd
      rintro ⟨⟩

theorem kind_of_note (hu : u ∈ (outline v limits source).subtrees) {d : Diagnostic}
    (hd : d ∈ u.label.notes) : d.kind ≠ .closingTagMismatch := by
  obtain ⟨_, _, rfl, -⟩ | ⟨_, _, _, _, _, -, hy⟩ := cases_of_note hu (List.mem_append_left _ hd)
  · nofun
  · exact hy.kind_of_note hd

end Region

theorem Segment.exists_of_shape_element {id : Nat} {r : Region} {tag : Tag}
    (h : (ofRegion id r).shape = .element tag) :
    ∃ e, r.piece = .element e ∧ tag = (Tag.ofElement r.start e).1 := by
  rcases hp : r.piece with _ | _ | _ | e
  iterate 3 simp [ofRegion, Shape.ofPiece, hp] at h
  refine ⟨e, rfl, ?_⟩
  simpa [ofRegion, Shape.ofPiece, hp, eq_comm] using h

theorem Segment.exists_of_shape_template {id : Nat} {r : Region} {expression : String}
    (h : (ofRegion id r).shape = .template expression) :
    ∃ inner, r.piece = .template inner ∧ expression = .ofList (Text.trim inner) := by
  rcases hp : r.piece with _ | _ | inner | _
  · simp [ofRegion, Shape.ofPiece, hp] at h
  · simp [ofRegion, Shape.ofPiece, hp] at h
  · refine ⟨inner, rfl, ?_⟩
    simpa [ofRegion, Shape.ofPiece, hp, eq_comm] using h
  · simp [ofRegion, Shape.ofPiece, hp] at h

/-- An element has a report on its closing tag when the two names are spelled in different ways. -/
theorem Tag.exists_mismatch_iff {v : Vocabulary} {source : String} {e : Element}
    {before after : List Char} (h : e.Sound v) (hs : source.toList = before ++ (e.text ++ after)) :
    (∃ d ∈ (ofElement (Text.size before) e).2, d.kind = .closingTagMismatch) ↔
      ∃ span, (ofElement (Text.size before) e).1.closeNameSpan = some span ∧
        span.slice source ≠ (ofElement (Text.size before) e).1.name := by
  have he := ofElement_eq h (Text.size before)
  rw [he]
  cases hx : e.enclosed with
  | none =>
    apply iff_of_false
    · rintro ⟨d, hd, hk⟩
      rw [Option.elim_none, List.append_nil] at hd
      exact kind_of_mem_attributesAt hd hk
    · rintro ⟨span, hspan, -⟩
      cases hspan
  | some x =>
    obtain ⟨body, closing⟩ := x
    have hslice := slice_closeNameAt hs hx
    have hname : String.ofList closing.name ≠ .ofList e.opening.name ↔
        closing.name ≠ e.opening.name := not_congr String.ofList_inj
    constructor
    · rintro ⟨d, hd, hk⟩
      refine ⟨_, rfl, ?_⟩
      rw [hslice, hname]
      obtain hd | hd := List.mem_append.mp hd
      · exact absurd hk (kind_of_mem_attributesAt hd)
      · intro hsame
        rw [Option.elim_some, mismatchAt, if_pos hsame] at hd
        cases hd
    · rintro ⟨span, hspan, hne⟩
      obtain rfl := Option.some.inj hspan
      rw [hslice, hname] at hne
      have hnotes : mismatchAt (Text.size before) e (body, closing) = [_] := if_neg hne
      exact ⟨_, List.mem_append_right _ (hnotes ▸ List.mem_singleton_self _), rfl⟩

/-- Both readings of a source agree. -/
structure Parser.Agreement (p : Parser) (source : String) : Prop where
  element : List.Forall₂ (fun u s => s.label = .ofRegion s.label.id u.label ∧
    ∀ tag, s.label.shape = .element tag →
      ∃ e, u.label.piece = .element e ∧ tag.Agrees p.vocabulary source e s.label)
    (outline p.vocabulary p.limits source.toList).subtrees (p.parse source).root.subtrees
  mismatch : p.limits.maxDiagnostics = none → ∀ s ∈ (p.parse source).root.subtrees, ∀ tag,
    s.label.shape = .element tag →
      ((∃ d ∈ (p.parse source).diagnostics,
          d.kind = .closingTagMismatch ∧ d.node = some s.label.id) ↔
        ∃ span, tag.closeNameSpan = some span ∧ span.slice source ≠ tag.name)
  template : ∀ s ∈ (p.parse source).root.subtrees, ∀ expression,
    s.label.shape = .template expression → ∃ inner,
      s.label.content.toList = '{' :: '{' :: (inner ++ ['}', '}']) ∧ TemplateInside inner ∧
        expression = .ofList (Text.trim inner)

namespace Document

variable {p : Parser} {source : String}

theorem nodeAt_of_owns {u : Tree Region} {k n : Nat}
    (hs : u.number Segment.ofRegion k ∈ (p.parse source).root.subtrees) (h : Region.Owns u n) :
    Segment.nodeAt (p.parse source).root n = u.number Segment.ofRegion k := by
  obtain ⟨hspan, hbelow⟩ := h
  apply nodeAt_root hs
  · rwa [Tree.label_number]
  · intro c hc hn
    have hmem := List.mem_map_of_mem (f := fun c => c.label.span) hc
    rw [Segment.children_span] at hmem
    obtain ⟨c', hc', he⟩ := List.mem_map.mp hmem
    exact hbelow c' hc' (he ▸ hn)

theorem mem_discovered {t : Tree Region} {d : Diagnostic} :
    d ∈ discovered t ↔ ∃ u ∈ t.subtrees, d ∈ u.label.notes ∨ d ∈ Segment.notes u.label := by
  rw [discovered, List.mem_append, List.mem_flatMap, List.mem_flatMap]
  simp only [Tree.mem_preorder]
  constructor
  · rintro (⟨_, ⟨u, hu, rfl⟩, hd⟩ | ⟨_, ⟨u, hu, rfl⟩, hd⟩)
    · exact ⟨u, hu, .inl hd⟩
    · exact ⟨u, hu, .inr hd⟩
  · rintro ⟨u, hu, hd | hd⟩
    · exact .inl ⟨_, ⟨u, hu, rfl⟩, hd⟩
    · exact .inr ⟨_, ⟨u, hu, rfl⟩, hd⟩

theorem exists_mismatch_of_mem {u : Tree Region} {k : Nat}
    (hu : u ∈ (outline p.vocabulary p.limits source.toList).subtrees) {tag : Tag}
    (hshape : (u.number Segment.ofRegion k).label.shape = .element tag) :
    (∃ d ∈ Segment.notes u.label, d.kind = .closingTagMismatch) ↔
      ∃ span, tag.closeNameSpan = some span ∧ span.slice source ≠ tag.name := by
  rw [Tree.label_number] at hshape
  obtain ⟨e, hp, rfl⟩ := Segment.exists_of_shape_element hshape
  obtain ⟨before, after, hsource, hstart⟩ := Region.located_of_mem hu
  rw [Region.chars, hp] at hsource
  rw [Segment.notes, hp, hstart]
  exact Tag.exists_mismatch_iff (Region.sound_of_mem hu hp) hsource

theorem mismatch_of_mem (hn : p.limits.maxDiagnostics = none) {s : Tree Segment}
    (hs : s ∈ (p.parse source).root.subtrees) {tag : Tag} (hshape : s.label.shape = .element tag) :
    (∃ d ∈ (p.parse source).diagnostics,
        d.kind = .closingTagMismatch ∧ d.node = some s.label.id) ↔
      ∃ span, tag.closeNameSpan = some span ∧ span.slice source ≠ tag.name := by
  constructor
  · rintro ⟨_, hmem, hk, hnode⟩
    obtain ⟨d, hd, rfl⟩ := (mem_diagnostics hn).mp hmem
    obtain ⟨u, hu, hd | hd⟩ := mem_discovered.mp hd
    · exact absurd hk (Region.kind_of_note (d := d) hu hd)
    · -- the report is attached to the segment of its region, so that is the segment here
      obtain ⟨k, hmem⟩ := exists_segment_of_mem (p := p) hu
      have howns := Region.place_of_note hu (List.mem_append_right _ hd)
      have hnode := Option.some.inj hnode
      rw [nodeAt_of_owns hmem howns] at hnode
      obtain rfl := eq_of_id_eq hmem hs hnode
      exact (exists_mismatch_of_mem hu hshape).mp ⟨d, hd, hk⟩
  · intro h
    obtain ⟨u, hu, k, rfl⟩ := exists_region_of_mem hs
    obtain ⟨d, hd, hk⟩ := (exists_mismatch_of_mem hu hshape).mpr h
    have howns := Region.place_of_note hu (List.mem_append_right _ hd)
    refine ⟨_, (mem_diagnostics hn).mpr ⟨d, mem_discovered.mpr ⟨u, hu, .inr hd⟩, rfl⟩, hk, ?_⟩
    rw [nodeAt_of_owns hs howns]
    rfl

theorem agreement_parse (p : Parser) (source : String) : p.Agreement source where
  element := by
    refine forall₂_subtrees fun u hu k => ?_
    rw [Tree.label_number]
    refine ⟨rfl, fun tag hshape => ?_⟩
    obtain ⟨e, hp, rfl⟩ := Segment.exists_of_shape_element hshape
    obtain ⟨before, after, hsource, hstart⟩ := Region.located_of_mem hu
    refine ⟨e, hp, ?_⟩
    have hchars : u.label.chars = e.text := by
      rw [Region.chars, hp]
      rfl
    rw [hchars] at hsource
    have hagrees := Tag.agrees_of_sound (Region.sound_of_mem hu hp) hsource k u.label.notes
    have hlabel : u.label = ⟨Text.size before, .element e, u.label.notes⟩ := by
      rw [← hstart, ← hp]
    rwa [← hlabel, ← hstart] at hagrees
  mismatch hn s hs tag := mismatch_of_mem hn hs
  template s hs expression hshape := by
    obtain ⟨u, hu, k, rfl⟩ := exists_region_of_mem hs
    rw [Tree.label_number] at hshape ⊢
    obtain ⟨inner, hp, hexpression⟩ := Segment.exists_of_shape_template hshape
    refine ⟨inner, ?_, Region.inside_of_mem hu hp, hexpression⟩
    change (String.ofList u.label.chars).toList = _
    rw [String.toList_ofList, Region.chars, hp]
    rfl

end Document

end ProseMarkup
