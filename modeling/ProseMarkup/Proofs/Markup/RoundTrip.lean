import ProseMarkup.Proofs.Isolation
import ProseMarkup.Proofs.Markup.Tags

namespace ProseMarkup

namespace Text

theorem trimEnd_append {as : List Char} (h : ∀ c ∈ as.getLast?, isBlank c = false)
    (bs : List Char) : trimEnd (as ++ bs) = as ++ trimEnd bs := by
  have has : as.reverse.dropWhile isBlank = as.reverse := by
    rw [← List.head?_reverse] at h
    cases hr : as.reverse with
    | nil => rfl
    | cons c cs =>
      rw [hr] at h
      simp [h c rfl]
  rw [trimEnd, trimEnd, List.reverse_append, List.dropWhile_append, has]
  split
  · rename_i hb
    rw [List.isEmpty_iff.mp hb]
    simp
  · simp

theorem trimEnd_eq_nil_iff {cs : List Char} : trimEnd cs = [] ↔ ∀ c ∈ cs, isBlank c = true := by
  rw [trimEnd, List.reverse_eq_nil_iff, List.dropWhile_eq_nil_iff]
  simp

theorem trim_append_of_blank {as : List Char} (h : ∀ c ∈ as, isBlank c = true) (bs : List Char) :
    trim (as ++ bs) = trim bs := by
  rw [trim, trim, trimStart, trimStart, List.dropWhile_append_of_pos h]

theorem trim_append {c : Char} {as : List Char} (hc : isBlank c = false)
    (hl : ∀ d ∈ (c :: as).getLast?, isBlank d = false) (bs : List Char) :
    trim (c :: as ++ bs) = c :: as ++ trimEnd bs := by
  have hstart : trimStart (c :: as ++ bs) = c :: as ++ bs := by
    simp [trimStart, hc]
  rw [trim, hstart, trimEnd_append hl]

theorem trim_cons {c : Char} (hc : isBlank c = false) (bs : List Char) :
    trim (c :: bs) = c :: trimEnd bs := by
  have hl : ∀ d ∈ [c].getLast?, isBlank d = false := by
    rintro _ ⟨⟩
    exact hc
  exact trim_append hc hl bs

theorem head?_trim_append {as : List Char} (h : as.all isBlank = false) (bs : List Char) :
    ∃ c ∈ as, (trim (as ++ bs)).head? = some c := by
  obtain ⟨c, more, hmore⟩ : ∃ c more, as.dropWhile isBlank = c :: more := by
    apply List.exists_cons_of_ne_nil
    intro hd
    rw [List.all_eq_true.mpr (List.dropWhile_eq_nil_iff.mp hd)] at h
    contradiction
  have hc : isBlank c = false := by
    have hhead := List.head?_dropWhile_not isBlank as
    rw [hmore] at hhead
    simpa using hhead
  have has : as.takeWhile isBlank ++ c :: more = as := by
    rw [← hmore, List.takeWhile_append_dropWhile]
  refine ⟨c, has ▸ List.mem_append_right _ List.mem_cons_self, ?_⟩
  rw [← has, List.append_assoc, trim_append_of_blank (fun _ => List.mem_takeWhile_imp),
    List.cons_append, trim_cons hc]
  rfl

end Text

namespace Element

variable {v : Vocabulary} {name : List Char}

theorem isOneOf_of_trim_eq {as bs : List Char} (h : Text.trim as = Text.trim bs) :
    isOneOf v name as = isOneOf v name bs := by
  rw [isOneOf, isOneOf, h]

theorem isOneOf_of_head {body : List Char} (h : (Text.trim body).head? ≠ some '<') :
    isOneOf v name body = false := by
  rw [isOneOf]
  split
  · rename_i ht
    rw [ht] at h
    contradiction
  · rfl

theorem isOneOf_of_read {body cs rest : List Char} {tag : OpeningTag}
    (ht : Text.trim body = '<' :: cs) (hm : Mark.read cs = .opening tag rest) :
    isOneOf v name body = (Text.sameName tag.name name &&
      if tag.selfClosing then rest.isEmpty
      else (Enclosure.find? v name rest).any (·.rest.isEmpty)) := by
  rw [isOneOf, ht]
  simp only [hm]

end Element

namespace Markup

variable {s : TagSet} {name : List Char}

def piece : Markup → Piece
  | text chars => .text chars
  | template inner => .template inner
  | empty cls o => .element ⟨cls, o.emptyTag, none⟩
  | metadata o body => .element (o.enclose .metadata body)
  | structural o ts => .element (o.enclose .structural (charsAll ts))

theorem chars_piece (t : Markup) : t.piece.chars = t.chars := by
  cases t with
  | empty cls o => exact List.append_nil o.emptyTag.text
  | _ => rfl

theorem isBlank_of_chars {t : Markup} (h : ∀ c ∈ t.chars, Text.isBlank c = true) :
    t.isBlank = true := by
  cases t with
  | text chars => exact List.all_eq_true.mpr h
  | template inner => exact absurd (h '{' List.mem_cons_self) (by decide)
  | empty cls o => exact absurd (h '<' List.mem_cons_self) (by decide)
  | metadata o body => exact absurd (h '<' List.mem_cons_self) (by decide)
  | structural o ts => exact absurd (h '<' List.mem_cons_self) (by decide)

theorem isBlank_of_charsAll {ts : List Markup} (h : ∀ c ∈ charsAll ts, Text.isBlank c = true) :
    ∀ t ∈ ts, t.isBlank = true := by
  induction ts with
  | nil => nofun
  | cons t ts ih =>
    rw [charsAll] at h
    obtain ⟨ht, hts⟩ := List.forall_mem_append.mp h
    exact List.forall_mem_cons.mpr ⟨isBlank_of_chars ht, ih hts⟩

theorem trim_text (e : Element) (bs : List Char) :
    Text.trim (e.text ++ bs) = e.text ++ Text.trimEnd bs := by
  have hlast : ∀ d ∈ e.text.getLast?, Text.isBlank d = false := by
    have ht := Head.getLast?_tail_text e
    have hd : e.text = ['<'] ++ e.text.tail := rfl
    rw [hd, List.getLast?_append, ht]
    rintro _ ⟨⟩
    decide
  exact Text.trim_append (by decide) hlast bs

theorem trimEnd_ne_nil {t : Markup} {ts : List Markup} (h : isOneOf name (t :: ts) = false)
    (hb : t.isBlank = false) (hn : t.isNamed name = true) : Text.trimEnd (charsAll ts) ≠ [] := by
  intro he
  have hts : ts.filter (!·.isBlank) = [] := by
    apply List.filter_eq_nil_iff.mpr
    intro u hu
    simp [isBlank_of_charsAll (Text.trimEnd_eq_nil_iff.mp he) u hu]
  simp [isOneOf, hts, hb, hn] at h

theorem isOneOf_append (hn : s.classify (.ofList name) = some .structural) {t : Markup}
    (h : t.WellFormed s) (hb : t.isBlank = false) {cs : List Char}
    (hne : t.isNamed name = true → Text.trimEnd cs ≠ []) :
    Element.isOneOf s.toVocabulary name (t.chars ++ cs) = false := by
  cases t with
  | text as =>
    apply Element.isOneOf_of_head
    obtain ⟨c, hc, hhead⟩ := Text.head?_trim_append hb cs
    rw [chars, hhead]
    rintro ⟨⟩
    exact h.2.1 hc
  | template inner =>
    apply Element.isOneOf_of_head
    have htrim : Text.trim ((template inner).chars ++ cs) = '{' :: _ :=
      Text.trim_cons (by decide) _
    rw [htrim]
    exact fun he => absurd (Option.some.inj he) (by decide)
  | empty cls o =>
    have htrim : Text.trim (o.emptyTag.text ++ cs) =
        '<' :: (o.emptyTag.text.tail ++ Text.trimEnd cs) := by
      have htext := trim_text ⟨cls, o.emptyTag, none⟩ cs
      rw [Element.text, Element.tail, List.append_nil] at htext
      exact htext
    rw [chars, Element.isOneOf_of_read htrim (o.read_emptyTag _), o.selfClosing_emptyTag,
      if_pos rfl, Bool.and_eq_false_imp]
    exact fun hname => List.isEmpty_eq_false_iff.mpr (hne hname)
  | metadata o body =>
    have htrim : Text.trim ((metadata o body).chars ++ cs) =
        '<' :: (o.tag.text.tail ++ (body ++ (o.closing.text ++ Text.trimEnd cs))) := by
      rw [chars, trim_text, text_enclose_append]
    have hname : Text.sameName o.tag.name name = false := sameName_eq_false hn h.1
    rw [Element.isOneOf_of_read htrim (o.read_tag _), hname, Bool.false_and]
  | structural o us =>
    have htrim : Text.trim ((structural o us).chars ++ cs) =
        '<' :: (o.tag.text.tail ++ (charsAll us ++ (o.closing.text ++ Text.trimEnd cs))) := by
      rw [chars, trim_text, text_enclose_append]
    rw [Element.isOneOf_of_read htrim (o.read_tag _), o.selfClosing_tag, Bool.and_eq_false_imp]
    intro hname
    have ho : Text.sameName o.name name = true := hname
    rw [if_neg Bool.false_ne_true, find?_structural hn ho h.2.2]
    exact List.isEmpty_eq_false_iff.mpr (hne ho)

/-- The text of a body shows that it is not one element of the name alone. -/
theorem isOneOf_charsAll (hn : s.classify (.ofList name) = some .structural) {ts : List Markup}
    (h : WellFormedAll s ts) (ho : isOneOf name ts = false) :
    Element.isOneOf s.toVocabulary name (charsAll ts) = false := by
  induction ts with
  | nil => exact Element.isOneOf_of_head (by decide)
  | cons t ts ih =>
    obtain ⟨ht, -, hts⟩ := h
    by_cases hb : t.isBlank = true
    · rw [isOneOf, List.filter_cons_of_neg (by simp [hb])] at ho
      cases t with
      | text chars =>
        have htrim := Text.trim_append_of_blank (List.all_eq_true.mp hb) (charsAll ts)
        exact (Element.isOneOf_of_trim_eq htrim).trans (ih hts ho)
      | _ => contradiction
    · have hb' : t.isBlank = false := eq_false_of_ne_true hb
      exact isOneOf_append hn ht hb' (trimEnd_ne_nil ho hb')

theorem read_template {inner : List Char} (h : (template inner).WellFormed s) (v : Vocabulary)
    (rest : List Char) :
    Head.read v ((template inner).chars ++ rest) = .template inner rest := by
  obtain ⟨ht, ho, hc⟩ := h
  have hinside : TemplateInside inner := by
    refine ⟨ht, fun hi => ho ?_, fun hi => hc ?_, fun hl => hc (List.mem_of_getLast? hl)⟩
    · exact hi.subset List.mem_cons_self
    · exact hi.subset List.mem_cons_self
  have hchars : (template inner).chars ++ rest = '{' :: '{' :: (inner ++ '}' :: '}' :: rest) := by
    simp [chars, Piece.chars]
  rw [hchars, Head.read, readTemplate?_append hinside]

theorem read_element {t : Markup} (h : t.WellFormed s) {e : Element} (he : t.piece = .element e)
    (rest : List Char) : Head.read s.toVocabulary (t.chars ++ rest) = .element e rest := by
  cases t with
  | text chars => cases he
  | template inner => cases he
  | empty cls o =>
    cases he
    have hclass := (s.classify_toVocabulary (.ofList o.name)).trans h
    exact Head.read_eq_element_iff.mpr ⟨_, rest, rfl, o.read_emptyTag rest, hclass,
      Element.read?_of_selfClosing o.selfClosing_emptyTag⟩
  | metadata o body =>
    cases he
    have hclass := (s.classify_toVocabulary (.ofList o.name)).trans h.1
    refine Head.read_eq_element_iff.mpr
      ⟨_, _, text_enclose_append .., o.read_tag _, hclass, ?_⟩
    have hfind := find?_metadata h.1 h.2 rest
    exact (Element.read?_eq_some_iff (ne_true_of_eq_false o.selfClosing_tag)).mpr
      ⟨_, hfind, rfl, rfl⟩
  | structural o ts =>
    cases he
    have hclass := (s.classify_toVocabulary (.ofList o.name)).trans h.1
    refine Head.read_eq_element_iff.mpr
      ⟨_, _, text_enclose_append .., o.read_tag _, hclass, ?_⟩
    have hfind := find?_structural h.1 (Text.sameName_self o.name) h.2.2 rest
    exact (Element.read?_eq_some_iff (ne_true_of_eq_false o.selfClosing_tag)).mpr
      ⟨_, hfind, rfl, rfl⟩

def region (x : Nat × Markup) : Region :=
  ⟨x.1, x.2.piece, []⟩

theorem regions_text {v : Vocabulary} {limit depth start : Nat} {cs rest : List Char}
    (h : (text cs).WellFormed s)
    (hr : ∀ u ∈ (Region.regions v limit depth (start + Text.size cs) rest).head?,
      u.label.isProse = false) :
    Region.regions v limit depth start (cs ++ rest) =
      .node ⟨start, .text cs, []⟩ [] ::
        Region.regions v limit depth (start + Text.size cs) rest := by
  obtain ⟨hne, hlt, hb⟩ := h
  induction cs generalizing start with
  | nil => contradiction
  | cons c cs ih =>
    obtain ⟨hcl, hlt⟩ := List.ne_and_not_mem_of_not_mem_cons hlt
    obtain ⟨hcb, hb⟩ := List.ne_and_not_mem_of_not_mem_cons hb
    have hread : Head.read v (c :: (cs ++ rest)) = .prose [c] none (cs ++ rest) := by
      rw [Head.read]
      · rintro _ rfl
        contradiction
      · rintro rfl
        contradiction
    have hsize : start + Text.size (c :: cs) = start + Text.size [c] + Text.size cs := by
      rw [← List.singleton_append, Text.size_append, Nat.add_assoc]
    rw [List.cons_append, Region.regions_of_prose (List.cons_ne_nil _ _) hread]
    rw [hsize] at hr ⊢
    by_cases hcs : cs = []
    · subst hcs
      exact Region.prose_eq_cons hr
    · rw [ih hr hcs hlt hb]
      rfl

theorem treeOf_piece {v : Vocabulary} {limit depth start : Nat} {t : Markup} {e : Element}
    (he : t.piece = .element e) (hd : depth < limit) (hw : e.wrapsItself v = false) :
    Region.treeOf v limit depth start e = .node (region (start, t))
      (Region.regions v limit (depth + 1) (start + Text.size e.opening.text) (e.markup v)) := by
  have hregion : Region.ofElement v start e = region (start, t) := by
    rw [Region.ofElement, hw, region, he]
    rfl
  rw [Region.treeOf, if_pos hd, hregion]

mutual

theorem regions_chars {limit depth start : Nat} {rest : List Char} : ∀ t : Markup,
    t.WellFormed s → depth + t.depth ≤ limit →
    (t.isText = true → ∀ u ∈ (Region.regions s.toVocabulary limit depth
      (start + Text.size t.chars) rest).head?, u.label.isProse = false) →
    Region.regions s.toVocabulary limit depth start (t.chars ++ rest) =
      (t.offsets start).map region ::
        Region.regions s.toVocabulary limit depth (start + Text.size t.chars) rest
  | text cs, h, _, hr => regions_text h (hr rfl)
  | template inner, h, _, _ => Region.regions_of_template (read_template h _ rest)
  | empty cls o, h, hd, _ => by
    have hw : Element.wrapsItself s.toVocabulary ⟨cls, o.emptyTag, none⟩ = false := by
      cases cls <;> rfl
    have hm : Element.markup s.toVocabulary ⟨cls, o.emptyTag, none⟩ = [] := by
      cases cls <;> rfl
    rw [Region.regions_of_element (read_element h rfl rest),
      treeOf_piece (t := empty cls o) rfl hd hw, hm, Region.regions_nil, ← chars_piece]
    rfl
  | metadata o body, h, hd, _ => by
    have hm : (o.enclose .metadata body).markup s.toVocabulary = [] := rfl
    rw [Region.regions_of_element (read_element h rfl rest),
      treeOf_piece (t := metadata o body) rfl hd rfl, hm, Region.regions_nil]
    rfl
  | structural o ts, h, hd, _ => by
    have ho := isOneOf_charsAll h.1 h.2.2 h.2.1
    have hm : (o.enclose .structural (charsAll ts)).markup s.toVocabulary = charsAll ts :=
      if_neg (ne_true_of_eq_false ho)
    have hd' : depth + (depthAll ts + 1) ≤ limit := hd
    have hlt : depth < limit := by omega
    have hts : Region.regions s.toVocabulary limit (depth + 1) (start + Text.size o.tag.text)
        (charsAll ts) = Tree.mapAll region (offsetsAll (start + Text.size o.tag.text) ts) :=
      regions_charsAll ts h.2.2 (by omega)
    rw [Region.regions_of_element (read_element h rfl rest),
      treeOf_piece (t := structural o ts) rfl hlt ho, hm]
    exact congrArg (Tree.node _ · :: _) hts

/-- The regions of printed markup are its nodes with their offsets. -/
theorem regions_charsAll {limit depth start : Nat} : ∀ ts : List Markup,
    WellFormedAll s ts → depth + depthAll ts ≤ limit →
    Region.regions s.toVocabulary limit depth start (charsAll ts) =
      Tree.mapAll region (offsetsAll start ts)
  | [], _, _ => Region.regions_nil
  | t :: ts, h, hd => by
    have hd' : depth + max t.depth (depthAll ts) ≤ limit := hd
    have hts : Region.regions s.toVocabulary limit depth (start + Text.size t.chars) (charsAll ts) =
        Tree.mapAll region (offsetsAll (start + Text.size t.chars) ts) :=
      regions_charsAll ts h.2.2 (by omega)
    have hnext : t.isText = true → ∀ u ∈ (Region.regions s.toVocabulary limit depth
        (start + Text.size t.chars) (charsAll ts)).head?, u.label.isProse = false := by
      intro ht u hu
      rw [hts] at hu
      cases ts with
      | nil => cases hu
      | cons t' ts =>
        have ht' : t'.isText = false := h.2.1 ht
        cases hu
        cases t' with
        | text cs => contradiction
        | _ => rfl
    rw [charsAll, regions_chars t h.1 (by omega) hnext, hts]
    rfl

end

theorem outline_charsAll {limits : Limits} {ts : List Markup} (h : WellFormedAll s ts)
    (hd : depthAll ts ≤ limits.maxDepth)
    (hs : limits.brokenBy? (Text.size (charsAll ts)) = none) :
    ProseMarkup.outline s.toVocabulary limits (charsAll ts) = (outline ts).map region := by
  have hts : Region.regions s.toVocabulary limits.maxDepth 0 0 (charsAll ts) =
      Tree.mapAll region (offsetsAll 0 ts) :=
    regions_charsAll ts h (by omega)
  rw [ProseMarkup.outline, hs, outline]
  simp only [hts]
  obtain _ | ⟨t, _ | ⟨u, us⟩⟩ := offsetsAll 0 ts <;> rfl

theorem ofRegion_region (id : Nat) (x : Nat × Markup) :
    Segment.ofRegion id (region x) = segment id x := by
  obtain ⟨start, t⟩ := x
  have hshape : Segment.Shape.ofPiece start t.piece = t.shape start := by
    cases t with
    | text cs => rfl
    | template inner => rfl
    | empty cls o => rw [piece, Segment.Shape.ofPiece, o.ofElement_empty, shape]
    | metadata o body => rw [piece, Segment.Shape.ofPiece, o.ofElement_enclose, shape]
    | structural o ts => rw [piece, Segment.Shape.ofPiece, o.ofElement_enclose, shape]
  have hchars : (region (start, t)).chars = t.chars := t.chars_piece
  rw [Segment.ofRegion, Region.span, hchars, segment]
  exact congrArg _ hshape

theorem notes_region (x : Nat × Markup) : Segment.notes (region x) = [] := by
  obtain ⟨start, t⟩ := x
  cases t with
  | text cs => rfl
  | template inner => rfl
  | empty cls o => exact congrArg Prod.snd (o.ofElement_empty cls start)
  | metadata o body => exact congrArg Prod.snd (o.ofElement_enclose .metadata start body)
  | structural o ts => exact congrArg Prod.snd (o.ofElement_enclose .structural start (charsAll ts))

theorem discovered_map_region (t : Tree (Nat × Markup)) :
    Document.discovered (t.map region) = [] := by
  have hregions : ∀ x ∈ t.preorder, (region x).notes = [] := fun _ _ => rfl
  have htags : ∀ x ∈ t.preorder, Segment.notes (region x) = [] := fun x _ => notes_region x
  rw [Document.discovered, Tree.preorder_map, List.flatMap_map, List.flatMap_map,
    List.flatMap_eq_nil_iff.mpr hregions, List.flatMap_eq_nil_iff.mpr htags, List.append_nil]

/-- Printed markup is parsed to the document that it stands for. -/
theorem parse_print (s : TagSet) (p : Parser) (hp : p.vocabulary = s.toVocabulary)
    {ts : List Markup} (h : WellFormedAll s ts) (hd : depthAll ts ≤ p.limits.maxDepth)
    (hs : ∀ n ∈ p.limits.maxBytes, (print ts).utf8ByteSize ≤ n) :
    p.parse (print ts) = document p.path ts := by
  have hsize : p.limits.brokenBy? (Text.size (charsAll ts)) = none := by
    apply Option.filter_eq_none_iff.mpr
    intro n hn
    have hle := hs n hn
    rw [print, Text.size_ofList] at hle
    simpa using hle
  have hnumber : ((outline ts).map region).number Segment.ofRegion 0 =
      (outline ts).number segment 0 := by
    have hn := Tree.number_map (k := 0) (h := id) ofRegion_region 0 (outline ts)
    rw [Tree.map_id] at hn
    exact hn
  have houtline : ProseMarkup.outline p.vocabulary p.limits (print ts).toList =
      (outline ts).map region := by
    rw [hp, print, String.toList_ofList, outline_charsAll h hd hsize]
  have hroot : (p.parse (print ts)).root = (outline ts).number segment 0 := by
    rw [Document.root_parse, houtline, hnumber]
  have hlog : (Diagnostic.Log.empty p.limits.maxDiagnostics).extend (Document.discovered
      (ProseMarkup.outline p.vocabulary p.limits (print ts).toList)) =
        .empty p.limits.maxDiagnostics := by
    rw [houtline, discovered_map_region]
    rfl
  have harrange (root : Tree Segment) : Document.arrange root [] = [] := by
    simp [Document.arrange]
  apply Document.ext
  · rfl
  · rfl
  · exact hroot
  · exact (congrArg (Document.arrange _ ·.items) hlog).trans (harrange _)
  · exact congrArg Diagnostic.Log.dropped hlog
  · rw [Document.parents_parse, hroot]
    rfl

/-- A tag in a quoted value, an element in an element of the same name, and a closing tag in a
metadata body. -/
theorem parse_print_nested :
    ∃ ts : List Markup, print ts = "a<p k='</p>{{ x }}'> <P/>b</p><m></p></m>" ∧
      Parser.sample.parse (print ts) = document none ts := by
  let value : Setting := ⟨' ', ['k'], '\'',
    [.literal ['<', '/', 'p', '>'], .template [' ', 'x', ' ']],
    by decide, by decide, by decide, by decide, by decide⟩
  let body : List Markup := [.text [' '], .empty .structural ⟨['P'], [], by decide⟩, .text ['b']]
  refine ⟨[.text ['a'], .structural ⟨['p'], [value], by decide⟩ body,
    .metadata ⟨['m'], [], by decide⟩ ['<', '/', 'p', '>']], by decide, ?_⟩
  refine parse_print ⟨⟨["p"], by decide⟩, ⟨["m"], by decide⟩⟩ Parser.sample rfl
    (by decide +kernel) (by decide) ?_
  rintro _ ⟨⟩
  decide

end Markup

end ProseMarkup
