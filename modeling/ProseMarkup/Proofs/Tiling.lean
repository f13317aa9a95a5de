import ProseMarkup.Parser
import ProseMarkup.Proofs.Ranges

namespace ProseMarkup

/-- Holds of spans of at least one byte that follow each other without a gap, from one offset to
another. -/
def Span.Tile : Nat → Nat → List Span → Prop
  | start, stop, [] => start = stop
  | start, stop, s :: ss => s.start = start ∧ start < s.stop ∧ Tile s.stop stop ss

theorem Text.length_le_size (cs : List Char) : cs.length ≤ size cs := by
  induction cs with
  | nil => exact Nat.le_refl _
  | cons c cs ih =>
    have hc := c.utf8Size_pos
    rw [List.length_cons, size_cons]
    omega

namespace Region

variable {v : Vocabulary} {limit depth start : Nat}

theorem Yields.span {cs rest : List Char} {t : Tree Region}
    (h : Yields v limit depth start cs t rest) : t.label.span = .ofText start t.label.chars := by
  rw [Region.span, h.label_start]

theorem Splits.tile {cs : List Char} {ts : List (Tree Region)}
    (h : Splits v limit depth start cs ts) :
    Span.Tile start (start + Text.size cs) (ts.map fun t => t.label.span) := by
  induction h with
  | nil => rfl
  | @cons start cs rest t ts hy _ _ ih =>
    have hp := Text.size_pos hy.chars_ne_nil
    rw [List.map_cons, hy.span, ← hy.append, Text.size_append, ← Nat.add_assoc]
    exact ⟨rfl, Nat.lt_add_of_pos_right hp, ih⟩

theorem Splits.chain {cs : List Char} {ts : List (Tree Region)}
    (h : Splits v limit depth start cs ts) :
    ts.IsChain fun a b => ¬(a.label.isProse ∧ b.label.isProse) := by
  induction h with
  | nil => exact .nil
  | @cons start cs rest t ts _ hp _ ih =>
    cases ts with
    | nil => exact .singleton t
    | cons u us =>
      refine .cons_cons ?_ ih
      rintro ⟨ht, hu⟩
      rw [hp ht u rfl] at hu
      contradiction

theorem sizeAll_prose_le (start : Nat) (chars : List Char) (notes : List Diagnostic)
    (ts : List (Tree Region)) :
    Tree.sizeAll (prose start chars notes ts) ≤ Tree.sizeAll ts + 1 := by
  unfold prose
  split
  · simp only [Tree.sizeAll, Tree.size]
    omega
  · simp only [Tree.sizeAll, Tree.size]
    omega

theorem sizeAll_regions_le (v : Vocabulary) (limit depth start : Nat) (cs : List Char) :
    Tree.sizeAll (regions v limit depth start cs) ≤ cs.length := by
  fun_induction regions v limit depth start cs with
  | case1 => exact Nat.le_refl _
  | case2 depth start cs _ passed fault rest _ hl ih =>
    apply Nat.le_trans (sizeAll_prose_le ..)
    omega
  | case3 depth start cs _ inner rest _ hl r ih =>
    simp only [Tree.sizeAll, Tree.size]
    omega
  | case4 depth start cs _ e rest h _ _ t ihm ih =>
    have ha : cs.length = e.text.length + rest.length := by
      have ha := congrArg List.length (Head.append_of_read h)
      rw [List.length_append] at ha
      exact ha.symm
    have hm := e.markup_length v
    have ht : t.size ≤ (e.markup v).length + 1 := by
      by_cases hd : depth < limit
      · simp only [t, hd, dif_pos, Tree.size]
        omega
      · simp only [t, hd, dif_neg, not_false_eq_true, Tree.size, Tree.sizeAll]
        omega
    simp only [Tree.sizeAll]
    omega

mutual

def printed : Tree Region → List Char
  | .node r [] => r.chars
  | .node r (t :: ts) =>
    match r.piece with
    | .element e =>
      e.opening.text ++ (printed t ++ printedAll ts) ++ (e.enclosed.elim [] (·.2.text))
    | _ => printed t ++ printedAll ts

def printedAll : List (Tree Region) → List Char
  | [] => []
  | t :: ts => printed t ++ printedAll ts

end

theorem printedAll_of_splits {cs : List Char} {ts : List (Tree Region)}
    (h : Splits v limit depth start cs ts) (ht : ∀ t ∈ ts, printed t = t.label.chars) :
    printedAll ts = cs := by
  induction h with
  | nil => rfl
  | cons hy _ _ ih =>
    obtain ⟨h, hs⟩ := List.forall_mem_cons.mp ht
    rw [printedAll, h, ih hs, hy.append]

theorem printed_cons (r : Region) (ts : List (Tree Region)) (h : ts ≠ []) :
    printed (.node r ts) =
      match r.piece with
      | .element e => e.opening.text ++ printedAll ts ++ (e.enclosed.elim [] (·.2.text))
      | _ => printedAll ts := by
  cases ts with
  | nil => contradiction
  | cons t ts => rfl

theorem printed_of_mem {t : Tree Region} : ∀ {depth start : Nat} {cs : List Char},
    t ∈ regions v limit depth start cs → printed t = t.label.chars := by
  induction t with
  | node r ts ih =>
    intro depth start cs ht
    by_cases hn : ts = []
    · rw [hn, printed]
      rfl
    · obtain ⟨_, _, _, _, hy⟩ := yields_of_mem ht
      obtain ⟨e, he, hm, hts⟩ := hy.children hn
      have hts : ts = regions v limit _ _ _ := hts
      have hall : printedAll ts = e.markup v := by
        apply printedAll_of_splits (hts ▸ splits_regions v limit _ _ _)
        intro t hmem
        exact ih t hmem (hts ▸ hmem)
      have he : r.piece = .element e := he
      rw [printed_cons r ts hn, he, hall]
      change _ = r.chars
      rw [Region.chars, he]
      obtain ⟨closing, _, hc, _⟩ := Element.enclosed_of_markup hm
      simp [Piece.chars, Element.text, Element.tail, hc]

theorem located_of_mem {limits : Limits} {source : List Char} {u : Tree Region}
    (hu : u ∈ (outline v limits source).subtrees) :
    ∃ before after, source = before ++ (u.label.chars ++ after) ∧
      u.label.start = Text.size before := by
  obtain ⟨_, _, rfl, _⟩ | ⟨_, before, cs, rest, after, he, hy⟩ := cases_of_mem hu
  · exact ⟨[], [], (List.append_nil _).symm, rfl⟩
  · exact ⟨before, rest ++ after, by rw [he, ← hy.append, List.append_assoc], hy.label_start⟩

theorem Yields.children_of_element {cs rest : List Char} {t : Tree Region} {e : Element}
    (h : Yields v limit depth start cs t rest) (he : t.label.piece = .element e) :
    t.children =
      regions v limit (depth + 1) (start + Text.size e.opening.text) (e.markup v) := by
  cases h with
  | prose | template => cases he
  | element h =>
    unfold treeOf at he ⊢
    split at he
    · cases he
      rw [if_pos ‹_›]
      rfl
    · cases he

theorem tile_of_mem {limits : Limits} {source body : List Char} {closing : ClosingTag}
    {u : Tree Region} {e : Element} (hu : u ∈ (outline v limits source).subtrees)
    (he : u.label.piece = .element e) (hc : e.cls = .structural)
    (hb : e.enclosed = some (body, closing)) :
    (u.children = [] ↔ body = [] ∨ Element.isOneOf v e.opening.name body) ∧
      (u.children ≠ [] →
        Span.Tile (u.label.start + Text.size e.opening.text)
          (u.label.start + Text.size e.opening.text + Text.size body)
          (u.children.map fun c => c.label.span)) := by
  have hm : e.markup v = if Element.isOneOf v e.opening.name body then [] else body := by
    simp [Element.markup, hc, hb]
  obtain ⟨_, _, rfl, _⟩ | ⟨depth, before, cs, rest, _, _, hy⟩ := cases_of_mem hu
  · cases he
  · rw [hy.label_start, hy.children_of_element he]
    constructor
    · rw [regions_eq_nil, hm]
      split <;> simp_all
    · intro hn
      have ho : ¬Element.isOneOf v e.opening.name body := fun ho =>
        hn (regions_eq_nil.mpr (hm.trans (if_pos ho)))
      rw [hm, if_neg ho]
      exact (splits_regions ..).tile

/-- Prose never stands next to prose. -/
theorem chain_of_mem {limits : Limits} {source : List Char} {u : Tree Region}
    (hu : u ∈ (outline v limits source).subtrees) :
    u.children.IsChain fun a b => ¬(a.label.isProse ∧ b.label.isProse) := by
  obtain ⟨_, ts, rfl, h⟩ | ⟨_, _, _, _, _, _, hy⟩ := cases_of_mem hu
  · obtain rfl | ⟨rfl, _⟩ := h
    · exact .nil
    · exact (splits_regions ..).chain
  · by_cases hn : u.children = []
    · rw [hn]
      exact .nil
    · obtain ⟨e, _, _, hts⟩ := hy.children hn
      rw [hts]
      exact (splits_regions ..).chain

end Region

namespace Segment

theorem slice_ofText {before chars after : List Char} {source : String}
    (h : source.toList = before ++ (chars ++ after)) :
    (Span.ofText (Text.size before) chars).slice source = .ofList chars := by
  have hn : Text.size before + Text.size chars - Text.size before = Text.size chars :=
    Nat.add_sub_cancel_left ..
  simp only [Span.slice, Span.ofText, Text.slice, h, hn, Text.dropBytes_size_append,
    Text.takeBytes_size_append]

theorem children_span (k : Nat) (u : Tree Region) :
    ((u.number ofRegion k).children.map fun c => c.label.span) =
      u.children.map fun c => c.label.span := by
  rw [Tree.children_number]
  exact Tree.map_numberAll (g := span) (h := Region.span) (fun _ _ => rfl) (k + 1) u.children

theorem children_eq_nil (k : Nat) (u : Tree Region) :
    (u.number ofRegion k).children = [] ↔ u.children = [] := by
  rw [Tree.children_number, Tree.numberAll_eq_nil]

theorem shape_ofRegion_eq_text {id : Nat} {r : Region} (h : (ofRegion id r).shape = .text) :
    (∃ chars, r.piece = .text chars) ∨ ∃ e, r.piece = .cut e := by
  cases hp : r.piece with
  | text chars => exact .inl ⟨chars, rfl⟩
  | cut e => exact .inr ⟨e, rfl⟩
  | template inner => simp [ofRegion, Shape.ofPiece, hp] at h
  | element e => simp [ofRegion, Shape.ofPiece, hp] at h

end Segment

/-- What a document owes to the outline that it was made of: each segment has the text of its span,
and the segments below a node tile the source or the body of an element. -/
structure Document.Tiling (v : Vocabulary) (t : Tree Region) (d : Document) : Prop where
  root : d.root.label.span = ⟨0, d.source.utf8ByteSize⟩
  content : ∀ s ∈ d.root.subtrees, s.label.content = s.label.span.slice d.source
  nonempty : ∀ s ∈ d.root.subtrees,
    s.label.span.start < s.label.span.stop ∨ s = d.root ∧ d.source = ""
  /-- Only the root can be prose above other segments. -/
  text : ∀ s ∈ d.root.subtrees, s.label.shape = .text → s.children ≠ [] →
    s = d.root ∧ 2 ≤ s.children.length ∧
      Span.Tile 0 d.source.utf8ByteSize (s.children.map fun c => c.label.span)
  template : ∀ s ∈ d.root.subtrees, ∀ x, s.label.shape = .template x → s.children = []
  /-- A metadata element and an element without a body have nothing below them. -/
  leaf : ∀ s ∈ d.root.subtrees, ∀ tag, s.label.shape = .element tag →
    tag.cls = .metadata ∨ tag.selfClosing → s.children = []
  /-- The regions and the segments correspond in preorder. Below a structural element its body is
  tiled, unless it is empty or one element of the same name. -/
  body : List.Forall₂ (fun u s => s.label = .ofRegion s.label.id u.label ∧
    ∀ e body closing, u.label.piece = .element e → e.cls = .structural →
      e.enclosed = some (body, closing) →
      (s.children = [] ↔ body = [] ∨ Element.isOneOf v e.opening.name body) ∧
        (s.children ≠ [] →
          Span.Tile (u.label.start + Text.size e.opening.text)
            (u.label.start + Text.size e.opening.text + Text.size body)
            (s.children.map fun c => c.label.span))) t.subtrees d.root.subtrees
  /-- Where no element is kept as text for its depth, prose never stands next to prose. -/
  siblings : (∀ r ∈ t.preorder, ∀ e, r.piece ≠ .cut e) → ∀ s ∈ d.root.subtrees,
    s.children.IsChain fun a b => ¬(a.label.shape = .text ∧ b.label.shape = .text)
  printed : Region.printed t = d.source.toList
  size : d.size ≤ d.source.utf8ByteSize + 1

namespace Region

variable {v : Vocabulary} {limits : Limits} {source : List Char}

theorem span_outline (v : Vocabulary) (limits : Limits) (source : List Char) :
    (outline v limits source).label.span = ⟨0, Text.size source⟩ := by
  obtain ⟨notes, _, h, _⟩ | h := outline_cases v limits source
  · rw [h]
    exact congrArg (Span.mk 0) (Nat.zero_add _)
  · have hy := (h ▸ splits_regions v limits.maxDepth 0 0 source).yields
    have ha := hy.append
    rw [List.append_nil] at ha
    rw [hy.span, ha]
    exact congrArg (Span.mk 0) (Nat.zero_add _)

theorem printed_outline (v : Vocabulary) (limits : Limits) (source : List Char) :
    printed (outline v limits source) = source := by
  have hs := splits_regions v limits.maxDepth 0 0 source
  have hp := printedAll_of_splits hs fun t ht => printed_of_mem ht
  obtain ⟨_, _, h, rfl | ⟨rfl, hl⟩⟩ | h := outline_cases v limits source
  · rw [h]
    rfl
  · rw [h, printed_cons _ _ (List.ne_nil_of_length_pos (Nat.lt_of_lt_of_le Nat.two_pos hl))]
    exact hp
  · rwa [h, printedAll, printedAll, List.append_nil] at hp

theorem size_outline_le (v : Vocabulary) (limits : Limits) (source : List Char) :
    (outline v limits source).size ≤ source.length + 1 := by
  have hl := sizeAll_regions_le v limits.maxDepth 0 0 source
  obtain ⟨_, _, h, rfl | ⟨rfl, _⟩⟩ | h := outline_cases v limits source
  · rw [h]
    simp [Tree.size, Tree.sizeAll]
  · rw [h, Tree.size]
    omega
  · rw [h, Tree.sizeAll, Tree.sizeAll] at hl
    omega

end Region

namespace Document

variable {p : Parser} {source : String}

theorem root_parse (p : Parser) (source : String) : (p.parse source).root =
    (outline p.vocabulary p.limits source.toList).number Segment.ofRegion 0 :=
  (Segment.build_number #[] none _).1

theorem size_parse (p : Parser) (source : String) : (p.parse source).size =
    (outline p.vocabulary p.limits source.toList).size := by
  have hsize := (Segment.build_number #[] none (outline p.vocabulary p.limits source.toList)).2
  exact hsize.trans (Nat.zero_add _)

theorem exists_region_of_mem {s : Tree Segment} (hs : s ∈ (p.parse source).root.subtrees) :
    ∃ u ∈ (outline p.vocabulary p.limits source.toList).subtrees, ∃ k,
      s = u.number Segment.ofRegion k := by
  rw [root_parse] at hs
  obtain rfl | ⟨u, hu, k, rfl⟩ := Tree.exists_of_mem_subtrees_number hs
  · exact ⟨_, Tree.mem_subtrees_self _, 0, rfl⟩
  · exact ⟨u, Tree.mem_subtrees_of_mem_below hu, k, rfl⟩

theorem exists_segment_of_mem {u : Tree Region}
    (hu : u ∈ (outline p.vocabulary p.limits source.toList).subtrees) :
    ∃ k, u.number Segment.ofRegion k ∈ (p.parse source).root.subtrees := by
  rw [root_parse]
  exact Tree.exists_number_of_mem_subtrees Segment.ofRegion 0 hu

/-- What holds between each region and its segments holds along the whole document. -/
theorem forall₂_subtrees {R : Tree Region → Tree Segment → Prop}
    (h : ∀ u ∈ (outline p.vocabulary p.limits source.toList).subtrees, ∀ k,
      R u (u.number Segment.ofRegion k)) :
    List.Forall₂ R (outline p.vocabulary p.limits source.toList).subtrees
      (p.parse source).root.subtrees := by
  have hall := Tree.subtrees_number Segment.ofRegion 0 (outline p.vocabulary p.limits source.toList)
  rw [root_parse]
  refine ((List.forall₂_and_left _ _).mpr ⟨fun u hu => hu, hall⟩).imp ?_
  rintro u _ ⟨hu, k, rfl⟩
  exact h u hu k

theorem content_of_mem {s : Tree Segment} (hs : s ∈ (p.parse source).root.subtrees) :
    s.label.content = s.label.span.slice source := by
  obtain ⟨u, hu, k, rfl⟩ := exists_region_of_mem hs
  obtain ⟨before, after, he, hstart⟩ := Region.located_of_mem hu
  rw [Tree.label_number]
  change String.ofList u.label.chars = Span.slice (.ofText u.label.start u.label.chars) source
  rw [hstart, Segment.slice_ofText he]

theorem nonempty_of_mem {s : Tree Segment} (hs : s ∈ (p.parse source).root.subtrees) :
    s.label.span.start < s.label.span.stop ∨ s = (p.parse source).root ∧ source = "" := by
  rw [root_parse] at hs ⊢
  obtain rfl | ⟨u, hu, k, rfl⟩ := Tree.exists_of_mem_subtrees_number hs
  · rw [Tree.label_number]
    change (Region.span _).start < (Region.span _).stop ∨ _
    rw [Region.span_outline]
    by_cases hn : source = ""
    · exact .inr ⟨rfl, hn⟩
    · exact .inl (Text.size_pos (by simpa using hn))
  · obtain ⟨_, _, _, _, _, _, hy⟩ := Region.yields_of_mem_below hu
    rw [Tree.label_number]
    exact .inl (Nat.lt_add_of_pos_right (Text.size_pos hy.chars_ne_nil))

theorem inner_of_mem {s : Tree Segment} (hs : s ∈ (p.parse source).root.subtrees)
    (hc : s.children ≠ []) :
    (s = (p.parse source).root ∧ s.label.shape = .text ∧ 2 ≤ s.children.length ∧
      Span.Tile 0 source.utf8ByteSize (s.children.map fun c => c.label.span)) ∨
      ∃ tag, s.label.shape = .element tag ∧ tag.cls = .structural ∧ tag.selfClosing = false := by
  have inner {u : Tree Region} {k depth start : Nat} {cs rest : List Char}
      (hy : Region.Yields p.vocabulary p.limits.maxDepth depth start cs u rest)
      (hk : s = u.number Segment.ofRegion k) :
      ∃ tag, s.label.shape = .element tag ∧ tag.cls = .structural ∧ tag.selfClosing = false := by
    subst hk
    obtain ⟨e, he, hm, _⟩ := hy.children (mt (Segment.children_eq_nil k u).mpr hc)
    obtain ⟨closing, hcls, hb, _⟩ := Element.enclosed_of_markup hm
    refine ⟨(Tag.ofElement u.label.start e).1, ?_, ?_, ?_⟩
    · rw [Tree.label_number]
      simp only [Segment.ofRegion, Segment.Shape.ofPiece, he]
    · simp only [Tag.ofElement, hb, hcls]
    · simp only [Tag.ofElement, hb]
  rw [root_parse] at hs ⊢
  obtain rfl | ⟨u, hu, k, hk⟩ := Tree.exists_of_mem_subtrees_number hs
  · obtain ⟨notes, ts, h, rfl | ⟨rfl, hl⟩⟩ | h :=
      Region.outline_cases p.vocabulary p.limits source.toList
    · rw [h] at hc
      exact absurd rfl hc
    · refine .inl ⟨rfl, ?_, ?_, ?_⟩
      · rw [Tree.label_number, h]
        rfl
      · rwa [Tree.children_number, Tree.length_numberAll, h]
      · have ht := (Region.splits_regions p.vocabulary p.limits.maxDepth 0 0 source.toList).tile
        rw [Nat.zero_add, Text.size_toList] at ht
        rwa [Segment.children_span, h]
    · exact .inr (inner (h ▸ Region.splits_regions ..).yields rfl)
  · obtain ⟨_, _, _, _, _, _, hy⟩ := Region.yields_of_mem_below hu
    exact .inr (inner hy hk)

theorem chain_of_mem (hcut : ∀ r ∈ (outline p.vocabulary p.limits source.toList).preorder, ∀ e,
      r.piece ≠ .cut e) {s : Tree Segment} (hs : s ∈ (p.parse source).root.subtrees) :
    s.children.IsChain fun a b => ¬(a.label.shape = .text ∧ b.label.shape = .text) := by
  obtain ⟨u, hu, k, rfl⟩ := exists_region_of_mem hs
  have htext : ∀ c ∈ u.children,
      (Segment.ofRegion 0 c.label).shape = .text → c.label.isProse = true := by
    intro c hc ht
    obtain ⟨chars, hp⟩ | ⟨e, hp⟩ := Segment.shape_ofRegion_eq_text ht
    · rw [Region.isProse, hp]
    · have hmem := Tree.mem_subtrees_trans (Tree.mem_subtrees_of_mem_children hc) hu
      exact absurd hp (hcut _ (Tree.mem_preorder.mpr ⟨c, hmem, rfl⟩) e)
  have hm := Tree.map_numberAll (f := Segment.ofRegion) (g := Segment.shape)
    (h := fun r => (Segment.ofRegion 0 r).shape) (fun _ _ => rfl) (k + 1) u.children
  refine (List.isChain_map (R := fun a b : Segment.Shape => ¬(a = .text ∧ b = .text))
    fun t : Tree Segment => t.label.shape).mp ?_
  rw [Tree.children_number, hm, List.isChain_map]
  apply (Region.chain_of_mem hu).imp_of_mem_imp
  intro a b ha hb hn
  rintro ⟨hat, hbt⟩
  exact hn ⟨htext a ha hat, htext b hb hbt⟩

/-- The segments of a document tile its source. -/
theorem tiling_parse (p : Parser) (source : String) :
    (p.parse source).Tiling p.vocabulary (outline p.vocabulary p.limits source.toList) where
  root := by
    have hs := Region.span_outline p.vocabulary p.limits source.toList
    rw [Text.size_toList] at hs
    rw [root_parse, Tree.label_number]
    exact hs
  content _ := content_of_mem
  nonempty _ := nonempty_of_mem
  text s hs ht hc := by
    obtain ⟨hr, _, h⟩ | ⟨tag, he, _⟩ := inner_of_mem hs hc
    · exact ⟨hr, h⟩
    · rw [ht] at he
      cases he
  template s hs x hx := by
    by_contra hc
    obtain ⟨_, ht, _⟩ | ⟨tag, he, _⟩ := inner_of_mem hs hc
    · rw [hx] at ht
      cases ht
    · rw [hx] at he
      cases he
  leaf s hs tag htag h := by
    by_contra hc
    obtain ⟨_, ht, _⟩ | ⟨tag', he, hcls, hself⟩ := inner_of_mem hs hc
    · rw [htag] at ht
      cases ht
    · rw [htag] at he
      cases he
      simp [hcls, hself] at h
  body := by
    refine forall₂_subtrees fun u hu k => ?_
    refine ⟨by rw [Tree.label_number]; rfl, fun e body closing he hc hb => ?_⟩
    rw [Segment.children_eq_nil, ne_eq, Segment.children_eq_nil, Segment.children_span]
    exact Region.tile_of_mem hu he hc hb
  siblings hcut _ := chain_of_mem hcut
  printed := Region.printed_outline ..
  size := by
    have hl := Region.size_outline_le p.vocabulary p.limits source.toList
    rw [size_parse]
    have hb := Text.length_le_size source.toList
    rw [Text.size_toList] at hb
    exact Nat.le_trans hl (Nat.succ_le_succ hb)

end Document

end ProseMarkup
