import ProseMarkup.Proofs.Subtrees
import ProseMarkup.Region.Outline

namespace ProseMarkup

theorem Element.enclosed_of_markup {v : Vocabulary} {e : Element} (hm : e.markup v ≠ []) :
    ∃ closing, e.cls = .structural ∧ e.enclosed = some (e.markup v, closing) ∧
      isOneOf v e.opening.name (e.markup v) = false := by
  cases hc : e.cls with
  | structural =>
    cases he : e.enclosed with
    | none => simp [markup, hc, he] at hm
    | some x =>
      obtain ⟨body, closing⟩ := x
      by_cases ho : isOneOf v e.opening.name body
      · simp [markup, hc, he, ho] at hm
      · exact ⟨closing, rfl, by simp [markup, hc, he, ho], by simp [markup, hc, he, ho]⟩
  | metadata => simp [markup, hc] at hm

namespace Region

def isProse (r : Region) : Bool :=
  match r.piece with
  | .text _ => true
  | _ => false

/-- Prose that a scan passes over from one text to another, head after head, with the reports on
it. -/
inductive Run (v : Vocabulary) : Nat → List Char → List Char → List Diagnostic → Prop
  | nil (start : Nat) (cs : List Char) : Run v start cs cs []
  | cons {start : Nat} {cs passed rest last : List Char} {fault : Option ProseFault}
      {notes : List Diagnostic} (hcs : cs ≠ []) (h : Head.read v cs = .prose passed fault rest)
      (run : Run v (start + Text.size passed) rest last notes) :
      Run v start cs last (fault.toList.map (·.diagnostic start) ++ notes)

def treeOf (v : Vocabulary) (limit depth start : Nat) (e : Element) : Tree Region :=
  if depth < limit then
    .node (ofElement v start e)
      (regions v limit (depth + 1) (start + Text.size e.opening.text) (e.markup v))
  else .node (ofCut limit start e) []

/-- What is cut out at the head of a text, and the text that follows it. -/
inductive Yields (v : Vocabulary) (limit depth start : Nat) :
    List Char → Tree Region → List Char → Prop
  | prose {chars rest : List Char} {notes : List Diagnostic} (hc : chars ≠ [])
      (run : Run v start (chars ++ rest) rest notes) :
      Yields v limit depth start (chars ++ rest) (.node ⟨start, .text chars, notes⟩ []) rest
  | template {cs inner rest : List Char} (h : Head.read v cs = .template inner rest) :
      Yields v limit depth start cs (.node (ofTemplate start inner) []) rest
  | element {cs rest : List Char} {e : Element} (h : Head.read v cs = .element e rest) :
      Yields v limit depth start cs (treeOf v limit depth start e) rest

/-- A text is split into regions, and prose never follows prose. -/
inductive Splits (v : Vocabulary) (limit depth : Nat) : Nat → List Char → List (Tree Region) → Prop
  | nil (start : Nat) : Splits v limit depth start [] []
  | cons {start : Nat} {cs rest : List Char} {t : Tree Region} {ts : List (Tree Region)}
      (h : Yields v limit depth start cs t rest)
      (hp : t.label.isProse → ∀ u ∈ ts.head?, u.label.isProse = false)
      (hs : Splits v limit depth (start + Text.size t.label.chars) rest ts) :
      Splits v limit depth start cs (t :: ts)

variable {v : Vocabulary} {limit depth start : Nat}

theorem regions_of_prose {cs passed rest : List Char} {fault : Option ProseFault} (hcs : cs ≠ [])
    (h : Head.read v cs = .prose passed fault rest) :
    regions v limit depth start cs = prose start passed (fault.toList.map (·.diagnostic start))
      (regions v limit depth (start + Text.size passed) rest) := by
  rw [regions, dif_neg hcs]
  split <;> simp_all

theorem regions_of_template {cs inner rest : List Char}
    (h : Head.read v cs = .template inner rest) :
    regions v limit depth start cs = .node (ofTemplate start inner) [] ::
      regions v limit depth (start + Text.size (Piece.template inner).chars) rest := by
  have hcs : cs ≠ [] := by
    rintro rfl
    cases h
  rw [regions, dif_neg hcs]
  split
  · simp_all
  · rename_i h'
    cases h'.symm.trans h
    rfl
  · simp_all

theorem regions_of_element {cs rest : List Char} {e : Element}
    (h : Head.read v cs = .element e rest) :
    regions v limit depth start cs = treeOf v limit depth start e ::
      regions v limit depth (start + Text.size e.text) rest := by
  have hcs : cs ≠ [] := by
    rintro rfl
    cases h
  rw [regions, dif_neg hcs]
  split
  · simp_all
  · simp_all
  · rename_i h'
    cases h'.symm.trans h
    rfl
theorem treeOf_chars (e : Element) : (treeOf v limit depth start e).label.chars = e.text := by
  unfold treeOf
  split <;> rfl

theorem treeOf_start (e : Element) : (treeOf v limit depth start e).label.start = start := by
  unfold treeOf
  split <;> rfl

theorem treeOf_isProse (e : Element) :
    (treeOf v limit depth start e).label.isProse = false := by
  unfold treeOf
  split <;> rfl

namespace Yields

theorem append {cs rest : List Char} {t : Tree Region} (h : Yields v limit depth start cs t rest) :
    t.label.chars ++ rest = cs := by
  cases h with
  | prose => rfl
  | template h => exact Head.append_of_read h
  | element h =>
    rw [treeOf_chars]
    exact Head.append_of_read h

theorem label_start {cs rest : List Char} {t : Tree Region}
    (h : Yields v limit depth start cs t rest) : t.label.start = start := by
  cases h with
  | prose | template => rfl
  | element => exact treeOf_start _

theorem chars_ne_nil {cs rest : List Char} {t : Tree Region}
    (h : Yields v limit depth start cs t rest) : t.label.chars ≠ [] := by
  cases h with
  | prose hc => exact hc
  | template => exact List.cons_ne_nil _ _
  | element =>
    rw [treeOf_chars]
    exact List.length_pos_iff.mp (Element.text_length_pos _)

end Yields

theorem prose_eq_cons {chars : List Char} {notes : List Diagnostic} {ts : List (Tree Region)}
    (h : ∀ u ∈ ts.head?, u.label.isProse = false) :
    prose start chars notes ts = .node ⟨start, .text chars, notes⟩ [] :: ts := by
  unfold prose
  split
  · exact absurd (h _ rfl) nofun
  · rfl

/-- Prose is put before regions by a cut of its own, or by a longer first cut. -/
theorem Splits.prose {cs passed rest : List Char} {fault : Option ProseFault}
    {ts : List (Tree Region)} (hcs : cs ≠ []) (h : Head.read v cs = .prose passed fault rest)
    (hs : Splits v limit depth (start + Text.size passed) rest ts) :
    Splits v limit depth start cs
      (Region.prose start passed (fault.toList.map (·.diagnostic start)) ts) := by
  have ha : passed ++ rest = cs := Head.append_of_read h
  have hp : passed ≠ [] := Head.chars_ne_nil_of_read hcs h
  subst ha
  have alone (hh : ∀ u ∈ ts.head?, u.label.isProse = false) :
      Splits v limit depth start (passed ++ rest)
        (Region.prose start passed (fault.toList.map (·.diagnostic start)) ts) := by
    rw [prose_eq_cons hh]
    have run := Run.cons hcs h (.nil (start + Text.size passed) rest)
    rw [List.append_nil] at run
    exact .cons (.prose hp run) (fun _ => hh) hs
  cases hs with
  | nil => exact alone nofun
  | @cons _ _ last t ts hy hn hs =>
    cases hy with
    | @prose chars _ notes hc run =>
      have run := Run.cons hcs h run
      rw [← List.append_assoc] at run
      have hy : Yields v limit depth start (passed ++ chars ++ last) _ last :=
        .prose (List.append_ne_nil_of_left_ne_nil hp chars) run
      rw [List.append_assoc] at hy
      refine .cons hy hn ?_
      change Splits v limit depth (start + Text.size (passed ++ chars)) last ts
      rw [show start + Text.size (passed ++ chars) = start + Text.size passed + Text.size chars by
        rw [Text.size_append, Nat.add_assoc]]
      exact hs
    | template => exact alone (by rintro _ ⟨⟩; rfl)
    | element => exact alone (by rintro _ ⟨⟩; exact treeOf_isProse _)

/-- The regions of a text split it. -/
theorem splits_regions (v : Vocabulary) (limit depth start : Nat) (cs : List Char) :
    Splits v limit depth start cs (regions v limit depth start cs) := by
  fun_induction regions v limit depth start cs with
  | case1 depth start => exact .nil start
  | case2 depth start cs hcs passed fault rest h _ ih => exact ih.prose hcs h
  | case3 depth start cs hcs inner rest h _ r ih => exact .cons (.template h) nofun ih
  | case4 depth start cs hcs e rest h _ _ t _ ih =>
    change Splits v limit depth start cs (treeOf v limit depth start e :: _)
    refine .cons (.element h) ?_ ?_
    · rw [treeOf_isProse]
      nofun
    · rw [treeOf_chars]
      exact ih

theorem regions_eq_nil {cs : List Char} : regions v limit depth start cs = [] ↔ cs = [] := by
  constructor
  · intro h
    have hs := splits_regions v limit depth start cs
    rw [h] at hs
    cases hs
    rfl
  · rintro rfl
    simp [regions]

theorem regions_nil : regions v limit depth start [] = [] :=
  regions_eq_nil.mpr rfl

theorem Splits.mem {cs : List Char} {t : Tree Region} {ts : List (Tree Region)}
    (h : Splits v limit depth start cs ts) (ht : t ∈ ts) :
    ∃ before cs' rest, cs = before ++ cs' ∧
      Yields v limit depth (start + Text.size before) cs' t rest := by
  induction h with
  | nil => cases ht
  | @cons start cs rest u ts hy _ _ ih =>
    obtain rfl | ht := List.mem_cons.mp ht
    · exact ⟨[], cs, rest, rfl, hy⟩
    · obtain ⟨before, cs', rest', rfl, hy'⟩ := ih ht
      refine ⟨u.label.chars ++ before, cs', rest', ?_, ?_⟩
      · rw [List.append_assoc, hy.append]
      · rwa [Text.size_append, ← Nat.add_assoc]

theorem yields_of_mem {cs : List Char} {t : Tree Region}
    (h : t ∈ regions v limit depth start cs) :
    ∃ before cs' rest, cs = before ++ cs' ∧
      Yields v limit depth (start + Text.size before) cs' t rest :=
  (splits_regions v limit depth start cs).mem h

theorem Yields.children {cs rest : List Char} {t : Tree Region}
    (h : Yields v limit depth start cs t rest) (hc : t.children ≠ []) :
    ∃ e, t.label.piece = .element e ∧ e.markup v ≠ [] ∧
      t.children = regions v limit (depth + 1) (start + Text.size e.opening.text) (e.markup v) := by
  cases h with
  | prose | template => exact absurd rfl hc
  | @element _ _ e h =>
    unfold treeOf at hc ⊢
    split
    · rename_i hd
      refine ⟨e, rfl, fun hm => hc ?_, rfl⟩
      rw [if_pos hd]
      exact regions_eq_nil.mpr hm
    · rename_i hd
      rw [if_neg hd] at hc
      exact absurd rfl hc

theorem Yields.of_mem_subtrees {t u : Tree Region} (hu : u ∈ t.subtrees) :
    ∀ {depth start : Nat} {cs rest : List Char}, Yields v limit depth start cs t rest →
      ∃ depth' start' cs' rest', Yields v limit depth' start' cs' u rest' := by
  induction t with
  | node a ts ih =>
    intro depth start cs rest h
    obtain rfl | ⟨c, hc, hu⟩ := Tree.mem_subtrees_node.mp hu
    · exact ⟨depth, start, cs, rest, h⟩
    · obtain ⟨e, -, -, hts⟩ := h.children (List.ne_nil_of_mem hc)
      rw [Tree.children] at hts
      obtain ⟨_, _, _, -, hy⟩ := yields_of_mem (hts ▸ hc)
      exact ih c hc hu hy

/-- The ranges of a source that are scanned, each with the number of elements around it and its
first offset. -/
inductive Range (v : Vocabulary) (limit : Nat) (source : List Char) : Nat → Nat → List Char → Prop
  | source : Range v limit source 0 0 source
  | markup {depth start : Nat} {cs : List Char} {t : Tree Region} {e : Element}
      (h : Range v limit source depth start cs) (ht : t ∈ regions v limit depth start cs)
      (he : t.label.piece = .element e) (hm : e.markup v ≠ []) :
      Range v limit source (depth + 1) (t.label.start + Text.size e.opening.text) (e.markup v)

theorem text_eq_of_markup {e : Element} (hm : e.markup v ≠ []) :
    ∃ tail, e.text = e.opening.text ++ (e.markup v ++ '<' :: tail) := by
  obtain ⟨closing, _, he, _⟩ := Element.enclosed_of_markup hm
  exact ⟨closing.text.tail, by rw [Element.text, Element.tail, he]; rfl⟩

theorem Yields.piece_chars {cs rest : List Char} {t : Tree Region} {e : Element}
    (h : Yields v limit depth start cs t rest) (he : t.label.piece = .element e) :
    cs = e.text ++ rest := by
  rw [← h.append, Region.chars, he]
  rfl

namespace Range

variable {source : List Char}

theorem context {cs : List Char} (h : Range v limit source depth start cs) :
    ∃ before after, source = before ++ (cs ++ after) ∧ Text.size before = start ∧
      (after = [] ∨ ∃ tail, after = '<' :: tail) := by
  induction h with
  | source => exact ⟨[], [], (List.append_nil _).symm, rfl, .inl rfl⟩
  | @markup depth start cs t e _ ht he hm ih =>
    obtain ⟨before, after, rfl, rfl, _⟩ := ih
    obtain ⟨left, cs', rest, rfl, hy⟩ := yields_of_mem ht
    obtain ⟨tail, hx⟩ := text_eq_of_markup hm
    refine ⟨before ++ (left ++ e.opening.text), '<' :: tail ++ (rest ++ after), ?_, ?_,
      .inr ⟨_, rfl⟩⟩
    · rw [hy.piece_chars he, hx]
      simp only [List.append_assoc, List.cons_append]
    · rw [hy.label_start]
      simp only [Text.size_append, Nat.add_assoc]

theorem of_mem_subtrees {t u : Tree Region} (hu : u ∈ t.subtrees) :
    ∀ {depth start : Nat} {cs : List Char}, Range v limit source depth start cs →
      t ∈ regions v limit depth start cs →
      ∃ depth' start' cs', Range v limit source depth' start' cs' ∧
        u ∈ regions v limit depth' start' cs' := by
  induction t with
  | node a ts ih =>
    intro depth start cs h ht
    obtain rfl | ⟨c, hc, hu⟩ := Tree.mem_subtrees_node.mp hu
    · exact ⟨depth, start, cs, h, ht⟩
    · obtain ⟨before, cs', rest, rfl, hy⟩ := yields_of_mem ht
      obtain ⟨e, he, hm, hts⟩ := hy.children (List.ne_nil_of_mem hc)
      have hr := h.markup ht he hm
      rw [hy.label_start] at hr
      exact ih c hc hu hr (hts ▸ hc)

end Range

theorem Splits.yields {cs : List Char} {t : Tree Region} (h : Splits v limit depth start cs [t]) :
    Yields v limit depth start cs t [] := by
  cases h with
  | cons hy _ hs =>
    cases hs
    exact hy

theorem outline_cases (v : Vocabulary) (limits : Limits) (source : List Char) :
    (∃ notes ts, outline v limits source = .node ⟨0, .text source, notes⟩ ts ∧
      (ts = [] ∨ ts = regions v limits.maxDepth 0 0 source ∧ 2 ≤ ts.length)) ∨
      regions v limits.maxDepth 0 0 source = [outline v limits source] := by
  unfold outline
  split
  · exact .inl ⟨_, [], rfl, .inl rfl⟩
  · split
    · rename_i h
      exact .inr h
    · rename_i hn
      rcases h : regions v limits.maxDepth 0 0 source with _ | ⟨t, _ | ⟨u, us⟩⟩
      · exact .inl ⟨_, [], rfl, .inl rfl⟩
      · exact absurd h (hn t)
      · exact .inl ⟨_, _, rfl, .inr ⟨rfl, by simp⟩⟩

/-- Every region below the root of an outline is one of the regions of some range. -/
theorem exists_range_of_mem {limits : Limits} {source : List Char} {u : Tree Region}
    (hu : u ∈ Tree.subtreesAll (outline v limits source).children) :
    ∃ depth start cs, Range v limits.maxDepth source depth start cs ∧
      u ∈ regions v limits.maxDepth depth start cs := by
  obtain ⟨t, ht, hut⟩ := Tree.mem_subtreesAll.mp hu
  obtain ⟨_, ts, h, rfl | ⟨rfl, _⟩⟩ | h := outline_cases v limits source
  · rw [h] at ht
    cases ht
  · rw [h] at ht
    exact Range.of_mem_subtrees hut .source ht
  · have hut : u ∈ (outline v limits source).subtrees := by
      rcases hr : outline v limits source with ⟨r, ts⟩
      rw [hr] at ht
      exact Tree.mem_subtrees_node.mpr (.inr ⟨t, ht, hut⟩)
    exact Range.of_mem_subtrees hut .source (h ▸ List.mem_singleton_self _)

theorem exists_range_of_piece {limits : Limits} {source : List Char} {u : Tree Region}
    (hu : u ∈ (outline v limits source).subtrees) (hp : ∀ chars, u.label.piece ≠ .text chars) :
    ∃ depth start cs, Range v limits.maxDepth source depth start cs ∧
      u ∈ regions v limits.maxDepth depth start cs := by
  obtain rfl | hu := Tree.eq_or_mem_of_mem_subtrees hu
  · obtain ⟨notes, ts, h, -⟩ | h := outline_cases v limits source
    · rw [h] at hp
      exact absurd rfl (hp source)
    · exact ⟨0, 0, source, .source, h ▸ List.mem_singleton_self _⟩
  · exact exists_range_of_mem hu

theorem yields_of_mem_below {limits : Limits} {source : List Char} {u : Tree Region}
    (hu : u ∈ Tree.subtreesAll (outline v limits source).children) :
    ∃ depth before cs rest after, source = before ++ (cs ++ after) ∧
      Yields v limits.maxDepth depth (Text.size before) cs u rest := by
  obtain ⟨depth, start, cs, hr, hm⟩ := exists_range_of_mem hu
  obtain ⟨before, after, rfl, rfl, _⟩ := hr.context
  obtain ⟨left, cs', rest, rfl, hy⟩ := yields_of_mem hm
  rw [← Text.size_append] at hy
  exact ⟨depth, before ++ left, cs', rest, after, by simp only [List.append_assoc], hy⟩

theorem cases_of_mem {limits : Limits} {source : List Char} {u : Tree Region}
    (hu : u ∈ (outline v limits source).subtrees) :
    (∃ notes ts, u = .node ⟨0, .text source, notes⟩ ts ∧
      (ts = [] ∨ ts = regions v limits.maxDepth 0 0 source ∧ 2 ≤ ts.length)) ∨
      ∃ depth before cs rest after, source = before ++ (cs ++ after) ∧
        Yields v limits.maxDepth depth (Text.size before) cs u rest := by
  obtain rfl | hu := Tree.eq_or_mem_of_mem_subtrees hu
  · obtain h | h := outline_cases v limits source
    · exact .inl h
    · exact .inr ⟨0, [], source, [], [], (List.append_nil _).symm,
        (h ▸ splits_regions v limits.maxDepth 0 0 source).yields⟩
  · exact .inr (yields_of_mem_below hu)

end Region

def Piece.element? : Piece → Option Element
  | .element e | .cut e => some e
  | .text _ | .template _ => none

theorem Region.read_of_mem {v : Vocabulary} {limits : Limits} {source : List Char}
    {u : Tree Region} {e : Element} (hu : u ∈ (outline v limits source).subtrees)
    (he : u.label.piece.element? = some e) : ∃ before cs rest after,
      source = before ++ (cs ++ after) ∧ u.label.start = Text.size before ∧
        Head.read v cs = .element e rest := by
  obtain ⟨_, _, rfl, -⟩ | ⟨depth, before, cs, rest, after, hs, hy⟩ := cases_of_mem hu
  · cases he
  · refine ⟨before, cs, rest, after, hs, ?_⟩
    cases hy with
    | prose | template => cases he
    | element h =>
      unfold treeOf at he ⊢
      split at he <;> cases he <;> exact ⟨by split <;> rfl, h⟩

end ProseMarkup
