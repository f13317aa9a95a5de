import ProseMarkup.Proofs.Nesting
import ProseMarkup.Proofs.Shift.Tags

namespace ProseMarkup

namespace Lexer

theorem size_skipBlanks (l : Lexer) : l.offset ≤ l.skipBlanks.offset ∧
    l.skipBlanks.offset + Text.size l.skipBlanks.rest = l.offset + Text.size l.rest := by
  unfold skipBlanks
  split
  · have hsize : Text.size (l.rest.takeWhile Text.isBlank) +
        Text.size (l.rest.dropWhile Text.isBlank) = Text.size l.rest := by
      rw [← Text.size_append, List.takeWhile_append_dropWhile]
    exact ⟨Nat.le_add_right .., by rw [Nat.add_assoc, hsize]⟩
  · exact ⟨Nat.le_refl _, rfl⟩

theorem size_take {l l' : Lexer} {t : Token} (h : l.take = (some t, l')) :
    t.start = l.offset ∧ t.start < l'.offset ∧
      l'.offset + Text.size l'.rest = l.offset + Text.size l.rest := by
  by_cases hr : l.rest = []
  · simp [take, hr] at h
  · have hpos := Text.size_pos (l.mode.read_text_ne_nil hr)
    have hsize := congrArg Text.size (l.mode.read_append l.rest)
    rw [Text.size_append] at hsize
    simp only [take, hr, if_false, Prod.mk.injEq, Option.some.injEq] at h
    obtain ⟨rfl, rfl⟩ := h
    exact ⟨rfl, Nat.lt_add_of_pos_right hpos, by rw [Nat.add_assoc, hsize]⟩

theorem size_next {l l' : Lexer} {t : Token} (h : l.next = (some t, l')) :
    l.offset ≤ t.start ∧ t.start < l'.offset ∧
      l'.offset + Text.size l'.rest = l.offset + Text.size l.rest := by
  have hsettled : l.settled.offset = l.offset := by
    unfold settled
    split <;> rfl
  obtain ⟨hle, hblanks⟩ := size_skipBlanks l.settled
  obtain ⟨hstart, hlt, htake⟩ := size_take h
  rw [hsettled] at hle
  rw [hsettled, settled_rest] at hblanks
  exact ⟨hstart ▸ hle, hlt, htake.trans hblanks⟩

theorem start_of_mem_drain {l : Lexer} {t : Token} (h : t ∈ l.drain.1) :
    l.offset ≤ t.start ∧ t.start < l.offset + Text.size l.rest := by
  fun_induction drain l with
  | case1 => cases h
  | case2 l u l' hn _ ts last hd ih =>
    obtain ⟨hle, hlt, hsize⟩ := size_next hn
    obtain rfl | h := List.mem_cons.mp h
    · exact ⟨hle, by omega⟩
    · rw [hd] at ih
      obtain ⟨hle', hlt'⟩ := ih h
      exact ⟨by omega, by omega⟩

end Lexer

namespace Attribute

structure Reading.From {α : Type} (ts : List Token) (r : Reading α) : Prop where
  notes : ∀ d ∈ r.notes, d.kind ≠ .closingTagMismatch ∧ ∃ t ∈ ts, d.span.start = t.start
  rest : r.rest ⊆ ts

variable {α β : Type}

theorem Reading.From.mono {ts us : List Token} {r : Reading α} (h : r.From ts) (hs : ts ⊆ us) :
    r.From us where
  notes d hd :=
    have ⟨hk, t, ht, hstart⟩ := h.notes d hd
    ⟨hk, t, hs ht, hstart⟩
  rest := List.Subset.trans h.rest hs

theorem readTemplate_from (opened : Token) (inner : String) (ts : List Token) :
    (readTemplate opened inner ts).From (opened :: ts) ∧
      (readTemplate opened inner ts).value.span.start = opened.start := by
  have unterminated (inner : String) (ts : List Token) :
      (readTemplate.unterminated opened inner ts).From (opened :: ts) := by
    refine ⟨fun d hd => ?_, List.subset_cons_self _ _⟩
    obtain rfl := List.mem_singleton.mp hd
    exact ⟨by rintro ⟨⟩, opened, List.mem_cons_self, rfl⟩
  induction ts generalizing inner with
  | nil => exact ⟨unterminated inner [], rfl⟩
  | cons t ts ih =>
    rw [readTemplate]
    split
    · refine ⟨⟨List.forall_mem_nil _, fun x hx => ?_⟩, rfl⟩
      exact List.mem_cons_of_mem _ (List.mem_cons_of_mem _ hx)
    · obtain ⟨hfrom, hstart⟩ := ih (inner ++ t.text)
      exact ⟨hfrom.mono (List.cons_subset_cons _ (List.subset_cons_self _ _)), hstart⟩
    · exact ⟨unterminated inner (t :: ts), rfl⟩

theorem readQuoted_from (opened : Token) (stop : Nat) (ts : List Token) :
    (readQuoted opened stop ts).From (opened :: ts) := by
  fun_induction readQuoted opened stop ts with
  | case1 =>
    refine ⟨fun d hd => ?_, List.nil_subset _⟩
    obtain rfl := List.mem_singleton.mp hd
    exact ⟨by rintro ⟨⟩, opened, List.mem_cons_self, rfl⟩
  | case2 t ts =>
    refine ⟨List.forall_mem_nil _, fun x hx => ?_⟩
    exact List.mem_cons_of_mem _ (List.mem_cons_of_mem _ hx)
  | case3 t ts _ _ f r ih =>
    have hf := (readTemplate_from t "" ts).1
    have hr : r.From (opened :: t :: ts) := ih.mono (List.cons_subset_cons _ hf.rest)
    refine ⟨fun d hd => ?_, hr.rest⟩
    obtain hd | hd := List.mem_append.mp hd
    · exact (hf.mono (List.subset_cons_self _ _)).notes d hd
    · exact hr.notes d hd
  | case4 t ts r _ _ ih =>
    have hr : r.From (opened :: t :: ts) :=
      ih.mono (List.cons_subset_cons _ (List.subset_cons_self _ _))
    exact ⟨hr.notes, hr.rest⟩

theorem withoutValue_from {key : Token} {note : Diagnostic} {ts us : List Token}
    (hk : note.kind ≠ .closingTagMismatch) (hs : note.span.start = key.start) (hu : us ⊆ ts) :
    (withoutValue key note us).From (key :: ts) := by
  refine ⟨fun d hd => ?_, fun x hx => List.mem_cons_of_mem _ (hu hx)⟩
  obtain rfl := List.mem_singleton.mp hd
  exact ⟨hk, key, List.mem_cons_self, hs⟩

theorem readValue_from (key equals : Token) (stop : Nat) (ts : List Token) :
    (readValue key equals stop ts).From (key :: ts) := by
  have unquoted {t : Token} {ts : List Token} {r : Reading Fragment} (hr : r.From (t :: ts))
      (hs : r.value.span.start = t.start) :
      (readValue.unquoted key r).From (key :: t :: ts) := by
    refine ⟨fun d hd => ?_, fun x hx => List.mem_cons_of_mem _ (hr.rest hx)⟩
    obtain hd | hd := List.mem_append.mp hd
    · exact (hr.mono (List.subset_cons_self _ _)).notes d hd
    · obtain rfl := List.mem_singleton.mp hd
      exact ⟨by rintro ⟨⟩, t, List.mem_cons_of_mem _ List.mem_cons_self, hs⟩
  cases ts with
  | nil => exact withoutValue_from (by rintro ⟨⟩) rfl (List.Subset.refl _)
  | cons t ts =>
    rw [readValue]
    split
    · have hr := readQuoted_from t stop ts
      exact ⟨(hr.mono (List.subset_cons_self _ _)).notes,
        fun x hx => List.mem_cons_of_mem _ (hr.rest hx)⟩
    · exact unquoted ⟨List.forall_mem_nil _, List.subset_cons_self _ _⟩ rfl
    · exact unquoted ⟨List.forall_mem_nil _, List.subset_cons_self _ _⟩ rfl
    · obtain ⟨hr, hs⟩ := readTemplate_from t "" ts
      exact unquoted hr hs
    · exact withoutValue_from (by rintro ⟨⟩) rfl (List.Subset.refl _)

theorem read_from (key : Token) (stop : Nat) (ts : List Token) :
    (read key stop ts).From (key :: ts) := by
  cases ts with
  | nil => exact withoutValue_from nofun rfl (List.Subset.refl _)
  | cons t ts =>
    rw [read]
    split
    · exact (readValue_from key t stop ts).mono
        (List.cons_subset_cons _ (List.subset_cons_self _ _))
    · exact withoutValue_from nofun rfl (List.Subset.refl _)

theorem start_of_mem_readAll {stop : Nat} {ts : List Token} {d : Diagnostic}
    (h : d ∈ (readAll stop ts).2) :
    d.kind ≠ .closingTagMismatch ∧ ∃ t ∈ ts, d.span.start = t.start := by
  have later {ts us : List Token} (hs : us ⊆ ts)
      (h : d.kind ≠ .closingTagMismatch ∧ ∃ t ∈ us, d.span.start = t.start) :
      d.kind ≠ .closingTagMismatch ∧ ∃ t ∈ ts, d.span.start = t.start :=
    have ⟨hk, t, ht, hstart⟩ := h
    ⟨hk, t, hs ht, hstart⟩
  fun_induction readAll stop ts with
  | case1 => cases h
  | case2 => cases h
  | case3 => cases h
  | case4 t ts _ _ r attributes notes hr ih =>
    have hfrom := read_from t stop ts
    rw [hr] at ih
    obtain h | h := List.mem_append.mp h
    · exact hfrom.notes d h
    · exact later hfrom.rest (ih h)
  | case5 t ts _ _ attributes notes hr ih =>
    rw [hr] at ih
    obtain rfl | h := List.mem_cons.mp h
    · exact ⟨by rintro ⟨⟩, t, List.mem_cons_self, rfl⟩
    · have hsuffix : skipQuoted ts <:+ ts :=
        (List.tail_suffix _).trans (List.dropWhile_suffix _)
      exact later (fun x hx => List.mem_cons_of_mem _ (hsuffix.subset hx)) (ih h)
  | case6 t ts _ _ r attributes notes hr ih =>
    obtain ⟨hfrom, hstart⟩ := readTemplate_from t "" ts
    rw [hr] at ih
    obtain h | h := List.mem_append.mp h
    · exact hfrom.notes d h
    · obtain rfl | h := List.mem_cons.mp h
      · exact ⟨by rintro ⟨⟩, t, List.mem_cons_self, hstart⟩
      · exact later hfrom.rest (ih h)
  | case7 t ts attributes notes hr _ _ _ _ _ ih =>
    rw [hr] at ih
    obtain rfl | h := List.mem_cons.mp h
    · exact ⟨by rintro ⟨⟩, t, List.mem_cons_self, rfl⟩
    · exact later (List.subset_cons_self _ _) (ih h)

end Attribute

/-- A report on the tags of an element starts in its opening tag, or is one on its closing tag. -/
theorem Tag.place_of_note {start : Nat} {e : Element} {d : Diagnostic}
    (h : d ∈ (ofElement start e).2) :
    (d.kind ≠ .closingTagMismatch ∧ start ≤ d.span.start ∧
      d.span.start < start + Text.size e.opening.text) ∨
    ∃ body closing, e.enclosed = some (body, closing) ∧ d.kind = .closingTagMismatch ∧
      d.span = .ofText (start + Text.size e.opening.text + Text.size body) closing.text := by
  have opening {stop : Nat} (h : d ∈ (Attribute.readAll stop
      ((Lexer.ofText start e.opening.text).tokens.drop 2)).2) :
      d.kind ≠ .closingTagMismatch ∧ start ≤ d.span.start ∧
        d.span.start < start + Text.size e.opening.text := by
    obtain ⟨hk, t, ht, hstart⟩ := Attribute.start_of_mem_readAll h
    rw [hstart]
    exact ⟨hk, Lexer.start_of_mem_drain (List.mem_of_mem_drop ht)⟩
  cases he : e.enclosed with
  | none =>
    simp only [ofElement, he] at h
    exact .inl (opening h)
  | some x =>
    obtain ⟨body, closing⟩ := x
    simp only [ofElement, he] at h
    obtain h | h := List.mem_append.mp h
    · exact .inl (opening h)
    · obtain ⟨name, -, h⟩ := List.mem_flatMap.mp h
      rw [mismatch] at h
      split at h
      · cases h
      · obtain rfl := List.mem_singleton.mp h
        exact .inr ⟨body, closing, rfl, rfl, rfl⟩

namespace Region

variable {v : Vocabulary} {limit depth start : Nat}

/-- A place in a region and in none of those below it. -/
def Owns (t : Tree Region) (n : Nat) : Prop :=
  t.label.span.contains n = true ∧ ∀ c ∈ t.children, ¬c.label.span.contains n = true

theorem Run.start_of_note {cs last : List Char} {notes : List Diagnostic}
    (run : Run v start cs last notes) :
    ∃ chars, cs = chars ++ last ∧
      ∀ d ∈ notes, start ≤ d.span.start ∧ d.span.start < start + Text.size chars := by
  induction run with
  | nil => exact ⟨[], rfl, nofun⟩
  | @cons start cs passed rest last fault notes hcs h _ ih =>
    obtain ⟨chars, rfl, hnotes⟩ := ih
    have ha : passed ++ (chars ++ last) = cs := Head.append_of_read h
    have hpos : 0 < Text.size passed := Text.size_pos (Head.chars_ne_nil_of_read hcs h)
    refine ⟨passed ++ chars, ?_, fun d hd => ?_⟩
    · rw [← ha, List.append_assoc]
    · rw [Text.size_append]
      obtain hd | hd := List.mem_append.mp hd
      · obtain ⟨f, -, rfl⟩ := List.mem_map.mp hd
        have hstart : (f.diagnostic start).span.start = start := by cases f <;> rfl
        omega
      · have hd := hnotes d hd
        omega

theorem owns_of_lt {t : Tree Region} {e : Element}
    (ht : t = .node (ofElement v start e)
      (regions v limit (depth + 1) (start + Text.size e.opening.text) (e.markup v))) {n : Nat}
    (hle : start ≤ n) (hlt : n < start + Text.size e.opening.text) : Owns t n := by
  subst ht
  constructor
  · apply Span.contains_iff.mpr
    change start ≤ n ∧ n < start + Text.size e.text
    rw [Element.text, Text.size_append]
    omega
  · intro c hc hn
    have htile := (splits_regions v limit (depth + 1) (start + Text.size e.opening.text)
      (e.markup v)).tile
    obtain ⟨hstart, -⟩ := htile.bounds (List.mem_map_of_mem hc)
    have hn := (Span.contains_iff.mp hn).1
    omega

theorem owns_closing {t : Tree Region} {e : Element} {body : List Char} {closing : ClosingTag}
    (ht : t = .node (ofElement v start e)
      (regions v limit (depth + 1) (start + Text.size e.opening.text) (e.markup v)))
    (he : e.enclosed = some (body, closing)) :
    Owns t (start + Text.size e.opening.text + Text.size body) := by
  subst ht
  constructor
  · apply Span.contains_iff.mpr
    have hpos : 0 < Text.size closing.text := Text.size_pos (List.cons_ne_nil _ _)
    have htail : e.tail = body ++ closing.text := by rw [Element.tail, he]
    change _ ∧ _ < start + Text.size e.text
    rw [Element.text, htail, Text.size_append, Text.size_append]
    exact ⟨by change start ≤ _; omega, by omega⟩
  · intro c hc hn
    by_cases hm : e.markup v = []
    · rw [Tree.children, hm, regions_eq_nil.mpr rfl] at hc
      cases hc
    · obtain ⟨_, -, he', -⟩ := Element.enclosed_of_markup hm
      obtain ⟨rfl, -⟩ := Prod.mk.inj (Option.some.inj (he.symm.trans he'))
      have htile := (splits_regions v limit (depth + 1) (start + Text.size e.opening.text)
        (e.markup v)).tile
      obtain ⟨-, -, hstop⟩ := htile.bounds (List.mem_map_of_mem hc)
      have hn := (Span.contains_iff.mp hn).2
      omega

theorem Yields.place_of_note {cs rest : List Char} {t : Tree Region}
    (h : Yields v limit depth start cs t rest) {d : Diagnostic}
    (hd : d ∈ t.label.notes ++ Segment.notes t.label) : Owns t d.span.start := by
  cases h with
  | @prose chars rest notes hc run =>
    obtain ⟨chars', he, hnotes⟩ := run.start_of_note
    obtain rfl := List.append_cancel_right he
    have hd : d ∈ notes ++ [] := hd
    rw [List.append_nil] at hd
    exact ⟨Span.contains_iff.mpr (hnotes d hd), List.forall_mem_nil _⟩
  | template => cases hd
  | @element cs rest e h =>
    unfold treeOf at hd ⊢
    split at hd
    · rw [if_pos ‹_›]
      have hopening : 0 < Text.size e.opening.text := Text.size_pos (List.cons_ne_nil _ _)
      obtain hd | hd := List.mem_append.mp hd
      · have hstart : d.span.start = start := by
          simp only [Tree.label, ofElement] at hd
          split at hd
          · obtain rfl := List.mem_singleton.mp hd
            rfl
          · cases hd
        exact owns_of_lt rfl (by omega) (by omega)
      · obtain ⟨-, hle, hlt⟩ | ⟨body, closing, he, -, hspan⟩ := Tag.place_of_note hd
        · exact owns_of_lt rfl hle hlt
        · rw [hspan]
          exact owns_closing rfl he
    · rw [if_neg ‹_›]
      obtain rfl : d = _ := List.mem_singleton.mp hd
      refine ⟨Span.contains_iff.mpr ⟨Nat.le_refl _, ?_⟩, List.forall_mem_nil _⟩
      exact Nat.lt_add_of_pos_right (Text.size_pos (List.cons_ne_nil _ _))

theorem cases_of_note {limits : Limits} {source : List Char} {u : Tree Region}
    (hu : u ∈ (outline v limits source).subtrees) {d : Diagnostic}
    (hd : d ∈ u.label.notes ++ Segment.notes u.label) :
    (∃ limit < Text.size source, d = .inputTooLarge (Text.size source) limit ∧
      u = .node ⟨0, .text source, [d]⟩ []) ∨
      ∃ depth before cs rest after, source = before ++ (cs ++ after) ∧
        Yields v limits.maxDepth depth (Text.size before) cs u rest := by
  obtain rfl | hu := Tree.eq_or_mem_of_mem_subtrees hu
  · unfold outline at hd ⊢
    split at hd
    · rename_i limit hlimit
      obtain rfl : d = _ := List.mem_singleton.mp hd
      have hlt := (Option.filter_eq_some_iff.mp hlimit).2
      exact .inl ⟨limit, of_decide_eq_true hlt, rfl, rfl⟩
    · split at hd
      · rename_i t ht
        exact .inr ⟨0, [], source, [], [], (List.append_nil _).symm,
          (ht ▸ splits_regions v limits.maxDepth 0 0 source).yields⟩
      · cases hd
  · exact .inr (yields_of_mem_below hu)

/-- A report starts in its region and in none of those below it. -/
theorem place_of_note {limits : Limits} {source : List Char} {u : Tree Region}
    (hu : u ∈ (outline v limits source).subtrees) {d : Diagnostic}
    (hd : d ∈ u.label.notes ++ Segment.notes u.label) : Owns u d.span.start := by
  obtain ⟨limit, hlt, rfl, rfl⟩ | ⟨_, _, _, _, _, -, hy⟩ := cases_of_note hu hd
  · refine ⟨Span.contains_iff.mpr ⟨Nat.le_refl _, ?_⟩, nofun⟩
    change 0 < 0 + Text.size source
    omega
  · exact hy.place_of_note hd

end Region

end ProseMarkup
