import ProseMarkup.Proofs.Readers
import ProseMarkup.Proofs.Reports
import ProseMarkup.Proofs.Slices

namespace ProseMarkup

namespace Text

def lineEnd (cs : List Char) (n : Nat) : Nat :=
  n + size (splitLine (dropBytes n cs)).1

theorem not_mem_of_splitLine {cs x y : List Char} {c : Char}
    (h : (splitLine cs).1 = x ++ c :: y) : '\n' ∉ x := by
  induction cs generalizing x with
  | nil => cases x <;> cases h
  | cons a cs ih =>
    cases x with
    | nil => exact List.not_mem_nil
    | cons b x =>
      by_cases ha : a = '\n'
      · simp [splitLine, ha] at h
      · simp only [splitLine, ha, if_false, List.cons_append, List.cons.injEq] at h
        obtain ⟨rfl, h⟩ := h
        exact List.not_mem_cons_of_ne_of_not_mem (Ne.symm ha) (ih h)

theorem splitLine_of_not_mem {x : List Char} (h : '\n' ∉ x) (y : List Char) :
    (splitLine (x ++ y)).1 = x ++ (splitLine y).1 := by
  induction x with
  | nil => rfl
  | cons a x ih =>
    obtain ⟨ha, hx⟩ := List.ne_and_not_mem_of_not_mem_cons h
    simp only [List.cons_append, splitLine, Ne.symm ha, if_false, ih hx]

theorem lt_lineEnd (before : List Char) {x : List Char} (h : '\n' ∉ x) (c : Char) (y : List Char) :
    size before + size x < lineEnd (before ++ (x ++ c :: y)) (size before) := by
  have hc : 0 < size (splitLine (c :: y)).1 := by
    apply size_pos
    unfold splitLine
    split <;> exact List.cons_ne_nil _ _
  rw [lineEnd, dropBytes_size_append, splitLine_of_not_mem h, size_append]
  omega

end Text

/-- Holds of the text behind `<` when a known name stands there as the name of a tag does. -/
def OpeningTag.Known (v : Vocabulary) (cs : List Char) : Prop :=
  ∃ name rest, Name.read? cs = some (name, rest) ∧ (v.classify (.ofList name)).isSome ∧
    ∃ c ∈ rest.head?, c = '>' ∨ c = '/' ∨ Text.isBlank c

structure TemplateInside (inner : List Char) : Prop where
  no_tag : '<' ∉ inner
  no_opening : ¬['{', '{'] <:+: inner
  no_closing : ¬['}', '}'] <:+: inner
  no_brace : inner.getLast? ≠ some '}'

theorem readTemplate?_cons {c : Char} {cs : List Char} (ht : c ≠ '<')
    (ho : c = '{' → cs.head? ≠ some '{') (hc : c = '}' → cs.head? ≠ some '}') :
    readTemplate? (c :: cs) = (readTemplate? cs).map fun (inner, rest) => (c :: inner, rest) := by
  rw [readTemplate?]
  · exact fun h => ht h
  · rintro cs' rfl rfl
    exact ho rfl rfl
  · rintro cs' rfl rfl
    exact hc rfl rfl

theorem TemplateInside.of_cons {c : Char} {inner : List Char} (h : TemplateInside (c :: inner)) :
    TemplateInside inner where
  no_tag := List.not_mem_of_not_mem_cons h.no_tag
  no_opening hi := h.no_opening (List.infix_cons hi)
  no_closing hi := h.no_closing (List.infix_cons hi)
  no_brace hl := h.no_brace (by cases inner <;> simp_all)

theorem readTemplate?_append {inner : List Char} (h : TemplateInside inner) (rest : List Char) :
    readTemplate? (inner ++ '}' :: '}' :: rest) = some (inner, rest) := by
  induction inner with
  | nil => rfl
  | cons c inner ih =>
    have hlt := List.ne_of_not_mem_cons h.no_tag
    rw [List.cons_append, readTemplate?_cons (Ne.symm hlt), ih h.of_cons]
    · rfl
    · rintro rfl
      cases inner with
      | nil => nofun
      | cons d inner =>
        rintro ⟨⟩
        exact h.no_opening ⟨[], inner, rfl⟩
    · rintro rfl
      cases inner with
      | nil => exact absurd rfl h.no_brace
      | cons d inner =>
        rintro ⟨⟩
        exact h.no_closing ⟨[], inner, rfl⟩

/-- A template ends with the first braces that close it, and before any other markup. -/
theorem templateInside_of_readTemplate? {cs inner rest : List Char}
    (h : readTemplate? cs = some (inner, rest)) : TemplateInside inner := by
  fun_induction readTemplate? cs generalizing inner with
  | case1 | case2 | case3 => cases h
  | case4 =>
    cases h
    exact ⟨List.not_mem_nil, by decide, by decide, by rintro ⟨⟩⟩
  | case5 c cs htag hopen hclose ih =>
    obtain ⟨⟨inner', rest'⟩, hr, he⟩ := Option.map_eq_some_iff.mp h
    cases he
    obtain rfl := append_of_readTemplate? hr
    have hi := ih hr
    refine ⟨?_, fun hx => ?_, fun hx => ?_, fun hx => ?_⟩
    · exact List.not_mem_cons_of_ne_of_not_mem (fun hc => htag hc.symm) hi.no_tag
    · obtain ⟨ds, hp⟩ | hx := List.infix_cons_iff.mp hx
      · obtain ⟨rfl, rfl⟩ := List.cons.inj hp
        exact hopen _ rfl rfl
      · exact hi.no_opening hx
    · obtain ⟨ds, hp⟩ | hx := List.infix_cons_iff.mp hx
      · obtain ⟨rfl, rfl⟩ := List.cons.inj hp
        exact hclose _ rfl rfl
      · exact hi.no_closing hx
    · cases inner' with
      | nil =>
        obtain rfl : c = '}' := Option.some.inj hx
        exact hclose _ rfl rfl
      | cons d inner => exact hi.no_brace hx

theorem exists_cons_of_readTemplate?_eq_none {inner rest : List Char} (hi : TemplateInside inner)
    (h : readTemplate? ('{' :: (inner ++ '}' :: '}' :: rest)) = none) :
    ∃ inner', inner = '{' :: inner' := by
  by_cases hh : (inner ++ '}' :: '}' :: rest).head? = some '{'
  · cases inner with
    | nil => cases hh
    | cons c inner =>
      cases hh
      exact ⟨inner, rfl⟩
  · have hr := readTemplate?_cons (c := '{') (by decide) (fun _ => hh)
      (fun hc => absurd hc (by decide))
    rw [hr, readTemplate?_append hi] at h
    cases h

namespace OpeningTag.Known

variable {v : Vocabulary}

theorem of_append {cs after : List Char} (h : Known v (cs ++ after))
    (ha : after = [] ∨ ∃ tail, after = '<' :: tail) : Known v cs := by
  obtain ⟨name, rest, hn, hv, c, hc, hstop⟩ := h
  have hends : Name.Ends after := by
    obtain rfl | ⟨tail, rfl⟩ := ha
    · nofun
    · rintro _ ⟨⟩
      decide
  rw [Name.read?_append hends] at hn
  obtain ⟨⟨name', rest'⟩, hr, he⟩ := Option.map_eq_some_iff.mp hn
  cases he
  refine ⟨_, rest', hr, hv, c, ?_, hstop⟩
  cases rest' with
  | cons a rest' => exact hc
  | nil =>
    obtain rfl | ⟨tail, rfl⟩ := ha
    · cases hc
    · cases hc
      revert hstop
      decide

theorem read_mark {cs : List Char} (h : Known v cs) :
    (∃ tag rest, Mark.read cs = .opening tag rest ∧ (v.classify (.ofList tag.name)).isSome) ∨
      ∃ name rest, Mark.read cs = .unclosed name rest ∧ (v.classify (.ofList name)).isSome := by
  obtain ⟨name, rest, hn, hv, c, hc, hstop⟩ := h
  have hends : endsName rest = true := by
    cases rest with
    | nil => rfl
    | cons a rest =>
      cases hc
      simpa [endsName, or_assoc] using hstop
  rw [Mark.read_of_read? hn]
  simp only [Mark.readOpening, hn, hends, if_true]
  split
  · exact .inl ⟨_, _, rfl, hv⟩
  · exact .inr ⟨_, _, rfl, hv⟩

end OpeningTag.Known

theorem ClosingTag.mem_text {cs rest : List Char} {tag : ClosingTag}
    (h : Mark.read cs = .closing tag rest) {c : Char} (hc : c ∈ tag.text.tail) :
    c ≠ '<' ∧ c ≠ '{' := by
  obtain ⟨after, _, hr⟩ := Mark.read_eq_closing h
  obtain ⟨_, hn, hg, _⟩ := read?_eq_some hr
  simp only [text, List.cons_append, List.tail_cons, List.mem_append, List.mem_cons,
    List.not_mem_nil, or_false, or_assoc] at hc
  obtain rfl | hc | hc | rfl := hc
  · decide
  · have hp := Name.isPart_of_read? hn c hc
    refine ⟨?_, ?_⟩ <;> rintro rfl <;> revert hp <;> decide
  · rw [hg] at hc
    have hb := List.mem_takeWhile_imp hc
    refine ⟨?_, ?_⟩ <;> rintro rfl <;> revert hb <;> decide
  · decide

namespace Head

/-- How a head passes over prose. -/
inductive Passes (v : Vocabulary) : List Char → List Char → Option ProseFault → List Char → Prop
  | char {c : Char} {rest : List Char} (ht : c = '<' → ¬OpeningTag.Known v rest)
      (hb : c = '{' → rest.head? ≠ some '{') : Passes v (c :: rest) [c] none rest
  | braces {rest : List Char} (h : readTemplate? rest = none) :
      Passes v ('{' :: '{' :: rest) ['{', '{'] none rest
  | comment {cs inner rest : List Char} (h : Mark.read cs = .comment inner rest) :
      Passes v ('<' :: cs) ('<' :: inner) none rest
  | closing {cs rest : List Char} {tag : ClosingTag} (h : Mark.read cs = .closing tag rest) :
      Passes v ('<' :: cs) tag.text (some (.unmatched tag)) rest
  | unterminated {cs rest : List Char} {tag : OpeningTag} (h : Mark.read cs = .opening tag rest) :
      Passes v ('<' :: cs) (tag.text ++ (Text.splitLine rest).1) (some (.unterminated tag))
        (Text.splitLine rest).2
  | malformed {cs name rest : List Char} (h : Mark.read cs = .unclosed name rest) :
      Passes v ('<' :: cs) ('<' :: name ++ (Text.splitLine rest).1) (some (.malformed name))
        (Text.splitLine rest).2

theorem passes_of_readMark {v : Vocabulary} {cs passed rest : List Char}
    {fault : Option ProseFault} (h : readMark v cs = .prose passed fault rest) :
    Passes v ('<' :: cs) passed fault rest := by
  -- `<` alone is passed when no known tag stands there
  have alone (hk : ¬OpeningTag.Known v cs) : Passes v ('<' :: cs) ['<'] none cs :=
    .char (fun _ => hk) nofun
  unfold readMark at h
  split at h
  · rename_i hm
    cases h
    exact .comment hm
  · rename_i hm
    split at h
    · cases h
      exact .closing hm
    · cases h
      apply alone
      intro hk
      obtain ⟨_, _, he, _⟩ | ⟨_, _, he, _⟩ := hk.read_mark
      · simp [hm] at he
      · simp [hm] at he
  · rename_i hm
    split at h
    · rename_i hv
      cases h
      apply alone
      intro hk
      obtain ⟨_, _, he, hv'⟩ | ⟨_, _, he, _⟩ := hk.read_mark
      · simp only [hm, Mark.opening.injEq] at he
        simp [← he.1, hv] at hv'
      · simp [hm] at he
    · split at h
      · cases h
      · cases h
        exact .unterminated hm
  · rename_i hm
    split at h
    · cases h
      exact .malformed hm
    · rename_i hv
      cases h
      apply alone
      intro hk
      obtain ⟨_, _, he, _⟩ | ⟨_, _, he, hv'⟩ := hk.read_mark
      · simp [hm] at he
      · simp only [hm, Mark.unclosed.injEq] at he
        exact hv (he.1 ▸ hv')
  · rename_i hm
    cases h
    apply alone
    intro hk
    obtain ⟨_, _, he, _⟩ | ⟨_, _, he, _⟩ := hk.read_mark
    · simp [hm] at he
    · simp [hm] at he

theorem passes_of_read {v : Vocabulary} {cs passed rest : List Char} {fault : Option ProseFault}
    (hcs : cs ≠ []) (h : read v cs = .prose passed fault rest) : Passes v cs passed fault rest := by
  unfold read at h
  split at h
  · contradiction
  · split at h
    · cases h
    · rename_i ht
      cases h
      exact .braces ht
  · exact passes_of_readMark h
  · rename_i hb ht
    cases h
    refine .char (fun hc => absurd hc ht) ?_
    rintro rfl
    cases rest with
    | nil => nofun
    | cons a rest =>
      rintro ⟨⟩
      exact hb rest rfl rfl

theorem inside_of_read {v : Vocabulary} {cs inner rest : List Char}
    (h : read v cs = .template inner rest) : TemplateInside inner := by
  rw [read.eq_def] at h
  split at h
  · cases h
  · split at h
    · rename_i hr
      cases h
      exact templateInside_of_readTemplate? hr
    · cases h
  · rw [readMark.eq_def] at h
    split at h
    · cases h
    · split at h <;> cases h
    · split at h
      · cases h
      · split at h <;> cases h
    · split at h <;> cases h
    · cases h
  · cases h

end Head

end ProseMarkup
