import ProseMarkup.Proofs.Checked.Outline
import ProseMarkup.Proofs.Lexing.Coverage
import ProseMarkup.Proofs.Markup.Tags
import ProseMarkup.Proofs.Reports

namespace ProseMarkup

open Text (size IsSlice splitAfter?)

namespace Text

def commentBody (cs : List Char) : List Char :=
  ((splitAfter? ['-', '-', '>'] cs).getD (cs, [])).1

theorem commentBody_cons {c : Char} {cs : List Char} (h : ¬['-', '-', '>'] <+: c :: cs) :
    commentBody (c :: cs) = c :: commentBody cs := by
  rw [commentBody, commentBody, splitAfter?, if_neg h]
  cases splitAfter? ['-', '-', '>'] cs <;> rfl

theorem commentBody_eq_nil_iff {cs : List Char} : commentBody cs = [] ↔ cs = [] := by
  rw [commentBody]
  cases h : splitAfter? ['-', '-', '>'] cs with
  | none => rfl
  | some x =>
    obtain ⟨past, rest⟩ := x
    have hlen : 3 ≤ past.length := length_le_of_splitAfter? h
    have hpast : past ≠ [] := List.length_pos_iff.mp (Nat.lt_of_lt_of_le (by decide) hlen)
    rw [← append_of_splitAfter? h, List.append_eq_nil_iff]
    exact ⟨fun he => absurd he hpast, And.left⟩

theorem size_commentBody_eq_zero_iff {cs : List Char} : size (commentBody cs) = 0 ↔ cs = [] := by
  rw [← commentBody_eq_nil_iff]
  constructor
  · intro h
    by_contra hne
    exact absurd h (Nat.ne_of_gt (size_pos hne))
  · intro h
    rw [h, size_nil]

/-- Holds of a text behind `<!--` that completes a `-->` with the dashes of the opening, and goes on
behind it. -/
def ClosesOpening (cs : List Char) : Prop :=
  ['>'] <+: cs ∧ cs ≠ ['>'] ∨ ['-', '>'] <+: cs ∧ cs ≠ ['-', '>']

instance (cs : List Char) : Decidable (ClosesOpening cs) :=
  inferInstanceAs (Decidable (_ ∨ _))

/-- A comment that is searched from the dashes of its opening on ends no later than one that is
searched behind them, and elsewhere only if its end takes these dashes. -/
theorem size_commentBody (cs : List Char) :
    size (commentBody ('-' :: '-' :: cs)) ≤ 2 + size (commentBody cs) ∧
      (size (commentBody ('-' :: '-' :: cs)) = 2 + size (commentBody cs) ↔ ¬ClosesOpening cs) := by
  have hsize : '-'.utf8Size = 1 ∧ '>'.utf8Size = 1 := ⟨rfl, rfl⟩
  by_cases h₁ : ['>'] <+: cs
  · obtain ⟨ds, rfl⟩ := h₁
    have hscan : commentBody ('-' :: '-' :: (['>'] ++ ds)) = ['-', '-', '>'] := rfl
    have hbody : commentBody (['>'] ++ ds) = '>' :: commentBody ds := commentBody_cons (by simp)
    have hends : ¬ClosesOpening (['>'] ++ ds) ↔ ds = [] := by simp [ClosesOpening]
    rw [hscan, hbody, hends, ← size_commentBody_eq_zero_iff]
    simp only [size_cons, size_nil, hsize]
    omega
  · have hdashes : ¬['-', '-', '>'] <+: '-' :: '-' :: cs := by simpa using h₁
    by_cases h₂ : ['-', '>'] <+: cs
    · obtain ⟨ds, rfl⟩ := h₂
      have hscan : commentBody ('-' :: '-' :: (['-', '>'] ++ ds)) = ['-', '-', '-', '>'] := rfl
      have hbody : commentBody (['-', '>'] ++ ds) = '-' :: '>' :: commentBody ds := by
        rw [← commentBody_cons (by simp), ← commentBody_cons (by simp)]
        rfl
      have hends : ¬ClosesOpening (['-', '>'] ++ ds) ↔ ds = [] := by simp [ClosesOpening]
      rw [hscan, hbody, hends, ← size_commentBody_eq_zero_iff]
      simp only [size_cons, size_nil, hsize]
      omega
    · have hdash : ¬['-', '-', '>'] <+: '-' :: cs := by simpa using h₂
      have hends : ¬ClosesOpening cs := by
        rintro (⟨hc, -⟩ | ⟨hc, -⟩)
        · exact h₁ hc
        · exact h₂ hc
      rw [commentBody_cons hdashes, commentBody_cons hdash, size_cons, size_cons,
        iff_true_right hends]
      simp only [hsize]
      omega

end Text

open Text (commentBody ClosesOpening)

theorem Mark.exists_read_comment (cs : List Char) : ∃ rest,
    read ('!' :: '-' :: '-' :: cs) = .comment ('!' :: commentBody ('-' :: '-' :: cs)) rest := by
  rw [read, commentBody]
  cases splitAfter? ['-', '-', '>'] ('-' :: '-' :: cs) <;> exact ⟨_, rfl⟩

theorem Token.Lexeme.exists_inContent_comment (cs : List Char) : ∃ rest,
    inContent ('<' :: '!' :: '-' :: '-' :: cs) =
      ⟨.comment, '<' :: '!' :: '-' :: '-' :: commentBody cs, rest⟩ := by
  rw [inContent, commentBody]
  cases splitAfter? ['-', '-', '>'] cs <;> exact ⟨_, rfl⟩

variable {source : String} {start stop : Nat} {cs : List Char}

/-- Where the scan for markup and every search for a closing tag go on, once they have come to
`start`. -/
structure Checked.GoesOnAt (v : Vocabulary) (source : List Char) (start stop next : Nat) :
    Prop where
  scan : headAt v source stop start = some (.prose next none)
  search : ∀ name verbatim nested?,
    closeStep v source stop name verbatim nested? start = some (.pass next)

theorem Checked.goesOnAt_comment (v : Vocabulary) {source : List Char}
    (h : IsSlice source start stop ('<' :: '!' :: '-' :: '-' :: cs)) :
    GoesOnAt v source start stop (start + 2 + size (commentBody ('-' :: '-' :: cs))) := by
  obtain ⟨rest, hread⟩ := Mark.exists_read_comment cs
  have hsize : start + size ('<' :: '!' :: commentBody ('-' :: '-' :: cs)) =
      start + 2 + size (commentBody ('-' :: '-' :: cs)) := by
    change start + (1 + (1 + _)) = _
    omega
  have hend := commentEnd_eq h hread
  rw [hsize] at hend
  constructor
  · rw [headAt_mark h, ProseMarkup.Head.readMark, hread]
    exact congrArg (fun next => some (Head.prose next none)) hsize
  · intro name verbatim nested?
    have hopen : ['<', '!', '-', '-'] <+: '<' :: '!' :: '-' :: '-' :: cs := List.prefix_append _ cs
    rw [closeStep, slice?_of h]
    simp only [Option.bind_eq_bind, Option.bind_some, if_pos hopen, hend]
    rfl

theorem Lexer.peek_comment (h : IsSlice source.toList start stop ('<' :: '!' :: '-' :: '-' :: cs)) :
    (ofRange source start stop).peek =
      some ⟨.comment, .ofList ('<' :: '!' :: '-' :: '-' :: commentBody cs), start⟩ := by
  obtain ⟨before, after, hsource, rfl, rfl⟩ := h
  obtain ⟨rest, hread⟩ := Token.Lexeme.exists_inContent_comment cs
  have hmode : Token.Mode.content.read ('<' :: '!' :: '-' :: '-' :: cs) = _ := hread
  rw [ofRange_of_append hsource, peek, ofText, next_of_read rfl (.inr (by decide)) hmode]

/-- In a range that starts with a comment the scan for markup and the search for a closing tag go on
no later than the comment token ends. They go on where it ends unless the comment closes its opening
and has more text behind that. -/
theorem Checked.goesOnAt_stop_iff (v : Vocabulary)
    (h : IsSlice source.toList start stop ('<' :: '!' :: '-' :: '-' :: cs)) :
    ∃ next t, GoesOnAt v source.toList start stop next ∧
      (Lexer.ofRange source start stop).peek = some t ∧ t.kind = .comment ∧ t.start = start ∧
      next ≤ t.stop ∧ (next = t.stop ↔ ¬ClosesOpening cs) := by
  refine ⟨_, _, goesOnAt_comment v h, Lexer.peek_comment h, rfl, rfl, ?_⟩
  obtain ⟨hle, hiff⟩ := Text.size_commentBody cs
  rw [Token.stop_eq, String.toList_ofList, ← hiff]
  change _ ≤ start + (1 + (1 + (1 + (1 + _)))) ∧ (_ = start + (1 + (1 + (1 + (1 + _)))) ↔ _)
  omega

theorem Checked.goesOnAt_stop_of_dashes : let source := "a<!--->-->b"
    IsSlice source.toList 1 10 "<!--->-->".toList ∧
      ∃ next t, GoesOnAt Parser.sample.vocabulary source.toList 1 10 next ∧
        (Lexer.ofRange source 1 10).peek = some t ∧ t.kind = .comment ∧ t.start = 1 ∧
        next ≤ t.stop ∧ (next = t.stop ↔ ¬ClosesOpening "->-->".toList) := by
  intro source
  have h : IsSlice source.toList 1 10 "<!--->-->".toList :=
    ⟨['a'], ['b'], by decide, by decide, by decide⟩
  exact ⟨h, goesOnAt_stop_iff Parser.sample.vocabulary h⟩

theorem Checked.goesOnAt_inside_comment : let source := "<!--><p/>-->"
    ∃ t, GoesOnAt Parser.sample.vocabulary source.toList 0 12 5 ∧
      (Lexer.ofRange source 0 12).peek = some t ∧ t.kind = .comment ∧ t.stop = 12 := by
  intro source
  have h : IsSlice source.toList 0 12 ('<' :: '!' :: '-' :: '-' :: "><p/>-->".toList) :=
    ⟨[], [], by decide, by decide, by decide⟩
  have hgoes := goesOnAt_comment Parser.sample.vocabulary h
  have hsize : 0 + 2 + size (commentBody ('-' :: '-' :: "><p/>-->".toList)) = 5 := by decide
  rw [hsize] at hgoes
  exact ⟨_, hgoes, Lexer.peek_comment h, rfl, by decide⟩

end ProseMarkup
