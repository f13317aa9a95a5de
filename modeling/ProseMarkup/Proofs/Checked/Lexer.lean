import ProseMarkup.Checked.Lexer
import ProseMarkup.Proofs.Checked.Outline
import ProseMarkup.Proofs.Placement

namespace ProseMarkup

namespace Checked

open Text (size IsSlice)
open Token (Mode Kind Lexeme Shape)

def nearest (marks : List (List Char)) (cs : List Char) : Nat :=
  (marks.filterMap (find? · cs)).min?.getD (size cs)

theorem min?_map_add (n : Nat) (ns : List Nat) :
    (ns.map (n + ·)).min? = ns.min?.map (n + ·) := by
  induction ns with
  | nil => rfl
  | cons m ns ih =>
    rw [List.map_cons, List.min?_cons, List.min?_cons, ih]
    cases ns.min? with
    | none => rfl
    | some k =>
      change some (min (n + m) (n + k)) = some (n + min m k)
      rw [Nat.add_min_add_left]

theorem nearest_cons {marks : List (List Char)} {c : Char} {cs : List Char}
    (h : ∀ m ∈ marks, ¬m <+: c :: cs) :
    nearest marks (c :: cs) = c.utf8Size + nearest marks cs := by
  have hfind : marks.filterMap (find? · (c :: cs)) =
      (marks.filterMap (find? · cs)).map (c.utf8Size + ·) := by
    rw [List.map_filterMap]
    apply List.filterMap_congr
    intro m hm
    rw [find?, if_neg (h m hm)]
  rw [nearest, hfind, min?_map_add, nearest]
  cases (marks.filterMap (find? · cs)).min? <;> rfl

theorem nearest_of_mem {marks : List (List Char)} {c : Char} {cs m : List Char} (hm : m ∈ marks)
    (h : m <+: c :: cs) : nearest marks (c :: cs) = 0 := by
  have hzero : 0 ∈ marks.filterMap (find? · (c :: cs)) :=
    List.mem_filterMap.mpr ⟨m, hm, by rw [find?, if_pos h]⟩
  have hmin : (marks.filterMap (find? · (c :: cs))).min? = some 0 :=
    List.min?_eq_some_iff.mpr ⟨hzero, fun n _ => Nat.zero_le n⟩
  rw [nearest, hmin]
  rfl

theorem nearest_eq {marks : List (List Char)} {stops : List Char → Bool}
    (hstops : ∀ c cs, stops (c :: cs) = true ↔ ∃ m ∈ marks, m <+: c :: cs) (cs : List Char) :
    nearest marks cs = size (Text.breakBefore stops cs).1 := by
  induction cs with
  | nil =>
    have hfind : marks.filterMap (find? · []) = [] := List.filterMap_eq_nil_iff.mpr fun _ _ => rfl
    rw [nearest, hfind]
    rfl
  | cons c cs ih =>
    rw [Text.breakBefore]
    split
    · rename_i hstop
      obtain ⟨m, hm, hprefix⟩ := (hstops c cs).mp hstop
      exact nearest_of_mem hm hprefix
    · rename_i hstop
      have hnot : ∀ m ∈ marks, ¬m <+: c :: cs := fun m hm hprefix =>
        hstop ((hstops c cs).mpr ⟨m, hm, hprefix⟩)
      rw [nearest_cons hnot, ih]
      rfl

theorem before_eq {marks : List (List Char)} {stops : List Char → Bool}
    (hstops : ∀ c cs, stops (c :: cs) = true ↔ ∃ m ∈ marks, m <+: c :: cs) (cs : List Char) :
    Rule.before marks cs = some (if (Text.breakBefore stops cs).1 = [] then none
      else some (Text.breakBefore stops cs).2) := by
  have hnearest := nearest_eq hstops cs
  have hsplit := Text.breakBefore_append stops cs
  rw [nearest] at hnearest
  rw [Rule.before, hnearest]
  generalize Text.breakBefore stops cs = x at hsplit ⊢
  obtain ⟨past, rest⟩ := x
  dsimp only at hsplit ⊢
  subst hsplit
  have hslice := Text.isSlice_self (past ++ rest)
  have hleft := hslice.left
  have hright := hslice.right
  rw [Nat.zero_add] at hleft hright
  by_cases hpast : past = []
  · rw [hpast]
    rfl
  · have hpos := Text.size_pos hpast
    rw [if_neg (by omega), if_neg hpast]
    simp only [slice?_of hleft, slice?_of hright, Option.bind_eq_bind, Option.bind_some]
    rfl

theorem firstMatch_none {cs : List Char} {kind : Kind} {rule : Rule} {rules : List (Kind × Rule)}
    (h : rule cs = some none) : firstMatch cs ((kind, rule) :: rules) = firstMatch cs rules := by
  rw [firstMatch, h]
  rfl

theorem firstMatch_some {cs text rest : List Char} {kind : Kind} {rule : Rule}
    {rules : List (Kind × Rule)} (h : rule cs = some (some rest)) (happend : text ++ rest = cs)
    (hne : text ≠ []) : firstMatch cs ((kind, rule) :: rules) = some (some (kind, size text)) := by
  have hsub : sub? (size cs) (size rest) = some (size text) := by
    rw [← happend, Text.size_append, Nat.add_comm, sub?_add]
  rw [firstMatch, h]
  simp only [Option.bind_eq_bind, Option.bind_some, hsub, if_pos (Text.size_pos hne)]
  rfl

theorem mark_append (m rest : List Char) : Rule.mark m (m ++ rest) = some (some rest) := by
  rw [Rule.mark, if_pos (List.prefix_append m rest), List.drop_left]
  rfl

theorem mark_none {m cs : List Char} (h : ¬m <+: cs) : Rule.mark m cs = some none := by
  rw [Rule.mark, if_neg h]
  rfl

theorem firstMatch_marks_some {cs m : List Char} {kind : Kind} {ms : List (Kind × List Char)}
    {rules : List (Kind × Rule)} (h : ms.find? (fun x => x.2 <+: cs) = some (kind, m))
    (hne : m ≠ []) : firstMatch cs (Rule.marks ms ++ rules) = some (some (kind, size m)) := by
  induction ms with
  | nil => cases h
  | cons x ms ih =>
    by_cases hx : x.2 <+: cs
    · rw [List.find?_cons, decide_eq_true hx] at h
      cases h
      obtain ⟨rest, rfl⟩ := hx
      exact firstMatch_some (mark_append m rest) rfl hne
    · rw [List.find?_cons, decide_eq_false hx] at h
      exact (firstMatch_none (mark_none hx)).trans (ih h)

theorem firstMatch_marks_none {cs : List Char} {ms : List (Kind × List Char)}
    {rules : List (Kind × Rule)} (h : ∀ x ∈ ms, ¬x.2 <+: cs) :
    firstMatch cs (Rule.marks ms ++ rules) = firstMatch cs rules := by
  induction ms with
  | nil => rfl
  | cons x ms ih =>
    obtain ⟨hx, h⟩ := List.forall_mem_cons.mp h
    exact (firstMatch_none (mark_none hx)).trans (ih h)

theorem not_isPrefix {m cs : List Char} (h : ∀ t, cs = m ++ t → False) : ¬m <+: cs := by
  rintro ⟨t, rfl⟩
  exact h t rfl

theorem head?_eq_iff {cs : List Char} {q : Char} : cs.head? = some q ↔ [q] <+: cs := by
  constructor
  · intro h
    obtain ⟨ds, rfl⟩ := List.head?_eq_some_iff.mp h
    exact ⟨ds, rfl⟩
  · rintro ⟨ds, rfl⟩
    rfl

theorem firstMatch_before {marks : List (List Char)} {stops : List Char → Bool} {kind : Kind}
    {rules : List (Kind × Rule)} {c : Char} {cs : List Char}
    (hstops : ∀ c cs, stops (c :: cs) = true ↔ ∃ m ∈ marks, m <+: c :: cs)
    (h : ¬∃ m ∈ marks, m <+: c :: cs) :
    firstMatch (c :: cs) ((kind, .before marks) :: rules) =
      some (some (kind, size (Lexeme.run kind stops (c :: cs)).text)) := by
  have hstop : stops (c :: cs) = false := Bool.eq_false_iff.mpr (mt (hstops c cs).mp h)
  have hbreak : Text.breakBefore stops (c :: cs) =
      ((Lexeme.run kind stops (c :: cs)).text, (Lexeme.run kind stops (c :: cs)).rest) := by
    rw [Text.breakBefore, hstop]
    rfl
  have hne := Lexeme.run_text_ne_nil kind stops (List.cons_ne_nil c cs)
  have hrule := before_eq hstops (c :: cs)
  rw [hbreak, if_neg hne] at hrule
  exact firstMatch_some hrule (Lexeme.run_append ..) hne

section

variable {cs : List Char}

theorem matchIn_content (hne : cs ≠ []) : matchIn .content cs =
    some ((Lexeme.inContent cs).kind, size (Lexeme.inContent cs).text) := by
  have found {kind : Kind} {n : Nat} (h : firstMatch cs contentRules = some (some (kind, n))) :
      matchIn .content cs = some (kind, n) := by
    rw [matchIn]
    simp only [h]
    rfl
  have mark {kind : Kind} {m : List Char} (hc : ¬['<', '!', '-', '-'] <+: cs)
      (h : contentMarks.find? (fun x => x.2 <+: cs) = some (kind, m)) (hne : m ≠ []) :
      matchIn .content cs = some (kind, size m) := by
    apply found
    have hrule : Rule.comment cs = some none := by
      rw [Rule.comment, if_neg hc]
      rfl
    exact (firstMatch_none hrule).trans (firstMatch_marks_some h hne)
  unfold Lexeme.inContent
  split
  · rename_i ds
    have hrule : Rule.comment ('<' :: '!' :: '-' :: '-' :: ds) =
        some (some ((Text.splitAfter? ['-', '-', '>'] ds).elim [] Prod.snd)) := by
      rw [Rule.comment, if_pos ⟨ds, rfl⟩]
      rfl
    refine found (firstMatch_some hrule ?_ (List.cons_ne_nil _ _))
    cases hsplit : Text.splitAfter? ['-', '-', '>'] ds with
    | none => simp
    | some x => simp [Text.append_of_splitAfter? hsplit]
  · exact mark (by simp) (by simp [contentMarks]) (List.cons_ne_nil _ _)
  · exact mark (by simp) (by simp [contentMarks]) (List.cons_ne_nil _ _)
  · exact mark (by simp) (by simp [contentMarks]) (List.cons_ne_nil _ _)
  · rename_i ds hcomment hclosing
    have hslash : ¬['/'] <+: ds := not_isPrefix hclosing
    refine mark (fun h => not_isPrefix hcomment (List.cons_prefix_cons.mp h).2) ?_
      (List.cons_ne_nil _ _)
    simp [contentMarks, hslash]
  · rename_i hcomment hopen hclose hclosing htag
    have hrule : Rule.comment cs = some none := by
      rw [Rule.comment, if_neg (not_isPrefix hcomment)]
      rfl
    have hmarks : ∀ x ∈ contentMarks, ¬x.2 <+: cs := by
      simp only [contentMarks, List.forall_mem_cons]
      exact ⟨not_isPrefix hopen, not_isPrefix hclose, not_isPrefix hclosing, not_isPrefix htag,
        List.forall_mem_nil _⟩
    obtain ⟨c, cs, rfl⟩ := List.exists_cons_of_ne_nil hne
    rw [Lexeme.kind_run]
    refine found ((firstMatch_none hrule).trans ((firstMatch_marks_none hmarks).trans
      (firstMatch_before (fun c cs => ?_) ?_)))
    · rw [Lexeme.opensMarkup, Bool.or_eq_true, decide_eq_true_iff, head?_eq_iff,
        Lexeme.opensTemplate_iff]
      simp only [List.mem_cons, List.not_mem_nil, or_false, exists_eq_or_imp, exists_eq_left]
    · simp only [List.mem_cons, List.not_mem_nil, or_false, exists_eq_or_imp, exists_eq_left]
      exact not_or.mpr ⟨not_isPrefix htag, not_isPrefix hopen⟩

theorem matchIn_tag (hne : cs ≠ []) : matchIn .tag cs =
    some ((Lexeme.inTag cs).kind, size (Lexeme.inTag cs).text) := by
  have found {kind : Kind} {n : Nat} (h : firstMatch cs tagRules = some (some (kind, n))) :
      matchIn .tag cs = some (kind, n) := by
    rw [matchIn]
    simp only [h]
    rfl
  have mark {kind : Kind} {m : List Char}
      (h : tagMarks.find? (fun x => x.2 <+: cs) = some (kind, m)) (hne : m ≠ []) :
      matchIn .tag cs = some (kind, size m) :=
    found (firstMatch_marks_some h hne)
  have quote {q : Char} {ds : List Char} (h : ∀ x ∈ tagMarks, ¬x.2 <+: cs) (hcs : [q] ++ ds = cs)
      (hq : Rule.quote cs = some (some ds)) : matchIn .tag cs = some (.quote, size [q]) :=
    found ((firstMatch_marks_none h).trans (firstMatch_some hq hcs (List.cons_ne_nil q [])))
  unfold Lexeme.inTag
  split
  · exact mark (by simp [tagMarks]) (List.cons_ne_nil _ _)
  · exact mark (by simp [tagMarks]) (List.cons_ne_nil _ _)
  · exact mark (by simp [tagMarks]) (List.cons_ne_nil _ _)
  · exact mark (by simp [tagMarks]) (List.cons_ne_nil _ _)
  · rename_i ds hclosing
    have hslash : ¬['/'] <+: ds := not_isPrefix hclosing
    exact mark (by simp [tagMarks, hslash]) (List.cons_ne_nil _ _)
  · exact mark (by simp [tagMarks]) (List.cons_ne_nil _ _)
  · exact mark (by simp [tagMarks]) (List.cons_ne_nil _ _)
  · exact quote (by simp [tagMarks]) rfl rfl
  · exact quote (by simp [tagMarks]) rfl rfl
  · rename_i hopen hclose hclosing hself htag hend hequals hdouble hsingle
    have hmarks : ∀ x ∈ tagMarks, ¬x.2 <+: cs := by
      simp only [tagMarks, List.forall_mem_cons]
      exact ⟨not_isPrefix hopen, not_isPrefix hclose, not_isPrefix hclosing, not_isPrefix hself,
        not_isPrefix htag, not_isPrefix hend, not_isPrefix hequals, List.forall_mem_nil _⟩
    have hquote : Rule.quote cs = some none := by
      unfold Rule.quote
      split
      · exact absurd rfl (hdouble _)
      · exact absurd rfl (hsingle _)
      · rfl
    have hrules : firstMatch cs tagRules =
        firstMatch cs [(.identifier, .name), (.rawText, .loose)] :=
      (firstMatch_marks_none hmarks).trans (firstMatch_none hquote)
    cases hname : Name.read? cs with
    | some x =>
      have hrule : Rule.name cs = some (some x.2) := by
        rw [Rule.name, hname]
        rfl
      exact found (hrules.trans
        (firstMatch_some hrule (Name.append_of_read? hname) (Name.ne_nil_of_read? hname)))
    | none =>
      have hrule : Rule.name cs = some none := by
        rw [Rule.name, hname]
        rfl
      have hrest := hrules.trans (firstMatch_none hrule)
      obtain ⟨c, cs, rfl⟩ := List.exists_cons_of_ne_nil hne
      dsimp only
      rw [Lexeme.loose]
      by_cases hc : Lexeme.isLoose c
      · have hloose : Rule.loose (c :: cs) = some (some (cs.dropWhile Lexeme.isLoose)) := by
          simp [Rule.loose, hc]
        rw [if_pos hc]
        exact found (hrest.trans (firstMatch_some hloose
          (congrArg (c :: ·) List.takeWhile_append_dropWhile) (List.cons_ne_nil _ _)))
      · have hloose : Rule.loose (c :: cs) = some none := by
          simp [Rule.loose, hc]
        rw [if_neg hc, matchIn]
        simp only [hrest.trans (firstMatch_none hloose)]
        rfl

/-- A pair of braces is matched before a run is. -/
theorem firstMatch_pair {pair : List Char} {marks : List (List Char)} (stops : List Char → Bool)
    (kind kind' : Kind) (hpair : pair ≠ []) (hne : cs ≠ [])
    (hstops : ∀ c cs, stops (c :: cs) = true ↔ ∃ m ∈ marks, m <+: c :: cs)
    (h : ¬pair <+: cs → ¬∃ m ∈ marks, m <+: cs) :
    firstMatch cs (Rule.marks [(kind, pair)] ++ [(kind', .before marks)]) = some (some
      (if pair <+: cs then (kind, size pair)
        else (kind', size (Lexeme.run kind' stops cs).text))) := by
  by_cases hmark : pair <+: cs
  · rw [if_pos hmark]
    exact firstMatch_marks_some (by simp [hmark]) hpair
  · have hmarks : ∀ x ∈ [(kind, pair)], ¬x.2 <+: cs := by
      rintro x hx
      obtain rfl := List.mem_singleton.mp hx
      exact hmark
    obtain ⟨c, cs, rfl⟩ := List.exists_cons_of_ne_nil hne
    rw [if_neg hmark]
    exact (firstMatch_marks_none hmarks).trans (firstMatch_before hstops (h hmark))

theorem matchIn_value (q : Char) (hne : cs ≠ []) : matchIn (.value q) cs =
    some ((Lexeme.inValue q cs).kind, size (Lexeme.inValue q cs).text) := by
  rw [matchIn, Lexeme.inValue]
  dsimp only
  rw [matchValue]
  by_cases hq : cs.head? = some q
  · rw [if_pos hq, if_pos hq]
    rfl
  · have hstops : ∀ c cs, (decide ((c :: cs).head? = some q) || Lexeme.opensTemplate (c :: cs)) =
        true ↔ ∃ m ∈ [[q], ['{', '{']], m <+: c :: cs := by
      intro c cs
      rw [Bool.or_eq_true, decide_eq_true_iff, head?_eq_iff, Lexeme.opensTemplate_iff]
      simp only [List.mem_cons, List.not_mem_nil, or_false, exists_eq_or_imp, exists_eq_left]
    have hnot : ¬['{', '{'] <+: cs → ¬∃ m ∈ [[q], ['{', '{']], m <+: cs := by
      intro hopen
      simp only [List.mem_cons, List.not_mem_nil, or_false, exists_eq_or_imp, exists_eq_left]
      exact not_or.mpr ⟨mt head?_eq_iff.mpr hq, hopen⟩
    have hfound := firstMatch_pair (fun cs => cs.head? = some q || Lexeme.opensTemplate cs)
      .templateOpen .attributeText (List.cons_ne_nil '{' ['{']) hne hstops hnot
    rw [if_neg hq, if_neg hq, hfound]
    by_cases hopen : ['{', '{'] <+: cs
    · rw [if_pos hopen, if_pos (Lexeme.opensTemplate_iff.mpr hopen)]
      obtain ⟨ds, rfl⟩ := hopen
      rfl
    · rw [if_neg hopen, if_neg (mt Lexeme.opensTemplate_iff.mp hopen), Lexeme.kind_run]
      rfl

theorem matchIn_template {enclosing : Option Char} (hne : cs ≠ [])
    (hq : ∀ q ∈ enclosing, cs.head? ≠ some q) : matchIn (.template enclosing) cs =
      some ((Lexeme.inTemplate enclosing cs).kind, size (Lexeme.inTemplate enclosing cs).text) := by
  have hmem (m : List Char) : m ∈ (['}', '}'] :: (enclosing.map fun q => [q]).toList) ↔
      m = ['}', '}'] ∨ ∃ q ∈ enclosing, m = [q] := by
    cases enclosing <;> simp
  have hstops : ∀ c cs, (Lexeme.closesTemplate (c :: cs) ||
      (enclosing.isSome && decide ((c :: cs).head? = enclosing))) = true ↔
        ∃ m ∈ (['}', '}'] :: (enclosing.map fun q => [q]).toList), m <+: c :: cs := by
    intro c cs
    rw [Bool.or_eq_true, Lexeme.closesTemplate_iff]
    simp only [hmem, or_and_right, exists_or, exists_eq_left]
    refine or_congr_right ?_
    cases enclosing with
    | none => simp
    | some q => simp [eq_comm]
  have hnot : ¬['}', '}'] <+: cs →
      ¬∃ m ∈ (['}', '}'] :: (enclosing.map fun q => [q]).toList), m <+: cs := by
    rintro hclose ⟨m, hm, hprefix⟩
    obtain rfl | ⟨q, hmem, rfl⟩ := (hmem m).mp hm
    · exact hclose hprefix
    · exact hq q hmem (head?_eq_iff.mpr hprefix)
  have hfound := firstMatch_pair
    (fun cs => Lexeme.closesTemplate cs || (enclosing.isSome && cs.head? = enclosing))
    .templateClose .rawText (List.cons_ne_nil '}' ['}']) hne hstops hnot
  rw [matchIn, Lexeme.inTemplate]
  dsimp only
  rw [matchTemplate, hfound]
  by_cases hclose : ['}', '}'] <+: cs
  · rw [if_pos hclose, if_pos (Lexeme.closesTemplate_iff.mpr hclose)]
    obtain ⟨ds, rfl⟩ := hclose
    rfl
  · rw [if_neg hclose, if_neg (mt Lexeme.closesTemplate_iff.mp hclose), Lexeme.kind_run]
    rfl

/-- In every mode the rules match the lexeme that is read. -/
theorem matchIn_eq {mode : Mode} (hne : cs ≠ []) (hq : ∀ c ∈ cs.head?, mode ≠ .template (some c)) :
    matchIn mode cs = some ((mode.read cs).kind, size (mode.read cs).text) := by
  cases mode with
  | content => exact matchIn_content hne
  | tag => exact matchIn_tag hne
  | value q => exact matchIn_value q hne
  | template enclosing =>
    refine matchIn_template hne fun q hmem hhead => ?_
    obtain rfl := Option.mem_def.mp hmem
    exact hq q hhead rfl

end

open Lexer (Stack)

def cursorOf (stop : Nat) (l : Lexer) : Cursor :=
  ⟨l.offset, stop, l.modes⟩

theorem leave?_eq {ms : List Mode} (hne : ms ≠ []) : Cursor.leave? ms = some (Lexer.leave ms) := by
  rcases ms with _ | ⟨m, _ | ⟨outer, ms⟩⟩
  · exact absurd rfl hne
  · rfl
  · rfl

theorem transition?_eq {ms : List Mode} (hne : ms ≠ []) (x : Lexeme) (start : Nat) :
    Cursor.transition? ms ⟨x.kind, .ofList x.text, start⟩ = some (Lexer.transition ms x) := by
  have hleave := leave?_eq hne
  obtain ⟨m, ms, rfl⟩ := List.exists_cons_of_ne_nil hne
  obtain ⟨kind, text, rest⟩ := x
  rw [Cursor.transition?, Lexer.transition]
  cases m with
  | content => cases kind <;> rfl
  | value q => cases kind <;> first | rfl | exact hleave
  | template enclosing => cases kind <;> first | rfl | exact hleave
  | tag =>
    cases kind with
    | quote =>
      cases text with
      | nil => rfl
      | cons q text =>
        simp only [List.headD_cons, String.toList_ofList]
        rfl
    | tagEnd | selfClose => exact hleave
    | _ => rfl

variable {source : List Char} {stop : Nat} {l : Lexer}

theorem take_eq (h : IsSlice source l.offset stop l.rest) (hne : l.rest ≠ []) (hms : l.modes ≠ [])
    (hq : ∀ c ∈ l.rest.head?, l.mode ≠ .template (some c)) :
    ((cursorOf stop l).take source l.rest).map (Prod.map some id) =
      some (l.take.1, cursorOf stop l.take.2) := by
  have happend := l.mode.read_append l.rest
  have hslice : IsSlice source l.offset (l.offset + size (l.mode.read l.rest).text)
      (l.mode.read l.rest).text := by
    rw [← happend] at h
    exact h.left
  have hmode : (cursorOf stop l).mode = l.mode := rfl
  rw [Cursor.take, Lexer.take, if_neg hne, hmode, matchIn_eq hne hq]
  simp only [cursorOf, Option.bind_eq_bind, Option.bind_some, slice?_of hslice,
    transition?_eq hms]
  rfl

theorem isSlice_skipBlanks (h : IsSlice source l.offset stop l.rest) :
    IsSlice source l.skipBlanks.offset stop l.skipBlanks.rest := by
  rw [Lexer.skipBlanks]
  split
  · rw [← List.takeWhile_append_dropWhile (p := Text.isBlank) (l := l.rest)] at h
    exact h.right
  · exact h

theorem skipBlanks_eq (h : IsSlice source l.offset stop l.rest) :
    (cursorOf stop l).skipBlanks source = some (cursorOf stop l.skipBlanks) := by
  have hmode : (cursorOf stop l).mode = l.mode := rfl
  rw [Cursor.skipBlanks, hmode, Lexer.skipBlanks]
  split
  · have hstop := h.start_add
    rw [← List.takeWhile_append_dropWhile (p := Text.isBlank) (l := l.rest),
      Text.size_append] at hstop
    have hsub : sub? stop (size (l.rest.dropWhile Text.isBlank)) =
        some (l.offset + size (l.rest.takeWhile Text.isBlank)) := by
      rw [← hstop, ← Nat.add_assoc, Nat.add_comm, sub?_add]
    simp only [cursorOf, slice?_of h, Option.bind_eq_bind, Option.bind_some, hsub]
    rfl
  · rfl

theorem next_of_settled (h : IsSlice source l.offset stop l.rest) (hms : l.modes ≠ [])
    (hset : l.settled = l) (hq : ∀ c ∈ l.rest.head?, l.mode ≠ .template (some c)) :
    (cursorOf stop l).next source = some (l.next.1, cursorOf stop l.next.2) := by
  have hslice := isSlice_skipBlanks h
  have hmodes : l.skipBlanks.modes = l.modes := by
    rw [Lexer.skipBlanks]
    split <;> rfl
  rw [Cursor.next, Lexer.next, hset]
  by_cases hrest : l.rest = []
  · have hself : l.skipBlanks = l := by
      obtain ⟨rest, offset, modes⟩ := l
      obtain rfl := hrest
      rw [Lexer.skipBlanks]
      split <;> rfl
    have hend : (cursorOf stop l).stop ≤ (cursorOf stop l).offset := h.stop_le_iff.mpr hrest
    rw [if_pos hend, hself, Lexer.take, if_pos hrest]
    rfl
  · have hnext : ¬(cursorOf stop l).stop ≤ (cursorOf stop l).offset := mt h.stop_le_iff.mp hrest
    rw [if_neg hnext, skipBlanks_eq h]
    simp only [Option.bind_eq_bind, Option.bind_some]
    by_cases hend : l.skipBlanks.rest = []
    · have hstop : (cursorOf stop l.skipBlanks).stop ≤ (cursorOf stop l.skipBlanks).offset :=
        hslice.stop_le_iff.mpr hend
      rw [if_pos hstop, Lexer.take, if_pos hend]
      rfl
    · have hgo : ¬(cursorOf stop l.skipBlanks).stop ≤ (cursorOf stop l.skipBlanks).offset :=
        mt hslice.stop_le_iff.mp hend
      have hq' : ∀ c ∈ l.skipBlanks.rest.head?, l.skipBlanks.mode ≠ .template (some c) := by
        intro c hc hm
        by_cases hskip : l.mode.skipsBlanks
        · rw [Lexer.mode, hmodes] at hm
          rw [Lexer.mode, hm] at hskip
          cases hskip
        · rw [Lexer.skipBlanks, if_neg hskip] at hc hm
          exact hq c hc hm
      have hcurrent : slice? source (cursorOf stop l.skipBlanks).offset
          (cursorOf stop l.skipBlanks).stop = some l.skipBlanks.rest := slice?_of hslice
      have htake := take_eq hslice hend (hmodes ▸ hms) hq'
      rw [Option.map_eq_bind] at htake
      rw [if_neg hgo, hcurrent]
      simp only [Option.bind_some]
      split
      · rename_i q modes hm
        have hhead : ¬l.skipBlanks.rest.head? = some q := by
          intro hc
          apply hq' q hc
          rw [Lexer.mode, hmodes]
          change l.modes = _ at hm
          rw [hm]
          rfl
        rw [if_neg hhead]
        exact htake
      · exact htake

/-- A quote ends the template in its value, and the call starts anew in the value. -/
theorem next_quote {q : Char} {cs : List Char} {offset : Nat} {modes : List Mode}
    (h : IsSlice source offset stop (q :: cs)) :
    Cursor.next source ⟨offset, stop, .template (some q) :: modes⟩ =
      Cursor.next source ⟨offset, stop, modes⟩ := by
  have hlt : ¬stop ≤ offset := Nat.not_le.mpr (h.lt (List.cons_ne_nil _ _))
  have hskip : Cursor.skipBlanks source ⟨offset, stop, .template (some q) :: modes⟩ =
      some ⟨offset, stop, .template (some q) :: modes⟩ := rfl
  conv_lhs => rw [Cursor.next]
  simp only [if_neg hlt, hskip, slice?_of h, Option.bind_eq_bind, Option.bind_some,
    List.head?_cons, if_true]

/-- Both lexers give the same token. -/
theorem next_eq (hs : Stack l.modes) (h : IsSlice source l.offset stop l.rest) :
    (cursorOf stop l).next source = some (l.next.1, cursorOf stop l.next.2) := by
  obtain ⟨rest, offset, modes⟩ := l
  have plain {modes : List Mode} (hms : modes ≠ [])
      (hset : ∀ c ∈ rest.head?, Lexer.settle c modes = modes)
      (hq : ∀ c ∈ rest.head?, modes.headD .content ≠ .template (some c)) :
      (cursorOf stop ⟨rest, offset, modes⟩).next source =
        some ((Lexer.mk rest offset modes).next.1,
          cursorOf stop (Lexer.mk rest offset modes).next.2) := by
    refine next_of_settled h hms ?_ hq
    cases rest with
    | nil => rfl
    | cons c cs =>
      change Lexer.mk (c :: cs) offset (Lexer.settle c modes) = _
      rw [hset c rfl]
  cases hs with
  | content | tag | templateInContent | templateInTag | value =>
    exact plain (List.cons_ne_nil _ _) (fun _ _ => rfl) (by rintro _ _ ⟨⟩)
  | @templateInValue q hquote =>
    by_cases hhead : rest.head? = some q
    · -- the quote ends the template, and the call starts anew in the value
      obtain ⟨cs, rfl⟩ := List.head?_eq_some_iff.mp hhead
      have hsettle : Lexer.settle q [.template (some q), .value q, .tag, .content] =
          [.value q, .tag, .content] := by
        rw [Lexer.settle, if_pos rfl]
        rfl
      have hset : (Lexer.mk (q :: cs) offset
          [.template (some q), .value q, .tag, .content]).settled =
            ⟨q :: cs, offset, [.value q, .tag, .content]⟩ := by
        change Lexer.mk (q :: cs) offset (Lexer.settle q _) = _
        rw [hsettle]
      have hsame : (Lexer.mk (q :: cs) offset
          [.template (some q), .value q, .tag, .content]).next =
            (Lexer.mk (q :: cs) offset [.value q, .tag, .content]).next := by
        rw [Lexer.next, hset]
        rfl
      have hmodes : ∀ c ∈ (q :: cs).head?, Lexer.settle c [.value q, .tag, .content] =
          [.value q, .tag, .content] := fun _ _ => rfl
      rw [hsame]
      exact (next_quote h).trans (plain (List.cons_ne_nil _ _) hmodes (by rintro _ _ ⟨⟩))
    · refine plain (List.cons_ne_nil _ _) ?_ ?_
      · intro c hc
        rw [Lexer.settle, if_neg]
        rintro rfl
        exact hhead hc
      · rintro c hc ⟨⟩
        exact hhead hc

theorem isSlice_next (h : IsSlice source l.offset stop l.rest) :
    IsSlice source l.next.2.offset stop l.next.2.rest := by
  have hcall := Lexer.call_next l
  generalize l.next.1 = o, l.next.2 = l' at hcall ⊢
  cases hcall with
  | stop =>
    rw [← List.append_nil l.rest] at h
    exact h.right
  | @token gap cs c hrest =>
    rw [hrest, ← Token.Mode.read_append l.settled.mode (c :: cs)] at h
    exact h.right.right

end Checked

end ProseMarkup
