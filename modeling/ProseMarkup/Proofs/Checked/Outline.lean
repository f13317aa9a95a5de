import ProseMarkup.Checked.Outline
import ProseMarkup.Proofs.Checked.Enclosure
import ProseMarkup.Proofs.Lexing
import ProseMarkup.Proofs.Prose

namespace ProseMarkup

theorem OpeningTag.text_ne_nil (t : OpeningTag) : t.text ≠ [] :=
  List.cons_ne_nil _ _

theorem ClosingTag.text_ne_nil (t : ClosingTag) : t.text ≠ [] :=
  List.cons_ne_nil _ _

theorem Text.breakBefore_append_of_suffix {stops : List Char → Bool} {past rest : List Char}
    (h : ∀ s, s <:+ past → s ≠ [] → stops (s ++ rest) = false) :
    breakBefore stops (past ++ rest) =
      (past ++ (breakBefore stops rest).1, (breakBefore stops rest).2) := by
  induction past with
  | nil => rfl
  | cons c past ih =>
    have hstop := h (c :: past) (List.suffix_refl _) (List.cons_ne_nil c past)
    have htail := ih fun s hs => h s (hs.trans (List.suffix_cons c past))
    rw [List.cons_append] at hstop ⊢
    rw [breakBefore, hstop, htail]
    rfl

theorem Token.Lexeme.opensMarkup_eq_false {c : Char} {cs : List Char} (h : c ∉ ['<', '{']) :
    opensMarkup (c :: cs) = false := by
  simp only [List.mem_cons, List.not_mem_nil, or_false, not_or] at h
  have hopen : opensTemplate (c :: cs) = false := by
    apply Bool.eq_false_iff.mpr
    intro ho
    obtain ⟨ds, hds⟩ := opensTemplate_eq_true ho
    exact h.2 (List.cons.inj hds).1
  simp [opensMarkup, hopen, h.1]

theorem readTemplate?_append_of_forall {past : List Char} (h : ∀ c ∈ past, c ∉ ['}', '<', '{'])
    (rest : List Char) : readTemplate? (past ++ rest) =
      (readTemplate? rest).map fun (inner, rest) => (past ++ inner, rest) := by
  induction past with
  | nil =>
    rw [List.nil_append]
    rcases readTemplate? rest with _ | ⟨inner, rest⟩ <;> rfl
  | cons c past ih =>
    obtain ⟨hc, h⟩ := List.forall_mem_cons.mp h
    simp only [List.mem_cons, List.not_mem_nil, or_false, not_or] at hc
    rw [List.cons_append, readTemplate?_cons hc.2.1 (fun he => absurd he hc.2.2)
      (fun he => absurd he hc.1), ih h, Option.map_map]
    rfl

namespace Checked

open Text (size IsSlice)
open Token.Lexeme (opensMarkup)

variable {source part : List Char} {stop i pos : Nat}

theorem isSlice_succ {m : Char} {cs : List Char} (hm : IsAscii m)
    (h : IsSlice source pos stop (m :: cs)) : IsSlice source (pos + 1) stop cs := by
  have happend : IsSlice source pos stop ([m] ++ cs) := h
  have hright := happend.right
  rwa [Text.size_cons, Text.size_nil, utf8Size_of_isAscii hm] at hright

theorem isSlice_name {tag : OpeningTag} {rest : List Char}
    (h : IsSlice source pos stop (tag.text ++ rest)) :
    IsSlice source (pos + 1) (pos + 1 + size tag.name) tag.name := by
  rw [OpeningTag.text, List.append_assoc, List.append_assoc, List.cons_append] at h
  exact (isSlice_succ (by decide) h).left

theorem byte?_eq_iff {m : Char} (hm : IsAscii m) (h : IsSlice source i stop part) :
    byte? source i = some m.toUInt8 ∧ i < stop ↔ part.head? = some m := by
  cases part with
  | nil =>
    simp only [List.head?_nil, reduceCtorEq, iff_false, not_and]
    intro
    exact Nat.not_lt.mpr (Nat.le_of_eq h.eq_of_nil.symm)
  | cons c cs =>
    rw [byte?_of h, List.head?_cons, Option.some.injEq, Option.some.injEq, lead_eq_iff hm]
    exact and_iff_left (h.lt (List.cons_ne_nil _ _))

theorem isByteAt_eq {m : Char} (hm : IsAscii m) (h : IsSlice source i stop part) :
    isByteAt source stop i m.toUInt8 = some (decide (part.head? = some m)) := by
  rw [isByteAt]
  cases part with
  | nil =>
    rw [if_neg (Nat.not_lt.mpr (Nat.le_of_eq h.eq_of_nil.symm))]
    rfl
  | cons c cs =>
    rw [if_pos (h.lt (List.cons_ne_nil _ _)), byte?_of h]
    simp [lead_eq_iff hm]

theorem nextBoundary_eq (h : IsSlice source i stop part) : nextBoundary source stop i =
    some (if (Text.breakBefore opensMarkup part).2 = [] then none
      else some (i + size (Text.breakBefore opensMarkup part).1)) := by
  induction hlen : part.length using Nat.strong_induction_on generalizing part i with
  | _ len ih =>
    have skip {past : List Char} (hpast : ∀ c ∈ past, c ∉ ['<', '{']) (rest : List Char) :
        Text.breakBefore opensMarkup (past ++ rest) =
          (past ++ (Text.breakBefore opensMarkup rest).1,
            (Text.breakBefore opensMarkup rest).2) := by
      refine Text.breakBefore_append_of_suffix fun s hs hne => ?_
      obtain ⟨c, cs, rfl⟩ := List.exists_cons_of_ne_nil hne
      exact Token.Lexeme.opensMarkup_eq_false (hpast c (hs.mem List.mem_cons_self))
    obtain hnot | ⟨past, c, rest, rfl, hpast, hc⟩ := exists_mark ['<', '{'] part
    · have hbreak := skip hnot []
      rw [List.append_nil] at hbreak
      rw [hbreak, nextBoundary]
      split
      · rw [bytes?_of h]
        simp only [Option.bind_eq_bind, Option.bind_some, findByte?_of_forall (by decide) hnot]
        rfl
      · rfl
    · have hlt : i < stop := h.lt (by simp)
      rw [skip hpast, nextBoundary, if_pos hlt, bytes?_of h]
      simp only [Option.bind_eq_bind, Option.bind_some, findByte?_of_append (by decide) hpast hc,
        byte?_of h.right]
      obtain rfl | rfl : c = '<' ∨ c = '{' := by simpa using hc
      · rw [if_pos (.inl ((lead_eq_iff (by decide)).mpr rfl))]
        simp [Text.breakBefore, opensMarkup]
      · have hrest := isSlice_succ (by decide) h.right
        by_cases hhead : rest.head? = some '{'
        · obtain ⟨rest, rfl⟩ := List.head?_eq_some_iff.mp hhead
          rw [if_pos (.inr ((byte?_eq_iff (by decide) hrest).mpr rfl))]
          simp [Text.breakBefore, opensMarkup, Token.Lexeme.opensTemplate]
        · have hopen : opensMarkup ('{' :: rest) = false := by
            cases rest with
            | nil => rfl
            | cons d rest =>
              have hd : d ≠ '{' := fun hd => hhead (hd ▸ rfl)
              simp [opensMarkup, Token.Lexeme.opensTemplate, hd]
          have hnot : ¬(lead '{' = '<'.toUInt8 ∨ byte? source (i + size past + 1) =
              some '{'.toUInt8 ∧ i + size past + 1 < stop) := by
            rw [byte?_eq_iff (by decide) hrest]
            exact not_or.mpr ⟨by decide, hhead⟩
          rw [if_neg hnot, ih _ (by simp [← hlen]; omega) hrest rfl, Text.breakBefore, hopen]
          simp [Nat.add_assoc]
          rfl

theorem templateClose_eq (h : IsSlice source i stop part) : templateClose source stop i =
    some ((readTemplate? part).map fun (inner, _) => i + size inner + 2) := by
  induction hlen : part.length using Nat.strong_induction_on generalizing part i with
  | _ len ih =>
    obtain hnot | ⟨past, c, rest, rfl, hpast, hc⟩ := exists_mark ['}', '<', '{'] part
    · have hread := readTemplate?_append_of_forall hnot []
      rw [List.append_nil] at hread
      rw [hread, templateClose]
      split
      · rw [bytes?_of h]
        simp only [Option.bind_eq_bind, Option.bind_some, findByte?_of_forall (by decide) hnot]
        rfl
      · rfl
    · have hlt : i < stop := h.lt (by simp)
      have hascii : IsAscii c := isAscii_of_mem (by decide) hc
      have hrest := isSlice_succ hascii h.right
      have hlead : lead c = c.toUInt8 := (lead_eq_iff hascii).mpr rfl
      rw [readTemplate?_append_of_forall hpast, templateClose, if_pos hlt, bytes?_of h]
      simp only [Option.bind_eq_bind, Option.bind_some, findByte?_of_append (by decide) hpast hc,
        byte?_of h.right, hlead, isByteAt_eq hascii hrest]
      have next (hlt : c ≠ '<') (hhead : rest.head? ≠ some c) :
          templateClose source stop (i + size past + 1) = some
            ((Option.map (fun (inner, rest) => (past ++ inner, rest))
              (readTemplate? (c :: rest))).map fun (inner, _) => i + size inner + 2) := by
        rw [ih _ (by simp [← hlen]; omega) hrest rfl,
          readTemplate?_cons hlt (fun hc => hc ▸ hhead) (fun hc => hc ▸ hhead), Option.map_map,
          Option.map_map]
        congr 2
        funext x
        obtain ⟨inner, rest⟩ := x
        simp [utf8Size_of_isAscii hascii, Nat.add_assoc]
      have hclose : '}'.toUInt8 ≠ '<'.toUInt8 ∧ '}'.toUInt8 ≠ '{'.toUInt8 := by decide
      have hopen : '{'.toUInt8 ≠ '<'.toUInt8 := by decide
      by_cases hhead : rest.head? = some c
      · obtain ⟨rest, rfl⟩ := List.head?_eq_some_iff.mp hhead
        obtain rfl | rfl | rfl : c = '}' ∨ c = '<' ∨ c = '{' := by simpa using hc
        · simp [readTemplate?, hclose]
        · simp [readTemplate?]
        · simp [readTemplate?, hopen]
      · obtain rfl | rfl | rfl : c = '}' ∨ c = '<' ∨ c = '{' := by simpa using hc
        · simpa [hhead, hclose] using next (by decide) hhead
        · simp [readTemplate?]
        · simpa [hhead, hopen] using next (by decide) hhead

theorem resyncPoint_eq (h : IsSlice source i stop part) :
    resyncPoint source i stop = some (i + size (Text.splitLine part).1) := by
  rw [resyncPoint, bytes?_of h]
  obtain hnot | ⟨past, c, rest, rfl, hpast, hc⟩ := exists_mark ['\n'] part
  · have hmem : '\n' ∉ part := fun hmem => hnot '\n' hmem (List.mem_singleton_self _)
    have hline := Text.splitLine_of_not_mem hmem []
    rw [List.append_nil] at hline
    simp only [Option.bind_eq_bind, Option.bind_some, findByte?_of_forall (by decide) hnot, hline]
    rw [← h.start_add, Text.splitLine, List.append_nil]
    rfl
  · obtain rfl := List.mem_singleton.mp hc
    have hmem : '\n' ∉ past := fun hmem => hpast '\n' hmem (List.mem_singleton_self _)
    simp only [Option.bind_eq_bind, Option.bind_some, findByte?_of_append (by decide) hpast hc,
      Text.splitLine_of_not_mem hmem, Text.splitLine]
    simp [Nat.add_assoc]
    rfl

def closingOf (start : Nat) (e : Element) : Option Span :=
  e.enclosed.map fun (body, _) =>
    ⟨start + size e.opening.text + size body, start + size e.text⟩

def Head.ofRead (start : Nat) : ProseMarkup.Head → Head
  | .prose passed fault _ => .prose (start + size passed) (fault.map (·.diagnostic start))
  | .template inner _ => .template (start + size (Piece.template inner).chars)
  | .element e _ => .element e.cls (.ofText (start + 1) e.opening.name)
      (start + size e.opening.text) (closingOf start e) e.enclosed.isNone

variable {v : Vocabulary}

theorem openingTag_eq {cs rest : List Char} {cls : TagClass} {tag : OpeningTag}
    (h : IsSlice source pos stop ('<' :: cs)) (hm : Mark.read cs = .opening tag rest)
    (hend : tagEnd source (pos + 1 + size tag.name) stop =
      some (.complete (pos + size tag.text) tag.selfClosing)) :
    openingTag v source stop pos cls (.ofText (pos + 1) tag.name) tag.name =
      some (.ofRead pos (match Element.read? v cls tag rest with
        | some (e, rest) => .element e rest
        | none => ProseMarkup.Head.passLine tag.text (.unterminated tag) rest)) := by
  rw [← Mark.text_append_of_opening hm] at h
  rw [openingTag, Span.ofText, hend, Element.read?]
  simp only [Option.bind_eq_bind, Option.bind_some]
  cases hself : tag.selfClosing with
  | true => rfl
  | false =>
    rw [if_neg Bool.false_ne_true]
    simp only [findClose_eq h.right, Option.bind_some]
    cases hfind : Enclosure.find? v tag.name rest with
    | some e =>
      have hclosing : closingSpan (pos + size tag.text) e =
          ⟨pos + size tag.text + size e.body,
            pos + size (Element.text ⟨cls, tag, some (e.body, e.closing)⟩)⟩ := by
        simp [closingSpan, Element.text, Element.tail, Enclosure.text, Nat.add_assoc]
      simp only [Option.map_some, hclosing]
      rfl
    | none =>
      -- the line is searched from the last character of the tag on
      have hlast : IsSlice source (pos + size ('<' :: tag.name ++ tag.inside)) stop
          ('>' :: rest) := by
        rw [OpeningTag.text, List.append_assoc] at h
        exact h.right
      have hsize : pos + size tag.text = 1 + (pos + size ('<' :: tag.name ++ tag.inside)) := by
        rw [OpeningTag.text, Text.size_append]
        change pos + (_ + 1) = _
        omega
      have hsub : sub? (pos + size tag.text) 1 =
          some (pos + size ('<' :: tag.name ++ tag.inside)) := by
        rw [hsize, sub?_add]
      have hline : pos + size ('<' :: tag.name ++ tag.inside) +
          size (Text.splitLine ('>' :: rest)).1 =
            pos + size (tag.text ++ (Text.splitLine rest).1) := by
        change _ + (1 + size (Text.splitLine rest).1) = _
        rw [Text.size_append tag.text]
        omega
      simp only [Option.map_none, hsub, Option.bind_some, resyncPoint_eq hlast, hline]
      rfl

theorem unclosedTag_eq {cs name rest : List Char} {cls : TagClass}
    (h : IsSlice source pos stop ('<' :: cs)) (hm : Mark.read cs = .unclosed name rest)
    (hend : tagEnd source (pos + 1 + size name) stop = some .malformed) :
    openingTag v source stop pos cls (.ofText (pos + 1) name) name =
      some (.ofRead pos (ProseMarkup.Head.passLine ('<' :: name) (.malformed name) rest)) := by
  have hname : '\n' ∉ '<' :: name := by
    apply List.not_mem_cons_of_ne_of_not_mem (by decide)
    intro hmem
    have hpart := Name.isPart_of_read? (Mark.read_eq_unclosed hm).1 _ hmem
    revert hpart
    decide
  rw [← Mark.append_of_unclosed hm] at h
  have hline := resyncPoint_eq h
  rw [← List.cons_append, Text.splitLine_of_not_mem hname] at hline
  have hspan : pos + 1 + size name = pos + size ('<' :: name) := by
    change _ = pos + (1 + size name)
    omega
  rw [openingTag, Span.ofText, hend, hline, hspan]
  rfl

theorem headAt_mark {cs : List Char} (h : IsSlice source pos stop ('<' :: cs)) :
    headAt v source stop pos = some (.ofRead pos (ProseMarkup.Head.readMark v cs)) := by
  have hsight := sight_read h
  have hlead : lead '<' ≠ '{'.toUInt8 := by decide
  rw [headAt, byte?_of h, slice?_of h]
  simp only [Option.bind_eq_bind, Option.bind_some, if_neg hlead]
  unfold ProseMarkup.Head.readMark
  generalize hm : Mark.read cs = m at hsight
  cases hsight with
  | comment hc hend =>
    rw [if_pos hc, hend]
    rfl
  | closing hc hs htag hname =>
    rw [if_neg hc, if_pos hs, strayClosingTag, htag]
    simp only [Option.bind_eq_bind, Option.bind_some, Span.ofText, hname]
    split <;> rfl
  | noClosing hc hs htag =>
    rw [if_neg hc, if_pos hs, strayClosingTag, htag]
    rfl
  | @opening tag rest hc hs htag hname hend =>
    rw [if_neg hc, if_neg hs, htag]
    simp only [Option.bind_some, Span.ofText, hname]
    cases v.classify (.ofList tag.name) with
    | none => rfl
    | some cls => exact openingTag_eq h hm hend
  | @unclosed name rest hc hs htag hname hend =>
    rw [if_neg hc, if_neg hs, htag]
    simp only [Option.bind_some, Span.ofText, hname]
    cases v.classify (.ofList name) with
    | none => rfl
    | some cls => exact unclosedTag_eq h hm hend
  | plain hc hs htag =>
    rw [if_neg hc, if_neg hs, htag]
    rfl

/-- What stands at a boundary is what the head of the text is read as. -/
theorem headAt_eq (h : IsSlice source pos stop part) (hopen : opensMarkup part = true) :
    headAt v source stop pos = some (.ofRead pos (ProseMarkup.Head.read v part)) := by
  obtain hhead | hopen := (Bool.or_eq_true _ _).mp hopen
  · obtain ⟨cs, rfl⟩ := List.head?_eq_some_iff.mp (of_decide_eq_true hhead)
    exact headAt_mark h
  · obtain ⟨cs, rfl⟩ := Token.Lexeme.opensTemplate_eq_true hopen
    have hinside := isSlice_succ (by decide) (isSlice_succ (by decide) h)
    have hlead : lead '{' = '{'.toUInt8 := by decide
    rw [headAt, byte?_of h, ProseMarkup.Head.read]
    simp only [Option.bind_eq_bind, Option.bind_some, if_pos hlead, templateClose_eq hinside]
    cases hread : readTemplate? cs with
    | none => rfl
    | some x =>
      simp only [Option.map_some, Head.ofRead, Piece.chars, List.cons_append, Text.size_cons,
        Text.size_append]
      change some (Head.template (pos + 2 + size x.1 + 2)) =
        some (Head.template (pos + (1 + (1 + (size x.1 + 2)))))
      congr 2
      omega

def RawKind.ofPiece (start : Nat) : Piece → RawKind
  | .text _ | .cut _ => .text
  | .template inner => .template (.ofText (start + 2) inner)
  | .element e => .element e.cls (.ofText (start + 1) e.opening.name)
      (start + size e.opening.text) (closingOf start e) e.enclosed.isNone

def Raw.ofRegion (r : Region) : Raw :=
  ⟨.ofPiece r.start r.piece, r.span.start, r.span.stop⟩

/-- Puts prose before regions, unless it is empty. -/
def pending (start : Nat) (chars : List Char) (ts : List (Tree Region)) : List (Tree Region) :=
  if chars = [] then ts else Region.prose start chars [] ts

def notesOf (ts : List (Tree Region)) : List Diagnostic :=
  (Tree.preorderAll ts).flatMap Region.notes

open Region (regions regions_nil regions_of_prose)

variable {chars passed : List Char} {notes : List Diagnostic} {ts : List (Tree Region)}
  {limit depth textStart : Nat}

theorem prose_prose (mid : Nat) (notes' : List Diagnostic) :
    Region.prose start chars notes (Region.prose mid passed notes' ts) =
      Region.prose start (chars ++ passed) (notes ++ notes') ts := by
  rcases ts with _ | ⟨⟨⟨at', _ | _ | _ | _, notes''⟩, _ | _⟩, ts⟩ <;> simp [Region.prose]

theorem notesOf_prose : notesOf (Region.prose start chars notes ts) = notes ++ notesOf ts := by
  rcases ts with _ | ⟨⟨⟨at', _ | _ | _ | _, notes''⟩, _ | _⟩, ts⟩ <;>
    simp [Region.prose, notesOf, Tree.preorder, Tree.preorderAll]

theorem pending_pending (mid : Nat) (hmid : chars = [] → mid = start) :
    pending start chars (pending mid passed ts) = pending start (chars ++ passed) ts := by
  by_cases hchars : chars = []
  · obtain rfl := hmid hchars
    rw [hchars]
    rfl
  · by_cases hpassed : passed = []
    · rw [hpassed, List.append_nil]
      rfl
    · have happend : chars ++ passed ≠ [] := List.append_ne_nil_of_left_ne_nil hchars passed
      rw [pending, if_neg hchars, pending, if_neg hpassed, pending, if_neg happend, prose_prose]
      rfl

theorem notesOf_pending : notesOf (pending start chars ts) = notesOf ts := by
  rw [pending]
  split
  · rfl
  · exact notesOf_prose

theorem mapAll_prose : Tree.mapAll Raw.ofRegion (Region.prose start chars notes ts) =
    Tree.mapAll Raw.ofRegion (Region.prose start chars [] ts) := by
  rcases ts with _ | ⟨⟨⟨at', _ | _ | _ | _, notes''⟩, _ | _⟩, ts⟩ <;> rfl

theorem mapAll_pending_prose (hpassed : passed ≠ []) (mid : Nat) (hmid : chars = [] → mid = start) :
    Tree.mapAll Raw.ofRegion (pending start chars (Region.prose mid passed notes ts)) =
      Tree.mapAll Raw.ofRegion (pending start (chars ++ passed) ts) := by
  have happend : chars ++ passed ≠ [] := List.append_ne_nil_of_right_ne_nil chars hpassed
  by_cases hchars : chars = []
  · obtain rfl := hmid hchars
    rw [hchars, List.nil_append, pending, if_pos rfl, pending, if_neg hpassed, mapAll_prose]
  · rw [pending, if_neg hchars, pending, if_neg happend, prose_prose, mapAll_prose]

theorem mapAll_pending (h : ∀ u ∈ ts.head?, u.label.isProse = false) :
    Tree.mapAll Raw.ofRegion (pending start chars ts) =
      flushText start (start + size chars) ++ Tree.mapAll Raw.ofRegion ts := by
  by_cases hchars : chars = []
  · subst hchars
    have hempty : ¬start < start + size [] := Nat.lt_irrefl start
    rw [pending, if_pos rfl, flushText, if_neg hempty, List.nil_append]
  · have hpos := Text.size_pos hchars
    rw [pending, if_neg hchars, Region.prose_eq_cons h, flushText, if_pos (by omega)]
    rfl

theorem read_of_opensMarkup_eq_false {c : Char} {cs : List Char}
    (h : opensMarkup (c :: cs) = false) :
    ProseMarkup.Head.read v (c :: cs) = .prose [c] none cs := by
  rw [ProseMarkup.Head.read]
  · rintro ds rfl rfl
    cases h
  · rintro rfl
    cases h

theorem regions_eq_pending (cs : List Char) : regions v limit depth start cs =
    pending start (Text.breakBefore opensMarkup cs).1
      (regions v limit depth (start + size (Text.breakBefore opensMarkup cs).1)
        (Text.breakBefore opensMarkup cs).2) := by
  induction cs generalizing start with
  | nil => rfl
  | cons c cs ih =>
    cases hopen : opensMarkup (c :: cs) with
    | true =>
      rw [Text.breakBefore, if_pos hopen]
      rfl
    | false =>
      have hread := read_of_opensMarkup_eq_false (v := v) hopen
      rw [regions_of_prose (List.cons_ne_nil c cs) hread, ih, Text.breakBefore, hopen]
      have hsize (past : List Char) :
          start + size [c] + size past = start + size (c :: past) := Nat.add_assoc ..
      change pending start [c] (pending (start + size [c]) _ _) = _
      rw [pending_pending _ (fun h => absurd h (List.cons_ne_nil c [])), hsize]
      rfl

theorem closingOf_elim (start : Nat) (e : Element) :
    (closingOf start e).elim (start + size e.opening.text) Span.stop = start + size e.text := by
  rw [closingOf, Element.text, Element.tail]
  rcases e.enclosed with _ | ⟨body, closing⟩ <;> simp

theorem markupEnd_eq {e : Element} {rest : List Char}
    (h : IsSlice source pos stop (e.text ++ rest)) :
    ∃ bodyEnd, markupEnd v source pos e.cls (.ofText (pos + 1) e.opening.name)
        (pos + size e.opening.text) (closingOf pos e) =
          some (bodyEnd, (Region.ofElement v pos e).notes) ∧
      ((bodyEnd = none ∧ e.markup v = []) ∨
        ∃ n, bodyEnd = some n ∧ n ≤ stop ∧
          IsSlice source (pos + size e.opening.text) n (e.markup v)) := by
  obtain ⟨cls, tag, enclosed⟩ := e
  cases cls with
  | metadata => exact ⟨none, rfl, .inl ⟨rfl, rfl⟩⟩
  | structural =>
    cases enclosed with
    | none => exact ⟨none, rfl, .inl ⟨rfl, rfl⟩⟩
    | some x =>
      obtain ⟨body, closing⟩ := x
      rw [Element.text, Element.tail, List.append_assoc] at h
      have hname : IsSlice source (pos + 1) (pos + 1 + size tag.name) tag.name := isSlice_name h
      have hbody : IsSlice source (pos + size tag.text) (pos + size tag.text + size body) body := by
        have hright := h.right
        rw [List.append_assoc] at hright
        exact hright.left
      have hstop : pos + size tag.text + size body ≤ stop := by
        have hright := h.right
        rw [List.append_assoc] at hright
        exact hright.right.le
      have hclosing : closingOf pos ⟨.structural, tag, some (body, closing)⟩ =
          some ⟨pos + size tag.text + size body,
            pos + size (Element.text ⟨.structural, tag, some (body, closing)⟩)⟩ := rfl
      rw [hclosing, markupEnd]
      simp only [Option.bind_eq_bind, Span.ofText, slice?_of hname, Option.bind_some,
        isOneOf_eq hbody]
      cases hone : Element.isOneOf v tag.name body with
      | true =>
        have hwraps : Element.wrapsItself v ⟨.structural, tag, some (body, closing)⟩ = true := hone
        refine ⟨none, ?_, .inl ⟨rfl, by simp [Element.markup, hone]⟩⟩
        rw [Region.ofElement, hwraps]
        rfl
      | false =>
        have hwraps : Element.wrapsItself v ⟨.structural, tag, some (body, closing)⟩ = false := hone
        have hmarkup : Element.markup v ⟨.structural, tag, some (body, closing)⟩ = body := by
          simp [Element.markup, hone]
        refine ⟨some (pos + size tag.text + size body), ?_, .inr ⟨_, rfl, hstop, ?_⟩⟩
        · rw [Region.ofElement, hwraps]
          rfl
        · rw [hmarkup]
          exact hbody

theorem pending_nil (start : Nat) (ts : List (Tree Region)) : pending start [] ts = ts :=
  if_pos rfl

theorem notesOf_cons (r : Region) (us ts : List (Tree Region)) :
    notesOf (.node r us :: ts) = r.notes ++ notesOf us ++ notesOf ts := by
  simp [notesOf, Tree.preorder, Tree.preorderAll]

/-- What a scan gives that comes to these regions with the prose from `textStart` on held back. -/
def found (textStart : Nat) (chars : List Char) (ts : List (Tree Region)) :
    List (Tree Raw) × List Diagnostic :=
  (Tree.mapAll Raw.ofRegion (pending textStart chars ts), notesOf ts)

/-- Holds if a scan finds the regions of all ranges with fewer than `len` characters. -/
def Scans (v : Vocabulary) (limit : Nat) (source : List Char) (len : Nat) : Prop :=
  ∀ {depth textStart i stop : Nat} {chars part : List Char}, part.length < len →
    textStart + size chars = i → IsSlice source i stop part →
      segmentRange v limit source depth stop textStart i =
        some (found textStart chars (regions v limit depth i part))

/-- Holds where a scan from `i` on comes to the markup `part` at `pos`. -/
structure ComesTo (source : List Char) (stop i pos : Nat) (part : List Char) : Prop where
  lt : i < stop
  le : i ≤ pos
  boundary : nextBoundary source stop i = some (some pos)
  slice : IsSlice source pos stop part
  opens : opensMarkup part = true

theorem ComesTo.ne_nil (h : ComesTo source stop i pos part) : part ≠ [] := by
  rintro rfl
  cases h.opens

theorem Scans.fresh {len : Nat} (hscans : Scans v limit source len) (hless : part.length < len)
    (h : IsSlice source i stop part) : segmentRange v limit source depth stop i i =
      some (Tree.mapAll Raw.ofRegion (regions v limit depth i part),
        notesOf (regions v limit depth i part)) := by
  have hempty : i + size [] = i := rfl
  rw [hscans hless hempty h, found, pending_nil]

section Step

variable {len : Nat} {rest : List Char}

/-- A scan passes over a head that is prose, and holds it back. -/
theorem segmentRange_prose {fault : Option ProseFault} (hscans : Scans v limit source len)
    (hto : ComesTo source stop i pos part) (htext : textStart + size chars = pos)
    (hlen : part.length ≤ len) (hread : ProseMarkup.Head.read v part = .prose passed fault rest) :
    segmentRange v limit source depth stop textStart i =
      some (found textStart chars (regions v limit depth pos part)) := by
  have hpart := hto.ne_nil
  obtain ⟨hlt, hle, hboundary, h, hopen⟩ := hto
  have happend : passed ++ rest = part := ProseMarkup.Head.append_of_read hread
  have hne := ProseMarkup.Head.read_chars_ne_nil v hpart
  rw [hread] at hne
  change passed ≠ [] at hne
  have hpos := Text.size_pos hne
  have hmove : i < pos + size passed := by omega
  have hless : rest.length < len :=
    Nat.lt_of_lt_of_le (ProseMarkup.Head.rest_length hpart hread) hlen
  have hnext : textStart + size (chars ++ passed) = pos + size passed := by
    rw [Text.size_append, ← Nat.add_assoc, htext]
  have hmid : chars = [] → pos = textStart := by
    rintro rfl
    exact htext.symm
  have hhead := headAt_eq (v := v) h hopen
  rw [← happend] at h
  rw [segmentRange, dif_pos hlt, hboundary]
  simp only [Option.bind_eq_bind, Option.bind_some, hhead, hread, Head.ofRead, assert?_of hmove,
    hscans hless hnext h.right]
  rw [found, found, regions_of_prose hpart hread, mapAll_pending_prose hne _ hmid, notesOf_prose]
  cases fault <;> rfl

theorem template?_eq (start : Nat) (inner : List Char) :
    Raw.template? start (start + size (Piece.template inner).chars) =
      some (Raw.ofRegion (.ofTemplate start inner)) := by
  have hsize : start + size (Piece.template inner).chars = 2 + (start + 2 + size inner) := by
    change start + (1 + (1 + size (inner ++ ['}', '}']))) = _
    rw [Text.size_append]
    change start + (1 + (1 + (size inner + 2))) = _
    omega
  simp only [Raw.template?, hsize, sub?_add, Option.bind_eq_bind, Option.bind_some,
    Raw.ofRegion, Region.ofTemplate, Region.span, Region.chars, Span.ofText]
  rfl

theorem segmentRange_template {inner : List Char} (hscans : Scans v limit source len)
    (hto : ComesTo source stop i pos part) (htext : textStart + size chars = pos)
    (hlen : part.length ≤ len) (hread : ProseMarkup.Head.read v part = .template inner rest) :
    segmentRange v limit source depth stop textStart i =
      some (found textStart chars (regions v limit depth pos part)) := by
  have hpart := hto.ne_nil
  obtain ⟨hlt, hle, hboundary, h, hopen⟩ := hto
  have happend : (Piece.template inner).chars ++ rest = part :=
    ProseMarkup.Head.append_of_read hread
  have hpos : 0 < size (Piece.template inner).chars := Text.size_pos (List.cons_ne_nil _ _)
  have hmove : i < pos + size (Piece.template inner).chars := by omega
  have hless : rest.length < len :=
    Nat.lt_of_lt_of_le (ProseMarkup.Head.rest_length hpart hread) hlen
  have hhead := headAt_eq (v := v) h hopen
  rw [← happend] at h
  rw [segmentRange, dif_pos hlt, hboundary]
  simp only [Option.bind_eq_bind, Option.bind_some, hhead, hread, Head.ofRead, assert?_of hmove,
    template?_eq, hscans.fresh hless h.right]
  rw [found, Region.regions_of_template hread, mapAll_pending (by rintro _ ⟨⟩; rfl), htext,
    notesOf_cons]
  rfl

theorem segmentRange_element {e : Element} (hscans : Scans v limit source len)
    (hto : ComesTo source stop i pos part) (htext : textStart + size chars = pos)
    (hlen : part.length ≤ len) (hread : ProseMarkup.Head.read v part = .element e rest) :
    segmentRange v limit source depth stop textStart i =
      some (found textStart chars (regions v limit depth pos part)) := by
  have hpart := hto.ne_nil
  obtain ⟨hlt, hle, hboundary, h, hopen⟩ := hto
  have happend : e.text ++ rest = part := ProseMarkup.Head.append_of_read hread
  have hpos := Text.size_pos e.opening.text_ne_nil
  have hmove : i < (closingOf pos e).elim (pos + size e.opening.text) Span.stop := by
    rw [closingOf_elim, Element.text, Text.size_append]
    omega
  have hless : rest.length < len :=
    Nat.lt_of_lt_of_le (ProseMarkup.Head.rest_length hpart hread) hlen
  have hhead := headAt_eq (v := v) h hopen
  rw [← happend] at h
  rw [segmentRange, dif_pos hlt, hboundary]
  simp only [Option.bind_eq_bind, Option.bind_some, hhead, hread, Head.ofRead, closingOf_elim,
    assert?_of hmove, hscans.fresh hless h.right]
  rw [found, Region.regions_of_element hread,
    mapAll_pending (by rintro _ ⟨⟩; exact Region.treeOf_isProse e), htext, Region.treeOf]
  by_cases hdepth : depth < limit
  · have hlimit : ¬limit < depth + 1 := by omega
    obtain ⟨bodyEnd, hbodyEnd, hcases⟩ := markupEnd_eq (v := v) h
    rw [if_neg hlimit, if_pos hdepth, hbodyEnd]
    simp only [Option.bind_some]
    obtain ⟨rfl, hmarkup⟩ | ⟨n, rfl, hn, hbody⟩ := hcases
    · rw [hmarkup, regions_nil, notesOf_cons]
      rfl
    · have hinner : i < pos + size e.opening.text ∧ n ≤ stop := by omega
      have hless : (e.markup v).length < len := by
        have hmarkup := e.markup_length v
        have htotal := congrArg List.length happend
        rw [List.length_append] at htotal
        omega
      simp only [assert?_of hinner, Option.bind_some, hscans.fresh hless hbody]
      rw [notesOf_cons]
      rfl
  · have hlimit : limit < depth + 1 := by omega
    have hname : slice? source (pos + 1) (pos + 1 + size e.opening.name) =
        some e.opening.name := by
      rw [Element.text, List.append_assoc] at h
      exact slice?_of (isSlice_name h)
    rw [if_pos hlimit, if_neg hdepth, notesOf_cons]
    simp only [Span.ofText, hname, Option.bind_some]
    rfl

end Step

/-- The regions of a range are found, with what is wrong in them. -/
theorem segmentRange_eq (htext : textStart + size chars = i) (h : IsSlice source i stop part) :
    segmentRange v limit source depth stop textStart i =
      some (found textStart chars (regions v limit depth i part)) := by
  induction hlen : part.length using Nat.strong_induction_on
    generalizing part depth stop textStart i chars with
  | _ len ih =>
    have hscans : Scans v limit source len := fun hless htext h => ih _ hless htext h rfl
    -- the prose before the next markup joins what is held back
    have hboundary := nextBoundary_eq h
    have hjoin : found textStart chars (regions v limit depth i part) =
        found textStart (chars ++ (Text.breakBefore opensMarkup part).1)
          (regions v limit depth (i + size (Text.breakBefore opensMarkup part).1)
            (Text.breakBefore opensMarkup part).2) := by
      have hmid : chars = [] → i = textStart := by
        rintro rfl
        exact htext.symm
      rw [regions_eq_pending part, found, found, pending_pending _ hmid, notesOf_pending]
    have hsplit := Text.breakBefore_append opensMarkup part
    have hopen : (Text.breakBefore opensMarkup part).2 ≠ [] →
        opensMarkup (Text.breakBefore opensMarkup part).2 = true := Text.breakBefore_stops
    rw [hjoin]
    generalize Text.breakBefore opensMarkup part = x at hboundary hsplit hopen ⊢
    obtain ⟨past, rest⟩ := x
    dsimp only at hboundary hsplit hopen ⊢
    rw [← hsplit] at h
    have htext' : textStart + size (chars ++ past) = i + size past := by
      rw [Text.size_append, ← Nat.add_assoc, htext]
    by_cases hrest : rest = []
    · subst hrest
      have hstop := h.right.eq_of_nil
      rw [if_pos rfl] at hboundary
      have hend : found textStart (chars ++ past) (regions v limit depth (i + size past) []) =
          (flushText textStart stop, []) := by
        rw [regions_nil, found, mapAll_pending (by rintro _ ⟨⟩), htext', hstop, Tree.mapAll,
          List.append_nil]
        rfl
      rw [segmentRange, hboundary, hend]
      split <;> rfl
    · rw [if_neg hrest] at hboundary
      have hto : ComesTo source stop i (i + size past) rest :=
        ⟨Nat.lt_of_le_of_lt (Nat.le_add_right _ _) (h.right.lt hrest), Nat.le_add_right _ _,
          hboundary, h.right, hopen hrest⟩
      have hshort : rest.length ≤ len := by
        rw [← hlen, ← hsplit, List.length_append]
        exact Nat.le_add_left _ _
      cases hread : ProseMarkup.Head.read v rest with
      | prose => exact segmentRange_prose hscans hto htext' hshort hread
      | template => exact segmentRange_template hscans hto htext' hshort hread
      | element => exact segmentRange_element hscans hto htext' hshort hread

theorem segmentRange_fresh (h : IsSlice source start stop part) :
    segmentRange v limit source depth stop start start =
      some (Tree.mapAll Raw.ofRegion (regions v limit depth start part),
        notesOf (regions v limit depth start part)) := by
  have hempty : start + size [] = start := rfl
  rw [segmentRange_eq hempty h, found, pending_nil]

/-- The outline of a source is found, with what is wrong in its regions. -/
theorem segmentDocument_eq (v : Vocabulary) (limits : Limits) (source : List Char) :
    segmentDocument v limits source = some ((outline v limits source).map Raw.ofRegion,
      (outline v limits source).preorder.flatMap Region.notes) := by
  have htext (notes : List Diagnostic) :
      Raw.ofRegion ⟨0, .text source, notes⟩ = .text 0 (size source) := by
    simp [Raw.ofRegion, RawKind.ofPiece, Raw.text, Region.span, Region.chars, Piece.chars,
      Span.ofText]
  rw [segmentDocument, outline]
  cases limits.brokenBy? (size source) with
  | some limit =>
    simp only [Tree.map, Tree.mapAll, htext]
    rfl
  | none =>
    simp only [segmentRange_fresh (Text.isSlice_self source), Option.bind_eq_bind, Option.bind_some]
    rcases hts : regions v limits.maxDepth 0 0 source with _ | ⟨t, _ | ⟨u, ts⟩⟩
    · simp only [Tree.map, Tree.mapAll, htext]
      rfl
    · have hsplits := Region.splits_regions v limits.maxDepth 0 0 source
      rw [hts] at hsplits
      have hyields := hsplits.yields
      have hchars : t.label.chars = source := by
        have happend := hyields.append
        rwa [List.append_nil] at happend
      have hcover : ((t.map Raw.ofRegion).label.start = 0 ∧
          (t.map Raw.ofRegion).label.stop = size source) := by
        rw [Tree.label_map, Raw.ofRegion, Region.span, Span.ofText, hyields.label_start, hchars]
        exact ⟨rfl, Nat.zero_add _⟩
      simp only [Tree.mapAll, if_pos hcover, notesOf, Tree.preorderAll, List.append_nil]
      rfl
    · simp only [Tree.map, Tree.mapAll, htext]
      rfl

end Checked

end ProseMarkup
