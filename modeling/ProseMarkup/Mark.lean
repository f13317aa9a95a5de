import ProseMarkup.Name
import ProseMarkup.Text.Blank

namespace ProseMarkup

structure OpeningTag where
  name : List Char
  inside : List Char
deriving DecidableEq, Repr

namespace OpeningTag

def text (t : OpeningTag) : List Char :=
  '<' :: t.name ++ t.inside ++ ['>']

def selfClosing (t : OpeningTag) : Bool :=
  t.inside.getLast? = some '/'

def endsName : List Char → Bool
  | [] => true
  | c :: _ => c = '>' || c = '/' || Text.isBlank c

inductive Ending where
  | found (inside rest : List Char)
  /-- The end of the text, inside a quoted value. -/
  | inQuotes
  /-- Another tag, or the end of the text. -/
  | missing
deriving DecidableEq, Repr

def Ending.push (c : Char) : Ending → Ending
  | found inside rest => found (c :: inside) rest
  | inQuotes => inQuotes
  | missing => missing

def scan (quote : Option Char) : List Char → Ending
  | [] => if quote.isSome then .inQuotes else .missing
  | c :: cs =>
    match quote with
    | some q => (scan (if c = q then none else some q) cs).push c
    | none =>
      if c = '>' then .found [] cs
      else if c = '<' then .missing
      else (scan (if c = '"' || c = '\'' then some c else none) cs).push c

def scanPlain? : List Char → Option (List Char × List Char)
  | [] => none
  | c :: cs =>
    if c = '>' then some ([], cs)
    else if c = '<' then none
    else (scanPlain? cs).map fun (inside, rest) => (c :: inside, rest)

/-- Cuts a text at the end of the tag that it is in. When a quote stays open the quotes do not
count. -/
def splitEnd? (cs : List Char) : Option (List Char × List Char) :=
  match scan none cs with
  | .found inside rest => some (inside, rest)
  | .inQuotes => scanPlain? cs
  | .missing => none

theorem append_of_scan {quote : Option Char} {cs inside rest : List Char}
    (h : scan quote cs = .found inside rest) : inside ++ '>' :: rest = cs := by
  induction cs generalizing quote inside with
  | nil => cases quote <;> simp [scan] at h
  | cons c cs ih =>
    have push : ∀ q, (scan q cs).push c = .found inside rest → inside ++ '>' :: rest = c :: cs := by
      intro q hq
      rcases hs : scan q cs with ⟨inside', rest'⟩ | _ | _ <;> simp [hs, Ending.push] at hq
      obtain ⟨rfl, rfl⟩ := hq
      rw [List.cons_append, ih hs]
    cases quote with
    | some q => exact push _ h
    | none =>
      by_cases he : c = '>'
      · simp only [scan, he, if_true, Ending.found.injEq] at h
        simp [← h.1, ← h.2, he]
      · by_cases hl : c = '<'
        · simp [scan, hl] at h
        · simp only [scan, he, hl, if_false] at h
          exact push _ h

theorem append_of_scanPlain? {cs inside rest : List Char}
    (h : scanPlain? cs = some (inside, rest)) : inside ++ '>' :: rest = cs := by
  induction cs generalizing inside with
  | nil => simp [scanPlain?] at h
  | cons c cs ih =>
    by_cases he : c = '>'
    · simp only [scanPlain?, he, if_true, Option.some.injEq, Prod.mk.injEq] at h
      simp [← h.1, ← h.2, he]
    · by_cases hl : c = '<'
      · simp [scanPlain?, hl] at h
      · simp only [scanPlain?, he, hl, if_false] at h
        obtain ⟨⟨inside', rest'⟩, hs, hp⟩ := Option.map_eq_some_iff.mp h
        cases hp
        rw [List.cons_append, ih hs]

theorem append_of_splitEnd? {cs inside rest : List Char}
    (h : splitEnd? cs = some (inside, rest)) : inside ++ '>' :: rest = cs := by
  unfold splitEnd? at h
  split at h
  · rename_i hs
    cases h
    exact append_of_scan hs
  · exact append_of_scanPlain? h
  · contradiction

end OpeningTag

structure ClosingTag where
  name : List Char
  gap : List Char
deriving DecidableEq, Repr

namespace ClosingTag

def text (t : ClosingTag) : List Char :=
  '<' :: '/' :: t.name ++ t.gap ++ ['>']

def read? (cs : List Char) : Option (ClosingTag × List Char) :=
  match Name.read? cs with
  | none => none
  | some (name, cs) =>
    match cs.dropWhile Text.isBlank with
    | '>' :: rest => some (⟨name, cs.takeWhile Text.isBlank⟩, rest)
    | _ => none

theorem text_append_of_read? {cs rest : List Char} {t : ClosingTag}
    (h : read? cs = some (t, rest)) : t.text ++ rest = '<' :: '/' :: cs := by
  unfold read? at h
  split at h
  · contradiction
  · rename_i name after hn
    split at h
    · rename_i hd
      cases h
      have ha : after.takeWhile Text.isBlank ++ '>' :: rest = after := by
        rw [← hd, List.takeWhile_append_dropWhile]
      simp only [text, List.cons_append, List.append_assoc, List.nil_append, ha,
        Name.append_of_read? hn]
    · contradiction

end ClosingTag

inductive Mark where
  /-- A comment. The fields are its characters behind `<`, and what follows it. -/
  | comment (inner rest : List Char)
  | closing (tag : ClosingTag) (rest : List Char)
  | opening (tag : OpeningTag) (rest : List Char)
  /-- A name whose tag does not end, and what follows the name. -/
  | unclosed (name rest : List Char)
  | plain
deriving DecidableEq, Repr

namespace Mark

def readOpening (cs : List Char) : Mark :=
  match Name.read? cs with
  | none => .plain
  | some (name, cs) =>
    if OpeningTag.endsName cs then
      match OpeningTag.splitEnd? cs with
      | some (inside, rest) => .opening ⟨name, inside⟩ rest
      | none => .unclosed name cs
    else .plain

/-- Reads the mark behind `<`. A comment ends with the first `-->`, whose hyphens may be those that
start the comment, or with the text. -/
def read : List Char → Mark
  | '!' :: '-' :: '-' :: cs =>
    match Text.splitAfter? ['-', '-', '>'] ('-' :: '-' :: cs) with
    | some (inner, rest) => .comment ('!' :: inner) rest
    | none => .comment ('!' :: '-' :: '-' :: cs) []
  | '/' :: cs =>
    match ClosingTag.read? cs with
    | some (tag, rest) => .closing tag rest
    | none => .plain
  | cs => readOpening cs

theorem readOpening_ne_comment {cs inner rest : List Char} :
    readOpening cs ≠ .comment inner rest := by
  unfold readOpening
  split
  · nofun
  · split
    · split <;> nofun
    · nofun

theorem readOpening_ne_closing {cs rest : List Char} {tag : ClosingTag} :
    readOpening cs ≠ .closing tag rest := by
  unfold readOpening
  split
  · nofun
  · split
    · split <;> nofun
    · nofun

theorem text_append_of_readOpening {cs rest : List Char} {tag : OpeningTag}
    (h : readOpening cs = .opening tag rest) : tag.text ++ rest = '<' :: cs := by
  unfold readOpening at h
  split at h
  · contradiction
  · rename_i name after hn
    split at h
    · split at h
      · rename_i inside rest' hs
        cases h
        have he := OpeningTag.append_of_splitEnd? hs
        simp only [OpeningTag.text, List.cons_append, List.append_assoc, List.nil_append, he,
          Name.append_of_read? hn]
      · contradiction
    · contradiction

theorem append_of_readOpening_unclosed {cs name rest : List Char}
    (h : readOpening cs = .unclosed name rest) : name ++ rest = cs := by
  unfold readOpening at h
  split at h
  · contradiction
  · rename_i hn
    split at h
    · split at h
      · contradiction
      · cases h
        exact Name.append_of_read? hn
    · contradiction

theorem append_of_comment {cs inner rest : List Char} (h : read cs = .comment inner rest) :
    inner ++ rest = cs := by
  unfold read at h
  split at h
  · split at h
    · rename_i hs
      cases h
      rw [List.cons_append, Text.append_of_splitAfter? hs]
    · cases h
      rw [List.append_nil]
  · split at h <;> contradiction
  · exact absurd h readOpening_ne_comment

theorem text_append_of_closing {cs rest : List Char} {tag : ClosingTag}
    (h : read cs = .closing tag rest) : tag.text ++ rest = '<' :: cs := by
  unfold read at h
  split at h
  · split at h <;> contradiction
  · split at h
    · rename_i hr
      cases h
      exact ClosingTag.text_append_of_read? hr
    · contradiction
  · exact absurd h readOpening_ne_closing

theorem text_append_of_opening {cs rest : List Char} {tag : OpeningTag}
    (h : read cs = .opening tag rest) : tag.text ++ rest = '<' :: cs := by
  unfold read at h
  split at h
  · split at h <;> contradiction
  · split at h <;> contradiction
  · exact text_append_of_readOpening h

theorem append_of_unclosed {cs name rest : List Char} (h : read cs = .unclosed name rest) :
    name ++ rest = cs := by
  unfold read at h
  split at h
  · split at h <;> contradiction
  · split at h <;> contradiction
  · exact append_of_readOpening_unclosed h

end Mark

end ProseMarkup
