import ProseMarkup.Region

namespace ProseMarkup

/-- Reads the inside of a template behind its opening braces. A template ends before any other
markup starts. -/
def readTemplate? : List Char → Option (List Char × List Char)
  | [] => none
  | '<' :: _ => none
  | '{' :: '{' :: _ => none
  | '}' :: '}' :: cs => some ([], cs)
  | c :: cs => (readTemplate? cs).map fun (inner, rest) => (c :: inner, rest)

theorem append_of_readTemplate? {cs inner rest : List Char}
    (h : readTemplate? cs = some (inner, rest)) : inner ++ '}' :: '}' :: rest = cs := by
  fun_induction readTemplate? cs generalizing inner with
  | case1 => contradiction
  | case2 => contradiction
  | case3 => contradiction
  | case4 cs => cases h; rfl
  | case5 c cs _ _ _ ih =>
    obtain ⟨⟨inner', rest'⟩, hr, he⟩ := Option.map_eq_some_iff.mp h
    cases he
    rw [List.cons_append, ih hr]

inductive ProseFault where
  | malformed (name : List Char)
  | unterminated (tag : OpeningTag)
  | unmatched (tag : ClosingTag)
deriving DecidableEq, Repr

def ProseFault.diagnostic (start : Nat) : ProseFault → Diagnostic
  | .malformed name => .malformedTag (.ofText start ('<' :: name)) (.ofList name)
  | .unterminated tag => .unterminatedTag (.ofText start tag.text) (.ofList tag.name)
  | .unmatched tag => .unmatchedClosingTag (.ofText start tag.text) (.ofList tag.name)

inductive Head where
  | prose (passed : List Char) (fault : Option ProseFault) (rest : List Char)
  | template (inner rest : List Char)
  | element (element : Element) (rest : List Char)
deriving DecidableEq, Repr

namespace Head

def chars : Head → List Char
  | prose passed _ _ => passed
  | template inner _ => (Piece.template inner).chars
  | element e _ => e.text

def rest : Head → List Char
  | prose _ _ rest => rest
  | template _ rest => rest
  | element _ rest => rest

/-- Passes over a faulty tag and the rest of its line. -/
def passLine (past : List Char) (fault : ProseFault) (cs : List Char) : Head :=
  .prose (past ++ (Text.splitLine cs).1) (some fault) (Text.splitLine cs).2

def readMark (v : Vocabulary) (cs : List Char) : Head :=
  match Mark.read cs with
  | .comment inner rest => .prose ('<' :: inner) none rest
  | .closing tag rest =>
    if (v.classify (.ofList tag.name)).isSome then .prose tag.text (some (.unmatched tag)) rest
    else .prose ['<'] none cs
  | .opening tag rest =>
    match v.classify (.ofList tag.name) with
    | none => .prose ['<'] none cs
    | some cls =>
      match Element.read? v cls tag rest with
      | some (e, rest) => .element e rest
      | none => passLine tag.text (.unterminated tag) rest
  | .unclosed name rest =>
    if (v.classify (.ofList name)).isSome then passLine ('<' :: name) (.malformed name) rest
    else .prose ['<'] none cs
  | .plain => .prose ['<'] none cs

def read (v : Vocabulary) : List Char → Head
  | [] => .prose [] none []
  | '{' :: '{' :: cs =>
    match readTemplate? cs with
    | some (inner, rest) => .template inner rest
    | none => .prose ['{', '{'] none cs
  | '<' :: cs => readMark v cs
  | c :: cs => .prose [c] none cs

theorem passLine_append (past : List Char) (fault : ProseFault) (cs : List Char) :
    (passLine past fault cs).chars ++ (passLine past fault cs).rest = past ++ cs := by
  simp [passLine, chars, rest, Text.splitLine_append]

theorem readMark_append (v : Vocabulary) (cs : List Char) :
    (readMark v cs).chars ++ (readMark v cs).rest = '<' :: cs := by
  unfold readMark
  split
  · rename_i h
    exact congrArg ('<' :: ·) (Mark.append_of_comment h)
  · rename_i h
    split
    · exact Mark.text_append_of_closing h
    · rfl
  · rename_i h
    split
    · rfl
    · split
      · rename_i he
        exact (Element.append_of_read? he).trans (Mark.text_append_of_opening h)
      · exact (passLine_append ..).trans (Mark.text_append_of_opening h)
  · rename_i h
    split
    · exact (passLine_append ..).trans (congrArg ('<' :: ·) (Mark.append_of_unclosed h))
    · rfl
  · rfl

theorem read_append (v : Vocabulary) (cs : List Char) :
    (read v cs).chars ++ (read v cs).rest = cs := by
  unfold read
  split
  · rfl
  · split
    · rename_i h
      simp [chars, rest, Piece.chars, append_of_readTemplate? h]
    · rfl
  · exact readMark_append v _
  · rfl

theorem readMark_chars_ne_nil (v : Vocabulary) (cs : List Char) : (readMark v cs).chars ≠ [] := by
  unfold readMark
  split
  · exact List.cons_ne_nil _ _
  · split <;> exact List.cons_ne_nil _ _
  · split
    · exact List.cons_ne_nil _ _
    · split <;> exact List.cons_ne_nil _ _
  · split <;> exact List.cons_ne_nil _ _
  · exact List.cons_ne_nil _ _

theorem read_chars_ne_nil (v : Vocabulary) {cs : List Char} (h : cs ≠ []) :
    (read v cs).chars ≠ [] := by
  unfold read
  split
  · contradiction
  · split <;> exact List.cons_ne_nil _ _
  · exact readMark_chars_ne_nil v _
  · exact List.cons_ne_nil _ _

theorem append_of_read {v : Vocabulary} {cs : List Char} {x : Head} (h : read v cs = x) :
    x.chars ++ x.rest = cs := by
  rw [← h]
  exact read_append v cs

theorem chars_ne_nil_of_read {v : Vocabulary} {cs : List Char} {x : Head} (hcs : cs ≠ [])
    (h : read v cs = x) : x.chars ≠ [] := by
  rw [← h]
  exact read_chars_ne_nil v hcs

theorem rest_length {v : Vocabulary} {cs : List Char} {x : Head} (hcs : cs ≠ [])
    (h : read v cs = x) : x.rest.length < cs.length := by
  have ha := congrArg List.length (append_of_read h)
  have hp := List.length_pos_iff.mpr (chars_ne_nil_of_read hcs h)
  rw [List.length_append] at ha
  omega

theorem chars_length {v : Vocabulary} {cs : List Char} {x : Head} (h : read v cs = x) :
    x.chars.length ≤ cs.length := by
  have ha := congrArg List.length (append_of_read h)
  rw [List.length_append] at ha
  omega

end Head

end ProseMarkup
