import ProseMarkup.Diagnostic
import ProseMarkup.Element
import ProseMarkup.Tree

namespace ProseMarkup

inductive Piece where
  | text (chars : List Char)
  /-- An element below the greatest depth, kept as text. -/
  | cut (element : Element)
  | template (inner : List Char)
  | element (element : Element)
deriving DecidableEq, Repr

def Piece.chars : Piece → List Char
  | .text chars => chars
  | .cut e => e.text
  | .template inner => '{' :: '{' :: inner ++ ['}', '}']
  | .element e => e.text

structure Region where
  start : Nat
  piece : Piece
  notes : List Diagnostic
deriving DecidableEq, Repr

namespace Region

def chars (r : Region) : List Char :=
  r.piece.chars

def span (r : Region) : Span :=
  .ofText r.start r.chars

def ofTemplate (start : Nat) (inner : List Char) : Region :=
  ⟨start, .template inner, []⟩

def ofElement (v : Vocabulary) (start : Nat) (e : Element) : Region :=
  ⟨start, .element e,
    if e.wrapsItself v then
      [.ambiguousSelfNesting (.ofText start e.opening.text) (.ofList e.opening.name)]
    else []⟩

def ofCut (limit start : Nat) (e : Element) : Region :=
  ⟨start, .cut e, [.nestingTooDeep (.ofText start e.text) (.ofList e.opening.name) limit]⟩

/-- Puts prose before regions. Prose at their head is continued. -/
def prose (start : Nat) (chars : List Char) (notes : List Diagnostic) :
    List (Tree Region) → List (Tree Region)
  | .node ⟨_, .text chars', notes'⟩ [] :: ts =>
    .node ⟨start, .text (chars ++ chars'), notes ++ notes'⟩ [] :: ts
  | ts => .node ⟨start, .text chars, notes⟩ [] :: ts

end Region

end ProseMarkup
