import ProseMarkup.Region
import ProseMarkup.Tag

namespace ProseMarkup

namespace Segment

inductive Shape where
  /-- Prose, or the root above several segments. -/
  | text
  | template (expression : String)
  | element (tag : Tag)
deriving DecidableEq, Repr

def Shape.ofPiece (start : Nat) : Piece → Shape
  | .text _ | .cut _ => .text
  | .template inner => .template (.ofList (Text.trim inner))
  | .element e => .element (Tag.ofElement start e).1

end Segment

structure Segment where
  id : Nat
  span : Span
  content : String
  shape : Segment.Shape
deriving DecidableEq, Repr

namespace Segment

def ofRegion (id : Nat) (r : Region) : Segment :=
  ⟨id, r.span, .ofList r.chars, .ofPiece r.start r.piece⟩

def notes (r : Region) : List Diagnostic :=
  match r.piece with
  | .element e => (Tag.ofElement r.start e).2
  | _ => []

def tag? (s : Segment) : Option Tag :=
  match s.shape with
  | .element tag => some tag
  | _ => none

def expression? (s : Segment) : Option String :=
  match s.shape with
  | .template expression => some expression
  | _ => none

def isText (s : Segment) : Bool :=
  s.shape = .text

def isElement (s : Segment) : Bool :=
  s.tag?.isSome

def isNamed (name : String) (s : Segment) : Bool :=
  s.tag?.any fun tag => Text.sameName tag.name.toList name.toList

def attribute? (s : Segment) (key : String) : Option Attribute :=
  (s.tag?.elim [] Tag.attributes).find? fun a => Text.sameName a.key.toList key.toList

def childrenNamed (t : Tree Segment) (name : String) : List (Tree Segment) :=
  t.children.filter (·.label.isNamed name)

def nodeAt (t : Tree Segment) (offset : Nat) : Tree Segment :=
  t.deepest (·.span.contains offset)

end Segment

end ProseMarkup
