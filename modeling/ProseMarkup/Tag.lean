import ProseMarkup.Attribute.Reader
import ProseMarkup.Element
import ProseMarkup.Token.Lexer

namespace ProseMarkup

structure Tag where
  cls : TagClass
  name : String
  nameSpan : Span
  closeNameSpan : Option Span
  selfClosing : Bool
  attributes : List Attribute
deriving DecidableEq, Repr

namespace Tag

/-- The name in the tokens of an opening tag, and the one given if there is none. -/
def openingName (given : Token) : List Token → Token
  | opened :: name :: _ => if opened.kind = .tagStart ∧ name.kind = .identifier then name else given
  | _ => given

def closingName? : List Token → Option Token
  | opened :: name :: _ =>
    if opened.kind = .closingTagStart ∧ name.kind = .identifier then some name else none
  | _ => none

def mismatch (closing : Span) (name closeName : Token) : List Diagnostic :=
  if closeName.text = name.text then []
  else [.closingTagMismatch closing closeName.text name.text]

def ofElement (start : Nat) (e : Element) : Tag × List Diagnostic :=
  let stop := start + Text.size e.opening.text
  let tokens := (Lexer.ofText start e.opening.text).tokens
  let name := openingName ⟨.identifier, .ofList e.opening.name, start + 1⟩ tokens
  let (attributes, notes) := Attribute.readAll stop (tokens.drop 2)
  match e.enclosed with
  | none => (⟨e.cls, name.text, name.span, none, true, attributes⟩, notes)
  | some (body, closing) =>
    let closeStart := stop + Text.size body
    let closeName := closingName? (Lexer.ofText closeStart closing.text).tokens
    (⟨e.cls, name.text, name.span, closeName.map Token.span, false, attributes⟩,
      notes ++ closeName.toList.flatMap (mismatch (.ofText closeStart closing.text) name))

end Tag

end ProseMarkup
