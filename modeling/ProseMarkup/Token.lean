import ProseMarkup.Span

namespace ProseMarkup

namespace Token

inductive Kind where
  | comment
  | templateOpen
  | templateClose
  | closingTagStart
  | selfClose
  | tagStart
  | tagEnd
  | equals
  | quote
  | identifier
  | attributeText
  /-- Prose, the inside of a template, and whatever stands loose in a tag. -/
  | rawText
deriving DecidableEq, Repr

namespace Kind

def all : List Kind :=
  [.comment, .templateOpen, .templateClose, .closingTagStart, .selfClose, .tagStart, .tagEnd,
    .equals, .quote, .identifier, .attributeText, .rawText]

def name : Kind → String
  | .comment => "Comment"
  | .templateOpen => "TemplateOpen"
  | .templateClose => "TemplateClose"
  | .closingTagStart => "ClosingTagStart"
  | .selfClose => "SelfClose"
  | .tagStart => "TagStart"
  | .tagEnd => "TagEnd"
  | .equals => "Equals"
  | .quote => "Quote"
  | .identifier => "Identifier"
  | .attributeText => "AttributeText"
  | .rawText => "RawText"

def isTagDelimiter : Kind → Bool
  | .closingTagStart | .selfClose | .tagStart | .tagEnd => true
  | _ => false

theorem mem_all (k : Kind) : k ∈ all := by
  cases k <;> decide

end Kind

end Token

structure Token where
  kind : Token.Kind
  text : String
  start : Nat
deriving DecidableEq, Repr

namespace Token

def span (t : Token) : Span :=
  .ofText t.start t.text.toList

def stop (t : Token) : Nat :=
  t.span.stop

end Token

end ProseMarkup
