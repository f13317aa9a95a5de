import ProseMarkup.Span

namespace ProseMarkup

inductive Severity where
  /-- The markup is broken, and the region was kept as text. -/
  | error
  /-- The markup is doubtful, and it was interpreted. -/
  | warning
  /-- A decision of the parser that a reader may want to know. -/
  | info
deriving DecidableEq, Repr

def Severity.name : Severity → String
  | .error => "Error"
  | .warning => "Warning"
  | .info => "Info"

namespace Diagnostic

inductive Kind where
  | malformedTag
  | unterminatedTag
  | unmatchedClosingTag
  | closingTagMismatch
  | unterminatedAttributeValue
  | missingEquals
  | strayQuote
  | unquotedAttributeValue
  | unexpectedToken
  | unterminatedTemplate
  | ambiguousSelfNesting
  | nestingTooDeep
  | inputTooLarge
deriving DecidableEq, Repr

namespace Kind

def all : List Kind :=
  [.malformedTag, .unterminatedTag, .unmatchedClosingTag, .closingTagMismatch,
    .unterminatedAttributeValue, .missingEquals, .strayQuote, .unquotedAttributeValue,
    .unexpectedToken, .unterminatedTemplate, .ambiguousSelfNesting, .nestingTooDeep, .inputTooLarge]

def name : Kind → String
  | .malformedTag => "MalformedTag"
  | .unterminatedTag => "UnterminatedTag"
  | .unmatchedClosingTag => "UnmatchedClosingTag"
  | .closingTagMismatch => "ClosingTagMismatch"
  | .unterminatedAttributeValue => "UnterminatedAttributeValue"
  | .missingEquals => "MissingEquals"
  | .strayQuote => "StrayQuote"
  | .unquotedAttributeValue => "UnquotedAttributeValue"
  | .unexpectedToken => "UnexpectedToken"
  | .unterminatedTemplate => "UnterminatedTemplate"
  | .ambiguousSelfNesting => "AmbiguousSelfNesting"
  | .nestingTooDeep => "NestingTooDeep"
  | .inputTooLarge => "InputTooLarge"

def ofName? (s : String) : Option Kind :=
  all.find? (·.name = s)

def severity : Kind → Severity
  | .malformedTag | .unterminatedTag | .unterminatedAttributeValue | .strayQuote
  | .nestingTooDeep | .inputTooLarge => .error
  | .unmatchedClosingTag | .closingTagMismatch | .missingEquals | .unquotedAttributeValue
  | .unexpectedToken | .unterminatedTemplate => .warning
  | .ambiguousSelfNesting => .info

def isResourceLimit (k : Kind) : Bool :=
  k = .nestingTooDeep || k = .inputTooLarge

theorem mem_all (k : Kind) : k ∈ all := by
  cases k <;> decide

theorem ofName?_name (k : Kind) : ofName? k.name = some k := by
  cases k <;> decide

end Kind

end Diagnostic

structure Diagnostic where
  kind : Diagnostic.Kind
  span : Span
  message : String
  node : Option Nat := none
deriving DecidableEq, Repr

namespace Diagnostic

def severity (d : Diagnostic) : Severity :=
  d.kind.severity

def attach (d : Diagnostic) (node : Nat) : Diagnostic :=
  { d with node := some node }

def display (d : Diagnostic) : String :=
  s!"{d.severity.name} at {d.span.start}..{d.span.stop}: {d.message}"

/-- The opening tag of `name` never ends. The span is that of `<` and the name. -/
def malformedTag (span : Span) (name : String) : Diagnostic :=
  ⟨.malformedTag, span, s!"opening tag <{name}> is never closed with '>'", none⟩

def unterminatedTag (span : Span) (name : String) : Diagnostic :=
  ⟨.unterminatedTag, span, s!"<{name}> has no matching </{name}>", none⟩

def unmatchedClosingTag (span : Span) (name : String) : Diagnostic :=
  ⟨.unmatchedClosingTag, span, s!"</{name}> has no matching opening tag", none⟩

def nestingTooDeep (span : Span) (name : String) (limit : Nat) : Diagnostic :=
  ⟨.nestingTooDeep, span, s!"<{name}> exceeds the maximum nesting depth of {limit}", none⟩

/-- The opening tag in `span` only wraps one element of its own name. -/
def ambiguousSelfNesting (span : Span) (name : String) : Diagnostic :=
  ⟨.ambiguousSelfNesting, span,
    s!"<{name}> only wraps another <{name}>; kept as a single node", none⟩

def inputTooLarge (size limit : Nat) : Diagnostic :=
  ⟨.inputTooLarge, ⟨0, size⟩, s!"input of {size} bytes exceeds the limit of {limit} bytes", none⟩

def strayQuote (span : Span) (quote : String) : Diagnostic :=
  ⟨.strayQuote, span, s!"stray {quote} outside of an attribute value", none⟩

def unexpectedToken (span : Span) (text : String) : Diagnostic :=
  ⟨.unexpectedToken, span, s!"unexpected '{text}' in tag", none⟩

def unexpectedTemplate (span : Span) : Diagnostic :=
  ⟨.unexpectedToken, span, "template expression outside of an attribute value", none⟩

def missingEquals (span : Span) (key : String) : Diagnostic :=
  ⟨.missingEquals, span, s!"attribute '{key}' is missing '='", none⟩

def missingValue (span : Span) (key : String) : Diagnostic :=
  ⟨.unexpectedToken, span, s!"attribute '{key}' has '=' but no value", none⟩

def unquotedAttributeValue (span : Span) (key : String) : Diagnostic :=
  ⟨.unquotedAttributeValue, span, s!"value of '{key}' should be quoted", none⟩

def unterminatedAttributeValue (span : Span) (quote : String) : Diagnostic :=
  ⟨.unterminatedAttributeValue, span,
    s!"attribute value opened with {quote} is never closed", none⟩

def unterminatedTemplate (span : Span) : Diagnostic :=
  ⟨.unterminatedTemplate, span, "'\x7b\x7b' without a matching '\x7d\x7d'", none⟩

def closingTagMismatch (span : Span) (closing opening : String) : Diagnostic :=
  ⟨.closingTagMismatch, span, s!"</{closing}> closes <{opening}>", none⟩

end Diagnostic

end ProseMarkup
