import ProseMarkup.Span

namespace ProseMarkup

inductive Fragment where
  /-- Text as it stands. -/
  | literal (text : String) (span : Span)
  /-- A template. The span covers its braces. -/
  | template (expression : String) (span : Span)
deriving DecidableEq, Repr

namespace Fragment

def span : Fragment → Span
  | literal _ span => span
  | template _ span => span

def isTemplate : Fragment → Bool
  | literal .. => false
  | template .. => true

/-- Puts a fragment before others. Literal text is joined with literal text that follows it. -/
def cons : Fragment → List Fragment → List Fragment
  | literal text span, literal text' span' :: fs =>
    if span.stop = span'.start then literal (text ++ text') ⟨span.start, span'.stop⟩ :: fs
    else literal text span :: literal text' span' :: fs
  | f, fs => f :: fs

end Fragment

/-- A key, and its value if there is one. The span of a quoted value lies between the quotes. -/
structure Attribute where
  key : String
  keySpan : Span
  value : List Fragment
  valueSpan : Option Span
deriving DecidableEq, Repr

namespace Attribute

def literalValue? (a : Attribute) : Option String :=
  match a.value with
  | [] => some ""
  | [.literal text _] => some text
  | _ => none

def isInterpolated (a : Attribute) : Bool :=
  a.value.any Fragment.isTemplate

end Attribute

end ProseMarkup
