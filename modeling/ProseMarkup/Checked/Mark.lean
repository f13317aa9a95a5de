import ProseMarkup.Checked.Access
import ProseMarkup.Mark
import ProseMarkup.Span

namespace ProseMarkup.Checked

def tagName (source : List Char) (start stop : Nat) : Option (Option Span) := do
  let rest ← slice? source start stop
  match Name.read? rest with
  | none => return none
  | some (name, after) =>
    if OpeningTag.endsName after then return some (.ofText start name) else return none

inductive TagEnd where
  | complete (stop : Nat) (selfClosing : Bool)
  /-- Another tag, or the end of the range. -/
  | malformed
deriving DecidableEq, Repr

def complete (source : List Char) (start i : Nat) : Option TagEnd :=
  if start < i then do
    let before ← byte? source (← sub? i 1)
    return .complete (i + 1) (before = '/'.toUInt8)
  else return .complete (i + 1) false

def scanPlain (source : List Char) (start stop i : Nat) : Option TagEnd :=
  if i < stop then do
    let b ← byte? source i
    if b = '>'.toUInt8 then complete source start i
    else if b = '<'.toUInt8 then return .malformed
    else scanPlain source start stop (i + 1)
  else return .malformed
termination_by stop - i

def scanQuoted (source : List Char) (start stop : Nat) (quote : Option UInt8) (i : Nat) :
    Option TagEnd :=
  if i < stop then do
    let b ← byte? source i
    match quote with
    | some q => scanQuoted source start stop (if b = q then none else some q) (i + 1)
    | none =>
      if b = '"'.toUInt8 ∨ b = '\''.toUInt8 then scanQuoted source start stop (some b) (i + 1)
      else if b = '>'.toUInt8 then complete source start i
      else if b = '<'.toUInt8 then return .malformed
      else scanQuoted source start stop none (i + 1)
  else if quote.isSome then scanPlain source start stop start
  else return .malformed
termination_by stop - i

def tagEnd (source : List Char) (start stop : Nat) : Option TagEnd :=
  scanQuoted source start stop none start

def closingTag (source : List Char) (pos stop : Nat) : Option (Option (Span × Nat)) :=
  match slice? source (pos + 2) stop with
  | none => return none
  | some rest =>
    match Name.read? rest with
    | none => return none
    | some (name, after) => do
      let gap ← sub? (Text.size after) (Text.size (Text.trimStart after))
      let behind ← slice? after gap (Text.size after)
      if behind.head? = some '>' then
        let span := Span.ofText (pos + 2) name
        return some (span, span.stop + gap + 1)
      else return none

def commentEnd (rest : List Char) (pos stop : Nat) : Nat :=
  (find? ['-', '-', '>'] rest).elim stop (pos + · + 3)

end ProseMarkup.Checked
