import ProseMarkup.Checked.Enclosure
import ProseMarkup.Diagnostic
import ProseMarkup.Limits
import ProseMarkup.Tree

namespace ProseMarkup.Checked

inductive RawKind where
  | text
  | template (inner : Span)
  | element (cls : TagClass) (name : Span) (openEnd : Nat) (closing : Option Span)
    (selfClosing : Bool)
deriving DecidableEq, Repr

structure Raw where
  kind : RawKind
  start : Nat
  stop : Nat
deriving DecidableEq, Repr

def Raw.text (start stop : Nat) : Raw :=
  ⟨.text, start, stop⟩

def Raw.template? (start stop : Nat) : Option Raw := do
  let close ← sub? stop 2
  return ⟨.template ⟨start + 2, close⟩, start, stop⟩

def nextBoundary (source : List Char) (stop i : Nat) : Option (Option Nat) :=
  if i < stop then do
    match findByte? ['<', '{'] (← bytes? source i stop) with
    | none => return none
    | some k =>
      let b ← byte? source (i + k)
      if b = '<'.toUInt8 ∨ (byte? source (i + k + 1) = some '{'.toUInt8 ∧ i + k + 1 < stop) then
        return some (i + k)
      else nextBoundary source stop (i + k + 1)
  else return none
termination_by stop - i

def isByteAt (source : List Char) (stop i : Nat) (b : UInt8) : Option Bool :=
  if i < stop then (byte? source i).map (· = b) else some false

def templateClose (source : List Char) (stop i : Nat) : Option (Option Nat) :=
  if i < stop then do
    match findByte? ['}', '<', '{'] (← bytes? source i stop) with
    | none => return none
    | some k =>
      let b ← byte? source (i + k)
      let pair ← isByteAt source stop (i + k + 1) b
      if b = '<'.toUInt8 then return none
      else if b = '{'.toUInt8 ∧ pair = true then return none
      else if b = '}'.toUInt8 ∧ pair = true then return some (i + k + 2)
      else templateClose source stop (i + k + 1)
  else return none
termination_by stop - i

def resyncPoint (source : List Char) (start stop : Nat) : Option Nat := do
  return (findByte? ['\n'] (← bytes? source start stop)).elim stop (start + · + 1)

inductive Head where
  | prose (next : Nat) (note : Option Diagnostic)
  | template (stop : Nat)
  | element (cls : TagClass) (name : Span) (openEnd : Nat) (closing : Option Span)
    (selfClosing : Bool)

/-- What the `</` at `pos` starts. A closing tag of a known name closes nothing here. -/
def strayClosingTag (v : Vocabulary) (source : List Char) (stop pos : Nat) : Option Head := do
  match ← closingTag source pos stop with
  | none => return .prose (pos + 1) none
  | some (span, close) =>
    let name ← slice? source span.start span.stop
    if (v.classify (.ofList name)).isSome then
      return .prose close (some (.unmatchedClosingTag ⟨pos, close⟩ (.ofList name)))
    else return .prose (pos + 1) none

def openingTag (v : Vocabulary) (source : List Char) (stop pos : Nat) (cls : TagClass)
    (span : Span) (name : List Char) : Option Head := do
  match ← tagEnd source span.stop stop with
  | .malformed =>
    let next ← resyncPoint source pos stop
    return .prose next (some (.malformedTag ⟨pos, span.stop⟩ (.ofList name)))
  | .complete openEnd true => return .element cls span openEnd none true
  | .complete openEnd false =>
    match ← findClose v source stop name openEnd with
    | some closing => return .element cls span openEnd (some closing) false
    | none =>
      let next ← resyncPoint source (← sub? openEnd 1) stop
      return .prose next (some (.unterminatedTag ⟨pos, openEnd⟩ (.ofList name)))

def headAt (v : Vocabulary) (source : List Char) (stop pos : Nat) : Option Head := do
  if (← byte? source pos) = '{'.toUInt8 then
    match ← templateClose source stop (pos + 2) with
    | some close => return .template close
    | none => return .prose (pos + 2) none
  else
    let rest ← slice? source pos stop
    if ['<', '!', '-', '-'] <+: rest then return .prose (commentEnd rest pos stop) none
    else if ['<', '/'] <+: rest then strayClosingTag v source stop pos
    else
      match ← tagName source (pos + 1) stop with
      | none => return .prose (pos + 1) none
      | some span =>
        let name ← slice? source span.start span.stop
        match v.classify (.ofList name) with
        | none => return .prose (pos + 1) none
        | some cls => openingTag v source stop pos cls span name

def markupEnd (v : Vocabulary) (source : List Char) (pos : Nat) (cls : TagClass) (name : Span)
    (openEnd : Nat) (closing : Option Span) : Option (Option Nat × List Diagnostic) := do
  match cls, closing with
  | .structural, some closing =>
    let text ← slice? source name.start name.stop
    if ← isOneOf v source text openEnd closing.start then
      return (none, [.ambiguousSelfNesting ⟨pos, openEnd⟩ (.ofList text)])
    else return (some closing.start, [])
  | _, _ => return (none, [])

def flushText (start stop : Nat) : List (Tree Raw) :=
  if start < stop then [.node (.text start stop) []] else []

/-- The regions from `textStart` on with what is wrong in them, where a scan has come to `i` and the
prose from `textStart` up to there belongs to no region yet. -/
def segmentRange (v : Vocabulary) (limit : Nat) (source : List Char)
    (depth stop textStart i : Nat) : Option (List (Tree Raw) × List Diagnostic) :=
  if _ : i < stop then do
    match ← nextBoundary source stop i with
    | none => return (flushText textStart stop, [])
    | some pos =>
      match ← headAt v source stop pos with
      | .prose next note =>
        let ⟨_⟩ ← assert? (i < next)
        let (ts, notes) ← segmentRange v limit source depth stop textStart next
        return (ts, note.toList ++ notes)
      | .template close =>
        let ⟨_⟩ ← assert? (i < close)
        let raw ← Raw.template? pos close
        let (ts, notes) ← segmentRange v limit source depth stop close close
        return (flushText textStart pos ++ .node raw [] :: ts, notes)
      | .element cls name openEnd closing selfClosing =>
        let elementEnd := closing.elim openEnd Span.stop
        let ⟨_⟩ ← assert? (i < elementEnd)
        if limit < depth + 1 then
          let text ← slice? source name.start name.stop
          let note := Diagnostic.nestingTooDeep ⟨pos, elementEnd⟩ (.ofList text) limit
          let (ts, notes) ← segmentRange v limit source depth stop elementEnd elementEnd
          return (flushText textStart pos ++ .node (.text pos elementEnd) [] :: ts, note :: notes)
        else
          let (bodyEnd, own) ← markupEnd v source pos cls name openEnd closing
          let (children, inner) ← match bodyEnd with
            | none => pure ([], [])
            | some bodyEnd => do
              let ⟨_⟩ ← assert? (i < openEnd ∧ bodyEnd ≤ stop)
              segmentRange v limit source (depth + 1) bodyEnd openEnd openEnd
          let raw : Raw := ⟨.element cls name openEnd closing selfClosing, pos, elementEnd⟩
          let (ts, notes) ← segmentRange v limit source depth stop elementEnd elementEnd
          return (flushText textStart pos ++ .node raw children :: ts, own ++ inner ++ notes)
  else return (flushText textStart stop, [])
termination_by stop - i

def segmentDocument (v : Vocabulary) (limits : Limits) (source : List Char) :
    Option (Tree Raw × List Diagnostic) := do
  let len := Text.size source
  match limits.brokenBy? len with
  | some limit => return (.node (.text 0 len) [], [.inputTooLarge len limit])
  | none =>
    let (ts, notes) ← segmentRange v limits.maxDepth source 0 len 0 0
    match ts with
    | [t] =>
      if t.label.start = 0 ∧ t.label.stop = len then return (t, notes)
      else return (.node (.text 0 len) [t], notes)
    | ts => return (.node (.text 0 len) ts, notes)

end ProseMarkup.Checked
