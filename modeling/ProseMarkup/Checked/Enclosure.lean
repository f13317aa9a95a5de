import ProseMarkup.Checked.Mark
import ProseMarkup.Vocabulary

namespace ProseMarkup.Checked

inductive CloseStep where
  | pass (next : Nat)
  /-- Goes on at an offset behind an opening tag of the name. -/
  | enter (next : Nat)
  | meet (closing : Span)
deriving DecidableEq, Repr

/-- The step at the opening tag at `pos` whose name is in `inner`. In a verbatim body no tag of
another name counts. In every other body `nested?` finds the closing tags of metadata elements. -/
def tagStep (v : Vocabulary) (source : List Char) (stop : Nat) (name : List Char)
    (verbatim : Bool) (nested? : List Char → Nat → Option (Option Span)) (pos : Nat)
    (inner : Span) : Option CloseStep := do
  let innerName ← slice? source inner.start inner.stop
  if verbatim && !Text.sameName innerName name then return .pass (pos + 1)
  else
    match ← tagEnd source inner.stop stop with
    | .malformed => return .pass (pos + 1)
    | .complete next selfClosing =>
      if selfClosing then return .pass next
      else if Text.sameName innerName name then return .enter next
      else if v.classify (.ofList innerName) = some .metadata then
        return .pass ((← nested? innerName next).elim next Span.stop)
      else return .pass next

def closeStep (v : Vocabulary) (source : List Char) (stop : Nat) (name : List Char)
    (verbatim : Bool) (nested? : List Char → Nat → Option (Option Span)) (pos : Nat) :
    Option CloseStep := do
  let rest ← slice? source pos stop
  if ['<', '!', '-', '-'] <+: rest then return .pass (commentEnd rest pos stop)
  else if ['<', '/'] <+: rest then
    match ← closingTag source pos stop with
    | none => return .pass (pos + 2)
    | some (span, close) =>
      if Text.sameName (← slice? source span.start span.stop) name then return .meet ⟨pos, close⟩
      else return .pass (pos + 2)
  else
    match ← tagName source (pos + 1) stop with
    | none => return .pass (pos + 1)
    | some inner => tagStep v source stop name verbatim nested? pos inner

def findCloseFrom (step : Nat → Option CloseStep) (source : List Char) (stop opened i : Nat) :
    Option (Option Span) :=
  if _ : i < stop then do
    match findByte? ['<'] (← bytes? source i stop) with
    | none => return none
    | some k =>
      match ← step (i + k) with
      | .pass next =>
        let ⟨_⟩ ← assert? (i < next)
        findCloseFrom step source stop opened next
      | .enter next =>
        let ⟨_⟩ ← assert? (i < next)
        findCloseFrom step source stop (opened + 1) next
      | .meet closing =>
        let left ← sub? opened 1
        if left = 0 then return some closing
        else
          let ⟨_⟩ ← assert? (i < closing.stop)
          findCloseFrom step source stop left closing.stop
  else return none
termination_by stop - i

def findMetadataClose (v : Vocabulary) (source : List Char) (stop : Nat) (name : List Char)
    (i : Nat) : Option (Option Span) :=
  findCloseFrom (closeStep v source stop name true fun _ _ => none) source stop 1 i

def findClose (v : Vocabulary) (source : List Char) (stop : Nat) (name : List Char) (i : Nat) :
    Option (Option Span) :=
  if v.classify (.ofList name) = some .metadata then findMetadataClose v source stop name i
  else
    findCloseFrom (closeStep v source stop name false (findMetadataClose v source stop)) source
      stop 1 i

def takesAll (v : Vocabulary) (source name : List Char) (pos stop : Nat) : Option Bool := do
  match ← tagName source (pos + 1) stop with
  | none => return false
  | some inner =>
    if !Text.sameName (← slice? source inner.start inner.stop) name then return false
    else
      match ← tagEnd source inner.stop stop with
      | .malformed => return false
      | .complete openEnd true => return openEnd = stop
      | .complete openEnd false =>
        return (← findClose v source stop name openEnd).any (·.stop = stop)

def isOneOf (v : Vocabulary) (source name : List Char) (start stop : Nat) : Option Bool := do
  let body ← slice? source start stop
  let first := start + (← sub? (Text.size body) (Text.size (Text.trimStart body)))
  let last ← sub? stop (← sub? (Text.size body) (Text.size (Text.trimEnd body)))
  if last ≤ first then return false
  else if (← byte? source first) ≠ '<'.toUInt8 then return false
  else takesAll v source name first last

end ProseMarkup.Checked
