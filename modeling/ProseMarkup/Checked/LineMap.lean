import ProseMarkup.Checked.Access
import ProseMarkup.LineMap
import Mathlib.Data.List.Basic

namespace ProseMarkup.Checked

def lineStarts (source : List Char) : List Nat :=
  0 :: ((bytes source).findIdxs (· == '\n'.toUInt8)).map (· + 1)

inductive Found where
  | hit (i : Nat)
  /-- The number is missing and belongs before this index. -/
  | miss (i : Nat)
deriving DecidableEq, Repr

/-- The index that is left of the `size` indexes from `base` on, when the half that cannot have `n`
is given up until there is only one. -/
def narrow (ns : List Nat) (n base size : Nat) : Option Nat :=
  if 1 < size then do
    let middle ← ns[base + size / 2]?
    narrow ns n (if n < middle then base else base + size / 2) (size - size / 2)
  else return base
termination_by size

def searchSorted (ns : List Nat) (n : Nat) : Option Found :=
  if ns = [] then return .miss 0
  else do
    let i ← narrow ns n 0 ns.length
    let m ← ns[i]?
    return if m = n then .hit i else .miss (if m < n then i + 1 else i)

def placed (start : Nat) : List (List Char) → List (Nat × List Char)
  | [] => []
  | k :: ks => (start, k) :: placed (start + Text.size k) ks

def position (cut : List Char → List (List Char)) (source : List Char) (offset : Nat) :
    Option Position := do
  let offset := min offset (Text.size source)
  let starts := lineStarts source
  let line ← match ← searchSorted starts offset with
    | .hit i => some i
    | .miss next => sub? next 1
  let lineStart ← starts[line]?
  let tail ← slice? source lineStart (Text.size source)
  let preceding := (placed 0 (cut tail)).takeWhile fun p =>
    lineStart + p.1 + Text.size p.2 ≤ offset
  return ⟨line + 1, preceding.length + 1, offset⟩

def trimReturn (source : List Char) (start stop : Nat) : Option Nat :=
  if start < stop then do
    let last ← sub? stop 1
    return if (← byte? source last) = '\r'.toUInt8 then last else stop
  else return stop

def lineRange (source : List Char) (number : Nat) : Option (Option (Nat × Nat)) :=
  let starts := lineStarts source
  match (sub? number 1).bind (starts[·]?) with
  | none => return none
  | some start => do
    let stop ← match starts[number]? with
      | some next => sub? next 1
      | none => some (Text.size source)
    return some (start, ← trimReturn source start stop)

end ProseMarkup.Checked
