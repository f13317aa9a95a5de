import ProseMarkup.Text.Basic

namespace ProseMarkup.Checked

def bytes (cs : List Char) : List UInt8 :=
  cs.flatMap String.utf8EncodeChar

def sub? (m n : Nat) : Option Nat :=
  if n ≤ m then some (m - n) else none

def assert? (p : Prop) [Decidable p] : Option (PLift p) :=
  if h : p then some ⟨h⟩ else none

/-- The first `n` bytes of a text and what follows them, unless they are too many or end inside a
character. -/
def split? : Nat → List Char → Option (List Char × List Char)
  | 0, cs => some ([], cs)
  | _ + 1, [] => none
  | n + 1, c :: cs => do
    let left ← sub? (n + 1) c.utf8Size
    let (past, rest) ← split? left cs
    return (c :: past, rest)

def slice? (cs : List Char) (start stop : Nat) : Option (List Char) := do
  let (_, rest) ← split? start cs
  let (part, _) ← split? (← sub? stop start) rest
  return part

def byte? (cs : List Char) (i : Nat) : Option UInt8 :=
  (bytes cs)[i]?

def bytes? (cs : List Char) (start stop : Nat) : Option (List UInt8) := do
  let n ← sub? stop start
  if stop ≤ (bytes cs).length then return ((bytes cs).drop start).take n else none

def findByte? (marks : List Char) (bs : List UInt8) : Option Nat :=
  bs.findIdx? fun b => marks.any (·.toUInt8 == b)

def find? (mark : List Char) : List Char → Option Nat
  | [] => none
  | c :: cs => if mark <+: c :: cs then some 0 else (find? mark cs).map (c.utf8Size + ·)

end ProseMarkup.Checked
