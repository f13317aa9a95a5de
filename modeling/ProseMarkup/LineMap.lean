import ProseMarkup.Text.Cluster
import ProseMarkup.Text.Basic

namespace ProseMarkup

/-- A place in a text. Lines and columns count from one, the offset counts bytes from zero. -/
@[ext]
structure Position where
  line : Nat
  column : Nat
  offset : Nat
deriving DecidableEq, Repr

def Position.origin : Position :=
  ⟨1, 1, 0⟩

@[ext]
structure Line where
  start : Nat
  /-- The text from the line's first character to the end. -/
  tail : List Char
deriving DecidableEq, Repr

namespace Line

def clustersWithin (n : Nat) : List (List Char) → Nat
  | [] => 0
  | k :: ks => if Text.size k ≤ n then clustersWithin (n - Text.size k) ks + 1 else 0

def columnBy (cut : List Char → List (List Char)) (l : Line) (offset : Nat) : Nat :=
  clustersWithin (offset - l.start) (cut l.tail) + 1

def body (l : Line) : List Char :=
  l.tail.takeWhile (· ≠ '\n')

/-- The characters of a line without its terminator, which is a line feed or a carriage return and
a line feed. -/
def content (l : Line) : List Char :=
  if l.body.getLast? = some '\r' then l.body.dropLast else l.body

def range (l : Line) : Nat × Nat :=
  (l.start, l.start + Text.size l.content)

end Line

structure LineMap where
  size : Nat
  lines : List Line

namespace LineMap

def linesAfter (start : Nat) : List Char → List Line
  | [] => []
  | c :: cs =>
    if c = '\n' then ⟨start + c.utf8Size, cs⟩ :: linesAfter (start + c.utf8Size) cs
    else linesAfter (start + c.utf8Size) cs

def ofText (cs : List Char) : LineMap :=
  ⟨Text.size cs, ⟨0, cs⟩ :: linesAfter 0 cs⟩

/-- The number of lines. A line feed at the end of the text starts an empty line. -/
def lineCount (m : LineMap) : Nat :=
  m.lines.length

def started (m : LineMap) (offset : Nat) : List Line :=
  m.lines.takeWhile (·.start ≤ offset)

/-- The position of an offset, with the clusters that `cut` gives. An offset past the end is taken
to be the end. -/
def positionBy (cut : List Char → List (List Char)) (m : LineMap) (offset : Nat) : Position :=
  let offset := min offset m.size
  let started := m.started offset
  ⟨started.length, (started.getLast?.map (·.columnBy cut offset)).getD 1, offset⟩

def position (m : LineMap) (offset : Nat) : Position :=
  m.positionBy Text.Cluster.clusters offset

def lineRange? (m : LineMap) : Nat → Option (Nat × Nat)
  | 0 => none
  | n + 1 => m.lines[n]?.map Line.range

end LineMap

end ProseMarkup
