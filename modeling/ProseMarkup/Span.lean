import ProseMarkup.Text.Basic

namespace ProseMarkup

/-- The bytes from `start` up to, and without, `stop`. -/
structure Span where
  start : Nat
  stop : Nat
deriving DecidableEq, Repr

namespace Span

def ofText (start : Nat) (cs : List Char) : Span :=
  ⟨start, start + Text.size cs⟩

def size (s : Span) : Nat :=
  s.stop - s.start

def isEmpty (s : Span) : Bool :=
  s.start = s.stop

def contains (s : Span) (offset : Nat) : Bool :=
  s.start ≤ offset && offset < s.stop

def slice (s : Span) (source : String) : String :=
  .ofList (Text.slice s.start s.stop source.toList)

theorem contains_iff {s : Span} {offset : Nat} :
    s.contains offset = true ↔ s.start ≤ offset ∧ offset < s.stop := by
  simp [contains]

end Span

end ProseMarkup
