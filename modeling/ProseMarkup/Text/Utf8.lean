import ProseMarkup.Text.Basic

namespace ProseMarkup.Text.Utf8

inductive Fault where
  /-- The `length` bytes from `index` on start no character, whatever follows. -/
  | invalid (length index : Nat)
  /-- The bytes end inside the character that starts at `index`. -/
  | incomplete (index : Nat)
deriving DecidableEq, Repr

def Fault.message : Fault → String
  | .invalid length index => s!"invalid utf-8 sequence of {length} bytes from index {index}"
  | .incomplete index => s!"incomplete utf-8 byte sequence from index {index}"

structure Sequence where
  left : Nat
  low : Nat
  high : Nat
  value : Nat
  width : Nat

/-- The sequence that a byte starts, if it can start one. The bounds on the second byte exclude
overlong forms, surrogates, and values past the last code point. -/
def Sequence.start? (b : Nat) : Option Sequence :=
  if b < 0x80 then some ⟨0, 0x80, 0xBF, b, 1⟩
  else if b < 0xC2 then none
  else if b < 0xE0 then some ⟨1, 0x80, 0xBF, b % 0x20, 1⟩
  else if b = 0xE0 then some ⟨2, 0xA0, 0xBF, b % 0x10, 1⟩
  else if b = 0xED then some ⟨2, 0x80, 0x9F, b % 0x10, 1⟩
  else if b < 0xF0 then some ⟨2, 0x80, 0xBF, b % 0x10, 1⟩
  else if b = 0xF0 then some ⟨3, 0x90, 0xBF, b % 0x08, 1⟩
  else if b < 0xF4 then some ⟨3, 0x80, 0xBF, b % 0x08, 1⟩
  else if b = 0xF4 then some ⟨3, 0x80, 0x8F, b % 0x08, 1⟩
  else none

def Sequence.add? (s : Sequence) (b : Nat) : Option Sequence :=
  if s.low ≤ b ∧ b ≤ s.high then
    some ⟨s.left - 1, 0x80, 0xBF, s.value * 0x40 + b % 0x40, s.width + 1⟩
  else none

def decodeFrom (index : Nat) : Option Sequence → List UInt8 → Except Fault (List Char)
  | none, [] => .ok []
  | some _, [] => .error (.incomplete index)
  | opened, b :: bs =>
    let next := match opened with
      | none => Sequence.start? b.toNat
      | some s => s.add? b.toNat
    match next with
    | none => .error (.invalid (opened.elim 1 Sequence.width) index)
    | some s =>
      if s.left = 0 then
        (decodeFrom (index + s.width) none bs).map (Char.ofNat s.value :: ·)
      else decodeFrom index (some s) bs

def decode (bytes : List UInt8) : Except Fault (List Char) :=
  decodeFrom 0 none bytes

end ProseMarkup.Text.Utf8
