import ProseMarkup.Diagnostic

namespace ProseMarkup.Diagnostic

/-- Diagnostics in the order of their discovery, up to a capacity. -/
structure Log where
  items : List Diagnostic
  capacity : Option Nat
  dropped : Nat

namespace Log

def empty (capacity : Option Nat) : Log :=
  ⟨[], capacity, 0⟩

def isFull (l : Log) : Bool :=
  l.capacity.any (· ≤ l.items.length)

def push (l : Log) (d : Diagnostic) : Log :=
  if l.isFull then { l with dropped := l.dropped + 1 } else { l with items := l.items ++ [d] }

def extend (l : Log) (ds : List Diagnostic) : Log :=
  ds.foldl push l

def map (f : Diagnostic → Diagnostic) (l : Log) : Log :=
  { l with items := l.items.map f }

def hasErrors (l : Log) : Bool :=
  l.items.any (·.severity = .error)

def countSeverity (l : Log) (s : Severity) : Nat :=
  l.items.countP (·.severity = s)

def countKind (l : Log) (k : Kind) : Nat :=
  l.items.countP (·.kind = k)

@[simp] theorem extend_nil (l : Log) : l.extend [] = l := rfl

@[simp] theorem extend_cons (l : Log) (d : Diagnostic) (ds : List Diagnostic) :
    l.extend (d :: ds) = (l.push d).extend ds := rfl

@[simp] theorem push_capacity (l : Log) (d : Diagnostic) : (l.push d).capacity = l.capacity := by
  unfold push
  split <;> rfl

theorem extend_unbounded (l : Log) (h : l.capacity = none) (ds : List Diagnostic) :
    l.extend ds = { l with items := l.items ++ ds } := by
  induction ds generalizing l with
  | nil => simp
  | cons d ds ih =>
    rw [extend_cons, ih _ (by simpa using h)]
    simp [push, isFull, h]

theorem extend_bounded (l : Log) (m : Nat) (h : l.capacity = some m) (hl : l.items.length ≤ m)
    (ds : List Diagnostic) :
    l.extend ds = ⟨l.items ++ ds.take (m - l.items.length), some m,
      l.dropped + (ds.length - (m - l.items.length))⟩ := by
  induction ds generalizing l with
  | nil => simp [← h]
  | cons d ds ih =>
    rw [extend_cons]
    by_cases hf : m ≤ l.items.length
    · have hp : l.push d = { l with dropped := l.dropped + 1 } := by simp [push, isFull, h, hf]
      rw [hp, ih { l with dropped := l.dropped + 1 } h hl]
      simp [Nat.sub_eq_zero_of_le hf]
      omega
    · have hp : l.push d = { l with items := l.items ++ [d] } := by simp [push, isFull, h, hf]
      rw [hp, ih { l with items := l.items ++ [d] } h (by simp; omega)]
      have hs : m - l.items.length = m - (l.items.length + 1) + 1 := by omega
      simp [hs]

theorem extend_items (m : Nat) (ds : List Diagnostic) :
    ((empty (some m)).extend ds).items = ds.take m := by
  rw [extend_bounded (empty (some m)) m rfl (Nat.zero_le m)]
  simp [empty]

theorem extend_dropped (m : Nat) (ds : List Diagnostic) :
    ((empty (some m)).extend ds).dropped = ds.length - m := by
  rw [extend_bounded (empty (some m)) m rfl (Nat.zero_le m)]
  simp [empty]

end Log

end ProseMarkup.Diagnostic
