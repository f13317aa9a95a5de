import ProseMarkup.Fault

namespace ProseMarkup

/-- How deep tags may nest, how many bytes a text may have, and how many diagnostics are kept. An
absent limit does not bound anything. -/
structure Limits where
  maxDepth : Nat := 64
  maxBytes : Option Nat := some 104857600
  maxDiagnostics : Option Nat := some 100
deriving DecidableEq, Repr

namespace Limits

def check (l : Limits) : Except Fault Unit :=
  if l.maxDepth = 0 then .error .noDepth else .ok ()

def brokenBy? (l : Limits) (size : Nat) : Option Nat :=
  l.maxBytes.filter (· < size)

end Limits

end ProseMarkup
