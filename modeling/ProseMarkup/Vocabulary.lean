namespace ProseMarkup

inductive TagClass where
  | structural
  | metadata
deriving DecidableEq, Repr

structure Vocabulary where
  isStructural : String → Bool
  isMetadata : String → Bool

namespace Vocabulary

/-- The class of a name. A name in both classes is metadata. -/
def classify (v : Vocabulary) (name : String) : Option TagClass :=
  if v.isMetadata name then some .metadata
  else if v.isStructural name then some .structural
  else none

def exact (structural metadata : List String) : Vocabulary :=
  ⟨structural.contains, metadata.contains⟩

end Vocabulary

end ProseMarkup
