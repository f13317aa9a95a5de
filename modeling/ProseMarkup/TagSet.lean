import ProseMarkup.Fault
import ProseMarkup.Name
import ProseMarkup.Vocabulary

namespace ProseMarkup

/-- A set of names. Nothing that is shown of a set depends on the order of its members. -/
structure NameSet where
  members : List String
  nodup : members.Nodup

namespace NameSet

def empty : NameSet :=
  ⟨[], .nil⟩

def contains (s : NameSet) (name : String) : Bool :=
  s.members.contains name

def insert (s : NameSet) (name : String) : NameSet :=
  if h : name ∈ s.members then s else ⟨name :: s.members, List.nodup_cons.mpr ⟨h, s.nodup⟩⟩

def size (s : NameSet) : Nat :=
  s.members.length

end NameSet

structure TagSet where
  structural : NameSet
  metadata : NameSet

namespace TagSet

def empty : TagSet :=
  ⟨.empty, .empty⟩

def key (name : String) : String :=
  .ofList (Text.fold name.toList)

def bytes (name : String) : List UInt8 :=
  name.toByteArray.data.toList

def contains (s : TagSet) (name : String) : Bool :=
  s.structural.contains (key name) || s.metadata.contains (key name)

def size (s : TagSet) : Nat :=
  s.structural.size + s.metadata.size

def names (s : TagSet) : List String :=
  (s.structural.members ++ s.metadata.members).mergeSort fun a b => bytes a ≤ bytes b

def insert (s : TagSet) (cls : TagClass) (key : String) : TagSet :=
  match cls with
  | .structural => { s with structural := s.structural.insert key }
  | .metadata => { s with metadata := s.metadata.insert key }

def checkedKey (s : TagSet) (name : String) : Except Fault String :=
  if !Name.isName name.toList then .error (.invalidName name)
  else if s.contains (key name) then .error (.nameTaken name)
  else .ok (key name)

/-- A change to a set that may be refused. A set is left behind in either case. -/
abbrev Change :=
  EStateM Fault TagSet Unit

def register (cls : TagClass) (name : String) : Change := do
  let key ← MonadExcept.ofExcept ((← get).checkedKey name)
  modify (·.insert cls key)

def clear : Change :=
  set empty

/-- The set of two lists of names. The structural names are registered first. -/
def ofNames (structural metadata : List String) : Except Fault TagSet :=
  let fill : Change := do
    structural.forM (register .structural)
    metadata.forM (register .metadata)
  match fill.run empty with
  | .ok _ s => .ok s
  | .error fault _ => .error fault

def toVocabulary (s : TagSet) : Vocabulary where
  isStructural name := s.structural.contains (key name)
  isMetadata name := s.metadata.contains (key name)

def classify (s : TagSet) (name : String) : Option TagClass :=
  s.toVocabulary.classify name

theorem classify_toVocabulary (s : TagSet) (name : String) :
    s.toVocabulary.classify name = s.classify name := rfl

theorem classify_congr (s : TagSet) {a b : String} (h : key a = key b) :
    s.classify a = s.classify b := by
  have hstructural : s.toVocabulary.isStructural a = s.toVocabulary.isStructural b :=
    congrArg s.structural.contains h
  have hmetadata : s.toVocabulary.isMetadata a = s.toVocabulary.isMetadata b :=
    congrArg s.metadata.contains h
  rw [classify, classify, Vocabulary.classify, Vocabulary.classify, hstructural, hmetadata]

end TagSet

end ProseMarkup
