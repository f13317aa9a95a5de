import ProseMarkup.Enclosure

namespace ProseMarkup

structure Element where
  cls : TagClass
  opening : OpeningTag
  enclosed : Option (List Char × ClosingTag)
deriving DecidableEq, Repr

namespace Element

def tail (e : Element) : List Char :=
  match e.enclosed with
  | none => []
  | some (body, closing) => body ++ closing.text

def text (e : Element) : List Char :=
  e.opening.text ++ e.tail

def read? (v : Vocabulary) (cls : TagClass) (tag : OpeningTag) (cs : List Char) :
    Option (Element × List Char) :=
  if tag.selfClosing then some (⟨cls, tag, none⟩, cs)
  else (Enclosure.find? v tag.name cs).map fun e => (⟨cls, tag, some (e.body, e.closing)⟩, e.rest)

def isOneOf (v : Vocabulary) (name body : List Char) : Bool :=
  match Text.trim body with
  | '<' :: cs =>
    match Mark.read cs with
    | .opening tag rest =>
      Text.sameName tag.name name &&
        if tag.selfClosing then rest.isEmpty
        else (Enclosure.find? v name rest).any (·.rest.isEmpty)
    | _ => false
  | _ => false

def wrapsItself (v : Vocabulary) (e : Element) : Bool :=
  match e.cls, e.enclosed with
  | .structural, some (body, _) => isOneOf v e.opening.name body
  | _, _ => false

/-- The part of an element that holds further markup. The body of a metadata element does not, and
neither does the body of an element that wraps itself. -/
def markup (v : Vocabulary) (e : Element) : List Char :=
  match e.cls, e.enclosed with
  | .structural, some (body, _) => if isOneOf v e.opening.name body then [] else body
  | _, _ => []

theorem append_of_read? {v : Vocabulary} {cls : TagClass} {tag : OpeningTag} {cs rest : List Char}
    {e : Element} (h : read? v cls tag cs = some (e, rest)) :
    e.text ++ rest = tag.text ++ cs := by
  unfold read? at h
  split at h
  · cases h
    simp [text, tail]
  · obtain ⟨f, hf, he⟩ := Option.map_eq_some_iff.mp h
    cases he
    rw [← Enclosure.append_of_find? hf]
    simp [text, tail, Enclosure.text]

theorem text_length_pos (e : Element) : 0 < e.text.length :=
  Nat.zero_lt_succ _

theorem markup_length (v : Vocabulary) (e : Element) : (e.markup v).length < e.text.length := by
  have hp := e.text_length_pos
  unfold markup
  split
  · rename_i body closing _ he
    split
    · exact hp
    · simp only [text, tail, he, OpeningTag.text, List.length_append, List.length_cons]
      omega
  · exact hp

end Element

end ProseMarkup
