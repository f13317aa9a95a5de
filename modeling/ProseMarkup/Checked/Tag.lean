import ProseMarkup.Attribute
import ProseMarkup.Checked.Lexer
import ProseMarkup.Diagnostic

namespace ProseMarkup.Checked

structure Parsed (α : Type) where
  value : α
  notes : List Diagnostic
  rest : Cursor

def Cursor.left (l : Cursor) : Nat :=
  l.stop - l.offset

def unterminated (source : List Char) (opened : Token) (bodyEnd : Nat) (l : Cursor) :
    Option (Parsed Fragment) := do
  let text ← slice? source opened.start bodyEnd
  let span : Span := ⟨opened.start, bodyEnd⟩
  return ⟨.literal (.ofList text) span, [.unterminatedTemplate span], l⟩

def parseTemplate (source : List Char) (opened : Token) (bodyEnd : Nat) (l : Cursor) :
    Option (Parsed Fragment) := do
  match ← l.next source with
  | (none, _) => unterminated source opened bodyEnd l
  | (some t, l') =>
    let ⟨_⟩ ← assert? (l'.left < l.left)
    match t.kind with
    | .templateClose =>
      let inner ← slice? source opened.stop t.start
      return ⟨.template (.ofList (Text.trim inner)) ⟨opened.start, t.stop⟩, [], l'⟩
    | .rawText => parseTemplate source opened t.stop l'
    | _ => unterminated source opened bodyEnd l
termination_by l.left

def pushFragment (source : List Char) (fs : List Fragment) (f : Fragment) :
    Option (List Fragment) :=
  match fs, f with
  | [], f => return [f]
  | [.literal text span], .literal text' span' =>
    if span.stop = span'.start then do
      let joined ← slice? source span.start span'.stop
      return [.literal (.ofList joined) ⟨span.start, span'.stop⟩]
    else return [.literal text span, .literal text' span']
  | g :: fs, f => do return g :: (← pushFragment source fs f)

def parseQuoted (source : List Char) (opened : Token) (fs : List Fragment) (l : Cursor) :
    Option (Parsed (List Fragment × Span)) := do
  match ← l.next source with
  | (none, l') =>
    return ⟨(fs, ⟨opened.stop, l'.offset⟩),
      [.unterminatedAttributeValue ⟨opened.start, l'.offset⟩ opened.text], l'⟩
  | (some t, l') =>
    let ⟨_⟩ ← assert? (l'.left < l.left)
    match t.kind with
    | .quote => return ⟨(fs, ⟨opened.stop, t.start⟩), [], l'⟩
    | .templateOpen =>
      let f ← parseTemplate source t t.stop l'
      let fs ← pushFragment source fs f.value
      let ⟨_⟩ ← assert? (f.rest.left < l.left)
      let r ← parseQuoted source opened fs f.rest
      return { r with notes := f.notes ++ r.notes }
    | _ =>
      let fs ← pushFragment source fs (.literal t.text t.span)
      parseQuoted source opened fs l'
termination_by l.left

def withoutValue (key : Token) (note : Diagnostic) (l : Cursor) : Parsed Attribute :=
  ⟨⟨key.text, key.span, [], none⟩, [note], l⟩

def unquoted (key : Token) (r : Parsed Fragment) : Parsed Attribute :=
  let span := r.value.span
  ⟨⟨key.text, key.span, [r.value], some span⟩,
    r.notes ++ [.unquotedAttributeValue span key.text], r.rest⟩

def parseValue (source : List Char) (key equals : Token) (l : Cursor) :
    Option (Parsed Attribute) := do
  let missing := withoutValue key (.missingValue ⟨key.start, equals.stop⟩ key.text) l
  match ← l.next source with
  | (none, _) => return missing
  | (some t, l') =>
    match t.kind with
    | .quote =>
      let r ← parseQuoted source t [] l'
      return ⟨⟨key.text, key.span, r.value.1, some r.value.2⟩, r.notes, r.rest⟩
    | .identifier | .rawText => return unquoted key ⟨.literal t.text t.span, [], l'⟩
    | .templateOpen => return unquoted key (← parseTemplate source t t.stop l')
    | _ => return missing

def parseAttribute (source : List Char) (key : Token) (l : Cursor) : Option (Parsed Attribute) := do
  match ← l.next source with
  | (some t, l') =>
    if t.kind = .equals then parseValue source key t l'
    else return withoutValue key (.missingEquals key.span key.text) l
  | (none, _) => return withoutValue key (.missingEquals key.span key.text) l

def skipValue (source : List Char) (l : Cursor) : Option Cursor := do
  match ← l.next source with
  | (none, l') => return l'
  | (some t, l') =>
    if t.kind = .quote then return l'
    else
      let ⟨_⟩ ← assert? (l'.left < l.left)
      skipValue source l'
termination_by l.left

def parseAttributes (source : List Char) (l : Cursor) :
    Option (List Attribute × List Diagnostic) := do
  match ← l.next source with
  | (none, _) => return ([], [])
  | (some t, l') =>
    let ⟨_⟩ ← assert? (l'.left < l.left)
    match t.kind with
    | .tagEnd | .selfClose => return ([], [])
    | .identifier =>
      let r ← parseAttribute source t l'
      let ⟨_⟩ ← assert? (r.rest.left < l.left)
      let (attributes, notes) ← parseAttributes source r.rest
      return (r.value :: attributes, r.notes ++ notes)
    | .quote =>
      let behind ← skipValue source l'
      let ⟨_⟩ ← assert? (behind.left < l.left)
      let (attributes, notes) ← parseAttributes source behind
      return (attributes, .strayQuote t.span t.text :: notes)
    | .templateOpen =>
      let r ← parseTemplate source t t.stop l'
      let ⟨_⟩ ← assert? (r.rest.left < l.left)
      let (attributes, notes) ← parseAttributes source r.rest
      return (attributes, r.notes ++ .unexpectedTemplate r.value.span :: notes)
    | _ =>
      let (attributes, notes) ← parseAttributes source l'
      return (attributes, .unexpectedToken t.span t.text :: notes)
termination_by l.left

def parseClosingTag (source : List Char) (closing span : Span) :
    Option (Option Span × List Diagnostic) := do
  let (opened, l) ← (Cursor.ofRange source closing.start closing.stop).next source
  match opened.filter (·.kind = .closingTagStart) with
  | none => return (none, [])
  | some opened =>
    let (name, _) ← l.next source
    match name.filter (·.kind = .identifier) with
    | none => return (none, [])
    | some name =>
      let text ← slice? source span.start span.stop
      if name.text = .ofList text then return (some name.span, [])
      else
        return (some name.span,
          [.closingTagMismatch ⟨opened.start, closing.stop⟩ name.text (.ofList text)])

def openingName (given : Span) : Option Token → Option Token → Span
  | some opened, some name =>
    if opened.kind = .tagStart ∧ name.kind = .identifier then name.span else given
  | _, _ => given

structure TagInfo where
  name : Span
  attributes : List Attribute
  closeName : Option Span
deriving DecidableEq, Repr

def parseElement (source : List Char) (start openEnd : Nat) (closing : Option Span)
    (given : Span) : Option (TagInfo × List Diagnostic) := do
  let (opened, l) ← (Cursor.ofRange source start openEnd).next source
  let (second, l) ← l.next source
  let name := openingName given opened second
  let (attributes, notes) ← parseAttributes source l
  match closing with
  | none => return (⟨name, attributes, none⟩, notes)
  | some closing =>
    let (closeName, mismatch) ← parseClosingTag source closing name
    return (⟨name, attributes, closeName⟩, notes ++ mismatch)

end ProseMarkup.Checked
