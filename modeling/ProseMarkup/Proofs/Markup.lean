import ProseMarkup.Proofs.Numbers
import ProseMarkup.TagSet

namespace ProseMarkup

namespace Markup

inductive Part where
  | literal (text : List Char)
  | template (inner : List Char)

namespace Part

def chars : Part → List Char
  | literal text => text
  | template inner => (Piece.template inner).chars

def isLiteral : Part → Bool
  | literal _ => true
  | template _ => false

def Fits (quote : Char) : Part → Prop
  | literal text => text ≠ [] ∧ quote ∉ text ∧ '{' ∉ text
  | template inner => quote ∉ inner ∧ '{' ∉ inner ∧ '}' ∉ inner

instance (quote : Char) : DecidablePred (Fits quote)
  | literal text => inferInstanceAs (Decidable (text ≠ [] ∧ quote ∉ text ∧ '{' ∉ text))
  | template inner => inferInstanceAs (Decidable (quote ∉ inner ∧ '{' ∉ inner ∧ '}' ∉ inner))

def fragment (start : Nat) : Part → Fragment
  | literal text => .literal (.ofList text) (.ofText start text)
  | template inner => .template (.ofList (Text.trim inner)) (.ofText start (template inner).chars)

def fragments (start : Nat) : List Part → List Fragment
  | [] => []
  | p :: ps => p.fragment start :: fragments (start + Text.size p.chars) ps

end Part

/-- An attribute with a quoted value, and the blank before it. -/
structure Setting where
  blank : Char
  key : List Char
  quote : Char
  parts : List Part
  blank_isBlank : Text.isBlank blank = true
  key_isName : Name.isName key = true
  quote_mem : quote ∈ ['"', '\'']
  parts_fit : ∀ p ∈ parts, p.Fits quote
  parts_apart : parts.IsChain fun p q => ¬(p.isLiteral ∧ q.isLiteral)

namespace Setting

def value (a : Setting) : List Char :=
  a.parts.flatMap Part.chars

def front (a : Setting) : List Char :=
  a.blank :: a.key ++ ['=', a.quote]

def chars (a : Setting) : List Char :=
  a.front ++ a.value ++ [a.quote]

def toAttribute (start : Nat) (a : Setting) : Attribute where
  key := .ofList a.key
  keySpan := .ofText (start + Text.size [a.blank]) a.key
  value := Part.fragments (start + Text.size a.front) a.parts
  valueSpan := some (.ofText (start + Text.size a.front) a.value)

def toAttributes (start : Nat) : List Setting → List Attribute
  | [] => []
  | a :: as => a.toAttribute start :: toAttributes (start + Text.size a.chars) as

end Setting

structure Opening where
  name : List Char
  settings : List Setting
  name_isName : Name.isName name = true

namespace Opening

def inside (o : Opening) : List Char :=
  o.settings.flatMap Setting.chars

def tag (o : Opening) : OpeningTag :=
  ⟨o.name, o.inside⟩

def emptyTag (o : Opening) : OpeningTag :=
  ⟨o.name, o.inside ++ ['/']⟩

def closing (o : Opening) : ClosingTag :=
  ⟨o.name, []⟩

def enclose (o : Opening) (cls : TagClass) (body : List Char) : Element :=
  ⟨cls, o.tag, some (body, o.closing)⟩

def tagAt (o : Opening) (cls : TagClass) (start : Nat) (closed : Option Nat) : Tag where
  cls := cls
  name := .ofList o.name
  nameSpan := .ofText (start + 1) o.name
  closeNameSpan := closed.map fun n => .ofText (n + 2) o.name
  selfClosing := closed.isNone
  attributes := Setting.toAttributes (start + 1 + Text.size o.name) o.settings

end Opening

end Markup

inductive Markup where
  | text (chars : List Char)
  | template (inner : List Char)
  | empty (cls : TagClass) (opening : Markup.Opening)
  | metadata (opening : Markup.Opening) (body : List Char)
  | structural (opening : Markup.Opening) (children : List Markup)

namespace Markup

mutual

def chars : Markup → List Char
  | text chars => chars
  | template inner => (Piece.template inner).chars
  | empty _ o => o.emptyTag.text
  | metadata o body => (o.enclose .metadata body).text
  | structural o ts => (o.enclose .structural (charsAll ts)).text

def charsAll : List Markup → List Char
  | [] => []
  | t :: ts => t.chars ++ charsAll ts

end

def print (ts : List Markup) : String :=
  .ofList (charsAll ts)

def isText : Markup → Bool
  | text _ => true
  | _ => false

def isBlank : Markup → Bool
  | text chars => chars.all Text.isBlank
  | _ => false

def isNamed (name : List Char) : Markup → Bool
  | empty _ o | metadata o _ | structural o _ => Text.sameName o.name name
  | _ => false

def isOneOf (name : List Char) (ts : List Markup) : Bool :=
  match ts.filter (!·.isBlank) with
  | [t] => t.isNamed name
  | _ => false

def startsWith (name cs : List Char) : Bool :=
  (Name.read? cs).any fun x => Text.sameName x.1 name

def marks (name cs : List Char) : Bool :=
  ['!', '-', '-'].isPrefixOf cs || startsWith name cs ||
    (cs.head? = some '/' && startsWith name cs.tail)

def Unmarked (name : List Char) : List Char → Prop
  | [] => True
  | c :: cs => (c = '<' → marks name cs = false) ∧ Unmarked name cs

instance decidableUnmarked (name : List Char) : (cs : List Char) → Decidable (Unmarked name cs)
  | [] => inferInstanceAs (Decidable True)
  | c :: cs =>
    have := decidableUnmarked name cs
    inferInstanceAs (Decidable ((c = '<' → marks name cs = false) ∧ Unmarked name cs))

mutual

/-- Holds of a node whose names have the right class in the given set, and whose text does not end
before it should. -/
def WellFormed (s : TagSet) : Markup → Prop
  | text chars => chars ≠ [] ∧ '<' ∉ chars ∧ '{' ∉ chars
  | template inner => '<' ∉ inner ∧ '{' ∉ inner ∧ '}' ∉ inner
  | empty cls o => s.classify (.ofList o.name) = some cls
  | metadata o body => s.classify (.ofList o.name) = some .metadata ∧ Unmarked o.name body
  | structural o ts =>
    s.classify (.ofList o.name) = some .structural ∧ isOneOf o.name ts = false ∧ WellFormedAll s ts

def WellFormedAll (s : TagSet) : List Markup → Prop
  | [] => True
  | t :: ts => WellFormed s t ∧ (t.isText → ts.head?.any isText = false) ∧ WellFormedAll s ts

end

mutual

instance decidableWellFormed (s : TagSet) : (t : Markup) → Decidable (WellFormed s t)
  | text chars => inferInstanceAs (Decidable (chars ≠ [] ∧ '<' ∉ chars ∧ '{' ∉ chars))
  | template inner => inferInstanceAs (Decidable ('<' ∉ inner ∧ '{' ∉ inner ∧ '}' ∉ inner))
  | empty cls o => inferInstanceAs (Decidable (s.classify (.ofList o.name) = some cls))
  | metadata o body => inferInstanceAs
    (Decidable (s.classify (.ofList o.name) = some .metadata ∧ Unmarked o.name body))
  | structural o ts =>
    have := decidableWellFormedAll s ts
    inferInstanceAs (Decidable (s.classify (.ofList o.name) = some .structural ∧
      isOneOf o.name ts = false ∧ WellFormedAll s ts))

instance decidableWellFormedAll (s : TagSet) : (ts : List Markup) → Decidable (WellFormedAll s ts)
  | [] => inferInstanceAs (Decidable True)
  | t :: ts =>
    have := decidableWellFormed s t
    have := decidableWellFormedAll s ts
    inferInstanceAs (Decidable (WellFormed s t ∧ (t.isText → ts.head?.any isText = false) ∧
      WellFormedAll s ts))

end

mutual

def depth : Markup → Nat
  | text _ | template _ => 0
  | empty _ _ | metadata _ _ => 1
  | structural _ ts => depthAll ts + 1

def depthAll : List Markup → Nat
  | [] => 0
  | t :: ts => max t.depth (depthAll ts)

end

def shape (start : Nat) : Markup → Segment.Shape
  | text _ => .text
  | template inner => .template (.ofList (Text.trim inner))
  | empty cls o => .element (o.tagAt cls start none)
  | metadata o body =>
    .element (o.tagAt .metadata start (some (start + Text.size (o.tag.text ++ body))))
  | structural o ts =>
    .element (o.tagAt .structural start (some (start + Text.size (o.tag.text ++ charsAll ts))))

mutual

def offsets (start : Nat) : Markup → Tree (Nat × Markup)
  | text chars => .node (start, text chars) []
  | template inner => .node (start, template inner) []
  | empty cls o => .node (start, empty cls o) []
  | metadata o body => .node (start, metadata o body) []
  | structural o ts =>
    .node (start, structural o ts) (offsetsAll (start + Text.size o.tag.text) ts)

def offsetsAll (start : Nat) : List Markup → List (Tree (Nat × Markup))
  | [] => []
  | t :: ts => t.offsets start :: offsetsAll (start + Text.size t.chars) ts

end

/-- One node is the root. Any other number of nodes stands below a root of prose. -/
def outline (ts : List Markup) : Tree (Nat × Markup) :=
  match offsetsAll 0 ts with
  | [t] => t
  | us => .node (0, .text (charsAll ts)) us

def segment (id : Nat) (x : Nat × Markup) : Segment :=
  ⟨id, .ofText x.1 x.2.chars, .ofList x.2.chars, x.2.shape x.1⟩

def document (path : Option String) (ts : List Markup) : Document :=
  let root := (outline ts).number segment 0
  ⟨print ts, path, root, [], 0, .ofTree root, Parents.ordered_ofTree (fun _ _ => rfl) _⟩

end Markup

end ProseMarkup
