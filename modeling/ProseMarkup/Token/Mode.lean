import ProseMarkup.Name
import ProseMarkup.Text.Blank
import ProseMarkup.Token

namespace ProseMarkup.Token

inductive Mode where
  | content
  | tag
  | value (quote : Char)
  /-- In a template, which may stand in a value with the given quote. -/
  | template (enclosing : Option Char)
deriving DecidableEq, Repr

structure Lexeme where
  kind : Kind
  text : List Char
  rest : List Char
deriving DecidableEq, Repr

namespace Lexeme

def run (kind : Kind) (stops : List Char → Bool) : List Char → Lexeme
  | [] => ⟨kind, [], []⟩
  | c :: cs =>
    let (past, rest) := Text.breakBefore stops cs
    ⟨kind, c :: past, rest⟩

theorem run_append (kind : Kind) (stops : List Char → Bool) (cs : List Char) :
    (run kind stops cs).text ++ (run kind stops cs).rest = cs := by
  cases cs with
  | nil => rfl
  | cons c cs => simp [run, Text.breakBefore_append]

theorem run_text_ne_nil (kind : Kind) (stops : List Char → Bool) {cs : List Char} (h : cs ≠ []) :
    (run kind stops cs).text ≠ [] := by
  cases cs with
  | nil => contradiction
  | cons c cs => simp [run]

def opensTemplate : List Char → Bool
  | '{' :: '{' :: _ => true
  | _ => false

def closesTemplate : List Char → Bool
  | '}' :: '}' :: _ => true
  | _ => false

def opensMarkup (cs : List Char) : Bool :=
  cs.head? = some '<' || opensTemplate cs

def isLoose (c : Char) : Bool :=
  !Text.isBlank c && ['<', '>', '/', '=', '"', '\'', '{'].all (· ≠ c)

/-- Reads in prose. A comment ends with the first `-->` behind its opening characters, or with the
text. -/
def inContent : List Char → Lexeme
  | '<' :: '!' :: '-' :: '-' :: cs =>
    let (body, rest) := (Text.splitAfter? ['-', '-', '>'] cs).getD (cs, [])
    ⟨.comment, '<' :: '!' :: '-' :: '-' :: body, rest⟩
  | '{' :: '{' :: cs => ⟨.templateOpen, ['{', '{'], cs⟩
  | '}' :: '}' :: cs => ⟨.templateClose, ['}', '}'], cs⟩
  | '<' :: '/' :: cs => ⟨.closingTagStart, ['<', '/'], cs⟩
  | '<' :: cs => ⟨.tagStart, ['<'], cs⟩
  | cs => run .rawText opensMarkup cs

def loose : List Char → Lexeme
  | [] => ⟨.rawText, [], []⟩
  | c :: cs =>
    if isLoose c then ⟨.rawText, c :: cs.takeWhile isLoose, cs.dropWhile isLoose⟩
    else ⟨.rawText, [c], cs⟩

def inTag : List Char → Lexeme
  | '{' :: '{' :: cs => ⟨.templateOpen, ['{', '{'], cs⟩
  | '}' :: '}' :: cs => ⟨.templateClose, ['}', '}'], cs⟩
  | '<' :: '/' :: cs => ⟨.closingTagStart, ['<', '/'], cs⟩
  | '/' :: '>' :: cs => ⟨.selfClose, ['/', '>'], cs⟩
  | '<' :: cs => ⟨.tagStart, ['<'], cs⟩
  | '>' :: cs => ⟨.tagEnd, ['>'], cs⟩
  | '=' :: cs => ⟨.equals, ['='], cs⟩
  | '"' :: cs => ⟨.quote, ['"'], cs⟩
  | '\'' :: cs => ⟨.quote, ['\''], cs⟩
  | cs =>
    match Name.read? cs with
    | some (name, rest) => ⟨.identifier, name, rest⟩
    | none => loose cs

def inValue (quote : Char) (cs : List Char) : Lexeme :=
  if cs.head? = some quote then ⟨.quote, [quote], cs.tail⟩
  else if opensTemplate cs then ⟨.templateOpen, cs.take 2, cs.drop 2⟩
  else run .attributeText (fun cs => cs.head? = some quote || opensTemplate cs) cs

/-- Reads in a template. A quote of the enclosing value ends the text before it. -/
def inTemplate (enclosing : Option Char) (cs : List Char) : Lexeme :=
  if closesTemplate cs then ⟨.templateClose, cs.take 2, cs.drop 2⟩
  else run .rawText (fun cs => closesTemplate cs || (enclosing.isSome && cs.head? = enclosing)) cs

end Lexeme

namespace Mode

def read : Mode → List Char → Lexeme
  | .content => Lexeme.inContent
  | .tag => Lexeme.inTag
  | .value quote => Lexeme.inValue quote
  | .template enclosing => Lexeme.inTemplate enclosing

def skipsBlanks : Mode → Bool
  | .content | .tag => true
  | .value _ | .template _ => false

def opened? : Mode → Lexeme → Option Mode
  | .content, ⟨.tagStart, _, _⟩ | .content, ⟨.closingTagStart, _, _⟩ => some .tag
  | .content, ⟨.templateOpen, _, _⟩ | .tag, ⟨.templateOpen, _, _⟩ => some (.template none)
  | .tag, ⟨.quote, q :: _, _⟩ => some (.value q)
  | .value q, ⟨.templateOpen, _, _⟩ => some (.template (some q))
  | _, _ => none

def endsWith : Mode → Kind → Bool
  | .tag, .tagEnd | .tag, .selfClose => true
  | .value _, .quote => true
  | .template _, .templateClose => true
  | _, _ => false

end Mode

theorem Lexeme.inContent_append (cs : List Char) :
    (inContent cs).text ++ (inContent cs).rest = cs := by
  unfold inContent
  split
  · rename_i cs
    rcases h : Text.splitAfter? ['-', '-', '>'] cs with _ | ⟨body, rest⟩
    · simp
    · simp [Text.append_of_splitAfter? h]
  iterate 4 rfl
  exact run_append ..

theorem Lexeme.loose_append (cs : List Char) : (loose cs).text ++ (loose cs).rest = cs := by
  cases cs with
  | nil => rfl
  | cons c cs => by_cases h : isLoose c <;> simp [loose, h]

theorem Lexeme.inTag_append (cs : List Char) : (inTag cs).text ++ (inTag cs).rest = cs := by
  unfold inTag
  split
  iterate 9 rfl
  split
  · rename_i h
    exact Name.append_of_read? h
  · exact loose_append _

theorem Lexeme.inValue_append (quote : Char) (cs : List Char) :
    (inValue quote cs).text ++ (inValue quote cs).rest = cs := by
  unfold inValue
  split
  · rename_i h
    cases cs with
    | nil => simp at h
    | cons c cs => simpa using h.symm
  · split
    · exact List.take_append_drop 2 cs
    · exact run_append ..

theorem Lexeme.inTemplate_append (enclosing : Option Char) (cs : List Char) :
    (inTemplate enclosing cs).text ++ (inTemplate enclosing cs).rest = cs := by
  unfold inTemplate
  split
  · exact List.take_append_drop 2 cs
  · exact run_append ..

theorem Mode.read_append (m : Mode) (cs : List Char) :
    (m.read cs).text ++ (m.read cs).rest = cs := by
  cases m with
  | content => exact Lexeme.inContent_append cs
  | tag => exact Lexeme.inTag_append cs
  | value q => exact Lexeme.inValue_append q cs
  | template q => exact Lexeme.inTemplate_append q cs

theorem Lexeme.inContent_text_ne_nil {cs : List Char} (h : cs ≠ []) :
    (inContent cs).text ≠ [] := by
  unfold inContent
  split
  iterate 5 exact List.cons_ne_nil _ _
  exact run_text_ne_nil _ _ h

theorem Lexeme.loose_text_ne_nil {cs : List Char} (h : cs ≠ []) : (loose cs).text ≠ [] := by
  cases cs with
  | nil => contradiction
  | cons c cs => by_cases hc : isLoose c <;> simp [loose, hc]

theorem Lexeme.inTag_text_ne_nil {cs : List Char} (h : cs ≠ []) : (inTag cs).text ≠ [] := by
  unfold inTag
  split
  iterate 9 exact List.cons_ne_nil _ _
  split
  · rename_i hr
    exact Name.ne_nil_of_read? hr
  · exact loose_text_ne_nil h

theorem Lexeme.inValue_text_ne_nil (quote : Char) {cs : List Char} (h : cs ≠ []) :
    (inValue quote cs).text ≠ [] := by
  unfold inValue
  split
  · exact List.cons_ne_nil _ _
  · split
    · cases cs with
      | nil => contradiction
      | cons c cs => simp
    · exact run_text_ne_nil _ _ h

theorem Lexeme.inTemplate_text_ne_nil (enclosing : Option Char) {cs : List Char} (h : cs ≠ []) :
    (inTemplate enclosing cs).text ≠ [] := by
  unfold inTemplate
  split
  · cases cs with
    | nil => contradiction
    | cons c cs => simp
  · exact run_text_ne_nil _ _ h

theorem Mode.read_text_ne_nil (m : Mode) {cs : List Char} (h : cs ≠ []) :
    (m.read cs).text ≠ [] := by
  cases m with
  | content => exact Lexeme.inContent_text_ne_nil h
  | tag => exact Lexeme.inTag_text_ne_nil h
  | value q => exact Lexeme.inValue_text_ne_nil q h
  | template q => exact Lexeme.inTemplate_text_ne_nil q h

theorem Mode.read_length (m : Mode) {cs : List Char} (h : cs ≠ []) :
    (m.read cs).rest.length < cs.length := by
  have ha := congrArg List.length (m.read_append cs)
  have hp := List.length_pos_iff.mpr (m.read_text_ne_nil h)
  rw [List.length_append] at ha
  omega

end ProseMarkup.Token
