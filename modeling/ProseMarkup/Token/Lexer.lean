import ProseMarkup.Token.Mode

namespace ProseMarkup

open Token (Mode Lexeme)

/-- What is left of a text, where it stands, and the open modes with the innermost first. -/
structure Lexer where
  rest : List Char
  offset : Nat
  modes : List Mode
deriving DecidableEq, Repr

namespace Lexer

def ofText (start : Nat) (cs : List Char) : Lexer :=
  ⟨cs, start, [.content]⟩

/-- The lexer of a range of bytes in a text. A range that leaves the text is cut at its end. -/
def ofRange (source : String) (start stop : Nat) : Lexer :=
  let stop := min stop (Text.size source.toList)
  ofText (min start stop) (Text.slice (min start stop) stop source.toList)

def ofString (source : String) : Lexer :=
  ofText 0 source.toList

def mode (l : Lexer) : Mode :=
  l.modes.headD .content

def isAtEnd (l : Lexer) : Bool :=
  l.rest.isEmpty

/-- Ends the innermost mode. The last one gives way to prose. -/
def leave : List Mode → List Mode
  | _ :: outer :: modes => outer :: modes
  | _ => [.content]

/-- Ends the templates in a value whose quote is the next character. -/
def settle (next : Char) : List Mode → List Mode
  | .template (some q) :: modes =>
    if q = next then settle next modes else .template (some q) :: modes
  | modes => modes

def transition (modes : List Mode) (x : Lexeme) : List Mode :=
  let mode := modes.headD .content
  match mode.opened? x with
  | some inner => inner :: modes
  | none => if mode.endsWith x.kind then leave modes else modes

def settled (l : Lexer) : Lexer :=
  match l.rest with
  | [] => l
  | c :: _ => { l with modes := settle c l.modes }

def skipBlanks (l : Lexer) : Lexer :=
  if l.mode.skipsBlanks then
    { l with
      rest := l.rest.dropWhile Text.isBlank
      offset := l.offset + Text.size (l.rest.takeWhile Text.isBlank) }
  else l

def take (l : Lexer) : Option Token × Lexer :=
  if l.rest = [] then (none, l)
  else
    let x := l.mode.read l.rest
    (some ⟨x.kind, .ofList x.text, l.offset⟩,
      ⟨x.rest, l.offset + Text.size x.text, transition l.modes x⟩)

def next (l : Lexer) : Option Token × Lexer :=
  l.settled.skipBlanks.take

def peek (l : Lexer) : Option Token :=
  l.next.1

theorem settled_rest (l : Lexer) : l.settled.rest = l.rest := by
  unfold settled
  split <;> simp_all

theorem skipBlanks_length (l : Lexer) : l.skipBlanks.rest.length ≤ l.rest.length := by
  unfold skipBlanks
  split
  · exact (List.dropWhile_suffix _).length_le
  · exact Nat.le_refl _

theorem take_length {l l' : Lexer} {t : Token} (h : l.take = (some t, l')) :
    l'.rest.length < l.rest.length := by
  by_cases hr : l.rest = []
  · simp [take, hr] at h
  · simp only [take, hr, if_false, Prod.mk.injEq] at h
    rw [← h.2]
    exact l.mode.read_length hr

theorem next_length {l l' : Lexer} {t : Token} (h : l.next = (some t, l')) :
    l'.rest.length < l.rest.length := by
  have hs := skipBlanks_length l.settled
  rw [settled_rest] at hs
  exact Nat.lt_of_lt_of_le (take_length h) hs

def drain (l : Lexer) : List Token × Lexer :=
  match h : l.next with
  | (none, l') => ([], l')
  | (some t, l') =>
    have : l'.rest.length < l.rest.length := next_length h
    let (ts, last) := drain l'
    (t :: ts, last)
termination_by l.rest.length

def tokens (l : Lexer) : List Token :=
  l.drain.1

end Lexer

def tokenize (source : String) : List Token :=
  (Lexer.ofString source).tokens

end ProseMarkup
