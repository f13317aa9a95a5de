import ProseMarkup.Checked.Access
import ProseMarkup.Token.Lexer

namespace ProseMarkup.Checked

open Token (Mode Kind)

abbrev Rule : Type :=
  List Char → Option (Option (List Char))

namespace Rule

def mark (m : List Char) : Rule := fun cs =>
  return if m <+: cs then some (cs.drop m.length) else none

def comment : Rule := fun cs =>
  return if ['<', '!', '-', '-'] <+: cs then
    some ((Text.splitAfter? ['-', '-', '>'] (cs.drop 4)).elim [] Prod.snd)
  else none

def quote : Rule
  | '"' :: cs => return some cs
  | '\'' :: cs => return some cs
  | _ => return none

def name : Rule := fun cs =>
  return (Name.read? cs).map Prod.snd

def loose : Rule := fun cs =>
  return if cs.takeWhile Token.Lexeme.isLoose = [] then none
    else some (cs.dropWhile Token.Lexeme.isLoose)

def before (marks : List (List Char)) : Rule := fun cs => do
  let stop := (marks.filterMap (find? · cs)).min?.getD (Text.size cs)
  if stop = 0 then return none
  else
    let _ ← slice? cs 0 stop
    let rest ← slice? cs stop (Text.size cs)
    return some rest

def marks (ms : List (Kind × List Char)) : List (Kind × Rule) :=
  ms.map fun (kind, m) => (kind, mark m)

end Rule

def contentMarks : List (Kind × List Char) :=
  [(.templateOpen, ['{', '{']), (.templateClose, ['}', '}']), (.closingTagStart, ['<', '/']),
    (.tagStart, ['<'])]

def contentRules : List (Kind × Rule) :=
  (.comment, .comment) :: Rule.marks contentMarks ++ [(.rawText, .before [['<'], ['{', '{']])]

def tagMarks : List (Kind × List Char) :=
  [(.templateOpen, ['{', '{']), (.templateClose, ['}', '}']), (.closingTagStart, ['<', '/']),
    (.selfClose, ['/', '>']), (.tagStart, ['<']), (.tagEnd, ['>']), (.equals, ['='])]

def tagRules : List (Kind × Rule) :=
  Rule.marks tagMarks ++ [(.quote, .quote), (.identifier, .name), (.rawText, .loose)]

/-- The kind and the size of the first match that is not empty. -/
def firstMatch (cs : List Char) : List (Kind × Rule) → Option (Option (Kind × Nat))
  | [] => return none
  | (kind, rule) :: rules => do
    match ← rule cs with
    | none => firstMatch cs rules
    | some rest =>
      let n ← sub? (Text.size cs) (Text.size rest)
      if 0 < n then return some (kind, n) else firstMatch cs rules

def matchValue (quote : Char) (cs : List Char) : Option (Option (Kind × Nat)) :=
  if cs.head? = some quote then return some (.quote, quote.utf8Size)
  else
    firstMatch cs (Rule.marks [(.templateOpen, ['{', '{'])] ++
      [(.attributeText, .before [[quote], ['{', '{']])])

def matchTemplate (enclosing : Option Char) (cs : List Char) : Option (Option (Kind × Nat)) :=
  firstMatch cs (Rule.marks [(.templateClose, ['}', '}'])] ++
    [(.rawText, .before (['}', '}'] :: (enclosing.map fun q => [q]).toList))])

def matchIn (mode : Mode) (cs : List Char) : Option (Kind × Nat) := do
  let found ← match mode with
    | .content => firstMatch cs contentRules
    | .tag => firstMatch cs tagRules
    | .value q => matchValue q cs
    | .template enclosing => matchTemplate enclosing cs
  return found.getD (.rawText, cs.head?.elim 1 Char.utf8Size)

structure Cursor where
  offset : Nat
  stop : Nat
  modes : List Mode
deriving DecidableEq, Repr

namespace Cursor

def ofRange (source : List Char) (start stop : Nat) : Cursor :=
  let stop := min stop (Text.size source)
  ⟨min start stop, stop, [.content]⟩

def mode (l : Cursor) : Mode :=
  l.modes.headD .content

def leave? : List Mode → Option (List Mode)
  | [] => none
  | [_] => some [.content]
  | _ :: outer :: modes => some (outer :: modes)

def transition? (modes : List Mode) (t : Token) : Option (List Mode) :=
  match modes.headD .content, t.kind with
  | .content, .tagStart | .content, .closingTagStart => some (.tag :: modes)
  | .content, .templateOpen | .tag, .templateOpen => some (.template none :: modes)
  | .tag, .tagEnd | .tag, .selfClose => leave? modes
  | .tag, .quote => some (t.text.toList.head?.elim modes fun q => .value q :: modes)
  | .value q, .templateOpen => some (.template (some q) :: modes)
  | .value _, .quote | .template _, .templateClose => leave? modes
  | _, _ => some modes

def skipBlanks (source : List Char) (l : Cursor) : Option Cursor :=
  if l.mode.skipsBlanks then do
    let rest ← slice? source l.offset l.stop
    let offset ← sub? l.stop (Text.size (rest.dropWhile Text.isBlank))
    return { l with offset }
  else return l

def take (source : List Char) (l : Cursor) (current : List Char) : Option (Token × Cursor) := do
  let (kind, n) ← matchIn l.mode current
  let text ← slice? source l.offset (l.offset + n)
  let token : Token := ⟨kind, .ofList text, l.offset⟩
  let modes ← transition? l.modes token
  return (token, ⟨l.offset + n, l.stop, modes⟩)

/-- The next token, if there is one, and the cursor behind it. A quote ends the template in its
value. -/
def next (source : List Char) (l : Cursor) : Option (Option Token × Cursor) :=
  if l.stop ≤ l.offset then return (none, l)
  else do
    let l' ← skipBlanks source l
    if l'.stop ≤ l'.offset then return (none, l')
    else
      let current ← slice? source l'.offset l'.stop
      match _ : l.modes with
      | .template (some q) :: modes =>
        if current.head? = some q then next source { l with modes }
        else return Prod.map some id (← take source l' current)
      | _ => return Prod.map some id (← take source l' current)
termination_by l.modes.length
decreasing_by simp_all

end Cursor

end ProseMarkup.Checked
