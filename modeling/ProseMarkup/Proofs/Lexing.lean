import ProseMarkup.Proofs.Readers
import ProseMarkup.Token.Lexer

namespace ProseMarkup

theorem Text.stops_of_suffix {stops : List Char → Bool} {cs s : List Char}
    (h : s <:+ (breakBefore stops cs).1) (hne : s ≠ []) :
    stops (s ++ (breakBefore stops cs).2) = false := by
  induction cs with
  | nil => exact absurd (List.suffix_nil.mp h) hne
  | cons c cs ih =>
    by_cases hc : stops (c :: cs)
    · rw [breakBefore, if_pos hc] at h
      exact absurd (List.suffix_nil.mp h) hne
    · rw [breakBefore, if_neg hc] at h ⊢
      obtain rfl | h := List.suffix_cons_iff.mp h
      · rw [List.cons_append, breakBefore_append]
        exact Bool.eq_false_iff.mpr hc
      · exact ih h

namespace Token

def IsQuote (c : Char) : Prop :=
  c = '"' ∨ c = '\''

inductive Shape : Mode → Kind → List Char → Prop
  | comment (body : List Char) : Shape .content .comment ('<' :: '!' :: '-' :: '-' :: body)
  | prose {c : Char} {cs : List Char} (hb : Text.isBlank c = false) (hl : '<' ∉ c :: cs)
      (ho : ¬['{', '{'] <:+: c :: cs) : Shape .content .rawText (c :: cs)
  | templateOpen {m : Mode} (hm : ∀ enclosing, m ≠ .template enclosing) :
      Shape m .templateOpen ['{', '{']
  | templateClose {m : Mode} (hm : ∀ q, m ≠ .value q) : Shape m .templateClose ['}', '}']
  | closingTagStart {m : Mode} (hm : m.skipsBlanks) : Shape m .closingTagStart ['<', '/']
  | tagStart {m : Mode} (hm : m.skipsBlanks) : Shape m .tagStart ['<']
  | tagEnd : Shape .tag .tagEnd ['>']
  | selfClose : Shape .tag .selfClose ['/', '>']
  | equals : Shape .tag .equals ['=']
  | openingQuote {q : Char} (hq : IsQuote q) : Shape .tag .quote [q]
  | closingQuote (q : Char) : Shape (.value q) .quote [q]
  | name {cs : List Char} (h : Name.IsName cs) : Shape .tag .identifier cs
  /-- A slash that ends no tag, or a brace that opens no template. -/
  | lone {c : Char} (hc : c = '/' ∨ c = '{') : Shape .tag .rawText [c]
  | loose {cs : List Char} (hne : cs ≠ []) (h : ∀ c ∈ cs, Text.isBlank c = false ∧
      c ∉ ['<', '>', '/', '=', '"', '\'', '{']) : Shape .tag .rawText cs
  | value {q : Char} {cs : List Char} (hq : q ∉ cs) (ho : ¬['{', '{'] <:+: cs) :
      Shape (.value q) .attributeText cs
  | expression {enclosing : Option Char} {cs : List Char} (hc : ¬['}', '}'] <:+: cs)
      (hq : ∀ q ∈ enclosing, q ∉ cs) : Shape (.template enclosing) .rawText cs

namespace Lexeme

theorem kind_run (kind : Kind) (stops : List Char → Bool) (cs : List Char) :
    (run kind stops cs).kind = kind := by
  cases cs <;> rfl

theorem stops_of_suffix_run {kind : Kind} {stops : List Char → Bool} {cs s : List Char}
    (h : stops cs = false) (hs : s <:+ (run kind stops cs).text) (hne : s ≠ []) :
    stops (s ++ (run kind stops cs).rest) = false := by
  cases cs with
  | nil => exact absurd (List.suffix_nil.mp hs) hne
  | cons c cs =>
    obtain rfl | hs := List.suffix_cons_iff.mp hs
    · have happend := run_append kind stops (c :: cs)
      rw [run] at happend ⊢
      rwa [happend]
    · exact Text.stops_of_suffix hs hne

theorem not_mem_run (kind : Kind) (stops : List Char → Bool) {cs : List Char} {a : Char}
    (ha : ∀ as, stops (a :: as) = true) (h : stops cs = false) : a ∉ (run kind stops cs).text := by
  intro hmem
  obtain ⟨before, after, heq⟩ := List.append_of_mem hmem
  have hstop := stops_of_suffix_run h ⟨before, heq.symm⟩ (List.cons_ne_nil a after)
  rw [List.cons_append, ha] at hstop
  cases hstop

theorem not_infix_run (kind : Kind) (stops : List Char → Bool) {cs : List Char} {a b : Char}
    (ha : ∀ as, stops (a :: b :: as) = true) (h : stops cs = false) :
    ¬[a, b] <:+: (run kind stops cs).text := by
  rintro ⟨before, after, heq⟩
  have hsuffix : a :: b :: after <:+ (run kind stops cs).text :=
    ⟨before, by rw [← heq, List.append_assoc]; rfl⟩
  have hstop := stops_of_suffix_run h hsuffix (List.cons_ne_nil a (b :: after))
  rw [List.cons_append, List.cons_append, ha] at hstop
  cases hstop

theorem opensTemplate_eq_true {cs : List Char} (h : opensTemplate cs = true) :
    ∃ ds, cs = '{' :: '{' :: ds := by
  unfold opensTemplate at h
  split at h
  · exact ⟨_, rfl⟩
  · cases h

theorem closesTemplate_eq_true {cs : List Char} (h : closesTemplate cs = true) :
    ∃ ds, cs = '}' :: '}' :: ds := by
  unfold closesTemplate at h
  split at h
  · exact ⟨_, rfl⟩
  · cases h

theorem opensTemplate_iff {cs : List Char} : opensTemplate cs = true ↔ ['{', '{'] <+: cs := by
  constructor
  · intro h
    obtain ⟨ds, rfl⟩ := opensTemplate_eq_true h
    exact ⟨ds, rfl⟩
  · rintro ⟨ds, rfl⟩
    rfl

theorem closesTemplate_iff {cs : List Char} : closesTemplate cs = true ↔ ['}', '}'] <+: cs := by
  constructor
  · intro h
    obtain ⟨ds, rfl⟩ := closesTemplate_eq_true h
    exact ⟨ds, rfl⟩
  · rintro ⟨ds, rfl⟩
    rfl

theorem shape_inContent {c : Char} {cs : List Char} (hb : Text.isBlank c = false) :
    Shape .content (inContent (c :: cs)).kind (inContent (c :: cs)).text := by
  unfold inContent
  split
  · exact .comment _
  · exact .templateOpen nofun
  · exact .templateClose nofun
  · exact .closingTagStart rfl
  · exact .tagStart rfl
  · rename_i ho _ _ hl
    have hstops : opensMarkup (c :: cs) = false := by
      apply Bool.eq_false_iff.mpr
      intro h
      obtain h | h := (Bool.or_eq_true _ _).mp h
      · obtain rfl : c = '<' := by simpa using h
        exact hl cs rfl
      · obtain ⟨ds, hds⟩ := opensTemplate_eq_true h
        exact ho ds hds
    exact .prose hb (not_mem_run .rawText opensMarkup (fun _ => rfl) hstops)
      (not_infix_run .rawText opensMarkup (fun _ => rfl) hstops)

theorem isLoose_iff {c : Char} : isLoose c = true ↔
    Text.isBlank c = false ∧ c ∉ ['<', '>', '/', '=', '"', '\'', '{'] := by
  rw [isLoose, Bool.and_eq_true, Bool.not_eq_true', List.all_eq_true]
  refine and_congr_right' ⟨fun h hc => ?_, fun h d hd => ?_⟩
  · simpa using h c hc
  · apply decide_eq_true
    rintro rfl
    exact h hd

theorem shape_loose {c : Char} {cs : List Char} (hb : Text.isBlank c = false)
    (hc : c ∉ ['<', '>', '=', '"', '\'']) :
    Shape .tag (loose (c :: cs)).kind (loose (c :: cs)).text := by
  rw [loose]
  split
  · rename_i hloose
    refine .loose (List.cons_ne_nil _ _) fun d hd => isLoose_iff.mp ?_
    obtain rfl | hd := List.mem_cons.mp hd
    · exact hloose
    · exact List.mem_takeWhile_imp hd
  · rename_i hloose
    apply Shape.lone
    by_contra hlone
    obtain ⟨hslash, hbrace⟩ := not_or.mp hlone
    apply hloose
    rw [isLoose_iff]
    simp only [List.mem_cons, List.not_mem_nil, or_false, not_or] at hc ⊢
    exact ⟨hb, hc.1, hc.2.1, hslash, hc.2.2.1, hc.2.2.2.1, hc.2.2.2.2, hbrace⟩

theorem shape_inTag {c : Char} {cs : List Char} (hb : Text.isBlank c = false) :
    Shape .tag (inTag (c :: cs)).kind (inTag (c :: cs)).text := by
  unfold inTag
  split
  · exact .templateOpen nofun
  · exact .templateClose nofun
  · exact .closingTagStart rfl
  · exact .selfClose
  · exact .tagStart rfl
  · exact .tagEnd
  · exact .equals
  · exact .openingQuote (.inl rfl)
  · exact .openingQuote (.inr rfl)
  · rename_i hlt hgt hequals hdouble hsingle
    split
    · rename_i h
      exact .name (Name.read?_eq_some_iff.mp h).2.1
    · apply shape_loose hb
      simp only [List.mem_cons, List.not_mem_nil, or_false, not_or]
      refine ⟨?_, ?_, ?_, ?_, ?_⟩
      · rintro rfl
        exact hlt cs rfl
      · rintro rfl
        exact hgt cs rfl
      · rintro rfl
        exact hequals cs rfl
      · rintro rfl
        exact hdouble cs rfl
      · rintro rfl
        exact hsingle cs rfl

theorem shape_inValue (q : Char) (cs : List Char) :
    Shape (.value q) (inValue q cs).kind (inValue q cs).text := by
  unfold inValue
  split
  · exact .closingQuote q
  · rename_i hq
    split
    · rename_i ho
      obtain ⟨ds, rfl⟩ := opensTemplate_eq_true ho
      exact .templateOpen nofun
    · rename_i ho
      have hstops : (decide (cs.head? = some q) || opensTemplate cs) = false := by
        simp [hq, ho]
      rw [kind_run]
      refine .value ?_ ?_
      · exact not_mem_run .attributeText (fun cs => cs.head? = some q || opensTemplate cs)
          (fun as => by simp) hstops
      · exact not_infix_run .attributeText (fun cs => cs.head? = some q || opensTemplate cs)
          (fun as => by simp [opensTemplate]) hstops

theorem shape_inTemplate {enclosing : Option Char} {c : Char} (cs : List Char)
    (hq : enclosing ≠ some c) :
    Shape (.template enclosing) (inTemplate enclosing (c :: cs)).kind
      (inTemplate enclosing (c :: cs)).text := by
  unfold inTemplate
  split
  · rename_i hc
    obtain ⟨ds, hds⟩ := closesTemplate_eq_true hc
    rw [hds]
    exact .templateClose nofun
  · rename_i hc
    have hstops : (closesTemplate (c :: cs) ||
        (enclosing.isSome && decide ((c :: cs).head? = enclosing))) = false := by
      simp [hc, hq.symm]
    rw [kind_run]
    refine .expression ?_ ?_
    · exact not_infix_run .rawText
        (fun cs => closesTemplate cs || (enclosing.isSome && cs.head? = enclosing))
        (fun as => by simp [closesTemplate]) hstops
    · rintro q rfl
      exact not_mem_run .rawText
        (fun cs => closesTemplate cs || ((some q).isSome && cs.head? = some q))
        (fun as => by simp) hstops

end Lexeme

/-- What is read in a mode has a shape of the mode. The next character is no blank where blanks are
skipped, and not the quote that ends the template. -/
theorem Mode.shape_read {m : Mode} {c : Char} (cs : List Char)
    (hb : m.skipsBlanks → Text.isBlank c = false) (hq : m ≠ .template (some c)) :
    Shape m (m.read (c :: cs)).kind (m.read (c :: cs)).text := by
  cases m with
  | content => exact Lexeme.shape_inContent (hb rfl)
  | tag => exact Lexeme.shape_inTag (hb rfl)
  | value q => exact Lexeme.shape_inValue q (c :: cs)
  | template enclosing =>
    apply Lexeme.shape_inTemplate
    rintro rfl
    exact hq rfl

end Token

namespace Lexer

open Token (Mode Kind Shape IsQuote)

def after (l : Lexer) : Nat → Lexer
  | 0 => l
  | n + 1 => (l.after n).next.2

/-- What one call does: it skips the blanks before the next token and reads the token, or comes to
the end of the text. -/
inductive Call (l : Lexer) : Option Token → Lexer → Prop
  | stop (hb : ∀ c ∈ l.rest, Text.isBlank c = true)
      (hm : l.rest ≠ [] → l.settled.mode.skipsBlanks = true) :
      Call l none ⟨[], l.offset + Text.size l.rest, l.settled.modes⟩
  | token {gap cs : List Char} {c : Char} (h : l.rest = gap ++ c :: cs)
      (hb : ∀ g ∈ gap, Text.isBlank g = true) (hm : gap ≠ [] → l.settled.mode.skipsBlanks = true)
      (hc : l.settled.mode.skipsBlanks → Text.isBlank c = false) :
      Call l
        (some ⟨(l.settled.mode.read (c :: cs)).kind, .ofList (l.settled.mode.read (c :: cs)).text,
          l.offset + Text.size gap⟩)
        ⟨(l.settled.mode.read (c :: cs)).rest,
          l.offset + Text.size gap + Text.size (l.settled.mode.read (c :: cs)).text,
          transition l.settled.modes (l.settled.mode.read (c :: cs))⟩

theorem settled_eq (l : Lexer) : l.settled = ⟨l.rest, l.offset, l.settled.modes⟩ := by
  obtain ⟨_ | ⟨c, cs⟩, offset, modes⟩ := l <;> rfl

theorem call_next (l : Lexer) : Call l l.next.1 l.next.2 := by
  have hcall {rest : List Char} {offset : Nat}
      (h : l.settled.skipBlanks = ⟨rest, offset, l.settled.modes⟩) :
      l.next = take ⟨rest, offset, l.settled.modes⟩ := by
    rw [next, h]
  by_cases hm : l.settled.mode.skipsBlanks
  · have hskip : l.settled.skipBlanks = ⟨l.rest.dropWhile Text.isBlank,
        l.offset + Text.size (l.rest.takeWhile Text.isBlank), l.settled.modes⟩ := by
      rw [skipBlanks, if_pos hm, settled_eq]
    have hsplit : l.rest.takeWhile Text.isBlank ++ l.rest.dropWhile Text.isBlank = l.rest :=
      List.takeWhile_append_dropWhile
    rw [hcall hskip]
    cases hd : l.rest.dropWhile Text.isBlank with
    | nil =>
      rw [hd, List.append_nil] at hsplit
      rw [hsplit]
      exact .stop (List.dropWhile_eq_nil_iff.mp hd) fun _ => hm
    | cons c cs =>
      have hc := List.head?_dropWhile_not Text.isBlank l.rest
      rw [hd] at hc hsplit
      exact .token hsplit.symm (fun g => List.mem_takeWhile_imp) (fun _ => hm) fun _ => by
        simpa using hc
  · have hskip : l.settled.skipBlanks = ⟨l.rest, l.offset, l.settled.modes⟩ := by
      rw [skipBlanks, if_neg hm, settled_eq]
    rw [hcall hskip]
    cases hrest : l.rest with
    | nil =>
      have hstop := Call.stop (l := l) (by simp [hrest]) (by simp [hrest])
      rwa [hrest] at hstop
    | cons c cs =>
      have hsplit : l.rest = [] ++ c :: cs := hrest
      exact .token hsplit nofun (absurd rfl) fun h => absurd h hm

structure Passes (l : Lexer) (past : List Char) (l' : Lexer) : Prop where
  rest_eq : l.rest = past ++ l'.rest
  offset_eq : l'.offset = l.offset + Text.size past

theorem Passes.refl (l : Lexer) : Passes l [] l :=
  ⟨rfl, rfl⟩

theorem Passes.trans {l l' l'' : Lexer} {past past' : List Char} (h : Passes l past l')
    (h' : Passes l' past' l'') : Passes l (past ++ past') l'' := by
  refine ⟨?_, ?_⟩
  · rw [h.rest_eq, h'.rest_eq, List.append_assoc]
  · rw [h'.offset_eq, h.offset_eq, Text.size_append, Nat.add_assoc]

theorem drain_of_none {l l' : Lexer} (h : l.next = (none, l')) : l.drain = ([], l') := by
  rw [drain]
  split
  · simp_all
  · simp_all

theorem drain_of_some {l l' : Lexer} {t : Token} (h : l.next = (some t, l')) :
    l.drain = (t :: l'.drain.1, l'.drain.2) := by
  rw [drain]
  split
  · simp_all
  · simp_all

inductive Stack : List Mode → Prop
  | content : Stack [.content]
  | tag : Stack [.tag, .content]
  | value {q : Char} (hq : IsQuote q) : Stack [.value q, .tag, .content]
  | templateInValue {q : Char} (hq : IsQuote q) :
      Stack [.template (some q), .value q, .tag, .content]
  | templateInContent : Stack [.template none, .content]
  | templateInTag : Stack [.template none, .tag, .content]

theorem Stack.settle {ms : List Mode} (h : Stack ms) (c : Char) : Stack (settle c ms) := by
  cases h with
  | content => exact .content
  | tag => exact .tag
  | value hq => exact .value hq
  | templateInValue hq =>
    rw [Lexer.settle]
    split
    · exact .value hq
    · exact .templateInValue hq
  | templateInContent => exact .templateInContent
  | templateInTag => exact .templateInTag

theorem Stack.settled {l : Lexer} (h : Stack l.modes) : Stack l.settled.modes := by
  obtain ⟨_ | ⟨c, cs⟩, offset, modes⟩ := l
  · exact h
  · exact h.settle c

theorem Stack.two_le_length {ms : List Mode} (h : Stack ms) {kind : Kind}
    (he : (ms.headD .content).endsWith kind = true) : 2 ≤ ms.length := by
  cases h with
  | content => cases he
  | _ => exact Nat.le_add_left 2 _

theorem Stack.transition {ms : List Mode} (h : Stack ms) {x : Token.Lexeme}
    (hx : Shape (ms.headD .content) x.kind x.text) : Stack (transition ms x) := by
  obtain ⟨kind, text, rest⟩ := x
  cases h with
  | content =>
    change Shape .content kind text at hx
    cases hx with
    | templateOpen => exact .templateInContent
    | closingTagStart | tagStart => exact .tag
    | comment | prose | templateClose => exact .content
  | tag =>
    change Shape .tag kind text at hx
    cases hx with
    | templateOpen => exact .templateInTag
    | openingQuote hq => exact .value hq
    | tagEnd | selfClose => exact .content
    | templateClose | closingTagStart | tagStart | equals | name | lone | loose => exact .tag
  | @value q hq =>
    change Shape (.value q) kind text at hx
    cases hx with
    | templateOpen => exact .templateInValue hq
    | closingQuote => exact .tag
    | value => exact .value hq
    | templateClose hm => exact absurd rfl (hm q)
    | closingTagStart hm | tagStart hm => cases hm
  | @templateInValue q hq =>
    change Shape (.template (some q)) kind text at hx
    cases hx with
    | templateClose => exact .value hq
    | expression => exact .templateInValue hq
    | templateOpen hm => exact absurd rfl (hm (some q))
    | closingTagStart hm | tagStart hm => cases hm
  | templateInContent =>
    change Shape (.template none) kind text at hx
    cases hx with
    | templateClose => exact .content
    | expression => exact .templateInContent
    | templateOpen hm => exact absurd rfl (hm none)
    | closingTagStart hm | tagStart hm => cases hm
  | templateInTag =>
    change Shape (.template none) kind text at hx
    cases hx with
    | templateClose => exact .tag
    | expression => exact .templateInTag
    | templateOpen hm => exact absurd rfl (hm none)
    | closingTagStart hm | tagStart hm => cases hm

theorem Stack.ne_template {l : Lexer} (h : Stack l.modes) {c : Char}
    (hc : l.rest.head? = some c) : l.settled.mode ≠ .template (some c) := by
  obtain ⟨_ | ⟨d, cs⟩, offset, modes⟩ := l
  · cases hc
  · obtain rfl := Option.some.inj hc
    change (Lexer.settle d modes).headD .content ≠ _
    cases h with
    | @templateInValue q hq =>
      rw [Lexer.settle]
      split
      · nofun
      · rintro ⟨⟩
        contradiction
    | _ => nofun

namespace Call

variable {l l' : Lexer} {o : Option Token}

theorem shape (h : Call l o l') (hs : Stack l.modes) {t : Token} (ht : t ∈ o) :
    Shape l.settled.mode t.kind t.text.toList := by
  cases h with
  | stop => cases ht
  | @token gap cs c h _ hm hc =>
    obtain rfl := Option.some.inj ht
    rw [String.toList_ofList]
    apply Mode.shape_read cs hc
    cases gap with
    | nil => exact hs.ne_template (by rw [h]; rfl)
    | cons g gap =>
      intro he
      rw [he] at hm
      cases hm (List.cons_ne_nil g gap)

theorem stack (h : Call l o l') (hs : Stack l.modes) : Stack l'.modes := by
  have hshape : ∀ t ∈ o, Shape l.settled.mode t.kind t.text.toList := fun t => h.shape hs
  cases h with
  | stop => exact hs.settled
  | @token gap cs c =>
    have hx := hshape _ rfl
    rw [String.toList_ofList] at hx
    exact hs.settled.transition hx

end Call

theorem stack_after {l : Lexer} (h : Stack l.modes) (n : Nat) : Stack (l.after n).modes := by
  induction n with
  | zero => exact h
  | succ n ih => exact (call_next _).stack ih

end Lexer

end ProseMarkup
