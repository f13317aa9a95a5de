import ProseMarkup.Proofs.Markup.Search
import ProseMarkup.Proofs.Shift.Tags

namespace ProseMarkup

theorem Text.breakBefore_eq {stops : List Char → Bool} {past rest : List Char}
    (hp : ∀ s, s <:+ past → s ≠ [] → stops (s ++ rest) = false)
    (hr : rest ≠ [] → stops rest = true) : breakBefore stops (past ++ rest) = (past, rest) := by
  induction past with
  | nil =>
    cases rest with
    | nil => rfl
    | cons c cs => exact if_pos (hr (List.cons_ne_nil c cs))
  | cons c past ih =>
    have hc := hp (c :: past) List.suffix_rfl (List.cons_ne_nil c past)
    rw [List.cons_append] at hc ⊢
    rw [breakBefore, if_neg (by simp [hc])]
    rw [ih fun s hs => hp s (hs.trans (List.suffix_cons c past))]

theorem Token.span_ofList (kind : Token.Kind) (cs : List Char) (start : Nat) :
    Token.span ⟨kind, .ofList cs, start⟩ = .ofText start cs := by
  rw [span, String.toList_ofList]

theorem Token.Mode.read_tag_of_isStart {a : Char} (ha : Name.isStart a = true)
    {cs name rest : List Char} (h : Name.read? (a :: cs) = some (name, rest)) :
    Mode.tag.read (a :: cs) = ⟨.identifier, name, rest⟩ := by
  rw [read, Lexeme.inTag, h]
  -- no delimiter starts a name
  all_goals
    rintro _ ⟨⟩
    revert ha
    decide

theorem Token.Mode.read_content_of_isStart {a : Char} (ha : Name.isStart a = true)
    (cs : List Char) : Mode.content.read ('<' :: a :: cs) = ⟨.tagStart, ['<'], a :: cs⟩ := by
  rw [read, Lexeme.inContent]
  all_goals
    rintro _ ⟨⟩
    revert ha
    decide

namespace Lexer

open Token (Mode Lexeme)

variable {l l' l'' : Lexer} {ts us : List Token}

/-- Holds when a lexer gives some tokens on its way to another one. -/
def Emits (l : Lexer) (ts : List Token) (l' : Lexer) : Prop :=
  l.tokens = ts ++ l'.tokens

theorem Emits.refl (l : Lexer) : Emits l [] l := rfl

theorem Emits.trans (h : Emits l ts l') (h' : Emits l' us l'') : Emits l (ts ++ us) l'' := by
  rw [Emits] at h h' ⊢
  rw [h, h', List.append_assoc]

theorem Emits.of_next {t : Token} (h : l.next = (some t, l')) : Emits l [t] l' :=
  congrArg Prod.fst (drain_of_some h)

theorem tokens_of_nil (offset : Nat) (modes : List Mode) : tokens ⟨[], offset, modes⟩ = [] := by
  have hn : next ⟨[], offset, modes⟩ = (none, skipBlanks ⟨[], offset, modes⟩) := by
    have hrest : (skipBlanks ⟨[], offset, modes⟩).rest = [] := by
      rw [skipBlanks]
      split <;> rfl
    exact if_pos hrest
  exact congrArg Prod.fst (drain_of_none hn)

theorem next_of_read {c : Char} {cs : List Char} {offset : Nat} {m : Mode} {ms : List Mode}
    {x : Lexeme} (hs : settle c (m :: ms) = m :: ms)
    (hb : m.skipsBlanks = false ∨ Text.isBlank c = false) (hx : m.read (c :: cs) = x) :
    next ⟨c :: cs, offset, m :: ms⟩ = (some ⟨x.kind, .ofList x.text, offset⟩,
      ⟨x.rest, offset + Text.size x.text, transition (m :: ms) x⟩) := by
  have hsettled : settled ⟨c :: cs, offset, m :: ms⟩ = ⟨c :: cs, offset, m :: ms⟩ :=
    congrArg (Lexer.mk (c :: cs) offset) hs
  have hblank : skipBlanks ⟨c :: cs, offset, m :: ms⟩ = ⟨c :: cs, offset, m :: ms⟩ := by
    obtain hm | hc := hb
    · simp [skipBlanks, mode, hm]
    · simp [skipBlanks, mode, hc]
  rw [next, hsettled, hblank, take, if_neg (List.cons_ne_nil c cs)]
  subst hx
  rfl

theorem emits_of_read {c : Char} {cs : List Char} {offset : Nat} {m : Mode} {ms : List Mode}
    {x : Lexeme} (hs : settle c (m :: ms) = m :: ms)
    (hb : m.skipsBlanks = false ∨ Text.isBlank c = false) (hx : m.read (c :: cs) = x) :
    Emits ⟨c :: cs, offset, m :: ms⟩ [⟨x.kind, .ofList x.text, offset⟩]
      ⟨x.rest, offset + Text.size x.text, transition (m :: ms) x⟩ :=
  .of_next (next_of_read hs hb hx)

theorem tokens_eq_of_next (h : l.next = l'.next) : l.tokens = l'.tokens := by
  rcases hn : l'.next with ⟨_ | t, l''⟩
  · rw [tokens, tokens, drain_of_none (h.trans hn), drain_of_none hn]
  · rw [tokens, tokens, drain_of_some (h.trans hn), drain_of_some hn]

theorem emits_blank {b : Char} (hb : Text.isBlank b = true) (cs : List Char) (offset : Nat)
    (ms : List Mode) :
    Emits ⟨b :: cs, offset, .tag :: ms⟩ [] ⟨cs, offset + Text.size [b], .tag :: ms⟩ := by
  apply tokens_eq_of_next
  have hsettled (offset : Nat) (cs : List Char) :
      settled ⟨cs, offset, .tag :: ms⟩ = ⟨cs, offset, .tag :: ms⟩ := by
    cases cs <;> rfl
  have hblank : skipBlanks ⟨b :: cs, offset, .tag :: ms⟩ =
      skipBlanks ⟨cs, offset + Text.size [b], .tag :: ms⟩ := by
    simp [skipBlanks, mode, Mode.skipsBlanks, hb, Nat.add_assoc]
  rw [next, next, hsettled, hsettled, hblank]

theorem next_name {name cs : List Char} (h : Name.read? (name ++ cs) = some (name, cs))
    (offset : Nat) (ms : List Mode) :
    next ⟨name ++ cs, offset, .tag :: ms⟩ = (some ⟨.identifier, .ofList name, offset⟩,
      ⟨cs, offset + Text.size name, .tag :: ms⟩) := by
  obtain ⟨-, ⟨a, name, rfl, ha, -⟩, -⟩ := Name.read?_eq_some_iff.mp h
  have hblank : Text.isBlank a = false := by
    apply eq_false_of_ne_true
    intro hb
    have hp := Name.isPart_of_isStart ha
    rw [Name.isPart_of_isBlank hb] at hp
    contradiction
  exact next_of_read rfl (.inr hblank) (Mode.read_tag_of_isStart ha h)

theorem emits_name {name cs : List Char} (h : Name.read? (name ++ cs) = some (name, cs))
    (offset : Nat) (ms : List Mode) :
    Emits ⟨name ++ cs, offset, .tag :: ms⟩ [⟨.identifier, .ofList name, offset⟩]
      ⟨cs, offset + Text.size name, .tag :: ms⟩ :=
  .of_next (next_name h offset ms)

variable {ms : List Mode} {offset : Nat}

theorem emits_opening_quote {q : Char} (hq : q ∈ ['"', '\'']) (cs : List Char) :
    Emits ⟨q :: cs, offset, .tag :: ms⟩ [⟨.quote, .ofList [q], offset⟩]
      ⟨cs, offset + Text.size [q], .value q :: .tag :: ms⟩ := by
  obtain rfl | rfl := List.mem_pair.mp hq
  · exact emits_of_read rfl (.inr (by decide)) rfl
  · exact emits_of_read rfl (.inr (by decide)) rfl

theorem emits_closing_quote {q : Char} (cs : List Char) :
    Emits ⟨q :: cs, offset, .value q :: .tag :: ms⟩ [⟨.quote, .ofList [q], offset⟩]
      ⟨cs, offset + Text.size [q], .tag :: ms⟩ := by
  have hread : (Mode.value q).read (q :: cs) = ⟨.quote, [q], cs⟩ := if_pos rfl
  exact emits_of_read rfl (.inl rfl) hread

end Lexer

namespace Markup

open Lexer

open Token (Mode Lexeme)

variable {ms : List Mode} {rest : List Char}

namespace Part

def tokens (start : Nat) : Part → List Token
  | literal cs => [⟨.attributeText, .ofList cs, start⟩]
  | template inner =>
    ⟨.templateOpen, .ofList ['{', '{'], start⟩ ::
      (if inner = [] then [] else [⟨.rawText, .ofList inner, start + 2⟩]) ++
      [⟨.templateClose, .ofList ['}', '}'], start + 2 + Text.size inner⟩]

def tokensAll (start : Nat) : List Part → List Token
  | [] => []
  | p :: ps => p.tokens start ++ tokensAll (start + Text.size p.chars) ps

def endsLiteral (q : Char) (cs : List Char) : Bool :=
  cs.head? = some q || Lexeme.opensTemplate cs

theorem emits_text {q : Char} {cs : List Char} (hne : cs ≠ [])
    (hs : ∀ s, s <:+ cs → s ≠ [] → endsLiteral q (s ++ rest) = false) (start : Nat)
    (hr : rest ≠ [] → endsLiteral q rest = true) :
    Emits ⟨cs ++ rest, start, .value q :: ms⟩ ((literal cs).tokens start)
      ⟨rest, start + Text.size cs, .value q :: ms⟩ := by
  cases cs with
  | nil => contradiction
  | cons c cs =>
    have hbreak := Text.breakBefore_eq (fun s h => hs s (h.trans (List.suffix_cons c cs))) hr
    have hread : (Mode.value q).read (c :: (cs ++ rest)) = ⟨.attributeText, c :: cs, rest⟩ := by
      change Lexeme.inValue q (c :: (cs ++ rest)) = _
      have hstop := hs (c :: cs) List.suffix_rfl hne
      rw [List.cons_append] at hstop
      simp only [endsLiteral, Bool.or_eq_false_iff, decide_eq_false_iff_not] at hstop
      rw [Lexeme.inValue, if_neg hstop.1, if_neg (ne_true_of_eq_false hstop.2), Lexeme.run]
      change (⟨_, c :: (Text.breakBefore (endsLiteral q) (cs ++ rest)).1,
        (Text.breakBefore (endsLiteral q) (cs ++ rest)).2⟩ : Lexeme) = _
      rw [hbreak]
    exact emits_of_read rfl (.inl rfl) hread

theorem emits_literal {q : Char} {cs : List Char} (h : (literal cs).Fits q) (start : Nat)
    (hr : endsLiteral q rest = true) :
    Emits ⟨cs ++ rest, start, .value q :: ms⟩ ((literal cs).tokens start)
      ⟨rest, start + Text.size cs, .value q :: ms⟩ := by
  obtain ⟨hne, hq, hb⟩ := h
  refine emits_text hne ?_ start fun _ => hr
  intro s hs hne
  obtain ⟨c, s, rfl⟩ := List.exists_cons_of_ne_nil hne
  have hc := hs.subset List.mem_cons_self
  have hcq : c ≠ q := fun he => hq (he ▸ hc)
  have hcb : c ≠ '{' := fun he => hb (he ▸ hc)
  simp [endsLiteral, Lexeme.opensTemplate, hcq, hcb]

theorem size_template (inner : List Char) :
    Text.size (template inner).chars = 2 + Text.size inner + 2 := by
  have hopening : Text.size ('{' :: '{' :: inner) = 2 + Text.size inner :=
    Text.size_append ['{', '{'] inner
  have hclosing : Text.size ['}', '}'] = 2 := rfl
  rw [chars, Piece.chars, Text.size_append, hopening, hclosing]

theorem emits_template_open {q : Char} (hq : q ≠ '{') (cs : List Char) (start : Nat) :
    Emits ⟨'{' :: '{' :: cs, start, .value q :: ms⟩ [⟨.templateOpen, .ofList ['{', '{'], start⟩]
      ⟨cs, start + 2, .template (some q) :: .value q :: ms⟩ := by
  have hread : (Mode.value q).read ('{' :: '{' :: cs) = ⟨.templateOpen, ['{', '{'], cs⟩ := by
    change Lexeme.inValue q _ = _
    have hne : some '{' ≠ some q := fun he => hq (Option.some.inj he).symm
    rw [Lexeme.inValue, List.head?_cons, if_neg hne]
    rfl
  exact emits_of_read rfl (.inl rfl) hread

theorem settle_template {q c : Char} (h : c ≠ q) :
    settle c (.template (some q) :: ms) = .template (some q) :: ms :=
  if_neg (Ne.symm h)

theorem emits_template_close {q : Char} (hq : q ≠ '}') (cs : List Char) (start : Nat) :
    Emits ⟨'}' :: '}' :: cs, start, .template (some q) :: .value q :: ms⟩
      [⟨.templateClose, .ofList ['}', '}'], start⟩] ⟨cs, start + 2, .value q :: ms⟩ :=
  emits_of_read (settle_template (Ne.symm hq)) (.inl rfl) rfl

theorem emits_expression {q : Char} {inner : List Char} (hq : q ∉ inner)
    (hs : ∀ s, s <:+ inner → s ≠ [] → Lexeme.closesTemplate (s ++ rest) = false) (start : Nat)
    (hr : rest ≠ [] → Lexeme.closesTemplate rest = true ∨ rest.head? = some q) :
    Emits ⟨inner ++ rest, start, .template (some q) :: ms⟩
      (if inner = [] then [] else [⟨.rawText, .ofList inner, start⟩])
      ⟨rest, start + Text.size inner, .template (some q) :: ms⟩ := by
  cases inner with
  | nil => exact .refl _
  | cons c inner =>
    obtain ⟨hqc, hqi⟩ := List.ne_and_not_mem_of_not_mem_cons hq
    have hbreak : Text.breakBefore (fun cs => Lexeme.closesTemplate cs ||
        ((some q).isSome && cs.head? = some q)) (inner ++ rest) = (inner, rest) := by
      refine Text.breakBefore_eq ?_ ?_
      · intro s h hne
        have hclose := hs s (h.trans (List.suffix_cons c inner)) hne
        obtain ⟨d, s, rfl⟩ := List.exists_cons_of_ne_nil hne
        have hd : d ≠ q := fun he => hqi (he ▸ h.subset List.mem_cons_self)
        rw [hclose]
        simp [hd]
      · intro hne
        obtain h | h := hr hne <;> simp [h]
    have hread : (Mode.template (some q)).read (c :: (inner ++ rest)) =
        ⟨.rawText, c :: inner, rest⟩ := by
      have hstop := hs (c :: inner) List.suffix_rfl (List.cons_ne_nil c inner)
      rw [List.cons_append] at hstop
      change Lexeme.inTemplate (some q) _ = _
      rw [Lexeme.inTemplate, if_neg (by simp [hstop]), Lexeme.run, hbreak]
    exact emits_of_read (settle_template (Ne.symm hqc)) (.inl rfl) hread

theorem emits_template_inner {q : Char} {inner : List Char} (h : (template inner).Fits q)
    (cs : List Char) (start : Nat) :
    Emits ⟨inner ++ '}' :: '}' :: cs, start, .template (some q) :: ms⟩
      (if inner = [] then [] else [⟨.rawText, .ofList inner, start⟩])
      ⟨'}' :: '}' :: cs, start + Text.size inner, .template (some q) :: ms⟩ := by
  obtain ⟨hq, -, hc⟩ := h
  refine emits_expression hq ?_ start fun _ => .inl rfl
  intro s hs hne
  obtain ⟨c, s, rfl⟩ := List.exists_cons_of_ne_nil hne
  have hcb : c ≠ '}' := fun he => hc (he ▸ hs.subset List.mem_cons_self)
  simp [Lexeme.closesTemplate, hcb]

theorem emits_template {q : Char} (hq : q ∈ ['"', '\'']) {inner : List Char}
    (h : (template inner).Fits q) (start : Nat) (rest : List Char) :
    Emits ⟨(template inner).chars ++ rest, start, .value q :: ms⟩ ((template inner).tokens start)
      ⟨rest, start + Text.size (template inner).chars, .value q :: ms⟩ := by
  have hquote : q ≠ '{' ∧ q ≠ '}' := by
    obtain rfl | rfl := List.mem_pair.mp hq <;> decide
  have hchars : (template inner).chars ++ rest = '{' :: '{' :: (inner ++ '}' :: '}' :: rest) := by
    simp [chars, Piece.chars]
  have hsize : start + Text.size (template inner).chars = start + 2 + Text.size inner + 2 := by
    rw [size_template]
    omega
  rw [hchars, hsize]
  exact ((emits_template_open hquote.1 _ start).trans (emits_template_inner h rest _)).trans
    (emits_template_close hquote.2 rest _)

theorem emits_part {q : Char} (hq : q ∈ ['"', '\'']) {p : Part} (h : p.Fits q) (start : Nat)
    (hr : p.isLiteral = true → endsLiteral q rest = true) :
    Emits ⟨p.chars ++ rest, start, .value q :: ms⟩ (p.tokens start)
      ⟨rest, start + Text.size p.chars, .value q :: ms⟩ := by
  cases p with
  | literal cs => exact emits_literal h start (hr rfl)
  | template inner => exact emits_template hq h start rest

theorem emits_parts {q : Char} (hq : q ∈ ['"', '\'']) {ps : List Part} (hps : ∀ p ∈ ps, p.Fits q)
    (hl : ps.IsChain fun p p' => ¬(p.isLiteral ∧ p'.isLiteral)) (start : Nat) :
    Emits ⟨ps.flatMap chars ++ q :: rest, start, .value q :: ms⟩ (tokensAll start ps)
      ⟨q :: rest, start + Text.size (ps.flatMap chars), .value q :: ms⟩ := by
  induction ps generalizing start with
  | nil => exact .refl _
  | cons p ps ih =>
    obtain ⟨hp, hps⟩ := List.forall_mem_cons.mp hps
    have hr : p.isLiteral = true → endsLiteral q (ps.flatMap chars ++ q :: rest) = true := by
      intro hlit
      cases ps with
      | nil => simp [endsLiteral]
      | cons p' ps =>
        have hp' := (List.isChain_cons_cons.mp hl).1
        cases p' with
        | literal cs => exact absurd ⟨hlit, rfl⟩ hp'
        | template inner => simp [chars, Piece.chars, endsLiteral, Lexeme.opensTemplate]
    rw [List.flatMap_cons, List.append_assoc, Text.size_append, ← Nat.add_assoc]
    exact (emits_part hq hp start hr).trans (ih hps hl.tail (start + Text.size p.chars))

open Attribute

theorem readTemplate_tokens (inner : List Char) (start : Nat) (ts : List Token) :
    readTemplate ⟨.templateOpen, .ofList ['{', '{'], start⟩ ""
      ((if inner = [] then [] else [⟨.rawText, .ofList inner, start + 2⟩]) ++
        ⟨.templateClose, .ofList ['}', '}'], start + 2 + Text.size inner⟩ :: ts) =
      ⟨(template inner).fragment start, [], ts⟩ := by
  have hstop : Token.stop ⟨.templateClose, .ofList ['}', '}'], start + 2 + Text.size inner⟩ =
      start + Text.size (template inner).chars := by
    rw [Token.stop, Token.span_ofList, size_template]
    change start + 2 + Text.size inner + 2 = _
    omega
  cases inner with
  | nil =>
    simp only [if_true, List.nil_append, readTemplate, hstop]
    rfl
  | cons c inner =>
    simp only [List.cons_ne_nil, if_false, List.singleton_append, readTemplate, hstop,
      String.empty_append, String.toList_ofList]
    rfl

theorem cons_fragments {p : Part} {ps : List Part}
    (hl : (p :: ps).IsChain fun p p' => ¬(p.isLiteral ∧ p'.isLiteral)) (start start' : Nat) :
    (p.fragment start).cons (fragments start' ps) = p.fragment start :: fragments start' ps := by
  cases ps with
  | nil => cases p <;> rfl
  | cons p' ps =>
    have hp := (List.isChain_cons_cons.mp hl).1
    cases p with
    | template inner => cases p' <;> rfl
    | literal cs =>
      cases p' with
      | template inner => rfl
      | literal ds => exact absurd ⟨rfl, rfl⟩ hp

theorem readQuoted_tokens (opened closed : Token) (hc : closed.kind = .quote) (stop : Nat)
    (ts : List Token) {ps : List Part}
    (hl : ps.IsChain fun p p' => ¬(p.isLiteral ∧ p'.isLiteral)) (start : Nat) :
    readQuoted opened stop (tokensAll start ps ++ closed :: ts) =
      ⟨(fragments start ps, ⟨opened.stop, closed.start⟩), [], ts⟩ := by
  induction ps generalizing start with
  | nil =>
    rw [tokensAll, List.nil_append, readQuoted, hc]
    rfl
  | cons p ps ih =>
    have hps := ih hl.tail (start + Text.size p.chars)
    have hcons := cons_fragments hl start (start + Text.size p.chars)
    cases p with
    | literal cs =>
      rw [tokensAll, tokens, List.append_assoc, List.singleton_append, readQuoted]
      simp only [hps]
      rw [Token.span_ofList]
      exact congrArg (fun fs => (⟨(fs, _), [], ts⟩ : Reading (List Fragment × Span))) hcons
    | template inner =>
      have ht := readTemplate_tokens inner start
        (tokensAll (start + Text.size (template inner).chars) ps ++ closed :: ts)
      have htokens : tokensAll start (template inner :: ps) ++ closed :: ts =
          ⟨.templateOpen, .ofList ['{', '{'], start⟩ ::
            ((if inner = [] then [] else [⟨.rawText, .ofList inner, start + 2⟩]) ++
              ⟨.templateClose, .ofList ['}', '}'], start + 2 + Text.size inner⟩ ::
              (tokensAll (start + Text.size (template inner).chars) ps ++ closed :: ts)) := by
        simp [tokensAll, tokens]
      rw [htokens, readQuoted]
      simp only [ht, hps]
      exact congrArg (fun fs => (⟨(fs, _), [], ts⟩ : Reading (List Fragment × Span))) hcons

end Part

namespace Setting

open Attribute

def tokens (start : Nat) (a : Setting) : List Token :=
  ⟨.identifier, .ofList a.key, start + Text.size [a.blank]⟩ ::
  ⟨.equals, .ofList ['='], start + Text.size (a.blank :: a.key)⟩ ::
  ⟨.quote, .ofList [a.quote], start + Text.size (a.blank :: a.key ++ ['='])⟩ ::
    (Part.tokensAll (start + Text.size a.front) a.parts ++
      [⟨.quote, .ofList [a.quote], start + Text.size (a.front ++ a.value)⟩])

def tokensAll (start : Nat) : List Setting → List Token
  | [] => []
  | a :: as => a.tokens start ++ tokensAll (start + Text.size a.chars) as

theorem emits_setting (a : Setting) (start : Nat) (rest : List Char) :
    Emits ⟨a.chars ++ rest, start, .tag :: ms⟩ (a.tokens start)
      ⟨rest, start + Text.size a.chars, .tag :: ms⟩ := by
  have hkey (cs : List Char) : Name.read? (a.key ++ '=' :: cs) = some (a.key, '=' :: cs) := by
    refine Name.read?_eq_some_iff.mpr ⟨rfl, Name.isName_iff.mp a.key_isName, ?_⟩
    rintro _ ⟨⟩
    decide
  have hequals (cs : List Char) (start : Nat) : Emits ⟨'=' :: cs, start, .tag :: ms⟩
      [⟨.equals, .ofList ['='], start⟩] ⟨cs, start + Text.size ['='], .tag :: ms⟩ :=
    emits_of_read rfl (.inr (by decide)) rfl
  have hblank := emits_blank a.blank_isBlank
    (a.key ++ '=' :: a.quote :: (a.value ++ a.quote :: rest)) start ms
  have hfront := ((hblank.trans (emits_name (hkey _) _ ms)).trans (hequals _ _)).trans
    (emits_opening_quote a.quote_mem _)
  have hvalue := hfront.trans (Part.emits_parts a.quote_mem a.parts_fit a.parts_apart _)
  have h := hvalue.trans (emits_closing_quote rest)
  have hchars : a.chars ++ rest =
      a.blank :: (a.key ++ '=' :: a.quote :: (a.value ++ a.quote :: rest)) := by
    simp [chars, front]
  rw [hchars]
  simpa [tokens, chars, front, value, Nat.add_assoc] using h

theorem emits_settings (as : List Setting) (start : Nat) (rest : List Char) :
    Emits ⟨as.flatMap chars ++ rest, start, .tag :: ms⟩ (tokensAll start as)
      ⟨rest, start + Text.size (as.flatMap chars), .tag :: ms⟩ := by
  induction as generalizing start with
  | nil => exact .refl _
  | cons a as ih =>
    rw [List.flatMap_cons, List.append_assoc, Text.size_append, ← Nat.add_assoc]
    exact (a.emits_setting start _).trans (ih (start + Text.size a.chars))

theorem read_tokens (a : Setting) (start stop : Nat) (ts : List Token) :
    readAll stop (a.tokens start ++ ts) =
      (a.toAttribute start :: (readAll stop ts).1, (readAll stop ts).2) := by
  have hquoted := Part.readQuoted_tokens
    ⟨.quote, .ofList [a.quote], start + Text.size (a.blank :: a.key ++ ['='])⟩
    ⟨.quote, .ofList [a.quote], start + Text.size (a.front ++ a.value)⟩ rfl stop ts a.parts_apart
    (start + Text.size a.front)
  have htokens : a.tokens start ++ ts =
      ⟨.identifier, .ofList a.key, start + Text.size [a.blank]⟩ ::
      ⟨.equals, .ofList ['='], start + Text.size (a.blank :: a.key)⟩ ::
      ⟨.quote, .ofList [a.quote], start + Text.size (a.blank :: a.key ++ ['='])⟩ ::
        (Part.tokensAll (start + Text.size a.front) a.parts ++
          ⟨.quote, .ofList [a.quote], start + Text.size (a.front ++ a.value)⟩ :: ts) := by
    simp [tokens]
  have hopened : Token.stop ⟨.quote, .ofList [a.quote],
      start + Text.size (a.blank :: a.key ++ ['='])⟩ = start + Text.size a.front := by
    have hfront : a.front = a.blank :: a.key ++ ['='] ++ [a.quote] := by simp [front]
    rw [Token.stop, Token.span_ofList, hfront, Text.size_append _ [a.quote], ← Nat.add_assoc]
    rfl
  have hclosed : start + Text.size (a.front ++ a.value) =
      start + Text.size a.front + Text.size a.value := by
    rw [Text.size_append, Nat.add_assoc]
  rw [htokens, readAll]
  simp only [Attribute.read, readValue, if_true, hquoted]
  rw [hopened, hclosed, Token.span_ofList]
  rfl

theorem readAll_tokens (as : List Setting) (start stop : Nat) (ts : List Token) :
    readAll stop (tokensAll start as ++ ts) =
      (toAttributes start as ++ (readAll stop ts).1, (readAll stop ts).2) := by
  induction as generalizing start with
  | nil => rfl
  | cons a as ih =>
    rw [tokensAll, List.append_assoc, read_tokens, ih]
    rfl

end Setting

namespace Opening

theorem emits_opening (o : Opening) (start : Nat) {rest : List Char}
    (hr : OpeningTag.endsName rest = true) :
    Emits ⟨'<' :: (o.name ++ (o.inside ++ rest)), start, [.content]⟩
      (⟨.tagStart, .ofList ['<'], start⟩ :: ⟨.identifier, .ofList o.name, start + 1⟩ ::
        Setting.tokensAll (start + 1 + Text.size o.name) o.settings)
      ⟨rest, start + 1 + Text.size o.name + Text.size o.inside, [.tag, .content]⟩ := by
  have hopen : Emits ⟨'<' :: (o.name ++ (o.inside ++ rest)), start, [.content]⟩
      [⟨.tagStart, .ofList ['<'], start⟩]
      ⟨o.name ++ (o.inside ++ rest), start + 1, [.tag, .content]⟩ := by
    obtain ⟨a, cs, hname, ha, -⟩ := Name.isName_iff.mp o.name_isName
    rw [hname]
    exact emits_of_read rfl (.inr (by decide)) (Mode.read_content_of_isStart ha _)
  have hname := emits_name (o.read?_name (o.endsName_inside hr)) (start + 1) [.content]
  exact hopen.trans (hname.trans (Setting.emits_settings o.settings _ rest))

theorem tokens_opening (o : Opening) (start : Nat) {ending : List Char} {last : Nat → Token}
    (hr : OpeningTag.endsName ending = true)
    (h : ∀ n, Emits ⟨ending, n, [.tag, .content]⟩ [last n] ⟨[], n + Text.size ending, [.content]⟩) :
    (ofText start ('<' :: (o.name ++ (o.inside ++ ending)))).tokens =
      ⟨.tagStart, .ofList ['<'], start⟩ :: ⟨.identifier, .ofList o.name, start + 1⟩ ::
        (Setting.tokensAll (start + 1 + Text.size o.name) o.settings ++
          [last (start + 1 + Text.size o.name + Text.size o.inside)]) := by
  have ho := (o.emits_opening start hr).trans (h _)
  rw [Emits, tokens_of_nil, List.append_nil] at ho
  exact ho

theorem tokens_tag (o : Opening) (start : Nat) :
    ∃ last : Token, last.kind = .tagEnd ∧ (ofText start o.tag.text).tokens =
      ⟨.tagStart, .ofList ['<'], start⟩ :: ⟨.identifier, .ofList o.name, start + 1⟩ ::
        (Setting.tokensAll (start + 1 + Text.size o.name) o.settings ++ [last]) := by
  have htext : o.tag.text = '<' :: (o.name ++ (o.inside ++ ['>'])) := by
    simp [OpeningTag.text, tag]
  rw [htext]
  refine ⟨_, ?_, o.tokens_opening start rfl fun n => emits_of_read rfl (.inr (by decide)) rfl⟩
  rfl

theorem tokens_emptyTag (o : Opening) (start : Nat) :
    ∃ last : Token, last.kind = .selfClose ∧ (ofText start o.emptyTag.text).tokens =
      ⟨.tagStart, .ofList ['<'], start⟩ :: ⟨.identifier, .ofList o.name, start + 1⟩ ::
        (Setting.tokensAll (start + 1 + Text.size o.name) o.settings ++ [last]) := by
  have htext : o.emptyTag.text = '<' :: (o.name ++ (o.inside ++ ['/', '>'])) := by
    simp [OpeningTag.text, emptyTag]
  rw [htext]
  refine ⟨_, ?_, o.tokens_opening start rfl fun n => emits_of_read rfl (.inr (by decide)) rfl⟩
  rfl

theorem tokens_closing (o : Opening) (start : Nat) :
    ∃ last : Token, (ofText start o.closing.text).tokens =
      [⟨.closingTagStart, .ofList ['<', '/'], start⟩, ⟨.identifier, .ofList o.name, start + 2⟩,
        last] := by
  have htext : o.closing.text = '<' :: '/' :: (o.name ++ ['>']) := by
    simp [ClosingTag.text, closing]
  have hopen : Emits ⟨'<' :: '/' :: (o.name ++ ['>']), start, [.content]⟩
      [⟨.closingTagStart, .ofList ['<', '/'], start⟩]
      ⟨o.name ++ ['>'], start + 2, [.tag, .content]⟩ :=
    emits_of_read rfl (.inr (by decide)) rfl
  have hread : Name.read? (o.name ++ ['>']) = some (o.name, ['>']) := o.read?_name rfl
  have hname := emits_name hread (start + 2) [.content]
  have hend (n : Nat) : Emits ⟨['>'], n, [.tag, .content]⟩ [⟨.tagEnd, .ofList ['>'], n⟩]
      ⟨[], n + 1, [.content]⟩ :=
    emits_of_read rfl (.inr (by decide)) rfl
  have h := hopen.trans (hname.trans (hend _))
  rw [Emits, tokens_of_nil] at h
  rw [htext]
  exact ⟨_, h⟩

theorem ofElement_empty (cls : TagClass) (o : Opening) (start : Nat) :
    Tag.ofElement start ⟨cls, o.emptyTag, none⟩ = (o.tagAt cls start none, []) := by
  obtain ⟨last, hlast, htokens⟩ := o.tokens_emptyTag start
  have hread (stop : Nat) : Attribute.readAll stop [last] = ([], []) := by
    rw [Attribute.readAll, hlast]
  simp only [Tag.ofElement, htokens, Tag.openingName, List.drop_succ_cons, List.drop_zero,
    Setting.readAll_tokens, hread, List.append_nil, and_self, if_true, Token.span_ofList]
  rfl

theorem ofElement_enclose (cls : TagClass) (o : Opening) (start : Nat) (body : List Char) :
    Tag.ofElement start (o.enclose cls body) =
      (o.tagAt cls start (some (start + Text.size (o.tag.text ++ body))), []) := by
  obtain ⟨last, hlast, htokens⟩ := o.tokens_tag start
  obtain ⟨_, hclosing⟩ := o.tokens_closing (start + Text.size o.tag.text + Text.size body)
  have hread (stop : Nat) : Attribute.readAll stop [last] = ([], []) := by
    rw [Attribute.readAll, hlast]
  simp only [Tag.ofElement, enclose, htokens, hclosing, Tag.openingName, Tag.closingName?,
    List.drop_succ_cons, List.drop_zero, Setting.readAll_tokens, hread, List.append_nil, and_self,
    if_true, Token.span_ofList, Option.map_some, Option.toList_some, List.flatMap_singleton,
    Tag.mismatch, Text.size_append, ← Nat.add_assoc]
  rfl

end Opening

end Markup

end ProseMarkup
