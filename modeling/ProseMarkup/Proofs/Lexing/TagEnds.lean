import ProseMarkup.Proofs.Agreement
import ProseMarkup.Proofs.Lexing.Coverage
import ProseMarkup.Proofs.Quotes
import Mathlib.Algebra.Ring.Parity

namespace ProseMarkup

def Token.Endless (ts : List Token) : Prop :=
  ∀ t ∈ ts, t.kind ∉ [Kind.tagEnd, Kind.selfClose]

theorem Token.Endless.cons {t : Token} {ts : List Token}
    (ht : t.kind ∉ [Kind.tagEnd, Kind.selfClose]) (h : Endless ts) : Endless (t :: ts) :=
  List.forall_mem_cons.mpr ⟨ht, h⟩

theorem Token.Endless.opening {ts : List Token} (h : Endless ts) (name : List Char) (start : Nat) :
    Endless (⟨.tagStart, .ofList ['<'], start⟩ ::
      ⟨.identifier, .ofList name, start + 1⟩ :: ts) := by
  have hstart : Kind.tagStart ∉ [Kind.tagEnd, Kind.selfClose] := by decide
  have hname : Kind.identifier ∉ [Kind.tagEnd, Kind.selfClose] := by decide
  exact .cons hstart (.cons hname h)

namespace Lexer

open Token (Mode Kind Shape IsQuote Endless)

open OpeningTag (quoteBehind openQuote unquoted Clean)

/-- The modes of a lexer in a tag, by the quote that is open. -/
inductive Quoting : Option Char → List Mode → Prop
  | tag : Quoting none [.tag, .content]
  | value {q : Char} (hq : IsQuote q) : Quoting (some q) [.value q, .tag, .content]
  | template {q : Char} (hq : IsQuote q) :
      Quoting (some q) [.template (some q), .value q, .tag, .content]

variable {l l' : Lexer} {quote : Option Char} {t : Token}

theorem Quoting.stack {ms : List Mode} (h : Quoting quote ms) : Stack ms := by
  cases h with
  | tag => exact .tag
  | value hq => exact .value hq
  | template hq => exact .templateInValue hq

theorem Quoting.settled (h : Quoting quote l.modes) : Quoting quote l.settled.modes := by
  obtain ⟨_ | ⟨c, cs⟩, offset, modes⟩ := l
  · exact h
  · change Quoting quote (Lexer.settle c modes)
    cases h with
    | tag => exact .tag
    | value hq => exact .value hq
    | template hq =>
      rw [Lexer.settle]
      split
      · exact .value hq
      · exact .template hq

/-- What a token of the given kind does in a tag: it takes the lexer further in the tag, or to its
end. -/
inductive Crosses (quote : Option Char) (l : Lexer) (kind : Kind) (l' : Lexer) : Prop
  | inside {past : List Char} (hp : Passes l past l')
      (hm : Quoting (openQuote quote past) l'.modes) (hk : kind ∉ [Kind.tagEnd, Kind.selfClose])
      (hq : kind = .quote ↔ (openQuote quote past).isSome ≠ quote.isSome)
      (hgt : '>' ∉ unquoted quote past)
      (hs : openQuote quote past = none → past.getLast? = some '/' → l'.rest.head? ≠ some '>')
  | ending {gap text : List Char} (hq : quote = none) (hb : ∀ c ∈ gap, Text.isBlank c = true)
      (hp : Passes l (gap ++ text) l')
      (ht : kind = .tagEnd ∧ text = ['>'] ∨ kind = .selfClose ∧ text = ['/', '>'])

theorem crosses_of_plain {gap text : List Char} {kind : Kind} (hp : Passes l (gap ++ text) l')
    (hb : ∀ c ∈ gap, Text.isBlank c = true) (ht : ∀ c ∈ text, c ∉ OpeningTag.delimiters)
    (hne : text ≠ []) (hm : l'.modes = [.tag, .content])
    (hk : kind ∉ [Kind.tagEnd, Kind.selfClose]) (hq : kind ≠ .quote)
    (hs : text.getLast? = some '/' → l'.rest.head? ≠ some '>') : Crosses none l kind l' := by
  have hpast : ∀ c ∈ gap ++ text, c ∉ OpeningTag.delimiters := by
    intro c hc
    obtain hc | hc := List.mem_append.mp hc
    · exact OpeningTag.not_mem_delimiters_of_isBlank (hb c hc)
    · exact ht c hc
  obtain ⟨hu, ho⟩ := OpeningTag.unquoted_of_not_mem fun c hc =>
    (OpeningTag.not_quote_of_not_mem (hpast c hc)).2
  refine .inside hp ?_ hk ?_ ?_ ?_
  · rw [hm, ho]
    exact .tag
  · rw [ho]
    exact iff_of_false hq (by simp)
  · rw [hu]
    exact fun hgt => (OpeningTag.not_quote_of_not_mem (hpast _ hgt)).1 rfl
  · intro _ hlast
    rw [List.getLast?_append_of_ne_nil _ hne] at hlast
    exact hs hlast

theorem crosses_of_quote {gap : List Char} {q : Char} (hp : Passes l (gap ++ [q]) l')
    (hb : ∀ c ∈ gap, Text.isBlank c = true) (hq : IsQuote q)
    (hm : l'.modes = [.value q, .tag, .content]) : Crosses none l .quote l' := by
  obtain ⟨hugap, hogap⟩ := OpeningTag.unquoted_of_isBlank hb
  have ho : openQuote none (gap ++ [q]) = some q := by
    rw [OpeningTag.openQuote_append, hogap]
    obtain rfl | rfl := hq <;> rfl
  have hu : unquoted none (gap ++ [q]) = gap ++ [q] := by
    rw [OpeningTag.unquoted_append, hugap, hogap]
    obtain rfl | rfl := hq <;> rfl
  refine .inside hp ?_ (by decide) ?_ ?_ ?_
  · rw [hm, ho]
    exact .value hq
  · rw [ho]
    exact iff_of_true rfl (by simp)
  · rw [hu]
    intro hgt
    obtain hgt | hgt := List.mem_append.mp hgt
    · exact absurd (hb _ hgt) (by decide)
    · obtain rfl | rfl := hq <;> cases List.mem_singleton.mp hgt
  · rw [ho]
    rintro ⟨⟩

theorem crosses_tag {gap text rest : List Char} {kind : Kind}
    (hrest : l.rest = gap ++ (text ++ rest)) (hb : ∀ c ∈ gap, Text.isBlank c = true)
    (hc : Clean none l.rest) (hx : Shape .tag kind text)
    (hs : text = ['/'] → rest.head? ≠ some '>') :
    Crosses none l kind ⟨rest, l.offset + Text.size gap + Text.size text,
      transition [.tag, .content] ⟨kind, text, rest⟩⟩ := by
  have hp (ms : List Mode) : Passes l (gap ++ text)
      ⟨rest, l.offset + Text.size gap + Text.size text, ms⟩ :=
    ⟨by rw [hrest, List.append_assoc], by rw [Text.size_append, Nat.add_assoc]⟩
  have hclean : Clean none (text ++ rest) := by
    rw [hrest] at hc
    have hright := hc.right
    rwa [(OpeningTag.unquoted_of_isBlank hb).2] at hright
  cases hx with
  | templateOpen => exact absurd ⟨[], _, rfl⟩ hclean.braces
  | closingTagStart | tagStart => exact absurd List.mem_cons_self hclean.lt
  | tagEnd => exact .ending rfl hb (hp _) (.inl ⟨rfl, rfl⟩)
  | selfClose => exact .ending rfl hb (hp _) (.inr ⟨rfl, rfl⟩)
  | openingQuote hq => exact crosses_of_quote (hp _) hb hq rfl
  | templateClose | equals =>
    refine crosses_of_plain (hp _) hb ?_ (List.cons_ne_nil _ _) rfl (by decide) (by decide) ?_
    · simp [OpeningTag.delimiters]
    · rintro ⟨⟩
  | name hname =>
    have hpart := Name.isPart_of_isName (Name.isName_iff.mpr hname)
    have hne : text ≠ [] := by
      obtain ⟨a, as, rfl, -⟩ := hname
      exact List.cons_ne_nil a as
    refine crosses_of_plain (hp _) hb ?_ hne rfl (by decide) (by decide) ?_
    · intro c hc
      exact OpeningTag.not_mem_delimiters (by decide) (hpart c hc)
    · intro hlast
      exact absurd (hpart _ (List.mem_of_mem_getLast? hlast)) (by decide)
  | lone hlone =>
    refine crosses_of_plain (hp _) hb ?_ ?_ rfl (by decide) (by decide) ?_
    · obtain rfl | rfl := hlone <;> simp [OpeningTag.delimiters]
    · obtain rfl | rfl := hlone <;> exact List.cons_ne_nil _ _
    · obtain rfl | rfl := hlone
      · exact fun _ => hs rfl
      · rintro ⟨⟩
  | loose hne h =>
    refine crosses_of_plain (hp _) hb ?_ hne rfl (by decide) (by decide) ?_
    · intro c hc
      have hd := (h c hc).2
      simp only [OpeningTag.delimiters, List.mem_cons, List.not_mem_nil, or_false, not_or] at hd ⊢
      exact ⟨hd.2.1, hd.1, hd.2.2.2.2.1, hd.2.2.2.2.2.1⟩
    · intro hlast
      exact absurd (by decide) (h _ (List.mem_of_mem_getLast? hlast)).2

theorem crosses_quoted {q : Char} (hq : IsQuote q) {m : Mode} {ms : List Mode}
    (hm : Quoting (some q) (m :: ms)) {x : Token.Lexeme} (hrest : l.rest = x.text ++ x.rest)
    (hx : Shape m x.kind x.text) :
    Crosses (some q) l x.kind
      ⟨x.rest, l.offset + Text.size x.text, transition (m :: ms) x⟩ := by
  obtain ⟨kind, text, rest⟩ := x
  have hbraces : q ≠ '{' ∧ q ≠ '}' := by
    obtain rfl | rfl := hq <;> decide
  have hp (ms : List Mode) : Passes l text ⟨rest, l.offset + Text.size text, ms⟩ := ⟨hrest, rfl⟩
  have stays (ht : q ∉ text) (hk : kind ∉ [.tagEnd, .selfClose]) (hkq : kind ≠ .quote)
      (hms : Quoting (some q) (transition (m :: ms) ⟨kind, text, rest⟩)) :
      Crosses (some q) l kind
        ⟨rest, l.offset + Text.size text, transition (m :: ms) ⟨kind, text, rest⟩⟩ := by
    obtain ⟨hu, ho⟩ := OpeningTag.quoted_of_not_mem ht
    refine .inside (hp _) ?_ hk ?_ ?_ ?_
    · rwa [ho]
    · rw [ho]
      exact iff_of_false hkq (by simp)
    · rw [hu]
      exact List.not_mem_nil
    · rw [ho]
      rintro ⟨⟩
  cases hm with
  | value =>
    cases hx with
    | templateOpen => exact stays (by simp [hbraces]) (by decide) (by decide) (.template hq)
    | closingQuote =>
      have ho : openQuote (some q) [q] = none := if_pos rfl
      have hk : Kind.quote ∉ [Kind.tagEnd, Kind.selfClose] := by decide
      refine .inside (hp _) ?_ hk ?_ ?_ ?_
      · rw [ho]
        exact .tag
      · rw [ho]
        exact iff_of_true rfl (by simp)
      · exact List.not_mem_nil
      · intro _ hlast
        obtain rfl := Option.some.inj hlast
        obtain hq | hq := hq <;> cases hq
    | value hqt => exact stays hqt (by decide) (by decide) (.value hq)
    | templateClose hm => exact absurd rfl (hm q)
    | closingTagStart hm | tagStart hm => cases hm
  | template =>
    cases hx with
    | templateClose => exact stays (by simp [hbraces]) (by decide) (by decide) (.value hq)
    | expression _ hqt => exact stays (hqt q rfl) (by decide) (by decide) (.template hq)
    | templateOpen hm => exact absurd rfl (hm (some q))
    | closingTagStart hm | tagStart hm => cases hm

theorem crosses_of_call_quoted {q : Char} (h : Call l (some t) l') (hm : Quoting (some q) l.modes) :
    t.start = l.offset ∧ Crosses (some q) l t.kind l' := by
  have hshape := h.shape hm.stack rfl
  have hsettled := hm.settled
  cases h with
  | @token gap cs c hrest hb hgap =>
    rw [String.toList_ofList] at hshape
    have happend := l.settled.mode.read_append (c :: cs)
    unfold mode at happend hshape hgap ⊢
    generalize l.settled.modes = ms at happend hshape hsettled hgap ⊢
    obtain rfl : gap = [] := by
      by_contra hne
      have hskips := hgap hne
      cases hsettled <;> cases hskips
    refine ⟨rfl, ?_⟩
    cases hsettled with
    | value hq => exact crosses_quoted hq (.value hq) (by rw [happend]; exact hrest) hshape
    | template hq => exact crosses_quoted hq (.template hq) (by rw [happend]; exact hrest) hshape

/-- A token keeps scan and lexer in step. -/
theorem crosses_of_call (h : Call l (some t) l') (hm : Quoting quote l.modes)
    (hc : Clean quote l.rest) : Crosses quote l t.kind l' := by
  cases quote with
  | some q => exact (crosses_of_call_quoted h hm).2
  | none =>
    have hshape := h.shape hm.stack rfl
    have hsettled := hm.settled
    cases h with
    | @token gap cs c hrest hb hgap =>
      rw [String.toList_ofList] at hshape
      have happend := l.settled.mode.read_append (c :: cs)
      unfold mode at happend hshape ⊢
      generalize l.settled.modes = ms at happend hshape hsettled ⊢
      cases hsettled with
      | tag =>
        refine crosses_tag ?_ hb hc hshape ?_
        · rw [happend]
          exact hrest
        · -- behind a lone slash no tag ends, since the two would be one token
          intro htext hhead
          obtain ⟨ds, hds⟩ := List.head?_eq_some_iff.mp hhead
          rw [htext, hds] at happend
          rw [← happend] at htext
          cases htext

theorem call_of_next {o : Option Token} (h : l.next = (o, l')) : Call l o l' := by
  have hcall := call_next l
  rwa [h] at hcall

theorem Passes.clean {past : List Char} (h : Passes l past l') (hc : Clean quote l.rest) :
    Clean (openQuote quote past) l'.rest := by
  rw [h.rest_eq] at hc
  exact hc.right

theorem mem_unquoted_of_ending {gap text : List Char} (hb : ∀ c ∈ gap, Text.isBlank c = true)
    (ht : text = ['>'] ∨ text = ['/', '>']) (rest : List Char) :
    '>' ∈ unquoted none (gap ++ text ++ rest) := by
  obtain ⟨hu, ho⟩ := OpeningTag.unquoted_of_isBlank hb
  have htext : unquoted none text = text := by
    obtain rfl | rfl := ht <;> rfl
  rw [OpeningTag.unquoted_append, OpeningTag.unquoted_append, ho, htext]
  obtain rfl | rfl := ht <;> simp

/-- Where no tag ends outside of quotes there is no token that ends one, and the quote that is open
at the end is open in the modes as well. -/
theorem quoting_drain (hm : Quoting quote l.modes) (hc : Clean quote l.rest)
    (hgt : '>' ∉ unquoted quote l.rest) :
    Endless l.drain.1 ∧
      Quoting (openQuote quote l.rest) l.drain.2.modes ∧
      l.drain.2.offset = l.offset + Text.size l.rest ∧
      (Odd (l.drain.1.countP (·.kind = .quote)) ↔
        (openQuote quote l.rest).isSome ≠ quote.isSome) := by
  fun_induction drain l generalizing quote with
  | case1 l l' hn =>
    cases call_of_next hn with
    | stop hb hskips =>
      have ho : openQuote quote l.rest = quote := by
        by_cases hr : l.rest = []
        · rw [hr]
          rfl
        · have hskips := hskips hr
          have hsettled := hm.settled
          unfold mode at hskips
          generalize l.settled.modes = ms at hskips hsettled
          cases hsettled with
          | tag => exact (OpeningTag.unquoted_of_isBlank hb).2
          | value | template => cases hskips
      rw [ho]
      exact ⟨List.forall_mem_nil _, hm.settled, rfl, by simp⟩
  | case2 l t l' hn _ ts last hd ih =>
    cases crosses_of_call (call_of_next hn) hm hc with
    | ending hq hb hp ht =>
      subst hq
      rw [hp.rest_eq] at hgt
      exact absurd (mem_unquoted_of_ending hb (ht.imp And.right And.right) _) hgt
    | @inside past hp hm' hk hq =>
      have hrest := hp.rest_eq
      rw [hrest, OpeningTag.unquoted_append] at hgt
      obtain ⟨hends, hmodes, hoffset, hodd⟩ := ih hm' (hp.clean hc) fun h =>
        hgt (List.mem_append_right _ h)
      rw [hd] at hends hmodes hoffset hodd
      rw [hrest, OpeningTag.openQuote_append]
      refine ⟨hends.cons hk, hmodes, ?_, ?_⟩
      · rw [hoffset, hp.offset_eq, Text.size_append, Nat.add_assoc]
      · rw [List.countP_cons]
        by_cases hkq : t.kind = .quote
        · have hne := hq.mp hkq
          simp only [hkq, decide_true, if_true, Nat.odd_add_one, hodd]
          revert hne
          generalize (openQuote quote past).isSome = b
          cases b <;> cases quote.isSome <;> simp
        · have heq := not_not.mp (mt hq.mpr hkq)
          simp only [hkq, decide_false, Bool.false_eq_true, if_false, Nat.add_zero, hodd, heq]

theorem last_of_ending {gap text inside : List Char} {kind : Kind} (hp : Passes l (gap ++ text) l')
    (hb : ∀ c ∈ gap, Text.isBlank c = true)
    (ht : kind = .tagEnd ∧ text = ['>'] ∨ kind = .selfClose ∧ text = ['/', '>'])
    (hrest : l.rest = inside ++ ['>']) (hgt : '>' ∉ unquoted none inside) :
    l'.rest = [] ∧
      kind = if inside.getLast? = some '/' then Kind.selfClose else Kind.tagEnd := by
  rw [hp.rest_eq] at hrest
  obtain hr | ⟨rest, c, hr⟩ := List.eq_nil_or_concat' l'.rest
  · refine ⟨hr, ?_⟩
    rw [hr, List.append_nil] at hrest
    obtain ⟨rfl, rfl⟩ | ⟨rfl, rfl⟩ := ht
    · obtain ⟨rfl, -⟩ := List.append_inj' hrest rfl
      rw [if_neg]
      intro hlast
      exact absurd (hb _ (List.mem_of_mem_getLast? hlast)) (by decide)
    · have hinside : gap ++ ['/'] = inside :=
        List.append_cancel_right ((List.append_assoc gap ['/'] ['>']).trans hrest)
      rw [← hinside, List.getLast?_append]
      rfl
  · rw [hr, ← List.append_assoc] at hrest
    obtain ⟨rfl, -⟩ := List.append_inj' hrest rfl
    exact absurd (mem_unquoted_of_ending hb (ht.imp And.right And.right) rest) hgt

theorem tokens_of_ending {inside : List Char} (hm : Quoting quote l.modes)
    (hc : Clean quote l.rest) (hrest : l.rest = inside ++ ['>'])
    (hgt : '>' ∉ unquoted quote inside) (hq : openQuote quote inside = none) :
    ∃ ts last, l.drain.1 = ts ++ [last] ∧ Endless ts ∧
      last.kind = (if inside.getLast? = some '/' then Kind.selfClose else Kind.tagEnd) ∧
      last.stop = l.offset + Text.size l.rest := by
  fun_induction drain l generalizing quote inside with
  | case1 l l' hn =>
    cases call_of_next hn with
    | stop hb => exact absurd (hb '>' (by simp [hrest])) (by decide)
  | case2 l t l' hn _ ts last hd ih =>
    have hsize := (size_next hn).2.2
    cases crosses_of_call (call_of_next hn) hm hc with
    | ending hnone hb hp ht =>
      subst hnone
      obtain ⟨hr, hkind⟩ := last_of_ending hp hb ht hrest hgt
      have hts : ts = [] := by
        have htokens := tokens_of_nil l'.offset l'.modes
        rwa [← hr, tokens, hd] at htokens
      refine ⟨[], t, by rw [hts]; rfl, List.forall_mem_nil _, hkind, ?_⟩
      rw [stop_take hn, ← hsize, hr]
      rfl
    | @inside past hp hm' hk _ hgt' hs =>
      obtain hr | ⟨rest, c, hr⟩ := List.eq_nil_or_concat' l'.rest
      · -- the token would hold the end of the tag
        rw [hp.rest_eq, hr, List.append_nil] at hrest
        rw [hrest, OpeningTag.unquoted_append, hq] at hgt'
        exact absurd (List.mem_append_right _ (List.mem_singleton_self _)) hgt'
      · rw [hp.rest_eq, hr, ← List.append_assoc] at hrest
        obtain ⟨rfl, hlast⟩ := List.append_inj' hrest rfl
        rw [hlast] at hr
        rw [OpeningTag.unquoted_append] at hgt
        rw [OpeningTag.openQuote_append] at hq
        obtain ⟨us, u, hus, hends, hkind, hoffset⟩ :=
          ih hm' (hp.clean hc) hr (fun h => hgt (List.mem_append_right _ h)) hq
        rw [hd] at hus
        refine ⟨t :: us, u, congrArg (t :: ·) hus, hends.cons hk, ?_, ?_⟩
        · rw [hkind]
          obtain rfl | hne := eq_or_ne rest []
          · rw [List.append_nil, if_neg (by simp), if_neg]
            intro hslash
            exact hs hq hslash (by rw [hr]; rfl)
          · rw [List.getLast?_append_of_ne_nil _ hne]
        · rw [hoffset, hsize]

end Lexer

namespace Attribute

def quotes (ts : List Token) : Nat :=
  ts.countP (·.kind = .quote)

theorem quotes_cons_of_quote {t : Token} (h : t.kind = .quote) (ts : List Token) :
    quotes (t :: ts) = quotes ts + 1 :=
  List.countP_cons_of_pos (decide_eq_true h)

theorem quotes_cons_of_ne {t : Token} (h : t.kind ≠ .quote) (ts : List Token) :
    quotes (t :: ts) = quotes ts :=
  List.countP_cons_of_neg (by simpa using h)

/-- Holds when a reader takes quotes in pairs, or reports a value that does not end. -/
def Reading.Balanced {α : Type} (ts : List Token) (r : Reading α) : Prop :=
  (∃ d ∈ r.notes, d.kind = .unterminatedAttributeValue) ∨ (Odd (quotes r.rest) ↔ Odd (quotes ts))

theorem quotes_readTemplate (opened : Token) (inner : String) (ts : List Token) :
    quotes (readTemplate opened inner ts).rest = quotes ts := by
  induction ts generalizing inner with
  | nil => rfl
  | cons t ts ih =>
    rw [readTemplate]
    split
    · rename_i hk
      exact (quotes_cons_of_ne (by simp [hk]) ts).symm
    · rename_i hk
      rw [ih, quotes_cons_of_ne (by simp [hk])]
    · rfl

theorem quotes_readQuoted (opened : Token) (stop : Nat) (ts : List Token) :
    (∃ d ∈ (readQuoted opened stop ts).notes, d.kind = .unterminatedAttributeValue) ∨
      quotes ts = quotes (readQuoted opened stop ts).rest + 1 := by
  fun_induction readQuoted opened stop ts with
  | case1 => exact .inl ⟨_, List.mem_singleton_self _, rfl⟩
  | case2 t ts hk => exact .inr (quotes_cons_of_quote hk ts)
  | case3 t ts hk _ f r ih =>
    rw [quotes_cons_of_ne (by simp [hk]), ← quotes_readTemplate t "" ts]
    refine ih.imp_left ?_
    rintro ⟨d, hd, hkind⟩
    exact ⟨d, List.mem_append_right _ hd, hkind⟩
  | case4 t ts r hq _ ih =>
    rw [quotes_cons_of_ne hq]
    exact ih

theorem readValue_balanced (key equals : Token) (stop : Nat) (ts : List Token) :
    (readValue key equals stop ts).Balanced ts := by
  cases ts with
  | nil => exact .inr Iff.rfl
  | cons t ts =>
    rw [readValue]
    split
    · rename_i hk
      refine (quotes_readQuoted t stop ts).imp_right fun h => ?_
      rw [quotes_cons_of_quote hk, h, Nat.odd_add_one, Nat.odd_add_one, not_not]
    · rename_i hk
      exact .inr (by rw [quotes_cons_of_ne (by simp [hk])]; rfl)
    · rename_i hk
      exact .inr (by rw [quotes_cons_of_ne (by simp [hk])]; rfl)
    · rename_i hk
      right
      rw [quotes_cons_of_ne (by simp [hk]), ← quotes_readTemplate t "" ts]
      rfl
    · exact .inr Iff.rfl

theorem read_balanced (key : Token) (stop : Nat) (ts : List Token) :
    (read key stop ts).Balanced ts := by
  cases ts with
  | nil => exact .inr Iff.rfl
  | cons t ts =>
    rw [read]
    split
    · rename_i hk
      rw [Reading.Balanced, quotes_cons_of_ne (by simp [hk])]
      exact readValue_balanced key t stop ts
    · exact .inr Iff.rfl

/-- An odd quote in a tag without an end is reported where it stands or with the value that it
opens. -/
theorem exists_note_of_odd (stop : Nat) {ts : List Token}
    (he : Token.Endless ts) (h : Odd (quotes ts)) :
    ∃ d ∈ (readAll stop ts).2, d.kind = .strayQuote ∨ d.kind = .unterminatedAttributeValue := by
  fun_induction readAll stop ts with
  | case1 => simp [quotes] at h
  | case2 t ts hk => exact absurd (by simp [hk]) (he t List.mem_cons_self)
  | case3 t ts hk => exact absurd (by simp [hk]) (he t List.mem_cons_self)
  | case4 t ts hk _ r attributes notes hr ih =>
    have hfrom := read_from t stop ts
    rw [hr] at ih
    rw [quotes_cons_of_ne (by simp [hk])] at h
    obtain ⟨d, hd, hkind⟩ | hodd := read_balanced t stop ts
    · exact ⟨d, List.mem_append_left _ hd, .inr hkind⟩
    · obtain ⟨d, hd, hkind⟩ := ih (fun u hu => he u (hfrom.rest hu)) (hodd.mpr h)
      exact ⟨d, List.mem_append_right _ hd, hkind⟩
  | case5 => exact ⟨_, List.mem_cons_self, .inl rfl⟩
  | case6 t ts hk _ r attributes notes hr ih =>
    have hfrom := (readTemplate_from t "" ts).1
    rw [hr] at ih
    rw [quotes_cons_of_ne (by simp [hk]), ← quotes_readTemplate t "" ts] at h
    obtain ⟨d, hd, hkind⟩ := ih (fun u hu => he u (hfrom.rest hu)) h
    exact ⟨d, List.mem_append_right _ (List.mem_cons_of_mem _ hd), hkind⟩
  | case7 t ts attributes notes hr _ _ _ hq _ ih =>
    rw [hr] at ih
    rw [quotes_cons_of_ne (by assumption)] at h
    obtain ⟨d, hd, hkind⟩ := ih (fun u hu => he u (List.mem_cons_of_mem _ hu)) h
    exact ⟨d, List.mem_cons_of_mem _ hd, hkind⟩

end Attribute

theorem Tag.mem_ofElement_of_mem_attributesAt {start : Nat} {e : Element} {d : Diagnostic}
    (hn : Name.read? (e.opening.name ++ (e.opening.inside ++ ['>'])) =
      some (e.opening.name, e.opening.inside ++ ['>']))
    (hd : d ∈ (attributesAt start e).2) : d ∈ (ofElement start e).2 := by
  rw [ofElement, Lexer.tokens_of_opening hn]
  cases e.enclosed with
  | none => exact hd
  | some x => exact List.mem_append_left _ hd

namespace Lexer

open Token (Mode IsQuote Endless)

open OpeningTag (openQuote unquoted Clean)

/-- The tokens of an opening tag when its end stands outside of quotes: the last one is the end of
the tag. -/
structure TagEnded (l : Lexer) (stop : Nat) (tag : OpeningTag) : Prop where
  tokens : ∃ ts last, l.tokens = ts ++ [last] ∧ Endless ts ∧ last.stop = stop ∧
    last.kind = if tag.selfClosing then .selfClose else .tagEnd

/-- The tokens of an opening tag when its end stands in quotes: the lexer is left in the value, and
the reader of attributes reports it. -/
structure TagOpen (l : Lexer) (start stop : Nat) (tag : OpeningTag) : Prop where
  tokens : Endless l.tokens
  offset : l.drain.2.offset = stop
  mode : ∃ q, IsQuote q ∧ openQuote none tag.inside = some q ∧
    (l.drain.2.mode = .value q ∨ l.drain.2.mode = .template (some q))
  reported : ∀ e : Element, e.opening = tag → ∃ d ∈ (Tag.ofElement start e).2,
    d.kind = .strayQuote ∨ d.kind = .unterminatedAttributeValue

theorem clean_of_braces {inside : List Char} (hlt : '<' ∉ unquoted none (inside ++ ['>']))
    (hb : ¬['{', '{'] <:+: unquoted none inside) : Clean none (inside ++ ['>']) := by
  refine ⟨hlt, fun hi => hb ?_⟩
  rw [OpeningTag.unquoted_append] at hi
  cases hq : openQuote none inside with
  | some q =>
    rw [hq] at hi
    simpa [unquoted] using hi
  | none =>
    rw [hq] at hi
    obtain hi | hi := List.infix_concat_iff.mp hi
    · obtain hi | ⟨ds, hds, -⟩ := List.suffix_concat_iff.mp hi
      · cases hi
      · have hlast : ['{'] ++ ['{'] = ds ++ ['>'] := hds
        cases (List.append_inj' hlast rfl).2
    · exact hi

theorem stop_behindName (start : Nat) (tag : OpeningTag) :
    (behindName start tag).offset + Text.size (behindName start tag).rest =
      start + Text.size tag.text := by
  have htext : tag.text = ['<'] ++ (tag.name ++ (tag.inside ++ ['>'])) := by
    simp [OpeningTag.text]
  rw [htext, Text.size_append, Text.size_append tag.name, ← Nat.add_assoc, ← Nat.add_assoc]
  rfl

theorem tagEnded_of_found {tag : OpeningTag} {after rest : List Char} (start : Nat)
    (hn : Name.read? (tag.name ++ (tag.inside ++ ['>'])) = some (tag.name, tag.inside ++ ['>']))
    (hscan : OpeningTag.scan none after = .found tag.inside rest)
    (hb : ¬['{', '{'] <:+: unquoted none tag.inside) :
    TagEnded (ofText start tag.text) (start + Text.size tag.text) tag := by
  obtain ⟨hlt, hgt, hopen⟩ := OpeningTag.unquoted_of_found hscan
  have hclean : Clean none (tag.inside ++ ['>']) := by
    refine clean_of_braces ?_ hb
    rw [OpeningTag.unquoted_append, hopen]
    simpa [unquoted] using hlt
  obtain ⟨ts, last, htokens, hts, hkind, hstop⟩ :=
    tokens_of_ending (l := behindName start tag) .tag hclean rfl hgt hopen
  rw [stop_behindName] at hstop
  refine ⟨⟨.tagStart, .ofList ['<'], start⟩ :: ⟨.identifier, .ofList tag.name, start + 1⟩ :: ts,
    last, ?_, hts.opening tag.name start, hstop, ?_⟩
  · rw [tokens_of_opening hn, tokens, htokens]
    rfl
  · simpa [OpeningTag.selfClosing] using hkind

theorem tagOpen_of_inQuotes {tag : OpeningTag} {rest : List Char} (start : Nat)
    (hn : Name.read? (tag.name ++ (tag.inside ++ ['>'])) = some (tag.name, tag.inside ++ ['>']))
    (hscan : OpeningTag.scan none (tag.inside ++ '>' :: rest) = .inQuotes)
    (hb : ¬['{', '{'] <:+: unquoted none tag.inside) :
    TagOpen (ofText start tag.text) start (start + Text.size tag.text) tag := by
  have hsplit : tag.inside ++ '>' :: rest = tag.inside ++ ['>'] ++ rest := by simp
  obtain ⟨hlt, hgt⟩ := OpeningTag.unquoted_of_inQuotes hscan
  rw [hsplit, OpeningTag.unquoted_append] at hlt hgt
  have hlt' := fun h => hlt (List.mem_append_left _ h)
  have hgt' := fun h => hgt (List.mem_append_left _ h)
  obtain ⟨hends, hmodes, hoffset, hodd⟩ :=
    quoting_drain (l := behindName start tag) .tag (clean_of_braces hlt' hb) hgt'
  change Quoting (openQuote none (tag.inside ++ ['>'])) _ at hmodes
  change _ ↔ (openQuote none (tag.inside ++ ['>'])).isSome ≠ _ at hodd
  -- the quote that is open before the last character is open behind it
  obtain ⟨q, hopen⟩ : ∃ q, openQuote none tag.inside = some q := by
    apply Option.ne_none_iff_exists'.mp
    intro hnone
    rw [OpeningTag.unquoted_append, hnone] at hgt'
    exact hgt' (List.mem_append_right _ (List.mem_singleton_self _))
  have hq : IsQuote q := OpeningTag.isQuote_of_openQuote (by simp) q hopen
  have hopen' : openQuote none (tag.inside ++ ['>']) = some q := by
    rw [OpeningTag.openQuote_append, hopen]
    obtain rfl | rfl := hq <;> rfl
  rw [hopen'] at hmodes hodd
  rw [stop_behindName] at hoffset
  have hdrain := drain_of_opening hn start
  have htokens := tokens_of_opening hn start
  constructor
  case tokens =>
    rw [htokens]
    exact hends.opening tag.name start
  case offset =>
    rw [hdrain]
    exact hoffset
  case mode =>
    refine ⟨q, hq, hopen, ?_⟩
    rw [hdrain, mode]
    generalize (behindName start tag).drain.2.modes = ms at hmodes
    cases hmodes with
    | value => exact .inl rfl
    | template => exact .inr rfl
  case reported =>
    rintro e rfl
    obtain ⟨d, hd, hkind⟩ :=
      Attribute.exists_note_of_odd (start + Text.size e.opening.text) hends (hodd.mpr (by simp))
    exact ⟨d, Tag.mem_ofElement_of_mem_attributesAt hn hd, hkind⟩

/-- The scan for the end of an opening tag and the lexer agree on every tag behind whose name no
template starts outside of quotes. -/
theorem tagEnded_or_tagOpen {source : String} {before after rest beyond : List Char}
    {tag : OpeningTag} (hs : source.toList = before ++ ('<' :: (tag.name ++ after) ++ beyond))
    (hm : Mark.read (tag.name ++ after) = .opening tag rest)
    (hb : ¬['{', '{'] <:+: unquoted none tag.inside) {start stop : Nat}
    (hstart : start = Text.size before) (hstop : stop = start + Text.size tag.text) :
    (OpeningTag.scan none after = .found tag.inside rest ∧
        TagEnded (ofRange source start stop) stop tag) ∨
      (OpeningTag.scan none after = .inQuotes ∧
        OpeningTag.scanPlain? after = some (tag.inside, rest) ∧
        TagOpen (ofRange source start stop) start stop tag) := by
  have htext := Mark.text_append_of_opening hm
  obtain ⟨after', hn, -, hsplit⟩ := Mark.read_eq_opening hm
  obtain ⟨hafter, -, -⟩ := Name.read?_eq_some_iff.mp hn
  obtain rfl := List.append_cancel_left hafter
  have hrange : ofRange source start stop = ofText start tag.text := by
    subst hstart hstop
    apply ofRange_of_append
    rw [hs, ← htext, List.append_assoc]
  have hname := (Mark.read?_name_of_opening hm).1
  obtain rfl := OpeningTag.append_of_splitEnd? hsplit
  rw [hrange, hstop]
  cases hscan : OpeningTag.scan none (tag.inside ++ '>' :: rest) with
  | found inside rest' =>
    simp only [OpeningTag.splitEnd?, hscan, Option.some.injEq, Prod.mk.injEq] at hsplit
    obtain ⟨rfl, rfl⟩ := hsplit
    exact .inl ⟨rfl, tagEnded_of_found start hname hscan hb⟩
  | inQuotes =>
    simp only [OpeningTag.splitEnd?, hscan] at hsplit
    exact .inr ⟨rfl, hsplit, tagOpen_of_inQuotes start hname hscan hb⟩
  | missing => simp [OpeningTag.splitEnd?, hscan] at hsplit

/-- The only `>` of this tag stands in a value that does not end. -/
theorem tagEnded_or_tagOpen_in_quotes : ∃ tag : OpeningTag,
    "<p a=\"\x7b\x7bx>".toList = [] ++ ('<' :: (tag.name ++ " a=\"\x7b\x7bx>".toList) ++ []) ∧
    Mark.read (tag.name ++ " a=\"\x7b\x7bx>".toList) = .opening tag [] ∧
    ¬['{', '{'] <:+: unquoted none tag.inside ∧ Text.size tag.text = 10 ∧
    ((OpeningTag.scan none " a=\"\x7b\x7bx>".toList = .found tag.inside [] ∧
        TagEnded (ofRange "<p a=\"\x7b\x7bx>" 0 10) 10 tag) ∨
      (OpeningTag.scan none " a=\"\x7b\x7bx>".toList = .inQuotes ∧
        OpeningTag.scanPlain? " a=\"\x7b\x7bx>".toList = some (tag.inside, []) ∧
        TagOpen (ofRange "<p a=\"\x7b\x7bx>" 0 10) 0 10 tag)) := by
  have hs : "<p a=\"\x7b\x7bx>".toList =
      [] ++ ('<' :: (['p'] ++ " a=\"\x7b\x7bx>".toList) ++ []) := by decide +kernel
  have hm : Mark.read (['p'] ++ " a=\"\x7b\x7bx>".toList) =
      .opening ⟨['p'], " a=\"\x7b\x7bx".toList⟩ [] := by decide +kernel
  have hb : ¬['{', '{'] <:+: unquoted none " a=\"\x7b\x7bx".toList := by decide +kernel
  exact ⟨⟨['p'], " a=\"\x7b\x7bx".toList⟩, hs, hm, hb, rfl, tagEnded_or_tagOpen hs hm hb rfl rfl⟩

end Lexer

end ProseMarkup
