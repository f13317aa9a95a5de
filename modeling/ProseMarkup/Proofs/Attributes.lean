import ProseMarkup.Proofs.Checked.Document
import ProseMarkup.Proofs.Lexing.TagEnds

namespace ProseMarkup

open Text (size IsSlice IsBoundary)

variable {source : List Char} {start stop : Nat}

namespace Fragment

/-- Holds of a fragment that shows what stands in its span: literal text as it is, and a template by
the text between its braces. -/
def Intact (source : List Char) : Fragment → Prop
  | literal text span => IsSlice source span.start span.stop text.toList
  | template expression span => ∃ inner,
      IsSlice source span.start span.stop ('{' :: '{' :: (inner ++ ['}', '}'])) ∧
        expression = .ofList (Text.trim inner)

/-- Holds of fragments that fill a part of a source, and of which none is joined with the next. -/
structure Fills (source : List Char) (start stop : Nat) (fs : List Fragment) : Prop where
  tile : Span.Tile start stop (fs.map span)
  intact : ∀ f ∈ fs, f.Intact source
  apart : fs.IsChain Apart

namespace Fills

variable {f : Fragment} {fs : List Fragment}

theorem nil (source : List Char) (start : Nat) : Fills source start start [] :=
  ⟨rfl, List.forall_mem_nil _, .nil⟩

/-- Where literal text is joined with the text right behind it, it fills both spans. -/
theorem cons (hf : f.Intact source) (hlt : f.span.start < f.span.stop)
    (h : Fills source f.span.stop stop fs) : Fills source f.span.start stop (f.cons fs) := by
  refine ⟨?_, ?_, isChain_cons h.apart⟩
  · obtain ⟨hcons, -⟩ | ⟨_, _, _, _, _, rfl, rfl, -, hcons⟩ := cons_cases f fs
    · rw [hcons]
      exact ⟨rfl, hlt, h.tile⟩
    · rw [hcons]
      exact ⟨rfl, Nat.lt_trans hlt h.tile.2.1, h.tile.2.2⟩
  · obtain ⟨hcons, -⟩ | ⟨_, _, _, _, _, rfl, rfl, hjoin, hcons⟩ := cons_cases f fs
    · rw [hcons]
      exact List.forall_mem_cons.mpr ⟨hf, h.intact⟩
    · obtain ⟨hg, hgs⟩ := List.forall_mem_cons.mp h.intact
      have hslice := isSlice_joined hf hg hjoin
      rw [hcons]
      exact List.forall_mem_cons.mpr ⟨hslice, hgs⟩

theorem singleton (hf : f.Intact source) (hlt : f.span.start < f.span.stop) :
    Fills source f.span.start f.span.stop [f] :=
  ⟨⟨rfl, hlt, rfl⟩, List.forall_mem_singleton.mpr hf, .singleton f⟩

theorem isChain (h : Fills source start stop fs) :
    fs.IsChain fun f g => f.isTemplate ∨ g.isTemplate := by
  obtain ⟨htile, -, hapart⟩ := h
  induction fs generalizing start with
  | nil => exact .nil
  | cons f fs ih =>
    obtain ⟨-, -, htile⟩ := htile
    have hfs := ih htile hapart.tail
    rcases fs with _ | ⟨g, fs⟩
    · exact .singleton f
    · refine .cons_cons ?_ hfs
      cases f with
      | template => exact .inl rfl
      | literal text span =>
        cases g with
        | template => exact .inr rfl
        | literal text' span' => exact absurd htile.1.symm hapart.rel

end Fills

end Fragment

structure Attribute.Intact (source : List Char) (a : Attribute) : Prop where
  name : Name.IsName a.key.toList
  key : IsSlice source a.keySpan.start a.keySpan.stop a.key.toList
  absent : a.valueSpan = none → a.value = []
  tile : ∀ s ∈ a.valueSpan, Span.Tile s.start s.stop (a.value.map Fragment.span)
  fragments : ∀ f ∈ a.value, f.Intact source
  apart : a.value.IsChain fun f g => f.isTemplate ∨ g.isTemplate
  literal : a.literalValue?.isSome = !a.isInterpolated
  text : ∀ s ∈ a.valueSpan, ∀ text ∈ a.literalValue?, IsSlice source s.start s.stop text.toList

namespace Attribute

def spans (a : Attribute) : List Span :=
  a.keySpan :: a.valueSpan.toList

theorem isSome_literalValue? {a : Attribute}
    (h : a.value.IsChain fun f g => f.isTemplate ∨ g.isTemplate) :
    a.literalValue?.isSome = !a.isInterpolated := by
  obtain ⟨key, keySpan, value, valueSpan⟩ := a
  rcases value with _ | ⟨f, _ | ⟨g, fs⟩⟩
  · rfl
  · cases f <;> rfl
  · have hany : (f :: g :: fs).any Fragment.isTemplate = true := by
      obtain hf | hg := h.rel
      · simp [hf]
      · simp [hg]
    have hnone : literalValue? ⟨key, keySpan, f :: g :: fs, valueSpan⟩ = none := by
      cases f <;> rfl
    rw [hnone, isInterpolated, hany]
    rfl

variable {key : Token}

theorem intact_without_value (hk : key.Stands source) (hn : Name.IsName key.text.toList) :
    Intact source ⟨key.text, key.span, [], none⟩ where
  name := hn
  key := hk.slice
  absent _ := rfl
  tile := by rintro _ ⟨⟩
  fragments := List.forall_mem_nil _
  apart := .nil
  literal := rfl
  text := by rintro _ ⟨⟩

theorem intact_of_fills {fs : List Fragment} {s : Span} (hk : key.Stands source)
    (hn : Name.IsName key.text.toList) (hs : IsBoundary source s.start)
    (h : Fragment.Fills source s.start s.stop fs) :
    Intact source ⟨key.text, key.span, fs, some s⟩ where
  name := hn
  key := hk.slice
  absent := by rintro ⟨⟩
  tile := by
    rintro _ ⟨⟩
    exact h.tile
  fragments := h.intact
  apart := h.isChain
  literal := isSome_literalValue? h.isChain
  text := by
    rintro _ ⟨⟩ text htext
    obtain ⟨htile, hintact, -⟩ := h
    rcases fs with _ | ⟨f, _ | ⟨g, fs⟩⟩
    · obtain rfl : "" = text := Option.some.inj htext
      have hstop : s.start = s.stop := htile
      rw [← hstop]
      exact Text.isSlice_nil hs
    · cases f with
      | template => cases htext
      | literal text' span =>
        obtain rfl : text' = text := Option.some.inj htext
        obtain ⟨hstart, -, hstop⟩ := htile
        have hslice : IsSlice source span.start span.stop text'.toList :=
          hintact _ List.mem_cons_self
        rw [← hstart, ← hstop]
        exact hslice
    · cases f <;> cases htext

end Attribute

theorem Token.text_of_templateOpen {m : Mode} {text : List Char} (h : Shape m .templateOpen text) :
    text = ['{', '{'] := by
  cases h
  rfl

theorem Token.text_of_templateClose {m : Mode} {text : List Char}
    (h : Shape m .templateClose text) : text = ['}', '}'] := by
  cases h
  rfl

namespace Lexer

open Token (Mode Shape)

variable {l l' : Lexer} {t : Token}

def InQuotes (l : Lexer) : Prop :=
  ∃ q, Quoting (some q) l.modes

/-- In a value no blank is skipped, and only a quote ends it. -/
theorem next_inQuotes (h : l.InQuotes) (hn : l.next = (some t, l')) :
    t.start = l.offset ∧ (t.kind ≠ .quote → l'.InQuotes) := by
  obtain ⟨q, hq⟩ := h
  obtain ⟨hstart, hcrosses⟩ := crosses_of_call_quoted (call_of_next hn) hq
  refine ⟨hstart, fun hk => ?_⟩
  cases hcrosses with
  | ending hq => cases hq
  | @inside past _ hm _ hquote =>
    have hopen : OpeningTag.openQuote (some q) past ≠ none := by simpa using mt hquote.mpr hk
    obtain ⟨q', hq'⟩ := Option.ne_none_iff_exists'.mp hopen
    exact ⟨q', hq' ▸ hm⟩

theorem offset_of_inQuotes (h : l.InQuotes) (hs : l.StandsIn source stop)
    (hn : l.next = (none, l')) : l.offset = stop := by
  obtain ⟨q, hq⟩ := h
  have hsettled := hq.settled
  have hslice := hs.slice
  cases call_of_next hn with
  | stop _ hskips =>
    have hrest : l.rest = [] := by
      by_contra hne
      have hskips := hskips hne
      unfold mode at hskips
      generalize l.settled.modes = ms at hskips hsettled
      cases hsettled <;> cases hskips
    rw [hrest] at hslice
    exact hslice.eq_of_nil

theorem eq_tag_of_shape {m : Mode} {kind : Token.Kind} {text : List Char} (h : Shape m kind text)
    (hk : kind = .identifier ∨ kind = .equals) :
    m = .tag ∧ (kind = .identifier → Name.IsName text) := by
  cases h with
  | name h => exact ⟨rfl, fun _ => h⟩
  | equals => exact ⟨rfl, by rintro ⟨⟩⟩
  | _ => obtain hk | hk := hk <;> cases hk

theorem quoting_of_name (hs : Stack l.modes) (hn : l.next = (some t, l'))
    (hk : t.kind = .identifier ∨ t.kind = .equals) :
    Quoting none l'.modes ∧ (t.kind = .identifier → Name.IsName t.text.toList) := by
  obtain ⟨hmode, hname⟩ := eq_tag_of_shape ((call_of_next hn).shape hs rfl) hk
  refine ⟨?_, hname⟩
  have hsettled := hs.settled
  cases call_of_next hn with
  | @token gap cs c =>
    change (l.settled.mode.read (c :: cs)).kind = _ ∨ (l.settled.mode.read (c :: cs)).kind = _ at hk
    change Quoting none (transition l.settled.modes (l.settled.mode.read (c :: cs)))
    generalize l.settled.mode.read (c :: cs) = x at hk
    unfold mode at hmode
    generalize l.settled.modes = ms at hmode hsettled
    cases hsettled with
    | tag =>
      obtain ⟨kind, text, rest⟩ := x
      obtain rfl | rfl : kind = .identifier ∨ kind = .equals := hk
      · exact .tag
      · exact .tag
    | _ => cases hmode

theorem inQuotes_of_quote (h : Quoting none l.modes) (hn : l.next = (some t, l'))
    (hk : t.kind = .quote) : l'.InQuotes := by
  have hshape := (call_of_next hn).shape h.stack rfl
  have hsettled := h.settled
  cases call_of_next hn with
  | @token gap cs c =>
    rw [String.toList_ofList] at hshape
    change (l.settled.mode.read (c :: cs)).kind = _ at hk
    change ∃ q, Quoting (some q) (transition l.settled.modes (l.settled.mode.read (c :: cs)))
    unfold mode at hshape hk ⊢
    generalize l.settled.modes = ms at hshape hk hsettled ⊢
    cases hsettled with
    | tag =>
      change Shape .tag _ _ at hshape
      generalize ([Mode.tag, Mode.content].headD .content).read (c :: cs) = x at hshape hk ⊢
      obtain ⟨kind, text, rest⟩ := x
      obtain rfl : kind = .quote := hk
      cases hshape with
      | openingQuote hq => exact ⟨_, .value hq⟩

end Lexer

structure Lexer.LeavesTo (source : List Char) (stop : Nat) (l : Lexer) (ts : List Token)
    (last : Lexer) : Prop where
  stands : last.StandsIn source stop
  tokens : last.tokens = ts
  le : l.offset ≤ last.offset

theorem Lexer.LeavesTo.behind {l l' last : Lexer} {ts : List Token}
    (h : l'.LeavesTo source stop ts last) (hle : l.offset ≤ l'.offset) :
    l.LeavesTo source stop ts last :=
  { h with le := Nat.le_trans hle h.le }

namespace Attribute

open Lexer (StandsIn LeavesTo)
open Fragment (Fills)

variable {l l' : Lexer} {t opened key equals : Token} {inner : String}

structure ReadsTemplate (source : List Char) (stop : Nat) (opened : Token) (l : Lexer)
    (r : Reading Fragment) (last : Lexer) : Prop where
  leaves : l.LeavesTo source stop r.rest last
  span : r.value.span = ⟨opened.start, last.offset⟩
  intact : r.value.Intact source
  inQuotes : l.InQuotes → last.InQuotes

theorem unterminated_intact (ho : IsSlice source opened.start opened.stop opened.text.toList)
    (hi : IsSlice source opened.stop l.offset inner.toList) (h : l.StandsIn source stop) :
    ReadsTemplate source stop opened l (readTemplate.unterminated opened inner l.tokens) l := by
  obtain ⟨hslice, heq⟩ := unterminated_eq ho hi l.tokens
  rw [heq]
  exact ⟨⟨h, rfl, Nat.le_refl _⟩, rfl, hslice, id⟩

theorem readTemplate_intact {enclosing : Option Char} (hb : opened.text.toList = ['{', '{'])
    (ho : IsSlice source opened.start opened.stop opened.text.toList)
    (hi : IsSlice source opened.stop l.offset inner.toList) (h : l.StandsIn source stop)
    (hm : l.mode = .template enclosing) :
    ∃ last, ReadsTemplate source stop opened l (readTemplate opened inner l.tokens) last := by
  induction hlen : l.rest.length using Nat.strong_induction_on generalizing l inner with
  | _ len ih =>
    have hunterminated := unterminated_intact ho hi h
    rcases hn : l.next with ⟨_ | t, l'⟩
    · rw [Lexer.tokens_of_none hn] at hunterminated ⊢
      exact ⟨l, hunterminated⟩
    · obtain ⟨hstands, htoken, -, hstop⟩ := h.takes hn
      have hle := Nat.le_of_lt (h.takes hn).lt
      rw [Lexer.tokens_of_some hn] at hunterminated ⊢
      rw [readTemplate]
      split
      · rename_i hk
        obtain ⟨hstart, -⟩ := Lexer.start_of_template h.stack hm hn (.inr hk)
        have hshape := (Lexer.call_of_next hn).shape h.stack rfl
        rw [hk] at hshape
        have hclose := Token.text_of_templateClose hshape
        have hslice := htoken.slice
        rw [hstart, hclose] at hslice
        have hall := (ho.append hi).append hslice
        rw [hb, List.append_assoc] at hall
        refine ⟨l', ⟨hstands, rfl, hle⟩, ?_, ⟨inner.toList, hall, rfl⟩, fun hq => ?_⟩
        · rw [← hstop]
          rfl
        · exact (Lexer.next_inQuotes hq hn).2 (by rw [hk]; decide)
      · rename_i hk
        obtain ⟨hstart, hmode⟩ := Lexer.start_of_template h.stack hm hn (.inl hk)
        have hinner : IsSlice source opened.stop l'.offset (inner ++ t.text).toList := by
          have hslice := htoken.slice
          rw [hstart, hstop] at hslice
          rw [String.toList_append]
          exact hi.append hslice
        obtain ⟨last, hr⟩ := ih _ (hlen ▸ Lexer.next_length hn) hinner hstands (hmode hk) rfl
        refine ⟨last, hr.leaves.behind hle, hr.span, hr.intact, fun hq => hr.inQuotes ?_⟩
        exact (Lexer.next_inQuotes hq hn).2 (by rw [hk]; decide)
      · exact ⟨l, hunterminated⟩

theorem template_intact (h : l.StandsIn source stop) (hn : l.next = (some t, l'))
    (hk : t.kind = .templateOpen) :
    ∃ last, ReadsTemplate source stop t l' (readTemplate t "" l'.tokens) last := by
  obtain ⟨hstands, htoken, -, hstop⟩ := h.takes hn
  obtain ⟨enclosing, hm⟩ := Lexer.mode_of_templateOpen h.stack hn hk
  have hshape := (Lexer.call_of_next hn).shape h.stack rfl
  rw [hk] at hshape
  refine readTemplate_intact (Token.text_of_templateOpen hshape) htoken.slice ?_ hstands hm
  rw [hstop]
  exact Text.isSlice_nil hstands.slice.isBoundary_start

structure ReadsQuoted (source : List Char) (stop : Nat) (opened : Token) (l : Lexer)
    (r : Reading (List Fragment × Span)) (last : Lexer) : Prop where
  leaves : l.LeavesTo source stop r.rest last
  start : r.value.2.start = opened.stop
  fills : Fills source l.offset r.value.2.stop r.value.1
  le : r.value.2.stop ≤ last.offset

/-- The fragments that are read from the tokens of a value fill the value. -/
theorem readQuoted_intact (opened : Token) (h : l.StandsIn source stop) (hq : l.InQuotes) :
    ∃ last, ReadsQuoted source stop opened l (readQuoted opened stop l.tokens) last := by
  induction hleft : stop - l.offset using Nat.strong_induction_on generalizing l with
  | _ left ih =>
    rcases hn : l.next with ⟨_ | t, l'⟩
    · obtain ⟨hstands, hstop, htokens⟩ := h.ends hn
      have hoffset := Lexer.offset_of_inQuotes hq h hn
      rw [Lexer.tokens_of_none hn, readQuoted]
      refine ⟨l', ⟨hstands, htokens, ?_⟩, rfl, ?_, ?_⟩
      · rw [hoffset, hstop]
      · rw [hoffset]
        exact .nil source stop
      · exact Nat.le_of_eq hstop.symm
    · obtain ⟨hstands, htoken, -, hstop⟩ := h.takes hn
      have hlt := (h.takes hn).lt
      obtain ⟨hstart, hquotes⟩ := Lexer.next_inQuotes hq hn
      -- a fragment is put before those that are read behind it
      have more {f : Fragment} {last : Lexer} {ts : List Token} (hf : f.Intact source)
          (hspan : f.span = ⟨l.offset, last.offset⟩) (hleaves : l'.LeavesTo source stop ts last)
          (hql : last.InQuotes) (notes : List Diagnostic) :
          ∃ last', ReadsQuoted source stop opened l
            ⟨(f.cons (readQuoted opened stop ts).value.1, (readQuoted opened stop ts).value.2),
              notes, (readQuoted opened stop ts).rest⟩ last' := by
        obtain ⟨hlast, rfl, hle⟩ := hleaves
        have hfirst : l.offset < last.offset := Nat.lt_of_lt_of_le hlt hle
        have hless : stop - last.offset < left := by
          have hend := hlast.le
          omega
        obtain ⟨last', hleaves, hopened, hfills, hend⟩ := ih _ hless hlast hql rfl
        have hfilled : f.span.start < f.span.stop := by rwa [hspan]
        have hstop : last.offset = f.span.stop := by rw [hspan]
        have hstart : l.offset = f.span.start := by rw [hspan]
        rw [hstop] at hfills
        refine ⟨last', hleaves.behind (Nat.le_of_lt hfirst), hopened, ?_, hend⟩
        rw [hstart]
        exact hfills.cons hf hfilled
      rw [Lexer.tokens_of_some hn, readQuoted]
      split
      · refine ⟨l', ⟨hstands, rfl, Nat.le_of_lt hlt⟩, rfl, ?_, ?_⟩
        · rw [hstart]
          exact .nil source l.offset
        · rw [hstart]
          exact Nat.le_of_lt hlt
      · rename_i hk
        obtain ⟨last, hleaves, hspan, hintact, hql⟩ := template_intact h hn hk
        rw [hstart] at hspan
        exact more hintact hspan hleaves (hql (hquotes (by rw [hk]; decide))) _
      · rename_i hquote _
        have hspan : (Fragment.literal t.text t.span).span = ⟨l.offset, l'.offset⟩ := by
          rw [← hstart, ← hstop]
          rfl
        have hleaves : l'.LeavesTo source stop l'.tokens l' := ⟨hstands, rfl, Nat.le_refl _⟩
        exact more (f := .literal t.text t.span) htoken.slice hspan hleaves (hquotes hquote) _

structure ReadsAttribute (source : List Char) (stop : Nat) (key : Token) (l : Lexer)
    (r : Reading Attribute) (last : Lexer) : Prop where
  leaves : l.LeavesTo source stop r.rest last
  intact : r.value.Intact source
  row : Span.Row key.start last.offset r.value.spans

theorem withoutValue_intact (hk : key.Stands source) (hn : Name.IsName key.text.toList)
    (hle : key.stop ≤ l.offset) (h : l.StandsIn source stop) (note : Diagnostic) :
    ReadsAttribute source stop key l (withoutValue key note l.tokens) l where
  leaves := ⟨h, rfl, Nat.le_refl _⟩
  intact := intact_without_value hk hn
  row := ⟨Nat.le_refl _, Nat.le_of_lt hk.nonempty, hle⟩

theorem unquoted_intact {r : Reading Fragment} {last : Lexer} (hk : key.Stands source)
    (hn : Name.IsName key.text.toList) (hleaves : l.LeavesTo source stop r.rest last)
    (hf : r.value.Intact source) (hspan : r.value.span = ⟨t.start, last.offset⟩)
    (ht : t.Stands source) (hkey : key.stop ≤ t.start) (hle : t.stop ≤ last.offset) :
    ReadsAttribute source stop key l (readValue.unquoted key r) last := by
  have hlt : t.start < last.offset := Nat.lt_of_lt_of_le ht.nonempty hle
  have hfilled : r.value.span.start < r.value.span.stop := by rwa [hspan]
  have hboundary : IsBoundary source r.value.span.start := by
    rw [hspan]
    exact ht.slice.isBoundary_start
  refine ⟨hleaves, intact_of_fills hk hn hboundary (.singleton hf hfilled), ?_⟩
  change Span.Row key.start last.offset [key.span, r.value.span]
  rw [hspan]
  exact ⟨Nat.le_refl _, Nat.le_of_lt hk.nonempty, hkey, Nat.le_of_lt hlt, Nat.le_refl _⟩

theorem readValue_intact (equals : Token) (hk : key.Stands source)
    (hn : Name.IsName key.text.toList) (hle : key.stop ≤ l.offset) (h : l.StandsIn source stop)
    (hm : Lexer.Quoting none l.modes) :
    ∃ last, ReadsAttribute source stop key l (readValue key equals stop l.tokens) last := by
  have hmissing := withoutValue_intact hk hn hle h
    (.missingValue ⟨key.start, equals.stop⟩ key.text)
  rcases hnext : l.next with ⟨_ | t, l'⟩
  · rw [Lexer.tokens_of_none hnext] at hmissing ⊢
    exact ⟨l, hmissing⟩
  · obtain ⟨hstands, htoken, hstart, hstop⟩ := h.takes hnext
    have hlo := Nat.le_of_lt (h.takes hnext).lt
    have hbehind : key.stop ≤ t.start := Nat.le_trans hle hstart
    rw [Lexer.tokens_of_some hnext] at hmissing ⊢
    have literal : ReadsAttribute source stop key l
        (readValue.unquoted key ⟨.literal t.text t.span, [], l'.tokens⟩) l' := by
      have hspan : (Fragment.literal t.text t.span).span = ⟨t.start, l'.offset⟩ := by
        rw [← hstop]
        rfl
      exact unquoted_intact hk hn ⟨hstands, rfl, hlo⟩ htoken.slice hspan htoken hbehind
        (Nat.le_of_eq hstop)
    rw [readValue]
    split
    · rename_i hkind
      obtain ⟨last, hr⟩ := readQuoted_intact t hstands (Lexer.inQuotes_of_quote hm hnext hkind)
      obtain ⟨hleaves, hopened, hfills, hend⟩ := hr
      rw [← hstop, ← hopened] at hfills
      have hboundary : IsBoundary source (readQuoted t stop l'.tokens).value.2.start := by
        rw [hopened]
        exact htoken.slice.isBoundary_stop
      refine ⟨last, hleaves.behind hlo, intact_of_fills hk hn hboundary hfills, Nat.le_refl _,
        Nat.le_of_lt hk.nonempty, ?_, hfills.tile.le, hend⟩
      rw [hopened]
      exact Nat.le_trans hbehind (Nat.le_of_lt htoken.nonempty)
    · exact ⟨l', literal⟩
    · exact ⟨l', literal⟩
    · rename_i hkind
      obtain ⟨last, hleaves, hspan, hintact, -⟩ := template_intact h hnext hkind
      have hend : t.stop ≤ last.offset := hstop ▸ hleaves.le
      exact ⟨last, unquoted_intact hk hn (hleaves.behind hlo) hintact hspan htoken hbehind hend⟩
    · exact ⟨l, hmissing⟩

theorem read_intact (hk : key.Stands source) (hn : Name.IsName key.text.toList)
    (hle : key.stop ≤ l.offset) (h : l.StandsIn source stop) :
    ∃ last, ReadsAttribute source stop key l (read key stop l.tokens) last := by
  have hmissing := withoutValue_intact hk hn hle h (.missingEquals key.span key.text)
  rcases hnext : l.next with ⟨_ | t, l'⟩
  · rw [Lexer.tokens_of_none hnext] at hmissing ⊢
    exact ⟨l, hmissing⟩
  · have hlo := Nat.le_of_lt (h.takes hnext).lt
    rw [Lexer.tokens_of_some hnext] at hmissing ⊢
    rw [read]
    split
    · rename_i hkind
      obtain ⟨hm, -⟩ := Lexer.quoting_of_name h.stack hnext (.inr hkind)
      obtain ⟨last, hleaves, hintact, hrow⟩ :=
        readValue_intact t hk hn (Nat.le_trans hle hlo) (h.takes hnext).stands hm
      exact ⟨last, hleaves.behind hlo, hintact, hrow⟩
    · exact ⟨l, hmissing⟩

/-- Holds of attributes that show what stands in a source, each behind the one before it. -/
structure InOrder (source : List Char) (start stop : Nat) (as : List Attribute) : Prop where
  intact : ∀ a ∈ as, a.Intact source
  row : Span.Row start stop (as.flatMap spans)

theorem InOrder.mono {start' : Nat} {as : List Attribute} (h : InOrder source start stop as)
    (hle : start' ≤ start) : InOrder source start' stop as :=
  ⟨h.intact, h.row.mono hle (Nat.le_refl _)⟩

/-- The attributes that are read from the tokens of a tag stand in the tag. -/
theorem readAll_inOrder (h : l.StandsIn source stop) :
    InOrder source l.offset stop (readAll stop l.tokens).1 := by
  induction hleft : stop - l.offset using Nat.strong_induction_on generalizing l with
  | _ left ih =>
    have none : InOrder source l.offset stop [] := ⟨List.forall_mem_nil _, h.le⟩
    rcases hn : l.next with ⟨_ | t, l'⟩
    · rw [Lexer.tokens_of_none hn, readAll]
      exact none
    · obtain ⟨hstands, htoken, hstart, hstop⟩ := h.takes hn
      have hlt := (h.takes hn).lt
      have rest {last : Lexer} {ts : List Token} (hleaves : l'.LeavesTo source stop ts last) :
          InOrder source last.offset stop (readAll stop ts).1 := by
        obtain ⟨hlast, rfl, hle⟩ := hleaves
        have hend := hlast.le
        exact ih (stop - last.offset) (by omega) hlast rfl
      have later {last : Lexer} {ts : List Token} (hleaves : l'.LeavesTo source stop ts last) :
          InOrder source l.offset stop (readAll stop ts).1 :=
        (rest hleaves).mono (Nat.le_trans (Nat.le_of_lt hlt) hleaves.le)
      rw [Lexer.tokens_of_some hn, readAll]
      split
      · exact none
      · exact none
      · rename_i hk
        have hname := (Lexer.quoting_of_name h.stack hn (.inl hk)).2 hk
        obtain ⟨last, hleaves, hintact, hrow⟩ :=
          read_intact htoken hname (Nat.le_of_eq hstop) hstands
        obtain ⟨hall, hrest⟩ := rest hleaves
        exact ⟨List.forall_mem_cons.mpr ⟨hintact, hall⟩,
          (hrow.mono hstart (Nat.le_refl _)).append hrest⟩
      · obtain ⟨last, -, hlast, htokens, hle⟩ := Checked.skipValue_eq hstands
        exact later ⟨hlast, htokens, hle⟩
      · rename_i hk
        obtain ⟨last, hleaves, -⟩ := template_intact h hn hk
        exact later hleaves
      · exact later ⟨hstands, rfl, Nat.le_refl _⟩

end Attribute

theorem Lexer.standsIn_behindName {tag : OpeningTag} (h : IsSlice source start stop tag.text) :
    (behindName start tag).StandsIn source stop := by
  have htext : tag.text = ['<'] ++ (tag.name ++ (tag.inside ++ ['>'])) := by
    simp [OpeningTag.text]
  rw [htext] at h
  exact ⟨.tag, h.right.right⟩

theorem Tag.inOrder_ofElement {v : Vocabulary} {e : Element} (h : e.Sound v)
    (hs : IsSlice source start stop e.text) :
    Attribute.InOrder source (ofElement start e).1.nameSpan.stop (start + size e.opening.text)
      (ofElement start e).1.attributes := by
  rw [Element.text] at hs
  have hname : (ofElement start e).1.nameSpan.stop = (Lexer.behindName start e.opening).offset := by
    rw [ofElement_eq h]
    rfl
  have hattributes : (ofElement start e).1.attributes = (attributesAt start e).1 := by
    rw [ofElement_eq h]
  rw [hname, hattributes]
  exact Attribute.readAll_inOrder (Lexer.standsIn_behindName hs.left)

/-- The attributes of every element of a document show what stands in the source. Each of their keys
and values is behind the one before it, all of them in the opening tag and behind its name. -/
theorem Document.inOrder_attributes (p : Parser) (source : String) :
    List.Forall₂ (fun u s => s.label = .ofRegion s.label.id u.label ∧
      ∀ tag, s.label.shape = .element tag → ∃ e, u.label.piece = .element e ∧
        Attribute.InOrder source.toList tag.nameSpan.stop
          (s.label.span.start + Text.size e.opening.text) tag.attributes)
      (outline p.vocabulary p.limits source.toList).subtrees (p.parse source).root.subtrees := by
  refine forall₂_subtrees fun u hu k => ?_
  rw [Tree.label_number]
  refine ⟨rfl, fun tag hshape => ?_⟩
  obtain ⟨e, hp, rfl⟩ := Segment.exists_of_shape_element hshape
  have hpart := Region.partOf_of_mem hu
  have hchars : u.label.chars = e.text := by
    rw [Region.chars, hp]
    rfl
  rw [Region.PartOf, hchars] at hpart
  exact ⟨e, hp, Tag.inOrder_ofElement (Region.sound_of_mem hu hp) hpart⟩

/-- Opening braces that nothing closes are joined with the text before them. -/
example : (Parser.sample.parse "<p a=\"x\x7b\x7b y \x7d\x7dz\x7b\x7b\"/>").root.label.tag?.map
    (fun tag => tag.attributes.map Attribute.value) =
      some [[.literal "x" ⟨6, 7⟩, .template "y" ⟨7, 14⟩, .literal "z\x7b\x7b" ⟨14, 17⟩]] := by
  decide +kernel

end ProseMarkup
