import ProseMarkup.Proofs.Checked.Fragment
import ProseMarkup.Proofs.Checked.Lexer
import ProseMarkup.Proofs.Extents

namespace ProseMarkup

structure Diagnostic.Shows (source : List Char) (d : Diagnostic) : Prop where
  span : Text.IsSpan source d.span
  nonempty : d.span.start < d.span.stop

structure Token.Stands (source : List Char) (t : Token) : Prop where
  slice : Text.IsSlice source t.start t.stop t.text.toList
  nonempty : t.start < t.stop

theorem Token.Stands.isSpan {source : List Char} {t : Token} (h : t.Stands source) :
    Text.IsSpan source t.span :=
  Text.IsSlice.isSpan h.slice

structure Attribute.Stands (source : List Char) (a : Attribute) : Prop where
  key : Text.IsSlice source a.keySpan.start a.keySpan.stop a.key.toList
  fragments : ∀ f ∈ a.value, f.Stands source
  value : ∀ s ∈ a.valueSpan, Text.IsSpan source s

theorem Attribute.unterminated_eq {source : List Char} {opened : Token} {inner : String} {mid : Nat}
    (ho : Text.IsSlice source opened.start opened.stop opened.text.toList)
    (hi : Text.IsSlice source opened.stop mid inner.toList) (rest : List Token) :
    Text.IsSlice source opened.start mid (opened.text ++ inner).toList ∧
      readTemplate.unterminated opened inner rest =
        ⟨.literal (opened.text ++ inner) ⟨opened.start, mid⟩,
          [.unterminatedTemplate ⟨opened.start, mid⟩], rest⟩ := by
  have hslice := ho.append hi
  rw [← String.toList_append] at hslice
  refine ⟨hslice, ?_⟩
  rw [readTemplate.unterminated]
  simp only [Span.ofText, hslice.start_add]

namespace Lexer

open Text (size IsSlice)
open Token (Mode Shape)

/-- Holds of a lexer in a range of a source that ends at `stop`. -/
structure StandsIn (source : List Char) (stop : Nat) (l : Lexer) : Prop where
  stack : Stack l.modes
  slice : IsSlice source l.offset stop l.rest

variable {source : List Char} {stop : Nat} {l l' : Lexer} {t : Token}

theorem StandsIn.le (h : l.StandsIn source stop) : l.offset ≤ stop :=
  h.slice.le

theorem StandsIn.next (h : l.StandsIn source stop) : l.next.2.StandsIn source stop :=
  ⟨(call_next l).stack h.stack, Checked.isSlice_next h.slice⟩

theorem tokens_of_some (h : l.next = (some t, l')) : l.tokens = t :: l'.tokens := by
  rw [tokens, drain_of_some h]
  rfl

theorem tokens_of_none (h : l.next = (none, l')) : l.tokens = [] := by
  rw [tokens, drain_of_none h]

theorem tokens_of_rest_eq_nil (h : l.rest = []) : l.tokens = [] := by
  rcases hn : l.next with ⟨_ | t, l'⟩
  · exact tokens_of_none hn
  · have hlen := next_length hn
    rw [h] at hlen
    cases hlen

structure Takes (source : List Char) (stop : Nat) (l : Lexer) (t : Token) (l' : Lexer) : Prop where
  stands : l'.StandsIn source stop
  token : t.Stands source
  le : l.offset ≤ t.start
  stop_eq : t.stop = l'.offset

theorem StandsIn.takes (h : l.StandsIn source stop) (hn : l.next = (some t, l')) :
    Takes source stop l t l' := by
  have hstands := h.next
  have hcall := call_next l
  obtain ⟨hle, hlt, -⟩ := size_next hn
  rw [hn] at hstands hcall
  dsimp only at hstands hcall
  have hslice := h.slice
  cases hcall with
  | @token gap cs c hrest =>
    rw [hrest, ← l.settled.mode.read_append (c :: cs)] at hslice
    have hstop : Token.stop ⟨(l.settled.mode.read (c :: cs)).kind,
        .ofList (l.settled.mode.read (c :: cs)).text, l.offset + size gap⟩ =
          l.offset + size gap + size (l.settled.mode.read (c :: cs)).text := by
      rw [Token.stop_eq, String.toList_ofList]
    refine ⟨hstands, ⟨?_, ?_⟩, hle, hstop⟩
    · rw [hstop, String.toList_ofList]
      exact hslice.right.left
    · rw [hstop]
      exact hlt

theorem Takes.lt (h : Takes source stop l t l') : l.offset < l'.offset :=
  h.stop_eq ▸ Nat.lt_of_le_of_lt h.le h.token.nonempty

theorem StandsIn.ends (h : l.StandsIn source stop) (hn : l.next = (none, l')) :
    l'.StandsIn source stop ∧ l'.offset = stop ∧ l'.tokens = [] := by
  have hstands := h.next
  have hcall := call_next l
  rw [hn] at hstands hcall
  dsimp only at hstands hcall
  cases hcall with
  | stop =>
    exact ⟨hstands, hstands.slice.start_add, tokens_of_rest_eq_nil rfl⟩

theorem ne_template_of_shape {m : Mode} {text : List Char} (h : Shape m .templateOpen text)
    (enclosing : Option Char) : m ≠ .template enclosing := by
  cases h with
  | templateOpen hm => exact hm enclosing

theorem ne_value_of_shape {m : Mode} {kind : Token.Kind} {text : List Char} (h : Shape m kind text)
    (hk : kind = .rawText ∨ kind = .templateClose) (q : Char) : m ≠ .value q := by
  cases h with
  | templateClose hm => exact hm q
  | prose | lone | loose | expression => nofun
  | _ => obtain hk | hk := hk <;> cases hk

theorem transition_templateOpen {ms : List Mode} {x : Token.Lexeme} (hk : x.kind = .templateOpen)
    (hm : ∀ enclosing, ms.headD .content ≠ .template enclosing) :
    ∃ enclosing, (transition ms x).headD .content = .template enclosing := by
  obtain ⟨kind, text, rest⟩ := x
  obtain rfl : kind = .templateOpen := hk
  rw [transition]
  generalize ms.headD .content = m at hm
  cases m with
  | content | tag => exact ⟨none, rfl⟩
  | value q => exact ⟨some q, rfl⟩
  | template enclosing => exact absurd rfl (hm enclosing)

theorem mode_of_templateOpen (hs : Stack l.modes) (hn : l.next = (some t, l'))
    (hk : t.kind = .templateOpen) : ∃ enclosing, l'.mode = .template enclosing := by
  have hcall := call_next l
  rw [hn] at hcall
  have hshape := hcall.shape hs rfl
  rw [hk] at hshape
  cases hcall with
  | token => exact transition_templateOpen hk (ne_template_of_shape hshape)

/-- The text and the end of a template stand right where the lexer does. -/
theorem start_of_template (hs : Stack l.modes) {enclosing : Option Char}
    (hm : l.mode = .template enclosing) (hn : l.next = (some t, l'))
    (hk : t.kind = .rawText ∨ t.kind = .templateClose) :
    t.start = l.offset ∧ (t.kind = .rawText → l'.mode = .template enclosing) := by
  have hcall := call_next l
  rw [hn] at hcall
  have hvalue := ne_value_of_shape (hcall.shape hs rfl) hk
  -- no quote has ended the template
  have hsettled : l.settled.mode = .template enclosing := by
    obtain ⟨_ | ⟨c, cs⟩, offset, modes⟩ := l
    · exact hm
    · change (settle c modes).headD .content = _
      change ∀ q, (settle c modes).headD .content ≠ .value q at hvalue
      change modes.headD .content = _ at hm
      cases hs with
      | templateInValue hq =>
        rw [settle] at hvalue ⊢
        split
        · rw [if_pos ‹_›] at hvalue
          exact absurd rfl (hvalue _)
        · exact hm
      | _ => exact hm
  cases hcall with
  | @token gap cs c _ _ hgap =>
    have hnil : gap = [] := by
      by_contra hne
      have hskip := hgap hne
      rw [hsettled] at hskip
      cases hskip
    subst hnil
    refine ⟨rfl, fun hk => ?_⟩
    change (l.settled.mode.read (c :: cs)).kind = _ at hk
    change (transition l.settled.modes _).headD .content = _
    have hmode : l.settled.modes.headD .content = .template enclosing := hsettled
    have hmodes : transition l.settled.modes (l.settled.mode.read (c :: cs)) = l.settled.modes := by
      rw [transition, hmode]
      simp [Mode.opened?, Mode.endsWith, hk]
    rw [hmodes]
    exact hmode

end Lexer

namespace Checked

open Text (size IsSlice IsSpan IsBoundary)
open Lexer (StandsIn Takes)

variable {source : List Char} {stop : Nat} {l l' : Lexer} {t : Token}

theorem next_of_some (h : l.StandsIn source stop) (hn : l.next = (some t, l')) :
    (cursorOf stop l).next source = some (some t, cursorOf stop l') := by
  rw [next_eq h.stack h.slice, hn]

theorem next_of_none (h : l.StandsIn source stop) (hn : l.next = (none, l')) :
    (cursorOf stop l).next source = some (none, cursorOf stop l') := by
  rw [next_eq h.stack h.slice, hn]

theorem left_lt (h : l'.StandsIn source stop) (hlt : l.offset < l'.offset) :
    (cursorOf stop l').left < (cursorOf stop l).left := by
  have hle := h.le
  change stop - l'.offset < stop - l.offset
  omega

/-- What is read by offsets from a range, where `l` is left of it, is what is read from the tokens.
The value has the property `valid`, and every report shows a part of the source. -/
structure Reads {α : Type} (source : List Char) (stop lo : Nat) (valid : α → Prop)
    (p : Option (Parsed α)) (r : Attribute.Reading α) (l : Lexer) : Prop where
  result : p = some ⟨r.value, r.notes, cursorOf stop l⟩
  stands : l.StandsIn source stop
  tokens : l.tokens = r.rest
  le : lo ≤ l.offset
  value : valid r.value
  notes : ∀ d ∈ r.notes, d.Shows source

theorem Reads.mono {α : Type} {lo lo' : Nat} {valid : α → Prop} {p : Option (Parsed α)}
    {r : Attribute.Reading α} (h : Reads source stop lo valid p r l) (hle : lo' ≤ lo) :
    Reads source stop lo' valid p r l :=
  { h with le := Nat.le_trans hle h.le }

structure Filled (source : List Char) (f : Fragment) : Prop where
  stands : f.Stands source
  nonempty : f.span.start < f.span.stop

variable {opened : Token} {inner : String}

theorem unterminated_reads (ho : opened.Stands source)
    (hi : IsSlice source opened.stop l.offset inner.toList) (h : l.StandsIn source stop) :
    Reads source stop l.offset (Filled source)
      (unterminated source opened l.offset (cursorOf stop l))
      (Attribute.readTemplate.unterminated opened inner l.tokens) l := by
  obtain ⟨hslice, heq⟩ := Attribute.unterminated_eq ho.slice hi l.tokens
  have hlt : opened.start < l.offset := Nat.lt_of_lt_of_le ho.nonempty hi.le
  have hnote : (Diagnostic.unterminatedTemplate ⟨opened.start, l.offset⟩).Shows source :=
    ⟨IsSlice.isSpan hslice, hlt⟩
  rw [heq]
  refine ⟨?_, h, rfl, Nat.le_refl _, ⟨hslice, hlt⟩, List.forall_mem_singleton.mpr hnote⟩
  rw [unterminated, slice?_of hslice]
  simp only [Option.bind_eq_bind, Option.bind_some, String.ofList_toList]
  rfl

theorem parseTemplate_reads (ho : opened.Stands source) {enclosing : Option Char}
    (hi : IsSlice source opened.stop l.offset inner.toList) (h : l.StandsIn source stop)
    (hm : l.mode = .template enclosing) :
    ∃ l', Reads source stop l.offset (Filled source)
      (parseTemplate source opened l.offset (cursorOf stop l))
      (Attribute.readTemplate opened inner l.tokens) l' := by
  induction hlen : l.rest.length using Nat.strong_induction_on generalizing l inner with
  | _ len ih =>
    have hunterminated := unterminated_reads ho hi h
    rw [parseTemplate]
    rcases hn : l.next with ⟨_ | t, l'⟩
    · rw [Lexer.tokens_of_none hn] at hunterminated ⊢
      simp only [next_of_none h hn, Option.bind_eq_bind, Option.bind_some]
      exact ⟨l, hunterminated⟩
    · obtain ⟨hstands, htoken, hle, hstop⟩ := h.takes hn
      have hlt := (h.takes hn).lt
      have hend := Nat.le_of_lt hlt
      have hleft := left_lt (l := l) hstands hlt
      rw [Lexer.tokens_of_some hn] at hunterminated ⊢
      simp only [next_of_some h hn, Option.bind_eq_bind, Option.bind_some, assert?_of hleft]
      split
      · rename_i hk
        obtain ⟨hstart, -⟩ := Lexer.start_of_template h.stack hm hn (.inr hk)
        rw [Attribute.readTemplate]
        simp only [hk, hstart, slice?_of hi, Option.bind_some]
        have hfilled : opened.start < t.stop :=
          Nat.lt_of_lt_of_le ho.nonempty (Nat.le_trans hi.le (hstop ▸ hend))
        have hspan : IsSpan source ⟨opened.start, t.stop⟩ :=
          ⟨Nat.le_of_lt hfilled, ho.slice.isBoundary_start, htoken.slice.isBoundary_stop⟩
        exact ⟨l', rfl, hstands, rfl, hend, ⟨hspan, hfilled⟩, List.forall_mem_nil _⟩
      · rename_i hk
        obtain ⟨hstart, hmode⟩ := Lexer.start_of_template h.stack hm hn (.inl hk)
        have hinner : IsSlice source opened.stop l'.offset (inner ++ t.text).toList := by
          have hslice := htoken.slice
          rw [hstart, hstop] at hslice
          rw [String.toList_append]
          exact hi.append hslice
        have hless : l'.rest.length < len := hlen ▸ Lexer.next_length hn
        obtain ⟨last, hresult, hlast, htokens, hlo, hvalue, hnotes⟩ :=
          ih _ hless hinner hstands (hmode hk) rfl
        rw [Attribute.readTemplate]
        simp only [hk, hstop]
        exact ⟨last, hresult, hlast, htokens, Nat.le_trans hend hlo, hvalue, hnotes⟩
      · rename_i hclose hraw
        rw [Attribute.readTemplate]
        split
        · exact absurd ‹_› hclose
        · exact absurd ‹_› hraw
        · exact ⟨l, hunterminated⟩

theorem template_reads (h : l.StandsIn source stop) (hn : l.next = (some t, l'))
    (hk : t.kind = .templateOpen) :
    ∃ last, Reads source stop l'.offset (Filled source)
      (parseTemplate source t t.stop (cursorOf stop l'))
      (Attribute.readTemplate t "" l'.tokens) last := by
  obtain ⟨hstands, htoken, -, hstop⟩ := h.takes hn
  obtain ⟨enclosing, hm⟩ := Lexer.mode_of_templateOpen h.stack hn hk
  rw [hstop]
  refine parseTemplate_reads htoken ?_ hstands hm
  rw [hstop]
  exact Text.isSlice_nil hstands.slice.isBoundary_start

structure ValueStands (source : List Char) (x : List Fragment × Span) : Prop where
  fragments : ∀ f ∈ x.1, f.Stands source
  span : IsSpan source x.2

def behind (fs : List Fragment) (r : Attribute.Reading (List Fragment × Span)) :
    Attribute.Reading (List Fragment × Span) :=
  ⟨(fs.foldr Fragment.cons r.value.1, r.value.2), r.notes, r.rest⟩

theorem behind_foldr (fs : List Fragment) (f : Fragment)
    (r : Attribute.Reading (List Fragment × Span)) :
    behind (fs.foldr Fragment.cons [f]) r = behind fs (behind [f] r) := by
  rw [behind, behind, behind, Fragment.foldr_foldr]
  rfl

theorem parseQuoted_reads (ho : opened.Stands source) (hle : opened.stop ≤ l.offset)
    (h : l.StandsIn source stop) {fs : List Fragment} (hc : fs.IsChain Fragment.Apart)
    (hfs : ∀ g ∈ fs, g.Stands source) :
    ∃ last, Reads source stop l.offset (ValueStands source)
      (parseQuoted source opened fs (cursorOf stop l))
      (behind fs (Attribute.readQuoted opened stop l.tokens)) last := by
  induction hleft : stop - l.offset using Nat.strong_induction_on generalizing l fs with
  | _ left ih =>
    -- a fragment is pushed behind the others, and reading goes on
    have more {f : Fragment} {last : Lexer} (hlt : l.offset < last.offset)
        (hlast : last.StandsIn source stop) (hf : f.Stands source) :
        pushFragment source fs f = some (fs.foldr Fragment.cons [f]) ∧
          ∃ last', Reads source stop l.offset (ValueStands source)
            (parseQuoted source opened (fs.foldr Fragment.cons [f]) (cursorOf stop last))
            (behind fs (behind [f] (Attribute.readQuoted opened stop last.tokens))) last' := by
      have hless : stop - last.offset < left := by
        have hle := hlast.le
        omega
      have hone : ∀ g ∈ [f], g.Stands source := List.forall_mem_singleton.mpr hf
      obtain ⟨last', hr⟩ := ih _ hless (Nat.le_trans hle (Nat.le_of_lt hlt)) hlast
        (Fragment.isChain_foldr fs (.singleton f)) (Fragment.stands_foldr hfs hone) rfl
      rw [behind_foldr] at hr
      exact ⟨pushFragment_eq hc hfs hf, last', hr.mono (Nat.le_of_lt hlt)⟩
    rw [parseQuoted]
    rcases hn : l.next with ⟨_ | t, l'⟩
    · obtain ⟨hstands, hstop, htokens⟩ := h.ends hn
      have hfilled : opened.start < stop :=
        Nat.lt_of_lt_of_le ho.nonempty (Nat.le_trans hle h.le)
      have hboundary := h.slice.isBoundary_stop
      simp only [next_of_none h hn, Option.bind_eq_bind, Option.bind_some]
      rw [Lexer.tokens_of_none hn, Attribute.readQuoted, behind]
      dsimp only
      rw [Fragment.foldr_eq_self hc]
      refine ⟨l', ?_, hstands, htokens, hstop ▸ h.le, ⟨hfs, ?_⟩, ?_⟩
      · rw [cursorOf, hstop]
        rfl
      · exact ⟨Nat.le_trans hle h.le, ho.slice.isBoundary_stop, hboundary⟩
      · exact List.forall_mem_singleton.mpr
          ⟨⟨Nat.le_of_lt hfilled, ho.slice.isBoundary_start, hboundary⟩, hfilled⟩
    · obtain ⟨hstands, htoken, hstart, hstop⟩ := h.takes hn
      have hlt := (h.takes hn).lt
      simp only [next_of_some h hn, Option.bind_eq_bind, Option.bind_some,
        assert?_of (left_lt (l := l) hstands hlt)]
      rw [Lexer.tokens_of_some hn]
      split
      · rename_i hk
        rw [Attribute.readQuoted]
        simp only [hk, behind, Fragment.foldr_eq_self hc]
        exact ⟨l', rfl, hstands, rfl, Nat.le_of_lt hlt, ⟨hfs, Nat.le_trans hle hstart,
          ho.slice.isBoundary_stop, htoken.slice.isBoundary_start⟩, List.forall_mem_nil _⟩
      · rename_i hk
        obtain ⟨last, hf⟩ := template_reads h hn hk
        have hlast : l.offset < last.offset := Nat.lt_of_lt_of_le hlt hf.le
        obtain ⟨hpush, last', hr⟩ := more hlast hf.stands hf.value.stands
        rw [hf.tokens] at hr
        rw [Attribute.readQuoted]
        simp only [hk, hf.result, Option.bind_some, hpush, assert?_of (left_lt hf.stands hlast),
          hr.result]
        exact ⟨last', rfl, hr.stands, hr.tokens, hr.le, hr.value,
          List.forall_mem_append.mpr ⟨hf.notes, hr.notes⟩⟩
      · rename_i hquote hopen
        obtain ⟨hpush, last', hr⟩ := more (f := .literal t.text t.span) hlt hstands htoken.slice
        simp only [hpush, Option.bind_some]
        rw [Attribute.readQuoted]
        split
        · exact absurd ‹_› hquote
        · exact absurd ‹_› hopen
        · exact ⟨last', hr⟩

variable {key : Token}

theorem withoutValue_reads {note : Diagnostic} (hk : key.Stands source) (hn : note.Shows source)
    (h : l.StandsIn source stop) :
    Reads source stop l.offset (Attribute.Stands source)
      (some (withoutValue key note (cursorOf stop l)))
      (Attribute.withoutValue key note l.tokens) l := by
  exact ⟨rfl, h, rfl, Nat.le_refl _, ⟨hk.slice, List.forall_mem_nil _, nofun⟩,
    List.forall_mem_singleton.mpr hn⟩

theorem unquoted_reads {lo : Nat} {p : Parsed Fragment} {r : Attribute.Reading Fragment}
    (hk : key.Stands source) (h : Reads source stop lo (Filled source) (some p) r l) :
    Reads source stop lo (Attribute.Stands source) (some (unquoted key p))
      (Attribute.readValue.unquoted key r) l := by
  have hp := Option.some.inj h.result
  have hspan := h.value.stands.isSpan
  have hnote : (Diagnostic.unquotedAttributeValue r.value.span key.text).Shows source :=
    ⟨hspan, h.value.nonempty⟩
  refine ⟨by rw [hp]; rfl, h.stands, h.tokens, h.le, ⟨hk.slice, ?_, ?_⟩, ?_⟩
  · exact List.forall_mem_singleton.mpr h.value.stands
  · rintro _ ⟨⟩
    exact hspan
  · exact List.forall_mem_append.mpr ⟨h.notes, List.forall_mem_singleton.mpr hnote⟩

theorem parseValue_reads {equals : Token} (hk : key.Stands source) (he : equals.Stands source)
    (hle : key.stop ≤ equals.start) (h : l.StandsIn source stop) :
    ∃ last, Reads source stop l.offset (Attribute.Stands source)
      (parseValue source key equals (cursorOf stop l))
      (Attribute.readValue key equals stop l.tokens) last := by
  have hfilled : key.start < equals.stop :=
    Nat.lt_of_lt_of_le hk.nonempty (Nat.le_trans hle (Nat.le_of_lt he.nonempty))
  have hnote : (Diagnostic.missingValue ⟨key.start, equals.stop⟩ key.text).Shows source :=
    ⟨⟨Nat.le_of_lt hfilled, hk.slice.isBoundary_start, he.slice.isBoundary_stop⟩, hfilled⟩
  have hmissing := withoutValue_reads hk hnote h
  rw [parseValue]
  rcases hn : l.next with ⟨_ | t, l'⟩
  · rw [Lexer.tokens_of_none hn] at hmissing ⊢
    simp only [next_of_none h hn, Option.bind_eq_bind, Option.bind_some]
    exact ⟨l, hmissing⟩
  · obtain ⟨hstands, htoken, -, hstop⟩ := h.takes hn
    have hlo := Nat.le_of_lt (h.takes hn).lt
    have hliteral : Reads source stop l.offset (Filled source)
        (some ⟨.literal t.text t.span, [], cursorOf stop l'⟩)
        ⟨.literal t.text t.span, [], l'.tokens⟩ l' :=
      ⟨rfl, hstands, rfl, hlo, ⟨htoken.slice, htoken.nonempty⟩, List.forall_mem_nil _⟩
    rw [Lexer.tokens_of_some hn] at hmissing ⊢
    simp only [next_of_some h hn, Option.bind_eq_bind, Option.bind_some]
    split
    · rename_i hkind
      obtain ⟨last, hr⟩ := parseQuoted_reads htoken (Nat.le_of_eq hstop) hstands .nil
        (List.forall_mem_nil _)
      rw [Attribute.readValue]
      simp only [hkind, hr.result, Option.bind_some]
      refine ⟨last, rfl, hr.stands, hr.tokens, Nat.le_trans hlo hr.le,
        ⟨hk.slice, hr.value.fragments, ?_⟩, hr.notes⟩
      rintro _ ⟨⟩
      exact hr.value.span
    · rename_i hkind
      rw [Attribute.readValue]
      simp only [hkind]
      exact ⟨l', unquoted_reads hk hliteral⟩
    · rename_i hkind
      rw [Attribute.readValue]
      simp only [hkind]
      exact ⟨l', unquoted_reads hk hliteral⟩
    · rename_i hkind
      obtain ⟨last, hr⟩ := template_reads h hn hkind
      have hread := hr.mono hlo
      rw [hr.result] at hread
      rw [Attribute.readValue]
      simp only [hkind, hr.result, Option.bind_some]
      exact ⟨last, unquoted_reads hk hread⟩
    · rename_i hquote hidentifier hraw hopen
      rw [Attribute.readValue]
      split
      · exact absurd ‹_› hquote
      · exact absurd ‹_› hidentifier
      · exact absurd ‹_› hraw
      · exact absurd ‹_› hopen
      · exact ⟨l, hmissing⟩

theorem parseAttribute_reads (hk : key.Stands source) (hle : key.stop ≤ l.offset)
    (h : l.StandsIn source stop) :
    ∃ last, Reads source stop l.offset (Attribute.Stands source)
      (parseAttribute source key (cursorOf stop l)) (Attribute.read key stop l.tokens) last := by
  have hnote : (Diagnostic.missingEquals key.span key.text).Shows source := ⟨hk.isSpan, hk.nonempty⟩
  have hmissing := withoutValue_reads hk hnote h
  rw [parseAttribute]
  rcases hn : l.next with ⟨_ | t, l'⟩
  · rw [Lexer.tokens_of_none hn] at hmissing ⊢
    simp only [next_of_none h hn, Option.bind_eq_bind, Option.bind_some]
    exact ⟨l, hmissing⟩
  · obtain ⟨hstands, htoken, hstart, -⟩ := h.takes hn
    rw [Lexer.tokens_of_some hn] at hmissing ⊢
    simp only [next_of_some h hn, Option.bind_eq_bind, Option.bind_some]
    rw [Attribute.read]
    split
    · obtain ⟨last, hr⟩ := parseValue_reads hk htoken (Nat.le_trans hle hstart) hstands
      exact ⟨last, hr.mono (Nat.le_of_lt (h.takes hn).lt)⟩
    · exact ⟨l, hmissing⟩

theorem skipQuoted_cons (t : Token) (ts : List Token) : Attribute.skipQuoted (t :: ts) =
    if t.kind = .quote then ts else Attribute.skipQuoted ts := by
  by_cases hk : t.kind = .quote <;> simp [Attribute.skipQuoted, hk]

theorem skipValue_eq (h : l.StandsIn source stop) :
    ∃ last, skipValue source (cursorOf stop l) = some (cursorOf stop last) ∧
      last.StandsIn source stop ∧ last.tokens = Attribute.skipQuoted l.tokens ∧
        l.offset ≤ last.offset := by
  induction hlen : l.rest.length using Nat.strong_induction_on generalizing l with
  | _ len ih =>
    rw [skipValue]
    rcases hn : l.next with ⟨_ | t, l'⟩
    · obtain ⟨hstands, hstop, htokens⟩ := h.ends hn
      simp only [next_of_none h hn, Option.bind_eq_bind, Option.bind_some]
      rw [Lexer.tokens_of_none hn]
      exact ⟨l', rfl, hstands, htokens, hstop ▸ h.le⟩
    · have hlt := (h.takes hn).lt
      have hstands := (h.takes hn).stands
      simp only [next_of_some h hn, Option.bind_eq_bind, Option.bind_some,
        assert?_of (left_lt (l := l) hstands hlt)]
      rw [Lexer.tokens_of_some hn, skipQuoted_cons]
      split
      · exact ⟨l', rfl, hstands, rfl, Nat.le_of_lt hlt⟩
      · obtain ⟨last, hresult, hlast, htokens, hle⟩ :=
          ih _ (hlen ▸ Lexer.next_length hn) hstands rfl
        exact ⟨last, hresult, hlast, htokens, Nat.le_trans (Nat.le_of_lt hlt) hle⟩

structure ReadsAll (source : List Char) (p : Option (List Attribute × List Diagnostic))
    (r : List Attribute × List Diagnostic) : Prop where
  result : p = some r
  attributes : ∀ a ∈ r.1, a.Stands source
  notes : ∀ d ∈ r.2, d.Shows source

/-- The attributes of a tag are read. -/
theorem parseAttributes_reads (h : l.StandsIn source stop) :
    ReadsAll source (parseAttributes source (cursorOf stop l))
      (Attribute.readAll stop l.tokens) := by
  induction hleft : stop - l.offset using Nat.strong_induction_on generalizing l with
  | _ left ih =>
    rw [parseAttributes]
    rcases hn : l.next with ⟨_ | t, l'⟩
    · simp only [next_of_none h hn, Option.bind_eq_bind, Option.bind_some]
      rw [Lexer.tokens_of_none hn, Attribute.readAll]
      exact ⟨rfl, List.forall_mem_nil _, List.forall_mem_nil _⟩
    · obtain ⟨hstands, htoken, -, hstop⟩ := h.takes hn
      have hlt := (h.takes hn).lt
      have rest {last : Lexer} (hlast : last.StandsIn source stop) (hle : l'.offset ≤ last.offset) :
          ReadsAll source (parseAttributes source (cursorOf stop last))
            (Attribute.readAll stop last.tokens) := by
        have hless : stop - last.offset < left := by
          have hle := hlast.le
          omega
        exact ih _ hless hlast rfl
      simp only [next_of_some h hn, Option.bind_eq_bind, Option.bind_some,
        assert?_of (left_lt (l := l) hstands hlt)]
      rw [Lexer.tokens_of_some hn]
      split
      · rename_i hk
        rw [Attribute.readAll]
        simp only [hk]
        exact ⟨rfl, List.forall_mem_nil _, List.forall_mem_nil _⟩
      · rename_i hk
        rw [Attribute.readAll]
        simp only [hk]
        exact ⟨rfl, List.forall_mem_nil _, List.forall_mem_nil _⟩
      · rename_i hk
        obtain ⟨last, hr⟩ := parseAttribute_reads htoken (Nat.le_of_eq hstop) hstands
        have hrest := rest hr.stands hr.le
        rw [hr.tokens] at hrest
        rw [Attribute.readAll]
        simp only [hk, hr.result, Option.bind_some, hrest.result,
          assert?_of (left_lt (l := l) hr.stands (Nat.lt_of_lt_of_le hlt hr.le))]
        exact ⟨rfl, List.forall_mem_cons.mpr ⟨hr.value, hrest.attributes⟩,
          List.forall_mem_append.mpr ⟨hr.notes, hrest.notes⟩⟩
      · rename_i hk
        obtain ⟨last, hskip, hlast, htokens, hle⟩ := skipValue_eq hstands
        have hrest := rest hlast hle
        have hnote : (Diagnostic.strayQuote t.span t.text).Shows source :=
          ⟨htoken.isSpan, htoken.nonempty⟩
        rw [htokens] at hrest
        rw [Attribute.readAll]
        simp only [hk, hskip, Option.bind_some, hrest.result,
          assert?_of (left_lt (l := l) hlast (Nat.lt_of_lt_of_le hlt hle))]
        exact ⟨rfl, hrest.attributes, List.forall_mem_cons.mpr ⟨hnote, hrest.notes⟩⟩
      · rename_i hk
        obtain ⟨last, hr⟩ := template_reads h hn hk
        have hrest := rest hr.stands hr.le
        have hnote : (Diagnostic.unexpectedTemplate
            (Attribute.readTemplate t "" l'.tokens).value.span).Shows source :=
          ⟨hr.value.stands.isSpan, hr.value.nonempty⟩
        rw [hr.tokens] at hrest
        rw [Attribute.readAll]
        simp only [hk, hr.result, Option.bind_some, hrest.result,
          assert?_of (left_lt (l := l) hr.stands (Nat.lt_of_lt_of_le hlt hr.le))]
        exact ⟨rfl, hrest.attributes, List.forall_mem_append.mpr
          ⟨hr.notes, List.forall_mem_cons.mpr ⟨hnote, hrest.notes⟩⟩⟩
      · rename_i hend hself hkey hquote hopen
        have hrest := rest hstands (Nat.le_refl _)
        have hnote : (Diagnostic.unexpectedToken t.span t.text).Shows source :=
          ⟨htoken.isSpan, htoken.nonempty⟩
        simp only [hrest.result, Option.bind_some]
        rw [Attribute.readAll]
        split
        · exact absurd ‹_› hend
        · exact absurd ‹_› hself
        · exact absurd ‹_› hkey
        · exact absurd ‹_› hquote
        · exact absurd ‹_› hopen
        · exact ⟨rfl, hrest.attributes, List.forall_mem_cons.mpr ⟨hnote, hrest.notes⟩⟩

end Checked

end ProseMarkup
