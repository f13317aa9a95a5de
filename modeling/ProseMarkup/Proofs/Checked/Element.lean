import ProseMarkup.Proofs.Checked.Outline
import ProseMarkup.Proofs.Checked.Tag

namespace ProseMarkup

structure Tag.Stands (source : List Char) (tag : Tag) : Prop where
  name : Text.IsSlice source tag.nameSpan.start tag.nameSpan.stop tag.name.toList
  closeName : ∀ s ∈ tag.closeNameSpan, Text.IsSpan source s
  attributes : ∀ a ∈ tag.attributes, a.Stands source

namespace Tag

theorem mem_of_closingName? {ts : List Token} {t : Token} (h : closingName? ts = some t) :
    t ∈ ts := by
  rcases ts with _ | ⟨opened, _ | ⟨name, ts⟩⟩
  · cases h
  · cases h
  · rw [closingName?] at h
    split at h
    · obtain rfl := Option.some.inj h
      simp
    · cases h

theorem eq_of_mem_mismatch {closing : Span} {name closeName : Token} {d : Diagnostic}
    (h : d ∈ mismatch closing name closeName) :
    d = .closingTagMismatch closing closeName.text name.text := by
  rw [mismatch] at h
  split at h
  · cases h
  · exact List.mem_singleton.mp h

end Tag

namespace Lexer

open Text (IsSlice)

variable {source part : List Char} {start stop : Nat} {l : Lexer}

theorem standsIn_ofText (h : IsSlice source start stop part) :
    (ofText start part).StandsIn source stop :=
  ⟨.content, h⟩

theorem StandsIn.tokens_next (h : l.StandsIn source stop) :
    l.next.1 = l.tokens.head? ∧ l.next.2.tokens = l.tokens.tail := by
  rcases hn : l.next with ⟨_ | t, l'⟩
  · rw [tokens_of_none hn]
    exact ⟨rfl, (h.ends hn).2.2⟩
  · rw [tokens_of_some hn]
    exact ⟨rfl, rfl⟩

theorem StandsIn.tokens (h : l.StandsIn source stop) : ∀ t ∈ l.tokens, t.Stands source := by
  induction hlen : l.rest.length using Nat.strong_induction_on generalizing l with
  | _ len ih =>
    rcases hn : l.next with ⟨_ | t, l'⟩
    · rw [tokens_of_none hn]
      exact List.forall_mem_nil _
    · have htakes := h.takes hn
      rw [tokens_of_some hn]
      exact List.forall_mem_cons.mpr
        ⟨htakes.token, ih _ (hlen ▸ next_length hn) htakes.stands rfl⟩

theorem start_of_mem_head? {c : Char} {cs : List Char} (hc : Text.isBlank c = false) {t : Token}
    (ht : t ∈ (ofText start (c :: cs)).tokens.head?) : t.start = start := by
  have hcall := call_next (ofText start (c :: cs))
  rcases hn : (ofText start (c :: cs)).next with ⟨_ | u, l'⟩
  · rw [tokens_of_none hn] at ht
    cases ht
  · rw [tokens_of_some hn] at ht
    obtain rfl := Option.some.inj ht
    rw [hn] at hcall
    cases hcall with
    | @token gap ds d hrest hgap =>
      rcases gap with _ | ⟨g, gap⟩
      · rfl
      · have hblank := hgap g List.mem_cons_self
        have hhead : c :: cs = g :: gap ++ d :: ds := hrest
        rw [← (List.cons.inj hhead).1, hc] at hblank
        cases hblank

end Lexer

namespace Checked

open Text (size IsSlice IsSpan)
open Lexer (StandsIn standsIn_ofText)

variable {source part : List Char} {start stop : Nat} {l : Lexer}

theorem ofRange_eq (h : IsSlice source start stop part) :
    Cursor.ofRange source start stop = cursorOf stop (Lexer.ofText start part) := by
  have hstop : min stop (size source) = stop := Nat.min_eq_left h.isBoundary_stop.le_size
  rw [Cursor.ofRange, hstop, Nat.min_eq_left h.le]
  rfl

theorem next_tokens (h : l.StandsIn source stop) :
    (cursorOf stop l).next source = some (l.tokens.head?, cursorOf stop l.next.2) := by
  rw [next_eq h.stack h.slice, h.tokens_next.1]

theorem parseClosingTag_eq {closing : ClosingTag} {name : Token}
    (h : IsSlice source start stop closing.text)
    (hn : IsSlice source name.start name.stop name.text.toList) :
    parseClosingTag source ⟨start, stop⟩ name.span =
      some ((Tag.closingName? (Lexer.ofText start closing.text).tokens).map Token.span,
        (Tag.closingName? (Lexer.ofText start closing.text).tokens).toList.flatMap
          (Tag.mismatch (.ofText start closing.text) name)) := by
  have hl := standsIn_ofText h
  have hstart (t : Token) (ht : t ∈ (Lexer.ofText start closing.text).tokens.head?) :
      t.start = start := Lexer.start_of_mem_head? (by decide) ht
  have hspan : Span.ofText start closing.text = ⟨start, stop⟩ := by
    rw [Span.ofText, h.start_add]
  have htext : slice? source name.span.start name.span.stop = some name.text.toList :=
    slice?_of hn
  rw [parseClosingTag, ofRange_eq h, next_tokens hl, hspan]
  simp only [Option.bind_eq_bind, Option.bind_some, next_tokens hl.next, hl.tokens_next.2, htext,
    String.ofList_toList]
  generalize (Lexer.ofText start closing.text).tokens = ts at hstart ⊢
  rcases ts with _ | ⟨opened, _ | ⟨closeName, ts⟩⟩
  · rfl
  · by_cases hopened : opened.kind = .closingTagStart
    · simp only [List.head?_cons, List.tail_cons, List.head?_nil, Option.filter_some, hopened,
        decide_true, if_true, Option.filter_none]
      rfl
    · simp only [List.head?_cons, Option.filter_some, hopened, decide_false, Bool.false_eq_true,
        if_false]
      rfl
  · obtain rfl := hstart opened rfl
    by_cases hopened : opened.kind = .closingTagStart
    · by_cases hname : closeName.kind = .identifier
      · simp only [List.head?_cons, List.tail_cons, Option.filter_some, hopened, hname, decide_true,
          if_true, Tag.closingName?, and_self, Option.map_some, Option.toList_some,
          List.flatMap_cons, List.flatMap_nil, List.append_nil, Tag.mismatch]
        split <;> rfl
      · simp only [List.head?_cons, List.tail_cons, Option.filter_some, hopened, hname, decide_true,
          decide_false, if_true, Bool.false_eq_true, if_false, Tag.closingName?, and_false]
        rfl
    · simp only [List.head?_cons, Option.filter_some, hopened, decide_false, Bool.false_eq_true,
        if_false, Tag.closingName?, false_and]
      rfl

theorem stands_closingName {closing : ClosingTag} (name : Token)
    (h : IsSlice source start stop closing.text) :
    (∀ s ∈ (Tag.closingName? (Lexer.ofText start closing.text).tokens).map Token.span,
        IsSpan source s) ∧
      ∀ d ∈ (Tag.closingName? (Lexer.ofText start closing.text).tokens).toList.flatMap
        (Tag.mismatch (.ofText start closing.text) name), d.Shows source := by
  have hspan : Span.ofText start closing.text = ⟨start, stop⟩ := by
    rw [Span.ofText, h.start_add]
  constructor
  · intro s hs
    obtain ⟨t, ht, rfl⟩ := Option.map_eq_some_iff.mp hs
    exact ((standsIn_ofText h).tokens t (Tag.mem_of_closingName? ht)).isSpan
  · intro d hd
    obtain ⟨closeName, -, hd⟩ := List.mem_flatMap.mp hd
    obtain rfl := Tag.eq_of_mem_mismatch hd
    rw [hspan]
    exact ⟨IsSlice.isSpan h, h.lt closing.text_ne_nil⟩

theorem isSlice_closing {e : Element} {body : List Char} {closing : ClosingTag}
    (he : e.enclosed = some (body, closing)) (h : IsSlice source start stop e.text) :
    IsSlice source (start + size e.opening.text + size body) (start + size e.text)
      closing.text := by
  rw [h.start_add]
  rw [Element.text, Element.tail, he] at h
  exact h.right.right

theorem openingName_eq (given : Token) (ts : List Token) :
    openingName given.span ts.head? ts.tail.head? = (Tag.openingName given ts).span := by
  rcases ts with _ | ⟨opened, _ | ⟨name, ts⟩⟩
  · rfl
  · rfl
  · simp only [List.head?_cons, List.tail_cons, openingName, Tag.openingName]
    split <;> rfl

theorem isSlice_openingName (given : Token) {ts : List Token}
    (hg : IsSlice source given.start given.stop given.text.toList)
    (h : ∀ t ∈ ts, t.Stands source) :
    IsSlice source (Tag.openingName given ts).start (Tag.openingName given ts).stop
      (Tag.openingName given ts).text.toList := by
  rcases ts with _ | ⟨opened, _ | ⟨name, ts⟩⟩
  · exact hg
  · exact hg
  · rw [Tag.openingName]
    split
    · exact (h name (by simp)).slice
    · exact hg

theorem parseElement_eq {e : Element} (h : IsSlice source start stop e.text) :
    parseElement source start (start + size e.opening.text) (closingOf start e)
        (.ofText (start + 1) e.opening.name) =
      some (⟨(Tag.ofElement start e).1.nameSpan, (Tag.ofElement start e).1.attributes,
        (Tag.ofElement start e).1.closeNameSpan⟩, (Tag.ofElement start e).2) ∧
      (Tag.ofElement start e).1.Stands source ∧
        ∀ d ∈ (Tag.ofElement start e).2, d.Shows source := by
  have hsplit := h
  rw [Element.text] at hsplit
  have hl := standsIn_ofText hsplit.left
  have hgiven := isSlice_name hsplit
  rw [← String.toList_ofList (l := e.opening.name)] at hgiven
  have hname :=
    isSlice_openingName ⟨.identifier, .ofList e.opening.name, start + 1⟩ hgiven hl.tokens
  have hspan : Span.ofText (start + 1) e.opening.name =
      Token.span ⟨.identifier, .ofList e.opening.name, start + 1⟩ := by
    rw [Token.span, String.toList_ofList]
  have hdrop (ts : List Token) : ts.tail.tail = ts.drop 2 := by
    rw [← List.drop_one, List.drop_tail]
  obtain ⟨hread, hattributes, hnotes⟩ := parseAttributes_reads hl.next.next
  rw [hl.next.tokens_next.2, hl.tokens_next.2, hdrop] at hread hattributes hnotes
  rw [parseElement, ofRange_eq hsplit.left, next_tokens hl]
  simp only [Option.bind_eq_bind, Option.bind_some, next_tokens hl.next, hl.tokens_next.2, hread,
    hspan, openingName_eq]
  rw [Tag.ofElement]
  cases he : e.enclosed with
  | none =>
    simp only [closingOf, he, Option.map_none]
    exact ⟨rfl, ⟨hname, by rintro _ ⟨⟩, hattributes⟩, hnotes⟩
  | some x =>
    obtain ⟨body, closing⟩ := x
    have hclose := isSlice_closing he h
    have hclosing := stands_closingName
      (Tag.openingName ⟨.identifier, .ofList e.opening.name, start + 1⟩
        (Lexer.ofText start e.opening.text).tokens) hclose
    simp only [closingOf, he, Option.map_some, Option.bind_some, parseClosingTag_eq hclose hname]
    exact ⟨rfl, ⟨hname, hclosing.1, hattributes⟩, List.forall_mem_append.mpr ⟨hnotes, hclosing.2⟩⟩

end Checked

end ProseMarkup
