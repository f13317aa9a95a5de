import ProseMarkup.Document
import ProseMarkup.Proofs.Lexing
import ProseMarkup.Proofs.Shift

namespace ProseMarkup

def Token.shift (d : Nat) (t : Token) : Token :=
  { t with start := t.start + d }

theorem Token.kind_shift (d : Nat) (t : Token) : (t.shift d).kind = t.kind := rfl

theorem Token.span_shift (d : Nat) (t : Token) : (t.shift d).span = t.span.shift d :=
  Span.ofText_shift ..

theorem Token.stop_shift (d : Nat) (t : Token) : (t.shift d).stop = t.stop + d := by
  rw [stop, span_shift]
  rfl

namespace Lexer

def shift (d : Nat) (l : Lexer) : Lexer :=
  { l with offset := l.offset + d }

theorem settled_shift (d : Nat) (l : Lexer) : (l.shift d).settled = l.settled.shift d := by
  obtain ⟨_ | ⟨c, cs⟩, offset, modes⟩ := l <;> rfl

theorem skipBlanks_shift (d : Nat) (l : Lexer) :
    (l.shift d).skipBlanks = l.skipBlanks.shift d := by
  by_cases h : l.mode.skipsBlanks
  · have h' : (l.shift d).mode.skipsBlanks := h
    rw [skipBlanks, skipBlanks, if_pos h, if_pos h', shift, shift, Nat.add_right_comm]
  · have h' : ¬(l.shift d).mode.skipsBlanks := h
    rw [skipBlanks, skipBlanks, if_neg h, if_neg h']

theorem take_shift (d : Nat) (l : Lexer) :
    (l.shift d).take = (l.take.1.map (·.shift d), l.take.2.shift d) := by
  by_cases h : l.rest = []
  · have h' : (l.shift d).rest = [] := h
    rw [take, take, if_pos h, if_pos h']
    rfl
  · have h' : ¬(l.shift d).rest = [] := h
    rw [take, take, if_neg h, if_neg h']
    simp only [shift, Option.map_some, Token.shift, mode, Nat.add_right_comm]

theorem next_shift (d : Nat) (l : Lexer) :
    (l.shift d).next = (l.next.1.map (·.shift d), l.next.2.shift d) := by
  rw [next, settled_shift, skipBlanks_shift, take_shift]
  rfl

theorem drain_shift (d : Nat) (l : Lexer) :
    (l.shift d).drain = (l.drain.1.map (·.shift d), l.drain.2.shift d) := by
  fun_induction drain l with
  | case1 l l' h =>
    have hn : (l.shift d).next = (none, l'.shift d) := by rw [next_shift, h]; rfl
    rw [drain_of_none hn]
    rfl
  | case2 l t l' h _ ts last hd ih =>
    have hn : (l.shift d).next = (some (t.shift d), l'.shift d) := by rw [next_shift, h]; rfl
    rw [drain_of_some hn, ih, hd]
    rfl

theorem tokens_shift (start d : Nat) (cs : List Char) :
    (ofText (start + d) cs).tokens = (ofText start cs).tokens.map (·.shift d) :=
  congrArg Prod.fst (drain_shift d (ofText start cs))

end Lexer

def Fragment.shift (d : Nat) : Fragment → Fragment
  | literal text span => literal text (span.shift d)
  | template expression span => template expression (span.shift d)

theorem Fragment.span_shift (d : Nat) (f : Fragment) : (f.shift d).span = f.span.shift d := by
  cases f <;> rfl

theorem Fragment.cons_shift (d : Nat) (f : Fragment) (fs : List Fragment) :
    (f.shift d).cons (fs.map (·.shift d)) = (f.cons fs).map (·.shift d) := by
  obtain ⟨text, span⟩ | _ := f
  · obtain _ | ⟨⟨text', span'⟩ | _, fs⟩ := fs
    · rfl
    · by_cases h : span.stop = span'.start
      · have h' : (span.shift d).stop = (span'.shift d).start := congrArg (· + d) h
        simp only [List.map_cons, shift, cons, h, h', if_true]
        rfl
      · have h' : ¬(span.shift d).stop = (span'.shift d).start := fun h' =>
          h (Nat.add_right_cancel h')
        simp only [List.map_cons, shift, cons, h, h', if_false]
    · rfl
  · cases fs <;> rfl

namespace Attribute

def shift (d : Nat) (a : Attribute) : Attribute :=
  ⟨a.key, a.keySpan.shift d, a.value.map (·.shift d), a.valueSpan.map (·.shift d)⟩

def Reading.shift {α : Type} (f : α → α) (d : Nat) (r : Reading α) : Reading α :=
  ⟨f r.value, r.notes.map (·.shift d), r.rest.map (·.shift d)⟩

theorem readTemplate_shift (d : Nat) (opened : Token) (inner : String) (ts : List Token) :
    readTemplate (opened.shift d) inner (ts.map (·.shift d)) =
      (readTemplate opened inner ts).shift (Fragment.shift d) d := by
  have unterminated (inner : String) (ts : List Token) :
      readTemplate.unterminated (opened.shift d) inner (ts.map (·.shift d)) =
        (readTemplate.unterminated opened inner ts).shift (Fragment.shift d) d := by
    simp only [readTemplate.unterminated, Token.shift, Span.ofText_shift]
    rfl
  induction ts generalizing inner with
  | nil => exact unterminated inner []
  | cons t ts ih =>
    rw [List.map_cons, readTemplate, readTemplate]
    rw [Token.kind_shift]
    split
    · simp only [Token.stop_shift]
      rfl
    · exact ih _
    · exact unterminated inner (t :: ts)

theorem readQuoted_shift (d stop : Nat) (opened : Token) (ts : List Token) :
    readQuoted (opened.shift d) (stop + d) (ts.map (·.shift d)) =
      (readQuoted opened stop ts).shift
        (fun x => (x.1.map (·.shift d), x.2.shift d)) d := by
  fun_induction readQuoted opened stop ts with
  | case1 =>
    rw [List.map_nil, readQuoted, Token.stop_shift]
    rfl
  | case2 t ts h =>
    rw [List.map_cons, readQuoted, Token.kind_shift, Token.stop_shift]
    simp only [h]
    rfl
  | case3 t ts h _ f r ih =>
    rw [List.map_cons, readQuoted, Token.kind_shift]
    simp only [h, readTemplate_shift, Reading.shift]
    rw [ih]
    simp only [Reading.shift, Fragment.cons_shift, List.map_append, f, r]
  | case4 t ts r hq ho ih =>
    rw [List.map_cons, readQuoted, Token.kind_shift]
    split
    · contradiction
    · contradiction
    · have hc := Fragment.cons_shift d (.literal t.text t.span) r.value.1
      rw [ih, Token.span_shift]
      simp only [Reading.shift, r, ← hc]
      rfl

theorem readValue_shift (d stop : Nat) (key equals : Token) (ts : List Token) :
    readValue (key.shift d) (equals.shift d) (stop + d) (ts.map (·.shift d)) =
      (readValue key equals stop ts).shift (shift d) d := by
  have missing (ts : List Token) :
      readValue.missing (key.shift d) (equals.shift d) (ts.map (·.shift d)) =
        (readValue.missing key equals ts).shift (shift d) d := by
    rw [readValue.missing, readValue.missing, withoutValue, Token.span_shift, Token.stop_shift]
    rfl
  have unquoted (r : Reading Fragment) :
      readValue.unquoted (key.shift d) (r.shift (Fragment.shift d) d) =
        (readValue.unquoted key r).shift (shift d) d := by
    rw [readValue.unquoted, readValue.unquoted, Token.span_shift]
    simp only [Reading.shift, Fragment.span_shift, List.map_append]
    rfl
  cases ts with
  | nil => exact missing []
  | cons t ts =>
    rw [List.map_cons, readValue, readValue, Token.kind_shift]
    split
    · rw [readQuoted_shift, Token.span_shift]
      rfl
    · rw [Token.span_shift]
      exact unquoted ⟨.literal t.text t.span, [], ts⟩
    · rw [Token.span_shift]
      exact unquoted ⟨.literal t.text t.span, [], ts⟩
    · rw [readTemplate_shift]
      exact unquoted _
    · exact missing (t :: ts)

theorem read_shift (d stop : Nat) (key : Token) (ts : List Token) :
    read (key.shift d) (stop + d) (ts.map (·.shift d)) =
      (read key stop ts).shift (shift d) d := by
  have unequal (ts : List Token) :
      withoutValue (key.shift d) (.missingEquals (key.shift d).span key.text) (ts.map (·.shift d)) =
        (withoutValue key (.missingEquals key.span key.text) ts).shift (shift d) d := by
    rw [withoutValue, withoutValue, Token.span_shift]
    rfl
  cases ts with
  | nil => exact unequal []
  | cons t ts =>
    rw [List.map_cons, read, read, Token.kind_shift]
    split
    · exact readValue_shift d stop key t ts
    · exact unequal (t :: ts)

theorem skipQuoted_shift (d : Nat) (ts : List Token) :
    skipQuoted (ts.map (·.shift d)) = (skipQuoted ts).map (·.shift d) := by
  rw [skipQuoted, skipQuoted, List.dropWhile_map, List.map_tail]
  rfl

theorem readAll_shift (d stop : Nat) (ts : List Token) :
    readAll (stop + d) (ts.map (·.shift d)) =
      ((readAll stop ts).1.map (·.shift d), (readAll stop ts).2.map (·.shift d)) := by
  fun_induction readAll stop ts with
  | case1 => simp [readAll]
  | case2 t ts h =>
    rw [List.map_cons, readAll, Token.kind_shift]
    simp only [h]
    rfl
  | case3 t ts h =>
    rw [List.map_cons, readAll, Token.kind_shift]
    simp only [h]
    rfl
  | case4 t ts h _ r attributes notes hr ih =>
    rw [List.map_cons, readAll, Token.kind_shift]
    rw [hr] at ih
    simp only [h, read_shift, Reading.shift]
    rw [ih]
    simp only [List.map_append, List.map_cons, r]
  | case5 t ts h _ attributes notes hr ih =>
    rw [List.map_cons, readAll, Token.kind_shift]
    rw [hr] at ih
    simp only [h, skipQuoted_shift, ih, Token.span_shift]
    rfl
  | case6 t ts h _ r attributes notes hr ih =>
    rw [List.map_cons, readAll, Token.kind_shift]
    rw [hr] at ih
    simp only [h, readTemplate_shift, Reading.shift]
    rw [ih]
    simp only [Fragment.span_shift, List.map_append, List.map_cons, r]
    rfl
  | case7 t ts attributes notes hr =>
    rename_i ih
    rw [List.map_cons, readAll, Token.kind_shift]
    rw [hr] at ih
    split
    iterate 5 contradiction
    rw [ih, Token.span_shift]
    rfl

end Attribute

namespace Tag

def shift (d : Nat) (t : Tag) : Tag :=
  ⟨t.cls, t.name, t.nameSpan.shift d, t.closeNameSpan.map (·.shift d), t.selfClosing,
    t.attributes.map (·.shift d)⟩

theorem openingName_shift (d : Nat) (given : Token) (ts : List Token) :
    openingName (given.shift d) (ts.map (·.shift d)) = (openingName given ts).shift d := by
  obtain _ | ⟨opened, _ | ⟨name, ts⟩⟩ := ts
  · rfl
  · rfl
  · simp only [List.map_cons, openingName, Token.kind_shift]
    exact (apply_ite (Token.shift d) _ _ _).symm

theorem closingName?_shift (d : Nat) (ts : List Token) :
    closingName? (ts.map (·.shift d)) = (closingName? ts).map (·.shift d) := by
  obtain _ | ⟨opened, _ | ⟨name, ts⟩⟩ := ts
  · rfl
  · rfl
  · simp only [List.map_cons, closingName?, Token.kind_shift]
    rw [apply_ite (Option.map (Token.shift d))]
    rfl

theorem mismatch_shift (d : Nat) (closing : Span) (name closeName : Token) :
    mismatch (closing.shift d) (name.shift d) (closeName.shift d) =
      (mismatch closing name closeName).map (·.shift d) := by
  simp only [mismatch, Token.shift]
  rw [apply_ite (List.map (Diagnostic.shift d))]
  rfl

theorem ofElement_shift (start d : Nat) (e : Element) :
    ofElement (start + d) e =
      ((ofElement start e).1.shift d, (ofElement start e).2.map (·.shift d)) := by
  have hstop : start + d + Text.size e.opening.text = start + Text.size e.opening.text + d :=
    Nat.add_right_comm ..
  have hgiven : (⟨.identifier, .ofList e.opening.name, start + d + 1⟩ : Token) =
      Token.shift d ⟨.identifier, .ofList e.opening.name, start + 1⟩ := by
    rw [Token.shift, Nat.add_right_comm]
  have hopening := Lexer.tokens_shift start d e.opening.text
  cases he : e.enclosed with
  | none =>
    simp only [ofElement, he, hstop, hgiven, hopening, ← List.map_drop, Attribute.readAll_shift,
      openingName_shift, Token.span_shift]
    rfl
  | some x =>
    obtain ⟨body, closing⟩ := x
    generalize hend : start + Text.size e.opening.text = stop at hstop
    have hclose : stop + d + Text.size body = stop + Text.size body + d := Nat.add_right_comm ..
    have hclosing := Lexer.tokens_shift (stop + Text.size body) d closing.text
    have hspan := Span.ofText_shift (stop + Text.size body) d closing.text
    simp only [ofElement, he, hend, hstop, hgiven, hclose, hopening, hclosing, hspan,
      ← List.map_drop, Attribute.readAll_shift, openingName_shift, closingName?_shift,
      Token.span_shift]
    obtain _ | closeName := closingName? _
    · simp only [Option.map_none, Option.toList_none, List.flatMap_nil, List.append_nil]
      rfl
    · simp only [Option.map_some, Option.toList_some, List.flatMap_singleton, mismatch_shift,
        Token.span_shift, ← List.map_append]
      rfl

end Tag

namespace Segment

def Shape.shift (d : Nat) : Shape → Shape
  | text => text
  | template expression => template expression
  | element tag => element (tag.shift d)

theorem Shape.ofPiece_shift (start d : Nat) (p : Piece) :
    ofPiece (start + d) p = (ofPiece start p).shift d := by
  cases p with
  | text | cut | template => rfl
  | element e =>
    rw [ofPiece, ofPiece, Tag.ofElement_shift]
    rfl

def move (n d : Nat) (s : Segment) : Segment :=
  ⟨s.id + n, s.span.shift d, s.content, s.shape.shift d⟩

theorem ofRegion_shift (id n d : Nat) (r : Region) :
    ofRegion (id + n) (r.shift d) = (ofRegion id r).move n d := by
  rw [ofRegion, ofRegion, move, Region.span_shift, Region.shift, Shape.ofPiece_shift]
  rfl

end Segment

end ProseMarkup
