import ProseMarkup.Proofs.LetterCase.Regions
import ProseMarkup.Proofs.LetterCase.Tokens

namespace ProseMarkup

namespace Fragment

def fold : Fragment → Fragment
  | literal text span => literal (Text.lower text) span
  | template expression span => template (Text.lower expression) span

theorem span_fold (f : Fragment) : f.fold.span = f.span := by
  cases f <;> rfl

theorem cons_fold (f : Fragment) (fs : List Fragment) :
    f.fold.cons (fs.map fold) = (f.cons fs).map fold := by
  obtain ⟨text, span⟩ | _ := f
  · obtain _ | ⟨⟨text', span'⟩ | _, fs⟩ := fs
    · rfl
    · by_cases h : span.stop = span'.start
      · simp only [List.map_cons, fold, cons, h, if_true, Text.lower_append]
      · simp only [List.map_cons, fold, cons, h, if_false]
    · rfl
  · cases fs <;> rfl

end Fragment

namespace Attribute

def fold (a : Attribute) : Attribute :=
  ⟨Text.lower a.key, a.keySpan, a.value.map Fragment.fold, a.valueSpan⟩

def Reading.mute {α : Type} (r : Reading α) : Reading α :=
  { r with notes := r.notes.map Diagnostic.mute }

def Reading.fold {α : Type} (f : α → α) (r : Reading α) : Reading α :=
  ⟨f r.value, r.notes.map Diagnostic.mute, r.rest.map Token.fold⟩

theorem Reading.of_mute_eq {α : Type} {r r' : Reading α} {f : α → α} (h : r'.mute = r.fold f) :
    r'.value = f r.value ∧ r'.notes.map Diagnostic.mute = r.notes.map Diagnostic.mute ∧
      r'.rest = r.rest.map Token.fold :=
  ⟨congrArg value h, congrArg notes h, congrArg rest h⟩

theorem readTemplate_fold (opened : Token) (inner : String) (ts : List Token) :
    (readTemplate opened.fold (Text.lower inner) (ts.map Token.fold)).mute =
      (readTemplate opened inner ts).fold Fragment.fold := by
  have unterminated (inner : String) (ts : List Token) :
      (readTemplate.unterminated opened.fold (Text.lower inner) (ts.map Token.fold)).mute =
        (readTemplate.unterminated opened inner ts).fold Fragment.fold := by
    have hspan : Span.ofText opened.start (Text.lower (opened.text ++ inner)).toList =
        .ofText opened.start (opened.text ++ inner).toList := by
      rw [Text.toList_lower, Span.ofText_fold]
    simp only [readTemplate.unterminated, Token.fold, ← Text.lower_append, hspan]
    rfl
  induction ts generalizing inner with
  | nil => exact unterminated inner []
  | cons t ts ih =>
    rw [List.map_cons, readTemplate, readTemplate, Token.kind_fold]
    split
    · rw [Text.toList_lower, Text.trim_fold, ← Text.lower_ofList, Token.stop_fold]
      rfl
    · rw [show t.fold.text = Text.lower t.text from rfl, ← Text.lower_append]
      exact ih _
    · exact unterminated inner (t :: ts)

theorem readTemplate_fold_empty (opened : Token) (ts : List Token) :
    (readTemplate opened.fold "" (ts.map Token.fold)).mute =
      (readTemplate opened "" ts).fold Fragment.fold :=
  readTemplate_fold opened "" ts

theorem readQuoted_fold (stop : Nat) (opened : Token) (ts : List Token) :
    (readQuoted opened.fold stop (ts.map Token.fold)).mute =
      (readQuoted opened stop ts).fold fun x => (x.1.map Fragment.fold, x.2) := by
  fun_induction readQuoted opened stop ts with
  | case1 =>
    rw [List.map_nil, readQuoted, Token.stop_fold]
    rfl
  | case2 t ts h =>
    rw [List.map_cons, readQuoted, Token.kind_fold, Token.stop_fold]
    simp only [h]
    rfl
  | case3 t ts h _ f r ih =>
    obtain ⟨hvalue, hnotes, hrest⟩ := Reading.of_mute_eq (readTemplate_fold_empty t ts)
    obtain ⟨hvalue', hnotes', hrest'⟩ := Reading.of_mute_eq ih
    rw [List.map_cons, readQuoted, Token.kind_fold]
    simp only [h, hrest, Reading.mute, Reading.fold, List.map_append, hnotes, hvalue]
    rw [hvalue', hnotes', hrest']
    simp only [Fragment.cons_fold, f, r]
  | case4 t ts r hq ho ih =>
    obtain ⟨hvalue, hnotes, hrest⟩ := Reading.of_mute_eq ih
    rw [List.map_cons, readQuoted, Token.kind_fold]
    split
    · contradiction
    · contradiction
    · have hcons := Fragment.cons_fold (.literal t.text t.span) r.value.1
      simp only [Token.span_fold, Reading.mute, hvalue, hnotes, hrest, Reading.fold, r, ← hcons]
      rfl

theorem withoutValue_fold (key : Token) {note note' : Diagnostic} (ts : List Token)
    (h : note'.mute = note.mute) :
    (withoutValue key.fold note' (ts.map Token.fold)).mute =
      (withoutValue key note ts).fold fold := by
  rw [withoutValue, withoutValue, Token.span_fold, Reading.mute, Reading.fold, List.map_singleton,
    List.map_singleton, h]
  rfl

theorem readValue_fold (stop : Nat) (key equals : Token) (ts : List Token) :
    (readValue key.fold equals.fold stop (ts.map Token.fold)).mute =
      (readValue key equals stop ts).fold fold := by
  have missing (ts : List Token) :
      (readValue.missing key.fold equals.fold (ts.map Token.fold)).mute =
        (readValue.missing key equals ts).fold fold := by
    apply withoutValue_fold
    rw [Token.stop_fold]
    rfl
  have unquoted {r' r : Reading Fragment} (h : r'.mute = r.fold Fragment.fold) :
      (readValue.unquoted key.fold r').mute = (readValue.unquoted key r).fold fold := by
    obtain ⟨hvalue, hnotes, hrest⟩ := Reading.of_mute_eq h
    simp only [readValue.unquoted, Reading.mute, Reading.fold, List.map_append, hvalue, hnotes,
      hrest, Fragment.span_fold, Token.span_fold]
    rfl
  cases ts with
  | nil => exact missing []
  | cons t ts =>
    rw [List.map_cons, readValue, readValue, Token.kind_fold]
    split
    · obtain ⟨hvalue, hnotes, hrest⟩ := Reading.of_mute_eq (readQuoted_fold stop t ts)
      simp only [Reading.mute, Reading.fold, hvalue, hnotes, hrest, Token.span_fold]
      rfl
    · apply unquoted
      rw [Token.span_fold]
      rfl
    · apply unquoted
      rw [Token.span_fold]
      rfl
    · exact unquoted (readTemplate_fold_empty t ts)
    · exact missing (t :: ts)

theorem read_fold (stop : Nat) (key : Token) (ts : List Token) :
    (read key.fold stop (ts.map Token.fold)).mute = (read key stop ts).fold fold := by
  have unequal (ts : List Token) :
      (withoutValue key.fold (.missingEquals key.fold.span key.fold.text)
          (ts.map Token.fold)).mute =
        (withoutValue key (.missingEquals key.span key.text) ts).fold fold := by
    apply withoutValue_fold
    rw [Token.span_fold]
    rfl
  cases ts with
  | nil => exact unequal []
  | cons t ts =>
    rw [List.map_cons, read, read, Token.kind_fold]
    split
    · exact readValue_fold stop key t ts
    · exact unequal (t :: ts)

theorem skipQuoted_fold (ts : List Token) :
    skipQuoted (ts.map Token.fold) = (skipQuoted ts).map Token.fold := by
  rw [skipQuoted, skipQuoted, List.dropWhile_map, List.map_tail]
  rfl

/-- The attributes that are read from folded tokens are those of the tokens, folded, with the same
reports up to their wording. -/
theorem readAll_fold (stop : Nat) (ts : List Token) :
    (readAll stop (ts.map Token.fold)).1 = (readAll stop ts).1.map fold ∧
      (readAll stop (ts.map Token.fold)).2.map Diagnostic.mute =
        (readAll stop ts).2.map Diagnostic.mute := by
  fun_induction readAll stop ts with
  | case1 => simp [readAll]
  | case2 t ts h =>
    rw [List.map_cons, readAll, Token.kind_fold]
    simp only [h, List.map_nil, and_self]
  | case3 t ts h =>
    rw [List.map_cons, readAll, Token.kind_fold]
    simp only [h, List.map_nil, and_self]
  | case4 t ts h _ r attributes notes hr ih =>
    obtain ⟨hvalue, hnotes, hrest⟩ := Reading.of_mute_eq (read_fold stop t ts)
    rw [hr] at ih
    rw [List.map_cons, readAll, Token.kind_fold]
    simp only [h, hrest, hvalue, List.map_append, hnotes, ih.1, ih.2, List.map_cons, r, and_self]
  | case5 t ts h _ attributes notes hr ih =>
    rw [hr] at ih
    rw [List.map_cons, readAll, Token.kind_fold]
    simp only [h, skipQuoted_fold, ih.1, ih.2, List.map_cons, Token.span_fold, true_and]
    rfl
  | case6 t ts h _ r attributes notes hr ih =>
    obtain ⟨hvalue, hnotes, hrest⟩ := Reading.of_mute_eq (readTemplate_fold_empty t ts)
    rw [hr] at ih
    rw [List.map_cons, readAll, Token.kind_fold]
    simp only [h, hrest, hvalue, hnotes, ih.1, ih.2, List.map_append, List.map_cons,
      Fragment.span_fold, r, and_self]
  | case7 t ts attributes notes hr =>
    rename_i ih
    rw [hr] at ih
    rw [List.map_cons, readAll, Token.kind_fold]
    split
    iterate 5 contradiction
    simp only [ih.1, ih.2, List.map_cons, Token.span_fold, true_and]
    rfl

end Attribute

namespace Tag

def fold (t : Tag) : Tag :=
  ⟨t.cls, Text.lower t.name, t.nameSpan, t.closeNameSpan, t.selfClosing,
    t.attributes.map Attribute.fold⟩

theorem openingName_fold (given : Token) (ts : List Token) :
    openingName given.fold (ts.map Token.fold) = (openingName given ts).fold := by
  obtain _ | ⟨opened, _ | ⟨name, ts⟩⟩ := ts
  · rfl
  · rfl
  · simp only [List.map_cons, openingName, Token.kind_fold]
    exact (apply_ite Token.fold _ _ _).symm

theorem closingName?_fold (ts : List Token) :
    closingName? (ts.map Token.fold) = (closingName? ts).map Token.fold := by
  obtain _ | ⟨opened, _ | ⟨name, ts⟩⟩ := ts
  · rfl
  · rfl
  · simp only [List.map_cons, closingName?, Token.kind_fold]
    rw [apply_ite (Option.map Token.fold)]
    rfl

end Tag

/-- The reports without their wording, and without those on the spelling of closing tags. -/
def Diagnostic.caseless (ds : List Diagnostic) : List Diagnostic :=
  (ds.filter (·.kind ≠ .closingTagMismatch)).map mute

namespace Diagnostic

theorem caseless_eq (ds : List Diagnostic) :
    caseless ds = (ds.map mute).filter (·.kind ≠ .closingTagMismatch) := by
  rw [List.filter_map]
  rfl

theorem caseless_append (ds es : List Diagnostic) :
    caseless (ds ++ es) = caseless ds ++ caseless es := by
  rw [caseless, List.filter_append, List.map_append]
  rfl

theorem caseless_map_mute (ds : List Diagnostic) : caseless (ds.map mute) = caseless ds := by
  rw [caseless_eq, List.map_map, caseless_eq]
  rfl

theorem caseless_flatMap {α : Type} (f : α → List Diagnostic) (xs : List α) :
    caseless (xs.flatMap f) = xs.flatMap fun x => caseless (f x) := by
  rw [caseless, List.filter_flatMap, List.map_flatMap]
  rfl

theorem caseless_of_map_eq {ds es : List Diagnostic} (h : ds.map mute = es.map mute) :
    caseless ds = caseless es := by
  rw [caseless_eq, caseless_eq, h]

end Diagnostic

namespace Tag

open Diagnostic (caseless caseless_append caseless_of_map_eq)

theorem caseless_mismatch (closing : Span) (name : Token) (closeName : Option Token) :
    caseless (closeName.toList.flatMap (mismatch closing name)) = [] := by
  cases closeName with
  | none => rfl
  | some closeName =>
    rw [Option.toList_some, List.flatMap_singleton, mismatch]
    split
    · rfl
    · rfl

theorem ofElement_fold (start : Nat) (e : Element) :
    (ofElement start e.fold).1 = (ofElement start e).1.fold ∧
      caseless (ofElement start e.fold).2 = caseless (ofElement start e).2 := by
  have hopening := Lexer.tokens_fold start e.opening.text
  rw [← OpeningTag.text_fold, ← Element.opening_fold] at hopening
  obtain ⟨hattributes, hnotes⟩ := Attribute.readAll_fold (start + Text.size e.opening.text)
    ((Lexer.ofText start e.opening.text).tokens.drop 2)
  have hgiven : (⟨.identifier, .ofList e.fold.opening.name, start + 1⟩ : Token) =
      Token.fold ⟨.identifier, .ofList e.opening.name, start + 1⟩ := by
    rw [Token.fold, Text.lower_ofList]
    rfl
  have hsize : Text.size e.fold.opening.text = Text.size e.opening.text := by
    rw [Element.opening_fold, OpeningTag.text_fold, Text.size_fold]
  cases he : e.enclosed with
  | none =>
    have he' : e.fold.enclosed = none := by
      rw [Element.fold, he]
      rfl
    simp only [ofElement, he, he', hopening, hsize, hgiven, ← List.map_drop, hattributes,
      openingName_fold, Token.span_fold, caseless_of_map_eq hnotes, and_true]
    rfl
  | some x =>
    obtain ⟨body, closing⟩ := x
    have he' : e.fold.enclosed = some (Text.fold body, closing.fold) := by
      rw [Element.fold, he]
      rfl
    have hclosing (start : Nat) :
        closingName? (Lexer.ofText start closing.fold.text).tokens =
          (closingName? (Lexer.ofText start closing.text).tokens).map Token.fold := by
      rw [ClosingTag.text_fold, Lexer.tokens_fold, closingName?_fold]
    have hspan (o : Option Token) : (o.map Token.fold).map Token.span = o.map Token.span := by
      rw [Option.map_map]
      exact congrArg (Option.map · o) (funext Token.span_fold)
    simp only [ofElement, he, he', hopening, hsize, hgiven, ← List.map_drop, hattributes,
      openingName_fold, Token.span_fold, Text.size_fold, hclosing, hspan, caseless_append,
      caseless_mismatch, caseless_of_map_eq hnotes, and_true]
    rfl

end Tag

namespace Segment

def Shape.fold : Shape → Shape
  | text => text
  | template expression => template (Text.lower expression)
  | element tag => element tag.fold

theorem Shape.ofPiece_fold (start : Nat) (p : Piece) :
    ofPiece start p.fold = (ofPiece start p).fold := by
  cases p with
  | text | cut => rfl
  | template inner =>
    change template (.ofList (Text.trim (Text.fold inner))) = _
    rw [Text.trim_fold, ← Text.lower_ofList]
    rfl
  | element e => exact congrArg element (Tag.ofElement_fold start e).1

def fold (s : Segment) : Segment :=
  ⟨s.id, s.span, Text.lower s.content, s.shape.fold⟩

theorem ofRegion_fold (id : Nat) (r : Region) : ofRegion id r.fold = (ofRegion id r).fold := by
  have hshape : Shape.ofPiece r.start r.fold.piece = _ := Shape.ofPiece_fold r.start r.piece
  rw [ofRegion, ofRegion, fold, Region.span_fold, Region.chars_fold, ← Text.lower_ofList, ← hshape]
  rfl

theorem caseless_notes_fold (r : Region) :
    Diagnostic.caseless (notes r.fold) = Diagnostic.caseless (notes r) := by
  obtain ⟨start, _ | _ | _ | e, _⟩ := r
  · rfl
  · rfl
  · rfl
  · exact (Tag.ofElement_fold start e).2

end Segment

end ProseMarkup
