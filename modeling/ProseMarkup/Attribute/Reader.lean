import ProseMarkup.Attribute
import ProseMarkup.Diagnostic
import ProseMarkup.Text.Blank
import ProseMarkup.Token

namespace ProseMarkup.Attribute

structure Reading (α : Type) where
  value : α
  notes : List Diagnostic
  rest : List Token

/-- Reads a template behind its opening braces. Without closing braces it is literal text. -/
def readTemplate (opened : Token) (inner : String) : List Token → Reading Fragment
  | [] => unterminated []
  | t :: ts =>
    match t.kind with
    | .templateClose =>
      ⟨.template (.ofList (Text.trim inner.toList)) ⟨opened.start, t.stop⟩, [], ts⟩
    | .rawText => readTemplate opened (inner ++ t.text) ts
    | _ => unterminated (t :: ts)
where
  unterminated (rest : List Token) : Reading Fragment :=
    let text := opened.text ++ inner
    let span := Span.ofText opened.start text.toList
    ⟨.literal text span, [.unterminatedTemplate span], rest⟩

theorem readTemplate_length (opened : Token) (inner : String) (ts : List Token) :
    (readTemplate opened inner ts).rest.length ≤ ts.length := by
  induction ts generalizing inner with
  | nil => exact Nat.le_refl _
  | cons t ts ih =>
    unfold readTemplate
    split
    · exact Nat.le_succ _
    · exact Nat.le_succ_of_le (ih _)
    · exact Nat.le_refl _

/-- Reads a value behind its opening quote, in a tag that ends at `stop`. The value is the fragments
with the span that they cover. -/
def readQuoted (opened : Token) (stop : Nat) : List Token → Reading (List Fragment × Span)
  | [] =>
    ⟨([], ⟨opened.stop, stop⟩), [.unterminatedAttributeValue ⟨opened.start, stop⟩ opened.text], []⟩
  | t :: ts =>
    match t.kind with
    | .quote => ⟨([], ⟨opened.stop, t.start⟩), [], ts⟩
    | .templateOpen =>
      have := readTemplate_length t "" ts
      let f := readTemplate t "" ts
      let r := readQuoted opened stop f.rest
      ⟨(f.value.cons r.value.1, r.value.2), f.notes ++ r.notes, r.rest⟩
    | _ =>
      let r := readQuoted opened stop ts
      ⟨((Fragment.literal t.text t.span).cons r.value.1, r.value.2), r.notes, r.rest⟩
termination_by ts => ts.length

theorem readQuoted_length (opened : Token) (stop : Nat) (ts : List Token) :
    (readQuoted opened stop ts).rest.length ≤ ts.length := by
  fun_induction readQuoted opened stop ts with
  | case1 => exact Nat.le_refl _
  | case2 t ts _ => exact Nat.le_succ _
  | case3 t ts _ h f r ih => exact Nat.le_succ_of_le (Nat.le_trans ih h)
  | case4 t ts _ _ r ih => exact Nat.le_succ_of_le ih

def withoutValue (key : Token) (note : Diagnostic) (rest : List Token) : Reading Attribute :=
  ⟨⟨key.text, key.span, [], none⟩, [note], rest⟩

/-- Reads the value of an attribute behind the equals sign. A value without quotes is one token or
one template. -/
def readValue (key equals : Token) (stop : Nat) : List Token → Reading Attribute
  | [] => missing []
  | t :: ts =>
    match t.kind with
    | .quote =>
      let r := readQuoted t stop ts
      ⟨⟨key.text, key.span, r.value.1, some r.value.2⟩, r.notes, r.rest⟩
    | .identifier | .rawText => unquoted ⟨.literal t.text t.span, [], ts⟩
    | .templateOpen => unquoted (readTemplate t "" ts)
    | _ => missing (t :: ts)
where
  missing (rest : List Token) : Reading Attribute :=
    withoutValue key (.missingValue ⟨key.start, equals.stop⟩ key.text) rest
  /-- The attribute with one fragment that has no quotes. -/
  unquoted (r : Reading Fragment) : Reading Attribute :=
    let span := r.value.span
    ⟨⟨key.text, key.span, [r.value], some span⟩,
      r.notes ++ [.unquotedAttributeValue span key.text], r.rest⟩

theorem readValue_length (key equals : Token) (stop : Nat) (ts : List Token) :
    (readValue key equals stop ts).rest.length ≤ ts.length := by
  unfold readValue
  split
  · exact Nat.le_refl _
  · split
    · exact Nat.le_succ_of_le (readQuoted_length ..)
    · exact Nat.le_succ _
    · exact Nat.le_succ _
    · exact Nat.le_succ_of_le (readTemplate_length ..)
    · exact Nat.le_refl _

def read (key : Token) (stop : Nat) : List Token → Reading Attribute
  | [] => withoutValue key (.missingEquals key.span key.text) []
  | t :: ts =>
    if t.kind = .equals then readValue key t stop ts
    else withoutValue key (.missingEquals key.span key.text) (t :: ts)

theorem read_length (key : Token) (stop : Nat) (ts : List Token) :
    (read key stop ts).rest.length ≤ ts.length := by
  unfold read
  split
  · exact Nat.le_refl _
  · split
    · exact Nat.le_succ_of_le (readValue_length ..)
    · exact Nat.le_refl _

def skipQuoted (ts : List Token) : List Token :=
  (ts.dropWhile (·.kind ≠ .quote)).tail

theorem skipQuoted_length (ts : List Token) : (skipQuoted ts).length ≤ ts.length := by
  have h := (List.dropWhile_suffix (l := ts) (·.kind ≠ .quote)).length_le
  simp only [skipQuoted, List.length_tail]
  omega

def readAll (stop : Nat) : List Token → List Attribute × List Diagnostic
  | [] => ([], [])
  | t :: ts =>
    match t.kind with
    | .tagEnd | .selfClose => ([], [])
    | .identifier =>
      have := read_length t stop ts
      let r := read t stop ts
      let (attributes, notes) := readAll stop r.rest
      (r.value :: attributes, r.notes ++ notes)
    | .quote =>
      have := skipQuoted_length ts
      let (attributes, notes) := readAll stop (skipQuoted ts)
      (attributes, .strayQuote t.span t.text :: notes)
    | .templateOpen =>
      have := readTemplate_length t "" ts
      let r := readTemplate t "" ts
      let (attributes, notes) := readAll stop r.rest
      (attributes, r.notes ++ .unexpectedTemplate r.value.span :: notes)
    | _ =>
      let (attributes, notes) := readAll stop ts
      (attributes, .unexpectedToken t.span t.text :: notes)
termination_by ts => ts.length

end ProseMarkup.Attribute
