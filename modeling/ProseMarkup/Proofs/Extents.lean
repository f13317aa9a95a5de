import ProseMarkup.Proofs.Placement
import ProseMarkup.Proofs.Prose

namespace ProseMarkup

def Span.Within (s t : Span) : Prop :=
  t.start ≤ s.start ∧ s.stop ≤ t.stop

/-- Holds of spans that stand one behind the other between two offsets. -/
def Span.Row : Nat → Nat → List Span → Prop
  | lo, hi, [] => lo ≤ hi
  | lo, hi, s :: ss => lo ≤ s.start ∧ s.start ≤ s.stop ∧ Row s.stop hi ss

namespace Span.Row

variable {lo lo' mid hi hi' : Nat} {ss ss' : List Span}

theorem mono (h : Row lo hi ss) (hlo : lo' ≤ lo) (hhi : hi ≤ hi') : Row lo' hi' ss := by
  induction ss generalizing lo lo' with
  | nil => exact Nat.le_trans hlo (Nat.le_trans h hhi)
  | cons s ss ih => exact ⟨Nat.le_trans hlo h.1, h.2.1, ih h.2.2 (Nat.le_refl _)⟩

theorem append (h : Row lo mid ss) (h' : Row mid hi ss') : Row lo hi (ss ++ ss') := by
  induction ss generalizing lo with
  | nil => exact h'.mono h (Nat.le_refl _)
  | cons s ss ih => exact ⟨h.1, h.2.1, ih h.2.2⟩

theorem le_start (h : Row lo hi ss) {s : Span} (hs : s ∈ ss) : lo ≤ s.start := by
  induction ss generalizing lo with
  | nil => cases hs
  | cons t ss ih =>
    obtain rfl | hs := List.mem_cons.mp hs
    · exact h.1
    · exact Nat.le_trans h.1 (Nat.le_trans h.2.1 (ih h.2.2 hs))

theorem pairwise (h : Row lo hi ss) : ss.Pairwise fun s t => s.stop ≤ t.start := by
  induction ss generalizing lo with
  | nil => exact .nil
  | cons s ss ih => exact .cons (fun t ht => h.2.2.le_start ht) (ih h.2.2)

end Span.Row

namespace Token

def Ordered (lo hi : Nat) : List Token → Prop
  | [] => lo ≤ hi
  | t :: ts => lo ≤ t.start ∧ Ordered t.stop hi ts

theorem stop_eq (t : Token) : t.stop = t.start + Text.size t.text.toList := rfl

namespace Ordered

variable {lo lo' hi : Nat} {t : Token} {ts : List Token}

theorem mono (h : Ordered lo hi ts) (hle : lo' ≤ lo) : Ordered lo' hi ts := by
  cases ts with
  | nil => exact Nat.le_trans hle h
  | cons t ts => exact ⟨Nat.le_trans hle h.1, h.2⟩

theorem tail (h : Ordered lo hi (t :: ts)) : Ordered lo hi ts := by
  apply h.2.mono
  rw [stop_eq]
  exact Nat.le_add_right_of_le h.1

theorem of_suffix {us : List Token} (h : Ordered lo hi ts) (hs : us <:+ ts) : Ordered lo hi us := by
  obtain ⟨before, rfl⟩ := hs
  induction before with
  | nil => exact h
  | cons t before ih => exact ih h.tail

theorem le (h : Ordered lo hi ts) : lo ≤ hi := by
  induction ts with
  | nil => exact h
  | cons t ts ih => exact ih h.tail

theorem stop_le (h : Ordered lo hi (t :: ts)) : t.stop ≤ hi :=
  h.2.le

theorem le_start {u : Token} (h : Ordered lo hi ts) (hu : u ∈ ts) : lo ≤ u.start := by
  induction ts with
  | nil => cases hu
  | cons t ts ih =>
    obtain rfl | hu := List.mem_cons.mp hu
    · exact h.1
    · exact ih h.tail hu

theorem pairwise (h : Ordered lo hi ts) : ts.Pairwise fun t u => t.stop ≤ u.start := by
  induction ts generalizing lo with
  | nil => exact .nil
  | cons t ts ih => exact .cons (fun u hu => h.2.le_start hu) (ih h.2)

end Ordered

end Token

namespace Lexer

theorem stop_take {l l' : Lexer} {t : Token} (h : l.take = (some t, l')) : t.stop = l'.offset := by
  unfold take at h
  split at h
  · cases h
  · cases h
    rw [Token.stop_eq, String.toList_ofList]

theorem ordered_drain (l : Lexer) :
    Token.Ordered l.offset (l.offset + Text.size l.rest) l.drain.1 := by
  fun_induction drain l with
  | case1 => exact Nat.le_add_right _ _
  | case2 l t l' hn _ ts last hd ih =>
    obtain ⟨hle, -, hsize⟩ := size_next hn
    rw [hd, hsize, ← stop_take hn] at ih
    exact ⟨hle, ih⟩

end Lexer

def Diagnostic.Kind.isOnAttributes : Kind → Bool
  | .unterminatedAttributeValue | .missingEquals | .strayQuote | .unquotedAttributeValue
  | .unexpectedToken | .unterminatedTemplate => true
  | _ => false

namespace Attribute

open Token (Ordered)

structure Reading.Within {α : Type} (lo hi : Nat) (r : Reading α) : Prop where
  notes : ∀ d ∈ r.notes, d.kind.isOnAttributes = true ∧ d.span.stop ≤ hi
  rest : Ordered lo hi r.rest

variable {α : Type} {lo lo' hi : Nat} {ts : List Token}

theorem Reading.Within.mono {r : Reading α} (h : r.Within lo hi) (hle : lo' ≤ lo) :
    r.Within lo' hi :=
  ⟨h.notes, h.rest.mono hle⟩

theorem readTemplate_within (opened : Token) (inner : String)
    (h : Ordered (opened.stop + Text.size inner.toList) hi ts) :
    (readTemplate opened inner ts).Within opened.stop hi ∧
      (readTemplate opened inner ts).value.span.stop ≤ hi := by
  have unterminated {inner : String} {ts : List Token}
      (h : Ordered (opened.stop + Text.size inner.toList) hi ts) :
      (readTemplate.unterminated opened inner ts).Within opened.stop hi ∧
        (readTemplate.unterminated opened inner ts).value.span.stop ≤ hi := by
    have hstop : (readTemplate.unterminated opened inner ts).value.span.stop ≤ hi := by
      change opened.start + Text.size (opened.text ++ inner).toList ≤ hi
      rw [String.toList_append, Text.size_append, ← Nat.add_assoc]
      exact h.le
    refine ⟨⟨?_, h.mono (Nat.le_add_right _ _)⟩, hstop⟩
    intro d hd
    obtain rfl := List.mem_singleton.mp hd
    exact ⟨rfl, hstop⟩
  induction ts generalizing inner with
  | nil => exact unterminated h
  | cons t ts ih =>
    rw [readTemplate]
    split
    · have hrest := h.tail.mono (Nat.le_add_right opened.stop (Text.size inner.toList))
      exact ⟨⟨List.forall_mem_nil _, hrest⟩, h.stop_le⟩
    · apply ih
      apply h.2.mono
      rw [String.toList_append, Text.size_append, Token.stop_eq t]
      have hstart := h.1
      omega
    · exact unterminated h

theorem readTemplate_within_of_ordered {t : Token} (h : Ordered lo hi (t :: ts)) :
    (readTemplate t "" ts).Within lo hi ∧ (readTemplate t "" ts).value.span.stop ≤ hi := by
  have hle : lo ≤ t.stop := by
    rw [Token.stop_eq]
    exact Nat.le_add_right_of_le h.1
  obtain ⟨hwithin, hstop⟩ := readTemplate_within t "" h.2
  exact ⟨hwithin.mono hle, hstop⟩

theorem readQuoted_within (opened : Token) (h : Ordered lo hi ts) :
    (readQuoted opened hi ts).Within lo hi := by
  fun_induction readQuoted opened hi ts generalizing lo with
  | case1 =>
    refine ⟨?_, h⟩
    intro d hd
    obtain rfl := List.mem_singleton.mp hd
    exact ⟨rfl, Nat.le_refl _⟩
  | case2 t ts => exact ⟨List.forall_mem_nil _, h.tail⟩
  | case3 t ts _ _ f r =>
    rename_i ih
    have hf : f.Within lo hi := (readTemplate_within_of_ordered h).1
    have hr : r.Within lo hi := ih hf.rest
    refine ⟨?_, hr.rest⟩
    intro d hd
    obtain hd | hd := List.mem_append.mp hd
    · exact hf.notes d hd
    · exact hr.notes d hd
  | case4 t ts r =>
    rename_i ih
    have hr : r.Within lo hi := ih h.tail
    exact ⟨hr.notes, hr.rest⟩

theorem withoutValue_within {key : Token} {note : Diagnostic}
    (hk : note.kind.isOnAttributes = true) (hs : note.span.stop ≤ hi) (h : Ordered lo hi ts) :
    (withoutValue key note ts).Within lo hi := by
  refine ⟨?_, h⟩
  intro d hd
  obtain rfl := List.mem_singleton.mp hd
  exact ⟨hk, hs⟩

theorem readValue_within {key equals : Token} (he : equals.stop ≤ hi) (h : Ordered lo hi ts) :
    (readValue key equals hi ts).Within lo hi := by
  have unquoted {r : Reading Fragment} (hr : r.Within lo hi) (hs : r.value.span.stop ≤ hi) :
      (readValue.unquoted key r).Within lo hi := by
    refine ⟨?_, hr.rest⟩
    intro d hd
    obtain hd | hd := List.mem_append.mp hd
    · exact hr.notes d hd
    · obtain rfl := List.mem_singleton.mp hd
      exact ⟨rfl, hs⟩
  cases ts with
  | nil => exact withoutValue_within rfl he h
  | cons t ts =>
    rw [readValue]
    split
    · have hr := readQuoted_within t h.tail
      exact ⟨hr.notes, hr.rest⟩
    · exact unquoted ⟨List.forall_mem_nil _, h.tail⟩ h.stop_le
    · exact unquoted ⟨List.forall_mem_nil _, h.tail⟩ h.stop_le
    · obtain ⟨hr, hs⟩ := readTemplate_within_of_ordered h
      exact unquoted hr hs
    · exact withoutValue_within rfl he h

theorem read_within {key : Token} (hk : key.stop ≤ hi) (h : Ordered lo hi ts) :
    (read key hi ts).Within lo hi := by
  cases ts with
  | nil => exact withoutValue_within rfl hk h
  | cons t ts =>
    rw [read]
    split
    · exact readValue_within h.stop_le h.tail
    · exact withoutValue_within rfl hk h

theorem stop_of_mem_readAll {d : Diagnostic} (h : Ordered lo hi ts) (hd : d ∈ (readAll hi ts).2) :
    d.kind.isOnAttributes = true ∧ d.span.stop ≤ hi := by
  fun_induction readAll hi ts with
  | case1 => cases hd
  | case2 => cases hd
  | case3 => cases hd
  | case4 t ts _ _ r attributes notes hr ih =>
    have hread : r.Within lo hi := read_within h.stop_le h.tail
    rw [hr] at ih
    obtain hd | hd := List.mem_append.mp hd
    · exact hread.notes d hd
    · exact ih hread.rest hd
  | case5 t ts _ _ attributes notes hr ih =>
    rw [hr] at ih
    obtain rfl | hd := List.mem_cons.mp hd
    · exact ⟨rfl, h.stop_le⟩
    · apply ih _ hd
      exact h.tail.of_suffix ((List.tail_suffix _).trans (List.dropWhile_suffix _))
  | case6 t ts _ _ r attributes notes hr ih =>
    obtain ⟨hread, hstop⟩ := readTemplate_within_of_ordered h
    rw [hr] at ih
    obtain hd | hd := List.mem_append.mp hd
    · exact hread.notes d hd
    · obtain rfl | hd := List.mem_cons.mp hd
      · exact ⟨rfl, hstop⟩
      · exact ih hread.rest hd
  | case7 t ts attributes notes hr _ _ _ _ _ ih =>
    rw [hr] at ih
    obtain rfl | hd := List.mem_cons.mp hd
    · exact ⟨rfl, h.stop_le⟩
    · exact ih h.tail hd

end Attribute

namespace Tag

variable {start : Nat} {e : Element} {d : Diagnostic}

def openingSpan (start : Nat) (e : Element) : Span :=
  .ofText start e.opening.text

def closingSpan (start : Nat) (e : Element) (x : List Char × ClosingTag) : Span :=
  .ofText (start + Text.size e.opening.text + Text.size x.1) x.2.text

/-- A report on the tags of an element is one on its attributes, which stands in the opening tag, or
the one on the names, which stands in the closing tag. -/
theorem within_of_note (h : d ∈ (ofElement start e).2) :
    (d.kind.isOnAttributes = true ∧ d.span.Within (openingSpan start e)) ∨
      d.kind = .closingTagMismatch ∧
        ∃ x, e.enclosed = some x ∧ d.span.Within (closingSpan start e x) := by
  obtain ⟨hk, hle, -⟩ | ⟨body, closing, he, hk, hs⟩ := place_of_note h
  · have hordered := Lexer.ordered_drain (Lexer.ofText start e.opening.text)
    have opening (hd : d ∈ (Attribute.readAll (start + Text.size e.opening.text)
        ((Lexer.ofText start e.opening.text).tokens.drop 2)).2) :
        d.kind.isOnAttributes = true ∧ d.span.Within (openingSpan start e) := by
      obtain ⟨hkind, hstop⟩ :=
        Attribute.stop_of_mem_readAll (hordered.of_suffix (List.drop_suffix 2 _)) hd
      exact ⟨hkind, hle, hstop⟩
    left
    cases he : e.enclosed with
    | none =>
      simp only [ofElement, he] at h
      exact opening h
    | some x =>
      obtain ⟨body, closing⟩ := x
      simp only [ofElement, he] at h
      obtain h | h := List.mem_append.mp h
      · exact opening h
      · obtain ⟨name, -, h⟩ := List.mem_flatMap.mp h
        rw [mismatch] at h
        split at h
        · cases h
        · obtain rfl := List.mem_singleton.mp h
          exact absurd rfl hk
  · exact .inr ⟨hk, (body, closing), he, hs ▸ ⟨Nat.le_refl _, Nat.le_refl _⟩⟩

end Tag

def Diagnostic.Kind.isOnProse : Kind → Bool
  | .malformedTag | .unterminatedTag | .unmatchedClosingTag => true
  | _ => false

theorem ProseFault.isOnProse (f : ProseFault) (start : Nat) :
    (f.diagnostic start).kind.isOnProse = true := by
  cases f <;> rfl

theorem Head.within_of_read {v : Vocabulary} {cs passed rest : List Char} {f : ProseFault}
    (hcs : cs ≠ []) (h : read v cs = .prose passed (some f) rest) (start : Nat) :
    (f.diagnostic start).span.Within (.ofText start passed) := by
  have ofPrefix (xs ys : List Char) :
      (Span.ofText start xs).Within (.ofText start (xs ++ ys)) := by
    refine ⟨Nat.le_refl _, ?_⟩
    change start + _ ≤ start + _
    rw [Text.size_append]
    omega
  cases passes_of_read hcs h with
  | closing => exact ⟨Nat.le_refl _, Nat.le_refl _⟩
  | unterminated => exact ofPrefix _ _
  | malformed => exact ofPrefix _ _

namespace Region

variable {v : Vocabulary}

theorem Run.within_of_note {start : Nat} {cs last : List Char} {notes : List Diagnostic}
    (run : Run v start cs last notes) :
    ∃ chars, cs = chars ++ last ∧ ∀ d ∈ notes,
      d.kind.isOnProse = true ∧ d.span.Within (.ofText start chars) := by
  induction run with
  | nil => exact ⟨[], rfl, List.forall_mem_nil _⟩
  | @cons start cs passed rest last fault notes hcs h _ ih =>
    obtain ⟨chars, rfl, hnotes⟩ := ih
    have ha : passed ++ (chars ++ last) = cs := Head.append_of_read h
    refine ⟨passed ++ chars, ?_, ?_⟩
    · rw [← ha, List.append_assoc]
    · intro d hd
      have hsize : Text.size (passed ++ chars) = Text.size passed + Text.size chars :=
        Text.size_append _ _
      obtain hd | hd := List.mem_append.mp hd
      · obtain ⟨f, hf, rfl⟩ := List.mem_map.mp hd
        obtain rfl := Option.mem_toList.mp hf
        obtain ⟨hstart, hstop⟩ := Head.within_of_read hcs h start
        refine ⟨f.isOnProse start, hstart, Nat.le_trans hstop ?_⟩
        change start + _ ≤ start + _
        omega
      · obtain ⟨hk, hstart, hstop⟩ := hnotes d hd
        refine ⟨hk, Nat.le_trans (Nat.le_add_right _ _) hstart, Nat.le_trans hstop ?_⟩
        change start + Text.size passed + _ ≤ start + _
        omega

end Region

end ProseMarkup
