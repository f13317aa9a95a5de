import ProseMarkup.Proofs.Agreement
import ProseMarkup.Proofs.Values

namespace ProseMarkup

open Markup (Part)

/-- An attribute as it may be written: a key, an equals sign and a value in quotes that can be cut
into parts, with blanks before the key and around the sign. -/
structure Attribute.Written where
  gap : List Char
  key : List Char
  left : List Char
  right : List Char
  quote : Char
  body : List Char
  parts : List Part
  gap_isBlank : ∀ c ∈ gap, Text.isBlank c = true
  key_isName : Name.IsName key
  left_isBlank : ∀ c ∈ left, Text.isBlank c = true
  right_isBlank : ∀ c ∈ right, Text.isBlank c = true
  quote_mem : quote ∈ ['"', '\'']
  quote_not_mem : quote ∉ body
  split?_body : Part.split? body = some parts

namespace Attribute.Written

def front (a : Written) : List Char :=
  a.gap ++ (a.key ++ (a.left ++ '=' :: (a.right ++ [a.quote])))

def chars (a : Written) : List Char :=
  a.front ++ (a.body ++ [a.quote])

def toAttribute (start : Nat) (a : Written) : Attribute where
  key := .ofList a.key
  keySpan := .ofText (start + Text.size a.gap) a.key
  value := Part.fragments (start + Text.size a.front) a.parts
  valueSpan := some (.ofText (start + Text.size a.front) a.body)

def toAttributes (start : Nat) : List Written → List Attribute
  | [] => []
  | a :: as => a.toAttribute start :: toAttributes (start + Text.size a.chars) as

theorem scan_chars (a : Written) {cs inside rest : List Char}
    (h : OpeningTag.scan none cs = .found inside rest) :
    OpeningTag.scan none (a.chars ++ cs) = .found (a.chars ++ inside) rest := by
  have blank {cs : List Char} (hb : ∀ c ∈ cs, Text.isBlank c = true) :
      ∀ c ∈ cs, c ∉ OpeningTag.delimiters := fun c hc =>
    OpeningTag.not_mem_delimiters (by decide) (hb c hc)
  have hkey := Name.isPart_of_isName (Name.isName_iff.mpr a.key_isName)
  have hfront : ∀ c ∈ a.gap ++ (a.key ++ (a.left ++ '=' :: a.right)),
      c ∉ OpeningTag.delimiters := by
    intro c hc
    simp only [List.mem_append, List.mem_cons] at hc
    obtain hc | hc | hc | rfl | hc := hc
    · exact blank a.gap_isBlank c hc
    · exact OpeningTag.not_mem_delimiters (by decide) (hkey c hc)
    · exact blank a.left_isBlank c hc
    · decide
    · exact blank a.right_isBlank c hc
  have hscan := OpeningTag.scan_value hfront a.quote_mem a.quote_not_mem h
  simpa [chars, front] using hscan

theorem scan_flatMap_chars (as : List Written) {cs inside rest : List Char}
    (h : OpeningTag.scan none cs = .found inside rest) :
    OpeningTag.scan none (as.flatMap chars ++ cs) = .found (as.flatMap chars ++ inside) rest := by
  induction as with
  | nil => exact h
  | cons a as ih =>
    rw [List.flatMap_cons, List.append_assoc, List.append_assoc]
    exact a.scan_chars ih

end Attribute.Written

namespace Lexer

open Token (Mode Shape)

theorem emits_blanks {gap : List Char} (hb : ∀ c ∈ gap, Text.isBlank c = true) (cs : List Char)
    (n : Nat) (ms : List Mode) :
    Emits ⟨gap ++ cs, n, .tag :: ms⟩ [] ⟨cs, n + Text.size gap, .tag :: ms⟩ := by
  induction gap generalizing n with
  | nil => exact .refl _
  | cons b gap ih =>
    obtain ⟨hb, hgap⟩ := List.forall_mem_cons.mp hb
    have h := (emits_blank hb (gap ++ cs) n ms).trans (ih hgap _)
    rwa [Nat.add_assoc, ← Text.size_append] at h

inductive NextInTag (cs : List Char) (n : Nat) : Prop
  | stop (hb : ∀ c ∈ cs, Text.isBlank c = true) (ht : tokens ⟨cs, n, [.tag, .content]⟩ = [])
  | token {gap : List Char} {x : Token.Lexeme} (hcs : cs = gap ++ (x.text ++ x.rest))
      (hb : ∀ c ∈ gap, Text.isBlank c = true) (hx : Shape .tag x.kind x.text)
      (ht : tokens ⟨cs, n, [.tag, .content]⟩ =
        ⟨x.kind, .ofList x.text, n + Text.size gap⟩ :: tokens ⟨x.rest,
          n + Text.size gap + Text.size x.text, transition [.tag, .content] x⟩)

theorem nextInTag (cs : List Char) (n : Nat) : NextInTag cs n := by
  have hcall := call_next ⟨cs, n, [.tag, .content]⟩
  have hsettled : (settled ⟨cs, n, [.tag, .content]⟩).modes = [.tag, .content] := by
    cases cs <;> rfl
  rcases hn : next ⟨cs, n, [.tag, .content]⟩ with ⟨o, l'⟩
  rw [hn] at hcall
  cases hcall with
  | stop hb => exact .stop hb (congrArg Prod.fst (drain_of_none hn))
  | @token gap ds c hcs hb _ hc =>
    have ht := congrArg Prod.fst (drain_of_some hn)
    unfold mode at ht hc
    rw [hsettled] at ht hc
    refine .token (x := Mode.tag.read (c :: ds)) ?_ hb ?_ ht
    · rw [Mode.read_append]
      exact hcs
    · exact Mode.shape_read ds hc nofun

end Lexer

namespace Attribute

open Lexer

open Written (toAttributes)

theorem Written.emits_front (a : Written) (n : Nat) (rest : List Char) :
    Emits ⟨a.front ++ rest, n, [.tag, .content]⟩
      [⟨.identifier, .ofList a.key, n + Text.size a.gap⟩,
        ⟨.equals, .ofList ['='], n + Text.size (a.gap ++ (a.key ++ a.left))⟩,
        ⟨.quote, .ofList [a.quote],
          n + Text.size (a.gap ++ (a.key ++ (a.left ++ '=' :: a.right)))⟩]
      ⟨rest, n + Text.size a.front, [.value a.quote, .tag, .content]⟩ := by
  have hends (cs : List Char) : Name.Ends (a.left ++ '=' :: cs) := by
    cases hl : a.left with
    | nil => exact Name.ends_cons (by decide) cs
    | cons b left =>
      have hb := a.left_isBlank b (hl ▸ List.mem_cons_self)
      exact Name.ends_cons (Name.isPart_of_isBlank hb) _
  have hkey (cs : List Char) : Name.read? (a.key ++ (a.left ++ '=' :: cs)) = _ :=
    Name.read?_eq_some_iff.mpr ⟨rfl, a.key_isName, hends cs⟩
  have hequals (cs : List Char) (n : Nat) : Emits ⟨'=' :: cs, n, [.tag, .content]⟩
      [⟨.equals, .ofList ['='], n⟩] ⟨cs, n + Text.size ['='], [.tag, .content]⟩ :=
    emits_of_read rfl (.inr (by decide)) rfl
  have hgap := emits_blanks a.gap_isBlank
    (a.key ++ (a.left ++ '=' :: (a.right ++ a.quote :: rest))) n [.content]
  have hname := hgap.trans (emits_name (hkey _) _ [.content])
  have hleft := hname.trans (emits_blanks a.left_isBlank _ _ [.content])
  have hright := (hleft.trans (hequals _ _)).trans (emits_blanks a.right_isBlank _ _ [.content])
  have h := hright.trans (emits_opening_quote a.quote_mem rest)
  have hchars : a.front ++ rest =
      a.gap ++ (a.key ++ (a.left ++ '=' :: (a.right ++ a.quote :: rest))) := by
    simp [Written.front]
  rw [hchars]
  simpa [Written.front, Nat.add_assoc] using h

theorem readAll_cons (a : Written) (n stop : Nat) (rest : List Char) :
    readAll stop (tokens ⟨a.chars ++ rest, n, [.tag, .content]⟩) =
      (a.toAttribute n ::
        (readAll stop (tokens ⟨rest, n + Text.size a.chars, [.tag, .content]⟩)).1,
        (readAll stop (tokens ⟨rest, n + Text.size a.chars, [.tag, .content]⟩)).2) := by
  have hfront := a.emits_front n (a.body ++ a.quote :: rest)
  have hvalue := (readsAs_of_quote ⟨.quote, .ofList [a.quote],
    n + Text.size (a.gap ++ (a.key ++ (a.left ++ '=' :: a.right)))⟩ stop [.content] a.quote_mem
    a.quote_not_mem (n + Text.size a.front) rest).1 a.parts a.split?_body
  have hopened : Token.stop ⟨.quote, .ofList [a.quote],
      n + Text.size (a.gap ++ (a.key ++ (a.left ++ '=' :: a.right)))⟩ = n + Text.size a.front := by
    have hsplit : a.front = (a.gap ++ (a.key ++ (a.left ++ '=' :: a.right))) ++ [a.quote] := by
      simp [Written.front]
    rw [Token.stop, Token.span_ofList, hsplit, Text.size_append _ [a.quote], ← Nat.add_assoc]
    rfl
  have hchars : a.chars ++ rest = a.front ++ (a.body ++ a.quote :: rest) := by
    simp [Written.chars]
  have hsize : n + Text.size a.front + Text.size a.body + Text.size [a.quote] =
      n + Text.size a.chars := by
    simp [Written.chars, Nat.add_assoc]
  rw [hopened, hsize] at hvalue
  rw [hchars, hfront, List.cons_append, List.cons_append, List.singleton_append, readAll]
  simp only [Attribute.read, readValue, if_true, hvalue, Token.span_ofList]
  rfl

theorem readAll_written (as : List Written) (n stop : Nat) (rest : List Char) :
    readAll stop (tokens ⟨as.flatMap Written.chars ++ rest, n, [.tag, .content]⟩) =
      (toAttributes n as ++ (readAll stop
        (tokens ⟨rest, n + Text.size (as.flatMap Written.chars), [.tag, .content]⟩)).1,
        (readAll stop
          (tokens ⟨rest, n + Text.size (as.flatMap Written.chars), [.tag, .content]⟩)).2) := by
  induction as generalizing n with
  | nil => rfl
  | cons a as ih =>
    rw [List.flatMap_cons, List.append_assoc, readAll_cons, ih, Text.size_append, ← Nat.add_assoc]
    rfl

theorem readAll_ending {gap ending : List Char} (hb : ∀ c ∈ gap, Text.isBlank c = true)
    (he : ending ∈ [['>'], ['/', '>']]) (n stop : Nat) :
    readAll stop (tokens ⟨gap ++ ending, n, [.tag, .content]⟩) = ([], []) := by
  rw [emits_blanks hb ending n [.content], List.nil_append]
  obtain rfl | rfl := List.mem_pair.mp he
  · have h : Emits ⟨['>'], n + Text.size gap, [.tag, .content]⟩
        [⟨.tagEnd, .ofList ['>'], n + Text.size gap⟩] _ := emits_of_read rfl (.inr (by decide)) rfl
    rw [h, List.singleton_append, readAll]
  · have h : Emits ⟨['/', '>'], n + Text.size gap, [.tag, .content]⟩
        [⟨.selfClose, .ofList ['/', '>'], n + Text.size gap⟩] _ :=
      emits_of_read rfl (.inr (by decide)) rfl
    rw [h, List.singleton_append, readAll]

variable {stop : Nat} {cs : List Char} {n : Nat}

/-- A value behind an equals sign that is read without a report stands in quotes. -/
theorem exists_of_readValue {key equals : Token} (h : (readValue key equals stop
    (tokens ⟨cs, n, [.tag, .content]⟩)).notes = []) :
    ∃ right q body rest ps m, cs = right ++ q :: (body ++ q :: rest) ∧
      (∀ c ∈ right, Text.isBlank c = true) ∧ q ∈ ['"', '\''] ∧ q ∉ body ∧
        Part.split? body = some ps ∧ (readValue key equals stop
          (tokens ⟨cs, n, [.tag, .content]⟩)).rest = tokens ⟨rest, m, [.tag, .content]⟩ := by
  cases nextInTag cs n with
  | stop _ ht =>
    rw [ht] at h
    cases h
  | @token gap x hcs hb hx ht =>
    obtain ⟨kind, text, rest⟩ := x
    rw [ht] at h ⊢
    cases hx with
    | @openingQuote q hq =>
      have hq' : q ∈ ['"', '\''] := List.mem_pair.mpr hq
      obtain ⟨body, rest', ps, hrest, hbody, hps, hr⟩ := exists_split?_of_notes_eq_nil hq' h
      exact ⟨gap, q, body, rest', ps, _, by rw [hcs, ← hrest]; rfl, hb, hq', hbody, hps, hr⟩
    | templateOpen => exact absurd h (List.append_ne_nil_of_right_ne_nil _ (List.cons_ne_nil _ _))
    | _ => cases h

theorem exists_of_read {key : Token}
    (h : (Attribute.read key stop (tokens ⟨cs, n, [.tag, .content]⟩)).notes = []) :
    ∃ left right q body rest ps m, cs = left ++ '=' :: (right ++ q :: (body ++ q :: rest)) ∧
      (∀ c ∈ left, Text.isBlank c = true) ∧ (∀ c ∈ right, Text.isBlank c = true) ∧
        q ∈ ['"', '\''] ∧ q ∉ body ∧ Part.split? body = some ps ∧
          (Attribute.read key stop (tokens ⟨cs, n, [.tag, .content]⟩)).rest =
            tokens ⟨rest, m, [.tag, .content]⟩ := by
  cases nextInTag cs n with
  | stop _ ht =>
    rw [ht] at h
    cases h
  | @token gap x hcs hb hx ht =>
    obtain ⟨kind, text, rest⟩ := x
    rw [ht] at h ⊢
    cases hx with
    | equals =>
      obtain ⟨right, q, body, rest', ps, m, hrest, hright, hq, hbody, hps, hr⟩ :=
        exists_of_readValue h
      exact ⟨gap, right, q, body, rest', ps, m, by rw [hcs, ← hrest]; rfl, hb, hright, hq, hbody,
        hps, hr⟩
    | _ => cases h

/-- Attributes that are read without a report are written so, up to the end of the tag or of the
text. -/
theorem exists_of_readAll (h : (readAll stop (tokens ⟨cs, n, [.tag, .content]⟩)).2 = []) :
    ∃ (as : List Written) (gap tail : List Char), cs = as.flatMap Written.chars ++ (gap ++ tail) ∧
      (∀ c ∈ gap, Text.isBlank c = true) ∧
      (tail = [] ∨ ∃ more, tail = '>' :: more ∨ tail = '/' :: '>' :: more) := by
  induction hlen : cs.length using Nat.strong_induction_on generalizing cs n with
  | _ k ih =>
    cases nextInTag cs n with
    | stop hb => exact ⟨[], cs, [], (List.append_nil cs).symm, hb, .inl rfl⟩
    | @token gap x hcs hb hx ht =>
      obtain ⟨kind, text, rest⟩ := x
      rw [ht, readAll] at h
      cases hx with
      | tagEnd => exact ⟨[], gap, '>' :: rest, hcs, hb, .inr ⟨rest, .inl rfl⟩⟩
      | selfClose => exact ⟨[], gap, '/' :: '>' :: rest, hcs, hb, .inr ⟨rest, .inr rfl⟩⟩
      | name hname =>
        obtain ⟨hread, hall⟩ := List.append_eq_nil_iff.mp h
        obtain ⟨left, right, q, body, rest', ps, m, hrest, hleft, hright, hq, hbody, hps, hr⟩ :=
          exists_of_read hread
        have hlater := (congrArg (fun ts => (readAll stop ts).2) hr).symm.trans hall
        let a : Written := ⟨gap, text, left, right, q, body, ps, hb, hname, hleft, hright, hq,
          hbody, hps⟩
        have hchars : cs = a.chars ++ rest' := by
          have hrest : rest = left ++ '=' :: (right ++ q :: (body ++ q :: rest')) := hrest
          rw [hcs, hrest]
          simp [a, Written.chars, Written.front]
        have hlt : rest'.length < k := by
          rw [← hlen, hchars]
          simp [Written.chars, Written.front]
          omega
        obtain ⟨as, gap', tail, hrest', hgap', htail⟩ := ih _ hlt hlater rfl
        refine ⟨a :: as, gap', tail, ?_, hgap', htail⟩
        rw [hchars, hrest', List.flatMap_cons, List.append_assoc]
      | templateOpen =>
        exact absurd h (List.append_ne_nil_of_right_ne_nil _ (List.cons_ne_nil _ _))
      | _ => cases h

end Attribute

def OpeningTag.IsWritten (tag : OpeningTag) (as : List Attribute.Written) : Prop :=
  ∃ gap ending, (∀ c ∈ gap, Text.isBlank c = true) ∧ ending ∈ [['>'], ['/', '>']] ∧
    tag.text = '<' :: tag.name ++ (as.flatMap Attribute.Written.chars ++ (gap ++ ending))

theorem OpeningTag.isWritten_iff {tag : OpeningTag} {as : List Attribute.Written} :
    tag.IsWritten as ↔ ∃ gap ending, (∀ c ∈ gap, Text.isBlank c = true) ∧
      ending ∈ [['>'], ['/', '>']] ∧
        tag.inside ++ ['>'] = as.flatMap Attribute.Written.chars ++ (gap ++ ending) := by
  simp only [IsWritten, text, List.cons_append, List.append_assoc, List.cons.injEq, true_and,
    List.append_cancel_left_eq]

/-- In a tag alone a scan finds the same end as in the text, outside of quotes or in them. -/
theorem Mark.scan_of_opening {cs rest : List Char} {tag : OpeningTag}
    (h : read cs = .opening tag rest) :
    OpeningTag.scan none (tag.inside ++ ['>']) = .found tag.inside [] ∨
      OpeningTag.scan none (tag.inside ++ ['>']) = .inQuotes := by
  obtain ⟨after, -, -, hs⟩ := read_eq_opening h
  obtain rfl := OpeningTag.append_of_splitEnd? hs
  have hsplit : OpeningTag.splitEnd? (tag.inside ++ ['>']) = some (tag.inside, []) :=
    OpeningTag.splitEnd?_of_append hs rfl
  rw [OpeningTag.splitEnd?] at hsplit
  split at hsplit
  · rename_i hscan
    cases hsplit
    exact .inl hscan
  · rename_i hscan
    exact .inr hscan
  · cases hsplit

namespace OpeningTag

variable {tag : OpeningTag} {as : List Attribute.Written} {gap tail : List Char}

theorem tail_ne_nil {inside : List Char} (hb : ∀ c ∈ gap, Text.isBlank c = true)
    (h : inside ++ ['>'] = as.flatMap Attribute.Written.chars ++ (gap ++ tail)) : tail ≠ [] := by
  rintro rfl
  have hlast : (as.flatMap Attribute.Written.chars ++ gap).getLast? = some '>' := by
    rw [List.append_nil] at h
    rw [← h]
    simp
  obtain rfl | hne := eq_or_ne gap []
  · obtain rfl | ⟨as, a, rfl⟩ := List.eq_nil_or_concat' as
    · cases hlast
    · have hq : a.quote = '>' := by simpa [Attribute.Written.chars] using hlast
      have hmem := a.quote_mem
      rw [hq] at hmem
      exact absurd hmem (by decide)
  · rw [List.getLast?_append_of_ne_nil _ hne] at hlast
    exact absurd (hb _ (List.mem_of_mem_getLast? hlast)) (by decide)

theorem scan_written (as : List Attribute.Written) (hb : ∀ c ∈ gap, Text.isBlank c = true)
    {ending : List Char} (he : ending ∈ [['>'], ['/', '>']]) (more : List Char) : ∃ inside,
    scan none (as.flatMap Attribute.Written.chars ++ (gap ++ (ending ++ more))) =
      .found inside more := by
  have hplain : ∀ c ∈ gap, c ∉ delimiters := fun c hc => not_mem_delimiters (by decide) (hb c hc)
  have hending : ∃ inside, scan none (ending ++ more) = .found inside more := by
    obtain rfl | rfl := List.mem_pair.mp he
    · exact ⟨[], rfl⟩
    · exact ⟨['/'], rfl⟩
  obtain ⟨inside, hscan⟩ := hending
  exact ⟨_, Attribute.Written.scan_flatMap_chars as (scan_plain hplain hscan)⟩

/-- The attributes of a tag are read without a report when the tag is written with attributes. -/
theorem readAll_eq_nil_iff (h : scan none (tag.inside ++ ['>']) = .found tag.inside [] ∨
    scan none (tag.inside ++ ['>']) = .inQuotes) (start stop : Nat) :
    (Attribute.readAll stop (Lexer.behindName start tag).tokens).2 = [] ↔
      ∃ as, tag.IsWritten as := by
  simp only [isWritten_iff]
  constructor
  · intro hread
    obtain ⟨as, gap, tail, htag, hgap, htail⟩ := Attribute.exists_of_readAll hread
    have hend : ∃ ending more, ending ∈ [['>'], ['/', '>']] ∧ tail = ending ++ more := by
      obtain hnil | ⟨more, rfl | rfl⟩ := htail
      · exact absurd hnil (tail_ne_nil hgap htag)
      · exact ⟨['>'], more, by decide, rfl⟩
      · exact ⟨['/', '>'], more, by decide, rfl⟩
    obtain ⟨ending, more, he, rfl⟩ := hend
    -- the scan has found no other end, so nothing is left behind this one
    obtain ⟨inside, hscan⟩ := scan_written as hgap he more
    rw [← htag] at hscan
    obtain h | h := h
    · rw [h] at hscan
      cases hscan
      rw [List.append_nil] at htag
      exact ⟨as, gap, ending, hgap, he, htag⟩
    · rw [h] at hscan
      cases hscan
  · rintro ⟨as, gap, ending, hgap, he, htag⟩
    rw [Lexer.behindName, htag, Attribute.readAll_written, Attribute.readAll_ending hgap he]

theorem readAll_of_isWritten (h : tag.IsWritten as) (start stop : Nat) :
    (Attribute.readAll stop (Lexer.behindName start tag).tokens).1 =
      Attribute.Written.toAttributes (start + 1 + Text.size tag.name) as := by
  obtain ⟨gap, ending, hgap, he, htag⟩ := isWritten_iff.mp h
  rw [Lexer.behindName, htag, Attribute.readAll_written, Attribute.readAll_ending hgap he,
    List.append_nil]

end OpeningTag

namespace Tag

variable {v : Vocabulary} {e : Element}

/-- Which tags of an element that starts at the given offset are read without a report, and what is
read from them then. -/
structure Accepts (source : List Char) (start : Nat) (e : Element) : Prop where
  isSlice : Text.IsSlice source start (start + Text.size e.opening.text) e.opening.text
  notes : (ofElement start e).2 = [] ↔ (∃ as, e.opening.IsWritten as) ∧
    ∀ x, e.enclosed = some x → x.2.name = e.opening.name
  attributes : ∀ as, e.opening.IsWritten as → (ofElement start e).1.attributes =
    Attribute.Written.toAttributes (start + 1 + Text.size e.opening.name) as

theorem mismatchAt_eq_nil_iff {start : Nat} {x : List Char × ClosingTag} :
    mismatchAt start e x = [] ↔ x.2.name = e.opening.name := by
  unfold mismatchAt
  split <;> simp [*]

theorem accepts_of_read {cs rest : List Char} (h : Head.read v cs = .element e rest)
    (before after : List Char) : Accepts (before ++ (cs ++ after)) (Text.size before) e := by
  have heq := ofElement_eq (Head.sound_of_read h) (Text.size before)
  obtain ⟨ds, behind, rfl, hmark, -, -⟩ := Head.read_eq_element_iff.mp h
  have hscan := Mark.scan_of_opening hmark
  refine ⟨⟨before, behind ++ after, ?_, rfl, rfl⟩, ?_, fun as has => ?_⟩
  · rw [← Mark.text_append_of_opening hmark, List.append_assoc]
  · rw [heq, List.append_eq_nil_iff]
    refine and_congr (OpeningTag.readAll_eq_nil_iff hscan ..) ?_
    cases e.enclosed with
    | none => simp
    | some x => simp [mismatchAt_eq_nil_iff]
  · rw [heq]
    exact OpeningTag.readAll_of_isWritten has ..

/-- The tags that are read without a report are those that are written by the grammar. -/
theorem accepts_of_mem {limits : Limits} {source : List Char} {u : Tree Region}
    (hu : u ∈ (outline v limits source).subtrees) (he : u.label.piece.element? = some e) :
    Accepts source u.label.start e := by
  obtain ⟨before, cs, rest, after, rfl, hstart, h⟩ := Region.read_of_mem hu he
  rw [hstart]
  exact accepts_of_read h before after

theorem accepts_spaced_attribute :
    ∃ u ∈ (outline Parser.sample.vocabulary {}
        "<p a = 'x\x7b\x7by\x7d\x7d'>b</p>".toList).subtrees,
      ∃ e as, u.label.piece.element? = some e ∧ e.opening.IsWritten as ∧
        (ofElement u.label.start e).2 = [] ∧ (ofElement u.label.start e).1.attributes =
          [⟨"a", ⟨3, 4⟩, [.literal "x" ⟨8, 9⟩, .template "y" ⟨9, 14⟩], some ⟨8, 14⟩⟩] := by
  let tag : OpeningTag := ⟨['p'], " a = 'x\x7b\x7by\x7d\x7d'".toList⟩
  let e : Element := ⟨.structural, tag, some (['b'], ⟨['p'], []⟩)⟩
  let a : Attribute.Written := ⟨[' '], ['a'], [' '], [' '], '\'', "x\x7b\x7by\x7d\x7d".toList,
    [.literal ['x'], .template ['y']], by simp [Text.isBlank], Name.isName_iff.mp (by decide),
    by simp [Text.isBlank], by simp [Text.isBlank], by decide, by decide, rfl⟩
  have hroot : (outline Parser.sample.vocabulary {}
      "<p a = 'x\x7b\x7by\x7d\x7d'>b</p>".toList).label = ⟨0, .element e, []⟩ := by
    decide +kernel
  have hwritten : tag.IsWritten [a] := ⟨[], ['>'], List.forall_mem_nil _, by decide, by decide⟩
  have haccepts := accepts_of_mem (e := e) (Tree.mem_subtrees_self _) (by rw [hroot]; rfl)
  refine ⟨_, Tree.mem_subtrees_self _, e, [a], by rw [hroot]; rfl, hwritten,
    haccepts.notes.mpr ⟨⟨[a], hwritten⟩, ?_⟩, (haccepts.attributes [a] hwritten).trans ?_⟩
  · rintro _ ⟨⟩
    rfl
  · rw [hroot]
    decide

end Tag

end ProseMarkup
