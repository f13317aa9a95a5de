import ProseMarkup.Proofs.Lexing
import ProseMarkup.Proofs.Markup.Search

namespace ProseMarkup

namespace OpeningTag

def quoteBehind : Option Char → Char → Option Char
  | some q, c => if c = q then none else some q
  | none, c => if c = '"' || c = '\'' then some c else none

def openQuote (quote : Option Char) (cs : List Char) : Option Char :=
  cs.foldl quoteBehind quote

/-- The characters before which no quote is open. -/
def unquoted (quote : Option Char) : List Char → List Char
  | [] => []
  | c :: cs =>
    if quote.isNone then c :: unquoted (quoteBehind quote c) cs
    else unquoted (quoteBehind quote c) cs

variable {quote : Option Char} {as bs cs inside rest : List Char}

theorem openQuote_append (quote : Option Char) (as bs : List Char) :
    openQuote quote (as ++ bs) = openQuote (openQuote quote as) bs :=
  List.foldl_append

theorem unquoted_append (quote : Option Char) (as bs : List Char) :
    unquoted quote (as ++ bs) = unquoted quote as ++ unquoted (openQuote quote as) bs := by
  induction as generalizing quote with
  | nil => rfl
  | cons a as ih =>
    rw [List.cons_append, unquoted, unquoted, ih]
    split <;> rfl

theorem quoted_of_not_mem {q : Char} (h : q ∉ cs) :
    unquoted (some q) cs = [] ∧ openQuote (some q) cs = some q := by
  induction cs with
  | nil => exact ⟨rfl, rfl⟩
  | cons c cs ih =>
    obtain ⟨hc, h⟩ := List.ne_and_not_mem_of_not_mem_cons h
    have hbehind : quoteBehind (some q) c = some q := if_neg (Ne.symm hc)
    rw [unquoted, openQuote, List.foldl_cons, hbehind]
    exact ih h

theorem unquoted_of_not_mem (h : ∀ c ∈ cs, c ≠ '"' ∧ c ≠ '\'') :
    unquoted none cs = cs ∧ openQuote none cs = none := by
  induction cs with
  | nil => exact ⟨rfl, rfl⟩
  | cons c cs ih =>
    obtain ⟨hc, h⟩ := List.forall_mem_cons.mp h
    have hbehind : quoteBehind none c = none := by simp [quoteBehind, hc]
    obtain ⟨hunquoted, hopen⟩ := ih h
    rw [unquoted, openQuote, List.foldl_cons, hbehind, hunquoted]
    exact ⟨rfl, hopen⟩

theorem not_quote_of_not_mem {c : Char} (h : c ∉ delimiters) : c ≠ '>' ∧ c ≠ '"' ∧ c ≠ '\'' := by
  simp only [delimiters, List.mem_cons, List.not_mem_nil, or_false, not_or] at h
  exact ⟨h.1, h.2.2⟩

theorem not_mem_delimiters_of_isBlank {c : Char} (h : Text.isBlank c = true) : c ∉ delimiters :=
  not_mem_delimiters (by decide) h

theorem unquoted_of_isBlank (h : ∀ c ∈ cs, Text.isBlank c = true) :
    unquoted none cs = cs ∧ openQuote none cs = none :=
  unquoted_of_not_mem fun c hc => (not_quote_of_not_mem (not_mem_delimiters_of_isBlank (h c hc))).2

theorem scan_cons_none (c : Char) (cs : List Char) :
    scan none (c :: cs) = if c = '>' then .found [] cs else if c = '<' then .missing
      else (scan (quoteBehind none c) cs).push c := rfl

theorem scan_cons_some (q c : Char) (cs : List Char) :
    scan (some q) (c :: cs) = (scan (quoteBehind (some q) c) cs).push c := rfl

/-- Before the end that a scan finds no tag starts or ends outside of quotes, and at the end no
quote is open. -/
theorem unquoted_of_found (h : scan quote cs = .found inside rest) :
    '<' ∉ unquoted quote inside ∧ '>' ∉ unquoted quote inside ∧ openQuote quote inside = none := by
  induction cs generalizing quote inside with
  | nil => cases quote <;> cases h
  | cons c cs ih =>
    cases quote with
    | some q =>
      rw [scan_cons_some] at h
      obtain ⟨i, rfl, hs⟩ := Ending.push_eq_found.mp h
      have hi := ih hs
      exact hi
    | none =>
      rw [scan_cons_none] at h
      by_cases hgt : c = '>'
      · rw [if_pos hgt] at h
        cases h
        exact ⟨List.not_mem_nil, List.not_mem_nil, rfl⟩
      by_cases hlt : c = '<'
      · rw [if_neg hgt, if_pos hlt] at h
        cases h
      · rw [if_neg hgt, if_neg hlt] at h
        obtain ⟨i, rfl, hs⟩ := Ending.push_eq_found.mp h
        obtain ⟨hlt', hgt', hopen⟩ := ih hs
        exact ⟨List.not_mem_cons_of_ne_of_not_mem (Ne.symm hlt) hlt',
          List.not_mem_cons_of_ne_of_not_mem (Ne.symm hgt) hgt', hopen⟩

theorem Ending.push_eq_inQuotes {c : Char} {x : Ending} : x.push c = inQuotes ↔ x = inQuotes := by
  cases x <;> simp [push]

theorem unquoted_of_inQuotes (h : scan quote cs = .inQuotes) :
    '<' ∉ unquoted quote cs ∧ '>' ∉ unquoted quote cs := by
  induction cs generalizing quote with
  | nil => exact ⟨List.not_mem_nil, List.not_mem_nil⟩
  | cons c cs ih =>
    cases quote with
    | some q =>
      rw [scan_cons_some] at h
      exact ih (Ending.push_eq_inQuotes.mp h)
    | none =>
      rw [scan_cons_none] at h
      by_cases hgt : c = '>'
      · rw [if_pos hgt] at h
        cases h
      by_cases hlt : c = '<'
      · rw [if_neg hgt, if_pos hlt] at h
        cases h
      · rw [if_neg hgt, if_neg hlt] at h
        obtain ⟨hlt', hgt'⟩ := ih (Ending.push_eq_inQuotes.mp h)
        exact ⟨List.not_mem_cons_of_ne_of_not_mem (Ne.symm hlt) hlt',
          List.not_mem_cons_of_ne_of_not_mem (Ne.symm hgt) hgt'⟩

theorem isQuote_of_openQuote (hq : ∀ q ∈ quote, Token.IsQuote q) :
    ∀ q ∈ openQuote quote cs, Token.IsQuote q := by
  induction cs generalizing quote with
  | nil => exact hq
  | cons c cs ih =>
    apply ih
    intro q hbehind
    cases quote with
    | some q' =>
      rw [quoteBehind] at hbehind
      split at hbehind
      · cases hbehind
      · exact hq q hbehind
    | none =>
      rw [quoteBehind] at hbehind
      split at hbehind
      · rename_i hc
        obtain rfl := Option.some.inj hbehind
        simpa [Token.IsQuote] using hc
      · cases hbehind

/-- Holds of a text in which no tag and no template starts outside of quotes. -/
structure Clean (quote : Option Char) (cs : List Char) : Prop where
  lt : '<' ∉ unquoted quote cs
  braces : ¬['{', '{'] <:+: unquoted quote cs

theorem Clean.left (h : Clean quote (as ++ bs)) : Clean quote as := by
  obtain ⟨hlt, hbraces⟩ := h
  rw [unquoted_append] at hlt hbraces
  exact ⟨fun hm => hlt (List.mem_append_left _ hm),
    fun hi => hbraces (hi.trans (List.prefix_append _ _).isInfix)⟩

theorem Clean.right (h : Clean quote (as ++ bs)) : Clean (openQuote quote as) bs := by
  obtain ⟨hlt, hbraces⟩ := h
  rw [unquoted_append] at hlt hbraces
  exact ⟨fun hm => hlt (List.mem_append_right _ hm),
    fun hi => hbraces (hi.trans (List.suffix_append _ _).isInfix)⟩

end OpeningTag

end ProseMarkup
