import ProseMarkup.Proofs.Markup.Tags

namespace ProseMarkup

namespace Markup

namespace Part

def consLiteral (c : Char) : List Part → List Part
  | literal cs :: ps => literal (c :: cs) :: ps
  | ps => literal [c] :: ps

mutual

/-- The parts of a value, from the left: two opening braces start a template. There are none when a
template does not end. -/
def split? : List Char → Option (List Part)
  | [] => some []
  | '{' :: '{' :: cs => (splitInner? cs).map fun (inner, ps) => template inner :: ps
  | c :: cs => (split? cs).map (consLiteral c)

def splitInner? : List Char → Option (List Char × List Part)
  | [] => none
  | '}' :: '}' :: cs => (split? cs).map fun ps => ([], ps)
  | c :: cs => (splitInner? cs).map fun (inner, ps) => (c :: inner, ps)

end

example : split? "a\x7b\x7b\x7bb\x7d\x7d\x7d".toList =
    some [.literal ['a'], .template ['{', 'b'], .literal ['}']] := by rfl

open Token.Lexeme (opensTemplate closesTemplate)

theorem split?_cons {c : Char} {cs : List Char} (h : opensTemplate (c :: cs) = false) :
    split? (c :: cs) = (split? cs).map (consLiteral c) := by
  rw [split?]
  rintro ds rfl rfl
  cases h

theorem splitInner?_cons {c : Char} {cs : List Char} (h : closesTemplate (c :: cs) = false) :
    splitInner? (c :: cs) = (splitInner? cs).map fun (inner, ps) => (c :: inner, ps) := by
  rw [splitInner?]
  rintro ds rfl rfl
  cases h

def NotLiteral : List Part → Prop
  | literal _ :: _ => False
  | _ => True

theorem notLiteral_of_split? {cs : List Char} {ps : List Part} (h : split? cs = some ps)
    (ho : cs ≠ [] → opensTemplate cs = true) : NotLiteral ps := by
  cases cs with
  | nil =>
    obtain rfl := Option.some.inj h
    trivial
  | cons c cs =>
    obtain ⟨ds, hds⟩ := Token.Lexeme.opensTemplate_eq_true (ho (List.cons_ne_nil c cs))
    rw [hds, split?] at h
    obtain ⟨⟨inner, ps⟩, -, rfl⟩ := Option.map_eq_some_iff.mp h
    trivial

theorem split?_literal {c : Char} {cs : List Char} (h : opensTemplate (c :: cs) = false) :
    split? (c :: cs) = (split? (Text.breakBefore opensTemplate cs).2).map
      (literal (c :: (Text.breakBefore opensTemplate cs).1) :: ·) := by
  induction cs generalizing c with
  | nil => rw [split?_cons h]; rfl
  | cons d cs ih =>
    rw [split?_cons h, Text.breakBefore]
    split
    · rename_i ho
      cases hs : split? (d :: cs) with
      | none => rfl
      | some ps =>
        have hps := notLiteral_of_split? hs fun _ => ho
        rcases ps with _ | ⟨_ | _, ps⟩
        · rfl
        · cases hps
        · rfl
    · rename_i ho
      rw [ih (Bool.eq_false_iff.mpr ho), Option.map_map]
      rfl

theorem splitInner?_eq (cs : List Char) :
    splitInner? cs = if (Text.breakBefore closesTemplate cs).2 = [] then none
      else (split? ((Text.breakBefore closesTemplate cs).2.drop 2)).map
        ((Text.breakBefore closesTemplate cs).1, ·) := by
  induction cs with
  | nil => rfl
  | cons c cs ih =>
    rw [Text.breakBefore]
    split
    · rename_i hc
      obtain ⟨ds, hds⟩ := Token.Lexeme.closesTemplate_eq_true hc
      rw [hds, splitInner?, if_neg (List.cons_ne_nil _ _)]
      rfl
    · rename_i hc
      rw [splitInner?_cons (Bool.eq_false_iff.mpr hc), ih]
      split
      · rfl
      · rw [Option.map_map]
        rfl

end Part

end Markup

namespace Attribute

open Lexer

open Markup (Part)

open Markup.Part

open Token (Mode)

open Token.Lexeme (opensTemplate closesTemplate)

variable {q : Char} {ms : List Mode} {tail : List Char}

theorem prefix_append_iff {as : List Char} (hq : q ∉ as) (ht : tail ≠ [] → tail.head? = some q)
    (cs : List Char) : as <+: cs ++ tail ↔ as <+: cs := by
  refine ⟨fun h => ?_, fun h => h.trans (List.prefix_append _ _)⟩
  cases tail with
  | nil => rwa [List.append_nil] at h
  | cons c tail =>
    obtain rfl := Option.some.inj (ht (List.cons_ne_nil c tail))
    exact Text.prefix_of_prefix_append hq h

theorem opensTemplate_append (hq : q ≠ '{') (ht : tail ≠ [] → tail.head? = some q)
    (cs : List Char) : opensTemplate (cs ++ tail) = opensTemplate cs := by
  rw [Bool.eq_iff_iff, Token.Lexeme.opensTemplate_iff, Token.Lexeme.opensTemplate_iff]
  exact prefix_append_iff (by simp [hq]) ht cs

theorem closesTemplate_append (hq : q ≠ '}') (ht : tail ≠ [] → tail.head? = some q)
    (cs : List Char) : closesTemplate (cs ++ tail) = closesTemplate cs := by
  rw [Bool.eq_iff_iff, Token.Lexeme.closesTemplate_iff, Token.Lexeme.closesTemplate_iff]
  exact prefix_append_iff (by simp [hq]) ht cs

/-- The quote that ends a value ends a template in it. -/
theorem tokens_quote_in_template (rest : List Char) (n : Nat) :
    Lexer.tokens ⟨q :: rest, n, .template (some q) :: .value q :: .tag :: ms⟩ =
      ⟨.quote, .ofList [q], n⟩ :: Lexer.tokens ⟨rest, n + Text.size [q], .tag :: ms⟩ := by
  have hsettle : settle q (.template (some q) :: .value q :: .tag :: ms) =
      .value q :: .tag :: ms := if_pos rfl
  have hnext : next ⟨q :: rest, n, .template (some q) :: .value q :: .tag :: ms⟩ =
      next ⟨q :: rest, n, .value q :: .tag :: ms⟩ := by
    rw [next, next, settled, settled]
    exact congrArg (fun ms => (Lexer.mk (q :: rest) n ms).skipBlanks.take) hsettle
  exact (tokens_eq_of_next hnext).trans (emits_closing_quote rest)

theorem kind_of_mem_head? (ht : tail ≠ [] → tail.head? = some q) (n : Nat) :
    ∀ t ∈ (Lexer.tokens ⟨tail, n, .template (some q) :: .value q :: .tag :: ms⟩).head?,
      t.kind = .quote := by
  intro t hhead
  cases tail with
  | nil =>
    rw [tokens_of_nil] at hhead
    cases hhead
  | cons c tail =>
    obtain rfl := Option.some.inj (ht (List.cons_ne_nil c tail))
    rw [tokens_quote_in_template] at hhead
    obtain rfl := Option.some.inj hhead
    rfl

theorem notes_of_unterminated {opened : Token} {inner : String} {us ts : List Token}
    (hu : ∀ u ∈ us, u.kind = .rawText) (ht : ∀ t ∈ ts.head?, t.kind = .quote) :
    (readTemplate opened inner (us ++ ts)).notes ≠ [] := by
  induction us generalizing inner with
  | nil =>
    cases ts with
    | nil => exact List.cons_ne_nil _ _
    | cons t ts =>
      rw [List.nil_append, readTemplate, ht t rfl]
      exact List.cons_ne_nil _ _
  | cons u us ih =>
    obtain ⟨hu, hus⟩ := List.forall_mem_cons.mp hu
    rw [List.cons_append, readTemplate, hu]
    exact ih hus

theorem emits_inside (ms : List Mode) (hq : q ≠ '}') {cs : List Char} (hc : q ∉ cs)
    (ht : tail ≠ [] → tail.head? = some q) (n : Nat) :
    Emits ⟨cs ++ tail, n, .template (some q) :: ms⟩
      (if (Text.breakBefore closesTemplate cs).1 = [] then []
        else [⟨.rawText, .ofList (Text.breakBefore closesTemplate cs).1, n⟩])
      ⟨(Text.breakBefore closesTemplate cs).2 ++ tail,
        n + Text.size (Text.breakBefore closesTemplate cs).1, .template (some q) :: ms⟩ := by
  have happend := Text.breakBefore_append closesTemplate cs
  have hstops : ∀ s, s <:+ (Text.breakBefore closesTemplate cs).1 → s ≠ [] →
      closesTemplate (s ++ (Text.breakBefore closesTemplate cs).2) = false :=
    fun s => Text.stops_of_suffix
  have hend : (Text.breakBefore closesTemplate cs).2 ≠ [] →
      closesTemplate (Text.breakBefore closesTemplate cs).2 = true := Text.breakBefore_stops
  generalize Text.breakBefore closesTemplate cs = x at happend hstops hend ⊢
  obtain ⟨inner, rest⟩ := x
  obtain rfl := happend
  rw [List.append_assoc]
  refine emits_expression (fun h => hc (List.mem_append_left _ h)) ?_ n ?_
  · intro s hs hne
    rw [← List.append_assoc, closesTemplate_append hq ht]
    exact hstops s hs hne
  · intro hne
    rw [closesTemplate_append hq ht]
    by_cases hr : rest = []
    · subst hr
      exact .inr (ht hne)
    · exact .inl (hend hr)

theorem emits_outside (ms : List Mode) (hq : q ≠ '{') {c : Char} {cs : List Char} (hc : q ∉ c :: cs)
    (ho : opensTemplate (c :: cs) = false) (ht : tail ≠ [] → tail.head? = some q) (n : Nat) :
    Emits ⟨c :: cs ++ tail, n, .value q :: ms⟩
      [⟨.attributeText, .ofList (c :: (Text.breakBefore opensTemplate cs).1), n⟩]
      ⟨(Text.breakBefore opensTemplate cs).2 ++ tail,
        n + Text.size (c :: (Text.breakBefore opensTemplate cs).1), .value q :: ms⟩ := by
  have happend := Text.breakBefore_append opensTemplate cs
  have hstops : ∀ s, s <:+ (Text.breakBefore opensTemplate cs).1 → s ≠ [] →
      opensTemplate (s ++ (Text.breakBefore opensTemplate cs).2) = false :=
    fun s => Text.stops_of_suffix
  have hend : (Text.breakBefore opensTemplate cs).2 ≠ [] →
      opensTemplate (Text.breakBefore opensTemplate cs).2 = true := Text.breakBefore_stops
  generalize Text.breakBefore opensTemplate cs = x at happend hstops hend ⊢
  obtain ⟨text, rest⟩ := x
  obtain rfl := happend
  rw [List.cons_append, List.append_assoc, ← List.cons_append]
  refine emits_text (List.cons_ne_nil c text) ?_ n ?_
  · intro s hs hne
    have hopens : opensTemplate (s ++ rest) = false := by
      obtain rfl | hs := List.suffix_cons_iff.mp hs
      · exact ho
      · exact hstops s hs hne
    obtain ⟨d, s, rfl⟩ := List.exists_cons_of_ne_nil hne
    have hd : d ≠ q := by
      rintro rfl
      obtain hd | hd := List.mem_cons.mp (hs.subset List.mem_cons_self)
      · exact hc (hd ▸ List.mem_cons_self)
      · exact hc (List.mem_cons_of_mem _ (List.mem_append_left _ hd))
    rw [endsLiteral, ← List.append_assoc, opensTemplate_append hq ht, hopens]
    simp [hd]
  · intro hne
    rw [endsLiteral, opensTemplate_append hq ht]
    by_cases hr : rest = []
    · subst hr
      simp [ht hne]
    · simp [hend hr]

variable {opened : Token} {stop : Nat} {span : Span} {notes : List Diagnostic} {ts : List Token}

/-- Holds when a lexer in a value reads the text to the end of the value as it is cut, and reports
one that cannot be cut. The end itself has the given notes and leaves the given tokens. -/
def ReadsAs (opened : Token) (stop : Nat) (l : Lexer) (body : List Char) (span : Span)
    (notes : List Diagnostic) (ts : List Token) : Prop :=
  (∀ ps, split? body = some ps →
    readQuoted opened stop l.tokens = ⟨(fragments l.offset ps, span), notes, ts⟩) ∧
  (split? body = none → (readQuoted opened stop l.tokens).notes ≠ [])

namespace ReadsAs

variable {body rest : List Char} {l l' : Lexer}

theorem template {inner : List Char} (h : ReadsAs opened stop l' rest span notes ts)
    (hl : Emits l ((Part.template inner).tokens l.offset) l')
    (ho : l'.offset = l.offset + Text.size (Part.template inner).chars)
    (hs : split? body = (split? rest).map (.template inner :: ·)) :
    ReadsAs opened stop l body span notes ts := by
  have htokens : l.tokens = ⟨.templateOpen, .ofList ['{', '{'], l.offset⟩ ::
      ((if inner = [] then [] else [⟨.rawText, .ofList inner, l.offset + 2⟩]) ++
        ⟨.templateClose, .ofList ['}', '}'], l.offset + 2 + Text.size inner⟩ :: l'.tokens) := by
    rw [hl, Part.tokens]
    simp
  have hread := readTemplate_tokens inner l.offset l'.tokens
  obtain ⟨hsome, hnone⟩ := h
  rw [ReadsAs, hs, htokens, readQuoted]
  simp only [hread]
  refine ⟨fun ps hps => ?_, fun hn => hnone (Option.map_eq_none_iff.mp hn)⟩
  obtain ⟨us, hus, rfl⟩ := Option.map_eq_some_iff.mp hps
  rw [hsome us hus, ho]
  rfl

theorem literal {text : List Char} (h : ReadsAs opened stop l' rest span notes ts)
    (hl : Emits l [⟨.attributeText, .ofList text, l.offset⟩] l')
    (ho : l'.offset = l.offset + Text.size text)
    (hs : split? body = (split? rest).map (.literal text :: ·))
    (hn : ∀ ps, split? rest = some ps → NotLiteral ps) :
    ReadsAs opened stop l body span notes ts := by
  have htokens : l.tokens = ⟨.attributeText, .ofList text, l.offset⟩ :: l'.tokens := hl
  obtain ⟨hsome, hnone⟩ := h
  rw [ReadsAs, hs, htokens, readQuoted]
  refine ⟨fun ps hps => ?_, fun hn => hnone (Option.map_eq_none_iff.mp hn)⟩
  obtain ⟨us, hus, rfl⟩ := Option.map_eq_some_iff.mp hps
  -- the next fragment is no literal, so the two are not joined
  have hnext := hn us hus
  simp only [hsome us hus, ho, Token.span_ofList]
  rcases us with _ | ⟨_ | _, us⟩
  · rfl
  · cases hnext
  · rfl

theorem unterminated {us : List Token} (hu : ∀ u ∈ us, u.kind = .rawText)
    (hl : Emits l (⟨.templateOpen, .ofList ['{', '{'], l.offset⟩ :: us) l')
    (ht : ∀ t ∈ l'.tokens.head?, t.kind = .quote) (hs : split? body = none) :
    ReadsAs opened stop l body span notes ts := by
  refine ⟨fun ps hps => ?_, fun _ => ?_⟩
  · rw [hs] at hps
    cases hps
  · have htokens : l.tokens = ⟨.templateOpen, .ofList ['{', '{'], l.offset⟩ :: (us ++ l'.tokens) :=
      hl
    rw [htokens, readQuoted]
    exact List.append_ne_nil_of_left_ne_nil (notes_of_unterminated hu ht) _

end ReadsAs

theorem readsAs_of_braces (hq : q ≠ '{' ∧ q ≠ '}') (ht : tail ≠ [] → tail.head? = some q)
    {cs : List Char} (hc : q ∉ cs) (n : Nat)
    (ih : ∀ rest m, rest.length < cs.length → q ∉ rest →
      m + Text.size rest = n + Text.size ('{' :: '{' :: cs) →
      ReadsAs opened stop ⟨rest ++ tail, m, .value q :: .tag :: ms⟩ rest span notes ts) :
    ReadsAs opened stop ⟨'{' :: '{' :: (cs ++ tail), n, .value q :: .tag :: ms⟩
      ('{' :: '{' :: cs) span notes ts := by
  have hopen := @emits_template_open (.tag :: ms) q hq.1 (cs ++ tail) n
  have hinside := emits_inside (.value q :: .tag :: ms) hq.2 hc ht (n + 2)
  have hsplit := splitInner?_eq cs
  have happend := Text.breakBefore_append closesTemplate cs
  have hend : (Text.breakBefore closesTemplate cs).2 ≠ [] →
    closesTemplate (Text.breakBefore closesTemplate cs).2 = true := Text.breakBefore_stops
  generalize Text.breakBefore closesTemplate cs = x at happend hsplit hinside hend
  obtain ⟨inner, rest⟩ := x
  obtain rfl := happend
  by_cases hr : rest = []
  · subst hr
    refine ReadsAs.unterminated ?_ (hopen.trans hinside) ?_ ?_
    · intro u hu
      split at hu
      · cases hu
      · rw [List.mem_singleton.mp hu]
    · exact kind_of_mem_head? ht _
    · rw [split?, hsplit, if_pos rfl]
      rfl
  · obtain ⟨rest, rfl⟩ := Token.Lexeme.closesTemplate_eq_true (hend hr)
    have hclose := @emits_template_close (.tag :: ms) q hq.2 (rest ++ tail)
      (n + 2 + Text.size inner)
    have hoffset : n + 2 + Text.size inner + 2 = n + Text.size (Part.template inner).chars := by
      rw [size_template]
      omega
    have hrest := ih rest (n + 2 + Text.size inner + 2) (by simp; omega)
      (fun h => hc (by simp [h])) <| by
        rw [hoffset, Nat.add_assoc, ← Text.size_append]
        simp [Part.chars, Piece.chars]
    refine hrest.template ((hopen.trans hinside).trans hclose) hoffset ?_
    rw [split?, hsplit, if_neg hr, Option.map_map]
    rfl

theorem readsAs_of_text (hq : q ≠ '{') (ht : tail ≠ [] → tail.head? = some q) {c : Char}
    {cs : List Char} (hc : q ∉ c :: cs) (ho : opensTemplate (c :: cs) = false) (n : Nat)
    (ih : ∀ rest m, rest.length ≤ cs.length → q ∉ rest →
      m + Text.size rest = n + Text.size (c :: cs) →
      ReadsAs opened stop ⟨rest ++ tail, m, .value q :: .tag :: ms⟩ rest span notes ts) :
    ReadsAs opened stop ⟨c :: cs ++ tail, n, .value q :: .tag :: ms⟩ (c :: cs) span notes ts := by
  have hsplit := split?_literal ho
  have hemits := emits_outside (.tag :: ms) hq hc ho ht n
  have happend := Text.breakBefore_append opensTemplate cs
  have hend : (Text.breakBefore opensTemplate cs).2 ≠ [] →
    opensTemplate (Text.breakBefore opensTemplate cs).2 = true := Text.breakBefore_stops
  generalize Text.breakBefore opensTemplate cs = x at happend hsplit hemits hend
  obtain ⟨text, rest⟩ := x
  obtain rfl := happend
  have hrest := ih rest (n + Text.size (c :: text)) (by simp) (fun h => hc (by simp [h]))
    (by simp [Nat.add_assoc])
  exact hrest.literal hemits rfl hsplit fun ps hps => notLiteral_of_split? hps hend

/-- What is read in a value is what the value is cut into, up to the end of the value, which may be
a quote or the end of the text. -/
theorem readsAs_value (hq : q ∈ ['"', '\'']) (ht : tail ≠ [] → tail.head? = some q)
    {body : List Char} (hb : q ∉ body) (n : Nat)
    (h : readQuoted opened stop
      (Lexer.tokens ⟨tail, n + Text.size body, .value q :: .tag :: ms⟩) = ⟨([], span), notes, ts⟩) :
    ReadsAs opened stop ⟨body ++ tail, n, .value q :: .tag :: ms⟩ body span notes ts := by
  have hbraces : q ≠ '{' ∧ q ≠ '}' := by
    obtain rfl | rfl := List.mem_pair.mp hq <;> decide
  induction hlen : body.length using Nat.strong_induction_on generalizing body n with
  | _ k ih =>
    have later : ∀ rest m, rest.length < body.length → q ∉ rest →
        m + Text.size rest = n + Text.size body →
        ReadsAs opened stop ⟨rest ++ tail, m, .value q :: .tag :: ms⟩ rest span notes ts := by
      intro rest m hlt hr hsize
      exact ih rest.length (hlen ▸ hlt) hr m (hsize ▸ h) rfl
    cases body with
    | nil =>
      refine ⟨fun ps hps => ?_, nofun⟩
      obtain rfl := Option.some.inj hps
      exact h
    | cons c cs =>
      by_cases ho : opensTemplate (c :: cs)
      · obtain ⟨ds, hds⟩ := Token.Lexeme.opensTemplate_eq_true ho
        rw [hds] at hb later ⊢
        have hd : q ∉ ds := fun hd => hb (by simp [hd])
        refine readsAs_of_braces hbraces ht hd n fun rest m hlt => later rest m ?_
        exact Nat.lt_add_right 2 hlt
      · refine readsAs_of_text hbraces.1 ht hb (Bool.eq_false_iff.mpr ho) n ?_
        exact fun rest m hle => later rest m (Nat.lt_succ_of_le hle)

theorem readsAs_of_quote (opened : Token) (stop : Nat) (ms : List Mode) (hq : q ∈ ['"', '\''])
    {body : List Char} (hb : q ∉ body) (n : Nat) (rest : List Char) :
    ReadsAs opened stop ⟨body ++ q :: rest, n, .value q :: .tag :: ms⟩ body
      ⟨opened.stop, n + Text.size body⟩ []
      (Lexer.tokens ⟨rest, n + Text.size body + Text.size [q], .tag :: ms⟩) := by
  refine readsAs_value hq (fun _ => rfl) hb n ?_
  have htokens : Lexer.tokens ⟨q :: rest, n + Text.size body, .value q :: .tag :: ms⟩ =
      [⟨.quote, .ofList [q], n + Text.size body⟩] ++ _ := emits_closing_quote rest
  rw [htokens, List.singleton_append, readQuoted]

theorem notes_of_not_mem (hq : q ∈ ['"', '\'']) {cs : List Char} (hc : q ∉ cs) (n : Nat) :
    (readQuoted opened stop (Lexer.tokens ⟨cs, n, .value q :: .tag :: ms⟩)).notes ≠ [] := by
  have hend : readQuoted opened stop
      (Lexer.tokens ⟨[], n + Text.size cs, .value q :: .tag :: ms⟩) =
        ⟨([], ⟨opened.stop, stop⟩),
          [.unterminatedAttributeValue ⟨opened.start, stop⟩ opened.text], []⟩ := by
    rw [tokens_of_nil, readQuoted]
  have h := readsAs_value hq (absurd rfl) hc n hend
  rw [List.append_nil] at h
  cases hs : split? cs with
  | none => exact h.2 hs
  | some ps =>
    rw [h.1 ps hs]
    exact List.cons_ne_nil _ _

/-- A value without a report ends, and can be cut into parts. -/
theorem exists_split?_of_notes_eq_nil (hq : q ∈ ['"', '\'']) {cs : List Char} {n : Nat}
    (h : (readQuoted opened stop (Lexer.tokens ⟨cs, n, .value q :: .tag :: ms⟩)).notes = []) :
    ∃ body rest ps, cs = body ++ q :: rest ∧ q ∉ body ∧ split? body = some ps ∧
      (readQuoted opened stop (Lexer.tokens ⟨cs, n, .value q :: .tag :: ms⟩)).rest =
        Lexer.tokens ⟨rest, n + Text.size body + Text.size [q], .tag :: ms⟩ := by
  by_cases hc : q ∈ cs
  · obtain ⟨body, rest, rfl, hb⟩ := List.eq_append_cons_of_mem hc
    have hreads := readsAs_of_quote opened stop ms hq hb n rest
    cases hs : split? body with
    | none => exact absurd h (hreads.2 hs)
    | some ps => exact ⟨body, rest, ps, rfl, hb, hs, by rw [hreads.1 ps hs]⟩
  · exact absurd h (notes_of_not_mem hq hc n)

end Attribute

end ProseMarkup
