import ProseMarkup.Proofs.Lexing
import Mathlib.Data.List.Basic

namespace ProseMarkup

namespace Token

def Apart (cs rest : List Char) : Prop :=
  ∀ a ∈ cs.getLast?, ∀ b ∈ rest.head?, Name.isPart a = false ∨ Name.isPart b = false

theorem Apart.of_last {cs rest : List Char} {a : Char} (ha : Name.isPart a = false)
    (h : cs.getLast? = some a) : Apart cs rest := by
  rintro b hb c -
  rw [h] at hb
  obtain rfl := Option.some.inj hb
  exact .inl ha

theorem Apart.of_ends {cs rest : List Char} (h : Name.Ends rest) : Apart cs rest :=
  fun _ _ b hb => .inr (h b hb)

theorem Apart.of_blank {cs rest : List Char} (h : ∀ c ∈ cs, Text.isBlank c = true) :
    Apart cs rest := by
  intro a ha b _
  exact .inl (Name.isPart_of_isBlank (h a (List.mem_of_mem_getLast? ha)))

theorem Apart.append {as bs cs : List Char} (h : Apart as (bs ++ cs)) (h' : Apart bs cs) :
    Apart (as ++ bs) cs := by
  cases bs with
  | nil => rwa [List.append_nil]
  | cons b bs =>
    intro a ha
    rw [List.getLast?_append_of_ne_nil as (List.cons_ne_nil b bs)] at ha
    exact h' a ha

theorem IsQuote.isPart {q : Char} (h : IsQuote q) : Name.isPart q = false := by
  obtain rfl | rfl := h <;> decide +kernel

namespace Lexeme

theorem ends_run {kind : Kind} {stops : List Char → Bool} {cs : List Char}
    (h : ∀ b bs, stops (b :: bs) = true → Name.isPart b = false) :
    Name.Ends (run kind stops cs).rest := by
  cases cs with
  | nil => nofun
  | cons c cs =>
    intro b hb
    change b ∈ (Text.breakBefore stops cs).2.head? at hb
    obtain ⟨bs, hbs⟩ := List.head?_eq_some_iff.mp hb
    have hne : (Text.breakBefore stops cs).2 ≠ [] := hbs ▸ List.cons_ne_nil b bs
    have hstop := Text.breakBefore_stops hne
    rw [hbs] at hstop
    exact h b bs hstop

theorem isPart_of_opensTemplate {b : Char} {bs : List Char} (h : opensTemplate (b :: bs) = true) :
    Name.isPart b = false := by
  obtain ⟨ds, hds⟩ := opensTemplate_eq_true h
  obtain rfl := (List.cons.inj hds).1
  decide +kernel

theorem isPart_of_closesTemplate {b : Char} {bs : List Char} (h : closesTemplate (b :: bs) = true) :
    Name.isPart b = false := by
  obtain ⟨ds, hds⟩ := closesTemplate_eq_true h
  obtain rfl := (List.cons.inj hds).1
  decide +kernel

theorem apart_inContent (cs : List Char) : Apart (inContent cs).text (inContent cs).rest := by
  unfold inContent
  split
  · rename_i cs
    rcases h : Text.splitAfter? ['-', '-', '>'] cs with _ | ⟨body, rest⟩
    · exact .of_ends nofun
    · obtain ⟨before, rfl⟩ := Text.suffix_of_splitAfter? h
      refine .of_last (a := '>') (by decide +kernel) ?_
      change (['<', '!', '-', '-'] ++ (before ++ ['-', '-', '>'])).getLast? = some '>'
      rw [← List.append_assoc, List.getLast?_append]
      rfl
  · exact .of_last (by decide +kernel) rfl
  · exact .of_last (by decide +kernel) rfl
  · exact .of_last (by decide +kernel) rfl
  · exact .of_last (by decide +kernel) rfl
  · apply Apart.of_ends
    apply ends_run
    intro b bs h
    obtain h | h := (Bool.or_eq_true _ _).mp h
    · obtain rfl : b = '<' := by simpa using h
      decide +kernel
    · exact isPart_of_opensTemplate h

theorem isPart_eq_false_of_mem {c : Char} (h : c ∈ ['<', '>', '/', '=', '"', '\'', '{']) :
    Name.isPart c = false := by
  have hall : ['<', '>', '/', '=', '"', '\'', '{'].all (fun c => !Name.isPart c) = true := by
    decide +kernel
  simpa using List.all_eq_true.mp hall c h

theorem isPart_of_not_isLoose {c : Char} (h : isLoose c = false) : Name.isPart c = false := by
  by_contra hp
  have hloose : isLoose c = true := by
    refine isLoose_iff.mpr ⟨?_, fun hc => hp (isPart_eq_false_of_mem hc)⟩
    by_contra hb
    exact hp (Name.isPart_of_isBlank (by simpa using hb))
  rw [hloose] at h
  cases h

theorem apart_loose (cs : List Char) : Apart (loose cs).text (loose cs).rest := by
  cases cs with
  | nil => exact .of_ends nofun
  | cons c cs =>
    rw [loose]
    split
    · apply Apart.of_ends
      intro b hb
      have hd := List.head?_dropWhile_not isLoose cs
      rw [Option.mem_def.mp hb] at hd
      exact isPart_of_not_isLoose (by simpa using hd)
    · exact .of_last (isPart_of_not_isLoose (Bool.eq_false_iff.mpr ‹_›)) rfl

theorem apart_inTag (cs : List Char) : Apart (inTag cs).text (inTag cs).rest := by
  unfold inTag
  split
  iterate 9 exact .of_last (by decide +kernel) rfl
  split
  · rename_i h
    exact .of_ends (Name.read?_eq_some_iff.mp h).2.2
  · exact apart_loose _

theorem apart_inValue {q : Char} (hq : IsQuote q) (cs : List Char) :
    Apart (inValue q cs).text (inValue q cs).rest := by
  unfold inValue
  split
  · exact .of_last hq.isPart rfl
  · split
    · rename_i ho
      obtain ⟨ds, rfl⟩ := opensTemplate_eq_true ho
      exact .of_last (a := '{') (by decide +kernel) rfl
    · apply Apart.of_ends
      apply ends_run
      intro b bs h
      obtain h | h := (Bool.or_eq_true _ _).mp h
      · obtain rfl : b = q := by simpa using h
        exact hq.isPart
      · exact isPart_of_opensTemplate h

theorem apart_inTemplate {enclosing : Option Char} (hq : ∀ q ∈ enclosing, IsQuote q)
    (cs : List Char) : Apart (inTemplate enclosing cs).text (inTemplate enclosing cs).rest := by
  unfold inTemplate
  split
  · rename_i hc
    obtain ⟨ds, rfl⟩ := closesTemplate_eq_true hc
    exact .of_last (a := '}') (by decide +kernel) rfl
  · apply Apart.of_ends
    apply ends_run
    intro b bs h
    obtain h | h := (Bool.or_eq_true _ _).mp h
    · exact isPart_of_closesTemplate h
    · cases enclosing with
      | none => cases h
      | some q =>
        obtain rfl : b = q := by simpa using h
        exact (hq b rfl).isPart

end Lexeme

end Token

namespace Lexer

open Token (Mode Kind Shape Apart)

theorem Stack.apart_read {ms : List Mode} (h : Stack ms) (cs : List Char) :
    Apart ((ms.headD .content).read cs).text ((ms.headD .content).read cs).rest := by
  cases h with
  | content => exact Token.Lexeme.apart_inContent cs
  | tag => exact Token.Lexeme.apart_inTag cs
  | value hq => exact Token.Lexeme.apart_inValue hq cs
  | templateInValue hq =>
    refine Token.Lexeme.apart_inTemplate ?_ cs
    rintro _ ⟨⟩
    exact hq
  | templateInContent => exact Token.Lexeme.apart_inTemplate (by rintro q ⟨⟩) cs
  | templateInTag => exact Token.Lexeme.apart_inTemplate (by rintro q ⟨⟩) cs

theorem Call.exists_passes {l l' : Lexer} {o : Option Token} (h : Call l o l')
    (hs : Stack l.modes) : ∃ past, Passes l past l' ∧ Apart past l'.rest := by
  cases h with
  | stop => exact ⟨l.rest, ⟨(List.append_nil _).symm, rfl⟩, .of_ends nofun⟩
  | @token gap cs c h hb =>
    have happend := l.settled.mode.read_append (c :: cs)
    refine ⟨gap ++ (l.settled.mode.read (c :: cs)).text, ⟨?_, ?_⟩, ?_⟩
    · rw [h, List.append_assoc, happend]
    · rw [Text.size_append, ← Nat.add_assoc]
    · exact (Apart.of_blank hb).append (hs.settled.apart_read (c :: cs))

theorem exists_passes_after {l : Lexer} (hs : Stack l.modes) (n : Nat) :
    ∃ past, Passes l past (l.after n) ∧ Apart past (l.after n).rest := by
  induction n with
  | zero => exact ⟨[], .refl l, nofun⟩
  | succ n ih =>
    obtain ⟨past, hpast, hapart⟩ := ih
    obtain ⟨past', hpast', hapart'⟩ := (call_next (l.after n)).exists_passes (stack_after hs n)
    rw [hpast'.rest_eq] at hapart
    exact ⟨past ++ past', hpast.trans hpast', hapart.append hapart'⟩

/-- What the open modes of a lexer say of its next token. The lexer has come through `text`, whose
first byte stands at `start`. -/
structure Modal (text : List Char) (start : Nat) (l : Lexer) : Prop where
  stack : Stack l.modes
  settled : Stack l.settled.modes
  /-- The last mode never ends. -/
  outer : ∀ t ∈ l.next.1, l.settled.mode.endsWith t.kind = true → 2 ≤ l.settled.modes.length
  shape : ∀ t ∈ l.next.1, Shape l.settled.mode t.kind t.text.toList
  prose : ∀ t ∈ l.next.1, l.settled.mode = .content → t.kind = .rawText →
    '<' ∉ t.text.toList ∧ ¬['{', '{'] <:+: t.text.toList ∧
      ∃ c cs, t.text.toList = c :: cs ∧ Text.isBlank c = false
  name : ∀ t ∈ l.next.1, l.settled.mode = .tag → t.kind = .identifier →
    Name.IsName t.text.toList ∧ ∃ before after, text = before ++ (t.text.toList ++ after) ∧
      t.start = start + Text.size before ∧ (∀ b ∈ before.getLast?, Name.isPart b = false) ∧
        Name.Ends after
  loose : ∀ t ∈ l.next.1, l.settled.mode = .tag → t.kind = .rawText →
    t.text.toList = ['/'] ∨ t.text.toList = ['{'] ∨ (t.text.toList ≠ [] ∧
      ∀ c ∈ t.text.toList, Text.isBlank c = false ∧ c ∉ ['<', '>', '/', '=', '"', '\'', '{'])
  value : ∀ t ∈ l.next.1, ∀ q, l.settled.mode = .value q → t.kind = .attributeText →
    q ∉ t.text.toList ∧ ¬['{', '{'] <:+: t.text.toList
  expression : ∀ t ∈ l.next.1, ∀ enclosing, l.settled.mode = .template enclosing →
    t.kind = .rawText → ¬['}', '}'] <:+: t.text.toList ∧ ∀ q ∈ enclosing, q ∉ t.text.toList

theorem Call.name {l₀ l l' : Lexer} {past : List Char} {t : Token} (h : Call l (some t) l')
    (hs : Stack l.modes) (hp : Passes l₀ past l) (hapart : Apart past l.rest)
    (hname : Name.IsName t.text.toList) :
    ∃ before after, l₀.rest = before ++ (t.text.toList ++ after) ∧
      t.start = l₀.offset + Text.size before ∧ (∀ b ∈ before.getLast?, Name.isPart b = false) ∧
        Name.Ends after := by
  cases h with
  | @token gap cs c h hb =>
    have happend := l.settled.mode.read_append (c :: cs)
    have hread := hs.settled.apart_read (c :: cs)
    change Apart (l.settled.mode.read (c :: cs)).text (l.settled.mode.read (c :: cs)).rest at hread
    rw [String.toList_ofList] at hname ⊢
    generalize l.settled.mode.read (c :: cs) = x at *
    have hpart := Name.isPart_of_isName (Name.isName_iff.mpr hname)
    obtain ⟨a, as, ha, hstart, -⟩ := hname
    refine ⟨past ++ gap, x.rest, ?_, ?_, ?_, ?_⟩
    · rw [hp.rest_eq, h, List.append_assoc, happend]
    · change l.offset + Text.size gap = _
      rw [hp.offset_eq, Text.size_append, Nat.add_assoc]
    · intro b hlast
      rw [h] at hapart
      obtain hb | hc := hapart.append (.of_blank hb) b hlast c rfl
      · exact hb
      · rw [ha] at happend
        obtain rfl := (List.cons.inj happend).1
        rw [Name.isPart_of_isStart hstart] at hc
        cases hc
    · intro b hb
      obtain ⟨z, hz⟩ := Option.ne_none_iff_exists'.mp
        (List.getLast?_eq_none_iff.not.mpr (ha ▸ List.cons_ne_nil a as))
      obtain hz' | hb' := hread z hz b hb
      · rw [hpart z (List.mem_of_mem_getLast? hz)] at hz'
        cases hz'
      · exact hb'

/-- Whatever is called for, the modes of a lexer form a stack and decide its next token. -/
theorem modal_after (source : String) (start stop n : Nat) :
    ((ofRange source start stop).after n).Modal (ofRange source start stop).rest
      (ofRange source start stop).offset := by
  have hs := stack_after (l := ofRange source start stop) .content n
  obtain ⟨past, hpast, hapart⟩ := exists_passes_after (l := ofRange source start stop) .content n
  generalize (ofRange source start stop).after n = l at hs hpast hapart ⊢
  have hcall := call_next l
  have hshape : ∀ t ∈ l.next.1, Shape l.settled.mode t.kind t.text.toList :=
    fun t => hcall.shape hs
  refine ⟨hs, hs.settled, ?_, hshape, ?_, ?_, ?_, ?_, ?_⟩
  · intro t _ he
    exact hs.settled.two_le_length he
  · intro t ht hm hk
    have hx := hshape t ht
    rw [hm, hk] at hx
    generalize t.text.toList = cs at hx ⊢
    cases hx with
    | prose hb hl ho => exact ⟨hl, ho, _, _, rfl, hb⟩
  · intro t ht hm hk
    have hx := hshape t ht
    rw [hm, hk] at hx
    have hname : Name.IsName t.text.toList := by
      cases hx with
      | name h => exact h
    rw [Option.mem_def.mp ht] at hcall
    exact ⟨hname, hcall.name hs hpast hapart hname⟩
  · intro t ht hm hk
    have hx := hshape t ht
    rw [hm, hk] at hx
    generalize t.text.toList = cs at hx ⊢
    cases hx with
    | lone hc =>
      obtain rfl | rfl := hc
      · exact .inl rfl
      · exact .inr (.inl rfl)
    | loose hne h => exact .inr (.inr ⟨hne, h⟩)
  · intro t ht q hm hk
    have hx := hshape t ht
    rw [hm, hk] at hx
    cases hx with
    | value hq ho => exact ⟨hq, ho⟩
  · intro t ht enclosing hm hk
    have hx := hshape t ht
    rw [hm, hk] at hx
    cases hx with
    | expression hc hq => exact ⟨hc, hq⟩

end Lexer

end ProseMarkup
