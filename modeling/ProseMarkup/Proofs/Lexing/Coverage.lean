import ProseMarkup.Proofs.Extents
import ProseMarkup.Proofs.Lexing.Modes
import ProseMarkup.Proofs.Slices

namespace ProseMarkup

namespace Text

theorem exists_char_at {cs : List Char} {n : Nat} (h : n < size cs) :
    ∃ before c after, cs = before ++ c :: after ∧ size before ≤ n ∧
      n < size before + c.utf8Size := by
  induction cs generalizing n with
  | nil => exact absurd h (Nat.not_lt_zero n)
  | cons c cs ih =>
    by_cases hc : n < c.utf8Size
    · exact ⟨[], c, cs, rfl, Nat.zero_le n, by simpa using hc⟩
    · have hle := Nat.le_of_not_lt hc
      obtain ⟨before, d, after, rfl, hlo, hhi⟩ :=
        ih (Nat.sub_lt_left_of_lt_add hle (size_cons c cs ▸ h))
      refine ⟨c :: before, d, after, rfl, ?_, ?_⟩
      · rw [size_cons]
        omega
      · rw [size_cons]
        omega

end Text

namespace Lexer

open Token (Mode)

theorem after_next (l : Lexer) (n : Nat) : l.next.2.after n = l.after (n + 1) := by
  induction n with
  | zero => rfl
  | succ n ih =>
    rw [after, ih]
    rfl

theorem Call.rest_of_none {l l' : Lexer} (h : Call l none l') : l'.rest = [] := by
  cases h
  rfl

theorem Call.of_rest_eq_nil {l l' : Lexer} {o : Option Token} (h : Call l o l')
    (hl : l.rest = []) : o = none ∧ l'.rest = [] ∧ l'.offset = l.offset := by
  cases h with
  | stop => exact ⟨rfl, rfl, by rw [hl]; rfl⟩
  | @token gap cs c h =>
    rw [hl] at h
    exact absurd h.symm (List.append_ne_nil_of_right_ne_nil gap (List.cons_ne_nil c cs))

theorem after_of_rest_eq_nil {l : Lexer} (h : l.rest = []) (n : Nat) :
    (l.after n).rest = [] ∧ (l.after n).offset = l.offset := by
  induction n with
  | zero => exact ⟨h, rfl⟩
  | succ n ih =>
    obtain ⟨hrest, hoffset⟩ := ih
    obtain ⟨-, hrest', hoffset'⟩ := (call_next (l.after n)).of_rest_eq_nil hrest
    exact ⟨hrest', hoffset'.trans hoffset⟩

theorem next_of_rest_eq_nil {l : Lexer} (h : l.rest = []) : l.next.1 = none :=
  ((call_next l).of_rest_eq_nil h).1

theorem next_after_of_none {l : Lexer} (h : l.next.1 = none) (n : Nat) :
    (l.after n).next.1 = none := by
  cases n with
  | zero => exact h
  | succ n =>
    have hcall := call_next l
    rw [h] at hcall
    rw [← after_next]
    exact next_of_rest_eq_nil (after_of_rest_eq_nil hcall.rest_of_none n).1

theorem tokens_getElem? (l : Lexer) (n : Nat) : l.tokens[n]? = (l.after n).next.1 := by
  induction n generalizing l with
  | zero =>
    rcases h : l.next with ⟨_ | t, l'⟩
    · rw [tokens, drain_of_none h, after, h]
      rfl
    · rw [tokens, drain_of_some h, after, h]
      rfl
  | succ n ih =>
    rcases h : l.next with ⟨_ | t, l'⟩
    · rw [tokens, drain_of_none h, next_after_of_none (congrArg Prod.fst h)]
      rfl
    · rw [tokens, drain_of_some h, ← after_next, h]
      exact ih l'

theorem exists_next_of_mem_tokens {l : Lexer} {t : Token} (h : t ∈ l.tokens) :
    ∃ n, (l.after n).next.1 = some t := by
  obtain ⟨n, hn⟩ := List.mem_iff_getElem?.mp h
  exact ⟨n, (tokens_getElem? l n).symm.trans hn⟩

theorem mem_tokens {l : Lexer} {t : Token} {n : Nat} (h : (l.after n).next.1 = some t) :
    t ∈ l.tokens :=
  List.mem_iff_getElem?.mpr ⟨n, (tokens_getElem? l n).trans h⟩

theorem Stack.mode_eq {l : Lexer} (h : Stack l.modes) (hm : l.settled.mode.skipsBlanks = true) :
    l.mode = .content ∨ l.mode = .tag := by
  obtain ⟨_ | ⟨c, cs⟩, offset, modes⟩ := l
  · cases h with
    | content => exact .inl rfl
    | tag => exact .inr rfl
    | _ => cases hm
  · change ((Lexer.settle c modes).headD .content).skipsBlanks = true at hm
    cases h with
    | content => exact .inl rfl
    | tag => exact .inr rfl
    | value => cases hm
    | templateInValue =>
      rw [Lexer.settle] at hm
      split at hm <;> cases hm
    | templateInContent => cases hm
    | templateInTag => cases hm

def nextStart (l : Lexer) : Nat :=
  l.next.1.elim (l.offset + Text.size l.rest) Token.start

theorem exists_gap {l : Lexer} (hs : Stack l.modes) :
    ∃ gap rest, l.rest = gap ++ rest ∧ l.offset + Text.size gap = l.nextStart ∧
      (∀ c ∈ gap, Text.isBlank c = true) ∧ (gap ≠ [] → l.mode = .content ∨ l.mode = .tag) := by
  have hcall := call_next l
  unfold nextStart
  generalize l.next = x at hcall ⊢
  obtain ⟨o, l'⟩ := x
  cases hcall with
  | stop hb hm => exact ⟨l.rest, [], (List.append_nil _).symm, rfl, hb, fun h => hs.mode_eq (hm h)⟩
  | @token gap cs c h hb hm => exact ⟨gap, c :: cs, h, rfl, hb, fun h => hs.mode_eq (hm h)⟩

variable {source : List Char} {stop : Nat} {l l' : Lexer} {t : Token}

theorem Passes.isSlice {past : List Char} (h : Passes l past l')
    (hl : Text.IsSlice source l.offset stop l.rest) :
    Text.IsSlice source l'.offset stop l'.rest := by
  rw [h.rest_eq] at hl
  rw [h.offset_eq]
  exact hl.right

theorem Call.isSlice (h : Call l (some t) l') (hl : Text.IsSlice source l.offset stop l.rest) :
    l.offset ≤ t.start ∧ t.start < t.stop ∧ t.stop = l'.offset ∧ t.stop ≤ stop ∧
      Text.IsSlice source t.start t.stop t.text.toList := by
  cases h with
  | @token gap cs c h =>
    rw [h, ← l.settled.mode.read_append (c :: cs)] at hl
    have hne := l.settled.mode.read_text_ne_nil (List.cons_ne_nil c cs)
    generalize l.settled.mode.read (c :: cs) = x at *
    have hstop : Token.stop ⟨x.kind, .ofList x.text, l.offset + Text.size gap⟩ =
        l.offset + Text.size gap + Text.size x.text := by
      rw [Token.stop_eq, String.toList_ofList]
    rw [hstop, String.toList_ofList]
    exact ⟨Nat.le_add_right _ _, Nat.lt_add_of_pos_right (Text.size_pos hne), rfl,
      hl.right.right.le, hl.right.left⟩

theorem Call.stop_of_none (h : Call l none l')
    (hl : Text.IsSlice source l.offset stop l.rest) : l'.offset = stop := by
  cases h
  exact hl.start_add

/-- What the tokens of the bytes from `start` to `stop` keep of the source. -/
structure Lossless (source : String) (start stop : Nat) : Prop where
  tokens : ∀ t ∈ (ofRange source start stop).tokens,
    start ≤ t.start ∧ t.start < t.stop ∧ t.stop ≤ stop ∧ t.text = t.span.slice source
  ordered : (ofRange source start stop).tokens.Pairwise fun t u => t.stop ≤ u.start
  /-- A byte outside of the tokens is part of a blank that one call skips in prose or in a tag. -/
  covered : ∀ n, start ≤ n → n < stop →
    (∃ t ∈ (ofRange source start stop).tokens, t.start ≤ n ∧ n < t.stop) ∨
      (∃ before c after, source.toList = before ++ c :: after ∧ Text.size before ≤ n ∧
        n < Text.size before + c.utf8Size ∧ Text.isBlank c = true) ∧
      ∃ k, ((ofRange source start stop).after k).offset ≤ n ∧
        n < ((ofRange source start stop).after k).nextStart ∧
        (((ofRange source start stop).after k).mode = .content ∨
          ((ofRange source start stop).after k).mode = .tag)
  calls : ∀ n, (ofRange source start stop).tokens[n]? =
    ((ofRange source start stop).after n).next.1
  advances : ∀ n, ((ofRange source start stop).after n).next.1.isSome = true →
    ((ofRange source start stop).after n).offset <
      ((ofRange source start stop).after (n + 1)).offset
  ends : ∀ n, ((ofRange source start stop).after n).next.1 = none →
    ∀ m, n ≤ m → ((ofRange source start stop).after m).next.1 = none ∧
      ((ofRange source start stop).after (m + 1)).offset = stop

theorem isSlice_after (hs : Stack l.modes) (hl : Text.IsSlice source l.offset stop l.rest)
    (n : Nat) : Text.IsSlice source (l.after n).offset stop (l.after n).rest := by
  obtain ⟨past, hpast, -⟩ := exists_passes_after hs n
  exact hpast.isSlice hl

theorem offset_le_after (hs : Stack l.modes) (n : Nat) : l.offset ≤ (l.after n).offset := by
  obtain ⟨past, hpast, -⟩ := exists_passes_after hs n
  rw [hpast.offset_eq]
  exact Nat.le_add_right _ _

theorem offset_after_length (hs : Stack l.modes)
    (hl : Text.IsSlice source l.offset stop l.rest) :
    (l.after (l.tokens.length + 1)).offset = stop := by
  have hnone := tokens_getElem? l l.tokens.length
  rw [List.getElem?_eq_none (Nat.le_refl _)] at hnone
  have hcall := call_next (l.after l.tokens.length)
  rw [← hnone] at hcall
  exact hcall.stop_of_none (isSlice_after hs hl _)

/-- A byte that is passed is passed by one call. -/
theorem exists_call_at {n b : Nat} (hlo : l.offset ≤ b) (hhi : b < (l.after n).offset) :
    ∃ k, (l.after k).offset ≤ b ∧ b < (l.after (k + 1)).offset := by
  induction n with
  | zero => exact absurd hhi (Nat.not_lt.mpr hlo)
  | succ n ih =>
    obtain hb | hb := Nat.lt_or_ge b (l.after n).offset
    · exact ih hb
    · exact ⟨n, hb, hhi⟩

theorem ofRange_eq {source : String} {start stop : Nat} (h : Text.IsBoundary source.toList stop) :
    ofRange source start stop =
      ofText (min start stop) (Text.slice (min start stop) stop source.toList) := by
  rw [ofRange, Nat.min_eq_left h.le_size]

theorem isSlice_ofRange {source : String} {start stop : Nat}
    (hstart : Text.IsBoundary source.toList start) (hstop : Text.IsBoundary source.toList stop) :
    Text.IsSlice source.toList (ofRange source start stop).offset stop
      (ofRange source start stop).rest := by
  have hmin : Text.IsBoundary source.toList (min start stop) := by
    obtain h | h := Nat.le_total start stop
    · rwa [Nat.min_eq_left h]
    · rwa [Nat.min_eq_right h]
  obtain ⟨part, hpart⟩ := Text.exists_isSlice hmin hstop (Nat.min_le_right start stop)
  rw [ofRange_eq hstop, hpart.slice_eq]
  exact hpart

theorem ofRange_of_append {source : String} {before cs after : List Char}
    (h : source.toList = before ++ (cs ++ after)) :
    ofRange source (Text.size before) (Text.size before + Text.size cs) =
      ofText (Text.size before) cs := by
  have hslice : Text.IsSlice source.toList (Text.size before) _ cs := ⟨before, after, h, rfl, rfl⟩
  rw [ofRange_eq hslice.isBoundary_stop, Nat.min_eq_left hslice.le, hslice.slice_eq]

theorem covered_by_call (hs : Stack l.modes) (hl : Text.IsSlice source l.offset stop l.rest)
    {b : Nat} (hlo : l.offset ≤ b) (hhi : b < l.next.2.offset) :
    (∃ t, l.next.1 = some t ∧ t.start ≤ b ∧ b < t.stop) ∨
      (∃ before c after, source = before ++ c :: after ∧ Text.size before ≤ b ∧
        b < Text.size before + c.utf8Size ∧ Text.isBlank c = true) ∧
      b < l.nextStart ∧ (l.mode = .content ∨ l.mode = .tag) := by
  obtain ⟨gap, rest, hrest, hstart, hblank, hmode⟩ := exists_gap hs
  by_cases hb : b < l.nextStart
  · refine .inr ⟨?_, hb, hmode ?_⟩
    · obtain ⟨before, after, rfl, hbefore, -⟩ := hl
      have hsize : b - l.offset < Text.size gap := by omega
      obtain ⟨past, c, past', hgap, hpast, hc⟩ := Text.exists_char_at hsize
      refine ⟨before ++ past, c, past' ++ (rest ++ after), ?_, ?_, ?_, ?_⟩
      · rw [hrest, hgap]
        simp
      · rw [Text.size_append]
        omega
      · rw [Text.size_append]
        omega
      · exact hblank c (by simp [hgap])
    · rintro rfl
      rw [Text.size_nil] at hstart
      omega
  · have hcall := call_next l
    unfold nextStart at hb
    cases ho : l.next.1 with
    | none =>
      rw [ho] at hcall hb
      rw [hcall.stop_of_none hl] at hhi
      exact absurd (hl.start_add.symm ▸ hhi) hb
    | some t =>
      rw [ho] at hcall hb
      obtain ⟨-, -, hoffset, -⟩ := hcall.isSlice hl
      exact .inl ⟨t, rfl, Nat.le_of_not_lt hb, hoffset ▸ hhi⟩

/-- The tokens of a range between two characters lose nothing but blanks. -/
theorem lossless (source : String) {start stop : Nat}
    (hstart : Text.IsBoundary source.toList start) (hstop : Text.IsBoundary source.toList stop) :
    Lossless source start stop := by
  have hs : Stack (ofRange source start stop).modes := .content
  have hl := isSlice_ofRange hstart hstop
  have hoffset : (ofRange source start stop).offset = min start stop := by
    rw [ofRange_eq hstop]
    rfl
  have hend := offset_after_length hs hl
  have hcalls := tokens_getElem? (ofRange source start stop)
  have hordered := ordered_drain (ofRange source start stop)
  refine ⟨?_, hordered.pairwise, ?_, hcalls, ?_, ?_⟩
  · intro t ht
    obtain ⟨n, hn⟩ := exists_next_of_mem_tokens ht
    have hcall := call_next ((ofRange source start stop).after n)
    rw [hn] at hcall
    obtain ⟨hle, hlt, -, hstop, hslice⟩ := hcall.isSlice (isSlice_after hs hl n)
    have hpast := offset_le_after hs n
    refine ⟨by omega, hlt, hstop, ?_⟩
    change t.text = .ofList (Text.slice t.start t.stop source.toList)
    rw [hslice.slice_eq, String.ofList_toList]
  · intro b hlo hhi
    have hfirst : (ofRange source start stop).offset ≤ b :=
      hoffset ▸ Nat.le_trans (Nat.min_le_left start stop) hlo
    obtain ⟨k, hk, hk'⟩ := exists_call_at hfirst (hend.symm ▸ hhi)
    obtain ⟨t, ht, hb⟩ | ⟨hblank, hb, hmode⟩ :=
      covered_by_call (stack_after hs k) (isSlice_after hs hl k) hk hk'
    · exact .inl ⟨t, mem_tokens ht, hb⟩
    · exact .inr ⟨hblank, k, hk, hb, hmode⟩
  · intro n hn
    obtain ⟨t, ht⟩ := Option.isSome_iff_exists.mp hn
    have hcall := call_next ((ofRange source start stop).after n)
    rw [ht] at hcall
    obtain ⟨hle, hlt, hstop, -⟩ := hcall.isSlice (isSlice_after hs hl n)
    exact Nat.lt_of_le_of_lt hle (hstop ▸ hlt)
  · intro n hn m hm
    have hnone : ((ofRange source start stop).after m).next.1 = none := by
      rw [← hcalls] at hn ⊢
      exact List.getElem?_eq_none (Nat.le_trans (List.getElem?_eq_none_iff.mp hn) hm)
    have hcall := call_next ((ofRange source start stop).after m)
    rw [hnone] at hcall
    exact ⟨hnone, hcall.stop_of_none (isSlice_after hs hl m)⟩

theorem lossless_tag : Text.IsBoundary "é <a b>".toList 2 ∧ Text.IsBoundary "é <a b>".toList 8 ∧
    Lossless "é <a b>" 2 8 := by
  have hstart : Text.IsBoundary "é <a b>".toList 2 := ⟨['é'], " <a b>".toList, rfl, rfl⟩
  have hstop : Text.IsBoundary "é <a b>".toList 8 := ⟨"é <a b>".toList, [], rfl, rfl⟩
  exact ⟨hstart, hstop, lossless "é <a b>" hstart hstop⟩

end Lexer

end ProseMarkup
