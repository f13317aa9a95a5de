import ProseMarkup.Proofs.LetterCase
import ProseMarkup.Proofs.Lexing
import ProseMarkup.Proofs.Shift.Tags

namespace ProseMarkup

open Text (IsSign lower_eq_iff fold_cons fold_append fold_eq_cons)

namespace Text

def lower (s : String) : String :=
  .ofList (fold s.toList)

theorem lower_ofList (cs : List Char) : lower (.ofList cs) = .ofList (fold cs) := by
  rw [lower, String.toList_ofList]

theorem toList_lower (s : String) : (lower s).toList = fold s.toList :=
  String.toList_ofList

theorem lower_append (s t : String) : lower (s ++ t) = lower s ++ lower t := by
  rw [lower, String.toList_append, fold_append, String.ofList_append, lower, lower]

theorem head?_fold {x : Char} (hx : IsSign x) (cs : List Char) :
    (fold cs).head? = some x ↔ cs.head? = some x := by
  cases cs with
  | nil => exact Iff.rfl
  | cons c cs =>
    rw [fold_cons, List.head?_cons, List.head?_cons, Option.some.injEq, Option.some.injEq]
    exact lower_eq_iff hx c

end Text

namespace Token

def fold (t : Token) : Token :=
  { t with text := Text.lower t.text }

theorem kind_fold (t : Token) : t.fold.kind = t.kind := rfl

theorem span_fold (t : Token) : t.fold.span = t.span := by
  rw [span, span, fold, Text.toList_lower, Span.ofText, Span.ofText, Text.size_fold]

theorem stop_fold (t : Token) : t.fold.stop = t.stop := by
  rw [stop, stop, span_fold]

namespace Lexeme

def fold (x : Lexeme) : Lexeme :=
  ⟨x.kind, Text.fold x.text, Text.fold x.rest⟩

theorem run_fold (kind : Kind) {stops : List Char → Bool}
    (h : ∀ cs, stops (Text.fold cs) = stops cs) (cs : List Char) :
    run kind stops (Text.fold cs) = (run kind stops cs).fold := by
  cases cs with
  | nil => rfl
  | cons c cs =>
    rw [fold_cons, run, run, Text.breakBefore_fold h]
    rfl

theorem opensTemplate_fold (cs : List Char) : opensTemplate (Text.fold cs) = opensTemplate cs := by
  rw [Bool.eq_iff_iff, opensTemplate_iff, opensTemplate_iff, Text.prefix_fold (by decide)]

theorem closesTemplate_fold (cs : List Char) :
    closesTemplate (Text.fold cs) = closesTemplate cs := by
  rw [Bool.eq_iff_iff, closesTemplate_iff, closesTemplate_iff, Text.prefix_fold (by decide)]

theorem opensMarkup_fold (cs : List Char) : opensMarkup (Text.fold cs) = opensMarkup cs := by
  simp only [opensMarkup, opensTemplate_fold, Text.head?_fold (x := '<') (by decide)]

theorem isLoose_lower (c : Char) : isLoose c.toLower = isLoose c :=
  Text.lower_congr (by decide +kernel) c

theorem not_prefix_fold (mark : List Char) (hm : Text.AllSigns mark) {cs : List Char}
    (h : ∀ rest, cs = mark ++ rest → False) (rest : List Char) :
    Text.fold cs = mark ++ rest → False := by
  intro hcs
  obtain ⟨rest', hrest⟩ := (Text.prefix_fold hm).mp ⟨rest, hcs.symm⟩
  exact h rest' hrest.symm

theorem inContent_fold (cs : List Char) : inContent (Text.fold cs) = (inContent cs).fold := by
  rw [inContent.eq_def cs]
  split
  · rename_i ds
    have hsplit := Text.splitAfter?_fold ['-', '-', '>'] (by decide) ds
    change inContent ('<' :: '!' :: '-' :: '-' :: Text.fold ds) = _
    rw [inContent, hsplit]
    cases Text.splitAfter? ['-', '-', '>'] ds with
    | none => rfl
    | some x => rfl
  · rfl
  · rfl
  · rfl
  · rename_i ds hcomment hslash
    change inContent ('<' :: Text.fold ds) = _
    rw [inContent.eq_5 _ (not_prefix_fold ['!', '-', '-'] (by decide) hcomment)
      (not_prefix_fold ['/'] (by decide) hslash)]
    rfl
  · rename_i hcomment hopen hclose hslash hlt
    rw [inContent.eq_6 _
      (not_prefix_fold ['<', '!', '-', '-'] (by decide) hcomment)
      (not_prefix_fold ['{', '{'] (by decide) hopen)
      (not_prefix_fold ['}', '}'] (by decide) hclose)
      (not_prefix_fold ['<', '/'] (by decide) hslash)
      (not_prefix_fold ['<'] (by decide) hlt)]
    exact run_fold .rawText opensMarkup_fold cs

theorem loose_fold (cs : List Char) : loose (Text.fold cs) = (loose cs).fold := by
  cases cs with
  | nil => rfl
  | cons c cs =>
    rw [fold_cons, loose, loose, isLoose_lower, Text.takeWhile_fold isLoose_lower,
      Text.dropWhile_fold isLoose_lower]
    split
    · rfl
    · rfl

theorem inTag_fold (cs : List Char) : inTag (Text.fold cs) = (inTag cs).fold := by
  rw [inTag.eq_def cs]
  split
  · rfl
  · rfl
  · rfl
  · rfl
  · rename_i ds hslash
    change inTag ('<' :: Text.fold ds) = _
    rw [inTag.eq_5 _ (not_prefix_fold ['/'] (by decide) hslash)]
    rfl
  · rfl
  · rfl
  · rfl
  · rfl
  · rename_i hopen hclose hslash hself hlt hgt hequals hdouble hsingle
    rw [inTag.eq_10 _
      (not_prefix_fold ['{', '{'] (by decide) hopen)
      (not_prefix_fold ['}', '}'] (by decide) hclose)
      (not_prefix_fold ['<', '/'] (by decide) hslash)
      (not_prefix_fold ['/', '>'] (by decide) hself)
      (not_prefix_fold ['<'] (by decide) hlt)
      (not_prefix_fold ['>'] (by decide) hgt)
      (not_prefix_fold ['='] (by decide) hequals)
      (not_prefix_fold ['"'] (by decide) hdouble)
      (not_prefix_fold ['\''] (by decide) hsingle), Name.read?_fold]
    cases Name.read? cs with
    | none => exact loose_fold cs
    | some x => rfl

theorem inValue_fold {q : Char} (hq : IsSign q) (cs : List Char) :
    inValue q (Text.fold cs) = (inValue q cs).fold := by
  have hstops (cs : List Char) :
      (decide ((Text.fold cs).head? = some q) || opensTemplate (Text.fold cs)) =
        (decide (cs.head? = some q) || opensTemplate cs) := by
    simp only [Text.head?_fold hq, opensTemplate_fold]
  have hrun : run .attributeText (fun cs => cs.head? = some q || opensTemplate cs) _ = _ :=
    run_fold .attributeText hstops cs
  simp only [inValue, Text.head?_fold hq, opensTemplate_fold, hrun]
  split
  · rw [fold, Text.fold, ← List.map_tail, Text.fold, List.map_singleton, hq.lower, Text.fold]
  · split
    · simp only [fold, Text.fold, List.map_take, List.map_drop]
    · rfl

theorem inTemplate_fold {enclosing : Option Char} (hq : ∀ q ∈ enclosing, IsSign q)
    (cs : List Char) : inTemplate enclosing (Text.fold cs) = (inTemplate enclosing cs).fold := by
  have hhead (cs : List Char) : (enclosing.isSome && (Text.fold cs).head? = enclosing) =
      (enclosing.isSome && cs.head? = enclosing) := by
    cases enclosing with
    | none => rfl
    | some q => simp only [Text.head?_fold (hq q rfl)]
  have hstops (cs : List Char) :
      (closesTemplate (Text.fold cs) || (enclosing.isSome && (Text.fold cs).head? = enclosing)) =
        (closesTemplate cs || (enclosing.isSome && cs.head? = enclosing)) := by
    rw [closesTemplate_fold, hhead]
  have hrun : run .rawText
      (fun cs => closesTemplate cs || (enclosing.isSome && cs.head? = enclosing)) _ = _ :=
    run_fold .rawText hstops cs
  simp only [inTemplate, closesTemplate_fold, hrun]
  split
  · simp only [fold, Text.fold, List.map_take, List.map_drop]
  · rfl

theorem text_of_quote (cs : List Char) (h : (inTag cs).kind = .quote) :
    ∃ q, IsSign q ∧ (inTag cs).text = [q] := by
  unfold inTag at h ⊢
  split at h <;> try contradiction
  · exact ⟨'"', by decide, rfl⟩
  · exact ⟨'\'', by decide, rfl⟩
  · split at h
    · cases h
    · unfold loose at h
      split at h
      · cases h
      · split at h <;> cases h

end Lexeme

namespace Mode

/-- Holds of a mode whose quote is no letter. -/
def Signed : Mode → Prop
  | value q => IsSign q
  | template enclosing => ∀ q ∈ enclosing, IsSign q
  | _ => True

theorem read_fold {m : Mode} (hm : m.Signed) (cs : List Char) :
    m.read (Text.fold cs) = (m.read cs).fold := by
  cases m with
  | content => exact Lexeme.inContent_fold cs
  | tag => exact Lexeme.inTag_fold cs
  | value q => exact Lexeme.inValue_fold hm cs
  | template enclosing => exact Lexeme.inTemplate_fold hm cs

theorem opened?_fold (m : Mode) (cs : List Char) :
    m.opened? (m.read cs).fold = m.opened? (m.read cs) := by
  cases m with
  | tag =>
    have hquote := Lexeme.text_of_quote cs
    rw [read]
    rcases hx : Lexeme.inTag cs with ⟨kind, text, rest⟩
    rw [hx] at hquote
    cases kind with
    | quote =>
      obtain ⟨q, hq, rfl⟩ := hquote rfl
      change some (value q.toLower) = some (value q)
      rw [hq.lower]
    | _ => rfl
  | content | value q | template enclosing =>
    generalize read _ cs = x
    obtain ⟨kind, text, rest⟩ := x
    cases kind <;> rfl

theorem signed_of_opened? {m inner : Mode} (hm : m.Signed) {cs : List Char}
    (h : m.opened? (m.read cs) = some inner) : inner.Signed := by
  unfold opened? at h
  split at h
  · cases h
    exact trivial
  · cases h
    exact trivial
  · cases h
    nofun
  · cases h
    nofun
  · rename_i q text rest hx
    cases h
    have hx : Lexeme.inTag cs = ⟨.quote, q :: text, rest⟩ := hx
    obtain ⟨q', hq, htext⟩ := Lexeme.text_of_quote cs (by rw [hx])
    rw [hx] at htext
    cases htext
    exact hq
  · cases h
    rintro _ ⟨⟩
    exact hm
  · cases h

end Mode

end Token

namespace Lexer

open Token (Mode)

def fold (l : Lexer) : Lexer :=
  { l with rest := Text.fold l.rest }

def Signed (l : Lexer) : Prop :=
  ∀ m ∈ l.modes, m.Signed

theorem Signed.mode {l : Lexer} (h : l.Signed) : l.mode.Signed := by
  obtain ⟨rest, offset, _ | ⟨m, modes⟩⟩ := l
  · exact trivial
  · exact h m List.mem_cons_self

theorem settle_subset (c : Char) (modes : List Mode) : settle c modes ⊆ modes := by
  fun_induction settle c modes with
  | case1 modes ih => exact List.subset_cons_of_subset _ ih
  | case2 => exact List.Subset.refl _
  | case3 => exact List.Subset.refl _

theorem settle_lower (c : Char) {modes : List Mode} (h : ∀ m ∈ modes, m.Signed) :
    settle c.toLower modes = settle c modes := by
  fun_cases settle c modes with
  | case1 modes =>
    have hq : IsSign c := h _ List.mem_cons_self c rfl
    rw [hq.lower, settle, if_pos rfl]
  | case2 q modes hne =>
    have hq : IsSign q := h _ List.mem_cons_self q rfl
    have hne' : ¬q = c.toLower := fun he => hne ((lower_eq_iff hq c).mp he.symm).symm
    rw [settle, if_neg hne']
  | case3 => rw [settle.eq_2 _ _ ‹_›]

theorem Signed.settled {l : Lexer} (h : l.Signed) : l.settled.Signed := by
  unfold Lexer.settled
  split
  · exact h
  · exact fun m hm => h m (settle_subset _ _ hm)

theorem settled_fold {l : Lexer} (h : l.Signed) : l.fold.settled = l.settled.fold := by
  obtain ⟨_ | ⟨c, cs⟩, offset, modes⟩ := l
  · rfl
  · change Lexer.mk _ _ (settle c.toLower modes) = Lexer.mk _ _ (settle c modes)
    rw [settle_lower c h]
    rfl

theorem Signed.skipBlanks {l : Lexer} (h : l.Signed) : l.skipBlanks.Signed := by
  unfold Lexer.skipBlanks
  split
  · exact h
  · exact h

theorem skipBlanks_fold (l : Lexer) : l.fold.skipBlanks = l.skipBlanks.fold := by
  unfold skipBlanks
  change (if l.mode.skipsBlanks then _ else l.fold) = _
  split
  · simp only [fold, Text.takeWhile_fold Text.isBlank_lower,
      Text.dropWhile_fold Text.isBlank_lower, Text.size_fold]
  · rfl

theorem transition_fold (modes : List Mode) (cs : List Char) :
    transition modes ((modes.headD .content).read cs).fold =
      transition modes ((modes.headD .content).read cs) := by
  simp only [transition, Mode.opened?_fold]
  rfl

theorem signed_transition {modes : List Mode} (h : ∀ m ∈ modes, m.Signed) (cs : List Char) :
    ∀ m ∈ transition modes ((modes.headD .content).read cs), m.Signed := by
  have hmode : (modes.headD .content).Signed := Signed.mode (l := ⟨cs, 0, modes⟩) h
  unfold transition
  dsimp only
  split
  · rename_i inner hopened
    exact List.forall_mem_cons.mpr ⟨Mode.signed_of_opened? hmode hopened, h⟩
  · split
    · unfold leave
      split
      · rename_i m outer modes
        exact (List.forall_mem_cons.mp h).2
      · exact List.forall_mem_singleton.mpr trivial
    · exact h

theorem take_fold {l : Lexer} (h : l.Signed) :
    l.fold.take = (l.take.1.map Token.fold, l.take.2.fold) := by
  by_cases hr : l.rest = []
  · have hr' : l.fold.rest = [] := Text.fold_eq_nil.mpr hr
    rw [take, take, if_pos hr, if_pos hr']
    rfl
  · have hr' : ¬l.fold.rest = [] := mt Text.fold_eq_nil.mp hr
    have hread : l.fold.mode.read l.fold.rest = (l.mode.read l.rest).fold :=
      Mode.read_fold h.mode l.rest
    have hmodes : transition l.fold.modes (l.mode.read l.rest).fold = _ :=
      transition_fold l.modes l.rest
    rw [take, take, if_neg hr, if_neg hr', hread]
    simp only [hmodes]
    simp only [Option.map_some, Token.fold, Text.lower_ofList, fold, Token.Lexeme.fold,
      Text.size_fold]
    rfl

theorem Signed.take {l : Lexer} (h : l.Signed) : l.take.2.Signed := by
  by_cases hr : l.rest = []
  · rw [Lexer.take, if_pos hr]
    exact h
  · rw [Lexer.take, if_neg hr]
    exact signed_transition h l.rest

theorem next_fold {l : Lexer} (h : l.Signed) :
    l.fold.next = (l.next.1.map Token.fold, l.next.2.fold) := by
  rw [next, settled_fold h, skipBlanks_fold, take_fold h.settled.skipBlanks]
  rfl

theorem Signed.next {l : Lexer} (h : l.Signed) : l.next.2.Signed :=
  h.settled.skipBlanks.take

theorem drain_fold {l : Lexer} (h : l.Signed) : l.fold.drain.1 = l.drain.1.map Token.fold := by
  fun_induction drain l with
  | case1 l l' hn =>
    have hn' : l.fold.next = (none, l'.fold) := by
      rw [next_fold h, hn]
      rfl
    rw [drain_of_none hn']
    rfl
  | case2 l t l' hn _ ts last hd ih =>
    have hn' : l.fold.next = (some t.fold, l'.fold) := by
      rw [next_fold h, hn]
      rfl
    have hl' : l'.Signed := by
      have hnext := h.next
      rwa [hn] at hnext
    rw [drain_of_some hn', ih hl', hd]
    rfl

theorem tokens_fold (start : Nat) (cs : List Char) :
    (ofText start (Text.fold cs)).tokens = (ofText start cs).tokens.map Token.fold :=
  drain_fold (l := ofText start cs) (List.forall_mem_singleton.mpr trivial)

end Lexer

end ProseMarkup
