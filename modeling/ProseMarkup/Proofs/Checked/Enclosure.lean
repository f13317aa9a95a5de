import ProseMarkup.Checked.Enclosure
import ProseMarkup.Element
import ProseMarkup.Proofs.Checked.Mark
import ProseMarkup.Proofs.Locality

namespace ProseMarkup

namespace Checked

open Text (size IsSlice)
open Enclosure (Step search push)

def closingSpan (i : Nat) (e : Enclosure) : Span :=
  ⟨i + size e.body, i + size e.text⟩

theorem closingSpan_push (i : Nat) (past : List Char) (o : Option Enclosure) :
    (o.map (push past)).map (closingSpan i) = o.map (closingSpan (i + size past)) := by
  rw [Option.map_map]
  congr 1
  funext e
  simp [closingSpan, push, Enclosure.text, Nat.add_assoc]

variable {step : List Char → Step} {takes : ∀ cs, (step cs).Takes ('<' :: cs)}

/-- Holds when a search can go on from the text `cs` at `pos` as a step by offsets says. -/
inductive Follows (step : List Char → Step) (takes : ∀ cs, (step cs).Takes ('<' :: cs)) (pos : Nat)
    (cs : List Char) : CloseStep → Prop
  | pass {past rest : List Char} (h : cs = past ++ rest) (hne : past ≠ [])
      (hs : ∀ n, search step takes n cs = (search step takes n rest).map (push past)) :
      Follows step takes pos cs (.pass (pos + size past))
  | enter {past rest : List Char} (h : cs = past ++ rest) (hne : past ≠ [])
      (hs : ∀ n, search step takes n cs = (search step takes (n + 1) rest).map (push past)) :
      Follows step takes pos cs (.enter (pos + size past))
  | meet {tag : ClosingTag} {rest : List Char} (h : cs = tag.text ++ rest)
      (hzero : search step takes 0 cs = some ⟨[], tag, rest⟩)
      (hs : ∀ n, search step takes (n + 1) cs = (search step takes n rest).map (push tag.text)) :
      Follows step takes pos cs (.meet ⟨pos, pos + size tag.text⟩)

theorem follows_of_pass {pos : Nat} {cs past rest : List Char} (h : step cs = .pass past rest) :
    Follows step takes pos ('<' :: cs) (.pass (pos + size past)) := by
  have ht := takes cs
  rw [h] at ht
  exact .pass ht.1.symm ht.2 fun _ => Enclosure.search_of_pass h

theorem follows_of_enter {pos : Nat} {cs past rest : List Char} (h : step cs = .enter past rest) :
    Follows step takes pos ('<' :: cs) (.enter (pos + size past)) := by
  have ht := takes cs
  rw [h] at ht
  exact .enter ht.1.symm ht.2 fun _ => Enclosure.search_of_enter h

theorem follows_of_meet {pos : Nat} {cs rest : List Char} {tag : ClosingTag}
    (h : step cs = .meet tag rest) :
    Follows step takes pos ('<' :: cs) (.meet ⟨pos, pos + size tag.text⟩) := by
  have ht := takes cs
  rw [h] at ht
  exact .meet ht.1.symm (Enclosure.search_of_meet h) fun _ => Enclosure.search_of_meet_succ h

/-- Where a search passes over `<` it passes over a slash behind it as well. -/
theorem follows_of_slash {pos : Nat} {cs : List Char} (hs : ['<', '/'] <+: '<' :: cs)
    (h : step cs = .skip cs) : Follows step takes pos ('<' :: cs) (.pass (pos + 2)) := by
  obtain ⟨ds, hds⟩ := hs
  obtain rfl : '/' :: ds = cs := (List.cons.inj hds).2
  have hsplit : '<' :: '/' :: ds = ['<', '/'] ++ ds := rfl
  refine .pass hsplit (List.cons_ne_nil _ _) fun n => ?_
  rw [Enclosure.search_of_pass h, Enclosure.search_cons (by decide), Enclosure.map_push_push]
  rfl

variable {source part : List Char} {stop : Nat} {at? : Nat → Option CloseStep}

/-- A search whose steps follow those by offsets finds the closing tag by offsets. -/
theorem findCloseFrom_eq (hstep : ∀ pos cs, IsSlice source pos stop ('<' :: cs) →
      ∃ s, at? pos = some s ∧ Follows step takes pos ('<' :: cs) s)
    {i n : Nat} (h : IsSlice source i stop part) :
    findCloseFrom at? source stop (n + 1) i =
      some ((search step takes n part).map (closingSpan i)) := by
  induction hlen : part.length using Nat.strong_induction_on generalizing part i n with
  | _ len ih =>
    obtain hnot | ⟨past, c, cs, rfl, hpast, hc⟩ := exists_mark ['<'] part
    · have hmem : '<' ∉ part := fun hmem => hnot '<' hmem (List.mem_singleton_self _)
      have hsearch : search step takes n (part ++ []) = (search step takes n []).map (push part) :=
        Enclosure.search_append_of_not_mem hmem []
      rw [List.append_nil, Enclosure.search_nil] at hsearch
      rw [hsearch, findCloseFrom]
      split
      · rw [bytes?_of h]
        simp only [Option.bind_eq_bind, Option.bind_some, findByte?_of_forall (by decide) hnot]
        rfl
      · rfl
    · obtain rfl := List.mem_singleton.mp hc
      have hmem : '<' ∉ past := fun hmem => hpast '<' hmem (List.mem_singleton_self _)
      obtain ⟨s, hs, hfollows⟩ := hstep _ _ h.right
      have hi : i < stop := h.lt (by simp)
      rw [findCloseFrom, dif_pos hi, bytes?_of h]
      simp only [Option.bind_eq_bind, Option.bind_some, findByte?_of_append (by decide) hpast hc,
        hs]
      rw [Enclosure.search_append_of_not_mem hmem, closingSpan_push]
      have hnext {past' rest : List Char} (hsplit : '<' :: cs = past' ++ rest) (hne : past' ≠ []) :
          i < i + size past + size past' ∧ rest.length < len ∧
            IsSlice source (i + size past + size past') stop rest := by
        have hpos := Text.size_pos hne
        have hlen' := congrArg List.length hsplit
        have hshort := List.length_pos_iff.mpr hne
        have hright := h.right
        rw [List.length_append] at hlen hlen'
        rw [hsplit] at hright
        exact ⟨by omega, by omega, hright.right⟩
      cases hfollows with
      | pass hsplit hne hsearch =>
        obtain ⟨hnext, hless, hrest⟩ := hnext hsplit hne
        simp only [assert?_of hnext, Option.bind_some]
        rw [ih _ hless hrest rfl, hsearch, closingSpan_push]
      | enter hsplit hne hsearch =>
        obtain ⟨hnext, hless, hrest⟩ := hnext hsplit hne
        simp only [assert?_of hnext, Option.bind_some]
        rw [ih _ hless hrest rfl, hsearch, closingSpan_push]
      | @meet tag rest hsplit hzero hsearch =>
        obtain ⟨hnext, hless, hrest⟩ := hnext hsplit (List.cons_ne_nil _ _)
        cases n with
        | zero =>
          rw [hzero]
          rfl
        | succ n =>
          have hsub : sub? (n + 1 + 1) 1 = some (n + 1) := by rw [Nat.add_comm (n + 1) 1, sub?_add]
          simp only [hsub, Option.bind_some, if_neg (Nat.succ_ne_zero n), assert?_of hnext]
          rw [ih _ hless hrest rfl, hsearch, closingSpan_push]

variable {v : Vocabulary} {name : List Char} {pos : Nat} {cs : List Char}

theorem follows_closeStep (verbatim : Bool) (nested? : List Char → Nat → Option (Option Span))
    (h : IsSlice source pos stop ('<' :: cs))
    (hstep : (∀ tag rest, Mark.read cs ≠ .opening tag rest) →
      step cs = Enclosure.metadataStep name cs)
    (hopening : ∀ tag rest, Mark.read cs = .opening tag rest →
      slice? source (pos + 1) (pos + 1 + size tag.name) = some tag.name →
      tagEnd source (pos + 1 + size tag.name) stop =
        some (.complete (pos + size tag.text) tag.selfClosing) →
      ∃ s, tagStep v source stop name verbatim nested? pos (.ofText (pos + 1) tag.name) = some s ∧
        Follows step takes pos ('<' :: cs) s) :
    ∃ s, closeStep v source stop name verbatim nested? pos = some s ∧
      Follows step takes pos ('<' :: cs) s := by
  have hsight := sight_read h
  rw [closeStep, slice?_of h]
  simp only [Option.bind_eq_bind, Option.bind_some]
  have skip (hskip : step cs = .skip cs) :
      Follows step takes pos ('<' :: cs) (.pass (pos + 1)) := follows_of_pass hskip
  generalize hm : Mark.read cs = m at hsight hopening hstep
  cases hsight with
  | @comment inner rest hc hend =>
    have hpass : step cs = .pass ('<' :: inner) rest := by
      rw [hstep (by rintro _ _ ⟨⟩), Enclosure.metadataStep, hm]
    rw [if_pos hc, hend]
    exact ⟨_, rfl, follows_of_pass hpass⟩
  | @closing tag rest hc hs htag hname =>
    have hmeet : step cs = if Text.sameName tag.name name then .meet tag rest else .skip cs := by
      rw [hstep (by rintro _ _ ⟨⟩), Enclosure.metadataStep, hm]
    rw [if_neg hc, if_pos hs, htag]
    simp only [Option.bind_some, Span.ofText, hname]
    split
    · rename_i hsame
      exact ⟨_, rfl, follows_of_meet (hmeet.trans (if_pos hsame))⟩
    · rename_i hsame
      exact ⟨_, rfl, follows_of_slash hs (hmeet.trans (if_neg hsame))⟩
  | noClosing hc hs htag =>
    rw [if_neg hc, if_pos hs, htag]
    refine ⟨_, rfl, follows_of_slash hs ?_⟩
    rw [hstep (by rintro _ _ ⟨⟩), Enclosure.metadataStep, hm]
  | @opening tag rest hc hs htag hname hend =>
    rw [if_neg hc, if_neg hs, htag]
    exact hopening tag rest rfl hname hend
  | @unclosed name' rest hc hs htag hname hend =>
    rw [if_neg hc, if_neg hs, htag]
    refine ⟨.pass (pos + 1), ?_, skip ?_⟩
    · simp only [Option.bind_some, tagStep, Span.ofText, Option.bind_eq_bind, hname, hend]
      split <;> rfl
    · rw [hstep (by rintro _ _ ⟨⟩), Enclosure.metadataStep, hm]
  | plain hc hs htag =>
    rw [if_neg hc, if_neg hs, htag]
    refine ⟨_, rfl, skip ?_⟩
    rw [hstep (by rintro _ _ ⟨⟩), Enclosure.metadataStep, hm]

theorem findMetadataClose_eq {i : Nat} (h : IsSlice source i stop part) :
    findMetadataClose v source stop name i =
      some ((Enclosure.ofMetadata? name part).map (closingSpan i)) := by
  refine findCloseFrom_eq (fun pos cs hcs => ?_) h
  refine follows_closeStep true _ hcs (fun _ => rfl) fun tag rest hm hname hend => ?_
  simp only [tagStep, Span.ofText, Option.bind_eq_bind, Option.bind_some, hname, hend,
    Bool.true_and]
  cases hsame : Text.sameName tag.name name with
  | false =>
    have hstep : Enclosure.metadataStep name cs = .skip cs := by
      simp [Enclosure.metadataStep, hm, hsame]
    exact ⟨_, rfl, follows_of_pass hstep⟩
  | true =>
    cases hself : tag.selfClosing with
    | true =>
      have hstep : Enclosure.metadataStep name cs = .pass tag.text rest := by
        simp [Enclosure.metadataStep, hm, hsame, hself]
      exact ⟨_, rfl, follows_of_pass hstep⟩
    | false =>
      have hstep : Enclosure.metadataStep name cs = .enter tag.text rest := by
        simp [Enclosure.metadataStep, hm, hsame, hself]
      exact ⟨_, rfl, follows_of_enter hstep⟩

theorem structuralStep_eq (hm : ∀ tag rest, Mark.read cs ≠ .opening tag rest) :
    Enclosure.structuralStep v name cs = Enclosure.metadataStep name cs := by
  rw [Enclosure.structuralStep, Enclosure.metadataStep]
  cases hread : Mark.read cs with
  | opening tag rest => exact absurd hread (hm tag rest)
  | comment | closing | unclosed | plain => rfl

theorem findStructuralClose_eq {i : Nat} (h : IsSlice source i stop part) :
    findCloseFrom (closeStep v source stop name false (findMetadataClose v source stop)) source
        stop 1 i =
      some ((Enclosure.ofStructural? v name part).map (closingSpan i)) := by
  refine findCloseFrom_eq (fun pos cs hcs => ?_) h
  refine follows_closeStep false _ hcs structuralStep_eq fun tag rest hm hname hend => ?_
  have hrest : IsSlice source (pos + size tag.text) stop rest := by
    rw [← Mark.text_append_of_opening hm] at hcs
    exact hcs.right
  simp only [tagStep, Span.ofText, Option.bind_eq_bind, Option.bind_some, hname, hend,
    Bool.false_and]
  cases hself : tag.selfClosing with
  | true =>
    have hstep : Enclosure.structuralStep v name cs = .pass tag.text rest := by
      simp [Enclosure.structuralStep, hm, hself]
    exact ⟨_, rfl, follows_of_pass hstep⟩
  | false =>
    cases hsame : Text.sameName tag.name name with
    | true =>
      have hstep : Enclosure.structuralStep v name cs = .enter tag.text rest := by
        simp [Enclosure.structuralStep, hm, hsame, hself]
      exact ⟨_, rfl, follows_of_enter hstep⟩
    | false =>
      by_cases hclass : v.classify (.ofList tag.name) = some .metadata
      · simp only [if_pos hclass, findMetadataClose_eq hrest, Option.bind_some]
        cases hfind : Enclosure.ofMetadata? tag.name rest with
        | none =>
          have hstep : Enclosure.structuralStep v name cs = .pass tag.text rest := by
            simp [Enclosure.structuralStep, hm, hsame, hself, hclass, hfind]
          exact ⟨_, rfl, follows_of_pass hstep⟩
        | some e =>
          have hstep : Enclosure.structuralStep v name cs = .pass (tag.text ++ e.text) e.rest := by
            simp [Enclosure.structuralStep, hm, hsame, hself, hclass, hfind]
          refine ⟨.pass (pos + size (tag.text ++ e.text)), ?_, follows_of_pass hstep⟩
          rw [Text.size_append, ← Nat.add_assoc]
          rfl
      · have hstep : Enclosure.structuralStep v name cs = .pass tag.text rest := by
          simp [Enclosure.structuralStep, hm, hsame, hself, hclass]
        simp only [if_neg hclass]
        exact ⟨_, rfl, follows_of_pass hstep⟩

theorem findClose_eq {i : Nat} (h : IsSlice source i stop part) :
    findClose v source stop name i =
      some ((Enclosure.find? v name part).map (closingSpan i)) := by
  rw [findClose, Enclosure.find?]
  split
  · exact findMetadataClose_eq h
  · exact findStructuralClose_eq h

theorem trim_cases (cs : List Char) :
    (Text.trim cs = [] ∧ Text.trimStart cs = [] ∧ Text.trimEnd cs = []) ∨
      ∃ left right, Text.trim cs ≠ [] ∧ cs = left ++ (Text.trim cs ++ right) ∧
        Text.trimStart cs = Text.trim cs ++ right ∧ Text.trimEnd cs = left ++ Text.trim cs := by
  have hstart : cs.takeWhile Text.isBlank ++ Text.trimStart cs = cs :=
    List.takeWhile_append_dropWhile
  by_cases hblank : ∀ c ∈ cs, Text.isBlank c = true
  · have hs : Text.trimStart cs = [] := List.dropWhile_eq_nil_iff.mpr hblank
    have he : Text.trimEnd cs = [] := by
      rw [Text.trimEnd, List.reverse_eq_nil_iff, List.dropWhile_eq_nil_iff]
      exact fun c hc => hblank c (List.mem_reverse.mp hc)
    exact .inl ⟨by rw [Text.trim, hs]; rfl, hs, he⟩
  · have hrest : (Text.trimStart cs).reverse.dropWhile Text.isBlank ≠ [] := by
      rw [Ne, List.dropWhile_eq_nil_iff]
      intro hall
      refine hblank fun c hc => ?_
      rw [← hstart] at hc
      obtain hc | hc := List.mem_append.mp hc
      · exact List.mem_takeWhile_imp hc
      · exact hall c (List.mem_reverse.mpr hc)
    have hright : Text.trim cs ++ ((Text.trimStart cs).reverse.takeWhile Text.isBlank).reverse =
        Text.trimStart cs := by
      rw [Text.trim, Text.trimEnd, ← List.reverse_append, List.takeWhile_append_dropWhile,
        List.reverse_reverse]
    refine .inr ⟨cs.takeWhile Text.isBlank,
      ((Text.trimStart cs).reverse.takeWhile Text.isBlank).reverse, ?_, ?_, hright.symm, ?_⟩
    · exact fun h => hrest (List.reverse_eq_nil_iff.mp h)
    · rw [hright, hstart]
    · have hne : ((Text.trimStart cs).reverse.dropWhile Text.isBlank).isEmpty = false :=
        List.isEmpty_eq_false_iff.mpr hrest
      conv_lhs => rw [← hstart]
      rw [Text.trimEnd, List.reverse_append, List.dropWhile_append, hne]
      simp [Text.trim, Text.trimEnd]

theorem isEmpty_eq_decide {cs part : List Char} {n last : Nat}
    (h : IsSlice source n last (part ++ cs)) : decide (n + size part = last) = cs.isEmpty := by
  have hstop := h.start_add
  rw [Text.size_append] at hstop
  cases cs with
  | nil => exact decide_eq_true (by rw [← hstop]; rfl)
  | cons c cs =>
    have hpos := Text.size_pos (List.cons_ne_nil c cs)
    exact decide_eq_false (by omega)

theorem tagName_of_head {start : Nat} {c : Char} (h : IsSlice source start stop (c :: cs))
    (hc : Name.isStart c = false) : tagName source start stop = some none := by
  have hread : Name.read? (c :: cs) = none := by simp [Name.read?, hc]
  rw [tagName_eq h, hread]

theorem takesAll_eq (h : IsSlice source pos stop ('<' :: cs)) :
    takesAll v source name pos stop = some (match Mark.read cs with
      | .opening tag rest =>
        Text.sameName tag.name name &&
          if tag.selfClosing then rest.isEmpty
          else (Enclosure.find? v name rest).any (·.rest.isEmpty)
      | _ => false) := by
  have hsight := sight_read h
  have happend : IsSlice source pos stop (['<'] ++ cs) := h
  have hnext : IsSlice source (pos + 1) stop cs := happend.right
  rw [takesAll]
  simp only [Option.bind_eq_bind]
  generalize hm : Mark.read cs = m at hsight ⊢
  cases hsight with
  | comment hc =>
    obtain ⟨ds, hds⟩ := hc
    obtain rfl : '!' :: '-' :: '-' :: ds = cs := (List.cons.inj hds).2
    rw [tagName_of_head hnext (by decide +kernel)]
    rfl
  | closing hc hs | noClosing hc hs =>
    obtain ⟨ds, hds⟩ := hs
    obtain rfl : '/' :: ds = cs := (List.cons.inj hds).2
    rw [tagName_of_head hnext (by decide +kernel)]
    rfl
  | @opening tag rest hc hs htag hname hend =>
    rw [← Mark.text_append_of_opening hm] at h
    rw [htag]
    simp only [Option.bind_some, Span.ofText, hname, hend]
    cases Text.sameName tag.name name with
    | false => rfl
    | true =>
      cases tag.selfClosing with
      | true =>
        simp only [isEmpty_eq_decide h]
        rfl
      | false =>
        simp only [findClose_eq h.right, Option.bind_some]
        cases hfind : Enclosure.find? v name rest with
        | none => rfl
        | some e =>
          have hright := h.right
          rw [← Enclosure.append_of_find? hfind] at hright
          simp only [Option.map_some, Option.any_some, closingSpan, isEmpty_eq_decide hright]
          rfl
  | unclosed hc hs htag hname hend =>
    rw [htag]
    simp only [Option.bind_some, Span.ofText, hname, hend]
    split <;> rfl
  | plain hc hs htag =>
    rw [htag]
    rfl

theorem isOneOf_eq {start : Nat} {body : List Char} (h : IsSlice source start stop body) :
    isOneOf v source name start stop = some (Element.isOneOf v name body) := by
  rw [isOneOf, slice?_of h, Element.isOneOf]
  simp only [Option.bind_eq_bind, Option.bind_some]
  have hstop := h.start_add
  obtain ⟨htrim, hstart, hend⟩ | ⟨left, right, hne, hbody, hstart, hend⟩ := trim_cases body
  · have hlast : sub? stop (size body) = some start := by
      rw [← hstop, Nat.add_comm, sub?_add]
    have hsize : sub? (size body) 0 = some (size body) := if_pos (Nat.zero_le _)
    rw [htrim, hstart, hend]
    simp only [Text.size_nil, hsize, Option.bind_some, hlast,
      if_pos (Nat.le_add_right start (size body))]
    rfl
  · obtain ⟨c, cs, hcs⟩ := List.exists_cons_of_ne_nil hne
    have hpos := Text.size_pos hne
    have hsize : size body = size left + (size (Text.trim body) + size right) := by
      rw [← Text.size_append, ← Text.size_append, ← hbody]
    have hfirst : sub? (size body) (size (Text.trimStart body)) = some (size left) := by
      rw [hstart, hsize, Text.size_append, Nat.add_comm (size left), sub?_add]
    have hgap : sub? (size body) (size (Text.trimEnd body)) = some (size right) := by
      rw [hend, hsize, Text.size_append, ← Nat.add_assoc, sub?_add]
    have hlast : sub? stop (size right) = some (start + size left + size (Text.trim body)) := by
      rw [← hstop, hsize, show start + (size left + (size (Text.trim body) + size right)) =
        size right + (start + size left + size (Text.trim body)) by omega, sub?_add]
    have hslice : IsSlice source (start + size left)
        (start + size left + size (Text.trim body)) (Text.trim body) := by
      rw [hbody] at h
      exact h.right.left
    rw [hfirst, hgap]
    simp only [Option.bind_some, hlast]
    generalize start + size left + size (Text.trim body) = last at *
    rw [if_neg (Nat.not_le.mpr (hslice.lt hne))]
    rw [hcs] at hslice ⊢
    simp only [byte?_of hslice, Option.bind_some]
    by_cases hc : c = '<'
    · subst hc
      rw [if_neg (by simp [lead_eq_iff (m := '<') (by decide)])]
      exact takesAll_eq hslice
    · rw [if_pos (by simpa [lead_eq_iff (m := '<') (by decide)] using hc)]
      split
      · rename_i hhead
        exact absurd (List.cons.inj hhead).1 hc
      · rfl

end Checked

end ProseMarkup
