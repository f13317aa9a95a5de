import ProseMarkup.Proofs.Locality
import ProseMarkup.TagSet

namespace ProseMarkup

namespace Text

def capitals : List Char :=
  (List.range 26).map fun n => .ofNat (n + 65)

theorem mem_capitals_of_lower_ne {c : Char} (h : c.toLower ≠ c) : c ∈ capitals := by
  unfold Char.toLower at h
  split at h
  · rename_i hc
    obtain ⟨hlow, hhigh⟩ := hc
    have hlow : 65 ≤ c.toNat := hlow
    have hhigh : c.toNat ≤ 90 := hhigh
    refine List.mem_map.mpr ⟨c.toNat - 65, List.mem_range.mpr (by omega), ?_⟩
    rw [Nat.sub_add_cancel hlow, Char.ofNat_toNat]
  · exact absurd rfl h

/-- Holds of a function that does not tell a capital from its small letter. -/
def Caseless {α : Type} (f : Char → α) : Prop :=
  ∀ c ∈ capitals, f c.toLower = f c

-- Only the capitals are looked at here: there is also an instance that runs over all characters.
instance {α : Type} [DecidableEq α] (f : Char → α) : Decidable (Caseless f) :=
  List.decidableBAll _ capitals

theorem lower_congr {α : Type} {f : Char → α} (h : Caseless f) (c : Char) :
    f c.toLower = f c := by
  by_cases hc : c.toLower = c
  · rw [hc]
  · exact h c (mem_capitals_of_lower_ne hc)

theorem lower_lower (c : Char) : c.toLower.toLower = c.toLower :=
  lower_congr (by decide +kernel) c

theorem utf8Size_lower (c : Char) : c.toLower.utf8Size = c.utf8Size :=
  lower_congr (by decide +kernel) c

theorem isBlank_lower (c : Char) : isBlank c.toLower = isBlank c :=
  lower_congr (by decide +kernel) c

def IsSign (x : Char) : Prop :=
  ∀ c ∈ capitals, c.toLower ≠ x ∧ c ≠ x

instance (x : Char) : Decidable (IsSign x) :=
  List.decidableBAll _ capitals

def AllSigns (mark : List Char) : Prop :=
  ∀ x ∈ mark, IsSign x

instance (mark : List Char) : Decidable (AllSigns mark) :=
  List.decidableBAll _ mark

theorem lower_eq_iff {x : Char} (hx : IsSign x) (c : Char) : c.toLower = x ↔ c = x := by
  have hcase : Caseless fun c => decide (c = x) := by
    intro c hc
    obtain ⟨hlow, hcap⟩ := hx c hc
    exact decide_eq_decide.mpr (iff_of_false hlow hcap)
  exact decide_eq_decide.mp (lower_congr hcase c)

theorem IsSign.lower {x : Char} (hx : IsSign x) : x.toLower = x :=
  (lower_eq_iff hx x).mpr rfl

theorem fold_cons (c : Char) (cs : List Char) : fold (c :: cs) = c.toLower :: fold cs := rfl

theorem fold_append (as bs : List Char) : fold (as ++ bs) = fold as ++ fold bs :=
  List.map_append

theorem fold_eq_nil {cs : List Char} : fold cs = [] ↔ cs = [] :=
  List.map_eq_nil_iff

theorem fold_eq_cons {x : Char} (hx : IsSign x) {cs ds : List Char} :
    fold cs = x :: ds ↔ ∃ rest, cs = x :: rest ∧ fold rest = ds := by
  constructor
  · intro h
    obtain ⟨c, rest, rfl, hc, hrest⟩ := List.map_eq_cons_iff.mp h
    obtain rfl := (lower_eq_iff hx c).mp hc
    exact ⟨rest, rfl, hrest⟩
  · rintro ⟨rest, rfl, rfl⟩
    rw [fold_cons, hx.lower]

theorem fold_fold (cs : List Char) : fold (fold cs) = fold cs := by
  rw [fold, fold, List.map_map]
  exact List.map_congr_left fun c _ => lower_lower c

theorem size_fold (cs : List Char) : size (fold cs) = size cs := by
  induction cs with
  | nil => rfl
  | cons c cs ih => rw [fold_cons, size_cons, size_cons, utf8Size_lower, ih]

theorem sameName_fold (as bs : List Char) : sameName (fold as) (fold bs) = sameName as bs := by
  rw [sameName, sameName, fold_fold, fold_fold]

section

variable {p : Char → Bool} (hp : ∀ c, p c.toLower = p c)

include hp

theorem takeWhile_fold (cs : List Char) : (fold cs).takeWhile p = fold (cs.takeWhile p) := by
  rw [fold, List.takeWhile_map, show p ∘ Char.toLower = p from funext hp, fold]

theorem dropWhile_fold (cs : List Char) : (fold cs).dropWhile p = fold (cs.dropWhile p) := by
  rw [fold, List.dropWhile_map, show p ∘ Char.toLower = p from funext hp, fold]

end

theorem trim_fold (cs : List Char) : trim (fold cs) = fold (trim cs) := by
  have trimEnd_fold (cs : List Char) : trimEnd (fold cs) = fold (trimEnd cs) := by
    rw [trimEnd, fold, ← List.map_reverse, ← fold, dropWhile_fold isBlank_lower, fold, fold,
      ← List.map_reverse, trimEnd]
  rw [trim, trimStart, dropWhile_fold isBlank_lower, trimEnd_fold, trim, trimStart]

theorem breakBefore_fold {stops : List Char → Bool} (h : ∀ cs, stops (fold cs) = stops cs)
    (cs : List Char) :
    breakBefore stops (fold cs) = (breakBefore stops cs).map fold fold := by
  induction cs with
  | nil => rfl
  | cons c cs ih =>
    have hc := h (c :: cs)
    rw [fold_cons] at hc ⊢
    rw [breakBefore, breakBefore, hc]
    split
    · rfl
    · rw [ih]
      rfl

theorem prefix_fold {mark : List Char} (hm : AllSigns mark) {cs : List Char} :
    mark <+: fold cs ↔ mark <+: cs := by
  induction mark generalizing cs with
  | nil => simp only [List.nil_prefix]
  | cons x mark ih =>
    obtain ⟨hx, hm⟩ := List.forall_mem_cons.mp hm
    cases cs with
    | nil => exact Iff.rfl
    | cons c cs =>
      rw [fold_cons, List.cons_prefix_cons, List.cons_prefix_cons, ih hm, eq_comm,
        lower_eq_iff hx, eq_comm]

theorem splitAfter?_fold (mark : List Char) (hm : AllSigns mark) (cs : List Char) :
    splitAfter? mark (fold cs) = (splitAfter? mark cs).map (.map fold fold) := by
  have hmark : fold mark = mark := by
    rw [fold, List.map_congr_left fun x hx => (hm x hx).lower]
    exact List.map_id mark
  induction cs with
  | nil => rfl
  | cons c cs ih =>
    have hhead : mark <+: fold (c :: cs) ↔ mark <+: c :: cs := prefix_fold hm
    rw [fold_cons] at hhead ⊢
    rw [splitAfter?, splitAfter?]
    by_cases h : mark <+: c :: cs
    · rw [if_pos h, if_pos (hhead.mpr h), Option.map_some, Prod.map, hmark, fold, fold,
        List.map_drop, List.map_cons]
    · rw [if_neg h, if_neg (mt hhead.mp h), ih, Option.map_map, Option.map_map]
      rfl

theorem splitLine_fold (cs : List Char) : splitLine (fold cs) = (splitLine cs).map fold fold := by
  induction cs with
  | nil => rfl
  | cons c cs ih =>
    rw [fold_cons, splitLine, splitLine]
    by_cases h : c = '\n'
    · subst h
      rfl
    · rw [if_neg h, if_neg (mt (lower_eq_iff (by decide) c).mp h), ih]
      rfl

end Text

open Text (fold IsSign lower_eq_iff fold_cons fold_append fold_eq_cons isBlank_lower)

namespace Name

theorem isStart_lower (c : Char) : isStart c.toLower = isStart c :=
  Text.lower_congr (by decide +kernel) c

theorem isPart_lower (c : Char) : isPart c.toLower = isPart c :=
  Text.lower_congr (by decide +kernel) c

theorem read?_fold (cs : List Char) : read? (fold cs) = (read? cs).map (.map fold fold) := by
  cases cs with
  | nil => rfl
  | cons c cs =>
    rw [fold_cons, read?, read?, isStart_lower, Text.takeWhile_fold isPart_lower,
      Text.dropWhile_fold isPart_lower]
    split
    · rfl
    · rfl

end Name

namespace OpeningTag

def fold (t : OpeningTag) : OpeningTag :=
  ⟨Text.fold t.name, Text.fold t.inside⟩

theorem text_fold (t : OpeningTag) : t.fold.text = Text.fold t.text := by
  simp only [text, fold, fold_cons, fold_append]
  rfl

theorem selfClosing_fold (t : OpeningTag) : t.fold.selfClosing = t.selfClosing := by
  change decide ((Text.fold t.inside).getLast? = some '/') = _
  rw [Text.fold, List.getLast?_map, selfClosing]
  cases t.inside.getLast? with
  | none => rfl
  | some c => simp only [Option.map_some, Option.some.injEq, lower_eq_iff (x := '/') (by decide)]

theorem endsName_fold (cs : List Char) : endsName (Text.fold cs) = endsName cs := by
  cases cs with
  | nil => rfl
  | cons c cs =>
    rw [fold_cons, endsName, endsName, isBlank_lower]
    simp only [lower_eq_iff (x := '>') (by decide), lower_eq_iff (x := '/') (by decide)]

def Ending.fold : Ending → Ending
  | found inside rest => found (Text.fold inside) (Text.fold rest)
  | inQuotes => inQuotes
  | missing => missing

theorem Ending.push_fold (c : Char) (e : Ending) : e.fold.push c.toLower = (e.push c).fold := by
  cases e <;> rfl

theorem scan_fold {quote : Option Char} (hq : ∀ q ∈ quote, IsSign q) (cs : List Char) :
    scan quote (Text.fold cs) = (scan quote cs).fold := by
  induction cs generalizing quote with
  | nil => cases quote <;> rfl
  | cons c cs ih =>
    rw [fold_cons]
    cases quote with
    | some q =>
      have hq := hq q rfl
      have hnext : ∀ q' ∈ (if c = q then none else some q), IsSign q' := by
        intro q' hmem
        split at hmem
        · cases hmem
        · cases hmem
          exact hq
      simp only [scan, lower_eq_iff hq]
      rw [ih hnext, Ending.push_fold]
    | none =>
      have hopen : ∀ q ∈ (if c = '"' || c = '\'' then some c else none), IsSign q := by
        intro q hmem
        split at hmem
        · rename_i hc
          cases hmem
          obtain hc | hc := Bool.or_eq_true_iff.mp hc
          · rw [of_decide_eq_true hc]
            decide
          · rw [of_decide_eq_true hc]
            decide
        · cases hmem
      have hlower : (if c.toLower = '"' || c.toLower = '\'' then some c.toLower else none) =
          if c = '"' || c = '\'' then some c else none := by
        simp only [lower_eq_iff (x := '"') (by decide), lower_eq_iff (x := '\'') (by decide)]
        split
        · rename_i hc
          rw [(hopen c (by rw [if_pos hc]; rfl)).lower]
        · rfl
      rw [scan, scan, hlower, ih hopen, Ending.push_fold]
      simp only [lower_eq_iff (x := '>') (by decide), lower_eq_iff (x := '<') (by decide)]
      split
      · rfl
      · split
        · rfl
        · rfl

theorem scanPlain?_fold (cs : List Char) :
    scanPlain? (Text.fold cs) = (scanPlain? cs).map (.map Text.fold Text.fold) := by
  induction cs with
  | nil => rfl
  | cons c cs ih =>
    rw [fold_cons, scanPlain?, scanPlain?, ih]
    simp only [lower_eq_iff (x := '>') (by decide), lower_eq_iff (x := '<') (by decide)]
    split
    · rfl
    · split
      · rfl
      · rw [Option.map_map, Option.map_map]
        rfl

theorem splitEnd?_fold (cs : List Char) :
    splitEnd? (Text.fold cs) = (splitEnd? cs).map (.map Text.fold Text.fold) := by
  have hnone : ∀ q ∈ (none : Option Char), IsSign q := nofun
  rw [splitEnd?, splitEnd?, scan_fold hnone, scanPlain?_fold]
  cases scan none cs <;> rfl

end OpeningTag

namespace ClosingTag

def fold (t : ClosingTag) : ClosingTag :=
  ⟨Text.fold t.name, Text.fold t.gap⟩

theorem text_fold (t : ClosingTag) : t.fold.text = Text.fold t.text := by
  simp only [text, fold, fold_cons, fold_append]
  rfl

theorem read?_fold (cs : List Char) :
    read? (Text.fold cs) = (read? cs).map (.map fold Text.fold) := by
  rw [read?, read?, Name.read?_fold]
  cases Name.read? cs with
  | none => rfl
  | some x =>
    obtain ⟨name, after⟩ := x
    simp only [Option.map_some, Prod.map, Text.takeWhile_fold isBlank_lower,
      Text.dropWhile_fold isBlank_lower]
    cases after.dropWhile Text.isBlank with
    | nil => rfl
    | cons c rest =>
      by_cases hc : c = '>'
      · subst hc
        rfl
      · have hlower := mt (lower_eq_iff (x := '>') (by decide) c).mp hc
        simp [fold_cons, hc, hlower]

end ClosingTag

namespace Mark

def fold : Mark → Mark
  | comment inner rest => comment (Text.fold inner) (Text.fold rest)
  | closing tag rest => closing tag.fold (Text.fold rest)
  | opening tag rest => opening tag.fold (Text.fold rest)
  | unclosed name rest => unclosed (Text.fold name) (Text.fold rest)
  | plain => plain

theorem readOpening_fold (cs : List Char) : readOpening (Text.fold cs) = (readOpening cs).fold := by
  rw [readOpening, readOpening, Name.read?_fold]
  cases Name.read? cs with
  | none => rfl
  | some x =>
    obtain ⟨name, after⟩ := x
    simp only [Option.map_some, Prod.map, OpeningTag.endsName_fold, OpeningTag.splitEnd?_fold]
    split
    · cases OpeningTag.splitEnd? after <;> rfl
    · rfl

theorem read_fold (cs : List Char) : read (Text.fold cs) = (read cs).fold := by
  by_cases hdash : ∃ ds, cs = '!' :: '-' :: '-' :: ds
  · obtain ⟨ds, rfl⟩ := hdash
    have hsplit : Text.splitAfter? ['-', '-', '>'] ('-' :: '-' :: Text.fold ds) =
        (Text.splitAfter? ['-', '-', '>'] ('-' :: '-' :: ds)).map (.map Text.fold Text.fold) :=
      Text.splitAfter?_fold ['-', '-', '>'] (by decide) ('-' :: '-' :: ds)
    change read ('!' :: '-' :: '-' :: Text.fold ds) = _
    rw [read, hsplit, read]
    cases Text.splitAfter? ['-', '-', '>'] ('-' :: '-' :: ds) <;> rfl
  · by_cases hslash : ∃ ds, cs = '/' :: ds
    · obtain ⟨ds, rfl⟩ := hslash
      change read ('/' :: Text.fold ds) = _
      rw [read, ClosingTag.read?_fold, read]
      cases ClosingTag.read? ds <;> rfl
    · have other {cs : List Char} (hdash : ¬∃ ds, cs = '!' :: '-' :: '-' :: ds)
          (hslash : ¬∃ ds, cs = '/' :: ds) : read cs = readOpening cs :=
        read.eq_3 cs (fun ds h => hdash ⟨ds, h⟩) fun ds h => hslash ⟨ds, h⟩
      rw [other hdash hslash, other, readOpening_fold]
      · rintro ⟨ds, hds⟩
        obtain ⟨es, rfl, hes⟩ := (fold_eq_cons (by decide)).mp hds
        obtain ⟨fs, rfl, hfs⟩ := (fold_eq_cons (by decide)).mp hes
        obtain ⟨after, rfl, -⟩ := (fold_eq_cons (by decide)).mp hfs
        exact hdash ⟨after, rfl⟩
      · rintro ⟨ds, hds⟩
        obtain ⟨after, rfl, -⟩ := (fold_eq_cons (by decide)).mp hds
        exact hslash ⟨after, rfl⟩

end Mark

def Vocabulary.CaseBlind (v : Vocabulary) : Prop :=
  ∀ name, v.classify (.ofList (fold name)) = v.classify (.ofList name)

theorem TagSet.caseBlind (s : TagSet) : s.toVocabulary.CaseBlind := by
  intro name
  apply s.classify_congr
  rw [key, key, String.toList_ofList, String.toList_ofList, Text.fold_fold]

namespace Enclosure

def fold (e : Enclosure) : Enclosure :=
  ⟨Text.fold e.body, e.closing.fold, Text.fold e.rest⟩

theorem text_fold (e : Enclosure) : e.fold.text = Text.fold e.text := by
  rw [text, text, fold_append, ← ClosingTag.text_fold]
  rfl

theorem push_fold (past : List Char) (o : Option Enclosure) :
    (o.map fold).map (push (Text.fold past)) = (o.map (push past)).map fold := by
  rw [Option.map_map, Option.map_map]
  congr 1
  funext e
  simp only [Function.comp_apply, push, fold, fold_append]

def Step.fold : Step → Step
  | pass past rest => pass (Text.fold past) (Text.fold rest)
  | enter past rest => enter (Text.fold past) (Text.fold rest)
  | meet tag rest => meet tag.fold (Text.fold rest)

/-- A search in a folded text does what it does in the text when its steps do. -/
theorem search_fold {step step' : List Char → Step} {takes : ∀ cs, (step cs).Takes ('<' :: cs)}
    {takes' : ∀ cs, (step' cs).Takes ('<' :: cs)}
    (h : ∀ cs, step' (Text.fold cs) = (step cs).fold) (inner : Nat) (cs : List Char) :
    search step' takes' inner (Text.fold cs) = (search step takes inner cs).map fold := by
  have hlt (cs : List Char) : Text.fold ('<' :: cs) = '<' :: Text.fold cs := rfl
  fun_induction search step takes inner cs with
  | case1 => rw [show Text.fold [] = [] from rfl, search_nil, Option.map_none]
  | case2 inner cs _ past rest hs ih =>
    have hs' : step' (Text.fold cs) = .pass (Text.fold past) (Text.fold rest) := by rw [h, hs]; rfl
    rw [hlt, search_of_pass hs', ih, push_fold]
  | case3 inner cs _ past rest hs ih =>
    have hs' : step' (Text.fold cs) = .enter (Text.fold past) (Text.fold rest) := by rw [h, hs]; rfl
    rw [hlt, search_of_enter hs', ih, push_fold]
  | case4 cs _ tag rest hs =>
    have hs' : step' (Text.fold cs) = .meet tag.fold (Text.fold rest) := by rw [h, hs]; rfl
    rw [hlt, search_of_meet hs']
    rfl
  | case5 cs _ tag rest hs inner ih =>
    have hs' : step' (Text.fold cs) = .meet tag.fold (Text.fold rest) := by rw [h, hs]; rfl
    rw [hlt, search_of_meet_succ hs', ih, ClosingTag.text_fold, push_fold]
  | case6 inner c cs hc ih =>
    have hc' := mt (lower_eq_iff (x := '<') (by decide) c).mp hc
    rw [fold_cons, search_cons hc', ih, ← push_fold]
    rfl

theorem metadataStep_fold (name cs : List Char) :
    metadataStep (Text.fold name) (Text.fold cs) = (metadataStep name cs).fold := by
  have skip (cs : List Char) : Step.skip (Text.fold cs) = (Step.skip cs).fold := rfl
  rw [metadataStep, metadataStep, Mark.read_fold]
  cases Mark.read cs with
  | comment inner rest => rfl
  | closing tag rest =>
    have hsame := Text.sameName_fold tag.name name
    simp only [Mark.fold, ClosingTag.fold, hsame, skip, apply_ite Step.fold]
    rfl
  | opening tag rest =>
    have hsame := Text.sameName_fold tag.name name
    have hself := tag.selfClosing_fold
    have htext := tag.text_fold
    rw [OpeningTag.fold] at hself htext
    simp only [Mark.fold, OpeningTag.fold, hsame, hself, htext, skip, apply_ite Step.fold]
    rfl
  | unclosed name rest => rfl
  | plain => rfl

theorem ofMetadata?_fold (name cs : List Char) :
    ofMetadata? (Text.fold name) (Text.fold cs) = (ofMetadata? name cs).map fold :=
  search_fold (metadataStep_fold name) 0 cs

variable {v : Vocabulary} (hv : v.CaseBlind)

include hv

theorem structuralStep_fold (name cs : List Char) :
    structuralStep v (Text.fold name) (Text.fold cs) = (structuralStep v name cs).fold := by
  rw [structuralStep, structuralStep, Mark.read_fold]
  cases Mark.read cs with
  | comment inner rest => rfl
  | closing tag rest =>
    have hsame := Text.sameName_fold tag.name name
    simp only [Mark.fold, ClosingTag.fold, hsame, apply_ite Step.fold]
    rfl
  | opening tag rest =>
    have hsame := Text.sameName_fold tag.name name
    have hself := tag.selfClosing_fold
    have htext := tag.text_fold
    rw [OpeningTag.fold] at hself htext
    simp only [Mark.fold, OpeningTag.fold, hsame, hself, htext, hv tag.name, ofMetadata?_fold]
    split
    · rfl
    · split
      · rfl
      · split
        · cases ofMetadata? tag.name rest with
          | none => rfl
          | some e =>
            simp only [Option.map_some, text_fold, ← fold_append]
            rfl
        · rfl
  | unclosed name rest => rfl
  | plain => rfl

theorem find?_fold (name cs : List Char) :
    find? v (Text.fold name) (Text.fold cs) = (find? v name cs).map fold := by
  rw [find?, find?, hv name, ofMetadata?_fold]
  split
  · rfl
  · exact search_fold (structuralStep_fold hv name) 0 cs

end Enclosure

end ProseMarkup
