import ProseMarkup.Proofs.Isolation
import ProseMarkup.Proofs.Markup.Search

namespace ProseMarkup

variable {bs : List Char}

namespace Text

theorem prefix_of_append_of_blank (hb : ∀ c ∈ bs, isBlank c = true) {mark cs : List Char}
    (hm : mark.any isBlank = false) (h : mark <+: cs ++ bs) : mark <+: cs := by
  cases bs with
  | nil => rwa [List.append_nil] at h
  | cons b bs =>
    refine prefix_of_prefix_append (fun hmem => ?_) h
    exact absurd (hb b List.mem_cons_self) (List.any_eq_false.mp hm b hmem)

theorem splitAfter?_append_of_blank (hb : ∀ c ∈ bs, isBlank c = true) {mark : List Char}
    (hne : mark ≠ []) (hm : mark.getLast?.any isBlank = false) (cs : List Char) :
    splitAfter? mark (cs ++ bs) =
      (splitAfter? mark cs).map fun (past, rest) => (past, rest ++ bs) := by
  -- what is found in the longer text ends with the mark, so it ends before the blanks
  have later {past rest : List Char} (h : splitAfter? mark (cs ++ bs) = some (past, rest)) :
      ∃ r, cs = past ++ r := by
    obtain ⟨r, rfl, -⟩ | ⟨r, rfl, hr⟩ := List.append_eq_append_iff.mp (append_of_splitAfter? h)
    · exact ⟨r, rfl⟩
    · obtain rfl | hne' := eq_or_ne r []
      · exact ⟨[], by simp⟩
      · obtain ⟨before, hbefore⟩ := suffix_of_splitAfter? h
        have hlast := congrArg List.getLast? hbefore
        rw [List.getLast?_append_of_ne_nil _ hne, List.getLast?_append_of_ne_nil _ hne'] at hlast
        have hmem := List.mem_of_getLast? (List.getLast?_eq_some_getLast hne')
        have hblank := hb _ (hr ▸ List.mem_append_left rest hmem)
        rw [hlast, List.getLast?_eq_some_getLast hne', Option.any_some, hblank] at hm
        cases hm
  cases h : splitAfter? mark cs with
  | some x =>
    obtain ⟨past, rest⟩ := x
    obtain rfl := append_of_splitAfter? h
    rw [List.append_assoc]
    exact splitAfter?_of_append hne h (rest ++ bs)
  | none =>
    cases h' : splitAfter? mark (cs ++ bs) with
    | none => rfl
    | some x =>
      obtain ⟨past, rest⟩ := x
      obtain ⟨r, rfl⟩ := later h'
      have hrest := append_of_splitAfter? h'
      rw [← hrest] at h'
      rw [splitAfter?_of_append hne h' r] at h
      cases h

end Text

namespace OpeningTag

def Ending.extend (r : List Char) : Ending → Ending
  | found inside rest => found inside (rest ++ r)
  | inQuotes => inQuotes
  | missing => missing

theorem Ending.extend_push (r : List Char) (c : Char) (x : Ending) :
    (x.push c).extend r = (x.extend r).push c := by
  cases x <;> rfl

theorem scan_blank (hb : ∀ c ∈ bs, Text.isBlank c = true) {quote : Option Char}
    (hq : ∀ q ∈ quote, Text.isBlank q = false) : scan quote bs = scan quote [] := by
  induction bs with
  | nil => rfl
  | cons b bs ih =>
    obtain ⟨hblank, hb⟩ := List.forall_mem_cons.mp hb
    have hs := ih hb
    cases quote with
    | none =>
      have hdelimiter := not_mem_delimiters (p := Text.isBlank) (by decide) hblank
      simp only [delimiters, List.mem_cons, List.not_mem_nil, or_false, not_or] at hdelimiter
      obtain ⟨hgt, hlt, hdouble, hsingle⟩ := hdelimiter
      simp only [scan, hgt, hlt, hdouble, hsingle, Bool.or_self, decide_false, if_false,
        Bool.false_eq_true, hs]
      rfl
    | some q =>
      have hne : b ≠ q := by
        rintro rfl
        rw [hq b rfl] at hblank
        cases hblank
      simp only [scan, hne, if_false, hs]
      rfl

theorem scan_append_of_blank (hb : ∀ c ∈ bs, Text.isBlank c = true) {quote : Option Char}
    (hq : ∀ q ∈ quote, Text.isBlank q = false) (cs : List Char) :
    scan quote (cs ++ bs) = (scan quote cs).extend bs := by
  induction cs generalizing quote with
  | nil =>
    rw [List.nil_append, scan_blank hb hq]
    cases quote <;> rfl
  | cons c cs ih =>
    have push {quote : Option Char} (hq : ∀ q ∈ quote, Text.isBlank q = false) :
        (scan quote (cs ++ bs)).push c = ((scan quote cs).push c).extend bs := by
      rw [ih hq, Ending.extend_push]
    cases quote with
    | some q =>
      refine push ?_
      split
      · nofun
      · exact hq
    | none =>
      by_cases hgt : c = '>'
      · simp [scan, hgt, Ending.extend]
      · by_cases hlt : c = '<'
        · simp [scan, hlt, Ending.extend]
        · simp only [List.cons_append, scan, hgt, hlt, if_false]
          refine push ?_
          split
          · rename_i hquote
            simp only [Bool.or_eq_true, decide_eq_true_eq] at hquote
            rintro _ ⟨⟩
            obtain rfl | rfl := hquote <;> decide
          · nofun

theorem scanPlain?_append_of_blank (hb : ∀ c ∈ bs, Text.isBlank c = true) (cs : List Char) :
    scanPlain? (cs ++ bs) = (scanPlain? cs).map fun (inside, rest) => (inside, rest ++ bs) := by
  induction cs with
  | nil =>
    cases h : scanPlain? bs with
    | none => exact h
    | some x =>
      have hgt : '>' ∈ bs := append_of_scanPlain? h ▸ List.mem_append_right _ List.mem_cons_self
      exact absurd (hb _ hgt) (by decide)
  | cons c cs ih =>
    rw [List.cons_append, scanPlain?, scanPlain?]
    split
    · rfl
    · split
      · rfl
      · rw [ih, Option.map_map, Option.map_map]
        rfl

theorem splitEnd?_append_of_blank (hb : ∀ c ∈ bs, Text.isBlank c = true) (cs : List Char) :
    splitEnd? (cs ++ bs) = (splitEnd? cs).map fun (inside, rest) => (inside, rest ++ bs) := by
  have hnone : ∀ q ∈ (none : Option Char), Text.isBlank q = false := nofun
  rw [splitEnd?, splitEnd?, scan_append_of_blank hb hnone]
  cases scan none cs with
  | found | missing => rfl
  | inQuotes => exact scanPlain?_append_of_blank hb cs

theorem endsName_append_of_blank (hb : ∀ c ∈ bs, Text.isBlank c = true) (cs : List Char) :
    endsName (cs ++ bs) = endsName cs := by
  cases cs with
  | cons c cs => rfl
  | nil =>
    cases bs with
    | nil => rfl
    | cons b bs => simp [endsName, hb b List.mem_cons_self]

end OpeningTag

theorem ClosingTag.read?_append_of_blank (hb : ∀ c ∈ bs, Text.isBlank c = true) (cs : List Char) :
    read? (cs ++ bs) = (read? cs).map fun (tag, rest) => (tag, rest ++ bs) := by
  rw [read?, read?, Name.read?_append (Name.ends_of_isBlank hb)]
  cases Name.read? cs with
  | none => rfl
  | some x =>
    obtain ⟨name, after⟩ := x
    simp only [Option.map_some]
    cases hd : after.dropWhile Text.isBlank with
    | nil =>
      have hblank := List.dropWhile_eq_nil_iff.mp hd
      rw [List.dropWhile_append_of_pos hblank, List.dropWhile_eq_nil_iff.mpr hb]
      rfl
    | cons c rest =>
      have hc : Text.isBlank c = false := by
        have hhead := List.head?_dropWhile_not Text.isBlank after
        rw [hd] at hhead
        simpa using hhead
      have hmem : c ∈ after := (List.dropWhile_suffix Text.isBlank).mem (hd ▸ List.mem_cons_self)
      obtain ⟨htake, hdrop⟩ := Text.span_append_of_mem hc hmem bs
      rw [htake, hdrop, hd, List.cons_append]
      split
      · rename_i hcons
        cases hcons
        rfl
      · rename_i hcons
        split
        · rename_i h
          cases h
          exact absurd rfl (hcons _)
        · rfl

namespace Mark

theorem readOpening_append_of_blank (hb : ∀ c ∈ bs, Text.isBlank c = true) (cs : List Char) :
    readOpening (cs ++ bs) = (readOpening cs).extend bs := by
  rw [readOpening, readOpening, Name.read?_append (Name.ends_of_isBlank hb)]
  cases Name.read? cs with
  | none => rfl
  | some x =>
    obtain ⟨name, after⟩ := x
    simp only [Option.map_some, OpeningTag.endsName_append_of_blank hb,
      OpeningTag.splitEnd?_append_of_blank hb]
    split
    · cases OpeningTag.splitEnd? after <;> rfl
    · rfl

theorem read_append_of_blank (hb : ∀ c ∈ bs, Text.isBlank c = true) (cs : List Char) :
    read (cs ++ bs) = (read cs).extend bs ∨
      ∃ inner, read cs = .comment inner [] ∧ read (cs ++ bs) = .comment (inner ++ bs) [] := by
  by_cases hc : ['!', '-', '-'] <+: cs
  · obtain ⟨t, rfl⟩ := hc
    have hsplit := Text.splitAfter?_append_of_blank hb
      (List.cons_ne_nil '-' ['-', '>']) (by decide) ('-' :: '-' :: t)
    simp only [List.cons_append, List.nil_append] at hsplit ⊢
    rw [read, read, hsplit]
    cases Text.splitAfter? ['-', '-', '>'] ('-' :: '-' :: t) with
    | some x => exact .inl rfl
    | none => exact .inr ⟨_, rfl, rfl⟩
  · left
    have hc' : ¬['!', '-', '-'] <+: cs ++ bs :=
      fun h => hc (Text.prefix_of_append_of_blank hb (by decide) h)
    by_cases hs : ['/'] <+: cs
    · obtain ⟨t, rfl⟩ := hs
      rw [List.singleton_append, List.cons_append, read, read, ClosingTag.read?_append_of_blank hb]
      cases ClosingTag.read? t <;> rfl
    · have hs' : ¬['/'] <+: cs ++ bs :=
        fun h => hs (Text.prefix_of_append_of_blank hb (by decide) h)
      have plain {cs : List Char} (hc : ¬['!', '-', '-'] <+: cs) (hs : ¬['/'] <+: cs) :
          read cs = readOpening cs :=
        read_eq_readOpening (fun t h => hc ⟨t, h.symm⟩) fun t h => hs ⟨t, h.symm⟩
      rw [plain hc hs, plain hc' hs', readOpening_append_of_blank hb]

theorem read_append_of_blank_eq_opening (hb : ∀ c ∈ bs, Text.isBlank c = true)
    {cs after : List Char} {tag : OpeningTag} :
    read (cs ++ bs) = .opening tag after ↔
      ∃ rest, after = rest ++ bs ∧ read cs = .opening tag rest := by
  obtain h | ⟨inner, h, h'⟩ := read_append_of_blank hb cs
  · rw [h]
    cases read cs <;> simp [extend, eq_comm, and_comm]
  · rw [h, h']
    simp

end Mark

namespace Enclosure

theorem search_append_of_blank (hb : ∀ c ∈ bs, Text.isBlank c = true) {step : List Char → Step}
    {takes : ∀ cs, (step cs).Takes ('<' :: cs)}
    (hstep : ∀ cs, step (cs ++ bs) = (step cs).extend bs ∨
      ∃ past past', step cs = .pass past [] ∧ step (cs ++ bs) = .pass past' [])
    (inner : Nat) (cs : List Char) :
    search step takes inner (cs ++ bs) = (search step takes inner cs).map (extend bs) := by
  have push (past : List Char) (o : Option Enclosure) :
      (o.map (extend bs)).map (push past) = (o.map (push past)).map (extend bs) := by
    rw [Option.map_map, Option.map_map]
    rfl
  -- behind the last character there are blanks, or nothing
  have passed {cs rest : List Char} (h : step cs = .pass rest []) {n : Nat} :
      search step takes n ('<' :: cs) = none := by
    rw [search_of_pass h, search_nil]
    rfl
  have entered {cs past rest : List Char} (h : step cs = .enter past rest) :
      step (cs ++ bs) = .enter past (rest ++ bs) := by
    obtain hs | ⟨_, _, hs, -⟩ := hstep cs
    · rw [hs, h]
      rfl
    · cases h.symm.trans hs
  have met {cs rest : List Char} {tag : ClosingTag} (h : step cs = .meet tag rest) :
      step (cs ++ bs) = .meet tag (rest ++ bs) := by
    obtain hs | ⟨_, _, hs, -⟩ := hstep cs
    · rw [hs, h]
      rfl
    · cases h.symm.trans hs
  fun_induction search step takes inner cs with
  | case1 inner =>
    have hlt : '<' ∉ bs := fun h => absurd (hb _ h) (by decide)
    have hsearch : search step takes inner (bs ++ []) = _ := search_append_of_not_mem hlt []
    rwa [List.append_nil, search_nil] at hsearch
  | case2 inner cs _ past rest hs ih =>
    obtain h | ⟨_, _, h, h'⟩ := hstep cs
    · rw [hs] at h
      rw [List.cons_append, search_of_pass h, ih, push]
    · rw [hs] at h
      cases h
      rw [List.cons_append, passed h', search_nil]
      rfl
  | case3 inner cs _ past rest hs ih =>
    rw [List.cons_append, search_of_enter (entered hs), ih, push]
  | case4 cs _ tag rest hs =>
    rw [List.cons_append, search_of_meet (met hs)]
    rfl
  | case5 cs _ tag rest hs inner ih =>
    rw [List.cons_append, search_of_meet_succ (met hs), ih, push]
  | case6 inner c cs hc ih => rw [List.cons_append, search_cons hc, ih, push]

theorem metadataStep_append_of_blank (hb : ∀ c ∈ bs, Text.isBlank c = true)
    (name cs : List Char) :
    metadataStep name (cs ++ bs) = (metadataStep name cs).extend bs ∨ ∃ past past',
      metadataStep name cs = .pass past [] ∧ metadataStep name (cs ++ bs) = .pass past' [] := by
  obtain h | ⟨inner, h, h'⟩ := Mark.read_append_of_blank hb cs
  · exact .inl (metadataStep_eq_extend h)
  · exact .inr ⟨_, _, metadataStep_of_comment h, metadataStep_of_comment h'⟩

theorem ofMetadata?_append_of_blank (hb : ∀ c ∈ bs, Text.isBlank c = true)
    (name cs : List Char) :
    ofMetadata? name (cs ++ bs) = (ofMetadata? name cs).map (extend bs) :=
  search_append_of_blank hb (metadataStep_append_of_blank hb name) 0 cs

theorem structuralStep_append_of_blank (hb : ∀ c ∈ bs, Text.isBlank c = true) (v : Vocabulary)
    (name cs : List Char) :
    structuralStep v name (cs ++ bs) = (structuralStep v name cs).extend bs ∨ ∃ past past',
      structuralStep v name cs = .pass past [] ∧
        structuralStep v name (cs ++ bs) = .pass past' [] := by
  obtain h | ⟨inner, h, h'⟩ := Mark.read_append_of_blank hb cs
  · left
    rw [structuralStep, structuralStep, h]
    cases Mark.read cs with
    | comment | unclosed | plain => rfl
    | closing tag rest =>
      simp only [Mark.extend]
      split <;> rfl
    | opening tag rest =>
      simp only [Mark.extend, ofMetadata?_append_of_blank hb]
      split
      · rfl
      · split
        · rfl
        · split
          · cases ofMetadata? tag.name rest <;> rfl
          · rfl
  · right
    rw [structuralStep, structuralStep, h, h']
    exact ⟨_, _, rfl, rfl⟩

theorem find?_append_of_blank (hb : ∀ c ∈ bs, Text.isBlank c = true) (v : Vocabulary)
    (name cs : List Char) : find? v name (cs ++ bs) = (find? v name cs).map (extend bs) := by
  unfold find?
  split
  · exact ofMetadata?_append_of_blank hb name cs
  · exact search_append_of_blank hb (structuralStep_append_of_blank hb v name) 0 cs

end Enclosure

theorem Element.read?_append_of_blank (hb : ∀ c ∈ bs, Text.isBlank c = true) (v : Vocabulary)
    (cls : TagClass) (tag : OpeningTag) (cs : List Char) :
    read? v cls tag (cs ++ bs) = (read? v cls tag cs).map fun (e, rest) => (e, rest ++ bs) := by
  unfold read?
  split
  · rfl
  · rw [Enclosure.find?_append_of_blank hb, Option.map_map, Option.map_map]
    rfl

theorem Head.read_append_of_blank (hb : ∀ c ∈ bs, Text.isBlank c = true) {v : Vocabulary}
    {cs rest : List Char} {e : Element} :
    read v (cs ++ bs) = .element e (rest ++ bs) ↔ read v cs = .element e rest := by
  rw [read_eq_element_iff, read_eq_element_iff]
  constructor
  · rintro ⟨ds, after, hds, hm, hv, hr⟩
    cases cs with
    | nil =>
      obtain rfl : bs = '<' :: ds := hds
      exact absurd (hb '<' List.mem_cons_self) (by decide)
    | cons c cs =>
      obtain ⟨rfl, rfl⟩ := List.cons.inj hds
      obtain ⟨after, rfl, hm'⟩ := (Mark.read_append_of_blank_eq_opening hb).mp hm
      rw [Element.read?_append_of_blank hb] at hr
      obtain ⟨⟨e', rest'⟩, hr', he⟩ := Option.map_eq_some_iff.mp hr
      obtain ⟨rfl, hrest⟩ := Prod.mk.inj he
      obtain rfl := List.append_cancel_right hrest
      exact ⟨cs, after, rfl, hm', hv, hr'⟩
  · rintro ⟨ds, after, rfl, hm, hv, hr⟩
    refine ⟨ds ++ bs, after ++ bs, rfl, ?_, hv, ?_⟩
    · exact (Mark.read_append_of_blank_eq_opening hb).mpr ⟨after, rfl, hm⟩
    · rw [Element.read?_append_of_blank hb, hr]
      rfl

end ProseMarkup
