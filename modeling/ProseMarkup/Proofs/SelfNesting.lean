import ProseMarkup.Proofs.Blanks
import ProseMarkup.Proofs.Markup.RoundTrip
import ProseMarkup.Proofs.TagNames

namespace ProseMarkup

variable {s : TagSet}

theorem Enclosure.find?_of_sameName {as bs : List Char} (h : Text.sameName as bs = true)
    (cs : List Char) : find? s.toVocabulary as cs = find? s.toVocabulary bs cs := by
  have hname (name : List Char) : Text.sameName name as = Text.sameName name bs := by
    rw [Text.sameName, Text.sameName, Text.sameName_iff.mp h]
  rw [find?, find?, s.classify_toVocabulary, s.classify_toVocabulary, s.classify_of_sameName h]
  split
  · exact search_congr fun ds _ => by simp only [metadataStep, hname]
  · exact search_congr fun ds _ => by simp only [structuralStep, hname]

namespace Element

theorem exists_read?_iff {name : List Char} {tag : OpeningTag}
    (h : Text.sameName tag.name name = true) (cls : TagClass) (cs : List Char) :
    (if tag.selfClosing then cs.isEmpty
      else (Enclosure.find? s.toVocabulary name cs).any (·.rest.isEmpty)) = true ↔
      ∃ e, read? s.toVocabulary cls tag cs = some (e, []) := by
  rw [← Enclosure.find?_of_sameName h]
  split
  · rename_i hself
    rw [read?_of_selfClosing hself]
    simp
  · rename_i hself
    simp only [Option.any_eq_true, List.isEmpty_iff, read?_eq_some_iff hself]
    constructor
    · rintro ⟨f, hf, hrest⟩
      exact ⟨_, f, hf, rfl, hrest.symm⟩
    · rintro ⟨_, f, hf, -, hrest⟩
      exact ⟨f, hf, hrest.symm⟩

theorem isOneOf_iff_read {name body : List Char}
    (hn : s.classify (.ofList name) = some .structural) :
    isOneOf s.toVocabulary name body = true ↔ ∃ e,
      Head.read s.toVocabulary (Text.trim body) = .element e [] ∧
        Text.sameName e.opening.name name = true := by
  constructor
  · intro h
    unfold isOneOf at h
    split at h
    · rename_i cs htrim
      split at h
      · rename_i tag rest hm
        obtain ⟨hname, h⟩ := Bool.and_eq_true_iff.mp h
        have hcls : s.toVocabulary.classify (.ofList tag.name) = some .structural := by
          rw [s.classify_toVocabulary, s.classify_of_sameName hname, hn]
        obtain ⟨e, he⟩ := (exists_read?_iff hname .structural rest).mp h
        obtain ⟨hc, rfl, -⟩ := read?_eq_some he
        rw [htrim]
        exact ⟨e, Head.read_eq_element_iff.mpr ⟨cs, rest, rfl, hm, hc ▸ hcls, hc ▸ he⟩, hname⟩
      · cases h
    · cases h
  · rintro ⟨e, h, hname⟩
    obtain ⟨cs, rest, htrim, hm, -, he⟩ := Head.read_eq_element_iff.mp h
    rw [isOneOf_of_read htrim hm, hname, Bool.true_and]
    exact (exists_read?_iff hname e.cls rest).mpr ⟨e, he⟩

end Element

namespace Region

def IsGap (ts : List (Tree Region)) : Prop :=
  ts = [] ∨ ∃ u chars, ts = [u] ∧ u.label.piece = .text chars ∧ ∀ c ∈ chars, Text.isBlank c = true

/-- Holds of an element of the given name, up to the case of ASCII letters, with nothing but blanks
around it. -/
def IsOneOf (name : List Char) (ts : List (Tree Region)) : Prop :=
  ∃ left t right e, ts = left ++ t :: right ∧ IsGap left ∧ IsGap right ∧
    t.label.piece = .element e ∧ Text.sameName e.opening.name name = true

variable {v : Vocabulary} {limit depth start : Nat}

theorem IsGap.isBlank {ts : List (Tree Region)} (h : IsGap ts) :
    ∀ c ∈ ts.flatMap (·.label.chars), Text.isBlank c = true := by
  obtain rfl | ⟨u, chars, rfl, hu, hchars⟩ := h
  · exact List.forall_mem_nil _
  · rw [List.flatMap_singleton, Region.chars, hu]
    exact hchars

theorem wellFormed_of_blank {bs : List Char} (hb : ∀ c ∈ bs, Text.isBlank c = true)
    (hne : bs ≠ []) : (Markup.text bs).WellFormed .empty :=
  ⟨hne, fun h => absurd (hb _ h) (by decide), fun h => absurd (hb _ h) (by decide)⟩

theorem regions_of_blank {bs : List Char} (hb : ∀ c ∈ bs, Text.isBlank c = true) (hne : bs ≠ []) :
    regions v limit depth start bs = [.node ⟨start, .text bs, []⟩ []] := by
  have hnil : regions v limit depth (start + Text.size bs) [] = [] := regions_nil
  have htext : regions v limit depth start (bs ++ []) = _ :=
    Markup.regions_text (wellFormed_of_blank hb hne) (by rw [hnil]; nofun)
  rwa [List.append_nil, hnil] at htext

theorem isGap_of_blank {bs : List Char} (hb : ∀ c ∈ bs, Text.isBlank c = true) :
    IsGap (regions v limit depth start bs) := by
  obtain rfl | hne := eq_or_ne bs []
  · exact .inl regions_nil
  · exact .inr ⟨_, bs, regions_of_blank hb hne, rfl, hb⟩

theorem regions_append_of_blank {bs cs : List Char} (hb : ∀ c ∈ bs, Text.isBlank c = true)
    (hcs : ∀ u ∈ (regions v limit depth (start + Text.size bs) cs).head?,
      u.label.isProse = false) :
    regions v limit depth start (bs ++ cs) =
      regions v limit depth start bs ++ regions v limit depth (start + Text.size bs) cs := by
  obtain rfl | hne := eq_or_ne bs []
  · rw [regions_nil]
    rfl
  · rw [Markup.regions_text (wellFormed_of_blank hb hne) hcs, regions_of_blank hb hne]
    rfl

theorem regions_between_blanks {before cs after : List Char} {e : Element}
    (hbefore : ∀ c ∈ before, Text.isBlank c = true) (hafter : ∀ c ∈ after, Text.isBlank c = true)
    (h : Head.read v cs = .element e []) :
    regions v limit depth start (before ++ (cs ++ after)) =
      regions v limit depth start before ++ treeOf v limit depth (start + Text.size before) e ::
        regions v limit depth (start + Text.size before + Text.size e.text) after := by
  have hread : Head.read v (cs ++ after) = .element e after :=
    (Head.read_append_of_blank hafter).mpr h
  have hcs : regions v limit depth (start + Text.size before) (cs ++ after) = _ :=
    regions_of_element hread
  have hprose : ∀ u ∈ (regions v limit depth (start + Text.size before) (cs ++ after)).head?,
      u.label.isProse = false := by
    rw [hcs]
    rintro _ ⟨⟩
    exact treeOf_isProse e
  rw [regions_append_of_blank hbefore hprose, hcs]

/-- The regions behind the first ones are those of the text behind them. -/
theorem Splits.of_append {left ts : List (Tree Region)} {cs : List Char}
    (h : Splits v limit depth start cs (left ++ ts)) : ∃ cs',
      cs = left.flatMap (·.label.chars) ++ cs' ∧
        Splits v limit depth (start + Text.size (left.flatMap (·.label.chars))) cs' ts := by
  induction left generalizing start cs with
  | nil => exact ⟨cs, rfl, h⟩
  | cons t left ih =>
    cases h with
    | cons hy _ hs =>
      obtain ⟨cs', rfl, hs⟩ := ih hs
      refine ⟨cs', ?_, ?_⟩
      · rw [List.flatMap_cons, List.append_assoc, hy.append]
      · rwa [List.flatMap_cons, Text.size_append, ← Nat.add_assoc]

theorem Splits.flatMap_chars {ts : List (Tree Region)} {cs : List Char}
    (h : Splits v limit depth start cs ts) : ts.flatMap (·.label.chars) = cs := by
  rw [← List.append_nil ts] at h
  obtain ⟨_, rfl, hs⟩ := h.of_append
  cases hs
  rw [List.append_nil]

/-- A scan finds one element of a name in a body if and only if the body without the blanks around
it is read as one. -/
theorem isOneOf_regions_iff (hd : depth < limit) {name body : List Char} :
    IsOneOf name (regions v limit depth start body) ↔ ∃ e,
      Head.read v (Text.trim body) = .element e [] ∧
        Text.sameName e.opening.name name = true := by
  constructor
  · rintro ⟨left, t, right, e, hts, hleft, hright, hp, hname⟩
    have hs := splits_regions v limit depth start body
    rw [hts] at hs
    obtain ⟨cs, rfl, hs'⟩ := hs.of_append
    cases hs' with
    | @cons _ _ rest _ _ hy _ hrest =>
      have hblank := hright.isBlank
      rw [hrest.flatMap_chars] at hblank
      obtain ⟨-, -, hread⟩ := hy.of_element hp
      refine ⟨e, ?_, hname⟩
      obtain rfl : e.text ++ rest = cs := Head.append_of_read hread
      rw [Text.trim_append_of_blank hleft.isBlank, Markup.trim_text,
        Text.trimEnd_eq_nil_iff.mpr hblank, List.append_nil]
      exact (Head.read_append_of_blank hblank).mp hread
  · rintro ⟨e, hread, hname⟩
    obtain ⟨before, after, hbody, hbefore, hafter⟩ := Text.exists_append_trim body
    generalize Text.trim body = cs at hread hbody
    subst hbody
    refine ⟨_, _, _, e, regions_between_blanks hbefore hafter hread, isGap_of_blank hbefore,
      isGap_of_blank hafter, ?_, hname⟩
    rw [treeOf, if_pos hd]
    rfl

/-- An element wraps itself if and only if a scan of its whole body, below the greatest depth, gives
an element of its name and nothing but blanks beside it. -/
theorem wrapsItself_iff_isOneOf {limits : Limits} {source : List Char} {u : Tree Region}
    {e : Element} {body : List Char} {closing : ClosingTag}
    (hu : u ∈ (outline s.toVocabulary limits source).subtrees)
    (he : u.label.piece.element? = some e) (hc : e.cls = .structural)
    (hb : e.enclosed = some (body, closing)) (hd : depth < limit) (start : Nat) :
    e.wrapsItself s.toVocabulary = true ↔
      IsOneOf e.opening.name (regions s.toVocabulary limit depth start body) := by
  obtain ⟨_, _, _, _, -, -, hread⟩ := read_of_mem hu he
  obtain ⟨_, _, -, -, hcls, -⟩ := Head.read_eq_element_iff.mp hread
  rw [hc, s.classify_toVocabulary] at hcls
  simp only [Element.wrapsItself, hc, hb]
  exact (Element.isOneOf_iff_read hcls).trans (isOneOf_regions_iff hd).symm

theorem wrapsItself_in_capitals :
    let s : TagSet := ⟨⟨["p"], by decide⟩, .empty⟩
    ∃ u ∈ (outline s.toVocabulary {} "<p> <P/>\n</p>".toList).subtrees, ∃ e body closing,
      u.label.piece.element? = some e ∧ e.cls = .structural ∧
        e.enclosed = some (body, closing) ∧ e.wrapsItself s.toVocabulary = true ∧
          IsOneOf ['p'] (regions s.toVocabulary 1 0 3 body) := by
  intro s
  let e : Element := ⟨.structural, ⟨['p'], []⟩, some (" <P/>\n".toList, ⟨['p'], []⟩)⟩
  have hroot : (outline s.toVocabulary {}
      "<p> <P/>\n</p>".toList).label.piece.element? = some e := by decide +kernel
  have hwraps : e.wrapsItself s.toVocabulary = true := by decide +kernel
  have hu := Tree.mem_subtrees_self (outline s.toVocabulary {} "<p> <P/>\n</p>".toList)
  exact ⟨_, hu, e, _, _, hroot, rfl, rfl, hwraps,
    (wrapsItself_iff_isOneOf hu hroot rfl rfl Nat.zero_lt_one 3).mp hwraps⟩

end Region

end ProseMarkup
