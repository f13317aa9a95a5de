import ProseMarkup.Proofs.Locality
import ProseMarkup.Proofs.Markup

namespace ProseMarkup

namespace OpeningTag

def delimiters : List Char :=
  ['>', '<', '"', '\'']

variable {cs inside rest : List Char}

theorem not_mem_delimiters {p : Char → Bool} (hp : delimiters.any p = false) {c : Char}
    (h : p c = true) : c ∉ delimiters :=
  fun hc => absurd h (List.any_eq_false.mp hp c hc)

theorem scan_plain {past : List Char} (hp : ∀ c ∈ past, c ∉ delimiters)
    (h : scan none cs = .found inside rest) :
    scan none (past ++ cs) = .found (past ++ inside) rest := by
  induction past with
  | nil => exact h
  | cons c past ih =>
    obtain ⟨hc, hp⟩ := List.forall_mem_cons.mp hp
    simp only [delimiters, List.mem_cons, List.not_mem_nil, or_false, not_or] at hc
    obtain ⟨hg, hl, hd, hs⟩ := hc
    simp [scan, hg, hl, hd, hs, ih hp, Ending.push]

theorem scan_quoted {q : Char} {value : List Char} (hq : q ∉ value)
    (h : scan none cs = .found inside rest) :
    scan (some q) (value ++ q :: cs) = .found (value ++ q :: inside) rest := by
  induction value with
  | nil => simp [scan, h, Ending.push]
  | cons c value ih =>
    obtain ⟨hc, hq⟩ := List.ne_and_not_mem_of_not_mem_cons hq
    simp [scan, Ne.symm hc, ih hq, Ending.push]

theorem scan_value {front value : List Char} {q : Char} (hf : ∀ c ∈ front, c ∉ delimiters)
    (hq : q ∈ ['"', '\'']) (hv : q ∉ value) (h : scan none cs = .found inside rest) :
    scan none (front ++ q :: (value ++ q :: cs)) =
      .found (front ++ q :: (value ++ q :: inside)) rest := by
  have hvalue := scan_quoted hv h
  apply scan_plain hf
  obtain rfl | rfl := List.mem_pair.mp hq <;> simp [scan, hvalue, Ending.push]

end OpeningTag

namespace Markup

variable {cs inside rest : List Char}

theorem Part.Fits.not_mem {q : Char} {p : Part} (hq : q ∈ ['"', '\'']) (h : p.Fits q) :
    q ∉ p.chars := by
  have hb : q ≠ '{' ∧ q ≠ '}' := by
    obtain rfl | rfl := List.mem_pair.mp hq <;> decide
  cases p with
  | literal text => exact h.2.1
  | template inner => simp [chars, Piece.chars, hb, h.1]

namespace Setting

theorem quote_not_mem (a : Setting) : a.quote ∉ a.value := by
  intro h
  obtain ⟨p, hp, hq⟩ := List.mem_flatMap.mp h
  exact (a.parts_fit p hp).not_mem a.quote_mem hq

theorem scan_chars (a : Setting) (h : OpeningTag.scan none cs = .found inside rest) :
    OpeningTag.scan none (a.chars ++ cs) = .found (a.chars ++ inside) rest := by
  have hfront : ∀ c ∈ a.blank :: a.key ++ ['='], c ∉ OpeningTag.delimiters := by
    intro c hc
    simp only [List.cons_append, List.mem_cons, List.mem_append, List.not_mem_nil, or_false] at hc
    obtain rfl | hc | rfl := hc
    · exact OpeningTag.not_mem_delimiters (by decide) a.blank_isBlank
    · have hpart := Name.isPart_of_isName a.key_isName c hc
      exact OpeningTag.not_mem_delimiters (by decide) hpart
    · decide
  have hscan := OpeningTag.scan_value hfront a.quote_mem a.quote_not_mem h
  simpa [chars, front] using hscan

end Setting

namespace Opening

theorem scan_inside (o : Opening) (h : OpeningTag.scan none cs = .found inside rest) :
    OpeningTag.scan none (o.inside ++ cs) = .found (o.inside ++ inside) rest := by
  have settings (as : List Setting) :
      OpeningTag.scan none (as.flatMap Setting.chars ++ cs) =
        .found (as.flatMap Setting.chars ++ inside) rest := by
    induction as with
    | nil => exact h
    | cons a as ih =>
      rw [List.flatMap_cons, List.append_assoc, List.append_assoc]
      exact a.scan_chars ih
  exact settings o.settings

theorem selfClosing_tag (o : Opening) : o.tag.selfClosing = false := by
  have hlast : o.inside.getLast? ≠ some '/' := by
    rw [inside]
    obtain h | ⟨as, a, h⟩ := List.eq_nil_or_concat o.settings
    · simp [h]
    · have hq : a.quote ≠ '/' := by
        obtain hq | hq := List.mem_pair.mp a.quote_mem <;> rw [hq] <;> decide
      simp [h, Setting.chars, hq]
  exact decide_eq_false hlast

theorem selfClosing_emptyTag (o : Opening) : o.emptyTag.selfClosing = true := by
  simp [OpeningTag.selfClosing, emptyTag]

theorem read?_name (o : Opening) (h : OpeningTag.endsName cs = true) :
    Name.read? (o.name ++ cs) = some (o.name, cs) := by
  refine Name.read?_eq_some_iff.mpr ⟨rfl, Name.isName_iff.mp o.name_isName, fun c hc => ?_⟩
  cases cs with
  | nil => cases hc
  | cons d cs =>
    cases hc
    simp only [OpeningTag.endsName, Bool.or_eq_true, decide_eq_true_eq] at h
    obtain (rfl | rfl) | h := h
    · decide
    · decide
    · exact Name.isPart_of_isBlank h

theorem endsName_inside (o : Opening) (h : OpeningTag.endsName cs = true) :
    OpeningTag.endsName (o.inside ++ cs) = true := by
  rw [inside]
  cases o.settings with
  | nil => exact h
  | cons a as => simp [OpeningTag.endsName, Setting.chars, Setting.front, a.blank_isBlank]

theorem read_tag (o : Opening) (rest : List Char) :
    Mark.read (o.tag.text.tail ++ rest) = .opening o.tag rest := by
  have htext : o.tag.text.tail ++ rest = o.name ++ (o.inside ++ '>' :: rest) := by
    simp [OpeningTag.text, tag]
  have hends : OpeningTag.endsName (o.inside ++ '>' :: rest) = true := o.endsName_inside rfl
  have hend : OpeningTag.scan none ('>' :: rest) = .found [] rest := rfl
  have hscan := o.scan_inside hend
  rw [List.append_nil] at hscan
  have hn := o.read?_name hends
  rw [htext, Mark.read_of_read? hn]
  simp only [Mark.readOpening, hn, hends, if_true, OpeningTag.splitEnd?, hscan]
  rfl

theorem read_emptyTag (o : Opening) (rest : List Char) :
    Mark.read (o.emptyTag.text.tail ++ rest) = .opening o.emptyTag rest := by
  have htext : o.emptyTag.text.tail ++ rest = o.name ++ (o.inside ++ '/' :: '>' :: rest) := by
    simp [OpeningTag.text, emptyTag]
  have hends : OpeningTag.endsName (o.inside ++ '/' :: '>' :: rest) = true := o.endsName_inside rfl
  have hend : OpeningTag.scan none ('/' :: '>' :: rest) = .found ['/'] rest := rfl
  have hscan := o.scan_inside hend
  have hn := o.read?_name hends
  rw [htext, Mark.read_of_read? hn]
  simp only [Mark.readOpening, hn, hends, if_true, OpeningTag.splitEnd?, hscan]
  rfl

theorem read_closing (o : Opening) (rest : List Char) :
    Mark.read (o.closing.text.tail ++ rest) = .closing o.closing rest := by
  have htext : o.closing.text.tail ++ rest = '/' :: (o.name ++ '>' :: rest) := by
    simp [ClosingTag.text, closing]
  rw [htext, Mark.read, ClosingTag.read?, o.read?_name rfl]
  rfl

end Opening

end Markup

theorem Mark.prefix_of_comment {cs inner rest : List Char} (h : read cs = .comment inner rest) :
    ['!', '-', '-'] <+: cs := by
  unfold read at h
  split at h
  · rename_i cs
    exact ⟨cs, rfl⟩
  · split at h <;> contradiction
  · exact absurd h readOpening_ne_comment

namespace Enclosure

variable {v : Vocabulary} {name : List Char}

/-- Holds of a text that a search for a structural closing tag passes over, whatever is open before
it and whatever follows. -/
def Passes (v : Vocabulary) (name past : List Char) : Prop :=
  ∀ inner rest, search (structuralStep v name) (structuralStep_takes v name) inner (past ++ rest) =
    (search (structuralStep v name) (structuralStep_takes v name) inner rest).map (push past)

theorem Passes.append {as bs : List Char} (ha : Passes v name as) (hb : Passes v name bs) :
    Passes v name (as ++ bs) := by
  intro inner rest
  rw [List.append_assoc, ha, hb, map_push_push]

theorem passes_of_not_mem {past : List Char} (h : '<' ∉ past) : Passes v name past :=
  fun _ rest => search_append_of_not_mem h rest

theorem passes_of_tag {tag : OpeningTag}
    (h : ∀ rest, structuralStep v name (tag.text.tail ++ rest) = .pass tag.text rest) :
    Passes v name tag.text :=
  fun _ rest => search_of_pass (h rest)

end Enclosure

namespace Text

theorem prefix_of_prefix_append {as cs after : List Char} {x : Char} (hx : x ∉ as)
    (h : as <+: cs ++ x :: after) : as <+: cs := by
  obtain hp | ⟨bs, rfl⟩ :=
    List.prefix_or_prefix_of_prefix h (List.prefix_append cs (x :: after))
  · exact hp
  · have hbs := (List.prefix_append_right_inj cs).mp h
    cases bs with
    | nil => exact ⟨[], by simp⟩
    | cons b bs =>
      obtain ⟨rfl, -⟩ := List.cons_prefix_cons.mp hbs
      exact absurd (List.mem_append_right cs List.mem_cons_self) hx

theorem sameName_iff {as bs : List Char} : sameName as bs = true ↔ fold as = fold bs :=
  beq_iff_eq

theorem sameName_self (as : List Char) : sameName as as = true :=
  sameName_iff.mpr rfl

end Text

theorem TagSet.classify_of_sameName (s : TagSet) {as bs : List Char}
    (h : Text.sameName as bs = true) :
    s.classify (.ofList as) = s.classify (.ofList bs) := by
  apply s.classify_congr
  rw [key, key, String.toList_ofList, String.toList_ofList, Text.sameName_iff.mp h]

namespace Markup

open Enclosure

variable {s : TagSet} {name : List Char}

theorem startsWith_append {after : List Char} (h : Name.Ends after) (cs : List Char) :
    startsWith name (cs ++ after) = startsWith name cs := by
  simp only [startsWith, Name.read?_append h, Option.any_map]

/-- What a body holds ends before the closing tag behind it. -/
theorem marks_append (cs after : List Char) : marks name (cs ++ '<' :: after) = marks name cs := by
  have hends : Name.Ends ('<' :: after) := by
    rintro _ ⟨⟩
    decide
  have hprefix : ['!', '-', '-'].isPrefixOf (cs ++ '<' :: after) =
      ['!', '-', '-'].isPrefixOf cs := by
    rw [Bool.eq_iff_iff, List.isPrefixOf_iff_prefix, List.isPrefixOf_iff_prefix]
    exact ⟨Text.prefix_of_prefix_append (by decide), fun h => h.trans (List.prefix_append _ _)⟩
  cases cs with
  | nil =>
    rw [marks, marks, hprefix, startsWith_append hends]
    rfl
  | cons c cs =>
    rw [marks, marks, hprefix, startsWith_append hends, List.cons_append, List.tail_cons,
      List.tail_cons, startsWith_append hends]
    rfl

theorem metadataStep_eq_skip {cs : List Char} (h : marks name cs = false) :
    metadataStep name cs = .skip cs := by
  simp only [marks, Bool.or_eq_false_iff, Bool.and_eq_false_imp] at h
  obtain ⟨⟨hc, ho⟩, hs⟩ := h
  rw [metadataStep]
  cases h : Mark.read cs with
  | comment inner rest =>
    rw [List.isPrefixOf_iff_prefix.mpr (Mark.prefix_of_comment h)] at hc
    contradiction
  | closing tag rest =>
    obtain ⟨after, rfl, hr⟩ := Mark.read_eq_closing h
    obtain ⟨_, hn, -, -⟩ := ClosingTag.read?_eq_some hr
    have hname := hs rfl
    simp only [List.tail_cons, startsWith, hn, Option.any_some] at hname
    simp [hname]
  | opening tag rest =>
    obtain ⟨after, hn, -, -⟩ := Mark.read_eq_opening h
    simp only [startsWith, hn, Option.any_some] at ho
    simp [ho]
  | unclosed | plain => rfl

theorem ofMetadata?_body {o : Opening} {body : List Char} (h : Unmarked o.name body)
    (rest : List Char) :
    ofMetadata? o.name (body ++ (o.closing.text ++ rest)) = some ⟨body, o.closing, rest⟩ := by
  induction body with
  | nil =>
    apply search_of_meet
    change metadataStep o.name (o.closing.text.tail ++ rest) = _
    rw [metadataStep, o.read_closing]
    exact if_pos (Text.sameName_self o.name)
  | cons c body ih =>
    obtain ⟨hc, h⟩ := h
    have hrest := ih h
    rw [ofMetadata?] at hrest ⊢
    by_cases hlt : c = '<'
    · subst hlt
      have hskip : metadataStep o.name (body ++ (o.closing.text ++ rest)) =
          .skip (body ++ (o.closing.text ++ rest)) :=
        metadataStep_eq_skip ((marks_append body _).trans (hc rfl))
      rw [List.cons_append, search_of_pass hskip, hrest]
      rfl
    · rw [List.cons_append, search_cons hlt, hrest]
      rfl

theorem text_enclose_append (o : Opening) (cls : TagClass) (body rest : List Char) :
    (o.enclose cls body).text ++ rest =
      '<' :: (o.tag.text.tail ++ (body ++ (o.closing.text ++ rest))) := by
  simp [Element.text, Element.tail, Opening.enclose, OpeningTag.text]

theorem sameName_eq_false (hn : s.classify (.ofList name) = some .structural) {o : Opening}
    (ho : s.classify (.ofList o.name) = some .metadata) : Text.sameName o.name name = false := by
  apply eq_false_of_ne_true
  intro hs
  rw [← s.classify_of_sameName hs] at hn
  cases ho.symm.trans hn

theorem structuralStep_tag {o : Opening} (h : Text.sameName o.name name = true)
    (rest : List Char) :
    structuralStep s.toVocabulary name (o.tag.text.tail ++ rest) = .enter o.tag.text rest := by
  rw [structuralStep, o.read_tag]
  have hname : Text.sameName o.tag.name name = true := h
  simp only [o.selfClosing_tag, hname, if_true]
  rfl

theorem structuralStep_closing {o : Opening} (h : Text.sameName o.name name = true)
    (rest : List Char) :
    structuralStep s.toVocabulary name (o.closing.text.tail ++ rest) = .meet o.closing rest := by
  rw [structuralStep, o.read_closing]
  exact if_pos h

theorem passes_metadata (hn : s.classify (.ofList name) = some .structural) {o : Opening}
    {body : List Char} (h : (metadata o body).WellFormed s) :
    Passes s.toVocabulary name (metadata o body).chars := by
  intro inner rest
  have hname : Text.sameName o.tag.name name = false := sameName_eq_false hn h.1
  have hmeta : s.toVocabulary.classify (.ofList o.tag.name) = some .metadata :=
    (s.classify_toVocabulary _).trans h.1
  have hbody : ofMetadata? o.tag.name (body ++ (o.closing.text ++ rest)) = _ :=
    ofMetadata?_body h.2 rest
  have hstep : structuralStep s.toVocabulary name
      (o.tag.text.tail ++ (body ++ (o.closing.text ++ rest))) =
        .pass (o.tag.text ++ (body ++ o.closing.text)) rest := by
    rw [structuralStep, o.read_tag]
    simp only [o.selfClosing_tag, hname, hmeta, hbody, if_true]
    rfl
  rw [chars, text_enclose_append, search_of_pass hstep]
  rfl

theorem passes_of_sameName {o : Opening} (ho : Text.sameName o.name name = true)
    {body : List Char} (h : Passes s.toVocabulary name body) :
    Passes s.toVocabulary name (o.enclose .structural body).text := by
  intro inner rest
  have hclosing : search (structuralStep s.toVocabulary name)
      (structuralStep_takes s.toVocabulary name) (inner + 1) (o.closing.text ++ rest) = _ :=
    search_of_meet_succ (structuralStep_closing ho rest)
  rw [text_enclose_append, search_of_enter (structuralStep_tag ho _), h, hclosing, map_push_push,
    map_push_push, List.append_assoc]
  rfl

theorem passes_tag {o : Opening} (hs : s.classify (.ofList o.name) = some .structural)
    (ho : ¬Text.sameName o.name name = true) : Passes s.toVocabulary name o.tag.text := by
  apply passes_of_tag
  intro rest
  have hname : ¬Text.sameName o.tag.name name = true := ho
  have hmeta : ¬s.toVocabulary.classify (.ofList o.tag.name) = some .metadata := by
    rw [s.classify_toVocabulary]
    intro hm
    cases hs.symm.trans hm
  rw [structuralStep, o.read_tag]
  simp only [o.selfClosing_tag, hname, hmeta, if_false]
  rfl

theorem passes_closing {o : Opening} (ho : ¬Text.sameName o.name name = true) :
    Passes s.toVocabulary name o.closing.text := by
  intro inner rest
  have hskip : structuralStep s.toVocabulary name (o.closing.text.tail ++ rest) =
      .skip (o.closing.text.tail ++ rest) := by
    rw [structuralStep, o.read_closing]
    exact if_neg ho
  have htail : '<' ∉ o.closing.text.tail := by
    intro hc
    simp only [ClosingTag.text, Opening.closing, List.cons_append, List.tail_cons,
      List.append_nil, List.mem_cons, List.mem_append, List.not_mem_nil, or_false] at hc
    obtain hc | hc | hc := hc
    · cases hc
    · exact absurd (Name.isPart_of_isName o.name_isName _ hc) (by decide)
    · cases hc
  have hsearch : search (structuralStep s.toVocabulary name)
      (structuralStep_takes s.toVocabulary name) inner (o.closing.text ++ rest) = _ :=
    search_of_pass hskip
  rw [hsearch, passes_of_not_mem htail, map_push_push]
  rfl

mutual

/-- A search for the closing tag of a structural element passes over every node in its body. -/
theorem passes_chars (hn : s.classify (.ofList name) = some .structural) :
    ∀ t : Markup, t.WellFormed s → Passes s.toVocabulary name t.chars
  | text _, h => passes_of_not_mem h.2.1
  | template _, h => by
    apply passes_of_not_mem
    simp [chars, Piece.chars, h.1]
  | empty _ o, _ => by
    apply passes_of_tag
    intro rest
    rw [structuralStep, o.read_emptyTag]
    exact if_pos o.selfClosing_emptyTag
  | metadata _ _, h => passes_metadata hn h
  | structural o ts, h => by
    have hts := passes_charsAll hn ts h.2.2
    by_cases ho : Text.sameName o.name name = true
    · exact passes_of_sameName ho hts
    · exact (passes_tag h.1 ho).append (hts.append (passes_closing ho))

theorem passes_charsAll (hn : s.classify (.ofList name) = some .structural) :
    ∀ ts : List Markup, WellFormedAll s ts → Passes s.toVocabulary name (charsAll ts)
  | [], _ => passes_of_not_mem List.not_mem_nil
  | t :: ts, h => (passes_chars hn t h.1).append (passes_charsAll hn ts h.2.2)

end

theorem find?_structural (hn : s.classify (.ofList name) = some .structural) {o : Opening}
    (ho : Text.sameName o.name name = true) {ts : List Markup} (h : WellFormedAll s ts)
    (rest : List Char) :
    find? s.toVocabulary name (charsAll ts ++ (o.closing.text ++ rest)) =
      some ⟨charsAll ts, o.closing, rest⟩ := by
  have hclosing : search (structuralStep s.toVocabulary name)
      (structuralStep_takes s.toVocabulary name) 0 (o.closing.text ++ rest) = _ :=
    search_of_meet (structuralStep_closing ho rest)
  have hclass : ¬s.toVocabulary.classify (.ofList name) = some .metadata := by
    rw [s.classify_toVocabulary, hn]
    decide
  rw [find?, if_neg hclass, ofStructural?, passes_charsAll hn ts h, hclosing]
  simp [push]

theorem find?_metadata {o : Opening} (ho : s.classify (.ofList o.name) = some .metadata)
    {body : List Char} (h : Unmarked o.name body) (rest : List Char) :
    find? s.toVocabulary o.name (body ++ (o.closing.text ++ rest)) =
      some ⟨body, o.closing, rest⟩ := by
  have hclass := (s.classify_toVocabulary (.ofList o.name)).trans ho
  rw [find?, if_pos hclass]
  exact ofMetadata?_body h rest

end Markup

end ProseMarkup
