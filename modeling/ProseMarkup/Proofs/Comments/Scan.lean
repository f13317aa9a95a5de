import ProseMarkup.Proofs.Comments
import ProseMarkup.Proofs.Placement
import ProseMarkup.Proofs.Recognition

namespace ProseMarkup

namespace Text

/-- A text that stands in a source at an offset, and what follows it there: nothing, or a tag in
front of which every comment ends. -/
structure Stands (source : List Char) (start : Nat) (cs after : List Char) : Prop where
  placed : ∃ before, source = before ++ (cs ++ after) ∧ size before = start
  unquoted : Unquoted cs
  followed : after = [] ∨ (∃ tail, after = '<' :: tail) ∧ Closes cs

namespace Stands

variable {source past cs after : List Char} {start : Nat} {opens : Nat → Bool}

theorem of_append (h : Stands source start (past ++ cs) after) :
    Stands source (start + size past) cs after where
  placed := by
    obtain ⟨before, hsource, rfl⟩ := h.placed
    refine ⟨before ++ past, ?_, size_append ..⟩
    rw [hsource]
    simp only [List.append_assoc]
  unquoted := h.unquoted.of_subset (List.subset_append_right past cs)
  followed := h.followed.imp_right fun ⟨hafter, hc⟩ =>
    ⟨hafter, hc.of_suffix (List.suffix_append past cs)⟩

theorem startsComment (h : Stands source start cs after) (hne : cs ≠ [])
    (hs : StartsComment (cs ++ after)) : StartsComment cs := by
  obtain rfl | ⟨⟨tail, rfl⟩, -⟩ := h.followed
  · rwa [List.append_nil] at hs
  · exact hs.of_append hne

theorem outside (h : Stands source start (past ++ cs) after) (ho : Outside opens source start)
    (hclear : Clear opens start past (cs ++ after)) : Outside opens source (start + size past) := by
  obtain ⟨before, hsource, rfl⟩ := h.placed
  rw [List.append_assoc] at hsource
  subst hsource
  exact ho.step hclear

theorem dropBytes_eq (h : Stands source start cs after) : dropBytes start source = cs ++ after := by
  obtain ⟨before, rfl, rfl⟩ := h.placed
  exact dropBytes_size_append before (cs ++ after)

end Stands

end Text

/-- Holds of an offset in the rest of the line behind the broken tag that a report is about. -/
def Diagnostic.passesOver (source : List Char) (d : Diagnostic) (n : Nat) : Bool :=
  match d.kind with
  | .malformedTag => d.span.start < n && n < Text.lineEnd source d.span.start
  | .unterminatedTag => d.span.start < n && n < Text.lineEnd source (d.span.stop - 1)
  | _ => false

namespace Head

open Text (Clear Stands StartsComment)

variable {v : Vocabulary} {source cs passed rest after : List Char} {start : Nat}

/-- A broken tag passes over every other tag on the rest of its line. -/
theorem passesOver_of_read {f : ProseFault} {z tail : List Char} (hcs : cs ≠ [])
    (h : read v cs = .prose passed (some f) rest) (hs : Stands source start cs after)
    (hpassed : passed = z ++ '<' :: tail) (hz : z ≠ []) :
    (f.diagnostic start).passesOver source (start + Text.size z) = true := by
  obtain ⟨before, hsource, rfl⟩ := hs.placed
  have hlt := Nat.lt_add_of_pos_right (n := Text.size before) (Text.size_pos hz)
  have ha : passed ++ rest = cs := append_of_read h
  have hline : source = before ++ (z ++ '<' :: (tail ++ (rest ++ after))) := by
    rw [hsource, ← ha, hpassed]
    simp only [List.append_assoc, List.cons_append]
  cases passes_of_read hcs h with
  | @closing _ _ tag hm =>
    obtain ⟨c, z, rfl⟩ := List.exists_cons_of_ne_nil hz
    have hmem : '<' ∈ tag.text.tail := by
      rw [hpassed]
      exact List.mem_append_right z List.mem_cons_self
    exact absurd rfl (ClosingTag.mem_text hm hmem).1
  | unterminated hm =>
    have hend := Region.lt_lineEnd_of_unterminated hsource hm hpassed
    exact Bool.and_eq_true_iff.mpr ⟨decide_eq_true hlt, decide_eq_true hend⟩
  | malformed hm =>
    have hend := Region.lt_lineEnd_of_malformed hline hm hpassed
    exact Bool.and_eq_true_iff.mpr ⟨decide_eq_true hlt, decide_eq_true hend⟩

theorem not_startsComment_of_mark {ds : List Char} (hs : Stands source start ('<' :: ds) after)
    (hm : ∀ inner rest, Mark.read ds ≠ .comment inner rest) :
    ¬StartsComment ('<' :: ds ++ after) := by
  intro hc
  obtain ⟨inner, rest, hread⟩ := Mark.exists_comment (hs.startsComment (List.cons_ne_nil _ _) hc)
  exact hm inner rest hread

theorem clear_of_comment {ds inner : List Char} {opens : Nat → Bool}
    (hs : Stands source start ('<' :: ds) after) (hm : Mark.read ds = .comment inner rest) :
    Clear opens start ('<' :: inner) (rest ++ after) := by
  obtain ⟨ds, rfl, ⟨xs, rfl⟩ | ⟨rfl, rfl, hopen⟩⟩ := Mark.read_eq_comment hm
  · exact .of_end ('<' :: xs) _
  · obtain rfl | ⟨-, hc⟩ := hs.followed
    · exact fun _ _ _ _ _ _ _ => .inl rfl
    · -- in front of a tag this comment would end
      refine absurd ((hc ds (List.suffix_refl _) ?_).trans ⟨['-', '-'], [], by simp⟩) hopen
      rintro (⟨tail, htail⟩ | ⟨tail, htail⟩)
      · cases htail
        exact hopen ⟨[], tail, rfl⟩
      · cases htail
        exact hopen ⟨['-'], tail, rfl⟩

theorem clear_of_prose {fault : Option ProseFault} {opens : Nat → Bool} (hcs : cs ≠ [])
    (h : read v cs = .prose passed fault rest) (hs : Stands source start cs after)
    (hlost : ∀ f ∈ fault, ∀ z tail, passed = z ++ '<' :: tail → z ≠ [] →
      opens (start + Text.size z) = false) :
    Clear opens start passed (rest ++ after) := by
  have ha : passed ++ (rest ++ after) = cs ++ after := by
    rw [← List.append_assoc]
    exact congrArg (· ++ after) (append_of_read h)
  -- a broken tag is not itself the beginning of a comment, and the others in it do not count
  have broken {f : ProseFault} (hf : f ∈ fault) (hstart : ¬StartsComment (cs ++ after)) :
      Clear opens start passed (rest ++ after) := by
    rintro x y rfl hy hc _ ho
    by_cases hx : x = []
    · subst hx
      rw [List.nil_append] at ha
      exact absurd (ha ▸ hc) hstart
    · obtain ⟨c, y, rfl⟩ := List.exists_cons_of_ne_nil hy
      obtain ⟨ds, hds⟩ := hc.exists_eq
      obtain ⟨rfl, -⟩ := List.cons.inj hds
      rw [hlost f hf x y rfl hx] at ho
      cases ho
  cases passes_of_read hcs h with
  | @char c rest =>
    intro x y hxy hy hc
    obtain ⟨rfl, rfl⟩ | ⟨rfl, rfl⟩ := List.singleton_eq_append_iff.mp hxy
    · have hc := hs.startsComment hcs hc
      obtain ⟨ds, hds⟩ := hc.exists_eq
      cases hds
      obtain ⟨inner, rest', hm⟩ := Mark.exists_comment hc
      rw [read, readMark, hm] at h
      obtain ⟨_, -, ⟨xs, rfl⟩ | ⟨rfl, -⟩⟩ := Mark.read_eq_comment hm
      · cases xs <;> cases h
      · cases h
    · exact absurd rfl hy
  | braces => exact .bare (Text.bare_of_not_mem (by decide)) _
  | comment hm => exact clear_of_comment hs hm
  | closing hm => exact .bare (ClosingTag.Proper.bare_text ⟨_, _, hm⟩) _
  | unterminated hm => exact broken rfl (not_startsComment_of_mark hs (by simp [hm]))
  | malformed hm => exact broken rfl (not_startsComment_of_mark hs (by simp [hm]))

end Head

namespace Region

open Text (Bare Outside Stands StartsComment Unquoted)

def passesOver (source : List Char) (r : Region) (n : Nat) : Bool :=
  r.span.contains n && r.notes.any (·.passesOver source n)

def opensAt (t : Tree Region) (source : List Char) (n : Nat) : Bool :=
  !t.preorder.any (·.passesOver source n)

variable {v : Vocabulary} {limits : Limits} {source : List Char}

theorem opensAt_eq_false {t u : Tree Region} {n : Nat} (hu : u ∈ t.subtrees)
    (hn : u.label.span.contains n = true) {d : Diagnostic} (hd : d ∈ u.label.notes)
    (hp : d.passesOver source n = true) : opensAt t source n = false := by
  rw [opensAt, Bool.not_eq_false', List.any_eq_true]
  refine ⟨u.label, Tree.mem_preorder.mpr ⟨u, hu, rfl⟩, ?_⟩
  exact Bool.and_eq_true_iff.mpr ⟨hn, List.any_eq_true.mpr ⟨d, hd, hp⟩⟩

theorem Run.outside {u : Tree Region} (hu : u ∈ (outline v limits source).subtrees) {start : Nat}
    {cs last chars after : List Char} {notes : List Diagnostic} (run : Run v start cs last notes)
    (hcs : cs = chars ++ last) (hs : Stands source start cs after)
    (hstart : u.label.span.start ≤ start) (hstop : start + Text.size chars = u.label.span.stop)
    (hnotes : notes ⊆ u.label.notes) (ho : Outside (opensAt (outline v limits source) source) source
      start) : Outside (opensAt (outline v limits source) source) source
        (start + Text.size chars) := by
  induction run generalizing chars with
  | nil start cs =>
    obtain rfl : chars = [] := List.append_left_eq_self.mp hcs.symm
    exact ho
  | @cons start cs passed rest last fault notes hne h run ih =>
    obtain ⟨chars', rfl, -⟩ := run.start_of_note
    have ha : passed ++ (chars' ++ last) = cs := Head.append_of_read h
    obtain rfl : chars = passed ++ chars' := by
      rw [← ha, ← List.append_assoc] at hcs
      exact (List.append_cancel_right hcs).symm
    obtain ⟨hfault, hnotes⟩ := List.append_subset.mp hnotes
    rw [Text.size_append, ← Nat.add_assoc] at hstop ⊢
    have hlost : ∀ f ∈ fault, ∀ z tail, passed = z ++ '<' :: tail → z ≠ [] →
        opensAt (outline v limits source) source (start + Text.size z) = false := by
      rintro f hf z tail hz hzne
      have hnote : f.diagnostic start ∈ u.label.notes :=
        hfault (List.mem_map.mpr ⟨f, Option.mem_toList.mpr hf, rfl⟩)
      refine opensAt_eq_false hu ?_ hnote ?_
      · have hsize := congrArg Text.size hz
        have hlt : '<'.utf8Size = 1 := rfl
        rw [Text.size_append, Text.size_cons] at hsize
        rw [Span.contains_iff]
        omega
      · obtain rfl := Option.mem_def.mp hf
        exact Head.passesOver_of_read hne h hs hz hzne
    have hclear := Head.clear_of_prose hne h hs hlost
    rw [← ha] at hs
    exact ih rfl hs.of_append (Nat.le_trans hstart (Nat.le_add_right _ _)) hstop hnotes
      (hs.outside ho hclear)

/-- No comment reaches over the end of a region. -/
theorem Yields.outside (hv : ∀ name, v.isMetadata name = false) {u : Tree Region}
    (hu : u ∈ (outline v limits source).subtrees) {depth start : Nat} {cs rest after : List Char}
    (h : Yields v limits.maxDepth depth start cs u rest) (hs : Stands source start cs after)
    (ho : Outside (opensAt (outline v limits source) source) source start) :
    Outside (opensAt (outline v limits source) source) source
      (start + Text.size u.label.chars) := by
  have ha := h.append
  cases h with
  | prose _ run => exact run.outside hu rfl hs (Nat.le_refl _) rfl (List.Subset.refl _) ho
  | @template _ inner rest h =>
    have hinner := (Head.inside_of_read h).no_tag
    have hbare : Bare (Piece.template inner).chars := by
      apply Text.bare_of_not_mem
      simp [Piece.chars, hinner]
    rw [← ha] at hs
    exact hs.outside ho (.bare hbare _)
  | @element _ rest e h =>
    obtain ⟨-, -, hclear⟩ := Head.clear_of_element hv hs.unquoted h
    rw [treeOf_chars] at ha ⊢
    rw [← ha] at hs
    exact hs.outside ho (hclear _ _ _)

theorem Splits.outside (hv : ∀ name, v.isMetadata name = false) {ts : List (Tree Region)}
    (hts : ∀ u ∈ ts, u ∈ (outline v limits source).subtrees) {depth start : Nat}
    {cs after : List Char} (h : Splits v limits.maxDepth depth start cs ts)
    (hs : Stands source start cs after)
    (ho : Outside (opensAt (outline v limits source) source) source start) {t : Tree Region}
    (ht : t ∈ ts) : ∃ left cs' rest, cs = left ++ cs' ∧
      Yields v limits.maxDepth depth (start + Text.size left) cs' t rest ∧
      Outside (opensAt (outline v limits source) source) source (start + Text.size left) := by
  induction h with
  | nil => cases ht
  | @cons start cs rest u ts hy _ _ ih =>
    obtain ⟨hu, hts⟩ := List.forall_mem_cons.mp hts
    obtain rfl | ht := List.mem_cons.mp ht
    · exact ⟨[], cs, rest, rfl, hy, ho⟩
    · have hrest : Stands source (start + Text.size u.label.chars) rest after :=
        (hy.append ▸ hs).of_append
      obtain ⟨left, cs', rest', rfl, hy', ho'⟩ := ih hts hrest (hy.outside hv hu hs ho) ht
      rw [Nat.add_assoc, ← Text.size_append] at hy' ho'
      refine ⟨u.label.chars ++ left, cs', rest', ?_, hy', ho'⟩
      rw [List.append_assoc, hy.append]

theorem Range.mem_outline (hbroken : limits.brokenBy? (Text.size source) = none) {depth start : Nat}
    {cs : List Char} (h : Range v limits.maxDepth source depth start cs) {u : Tree Region}
    (hu : u ∈ regions v limits.maxDepth depth start cs) :
    u ∈ (outline v limits source).subtrees := by
  induction h generalizing u with
  | source =>
    rw [outline, hbroken]
    rcases hr : regions v limits.maxDepth 0 0 source with _ | ⟨t, _ | ⟨t', ts⟩⟩
    · rw [hr] at hu
      cases hu
    · rw [hr] at hu
      obtain rfl := List.mem_singleton.mp hu
      exact Tree.mem_subtrees_self u
    · rw [hr] at hu
      exact Tree.mem_subtrees_of_mem_children hu
  | @markup depth start cs t e _ ht he _ ih =>
    obtain ⟨left, cs', rest, rfl, hy⟩ := yields_of_mem ht
    rw [hy.label_start, ← hy.children_of_element he] at hu
    exact Tree.mem_subtrees_trans (Tree.mem_subtrees_of_mem_children hu) (ih ht)

theorem Range.outside (hv : ∀ name, v.isMetadata name = false) (hq : Unquoted source)
    (hbroken : limits.brokenBy? (Text.size source) = none) {depth start : Nat} {cs : List Char}
    (h : Range v limits.maxDepth source depth start cs) :
    ∃ after, Stands source start cs after ∧
      Outside (opensAt (outline v limits source) source) source start := by
  induction h with
  | source =>
    exact ⟨[], ⟨⟨[], (List.append_nil source).symm, rfl⟩, hq, .inl rfl⟩, Text.outside_zero _ _⟩
  | @markup depth start cs t e h ht he hm ih =>
    obtain ⟨after, hs, ho⟩ := ih
    have hts := fun u hu => h.mem_outline (u := u) hbroken hu
    obtain ⟨left, cs', rest, rfl, hy, ho'⟩ := (splits_regions ..).outside hv hts hs ho ht
    obtain ⟨tail, htext⟩ := text_eq_of_markup hm
    obtain ⟨-, -, hread⟩ := hy.of_element he
    have hs' : Stands source (start + Text.size left) cs' after := hs.of_append
    obtain ⟨hbare, hcloses, -⟩ := Head.clear_of_element hv hs'.unquoted hread
    have hcs : cs' = e.opening.text ++ (e.markup v ++ ('<' :: tail ++ rest)) := by
      rw [hy.piece_chars he, htext]
      simp only [List.append_assoc]
    rw [hcs] at hs'
    have hbody := hs'.of_append
    rw [hy.label_start]
    -- the closing tag follows the body, and in the body every comment ends
    refine ⟨'<' :: tail ++ (rest ++ after), ⟨?_, ?_, .inr ⟨⟨_, rfl⟩, hcloses⟩⟩, ?_⟩
    · obtain ⟨before, hsource, hsize⟩ := hbody.placed
      refine ⟨before, ?_, hsize⟩
      rw [hsource]
      simp only [List.append_assoc, List.cons_append]
    · exact hbody.unquoted.of_subset (List.subset_append_left _ _)
    · exact hs'.outside ho' (.bare hbare _)

theorem Yields.not_startsComment {u : Tree Region} {depth start : Nat} {cs rest after : List Char}
    (h : Yields v limits.maxDepth depth start cs u rest) (hs : Stands source start cs after)
    (hpiece : ∀ chars, u.label.piece ≠ .text chars) : ¬StartsComment (cs ++ after) := by
  cases h with
  | prose => exact absurd rfl (hpiece _)
  | template h =>
    have ha := Head.append_of_read h
    rw [← ha]
    intro hc
    obtain ⟨ds, hds⟩ := hc.exists_eq
    cases hds
  | element h =>
    obtain ⟨ds, _, rfl, hm, -⟩ := Head.read_eq_element_iff.mp h
    exact Head.not_startsComment_of_mark hs (by simp [hm])

/-- No comment reaches over the start of an element or a template, and none starts there. -/
theorem outside_of_mem (hv : ∀ name, v.isMetadata name = false) (hq : Unquoted source)
    (hbroken : limits.brokenBy? (Text.size source) = none) {u : Tree Region}
    (hu : u ∈ (outline v limits source).subtrees) (hpiece : ∀ chars, u.label.piece ≠ .text chars) :
    Outside (opensAt (outline v limits source) source) source u.label.start ∧
      ¬StartsComment (Text.dropBytes u.label.start source) := by
  obtain ⟨depth, start, cs, hr, hmem⟩ := exists_range_of_piece hu hpiece
  obtain ⟨after, hs, ho⟩ := hr.outside hv hq hbroken
  have hts := fun u hu => hr.mem_outline (u := u) hbroken hu
  obtain ⟨left, cs', rest, rfl, hy, ho'⟩ := (splits_regions ..).outside hv hts hs ho hmem
  rw [hy.label_start, hs.of_append.dropBytes_eq]
  exact ⟨ho', hy.not_startsComment hs.of_append hpiece⟩

end Region

def Parser.tagsOnly : Parser where
  vocabulary := .exact ["p"] []

namespace Document

/-- Where no name is one of metadata, no element and no template of a source without quotes starts
in a comment, unless the comment closes itself. -/
theorem not_in_comment (p : Parser) (source : String)
    (hv : ∀ name, p.vocabulary.isMetadata name = false) (hd : '"' ∉ source.toList)
    (hs : '\'' ∉ source.toList) {s : Segment} (hmem : s ∈ (p.parse source).segments)
    (hshape : s.shape ≠ .text) {c : Span}
    (hc : c ∈ Text.comments (Region.opensAt (outline p.vocabulary p.limits source.toList)
      source.toList) 0 source.toList)
    (hitself : ¬Text.ClosesItself (Text.dropBytes c.start source.toList)) :
    ¬c.contains s.span.start = true := by
  obtain ⟨t, ht, rfl⟩ := Tree.mem_preorder.mp hmem
  obtain ⟨u, hu, k, rfl⟩ := exists_region_of_mem ht
  rw [Tree.label_number] at hshape ⊢
  have hpiece : ∀ chars, u.label.piece ≠ .text chars := by
    intro chars h
    exact hshape (by rw [Segment.ofRegion, h]; rfl)
  have hbroken := brokenBy?_of_piece hu hpiece
  obtain ⟨ho, hstart⟩ := Region.outside_of_mem hv ⟨hd, hs⟩ hbroken hu hpiece
  exact ho.not_contains hstart hc hitself

theorem not_in_comment_behind_comment :
    let source := "<!--><p>x</p>--><!-- <p>y</p> -->"
    let t := outline Parser.tagsOnly.vocabulary Parser.tagsOnly.limits source.toList
    ⟨16, 33⟩ ∈ Text.comments (Region.opensAt t source.toList) 0 source.toList ∧
      ¬Text.ClosesItself (Text.dropBytes 16 source.toList) ∧
      ∃ s ∈ (Parser.tagsOnly.parse source).segments, s.shape ≠ .text ∧
        ¬(⟨16, 33⟩ : Span).contains s.span.start = true := by
  intro source t
  have hc : ⟨16, 33⟩ ∈ Text.comments (Region.opensAt t source.toList) 0 source.toList := by
    decide +kernel
  have hitself : ¬Text.ClosesItself (Text.dropBytes 16 source.toList) := by decide +kernel
  have helement : ∃ s ∈ (Parser.tagsOnly.parse source).segments, s.shape ≠ .text := by
    decide +kernel
  obtain ⟨s, hmem, hshape⟩ := helement
  exact ⟨hc, hitself, s, hmem, hshape, not_in_comment Parser.tagsOnly source (fun _ => rfl)
    (by decide +kernel) (by decide +kernel) hmem hshape hc hitself⟩

/-- A comment in the line of a broken tag does not hide what is behind that line, and a comment
whose first characters are also its last ends there. -/
theorem in_comment_of_broken_tag :
    (∀ name, Parser.tagsOnly.vocabulary.isMetadata name = false) ∧
      ∀ source ∈ ["<p a<!--\n{{x}}-->", "<!--><p>x</p>-->"],
        '"' ∉ source.toList ∧ '\'' ∉ source.toList ∧
          ∃ s ∈ (Parser.tagsOnly.parse source).segments, s.shape ≠ .text ∧
            ∃ c ∈ Text.comments (fun _ => true) 0 source.toList,
              c.contains s.span.start = true := by
  refine ⟨fun _ => rfl, ?_⟩
  decide +kernel

end Document

end ProseMarkup
