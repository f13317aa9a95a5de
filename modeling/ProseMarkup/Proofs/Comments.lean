import ProseMarkup.Proofs.Isolation

namespace ProseMarkup

namespace Text

def StartsComment (cs : List Char) : Prop :=
  ['<', '!', '-', '-'] <+: cs

instance (cs : List Char) : Decidable (StartsComment cs) :=
  inferInstanceAs (Decidable (_ <+: cs))

/-- Holds of a comment whose first characters are also its last, for a reader that searches its end
from the `<` on. -/
def ClosesItself (cs : List Char) : Prop :=
  ['<', '!', '-', '-', '>'] <+: cs ∨ ['<', '!', '-', '-', '-', '>'] <+: cs

instance (cs : List Char) : Decidable (ClosesItself cs) :=
  inferInstanceAs (Decidable (_ ∨ _))

theorem StartsComment.exists_eq {cs : List Char} (h : StartsComment cs) :
    ∃ ds, cs = '<' :: '!' :: '-' :: '-' :: ds := by
  obtain ⟨ds, rfl⟩ := h
  exact ⟨ds, rfl⟩

theorem ClosesItself.append {cs : List Char} (h : ClosesItself cs) (rest : List Char) :
    ClosesItself (cs ++ rest) :=
  h.imp (·.trans (List.prefix_append cs rest)) (·.trans (List.prefix_append cs rest))

theorem StartsComment.of_append {cs rest : List Char} (hne : cs ≠ [])
    (h : StartsComment (cs ++ '<' :: rest)) : StartsComment cs := by
  obtain ⟨t, ht⟩ := h
  obtain _ | ⟨a, _ | ⟨b, _ | ⟨c, _ | ⟨d, cs⟩⟩⟩⟩ := cs
  · contradiction
  iterate 3 cases ht
  cases ht
  exact ⟨cs, rfl⟩

theorem StartsComment.of_mem {cs rest : List Char} (hmem : '>' ∈ cs)
    (h : StartsComment (cs ++ rest)) : StartsComment cs := by
  obtain ⟨t, ht⟩ := h
  obtain ⟨x, hcs, -⟩ | ⟨x, hmark, -⟩ := List.append_eq_append_iff.mp ht.symm
  · have hopening : '>' ∈ ['<', '!', '-', '-'] := hcs ▸ List.mem_append_left x hmem
    exact absurd hopening (by decide)
  · exact ⟨x, hmark.symm⟩

/-- The comments of a text from left to right, where `opens` says at which offsets one may start. A
comment starts at the first `<!--` that is not in another one, and ends with the first `-->` behind
these characters, or with the text. -/
def comments (opens : Nat → Bool) (start : Nat) : List Char → List Span
  | [] => []
  | c :: cs =>
    if StartsComment (c :: cs) ∧ opens start then
      match h : splitAfter? ['-', '-', '>'] (cs.drop 3) with
      | some (body, rest) =>
        have : rest.length ≤ cs.length := by
          have ha := congrArg List.length (append_of_splitAfter? h)
          rw [List.length_append, List.length_drop] at ha
          omega
        let stop := start + 4 + size body
        ⟨start, stop⟩ :: comments opens stop rest
      | none => [⟨start, start + size (c :: cs)⟩]
    else comments opens (start + c.utf8Size) cs
termination_by cs => cs.length

theorem exists_of_infix {mark cs : List Char} (hne : mark ≠ []) (h : mark <:+: cs) :
    ∃ past rest, splitAfter? mark cs = some (past, rest) := by
  induction cs with
  | nil => exact absurd (List.infix_nil.mp h) hne
  | cons c cs ih =>
    rw [splitAfter?]
    obtain h | h := List.infix_cons_iff.mp h
    · rw [if_pos h]
      exact ⟨_, _, rfl⟩
    · by_cases hm : mark <+: c :: cs
      · rw [if_pos hm]
        exact ⟨_, _, rfl⟩
      · obtain ⟨past, rest, hs⟩ := ih h
        rw [if_neg hm, hs]
        exact ⟨_, _, rfl⟩

/-- Holds of a span that starts with `<!--` at an offset where a comment may start, and that ends no
later than the first `-->` behind that, nor than the text. -/
def IsComment (opens : Nat → Bool) (start : Nat) (cs : List Char) (c : Span) : Prop :=
  ∃ before ds, cs = before ++ ('<' :: '!' :: '-' :: '-' :: ds) ∧ c.start = start + size before ∧
    opens c.start = true ∧ c.stop ≤ start + size cs ∧
    ∀ body rest, ds = body ++ rest → ['-', '-', '>'] <:+: body →
      c.stop ≤ c.start + size ('<' :: '!' :: '-' :: '-' :: body)

variable {opens : Nat → Bool} {start : Nat} {c : Span}

theorem IsComment.later {past rest : List Char} (h : IsComment opens (start + size past) rest c) :
    IsComment opens start (past ++ rest) c := by
  obtain ⟨before, ds, rfl, hstart, ho, hstop, hbody⟩ := h
  refine ⟨past ++ before, ds, (List.append_assoc ..).symm, ?_, ho, ?_, hbody⟩
  · rw [hstart, size_append, Nat.add_assoc]
  · rwa [size_append, ← Nat.add_assoc]

theorem isComment_of_mem {cs : List Char} (h : c ∈ comments opens start cs) :
    IsComment opens start cs c := by
  have hsize (cs : List Char) : size ('<' :: '!' :: '-' :: '-' :: cs) = 4 + size cs := by
    change 1 + (1 + (1 + (1 + size cs))) = _
    omega
  fun_induction comments opens start cs with
  | case1 => cases h
  | case2 start a cs hstarts body rest hsplit _ stop ih =>
    obtain ⟨hstarts, ho⟩ := hstarts
    obtain ⟨ds, hds⟩ := hstarts.exists_eq
    cases hds
    have hsplit : splitAfter? ['-', '-', '>'] ds = some (body, rest) := hsplit
    obtain rfl := append_of_splitAfter? hsplit
    obtain rfl | h := List.mem_cons.mp h
    · refine ⟨[], body ++ rest, rfl, rfl, ho, ?_, fun body' rest' heq hmark => ?_⟩
      · rw [hsize, size_append]
        change start + 4 + size body ≤ _
        omega
      · -- the first end of a comment in the head of a text is the first one in the text
        obtain ⟨past, tail, hs⟩ := exists_of_infix (by decide) hmark
        obtain rfl := append_of_splitAfter? hs
        have hfirst := splitAfter?_of_append (by decide) hs (tail ++ rest')
        rw [← List.append_assoc, ← heq, hsplit] at hfirst
        obtain ⟨rfl, -⟩ := Prod.mk.inj (Option.some.inj hfirst)
        rw [hsize, size_append]
        change start + 4 + size body ≤ start + _
        omega
    · have hstop : stop = start + size ('<' :: '!' :: '-' :: '-' :: body) := by
        rw [hsize, ← Nat.add_assoc]
      have hrest := ih h
      rw [hstop] at hrest
      exact hrest.later
  | case3 start a cs hstarts hsplit =>
    obtain ⟨hstarts, ho⟩ := hstarts
    obtain ⟨ds, hds⟩ := hstarts.exists_eq
    cases hds
    obtain rfl := List.mem_singleton.mp h
    refine ⟨[], ds, rfl, rfl, ho, Nat.le_refl _, fun body rest heq hmark => ?_⟩
    obtain ⟨_, _, hs⟩ := exists_of_infix (by decide)
      (hmark.trans (heq ▸ (List.prefix_append body rest).isInfix))
    cases hsplit.symm.trans hs
  | case4 start a cs _ ih =>
    have hrest : IsComment opens (start + size [a]) cs c := ih h
    exact hrest.later

def Bare (xs : List Char) : Prop :=
  ∀ y, '<' :: y <:+ xs → ∃ c ∈ y.head?, c ≠ '!'

/-- Holds of a text in which every comment ends that does not close itself. -/
def Closes (cs : List Char) : Prop :=
  ∀ y, '<' :: '!' :: '-' :: '-' :: y <:+ cs → ¬ClosesItself ('<' :: '!' :: '-' :: '-' :: y) →
    ['-', '-', '>'] <:+: y

structure Unquoted (cs : List Char) : Prop where
  double_quote : '"' ∉ cs
  single_quote : '\'' ∉ cs

theorem Unquoted.of_subset {as bs : List Char} (h : Unquoted bs) (hs : as ⊆ bs) : Unquoted as where
  double_quote hm := h.double_quote (hs hm)
  single_quote hm := h.single_quote (hs hm)

theorem bare_of_not_mem {xs : List Char} (h : '<' ∉ xs) : Bare xs :=
  fun _ hy => absurd (hy.subset List.mem_cons_self) h

theorem bare_cons {c : Char} {xs : List Char} (hc : c ≠ '!') (h : '<' ∉ c :: xs) :
    Bare ('<' :: c :: xs) := by
  intro y hy
  obtain he | hy := List.suffix_cons_iff.mp hy
  · cases he
    exact ⟨c, rfl, hc⟩
  · exact absurd (hy.subset List.mem_cons_self) h

theorem Bare.not_startsComment {xs x y rest : List Char} (h : Bare xs) (hxs : xs = x ++ y)
    (hy : y ≠ []) : ¬StartsComment (y ++ rest) := by
  rintro ⟨t, ht⟩
  obtain ⟨c, y, rfl⟩ := List.exists_cons_of_ne_nil hy
  obtain ⟨rfl, hcs⟩ := List.cons.inj ht
  obtain ⟨d, hd, hne⟩ := h y ⟨x, hxs.symm⟩
  cases y with
  | nil => cases hd
  | cons a y =>
    cases hd
    exact hne (List.cons.inj hcs).1.symm

theorem Closes.of_suffix {as bs : List Char} (h : Closes bs) (hs : as <:+ bs) : Closes as :=
  fun y hy => h y (hy.trans hs)

theorem closes_nil : Closes [] :=
  fun _ hy => absurd (List.suffix_nil.mp hy) nofun

theorem Closes.cons {c : Char} {cs : List Char} (hc : ¬StartsComment (c :: cs)) (h : Closes cs) :
    Closes (c :: cs) := by
  intro y hy
  obtain he | hy := List.suffix_cons_iff.mp hy
  · exact absurd ⟨y, he⟩ hc
  · exact h y hy

theorem Closes.append_of_bare {xs cs : List Char} (hx : Bare xs) (h : Closes cs) :
    Closes (xs ++ cs) := by
  induction xs with
  | nil => exact h
  | cons c xs ih =>
    have hxs : Bare xs := fun y hy => hx y (hy.trans (List.suffix_cons c xs))
    exact (ih hxs).cons (hx.not_startsComment (List.nil_append _).symm (List.cons_ne_nil c xs))

theorem Closes.append_of_end {cs : List Char} (h : Closes cs) (xs : List Char) :
    Closes (xs ++ (['-', '-', '>'] ++ cs)) := by
  induction xs with
  | nil =>
    rw [List.nil_append]
    exact h.append_of_bare (bare_of_not_mem (by decide))
  | cons c xs ih =>
    intro y hy hitself
    obtain he | hy := List.suffix_cons_iff.mp hy
    · -- a beginning that shares its hyphens with the end closes itself
      obtain _ | ⟨a, _ | ⟨b, _ | ⟨d, xs⟩⟩⟩ := xs
      · cases he
      · cases he
        exact absurd (.inl ⟨cs, rfl⟩) hitself
      · cases he
        exact absurd (.inr ⟨cs, rfl⟩) hitself
      · cases he
        exact ⟨xs, cs, List.append_assoc ..⟩
    · exact ih y hy hitself

/-- Holds of a stretch, read in front of `rest`, when every comment that starts in it where one may
start ends in it as well. -/
def Clear (opens : Nat → Bool) (start : Nat) (past rest : List Char) : Prop :=
  ∀ x y, past = x ++ y → y ≠ [] → StartsComment (y ++ rest) → ¬ClosesItself (y ++ rest) →
    opens (start + size x) = true →
      rest = [] ∨ ∃ ds, y = '<' :: '!' :: '-' :: '-' :: ds ∧ ['-', '-', '>'] <:+: ds

theorem Clear.bare {xs : List Char} (h : Bare xs) (rest : List Char) : Clear opens start xs rest :=
  fun _ _ hx hy hs => absurd hs (h.not_startsComment hx hy)

theorem Clear.append {xs ys rest : List Char} (h : Clear opens start xs (ys ++ rest))
    (h' : Clear opens (start + size xs) ys rest) : Clear opens start (xs ++ ys) rest := by
  intro x y hxy hy hstarts hitself ho
  obtain ⟨z, rfl, rfl⟩ | ⟨z, rfl, hz⟩ := List.append_eq_append_iff.mp hxy
  · rw [size_append, ← Nat.add_assoc] at ho
    exact h' z y rfl hy hstarts hitself ho
  · subst hz
    by_cases hz : z = []
    · subst hz
      rw [List.append_nil] at h'
      exact h' [] ys rfl hy hstarts hitself ho
    · rw [List.append_assoc] at hstarts hitself
      obtain hnil | ⟨ds, rfl, hend⟩ := h x z rfl hz hstarts hitself ho
      · exact .inl (List.append_eq_nil_iff.mp hnil).2
      · exact .inr ⟨ds ++ ys, rfl, hend.trans (List.prefix_append ds ys).isInfix⟩

theorem Clear.of_startsComment {past rest : List Char} (h : Closes past)
    (hstarts : ∀ x y, past = x ++ y → y ≠ [] → StartsComment (y ++ rest) → StartsComment y) :
    Clear opens start past rest := by
  intro x y hxy hy hs hitself _
  obtain ⟨ds, rfl⟩ := (hstarts x y hxy hy hs).exists_eq
  exact .inr ⟨ds, rfl, h ds ⟨x, hxy.symm⟩ fun hds => hitself (hds.append rest)⟩

/-- Comments that end in front of a tag end there whatever follows. -/
theorem Clear.of_closes {cs : List Char} (h : Closes cs) (rest : List Char) :
    Clear opens start cs ('<' :: rest) :=
  .of_startsComment h fun _ _ _ hy hs => hs.of_append hy

theorem Clear.of_end (xs rest : List Char) : Clear opens start (xs ++ ['-', '-', '>']) rest := by
  refine .of_startsComment (closes_nil.append_of_end xs) fun x y hxy hy hs => hs.of_mem ?_
  have hlast := congrArg List.getLast? hxy
  rw [List.getLast?_append_of_ne_nil _ hy, List.getLast?_append_of_ne_nil _ (by decide)] at hlast
  exact List.mem_of_getLast? hlast.symm

/-- Holds of an offset that no comment reaches over, but for those that close themselves. -/
def Outside (opens : Nat → Bool) (source : List Char) (n : Nat) : Prop :=
  ∀ c ∈ comments opens 0 source, ¬ClosesItself (dropBytes c.start source) → c.start < n →
    c.stop ≤ n

theorem outside_zero (opens : Nat → Bool) (source : List Char) : Outside opens source 0 :=
  fun _ _ _ hlt => absurd hlt (Nat.not_lt_zero _)

theorem Outside.step {before past rest : List Char}
    (h : Outside opens (before ++ (past ++ rest)) (size before))
    (hclear : Clear opens (size before) past rest) :
    Outside opens (before ++ (past ++ rest)) (size before + size past) := by
  intro c hc hitself hlt
  by_cases hstart : c.start < size before
  · exact Nat.le_trans (h c hc hitself hstart) (Nat.le_add_right _ _)
  · obtain ⟨left, ds, hsource, hleft, ho, hstop, hbody⟩ := isComment_of_mem hc
    rw [Nat.zero_add] at hleft hstop
    rw [hsource, hleft, dropBytes_size_append] at hitself
    -- the comment starts in the stretch that is passed
    obtain ⟨x, rfl, hx⟩ := exists_append_of_size_le hsource (by omega)
    rw [size_append] at hleft
    obtain ⟨y, rfl, hy⟩ := exists_append_of_size_le hx.symm (by omega)
    have hne : y ≠ [] := by
      rintro rfl
      rw [List.append_nil] at hlt
      omega
    rw [hy] at hitself
    rw [hleft] at ho
    obtain rfl | ⟨body, rfl, hend⟩ := hclear x y rfl hne (hy ▸ List.prefix_append _ ds) hitself ho
    · rwa [List.append_nil, size_append] at hstop
    · have hds : ds = body ++ rest := by simpa using hy
      have hle := hbody body rest hds hend
      rw [size_append]
      omega

theorem Outside.not_contains {source : List Char} {n : Nat} (h : Outside opens source n)
    (hn : ¬StartsComment (dropBytes n source)) (hc : c ∈ comments opens 0 source)
    (hitself : ¬ClosesItself (dropBytes c.start source)) : ¬c.contains n = true := by
  rw [Span.contains_iff]
  rintro ⟨hle, hlt⟩
  obtain hstart | rfl := Nat.lt_or_eq_of_le hle
  · exact absurd (h c hc hitself hstart) (Nat.not_le.mpr hlt)
  · obtain ⟨before, ds, rfl, hstart, -⟩ := isComment_of_mem hc
    rw [hstart, Nat.zero_add, dropBytes_size_append] at hn
    exact hn (List.prefix_append ['<', '!', '-', '-'] ds)

end Text

namespace OpeningTag

/-- Without quotes a scan for the end of a tag stops at the next tag. -/
theorem not_mem_of_scan {cs inside rest : List Char} (hd : '"' ∉ cs) (hs : '\'' ∉ cs)
    (h : scan none cs = .found inside rest) : '<' ∉ inside := by
  induction cs generalizing inside with
  | nil => cases h
  | cons c cs ih =>
    obtain ⟨hcd, hd⟩ := List.ne_and_not_mem_of_not_mem_cons hd
    obtain ⟨hcs, hs⟩ := List.ne_and_not_mem_of_not_mem_cons hs
    by_cases hg : c = '>'
    · rw [scan, if_pos hg] at h
      cases h
      exact List.not_mem_nil
    · by_cases hl : c = '<'
      · rw [scan, if_neg hg, if_pos hl] at h
        cases h
      · simp only [scan, hg, hl, Ne.symm hcd, Ne.symm hcs, if_false, decide_false, Bool.or_self,
          Bool.false_eq_true] at h
        obtain ⟨i, rfl, hi⟩ := Ending.push_eq_found.mp h
        exact List.not_mem_cons_of_ne_of_not_mem (Ne.symm hl) (ih hd hs hi)

theorem bare_text {cs rest : List Char} {tag : OpeningTag} (hd : '"' ∉ cs) (hs : '\'' ∉ cs)
    (h : Mark.read cs = .opening tag rest) : Text.Bare tag.text := by
  obtain ⟨after, hn, -, he⟩ := Mark.read_eq_opening h
  obtain ⟨hcs, ⟨a, name, hname, ha, hparts⟩, -⟩ := Name.read?_eq_some_iff.mp hn
  have hafter : after ⊆ cs := by
    rw [hcs]
    exact List.subset_append_right _ _
  have hinside : '<' ∉ tag.inside := by
    rw [splitEnd?] at he
    split at he
    · rename_i hscan
      cases he
      exact not_mem_of_scan (fun hm => hd (hafter hm)) (fun hm => hs (hafter hm)) hscan
    · exact (scanPlain?_eq_some_iff.mp he).2.1
    · cases he
  have hstart : a ≠ '!' ∧ a ≠ '<' := by
    constructor <;> rintro rfl <;> revert ha <;> decide
  have hpart : '<' ∉ name := fun hm => absurd (hparts _ hm) (by decide)
  have htext : tag.text = '<' :: a :: (name ++ (tag.inside ++ ['>'])) := by
    simp [text, hname]
  rw [htext]
  apply Text.bare_cons hstart.1
  simp [hstart.2.symm, hpart, hinside]

end OpeningTag

theorem ClosingTag.Proper.bare_text {tag : ClosingTag} (h : tag.Proper) : Text.Bare tag.text :=
  Text.bare_cons (by decide) h.not_mem

namespace Mark

theorem read_eq_comment {cs inner rest : List Char} (h : read cs = .comment inner rest) :
    ∃ ds, cs = '!' :: '-' :: '-' :: ds ∧ ((∃ xs, inner = xs ++ ['-', '-', '>']) ∨
      inner = cs ∧ rest = [] ∧ ¬['-', '-', '>'] <:+: '-' :: '-' :: ds) := by
  unfold read at h
  split at h
  · rename_i ds
    refine ⟨ds, rfl, ?_⟩
    cases hs : Text.splitAfter? ['-', '-', '>'] ('-' :: '-' :: ds) with
    | none =>
      rw [hs] at h
      cases h
      refine .inr ⟨rfl, rfl, fun hmark => ?_⟩
      obtain ⟨_, _, hsome⟩ := Text.exists_of_infix (by decide) hmark
      cases hs.symm.trans hsome
    | some x =>
      obtain ⟨past, _⟩ := x
      rw [hs] at h
      cases h
      obtain ⟨xs, rfl⟩ := Text.suffix_of_splitAfter? hs
      exact .inl ⟨'!' :: xs, rfl⟩
  · split at h <;> cases h
  · exact absurd h readOpening_ne_comment

theorem exists_comment {cs : List Char} (h : Text.StartsComment ('<' :: cs)) :
    ∃ inner rest, read cs = .comment inner rest := by
  obtain ⟨ds, hds⟩ := h.exists_eq
  cases hds
  rw [read]
  split
  · exact ⟨_, _, rfl⟩
  · exact ⟨_, _, rfl⟩

end Mark

theorem Vocabulary.classify_ne_metadata (v : Vocabulary)
    (hv : ∀ name, v.isMetadata name = false) (name : String) :
    v.classify name ≠ some .metadata := by
  rw [classify, hv, if_neg (by decide)]
  split <;> rintro ⟨⟩

namespace Enclosure

open Text (Bare Closes Unquoted)

variable {v : Vocabulary}

theorem structuralStep_cases (hv : ∀ name, v.isMetadata name = false) (name cs : List Char) :
    (∃ inner rest, Mark.read cs = .comment inner rest ∧
      structuralStep v name cs = .pass ('<' :: inner) rest) ∨
    (∃ tag rest, Mark.read cs = .opening tag rest ∧
      (structuralStep v name cs).past = tag.text) ∨
    (∃ tag rest, Mark.read cs = .closing tag rest ∧
      (structuralStep v name cs).past = tag.text) ∨
    structuralStep v name cs = .skip cs ∧ ∀ inner rest, Mark.read cs ≠ .comment inner rest := by
  rw [structuralStep]
  split
  · rename_i h
    exact .inl ⟨_, _, h, rfl⟩
  · rename_i h
    split
    · exact .inr (.inr (.inl ⟨_, _, h, rfl⟩))
    · exact .inr (.inr (.inr ⟨rfl, by simp [h]⟩))
  · rename_i h
    refine .inr (.inl ⟨_, _, h, ?_⟩)
    split
    · rfl
    · split
      · rfl
      · rw [if_neg (v.classify_ne_metadata hv _)]
        rfl
  · rename_i h
    exact .inr (.inr (.inr ⟨rfl, by simp [h]⟩))
  · rename_i h
    exact .inr (.inr (.inr ⟨rfl, by simp [h]⟩))

theorem closes_of_step (hv : ∀ name, v.isMetadata name = false) {name cs body tail : List Char}
    (hq : Unquoted cs) (hrest : (structuralStep v name cs).rest = body ++ '<' :: tail)
    (hb : Closes body) : Closes ((structuralStep v name cs).past ++ body) := by
  obtain ⟨inner, rest, hm, hs⟩ | ⟨tag, rest, hm, hs⟩ | ⟨tag, rest, hm, hs⟩ | ⟨hs, hm⟩ :=
    structuralStep_cases hv name cs
  · rw [hs] at hrest ⊢
    obtain ⟨ds, rfl, ⟨xs, rfl⟩ | ⟨-, rfl, -⟩⟩ := Mark.read_eq_comment hm
    · have hend := hb.append_of_end ('<' :: xs)
      rw [← List.append_assoc] at hend
      exact hend
    · cases body <;> cases hrest
  · rw [hs]
    exact hb.append_of_bare (OpeningTag.bare_text hq.double_quote hq.single_quote hm)
  · rw [hs]
    exact hb.append_of_bare (ClosingTag.Proper.bare_text ⟨_, _, hm⟩)
  · rw [hs] at hrest ⊢
    refine hb.cons fun hc => ?_
    have hcs : cs = body ++ '<' :: tail := hrest
    have hstart : Text.StartsComment ('<' :: cs) := by
      rw [hcs]
      exact hc.trans (List.prefix_append ('<' :: body) _)
    obtain ⟨inner, rest, hread⟩ := Mark.exists_comment hstart
    exact hm inner rest hread

theorem closes_of_find? (hv : ∀ name, v.isMetadata name = false) {name cs : List Char}
    {e : Enclosure} (hq : Unquoted cs) (h : find? v name cs = some e) : Closes e.body := by
  rw [find?, if_neg (v.classify_ne_metadata hv _), ofStructural?] at h
  generalize 0 = inner at h
  have step {cs : List Char} {x : Step} (hq : Unquoted ('<' :: cs))
      (hx : structuralStep v name cs = x) {f : Enclosure} (hf : f.text ++ f.rest = x.rest)
      (hb : Unquoted x.rest → Closes f.body) : Closes (x.past ++ f.body) := by
    subst hx
    have hrest : (structuralStep v name cs).rest =
        f.body ++ '<' :: (f.closing.text.tail ++ f.rest) := by
      rw [← hf, text, List.append_assoc]
      rfl
    have hsuffix : (structuralStep v name cs).rest <:+ '<' :: cs :=
      ⟨_, (structuralStep_takes v name cs).1⟩
    exact closes_of_step hv (hq.of_subset (List.subset_cons_self _ _)) hrest
      (hb (hq.of_subset hsuffix.subset))
  fun_induction search (structuralStep v name) (structuralStep_takes v name) inner cs
      generalizing e with
  | case1 => cases h
  | case2 inner cs _ past rest hx ih | case3 inner cs _ past rest hx ih =>
    obtain ⟨f, hf, rfl⟩ := Option.map_eq_some_iff.mp h
    exact step hq hx (append_of_search hf) fun hq => ih hq hf
  | case4 =>
    cases h
    exact Text.closes_nil
  | case5 cs _ tag rest hx inner ih =>
    obtain ⟨f, hf, rfl⟩ := Option.map_eq_some_iff.mp h
    exact step hq hx (append_of_search hf) fun hq => ih hq hf
  | case6 inner c cs hc ih =>
    obtain ⟨f, hf, rfl⟩ := Option.map_eq_some_iff.mp h
    refine (ih (hq.of_subset (List.subset_cons_self c cs)) hf).cons fun hstart => ?_
    obtain ⟨ds, hds⟩ := hstart.exists_eq
    exact hc (List.cons.inj hds).1

end Enclosure

namespace Head

open Text (Bare Clear Closes Unquoted)

variable {v : Vocabulary}

/-- No comment leaves an element, and none that starts in its body leaves the body. -/
theorem clear_of_element (hv : ∀ name, v.isMetadata name = false) {cs rest : List Char}
    {e : Element} (hq : Unquoted cs) (h : read v cs = .element e rest) :
    Bare e.opening.text ∧ Closes (e.markup v) ∧ ∀ opens start after,
      Clear opens start e.text after := by
  obtain ⟨ds, after, rfl, hm, hclass, hr⟩ := read_eq_element_iff.mp h
  have hds : Unquoted ds := hq.of_subset (List.subset_cons_self '<' ds)
  have hopening := OpeningTag.bare_text hds.double_quote hds.single_quote hm
  have hafter : Unquoted after := by
    apply hq.of_subset
    rw [← Mark.text_append_of_opening hm]
    exact List.subset_append_right _ _
  by_cases ht : e.opening.selfClosing
  · rw [Element.read?_of_selfClosing ht] at hr
    have he : e.enclosed = none :=
      congrArg Element.enclosed (Prod.mk.inj (Option.some.inj hr)).1.symm
    have htext : e.text = e.opening.text := by
      rw [Element.text, Element.tail, he, List.append_nil]
    have hmarkup : e.markup v = [] := by
      by_contra hm
      obtain ⟨_, -, he', -⟩ := Element.enclosed_of_markup hm
      cases he.symm.trans he'
    rw [htext, hmarkup]
    exact ⟨hopening, Text.closes_nil, fun _ _ => .bare hopening⟩
  · obtain ⟨f, hf, he, rfl⟩ := (Element.read?_eq_some_iff ht).mp hr
    have he : e.enclosed = some (f.body, f.closing) := congrArg Element.enclosed he
    have hbody := Enclosure.closes_of_find? hv hafter hf
    have hclosing := (Enclosure.proper_of_find? hf).bare_text
    have hmarkup : Closes (e.markup v) := by
      by_cases hm : e.markup v = []
      · rw [hm]
        exact Text.closes_nil
      · obtain ⟨_, -, he', -⟩ := Element.enclosed_of_markup hm
        obtain ⟨hb, -⟩ := Prod.mk.inj (Option.some.inj (he.symm.trans he'))
        rwa [← hb]
    refine ⟨hopening, hmarkup, fun opens start after => ?_⟩
    have htext : e.text = e.opening.text ++ (f.body ++ f.closing.text) := by
      rw [Element.text, Element.tail, he]
    rw [htext]
    refine (Clear.bare hopening _).append ?_
    exact Clear.append (.of_closes hbody _) (.bare hclosing after)

end Head

end ProseMarkup
