import ProseMarkup.Proofs.Prose
import ProseMarkup.Proofs.Tiling

namespace ProseMarkup

namespace Head

/-- A scan of a text comes to another text, head after head. -/
inductive Reaches (v : Vocabulary) : Nat → List Char → Nat → List Char → Prop
  | here (start : Nat) (cs : List Char) : Reaches v start cs start cs
  | step {start stop : Nat} {cs rest : List Char} (hcs : cs ≠ [])
      (h : Reaches v (start + Text.size (read v cs).chars) (read v cs).rest stop rest) :
      Reaches v start cs stop rest

theorem Reaches.trans {v : Vocabulary} {start mid stop : Nat} {cs ds es : List Char}
    (h : Reaches v start cs mid ds) (h' : Reaches v mid ds stop es) :
    Reaches v start cs stop es := by
  induction h with
  | here => exact h'
  | step hcs _ ih => exact .step hcs (ih h')

theorem Reaches.one {v : Vocabulary} {start : Nat} {cs : List Char} {x : Head} (hcs : cs ≠ [])
    (h : read v cs = x) : Reaches v start cs (start + Text.size x.chars) x.rest := by
  subst h
  exact .step hcs (.here _ _)

end Head

namespace Region

variable {v : Vocabulary} {limit depth start : Nat}

open Head (Reaches)

theorem Run.reaches {cs last : List Char} {notes : List Diagnostic}
    (run : Run v start cs last notes) :
    ∃ chars, cs = chars ++ last ∧ Reaches v start cs (start + Text.size chars) last := by
  induction run with
  | nil start cs => exact ⟨[], rfl, .here start cs⟩
  | @cons start cs passed rest last fault notes hcs h _ ih =>
    obtain ⟨chars, rfl, hr⟩ := ih
    have ha : passed ++ (chars ++ last) = cs := Head.append_of_read h
    refine ⟨passed ++ chars, ?_, ?_⟩
    · rw [← ha, List.append_assoc]
    · rw [Text.size_append, ← Nat.add_assoc]
      exact (Reaches.one hcs h).trans hr

theorem Yields.reaches {cs rest : List Char} {t : Tree Region}
    (h : Yields v limit depth start cs t rest) :
    Reaches v start cs (start + Text.size t.label.chars) rest := by
  have hcs : cs ≠ [] := by
    rw [← h.append]
    exact List.append_ne_nil_of_left_ne_nil h.chars_ne_nil rest
  cases h with
  | @prose chars _ _ _ run =>
    obtain ⟨chars', he, hr⟩ := run.reaches
    rw [← List.append_cancel_right he] at hr
    exact hr
  | template h => exact .one hcs h
  | element h =>
    rw [treeOf_chars]
    exact .one hcs h

theorem Splits.reaches {cs : List Char} {t : Tree Region} {ts : List (Tree Region)}
    (h : Splits v limit depth start cs ts) (ht : t ∈ ts) :
    ∃ before cs' rest, cs = before ++ cs' ∧
      Yields v limit depth (start + Text.size before) cs' t rest ∧
      Reaches v start cs (start + Text.size before) cs' := by
  induction h with
  | nil => cases ht
  | @cons start cs rest u ts hy _ _ ih =>
    obtain rfl | ht := List.mem_cons.mp ht
    · exact ⟨[], cs, rest, rfl, hy, .here start cs⟩
    · obtain ⟨before, cs', rest', rfl, hy', hr⟩ := ih ht
      refine ⟨u.label.chars ++ before, cs', rest', ?_, ?_, ?_⟩
      · rw [List.append_assoc, hy.append]
      · rwa [Text.size_append, ← Nat.add_assoc]
      · rw [Text.size_append, ← Nat.add_assoc]
        exact hy.reaches.trans hr

/-- In a run of prose the character `c`, which stands between `x` and `cs`, is passed over with a
head whose fault is noted. -/
inductive PassedIn (v : Vocabulary) (start : Nat) (x : List Char) (c : Char) (cs last : List Char)
    (notes : List Diagnostic) : Prop
  | head {before z w rest : List Char} {fault : Option ProseFault} {notes' : List Diagnostic}
      (hx : x = before ++ z)
      (reaches : Reaches v start (x ++ c :: cs) (start + Text.size before) (z ++ c :: cs))
      (passes : Head.Passes v (z ++ c :: cs) (z ++ c :: w) fault rest)
      (noted : ∀ f ∈ fault, f.diagnostic (start + Text.size before) ∈ notes)
      (run : Run v (start + Text.size before + Text.size (z ++ c :: w)) rest last notes')

theorem PassedIn.later {x passed cs last : List Char} {c : Char} {fault : Option ProseFault}
    {notes : List Diagnostic} (h : Head.read v (passed ++ (x ++ c :: cs)) =
      .prose passed fault (x ++ c :: cs)) (hne : passed ≠ [])
    (hp : PassedIn v (start + Text.size passed) x c cs last notes) (ds : List Diagnostic) :
    PassedIn v start (passed ++ x) c cs last (ds ++ notes) := by
  obtain @⟨before, z, w, rest, fault', notes', rfl, reaches, passes, noted, run⟩ := hp
  have hs : start + Text.size passed + Text.size before = start + Text.size (passed ++ before) := by
    rw [Text.size_append, Nat.add_assoc]
  rw [hs] at reaches noted run
  have hcs := List.append_ne_nil_of_left_ne_nil hne (before ++ z ++ c :: cs)
  refine .head (List.append_assoc ..).symm ?_ passes ?_ run
  · rw [List.append_assoc]
    exact (Reaches.one hcs h).trans reaches
  · exact fun f hf => List.mem_append_right _ (noted f hf)

theorem Run.passedIn {cs last x y : List Char} {c : Char} {notes : List Diagnostic}
    (run : Run v start cs last notes) (hcs : cs = x ++ c :: (y ++ last)) :
    PassedIn v start x c (y ++ last) last notes := by
  induction run generalizing x with
  | nil start cs =>
    have hl := congrArg List.length hcs
    simp only [List.length_append, List.length_cons] at hl
    omega
  | @cons start cs passed rest last fault notes hne h run ih =>
    have ha : passed ++ rest = cs := Head.append_of_read h
    have hp : passed ≠ [] := Head.chars_ne_nil_of_read hne h
    have later {z : List Char} (hx : x = passed ++ z) (hr : rest = z ++ c :: (y ++ last)) :
        PassedIn v start x c (y ++ last) last
          (fault.toList.map (·.diagnostic start) ++ notes) := by
      subst hx hr
      rw [← ha] at h
      exact (ih rfl).later h hp _
    obtain ⟨z, hx, hr⟩ | ⟨w, hx, hr⟩ := List.append_eq_append_iff.mp (ha.trans hcs)
    · exact later hx hr
    · cases w with
      | nil => exact later (z := []) (by simpa using hx.symm) hr.symm
      | cons b w =>
        obtain ⟨rfl, hr⟩ := List.cons.inj hr
        subst hcs hx
        refine .head (List.nil_append x).symm (.here _ _) (Head.passes_of_read hne h) ?_ run
        intro f hf
        refine List.mem_append_left _ (List.mem_map.mpr ⟨f, ?_, rfl⟩)
        exact Option.mem_toList.mpr hf

def SkippedComment (v : Vocabulary) (limit : Nat) (source : List Char) (c : Span) : Prop :=
  ∃ depth start cs stop after inner rest, Range v limit source depth start cs ∧
    Reaches v start cs stop ('<' :: after) ∧ Mark.read after = .comment inner rest ∧
    c = .ofText stop ('<' :: inner)

/-- Why markup at `pos` in a stretch of prose is not read as such. -/
inductive Accounted (v : Vocabulary) (limit : Nat) (source : List Char) (ds : List Diagnostic)
    (leaf : Span) (pos : Nat) : Prop
  | here {d : Diagnostic} (hd : d ∈ ds)
      (hk : d.kind = .malformedTag ∨ d.kind = .unterminatedTag) (hpos : d.span.start = pos)
  | malformed {d : Diagnostic} (hd : d ∈ ds) (hk : d.kind = .malformedTag)
      (hleaf : leaf.start ≤ d.span.start) (hlt : d.span.start < pos)
      (hline : pos < Text.lineEnd source d.span.start)
  | unterminated {d : Diagnostic} (hd : d ∈ ds) (hk : d.kind = .unterminatedTag)
      (hleaf : leaf.start ≤ d.span.start) (hlt : d.span.start < pos)
      (hline : pos < Text.lineEnd source (d.span.stop - 1))
  | comment {c : Span} (hc : SkippedComment v limit source c) (hleaf : leaf.start ≤ c.start)
      (hlt : c.start < pos) (hin : pos < c.stop)

theorem Accounted.imp {source : List Char} {ds ds' : List Diagnostic} {leaf : Span} {pos : Nat}
    (h : Accounted v limit source ds leaf pos)
    (hds : ∀ d ∈ ds, ∃ d' ∈ ds', d'.kind = d.kind ∧ d'.span = d.span) :
    Accounted v limit source ds' leaf pos := by
  cases h with
  | @here d hd hk hpos =>
    obtain ⟨d', hd', hk', hs⟩ := hds d hd
    exact .here hd' (hk' ▸ hk) (hs ▸ hpos)
  | @malformed d hd hk hleaf hlt hline =>
    obtain ⟨d', hd', hk', hs⟩ := hds d hd
    rw [← hs] at hleaf hlt hline
    exact .malformed hd' (hk'.trans hk) hleaf hlt hline
  | @unterminated d hd hk hleaf hlt hline =>
    obtain ⟨d', hd', hk', hs⟩ := hds d hd
    rw [← hs] at hleaf hlt hline
    exact .unterminated hd' (hk'.trans hk) hleaf hlt hline
  | comment hc hleaf hlt hin => exact .comment hc hleaf hlt hin

theorem lt_lineEnd_of_malformed {source before z w cs name tail after : List Char} {c : Char}
    (hs : source = before ++ (z ++ c :: after)) (hm : Mark.read cs = .unclosed name w)
    (hpassed : '<' :: name ++ (Text.splitLine w).1 = z ++ c :: tail) :
    Text.size before + Text.size z < Text.lineEnd source (Text.size before) := by
  obtain ⟨hn, _⟩ := Mark.read_eq_unclosed hm
  have hname : '\n' ∉ '<' :: name := by
    apply List.not_mem_cons_of_ne_of_not_mem (by decide)
    intro h
    have hp := Name.isPart_of_read? hn _ h
    revert hp
    decide
  rw [← Text.splitLine_of_not_mem hname] at hpassed
  rw [hs]
  exact Text.lt_lineEnd before (Text.not_mem_of_splitLine hpassed) c after

theorem lt_lineEnd_of_unterminated {source before z w cs tail after : List Char} {c : Char}
    {tag : OpeningTag} (hs : source = before ++ ('<' :: cs ++ after))
    (hm : Mark.read cs = .opening tag w)
    (hpassed : tag.text ++ (Text.splitLine w).1 = z ++ c :: tail) :
    Text.size before + Text.size z <
      Text.lineEnd source (Text.size before + Text.size tag.text - 1) := by
  obtain ⟨front, hfront⟩ : ∃ front, tag.text = front ++ ['>'] := ⟨_, rfl⟩
  have hsource : source = (before ++ front) ++ ('>' :: (w ++ after)) := by
    rw [hs, ← Mark.text_append_of_opening hm, hfront]
    simp
  have hstop : Text.size before + Text.size tag.text - 1 = Text.size (before ++ front) := by
    have hgt : Text.size ['>'] = 1 := rfl
    rw [hfront, Text.size_append, Text.size_append]
    omega
  have hline (u t : List Char) (h : (Text.splitLine w).1 = u ++ c :: t) :
      Text.size before + Text.size (tag.text ++ u) <
        Text.lineEnd source (Text.size (before ++ front)) := by
    have hgt : (Text.splitLine ('>' :: w)).1 = ('>' :: u) ++ c :: t := congrArg ('>' :: ·) h
    have hlt := Text.lt_lineEnd (before ++ front) (Text.not_mem_of_splitLine hgt) c
      (t ++ (Text.splitLine w).2 ++ after)
    rw [hsource, ← Text.splitLine_append w, h, hfront]
    simpa [Nat.add_assoc] using hlt
  rw [hstop]
  obtain ⟨u, rfl, hu⟩ | ⟨_ | ⟨b, u⟩, hu, ht⟩ := List.append_eq_append_iff.mp hpassed
  · exact hline u tail hu
  · have hlt := hline [] tail ht.symm
    rwa [List.append_nil, hu, List.append_nil] at hlt
  · -- the character stands in the tag itself
    have hlt := Text.lt_lineEnd (before ++ front) List.not_mem_nil '>' (w ++ after)
    have hsize := congrArg Text.size hu
    have hb := b.utf8Size_pos
    rw [hfront] at hsize
    simp only [Text.size_append, Text.size_cons, Text.size_nil] at hsize hlt ⊢
    rw [hsource]
    refine Nat.lt_of_le_of_lt ?_ hlt
    have hgt : '>'.utf8Size = 1 := rfl
    omega

/-- A malformed tag that is passed over with its line accounts for all of that line. -/
theorem Accounted.of_malformed {source before z w cs name tail after : List Char} {c : Char}
    {ds : List Diagnostic} {leaf : Span} (hs : source = before ++ (z ++ c :: after))
    (hm : Mark.read cs = .unclosed name w)
    (hpassed : '<' :: name ++ (Text.splitLine w).1 = z ++ c :: tail)
    (hd : ProseFault.diagnostic (Text.size before) (.malformed name) ∈ ds)
    (hleaf : leaf.start ≤ Text.size before) :
    Accounted v limit source ds leaf (Text.size before + Text.size z) := by
  by_cases hz : z = []
  · subst hz
    exact .here hd (.inl rfl) rfl
  · refine .malformed hd rfl hleaf (Nat.lt_add_of_pos_right (Text.size_pos hz)) ?_
    exact lt_lineEnd_of_malformed hs hm hpassed

theorem Accounted.of_unterminated {source before z w cs tail after : List Char} {c : Char}
    {tag : OpeningTag} {ds : List Diagnostic} {leaf : Span}
    (hs : source = before ++ ('<' :: cs ++ after)) (hm : Mark.read cs = .opening tag w)
    (hpassed : tag.text ++ (Text.splitLine w).1 = z ++ c :: tail)
    (hd : ProseFault.diagnostic (Text.size before) (.unterminated tag) ∈ ds)
    (hleaf : leaf.start ≤ Text.size before) :
    Accounted v limit source ds leaf (Text.size before + Text.size z) := by
  by_cases hz : z = []
  · subst hz
    exact .here hd (.inr rfl) rfl
  · refine .unterminated hd rfl hleaf (Nat.lt_add_of_pos_right (Text.size_pos hz)) ?_
    exact lt_lineEnd_of_unterminated hs hm hpassed

inductive Opens (v : Vocabulary) : List Char → List Char → Prop
  | tag {cs : List Char} (h : OpeningTag.Known v cs) : Opens v ['<'] cs
  | template {inner cs : List Char} (h : TemplateInside inner) :
      Opens v (Piece.template inner).chars cs

theorem Opens.cases {c : Char} {m cs : List Char} (h : Opens v (c :: m) cs) :
    c = '<' ∧ m = [] ∧ OpeningTag.Known v cs ∨
      c = '{' ∧ ∃ inner, m = '{' :: inner ++ ['}', '}'] ∧ TemplateInside inner := by
  cases h with
  | tag h => exact .inl ⟨rfl, rfl, h⟩
  | template h => exact .inr ⟨rfl, _, rfl, h⟩

theorem Opens.ne_nil {mark cs : List Char} (h : Opens v mark cs) : mark ≠ [] := by
  cases h <;> exact List.cons_ne_nil _ _

theorem Opens.of_append {mark cs after : List Char} (h : Opens v mark (cs ++ after))
    (ha : after = [] ∨ ∃ tail, after = '<' :: tail) : Opens v mark cs := by
  generalize hds : cs ++ after = ds at h
  cases h with
  | tag h => exact .tag ((hds ▸ h).of_append ha)
  | template h => exact .template h

/-- Prose does not run over a template behind braces that start none themselves. -/
theorem not_run_of_template {inner y last : List Char} {notes : List Diagnostic}
    (hi : TemplateInside inner)
    (h : readTemplate? ('{' :: (inner ++ '}' :: '}' :: (y ++ last))) = none) :
    ¬Run v start ('{' :: (inner ++ '}' :: '}' :: (y ++ last))) last notes := by
  obtain ⟨inner, rfl⟩ := exists_cons_of_readTemplate?_eq_none hi h
  have hread := readTemplate?_append hi.of_cons (y ++ last)
  generalize hrest : '{' :: ('{' :: inner ++ '}' :: '}' :: (y ++ last)) = rest
  intro run
  cases run with
  | nil =>
    have hl := congrArg List.length hrest
    simp only [List.cons_append, List.length_cons, List.length_append] at hl
    omega
  | cons _ h _ => simp [← hrest, Head.read, hread] at h

theorem PassedIn.accounted {source before x m y last after : List Char} {c : Char}
    {notes : List Diagnostic} {leaf : Span} {cs : List Char}
    (hr : Range v limit source depth start cs)
    (hreach : Reaches v start cs (Text.size before) (x ++ c :: (m ++ (y ++ last))))
    (hs : source = before ++ (x ++ c :: (m ++ (y ++ last)) ++ after))
    (hm : Opens v (c :: m) (y ++ last)) (hleaf : leaf.start = Text.size before)
    (hp : PassedIn v (Text.size before) x c (m ++ (y ++ last)) last notes) :
    Accounted v limit source notes leaf (Text.size before + Text.size x) := by
  obtain @⟨left, z, w, rest, fault, notes', rfl, reaches, passes, noted, run⟩ := hp
  rw [← Text.size_append] at reaches noted run
  rw [Text.size_append, ← Nat.add_assoc, ← Text.size_append]
  have hs : source = (before ++ left) ++ (z ++ c :: (m ++ (y ++ last) ++ after)) := by
    rw [hs]
    simp only [List.append_assoc, List.cons_append]
  have hleaf : leaf.start ≤ Text.size (before ++ left) := by
    rw [hleaf, Text.size_append]
    exact Nat.le_add_right _ _
  have hcases := hm.cases
  generalize htext : z ++ c :: (m ++ (y ++ last)) = text at reaches passes
  generalize hpassed : z ++ c :: w = passed at passes
  -- at the head of a tag or a comment only a known opening tag counts as markup
  have known {ds : List Char} (ht : text = '<' :: ds) (hz : z = []) : OpeningTag.Known v ds := by
    subst ht hz
    cases htext
    obtain ⟨_, rfl, hk⟩ | ⟨hc, _⟩ := hcases
    · exact hk
    · cases hc
  cases passes with
  | @char a rest ht hb =>
    cases z with
    | cons => simp at hpassed
    | nil =>
      cases hpassed
      cases htext
      obtain ⟨rfl, rfl, hk⟩ | ⟨rfl, inner, rfl, _⟩ := hcases
      · exact absurd hk (ht rfl)
      · exact absurd rfl (hb rfl)
  | @braces rest h =>
    obtain ⟨rfl, rfl, _⟩ | ⟨rfl, inner, rfl, hi⟩ := hcases
    · have hc : '<' ∈ ['{', '{'] := hpassed ▸ List.mem_append_right z List.mem_cons_self
      simp at hc
    · obtain rfl | rfl : z = [] ∨ z = ['{'] := by
        obtain _ | ⟨a, _ | ⟨b, z⟩⟩ := z
        · exact .inl rfl
        · cases hpassed
          exact .inr rfl
        · simp at hpassed
      · cases htext
        simp [readTemplate?_append hi] at h
      · cases htext
        simp only [List.cons_append, List.append_assoc, List.nil_append] at h run
        exact absurd run (not_run_of_template hi h)
  | @comment ds inner rest h =>
    refine .comment ⟨depth, start, cs, _, _, _, _, hr, hreach.trans reaches, h, rfl⟩ hleaf ?_ ?_
    · refine Nat.lt_add_of_pos_right (Text.size_pos fun hz => ?_)
      obtain ⟨_, _, hk, _⟩ | ⟨_, _, hk, _⟩ := (known rfl hz).read_mark
      · simp [h] at hk
      · simp [h] at hk
    · change _ < Text.size (before ++ left) + Text.size ('<' :: inner)
      have hc := c.utf8Size_pos
      rw [← hpassed]
      simp only [Text.size_append, Text.size_cons]
      omega
  | @closing ds rest tag h =>
    cases z with
    | nil =>
      obtain ⟨_, _, hk, _⟩ | ⟨_, _, hk, _⟩ := (known rfl rfl).read_mark
      · simp [h] at hk
      · simp [h] at hk
    | cons b z =>
      have hmem : c ∈ tag.text.tail := by
        rw [← hpassed]
        exact List.mem_append_right z List.mem_cons_self
      obtain ⟨hlt, hbrace⟩ := ClosingTag.mem_text h hmem
      obtain ⟨hc, _⟩ | ⟨hc, _⟩ := hcases
      · exact absurd hc hlt
      · exact absurd hc hbrace
  | unterminated h =>
    rw [← List.cons_append, ← List.append_assoc z, htext] at hs
    exact .of_unterminated hs h hpassed.symm (noted _ rfl) hleaf
  | malformed h =>
    exact .of_malformed hs h hpassed.symm (noted _ rfl) hleaf

def MarkupIn (v : Vocabulary) (source : List Char) (leaf : Span) (pos : Nat) : Prop :=
  ∃ before mark cs, source = before ++ (mark ++ cs) ∧ Text.size before = pos ∧ Opens v mark cs ∧
    leaf.start ≤ pos ∧ pos + Text.size mark ≤ leaf.stop

theorem accounted_of_mem {source cs chars : List Char} {u : Tree Region} {pos : Nat}
    (hr : Range v limit source depth start cs) (hu : u ∈ regions v limit depth start cs)
    (hp : u.label.piece = .text chars) (hm : MarkupIn v source u.label.span pos) :
    Accounted v limit source u.label.notes u.label.span pos := by
  obtain ⟨before, after, hs, rfl, hafter⟩ := hr.context
  obtain ⟨left, cs', rest, rfl, hy, hreach⟩ := (splits_regions ..).reaches hu
  obtain ⟨front, mark, tail, hs', rfl, ho, hle, hstop⟩ := hm
  rw [← Text.size_append] at hy hreach
  cases hy with
  | template => cases hp
  | element =>
    unfold treeOf at hp
    split at hp <;> cases hp
  | @prose chars rest notes hc run =>
    have hs : source = (before ++ left) ++ (chars ++ (rest ++ after)) := by
      rw [hs]
      simp only [List.append_assoc]
    obtain ⟨x, rfl, hx⟩ := Text.exists_append_of_size_le (hs.symm.trans hs') hle
    have hfit : Text.size (x ++ mark) ≤ Text.size chars := by
      change _ ≤ Text.size (before ++ left) + Text.size chars at hstop
      simp only [Text.size_append] at hstop ⊢
      omega
    rw [← List.append_assoc x] at hx
    obtain ⟨y, rfl, rfl⟩ := Text.exists_append_of_size_le hx.symm hfit
    rw [← List.append_assoc y] at ho
    have ho := ho.of_append hafter
    obtain ⟨c, m, rfl⟩ := List.exists_cons_of_ne_nil ho.ne_nil
    have hchars : x ++ c :: m ++ y ++ rest = x ++ c :: (m ++ (y ++ rest)) := by
      simp only [List.append_assoc, List.cons_append]
    rw [hchars] at run hreach hr
    have hpassed : PassedIn v _ x c (m ++ y ++ rest) rest notes :=
      run.passedIn (by rw [List.append_assoc])
    rw [List.append_assoc] at hpassed
    rw [Text.size_append (before ++ left)]
    have hwhole : source = (before ++ left) ++ (x ++ c :: (m ++ (y ++ rest)) ++ after) := by
      rw [hs]
      simp only [List.append_assoc, List.cons_append]
    exact hpassed.accounted hr hreach hwhole ho rfl

theorem exists_range_of_leaf {limits : Limits} {source : List Char} {u : Tree Region}
    (hw : limits.brokenBy? (Text.size source) = none) (hs : source ≠ [])
    (hu : u ∈ (outline v limits source).subtrees) (hc : u.children = []) :
    ∃ depth start cs, Range v limits.maxDepth source depth start cs ∧
      u ∈ regions v limits.maxDepth depth start cs := by
  obtain rfl | hu := Tree.eq_or_mem_of_mem_subtrees hu
  · refine ⟨0, 0, source, .source, ?_⟩
    simp only [outline, hw] at hc ⊢
    split at hc
    · rename_i h
      simp [h]
    · exact absurd (regions_eq_nil.mp hc) hs
  · exact exists_range_of_mem hu

end Region

namespace Document

open Region (MarkupIn Accounted)

/-- No known opening tag and no closed template in a leaf of prose is there without a reason that
shows. -/
theorem accounted_of_markup_in_prose (p : Parser) (source : String)
    (hsize : p.limits.brokenBy? source.utf8ByteSize = none)
    (hlog : p.limits.maxDiagnostics = none) {s : Tree Segment}
    (hs : s ∈ (p.parse source).root.subtrees) (hshape : s.label.shape = .text)
    (hleaf : s.children = [])
    (hcut : ∀ d ∈ (p.parse source).diagnostics, d.kind = .nestingTooDeep → d.span ≠ s.label.span)
    {pos : Nat} (hm : MarkupIn p.vocabulary source.toList s.label.span pos) :
    Accounted p.vocabulary p.limits.maxDepth source.toList (p.parse source).diagnostics
      s.label.span pos := by
  obtain ⟨u, hu, k, rfl⟩ := exists_region_of_mem hs
  rw [Tree.label_number] at hshape hcut hm ⊢
  rw [Segment.children_eq_nil] at hleaf
  have hsource : source.toList ≠ [] := by
    obtain ⟨before, mark, cs, he, _, ho, _⟩ := hm
    rw [he]
    exact List.append_ne_nil_of_right_ne_nil _ (List.append_ne_nil_of_left_ne_nil ho.ne_nil _)
  rw [← Text.size_toList] at hsize
  obtain ⟨depth, start, cs, hr, hmem⟩ := Region.exists_range_of_leaf hsize hsource hu hleaf
  obtain ⟨chars, hp⟩ | ⟨e, he⟩ := Segment.shape_ofRegion_eq_text hshape
  · apply (Region.accounted_of_mem hr hmem hp hm).imp
    intro d hd
    exact exists_report_of_note hlog hu hd
  · obtain ⟨d, hd, hk, hspan⟩ := exists_report_of_cut hlog hu he
    exact absurd hspan (hcut d hd hk)

theorem accounted_second_tag_of_line :
    MarkupIn Parser.sample.vocabulary "<p> <p>".toList ⟨0, 7⟩ 4 ∧
      Accounted Parser.sample.vocabulary 64 "<p> <p>".toList
        (Parser.sample.parse "<p> <p>").diagnostics ⟨0, 7⟩ 4 := by
  have hm : MarkupIn Parser.sample.vocabulary "<p> <p>".toList ⟨0, 7⟩ 4 :=
    ⟨['<', 'p', '>', ' '], ['<'], ['p', '>'], rfl, rfl,
      .tag ⟨['p'], ['>'], rfl, by decide, '>', rfl, .inl rfl⟩, by decide, by decide⟩
  have hspan : (Parser.sample.parse "<p> <p>").root.label.span = ⟨0, 7⟩ := by decide +kernel
  have hleaf : (Parser.sample.parse "<p> <p>").root.children = [] :=
    List.isEmpty_iff.mp (by decide +kernel)
  refine ⟨hm, ?_⟩
  rw [← hspan] at hm ⊢
  exact accounted_of_markup_in_prose Parser.sample "<p> <p>" (by decide) rfl
    (Tree.mem_subtrees_self _) (by decide +kernel) hleaf (by decide +kernel) hm

end Document

end ProseMarkup
