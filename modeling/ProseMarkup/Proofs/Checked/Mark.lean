import ProseMarkup.Checked.Mark
import ProseMarkup.Proofs.Checked.Access

namespace ProseMarkup

namespace Checked

open Text (size IsSlice)

variable {source part : List Char} {start stop pos : Nat}

theorem tagName_eq (h : IsSlice source start stop part) : tagName source start stop =
    some (match Name.read? part with
      | some (name, after) =>
        if OpeningTag.endsName after then some (.ofText start name) else none
      | none => none) := by
  rw [tagName, slice?_of h]
  simp only [Option.bind_eq_bind, Option.bind_some]
  rcases Name.read? part with _ | ⟨name, after⟩
  · rfl
  · by_cases hends : OpeningTag.endsName after
    · simp only [if_pos hends]
      rfl
    · simp only [if_neg hends]
      rfl

theorem byte?_inside {c : Char} {cs : List Char} (h : IsSlice source start stop (c :: cs)) {k : Nat}
    (hk : k < c.utf8Size) :
    ∃ b ∈ String.utf8EncodeChar c, byte? source (start + k) = some b ∧ start + k < stop := by
  have hlen : k < (String.utf8EncodeChar c).length := String.length_utf8EncodeChar c ▸ hk
  have hsize : k < size (c :: cs) := Nat.lt_of_lt_of_le hk (Nat.le_add_right _ _)
  refine ⟨(String.utf8EncodeChar c)[k], List.getElem_mem hlen, ?_, ?_⟩
  · rw [byte?_add h hsize, bytes_cons, List.getElem?_append_left hlen,
      List.getElem?_eq_getElem hlen]
  · have hstop := h.start_add
    omega

theorem byte_ne {m c : Char} {b : UInt8} (hm : IsAscii m) (hb : b ∈ String.utf8EncodeChar c)
    (hc : c ≠ m) : b ≠ m.toUInt8 := by
  rintro rfl
  exact hc ((toUInt8_mem_utf8EncodeChar hm).mp hb)

def TagEnd.of (start : Nat) : Option (List Char × List Char) → TagEnd
  | some (inside, _) => .complete (start + size inside + 1) (inside.getLast? = some '/')
  | none => .malformed

theorem complete_eq {inside rest : List Char}
    (h : IsSlice source start stop (inside ++ '>' :: rest)) :
    complete source start (start + size inside) = some (TagEnd.of start (some (inside, rest))) := by
  obtain rfl | ⟨xs, c, rfl⟩ := List.eq_nil_or_concat inside
  · rw [complete, Text.size_nil, Nat.add_zero, if_neg (Nat.lt_irrefl start)]
    rfl
  · rw [List.concat_eq_append] at h ⊢
    have hpos := c.utf8Size_pos
    have hsize : size (xs ++ [c]) = size xs + c.utf8Size := by simp
    have hlt : start < start + size (xs ++ [c]) := by omega
    have hsub : sub? (start + size (xs ++ [c])) 1 = some (start + size xs + (c.utf8Size - 1)) := by
      rw [show start + size (xs ++ [c]) = 1 + (start + size xs + (c.utf8Size - 1)) by omega,
        sub?_add]
    rw [List.append_assoc] at h
    obtain ⟨b, hb, hbyte, -⟩ := byte?_inside h.right (Nat.sub_lt hpos Nat.one_pos)
    rw [complete, if_pos hlt, hsub]
    simp only [Option.bind_eq_bind, Option.bind_some, hbyte, TagEnd.of, List.getLast?_append,
      List.getLast?_singleton, Option.some_or, Option.some.injEq]
    by_cases hc : c = '/'
    · subst hc
      rw [utf8EncodeChar_of_isAscii (by decide)] at hb
      rw [List.mem_singleton.mp hb]
      rfl
    · have hne := byte_ne (m := '/') (by decide) hb hc
      simp only [decide_eq_false hc, decide_eq_false hne]
      rfl

theorem scanPlain_skip (from' : Nat) {c : Char} {cs : List Char}
    (h : IsSlice source pos stop (c :: cs)) (hgt : c ≠ '>') (hlt : c ≠ '<') {k : Nat}
    (hk : k ≤ c.utf8Size) :
    scanPlain source from' stop pos = scanPlain source from' stop (pos + k) := by
  induction k with
  | zero => rfl
  | succ k ih =>
    obtain ⟨b, hb, hbyte, hstop⟩ := byte?_inside h hk
    rw [ih (Nat.le_of_lt hk), scanPlain, if_pos hstop, hbyte]
    simp only [Option.bind_eq_bind, Option.bind_some,
      if_neg (byte_ne (m := '>') (by decide) hb hgt),
      if_neg (byte_ne (m := '<') (by decide) hb hlt)]
    rfl

theorem scanPlain_eq {past : List Char} (h : IsSlice source start stop (past ++ part)) :
    scanPlain source start stop (start + size past) = some (TagEnd.of start
      ((OpeningTag.scanPlain? part).map fun (inside, rest) => (past ++ inside, rest))) := by
  induction part generalizing past with
  | nil =>
    rw [scanPlain, if_neg (Nat.not_lt.mpr (Nat.le_of_eq h.right.eq_of_nil.symm))]
    rfl
  | cons c cs ih =>
    have hbyte := byte?_of h.right
    have hlt : start + size past < stop := h.right.lt (List.cons_ne_nil c cs)
    by_cases hgt : c = '>'
    · subst hgt
      rw [scanPlain, if_pos hlt, hbyte]
      simp only [Option.bind_eq_bind, Option.bind_some,
        if_pos ((lead_eq_iff (m := '>') (by decide)).mpr rfl)]
      rw [complete_eq h, OpeningTag.scanPlain?, if_pos rfl]
      simp only [Option.map_some, List.append_nil]
    · by_cases hl : c = '<'
      · subst hl
        rw [scanPlain, if_pos hlt, hbyte]
        rfl
      · have hskip := scanPlain_skip start h.right hgt hl (Nat.le_refl _)
        have hassoc : past ++ c :: cs = (past ++ [c]) ++ cs := by simp
        have hsize : start + size past + c.utf8Size = start + size (past ++ [c]) := by
          simp [Nat.add_assoc]
        rw [hskip, hsize, ih (hassoc ▸ h), OpeningTag.scanPlain?, if_neg hgt, if_neg hl,
          Option.map_map]
        congr 3
        funext x
        obtain ⟨inside, rest⟩ := x
        simp

theorem scanQuoted_skip (from' : Nat) (quote : Option Char) {c : Char} {cs : List Char}
    (h : IsSlice source pos stop (c :: cs)) (hq : ∀ q ∈ quote, IsAscii q ∧ c ≠ q)
    (hc : quote = none → c ∉ ['"', '\'', '>', '<']) {k : Nat} (hk : k ≤ c.utf8Size) :
    scanQuoted source from' stop (quote.map Char.toUInt8) pos =
      scanQuoted source from' stop (quote.map Char.toUInt8) (pos + k) := by
  induction k with
  | zero => rfl
  | succ k ih =>
    obtain ⟨b, hb, hbyte, hstop⟩ := byte?_inside h hk
    rw [ih (Nat.le_of_lt hk), scanQuoted, if_pos hstop, hbyte]
    simp only [Option.bind_eq_bind, Option.bind_some]
    cases quote with
    | some q =>
      obtain ⟨hq, hne⟩ := hq q rfl
      simp only [Option.map_some, if_neg (byte_ne hq hb hne)]
      rfl
    | none =>
      have hne := hc rfl
      simp only [List.mem_cons, List.not_mem_nil, or_false, not_or] at hne
      obtain ⟨hdouble, hsingle, hgt, hlt⟩ := hne
      have hquote : ¬(b = '"'.toUInt8 ∨ b = '\''.toUInt8) := not_or.mpr
        ⟨byte_ne (by decide) hb hdouble, byte_ne (by decide) hb hsingle⟩
      simp only [Option.map_none, if_neg hquote, if_neg (byte_ne (m := '>') (by decide) hb hgt),
        if_neg (byte_ne (m := '<') (by decide) hb hlt)]
      rfl

def quoteBehind (quote : Option Char) (c : Char) : Option Char :=
  match quote with
  | some q => if c = q then none else some q
  | none => if c = '"' || c = '\'' then some c else none

theorem scan_cons {quote : Option Char} {c : Char} (hmark : quote = none → c ∉ ['>', '<'])
    (cs : List Char) : OpeningTag.scan quote (c :: cs) =
      (OpeningTag.scan (quoteBehind quote c) cs).push c := by
  cases quote with
  | some q => rfl
  | none =>
    have hc := hmark rfl
    simp only [List.mem_cons, List.not_mem_nil, or_false, not_or] at hc
    rw [OpeningTag.scan, if_neg hc.1, if_neg hc.2]
    rfl

theorem isAscii_quoteBehind {quote : Option Char} (h : ∀ q ∈ quote, IsAscii q) (c : Char) :
    ∀ q ∈ quoteBehind quote c, IsAscii q := by
  intro q hq
  cases quote with
  | some q' =>
    rw [quoteBehind] at hq
    split at hq
    · cases hq
    · exact h q hq
  | none =>
    rw [quoteBehind] at hq
    split at hq
    · rename_i hc
      obtain rfl := Option.some.inj hq
      obtain rfl | rfl : c = '"' ∨ c = '\'' := by simpa using hc
      · decide
      · decide
    · cases hq

theorem scanQuoted_cons (from' : Nat) {quote : Option Char} {c : Char} {cs : List Char}
    (h : IsSlice source pos stop (c :: cs)) (hq : ∀ q ∈ quote, IsAscii q)
    (hmark : quote = none → c ∉ ['>', '<']) :
    scanQuoted source from' stop (quote.map Char.toUInt8) pos =
      scanQuoted source from' stop ((quoteBehind quote c).map Char.toUInt8)
        (pos + c.utf8Size) := by
  have hlt : pos < stop := h.lt (List.cons_ne_nil c cs)
  cases quote with
  | some q =>
    have hqa : IsAscii q := hq q rfl
    rw [quoteBehind]
    split
    · rename_i hc
      subst hc
      rw [scanQuoted, if_pos hlt, byte?_of h, utf8Size_of_isAscii hqa]
      simp only [Option.bind_eq_bind, Option.bind_some, Option.map_some,
        if_pos ((lead_eq_iff hqa).mpr rfl)]
      rfl
    · rename_i hc
      exact scanQuoted_skip from' (some q) h (by rintro _ ⟨⟩; exact ⟨hqa, hc⟩)
        (fun h => absurd h (Option.some_ne_none q)) (Nat.le_refl _)
  | none =>
    rw [quoteBehind]
    split
    · rename_i hc
      have hc : c = '"' ∨ c = '\'' := by simpa using hc
      have hca : IsAscii c := by obtain rfl | rfl := hc <;> decide
      have hlead : lead c = '"'.toUInt8 ∨ lead c = '\''.toUInt8 :=
        hc.imp (lead_eq_iff (by decide)).mpr (lead_eq_iff (by decide)).mpr
      rw [scanQuoted, if_pos hlt, byte?_of h, utf8Size_of_isAscii hca]
      simp only [Option.bind_eq_bind, Option.bind_some, Option.map_none, if_pos hlead]
      rw [(lead_eq_iff hca).mpr rfl]
      rfl
    · rename_i hc
      have hnot : c ∉ ['"', '\'', '>', '<'] := by
        have hquote : c ≠ '"' ∧ c ≠ '\'' := by simpa using hc
        have hend := hmark rfl
        simp only [List.mem_cons, List.not_mem_nil, or_false, not_or] at hend ⊢
        exact ⟨hquote.1, hquote.2, hend⟩
      exact scanQuoted_skip from' none h (by rintro _ ⟨⟩) (fun _ => hnot) (Nat.le_refl _)

def TagEnd.ofEnding (start : Nat) (plain : Option (List Char × List Char)) :
    OpeningTag.Ending → TagEnd
  | .found inside rest => .of start (some (inside, rest))
  | .inQuotes => .of start plain
  | .missing => .malformed

theorem foldr_push_found (past inside rest : List Char) :
    past.foldr OpeningTag.Ending.push (.found inside rest) = .found (past ++ inside) rest := by
  induction past with
  | nil => rfl
  | cons c past ih => rw [List.foldr_cons, ih]; rfl

theorem foldr_push_inQuotes (past : List Char) :
    past.foldr OpeningTag.Ending.push .inQuotes = .inQuotes := by
  induction past with
  | nil => rfl
  | cons c past ih => rw [List.foldr_cons, ih]; rfl

theorem foldr_push_missing (past : List Char) :
    past.foldr OpeningTag.Ending.push .missing = .missing := by
  induction past with
  | nil => rfl
  | cons c past ih => rw [List.foldr_cons, ih]; rfl

theorem scanQuoted_eq {whole : List Char} (h : IsSlice source start stop whole)
    {past : List Char} (quote : Option Char) (hq : ∀ q ∈ quote, IsAscii q)
    (hw : past ++ part = whole) :
    scanQuoted source start stop (quote.map Char.toUInt8) (start + size past) =
      some (TagEnd.ofEnding start (OpeningTag.scanPlain? whole)
        (past.foldr OpeningTag.Ending.push (OpeningTag.scan quote part))) := by
  induction part generalizing past quote with
  | nil =>
    have hstop := h.start_add
    rw [← hw, List.append_nil] at hstop
    rw [scanQuoted, if_neg (Nat.not_lt.mpr (Nat.le_of_eq hstop.symm))]
    cases quote with
    | none =>
      rw [show OpeningTag.scan none [] = .missing from rfl, foldr_push_missing]
      rfl
    | some q =>
      have hnil : IsSlice source start stop ([] ++ whole) := h
      have hplain := scanPlain_eq hnil
      rw [show OpeningTag.scan (some q) [] = .inQuotes from rfl, foldr_push_inQuotes]
      rw [Text.size_nil, Nat.add_zero] at hplain
      refine hplain.trans ?_
      rcases OpeningTag.scanPlain? whole with _ | ⟨inside, rest⟩ <;> rfl
  | cons c cs ih =>
    have hpart : IsSlice source (start + size past) stop (c :: cs) := by
      rw [← hw] at h
      exact h.right
    by_cases hmark : quote = none → c ∉ ['>', '<']
    · have hnext : past ++ [c] ++ cs = whole := by rw [← hw, List.append_assoc]; rfl
      have hoffset : start + size past + c.utf8Size = start + size (past ++ [c]) := by
        simp [Nat.add_assoc]
      have hscan := ih (quoteBehind quote c) (isAscii_quoteBehind hq c) hnext
      rw [List.foldr_append, ← hoffset] at hscan
      rw [scanQuoted_cons start hpart hq hmark, scan_cons hmark]
      exact hscan
    · obtain ⟨rfl, hc⟩ := Classical.not_imp.mp hmark
      have hlt : start + size past < stop := hpart.lt (List.cons_ne_nil c cs)
      rw [scanQuoted, if_pos hlt, byte?_of hpart]
      obtain rfl | rfl : c = '>' ∨ c = '<' := by simpa using not_not.mp hc
      · rw [OpeningTag.scan, if_pos rfl, foldr_push_found, List.append_nil]
        exact complete_eq (hw.symm ▸ h)
      · rw [show OpeningTag.scan none ('<' :: cs) = .missing from rfl, foldr_push_missing]
        rfl

/-- The end of a tag is where the reader of the tag cuts the text. -/
theorem tagEnd_eq (h : IsSlice source start stop part) :
    tagEnd source start stop = some (.of start (OpeningTag.splitEnd? part)) := by
  have hnil : [] ++ part = part := rfl
  have hscan := scanQuoted_eq h none nofun hnil
  rw [tagEnd, OpeningTag.splitEnd?]
  refine hscan.trans ?_
  rw [List.foldr_nil]
  rcases OpeningTag.scan none part with ⟨inside, rest⟩ | _ | _ <;> rfl

theorem closingTag_eq (h : IsSlice source pos stop ('<' :: '/' :: part)) :
    closingTag source pos stop = some ((ClosingTag.read? part).map fun (tag, _) =>
      (Span.ofText (pos + 2) tag.name, pos + size tag.text)) := by
  have hslice : IsSlice source (pos + 2) stop part := by
    have happend : IsSlice source pos stop (['<', '/'] ++ part) := h
    exact happend.right
  rw [closingTag, slice?_of hslice, ClosingTag.read?]
  dsimp only
  rcases Name.read? part with _ | ⟨name, after⟩
  · rfl
  · have hsplit : after.takeWhile Text.isBlank ++ after.dropWhile Text.isBlank = after :=
      List.takeWhile_append_dropWhile
    have hsize : size after =
        size (after.takeWhile Text.isBlank) + size (after.dropWhile Text.isBlank) := by
      rw [← Text.size_append, hsplit]
    have hsub : sub? (size after) (size (Text.trimStart after)) =
        some (size (after.takeWhile Text.isBlank)) := by
      rw [Text.trimStart, hsize, Nat.add_comm, sub?_add]
    have hbehind : IsSlice after (size (after.takeWhile Text.isBlank)) (size after)
        (after.dropWhile Text.isBlank) :=
      ⟨after.takeWhile Text.isBlank, [], by rw [List.append_nil, hsplit], rfl, hsize.symm⟩
    simp only [hsub, Option.bind_eq_bind, Option.bind_some, slice?_of hbehind]
    split
    · rename_i hhead
      obtain ⟨rest, hrest⟩ := List.head?_eq_some_iff.mp hhead
      simp only [hrest, Option.map_some]
      congr 3
      simp only [ClosingTag.text, Span.ofText, List.cons_append, Text.size_cons, Text.size_append,
        Text.size_nil, utf8Size_of_isAscii (show IsAscii '<' by decide),
        utf8Size_of_isAscii (show IsAscii '/' by decide),
        utf8Size_of_isAscii (show IsAscii '>' by decide)]
      omega
    · rename_i hhead
      split
      · rename_i hrest
        exact absurd (by rw [hrest]; rfl) hhead
      · rfl

theorem commentEnd_eq {cs inner rest : List Char}
    (h : IsSlice source pos stop ('<' :: '!' :: '-' :: '-' :: cs))
    (hread : Mark.read ('!' :: '-' :: '-' :: cs) = .comment inner rest) :
    commentEnd ('<' :: '!' :: '-' :: '-' :: cs) pos stop = pos + size ('<' :: inner) := by
  have hfind : find? ['-', '-', '>'] ('<' :: '!' :: '-' :: '-' :: cs) =
      (find? ['-', '-', '>'] ('-' :: '-' :: cs)).map (2 + ·) := by
    rw [find?, if_neg (by simp), find?, if_neg (by simp), Option.map_map]
    congr 1
    funext n
    change 1 + (1 + n) = 2 + n
    omega
  rw [commentEnd, hfind]
  rw [Mark.read] at hread
  split at hread
  · rename_i past rest' hsplit
    obtain ⟨n, hn, hsize⟩ := find?_of_splitAfter? hsplit
    cases hread
    rw [hn]
    change pos + (2 + n) + 3 = pos + (1 + (1 + size past))
    rw [← hsize]
    change _ = pos + (1 + (1 + (n + 3)))
    omega
  · rename_i hsplit
    cases hread
    rw [find?_eq_none_of hsplit]
    exact h.start_add.symm

/-- What the scans find at the `<` at `pos`, where `cs` is what follows it in the range, for each
mark that can be read there. -/
inductive Sight (source : List Char) (pos stop : Nat) (cs : List Char) : Mark → Prop
  | comment {inner rest : List Char} (h : ['<', '!', '-', '-'] <+: '<' :: cs)
      (hend : commentEnd ('<' :: cs) pos stop = pos + size ('<' :: inner)) :
      Sight source pos stop cs (.comment inner rest)
  | closing {tag : ClosingTag} {rest : List Char} (hc : ¬['<', '!', '-', '-'] <+: '<' :: cs)
      (h : ['<', '/'] <+: '<' :: cs)
      (htag : closingTag source pos stop =
        some (some (.ofText (pos + 2) tag.name, pos + size tag.text)))
      (hname : slice? source (pos + 2) (pos + 2 + size tag.name) = some tag.name) :
      Sight source pos stop cs (.closing tag rest)
  | noClosing (hc : ¬['<', '!', '-', '-'] <+: '<' :: cs) (h : ['<', '/'] <+: '<' :: cs)
      (htag : closingTag source pos stop = some none) : Sight source pos stop cs .plain
  | opening {tag : OpeningTag} {rest : List Char} (hc : ¬['<', '!', '-', '-'] <+: '<' :: cs)
      (h : ¬['<', '/'] <+: '<' :: cs)
      (htag : tagName source (pos + 1) stop = some (some (.ofText (pos + 1) tag.name)))
      (hname : slice? source (pos + 1) (pos + 1 + size tag.name) = some tag.name)
      (hend : tagEnd source (pos + 1 + size tag.name) stop =
        some (.complete (pos + size tag.text) tag.selfClosing)) :
      Sight source pos stop cs (.opening tag rest)
  | unclosed {name rest : List Char} (hc : ¬['<', '!', '-', '-'] <+: '<' :: cs)
      (h : ¬['<', '/'] <+: '<' :: cs)
      (htag : tagName source (pos + 1) stop = some (some (.ofText (pos + 1) name)))
      (hname : slice? source (pos + 1) (pos + 1 + size name) = some name)
      (hend : tagEnd source (pos + 1 + size name) stop = some .malformed) :
      Sight source pos stop cs (.unclosed name rest)
  | plain (hc : ¬['<', '!', '-', '-'] <+: '<' :: cs) (h : ¬['<', '/'] <+: '<' :: cs)
      (htag : tagName source (pos + 1) stop = some none) : Sight source pos stop cs .plain

theorem sight_readOpening {cs : List Char} (h : IsSlice source pos stop ('<' :: cs))
    (hc : ¬['<', '!', '-', '-'] <+: '<' :: cs) (hs : ¬['<', '/'] <+: '<' :: cs) :
    Sight source pos stop cs (Mark.readOpening cs) := by
  have happend : IsSlice source pos stop (['<'] ++ cs) := h
  have hslice : IsSlice source (pos + 1) stop cs := happend.right
  have htag := tagName_eq hslice
  unfold Mark.readOpening
  cases hname : Name.read? cs with
  | none =>
    rw [hname] at htag
    exact .plain hc hs htag
  | some x =>
    obtain ⟨name, after⟩ := x
    obtain rfl := Name.append_of_read? hname
    rw [hname] at htag
    dsimp only at htag ⊢
    have hend := tagEnd_eq hslice.right
    by_cases hends : OpeningTag.endsName after
    · rw [if_pos hends] at htag ⊢
      cases hsplit : OpeningTag.splitEnd? after with
      | none =>
        rw [hsplit] at hend
        exact .unclosed hc hs htag (slice?_of hslice.left) hend
      | some x =>
        obtain ⟨inside, rest⟩ := x
        rw [hsplit] at hend
        refine .opening hc hs htag (slice?_of hslice.left) (hend.trans ?_)
        simp only [TagEnd.of, OpeningTag.text, OpeningTag.selfClosing, List.cons_append,
          Text.size_cons, Text.size_append, Text.size_nil,
          utf8Size_of_isAscii (show IsAscii '<' by decide),
          utf8Size_of_isAscii (show IsAscii '>' by decide)]
        congr 2
        omega
    · rw [if_neg hends] at htag ⊢
      exact .plain hc hs htag

/-- At a mark the scans find what the reader of marks reads. -/
theorem sight_read {cs : List Char} (h : IsSlice source pos stop ('<' :: cs)) :
    Sight source pos stop cs (Mark.read cs) := by
  by_cases hc : ['<', '!', '-', '-'] <+: '<' :: cs
  · obtain ⟨ds, rfl⟩ : ∃ ds, cs = '!' :: '-' :: '-' :: ds := by
      obtain ⟨ds, hds⟩ := hc
      exact ⟨ds, (List.cons.inj hds).2.symm⟩
    have hread : ∃ inner rest, Mark.read ('!' :: '-' :: '-' :: ds) = .comment inner rest := by
      rw [Mark.read]
      split
      · exact ⟨_, _, rfl⟩
      · exact ⟨_, _, rfl⟩
    obtain ⟨inner, rest, hread⟩ := hread
    rw [hread]
    exact .comment hc (commentEnd_eq h hread)
  · by_cases hs : ['<', '/'] <+: '<' :: cs
    · obtain ⟨ds, rfl⟩ : ∃ ds, cs = '/' :: ds := by
        obtain ⟨ds, hds⟩ := hs
        exact ⟨ds, (List.cons.inj hds).2.symm⟩
      have htag := closingTag_eq h
      rw [Mark.read]
      cases hread : ClosingTag.read? ds with
      | none =>
        rw [hread] at htag
        exact .noClosing hc hs htag
      | some x =>
        obtain ⟨tag, rest⟩ := x
        rw [hread] at htag
        refine .closing hc hs htag ?_
        have happend := ClosingTag.text_append_of_read? hread
        have hsplit :
            '<' :: '/' :: ds = ['<', '/'] ++ (tag.name ++ (tag.gap ++ ['>'] ++ rest)) := by
          rw [← happend, ClosingTag.text]
          simp
        rw [hsplit] at h
        exact slice?_of h.right.left
    · have hread : Mark.read cs = Mark.readOpening cs := by
        unfold Mark.read
        split
        · rename_i ds
          exact absurd ⟨ds, rfl⟩ hc
        · rename_i ds
          exact absurd ⟨ds, rfl⟩ hs
        · rfl
      rw [hread]
      exact sight_readOpening h hc hs

end Checked

end ProseMarkup
