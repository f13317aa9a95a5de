import ProseMarkup.Proofs.LetterCase
import ProseMarkup.Proofs.Prose
import ProseMarkup.Proofs.Ranges

namespace ProseMarkup

open Text (IsSign lower_eq_iff fold_cons fold_append fold_eq_cons)

def Diagnostic.mute (d : Diagnostic) : Diagnostic :=
  { d with message := "" }

theorem Span.ofText_fold (start : Nat) (cs : List Char) :
    ofText start (Text.fold cs) = ofText start cs := by
  rw [ofText, ofText, Text.size_fold]

namespace Element

def fold (e : Element) : Element :=
  ⟨e.cls, e.opening.fold, e.enclosed.map (.map Text.fold ClosingTag.fold)⟩

theorem opening_fold (e : Element) : e.fold.opening = e.opening.fold := rfl

theorem text_fold (e : Element) : e.fold.text = Text.fold e.text := by
  obtain ⟨cls, opening, _ | ⟨body, closing⟩⟩ := e
  · simp only [text, tail, fold, Option.map_none, OpeningTag.text_fold, fold_append]
    rfl
  · simp only [text, tail, fold, Option.map_some, Prod.map, OpeningTag.text_fold,
      ClosingTag.text_fold, fold_append]

theorem fold_fold (e : Element) : e.fold.fold = e.fold := by
  obtain ⟨cls, opening, _ | ⟨body, closing⟩⟩ := e
  · simp only [fold, OpeningTag.fold, Option.map_none, Text.fold_fold]
  · simp only [fold, OpeningTag.fold, ClosingTag.fold, Option.map_some, Prod.map, Text.fold_fold]

variable {v : Vocabulary} (hv : v.CaseBlind)

include hv

theorem read?_fold (cls : TagClass) (tag : OpeningTag) (cs : List Char) :
    read? v cls tag.fold (Text.fold cs) = (read? v cls tag cs).map (.map fold Text.fold) := by
  have hfind : Enclosure.find? v tag.fold.name (Text.fold cs) = _ :=
    Enclosure.find?_fold hv tag.name cs
  rw [read?, read?, tag.selfClosing_fold, hfind]
  split
  · rfl
  · rw [Option.map_map, Option.map_map]
    rfl

theorem isOneOf_fold (name body : List Char) :
    isOneOf v (Text.fold name) (Text.fold body) = isOneOf v name body := by
  rw [isOneOf, isOneOf, Text.trim_fold]
  cases Text.trim body with
  | nil => rfl
  | cons c cs =>
    by_cases hc : c = '<'
    · subst hc
      have hread := Mark.read_fold cs
      have hlt : Text.fold ('<' :: cs) = '<' :: Text.fold cs := rfl
      cases hm : Mark.read cs with
      | opening tag rest =>
        have hsame : Text.sameName tag.fold.name (Text.fold name) = _ :=
          Text.sameName_fold tag.name name
        have hempty (cs : List Char) : (Text.fold cs).isEmpty = cs.isEmpty := List.isEmpty_map
        have hfind : (Enclosure.find? v (Text.fold name) (Text.fold rest)).any (·.rest.isEmpty) =
            (Enclosure.find? v name rest).any (·.rest.isEmpty) := by
          rw [Enclosure.find?_fold hv, Option.any_map]
          exact congrArg (Option.any · _) (funext fun e => hempty e.rest)
        rw [hm, Mark.fold] at hread
        simp only [hlt, hread, hm, hsame, tag.selfClosing_fold, hempty, hfind]
      | comment | closing | unclosed | plain =>
        rw [hm, Mark.fold] at hread
        simp only [hlt, hread, hm]
    · have hc' := mt (lower_eq_iff (x := '<') (by decide) c).mp hc
      simp [fold_cons, hc, hc']

theorem wrapsItself_fold (e : Element) : e.fold.wrapsItself v = e.wrapsItself v := by
  obtain ⟨_ | _, opening, _ | ⟨body, closing⟩⟩ := e
  · rfl
  · exact isOneOf_fold hv opening.name body
  · rfl
  · rfl

theorem markup_fold (e : Element) : e.fold.markup v = Text.fold (e.markup v) := by
  obtain ⟨_ | _, opening, _ | ⟨body, closing⟩⟩ := e
  · rfl
  · have hone := isOneOf_fold hv opening.name body
    change (if isOneOf v (Text.fold opening.name) (Text.fold body) then [] else Text.fold body) = _
    rw [hone, markup, apply_ite Text.fold]
    rfl
  · rfl
  · rfl

end Element

def ProseFault.fold : ProseFault → ProseFault
  | malformed name => malformed (Text.fold name)
  | unterminated tag => unterminated tag.fold
  | unmatched tag => unmatched tag.fold

theorem ProseFault.diagnostic_fold (f : ProseFault) (start : Nat) :
    (f.fold.diagnostic start).mute = (f.diagnostic start).mute := by
  cases f with
  | malformed name =>
    have hspan : Span.ofText start ('<' :: Text.fold name) = .ofText start ('<' :: name) :=
      Span.ofText_fold start ('<' :: name)
    simp only [fold, diagnostic, hspan]
    rfl
  | unterminated tag =>
    simp only [fold, diagnostic, OpeningTag.text_fold, Span.ofText_fold]
    rfl
  | unmatched tag =>
    simp only [fold, diagnostic, ClosingTag.text_fold, Span.ofText_fold]
    rfl

theorem readTemplate?_fold (cs : List Char) :
    readTemplate? (Text.fold cs) = (readTemplate? cs).map (.map Text.fold Text.fold) := by
  fun_induction readTemplate? cs with
  | case1 => rfl
  | case2 => rfl
  | case3 => rfl
  | case4 cs => rfl
  | case5 c cs hlt hopen hclose ih =>
    have hlt' := mt (lower_eq_iff (x := '<') (by decide) c).mp hlt
    rw [fold_cons, readTemplate?_cons hlt', ih, Option.map_map, Option.map_map]
    · rfl
    · intro hc hhead
      obtain ⟨ds, hds⟩ := List.head?_eq_some_iff.mp hhead
      obtain ⟨after, rfl, -⟩ := (fold_eq_cons (by decide)).mp hds
      exact hopen after ((lower_eq_iff (by decide) c).mp hc) rfl
    · intro hc hhead
      obtain ⟨ds, hds⟩ := List.head?_eq_some_iff.mp hhead
      obtain ⟨after, rfl, -⟩ := (fold_eq_cons (by decide)).mp hds
      exact hclose after ((lower_eq_iff (by decide) c).mp hc) rfl

namespace Head

def fold : Head → Head
  | prose passed fault rest => prose (Text.fold passed) (fault.map ProseFault.fold) (Text.fold rest)
  | template inner rest => template (Text.fold inner) (Text.fold rest)
  | element e rest => element e.fold (Text.fold rest)

theorem passLine_fold (past : List Char) (fault : ProseFault) (cs : List Char) :
    passLine (Text.fold past) fault.fold (Text.fold cs) = (passLine past fault cs).fold := by
  simp only [passLine, Text.splitLine_fold, Prod.map, fold, fold_append, Option.map_some]

variable {v : Vocabulary} (hv : v.CaseBlind)

include hv

theorem readMark_fold (cs : List Char) : readMark v (Text.fold cs) = (readMark v cs).fold := by
  rw [readMark, readMark, Mark.read_fold]
  cases Mark.read cs with
  | comment inner rest => rfl
  | closing tag rest =>
    simp only [Mark.fold]
    rw [show (ClosingTag.fold tag).name = Text.fold tag.name from rfl, hv tag.name]
    split
    · rw [ClosingTag.text_fold]
      rfl
    · rfl
  | opening tag rest =>
    simp only [Mark.fold, Element.read?_fold hv]
    rw [show (OpeningTag.fold tag).name = Text.fold tag.name from rfl, hv tag.name]
    cases v.classify (.ofList tag.name) with
    | none => rfl
    | some cls =>
      dsimp only
      cases Element.read? v cls tag rest with
      | none =>
        rw [OpeningTag.text_fold]
        exact passLine_fold tag.text (.unterminated tag) rest
      | some x => rfl
  | unclosed name rest =>
    simp only [Mark.fold, hv name]
    split
    · exact passLine_fold ('<' :: name) (.malformed name) rest
    · rfl
  | plain => rfl

theorem read_fold (cs : List Char) : read v (Text.fold cs) = (read v cs).fold := by
  cases cs with
  | nil => rfl
  | cons c cs =>
    by_cases hlt : c = '<'
    · subst hlt
      exact readMark_fold hv cs
    · by_cases hopen : c = '{' ∧ ∃ ds, cs = '{' :: ds
      · obtain ⟨rfl, ds, rfl⟩ := hopen
        change read v ('{' :: '{' :: Text.fold ds) = _
        rw [read, readTemplate?_fold, read]
        cases readTemplate? ds with
        | none => rfl
        | some x => rfl
      · have char {c : Char} {cs : List Char} (hlt : c ≠ '<')
            (hopen : ¬(c = '{' ∧ ∃ ds, cs = '{' :: ds)) :
            read v (c :: cs) = .prose [c] none cs :=
          read.eq_4 v c cs (fun ds hc hcs => hopen ⟨hc, ds, hcs⟩) hlt
        rw [fold_cons, char hlt hopen, char]
        · rfl
        · exact mt (lower_eq_iff (by decide) c).mp hlt
        · rintro ⟨hc, ds, hds⟩
          obtain ⟨after, rfl, -⟩ := (fold_eq_cons (by decide)).mp hds
          exact hopen ⟨(lower_eq_iff (by decide) c).mp hc, after, rfl⟩

end Head

def Piece.fold : Piece → Piece
  | text chars => text (Text.fold chars)
  | cut e => cut e.fold
  | template inner => template (Text.fold inner)
  | element e => element e.fold

theorem Piece.chars_fold (p : Piece) : p.fold.chars = Text.fold p.chars := by
  cases p with
  | text chars => rfl
  | cut e => exact e.text_fold
  | template inner =>
    simp only [fold, chars, fold_cons, fold_append]
    rfl
  | element e => exact e.text_fold

namespace Region

def fold (r : Region) : Region :=
  ⟨r.start, r.piece.fold, r.notes.map Diagnostic.mute⟩

theorem chars_fold (r : Region) : r.fold.chars = Text.fold r.chars :=
  r.piece.chars_fold

theorem span_fold (r : Region) : r.fold.span = r.span := by
  rw [span, span, chars_fold]
  exact Span.ofText_fold r.start r.chars

theorem prose_fold (start : Nat) (chars : List Char) (notes : List Diagnostic)
    (ts : List (Tree Region)) :
    Tree.mapAll fold (prose start chars notes ts) =
      prose start (Text.fold chars) (notes.map Diagnostic.mute) (Tree.mapAll fold ts) := by
  obtain _ | ⟨⟨⟨_, piece, notes'⟩, _ | ⟨u, us⟩⟩, ts⟩ := ts
  · rfl
  · cases piece with
    | text =>
      simp only [prose, Tree.map, Tree.mapAll, fold, Piece.fold, fold_append, List.map_append]
    | cut | template | element => rfl
  · cases piece <;> rfl

theorem fold_ofTemplate (start : Nat) (inner : List Char) :
    (ofTemplate start (Text.fold inner)).fold = (ofTemplate start inner).fold := by
  simp only [ofTemplate, fold, Piece.fold, Text.fold_fold]

theorem fold_ofCut (limit start : Nat) (e : Element) :
    (ofCut limit start e.fold).fold = (ofCut limit start e).fold := by
  simp only [ofCut, fold, Piece.fold, Element.fold_fold, Element.text_fold, Span.ofText_fold]
  rfl

variable {v : Vocabulary} (hv : v.CaseBlind)

include hv

theorem fold_ofElement (start : Nat) (e : Element) :
    (ofElement v start e.fold).fold = (ofElement v start e).fold := by
  simp only [ofElement, fold, Piece.fold, Element.fold_fold, Element.wrapsItself_fold hv,
    Element.opening_fold, OpeningTag.text_fold, Span.ofText_fold]
  split
  · rfl
  · rfl

theorem regions_fold (limit depth start : Nat) (cs : List Char) :
    Tree.mapAll fold (regions v limit depth start (Text.fold cs)) =
      Tree.mapAll fold (regions v limit depth start cs) := by
  fun_induction regions v limit depth start cs with
  | case1 => rw [show Text.fold [] = [] from rfl, regions_nil]
  | case2 depth start cs hcs passed fault rest h _ ih =>
    have h' : Head.read v (Text.fold cs) =
        .prose (Text.fold passed) (fault.map ProseFault.fold) (Text.fold rest) := by
      rw [Head.read_fold hv, h]
      rfl
    have hnotes :
        ((fault.map ProseFault.fold).toList.map (·.diagnostic start)).map Diagnostic.mute =
          (fault.toList.map (·.diagnostic start)).map Diagnostic.mute := by
      cases fault with
      | none => rfl
      | some f => exact congrArg (fun d => [d]) (f.diagnostic_fold start)
    rw [regions_of_prose (mt Text.fold_eq_nil.mp hcs) h', prose_fold, prose_fold, Text.size_fold,
      ih, hnotes, Text.fold_fold]
  | case3 depth start cs hcs inner rest h _ r ih =>
    have h' : Head.read v (Text.fold cs) = .template (Text.fold inner) (Text.fold rest) := by
      rw [Head.read_fold hv, h]
      rfl
    have hsize : Text.size (Piece.template (Text.fold inner)).chars =
        Text.size (Piece.template inner).chars := by
      rw [← Text.size_fold (Piece.template inner).chars, ← Piece.chars_fold]
      rfl
    rw [regions_of_template h', hsize, Tree.mapAll, Tree.mapAll]
    exact congrArg₂ List.cons (congrArg (Tree.node · []) (fold_ofTemplate start inner)) ih
  | case4 depth start cs hcs e rest h _ _ t ihm ih =>
    have h' : Head.read v (Text.fold cs) = .element e.fold (Text.fold rest) := by
      rw [Head.read_fold hv, h]
      rfl
    rw [regions_of_element h', Element.text_fold, Text.size_fold, Tree.mapAll, Tree.mapAll, ih]
    congr 1
    rw [treeOf]
    by_cases hd : depth < limit
    · simp only [t, hd, dif_pos, if_pos, Tree.map, fold_ofElement hv, Element.opening_fold,
        OpeningTag.text_fold, Text.size_fold, Element.markup_fold hv, ihm]
    · simp only [t, hd, dif_neg, if_neg, not_false_eq_true, Tree.map, Tree.mapAll, fold_ofCut]

theorem outline_fold (limits : Limits) (source : List Char) :
    (outline v limits (Text.fold source)).map fold = (outline v limits source).map fold := by
  have hroot (notes : List Diagnostic) : fold ⟨0, .text (Text.fold source), notes⟩ =
      fold ⟨0, .text source, notes⟩ := by
    simp only [fold, Piece.fold, Text.fold_fold]
  have hregions := regions_fold hv limits.maxDepth 0 0 source
  rw [outline, outline, Text.size_fold]
  cases limits.brokenBy? (Text.size source) with
  | some limit => exact congrArg (Tree.node · []) (hroot _)
  | none =>
    dsimp only
    -- both texts have as many regions, so both have one region as their root or neither has
    generalize regions v limits.maxDepth 0 0 (Text.fold source) = ts' at hregions
    generalize regions v limits.maxDepth 0 0 source = ts at hregions
    obtain _ | ⟨t', _ | ⟨u', ts'⟩⟩ := ts' <;> obtain _ | ⟨t, _ | ⟨u, ts⟩⟩ := ts <;>
      simp only [Tree.mapAll, List.cons.injEq, reduceCtorEq, and_true, and_false] at hregions
    · exact congrArg (Tree.node · []) (hroot [])
    · exact hregions
    · simp only [Tree.map, Tree.mapAll, hroot, hregions]

end Region

end ProseMarkup
