import ProseMarkup.Proofs.Agreement
import ProseMarkup.Proofs.Arrangement
import ProseMarkup.Proofs.Depth
import ProseMarkup.Proofs.Extents

namespace ProseMarkup

namespace Tree

variable {α : Type} {p : α → Bool}

theorem exists_of_deepestIn?_eq_some {ts : List (Tree α)} {u : Tree α}
    (h : deepestIn? p ts = some u) : ∃ c ∈ ts, p c.label = true ∧ u = c.deepest p := by
  induction ts with
  | nil => cases h
  | cons t ts ih =>
    rw [deepestIn?] at h
    split at h
    · exact ⟨t, List.mem_cons_self, ‹_›, (Option.some.inj h).symm⟩
    · obtain ⟨c, hc, hu⟩ := ih h
      exact ⟨c, List.mem_cons_of_mem t hc, hu⟩

theorem forall_of_deepestIn?_eq_none {ts : List (Tree α)} (h : deepestIn? p ts = none) :
    ∀ c ∈ ts, ¬p c.label = true := by
  induction ts with
  | nil => exact List.forall_mem_nil _
  | cons t ts ih =>
    rw [deepestIn?] at h
    split at h
    · cases h
    · exact List.forall_mem_cons.mpr ⟨‹_›, ih h⟩

theorem deepest_mem_subtrees (p : α → Bool) (t : Tree α) : t.deepest p ∈ t.subtrees := by
  induction t with
  | node a ts ih =>
    rw [deepest]
    cases h : deepestIn? p ts with
    | none => exact mem_subtrees_self _
    | some u =>
      obtain ⟨c, hc, -, rfl⟩ := exists_of_deepestIn?_eq_some h
      exact mem_subtrees_node.mpr (.inr ⟨c, hc, ih c hc⟩)

theorem forall_children_deepest (t : Tree α) :
    ∀ c ∈ (t.deepest p).children, ¬p c.label = true := by
  induction t with
  | node a ts ih =>
    rw [deepest]
    cases h : deepestIn? p ts with
    | none => exact forall_of_deepestIn?_eq_none h
    | some u =>
      obtain ⟨c, hc, -, rfl⟩ := exists_of_deepestIn?_eq_some h
      exact ih c hc

theorem deepest_eq_self_or (p : α → Bool) (t : Tree α) :
    t.deepest p = t ∨ p (t.deepest p).label = true := by
  induction t with
  | node a ts ih =>
    rw [deepest]
    cases h : deepestIn? p ts with
    | none => exact .inl rfl
    | some u =>
      obtain ⟨c, hc, hp, rfl⟩ := exists_of_deepestIn?_eq_some h
      right
      rw [Option.getD_some]
      obtain hself | hdeepest := ih c hc
      · rwa [hself]
      · exact hdeepest

theorem label_deepest {t : Tree α} (h : p t.label = true) : p (t.deepest p).label = true := by
  obtain hself | hdeepest := deepest_eq_self_or p t
  · rwa [hself]
  · exact hdeepest

/-- The way down to an offset leads through every node around it. -/
theorem deepest_eq_of_contains {span : α → Span} {t u : Tree α} (h : t.Nested span)
    (hu : u ∈ t.subtrees) {n : Nat} (hn : (span u.label).contains n = true) :
    u.deepest (fun a => (span a).contains n) = t.deepest fun a => (span a).contains n := by
  have hmem := mem_subtrees_trans (deepest_mem_subtrees (fun a => (span a).contains n) u) hu
  have hcontains := label_deepest (p := fun a => (span a).contains n) hn
  exact (deepest_eq h hmem hcontains (forall_children_deepest u)).symm

theorem deepest_mem_of_contains {span : α → Span} {t u : Tree α} (h : t.Nested span)
    (hu : u ∈ t.subtrees) {n : Nat} (hn : (span u.label).contains n = true) :
    t.deepest (fun a => (span a).contains n) ∈ u.subtrees := by
  rw [← deepest_eq_of_contains h hu hn]
  exact deepest_mem_subtrees _ u

end Tree

theorem Element.markup_of_wrapsItself {v : Vocabulary} {e : Element} (h : e.wrapsItself v = true) :
    e.cls = .structural ∧ e.markup v = [] := by
  unfold wrapsItself at h
  split at h
  · rename_i hc he
    exact ⟨hc, by simp only [markup, hc, he, h, if_true]⟩
  · cases h

theorem Tag.ofElement_cls (start : Nat) (e : Element) : (ofElement start e).1.cls = e.cls := by
  unfold ofElement
  split <;> rfl

namespace Segment

/-- What a report on a region says of the segment of this region, by the kind of the report. -/
def Bears (root s : Tree Segment) (r : Region) (d : Diagnostic) : Prop :=
  match d.kind with
  | .malformedTag | .unterminatedTag | .unmatchedClosingTag =>
    s.label.shape = .text ∧ s.children = [] ∧ d.span.Within s.label.span
  | .nestingTooDeep => s.label.shape = .text ∧ s.children = [] ∧ d.span = s.label.span
  | .ambiguousSelfNesting =>
    (∃ tag, s.label.shape = .element tag ∧ tag.cls = .structural) ∧ s.children = [] ∧
      d.span.start = s.label.span.start
  | .inputTooLarge => s = root
  | .closingTagMismatch =>
    ∃ e x, r.piece = .element e ∧ e.enclosed = some x ∧ d ∈ (Tag.ofElement r.start e).2 ∧
      d.span.Within (Tag.closingSpan r.start e x)
  | .unterminatedAttributeValue | .missingEquals | .strayQuote | .unquotedAttributeValue
  | .unexpectedToken | .unterminatedTemplate =>
    ∃ e, r.piece = .element e ∧ d ∈ (Tag.ofElement r.start e).2 ∧
      d.span.Within (Tag.openingSpan r.start e)

variable {root s : Tree Segment} {r : Region} {d : Diagnostic}

theorem Bears.of_isOnProse (hk : d.kind.isOnProse = true)
    (h : s.label.shape = .text ∧ s.children = [] ∧ d.span.Within s.label.span) :
    Bears root s r d := by
  unfold Bears
  revert hk
  cases d.kind with
  | malformedTag | unterminatedTag | unmatchedClosingTag => exact fun _ => h
  | _ => exact nofun

theorem Bears.of_isOnAttributes (hk : d.kind.isOnAttributes = true)
    (h : ∃ e, r.piece = .element e ∧ d ∈ (Tag.ofElement r.start e).2 ∧
      d.span.Within (Tag.openingSpan r.start e)) : Bears root s r d := by
  unfold Bears
  revert hk
  cases d.kind with
  | unterminatedAttributeValue | missingEquals | strayQuote | unquotedAttributeValue
  | unexpectedToken | unterminatedTemplate => exact fun _ => h
  | _ => exact nofun

end Segment

namespace Region

variable {v : Vocabulary} {limit depth start : Nat}

/-- A report on a region that is cut out of a text is about this region. -/
theorem Yields.bears {cs rest : List Char} {u : Tree Region}
    (h : Yields v limit depth start cs u rest) {d : Diagnostic} (hd : d ∈ u.label.reports)
    (root : Tree Segment) (k : Nat) :
    Segment.Bears root (u.number Segment.ofRegion k) u.label d := by
  cases h with
  | @prose chars rest notes hc run =>
    obtain ⟨chars', he, hnotes⟩ := run.within_of_note
    obtain rfl := List.append_cancel_right he
    have hd : d ∈ notes ++ [] := hd
    rw [List.append_nil] at hd
    obtain ⟨hk, hwithin⟩ := hnotes d hd
    exact .of_isOnProse hk ⟨rfl, rfl, hwithin⟩
  | template => cases hd
  | @element cs rest e h =>
    unfold treeOf at hd ⊢
    split at hd
    · rw [if_pos ‹_›]
      obtain hd | hd := List.mem_append.mp hd
      · simp only [Tree.label, ofElement] at hd
        split at hd
        · rename_i hwraps
          obtain rfl := List.mem_singleton.mp hd
          obtain ⟨hcls, hmarkup⟩ := Element.markup_of_wrapsItself hwraps
          refine ⟨⟨(Tag.ofElement start e).1, rfl, ?_⟩, ?_, rfl⟩
          · rw [Tag.ofElement_cls, hcls]
          · rw [Segment.children_eq_nil, hmarkup]
            exact regions_nil
        · cases hd
      · obtain ⟨hk, hwithin⟩ | ⟨hk, x, hx, hwithin⟩ := Tag.within_of_note hd
        · exact .of_isOnAttributes hk ⟨e, rfl, hd, hwithin⟩
        · rw [Segment.Bears, hk]
          exact ⟨e, x, rfl, hx, hd, hwithin⟩
    · rw [if_neg ‹_›]
      obtain rfl : d = _ := List.mem_singleton.mp hd
      exact ⟨rfl, rfl, rfl⟩

theorem bears_of_report {limits : Limits} {source : List Char} {u : Tree Region}
    (hu : u ∈ (outline v limits source).subtrees) {d : Diagnostic} (hd : d ∈ u.label.reports) :
    ∃ k, u.number Segment.ofRegion k ∈
        ((outline v limits source).number Segment.ofRegion 0).subtrees ∧
      Segment.Bears ((outline v limits source).number Segment.ofRegion 0)
        (u.number Segment.ofRegion k) u.label d := by
  obtain rfl | hbelow := Tree.eq_or_mem_of_mem_subtrees hu
  · refine ⟨0, Tree.mem_subtrees_self _, ?_⟩
    obtain ⟨limit, -, rfl, -⟩ | ⟨_, _, _, _, _, -, hy⟩ := cases_of_note hu hd
    · rfl
    · exact hy.bears hd _ 0
  · obtain ⟨k, hk⟩ := Tree.exists_number_of_mem_subtrees Segment.ofRegion 0 hu
    obtain ⟨_, _, _, _, _, _, hy⟩ := yields_of_mem_below hbelow
    exact ⟨k, hk, hy.bears hd _ k⟩

end Region

namespace Document

/-- A report on a region comes to the segment of this region: the deepest one around its offset. -/
structure Attachment (root s : Tree Segment) (r : Region) (d : Diagnostic) : Prop where
  mem : s ∈ root.subtrees
  label : s.label = .ofRegion s.label.id r
  report : d ∈ r.reports
  contains : s.label.span.contains d.span.start = true
  deepest : ∀ s' ∈ root.subtrees, s'.label.span.contains d.span.start = true → s ∈ s'.subtrees
  bears : Segment.Bears root s r d

variable {p : Parser} {source : String}

theorem items_log_subset (p : Parser) (source : String) :
    (p.log source).items ⊆ discovered (outline p.vocabulary p.limits source.toList) := by
  rw [Parser.log_eq_extend]
  cases p.limits.maxDiagnostics with
  | none =>
    rw [Diagnostic.Log.extend_unbounded _ rfl]
    exact List.Subset.refl _
  | some m =>
    rw [Diagnostic.Log.extend_items]
    exact List.take_subset _ _

/-- Every diagnostic was reported on a region and is attached to the segment of this region. -/
theorem attachment_of_mem (p : Parser) (source : String) {x : Diagnostic}
    (hx : x ∈ (p.parse source).diagnostics) :
    ∃ s, ∃ r ∈ (outline p.vocabulary p.limits source.toList).preorder, ∃ d,
      x = d.attach s.label.id ∧ Attachment (p.parse source).root s r d := by
  obtain ⟨d, hd, rfl⟩ := List.mem_map.mp ((arranged_diagnostics p source).perm.mem_iff.mp hx)
  obtain ⟨u, hu, hreport⟩ := mem_discovered.mp (items_log_subset p source hd)
  have hreport : d ∈ u.label.reports := List.mem_append.mpr hreport
  obtain ⟨k, hk, hbears⟩ := Region.bears_of_report hu hreport
  rw [← root_parse] at hk hbears
  have howns := Region.place_of_note hu hreport
  have hnode := nodeAt_of_owns hk howns
  refine ⟨u.number Segment.ofRegion k, u.label, Tree.mem_preorder.mpr ⟨u, hu, rfl⟩, d, ?_, ?_⟩
  · rw [attached, hnode]
  · constructor
    case mem => exact hk
    case label =>
      rw [Tree.label_number]
      rfl
    case report => exact hreport
    case contains =>
      rw [Tree.label_number]
      exact howns.1
    case deepest =>
      intro s' hs' hn
      rw [← hnode]
      exact Tree.deepest_mem_of_contains (nested_root p source) hs' hn
    case bears => exact hbears

theorem attachment_of_mem_inner_mismatch :
    let x : Diagnostic := ⟨.closingTagMismatch, ⟨8, 12⟩, "</P> closes <p>", some 2⟩
    let t := outline Parser.sample.vocabulary Parser.sample.limits "<p>a<p>b</P></p>".toList
    x ∈ (Parser.sample.parse "<p>a<p>b</P></p>").diagnostics ∧
      ∃ s, ∃ r ∈ t.preorder, ∃ d, x = d.attach s.label.id ∧
        Attachment (Parser.sample.parse "<p>a<p>b</P></p>").root s r d := by
  intro x t
  have hx : x ∈ (Parser.sample.parse "<p>a<p>b</P></p>").diagnostics := by decide +kernel
  exact ⟨hx, attachment_of_mem Parser.sample "<p>a<p>b</P></p>" hx⟩

end Document

end ProseMarkup
