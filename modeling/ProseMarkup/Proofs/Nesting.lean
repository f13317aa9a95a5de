import ProseMarkup.Proofs.Tiling
import Mathlib.Data.List.Nodup

namespace ProseMarkup

namespace Span.Tile

variable {start stop : Nat} {ss : List Span}

theorem le (h : Tile start stop ss) : start ≤ stop := by
  induction ss generalizing start with
  | nil => exact Nat.le_of_eq h
  | cons s ss ih => exact Nat.le_trans (Nat.le_of_lt h.2.1) (ih h.2.2)

theorem bounds (h : Tile start stop ss) {s : Span} (hs : s ∈ ss) :
    start ≤ s.start ∧ s.start < s.stop ∧ s.stop ≤ stop := by
  induction ss generalizing start with
  | nil => cases hs
  | cons t ss ih =>
    obtain ⟨rfl, hlt, htail⟩ := h
    obtain rfl | hs := List.mem_cons.mp hs
    · exact ⟨Nat.le_refl _, hlt, htail.le⟩
    · obtain ⟨hstart, hs⟩ := ih htail hs
      exact ⟨Nat.le_trans (Nat.le_of_lt hlt) hstart, hs⟩

theorem not_contains {s t : Span} {n : Nat} (h : Tile start stop (s :: ss)) (ht : t ∈ ss)
    (hs : s.contains n = true) : ¬t.contains n = true := by
  obtain ⟨-, -, htail⟩ := h
  have hle : s.stop ≤ t.start := (htail.bounds ht).1
  rw [contains_iff] at hs ⊢
  omega

end Span.Tile

namespace Tree

variable {α β : Type}

/-- Holds of a tree in which the spans below every node tile a part of its span. -/
def Nested (span : α → Span) (t : Tree α) : Prop :=
  ∀ u ∈ t.subtrees, ∃ lo hi, (span u.label).start ≤ lo ∧ hi ≤ (span u.label).stop ∧
    Span.Tile lo hi (u.children.map fun c => span c.label)

namespace Nested

variable {span : α → Span} {t u : Tree α}

theorem of_mem (h : t.Nested span) (hu : u ∈ t.subtrees) : u.Nested span :=
  fun _ hs => h _ (mem_subtrees_trans hs hu)

theorem span_le (h : t.Nested span) (hu : u ∈ t.subtrees) :
    (span t.label).start ≤ (span u.label).start ∧ (span u.label).stop ≤ (span t.label).stop := by
  induction t with
  | node a ts ih =>
    obtain rfl | ⟨c, hc, hu⟩ := mem_subtrees_node.mp hu
    · exact ⟨Nat.le_refl _, Nat.le_refl _⟩
    · obtain ⟨lo, hi, hlo, hhi, htile⟩ := h _ (mem_subtrees_self _)
      obtain ⟨hstart, -, hstop⟩ := htile.bounds (List.mem_map_of_mem hc)
      obtain ⟨hstart', hstop'⟩ := ih c hc (h.of_mem (mem_subtrees_of_mem_children hc)) hu
      exact ⟨by omega, by omega⟩

theorem contains_of_mem (h : t.Nested span) (hu : u ∈ t.subtrees) {n : Nat}
    (hn : (span u.label).contains n = true) : (span t.label).contains n = true := by
  obtain ⟨hstart, hstop⟩ := h.span_le hu
  rw [Span.contains_iff] at hn ⊢
  omega

end Nested

theorem eq_of_contains {span : α → Span} {n lo hi : Nat} {t u : Tree α} {ts : List (Tree α)}
    (h : Span.Tile lo hi (ts.map fun t => span t.label)) (ht : t ∈ ts) (hu : u ∈ ts)
    (htn : (span t.label).contains n = true) (hun : (span u.label).contains n = true) :
    t = u := by
  induction ts generalizing lo with
  | nil => cases ht
  | cons w ts ih =>
    obtain rfl | ht' := List.mem_cons.mp ht
    · obtain rfl | hu' := List.mem_cons.mp hu
      · rfl
      · exact absurd hun (h.not_contains (List.mem_map_of_mem hu') htn)
    · obtain rfl | hu' := List.mem_cons.mp hu
      · exact absurd htn (h.not_contains (List.mem_map_of_mem ht') hun)
      · obtain ⟨-, -, htail⟩ := h
        exact ih htail ht' hu'

theorem deepestIn?_eq {span : α → Span} {n lo hi : Nat} {c : Tree α} {ts : List (Tree α)}
    (h : Span.Tile lo hi (ts.map fun t => span t.label)) (hc : c ∈ ts)
    (hn : (span c.label).contains n = true) :
    deepestIn? (fun a => (span a).contains n) ts =
      some (c.deepest fun a => (span a).contains n) := by
  induction ts generalizing lo with
  | nil => cases hc
  | cons t ts ih =>
    rw [deepestIn?]
    obtain rfl | hc := List.mem_cons.mp hc
    · rw [if_pos hn]
    · have ht : ¬(span t.label).contains n = true :=
        fun ht => h.not_contains (List.mem_map_of_mem hc) ht hn
      obtain ⟨-, -, htail⟩ := h
      rw [if_neg ht]
      exact ih htail hc

theorem deepestIn?_eq_none {p : α → Bool} {ts : List (Tree α)}
    (h : ∀ c ∈ ts, ¬p c.label = true) : deepestIn? p ts = none := by
  induction ts with
  | nil => rfl
  | cons t ts ih =>
    obtain ⟨ht, hts⟩ := List.forall_mem_cons.mp h
    rw [deepestIn?, if_neg ht, ih hts]

theorem deepest_eq {span : α → Span} {t u : Tree α} (h : t.Nested span) (hu : u ∈ t.subtrees)
    {n : Nat} (hn : (span u.label).contains n = true)
    (hc : ∀ c ∈ u.children, ¬(span c.label).contains n = true) :
    t.deepest (fun a => (span a).contains n) = u := by
  induction t with
  | node a ts ih =>
    rw [deepest]
    obtain rfl | ⟨c, hmem, hu⟩ := mem_subtrees_node.mp hu
    · rw [deepestIn?_eq_none hc, Option.getD_none]
    · have hnested := h.of_mem (mem_subtrees_of_mem_children (t := node a ts) hmem)
      obtain ⟨lo, hi, -, -, htile⟩ := h _ (mem_subtrees_self _)
      have hdeepest := deepestIn?_eq htile hmem (hnested.contains_of_mem hu hn)
      rw [children] at hdeepest
      rw [hdeepest, Option.getD_some, ih c hmem hnested hu]

mutual

theorem map_preorder_number {f : Nat → α → β} {key : β → Nat} (hf : ∀ n a, key (f n a) = n) :
    ∀ (n : Nat) (t : Tree α), (t.number f n).preorder.map key = List.range' n t.size
  | n, node a ts => by
    rw [number, preorder, List.map_cons, hf, size, map_preorderAll_numberAll hf (n + 1) ts,
      List.range'_succ]

theorem map_preorderAll_numberAll {f : Nat → α → β} {key : β → Nat} (hf : ∀ n a, key (f n a) = n) :
    ∀ (n : Nat) (ts : List (Tree α)),
      (preorderAll (numberAll f n ts)).map key = List.range' n (sizeAll ts)
  | _, [] => rfl
  | n, t :: ts => by
    rw [numberAll, preorderAll, List.map_append, map_preorder_number hf n t,
      map_preorderAll_numberAll hf _ ts, sizeAll, List.range'_append_1]

end

theorem eq_of_key_eq {f : Nat → α → β} {key : β → Nat} (hf : ∀ n a, key (f n a) = n) {n : Nat}
    {t : Tree α} {s s' : Tree β} (hs : s ∈ (t.number f n).subtrees)
    (hs' : s' ∈ (t.number f n).subtrees) (h : key s.label = key s'.label) : s = s' := by
  have hnodup : ((t.number f n).subtrees.map fun u => key u.label).Nodup := by
    have hkeys := map_preorder_number hf n t
    rw [preorder_eq_map_subtrees, List.map_map] at hkeys
    exact hkeys ▸ List.nodup_range'
  exact List.inj_on_of_nodup_map hnodup hs hs' h

end Tree

namespace Region

variable {v : Vocabulary}

theorem tiled_of_children_eq_nil {t : Tree Region} (hc : t.children = []) :
    ∃ lo hi, t.label.span.start ≤ lo ∧ hi ≤ t.label.span.stop ∧
      Span.Tile lo hi (t.children.map fun c => c.label.span) := by
  refine ⟨t.label.span.start, t.label.span.start, Nat.le_refl _, Nat.le_add_right .., ?_⟩
  rw [hc]
  rfl

theorem Yields.tiled {limit depth start : Nat} {cs rest : List Char} {t : Tree Region}
    (h : Yields v limit depth start cs t rest) :
    ∃ lo hi, t.label.span.start ≤ lo ∧ hi ≤ t.label.span.stop ∧
      Span.Tile lo hi (t.children.map fun c => c.label.span) := by
  by_cases hc : t.children = []
  · exact tiled_of_children_eq_nil hc
  · obtain ⟨e, he, hm, hts⟩ := h.children hc
    obtain ⟨tail, htext⟩ := text_eq_of_markup hm
    refine ⟨_, _, ?_, ?_, hts ▸ (splits_regions ..).tile⟩
    · rw [h.span]
      exact Nat.le_add_right ..
    · rw [h.span, chars, he]
      change _ ≤ start + Text.size e.text
      rw [htext, Text.size_append, Text.size_append]
      omega

theorem Yields.nested {limit depth start : Nat} {cs rest : List Char} {t : Tree Region}
    (h : Yields v limit depth start cs t rest) : t.Nested Region.span := by
  intro u hu
  obtain ⟨_, _, _, _, hy⟩ := Yields.of_mem_subtrees hu h
  exact hy.tiled

theorem nested_outline (v : Vocabulary) (limits : Limits) (source : List Char) :
    (outline v limits source).Nested span := by
  intro u hu
  obtain ⟨notes, ts, rfl, rfl | ⟨rfl, -⟩⟩ | ⟨depth, before, cs, rest, _, _, hy⟩ := cases_of_mem hu
  · exact tiled_of_children_eq_nil rfl
  · exact ⟨0, 0 + Text.size source, Nat.le_refl _, Nat.le_refl _, (splits_regions ..).tile⟩
  · exact hy.tiled

end Region

namespace Document

variable {p : Parser} {source : String}

theorem nested_root (p : Parser) (source : String) :
    (p.parse source).root.Nested Segment.span := by
  intro s hs
  obtain ⟨u, hu, k, rfl⟩ := exists_region_of_mem hs
  obtain ⟨lo, hi, h⟩ := Region.nested_outline p.vocabulary p.limits source.toList u hu
  rw [Tree.label_number, Segment.children_span]
  exact ⟨lo, hi, h⟩

/-- A diagnostic that starts in a segment, and in none below it, is attached to that segment. -/
theorem nodeAt_root {s : Tree Segment} (hs : s ∈ (p.parse source).root.subtrees) {n : Nat}
    (hn : s.label.span.contains n = true)
    (hc : ∀ c ∈ s.children, ¬c.label.span.contains n = true) :
    Segment.nodeAt (p.parse source).root n = s :=
  Tree.deepest_eq (nested_root p source) hs hn hc

theorem eq_of_id_eq {s s' : Tree Segment} (hs : s ∈ (p.parse source).root.subtrees)
    (hs' : s' ∈ (p.parse source).root.subtrees) (h : s.label.id = s'.label.id) : s = s' := by
  rw [root_parse] at hs hs'
  exact Tree.eq_of_key_eq (fun _ _ => rfl) hs hs' h

end Document

end ProseMarkup
