import ProseMarkup.Proofs.Reports
import Mathlib.Data.List.Sort

namespace ProseMarkup

/-- Holds of a list with the entries of another one in the order of their keys, where entries with
the same key stand as they did before. -/
structure Arranged {α : Type} (key : α → Nat) (xs ys : List α) : Prop where
  perm : ys.Perm xs
  sorted : ys.Pairwise fun a b => key a ≤ key b
  stable : ∀ k, ys.filter (fun a => key a = k) = xs.filter (fun a => key a = k)

namespace Arranged

variable {α β : Type} {key : α → Nat} {xs ys zs : List α}

theorem mergeSort (key : α → Nat) (xs : List α) :
    Arranged key xs (xs.mergeSort fun a b => key a ≤ key b) := by
  have trans : ∀ a b c : α, decide (key a ≤ key b) = true → decide (key b ≤ key c) = true →
      decide (key a ≤ key c) = true := by
    intro a b c hab hbc
    rw [decide_eq_true_eq] at hab hbc ⊢
    exact Nat.le_trans hab hbc
  have total : ∀ a b : α, (decide (key a ≤ key b) || decide (key b ≤ key a)) = true := by
    intro a b
    rw [Bool.or_eq_true, decide_eq_true_eq, decide_eq_true_eq]
    exact Nat.le_total _ _
  refine ⟨List.mergeSort_perm xs _, ?_, ?_⟩
  · apply (List.pairwise_mergeSort trans total xs).imp
    intro a b h
    exact of_decide_eq_true h
  · intro k
    -- the entries with the key `k` are sorted as they stand, so they stand in the same order
    have hpairwise : (xs.filter fun a => key a = k).Pairwise fun a b =>
        decide (key a ≤ key b) = true := by
      apply List.pairwise_of_forall_mem_list
      intro a ha b hb
      have ha := of_decide_eq_true (List.mem_filter.mp ha).2
      have hb := of_decide_eq_true (List.mem_filter.mp hb).2
      rw [decide_eq_true_eq, ha, hb]
    have hsub := (List.sublist_mergeSort trans total hpairwise List.filter_sublist).filter
      fun a => decide (key a = k)
    simp only [List.filter_filter, Bool.and_self] at hsub
    symm
    apply hsub.eq_of_length
    exact ((List.mergeSort_perm xs _).filter _).length_eq.symm

theorem key_le {a : α} (h : (a :: ys).Pairwise fun a b => key a ≤ key b)
    (hf : ∀ k, (a :: ys).filter (fun b => key b = k) = zs.filter (fun b => key b = k)) {b : α}
    (hb : b ∈ zs) : key a ≤ key b := by
  have hmem : b ∈ (a :: ys).filter fun c => key c = key b := by
    rw [hf]
    exact List.mem_filter.mpr ⟨hb, decide_eq_true rfl⟩
  obtain rfl | hmem := List.mem_cons.mp (List.mem_filter.mp hmem).1
  · exact Nat.le_refl _
  · exact List.rel_of_pairwise_cons h hmem

theorem eq_of_filter_eq (hys : ys.Pairwise fun a b => key a ≤ key b)
    (hzs : zs.Pairwise fun a b => key a ≤ key b)
    (hf : ∀ k, ys.filter (fun a => key a = k) = zs.filter (fun a => key a = k)) : ys = zs := by
  induction ys generalizing zs with
  | nil =>
    cases zs with
    | nil => rfl
    | cons z zs => simpa using hf (key z)
  | cons y ys ih =>
    cases zs with
    | nil => simpa using hf (key y)
    | cons z zs =>
      have hkey : key y = key z := by
        apply Nat.le_antisymm
        · exact key_le hys hf List.mem_cons_self
        · exact key_le hzs (fun k => (hf k).symm) List.mem_cons_self
      have hhead := hf (key y)
      simp only [List.filter_cons, hkey, decide_true, if_true] at hhead
      obtain ⟨rfl, -⟩ := List.cons.inj hhead
      have htail : ys = zs := by
        apply ih hys.tail hzs.tail
        intro k
        have hk := hf k
        rw [List.filter_cons, List.filter_cons] at hk
        split at hk
        · exact (List.cons.inj hk).2
        · exact hk
      rw [htail]

/-- There is only one such list. -/
theorem unique (h : Arranged key xs ys) (h' : Arranged key xs zs) : ys = zs :=
  eq_of_filter_eq h.sorted h'.sorted fun k => (h.stable k).trans (h'.stable k).symm

theorem filter (h : Arranged key xs ys) (p : α → Bool) :
    Arranged key (xs.filter p) (ys.filter p) := by
  refine ⟨h.perm.filter p, ?_, ?_⟩
  · exact h.sorted.sublist List.filter_sublist
  · intro k
    rw [List.filter_comm, h.stable, List.filter_comm]

theorem map {key' : β → Nat} {f : α → β} (h : Arranged key xs ys) (hf : ∀ a, key' (f a) = key a) :
    Arranged key' (xs.map f) (ys.map f) := by
  refine ⟨h.perm.map f, ?_, ?_⟩
  · rw [List.pairwise_map]
    simpa only [hf] using h.sorted
  · intro k
    have hcomp : (fun b => decide (key' b = k)) ∘ f = fun a => decide (key a = k) := by
      funext a
      rw [Function.comp_apply, hf]
    rw [List.filter_map, List.filter_map, hcomp, h.stable]

end Arranged

namespace Diagnostic.Log

theorem extend_append (l : Log) (ds es : List Diagnostic) :
    l.extend (ds ++ es) = (l.extend ds).extend es :=
  List.foldl_append

end Diagnostic.Log

namespace Tree

variable {α : Type} {own : α → List Diagnostic}

mutual

/-- The log to which what belongs to each node is added, before what belongs to those below it. -/
def record (own : α → List Diagnostic) (l : Diagnostic.Log) : Tree α → Diagnostic.Log
  | node a ts => recordAll own (l.extend (own a)) ts

def recordAll (own : α → List Diagnostic) (l : Diagnostic.Log) : List (Tree α) → Diagnostic.Log
  | [] => l
  | t :: ts => recordAll own (t.record own l) ts

end

mutual

theorem record_eq_extend : ∀ (l : Diagnostic.Log) (t : Tree α),
    t.record own l = l.extend (t.preorder.flatMap own)
  | l, node a ts => by
    rw [record, recordAll_eq_extend, preorder, List.flatMap_cons, Diagnostic.Log.extend_append]

theorem recordAll_eq_extend : ∀ (l : Diagnostic.Log) (ts : List (Tree α)),
    recordAll own l ts = l.extend ((preorderAll ts).flatMap own)
  | _, [] => rfl
  | l, t :: ts => by
    rw [recordAll, record_eq_extend l t, recordAll_eq_extend _ ts, preorderAll, List.flatMap_append,
      Diagnostic.Log.extend_append]

end

end Tree

namespace Parser

/-- The log of a parse. One log goes through the scan of the text, and then through the tags of each
region. -/
def log (p : Parser) (source : String) : Diagnostic.Log :=
  let t := outline p.vocabulary p.limits source.toList
  t.record Segment.notes (t.record Region.notes (.empty p.limits.maxDiagnostics))

def withCapacity (p : Parser) (capacity : Option Nat) : Parser :=
  { p with limits := { p.limits with maxDiagnostics := capacity } }

theorem log_eq_extend (p : Parser) (source : String) :
    p.log source = (Diagnostic.Log.empty p.limits.maxDiagnostics).extend
      (Document.discovered (outline p.vocabulary p.limits source.toList)) := by
  rw [log, Tree.record_eq_extend, Tree.record_eq_extend, ← Diagnostic.Log.extend_append]
  rfl

end Parser

namespace Document

def attached (d : Document) (x : Diagnostic) : Diagnostic :=
  x.attach (Segment.nodeAt d.root x.span.start).label.id

variable {p : Parser} {source : String}

theorem diagnostics_eq_arrange (p : Parser) (source : String) :
    (p.parse source).diagnostics = arrange (p.parse source).root (p.log source).items := by
  rw [Parser.log_eq_extend]
  rfl

theorem dropped_eq (p : Parser) (source : String) :
    (p.parse source).dropped = (p.log source).dropped := by
  rw [Parser.log_eq_extend]
  rfl

/-- The diagnostics of a document are the entries of its log, arranged. -/
theorem arranged_diagnostics (p : Parser) (source : String) :
    Arranged (·.span.start) ((p.log source).items.map (p.parse source).attached)
      (p.parse source).diagnostics := by
  rw [diagnostics_eq_arrange]
  exact (Arranged.mergeSort (fun d : Diagnostic => d.span.start) _).map fun _ => rfl

/-- A bound on the diagnostics changes only which of them are kept: the first that were found. -/
theorem parse_withCapacity (p : Parser) (source : String) (m : Nat) :
    let full := (p.withCapacity none).parse source
    let kept := (p.withCapacity (some m)).parse source
    let found := (discovered (outline p.vocabulary p.limits source.toList)).map full.attached
    kept = { full with diagnostics := kept.diagnostics, dropped := kept.dropped } ∧
      Arranged (·.span.start) found full.diagnostics ∧ full.dropped = 0 ∧
      Arranged (·.span.start) (found.take (min m found.length)) kept.diagnostics ∧
      kept.dropped = found.length - min m found.length := by
  intro full kept found
  have hfull : (p.withCapacity none).log source =
      ⟨discovered (outline p.vocabulary p.limits source.toList), none, 0⟩ := by
    rw [Parser.log_eq_extend, Diagnostic.Log.extend_unbounded _ rfl]
    rfl
  have hitems : ((p.withCapacity (some m)).log source).items =
      (discovered (outline p.vocabulary p.limits source.toList)).take m := by
    rw [Parser.log_eq_extend]
    exact Diagnostic.Log.extend_items m _
  have hdropped : ((p.withCapacity (some m)).log source).dropped =
      (discovered (outline p.vocabulary p.limits source.toList)).length - m := by
    rw [Parser.log_eq_extend]
    exact Diagnostic.Log.extend_dropped m _
  refine ⟨rfl, ?_, ?_, ?_, ?_⟩
  · have harranged := arranged_diagnostics (p.withCapacity none) source
    rwa [hfull] at harranged
  · rw [dropped_eq, hfull]
  · have harranged := arranged_diagnostics (p.withCapacity (some m)) source
    rw [hitems, List.map_take] at harranged
    rwa [← List.take_eq_take_min]
  · rw [dropped_eq, hdropped, List.length_map]
    omega

end Document

end ProseMarkup
