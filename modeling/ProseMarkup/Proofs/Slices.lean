import ProseMarkup.Span
import Mathlib.Data.List.Basic

namespace ProseMarkup.Text

theorem exists_append_of_size_le {as bs cs ds : List Char} (h : as ++ bs = cs ++ ds)
    (hs : size as ≤ size cs) : ∃ x, cs = as ++ x ∧ bs = x ++ ds := by
  obtain ⟨x, hc, hb⟩ | ⟨x, ha, hd⟩ := List.append_eq_append_iff.mp h
  · exact ⟨x, hc, hb⟩
  · have hx : x = [] := by
      by_contra hx
      have hp := size_pos hx
      rw [ha, size_append] at hs
      omega
    subst hx
    exact ⟨[], by simpa using ha.symm, hd.symm⟩

theorem slice_append (before cs after : List Char) :
    slice (size before) (size before + size cs) (before ++ (cs ++ after)) = cs := by
  rw [slice, Nat.add_sub_cancel_left, dropBytes_size_append, takeBytes_size_append]

def IsBoundary (cs : List Char) (n : Nat) : Prop :=
  ∃ before after, cs = before ++ after ∧ size before = n

def IsSlice (cs : List Char) (start stop : Nat) (part : List Char) : Prop :=
  ∃ before after, cs = before ++ (part ++ after) ∧ size before = start ∧ start + size part = stop

theorem exists_isSlice {cs : List Char} {start stop : Nat} (hstart : IsBoundary cs start)
    (hstop : IsBoundary cs stop) (hle : start ≤ stop) : ∃ part, IsSlice cs start stop part := by
  obtain ⟨before, rest, rfl, rfl⟩ := hstart
  obtain ⟨before', after, h, rfl⟩ := hstop
  obtain ⟨part, rfl, rfl⟩ := exists_append_of_size_le h hle
  exact ⟨part, before, after, rfl, rfl, (size_append before part).symm⟩

theorem isSlice_self (cs : List Char) : IsSlice cs 0 (size cs) cs :=
  ⟨[], [], (List.append_nil cs).symm, rfl, Nat.zero_add _⟩

theorem isSlice_nil {cs : List Char} {n : Nat} (h : IsBoundary cs n) : IsSlice cs n n [] := by
  obtain ⟨before, after, rfl, rfl⟩ := h
  exact ⟨before, after, rfl, rfl, Nat.add_zero _⟩

namespace IsSlice

variable {cs part xs ys : List Char} {start stop : Nat}

theorem slice_eq (h : IsSlice cs start stop part) : slice start stop cs = part := by
  obtain ⟨before, after, rfl, rfl, rfl⟩ := h
  exact slice_append before part after

theorem start_add (h : IsSlice cs start stop part) : start + size part = stop := by
  obtain ⟨_, _, _, _, hstop⟩ := h
  exact hstop

theorem le (h : IsSlice cs start stop part) : start ≤ stop :=
  h.start_add ▸ Nat.le_add_right _ _

theorem stop_le_iff (h : IsSlice cs start stop part) : stop ≤ start ↔ part = [] := by
  have hsize := h.start_add
  constructor
  · intro hle
    by_contra hne
    have hpos := size_pos hne
    omega
  · rintro rfl
    exact Nat.le_of_eq hsize.symm

theorem lt (h : IsSlice cs start stop part) (hne : part ≠ []) : start < stop :=
  Nat.not_le.mp (mt h.stop_le_iff.mp hne)

theorem eq_of_nil (h : IsSlice cs start stop []) : start = stop :=
  h.start_add

theorem isBoundary_start (h : IsSlice cs start stop part) : IsBoundary cs start := by
  obtain ⟨before, after, hcs, hstart, _⟩ := h
  exact ⟨before, part ++ after, hcs, hstart⟩

theorem isBoundary_stop (h : IsSlice cs start stop part) : IsBoundary cs stop := by
  obtain ⟨before, after, hcs, rfl, rfl⟩ := h
  exact ⟨before ++ part, after, by rw [hcs, List.append_assoc], size_append before part⟩

theorem left (h : IsSlice cs start stop (xs ++ ys)) : IsSlice cs start (start + size xs) xs := by
  obtain ⟨before, after, hcs, hstart, _⟩ := h
  exact ⟨before, ys ++ after, by rw [hcs, List.append_assoc], hstart, rfl⟩

theorem right (h : IsSlice cs start stop (xs ++ ys)) : IsSlice cs (start + size xs) stop ys := by
  obtain ⟨before, after, hcs, rfl, rfl⟩ := h
  refine ⟨before ++ xs, after, ?_, size_append before xs, ?_⟩
  · rw [hcs, List.append_assoc, List.append_assoc]
  · rw [size_append, Nat.add_assoc]

theorem append {mid : Nat} (h : IsSlice cs start mid xs) (h' : IsSlice cs mid stop ys) :
    IsSlice cs start stop (xs ++ ys) := by
  obtain ⟨before, after, hcs, rfl, rfl⟩ := h
  obtain ⟨before', after', hcs', hmid, rfl⟩ := h'
  have hsize : size (before ++ xs) = size before' := by rw [size_append, hmid]
  have hsplit : before' = before ++ xs := by
    rw [hcs, ← List.append_assoc] at hcs'
    obtain ⟨x, hx, _⟩ := exists_append_of_size_le hcs' (Nat.le_of_eq hsize)
    have hnil : x = [] := by
      by_contra hne
      have hpos := size_pos hne
      rw [hx, size_append (before ++ xs)] at hsize
      omega
    rw [hx, hnil, List.append_nil]
  refine ⟨before, after', ?_, rfl, ?_⟩
  · rw [hcs', hsplit, List.append_assoc, List.append_assoc]
  · rw [size_append, Nat.add_assoc]

end IsSlice

theorem IsBoundary.le_size {cs : List Char} {n : Nat} (h : IsBoundary cs n) : n ≤ size cs := by
  obtain ⟨before, after, rfl, rfl⟩ := h
  rw [size_append]
  exact Nat.le_add_right _ _

structure IsSpan (cs : List Char) (s : Span) : Prop where
  le : s.start ≤ s.stop
  start : IsBoundary cs s.start
  stop : IsBoundary cs s.stop

theorem IsSpan.stop_le {cs : List Char} {s : Span} (h : IsSpan cs s) : s.stop ≤ size cs :=
  h.stop.le_size

theorem IsSlice.isSpan {cs part : List Char} {s : Span} (h : IsSlice cs s.start s.stop part) :
    IsSpan cs s :=
  ⟨h.le, h.isBoundary_start, h.isBoundary_stop⟩

end ProseMarkup.Text
