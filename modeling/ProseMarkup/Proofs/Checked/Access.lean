import ProseMarkup.Checked.Access
import ProseMarkup.Proofs.Slices
import Mathlib.Data.Fintype.Basic

namespace ProseMarkup

namespace Checked

open Text (size IsSlice IsBoundary)

theorem sub?_add (m n : Nat) : sub? (m + n) m = some n := by
  rw [sub?, if_pos (Nat.le_add_right m n), Nat.add_sub_cancel_left]

theorem assert?_of {p : Prop} [Decidable p] (h : p) : assert? p = some ⟨h⟩ :=
  dif_pos h

theorem split?_size (before after : List Char) :
    split? (size before) (before ++ after) = some (before, after) := by
  induction before with
  | nil => cases after <;> rfl
  | cons c before ih =>
    obtain ⟨n, hn⟩ := Nat.exists_eq_add_of_lt c.utf8Size_pos
    have hsize : size (c :: before) = n + size before + 1 := by
      rw [Text.size_cons]
      omega
    have hsub : sub? (n + size before + 1) c.utf8Size = some (size before) := by
      rw [show n + size before + 1 = c.utf8Size + size before by omega, sub?_add]
    rw [hsize, List.cons_append, split?, hsub]
    simp only [Option.bind_eq_bind, Option.bind_some, ih]
    rfl

section

variable {cs part : List Char} {start stop : Nat}

theorem slice?_of (h : IsSlice cs start stop part) : slice? cs start stop = some part := by
  obtain ⟨before, after, rfl, rfl, rfl⟩ := h
  rw [slice?, split?_size]
  simp only [Option.bind_eq_bind, Option.bind_some, sub?_add, split?_size]
  rfl

theorem bytes_append (as bs : List Char) : bytes (as ++ bs) = bytes as ++ bytes bs :=
  List.flatMap_append

theorem bytes_cons (c : Char) (cs : List Char) :
    bytes (c :: cs) = String.utf8EncodeChar c ++ bytes cs :=
  List.flatMap_cons

theorem length_bytes (cs : List Char) : (bytes cs).length = size cs := by
  induction cs with
  | nil => rfl
  | cons c cs ih => rw [bytes_cons, List.length_append, ih, String.length_utf8EncodeChar,
      Text.size_cons]

theorem bytes?_of (h : IsSlice cs start stop part) : bytes? cs start stop = some (bytes part) := by
  obtain ⟨before, after, rfl, rfl, rfl⟩ := h
  have hle : size before + size part ≤ (bytes (before ++ (part ++ after))).length := by
    rw [length_bytes, Text.size_append, Text.size_append]
    omega
  rw [bytes?, sub?_add]
  simp only [Option.bind_eq_bind, Option.bind_some, if_pos hle]
  rw [bytes_append, ← length_bytes before, List.drop_left, bytes_append, ← length_bytes part,
    List.take_left]
  rfl

theorem byte?_add (h : IsSlice cs start stop part) {k : Nat} (hk : k < size part) :
    byte? cs (start + k) = (bytes part)[k]? := by
  obtain ⟨before, after, rfl, rfl, rfl⟩ := h
  rw [byte?, bytes_append, ← length_bytes before,
    List.getElem?_append_right (Nat.le_add_right _ _), Nat.add_sub_cancel_left, bytes_append,
    List.getElem?_append_left (length_bytes part ▸ hk)]

end

def IsAscii (c : Char) : Prop :=
  c.toNat < 128

instance (c : Char) : Decidable (IsAscii c) :=
  inferInstanceAs (Decidable (c.toNat < 128))

theorem toNat_toUInt8 {m : Char} (h : IsAscii m) : m.toUInt8.toNat = m.toNat := by
  have hm : m.toNat < 128 := h
  change m.val.toNat % 256 = m.val.toNat
  apply Nat.mod_eq_of_lt
  change m.toNat < 256
  omega

theorem utf8EncodeChar_of_isAscii {m : Char} (h : IsAscii m) :
    String.utf8EncodeChar m = [m.toUInt8] := by
  have hm : m.val.toNat ≤ 127 := Nat.le_of_lt_succ h
  rw [String.utf8EncodeChar, if_pos hm]
  rfl

/-- A byte of an ASCII character is part of no other character. -/
theorem toUInt8_mem_utf8EncodeChar {m c : Char} (h : IsAscii m) :
    m.toUInt8 ∈ String.utf8EncodeChar c ↔ c = m := by
  constructor
  · intro hmem
    have hm : m.toNat < 128 := h
    have hlt := c.val.toNat_lt
    have hbyte {n : Nat} (hn : n < 256) (he : m.toUInt8 = .ofNat n) : m.toNat = n := by
      rw [← toNat_toUInt8 h, he, UInt8.toNat_ofNat', Nat.mod_eq_of_lt hn]
    unfold String.utf8EncodeChar at hmem
    dsimp only at hmem
    split at hmem
    · have he := hbyte (by omega) (List.mem_singleton.mp hmem)
      exact Char.ext (UInt32.toNat_inj.mp he.symm)
    · split at hmem
      · simp only [List.mem_cons, List.not_mem_nil, or_false] at hmem
        obtain he | he := hmem <;> have hn := hbyte (by omega) he <;> omega
      · split at hmem
        · simp only [List.mem_cons, List.not_mem_nil, or_false] at hmem
          obtain he | he | he := hmem <;> have hn := hbyte (by omega) he <;> omega
        · simp only [List.mem_cons, List.not_mem_nil, or_false] at hmem
          obtain he | he | he | he := hmem <;> have hn := hbyte (by omega) he <;> omega
  · rintro rfl
    rw [utf8EncodeChar_of_isAscii h]
    exact List.mem_singleton_self _

def lead (c : Char) : UInt8 :=
  (String.utf8EncodeChar c).headD 0

theorem utf8EncodeChar_ne_nil (c : Char) : String.utf8EncodeChar c ≠ [] := by
  intro h
  have hlen := String.length_utf8EncodeChar c
  rw [h] at hlen
  exact absurd hlen.symm (Nat.ne_of_gt c.utf8Size_pos)

theorem lead_eq_iff {m c : Char} (h : IsAscii m) : lead c = m.toUInt8 ↔ c = m := by
  constructor
  · intro he
    rw [← toUInt8_mem_utf8EncodeChar h, ← he]
    obtain ⟨b, bs, hb⟩ := List.exists_cons_of_ne_nil (utf8EncodeChar_ne_nil c)
    rw [lead, hb]
    exact List.mem_cons_self
  · rintro rfl
    rw [lead, utf8EncodeChar_of_isAscii h]
    rfl

theorem byte?_of {cs part : List Char} {c : Char} {start stop : Nat}
    (h : IsSlice cs start stop (c :: part)) : byte? cs start = some (lead c) := by
  have hpos : 0 < size (c :: part) := Text.size_pos (List.cons_ne_nil c part)
  have hbyte := byte?_add h hpos
  obtain ⟨b, bs, hb⟩ := List.exists_cons_of_ne_nil (utf8EncodeChar_ne_nil c)
  rw [Nat.add_zero, bytes_cons, hb] at hbyte
  rw [hbyte, lead, hb]
  rfl

theorem utf8Size_of_isAscii {m : Char} (h : IsAscii m) : m.utf8Size = 1 := by
  rw [← String.length_utf8EncodeChar, utf8EncodeChar_of_isAscii h]
  rfl

theorem exists_mark (marks cs : List Char) : (∀ c ∈ cs, c ∉ marks) ∨
    ∃ past c rest, cs = past ++ c :: rest ∧ (∀ d ∈ past, d ∉ marks) ∧ c ∈ marks := by
  induction cs with
  | nil => exact .inl nofun
  | cons a cs ih =>
    by_cases ha : a ∈ marks
    · exact .inr ⟨[], a, cs, rfl, nofun, ha⟩
    · obtain h | ⟨past, c, rest, rfl, hpast, hc⟩ := ih
      · exact .inl (List.forall_mem_cons.mpr ⟨ha, h⟩)
      · exact .inr ⟨a :: past, c, rest, rfl, List.forall_mem_cons.mpr ⟨ha, hpast⟩, hc⟩

section

variable {marks past rest : List Char}

theorem isAscii_of_mem (hm : marks.all fun m => IsAscii m) {m : Char} (h : m ∈ marks) :
    IsAscii m :=
  of_decide_eq_true (List.all_eq_true.mp hm m h)

theorem findByte?_of_forall (hm : marks.all fun m => IsAscii m) (h : ∀ c ∈ rest, c ∉ marks) :
    findByte? marks (bytes rest) = none := by
  rw [findByte?, List.findIdx?_eq_none_iff]
  intro b hb
  obtain ⟨c, hc, hb⟩ := List.mem_flatMap.mp hb
  rw [List.any_eq_false]
  intro m hmem he
  rw [beq_iff_eq] at he
  rw [← he, toUInt8_mem_utf8EncodeChar (isAscii_of_mem hm hmem)] at hb
  exact h c hc (hb ▸ hmem)

theorem findByte?_of_append (hm : marks.all fun m => IsAscii m) (h : ∀ d ∈ past, d ∉ marks)
    {c : Char} (hc : c ∈ marks) :
    findByte? marks (bytes (past ++ c :: rest)) = some (size past) := by
  have hnone := findByte?_of_forall hm h
  have hany : (marks.any fun m => m.toUInt8 == c.toUInt8) = true :=
    List.any_eq_true.mpr ⟨c, hc, beq_self_eq_true _⟩
  rw [findByte?] at hnone ⊢
  rw [bytes_append, bytes_cons, utf8EncodeChar_of_isAscii (isAscii_of_mem hm hc),
    List.findIdx?_append, hnone, List.singleton_append, List.findIdx?_cons, if_pos hany,
    length_bytes]
  simp

end

theorem find?_eq_none_of {mark cs : List Char} (h : Text.splitAfter? mark cs = none) :
    find? mark cs = none := by
  induction cs with
  | nil => rfl
  | cons c cs ih =>
    rw [Text.splitAfter?] at h
    split at h
    · cases h
    · rename_i hm
      rw [find?, if_neg hm, ih (Option.map_eq_none_iff.mp h)]
      rfl

theorem find?_of_splitAfter? {mark cs past rest : List Char}
    (h : Text.splitAfter? mark cs = some (past, rest)) :
    ∃ n, find? mark cs = some n ∧ n + size mark = size past := by
  induction cs generalizing past with
  | nil => cases h
  | cons c cs ih =>
    rw [Text.splitAfter?] at h
    split at h
    · rename_i hm
      cases h
      exact ⟨0, by rw [find?, if_pos hm], Nat.zero_add _⟩
    · rename_i hm
      obtain ⟨⟨past', rest'⟩, hs, he⟩ := Option.map_eq_some_iff.mp h
      cases he
      obtain ⟨n, hn, hsize⟩ := ih hs
      refine ⟨c.utf8Size + n, by rw [find?, if_neg hm, hn]; rfl, ?_⟩
      rw [Text.size_cons, ← hsize, Nat.add_assoc]

end Checked

end ProseMarkup
