namespace ProseMarkup.Text

def size : List Char → Nat
  | [] => 0
  | c :: cs => c.utf8Size + size cs

@[simp] theorem size_nil : size [] = 0 := rfl

@[simp] theorem size_cons (c : Char) (cs : List Char) :
    size (c :: cs) = c.utf8Size + size cs := rfl

@[simp] theorem size_append (as bs : List Char) : size (as ++ bs) = size as + size bs := by
  induction as with
  | nil => simp
  | cons a as ih => simp [ih, Nat.add_assoc]

theorem size_ofList (cs : List Char) : (String.ofList cs).utf8ByteSize = size cs := by
  induction cs with
  | nil => simp
  | cons c cs ih =>
    have hc : String.ofList (c :: cs) = String.ofList [c] ++ String.ofList cs := by
      rw [← String.ofList_append, List.singleton_append]
    rw [hc, String.utf8ByteSize_append, ih, ← String.singleton_eq_ofList,
      String.utf8ByteSize_singleton, size_cons]

theorem size_toList (s : String) : size s.toList = s.utf8ByteSize := by
  rw [← size_ofList, String.ofList_toList]

theorem size_pos {cs : List Char} (h : cs ≠ []) : 0 < size cs := by
  cases cs with
  | nil => contradiction
  | cons c cs => simpa using Nat.lt_add_right _ c.utf8Size_pos

def dropBytes : Nat → List Char → List Char
  | 0, cs => cs
  | _ + 1, [] => []
  | n + 1, c :: cs => dropBytes (n + 1 - c.utf8Size) cs

def takeBytes : Nat → List Char → List Char
  | 0, _ => []
  | _ + 1, [] => []
  | n + 1, c :: cs => c :: takeBytes (n + 1 - c.utf8Size) cs

theorem takeBytes_append_dropBytes (n : Nat) (cs : List Char) :
    takeBytes n cs ++ dropBytes n cs = cs := by
  induction cs generalizing n with
  | nil => cases n <;> rfl
  | cons c cs ih =>
    cases n with
    | zero => rfl
    | succ n => simp [takeBytes, dropBytes, ih]

theorem dropBytes_size_append (as bs : List Char) : dropBytes (size as) (as ++ bs) = bs := by
  induction as with
  | nil => cases bs <;> rfl
  | cons a as ih =>
    obtain ⟨n, hn⟩ := Nat.exists_eq_add_of_lt a.utf8Size_pos
    have hs : size (a :: as) = n + size as + 1 := by simp; omega
    rw [hs, List.cons_append, dropBytes, show n + size as + 1 - a.utf8Size = size as by omega, ih]

theorem takeBytes_size_append (as bs : List Char) : takeBytes (size as) (as ++ bs) = as := by
  have h := takeBytes_append_dropBytes (size as) (as ++ bs)
  rw [dropBytes_size_append] at h
  exact List.append_cancel_right h

def slice (start stop : Nat) (cs : List Char) : List Char :=
  takeBytes (stop - start) (dropBytes start cs)

/-- Cuts a text before the first place where `stops` holds of all that follows. -/
def breakBefore (stops : List Char → Bool) : List Char → List Char × List Char
  | [] => ([], [])
  | c :: cs =>
    if stops (c :: cs) then ([], c :: cs)
    else
      let (past, rest) := breakBefore stops cs
      (c :: past, rest)

theorem breakBefore_append (stops : List Char → Bool) (cs : List Char) :
    (breakBefore stops cs).1 ++ (breakBefore stops cs).2 = cs := by
  induction cs with
  | nil => rfl
  | cons c cs ih =>
    by_cases h : stops (c :: cs)
    · simp [breakBefore, h]
    · simp [breakBefore, h, ih]

theorem breakBefore_stops {stops : List Char → Bool} {cs : List Char}
    (h : (breakBefore stops cs).2 ≠ []) : stops (breakBefore stops cs).2 = true := by
  induction cs with
  | nil => contradiction
  | cons c cs ih =>
    by_cases hc : stops (c :: cs)
    · simp [breakBefore, hc]
    · simp only [breakBefore, hc] at h ⊢
      exact ih h

def splitAfter? (mark : List Char) : List Char → Option (List Char × List Char)
  | [] => none
  | c :: cs =>
    if mark <+: c :: cs then some (mark, (c :: cs).drop mark.length)
    else (splitAfter? mark cs).map fun (past, rest) => (c :: past, rest)

theorem append_of_splitAfter? {mark cs past rest : List Char}
    (h : splitAfter? mark cs = some (past, rest)) : past ++ rest = cs := by
  induction cs generalizing past rest with
  | nil => simp [splitAfter?] at h
  | cons c cs ih =>
    by_cases hm : mark <+: c :: cs
    · simp only [splitAfter?, hm, if_true, Option.some.injEq, Prod.mk.injEq] at h
      rw [← h.1, ← h.2]
      exact List.prefix_iff_eq_append.mp hm
    · simp only [splitAfter?, hm, if_false] at h
      obtain ⟨⟨past', rest'⟩, hs, he⟩ := Option.map_eq_some_iff.mp h
      cases he
      rw [List.cons_append, ih hs]

/-- Cuts a text after its first line break, and after its end if it has none. -/
def splitLine : List Char → List Char × List Char
  | [] => ([], [])
  | c :: cs =>
    if c = '\n' then ([c], cs)
    else
      let (line, rest) := splitLine cs
      (c :: line, rest)

theorem splitLine_append (cs : List Char) : (splitLine cs).1 ++ (splitLine cs).2 = cs := by
  induction cs with
  | nil => rfl
  | cons c cs ih =>
    by_cases h : c = '\n'
    · simp [splitLine, h]
    · simp [splitLine, h, ih]

def fold (cs : List Char) : List Char :=
  cs.map Char.toLower

def sameName (as bs : List Char) : Bool :=
  fold as == fold bs

end ProseMarkup.Text
