import ProseMarkup.Text.Numeric

namespace ProseMarkup.Name

def isStart (c : Char) : Bool :=
  Text.isAlphabetic c || c = '_'

def isPart (c : Char) : Bool :=
  Text.isAlphanumeric c || c = '_' || c = '-' || c = '.'

def read? : List Char → Option (List Char × List Char)
  | [] => none
  | c :: cs =>
    if isStart c then some (c :: cs.takeWhile isPart, cs.dropWhile isPart) else none

theorem append_of_read? {cs name rest : List Char} (h : read? cs = some (name, rest)) :
    name ++ rest = cs := by
  cases cs with
  | nil => simp [read?] at h
  | cons c cs =>
    by_cases hc : isStart c
    · simp only [read?, hc, if_true, Option.some.injEq, Prod.mk.injEq] at h
      rw [← h.1, ← h.2, List.cons_append, List.takeWhile_append_dropWhile]
    · simp [read?, hc] at h

theorem ne_nil_of_read? {cs name rest : List Char} (h : read? cs = some (name, rest)) :
    name ≠ [] := by
  cases cs with
  | nil => simp [read?] at h
  | cons c cs =>
    by_cases hc : isStart c
    · simp only [read?, hc, if_true, Option.some.injEq, Prod.mk.injEq] at h
      rw [← h.1]
      exact List.cons_ne_nil _ _
    · simp [read?, hc] at h

def isName (cs : List Char) : Bool :=
  match read? cs with
  | some (_, []) => true
  | _ => false

end ProseMarkup.Name
