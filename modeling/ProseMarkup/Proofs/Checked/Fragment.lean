import ProseMarkup.Checked.Tag
import ProseMarkup.Proofs.Checked.Access
import Mathlib.Data.List.Chain

namespace ProseMarkup

namespace Fragment

def Apart : Fragment → Fragment → Prop
  | literal _ span, literal _ span' => span.stop ≠ span'.start
  | _, _ => True

variable {f g : Fragment} {fs gs hs : List Fragment}

theorem cons_eq_of_apart (h : Apart f g) : f.cons (g :: fs) = f :: g :: fs := by
  cases f with
  | template => rfl
  | literal text span =>
    cases g with
    | template => rfl
    | literal text' span' => exact if_neg h

theorem cons_cases (f : Fragment) (fs : List Fragment) :
    (f.cons fs = f :: fs ∧ ∀ g ∈ fs.head?, Apart f g) ∨
      ∃ text span text' span' gs, f = literal text span ∧ fs = literal text' span' :: gs ∧
        span.stop = span'.start ∧
          f.cons fs = literal (text ++ text') ⟨span.start, span'.stop⟩ :: gs := by
  rcases fs with _ | ⟨g, fs⟩
  · exact .inl ⟨by cases f <;> rfl, by rintro _ ⟨⟩⟩
  · cases f with
    | template => exact .inl ⟨rfl, fun _ _ => trivial⟩
    | literal text span =>
      cases g with
      | template => exact .inl ⟨rfl, by rintro _ ⟨⟩; trivial⟩
      | literal text' span' =>
        by_cases hjoin : span.stop = span'.start
        · exact .inr ⟨_, _, _, _, _, rfl, rfl, hjoin, if_pos hjoin⟩
        · exact .inl ⟨if_neg hjoin, by rintro _ ⟨⟩; exact hjoin⟩

theorem exists_cons_eq (f : Fragment) (fs : List Fragment) :
    ∃ g gs, f.cons fs = g :: gs ∧ ∀ e, Apart e f → Apart e g := by
  obtain ⟨hcons, -⟩ | ⟨_, _, _, _, _, rfl, rfl, -, hcons⟩ := cons_cases f fs
  · exact ⟨f, fs, hcons, fun _ => id⟩
  · exact ⟨_, _, hcons, fun e he => by cases e <;> exact he⟩

theorem isChain_cons (h : fs.IsChain Apart) : (f.cons fs).IsChain Apart := by
  obtain ⟨hcons, hapart⟩ | ⟨_, _, _, _, _, rfl, rfl, -, hcons⟩ := cons_cases f fs
  · rw [hcons]
    exact List.isChain_cons.mpr ⟨hapart, h⟩
  · obtain ⟨hhead, htail⟩ := List.isChain_cons.mp h
    rw [hcons]
    refine List.isChain_cons.mpr ⟨fun g hg => ?_, htail⟩
    have hapart := hhead g hg
    cases g <;> exact hapart

theorem foldr_cons : (f.cons fs).foldr cons gs = f.cons (fs.foldr cons gs) := by
  rcases fs with _ | ⟨g, fs⟩
  · cases f <;> rfl
  · cases f with
    | template => rfl
    | literal text span =>
      cases g with
      | template => rfl
      | literal text' span' =>
        rw [cons]
        split
        · rename_i hjoin
          rw [List.foldr_cons, List.foldr_cons]
          rcases fs.foldr cons gs with _ | ⟨_ | _, hs⟩
          · simp [cons, hjoin]
          · simp only [cons]
            split <;> simp [hjoin, String.append_assoc]
          · simp [cons, hjoin]
        · rfl

theorem isChain_foldr (fs : List Fragment) (h : gs.IsChain Apart) :
    (fs.foldr cons gs).IsChain Apart := by
  induction fs with
  | nil => exact h
  | cons f fs ih => exact isChain_cons ih

theorem foldr_eq_self (h : fs.IsChain Apart) : fs.foldr cons [] = fs := by
  induction fs with
  | nil => rfl
  | cons f fs ih =>
    rw [List.foldr_cons, ih h.tail]
    rcases fs with _ | ⟨g, fs⟩
    · cases f <;> rfl
    · exact cons_eq_of_apart h.rel

/-- Putting a fragment behind others is the same as putting the others before it. -/
theorem foldr_foldr (fs : List Fragment) :
    (fs.foldr cons [f]).foldr cons gs = fs.foldr cons (f.cons gs) := by
  induction fs with
  | nil => rfl
  | cons g fs ih => rw [List.foldr_cons, foldr_cons, ih, List.foldr_cons]

def Stands (source : List Char) : Fragment → Prop
  | literal text span => Text.IsSlice source span.start span.stop text.toList
  | template _ span => Text.IsSpan source span

theorem Stands.isSpan {source : List Char} (h : f.Stands source) :
    Text.IsSpan source f.span := by
  cases f with
  | literal text span => exact Text.IsSlice.isSpan h
  | template => exact h

theorem isSlice_joined {source : List Char} {text text' : String} {span span' : Span}
    (hf : (literal text span).Stands source) (hg : (literal text' span').Stands source)
    (h : span.stop = span'.start) :
    Text.IsSlice source span.start span'.stop (text ++ text').toList := by
  have hg : Text.IsSlice source span.stop span'.stop text'.toList := by
    rw [h]
    exact hg
  rw [String.toList_append]
  exact Text.IsSlice.append hf hg

theorem stands_cons {source : List Char} (hf : f.Stands source) (h : ∀ g ∈ fs, g.Stands source) :
    ∀ g ∈ f.cons fs, g.Stands source := by
  obtain ⟨hcons, -⟩ | ⟨_, _, _, _, _, rfl, rfl, hjoin, hcons⟩ := cons_cases f fs
  · rw [hcons]
    exact List.forall_mem_cons.mpr ⟨hf, h⟩
  · obtain ⟨hg, hgs⟩ := List.forall_mem_cons.mp h
    have hslice := isSlice_joined hf hg hjoin
    rw [hcons]
    exact List.forall_mem_cons.mpr ⟨hslice, hgs⟩

theorem stands_foldr {source : List Char} (h : ∀ f ∈ fs, f.Stands source)
    (hg : ∀ g ∈ gs, g.Stands source) : ∀ g ∈ fs.foldr cons gs, g.Stands source := by
  induction fs with
  | nil => exact hg
  | cons f fs ih =>
    obtain ⟨hf, h⟩ := List.forall_mem_cons.mp h
    exact stands_cons hf (ih h)

end Fragment

namespace Checked

theorem pushFragment_eq {source : List Char} {f : Fragment} {fs : List Fragment}
    (hc : fs.IsChain Fragment.Apart) (h : ∀ g ∈ fs, g.Stands source) (hf : f.Stands source) :
    pushFragment source fs f = some (fs.foldr Fragment.cons [f]) := by
  induction fs with
  | nil => rfl
  | cons g fs ih =>
    obtain ⟨hg, h⟩ := List.forall_mem_cons.mp h
    rcases fs with _ | ⟨x, fs⟩
    · cases g with
      | template => cases f <;> rfl
      | literal text span =>
        cases f with
        | template => rfl
        | literal text' span' =>
          rw [pushFragment, List.foldr_cons, List.foldr_nil, Fragment.cons]
          split
          · rename_i hjoin
            rw [slice?_of (Fragment.isSlice_joined hg hf hjoin)]
            simp only [Option.bind_eq_bind, Option.bind_some, String.ofList_toList]
            rfl
          · rfl
    · have hpush : pushFragment source (g :: x :: fs) f =
          (pushFragment source (x :: fs) f).map (g :: ·) := by
        cases g <;> cases f <;> rw [pushFragment, Option.map_eq_bind] <;> first | rfl | nofun
      obtain ⟨y, ys, hy, hapart⟩ := Fragment.exists_cons_eq x (fs.foldr Fragment.cons [f])
      rw [hpush, ih hc.tail h, Option.map_some, List.foldr_cons (a := g), List.foldr_cons, hy,
        Fragment.cons_eq_of_apart (hapart g hc.rel)]

end Checked

end ProseMarkup
