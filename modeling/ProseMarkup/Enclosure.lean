import ProseMarkup.Mark
import ProseMarkup.Vocabulary

namespace ProseMarkup

structure Enclosure where
  body : List Char
  closing : ClosingTag
  rest : List Char
deriving DecidableEq, Repr

namespace Enclosure

def text (e : Enclosure) : List Char :=
  e.body ++ e.closing.text

def push (past : List Char) (e : Enclosure) : Enclosure :=
  { e with body := past ++ e.body }

inductive Step where
  | pass (past rest : List Char)
  | enter (past rest : List Char)
  | meet (tag : ClosingTag) (rest : List Char)
deriving DecidableEq, Repr

namespace Step

def past : Step → List Char
  | pass past _ => past
  | enter past _ => past
  | meet tag _ => tag.text

def rest : Step → List Char
  | pass _ rest => rest
  | enter _ rest => rest
  | meet _ rest => rest

def skip (cs : List Char) : Step :=
  pass ['<'] cs

def Takes (s : Step) (cs : List Char) : Prop :=
  s.past ++ s.rest = cs ∧ s.past ≠ []

theorem takes_skip (cs : List Char) : (skip cs).Takes ('<' :: cs) :=
  ⟨rfl, List.cons_ne_nil _ _⟩

theorem Takes.length {s : Step} {cs : List Char} (h : s.Takes cs) : s.rest.length < cs.length := by
  have hp := List.length_pos_iff.mpr h.2
  rw [← h.1, List.length_append]
  omega

end Step

/-- Searches for a closing tag past as many others as there are elements of its name open. The
steps say which marks open and close an element of the name. -/
def search (step : List Char → Step) (takes : ∀ cs, (step cs).Takes ('<' :: cs)) (inner : Nat) :
    List Char → Option Enclosure
  | [] => none
  | c :: cs =>
    if c = '<' then
      have : (step cs).rest.length < cs.length + 1 := (takes cs).length
      match h : step cs with
      | .pass past rest => (search step takes inner rest).map (push past)
      | .enter past rest => (search step takes (inner + 1) rest).map (push past)
      | .meet tag rest =>
        match inner with
        | 0 => some ⟨[], tag, rest⟩
        | inner + 1 => (search step takes inner rest).map (push tag.text)
    else (search step takes inner cs).map (push [c])
termination_by cs => cs.length
decreasing_by all_goals simp_all [Step.rest]

def metadataStep (name cs : List Char) : Step :=
  match Mark.read cs with
  | .comment inner rest => .pass ('<' :: inner) rest
  | .closing tag rest => if Text.sameName tag.name name then .meet tag rest else .skip cs
  | .opening tag rest =>
    if !Text.sameName tag.name name then .skip cs
    else if tag.selfClosing then .pass tag.text rest
    else .enter tag.text rest
  | .unclosed _ _ | .plain => .skip cs

theorem metadataStep_takes (name cs : List Char) : (metadataStep name cs).Takes ('<' :: cs) := by
  unfold metadataStep
  split
  · rename_i h
    exact ⟨congrArg ('<' :: ·) (Mark.append_of_comment h), List.cons_ne_nil _ _⟩
  · rename_i h
    split
    · exact ⟨Mark.text_append_of_closing h, List.cons_ne_nil _ _⟩
    · exact Step.takes_skip cs
  · rename_i h
    split
    · exact Step.takes_skip cs
    · split
      · exact ⟨Mark.text_append_of_opening h, List.cons_ne_nil _ _⟩
      · exact ⟨Mark.text_append_of_opening h, List.cons_ne_nil _ _⟩
  · exact Step.takes_skip cs
  · exact Step.takes_skip cs

def ofMetadata? (name cs : List Char) : Option Enclosure :=
  search (metadataStep name) (metadataStep_takes name) 0 cs

theorem text_push (past : List Char) (e : Enclosure) : (e.push past).text = past ++ e.text := by
  simp [push, text]

theorem append_of_map_push {past rest : List Char} {o : Option Enclosure} {e : Enclosure}
    (ho : ∀ f, o = some f → f.text ++ f.rest = rest) (h : o.map (push past) = some e) :
    e.text ++ e.rest = past ++ rest := by
  obtain ⟨f, hf, rfl⟩ := Option.map_eq_some_iff.mp h
  rw [text_push, List.append_assoc, show (f.push past).rest = f.rest from rfl, ho f hf]

theorem append_of_search {step : List Char → Step} {takes : ∀ cs, (step cs).Takes ('<' :: cs)}
    {inner : Nat} {cs : List Char} {e : Enclosure} (h : search step takes inner cs = some e) :
    e.text ++ e.rest = cs := by
  fun_induction search step takes inner cs generalizing e with
  | case1 => contradiction
  | case2 inner cs _ past rest hs ih =>
    have ht := (takes cs).1
    rw [hs] at ht
    rw [← ht]
    exact append_of_map_push (fun f hf => ih hf) h
  | case3 inner cs _ past rest hs ih =>
    have ht := (takes cs).1
    rw [hs] at ht
    rw [← ht]
    exact append_of_map_push (fun f hf => ih hf) h
  | case4 cs _ tag rest hs =>
    have ht := (takes cs).1
    rw [hs] at ht
    rw [← ht]
    cases h
    rfl
  | case5 cs _ tag rest hs inner ih =>
    have ht := (takes cs).1
    rw [hs] at ht
    rw [← ht]
    exact append_of_map_push (fun f hf => ih hf) h
  | case6 inner c cs hc ih => exact append_of_map_push (fun f hf => ih hf) h

def structuralStep (v : Vocabulary) (name cs : List Char) : Step :=
  match Mark.read cs with
  | .comment inner rest => .pass ('<' :: inner) rest
  | .closing tag rest => if Text.sameName tag.name name then .meet tag rest else .skip cs
  | .opening tag rest =>
    if tag.selfClosing then .pass tag.text rest
    else if Text.sameName tag.name name then .enter tag.text rest
    else if v.classify (.ofList tag.name) = some .metadata then
      match ofMetadata? tag.name rest with
      | some e => .pass (tag.text ++ e.text) e.rest
      | none => .pass tag.text rest
    else .pass tag.text rest
  | .unclosed _ _ | .plain => .skip cs

theorem structuralStep_takes (v : Vocabulary) (name cs : List Char) :
    (structuralStep v name cs).Takes ('<' :: cs) := by
  unfold structuralStep
  split
  · rename_i h
    exact ⟨congrArg ('<' :: ·) (Mark.append_of_comment h), List.cons_ne_nil _ _⟩
  · rename_i h
    split
    · exact ⟨Mark.text_append_of_closing h, List.cons_ne_nil _ _⟩
    · exact Step.takes_skip cs
  · rename_i tag rest h
    have ht := Mark.text_append_of_opening h
    have whole : (Step.pass tag.text rest).Takes ('<' :: cs) := ⟨ht, List.cons_ne_nil _ _⟩
    split
    · exact whole
    · split
      · exact ⟨ht, List.cons_ne_nil _ _⟩
      · split
        · split
          · rename_i e he
            refine ⟨?_, List.cons_ne_nil _ _⟩
            rw [← ht, ← append_of_search he, ← List.append_assoc]
            rfl
          · exact whole
        · exact whole
  · exact Step.takes_skip cs
  · exact Step.takes_skip cs

def ofStructural? (v : Vocabulary) (name cs : List Char) : Option Enclosure :=
  search (structuralStep v name) (structuralStep_takes v name) 0 cs

def find? (v : Vocabulary) (name cs : List Char) : Option Enclosure :=
  if v.classify (.ofList name) = some .metadata then ofMetadata? name cs
  else ofStructural? v name cs

theorem append_of_find? {v : Vocabulary} {name cs : List Char} {e : Enclosure}
    (h : find? v name cs = some e) : e.text ++ e.rest = cs := by
  unfold find? at h
  split at h
  · exact append_of_search h
  · exact append_of_search h

end Enclosure

end ProseMarkup
