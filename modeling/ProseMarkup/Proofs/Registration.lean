import ProseMarkup.Proofs.LetterCase
import ProseMarkup.TagSet
import Mathlib.Data.Set.Card

namespace ProseMarkup

instance (name : List Char) : Decidable (Name.IsName name) :=
  decidable_of_iff (Name.isName name = true) Name.isName_iff

/-- A map from names in small letters to classes. -/
abbrev Naming :=
  String → Option TagClass

namespace TagSet

inductive Command where
  | register (cls : TagClass) (name : String)
  | clear
  | replace (structural metadata : List String)

def Command.change : Command → Change
  | register cls name => TagSet.register cls name
  | clear => TagSet.clear
  | replace structural metadata => do
    set (← MonadExcept.ofExcept (ofNames structural metadata))

def behind (change : Change) (s : TagSet) : TagSet :=
  match change.run s with
  | .ok _ s' => s'
  | .error _ s' => s'

def after (commands : List Command) : TagSet :=
  commands.foldl (fun s c => behind c.change s) empty

end TagSet

namespace Naming

open TagSet (key Command)

def addAll (m : Naming) (cls : TagClass) (names : List String) : Naming :=
  fun k => if k ∈ names.map key then some cls else m k

def ofLists (structural metadata : List String) : Naming :=
  addAll (addAll (fun _ => none) .structural structural) .metadata metadata

def Distinct (structural metadata : List String) : Prop :=
  (∀ name ∈ structural ++ metadata, Name.IsName name.toList) ∧
    (structural ++ metadata).Pairwise fun a b => ¬Text.sameName a.toList b.toList

instance (structural metadata : List String) : Decidable (Distinct structural metadata) :=
  inferInstanceAs (Decidable (_ ∧ _))

def perform (m : Naming) : Command → Naming
  | .register cls name =>
    if Name.IsName name.toList ∧ m (key name) = none then Function.update m (key name) (some cls)
    else m
  | .clear => fun _ => none
  | .replace structural metadata =>
    if Distinct structural metadata then ofLists structural metadata else m

def after (commands : List Command) : Naming :=
  commands.foldl perform fun _ => none

end Naming

namespace NameSet

theorem contains_iff {s : NameSet} {name : String} : s.contains name = true ↔ name ∈ s.members :=
  List.contains_iff_mem

theorem mem_insert {s : NameSet} {name k : String} :
    k ∈ (s.insert name).members ↔ k = name ∨ k ∈ s.members := by
  rw [insert]
  split
  · rename_i hmem
    constructor
    · exact Or.inr
    · rintro (rfl | hk)
      · exact hmem
      · exact hk
  · exact List.mem_cons

end NameSet

namespace TagSet

theorem bytes_injective : Function.Injective bytes := by
  intro a b h
  exact String.toByteArray_inj.mp (ByteArray.ext (Array.toList_inj.mp h))

theorem key_eq_iff {a b : String} : key a = key b ↔ Text.sameName a.toList b.toList = true := by
  rw [key, key, String.ofList_inj, Text.sameName, beq_iff_eq]

theorem key_key (name : String) : key (key name) = key name := by
  rw [key, key, String.toList_ofList, Text.fold_fold]

variable {s s' : TagSet} {m : Naming} {cls : TagClass} {k : String}

def members (s : TagSet) : TagClass → List String
  | .structural => s.structural.members
  | .metadata => s.metadata.members

theorem mem_members_insert {cls' : TagClass} {k' : String} :
    k' ∈ (s.insert cls k).members cls' ↔ k' = k ∧ cls' = cls ∨ k' ∈ s.members cls' := by
  cases cls <;> cases cls' <;> simp [insert, members, NameSet.mem_insert]

/-- Holds when the two sets are the keys of a map, by their classes. -/
def Holds (s : TagSet) (m : Naming) : Prop :=
  ∀ k cls, k ∈ s.members cls ↔ m k = some cls

theorem holds_empty : Holds empty fun _ => none := by
  intro k cls
  cases cls <;> simp [empty, members, NameSet.empty]

theorem Holds.disjoint (h : Holds s m) (hk : k ∈ s.structural.members) :
    k ∉ s.metadata.members := by
  intro hk'
  have hclass := (h k .structural).mp hk
  rw [(h k .metadata).mp hk'] at hclass
  cases hclass

theorem Holds.mem_append (h : Holds s m) :
    k ∈ s.structural.members ++ s.metadata.members ↔ (m k).isSome := by
  rw [List.mem_append, Option.isSome_iff_exists]
  constructor
  · rintro (hk | hk)
    · exact ⟨_, (h k .structural).mp hk⟩
    · exact ⟨_, (h k .metadata).mp hk⟩
  · rintro ⟨cls, hk⟩
    cases cls with
    | structural => exact .inl ((h k .structural).mpr hk)
    | metadata => exact .inr ((h k .metadata).mpr hk)

theorem Holds.contains_iff (h : Holds s m) {name : String} :
    s.contains name = true ↔ (m (key name)).isSome := by
  rw [contains, Bool.or_eq_true, NameSet.contains_iff, NameSet.contains_iff, ← List.mem_append,
    h.mem_append]

theorem Holds.isStructural_iff (h : Holds s m) {name : String} :
    s.toVocabulary.isStructural name = true ↔ m (key name) = some .structural :=
  NameSet.contains_iff.trans (h _ .structural)

theorem Holds.isMetadata_iff (h : Holds s m) {name : String} :
    s.toVocabulary.isMetadata name = true ↔ m (key name) = some .metadata :=
  NameSet.contains_iff.trans (h _ .metadata)

theorem Holds.classify (h : Holds s m) (name : String) : s.classify name = m (key name) := by
  rw [TagSet.classify, Vocabulary.classify]
  split
  · rename_i hmeta
    exact (h.isMetadata_iff.mp hmeta).symm
  · rename_i hmeta
    split
    · rename_i hstructural
      exact (h.isStructural_iff.mp hstructural).symm
    · rename_i hstructural
      rw [h.isMetadata_iff] at hmeta
      rw [h.isStructural_iff] at hstructural
      cases hm : m (key name) with
      | none => rfl
      | some cls =>
        cases cls with
        | structural => exact absurd hm hstructural
        | metadata => exact absurd hm hmeta

theorem Holds.insert (h : Holds s m) (cls : TagClass) (hk : m k = none) :
    Holds (s.insert cls k) (Function.update m k (some cls)) := by
  intro k' cls'
  rw [mem_members_insert, h k' cls']
  by_cases he : k' = k
  · subst he
    simp [hk, eq_comm]
  · simp [he]

theorem mem_names (h : Holds s m) : k ∈ s.names ↔ (m k).isSome := by
  rw [names, List.mem_mergeSort, h.mem_append]

theorem Holds.nodup_names (h : Holds s m) : s.names.Nodup := by
  apply (List.mergeSort_perm _ _).nodup_iff.mpr
  apply List.nodup_append'.mpr
  refine ⟨s.structural.nodup, s.metadata.nodup, ?_⟩
  intro k hk hk'
  exact h.disjoint hk hk'

theorem Holds.pairwise_names (h : Holds s m) :
    s.names.Pairwise fun a b => bytes a < bytes b := by
  have hsorted : s.names.Pairwise fun a b => decide (bytes a ≤ bytes b) = true := by
    apply List.pairwise_mergeSort
    · intro a b c hab hbc
      exact decide_eq_true (List.le_trans (of_decide_eq_true hab) (of_decide_eq_true hbc))
    · intro a b
      simpa using List.le_total (bytes a) (bytes b)
  refine hsorted.imp₂ ?_ h.nodup_names
  intro a b hle hne
  exact Std.lt_of_le_of_ne (of_decide_eq_true hle) fun he => hne (bytes_injective he)

theorem Holds.size_eq (h : Holds s m) : s.size = {k | (m k).isSome}.ncard := by
  have hset : {k | (m k).isSome} = (s.names.toFinset : Set String) := by
    ext k
    rw [Finset.mem_coe, List.mem_toFinset, mem_names h, Set.mem_ofPred_eq]
  rw [hset, Set.ncard_coe_finset, List.toFinset_card_of_nodup h.nodup_names, names,
    List.length_mergeSort, List.length_append]
  rfl

theorem Holds.checkedKey (h : Holds s m) (name : String) : s.checkedKey name =
    if ¬Name.IsName name.toList then .error (.invalidName name)
    else if m (key name) ≠ none then .error (.nameTaken name)
    else .ok (key name) := by
  have hname : (!Name.isName name.toList) = true ↔ ¬Name.IsName name.toList := by
    rw [← Name.isName_iff, Bool.not_eq_true', Bool.not_eq_true]
  have htaken : s.contains (key name) = true ↔ m (key name) ≠ none := by
    rw [h.contains_iff, key_key, Option.isSome_iff_ne_none]
  simp only [TagSet.checkedKey, hname, htaken]

theorem run_register (s : TagSet) (cls : TagClass) (name : String) : (register cls name).run s =
    match s.checkedKey name with
    | .ok key => .ok () (s.insert cls key)
    | .error fault => .error fault s := by
  change (ofExcept (s.checkedKey name) >>= fun key => modify (·.insert cls key) : Change).run s = _
  cases s.checkedKey name with
  | ok key => rfl
  | error fault => rfl

theorem Holds.register_of_free (h : Holds s m) (cls : TagClass) {name : String}
    (hn : Name.IsName name.toList) (hk : m (key name) = none) :
    ∃ s', (register cls name).run s = .ok () s' ∧
      Holds s' (Function.update m (key name) (some cls)) := by
  refine ⟨_, ?_, h.insert cls hk⟩
  rw [run_register, h.checkedKey, if_neg (not_not.mpr hn), if_neg (not_not.mpr hk)]

theorem Holds.register_of_not_free (h : Holds s m) {name : String}
    (hn : ¬(Name.IsName name.toList ∧ m (key name) = none)) : (register cls name).run s =
      .error (if Name.IsName name.toList then .nameTaken name else .invalidName name) s := by
  rw [run_register, h.checkedKey]
  by_cases hname : Name.IsName name.toList
  · rw [if_neg (not_not.mpr hname), if_pos fun hk => hn ⟨hname, hk⟩, if_pos hname]
  · rw [if_pos hname, if_neg hname]

def Free (m : Naming) (names : List String) : Prop :=
  (∀ name ∈ names, Name.IsName name.toList ∧ m (key name) = none) ∧
    names.Pairwise fun a b => key a ≠ key b

theorem free_cons (cls : TagClass) {name : String} {names : List String} : Free m (name :: names) ↔
    (Name.IsName name.toList ∧ m (key name) = none) ∧
      Free (Function.update m (key name) (some cls)) names := by
  have hupdate (n : String) : Function.update m (key name) (some cls) (key n) = none ↔
      key name ≠ key n ∧ m (key n) = none := by
    by_cases he : key n = key name
    · simp [he]
    · simp [he, Ne.symm he]
  simp only [Free, List.forall_mem_cons, List.pairwise_cons, hupdate]
  constructor
  · rintro ⟨⟨hname, hnames⟩, hne, hapart⟩
    exact ⟨hname, fun n hn => ⟨(hnames n hn).1, hne n hn, (hnames n hn).2⟩, hapart⟩
  · rintro ⟨hname, hnames, hapart⟩
    exact ⟨⟨hname, fun n hn => ⟨(hnames n hn).1, (hnames n hn).2.2⟩⟩,
      fun n hn => (hnames n hn).2.1, hapart⟩

theorem addAll_update (m : Naming) (cls : TagClass) (name : String) (names : List String) :
    Naming.addAll (Function.update m (key name) (some cls)) cls names =
      Naming.addAll m cls (name :: names) := by
  funext k
  by_cases hk : k = key name
  · simp [Naming.addAll, hk]
  · simp [Naming.addAll, hk]

theorem run_cons_of_ok {change : String → Change} {name : String} {names : List String}
    (h : (change name).run s = .ok () s') :
    ((name :: names).forM change).run s = (names.forM change).run s' := by
  rw [List.forM_eq_forM, List.forM_cons, EStateM.run_bind, h]

theorem Holds.registerAll (h : Holds s m) (cls : TagClass) {names : List String}
    (hf : Free m names) :
    ∃ s', (names.forM (register cls)).run s = .ok () s' ∧ Holds s' (m.addAll cls names) := by
  induction names generalizing s m with
  | nil => exact ⟨s, rfl, h⟩
  | cons name names ih =>
    obtain ⟨⟨hname, hk⟩, hnames⟩ := (free_cons cls).mp hf
    obtain ⟨s₁, hs₁, h₁⟩ := h.register_of_free cls hname hk
    obtain ⟨s₂, hs₂, h₂⟩ := ih h₁ hnames
    exact ⟨s₂, (run_cons_of_ok hs₁).trans hs₂, addAll_update m cls name names ▸ h₂⟩

theorem Holds.free_of_registerAll (h : Holds s m) {names : List String}
    (hs : (names.forM (register cls)).run s = .ok () s') : Free m names := by
  induction names generalizing s m with
  | nil => exact ⟨nofun, List.Pairwise.nil⟩
  | cons name names ih =>
    by_cases hname : Name.IsName name.toList ∧ m (key name) = none
    · obtain ⟨s₁, hs₁, h₁⟩ := h.register_of_free cls hname.1 hname.2
      rw [run_cons_of_ok hs₁] at hs
      exact (free_cons cls).mpr ⟨hname, ih h₁ hs⟩
    · rw [List.forM_eq_forM, List.forM_cons, EStateM.run_bind, h.register_of_not_free hname] at hs
      cases hs

theorem distinct_iff {structural metadata : List String} : Naming.Distinct structural metadata ↔
    Free (fun _ => none) structural ∧
      Free (Naming.addAll (fun _ => none) .structural structural) metadata := by
  have hadd (n : String) : Naming.addAll (fun _ => none) .structural structural (key n) = none ↔
      ∀ a ∈ structural, key a ≠ key n := by
    simp [Naming.addAll]
  simp only [Naming.Distinct, Free, ← key_eq_iff, List.forall_mem_append, List.pairwise_append,
    hadd, and_true]
  constructor
  · rintro ⟨⟨hs, hm⟩, hsapart, hmapart, hsm⟩
    exact ⟨⟨hs, hsapart⟩, fun n hn => ⟨hm n hn, fun a ha => hsm a ha n hn⟩, hmapart⟩
  · rintro ⟨⟨hs, hsapart⟩, hm, hmapart⟩
    exact ⟨⟨hs, fun n hn => (hm n hn).1⟩, hsapart, hmapart, fun a ha n hn => (hm n hn).2 a ha⟩

theorem ofNames_of_distinct {structural metadata : List String}
    (h : Naming.Distinct structural metadata) : ∃ s, ofNames structural metadata = .ok s ∧
      Holds s (.ofLists structural metadata) := by
  obtain ⟨hs, hm⟩ := distinct_iff.mp h
  obtain ⟨s₁, hs₁, h₁⟩ := holds_empty.registerAll .structural hs
  obtain ⟨s₂, hs₂, h₂⟩ := h₁.registerAll .metadata hm
  refine ⟨s₂, ?_, h₂⟩
  rw [ofNames, EStateM.run_bind, hs₁]
  dsimp only
  rw [hs₂]

theorem distinct_of_ofNames {structural metadata : List String}
    (h : ofNames structural metadata = .ok s) : Naming.Distinct structural metadata := by
  rw [ofNames, EStateM.run_bind] at h
  cases hs : (structural.forM (register .structural)).run empty with
  | error f s₁ =>
    rw [hs] at h
    cases h
  | ok _ s₁ =>
    have hfree := holds_empty.free_of_registerAll hs
    obtain ⟨s₁', hs', h₁⟩ := holds_empty.registerAll .structural hfree
    rw [hs'] at hs
    cases hs
    rw [hs'] at h
    dsimp only at h
    cases hm : (metadata.forM (register .metadata)).run s₁ with
    | error f s₂ =>
      rw [hm] at h
      cases h
    | ok _ s₂ => exact distinct_iff.mpr ⟨hfree, h₁.free_of_registerAll hm⟩

theorem holds_of_ofNames {structural metadata : List String}
    (h : ofNames structural metadata = .ok s) : Holds s (.ofLists structural metadata) := by
  obtain ⟨s', hs', h'⟩ := ofNames_of_distinct (distinct_of_ofNames h)
  obtain rfl := Except.ok.inj (h.symm.trans hs')
  exact h'

theorem ofNames_of_not_distinct {structural metadata : List String}
    (h : ¬Naming.Distinct structural metadata) : ∃ f, ofNames structural metadata = .error f := by
  cases hs : ofNames structural metadata with
  | error f => exact ⟨f, rfl⟩
  | ok s => exact absurd (distinct_of_ofNames hs) h

theorem distinct_of_perm {st st' md md' : List String} (hst : st.Perm st') (hmd : md.Perm md')
    (h : Naming.Distinct st md) : Naming.Distinct st' md' := by
  have hperm : (st ++ md).Perm (st' ++ md') := hst.append hmd
  refine ⟨fun n hn => h.1 n (hperm.mem_iff.mpr hn), (hperm.pairwise_iff ?_).mp h.2⟩
  intro a b hab hba
  rw [← key_eq_iff] at hab hba
  exact hab hba.symm

theorem ofLists_perm {st st' md md' : List String} (hst : st.Perm st') (hmd : md.Perm md') :
    Naming.ofLists st md = Naming.ofLists st' md' := by
  funext k
  simp only [Naming.ofLists, Naming.addAll, (hst.map key).mem_iff, (hmd.map key).mem_iff]

/-- Holds of sets with the same members in each class. -/
def Same (s s' : TagSet) : Prop :=
  s.structural.members.Perm s'.structural.members ∧ s.metadata.members.Perm s'.metadata.members

theorem Holds.same (h : Holds s m) (h' : Holds s' m) : s.Same s' := by
  have hmem (cls : TagClass) (k : String) : k ∈ s.members cls ↔ k ∈ s'.members cls :=
    (h k cls).trans (h' k cls).symm
  constructor
  · exact (List.perm_ext_iff_of_nodup s.structural.nodup s'.structural.nodup).mpr
      (hmem .structural)
  · exact (List.perm_ext_iff_of_nodup s.metadata.nodup s'.metadata.nodup).mpr (hmem .metadata)

theorem Holds.behind (h : Holds s m) (c : Command) :
    Holds (behind c.change s) (m.perform c) := by
  cases c with
  | register cls name =>
    rw [TagSet.behind, Command.change, Naming.perform]
    by_cases hn : Name.IsName name.toList ∧ m (key name) = none
    · obtain ⟨s', hs, h'⟩ := h.register_of_free cls hn.1 hn.2
      rw [if_pos hn, hs]
      exact h'
    · rw [if_neg hn, h.register_of_not_free hn]
      exact h
  | clear => exact holds_empty
  | replace structural metadata =>
    have hrun : (Command.replace structural metadata).change.run s =
        match ofNames structural metadata with
        | .ok s' => .ok () s'
        | .error f => .error f s := by
      change (ofExcept (ofNames structural metadata) >>= set : Change).run s = _
      cases ofNames structural metadata with
      | ok s' => rfl
      | error f => rfl
    rw [TagSet.behind, hrun, Naming.perform]
    by_cases hd : Naming.Distinct structural metadata
    · obtain ⟨s', hs, h'⟩ := ofNames_of_distinct hd
      rw [if_pos hd, hs]
      exact h'
    · obtain ⟨f, hf⟩ := ofNames_of_not_distinct hd
      rw [if_neg hd, hf]
      exact h

theorem holds_after (commands : List Command) : Holds (after commands) (.after commands) := by
  have hfold {s : TagSet} {m : Naming} (h : Holds s m) :
      Holds (commands.foldl (fun s c => TagSet.behind c.change s) s)
        (commands.foldl Naming.perform m) := by
    induction commands generalizing s m with
    | nil => exact h
    | cons c commands ih => exact ih (h.behind c)
  exact hfold holds_empty

/-- What a set answers when it holds a map, and what the next registration does. -/
structure Registered (s : TagSet) (m : Naming) : Prop where
  members : ∀ k, (k ∈ s.structural.members ↔ m k = some .structural) ∧
    (k ∈ s.metadata.members ↔ m k = some .metadata)
  disjoint : ∀ k ∈ s.structural.members, k ∉ s.metadata.members
  classify : ∀ name, s.toVocabulary.classify name = m (key name) ∧
    (s.toVocabulary.isStructural name = true ↔ m (key name) = some .structural) ∧
    (s.toVocabulary.isMetadata name = true ↔ m (key name) = some .metadata)
  contains : ∀ name, s.contains name = true ↔ (m (key name)).isSome
  names : s.names.Pairwise (fun a b => bytes a < bytes b) ∧ ∀ k, k ∈ s.names ↔ (m k).isSome
  size : s.size = {k | (m k).isSome}.ncard
  accepts : ∀ cls name, Name.IsName name.toList → m (key name) = none →
    ∃ s', (register cls name).run s = .ok () s' ∧
      s'.Holds (Function.update m (key name) (some cls))
  refuses : ∀ cls name, ¬(Name.IsName name.toList ∧ m (key name) = none) →
    (register cls name).run s =
      .error (if Name.IsName name.toList then .nameTaken name else .invalidName name) s

theorem Holds.registered (h : Holds s m) : Registered s m where
  members k := ⟨h k .structural, h k .metadata⟩
  disjoint _ := h.disjoint
  classify name :=
    ⟨(s.classify_toVocabulary name).trans (h.classify name), h.isStructural_iff, h.isMetadata_iff⟩
  contains _ := h.contains_iff
  names := ⟨h.pairwise_names, fun _ => mem_names h⟩
  size := h.size_eq
  accepts cls _ := h.register_of_free cls
  refuses _ _ := h.register_of_not_free

/-- After any commands the two sets are the map that the commands build, and two lists of names give
a set when they can, in whatever order they are. -/
theorem registered_after (commands : List Command) :
    Registered (after commands) (.after commands) ∧
      ∀ structural metadata,
        ((∃ s, ofNames structural metadata = .ok s) ↔ Naming.Distinct structural metadata) ∧
        ∀ s, ofNames structural metadata = .ok s →
          Registered s (.ofLists structural metadata) ∧
          ∀ structural' metadata', structural.Perm structural' → metadata.Perm metadata' →
            ∃ s', ofNames structural' metadata' = .ok s' ∧ s.Same s' := by
  refine ⟨(holds_after commands).registered, ?_⟩
  intro st md
  refine ⟨⟨?_, ?_⟩, ?_⟩
  · rintro ⟨s, hs⟩
    exact distinct_of_ofNames hs
  · intro hd
    obtain ⟨s, hs, -⟩ := ofNames_of_distinct hd
    exact ⟨s, hs⟩
  · intro s hs
    refine ⟨(holds_of_ofNames hs).registered, ?_⟩
    intro st' md' hst hmd
    obtain ⟨s', hs', h'⟩ := ofNames_of_distinct (distinct_of_perm hst hmd (distinct_of_ofNames hs))
    rw [← ofLists_perm hst hmd] at h'
    exact ⟨s', hs', (holds_of_ofNames hs).same h'⟩

end TagSet

end ProseMarkup
