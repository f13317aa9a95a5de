import ProseMarkup.Text.Cluster.Class

namespace ProseMarkup.Text.Cluster

/-- What the rules need to know of the cluster read so far. -/
structure Context where
  last : Class
  /-- The last character is a regional indicator that still lacks its partner. -/
  unpaired : Bool
  /-- The last character belongs to a pictograph and its extenders. -/
  pictograph : Bool
  /-- The last character is a joiner after a pictograph and its extenders. -/
  joined : Bool
  consonant : Bool
  /-- A linker stands among the extenders of that consonant. -/
  linked : Bool

def Context.empty : Context :=
  ⟨.control, false, false, false, false, false⟩

/-- Holds of the marks that may stand between two consonants beside a linker. -/
def bridges (c : Char) : Bool :=
  (classOf c = .extend || classOf c = .joiner) && c ≠ '\u200c'

def Context.add (ctx : Context) (c : Char) : Context where
  last := classOf c
  unpaired := classOf c = .regional && !ctx.unpaired
  pictograph := isPictographic c || (classOf c = .extend && ctx.pictograph)
  joined := classOf c = .joiner && ctx.pictograph
  consonant := isConsonant c || (bridges c && ctx.consonant)
  linked := bridges c && ctx.consonant && (isLinker c || ctx.linked)

def Context.continues (ctx : Context) (c : Char) : Bool :=
  match ctx.last, classOf c with
  | .carriageReturn, .lineFeed => true
  | .control, _ | .carriageReturn, _ | .lineFeed, _ => false
  | _, .control | _, .carriageReturn | _, .lineFeed => false
  | .leading, .leading | .leading, .vowel | .leading, .leadingVowel
  | .leading, .leadingVowelTrailing => true
  | .leadingVowel, .vowel | .leadingVowel, .trailing | .vowel, .vowel | .vowel, .trailing => true
  | .leadingVowelTrailing, .trailing | .trailing, .trailing => true
  | _, .extend | _, .joiner | _, .spacingMark => true
  | .prepended, _ => true
  | .regional, .regional => ctx.unpaired
  | _, _ => (isConsonant c && ctx.linked) || (isPictographic c && ctx.joined)

/-- The rest of the cluster that `ctx` has read, and the clusters after it. -/
def clustersFrom (ctx : Context) : List Char → List Char × List (List Char)
  | [] => ([], [])
  | c :: cs =>
    if ctx.continues c then
      let (own, others) := clustersFrom (ctx.add c) cs
      (c :: own, others)
    else
      let (own, others) := clustersFrom (Context.empty.add c) cs
      ([], (c :: own) :: others)

def clusters (cs : List Char) : List (List Char) :=
  (clustersFrom .empty cs).2

theorem clustersFrom_flatten (ctx : Context) (cs : List Char) :
    (clustersFrom ctx cs).1 ++ (clustersFrom ctx cs).2.flatten = cs := by
  induction cs generalizing ctx with
  | nil => rfl
  | cons c cs ih =>
    by_cases h : ctx.continues c
    · simp [clustersFrom, h, ih]
    · simp [clustersFrom, h, ih]

theorem Context.empty_continues (c : Char) : Context.empty.continues c = false := by
  simp only [Context.continues, Context.empty]

theorem clustersFrom_empty (cs : List Char) : (clustersFrom .empty cs).1 = [] := by
  cases cs with
  | nil => rfl
  | cons c cs => simp [clustersFrom, Context.empty_continues]

theorem clusters_flatten (cs : List Char) : (clusters cs).flatten = cs := by
  have h := clustersFrom_flatten .empty cs
  rwa [clustersFrom_empty, List.nil_append] at h

theorem ne_nil_of_mem_clustersFrom (ctx : Context) (cs : List Char) :
    ∀ k ∈ (clustersFrom ctx cs).2, k ≠ [] := by
  induction cs generalizing ctx with
  | nil => simp [clustersFrom]
  | cons c cs ih =>
    by_cases h : ctx.continues c
    · simpa [clustersFrom, h] using ih (ctx.add c)
    · simpa [clustersFrom, h] using ih (Context.empty.add c)

theorem ne_nil_of_mem_clusters {k cs : List Char} (h : k ∈ clusters cs) : k ≠ [] :=
  ne_nil_of_mem_clustersFrom .empty cs k h

end ProseMarkup.Text.Cluster
