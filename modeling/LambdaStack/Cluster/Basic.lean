import LambdaStack.Cluster.JoinClass

/-!
# Clusters

A **cluster** is a run of characters that a reader takes for one.  A text is
divided into clusters from its beginning: each character either joins the
cluster before it or begins a new one.

Whether it joins is decided by the cluster alone, for no rule looks further
back.  A cluster that is not finished yet is held with its last character
first, so that the rules look at the head of a list:

    last character      next character        they join if
    carriage return     line feed             always
    any                 mark                  always
    sign in front       any                   always
    part of a syllable  part of a syllable    one continues the other
    any                 consonant             a linker waits for one
    joiner              pictograph            a pictograph precedes it
    half of a flag      half of a flag        the first half is unpaired

Control characters join with nothing else.  `flatten_clusters` says that
dividing a text loses nothing of it.
-/

namespace LambdaStack.Cluster

/-- Whether a character links consonants. -/
def isLinker (c : Char) : Bool :=
  inRanges linkerRanges c.toNat

/-- Whether a character may stand between two linked consonants.  The zero
width non-joiner is there to keep them apart. -/
def keepsLink (c : Char) : Bool :=
  c.toNat ≠ 0x200C && (classOf c = .extend || classOf c = .joiner)

/-- A consonant is followed by a linker, and by nothing that undoes it. -/
def awaitsConsonant (before : List Char) : Bool :=
  (before.takeWhile keepsLink).any isLinker
    && (before.dropWhile keepsLink).head?.any (classOf · = .consonant)

/-- A pictograph, perhaps with marks on it, is followed by a joiner. -/
def awaitsPictograph : List Char → Bool
  | [] => false
  | last :: rest =>
    classOf last = .joiner
      && (rest.dropWhile (classOf · = .extend)).head?.any
        (classOf · = .pictograph)

/-- The last half of a flag has no other half yet. -/
def awaitsRegional (before : List Char) : Bool :=
  (before.takeWhile (classOf · = .regional)).length % 2 = 1

/-- Whether the next character joins a cluster, given with its last
character first. -/
def joins (before : List Char) (next : Char) : Bool :=
  match before.head?.map classOf with
  | none => false
  | some last =>
    let nextClass := classOf next
    if last.standsAlone || nextClass.standsAlone then
      last = .carriageReturn && nextClass = .lineFeed
    else if nextClass.isMark || last = .prepend then
      true
    else
      match nextClass with
      | .consonant => awaitsConsonant before
      | .pictograph => awaitsPictograph before
      | .regional => awaitsRegional before
      | _ => last.sameSyllable nextClass

/-- Divides a text of which the beginning of a cluster was read. -/
def clustersFrom (before : List Char) : List Char → List (List Char)
  | [] => [before.reverse]
  | c :: cs =>
    if joins before c then
      clustersFrom (c :: before) cs
    else
      before.reverse :: clustersFrom [c] cs

/-- The clusters of a text. -/
def clusters : List Char → List (List Char)
  | [] => []
  | c :: cs => clustersFrom [c] cs

theorem flatten_clustersFrom (before text : List Char) :
    (clustersFrom before text).flatten = before.reverse ++ text := by
  induction text generalizing before with
  | nil => simp [clustersFrom]
  | cons c cs ih =>
    rw [clustersFrom]
    split <;> simp [ih]

/-- The clusters of a text make up the text. -/
@[simp]
theorem flatten_clusters (text : List Char) :
    (clusters text).flatten = text := by
  cases text with
  | nil => rfl
  | cons c cs => simp [clusters, flatten_clustersFrom]

end LambdaStack.Cluster
