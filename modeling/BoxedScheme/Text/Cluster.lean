import BoxedScheme.Text.ClusterClass

/-!
# Clusters

The extended grapheme clusters of Unicode: what a reader takes for one character. A text is cut between two
characters unless a rule joins them, and the rules look at the classes of the two and at a little of what
stands before them.

* `Text.clusters`: a text cut into its clusters.
* `Text.flatten_clusters`: cutting loses nothing.
-/

namespace BoxedScheme.Text

/-- How far a text has come with two consonants that form one sign. -/
inductive Conjunct where
  | none
  /-- A consonant, and marks behind it. -/
  | begun
  /-- A consonant, and marks behind it of which one is a linker. -/
  | linked
deriving DecidableEq

/-- What the rules need to know of the characters so far. -/
structure ClusterState where
  last : ClusterClass
  /-- The text ends in an odd number of halves of flags. -/
  oddRegional : Bool
  /-- The text ends in a pictograph with marks behind it, and perhaps a joiner. -/
  pictograph : Bool
  conjunct : Conjunct

namespace ClusterState

/-- Nothing so far. -/
def start : ClusterState := ⟨.control, false, false, .none⟩

/-- A character of the given class goes on with the last cluster. -/
def joins (s : ClusterState) (next : ClusterClass) : Bool :=
  match s.last, next with
  | .carriageReturn, .lineFeed => true
  | .control, _ | .carriageReturn, _ | .lineFeed, _ => false
  | _, .control | _, .carriageReturn | _, .lineFeed => false
  | .leadingConsonant, .leadingConsonant | .leadingConsonant, .vowel
  | .leadingConsonant, .openSyllable | .leadingConsonant, .closedSyllable => true
  | .openSyllable, .vowel | .vowel, .vowel => true
  | .openSyllable, .trailingConsonant | .vowel, .trailingConsonant => true
  | .closedSyllable, .trailingConsonant | .trailingConsonant, .trailingConsonant => true
  | _, .extend | _, .joiner | _, .spacingMark => true
  | .prepend, _ => true
  | _, .consonant => s.conjunct = .linked
  | .joiner, .pictograph => s.pictograph
  | .regional, .regional => s.oddRegional
  | _, _ => false

/-- The conjunct after one character more. The zero width non-joiner ends it. -/
def nextConjunct (s : ClusterState) (c : Char) (next : ClusterClass) : Conjunct :=
  match next with
  | .consonant => .begun
  | .extend | .joiner =>
    if s.conjunct = .none ∨ c.toNat = 0x200c then .none
    else if c.toNat ∈ linkers then .linked
    else s.conjunct
  | _ => .none

/-- The state after one character more. -/
def advance (s : ClusterState) (c : Char) : ClusterState :=
  let next := ClusterClass.ofChar c
  { last := next
    oddRegional := next = .regional ∧ ¬ (s.last = .regional ∧ s.oddRegional)
    pictograph := next = .pictograph
      ∨ (next = .extend ∨ next = .joiner) ∧ s.pictograph ∧ s.last ≠ .joiner
    conjunct := s.nextConjunct c next }

end ClusterState

/-- The clusters of a text that goes on from `cluster`, whose last character stands first. -/
def clustersFrom (s : ClusterState) (cluster : List Char) : List Char → List (List Char)
  | [] => [cluster.reverse]
  | c :: rest =>
    if s.joins (.ofChar c) then clustersFrom (s.advance c) (c :: cluster) rest
    else cluster.reverse :: clustersFrom (s.advance c) [c] rest

def clusters : List Char → List (List Char)
  | [] => []
  | c :: rest => clustersFrom (ClusterState.start.advance c) [c] rest

theorem flatten_clustersFrom (s : ClusterState) (cluster rest : List Char) :
    (clustersFrom s cluster rest).flatten = cluster.reverse ++ rest := by
  induction rest generalizing s cluster with
  | nil => simp [clustersFrom]
  | cons c rest ih =>
    rw [clustersFrom]
    split <;> simp [ih]

theorem flatten_clusters (cs : List Char) : (clusters cs).flatten = cs := by
  cases cs with
  | nil => rfl
  | cons c rest => simp [clusters, flatten_clustersFrom]

end BoxedScheme.Text
