import RegionNet.Quantity

/-!
# Regions

A process is described by a tree of regions: tasks at the leaves, and sequences, parallel blocks,
choices, draws by nature and bounded loops above them. A `Region` is the description as it is
written down: every field may be present whatever the kind, and nothing is promised about how the
fields fit together. `Region.validate` says which descriptions make sense.
-/

namespace RegionNet

/-- What a region does with its children. -/
inductive Kind where
  | task
  | sequential
  | parallel
  | choice
  | nature
  | loop
  deriving DecidableEq, Repr, Inhabited

namespace Kind

/-- The name of a kind in running text. -/
def title : Kind → String
  | task => "Task"
  | sequential => "Sequential"
  | parallel => "Parallel"
  | choice => "Choice"
  | nature => "Nature"
  | loop => "Loop"

/-- The name of a kind in data. -/
def keyword : Kind → String
  | task => "task"
  | sequential => "sequential"
  | parallel => "parallel"
  | choice => "choice"
  | nature => "nature"
  | loop => "loop"

def all : List Kind := [task, sequential, parallel, choice, nature, loop]

end Kind

/-- How likely the outcomes of a decision are: one probability, or one for each branch. -/
inductive Distribution (α : Type) where
  | single (probability : α)
  | branches (probabilities : List α)
  deriving DecidableEq, Repr

/-- One region of a process description, with everything below it. -/
structure Region (α : Type) where
  id : String
  kind : Kind
  label : Option String
  duration : α
  impacts : Option (List α)
  children : Option (List (Region α))
  distribution : Option (Distribution α)
  bound : Option α

namespace Region

variable {α : Type}

/-- The children, where an absent list counts as an empty one. -/
def branches (r : Region α) : List (Region α) := r.children.getD []

mutual

/-- The region and all regions below it in document order: depth first, parents first. -/
def preorder (r : Region α) : List (Region α) :=
  r :: match r with
    | ⟨_, _, _, _, _, some children, _, _⟩ => preorders children
    | ⟨_, _, _, _, _, none, _, _⟩ => []
termination_by structural r

/-- The regions of several trees, one tree after the other. -/
def preorders : List (Region α) → List (Region α)
  | [] => []
  | r :: rs => r.preorder ++ preorders rs
termination_by structural rs => rs

end

/-- The largest number of repetitions that a loop may allow. -/
def maxBound : Nat := 4294967295

section

variable [Quantity α]

/-- The bound as a count: present only if it is a whole number from `1` to `maxBound`. -/
def loopBound (r : Region α) : Option Nat :=
  r.bound.bind fun b =>
    let n := Quantity.whole b
    if ((n : α) == b) = true ∧ 1 ≤ n ∧ n ≤ maxBound then some n else none

end

end Region

end RegionNet
