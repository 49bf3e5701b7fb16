import RegionNet.Region.Basic
import RegionNet.Text.Blank

/-!
# Validity

`Region.validate` visits the regions of a tree in document order and stops at the first rule that
one of them breaks. A region is judged by its own fields, by how many children it has, and by two
things remembered from the regions before it: the ids in use, and the length of the first task's
impact vector, which all later tasks share.
-/

namespace RegionNet

/-- What can be wrong with a distribution. -/
inductive DistributionFlaw (α : Type) where
  /-- One probability where each branch needs its own. -/
  | notAList (kind : Kind)
  | wrongLength (entries children : Nat)
  | outsideUnit
  | wrongSum (sum : α)
  /-- A loop that is certain to repeat, or certain not to. -/
  | outsideOpenUnit
  /-- A list where a loop needs one probability. -/
  | notSingle
  deriving DecidableEq, Repr

/-- The number of children a kind asks for. -/
inductive Arity where
  | exactly (n : Nat)
  | atLeast (n : Nat)
  deriving DecidableEq, Repr

def Arity.allows : Arity → Nat → Bool
  | exactly n, found => found == n
  | atLeast n, found => n ≤ found

/-- A broken rule, with the id of the region that breaks it. -/
inductive Fault (α : Type) where
  | emptyId
  | duplicateId (id : String)
  | invalidDuration (id : String) (duration : α)
  | unexpectedBound (id : String)
  | unexpectedImpacts (id : String) (kind : Kind)
  | missingImpacts (id : String)
  | invalidImpact (id : String)
  | impactLength (id : String) (expected found : Nat)
  | unexpectedChildren (id : String) (kind : Kind)
  | childCount (id : String) (kind : Kind) (expected : Arity) (found : Nat)
  | unexpectedDistribution (id : String) (kind : Kind)
  | missingDistribution (id : String) (kind : Kind)
  | invalidDistribution (id : String) (flaw : DistributionFlaw α)
  | missingBound (id : String)
  | invalidBound (id : String) (bound : α)
  | malformed (id : String) (kind : Kind)
  deriving DecidableEq, Repr

namespace Fault

variable {α : Type}

/-- No fault if the rule `c` is kept, and the given one otherwise. -/
def require (c : Prop) [Decidable c] (f : Fault α) : Option (Fault α) := if c then none else some f

@[simp]
theorem require_eq_none_iff {c : Prop} [Decidable c] {f : Fault α} : require c f = none ↔ c := by
  simp [require]

theorem require_eq_some_iff {c : Prop} [Decidable c] {f g : Fault α} :
    require c f = some g ↔ ¬ c ∧ f = g := by
  simp [require]

end Fault

/-- The number of children that a region of a kind must have; a task must have none at all. -/
def Kind.arity : Kind → Arity
  | task => .exactly 0
  | sequential => .exactly 2
  | parallel => .atLeast 2
  | choice => .atLeast 2
  | nature => .atLeast 2
  | loop => .exactly 1

namespace Region

open Fault (require)

/-- What is remembered of the regions visited so far. -/
structure Visited where
  ids : List String
  /-- The length of the first task's impact vector. -/
  impactLength : Option Nat

def Visited.none : Visited := ⟨[], .none⟩

variable {α : Type} [Quantity α]

/-- A finite number that is not negative. -/
def isAmount (x : α) : Bool := Quantity.isFinite x && !decide (x < 0)

/-- A finite number from zero to one. -/
def isShare (x : α) : Bool := Quantity.isFinite x && (decide (0 ≤ x) && decide (x ≤ 1))

def noImpacts (r : Region α) : Option (Fault α) :=
  require (r.impacts.isNone = true) (.unexpectedImpacts r.id r.kind)

def noDistribution (r : Region α) : Option (Fault α) :=
  require (r.distribution.isNone = true) (.unexpectedDistribution r.id r.kind)

def childCount (r : Region α) : Option (Fault α) :=
  require (r.kind.arity.allows r.branches.length = true)
    (.childCount r.id r.kind r.kind.arity r.branches.length)

/-- The rules for the impacts of a task. -/
def taskImpacts (seen : Visited) (r : Region α) : Option (Fault α) :=
  match r.impacts with
  | none => some (.missingImpacts r.id)
  | some v =>
    require (v.all isAmount = true) (.invalidImpact r.id) <|>
    match seen.impactLength with
    | none => none
    | some expected => require (expected = v.length) (.impactLength r.id expected v.length)

/-- What is wrong with the probabilities of `n` branches of a choice or a draw by nature. -/
def branchFlaw (kind : Kind) (n : Nat) : Distribution α → Option (DistributionFlaw α)
  | .single _ => some (.notAList kind)
  | .branches ps =>
    if ps.length ≠ n then some (.wrongLength ps.length n)
    else if ps.all isShare = false then some .outsideUnit
    else
      let s := Quantity.sum ps
      if Quantity.slack < s - 1 ∨ Quantity.slack < 1 - s then some (.wrongSum s) else none

def branchDistribution (r : Region α) (d : Distribution α) : Option (Fault α) :=
  (branchFlaw r.kind r.branches.length d).map (.invalidDistribution r.id)

/-- The rules for the probability that a loop repeats. -/
def loopProbability (r : Region α) : Option (Fault α) :=
  match r.distribution with
  | none => some (.missingDistribution r.id r.kind)
  | some (.branches _) => some (.invalidDistribution r.id .notSingle)
  | some (.single p) => require (0 < p ∧ p < 1) (.invalidDistribution r.id .outsideOpenUnit)

def boundPresent (r : Region α) : Option (Fault α) :=
  match r.bound with
  | none => some (.missingBound r.id)
  | some b => require (r.loopBound.isSome = true) (.invalidBound r.id b)

/-- The rules that depend on the kind. -/
def kindFault (seen : Visited) (r : Region α) : Option (Fault α) :=
  match r.kind with
  | .task =>
    require (r.branches.isEmpty = true) (.unexpectedChildren r.id r.kind) <|>
    r.noDistribution <|> r.taskImpacts seen
  | .sequential => r.noImpacts <|> r.noDistribution <|> r.childCount
  | .parallel => r.noImpacts <|> r.noDistribution <|> r.childCount
  | .choice => r.noImpacts <|> r.childCount <|> r.distribution.bind r.branchDistribution
  | .nature =>
    r.noImpacts <|> r.childCount <|>
    match r.distribution with
    | none => some (.missingDistribution r.id r.kind)
    | some d => r.branchDistribution d
  | .loop => r.noImpacts <|> r.childCount <|> r.loopProbability <|> r.boundPresent

/-- The first rule that a region breaks by itself. -/
def fault (seen : Visited) (r : Region α) : Option (Fault α) :=
  require (Text.blank r.id.toList = false) .emptyId <|>
  require (r.id ∉ seen.ids) (.duplicateId r.id) <|>
  require (isAmount r.duration = true) (.invalidDuration r.id r.duration) <|>
  require (r.bound.isSome = true → r.kind = .loop) (.unexpectedBound r.id) <|>
  r.kindFault seen

/-- What is remembered after a region has passed. -/
def visit (seen : Visited) (r : Region α) : Visited :=
  ⟨r.id :: seen.ids,
    match r.kind, seen.impactLength, r.impacts with
    | .task, none, some v => some v.length
    | _, known, _ => known⟩

/-- The first rule broken in a list of regions. -/
def firstFault (seen : Visited) : List (Region α) → Option (Fault α)
  | [] => none
  | r :: rs => r.fault seen <|> firstFault (r.visit seen) rs

/-- Accepts a process description, or reports the first broken rule in document order. -/
def validate (r : Region α) : Except (Fault α) Unit :=
  match firstFault .none r.preorder with
  | some f => .error f
  | none => .ok ()

end Region

end RegionNet
