import RegionNet.Workflow.Basic

/-!
# Steps

A step is what happened between two markings: the marking it ends in, how likely it was, and what it
cost in impacts and time. Steps compose from left to right, and firing a transition extends a step.
-/

namespace RegionNet

structure Step (α : Type) where
  marking : Marking α
  probability : α
  impacts : List α
  elapsed : α
  /-- What is left of the time budget, if there was one. -/
  remaining : Option α
  deriving Repr

/-- Two ways to account for time. Counting charges a token's whole duration when it is taken, and
nobody ever waits. Timing lets tokens rest until they are due; a call then stops after one time
step, if there is a limit. -/
inductive Timing (α : Type) where
  | counter
  | duration (timeStep : Option α)
  deriving Repr

variable {α : Type} [Quantity α]

namespace Step

/-- The step in which nothing happens. -/
def identity (m : Marking α) (dimensions : Nat) : Step α :=
  ⟨m, 1, List.replicate dimensions 0, 0, none⟩

/-- One step after another. -/
def andThen (first next : Step α) : Step α :=
  { marking := next.marking
    probability := first.probability * next.probability
    impacts := Quantity.addEntries first.impacts next.impacts
    elapsed := first.elapsed + next.elapsed
    remaining := next.remaining }

end Step

namespace Timing

/-- The rule that says when a transition can fire. -/
def enabled : Timing α → Net α → Transition α → Marking α → Bool
  | counter => Net.tokenEnabled
  | duration _ => Net.enabled

/-- The time charged for taking a token from a place. -/
def dwell : Timing α → Place α → α
  | counter, p => p.duration
  | duration _, _ => 0

/-- The time that one call may use. -/
def budget : Timing α → Option α
  | counter => none
  | duration timeStep => timeStep

/-- Time may pass while nothing can fire. -/
def advancesClock : Timing α → Bool
  | counter => false
  | duration _ => true

/-- Charges a step for the token taken from a place. -/
def charge (timing : Timing α) (net : Net α) (s : Step α) (p : PlaceId) : Step α :=
  match net.place? p with
  | none => s
  | some place =>
    { s with
      impacts := match place.impacts with
        | some v => Quantity.addEntries s.impacts v
        | none => s.impacts
      elapsed := s.elapsed + timing.dwell place }

/-- Extends a step by one firing. -/
def fire (timing : Timing α) (net : Net α) (s : Step α) (t : Transition α) : Step α :=
  let s := t.inputs.foldl (timing.charge net) s
  { s with probability := s.probability * t.probability, marking := s.marking.fire t }

/-- Extends a step by a list of firings. -/
def fireAll (timing : Timing α) (net : Net α) (s : Step α) (ts : List (Transition α)) : Step α :=
  ts.foldl (timing.fire net) s

end Timing

end RegionNet
