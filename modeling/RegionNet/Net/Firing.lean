import RegionNet.Net.Marking

/-!
# Firing

When a transition can fire, and what firing and the passing of time do to a marking. A transition is
token-enabled if its preset holds the tokens and no loop bound forbids it, and enabled if moreover
these tokens have rested long enough.
-/

namespace RegionNet

variable {α : Type} [Quantity α]

namespace Net

/-- The transition would repeat a loop whose bound is used up. -/
def loopBoundReached (net : Net α) (t : Transition α) (m : Marking α) : Bool :=
  t.role = .loopBack && t.inputs.any fun p =>
    match (net.place? p).bind Place.visitLimit with
    | some limit => limit ≤ (m.state p).visits
    | none => false

def tokenEnabled (net : Net α) (t : Transition α) (m : Marking α) : Bool :=
  (t.preset.all fun (p, w) => w ≤ m.tokens p) && !net.loopBoundReached t m

/-- The tokens on a place have rested for the place's duration. -/
def rested (net : Net α) (m : Marking α) (p : PlaceId) : Bool :=
  match net.place? p with
  | some place => place.duration ≤ (m.state p).age + Quantity.slack
  | none => true

def enabled (net : Net α) (t : Transition α) (m : Marking α) : Bool :=
  net.tokenEnabled t m && t.inputs.all (net.rested m)

def enabledTransitions (net : Net α) (m : Marking α) : List TransitionId :=
  (net.transitions.filter (net.enabled · m)).map Transition.id

/-- How long the tokens of a transition's preset still have to rest. -/
def remainingWait (net : Net α) (t : Transition α) (m : Marking α) : α :=
  t.inputs.foldl (fun wait p =>
    match net.place? p with
    | some place => Quantity.larger wait (place.duration - (m.state p).age)
    | none => wait) 0

end Net

namespace PlaceState

/-- A state after `w` tokens were taken: the age starts anew and one more visit is over. -/
def take (w : Nat) (s : PlaceState α) : PlaceState α := ⟨s.tokens - w, 0, s.visits + 1⟩

def put (w : Nat) (s : PlaceState α) : PlaceState α := { s with tokens := s.tokens + w }

def forget (s : PlaceState α) : PlaceState α := { s with visits := 0 }

def rest (dt : α) (s : PlaceState α) : PlaceState α := { s with age := s.age + dt }

end PlaceState

namespace Marking

/-- The marking after a transition has fired, enabled or not: tokens are taken, then put, then the
visits that the transition resets are forgotten. -/
def fire (t : Transition α) (m : Marking α) : Marking α :=
  let taken := t.preset.foldl (fun m (p, w) => m.modify p (.take w)) m
  let put := t.postset.foldl (fun m (p, w) => m.modify p (.put w)) taken
  t.resetVisits.foldl (fun m p => m.modify p .forget) put

/-- The marking after some time has passed: tokens grow older where there are any. -/
def addTime (dt : α) (m : Marking α) : Marking α :=
  m.marked.foldl (fun m p => m.modify p (.rest dt)) m

end Marking

end RegionNet
