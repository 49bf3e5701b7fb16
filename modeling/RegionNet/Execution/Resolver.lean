import RegionNet.Execution.Strategy
import RegionNet.Random.Source

/-!
# Resolvers

The resolver used by default takes the first branch of a choice, draws the branch of a decision by
nature with the probabilities of its branches, and lets chance say whether a loop repeats until its
bound is reached. A fixed resolver always gives the same answer.
-/

namespace RegionNet.Resolver

variable {α : Type} [Quantity α]

/-- Always the same answer. -/
def fixed (answer : Option TransitionId) : Resolver Unit α := ⟨fun _ _ _ s => (answer, s)⟩

/-- A negative probability weighs nothing. -/
def weight (t : Transition α) : α := if t.probability < 0 then 0 else t.probability

/-- The transition in whose stretch a point lies, when the weights are laid end to end from zero;
the last one if it lies beyond all of them. -/
def pick (x : α) : List (Transition α) → Option TransitionId
  | [] => none
  | [t] => some t.id
  | t :: ts => if x < weight t then some t.id else pick (x - weight t) ts

/-- One of several transitions, each as likely as its weight; without weights the first. -/
def sample {σ : Type} (source : Source σ) (ts : List (Transition α)) (s : σ) :
    Option TransitionId × σ :=
  let total := Quantity.sum (ts.map weight)
  if total ≤ 0 then (ts.head?.map Transition.id, s)
  else
    let (word, s) := source.next s
    (pick (Quantity.fraction word * total) ts, s)

/-- The transition of the first branch. -/
def firstBranch : List (Transition α) → Option (Transition α)
  | [] => none
  | t :: ts =>
    match firstBranch ts with
    | some u => if u.branch.getD 0 < t.branch.getD 0 then some u else some t
    | none => some t

/-- The bound of the loop that is decided at a place is used up. -/
def boundReached (net : Net α) (p : PlaceId) (m : Marking α) : Bool :=
  match (net.place? p).bind Place.visitLimit with
  | some limit => limit ≤ (m.state p).visits
  | none => false

/-- Decides whether a loop repeats. -/
def decideLoop {σ : Type} (source : Source σ) (reached : Bool) (back exit : Option (Transition α))
    (s : σ) : Option TransitionId × σ :=
  match back, exit with
  | some back, some exit =>
    if reached then (some exit.id, s)
    else
      let (word, s) := source.next s
      (some (if Quantity.accepts back.probability word then back.id else exit.id), s)
  | some only, none => (some only.id, s)
  | none, some only => (some only.id, s)
  | none, none => (none, s)

/-- The transitions between which to decide at a place. -/
def candidates (net : Net α) (p : PlaceId) (m : Marking α) : List (Transition α) :=
  (net.outgoing p).filter fun t => t.stop && net.tokenEnabled t m

/-- The resolver used by default, with its source of chance. -/
def byDefault {σ : Type} (source : Source σ) : Resolver σ α where
  answer w p m s :=
    let ts := candidates w.net p m
    match ts with
    | [] => (none, s)
    | first :: _ =>
      match first.regionKind with
      | .choice => ((firstBranch ts).map Transition.id, s)
      | .nature => sample source ts s
      | .loop =>
        decideLoop source (boundReached w.net p m) (ts.find? (·.role = .loopBack))
          (ts.find? (·.role = .loopExit)) s
      | _ => (some first.id, s)

end RegionNet.Resolver
