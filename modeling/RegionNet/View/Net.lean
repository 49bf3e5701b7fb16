import RegionNet.Json.Value
import RegionNet.Workflow.Basic

/-!
# Net views

A compiled net as data for readers: every node under its textual name, all arcs between them, and
the markings in which the process starts and ends.
-/

namespace RegionNet

structure PlaceView (α : Type) where
  id : String
  label : String
  entryOf : Option String
  exitOf : Option String
  duration : α
  impacts : Option (List α)
  visitLimit : Option Nat
  deriving DecidableEq, Repr

structure TransitionView (α : Type) where
  id : String
  label : String
  regionId : String
  regionKind : Kind
  role : Role
  probability : α
  stop : Bool
  deriving DecidableEq, Repr

structure ArcView where
  source : String
  target : String
  weight : Nat
  deriving DecidableEq, Repr

/-- A place that holds tokens or has been visited. -/
structure PlaceStateView (α : Type) where
  place : String
  state : PlaceState α
  deriving Repr

structure NetView (α : Type) where
  name : String
  places : List (PlaceView α)
  transitions : List (TransitionView α)
  arcs : List ArcView
  initial : List (PlaceStateView α)
  final : List (PlaceStateView α)

section

variable {α : Type}

/-- What a place lies between. -/
def Place.label (p : Place α) : String :=
  match p.entryOf, p.exitOf with
  | some entry, some exit => exit ++ " / " ++ entry
  | some entry, none => "before " ++ entry
  | none, some exit => "after " ++ exit
  | none, none => p.id.name

def Place.view (p : Place α) : PlaceView α :=
  { id := p.id.name, label := p.label, entryOf := p.entryOf, exitOf := p.exitOf,
    duration := p.duration, impacts := p.impacts, visitLimit := p.visitLimit }

def Transition.view (t : Transition α) : TransitionView α :=
  { id := t.id.name, label := t.label, regionId := t.regionId, regionKind := t.regionKind,
    role := t.role, probability := t.probability, stop := t.stop }

def Arc.view (a : Arc) : ArcView := ⟨a.source.name, a.target.name, a.weight⟩

/-- The places that a token is on, or was on. Other places tell a reader nothing. -/
def Marking.view (m : Marking α) : List (PlaceStateView α) :=
  (m.states.filter fun (_, s) => 0 < s.tokens || 0 < s.visits).map fun (p, s) => ⟨p.name, s⟩

/-- The net of a workflow under a name. -/
def Workflow.netView (w : Workflow α) (name : String) : NetView α :=
  { name
    places := w.net.places.map Place.view
    transitions := w.net.transitions.map Transition.view
    arcs := w.net.arcs.map Arc.view
    initial := w.initial.view
    final := w.final.view }

end

/-! ## JSON forms -/

namespace Json

def numbers (xs : List Float) : Json := array (xs.map number)

end Json

def PlaceView.toJson (p : PlaceView Float) : Json :=
  .present
    [("id", some (.string p.id)), ("label", some (.string p.label)),
     ("entry_region_id", p.entryOf.map .string), ("exit_region_id", p.exitOf.map .string),
     ("duration", some (.number p.duration)), ("impacts", p.impacts.map Json.numbers),
     ("visit_limit", p.visitLimit.map .nat)]

def TransitionView.toJson (t : TransitionView Float) : Json :=
  .object
    [("id", .string t.id), ("label", .string t.label), ("region_id", .string t.regionId),
     ("region_type", .string t.regionKind.keyword), ("role", .string t.role.keyword),
     ("probability", .number t.probability), ("stop", .bool t.stop)]

def ArcView.toJson (a : ArcView) : Json :=
  .object [("source", .string a.source), ("target", .string a.target), ("weight", .nat a.weight)]

def PlaceStateView.toJson (s : PlaceStateView Float) : Json :=
  .object
    [("place", .string s.place), ("tokens", .nat s.state.tokens), ("age", .number s.state.age),
     ("visit_count", .nat s.state.visits)]

def NetView.toJson (v : NetView Float) : Json :=
  .object
    [("name", .string v.name), ("places", .array (v.places.map PlaceView.toJson)),
     ("transitions", .array (v.transitions.map TransitionView.toJson)),
     ("arcs", .array (v.arcs.map ArcView.toJson)),
     ("initial_marking", .array (v.initial.map PlaceStateView.toJson)),
     ("final_marking", .array (v.final.map PlaceStateView.toJson))]

end RegionNet
