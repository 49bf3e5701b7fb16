import RegionNet.Execution.Exploration
import RegionNet.View.Net

/-!
# Tree views

An exploration as nested data for readers: each node with its children inside it, in the order in
which they were found.
-/

namespace RegionNet

structure SnapshotView (α : Type) where
  marking : List (PlaceStateView α)
  probability : α
  impacts : List α
  time : α
  /-- In ascending order of region ids. -/
  status : List (String × Activity)

inductive NodeView (α : Type) where
  | node (name : String) (id : Nat) (snapshot : SnapshotView α) (children : List (NodeView α))

structure TreeView (α : Type) where
  root : NodeView α
  current : Nat

section

variable {α : Type}

def sortedStatus (status : List (String × Activity)) : List (String × Activity) :=
  status.mergeSort fun a b => a.1 ≤ b.1

def Snapshot.view (s : Snapshot α) : SnapshotView α :=
  { marking := s.marking.view
    probability := s.probability
    impacts := s.impacts
    time := s.time
    status := sortedStatus s.status }

def ExplorationNode.title (n : ExplorationNode α) : String :=
  if n.parent.isNone then "Root" else "Step " ++ toString n.id

namespace Exploration

/-- The view of a node and of everything at most `depth` levels below it. -/
def nodeView (t : Exploration α) : Nat → ExplorationNode α → NodeView α
  | 0, n => .node n.title n.id n.snapshot.view []
  | depth + 1, n =>
    .node n.title n.id n.snapshot.view
      ((n.children.filterMap t.node?).map (t.nodeView depth))

/-- The node that has no parent. -/
def root (t : Exploration α) : ExplorationNode α :=
  t.nodes.head (List.ne_nil_of_length_pos (Nat.zero_lt_of_lt t.cursor_lt))

/-- The whole exploration. No node is deeper than there are nodes. -/
def view (t : Exploration α) : TreeView α := ⟨t.nodeView t.nodes.length t.root, t.cursor⟩

end Exploration

end

/-! ## JSON forms -/

def statusJson (status : List (String × Activity)) : Json :=
  .object (status.map fun (id, a) => (id, .string a.keyword))

def SnapshotView.toJson (s : SnapshotView Float) : Json :=
  .object
    [("marking", .array (s.marking.map PlaceStateView.toJson)),
     ("probability", .number s.probability), ("impacts", Json.numbers s.impacts),
     ("execution_time", .number s.time), ("region_status", statusJson s.status)]

mutual

def NodeView.toJson : NodeView Float → Json
  | .node name id snapshot children =>
    .object
      [("name", .string name), ("id", .nat id), ("snapshot", snapshot.toJson),
       ("children", .array (nodesJson children))]

def nodesJson : List (NodeView Float) → List Json
  | [] => []
  | n :: ns => n.toJson :: nodesJson ns

end

def TreeView.toJson (v : TreeView Float) : Json :=
  .object [("root", v.root.toJson), ("current_node", .nat v.current)]

end RegionNet
