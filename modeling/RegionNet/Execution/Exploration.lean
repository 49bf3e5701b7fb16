import RegionNet.Execution.Step
import RegionNet.Status

/-!
# Explorations

What was found while running a workflow: a tree of snapshots below the initial one, with a cursor
that says where the next step starts. Nodes are numbered in the order in which they were found and
are never changed or removed; a node only gains children. A step that leads where a child of the
current node already is leads to that child, and no step leads away from a final marking.
-/

namespace RegionNet

/-- The state of a run: where it is, and what it took to come there from the start. -/
structure Snapshot (α : Type) where
  marking : Marking α
  probability : α
  impacts : List α
  time : α
  status : List (String × Activity)

structure ExplorationNode (α : Type) where
  id : Nat
  parent : Option Nat
  children : List Nat
  snapshot : Snapshot α

structure Exploration (α : Type) where
  nodes : List (ExplorationNode α)
  cursor : Nat
  cursor_lt : cursor < nodes.length

variable {α : Type} [Quantity α]

namespace Snapshot

/-- The start of a run. -/
def initial (w : Workflow α) : Snapshot α :=
  { marking := w.initial
    probability := 1
    impacts := List.replicate w.dimensions 0
    time := 0
    status := w.status w.initial }

/-- The state of a run after one more step. -/
def extend (w : Workflow α) (before : Snapshot α) (s : Step α) : Snapshot α :=
  { marking := s.marking
    probability := before.probability * s.probability
    impacts := Quantity.addEntries before.impacts s.impacts
    time := before.time + s.elapsed
    status := w.status s.marking }

end Snapshot

namespace Exploration

/-- The exploration that has found nothing but its root. -/
def ofRoot (root : Snapshot α) : Exploration α := ⟨[⟨0, none, [], root⟩], 0, by simp⟩

/-- The exploration of a workflow that has not begun yet. -/
def start (w : Workflow α) : Exploration α := ofRoot (.initial w)

/-- The node under the cursor. -/
def current (t : Exploration α) : ExplorationNode α := t.nodes.get ⟨t.cursor, t.cursor_lt⟩

def node? (t : Exploration α) (id : Nat) : Option (ExplorationNode α) := t.nodes[id]?

/-- The children of a node; none for an unknown id. -/
def children (t : Exploration α) (id : Nat) : List Nat :=
  match t.node? id with
  | some n => n.children
  | none => []

/-- Moves the cursor, unless the id is unknown. -/
def moveTo (t : Exploration α) (id : Nat) : Exploration α :=
  if h : id < t.nodes.length then { t with cursor := id, cursor_lt := h } else t

/-- The child of the current node that has the given marking. -/
def childWith (t : Exploration α) (m : Marking α) : Option Nat :=
  t.current.children.find? fun c =>
    match t.node? c with
    | some n => n.snapshot.marking == m
    | none => false

/-- Adds a node below the current one. -/
def grow (t : Exploration α) (snapshot : Snapshot α) : Exploration α :=
  { nodes :=
      t.nodes.modify t.cursor (fun n => { n with children := n.children ++ [t.nodes.length] }) ++
        [⟨t.nodes.length, some t.cursor, [], snapshot⟩]
    cursor := t.cursor
    cursor_lt := by
      have := t.cursor_lt
      simp only [List.length_append, List.length_modify]
      omega }

/-- Where a step from the current node leads, and the exploration that knows of it. With `follow`
the cursor moves there. -/
def record (t : Exploration α) (w : Workflow α) (s : Step α) (follow : Bool) :
    Nat × Exploration α :=
  let here := t.current
  if w.isFinal here.snapshot.marking then (here.id, t)
  else
    match t.childWith s.marking with
    | some child => (child, if follow then t.moveTo child else t)
    | none =>
      let grown := t.grow (here.snapshot.extend w s)
      let child := t.nodes.length
      (child, if follow then grown.moveTo child else grown)

/-- The nodes whose markings fit a pattern. -/
def search (t : Exploration α) (pattern : Pattern α) : List Nat :=
  (t.nodes.filter (·.snapshot.marking.fits pattern)).map ExplorationNode.id

/-- The ids met on the way up from a node, for at most the given number of nodes. -/
def climb (t : Exploration α) : Nat → Nat → List Nat
  | 0, _ => []
  | fuel + 1, id =>
    match t.node? id with
    | none => []
    | some n =>
      match n.parent with
      | none => [n.id]
      | some p => n.id :: t.climb fuel p

/-- The ids from the root down to a node. No way is longer than there are nodes. -/
def pathTo (t : Exploration α) (id : Nat) : Option (List Nat) :=
  (t.node? id).map fun _ => (t.climb t.nodes.length id).reverse

end Exploration

end RegionNet
