import RegionNet.Net.Basic

/-!
# Layouts

Where each region of a compiled process sits in its net: the tree of regions, each with the place
where it starts and the place where it ends. `Layout.entries` lists the tree in document order, with
the links between parents and children written as positions in that list.
-/

namespace RegionNet

/-- One region of a compiled process. -/
structure RegionInfo where
  id : String
  kind : Kind
  label : String
  entry : PlaceId
  exit : PlaceId
  deriving DecidableEq, Repr

/-- The regions of a compiled process as a tree. -/
inductive Layout where
  | node (info : RegionInfo) (children : List Layout)

namespace Layout

def info : Layout → RegionInfo
  | node i _ => i

def children : Layout → List Layout
  | node _ cs => cs

mutual

/-- The number of regions. -/
def size : Layout → Nat
  | node _ cs => 1 + sizes cs

def sizes : List Layout → Nat
  | [] => 0
  | l :: ls => l.size + sizes ls

end

mutual

/-- The regions in document order. -/
def infos : Layout → List RegionInfo
  | node i cs => i :: infosAll cs

def infosAll : List Layout → List RegionInfo
  | [] => []
  | l :: ls => l.infos ++ infosAll ls

end

/-- One line of the list of regions: its links are positions in the list. -/
structure Entry where
  info : RegionInfo
  parent : Option Nat
  children : List Nat
  deriving DecidableEq, Repr

/-- The positions of the roots of consecutive trees, of which the first is listed at `start`. -/
def positions (start : Nat) : List Layout → List Nat
  | [] => []
  | l :: ls => start :: positions (start + l.size) ls

mutual

/-- The lines of a tree whose root is listed at `start`. -/
def entriesFrom (parent : Option Nat) (start : Nat) : Layout → List Entry
  | node i cs => ⟨i, parent, positions (start + 1) cs⟩ :: entriesOf start (start + 1) cs

/-- The lines of consecutive trees below `parent`, of which the first is listed at `start`. -/
def entriesOf (parent start : Nat) : List Layout → List Entry
  | [] => []
  | l :: ls => l.entriesFrom (some parent) start ++ entriesOf parent (start + l.size) ls

end

/-- All regions in document order. -/
def entries (l : Layout) : List Entry := l.entriesFrom none 0

/-- The position of the region with the given id. -/
def position? (l : Layout) (id : String) : Option Nat := l.entries.findIdx? (·.info.id = id)

end Layout

end RegionNet
