import RegionNet.Region.Shape
import RegionNet.Text.Blank
import RegionNet.Workflow.Layout

/-!
# Assembling a net

A `Builder` is a net under construction together with the next free number, which places and
transitions share. `Builder.assemble` adds the places and transitions of a block behind an entry
place that is already there, and answers with the block's layout.

Of the places that were there before, assembling changes only the entry place: it adds the region's
duration to it, and the tag and the impacts of the regions that start there.
-/

namespace RegionNet

structure Builder (α : Type) where
  /-- The number of the next place or transition. -/
  next : Nat
  net : Net α
  /-- The kinds of the regions that were given a numbered label. -/
  numbered : List Kind
  /-- The length of the first task's impact vector. -/
  dimensions : Option Nat

/-- An answer, and the builder afterwards. -/
structure Built (α β : Type) where
  result : β
  builder : Builder α

/-- What a transition does, before it has a number and a region. -/
structure Wiring (α : Type) where
  role : Role
  label : String
  probability : α
  stop : Bool := false
  branch : Option Nat := none
  inputs : List PlaceId
  outputs : List PlaceId
  resets : List PlaceId := []

namespace Builder

variable {α : Type} [Quantity α]

def empty : Builder α := ⟨0, .empty, [], none⟩

/-- The place that is added next. -/
def newPlace (b : Builder α) : PlaceId := ⟨b.next⟩

/-- A place without duration, impacts or tags. -/
def bare (p : PlaceId) : Place α := ⟨p, none, none, 0, none, none⟩

def addPlace (b : Builder α) : Builder α :=
  { b with
    next := b.next + 1
    net := { b.net with places := b.net.places ++ [bare b.newPlace] } }

/-- Adds `n` places with consecutive numbers. -/
def addPlaces (b : Builder α) : Nat → Builder α
  | 0 => b
  | n + 1 => b.addPlace.addPlaces n

/-- Adds a transition of a region, with weight one on every arc. -/
def connect (b : Builder α) (kind : Kind) (h : Head α) (w : Wiring α) : Builder α :=
  let t : Transition α :=
    { id := ⟨b.next⟩, label := w.label, regionId := h.id, regionKind := kind, role := w.role,
      probability := w.probability, stop := w.stop, branch := w.branch,
      preset := w.inputs.map (·, 1), postset := w.outputs.map (·, 1), resetVisits := w.resets }
  { b with
    next := b.next + 1
    net := { b.net with transitions := b.net.transitions ++ [t] } }

def modifyPlace (b : Builder α) (p : PlaceId) (f : Place α → Place α) : Builder α :=
  { b with
    net := { b.net with places := b.net.places.map fun q => if q.id = p then f q else q } }

/-- The label that a region brings along, unless it is blank. -/
def ownLabel (h : Head α) : Option String := h.label.filter fun l => !Text.blank l.toList

/-- The label of a region: its own, or else its kind and a number that counts the regions of this
kind that bring none. -/
def labelFor (b : Builder α) (kind : Kind) (h : Head α) : String :=
  (ownLabel h).getD (kind.title ++ " " ++ toString (b.numbered.count kind + 1))

/-- Starts a region at a place: its label is used up, its duration is charged there. -/
def enter (b : Builder α) (entry : PlaceId) (kind : Kind) (h : Head α) : Builder α :=
  let numbered := if (ownLabel h).isSome then b.numbered else kind :: b.numbered
  { b with numbered }.modifyPlace entry
    fun p => { p with duration := p.duration + h.duration, entryOf := some h.id }

/-- Ends a region at a place and records where it sits. -/
def finish (b : Builder α) (kind : Kind) (h : Head α) (label : String) (entry exit : PlaceId)
    (children : List Layout) : Built α Layout :=
  ⟨.node ⟨h.id, kind, label, entry, exit⟩ children,
    b.modifyPlace exit fun p => { p with exitOf := some h.id }⟩

/-- The places numbered from `first` on, except one. -/
def placesFrom (b : Builder α) (first except : PlaceId) : List PlaceId :=
  (b.net.places.map Place.id).filter fun p => first.index ≤ p.index && p != except

/-- The label of the transition that enters a branch. -/
def branchLabel (h : Head α) : String := h.label.getD h.id

mutual

/-- Adds the places and transitions of a block that starts at `entry`. -/
def assemble (b : Builder α) (entry : PlaceId) : Block α → Built α Layout
  | .task h impacts =>
    let label := b.labelFor .task h
    let b := b.enter entry .task h
    let b := { b with dimensions := b.dimensions.or (some impacts.length) }.modifyPlace entry
      fun p => { p with impacts := some impacts }
    let exit := b.newPlace
    let b := b.addPlace.connect .task h
      { role := .task, label, probability := 1, inputs := [entry], outputs := [exit] }
    b.finish .task h label entry exit []
  | .sequential h first second =>
    let label := b.labelFor .sequential h
    let b := b.enter entry .sequential h
    let one := b.assemble entry first
    let two := one.builder.assemble one.result.info.exit second
    two.builder.finish .sequential h label entry two.result.info.exit [one.result, two.result]
  | .parallel h branches =>
    let label := b.labelFor .parallel h
    let b := b.enter entry .parallel h
    let starts := (List.range branches.length).map fun i => PlaceId.mk (b.next + i)
    let forked := (b.addPlaces branches.length).connect .parallel h
      { role := .fork, label := "Fork " ++ label, probability := 1,
        inputs := [entry], outputs := starts }
    let all := forked.assembleAll b.next branches
    let exit := all.builder.newPlace
    let joined := all.builder.addPlace.connect .parallel h
      { role := .join, label := "Join " ++ label, probability := 1,
        inputs := all.result.map (·.info.exit), outputs := [exit] }
    joined.finish .parallel h label entry exit all.result
  | .choice h branches distribution =>
    let label := b.labelFor .choice h
    let b := b.enter entry .choice h
    let exit := b.newPlace
    let all := b.addPlace.assembleBranches .choice h label entry exit
      (fun i => ((distribution.getD [])[i]?).getD 1) 0 branches
    all.builder.finish .choice h label entry exit all.result
  | .nature h branches distribution =>
    let label := b.labelFor .nature h
    let b := b.enter entry .nature h
    let exit := b.newPlace
    let all := b.addPlace.assembleBranches .nature h label entry exit
      (fun i => (distribution[i]?).getD 0) 0 branches
    all.builder.finish .nature h label entry exit all.result
  | .loop h body probability bound =>
    let label := b.labelFor .loop h
    let b := b.enter entry .loop h
    let start := b.newPlace
    let b := b.addPlace.connect .loop h
      { role := .loopEntry, label := "Entry " ++ label, probability := 1,
        inputs := [entry], outputs := [start] }
    let inner := b.assemble start body
    let stop := inner.result.info.exit
    let b := inner.builder.modifyPlace stop fun p => { p with visitLimit := some bound }
    let resets := b.placesFrom start stop
    let exit := b.newPlace
    let b := (b.addPlace.connect .loop h
      { role := .loopBack, label := "Loop " ++ label, probability, stop := true,
        inputs := [stop], outputs := [start], resets }).connect .loop h
      { role := .loopExit, label := "Exit " ++ label, probability := 1 - probability, stop := true,
        inputs := [stop], outputs := [exit] }
    b.finish .loop h label entry exit [inner.result]

/-- Assembles blocks at entry places with consecutive numbers. -/
def assembleAll (b : Builder α) (start : Nat) : List (Block α) → Built α (List Layout)
  | [] => ⟨[], b⟩
  | blk :: blks =>
    let one := b.assemble ⟨start⟩ blk
    let rest := one.builder.assembleAll (start + 1) blks
    ⟨one.result :: rest.result, rest.builder⟩

/-- Assembles alternative branches between two places, the first of them as branch number `i`. -/
def assembleBranches (b : Builder α) (kind : Kind) (h : Head α) (label : String)
    (entry exit : PlaceId) (probability : Nat → α) (i : Nat) :
    List (Block α) → Built α (List Layout)
  | [] => ⟨[], b⟩
  | blk :: blks =>
    let start := b.newPlace
    let b := b.addPlace.connect kind h
      { role := .branchEntry, label := branchLabel blk.head, probability := probability i,
        stop := true, branch := some i, inputs := [entry], outputs := [start] }
    let one := b.assemble start blk
    let b := one.builder.connect kind h
      { role := .branchExit, label := "Merge " ++ label, probability := 1, branch := some i,
        inputs := [one.result.info.exit], outputs := [exit] }
    let rest := b.assembleBranches kind h label entry exit probability (i + 1) blks
    ⟨one.result :: rest.result, rest.builder⟩

end

end Builder

end RegionNet
