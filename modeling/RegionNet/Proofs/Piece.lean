import Mathlib.Data.List.Nodup
import Mathlib.Data.List.Flatten
import RegionNet.Workflow.Builder

/-!
# Pieces of a net

A `Piece` is a block together with the places and numbers that it got when it was assembled. From
it everything that the block added to the net can be read off: its transitions, its places, and its
`zone`, the places whose tokens only the block's own transitions take. The places of a piece are
its zone and its exit; what happens in front of the entry and behind the exit is none of its
business.

Sibling pieces share a place only where one of them ends and the next one starts, which is the
exit of the one and in the zone of the other. So zones are disjoint, and the zone of a whole tree
falls apart into the zones of its parts.
-/

namespace RegionNet

/-- Where a region sits in a net. -/
structure Site (α : Type) where
  head : Head α
  label : String
  entry : PlaceId
  exit : PlaceId
  /-- The nodes that the region adds are numbered from here on ... -/
  first : Nat
  /-- ... and all below this number. -/
  stop : Nat

/-- What decides between the branches of a gateway. -/
inductive Gate (α : Type) where
  | choice (distribution : Option (List α))
  | nature (distribution : List α)

/-- A block with its place in a net. -/
inductive Piece (α : Type) where
  | task (site : Site α) (impacts : List α)
  | sequential (site : Site α) (one two : Piece α)
  | parallel (site : Site α) (branches : List (Piece α))
  | gateway (site : Site α) (gate : Gate α) (branches : List (Piece α))
  | loop (site : Site α) (body : Piece α) (probability : α) (bound : Nat)

variable {α : Type}

/-- The transition that a wiring becomes when it gets its number. -/
def Wiring.transition (w : Wiring α) (n : Nat) (kind : Kind) (h : Head α) : Transition α :=
  { id := ⟨n⟩, label := w.label, regionId := h.id, regionKind := kind, role := w.role,
    probability := w.probability, stop := w.stop, branch := w.branch,
    preset := w.inputs.map (·, 1), postset := w.outputs.map (·, 1), resetVisits := w.resets }

namespace Gate

def kind : Gate α → Kind
  | choice _ => .choice
  | nature _ => .nature

/-- The probability that goes with a branch. -/
def odds [Quantity α] : Gate α → Nat → α
  | choice distribution, i => ((distribution.getD [])[i]?).getD 1
  | nature distribution, i => (distribution[i]?).getD 0

/-- The block that the gate makes of some branches. -/
def block (h : Head α) (branches : List (Block α)) : Gate α → Block α
  | choice distribution => .choice h branches distribution
  | nature distribution => .nature h branches distribution

end Gate

namespace Piece

def site : Piece α → Site α
  | task s _ => s
  | sequential s _ _ => s
  | parallel s _ => s
  | gateway s _ _ => s
  | loop s _ _ _ => s

def entry (P : Piece α) : PlaceId := P.site.entry

def exit (P : Piece α) : PlaceId := P.site.exit

/-- A property of all pieces holds if it passes from the parts of a piece to the piece. -/
theorem ind {motive : Piece α → Prop}
    (task : ∀ s v, motive (.task s v))
    (sequential : ∀ s one two, motive one → motive two → motive (.sequential s one two))
    (parallel : ∀ s bs, (∀ b ∈ bs, motive b) → motive (.parallel s bs))
    (gateway : ∀ s g bs, (∀ b ∈ bs, motive b) → motive (.gateway s g bs))
    (loop : ∀ s body p n, motive body → motive (.loop s body p n))
    (P : Piece α) : motive P :=
  Piece.rec (motive_1 := motive) (motive_2 := fun bs => ∀ b ∈ bs, motive b)
    task sequential parallel gateway loop
    (fun _ h => absurd h List.not_mem_nil)
    (fun _ _ hb hbs _ hc => by
      rcases List.mem_cons.mp hc with rfl | hc
      · exact hb
      · exact hbs _ hc)
    P

/-! ## What a piece was made of -/

end Piece

/-- The line about a region in the layout. -/
def Site.info (s : Site α) (kind : Kind) : RegionInfo := ⟨s.head.id, kind, s.label, s.entry, s.exit⟩

namespace Piece

mutual

/-- The block that the piece is a placing of. -/
def block : Piece α → Block α
  | .task s v => .task s.head v
  | .sequential s one two => .sequential s.head one.block two.block
  | .parallel s bs => .parallel s.head (blocks bs)
  | .gateway s g bs => g.block s.head (blocks bs)
  | .loop s body p n => .loop s.head body.block p n

def blocks : List (Piece α) → List (Block α)
  | [] => []
  | b :: bs => b.block :: blocks bs

end

mutual

def layout : Piece α → Layout
  | .task s _ => .node (s.info .task) []
  | .sequential s one two => .node (s.info .sequential) [one.layout, two.layout]
  | .parallel s bs => .node (s.info .parallel) (layouts bs)
  | .gateway s g bs => .node (s.info g.kind) (layouts bs)
  | .loop s body _ _ => .node (s.info .loop) [body.layout]

def layouts : List (Piece α) → List Layout
  | [] => []
  | b :: bs => b.layout :: layouts bs

end

theorem blocks_eq_map (bs : List (Piece α)) : blocks bs = bs.map block := by
  induction bs with
  | nil => rfl
  | cons b bs ih => rw [blocks, ih, List.map_cons]

theorem layouts_eq_map (bs : List (Piece α)) : layouts bs = bs.map layout := by
  induction bs with
  | nil => rfl
  | cons b bs ih => rw [layouts, ih, List.map_cons]

theorem head_block (P : Piece α) : P.block.head = P.site.head := by
  cases P with
  | gateway s g bs => cases g <;> rfl
  | _ => rfl

theorem info_layout_exit (P : Piece α) : P.layout.info.exit = P.exit := by
  cases P <;> rfl

/-! ## Places -/

mutual

/-- The places whose tokens are taken by the piece's own transitions. -/
def zone : Piece α → List PlaceId
  | .task s _ => [s.entry]
  | .sequential _ one two => one.zone ++ two.zone
  | .parallel s bs => s.entry :: zones bs
  | .gateway s _ bs => s.entry :: zones bs
  | .loop s body _ _ => s.entry :: (body.zone ++ [body.exit])

/-- The places of several branches, exits included. -/
def zones : List (Piece α) → List PlaceId
  | [] => []
  | b :: bs => b.zone ++ [b.exit] ++ zones bs

end

/-- All places of a piece: its zone and its exit. -/
def ground (P : Piece α) : List PlaceId := P.zone ++ [P.exit]

mutual

/-- The places that the piece adds to the net, in the order in which it adds them. -/
def added : Piece α → List PlaceId
  | .task s _ => [s.exit]
  | .sequential _ one two => one.added ++ two.added
  | .parallel s bs => bs.map entry ++ addedAll bs ++ [s.exit]
  | .gateway s _ bs => s.exit :: addedArms bs
  | .loop s body _ _ => body.entry :: (body.added ++ [s.exit])

def addedAll : List (Piece α) → List PlaceId
  | [] => []
  | b :: bs => b.added ++ addedAll bs

def addedArms : List (Piece α) → List PlaceId
  | [] => []
  | b :: bs => b.entry :: (b.added ++ addedArms bs)

end

theorem zones_eq_flatMap (bs : List (Piece α)) : zones bs = bs.flatMap ground := by
  induction bs with
  | nil => rfl
  | cons b bs ih => rw [zones, ih, List.flatMap_cons, ground]

theorem mem_zones {bs : List (Piece α)} {p : PlaceId} :
    p ∈ zones bs ↔ ∃ b ∈ bs, p ∈ b.ground := by
  rw [zones_eq_flatMap, List.mem_flatMap]

theorem mem_ground {P : Piece α} {p : PlaceId} : p ∈ P.ground ↔ p ∈ P.zone ∨ p = P.exit := by
  rw [ground, List.mem_append, List.mem_singleton]

theorem zone_subset_ground (P : Piece α) : P.zone ⊆ P.ground := fun _ h =>
  mem_ground.mpr (Or.inl h)

theorem exit_mem_ground (P : Piece α) : P.exit ∈ P.ground := mem_ground.mpr (Or.inr rfl)

end Piece

/-! ## Transitions -/

namespace Site

variable [Quantity α]

/-- The work of a task. -/
def run (s : Site α) : Transition α :=
  Wiring.transition
    { role := .task, label := s.label, probability := 1, inputs := [s.entry], outputs := [s.exit] }
    (s.exit.index + 1) .task s.head

/-- Starts all branches. -/
def fork (s : Site α) (bs : List (Piece α)) : Transition α :=
  Wiring.transition
    { role := .fork, label := "Fork " ++ s.label, probability := 1,
      inputs := [s.entry], outputs := bs.map Piece.entry }
    (s.first + bs.length) .parallel s.head

/-- Waits for all branches. -/
def join (s : Site α) (bs : List (Piece α)) : Transition α :=
  Wiring.transition
    { role := .join, label := "Join " ++ s.label, probability := 1,
      inputs := bs.map Piece.exit, outputs := [s.exit] }
    (s.exit.index + 1) .parallel s.head

/-- Decides for branch number `i`. -/
def pick (s : Site α) (g : Gate α) (i : Nat) (b : Piece α) : Transition α :=
  Wiring.transition
    { role := .branchEntry, label := Builder.branchLabel b.site.head, probability := g.odds i,
      stop := true, branch := some i, inputs := [s.entry], outputs := [b.entry] }
    (b.entry.index + 1) g.kind s.head

/-- Leaves branch number `i`. -/
def merge (s : Site α) (g : Gate α) (i : Nat) (b : Piece α) : Transition α :=
  Wiring.transition
    { role := .branchExit, label := "Merge " ++ s.label, probability := 1, branch := some i,
      inputs := [b.exit], outputs := [s.exit] }
    b.site.stop g.kind s.head

/-- Starts the first round of a loop. -/
def enter (s : Site α) (body : Piece α) : Transition α :=
  Wiring.transition
    { role := .loopEntry, label := "Entry " ++ s.label, probability := 1,
      inputs := [s.entry], outputs := [body.entry] }
    (body.entry.index + 1) .loop s.head

/-- Starts another round of a loop and forgets the visits of the last one. -/
def back (s : Site α) (body : Piece α) (probability : α) : Transition α :=
  Wiring.transition
    { role := .loopBack, label := "Loop " ++ s.label, probability, stop := true,
      inputs := [body.exit], outputs := [body.entry],
      resets := (body.entry :: body.added).filter (· != body.exit) }
    (s.exit.index + 1) .loop s.head

/-- Ends a loop. -/
def leave (s : Site α) (body : Piece α) (probability : α) : Transition α :=
  Wiring.transition
    { role := .loopExit, label := "Exit " ++ s.label, probability := 1 - probability, stop := true,
      inputs := [body.exit], outputs := [s.exit] }
    (s.exit.index + 2) .loop s.head

end Site

namespace Piece

variable [Quantity α]

mutual

/-- The transitions that the piece adds to the net, in the order in which it adds them. -/
def transitions : Piece α → List (Transition α)
  | .task s _ => [s.run]
  | .sequential _ one two => one.transitions ++ two.transitions
  | .parallel s bs => s.fork bs :: (transitionsAll bs ++ [s.join bs])
  | .gateway s g bs => arms s g 0 bs
  | .loop s body p _ => s.enter body :: (body.transitions ++ [s.back body p, s.leave body p])

def transitionsAll : List (Piece α) → List (Transition α)
  | [] => []
  | b :: bs => b.transitions ++ transitionsAll bs

/-- The transitions of the branches of a gateway, the first of them being branch number `i`. -/
def arms (s : Site α) (g : Gate α) (i : Nat) : List (Piece α) → List (Transition α)
  | [] => []
  | b :: bs => s.pick g i b :: (b.transitions ++ s.merge g i b :: arms s g (i + 1) bs)

end

theorem mem_transitionsAll {bs : List (Piece α)} {t : Transition α} :
    t ∈ transitionsAll bs ↔ ∃ b ∈ bs, t ∈ b.transitions := by
  induction bs with
  | nil => simp [transitionsAll]
  | cons b bs ih => simp [transitionsAll, ih]

theorem mem_arms {s : Site α} {g : Gate α} {t : Transition α} {bs : List (Piece α)} :
    ∀ {i : Nat}, t ∈ arms s g i bs ↔
      ∃ j b, bs[j]? = some b ∧
        (t = s.pick g (i + j) b ∨ t ∈ b.transitions ∨ t = s.merge g (i + j) b) := by
  induction bs with
  | nil => simp [arms]
  | cons b bs ih =>
      intro i
      simp only [arms, List.mem_cons, List.mem_append, ih]
      constructor
      · rintro (h | h | h | ⟨j, c, hc, h⟩)
        · exact ⟨0, b, rfl, Or.inl h⟩
        · exact ⟨0, b, rfl, Or.inr (Or.inl h)⟩
        · exact ⟨0, b, rfl, Or.inr (Or.inr h)⟩
        · refine ⟨j + 1, c, hc, ?_⟩
          rwa [show i + (j + 1) = i + 1 + j by omega]
      · rintro ⟨j, c, hc, h⟩
        cases j with
        | zero =>
            obtain rfl : b = c := by simpa using hc
            exact h.imp_right (Or.imp_right Or.inl)
        | succ j =>
            refine Or.inr (Or.inr (Or.inr ⟨j, c, by simpa using hc, ?_⟩))
            rwa [show i + 1 + j = i + (j + 1) by omega]

end Piece

end RegionNet
