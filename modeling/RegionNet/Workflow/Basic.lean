import RegionNet.Net.Firing
import RegionNet.Region.Validity
import RegionNet.Workflow.Builder

/-!
# Workflows

A workflow is a compiled process: a net with one place where it starts and one where it ends, and
the layout of the regions in it. `Workflow.compile` accepts exactly the descriptions that
`Region.validate` accepts.
-/

namespace RegionNet

structure Workflow (α : Type) where
  net : Net α
  /-- One token where the root region starts. -/
  initial : Marking α
  /-- One token where the root region ends. -/
  final : Marking α
  layout : Layout
  /-- The length of all impact vectors. -/
  dimensions : Nat

namespace Workflow

variable {α : Type} [Quantity α]

/-- The workflow of a block. -/
def ofBlock (blk : Block α) : Workflow α :=
  let b : Builder α := .empty
  let start := b.newPlace
  let built := b.addPlace.assemble start blk
  let net := built.builder.net
  { net
    initial := .withTokens net [(start, 1)]
    final := .withTokens net [(built.result.info.exit, 1)]
    layout := built.result
    dimensions := built.builder.dimensions.getD 0 }

/-- The workflow that a process description stands for, or the first rule that it breaks. -/
def compile (r : Region α) : Except (Fault α) (Workflow α) :=
  match r.validate with
  | .error f => .error f
  | .ok () =>
    match r.block with
    | .error culprit => .error (.malformed culprit.id culprit.kind)
    | .ok blk => .ok (ofBlock blk)

/-- The process is over. Only tokens count: ages and visits depend on the way taken. -/
def isFinal (w : Workflow α) (m : Marking α) : Bool := m.sameTokens w.final

end Workflow

end RegionNet
