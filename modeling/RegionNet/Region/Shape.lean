import RegionNet.Region.Basic

/-!
# Shapes and blocks

The shape of a region holds exactly the fields that its kind uses, with the right number of
children. A `Block` is a region tree in which every region has been read through its shape, so that
a function on blocks has six cases and no absent fields to think about.

`Region.block` finds the block of a description, or names the first region without a shape.
-/

namespace RegionNet

/-- The fields that a kind uses, over children of type `β`. -/
inductive Shape (α β : Type) where
  | task (impacts : List α)
  | sequential (first second : β)
  | parallel (branches : List β)
  | choice (branches : List β) (distribution : Option (List α))
  | nature (branches : List β) (distribution : List α)
  | loop (body : β) (probability : α) (bound : Nat)

/-- What every region has, whatever its kind. -/
structure Head (α : Type) where
  id : String
  label : Option String
  duration : α
  deriving DecidableEq, Repr

/-- A region tree whose regions all fit their kinds. -/
inductive Block (α : Type) where
  | task (head : Head α) (impacts : List α)
  | sequential (head : Head α) (first second : Block α)
  | parallel (head : Head α) (branches : List (Block α))
  | choice (head : Head α) (branches : List (Block α)) (distribution : Option (List α))
  | nature (head : Head α) (branches : List (Block α)) (distribution : List α)
  | loop (head : Head α) (body : Block α) (probability : α) (bound : Nat)

namespace Block

variable {α : Type}

def head : Block α → Head α
  | task h _ => h
  | sequential h _ _ => h
  | parallel h _ => h
  | choice h _ _ => h
  | nature h _ _ => h
  | loop h _ _ _ => h

def kind : Block α → Kind
  | task .. => .task
  | sequential .. => .sequential
  | parallel .. => .parallel
  | choice .. => .choice
  | nature .. => .nature
  | loop .. => .loop

/-- The block with the given head and a shape whose children are blocks. -/
def ofShape (h : Head α) : Shape α (Block α) → Block α
  | .task impacts => task h impacts
  | .sequential first second => sequential h first second
  | .parallel branches => parallel h branches
  | .choice branches distribution => choice h branches distribution
  | .nature branches distribution => nature h branches distribution
  | .loop body probability bound => loop h body probability bound

end Block

namespace Region

variable {α : Type}

def head (r : Region α) : Head α := ⟨r.id, r.label, r.duration⟩

variable [Quantity α]

/-- The shape of a region over stand-ins for its children, if there is the right number of them and
the fields fit the kind. -/
def shapeOver {β : Type} (r : Region α) (children : List β) : Option (Shape α β) :=
  match r.kind with
  | .task => r.impacts.map .task
  | .sequential =>
    match children with
    | [first, second] => some (.sequential first second)
    | _ => none
  | .parallel => if 2 ≤ children.length then some (.parallel children) else none
  | .choice =>
    if 2 ≤ children.length then
      match r.distribution with
      | none => some (.choice children none)
      | some (.branches ps) => some (.choice children (some ps))
      | some (.single _) => none
    else none
  | .nature =>
    match r.distribution with
    | some (.branches ps) => if 2 ≤ children.length then some (.nature children ps) else none
    | _ => none
  | .loop =>
    match children, r.distribution, r.loopBound with
    | [body], some (.single p), some n => some (.loop body p n)
    | _, _, _ => none

/-- The shape of a region. -/
def shape (r : Region α) : Option (Shape α (Region α)) := r.shapeOver r.branches

mutual

/-- The block that a region describes, or the first region below it, children first, whose fields do
not fit its kind. -/
def block (r : Region α) : Except (Region α) (Block α) :=
  let children := match r with
    | ⟨_, _, _, _, _, some children, _, _⟩ => blocks children
    | ⟨_, _, _, _, _, none, _, _⟩ => .ok []
  match children with
  | .error culprit => .error culprit
  | .ok children =>
    match r.shapeOver children with
    | some shape => .ok (.ofShape r.head shape)
    | none => .error r
termination_by structural r

/-- The blocks that the regions of a list describe. -/
def blocks : List (Region α) → Except (Region α) (List (Block α))
  | [] => .ok []
  | r :: rs =>
    match r.block with
    | .error culprit => .error culprit
    | .ok b =>
      match blocks rs with
      | .error culprit => .error culprit
      | .ok bs => .ok (b :: bs)
termination_by structural rs => rs

end

end Region

end RegionNet
