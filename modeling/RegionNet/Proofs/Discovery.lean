import RegionNet.Execution.Exploration
import RegionNet.Execution.Resolver

/-!
# Discoveries

What the calls do to an exploration. Moving the cursor leaves the nodes alone. Recording a step
leads nowhere from a final marking, to a child that is known, or to a new node below the one under
the cursor (`Exploration.record_of_final`, `record_of_known`, `record_of_new`). So nodes change in
one way only, when the exploration grows, and what this does to a node is said once
(`Exploration.node?_grow`).

What goes on to hold when an exploration grows and when its cursor moves holds of every later
exploration (`Exploration.Later.preserves`).
-/

namespace RegionNet

namespace Exploration

variable {α : Type} {t t' : Exploration α} {i c p : Nat} {n : ExplorationNode α} {x y : Snapshot α}

/-! ## Nodes -/

/-- What is found at a node. -/
def snapshot? (t : Exploration α) (i : Nat) : Option (Snapshot α) :=
  (t.node? i).map ExplorationNode.snapshot

/-- The node below which a node was found. -/
def parent? (t : Exploration α) (i : Nat) : Option Nat := (t.node? i).bind ExplorationNode.parent

theorem lt_of_node? (h : t.node? i = some n) : i < t.nodes.length :=
  (List.getElem?_eq_some_iff.mp h).1

theorem exists_node? (h : i < t.nodes.length) : ∃ n, t.node? i = some n :=
  ⟨_, List.getElem?_eq_getElem h⟩

theorem node?_eq_none (h : t.nodes.length ≤ i) : t.node? i = none :=
  List.getElem?_eq_none h

theorem lt_of_parent? (h : t.parent? c = some p) : c < t.nodes.length := by
  obtain ⟨n, hn, -⟩ := Option.bind_eq_some_iff.mp h
  exact lt_of_node? hn

theorem lt_of_snapshot? (h : t.snapshot? i = some x) : i < t.nodes.length := by
  obtain ⟨n, hn, -⟩ := Option.map_eq_some_iff.mp h
  exact lt_of_node? hn

theorem exists_snapshot? (h : i < t.nodes.length) : ∃ x, t.snapshot? i = some x := by
  obtain ⟨n, hn⟩ := exists_node? h
  exact ⟨n.snapshot, Option.map_eq_some_iff.mpr ⟨n, hn, rfl⟩⟩

theorem children_of_node? (h : t.node? i = some n) : t.children i = n.children := by
  unfold children
  rw [h]

theorem node?_cursor (t : Exploration α) : t.node? t.cursor = some t.current :=
  List.getElem?_eq_getElem t.cursor_lt

theorem snapshot?_cursor (t : Exploration α) : t.snapshot? t.cursor = some t.current.snapshot := by
  unfold snapshot?
  rw [node?_cursor]
  rfl

/-! ## Moving the cursor -/

@[simp] theorem nodes_moveTo (t : Exploration α) (i : Nat) : (t.moveTo i).nodes = t.nodes := by
  unfold moveTo
  split <;> rfl

@[simp] theorem node?_moveTo (t : Exploration α) (i j : Nat) :
    (t.moveTo i).node? j = t.node? j := by
  unfold node?
  rw [nodes_moveTo]

theorem cursor_moveTo (h : i < t.nodes.length) : (t.moveTo i).cursor = i := by
  unfold moveTo
  rw [dif_pos h]

theorem moveTo_of_unknown (h : t.nodes.length ≤ i) : t.moveTo i = t := by
  unfold moveTo
  rw [dif_neg (Nat.not_lt.mpr h)]

/-- Wherever the cursor goes, the nodes stay. -/
theorem nodes_follow (t : Exploration α) (follow : Bool) (i : Nat) :
    (if follow then t.moveTo i else t).nodes = t.nodes := by
  split
  · exact nodes_moveTo t i
  · rfl

theorem snapshot?_follow (t : Exploration α) (follow : Bool) (i j : Nat) :
    (if follow then t.moveTo j else t).snapshot? i = t.snapshot? i := by
  unfold snapshot? node?
  rw [nodes_follow]

theorem parent?_follow (t : Exploration α) (follow : Bool) (i j : Nat) :
    (if follow then t.moveTo j else t).parent? i = t.parent? i := by
  unfold parent? node?
  rw [nodes_follow]

/-! ## Growing -/

@[simp] theorem cursor_grow (t : Exploration α) (x : Snapshot α) : (t.grow x).cursor = t.cursor := rfl

theorem length_grow (t : Exploration α) (x : Snapshot α) :
    (t.grow x).nodes.length = t.nodes.length + 1 := by
  simp [grow]

/-- The new node comes last, and the node under the cursor has gained a child. -/
theorem node?_grow (t : Exploration α) (x : Snapshot α) (i : Nat) :
    (t.grow x).node? i =
      if i = t.nodes.length then some ⟨t.nodes.length, some t.cursor, [], x⟩
      else (t.node? i).map fun n =>
        if i = t.cursor then { n with children := n.children ++ [t.nodes.length] } else n := by
  by_cases hlast : i = t.nodes.length
  · simp [node?, grow, hlast]
  rw [if_neg hlast]
  by_cases hlt : i < t.nodes.length
  · unfold node? grow
    rw [List.getElem?_append_left (by rwa [List.length_modify]), List.getElem?_modify]
    simp [eq_comm (a := t.cursor)]
  · have hle : (t.grow x).nodes.length ≤ i := by
      rw [length_grow]
      omega
    rw [node?_eq_none hle, node?_eq_none (Nat.not_lt.mp hlt), Option.map_none]

theorem snapshot?_grow (t : Exploration α) (x : Snapshot α) (i : Nat) :
    (t.grow x).snapshot? i = if i = t.nodes.length then some x else t.snapshot? i := by
  unfold snapshot?
  rw [node?_grow]
  split
  · rfl
  · cases t.node? i with
    | none => rfl
    | some n => simp [apply_ite]

theorem parent?_grow (t : Exploration α) (x : Snapshot α) (i : Nat) :
    (t.grow x).parent? i = if i = t.nodes.length then some t.cursor else t.parent? i := by
  unfold parent?
  rw [node?_grow]
  split
  · rfl
  · cases t.node? i with
    | none => rfl
    | some n =>
        show ExplorationNode.parent (if i = t.cursor then _ else n) = n.parent
        split <;> rfl

theorem children_grow (t : Exploration α) (x : Snapshot α) (i : Nat) :
    (t.grow x).children i =
      if i = t.cursor then t.children i ++ [t.nodes.length] else t.children i := by
  have hlt := t.cursor_lt
  unfold children
  rw [node?_grow]
  by_cases hlast : i = t.nodes.length
  · have hne : i ≠ t.cursor := by omega
    rw [if_pos hlast, if_neg hne, node?_eq_none (Nat.le_of_eq hlast.symm)]
  · rw [if_neg hlast]
    by_cases hi : i = t.cursor
    · simp [hi, node?_cursor]
    · cases t.node? i with
      | none => simp [hi]
      | some n => simp [hi]

theorem snapshot?_grow_of_some (h : t.snapshot? i = some x) (y : Snapshot α) :
    (t.grow y).snapshot? i = some x := by
  rw [snapshot?_grow, if_neg (Nat.ne_of_lt (lt_of_snapshot? h)), h]

/-! ## Recording -/

variable [Quantity α] {w : Workflow α} {m : Marking α} {step : Step α}

theorem mem_of_childWith (h : t.childWith m = some c) : c ∈ t.children t.cursor :=
  children_of_node? t.node?_cursor ▸ List.mem_of_find?_eq_some h

/-- A child with a marking has a snapshot whose marking compares as equal. -/
theorem marking_of_childWith (h : t.childWith m = some c) (hc : t.snapshot? c = some x) :
    (x.marking == m) = true := by
  obtain ⟨n, hn, rfl⟩ := Option.map_eq_some_iff.mp hc
  have hmatch := List.find?_some h
  rwa [hn] at hmatch

theorem childWith_eq_none_iff : t.childWith m = none ↔
    ∀ c ∈ t.children t.cursor, ∀ x, t.snapshot? c = some x → (x.marking == m) = false := by
  rw [children_of_node? t.node?_cursor]
  unfold childWith snapshot?
  rw [List.find?_eq_none]
  refine forall₂_congr fun c _ => ?_
  cases t.node? c with
  | none => simp
  | some n => simp

/-- From a final marking, a step leads nowhere. -/
theorem record_of_final (h : w.isFinal t.current.snapshot.marking = true) (step : Step α)
    (follow : Bool) : t.record w step follow = (t.current.id, t) := by
  unfold record
  simp only [h, if_true]

/-- Where a child has the marking, a step leads to this child. -/
theorem record_of_known (hgoing : w.isFinal t.current.snapshot.marking = false)
    (hknown : t.childWith step.marking = some c) (follow : Bool) :
    t.record w step follow = (c, if follow then t.moveTo c else t) := by
  unfold record
  simp only [hgoing, Bool.false_eq_true, if_false, hknown]

/-- Where no child has the marking, a step leads to a new node. -/
theorem record_of_new (hgoing : w.isFinal t.current.snapshot.marking = false)
    (hnew : t.childWith step.marking = none) (follow : Bool) :
    t.record w step follow = (t.nodes.length,
      if follow then (t.grow (t.current.snapshot.extend w step)).moveTo t.nodes.length
      else t.grow (t.current.snapshot.extend w step)) := by
  unfold record
  simp only [hgoing, Bool.false_eq_true, if_false, hnew]

/-- An exploration gains a node exactly when the current marking is not final and no child of the
current node has the marking of the step. -/
theorem length_record_iff (follow : Bool) :
    (t.record w step follow).2.nodes.length = t.nodes.length + 1 ↔
      w.isFinal t.current.snapshot.marking = false ∧ t.childWith step.marking = none := by
  cases hgoing : w.isFinal t.current.snapshot.marking with
  | true =>
      rw [record_of_final hgoing]
      simp
  | false =>
      cases hchild : t.childWith step.marking with
      | none =>
          rw [record_of_new hgoing hchild, nodes_follow]
          simp [length_grow]
      | some c =>
          rw [record_of_known hgoing hchild, nodes_follow]
          simp

/-- An exploration that gains no node stays as it is, but for the cursor. -/
theorem nodes_record (follow : Bool)
    (hold : ¬(w.isFinal t.current.snapshot.marking = false ∧ t.childWith step.marking = none)) :
    (t.record w step follow).2.nodes = t.nodes := by
  cases hgoing : w.isFinal t.current.snapshot.marking with
  | true => rw [record_of_final hgoing]
  | false =>
      cases hchild : t.childWith step.marking with
      | none => exact absurd ⟨hgoing, hchild⟩ hold
      | some c => rw [record_of_known hgoing hchild, nodes_follow]

/-! ## Later explorations -/

/-- What an exploration becomes when more steps are recorded and the cursor is moved. -/
inductive Later (w : Workflow α) (t : Exploration α) : Exploration α → Prop where
  | refl : Later w t t
  | record {t' : Exploration α} (h : Later w t t') (step : Step α) (follow : Bool) :
      Later w t (t'.record w step follow).2
  | moveTo {t' : Exploration α} (h : Later w t t') (i : Nat) : Later w t (t'.moveTo i)

/-- What is kept when the cursor moves and when a new node is found is kept by recording. -/
theorem record_preserves {I : Exploration α → Prop} (hmove : ∀ t i, I t → I (t.moveTo i))
    (hgrow : w.isFinal t.current.snapshot.marking = false → t.childWith step.marking = none →
      I t → I (t.grow (t.current.snapshot.extend w step))) (follow : Bool) (ht : I t) :
    I (t.record w step follow).2 := by
  have hfollow : ∀ t i, I t → I (if follow then t.moveTo i else t) := by
    intro t i ht
    split
    · exact hmove t i ht
    · exact ht
  cases hgoing : w.isFinal t.current.snapshot.marking with
  | true => rwa [record_of_final hgoing]
  | false =>
      cases hchild : t.childWith step.marking with
      | none =>
          rw [record_of_new hgoing hchild]
          exact hfollow _ _ (hgrow hgoing hchild ht)
      | some c =>
          rw [record_of_known hgoing hchild]
          exact hfollow _ _ ht

/-- What is kept when the cursor moves and when a new node is found is kept by everything that
happens to an exploration. -/
theorem Later.preserves {I : Exploration α → Prop} (h : Later w t t')
    (hmove : ∀ t i, I t → I (t.moveTo i))
    (hgrow : ∀ t (step : Step α), w.isFinal t.current.snapshot.marking = false →
      t.childWith step.marking = none → I t → I (t.grow (t.current.snapshot.extend w step)))
    (ht : I t) : I t' := by
  induction h with
  | refl => exact ht
  | record _ step follow ih => exact record_preserves hmove (hgrow _ step) follow ih
  | moveTo _ i ih => exact hmove _ i ih

theorem Later.trans {t'' : Exploration α} (h : Later w t t') (h' : Later w t' t'') :
    Later w t t'' := by
  induction h' with
  | refl => exact h
  | record _ step follow ih => exact ih.record step follow
  | moveTo _ i ih => exact ih.moveTo i

theorem snapshot?_record (hi : t.snapshot? i = some x) (step : Step α) (follow : Bool) :
    (t.record w step follow).2.snapshot? i = some x :=
  record_preserves (I := fun t => t.snapshot? i = some x)
    (fun t j ht => (snapshot?_follow t true i j).trans ht)
    (fun _ _ ht => snapshot?_grow_of_some ht _) follow hi

/-- What was found at a node stays. -/
theorem Later.snapshot? (h : Later w t t') (hi : t.snapshot? i = some x) :
    t'.snapshot? i = some x :=
  h.preserves (I := fun t => t.snapshot? i = some x)
    (fun t j ht => (snapshot?_follow t true i j).trans ht)
    (fun _ _ _ _ ht => snapshot?_grow_of_some ht _) hi

end Exploration

/-! ## A small exploration -/

/-- A task, and then one of two others as chance will have it. -/
def Workflow.errand : Workflow Rat :=
  .ofBlock (.sequential ⟨"errand", none, 0⟩ (.task ⟨"a", none, 1⟩ [1])
    (.nature ⟨"n", none, 0⟩ [.task ⟨"b", none, 2⟩ [2], .task ⟨"c", none, 3⟩ [4]] [1 / 4, 3 / 4]))

/-- What comes of a call with the given choices; nothing at all if it fails. -/
def Workflow.errandStep (m : Marking Rat) (choices : List TransitionId) : Step Rat :=
  match Strategy.consume ⟨.counter, 10⟩ (Resolver.fixed none) .errand m choices () with
  | (.ok step, _) => step
  | (.error _, _) => .identity m 0

namespace Exploration

/-- The first task. -/
def sampleFirst : Step Rat := Workflow.errandStep Workflow.errand.initial []

/-- One way to go on. -/
def sampleLeft : Step Rat := Workflow.errandStep sampleFirst.marking [⟨5⟩]

/-- The other way to go on. -/
def sampleRight : Step Rat := Workflow.errandStep sampleFirst.marking [⟨10⟩]

/-- The first task with one way to go on, and back to where the other one begins. -/
def sampleHalf : Exploration Rat :=
  let t := ((start .errand).record .errand sampleFirst true).2
  (t.record .errand sampleLeft true).2.moveTo 1

/-- The first task, then both ways to go on, and the first way once more. -/
def sample : Exploration Rat :=
  ((sampleHalf.record .errand sampleRight false).2.record .errand sampleLeft true).2

theorem later_sampleHalf : Later .errand (start .errand) sampleHalf :=
  .moveTo (.record (.record .refl _ _) _ _) _

theorem later_sample : Later .errand (start .errand) sample :=
  .record (.record later_sampleHalf _ _) _ _

end Exploration

end RegionNet
