import Mathlib.Logic.Relation
import RegionNet.Proofs.Ancestry
import RegionNet.Proofs.Listing
import RegionNet.Proofs.Name
import RegionNet.View.Tree

/-!
# Reading a tree view

An exploration links its nodes by number; its view nests them. Children have higher numbers than
their parents, so nesting comes to an end by itself, and every node lies below the root on one way
only: the view shows each of them once, inside its parent (`Exploration.unfolds_of_later`). What a
view shows can be read again, and gives the nodes of the exploration in their order.
-/

namespace RegionNet

variable {α : Type}

/-! ## What a view shows -/

/-- The marking without the places that are neither marked nor visited. -/
def Marking.shown (m : Marking α) : Marking α :=
  ⟨m.states.filter fun (_, s) => 0 < s.tokens || 0 < s.visits⟩

/-- What the view of a snapshot shows, with the status in ascending order of regions. -/
def Snapshot.shown (s : Snapshot α) : Snapshot α :=
  { s with marking := s.marking.shown, status := sortedStatus s.status }

def ExplorationNode.shown (n : ExplorationNode α) : ExplorationNode α :=
  { n with snapshot := n.snapshot.shown }

namespace Marking

theorem Ordered.shown {m : Marking α} (h : m.Ordered) : m.shown.Ordered :=
  h.sublist (List.filter_sublist.map Prod.fst)

/-- Of a place that is left out only its age is lost. -/
theorem state_shown [Quantity α] {m : Marking α} (h : m.Ordered) (p : PlaceId) : m.shown.state p =
    if 0 < (m.state p).tokens ∨ 0 < (m.state p).visits then m.state p else .fresh := by
  split
  · next hseen =>
      have hp : p ∈ m.places := by
        by_contra hp
        rw [state_of_notMem hp] at hseen
        exact hseen.elim (Nat.lt_irrefl 0) (Nat.lt_irrefl 0)
      obtain ⟨⟨q, s⟩, hs, rfl⟩ := List.mem_map.mp hp
      rw [state_of_mem h hs] at hseen ⊢
      exact state_of_mem h.shown (List.mem_filter.mpr ⟨hs, by simpa using hseen⟩)
  · next hunseen =>
      refine state_of_notMem fun hp => hunseen ?_
      obtain ⟨⟨q, s⟩, hs, rfl⟩ := List.mem_map.mp hp
      obtain ⟨hs, hseen⟩ := List.mem_filter.mp hs
      rw [state_of_mem h hs]
      simpa using hseen

end Marking

/-! ## Reading views -/

def PlaceStateView.read (v : PlaceStateView α) : PlaceId × PlaceState α :=
  (.ofName v.place, v.state)

def SnapshotView.read (v : SnapshotView α) : Snapshot α :=
  { marking := ⟨v.marking.map PlaceStateView.read⟩
    probability := v.probability
    impacts := v.impacts
    time := v.time
    status := v.status }

theorem Snapshot.read_view (s : Snapshot α) : s.view.read = s.shown := by
  have hmarking : s.marking.view.map PlaceStateView.read = s.marking.shown.states := by
    rw [Marking.view, List.map_map]
    refine (List.map_congr_left fun x _ => ?_).trans (List.map_id _)
    exact Prod.ext (PlaceId.ofName_name x.1) rfl
  rw [SnapshotView.read, view, hmarking]
  rfl

namespace NodeView

def name : NodeView α → String
  | node name _ _ _ => name

def id : NodeView α → Nat
  | node _ id _ _ => id

def snapshot : NodeView α → SnapshotView α
  | node _ _ snapshot _ => snapshot

def children : NodeView α → List (NodeView α)
  | node _ _ _ children => children

mutual

/-- The view and all views nested in it, from the outside in and in their order. -/
def parts : NodeView α → List (NodeView α)
  | node name id snapshot children => node name id snapshot children :: partsAll children

def partsAll : List (NodeView α) → List (NodeView α)
  | [] => []
  | v :: vs => v.parts ++ partsAll vs

end

mutual

/-- The nodes that a view below `parent` shows, in the order of its parts. -/
def nodes (parent : Option Nat) : NodeView α → List (ExplorationNode α)
  | node _ id snapshot children =>
    ⟨id, parent, children.map NodeView.id, snapshot.read⟩ :: nodesAll (some id) children

def nodesAll (parent : Option Nat) : List (NodeView α) → List (ExplorationNode α)
  | [] => []
  | v :: vs => v.nodes parent ++ nodesAll parent vs

end

theorem partsAll_eq (vs : List (NodeView α)) : partsAll vs = vs.flatMap parts := by
  induction vs with
  | nil => rfl
  | cons v vs ih => rw [partsAll, ih, List.flatMap_cons]

theorem nodesAll_eq (parent : Option Nat) (vs : List (NodeView α)) :
    nodesAll parent vs = vs.flatMap (nodes parent) := by
  induction vs with
  | nil => rfl
  | cons v vs ih => rw [nodesAll, ih, List.flatMap_cons]

end NodeView

/-- The nodes that a view shows, in the order of their numbers. -/
def TreeView.nodes (v : TreeView α) : List (ExplorationNode α) :=
  (v.root.nodes none).mergeSort fun m n => m.id ≤ n.id

namespace Exploration

variable {t : Exploration α} {i j c d p : Nat} {n m : ExplorationNode α}

/-! ## Below a node -/

/-- The nodes that were found below a node. -/
def kids (t : Exploration α) (n : ExplorationNode α) : List (ExplorationNode α) :=
  n.children.filterMap t.node?

/-- The way up from the first node meets the second one. -/
def Below (t : Exploration α) : Nat → Nat → Prop :=
  Relation.ReflTransGen fun c p => t.parent? c = some p

/-- The view of a node and of everything below it. -/
def fullView (t : Exploration α) (n : ExplorationNode α) : NodeView α :=
  t.nodeView t.nodes.length n

theorem node?_root (t : Exploration α) : t.node? 0 = some t.root :=
  (List.head?_eq_getElem? ).symm.trans (List.head?_eq_some_head _)

theorem parent?_of_node? (hn : t.node? i = some n) : t.parent? i = n.parent := by
  rw [parent?, hn, Option.bind_some]

namespace Rooted

theorem node?_id (h : t.Rooted) (hn : n ∈ t.nodes) : t.node? n.id = some n := by
  obtain ⟨i, hi⟩ := List.mem_iff_getElem?.mp hn
  rwa [h.id hi]

theorem map_id_nodes (h : t.Rooted) :
    t.nodes.map ExplorationNode.id = List.range t.nodes.length := by
  refine List.ext_getElem (by simp) fun i hi _ => ?_
  rw [List.getElem_map, List.getElem_range]
  exact h.id (List.getElem?_eq_getElem _)

theorem mem_kids (h : t.Rooted) (hn : t.node? i = some n) :
    m ∈ t.kids n ↔ ∃ c, t.node? c = some m ∧ t.parent? c = some i := by
  rw [kids, List.mem_filterMap, ← children_of_node? hn]
  simp only [h.mem_children, and_comm]

theorem map_id_kids (h : t.Rooted) (hn : t.node? i = some n) :
    (t.kids n).map ExplorationNode.id = t.children i := by
  have hchild : ∀ c ∈ n.children, (t.node? c).map ExplorationNode.id = some c := by
    intro c hc
    obtain ⟨m, hm⟩ := exists_node? (h.child_lt (children_of_node? hn ▸ hc))
    rw [hm, Option.map_some, h.id hm]
  rw [kids, List.map_filterMap, children_of_node? hn, List.filterMap_congr hchild,
    List.filterMap_some]

/-- The children of a node in the order of their numbers, which is that of their discovery. -/
theorem children_eq (h : t.Rooted) (p : Nat) : t.children p =
    (List.range t.nodes.length).filter fun c => t.parent? c = some p := by
  refine eq_of_ascending (fun c => c) (h.ascending p) (List.pairwise_lt_range.filter _) fun c => ?_
  rw [h.mem_children, List.mem_filter, List.mem_range, decide_eq_true_eq]
  exact ⟨fun hp => ⟨lt_of_parent? hp, hp⟩, And.right⟩

/-- What holds of a node when it holds of its children holds of all nodes: the numbers of the
children are higher. -/
@[elab_as_elim]
theorem leafward (h : t.Rooted) {motive : ExplorationNode α → Prop}
    (step : ∀ i n, t.node? i = some n → (∀ m ∈ t.kids n, motive m) → motive n)
    (hn : t.node? i = some n) : motive n := by
  induction hleft : t.nodes.length - i using Nat.strongRecOn generalizing i n with
  | ind left ih =>
      refine step i n hn fun m hm => ?_
      obtain ⟨c, hc, hp⟩ := (h.mem_kids hn).mp hm
      have hlower := h.parent_lt hp
      have hlt := lt_of_node? hc
      exact ih (t.nodes.length - c) (by omega) hc rfl

theorem title_eq (h : t.Rooted) (hn : t.node? i = some n) :
    n.title = if i = 0 then "Root" else "Step " ++ toString i := by
  rw [ExplorationNode.title, ← parent?_of_node? hn, h.id hn]
  rcases Nat.eq_zero_or_pos i with rfl | hi
  · rw [h.root]
    rfl
  · obtain ⟨p, -, hp⟩ := h.parent hi (lt_of_node? hn)
    rw [hp, if_neg (Nat.ne_of_gt hi)]
    rfl

/-! ### Ways up -/

theorem le_of_below (h : t.Rooted) (hbelow : t.Below j i) : i ≤ j := by
  induction hbelow with
  | refl => exact Nat.le_refl j
  | tail _ hp ih => exact Nat.le_trans (Nat.le_of_lt (h.parent_lt hp)) ih

/-- All nodes are below the root, and nothing else is. -/
theorem below_root (h : t.Rooted) : t.Below j 0 ↔ j < t.nodes.length := by
  constructor
  · intro hbelow
    rcases hbelow.cases_head with rfl | ⟨p, hp, -⟩
    · exact Nat.zero_lt_of_lt t.cursor_lt
    · exact lt_of_parent? hp
  · intro hlt
    induction j using Nat.strongRecOn with
    | ind j ih =>
        rcases Nat.eq_zero_or_pos j with rfl | hj
        · exact .refl
        · obtain ⟨p, hlower, hp⟩ := h.parent hj hlt
          exact .head hp (ih p hlower (by omega))

/-- Siblings are not below each other. -/
theorem eq_of_below (h : t.Rooted) (hc : t.parent? c = some p) (hd : t.parent? d = some p)
    (hbelow : t.Below c d) : c = d := by
  rcases hbelow.cases_head with hcd | ⟨q, hq, hbelow⟩
  · exact hcd
  · obtain rfl : p = q := Option.some.inj (hc.symm.trans hq)
    exact absurd (h.le_of_below hbelow) (Nat.not_le_of_gt (h.parent_lt hd))

/-- Nothing is below two siblings. -/
theorem sibling_unique (h : t.Rooted) (hc : t.parent? c = some p) (hd : t.parent? d = some p)
    (hjc : t.Below j c) (hjd : t.Below j d) : c = d := by
  have hunique : Relator.RightUnique fun c p => t.parent? c = some p := fun _ _ _ hp hq =>
    Option.some.inj (hp.symm.trans hq)
  rcases Relation.ReflTransGen.total_of_right_unique hunique hjc hjd with hcd | hdc
  · exact h.eq_of_below hc hd hcd
  · exact (h.eq_of_below hd hc hdc).symm

/-! ## Nesting -/

/-- Once nesting has gone as deep as there are higher numbers, going deeper shows nothing new. -/
theorem nodeView_stable (h : t.Rooted) {depth depth' : Nat} (hn : t.node? i = some n)
    (hdepth : t.nodes.length ≤ i + depth) (hdepth' : t.nodes.length ≤ i + depth') :
    t.nodeView depth n = t.nodeView depth' n := by
  have hlt := lt_of_node? hn
  induction depth generalizing i n depth' with
  | zero => omega
  | succ depth ih =>
      obtain ⟨depth', rfl⟩ : ∃ k, depth' = k + 1 := Nat.exists_eq_add_one.mpr (by omega)
      rw [nodeView, nodeView]
      refine congrArg _ (List.map_congr_left fun m hm => ?_)
      obtain ⟨c, hc, hp⟩ := (h.mem_kids hn).mp hm
      have hlower := h.parent_lt hp
      exact ih hc (by omega) (by omega) (lt_of_node? hc)

/-- The view of a node holds the views of its children, and nothing cuts them off. -/
theorem fullView_eq (h : t.Rooted) (hn : t.node? i = some n) :
    t.fullView n = .node n.title n.id n.snapshot.view ((t.kids n).map t.fullView) := by
  have hdeeper : t.fullView n = t.nodeView (t.nodes.length + 1) n :=
    h.nodeView_stable hn (Nat.le_add_left _ _) (by omega)
  rw [hdeeper, nodeView]
  rfl

theorem id_fullView (h : t.Rooted) (hn : t.node? i = some n) : (t.fullView n).id = i := by
  rw [h.fullView_eq hn, NodeView.id, h.id hn]

theorem map_id_children (h : t.Rooted) (hn : t.node? i = some n) :
    (t.fullView n).children.map NodeView.id = t.children i := by
  rw [h.fullView_eq hn, NodeView.children, List.map_map, ← h.map_id_kids hn]
  refine List.map_congr_left fun m hm => ?_
  obtain ⟨c, hc, -⟩ := (h.mem_kids hn).mp hm
  exact (h.id_fullView hc).trans (h.id hc).symm

theorem shown_fullView (h : t.Rooted) (hn : t.node? i = some n) :
    ExplorationNode.mk (t.fullView n).id n.parent ((t.fullView n).children.map NodeView.id)
      (t.fullView n).snapshot.read = n.shown := by
  rw [h.map_id_children hn, h.id_fullView hn, h.fullView_eq hn, NodeView.snapshot,
    Snapshot.read_view, children_of_node? hn, ← h.id hn]
  rfl

/-- The parts of a full view are the full views of nodes, and these are the nodes that it shows. -/
theorem exists_parts (h : t.Rooted) (hn : t.node? i = some n) :
    ∃ ms, ms ⊆ t.nodes ∧ (t.fullView n).parts = ms.map t.fullView ∧
      (t.fullView n).nodes n.parent = ms.map ExplorationNode.shown := by
  refine leafward h (fun i n hn ih => ?_) hn
  choose! f hf using ih
  have hkids : ∀ m ∈ t.kids n, m.parent = some n.id := by
    intro m hm
    obtain ⟨c, hc, hp⟩ := (h.mem_kids hn).mp hm
    rw [← parent?_of_node? hc, hp, h.id hn]
  refine ⟨n :: (t.kids n).flatMap f, ?_, ?_, ?_⟩
  · refine List.cons_subset.mpr ⟨List.mem_of_getElem? hn, fun x hx => ?_⟩
    obtain ⟨m, hm, hx⟩ := List.mem_flatMap.mp hx
    exact (hf m hm).1 hx
  · rw [h.fullView_eq hn, NodeView.parts, NodeView.partsAll_eq, List.flatMap_map, List.map_cons,
      h.fullView_eq hn, List.map_flatMap]
    exact congrArg _ (List.flatMap_congr fun m hm => (hf m hm).2.1)
  · rw [h.fullView_eq hn, NodeView.nodes, NodeView.nodesAll_eq, List.flatMap_map, List.map_cons,
      List.map_flatMap]
    refine congrArg₂ List.cons ?_ (List.flatMap_congr fun m hm => ?_)
    · have hhead := h.shown_fullView hn
      rwa [h.fullView_eq hn] at hhead
    · rw [← (hf m hm).2.2, hkids m hm]

/-- The numbers in a full view. -/
theorem ids_eq (h : t.Rooted) (hn : t.node? i = some n) :
    (t.fullView n).parts.map NodeView.id =
      i :: (t.kids n).flatMap fun m => (t.fullView m).parts.map NodeView.id := by
  rw [h.fullView_eq hn, NodeView.parts, NodeView.partsAll_eq, List.flatMap_map, List.map_cons,
    List.map_flatMap, NodeView.id, h.id hn]

theorem mem_ids (h : t.Rooted) (hn : t.node? i = some n) :
    j ∈ (t.fullView n).parts.map NodeView.id ↔ t.Below j n.id := by
  refine leafward h (fun i n hn ih => ?_) hn
  rw [h.ids_eq hn, List.mem_cons, List.mem_flatMap, Below, Relation.ReflTransGen.cases_tail_iff,
    h.id hn, eq_comm]
  refine or_congr_right ⟨?_, ?_⟩
  · rintro ⟨m, hm, hj⟩
    obtain ⟨c, hc, hp⟩ := (h.mem_kids hn).mp hm
    exact ⟨c, h.id hc ▸ (ih m hm).mp hj, hp⟩
  · rintro ⟨c, hbelow, hp⟩
    obtain ⟨m, hm⟩ := exists_node? (lt_of_parent? hp)
    have hkid := (h.mem_kids hn).mpr ⟨c, hm, hp⟩
    exact ⟨m, hkid, (ih m hkid).mpr ((h.id hm).symm ▸ hbelow)⟩

/-- No number is in a full view twice: a node is below one child only, and not above itself. -/
theorem nodup_ids (h : t.Rooted) (hn : t.node? i = some n) :
    ((t.fullView n).parts.map NodeView.id).Nodup := by
  refine leafward h (fun i n hn ih => ?_) hn
  have hkid : ∀ m ∈ t.kids n, t.node? m.id = some m ∧ t.parent? m.id = some i := by
    intro m hm
    obtain ⟨c, hc, hp⟩ := (h.mem_kids hn).mp hm
    rw [h.id hc]
    exact ⟨hc, hp⟩
  rw [h.ids_eq hn, List.nodup_cons, List.nodup_flatMap]
  refine ⟨fun hi => ?_, ih, ?_⟩
  · obtain ⟨m, hm, hi⟩ := List.mem_flatMap.mp hi
    obtain ⟨hnode, hp⟩ := hkid m hm
    have hle := h.le_of_below ((h.mem_ids hnode).mp hi)
    exact absurd (h.parent_lt hp) (Nat.not_lt_of_ge hle)
  · have hids : (t.kids n).Pairwise fun m m' => m.id ≠ m'.id := by
      rw [← List.pairwise_map (f := ExplorationNode.id), h.map_id_kids hn]
      exact (h.ascending i).imp Nat.ne_of_lt
    refine hids.imp_of_mem fun {m m'} hm hm' hne j hj hj' => hne ?_
    obtain ⟨hnode, hp⟩ := hkid m hm
    obtain ⟨hnode', hp'⟩ := hkid m' hm'
    exact h.sibling_unique hp hp' ((h.mem_ids hnode).mp hj) ((h.mem_ids hnode').mp hj')

/-- The whole view shows every number once. -/
theorem perm_ids (h : t.Rooted) :
    (t.view.root.parts.map NodeView.id).Perm (List.range t.nodes.length) := by
  have hroot := t.node?_root
  refine (List.perm_ext_iff_of_nodup (h.nodup_ids hroot) List.nodup_range).mpr fun j => ?_
  rw [List.mem_range, ← h.below_root]
  exact (h.mem_ids hroot).trans (by rw [h.id hroot])

/-! ## Reading the whole view -/

/-- The nodes that the whole view shows are those of the exploration, in another order. -/
theorem perm_nodes (h : t.Rooted) :
    (t.view.root.nodes none).Perm (t.nodes.map ExplorationNode.shown) := by
  obtain ⟨ms, hms, hparts, hnodes⟩ := h.exists_parts t.node?_root
  have hviews : t.view.root.parts.map NodeView.id = ms.map ExplorationNode.id := by
    refine (congrArg (List.map NodeView.id) hparts).trans ?_
    rw [List.map_map]
    exact List.map_congr_left fun m hm => h.id_fullView (h.node?_id (hms hm))
  have hids : (ms.map ExplorationNode.id).Perm (List.range t.nodes.length) := hviews ▸ h.perm_ids
  have hsubperm : ms.Subperm t.nodes :=
    List.subperm_of_subset (hids.nodup_iff.mpr List.nodup_range).of_map hms
  have hlength : ms.length = t.nodes.length := by simpa using hids.length_eq
  have hparent : t.root.parent = none := (parent?_of_node? t.node?_root).symm.trans h.root
  rw [hparent] at hnodes
  exact (List.Perm.of_eq hnodes).trans ((hsubperm.perm_of_length_le hlength.ge).map _)

/-- Sorted by their numbers, the nodes that the whole view shows are those of the exploration. -/
theorem nodes_view (h : t.Rooted) : t.view.nodes = t.nodes.map ExplorationNode.shown := by
  have hperm : t.view.nodes.Perm (t.nodes.map ExplorationNode.shown) :=
    (List.mergeSort_perm _ _).trans h.perm_nodes
  have hsorted : t.view.nodes.Pairwise fun m n => m.id ≤ n.id :=
    (List.pairwise_mergeSort (by simpa using fun a b c => Nat.le_trans)
      (fun a b => by simpa using Nat.le_total a.id b.id) _).imp of_decide_eq_true
  have hnodes : (t.nodes.map ExplorationNode.shown).Pairwise fun m n => m.id ≤ n.id := by
    have hids : (t.nodes.map ExplorationNode.id).Pairwise (· < ·) :=
      h.map_id_nodes ▸ List.pairwise_lt_range
    exact List.pairwise_map.mpr ((List.pairwise_map.mp hids).imp Nat.le_of_lt)
  refine hperm.eq_of_pairwise (fun a b ha hb hab hba => ?_) hsorted hnodes
  obtain ⟨m, hm, rfl⟩ := List.mem_map.mp (hperm.mem_iff.mp ha)
  obtain ⟨n, hn, rfl⟩ := List.mem_map.mp hb
  have hid : m.id = n.id := Nat.le_antisymm hab hba
  have hmn := h.node?_id hm
  rw [hid, h.node?_id hn] at hmn
  exact congrArg _ (Option.some.inj hmn).symm

end Rooted

/-- A view that shows all of an exploration. -/
structure Unfolds [Quantity α] (t : Exploration α) : Prop where
  current : t.view.current = t.cursor
  /-- Nesting ends by itself, however deep it may go ... -/
  ends : ∀ depth, t.nodes.length ≤ depth → t.nodeView depth t.root = t.view.root
  /-- ... since every node is shown with the full views of its children. -/
  step : ∀ n ∈ t.nodes, t.fullView n =
    .node n.title n.id n.snapshot.view ((t.kids n).map t.fullView)
  once : (t.view.root.parts.map NodeView.id).Perm (List.range t.nodes.length)
  own : ∀ v ∈ t.view.root.parts, ∃ n, t.node? v.id = some n ∧ v.snapshot = n.snapshot.view ∧
    v.name = if v.id = 0 then "Root" else "Step " ++ toString v.id
  nested : ∀ v ∈ t.view.root.parts, v.children.map NodeView.id =
    (List.range t.nodes.length).filter fun c => t.parent? c = some v.id
  rebuilt : t.view.nodes = t.nodes.map ExplorationNode.shown
  /-- Of what is found at a node, only the ages of unmarked and unvisited places are not shown. -/
  shown : ∀ n ∈ t.nodes, n.shown.snapshot.status.Perm n.snapshot.status ∧
    (n.snapshot.marking.Ordered → ∀ p, n.shown.snapshot.marking.state p =
      if 0 < (n.snapshot.marking.state p).tokens ∨ 0 < (n.snapshot.marking.state p).visits
      then n.snapshot.marking.state p else .fresh)

section

variable [Quantity α]

theorem Rooted.unfolds (h : t.Rooted) : t.Unfolds := by
  have hfull : ∀ v ∈ t.view.root.parts, ∃ n, t.node? v.id = some n ∧ v = t.fullView n := by
    obtain ⟨ms, hms, hparts, -⟩ := h.exists_parts t.node?_root
    intro v hv
    obtain ⟨m, hm, rfl⟩ := List.mem_map.mp (hparts ▸ hv : v ∈ ms.map t.fullView)
    have hnode := h.node?_id (hms hm)
    rw [h.id_fullView hnode]
    exact ⟨m, hnode, rfl⟩
  refine ⟨rfl, fun depth hdepth => ?_, fun n hn => h.fullView_eq (h.node?_id hn), h.perm_ids,
    fun v hv => ?_, fun v hv => ?_, h.nodes_view,
    fun n _ => ⟨List.mergeSort_perm _ _, Marking.state_shown⟩⟩
  · exact h.nodeView_stable t.node?_root (by omega) (by omega)
  · obtain ⟨n, hn, he⟩ := hfull v hv
    refine ⟨n, hn, ?_, ?_⟩
    · rw [he, h.fullView_eq hn, NodeView.snapshot]
    · rw [← h.title_eq hn, he, h.fullView_eq hn, NodeView.name]
  · obtain ⟨n, hn, he⟩ := hfull v hv
    rw [← h.children_eq, ← h.map_id_children hn, ← he]

/-- The view of what is found from a root on shows all of it, whatever is recorded and wherever the
cursor goes. -/
theorem unfolds_of_later {w : Workflow α} {root : Snapshot α} (h : Later w (.ofRoot root) t) :
    t.Unfolds := (h.rooted (.ofRoot root)).unfolds

end

/-- The sample with another child of its root, and then another child of the first task: the view
shows the later one earlier. -/
def sampleLate : Exploration Rat :=
  let t := ((sample.moveTo 0).record .errand sampleLeft false).2.moveTo 1
  (t.record .errand sampleFirst false).2

theorem unfolds_sampleLate : Later .errand (.ofRoot (.initial .errand)) sampleLate ∧
    sampleLate.Unfolds ∧ sampleLate.children 0 = [1, 4] ∧ sampleLate.children 1 = [2, 3, 5] ∧
    sampleLate.view.root.parts.map NodeView.id = [0, 1, 2, 3, 5, 4] ∧
    sampleLate.view.nodes.map ExplorationNode.parent =
      [none, some 0, some 1, some 1, some 0, some 1] := by
  have hlater : Later .errand (.ofRoot (.initial .errand)) sampleLate :=
    .record (.moveTo (.record (.moveTo later_sample 0) _ _) 1) _ _
  have hunfolds := unfolds_of_later hlater
  refine ⟨hlater, hunfolds, by decide +kernel, by decide +kernel, by decide +kernel, ?_⟩
  rw [hunfolds.rebuilt]
  decide +kernel

end Exploration

end RegionNet
