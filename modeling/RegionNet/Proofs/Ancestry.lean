import Mathlib.Data.List.Chain
import Mathlib.Data.List.Nodup
import RegionNet.Proofs.Discovery

/-!
# Ancestry

An exploration keeps its tree twice, as parents and as lists of children, and refers to nodes by
number. The two agree (`Exploration.Rooted`), whatever is recorded and wherever the cursor goes in
between, since a node is found after its parent and is then the last one in both. So the way up from
a node ends at the root, and turned round it is the only way down (`Rooted.way_climb`,
`Rooted.way_unique`).
-/

namespace RegionNet.Exploration

variable {α : Type} {t t' t'' : Exploration α} {i c p : Nat} {n : ExplorationNode α}
  {root : Snapshot α} {path path' : List Nat}

/-! ## The tree -/

/-- The nodes hang from node zero and are numbered in the order in which they were found; parents
and children say the same. -/
structure Rooted (t : Exploration α) : Prop where
  id : ∀ {i n}, t.node? i = some n → n.id = i
  root : t.parent? 0 = none
  parent : ∀ {i}, 0 < i → i < t.nodes.length → ∃ p < i, t.parent? i = some p
  ascending : ∀ p, (t.children p).Pairwise (· < ·)
  mem_children : ∀ {p c}, c ∈ t.children p ↔ t.parent? c = some p

namespace Rooted

theorem parent_lt (h : t.Rooted) (hp : t.parent? c = some p) : p < c := by
  rcases Nat.eq_zero_or_pos c with rfl | hc
  · rw [h.root] at hp
    cases hp
  · obtain ⟨q, hq, hsome⟩ := h.parent hc (lt_of_parent? hp)
    exact Option.some.inj (hsome.symm.trans hp) ▸ hq

theorem child_lt (h : t.Rooted) (hc : c ∈ t.children p) : c < t.nodes.length :=
  lt_of_parent? (h.mem_children.mp hc)

/-- Every node but the root stands in one list of children, and only once. -/
theorem exists_count (h : t.Rooted) (hc : 0 < c) (hlt : c < t.nodes.length) :
    ∃ p, (t.children p).count c = 1 ∧ ∀ q, q ≠ p → c ∉ t.children q := by
  obtain ⟨p, -, hp⟩ := h.parent hc hlt
  refine ⟨p, ?_, fun q hq hmem => ?_⟩
  · have hnodup : (t.children p).Nodup := (h.ascending p).imp Nat.ne_of_lt
    exact List.count_eq_one_of_mem hnodup (h.mem_children.mpr hp)
  · exact hq (Option.some.inj ((h.mem_children.mp hmem).symm.trans hp))

theorem ofRoot (x : Snapshot α) : (ofRoot x).Rooted := by
  have hnode : ∀ i, (Exploration.ofRoot x).node? i =
      if i = 0 then some ⟨0, none, [], x⟩ else none := by
    intro i
    cases i <;> rfl
  have hparent : ∀ i, (Exploration.ofRoot x).parent? i = none := by
    intro i
    unfold parent?
    rw [hnode]
    split <;> rfl
  have hchildren : ∀ i, (Exploration.ofRoot x).children i = [] := by
    intro i
    cases i <;> rfl
  refine ⟨?_, hparent 0, ?_, ?_, ?_⟩
  · intro i n hn
    rw [hnode] at hn
    split at hn
    · next hi => exact Option.some.inj hn ▸ hi.symm
    · cases hn
  · intro i hi hlt
    have hone : i < 1 := hlt
    omega
  · intro p
    rw [hchildren]
    exact .nil
  · intro p c
    rw [hchildren, hparent]
    simp

theorem moveTo (h : t.Rooted) (i : Nat) : (t.moveTo i).Rooted := by
  unfold Exploration.moveTo
  split
  · exact ⟨h.id, h.root, h.parent, h.ascending, h.mem_children⟩
  · exact h

/-- A new node has the highest number and a parent with a lower one. -/
theorem grow (h : t.Rooted) (x : Snapshot α) : (t.grow x).Rooted := by
  have hcursor := t.cursor_lt
  refine ⟨?_, ?_, ?_, ?_, ?_⟩
  · intro i n hn
    rw [node?_grow] at hn
    split at hn
    · next hi => exact Option.some.inj hn ▸ hi.symm
    · obtain ⟨n', hn', rfl⟩ := Option.map_eq_some_iff.mp hn
      have hid := h.id hn'
      split <;> exact hid
  · rw [parent?_grow, if_neg (by omega), h.root]
  · intro i hi hlt
    rw [parent?_grow]
    rw [length_grow] at hlt
    split
    · next hlast => exact ⟨t.cursor, by omega, rfl⟩
    · exact h.parent hi (by omega)
  · intro p
    rw [children_grow]
    split
    · refine List.pairwise_append.mpr ⟨h.ascending p, List.pairwise_singleton _ _, ?_⟩
      intro c hc d hd
      rw [List.mem_singleton.mp hd]
      exact h.child_lt hc
    · exact h.ascending p
  · intro p c
    rw [children_grow, parent?_grow]
    by_cases hc : c = t.nodes.length
    -- the new node is a child of the node under the cursor and of no other one
    · have hnot : c ∉ t.children p := fun hmem => Nat.ne_of_lt (h.child_lt hmem) hc
      rw [if_pos hc]
      split
      · next hp => simp [hc, hp]
      · next hp => simp [hnot, Ne.symm hp]
    · rw [if_neg hc, ← h.mem_children]
      split
      · simp [hc]
      · rfl

end Rooted

/-! ## Ways through the tree -/

/-- The path leads from the root to the node, and on each step from a parent to a child. -/
def Way (t : Exploration α) (i : Nat) (path : List Nat) : Prop :=
  path.head? = some 0 ∧ path.getLast? = some i ∧ path.IsChain fun p c => t.parent? c = some p

theorem way_root (t : Exploration α) : t.Way 0 [0] := ⟨rfl, rfl, .singleton 0⟩

/-- A way to a node is a way to its parent and one step more. -/
theorem way_iff : t.Way i path ↔ i = 0 ∧ path = [0] ∨
    ∃ p before, t.parent? i = some p ∧ t.Way p before ∧ path = before ++ [i] := by
  constructor
  · rintro ⟨hhead, hlast, hchain⟩
    obtain ⟨before, rfl⟩ := List.getLast?_eq_some_iff.mp hlast
    cases hbefore : before.getLast? with
    | none =>
        obtain rfl := List.getLast?_eq_none_iff.mp hbefore
        obtain rfl : i = 0 := Option.some.inj hhead
        exact Or.inl ⟨rfl, rfl⟩
    | some p =>
        have hne : before ≠ [] := by
          rintro rfl
          cases hbefore
        obtain ⟨hchain, -, hstep⟩ := List.isChain_append.mp hchain
        rw [List.head?_append_of_ne_nil _ hne] at hhead
        exact Or.inr ⟨p, before, hstep p hbefore i rfl, ⟨hhead, hbefore, hchain⟩, rfl⟩
  · rintro (⟨rfl, rfl⟩ | ⟨p, before, hp, ⟨hhead, hlast, hchain⟩, rfl⟩)
    · exact t.way_root
    · have hne : before ≠ [] := by
        rintro rfl
        cases hhead
      refine ⟨?_, List.getLast?_concat, List.isChain_append.mpr ⟨hchain, .singleton i, ?_⟩⟩
      · rwa [List.head?_append_of_ne_nil _ hne]
      · intro q hq j hj
        obtain rfl : p = q := Option.some.inj (hlast.symm.trans hq)
        obtain rfl : i = j := Option.some.inj hj
        exact hp

/-- What holds at the root and is handed down from parents to children holds at the end of every
way. -/
theorem Way.ind {motive : Nat → List Nat → Prop} (root : motive 0 [])
    (child : ∀ p c path, t.parent? c = some p → motive p path → motive c (path ++ [c]))
    (h : t.Way i (0 :: path)) : motive i path := by
  induction path using List.reverseRecOn generalizing i with
  | nil =>
      obtain rfl : 0 = i := Option.some.inj h.2.1
      exact root
  | append_singleton path c ih =>
      rcases way_iff.mp h with ⟨-, hroot⟩ | ⟨p, before, hp, hbefore, hsplit⟩
      · simp at hroot
      · have happend : (0 :: path) ++ [c] = before ++ [i] := hsplit
        obtain ⟨rfl, hlast⟩ := List.append_inj' happend rfl
        obtain rfl : c = i := List.singleton_inj.mp hlast
        exact child p c path hp (ih hbefore)

namespace Rooted

theorem way_unique (h : t.Rooted) (hpath : t.Way i path) (hpath' : t.Way i path') :
    path = path' := by
  induction i using Nat.strongRecOn generalizing path path' with
  | ind i ih =>
      rcases way_iff.mp hpath with ⟨rfl, rfl⟩ | ⟨p, before, hp, hbefore, rfl⟩
      · rcases way_iff.mp hpath' with ⟨-, rfl⟩ | ⟨q, before', hq, -, rfl⟩
        · rfl
        · rw [h.root] at hq
          cases hq
      · rcases way_iff.mp hpath' with ⟨rfl, rfl⟩ | ⟨q, before', hq, hbefore', rfl⟩
        · rw [h.root] at hp
          cases hp
        · obtain rfl : p = q := Option.some.inj (hp.symm.trans hq)
          rw [ih p (h.parent_lt hp) hbefore hbefore']

/-- The way up meets lower and lower numbers until it is at the root. -/
theorem way_climb (h : t.Rooted) {fuel : Nat} (hlt : i < t.nodes.length) (hfuel : i < fuel) :
    t.Way i (t.climb fuel i).reverse := by
  induction fuel generalizing i with
  | zero => cases hfuel
  | succ fuel ih =>
      obtain ⟨n, hn⟩ := exists_node? hlt
      have hparent : t.parent? i = n.parent := by
        unfold parent?
        rw [hn]
        rfl
      unfold climb
      simp only [hn]
      cases hp : n.parent with
      | none =>
          rcases Nat.eq_zero_or_pos i with rfl | hpos
          · simp only [h.id hn]
            exact t.way_root
          · obtain ⟨p, -, hsome⟩ := h.parent hpos hlt
            rw [hparent, hp] at hsome
            cases hsome
      | some p =>
          have hlower := h.parent_lt (hparent.trans hp)
          refine way_iff.mpr (Or.inr ⟨p, _, hparent.trans hp, ih (by omega) (by omega), ?_⟩)
          rw [h.id hn, List.reverse_cons]

theorem exists_pathTo (h : t.Rooted) (hlt : i < t.nodes.length) :
    ∃ path, t.pathTo i = some (0 :: path) ∧ t.Way i (0 :: path) := by
  obtain ⟨n, hn⟩ := exists_node? hlt
  have hway := h.way_climb hlt hlt
  obtain ⟨path, hpath⟩ := List.head?_eq_some_iff.mp hway.1
  refine ⟨path, ?_, hpath ▸ hway⟩
  unfold pathTo
  rw [hn, Option.map_some, hpath]

end Rooted

/-! ## What stays -/

/-- Every node is still there with all that was found at it, and has at most gained children, behind
the ones that it had. -/
def Keeps (t t' : Exploration α) : Prop :=
  ∀ i n, t.node? i = some n →
    ∃ more, t'.node? i = some { n with children := n.children ++ more }

theorem Keeps.refl (t : Exploration α) : t.Keeps t :=
  fun _ n hn => ⟨[], by rw [hn, List.append_nil]⟩

theorem Keeps.trans (h : t.Keeps t') (h' : t'.Keeps t'') : t.Keeps t'' := by
  intro i n hn
  obtain ⟨more, hmore⟩ := h i n hn
  obtain ⟨more', hmore'⟩ := h' i _ hmore
  exact ⟨more ++ more', by rw [hmore', List.append_assoc]⟩

theorem Keeps.parent? (h : t.Keeps t') (hp : t.parent? c = some p) : t'.parent? c = some p := by
  obtain ⟨n, hn, hparent⟩ := Option.bind_eq_some_iff.mp hp
  obtain ⟨more, hmore⟩ := h c n hn
  exact Option.bind_eq_some_iff.mpr ⟨_, hmore, hparent⟩

theorem keeps_grow (t : Exploration α) (x : Snapshot α) : t.Keeps (t.grow x) := by
  intro i n hn
  rw [node?_grow, if_neg (Nat.ne_of_lt (lt_of_node? hn)), hn, Option.map_some]
  split
  · exact ⟨_, rfl⟩
  · exact ⟨[], by rw [List.append_nil]⟩

section

variable [Quantity α] {w : Workflow α} {step : Step α}

theorem Later.keeps (h : Later w t t') : t.Keeps t' := by
  refine h.preserves (I := t.Keeps) ?_ ?_ (.refl t)
  · intro t' j ht i n hn
    rw [node?_moveTo]
    exact ht i n hn
  · exact fun t' step _ _ ht => ht.trans (t'.keeps_grow _)

theorem Later.rooted (h : Later w t t') (ht : t.Rooted) : t'.Rooted :=
  h.preserves (fun _ i ht => ht.moveTo i) (fun _ _ _ _ ht => ht.grow _) ht

/-- A step leads to a node, and the cursor goes there if it is told to. -/
theorem Rooted.cursor_record (h : t.Rooted) (step : Step α) (follow : Bool) :
    (t.record w step follow).1 < (t.record w step follow).2.nodes.length ∧
      (t.record w step follow).2.cursor =
        if follow then (t.record w step follow).1 else t.cursor := by
  cases hgoing : w.isFinal t.current.snapshot.marking with
  | true =>
      rw [record_of_final hgoing, h.id t.node?_cursor]
      exact ⟨t.cursor_lt, (ite_self _).symm⟩
  | false =>
      cases hchild : t.childWith step.marking with
      | none =>
          rw [record_of_new hgoing hchild]
          have hlt := Nat.lt_of_lt_of_eq (Nat.lt_succ_self _)
            (t.length_grow (t.current.snapshot.extend w step)).symm
          refine ⟨by rwa [nodes_follow], ?_⟩
          cases follow with
          | true => exact cursor_moveTo hlt
          | false => rfl
      | some c =>
          rw [record_of_known hgoing hchild]
          have hlt := h.child_lt (mem_of_childWith hchild)
          refine ⟨by rwa [nodes_follow], ?_⟩
          cases follow with
          | true => exact cursor_moveTo hlt
          | false => rfl

/-! ## The statement -/

/-- An exploration is a tree, later ones contain it, and ways through it can be found. -/
structure Arborescence (w : Workflow α) (t : Exploration α) : Prop where
  rooted : t.Rooted
  once : ∀ c, 0 < c → c < t.nodes.length →
    ∃ p, (t.children p).count c = 1 ∧ ∀ q, q ≠ p → c ∉ t.children q
  cursor : t.node? t.cursor = some t.current
  kept : ∀ t', Later w t t' → t.Keeps t'
  /-- Where recording leads, and where it leaves the cursor. -/
  led : ∀ (step : Step α) (follow : Bool),
    (t.record w step follow).1 < (t.record w step follow).2.nodes.length ∧
      (t.record w step follow).2.cursor =
        if follow then (t.record w step follow).1 else t.cursor
  moved : ∀ i, i < t.nodes.length → (t.moveTo i).cursor = i
  unmoved : ∀ i, t.nodes.length ≤ i → t.moveTo i = t
  /-- The way up ends by itself, however far it may go. -/
  ends : ∀ i, i < t.nodes.length → ∀ fuel, t.nodes.length ≤ fuel →
    t.climb fuel i = t.climb t.nodes.length i
  path : ∀ i, i < t.nodes.length →
    ∃ path, t.pathTo i = some path ∧ ∀ path', t.Way i path' ↔ path' = path
  pathless : ∀ i, t.nodes.length ≤ i → t.pathTo i = none

/-- What is found from a root on is a tree, whatever is recorded and wherever the cursor goes. -/
theorem arborescence_of_later (h : Later w (.ofRoot root) t) : t.Arborescence w := by
  have ht := h.rooted (.ofRoot root)
  refine ⟨ht, fun c => ht.exists_count, t.node?_cursor, fun t' h => h.keeps, ht.cursor_record,
    fun i => cursor_moveTo, fun i => moveTo_of_unknown, ?_, ?_, ?_⟩
  · intro i hi fuel hfuel
    have hway := ht.way_climb hi (Nat.lt_of_lt_of_le hi hfuel)
    exact List.reverse_inj.mp (ht.way_unique hway (ht.way_climb hi hi))
  · intro i hi
    obtain ⟨path, hpath, hway⟩ := ht.exists_pathTo hi
    refine ⟨0 :: path, hpath, fun path' => ⟨fun hway' => ht.way_unique hway' hway, ?_⟩⟩
    rintro rfl
    exact hway
  · intro i hi
    unfold pathTo
    rw [node?_eq_none hi, Option.map_none]

end

theorem arborescence_sample : Later .errand (.ofRoot (.initial .errand)) sample ∧
    sample.nodes.length = 4 ∧ sample.cursor = 2 ∧ sample.children 1 = [2, 3] ∧
    sample.pathTo 3 = some [0, 1, 3] ∧ ∀ path, sample.Way 3 path ↔ path = [0, 1, 3] := by
  have harborescence := arborescence_of_later later_sample
  have hlength : sample.nodes.length = 4 := by decide +kernel
  have hpath : sample.pathTo 3 = some [0, 1, 3] := by decide +kernel
  obtain ⟨path, hsome, hway⟩ := harborescence.path 3 (hlength ▸ by decide)
  obtain rfl := Option.some.inj (hsome.symm.trans hpath)
  exact ⟨later_sample, hlength, by decide +kernel, by decide +kernel, hpath, hway⟩

end RegionNet.Exploration
