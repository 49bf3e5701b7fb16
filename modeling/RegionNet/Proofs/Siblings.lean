import RegionNet.Proofs.Ancestry
import RegionNet.Proofs.Waiting

/-!
# Siblings

A node is found below another one only if its marking is news there, and nothing is found below a
final marking. So an exploration tells the children of a node apart by their markings
(`Exploration.Sparse`), and recording the same step twice is recording it once
(`Exploration.Rooted.record_again`).

Markings are compared as the program does it, place by place and with the equality of the numbers
that ages are measured in. This need not be an equivalence: an undefined age is not equal to itself,
and a marking that holds one is never met again.
-/

namespace RegionNet

/-! ## Comparing markings -/

namespace Marking

variable {α : Type} [Quantity α]

/-- Lists of states compare as equal when they list the same places and states that compare as
equal. -/
theorem beq_iff_forall₂ {xs ys : List (PlaceId × PlaceState α)} :
    (xs == ys) = true ↔ List.Forall₂ Alike xs ys := by
  refine ⟨forall₂_of_beq, fun hall => ?_⟩
  induction hall with
  | nil => rfl
  | @cons x y xs ys hxy _ ih =>
      obtain ⟨p, n, a, v⟩ := x
      obtain ⟨q, k, b, u⟩ := y
      obtain ⟨hplace, htokens, hage, hvisits⟩ := hxy
      show ((p == q && (n == k && (a == b && v == u))) && xs == ys) = true
      simp only [Bool.and_eq_true, beq_iff_eq]
      exact ⟨⟨hplace, htokens, hage, hvisits⟩, ih⟩

theorem Alike.symm (hcomm : ∀ a b : α, (a == b) = (b == a)) {x y : PlaceId × PlaceState α}
    (h : Alike x y) : Alike y x :=
  ⟨h.place.symm, h.tokens.symm, hcomm _ _ ▸ h.age, h.visits.symm⟩

/-- Markings can be compared from either side if numbers can. -/
theorem beq_comm (hcomm : ∀ a b : α, (a == b) = (b == a)) (m m' : Marking α) :
    (m == m') = (m' == m) := by
  have hswap : ∀ m m' : Marking α, (m == m') = true → (m' == m) = true := by
    intro m m' h
    have hall : List.Forall₂ Alike m.states m'.states := beq_iff_forall₂.mp h
    exact beq_iff_forall₂.mpr (hall.flip.imp fun _ _ => Alike.symm hcomm)
  exact Bool.eq_iff_iff.mpr ⟨hswap m m', hswap m' m⟩

end Marking

namespace Exploration

variable {α : Type} [Quantity α] {w : Workflow α} {t t' : Exploration α} {step : Step α}
  {root : Snapshot α} {c d p : Nat} {x y : Snapshot α}

/-! ## Children are told apart -/

/-- The markings found at two nodes do not compare as equal, in this order. -/
def Differ (t : Exploration α) (c d : Nat) : Prop :=
  ∀ x y, t.snapshot? c = some x → t.snapshot? d = some y → (x.marking == y.marking) = false

theorem Differ.grow (h : t.Differ c d) (hc : c < t.nodes.length) (hd : d < t.nodes.length)
    (z : Snapshot α) : (t.grow z).Differ c d := by
  intro x y hx hy
  rw [snapshot?_grow, if_neg (Nat.ne_of_lt hc)] at hx
  rw [snapshot?_grow, if_neg (Nat.ne_of_lt hd)] at hy
  exact h x y hx hy

theorem Differ.symm (hcomm : ∀ a b : α, (a == b) = (b == a)) (h : t.Differ c d) : t.Differ d c :=
  fun x y hx hy => (Marking.beq_comm hcomm x.marking y.marking).trans (h y x hy hx)

/-- Earlier children differ from later ones, and final markings have no children. -/
structure Sparse (w : Workflow α) (t : Exploration α) : Prop where
  apart : ∀ p, (t.children p).Pairwise t.Differ
  barren : ∀ p x, t.snapshot? p = some x → w.isFinal x.marking = true → t.children p = []

namespace Sparse

theorem ofRoot (x : Snapshot α) : (ofRoot x).Sparse w := by
  have hchildren : ∀ p, (Exploration.ofRoot x).children p = [] := by
    intro p
    cases p <;> rfl
  refine ⟨fun p => ?_, fun p _ _ _ => hchildren p⟩
  rw [hchildren]
  exact .nil

theorem moveTo (h : t.Sparse w) (i : Nat) : (t.moveTo i).Sparse w := by
  unfold Exploration.moveTo
  split
  · exact ⟨h.apart, h.barren⟩
  · exact h

/-- The new node has a marking that none of its siblings has, below one that is not final. -/
theorem grow (h : t.Sparse w) (ht : t.Rooted)
    (hgoing : w.isFinal t.current.snapshot.marking = false)
    (hnew : t.childWith step.marking = none) :
    (t.grow (t.current.snapshot.extend w step)).Sparse w := by
  refine ⟨fun p => ?_, fun p x hx hfinal => ?_⟩
  · have hbefore : (t.children p).Pairwise (t.grow (t.current.snapshot.extend w step)).Differ :=
      (h.apart p).imp_of_mem fun hc hd hdiffer =>
        hdiffer.grow (ht.child_lt hc) (ht.child_lt hd) _
    rw [children_grow]
    split
    · next hp =>
        refine List.pairwise_append.mpr ⟨hbefore, List.pairwise_singleton _ _, ?_⟩
        intro c hc d hd x y hx hy
        obtain rfl := List.mem_singleton.mp hd
        rw [snapshot?_grow, if_neg (Nat.ne_of_lt (ht.child_lt hc))] at hx
        rw [snapshot?_grow, if_pos rfl] at hy
        obtain rfl := Option.some.inj hy
        exact childWith_eq_none_iff.mp hnew c (hp ▸ hc) x hx
    · exact hbefore
  · rw [children_grow]
    split
    · next hp =>
        -- nothing grows below a final marking
        rw [hp, snapshot?_grow_of_some t.snapshot?_cursor] at hx
        rw [← Option.some.inj hx, hgoing] at hfinal
        cases hfinal
    · rw [snapshot?_grow] at hx
      split at hx
      · next hp =>
          unfold children
          rw [hp, node?_eq_none (Nat.le_refl _)]
      · exact h.barren p x hx hfinal

end Sparse

theorem Later.sparse (h : Later w (.ofRoot root) t) : t.Sparse w := by
  refine (h.preserves (I := fun t => t.Rooted ∧ t.Sparse w) ?_ ?_ ⟨.ofRoot root, .ofRoot root⟩).2
  · rintro t i ⟨ht, hsparse⟩
    exact ⟨ht.moveTo i, hsparse.moveTo i⟩
  · rintro t step hgoing hnew ⟨ht, hsparse⟩
    exact ⟨ht.grow _, hsparse.grow ht hgoing hnew⟩

/-! ## Recording twice -/

omit [Quantity α] in
theorem snapshot_current_grow (t : Exploration α) (x : Snapshot α) :
    (t.grow x).current.snapshot = t.current.snapshot := by
  have hgrown := (t.grow x).snapshot?_cursor
  rw [cursor_grow, snapshot?_grow_of_some t.snapshot?_cursor] at hgrown
  exact (Option.some.inj hgrown).symm

/-- A node that was found as news is the one child with its marking. -/
theorem Rooted.childWith_grow (ht : t.Rooted) (hnew : t.childWith x.marking = none)
    (hself : (x.marking == x.marking) = true) :
    (t.grow x).childWith x.marking = some t.nodes.length := by
  have hlast : (t.grow x).snapshot? t.nodes.length = some x := by rw [snapshot?_grow, if_pos rfl]
  have hchildren : (t.grow x).children (t.grow x).cursor =
      t.children t.cursor ++ [t.nodes.length] := by
    rw [cursor_grow, children_grow, if_pos rfl]
  cases hchild : (t.grow x).childWith x.marking with
  | none =>
      have hmem : t.nodes.length ∈ (t.grow x).children (t.grow x).cursor :=
        hchildren ▸ List.mem_append_right _ (List.mem_singleton_self _)
      have hnot := childWith_eq_none_iff.mp hchild _ hmem x hlast
      rw [hself] at hnot
      cases hnot
  | some c =>
      have hmem := mem_of_childWith hchild
      rw [hchildren] at hmem
      rcases List.mem_append.mp hmem with hold | hlast
      · obtain ⟨y, hy⟩ := exists_snapshot? (ht.child_lt hold)
        have hmatch := marking_of_childWith hchild (snapshot?_grow_of_some hy x)
        rw [childWith_eq_none_iff.mp hnew c hold y hy] at hmatch
        cases hmatch
      · rw [List.mem_singleton.mp hlast]

/-- Recording a step once more, from where it was recorded, leads to the same node and changes
nothing. -/
theorem Rooted.record_again (ht : t.Rooted) (hself : (step.marking == step.marking) = true) :
    (t.record w step false).2.record w step false = t.record w step false := by
  cases hgoing : w.isFinal t.current.snapshot.marking with
  | true => rw [record_of_final hgoing, record_of_final hgoing]
  | false =>
      cases hchild : t.childWith step.marking with
      | some c =>
          rw [record_of_known hgoing hchild]
          exact record_of_known hgoing hchild false
      | none =>
          rw [record_of_new hgoing hchild]
          refine record_of_known (t := t.grow (t.current.snapshot.extend w step)) ?_ ?_ false
          · rw [snapshot_current_grow, hgoing]
          · exact ht.childWith_grow (x := t.current.snapshot.extend w step) hchild hself

/-! ## The statement -/

/-- An exploration does not say the same thing twice. -/
structure Deduplicates (w : Workflow α) (t : Exploration α) : Prop where
  /-- Comparing an earlier child of a node with a later one fails. -/
  apart : ∀ p, (t.children p).Pairwise fun c d => ∀ x y,
    t.snapshot? c = some x → t.snapshot? d = some y → (x.marking == y.marking) = false
  /-- So does comparing any two children, if numbers can be compared from either side. -/
  distinct : (∀ a b : α, (a == b) = (b == a)) → ∀ p c d x y, c ∈ t.children p → d ∈ t.children p →
    c ≠ d → t.snapshot? c = some x → t.snapshot? d = some y → (x.marking == y.marking) = false
  barren : ∀ p x, t.snapshot? p = some x → w.isFinal x.marking = true → t.children p = []
  grows_iff : ∀ (step : Step α) (follow : Bool),
    (t.record w step follow).2.nodes.length = t.nodes.length + 1 ↔
      w.isFinal t.current.snapshot.marking = false ∧ ∀ c ∈ t.children t.cursor, ∀ x,
        t.snapshot? c = some x → (x.marking == step.marking) = false
  stays : ∀ (step : Step α) (follow : Bool),
    ¬(w.isFinal t.current.snapshot.marking = false ∧ ∀ c ∈ t.children t.cursor, ∀ x,
      t.snapshot? c = some x → (x.marking == step.marking) = false) →
    (t.record w step follow).2.nodes = t.nodes
  still : ∀ step : Step α, (t.record w step false).2.cursor = t.cursor
  again : ∀ step : Step α, (step.marking == step.marking) = true →
    (t.record w step false).2.record w step false = t.record w step false

/-- Whatever is recorded, siblings differ in their markings, nothing is found below a final marking,
and what is known already is not found again. -/
theorem deduplicates_of_later (h : Later w (.start w) t) : t.Deduplicates w := by
  have ht : t.Rooted := h.rooted (.ofRoot _)
  have hsparse : t.Sparse w := Later.sparse h
  refine ⟨hsparse.apart, ?_, hsparse.barren, ?_, ?_, ?_, fun step => ht.record_again⟩
  · intro hcomm p c d x y hc hd hne hx hy
    have : Std.Symm t.Differ := ⟨fun _ _ => Differ.symm hcomm⟩
    exact (hsparse.apart p).forall hc hd hne x y hx hy
  · intro step follow
    rw [length_record_iff, childWith_eq_none_iff]
  · intro step follow hold
    rw [← childWith_eq_none_iff] at hold
    exact nodes_record follow hold
  · exact fun step => (ht.cursor_record step false).2

/-- The two ways of the small exploration end in different markings, and nothing is found after the
first of them. A step back to the start, recorded twice after the first task, is found once. -/
theorem deduplicates_sample : Later .errand (start .errand) sample ∧
    sample.children 1 = [2, 3] ∧ (∀ x y, sample.snapshot? 2 = some x →
      sample.snapshot? 3 = some y → (y.marking == x.marking) = false) ∧
    sample.children 2 = [] ∧
    (∀ (step : Step Rat) (follow : Bool),
      (sample.record .errand step follow).2.nodes = sample.nodes) ∧
    (let back := Step.identity Workflow.errand.initial 1
      let found := (sample.moveTo 1).record .errand back false
      found.1 = 4 ∧ found.2.nodes.length = 5 ∧ found.2.record .errand back false = found) := by
  have hsample := deduplicates_of_later later_sample
  have hmoved := deduplicates_of_later (later_sample.moveTo 1)
  have hchildren : sample.children 1 = [2, 3] := by decide +kernel
  have hfinal : Workflow.errand.isFinal sample.current.snapshot.marking = true := by decide +kernel
  refine ⟨later_sample, hchildren, fun x y hx hy => ?_, ?_, fun step follow => ?_,
    by decide +kernel, by decide +kernel, hmoved.again _ (by decide +kernel)⟩
  · exact hsample.distinct (fun _ _ => BEq.comm) 1 3 2 y x (by simp [hchildren])
      (by simp [hchildren]) (by decide) hy hx
  · have hcursor : sample.cursor = 2 := by decide +kernel
    exact hsample.barren 2 _ (hcursor ▸ sample.snapshot?_cursor) hfinal
  · refine hsample.stays step follow fun hopen => ?_
    rw [hfinal] at hopen
    cases hopen.1

end Exploration

end RegionNet
