import Mathlib.Algebra.BigOperators.Ring.List
import Mathlib.Algebra.Field.Rat
import Mathlib.Data.List.Sections
import RegionNet.Proofs.Decision

/-!
# Executions and what they add up to

An execution takes a workflow to the end by calls that take every open decision. Which executions
there are is a tree, whose branches are the ways to take the decisions that are open in a marking.
`Strategy.Totals` says what the weights of all executions add up to, whatever a step weighs;
`Strategy.addUp` computes it along the tree (`Strategy.totals_of_addUp`).
-/

namespace RegionNet

/-! ## Sums over relations -/

section

variable {κ : Type} {S S' : κ → Rat → Prop} {a : Rat}

/-- The keys that the relation holds of are finite in number, each goes with one value, and the
values have the sum `total`. -/
def Sums (S : κ → Rat → Prop) (total : Rat) : Prop :=
  ∃ L : List (κ × Rat), (L.map Prod.fst).Nodup ∧ (∀ k x, (k, x) ∈ L ↔ S k x) ∧
    (L.map Prod.snd).sum = total

theorem Sums.congr (h : Sums S a) (hS : ∀ k x, S k x ↔ S' k x) : Sums S' a := by
  obtain ⟨L, hnodup, hmem, hsum⟩ := h
  exact ⟨L, hnodup, fun k x => (hmem k x).trans (hS k x), hsum⟩

theorem Sums.single (k : κ) (x : Rat) : Sums (fun k' x' => k' = k ∧ x' = x) x := by
  refine ⟨[(k, x)], List.nodup_singleton _, fun k' x' => ?_, List.sum_singleton⟩
  rw [List.mem_singleton, Prod.mk.injEq]

/-- There is only one total. -/
theorem Sums.unique {b : Rat} (ha : Sums S a) (hb : Sums S b) : a = b := by
  obtain ⟨L, hL, hmem, rfl⟩ := ha
  obtain ⟨M, hM, hmem', rfl⟩ := hb
  have hperm : L.Perm M := (List.perm_ext_iff_of_nodup hL.of_map hM.of_map).mpr fun e =>
    (hmem e.1 e.2).trans (hmem' e.1 e.2).symm
  exact (hperm.map Prod.snd).sum_eq

theorem Sums.scale (h : Sums S a) (y : Rat) : Sums (fun k x => ∃ z, S k z ∧ y * z = x) (y * a) := by
  obtain ⟨L, hnodup, hmem, rfl⟩ := h
  refine ⟨L.map fun e => (e.1, y * e.2), ?_, fun k x => ?_, ?_⟩
  · rw [List.map_map]
    exact hnodup
  · simp only [List.mem_map, Prod.mk.injEq, Prod.exists, hmem]
    constructor
    · rintro ⟨k, z, hz, rfl, rfl⟩
      exact ⟨z, hz, rfl⟩
    · rintro ⟨z, hz, rfl⟩
      exact ⟨k, z, hz, rfl, rfl⟩
  · rw [List.map_map, ← List.sum_map_mul_left]
    rfl

/-- A tree sums up to what its branches sum up to. -/
theorem Sums.join {keys : List κ} {T : κ → List κ → Rat → Prop} {t : κ → Rat} (hkeys : keys.Nodup)
    (h : ∀ k ∈ keys, Sums (T k) (t k)) :
    Sums (fun ks x => ∃ k ∈ keys, ∃ rest, ks = k :: rest ∧ T k rest x) (keys.map t).sum := by
  induction keys with
  | nil => exact ⟨[], List.nodup_nil, by simp, rfl⟩
  | cons k keys ih =>
      obtain ⟨hk, hkeys⟩ := List.nodup_cons.mp hkeys
      obtain ⟨⟨L, hL, hmem, hsum⟩, hrest⟩ := List.forall_mem_cons.mp h
      obtain ⟨M, hM, hmem', hsum'⟩ := ih hkeys hrest
      refine ⟨L.map (fun e => (k :: e.1, e.2)) ++ M, ?_, fun ks x => ?_, ?_⟩
      · rw [List.map_append, List.map_map]
        refine List.Nodup.append ?_ hM ?_
        · have hcons := hL.map (List.cons_injective (a := k))
          rwa [List.map_map] at hcons
        -- the keys of the first branch start differently from all others
        · intro ks hks hks'
          obtain ⟨e, -, rfl⟩ := List.mem_map.mp hks
          obtain ⟨⟨_, x⟩, hx, he⟩ := List.mem_map.mp hks'
          obtain ⟨k', hk', rest, hcons, -⟩ := (hmem' _ _).mp hx
          obtain rfl : k = k' := (List.cons.inj (he.symm.trans hcons)).1
          exact hk hk'
      · rw [List.mem_append, hmem']
        simp only [List.exists_mem_cons_iff]
        refine or_congr ?_ Iff.rfl
        simp only [List.mem_map, Prod.mk.injEq, Prod.exists, hmem]
        constructor
        · rintro ⟨rest, z, hz, rfl, rfl⟩
          exact ⟨rest, rfl, hz⟩
        · rintro ⟨rest, rfl, hz⟩
          exact ⟨rest, x, hz, rfl, rfl⟩
      · rw [List.map_append, List.sum_append, List.map_map, hsum', List.map_cons, List.sum_cons,
          ← hsum]
        rfl

/-- The sum of a function over a list, if the function is defined there. -/
def sumOver (f : κ → Option Rat) (ks : List κ) : Option Rat :=
  if ks.all fun k => (f k).isSome then some (ks.map fun k => (f k).getD 0).sum else none

theorem sumOver_eq_some {f : κ → Option Rat} {g : κ → Rat} {ks : List κ}
    (h : ∀ k ∈ ks, f k = some (g k)) : sumOver f ks = some (ks.map g).sum := by
  unfold sumOver
  rw [if_pos]
  · congr 2
    apply List.map_congr_left
    intro k hk
    rw [h k hk, Option.getD_some]
  · rw [List.all_eq_true]
    intro k hk
    rw [h k hk, Option.isSome_some]

theorem exists_of_sumOver {f : κ → Option Rat} {ks : List κ} {x : Rat}
    (h : sumOver f ks = some x) : ∃ g, (∀ k ∈ ks, f k = some (g k)) ∧ (ks.map g).sum = x := by
  unfold sumOver at h
  split at h
  · next hall =>
      refine ⟨fun k => (f k).getD 0, fun k hk => ?_, Option.some.inj h⟩
      obtain ⟨y, hy⟩ := Option.isSome_iff_exists.mp (List.all_eq_true.mp hall k hk)
      simp [hy]
  · cases h

theorem sum_sections (odds : κ → Rat) (L : List (List κ)) :
    (L.sections.map fun cs => (cs.map odds).prod).sum = (L.map fun l => (l.map odds).sum).prod := by
  induction L with
  | nil => simp [List.sections]
  | cons l L ih =>
      rw [List.sections, List.map_flatMap, List.flatMap_def, List.sum_flatten, List.map_map,
        List.map_cons, List.prod_cons, ← ih, ← List.sum_map_mul_left]
      congr 1
      apply List.map_congr_left
      intro cs _
      simp only [Function.comp_def, List.map_map, List.map_cons, List.prod_cons]
      rw [List.sum_map_mul_right]

theorem nodup_sections {L : List (List κ)} (h : ∀ l ∈ L, l.Nodup) : L.sections.Nodup := by
  induction L with
  | nil => exact List.nodup_singleton _
  | cons l L ih =>
      obtain ⟨hl, hL⟩ := List.forall_mem_cons.mp h
      rw [List.sections, List.nodup_flatMap]
      refine ⟨fun cs _ => hl.map fun a b hab => (List.cons.inj hab).1, ?_⟩
      refine (ih hL).imp fun hne => ?_
      intro x hx hx'
      obtain ⟨a, -, rfl⟩ := List.mem_map.mp hx
      obtain ⟨b, -, he⟩ := List.mem_map.mp hx'
      exact hne (List.cons.inj he).2.symm

end

/-! ## Executions -/

namespace Strategy

variable {σ : Type}

/-- Calls lead from the marking to the end. Their choices take one transition from each decision
point in turn; the number is the product of the weights of their steps. -/
inductive Executes {α : Type} [Quantity α] (strategy : Strategy α) (resolver : Resolver σ α)
    (w : Workflow α) (weight : Marking α → Step α → α) :
    Marking α → σ → List (List TransitionId) → α → Prop where
  | finish {m : Marking α} {s : σ} (final : w.isFinal m = true) :
      Executes strategy resolver w weight m s [] 1
  | call {m : Marking α} {s s' : σ} {cs : List TransitionId} {css : List (List TransitionId)}
      {step : Step α} {x : α} (going : w.isFinal m = false)
      (choices : List.Forall₂ (fun c d => c ∈ d.transitions) cs (strategy.choices w m))
      (answer : strategy.consume resolver w m cs s = (.ok step, s'))
      (rest : Executes strategy resolver w weight step.marking s' css x) :
      Executes strategy resolver w weight m s (cs :: css) (weight m step * x)

/-- Added up over all executions, each of them taken once, the weights give the total. -/
def Totals (strategy : Strategy Rat) (resolver : Resolver σ Rat) (w : Workflow Rat)
    (weight : Marking Rat → Step Rat → Rat) (m : Marking Rat) (s : σ) (total : Rat) : Prop :=
  Sums (strategy.Executes resolver w weight m s) total

/-- The ways to take all open decisions. -/
def answers {α : Type} [Quantity α] (strategy : Strategy α) (w : Workflow α) (m : Marking α) :
    List (List TransitionId) :=
  ((strategy.choices w m).map DecisionPoint.transitions).sections

/-- The weights of all executions added up, if each of them ends after `n` calls at most. -/
def addUp (strategy : Strategy Rat) (resolver : Resolver σ Rat) (w : Workflow Rat)
    (weight : Marking Rat → Step Rat → Rat) : Nat → Marking Rat → σ → Option Rat
  | 0, m, _ => if w.isFinal m then some 1 else none
  | n + 1, m, s =>
    if w.isFinal m then some 1
    else
      sumOver (fun cs =>
        match strategy.consume resolver w m cs s with
        | (.ok step, s') =>
          (strategy.addUp resolver w weight n step.marking s').map (weight m step * ·)
        | (.error _, _) => none) (strategy.answers w m)

variable {strategy : Strategy Rat} {resolver : Resolver σ Rat} {w : Workflow Rat}
  {weight : Marking Rat → Step Rat → Rat} {m : Marking Rat} {s : σ} {x : Rat}

theorem totals_of_isFinal (h : w.isFinal m = true) :
    strategy.Totals resolver w weight m s 1 := by
  refine (Sums.single [] 1).congr fun css x => ?_
  constructor
  · rintro ⟨rfl, rfl⟩
    exact .finish h
  · intro hexec
    cases hexec with
    | finish => exact ⟨rfl, rfl⟩
    | call going =>
        rw [h] at going
        cases going

theorem mem_answers {cs : List TransitionId} : cs ∈ strategy.answers w m ↔
    List.Forall₂ (fun c d => c ∈ d.transitions) cs (strategy.choices w m) := by
  rw [answers, List.mem_sections, List.forall₂_map_right_iff]

/-- Each way to take the decisions that are open starts a branch of the tree of executions. -/
theorem totals_of_calls {y : List TransitionId → Rat}
    (hids : (w.net.transitions.map Transition.id).Nodup) (hgoing : w.isFinal m = false)
    (h : ∀ cs ∈ strategy.answers w m, ∃ step s' z,
      strategy.consume resolver w m cs s = (.ok step, s') ∧
        strategy.Totals resolver w weight step.marking s' z ∧ weight m step * z = y cs) :
    strategy.Totals resolver w weight m s ((strategy.answers w m).map y).sum := by
  have hnodup : (strategy.answers w m).Nodup := by
    apply nodup_sections
    rw [List.forall_mem_map]
    exact fun d hd => Timing.nodup_transitions hids hd
  refine (Sums.join (T := fun cs css x => ∃ step s', strategy.consume resolver w m cs s =
    (.ok step, s') ∧ ∃ z, strategy.Executes resolver w weight step.marking s' css z ∧
      weight m step * z = x) hnodup fun cs hcs => ?_).congr fun css x => ?_
  · obtain ⟨step, s', z, hconsume, htotals, hz⟩ := h cs hcs
    refine hz ▸ (htotals.scale (weight m step)).congr fun css x => ?_
    simp [hconsume]
  · constructor
    · rintro ⟨cs, hcs, rest, rfl, step, s', hconsume, z, hz, rfl⟩
      exact .call hgoing (mem_answers.mp hcs) hconsume hz
    · intro hexec
      cases hexec with
      | finish final =>
          rw [final] at hgoing
          cases hgoing
      | call _ choices answer rest =>
          exact ⟨_, mem_answers.mpr choices, _, rfl, _, _, answer, _, rest, rfl⟩

/-- What is added up is the total. -/
theorem totals_of_addUp (hids : (w.net.transitions.map Transition.id).Nodup) {n : Nat}
    (h : strategy.addUp resolver w weight n m s = some x) :
    strategy.Totals resolver w weight m s x := by
  induction n generalizing m s x with
  | zero =>
      unfold addUp at h
      split at h
      · next hfinal =>
          cases h
          exact totals_of_isFinal hfinal
      · cases h
  | succ n ih =>
      unfold addUp at h
      split at h
      · next hfinal =>
          cases h
          exact totals_of_isFinal hfinal
      · next hgoing =>
          obtain ⟨y, hy, rfl⟩ := exists_of_sumOver h
          refine totals_of_calls hids (by simpa using hgoing) fun cs hcs => ?_
          have hsome := hy cs hcs
          split at hsome
          · next step s' hconsume =>
              obtain ⟨z, hz, hweight⟩ := Option.map_eq_some_iff.mp hsome
              exact ⟨step, s', z, hconsume, ih hz, hweight⟩
          · cases hsome

end Strategy

end RegionNet
