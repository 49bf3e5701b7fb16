import Mathlib
import RegionNet.Proofs.Coalescence
import RegionNet.Proofs.Conduct
import RegionNet.Proofs.Consistency
import RegionNet.Proofs.Shares

/-!
# Ranges

What an exploration records stays in range and moves one way (`Exploration.inRange_of_validate`).
A step has been done by the rules (`Workflow.Legal`), so its probability is a product of shares, its
impacts are a sum of amounts and its time is a sum of delays or of advances of the clock; all of
these are in range in a valid process. Hence from a node to its child the probability does not
grow, and the time and the impacts do not shrink, whatever was called from where.
-/

namespace RegionNet

theorem between_prod {ps : List Rat} (h : ∀ p ∈ ps, 0 ≤ p ∧ p ≤ 1) : 0 ≤ ps.prod ∧ ps.prod ≤ 1 :=
  List.prod_induction (fun p : Rat => 0 ≤ p ∧ p ≤ 1)
    (fun _ _ hp hq => ⟨mul_nonneg hp.1 hq.1, mul_le_one₀ hp.2 hq.1 hq.2⟩)
    ⟨zero_le_one, le_refl 1⟩ h

theorem getD_nonneg {xs : List Rat} (h : ∀ x ∈ xs, 0 ≤ x) (i : Nat) : 0 ≤ xs.getD i 0 := by
  rw [List.getD_eq_getElem?_getD]
  cases hi : xs[i]? with
  | none => exact le_refl 0
  | some x => exact h x (List.mem_of_getElem? hi)

/-- Adding what is not negative makes no entry less. -/
theorem Quantity.forall₂_addEntries {xs ys : List Rat} (hlength : ys.length ≤ xs.length)
    (h : ∀ i, 0 ≤ ys.getD i 0) : List.Forall₂ (· ≤ ·) xs (addEntries xs ys) := by
  refine List.forall₂_iff_get.mpr ⟨?_, fun i hi hi' => ?_⟩
  · rw [length_addEntries, Nat.max_eq_left hlength]
  · have hsum := getD_addEntries xs ys i
    rw [List.getD_eq_getElem _ _ hi, List.getD_eq_getElem _ _ hi'] at hsum
    exact (le_add_of_nonneg_right (h i)).trans_eq hsum.symm

/-! ## Markings -/

/-- No listed place has an age below zero. -/
structure Marking.Aging (m : Marking Rat) : Prop where
  ordered : m.Ordered
  age : ∀ e ∈ m.states, 0 ≤ e.2.age

namespace Marking.Aging

variable {m : Marking Rat}

theorem of_state (hm : m.Ordered) (h : ∀ p, 0 ≤ (m.state p).age) : m.Aging :=
  ⟨hm, fun e he => Marking.state_of_mem hm he ▸ h e.1⟩

theorem state (h : m.Aging) (p : PlaceId) : 0 ≤ (m.state p).age := by
  unfold Marking.state
  cases hp : m.states.lookup p with
  | none => exact le_refl 0
  | some s =>
      obtain ⟨before, after, hsplit, -⟩ := List.lookup_eq_some_iff.mp hp
      exact h.age (p, s) (hsplit ▸ List.mem_append_cons_self)

end Marking.Aging

/-! ## Steps -/

/-- The step is no likelier than certain, and it gives nothing back. -/
structure Step.InRange (w : Workflow Rat) (step : Step Rat) : Prop where
  marking : step.marking.Aging
  probability : 0 ≤ step.probability ∧ step.probability ≤ 1
  dimensions : step.impacts.length = w.dimensions
  impacts : ∀ i, 0 ≤ step.impacts.getD i 0
  elapsed : 0 ≤ step.elapsed

namespace Workflow.Consists

variable {w : Workflow Rat} {P : Piece Rat} {r : Region Rat} {m m' : Marking Rat}
  {timing : Timing Rat} {as : List (Act Rat)} {step : Step Rat}

theorem aging_initial (h : w.Consists P) : w.initial.Aging :=
  .of_state h.ordered_initial fun p => (h.age_initial p).ge

/-- Firing sets ages to zero, and the clock only goes on. -/
theorem aging_of_conduct (h : w.Consists P) (hconduct : timing.Conduct w.net m as m')
    (hm : m.Aging) : m'.Aging := by
  induction hconduct with
  | nil => exact hm
  | fire ht _ _ _ ih =>
      obtain ⟨hpre, hpost⟩ := h.plain _ ht
      refine ih (.of_state (hm.ordered.fire hpre hpost) ?_)
      exact h.age_fire_mem (S := AddSubmonoid.nonneg Rat) hm.ordered hm.state ht
  | pass _ hdt _ ih =>
      refine ih (.of_state (hm.ordered.addTime _) ?_)
      exact age_addTime_mem (S := AddSubmonoid.nonneg Rat) hm.ordered hm.state hdt.le

theorem inRange_of_legal (h : w.Consists P) (hr : r.Yields P)
    (hdelay : ∀ p ∈ P.zone, 0 ≤ w.net.delay p) (hm : m.Aging) (hlegal : w.Legal timing m as step) :
    step.InRange w := by
  have hconduct := hlegal.conduct
  refine ⟨h.aging_of_conduct hconduct hm, ?_, hlegal.dimensions, fun i => ?_, ?_⟩
  · rw [hlegal.probability]
    refine between_prod fun x hx => ?_
    obtain ⟨t, ht, rfl⟩ := List.mem_map.mp hx
    exact h.probability_mem hr (hconduct.mem_transitions ht)
  · rw [hlegal.impacts]
    refine List.sum_nonneg fun x hx => ?_
    obtain ⟨p, hp, rfl⟩ := List.mem_map.mp hx
    exact getD_nonneg (h.impactsAt_nonneg hr (h.zone_of_taken hconduct hp)) i
  · rw [hlegal.elapsed]
    cases timing with
    | counter =>
        refine List.sum_nonneg fun x hx => ?_
        obtain ⟨p, hp, rfl⟩ := List.mem_map.mp hx
        exact hdelay p (h.zone_of_taken hconduct hp)
    | duration budget => exact hconduct.passed_nonneg

end Workflow.Consists

theorem Workflow.inRange_of_leadsTo {r : Region Rat} {w : Workflow Rat} (h : compile r = .ok w)
    {strategy : Strategy Rat} {m : Marking Rat} {step : Step Rat} (hm : m.Aging)
    (hstep : strategy.LeadsTo w m step) : step.InRange w := by
  have hvalid := compile_eq_ok_iff.mp ⟨w, h⟩
  obtain ⟨w', P, hcompile, hP, hr⟩ := exists_yields hvalid
  obtain rfl := Except.ok.inj (hcompile.symm.trans h)
  obtain ⟨σ, resolver, cs, s, s', hcall⟩ := hstep
  obtain ⟨as, hlegal⟩ := (legal_of_compile h strategy hm.ordered).2 resolver cs s s' step hcall
  exact hP.inRange_of_legal hr (hP.delay_nonneg hvalid hr.block) hm hlegal

/-! ## Snapshots -/

namespace Snapshot

variable {w : Workflow Rat} {x y : Snapshot Rat} {step : Step Rat}

structure InRange (w : Workflow Rat) (x : Snapshot Rat) : Prop where
  marking : x.marking.Aging
  probability : 0 ≤ x.probability ∧ x.probability ≤ 1
  dimensions : x.impacts.length = w.dimensions

/-- On the way from one snapshot to the other things only became less likely, later and dearer. -/
structure Continues (x y : Snapshot Rat) : Prop where
  probability : y.probability ≤ x.probability
  time : x.time ≤ y.time
  impacts : List.Forall₂ (· ≤ ·) x.impacts y.impacts

theorem InRange.extend (hx : x.InRange w) (hstep : step.InRange w) :
    (x.extend w step).InRange w ∧ x.Continues (x.extend w step) := by
  have hlength : step.impacts.length ≤ x.impacts.length := by
    rw [hstep.dimensions, hx.dimensions]
  have hcontinues : x.Continues (x.extend w step) :=
    { probability := mul_le_of_le_one_right hx.probability.1 hstep.probability.2
      time := le_add_of_nonneg_right hstep.elapsed
      impacts := Quantity.forall₂_addEntries hlength hstep.impacts }
  refine ⟨⟨hstep.marking, ⟨?_, ?_⟩, ?_⟩, hcontinues⟩
  · exact mul_nonneg hx.probability.1 hstep.probability.1
  · exact hcontinues.probability.trans hx.probability.2
  · exact hcontinues.impacts.length_eq.symm.trans hx.dimensions

end Snapshot

/-! ## Explorations -/

namespace Exploration

/-- An exploration that was begun at the start of the workflow and in which every recorded step
is the answer to a call from the marking under the cursor. -/
inductive Explored {α : Type} [Quantity α] (w : Workflow α) : Exploration α → Prop where
  | start : Explored w (start w)
  | record {t : Exploration α} {strategy : Strategy α} {step : Step α} (h : Explored w t)
      (hstep : strategy.LeadsTo w t.current.snapshot.marking step) (follow : Bool) :
      Explored w (t.record w step follow).2
  | moveTo {t : Exploration α} (h : Explored w t) (i : Nat) : Explored w (t.moveTo i)

/-- What is known after calls from the nodes with the given numbers, with the given choices. -/
def tour {α : Type} [Quantity α] (w : Workflow α) :
    List (Nat × Strategy α × List TransitionId) → Exploration α → Option (Exploration α)
  | [], t => some t
  | (i, strategy, cs) :: calls, t =>
    let here := t.moveTo i
    match strategy.consume (Resolver.fixed none) w here.current.snapshot.marking cs () with
    | (.ok step, _) => tour w calls (here.record w step false).2
    | (.error _, _) => none

theorem Explored.tour {α : Type} [Quantity α] {w : Workflow α} {t' : Exploration α}
    {calls : List (Nat × Strategy α × List TransitionId)} : ∀ {t : Exploration α}, Explored w t →
      tour w calls t = some t' → Explored w t' := by
  induction calls with
  | nil =>
      intro t h htour
      cases htour
      exact h
  | cons call calls ih =>
      intro t h htour
      unfold Exploration.tour at htour
      dsimp only at htour
      split at htour
      · next step _ hcall => exact ih ((h.moveTo call.1).record ⟨_, _, _, _, _, hcall⟩ false) htour
      · cases htour

/-- All snapshots are in range, and each one continues that of its parent. -/
structure InRange (w : Workflow Rat) (t : Exploration Rat) : Prop where
  snapshot : ∀ i x, t.snapshot? i = some x → x.InRange w
  parent : ∀ p c y, t.parent? c = some p → t.snapshot? c = some y →
    ∃ x, t.snapshot? p = some x ∧ x.Continues y

variable {w : Workflow Rat} {t : Exploration Rat} {step : Step Rat}

namespace InRange

theorem start (h : (Snapshot.initial w).InRange w) : (start w).InRange w := by
  constructor
  · rintro (_ | i) x hx
    · exact Option.some.inj hx ▸ h
    · cases hx
  · rintro p (_ | c) y hp
    · cases hp
    · cases hp

theorem moveTo (ht : t.InRange w) (i : Nat) : (t.moveTo i).InRange w := by
  have hsnapshot := fun j => snapshot?_follow t true j i
  have hparent := fun j => parent?_follow t true j i
  refine ⟨fun j x hx => ht.snapshot j x ((hsnapshot j).symm.trans hx), fun p c y hp hy => ?_⟩
  obtain ⟨x, hx, hcontinues⟩ :=
    ht.parent p c y ((hparent c).symm.trans hp) ((hsnapshot c).symm.trans hy)
  exact ⟨x, (hsnapshot p).trans hx, hcontinues⟩

theorem current (ht : t.InRange w) : t.current.snapshot.InRange w :=
  ht.snapshot _ _ t.snapshot?_cursor

theorem grow (ht : t.InRange w) (hstep : step.InRange w) :
    (t.grow (t.current.snapshot.extend w step)).InRange w := by
  obtain ⟨hnew, hcontinues⟩ := ht.current.extend hstep
  constructor
  · intro i x hx
    rw [snapshot?_grow] at hx
    split at hx
    · exact Option.some.inj hx ▸ hnew
    · exact ht.snapshot i x hx
  · intro p c y hp hy
    rw [parent?_grow] at hp
    rw [snapshot?_grow] at hy
    split at hp
    · next hlast =>
        rw [if_pos hlast] at hy
        cases hp
        cases hy
        exact ⟨_, snapshot?_grow_of_some t.snapshot?_cursor _, hcontinues⟩
    · next hold =>
        rw [if_neg hold] at hy
        obtain ⟨x, hx, hcontinues⟩ := ht.parent p c y hp hy
        exact ⟨x, snapshot?_grow_of_some hx _, hcontinues⟩

theorem record (ht : t.InRange w) (hstep : step.InRange w) (follow : Bool) :
    (t.record w step follow).2.InRange w :=
  record_preserves (I := fun t => t.InRange w) (fun _ i h => h.moveTo i)
    (fun _ _ h => h.grow hstep) follow ht

end InRange

/-- Whatever was called from where, and wherever the cursor has gone in between, all that was found
is in range, and nothing became likelier, earlier or cheaper on the way down. -/
theorem inRange_of_validate {r : Region Rat} (h : r.validate = .ok ()) :
    ∃ w, Workflow.compile r = .ok w ∧ ∀ t, Explored w t → t.InRange w := by
  obtain ⟨w, P, hcompile, hP, -⟩ := Workflow.exists_yields h
  refine ⟨w, hcompile, fun t ht => ?_⟩
  induction ht with
  | start =>
      exact .start ⟨hP.aging_initial, ⟨zero_le_one, le_refl 1⟩, List.length_replicate⟩
  | record _ hstep follow ih =>
      exact ih.record (Workflow.inRange_of_leadsTo hcompile ih.current.marking hstep) follow
  | moveTo _ i ih => exact ih.moveTo i

/-- Nature draws one of two ways on from branch `d`, and both are tried; half a unit of time is
spent on branch `c`. -/
theorem inRange_sample : ∃ (w : Workflow Rat) (t : Exploration Rat),
    Workflow.compile Region.sample = .ok w ∧ Explored w t ∧ t.InRange w ∧
      t.nodes.map (fun n => (n.parent, n.snapshot.probability, n.snapshot.impacts,
        n.snapshot.time, (n.snapshot.marking.states.map fun e => e.2.age).sum)) =
      [(none, 1, [0], 0, 0), (some 0, 1, [7], 2, 0), (some 1, 1, [7], 2, 0),
        (some 2, 1 / 4, [10], 3, 0), (some 2, 3 / 4, [7], 3, 0),
        (some 1, 1, [7], 5 / 2, 1 / 2)] := by
  obtain ⟨w, hcompile, hall⟩ := inRange_of_validate Region.sample_valid
  have hcheck : (match Workflow.compile Region.sample with
      | .ok w =>
          (tour w [(0, ⟨.counter, 50⟩, []), (1, ⟨.counter, 50⟩, [⟨19⟩]),
            (2, ⟨.counter, 50⟩, [⟨22⟩]), (2, ⟨.counter, 50⟩, [⟨27⟩]),
            (1, Strategy.halves, [⟨14⟩])] (start w)).any fun t =>
              t.nodes.map (fun n => (n.parent, n.snapshot.probability, n.snapshot.impacts,
                n.snapshot.time, (n.snapshot.marking.states.map fun e => e.2.age).sum)) =
              [(none, 1, [0], 0, 0), (some 0, 1, [7], 2, 0), (some 1, 1, [7], 2, 0),
                (some 2, 1 / 4, [10], 3, 0), (some 2, 3 / 4, [7], 3, 0),
                (some 1, 1, [7], 5 / 2, 1 / 2)]
      | .error _ => false) = true := by decide +kernel
  rw [hcompile] at hcheck
  obtain ⟨t, htour, hcheck⟩ := (Option.any_eq_true _ _).mp hcheck
  have hexplored := Explored.tour .start htour
  exact ⟨w, t, hcompile, hexplored, hall t hexplored, of_decide_eq_true hcheck⟩

end Exploration

end RegionNet
