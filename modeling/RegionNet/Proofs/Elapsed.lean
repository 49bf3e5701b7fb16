import RegionNet.Proofs.Chain
import RegionNet.Proofs.Makespan

/-!
# The time of a run

A run of the clock that comes to an end has taken as long as the process takes when it is resolved
in the way in which the run has decided it (`Workflow.makespan_of_validate`). No branch waits for
another one, except where they join, in whatever order the decisions are met.
-/

namespace RegionNet

open Ruling

variable {σ α : Type}

/-! ## The decisions of a run -/

/-- The transitions that take the decisions of a simulation, call by call. -/
def Simulation.decisions [Quantity α] (w : Workflow α) (strategy : Strategy α)
    (resolver : Resolver σ α) (scripted : List (List TransitionId)) :
    Nat → Nat → Marking α → σ → List (Transition α)
  | left, steps, m, s =>
    if w.isFinal m then []
    else
      match left with
      | 0 => []
      | left + 1 =>
        let choices := scripted.getD steps []
        let taken := (resolver.select w m choices (strategy.choices w m) s).1
        taken.filterMap w.net.transition? ++
          match strategy.consume resolver w m choices s with
          | (.error _, _) => []
          | (.ok step, s) =>
            if step.marking == m then []
            else decisions w strategy resolver scripted left (steps + 1) step.marking s

namespace Simulation

variable [Quantity α] {w : Workflow α} {strategy : Strategy α} {resolver : Resolver σ α}
  {scripted : List (List TransitionId)} {left steps : Nat} {m : Marking α} {s s' : σ}
  {step : Step α}

theorem decisions_of_final (h : w.isFinal m = true) :
    decisions w strategy resolver scripted left steps m s = [] := by
  unfold decisions
  rw [if_pos h]

theorem decisions_of_step (hgoing : w.isFinal m = false)
    (hcall : strategy.consume resolver w m (scripted.getD steps []) s = (.ok step, s'))
    (hmoved : (step.marking == m) = false) :
    decisions w strategy resolver scripted (left + 1) steps m s =
      (resolver.select w m (scripted.getD steps []) (strategy.choices w m) s).1.filterMap
          w.net.transition? ++
        decisions w strategy resolver scripted left (steps + 1) step.marking s' := by
  rw [decisions]
  simp only [hgoing, Bool.false_eq_true, if_false, hcall, hmoved]

end Simulation

/-- Nothing is decided on its own. -/
theorem Piece.Adds.ruling_eq_none [Quantity α] {P : Piece α} {t : Transition α} (h : P.Adds t)
    (hstop : t.stop = false) : t.ruling = none := by
  cases h with
  | pick | back | leave => cases hstop
  | _ => rfl

namespace Workflow.Consists

variable {w : Workflow Rat} {P : Piece Rat} {ts : List (Transition Rat)}
  {strategy : Strategy Rat} {resolver : Resolver σ Rat} {scripted : List (List TransitionId)}
  {n k : Nat} {x y : Snapshot Rat} {s s' : σ}

theorem rulings_of_free (h : w.Consists P) (hts : ∀ t ∈ ts, t ∈ w.net.transitions)
    (hfree : ∀ t ∈ ts, t.stop = false) : rulings ts = [] := by
  refine List.filterMap_eq_nil_iff.mpr fun t ht => ?_
  obtain ⟨Q, -, hadds⟩ := Piece.exists_adds (h.transitions ▸ hts t ht)
  exact hadds.ruling_eq_none (hfree t ht)

/-- A chain of steps up to the end is a journey with the rulings that the steps have decided. -/
theorem exists_journey (h : w.Consists P) (hbudget : strategy.timing.budget = none)
    (hchain : Simulation.Chain w (strategy.consume resolver w) scripted n x s k y s')
    (hfinal : w.isFinal y.marking = true) (hx : x.marking.Ordered) (hlive : P.Live x.marking.tally)
    (hblank : x.course * w.blank = x.course) {left : Nat} (hk : k ≤ n + left) :
    ∃ ts d, strategy.timing.Journey w.net x.marking ts d y.marking ∧
      rulings ts = rulings (Simulation.decisions w strategy resolver scripted left n x.marking s) ∧
      y.course = x.course * (ts.map (Piece.price (strategy.timing.toll w.net))).prod *
        Course.wait d := by
  -- for every leg, what it decides comes in front of what the rest of the chain decides
  obtain ⟨ts, d, hjourney, ⟨-, hrulings⟩, hcourse⟩ := h.journey_of_chain hbudget
    (K := fun n m s ts => n ≤ k ∧ ∀ left, k ≤ n + left →
      rulings ts = rulings (Simulation.decisions w strategy resolver scripted left n m s))
    ⟨Nat.le_refl k, fun left _ => by rw [Simulation.decisions_of_final hfinal]⟩
    (by
      rintro n m s s' us ts vs d step hm hlive hgoing hcall hmoved hleg ⟨hle, hrest⟩
      refine ⟨Nat.le_of_succ_le hle, fun left hk => ?_⟩
      obtain ⟨left, rfl⟩ : ∃ j, left = j + 1 := ⟨left - 1, by omega⟩
      have hmem := (hleg.journey.path h.plain hm).2.mem
      have hus : ∀ t ∈ us, t ∈ w.net.transitions := fun t ht => hmem t (List.mem_append_left _ ht)
      have hts : ∀ t ∈ ts, t ∈ w.net.transitions := fun t ht => hmem t (List.mem_append_right _ ht)
      rw [Simulation.decisions_of_step hgoing hcall hmoved, ← hleg.selected,
        h.filterMap_transition? hus, rulings_append, rulings_append, rulings_append,
        h.rulings_of_free hts hleg.free, List.append_nil, hrest left (by omega)])
    hchain hx hlive hblank
  exact ⟨ts, d, hjourney, hrulings left hk, hcourse⟩

end Workflow.Consists

/-! ## The statement -/

/-- What a process takes by the clock is the makespan of the way in which it was resolved. -/
theorem Workflow.makespan_of_validate {r : Region Rat} (h : r.validate = .ok ())
    (hwhole : ∀ c ∈ r.preorder, ∃ k : Int, c.duration = k) :
    ∃ blk w, r.block = .ok blk ∧ Workflow.compile r = .ok w ∧
      ∀ {σ : Type} (resolver : Resolver σ Rat) (rounds maxSteps : Nat)
        (scripted : List (List TransitionId)) (s : σ) (sim : Simulation Rat),
        w.simulate ⟨.duration none, rounds⟩ resolver maxSteps scripted s = .ok sim →
        sim.stop = .completed →
          ∃ R, (∀ R', blk.Resolves R' ∧ Alike R'.rulings (rulings (Simulation.decisions w
              ⟨.duration none, rounds⟩ resolver scripted maxSteps 0 w.initial s)) ↔ R' = R) ∧
            sim.exploration.current.snapshot.time = R.makespan := by
  obtain ⟨blk, n, hblock, hcompile, hproper, hnodup⟩ := Workflow.compile_of_validate h
  obtain ⟨P, rfl, hP⟩ := Workflow.exists_piece hproper
  refine ⟨P.block, _, hblock, hcompile, ?_⟩
  intro σ resolver rounds maxSteps scripted s sim hsim hstop
  obtain ⟨k, s', hk, hchain, hend⟩ := Simulation.exists_chain (t := .start _) rfl hsim
  have hfinal := hend (decide_eq_true hstop)
  generalize sim.exploration.current.snapshot = y at hchain hfinal
  obtain ⟨ts, d, hjourney, hrulings, hcourse⟩ := hP.exists_journey rfl hchain hfinal
    hP.ordered_initial hP.alive_initial.1 (Workflow.blank_mul_blank _) hk
  obtain ⟨-, hpath⟩ := hjourney.path hP.plain hP.ordered_initial
  have hdone : P.Done y.marking.tally := by
    rcases hP.busy_or_final (hP.alive_of_path hpath) with ⟨-, hgoing⟩ | ⟨hdone, -⟩
    · rw [hfinal] at hgoing
      cases hgoing
    · exact hdone
  have hexit := (hP.isFinal_iff.mp hfinal P.exit).trans (if_pos rfl)
  have hdelay := hP.delay_nonneg h hblock
  have hheads : ∀ Q, Piece.Part Q P → 0 ≤ Q.site.head.duration := fun Q hpart => by
    obtain ⟨c, hc, hduration⟩ := Region.exists_duration h hblock hpart
    exact hduration ▸ Region.nonneg_of_validate h c hc
  -- the last token comes when the resolution says
  obtain ⟨R, hR⟩ := hP.placed.explained hnodup hheads hP.laid (le_refl 0) (c := 0)
    (fun _ => le_refl _) ⟨hP.ready, hP.transitions ▸ hpath, hdone⟩
  have htime : y.time = R.makespan := by
    have hstamp := hP.eq_stamp hdelay (hP.delay_whole h hblock hwhole) hjourney
      (Nat.lt_of_lt_of_eq Nat.zero_lt_one hexit.symm)
    have helapsed : y.time = 0 + _ + d := congrArg Course.elapsed hcourse
    rw [helapsed, Timing.elapsed_prices, hstamp, hR.stamp]
    show (0 : Rat) + 0 + (0 + 0 + R.makespan) = R.makespan
    ring
  have halike := hrulings ▸ hR.alike
  refine ⟨R, fun R' => ⟨fun ⟨hresolves, halike'⟩ => ?_, ?_⟩, htime⟩
  · exact hresolves.unique hR.resolves (halike'.trans halike)
  · rintro rfl
    exact ⟨hR.resolves, halike.symm⟩

theorem Workflow.makespan_sample : ∃ blk w sim R, Region.sample.block = .ok blk ∧
    Workflow.compile Region.sample = .ok w ∧
      w.simulate ⟨.duration none, 2 * w.net.transitions.length + 4⟩
        (Resolver.byDefault Cycle.source) (blk.longest + 1) [] (Cycle.ofWords [0]) = .ok sim ∧
      sim.stop = .completed ∧
      (∀ R', blk.Resolves R' ∧ Alike R'.rulings (rulings (Simulation.decisions w
        ⟨.duration none, 2 * w.net.transitions.length + 4⟩ (Resolver.byDefault Cycle.source) []
        (blk.longest + 1) 0 w.initial (Cycle.ofWords [0]))) ↔ R' = R) ∧
      sim.exploration.current.snapshot.time = R.makespan := by
  obtain ⟨blk, w, hblock, hcompile, hmakespan⟩ :=
    Workflow.makespan_of_validate Region.sample_valid Region.whole_sample
  obtain ⟨blk', n, hblock', hcompile', hproper, -⟩ :=
    Workflow.compile_of_validate Region.sample_valid
  obtain rfl : blk' = blk := Except.ok.inj (hblock'.symm.trans hblock)
  obtain rfl := Except.ok.inj (hcompile'.symm.trans hcompile)
  obtain ⟨P, rfl, hP⟩ := Workflow.exists_piece hproper
  have hcompletes : Workflow.Completes _ (P.block.longest + 1) ⟨.duration none, _⟩ _ :=
    hP.completes Timing.steady_duration (Nat.lt_succ_self _) (hP.heeds_byDefault Cycle.source _)
  obtain ⟨sim, hsim, -, hstop⟩ :=
    hcompletes (P.block.longest + 1) (Cycle.ofWords [0]) [] (List.forall_mem_nil _)
  have hcompleted := hstop (Nat.le_refl _)
  obtain ⟨R, hR, htime⟩ := hmakespan _ _ _ [] _ sim hsim hcompleted
  exact ⟨P.block, _, sim, R, hblock, hcompile, hsim, hcompleted, hR, htime⟩

end RegionNet
