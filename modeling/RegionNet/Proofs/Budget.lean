import RegionNet.Proofs.Rounds

/-!
# Budgets

What becomes of the time that a call may use. Only the clock spends it: taking tokens costs no time
where the clock is run. So through every round what has elapsed and what is left add up to the
budget (`Timing.Spent.round`), and a call that has time left has stopped for another reason
(`Timing.atRest_of_next_eq_none`). No assumption is made about the net or the marking.
-/

namespace RegionNet

/-! ## Time that a budget is spent on -/

namespace Timing

variable {net : Net Rat} {m : Marking Rat} {timeStep budget left : Option Rat} {b x wait : Rat}
  {as : List (Act Rat)} {s : Step Rat}

theorem elapsed_fireAll_duration (timeStep : Option Rat) (net : Net Rat) (s : Step Rat)
    (ts : List (Transition Rat)) : ((duration timeStep).fireAll net s ts).elapsed = s.elapsed := by
  have hcourse := congrArg Course.elapsed ((duration timeStep).fireAll_course net ts s)
  have hprices := elapsed_prices net timeStep ts
  calc ((duration timeStep).fireAll net s ts).elapsed
      = s.elapsed + _ := hcourse
    _ = s.elapsed + 0 := congrArg _ hprices
    _ = s.elapsed := add_zero _

theorem cut_le : cut (some x) wait ≤ x := by
  show Quantity.smaller wait x ≤ x
  unfold Quantity.smaller
  split
  · exact le_refl x
  · next hle => exact not_lt.mp hle

theorem cut_pos (hwait : 0 < wait) (hleft : ∀ x ∈ budget, 0 < x) : 0 < cut budget wait := by
  cases budget with
  | none => exact hwait
  | some x =>
      show 0 < Quantity.smaller wait x
      unfold Quantity.smaller
      split
      · exact hleft x rfl
      · exact hwait

/-- Part of the budget `b` has elapsed and the rest of it is left. -/
structure Spent (b : Rat) (left : Option Rat) (s : Step Rat) : Prop where
  left_eq : left = some (b - s.elapsed)
  nonneg : 0 ≤ s.elapsed
  le : s.elapsed ≤ b

/-- Nothing of a budget is lost in a round. -/
theorem Spent.round (hs : Spent b budget s)
    (hnext : (duration timeStep).next net budget s.marking = some (as, left)) :
    Spent b left (as.foldl ((duration timeStep).perform net) s) := by
  obtain ⟨rfl, hnonneg, hle⟩ := hs
  rcases next_cases hnext with ⟨-, -, rfl, rfl⟩ | ⟨wait, -, -, hpos, rfl, rfl⟩
  · have htime := elapsed_fireAll_duration timeStep net s ((duration timeStep).due net s.marking)
    rw [performs_fire]
    exact ⟨by rw [htime], by rwa [htime], by rwa [htime]⟩
  · have hcut : cut (some (b - s.elapsed)) wait ≤ b - s.elapsed := cut_le
    rw [not_le] at hpos
    generalize cut (some (b - s.elapsed)) wait = dt at hcut hpos
    have htime : ([Act.pass dt].foldl ((duration timeStep).perform net) s).elapsed =
        s.elapsed + dt := rfl
    refine ⟨?_, ?_, ?_⟩
    · rw [htime, Option.map_some, sub_sub]
    · rw [htime]
      linarith
    · rw [htime]
      linarith

/-- With time left or without a budget, saturation is over because a decision is due or nothing has
its tokens. -/
theorem atRest_of_next_eq_none (hnext : (duration timeStep).next net budget m = none)
    (hleft : ∀ x ∈ budget, 0 < x) : (duration timeStep).AtRest net m := by
  rcases next_eq_none hnext with hopen | ⟨hdue, hwait | ⟨wait, hwait, hle⟩⟩
  · exact Or.inl hopen
  · refine Or.inr fun t ht => ?_
    refine steady_duration.nextWait_eq_none hwait ht (Bool.eq_false_iff.mpr fun he => ?_)
    exact List.ne_nil_of_mem (mem_due.mpr ⟨ht, he⟩) hdue
  · exact absurd hle (not_le.mpr (cut_pos (nextWait_pos hwait) hleft))

end Timing

/-- Without a budget nothing of it remains, and saturation ends where no round follows. -/
theorem Timing.over_of_unlimited {α : Type} [Quantity α] {timing : Timing α} {net : Net α} {n : Nat}
    {s s' : Step α} (h : timing.saturateFor net n none s = some s') :
    s'.remaining = none ∧ timing.next net none s'.marking = none := by
  obtain ⟨left, last, rfl, hover, rfl⟩ := exists_last (I := fun left _ => left = none)
    (fun budget s as left hbudget hnext => by
      rcases next_cases hnext with ⟨-, -, -, rfl⟩ | ⟨_, -, -, -, -, rfl⟩
      · exact hbudget
      · rw [hbudget]
        rfl) rfl h
  exact ⟨rfl, hover⟩

/-! ## Calls -/

/-- A call for saturation, or one with choices, is answered with the step. -/
def Strategy.Answers {α : Type} [Quantity α] (strategy : Strategy α) (w : Workflow α)
    (m : Marking α) (step : Step α) : Prop :=
  strategy.saturate w m = .ok step ∨ strategy.LeadsTo w m step

/-- The step accounts for the time `b` that the call may use. -/
structure Step.Accounts (net : Net Rat) (b : Rat) (step : Step Rat) : Prop where
  nonneg : 0 ≤ step.elapsed
  le : step.elapsed ≤ b
  remaining : step.remaining = some (b - step.elapsed)
  /-- Time is left over only where there is nothing to use it for. -/
  rest : ∀ x, step.remaining = some x → 0 < x → (Timing.duration (some b)).AtRest net step.marking

namespace Workflow

variable {w : Workflow Rat} {m : Marking Rat} {b : Rat} {rounds : Nat} {step : Step Rat}

theorem accounts_of_saturateFor (hb : 0 ≤ b)
    (hsome : (Timing.duration (some b)).saturateFor w.net rounds (some b)
      (.identity m w.dimensions) = some step) : step.Accounts w.net b := by
  have hstart : Timing.Spent b (some b) (.identity m w.dimensions) :=
    ⟨congrArg some (sub_zero b).symm, le_refl 0, hb⟩
  obtain ⟨left, last, ⟨rfl, hnonneg, hle⟩, hover, rfl⟩ := Timing.exists_last
    (fun _ _ _ _ hspent hnext => hspent.round hnext) hstart hsome
  refine ⟨hnonneg, hle, rfl, fun x hx hpos => ?_⟩
  obtain rfl := Option.some.inj hx
  exact Timing.atRest_of_next_eq_none hover fun _ hy => Option.some.inj hy ▸ hpos

theorem accounts_of_answers (hb : 0 ≤ b)
    (hanswers : Strategy.Answers ⟨.duration (some b), rounds⟩ w m step) :
    step.Accounts w.net b := by
  rcases hanswers with hsaturate | ⟨σ, resolver, cs, s, s', hcall⟩
  · exact accounts_of_saturateFor hb (Strategy.saturate_eq_ok_iff.mp hsaturate)
  · obtain ⟨-, -, rest, hsome, rfl⟩ := Strategy.consume_eq_ok_iff.mp hcall
    -- the decisions take no time, so the step accounts for what its second part does
    have hdecided : (Strategy.decided ⟨.duration (some b), rounds⟩ resolver w m cs s).elapsed = 0 :=
      Timing.elapsed_fireAll_duration _ _ _ _
    obtain ⟨hnonneg, hle, hremaining, hrest⟩ := accounts_of_saturateFor hb hsome
    have htime : ((Strategy.decided ⟨.duration (some b), rounds⟩ resolver w m cs s).andThen
        rest).elapsed = rest.elapsed := by
      show _ + rest.elapsed = rest.elapsed
      rw [hdecided, zero_add]
    refine ⟨?_, ?_, ?_, hrest⟩
    · rwa [htime]
    · rwa [htime]
    · rwa [htime]

end Workflow

/-- Without a budget, nothing of it remains. -/
theorem Strategy.remaining_of_answers {α : Type} [Quantity α] {strategy : Strategy α}
    {w : Workflow α} {m : Marking α} {step : Step α} (hbudget : strategy.timing.budget = none)
    (hanswers : strategy.Answers w m step) : step.remaining = none := by
  have hnone : ∀ {m' rest}, strategy.timing.saturateFor w.net strategy.maxRounds
      strategy.timing.budget (.identity m' w.dimensions) = some rest → rest.remaining = none :=
    fun hsome => (Timing.over_of_unlimited (hbudget ▸ hsome)).1
  rcases hanswers with hsaturate | ⟨σ, resolver, cs, s, s', hcall⟩
  · exact hnone (saturate_eq_ok_iff.mp hsaturate)
  · obtain ⟨-, -, rest, hsome, rfl⟩ := consume_eq_ok_iff.mp hcall
    have hremaining : rest.remaining = none := hnone hsome
    exact hremaining

/-- The time that calls may use is accounted for, in any workflow and from any marking. -/
theorem Workflow.accounts (w : Workflow Rat) (m : Marking Rat) (step : Step Rat) :
    (∀ b rounds, 0 ≤ b → Strategy.Answers ⟨.duration (some b), rounds⟩ w m step →
      step.Accounts w.net b) ∧
    ∀ strategy : Strategy Rat, strategy.timing.budget = none → strategy.Answers w m step →
      step.remaining = none :=
  ⟨fun _ _ => accounts_of_answers, fun _ => Strategy.remaining_of_answers⟩

/-- Half a unit of time is used up while the tasks `a` and `b` go on. Of five units four are left
over, since a choice is open as soon as both tasks are done. -/
theorem Workflow.accounts_sample : ∃ (w : Workflow Rat) (step step' : Step Rat),
    compile Region.sample = .ok w ∧
      Strategy.saturate ⟨.duration (some (1 / 2)), 50⟩ w w.initial = .ok step ∧
      step.elapsed = 1 / 2 ∧ step.remaining = some (1 / 2 - step.elapsed) ∧
      Strategy.saturate ⟨.duration (some 5), 50⟩ w w.initial = .ok step' ∧
      step'.remaining = some 4 ∧ (Timing.duration (some 5)).AtRest w.net step'.marking := by
  obtain ⟨blk, -, -, hcompile, -⟩ := compile_of_validate Region.sample_valid
  generalize ofBlock blk = w at hcompile
  have hcheck : (match compile Region.sample with
      | .ok w =>
          match Strategy.saturate ⟨.duration (some (1 / 2)), 50⟩ w w.initial,
            Strategy.saturate ⟨.duration (some 5), 50⟩ w w.initial with
          | .ok step, .ok step' => step.elapsed == 1 / 2 && step'.remaining == some 4
          | _, _ => false
      | .error _ => false) = true := by decide +kernel
  rw [hcompile] at hcheck
  dsimp only at hcheck
  split at hcheck
  · next step step' hstep hstep' =>
      simp only [Bool.and_eq_true, beq_iff_eq] at hcheck
      obtain ⟨htime, hleft⟩ := hcheck
      have haccounts := (accounts w w.initial step).1 (1 / 2) 50 (by norm_num) (Or.inl hstep)
      have haccounts' := (accounts w w.initial step').1 5 50 (by norm_num) (Or.inl hstep')
      exact ⟨w, step, step', hcompile, hstep, htime, haccounts.remaining, hstep', hleft,
        haccounts'.rest 4 hleft (by norm_num)⟩
  · cases hcheck

end RegionNet
