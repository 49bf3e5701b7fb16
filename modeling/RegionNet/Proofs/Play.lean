import RegionNet.Execution.Resolver
import RegionNet.Proofs.Call

/-!
# Plays

A workflow is played by calls, one after the other, until it is over; in each call the caller takes
every open decision. Nothing of this is visible in the description that the workflow was compiled
from, but the courses of the plays are exactly the courses that the description allows
(`Workflow.plays_of_validate`).

Going forward, each call is paid out of what is left (`Consists.course_of_play`); going backward,
each course that is left is split by some call (`Consists.exists_play`). In the end nothing is left.
-/

namespace RegionNet

open scoped Pointwise

open Course

/-! ## Calls and plays -/

namespace Strategy

variable {σ α : Type} [Quantity α]

/-- A call in which the caller takes every open decision leads through the step. The resolver's
state goes from `s` to `s'`. -/
def Calls (strategy : Strategy α) (resolver : Resolver σ α) (w : Workflow α) (m : Marking α) (s : σ)
    (step : Step α) (s' : σ) : Prop :=
  ∃ cs, Settles (strategy.choices w m) cs ∧ strategy.consume resolver w m cs s = (.ok step, s')

/-- Such calls lead from the initial marking to the marking. -/
inductive Reached (strategy : Strategy α) (resolver : Resolver σ α) (w : Workflow α) (s₀ : σ) :
    Marking α → σ → Prop where
  | initial : Reached strategy resolver w s₀ w.initial s₀
  | call {m : Marking α} {s s' : σ} {step : Step α} (reached : Reached strategy resolver w s₀ m s)
      (going : w.isFinal m = false) (call : strategy.Calls resolver w m s step s') :
      Reached strategy resolver w s₀ step.marking s'

/-- Such calls lead from the marking to the end, through the step all in all. -/
inductive Plays (strategy : Strategy α) (resolver : Resolver σ α) (w : Workflow α) :
    Marking α → σ → Step α → Prop where
  | last {m : Marking α} {s s' : σ} {step : Step α} (call : strategy.Calls resolver w m s step s')
      (final : w.isFinal step.marking = true) : Plays strategy resolver w m s step
  | more {m : Marking α} {s s' : σ} {step rest : Step α}
      (call : strategy.Calls resolver w m s step s') (going : w.isFinal step.marking = false)
      (plays : Plays strategy resolver w step.marking s' rest) :
      Plays strategy resolver w m s (step.andThen rest)

end Strategy

/-- A workflow realizes some courses: no call of a caller who takes every open decision fails, and
the courses of the plays are the given ones. -/
structure Workflow.Realizes {σ : Type} (w : Workflow Rat) (strategy : Strategy Rat)
    (resolver : Resolver σ Rat) (s₀ : σ) (O : Set Course) : Prop where
  answers : ∀ m s cs, strategy.Reached resolver w s₀ m s → w.isFinal m = false →
    Settles (strategy.choices w m) cs →
      ∃ step s', strategy.consume resolver w m cs s = (.ok step, s')
  courses : {o | ∃ step, strategy.Plays resolver w w.initial s₀ step ∧ step.course = o} = O

/-! ## Both directions -/

namespace Workflow.Consists

variable {σ : Type} {resolver : Resolver σ Rat} {s s' s₀ : σ} {rounds : Nat} {w : Workflow Rat}
  {P : Piece Rat} {m : Marking Rat} {step : Step Rat} {us ts : List (Transition Rat)} {o : Course}

theorem answer_of_calls (h : w.Consists P) (hrounds : w.net.transitions.length < rounds)
    (hm : m.Ordered) (hlive : P.Live m.tally)
    (hcall : Strategy.Calls ⟨.counter, rounds⟩ resolver w m s step s') :
    ∃ us ts, Answer w P m us ts step := by
  obtain ⟨cs, hcs, hok⟩ := hcall
  obtain ⟨us, hus, hids⟩ := h.exists_decides hlive hcs
  obtain ⟨step', ts, hconsume, ha⟩ :=
    h.exists_answer resolver s hm hlive hrounds hus hids
  rw [hconsume] at hok
  obtain rfl : step' = step := Except.ok.inj (congrArg Prod.fst hok)
  exact ⟨us, ts, ha⟩

theorem Answer.alive (ha : Answer w P m us ts step) (h : w.Consists P) (halive : Alive P m.tally) :
    Alive P step.marking.tally := h.alive_path halive (ha.batch.trans ha.saturation)

/-- An answer is paid out of what is left. -/
theorem Answer.pays (ha : Answer w P m us ts step) (h : w.Consists P) (hlive : P.Live m.tally) :
    {((us ++ ts).map (Piece.price (tollIn w.net.terms))).prod} *
      P.rest (tollIn w.net.terms) step.marking.tally ⊆ P.rest (tollIn w.net.terms) m.tally := by
  have hpath := ha.batch.trans ha.saturation
  rw [h.transitions] at hpath
  exact h.placed.pays_path hlive hpath

theorem reached (h : w.Consists P) (hrounds : w.net.transitions.length < rounds)
    (hm : Strategy.Reached ⟨.counter, rounds⟩ resolver w s₀ m s) : m.Ordered ∧ Alive P m.tally := by
  induction hm with
  | initial => exact ⟨h.ordered_initial, h.alive_initial⟩
  | call _ _ hcall ih =>
      obtain ⟨hm, halive⟩ := ih
      obtain ⟨us, ts, ha⟩ := h.answer_of_calls hrounds hm halive.1 hcall
      exact ⟨ha.ordered, ha.alive h halive⟩

/-- A play costs what was left. -/
theorem course_of_play (h : w.Consists P) (hrounds : w.net.transitions.length < rounds)
    (hplay : Strategy.Plays ⟨.counter, rounds⟩ resolver w m s step) (hm : m.Ordered)
    (halive : Alive P m.tally) :
    step.course ∈ {w.blank} * P.rest (tollIn w.net.terms) m.tally := by
  induction hplay with
  | last hcall hfinal =>
      obtain ⟨us, ts, ha⟩ := h.answer_of_calls hrounds hm halive.1 hcall
      rw [ha.course]
      -- at the end nothing is left
      refine Set.mul_mem_mul rfl (ha.pays h halive.1 ?_)
      rcases h.busy_or_final (ha.alive h halive) with ⟨_, hgoing⟩ | ⟨hdone, _⟩
      · rw [hfinal] at hgoing
        cases hgoing
      · rw [h.placed.rest_of_done hdone, mul_one]
        rfl
  | more hcall _ _ ih =>
      obtain ⟨us, ts, ha⟩ := h.answer_of_calls hrounds hm halive.1 hcall
      obtain ⟨x, rfl, o, ho, hcourse⟩ := Set.mem_mul.mp (ih ha.ordered (ha.alive h halive))
      rw [Step.course_andThen, ha.course, ← hcourse, mul_mul_mul_comm, w.blank_mul_blank]
      exact Set.mul_mem_mul rfl (ha.pays h halive.1 (Set.mul_mem_mul rfl ho))

/-- Whatever is left is the cost of a play. -/
theorem exists_play (h : w.Consists P) (hrounds : w.net.transitions.length < rounds)
    (hm : m.Ordered) (halive : Alive P m.tally) (hbusy : P.Busy m.tally)
    (ho : o ∈ P.rest (tollIn w.net.terms) m.tally) :
    ∃ step, Strategy.Plays ⟨.counter, rounds⟩ resolver w m s step ∧ step.course = w.blank * o := by
  induction hn : P.left m.tally using Nat.strong_induction_on generalizing m o with
  | _ n ih =>
      obtain ⟨cs, us, step, ts, hcs, hconsume, ha, hsplit⟩ :=
        h.exists_call resolver s hm halive.1 hrounds ho
      have hcall : Strategy.Calls ⟨.counter, rounds⟩ resolver w m s step s := ⟨cs, hcs, hconsume⟩
      obtain ⟨x, rfl, o', ho', rfl⟩ := Set.mem_mul.mp hsplit
      have halive' := ha.alive h halive
      rcases h.busy_or_final halive' with ⟨hbusy', hgoing⟩ | ⟨hdone, hfinal⟩
      -- each call uses up visits, so the calls come to an end
      · have hlt := ha.left_lt h hbusy halive.1
        obtain ⟨rest, hplay, hcourse⟩ := ih _ (hn ▸ hlt) ha.ordered halive' hbusy' ho' rfl
        refine ⟨_, .more hcall hgoing hplay, ?_⟩
        rw [Step.course_andThen, ha.course, hcourse, mul_mul_mul_comm, w.blank_mul_blank]
      · rw [h.placed.rest_of_done hdone, Set.mem_one] at ho'
        rw [ho', mul_one]
        exact ⟨_, .last hcall hfinal, ha.course⟩

end Workflow.Consists

/-! ## Compiled processes -/

/-- At first all courses of the block are left. -/
theorem Workflow.Consists.rest_initial {w : Workflow Rat} {P : Piece Rat} (h : w.Consists P) :
    P.rest (tollIn w.net.terms) w.initial.tally = P.block.courses := by
  rw [Piece.rest_of_unvisited P fun p _ => ?_, h.laid.whole, wait_zero, Set.singleton_one, one_mul]
  rw [h.tally_initial]
  split <;> rfl

/-- Counting realizes the courses that a valid description allows, unless saturation is given up too
soon. -/
theorem Workflow.plays_of_validate {r : Region Rat} (h : r.validate = .ok ()) :
    ∃ w, Workflow.compile r = .ok w ∧ ∀ {σ : Type} (resolver : Resolver σ Rat) (s₀ : σ)
      (rounds : Nat), w.net.transitions.length + 1 < rounds →
        w.Realizes ⟨.counter, rounds⟩ resolver s₀ r.courses := by
  obtain ⟨blk, n, hblk, hcompile, hproper, -⟩ := Workflow.compile_of_validate h
  obtain ⟨P, rfl, hP⟩ := Workflow.exists_piece hproper
  refine ⟨_, hcompile, fun {σ} resolver s₀ rounds hrounds => ?_⟩
  replace hrounds := Nat.lt_of_succ_lt hrounds
  constructor
  · intro m s cs hm _ hcs
    obtain ⟨hordered, halive⟩ := hP.reached hrounds hm
    obtain ⟨us, hus, hids⟩ := hP.exists_decides halive.1 hcs
    obtain ⟨step, ts, hconsume, -⟩ := hP.exists_answer resolver s hordered halive.1 hrounds hus hids
    exact ⟨step, s, hconsume⟩
  rw [Region.courses_of_block r hblk hproper, ← hP.rest_initial]
  -- the zeros that a step starts from leave no trace
  have hblank : ∀ o ∈ P.rest (tollIn (Workflow.ofBlock P.block).net.terms)
      (Workflow.ofBlock P.block).initial.tally, (Workflow.ofBlock P.block).blank * o = o := by
    intro o ho
    rw [hP.rest_initial] at ho
    ext1
    · exact one_mul _
    · apply Quantity.zeros_addEntries
      rw [Workflow.dimensions_ofBlock hproper]
      exact P.block.spans hproper o ho
    · exact zero_add _
  have hbusy := hP.placed.busy_of_ready hP.ready
  ext o
  constructor
  · rintro ⟨step, hplay, rfl⟩
    obtain ⟨x, rfl, o, ho, hcourse⟩ :=
      Set.mem_mul.mp (hP.course_of_play hrounds hplay hP.ordered_initial hP.alive_initial)
    rw [← hcourse, hblank o ho]
    exact ho
  · intro ho
    obtain ⟨step, hplay, hcourse⟩ :=
      hP.exists_play (s := s₀) hrounds hP.ordered_initial hP.alive_initial hbusy ho
    exact ⟨step, hplay, hcourse.trans (hblank o ho)⟩

theorem Workflow.plays_sample : ∃ w, Workflow.compile Region.sample = .ok w ∧
    w.Realizes ⟨.counter, w.net.transitions.length + 2⟩ (Resolver.fixed none) ()
      Region.sample.courses := by
  obtain ⟨w, hcompile, hplays⟩ := Workflow.plays_of_validate Region.sample_valid
  exact ⟨w, hcompile, hplays _ _ _ (Nat.lt_succ_self _)⟩

end RegionNet
