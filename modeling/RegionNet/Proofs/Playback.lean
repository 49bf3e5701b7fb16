import RegionNet.Proofs.Chain
import RegionNet.Proofs.Pause

/-!
# Playback

With a time step, a run is played back in slices: a call lasts for one time step at most, and the
next call goes on where it has stopped. Calls that begin in the middle of a wait decide nothing,
since nothing is due there, so the resolver is asked the same questions in the same order, and its
state is the same whenever it is asked. Each call without a time step is made up for by one call and
as many more as its time takes time steps (`Consists.exists_calls`). So the run comes to the same
end, with the same odds, impacts and time (`Workflow.playback_of_validate`).
-/

namespace RegionNet

open Course

variable {σ : Type}

/-! ## Snapshots -/

namespace Snapshot

/-- A snapshot that has come to a marking by a course after another snapshot. -/
structure Follows (w : Workflow Rat) (x : Snapshot Rat) (o : Course) (m : Marking Rat)
    (y : Snapshot Rat) : Prop where
  marking : y.marking = m
  course : y.course = x.course * o
  status : y.status = w.status m

namespace Follows

variable {w : Workflow Rat} {x y z : Snapshot Rat} {o o' : Course} {m m' : Marking Rat}

theorem extend (w : Workflow Rat) (x : Snapshot Rat) (step : Step Rat) :
    Follows w x step.course step.marking (x.extend w step) := ⟨rfl, rfl, rfl⟩

theorem trans (h : Follows w x o m y) (h' : Follows w y o' m' z) : Follows w x (o * o') m' z :=
  ⟨h'.marking, by rw [h'.course, h.course, mul_assoc], h'.status⟩

theorem unique (h : Follows w x o m y) (h' : Follows w x o m z) : y = z := by
  have hmarking : y.marking = z.marking := h.marking.trans h'.marking.symm
  have hcourse : y.course = z.course := h.course.trans h'.course.symm
  have hstatus : y.status = z.status := h.status.trans h'.status.symm
  obtain ⟨_, _, _, _, _⟩ := y
  obtain ⟨_, _, _, _, _⟩ := z
  cases hmarking
  cases hcourse
  cases hstatus
  rfl

end Follows

end Snapshot

/-! ## Calls -/

/-- Where nothing is due, nothing is decided. -/
theorem Strategy.decided_of_idle {α : Type} [Quantity α] (strategy : Strategy α)
    (resolver : Resolver σ α) {w : Workflow α} {m : Marking α} (cs : List TransitionId) (s : σ)
    (h : strategy.timing.due w.net m = []) :
    strategy.decided resolver w m cs s = .identity m w.dimensions ∧
      (resolver.select w m cs (strategy.choices w m) s).2 = s := by
  have hstop : w.net.transitions.filter
      (fun t => t.stop && strategy.timing.enabled w.net t m) = [] := by
    refine List.filter_eq_nil_iff.mpr fun t ht hdue => ?_
    exact List.filter_eq_nil_iff.mp h t ht (Bool.and_eq_true _ _ ▸ hdue : _ ∧ _).2
  have hchoices : strategy.choices w m = [] := by
    rw [choices, Timing.decisionPoints, hstop]
    rfl
  rw [decided, hchoices]
  exact ⟨rfl, rfl⟩

/-- A call that runs out of time has moved on, since its time has passed. -/
theorem Strategy.moved_of_idles {strategy : Strategy Rat} {resolver : Resolver σ Rat}
    {w : Workflow Rat} {m m' : Marking Rat} {s : σ} {step : Step Rat} {n k : Nat} {dt τ : Rat}
    {o₁ o₂ : Course} (hstrategy : strategy = ⟨.duration (some τ), k⟩) (hτ : 0 < τ)
    (hsettles : (Timing.duration (some τ)).Settles w.net n
      (strategy.decided resolver w m [] s).marking (o₁ * o₂) m')
    (hrest : (Timing.duration (some τ)).Settles w.net n step.marking o₂ m')
    (hspent : o₁.elapsed = τ) (hidles : (Timing.duration (some τ)).Idles w.net step.marking dt) :
    (step.marking == m) = false := by
  by_contra hsame
  obtain rfl : step.marking = m := Marking.eq_of_beq ((Bool.not_eq_false _).mp hsame)
  subst hstrategy
  rw [(Strategy.decided_of_idle _ resolver [] s hidles.idle).1] at hsettles
  obtain ⟨hcourse, -⟩ := hsettles.unique hrest
  have htime : o₂.elapsed = o₁.elapsed + o₂.elapsed := congrArg Course.elapsed hcourse
  linarith

/-- Two calls in a row count the entries of the impacts no more than one call does. -/
theorem Workflow.mul_blank_mul (w : Workflow Rat) (a o₁ o₂ : Course) :
    a * (w.blank * o₁) * (w.blank * (w.blank * o₂)) = a * (w.blank * (o₁ * o₂)) := by
  calc a * (w.blank * o₁) * (w.blank * (w.blank * o₂))
      = a * (w.blank * w.blank * w.blank * (o₁ * o₂)) := by ac_rfl
    _ = a * (w.blank * (o₁ * o₂)) := by rw [w.blank_mul_blank, w.blank_mul_blank]

namespace Workflow.Consists

variable {w : Workflow Rat} {P : Piece Rat} {m m' : Marking Rat} {strategy : Strategy Rat}
  {resolver : Resolver σ Rat} {cs : List TransitionId} {s s' : σ} {step : Step Rat}
  {n : Nat} {o : Course} {dt τ : Rat} {x : Snapshot Rat} {scripted : List (List TransitionId)}

theorem whole_decided (h : w.Consists P) (hm : m.Whole) :
    (strategy.decided resolver w m cs s).marking.Whole := by
  rw [Strategy.decided, Timing.marking_fireAll_eq]
  refine h.whole_fireAll (fun t ht => ?_) hm
  obtain ⟨id, -, hfind⟩ := List.mem_filterMap.mp ht
  exact List.mem_of_find?_eq_some hfind

/-- While tokens wait, the process is not over. -/
theorem going_of_idles (h : w.Consists P) (hidles : (Timing.duration (some τ)).Idles w.net m dt) :
    w.isFinal m = false := by
  obtain ⟨⟨t, ht, htokens, -⟩, -⟩ := Timing.nextWait_eq_some hidles.next
  have hwithin := h.placed.within (h.transitions ▸ ht)
  obtain ⟨p, hp⟩ := List.exists_mem_of_ne_nil _ hwithin.takes
  by_contra hfinal
  have hnone := h.isFinal_iff.mp ((Bool.not_eq_false _).mp hfinal) p
  rw [if_neg fun he : p = P.exit => h.placed.exit_notMem_zone (he ▸ hwithin.inputs hp)] at hnone
  have hpos := ((h.enabled_iff ht).mp htokens).1 p hp
  omega

/-- What a call without a time step does takes no more rounds than two for each transition. -/
theorem exists_settled {rounds : Nat} (h : w.Consists P) (hm : m.Ordered) (hlive : P.Live m.tally)
    (hcall : Strategy.consume ⟨.duration none, rounds⟩ resolver w m cs s = (.ok step, s')) :
    ∃ o, (Timing.duration none).Settles w.net (2 * w.net.transitions.length + 2)
        (Strategy.decided ⟨.duration none, rounds⟩ resolver w m cs s).marking o step.marking ∧
      step.course = (Strategy.decided ⟨.duration none, rounds⟩ resolver w m cs s).course *
        (w.blank * o) ∧ step.elapsed = o.elapsed := by
  obtain ⟨-, -, rest, hsaturate, rfl⟩ := Strategy.consume_eq_ok_iff.mp hcall
  obtain ⟨us, -, -, hbatch, hdecided⟩ :=
    h.exists_opening hm ⟨.duration none, rounds⟩ resolver cs s
  generalize Strategy.decided ⟨.duration none, rounds⟩ resolver w m cs s = decided at *
  obtain ⟨hordered, hpath⟩ := hbatch.path h.plain hm
  have hlive' := h.placed.live_path hlive (h.transitions ▸ hpath)
  obtain ⟨rest', -, hsome, -⟩ := h.exists_halt_of_lt
    (s := .identity decided.marking w.dimensions) Timing.steady_duration hordered hlive'
    (Nat.lt_succ_self _)
  obtain ⟨o, hsettles, hrest⟩ := Timing.exists_settles hsaturate
  obtain ⟨o', hsettles', -⟩ := Timing.exists_settles hsome
  obtain ⟨rfl, hend⟩ := hsettles.unique hsettles'
  refine ⟨o', hend ▸ hsettles', ?_, ?_⟩
  · rw [Step.course_andThen, hrest]
    rfl
  · have htime : decided.elapsed = 0 + _ := congrArg Course.elapsed hdecided
    have hleft : rest.elapsed = 0 + o'.elapsed := congrArg Course.elapsed hrest
    show decided.elapsed + rest.elapsed = o'.elapsed
    rw [htime, hleft, Timing.elapsed_prices, zero_add, zero_add, zero_add]

/-! ### Calls with a time step -/

/-- A call with a time step goes through a first part of the course that begins where its decisions
have led to. -/
theorem exists_slice (h : w.Consists P) (hwhole : ∀ p ∈ P.zone, w.net.delay p ∈ whole)
    (hstrategy : strategy = ⟨.duration (some τ), n + 1⟩) (hτ : 0 ≤ τ) (hτ' : τ ∈ whole)
    (hcs : cs = []) (hs : (resolver.select w m [] (strategy.choices w m) s).2 = s')
    (hm : m.Whole) (hsettles : (Timing.duration (some τ)).Settles w.net n
      (strategy.decided resolver w m [] s).marking o m') :
    ∃ step o₁ o₂, strategy.consume resolver w m cs s = (.ok step, s') ∧
      step.course = (strategy.decided resolver w m [] s).course * (w.blank * o₁) ∧
      step.marking.Whole ∧ o = o₁ * o₂ ∧
      (Timing.duration (some τ)).Settles w.net n step.marking o₂ m' ∧
      (step.marking = m' ∧ o₂ = 1 ∨
        o₁.elapsed = τ ∧ ∃ dt, (Timing.duration (some τ)).Idles w.net step.marking dt) := by
  obtain ⟨rest, o₁, o₂, hcall, hsplit, hpaused⟩ := hsettles.exists_paused h hwhole hτ hτ'
    (s := .identity _ w.dimensions) (h.whole_decided hm) rfl
  subst hstrategy hcs
  refine ⟨_, o₁, o₂, Strategy.consume_eq_ok_iff.mpr ⟨rfl, hs, rest, hcall, rfl⟩, ?_,
    hpaused.whole, hsplit, hpaused.rest, hpaused.pause⟩
  rw [Step.course_andThen, hpaused.course]
  rfl

open Simulation in
/-- One call, and as many more as the course takes time steps, go through the whole course. -/
theorem exists_calls (h : w.Consists P) (hwhole : ∀ p ∈ P.zone, w.net.delay p ∈ whole)
    (hstrategy : strategy = ⟨.duration (some τ), n + 1⟩) (hτ : 0 < τ) (hτ' : τ ∈ whole)
    (hscripted : ∀ cs ∈ scripted, cs = []) (k : Nat) :
    ∀ (j : Nat) (x : Snapshot Rat) (s s' : σ) (o : Course), x.marking.Whole →
      w.isFinal x.marking = false → (m' == x.marking) = false →
      (resolver.select w x.marking [] (strategy.choices w x.marking) s).2 = s' →
      (Timing.duration (some τ)).Settles w.net n
        (strategy.decided resolver w x.marking [] s).marking o m' →
      o.elapsed < k * τ →
      ∃ (p : Nat) (y : Snapshot Rat), p * τ ≤ o.elapsed ∧
        Chain w (strategy.consume resolver w) scripted j x s (j + 1 + p) y s' ∧
        x.Follows w ((strategy.decided resolver w x.marking [] s).course * (w.blank * o)) m' y := by
  induction k with
  | zero =>
      intro j x s s' o _ _ _ _ hsettles hlt
      rw [Nat.cast_zero, zero_mul] at hlt
      exact absurd hsettles.elapsed_nonneg (not_le.mpr hlt)
  | succ k ih =>
      intro j x s s' o hx hgoing hmoved hs hsettles hlt
      obtain ⟨step, o₁, o₂, hcall, hcourse, hstep, rfl, hrest, hpause⟩ :=
        h.exists_slice hwhole hstrategy hτ.le hτ' (getD_of_nothing hscripted j) hs hx hsettles
      have hextend := Snapshot.Follows.extend w x step
      rw [hcourse] at hextend
      rcases hpause with ⟨rfl, rfl⟩ | ⟨hspent, dt, hidles⟩
      -- the call has come to the end
      · refine ⟨0, x.extend w step, ?_, .cons hgoing hcall hmoved (.nil _ _ _), ?_⟩
        · rw [Nat.cast_zero, zero_mul]
          exact hsettles.elapsed_nonneg
        · rwa [mul_one]
      -- time has run out in the middle of a wait, and the next call decides nothing
      · have hmoved' := Strategy.moved_of_idles hstrategy hτ hsettles hrest hspent hidles
        have hidle : strategy.timing.due w.net step.marking = [] := hstrategy ▸ hidles.idle
        obtain ⟨hdecided, hsame⟩ := strategy.decided_of_idle resolver [] s' hidle
        have htime : (o₁ * o₂).elapsed = τ + o₂.elapsed := congrArg (· + o₂.elapsed) hspent
        obtain ⟨p, y, hp, hchain, hy⟩ := ih (j + 1) (x.extend w step) s' s' o₂ hstep
          (h.going_of_idles hidles) (hidles.ne_of_stopped hsettles.stopped) hsame
          (by rwa [hextend.marking, hdecided]) (by push_cast at hlt; linarith)
        rw [show j + 1 + 1 + p = j + 1 + (p + 1) by omega] at hchain
        refine ⟨p + 1, y, ?_, .cons hgoing hcall hmoved' hchain, ?_⟩
        · push_cast
          linarith
        · have hboth := hextend.trans hy
          rw [hextend.marking, hdecided] at hboth
          exact w.mul_blank_mul _ o₁ o₂ ▸ hboth

/-! ### Whole runs -/

open Simulation in
/-- A chain of calls without a time step is made up for by a chain of calls with one, which is as
much longer as the time that passes takes time steps. -/
theorem exists_playback {rounds : Nat} (h : w.Consists P)
    (hwhole : ∀ p ∈ P.zone, w.net.delay p ∈ whole)
    (hstrategy : strategy = ⟨.duration (some τ), n + 1⟩)
    (hn : 2 * w.net.transitions.length + 2 ≤ n) (hτ : 0 < τ) (hτ' : τ ∈ whole)
    (hscripted : ∀ cs ∈ scripted, cs = []) {i k : Nat} {y : Snapshot Rat}
    (hchain : Chain w (Strategy.consume ⟨.duration none, rounds⟩ resolver w) [] i x s k y s')
    (hx : x.marking.Whole) (hlive : P.Live x.marking.tally) (j : Nat) :
    ∃ l : Nat, ((l : Rat) - j) * τ ≤ (k - i) * τ + (y.time - x.time) ∧
      Chain w (strategy.consume resolver w) scripted j x s l y s' := by
  induction hchain generalizing j with
  | nil i x s =>
      refine ⟨j, ?_, .nil j x s⟩
      rw [sub_self, sub_self, sub_self, zero_mul, add_zero]
  | @cons i k x y s s' s'' step hgoing hcall hmoved _ ih =>
      rw [List.getD_nil] at hcall
      obtain ⟨o, hsettles, hcourse, htime⟩ := h.exists_settled hx.ordered hlive hcall
      obtain ⟨us, ts, d, hleg⟩ := h.exists_leg rfl hx.ordered hcall
      obtain ⟨-, hpath⟩ := hleg.journey.path h.plain hx.ordered
      have hlive' := h.placed.live_path hlive (h.transitions ▸ hpath)
      have hstep := hsettles.whole h hwhole (h.whole_decided hx)
      obtain ⟨-, hs, -⟩ := Strategy.consume_eq_ok_iff.mp hcall
      have hdecided : strategy.decided resolver w x.marking [] s =
          Strategy.decided ⟨.duration none, rounds⟩ resolver w x.marking [] s := by
        rw [hstrategy]
        rfl
      have hchoices : strategy.choices w x.marking =
          Strategy.choices ⟨.duration none, rounds⟩ w x.marking := by
        rw [hstrategy]
        rfl
      rw [← hdecided] at hsettles hcourse
      rw [← hchoices] at hs
      obtain ⟨q, hq⟩ := exists_nat_gt (o.elapsed / τ)
      obtain ⟨p, x', hp, hcalls, hfollows⟩ := h.exists_calls hwhole hstrategy hτ hτ' hscripted q j x
        s s' o hx hgoing hmoved hs (hsettles.of_duration.mono hn) ((div_lt_iff₀ hτ).mp hq)
      have hextend := Snapshot.Follows.extend w x step
      rw [hcourse] at hextend
      obtain rfl := hfollows.unique hextend
      obtain ⟨l, hl, hrest⟩ := ih hstep hlive' (j + 1 + p)
      refine ⟨l, ?_, hcalls.trans hrest⟩
      have hextended : (x.extend w step).time = x.time + step.elapsed := rfl
      rw [hextended, htime] at hl
      push_cast at hl
      linarith

end Workflow.Consists

/-- With nothing scripted, it makes no difference how many steps nothing is scripted for. -/
theorem Simulation.Chain.of_nothing {α : Type} [Quantity α] {w : Workflow α}
    {execute : Executor σ α} {scripted : List (List TransitionId)} {n k : Nat} {x y : Snapshot α}
    {s s' : σ} (h : Chain w execute [] n x s k y s') (hscripted : ∀ cs ∈ scripted, cs = []) :
    Chain w execute scripted n x s k y s' := by
  induction h with
  | nil n x s => exact .nil n x s
  | cons hgoing hcall hmoved _ ih =>
      rw [List.getD_nil, ← Workflow.Consists.getD_of_nothing hscripted] at hcall
      exact .cons hgoing hcall hmoved ih

/-! ## The statement -/

/-- With nothing scripted, a simulation that may take `n` steps or more is completed at the
snapshot `y`. -/
def Workflow.EndsAt (w : Workflow Rat) (strategy : Strategy Rat) (resolver : Resolver σ Rat) (s : σ)
    (n : Rat) (y : Snapshot Rat) : Prop :=
  ∀ maxSteps : Nat, n ≤ maxSteps → ∀ scripted : List (List TransitionId),
    (∀ cs ∈ scripted, cs = []) →
    ∃ sim, w.simulate strategy resolver maxSteps scripted s = .ok sim ∧ sim.stop = .completed ∧
      sim.exploration.current.snapshot = y

/-- A chain of steps up to the end is a simulation that is completed. -/
theorem Workflow.endsAt_of_chain {w : Workflow Rat} {strategy : Strategy Rat}
    {resolver : Resolver σ Rat} {s s' : σ} {k : Nat} {q : Rat} {y : Snapshot Rat}
    (h : Simulation.Chain w (strategy.consume resolver w) [] 0
      (Exploration.start w).current.snapshot s k y s')
    (hfinal : w.isFinal y.marking = true) (hk : k ≤ q) :
    w.EndsAt strategy resolver s q y := by
  intro maxSteps hle scripted hscripted
  have hsteps : k ≤ 0 + maxSteps := by
    rw [Nat.zero_add]
    exact_mod_cast hk.trans hle
  exact Simulation.exists_sim (h.of_nothing hscripted) hfinal rfl rfl hsteps

end RegionNet
