import RegionNet.Proofs.Call
import RegionNet.Proofs.Completion
import RegionNet.Proofs.Journey

/-!
# Chains of steps

A simulation is a chain of steps, each of which starts at the snapshot that the one before has led
to (`Simulation.Chain`); whatever there is around it, the tree of snapshots and the limit of steps,
neither adds to the chain nor takes from it. A step is a leg of a journey: decisions at different
places, each either chosen or answered, then what fires on its own (`Consists.exists_leg`). So a
whole chain is a journey, and its last snapshot has gathered the prices of what has fired and the
time that has passed (`Consists.journey_of_chain`).
-/

namespace RegionNet

open Course

variable {σ α : Type}

/-! ## Chains -/

namespace Simulation

variable [Quantity α]

/-- Steps of a simulation that lead from one snapshot, after `n` steps, to another one, after `k`
steps, and change the resolver's state as well. -/
inductive Chain (w : Workflow α) (execute : Executor σ α) (scripted : List (List TransitionId)) :
    Nat → Snapshot α → σ → Nat → Snapshot α → σ → Prop where
  | nil (n : Nat) (x : Snapshot α) (s : σ) : Chain w execute scripted n x s n x s
  | cons {n k : Nat} {x y : Snapshot α} {s s' s'' : σ} {step : Step α}
      (going : w.isFinal x.marking = false)
      (call : execute x.marking (scripted.getD n []) s = (.ok step, s'))
      (moved : (step.marking == x.marking) = false)
      (h : Chain w execute scripted (n + 1) (x.extend w step) s' k y s'') :
      Chain w execute scripted n x s k y s''

variable {w : Workflow α} {execute : Executor σ α} {scripted : List (List TransitionId)}
  {n k : Nat} {x y : Snapshot α} {s s' : σ}

theorem Chain.trans {l : Nat} {z : Snapshot α} {s'' : σ}
    (h : Chain w execute scripted n x s k y s') (h' : Chain w execute scripted k y s' l z s'') :
    Chain w execute scripted n x s l z s'' := by
  induction h with
  | nil => exact h'
  | cons hgoing hcall hmoved _ ih => exact .cons hgoing hcall hmoved (ih h')

theorem Chain.le (h : Chain w execute scripted n x s k y s') : n ≤ k := by
  induction h with
  | nil => exact Nat.le_refl _
  | cons _ _ _ _ ih => exact Nat.le_of_succ_le ih

theorem resume_of_final {left : Nat} {t : Exploration α}
    (h : w.isFinal t.current.snapshot.marking = true) :
    resume w execute scripted left n t s = .ok ⟨t, n, .completed⟩ := by
  unfold resume
  rw [if_pos h]

/-- What a simulation does between two calls. -/
theorem resume_of_call {left : Nat} {t : Exploration α} {step : Step α}
    (hgoing : w.isFinal t.current.snapshot.marking = false)
    (hcall : execute t.current.snapshot.marking (scripted.getD n []) s = (.ok step, s')) :
    resume w execute scripted (left + 1) n t s =
      if step.marking == t.current.snapshot.marking then .ok ⟨t, n + 1, .deadlock⟩
      else resume w execute scripted left (n + 1) (t.record w step true).2 s' := by
  rw [resume]
  simp only [hgoing, Bool.false_eq_true, if_false, hcall]

/-- A simulation that is answered has had its calls answered. -/
theorem exists_step_of_resume {left : Nat} {t : Exploration α} {sim : Simulation α}
    (hgoing : w.isFinal t.current.snapshot.marking = false)
    (hsim : resume w execute scripted (left + 1) n t s = .ok sim) :
    ∃ step s', execute t.current.snapshot.marking (scripted.getD n []) s = (.ok step, s') := by
  rw [resume] at hsim
  simp only [hgoing, Bool.false_eq_true, if_false] at hsim
  generalize execute t.current.snapshot.marking (scripted.getD n []) s = called at hsim ⊢
  obtain ⟨outcome, s'⟩ := called
  cases outcome with
  | error e => cases hsim
  | ok step => exact ⟨step, s', rfl⟩

/-- Every simulation that is answered is a chain. -/
theorem exists_chain {left : Nat} {sim : Simulation α} : ∀ {n : Nat} {t : Exploration α} {s : σ},
    t.current.children = [] → resume w execute scripted left n t s = .ok sim →
      ∃ k s', k ≤ n + left ∧
        Chain w execute scripted n t.current.snapshot s k sim.exploration.current.snapshot s' ∧
        (sim.completed = true → w.isFinal sim.exploration.current.snapshot.marking = true) := by
  induction left with
  | zero =>
      intro n t s _ h
      cases hfinal : w.isFinal t.current.snapshot.marking with
      | true =>
          obtain rfl := Except.ok.inj ((resume_of_final hfinal).symm.trans h)
          exact ⟨n, s, Nat.le_refl _, .nil n _ s, fun _ => hfinal⟩
      | false =>
          unfold resume at h
          simp only [hfinal, Bool.false_eq_true, if_false] at h
          obtain rfl := Except.ok.inj h
          exact ⟨n, s, Nat.le_refl _, .nil n _ s, fun h => by cases h⟩
  | succ left ih =>
      intro n t s hchildren h
      cases hfinal : w.isFinal t.current.snapshot.marking with
      | true =>
          obtain rfl := Except.ok.inj ((resume_of_final hfinal).symm.trans h)
          exact ⟨n, s, Nat.le_add_right _ _, .nil n _ s, fun _ => hfinal⟩
      | false =>
          obtain ⟨step, s', hcall⟩ := exists_step_of_resume hfinal h
          rw [resume_of_call hfinal hcall] at h
          cases hmoved : step.marking == t.current.snapshot.marking with
          | true =>
              rw [if_pos hmoved] at h
              obtain rfl := Except.ok.inj h
              exact ⟨n, s, Nat.le_add_right _ _, .nil n _ s, fun h => by cases h⟩
          | false =>
              rw [if_neg (Bool.eq_false_iff.mp hmoved)] at h
              obtain ⟨hchildren', hsnapshot⟩ :=
                Exploration.current_record hchildren hfinal step
              obtain ⟨k, s'', hk, hchain, hend⟩ := ih hchildren' h
              rw [hsnapshot] at hchain
              exact ⟨k, s'', by omega, .cons hfinal hcall hmoved hchain, hend⟩

/-- A chain that ends in a final marking is a simulation, if so many steps are allowed. -/
theorem exists_sim (h : Chain w execute scripted n x s k y s')
    (hfinal : w.isFinal y.marking = true) :
    ∀ {left : Nat} {t : Exploration α}, t.current.snapshot = x → t.current.children = [] →
      k ≤ n + left → ∃ sim, resume w execute scripted left n t s = .ok sim ∧
        sim.stop = .completed ∧ sim.exploration.current.snapshot = y := by
  induction h with
  | nil n x s =>
      rintro left t rfl - -
      exact ⟨_, resume_of_final hfinal, rfl, rfl⟩
  | @cons n k x y s s' s'' step hgoing hcall hmoved hchain ih =>
      rintro left t rfl hchildren hk
      have hle := hchain.le
      obtain ⟨left, rfl⟩ := Nat.exists_eq_add_of_lt (show 0 < left by omega)
      rw [Nat.zero_add] at hk ⊢
      obtain ⟨hchildren', hsnapshot⟩ := Exploration.current_record hchildren hgoing step
      obtain ⟨sim, hsim, hstop, hy⟩ := ih hfinal hsnapshot hchildren'
        (by omega : k ≤ n + 1 + left)
      refine ⟨sim, ?_, hstop, hy⟩
      rw [resume_of_call hgoing hcall, if_neg (Bool.eq_false_iff.mp hmoved), hsim]

end Simulation

/-! ## Decisions of a call -/

/-- The transitions that take decisions in a call are on offer at different decisions, and each of
them was chosen or answered. -/
theorem Resolver.exists_select [Quantity α] (resolver : Resolver σ α) (w : Workflow α)
    (m : Marking α) (cs : List TransitionId) (points : List DecisionPoint) : ∀ s : σ,
    ∃ ds, ds.Sublist points ∧ List.Forall₂ (fun d c => c ∈ d.transitions ∧
      (c ∈ cs ∨ ∃ s', (resolver.answer w d.place m s').1 = some c)) ds
        (resolver.select w m cs points s).1 := by
  induction points with
  | nil => exact fun _ => ⟨[], .slnil, .nil⟩
  | cons d points ih =>
      intro s
      cases hfind : cs.find? d.transitions.contains with
      | some c =>
          rw [select_cons_of_some hfind]
          obtain ⟨ds, hsub, hds⟩ := ih s
          have hc : c ∈ d.transitions := by simpa using List.find?_some hfind
          have hchosen := List.mem_of_find?_eq_some hfind
          exact ⟨d :: ds, hsub.cons_cons d, .cons ⟨hc, Or.inl hchosen⟩ hds⟩
      | none =>
          rw [select_cons_of_none hfind]
          obtain ⟨ds, hsub, hds⟩ := ih (resolver.answer w d.place m s).2
          cases hanswer : (resolver.answer w d.place m s).1.filter d.transitions.contains with
          | none => exact ⟨ds, hsub.cons d, hds⟩
          | some c =>
              obtain ⟨hc, hmem⟩ := Option.filter_eq_some_iff.mp hanswer
              refine ⟨d :: ds, hsub.cons_cons d, .cons ⟨by simpa using hmem, Or.inr ⟨s, hc⟩⟩ hds⟩

/-! ## Calls -/

namespace Strategy

variable [Quantity α] {strategy : Strategy α} {resolver : Resolver σ α} {w : Workflow α}
  {m : Marking α} {cs : List TransitionId} {s s' : σ} {step : Step α}

/-- The step in which a call takes its decisions. -/
def decided (strategy : Strategy α) (resolver : Resolver σ α) (w : Workflow α) (m : Marking α)
    (cs : List TransitionId) (s : σ) : Step α :=
  strategy.timing.fireAll w.net (.identity m w.dimensions)
    ((resolver.select w m cs (strategy.choices w m) s).1.filterMap w.net.transition?)

theorem saturate_eq_ok_iff : strategy.saturate w m = .ok step ↔
    strategy.timing.saturateFor w.net strategy.maxRounds strategy.timing.budget
      (.identity m w.dimensions) = some step := by
  simp only [saturate]
  cases strategy.timing.saturateFor w.net strategy.maxRounds strategy.timing.budget
    (.identity m w.dimensions) <;> simp

/-- A call that is answered takes its decisions and then does what saturation makes of them. -/
theorem consume_eq_ok_iff : strategy.consume resolver w m cs s = (.ok step, s') ↔
    checkChoices w.net (strategy.choices w m) [] cs = .ok () ∧
      (resolver.select w m cs (strategy.choices w m) s).2 = s' ∧
      ∃ rest, strategy.timing.saturateFor w.net strategy.maxRounds strategy.timing.budget
          (.identity (strategy.decided resolver w m cs s).marking w.dimensions) = some rest ∧
        (strategy.decided resolver w m cs s).andThen rest = step := by
  simp only [consume, saturate, decided]
  generalize strategy.timing.fireAll w.net _ _ = decided
  cases checkChoices w.net (strategy.choices w m) [] cs with
  | error e => simp
  | ok u =>
      cases strategy.timing.saturateFor w.net strategy.maxRounds strategy.timing.budget
          (.identity decided.marking w.dimensions) with
      | none => simp
      | some rest => simp [and_comm]

end Strategy

/-! ## Legs -/

/-- A call has taken the decisions `us`, then `ts` have fired on their own, and the time `d` has
passed in all. -/
structure Leg (strategy : Strategy Rat) (resolver : Resolver σ Rat) (w : Workflow Rat)
    (P : Piece Rat) (m : Marking Rat) (cs : List TransitionId) (s : σ)
    (us ts : List (Transition Rat)) (d : Rat) (step : Step Rat) : Prop where
  selected : us.map Transition.id = (resolver.select w m cs (strategy.choices w m) s).1
  decided : ∃ ps, ps.Nodup ∧ List.Forall₂ (fun p u => P.Decides w.net.limit m.tally p u ∧
    (u.id ∈ cs ∨ ∃ s', (resolver.answer w p m s').1 = some u.id)) ps us
  free : ∀ t ∈ ts, t.stop = false
  journey : strategy.timing.Journey w.net m (us ++ ts) d step.marking
  course : step.course =
    w.blank * ((us ++ ts).map (Piece.price (strategy.timing.toll w.net))).prod * wait d

namespace Workflow.Consists

variable {w : Workflow Rat} {P : Piece Rat} {m : Marking Rat} {strategy : Strategy Rat}
  {resolver : Resolver σ Rat} {cs : List TransitionId} {s s' : σ} {step : Step Rat}
  {scripted : List (List TransitionId)}

/-- What a call decides is due, each decision at its own place, and nothing that is taken for one of
them is taken for another. -/
theorem exists_opening (h : w.Consists P) (hm : m.Ordered)
    (strategy : Strategy Rat) (resolver : Resolver σ Rat) (cs : List TransitionId) (s : σ) :
    ∃ us, us.map Transition.id = (resolver.select w m cs (strategy.choices w m) s).1 ∧
      (∃ ps, ps.Nodup ∧ List.Forall₂ (fun p u => P.Decides w.net.limit m.tally p u ∧
        (u.id ∈ cs ∨ ∃ s', (resolver.answer w p m s').1 = some u.id)) ps us) ∧
      strategy.timing.Journey w.net m us 0 (strategy.decided resolver w m cs s).marking ∧
      (strategy.decided resolver w m cs s).course =
        w.blank * (us.map (Piece.price (strategy.timing.toll w.net))).prod := by
  obtain ⟨ds, hsub, hds⟩ := resolver.exists_select w m cs (strategy.choices w m) s
  obtain ⟨us, hids, htaken, hus⟩ := h.exists_decided hsub.subset hds
  have hps : (ds.map DecisionPoint.place).Nodup := Timing.nodup_places.sublist (hsub.map _)
  have hdecides := List.forall₂_map_left_iff.mpr (hus.imp fun d t ht => ht.1)
  have hdue : ∀ t ∈ us, t ∈ w.net.transitions ∧ strategy.timing.enabled w.net t m = true := by
    intro t ht
    obtain ⟨d, -, hd, he, -⟩ := exists_left_of_forall₂ hus ht
    exact ⟨h.transitions ▸ hd.mem, he⟩
  have hbatch := h.journey_of_batch hm hdue (Piece.independent_of_decides hdecides hps)
  refine ⟨us, hids, ⟨_, hps, ?_⟩, ?_, ?_⟩
  · exact List.forall₂_map_left_iff.mpr (hus.imp fun d t ht => ⟨ht.1, ht.2.2⟩)
  · rwa [Strategy.decided, htaken, Timing.marking_fireAll_eq]
  · rw [Strategy.decided, htaken, Timing.fireAll_course]
    rfl

theorem exists_leg (h : w.Consists P) (hbudget : strategy.timing.budget = none) (hm : m.Ordered)
    (hcall : strategy.consume resolver w m cs s = (.ok step, s')) :
    ∃ us ts d, Leg strategy resolver w P m cs s us ts d step := by
  obtain ⟨-, -, rest, hsaturate, rfl⟩ := Strategy.consume_eq_ok_iff.mp hcall
  obtain ⟨us, hids, hdecided, hbatch, hcourse⟩ := h.exists_opening hm strategy resolver cs s
  rw [hbudget] at hsaturate
  obtain ⟨ts, d, hjourney, hfree, hrest⟩ := h.journey_of_saturateFor
    (s := .identity _ w.dimensions) (hbatch.path h.plain hm).1 hsaturate
  refine ⟨us, ts, 0 + d, hids, hdecided, hfree, hbatch.trans hjourney, ?_⟩
  rw [Step.course_andThen, hcourse, hrest, List.map_append, List.prod_append, zero_add]
  show w.blank * _ * (w.blank * _ * wait d) = _
  rw [mul_assoc w.blank _ (wait d), mul_mul_mul_comm, w.blank_mul_blank, mul_assoc w.blank,
    mul_assoc (List.prod _)]

end Workflow.Consists

/-! ## Journeys of chains -/

/-- What a run has taken to come to a snapshot. -/
def Snapshot.course (x : Snapshot Rat) : Course := ⟨x.probability, x.impacts, x.time⟩

open Simulation in
/-- A chain of steps without a budget is a journey. What is kept by every leg in front of a journey
is known of the journey. -/
theorem Workflow.Consists.journey_of_chain {w : Workflow Rat} {P : Piece Rat}
    {strategy : Strategy Rat} {resolver : Resolver σ Rat} {scripted : List (List TransitionId)}
    {n k : Nat} {x y : Snapshot Rat} {s s' : σ} (h : w.Consists P)
    (hbudget : strategy.timing.budget = none)
    {K : Nat → Marking Rat → σ → List (Transition Rat) → Prop} (hend : K k y.marking s' [])
    (hleg : ∀ n m s s' us ts vs d step, m.Ordered → P.Live m.tally → w.isFinal m = false →
      strategy.consume resolver w m (scripted.getD n []) s = (.ok step, s') →
      (step.marking == m) = false →
      Leg strategy resolver w P m (scripted.getD n []) s us ts d step →
      K (n + 1) step.marking s' vs → K n m s (us ++ ts ++ vs))
    (hchain : Chain w (strategy.consume resolver w) scripted n x s k y s')
    (hx : x.marking.Ordered) (hlive : P.Live x.marking.tally)
    (hblank : x.course * w.blank = x.course) :
    ∃ ts d, strategy.timing.Journey w.net x.marking ts d y.marking ∧ K n x.marking s ts ∧
      y.course = x.course * (ts.map (Piece.price (strategy.timing.toll w.net))).prod * wait d := by
  induction hchain with
  | nil n x s =>
      refine ⟨[], 0, .nil _, hend, ?_⟩
      rw [List.map_nil, List.prod_nil, mul_one, wait_zero, mul_one]
  | @cons n k x y s s' s'' step hgoing hcall hmoved _ ih =>
      obtain ⟨us, ts, d, hlegs⟩ := h.exists_leg hbudget hx hcall
      obtain ⟨hordered, hpath⟩ := hlegs.journey.path h.plain hx
      have hlive' := h.placed.live_path hlive (h.transitions ▸ hpath)
      have hextend : (x.extend w step).course = x.course *
          ((us ++ ts).map (Piece.price (strategy.timing.toll w.net))).prod * wait d := by
        show x.course * step.course = _
        rw [hlegs.course, mul_assoc w.blank, ← mul_assoc x.course, hblank, ← mul_assoc]
      obtain ⟨vs, d', hjourney, hK, hcourse⟩ := ih hend hordered hlive' (by
        rw [hextend, mul_right_comm _ _ w.blank, mul_right_comm _ _ w.blank, hblank])
      refine ⟨us ++ ts ++ vs, d + d', hlegs.journey.trans hjourney, ?_, ?_⟩
      · exact hleg n x.marking s s' us ts vs d step hx hlive hgoing hcall hmoved hlegs hK
      · simp only [hcourse, hextend, List.map_append, List.prod_append, ← wait_mul_wait, mul_assoc,
          mul_left_comm (wait d)]

end RegionNet
