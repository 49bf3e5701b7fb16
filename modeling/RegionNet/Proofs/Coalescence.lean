import RegionNet.Proofs.Chain
import RegionNet.Proofs.Discovery
import RegionNet.Proofs.Trace

/-!
# Coalescing

An exploration compares markings only: a step that leads to the marking of a child of the current
node leads to this child, whatever it was that led there first. Nothing is lost by that
(`Workflow.coalesces_of_validate`). Two calls of one strategy from the same marking that end in the
same marking have taken the same decisions, however these were chosen or answered, since decisions
leave a trace in the marking (`Piece.Decided.unique`); and what a call makes of its decisions is
settled by the strategy (`Strategy.follow`), so that the two steps agree in all that they say.
-/

namespace RegionNet

variable {σ α : Type} [Quantity α]

/-! ## What saturation keeps -/

namespace Timing

variable {timing : Timing α} {net : Net α}

theorem advancesClock_of_nextWait {m : Marking α} {dt : α} (h : timing.nextWait net m = some dt) :
    timing.advancesClock = true := by
  unfold nextWait at h
  split at h
  · assumption
  · cases h

/-- What is kept by every round, whether something fires or time passes, is kept by saturation. -/
theorem saturateFor_keeps {I : Step α → Prop}
    (hrest : ∀ s budget, I s → I { s with remaining := budget })
    (hwait : ∀ s dt, I s → timing.advancesClock = true → ¬ dt ≤ 0 →
      I { s with marking := s.marking.addTime dt, elapsed := s.elapsed + dt })
    (hfire : ∀ s, I s → (∀ t ∈ timing.due net s.marking, t.stop = false) →
      I (timing.fireAll net s (timing.due net s.marking))) {rounds : Nat} :
    ∀ {budget : Option α} {s s' : Step α}, I s →
      timing.saturateFor net rounds budget s = some s' → I s' := by
  induction rounds with
  | zero =>
      intro budget s s' _ hsome
      cases hsome
  | succ rounds ih =>
      intro budget s s' hs hsome
      by_cases hany : (timing.due net s.marking).any Transition.stop = true
      · rw [saturateFor_of_open hany] at hsome
        exact Option.some.inj hsome ▸ hrest s budget hs
      by_cases hnone : timing.due net s.marking = []
      · cases hnext : timing.nextWait net s.marking with
        | none =>
            rw [saturateFor_of_quiet hnone hnext] at hsome
            exact Option.some.inj hsome ▸ hrest s budget hs
        | some dt =>
            rw [saturateFor_of_wait hnone hnext rfl] at hsome
            split at hsome
            · exact Option.some.inj hsome ▸ hrest s budget hs
            · next hpos => exact ih (hwait s _ hs (advancesClock_of_nextWait hnext) hpos) hsome
      · rw [saturateFor_of_fire hany hnone] at hsome
        refine ih (hfire s hs fun t ht => Bool.eq_false_iff.mpr fun hstop => hany ?_) hsome
        exact List.any_eq_true.mpr ⟨t, ht, hstop⟩

end Timing

/-! ## Calls -/

namespace Strategy

/-- The step of a call that takes the given decisions. -/
def follow (strategy : Strategy α) (w : Workflow α) (m : Marking α) (us : List (Transition α)) :
    Option (Step α) :=
  let decided := strategy.timing.fireAll w.net (.identity m w.dimensions) us
  (strategy.timing.saturateFor w.net strategy.maxRounds strategy.timing.budget
    (.identity decided.marking w.dimensions)).map decided.andThen

/-- Some call from the marking is answered with the step, whatever is chosen and whoever answers. -/
def LeadsTo (strategy : Strategy α) (w : Workflow α) (m : Marking α) (step : Step α) : Prop :=
  ∃ (σ : Type) (resolver : Resolver σ α) (cs : List TransitionId) (s s' : σ),
    strategy.consume resolver w m cs s = (.ok step, s')

end Strategy

namespace Workflow.Consists

variable {w : Workflow α} {P : Piece α} {m : Marking α} {strategy : Strategy α}
  {timing : Timing α} {step step' : Step α}

/-- Saturation fires what fires on its own, whatever the budget. -/
theorem path_of_saturateFor (h : w.Consists P) {rounds : Nat} {budget : Option α} {s s' : Step α}
    (hs : s.marking.Ordered) (hlive : P.Live s.marking.tally)
    (hsome : timing.saturateFor w.net rounds budget s = some s') :
    ∃ ts, (∀ t ∈ ts, t.stop = false) ∧
      Tally.Path w.net.limit w.net.transitions s.marking.tally ts s'.marking.tally := by
  refine (Timing.saturateFor_keeps (I := fun s' => s'.marking.Ordered ∧ ∃ ts,
    (∀ t ∈ ts, t.stop = false) ∧
      Tally.Path w.net.limit w.net.transitions s.marking.tally ts s'.marking.tally)
    ?_ ?_ ?_ ⟨hs, [], List.forall_mem_nil _, .nil _⟩ hsome).2
  · exact fun _ _ hI => hI
  · rintro s' dt ⟨hordered, ts, hfree, hpath⟩ - -
    refine ⟨hordered.addTime dt, ts, hfree, ?_⟩
    rwa [Marking.tally_addTime hordered]
  · rintro s' ⟨hordered, ts, hfree, hpath⟩ hstop
    have hlive' := h.placed.live_path hlive (h.transitions ▸ hpath)
    have hround := h.path_of_round
      (fun t ht => (Timing.mem_due.mp ht).imp_right Timing.tokenEnabled_of_enabled)
      (h.transitions_nodup.filter _) hstop
    obtain ⟨hordered', htally⟩ := timing.marking_fireAll h.plain hround hordered rfl
    refine ⟨hordered', ts ++ timing.due w.net s'.marking,
      List.forall_mem_append.mpr ⟨hfree, hstop⟩, ?_⟩
    rw [htally]
    exact hpath.trans hround

/-- A call that is answered takes some decisions, and makes of them what the strategy says. -/
theorem exists_follow (h : w.Consists P) (hm : m.Ordered) (hlive : P.Live m.tally)
    (hstep : strategy.LeadsTo w m step) :
    ∃ us ts, P.Decided w.net.limit m.tally us ts step.marking.tally ∧
      strategy.follow w m us = some step := by
  obtain ⟨σ, resolver, cs, s, s', hcall⟩ := hstep
  obtain ⟨-, -, rest, hsaturate, rfl⟩ := Strategy.consume_eq_ok_iff.mp hcall
  obtain ⟨ds, hsub, hds⟩ := resolver.exists_select w m cs (strategy.choices w m) s
  obtain ⟨us, -, htaken, hus⟩ := h.exists_decided hsub.subset hds
  have hdecides := hus.imp fun _ _ ht => ht.1
  have hbatch := h.path_of_decides (List.forall₂_map_left_iff.mpr hdecides)
    (Timing.nodup_places.sublist (hsub.map _))
  rw [Strategy.decided, htaken] at hsaturate ⊢
  obtain ⟨hordered, htally⟩ := strategy.timing.marking_fireAll h.plain hbatch
    (s := .identity m w.dimensions) hm rfl
  rw [← htally] at hbatch
  have hlive' := h.placed.live_path hlive (h.transitions ▸ hbatch)
  obtain ⟨ts, hfree, hpath⟩ := h.path_of_saturateFor (s := .identity _ w.dimensions) hordered
    hlive' hsaturate
  refine ⟨us, ts, ⟨fun u hu => ?_, ?_, hfree, h.transitions ▸ hbatch.trans hpath⟩, ?_⟩
  · obtain ⟨d, -, hd⟩ := exists_left_of_forall₂ hdecides hu
    exact ⟨_, hd⟩
  · refine pairwise_of_forall₂ hdecides (Timing.tidy_decisionPoints.ascending.sublist hsub) ?_
    exact fun d e t u ht hu hlt => ⟨_, _, ht.inputs, hu.inputs, hlt⟩
  · rw [Strategy.follow, hsaturate, Option.map_some]

/-- Calls of one strategy from the same marking that end in the same marking agree in everything. -/
theorem eq_of_marking (h : w.Consists P) (hm : m.Ordered) (hlive : P.Live m.tally)
    (hstep : strategy.LeadsTo w m step) (hstep' : strategy.LeadsTo w m step')
    (hsame : (step.marking == step'.marking) = true) : step = step' := by
  obtain ⟨us, ts, hdecided, hfollow⟩ := h.exists_follow hm hlive hstep
  obtain ⟨us', ts', hdecided', hfollow'⟩ := h.exists_follow hm hlive hstep'
  rw [← Marking.tally_of_beq hsame] at hdecided'
  obtain rfl := hdecided.unique hdecided' h.placed hlive
  exact Option.some.inj (hfollow.symm.trans hfollow')

end Workflow.Consists

/-! ## Nodes that a step has found -/

namespace Exploration

variable {t : Exploration α} {w : Workflow α} {c : Nat} {step : Step α}

/-- The node `c` was found by the step, which started at the node under the cursor. -/
def Found (t : Exploration α) (w : Workflow α) (step : Step α) (c : Nat) : Prop :=
  ∃ (before : Exploration α) (follow : Bool), before.cursor = t.cursor ∧
    w.isFinal before.current.snapshot.marking = false ∧ before.childWith step.marking = none ∧
    (before.record w step follow).1 = c ∧ Later w (before.record w step follow).2 t

/-- What a step leads to and was not there before, it has found. -/
theorem found_of_new (hgoing : w.isFinal t.current.snapshot.marking = false)
    (hnew : t.childWith step.marking = none) :
    (t.grow (t.current.snapshot.extend w step)).Found w step t.nodes.length := by
  refine ⟨t, false, rfl, hgoing, hnew, ?_⟩
  rw [record_of_new hgoing hnew]
  exact ⟨rfl, .refl⟩

/-- A node that was found by a step holds what the step has added to the node under the cursor. -/
theorem Found.snapshot? (h : t.Found w step c) :
    t.snapshot? c = some (t.current.snapshot.extend w step) := by
  obtain ⟨before, follow, hcursor, hgoing, hnew, rfl, hlater⟩ := h
  have hhere : t.current.snapshot = before.current.snapshot := by
    have hkept := hlater.snapshot? (snapshot?_record before.snapshot?_cursor step follow)
    rw [hcursor, t.snapshot?_cursor] at hkept
    exact Option.some.inj hkept
  rw [hhere]
  apply hlater.snapshot?
  rw [record_of_new hgoing hnew, snapshot?_follow, snapshot?_grow, if_pos rfl]

end Exploration

/-! ## The statement -/

/-- Calls of the strategy from the marking may be told apart by the markings in which they end. -/
structure Workflow.Coalesces (w : Workflow α) (strategy : Strategy α) (m : Marking α) : Prop where
  /-- Steps that end in the same marking are the same. -/
  determined : ∀ step step', strategy.LeadsTo w m step → strategy.LeadsTo w m step' →
    (step.marking == step'.marking) = true → step = step'
  /-- A step that leads to a child which another step has found would have found the same there. -/
  reused : ∀ step step', strategy.LeadsTo w m step → strategy.LeadsTo w m step' →
    ∀ (t : Exploration α) (c : Nat), t.current.snapshot.marking = m → w.isFinal m = false →
      t.Found w step c → t.childWith step'.marking = some c → ∀ follow,
        (t.record w step' follow).1 = c ∧
          (t.record w step' follow).2.snapshot? c = some (t.current.snapshot.extend w step')

/-- Wherever a valid process can get, nothing is lost when steps that end in the same marking are
taken for one. -/
theorem Workflow.coalesces_of_validate {r : Region α} (h : r.validate = .ok ()) :
    ∃ w, Workflow.compile r = .ok w ∧
      ∀ m, w.net.Wanders w.initial m → ∀ strategy : Strategy α, w.Coalesces strategy m := by
  obtain ⟨blk, n, -, hcompile, hproper, -⟩ := Workflow.compile_of_validate h
  obtain ⟨P, rfl, hP⟩ := Workflow.exists_piece hproper
  refine ⟨_, hcompile, ?_⟩
  intro m hwanders strategy
  obtain ⟨hm, ts, hpath⟩ := hwanders.path hP.plain hP.ordered_initial
  have hlive := (hP.alive_of_path hpath).1
  refine ⟨fun step step' hstep hstep' hsame => hP.eq_of_marking hm hlive hstep hstep' hsame, ?_⟩
  intro step step' hstep hstep' t c ht hgoing hfound hchild follow
  have hsnapshot := hfound.snapshot?
  have hsame := Exploration.marking_of_childWith hchild hsnapshot
  obtain rfl := hP.eq_of_marking hm hlive hstep hstep' hsame
  rw [Exploration.record_of_known (ht ▸ hgoing) hchild, Exploration.snapshot?_follow]
  exact ⟨rfl, hsnapshot⟩

/-- Calls that may use half a unit of time. -/
def Strategy.halves : Strategy Rat := ⟨.duration (some (1 / 2)), 50⟩

/-- When the choice in the loop is open, it makes no difference whether branch `c` is chosen or
answered: both calls lead to the same child. -/
theorem Workflow.coalesces_sample : ∃ (w : Workflow Rat) (m : Marking Rat) (step step' : Step Rat)
    (t : Exploration Rat), Workflow.compile Region.sample = .ok w ∧
      w.net.Wanders w.initial m ∧
      Strategy.halves.consume (Resolver.fixed none) w m [⟨14⟩] () = (.ok step, ()) ∧
      Strategy.halves.consume (Resolver.fixed (some ⟨14⟩)) w m [] () = (.ok step', ()) ∧
      step = step' ∧ t.current.snapshot.marking = m ∧ t.Found w step 1 ∧
      t.childWith step'.marking = some 1 ∧ (t.record w step' true).1 = 1 ∧
      (t.record w step' true).2.snapshot? 1 = some (t.current.snapshot.extend w step') := by
  obtain ⟨w, hcompile, hall⟩ := Workflow.coalesces_of_validate Region.sample_valid
  have hcheck : (match Workflow.compile Region.sample with
      | .ok w => (w.net.replay [0, 1, 2, 3, 4] w.initial).any fun m =>
          !w.isFinal (m.addTime 1) &&
            match Strategy.halves.consume (Resolver.fixed none) w (m.addTime 1) [⟨14⟩] (),
              Strategy.halves.consume (Resolver.fixed (some ⟨14⟩)) w (m.addTime 1) [] () with
            | (.ok step, _), (.ok step', _) => step.marking == step'.marking &&
                (Exploration.grow (.ofRoot ⟨m.addTime 1, 1, [], 0, []⟩)
                  (.extend w ⟨m.addTime 1, 1, [], 0, []⟩ step)).childWith step'.marking == some 1
            | _, _ => false
      | .error _ => false) = true := by decide +kernel
  rw [hcompile] at hcheck
  obtain ⟨m, hm, hcheck⟩ := (Option.any_eq_true _ _).mp hcheck
  obtain ⟨ts, hrun⟩ := Net.exists_run_of_replay hm
  have hwanders := (hrun.wanders (.refl _)).rest 1
  generalize m.addTime 1 = m at hwanders hcheck
  obtain ⟨hgoing, hcheck⟩ := (Bool.and_eq_true _ _ ▸ hcheck : _ ∧ _)
  rw [Bool.not_eq_true'] at hgoing
  split at hcheck
  · next step _ step' _ hcall hcall' =>
      simp only [Bool.and_eq_true, beq_iff_eq] at hcheck
      obtain ⟨hsame, hchild⟩ := hcheck
      have hcoalesces := hall m hwanders Strategy.halves
      have hstep : Strategy.halves.LeadsTo w m step := ⟨_, _, _, _, _, hcall⟩
      have hstep' : Strategy.halves.LeadsTo w m step' := ⟨_, _, _, _, _, hcall'⟩
      have hfound := Exploration.found_of_new (t := .ofRoot ⟨m, 1, [], 0, []⟩) hgoing
        (rfl : Exploration.childWith _ step.marking = none)
      obtain ⟨hleads, hsnapshot⟩ := hcoalesces.reused step step' hstep hstep' _ 1 rfl hgoing hfound
        hchild true
      exact ⟨w, m, step, step', _, hcompile, hwanders, hcall, hcall',
        hcoalesces.determined step step' hstep hstep' hsame, rfl, hfound, hchild, hleads, hsnapshot⟩
  · cases hcheck

end RegionNet
