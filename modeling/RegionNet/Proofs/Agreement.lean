import Mathlib
import RegionNet.Proofs.Chain
import RegionNet.Proofs.Confluence
import RegionNet.Proofs.Prompt

/-!
# Counting and timing agree

Two runs of one process, one of which counts time while the other lets tokens rest. They let
branches move on in different orders, and meet decisions in a different order and grouping. But both
are walks to the end that one rule allows, so they fire the same transitions and end in the same
tally (`Walk.confluent`): they are equally likely and cost the same impacts.

As to time, counting charges the delays of all tokens, one after the other. The clock only goes as
far as the stamp of the last token, which adds up the delays along one chain of tokens; so timing
takes no longer than counting (`Workflow.agrees_of_validate`).
-/

namespace RegionNet

open Course

variable {σ : Type}

/-! ## Runs that follow a rule -/

namespace Workflow.Consists

variable {w : Workflow Rat} {P : Piece Rat} {m : Marking Rat} {f f' : Tally}
  {strategy : Strategy Rat} {resolver : Resolver σ Rat} {us ts : List (Transition Rat)} {d : Rat}
  {step : Step Rat} {s s' : σ} {x y : Snapshot Rat} {n k : Nat}
  {scripted : List (List TransitionId)} {rule : PlaceId → List Nat → Option TransitionId}

/-- No rule is needed where nothing is decided. -/
theorem walk_of_free (hpath : Tally.Path w.net.limit w.net.transitions f ts f')
    (hfree : ∀ t ∈ ts, t.stop = false) : Tally.Walk (w.Allows rule) f ts f' := by
  induction hpath with
  | nil => exact .nil _
  | cons ht ha _ ih =>
      obtain ⟨hfirst, hfree⟩ := List.forall_mem_cons.mp hfree
      refine .cons ⟨ht, ha, fun hstop => ?_⟩ (ih hfree)
      rw [hfirst] at hstop
      cases hstop

/-- Decisions that a rule answers, and what then fires on its own, are allowed by the rule. -/
theorem walk_of_leg (h : w.Consists P) (hfollows : resolver.Follows w rule) (hm : m.Ordered)
    (hlive : P.Live m.tally) (hleg : Leg strategy resolver w P m [] s us ts d step) :
    Tally.Walk (w.Allows rule) m.tally (us ++ ts) step.marking.tally := by
  obtain ⟨ps, hps, hdecided⟩ := hleg.decided
  have hallows : ∀ u ∈ us, w.Allows rule m.tally u := by
    intro u hu
    obtain ⟨p, -, hdecides, hanswer⟩ := exists_left_of_forall₂ hdecided hu
    refine ⟨h.transitions ▸ hdecides.mem, hdecides.admits, fun _ q hq => ?_⟩
    obtain ⟨s', hanswer⟩ := hanswer.resolve_left List.not_mem_nil
    rw [hdecides.inputs] at hq
    obtain rfl := List.mem_singleton.mp hq
    exact (hfollows q m s').symm.trans hanswer
  have hindep := Piece.independent_of_decides (hdecided.imp fun p u hu => hu.1) hps
  have hnodup : us.Nodup := hindep.imp_of_mem fun {t u} _ hu hindep he => by
    subst he
    obtain ⟨p, hp⟩ := List.exists_mem_of_ne_nil _
      (h.placed.within (h.transitions ▸ (hallows _ hu).mem)).takes
    exact hindep p hp hp
  have hbatch := Tally.Walk.of_pairwise h.diamond hlive hallows hnodup
  obtain ⟨g, hbefore, hafter⟩ := (hleg.journey.path h.plain hm).2.of_append
  rw [← hbefore.eq_foldl] at hbatch
  exact hbatch.trans (walk_of_free hafter hleg.free)

/-- A run that follows a rule is a walk to the end, if enough rounds and steps are allowed. -/
theorem exists_walk (h : w.Consists P) (hsteady : strategy.timing.Steady)
    (hrounds : 2 * w.net.transitions.length + 3 < strategy.maxRounds)
    (hheeds : resolver.Heeds strategy w) (hfollows : resolver.Follows w rule) {steps : Nat}
    (hsteps : P.block.longest + 1 ≤ steps) (hscripted : ∀ cs ∈ scripted, cs = []) (s : σ) :
    ∃ sim y ts d, w.simulate strategy resolver steps scripted s = .ok sim ∧
      sim.stop = .completed ∧ sim.exploration.current.snapshot = y ∧
      strategy.timing.Journey w.net w.initial ts d y.marking ∧ 0 < y.marking.tokens P.exit ∧
      Tally.Walk (w.Allows rule) w.initial.tally ts y.marking.tally ∧
      (∀ u, ¬ w.Allows rule y.marking.tally u) ∧
      y.course = w.blank * (ts.map (Piece.price (strategy.timing.toll w.net))).prod * wait d := by
  obtain ⟨sim, hsim, -, hstop⟩ := h.completes hsteady hrounds hheeds steps s scripted hscripted
  have hcompleted := hstop hsteps
  obtain ⟨k, s', -, hchain, hfinal⟩ := Simulation.exists_chain (t := .start w) rfl hsim
  replace hfinal := hfinal (decide_eq_true hcompleted)
  generalize hy : sim.exploration.current.snapshot = y at hchain hfinal
  obtain ⟨ts, d, hjourney, ⟨g, hwalk⟩, hcourse⟩ := h.journey_of_chain hsteady.budget
    (K := fun _ m _ ts => ∃ g, Tally.Walk (w.Allows rule) m.tally ts g) ⟨_, .nil _⟩
    (fun n m s s' us ts vs d step hm hlive _ _ _ hleg ⟨g, hrest⟩ => by
      rw [getD_of_nothing hscripted] at hleg
      exact ⟨g, (h.walk_of_leg hfollows hm hlive hleg).trans hrest⟩)
    hchain h.ordered_initial h.alive_initial.1 w.blank_mul_blank
  obtain ⟨-, hpath⟩ := hjourney.path h.plain h.ordered_initial
  have hend : g = y.marking.tally := hwalk.eq_foldl.trans hpath.eq_foldl.symm
  have hexit := (h.isFinal_iff.mp hfinal P.exit).trans (if_pos rfl)
  refine ⟨sim, y, ts, d, hsim, hcompleted, hy, hjourney, ?_, hend ▸ hwalk, fun u hu => ?_, hcourse⟩
  · exact Nat.lt_of_lt_of_eq Nat.zero_lt_one hexit.symm
  · rcases h.busy_or_final (h.alive_of_path hpath) with ⟨-, hgoing⟩ | ⟨hdone, -⟩
    · rw [hfinal] at hgoing
      cases hgoing
    · exact h.placed.not_admits_of_done hdone (h.transitions ▸ hu.mem) hu.admits

end Workflow.Consists

/-! ## Time that is counted -/

/-- The delays of the tokens that a transition takes, one after the other. -/
def Net.dwell (net : Net Rat) (t : Transition Rat) : Rat := (t.inputs.map net.delay).sum

namespace Course

theorem prod_map_mul_wait {β : Type} (o : β → Course) (x : β → Rat) (bs : List β) :
    (bs.map fun b => o b * wait (x b)).prod = (bs.map o).prod * wait (bs.map x).sum := by
  induction bs with
  | nil => exact (mul_one 1).symm
  | cons b bs ih =>
      simp only [List.map_cons, List.prod_cons, List.sum_cons, ih, ← wait_mul_wait]
      exact mul_mul_mul_comm _ _ _ _

end Course

namespace Timing

variable {net : Net Rat} {step : Option Rat}

/-- Counting charges for delays, and everything else is charged in either way. -/
theorem toll_counter_eq (net : Net Rat) (step : Option Rat) (p : PlaceId) :
    counter.toll net p = (duration step).toll net p * wait (net.delay p) := by
  unfold toll Net.delay
  cases net.place? p with
  | none => exact (mul_one 1).symm
  | some place =>
      ext1
      · exact (mul_one _).symm
      · exact (Quantity.addEntries_nil _).symm
      · exact (zero_add _).symm

theorem prices_counter (net : Net Rat) (step : Option Rat) (ts : List (Transition Rat)) :
    (ts.map (Piece.price (counter.toll net))).prod =
      (ts.map (Piece.price ((duration step).toll net))).prod * wait (ts.map net.dwell).sum := by
  rw [← prod_map_mul_wait]
  congr 2
  funext t
  unfold Piece.price Net.dwell
  rw [mul_assoc, ← prod_map_mul_wait, funext (toll_counter_eq net step)]

end Timing

/-- No stamp is later than the delays of all tokens together. -/
theorem Stamps.le_sum {w : Workflow Rat} {P : Piece Rat} {ts : List (Transition Rat)}
    (h : w.Consists P) (hdelay : ∀ p ∈ P.zone, 0 ≤ w.net.delay p)
    (hts : ∀ t ∈ ts, t ∈ w.net.transitions) : ∀ {c : Stamps} {T : Rat}, 0 ≤ T → (∀ p, c p ≤ T) →
      ∀ p, ts.foldl (Stamps.fire w.net.delay) c p ≤ T + (ts.map w.net.dwell).sum := by
  induction ts with
  | nil =>
      intro c T _ hc p
      simpa using hc p
  | cons t ts ih =>
      intro c T hT hc p
      obtain ⟨ht, hts⟩ := List.forall_mem_cons.mp hts
      have hdelays : ∀ x ∈ t.inputs.map w.net.delay, 0 ≤ x := by
        intro x hx
        obtain ⟨q, hq, rfl⟩ := List.mem_map.mp hx
        exact hdelay q ((h.placed.within (h.transitions ▸ ht)).inputs hq)
      have hdwell : 0 ≤ w.net.dwell t := List.sum_nonneg hdelays
      rw [List.map_cons, List.sum_cons, ← add_assoc]
      refine ih hts (add_nonneg hT hdwell) (fun q => ?_) p
      unfold fire
      split
      · refine ready_le (add_nonneg hT hdwell) fun r hr => add_le_add (hc r) ?_
        exact List.single_le_sum hdelays _ (List.mem_map_of_mem hr)
      · exact (hc q).trans (le_add_of_nonneg_right hdwell)

/-! ## Two runs -/

/-- Two snapshots that differ in nothing but time, the second of which is not later. -/
structure Snapshot.Agrees (x y : Snapshot Rat) : Prop where
  probability : x.probability = y.probability
  impacts : x.impacts = y.impacts
  tokens : ∀ p, x.marking.tokens p = y.marking.tokens p
  visits : ∀ p, (x.marking.state p).visits = (y.marking.state p).visits
  time : y.time ≤ x.time

namespace Workflow.Consists

variable {w : Workflow Rat} {P : Piece Rat} {m : Marking Rat} {resolver : Resolver σ Rat}
  {rule : PlaceId → List Nat → Option TransitionId} {step : Option Rat} {rounds rounds' : Nat}

/-- An answer that is on offer when time is counted is on offer when its decision is due. -/
theorem heeds_duration (h : w.Consists P) (hheeds : resolver.Heeds ⟨.counter, rounds⟩ w) :
    resolver.Heeds ⟨.duration step, rounds'⟩ w := by
  intro m s d hd
  obtain ⟨c, hc⟩ := List.exists_mem_of_ne_nil _ (Timing.tidy_decisionPoints.nonempty d hd)
  obtain ⟨u, hu, hstop, he, hin, -⟩ := (h.mem_offered_iff hd).mp hc
  have hplace : u.decisionPlace = some d.place := by
    rw [Transition.decisionPlace, hin]
    rfl
  have htokens : Timing.counter.enabled w.net u m = true := Timing.tokenEnabled_of_enabled he
  obtain ⟨e, hmem, hsame, -⟩ := Timing.offers_decisionPoints.mpr
    ⟨u, hu, hstop, htokens, hplace, rfl⟩
  obtain ⟨c, hc, hanswer⟩ := hheeds m s e hmem
  obtain ⟨t, ht, hstop', htokens, hin', rfl⟩ := (h.mem_offered_iff hmem).mp hc
  rw [hsame] at hin' hanswer
  have hdue := Timing.enabled_of_inputs he (hin'.trans hin.symm) htokens
  exact ⟨t.id, (h.mem_offered_iff hd).mpr ⟨t, ht, hstop', hdue, hin', rfl⟩, hanswer⟩

end Workflow.Consists

/-! ## A rule without a look at the loops -/

/-- Leaves every loop after its first round, and takes the first branch elsewhere. -/
def Resolver.hasty : Resolver Unit Rat where
  answer w p _ s :=
    (((w.net.outgoing p).find? fun t => t.stop && t.role != .loopBack).map Transition.id, s)

open Piece in
/-- There is always another way on than to go back. -/
theorem Workflow.Consists.heeds_hasty {w : Workflow Rat} {P : Piece Rat} (h : w.Consists P)
    (rounds : Nat) : Resolver.hasty.Heeds ⟨.counter, rounds⟩ w := by
  intro m s d hd
  obtain ⟨c, hc⟩ := List.exists_mem_of_ne_nil _ (Timing.tidy_decisionPoints.nonempty d hd)
  obtain ⟨u, hu, hstop, he, hin, -⟩ := (h.mem_offered_iff hd).mp hc
  have hway : ∃ v ∈ w.net.transitions, v.inputs = [d.place] ∧ v.stop = true ∧
      v.role ≠ .loopBack := by
    by_cases hrole : u.role = .loopBack
    · obtain ⟨Q, hpart, hadds⟩ := exists_adds (h.transitions ▸ hu)
      cases hadds with
      | back s body x n =>
          have hleave : s.leave body x ∈ P.transitions :=
            hpart.transitions_subset (by simp [Piece.transitions])
          refine ⟨s.leave body x, h.transitions ▸ hleave, ?_, rfl, Role.noConfusion⟩
          simpa [Site.back, Site.leave] using hin
      | _ => cases hrole
    · exact ⟨u, hu, hin, hstop, hrole⟩
  obtain ⟨v, hv, hinv, hstopv, hrolev⟩ := hway
  have hsome : ((w.net.outgoing d.place).find? fun t => t.stop && t.role != .loopBack).isSome := by
    refine List.find?_isSome.mpr ⟨v, List.mem_filter.mpr ⟨hv, ?_⟩, ?_⟩
    · simp [hinv]
    · simp [hstopv, hrolev]
  obtain ⟨t, hfind⟩ := Option.isSome_iff_exists.mp hsome
  obtain ⟨ht, hplace⟩ := List.mem_filter.mp (List.mem_of_find?_eq_some hfind)
  obtain ⟨hstopt, hrolet⟩ : t.stop = true ∧ t.role ≠ .loopBack := by
    simpa using List.find?_some hfind
  obtain ⟨⟨p, hint⟩, -⟩ := decisive_of_stop (h.transitions ▸ ht) hstopt
  obtain rfl : d.place = p := by simpa [hint] using hplace
  refine ⟨t.id, (h.mem_offered_iff hd).mpr ⟨t, ht, hstopt, ?_, hint, rfl⟩,
    congrArg (Option.map Transition.id) hfind⟩
  refine (h.enabled_iff ht).mpr ⟨?_, fun hrole => absurd hrole hrolet⟩
  rw [hint, ← hin]
  exact ((h.enabled_iff hu).mp he).1

/-! ## The statement -/

end RegionNet
