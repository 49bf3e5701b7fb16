import Mathlib
import RegionNet.Proofs.Coalescence
import RegionNet.Proofs.FreeChoice
import RegionNet.Proofs.Prompt

/-!
# Conduct

What a strategy answers, it has done by the rules. A call fires a whole round of transitions without
looking again, and so does taking its decisions; yet from any marking, be it one that a process
comes to or not, the transitions can be fired one at a time with each of them enabled when its turn
comes (`Workflow.legal_of_compile`). The step then adds up what was done: the odds of what has
fired, the impacts of the places that tokens were taken from, and the time that these places or the
clock have charged.
-/

namespace RegionNet

open Course

/-! ## What places charge -/

/-- What taking a token from a place adds to the impacts. -/
def Net.impactsAt {α : Type} (net : Net α) (p : PlaceId) : List α :=
  ((net.place? p).bind Place.impacts).getD []

namespace Timing

variable (timing : Timing Rat) (net : Net Rat) (ps : List PlaceId)

theorem impacts_toll (p : PlaceId) : (timing.toll net p).impacts = net.impactsAt p := by
  unfold toll Net.impactsAt
  cases net.place? p <;> rfl

theorem elapsed_toll (p : PlaceId) : (timing.toll net p).elapsed =
    match timing with
    | counter => net.delay p
    | duration _ => 0 := by
  unfold toll Net.delay
  cases timing <;> cases net.place? p <;> rfl

theorem probability_tolls : (ps.map (timing.toll net)).prod.probability = 1 := by
  rw [probability_prod, List.map_map]
  refine List.prod_eq_one fun x hx => ?_
  obtain ⟨p, -, rfl⟩ := List.mem_map.mp hx
  unfold Function.comp toll
  cases net.place? p <;> rfl

theorem getD_impacts_tolls (i : Nat) : (ps.map (timing.toll net)).prod.impacts.getD i 0 =
    (ps.map fun p => (net.impactsAt p).getD i 0).sum := by
  rw [getD_impacts_prod, List.map_map]
  simp only [Function.comp_def, impacts_toll]

theorem elapsed_tolls : (ps.map (timing.toll net)).prod.elapsed =
    match timing with
    | counter => (ps.map net.delay).sum
    | duration _ => 0 := by
  rw [elapsed_prod, List.map_map]
  cases timing <;> simp [Function.comp_def, elapsed_toll]

end Timing

/-! ## Acts -/

/-- What can happen in a step: a transition fires, or the clock goes on. -/
inductive Act (α : Type) where
  | fire (t : Transition α)
  | pass (dt : α)

namespace Act

variable {α : Type} {as bs : List (Act α)}

def transition? : Act α → Option (Transition α)
  | fire t => some t
  | pass _ => none

/-- The transitions that fire. -/
def fired (as : List (Act α)) : List (Transition α) := as.filterMap transition?

/-- The places that tokens are taken from, each as often as one is. -/
def taken (as : List (Act α)) : List PlaceId := (fired as).flatMap Transition.inputs

/-- The places that decisions take tokens from. -/
def resolved (as : List (Act α)) : List PlaceId :=
  ((fired as).filter Transition.stop).flatMap Transition.inputs

/-- How far the clock goes on. -/
def passed (as : List (Act Rat)) : Rat :=
  (as.map fun
    | fire _ => 0
    | pass dt => dt).sum

theorem fired_append : fired (as ++ bs) = fired as ++ fired bs := List.filterMap_append

theorem resolved_append : resolved (as ++ bs) = resolved as ++ resolved bs := by
  rw [resolved, fired_append, List.filter_append, List.flatMap_append]
  rfl

theorem resolved_of_free (h : ∀ t ∈ fired as, t.stop = false) : resolved as = [] := by
  have hnone : (fired as).filter Transition.stop = [] :=
    List.filter_eq_nil_iff.mpr fun t ht => Bool.eq_false_iff.mp (h t ht)
  rw [resolved, hnone]
  rfl

theorem passed_append (as bs : List (Act Rat)) : passed (as ++ bs) = passed as + passed bs := by
  rw [passed, List.map_append, List.sum_append]
  rfl

/-- The course that acts take. -/
def course (toll : PlaceId → Course) (as : List (Act Rat)) : Course :=
  ((fired as).map (Piece.price toll)).prod * wait (passed as)

theorem course_append (toll : PlaceId → Course) (as bs : List (Act Rat)) :
    course toll (as ++ bs) = course toll as * course toll bs := by
  rw [course, fired_append, passed_append, List.map_append, List.prod_append, ← wait_mul_wait,
    mul_mul_mul_comm]
  rfl

end Act

namespace Timing

/-- The acts lead from one marking to another. Only what is enabled fires, and it finds all the
tokens that it takes; only where time is not just counted, the clock goes on. -/
inductive Conduct {α : Type} [Quantity α] (timing : Timing α) (net : Net α) :
    Marking α → List (Act α) → Marking α → Prop where
  | nil (m : Marking α) : Conduct timing net m [] m
  | fire {m m' : Marking α} {t : Transition α} {as : List (Act α)} (ht : t ∈ net.transitions)
      (he : timing.enabled net t m = true)
      (hbalance : ∀ p, (m.fire t).tokens p + t.inputs.count p = m.tokens p + t.outputs.count p)
      (h : Conduct timing net (m.fire t) as m') : Conduct timing net m (.fire t :: as) m'
  | pass {m m' : Marking α} {dt : α} {as : List (Act α)} (hclock : timing.advancesClock = true)
      (hdt : 0 < dt) (h : Conduct timing net (m.addTime dt) as m') :
      Conduct timing net m (.pass dt :: as) m'

theorem Conduct.trans {α : Type} [Quantity α] {timing : Timing α} {net : Net α}
    {m m' m'' : Marking α} {as bs : List (Act α)} (h : timing.Conduct net m as m')
    (h' : timing.Conduct net m' bs m'') : timing.Conduct net m (as ++ bs) m'' := by
  induction h with
  | nil => exact h'
  | fire ht he hbalance _ ih => exact .fire ht he hbalance (ih h')
  | pass hclock hdt _ ih => exact .pass hclock hdt (ih h')

theorem Conduct.mem_transitions {α : Type} [Quantity α] {timing : Timing α} {net : Net α}
    {m m' : Marking α} {as : List (Act α)} (h : timing.Conduct net m as m') {t : Transition α}
    (ht : t ∈ Act.fired as) : t ∈ net.transitions := by
  induction h with
  | nil => cases ht
  | fire ht' _ _ _ ih =>
      rcases List.mem_cons.mp ht with rfl | ht
      · exact ht'
      · exact ih ht
  | pass _ _ _ ih => exact ih ht

/-- Where time is only counted, the clock stands still. -/
theorem Conduct.passed_eq_zero {net : Net Rat} {m m' : Marking Rat} {as : List (Act Rat)}
    (h : counter.Conduct net m as m') : Act.passed as = 0 := by
  induction h with
  | nil => rfl
  | fire _ _ _ _ ih => exact (zero_add _).trans ih
  | pass hclock _ _ _ => cases hclock

theorem Conduct.passed_nonneg {timing : Timing Rat} {net : Net Rat} {m m' : Marking Rat}
    {as : List (Act Rat)} (h : timing.Conduct net m as m') : 0 ≤ Act.passed as := by
  induction h with
  | nil => exact le_refl 0
  | fire _ _ _ _ ih => exact ih.trans_eq (zero_add _).symm
  | pass _ hdt _ ih => exact add_nonneg hdt.le ih

theorem nextWait_pos {timing : Timing Rat} {net : Net Rat} {m : Marking Rat} {dt : Rat}
    (h : timing.nextWait net m = some dt) : 0 < dt := by
  cases timing with
  | counter => cases h
  | duration step =>
      obtain ⟨⟨t, -, -, hpos, rfl⟩, -⟩ := nextWait_eq_some h
      exact hpos

end Timing

/-! ## Legal steps -/

theorem Workflow.getD_blank (w : Workflow Rat) (i : Nat) : w.blank.impacts.getD i 0 = 0 := by
  show (List.replicate w.dimensions (0 : Rat)).getD i 0 = 0
  rw [List.getD_eq_getElem?_getD, List.getElem?_replicate]
  split <;> rfl

/-- The acts are a legal way to make the step. -/
structure Workflow.Legal (w : Workflow Rat) (timing : Timing Rat) (m : Marking Rat)
    (as : List (Act Rat)) (step : Step Rat) : Prop where
  conduct : timing.Conduct w.net m as step.marking
  /-- No decision is taken twice. -/
  once : (Act.resolved as).Nodup
  probability : step.probability = ((Act.fired as).map Transition.probability).prod
  dimensions : step.impacts.length = w.dimensions
  impacts : ∀ i, step.impacts.getD i 0 =
    ((Act.taken as).map fun p => (w.net.impactsAt p).getD i 0).sum
  elapsed : step.elapsed =
    match timing with
    | .counter => ((Act.taken as).map w.net.delay).sum
    | .duration _ => Act.passed as

namespace Workflow.Consists

variable {w : Workflow Rat} {P : Piece Rat} {m m' : Marking Rat} {timing : Timing Rat}
  {as : List (Act Rat)} {step : Step Rat} {t : Transition Rat} {n : Nat}

open Piece

/-- An enabled transition finds all the tokens that it takes. -/
theorem balance (h : w.Consists P) (hm : m.Ordered) (ht : t ∈ w.net.transitions)
    (he : timing.enabled w.net t m = true) (p : PlaceId) :
    (m.fire t).tokens p + t.inputs.count p = m.tokens p + t.outputs.count p := by
  obtain ⟨hpre, hpost⟩ := h.plain t ht
  have htokens : (m.fire t).tokens p = m.tokens p - t.inputs.count p + t.outputs.count p :=
    congrArg Prod.fst (congrFun (Marking.tally_fire hm hpre hpost) p)
  have hle : t.inputs.count p ≤ m.tokens p := by
    by_cases hp : p ∈ t.inputs
    · have hmarked : 0 < m.tokens p :=
        ((h.enabled_iff ht).mp (Timing.tokenEnabled_of_enabled he)).1 p hp
      have hone := List.nodup_iff_count_le_one.mp (h.placed.simple (h.transitions ▸ ht)).1 p
      omega
    · rw [List.count_eq_zero_of_not_mem hp]
      exact Nat.zero_le _
  omega

theorem conduct_of_journey {ts : List (Transition Rat)} {d : Rat} (h : w.Consists P)
    (hjourney : timing.Journey w.net m ts d m') (hm : m.Ordered) :
    ∃ as, timing.Conduct w.net m as m' ∧ Act.fired as = ts ∧ Act.passed as = d := by
  induction hjourney with
  | nil m => exact ⟨[], .nil m, rfl, rfl⟩
  | fire ht he _ ih =>
      obtain ⟨hpre, hpost⟩ := h.plain _ ht
      obtain ⟨as, hconduct, rfl, rfl⟩ := ih (hm.fire hpre hpost)
      exact ⟨_, .fire ht he (h.balance hm ht he) hconduct, rfl, zero_add _⟩
  | wait _ hwait _ ih =>
      obtain ⟨as, hconduct, rfl, rfl⟩ := ih (hm.addTime _)
      have hclock := Timing.advancesClock_of_nextWait hwait
      exact ⟨_, .pass hclock (Timing.nextWait_pos hwait) hconduct, rfl, rfl⟩

/-- Saturation is made of acts, none of which is a decision, whatever the budget. -/
theorem conduct_of_saturateFor (h : w.Consists P) {rounds : Nat} {budget : Option Rat}
    {s s' : Step Rat} (hs : s.marking.Ordered)
    (hsome : timing.saturateFor w.net rounds budget s = some s') :
    ∃ as, timing.Conduct w.net s.marking as s'.marking ∧
      (∀ t ∈ Act.fired as, t.stop = false) ∧
      s'.course = s.course * Act.course (timing.toll w.net) as := by
  refine (Timing.saturateFor_keeps (I := fun s' => s'.marking.Ordered ∧ ∃ as,
    timing.Conduct w.net s.marking as s'.marking ∧ (∀ t ∈ Act.fired as, t.stop = false) ∧
      s'.course = s.course * Act.course (timing.toll w.net) as) ?_ ?_ ?_ ?_ hsome).2
  · exact fun _ _ hI => hI
  · rintro s' dt ⟨hordered, as, hconduct, hfree, hcourse⟩ hclock hdt
    have hpass : Act.course (timing.toll w.net) [.pass dt] = wait dt := by
      show 1 * wait (dt + 0) = _
      rw [one_mul, add_zero]
    refine ⟨hordered.addTime dt, as ++ [.pass dt],
      hconduct.trans (.pass hclock (not_le.mp hdt) (.nil _)), ?_, ?_⟩
    · rwa [Act.fired_append, show Act.fired [Act.pass dt] = [] from rfl, List.append_nil]
    · rw [s'.course_wait, hcourse, Act.course_append, hpass, mul_assoc]
  · rintro s' ⟨hordered, as, hconduct, hfree, hcourse⟩ hstop
    have hround := h.journey_of_round hordered hstop
    rw [← timing.marking_fireAll_eq w.net] at hround
    obtain ⟨bs, hrest, hfired, hpassed⟩ := h.conduct_of_journey hround hordered
    refine ⟨(hround.path h.plain hordered).1, as ++ bs, hconduct.trans hrest, ?_, ?_⟩
    · rw [Act.fired_append, hfired]
      exact List.forall_mem_append.mpr ⟨hfree, hstop⟩
    · rw [timing.fireAll_course, hcourse, Act.course_append, Act.course, Act.course, hfired,
        hpassed, wait_zero, mul_one, mul_assoc]
  · refine ⟨hs, [], .nil _, List.forall_mem_nil _, ?_⟩
    show _ = s.course * (1 * wait 0)
    rw [wait_zero, mul_one, mul_one]

/-- A place that tokens are taken from has impacts of the common length, or none. -/
theorem length_impactsAt_le (h : w.Consists P) (hproper : P.block.Proper n) {p : PlaceId}
    (hp : p ∈ P.zone) : (w.net.impactsAt p).length ≤ n := by
  obtain ⟨τ, hτ, hlength⟩ := h.laid.terms (D := fun _ => True)
    (K := fun τ => (τ.impacts.getD []).length ≤ n) trivial trivial (fun _ _ _ _ => trivial)
    (fun s v hpart _ _ => (hpart.proper hproper).le) (fun _ _ _ => Nat.zero_le n) p hp
  obtain ⟨place, hplace, rfl⟩ := Option.map_eq_some_iff.mp hτ
  rwa [Net.impactsAt, hplace, Option.bind_some]

theorem zone_of_taken (h : w.Consists P) (hconduct : timing.Conduct w.net m as m') {p : PlaceId}
    (hp : p ∈ Act.taken as) : p ∈ P.zone := by
  obtain ⟨t, ht, hp⟩ := List.mem_flatMap.mp hp
  exact (h.placed.within (h.transitions ▸ hconduct.mem_transitions ht)).inputs hp

theorem legal (h : w.Consists P) (hproper : P.block.Proper w.dimensions)
    (hconduct : timing.Conduct w.net m as step.marking) (honce : (Act.resolved as).Nodup)
    (hcourse : step.course = w.blank * Act.course (timing.toll w.net) as) :
    w.Legal timing m as step := by
  have hlength : ((Act.taken as).map (timing.toll w.net)).prod.impacts.length ≤ w.dimensions := by
    refine length_impacts_prod_le fun o ho => ?_
    obtain ⟨p, hp, rfl⟩ := List.mem_map.mp ho
    rw [timing.impacts_toll]
    exact h.length_impactsAt_le hproper (h.zone_of_taken hconduct hp)
  rw [Act.course, prod_prices] at hcourse
  have hprobability := congrArg Course.probability hcourse
  have himpacts := congrArg Course.impacts hcourse
  have helapsed := congrArg Course.elapsed hcourse
  change _ = 1 * (_ * ((Act.taken as).map (timing.toll w.net)).prod.probability * 1) at hprobability
  change _ = Quantity.addEntries _ (Quantity.addEntries (Quantity.addEntries []
    ((Act.taken as).map (timing.toll w.net)).prod.impacts) []) at himpacts
  change _ = 0 + (0 + ((Act.taken as).map (timing.toll w.net)).prod.elapsed + Act.passed as)
    at helapsed
  rw [timing.probability_tolls, one_mul, mul_one, mul_one] at hprobability
  rw [Quantity.addEntries_nil, Quantity.nil_addEntries] at himpacts
  rw [timing.elapsed_tolls, zero_add, zero_add] at helapsed
  refine ⟨hconduct, honce, hprobability, ?_, fun i => ?_, helapsed.trans ?_⟩
  · show step.course.impacts.length = _
    rw [himpacts, Quantity.length_addEntries]
    show max (List.replicate w.dimensions (0 : Rat)).length _ = _
    rw [List.length_replicate, Nat.max_eq_left hlength]
  · show step.course.impacts.getD i 0 = _
    rw [himpacts, Quantity.getD_addEntries, timing.getD_impacts_tolls, w.getD_blank, zero_add]
  · cases timing with
    | counter => rw [hconduct.passed_eq_zero, add_zero]
    | duration step => exact zero_add _

/-- Decisions at several places take exactly these places' tokens. -/
theorem resolved_of_decides {f : Tally} {ps : List PlaceId} {us : List (Transition Rat)}
    (hus : List.Forall₂ (P.Decides w.net.limit f) ps us) :
    (us.filter Transition.stop).flatMap Transition.inputs = ps := by
  induction hus with
  | nil => rfl
  | cons hu _ ih =>
      rw [List.filter_cons_of_pos hu.stop, List.flatMap_cons, ih, hu.inputs]
      rfl

theorem legal_of_saturate (h : w.Consists P) (hproper : P.block.Proper w.dimensions)
    {strategy : Strategy Rat} (hm : m.Ordered) (hstep : strategy.saturate w m = .ok step) :
    ∃ as, w.Legal strategy.timing m as step ∧ ∀ t ∈ Act.fired as, t.stop = false := by
  obtain ⟨as, hconduct, hfree, hcourse⟩ := h.conduct_of_saturateFor
    (s := .identity m w.dimensions) hm (Strategy.saturate_eq_ok_iff.mp hstep)
  refine ⟨as, h.legal hproper hconduct ?_ hcourse, hfree⟩
  rw [Act.resolved_of_free hfree]
  exact List.nodup_nil

theorem legal_of_consume (h : w.Consists P) (hproper : P.block.Proper w.dimensions)
    {strategy : Strategy Rat} {σ : Type} {resolver : Resolver σ Rat} {cs : List TransitionId}
    {s s' : σ} (hm : m.Ordered) (hcall : strategy.consume resolver w m cs s = (.ok step, s')) :
    ∃ as, w.Legal strategy.timing m as step := by
  obtain ⟨-, -, rest, hsaturate, rfl⟩ := Strategy.consume_eq_ok_iff.mp hcall
  obtain ⟨us, -, ⟨ps, hnodup, hus⟩, hjourney, hfirst⟩ := h.exists_opening hm strategy resolver cs s
  obtain ⟨as, hconduct, rfl, hpassed⟩ := h.conduct_of_journey hjourney hm
  obtain ⟨bs, hrest, hfree, hcourse⟩ := h.conduct_of_saturateFor (s := .identity _ w.dimensions)
    (hjourney.path h.plain hm).1 hsaturate
  refine ⟨as ++ bs, h.legal hproper (hconduct.trans hrest) ?_ ?_⟩
  · have hopened : Act.resolved as = ps := resolved_of_decides (hus.imp fun _ _ hu => hu.1)
    rw [Act.resolved_append, Act.resolved_of_free hfree, List.append_nil, hopened]
    exact hnodup
  · have hopening : Act.course (strategy.timing.toll w.net) as =
        ((Act.fired as).map (price (strategy.timing.toll w.net))).prod := by
      rw [Act.course, hpassed, wait_zero, mul_one]
    rw [Step.course_andThen, hfirst, ← hopening, hcourse, Act.course_append]
    show _ * (w.blank * _) = _
    rw [mul_mul_mul_comm, w.blank_mul_blank]

end Workflow.Consists

/-- From any marking, what a strategy answers has been done by the rules, and the step adds up what
was done. Saturation takes no decision. -/
theorem Workflow.legal_of_compile {r : Region Rat} {w : Workflow Rat} (h : compile r = .ok w)
    (strategy : Strategy Rat) {m : Marking Rat} (hm : m.Ordered) :
    (∀ step, strategy.saturate w m = .ok step →
      ∃ as, w.Legal strategy.timing m as step ∧ ∀ t ∈ Act.fired as, t.stop = false) ∧
    ∀ {σ : Type} (resolver : Resolver σ Rat) (cs : List TransitionId) (s s' : σ) (step : Step Rat),
      strategy.consume resolver w m cs s = (.ok step, s') →
        ∃ as, w.Legal strategy.timing m as step := by
  obtain ⟨blk, n, -, hcompile, hproper, -⟩ := compile_of_validate (compile_eq_ok_iff.mp ⟨w, h⟩)
  obtain rfl := Except.ok.inj (hcompile.symm.trans h)
  obtain ⟨P, rfl, hP⟩ := exists_piece hproper
  obtain rfl := dimensions_ofBlock hproper
  exact ⟨fun step => hP.legal_of_saturate hproper hm,
    fun resolver cs s s' step => hP.legal_of_consume hproper hm⟩

/-- Two tokens at the start are more than a process ever has there. The calls that run them until a
choice is open, and on from there with branch `c`, are legal all the same. -/
theorem Workflow.legal_sample : ∃ (w : Workflow Rat) (m : Marking Rat) (step step' : Step Rat)
    (as as' : List (Act Rat)), Workflow.compile Region.sample = .ok w ∧
      m.Ordered ∧ m.tokens w.layout.info.entry = 2 ∧
      Strategy.saturate ⟨.duration none, 50⟩ w m = .ok step ∧
      w.Legal (.duration none) m as step ∧ (∀ t ∈ Act.fired as, t.stop = false) ∧
      step.marking.Ordered ∧ step.impacts = [7] ∧
      Strategy.consume ⟨.duration none, 50⟩ (Resolver.fixed none) w step.marking [⟨14⟩] () =
        (.ok step', ()) ∧
      w.Legal (.duration none) step.marking as' step' := by
  obtain ⟨blk, -, -, hcompile, -⟩ := Workflow.compile_of_validate Region.sample_valid
  generalize Workflow.ofBlock blk = w at hcompile
  have hcheck : (match Workflow.compile Region.sample with
      | .ok w =>
          let m := Marking.withTokens w.net [(w.layout.info.entry, 2)]
          decide (m.places.Pairwise fun p q => p.index < q.index) &&
            m.tokens w.layout.info.entry == 2 &&
            match Strategy.saturate ⟨.duration none, 50⟩ w m with
            | .ok step => decide (step.marking.places.Pairwise fun p q => p.index < q.index) &&
                step.impacts == [7] &&
                match Strategy.consume ⟨.duration none, 50⟩ (Resolver.fixed none) w step.marking
                  [⟨14⟩] () with
                | (.ok _, _) => true
                | _ => false
            | .error _ => false
      | .error _ => false) = true := by decide +kernel
  rw [hcompile] at hcheck
  simp only [Bool.and_eq_true, decide_eq_true_eq, beq_iff_eq] at hcheck
  obtain ⟨⟨hm, htokens⟩, hcheck⟩ := hcheck
  split at hcheck
  · next step hsaturate =>
      obtain ⟨as, hlegal, hfree⟩ :=
        (Workflow.legal_of_compile hcompile ⟨.duration none, 50⟩ hm).1 step hsaturate
      simp only [Bool.and_eq_true, decide_eq_true_eq, beq_iff_eq] at hcheck
      obtain ⟨⟨hordered, himpacts⟩, hcheck⟩ := hcheck
      split at hcheck
      · next step' _ hconsume =>
          obtain ⟨as', hlegal'⟩ :=
            (Workflow.legal_of_compile hcompile ⟨.duration none, 50⟩ hordered).2 _ _ _ _ step'
              hconsume
          exact ⟨_, _, step, step', as, as', hcompile, hm, htokens, hsaturate, hlegal, hfree,
            hordered, himpacts, hconsume, hlegal'⟩
      · cases hcheck
  · cases hcheck

end RegionNet
