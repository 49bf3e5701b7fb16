import RegionNet.Proofs.Heeding
import RegionNet.Proofs.Saturation

/-!
# Calls

A call in which the caller takes every open decision. The decisions are independent of one another,
so they fire as one batch, and saturation then settles: the call is answered
(`Consists.exists_answer`).
Whatever a live process can still take is split by such a call into what the call takes and what is
left afterwards, for some choices of the caller (`Consists.exists_call`).
-/

namespace RegionNet

open scoped Pointwise

open Course DecisionPoint

namespace Piece

/-! ## What is left, split by moves -/

variable {lim : PlaceId → Option Nat} {f : Tally} {P : Piece Rat} {toll : PlaceId → Course}
  {o : Course}

/-- What fires on its own takes its price from all that is left. -/
theorem Placed.rest_of_free {t : Transition Rat} (hP : Placed lim P) (hbusy : P.Busy f)
    (ht : t ∈ P.transitions) (ha : f.Admits lim t) (hstop : t.stop = false) :
    P.rest toll f ⊆ {price toll t} * P.rest toll (f.fire t) := by
  intro o ho
  have hbalanced : P.Balanced lim toll f t := hP.balanced hbusy ht ha
  obtain ⟨u, hu, _, hin, ho⟩ := hbalanced.splits o ho
  obtain ⟨p, hp⟩ := List.exists_mem_of_ne_nil _ (hP.within ht).takes
  obtain rfl | ⟨hstop', _⟩ := hP.shared ht hu hp (hin ▸ hp)
  · exact ho
  · rw [hstop] at hstop'
    cases hstop'

theorem Placed.rest_of_path {ts : List (Transition Rat)} {f' : Tally} (hP : Placed lim P)
    (hlive : P.Live f) (hpath : Tally.Path lim P.transitions f ts f')
    (hstop : ∀ t ∈ ts, t.stop = false) :
    P.rest toll f ⊆ {(ts.map (price toll)).prod} * P.rest toll f' := by
  induction hpath with
  | nil => rw [List.map_nil, List.prod_nil, Set.singleton_one, one_mul]
  | @cons f f' t ts ht ha _ ih =>
      obtain ⟨ht', hts⟩ := List.forall_mem_cons.mp hstop
      refine (hP.rest_of_free (hP.busy_of_admits hlive ht ha) ht ha ht').trans ?_
      rw [List.map_cons, List.prod_cons, ← Set.singleton_mul_singleton, mul_assoc]
      exact Set.mul_subset_mul_left (ih (hP.step_live hlive ht ha) hts)

/-- Whatever is left can be had through some answer to all of the open decisions. -/
theorem Placed.exists_split {ps : List PlaceId} (hP : Placed lim P) (hlive : P.Live f)
    (hopen : ∀ p ∈ ps, ∃ t, P.Decides lim f p t) (hps : ps.Nodup) (ho : o ∈ P.rest toll f) :
    ∃ us, List.Forall₂ (P.Decides lim f) ps us ∧
      o ∈ {(us.map (price toll)).prod} * P.rest toll (us.foldl Tally.fire f) := by
  induction ps generalizing f o with
  | nil => exact ⟨[], .nil, by simpa using ho⟩
  | cons p ps ih =>
      obtain ⟨⟨t, ht⟩, hopen⟩ := List.forall_mem_cons.mp hopen
      obtain ⟨hp, hps⟩ := List.nodup_cons.mp hps
      have hbusy : P.Busy f := hP.busy_of_admits hlive ht.mem ht.admits
      have hbalanced : P.Balanced lim toll f t := hP.balanced hbusy ht.mem ht.admits
      obtain ⟨u, hu, hau, hin, hsplit⟩ := hbalanced.splits o ho
      obtain ⟨x, rfl, o', ho', rfl⟩ := Set.mem_mul.mp hsplit
      rw [ht.inputs] at hin
      have hstop : u.stop = true := by
        have hpt : p ∈ t.inputs := by simp [ht.inputs]
        obtain rfl | ⟨_, hstop, _⟩ := hP.shared ht.mem hu hpt (by simp [hin])
        · exact ht.stop
        · exact hstop
      -- the other decisions stay open, with the same answers
      have hsame : ∀ q ∈ ps, f.fire u q = f q := by
        intro q hq
        obtain ⟨v, hv⟩ := hopen q hq
        refine hP.persists hbusy hu hau hv.mem hv.admits (by simp [hv.inputs]) ?_
        rw [hin, List.mem_singleton]
        rintro rfl
        exact hp hq
      obtain ⟨us, hus, ho'⟩ := ih (hP.step_live hlive hu hau)
        (fun q hq => (hopen q hq).imp fun v hv => hv.congr (hsame q hq)) hps ho'
      refine ⟨u :: us, .cons ⟨hu, hau, hstop, hin⟩ ?_, ?_⟩
      · have hboth := (List.forall₂_and_left (p := (· ∈ ps)) _ _).mpr ⟨fun q hq => hq, hus⟩
        exact hboth.imp fun q v hv => hv.2.congr (hsame q hv.1).symm
      · rw [List.map_cons, List.prod_cons, ← Set.singleton_mul_singleton, mul_assoc]
        exact Set.mul_mem_mul rfl ho'

end Piece

/-! ## Decision points of a live process -/

/-- The course of the step in which nothing happens. -/
def Workflow.blank (w : Workflow Rat) : Course := ⟨1, List.replicate w.dimensions 0, 0⟩

theorem Workflow.blank_mul_blank (w : Workflow Rat) : w.blank * w.blank = w.blank := by
  ext1
  · exact one_mul _
  · exact Quantity.zeros_addEntries (Nat.le_of_eq List.length_replicate.symm)
  · exact zero_add _

namespace Workflow.Consists

variable {w : Workflow Rat} {P : Piece Rat} {m : Marking Rat} {t u : Transition Rat}
  {d : DecisionPoint} {c : TransitionId} {us ts : List (Transition Rat)} {cs : List TransitionId}

theorem offers_of_decides {p : PlaceId} (h : w.Consists P)
    (ht : P.Decides w.net.limit m.tally p t) :
    Offers (Timing.counter.decisionPoints w.net m) p t.id := by
  have hmem : t ∈ w.net.transitions := h.transitions ▸ ht.mem
  have hplace : t.decisionPlace = some p := by rw [Transition.decisionPlace, ht.inputs]; rfl
  exact Timing.offers_decisionPoints.mpr
    ⟨t, hmem, ht.stop, (h.enabled_iff hmem).mpr ht.admits, hplace, rfl⟩

/-- On offer at an open decision is what can take it. -/
theorem mem_transitions_iff (h : w.Consists P) (hlive : P.Live m.tally)
    (hd : d ∈ Timing.counter.decisionPoints w.net m) :
    c ∈ d.transitions ↔ ∃ t, P.Decides w.net.limit m.tally d.place t ∧ t.id = c := by
  constructor
  · intro hc
    obtain ⟨t, ht, hstop, he, hplace, hid⟩ := Timing.offers_decisionPoints.mp ⟨d, hd, rfl, hc⟩
    obtain ⟨p, hp⟩ := h.exists_decides_of_stop hlive ht hstop he
    rw [Transition.decisionPlace, hp.inputs] at hplace
    obtain rfl : p = d.place := Option.some.inj hplace
    exact ⟨t, hp, hid⟩
  · rintro ⟨t, ht, rfl⟩
    obtain ⟨e, he, hsame, hc⟩ := h.offers_of_decides ht
    rwa [Timing.tidy_decisionPoints.eq_of_place hd he hsame.symm]

/-! ## Calls -/

/-- The transitions `us` have taken all open decisions, and the transitions `ts` have then fired on
their own, until a decision was open or nothing was enabled. -/
structure Answer (w : Workflow Rat) (P : Piece Rat) (m : Marking Rat)
    (us ts : List (Transition Rat)) (step : Step Rat) : Prop where
  decides : List.Forall₂ (P.Decides w.net.limit m.tally)
    ((Timing.counter.decisionPoints w.net m).map DecisionPoint.place) us
  batch : Tally.Path w.net.limit w.net.transitions m.tally us (us.foldl Tally.fire m.tally)
  saturation : Tally.Path w.net.limit w.net.transitions (us.foldl Tally.fire m.tally) ts
    step.marking.tally
  free : ∀ t ∈ ts, t.stop = false
  ordered : step.marking.Ordered
  settled : Settled w.net step.marking
  course : step.course = w.blank * ((us ++ ts).map (Piece.price (tollIn w.net.terms))).prod

/-- Choices that settle everything are choices of transitions that take the decisions. -/
theorem exists_decides (h : w.Consists P) (hlive : P.Live m.tally)
    (hcs : Settles (Timing.counter.decisionPoints w.net m) cs) :
    ∃ us, List.Forall₂ (P.Decides w.net.limit m.tally)
        ((Timing.counter.decisionPoints w.net m).map DecisionPoint.place) us ∧
      ∀ c, c ∈ cs ↔ c ∈ us.map Transition.id := by
  obtain ⟨ids, hids, hcs⟩ := hcs
  obtain ⟨us, hus, rfl⟩ := exists_map_of_forall₂ hids fun d hd c hc =>
    (h.mem_transitions_iff hlive hd).mp hc
  exact ⟨us, List.forall₂_map_left_iff.mpr hus, hcs⟩

theorem forall₂_ids (h : w.Consists P) (hlive : P.Live m.tally)
    (hus : List.Forall₂ (P.Decides w.net.limit m.tally)
      ((Timing.counter.decisionPoints w.net m).map DecisionPoint.place) us) :
    List.Forall₂ (fun d c => c ∈ d.transitions) (Timing.counter.decisionPoints w.net m)
      (us.map Transition.id) := by
  rw [List.forall₂_map_left_iff] at hus
  rw [List.forall₂_map_right_iff]
  have hboth := (List.forall₂_and_left (p := (· ∈ Timing.counter.decisionPoints w.net m)) _ _).mpr
    ⟨fun d hd => hd, hus⟩
  exact hboth.imp fun d t ht => (h.mem_transitions_iff hlive ht.1).mpr ⟨t, ht.2, rfl⟩

/-- A call with the choices of the transitions `us` fires these transitions and then saturates. -/
theorem consume_eq {σ : Type} {rounds : Nat} (h : w.Consists P) (resolver : Resolver σ Rat) (s : σ)
    (hlive : P.Live m.tally)
    (hus : List.Forall₂ (P.Decides w.net.limit m.tally)
      ((Timing.counter.decisionPoints w.net m).map DecisionPoint.place) us)
    (hcs : ∀ c, c ∈ cs ↔ c ∈ us.map Transition.id) {decided : Step Rat}
    (hdecided : decided = Timing.counter.fireAll w.net (.identity m w.dimensions) us) :
    Strategy.consume ⟨.counter, rounds⟩ resolver w m cs s =
      ((Strategy.saturate ⟨.counter, rounds⟩ w decided.marking).map decided.andThen, s) := by
  have hids := h.forall₂_ids hlive hus
  have hdisj : Disjoint (Timing.counter.decisionPoints w.net m) := h.disjoint_decisionPoints
  have hcheck : checkChoices w.net (Timing.counter.decisionPoints w.net m) [] cs = .ok () :=
    checkChoices_of_settles ⟨_, hids, hcs⟩ hdisj fun d hd c hc => h.isSome_of_mem_offered hd hc
  have hselect : resolver.select w m cs (Timing.counter.decisionPoints w.net m) s =
      (us.map Transition.id, s) := Resolver.select_of_settles hids hdisj hcs
  have hfilter : (us.map Transition.id).filterMap w.net.transition? = us := by
    apply h.filterMap_transition?
    intro t ht
    obtain ⟨p, _, hp⟩ := exists_left_of_forall₂ hus ht
    exact h.transitions ▸ hp.mem
  -- the choices pass, and what they name is what fires
  unfold Strategy.consume
  simp only [Strategy.choices, hcheck, hselect, hfilter, ← hdecided]
  cases Strategy.saturate ⟨.counter, rounds⟩ w decided.marking <;> rfl

/-- A call that takes every open decision is answered. -/
theorem exists_answer {σ : Type} {rounds : Nat} (h : w.Consists P) (resolver : Resolver σ Rat)
    (s : σ) (hm : m.Ordered) (hlive : P.Live m.tally)
    (hrounds : w.net.transitions.length < rounds)
    (hus : List.Forall₂ (P.Decides w.net.limit m.tally)
      ((Timing.counter.decisionPoints w.net m).map DecisionPoint.place) us)
    (hcs : ∀ c, c ∈ cs ↔ c ∈ us.map Transition.id) :
    ∃ step ts, Strategy.consume ⟨.counter, rounds⟩ resolver w m cs s = (.ok step, s) ∧
      Answer w P m us ts step := by
  have hpath := h.path_of_decides hus Timing.nodup_places
  have hlive' := h.placed.live_path hlive (h.transitions ▸ hpath)
  obtain ⟨hordered, htally⟩ := Timing.counter.marking_fireAll h.plain hpath
    (s := .identity m w.dimensions) hm rfl
  have hcourse := Timing.fireAll_counter w.net us (.identity m w.dimensions)
  have hconsume : Strategy.consume ⟨.counter, rounds⟩ resolver w m cs s = _ :=
    h.consume_eq resolver s hlive hus hcs rfl
  generalize Timing.counter.fireAll w.net (.identity m w.dimensions) us = decided at *
  rw [← htally] at hlive'
  -- one round more than there are transitions is enough
  have hpristine : P.pristine decided.marking.tally < rounds :=
    Nat.lt_of_le_of_lt List.countP_le_length (h.transitions ▸ hrounds)
  obtain ⟨rest, ts, hsome, hsat⟩ := h.saturateFor_eq_some
    (s := .identity decided.marking w.dimensions) hordered hlive' hpristine
  have hsaturate : Strategy.saturate ⟨.counter, rounds⟩ w decided.marking = .ok rest := by
    unfold Strategy.saturate
    simp only [Timing.budget, hsome]
  refine ⟨decided.andThen rest, ts, ?_, hus, hpath, htally ▸ hsat.path, hsat.free, hsat.ordered,
    hsat.settled, ?_⟩
  · rw [hconsume, hsaturate]
    rfl
  · rw [Step.course_andThen, hsat.course, hcourse, List.map_append, List.prod_append]
    show w.blank * _ * (w.blank * _) = _
    rw [mul_mul_mul_comm, w.blank_mul_blank]

/-- An answer moves a process that is under way. -/
theorem Answer.left_lt {step : Step Rat} (ha : Answer w P m us ts step) (h : w.Consists P)
    (hbusy : P.Busy m.tally) (hlive : P.Live m.tally) :
    P.left step.marking.tally < P.left m.tally := by
  have hpath := ha.batch.trans ha.saturation
  rw [h.transitions] at hpath
  have hle := h.placed.left_path hlive hpath
  suffices hmoves : us ++ ts ≠ [] by
    have hpos := List.length_pos_iff.mpr hmoves
    omega
  intro hnone
  obtain ⟨rfl, rfl⟩ := List.append_eq_nil_iff.mp hnone
  have hsame : step.marking.tally = m.tally := ha.saturation.eq_foldl
  rcases ha.settled with ⟨t, ht, hstop, he⟩ | hidle
  -- an open decision would have been taken
  · obtain ⟨p, hp⟩ := h.exists_decides_of_stop (m := step.marking) (hsame ▸ hlive) ht hstop he
    obtain ⟨d, hd, _⟩ := h.offers_of_decides (m := m) (hsame ▸ hp)
    obtain ⟨u, hu, _⟩ := exists_right_of_forall₂ ha.decides (List.mem_map_of_mem hd)
    cases hu
  · obtain ⟨t, ht, hadmits⟩ := h.placed.exists_admitted hbusy
    rw [← h.transitions] at ht
    have he : w.net.tokenEnabled t step.marking = true :=
      (h.enabled_iff ht).mpr (hsame ▸ hadmits)
    rw [hidle t ht] at he
    cases he

/-- Whatever is left can be had through some call that takes every open decision. -/
theorem exists_call {σ : Type} {rounds : Nat} {o : Course} (h : w.Consists P)
    (resolver : Resolver σ Rat) (s : σ) (hm : m.Ordered) (hlive : P.Live m.tally)
    (hrounds : w.net.transitions.length < rounds)
    (ho : o ∈ P.rest (tollIn w.net.terms) m.tally) :
    ∃ cs us step ts, Settles (Timing.counter.decisionPoints w.net m) cs ∧
      Strategy.consume ⟨.counter, rounds⟩ resolver w m cs s = (.ok step, s) ∧
      Answer w P m us ts step ∧
      o ∈ {((us ++ ts).map (Piece.price (tollIn w.net.terms))).prod} *
        P.rest (tollIn w.net.terms) step.marking.tally := by
  have hopen : ∀ p ∈ (Timing.counter.decisionPoints w.net m).map DecisionPoint.place,
      ∃ t, P.Decides w.net.limit m.tally p t := by
    intro p hp
    obtain ⟨d, hd, rfl⟩ := List.mem_map.mp hp
    obtain ⟨c, hc⟩ := List.exists_mem_of_ne_nil _ (Timing.tidy_decisionPoints.nonempty d hd)
    obtain ⟨t, ht, _⟩ := (h.mem_transitions_iff hlive hd).mp hc
    exact ⟨t, ht⟩
  obtain ⟨us, hus, ho⟩ := h.placed.exists_split hlive hopen Timing.nodup_places ho
  obtain ⟨step, ts, hcall, ha⟩ := h.exists_answer resolver s hm hlive hrounds hus fun c => Iff.rfl
  refine ⟨us.map Transition.id, us, step, ts, ?_, hcall, ha, ?_⟩
  · exact ⟨_, h.forall₂_ids hlive hus, fun c => Iff.rfl⟩
  · have hbatch := h.transitions ▸ ha.batch
    have hlive' := h.placed.live_path hlive hbatch
    rw [List.map_append, List.prod_append, ← Set.singleton_mul_singleton, mul_assoc]
    refine Set.mul_subset_mul_left ?_ ho
    exact h.placed.rest_of_path hlive' (h.transitions ▸ ha.saturation) ha.free

end Workflow.Consists

end RegionNet
