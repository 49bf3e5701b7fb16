import RegionNet.Proofs.Waiting

/-!
# Journeys

A journey is what a run does to its marking, transition by transition: each of them fires when it is
due, and time passes only while nothing is due (`Timing.Journey`). Batches of independent
transitions are journeys (`Consists.journey_of_batch`), since none of them touches the tokens of
another one or makes them younger. So everything that saturation does is one journey, and the course
of its step is made of the prices of what has fired and of the time that has passed
(`Consists.journey_of_saturateFor`).
-/

namespace RegionNet

open Course

variable {α : Type} [Quantity α]

/-! ## Ages -/

namespace Marking

variable {m : Marking α} {t : Transition α} {p : PlaceId}

/-- What a change keeps of every state is kept when the change is made at several places. -/
theorem kept_modifyAll {γ : Type} (k : PlaceState α → γ) {F : PlaceState α → PlaceState α}
    (hF : ∀ s, k (F s) = k s) (ps : List PlaceId) (q : PlaceId) : ∀ {m : Marking α},
    m.Ordered → k ((ps.foldl (fun m p => m.modify p F) m).state q) = k (m.state q) := by
  induction ps with
  | nil => exact fun _ => rfl
  | cons p ps ih =>
      intro m h
      rw [List.foldl_cons, ih (h.modify p F), state_modify h]
      split
      · next he => rw [hF, he]
      · rfl

theorem age_takeAll (ps : List PlaceId) (q : PlaceId) : ∀ {m : Marking α}, m.Ordered →
    ((ps.foldl (fun m p => m.modify p (.take 1)) m).state q).age =
      if q ∈ ps then 0 else (m.state q).age := by
  induction ps with
  | nil => exact fun _ => rfl
  | cons p ps ih =>
      intro m h
      rw [List.foldl_cons, ih (h.modify p _), state_modify h]
      by_cases hq : q = p
      · simp [hq, PlaceState.take]
      · simp [hq]

/-- Tokens that are put somewhere are new only if the place was left before. -/
theorem age_fire (h : m.Ordered) (hpre : t.preset = t.inputs.map (·, 1))
    (hpost : t.postset = t.outputs.map (·, 1)) (p : PlaceId) :
    ((m.fire t).state p).age = if p ∈ t.inputs then 0 else (m.state p).age := by
  have htaken := (tally_takeAll t.inputs h).1
  have hput := (tally_putAll t.outputs htaken).1
  have hforget := kept_modifyAll PlaceState.age (F := .forget) (fun _ => rfl) t.resetVisits p hput
  have hsame := kept_modifyAll PlaceState.age (F := .put 1) (fun _ => rfl) t.outputs p htaken
  have htake := age_takeAll t.inputs p h
  simp only [List.foldl_map] at hforget hsame htake
  unfold fire
  simp only [hpre, hpost, List.foldl_map]
  exact hforget.trans (hsame.trans htake)

theorem state_of_mem (h : m.Ordered) {s : PlaceState α} (hmem : (p, s) ∈ m.states) :
    m.state p = s := by
  obtain ⟨before, after, hsplit⟩ := List.append_of_mem hmem
  have hnodup := h.nodup
  unfold places at hnodup
  rw [hsplit, List.map_append, List.map_cons, List.nodup_append] at hnodup
  have hlookup : m.states.lookup p = some s := by
    refine List.lookup_eq_some_iff.mpr ⟨before, after, hsplit, fun x hx => bne_iff_ne.mpr ?_⟩
    exact (hnodup.2.2 _ (List.mem_map_of_mem hx) _ List.mem_cons_self).symm
  rw [state, hlookup]
  rfl

theorem mem_marked_iff (h : m.Ordered) : p ∈ m.marked ↔ 0 < m.tokens p := by
  constructor
  · intro hp
    obtain ⟨⟨q, s⟩, hq, rfl⟩ := List.mem_map.mp hp
    obtain ⟨hmem, hpos⟩ := List.mem_filter.mp hq
    rw [tokens, state_of_mem h hmem]
    exact of_decide_eq_true hpos
  · exact mem_marked

theorem state_addTime (h : m.Ordered) (dt : α) (p : PlaceId) :
    (m.addTime dt).state p = if 0 < m.tokens p then (m.state p).rest dt else m.state p := by
  have hnodup : m.marked.Nodup := h.nodup.sublist (List.filter_sublist.map Prod.fst)
  unfold addTime
  rw [state_restAll dt p m.marked h hnodup]
  simp only [mem_marked_iff h]

theorem tokens_addTime (h : m.Ordered) (dt : α) (p : PlaceId) :
    (m.addTime dt).tokens p = m.tokens p :=
  congrArg Prod.fst (congrFun (tally_addTime h dt) p)

/-! ### Places -/

attribute [ext] PlaceState

theorem states_eq (h : m.Ordered) : m.states = m.places.map fun p => (p, m.state p) := by
  rw [places, List.map_map]
  refine (List.map_id _).symm.trans (List.map_congr_left ?_)
  rintro ⟨p, s⟩ hmem
  exact Prod.ext rfl (state_of_mem h hmem).symm

/-- A marking is told by the places that it lists and by their states. -/
theorem ext_of_state {m' : Marking α} (hm : m.Ordered) (hm' : m'.Ordered)
    (hplaces : m.places = m'.places) (hstate : ∀ p, m.state p = m'.state p) : m = m' := by
  have hsame : m.states = m'.states := by
    rw [states_eq hm, states_eq hm', hplaces]
    exact List.map_congr_left fun p _ => congrArg (Prod.mk p) (hstate p)
  exact congrArg Marking.mk hsame

theorem map_modifyStates (f : PlaceState α → PlaceState α) :
    ∀ states : List (PlaceId × PlaceState α),
      (states.map Prod.fst).Pairwise (fun p q => p.index < q.index) → p ∈ states.map Prod.fst →
      (modifyStates p f states).map Prod.fst = states.map Prod.fst
  | [], _, hp => by cases hp
  | (q, s) :: rest, h, hp => by
    obtain ⟨hfirst, hrest⟩ := List.pairwise_cons.mp h
    unfold modifyStates
    split
    · rfl
    · next hne =>
        have hin := (List.mem_cons.mp hp).resolve_left hne
        rw [if_neg (Nat.lt_asymm (hfirst p hin)), List.map_cons, List.map_cons,
          map_modifyStates f rest hrest hin]

/-- Where only listed places change, the same places are listed. -/
theorem places_modifyAll (f : PlaceState α → PlaceState α) (ps : List PlaceId) :
    ∀ {m : Marking α}, m.Ordered → ps ⊆ m.places →
      (ps.foldl (fun m p => m.modify p f) m).places = m.places := by
  induction ps with
  | nil => exact fun _ _ => rfl
  | cons p ps ih =>
      intro m h hps
      obtain ⟨hp, hps⟩ := List.cons_subset.mp hps
      have hplaces : (m.modify p f).places = m.places := map_modifyStates f m.states h hp
      rw [List.foldl_cons, ih (h.modify p f) (hplaces.symm ▸ hps), hplaces]

theorem places_addTime (h : m.Ordered) (dt : α) : (m.addTime dt).places = m.places :=
  places_modifyAll _ _ h (List.map_subset _ (List.filter_subset_self _))

theorem places_fire (h : m.Ordered) (hpre : t.preset = t.inputs.map (·, 1))
    (hpost : t.postset = t.outputs.map (·, 1)) (hin : t.inputs ⊆ m.places)
    (hout : t.outputs ⊆ m.places) (hresets : t.resetVisits ⊆ m.places) :
    (m.fire t).places = m.places := by
  have htaken := (tally_takeAll t.inputs h).1
  have hput := (tally_putAll t.outputs htaken).1
  simp only [List.foldl_map] at htaken hput
  have htake := places_modifyAll (.take 1) t.inputs h hin
  have hkeep := places_modifyAll (.put 1) t.outputs htaken (htake.symm ▸ hout)
  have hforget := places_modifyAll .forget t.resetVisits hput
    ((hkeep.trans htake).symm ▸ hresets)
  unfold fire
  simp only [hpre, hpost, List.foldl_map]
  exact hforget.trans (hkeep.trans htake)

end Marking

/-! ## What is due -/

theorem Net.rested_congr {net : Net α} {m m' : Marking α} {p : PlaceId}
    (h : (m'.state p).age = (m.state p).age) : net.rested m' p = net.rested m p := by
  unfold rested
  rw [h]

open Piece in
/-- Where one of two independent transitions has fired, the other is still due. -/
theorem Workflow.Consists.enabled_of_independent {w : Workflow α} {P : Piece α} {m : Marking α}
    {timing : Timing α} {t u : Transition α} (h : w.Consists P) (hm : m.Ordered)
    (ht : t ∈ w.net.transitions) (hu : u ∈ w.net.transitions)
    (heu : timing.enabled w.net u m = true) (hindep : Independent t u) :
    timing.enabled w.net u (m.fire t) = true := by
  obtain ⟨hpre, hpost⟩ := h.plain t ht
  have hau := (h.enabled_iff hu).mp (Timing.tokenEnabled_of_enabled heu)
  have hadmits := admits_of_independent hau hindep
  rw [← Marking.tally_fire hm hpre hpost] at hadmits
  have htokens := (h.enabled_iff hu).mpr hadmits
  cases timing with
  | counter => exact htokens
  | duration step =>
      have hrested : u.inputs.all (w.net.rested m) = true := (Bool.and_eq_true _ _ ▸ heu : _ ∧ _).2
      show (w.net.tokenEnabled u _ && u.inputs.all (w.net.rested _)) = true
      rw [htokens, Bool.true_and, List.all_eq_true]
      intro p hp
      rw [Net.rested_congr ((Marking.age_fire hm hpre hpost p).trans (if_neg (hindep p hp)))]
      exact List.all_eq_true.mp hrested p hp

/-! ## Journeys -/

namespace Timing

/-- The transitions fire one after the other, each when it is due, and some time passes all in all,
but only while nothing is due and no longer than until the next transition is. -/
inductive Journey (timing : Timing Rat) (net : Net Rat) :
    Marking Rat → List (Transition Rat) → Rat → Marking Rat → Prop where
  | nil (m : Marking Rat) : Journey timing net m [] 0 m
  | fire {m m' : Marking Rat} {t : Transition Rat} {ts : List (Transition Rat)} {d : Rat}
      (ht : t ∈ net.transitions) (he : timing.enabled net t m = true)
      (h : Journey timing net (m.fire t) ts d m') : Journey timing net m (t :: ts) d m'
  | wait {m m' : Marking Rat} {ts : List (Transition Rat)} {d dt : Rat}
      (hidle : timing.due net m = []) (hwait : timing.nextWait net m = some dt)
      (h : Journey timing net (m.addTime dt) ts d m') : Journey timing net m ts (dt + d) m'

namespace Journey

variable {timing : Timing Rat} {net : Net Rat} {m m' m'' : Marking Rat}
  {ts ts' : List (Transition Rat)} {d d' : Rat}

theorem trans (h : Journey timing net m ts d m') (h' : Journey timing net m' ts' d' m'') :
    Journey timing net m (ts ++ ts') (d + d') m'' := by
  induction h with
  | nil => rwa [zero_add]
  | fire ht he _ ih => exact .fire ht he (ih h')
  | wait hidle hwait _ ih =>
      rw [add_assoc]
      exact .wait hidle hwait (ih h')

theorem path (h : Journey timing net m ts d m') (hnet : net.Plain) (hm : m.Ordered) :
    m'.Ordered ∧ Tally.Path net.limit net.transitions m.tally ts m'.tally := by
  induction h with
  | nil => exact ⟨hm, .nil _⟩
  | fire ht he _ ih =>
      obtain ⟨hpre, hpost⟩ := hnet _ ht
      obtain ⟨hordered, hpath⟩ := ih (hm.fire hpre hpost)
      rw [Marking.tally_fire hm hpre hpost] at hpath
      exact ⟨hordered, .cons ht ((Net.tokenEnabled_iff hpre).mp (tokenEnabled_of_enabled he)) hpath⟩
  | wait _ _ _ ih =>
      obtain ⟨hordered, hpath⟩ := ih (hm.addTime _)
      rw [Marking.tally_addTime hm] at hpath
      exact ⟨hordered, hpath⟩

/-- Where time is counted, nobody waits. -/
theorem eq_zero (h : Journey counter net m ts d m') : d = 0 := by
  induction h with
  | nil => rfl
  | fire _ _ _ ih => exact ih
  | wait _ hwait _ _ => cases hwait

end Journey

theorem marking_fireAll_eq (timing : Timing α) (net : Net α) (ts : List (Transition α)) :
    ∀ s : Step α, (timing.fireAll net s ts).marking =
      ts.foldl (fun m t => m.fire t) s.marking := by
  induction ts with
  | nil => exact fun _ => rfl
  | cons t ts ih =>
      intro s
      rw [List.foldl_cons, ← timing.marking_fire net s t]
      exact ih _

end Timing

/-- Time that passes extends a step by a wait. -/
theorem Step.course_wait (s : Step Rat) (m : Marking Rat) (dt : Rat) :
    Step.course { s with marking := m, elapsed := s.elapsed + dt } = s.course * wait dt := by
  ext1
  · exact (mul_one _).symm
  · exact (Quantity.addEntries_nil _).symm
  · rfl

namespace Workflow.Consists

variable {w : Workflow Rat} {P : Piece Rat} {m : Marking Rat} {timing : Timing Rat}
  {ts : List (Transition Rat)}

/-- Independent transitions that are all due can fire one after the other. -/
theorem journey_of_batch (h : w.Consists P) (hm : m.Ordered)
    (hts : ∀ t ∈ ts, t ∈ w.net.transitions ∧ timing.enabled w.net t m = true)
    (hindep : ts.Pairwise Piece.Independent) :
    timing.Journey w.net m ts 0 (ts.foldl (fun m t => m.fire t) m) := by
  induction ts generalizing m with
  | nil => exact .nil m
  | cons t ts ih =>
      obtain ⟨⟨ht, he⟩, hts⟩ := List.forall_mem_cons.mp hts
      obtain ⟨hfirst, hindep⟩ := List.pairwise_cons.mp hindep
      obtain ⟨hpre, hpost⟩ := h.plain t ht
      refine .fire ht he (ih (hm.fire hpre hpost) (fun u hu => ?_) hindep)
      obtain ⟨hu', heu⟩ := hts u hu
      exact ⟨hu', h.enabled_of_independent hm ht hu' heu (hfirst u hu)⟩

/-- A round of saturation is a journey in which no time passes. -/
theorem journey_of_round (h : w.Consists P) (hm : m.Ordered)
    (hstop : ∀ t ∈ timing.due w.net m, t.stop = false) :
    timing.Journey w.net m (timing.due w.net m) 0
      ((timing.due w.net m).foldl (fun m t => m.fire t) m) := by
  refine h.journey_of_batch hm (fun t ht => Timing.mem_due.mp ht) ?_
  refine (h.transitions_nodup.filter _).imp_of_mem fun ht hu hne => ?_
  have hmem : ∀ t ∈ timing.due w.net m, t ∈ P.transitions := fun t ht =>
    h.transitions ▸ (Timing.mem_due.mp ht).1
  exact h.placed.independent_of_free (hmem _ ht) (hmem _ hu) (hstop _ ht) hne

/-- What saturation without a budget does is a journey. -/
theorem journey_of_saturateFor (h : w.Consists P) {rounds : Nat} {s s' : Step Rat}
    (hs : s.marking.Ordered) (hsome : timing.saturateFor w.net rounds none s = some s') :
    ∃ ts d, timing.Journey w.net s.marking ts d s'.marking ∧ (∀ t ∈ ts, t.stop = false) ∧
      s'.course = s.course * (ts.map (Piece.price (timing.toll w.net))).prod * wait d := by
  have hstay : ∀ s : Step Rat, ∃ ts d, timing.Journey w.net s.marking ts d s.marking ∧
      (∀ t ∈ ts, t.stop = false) ∧
      s.course = s.course * (ts.map (Piece.price (timing.toll w.net))).prod * wait d := by
    intro s
    refine ⟨[], 0, .nil _, List.forall_mem_nil _, ?_⟩
    rw [List.map_nil, List.prod_nil, mul_one, wait_zero, mul_one]
  induction rounds generalizing s with
  | zero => cases hsome
  | succ rounds ih =>
      by_cases hany : (timing.due w.net s.marking).any Transition.stop = true
      · rw [Timing.saturateFor_of_open hany] at hsome
        obtain rfl := Option.some.inj hsome
        exact hstay s
      by_cases hnone : timing.due w.net s.marking = []
      · cases hwait : timing.nextWait w.net s.marking with
        | none =>
            rw [Timing.saturateFor_of_quiet hnone hwait] at hsome
            obtain rfl := Option.some.inj hsome
            exact hstay s
        | some dt =>
            rw [Timing.saturateFor_of_wait (x := dt) hnone hwait rfl] at hsome
            by_cases hpos : dt ≤ 0
            · rw [if_pos hpos] at hsome
              obtain rfl := Option.some.inj hsome
              exact hstay s
            rw [if_neg hpos] at hsome
            obtain ⟨ts, d, hjourney, hfree, hcourse⟩ := ih (hs.addTime dt) hsome
            refine ⟨ts, dt + d, .wait hnone hwait hjourney, hfree, ?_⟩
            rw [hcourse, s.course_wait, ← wait_mul_wait, mul_right_comm _ (wait dt),
              mul_assoc _ (wait dt)]
      · rw [Timing.saturateFor_of_fire hany hnone] at hsome
        have hstop : ∀ t ∈ timing.due w.net s.marking, t.stop = false := fun t ht =>
          Bool.eq_false_iff.mpr fun hstop => hany (List.any_eq_true.mpr ⟨t, ht, hstop⟩)
        have hround := h.journey_of_round hs hstop
        rw [← timing.marking_fireAll_eq w.net] at hround
        obtain ⟨ts, d, hjourney, hfree, hcourse⟩ := ih (hround.path h.plain hs).1 hsome
        refine ⟨timing.due w.net s.marking ++ ts, 0 + d, hround.trans hjourney,
          List.forall_mem_append.mpr ⟨hstop, hfree⟩, ?_⟩
        rw [hcourse, timing.fireAll_course, List.map_append, List.prod_append, zero_add,
          mul_assoc s.course]

end Workflow.Consists

end RegionNet
