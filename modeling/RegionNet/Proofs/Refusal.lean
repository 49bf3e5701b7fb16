import RegionNet.Proofs.Chain
import RegionNet.Proofs.Heeding

/-!
# Refusal

Which choices a call accepts, and what it answers to others. Each choice is looked at in its turn,
with those before it accepted, and the first one with something wrong (`Timing.Offence`) decides the
answer (`Consists.checkChoices_eq_error_iff`). A list without an offence is one that makes sense as
a set (`Agreed`): every choice is open, and no two of them are for one decision. So neither order
nor repetition matters, to acceptance or to what an accepted call does.
-/

namespace RegionNet

open DecisionPoint

variable {α : Type} [Quantity α]

/-- An answer to the choices, not to what comes of them. -/
def ExecutionError.ofChoice : ExecutionError → Bool
  | maxIterations _ => false
  | _ => true

/-! ## What can be wrong with a choice -/

/-- What is wrong with a choice after others have been accepted. -/
inductive Timing.Offence (timing : Timing α) (net : Net α) (m : Marking α)
    (earlier : List TransitionId) (c : TransitionId) : ExecutionError → Prop where
  | unknown (h : ∀ t ∈ net.transitions, t.id ≠ c) : Offence timing net m earlier c
      (.unknownTransition c)
  /-- It is no decision, or not an open one. -/
  | invalid {t : Transition α} (ht : t ∈ net.transitions) (hid : t.id = c)
      (h : ¬ (t.stop = true ∧ timing.enabled net t m = true)) : Offence timing net m earlier c
      (.invalidChoice c)
  /-- Another choice has been made for this decision. -/
  | conflict {t u : Transition α} {p : PlaceId} (ht : t ∈ net.transitions) (hid : t.id = c)
      (hstop : t.stop = true) (he : timing.enabled net t m = true) (hu : u ∈ net.transitions)
      (hmem : u.id ∈ earlier) (hne : u.id ≠ c) (hplace : t.decisionPlace = some p)
      (hplace' : u.decisionPlace = some p) : Offence timing net m earlier c
      (.conflictingChoices p u.id c)

/-- Nothing is wrong with any of the choices. -/
def Timing.Clear (timing : Timing α) (net : Net α) (m : Marking α) (cs : List TransitionId) :
    Prop :=
  ∀ before c after, cs = before ++ c :: after → ∀ e, ¬ timing.Offence net m before c e

/-- Every choice is on offer, and those for one decision are the same. -/
structure Agreed (points : List DecisionPoint) (cs : List TransitionId) : Prop where
  offered : ∀ c ∈ cs, ∃ d ∈ points, c ∈ d.transitions
  same : ∀ d ∈ points, ∀ b ∈ cs, ∀ c ∈ cs, b ∈ d.transitions → c ∈ d.transitions → b = c

namespace Agreed

variable {points : List DecisionPoint} {cs cs' : List TransitionId}

theorem mono (h : Agreed points cs) (hsub : cs' ⊆ cs) : Agreed points cs' :=
  ⟨fun c hc => h.offered c (hsub hc),
    fun d hd b hb c hc => h.same d hd b (hsub hb) c (hsub hc)⟩

/-- Where choices agree, looking for the one that takes a decision finds the same in every order. -/
theorem find?_eq (h : Agreed points cs) (hcs : ∀ c, c ∈ cs ↔ c ∈ cs') {d : DecisionPoint}
    (hd : d ∈ points) :
    cs.find? d.transitions.contains = cs'.find? d.transitions.contains := by
  cases hfound : cs.find? d.transitions.contains with
  | none =>
      refine (List.find?_eq_none.mpr fun c hc => ?_).symm
      exact List.find?_eq_none.mp hfound c ((hcs c).mpr hc)
  | some b =>
      have hb := List.mem_of_find?_eq_some hfound
      have hbd := List.find?_some hfound
      cases hfound' : cs'.find? d.transitions.contains with
      | none => exact absurd hbd (List.find?_eq_none.mp hfound' b ((hcs b).mp hb))
      | some c =>
          have hc := (hcs c).mpr (List.mem_of_find?_eq_some hfound')
          have hcd := List.find?_some hfound'
          rw [List.contains_iff_mem] at hbd hcd
          rw [h.same d hd b hb c hc hbd hcd]

end Agreed

omit [Quantity α] in
theorem Resolver.select_congr {σ : Type} {resolver : Resolver σ α} {w : Workflow α} {m : Marking α}
    {cs cs' : List TransitionId} {points : List DecisionPoint}
    (h : ∀ d ∈ points, cs.find? d.transitions.contains = cs'.find? d.transitions.contains) :
    ∀ s, resolver.select w m cs points s = resolver.select w m cs' points s := by
  induction points with
  | nil => exact fun _ => rfl
  | cons d points ih =>
      intro s
      obtain ⟨hd, hpoints⟩ := List.forall_mem_cons.mp h
      simp only [select, hd, ih hpoints]

/-! ## Choices one by one -/

namespace Workflow.Consists

variable {w : Workflow α} {P : Piece α} {m : Marking α} {timing : Timing α}
  {earlier before cs rest : List TransitionId} {c : TransitionId} {e : ExecutionError}
  {t : Transition α} {p : PlaceId}

/-- The decision point of an open decision. -/
theorem exists_point (h : w.Consists P) (ht : t ∈ w.net.transitions) (hstop : t.stop = true)
    (he : timing.enabled w.net t m = true) : ∃ d ∈ timing.decisionPoints w.net m,
      t.decisionPlace = some d.place ∧ t.id ∈ d.transitions := by
  obtain ⟨⟨p, hin⟩, -⟩ := Piece.decisive_of_stop (h.transitions ▸ ht) hstop
  have hplace : t.decisionPlace = some p := by
    rw [Transition.decisionPlace, hin]
    rfl
  obtain ⟨d, hd, rfl, hmem⟩ := Timing.offers_decisionPoints.mpr ⟨t, ht, hstop, he, hplace, rfl⟩
  exact ⟨d, hd, hplace, hmem⟩

/-- What a decision point offers is an open decision at its place. -/
theorem open_of_mem (h : w.Consists P) {d : DecisionPoint} (hd : d ∈ timing.decisionPoints w.net m)
    (ht : t ∈ w.net.transitions) (hmem : t.id ∈ d.transitions) :
    t.stop = true ∧ timing.enabled w.net t m = true ∧ t.decisionPlace = some d.place := by
  obtain ⟨u, hu, hstop, he, hplace, hid⟩ := Timing.offers_decisionPoints.mp ⟨d, hd, rfl, hmem⟩
  obtain rfl := h.eq_of_id hu ht hid
  exact ⟨hstop, he, hplace⟩

theorem find?_point (h : w.Consists P) {d : DecisionPoint}
    (hd : d ∈ timing.decisionPoints w.net m) (hc : c ∈ d.transitions) :
    (timing.decisionPoints w.net m).find? (·.transitions.contains c) = some d := by
  cases hfound : (timing.decisionPoints w.net m).find? (·.transitions.contains c) with
  | none =>
      have hno := List.find?_eq_none.mp hfound d hd
      exact absurd (List.contains_iff_mem.mpr hc) hno
  | some d' =>
      have hd' := List.mem_of_find?_eq_some hfound
      have hc' : c ∈ d'.transitions := by simpa using List.find?_some hfound
      rw [h.disjoint_decisionPoints.eq_of_mem hd' hd hc' hc]

/-- Decisions at the place of a decision point that are open are on offer there. -/
theorem mem_of_place (h : w.Consists P) {d d' : DecisionPoint}
    (hd : d ∈ timing.decisionPoints w.net m) (hd' : d' ∈ timing.decisionPoints w.net m)
    (ht : t ∈ w.net.transitions) (hmem : t.id ∈ d'.transitions)
    (hplace : t.decisionPlace = some d.place) : t.id ∈ d.transitions := by
  obtain ⟨-, -, hplace'⟩ := h.open_of_mem hd' ht hmem
  have hsame : d.place = d'.place := Option.some.inj (hplace.symm.trans hplace')
  rwa [Timing.tidy_decisionPoints.eq_of_place hd hd' hsame]

/-- There is nothing wrong with a choice that agrees with the ones before. -/
theorem not_offence_of_agreed (h : w.Consists P)
    (hagreed : Agreed (timing.decisionPoints w.net m) (earlier ++ [c])) :
    ¬ timing.Offence w.net m earlier c e := by
  obtain ⟨d, hd, hc⟩ := hagreed.offered c (List.mem_append_right _ (List.mem_singleton_self c))
  obtain ⟨u, hu, hstop, he, hplace, rfl⟩ := Timing.offers_decisionPoints.mp ⟨d, hd, rfl, hc⟩
  intro hoffence
  cases hoffence with
  | unknown hnone => exact hnone u hu rfl
  | invalid ht hid hnot =>
      obtain rfl := h.eq_of_id ht hu hid
      exact hnot ⟨hstop, he⟩
  | @conflict t v p ht hid _ _ hv hmem hne hplace' hshared =>
      obtain rfl := h.eq_of_id ht hu hid
      obtain ⟨d', hd', hvd'⟩ := hagreed.offered _ (List.mem_append_left _ hmem)
      have hvd := h.mem_of_place hd hd' hv hvd'
        (hshared.trans (hplace'.symm.trans hplace))
      exact hne (hagreed.same d hd _ (List.mem_append_left _ hmem) _ (by simp) hvd hc)

/-- A choice with nothing wrong agrees with the ones before. -/
theorem agreed_snoc (h : w.Consists P)
    (hagreed : Agreed (timing.decisionPoints w.net m) earlier)
    (hfine : ∀ e, ¬ timing.Offence w.net m earlier c e) :
    Agreed (timing.decisionPoints w.net m) (earlier ++ [c]) := by
  obtain ⟨t, ht, hid⟩ : ∃ t ∈ w.net.transitions, t.id = c := by
    by_contra hnone
    exact hfine _ (.unknown fun t ht hid => hnone ⟨t, ht, hid⟩)
  obtain ⟨hstop, he⟩ : t.stop = true ∧ timing.enabled w.net t m = true := by
    by_contra hnot
    exact hfine _ (.invalid ht hid hnot)
  subst hid
  obtain ⟨d, hd, hplace, hmem⟩ := h.exists_point ht hstop he
  -- a different choice for the same decision would be in conflict
  have hsame : ∀ e ∈ timing.decisionPoints w.net m, ∀ b ∈ earlier, b ∈ e.transitions →
      t.id ∈ e.transitions → b = t.id := by
    intro e hde b hb hbe hte
    obtain ⟨u, hu, -, -, hplace', rfl⟩ := Timing.offers_decisionPoints.mp ⟨e, hde, rfl, hbe⟩
    obtain ⟨-, -, hplacet⟩ := h.open_of_mem hde ht hte
    by_contra hne
    exact hfine _ (.conflict ht rfl hstop he hu hb hne hplacet hplace')
  constructor
  · exact List.forall_mem_append.mpr
      ⟨hagreed.offered, List.forall_mem_singleton.mpr ⟨d, hd, hmem⟩⟩
  · intro e hde b hb c hc hbe hce
    rcases List.mem_append.mp hb with hb | hb <;> rcases List.mem_append.mp hc with hc | hc
    · exact hagreed.same e hde b hb c hc hbe hce
    · obtain rfl := List.mem_singleton.mp hc
      exact hsame e hde b hb hbe hce
    · obtain rfl := List.mem_singleton.mp hb
      exact (hsame e hde c hc hce hbe).symm
    · rw [List.mem_singleton.mp hb, List.mem_singleton.mp hc]

/-- Choices are in order, one by one, if they make sense as a set. -/
theorem clear_iff_agreed (h : w.Consists P) :
    timing.Clear w.net m cs ↔ Agreed (timing.decisionPoints w.net m) cs := by
  constructor
  · induction cs using List.reverseRecOn with
    | nil => exact fun _ => ⟨List.forall_mem_nil _, fun _ _ b hb => absurd hb List.not_mem_nil⟩
    | append_singleton cs c ih =>
        intro hclear
        refine h.agreed_snoc (ih fun before b after hsplit => ?_) (hclear cs c [] rfl)
        exact hclear before b (after ++ [c]) (by rw [hsplit, List.append_assoc, List.cons_append])
  · intro hagreed before c after hsplit e
    have hsub : before ++ [c] ⊆ cs := by
      rw [hsplit, List.append_cons before c after]
      exact List.subset_append_left _ _
    exact h.not_offence_of_agreed (hagreed.mono hsub)

/-- Where not everything is in order, there is a first choice that is not. -/
theorem exists_first (h : w.Consists P) (hnot : ¬ Agreed (timing.decisionPoints w.net m) cs) :
    ∃ before c after e, cs = before ++ c :: after ∧
      Agreed (timing.decisionPoints w.net m) before ∧ timing.Offence w.net m before c e := by
  induction cs using List.reverseRecOn with
  | nil => exact absurd ⟨List.forall_mem_nil _, fun _ _ b hb => absurd hb List.not_mem_nil⟩ hnot
  | append_singleton cs c ih =>
      by_cases hagreed : Agreed (timing.decisionPoints w.net m) cs
      · obtain ⟨e, hoffence⟩ : ∃ e, timing.Offence w.net m cs c e := by
          by_contra hfine
          exact hnot (h.agreed_snoc hagreed fun e he => hfine ⟨e, he⟩)
        exact ⟨cs, c, [], e, rfl, hagreed, hoffence⟩
      · obtain ⟨before, b, after, e, rfl, hbefore, hoffence⟩ := ih hagreed
        exact ⟨before, b, after ++ [c], e, by simp, hbefore, hoffence⟩

/-! ## What is answered -/

theorem checkChoices_eq_ok_iff (h : w.Consists P) :
    checkChoices w.net (timing.decisionPoints w.net m) [] cs = .ok () ↔
      Agreed (timing.decisionPoints w.net m) cs := by
  constructor
  · intro hok
    obtain ⟨hoffered, hsame⟩ := of_checkChoices_eq_ok h.disjoint_decisionPoints hok
    exact ⟨hoffered, fun d hd b hb c hc hbd hcd => hsame d hd c hc hcd b hb hbd⟩
  · intro hagreed
    refine checkChoices_eq_ok (fun c hc => ?_) hagreed.offered hagreed.same
    obtain ⟨d, hd, hcd⟩ := hagreed.offered c hc
    exact h.isSome_of_mem_offered hd hcd

/-- Choices that agree are passed over. -/
theorem checkChoices_append (h : w.Consists P) :
    ∀ earlier, Agreed (timing.decisionPoints w.net m) (earlier ++ before) →
      checkChoices w.net (timing.decisionPoints w.net m) earlier (before ++ rest) =
        checkChoices w.net (timing.decisionPoints w.net m) (earlier ++ before) rest := by
  induction before with
  | nil => exact fun earlier _ => by rw [List.nil_append, List.append_nil]
  | cons c before ih =>
      intro earlier hagreed
      have hc : c ∈ earlier ++ c :: before := by simp
      obtain ⟨d, hd, hcd⟩ := hagreed.offered c hc
      have hknown : (w.net.transition? c).isNone = false := by
        rw [← Option.not_isSome, h.isSome_of_mem_offered hd hcd]
        rfl
      have hpoint : (timing.decisionPoints w.net m).find? (·.transitions.contains c) = some d :=
        h.find?_point hd hcd
      have hnone : earlier.find? (fun b => d.transitions.contains b && b != c) = none := by
        refine List.find?_eq_none.mpr fun b hb hbad => ?_
        simp only [Bool.and_eq_true, List.contains_iff_mem, bne_iff_ne] at hbad
        exact hbad.2 (hagreed.same d hd b (List.mem_append_left _ hb) c hc hbad.1 hcd)
      rw [List.cons_append, checkChoices, hknown, if_neg Bool.false_ne_true, hpoint]
      simp only [hnone]
      rw [List.append_cons earlier c before] at hagreed ⊢
      exact ih _ hagreed

/-- The first choice with something wrong is answered. -/
theorem checkChoices_of_offence (h : w.Consists P)
    (hagreed : Agreed (timing.decisionPoints w.net m) earlier)
    (hoffence : timing.Offence w.net m earlier c e) :
    checkChoices w.net (timing.decisionPoints w.net m) earlier (c :: rest) = .error e := by
  rw [checkChoices]
  cases hoffence with
  | unknown hnone =>
      have hfind : w.net.transition? c = none :=
        List.find?_eq_none.mpr fun t ht => by simpa using hnone t ht
      rw [hfind]
      rfl
  | @invalid t ht hid hnot =>
      subst hid
      have hpoint : (timing.decisionPoints w.net m).find? (·.transitions.contains t.id) = none := by
        refine List.find?_eq_none.mpr fun d hd hmem => ?_
        obtain ⟨hstop, he, -⟩ := h.open_of_mem hd ht (List.contains_iff_mem.mp hmem)
        exact hnot ⟨hstop, he⟩
      rw [h.transition?_eq ht, hpoint]
      rfl
  | @conflict t u p ht hid hstop he hu hmem hne hplace hplace' =>
      subst hid
      obtain ⟨d, hd, hplaced, htd⟩ := h.exists_point ht hstop he
      obtain rfl : p = d.place := Option.some.inj (hplace.symm.trans hplaced)
      obtain ⟨d', hd', hud'⟩ := hagreed.offered _ hmem
      have hud := h.mem_of_place hd hd' hu hud' hplace'
      have hfirst : earlier.find? (fun b => d.transitions.contains b && b != t.id) =
          some u.id := by
        cases hfound : earlier.find? (fun b => d.transitions.contains b && b != t.id) with
        | none =>
            have hno := List.find?_eq_none.mp hfound _ hmem
            simp [hud, hne] at hno
        | some b =>
            have hb := List.mem_of_find?_eq_some hfound
            have hbad := List.find?_some hfound
            simp only [Bool.and_eq_true, List.contains_iff_mem] at hbad
            rw [hagreed.same d hd b hb _ hmem hbad.1 hud]
      rw [h.transition?_eq ht, h.find?_point hd htd]
      simp only [Option.isNone_some, Bool.false_eq_true, if_false, hfirst]

/-- The answer is what is wrong with the first choice that something is wrong with. -/
theorem checkChoices_eq_error_iff (h : w.Consists P) :
    checkChoices w.net (timing.decisionPoints w.net m) [] cs = .error e ↔
      ∃ before c after, cs = before ++ c :: after ∧ timing.Clear w.net m before ∧
        timing.Offence w.net m before c e := by
  have hanswer : ∀ {before c after e}, Agreed (timing.decisionPoints w.net m) before →
      timing.Offence w.net m before c e →
      checkChoices w.net (timing.decisionPoints w.net m) [] (before ++ c :: after) = .error e :=
    fun hagreed hoffence =>
      (h.checkChoices_append [] hagreed).trans (h.checkChoices_of_offence hagreed hoffence)
  constructor
  · intro herror
    have hnot : ¬ Agreed (timing.decisionPoints w.net m) cs := fun hagreed => by
      rw [h.checkChoices_eq_ok_iff.mpr hagreed] at herror
      cases herror
    obtain ⟨before, c, after, e', rfl, hbefore, hoffence⟩ := h.exists_first hnot
    rw [hanswer hbefore hoffence] at herror
    obtain rfl := Except.error.inj herror
    exact ⟨before, c, after, rfl, h.clear_iff_agreed.mpr hbefore, hoffence⟩
  · rintro ⟨before, c, after, rfl, hclear, hoffence⟩
    exact hanswer (h.clear_iff_agreed.mp hclear) hoffence

/-- Choices agree if each of them is an open decision and no two of them have one place. -/
theorem agreed_iff (h : w.Consists P) : Agreed (timing.decisionPoints w.net m) cs ↔
    (∀ c ∈ cs, ∃ t ∈ w.net.transitions, t.id = c ∧ t.stop = true ∧
      timing.enabled w.net t m = true) ∧
    ∀ t ∈ w.net.transitions, ∀ u ∈ w.net.transitions, t.id ∈ cs → u.id ∈ cs → t.id ≠ u.id →
      ∀ p, t.decisionPlace = some p → u.decisionPlace ≠ some p := by
  constructor
  · intro hagreed
    refine ⟨fun c hc => ?_, fun t ht u hu htcs hucs hne p hplace hplace' => ?_⟩
    · obtain ⟨d, hd, hcd⟩ := hagreed.offered c hc
      obtain ⟨t, ht, hstop, he, -, hid⟩ := Timing.offers_decisionPoints.mp ⟨d, hd, rfl, hcd⟩
      exact ⟨t, ht, hid, hstop, he⟩
    · obtain ⟨d, hd, htd⟩ := hagreed.offered _ htcs
      obtain ⟨d', hd', hud'⟩ := hagreed.offered _ hucs
      obtain ⟨-, -, hplaced⟩ := h.open_of_mem hd ht htd
      have hshared := hplace'.trans (hplace.symm.trans hplaced)
      exact hne (hagreed.same d hd _ htcs _ hucs htd (h.mem_of_place hd hd' hu hud' hshared))
  · rintro ⟨hopen, hsame⟩
    refine ⟨fun c hc => ?_, fun d hd b hb c hc hbd hcd => ?_⟩
    · obtain ⟨t, ht, rfl, hstop, he⟩ := hopen c hc
      obtain ⟨d, hd, -, htd⟩ := h.exists_point ht hstop he
      exact ⟨d, hd, htd⟩
    · obtain ⟨t, ht, -, -, hplace, rfl⟩ := Timing.offers_decisionPoints.mp ⟨d, hd, rfl, hbd⟩
      obtain ⟨u, hu, -, -, hplace', rfl⟩ := Timing.offers_decisionPoints.mp ⟨d, hd, rfl, hcd⟩
      by_contra hne
      exact hsame t ht u hu hb hc hne _ hplace hplace'

end Workflow.Consists

theorem Timing.Offence.ofChoice {timing : Timing α} {net : Net α} {m : Marking α}
    {earlier : List TransitionId} {c : TransitionId} {e : ExecutionError}
    (h : timing.Offence net m earlier c e) : e.ofChoice = true := by
  cases h <;> rfl

/-! ## Calls -/

namespace Strategy

variable {σ : Type} {strategy : Strategy α} {resolver : Resolver σ α} {w : Workflow α}
  {m : Marking α} {cs cs' : List TransitionId} {s : σ} {e : ExecutionError}

/-- The call answers to its choices that something is wrong with them. -/
def Refuses (strategy : Strategy α) (resolver : Resolver σ α) (w : Workflow α) (m : Marking α)
    (cs : List TransitionId) (s : σ) : Prop :=
  ∃ e : ExecutionError, e.ofChoice = true ∧ (strategy.consume resolver w m cs s).1 = .error e

/-- A call that refuses its choices does nothing else. -/
theorem consume_of_refused (h : checkChoices w.net (strategy.choices w m) [] cs = .error e) :
    strategy.consume resolver w m cs s = (.error e, s) := by
  simp only [consume, h]

/-- Nothing but the choices is to blame for an answer about them. -/
theorem refused_of_consume (hchoice : e.ofChoice = true)
    (h : (strategy.consume resolver w m cs s).1 = .error e) :
    checkChoices w.net (strategy.choices w m) [] cs = .error e := by
  cases hcheck : checkChoices w.net (strategy.choices w m) [] cs with
  | error e' =>
      rw [consume_of_refused hcheck] at h
      exact congrArg Except.error (Except.error.inj h)
  | ok =>
      simp only [consume, hcheck, saturate] at h
      generalize strategy.timing.fireAll w.net _ _ = decided at h
      cases hsome : strategy.timing.saturateFor w.net strategy.maxRounds strategy.timing.budget
          (.identity decided.marking w.dimensions) with
      | none =>
          simp only [hsome, Except.error.injEq] at h
          subst h
          cases hchoice
      | some rest => simp [hsome] at h

/-- Choices that agree, taken once each or several times and in any order, make the same call. -/
theorem consume_congr (hagreed : Agreed (strategy.choices w m) cs) (hcs : ∀ c, c ∈ cs ↔ c ∈ cs')
    (hcheck : checkChoices w.net (strategy.choices w m) [] cs = .ok ())
    (hcheck' : checkChoices w.net (strategy.choices w m) [] cs' = .ok ()) :
    strategy.consume resolver w m cs s = strategy.consume resolver w m cs' s := by
  have hselect : resolver.select w m cs (strategy.choices w m) s =
      resolver.select w m cs' (strategy.choices w m) s :=
    Resolver.select_congr (fun d hd => hagreed.find?_eq hcs hd) s
  simp only [consume, hcheck, hcheck', hselect]

end Strategy

/-- How a strategy screens the choices for a call. -/
structure Workflow.Screens (w : Workflow α) (strategy : Strategy α) (m : Marking α) : Prop where
  /-- One of the refused choices is no open decision, or two of them have one place. -/
  refuses_iff : ∀ {σ : Type} (resolver : Resolver σ α) (cs : List TransitionId) (s : σ),
    strategy.Refuses resolver w m cs s ↔
      (∃ c ∈ cs, ¬ ∃ t ∈ w.net.transitions, t.id = c ∧ t.stop = true ∧
        strategy.timing.enabled w.net t m = true) ∨
      ∃ t ∈ w.net.transitions, ∃ u ∈ w.net.transitions, t.id ∈ cs ∧ u.id ∈ cs ∧ t.id ≠ u.id ∧
        ∃ p, t.decisionPlace = some p ∧ u.decisionPlace = some p
  /-- The answer is to the first choice that something is wrong with. -/
  first_iff : ∀ {σ : Type} (resolver : Resolver σ α) (cs : List TransitionId) (s : σ)
    (e : ExecutionError), e.ofChoice = true →
      ((strategy.consume resolver w m cs s).1 = .error e ↔
        ∃ before c after, cs = before ++ c :: after ∧ strategy.timing.Clear w.net m before ∧
          strategy.timing.Offence w.net m before c e)
  /-- No resolver changes the answer, and none is changed by it. -/
  unasked : ∀ {σ τ : Type} (resolver : Resolver σ α) (other : Resolver τ α)
    (cs : List TransitionId) (s : σ) (s' : τ) (e : ExecutionError), e.ofChoice = true →
      (strategy.consume resolver w m cs s).1 = .error e →
        strategy.consume other w m cs s' = (.error e, s')
  /-- Order and repetition make no difference. -/
  unordered : ∀ {σ : Type} (resolver : Resolver σ α) (cs cs' : List TransitionId) (s : σ),
    (∀ c, c ∈ cs ↔ c ∈ cs') →
      (strategy.Refuses resolver w m cs s ↔ strategy.Refuses resolver w m cs' s) ∧
        (¬ strategy.Refuses resolver w m cs s →
          strategy.consume resolver w m cs s = strategy.consume resolver w m cs' s)

namespace Workflow

theorem Consists.refuses_iff {w : Workflow α} {P : Piece α} (h : w.Consists P)
    {strategy : Strategy α} {m : Marking α} {σ : Type} {resolver : Resolver σ α}
    {cs : List TransitionId} {s : σ} :
    strategy.Refuses resolver w m cs s ↔ ¬ Agreed (strategy.choices w m) cs := by
  constructor
  · rintro ⟨e, hchoice, herror⟩ hagreed
    have hrefused := Strategy.refused_of_consume hchoice herror
    have hok : checkChoices w.net (strategy.choices w m) [] cs = .ok () :=
      h.checkChoices_eq_ok_iff.mpr hagreed
    rw [hok] at hrefused
    cases hrefused
  · intro hnot
    cases hcheck : checkChoices w.net (strategy.choices w m) [] cs with
    | ok => exact absurd (h.checkChoices_eq_ok_iff.mp hcheck) hnot
    | error e =>
        obtain ⟨_, _, _, -, -, hoffence⟩ := h.checkChoices_eq_error_iff.mp hcheck
        exact ⟨e, hoffence.ofChoice, congrArg Prod.fst (Strategy.consume_of_refused hcheck)⟩

theorem Consists.screens {w : Workflow α} {P : Piece α} (h : w.Consists P)
    (strategy : Strategy α) (m : Marking α) : w.Screens strategy m where
  refuses_iff resolver cs s := by
    rw [h.refuses_iff]
    refine (not_congr h.agreed_iff).trans ?_
    rw [not_and_or]
    push Not
    rfl
  first_iff resolver cs s e hchoice := by
    constructor
    · intro herror
      exact h.checkChoices_eq_error_iff.mp (Strategy.refused_of_consume hchoice herror)
    · intro hfirst
      have hrefused : checkChoices w.net (strategy.choices w m) [] cs = .error e :=
        h.checkChoices_eq_error_iff.mpr hfirst
      rw [Strategy.consume_of_refused hrefused]
  unasked resolver other cs s s' e hchoice herror :=
    Strategy.consume_of_refused (Strategy.refused_of_consume hchoice herror)
  unordered resolver cs cs' s hcs := by
    have hsame : Agreed (strategy.choices w m) cs ↔ Agreed (strategy.choices w m) cs' :=
      ⟨fun hagreed => hagreed.mono fun c hc => (hcs c).mpr hc,
        fun hagreed => hagreed.mono fun c hc => (hcs c).mp hc⟩
    rw [h.refuses_iff, h.refuses_iff, not_not]
    refine ⟨not_congr hsame, fun hagreed => ?_⟩
    exact Strategy.consume_congr hagreed hcs (h.checkChoices_eq_ok_iff.mpr hagreed)
      (h.checkChoices_eq_ok_iff.mpr (hsame.mp hagreed))

/-- In a compiled workflow, choices are accepted if they make sense, in any marking and any
order. -/
theorem screens_of_compile {r : Region α} {w : Workflow α} (h : compile r = .ok w)
    (strategy : Strategy α) (m : Marking α) : w.Screens strategy m := by
  obtain ⟨blk, n, -, hcompile, hproper, -⟩ := compile_of_validate (compile_eq_ok_iff.mp ⟨w, h⟩)
  obtain rfl := Except.ok.inj (hcompile.symm.trans h)
  obtain ⟨P, rfl, hP⟩ := exists_piece hproper
  exact hP.screens strategy m

/-- The choice in the loop is open. Of three choices the second one is for the same decision as the
first, and no resolver is asked; the same choice three times is as good as once. -/
theorem screens_sample : ∃ (w : Workflow Rat) (m : Marking Rat) (step : Step Rat),
    compile Region.sample = .ok w ∧
      (∃ before c after, [⟨19⟩, ⟨14⟩, ⟨99⟩] = before ++ c :: after ∧
        Timing.counter.Clear w.net m before ∧
          Timing.counter.Offence w.net m before c (.conflictingChoices ⟨10⟩ ⟨19⟩ ⟨14⟩)) ∧
      (∀ {τ : Type} (other : Resolver τ Rat) (s : τ),
        Strategy.consume ⟨.counter, 50⟩ other w m [⟨19⟩, ⟨14⟩, ⟨99⟩] s =
          (.error (.conflictingChoices ⟨10⟩ ⟨19⟩ ⟨14⟩), s)) ∧
      Strategy.consume ⟨.counter, 50⟩ (Resolver.fixed none) w m [⟨19⟩, ⟨99⟩, ⟨14⟩] () =
        (.error (.unknownTransition ⟨99⟩), ()) ∧
      Strategy.consume ⟨.counter, 50⟩ (Resolver.fixed none) w m [⟨3⟩] () =
        (.error (.invalidChoice ⟨3⟩), ()) ∧
      Strategy.consume ⟨.counter, 50⟩ (Resolver.fixed none) w m [⟨14⟩] () = (.ok step, ()) ∧
      Strategy.consume ⟨.counter, 50⟩ (Resolver.fixed none) w m [⟨14⟩, ⟨14⟩, ⟨14⟩] () =
        (.ok step, ()) := by
  obtain ⟨blk, -, -, hcompile, -⟩ := compile_of_validate Region.sample_valid
  generalize ofBlock blk = w at hcompile
  have hcheck : (match compile Region.sample with
      | .ok w => (w.net.replay [0, 1, 2, 3, 4] w.initial).any fun m =>
          let points := Timing.counter.decisionPoints w.net m
          decide (checkChoices w.net points [] [⟨19⟩, ⟨14⟩, ⟨99⟩] =
              .error (.conflictingChoices ⟨10⟩ ⟨19⟩ ⟨14⟩)) &&
            decide (checkChoices w.net points [] [⟨19⟩, ⟨99⟩, ⟨14⟩] =
              .error (.unknownTransition ⟨99⟩)) &&
            decide (checkChoices w.net points [] [⟨3⟩] = .error (.invalidChoice ⟨3⟩)) &&
            (Strategy.consume ⟨.counter, 50⟩ (Resolver.fixed none) w m [⟨14⟩] ()).1.isOk
      | .error _ => false) = true := by decide +kernel
  rw [hcompile] at hcheck
  obtain ⟨m, -, hcheck⟩ := (Option.any_eq_true _ _).mp hcheck
  simp only [Bool.and_eq_true, decide_eq_true_eq] at hcheck
  obtain ⟨⟨⟨hconflict, hunknown⟩, hinvalid⟩, hok⟩ := hcheck
  have hscreens := screens_of_compile hcompile ⟨.counter, 50⟩ m
  have hrefused : Strategy.consume ⟨.counter, 50⟩ (Resolver.fixed none) w m
      [⟨19⟩, ⟨14⟩, ⟨99⟩] () = (.error (.conflictingChoices ⟨10⟩ ⟨19⟩ ⟨14⟩), ()) :=
    Strategy.consume_of_refused hconflict
  have hanswer := congrArg Prod.fst hrefused
  cases hcall : Strategy.consume ⟨.counter, 50⟩ (Resolver.fixed none) w m [⟨14⟩] () with
  | mk answer s =>
      rw [hcall] at hok
      cases answer with
      | error e => cases hok
      | ok step =>
          have haccepted : ¬ Strategy.Refuses ⟨.counter, 50⟩ (Resolver.fixed none) w m
              [⟨14⟩] () := by
            rintro ⟨e, -, herror⟩
            rw [hcall] at herror
            cases herror
          have hsame := (hscreens.unordered (Resolver.fixed none) [⟨14⟩] [⟨14⟩, ⟨14⟩, ⟨14⟩] ()
            (by simp)).2 haccepted
          exact ⟨w, m, step, hcompile, (hscreens.first_iff _ _ _ _ rfl).mp hanswer,
            fun other s => hscreens.unasked _ other _ _ s _ rfl hanswer,
            Strategy.consume_of_refused hunknown, Strategy.consume_of_refused hinvalid, hcall,
            hsame.symm.trans hcall⟩

end Workflow

end RegionNet
