import RegionNet.Proofs.Chain

/-!
# Replays

A resolver has a say only in what nobody has chosen. What it is asked in a call, and what it says,
is kept as a list of inquiries (`Resolver.inquiries`); a call in which everything is chosen makes
none, and then nothing depends on the resolver (`Strategy.consume_of_covered`).

So a run that is written down can be run again. Whoever makes the answers of a call his own choices
gets the same step from any resolver (`Consists.consume_of_settled`), and call by call the same
simulation (`Consists.resume_of_log`).
-/

namespace RegionNet

variable {σ τ α : Type}

/-! ## What a resolver is asked -/

/-- A decision that nobody has chosen, and what the resolver says to it. -/
structure Inquiry where
  point : DecisionPoint
  answer : Option TransitionId
  deriving DecidableEq, Repr

/-- The answer is on offer. -/
def Inquiry.Settled (q : Inquiry) : Prop := ∃ t ∈ q.point.transitions, q.answer = some t

instance : DecidablePred Inquiry.Settled := fun q =>
  inferInstanceAs (Decidable (∃ t ∈ q.point.transitions, q.answer = some t))

namespace Resolver

/-- What the resolver is asked, decision by decision, and what it says. -/
def inquiries (resolver : Resolver σ α) (w : Workflow α) (m : Marking α)
    (choices : List TransitionId) : List DecisionPoint → σ → List Inquiry
  | [], _ => []
  | point :: points, s =>
    match choices.find? point.transitions.contains with
    | some _ => resolver.inquiries w m choices points s
    | none =>
      let (answer, s) := resolver.answer w point.place m s
      ⟨point, answer⟩ :: resolver.inquiries w m choices points s

variable {resolver : Resolver σ α} {w : Workflow α} {m : Marking α} {cs : List TransitionId}
  {d : DecisionPoint} {points : List DecisionPoint} {s : σ} {c : TransitionId}

theorem inquiries_cons_of_some (h : cs.find? d.transitions.contains = some c) :
    resolver.inquiries w m cs (d :: points) s = resolver.inquiries w m cs points s := by
  simp only [inquiries, h]

theorem inquiries_cons_of_none (h : cs.find? d.transitions.contains = none) :
    resolver.inquiries w m cs (d :: points) s =
      ⟨d, (resolver.answer w d.place m s).1⟩ ::
        resolver.inquiries w m cs points (resolver.answer w d.place m s).2 := by
  simp only [inquiries, h]

/-- The resolver is asked for the decisions for which nothing is chosen, in their order. -/
theorem points_inquiries : (resolver.inquiries w m cs points s).map Inquiry.point =
    points.filter fun d => ∀ t ∈ cs, t ∉ d.transitions := by
  induction points generalizing s with
  | nil => rfl
  | cons d points ih =>
      cases hfind : cs.find? d.transitions.contains with
      | none =>
          have hnone : ∀ t ∈ cs, t ∉ d.transitions := by simpa using List.find?_eq_none.mp hfind
          rw [inquiries_cons_of_none hfind, List.map_cons, ih, List.filter_cons,
            if_pos (decide_eq_true hnone)]
      | some c =>
          have hcd : c ∈ d.transitions := by simpa using List.find?_some hfind
          have hsome : ¬∀ t ∈ cs, t ∉ d.transitions :=
            fun hnone => hnone c (List.mem_of_find?_eq_some hfind) hcd
          rw [inquiries_cons_of_some hfind, ih, List.filter_cons, if_neg (by simpa using hsome)]

/-- Where a choice is made for every decision, the choices are taken and nobody is asked. -/
theorem select_of_covered (h : ∀ d ∈ points, ∃ t ∈ cs, t ∈ d.transitions) :
    resolver.select w m cs points s =
        (points.filterMap fun d => cs.find? d.transitions.contains, s) ∧
      resolver.inquiries w m cs points s = [] := by
  induction points with
  | nil => exact ⟨rfl, rfl⟩
  | cons d points ih =>
      obtain ⟨⟨t, ht, htd⟩, hpoints⟩ := List.forall_mem_cons.mp h
      obtain ⟨hselect, hnone⟩ := ih hpoints
      cases hfind : cs.find? d.transitions.contains with
      | none =>
          have hnot := List.find?_eq_none.mp hfind t ht
          simp [htd] at hnot
      | some c =>
          rw [select_cons_of_some hfind, inquiries_cons_of_some hfind, hselect, List.filterMap_cons,
            hfind]
          exact ⟨rfl, hnone⟩

/-- Where all answers are on offer, one transition is taken from each decision point, and those
taken are the ones chosen and the ones answered. -/
theorem forall₂_select_of_settled
    (hsame : ∀ d ∈ points, ∀ t ∈ cs, t ∈ d.transitions → ∀ u ∈ cs, u ∈ d.transitions → u = t)
    (h : ∀ q ∈ resolver.inquiries w m cs points s, q.Settled) :
    List.Forall₂ (fun d t => t ∈ d.transitions) points (resolver.select w m cs points s).1 ∧
      ∀ t, t ∈ (resolver.select w m cs points s).1 ↔
        (t ∈ cs ∧ ∃ d ∈ points, t ∈ d.transitions) ∨
          t ∈ (resolver.inquiries w m cs points s).filterMap Inquiry.answer := by
  induction points generalizing s with
  | nil => exact ⟨.nil, fun t => by simp [select, inquiries]⟩
  | cons d points ih =>
      obtain ⟨hd, hpoints⟩ := List.forall_mem_cons.mp hsame
      cases hfind : cs.find? d.transitions.contains with
      | some c =>
          rw [inquiries_cons_of_some hfind] at h ⊢
          rw [select_cons_of_some hfind]
          obtain ⟨hrest, hmem⟩ := ih hpoints h
          have hc : c ∈ cs := List.mem_of_find?_eq_some hfind
          have hcd : c ∈ d.transitions := by simpa using List.find?_some hfind
          refine ⟨.cons hcd hrest, fun t => ?_⟩
          have hfirst : t = c ↔ t ∈ cs ∧ t ∈ d.transitions :=
            ⟨fun ht => ht ▸ ⟨hc, hcd⟩, fun ht => hd c hc hcd t ht.1 ht.2⟩
          rw [List.mem_cons, hmem, List.exists_mem_cons_iff, and_or_left, ← hfirst, or_assoc]
      | none =>
          rw [inquiries_cons_of_none hfind] at h ⊢
          rw [select_cons_of_none hfind]
          obtain ⟨⟨c, hcd, hanswer⟩, hsettled⟩ := List.forall_mem_cons.mp h
          dsimp only at hanswer hcd
          obtain ⟨hrest, hmem⟩ := ih hpoints hsettled
          rw [hanswer, Option.filter_some, if_pos (by simpa using hcd), List.filterMap_cons]
          refine ⟨.cons hcd hrest, fun t => ?_⟩
          have hnot : ¬(t ∈ cs ∧ t ∈ d.transitions) := fun ht => by
            simpa [ht.2] using List.find?_eq_none.mp hfind t ht.1
          rw [Option.toList_some, List.singleton_append, List.mem_cons, hmem,
            List.exists_mem_cons_iff, and_or_left, or_iff_right hnot, List.mem_cons, or_left_comm]

end Resolver

/-! ## Calls -/

namespace Strategy

variable [Quantity α] {strategy : Strategy α} {w : Workflow α} {m : Marking α}
  {cs : List TransitionId}

/-- What the resolver is asked in a call. -/
def inquiries (strategy : Strategy α) (resolver : Resolver σ α) (w : Workflow α) (m : Marking α)
    (cs : List TransitionId) (s : σ) : List Inquiry :=
  resolver.inquiries w m cs (strategy.choices w m) s

/-- Where a choice is made for every decision, it makes no difference who would have been asked. -/
theorem consume_of_covered (h : ∀ d ∈ strategy.choices w m, ∃ t ∈ cs, t ∈ d.transitions) :
    ∃ outcome, ∀ (σ : Type) (resolver : Resolver σ α) (s : σ),
      strategy.consume resolver w m cs s = (outcome, s) ∧
        strategy.inquiries resolver w m cs s = [] := by
  refine ⟨(strategy.consume (Resolver.fixed none) w m cs ()).1, fun σ resolver s => ?_⟩
  refine ⟨?_, (Resolver.select_of_covered h).2⟩
  simp only [consume, Resolver.select_of_covered h]
  cases checkChoices w.net (strategy.choices w m) [] cs <;> rfl

end Strategy

namespace Workflow.Consists

variable [Quantity α] {w : Workflow α} {P : Piece α} {m : Marking α} {strategy : Strategy α}
  {resolver : Resolver σ α} {resolver' : Resolver τ α} {cs cs' : List TransitionId} {s s' : σ}
  {step : Step α}

/-- Where all answers are on offer, a call that is answered takes one transition from each decision
point, and it takes what was chosen and what was answered. -/
theorem taken_of_settled (h : w.Consists P)
    (hcall : strategy.consume resolver w m cs s = (.ok step, s'))
    (hsettled : ∀ q ∈ strategy.inquiries resolver w m cs s, q.Settled) :
    List.Forall₂ (fun d t => t ∈ d.transitions) (strategy.choices w m)
        (resolver.select w m cs (strategy.choices w m) s).1 ∧
      ∀ t, t ∈ (resolver.select w m cs (strategy.choices w m) s).1 ↔
        t ∈ cs ∨ t ∈ (strategy.inquiries resolver w m cs s).filterMap Inquiry.answer := by
  have hdisj : Disjoint (strategy.choices w m) := h.disjoint_decisionPoints
  obtain ⟨hchecked, -⟩ := Strategy.consume_eq_ok_iff.mp hcall
  obtain ⟨hoffers, hsame⟩ := of_checkChoices_eq_ok hdisj hchecked
  obtain ⟨hpoints, hmem⟩ := Resolver.forall₂_select_of_settled hsame hsettled
  refine ⟨hpoints, fun t => ?_⟩
  rw [hmem, and_iff_left_of_imp (hoffers t)]
  rfl

/-- A call gives the same step when its answers are chosen, whoever is there to be asked. -/
theorem consume_of_settled (h : w.Consists P)
    (hcall : strategy.consume resolver w m cs s = (.ok step, s'))
    (hsettled : ∀ q ∈ strategy.inquiries resolver w m cs s, q.Settled)
    (hcs' : ∀ t, t ∈ cs' ↔
      t ∈ cs ∨ t ∈ (strategy.inquiries resolver w m cs s).filterMap Inquiry.answer) (r : τ) :
    strategy.consume resolver' w m cs' r = (.ok step, r) := by
  have hdisj : Disjoint (strategy.choices w m) := h.disjoint_decisionPoints
  obtain ⟨-, -, rest, hsaturate, hstep⟩ := Strategy.consume_eq_ok_iff.mp hcall
  obtain ⟨hpoints, hmem⟩ := h.taken_of_settled hcall hsettled
  have htaken : ∀ t, t ∈ cs' ↔ t ∈ (resolver.select w m cs (strategy.choices w m) s).1 :=
    fun t => (hcs' t).trans (hmem t).symm
  have hselect : resolver'.select w m cs' (strategy.choices w m) r =
      ((resolver.select w m cs (strategy.choices w m) s).1, r) :=
    Resolver.select_of_settles hpoints hdisj htaken
  have hdecided : strategy.decided resolver' w m cs' r = strategy.decided resolver w m cs s := by
    unfold Strategy.decided
    rw [hselect]
  refine Strategy.consume_eq_ok_iff.mpr ⟨?_, ?_, rest, ?_, ?_⟩
  · exact checkChoices_of_settles ⟨_, hpoints, htaken⟩ hdisj fun d hd t ht =>
      h.isSome_of_mem_offered hd ht
  · rw [hselect]
  · rw [hdecided, hsaturate]
  · rw [hdecided, hstep]

end Workflow.Consists

/-! ## Runs -/

namespace Simulation

/-- What is written down about one call of a simulation. -/
structure Entry where
  /-- What was chosen for the call. -/
  choices : List TransitionId
  inquiries : List Inquiry
  /-- What took the decisions, chosen or answered. -/
  taken : List TransitionId
  deriving DecidableEq, Repr

/-- Every answer was on offer. -/
def Entry.Settled (e : Entry) : Prop := ∀ q ∈ e.inquiries, q.Settled

instance : DecidablePred Entry.Settled := fun e =>
  inferInstanceAs (Decidable (∀ q ∈ e.inquiries, q.Settled))

/-- The choices are, up to order and repetition, those of the entry and the answers to its
inquiries. -/
def Entry.Repeats (e : Entry) (cs : List TransitionId) : Prop :=
  ∀ t, t ∈ cs ↔ t ∈ e.choices ∨ t ∈ e.inquiries.filterMap Inquiry.answer

variable [Quantity α] {w : Workflow α} {strategy : Strategy α} {resolver : Resolver σ α}
  {scripted : List (List TransitionId)} {left n : Nat} {t : Exploration α} {s s' : σ}
  {step : Step α} {sim : Simulation α}

/-- What is written down about a call. -/
def entry (w : Workflow α) (strategy : Strategy α) (resolver : Resolver σ α) (m : Marking α)
    (cs : List TransitionId) (s : σ) : Entry :=
  ⟨cs, strategy.inquiries resolver w m cs s,
    (resolver.select w m cs (strategy.choices w m) s).1⟩

/-- What is written down about a simulation, call by call. -/
def log (w : Workflow α) (strategy : Strategy α) (resolver : Resolver σ α)
    (scripted : List (List TransitionId)) : Nat → Nat → Exploration α → σ → List Entry
  | left, steps, t, s =>
    let m := t.current.snapshot.marking
    if w.isFinal m then []
    else
      match left with
      | 0 => []
      | left + 1 =>
        entry w strategy resolver m (scripted.getD steps []) s ::
          match strategy.consume resolver w m (scripted.getD steps []) s with
          | (.error _, _) => []
          | (.ok step, s) =>
            if step.marking == m then []
            else log w strategy resolver scripted left (steps + 1) (t.record w step true).2 s

theorem log_of_call (hgoing : w.isFinal t.current.snapshot.marking = false)
    (hcall : strategy.consume resolver w t.current.snapshot.marking (scripted.getD n []) s =
      (.ok step, s')) :
    log w strategy resolver scripted (left + 1) n t s =
      entry w strategy resolver t.current.snapshot.marking (scripted.getD n []) s ::
        if step.marking == t.current.snapshot.marking then []
        else log w strategy resolver scripted left (n + 1) (t.record w step true).2 s' := by
  rw [log]
  simp only [hgoing, Bool.false_eq_true, if_false, hcall]

/-- What is written down about a simulation that is answered is about calls that were answered. -/
theorem exists_call_of_mem_log {left : Nat} : ∀ {n : Nat} {t : Exploration α} {s : σ},
    resume w (strategy.consume resolver w) scripted left n t s = .ok sim →
      ∀ e ∈ log w strategy resolver scripted left n t s, ∃ m cs s step s',
        strategy.consume resolver w m cs s = (.ok step, s') ∧ e = entry w strategy resolver m cs s := by
  induction left with
  | zero =>
      intro n t s _ e he
      unfold log at he
      simp at he
  | succ left ih =>
      intro n t s hsim e he
      cases hgoing : w.isFinal t.current.snapshot.marking with
      | true =>
          unfold log at he
          simp [hgoing] at he
      | false =>
          obtain ⟨step, s', hcall⟩ := exists_step_of_resume hgoing hsim
          rw [resume_of_call hgoing hcall] at hsim
          rw [log_of_call hgoing hcall] at he
          rcases List.mem_cons.mp he with rfl | he
          · exact ⟨_, _, s, step, s', hcall, rfl⟩
          · split at he
            · cases he
            · next hmoved =>
                rw [if_neg hmoved] at hsim
                exact ih hsim e he

end Simulation

namespace Workflow.Consists

open Simulation

variable [Quantity α] {w : Workflow α} {P : Piece α} {strategy : Strategy α}
  {resolver : Resolver σ α} {resolver' : Resolver τ α} {scripted script : List (List TransitionId)}
  {sim : Simulation α}

/-- A simulation comes out the same when the answers are chosen call by call, whoever is there to be
asked. -/
theorem resume_of_log (h : w.Consists P) {left : Nat} : ∀ {n : Nat} {t : Exploration α} {s : σ},
    resume w (strategy.consume resolver w) scripted left n t s = .ok sim →
      List.Forall₂ (fun e cs => e.Settled ∧ e.Repeats cs)
        (log w strategy resolver scripted left n t s) (script.drop n) →
      ∀ r : τ, resume w (strategy.consume resolver' w) script left n t r = .ok sim := by
  -- induction on the calls that may follow; the script loses its first list with each of them
  induction left with
  | zero =>
      intro n t s hsim _ r
      unfold resume at hsim ⊢
      exact hsim
  | succ left ih =>
      intro n t s hsim hlog r
      cases hgoing : w.isFinal t.current.snapshot.marking with
      | true => exact (resume_of_final hgoing).trans ((resume_of_final hgoing).symm.trans hsim)
      | false =>
          obtain ⟨step, s', hcall⟩ := exists_step_of_resume hgoing hsim
          rw [resume_of_call hgoing hcall] at hsim
          rw [log_of_call hgoing hcall] at hlog
          obtain ⟨cs, rest, ⟨hsettled, hrepeats⟩, hrest, hscript⟩ :=
            List.forall₂_cons_left_iff.mp hlog
          have hcs : script.getD n [] = cs := by
            rw [List.getD_eq_getElem?_getD, ← Nat.add_zero n, ← List.getElem?_drop, hscript]
            rfl
          have hdrop : script.drop (n + 1) = rest := by
            rw [← List.drop_drop, hscript]
            rfl
          rw [resume_of_call hgoing (hcs ▸ h.consume_of_settled hcall hsettled hrepeats r)]
          split at hsim
          · next hsame => rwa [if_pos hsame]
          · next hmoved =>
              rw [if_neg hmoved]
              rw [if_neg hmoved, ← hdrop] at hrest
              exact ih hsim hrest r

/-- What took the decisions of a call repeats it. -/
theorem repeats_taken (h : w.Consists P) {left n : Nat} {t : Exploration α} {s : σ}
    (hsim : resume w (strategy.consume resolver w) scripted left n t s = .ok sim) {e : Entry}
    (he : e ∈ log w strategy resolver scripted left n t s) (hsettled : e.Settled) :
    e.Repeats e.taken := by
  obtain ⟨m, cs, s, step, s', hcall, rfl⟩ := exists_call_of_mem_log hsim e he
  exact (h.taken_of_settled hcall hsettled).2

end Workflow.Consists

/-! ## The statement -/

/-- What is written down can be run again. -/
structure Workflow.Replays [Quantity α] (w : Workflow α) : Prop where
  /-- The resolver is asked for every open decision for which nothing is chosen, and for no other. -/
  asked : ∀ (σ : Type) (strategy : Strategy α) (resolver : Resolver σ α) (m : Marking α)
    (cs : List TransitionId) (s : σ),
    (strategy.inquiries resolver w m cs s).map Inquiry.point =
      (strategy.choices w m).filter fun d => ∀ t ∈ cs, t ∉ d.transitions
  /-- Whoever chooses, besides the choices of a call, the answers that it was given, gets the same
  step from any resolver. -/
  call : ∀ (σ τ : Type) (strategy : Strategy α) (resolver : Resolver σ α) (resolver' : Resolver τ α)
    (m : Marking α) (cs : List TransitionId) (s s' : σ) (r : τ) (step : Step α),
    strategy.consume resolver w m cs s = (.ok step, s') →
    (∀ q ∈ strategy.inquiries resolver w m cs s, ∃ t ∈ q.point.transitions, q.answer = some t) →
    strategy.consume resolver' w m
      (cs ++ (strategy.inquiries resolver w m cs s).filterMap Inquiry.answer) r = (.ok step, r)
  /-- Where everything is chosen, nobody is asked, whether the call fails or not. -/
  covered : ∀ (strategy : Strategy α) (m : Marking α) (cs : List TransitionId),
    (∀ d ∈ strategy.choices w m, ∃ t ∈ cs, t ∈ d.transitions) →
    ∃ outcome, ∀ (σ : Type) (resolver : Resolver σ α) (s : σ),
      strategy.consume resolver w m cs s = (outcome, s) ∧
        strategy.inquiries resolver w m cs s = []
  run : ∀ (σ τ : Type) (strategy : Strategy α) (resolver : Resolver σ α) (resolver' : Resolver τ α)
    (maxSteps : Nat) (scripted script : List (List TransitionId)) (s : σ) (r : τ)
    (sim : Simulation α),
    w.simulate strategy resolver maxSteps scripted s = .ok sim →
    List.Forall₂ (fun e cs => e.Settled ∧ e.Repeats cs)
      (Simulation.log w strategy resolver scripted maxSteps 0 (.start w) s) script →
    w.simulate strategy resolver' maxSteps script r = .ok sim
  /-- In particular with the transitions that were taken. -/
  taken : ∀ (σ τ : Type) (strategy : Strategy α) (resolver : Resolver σ α)
    (resolver' : Resolver τ α) (maxSteps : Nat) (scripted : List (List TransitionId)) (s : σ)
    (r : τ) (sim : Simulation α),
    w.simulate strategy resolver maxSteps scripted s = .ok sim →
    (∀ e ∈ Simulation.log w strategy resolver scripted maxSteps 0 (.start w) s, e.Settled) →
    w.simulate strategy resolver' maxSteps
      ((Simulation.log w strategy resolver scripted maxSteps 0 (.start w) s).map
        Simulation.Entry.taken) r = .ok sim

/-- A run of a compiled process can be written down and run again. -/
theorem Workflow.replays_of_validate [Quantity α] {r : Region α} (h : r.validate = .ok ()) :
    ∃ w, Workflow.compile r = .ok w ∧ w.Replays := by
  obtain ⟨blk, n, -, hcompile, hproper, -⟩ := Workflow.compile_of_validate h
  obtain ⟨P, rfl, hP⟩ := Workflow.exists_piece hproper
  refine ⟨_, hcompile, fun σ strategy resolver m cs s => Resolver.points_inquiries, ?_,
    fun strategy m cs => Strategy.consume_of_covered, ?_, ?_⟩
  · intro σ τ strategy resolver resolver' m cs s s' r step hcall hsettled
    exact hP.consume_of_settled hcall hsettled (fun t => List.mem_append) r
  · intro σ τ strategy resolver resolver' maxSteps scripted script s r sim hsim hlog
    exact hP.resume_of_log hsim hlog r
  · intro σ τ strategy resolver resolver' maxSteps scripted s r sim hsim hsettled
    refine hP.resume_of_log hsim ?_ r
    refine List.forall₂_map_right_iff.mpr (List.forall₂_same.mpr fun e he => ?_)
    exact ⟨hsettled e he, hP.repeats_taken hsim he (hsettled e he)⟩

/-- With branch `draw` chosen and the rest answered, the process ends after four calls. It does so
again with all that was taken as choices and a resolver that never has an answer. -/
theorem Workflow.replays_sample : ∃ w sim, Workflow.compile Region.sample = .ok w ∧
    w.simulate ⟨.counter, 50⟩ (Resolver.byDefault Cycle.source) 10 [[], [⟨19⟩]]
      (Cycle.ofWords [0, 18446744073709551615]) = .ok sim ∧
    sim.stop = .completed ∧ sim.steps = 4 ∧
    w.simulate ⟨.counter, 50⟩ (Resolver.fixed none) 10 [[], [⟨19⟩], [⟨22⟩], [⟨34⟩]] () =
      .ok sim := by
  obtain ⟨w, hcompile, hreplays⟩ := Workflow.replays_of_validate Region.sample_valid
  have hcheck : (match Workflow.compile Region.sample with
      | .ok w =>
        let resolver := Resolver.byDefault Cycle.source
        let words := Cycle.ofWords [0, 18446744073709551615]
        let log := Simulation.log w ⟨.counter, 50⟩ resolver [[], [⟨19⟩]] 10 0 (.start w) words
        log.all (fun e => e.Settled) &&
          log.map Simulation.Entry.taken == [[], [⟨19⟩], [⟨22⟩], [⟨34⟩]] &&
          match w.simulate ⟨.counter, 50⟩ resolver 10 [[], [⟨19⟩]] words with
          | .ok sim => sim.stop == .completed && sim.steps == 4
          | .error _ => false
      | .error _ => false) = true := by decide +kernel
  rw [hcompile] at hcheck
  simp only [Bool.and_eq_true, List.all_eq_true, decide_eq_true_eq, beq_iff_eq] at hcheck
  obtain ⟨⟨hsettled, htaken⟩, hsim⟩ := hcheck
  split at hsim
  · next sim hrun =>
      simp only [Bool.and_eq_true, beq_iff_eq] at hsim
      have hagain := hreplays.taken _ _ _ _ (Resolver.fixed none) _ _ _ () sim hrun hsettled
      rw [htaken] at hagain
      exact ⟨w, sim, hcompile, hrun, hsim.1, hsim.2, hagain⟩
  · cases hsim

end RegionNet
