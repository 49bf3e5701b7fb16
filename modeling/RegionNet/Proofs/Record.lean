import RegionNet.Proofs.Ancestry
import RegionNet.Proofs.Chain

/-!
# The record of a simulation

A simulation keeps to the tip of its exploration: it is nowhere but at the last node, which has no
children, so a step that leads on is never absorbed and never meets a known child
(`Exploration.Straight.record_eq`). What it leaves behind is one path.

Anything may execute the steps. What a simulation asks of it is told by what comes of the answers:
whoever answers the same calls alike makes for the same simulation, and whoever refuses one of them
ends it there (`Simulation.Makes`). The calls are those about the nodes of the path, in their order,
each with its list of the script (`Simulation.records_of_run`).
-/

namespace RegionNet

variable {σ α : Type}

namespace Exploration

/-! ## Paths -/

/-- Every node but the first is the only child of the one before it, and the cursor is at the last
one. -/
structure Straight (t : Exploration α) : Prop where
  cursor : t.cursor + 1 = t.nodes.length
  children : ∀ k, t.children k = if k + 1 < t.nodes.length then [k + 1] else []

namespace Straight

variable {t : Exploration α}

theorem ofRoot (x : Snapshot α) : (ofRoot x).Straight := by
  refine ⟨rfl, fun k => ?_⟩
  have hshort : ¬k + 1 < (Exploration.ofRoot x).nodes.length := by simp [Exploration.ofRoot]
  rw [if_neg hshort]
  cases k <;> rfl

theorem children_cursor (h : t.Straight) : t.children t.cursor = [] := by
  rw [h.children, if_neg (Nat.not_lt.mpr (Nat.le_of_eq h.cursor.symm))]

variable [Quantity α] {w : Workflow α}

/-- At the tip there is no child that could have the marking already. -/
theorem record_eq (h : t.Straight) (hgoing : w.isFinal t.current.snapshot.marking = false)
    (step : Step α) :
    (t.record w step true).2 = (t.grow (t.current.snapshot.extend w step)).moveTo (t.cursor + 1) := by
  have hnew : t.childWith step.marking = none := by
    rw [childWith_eq_none_iff, h.children_cursor]
    simp
  rw [record_of_new hgoing hnew, h.cursor]
  rfl

variable (h : t.Straight) (hgoing : w.isFinal t.current.snapshot.marking = false) (step : Step α)

include h hgoing

theorem cursor_record : (t.record w step true).2.cursor = t.cursor + 1 := by
  rw [h.record_eq hgoing]
  refine cursor_moveTo ?_
  rw [length_grow, h.cursor]
  exact Nat.lt_succ_self _

theorem length_record :
    (t.record w step true).2.nodes.length = t.nodes.length + 1 := by
  rw [h.record_eq hgoing, nodes_moveTo, length_grow]

theorem snapshot?_record :
    (t.record w step true).2.snapshot? (t.cursor + 1) =
      some (t.current.snapshot.extend w step) := by
  rw [h.record_eq hgoing]
  refine (snapshot?_follow _ true _ _).trans ?_
  rw [snapshot?_grow, if_pos h.cursor]

/-- A path is continued where it ends. -/
theorem record : (t.record w step true).2.Straight := by
  refine ⟨?_, fun k => ?_⟩
  · rw [h.cursor_record hgoing, h.length_record hgoing, h.cursor]
  · have hchildren : (t.record w step true).2.children k =
        (t.grow (t.current.snapshot.extend w step)).children k := by
      rw [h.record_eq hgoing]
      unfold Exploration.children
      rw [node?_moveTo]
    rw [hchildren, children_grow, h.children, h.length_record hgoing, ← h.cursor]
    by_cases hk : k = t.cursor
    · simp [hk]
    · have hlt : k + 1 < t.cursor + 1 ↔ k + 1 < t.cursor + 1 + 1 := by omega
      rw [if_neg hk]
      simp only [hlt]

end Straight

end Exploration

namespace Simulation

open Exploration

/-! ## Calls -/

/-- A call that was answered: what it was about, and the step that came of it. -/
structure Call (α : Type) where
  marking : Marking α
  choices : List TransitionId
  step : Step α

/-- The executor answers the calls one after the other, which takes it from one state to another. -/
inductive Answers (execute : Executor σ α) : σ → List (Call α) → σ → Prop where
  | nil (s : σ) : Answers execute s [] s
  | cons {s s' s'' : σ} {c : Call α} {cs : List (Call α)}
      (answer : execute c.marking c.choices s = (.ok c.step, s')) (rest : Answers execute s' cs s'') :
      Answers execute s (c :: cs) s''

theorem Answers.concat {execute : Executor σ α} {s s' s'' : σ} {c : Call α} {cs : List (Call α)}
    (h : Answers execute s cs s') (hlast : execute c.marking c.choices s' = (.ok c.step, s'')) :
    Answers execute s (cs ++ [c]) s'' := by
  induction h with
  | nil => exact .cons hlast (.nil _)
  | cons hanswer _ ih => exact .cons hanswer (ih hlast)

theorem Answers.of_concat {execute : Executor σ α} {s s'' : σ} {c : Call α} {cs : List (Call α)}
    (h : Answers execute s (cs ++ [c]) s'') :
    ∃ s', Answers execute s cs s' ∧ execute c.marking c.choices s' = (.ok c.step, s'') := by
  induction cs generalizing s with
  | nil =>
      obtain _ | ⟨hanswer, ⟨⟩⟩ := h
      exact ⟨s, .nil s, hanswer⟩
  | cons d cs ih =>
      obtain _ | ⟨hanswer, hrest⟩ := h
      obtain ⟨s', hs', hlast⟩ := ih hrest
      exact ⟨s', .cons hanswer hs', hlast⟩

variable [Quantity α]

/-- Where a simulation stands after `n` steps, this is what it asks next. -/
structure Asks (w : Workflow α) (scripted : List (List TransitionId)) (n : Nat) (t : Exploration α)
    (c : Call α) : Prop where
  going : w.isFinal t.current.snapshot.marking = false
  marking : c.marking = t.current.snapshot.marking
  choices : c.choices = scripted.getD n []

/-- Calls that lead from one exploration, after `n` steps, to another one: each is what is asked
next, and its step leads on and is recorded. -/
inductive Leads (w : Workflow α) (scripted : List (List TransitionId)) :
    Nat → Exploration α → List (Call α) → Exploration α → Prop where
  | nil (n : Nat) (t : Exploration α) : Leads w scripted n t [] t
  | cons {n : Nat} {t t' : Exploration α} {c : Call α} {cs : List (Call α)}
      (asks : Asks w scripted n t c)
      (moved : (c.step.marking == t.current.snapshot.marking) = false)
      (rest : Leads w scripted (n + 1) (t.record w c.step true).2 cs t') :
      Leads w scripted n t (c :: cs) t'

/-- How a simulation ends after `n` steps, with at most `left` more to come. -/
inductive Ends (w : Workflow α) (execute : Executor σ α) (scripted : List (List TransitionId))
    (t : Exploration α) (s : σ) (n : Nat) : Nat → Simulation α → Prop where
  | completed {left : Nat} (final : w.isFinal t.current.snapshot.marking = true) :
      Ends w execute scripted t s n left ⟨t, n, .completed⟩
  | stepLimit (going : w.isFinal t.current.snapshot.marking = false) :
      Ends w execute scripted t s n 0 ⟨t, n, .stepLimit⟩
  | deadlock {left : Nat} {c : Call α} {s' : σ} (asks : Asks w scripted n t c)
      (answer : execute c.marking c.choices s = (.ok c.step, s'))
      (still : (c.step.marking == t.current.snapshot.marking) = true) :
      Ends w execute scripted t s n (left + 1) ⟨t, n + 1, .deadlock⟩

variable {w : Workflow α} {execute : Executor σ α} {scripted : List (List TransitionId)}
  {n left : Nat} {t t' : Exploration α} {s s' : σ} {c : Call α} {cs : List (Call α)}
  {sim : Simulation α}

theorem resume_of_asks (hasks : Asks w scripted n t c)
    (hanswer : execute c.marking c.choices s = (.ok c.step, s')) :
    resume w execute scripted (left + 1) n t s =
      if c.step.marking == t.current.snapshot.marking then .ok ⟨t, n + 1, .deadlock⟩
      else resume w execute scripted left (n + 1) (t.record w c.step true).2 s' := by
  rw [hasks.marking, hasks.choices] at hanswer
  exact resume_of_call hasks.going hanswer

theorem resume_of_refusal {e : ExecutionError} (hasks : Asks w scripted n t c)
    (hrefusal : execute c.marking c.choices s = (.error e, s')) :
    resume w execute scripted (left + 1) n t s = .error ⟨n, e⟩ := by
  rw [hasks.marking, hasks.choices] at hrefusal
  rw [resume]
  simp only [hasks.going, Bool.false_eq_true, if_false, hrefusal]

/-- Calls that are answered bring a simulation to where they lead. -/
theorem Leads.resume_eq (h : Leads w scripted n t cs t') (hanswers : Answers execute s cs s') :
    resume w execute scripted (left + cs.length) n t s =
      resume w execute scripted left (n + cs.length) t' s' := by
  induction h generalizing s with
  | nil n t =>
      cases hanswers
      rfl
  | cons hasks hmoved _ ih =>
      obtain _ | ⟨hanswer, hrest⟩ := hanswers
      rw [List.length_cons, ← Nat.add_assoc, resume_of_asks hasks hanswer,
        if_neg (Bool.eq_false_iff.mp hmoved), ih hrest, Nat.add_assoc, Nat.add_comm 1]

theorem Ends.resume_eq (h : Ends w execute scripted t s n left sim) :
    resume w execute scripted left n t s = .ok sim := by
  cases h with
  | completed hfinal => exact resume_of_final hfinal
  | stepLimit hgoing =>
      unfold resume
      simp only [hgoing, Bool.false_eq_true, if_false]
  | deadlock hasks hanswer hstill => rw [resume_of_asks hasks hanswer, if_pos hstill]

/-- A simulation that is answered consists of calls that lead on, and an end. -/
theorem exists_leads : ∀ {n : Nat} {t : Exploration α} {s : σ},
    resume w execute scripted left n t s = .ok sim → ∃ cs t' s' rest, rest + cs.length = left ∧
      Leads w scripted n t cs t' ∧ Answers execute s cs s' ∧
      Ends w execute scripted t' s' (n + cs.length) rest sim := by
  induction left with
  | zero =>
      intro n t s h
      refine ⟨[], t, s, 0, rfl, .nil n t, .nil s, ?_⟩
      cases hfinal : w.isFinal t.current.snapshot.marking with
      | true =>
          obtain rfl := Except.ok.inj ((resume_of_final hfinal).symm.trans h)
          exact .completed hfinal
      | false =>
          obtain rfl := Except.ok.inj ((Ends.stepLimit hfinal).resume_eq.symm.trans h)
          exact .stepLimit hfinal
  | succ left ih =>
      intro n t s h
      cases hfinal : w.isFinal t.current.snapshot.marking with
      | true =>
          obtain rfl := Except.ok.inj ((resume_of_final hfinal).symm.trans h)
          exact ⟨[], t, s, _, rfl, .nil n t, .nil s, .completed hfinal⟩
      | false =>
          obtain ⟨step, s', hanswer⟩ := exists_step_of_resume hfinal h
          have hasks : Asks w scripted n t ⟨_, _, step⟩ := ⟨hfinal, rfl, rfl⟩
          rw [resume_of_asks hasks hanswer] at h
          cases hmoved : step.marking == t.current.snapshot.marking with
          | true =>
              rw [if_pos hmoved] at h
              obtain rfl := Except.ok.inj h
              exact ⟨[], t, s, _, rfl, .nil n t, .nil s, .deadlock hasks hanswer hmoved⟩
          | false =>
              rw [if_neg (Bool.eq_false_iff.mp hmoved)] at h
              obtain ⟨cs, t', s'', rest, hrest, hleads, hanswers, hends⟩ := ih h
              rw [Nat.add_assoc, Nat.add_comm 1, ← List.length_cons] at hends
              exact ⟨_ :: cs, t', s'', rest, by rw [List.length_cons, ← hrest, Nat.add_assoc],
                .cons hasks hmoved hleads, .cons hanswer hanswers, hends⟩

/-! ## What calls leave behind -/

namespace Leads

theorem later (h : Leads w scripted n t cs t') : Later w t t' := by
  induction h with
  | nil => exact .refl
  | cons _ _ _ ih => exact (Later.record .refl _ _).trans ih

/-- Every call adds one node to the path. -/
theorem straight (h : Leads w scripted n t cs t') (ht : t.Straight) :
    t'.Straight ∧ t'.nodes.length = t.nodes.length + cs.length := by
  induction h with
  | nil => exact ⟨ht, rfl⟩
  | cons hasks _ _ ih =>
      obtain ⟨hstraight, hlength⟩ := ih (ht.record hasks.going _)
      refine ⟨hstraight, ?_⟩
      rw [hlength, ht.length_record hasks.going, List.length_cons, Nat.add_assoc, Nat.add_comm 1]

/-- A call is asked where those before it lead, and from there the simulation goes on. -/
theorem asked (h : Leads w scripted n t cs t') {i : Nat} (hi : cs[i]? = some c) :
    ∃ t'', Leads w scripted n t (cs.take i) t'' ∧ Asks w scripted (n + i) t'' c ∧
      Later w (t''.record w c.step true).2 t' := by
  induction h generalizing i with
  | nil => cases hi
  | @cons n t t' d cs hasks hmoved hrest ih =>
      cases i with
      | zero =>
          obtain rfl := Option.some.inj hi
          exact ⟨t, .nil n t, hasks, hrest.later⟩
      | succ i =>
          obtain ⟨t'', hleads, hnext, hlater⟩ := ih hi
          rw [Nat.add_assoc, Nat.add_comm 1] at hnext
          exact ⟨t'', .cons hasks hmoved hleads, hnext, hlater⟩

end Leads

/-! ## The statement -/

/-- The calls are those that a simulation makes: each is about the node of its number, and nothing
else that an executor may do is of any weight. -/
structure Makes (w : Workflow α) (maxSteps : Nat) (scripted : List (List TransitionId))
    (sim : Simulation α) (calls : List (Call α)) : Prop where
  length : calls.length = sim.steps
  marking : ∀ i c, calls[i]? = some c →
    (sim.exploration.snapshot? i).map Snapshot.marking = some c.marking
  /-- Beyond the end of the script nothing is chosen. -/
  choices : ∀ i c, calls[i]? = some c → c.choices = scripted.getD i []
  /-- The next node is what came of the call, if there is one. -/
  found : ∀ i c x, calls[i]? = some c → i + 1 < sim.exploration.nodes.length →
    sim.exploration.snapshot? i = some x →
      sim.exploration.snapshot? (i + 1) = some (x.extend w c.step)
  alike : ∀ (τ : Type) (execute : Executor τ α) (r r' : τ), Answers execute r calls r' →
    run w execute maxSteps scripted r = .ok sim
  refused : ∀ (τ : Type) (execute : Executor τ α) (r r' r'' : τ) i c e, calls[i]? = some c →
    Answers execute r (calls.take i) r' → execute c.marking c.choices r' = (.error e, r'') →
      run w execute maxSteps scripted r = .error ⟨i, e⟩

/-- What a simulation leaves behind that is answered. -/
structure Records (w : Workflow α) (execute : Executor σ α) (maxSteps : Nat)
    (scripted : List (List TransitionId)) (s : σ) (sim : Simulation α) : Prop where
  steps_le : sim.steps ≤ maxSteps
  rooted : sim.exploration.Rooted
  straight : sim.exploration.Straight
  length : sim.exploration.nodes.length =
    match sim.stop with
    | .completed | .stepLimit => sim.steps + 1
    | .deadlock => sim.steps
  completed : sim.stop = .completed ↔
    w.isFinal sim.exploration.current.snapshot.marking = true
  stepLimit : sim.stop = .stepLimit → sim.steps = maxSteps ∧
    w.isFinal sim.exploration.current.snapshot.marking = false
  calls : ∃ calls s', Answers execute s calls s' ∧ Makes w maxSteps scripted sim calls

variable {maxSteps : Nat} {calls : List (Call α)}

/-- Calls of a simulation are told by where they are asked. -/
theorem makes_of_asked (hlength : calls.length = sim.steps) (hle : sim.steps ≤ maxSteps)
    (hasked : ∀ i c, calls[i]? = some c → ∃ t, Leads w scripted 0 (.start w) (calls.take i) t ∧
      Asks w scripted i t c ∧ Later w t sim.exploration ∧
      (i + 1 < sim.exploration.nodes.length →
        Later w (t.record w c.step true).2 sim.exploration))
    (halike : ∀ (τ : Type) (execute : Executor τ α) (r r' : τ), Answers execute r calls r' →
      run w execute maxSteps scripted r = .ok sim) :
    Makes w maxSteps scripted sim calls := by
  have hpath : ∀ {i t}, i < calls.length → Leads w scripted 0 (.start w) (calls.take i) t →
      t.Straight ∧ t.cursor = i := by
    intro i t hi hleads
    obtain ⟨hstraight, htip⟩ := hleads.straight (.ofRoot _)
    have hcursor : t.cursor + 1 = 1 + (calls.take i).length := hstraight.cursor.trans htip
    rw [List.length_take_of_le (Nat.le_of_lt hi)] at hcursor
    exact ⟨hstraight, by omega⟩
  have hlt : ∀ {i c}, calls[i]? = some c → i < calls.length := fun hi =>
    (List.getElem?_eq_some_iff.mp hi).1
  refine ⟨hlength, ?_, ?_, ?_, halike, ?_⟩
  · intro i c hi
    obtain ⟨t, hleads, hasks, hlater, -⟩ := hasked i c hi
    obtain ⟨-, rfl⟩ := hpath (hlt hi) hleads
    rw [hlater.snapshot? t.snapshot?_cursor, hasks.marking]
    rfl
  · intro i c hi
    obtain ⟨t, -, hasks, -⟩ := hasked i c hi
    exact hasks.choices
  · intro i c x hi hmore hx
    obtain ⟨t, hleads, hasks, hlater, hrest⟩ := hasked i c hi
    obtain ⟨hstraight, rfl⟩ := hpath (hlt hi) hleads
    obtain rfl := Option.some.inj ((hlater.snapshot? t.snapshot?_cursor).symm.trans hx)
    exact (hrest hmore).snapshot? (hstraight.snapshot?_record hasks.going _)
  · intro τ execute r r' r'' i c e hi hanswers hrefusal
    obtain ⟨t, hleads, hasks, -⟩ := hasked i c hi
    have htake := List.length_take_of_le (Nat.le_of_lt (hlt hi))
    obtain ⟨left, hleft⟩ : ∃ left, maxSteps = left + 1 + (calls.take i).length :=
      ⟨maxSteps - (i + 1), by have := hlt hi; omega⟩
    rw [run, hleft, hleads.resume_eq hanswers, htake, Nat.zero_add]
    exact resume_of_refusal hasks hrefusal

namespace Leads

variable {rest : Nat} {stop : StopReason}

theorem asked_later (h : Leads w scripted 0 (.start w) cs t) {i : Nat} (hi : cs[i]? = some c) :
    ∃ t', Leads w scripted 0 (.start w) (cs.take i) t' ∧ Asks w scripted i t' c ∧ Later w t' t ∧
      (i + 1 < t.nodes.length → Later w (t'.record w c.step true).2 t) := by
  obtain ⟨t', hleads, hasks, hlater⟩ := h.asked hi
  rw [Nat.zero_add] at hasks
  exact ⟨t', hleads, hasks, (Later.record .refl _ _).trans hlater, fun _ => hlater⟩

/-- A simulation that ends without asking again has made the calls that lead to its end. -/
theorem makes (h : Leads w scripted 0 (.start w) cs t)
    (hends : ∀ (τ : Type) (execute : Executor τ α) (r : τ),
      Ends w execute scripted t r cs.length rest ⟨t, cs.length, stop⟩) :
    Makes w (rest + cs.length) scripted ⟨t, cs.length, stop⟩ cs := by
  refine makes_of_asked rfl (Nat.le_add_left _ _) (fun i c hi => h.asked_later hi) ?_
  intro τ execute r r' hanswers
  rw [run, h.resume_eq hanswers, Nat.zero_add]
  exact (hends τ execute r').resume_eq

/-- A simulation that is stuck has made one more call, and found no node by it. -/
theorem makes_concat (h : Leads w scripted 0 (.start w) cs t) (hasks : Asks w scripted cs.length t c)
    (hstill : (c.step.marking == t.current.snapshot.marking) = true) :
    Makes w (rest + 1 + cs.length) scripted ⟨t, cs.length + 1, .deadlock⟩ (cs ++ [c]) := by
  have hle : cs.length + 1 ≤ rest + 1 + cs.length := by omega
  refine makes_of_asked (by simp) hle (fun i d hi => ?_) ?_
  · by_cases hlt : i < cs.length
    · rw [List.getElem?_append_left hlt] at hi
      rw [List.take_append_of_le_length (Nat.le_of_lt hlt)]
      exact h.asked_later hi
    · obtain rfl : i = cs.length := by
        have := (List.getElem?_eq_some_iff.mp hi).1
        rw [List.length_append, List.length_singleton] at this
        omega
      rw [List.getElem?_concat_length] at hi
      obtain rfl := Option.some.inj hi
      rw [List.take_left]
      have hnodes := (h.straight (.ofRoot _)).2.trans (Nat.add_comm 1 _)
      exact ⟨t, h, hasks, .refl, fun hmore => absurd hnodes (Nat.ne_of_gt hmore)⟩
  · intro τ execute r r' hanswers
    obtain ⟨r'', hr, hlast⟩ := hanswers.of_concat
    rw [run, h.resume_eq hr, Nat.zero_add]
    exact (Ends.deadlock hasks hlast hstill).resume_eq

end Leads

/-- Whoever executes the steps of a simulation, it records one path, by one call for each step. -/
theorem records_of_run (h : run w execute maxSteps scripted s = .ok sim) :
    Records w execute maxSteps scripted s sim := by
  obtain ⟨cs, t, s', rest, rfl, hleads, hanswers, hends⟩ := exists_leads h
  obtain ⟨hstraight, hlength⟩ := hleads.straight (.ofRoot _)
  have hrooted : t.Rooted := hleads.later.rooted (.ofRoot _)
  have hnodes : t.nodes.length = cs.length + 1 := hlength.trans (Nat.add_comm 1 _)
  rw [Nat.zero_add] at hends
  cases hends with
  | completed hfinal =>
      refine ⟨Nat.le_add_left _ _, hrooted, hstraight, hnodes, ?_, by simp, cs, s', hanswers, ?_⟩
      · exact ⟨fun _ => hfinal, fun _ => rfl⟩
      · exact hleads.makes fun _ _ _ => .completed hfinal
  | stepLimit hgoing =>
      refine ⟨Nat.le_add_left _ _, hrooted, hstraight, hnodes, ?_, ?_, cs, s', hanswers, ?_⟩
      · simp [hgoing]
      · exact fun _ => ⟨(Nat.zero_add _).symm, hgoing⟩
      · exact hleads.makes fun _ _ _ => .stepLimit hgoing
  | @deadlock left c s'' hasks hanswer hstill =>
      have hle : cs.length + 1 ≤ left + 1 + cs.length := by omega
      refine ⟨hle, hrooted, hstraight, hnodes, ?_, by simp, cs ++ [c], s'',
        hanswers.concat hanswer, hleads.makes_concat hasks hstill⟩
      simp [hasks.going]

/-- Three simulations of one errand. With a way chosen it comes to its end; with no more choices it
does not get beyond the decision, which the second call finds and leaves as it is; and one step is
not enough. -/
theorem records_sample :
    let execute := Strategy.consume ⟨.counter, 10⟩ (Resolver.fixed none) .errand
    ∃ done stuck cut, run .errand execute 10 [[], [⟨5⟩]] () = .ok done ∧
      run .errand execute 10 [] () = .ok stuck ∧ run .errand execute 1 [[], [⟨5⟩]] () = .ok cut ∧
      Records .errand execute 10 [[], [⟨5⟩]] () done ∧ Records .errand execute 10 [] () stuck ∧
      Records .errand execute 1 [[], [⟨5⟩]] () cut ∧
      (done.stop, done.steps, done.exploration.nodes.length) = (.completed, 2, 3) ∧
      (stuck.stop, stuck.steps, stuck.exploration.nodes.length) = (.deadlock, 2, 2) ∧
      (cut.stop, cut.steps, cut.exploration.nodes.length) = (.stepLimit, 1, 2) := by
  intro execute
  have hrun : ∀ maxSteps scripted facts,
      (run .errand execute maxSteps scripted ()).toOption.map
        (fun sim => (sim.stop, sim.steps, sim.exploration.nodes.length)) = some facts →
      ∃ sim, run .errand execute maxSteps scripted () = .ok sim ∧
        Records .errand execute maxSteps scripted () sim ∧
        (sim.stop, sim.steps, sim.exploration.nodes.length) = facts := by
    intro maxSteps scripted facts hfacts
    cases hsim : run .errand execute maxSteps scripted () with
    | error e =>
        rw [hsim] at hfacts
        cases hfacts
    | ok sim =>
        rw [hsim] at hfacts
        exact ⟨sim, rfl, records_of_run hsim, Option.some.inj hfacts⟩
  obtain ⟨done, hdone, hdone', hdone''⟩ := hrun 10 [[], [⟨5⟩]] (.completed, 2, 3)
    (by decide +kernel)
  obtain ⟨stuck, hstuck, hstuck', hstuck''⟩ := hrun 10 [] (.deadlock, 2, 2) (by decide +kernel)
  obtain ⟨cut, hcut, hcut', hcut''⟩ := hrun 1 [[], [⟨5⟩]] (.stepLimit, 1, 2) (by decide +kernel)
  exact ⟨done, stuck, cut, hdone, hstuck, hcut, hdone', hstuck', hcut', hdone'', hstuck'', hcut''⟩

end Simulation

end RegionNet
