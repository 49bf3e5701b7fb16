import Mathlib.Algebra.BigOperators.Ring.List
import Mathlib.Algebra.Field.Rat
import RegionNet.Execution.Resolver
import RegionNet.Proofs.Odds
import RegionNet.Proofs.Outcome

/-!
# Certainty

If nobody but nature decides, it is certain that one of the executions takes place, and one expects
their probabilities to add up to one. They do where no loop is. The exit of a loop however keeps its
odds also where the bound has left no other way, and these odds are lost
(`Workflow.not_totals_retry`). Put aside what a step had to take because nothing else was on offer,
and the executions of every fair process add up to one (`Workflow.totals_of_validate`).

The ways to take the open decisions of a marking choose from each decision point independently, so
their odds are the product of sums that are one each (`Consists.sum_answers`).
-/

namespace RegionNet

/-! ## Odds of what is on offer -/

theorem Piece.probability_price (T : PlaceId → Option (Terms Rat)) (t : Transition Rat) :
    (Piece.price (tollIn T) t).probability = t.probability := by
  have htolls : (t.inputs.map (tollIn T)).map Course.probability = t.inputs.map fun _ => 1 := by
    rw [List.map_map]
    apply List.map_congr_left
    intro p _
    show ((T p).elim 1 Terms.toll).probability = 1
    cases T p <;> rfl
  show t.probability * (t.inputs.map (tollIn T)).prod.probability = t.probability
  rw [Course.probability_prod, htolls, List.map_const', List.prod_replicate, one_pow, mul_one]

namespace Workflow

/-- The odds of the transition with the given number. -/
def odds (w : Workflow Rat) (c : TransitionId) : Rat :=
  (w.net.transition? c).elim 1 Transition.probability

/-- The odds of a transition that is the only one on offer at its decision point. -/
def forced (w : Workflow Rat) (d : DecisionPoint) : Rat :=
  match d.transitions with
  | [c] => w.odds c
  | _ => 1

theorem forced_of_length_ne {w : Workflow Rat} {d : DecisionPoint} (h : d.transitions.length ≠ 1) :
    w.forced d = 1 := by
  unfold forced
  split
  · next c hc => exact absurd (by rw [hc]; rfl) h
  · rfl

end Workflow

/-- The odds of all that has to be taken because there is no other way. -/
def Strategy.compelled (strategy : Strategy Rat) (w : Workflow Rat) (m : Marking Rat) : Rat :=
  ((strategy.choices w m).map w.forced).prod

namespace Workflow.Consists

variable {σ : Type} {w : Workflow Rat} {P : Piece Rat} {m : Marking Rat} {d : DecisionPoint}
  {step : Step Rat} {us ts : List (Transition Rat)}

theorem odds_id (h : w.Consists P) {t : Transition Rat} (ht : t ∈ w.net.transitions) :
    w.odds t.id = t.probability := by
  rw [odds, h.transition?_eq ht]
  rfl

/-- The odds of an open decision sum to one, unless only the exit of a loop is left over. -/
theorem odds_of_decision (h : w.Consists P) (heven : P.Even) (hlive : P.Live m.tally)
    (hd : d ∈ Timing.counter.decisionPoints w.net m) :
    d.transitions.length ≠ 1 ∧ (d.transitions.map w.odds).sum = 1 ∨
      ∃ s body x n, Piece.Part (.loop s body x n) P ∧ d.transitions = [(s.leave body x).id] ∧
        w.odds (s.leave body x).id = 1 - x := by
  obtain ⟨c, hc⟩ := List.exists_mem_of_ne_nil _ (Timing.tidy_decisionPoints.nonempty d hd)
  obtain ⟨t, ht, -⟩ := (h.mem_transitions_iff hlive hd).mp hc
  have hbusy := h.placed.busy_of_admits hlive ht.mem ht.admits
  obtain ⟨us, hnodup, hmem, hodds⟩ := h.placed.exists_deciders heven hbusy ht
  have hin : ∀ u ∈ us, u ∈ w.net.transitions := fun u hu => h.transitions ▸ (hmem.mp hu).mem
  -- up to order, the decision point lists the transitions that can take the decision
  have hperm : d.transitions.Perm (us.map Transition.id) := by
    have hids : (us.map Transition.id).Nodup := hnodup.map_on fun u hu v hv he =>
      h.eq_of_id (hin u hu) (hin v hv) he
    refine (List.perm_ext_iff_of_nodup (Timing.nodup_transitions h.nodup_ids hd) hids).mpr ?_
    intro c
    rw [h.mem_transitions_iff hlive hd, List.mem_map]
    exact exists_congr fun u => and_congr_left fun _ => hmem.symm
  rcases hodds with ⟨hlength, hsum⟩ | ⟨s, body, x, n, hpart, rfl⟩
  · refine Or.inl ⟨?_, ?_⟩
    · rwa [hperm.length_eq, List.length_map]
    · rw [(hperm.map w.odds).sum_eq, List.map_map, ← hsum]
      congr 1
      exact List.map_congr_left fun u hu => h.odds_id (hin u hu)
  · refine Or.inr ⟨s, body, x, n, hpart, List.perm_singleton.mp hperm, ?_⟩
    exact h.odds_id (hin _ (List.mem_singleton_self _))

theorem sum_odds (h : w.Consists P) (heven : P.Even) (hlive : P.Live m.tally)
    (hd : d ∈ Timing.counter.decisionPoints w.net m) :
    (d.transitions.map w.odds).sum = w.forced d ∧ w.forced d ≠ 0 := by
  rcases h.odds_of_decision heven hlive hd with ⟨hlength, hsum⟩ | ⟨s, body, x, n, hpart, hc, hodds⟩
  · rw [forced_of_length_ne hlength]
    exact ⟨hsum, one_ne_zero⟩
  · unfold forced
    rw [hc]
    dsimp only
    rw [List.map_singleton, List.sum_singleton, hodds]
    exact ⟨rfl, sub_ne_zero.mpr (heven.loop hpart).symm⟩

/-- Without loops, nothing is forced. -/
theorem compelled_eq_one {rounds : Nat} (h : w.Consists P) (heven : P.Even)
    (hloops : ∀ {s body x n}, ¬ Piece.Part (.loop s body x n) P) (hlive : P.Live m.tally) :
    Strategy.compelled ⟨.counter, rounds⟩ w m = 1 := by
  apply List.prod_eq_one
  rw [List.forall_mem_map]
  intro d hd
  rcases h.odds_of_decision heven hlive hd with ⟨hlength, -⟩ | ⟨s, body, x, n, hpart, -⟩
  · exact forced_of_length_ne hlength
  · exact absurd hpart hloops

/-- The odds of a call are those of the decisions taken. -/
theorem Answer.probability_eq (ha : Answer w P m us ts step) (h : w.Consists P) :
    step.probability = (us.map Transition.probability).prod := by
  have hcourse := congrArg Course.probability ha.course
  have hfree : ts.map Transition.probability = ts.map fun _ => 1 :=
    List.map_congr_left fun t ht =>
      Piece.probability_of_free (h.transitions ▸ ha.saturation.mem t ht) (ha.free t ht)
  calc step.probability
      = 1 * ((us ++ ts).map (Piece.price (tollIn w.net.terms))).prod.probability := hcourse
    _ = ((us ++ ts).map Transition.probability).prod := by
        rw [one_mul, Course.probability_prod, List.map_map]
        congr 1
        exact List.map_congr_left fun t _ => Piece.probability_price _ t
    _ = (us.map Transition.probability).prod := by
        rw [List.map_append, hfree, List.prod_append, List.map_const', List.prod_replicate, one_pow,
          mul_one]

/-- Each way to take the open decisions is answered, with the odds of what it takes. -/
theorem exists_answer_of_answers {rounds : Nat} {cs : List TransitionId} (h : w.Consists P)
    (hrounds : w.net.transitions.length < rounds) (resolver : Resolver σ Rat) (s : σ)
    (hm : m.Ordered) (hlive : P.Live m.tally)
    (hcs : cs ∈ Strategy.answers ⟨.counter, rounds⟩ w m) :
    ∃ step us ts, Strategy.consume ⟨.counter, rounds⟩ resolver w m cs s = (.ok step, s) ∧
      Answer w P m us ts step ∧ step.probability = (cs.map w.odds).prod := by
  obtain ⟨us, hus, rfl⟩ := exists_map_of_forall₂ (Strategy.mem_answers.mp hcs).flip
    fun d hd c hc => (h.mem_transitions_iff hlive hd).mp hc
  have hus := List.forall₂_map_left_iff.mpr hus
  obtain ⟨step, ts, hconsume, ha⟩ :=
    h.exists_answer resolver s hm hlive hrounds hus fun c => Iff.rfl
  refine ⟨step, us, ts, hconsume, ha, ?_⟩
  rw [ha.probability_eq h, List.map_map]
  congr 1
  refine List.map_congr_left fun u hu => (h.odds_id ?_).symm
  obtain ⟨p, -, hp⟩ := exists_left_of_forall₂ hus hu
  exact h.transitions ▸ hp.mem

/-- With the odds of what is forced put aside, the ways to take the open decisions add up to one. -/
theorem sum_answers {rounds : Nat} (h : w.Consists P) (heven : P.Even) (hlive : P.Live m.tally) :
    ((Strategy.answers ⟨.counter, rounds⟩ w m).map fun cs =>
      (cs.map w.odds).prod / Strategy.compelled ⟨.counter, rounds⟩ w m).sum = 1 := by
  have hsums : (Strategy.choices ⟨.counter, rounds⟩ w m).map
      (fun d => (d.transitions.map w.odds).sum) =
        (Strategy.choices ⟨.counter, rounds⟩ w m).map w.forced :=
    List.map_congr_left fun d hd => (h.sum_odds heven hlive hd).1
  have hne : Strategy.compelled ⟨.counter, rounds⟩ w m ≠ 0 := by
    apply List.prod_ne_zero
    intro hzero
    obtain ⟨d, hd, he⟩ := List.mem_map.mp hzero
    exact (h.sum_odds heven hlive hd).2 he
  simp only [div_eq_mul_inv]
  rw [List.sum_map_mul_right, Strategy.answers, sum_sections, List.map_map]
  show ((Strategy.choices ⟨.counter, rounds⟩ w m).map
    (fun d => (d.transitions.map w.odds).sum)).prod * _ = 1
  rw [hsums]
  exact mul_inv_cancel₀ hne

/-- Put in proportion to what is forced, the executions add up to one. -/
theorem addUp_eq {rounds : Nat} {weight : Marking Rat → Step Rat → Rat} (h : w.Consists P)
    (heven : P.Even) (hrounds : w.net.transitions.length < rounds)
    (hweight : ∀ m step, Alive P m.tally →
      weight m step = step.probability / Strategy.compelled ⟨.counter, rounds⟩ w m)
    (resolver : Resolver σ Rat) (s : σ) {n : Nat} (hm : m.Ordered) (halive : Alive P m.tally)
    (hn : P.left m.tally ≤ n) :
    Strategy.addUp ⟨.counter, rounds⟩ resolver w weight n m s = some 1 := by
  induction n generalizing m with
  | zero =>
      rcases h.busy_or_final halive with ⟨hbusy, -⟩ | ⟨-, hfinal⟩
      -- a process under way has moves left
      · obtain ⟨t, ht, ha⟩ := h.placed.exists_admitted hbusy
        have hlt := h.placed.left_fire hbusy ht ha
        omega
      · exact if_pos hfinal
  | succ n ih =>
      unfold Strategy.addUp
      rcases h.busy_or_final halive with ⟨hbusy, hgoing⟩ | ⟨-, hfinal⟩
      · rw [if_neg (Bool.eq_false_iff.mp hgoing), ← h.sum_answers heven halive.1]
        apply sumOver_eq_some
        intro cs hcs
        obtain ⟨step, us, ts, hconsume, ha, hprobability⟩ :=
          h.exists_answer_of_answers hrounds resolver s hm halive.1 hcs
        have hlt := ha.left_lt h hbusy halive.1
        have hrest := ih ha.ordered (h.alive_path halive (ha.batch.trans ha.saturation)) (by omega)
        simp only [hconsume, hrest, Option.map_some, mul_one, hweight m step halive, hprobability]
      · exact if_pos hfinal

theorem totals {rounds : Nat} {weight : Marking Rat → Step Rat → Rat} (h : w.Consists P)
    (heven : P.Even) (hrounds : w.net.transitions.length < rounds)
    (hweight : ∀ m step, Alive P m.tally →
      weight m step = step.probability / Strategy.compelled ⟨.counter, rounds⟩ w m)
    (resolver : Resolver σ Rat) (s : σ) :
    Strategy.Totals ⟨.counter, rounds⟩ resolver w weight w.initial s 1 :=
  Strategy.totals_of_addUp h.nodup_ids
    (h.addUp_eq heven hrounds hweight resolver s h.ordered_initial h.alive_initial (Nat.le_refl _))

end Workflow.Consists

/-! ## Fair processes -/

/-- The executions of a fair process are certain: their probabilities add up to one, if what a step
had to take for lack of any other way is put aside, and also as they are if there is no loop. -/
theorem Workflow.totals_of_validate {r : Region Rat} (h : r.validate = .ok ()) (hfair : r.Fair) :
    ∃ w, Workflow.compile r = .ok w ∧ ∀ {σ : Type} (resolver : Resolver σ Rat) (s : σ)
      (rounds : Nat), w.net.transitions.length < rounds →
        Strategy.Totals ⟨.counter, rounds⟩ resolver w
            (fun m step => step.probability / Strategy.compelled ⟨.counter, rounds⟩ w m)
            w.initial s 1 ∧
          ((∀ c ∈ r.preorder, c.kind ≠ .loop) →
            Strategy.Totals ⟨.counter, rounds⟩ resolver w (fun _ step => step.probability)
              w.initial s 1) := by
  obtain ⟨⟨n, hsound⟩, -⟩ := Region.rules_of_validate h
  obtain ⟨blk, hblock, hproper, -⟩ := Region.block_of_sound r hsound
  obtain ⟨blk', k, hblock', hcompile, -, -⟩ := Workflow.compile_of_validate h
  obtain rfl := Except.ok.inj (hblock.symm.trans hblock')
  obtain ⟨P, rfl, hP⟩ := Workflow.exists_piece hproper
  have heven := Region.even_of_fair hsound hblock hproper hfair
  refine ⟨_, hcompile, fun {σ} resolver s rounds hrounds => ⟨?_, fun hloop => ?_⟩⟩
  · exact hP.totals heven hrounds (fun _ _ _ => rfl) resolver s
  · refine hP.totals heven hrounds (fun m step halive => ?_) resolver s
    rw [hP.compelled_eq_one heven (Region.not_part_of_loop hsound hblock hloop) halive.1, div_one]

/-- A task that is done once or twice. -/
def Region.retry : Region Rat :=
  ⟨"retry", .loop, none, 0, none,
    some [⟨"task", .task, none, 1, some [1], none, none, none⟩], some (.single (1 / 2)), some 1⟩

/-- One of two tasks, as chance will have it. -/
def Region.toss : Region Rat :=
  ⟨"toss", .nature, none, 0, none,
    some [⟨"one", .task, none, 1, some [1], none, none, none⟩,
      ⟨"two", .task, none, 1, some [1], none, none, none⟩],
    some (.branches [1 / 4, 3 / 4]), none⟩

theorem Region.retry_valid : Region.retry.validate = .ok () := by decide +kernel

theorem Region.toss_valid : Region.toss.validate = .ok () := by decide +kernel

theorem Region.retry_fair : Region.retry.Fair := by
  simp [Fair, retry, preorder, preorders]

theorem Region.toss_fair : Region.toss.Fair := by
  have hsum : (4 : Rat)⁻¹ + 3 / 4 = 1 := by norm_num
  simp [Fair, toss, preorder, preorders, hsum]

theorem Workflow.totals_sample :
    (∃ w, Workflow.compile Region.retry = .ok w ∧
      Strategy.Totals ⟨.counter, w.net.transitions.length + 1⟩ (Resolver.fixed none) w
        (fun m step => step.probability /
          Strategy.compelled ⟨.counter, w.net.transitions.length + 1⟩ w m) w.initial () 1) ∧
      ∃ w, Workflow.compile Region.toss = .ok w ∧
        Strategy.Totals ⟨.counter, w.net.transitions.length + 1⟩ (Resolver.fixed none) w
          (fun _ step => step.probability) w.initial () 1 := by
  constructor
  · obtain ⟨w, hcompile, htotals⟩ :=
      Workflow.totals_of_validate Region.retry_valid Region.retry_fair
    exact ⟨w, hcompile, (htotals _ () _ (Nat.lt_succ_self _)).1⟩
  · obtain ⟨w, hcompile, htotals⟩ := Workflow.totals_of_validate Region.toss_valid Region.toss_fair
    refine ⟨w, hcompile, (htotals _ () _ (Nat.lt_succ_self _)).2 ?_⟩
    simp [Region.toss, Region.preorder, Region.preorders]

/-- The probabilities of going once and of going twice do not add up to one: the exit at the bound
is counted with the odds that it had before. -/
theorem Workflow.not_totals_retry :
    Region.retry.validate = .ok () ∧ Region.retry.Fair ∧
      ∃ w, Workflow.compile Region.retry = .ok w ∧
        Strategy.Totals ⟨.counter, 10000⟩ (Resolver.fixed none) w (fun _ step => step.probability)
          w.initial () (3 / 4) ∧
        ¬ Strategy.Totals ⟨.counter, 10000⟩ (Resolver.fixed none) w
          (fun _ step => step.probability) w.initial () 1 := by
  obtain ⟨blk, n, -, hcompile, hproper, -⟩ := Workflow.compile_of_validate Region.retry_valid
  obtain ⟨P, rfl, hP⟩ := Workflow.exists_piece hproper
  have hadded : (Workflow.compile Region.retry).toOption.bind (fun w =>
      Strategy.addUp ⟨.counter, 10000⟩ (Resolver.fixed none) w (fun _ step => step.probability) 3
        w.initial ()) = some (3 / 4) := by decide +kernel
  rw [hcompile] at hadded
  have htotals := Strategy.totals_of_addUp hP.nodup_ids hadded
  refine ⟨Region.retry_valid, Region.retry_fair, _, hcompile, htotals, fun hone => ?_⟩
  exact absurd (htotals.unique hone) (by norm_num)

end RegionNet
