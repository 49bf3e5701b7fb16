import RegionNet.Execution.Simulation
import RegionNet.Proofs.Heeding
import RegionNet.Proofs.Length
import RegionNet.Proofs.Waiting

/-!
# Simulations come to an end

A simulation in which the resolver heeds the strategy gets stuck nowhere. Every step is answered and
changes the marking (`Consists.exists_step`, `Stride.changed`), and ends at rest. A process at rest
is over or has a decision open, and the next step takes this decision; so from the second step on,
each step fires something. The first step may do nothing but wait for a decision, which is why a
simulation needs one step more than the longest run has moves (`Consists.exists_simulation`).
-/

namespace RegionNet

variable {σ α : Type} [Quantity α]

/-! ## Steps -/

namespace Workflow.Consists

variable {w : Workflow α} {P : Piece α} {m : Marking α} {strategy : Strategy α} {step : Step α}
  {us ts : List (Transition α)} {ids : List TransitionId}

/-- What the transitions on offer are, decision by decision. -/
theorem exists_decided (h : w.Consists P) {ds : List DecisionPoint}
    {K : DecisionPoint → TransitionId → Prop} (hds : ds ⊆ strategy.choices w m)
    (hids : List.Forall₂ (fun d c => c ∈ d.transitions ∧ K d c) ds ids) :
    ∃ us, us.map Transition.id = ids ∧ ids.filterMap w.net.transition? = us ∧
      List.Forall₂ (fun d t => P.Decides w.net.limit m.tally d.place t ∧
        strategy.timing.enabled w.net t m = true ∧ K d t.id) ds us := by
  obtain ⟨us, hus, rfl⟩ := exists_map_of_forall₂ (k := Transition.id)
    (S := fun d t => P.Decides w.net.limit m.tally d.place t ∧
      strategy.timing.enabled w.net t m = true ∧ K d t.id) hids fun d hd c ⟨hc, hK⟩ => by
      obtain ⟨t, ht, hstop, he, hin, rfl⟩ := (h.mem_offered_iff (hds hd)).mp hc
      have ha := (h.enabled_iff ht).mp (Timing.tokenEnabled_of_enabled he)
      exact ⟨t, ⟨⟨h.transitions ▸ ht, ha, hstop, hin⟩, he, hK⟩, rfl⟩
  refine ⟨us, rfl, h.filterMap_transition? fun t ht => ?_, hus⟩
  obtain ⟨d, -, hd, -⟩ := exists_left_of_forall₂ hus ht
  exact h.transitions ▸ hd.mem

theorem exists_taken (h : w.Consists P)
    (hids : List.Forall₂ (fun d c => c ∈ d.transitions) (strategy.choices w m) ids) :
    ∃ us, ids.filterMap w.net.transition? = us ∧
      List.Forall₂ (P.Decides w.net.limit m.tally)
        ((strategy.choices w m).map DecisionPoint.place) us := by
  obtain ⟨us, -, htaken, hus⟩ := h.exists_decided (K := fun _ _ => True) (List.Subset.refl _)
    (hids.imp fun d c hc => ⟨hc, trivial⟩)
  exact ⟨us, htaken, List.forall₂_map_left_iff.mpr (hus.imp fun d t ht => ht.1)⟩

/-- A step has fired the transitions `ts` and ended at rest; if a decision was open, it was not for
nothing. -/
structure Stride (w : Workflow α) (timing : Timing α) (m : Marking α) (ts : List (Transition α))
    (step : Step α) : Prop where
  path : Tally.Path w.net.limit w.net.transitions m.tally ts step.marking.tally
  ordered : step.marking.Ordered
  rest : timing.AtRest w.net step.marking
  moves : timing.Open w.net m → ts ≠ []

/-- Where the resolver heeds the strategy, a step with nothing chosen is answered. -/
theorem exists_step {resolver : Resolver σ α} (h : w.Consists P)
    (hsteady : strategy.timing.Steady)
    (hrounds : 2 * w.net.transitions.length + 3 < strategy.maxRounds)
    (hheeds : resolver.Heeds strategy w) (hm : m.Ordered) (hlive : P.Live m.tally) (s : σ) :
    ∃ step s' ts, strategy.consume resolver w m [] s = (.ok step, s') ∧
      Stride w strategy.timing m ts step := by
  have hids := Resolver.forall₂_select (fun s d hd => hheeds m s d hd) s
  generalize hselect : resolver.select w m [] (strategy.choices w m) s = selected at hids
  obtain ⟨ids, s'⟩ := selected
  obtain ⟨us, htaken, hus⟩ := h.exists_taken hids
  have hbatch := h.path_of_decides hus Timing.nodup_places
  have hlive' := h.placed.live_path hlive (h.transitions ▸ hbatch)
  obtain ⟨hordered, htally⟩ := strategy.timing.marking_fireAll h.plain hbatch
    (s := .identity m w.dimensions) hm rfl
  generalize hdecided : strategy.timing.fireAll w.net (.identity m w.dimensions) us = decided at *
  rw [← htally] at hlive' hbatch
  obtain ⟨rest, ts, hsome, hhalts⟩ := h.exists_halt_of_lt
    (s := .identity decided.marking w.dimensions) hsteady hordered hlive'
    (by omega : 2 * w.net.transitions.length + 1 < strategy.maxRounds)
  refine ⟨decided.andThen rest, s', us ++ ts, ?_, hbatch.trans hhalts.path, hhalts.ordered,
    hhalts.rest, ?_⟩
  · unfold Strategy.consume Strategy.saturate
    simp only [checkChoices, hselect, htaken, hdecided, hsteady.budget, hsome]
  -- an open decision has its decision point
  · rintro ⟨t, ht, hstop, he⟩ hnone
    obtain ⟨rfl, -⟩ := List.append_eq_nil_iff.mp hnone
    obtain ⟨⟨p, hin⟩, -⟩ := Piece.decisive_of_stop (h.transitions ▸ ht) hstop
    have hplace : t.decisionPlace = some p := by rw [Transition.decisionPlace, hin]; rfl
    obtain ⟨d, hd, -⟩ := Timing.offers_decisionPoints.mpr ⟨t, ht, hstop, he, hplace, rfl⟩
    obtain ⟨u, hu, -⟩ := exists_right_of_forall₂ hus (List.mem_map_of_mem hd)
    cases hu

namespace Stride

variable {timing : Timing α}

theorem ahead_le (hs : Stride w timing m ts step) (h : w.Consists P) (hlive : P.Live m.tally) :
    P.ahead step.marking.tally + ts.length ≤ P.ahead m.tally :=
  h.placed.ahead_path hlive (h.transitions ▸ hs.path)

/-- With a decision open, a step goes ahead. -/
theorem ahead_lt (hs : Stride w timing m ts step) (h : w.Consists P) (hlive : P.Live m.tally)
    (hopen : timing.Open w.net m) : P.ahead step.marking.tally < P.ahead m.tally := by
  have hle := hs.ahead_le h hlive
  have hpos := List.length_pos_iff.mpr (hs.moves hopen)
  omega

/-- A process under way is at rest only if a decision is open. -/
theorem open_of_busy (hs : Stride w timing m ts step) (h : w.Consists P)
    (hbusy : P.Busy step.marking.tally) : timing.Open w.net step.marking := by
  rcases hs.rest with hopen | hidle
  · exact hopen
  · obtain ⟨t, ht, ha⟩ := h.placed.exists_admitted hbusy
    rw [← h.transitions] at ht
    have he := (h.enabled_iff (m := step.marking) ht).mpr ha
    rw [hidle t ht] at he
    cases he

/-- The marking after a step of a process under way does not compare as equal to the one before. -/
theorem changed (hs : Stride w timing m ts step) (h : w.Consists P) (hsteady : timing.Steady)
    (hlive : P.Live m.tally) (hbusy : P.Busy m.tally) : (step.marking == m) = false := by
  by_contra hsame
  rw [Bool.not_eq_false] at hsame
  have htally := Marking.tally_of_beq hsame
  have hnot : ¬ timing.Open w.net m := by
    intro hopen
    have hlt := hs.ahead_lt h hlive hopen
    rw [htally] at hlt
    exact Nat.lt_irrefl _ hlt
  -- where tokens only have waited, a decision has become due
  obtain ⟨t, ht, hstop, he⟩ := hs.open_of_busy h (htally ▸ hbusy)
  apply hnot
  refine ⟨t, ht, hstop, ?_⟩
  rwa [← hsteady.enabled_of_beq (h.plain t ht).1 hsame]

end Stride

end Workflow.Consists

/-! ## Recording -/

namespace Exploration

variable {t : Exploration α} {w : Workflow α}

/-- A step from a node that has no children leads to a new node that has none. -/
theorem current_record (hchildren : t.current.children = [])
    (hgoing : w.isFinal t.current.snapshot.marking = false) (step : Step α) :
    (t.record w step true).2.current.children = [] ∧
      (t.record w step true).2.current.snapshot = t.current.snapshot.extend w step := by
  have hnone : t.childWith step.marking = none := by
    unfold childWith
    rw [hchildren]
    rfl
  have hlength : (t.grow (t.current.snapshot.extend w step)).nodes.length =
      t.nodes.length + 1 := by
    simp [grow]
  unfold record
  simp only [hgoing, Bool.false_eq_true, if_false, hnone, if_true, moveTo, hlength,
    Nat.lt_succ_self, dite_true]
  simp [current, grow]

end Exploration

/-! ## Simulations -/

/-- No simulation with nothing scripted fails or gets stuck, and those that may take `n` steps or
more come to an end. -/
def Workflow.Completes (w : Workflow α) (n : Nat) (strategy : Strategy α)
    (resolver : Resolver σ α) : Prop :=
  ∀ maxSteps s, ∀ scripted : List (List TransitionId), (∀ cs ∈ scripted, cs = []) →
    ∃ sim, w.simulate strategy resolver maxSteps scripted s = .ok sim ∧ sim.stop ≠ .deadlock ∧
      (n ≤ maxSteps → sim.stop = .completed)

namespace Workflow.Consists

variable {w : Workflow α} {P : Piece α} {strategy : Strategy α} {resolver : Resolver σ α}
  {scripted : List (List TransitionId)}

/-- So many steps are enough: none in the end, otherwise one for each move that is ahead, and one
more where no decision is open. -/
def Within (w : Workflow α) (P : Piece α) (timing : Timing α) (m : Marking α) (n : Nat) : Prop :=
  w.isFinal m = true ∨ timing.Open w.net m ∧ P.ahead m.tally ≤ n ∨ P.ahead m.tally < n

theorem not_within_zero {timing : Timing α} {m : Marking α} (h : w.Consists P)
    (hbusy : P.Busy m.tally) (hgoing : w.isFinal m = false) : ¬ Within w P timing m 0 := by
  obtain ⟨t, ht, ha⟩ := h.placed.exists_admitted hbusy
  have hpos := h.placed.ahead_fire hbusy ht ha
  rintro (hfinal | ⟨-, hle⟩ | hlt)
  · rw [hgoing] at hfinal
    cases hfinal
  · omega
  · omega

/-- After a step, one step less is enough. -/
theorem Stride.within {timing : Timing α} {m : Marking α} {ts : List (Transition α)}
    {step : Step α} {n : Nat} (hs : Stride w timing m ts step) (h : w.Consists P)
    (halive : Alive P m.tally) (hgoing : w.isFinal m = false)
    (hn : Within w P timing m (n + 1)) : Within w P timing step.marking n := by
  rcases h.busy_or_final (h.alive_path halive hs.path) with ⟨hbusy, -⟩ | ⟨-, hfinal⟩
  · refine Or.inr (Or.inl ⟨hs.open_of_busy h hbusy, ?_⟩)
    have hle := hs.ahead_le h halive.1
    rcases hn with hfinal | ⟨hopen, hn⟩ | hn
    · rw [hgoing] at hfinal
      cases hfinal
    · have hlt := hs.ahead_lt h halive.1 hopen
      omega
    · omega
  · exact Or.inl hfinal

omit [Quantity α] in
theorem getD_of_nothing (hscripted : ∀ cs ∈ scripted, cs = []) (n : Nat) :
    scripted.getD n [] = [] := by
  rw [List.getD_eq_getElem?_getD]
  cases hget : scripted[n]? with
  | none => rfl
  | some cs => exact hscripted cs (List.mem_of_getElem? hget)

/-- A simulation from a new node is not stuck, and comes to an end if it may take enough steps. -/
theorem exists_simulation (h : w.Consists P) (hsteady : strategy.timing.Steady)
    (hrounds : 2 * w.net.transitions.length + 3 < strategy.maxRounds)
    (hheeds : resolver.Heeds strategy w) (hscripted : ∀ cs ∈ scripted, cs = []) (left : Nat) :
    ∀ (steps : Nat) (t : Exploration α) (s : σ), t.current.children = [] →
      t.current.snapshot.marking.Ordered → Alive P t.current.snapshot.marking.tally →
      ∃ sim, Simulation.resume w (strategy.consume resolver w) scripted left steps t s = .ok sim ∧
        sim.stop ≠ .deadlock ∧
        (Within w P strategy.timing t.current.snapshot.marking left → sim.stop = .completed) := by
  induction left with
  | zero =>
      intro steps t s _ _ halive
      unfold Simulation.resume
      rcases h.busy_or_final halive with ⟨hbusy, hgoing⟩ | ⟨-, hfinal⟩
      · rw [if_neg (Bool.eq_false_iff.mp hgoing)]
        exact ⟨_, rfl, StopReason.noConfusion,
          fun hwithin => absurd hwithin (h.not_within_zero hbusy hgoing)⟩
      · rw [if_pos hfinal]
        exact ⟨_, rfl, StopReason.noConfusion, fun _ => rfl⟩
  | succ left ih =>
      intro steps t s hchildren hm halive
      unfold Simulation.resume
      rcases h.busy_or_final halive with ⟨hbusy, hgoing⟩ | ⟨-, hfinal⟩
      · have hnothing := getD_of_nothing hscripted steps
        obtain ⟨step, s', ts, hconsume, hstride⟩ :=
          h.exists_step hsteady hrounds hheeds hm halive.1 s
        have hchanged := hstride.changed h hsteady halive.1 hbusy
        obtain ⟨hchildren', hsnapshot⟩ := Exploration.current_record hchildren hgoing step
        have hmarking := congrArg Snapshot.marking hsnapshot
        obtain ⟨sim, hsim, hstop, hcompleted⟩ := ih (steps + 1) (t.record w step true).2 s'
          hchildren' (hmarking ▸ hstride.ordered) (hmarking ▸ h.alive_path halive hstride.path)
        rw [hmarking] at hcompleted
        refine ⟨sim, ?_, hstop, fun hwithin => hcompleted (hstride.within h halive hgoing hwithin)⟩
        simp only [hgoing, Bool.false_eq_true, if_false, hnothing, hconsume, hchanged, hsim]
      · rw [if_pos hfinal]
        exact ⟨_, rfl, StopReason.noConfusion, fun _ => rfl⟩

theorem completes (h : w.Consists P) (hsteady : strategy.timing.Steady)
    (hrounds : 2 * w.net.transitions.length + 3 < strategy.maxRounds)
    (hheeds : resolver.Heeds strategy w) :
    w.Completes (P.block.longest + 1) strategy resolver := by
  intro maxSteps s scripted hscripted
  obtain ⟨sim, hsim, hstop, hcompleted⟩ := h.exists_simulation hsteady hrounds hheeds hscripted
    maxSteps 0 (.start w) s rfl h.ordered_initial h.alive_initial
  refine ⟨sim, hsim, hstop, fun hle => hcompleted (Or.inr (Or.inr ?_))⟩
  have hahead : P.ahead w.initial.tally = P.block.longest := h.placed.ahead_of_ready h.ready
  exact Nat.lt_of_le_of_lt (Nat.le_of_eq hahead) hle

end Workflow.Consists

end RegionNet
