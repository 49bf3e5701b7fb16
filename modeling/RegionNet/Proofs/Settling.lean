import RegionNet.Proofs.Rounds

/-!
# Settling

Saturation of a process settles within a number of rounds that the net sets. Transitions that fire
on their own leave visits behind that only a decision forgets, so none of them fires twice in a call
(`Placed.nodup_of_free`); and between two of them the clock goes on at most once, unless a budget
cuts the wait short, and then it is used up. So every round lowers what a call can still do
(`Consists.toDo_lt`).
-/

namespace RegionNet

variable {α : Type} [Quantity α]

/-! ## No transition fires twice on its own -/

namespace Piece

variable {P : Piece α} {lim : PlaceId → Option Nat} {f f' : Tally} {ts : List (Transition α)}

/-- What fires on its own takes tokens only where none has been taken before. -/
theorem Placed.unvisited_of_free (hP : Placed lim P) (hlive : P.Live f)
    (hpath : Tally.Path lim P.transitions f ts f') (hstop : ∀ t ∈ ts, t.stop = false) :
    ∀ t ∈ ts, ∀ p ∈ t.inputs, (f p).2 = 0 := by
  induction hpath with
  | nil => exact List.forall_mem_nil _
  | @cons f f' t ts ht ha _ ih =>
      obtain ⟨ht', hts⟩ := List.forall_mem_cons.mp hstop
      obtain ⟨hinputs, hresets⟩ := (hP.event (hP.busy_of_admits hlive ht ha) ht ha).free ht'
      refine List.forall_mem_cons.mpr ⟨fun p hp => congrArg Prod.snd (hinputs p hp), ?_⟩
      intro u hu p hp
      have hzero := ih (hP.step_live hlive ht ha) hts u hu p hp
      have hle := Tally.visits_le_fire (f := f) hresets p
      omega

/-- No transition fires twice on its own. -/
theorem Placed.nodup_of_free (hP : Placed lim P) (hlive : P.Live f)
    (hpath : Tally.Path lim P.transitions f ts f') (hstop : ∀ t ∈ ts, t.stop = false) :
    ts.Nodup := by
  induction hpath with
  | nil => exact List.nodup_nil
  | @cons f f' t ts ht ha hpath ih =>
      obtain ⟨ht', hts⟩ := List.forall_mem_cons.mp hstop
      obtain ⟨-, hresets⟩ := (hP.event (hP.busy_of_admits hlive ht ha) ht ha).free ht'
      have hlive' := hP.step_live hlive ht ha
      refine List.nodup_cons.mpr ⟨fun hagain => ?_, ih hlive' hts⟩
      obtain ⟨p, hp⟩ := List.exists_mem_of_ne_nil _ (hP.within ht).takes
      have hzero := hP.unvisited_of_free hlive' hpath hts t hagain p hp
      have hcount : 0 < t.inputs.count p := List.count_pos_iff.mpr hp
      have hvisits : (f.fire t p).2 = (f p).2 + t.inputs.count p := by
        simp [Tally.fire, hresets]
      omega

end Piece

/-! ## What a round does to a process -/

theorem Timing.fired_ne_nil_of_counter {net : Net α} {m : Marking α} {budget left : Option α}
    {as : List (Act α)} (h : counter.next net budget m = some (as, left)) : Act.fired as ≠ [] := by
  rcases next_cases h with ⟨hsome, -, rfl, -⟩ | ⟨wait, -, hwait, -⟩
  · rwa [Act.fired_fires]
  · cases hwait

/-- The transitions that need no decision. -/
def Net.free (net : Net α) : List (Transition α) := net.transitions.filter fun t => !t.stop

/-- How often a budget can still cut a wait short. -/
def Timing.cuts : Option α → Nat
  | none => 0
  | some x => if x ≤ 0 then 0 else 1

theorem Timing.cuts_le_one (budget : Option α) : cuts budget ≤ 1 := by
  unfold cuts
  split
  · exact Nat.zero_le 1
  · split <;> omega

namespace Workflow.Consists

variable {w : Workflow α} {P : Piece α} {m : Marking α} {timing : Timing α}
  {budget left : Option α} {as : List (Act α)} {n : Nat}

/-- What fires in a round could fire one transition after the other. -/
theorem next_path (h : w.Consists P) (hm : m.Ordered)
    (hnext : timing.next w.net budget m = some (as, left)) :
    (as.foldl Act.perform m).Ordered ∧
      Tally.Path w.net.limit w.net.transitions m.tally (Act.fired as)
        (as.foldl Act.perform m).tally ∧ ∀ t ∈ Act.fired as, t.stop = false := by
  rcases Timing.next_cases hnext with ⟨-, hstop, rfl, -⟩ | ⟨wait, -, -, -, rfl, -⟩
  · have hround := h.path_of_round
      (fun t ht => (Timing.mem_due.mp ht).imp_right Timing.tokenEnabled_of_enabled)
      (h.transitions_nodup.filter _) hstop
    obtain ⟨hordered, htally⟩ := timing.marking_fireAll h.plain hround
      (s := .identity m w.dimensions) hm rfl
    rw [timing.marking_fireAll_eq, show (Step.identity m w.dimensions).marking = m from rfl]
      at hordered htally
    rw [Timing.performs_marking_fire, Act.fired_fires, htally]
    exact ⟨hordered, hround, hstop⟩
  · refine ⟨hm.addTime _, ?_, List.forall_mem_nil _⟩
    show Tally.Path _ _ _ [] (m.addTime _).tally
    rw [Marking.tally_addTime hm]
    exact .nil _

/-- All that saturation does, however many rounds it goes on for. -/
theorem acts_path (h : w.Consists P) (timing : Timing α) : ∀ (n : Nat) (budget : Option α)
    {m : Marking α}, m.Ordered → (∃ f, Tally.Path w.net.limit w.net.transitions m.tally
      (Act.fired (timing.acts w.net n budget m)) f) ∧
    ∀ t ∈ Act.fired (timing.acts w.net n budget m), t.stop = false := by
  intro n
  induction n with
  | zero => exact fun _ _ _ => ⟨⟨_, .nil _⟩, List.forall_mem_nil _⟩
  | succ n ih =>
      intro budget m hm
      cases hnext : timing.next w.net budget m with
      | none =>
          rw [Timing.acts_of_next_eq_none hnext]
          exact ⟨⟨_, .nil _⟩, List.forall_mem_nil _⟩
      | some round =>
          obtain ⟨hordered, hpath, hfree⟩ := h.next_path hm hnext
          obtain ⟨⟨f, hrest⟩, hfree'⟩ := ih round.2 hordered
          rw [Timing.acts_of_next_eq_some hnext, Act.fired_append]
          exact ⟨⟨f, hpath.trans hrest⟩, List.forall_mem_append.mpr ⟨hfree, hfree'⟩⟩

theorem nodup_acts (h : w.Consists P) (hm : m.Ordered) (hlive : P.Live m.tally) (n : Nat)
    (budget : Option α) :
    ((Act.fired (timing.acts w.net n budget m)).map Transition.id).Nodup := by
  obtain ⟨⟨f, hpath⟩, hfree⟩ := h.acts_path timing n budget hm
  have hnodup := h.placed.nodup_of_free hlive (h.transitions ▸ hpath) hfree
  exact hnodup.map_on fun t ht u hu hid => h.eq_of_id (hpath.mem t ht) (hpath.mem u hu) hid

/-- A round in which something fires leaves less to fire. -/
theorem pristine_lt (h : w.Consists P) (hm : m.Ordered) (hlive : P.Live m.tally)
    (hnext : timing.next w.net budget m = some (as, left)) (hsome : Act.fired as ≠ []) :
    P.pristine (as.foldl Act.perform m).tally < P.pristine m.tally := by
  obtain ⟨-, hpath, hfree⟩ := h.next_path hm hnext
  have hused := h.placed.pristine_path hlive (h.transitions ▸ hpath) hfree
  have hpos := List.length_pos_iff.mpr hsome
  omega

theorem live_next (h : w.Consists P) (hm : m.Ordered) (hlive : P.Live m.tally)
    (hnext : timing.next w.net budget m = some (as, left)) :
    P.Live (as.foldl Act.perform m).tally := by
  obtain ⟨-, hpath, -⟩ := h.next_path hm hnext
  exact h.placed.live_path hlive (h.transitions ▸ hpath)

theorem pristine_le_free (h : w.Consists P) (f : Tally) : P.pristine f ≤ w.net.free.length := by
  rw [Net.free, ← List.countP_eq_length_filter, h.transitions]
  exact List.countP_mono_left fun t _ ht => (Bool.and_eq_true _ _ ▸ ht : _ ∧ _).1

/-- A call is answered if each of its rounds leaves less to do, and there are rounds enough. -/
theorem exists_saturate (h : w.Consists P) {strategy : Strategy α}
    (toDo : Option α → Marking α → Nat)
    (hround : ∀ budget m as left, m.Ordered → P.Live m.tally →
      strategy.timing.next w.net budget m = some (as, left) →
        toDo left (as.foldl Act.perform m) < toDo budget m)
    (hm : m.Ordered) (hlive : P.Live m.tally)
    (hlt : toDo strategy.timing.budget m < strategy.maxRounds) :
    ∃ step, strategy.saturate w m = .ok step := by
  obtain ⟨step, hsome⟩ := Timing.exists_saturateFor (fun m => m.Ordered ∧ P.Live m.tally) toDo
    (fun budget m as left ⟨hm, hlive⟩ hnext =>
      ⟨⟨(h.next_path hm hnext).1, h.live_next hm hlive hnext⟩,
        hround budget m as left hm hlive hnext⟩)
    (s := .identity m w.dimensions) ⟨hm, hlive⟩ hlt
  exact ⟨step, Strategy.saturate_eq_ok_iff.mpr hsome⟩

end Workflow.Consists

/-! ## How long a call takes -/

/-- The rounds that a timed call can still go on for: two for each transition that is left to fire,
one to wait where nothing is due, and one in which the budget runs out. -/
def Piece.toDo (P : Piece α) (w : Workflow α) (budget : Option α) (m : Marking α) : Nat :=
  2 * P.pristine m.tally + (if (Timing.duration none).due w.net m = [] then 1 else 0) +
    Timing.cuts budget

section Exact

variable [Quantity.Exact α] {w : Workflow α} {P : Piece α} {m : Marking α}
  {timeStep budget left : Option α} {as : List (Act α)} {wait : α}

/-- A wait lasts as long as it has to, or it takes all the time that is left. -/
theorem Timing.cut_cases (hpos : ¬ cut budget wait ≤ 0) :
    cut budget wait = wait ∧ cuts (budget.map (· - wait)) ≤ cuts budget ∨
      cuts (budget.map (· - cut budget wait)) < cuts budget := by
  cases budget with
  | none => exact Or.inl ⟨rfl, Nat.le_refl _⟩
  | some x =>
      by_cases hlt : x < wait
      · have hcut : cut (some x) wait = x := if_pos hlt
        rw [hcut] at hpos ⊢
        have hzero : x - x ≤ 0 := (Quantity.Exact.sub_le_iff _ _ _).mpr
          ((Quantity.Exact.add_zero x).symm ▸ (Quantity.Exact.le_total x x).elim id id)
        refine Or.inr ?_
        simp only [Option.map_some, cuts, if_pos hzero, if_neg hpos, Nat.zero_lt_one]
      · have hcut : cut (some x) wait = wait := if_neg hlt
        rw [hcut] at hpos ⊢
        have hle : wait ≤ x := by
          by_contra hnot
          exact hlt ((Quantity.Exact.lt_iff_not_le _ _).mpr hnot)
        have hx : ¬ x ≤ 0 := fun hx => hpos (Quantity.Exact.le_trans _ _ _ hle hx)
        refine Or.inl ⟨rfl, ?_⟩
        simp only [Option.map_some, cuts, if_neg hx]
        split <;> omega

theorem Workflow.Consists.toDo_lt (h : w.Consists P) (hm : m.Ordered) (hlive : P.Live m.tally)
    (hnext : (Timing.duration timeStep).next w.net budget m = some (as, left)) :
    P.toDo w left (as.foldl Act.perform m) < P.toDo w budget m := by
  rcases Timing.next_cases hnext with ⟨hdue, -, rfl, rfl⟩ | ⟨wait, hdue, hwait, hpos, rfl, rfl⟩
  · have hfewer := h.pristine_lt hm hlive hnext (by rwa [Act.fired_fires])
    unfold Piece.toDo
    split <;> omega
  · -- after the whole wait something is due; after a part of it the budget is used up
    have hsame : (m.addTime (Timing.cut budget wait)).tally = m.tally := Marking.tally_addTime hm _
    change (Timing.duration none).due w.net m = [] at hdue
    show P.toDo w _ (m.addTime (Timing.cut budget wait)) < _
    unfold Piece.toDo
    rw [hsame, if_pos hdue]
    rcases Timing.cut_cases hpos with ⟨hcut, hle⟩ | hlt
    · obtain ⟨-, t, ht, he⟩ := Timing.steady_duration.nextWait_eq_some hwait h.plain hm
      rw [hcut, if_neg (List.ne_nil_of_mem (Timing.mem_due.mpr ⟨ht, he⟩))]
      omega
    · split <;> omega

end Exact

/-- Saturation of a marking settles in a time that the net sets, and rounds to spare make no
difference, neither to it nor to a call. -/
structure Workflow.Settles (w : Workflow α) (m : Marking α) : Prop where
  /-- In one call only free transitions fire, and none of them fires twice. -/
  once : ∀ strategy : Strategy α,
    Act.fired (strategy.acts w m) ⊆ w.net.free ∧
      ((Act.fired (strategy.acts w m)).map Transition.id).Nodup
  /-- The acts of a call make its step. -/
  made : ∀ (strategy : Strategy α) (step : Step α), strategy.saturate w m = .ok step →
    step = { (strategy.acts w m).foldl (strategy.timing.perform w.net) (.identity m w.dimensions)
      with remaining := step.remaining }
  counter : ∀ rounds, w.net.free.length + 1 ≤ rounds →
    ∃ step, Strategy.saturate ⟨.counter, rounds⟩ w m = .ok step
  duration : Quantity.Exact α → ∀ (timeStep : Option α) (rounds : Nat),
    2 * w.net.free.length + 3 ≤ rounds →
      ∃ step, Strategy.saturate ⟨.duration timeStep, rounds⟩ w m = .ok step
  saturate : ∀ (timing : Timing α) (rounds more : Nat) (step : Step α), rounds ≤ more →
    Strategy.saturate ⟨timing, rounds⟩ w m = .ok step →
      Strategy.saturate ⟨timing, more⟩ w m = .ok step
  consume : ∀ {σ : Type} (resolver : Resolver σ α) (cs : List TransitionId) (s s' : σ)
    (timing : Timing α) (rounds more : Nat) (step : Step α), rounds ≤ more →
      Strategy.consume ⟨timing, rounds⟩ resolver w m cs s = (.ok step, s') →
        Strategy.consume ⟨timing, more⟩ resolver w m cs s = (.ok step, s')

/-! ## Calls with rounds to spare -/

namespace Strategy

variable {timing : Timing α} {w : Workflow α} {m : Marking α} {rounds more : Nat} {step : Step α}

theorem saturate_of_le (hle : rounds ≤ more) (h : saturate ⟨timing, rounds⟩ w m = .ok step) :
    saturate ⟨timing, more⟩ w m = .ok step := by
  have hsome := Timing.saturateFor_of_le (saturate_eq_ok_iff.mp h) hle
  exact saturate_eq_ok_iff.mpr hsome

theorem consume_of_le {σ : Type} {resolver : Resolver σ α} {cs : List TransitionId} {s s' : σ}
    (hle : rounds ≤ more) (h : consume ⟨timing, rounds⟩ resolver w m cs s = (.ok step, s')) :
    consume ⟨timing, more⟩ resolver w m cs s = (.ok step, s') := by
  obtain ⟨haccept, hselect, rest, hsaturate, hstep⟩ := consume_eq_ok_iff.mp h
  have hsome := Timing.saturateFor_of_le hsaturate hle
  exact consume_eq_ok_iff.mpr ⟨haccept, hselect, rest, hsome, hstep⟩

end Strategy

namespace Workflow

theorem Consists.settles {w : Workflow α} {P : Piece α} {m : Marking α} (h : w.Consists P)
    (hm : m.Ordered) (hlive : P.Live m.tally) : w.Settles m where
  once strategy := by
    obtain ⟨⟨f, hpath⟩, hfree⟩ := h.acts_path strategy.timing strategy.maxRounds
      strategy.timing.budget hm
    refine ⟨fun t ht => List.mem_filter.mpr ⟨hpath.mem t ht, ?_⟩, h.nodup_acts hm hlive _ _⟩
    rw [hfree t ht]
    rfl
  made _ _ hstep := Timing.eq_of_acts (Strategy.saturate_eq_ok_iff.mp hstep)
  counter rounds hle := by
    refine h.exists_saturate (fun _ m => P.pristine m.tally) ?_ hm hlive ?_
    · intro budget m as left hm hlive hnext
      exact h.pristine_lt hm hlive hnext (Timing.fired_ne_nil_of_counter hnext)
    · exact (h.pristine_le_free m.tally).trans_lt hle
  duration _ timeStep rounds hle := by
    refine h.exists_saturate (P.toDo w) (fun _ _ _ _ => h.toDo_lt) hm hlive ?_
    have hfewer := h.pristine_le_free m.tally
    have hcuts := Timing.cuts_le_one timeStep
    show P.toDo w timeStep m < rounds
    unfold Piece.toDo
    split <;> omega
  saturate _ _ _ _ := Strategy.saturate_of_le
  consume _ _ _ _ _ _ _ _ := Strategy.consume_of_le

/-- Wherever a valid process can get, saturation settles. -/
theorem settles_of_validate {r : Region α} (h : r.validate = .ok ()) :
    ∃ w, compile r = .ok w ∧ ∀ m, w.net.Wanders w.initial m → w.Settles m := by
  obtain ⟨blk, n, -, hcompile, hproper, -⟩ := compile_of_validate h
  obtain ⟨P, rfl, hP⟩ := exists_piece hproper
  refine ⟨_, hcompile, fun m hwanders => ?_⟩
  obtain ⟨hm, ts, hpath⟩ := hwanders.path hP.plain hP.ordered_initial
  exact hP.settles hm (hP.alive_of_path hpath).1

/-- Task `b` has gone on for a quarter of its time when a call of half a unit begins. It takes two
rounds, and with all the rounds that twelve free transitions can ask for it is the same call. -/
theorem settles_sample : ∃ (w : Workflow Rat) (m : Marking Rat) (step step' step'' : Step Rat),
    compile Region.sample = .ok w ∧ w.net.Wanders w.initial m ∧ w.net.free.length = 12 ∧
      Strategy.saturate ⟨.duration (some (1 / 2)), 1⟩ w m = .error (.maxIterations 1) ∧
      Strategy.saturate ⟨.duration (some (1 / 2)), 2⟩ w m = .ok step ∧
      Strategy.saturate ⟨.duration (some (1 / 2)), 27⟩ w m = .ok step ∧
      Strategy.saturate ⟨.duration none, 27⟩ w m = .ok step' ∧
      Strategy.saturate ⟨.counter, 13⟩ w m = .ok step'' ∧
      ((Act.fired (Strategy.acts ⟨.duration none, 27⟩ w m)).map Transition.id).Nodup := by
  obtain ⟨w, hcompile, hall⟩ := settles_of_validate Region.sample_valid
  have hcheck : (match compile Region.sample with
      | .ok w => w.net.free.length == 12 && (w.net.replay [0, 1] w.initial).any fun m =>
          let start := .identity (m.addTime (1 / 4)) w.dimensions
          ((Timing.duration (some (1 / 2))).saturateFor w.net 1 (some (1 / 2)) start).isNone &&
            ((Timing.duration (some (1 / 2))).saturateFor w.net 2 (some (1 / 2)) start).isSome
      | .error _ => false) = true := by decide +kernel
  rw [hcompile] at hcheck
  obtain ⟨hlength, hcheck⟩ := (Bool.and_eq_true _ _ ▸ hcheck : _ ∧ _)
  rw [beq_iff_eq] at hlength
  obtain ⟨m, hm, hcheck⟩ := (Option.any_eq_true _ _).mp hcheck
  obtain ⟨ts, hrun⟩ := Net.exists_run_of_replay hm
  have hwanders := (hrun.wanders (.refl _)).rest (1 / 4)
  generalize m.addTime (1 / 4) = m at hwanders hcheck
  obtain ⟨hfew, henough⟩ := (Bool.and_eq_true _ _ ▸ hcheck : _ ∧ _)
  rw [Option.isNone_iff_eq_none] at hfew
  obtain ⟨step, hstep⟩ := Option.isSome_iff_exists.mp henough
  have hsettles := hall m hwanders
  have hfail : Strategy.saturate ⟨.duration (some (1 / 2)), 1⟩ w m =
      .error (.maxIterations 1) := by
    simp only [Strategy.saturate, Timing.budget, hfew]
  have hanswer : Strategy.saturate ⟨.duration (some (1 / 2)), 2⟩ w m = .ok step :=
    Strategy.saturate_eq_ok_iff.mpr hstep
  have hsame := hsettles.saturate _ 2 27 step (by omega) hanswer
  obtain ⟨step', hstep'⟩ := hsettles.duration inferInstance none 27 (by rw [hlength])
  obtain ⟨step'', hstep''⟩ := hsettles.counter 13 (by rw [hlength])
  exact ⟨w, m, step, step', step'', hcompile, hwanders, hlength, hfail, hanswer, hsame, hstep',
    hstep'', (hsettles.once _).2⟩

end Workflow

end RegionNet
