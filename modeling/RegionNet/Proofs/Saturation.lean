import RegionNet.Execution.Strategy
import RegionNet.Proofs.Batch
import RegionNet.Proofs.Ledger

/-!
# Saturation

What a step has cost, and why saturation settles when time is counted. A firing extends a step by
its price (`Timing.fireAll_course`). Saturation fires whatever fires on its own until a decision
is open or nothing is enabled; since none of these transitions fires twice, one round more than the
net has transitions is always enough (`Consists.saturateFor_eq_some`).
-/

namespace RegionNet

open Course

/-- The course that a step has taken. -/
def Step.course (s : Step Rat) : Course := ⟨s.probability, s.impacts, s.elapsed⟩

theorem Step.course_andThen (s t : Step Rat) : (s.andThen t).course = s.course * t.course := rfl

/-! ## Firing -/

namespace Timing

section

variable {α : Type} [Quantity α] {net : Net α} {ts : List (Transition α)}
  {lim : PlaceId → Option Nat} {f f' : Tally}

theorem marking_charges (timing : Timing α) (net : Net α) (ps : List PlaceId) : ∀ s : Step α,
    (ps.foldl (timing.charge net) s).marking = s.marking := by
  induction ps with
  | nil => exact fun _ => rfl
  | cons p ps ih =>
      intro s
      rw [List.foldl_cons, ih]
      unfold charge
      cases net.place? p <;> rfl

theorem marking_fire (timing : Timing α) (net : Net α) (s : Step α) (t : Transition α) :
    (timing.fire net s t).marking = s.marking.fire t :=
  congrArg (Marking.fire t) (timing.marking_charges net t.inputs s)

/-- Firings move the marking of a step along the path. -/
theorem marking_fireAll (timing : Timing α) (hnet : net.Plain)
    (hpath : Tally.Path lim net.transitions f ts f') : ∀ {s : Step α}, s.marking.Ordered →
      s.marking.tally = f →
      (timing.fireAll net s ts).marking.Ordered ∧
        (timing.fireAll net s ts).marking.tally = f' := by
  induction hpath with
  | nil => exact fun hs hf => ⟨hs, hf⟩
  | @cons f f' t ts ht _ _ ih =>
      intro s hs hf
      obtain ⟨hpre, hpost⟩ := hnet t ht
      have hmarking := timing.marking_fire net s t
      apply ih
      · rw [hmarking]
        exact hs.fire hpre hpost
      · rw [hmarking, Marking.tally_fire hs hpre hpost, hf]

end

/-- What a step is charged for the token taken from a place. -/
def toll (timing : Timing Rat) (net : Net Rat) (p : PlaceId) : Course :=
  (net.place? p).elim 1 fun place => ⟨1, place.impacts.getD [], timing.dwell place⟩

theorem toll_counter (net : Net Rat) : counter.toll net = tollIn net.terms := by
  funext p
  unfold toll tollIn Net.terms
  cases net.place? p <;> rfl

variable {net : Net Rat} {s : Step Rat} {ts : List (Transition Rat)}

theorem charge_course (timing : Timing Rat) (net : Net Rat) (s : Step Rat) (p : PlaceId) :
    (timing.charge net s p).course = s.course * timing.toll net p := by
  unfold charge toll
  cases net.place? p with
  | none => exact (mul_one _).symm
  | some place =>
      obtain ⟨id, entryOf, exitOf, duration, impacts, visitLimit⟩ := place
      ext1
      · exact (mul_one s.probability).symm
      · cases impacts with
        | none => exact (Quantity.addEntries_nil _).symm
        | some v => rfl
      · rfl

theorem charge_all (timing : Timing Rat) (net : Net Rat) (ps : List PlaceId) : ∀ s : Step Rat,
    (ps.foldl (timing.charge net) s).course = s.course * (ps.map (timing.toll net)).prod := by
  induction ps with
  | nil => exact fun s => (mul_one _).symm
  | cons p ps ih =>
      intro s
      rw [List.foldl_cons, ih, charge_course, List.map_cons, List.prod_cons, mul_assoc]

theorem fire_course (timing : Timing Rat) (net : Net Rat) (s : Step Rat) (t : Transition Rat) :
    (timing.fire net s t).course = s.course * Piece.price (timing.toll net) t := by
  have hfire : (timing.fire net s t).course =
      (t.inputs.foldl (timing.charge net) s).course * chance t.probability := by
    ext1
    · rfl
    · exact (Quantity.addEntries_nil _).symm
    · exact (add_zero _).symm
  rw [hfire, charge_all, Piece.price, mul_assoc, mul_comm (List.prod _)]

/-- Firings extend a step by their prices. -/
theorem fireAll_course (timing : Timing Rat) (net : Net Rat) (ts : List (Transition Rat)) :
    ∀ s : Step Rat, (timing.fireAll net s ts).course =
      s.course * (ts.map (Piece.price (timing.toll net))).prod := by
  induction ts with
  | nil => exact fun s => (mul_one _).symm
  | cons t ts ih =>
      intro s
      rw [List.map_cons, List.prod_cons, ← mul_assoc, ← fire_course]
      exact ih _

/-- Apart from the time on the clock, nothing takes time where the clock is run. -/
theorem elapsed_prices (net : Net Rat) (step : Option Rat) (ts : List (Transition Rat)) :
    (ts.map (Piece.price ((duration step).toll net))).prod.elapsed = 0 := by
  have htolls :
      ((ts.flatMap Transition.inputs).map ((duration step).toll net)).prod.elapsed = 0 := by
    rw [elapsed_prod, List.map_map]
    refine List.sum_eq_zero fun x hx => ?_
    obtain ⟨p, -, rfl⟩ := List.mem_map.mp hx
    unfold Function.comp toll
    cases net.place? p <;> rfl
  rw [Piece.prod_prices]
  exact (zero_add _).trans htolls

theorem fireAll_counter (net : Net Rat) (ts : List (Transition Rat)) (s : Step Rat) :
    (counter.fireAll net s ts).course =
      s.course * (ts.map (Piece.price (tollIn net.terms))).prod := by
  rw [fireAll_course, toll_counter]

end Timing

/-! ## Rounds -/

namespace Timing

variable {α : Type} [Quantity α] {timing : Timing α} {net : Net α} {m : Marking α}
  {t : Transition α} {n : Nat} {budget : Option α} {s : Step α} {dt : α}

/-- What is due. -/
def due (timing : Timing α) (net : Net α) (m : Marking α) : List (Transition α) :=
  net.transitions.filter (timing.enabled net · m)

theorem mem_due : t ∈ timing.due net m ↔
    t ∈ net.transitions ∧ timing.enabled net t m = true := List.mem_filter

/-- A round leaves everything as it is where a decision is due. -/
theorem saturateFor_of_open (h : (timing.due net s.marking).any Transition.stop = true) :
    timing.saturateFor net (n + 1) budget s = some { s with remaining := budget } := by
  rw [saturateFor]
  exact if_pos h

/-- A round leaves everything as it is where nothing is due and nothing has to wait. -/
theorem saturateFor_of_quiet (hidle : timing.due net s.marking = [])
    (hwait : timing.nextWait net s.marking = none) :
    timing.saturateFor net (n + 1) budget s = some { s with remaining := budget } := by
  have hdue : net.transitions.filter (timing.enabled net · s.marking) = [] := hidle
  rw [saturateFor]
  simp only [hdue, hwait, List.any_nil, List.isEmpty_nil, Bool.false_eq_true, if_false, if_true]

/-- While nothing is due, time passes as far as the budget goes. -/
theorem saturateFor_of_wait {x : α} (hidle : timing.due net s.marking = [])
    (hwait : timing.nextWait net s.marking = some dt)
    (hx : budget.elim dt (Quantity.smaller dt) = x) :
    timing.saturateFor net (n + 1) budget s =
      if x ≤ 0 then some { s with remaining := budget }
      else timing.saturateFor net n (budget.map (· - x))
        { s with marking := s.marking.addTime x, elapsed := s.elapsed + x } := by
  have hdue : net.transitions.filter (timing.enabled net · s.marking) = [] := hidle
  subst hx
  rw [saturateFor]
  simp only [hdue, hwait, List.any_nil, List.isEmpty_nil, Bool.false_eq_true, if_false, if_true]
  cases budget <;> rfl

/-- What is due fires, if no decision is. -/
theorem saturateFor_of_fire (hany : ¬ (timing.due net s.marking).any Transition.stop = true)
    (hsome : timing.due net s.marking ≠ []) :
    timing.saturateFor net (n + 1) budget s =
      timing.saturateFor net n budget (timing.fireAll net s (timing.due net s.marking)) := by
  rw [saturateFor]
  exact (if_neg hany).trans (if_neg (mt List.isEmpty_iff.mp hsome))

end Timing

/-! ## Saturating -/

/-- The transitions that can fire. -/
def Net.admitted (net : Net Rat) (m : Marking Rat) : List (Transition Rat) :=
  net.transitions.filter (net.tokenEnabled · m)

theorem Net.mem_admitted {net : Net Rat} {m : Marking Rat} {t : Transition Rat} :
    t ∈ net.admitted m ↔ t ∈ net.transitions ∧ net.tokenEnabled t m = true := List.mem_filter

/-- A decision is open, or nothing is enabled. -/
def Settled (net : Net Rat) (m : Marking Rat) : Prop :=
  (∃ t ∈ net.transitions, t.stop = true ∧ net.tokenEnabled t m = true) ∨
    ∀ t ∈ net.transitions, net.tokenEnabled t m = false

theorem settled_of_any {net : Net Rat} {m : Marking Rat}
    (h : (net.admitted m).any Transition.stop = true) : Settled net m := by
  obtain ⟨t, ht, hstop⟩ := List.any_eq_true.mp h
  obtain ⟨ht, he⟩ := Net.mem_admitted.mp ht
  exact Or.inl ⟨t, ht, hstop, he⟩

theorem settled_of_nil {net : Net Rat} {m : Marking Rat} (h : net.admitted m = []) :
    Settled net m := by
  refine Or.inr ?_
  intro t ht
  by_contra he
  have hin : t ∈ net.admitted m := Net.mem_admitted.mpr ⟨ht, by simpa using he⟩
  rw [h] at hin
  cases hin

/-- The transitions `ts` have fired on their own, until a decision was open or nothing was
enabled. -/
structure Saturated (net : Net Rat) (s : Step Rat) (ts : List (Transition Rat)) (s' : Step Rat) :
    Prop where
  path : Tally.Path net.limit net.transitions s.marking.tally ts s'.marking.tally
  free : ∀ t ∈ ts, t.stop = false
  ordered : s'.marking.Ordered
  settled : Settled net s'.marking
  course : s'.course = s.course * (ts.map (Piece.price (tollIn net.terms))).prod

/-- Where saturation has nothing to do, it stays. -/
theorem Saturated.stay {net : Net Rat} {s : Step Rat} (hs : s.marking.Ordered)
    (h : Settled net s.marking) : Saturated net s [] { s with remaining := none } :=
  ⟨.nil _, List.forall_mem_nil _, hs, h, (mul_one s.course).symm⟩

namespace Workflow.Consists

variable {w : Workflow Rat} {P : Piece Rat} {s : Step Rat} {m : Marking Rat}

/-- A round in which something fires leaves fewer transitions to fire, and saturation goes on from
there. -/
theorem round (h : w.Consists P) (hs : s.marking.Ordered) (hlive : P.Live s.marking.tally)
    (hstop : ∀ t ∈ w.net.admitted s.marking, t.stop = false)
    (hne : w.net.admitted s.marking ≠ []) {r : Step Rat}
    (hr : r = Timing.counter.fireAll w.net s (w.net.admitted s.marking)) :
    r.marking.Ordered ∧ P.Live r.marking.tally ∧
      P.pristine r.marking.tally < P.pristine s.marking.tally ∧
      ∀ {ts s'}, Saturated w.net r ts s' →
        Saturated w.net s (w.net.admitted s.marking ++ ts) s' := by
  have hround := h.path_of_round (fun t ht => Net.mem_admitted.mp ht)
    (h.transitions_nodup.filter _) hstop
  obtain ⟨hordered, htally⟩ := Timing.counter.marking_fireAll h.plain hround hs rfl
  have hcourse := Timing.fireAll_counter w.net (w.net.admitted s.marking) s
  rw [← hr] at hcourse hordered htally
  rw [← htally] at hround
  have hround' := h.transitions ▸ hround
  have hused := h.placed.pristine_path hlive hround' hstop
  have hpos := List.length_pos_iff.mpr hne
  refine ⟨hordered, h.placed.live_path hlive hround', by omega, fun hsat => ?_⟩
  refine ⟨hround.trans hsat.path, List.forall_mem_append.mpr ⟨hstop, hsat.free⟩, hsat.ordered,
    hsat.settled, ?_⟩
  rw [hsat.course, hcourse, List.map_append, List.prod_append, mul_assoc]

/-- Saturation settles within one round more than there are transitions left to fire. -/
theorem saturateFor_eq_some (h : w.Consists P) {rounds : Nat} (hs : s.marking.Ordered)
    (hlive : P.Live s.marking.tally) (hlt : P.pristine s.marking.tally < rounds) :
    ∃ s' ts, Timing.counter.saturateFor w.net rounds none s = some s' ∧
      Saturated w.net s ts s' := by
  induction rounds generalizing s with
  | zero => exact absurd hlt (Nat.not_lt_zero _)
  | succ rounds ih =>
      by_cases hany : (w.net.admitted s.marking).any Transition.stop = true
      · exact ⟨_, [], Timing.saturateFor_of_open hany, .stay hs (settled_of_any hany)⟩
      by_cases hempty : w.net.admitted s.marking = []
      · exact ⟨_, [], Timing.saturateFor_of_quiet hempty rfl, .stay hs (settled_of_nil hempty)⟩
      have hnext : Timing.counter.saturateFor w.net (rounds + 1) none s =
          Timing.counter.saturateFor w.net rounds none
            (Timing.counter.fireAll w.net s (w.net.admitted s.marking)) :=
        Timing.saturateFor_of_fire hany hempty
      rw [hnext]
      have hstop : ∀ t ∈ w.net.admitted s.marking, t.stop = false := by
        intro t ht
        by_contra hstop
        exact hany (List.any_eq_true.mpr ⟨t, ht, by simpa using hstop⟩)
      -- something fires, so there is less to fire in the next round
      obtain ⟨hordered, hlive', hfewer, hround⟩ := h.round hs hlive hstop hempty rfl
      obtain ⟨s', ts, hsome, hsat⟩ := ih hordered hlive' (by omega)
      exact ⟨s', _, hsome, hround hsat⟩

end Workflow.Consists

end RegionNet
