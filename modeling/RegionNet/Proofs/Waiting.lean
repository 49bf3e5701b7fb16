import RegionNet.Proofs.Decision
import RegionNet.Proofs.Saturation

/-!
# Waiting

Saturation settles also when tokens have to rest. Where nothing can fire though tokens are there,
the clock is put forward by the shortest time that some of them still have to wait, and after that a
transition is due: so there is at most one round of waiting before each round in which something
fires, and twice as many rounds as there are transitions, with two more, are enough
(`Consists.exists_halt`).

This is where arithmetic matters. With rounding, a token may not be due after the very time that it
had to wait; `Quantity.Exact` lists the laws that rule this out. Counting never waits and asks for
no law at all.
-/

namespace RegionNet

/-- The laws of exact arithmetic on which the clock relies. -/
class Quantity.Exact (α : Type) [Quantity α] : Prop where
  lt_iff_not_le : ∀ x y : α, x < y ↔ ¬ y ≤ x
  le_total : ∀ x y : α, x ≤ y ∨ y ≤ x
  le_trans : ∀ x y z : α, x ≤ y → y ≤ z → x ≤ z
  sub_le_iff : ∀ x y z : α, x - y ≤ z ↔ x ≤ y + z
  add_zero : ∀ x : α, x + 0 = x
  le_add_slack : ∀ x : α, x ≤ x + slack
  eq_of_beq : ∀ x y : α, (x == y) = true → x = y

instance : Quantity.Exact Rat where
  lt_iff_not_le _ _ := not_le.symm
  le_total := le_total
  le_trans _ _ _ := le_trans
  sub_le_iff _ _ _ := sub_le_iff_le_add'
  add_zero := add_zero
  le_add_slack x := by
    have hslack : (0 : Rat) ≤ 1 / ((1000000000 : Nat) : Rat) := by positivity
    exact le_add_of_nonneg_right hslack
  eq_of_beq _ _ := eq_of_beq

variable {α : Type} [Quantity α]

namespace Quantity

theorem smaller_foldl_mem (xs : List α) : ∀ x : α, xs.foldl smaller x ∈ x :: xs := by
  induction xs with
  | nil => exact fun x => List.mem_singleton_self x
  | cons y ys ih =>
      intro x
      rw [List.foldl_cons]
      have hmem := ih (smaller x y)
      unfold smaller at hmem ⊢
      split at hmem
      · next hlt =>
          rw [if_pos hlt]
          exact List.mem_cons_of_mem _ hmem
      · next hlt =>
          rw [if_neg hlt]
          rcases List.mem_cons.mp hmem with he | hmem
          · exact List.mem_cons.mpr (Or.inl he)
          · exact List.mem_cons_of_mem _ (List.mem_cons_of_mem _ hmem)

variable [Exact α]

theorem le_larger (x y : α) : x ≤ larger x y ∧ y ≤ larger x y := by
  unfold larger
  have hrefl : ∀ z : α, z ≤ z := fun z => (Exact.le_total z z).elim id id
  split
  · next hlt =>
      have hnot := (Exact.lt_iff_not_le x y).mp hlt
      exact ⟨(Exact.le_total x y).resolve_right hnot, hrefl y⟩
  · next hlt =>
      refine ⟨hrefl x, ?_⟩
      by_contra hnot
      exact hlt ((Exact.lt_iff_not_le x y).mpr hnot)

end Quantity

/-! ## Ages -/

namespace Marking

variable {m m' : Marking α} {p : PlaceId}

omit [Quantity α] in
theorem Ordered.nodup (h : m.Ordered) : m.places.Nodup :=
  List.Pairwise.imp (fun hlt he => Nat.ne_of_lt hlt (congrArg PlaceId.index he)) h

theorem state_restAll (dt : α) (q : PlaceId) (ps : List PlaceId) : ∀ {m : Marking α}, m.Ordered →
    ps.Nodup → (ps.foldl (fun m p => m.modify p (.rest dt)) m).state q =
      if q ∈ ps then (m.state q).rest dt else m.state q := by
  induction ps with
  | nil => exact fun _ _ => rfl
  | cons p ps ih =>
      intro m h hnodup
      obtain ⟨hp, hnodup⟩ := List.nodup_cons.mp hnodup
      rw [List.foldl_cons, ih (h.modify p _) hnodup, state_modify h]
      by_cases hq : q = p
      · subst hq
        simp [hp]
      · simp [hq]

theorem mem_marked (hp : 0 < m.tokens p) : p ∈ m.marked := by
  unfold tokens state at hp
  cases hlookup : m.states.lookup p with
  | none =>
      rw [hlookup] at hp
      exact absurd hp (Nat.lt_irrefl 0)
  | some s =>
      rw [hlookup] at hp
      obtain ⟨before, after, hsplit, -⟩ := List.lookup_eq_some_iff.mp hlookup
      refine List.mem_map.mpr ⟨(p, s), List.mem_filter.mpr ⟨?_, decide_eq_true hp⟩, rfl⟩
      simp [hsplit]

/-- Where tokens are, they grow older. -/
theorem age_addTime (h : m.Ordered) (dt : α) (hp : 0 < m.tokens p) :
    ((m.addTime dt).state p).age = (m.state p).age + dt := by
  have hnodup : m.marked.Nodup := h.nodup.sublist (List.filter_sublist.map Prod.fst)
  unfold addTime
  rw [state_restAll dt p m.marked h hnodup, if_pos (mem_marked hp)]
  rfl

/-! ### Comparing markings -/

/-- Two places with their states that comparing cannot tell apart. -/
structure Alike (x y : PlaceId × PlaceState α) : Prop where
  place : x.1 = y.1
  tokens : x.2.tokens = y.2.tokens
  age : (x.2.age == y.2.age) = true
  visits : x.2.visits = y.2.visits

theorem forall₂_of_beq {xs ys : List (PlaceId × PlaceState α)} (h : (xs == ys) = true) :
    List.Forall₂ Alike xs ys := by
  induction xs generalizing ys with
  | nil =>
      cases ys with
      | nil => exact .nil
      | cons y ys => cases h
  | cons x xs ih =>
      cases ys with
      | nil => cases h
      | cons y ys =>
          have hboth : (x == y) = true ∧ (xs == ys) = true := by
            rw [← Bool.and_eq_true]
            exact h
          refine .cons ?_ (ih hboth.2)
          obtain ⟨p, n, a, v⟩ := x
          obtain ⟨q, k, b, u⟩ := y
          have hentry : (p == q && (n == k && (a == b && v == u))) = true := hboth.1
          simp only [Bool.and_eq_true, beq_iff_eq] at hentry
          exact ⟨hentry.1, hentry.2.1, hentry.2.2.1, hentry.2.2.2⟩

theorem tally_of_beq (h : (m == m') = true) : m.tally = m'.tally := by
  have hall : List.Forall₂ Alike m.states m'.states := forall₂_of_beq h
  funext p
  unfold tally tokens state
  revert hall
  generalize m.states = xs
  generalize m'.states = ys
  intro hall
  induction hall with
  | nil => rfl
  | @cons x y xs ys hxy _ ih =>
      obtain ⟨q, s⟩ := x
      obtain ⟨q', s'⟩ := y
      obtain rfl : q = q' := hxy.place
      rw [List.lookup_cons, List.lookup_cons]
      by_cases hp : p = q
      · simpa [hp] using And.intro hxy.tokens hxy.visits
      · simpa [beq_false_of_ne hp] using ih

/-- With exact arithmetic, markings that compare as equal are equal. -/
theorem eq_of_beq [Quantity.Exact α] (h : (m == m') = true) : m = m' := by
  have hall : List.Forall₂ Alike m.states m'.states := forall₂_of_beq h
  refine congrArg Marking.mk (List.forall₂_eq_eq_eq ▸ hall.imp ?_)
  rintro ⟨p, n, a, v⟩ ⟨q, k, b, u⟩ ⟨hplace, htokens, hage, hvisits⟩
  obtain rfl : p = q := hplace
  obtain rfl : n = k := htokens
  obtain rfl : a = b := Quantity.Exact.eq_of_beq a b hage
  obtain rfl : v = u := hvisits
  rfl

end Marking

/-! ## When tokens are due -/

namespace Net

variable {net : Net α} {m m' : Marking α} {t : Transition α} {p : PlaceId} {dt : α}

theorem tokenEnabled_congr (hpre : t.preset = t.inputs.map (·, 1)) (h : m.tally = m'.tally) :
    net.tokenEnabled t m = net.tokenEnabled t m' := by
  rw [Bool.eq_iff_iff, tokenEnabled_iff hpre, tokenEnabled_iff hpre, h]

variable [Quantity.Exact α]

/-- No token that a transition takes has to wait for longer than the transition. -/
theorem le_wait (ps : List PlaceId) : ∀ x : α,
    let wait := ps.foldl (fun wait p =>
      match net.place? p with
      | some place => Quantity.larger wait (place.duration - (m.state p).age)
      | none => wait) x
    x ≤ wait ∧ ∀ p ∈ ps, ∀ place, net.place? p = some place →
      place.duration - (m.state p).age ≤ wait := by
  induction ps with
  | nil => exact fun x => ⟨(Quantity.Exact.le_total x x).elim id id, List.forall_mem_nil _⟩
  | cons p ps ih =>
      intro x
      rw [List.foldl_cons]
      cases hplace : net.place? p with
      | none =>
          obtain ⟨hle, hall⟩ := ih x
          refine ⟨hle, List.forall_mem_cons.mpr ⟨?_, hall⟩⟩
          intro place hp
          rw [hplace] at hp
          cases hp
      | some place =>
          obtain ⟨hle, hall⟩ := ih (Quantity.larger x (place.duration - (m.state p).age))
          obtain ⟨hleft, hright⟩ := Quantity.le_larger x (place.duration - (m.state p).age)
          refine ⟨Quantity.Exact.le_trans _ _ _ hleft hle, List.forall_mem_cons.mpr ⟨?_, hall⟩⟩
          intro place' hp
          rw [hplace] at hp
          cases hp
          exact Quantity.Exact.le_trans _ _ _ hright hle

/-- When the time has passed that a transition had to wait, all its tokens have rested. -/
theorem rested_of_wait (hle : net.remainingWait t m ≤ dt)
    (hage : ∀ p ∈ t.inputs, (m'.state p).age = (m.state p).age + dt) :
    t.inputs.all (net.rested m') = true := by
  apply List.all_eq_true.mpr
  intro p hp
  unfold rested
  cases hplace : net.place? p with
  | none => rfl
  | some place =>
      have hwait := Quantity.Exact.le_trans _ _ _ ((le_wait t.inputs 0).2 p hp place hplace) hle
      have hdue : place.duration ≤ (m'.state p).age := by
        rw [hage p hp]
        exact (Quantity.Exact.sub_le_iff _ _ _).mp hwait
      exact decide_eq_true
        (Quantity.Exact.le_trans _ _ _ hdue (Quantity.Exact.le_add_slack _))

end Net

/-- The times that transitions with their tokens still have to wait. -/
def Net.waits (net : Net α) (m : Marking α) : List α :=
  ((net.transitions.filter (net.tokenEnabled · m)).map (net.remainingWait · m)).filter (0 < ·)

theorem Net.mem_waits {net : Net α} {m : Marking α} {dt : α} : dt ∈ net.waits m ↔
    ∃ t ∈ net.transitions, net.tokenEnabled t m = true ∧ 0 < net.remainingWait t m ∧
      net.remainingWait t m = dt := by
  simp only [waits, List.mem_filter, List.mem_map, decide_eq_true_eq]
  constructor
  · rintro ⟨⟨t, ⟨ht, he⟩, rfl⟩, hpos⟩
    exact ⟨t, ht, he, hpos, rfl⟩
  · rintro ⟨t, ht, he, hpos, rfl⟩
    exact ⟨⟨t, ⟨ht, he⟩, rfl⟩, hpos⟩

/-! ## Timings that never give up -/

namespace Timing

variable {timing : Timing α} {net : Net α} {m m' : Marking α} {t : Transition α} {dt : α}

theorem nextWait_duration (step : Option α) : (duration step).nextWait net m =
    match net.waits m with
    | [] => none
    | wait :: rest => some (rest.foldl Quantity.smaller wait) := rfl

/-- Counting, or timing without a limit in exact arithmetic. -/
def Steady : Timing α → Prop
  | counter => True
  | duration none => Quantity.Exact α
  | duration (some _) => False

theorem steady_duration [Quantity.Exact α] : (duration (none : Option α)).Steady :=
  inferInstanceAs (Quantity.Exact α)

theorem Steady.budget (h : timing.Steady) : timing.budget = none := by
  cases timing with
  | counter => rfl
  | duration step =>
      cases step with
      | none => rfl
      | some x => cases h

/-- What is enabled is the same in markings that compare as equal. -/
theorem Steady.enabled_of_beq (h : timing.Steady) (hpre : t.preset = t.inputs.map (·, 1))
    (hbeq : (m == m') = true) : timing.enabled net t m = timing.enabled net t m' := by
  cases timing with
  | counter => exact Net.tokenEnabled_congr hpre (Marking.tally_of_beq hbeq)
  | duration step =>
      cases step with
      | none =>
          have : Quantity.Exact α := h
          rw [Marking.eq_of_beq hbeq]
      | some x => cases h

/-- If nothing is due and nothing has to wait, no transition has its tokens. -/
theorem Steady.nextWait_eq_none (h : timing.Steady) (hwait : timing.nextWait net m = none)
    (ht : t ∈ net.transitions) (hnot : timing.enabled net t m = false) :
    net.tokenEnabled t m = false := by
  cases timing with
  | counter => exact hnot
  | duration step =>
      cases step with
      | none =>
          have : Quantity.Exact α := h
          by_contra htokens
          rw [Bool.not_eq_false] at htokens
          -- what it has to wait is not among the times to wait, so it does not wait at all
          have hle : net.remainingWait t m ≤ 0 := by
            by_contra hle
            have hpos := (Quantity.Exact.lt_iff_not_le _ _).mpr hle
            have hmem := Net.mem_waits.mpr ⟨t, ht, htokens, hpos, rfl⟩
            rw [nextWait_duration] at hwait
            cases hwaits : net.waits m with
            | nil =>
                rw [hwaits] at hmem
                cases hmem
            | cons wait rest =>
                rw [hwaits] at hwait
                cases hwait
          have hrested : t.inputs.all (net.rested m) = true :=
            Net.rested_of_wait hle fun p _ => (Quantity.Exact.add_zero _).symm
          have henabled : (net.tokenEnabled t m && t.inputs.all (net.rested m)) = true := by
            rw [htokens, hrested, Bool.and_true]
          exact Bool.false_ne_true (hnot.symm.trans henabled)
      | some x => cases h

/-- After the shortest time to wait, something is due. -/
theorem Steady.nextWait_eq_some (h : timing.Steady) (hwait : timing.nextWait net m = some dt)
    (hnet : net.Plain) (hm : m.Ordered) :
    ¬ dt ≤ 0 ∧ ∃ t ∈ net.transitions, timing.enabled net t (m.addTime dt) = true := by
  cases timing with
  | counter => cases hwait
  | duration step =>
      cases step with
      | none =>
          have : Quantity.Exact α := h
          have hmem : dt ∈ net.waits m := by
            rw [nextWait_duration] at hwait
            cases hwaits : net.waits m with
            | nil =>
                rw [hwaits] at hwait
                cases hwait
            | cons wait rest =>
                rw [hwaits] at hwait
                rw [← Option.some.inj hwait]
                exact Quantity.smaller_foldl_mem rest wait
          obtain ⟨t, ht, htokens, hpos, rfl⟩ := Net.mem_waits.mp hmem
          refine ⟨(Quantity.Exact.lt_iff_not_le _ _).mp hpos, t, ht, ?_⟩
          have hpre := (hnet t ht).1
          have htokens' : net.tokenEnabled t (m.addTime (net.remainingWait t m)) = true := by
            rwa [Net.tokenEnabled_congr hpre (Marking.tally_addTime hm _)]
          have hrested : t.inputs.all (net.rested (m.addTime (net.remainingWait t m))) = true :=
            Net.rested_of_wait ((Quantity.Exact.le_total _ _).elim id id) fun p hp =>
              Marking.age_addTime hm _ (((Net.tokenEnabled_iff hpre).mp htokens).1 p hp)
          show (net.tokenEnabled t _ && t.inputs.all (net.rested _)) = true
          rw [htokens', hrested, Bool.and_true]
      | some x => cases h

/-! ## Saturating -/

/-- A decision is due. -/
def Open (timing : Timing α) (net : Net α) (m : Marking α) : Prop :=
  ∃ t ∈ net.transitions, t.stop = true ∧ timing.enabled net t m = true

theorem open_iff : timing.Open net m ↔ (timing.due net m).any Transition.stop = true := by
  rw [List.any_eq_true]
  constructor
  · rintro ⟨t, ht, hstop, he⟩
    exact ⟨t, mem_due.mpr ⟨ht, he⟩, hstop⟩
  · rintro ⟨t, ht, hstop⟩
    obtain ⟨ht, he⟩ := mem_due.mp ht
    exact ⟨t, ht, hstop, he⟩

/-- A decision is due, or no transition has its tokens. -/
def AtRest (timing : Timing α) (net : Net α) (m : Marking α) : Prop :=
  timing.Open net m ∨ ∀ t ∈ net.transitions, net.tokenEnabled t m = false

/-- The transitions `ts` have fired on their own and time has passed, until there was rest. -/
structure Halts (timing : Timing α) (net : Net α) (s : Step α) (ts : List (Transition α))
    (s' : Step α) : Prop where
  path : Tally.Path net.limit net.transitions s.marking.tally ts s'.marking.tally
  ordered : s'.marking.Ordered
  rest : timing.AtRest net s'.marking

end Timing

namespace Workflow.Consists

variable {w : Workflow α} {P : Piece α} {s : Step α} {timing : Timing α}

/-- Saturation settles. Two rounds for each transition that is left to fire are enough, and one more
where nothing is due. -/
theorem exists_halt (h : w.Consists P) (hsteady : timing.Steady) {rounds : Nat}
    (hs : s.marking.Ordered) (hlive : P.Live s.marking.tally)
    (hlt : 2 * P.pristine s.marking.tally + (if timing.due w.net s.marking = [] then 1 else 0) <
      rounds) :
    ∃ s' ts, timing.saturateFor w.net rounds none s = some s' ∧ timing.Halts w.net s ts s' := by
  induction rounds generalizing s with
  | zero => exact absurd hlt (Nat.not_lt_zero _)
  | succ rounds ih =>
      by_cases hany : (timing.due w.net s.marking).any Transition.stop = true
      · exact ⟨_, [], Timing.saturateFor_of_open hany, .nil _, hs,
          Or.inl (Timing.open_iff.mpr hany)⟩
      by_cases hnone : timing.due w.net s.marking = []
      · rw [if_pos hnone] at hlt
        cases hwait : timing.nextWait w.net s.marking with
        | none =>
            refine ⟨_, [], Timing.saturateFor_of_quiet hnone hwait, .nil _, hs,
              Or.inr fun t ht => ?_⟩
            refine hsteady.nextWait_eq_none hwait ht (Bool.eq_false_iff.mpr fun he => ?_)
            have hdue := Timing.mem_due.mpr ⟨ht, he⟩
            rw [hnone] at hdue
            cases hdue
        -- after waiting, something is due
        | some dt =>
            obtain ⟨hpos, t, ht, he⟩ := hsteady.nextWait_eq_some hwait h.plain hs
            have hdue : timing.due w.net (s.marking.addTime dt) ≠ [] :=
              List.ne_nil_of_mem (Timing.mem_due.mpr ⟨ht, he⟩)
            have htally := Marking.tally_addTime hs dt
            rw [Timing.saturateFor_of_wait (x := dt) hnone hwait rfl, if_neg hpos]
            obtain ⟨s', ts, hsome, hpath, hordered, hrest⟩ := ih
              (s := { s with marking := s.marking.addTime dt, elapsed := s.elapsed + dt })
              (hs.addTime dt) (by rwa [htally]) (by rw [htally, if_neg hdue]; omega)
            exact ⟨s', ts, hsome, htally ▸ hpath, hordered, hrest⟩
      · rw [Timing.saturateFor_of_fire hany hnone]
        rw [if_neg hnone] at hlt
        -- something fires, so there is less to fire in the next round
        have hstop : ∀ t ∈ timing.due w.net s.marking, t.stop = false := fun t ht =>
          Bool.eq_false_iff.mpr fun hstop => hany (List.any_eq_true.mpr ⟨t, ht, hstop⟩)
        have hround := h.path_of_round
          (fun t ht => (Timing.mem_due.mp ht).imp_right Timing.tokenEnabled_of_enabled)
          (h.transitions_nodup.filter _) hstop
        obtain ⟨hordered, htally⟩ := timing.marking_fireAll h.plain hround hs rfl
        have hround' := h.transitions ▸ hround
        have hused := h.placed.pristine_path hlive hround' hstop
        have hlive' := h.placed.live_path hlive hround'
        have hpos := List.length_pos_iff.mpr hnone
        rw [← htally] at hused hlive' hround
        obtain ⟨s', ts, hsome, hpath, hordered', hrest⟩ := ih hordered hlive' (by split <;> omega)
        exact ⟨s', _, hsome, hround.trans hpath, hordered', hrest⟩

/-- Two rounds for each transition and two more are always enough. -/
theorem exists_halt_of_lt (h : w.Consists P) (hsteady : timing.Steady) {rounds : Nat}
    (hs : s.marking.Ordered) (hlive : P.Live s.marking.tally)
    (hlt : 2 * w.net.transitions.length + 1 < rounds) :
    ∃ s' ts, timing.saturateFor w.net rounds none s = some s' ∧ timing.Halts w.net s ts s' := by
  have hpristine : P.pristine s.marking.tally ≤ w.net.transitions.length := by
    rw [h.transitions]
    exact List.countP_le_length
  apply h.exists_halt hsteady hs hlive
  split <;> omega

end Workflow.Consists

end RegionNet
