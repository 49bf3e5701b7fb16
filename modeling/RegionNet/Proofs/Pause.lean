import RegionNet.Proofs.Prompt

/-!
# Pauses

A call with a time budget may stop in the middle of a wait, and the next call goes on from there.
Nothing is lost by that. Time that passes in two pieces is time that passes (`Marking.addTime_add`),
and a wait that is interrupted has just so much time left (`Timing.Idles.split`); both need whole
numbers, since the slack with which times are compared would let something become due early.

What saturation does without a budget is a sequence of rounds (`Timing.Settles`), and which round
comes next depends on the marking alone. A call with a budget runs through a first part of this
sequence, where a wait may be cut in two; it comes to the end, or it has used up the budget and
stands in a marking in which nothing is due (`Timing.Settles.exists_paused`).
-/

namespace RegionNet

open Course

/-! ## Time in pieces -/

namespace Marking

/-- Time that passes in two pieces is time that passes. -/
theorem addTime_add {m : Marking Rat} (h : m.Ordered) (d e : Rat) :
    (m.addTime d).addTime e = m.addTime (d + e) := by
  have hd := h.addTime d
  refine ext_of_state (hd.addTime e) (h.addTime (d + e)) ?_ fun p => ?_
  · rw [places_addTime hd, places_addTime h, places_addTime h]
  · rw [state_addTime hd, tokens_addTime h, state_addTime h, state_addTime h]
    split
    · show PlaceState.mk _ ((m.state p).age + d + e) _ = ⟨_, (m.state p).age + (d + e), _⟩
      rw [add_assoc]
      rfl
    · rfl

/-- A marking in order in which all tokens have rested for whole times. -/
structure Whole (m : Marking Rat) : Prop where
  ordered : m.Ordered
  ages : ∀ p, (m.state p).age ∈ whole

theorem Whole.addTime {m : Marking Rat} (hm : m.Whole) {dt : Rat} (hdt : dt ∈ whole) :
    (m.addTime dt).Whole :=
  ⟨hm.ordered.addTime dt, Workflow.Consists.age_addTime_mem hm.ordered hm.ages hdt⟩

end Marking

namespace Workflow.Consists

variable {w : Workflow Rat} {P : Piece Rat} {m : Marking Rat} {ts : List (Transition Rat)}

theorem whole_initial (h : w.Consists P) : w.initial.Whole :=
  ⟨h.ordered_initial, fun p => h.age_initial p ▸ whole.zero_mem⟩

theorem whole_fireAll (h : w.Consists P) (hts : ∀ t ∈ ts, t ∈ w.net.transitions)
    (hm : m.Whole) : (ts.foldl (fun m t => m.fire t) m).Whole := by
  induction ts generalizing m with
  | nil => exact hm
  | cons t ts ih =>
      obtain ⟨ht, hts⟩ := List.forall_mem_cons.mp hts
      obtain ⟨hpre, hpost⟩ := h.plain t ht
      exact ih hts ⟨hm.ordered.fire hpre hpost, h.age_fire_mem hm.ordered hm.ages ht⟩

end Workflow.Consists

/-! ## Interrupted waits -/

/-- What a transition has to wait grows less as time passes. -/
theorem Net.remainingWait_addTime {net : Net Rat} {m : Marking Rat} {t : Transition Rat} {x : Rat}
    (hm : m.Ordered) (hpre : t.preset = t.inputs.map (·, 1))
    (htokens : net.tokenEnabled t m = true) (hx : 0 < x) (hle : x ≤ net.remainingWait t m) :
    net.remainingWait t (m.addTime x) = net.remainingWait t m - x := by
  have hage : ∀ p ∈ t.inputs, ((m.addTime x).state p).age = (m.state p).age + x := fun p hp =>
    Marking.age_addTime hm x (((tokenEnabled_iff hpre).mp htokens).1 p hp)
  apply le_antisymm
  · rcases net.exists_wait (m.addTime x) t.inputs 0 with hzero | ⟨p, hp, place, hplace, hwait⟩
    · exact (le_of_eq hzero).trans (sub_nonneg.mpr hle)
    · have hold : place.duration - (m.state p).age ≤ net.remainingWait t m :=
        (le_wait t.inputs 0).2 p hp place hplace
      have hnew : net.remainingWait t (m.addTime x) = place.duration - ((m.state p).age + x) :=
        hage p hp ▸ hwait
      linarith
  · rcases net.exists_wait m t.inputs 0 with hzero | ⟨p, hp, place, hplace, hwait⟩
    · exact absurd (hle.trans (le_of_eq hzero)) (not_le.mpr hx)
    · have hnew : place.duration - ((m.addTime x).state p).age ≤
          net.remainingWait t (m.addTime x) := (le_wait t.inputs 0).2 p hp place hplace
      have hold : net.remainingWait t m = place.duration - (m.state p).age := hwait
      rw [hage p hp] at hnew
      linarith

namespace Timing

/-- Nothing is due, and the time `dt` has to pass until something is. -/
structure Idles (timing : Timing Rat) (net : Net Rat) (m : Marking Rat) (dt : Rat) : Prop where
  idle : timing.due net m = []
  next : timing.nextWait net m = some dt

variable {net : Net Rat} {m m' : Marking Rat} {step : Option Rat} {x dt : Rat} {o : Course}

theorem nextWait_of_least (hmem : dt ∈ net.waits m) (hleast : ∀ y ∈ net.waits m, dt ≤ y) :
    (duration step).nextWait net m = some dt := by
  rw [nextWait_duration]
  cases hwaits : net.waits m with
  | nil =>
      rw [hwaits] at hmem
      cases hmem
  | cons y ys =>
      rw [hwaits] at hmem hleast
      exact congrArg some (le_antisymm (smaller_foldl_le ys y dt hmem)
        (hleast _ (Quantity.smaller_foldl_mem ys y)))

namespace Idles

theorem pos (h : (duration step).Idles net m dt) : 0 < dt := by
  obtain ⟨⟨t, -, -, hpos, rfl⟩, -⟩ := nextWait_eq_some h.next
  exact hpos

theorem le_remainingWait (h : (duration step).Idles net m dt) {t : Transition Rat}
    (ht : t ∈ net.transitions) (htokens : net.tokenEnabled t m = true) :
    dt ≤ net.remainingWait t m := by
  have hnot : net.enabled t m = false := by
    by_contra hdue
    have hmem : t ∈ (duration step).due net m := mem_due.mpr ⟨ht, (Bool.not_eq_false _).mp hdue⟩
    rw [h.idle] at hmem
    cases hmem
  exact (nextWait_eq_some h.next).2 t ht htokens (Net.remainingWait_pos htokens hnot)

variable {w : Workflow Rat} {P : Piece Rat}

/-- A wait that is interrupted goes on for the rest of its time. -/
theorem split (hidles : (duration step).Idles w.net m dt) (h : w.Consists P)
    (hwhole : ∀ p ∈ P.zone, w.net.delay p ∈ whole) (hm : m.Whole) (hx : x ∈ whole)
    (hpos : 0 < x) (hlt : x < dt) : (duration step).Idles w.net (m.addTime x) (dt - x) := by
  have hwait : ∀ t ∈ w.net.transitions, w.net.tokenEnabled t (m.addTime x) = true →
      w.net.tokenEnabled t m = true ∧ dt ≤ w.net.remainingWait t m ∧
        w.net.remainingWait t (m.addTime x) = w.net.remainingWait t m - x := by
    intro t ht htokens
    have hpre := (h.plain t ht).1
    rw [Net.tokenEnabled_congr hpre (Marking.tally_addTime hm.ordered x)] at htokens
    have hle := hidles.le_remainingWait ht htokens
    exact ⟨htokens, hle, Net.remainingWait_addTime hm.ordered hpre htokens hpos (hlt.le.trans hle)⟩
  constructor
  -- the slack is less than what is left to wait
  · refine List.filter_eq_nil_iff.mpr fun t ht hdue => ?_
    obtain ⟨-, hle, hrest⟩ := hwait t ht (tokenEnabled_of_enabled hdue)
    obtain ⟨p, hp, hleft⟩ := Net.exists_remainingWait (t := t) (m := m.addTime x) (by linarith)
    have hdelay := h.delay_le_age hwhole (hm.addTime hx).ages ht hdue hp
    linarith
  · obtain ⟨⟨t, ht, htokens, -, hdt⟩, -⟩ := nextWait_eq_some hidles.next
    have htokens' : w.net.tokenEnabled t (m.addTime x) = true := by
      rwa [Net.tokenEnabled_congr (h.plain t ht).1 (Marking.tally_addTime hm.ordered x)]
    have hleft := (hwait t ht htokens').2.2
    rw [hdt] at hleft
    refine nextWait_of_least (Net.mem_waits.mpr ⟨t, ht, htokens', ?_, hleft⟩) fun y hy => ?_
    · rw [hleft]
      exact sub_pos.mpr hlt
    · obtain ⟨u, hu, hue, -, rfl⟩ := Net.mem_waits.mp hy
      obtain ⟨-, hle, hrest⟩ := hwait u hu hue
      rw [hrest]
      exact sub_le_sub_right hle x

end Idles

/-! ## Rounds -/

/-- What the next round of saturation takes and the marking that it leads to, if there is one. -/
def round (timing : Timing Rat) (net : Net Rat) (m : Marking Rat) :
    Option (Course × Marking Rat) :=
  if (timing.due net m).any Transition.stop then none
  else if (timing.due net m).isEmpty then
    (timing.nextWait net m).map fun dt => (wait dt, m.addTime dt)
  else some (((timing.due net m).map (Piece.price (timing.toll net))).prod,
    (timing.due net m).foldl (fun m t => m.fire t) m)

/-- Within fewer than `n` rounds saturation comes from one marking to another one, where it stops,
and takes a course. -/
inductive Settles (timing : Timing Rat) (net : Net Rat) :
    Nat → Marking Rat → Course → Marking Rat → Prop where
  | stop {n : Nat} {m : Marking Rat} (h : timing.round net m = none) :
      Settles timing net (n + 1) m 1 m
  | next {n : Nat} {m m' m'' : Marking Rat} {o o' : Course}
      (hround : timing.round net m = some (o, m')) (h : Settles timing net n m' o' m'') :
      Settles timing net (n + 1) m (o * o') m''

variable {timing : Timing Rat} {n k : Nat} {s s' : Step Rat}

theorem Idles.round_eq (h : timing.Idles net m dt) :
    timing.round net m = some (wait dt, m.addTime dt) := by
  rw [round, h.idle, h.next]
  rfl

/-- Where tokens wait, saturation does not stop. -/
theorem Idles.ne_of_stopped (h : timing.Idles net m dt) (hstop : timing.round net m' = none) :
    (m' == m) = false := by
  by_contra hsame
  rw [Marking.eq_of_beq ((Bool.not_eq_false _).mp hsame), h.round_eq] at hstop
  cases hstop

/-- A round waits, or it fires what is due. -/
theorem round_cases (h : timing.round net m = some (o, m')) :
    (∃ dt, timing.Idles net m dt ∧ o = wait dt ∧ m' = m.addTime dt) ∨
      (¬ (timing.due net m).any Transition.stop = true) ∧ timing.due net m ≠ [] ∧
        o = ((timing.due net m).map (Piece.price (timing.toll net))).prod ∧
        m' = (timing.due net m).foldl (fun m t => m.fire t) m := by
  unfold round at h
  split at h
  · cases h
  · next hany =>
      split at h
      · next hnone =>
          obtain ⟨dt, hnext, hdt⟩ := Option.map_eq_some_iff.mp h
          cases hdt
          exact Or.inl ⟨dt, ⟨List.isEmpty_iff.mp hnone, hnext⟩, rfl, rfl⟩
      · next hsome =>
          cases h
          exact Or.inr ⟨hany, mt List.isEmpty_iff.mpr hsome, rfl, rfl⟩

/-! ### Rounds of saturation -/

/-- Without a next round, a call leaves everything as it is. -/
theorem saturateFor_of_stop {budget : Option Rat} (h : timing.round net s.marking = none) :
    timing.saturateFor net (n + 1) budget s = some { s with remaining := budget } := by
  unfold round at h
  split at h
  · next hany => exact saturateFor_of_open hany
  · split at h
    · next hidle =>
        exact saturateFor_of_quiet (List.isEmpty_iff.mp hidle) (Option.map_eq_none_iff.mp h)
    · cases h

/-- While tokens wait, time passes as far as the budget goes. -/
theorem saturateFor_of_idles {budget : Option Rat} (h : timing.Idles net s.marking dt)
    (hx : budget.elim dt (Quantity.smaller dt) = x) (hpos : 0 < x) :
    timing.saturateFor net (n + 1) budget s = timing.saturateFor net n (budget.map (· - x))
      { s with marking := s.marking.addTime x, elapsed := s.elapsed + x } := by
  rw [saturateFor_of_wait h.idle h.next hx, if_neg (not_le.mpr hpos)]

/-- Nothing is left to wait with. -/
theorem saturateFor_of_spent (h : (duration step).Idles net s.marking dt) :
    (duration step).saturateFor net (n + 1) (some 0) s = some { s with remaining := some 0 } := by
  have hx : (some 0).elim dt (Quantity.smaller dt) = 0 := if_pos h.pos
  rw [saturateFor_of_wait h.idle h.next hx, if_pos (le_refl 0)]

/-- What saturation does without a budget. -/
theorem exists_settles (h : (duration step).saturateFor net n none s = some s') :
    ∃ o, (duration step).Settles net n s.marking o s'.marking ∧ s'.course = s.course * o := by
  induction n generalizing s with
  | zero => cases h
  | succ n ih =>
      cases hround : (duration step).round net s.marking with
      | none =>
          rw [saturateFor_of_stop hround] at h
          obtain rfl := Option.some.inj h
          exact ⟨1, .stop hround, (mul_one s.course).symm⟩
      | some next =>
          obtain ⟨o, m'⟩ := next
          rcases round_cases hround with ⟨dt, hidles, rfl, rfl⟩ | ⟨hany, hsome, rfl, rfl⟩
          · rw [saturateFor_of_idles hidles (x := dt) rfl hidles.pos] at h
            obtain ⟨o, hsettles, hcourse⟩ := ih h
            refine ⟨_, .next hround hsettles, ?_⟩
            rw [hcourse, ← mul_assoc]
            exact congrArg (· * o) (s.course_wait _ dt)
          · rw [saturateFor_of_fire hany hsome] at h
            obtain ⟨o, hsettles, hcourse⟩ := ih h
            rw [marking_fireAll_eq] at hsettles
            refine ⟨_, .next hround hsettles, ?_⟩
            rw [hcourse, fireAll_course, mul_assoc]

namespace Settles

variable {o' : Course} {m'' : Marking Rat}

/-- Where saturation comes to and what it takes does not depend on how many rounds there are. -/
theorem unique (h : timing.Settles net n m o m') (h' : timing.Settles net k m o' m'') :
    o' = o ∧ m'' = m' := by
  induction h generalizing k o' m'' with
  | stop hstop =>
      cases h' with
      | stop => exact ⟨rfl, rfl⟩
      | next hround =>
          rw [hstop] at hround
          cases hround
  | next hround _ ih =>
      cases h' with
      | stop hstop =>
          rw [hstop] at hround
          cases hround
      | next hround' h' =>
          obtain ⟨rfl, rfl⟩ := Prod.mk.inj (Option.some.inj (hround.symm.trans hround'))
          obtain ⟨rfl, rfl⟩ := ih h'
          exact ⟨rfl, rfl⟩

theorem stopped (h : timing.Settles net n m o m') : timing.round net m' = none := by
  induction h with
  | stop hstop => exact hstop
  | next _ _ ih => exact ih

theorem succ (h : timing.Settles net n m o m') : timing.Settles net (n + 1) m o m' := by
  induction h with
  | stop hstop => exact .stop hstop
  | next hround _ ih => exact .next hround ih

theorem mono (h : timing.Settles net n m o m') (hle : n ≤ k) : timing.Settles net k m o m' := by
  induction hle with
  | refl => exact h
  | step _ ih => exact ih.succ

/-- The length of a time step has no part in what happens without a budget. -/
theorem of_duration {step' : Option Rat} (h : (duration step).Settles net n m o m') :
    (duration step').Settles net n m o m' := by
  induction h with
  | stop hstop => exact .stop hstop
  | next hround _ ih => exact .next hround ih

end Settles

end Timing

/-! ## Calls with a budget -/

namespace Timing

variable {w : Workflow Rat} {P : Piece Rat} {m m' : Marking Rat} {step : Option Rat} {n : Nat}
  {o o₁ o₂ : Course} {b dt : Rat} {s v : Step Rat}

theorem whole_round (h : w.Consists P) (hwhole : ∀ p ∈ P.zone, w.net.delay p ∈ whole)
    (hround : (duration step).round w.net m = some (o, m')) (hm : m.Whole) : m'.Whole := by
  rcases round_cases hround with ⟨dt, hidles, -, rfl⟩ | ⟨-, -, -, rfl⟩
  · exact hm.addTime (h.nextWait_mem hwhole hm.ages hidles.next)
  · exact h.whole_fireAll (fun t ht => (mem_due.mp ht).1) hm

theorem Settles.whole (h : w.Consists P) (hwhole : ∀ p ∈ P.zone, w.net.delay p ∈ whole)
    (hsettles : (duration step).Settles w.net n m o m') (hm : m.Whole) : m'.Whole := by
  induction hsettles with
  | stop => exact hm
  | next hround _ ih => exact ih (whole_round h hwhole hround hm)

theorem Settles.elapsed_nonneg {net : Net Rat} (h : (duration step).Settles net n m o m') :
    0 ≤ o.elapsed := by
  induction h with
  | stop => exact le_refl _
  | next hround _ ih =>
      rcases round_cases hround with ⟨dt, hidles, rfl, -⟩ | ⟨-, -, rfl, -⟩
      · exact add_nonneg hidles.pos.le ih
      · exact add_nonneg (elapsed_prices _ _ _).ge ih

/-- A call with the budget `b` has extended the step `s` to `v` by a part `o₁` of the course that
leads to `m'`, and `o₂` is left of it: nothing, or the budget is used up. -/
structure Paused (timing : Timing Rat) (net : Net Rat) (n : Nat) (b : Rat) (s v : Step Rat)
    (o₁ o₂ : Course) (m' : Marking Rat) : Prop where
  whole : v.marking.Whole
  course : v.course = s.course * o₁
  rest : timing.Settles net n v.marking o₂ m'
  pause : v.marking = m' ∧ o₂ = 1 ∨ o₁.elapsed = b ∧ ∃ dt, timing.Idles net v.marking dt

namespace Paused

theorem fire (h : (duration step).Paused w.net n b
      ((duration step).fireAll w.net s ((duration step).due w.net s.marking)) v o₁ o₂ m') :
    (duration step).Paused w.net (n + 1) b s v
      ((((duration step).due w.net s.marking).map
        (Piece.price ((duration step).toll w.net))).prod * o₁) o₂ m' := by
  refine ⟨h.whole, ?_, h.rest.succ, h.pause.imp_right fun ⟨hspent, hidles⟩ => ⟨?_, hidles⟩⟩
  · rw [h.course, fireAll_course, mul_assoc]
  · rw [← hspent]
    show Course.elapsed (List.prod _) + o₁.elapsed = o₁.elapsed
    rw [elapsed_prices, zero_add]

theorem wait (h : (duration step).Paused w.net n (b - dt)
      { s with marking := s.marking.addTime dt, elapsed := s.elapsed + dt } v o₁ o₂ m') :
    (duration step).Paused w.net (n + 1) b s v (Course.wait dt * o₁) o₂ m' := by
  refine ⟨h.whole, ?_, h.rest.succ, h.pause.imp_right fun ⟨hspent, hidles⟩ => ⟨?_, hidles⟩⟩
  · rw [h.course, ← mul_assoc]
    exact congrArg (· * o₁) (s.course_wait _ dt)
  · show dt + o₁.elapsed = b
    rw [hspent, add_sub_cancel]

end Paused

/-- A budget that does not last until the end of a wait cuts the wait in two. -/
theorem Idles.exists_paused (hidles : (duration step).Idles w.net s.marking dt)
    (h : w.Consists P) (hwhole : ∀ p ∈ P.zone, w.net.delay p ∈ whole) (hb : 0 ≤ b)
    (hb' : b ∈ whole) (hs : s.marking.Whole) (hlt : b < dt)
    (hrest : (duration step).Settles w.net n (s.marking.addTime dt) o m') :
    ∃ v o₁ o₂, (duration step).saturateFor w.net (n + 2) (some b) s = some v ∧
      Course.wait dt * o = o₁ * o₂ ∧ (duration step).Paused w.net (n + 1) b s v o₁ o₂ m' := by
  have hx : (some b).elim dt (Quantity.smaller dt) = b := if_pos hlt
  rcases hb.eq_or_lt with rfl | hpos
  · exact ⟨_, 1, _, saturateFor_of_spent hidles, (one_mul _).symm, hs, (mul_one s.course).symm,
      .next hidles.round_eq hrest, Or.inr ⟨rfl, dt, hidles⟩⟩
  · have hleft := hidles.split h hwhole hs hb' hpos hlt
    have hround := hleft.round_eq
    rw [Marking.addTime_add hs.ordered, add_sub_cancel] at hround
    have hspent := saturateFor_of_spent (n := n)
      (s := { s with marking := s.marking.addTime b, elapsed := s.elapsed + b }) hleft
    refine ⟨{ s with
        marking := s.marking.addTime b, elapsed := s.elapsed + b, remaining := some 0 },
      Course.wait b, Course.wait (dt - b) * o, ?_, ?_, hs.addTime hb',
      s.course_wait (s.marking.addTime b) b, .next hround hrest, Or.inr ⟨rfl, _, hleft⟩⟩
    · rw [saturateFor_of_idles hidles hx hpos, Option.map_some, sub_self]
      exact hspent
    · rw [← mul_assoc, wait_mul_wait, add_sub_cancel]

/-- A call with a budget goes through a first part of what happens without one. -/
theorem Settles.exists_paused (hsettles : (duration step).Settles w.net n m o m')
    (h : w.Consists P) (hwhole : ∀ p ∈ P.zone, w.net.delay p ∈ RegionNet.whole) (hb : 0 ≤ b)
    (hb' : b ∈ RegionNet.whole) (hs : s.marking.Whole) (hm : s.marking = m) :
    ∃ v o₁ o₂, (duration step).saturateFor w.net (n + 1) (some b) s = some v ∧ o = o₁ * o₂ ∧
      (duration step).Paused w.net n b s v o₁ o₂ m' := by
  induction hsettles generalizing b s with
  | stop hstop =>
      subst hm
      exact ⟨_, 1, 1, saturateFor_of_stop hstop, (mul_one 1).symm, hs, (mul_one s.course).symm,
        .stop hstop, Or.inl ⟨rfl, rfl⟩⟩
  | @next n m m₁ m' o o' hround hrest ih =>
      subst hm
      have hm₁ := whole_round h hwhole hround hs
      rcases round_cases hround with ⟨dt, hidles, rfl, rfl⟩ | ⟨hany, hsome, rfl, rfl⟩
      · rcases lt_or_ge b dt with hlt | hle
        · exact hidles.exists_paused h hwhole hb hb' hs hlt hrest
        · have hx : (some b).elim dt (Quantity.smaller dt) = dt := if_neg (not_lt.mpr hle)
          have hdt := h.nextWait_mem hwhole hs.ages hidles.next
          obtain ⟨v, o₁, o₂, hcall, rfl, hpaused⟩ := ih (b := b - dt)
            (s := { s with marking := s.marking.addTime dt, elapsed := s.elapsed + dt })
            (sub_nonneg.mpr hle) (RegionNet.whole.sub_mem hb' hdt) hm₁ rfl
          refine ⟨v, _, o₂, ?_, (mul_assoc _ _ _).symm, hpaused.wait⟩
          rw [saturateFor_of_idles hidles hx hidles.pos]
          exact hcall
      · rw [← (duration step).marking_fireAll_eq w.net] at hm₁
        obtain ⟨v, o₁, o₂, hcall, rfl, hpaused⟩ := ih hb hb' hm₁
          ((duration step).marking_fireAll_eq w.net _ s)
        refine ⟨v, _, o₂, ?_, (mul_assoc _ _ _).symm, hpaused.fire⟩
        rw [saturateFor_of_fire hany hsome]
        exact hcall

end Timing

end RegionNet
