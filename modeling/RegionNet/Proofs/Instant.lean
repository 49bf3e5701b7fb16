import Mathlib
import RegionNet.Proofs.Budget
import RegionNet.Proofs.Pause
import RegionNet.Proofs.Settling

/-!
# Instants

The clock stops at the next instant at which a transition can fire, and it stops at every one of
them. Two definitions have to fit together for that: a token is due as soon as it has rested for its
time up to the slack, while the time that is left to wait knows of no slack. What is left to wait
for a transition is a maximum over its tokens, and the clock goes on by the least such time. So
before that time, less the slack, some token of each transition has not rested long enough; and when
it is over, the transition that had the least to wait has no token left that waits
(`Timing.Idles.nextAfter`).

In a call without a time step every jump of the clock is one of these (`Consists.idles_of_acts`),
and the call does not end while there is something to wait for.
-/

namespace RegionNet

/-! ## One jump -/

/-- The next instant at which a transition can fire is `dt` from now. -/
structure Net.NextAfter (net : Net Rat) (m : Marking Rat) (dt : Rat) : Prop where
  pos : 0 < dt
  idle : ∀ t ∈ net.transitions, net.enabled t m = false
  early : ∀ e, 0 < e → e + Quantity.slack < dt →
    ∀ t ∈ net.transitions, net.enabled t (m.addTime e) = false
  due : ∃ t ∈ net.transitions, net.enabled t (m.addTime dt) = true

namespace Timing

variable {net : Net Rat} {m : Marking Rat} {t : Transition Rat} {dt e : Rat}

namespace Idles

variable {timeStep : Option Rat}

/-- With what the slack allows for, a token is not due before the wait is over. -/
theorem le_add_slack (hidles : (duration timeStep).Idles net m dt) (hnet : net.Plain)
    (hm : m.Ordered) (ht : t ∈ net.transitions) (hdue : net.enabled t (m.addTime e) = true) :
    dt ≤ e + Quantity.slack := by
  have hpre := (hnet t ht).1
  obtain ⟨htokens, hrested⟩ : net.tokenEnabled t (m.addTime e) = true ∧
      t.inputs.all (net.rested (m.addTime e)) = true := (Bool.and_eq_true _ _).mp hdue
  rw [Net.tokenEnabled_congr hpre (Marking.tally_addTime hm e)] at htokens
  have hwait := hidles.le_remainingWait ht htokens
  -- the token for which the transition waits the longest has rested now, or so it seems
  rcases net.exists_wait m t.inputs 0 with hzero | ⟨p, hp, place, hplace, hlongest⟩
  · exact absurd (hwait.trans (le_of_eq hzero)) (not_le.mpr hidles.pos)
  have hrest : net.rested (m.addTime e) p = true := List.all_eq_true.mp hrested p hp
  have hmarked := ((Net.tokenEnabled_iff hpre).mp htokens).1 p hp
  rw [Net.rested, hplace, Marking.age_addTime hm e hmarked, decide_eq_true_eq] at hrest
  have hlongest' : net.remainingWait t m = place.duration - (m.state p).age := hlongest
  linarith

/-- A wait ends at the next instant at which a transition can fire. -/
theorem nextAfter (hidles : (duration timeStep).Idles net m dt) (hnet : net.Plain)
    (hm : m.Ordered) : net.NextAfter m dt where
  pos := hidles.pos
  idle t ht := by
    by_contra hdue
    have hmem : t ∈ (duration timeStep).due net m :=
      mem_due.mpr ⟨ht, (Bool.not_eq_false _).mp hdue⟩
    rw [hidles.idle] at hmem
    cases hmem
  early e _ hlt t ht := by
    by_contra hdue
    have hle := hidles.le_add_slack hnet hm ht ((Bool.not_eq_false _).mp hdue)
    exact absurd hlt (not_lt.mpr hle)
  due := (steady_duration.nextWait_eq_some hidles.next hnet hm).2

end Idles

end Timing

/-! ## All jumps of a call -/

/-- What comes before an act that is not among the first ones begins with them. -/
theorem Act.exists_before {as bs before after : List (Act Rat)} {a : Act Rat} (ha : a ∉ as)
    (h : as ++ bs = before ++ a :: after) :
    ∃ later, before = as ++ later ∧ bs = later ++ a :: after := by
  rcases List.append_eq_append_iff.mp h with ⟨later, hbefore, hbs⟩ | ⟨rest, has, hrest⟩
  · exact ⟨later, hbefore, hbs⟩
  · cases rest with
    | nil => exact ⟨[], by simpa using has.symm, by simpa using hrest.symm⟩
    | cons b rest =>
        obtain ⟨rfl, -⟩ := List.cons.inj hrest
        exact absurd (has ▸ List.mem_append_right before List.mem_cons_self) ha

/-- Where the clock goes on in a call without a time step, nothing else can be done. -/
theorem Workflow.Consists.idles_of_acts {w : Workflow Rat} {P : Piece Rat} {m : Marking Rat}
    {n : Nat} {dt : Rat} {before after : List (Act Rat)} (h : w.Consists P) (hm : m.Ordered)
    (hacts : (Timing.duration none).acts w.net n none m = before ++ .pass dt :: after) :
    (before.foldl Act.perform m).Ordered ∧
      (Timing.duration none).Idles w.net (before.foldl Act.perform m) dt := by
  induction n generalizing m before with
  | zero => cases before <;> cases hacts
  | succ n ih =>
      cases hnext : (Timing.duration none).next w.net none m with
      | none =>
          rw [Timing.acts_of_next_eq_none hnext] at hacts
          cases before <;> cases hacts
      | some round =>
          obtain ⟨as, left⟩ := round
          have hordered := (h.next_path hm hnext).1
          rw [Timing.acts_of_next_eq_some hnext] at hacts
          rcases Timing.next_cases hnext with
            ⟨-, -, rfl, rfl⟩ | ⟨wait, hidle, hwait, -, rfl, rfl⟩
          · have hfires : Act.pass dt ∉ ((Timing.duration none).due w.net m).map Act.fire := by simp
            obtain ⟨later, rfl, hlater⟩ := Act.exists_before hfires hacts
            rw [List.foldl_append]
            exact ih hordered hlater
          · cases before with
            | nil =>
                obtain ⟨hdt, -⟩ := List.cons.inj hacts
                obtain rfl : wait = dt := Act.pass.inj hdt
                exact ⟨hm, hidle, hwait⟩
            | cons b before =>
                obtain ⟨rfl, hlater⟩ := List.cons.inj hacts
                exact ih (m := m.addTime wait) hordered hlater

/-! ## Calls -/

/-- What a call for saturation without a time step does with the clock, for at most `rounds` rounds
from the marking `m`. -/
structure Workflow.Punctual (w : Workflow Rat) (rounds : Nat) (m : Marking Rat) : Prop where
  /-- The step is made by the acts of the call. -/
  made : ∀ step, Strategy.saturate ⟨.duration none, rounds⟩ w m = .ok step →
    step = { (Strategy.acts ⟨.duration none, rounds⟩ w m).foldl
      ((Timing.duration none).perform w.net) (.identity m w.dimensions) with remaining := none }
  /-- Each time the clock goes on, it does so from a marking in which nothing is due and stops at
  the next instant at which something is. -/
  jump : ∀ before dt after,
    Strategy.acts ⟨.duration none, rounds⟩ w m = before ++ .pass dt :: after →
      w.net.NextAfter (before.foldl Act.perform m) dt
  /-- The call answers only where a decision is due or no transition has its tokens. -/
  rest : ∀ step, Strategy.saturate ⟨.duration none, rounds⟩ w m = .ok step →
    (∃ t ∈ w.net.transitions, t.stop = true ∧ w.net.enabled t step.marking = true) ∨
      ∀ t ∈ w.net.transitions, w.net.tokenEnabled t step.marking = false

namespace Workflow

variable {w : Workflow Rat} {P : Piece Rat} {m : Marking Rat}

theorem Consists.punctual (h : w.Consists P) (rounds : Nat) (hm : m.Ordered) :
    w.Punctual rounds m where
  made step hstep := by
    have hsome := Strategy.saturate_eq_ok_iff.mp hstep
    have hmade := Timing.eq_of_acts hsome
    rwa [(Timing.over_of_unlimited hsome).1] at hmade
  jump before dt after hacts := by
    obtain ⟨hordered, hidles⟩ := h.idles_of_acts hm hacts
    exact hidles.nextAfter h.plain hordered
  rest step hstep := by
    obtain ⟨-, hover⟩ := Timing.over_of_unlimited (Strategy.saturate_eq_ok_iff.mp hstep)
    exact Timing.atRest_of_next_eq_none hover fun x hx => by cases hx

/-- From any marking, the clock jumps to the next instant at which a transition can fire, and a call
ends only where there is no such instant to wait for. -/
theorem punctual_of_compile {r : Region Rat} (h : compile r = .ok w) (rounds : Nat)
    (hm : m.Ordered) : w.Punctual rounds m := by
  obtain ⟨blk, n, -, hcompile, hproper, -⟩ := compile_of_validate (compile_eq_ok_iff.mp ⟨w, h⟩)
  obtain rfl := Except.ok.inj (hcompile.symm.trans h)
  obtain ⟨P, -, hP⟩ := exists_piece hproper
  exact hP.punctual rounds hm

/-- When the tasks `a` and `b` have begun, the clock jumps once, by one unit of time, after which
`a` is done; the call then runs on until the choice is open. -/
theorem punctual_sample : ∃ (w : Workflow Rat) (fork : Transition Rat) (after : List (Act Rat)),
    compile Region.sample = .ok w ∧ w.initial.Ordered ∧
      Strategy.acts ⟨.duration none, 50⟩ w w.initial = [.fire fork] ++ .pass 1 :: after ∧
      w.net.NextAfter (w.initial.fire fork) 1 := by
  obtain ⟨blk, n, -, hcompile, hproper, -⟩ := compile_of_validate Region.sample_valid
  obtain ⟨P, -, hP⟩ := exists_piece hproper
  have hm := hP.ordered_initial
  generalize ofBlock blk = w at hcompile hm
  have hcheck : (match compile Region.sample with
      | .ok w =>
          let acts := Strategy.acts ⟨.duration none, 50⟩ w w.initial
          acts.head?.any (fun a => a.transition?.isSome) &&
            acts.tail.head?.any fun b => b.transition?.isNone && Act.passed [b] == 1
      | .error _ => false) = true := by decide +kernel
  rw [hcompile] at hcheck
  obtain ⟨hfirst, hsecond⟩ := (Bool.and_eq_true _ _ ▸ hcheck : _ ∧ _)
  obtain ⟨a, ha, hfork⟩ := (Option.any_eq_true _ _).mp hfirst
  obtain ⟨b, hb, hpass⟩ := (Option.any_eq_true _ _).mp hsecond
  obtain ⟨rest, hacts⟩ := List.head?_eq_some_iff.mp ha
  rw [hacts, List.tail_cons] at hb
  obtain ⟨after, rfl⟩ := List.head?_eq_some_iff.mp hb
  cases a with
  | pass => cases hfork
  | fire fork =>
      cases b with
      | fire => cases hpass
      | pass dt =>
          obtain rfl : dt = 1 := (add_zero dt).symm.trans (eq_of_beq hpass)
          have hpunctual := punctual_of_compile hcompile 50 hm
          exact ⟨w, fork, after, hcompile, hm, hacts, hpunctual.jump [.fire fork] 1 after hacts⟩

end Workflow

end RegionNet
