import RegionNet.Proofs.Conduct
import RegionNet.Proofs.Counters

/-!
# Ages

The age of a place is the time that its token has been there. Putting a token down does not touch
the age, so this rests on what happened before: no token is put where there is one, and whatever
takes a token leaves the age at zero. The sum is the one that the clock has formed, advance by
advance and starting from zero, so it is right to the last bit, whatever the numbers do.
-/

namespace RegionNet

variable {α : Type}

/-! ## The time since a token was put down -/

namespace Act

variable {p : PlaceId} {as : List (Act α)} {t : Transition α} {dt : α}

/-- The act puts a token on the place. -/
def puts (p : PlaceId) : Act α → Bool
  | fire t => t.outputs.contains p
  | pass _ => false

/-- What has been done since a token was put on the place, or from the start if none was. -/
def since (p : PlaceId) (as : List (Act α)) : List (Act α) := as.rtakeWhile fun a => !a.puts p

/-- The advances of the clock, one after the other. -/
def advances (as : List (Act α)) : List α :=
  as.filterMap fun
    | fire _ => none
    | pass dt => some dt

theorem since_put (hp : p ∈ t.outputs) : since p (as ++ [fire t]) = [] := by
  rw [since, List.rtakeWhile_concat, if_neg]
  simpa [puts] using hp

theorem since_fire (hp : p ∉ t.outputs) : since p (as ++ [fire t]) = since p as ++ [fire t] := by
  rw [since, List.rtakeWhile_concat, if_pos]
  · rfl
  · simpa [puts] using hp

theorem since_pass : since p (as ++ [pass dt]) = since p as ++ [pass dt] := by
  rw [since, List.rtakeWhile_concat]
  exact if_pos rfl

variable [Quantity α]

/-- How long the clock has gone on since a token was put on the place, added up from left to
right. -/
def dwell (p : PlaceId) (as : List (Act α)) : α := (advances (since p as)).foldl (· + ·) 0

theorem dwell_put (hp : p ∈ t.outputs) : dwell p (as ++ [fire t]) = 0 := by
  rw [dwell, since_put hp]
  rfl

theorem dwell_fire (hp : p ∉ t.outputs) : dwell p (as ++ [fire t]) = dwell p as := by
  rw [dwell, since_fire hp, advances, List.filterMap_append, List.filterMap_cons_none rfl,
    List.filterMap_nil, List.append_nil]
  rfl

theorem dwell_pass : dwell p (as ++ [pass dt]) = dwell p as + dt := by
  rw [dwell, since_pass, advances, List.filterMap_append, List.foldl_append]
  rfl

end Act

/-! ## Runs, act by act -/

variable [Quantity α]

/-- The acts lead from one marking to another. Whatever fires has its tokens, and the clock goes on
as it likes. -/
inductive Net.Performs (net : Net α) (m : Marking α) : List (Act α) → Marking α → Prop where
  | nil : Performs net m [] m
  | fire {m' : Marking α} {as : List (Act α)} {t : Transition α} (h : Performs net m as m')
      (ht : t ∈ net.transitions) (he : net.tokenEnabled t m' = true) :
      Performs net m (as ++ [.fire t]) (m'.fire t)
  | pass {m' : Marking α} {as : List (Act α)} (h : Performs net m as m') (dt : α) :
      Performs net m (as ++ [.pass dt]) (m'.addTime dt)

namespace Net

variable {net : Net α} {m m' m'' : Marking α} {as : List (Act α)} {ts : List (Transition α)}

/-- Wherever a process can get, it gets by acts. -/
theorem wanders_iff : net.Wanders m m' ↔ ∃ as, net.Performs m as m' := by
  constructor
  · intro h
    induction h with
    | refl => exact ⟨[], .nil⟩
    | fire _ ht he ih => exact ih.imp' _ fun _ h => .fire h ht he
    | rest _ dt ih => exact ih.imp' _ fun _ h => .pass h dt
  · rintro ⟨as, h⟩
    induction h with
    | nil => exact .refl _
    | fire _ ht he ih => exact .fire ih ht he
    | pass _ dt ih => exact .rest ih dt

theorem Run.performs (h : net.Run m' ts m'') (hm : net.Performs m as m') :
    net.Performs m (as ++ ts.map .fire) m'' := by
  induction h generalizing as with
  | nil => rwa [List.map_nil, List.append_nil]
  | cons ht he _ ih =>
      rw [List.map_cons, List.append_cons]
      exact ih (.fire hm ht he)

end Net

/-! ## Ages of tokens -/

/-- The place has the age of its token after the acts; without a token, it has none. -/
structure Marking.Aged (m : Marking α) (as : List (Act α)) (p : PlaceId) : Prop where
  empty : m.tokens p = 0 → (m.state p).age = 0
  /-- Nothing has taken the token since it was put there. -/
  kept : 0 < m.tokens p → m.tokens p = 1 ∧ ∀ t ∈ Act.fired (Act.since p as), p ∉ t.inputs
  age : 0 < m.tokens p → (m.state p).age = Act.dwell p as

namespace Workflow.Consists

variable {w : Workflow α} {P : Piece α} {m m' : Marking α} {as : List (Act α)} {t : Transition α}
  {p : PlaceId}

open Piece

theorem aged_initial (h : w.Consists P) (p : PlaceId) : w.initial.Aged [] p where
  empty _ := h.age_initial p
  kept hp := by
    refine ⟨?_, List.forall_mem_nil _⟩
    have htally : w.initial.tokens p = _ := congrArg Prod.fst (h.tally_initial p)
    rw [htally] at hp ⊢
    split at hp
    · next he => rw [if_pos he]
    · cases hp
  age _ := h.age_initial p

/-- One step: a transition fires. A new token is as old as nothing, one that is taken leaves nothing
behind, and the others are not touched. -/
theorem aged_fire (h : w.Consists P) (hm : m.Ordered) (halive : Alive P m.tally)
    (ht : t ∈ w.net.transitions) (he : w.net.tokenEnabled t m = true) (haged : m.Aged as p) :
    (m.fire t).Aged (as ++ [.fire t]) p := by
  obtain ⟨hpre, hpost⟩ := h.plain t ht
  have ha := (h.enabled_iff ht).mp he
  obtain ⟨hin, hout, hdisj, -⟩ := h.placed.simple (h.transitions ▸ ht)
  have htokens : (m.fire t).tokens p = m.tokens p - t.inputs.count p + t.outputs.count p :=
    congrArg Prod.fst (congrFun (Marking.tally_fire hm hpre hpost) p)
  have hage := Marking.age_fire hm hpre hpost p
  by_cases hput : p ∈ t.outputs
  · have hnone : m.tokens p = 0 := h.tokens_eq_zero halive ht ha hput
    have hnot : p ∉ t.inputs := fun hp => hdisj hp hput
    rw [if_neg hnot, haged.empty hnone] at hage
    rw [hnone, List.count_eq_one_of_mem hout hput, Nat.zero_sub, Nat.zero_add] at htokens
    refine ⟨fun _ => hage, fun _ => ⟨htokens, ?_⟩, fun _ => ?_⟩
    · rw [Act.since_put hput]
      exact List.forall_mem_nil _
    · rw [hage, Act.dwell_put hput]
  rw [List.count_eq_zero_of_not_mem hput, Nat.add_zero] at htokens
  by_cases htaken : p ∈ t.inputs
  · have hone := (h.bounded_of_alive halive p).1
    have hnone : (m.fire t).tokens p = 0 := by
      rw [htokens, List.count_eq_one_of_mem hin htaken]
      exact Nat.sub_eq_zero_of_le hone
    rw [if_pos htaken] at hage
    exact ⟨fun _ => hage, fun hp => absurd hnone hp.ne', fun hp => absurd hnone hp.ne'⟩
  · rw [if_neg htaken] at hage
    rw [List.count_eq_zero_of_not_mem htaken, Nat.sub_zero] at htokens
    refine ⟨fun hp => ?_, fun hp => ?_, fun hp => ?_⟩
    · rw [hage, haged.empty (htokens ▸ hp)]
    · obtain ⟨hone, hkept⟩ := haged.kept (htokens ▸ hp)
      rw [Act.since_fire hput, Act.fired_append]
      exact ⟨htokens.trans hone, List.forall_mem_append.mpr
        ⟨hkept, List.forall_mem_singleton.mpr htaken⟩⟩
    · rw [hage, Act.dwell_fire hput, haged.age (htokens ▸ hp)]

end Workflow.Consists

/-- One step: the clock goes on, for every token alike. -/
theorem Marking.Aged.pass {m : Marking α} {as : List (Act α)} {p : PlaceId} (h : m.Aged as p)
    (hm : m.Ordered) (dt : α) : (m.addTime dt).Aged (as ++ [.pass dt]) p := by
  have htokens := tokens_addTime hm dt p
  refine ⟨fun hp => ?_, fun hp => ?_, fun hp => ?_⟩
  · have hnone := htokens ▸ hp
    rw [state_addTime hm, if_neg (by omega), h.empty hnone]
  · obtain ⟨hone, hkept⟩ := h.kept (htokens ▸ hp)
    rw [Act.since_pass, Act.fired_append]
    exact ⟨htokens.trans hone, List.forall_mem_append.mpr ⟨hkept, List.forall_mem_nil _⟩⟩
  · have hmarked := htokens ▸ hp
    rw [age_addTime hm dt hmarked, h.age hmarked, Act.dwell_pass]

/-- In every run of a valid process, places are as old as the tokens on them. -/
theorem Workflow.aged_of_validate {r : Region α} (h : r.validate = .ok ()) :
    ∃ w, compile r = .ok w ∧ ∀ as m, w.net.Performs w.initial as m → ∀ p, m.Aged as p := by
  obtain ⟨blk, n, -, hcompile, hproper, -⟩ := compile_of_validate h
  obtain ⟨P, rfl, hP⟩ := exists_piece hproper
  refine ⟨_, hcompile, fun as m hrun p => ?_⟩
  induction hrun with
  | nil => exact hP.aged_initial p
  | fire hrun ht he ih =>
      obtain ⟨hm, ts, hpath⟩ :=
        (Net.wanders_iff.mpr ⟨_, hrun⟩).path hP.plain hP.ordered_initial
      exact hP.aged_fire hm (hP.alive_of_path hpath) ht he ih
  | pass hrun dt ih =>
      have hm := ((Net.wanders_iff.mpr ⟨_, hrun⟩).path hP.plain hP.ordered_initial).1
      exact ih.pass hm dt

/-- The place where the loop makes its choice is as old as its token each time round: one unit of
time when it is left, and a quarter of a unit, not more, a quarter of a unit after it is entered
again. -/
theorem Workflow.aged_sample : ∃ (w : Workflow Rat) (as bs : List (Act Rat)) (m m' : Marking Rat),
    compile Region.sample = .ok w ∧ w.net.Performs w.initial as m ∧ 0 < m.tokens ⟨10⟩ ∧
      Act.dwell ⟨10⟩ as = 1 ∧ w.net.Performs w.initial (as ++ bs) m' ∧ 0 < m'.tokens ⟨10⟩ ∧
      (m'.state ⟨10⟩).age = 1 / 4 ∧ Act.dwell ⟨10⟩ (as ++ bs) = 1 / 4 := by
  obtain ⟨w, hcompile, hall⟩ := aged_of_validate Region.sample_valid
  have hcheck : (match compile Region.sample with
      | .ok w => (w.net.replay [0, 1, 2, 3, 4] w.initial).any fun m =>
          (decide (0 < (m.addTime 1).tokens ⟨10⟩) && ((m.addTime 1).state ⟨10⟩).age == 1) &&
            (w.net.replay [5, 6, 7, 16] (m.addTime 1)).any fun m' =>
              decide (0 < (m'.addTime (1 / 4)).tokens ⟨10⟩) &&
                ((m'.addTime (1 / 4)).state ⟨10⟩).age == 1 / 4
      | .error _ => false) = true := by decide +kernel
  rw [hcompile] at hcheck
  obtain ⟨m, hm, hcheck⟩ := (Option.any_eq_true _ _).mp hcheck
  obtain ⟨hfirst, hcheck⟩ := (Bool.and_eq_true _ _ ▸ hcheck : _ ∧ _)
  obtain ⟨m', hm', hsecond⟩ := (Option.any_eq_true _ _).mp hcheck
  simp only [Bool.and_eq_true, decide_eq_true_eq, beq_iff_eq] at hfirst hsecond
  obtain ⟨ts, hrun⟩ := Net.exists_run_of_replay hm
  obtain ⟨us, hrun'⟩ := Net.exists_run_of_replay hm'
  have hperforms := (hrun.performs .nil).pass 1
  have hperforms' := (hrun'.performs hperforms).pass (1 / 4)
  rw [List.append_assoc] at hperforms'
  exact ⟨w, _, _, _, _, hcompile, hperforms, hfirst.1,
    ((hall _ _ hperforms _).age hfirst.1).symm.trans hfirst.2, hperforms', hsecond.1, hsecond.2,
    ((hall _ _ hperforms' _).age hsecond.1).symm.trans hsecond.2⟩

end RegionNet
