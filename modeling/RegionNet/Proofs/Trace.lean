import Mathlib.Data.List.Sort
import RegionNet.Proofs.TaskStatus

/-!
# Decisions leave a trace

Some open decisions are taken in one go, and after that transitions fire on their own
(`Piece.Decided`). The tally in which this ends tells what was decided (`Decided.unique`).

Where a decision was taken is told by the visits of its place: one more than before if it was taken,
and as many as before if it stays open. For neither can be undone on the way. What fires on its own
forgets no visits, and a loop goes back only when its body is over, so that none of the open
decisions is in it (`Decided.not_reset`). For the same reason a part with an open decision is not
renewed (`Decided.not_renews`), and its stage tells what it was decided for: of a choice or draw by
nature the branch that was picked was touched (`Decided.touched`), and a loop is over exactly when it
was left (`Decided.done_iff`).
-/

namespace RegionNet

variable {α : Type} {lim : PlaceId → Option Nat} {f f' : Tally} {t u v : Transition α}
  {us us' ts ts' : List (Transition α)} {p : PlaceId}

/-! ## Visits along a path -/

/-- Where nothing is forgotten, visits count how many tokens were taken. -/
theorem Tally.Path.visits {T : List (Transition α)} (h : Path lim T f ts f')
    (hreset : ∀ t ∈ ts, p ∉ t.resetVisits) :
    (f' p).2 = (f p).2 + (ts.map fun t => t.inputs.count p).sum := by
  induction h with
  | nil => rfl
  | @cons f f' t ts _ _ _ ih =>
      obtain ⟨ht, hts⟩ := List.forall_mem_cons.mp hreset
      have hfire : (f.fire t p).2 = (f p).2 + t.inputs.count p := if_neg ht
      rw [ih hts, hfire, List.map_cons, List.sum_cons, Nat.add_assoc]

theorem Tally.Path.visits_eq_iff {T : List (Transition α)} (h : Path lim T f ts f')
    (hreset : ∀ t ∈ ts, p ∉ t.resetVisits) : (f' p).2 = (f p).2 ↔ ∀ t ∈ ts, p ∉ t.inputs := by
  rw [h.visits hreset, Nat.add_eq_left, List.sum_eq_zero_iff]
  simp only [List.forall_mem_map, List.count_eq_zero]

theorem since_of_mem {A B : Transition α → Prop} (ht : t ∈ ts) (hA : A t) (hB : ∀ v ∈ ts, ¬ B v) :
    Since A B ts := by
  obtain ⟨before, after, rfl⟩ := List.append_of_mem ht
  exact ⟨before, t, after, rfl, hA, fun v hv => hB v (by simp [hv])⟩

namespace Piece

variable {P Q R : Piece α} {s : Site α} {bs : List (Piece α)}

/-- A loop goes back only when there is no token in its body. -/
theorem Renews.idle (h : Renews R Q t) (hR : Placed lim R) (hstaged : R.Staged f)
    (ha : f.Admits lim t) (hp : p ∈ Q.zone) : (f p).1 = 0 := by
  obtain ⟨s, body, x, n, hloop, hpart, rfl⟩ := h
  obtain ⟨v, hdone, -⟩ := hloop.done_of_marked hR hstaged (ha.1 _ (by simp [Site.back]))
  exact (hloop.placed hR).body.idle_of_done hdone p (hpart.zone_subset hp)

/-- The first transition takes its token from a place with a smaller number. -/
def Before (t u : Transition α) : Prop :=
  ∃ p q : PlaceId, t.inputs = [p] ∧ u.inputs = [q] ∧ p.index < q.index

theorem Before.decisionPlace_ne (h : Before t u) : t.decisionPlace ≠ u.decisionPlace := by
  obtain ⟨p, q, hp, hq, hlt⟩ := h
  unfold Transition.decisionPlace
  rw [hp, hq]
  intro he
  obtain rfl : p = q := Option.some.inj he
  exact Nat.lt_irrefl _ hlt

instance : Std.Irrefl (@Before α) where
  irrefl _ h := h.decisionPlace_ne rfl

instance : Std.Antisymm (@Before α) where
  antisymm t u h h' := by
    obtain ⟨p, q, hp, hq, hlt⟩ := h
    obtain ⟨q', p', hq', hp', hlt'⟩ := h'
    obtain rfl : p = p' := (List.cons.inj (hp.symm.trans hp')).1
    obtain rfl : q = q' := (List.cons.inj (hq.symm.trans hq')).1
    exact absurd hlt (Nat.lt_asymm hlt')

variable [Quantity α]

/-- What fires on its own forgets no visits. -/
theorem Adds.resets_of_free (h : P.Adds t) (hstop : t.stop = false) : t.resetVisits = [] := by
  cases h with
  | pick | back | leave => cases hstop
  | _ => rfl

/-! ## What was decided -/

/-- The decisions `us` were taken, in the order of their places, and after that the transitions `ts`
fired on their own. -/
structure Decided (lim : PlaceId → Option Nat) (R : Piece α) (f : Tally)
    (us ts : List (Transition α)) (f' : Tally) : Prop where
  decides : ∀ u ∈ us, ∃ p, R.Decides lim f p u
  ascending : us.Pairwise Before
  free : ∀ t ∈ ts, t.stop = false
  path : Tally.Path lim R.transitions f (us ++ ts) f'

namespace Decided

theorem mem_or_free (h : R.Decided lim f us ts f') (ht : t ∈ us ++ ts) :
    (∃ p, R.Decides lim f p t) ∨ t.stop = false :=
  (List.mem_append.mp ht).imp (h.decides t) (h.free t)

theorem mem_of_stop (h : R.Decided lim f us ts f') (ht : t ∈ us ++ ts) (hstop : t.stop = true) :
    t ∈ us := by
  rcases List.mem_append.mp ht with ht | ht
  · exact ht
  · rw [h.free t ht] at hstop
    cases hstop

theorem eq_of_inputs (h : R.Decided lim f us ts f') (hu : u ∈ us) (hv : v ∈ us)
    (hpu : u.inputs = [p]) (hpv : v.inputs = [p]) : u = v := by
  have hnodup : (us.map Transition.decisionPlace).Nodup :=
    List.pairwise_map.mpr (h.ascending.imp Before.decisionPlace_ne)
  apply List.inj_on_of_nodup_map hnodup hu hv
  rw [Transition.decisionPlace, Transition.decisionPlace, hpu, hpv]

/-- The visits of a place with a token are not forgotten. -/
theorem not_reset (h : R.Decided lim f us ts f') (hR : Placed lim R) (hlive : R.Live f)
    (hmarked : 0 < (f p).1) : ∀ t ∈ us ++ ts, p ∉ t.resetVisits := by
  intro t ht hreset
  rcases h.mem_or_free ht with ⟨q, hq⟩ | hstop
  · have hbusy := hR.busy_of_admits hlive hq.mem hq.admits
    exact hmarked.ne' ((hR.event hbusy hq.mem hq.admits).idle_of_reset hreset)
  · obtain ⟨P, -, hadds⟩ := exists_adds (h.path.mem t ht)
    rw [hadds.resets_of_free hstop] at hreset
    cases hreset

/-- A part with a token in its zone is not renewed. -/
theorem not_renews (h : R.Decided lim f us ts f') (hR : Placed lim R) (hlive : R.Live f)
    (hp : p ∈ Q.zone) (hmarked : 0 < (f p).1) : ∀ t ∈ us ++ ts, ¬ Renews R Q t := by
  intro t ht hrenews
  rcases h.mem_or_free ht with ⟨q, hq⟩ | hstop
  · exact hmarked.ne' (hrenews.idle hR hlive.staged hq.admits hp)
  · obtain ⟨s, body, x, n, -, -, rfl⟩ := hrenews
    cases hstop

/-- The visits of a place tell whether a decision was taken there. -/
theorem visits_eq_iff (h : R.Decided lim f us ts f') (hR : Placed lim R) (hlive : R.Live f)
    (hv : R.Decides lim f p v) : (f' p).2 = (f p).2 ↔ ∀ u ∈ us, p ∉ u.inputs := by
  have hpv : p ∈ v.inputs := by simp [hv.inputs]
  rw [h.path.visits_eq_iff (h.not_reset hR hlive (hv.admits.1 p hpv)), List.forall_mem_append]
  refine and_iff_left fun t ht hpt => ?_
  -- what fires on its own takes no token that is to be decided
  have hfree := h.free t ht
  rcases hR.shared (h.path.mem t (List.mem_append_right _ ht)) hv.mem hpt hpv with rfl | hrivals
  · rw [hv.stop] at hfree
    cases hfree
  · rw [hrivals.1] at hfree
    cases hfree

/-- A branch that was picked was touched. -/
theorem touched {g : Gate α} {i : Nat} {b : Piece α} (h : R.Decided lim f us ts f')
    (hR : Placed lim R) (hlive : R.Live f) (hQ : Part (.gateway s g bs) R) (hi : bs[i]? = some b)
    (hu : s.pick g i b ∈ us) : ¬ f'.Untouched b.ground := by
  obtain ⟨q, hq⟩ := h.decides _ hu
  have hmarked : 0 < (f s.entry).1 := hq.admits.1 _ (by simp [Site.pick])
  obtain ⟨hentry, hfresh⟩ := hQ.untouched_of_marked hR hlive.staged hmarked
  have hready : (Piece.gateway s g bs).Ready f :=
    ⟨hentry, fun p hp hne => hfresh p ((List.mem_cons.mp hp).resolve_left hne)⟩
  refine (hQ.untouched_arm_iff hR hlive (Or.inr hready) hi h.path).mpr ?_
  exact since_of_mem (List.mem_append_left _ hu) rfl
    (h.not_renews hR hlive List.mem_cons_self hmarked)

/-- A loop that was to be decided is over exactly when it was left. -/
theorem done_iff {body : Piece α} {x : α} {n : Nat} (h : R.Decided lim f us ts f')
    (hR : Placed lim R) (hlive : R.Live f) (hQ : Part (.loop s body x n) R)
    (hmarked : 0 < (f body.exit).1) :
    (Piece.loop s body x n).Done f' ↔ s.leave body x ∈ us := by
  have hexit : body.exit ∈ (Piece.loop s body x n).zone :=
    List.mem_cons_of_mem _ (exit_mem_ground body)
  have hnot : ¬ (Piece.loop s body x n).Done f := fun hdone =>
    hmarked.ne' ((hQ.placed hR).idle_of_done hdone _ hexit)
  rw [hQ.done_loop_iff hR hlive hnot h.path]
  constructor
  · rintro ⟨before, t, after, he, rfl, -⟩
    exact h.mem_of_stop (he ▸ List.mem_append_right _ List.mem_cons_self) rfl
  · intro hu
    exact since_of_mem (List.mem_append_left _ hu) rfl (h.not_renews hR hlive hexit hmarked)

/-! ## Two ways to the same tally -/

/-- Where one way has taken a decision, so has the other. -/
theorem exists_same_place (h : R.Decided lim f us ts f') (h' : R.Decided lim f us' ts' f')
    (hR : Placed lim R) (hlive : R.Live f) (hu : u ∈ us) (hpu : u.inputs = [p]) :
    ∃ v ∈ us', v.inputs = [p] := by
  obtain ⟨q, hq⟩ := h.decides u hu
  obtain rfl : p = q := (List.cons.inj (hpu.symm.trans hq.inputs)).1
  by_contra hnone
  have hkept : (f' p).2 = (f p).2 := by
    refine (h'.visits_eq_iff hR hlive hq).mpr fun v hv hpv => hnone ⟨v, hv, ?_⟩
    obtain ⟨r, hr⟩ := h'.decides v hv
    rw [hr.inputs, List.mem_singleton] at hpv
    rw [hr.inputs, hpv]
  exact (h.visits_eq_iff hR hlive hq).mp hkept u hu (by simp [hpu])

end Decided

/-- From the entry of a choice or draw by nature, one of the branches is picked. -/
theorem Branched.exists_pick {g : Gate α} (h : Branched lim s bs) (ht : t ∈ arms s g 0 bs)
    (hp : s.entry ∈ t.inputs) : ∃ i b, bs[i]? = some b ∧ t = s.pick g i b := by
  obtain ⟨i, b, hi, ht⟩ := mem_arms.mp ht
  rw [Nat.zero_add] at ht
  have hb : b ∈ bs := List.mem_of_getElem? hi
  rcases ht with rfl | ht | rfl
  · exact ⟨i, b, hi, rfl⟩
  · exact absurd (zone_subset_ground _ (((h.branch hb).within ht).inputs hp)) (h.entry_notMem hb)
  · have he : s.entry = b.exit := by simpa [Site.merge] using hp
    exact absurd (he ▸ exit_mem_ground b) (h.entry_notMem hb)

/-- From the end of its body, a loop goes back or is left. -/
theorem Placed.back_or_leave {body : Piece α} {x : α} {n : Nat}
    (hP : Placed lim (.loop s body x n)) (ht : t ∈ (Piece.loop s body x n).transitions)
    (hp : body.exit ∈ t.inputs) : t = s.back body x ∨ t = s.leave body x := by
  rcases List.mem_cons.mp ht with rfl | ht
  · have he : body.exit = s.entry := by simpa [Site.enter] using hp
    exact absurd he (hP.ne_entry_of_body (exit_mem_ground body))
  rcases List.mem_append.mp ht with ht | ht
  · exact absurd ((hP.body.within ht).inputs hp) hP.body.exit_notMem_zone
  · exact List.mem_pair.mp ht

namespace Decided

/-- Two ways to the same tally have picked the same branch. -/
theorem pick_unique {g : Gate α} {i j : Nat} {b c : Piece α} (h : R.Decided lim f us ts f')
    (h' : R.Decided lim f us' ts' f') (hR : Placed lim R) (hlive : R.Live f)
    (hQ : Part (.gateway s g bs) R) (hi : bs[i]? = some b) (hj : bs[j]? = some c)
    (hu : s.pick g i b ∈ us) (hv : s.pick g j c ∈ us') : s.pick g i b = s.pick g j c := by
  have hgate : Branched lim s bs := (hQ.placed hR).gateway
  have hstaged := hQ.staged hR (hR.live_path hlive h.path).staged
  have hothers := (hgate.alone hstaged (List.mem_of_getElem? hi) (h.touched hR hlive hQ hi hu)).2
  obtain rfl : c = b := by
    by_contra hne
    exact h'.touched hR hlive hQ hj hv (hothers c (List.mem_of_getElem? hj) hne)
  obtain ⟨hlt, -⟩ := List.getElem?_eq_some_iff.mp hi
  rw [(List.getElem?_inj hlt hgate.nodup_branches).mp (hi.trans hj.symm)]

/-- Two ways to the same tally have decided alike about a loop. -/
theorem loop_unique {body : Piece α} {x : α} {n : Nat} (h : R.Decided lim f us ts f')
    (h' : R.Decided lim f us' ts' f') (hR : Placed lim R) (hlive : R.Live f)
    (hQ : Part (.loop s body x n) R) (hu : u ∈ us) (hv : v ∈ us')
    (hpu : u.inputs = [body.exit]) (hpv : v.inputs = [body.exit]) : u = v := by
  have hexit : body.exit ∈ (Piece.loop s body x n).zone :=
    List.mem_cons_of_mem _ (exit_mem_ground body)
  have hleave : (s.leave body x).inputs = [body.exit] := by simp [Site.leave]
  have hway : ∀ {t}, (∃ q, R.Decides lim f q t) → t.inputs = [body.exit] →
      t = s.back body x ∨ t = s.leave body x := by
    rintro t ⟨q, hq⟩ hin
    have hmem : body.exit ∈ t.inputs := by simp [hin]
    exact (hQ.placed hR).back_or_leave (hQ.owns hR hq.mem hmem hexit) hmem
  obtain ⟨q, hq⟩ := h.decides u hu
  have hmarked : 0 < (f body.exit).1 := hq.admits.1 _ (by simp [hpu])
  have hsame : s.leave body x ∈ us ↔ s.leave body x ∈ us' := by
    rw [← h.done_iff hR hlive hQ hmarked, h'.done_iff hR hlive hQ hmarked]
  rcases hway ⟨q, hq⟩ hpu with rfl | rfl
  · rcases hway (h'.decides v hv) hpv with rfl | rfl
    · rfl
    · exact h.eq_of_inputs hu (hsame.mpr hv) hpu hleave
  · exact h'.eq_of_inputs (hsame.mp hu) hv hleave hpv

/-- Two ways to the same tally have taken every decision alike. -/
theorem subset (h : R.Decided lim f us ts f') (h' : R.Decided lim f us' ts' f')
    (hR : Placed lim R) (hlive : R.Live f) : us ⊆ us' := by
  intro u hu
  obtain ⟨p, hp⟩ := h.decides u hu
  obtain ⟨v, hv, hpv⟩ := h.exists_same_place h' hR hlive hu hp.inputs
  obtain ⟨q, hq⟩ := h'.decides v hv
  suffices he : u = v from he ▸ hv
  have hstop := hp.stop
  obtain ⟨Q, hQ, hadds⟩ := exists_adds hp.mem
  cases hadds with
  | run | fork | join | merge | enter => cases hstop
  | pick s g hi =>
      obtain rfl : s.entry = p := (List.cons.inj hp.inputs).1
      have hin : s.entry ∈ v.inputs := by simp [hpv]
      obtain ⟨j, c, hj, rfl⟩ := (hQ.placed hR).gateway.exists_pick
        (hQ.owns hR hq.mem hin List.mem_cons_self) hin
      exact h.pick_unique h' hR hlive hQ hi hj hu hv
  | back s body x n =>
      obtain rfl : body.exit = p := (List.cons.inj hp.inputs).1
      exact h.loop_unique h' hR hlive hQ hu hv hp.inputs hpv
  | leave s body x n =>
      obtain rfl : body.exit = p := (List.cons.inj hp.inputs).1
      exact h.loop_unique h' hR hlive hQ hu hv hp.inputs hpv

/-- Where decisions have led, with what fired on its own after them, tells what was decided. -/
theorem unique (h : R.Decided lim f us ts f') (h' : R.Decided lim f us' ts' f')
    (hR : Placed lim R) (hlive : R.Live f) : us = us' :=
  h.ascending.eq_of_mem_iff h'.ascending fun _ =>
    ⟨fun hu => h.subset h' hR hlive hu, fun hu => h'.subset h hR hlive hu⟩

end Decided

end Piece

end RegionNet
