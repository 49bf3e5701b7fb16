import RegionNet.Proofs.Consistency

/-!
# Reports over time

A region without loops only moves forward: it waits, is active, is done, and no firing takes it
back, unless a loop around it goes back (`Workflow.advances_of_validate`). Between its first and its
last move the report on a region follows from the tokens in its zone. It is active until all of them
rest in front of the joins and merges with which it ends, and from there they can only go on to
other such places or leave (`Placed.winding_step`). A loop would break this: where its body ends, the
token is in front of no join or merge any more.
-/

namespace RegionNet

variable {α : Type}

/-! ## Forward -/

namespace Activity

/-- How far a region has come that is not struck out: it waits, is active, or is done. -/
def progress : Activity → Nat
  | active => 1
  | completed => 2
  | completedWithoutPassingOver => 2
  | _ => 0

/-- What may become of the state of a region. -/
structure Advances (a b : Activity) : Prop where
  forward : a ≠ .willNotBeExecuted → b ≠ .willNotBeExecuted → a.progress ≤ b.progress
  stays : a = .willNotBeExecuted → b = .willNotBeExecuted
  /-- Only what has not begun is struck out. -/
  struckOut : b = .willNotBeExecuted → a = .willNotBeExecuted ∨ a = .waiting

variable {a : Activity}

theorem progress_of_done (h : a.done = true) : a.progress = 2 := by
  cases a <;> first | rfl | cases h

theorem progress_le (a : Activity) : a.progress ≤ 2 := by
  cases a <;> decide

theorem le_progress_of_started (h : a.started = true) : 1 ≤ a.progress := by
  cases a <;> first | decide | cases h

end Activity

namespace Piece

variable {lim : PlaceId → Option Nat} {f f' : Tally} {P Q R : Piece α} {s : Site α}
  {bs : List (Piece α)} {p q : PlaceId}

/-! ## Tokens in tails -/

/-- No loop is in the piece. -/
def LoopFree (P : Piece α) : Prop := ∀ s body x n, ¬ Part (.loop s body x n) P

theorem LoopFree.of_part (h : P.LoopFree) (hQ : Part Q P) : Q.LoopFree := fun s body x n hloop =>
  h s body x n (hQ.trans hloop)

/-- Tails of one branch are no tails of the others. -/
theorem Branched.tail_of_zone {b : Piece α} (h : Branched lim s bs) (hb : b ∈ bs) (hp : p ∈ b.zone)
    (htails : p ∈ Layout.tailsAll (layouts bs)) : p ∈ b.layout.tails := by
  obtain ⟨c, hc, hcases⟩ := mem_tailsAll_layouts.mp htails
  rcases hcases with rfl | htail
  · exact absurd rfl (h.ne_exit_of_zone hb hc hp)
  · obtain rfl := h.eq_of_zones hb hc hp (tails_subset_zone c htail)
    exact htail

theorem Winding.congr (h : P.Winding f) (hsame : ∀ p ∈ P.zone, f' p = f p) : P.Winding f' :=
  fun p hp hmarked => h p hp (hsame p hp ▸ hmarked)

variable [Quantity α] {t : Transition α}

theorem Branched.outputs_of_tail {b : Piece α} (h : Branched lim s bs) (hb : b ∈ bs)
    (ih : q ∈ b.layout.tails → p = b.exit ∨ p ∈ b.layout.tails) (ht : t ∈ b.transitions)
    (hq : q ∈ t.inputs) (htail : q ∈ Layout.tailsAll (layouts bs)) :
    p ∈ Layout.tailsAll (layouts bs) := by
  have hzone : q ∈ b.zone := ((h.branch hb).within ht).inputs hq
  exact mem_tailsAll_layouts.mpr ⟨b, hb, ih (h.tail_of_zone hb hzone htail)⟩

/-- What is taken from the tails of a piece without loops goes on to its tails or leaves. -/
theorem Placed.outputs_of_tail (hP : Placed lim P) (hfree : P.LoopFree) (ht : t ∈ P.transitions)
    (hq : q ∈ t.inputs) (htail : q ∈ P.layout.tails) (hp : p ∈ t.outputs) :
    p = P.exit ∨ p ∈ P.layout.tails := by
  induction P using Piece.ind with
  | task s v => exact absurd htail List.not_mem_nil
  | sequential s P Q _ ihQ =>
      have hzone : q ∈ Q.zone := tails_subset_zone Q htail
      have hown : t ∈ Q.transitions := Part.owns (.second .self) hP ht hq hzone
      exact (ihQ hP.snd (hfree.of_part (.second .self)) hown htail).imp_left
        fun he => he.trans hP.snd_exit
  | parallel s bs ih =>
      have h := hP.parallel
      rcases List.mem_cons.mp ht with rfl | ht
      · obtain rfl : q = s.entry := by simpa [Site.fork] using hq
        exact absurd htail h.entry_notMem_tails
      rcases List.mem_append.mp ht with ht | ht
      · obtain ⟨b, hb, ht⟩ := mem_transitionsAll.mp ht
        have hfree' := hfree.of_part (.branch hb .self)
        exact Or.inr (h.outputs_of_tail hb (ih b hb (h.branch hb) hfree' ht) ht hq htail)
      · obtain rfl : t = s.join bs := List.mem_singleton.mp ht
        exact Or.inl (show p = s.exit by simpa [Site.join] using hp)
  | gateway s g bs ih =>
      have h := hP.gateway
      rw [tails_gateway] at htail ⊢
      obtain ⟨i, b, hi, ht⟩ := mem_arms.mp ht
      have hb : b ∈ bs := List.mem_of_getElem? hi
      rcases ht with rfl | ht | rfl
      · obtain rfl : q = s.entry := by simpa [Site.pick] using hq
        exact absurd htail h.entry_notMem_tails
      · have hfree' := hfree.of_part (.arm hb .self)
        exact Or.inr (h.outputs_of_tail hb (ih b hb (h.branch hb) hfree' ht) ht hq htail)
      · exact Or.inl (show p = s.exit by simpa [Site.merge] using hp)
  | loop s body x n _ => exact absurd .self (hfree s body x n)

/-- Once all tokens of a piece without loops rest in its tails, they stay there or leave. -/
theorem Placed.winding_step (hP : Placed lim P) (hfree : P.LoopFree) (hwinding : P.Winding f)
    (ht : t ∈ P.transitions) (ha : f.Admits lim t) : P.Winding (f.fire t) := by
  intro p hp hmarked
  have hwithin := hP.within ht
  by_cases hout : p ∈ t.outputs
  · obtain ⟨q, hq⟩ := List.exists_mem_of_ne_nil _ hwithin.takes
    have htail := hwinding q (hwithin.inputs hq) (ha.1 q hq)
    exact (hP.outputs_of_tail hfree ht hq htail hout).resolve_left (hP.ne_exit hp)
  · have htokens : (f.fire t p).1 = (f p).1 - t.inputs.count p + t.outputs.count p := rfl
    rw [List.count_eq_zero_of_not_mem hout] at htokens
    exact hwinding p hp (by omega)

/-! ## The state of a part over time -/

variable {net : Net α} {m m' : Marking α} {ts : List (Transition α)}

theorem Tells.done (h : P.Tells net m) (hdone : P.Busy m.tally ∧ P.Winding m.tally ∨ P.Done m.tally) :
    (P.state net m).progress = 2 := by
  rcases hdone with ⟨hbusy, hwinding⟩ | hdone
  · exact Activity.progress_of_done (h.winding hbusy hwinding)
  · exact Activity.progress_of_done (h.ended hdone)

/-- Its own moves take a piece without loops forward. -/
theorem Placed.progress_of_own (hP : Placed lim P) (hfree : P.LoopFree) (hbusy : P.Busy m.tally)
    (ht : t ∈ P.transitions) (ha : m.tally.Admits lim t) (hm' : m'.tally = m.tally.fire t) :
    (P.state net m).progress ≤ (P.state net m').progress := by
  have htells : P.Tells net m := hP.tells
  have htells' : P.Tells net m' := hP.tells
  have hstep : P.Busy m'.tally ∨ P.Done m'.tally := by
    rw [hm']
    exact (hP.step hbusy ht ha).imp And.left And.left
  by_cases hwinding : P.Winding m.tally
  · have hwinding' : P.Winding m'.tally := hm' ▸ hP.winding_step hfree hwinding ht ha
    rw [htells'.done (hstep.imp_left fun hbusy' => ⟨hbusy', hwinding'⟩)]
    exact Activity.progress_le _
  · rw [htells.active hbusy hwinding]
    rcases hstep with hbusy' | hdone'
    · exact Activity.le_progress_of_started (htells'.started hbusy')
    · exact Activity.le_progress_of_started (Status.started_of_done (htells'.ended hdone'))

/-- Where the zone of a piece stays as it is, its progress does. -/
theorem Placed.progress_of_same (hP : Placed lim P) (hstaged : P.Staged m.tally)
    (hsame : ∀ p ∈ P.zone, m'.tally p = m.tally p) :
    (P.state net m).progress ≤ (P.state net m').progress := by
  have htells : P.Tells net m := hP.tells
  have htells' : P.Tells net m' := hP.tells
  rcases hstaged with hfresh | ⟨hbusy, -⟩ | hdone
  · rw [htells.fresh hfresh]
    exact Nat.zero_le _
  · by_cases hwinding : P.Winding m.tally
    · rw [htells'.done (Or.inl ⟨hP.busy_congr hsame hbusy, hwinding.congr hsame⟩)]
      exact Activity.progress_le _
    · rw [htells.active hbusy hwinding]
      exact Activity.le_progress_of_started (htells'.started (hP.busy_congr hsame hbusy))
  · rw [htells'.done (Or.inr (hP.done_congr hsame hdone))]
    exact Activity.progress_le _

/-- No move takes a part without loops back, unless a loop around it goes back. -/
theorem Part.progress_le (h : Part Q R) (hR : Placed lim R) (hfree : Q.LoopFree)
    (hlive : R.Live m.tally) (ht : t ∈ R.transitions) (ha : m.tally.Admits lim t)
    (hnot : ¬ Renews R Q t) (hm' : m'.tally = m.tally.fire t) :
    (Q.state net m).progress ≤ (Q.state net m').progress := by
  have hQ := h.placed hR
  have hstaged := h.staged hR hlive.staged
  cases h.effect hR (hR.busy_of_admits hlive ht ha) ht ha with
  | own ht => exact hQ.progress_of_own hfree (hQ.busy_of_own hstaged ht ha) ht ha hm'
  | renewal hrenews => exact absurd hrenews hnot
  | start hfresh _ =>
      have htells : Q.Tells net m := hQ.tells
      rw [htells.fresh hfresh]
      exact Nat.zero_le _
  | nothing hsame => exact hQ.progress_of_same hstaged fun p hp => hm' ▸ hsame p hp

/-! ## Strikes -/

omit [Quantity α] in
/-- A loop around what is around a part is around the part. -/
theorem Renews.of_part (hrenews : Renews R P t) (h : Part Q P) : Renews R Q t := by
  obtain ⟨s, body, x, n, hloop, hpart, rfl⟩ := hrenews
  exact ⟨s, body, x, n, hloop, hpart.trans h, rfl⟩

/-- What was passed by stays so, unless a loop around it goes back. -/
theorem PassedBy.snoc (h : PassedBy R Q ts) (hnot : ¬ Renews R Q t) : PassedBy R Q (ts ++ [t]) := by
  obtain ⟨s, g, bs, hgate, i, b, hi, hpart, j, c, hne, hj, hsince⟩ := h
  refine ⟨s, g, bs, hgate, i, b, hi, hpart, j, c, hne, hj, since_snoc.mpr (Or.inr ⟨hsince, ?_⟩)⟩
  exact fun hrenews => hnot (hrenews.of_part (hpart.arm (List.mem_of_getElem? hi)))

/-- What is passed by with a move was not touched before. -/
theorem PassedBy.untouched (h : PassedBy R Q (ts ++ [t])) (hnot : ¬ PassedBy R Q ts)
    (hR : Placed lim R) (hlive : R.Live f) (ha : f.Admits lim t) : f.Untouched Q.zone := by
  obtain ⟨s, g, bs, hgate, i, b, hi, hpart, j, c, hne, hj, hsince⟩ := h
  rcases since_snoc.mp hsince with rfl | ⟨hsince, -⟩
  · obtain ⟨-, hfresh⟩ := hgate.untouched_of_marked hR hlive.staged
      (ha.1 _ (by simp [Site.pick]))
    exact (untouched_branch hfresh (List.mem_of_getElem? hi)).mono fun p hp =>
      zone_subset_ground b (hpart.zone_subset hp)
  · exact absurd ⟨s, g, bs, hgate, i, b, hi, hpart, j, c, hne, hj, hsince⟩ hnot

end Piece

/-! ## Regions of a workflow -/

variable [Quantity α] {r c : Region α} {R Q : Piece α}

/-- A region without loops becomes a piece without loops. -/
theorem Region.Becomes.loopFree (hr : r.Yields R) (hc : r.Becomes R c Q)
    (hfree : ∀ d ∈ c.preorder, d.kind ≠ .loop) : Q.LoopFree := by
  intro s body x n hpart
  obtain ⟨d, hd⟩ := hr.exists_region (hc.part.trans hpart)
  exact hfree d ((hd.mem_preorder_iff hr hc).mpr hpart) hd.kind_eq

/-- What is reported of a region after the transitions `ts` have fired. -/
theorem Workflow.Consists.lookup_of_passedBy {w : Workflow α} {m : Marking α}
    {ts : List (Transition α)} (h : w.Consists R) (hr : r.Yields R) (hc : r.Becomes R c Q)
    (hpath : Tally.Path w.net.limit R.transitions w.initial.tally ts m.tally) :
    (Piece.PassedBy R Q ts → (w.status m).lookup c.id = some .willNotBeExecuted) ∧
      (¬ Piece.PassedBy R Q ts → (w.status m).lookup c.id = some (Q.state w.net m)) := by
  have hlive := h.alive_initial.1
  rw [Workflow.status, h.layout, ← hc.id_eq]
  exact ⟨Piece.Part.lookup_of_passedBy h.placed hr.nodup hlive h.ready hpath,
    hc.part.lookup_of_not_passedBy h.placed hr.nodup hlive h.ready hpath⟩

theorem Workflow.Consists.advances {w : Workflow α} {m : Marking α} {t : Transition α}
    {ts : List (Transition α)} (h : w.Consists R) (hr : r.Yields R) (hc : r.Becomes R c Q)
    (hfree : ∀ d ∈ c.preorder, d.kind ≠ .loop) (hm : m.Ordered)
    (hpath : Tally.Path w.net.limit R.transitions w.initial.tally ts m.tally)
    (ht : t ∈ R.transitions) (ha : m.tally.Admits w.net.limit t) (hnot : ¬ r.Renews c t) :
    ∃ a b, (w.status m).lookup c.id = some a ∧ (w.status (m.fire t)).lookup c.id = some b ∧
      a.Advances b := by
  have hlive : R.Live m.tally := h.placed.live_path h.alive_initial.1 hpath
  have hrenews : ¬ Piece.Renews R Q t := fun hrenews => hnot ((hc.renews_iff hr ht).mpr hrenews)
  have hwithin := h.placed.within ht
  have hfire : (m.fire t).tally = m.tally.fire t :=
    Marking.tally_fire hm hwithin.preset hwithin.postset
  have hpath' := hpath.snoc ht ha
  rw [← hfire] at hpath'
  obtain ⟨hpassed, hkept⟩ := h.lookup_of_passedBy hr hc hpath
  obtain ⟨hpassed', hkept'⟩ := h.lookup_of_passedBy hr hc hpath'
  have hne : ∀ m, Q.state w.net m ≠ .willNotBeExecuted := Q.state_ne_struckOut w.net
  by_cases hby : Piece.PassedBy R Q ts
  · refine ⟨_, _, hpassed hby, hpassed' (hby.snoc hrenews), ?_⟩
    exact ⟨fun hout => absurd rfl hout, fun _ => rfl, fun _ => Or.inl rfl⟩
  by_cases hby' : Piece.PassedBy R Q (ts ++ [t])
  · have htells : Q.Tells w.net m := (hc.part.placed h.placed).tells
    have hwaiting := htells.fresh (hby'.untouched hby h.placed hlive ha)
    refine ⟨_, _, hkept hby, hpassed' hby', ?_⟩
    exact ⟨fun _ hout => absurd rfl hout, fun _ => rfl, fun _ => Or.inr hwaiting⟩
  · refine ⟨_, _, hkept hby, hkept' hby', ?_⟩
    refine ⟨fun _ _ => ?_, fun hout => absurd hout (hne _), fun hout => absurd hout (hne _)⟩
    exact hc.part.progress_le h.placed (hc.loopFree hr hfree) hlive ht ha hrenews hfire

/-- A region without loops moves forward with every transition that fires, unless this goes back in
a loop around the region; once it is struck out it stays so, and it was not begun before. -/
theorem Workflow.advances_of_validate {r : Region α} (h : r.validate = .ok ()) :
    ∃ w, Workflow.compile r = .ok w ∧
      ∀ ts m, w.net.Run w.initial ts m → ∀ c ∈ r.preorder, (∀ d ∈ c.preorder, d.kind ≠ .loop) →
        ∀ t ∈ w.net.transitions, w.net.tokenEnabled t m = true → ¬ r.Renews c t →
          ∃ a b, (w.status m).lookup c.id = some a ∧
            (w.status (m.fire t)).lookup c.id = some b ∧ a.Advances b := by
  obtain ⟨w, R, hcompile, hR, hr⟩ := Workflow.exists_yields h
  refine ⟨w, hcompile, ?_⟩
  intro ts m hrun c hc hfree t ht henabled hnot
  obtain ⟨hm, hpath⟩ := hrun.path hR.plain hR.ordered_initial
  obtain ⟨Q, hQ⟩ := hr.exists_part hc
  have ha := (hR.enabled_iff ht).mp henabled
  rw [hR.transitions] at hpath ht
  exact hR.advances hr hQ hfree hm hpath ht ha hnot

/-- When the choice in the loop goes for task `c`, the draw in its other branch is struck out, which
has been waiting so far. -/
theorem Workflow.advances_sample : ∃ (w : Workflow Rat) (ts : List (Transition Rat))
    (m : Marking Rat) (c : Region Rat) (t : Transition Rat) (a b : Activity),
      Workflow.compile Region.sample = .ok w ∧ w.net.Run w.initial ts m ∧
      c ∈ Region.sample.preorder ∧ (∀ d ∈ c.preorder, d.kind ≠ .loop) ∧
      t ∈ w.net.transitions ∧ w.net.tokenEnabled t m = true ∧ ¬ Region.sample.Renews c t ∧
      (w.status m).lookup c.id = some a ∧ (w.status (m.fire t)).lookup c.id = some b ∧
      a.Advances b ∧ a = .waiting ∧ b = .willNotBeExecuted := by
  obtain ⟨w, hcompile, hall⟩ := Workflow.advances_of_validate Region.sample_valid
  have hcheck : (match Workflow.compile Region.sample with
      | .ok w => (w.net.replay [0, 1, 2, 3, 4] w.initial).any fun m =>
          w.net.transitions.any fun t => Region.sample.preorder.any fun c =>
            t.role ≠ .loopBack && w.net.tokenEnabled t m && c.preorder.all (·.kind ≠ .loop) &&
              (w.status m).lookup c.id = some .waiting &&
              (w.status (m.fire t)).lookup c.id = some .willNotBeExecuted
      | .error _ => false) = true := by decide +kernel
  rw [hcompile] at hcheck
  obtain ⟨m, hm, hcheck⟩ := (Option.any_eq_true _ _).mp hcheck
  obtain ⟨ts, hrun⟩ := Net.exists_run_of_replay hm
  obtain ⟨t, ht, hcheck⟩ := List.any_eq_true.mp hcheck
  obtain ⟨c, hc, hcheck⟩ := List.any_eq_true.mp hcheck
  simp only [Bool.and_eq_true, decide_eq_true_eq, List.all_eq_true] at hcheck
  obtain ⟨⟨⟨⟨hrole, henabled⟩, hfree⟩, hbefore⟩, hafter⟩ := hcheck
  have hnot : ¬ Region.sample.Renews c t := by
    rintro ⟨_, _, _, _, hserves⟩
    exact hrole (Transition.serves_iff.mp hserves).2
  obtain ⟨a, b, ha, hb, hadvances⟩ := hall ts m hrun c hc hfree t ht henabled hnot
  exact ⟨w, ts, m, c, t, a, b, hcompile, hrun, hc, hfree, ht, henabled, hnot, ha, hb, hadvances,
    Option.some.inj (ha.symm.trans hbefore), Option.some.inj (hb.symm.trans hafter)⟩

end RegionNet
