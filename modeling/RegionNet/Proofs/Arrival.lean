import RegionNet.Proofs.Consistency

/-!
# Tokens on exits

A token on the exit of a region means that the region is done. The exit is marked by the region's
own last move only, also where it is the entry of the region that comes next (`Part.done_of_exit`).
Whether a region that is done is reported as completed or as waiting in front of a decision depends
on its exit alone (`Placed.state_of_done`), and the regions below one with a token on its exit hold
no token in front of any other decision. So in a final marking, where the only token is on the exit
of the whole, every region is completed or was struck out.
-/

namespace RegionNet

variable {α : Type}

/-- A decision takes tokens from the place. -/
def Net.Decides (net : Net α) (p : PlaceId) : Prop :=
  ∃ t ∈ net.transitions, t.stop = true ∧ p ∈ t.inputs

namespace Piece

variable {lim : PlaceId → Option Nat} {f : Tally} {P Q R : Piece α} {s : Site α}
  {bs : List (Piece α)} {b : Piece α} {p : PlaceId}

/-! ## Exits of parts -/

theorem Part.ground_subset (h : Part Q P) (hP : Placed lim P) : Q.ground ⊆ P.ground := by
  have hzones : ∀ {s : Site α} {bs : List (Piece α)} {b : Piece α} {q : PlaceId}, b ∈ bs →
      Q.ground ⊆ b.ground → Q.ground ⊆ (s.entry :: zones bs) ++ [q] := fun hb ih p hp =>
    List.mem_append_left _ (List.mem_cons_of_mem _ (mem_zones.mpr ⟨_, hb, ih hp⟩))
  induction h with
  | self => exact List.Subset.refl _
  | @first s P P' _ ih =>
      intro p hp
      rcases mem_ground.mp (ih hP.fst hp) with hp | rfl
      · exact zone_subset_ground _ (List.mem_append_left _ hp)
      -- where the first part ends, the second one starts
      · have hentry := List.mem_append_right P.zone hP.snd.entry_mem_zone
        rw [hP.snd_entry] at hentry
        exact zone_subset_ground (.sequential s P P') hentry
  | @second s P P' _ ih =>
      rw [hP.sequential_ground]
      exact List.subset_append_of_subset_right _ (ih hP.snd)
  | branch hb _ ih => exact hzones hb (ih (hP.parallel.branch hb))
  | arm hb _ ih => exact hzones hb (ih (hP.gateway.branch hb))
  | body _ ih =>
      exact List.subset_append_of_subset_left _ (List.subset_cons_of_subset _ (ih hP.body))

/-- A token on the exit means that the piece is over. -/
def Heralds (P : Piece α) (f : Tally) : Prop := 0 < (f P.exit).1 → P.Done f

theorem Live.heralds (h : P.Live f) : P.Heralds f := by
  intro hmarked
  rcases h with ⟨-, hempty⟩ | ⟨hdone, -⟩
  · exact absurd hmarked (not_pos_of_eq hempty)
  · exact hdone

theorem Placed.heralds_sequential {Q : Piece α} (hP : Placed lim (.sequential s P Q))
    (hstaged : (Piece.sequential s P Q).Staged f) (h : (Piece.sequential s P Q).Heralds f) :
    P.Heralds f ∧ Q.Heralds f := by
  constructor
  · intro hmarked
    have hnot : ¬ f.Untouched Q.zone := fun hfresh =>
      not_pos_of_eq (hfresh _ hP.snd.entry_mem_zone) (hP.snd_entry ▸ hmarked)
    rcases hstaged with hfresh | ⟨⟨-, hfresh⟩ | ⟨hdone, -⟩, -⟩ | ⟨hdone, -⟩
    · exact absurd (hfresh.mono (List.subset_append_right _ _)) hnot
    · exact absurd hfresh hnot
    · exact hdone
    · exact hdone
  · intro hmarked
    rw [hP.snd_exit] at hmarked
    exact (h hmarked).2

theorem heralds_parallel (hstaged : (Piece.parallel s bs).Staged f) (hb : b ∈ bs) :
    b.Heralds f := by
  intro hmarked
  have hnot : ¬ f.Untouched (zones bs) := fun hfresh =>
    not_pos_of_eq (untouched_branch hfresh hb _ (exit_mem_ground b)) hmarked
  rcases hstaged with hfresh | ⟨hbusy, -⟩ | hdone
  · exact absurd (hfresh.mono (List.subset_cons_self _ _)) hnot
  · rcases busy_parallel.mp hbusy with ⟨-, hfresh⟩ | ⟨-, hlive⟩
    · exact absurd hfresh hnot
    · exact (hlive b hb).heralds hmarked
  · exact ((done_parallel.mp hdone).2 b hb).1

theorem Branched.heralds_gateway {g : Gate α} (h : Branched lim s bs)
    (hstaged : (Piece.gateway s g bs).Staged f) (hb : b ∈ bs) : b.Heralds f := by
  intro hmarked
  have htouched : ¬ f.Untouched b.ground := fun hfresh =>
    not_pos_of_eq (hfresh _ (exit_mem_ground b)) hmarked
  rcases (h.alone hstaged hb htouched).1 with hbusy | hdone
  · obtain ⟨p, hp, hpos⟩ := (h.branch hb).exists_marked hbusy
    obtain ⟨-, hempty⟩ := (h.branch hb).busy_of_marked (h.staged_gateway hstaged hb) hp hpos
    exact absurd hempty hmarked.ne'
  · exact hdone

theorem heralds_loop {x : α} {n : Nat} (hstaged : (Piece.loop s P x n).Staged f) :
    P.Heralds f := by
  intro hmarked
  rcases hstaged with hfresh | ⟨⟨-, hfresh⟩ | ⟨-, v, -, ⟨-, hexit⟩ | ⟨hdone, -⟩⟩, -⟩ | ⟨-, hdone, -⟩
  · exact absurd hmarked (not_pos_of_eq (hfresh _ (List.mem_cons_of_mem _ (exit_mem_ground P))))
  · exact absurd hmarked (not_pos_of_eq (hfresh _ (exit_mem_ground P)))
  · exact absurd hmarked (not_pos_of_eq hexit)
  · exact hdone
  · exact hdone

/-- A token on the exit of a part means that the part is over. -/
theorem Part.done_of_exit (h : Part Q P) (hP : Placed lim P) (hstaged : P.Staged f)
    (hheralds : P.Heralds f) (hmarked : 0 < (f Q.exit).1) : Q.Done f := by
  induction h with
  | self => exact hheralds hmarked
  | first _ ih =>
      exact ih hP.fst (hP.staged_sequential hstaged).1 (hP.heralds_sequential hstaged hheralds).1
  | second _ ih =>
      exact ih hP.snd (hP.staged_sequential hstaged).2 (hP.heralds_sequential hstaged hheralds).2
  | branch hb _ ih =>
      exact ih (hP.parallel.branch hb) (staged_parallel hstaged hb) (heralds_parallel hstaged hb)
  | arm hb _ ih =>
      exact ih (hP.gateway.branch hb) (hP.gateway.staged_gateway hstaged hb)
        (hP.gateway.heralds_gateway hstaged hb)
  | body _ ih => exact ih hP.body (staged_loop hstaged) (heralds_loop hstaged)

/-! ## The state of what is done -/

variable [Quantity α] {net : Net α} {m : Marking α}

theorem awaits_of_settle {info : RegionInfo} {a : Activity}
    (h : Status.settle net m info a = .completedWithoutPassingOver) :
    a = .completedWithoutPassingOver ∨ Status.awaitsDecision net m info = true := by
  unfold Status.settle at h
  split at h
  · next hawaits => exact Or.inr (Bool.and_eq_true_iff.mp hawaits).2
  · exact Or.inl h

theorem awaitsDecision_iff {info : RegionInfo} : Status.awaitsDecision net m info = true ↔
    0 < m.tokens info.exit ∧ net.Decides info.exit := by
  simp only [Status.awaitsDecision, Net.outgoing, Bool.and_eq_true, decide_eq_true_eq,
    List.any_eq_true, List.mem_filter, List.contains_iff_mem]
  refine and_congr_right fun _ => exists_congr fun t => ?_
  rw [and_assoc, and_comm (a := _ ∈ t.inputs)]

theorem awaitsDecision_congr {info info' : RegionInfo} (h : info.exit = info'.exit) :
    Status.awaitsDecision net m info = Status.awaitsDecision net m info' := by
  unfold Status.awaitsDecision
  rw [h]

/-- A piece is shown in front of a decision only if one waits at its exit. -/
theorem Placed.awaits_of_held (hP : Placed lim P)
    (h : P.state net m = .completedWithoutPassingOver) :
    Status.awaitsDecision net m P.layout.info = true := by
  have hif : ∀ {c : Bool}, Activity.activeIf c ≠ .completedWithoutPassingOver := fun {c} => by
    cases c <;> exact Activity.noConfusion
  induction P using Piece.ind with
  | task s v =>
      rw [Piece.state_task] at h
      refine (awaits_of_settle h).resolve_left fun he => ?_
      split_ifs at he
  | sequential s P Q _ ihQ =>
      rw [state_sequential] at h
      rcases awaits_of_settle h with he | hawaits
      · split at he
        · rw [← ihQ hP.snd he]
          apply awaitsDecision_congr
          rw [info_layout_exit, info_layout_exit]
          exact hP.snd_exit.symm
        · exact absurd he hif
      · exact hawaits
  | parallel s bs _ =>
      rw [hP.parallel.state_parallel] at h
      refine (awaits_of_settle h).resolve_left fun he => ?_
      split at he
      · cases he
      · exact hif he
  | gateway s g bs _ =>
      rw [state_gateway_of_taken] at h
      refine (awaits_of_settle h).resolve_left fun he => ?_
      split at he
      · split at he <;> cases he
      · exact hif he
  | loop s body x n _ =>
      rw [state_loop] at h
      refine (awaits_of_settle h).resolve_left fun he => ?_
      split at he
      · cases he
      · exact hif he

/-- What is reported of a piece that is done depends on its exit alone. -/
theorem Placed.state_of_done (hP : Placed lim P) (h : (P.state net m).done = true) :
    P.state net m = if Status.awaitsDecision net m P.layout.info
      then .completedWithoutPassingOver else .completed := by
  split
  · next hawaits =>
      have hsettle : ∃ a, P.state net m = Status.settle net m P.layout.info a := by
        rw [state, layout_eq P, Status.state_report]
        exact ⟨_, rfl⟩
      obtain ⟨a, ha⟩ := hsettle
      rw [ha, Status.done_settle] at h
      rw [ha]
      unfold Status.settle
      rw [hawaits]
      cases a <;> first | rfl | cases h
  · next hnot =>
      have hheld : P.state net m ≠ .completedWithoutPassingOver := fun he =>
        hnot (hP.awaits_of_held he)
      cases hstate : P.state net m <;> rw [hstate] at h hheld <;> first | rfl | cases h
      exact absurd rfl hheld

/-- A part with a token on its exit was not passed by. -/
theorem Part.kept_of_exit (h : Part Q R) (hR : Placed lim R) (hstaged : R.Staged m.tally)
    (hmarked : 0 < m.tokens Q.exit) :
    (Q.site.head.id, Q.state net m) ∈ (Status.report net m R.layout).entries := by
  refine h.kept_of_taken fun s g bs hgate i b hi hpart j hj => ?_
  by_contra hne
  have hbs := (hgate.placed hR).gateway
  obtain ⟨c, hc, htouched⟩ := hbs.touched_of_taken hj
  have hb : b ∈ bs := List.mem_of_getElem? hi
  have hbc : b ≠ c := by
    rintro rfl
    obtain ⟨hlt, -⟩ := List.getElem?_eq_some_iff.mp hc
    exact hne ((List.getElem?_inj hlt hbs.nodup_branches).mp (hc.trans hi.symm))
  -- the branches that were not taken were not touched
  have hfresh := (hbs.alone (hgate.staged hR hstaged) (List.mem_of_getElem? hc) htouched).2 b hb hbc
  have hexit : Q.exit ∈ b.ground := hpart.ground_subset (hbs.branch hb) (exit_mem_ground Q)
  exact not_pos_of_eq (hfresh _ hexit) hmarked

end Piece

/-! ## Exits in a workflow -/

variable [Quantity α]

/-- What a report says of the region `c` with a token on its exit. -/
structure Workflow.ExitReport (w : Workflow α) (c : Region α) (exit : PlaceId) (m : Marking α) :
    Prop where
  /-- The region is completed, with the token still in front of a decision, ... -/
  held : w.net.Decides exit → (w.status m).lookup c.id = some .completedWithoutPassingOver
  /-- ... or completed where no decision takes the token. -/
  completed : ¬ w.net.Decides exit → (w.status m).lookup c.id = some .completed
  /-- All regions in it are completed or struck out, but those that end at the same place are in
  front of the same decision. -/
  below : ∀ d ∈ c.preorder, ∃ i ∈ w.layout.infos, i.id = d.id ∧
    ((w.status m).lookup d.id = some .completed ∨
      (w.status m).lookup d.id = some .willNotBeExecuted ∨
      (w.status m).lookup d.id = some .completedWithoutPassingOver ∧ i.exit = exit ∧
        w.net.Decides exit)

namespace Workflow.Consists

open Piece

variable {w : Workflow α} {r c : Region α} {R Q Q' : Piece α} {m : Marking α}

/-- Only on the exit of a piece that is over can a token be, and only what ends there too can be in
front of a decision. -/
theorem below_of_done (hQ : Placed w.net.limit Q) (hstaged : Q.Staged m.tally)
    (hdone : Q.Done m.tally) (hpart : Part Q' Q)
    (hline : (Q'.site.head.id, Q'.state w.net m) ∈ (Status.report w.net m Q.layout).entries) :
    Q'.state w.net m = .completed ∨ Q'.state w.net m = .completedWithoutPassingOver ∧
      Q'.exit = Q.exit ∧ w.net.Decides Q.exit := by
  have htells : Q.Tells w.net m := hQ.tells
  have hP' := hpart.placed hQ
  have hended := (hQ.lines_of_done hstaged (htells.ended hdone) _ hline).resolve_right
    (Q'.state_ne_struckOut _ _)
  rw [hP'.state_of_done hended]
  split
  · next hawaits =>
      obtain ⟨hmarked, hdecides⟩ := awaitsDecision_iff.mp hawaits
      rw [Q'.info_layout_exit] at hmarked hdecides
      have he : Q'.exit = Q.exit := by
        rcases mem_ground.mp (hpart.ground_subset hQ (exit_mem_ground Q')) with hzone | he
        · exact absurd (hQ.idle_of_done hdone _ hzone) hmarked.ne'
        · exact he
      exact Or.inr ⟨rfl, he, he ▸ hdecides⟩
  · exact Or.inl rfl

theorem exitReport (h : w.Consists R) (hr : r.Yields R) (hlive : R.Live m.tally)
    (hc : r.Becomes R c Q) (hmarked : 0 < m.tokens Q.exit) : w.ExitReport c Q.exit m := by
  have hQ := hc.part.placed h.placed
  have hstaged := hc.part.staged h.placed hlive.staged
  have hdone := hc.part.done_of_exit h.placed hlive.staged hlive.heralds hmarked
  have htells : Q.Tells w.net m := hQ.tells
  have hstate := hQ.state_of_done (htells.ended hdone)
  have hown : (w.status m).lookup c.id = some (Q.state w.net m) := by
    rw [Workflow.status, h.layout, ← hc.id_eq]
    exact Status.lookup_of_mem (R.nodup_entries hr.nodup)
      (hc.part.kept_of_exit h.placed hlive.staged hmarked)
  have hkept := (h.lookup_kept_or_struck hr hc m).resolve_right fun hall => by
    rw [hall c c.mem_preorder_self] at hown
    exact Q.state_ne_struckOut _ _ (Option.some.inj hown).symm
  have hexit : Q.layout.info.exit = Q.exit := Q.info_layout_exit
  constructor
  · intro hdecides
    rw [← hexit] at hmarked hdecides
    rw [hown, hstate, if_pos (awaitsDecision_iff.mpr ⟨hmarked, hdecides⟩)]
  · intro hnot
    rw [hown, hstate, if_neg fun hawaits => hnot (hexit ▸ (awaitsDecision_iff.mp hawaits).2)]
  · intro d hd
    obtain ⟨Q', hQ'⟩ := hr.exists_part (Region.preorder_subset hc.mem hd)
    have hpart := (hQ'.mem_preorder_iff hr hc).mp hd
    refine ⟨Q'.layout.info, h.layout ▸ hQ'.part.mem_infos, Q'.id_layout.trans hQ'.id_eq, ?_⟩
    have hfirst := Q'.mem_entries_self w.net m
    rw [← hQ'.id_eq, Q'.info_layout_exit]
    rcases hpart.kept_or_struck w.net m with hall | hstruck
    · rw [hkept _ (hall _ hfirst)]
      rcases below_of_done hQ hstaged hdone hpart (hall _ hfirst) with he | ⟨he, hsame, hdecides⟩
      · exact Or.inl (congrArg some he)
      · exact Or.inr (Or.inr ⟨congrArg some he, hsame, hdecides⟩)
    · exact Or.inr (Or.inl (hkept _ (hstruck _ hfirst)))

/-- At the end every region is completed or was struck out. -/
theorem completed_of_final (h : w.Consists R) (hr : r.Yields R) (hlive : R.Live m.tally)
    (hfinal : w.isFinal m = true) (hc : c ∈ r.preorder) :
    (w.status m).lookup c.id = some .completed ∨
      (w.status m).lookup c.id = some .willNotBeExecuted := by
  obtain ⟨Q, hQ⟩ := hr.exists_part hc
  obtain ⟨whole, hwhole⟩ := hr.exists_region .self
  have hexit : m.tokens R.exit = 1 := (h.isFinal_iff.mp hfinal R.exit).trans (if_pos rfl)
  have hreport := h.exitReport hr hlive hwhole (hexit ▸ Nat.one_pos)
  obtain ⟨i, -, -, hcases⟩ := hreport.below c ((hQ.mem_preorder_iff hr hwhole).mpr hQ.part)
  rcases hcases with hcompleted | hstruck | ⟨-, -, t, ht, -, hin⟩
  · exact Or.inl hcompleted
  · exact Or.inr hstruck
  -- nothing takes a token from the exit of the whole
  · exact absurd ((h.placed.within (h.transitions ▸ ht)).inputs hin) h.placed.exit_notMem_zone

end Workflow.Consists

/-- A token on the exit of a region means that the region is done, and with it all regions in it. At
the end the whole process is. -/
theorem Workflow.exitReport_of_validate {r : Region α} (h : r.validate = .ok ()) :
    ∃ w, Workflow.compile r = .ok w ∧ ∀ ts m, w.net.Run w.initial ts m →
      (∀ c ∈ r.preorder, ∃ i ∈ w.layout.infos, i.id = c.id ∧
        (0 < m.tokens i.exit → w.ExitReport c i.exit m)) ∧
      (w.isFinal m = true → ∀ c ∈ r.preorder, (w.status m).lookup c.id = some .completed ∨
        (w.status m).lookup c.id = some .willNotBeExecuted) := by
  obtain ⟨w, R, hcompile, hR, hr⟩ := Workflow.exists_yields h
  refine ⟨w, hcompile, ?_⟩
  intro ts m hrun
  obtain ⟨-, hpath⟩ := hrun.path hR.plain hR.ordered_initial
  have hlive := (hR.alive_of_path hpath).1
  refine ⟨?_, fun hfinal c hc => hR.completed_of_final hr hlive hfinal hc⟩
  intro c hc
  obtain ⟨Q, hQ⟩ := hr.exists_part hc
  refine ⟨Q.layout.info, hR.layout ▸ hQ.part.mem_infos, Q.id_layout.trans hQ.id_eq, ?_⟩
  rw [Q.info_layout_exit]
  exact hR.exitReport hr hlive hQ

/-- When branch `c` was merged, the token is on the exit of the choice, in front of the decision
whether to go back. -/
theorem Workflow.exitReport_sample : ∃ (w : Workflow Rat) (ts : List (Transition Rat))
    (m : Marking Rat) (c : Region Rat), Workflow.compile Region.sample = .ok w ∧
      w.net.Run w.initial ts m ∧ c ∈ Region.sample.preorder ∧ c.id = "choose" ∧
      ∃ i ∈ w.layout.infos, i.id = c.id ∧ 0 < m.tokens i.exit ∧ w.ExitReport c i.exit m ∧
        (w.status m).lookup "choose" = some .completedWithoutPassingOver := by
  obtain ⟨w, hcompile, hall⟩ := Workflow.exitReport_of_validate Region.sample_valid
  have hcheck : (match Workflow.compile Region.sample with
      | .ok w => (w.net.replay [0, 1, 2, 3, 4, 5, 6, 7] w.initial).any fun m =>
          Region.sample.preorder.any (·.id = "choose") &&
            w.layout.infos.all (fun i => i.id = "choose" → 0 < m.tokens i.exit) &&
            (w.status m).lookup "choose" = some .completedWithoutPassingOver
      | .error _ => false) = true := by decide +kernel
  rw [hcompile] at hcheck
  obtain ⟨m, hm, hcheck⟩ := (Option.any_eq_true _ _).mp hcheck
  obtain ⟨ts, hrun⟩ := Net.exists_run_of_replay hm
  simp only [Bool.and_eq_true, decide_eq_true_eq, List.any_eq_true, List.all_eq_true] at hcheck
  obtain ⟨⟨⟨c, hc, hid⟩, hexit⟩, hheld⟩ := hcheck
  obtain ⟨i, hi, hic, hreport⟩ := (hall ts m hrun).1 c hc
  have hmarked := hexit i hi (hic.trans hid)
  exact ⟨w, ts, m, c, hcompile, hrun, hc, hid, i, hi, hic, hmarked, hreport hmarked, hheld⟩

end RegionNet
