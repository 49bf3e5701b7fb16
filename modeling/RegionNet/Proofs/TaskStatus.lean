import RegionNet.Proofs.Nesting

/-!
# The reported state of tasks

A report is made from one marking, but what it says of a task is the history of the task
(`Workflow.taskReport_of_validate`). A task is struck out exactly when some choice or draw by nature
around it has taken another branch, and is shown as completed exactly when it has run; both are
meant since a loop around the region in question last went back, so that each round is reported for
itself.
-/

namespace RegionNet

variable {α : Type}

/-! ## Which lines are struck out -/

namespace Status

variable [Quantity α] {r : Report} {rs : List Report} {chosen : Option Nat} {i j : Nat}
  {id : String} {a : Activity}

/-- The lines of a report stay if no other one was chosen. -/
theorem mem_merge_of_kept (hi : rs[i]? = some r) (hkept : ∀ j, chosen = some j → j = i)
    (ha : (id, a) ∈ r.entries) : (id, a) ∈ Report.merge chosen rs := by
  have hmem : (r, i) ∈ rs.zipIdx := List.mk_mem_zipIdx_iff_getElem?.mpr hi
  refine List.mem_flatMap.mpr ⟨_, hmem, ?_⟩
  cases chosen with
  | none => exact ha
  | some j =>
      obtain rfl := hkept j rfl
      simpa using ha

/-- The lines of a report are struck out if another one was chosen. -/
theorem mem_merge_of_struck (hi : rs[i]? = some r) (hchosen : chosen = some j) (hne : j ≠ i)
    (ha : (id, a) ∈ r.entries) : (id, .willNotBeExecuted) ∈ Report.merge chosen rs := by
  have hmem : (r, i) ∈ rs.zipIdx := List.mk_mem_zipIdx_iff_getElem?.mpr hi
  have hout : (id, Activity.willNotBeExecuted) ∈ r.struckOut := List.mem_map.mpr ⟨_, ha, rfl⟩
  refine List.mem_flatMap.mpr ⟨_, hmem, ?_⟩
  simpa [hchosen, hne.symm] using hout

end Status

namespace Piece

variable {lim : PlaceId → Option Nat} {P Q R : Piece α} {s : Site α} {bs : List (Piece α)}
  {g : Gate α} {f : Tally} {b : Piece α} {i j : Nat}

theorem layout_eq (P : Piece α) : P.layout = .node P.layout.info (P.parts.map layout) := by
  cases P with
  | parallel s bs => rw [layout, layouts_eq_map]; rfl
  | gateway s g bs => rw [layout, layouts_eq_map]; rfl
  | _ => rfl

/-- A branch that was touched is the only one, and is under way or over. -/
theorem Branched.alone (h : Branched lim s bs) (hstaged : (Piece.gateway s g bs).Staged f)
    (hb : b ∈ bs) (htouched : ¬ f.Untouched b.ground) :
    (b.Busy f ∨ b.Done f) ∧ ∀ c ∈ bs, c ≠ b → f.Untouched c.ground := by
  have hself : ∀ c ∈ bs, (∀ d ∈ bs, d ≠ c → f.Untouched d.ground) → b = c := by
    intro c _ hothers
    by_contra hne
    exact htouched (hothers b hb hne)
  have hnone : ¬ f.Untouched (zones bs) := fun hfresh => htouched (untouched_branch hfresh hb)
  rcases hstaged with hfresh | ⟨hbusy, -⟩ | hdone
  · exact absurd (hfresh.mono (List.subset_cons_self _ _)) hnone
  · rcases h.busy_gateway.mp hbusy with ⟨-, hfresh⟩ | ⟨-, c, hc, hlive, hothers⟩
    · exact absurd hfresh hnone
    · obtain rfl := hself c hc hothers
      exact ⟨hlive.imp And.left And.left, hothers⟩
  · obtain ⟨-, c, hc, ⟨hdone, -⟩, hothers⟩ := h.done_gateway.mp hdone
    obtain rfl := hself c hc hothers
    exact ⟨Or.inr hdone, hothers⟩

theorem Branched.nodup_branches (h : Branched lim s bs) : bs.Nodup := by
  have hexits : (bs.map exit).Nodup := h.map_nodup fun c _ => exit_mem_ground c
  exact .of_map _ hexits

variable [Quantity α] {net : Net α} {m : Marking α}

/-- The branch that a piece is reported to have taken. -/
def taken (P : Piece α) (net : Net α) (m : Marking α) : Option Nat :=
  Status.taken P.layout.info.kind (P.parts.map fun b => b.state net m)

/-- The report on a piece has its own line first, and then those of the pieces below it. -/
theorem entries_eq (P : Piece α) : (Status.report net m P.layout).entries =
    (P.site.head.id, P.state net m) ::
      Report.merge (P.taken net m) (P.parts.map fun b => Status.report net m b.layout) := by
  have hid := P.id_layout
  rw [state, taken, layout_eq, Status.report, Status.reports_eq_map, ← hid]
  simp only [List.map_map]
  rw [layout_eq P]
  rfl

theorem mem_entries_self (P : Piece α) (net : Net α) (m : Marking α) :
    (P.site.head.id, P.state net m) ∈ (Status.report net m P.layout).entries := by
  rw [entries_eq]
  exact List.mem_cons_self

theorem taken_eq_none {P' : Piece α} (hP' : P' ∈ P.parts)
    (h : ∀ s g bs, P ≠ .gateway s g bs) : P.taken net m = none := by
  cases P with
  | gateway s g bs => exact absurd rfl (h s g bs)
  | task s v => cases hP'
  | _ => rfl

theorem taken_gateway (s : Site α) (g : Gate α) (bs : List (Piece α)) :
    (Piece.gateway s g bs).taken net m =
      ((bs.map fun b => b.state net m).findIdx? (· = .active)).or
        ((bs.map fun b => b.state net m).findIdx? Activity.started) := by
  cases g <;> rfl

/-- The report on a piece has a line for each of its parts. -/
theorem Part.exists_line (h : Part Q P) (net : Net α) (m : Marking α) :
    ∃ a, (Q.site.head.id, a) ∈ (Status.report net m P.layout).entries := by
  have hid : Q.site.head.id ∈ P.layout.infos.map RegionInfo.id :=
    Q.id_layout ▸ List.mem_map_of_mem h.mem_infos
  have hids : (Status.report net m P.layout).entries.map Prod.fst =
      P.layout.infos.map RegionInfo.id := Status.ids_report _
  rw [← hids] at hid
  obtain ⟨⟨_, a⟩, ha, rfl⟩ := List.mem_map.mp hid
  exact ⟨a, ha⟩

/-- A part is struck out below a gateway that has taken a branch without it. -/
theorem Part.struck_of_taken (h : Part (.gateway s g bs) P) (hi : bs[i]? = some b)
    (hpart : Part Q b) (htaken : (Piece.gateway s g bs).taken net m = some j) (hne : j ≠ i) :
    (Q.site.head.id, .willNotBeExecuted) ∈ (Status.report net m P.layout).entries := by
  obtain ⟨a, ha⟩ := hpart.exists_line net m
  apply h.climb
  · have hbelow : (bs.map fun b => Status.report net m b.layout)[i]? =
        some (Status.report net m b.layout) := by rw [List.getElem?_map, hi, Option.map_some]
    rw [entries_eq]
    exact List.mem_cons_of_mem _ (Status.mem_merge_of_struck hbelow htaken hne ha)
  · intro P P' hP' _ ih
    have hbelow : Status.report net m P'.layout ∈
        P.parts.map fun b => Status.report net m b.layout := List.mem_map_of_mem hP'
    rw [entries_eq]
    rcases Status.mem_merge hbelow ih with hmem | hmem
    all_goals exact List.mem_cons_of_mem _ hmem

/-- A part keeps its line if no gateway above it has taken a branch without it. -/
theorem Part.kept_of_taken (h : Part Q P)
    (hkept : ∀ s g bs, Part (.gateway s g bs) P → ∀ i b, bs[i]? = some b → Part Q b →
      ∀ j, (Piece.gateway s g bs).taken net m = some j → j = i) :
    (Q.site.head.id, Q.state net m) ∈ (Status.report net m P.layout).entries := by
  revert hkept
  apply h.climb
  · intro _
    exact Q.mem_entries_self net m
  · intro P P' hP' hpart ih hkept
    obtain ⟨i, hi⟩ := List.mem_iff_getElem?.mp hP'
    have hbelow : (P.parts.map fun b => Status.report net m b.layout)[i]? =
        some (Status.report net m P'.layout) := by rw [List.getElem?_map, hi, Option.map_some]
    have hchosen : ∀ j, P.taken net m = some j → j = i := by
      intro j hj
      by_cases hgateway : ∃ s g bs, P = .gateway s g bs
      · obtain ⟨s, g, bs, rfl⟩ := hgateway
        exact hkept s g bs .self i P' hi hpart j hj
      · have hnone : P.taken net m = none := taken_eq_none hP' fun s g bs he =>
          hgateway ⟨s, g, bs, he⟩
        rw [hnone] at hj
        cases hj
    rw [entries_eq]
    refine List.mem_cons_of_mem _ (Status.mem_merge_of_kept hbelow hchosen (ih ?_))
    exact fun s g bs hgate => hkept s g bs (.of_parts hP' hgate)

/-! ## Which branch was taken -/

/-- A branch that is reported as taken was touched. -/
theorem Branched.touched_of_taken (h : Branched lim s bs)
    (hj : (Piece.gateway s g bs).taken net m = some j) :
    ∃ c, bs[j]? = some c ∧ ¬ m.tally.Untouched c.ground := by
  have hstarted : ∀ {q : Activity → Bool}, q .waiting = false →
      (bs.map fun b => b.state net m).findIdx? q = some j →
      ∃ c, bs[j]? = some c ∧ ¬ m.tally.Untouched c.ground := by
    intro q hq hfound
    obtain ⟨hlt, hqj, -⟩ := List.findIdx?_eq_some_iff_getElem.mp hfound
    rw [List.length_map] at hlt
    rw [List.getElem_map] at hqj
    refine ⟨bs[j], List.getElem?_eq_getElem hlt, fun hfresh => ?_⟩
    have htells : (bs[j]).Tells net m := (h.branch (List.getElem_mem hlt)).tells
    rw [htells.fresh (hfresh.mono (zone_subset_ground _)), hq] at hqj
    cases hqj
  rw [taken_gateway] at hj
  rcases Option.or_eq_some_iff.mp hj with hfound | ⟨-, hfound⟩
  · exact hstarted rfl hfound
  · exact hstarted rfl hfound

/-- The branch that was touched is reported as taken. -/
theorem Branched.taken_of_touched (h : Branched lim s bs)
    (hstaged : (Piece.gateway s g bs).Staged m.tally) (hi : bs[i]? = some b)
    (htouched : ¬ m.tally.Untouched b.ground) : (Piece.gateway s g bs).taken net m = some i := by
  have hb : b ∈ bs := List.mem_of_getElem? hi
  obtain ⟨hstage, hothers⟩ := h.alone hstaged hb htouched
  have htells : b.Tells net m := (h.branch hb).tells
  have hstarted : (b.state net m).started = true := by
    rcases hstage with hbusy | hdone
    · exact htells.started hbusy
    · exact Status.started_of_done (htells.ended hdone)
  obtain ⟨j, hj⟩ : ∃ j, (Piece.gateway s g bs).taken net m = some j := by
    have hsome : ((bs.map fun b => b.state net m).findIdx? Activity.started).isSome := by
      rw [List.findIdx?_isSome, List.any_eq_true]
      exact ⟨_, List.mem_map_of_mem hb, hstarted⟩
    apply Option.isSome_iff_exists.mp
    rw [taken_gateway, Option.isSome_or, hsome, Bool.or_true]
  obtain ⟨c, hc, htouched'⟩ := h.touched_of_taken hj
  have hcb : c = b := by
    by_contra hne
    exact htouched' (hothers c (List.mem_of_getElem? hc) hne)
  subst hcb
  obtain ⟨hlt, -⟩ := List.getElem?_eq_some_iff.mp hc
  rw [hj, (List.getElem?_inj hlt h.nodup_branches).mp (hc.trans hi.symm)]

/-! ## The line of a part -/

section

variable {v : List α} {ts : List (Transition α)}

theorem nodup_entries (R : Piece α) (hnodup : R.block.ids.Nodup) :
    ((Status.report net m R.layout).entries.map Prod.fst).Nodup := by
  rw [← R.ids_layout] at hnodup
  rwa [Status.ids_report]

/-- Some gateway around the part has taken a branch without it since a loop around the gateway last
went back. -/
def PassedBy (R Q : Piece α) (ts : List (Transition α)) : Prop :=
  ∃ s g bs, Part (.gateway s g bs) R ∧ ∃ i b, bs[i]? = some b ∧ Part Q b ∧
    ∃ j c, j ≠ i ∧ bs[j]? = some c ∧ Since (· = s.pick g j c) (Renews R (.gateway s g bs)) ts

theorem Part.lookup_of_passedBy (hR : Placed lim R) (hnodup : R.block.ids.Nodup)
    (hlive : R.Live f) (hready : R.Ready f) (hpath : Tally.Path lim R.transitions f ts m.tally)
    (hpassed : PassedBy R Q ts) :
    (Status.report net m R.layout).entries.lookup Q.site.head.id = some .willNotBeExecuted := by
  obtain ⟨s, g, bs, hgate, i, b, hi, hpart, j, c, hne, hj, hsince⟩ := hpassed
  have htouched := (hgate.untouched_arm_iff hR hlive (hgate.fresh_of_ready hR hready) hj
    hpath).mpr hsince
  have hstaged := hgate.staged hR (hR.live_path hlive hpath).staged
  have htaken : (Piece.gateway s g bs).taken net m = some j :=
    (hgate.placed hR).gateway.taken_of_touched hstaged hj htouched
  exact Status.lookup_of_mem (R.nodup_entries hnodup) (hgate.struck_of_taken hi hpart htaken hne)

theorem Part.lookup_of_not_passedBy (hQ : Part Q R) (hR : Placed lim R)
    (hnodup : R.block.ids.Nodup) (hlive : R.Live f) (hready : R.Ready f)
    (hpath : Tally.Path lim R.transitions f ts m.tally) (hpassed : ¬ PassedBy R Q ts) :
    (Status.report net m R.layout).entries.lookup Q.site.head.id = some (Q.state net m) := by
  apply Status.lookup_of_mem (R.nodup_entries hnodup)
  apply hQ.kept_of_taken
  intro s g bs hgate i b hi hpart j hj
  by_contra hne
  obtain ⟨c, hc, htouched⟩ := (hgate.placed hR).gateway.touched_of_taken hj
  refine hpassed ⟨s, g, bs, hgate, i, b, hi, hpart, j, c, hne, hc, ?_⟩
  exact (hgate.untouched_arm_iff hR hlive (hgate.fresh_of_ready hR hready) hc hpath).mp htouched

/-- A task waits to be reached, is under way while a token rests in front of it, or is completed. -/
theorem Placed.state_task (hP : Placed lim (.task s v)) (net : Net α)
    (hstaged : (Piece.task s v).Staged m.tally) :
    m.tally s.entry = (0, 0) ∧ (Piece.task s v).state net m = .waiting ∨
      m.tally s.entry = (1, 0) ∧ (Piece.task s v).state net m = .active ∨
      m.tally s.entry = (0, 1) ∧ ((Piece.task s v).state net m = .completed ∨
        (Piece.task s v).state net m = .completedWithoutPassingOver) := by
  have htells : (Piece.task s v).Tells net m := hP.tells
  rcases hstaged with hfresh | ⟨hbusy, -⟩ | hdone
  · exact Or.inl ⟨hfresh _ List.mem_cons_self, htells.fresh hfresh⟩
  · refine Or.inr (Or.inl ⟨hbusy, htells.active hbusy ?_⟩)
    exact not_winding List.mem_cons_self (pos_of_eq hbusy) List.not_mem_nil
  · refine Or.inr (Or.inr ⟨hdone, ?_⟩)
    have hended := htells.ended hdone
    cases hstate : (Piece.task s v).state net m <;> rw [hstate] at hended
    case completed => exact Or.inl rfl
    case completedWithoutPassingOver => exact Or.inr rfl
    all_goals cases hended

end

end Piece

/-! ## Tasks in a workflow -/

/-- Some choice or draw by nature around the region `c` has taken another branch than the one with
`c` since a loop around it last went back. -/
def Region.PassedBy (r c : Region α) (ts : List (Transition α)) : Prop :=
  ∃ d ∈ r.preorder, (d.kind = .choice ∨ d.kind = .nature) ∧
    ∃ i b, d.branches[i]? = some b ∧ c ∈ b.preorder ∧
      Since (fun t => t.serves d.id .branchEntry = true ∧ ∃ j, t.branch = some j ∧ j ≠ i)
        (r.Renews d) ts

theorem since_exists {ι : Type} {A : ι → Transition α → Prop} {B : Transition α → Prop}
    {ts : List (Transition α)} : Since (fun t => ∃ x, A x t) B ts ↔ ∃ x, Since (A x) B ts := by
  constructor
  · rintro ⟨us, t, vs, rfl, ⟨x, hA⟩, hB⟩
    exact ⟨x, us, t, vs, rfl, hA, hB⟩
  · rintro ⟨x, us, t, vs, rfl, hA, hB⟩
    exact ⟨us, t, vs, rfl, ⟨x, hA⟩, hB⟩

variable [Quantity α]

namespace Region.Becomes

variable {r c d : Region α} {R Q : Piece α} {ts : List (Transition α)} {s : Site α} {g : Gate α}
  {bs : List (Piece α)}

/-- A gateway has taken another branch than number `i` if one of the others was picked. -/
theorem since_pick_iff (hr : r.Yields R) (hd : r.Becomes R d (.gateway s g bs))
    (hts : ∀ t ∈ ts, t ∈ R.transitions) (i : Nat) :
    Since (fun t => t.serves d.id .branchEntry = true ∧ ∃ j, t.branch = some j ∧ j ≠ i)
        (r.Renews d) ts ↔
      ∃ j c, j ≠ i ∧ bs[j]? = some c ∧
        Since (· = s.pick g j c) (Piece.Renews R (.gateway s g bs)) ts := by
  have hpick : ∀ t ∈ ts, (t.serves d.id .branchEntry = true ∧ ∃ j, t.branch = some j ∧ j ≠ i) ↔
      ∃ jc : { jc : Nat × Piece α // jc.1 ≠ i ∧ bs[jc.1]? = some jc.2 },
        t = s.pick g jc.1.1 jc.1.2 := by
    intro t ht
    have hid : s.head.id = d.id := hd.id_eq
    have hiff := hd.part.eq_pick_iff hr.nodup (hts t ht)
    rw [hid] at hiff
    constructor
    · rintro ⟨hserves, j, hbranch, hne⟩
      obtain ⟨c, hc, rfl⟩ := (hiff j).mp ⟨hserves, hbranch⟩
      exact ⟨⟨(j, c), hne, hc⟩, rfl⟩
    · rintro ⟨⟨⟨j, c⟩, hne, hc⟩, rfl⟩
      obtain ⟨hserves, hbranch⟩ := (hiff j).mpr ⟨c, hc, rfl⟩
      exact ⟨hserves, j, hbranch, hne⟩
  rw [since_congr hpick fun t ht => hd.renews_iff hr (hts t ht), since_exists]
  constructor
  · rintro ⟨⟨⟨j, c⟩, hne, hc⟩, hsince⟩
    exact ⟨j, c, hne, hc, hsince⟩
  · rintro ⟨j, c, hne, hc, hsince⟩
    exact ⟨⟨(j, c), hne, hc⟩, hsince⟩

/-- A region is passed by if its part is. -/
theorem passedBy_iff (hr : r.Yields R) (hc : r.Becomes R c Q)
    (hts : ∀ t ∈ ts, t ∈ R.transitions) : r.PassedBy c ts ↔ Piece.PassedBy R Q ts := by
  constructor
  · rintro ⟨d, hd, hkind, i, b, hi, hmem, hsince⟩
    obtain ⟨D, hD⟩ := hr.exists_part hd
    cases D with
    | gateway s g bs =>
        obtain ⟨b', hi', hb'⟩ := exists_getElem?_of_forall₂ (hD.forall₂_parts hr) hi
        exact ⟨s, g, bs, hD.part, i, b', hi', (hc.mem_preorder_iff hr hb').mp hmem,
          (hD.since_pick_iff hr hts i).mp hsince⟩
    | _ =>
        rw [hD.kind_eq] at hkind
        rcases hkind with hkind | hkind <;> cases hkind
  · rintro ⟨s, g, bs, hgate, i, b', hi', hpart, hothers⟩
    obtain ⟨d, hd⟩ := hr.exists_region hgate
    obtain ⟨b, hi, hb⟩ := exists_getElem?_of_forall₂ (hd.forall₂_parts hr).flip hi'
    refine ⟨d, hd.mem, ?_, i, b, hi, (hc.mem_preorder_iff hr hb).mpr hpart,
      (hd.since_pick_iff hr hts i).mpr hothers⟩
    rw [hd.kind_eq]
    cases g
    · exact Or.inl rfl
    · exact Or.inr rfl

/-- A task of the description has run if the task in the piece has. -/
theorem since_run_iff {v : List α} (hr : r.Yields R) (hc : r.Becomes R c (.task s v))
    (hts : ∀ t ∈ ts, t ∈ R.transitions) :
    Since (fun t => t.serves c.id .task = true) (r.Renews c) ts ↔
      Since (· = s.run) (Piece.Renews R (.task s v)) ts := by
  refine since_congr (fun t ht => ?_) fun t ht => hc.renews_iff hr (hts t ht)
  rw [← hc.id_eq]
  exact hc.part.eq_run_iff hr.nodup (hts t ht)

end Region.Becomes

/-- What a report says of a task after the given transitions have fired. -/
structure Workflow.TaskReport (w : Workflow α) (r c : Region α) (entry : PlaceId)
    (ts : List (Transition α)) (m : Marking α) : Prop where
  /-- The task is struck out when it was passed by, ... -/
  struckOut : (w.status m).lookup c.id = some .willNotBeExecuted ↔ r.PassedBy c ts
  /-- ... else it is active while a token rests in front of it, ... -/
  active : ¬ r.PassedBy c ts →
    ((w.status m).lookup c.id = some .active ↔ 0 < m.tokens entry)
  /-- ... completed when it has run since a loop around it last went back, ... -/
  completed : ¬ r.PassedBy c ts →
    ((w.status m).lookup c.id = some .completed ∨
        (w.status m).lookup c.id = some .completedWithoutPassingOver ↔
      Since (fun t => t.serves c.id .task = true) (r.Renews c) ts)
  /-- ... and waiting otherwise. -/
  waiting : ¬ r.PassedBy c ts →
    ((w.status m).lookup c.id = some .waiting ↔
      ¬ 0 < m.tokens entry ∧ ¬ Since (fun t => t.serves c.id .task = true) (r.Renews c) ts)

open Piece in
theorem Workflow.Consists.taskReport {w : Workflow α} {r c : Region α} {R : Piece α} {s : Site α}
    {v : List α} {ts : List (Transition α)} {m : Marking α} (h : w.Consists R) (hr : r.Yields R)
    (hc : r.Becomes R c (.task s v))
    (hpath : Tally.Path w.net.limit w.net.transitions w.initial.tally ts m.tally) :
    w.TaskReport r c s.entry ts m := by
  have hlive := h.alive_initial.1
  rw [h.transitions] at hpath
  have hP : Placed w.net.limit (.task s v) := hc.part.placed h.placed
  have hstaged := hc.part.staged h.placed (h.placed.live_path hlive hpath).staged
  have hrun := hc.part.done_task_iff h.placed hlive (hc.part.fresh_of_ready h.placed h.ready) hpath
  have hpassed : r.PassedBy c ts → (w.status m).lookup c.id = some .willNotBeExecuted := by
    intro hby
    rw [Workflow.status, h.layout, ← hc.id_eq]
    exact Part.lookup_of_passedBy h.placed hr.nodup hlive h.ready hpath
      ((hc.passedBy_iff hr hpath.mem).mp hby)
  have hkept : ¬ r.PassedBy c ts →
      (w.status m).lookup c.id = some ((Piece.task s v).state w.net m) := by
    intro hnot
    rw [Workflow.status, h.layout, ← hc.id_eq]
    exact hc.part.lookup_of_not_passedBy h.placed hr.nodup hlive h.ready hpath
      fun hby => hnot ((hc.passedBy_iff hr hpath.mem).mpr hby)
  have htokens : m.tokens s.entry = (m.tally s.entry).1 := rfl
  rw [← hc.since_run_iff hr hpath.mem] at hrun
  have hcases := hP.state_task w.net hstaged
  constructor
  · refine ⟨fun hout => ?_, hpassed⟩
    by_contra hnot
    rw [hkept hnot] at hout
    rcases hcases with ⟨-, hstate⟩ | ⟨-, hstate⟩ | ⟨-, hstate | hstate⟩
    all_goals
      rw [hstate] at hout
      cases hout
  all_goals
    intro hnot
    simp only [hkept hnot, ← hrun, htokens]
    rcases hcases with ⟨hentry, hstate⟩ | ⟨hentry, hstate⟩ | ⟨hentry, hstate | hstate⟩
    all_goals simp [hentry, hstate]

/-- What a report says of a task is the history of the task. -/
theorem Workflow.taskReport_of_validate {r : Region α} (h : r.validate = .ok ()) :
    ∃ w, Workflow.compile r = .ok w ∧
      ∀ ts m, w.net.Run w.initial ts m → ∀ c ∈ r.preorder, c.kind = .task →
        ∃ i ∈ w.layout.infos, i.id = c.id ∧ w.TaskReport r c i.entry ts m := by
  obtain ⟨blk, n, hblock, hcompile, hproper, hnodup⟩ := Workflow.compile_of_validate h
  obtain ⟨R, rfl, hR⟩ := Workflow.exists_piece hproper
  obtain ⟨hsound, hdistinct⟩ := Region.rules_of_validate h
  have hr : r.Yields R := ⟨hsound, hdistinct, hblock, hnodup⟩
  refine ⟨_, hcompile, ?_⟩
  intro ts m hrun c hc hkind
  obtain ⟨-, hpath⟩ := hrun.path hR.plain hR.ordered_initial
  obtain ⟨Q, hQ⟩ := hr.exists_part hc
  cases Q with
  | task s v =>
      refine ⟨_, ?_, (Piece.id_layout (.task s v)).trans hQ.id_eq, hR.taskReport hr hQ hpath⟩
      rw [hR.layout]
      exact hQ.part.mem_infos
  | gateway s g bs => cases g <;> cases hkind.symm.trans hQ.kind_eq
  | _ => cases hkind.symm.trans hQ.kind_eq

/-- When the choice in the loop has gone for task `c`, the tasks of its other branch are struck out,
and the tasks in front of the loop are completed. -/
theorem Workflow.taskReport_sample : ∃ (w : Workflow Rat) (ts : List (Transition Rat))
    (m : Marking Rat), Workflow.compile Region.sample = .ok w ∧ w.net.Run w.initial ts m ∧
      (∀ c ∈ Region.sample.preorder, c.kind = .task →
        ∃ i ∈ w.layout.infos, i.id = c.id ∧ w.TaskReport Region.sample c i.entry ts m) ∧
      (w.status m).lookup "d" = some .willNotBeExecuted ∧
      (w.status m).lookup "a" = some .completed := by
  obtain ⟨w, hcompile, hall⟩ := Workflow.taskReport_of_validate Region.sample_valid
  have hcheck : (match Workflow.compile Region.sample with
      | .ok w => (w.net.replay [0, 1, 2, 3, 4, 5, 6] w.initial).any fun m =>
          (w.status m).lookup "d" = some .willNotBeExecuted &&
            (w.status m).lookup "a" = some .completed
      | .error _ => false) = true := by decide +kernel
  rw [hcompile] at hcheck
  obtain ⟨m, hm, hcheck⟩ := (Option.any_eq_true _ _).mp hcheck
  obtain ⟨ts, hrun⟩ := Net.exists_run_of_replay hm
  simp only [Bool.and_eq_true, decide_eq_true_eq] at hcheck
  exact ⟨w, ts, m, hcompile, hrun, hall ts m hrun, hcheck⟩

end RegionNet
