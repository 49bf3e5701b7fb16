import RegionNet.Proofs.TaskStatus

/-!
# Reports along the tree

The lines of a report fit together (`Workflow.consistent_of_validate`). A report is made from the
leaves upwards, and a choice or draw by nature that has taken a branch strikes out all lines of the
others. So the lines of a region and of everything below it either make up the report on the region
alone, or all say that another branch was taken (`Part.lookup_kept_or_struck`), and what has to be
shown is only how the state of a region bears on those right below it: for a region that waits this
is read off the way in which states are told (`parts_of_waiting`), for a region that is done it
takes the stages that can be reached (`Placed.parts_of_done`).
-/

namespace RegionNet

variable {α : Type} [Quantity α]

/-! ## States -/

namespace Activity

variable {a : Activity} {c : Bool}

theorem eq_waiting_of_not_started (hne : a ≠ .willNotBeExecuted) (h : a.started = false) :
    a = .waiting := by
  cases a
  case waiting => rfl
  case willNotBeExecuted => exact absurd rfl hne
  all_goals cases h

theorem activeIf_eq_waiting_iff : activeIf c = .waiting ↔ c = false := by
  cases c <;> simp [activeIf]

theorem activeIf_ne_struckOut : activeIf c ≠ .willNotBeExecuted := by
  cases c <;> simp [activeIf]

end Activity

namespace Status

variable {net : Net α} {m : Marking α} {info : RegionInfo} {below : List Layout}
  {states : List Activity} {a : Activity} {r : Report} {rs : List Report} {chosen : Option Nat}
  {i : Nat} {e : String × Activity}

theorem settle_cases (net : Net α) (m : Marking α) (info : RegionInfo) (a : Activity) :
    settle net m info a = a ∨ settle net m info a = .completedWithoutPassingOver := by
  unfold settle
  split
  · exact Or.inr rfl
  · exact Or.inl rfl

theorem settle_eq_waiting_iff : settle net m info a = .waiting ↔ a = .waiting := by
  constructor
  · intro h
    rcases settle_cases net m info a with he | he
    · exact he.symm.trans h
    · cases he.symm.trans h
  · rintro rfl
    exact settle_waiting

theorem stateOf_ne_struckOut : stateOf m info below states ≠ .willNotBeExecuted := by
  have hif : ∀ c : Bool, Activity.activeIf c ≠ .willNotBeExecuted := fun _ =>
    Activity.activeIf_ne_struckOut
  simp only [stateOf]
  split
  case h_1 => split_ifs <;> exact Activity.noConfusion
  -- a second child that is done is not struck out
  case h_2 =>
    split
    · next second =>
        split
        · next hdone =>
            rintro rfl
            cases hdone
        · exact hif _
    · exact Activity.noConfusion
  case h_3 | h_6 =>
    split
    · exact Activity.noConfusion
    · exact hif _
  case h_4 | h_5 =>
    split
    · split <;> exact Activity.noConfusion
    · exact hif _

/-! ## Lines of merged reports -/

/-- The lines of each of the merged reports all stay, or are all struck out. -/
theorem merge_kept_or_struck (chosen : Option Nat) (hi : rs[i]? = some r) :
    (∀ e ∈ r.entries, e ∈ Report.merge chosen rs) ∨
      ∀ e ∈ r.entries, (e.1, .willNotBeExecuted) ∈ Report.merge chosen rs := by
  by_cases hkept : ∀ j, chosen = some j → j = i
  · exact Or.inl fun e he => mem_merge_of_kept hi hkept he
  · push Not at hkept
    obtain ⟨j, hchosen, hne⟩ := hkept
    exact Or.inr fun e he => mem_merge_of_struck hi hchosen hne he

/-- Where no report was chosen, all of them count. -/
theorem merge_none : Report.merge none rs = rs.flatMap Report.entries := by
  unfold Report.merge
  rw [← List.flatMap_map Prod.fst Report.entries, List.zipIdx_map_fst]

/-- A line that is not struck out comes from a report that counts. -/
theorem of_mem_merge (h : e ∈ Report.merge chosen rs) : e.2 = .willNotBeExecuted ∨
    ∃ i r, rs[i]? = some r ∧ (∀ j, chosen = some j → j = i) ∧ e ∈ r.entries := by
  obtain ⟨⟨r, i⟩, hmem, he⟩ := List.mem_flatMap.mp h
  have hi : rs[i]? = some r := List.mk_mem_zipIdx_iff_getElem?.mp hmem
  cases chosen with
  | none => exact Or.inr ⟨i, r, hi, nofun, he⟩
  | some c =>
      by_cases hc : i = c
      · refine Or.inr ⟨i, r, hi, ?_, by simpa [hc] using he⟩
        rintro j ⟨⟩
        exact hc.symm
      · have hstruck : e ∈ r.struckOut := by simpa [hc] using he
        obtain ⟨_, -, rfl⟩ := List.mem_map.mp hstruck
        exact Or.inl rfl

end Status

/-! ## Lines of pieces -/

namespace Piece

variable {lim : PlaceId → Option Nat} {P P' Q R : Piece α} {s : Site α} {g : Gate α}
  {bs : List (Piece α)} {net : Net α} {m : Marking α} {e : String × Activity} {i : Nat}

theorem state_ne_struckOut (P : Piece α) (net : Net α) (m : Marking α) :
    P.state net m ≠ .willNotBeExecuted := by
  intro h
  rw [state, layout_eq, Status.state_report] at h
  rcases Status.settle_cases net m P.layout.info
    (Status.stateOf m P.layout.info _ _) with he | he
  · exact Status.stateOf_ne_struckOut (he.symm.trans h)
  · cases he.symm.trans h

/-- A line is the piece's own, is struck out, or belongs to a piece right below that counts. -/
theorem mem_entries (h : e ∈ (Status.report net m P.layout).entries) :
    e = (P.site.head.id, P.state net m) ∨ e.2 = .willNotBeExecuted ∨
      ∃ i P', P.parts[i]? = some P' ∧ (∀ j, P.taken net m = some j → j = i) ∧
        e ∈ (Status.report net m P'.layout).entries := by
  rw [entries_eq] at h
  rcases List.mem_cons.mp h with rfl | h
  · exact Or.inl rfl
  · refine Or.inr ((Status.of_mem_merge h).imp_right ?_)
    rintro ⟨i, r, hi, hkept, he⟩
    rw [List.getElem?_map] at hi
    obtain ⟨P', hP', rfl⟩ := Option.map_eq_some_iff.mp hi
    exact ⟨i, P', hP', hkept, he⟩

/-- The lines of a part all stay, or are all struck out. -/
theorem Part.kept_or_struck (h : Part Q P) (net : Net α) (m : Marking α) :
    (∀ e ∈ (Status.report net m Q.layout).entries,
      e ∈ (Status.report net m P.layout).entries) ∨
    ∀ e ∈ (Status.report net m Q.layout).entries,
      (e.1, .willNotBeExecuted) ∈ (Status.report net m P.layout).entries := by
  apply h.climb
  · exact Or.inl fun _ he => he
  intro P P' hP' _ ih
  obtain ⟨i, hi⟩ := List.mem_iff_getElem?.mp hP'
  have hbelow : (P.parts.map fun b => Status.report net m b.layout)[i]? =
      some (Status.report net m P'.layout) := by rw [List.getElem?_map, hi, Option.map_some]
  simp only [entries_eq P]
  rcases Status.merge_kept_or_struck (P.taken net m) hbelow with hkept | hstruck
  · refine ih.imp (fun ih e he => ?_) fun ih e he => ?_
    · exact List.mem_cons_of_mem _ (hkept e (ih e he))
    · exact List.mem_cons_of_mem _ (hkept _ (ih e he))
  -- a line that is struck out is struck out for good
  · refine Or.inr fun e he => List.mem_cons_of_mem _ ?_
    rcases ih with ih | ih
    · exact hstruck e (ih e he)
    · exact hstruck (e.1, .willNotBeExecuted) (ih e he)

/-- A piece right below another one keeps its line if none of its siblings was taken. -/
theorem mem_entries_of_kept (hi : P.parts[i]? = some P')
    (hkept : ∀ j, P.taken net m = some j → j = i) :
    (P'.site.head.id, P'.state net m) ∈ (Status.report net m P.layout).entries := by
  have hbelow : (P.parts.map fun b => Status.report net m b.layout)[i]? =
      some (Status.report net m P'.layout) := by rw [List.getElem?_map, hi, Option.map_some]
  rw [entries_eq P]
  exact List.mem_cons_of_mem _
    (Status.mem_merge_of_kept hbelow hkept (P'.mem_entries_self net m))

/-! ## The state of a piece and those right below it -/

theorem eq_waiting_of_not_started {b : Piece α} (h : (b.state net m).started = false) :
    b.state net m = .waiting :=
  Activity.eq_waiting_of_not_started (state_ne_struckOut b net m) h

/-- The state of a choice or draw by nature is that of the branch that it has taken. -/
theorem state_gateway_of_taken (s : Site α) (g : Gate α) (bs : List (Piece α)) :
    (Piece.gateway s g bs).state net m = Status.settle net m (s.info g.kind)
      (match (Piece.gateway s g bs).taken net m with
        | some i => if ((bs.map fun b : Piece α => b.state net m).getD i .waiting).done
            then .completed else .active
        | none => .activeIf (0 < (m.tally s.entry).1)) := by
  rw [state_gateway, Status.stateOf_gateway (kind_gateway s g)]
  cases g <;> rfl

/-- Where no branch was taken, none was begun. -/
theorem waiting_of_taken_none (h : (Piece.gateway s g bs).taken net m = none) :
    ∀ b ∈ bs, b.state net m = .waiting := by
  intro b hb
  rw [taken_gateway, Option.or_eq_none_iff] at h
  exact eq_waiting_of_not_started (List.findIdx?_eq_none_iff.mp h.2 _ (List.mem_map_of_mem hb))

/-- Nothing below a piece that waits has begun, and it has taken no branch. -/
theorem Placed.parts_of_waiting (hP : Placed lim P) (h : P.state net m = .waiting) :
    P.taken net m = none ∧ ∀ b ∈ P.parts, b.state net m = .waiting := by
  cases P with
  | task s v => exact ⟨rfl, List.forall_mem_nil _⟩
  | sequential s P Q =>
      rw [state_sequential, Status.settle_eq_waiting_iff] at h
      split at h
      · next hdone =>
          rw [h] at hdone
          cases hdone
      · obtain ⟨hP, hQ⟩ := Bool.or_eq_false_iff.mp (Activity.activeIf_eq_waiting_iff.mp h)
        exact ⟨rfl, List.forall_mem_cons.mpr ⟨eq_waiting_of_not_started hP,
          List.forall_mem_singleton.mpr (eq_waiting_of_not_started hQ)⟩⟩
  | parallel s bs =>
      rw [hP.parallel.state_parallel, Status.settle_eq_waiting_iff] at h
      split at h
      · cases h
      · have hstarted := (Bool.or_eq_false_iff.mp (Activity.activeIf_eq_waiting_iff.mp h)).2
        refine ⟨rfl, fun b hb => eq_waiting_of_not_started ?_⟩
        rw [← Bool.not_eq_true]
        exact List.any_eq_false.mp hstarted _ (List.mem_map_of_mem hb)
  | gateway s g bs =>
      rw [state_gateway_of_taken, Status.settle_eq_waiting_iff] at h
      cases htaken : (Piece.gateway s g bs).taken net m with
      | some i =>
          rw [htaken] at h
          dsimp only at h
          split at h <;> cases h
      | none => exact ⟨rfl, waiting_of_taken_none htaken⟩
  | loop s body x n =>
      rw [state_loop, Status.settle_eq_waiting_iff] at h
      split at h
      · cases h
      · have hstarted := Activity.activeIf_eq_waiting_iff.mp h
        simp only [Bool.or_eq_false_iff] at hstarted
        exact ⟨rfl, List.forall_mem_singleton.mpr (eq_waiting_of_not_started hstarted.1.1)⟩

/-- What counts below a piece that is done is done: a second part is not begun before the first one
is over. -/
theorem Placed.parts_of_done (hP : Placed lim P) (hstaged : P.Staged m.tally)
    (h : (P.state net m).done = true) (hi : P.parts[i]? = some P')
    (hkept : ∀ j, P.taken net m = some j → j = i) : (P'.state net m).done = true := by
  have hmem : P' ∈ P.parts := List.mem_of_getElem? hi
  have hbegun : ∀ {c : Bool}, (Activity.activeIf c).done = true → (P'.state net m).done = true := by
    intro c hc
    rw [Activity.done_activeIf] at hc
    cases hc
  cases P with
  | task s v => cases hmem
  | sequential s P Q =>
      rw [state_sequential, Status.done_settle] at h
      split at h
      · rcases List.mem_pair.mp hmem with rfl | rfl
        · have htells : Q.Tells net m := hP.snd.tells
          have htellsP : P'.Tells net m := hP.fst.tells
          have hnot : ¬ m.tally.Untouched Q.zone := fun hfresh => by
            rw [htells.fresh hfresh] at h
            cases h
          rcases hstaged with hfresh | ⟨⟨-, hfresh⟩ | ⟨hdone, -⟩, -⟩ | ⟨hdone, -⟩
          · exact absurd (hfresh.mono (List.subset_append_right _ _)) hnot
          · exact absurd hfresh hnot
          · exact htellsP.ended hdone
          · exact htellsP.ended hdone
        · exact h
      · exact hbegun h
  | parallel s bs =>
      rw [hP.parallel.state_parallel, Status.done_settle] at h
      split at h
      · next hall => exact List.all_eq_true.mp hall _ (List.mem_map_of_mem hmem)
      · exact hbegun h
  | gateway s g bs =>
      rw [state_gateway_of_taken, Status.done_settle] at h
      cases htaken : (Piece.gateway s g bs).taken net m with
      | some j =>
          obtain rfl := hkept j htaken
          have hstate : (bs.map fun b => b.state net m).getD j .waiting = P'.state net m := by
            rw [List.getD_eq_getElem?_getD, List.getElem?_map]
            exact congrArg (fun b => (Option.map (fun b => b.state net m) b).getD .waiting) hi
          rw [htaken] at h
          dsimp only at h
          rw [hstate] at h
          split at h
          · assumption
          · cases h
      | none =>
          rw [htaken] at h
          exact hbegun h
  | loop s body x n =>
      obtain rfl := List.mem_singleton.mp hmem
      rw [state_loop, Status.done_settle] at h
      split at h
      · next hdone => exact hdone.1
      · exact hbegun h

/-- Below a piece that waits everything waits. -/
theorem Placed.lines_of_waiting (hP : Placed lim P) (h : P.state net m = .waiting) :
    ∀ e ∈ (Status.report net m P.layout).entries, e.2 = .waiting := by
  induction P using Piece.parts_induct with
  | step P ih =>
      obtain ⟨hnone, hwaiting⟩ := hP.parts_of_waiting h
      rw [entries_eq, hnone, Status.merge_none, List.flatMap_map]
      refine List.forall_mem_cons.mpr ⟨h, fun e he => ?_⟩
      obtain ⟨P', hP', he⟩ := List.mem_flatMap.mp he
      exact ih P' hP' ((Part.of_parts hP' .self).placed hP) (hwaiting P' hP') e he

/-- Below a piece that is done everything is done or struck out. -/
theorem Placed.lines_of_done (hP : Placed lim P) (hstaged : P.Staged m.tally)
    (h : (P.state net m).done = true) : ∀ e ∈ (Status.report net m P.layout).entries,
      e.2.done = true ∨ e.2 = .willNotBeExecuted := by
  induction P using Piece.parts_induct with
  | step P ih =>
      intro e he
      rcases mem_entries he with rfl | hstruck | ⟨i, P', hi, hkept, he⟩
      · exact Or.inl h
      · exact Or.inr hstruck
      · have hpart : Part P' P := .of_parts (List.mem_of_getElem? hi) .self
        exact ih P' (List.mem_of_getElem? hi) (hpart.placed hP) (hpart.staged hP hstaged)
          (hP.parts_of_done hstaged h hi hkept) e he

end Piece

/-! ## Regions of a workflow -/

theorem Region.Yields.ids {r : Region α} {R : Piece α} (hr : r.Yields R) :
    R.block.ids = r.preorder.map Region.id := by
  obtain ⟨n, hsound⟩ := hr.sound
  obtain ⟨blk, hblock, -, hids⟩ := Region.block_of_sound r hsound
  obtain rfl : R.block = blk := Except.ok.inj (hr.block.symm.trans hblock)
  exact hids

/-- The workflow of a valid description consists of a piece that was made of the description. -/
theorem Workflow.exists_yields {r : Region α} (h : r.validate = .ok ()) :
    ∃ w R, Workflow.compile r = .ok w ∧ w.Consists R ∧ r.Yields R := by
  obtain ⟨blk, n, hblock, hcompile, hproper, hnodup⟩ := Workflow.compile_of_validate h
  obtain ⟨R, rfl, hR⟩ := Workflow.exists_piece hproper
  obtain ⟨hsound, hdistinct⟩ := Region.rules_of_validate h
  exact ⟨_, R, hcompile, hR, hsound, hdistinct, hblock, hnodup⟩

/-- How the lines of a report fit together. -/
structure Workflow.Consistent (w : Workflow α) (r : Region α) (m : Marking α) : Prop where
  /-- There is one line for each region, in document order, ... -/
  ids : (w.status m).map Prod.fst = r.preorder.map Region.id
  /-- ... and no two regions share a line. -/
  distinct : ((w.status m).map Prod.fst).Nodup
  struckOut : ∀ c ∈ r.preorder, ∀ d ∈ c.preorder,
    (w.status m).lookup c.id = some .willNotBeExecuted →
      (w.status m).lookup d.id = some .willNotBeExecuted
  waiting : ∀ c ∈ r.preorder, ∀ d ∈ c.preorder,
    (w.status m).lookup c.id = some .waiting → (w.status m).lookup d.id = some .waiting
  /-- Below a region that is done everything is done or struck out. -/
  done : ∀ c ∈ r.preorder, ∀ d ∈ c.preorder, ∀ a, (w.status m).lookup c.id = some a →
    a.done = true → ∃ b, (w.status m).lookup d.id = some b ∧
      (b.done = true ∨ b = .willNotBeExecuted)
  /-- A choice or draw by nature that is not struck out has taken no branch, and then none is struck
  out or has begun, or it has taken a branch, and then all the others are struck out. -/
  branches : ∀ c ∈ r.preorder, c.kind = .choice ∨ c.kind = .nature →
    (w.status m).lookup c.id ≠ some .willNotBeExecuted →
      (∀ d ∈ c.branches, ∃ b, (w.status m).lookup d.id = some b ∧ b ≠ .willNotBeExecuted ∧
        b.started = false) ∨
      ∃! d, d ∈ c.branches ∧ (w.status m).lookup d.id ≠ some .willNotBeExecuted

namespace Workflow.Consists

variable {w : Workflow α} {r c d : Region α} {R Q : Piece α} {m : Marking α}

/-- The report says of a region and of all regions in it what the report on the region alone says,
or that another branch was taken. -/
theorem lookup_kept_or_struck (h : w.Consists R) (hr : r.Yields R) (hc : r.Becomes R c Q)
    (m : Marking α) :
    (∀ e ∈ (Status.report w.net m Q.layout).entries, (w.status m).lookup e.1 = some e.2) ∨
      ∀ d ∈ c.preorder, (w.status m).lookup d.id = some .willNotBeExecuted := by
  have hline : ∀ {id : String} {a : Activity},
      (id, a) ∈ (Status.report w.net m R.layout).entries → (w.status m).lookup id = some a := by
    intro id a ha
    rw [Workflow.status, h.layout]
    exact Status.lookup_of_mem (R.nodup_entries hr.nodup) ha
  rcases hc.part.kept_or_struck w.net m with hkept | hstruck
  · exact Or.inl fun e he => hline (hkept e he)
  · refine Or.inr fun d hd => ?_
    obtain ⟨Q', hQ'⟩ := hr.exists_part (Region.preorder_subset hc.mem hd)
    obtain ⟨a, ha⟩ := ((hQ'.mem_preorder_iff hr hc).mp hd).exists_line w.net m
    rw [hQ'.id_eq] at ha
    exact hline (hstruck _ ha)

/-- A region that is not struck out is reported in the state that it has by itself. -/
theorem lookup_of_kept (hc : r.Becomes R c Q)
    (hkept : ∀ e ∈ (Status.report w.net m Q.layout).entries, (w.status m).lookup e.1 = some e.2) :
    (w.status m).lookup c.id = some (Q.state w.net m) := by
  rw [← hc.id_eq]
  exact hkept _ (Q.mem_entries_self w.net m)

/-- The regions in a region that is not struck out have the lines of the report on that region. -/
theorem exists_line_of_kept (hr : r.Yields R) (hc : r.Becomes R c Q)
    (hkept : ∀ e ∈ (Status.report w.net m Q.layout).entries, (w.status m).lookup e.1 = some e.2)
    (hd : d ∈ c.preorder) : ∃ e ∈ (Status.report w.net m Q.layout).entries,
      (w.status m).lookup d.id = some e.2 := by
  obtain ⟨Q', hQ'⟩ := hr.exists_part (Region.preorder_subset hc.mem hd)
  obtain ⟨a, ha⟩ := ((hQ'.mem_preorder_iff hr hc).mp hd).exists_line w.net m
  rw [hQ'.id_eq] at ha
  exact ⟨_, ha, hkept _ ha⟩

/-- A choice or draw by nature that is not struck out strikes out the branches that it has not
taken, once it has taken one. -/
theorem branches_of_kept (h : w.Consists R) (hr : r.Yields R) (hc : r.Becomes R c Q)
    (hkind : c.kind = .choice ∨ c.kind = .nature)
    (hkept : ∀ e ∈ (Status.report w.net m Q.layout).entries, (w.status m).lookup e.1 = some e.2) :
    (∀ d ∈ c.branches, ∃ b, (w.status m).lookup d.id = some b ∧ b ≠ .willNotBeExecuted ∧
        b.started = false) ∨
      ∃! d, d ∈ c.branches ∧ (w.status m).lookup d.id ≠ some .willNotBeExecuted := by
  have hchild : ∀ {i d}, c.branches[i]? = some d → ∃ b, Q.parts[i]? = some b ∧ r.Becomes R d b :=
    fun hi => exists_getElem?_of_forall₂ (hc.forall₂_parts hr) hi
  cases Q with
  | gateway s g bs =>
      cases htaken : (Piece.gateway s g bs).taken w.net m with
      | none =>
          refine Or.inl fun d hd => ?_
          obtain ⟨i, hi⟩ := List.mem_iff_getElem?.mp hd
          obtain ⟨b, hi, hb⟩ := hchild hi
          have hline := hkept _ (Piece.mem_entries_of_kept hi fun j hj => by
            rw [htaken] at hj
            cases hj)
          have hwaiting := Piece.waiting_of_taken_none htaken b (List.mem_of_getElem? hi)
          rw [hb.id_eq, hwaiting] at hline
          exact ⟨_, hline, Activity.noConfusion, rfl⟩
      | some j =>
          obtain ⟨b, hj, -⟩ := (hc.part.placed h.placed).gateway.touched_of_taken htaken
          obtain ⟨d, hj', hb⟩ := exists_getElem?_of_forall₂ (hc.forall₂_parts hr).flip hj
          refine Or.inr ⟨d, ⟨List.mem_of_getElem? hj', ?_⟩, ?_⟩
          · have hline := hkept _ (Piece.mem_entries_of_kept hj fun k hk =>
              Option.some.inj (hk.symm.trans htaken))
            rw [hb.id_eq] at hline
            rw [hline]
            exact fun he => b.state_ne_struckOut w.net m (Option.some.inj he)
          · rintro e ⟨he, hnot⟩
            obtain ⟨i, hi⟩ := List.mem_iff_getElem?.mp he
            obtain ⟨b', hi', hb'⟩ := hchild hi
            by_cases hij : j = i
            · subst hij
              exact Option.some.inj (hi.symm.trans hj')
            · refine absurd ?_ hnot
              rw [← hb'.id_eq]
              exact hkept _ (Piece.Part.self.struck_of_taken hi' .self htaken hij)
  | _ =>
      rw [hc.kind_eq] at hkind
      rcases hkind with hkind | hkind <;> cases hkind

theorem consistent (h : w.Consists R) (hr : r.Yields R) (hlive : R.Live m.tally) :
    w.Consistent r m := by
  have hids : (w.status m).map Prod.fst = R.block.ids := by
    rw [Workflow.status, h.layout, Status.ids_report, R.ids_layout]
  refine ⟨hids.trans hr.ids, hids ▸ hr.nodup, ?_, ?_, ?_, ?_⟩
  all_goals
    intro c hc
    obtain ⟨Q, hQ⟩ := hr.exists_part hc
    have hcases := h.lookup_kept_or_struck hr hQ m
  · intro d hd hstruck
    rcases hcases with hkept | hall
    · exact absurd (Option.some.inj ((lookup_of_kept hQ hkept).symm.trans hstruck))
        (Q.state_ne_struckOut _ _)
    · exact hall d hd
  · intro d hd hwaiting
    rcases hcases with hkept | hall
    · obtain ⟨e, he, hline⟩ := exists_line_of_kept hr hQ hkept hd
      have hstate := Option.some.inj ((lookup_of_kept hQ hkept).symm.trans hwaiting)
      rw [hline, (hQ.part.placed h.placed).lines_of_waiting hstate e he]
    · cases (hall c c.mem_preorder_self).symm.trans hwaiting
  · intro d hd a ha hdone
    rcases hcases with hkept | hall
    · obtain ⟨e, he, hline⟩ := exists_line_of_kept hr hQ hkept hd
      obtain rfl := Option.some.inj ((lookup_of_kept hQ hkept).symm.trans ha)
      exact ⟨e.2, hline, (hQ.part.placed h.placed).lines_of_done
        (hQ.part.staged h.placed hlive.staged) hdone e he⟩
    · obtain rfl := Option.some.inj ((hall c c.mem_preorder_self).symm.trans ha)
      cases hdone
  · intro hkind hnot
    rcases hcases with hkept | hall
    · exact h.branches_of_kept hr hQ hkind hkept
    · exact absurd (hall c c.mem_preorder_self) hnot

end Workflow.Consists

/-- Whatever has fired, the lines of the report fit together along the tree of regions. -/
theorem Workflow.consistent_of_validate {r : Region α} (h : r.validate = .ok ()) :
    ∃ w, Workflow.compile r = .ok w ∧
      ∀ ts m, w.net.Run w.initial ts m → w.Consistent r m := by
  obtain ⟨w, R, hcompile, hR, hr⟩ := Workflow.exists_yields h
  refine ⟨w, hcompile, ?_⟩
  intro ts m hrun
  obtain ⟨-, hpath⟩ := hrun.path hR.plain hR.ordered_initial
  exact hR.consistent hr (hR.alive_of_path hpath).1

theorem Workflow.consistent_sample : ∃ (w : Workflow Rat) (ts : List (Transition Rat))
    (m : Marking Rat), Workflow.compile Region.sample = .ok w ∧ w.net.Run w.initial ts m ∧
      w.Consistent Region.sample m ∧
      (w.status m).lookup "choose" = some .completed ∧
      (w.status m).lookup "draw" = some .willNotBeExecuted := by
  obtain ⟨w, hcompile, hall⟩ := Workflow.consistent_of_validate Region.sample_valid
  have hcheck : (match Workflow.compile Region.sample with
      | .ok w => (w.net.replay [0, 1, 2, 3, 4, 5, 6] w.initial).any fun m =>
          (w.status m).lookup "choose" = some .completed &&
            (w.status m).lookup "draw" = some .willNotBeExecuted
      | .error _ => false) = true := by decide +kernel
  rw [hcompile] at hcheck
  obtain ⟨m, hm, hcheck⟩ := (Option.any_eq_true _ _).mp hcheck
  obtain ⟨ts, hrun⟩ := Net.exists_run_of_replay hm
  simp only [Bool.and_eq_true, decide_eq_true_eq] at hcheck
  exact ⟨w, ts, m, hcompile, hrun, hall ts m hrun, hcheck⟩

end RegionNet
