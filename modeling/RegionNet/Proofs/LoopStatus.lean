import RegionNet.Proofs.Part
import RegionNet.Proofs.Soundness
import RegionNet.Proofs.State

/-!
# The reported state of loops

A loop is reported as active exactly as long as some token in its body rests outside the tails of
the body (`Workflow.loop_state`). A loop whose body ends with a parallel block, a choice or a draw
by nature is therefore reported as completed for a moment in every round.
-/

namespace RegionNet

namespace Piece

variable {α : Type} {lim : PlaceId → Option Nat} {P : Piece α} {s : Site α} {bs : List (Piece α)}
  {f : Tally} {p : PlaceId}

/-! ## Layouts and their pieces -/

theorem mem_places_node {i : RegionInfo} {cs : List Layout} : p ∈ (Layout.node i cs).places ↔
    p = i.entry ∨ p = i.exit ∨ ∃ c ∈ cs, p ∈ c.places := by
  unfold Layout.places
  rw [Layout.infos, Layout.infosAll_eq_flatMap]
  simp only [List.flatMap_cons, List.mem_append, List.mem_flatMap, List.mem_cons, List.not_mem_nil,
    or_false, or_assoc]
  refine or_congr_right (or_congr_right ?_)
  constructor
  · rintro ⟨j, ⟨c, hc, hj⟩, hp⟩
    exact ⟨c, hc, j, hj, hp⟩
  · rintro ⟨c, hc, j, hj, hp⟩
    exact ⟨j, ⟨c, hc, hj⟩, hp⟩

theorem mem_places_branches {i : RegionInfo} (hentry : i.entry = s.entry) (hexit : i.exit = s.exit)
    (ih : ∀ b ∈ bs, (p ∈ b.layout.places ↔ p ∈ b.ground)) :
    p ∈ (Layout.node i (layouts bs)).places ↔ p ∈ s.entry :: (zones bs ++ [s.exit]) := by
  have hbranches : (∃ c ∈ layouts bs, p ∈ c.places) ↔ p ∈ zones bs := by
    rw [layouts_eq_map, mem_zones]
    constructor
    · rintro ⟨c, hc, hp⟩
      obtain ⟨b, hb, rfl⟩ := List.mem_map.mp hc
      exact ⟨b, hb, (ih b hb).mp hp⟩
    · rintro ⟨b, hb, hp⟩
      exact ⟨b.layout, List.mem_map_of_mem hb, (ih b hb).mpr hp⟩
  rw [mem_places_node, hbranches, hentry, hexit]
  simp only [List.mem_cons, List.mem_append, List.not_mem_nil, or_false]
  exact or_congr_right or_comm

/-- The places of a layout are those of its piece. -/
theorem Placed.mem_places (hP : Placed lim P) : p ∈ P.layout.places ↔ p ∈ P.ground := by
  induction P using Piece.ind with
  | task s v => simp [Layout.places, layout, Layout.infos, Layout.infosAll, Site.info, ground, zone,
      exit, site]
  | sequential s P Q ihP ihQ =>
      have hentry : s.entry ∈ P.ground := hP.fst_entry ▸ hP.fst.entry_mem_ground
      have hexit : s.exit ∈ Q.ground := hP.snd_exit ▸ exit_mem_ground Q
      have hground : p ∈ (Piece.sequential s P Q).ground ↔ p ∈ P.ground ∨ p ∈ Q.ground := by
        rw [hP.sequential_ground, List.mem_append, mem_ground (P := P)]
        constructor
        · exact Or.imp_left Or.inl
        -- the exit of the first part is the entry of the second
        · rintro ((hp | rfl) | hp)
          · exact Or.inl hp
          · exact Or.inr (hP.snd_entry ▸ hP.snd.entry_mem_ground)
          · exact Or.inr hp
      rw [layout, mem_places_node, hground]
      simp only [List.mem_cons, List.not_mem_nil, or_false, exists_eq_or_imp, exists_eq_left,
        ihP hP.fst, ihQ hP.snd]
      constructor
      · rintro (rfl | rfl | hp)
        · exact Or.inl hentry
        · exact Or.inr hexit
        · exact hp
      · intro hp
        exact Or.inr (Or.inr hp)
  | parallel s bs ih =>
      exact mem_places_branches rfl rfl fun b hb => ih b hb (hP.parallel.branch hb)
  | gateway s g bs ih =>
      exact mem_places_branches rfl rfl fun b hb => ih b hb (hP.gateway.branch hb)
  | loop s body x n ih =>
      rw [layout, mem_places_node]
      simp only [List.mem_cons, List.not_mem_nil, or_false, exists_eq_left, ih hP.body]
      show _ ↔ p ∈ s.entry :: body.ground ++ [s.exit]
      simp only [List.cons_append, List.mem_cons, List.mem_append, List.not_mem_nil, or_false]
      exact or_congr_right or_comm

/-- The lines of a layout carry the ids of the block in document order. -/
theorem ids_layout (P : Piece α) : P.layout.infos.map RegionInfo.id = P.block.ids := by
  have hall : ∀ {bs : List (Piece α)}, (∀ b ∈ bs, b.layout.infos.map RegionInfo.id = b.block.ids) →
      (Layout.infosAll (layouts bs)).map RegionInfo.id = Block.idsAll (blocks bs) := by
    intro bs ih
    induction bs with
    | nil => rfl
    | cons b bs ihbs =>
        obtain ⟨hb, hbs⟩ := List.forall_mem_cons.mp ih
        rw [layouts, Layout.infosAll, List.map_append, hb, ihbs hbs, blocks, Block.idsAll]
  induction P using Piece.ind with
  | task s v => rfl
  | sequential s P Q ihP ihQ =>
      show s.head.id :: (P.layout.infos ++ (Q.layout.infos ++ [])).map RegionInfo.id = _
      rw [List.append_nil, List.map_append, ihP, ihQ]
      rfl
  | parallel s bs ih =>
      show s.head.id :: (Layout.infosAll (layouts bs)).map RegionInfo.id = _
      rw [hall ih]
      rfl
  | gateway s g bs ih =>
      show s.head.id :: (Layout.infosAll (layouts bs)).map RegionInfo.id = _
      rw [hall ih]
      cases g <;> rfl
  | loop s body x n ih =>
      show s.head.id :: (body.layout.infos ++ []).map RegionInfo.id = _
      rw [List.append_nil, ih]
      rfl

/-- A piece with a token in its zone is under way. -/
theorem Placed.busy_of_marked (hP : Placed lim P) (hstaged : P.Staged f) (hp : p ∈ P.zone)
    (hmarked : 0 < (f p).1) : P.Busy f ∧ (f P.exit).1 = 0 := by
  rcases hstaged with hfresh | hbusy | hdone
  · exact absurd hmarked (not_pos_of_eq (hfresh p hp))
  · exact hbusy
  · exact absurd (hP.idle_of_done hdone p hp) hmarked.ne'

/-- A loop with a token in its body is in its tails if the body is. -/
theorem winding_of_body {x : α} {n : Nat} (hbusy : (Piece.loop s P x n).Busy f)
    (hp : p ∈ P.ground) (hmarked : 0 < (f p).1)
    (htails : ∀ q ∈ P.ground, 0 < (f q).1 → q ∈ P.layout.tails) :
    (Piece.loop s P x n).Winding f := by
  intro q hq hmarked'
  rcases List.mem_cons.mp hq with rfl | hq
  -- while a token waits to enter the loop, there is none in the body
  · rcases hbusy with ⟨_, hfresh⟩ | ⟨hentry, _⟩
    · exact absurd hmarked (not_pos_of_eq (hfresh p hp))
    · exact absurd hmarked' (not_pos_of_eq hentry)
  · exact htails q hq hmarked'

/-! ## How a loop ends -/

/-- Visits are only counted where a token was taken. -/
theorem visits_fire_le {t : Transition α} (hin : p ∉ t.inputs) : (f.fire t p).2 ≤ (f p).2 := by
  simp only [Tally.fire, List.count_eq_zero_of_not_mem hin]
  split
  · exact Nat.zero_le _
  · exact Nat.le_refl _

/-- Tokens are only taken from inputs. -/
theorem mem_inputs_of_emptied {t : Transition α} (hmarked : 0 < (f p).1)
    (hempty : (f.fire t p).1 = 0) : p ∈ t.inputs := by
  by_contra hin
  simp only [Tally.fire, List.count_eq_zero_of_not_mem hin] at hempty
  omega

variable [Quantity α]

/-- A loop that is over after a move was over before, or the move was its exit. -/
theorem Part.leave_of_done {R : Piece α} {x : α} {n : Nat} {t : Transition α}
    (hpart : Part (.loop s P x n) R) (hR : Placed lim R) (hstaged : R.Staged f)
    (ht : t ∈ R.transitions) (ha : f.Admits lim t) (hdone : (Piece.loop s P x n).Done (f.fire t)) :
    (Piece.loop s P x n).Done f ∨ t = s.leave P x := by
  have hP : Placed lim (.loop s P x n) := hpart.placed hR
  have hexitzone : P.exit ∈ (Piece.loop s P x n).zone := List.mem_cons_of_mem _ (exit_mem_ground P)
  obtain ⟨_, hbody, v, _, hexit⟩ := hdone
  -- the body cannot have been left if there was no token behind it
  have hleft : f P.exit ≠ (0, 0) := by
    intro hempty
    have hin : P.exit ∉ t.inputs := fun hin => not_pos_of_eq hempty (ha.1 _ hin)
    have hvisits := visits_fire_le (f := f) hin
    rw [hexit, hempty] at hvisits
    exact absurd hvisits (by omega)
  rcases hpart.staged hR hstaged with hfresh | ⟨⟨_, hfresh⟩ | ⟨_, u, hu, hround⟩, _⟩ | hover
  · exact absurd (hfresh _ hexitzone) hleft
  · exact absurd (hfresh _ (exit_mem_ground P)) hleft
  · apply Or.inr
    rcases hround with ⟨hbusy, hexit'⟩ | ⟨hdone, hexit'⟩
    -- while the body is under way, a move that ends it marks its exit
    · obtain ⟨p, hp, hmarked⟩ := hP.body.exists_marked hbusy
      have hin := mem_inputs_of_emptied hmarked (hP.body.idle_of_done hbody p hp)
      have howns : t ∈ P.transitions := Part.owns (.body .self) hP
        (hpart.owns hR ht hin (List.mem_cons_of_mem _ (zone_subset_ground _ hp))) hin hp
      rcases hP.body.step hbusy howns ha with ⟨hbusy', _⟩ | ⟨_, hmarks⟩
      · obtain ⟨q, hq, hmarked'⟩ := hP.body.exists_marked hbusy'
        exact absurd (hP.body.idle_of_done hbody q hq) hmarked'.ne'
      · rw [hexit, hexit'] at hmarks
        cases hmarks
    -- once it is over, the loop goes on or is left
    · have hin : P.exit ∈ t.inputs := mem_inputs_of_emptied (pos_of_eq hexit') (by rw [hexit])
      rcases List.mem_cons.mp (hpart.owns hR ht hin hexitzone) with rfl | hown
      · have he : P.exit = s.entry := by simpa [Site.enter] using hin
        exact absurd he (hP.ne_entry_of_body (exit_mem_ground P))
      rcases List.mem_append.mp hown with hown | hown
      · exact absurd ((hP.body.within hown).inputs hin) hP.body.exit_notMem_zone
      rcases List.mem_cons.mp hown with rfl | hown
      · have hready := (hP.back_ready hdone hexit').1.1
        exact absurd (hP.body.idle_of_done hbody _ hP.body.entry_mem_zone) (by rw [hready]; simp)
      · exact List.mem_singleton.mp hown
  · exact Or.inl hover

/-- Where a loop is over, its exit was fired, and the loop was not entered again since. -/
theorem Part.exists_leave {R : Piece α} {x : α} {n : Nat} {f f' : Tally} {ts : List (Transition α)}
    (hpart : Part (.loop s P x n) R) (hR : Placed lim R) (hlive : R.Live f)
    (hnot : ¬ (Piece.loop s P x n).Done f) (hpath : Tally.Path lim R.transitions f ts f') :
    R.Live f' ∧ ((Piece.loop s P x n).Done f' →
      ∃ us vs, ts = us ++ s.leave P x :: vs ∧ ∀ u ∈ vs, s.entry ∉ u.inputs) := by
  -- the invariant: a loop that is over was left by the last move that took its own tokens
  refine hpath.history
    (I := fun us g => R.Live g ∧ ((Piece.loop s P x n).Done g →
      ∃ us' vs, us = us' ++ s.leave P x :: vs ∧ ∀ u ∈ vs, s.entry ∉ u.inputs))
    ⟨hlive, fun hdone => absurd hdone hnot⟩ ?_
  rintro us g ⟨hlive, hbefore⟩ t ht ha
  refine ⟨hR.step_live hlive ht ha, ?_⟩
  intro hdone
  rcases hpart.leave_of_done hR hlive.staged ht ha hdone with hover | rfl
  · obtain ⟨us, vs, rfl, hvs⟩ := hbefore hover
    refine ⟨us, vs ++ [t], by simp, ?_⟩
    intro u hu
    rcases List.mem_append.mp hu with hu | hu
    · exact hvs u hu
    · obtain rfl : u = t := List.mem_singleton.mp hu
      intro hin
      exact not_pos_of_eq hover.1 (ha.1 _ hin)
  · exact ⟨us, [], rfl, fun _ hu => absurd hu List.not_mem_nil⟩

/-! ## What the state of a loop says about its body -/

section

variable {net : Net α} {m : Marking α} {x : α} {n : Nat}

theorem Placed.completed_of_winding (hP : Placed lim (.loop s P x n))
    (hbusy : (Piece.loop s P x n).Busy m.tally) (hexit : m.tokens s.exit = 0)
    (hwinding : (Piece.loop s P x n).Winding m.tally) :
    (Piece.loop s P x n).state net m = .completed := by
  have htells : (Piece.loop s P x n).Tells net m := hP.tells
  have hdone := htells.winding hbusy hwinding
  have hsettle : ∀ a, Status.settle net m (s.info .loop) a = a := fun _ =>
    Status.settle_of_empty hexit
  rw [state_loop, hsettle] at hdone ⊢
  split at hdone
  · rw [if_pos (by assumption)]
  · rw [Activity.done_activeIf] at hdone
    cases hdone

/-- A loop that is reported as done, with no token in its body, is over. -/
theorem Placed.done_of_reported (hP : Placed lim (.loop s P x n))
    (hstaged : (Piece.loop s P x n).Staged m.tally)
    (hdone : ((Piece.loop s P x n).state net m).done = true)
    (hempty : ∀ p ∈ P.ground, (m.tally p).1 = 0) : (Piece.loop s P x n).Done m.tally := by
  have htells : (Piece.loop s P x n).Tells net m := hP.tells
  rcases hstaged with hfresh | ⟨hbusy, _⟩ | hover
  · rw [htells.fresh hfresh] at hdone
    cases hdone
  · obtain ⟨p, hp, hmarked⟩ := hP.exists_marked hbusy
    rcases List.mem_cons.mp hp with rfl | hp
    · have hout : s.entry ∉ P.layout.tails := fun htails =>
        hP.entry_notMem_body (zone_subset_ground _ (tails_subset_zone P htails))
      rw [htells.active hbusy (not_winding List.mem_cons_self hmarked hout)] at hdone
      cases hdone
    · exact absurd (hempty p hp) hmarked.ne'
  · exact hover

end

end Piece

/-! ## Loops in a workflow -/

namespace Workflow

variable {α : Type} [Quantity α]

/-- What a report says of a loop that was not struck out, after the given transitions have fired. -/
structure LoopReport (w : Workflow α) (ts : List (Transition α)) (m : Marking α)
    (loop body : Layout) : Prop where
  /-- A token of the body outside its tails shows the loop as active. -/
  active : ∀ p ∈ body.places, 0 < m.tokens p → p ∉ body.tails →
    (w.status m).lookup loop.info.id = some .active
  /-- Tokens that rest in the tails only show it as completed, though it was not left. -/
  winding : ∀ p ∈ body.places, 0 < m.tokens p →
    (∀ q ∈ body.places, 0 < m.tokens q → q ∈ body.tails) →
    (w.status m).lookup loop.info.id = some .completed
  /-- When it is shown as completed and its body holds no token, the last that happened to it is
  that it was left through its exit transition. -/
  left : ∀ a, (w.status m).lookup loop.info.id = some a → a.done = true →
    (∀ p ∈ body.places, m.tokens p = 0) →
    ∃ us t vs, ts = us ++ t :: vs ∧ t.role = .loopExit ∧ t.regionId = loop.info.id ∧
      ∀ u ∈ vs, loop.info.entry ∉ u.inputs

variable {w : Workflow α} {P R : Piece α} {s : Site α} {x : α} {n : Nat} {m : Marking α}
  {ts : List (Transition α)}

theorem Consists.loopReport (h : w.Consists R) (hpart : Piece.Part (.loop s P x n) R)
    (hpath : Tally.Path w.net.limit w.net.transitions w.initial.tally ts m.tally)
    (hlookup : (w.status m).lookup s.head.id = some ((Piece.loop s P x n).state w.net m)) :
    w.LoopReport ts m (Piece.loop s P x n).layout P.layout := by
  have hP : Piece.Placed w.net.limit (.loop s P x n) := hpart.placed h.placed
  have hstaged := hpart.staged h.placed (h.alive_of_path hpath).1.staged
  have hplaces : ∀ {p}, p ∈ P.layout.places ↔ p ∈ P.ground := hP.body.mem_places
  have hzone : ∀ {p}, p ∈ P.layout.places → p ∈ (Piece.loop s P x n).zone := fun hp =>
    List.mem_cons_of_mem _ (hplaces.mp hp)
  constructor
  · intro p hp hmarked htails
    obtain ⟨hbusy, _⟩ := hP.busy_of_marked hstaged (hzone hp) hmarked
    have htells : (Piece.loop s P x n).Tells w.net m := hP.tells
    rw [← htells.active hbusy (Piece.not_winding (hzone hp) hmarked htails)]
    exact hlookup
  · intro p hp hmarked htails
    obtain ⟨hbusy, hexit⟩ := hP.busy_of_marked hstaged (hzone hp) hmarked
    have hwinding := Piece.winding_of_body hbusy (hplaces.mp hp) hmarked fun q hq =>
      htails q (hplaces.mpr hq)
    rw [← hP.completed_of_winding hbusy hexit hwinding]
    exact hlookup
  · intro a ha hdone hempty
    obtain rfl : (Piece.loop s P x n).state w.net m = a := Option.some.inj (hlookup.symm.trans ha)
    have hover := hP.done_of_reported hstaged hdone fun p hp => hempty p (hplaces.mpr hp)
    have hnot : ¬ (Piece.loop s P x n).Done w.initial.tally := by
      rintro ⟨hentry, _⟩
      rw [h.tally_initial] at hentry
      split at hentry <;> cases hentry
    rw [h.transitions] at hpath
    obtain ⟨us, vs, rfl, hvs⟩ :=
      (hpart.exists_leave h.placed h.alive_initial.1 hnot hpath).2 hover
    exact ⟨us, _, vs, rfl, rfl, rfl, hvs⟩

/-- A loop that is not struck out is reported as active as long as a token of its body rests
outside the tails of the body, and as completed when all of them rest in the tails. -/
theorem loop_state {r : Region α} (h : r.validate = .ok ()) :
    ∃ w, Workflow.compile r = .ok w ∧
      ∀ ts m, w.net.Run w.initial ts m → ∀ loop ∈ w.layout.subtrees, loop.info.kind = .loop →
        ∃ body, loop.children = [body] ∧
          ((w.status m).lookup loop.info.id ≠ some .willNotBeExecuted →
            w.LoopReport ts m loop body) := by
  obtain ⟨blk, n, -, hcompile, hproper, hnodup⟩ := Workflow.compile_of_validate h
  obtain ⟨R, rfl, hR⟩ := Workflow.exists_piece hproper
  refine ⟨_, hcompile, ?_⟩
  intro ts m hrun loop hloop hkind
  obtain ⟨-, hpath⟩ := hrun.path hR.plain hR.ordered_initial
  rw [← R.ids_layout] at hnodup
  rw [hR.layout] at hloop
  -- every region of the layout belongs to a part of the piece
  obtain ⟨Q, hQ, rfl⟩ := Piece.exists_part hloop
  have hlookup : ((Workflow.ofBlock R.block).status m).lookup Q.layout.info.id =
      some .willNotBeExecuted ∨ ((Workflow.ofBlock R.block).status m).lookup Q.layout.info.id =
      some (Q.state (Workflow.ofBlock R.block).net m) := by
    unfold Workflow.status
    rw [hR.layout]
    exact Status.lookup_report hnodup hloop
  cases Q with
  | loop s P x n =>
      exact ⟨P.layout, rfl, fun hnot => hR.loopReport hQ hpath (hlookup.resolve_left hnot)⟩
  | gateway s g bs => cases g <;> cases hkind
  | _ => cases hkind

/-- After branch `c` of the choice in the loop has run, the token rests in front of the merge, and
the loop is reported as completed. -/
theorem loop_state_sample : ∃ (w : Workflow Rat) (ts : List (Transition Rat)) (m : Marking Rat)
    (loop body : Layout), Workflow.compile Region.sample = .ok w ∧ w.net.Run w.initial ts m ∧
      loop.children = [body] ∧ w.LoopReport ts m loop body ∧ (∃ p ∈ body.places, 0 < m.tokens p) ∧
      (w.status m).lookup loop.info.id = some .completed := by
  obtain ⟨w, hcompile, hall⟩ := loop_state Region.sample_valid
  have hcheck : (match Workflow.compile Region.sample with
      | .ok w => (w.net.replay [0, 1, 2, 3, 4, 5, 6] w.initial).any fun m =>
          w.layout.subtrees.any fun l => l.info.kind = .loop &&
            (w.status m).lookup l.info.id = some .completed &&
            l.children.any fun b => b.places.any fun p => 0 < m.tokens p
      | .error _ => false) = true := by decide +kernel
  rw [hcompile] at hcheck
  obtain ⟨m, hm, hcheck⟩ := (Option.any_eq_true _ _).mp hcheck
  obtain ⟨ts, hrun⟩ := Net.exists_run_of_replay hm
  obtain ⟨loop, hloop, hcheck⟩ := List.any_eq_true.mp hcheck
  simp only [Bool.and_eq_true, decide_eq_true_eq, List.any_eq_true] at hcheck
  obtain ⟨⟨hkind, hcompleted⟩, body', hbody', p, hp, hmarked⟩ := hcheck
  obtain ⟨body, hchildren, hreport⟩ := hall ts m hrun loop hloop hkind
  rw [hchildren, List.mem_singleton] at hbody'
  subst hbody'
  refine ⟨w, ts, m, loop, body', hcompile, hrun, hchildren, hreport ?_, ⟨p, hp, hmarked⟩,
    hcompleted⟩
  rw [hcompleted]
  intro he
  exact by cases he

end Workflow

end RegionNet
