import RegionNet.Proofs.Assembly
import RegionNet.Proofs.Progress

/-!
# Soundness

The nets of valid process descriptions are sound: whatever has happened, the process can still end;
when it ends nothing is left behind; and no transition is there in vain.

The invariant behind it (`Consists.Alive`): the net of a compiled process is a single piece, which
is ready at first and live from then on, while the rest of the net stays untouched.
-/

namespace RegionNet

variable {α : Type} [Quantity α]

namespace Workflow.Consists

variable {w : Workflow α} {P : Piece α} {f : Tally} {m : Marking α} {t u : Transition α}
  {ts : List (Transition α)} {p : PlaceId}

/-! ## The invariant -/

theorem plain (h : w.Consists P) : w.net.Plain := by
  intro t ht
  rw [h.transitions] at ht
  exact ⟨(h.placed.within ht).preset, (h.placed.within ht).postset⟩

theorem nodup_places (h : w.Consists P) : (w.net.places.map Place.id).Nodup :=
  h.ordered.imp fun hlt he => Nat.ne_of_lt hlt (congrArg PlaceId.index he)

theorem nodup_ids (h : w.Consists P) : (w.net.transitions.map Transition.id).Nodup :=
  h.numbered.imp fun hlt he => Nat.ne_of_lt hlt (congrArg TransitionId.index he)

theorem transitions_nodup (h : w.Consists P) : w.net.transitions.Nodup :=
  h.nodup_ids.of_map _

theorem enabled_iff (h : w.Consists P) (ht : t ∈ w.net.transitions) :
    w.net.tokenEnabled t m = true ↔ m.tally.Admits w.net.limit t :=
  Net.tokenEnabled_iff (h.plain t ht).1

theorem eq_of_id (h : w.Consists P) (ht : t ∈ w.net.transitions) (hu : u ∈ w.net.transitions)
    (hid : t.id = u.id) : t = u :=
  List.inj_on_of_nodup_map h.nodup_ids ht hu hid

theorem transition?_eq (h : w.Consists P) (ht : t ∈ w.net.transitions) :
    w.net.transition? t.id = some t := by
  unfold Net.transition?
  cases hfound : w.net.transitions.find? (fun u => decide (u.id = t.id)) with
  | none =>
      have hnot := List.find?_eq_none.mp hfound t ht
      simp at hnot
  | some u =>
      have hid : u.id = t.id := by simpa using List.find?_some hfound
      rw [h.eq_of_id (List.mem_of_find?_eq_some hfound) ht hid]

theorem filterMap_transition? (h : w.Consists P) (hts : ∀ t ∈ ts, t ∈ w.net.transitions) :
    (ts.map Transition.id).filterMap w.net.transition? = ts := by
  induction ts with
  | nil => rfl
  | cons t ts ih =>
      obtain ⟨ht, hts⟩ := List.forall_mem_cons.mp hts
      rw [List.map_cons, List.filterMap_cons_some (h.transition?_eq ht), ih hts]

theorem ordered_initial (h : w.Consists P) : w.initial.Ordered := by
  rw [h.initial]
  exact .withToken h.ordered _

theorem tally_initial (h : w.Consists P) (p : PlaceId) :
    w.initial.tally p = if p = P.entry then (1, 0) else (0, 0) := by
  rw [h.initial]
  exact Marking.tally_withToken h.ordered _ p

theorem ready (h : w.Consists P) : P.Ready w.initial.tally := by
  refine ⟨?_, fun p _ hne => ?_⟩
  · rw [h.tally_initial, if_pos rfl]
  · rw [h.tally_initial, if_neg hne]

theorem tally_initial_exit (h : w.Consists P) : w.initial.tally P.exit = (0, 0) := by
  rw [h.tally_initial, if_neg h.placed.entry_ne_exit.symm]

/-- The piece is live, and nothing has happened elsewhere. -/
def Alive (P : Piece α) (f : Tally) : Prop := P.Live f ∧ ∀ p ∉ P.ground, f p = (0, 0)

theorem alive_initial (h : w.Consists P) : Alive P w.initial.tally := by
  refine ⟨Or.inl ⟨h.placed.busy_of_ready h.ready, h.tally_initial_exit⟩, ?_⟩
  intro p hp
  rw [h.tally_initial, if_neg]
  rintro rfl
  exact hp h.placed.entry_mem_ground

theorem alive_path {g : Tally} (h : w.Consists P) (halive : Alive P f)
    (hpath : Tally.Path w.net.limit w.net.transitions f ts g) : Alive P g := by
  rw [h.transitions] at hpath
  apply hpath.invariant halive
  intro g hg t ht ha
  obtain ⟨hlive, helse⟩ := hg
  refine ⟨h.placed.step_live hlive ht ha, ?_⟩
  intro p hp
  rw [h.placed.fire_elsewhere ht hp, helse p hp]

theorem alive_of_path (h : w.Consists P)
    (hpath : Tally.Path w.net.limit w.net.transitions w.initial.tally ts f) : Alive P f :=
  h.alive_path h.alive_initial hpath

/-! ## The end -/

theorem isFinal_iff (h : w.Consists P) :
    w.isFinal m = true ↔ ∀ p, (m.tally p).1 = if p = P.exit then 1 else 0 := by
  rw [isFinal, Marking.sameTokens_iff]
  apply forall_congr'
  intro p
  have hfinal : w.final.tokens p = if p = P.exit then 1 else 0 := by
    have htally := congrArg Prod.fst (Marking.tally_withToken h.ordered P.exit p)
    rw [apply_ite Prod.fst] at htally
    rw [h.final]
    exact htally
  rw [hfinal]
  rfl

/-- A piece that is over holds its last token on its exit and no other one. -/
theorem isFinal_of_done (h : w.Consists P) (hdone : P.Done m.tally)
    (hexit : m.tally P.exit = (1, 0)) (helse : ∀ p ∉ P.ground, m.tally p = (0, 0)) :
    w.isFinal m = true := by
  apply h.isFinal_iff.mpr
  intro p
  by_cases hp : p = P.exit
  · rw [if_pos hp, hp, hexit]
  · rw [if_neg hp]
    by_cases hground : p ∈ P.ground
    · exact h.placed.idle_of_done hdone p ((Piece.mem_ground.mp hground).resolve_right hp)
    · rw [helse p hground]

theorem isFinal_of_exit (h : w.Consists P) (halive : Alive P m.tally)
    (hexit : 0 < (m.tally P.exit).1) : w.isFinal m = true := by
  obtain ⟨⟨_, hempty⟩ | ⟨hdone, hone⟩, helse⟩ := halive
  · exact absurd hexit (Piece.not_pos_of_eq hempty)
  · exact h.isFinal_of_done hdone hone helse

/-- A live process is either under way or final. -/
theorem busy_or_final (h : w.Consists P) (halive : Alive P m.tally) :
    P.Busy m.tally ∧ w.isFinal m = false ∨ P.Done m.tally ∧ w.isFinal m = true := by
  obtain ⟨⟨hbusy, hempty⟩ | ⟨hdone, hone⟩, helse⟩ := halive
  · refine Or.inl ⟨hbusy, ?_⟩
    by_contra hfinal
    have htoken := h.isFinal_iff.mp (by simpa using hfinal) P.exit
    rw [if_pos rfl, hempty] at htoken
    cases htoken
  · exact Or.inr ⟨hdone, h.isFinal_of_done hdone hone helse⟩

/-- From wherever the process has come, its end can be reached. -/
theorem exists_run_isFinal (h : w.Consists P) (hm : m.Ordered) (halive : Alive P m.tally) :
    ∃ us m', w.net.Run m us m' ∧ w.isFinal m' = true := by
  obtain ⟨⟨hbusy, hexit⟩ | ⟨hdone, hexit⟩, helse⟩ := halive
  · obtain ⟨us, f, hpath, hdone, hexit'⟩ := h.placed.exists_finish hbusy
    have hpath' := hpath
    rw [← h.transitions] at hpath
    obtain ⟨m', hrun, rfl⟩ := Net.exists_run h.plain hpath hm rfl
    rw [hexit] at hexit'
    refine ⟨us, m', hrun, h.isFinal_of_done hdone hexit' ?_⟩
    intro p hp
    rw [h.placed.path_elsewhere hpath' hp, helse p hp]
  · exact ⟨[], m, .nil m, h.isFinal_of_done hdone hexit helse⟩

end Workflow.Consists

/-! ## Soundness -/

/-- What is asked of a workflow's net, from its initial marking on. -/
structure Workflow.Sound (w : Workflow α) : Prop where
  /-- Whatever has happened, the process can still end. -/
  completes : ∀ ts m, w.net.Run w.initial ts m →
    ∃ us m', w.net.Run m us m' ∧ w.isFinal m' = true
  /-- A token where the root region ends is the only one. -/
  clean : ∀ ts m, w.net.Run w.initial ts m → 0 < m.tokens w.layout.info.exit →
    w.isFinal m = true ∧ ∀ p ≠ w.layout.info.exit, m.tokens p = 0
  /-- Each transition can fire some time. -/
  fires : ∀ t ∈ w.net.transitions,
    ∃ ts m, w.net.Run w.initial ts m ∧ w.net.tokenEnabled t m = true

/-- The net of every valid description is sound. -/
theorem Workflow.sound_of_validate {r : Region α} (h : r.validate = .ok ()) :
    ∃ w, Workflow.compile r = .ok w ∧ w.Sound := by
  obtain ⟨blk, n, -, hcompile, hproper, -⟩ := Workflow.compile_of_validate h
  obtain ⟨P, -, hP⟩ := Workflow.exists_piece hproper
  have hroot : (Workflow.ofBlock blk).layout.info.exit = P.exit := by
    rw [hP.layout, P.info_layout_exit]
  refine ⟨_, hcompile, ?_, ?_, ?_⟩
  · intro ts m hrun
    obtain ⟨hm, hpath⟩ := hrun.path hP.plain hP.ordered_initial
    exact hP.exists_run_isFinal hm (hP.alive_of_path hpath)
  · intro ts m hrun hexit
    obtain ⟨hm, hpath⟩ := hrun.path hP.plain hP.ordered_initial
    rw [hroot] at hexit ⊢
    have hfinal := hP.isFinal_of_exit (hP.alive_of_path hpath) hexit
    exact ⟨hfinal, fun p hp => (hP.isFinal_iff.mp hfinal p).trans (if_neg hp)⟩
  · intro t ht
    obtain ⟨ts, f, hpath, ha⟩ :=
      hP.placed.exists_turn hP.ready hP.tally_initial_exit (hP.transitions ▸ ht)
    rw [← hP.transitions] at hpath
    obtain ⟨m, hrun, rfl⟩ := Net.exists_run hP.plain hpath hP.ordered_initial rfl
    exact ⟨ts, m, hrun, (Net.tokenEnabled_iff (hP.plain t ht).1).mpr ha⟩

theorem Workflow.sound_sample : ∃ w, Workflow.compile Region.sample = .ok w ∧ w.Sound :=
  Workflow.sound_of_validate Region.sample_valid

end RegionNet
