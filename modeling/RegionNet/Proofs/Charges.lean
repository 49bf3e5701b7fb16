import RegionNet.Proofs.Index
import RegionNet.Proofs.Reset

/-!
# What places charge

What resting on a place costs comes from the regions that start there, and no region's costs get
lost or count twice (`Workflow.charged_of_validate`). Regions that start at one place lie one in
another: the longer one starts earlier in document order, so the last one to write its name on the
place is the innermost (`Piece.Placed.pairwise_starts`). Regions end after the regions in them, so
the last one to write its name on the place where they end is the outermost
(`Piece.Placed.pairwise_ends`).
-/

namespace RegionNet

variable {α : Type}

theorem foldl_some_eq {β γ : Type} (f : β → γ) (xs : List β) :
    xs.foldl (fun _ x => some (f x)) none = xs.getLast?.map f := by
  induction xs using List.reverseRecOn with
  | nil => rfl
  | append_singleton xs x _ => simp

/-- In a list in which everything relates to what comes later, everything relates to the last. -/
theorem rel_getLast?_of_pairwise {β : Type} {R : β → β → Prop} (hrefl : ∀ x, R x x) {xs : List β}
    (h : xs.Pairwise R) {x : β} (hx : xs.getLast? = some x) : ∀ y ∈ xs, R y x := by
  obtain ⟨ys, rfl⟩ := List.getLast?_eq_some_iff.mp hx
  intro y hy
  rcases List.mem_append.mp hy with hy | hy
  · exact (List.pairwise_append.mp h).2.2 y hy x (List.mem_singleton_self x)
  · exact List.mem_singleton.mp hy ▸ hrefl x

namespace Change

/-- The region that starts. -/
def start? : Change α → Option (Head α)
  | start h => some h
  | _ => none

/-- The region that ends. -/
def finish? : Change α → Option (Head α)
  | finish h => some h
  | _ => none

/-- The impacts of the task that starts. -/
def work? : Change α → Option (List α)
  | work v => some v
  | _ => none

end Change

namespace Piece

variable {lim : PlaceId → Option Nat} {P Q Q' R : Piece α} {p : PlaceId} {s s' : Site α}
  {v v' : List α}

/-! ## The order of changes -/

mutual

/-- The piece and all pieces in it, the piece last. -/
def postorder : Piece α → List (Piece α)
  | .task s v => [.task s v]
  | .sequential s one two => one.postorder ++ two.postorder ++ [.sequential s one two]
  | .parallel s bs => postorders bs ++ [.parallel s bs]
  | .gateway s g bs => postorders bs ++ [.gateway s g bs]
  | .loop s body x n => body.postorder ++ [.loop s body x n]

def postorders : List (Piece α) → List (Piece α)
  | [] => []
  | b :: bs => b.postorder ++ postorders bs

end

theorem postorders_eq_flatMap (bs : List (Piece α)) : postorders bs = bs.flatMap postorder := by
  induction bs with
  | nil => rfl
  | cons b bs ih => rw [postorders, ih, List.flatMap_cons]

theorem postorder_eq (P : Piece α) : P.postorder = P.parts.flatMap postorder ++ [P] := by
  cases P with
  | task s v => rfl
  | sequential s P Q => simp [postorder, parts]
  | parallel s bs => exact congrArg (· ++ _) (postorders_eq_flatMap bs)
  | gateway s g bs => exact congrArg (· ++ _) (postorders_eq_flatMap bs)
  | loop s body x n => simp [postorder, parts]

theorem mem_postorder : Q ∈ P.postorder ↔ Part Q P := by
  rw [← mem_preorder]
  induction P using Piece.parts_induct with
  | step P ih =>
      rw [postorder_eq, preorder_eq, List.mem_append, List.mem_singleton, List.mem_cons, or_comm,
        List.mem_flatMap, List.mem_flatMap]
      exact or_congr_right (exists_congr fun P' => and_congr_right (ih P'))

/-- The impacts of a task. -/
def impacts? : Piece α → Option (List α)
  | .task _ v => some v
  | _ => none

/-- The changes that are made before those of the parts. -/
def opening (P : Piece α) : List (PlaceId × Change α) :=
  (P.entry, .start P.site.head) :: (P.impacts?.toList.map fun v => (P.entry, .work v))

/-- The changes that are made after those of the parts. -/
def closing : Piece α → List (PlaceId × Change α)
  | .loop s body _ n => [(body.exit, .bound n), (s.exit, .finish s.head)]
  | P => [(P.exit, .finish P.site.head)]

theorem changes_eq (P : Piece α) :
    P.changes = P.opening ++ P.parts.flatMap changes ++ P.closing := by
  cases P with
  | task s v => rfl
  | sequential s P Q => simp [changes, parts, opening, closing, impacts?, entry, exit, site]
  | parallel s bs =>
      simp [changes, changesAll_eq_flatMap, parts, opening, closing, impacts?, entry, exit, site]
  | gateway s g bs =>
      simp [changes, changesAll_eq_flatMap, parts, opening, closing, impacts?, entry, exit, site]
  | loop s body x n => simp [changes, parts, opening, closing, impacts?, entry, site]

theorem notes_changes {γ : Type} (note : Change α → Option γ) (p : PlaceId) (P : Piece α) :
    Change.notes note p P.changes = Change.notes note p P.opening ++
      (P.parts.flatMap fun b => Change.notes note p b.changes) ++
        Change.notes note p P.closing := by
  rw [changes_eq, Change.notes_append, Change.notes_append]
  exact congrArg (_ ++ · ++ _) List.filterMap_flatMap

theorem notes_flatMap {γ : Type} {note : Change α → Option γ} {p : PlaceId} {P : Piece α}
    {f : Piece α → List γ} {xs ys : List γ} (hopening : Change.notes note p P.opening = xs)
    (hclosing : Change.notes note p P.closing = ys)
    (ih : ∀ b ∈ P.parts, Change.notes note p b.changes = f b) :
    Change.notes note p P.changes = xs ++ P.parts.flatMap f ++ ys := by
  rw [notes_changes, hopening, hclosing, List.flatMap_congr ih]

/-- Regions start in document order. -/
theorem notes_start (p : PlaceId) (P : Piece α) : Change.notes Change.start? p P.changes =
    (P.preorder.filter (·.entry = p)).map fun Q => Q.site.head := by
  induction P using Piece.parts_induct with
  | step P ih =>
      have hopening : Change.notes Change.start? p P.opening =
          if P.entry = p then [P.site.head] else [] := by
        cases hi : P.impacts? <;> simp [opening, hi, Change.notes_cons, Change.start?]
      have hclosing : Change.notes Change.start? p P.closing = [] := by
        cases P <;> simp [closing, Change.notes_cons, Change.start?]
      rw [notes_flatMap hopening hclosing ih, List.append_nil, preorder_eq, List.filter_cons,
        List.filter_flatMap]
      by_cases hp : P.entry = p <;> simp [hp, List.map_flatMap]

/-- Regions end after the regions in them. -/
theorem notes_finish (p : PlaceId) (P : Piece α) : Change.notes Change.finish? p P.changes =
    (P.postorder.filter (·.exit = p)).map fun Q => Q.site.head := by
  induction P using Piece.parts_induct with
  | step P ih =>
      have hopening : Change.notes Change.finish? p P.opening = [] := by
        cases hi : P.impacts? <;> simp [opening, hi, Change.notes_cons, Change.finish?]
      have hclosing : Change.notes Change.finish? p P.closing =
          if P.exit = p then [P.site.head] else [] := by
        cases P <;> simp [closing, Change.notes_cons, Change.finish?, exit, site] <;> rfl
      rw [notes_flatMap hopening hclosing ih, List.nil_append, postorder_eq, List.filter_append,
        List.filter_flatMap, List.map_append, List.map_flatMap]
      by_cases hp : P.exit = p <;> simp [hp]

/-- Tasks say what they cost where they start. -/
theorem notes_work (p : PlaceId) (P : Piece α) : Change.notes Change.work? p P.changes =
    (P.preorder.filter (·.entry = p)).filterMap impacts? := by
  induction P using Piece.parts_induct with
  | step P ih =>
      have hopening : Change.notes Change.work? p P.opening =
          if P.entry = p then P.impacts?.toList else [] := by
        cases hi : P.impacts? <;> simp [opening, hi, Change.notes_cons, Change.work?]
      have hclosing : Change.notes Change.work? p P.closing = [] := by
        cases P <;> simp [closing, Change.notes_cons, Change.work?]
      rw [notes_flatMap hopening hclosing ih, List.append_nil, preorder_eq, List.filter_cons,
        List.filter_flatMap]
      by_cases hp : P.entry = p <;> cases hi : P.impacts? <;>
        simp [hp, hi, List.filterMap_flatMap]

/-! ## Regions that share a place -/

/-- The parts right below a piece share no place of their zones. -/
theorem Placed.disjoint_zones (hP : Placed lim P) :
    P.parts.Pairwise fun b c => b.zone.Disjoint c.zone := by
  have hbranches : ∀ {bs : List (Piece α)}, (zones bs).Nodup →
      bs.Pairwise fun b c => b.zone.Disjoint c.zone := by
    intro bs hnodup
    rw [zones_eq_flatMap, List.nodup_flatMap] at hnodup
    exact hnodup.2.imp fun hdisjoint p hb hc =>
      hdisjoint (zone_subset_ground _ hb) (zone_subset_ground _ hc)
  cases P with
  | task s v => exact .nil
  | sequential s P Q =>
      refine List.pairwise_pair.mpr fun p hp hq => ?_
      exact hP.notMem_snd_ground hp (zone_subset_ground _ hq)
  | parallel s bs => exact hbranches hP.parallel.zones_nodup
  | gateway s g bs => exact hbranches hP.gateway.zones_nodup
  | loop s body x n => exact List.pairwise_singleton _ _

/-- Of the regions that start at a place, the later ones in document order lie in the earlier
ones. -/
theorem Placed.pairwise_starts (hP : Placed lim P) (p : PlaceId) :
    (P.preorder.filter (·.entry = p)).Pairwise fun Q Q' => Part Q' Q := by
  induction P using Piece.parts_induct with
  | step P ih =>
      have hzone : ∀ {b Q}, b ∈ P.parts → Q ∈ b.preorder.filter (·.entry = p) → p ∈ b.zone := by
        intro b Q hb hQ
        obtain ⟨hQ, he⟩ := List.mem_filter.mp hQ
        have hpart := mem_preorder.mp hQ
        have hplaced := hpart.placed ((Part.of_parts hb .self).placed hP)
        exact of_decide_eq_true he ▸ hpart.zone_subset hplaced.entry_mem_zone
      have hbelow : (P.parts.flatMap fun b => b.preorder.filter (·.entry = p)).Pairwise
          fun Q Q' => Part Q' Q := by
        refine List.pairwise_flatMap.mpr ⟨fun b hb => ?_, hP.disjoint_zones.imp_of_mem ?_⟩
        · exact ih b hb ((Part.of_parts hb .self).placed hP)
        · intro b c hb hc hdisjoint Q hQ Q' hQ'
          exact absurd (hzone hc hQ') (hdisjoint (hzone hb hQ))
      rw [preorder_eq, List.filter_cons, List.filter_flatMap]
      split
      · refine List.pairwise_cons.mpr ⟨fun Q hQ => ?_, hbelow⟩
        obtain ⟨b, hb, hQ⟩ := List.mem_flatMap.mp hQ
        exact .of_parts hb (mem_preorder.mp (List.mem_filter.mp hQ).1)
      · exact hbelow

/-- No region in a piece ends where the piece starts. -/
theorem Part.exit_ne_entry (h : Part Q P) (hP : Placed lim P) : Q.exit ≠ P.entry := by
  induction h with
  | self => exact hP.entry_ne_exit.symm
  | @first s P P' h ih =>
      rw [show (Piece.sequential s P P').entry = P.entry from hP.fst_entry.symm]
      exact ih hP.fst
  | @second s P P' h ih =>
      have hground := h.ground_subset hP.snd (exit_mem_ground Q)
      rw [show (Piece.sequential s P P').entry = P.entry from hP.fst_entry.symm]
      exact fun he => hP.notMem_fst_zone hground (he ▸ hP.fst.entry_mem_zone)
  | branch hb h ih =>
      exact hP.parallel.ne_entry hb
        (h.ground_subset (hP.parallel.branch hb) (exit_mem_ground Q))
  | arm hb h ih =>
      exact hP.gateway.ne_entry hb (h.ground_subset (hP.gateway.branch hb) (exit_mem_ground Q))
  | body h ih => exact hP.ne_entry_of_body (h.ground_subset hP.body (exit_mem_ground Q))

/-- Regions in different parts right below a piece do not end at one place. -/
theorem Placed.pairwise_exit_ne (hP : Placed lim P) :
    P.parts.Pairwise fun b c => ∀ Q Q', Part Q b → Part Q' c → Q.exit ≠ Q'.exit := by
  have hbranches : ∀ {bs : List (Piece α)}, (zones bs).Nodup → (∀ b ∈ bs, Placed lim b) →
      bs.Pairwise fun b c => ∀ Q Q', Part Q b → Part Q' c → Q.exit ≠ Q'.exit := by
    intro bs hnodup hbs
    rw [zones_eq_flatMap, List.nodup_flatMap] at hnodup
    refine hnodup.2.imp_of_mem fun {b c} hb hc hdisjoint Q Q' hQ hQ' he => ?_
    exact hdisjoint (hQ.ground_subset (hbs b hb) (exit_mem_ground Q))
      (he ▸ hQ'.ground_subset (hbs c hc) (exit_mem_ground Q'))
  cases P with
  | task s v => exact .nil
  | sequential s P Q =>
      refine List.pairwise_pair.mpr fun R R' hR hR' he => ?_
      -- the place where the two parts meet is where the second one starts
      have hground := hR'.ground_subset hP.snd (exit_mem_ground R')
      exact hP.notMem_fst_ground hground (hR'.exit_ne_entry hP.snd)
        (he ▸ hR.ground_subset hP.fst (exit_mem_ground R))
  | parallel s bs => exact hbranches hP.parallel.zones_nodup fun b => hP.parallel.branch
  | gateway s g bs => exact hbranches hP.gateway.zones_nodup fun b => hP.gateway.branch
  | loop s body x n => exact List.pairwise_singleton _ _

/-- Of the regions that end at a place, the earlier ones lie in the later ones, where every region
comes after those in it. -/
theorem Placed.pairwise_ends (hP : Placed lim P) (p : PlaceId) :
    (P.postorder.filter (·.exit = p)).Pairwise fun Q Q' => Part Q Q' := by
  induction P using Piece.parts_induct with
  | step P ih =>
      have hends : ∀ {b Q : Piece α}, Q ∈ b.postorder.filter (·.exit = p) →
          Part Q b ∧ Q.exit = p := by
        intro b Q hQ
        obtain ⟨hQ, he⟩ := List.mem_filter.mp hQ
        exact ⟨mem_postorder.mp hQ, of_decide_eq_true he⟩
      rw [postorder_eq, List.filter_append, List.filter_flatMap]
      refine List.pairwise_append.mpr ⟨List.pairwise_flatMap.mpr ⟨fun b hb => ?_, ?_⟩, ?_, ?_⟩
      · exact ih b hb ((Part.of_parts hb .self).placed hP)
      · refine hP.pairwise_exit_ne.imp fun hne Q hQ Q' hQ' => ?_
        obtain ⟨hQ, he⟩ := hends hQ
        obtain ⟨hQ', he'⟩ := hends hQ'
        exact absurd (he.trans he'.symm) (hne Q Q' hQ hQ')
      · exact (List.pairwise_singleton _ _).sublist List.filter_sublist
      · intro Q hQ Q' hQ'
        obtain ⟨b, hb, hQ⟩ := List.mem_flatMap.mp hQ
        rw [List.mem_singleton.mp (List.mem_filter.mp hQ').1]
        exact .of_parts hb (hends hQ).1

/-- Two tasks do not start at one place. -/
theorem Part.eq_of_tasks (h : Part (.task s v) R) (h' : Part (.task s' v') R) (hR : Placed lim R)
    (he : s.entry = s'.entry) : Piece.task s v = .task s' v' := by
  have hmem : ∀ {Q : Piece α}, Part Q R → Q.entry = s'.entry →
      Q ∈ R.preorder.filter (·.entry = s'.entry) := fun hQ hp =>
    List.mem_filter.mpr ⟨mem_preorder.mpr hQ, decide_eq_true hp⟩
  -- of two regions that start there, one lies in the other
  have : Std.Symm fun Q Q' : Piece α => Part Q' Q ∨ Part Q Q' := ⟨fun _ _ => Or.symm⟩
  have hnested : (R.preorder.filter (·.entry = s'.entry)).Pairwise
      fun Q Q' => Part Q' Q ∨ Part Q Q' := (hR.pairwise_starts s'.entry).imp Or.inl
  have hself : ∀ Q ∈ R.preorder.filter (·.entry = s'.entry), Part Q Q ∨ Part Q Q :=
    fun _ _ => Or.inl .self
  rcases List.Pairwise.forall_of_forall hself hnested (hmem h he) (hmem h' rfl) with hpart | hpart
  · cases hpart
    rfl
  · cases hpart
    rfl

end Piece

/-! ## Regions that start or end at a place -/

variable [Quantity α]

namespace Region.Becomes

variable {r c : Region α} {R Q : Piece α} {s : Site α} {v : List α}

theorem head_eq (h : r.Becomes R c Q) : Q.site.head = c.head := by
  rw [← Q.head_block]
  exact head_of_block h.block

theorem impacts_eq (h : r.Becomes R c (.task s v)) : c.impacts = some v := by
  obtain ⟨bs, shape, -, hshape, he⟩ := shape_of_block h.block
  cases shape with
  | task v' =>
      obtain ⟨-, rfl⟩ : s.head = c.head ∧ v = v' := Block.task.inj he
      have hkind : c.kind = .task := h.kind_eq
      simp only [shapeOver, hkind] at hshape
      obtain ⟨v', hv', he⟩ := Option.map_eq_some_iff.mp hshape
      cases he
      exact hv'
  | _ => cases he

theorem eq_task (h : r.Becomes R c Q) (hkind : c.kind = .task) : ∃ s v, Q = .task s v := by
  rw [h.kind_eq] at hkind
  cases Q with
  | task s v => exact ⟨s, v, rfl⟩
  | gateway s g bs => cases g <;> cases hkind
  | _ => cases hkind

end Region.Becomes

namespace Workflow

/-- What the regions of a description charge on a place. -/
structure Charges (w : Workflow α) (r : Region α) (q : Place α) : Prop where
  /-- The durations of the regions that start here are added up in document order. -/
  duration : q.duration =
    ((r.preorder.filter fun c => w.HasEntry c q.id).map Region.duration).foldl (· + ·) 0
  /-- The impacts are those of the one task that starts here. -/
  impacts : (∃ c ∈ r.preorder, c.kind = .task ∧ w.HasEntry c q.id ∧
      (∃ v, c.impacts = some v ∧ q.impacts = some v) ∧
      ∀ d ∈ r.preorder, d.kind = .task → w.HasEntry d q.id → d = c) ∨
    q.impacts = none ∧ ∀ c ∈ r.preorder, c.kind = .task → ¬ w.HasEntry c q.id
  /-- The name on the entry is that of the innermost region that starts here, ... -/
  entryOf : (∃ c ∈ r.preorder, w.HasEntry c q.id ∧ q.entryOf = some c.id ∧
      ∀ d ∈ r.preorder, w.HasEntry d q.id → c ∈ d.preorder) ∨
    q.entryOf = none ∧ ∀ c ∈ r.preorder, ¬ w.HasEntry c q.id
  /-- ... and the name on the exit that of the outermost region that ends here. -/
  exitOf : (∃ c ∈ r.preorder, w.HasExit c q.id ∧ q.exitOf = some c.id ∧
      ∀ d ∈ r.preorder, w.HasExit d q.id → d ∈ c.preorder) ∨
    q.exitOf = none ∧ ∀ c ∈ r.preorder, ¬ w.HasExit c q.id
  /-- The limit is the bound of the loop whose body ends here. -/
  limited : (∃ n, q.visitLimit = some n) ↔
    ∃ c ∈ r.preorder, c.kind = .loop ∧ ∃ body ∈ c.branches, w.HasExit body q.id
  visitLimit : ∀ c ∈ r.preorder, c.kind = .loop → ∀ body ∈ c.branches, w.HasExit body q.id →
    q.visitLimit = c.loopBound

/-- Every region charges one place, and every place is charged by the regions that start and end
there. -/
structure Charged (w : Workflow α) (r : Region α) : Prop where
  entry : ∀ c ∈ r.preorder, ∃! q, q ∈ w.net.places ∧ w.HasEntry c q.id
  place : ∀ q ∈ w.net.places, w.Charges r q

namespace Recorded

open Change

variable {w : Workflow α} {R : Piece α} {q : Place α}

theorem duration (h : w.Recorded R) (hq : q ∈ w.net.places) : q.duration =
    ((R.preorder.filter (·.entry = q.id)).map fun Q => Q.site.head.duration).foldl (· + ·) 0 := by
  have hfield := field_replay start? Place.duration (fun d h => d + h.duration)
    (fun c _ => by cases c <;> rfl) R.changes (Builder.bare q.id)
  rw [← h.replayed q hq, Piece.notes_start, List.foldl_map] at hfield
  rw [hfield, List.foldl_map]
  rfl

theorem impacts (h : w.Recorded R) (hq : q ∈ w.net.places) : q.impacts =
    ((R.preorder.filter (·.entry = q.id)).filterMap Piece.impacts?).getLast? := by
  have hfield := field_replay work? Place.impacts (fun _ v => some v)
    (fun c _ => by cases c <;> rfl) R.changes (Builder.bare q.id)
  rw [← h.replayed q hq, Piece.notes_work] at hfield
  exact hfield.trans ((foldl_some_eq id _).trans (congrFun Option.map_id _))

theorem entryOf (h : w.Recorded R) (hq : q ∈ w.net.places) : q.entryOf =
    (R.preorder.filter (·.entry = q.id)).getLast?.map fun Q => Q.site.head.id := by
  have hfield := field_replay start? Place.entryOf (fun _ h => some h.id)
    (fun c _ => by cases c <;> rfl) R.changes (Builder.bare q.id)
  rw [← h.replayed q hq, Piece.notes_start, List.foldl_map] at hfield
  exact hfield.trans (foldl_some_eq (fun Q : Piece α => Q.site.head.id) _)

theorem exitOf (h : w.Recorded R) (hq : q ∈ w.net.places) : q.exitOf =
    (R.postorder.filter (·.exit = q.id)).getLast?.map fun Q => Q.site.head.id := by
  have hfield := field_replay finish? Place.exitOf (fun _ h => some h.id)
    (fun c _ => by cases c <;> rfl) R.changes (Builder.bare q.id)
  rw [← h.replayed q hq, Piece.notes_finish, List.foldl_map] at hfield
  exact hfield.trans (foldl_some_eq (fun Q : Piece α => Q.site.head.id) _)

end Recorded

namespace Consists

open Piece

variable {w : Workflow α} {r c : Region α} {R P Q : Piece α} {q : Place α} {p : PlaceId}

/-- The regions that start at a place become the pieces that do. -/
theorem forall₂_starting (h : w.Consists R) (hr : r.Yields R) (p : PlaceId) :
    List.Forall₂ (r.Becomes R) (r.preorder.filter fun c => w.HasEntry c p)
      (R.preorder.filter (·.entry = p)) := by
  have hself : r.Becomes R r R := ⟨r.mem_preorder_self, .self, hr.block⟩
  refine List.rel_filter (fun c Q hc => ?_) (hself.forall₂_preorder hr)
  show decide (w.HasEntry c p) = true ↔ decide (Q.entry = p) = true
  rw [decide_eq_true_iff, decide_eq_true_iff, h.hasEntry_iff hr hc]

theorem mem_starting (h : w.Consists R) (hr : r.Yields R) (hc : r.Becomes R c Q) :
    Q ∈ R.preorder.filter (·.entry = p) ↔ w.HasEntry c p := by
  rw [List.mem_filter, mem_preorder, decide_eq_true_iff, h.hasEntry_iff hr hc]
  exact and_iff_right hc.part

theorem mem_ending (h : w.Consists R) (hr : r.Yields R) (hc : r.Becomes R c Q) :
    Q ∈ R.postorder.filter (·.exit = p) ↔ w.HasExit c p := by
  rw [List.mem_filter, mem_postorder, decide_eq_true_iff, h.hasExit_iff hr hc]
  exact and_iff_right hc.part

theorem duration_eq (h : w.Consists R) (hrecorded : w.Recorded R) (hr : r.Yields R)
    (hq : q ∈ w.net.places) : q.duration =
      ((r.preorder.filter fun c => w.HasEntry c q.id).map Region.duration).foldl (· + ·) 0 := by
  rw [hrecorded.duration hq]
  have hall := (h.forall₂_starting hr q.id).imp fun c Q hc =>
    (congrArg Head.duration hc.head_eq).symm
  have hmaps := List.forall₂_map_left_iff.mpr (List.forall₂_map_right_iff.mpr hall)
  rw [List.forall₂_eq_eq_eq] at hmaps
  exact congrArg (fun ds : List α => ds.foldl (· + ·) 0) hmaps.symm

/-- At most one of the regions that start at a place is a task. -/
theorem impacts_cases (h : w.Consists R) (hrecorded : w.Recorded R) (hr : r.Yields R)
    (hq : q ∈ w.net.places) :
    (∃ c ∈ r.preorder, c.kind = .task ∧ w.HasEntry c q.id ∧
        (∃ v, c.impacts = some v ∧ q.impacts = some v) ∧
        ∀ d ∈ r.preorder, d.kind = .task → w.HasEntry d q.id → d = c) ∨
      q.impacts = none ∧ ∀ c ∈ r.preorder, c.kind = .task → ¬ w.HasEntry c q.id := by
  rw [hrecorded.impacts hq]
  cases hlast : ((R.preorder.filter (·.entry = q.id)).filterMap impacts?).getLast? with
  | none =>
      refine Or.inr ⟨rfl, fun c hc hkind hentry => ?_⟩
      obtain ⟨Q, hQ⟩ := hr.exists_part hc
      obtain ⟨s, v, rfl⟩ := hQ.eq_task hkind
      have hmem : v ∈ (R.preorder.filter (·.entry = q.id)).filterMap impacts? :=
        List.mem_filterMap.mpr ⟨_, (h.mem_starting hr hQ).mpr hentry, rfl⟩
      rw [List.getLast?_eq_none_iff.mp hlast] at hmem
      cases hmem
  | some v =>
      obtain ⟨Q, hQ, hv⟩ := List.mem_filterMap.mp (List.mem_of_getLast? hlast)
      obtain ⟨s, rfl⟩ : ∃ s, Q = .task s v := by
        cases Q with
        | task s v' => exact ⟨s, by rw [Option.some.inj hv]⟩
        | _ => cases hv
      obtain ⟨c, hc⟩ := hr.exists_region (mem_preorder.mp (List.mem_filter.mp hQ).1)
      have hentry := (h.mem_starting hr hc).mp hQ
      refine Or.inl ⟨c, hc.mem, hc.kind_eq, hentry, ⟨v, hc.impacts_eq, rfl⟩,
        fun d hd hkind hentry' => ?_⟩
      obtain ⟨Q', hQ'⟩ := hr.exists_part hd
      obtain ⟨s', v', rfl⟩ := hQ'.eq_task hkind
      have hsame : s'.entry = s.entry :=
        ((h.hasEntry_iff hr hQ').mp hentry').trans ((h.hasEntry_iff hr hc).mp hentry).symm
      cases hQ'.part.eq_of_tasks hc.part h.placed hsame
      exact hQ'.unique_left hr hc

/-- Of regions whose pieces are listed so that each relates to the later ones, all relate to the
region whose piece is the last one. -/
theorem last_cases (hr : r.Yields R) {ps : List (Piece α)} {has : Region α → Prop}
    {rel : Piece α → Piece α → Prop} (hself : ∀ Q, rel Q Q) (hps : ps.Pairwise rel)
    (hpart : ∀ Q ∈ ps, Part Q R) (hmem : ∀ {c Q}, r.Becomes R c Q → (Q ∈ ps ↔ has c)) :
    (∃ c L, r.Becomes R c L ∧ has c ∧ ps.getLast? = some L ∧
        ∀ d Q, r.Becomes R d Q → has d → rel Q L) ∨
      ps.getLast? = none ∧ ∀ c ∈ r.preorder, ¬ has c := by
  cases hlast : ps.getLast? with
  | none =>
      refine Or.inr ⟨rfl, fun c hc hhas => ?_⟩
      obtain ⟨Q, hQ⟩ := hr.exists_part hc
      have hlisted := (hmem hQ).mpr hhas
      rw [List.getLast?_eq_none_iff.mp hlast] at hlisted
      cases hlisted
  | some L =>
      have hL := List.mem_of_getLast? hlast
      obtain ⟨c, hc⟩ := hr.exists_region (hpart L hL)
      exact Or.inl ⟨c, L, hc, (hmem hc).mp hL, rfl, fun d Q hd hhas =>
        rel_getLast?_of_pairwise hself hps hlast Q ((hmem hd).mpr hhas)⟩

/-- The last of the regions that start at a place is the innermost. -/
theorem entryOf_cases (h : w.Consists R) (hrecorded : w.Recorded R) (hr : r.Yields R)
    (hq : q ∈ w.net.places) :
    (∃ c ∈ r.preorder, w.HasEntry c q.id ∧ q.entryOf = some c.id ∧
        ∀ d ∈ r.preorder, w.HasEntry d q.id → c ∈ d.preorder) ∨
      q.entryOf = none ∧ ∀ c ∈ r.preorder, ¬ w.HasEntry c q.id := by
  rw [hrecorded.entryOf hq]
  rcases last_cases hr (fun _ => .self) (h.placed.pairwise_starts q.id)
    (fun Q hQ => mem_preorder.mp (List.mem_filter.mp hQ).1) (h.mem_starting hr) with
    ⟨c, L, hc, hentry, hlast, hall⟩ | ⟨hlast, hnone⟩
  · rw [hlast]
    refine Or.inl ⟨c, hc.mem, hentry, congrArg some hc.id_eq, fun d hd hentry' => ?_⟩
    obtain ⟨Q, hQ⟩ := hr.exists_part hd
    exact (hc.mem_preorder_iff hr hQ).mpr (hall d Q hQ hentry')
  · rw [hlast]
    exact Or.inr ⟨rfl, hnone⟩

/-- The last of the regions that end at a place is the outermost. -/
theorem exitOf_cases (h : w.Consists R) (hrecorded : w.Recorded R) (hr : r.Yields R)
    (hq : q ∈ w.net.places) :
    (∃ c ∈ r.preorder, w.HasExit c q.id ∧ q.exitOf = some c.id ∧
        ∀ d ∈ r.preorder, w.HasExit d q.id → d ∈ c.preorder) ∨
      q.exitOf = none ∧ ∀ c ∈ r.preorder, ¬ w.HasExit c q.id := by
  rw [hrecorded.exitOf hq]
  rcases last_cases hr (fun _ => .self) (h.placed.pairwise_ends q.id)
    (fun Q hQ => mem_postorder.mp (List.mem_filter.mp hQ).1) (h.mem_ending hr) with
    ⟨c, L, hc, hexit, hlast, hall⟩ | ⟨hlast, hnone⟩
  · rw [hlast]
    refine Or.inl ⟨c, hc.mem, hexit, congrArg some hc.id_eq, fun d hd hexit' => ?_⟩
    obtain ⟨Q, hQ⟩ := hr.exists_part hd
    exact (hQ.mem_preorder_iff hr hc).mpr (hall d Q hQ hexit')
  · rw [hlast]
    exact Or.inr ⟨rfl, hnone⟩

/-- The limit of a place is the bound of the loop whose body ends there. -/
theorem visitLimit_eq_some_iff (h : w.Consists R) (hr : r.Yields R) (hq : q ∈ w.net.places)
    {n : Nat} : q.visitLimit = some n ↔ ∃ c ∈ r.preorder, c.kind = .loop ∧
      (∃ body ∈ c.branches, w.HasExit body q.id) ∧ c.loopBound = some n := by
  have hlimit : w.net.limit q.id = q.visitLimit := by
    rw [Net.limit, h.place?_eq hq]
    rfl
  rw [← hlimit, h.limit_eq_some_iff hr]
  refine exists_congr fun c => and_congr_right fun _ => and_congr_right fun hkind => ?_
  refine and_congr_left fun _ => (or_iff_right fun hgate => ?_).trans (and_iff_right hkind)
  simp [hkind] at hgate

theorem existsUnique_entry (h : w.Consists R) (hr : r.Yields R) (hc : c ∈ r.preorder) :
    ∃! q, q ∈ w.net.places ∧ w.HasEntry c q.id := by
  obtain ⟨Q, hQ⟩ := hr.exists_part hc
  have hmem := h.mem_places_iff.mpr (hQ.part.ground_subset h.placed
    (hQ.part.placed h.placed).entry_mem_ground)
  obtain ⟨q, hq, hid⟩ := List.mem_map.mp hmem
  refine ⟨q, ⟨hq, (h.hasEntry_iff hr hQ).mpr hid.symm⟩, ?_⟩
  rintro q' ⟨hq', hentry⟩
  have hsame : q'.id = q.id := ((h.hasEntry_iff hr hQ).mp hentry).symm.trans hid.symm
  have hfound := h.place?_eq hq'
  rw [hsame, h.place?_eq hq] at hfound
  exact (Option.some.inj hfound).symm

theorem charges (h : w.Consists R) (hrecorded : w.Recorded R) (hr : r.Yields R)
    (hq : q ∈ w.net.places) : w.Charges r q where
  duration := h.duration_eq hrecorded hr hq
  impacts := h.impacts_cases hrecorded hr hq
  entryOf := h.entryOf_cases hrecorded hr hq
  exitOf := h.exitOf_cases hrecorded hr hq
  limited := by
    constructor
    · rintro ⟨n, hn⟩
      obtain ⟨c, hc, hkind, hbody, -⟩ := (h.visitLimit_eq_some_iff hr hq).mp hn
      exact ⟨c, hc, hkind, hbody⟩
    · rintro ⟨c, hc, hkind, hbody⟩
      obtain ⟨s, body, x, n, d, -, hbound, -⟩ := exists_loop_piece hr hc hkind
      exact ⟨n, (h.visitLimit_eq_some_iff hr hq).mpr ⟨c, hc, hkind, hbody, hbound⟩⟩
  visitLimit c hc hkind body hbody hexit := by
    obtain ⟨s, body', x, n, d, -, hbound, -⟩ := exists_loop_piece hr hc hkind
    rw [hbound]
    exact (h.visitLimit_eq_some_iff hr hq).mpr ⟨c, hc, hkind, ⟨body, hbody, hexit⟩, hbound⟩

end Consists

/-- Every region of a valid description is charged for on one place, and no place charges for
anything else. -/
theorem charged_of_validate {r : Region α} (h : r.validate = .ok ()) :
    ∃ w, compile r = .ok w ∧ w.Charged r := by
  obtain ⟨R, hcompile, hR, hr⟩ := exists_ofBlock h
  exact ⟨_, hcompile, fun c hc => hR.existsUnique_entry hr hc,
    fun q hq => hR.charges hR.recorded hr hq⟩

end Workflow

/-- A sequence that starts with a sequence. -/
def Region.chain : Region Rat :=
  ⟨"all", .sequential, none, 1, none, some [
    ⟨"front", .sequential, none, 2, none, some [
      ⟨"a", .task, none, 3, some [5], none, none, none⟩,
      ⟨"b", .task, none, 1, some [7], none, none, none⟩], none, none⟩,
    ⟨"c", .task, none, 4, some [1], none, none, none⟩], none, none⟩

theorem Region.chain_valid : Region.chain.validate = .ok () := by decide +kernel

/-- The first place charges for both sequences and the task that they start with. -/
theorem Workflow.charged_chain : Region.chain.validate = .ok () ∧
    ∃ w, Workflow.compile Region.chain = .ok w ∧ w.Charged Region.chain ∧
      w.net.places.map (fun q => (q.duration, q.impacts, q.entryOf, q.exitOf)) =
        [(6, some [5], some "a", none), (1, some [7], some "b", some "a"),
          (4, some [1], some "c", some "front"), (0, none, none, some "all")] := by
  obtain ⟨w, hcompile, hcharged⟩ := Workflow.charged_of_validate Region.chain_valid
  have hcheck : (match Workflow.compile Region.chain with
      | .ok w => decide (w.net.places.map (fun q => (q.duration, q.impacts, q.entryOf, q.exitOf)) =
          [(6, some [5], some "a", none), (1, some [7], some "b", some "a"),
            (4, some [1], some "c", some "front"), (0, none, none, some "all")])
      | .error _ => false) = true := by decide +kernel
  rw [hcompile] at hcheck
  exact ⟨Region.chain_valid, w, hcompile, hcharged, of_decide_eq_true hcheck⟩

end RegionNet
