import RegionNet.Proofs.Batch
import RegionNet.Proofs.Origin

/-!
# How often loops repeat

Each time a loop is entered it starts to count its rounds anew. The count is kept as the visits of
the place where the body ends: while the loop runs, these are the times that it has gone back, so
the bound of the place is the bound of the loop, and every number of rounds up to it can be had.

Nothing else touches the count. A transition from outside a part changes nothing in the zone of the
part while it is under way (`Part.frame`): the loops around it forget its visits only when it is
over.
-/

namespace RegionNet

variable {α : Type}

/-- The transition has this role for the region with this id. -/
def Transition.serves (t : Transition α) (id : String) (role : Role) : Bool :=
  decide (t.regionId = id ∧ t.role = role)

theorem Transition.serves_iff {t : Transition α} {id : String} {role : Role} :
    t.serves id role = true ↔ t.regionId = id ∧ t.role = role := decide_eq_true_iff

theorem Transition.serves_of_ne {t : Transition α} {id : String} {role : Role}
    (h : t.regionId ≠ id) : t.serves id role = false :=
  decide_eq_false fun ⟨he, _⟩ => h he

namespace Piece

variable {lim : PlaceId → Option Nat} {f g : Tally} {t : Transition α} {p : PlaceId}
  {P Q R : Piece α} {s : Site α} {x : α} {n k : Nat}

theorem Part.not_busy (h : Part Q P) (hP : Placed lim P) (hidle : ∀ p ∈ P.zone, (f p).1 = 0) :
    ¬ Q.Busy f := by
  intro hbusy
  obtain ⟨p, hp, hmarked⟩ := (h.placed hP).exists_marked hbusy
  rw [hidle p (h.zone_subset hp)] at hmarked
  exact Nat.lt_irrefl 0 hmarked

theorem Part.not_busy_of_untouched (h : Part Q P) (hP : Placed lim P)
    (hfresh : f.Untouched P.ground) : ¬ Q.Busy f :=
  h.not_busy hP fun p hp => by rw [hfresh p (zone_subset_ground _ hp)]

theorem Part.not_busy_of_done (h : Part Q P) (hP : Placed lim P) (hdone : P.Done f) :
    ¬ Q.Busy f := h.not_busy hP (hP.idle_of_done hdone)

/-! ## The rounds of a loop -/

/-- The loop was entered and has gone back `k` times since. -/
def Rounds (s : Site α) (body : Piece α) (n k : Nat) (f : Tally) : Prop :=
  f s.entry = (0, 1) ∧ k ≤ n ∧
    (body.Busy f ∧ f body.exit = (0, k) ∨ body.Done f ∧ f body.exit = (1, k))

theorem Rounds.busy (h : Rounds s P n k f) : (Piece.loop s P x n).Busy f :=
  Or.inr ⟨h.1, k, h.2.1, h.2.2⟩

theorem Rounds.visits (h : Rounds s P n k f) : (f P.exit).2 = k := by
  obtain ⟨-, -, ⟨-, hexit⟩ | ⟨-, hexit⟩⟩ := h
  all_goals rw [hexit]

theorem Rounds.congr (hP : Placed lim (.loop s P x n)) (h : Rounds s P n k f)
    (hfg : ∀ p ∈ (Piece.loop s P x n).zone, g p = f p) : Rounds s P n k g := by
  have hbody : ∀ p ∈ P.ground, g p = f p := fun p hp => hfg p (List.mem_cons_of_mem _ hp)
  have hzone : ∀ p ∈ P.zone, g p = f p := fun p hp => hbody p (zone_subset_ground _ hp)
  obtain ⟨hentry, hk, hround⟩ := h
  refine ⟨(hfg _ List.mem_cons_self).trans hentry, hk, ?_⟩
  rw [hbody _ (exit_mem_ground P)]
  exact hround.imp (And.imp_left (hP.body.busy_congr hzone))
    (And.imp_left (hP.body.done_congr hzone))

/-! ## What happens around a part -/

variable [Quantity α]

/-- Only its own transitions change a part that is under way. -/
theorem Part.frame (h : Part Q R) (hR : Placed lim R) (hbusyR : R.Busy f) (hbusy : Q.Busy f)
    (ht : t ∈ R.transitions) (ha : f.Admits lim t) :
    t ∈ Q.transitions ∨ ∀ p ∈ Q.zone, f.fire t p = f p := by
  -- on the way down to the part, it is either not yet its turn or no longer
  induction h with
  | self => exact Or.inl ht
  | first h ih =>
      cases hR.turn hbusyR ht ha with
      | first hb _ ht => exact ih hR.fst hb ht
      | second hdone _ _ => exact absurd hbusy (h.not_busy_of_done hR.fst hdone)
  | second h ih =>
      cases hR.turn hbusyR ht ha with
      | first _ hfresh _ => exact absurd hbusy (h.not_busy hR.snd fun p hp => by rw [hfresh p hp])
      | second _ hb ht => exact ih hR.snd hb ht
  | @branch s bs b hb h ih =>
      have hbs := hR.parallel
      cases hR.turn hbusyR ht ha with
      | fork _ hfresh _ =>
          exact absurd hbusy (h.not_busy_of_untouched (hbs.branch hb) (untouched_branch hfresh hb))
      | branch c hc _ _ hcbusy _ ht =>
          by_cases hbc : b = c
          · subst hbc
            exact ih (hbs.branch hb) hcbusy ht
          · refine Or.inr fun p hp => ?_
            exact (hbs.elsewhere hc ht).2.2 b hb hbc p (zone_subset_ground _ (h.zone_subset hp))
      | join _ hdone _ => exact absurd hbusy (h.not_busy_of_done (hbs.branch hb) (hdone b hb).1)
  | @arm s gate bs b hb h ih =>
      have hbs := hR.gateway
      have hother : ∀ c, (∀ d ∈ bs, d ≠ c → f.Untouched d.ground) → b = c := by
        intro c hothers
        by_contra hbc
        exact h.not_busy_of_untouched (hbs.branch hb) (hothers b hb hbc) hbusy
      cases hR.turn hbusyR ht ha with
      | pick c i hi _ hfresh _ =>
          exact absurd hbusy (h.not_busy_of_untouched (hbs.branch hb) (untouched_branch hfresh hb))
      | arm c hc _ hothers hcbusy _ ht =>
          obtain rfl := hother c hothers
          exact ih (hbs.branch hb) hcbusy ht
      | merge c i hi _ hothers hdone _ _ =>
          obtain rfl := hother c hothers
          exact absurd hbusy (h.not_busy_of_done (hbs.branch hb) hdone)
  | body h ih =>
      cases hR.turn hbusyR ht ha with
      | enter _ hfresh _ => exact absurd hbusy (h.not_busy_of_untouched hR.body hfresh)
      | body v _ _ hb _ ht => exact ih hR.body hb ht
      | back v _ _ hdone _ _ => exact absurd hbusy (h.not_busy_of_done hR.body hdone)
      | leave v _ _ hdone _ _ => exact absurd hbusy (h.not_busy_of_done hR.body hdone)

/-! ## Which transitions serve a loop -/

/-- The id of a loop does not occur in its body. -/
theorem ne_of_mem_body (hnodup : (Piece.loop s P x n).block.ids.Nodup) (ht : t ∈ P.transitions) :
    t.regionId ≠ s.head.id := by
  intro he
  exact (List.nodup_cons.mp hnodup).1 (he ▸ regionId_mem_ids ht)

omit [Quantity α] in
theorem serves_back : (s.back P x).serves s.head.id .loopBack = true :=
  Transition.serves_iff.mpr ⟨rfl, rfl⟩

theorem serves_leave : (s.leave P x).serves s.head.id .loopExit = true :=
  Transition.serves_iff.mpr ⟨rfl, rfl⟩

/-- A transition that serves a loop is the one with the right role. -/
theorem Part.eq_of_serves {role : Role} (h : Part (.loop s P x n) R) (hnodup : R.block.ids.Nodup)
    (ht : t ∈ R.transitions) (hserves : t.serves s.head.id role = true) :
    (t = s.enter P ∧ role = .loopEntry) ∨ (t = s.back P x ∧ role = .loopBack) ∨
      (t = s.leave P x ∧ role = .loopExit) := by
  obtain ⟨hid, rfl⟩ := Transition.serves_iff.mp hserves
  have hown := h.mem_of_regionId hnodup ht (hid ▸ List.mem_cons_self)
  rcases List.mem_cons.mp hown with rfl | hown
  · exact Or.inl ⟨rfl, rfl⟩
  rcases List.mem_append.mp hown with hown | hown
  · exact absurd hid (ne_of_mem_body (h.nodup_ids hnodup) hown)
  rcases List.mem_pair.mp hown with rfl | rfl
  · exact Or.inr (Or.inl ⟨rfl, rfl⟩)
  · exact Or.inr (Or.inr ⟨rfl, rfl⟩)

/-! ## Counting rounds -/

/-- The entry of a loop is the start of its first round. -/
theorem Part.rounds_of_entry (h : Part (.loop s P x n) R) (hR : Placed lim R)
    (hnodup : R.block.ids.Nodup) (hstaged : R.Staged f) (ht : t ∈ R.transitions)
    (ha : f.Admits lim t) (hserves : t.serves s.head.id .loopEntry = true) :
    Rounds s P n 0 (f.fire t) := by
  have hP : Placed lim (.loop s P x n) := h.placed hR
  rcases h.eq_of_serves hnodup ht hserves with ⟨rfl, -⟩ | ⟨-, hrole⟩ | ⟨-, hrole⟩
  · have hentry : 0 < (f s.entry).1 := ha.1 _ (by simp [Site.enter])
    obtain ⟨⟨hone, hfresh⟩ | ⟨hzero, -⟩, -⟩ :=
      hP.busy_of_marked (h.staged hR hstaged) hP.entry_mem_zone hentry
    · obtain ⟨hready, hexit⟩ :=
        hP.body.ready_of_moves hP.enter_moves hP.entry_notMem_body hfresh
      exact ⟨hP.enter_moves.input hone, Nat.zero_le n,
        Or.inl ⟨hP.body.busy_of_ready hready, hexit⟩⟩
    · exact absurd hentry (not_pos_of_eq hzero)
  · cases hrole
  · cases hrole

/-- A move leaves a running loop, or the loop goes on and counts the move if it goes back. -/
theorem Part.rounds_step (h : Part (.loop s P x n) R) (hR : Placed lim R)
    (hnodup : R.block.ids.Nodup) (hlive : R.Live f) (hrounds : Rounds s P n k f)
    (ht : t ∈ R.transitions) (ha : f.Admits lim t)
    (hstays : t.serves s.head.id .loopExit = false) :
    Rounds s P n (k + if t.serves s.head.id .loopBack then 1 else 0) (f.fire t) := by
  have hP : Placed lim (.loop s P x n) := h.placed hR
  have hbusy : (Piece.loop s P x n).Busy f := hrounds.busy
  have hvisits := hrounds.visits
  by_cases hown : t ∈ (Piece.loop s P x n).transitions
  · obtain ⟨hentry, hk, -⟩ := hrounds
    cases hP.turn hbusy hown ha with
    | enter hone _ _ =>
        rw [hentry] at hone
        cases hone
    | body v hv _ hbusy hexit htbody =>
        obtain rfl : v = k := by rwa [hexit] at hvisits
        have hmoved := hP.body.step hbusy htbody ha
        rw [Moved, hexit] at hmoved
        rw [Transition.serves_of_ne (ne_of_mem_body (h.nodup_ids hnodup) htbody)]
        exact ⟨(hP.body.fire_elsewhere htbody hP.entry_notMem_body).trans hentry, hk, hmoved⟩
    | back v hv _ hdone hexit he =>
        subst he
        obtain rfl : v = k := by rwa [hexit] at hvisits
        obtain ⟨hready, hexit'⟩ := hP.back_ready (x := x) hdone hexit
        rw [serves_back, if_pos rfl]
        exact ⟨(hP.body.back_elsewhere hP.entry_notMem_body).trans hentry, hv,
          Or.inl ⟨hP.body.busy_of_ready hready, hexit'⟩⟩
    | leave v _ _ _ _ he =>
        rw [he, serves_leave] at hstays
        cases hstays
  · have hsame := (h.frame hR (hR.busy_of_admits hlive ht ha) hbusy ht ha).resolve_left hown
    have hnotback : t.serves s.head.id .loopBack = false := by
      refine Bool.eq_false_iff.mpr fun hserves => hown ?_
      exact h.mem_of_regionId hnodup ht
        ((Transition.serves_iff.mp hserves).1 ▸ List.mem_cons_self)
    rw [hnotback]
    exact hrounds.congr hP hsame

/-- While a loop is not left, the rounds are those at first and the moves back. -/
theorem Part.rounds_path {ts : List (Transition α)} (h : Part (.loop s P x n) R)
    (hR : Placed lim R) (hnodup : R.block.ids.Nodup) (hlive : R.Live f)
    (hrounds : Rounds s P n k f) (hpath : Tally.Path lim R.transitions f ts g)
    (hstays : ∀ t ∈ ts, t.serves s.head.id .loopExit = false) :
    Rounds s P n (k + ts.countP fun t => t.serves s.head.id .loopBack) g := by
  induction hpath generalizing k with
  | nil => exact hrounds
  | @cons f g t ts ht ha _ ih =>
      obtain ⟨htstays, hstays⟩ := List.forall_mem_cons.mp hstays
      have hnext := ih (hR.step_live hlive ht ha)
        (h.rounds_step hR hnodup hlive hrounds ht ha htstays) hstays
      rw [List.countP_cons]
      rwa [Nat.add_assoc, Nat.add_comm (ite _ 1 0)] at hnext

/-! ## Any number of rounds -/

/-- A path through a body that does not count as moves of the loop around it. -/
theorem not_serves_of_body {ts : List (Transition α)}
    (hnodup : (Piece.loop s P x n).block.ids.Nodup)
    (hpath : Tally.Path lim P.transitions f ts g) :
    ∀ t ∈ ts, ∀ role, t.serves s.head.id role = false := by
  intro t ht role
  exact Transition.serves_of_ne (ne_of_mem_body hnodup (hpath.mem t ht))

/-- A loop in its first round can get to the end of each round that its bound allows. -/
theorem Placed.exists_rounds (hP : Placed lim (.loop s P x n))
    (hnodup : (Piece.loop s P x n).block.ids.Nodup) (hrounds : Rounds s P n 0 f) :
    ∀ k ≤ n, ∃ ts g, Tally.Path lim (Piece.loop s P x n).transitions f ts g ∧
      (∀ t ∈ ts, t.serves s.head.id .loopExit = false) ∧
      ts.countP (fun t => t.serves s.head.id .loopBack) = k ∧ P.Done g ∧ g P.exit = (1, k) := by
  have hbody : P.transitions ⊆ (Piece.loop s P x n).transitions := fun u hu =>
    List.mem_cons_of_mem _ (List.mem_append_left _ hu)
  intro k
  induction k with
  | zero =>
      intro _
      obtain ⟨-, -, ⟨hbusy, hexit⟩ | ⟨hdone, hexit⟩⟩ := hrounds
      · obtain ⟨ts, g, hpath, hdone, hexit'⟩ := hP.body.exists_finish hbusy
        rw [hexit] at hexit'
        have hnot := not_serves_of_body hnodup hpath
        refine ⟨ts, g, hpath.mono hbody, fun t ht => hnot t ht _, ?_, hdone, hexit'⟩
        exact List.countP_eq_zero.mpr fun t ht => by simp [hnot t ht]
      · exact ⟨[], f, .nil f, fun _ ht => absurd ht List.not_mem_nil, rfl, hdone, hexit⟩
  | succ k ih =>
      intro hk
      obtain ⟨ts, g, hpath, hstays, hcount, hdone, hexit⟩ := ih (Nat.le_of_succ_le hk)
      -- one more move back, and the body once more to its end
      have hback := admits_back hP (pos_of_eq hexit) (hexit ▸ hk)
      obtain ⟨hready, hexit'⟩ := hP.back_ready (x := x) hdone hexit
      obtain ⟨us, g', hpath', hdone', hend⟩ :=
        hP.body.exists_finish (hP.body.busy_of_ready hready)
      rw [hexit'] at hend
      have hnot := not_serves_of_body hnodup hpath'
      have hmem : s.back P x ∈ (Piece.loop s P x n).transitions := by simp [transitions]
      have hzero : us.countP (fun t => t.serves s.head.id .loopBack) = 0 :=
        List.countP_eq_zero.mpr fun t ht => by simp [hnot t ht]
      refine ⟨ts ++ s.back P x :: us, g', hpath.trans (.cons hmem hback (hpath'.mono hbody)), ?_,
        ?_, hdone', hend⟩
      · intro t ht
        rcases List.mem_append.mp ht with ht | ht
        · exact hstays t ht
        rcases List.mem_cons.mp ht with rfl | ht
        · exact decide_eq_false fun h => by cases h.2
        · exact hnot t ht _
      · rw [List.countP_append, List.countP_cons, hcount, hzero, serves_back, if_pos rfl]

end Piece

/-! ## Loops in a workflow -/

variable [Quantity α]

/-- The rounds of the loop with an id are counted at `guard`, and there are up to `n` more of them
than the first, each time anew. -/
structure Workflow.Repeats (w : Workflow α) (id : String) (guard : PlaceId) (n : Nat) : Prop where
  limit : w.net.limit guard = some n
  /-- Since it was entered and as long as it is not left, a loop has gone back as often as its
  guarded place was visited, and not more often than its bound allows. -/
  counted : ∀ us t vs m, w.net.Run w.initial (us ++ t :: vs) m → t.serves id .loopEntry = true →
    (∀ v ∈ vs, v.serves id .loopExit = false) →
    (m.state guard).visits = vs.countP (fun v => v.serves id .loopBack) ∧
      vs.countP (fun v => v.serves id .loopBack) ≤ n
  /-- Whenever it is entered, it can go back any number of times up to its bound before it is
  left. -/
  attained : ∀ us t m, w.net.Run w.initial (us ++ [t]) m → t.serves id .loopEntry = true →
    ∀ k ≤ n, ∃ vs v m', w.net.Run m (vs ++ [v]) m' ∧ v.serves id .loopExit = true ∧
      (∀ u ∈ vs, u.serves id .loopExit = false) ∧
      vs.countP (fun u => u.serves id .loopBack) = k
  entered : ∃ us t m, w.net.Run w.initial (us ++ [t]) m ∧ t.serves id .loopEntry = true

open Piece in
theorem Workflow.Consists.repeats {w : Workflow α} {R P : Piece α} {s : Site α} {x : α} {n : Nat}
    (h : w.Consists R) (hnodup : R.block.ids.Nodup) (hpart : Part (.loop s P x n) R) :
    w.Repeats s.head.id P.exit n := by
  have hP : Placed w.net.limit (.loop s P x n) := hpart.placed h.placed
  -- a run up to the entry has started the first round
  have hstart : ∀ {us t m}, w.net.Run w.initial (us ++ [t]) m →
      t.serves s.head.id .loopEntry = true →
      m.Ordered ∧ R.Live m.tally ∧ Rounds s P n 0 m.tally := by
    intro us t m hrun hserves
    obtain ⟨hm, hpath⟩ := hrun.path h.plain h.ordered_initial
    refine ⟨hm, (h.alive_of_path hpath).1, ?_⟩
    obtain ⟨f, hbefore, hlast⟩ := hpath.of_append
    cases hlast with
    | cons ht ha hnil =>
        rw [hnil.eq_foldl]
        exact hpart.rounds_of_entry h.placed hnodup (h.alive_of_path hbefore).1.staged
          (h.transitions ▸ ht) ha hserves
  constructor
  · exact hP.fits.2.1
  · intro us t vs m hrun hserves hstays
    obtain ⟨m₁, hbefore, hafter⟩ :
        ∃ m₁, w.net.Run w.initial (us ++ [t]) m₁ ∧ w.net.Run m₁ vs m := by
      rw [List.append_cons] at hrun
      exact hrun.of_append
    obtain ⟨hm₁, hlive, hrounds⟩ := hstart hbefore hserves
    obtain ⟨-, hpath⟩ := hafter.path h.plain hm₁
    rw [h.transitions] at hpath
    have hcount := hpart.rounds_path h.placed hnodup hlive hrounds hpath hstays
    rw [Nat.zero_add] at hcount
    exact ⟨hcount.visits, hcount.2.1⟩
  · intro us t m hrun hserves k hk
    obtain ⟨hm, -, hrounds⟩ := hstart hrun hserves
    obtain ⟨vs, g, hpath, hstays, hcount, hdone, hexit⟩ :=
      hP.exists_rounds (hpart.nodup_ids hnodup) hrounds k hk
    have hleave : s.leave P x ∈ (Piece.loop s P x n).transitions := by simp [Piece.transitions]
    have hall := (hpath.snoc hleave (admits_leave (pos_of_eq hexit))).mono hpart.transitions_subset
    rw [← h.transitions] at hall
    obtain ⟨m', hrun', -⟩ := Net.exists_run h.plain hall hm rfl
    exact ⟨vs, s.leave P x, m', hrun', serves_leave, hstays, hcount⟩
  · have henter : s.enter P ∈ R.transitions := hpart.transitions_subset List.mem_cons_self
    obtain ⟨us, f, hpath, ha⟩ := h.placed.exists_turn h.ready h.tally_initial_exit henter
    have hall := hpath.snoc henter ha
    rw [← h.transitions] at hall
    obtain ⟨m, hrun, -⟩ := Net.exists_run h.plain hall h.ordered_initial rfl
    exact ⟨us, s.enter P, m, hrun, Transition.serves_iff.mpr ⟨rfl, rfl⟩⟩

/-- Every loop of a valid description repeats as its bound says; its rounds are counted where its
body ends. -/
theorem Workflow.repeats_of_validate {r : Region α} (h : r.validate = .ok ()) :
    ∃ w, Workflow.compile r = .ok w ∧ ∀ c ∈ r.preorder, c.kind = .loop →
      ∃ body n, c.branches = [body] ∧ c.loopBound = some n ∧
        ∃ i ∈ w.layout.infos, i.id = body.id ∧ w.Repeats c.id i.exit n := by
  obtain ⟨blk, n, hblock, hcompile, hproper, hnodup⟩ := Workflow.compile_of_validate h
  obtain ⟨R, rfl, hR⟩ := Workflow.exists_piece hproper
  obtain ⟨⟨m, hsound⟩, -⟩ := Region.rules_of_validate h
  refine ⟨_, hcompile, ?_⟩
  intro c hc hkind
  obtain ⟨Q, hpart, hQ⟩ := Region.exists_part hsound hblock hc
  obtain ⟨s, P, x, k, body, rfl, hid, hbound, hbranches, hbody⟩ :=
    Region.loop_of_block (hsound c hc) hkind hQ
  have hbelow : Piece.Part P R := hpart.trans (.body .self)
  refine ⟨body, k, hbranches, hbound, P.layout.info, ?_, ?_, ?_⟩
  · rw [hR.layout]
    exact hbelow.mem_infos
  · rw [P.id_layout, hbody]
  · rw [P.info_layout_exit, ← hid]
    exact hR.repeats hnodup hpart

theorem Workflow.repeats_sample : ∃ w, Workflow.compile Region.sample = .ok w ∧
    ∀ c ∈ Region.sample.preorder, c.kind = .loop →
      ∃ body n, c.branches = [body] ∧ c.loopBound = some n ∧
        ∃ i ∈ w.layout.infos, i.id = body.id ∧ w.Repeats c.id i.exit n :=
  Workflow.repeats_of_validate Region.sample_valid

end RegionNet
