import RegionNet.Proofs.Repetition

/-!
# What a move does to a part

Seen from a part, a move of the whole is one of four things. It is a move of the part; it goes back
in a loop around the part, which is then as good as new; it puts a token in front of the part, which
was not touched before; or it does nothing to the part (`Part.effect`).

So the stage of a part tells what its own moves were since the last time that a loop around it went
back, and nothing about earlier rounds (`Part.since`). For a task this says whether it has run
(`Part.done_task_iff`), for a choice or draw by nature which branch it took
(`Part.untouched_arm_iff`), and for a loop whether it was left (`Part.done_loop_iff`).
-/

namespace RegionNet

variable {α : Type}

/-! ## The last part of a history -/

/-- One of the events `A` is in the list, and none of the events `B` comes after it. -/
def Since (A B : Transition α → Prop) (ts : List (Transition α)) : Prop :=
  ∃ us t vs, ts = us ++ t :: vs ∧ A t ∧ ∀ v ∈ vs, ¬ B v

section

variable {A A' B B' : Transition α → Prop} {t : Transition α} {ts : List (Transition α)}

theorem not_since_nil : ¬ Since A B [] := by
  rintro ⟨us, t, vs, he, -⟩
  exact absurd he (by simp)

theorem since_snoc : Since A B (ts ++ [t]) ↔ A t ∨ Since A B ts ∧ ¬ B t := by
  constructor
  · rintro ⟨us, u, vs, he, hA, hB⟩
    rcases List.eq_nil_or_concat vs with rfl | ⟨vs, v, rfl⟩
    · obtain ⟨rfl, hlast⟩ := List.append_inj' he rfl
      obtain rfl : t = u := by simpa using hlast
      exact Or.inl hA
    · rw [List.concat_eq_append, ← List.cons_append, ← List.append_assoc] at he
      obtain ⟨rfl, hlast⟩ := List.append_inj' he rfl
      obtain rfl : t = v := by simpa using hlast
      simp only [List.concat_eq_append, List.forall_mem_append, List.forall_mem_singleton] at hB
      exact Or.inr ⟨⟨us, u, vs, rfl, hA, hB.1⟩, hB.2⟩
  · rintro (hA | ⟨⟨us, u, vs, rfl, hA, hB⟩, hBt⟩)
    · exact ⟨ts, t, [], rfl, hA, fun _ h => absurd h List.not_mem_nil⟩
    · refine ⟨us, u, vs ++ [t], by simp, hA, ?_⟩
      exact List.forall_mem_append.mpr ⟨hB, List.forall_mem_singleton.mpr hBt⟩

theorem since_congr (hA : ∀ t ∈ ts, (A t ↔ A' t)) (hB : ∀ t ∈ ts, (B t ↔ B' t)) :
    Since A B ts ↔ Since A' B' ts := by
  refine exists_congr fun us => exists_congr fun t => exists_congr fun vs => ?_
  refine and_congr_right fun he => ?_
  subst he
  refine and_congr (hA t (by simp)) (forall₂_congr fun v hv => not_congr (hB v ?_))
  simp [hv]

end

namespace Piece

variable {lim : PlaceId → Option Nat} {f f' g : Tally} {t : Transition α} {P Q R : Piece α}
  {s : Site α} {bs : List (Piece α)}

/-! ## Parts of a piece that was entered -/

/-- Nothing has happened in the piece, but a token may wait in front of it. -/
def Fresh (P : Piece α) (f : Tally) : Prop := f.Untouched P.zone ∨ P.Ready f

/-- A piece and its part can start at the same place only. -/
theorem Part.entry_eq (h : Part Q P) (hP : Placed lim P) (hp : P.entry ∈ Q.zone) :
    P.entry = Q.entry := by
  induction h with
  | self => rfl
  | first _ ih =>
      have he := hP.fst_entry
      exact he.symm.trans (ih hP.fst (he ▸ hp))
  | second h _ =>
      have hzone := hP.fst.entry_mem_zone
      rw [hP.fst_entry] at hzone
      exact absurd (zone_subset_ground _ (h.zone_subset hp)) (hP.notMem_snd_ground hzone)
  | branch hb h _ =>
      exact absurd (zone_subset_ground _ (h.zone_subset hp)) (hP.parallel.entry_notMem hb)
  | arm hb h _ =>
      exact absurd (zone_subset_ground _ (h.zone_subset hp)) (hP.gateway.entry_notMem hb)
  | body h _ => exact absurd (zone_subset_ground _ (h.zone_subset hp)) hP.entry_notMem_body

theorem Part.fresh_of_ready (h : Part Q P) (hP : Placed lim P) (hready : P.Ready f) :
    Q.Fresh f := by
  obtain ⟨hentry, hrest⟩ := hready
  by_cases hp : P.entry ∈ Q.zone
  · have he := h.entry_eq hP hp
    rw [he] at hentry hrest
    exact Or.inr ⟨hentry, fun p hp => hrest p (h.zone_subset hp)⟩
  · refine Or.inl fun p hpQ => hrest p (h.zone_subset hpQ) ?_
    rintro rfl
    exact hp hpQ

/-! ## Rounds of the loops around a part -/

/-- The transition goes back in a loop of `R` around the part `Q`. -/
def Renews (R Q : Piece α) (t : Transition α) : Prop :=
  ∃ s body x n, Part (.loop s body x n) R ∧ Part Q body ∧ t = s.back body x

theorem Part.renews {P' : Piece α} (h : Part P R) (hrenews : Renews P P' t) : Renews R P' t := by
  obtain ⟨s, body, x, n, hloop, hpart, rfl⟩ := hrenews
  exact ⟨s, body, x, n, h.trans hloop, hpart, rfl⟩

/-- A loop is decided when its body is over. -/
theorem Part.done_of_marked {body : Piece α} {x : α} {n : Nat}
    (h : Part (.loop s body x n) R) (hR : Placed lim R) (hstaged : R.Staged f)
    (hmarked : 0 < (f body.exit).1) : ∃ v, body.Done f ∧ f body.exit = (1, v) := by
  have hmem : body.exit ∈ (Piece.loop s body x n).zone :=
    List.mem_cons_of_mem _ (exit_mem_ground body)
  obtain ⟨⟨-, hfresh⟩ | ⟨-, v, -, ⟨-, hexit⟩ | ⟨hdone, hexit⟩⟩, -⟩ :=
    (h.placed hR).busy_of_marked (h.staged hR hstaged) hmem hmarked
  · exact absurd hmarked (not_pos_of_eq (hfresh _ (exit_mem_ground body)))
  · exact absurd hmarked (not_pos_of_eq hexit)
  · exact ⟨v, hdone, hexit⟩

/-- A choice or draw by nature is decided before any of its branches was touched. -/
theorem Part.untouched_of_marked {gate : Gate α} (h : Part (.gateway s gate bs) R)
    (hR : Placed lim R) (hstaged : R.Staged f) (hmarked : 0 < (f s.entry).1) :
    f s.entry = (1, 0) ∧ f.Untouched (zones bs) := by
  have hP := h.placed hR
  have hmem : s.entry ∈ (Piece.gateway s gate bs).zone := List.mem_cons_self
  obtain ⟨hbusy, -⟩ := hP.busy_of_marked (h.staged hR hstaged) hmem hmarked
  rcases hP.gateway.busy_gateway.mp hbusy with hwaits | ⟨hleft, -⟩
  · exact hwaits
  · exact absurd hmarked (not_pos_of_eq hleft)

/-- Going back makes everything in the loop fresh. -/
theorem Renews.fresh (h : Renews R Q t) (hR : Placed lim R) (hstaged : R.Staged f)
    (ha : f.Admits lim t) : Q.Fresh (f.fire t) := by
  obtain ⟨s, body, x, n, hloop, hpart, rfl⟩ := h
  have hP : Placed lim (.loop s body x n) := hloop.placed hR
  obtain ⟨v, hdone, hexit⟩ := hloop.done_of_marked hR hstaged (ha.1 _ (by simp [Site.back]))
  exact hpart.fresh_of_ready hP.body (hP.back_ready hdone hexit).1

variable [Quantity α]

/-- Going back is no move of what is in the loop. -/
theorem Renews.notMem (h : Renews R Q t) (hR : Placed lim R) : t ∉ Q.transitions := by
  obtain ⟨s, body, x, n, hloop, hpart, rfl⟩ := h
  have hbody := (hloop.placed hR).body
  intro ht
  have hin := ((hpart.placed hbody).within ht).inputs (by simp [Site.back] : body.exit ∈ _)
  exact hbody.exit_notMem_zone (hpart.zone_subset hin)

/-! ## Moves seen from a part -/

/-- What a move can be for a part. -/
inductive Effect (R Q : Piece α) (f : Tally) (t : Transition α) : Prop where
  | own (ht : t ∈ Q.transitions)
  | renewal (h : Renews R Q t)
  | start (fresh : f.Untouched Q.zone) (ready : Q.Ready (f.fire t))
  | nothing (same : ∀ p ∈ Q.zone, f.fire t p = f p)

theorem Effect.of_part {P : Piece α} (hpart : Part P R) (h : Effect P Q f t) : Effect R Q f t := by
  cases h with
  | own ht => exact .own ht
  | renewal hrenews => exact .renewal (hpart.renews hrenews)
  | start hfresh hready => exact .start hfresh hready
  | nothing hsame => exact .nothing hsame

/-- A move that makes an untouched piece ready starts a part of it or does nothing to it. -/
theorem Part.effect_of_ready (h : Part Q P) (hP : Placed lim P) (hfresh : f.Untouched P.zone)
    (hready : P.Ready (f.fire t)) : Effect R Q f t := by
  have hfreshQ : f.Untouched Q.zone := hfresh.mono h.zone_subset
  rcases h.fresh_of_ready hP hready with hsame | hready
  · exact .nothing fun p hp => (hsame p hp).trans (hfreshQ p hp).symm
  · exact .start hfreshQ hready

/-- A move of the first part makes the second one ready or does nothing to it. -/
theorem Placed.snd_of_fst {s : Site α} {P P' : Piece α} (hR : Placed lim (.sequential s P P'))
    (hb : P.Busy f) (hfresh : f.Untouched P'.zone) (ht : t ∈ P.transitions)
    (ha : f.Admits lim t) : (∀ p ∈ P'.zone, f.fire t p = f p) ∨ P'.Ready (f.fire t) := by
  have hrest : ∀ p ∈ P'.zone, p ≠ P'.entry → f.fire t p = f p := fun p hp hne =>
    hR.fst.fire_elsewhere ht (hR.notMem_fst_ground (zone_subset_ground _ hp) hne)
  -- the token behind the first part is the one in front of the second
  rcases hR.fst.step hb ht ha with ⟨-, hstay⟩ | ⟨-, hleft⟩
  · rw [← hR.snd_entry] at hstay
    refine Or.inl fun p hp => ?_
    by_cases hne : p = P'.entry
    · rw [hne, hstay]
    · exact hrest p hp hne
  · rw [← hR.snd_entry, hfresh _ hR.snd.entry_mem_zone] at hleft
    refine Or.inr ⟨hleft, fun p hp hne => ?_⟩
    rw [hrest p hp hne, hfresh p hp]

theorem Part.effect (h : Part Q R) (hR : Placed lim R) (hbusy : R.Busy f) (ht : t ∈ R.transitions)
    (ha : f.Admits lim t) : Effect R Q f t := by
  -- on the way down to the part, every turn of a transition is looked at once
  induction h with
  | self => exact .own ht
  | first h ih =>
      cases hR.turn hbusy ht ha with
      | first hb _ ht => exact (ih hR.fst hb ht).of_part (.first .self)
      | second _ _ ht =>
          exact .nothing fun p hp =>
            hR.snd.fire_elsewhere ht (hR.notMem_snd_ground (h.zone_subset hp))
  | @second s P P' h ih =>
      cases hR.turn hbusy ht ha with
      | second _ hb ht => exact (ih hR.snd hb ht).of_part (.second .self)
      | first hb hfresh ht =>
          rcases hR.snd_of_fst hb hfresh ht ha with hsame | hready
          · exact .nothing fun p hp => hsame p (h.zone_subset hp)
          · exact h.effect_of_ready hR.snd hfresh hready
  | @branch s bs b hb h ih =>
      have hbs := hR.parallel
      cases hR.turn hbusy ht ha with
      | fork hentry hfresh he =>
          subst he
          obtain ⟨-, -, hready⟩ := hbs.fork hentry hfresh
          exact h.effect_of_ready (hbs.branch hb)
            ((untouched_branch hfresh hb).mono (zone_subset_ground b)) (hready b hb).1
      | branch c hc _ _ hcbusy _ ht =>
          by_cases hbc : b = c
          · subst hbc
            exact (ih (hbs.branch hb) hcbusy ht).of_part (.branch hb .self)
          · exact .nothing fun p hp =>
              (hbs.elsewhere hc ht).2.2 b hb hbc p (zone_subset_ground _ (h.zone_subset hp))
      | join _ _ he =>
          subst he
          refine .nothing fun p hp => ?_
          have hpb := h.zone_subset hp
          refine Tally.fire_of_notMem (fun hin => ?_) ?_ (by simp [Site.join])
          · obtain ⟨c, hc, he⟩ : ∃ c ∈ bs, c.exit = p := by simpa [Site.join] using hin
            exact hbs.ne_exit_of_zone hb hc hpb he.symm
          · simpa [Site.join] using hbs.ne_exit hb (zone_subset_ground _ hpb)
  | @arm s g bs b hb h ih =>
      have hbs := hR.gateway
      cases hR.turn hbusy ht ha with
      | pick c i hi hentry hfresh he =>
          subst he
          have hc : c ∈ bs := List.mem_of_getElem? hi
          have hpick := hbs.pick_moves (g := g) hc i
          by_cases hbc : b = c
          · subst hbc
            have hready := (hbs.branch hb).ready_of_moves hpick (hbs.entry_notMem hb)
              (untouched_branch hfresh hb)
            exact h.effect_of_ready (hbs.branch hb)
              ((untouched_branch hfresh hb).mono (zone_subset_ground b)) hready.1
          · refine .nothing fun p hp => ?_
            have hpb := zone_subset_ground _ (h.zone_subset hp)
            exact hpick.elsewhere (hbs.ne_entry hb hpb)
              (hbs.ne_of_ne hc hb hbc hpb (hbs.branch hc).entry_mem_ground)
      | arm c hc _ hothers hcbusy _ ht =>
          by_cases hbc : b = c
          · subst hbc
            exact (ih (hbs.branch hb) hcbusy ht).of_part (.arm hb .self)
          · exact .nothing fun p hp =>
              (hbs.elsewhere hc ht).2.2 b hb hbc p (zone_subset_ground _ (h.zone_subset hp))
      | merge c i hi _ _ _ _ he =>
          subst he
          have hc : c ∈ bs := List.mem_of_getElem? hi
          refine .nothing fun p hp => ?_
          have hpb := h.zone_subset hp
          exact (hbs.merge_moves (g := g) hc i).elsewhere (hbs.ne_exit_of_zone hb hc hpb)
            (hbs.ne_exit hb (zone_subset_ground _ hpb))
  | @body s P x n h ih =>
      cases hR.turn hbusy ht ha with
      | enter hentry hfresh he =>
          subst he
          have hready := hR.body.ready_of_moves hR.enter_moves hR.entry_notMem_body hfresh
          exact h.effect_of_ready hR.body (hfresh.mono (zone_subset_ground P)) hready.1
      | body v _ _ hb _ ht => exact (ih hR.body hb ht).of_part (.body .self)
      | back v _ _ _ _ he => exact .renewal ⟨s, P, x, n, .self, h, he⟩
      | leave v _ _ _ _ he =>
          subst he
          refine .nothing fun p hp => ?_
          have hpb := h.zone_subset hp
          exact hR.leave_moves.elsewhere (hR.body.ne_exit hpb)
            (hR.ne_exit_of_body (zone_subset_ground _ hpb))

/-! ## What the stage of a part says about its history -/

theorem Placed.busy_of_own (hQ : Placed lim Q) (hstaged : Q.Staged f) (ht : t ∈ Q.transitions)
    (ha : f.Admits lim t) : Q.Busy f := by
  rcases hstaged with hfresh | ⟨hbusy, -⟩ | hdone
  · exact absurd ha (hQ.not_admits (fun p hp => by rw [hfresh p hp]) ht)
  · exact hbusy
  · exact absurd ha (hQ.not_admits_of_done hdone ht)

/-- What is false at first and of a fresh part, becomes true with some moves of the part and stays
true under the others, is true exactly when one of these moves was made since a loop around the part
last went back. -/
theorem Part.since {A : Transition α → Prop} {I : Tally → Prop} {ts : List (Transition α)}
    (h : Part Q R) (hR : Placed lim R) (hlive : R.Live f) (hnot : ¬ I f)
    (hA : ∀ t, A t → t ∈ Q.transitions) (hnew : ∀ g, Q.Fresh g → ¬ I g)
    (hown : ∀ g, Q.Busy g → ∀ t ∈ Q.transitions, g.Admits lim t → (I (g.fire t) ↔ A t ∨ I g))
    (hsame : ∀ g g', (∀ p ∈ Q.zone, g' p = g p) → (I g' ↔ I g))
    (hpath : Tally.Path lim R.transitions f ts g) : I g ↔ Since A (Renews R Q) ts := by
  refine (hpath.history (I := fun us g => R.Live g ∧ (I g ↔ Since A (Renews R Q) us))
    ⟨hlive, iff_of_false hnot not_since_nil⟩ ?_).2
  rintro us g ⟨hlive, hI⟩ t ht ha
  refine ⟨hR.step_live hlive ht ha, ?_⟩
  rw [since_snoc, ← hI]
  by_cases hrenews : Renews R Q t
  · have hnot : ¬ A t := fun hAt => hrenews.notMem hR (hA t hAt)
    refine iff_of_false (hnew _ (hrenews.fresh hR hlive.staged ha)) ?_
    rintro (hAt | ⟨-, hno⟩)
    · exact hnot hAt
    · exact hno hrenews
  rw [and_iff_left hrenews]
  by_cases htQ : t ∈ Q.transitions
  · exact hown g ((h.placed hR).busy_of_own (h.staged hR hlive.staged) htQ ha) t htQ ha
  rw [or_iff_right fun hAt => htQ (hA t hAt)]
  cases h.effect hR (hR.busy_of_admits hlive ht ha) ht ha with
  | own ht => exact absurd ht htQ
  | renewal h => exact absurd h hrenews
  | start hfresh hready => exact iff_of_false (hnew _ (Or.inr hready)) (hnew _ (Or.inl hfresh))
  | nothing hunchanged => exact hsame g _ hunchanged

/-- A task is over exactly when it has run since a loop around it last went back. -/
theorem Part.done_task_iff {v : List α} {ts : List (Transition α)} (h : Part (.task s v) R)
    (hR : Placed lim R) (hlive : R.Live f) (hfresh : (Piece.task s v).Fresh f)
    (hpath : Tally.Path lim R.transitions f ts g) :
    g s.entry = (0, 1) ↔ Since (· = s.run) (Renews R (.task s v)) ts := by
  have hP : Placed lim (.task s v) := h.placed hR
  have hnew : ∀ g, (Piece.task s v).Fresh g → ¬ g s.entry = (0, 1) := by
    rintro g (hfresh | ⟨hentry, -⟩) hdone
    · rw [hfresh _ List.mem_cons_self] at hdone
      cases hdone
    · cases hentry.symm.trans hdone
  refine h.since hR hlive (hnew f hfresh) ?_ hnew ?_ ?_ hpath
  · rintro t rfl
    exact List.mem_singleton_self _
  · intro g hbusy t ht ha
    obtain rfl : t = s.run := List.mem_singleton.mp ht
    exact iff_of_true (hP.run_moves.input hbusy) (Or.inl rfl)
  · intro g g' heq
    rw [heq _ List.mem_cons_self]

/-- A move of a gateway touches the branch that it picks, and no branch is forgotten. -/
theorem Placed.touched_iff {gate : Gate α} {b : Piece α} {i : Nat}
    (hP : Placed lim (.gateway s gate bs)) (hi : bs[i]? = some b)
    (hbusy : (Piece.gateway s gate bs).Busy f) (ht : t ∈ (Piece.gateway s gate bs).transitions)
    (ha : f.Admits lim t) :
    (¬ (f.fire t).Untouched b.ground) ↔ t = s.pick gate i b ∨ ¬ f.Untouched b.ground := by
  have h := hP.gateway
  have hb : b ∈ bs := List.mem_of_getElem? hi
  have hmarked : ∀ {g : Tally}, (∃ p ∈ b.ground, 0 < (g p).1) → ¬ g.Untouched b.ground := by
    rintro g ⟨p, hp, hmarked⟩ hfresh
    exact not_pos_of_eq (hfresh p hp) hmarked
  have hunchanged : (∀ p ∈ b.ground, f.fire t p = f p) → t ≠ s.pick gate i b →
      ((¬ (f.fire t).Untouched b.ground) ↔ t = s.pick gate i b ∨ ¬ f.Untouched b.ground) := by
    intro hsame hne
    rw [or_iff_right hne]
    exact not_congr ⟨fun hu => hu.congr fun p hp => (hsame p hp).symm, fun hu => hu.congr hsame⟩
  cases hP.turn hbusy ht ha with
  | pick c j hj hentry hfresh he =>
      subst he
      have hc : c ∈ bs := List.mem_of_getElem? hj
      have hpick := h.pick_moves (g := gate) hc j
      by_cases hbc : b = c
      · subst hbc
        obtain ⟨hlt, -⟩ := List.getElem?_eq_some_iff.mp hj
        have hexits : (bs.map exit).Nodup := h.map_nodup fun c _ => exit_mem_ground c
        have hnodup : bs.Nodup := .of_map _ hexits
        obtain rfl : j = i := (List.getElem?_inj hlt hnodup).mp (hj.trans hi.symm)
        obtain ⟨hready, -⟩ := (h.branch hb).ready_of_moves hpick (h.entry_notMem hb)
          (untouched_branch hfresh hb)
        refine iff_of_true (hmarked ⟨b.entry, (h.branch hb).entry_mem_ground, ?_⟩) (Or.inl rfl)
        exact pos_of_eq hready.1
      · refine hunchanged (fun p hp => ?_) fun he => hbc ?_
        · exact hpick.elsewhere (h.ne_entry hb hp)
            (h.ne_of_ne hc hb hbc hp (h.branch hc).entry_mem_ground)
        · obtain rfl : j = i := Option.some.inj (congrArg Transition.branch he)
          exact Option.some.inj (hi.symm.trans hj)
  | arm c hc hentry hothers hcbusy hexit ht =>
      by_cases hbc : b = c
      · subst hbc
        have hlive := ((h.branch hb).step hcbusy ht ha).live hexit
        obtain ⟨p, hp, hpos⟩ := (h.branch hb).exists_marked hcbusy
        refine iff_of_true (hmarked ?_) (Or.inr (hmarked ⟨p, zone_subset_ground _ hp, hpos⟩))
        exact marked_of_live (h.branch hb).exists_marked hlive
      · refine hunchanged ((h.elsewhere hc ht).2.2 b hb hbc) ?_
        rintro rfl
        have hin := ((h.branch hc).within ht).inputs (by simp [Site.pick] : s.entry ∈ _)
        exact h.entry_notMem hc (zone_subset_ground _ hin)
  | merge c j hj hentry hothers hdone hexit he =>
      subst he
      have hc : c ∈ bs := List.mem_of_getElem? hj
      obtain ⟨-, -, -, hexit', hsame⟩ := h.merge (g := gate) hc j hdone hexit
      by_cases hbc : b = c
      · subst hbc
        refine iff_of_true (fun hu => ?_) (Or.inr fun hu => ?_)
        · cases hexit'.symm.trans (hu _ (exit_mem_ground b))
        · cases hexit.symm.trans (hu _ (exit_mem_ground b))
      · refine hunchanged (hsame b hb hbc) fun he => ?_
        cases congrArg Transition.role he

/-- A branch was touched exactly when it was picked since a loop around the gateway last went
back. -/
theorem Part.untouched_arm_iff {gate : Gate α} {b : Piece α} {i : Nat} {ts : List (Transition α)}
    (h : Part (.gateway s gate bs) R) (hR : Placed lim R) (hlive : R.Live f)
    (hfresh : (Piece.gateway s gate bs).Fresh f) (hi : bs[i]? = some b)
    (hpath : Tally.Path lim R.transitions f ts g) :
    (¬ g.Untouched b.ground) ↔
      Since (· = s.pick gate i b) (Renews R (.gateway s gate bs)) ts := by
  have hP : Placed lim (.gateway s gate bs) := h.placed hR
  have hb : b ∈ bs := List.mem_of_getElem? hi
  have hzone : ∀ p ∈ b.ground, p ∈ (Piece.gateway s gate bs).zone := fun p hp =>
    List.mem_cons_of_mem _ (mem_zones.mpr ⟨b, hb, hp⟩)
  have hnew : ∀ g, (Piece.gateway s gate bs).Fresh g → ¬ ¬ g.Untouched b.ground := by
    rintro g (hfresh | hready) hnot
    · exact hnot (hfresh.mono hzone)
    · exact hnot (untouched_branch (hP.gateway.ready hready.2) hb)
  refine h.since hR hlive (hnew f hfresh) ?_ hnew ?_ ?_ hpath
  · rintro t rfl
    exact mem_arms.mpr ⟨i, b, hi, Or.inl (by rw [Nat.zero_add])⟩
  · exact fun g hbusy t ht ha => hP.touched_iff hi hbusy ht ha
  · intro g g' heq
    exact not_congr ⟨fun hu => hu.congr fun p hp => (heq p (hzone p hp)).symm,
      fun hu => hu.congr fun p hp => heq p (hzone p hp)⟩

/-- A move of a loop under way ends it exactly when it leaves the loop. -/
theorem Placed.done_fire_iff {body : Piece α} {x : α} {n : Nat}
    (hP : Placed lim (.loop s body x n)) (hbusy : (Piece.loop s body x n).Busy f)
    (ht : t ∈ (Piece.loop s body x n).transitions) (ha : f.Admits lim t) :
    (Piece.loop s body x n).Done (f.fire t) ↔ t = s.leave body x := by
  have hready : body.Ready (f.fire t) → ¬ (Piece.loop s body x n).Done (f.fire t) := by
    rintro ⟨hentry, -⟩ ⟨-, hdone, -⟩
    exact (pos_of_eq hentry).ne' (hP.body.idle_of_done hdone _ hP.body.entry_mem_zone)
  cases hP.turn hbusy ht ha with
  | enter hentry hfresh he =>
      subst he
      have hbody := hP.body.ready_of_moves hP.enter_moves hP.entry_notMem_body hfresh
      exact iff_of_false (hready hbody.1) fun he => by cases congrArg Transition.role he
  | body v hv hentry hbusy hexit ht =>
      refine iff_of_false ?_ ?_
      · rintro ⟨-, hdone, u, -, hleft⟩
        rcases hP.body.step hbusy ht ha with ⟨hbusy', -⟩ | ⟨-, hmarks⟩
        · obtain ⟨p, hp, hmarked⟩ := hP.body.exists_marked hbusy'
          exact hmarked.ne' (hP.body.idle_of_done hdone p hp)
        · rw [hexit, hleft] at hmarks
          cases hmarks
      · rintro rfl
        have hin := (hP.body.within ht).inputs (by simp [Site.leave] : body.exit ∈ _)
        exact hP.body.exit_notMem_zone hin
  | back v hv hentry hdone hexit he =>
      subst he
      exact iff_of_false (hready (hP.back_ready hdone hexit).1) fun he => by
        cases congrArg Transition.role he
  | leave v hv hentry hdone hexit he =>
      subst he
      exact iff_of_true (hP.leave hv hentry hdone hexit).1 rfl

/-- A loop that was under way is over exactly when it was left since a loop around it last went
back. -/
theorem Part.done_loop_iff {body : Piece α} {x : α} {n : Nat} {ts : List (Transition α)}
    (h : Part (.loop s body x n) R) (hR : Placed lim R) (hlive : R.Live f)
    (hnot : ¬ (Piece.loop s body x n).Done f) (hpath : Tally.Path lim R.transitions f ts g) :
    (Piece.loop s body x n).Done g ↔
      Since (· = s.leave body x) (Renews R (.loop s body x n)) ts := by
  have hP : Placed lim (.loop s body x n) := h.placed hR
  refine h.since hR hlive hnot ?_ ?_ ?_ ?_ hpath
  · rintro t rfl
    exact List.mem_cons_of_mem _ (List.mem_append_right _ (List.mem_cons_of_mem _
      (List.mem_singleton_self _)))
  · rintro g (hfresh | ⟨hentry, -⟩) ⟨hdone, -⟩
    · cases hdone.symm.trans (hfresh _ List.mem_cons_self)
    · cases hdone.symm.trans hentry
  · intro g hbusy t ht ha
    have hstill : ¬ (Piece.loop s body x n).Done g := fun hdone =>
      hP.not_admits_of_done hdone ht ha
    rw [hP.done_fire_iff hbusy ht ha, or_iff_left hstill]
  · intro g g' heq
    exact ⟨hP.done_congr fun p hp => (heq p hp).symm, hP.done_congr heq⟩

end Piece

end RegionNet
