import RegionNet.Proofs.Placement
import RegionNet.Proofs.Tally

/-!
# Stages of a piece

Whatever happens in a compiled process, each of its pieces is in one of three stages: it was not
touched yet, it is under way, or it is over. `Piece.Busy` and `Piece.Done` say what the tokens and
visits in the zone of a piece look like in the last two; in the first one they are all zero.

The main statement is `Busy.step`: a transition of a piece under way leaves it under way, or ends it
and puts a token on its exit. In the other two stages no transition of the piece has its tokens.
-/

namespace RegionNet

variable {α : Type}

/-- No token is there or has ever left since the places were last forgotten. -/
def Tally.Untouched (f : Tally) (ps : List PlaceId) : Prop := ∀ p ∈ ps, f p = (0, 0)

instance (f : Tally) (ps : List PlaceId) : Decidable (f.Untouched ps) :=
  inferInstanceAs (Decidable (∀ p ∈ ps, f p = (0, 0)))

theorem Tally.Untouched.mono {f : Tally} {ps qs : List PlaceId} (h : f.Untouched qs)
    (hsub : ps ⊆ qs) : f.Untouched ps := fun p hp => h p (hsub hp)

theorem Tally.Untouched.congr {f g : Tally} {ps : List PlaceId} (h : f.Untouched ps)
    (hfg : ∀ p ∈ ps, g p = f p) : g.Untouched ps := fun p hp => (hfg p hp).trans (h p hp)

namespace Piece

mutual

/-- The piece is over: what entered it has left its zone. -/
def Done : Piece α → Tally → Prop
  | .task s _, f => f s.entry = (0, 1)
  | .sequential _ P Q, f => P.Done f ∧ Q.Done f
  | .parallel s bs, f => f s.entry = (0, 1) ∧ AllDone bs f
  | .gateway s _ bs, f => f s.entry = (0, 1) ∧ OneDone bs f
  | .loop s body _ n, f => f s.entry = (0, 1) ∧ body.Done f ∧ ∃ v ≤ n, f body.exit = (0, v + 1)

/-- All branches are over and left. -/
def AllDone : List (Piece α) → Tally → Prop
  | [], _ => True
  | b :: bs, f => (b.Done f ∧ f b.exit = (0, 1)) ∧ AllDone bs f

/-- One branch is over and left, the others were not touched. -/
def OneDone : List (Piece α) → Tally → Prop
  | [], _ => False
  | b :: bs, f =>
    (b.Done f ∧ f b.exit = (0, 1)) ∧ f.Untouched (zones bs) ∨ f.Untouched b.ground ∧ OneDone bs f

end

mutual

/-- The piece is under way. -/
def Busy : Piece α → Tally → Prop
  | .task s _, f => f s.entry = (1, 0)
  | .sequential _ P Q, f => P.Busy f ∧ f.Untouched Q.zone ∨ P.Done f ∧ Q.Busy f
  | .parallel s bs, f =>
    f s.entry = (1, 0) ∧ f.Untouched (zones bs) ∨ f s.entry = (0, 1) ∧ AllLive bs f
  | .gateway s _ bs, f =>
    f s.entry = (1, 0) ∧ f.Untouched (zones bs) ∨ f s.entry = (0, 1) ∧ OneLive bs f
  | .loop s body _ n, f =>
    f s.entry = (1, 0) ∧ f.Untouched body.ground ∨
      f s.entry = (0, 1) ∧ ∃ v ≤ n,
        body.Busy f ∧ f body.exit = (0, v) ∨ body.Done f ∧ f body.exit = (1, v)

/-- All branches were entered and none was left. -/
def AllLive : List (Piece α) → Tally → Prop
  | [], _ => True
  | b :: bs, f =>
    (b.Busy f ∧ f b.exit = (0, 0) ∨ b.Done f ∧ f b.exit = (1, 0)) ∧ AllLive bs f

/-- One branch was entered and not left, the others were not touched. -/
def OneLive : List (Piece α) → Tally → Prop
  | [], _ => False
  | b :: bs, f =>
    (b.Busy f ∧ f b.exit = (0, 0) ∨ b.Done f ∧ f b.exit = (1, 0)) ∧ f.Untouched (zones bs) ∨
      f.Untouched b.ground ∧ OneLive bs f

end

/-- The piece was entered and what entered it is still on its ground. -/
def Live (P : Piece α) (f : Tally) : Prop :=
  P.Busy f ∧ f P.exit = (0, 0) ∨ P.Done f ∧ f P.exit = (1, 0)

/-- A token on the entry, and nothing else has happened. -/
def Ready (P : Piece α) (f : Tally) : Prop :=
  f P.entry = (1, 0) ∧ ∀ p ∈ P.zone, p ≠ P.entry → f p = (0, 0)

/-! ## Branches, told by membership -/

theorem allDone_iff {bs : List (Piece α)} {f : Tally} :
    AllDone bs f ↔ ∀ b ∈ bs, b.Done f ∧ f b.exit = (0, 1) := by
  induction bs with
  | nil => simp [AllDone]
  | cons b bs ih => rw [AllDone, ih, List.forall_mem_cons]

theorem allLive_iff {bs : List (Piece α)} {f : Tally} :
    AllLive bs f ↔ ∀ b ∈ bs, b.Live f := by
  induction bs with
  | nil => simp [AllLive]
  | cons b bs ih => rw [AllLive, ih, List.forall_mem_cons, Live]

/-- A branch does not occur twice. -/
theorem head_notMem {b : Piece α} {bs : List (Piece α)} (h : (zones (b :: bs)).Nodup) : b ∉ bs := by
  intro hb
  rw [zones] at h
  exact (List.nodup_append.mp h).2.2 _ (exit_mem_ground b) _
    (mem_zones.mpr ⟨b, hb, exit_mem_ground b⟩) rfl

/-- "One and no other" in a list of branches, from head and tail. -/
theorem exists_alone_cons {R : Piece α → Prop} {f : Tally} {b : Piece α} {bs : List (Piece α)}
    (h : (zones (b :: bs)).Nodup) :
    (∃ c ∈ b :: bs, R c ∧ ∀ d ∈ b :: bs, d ≠ c → f.Untouched d.ground) ↔
      R b ∧ f.Untouched (zones bs) ∨
        f.Untouched b.ground ∧ ∃ c ∈ bs, R c ∧ ∀ d ∈ bs, d ≠ c → f.Untouched d.ground := by
  have hb := head_notMem h
  constructor
  · rintro ⟨c, hc, hR, hothers⟩
    rcases List.mem_cons.mp hc with rfl | hc
    · refine Or.inl ⟨hR, ?_⟩
      intro p hp
      obtain ⟨d, hd, hp⟩ := mem_zones.mp hp
      exact hothers d (List.mem_cons_of_mem _ hd) (fun he => hb (he ▸ hd)) p hp
    · refine Or.inr ⟨?_, c, hc, hR, fun d hd => hothers d (List.mem_cons_of_mem _ hd)⟩
      exact hothers b List.mem_cons_self fun he => hb (he ▸ hc)
  · rintro (⟨hR, hbs⟩ | ⟨hub, c, hc, hR, hothers⟩)
    · refine ⟨b, List.mem_cons_self, hR, ?_⟩
      intro d hd hne p hp
      exact hbs p (mem_zones.mpr ⟨d, (List.mem_cons.mp hd).resolve_left hne, hp⟩)
    · refine ⟨c, List.mem_cons_of_mem _ hc, hR, ?_⟩
      intro d hd hne
      rcases List.mem_cons.mp hd with rfl | hd
      · exact hub
      · exact hothers d hd hne

theorem zones_nodup_of_cons {b : Piece α} {bs : List (Piece α)} (h : (zones (b :: bs)).Nodup) :
    (zones bs).Nodup := (List.nodup_append.mp h).2.1

theorem oneDone_iff {bs : List (Piece α)} {f : Tally} (h : (zones bs).Nodup) :
    OneDone bs f ↔ ∃ b ∈ bs, (b.Done f ∧ f b.exit = (0, 1)) ∧
      ∀ c ∈ bs, c ≠ b → f.Untouched c.ground := by
  induction bs with
  | nil => simp [OneDone]
  | cons b bs ih =>
      rw [OneDone, ih (zones_nodup_of_cons h),
        exists_alone_cons (R := fun b => b.Done f ∧ f b.exit = (0, 1)) h]

theorem oneLive_iff {bs : List (Piece α)} {f : Tally} (h : (zones bs).Nodup) :
    OneLive bs f ↔ ∃ b ∈ bs, b.Live f ∧ ∀ c ∈ bs, c ≠ b → f.Untouched c.ground := by
  induction bs with
  | nil => simp [OneLive]
  | cons b bs ih =>
      rw [OneLive, ih (zones_nodup_of_cons h), exists_alone_cons (R := fun b => b.Live f) h]
      rfl

section

variable {lim : PlaceId → Option Nat} {s : Site α} {bs : List (Piece α)} {g : Gate α} {f f' : Tally}
  {P : Piece α}

theorem done_parallel :
    (Piece.parallel s bs).Done f ↔ f s.entry = (0, 1) ∧ ∀ b ∈ bs, b.Done f ∧ f b.exit = (0, 1) := by
  rw [Done, allDone_iff]

theorem busy_parallel : (Piece.parallel s bs).Busy f ↔
    f s.entry = (1, 0) ∧ f.Untouched (zones bs) ∨ f s.entry = (0, 1) ∧ ∀ b ∈ bs, b.Live f := by
  rw [Busy, allLive_iff]

theorem Branched.done_gateway (h : Branched lim s bs) : (Piece.gateway s g bs).Done f ↔
    f s.entry = (0, 1) ∧ ∃ b ∈ bs, (b.Done f ∧ f b.exit = (0, 1)) ∧
      ∀ c ∈ bs, c ≠ b → f.Untouched c.ground := by
  rw [Done, oneDone_iff h.zones_nodup]

theorem Branched.busy_gateway (h : Branched lim s bs) : (Piece.gateway s g bs).Busy f ↔
    f s.entry = (1, 0) ∧ f.Untouched (zones bs) ∨
      f s.entry = (0, 1) ∧ ∃ b ∈ bs, b.Live f ∧ ∀ c ∈ bs, c ≠ b → f.Untouched c.ground := by
  rw [Busy, oneLive_iff h.zones_nodup]

theorem untouched_branch {b : Piece α} (h : f.Untouched (zones bs)) (hb : b ∈ bs) :
    f.Untouched b.ground := h.mono fun _ hp => mem_zones.mpr ⟨b, hb, hp⟩

/-! ## Stages depend on the zone only -/

theorem eq_on_branches (hff' : ∀ p ∈ s.entry :: zones bs, f' p = f p) :
    ∀ b ∈ bs, ∀ p ∈ b.ground, f' p = f p := fun b hb p hp =>
  hff' p (List.mem_cons_of_mem _ (mem_zones.mpr ⟨b, hb, hp⟩))

theorem Placed.done_congr (hP : Placed lim P) (hff' : ∀ p ∈ P.zone, f' p = f p) (h : P.Done f) :
    P.Done f' := by
  induction P using Piece.ind with
  | task s v => exact (hff' _ List.mem_cons_self).trans h
  | sequential s P Q ihP ihQ =>
      exact ⟨ihP hP.fst (fun p hp => hff' p (List.mem_append_left _ hp)) h.1,
        ihQ hP.snd (fun p hp => hff' p (List.mem_append_right _ hp)) h.2⟩
  | parallel s bs ih =>
      rw [done_parallel] at h ⊢
      obtain ⟨hentry, hbs⟩ := h
      have hzone := eq_on_branches hff'
      refine ⟨(hff' _ List.mem_cons_self).trans hentry, fun b hb => ⟨?_, ?_⟩⟩
      · exact ih b hb (hP.parallel.branch hb)
          (fun p hp => hzone b hb p (zone_subset_ground _ hp)) (hbs b hb).1
      · exact (hzone b hb _ (exit_mem_ground b)).trans (hbs b hb).2
  | gateway s g bs ih =>
      rw [hP.gateway.done_gateway] at h ⊢
      obtain ⟨hentry, b, hb, ⟨hdone, hexit⟩, hothers⟩ := h
      have hzone := eq_on_branches hff'
      refine ⟨(hff' _ List.mem_cons_self).trans hentry, b, hb, ⟨?_, ?_⟩, ?_⟩
      · exact ih b hb (hP.gateway.branch hb)
          (fun p hp => hzone b hb p (zone_subset_ground _ hp)) hdone
      · exact (hzone b hb _ (exit_mem_ground b)).trans hexit
      · intro c hc hne
        exact (hothers c hc hne).congr (hzone c hc)
  | loop s body x n ih =>
      obtain ⟨hentry, hdone, v, hv, hexit⟩ := h
      have hbody : ∀ p ∈ body.ground, f' p = f p := fun p hp => hff' p (List.mem_cons_of_mem _ hp)
      exact ⟨(hff' _ List.mem_cons_self).trans hentry,
        ih hP.body (fun p hp => hbody p (zone_subset_ground _ hp)) hdone,
        v, hv, (hbody _ (exit_mem_ground body)).trans hexit⟩

theorem Placed.busy_congr (hP : Placed lim P) (hff' : ∀ p ∈ P.zone, f' p = f p) (h : P.Busy f) :
    P.Busy f' := by
  induction P using Piece.ind with
  | task s v => exact (hff' _ List.mem_cons_self).trans h
  | sequential s P Q ihP ihQ =>
      have hzoneP : ∀ p ∈ P.zone, f' p = f p := fun p hp => hff' p (List.mem_append_left _ hp)
      have hzoneQ : ∀ p ∈ Q.zone, f' p = f p := fun p hp => hff' p (List.mem_append_right _ hp)
      rcases h with ⟨hbusy, hfresh⟩ | ⟨hdone, hbusy⟩
      · exact Or.inl ⟨ihP hP.fst hzoneP hbusy, hfresh.congr hzoneQ⟩
      · exact Or.inr ⟨hP.fst.done_congr hzoneP hdone, ihQ hP.snd hzoneQ hbusy⟩
  | parallel s bs ih =>
      have hzone := eq_on_branches hff'
      rw [busy_parallel] at h ⊢
      rw [hff' _ List.mem_cons_self]
      refine h.imp (And.imp_right fun hfresh => ?_) (And.imp_right fun hlive b hb => ?_)
      · exact hfresh.congr fun p hp => hff' p (List.mem_cons_of_mem _ hp)
      · have hb' := hP.parallel.branch hb
        have hbzone : ∀ p ∈ b.zone, f' p = f p := fun p hp => hzone b hb p (zone_subset_ground _ hp)
        rw [Live, hzone b hb _ (exit_mem_ground b)]
        exact (hlive b hb).imp (And.imp_left (ih b hb hb' hbzone))
          (And.imp_left (hb'.done_congr hbzone))
  | gateway s g bs ih =>
      have hzone := eq_on_branches hff'
      rw [hP.gateway.busy_gateway] at h ⊢
      rw [hff' _ List.mem_cons_self]
      refine h.imp (And.imp_right fun hfresh => ?_) (And.imp_right ?_)
      · exact hfresh.congr fun p hp => hff' p (List.mem_cons_of_mem _ hp)
      · rintro ⟨b, hb, hlive, hothers⟩
        have hb' := hP.gateway.branch hb
        have hbzone : ∀ p ∈ b.zone, f' p = f p := fun p hp => hzone b hb p (zone_subset_ground _ hp)
        refine ⟨b, hb, ?_, fun c hc hne => (hothers c hc hne).congr (hzone c hc)⟩
        rw [Live, hzone b hb _ (exit_mem_ground b)]
        exact hlive.imp (And.imp_left (ih b hb hb' hbzone)) (And.imp_left (hb'.done_congr hbzone))
  | loop s body x n ih =>
      have hbody : ∀ p ∈ body.ground, f' p = f p := fun p hp => hff' p (List.mem_cons_of_mem _ hp)
      have hbodyzone : ∀ p ∈ body.zone, f' p = f p := fun p hp => hbody p (zone_subset_ground _ hp)
      rw [Busy, hff' _ List.mem_cons_self, hbody _ (exit_mem_ground body)]
      refine h.imp (And.imp_right fun hfresh => hfresh.congr hbody) (And.imp_right ?_)
      rintro ⟨v, hv, hround⟩
      exact ⟨v, hv, hround.imp (And.imp_left (ih hP.body hbodyzone))
        (And.imp_left (hP.body.done_congr hbodyzone))⟩

theorem Placed.live_congr (hP : Placed lim P) (hff' : ∀ p ∈ P.ground, f' p = f p) (h : P.Live f) :
    P.Live f' := by
  have hzone : ∀ p ∈ P.zone, f' p = f p := fun p hp => hff' p (zone_subset_ground _ hp)
  rw [Live, hff' _ (exit_mem_ground P)]
  exact h.imp (And.imp_left (hP.busy_congr hzone)) (And.imp_left (hP.done_congr hzone))

/-! ## Where tokens are -/

/-- A piece that is over holds no tokens. -/
theorem Placed.idle_of_done (hP : Placed lim P) (h : P.Done f) : ∀ p ∈ P.zone, (f p).1 = 0 := by
  induction P using Piece.ind with
  | task s v =>
      intro p hp
      obtain rfl : p = s.entry := List.mem_singleton.mp hp
      rw [show f s.entry = (0, 1) from h]
  | sequential s P Q ihP ihQ =>
      intro p hp
      rcases List.mem_append.mp hp with hp | hp
      · exact ihP hP.fst h.1 p hp
      · exact ihQ hP.snd h.2 p hp
  | parallel s bs ih =>
      rw [done_parallel] at h
      obtain ⟨hentry, hbs⟩ := h
      intro p hp
      rcases List.mem_cons.mp hp with rfl | hp
      · rw [hentry]
      obtain ⟨b, hb, hp⟩ := mem_zones.mp hp
      rcases mem_ground.mp hp with hp | rfl
      · exact ih b hb (hP.parallel.branch hb) (hbs b hb).1 p hp
      · rw [(hbs b hb).2]
  | gateway s g bs ih =>
      rw [hP.gateway.done_gateway] at h
      obtain ⟨hentry, b, hb, ⟨hdone, hexit⟩, hothers⟩ := h
      intro p hp
      rcases List.mem_cons.mp hp with rfl | hp
      · rw [hentry]
      obtain ⟨c, hc, hp⟩ := mem_zones.mp hp
      by_cases hne : c = b
      · subst hne
        rcases mem_ground.mp hp with hp | rfl
        · exact ih c hc (hP.gateway.branch hc) hdone p hp
        · rw [hexit]
      · rw [hothers c hc hne p hp]
  | loop s body x n ih =>
      obtain ⟨hentry, hdone, v, _, hexit⟩ := h
      intro p hp
      rcases List.mem_cons.mp hp with rfl | hp
      · rw [hentry]
      rcases mem_ground.mp hp with hp | rfl
      · exact ih hP.body hdone p hp
      · rw [hexit]

theorem marked_of_live (hbusy : P.Busy f → ∃ p ∈ P.zone, 0 < (f p).1) (h : P.Live f) :
    ∃ p ∈ P.ground, 0 < (f p).1 := by
  rcases h with ⟨h, _⟩ | ⟨_, hexit⟩
  · obtain ⟨p, hp, hmarked⟩ := hbusy h
    exact ⟨p, zone_subset_ground _ hp, hmarked⟩
  · exact ⟨P.exit, exit_mem_ground P, by rw [hexit]; decide⟩

/-- A piece under way holds a token. -/
theorem Placed.exists_marked (hP : Placed lim P) (h : P.Busy f) : ∃ p ∈ P.zone, 0 < (f p).1 := by
  induction P using Piece.ind with
  | task s v => exact ⟨s.entry, List.mem_cons_self, by rw [show f s.entry = (1, 0) from h]; decide⟩
  | sequential s P Q ihP ihQ =>
      rcases h with ⟨hbusy, _⟩ | ⟨_, hbusy⟩
      · obtain ⟨p, hp, hmarked⟩ := ihP hP.fst hbusy
        exact ⟨p, List.mem_append_left _ hp, hmarked⟩
      · obtain ⟨p, hp, hmarked⟩ := ihQ hP.snd hbusy
        exact ⟨p, List.mem_append_right _ hp, hmarked⟩
  | parallel s bs ih =>
      rcases busy_parallel.mp h with ⟨hentry, _⟩ | ⟨_, hlive⟩
      · exact ⟨s.entry, List.mem_cons_self, by rw [hentry]; decide⟩
      · obtain ⟨b, hb⟩ := List.exists_mem_of_ne_nil bs hP.parallel.nonempty
        obtain ⟨p, hp, hmarked⟩ := marked_of_live (ih b hb (hP.parallel.branch hb)) (hlive b hb)
        exact ⟨p, List.mem_cons_of_mem _ (mem_zones.mpr ⟨b, hb, hp⟩), hmarked⟩
  | gateway s g bs ih =>
      rcases hP.gateway.busy_gateway.mp h with ⟨hentry, _⟩ | ⟨_, b, hb, hlive, _⟩
      · exact ⟨s.entry, List.mem_cons_self, by rw [hentry]; decide⟩
      · obtain ⟨p, hp, hmarked⟩ := marked_of_live (ih b hb (hP.gateway.branch hb)) hlive
        exact ⟨p, List.mem_cons_of_mem _ (mem_zones.mpr ⟨b, hb, hp⟩), hmarked⟩
  | loop s body x n ih =>
      rcases h with ⟨hentry, _⟩ | ⟨_, v, _, ⟨hbusy, _⟩ | ⟨_, hexit⟩⟩
      · exact ⟨s.entry, List.mem_cons_self, by rw [hentry]; decide⟩
      · obtain ⟨p, hp, hmarked⟩ := ih hP.body hbusy
        exact ⟨p, List.mem_cons_of_mem _ (zone_subset_ground _ hp), hmarked⟩
      · exact ⟨body.exit, List.mem_cons_of_mem _ (exit_mem_ground body), by rw [hexit]; simp⟩

/-! ## Ready pieces -/

theorem Placed.ready_sequential {Q : Piece α} (hP : Placed lim (.sequential s P Q))
    (h : (Piece.sequential s P Q).Ready f) : P.Ready f ∧ f.Untouched Q.zone := by
  obtain ⟨hentry, hrest⟩ := h
  have hfirst : (Piece.sequential s P Q).entry = P.entry := hP.fst_entry.symm
  rw [hfirst] at hentry hrest
  refine ⟨⟨hentry, fun p hp => hrest p (List.mem_append_left _ hp)⟩, ?_⟩
  intro p hp
  apply hrest p (List.mem_append_right _ hp)
  intro he
  exact hP.notMem_fst_zone (zone_subset_ground _ hp) (he ▸ hP.fst.entry_mem_zone)

theorem Branched.ready (hbs : Branched lim s bs)
    (hrest : ∀ p ∈ s.entry :: zones bs, p ≠ s.entry → f p = (0, 0)) : f.Untouched (zones bs) := by
  intro p hp
  apply hrest p (List.mem_cons_of_mem _ hp)
  intro he
  obtain ⟨b, hb, hp⟩ := mem_zones.mp hp
  exact hbs.entry_notMem hb (he ▸ hp)

theorem Placed.ready_loop {x : α} {n : Nat} (hP : Placed lim (.loop s P x n))
    (h : (Piece.loop s P x n).Ready f) : f s.entry = (1, 0) ∧ f.Untouched P.ground := by
  refine ⟨h.1, fun p hp => h.2 p (List.mem_cons_of_mem _ hp) ?_⟩
  intro he
  exact hP.ne_entry_of_body hp he

/-- A token on the entry puts a piece under way. -/
theorem Placed.busy_of_ready (hP : Placed lim P) (h : P.Ready f) : P.Busy f := by
  induction P using Piece.ind with
  | task s v => exact h.1
  | sequential s P Q ihP _ =>
      obtain ⟨hready, hfresh⟩ := hP.ready_sequential h
      exact Or.inl ⟨ihP hP.fst hready, hfresh⟩
  | parallel s bs _ => exact busy_parallel.mpr (Or.inl ⟨h.1, hP.parallel.ready h.2⟩)
  | gateway s g bs _ => exact hP.gateway.busy_gateway.mpr (Or.inl ⟨h.1, hP.gateway.ready h.2⟩)
  | loop s body x n _ => exact Or.inl (hP.ready_loop h)

end

end Piece

end RegionNet
