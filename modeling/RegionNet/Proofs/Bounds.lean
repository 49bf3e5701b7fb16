import RegionNet.Proofs.Soundness

/-!
# Bounds

The nets of valid process descriptions are safe: no place ever holds two tokens, and visits stay
within the limits of the loops, whether or not time passes between the moves. A visit is counted
when the token leaves, so a place that still holds it has one visit less to its credit; `Bounded`
counts tokens and visits together.
-/

namespace RegionNet

variable {α : Type}

namespace Piece

variable {lim : PlaceId → Option Nat} {f : Tally} {P : Piece α} {s : Site α} {bs : List (Piece α)}
  {p : PlaceId}

/-- At most one token, and together with its visits at most one more than the limit; a place
without a limit counts as one with limit zero. -/
def Bounded (lim : PlaceId → Option Nat) (f : Tally) (p : PlaceId) : Prop :=
  (f p).1 ≤ 1 ∧ (f p).2 + (f p).1 ≤ (lim p).getD 0 + 1

theorem bounded_of_eq {k v : Nat} (h : f p = (k, v)) (hk : k ≤ 1)
    (hv : v + k ≤ (lim p).getD 0 + 1) : Bounded lim f p := by
  rw [Bounded, h]
  exact ⟨hk, hv⟩

theorem bounded_of_untouched {ps : List PlaceId} (h : f.Untouched ps) :
    ∀ p ∈ ps, Bounded lim f p := fun p hp => bounded_of_eq (h p hp) (by omega) (by omega)

theorem bounded_of_ground {v : Nat} (hzone : ∀ p ∈ P.zone, Bounded lim f p) {k : Nat}
    (hexit : f P.exit = (k, v)) (hk : k ≤ 1) (hv : v + k ≤ (lim P.exit).getD 0 + 1) :
    ∀ p ∈ P.ground, Bounded lim f p := by
  intro p hp
  rcases mem_ground.mp hp with hp | rfl
  · exact hzone p hp
  · exact bounded_of_eq hexit hk hv

theorem Branched.bounded {k v : Nat} (hentry : f s.entry = (k, v)) (hkv : v + k ≤ 1)
    (hbs : ∀ b ∈ bs, ∀ p ∈ b.ground, Bounded lim f p) :
    ∀ p ∈ s.entry :: zones bs, Bounded lim f p := by
  intro p hp
  rcases List.mem_cons.mp hp with rfl | hp
  · exact bounded_of_eq hentry (by omega) (by omega)
  · obtain ⟨b, hb, hp⟩ := mem_zones.mp hp
    exact hbs b hb p hp

theorem Placed.bounded_of_done (hP : Placed lim P) (h : P.Done f) :
    ∀ p ∈ P.zone, Bounded lim f p := by
  induction P using Piece.ind with
  | task s v =>
      intro p hp
      obtain rfl := List.mem_singleton.mp hp
      exact bounded_of_eq h (by omega) (by omega)
  | sequential s P Q ihP ihQ =>
      intro p hp
      rcases List.mem_append.mp hp with hp | hp
      · exact ihP hP.fst h.1 p hp
      · exact ihQ hP.snd h.2 p hp
  | parallel s bs ih =>
      obtain ⟨hentry, hbs⟩ := done_parallel.mp h
      apply Branched.bounded hentry (by omega)
      intro b hb
      exact bounded_of_ground (ih b hb (hP.parallel.branch hb) (hbs b hb).1) (hbs b hb).2
        (by omega) (by omega)
  | gateway s g bs ih =>
      obtain ⟨hentry, b, hb, ⟨hdone, hexit⟩, hothers⟩ := hP.gateway.done_gateway.mp h
      apply Branched.bounded hentry (by omega)
      intro c hc
      by_cases hcb : c = b
      · rw [hcb]
        exact bounded_of_ground (ih b hb (hP.gateway.branch hb) hdone) hexit (by omega) (by omega)
      · exact bounded_of_untouched (hothers c hc hcb)
  | loop s body x n ih =>
      obtain ⟨hentry, hdone, v, hv, hexit⟩ := h
      have hlimit : lim body.exit = some n := hP.fits.2.1
      refine List.forall_mem_cons.mpr ⟨bounded_of_eq hentry (by omega) (by omega), ?_⟩
      refine bounded_of_ground (ih hP.body hdone) hexit (by omega) ?_
      rw [hlimit]
      exact Nat.succ_le_succ hv

theorem bounded_of_live (hlim : (lim P.exit).getD 0 = 0)
    (hbusy : P.Busy f → ∀ p ∈ P.zone, Bounded lim f p)
    (hdone : P.Done f → ∀ p ∈ P.zone, Bounded lim f p) (h : P.Live f) :
    ∀ p ∈ P.ground, Bounded lim f p := by
  rcases h with ⟨h, hexit⟩ | ⟨h, hexit⟩
  · exact bounded_of_ground (hbusy h) hexit (by omega) (by omega)
  · exact bounded_of_ground (hdone h) hexit (by omega) (by omega)

theorem Placed.bounded_of_busy (hP : Placed lim P) (h : P.Busy f) :
    ∀ p ∈ P.zone, Bounded lim f p := by
  -- induction over the piece; a part that is not under way is over or was not touched
  induction P using Piece.ind with
  | task s v =>
      intro p hp
      obtain rfl := List.mem_singleton.mp hp
      exact bounded_of_eq h (by omega) (by omega)
  | sequential s P Q ihP ihQ =>
      intro p hp
      rcases h with ⟨hbusy, hfresh⟩ | ⟨hdone, hbusy⟩
      · rcases List.mem_append.mp hp with hp | hp
        · exact ihP hP.fst hbusy p hp
        · exact bounded_of_untouched hfresh p hp
      · rcases List.mem_append.mp hp with hp | hp
        · exact hP.fst.bounded_of_done hdone p hp
        · exact ihQ hP.snd hbusy p hp
  | parallel s bs ih =>
      rcases busy_parallel.mp h with ⟨hentry, hfresh⟩ | ⟨hentry, hlive⟩
      · exact Branched.bounded hentry (by omega) fun b hb =>
          bounded_of_untouched (untouched_branch hfresh hb)
      · apply Branched.bounded hentry (by omega)
        intro b hb
        have hb' := hP.parallel.branch hb
        exact bounded_of_live (by rw [(hP.parallel.fits b hb).2]; rfl) (ih b hb hb')
          hb'.bounded_of_done (hlive b hb)
  | gateway s g bs ih =>
      rcases hP.gateway.busy_gateway.mp h with ⟨hentry, hfresh⟩ | ⟨hentry, b, hb, hlive, hothers⟩
      · exact Branched.bounded hentry (by omega) fun b hb =>
          bounded_of_untouched (untouched_branch hfresh hb)
      · apply Branched.bounded hentry (by omega)
        intro c hc
        by_cases hcb : c = b
        · have hb' := hP.gateway.branch hb
          rw [hcb]
          exact bounded_of_live (by rw [(hP.gateway.fits b hb).2]; rfl) (ih b hb hb')
            hb'.bounded_of_done hlive
        · exact bounded_of_untouched (hothers c hc hcb)
  | loop s body x n ih =>
      have hlimit : lim body.exit = some n := hP.fits.2.1
      have hround : ∀ {k v : Nat}, v ≤ n → k ≤ 1 → v + k ≤ (lim body.exit).getD 0 + 1 := by
        intro k v hv hk
        rw [hlimit]
        exact Nat.add_le_add hv hk
      rcases h with ⟨hentry, hfresh⟩ | ⟨hentry, v, hv, ⟨hbusy, hexit⟩ | ⟨hdone, hexit⟩⟩
      · refine List.forall_mem_cons.mpr ⟨bounded_of_eq hentry (by omega) (by omega), ?_⟩
        exact bounded_of_untouched hfresh
      · refine List.forall_mem_cons.mpr ⟨bounded_of_eq hentry (by omega) (by omega), ?_⟩
        exact bounded_of_ground (ih hP.body hbusy) hexit (by omega) (hround hv (by omega))
      · refine List.forall_mem_cons.mpr ⟨bounded_of_eq hentry (by omega) (by omega), ?_⟩
        exact bounded_of_ground (hP.body.bounded_of_done hdone) hexit (by omega)
          (hround hv (by omega))

end Piece

/-! ## Safeness -/

/-- At most one token on each place, and visits within the limits, in all that moves and rest lead
to from the initial marking. -/
structure Workflow.Safe [Quantity α] (w : Workflow α) : Prop where
  token : ∀ m, w.net.Reaches w.initial m → ∀ p, m.tokens p ≤ 1
  /-- A loop is decided once more often than it repeats. -/
  limited : ∀ m, w.net.Reaches w.initial m → ∀ p n, w.net.limit p = some n →
    (m.state p).visits ≤ n + 1 ∧ (0 < m.tokens p → (m.state p).visits ≤ n)
  unlimited : ∀ m, w.net.Reaches w.initial m → ∀ p, w.net.limit p = none →
    (m.state p).visits ≤ 1 ∧ (0 < m.tokens p → (m.state p).visits = 0)

theorem Workflow.Consists.bounded_of_alive [Quantity α] {w : Workflow α} {P : Piece α}
    (h : w.Consists P) {f : Tally} (halive : Alive P f) (p : PlaceId) :
    Piece.Bounded w.net.limit f p := by
  obtain ⟨hlive, helse⟩ := halive
  by_cases hp : p ∈ P.ground
  · exact Piece.bounded_of_live (by rw [h.unlimited]; rfl) h.placed.bounded_of_busy
      h.placed.bounded_of_done hlive p hp
  · exact Piece.bounded_of_eq (helse p hp) (by omega) (by omega)

theorem Workflow.Consists.bounded [Quantity α] {w : Workflow α} {P : Piece α} (h : w.Consists P)
    {m : Marking α} (hreach : w.net.Reaches w.initial m) (p : PlaceId) :
    Piece.Bounded w.net.limit m.tally p := by
  obtain ⟨-, ts, hpath⟩ := hreach.wanders.path h.plain h.ordered_initial
  exact h.bounded_of_alive (h.alive_of_path hpath) p

/-- The net of every valid description is safe. -/
theorem Workflow.safe_of_validate [Quantity α] {r : Region α} (h : r.validate = .ok ()) :
    ∃ w, Workflow.compile r = .ok w ∧ w.Safe := by
  obtain ⟨blk, n, -, hcompile, hproper, -⟩ := Workflow.compile_of_validate h
  obtain ⟨P, -, hP⟩ := Workflow.exists_piece hproper
  refine ⟨_, hcompile, fun m hreach p => (hP.bounded hreach p).1, ?_, ?_⟩
  · intro m hreach p k hk
    obtain ⟨-, hvisits⟩ := hP.bounded hreach p
    rw [hk, Option.getD_some] at hvisits
    change (m.state p).visits + m.tokens p ≤ k + 1 at hvisits
    omega
  · intro m hreach p hnone
    obtain ⟨-, hvisits⟩ := hP.bounded hreach p
    rw [hnone, Option.getD_none] at hvisits
    change (m.state p).visits + m.tokens p ≤ 0 + 1 at hvisits
    omega

theorem Workflow.safe_sample : ∃ w, Workflow.compile Region.sample = .ok w ∧ w.Safe :=
  Workflow.safe_of_validate Region.sample_valid

end RegionNet
