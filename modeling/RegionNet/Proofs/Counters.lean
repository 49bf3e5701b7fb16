import RegionNet.Proofs.Bounds
import RegionNet.Proofs.FreeChoice
import RegionNet.Proofs.Repetition

/-!
# Counters

Tokens and visits are counted without limit here; a counter of 32 bits ends at `maxCount`, which is
also the largest bound that a loop may have. A place where a loop is decided is left once more often
than the loop repeats, so the counter of its visits runs over for this one bound, when the loop ends
after all its repetitions, and nowhere else.
-/

namespace RegionNet

variable {α : Type}

/-- The largest number that a counter of 32 bits can hold. -/
def PlaceState.maxCount : Nat := 4294967295

open PlaceState (maxCount)

/-- No loop repeats more often than a counter can count. -/
theorem Region.loopBound_le [Quantity α] {r : Region α} {n : Nat} (h : r.loopBound = some n) :
    n ≤ maxCount := by
  unfold loopBound at h
  obtain ⟨b, -, hb⟩ := Option.bind_eq_some_iff.mp h
  dsimp only at hb
  split at hb
  · next hwhole =>
      cases hb
      exact hwhole.2.2
  · cases hb

namespace Piece

variable {lim : PlaceId → Option Nat} {P : Piece α} {t : Transition α} {p : PlaceId} {n : Nat}

theorem Branched.mem_zone_of_limit {s : Site α} {bs : List (Piece α)} (h : Branched lim s bs)
    (hp : p ∈ s.entry :: zones bs) (hlimit : lim p = some n) : ∃ b ∈ bs, p ∈ b.zone := by
  have hne : ∀ {q}, lim q = none → p ≠ q := by
    rintro q hnone rfl
    exact absurd (hlimit.symm.trans hnone) (Option.some_ne_none n)
  have hzones := (List.mem_cons.mp hp).resolve_left (hne h.unlimited)
  obtain ⟨b, hb, hground⟩ := mem_zones.mp hzones
  exact ⟨b, hb, (mem_ground.mp hground).resolve_right (hne (h.fits b hb).2)⟩

/-- Where a limit stands, a loop is decided whose bound it is. -/
theorem Placed.exists_loop (hP : Placed lim P) (hp : p ∈ P.zone) (hlimit : lim p = some n) :
    ∃ s body x, Part (.loop s body x n) P ∧ p = body.exit := by
  induction P using Piece.ind with
  | task s v =>
      obtain rfl := List.mem_singleton.mp hp
      exact absurd (hlimit.symm.trans hP.fits) (Option.some_ne_none n)
  | sequential s P Q ihP ihQ =>
      rcases List.mem_append.mp hp with hp | hp
      · obtain ⟨s', body, x, hpart, he⟩ := ihP hP.fst hp
        exact ⟨s', body, x, hpart.first, he⟩
      · obtain ⟨s', body, x, hpart, he⟩ := ihQ hP.snd hp
        exact ⟨s', body, x, hpart.second, he⟩
  | parallel s bs ih =>
      obtain ⟨b, hb, hp⟩ := hP.parallel.mem_zone_of_limit hp hlimit
      obtain ⟨s', body, x, hpart, he⟩ := ih b hb (hP.parallel.branch hb) hp
      exact ⟨s', body, x, hpart.branch hb, he⟩
  | gateway s g bs ih =>
      obtain ⟨b, hb, hp⟩ := hP.gateway.mem_zone_of_limit hp hlimit
      obtain ⟨s', body, x, hpart, he⟩ := ih b hb (hP.gateway.branch hb) hp
      exact ⟨s', body, x, hpart.arm hb, he⟩
  | loop s body x k ih =>
      rcases List.mem_cons.mp hp with rfl | hp
      · exact absurd (hlimit.symm.trans hP.fits.1) (Option.some_ne_none n)
      rcases mem_ground.mp hp with hp | rfl
      · obtain ⟨s', body', x', hpart, he⟩ := ih hP.body hp
        exact ⟨s', body', x', hpart.body, he⟩
      · obtain rfl : k = n := Option.some.inj (hP.fits.2.1.symm.trans hlimit)
        exact ⟨s, body, x, .self, rfl⟩

variable [Quantity α]

/-- Once all repetitions are used up, a loop is only left. -/
theorem Placed.eq_leave {s : Site α} {body : Piece α} {x : α} {f : Tally}
    (hP : Placed lim (.loop s body x n)) (ht : t ∈ (Piece.loop s body x n).transitions)
    (ha : f.Admits lim t) (hp : body.exit ∈ t.inputs) (hvisits : n ≤ (f body.exit).2) :
    t = s.leave body x := by
  rcases List.mem_cons.mp ht with rfl | ht
  · have he : body.exit = s.entry := by simpa [Site.enter] using hp
    exact absurd he (hP.ne_entry_of_body (exit_mem_ground body))
  rcases List.mem_append.mp ht with ht | ht
  · exact absurd ((hP.body.within ht).inputs hp) hP.body.exit_notMem_zone
  rcases List.mem_pair.mp ht with rfl | rfl
  · exact absurd (ha.2 rfl _ hp n hP.fits.2.1) (Nat.not_lt.mpr hvisits)
  · rfl

end Piece

/-! ## Where counters run over -/

namespace Workflow

variable [Quantity α]

/-- The counters of the workflow of a description have room for one more token or visit whenever a
transition fires, except where a loop of the largest bound ends after all its repetitions. -/
structure Counts (w : Workflow α) (r : Region α) : Prop where
  tokens : ∀ ts m t, w.net.Run w.initial ts m → t ∈ w.net.transitions →
    w.net.tokenEnabled t m = true → ∀ x ∈ t.postset, m.tokens x.1 + x.2 ≤ maxCount
  visits : ∀ ts m t, w.net.Run w.initial ts m → t ∈ w.net.transitions →
    w.net.tokenEnabled t m = true → ∀ x ∈ t.preset,
      (m.state x.1).visits + 1 ≤ maxCount ∨
        (m.state x.1).visits = maxCount ∧ t.role = .loopExit ∧
          ∃ c ∈ r.preorder, c.kind = .loop ∧ c.id = t.regionId ∧ c.loopBound = some maxCount
  /-- Every loop of the largest bound makes a counter run over. -/
  overflow : ∀ c ∈ r.preorder, c.kind = .loop → c.loopBound = some maxCount →
    ∃ ts m t, w.net.Run w.initial ts m ∧ t ∈ w.net.transitions ∧
      w.net.tokenEnabled t m = true ∧ t.role = .loopExit ∧ t.regionId = c.id ∧
        ∃ x ∈ t.preset, maxCount < (m.state x.1).visits + 1

namespace Consists

variable {w : Workflow α} {R P : Piece α} {s : Site α} {x : α} {n : Nat} {m : Marking α}
  {t : Transition α} {f : Tally} {p : PlaceId} {ts : List (Transition α)}

open Piece

/-- Where a token is put, there was none. -/
theorem tokens_eq_zero (h : w.Consists P) (halive : Alive P f) (ht : t ∈ w.net.transitions)
    (ha : f.Admits w.net.limit t) (hp : p ∈ t.outputs) : (f p).1 = 0 := by
  have hbound := (h.bounded_of_alive (h.alive_path halive (.single ht ha)) p).1
  have htokens : (f.fire t p).1 = (f p).1 - t.inputs.count p + t.outputs.count p := rfl
  have hcount : 0 < t.outputs.count p := List.count_pos_iff.mpr hp
  have hin : p ∉ t.inputs := fun hin => (h.placed.simple (h.transitions ▸ ht)).2.2.1 hin hp
  rw [List.count_eq_zero_of_not_mem hin] at htokens
  omega

/-- A full counter of visits is that of a loop of the largest bound, which can only be left. -/
theorem exists_leave (h : w.Consists R)
    (hmax : ∀ {s P x n}, Part (.loop s P x n) R → n ≤ maxCount) (halive : Alive R f)
    (ht : t ∈ w.net.transitions) (ha : f.Admits w.net.limit t) (hp : p ∈ t.inputs)
    (hfull : maxCount ≤ (f p).2) :
    (f p).2 = maxCount ∧ ∃ s P x, Part (.loop s P x maxCount) R ∧ t = s.leave P x := by
  have hbound := (h.bounded_of_alive halive p).2
  have hmarked := ha.1 p hp
  have hpos : 0 < maxCount := by decide
  rw [h.transitions] at ht
  cases hlimit : w.net.limit p with
  | none =>
      rw [hlimit, Option.getD_none] at hbound
      omega
  | some n =>
      rw [hlimit, Option.getD_some] at hbound
      obtain ⟨s, P, x, hpart, rfl⟩ := h.placed.exists_loop ((h.placed.within ht).inputs hp) hlimit
      have hn := hmax hpart
      obtain rfl : n = maxCount := by omega
      have hP := hpart.placed h.placed
      have hown := hpart.owns h.placed ht hp (List.mem_cons_of_mem _ (exit_mem_ground P))
      exact ⟨by omega, s, P, x, hpart, hP.eq_leave hown ha hp hfull⟩

/-- Every loop can be left after all its repetitions. -/
theorem exists_run_leave (h : w.Consists R) (hnodup : R.block.ids.Nodup)
    (hpart : Part (.loop s P x n) R) :
    ∃ ts m, w.net.Run w.initial ts m ∧ w.net.tokenEnabled (s.leave P x) m = true ∧
      (m.state P.exit).visits = n := by
  have hmem : (Piece.loop s P x n).transitions ⊆ w.net.transitions :=
    h.transitions ▸ hpart.transitions_subset
  have henter : s.enter P ∈ w.net.transitions := hmem List.mem_cons_self
  obtain ⟨us, f, hpath, ha⟩ := h.placed.exists_turn h.ready h.tally_initial_exit
    (h.transitions ▸ henter)
  rw [← h.transitions] at hpath
  have hrounds : Rounds s P n 0 (f.fire (s.enter P)) :=
    hpart.rounds_of_entry h.placed hnodup (h.alive_of_path hpath).1.staged
      (h.transitions ▸ henter) ha (Transition.serves_iff.mpr ⟨rfl, rfl⟩)
  obtain ⟨vs, g, hrest, -, -, -, hexit⟩ :=
    (hpart.placed h.placed).exists_rounds (hpart.nodup_ids hnodup) hrounds n (Nat.le_refl n)
  have hall := (hpath.snoc henter ha).trans (hrest.mono hmem)
  obtain ⟨m, hrun, rfl⟩ := Net.exists_run h.plain hall h.ordered_initial rfl
  have hleave : s.leave P x ∈ w.net.transitions := hmem (by simp [Piece.transitions])
  exact ⟨_, m, hrun, (h.enabled_iff hleave).mpr (admits_leave (pos_of_eq hexit)),
    congrArg Prod.snd hexit⟩

end Consists

/-- Where the counters of a valid description's workflow run over. -/
theorem counts_of_validate {r : Region α} (h : r.validate = .ok ()) :
    ∃ w, compile r = .ok w ∧ w.Counts r := by
  obtain ⟨blk, n, hblock, hcompile, hproper, hnodup⟩ := compile_of_validate h
  obtain ⟨R, rfl, hR⟩ := exists_piece hproper
  obtain ⟨⟨k, hsound⟩, -⟩ := Region.rules_of_validate h
  -- a loop of the piece is a loop of the description, and the other way round
  have hloop : ∀ {s P x n}, Piece.Part (.loop s P x n) R →
      ∃ c ∈ r.preorder, c.kind = .loop ∧ c.id = s.head.id ∧ c.loopBound = some n := by
    intro s P x n hpart
    obtain ⟨c, hc, hblock⟩ := Region.exists_region hpart hsound hblock
    have hkind : c.kind = .loop := Region.kind_of_block hblock
    obtain ⟨s', P', x', n', d, he, hid, hbound, -⟩ :=
      Region.loop_of_block (hsound c hc) hkind hblock
    cases he
    exact ⟨c, hc, hkind, hid.symm, hbound⟩
  have hmax : ∀ {s P x n}, Piece.Part (.loop s P x n) R → n ≤ maxCount := by
    intro s P x n hpart
    obtain ⟨c, -, -, -, hbound⟩ := hloop hpart
    exact Region.loopBound_le hbound
  refine ⟨_, hcompile, ?_, ?_, ?_⟩
  · intro ts m t hrun ht he y hy
    obtain ⟨-, hpath⟩ := hrun.path hR.plain hR.ordered_initial
    obtain ⟨q, hq, rfl⟩ := List.mem_map.mp ((hR.plain t ht).2 ▸ hy)
    have hempty : m.tokens q = 0 :=
      hR.tokens_eq_zero (hR.alive_of_path hpath) ht ((hR.enabled_iff ht).mp he) hq
    change m.tokens q + 1 ≤ maxCount
    rw [hempty]
    decide
  · intro ts m t hrun ht he y hy
    obtain ⟨-, hpath⟩ := hrun.path hR.plain hR.ordered_initial
    by_cases hfull : maxCount ≤ (m.state y.1).visits
    · obtain ⟨hvisits, s, P, x, hpart, rfl⟩ := hR.exists_leave hmax (hR.alive_of_path hpath) ht
        ((hR.enabled_iff ht).mp he) (List.mem_map_of_mem hy) hfull
      exact Or.inr ⟨hvisits, rfl, hloop hpart⟩
    · exact Or.inl (Nat.lt_of_not_le hfull)
  · intro c hc hkind hbound
    obtain ⟨Q, hpart, hQ⟩ := Region.exists_part hsound hblock hc
    obtain ⟨s, P, x, n', d, rfl, hid, hbound', -⟩ :=
      Region.loop_of_block (hsound c hc) hkind hQ
    obtain rfl : n' = maxCount := Option.some.inj (hbound'.symm.trans hbound)
    obtain ⟨ts, m, hrun, he, hvisits⟩ := hR.exists_run_leave hnodup hpart
    have hleave : s.leave P x ∈ (ofBlock R.block).net.transitions := by
      rw [hR.transitions]
      exact hpart.transitions_subset (by simp [Piece.transitions])
    refine ⟨ts, m, s.leave P x, hrun, hleave, he, rfl, hid, (P.exit, 1),
      List.mem_singleton_self _, ?_⟩
    rw [hvisits]
    exact Nat.lt_succ_self _

end Workflow

/-- A loop that repeats as often as a loop may. -/
def Region.longest : Region Rat :=
  ⟨"l", .loop, none, 0, none, some [⟨"a", .task, none, 1, some [1], none, none, none⟩],
    some (.single (1 / 2)), some 4294967295⟩

theorem Region.longest_valid : Region.longest.validate = .ok () := by decide +kernel

/-- The longest loop passes, and yet the last visit to the end of its body is one too many. -/
theorem Workflow.counts_longest : Region.longest.validate = .ok () ∧
    ∃ w, Workflow.compile Region.longest = .ok w ∧ w.Counts Region.longest ∧
      ∃ ts m t, w.net.Run w.initial ts m ∧ t ∈ w.net.transitions ∧
        w.net.tokenEnabled t m = true ∧ ∃ x ∈ t.preset, maxCount < (m.state x.1).visits + 1 := by
  obtain ⟨w, hcompile, hcounts⟩ := Workflow.counts_of_validate Region.longest_valid
  obtain ⟨ts, m, t, hrun, ht, he, -, -, hover⟩ :=
    hcounts.overflow Region.longest (Region.mem_preorder_self _) rfl (by decide +kernel)
  exact ⟨Region.longest_valid, w, hcompile, hcounts, ts, m, t, hrun, ht, he, hover⟩

end RegionNet
