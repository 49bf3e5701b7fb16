import Mathlib.Data.List.Nodup
import Mathlib.Data.List.Flatten
import Mathlib.Data.List.Pairwise
import Mathlib.Data.List.Perm.Basic
import RegionNet.Proofs.Piece

/-!
# Well placed pieces

A piece is well placed if its parts are joined end to end, if loop bounds stand exactly where loops
are decided, and if no place occurs twice in it. Such a piece keeps to itself: its transitions take
only from its zone, put only on its ground, and forget only visits in its zone.
-/

namespace RegionNet

namespace Piece

variable {α : Type}

mutual

/-- The parts of a piece are joined end to end, and the places where loops are decided, and no
others, bear the bounds of these loops. -/
def Fits (lim : PlaceId → Option Nat) : Piece α → Prop
  | .task s _ => lim s.entry = none
  | .sequential s one two =>
    one.entry = s.entry ∧ two.entry = one.exit ∧ two.exit = s.exit ∧ one.Fits lim ∧ two.Fits lim
  | .parallel s bs => lim s.entry = none ∧ bs ≠ [] ∧ FitAll lim bs
  | .gateway s _ bs => lim s.entry = none ∧ bs ≠ [] ∧ FitAll lim bs
  | .loop s body _ n => lim s.entry = none ∧ lim body.exit = some n ∧ 0 < n ∧ body.Fits lim

def FitAll (lim : PlaceId → Option Nat) : List (Piece α) → Prop
  | [] => True
  | b :: bs => (b.Fits lim ∧ lim b.exit = none) ∧ FitAll lim bs

end

theorem fitAll_iff {lim : PlaceId → Option Nat} {bs : List (Piece α)} :
    FitAll lim bs ↔ ∀ b ∈ bs, b.Fits lim ∧ lim b.exit = none := by
  induction bs with
  | nil => simp [FitAll]
  | cons b bs ih => rw [FitAll, ih, List.forall_mem_cons]

theorem Fits.entry_mem_zone {lim : PlaceId → Option Nat} {P : Piece α} (h : P.Fits lim) :
    P.entry ∈ P.zone := by
  induction P using Piece.ind with
  | task s v => exact List.mem_singleton_self _
  | sequential s one two ih₁ _ =>
      rw [zone, entry, site, ← h.1]
      exact List.mem_append_left _ (ih₁ h.2.2.2.1)
  | parallel s bs _ => exact List.mem_cons_self
  | gateway s g bs _ => exact List.mem_cons_self
  | loop s body p n _ => exact List.mem_cons_self

/-! ## The places of a piece are its entry and those that it adds -/

theorem zones_perm_addedAll {bs : List (Piece α)}
    (h : ∀ b ∈ bs, b.ground.Perm (b.entry :: b.added)) :
    (zones bs).Perm (bs.map entry ++ addedAll bs) := by
  induction bs with
  | nil => exact List.Perm.refl _
  | cons b bs ih =>
      have hb := h b List.mem_cons_self
      have hbs := ih fun c hc => h c (List.mem_cons_of_mem _ hc)
      rw [zones, addedAll, List.map_cons, List.cons_append]
      refine (hb.append hbs).trans (List.Perm.cons _ ?_)
      exact List.perm_append_comm_assoc _ _ _

theorem zones_perm_addedArms {bs : List (Piece α)}
    (h : ∀ b ∈ bs, b.ground.Perm (b.entry :: b.added)) : (zones bs).Perm (addedArms bs) := by
  induction bs with
  | nil => exact List.Perm.refl _
  | cons b bs ih =>
      have hb := h b List.mem_cons_self
      have hbs := ih fun c hc => h c (List.mem_cons_of_mem _ hc)
      exact hb.append hbs

theorem Fits.ground_perm {lim : PlaceId → Option Nat} {P : Piece α} (h : P.Fits lim) :
    P.ground.Perm (P.entry :: P.added) := by
  induction P using Piece.ind with
  | task s v => exact List.Perm.refl _
  | sequential s one two ih₁ ih₂ =>
      obtain ⟨h₁, h₂, h₃, hone, htwo⟩ := h
      have hground : (Piece.sequential s one two).ground = one.zone ++ two.ground := by
        simp [ground, zone, exit, site, ← h₃]
      have hentry : (Piece.sequential s one two).entry = one.entry := h₁.symm
      rw [hground, hentry, added]
      calc (one.zone ++ two.ground).Perm (one.zone ++ two.entry :: two.added) :=
            (ih₂ htwo).append_left _
        _ = one.ground ++ two.added := by rw [h₂, ground, List.append_assoc]; rfl
        _ |>.Perm (one.entry :: (one.added ++ two.added)) := (ih₁ hone).append_right _
  | parallel s bs ih =>
      have hbs := zones_perm_addedAll fun b hb => ih b hb (fitAll_iff.mp h.2.2 b hb).1
      exact (hbs.append_right [s.exit]).cons s.entry
  | gateway s g bs ih =>
      have hbs := zones_perm_addedArms fun b hb => ih b hb (fitAll_iff.mp h.2.2 b hb).1
      exact ((List.perm_append_singleton s.exit (zones bs)).trans (hbs.cons s.exit)).cons s.entry
  | loop s body p n ih =>
      exact ((ih h.2.2.2).append_right [s.exit]).cons s.entry

/-! ## Disjointness -/

/-- A piece whose parts fit together and in which no place occurs twice. -/
structure Placed (lim : PlaceId → Option Nat) (P : Piece α) : Prop where
  fits : P.Fits lim
  nodup : P.ground.Nodup

namespace Placed

variable {lim : PlaceId → Option Nat} {s : Site α} {P Q : Piece α} {x : α} {n : Nat}
  {p : PlaceId}

theorem exit_notMem_zone (h : Placed lim P) : P.exit ∉ P.zone := fun hz =>
  (List.nodup_append.mp h.nodup).2.2 _ hz _ (List.mem_singleton_self _) rfl

theorem entry_mem_zone (h : Placed lim P) : P.entry ∈ P.zone :=
  h.fits.entry_mem_zone

theorem entry_mem_ground (h : Placed lim P) : P.entry ∈ P.ground :=
  zone_subset_ground _ h.entry_mem_zone

theorem ne_exit (h : Placed lim P) (hp : p ∈ P.zone) : p ≠ P.exit :=
  fun he => h.exit_notMem_zone (he ▸ hp)

/-! ### Sequences -/

theorem sequential_ground (h : Placed lim (.sequential s P Q)) :
    (Piece.sequential s P Q).ground = P.zone ++ Q.ground := by
  obtain ⟨_, _, hexit, _⟩ := h.fits
  simp [ground, zone, exit, site, ← hexit]

theorem fst (h : Placed lim (.sequential s P Q)) : Placed lim P := by
  obtain ⟨_, hjoint, _, hP, hQ⟩ := h.fits
  refine ⟨hP, ?_⟩
  have hnodup := h.nodup
  rw [h.sequential_ground, List.nodup_append] at hnodup
  obtain ⟨hzone, _, hne⟩ := hnodup
  refine List.nodup_append.mpr ⟨hzone, List.nodup_singleton _, ?_⟩
  intro a ha b hb
  rw [List.mem_singleton] at hb
  subst hb
  exact hne a ha _ (zone_subset_ground _ (hjoint ▸ hQ.entry_mem_zone))

theorem snd (h : Placed lim (.sequential s P Q)) : Placed lim Q := by
  refine ⟨h.fits.2.2.2.2, ?_⟩
  have hnodup := h.nodup
  rw [h.sequential_ground, List.nodup_append] at hnodup
  exact hnodup.2.1

theorem fst_entry (h : Placed lim (.sequential s P Q)) : P.entry = s.entry := h.fits.1

theorem snd_entry (h : Placed lim (.sequential s P Q)) : Q.entry = P.exit := h.fits.2.1

theorem snd_exit (h : Placed lim (.sequential s P Q)) : Q.exit = s.exit := h.fits.2.2.1

theorem notMem_snd_ground (h : Placed lim (.sequential s P Q)) (hp : p ∈ P.zone) :
    p ∉ Q.ground := by
  intro hp'
  have hnodup := h.nodup
  rw [h.sequential_ground, List.nodup_append] at hnodup
  exact hnodup.2.2 p hp p hp' rfl

theorem notMem_fst_zone (h : Placed lim (.sequential s P Q)) (hp : p ∈ Q.ground) :
    p ∉ P.zone := fun hp' => h.notMem_snd_ground hp' hp

/-- The two parts of a sequence meet only where the first one ends and the second one starts. -/
theorem notMem_fst_ground (h : Placed lim (.sequential s P Q)) (hp : p ∈ Q.ground)
    (hne : p ≠ Q.entry) : p ∉ P.ground := by
  intro hp'
  rcases mem_ground.mp hp' with hz | rfl
  · exact h.notMem_fst_zone hp hz
  · exact hne h.snd_entry.symm

/-! ### Loops -/

theorem body (h : Placed lim (.loop s P x n)) : Placed lim P := by
  refine ⟨h.fits.2.2.2, ?_⟩
  have hnodup : (s.entry :: (P.ground ++ [s.exit])).Nodup := h.nodup
  exact (List.nodup_append.mp hnodup.of_cons).1

theorem entry_notMem_body (h : Placed lim (.loop s P x n)) : s.entry ∉ P.ground := by
  have hnodup : (s.entry :: (P.ground ++ [s.exit])).Nodup := h.nodup
  intro hp
  exact (List.nodup_cons.mp hnodup).1 (List.mem_append_left _ hp)

theorem exit_notMem_body (h : Placed lim (.loop s P x n)) : s.exit ∉ P.ground := by
  have hnodup : (s.entry :: (P.ground ++ [s.exit])).Nodup := h.nodup
  intro hp
  exact (List.nodup_append.mp hnodup.of_cons).2.2 _ hp _ (List.mem_singleton_self _) rfl

theorem ne_entry_of_body (h : Placed lim (.loop s P x n)) (hp : p ∈ P.ground) : p ≠ s.entry :=
  fun he => h.entry_notMem_body (he ▸ hp)

theorem ne_exit_of_body (h : Placed lim (.loop s P x n)) (hp : p ∈ P.ground) : p ≠ s.exit :=
  fun he => h.exit_notMem_body (he ▸ hp)

theorem entry_ne_exit (h : Placed lim P) : P.entry ≠ P.exit := fun he =>
  h.exit_notMem_zone (he ▸ h.entry_mem_zone)

end Placed

/-! ### Branches -/

/-- Branches that are well placed between the places where they part and meet. -/
structure Branched (lim : PlaceId → Option Nat) (s : Site α) (bs : List (Piece α)) : Prop where
  unlimited : lim s.entry = none
  nonempty : bs ≠ []
  fits : ∀ b ∈ bs, b.Fits lim ∧ lim b.exit = none
  nodup : (s.entry :: (zones bs ++ [s.exit])).Nodup

variable {lim : PlaceId → Option Nat} {s : Site α} {b c : Piece α} {bs : List (Piece α)}
  {g : Gate α} {p : PlaceId}

theorem Placed.parallel (h : Placed lim (.parallel s bs)) : Branched lim s bs :=
  ⟨h.fits.1, h.fits.2.1, fitAll_iff.mp h.fits.2.2, h.nodup⟩

theorem Placed.gateway (h : Placed lim (.gateway s g bs)) : Branched lim s bs :=
  ⟨h.fits.1, h.fits.2.1, fitAll_iff.mp h.fits.2.2, h.nodup⟩

/-- Different branches share no place. -/
theorem notMem_ground_of_ne (h : (zones bs).Nodup) (hb : b ∈ bs) (hc : c ∈ bs) (hne : c ≠ b)
    (hp : p ∈ b.ground) : p ∉ c.ground := by
  intro hp'
  rw [zones_eq_flatMap, List.nodup_flatMap] at h
  have : Std.Symm (Function.onFun List.Disjoint (@ground α)) := ⟨fun _ _ hd _ hc hb => hd hb hc⟩
  exact h.2.forall hb hc hne.symm hp hp'

namespace Branched

theorem zones_nodup (h : Branched lim s bs) : (zones bs).Nodup :=
  (List.nodup_append.mp h.nodup.of_cons).1

theorem branch (h : Branched lim s bs) (hb : b ∈ bs) : Placed lim b := by
  refine ⟨(h.fits b hb).1, ?_⟩
  have hnodup := h.zones_nodup
  rw [zones_eq_flatMap, List.nodup_flatMap] at hnodup
  exact hnodup.1 b hb

theorem entry_notMem (h : Branched lim s bs) (hb : b ∈ bs) : s.entry ∉ b.ground := fun hp =>
  (List.nodup_cons.mp h.nodup).1 (List.mem_append_left _ (mem_zones.mpr ⟨b, hb, hp⟩))

theorem exit_notMem (h : Branched lim s bs) (hb : b ∈ bs) : s.exit ∉ b.ground := fun hp =>
  (List.nodup_append.mp h.nodup.of_cons).2.2 _ (mem_zones.mpr ⟨b, hb, hp⟩) _
    (List.mem_singleton_self _) rfl

theorem ne_entry (h : Branched lim s bs) (hb : b ∈ bs) (hp : p ∈ b.ground) : p ≠ s.entry :=
  fun he => h.entry_notMem hb (he ▸ hp)

theorem ne_exit (h : Branched lim s bs) (hb : b ∈ bs) (hp : p ∈ b.ground) : p ≠ s.exit :=
  fun he => h.exit_notMem hb (he ▸ hp)

theorem entry_ne_exit (h : Branched lim s bs) : s.entry ≠ s.exit := fun he =>
  (List.nodup_cons.mp h.nodup).1 (he ▸ List.mem_append_right _ (List.mem_singleton_self _))

theorem ne_of_ne (h : Branched lim s bs) (hb : b ∈ bs) (hc : c ∈ bs) (hne : c ≠ b) {q : PlaceId}
    (hp : p ∈ c.ground) (hq : q ∈ b.ground) : p ≠ q :=
  fun he => notMem_ground_of_ne h.zones_nodup hb hc hne hq (he ▸ hp)

theorem notMem_of_ne (h : Branched lim s bs) (hb : b ∈ bs) (hc : c ∈ bs) (hne : c ≠ b)
    (hp : p ∈ b.ground) : p ∉ c.ground := notMem_ground_of_ne h.zones_nodup hb hc hne hp

/-- Branches are left from their exits, which are in no zone. -/
theorem ne_exit_of_zone (h : Branched lim s bs) (hb : b ∈ bs) (hc : c ∈ bs) (hp : p ∈ b.zone) :
    p ≠ c.exit := by
  by_cases hcb : c = b
  · rw [hcb]
    exact (h.branch hb).ne_exit hp
  · exact (h.ne_of_ne hb hc hcb (exit_mem_ground c) (zone_subset_ground _ hp)).symm

/-- A place in the zone of one branch is in that of no other. -/
theorem eq_of_zones (h : Branched lim s bs) (hb : b ∈ bs) (hc : c ∈ bs) (hpb : p ∈ b.zone)
    (hpc : p ∈ c.zone) : c = b := by
  by_contra hne
  exact h.notMem_of_ne hb hc hne (zone_subset_ground _ hpb) (zone_subset_ground _ hpc)

theorem eq_of_exits (h : Branched lim s bs) (hb : b ∈ bs) (hc : c ∈ bs)
    (he : b.exit = c.exit) : c = b := by
  by_contra hne
  exact h.notMem_of_ne hb hc hne (exit_mem_ground b) (he ▸ exit_mem_ground c)

end Branched

/-! ## Where transitions take, put and forget -/

@[simp]
theorem transition_inputs (w : Wiring α) (n : Nat) (k : Kind) (h : Head α) :
    (w.transition n k h).inputs = w.inputs := by
  simp [Wiring.transition, Transition.inputs, Function.comp_def]

@[simp]
theorem transition_outputs (w : Wiring α) (n : Nat) (k : Kind) (h : Head α) :
    (w.transition n k h).outputs = w.outputs := by
  simp [Wiring.transition, Transition.outputs, Function.comp_def]

@[simp]
theorem transition_resetVisits (w : Wiring α) (n : Nat) (k : Kind) (h : Head α) :
    (w.transition n k h).resetVisits = w.resets := rfl

/-- A loop forgets exactly the visits in the zone of its body. -/
theorem mem_back_resetVisits {body : Piece α} {x : α} (h : Placed lim body) :
    p ∈ (s.back body x).resetVisits ↔ p ∈ body.zone := by
  simp only [Site.back, transition_resetVisits, List.mem_filter, bne_iff_ne]
  rw [← h.fits.ground_perm.mem_iff, mem_ground]
  constructor
  · rintro ⟨hz | he, hne⟩
    · exact hz
    · exact absurd he hne
  · intro hz
    exact ⟨Or.inl hz, fun he => h.exit_notMem_zone (he ▸ hz)⟩

/-- The transition takes from the zone of a piece, one token from each of at least one place, puts
on its ground and forgets in its zone. -/
structure Within (P : Piece α) (t : Transition α) : Prop where
  preset : t.preset = t.inputs.map (·, 1)
  postset : t.postset = t.outputs.map (·, 1)
  takes : t.inputs ≠ []
  inputs : t.inputs ⊆ P.zone
  outputs : t.outputs ⊆ P.ground
  resets : t.resetVisits ⊆ P.zone

theorem within_transition {P : Piece α} {w : Wiring α} {n : Nat} {k : Kind} {h : Head α}
    (htakes : w.inputs ≠ []) (hin : w.inputs ⊆ P.zone) (hout : w.outputs ⊆ P.ground)
    (hresets : w.resets ⊆ P.zone) : Within P (w.transition n k h) where
  preset := by rw [transition_inputs]; rfl
  postset := by rw [transition_outputs]; rfl
  takes := by simpa using htakes
  inputs := by simpa using hin
  outputs := by simpa using hout
  resets := hresets

theorem Within.mono {P Q : Piece α} {t : Transition α} (h : Within P t) (hzone : P.zone ⊆ Q.zone)
    (hground : P.ground ⊆ Q.ground) : Within Q t :=
  { h with
    inputs := List.Subset.trans h.inputs hzone
    outputs := List.Subset.trans h.outputs hground
    resets := List.Subset.trans h.resets hzone }

theorem Within.branch {t : Transition α} {s : Site α} {bs : List (Piece α)} {P : Piece α}
    (h : Within b t) (hb : b ∈ bs) (hzone : P.zone = s.entry :: zones bs) : Within P t := by
  have hsub : b.ground ⊆ P.zone := by
    intro p hp
    rw [hzone]
    exact List.mem_cons_of_mem _ (mem_zones.mpr ⟨b, hb, hp⟩)
  exact h.mono (List.Subset.trans (zone_subset_ground _) hsub)
    (List.Subset.trans hsub (zone_subset_ground _))

theorem Placed.within [Quantity α] {P : Piece α} (h : Placed lim P) {t : Transition α}
    (ht : t ∈ P.transitions) : Within P t := by
  induction P using Piece.ind with
  | task s v =>
      obtain rfl : t = s.run := List.mem_singleton.mp ht
      exact within_transition (by simp) (by simp [zone]) (by simp [ground, exit, site]) (by simp)
  | sequential s P Q ihP ihQ =>
      have hQ : Q.ground ⊆ (Piece.sequential s P Q).ground := by
        rw [h.sequential_ground]
        exact List.subset_append_right _ _
      have hP : P.ground ⊆ (Piece.sequential s P Q).ground := by
        intro p hp
        rcases mem_ground.mp hp with hz | rfl
        · exact zone_subset_ground _ (List.mem_append_left _ hz)
        · exact hQ (zone_subset_ground _ (h.snd_entry ▸ h.snd.entry_mem_zone))
      rcases List.mem_append.mp ht with ht | ht
      · exact (ihP h.fst ht).mono (List.subset_append_left _ _) hP
      · exact (ihQ h.snd ht).mono (List.subset_append_right _ _) hQ
  | parallel s bs ih =>
      have hentry : ∀ b ∈ bs, b.entry ∈ zones bs := fun b hb =>
        mem_zones.mpr ⟨b, hb, zone_subset_ground _ (h.parallel.branch hb).entry_mem_zone⟩
      have hexit : ∀ b ∈ bs, b.exit ∈ zones bs := fun b hb =>
        mem_zones.mpr ⟨b, hb, exit_mem_ground b⟩
      rcases List.mem_cons.mp ht with rfl | ht
      · refine within_transition (by simp) (by simp [zone]) ?_ (by simp)
        intro p hp
        obtain ⟨b, hb, rfl⟩ := List.mem_map.mp hp
        exact zone_subset_ground _ (List.mem_cons_of_mem _ (hentry b hb))
      rcases List.mem_append.mp ht with ht | ht
      · obtain ⟨b, hb, ht⟩ := mem_transitionsAll.mp ht
        exact (ih b hb (h.parallel.branch hb) ht).branch hb rfl
      · obtain rfl : t = s.join bs := List.mem_singleton.mp ht
        refine within_transition ?_ ?_ (by simp [ground, exit, site]) (by simp)
        · intro he
          exact h.parallel.nonempty (List.map_eq_nil_iff.mp he)
        · intro p hp
          obtain ⟨b, hb, rfl⟩ := List.mem_map.mp hp
          exact List.mem_cons_of_mem _ (hexit b hb)
  | gateway s g bs ih =>
      obtain ⟨j, b, hj, ht⟩ := mem_arms.mp ht
      have hb : b ∈ bs := List.mem_of_getElem? hj
      have hentry : b.entry ∈ zones bs :=
        mem_zones.mpr ⟨b, hb, zone_subset_ground _ (h.gateway.branch hb).entry_mem_zone⟩
      have hexit : b.exit ∈ zones bs := mem_zones.mpr ⟨b, hb, exit_mem_ground b⟩
      rcases ht with rfl | ht | rfl
      · exact within_transition (by simp) (by simp [zone]) (by simp [ground, zone, hentry])
          (by simp)
      · exact (ih b hb (h.gateway.branch hb) ht).branch hb rfl
      · exact within_transition (by simp) (by simp [zone, hexit]) (by simp [ground, exit, site])
          (by simp)
  | loop s body x n ih =>
      have hentry : body.entry ∈ body.zone := h.body.entry_mem_zone
      have hzone : body.ground ⊆ (Piece.loop s body x n).zone := List.subset_cons_self _ _
      rcases List.mem_cons.mp ht with rfl | ht
      · exact within_transition (by simp) (by simp [zone]) (by simp [ground, zone, hentry])
          (by simp)
      rcases List.mem_append.mp ht with ht | ht
      · exact (ih h.body ht).mono (List.Subset.trans (zone_subset_ground _) hzone)
          (List.Subset.trans hzone (zone_subset_ground _))
      rcases List.mem_cons.mp ht with rfl | ht
      · refine within_transition (by simp) (by simp [zone]) (by simp [ground, zone, hentry]) ?_
        intro p hp
        exact hzone (zone_subset_ground _ ((mem_back_resetVisits (s := s) (x := x) h.body).mp hp))
      · obtain rfl : t = s.leave body x := List.mem_singleton.mp ht
        exact within_transition (by simp) (by simp [zone]) (by simp [ground, exit, site]) (by simp)

end Piece

end RegionNet
