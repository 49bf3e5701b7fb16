import Mathlib
import RegionNet.Proofs.Conduct
import RegionNet.Proofs.Delay
import RegionNet.Proofs.Nesting
import RegionNet.Proofs.Odds

/-!
# Shares and amounts

The numbers of a valid description are in range, and so are the numbers of its net. Branches and
loops have probabilities from zero to one, and the impacts of a task are not negative; therefore
every transition has a probability from zero to one (`Consists.probability_mem`), and what a token
costs when it is taken is not negative (`Consists.impactsAt_nonneg`).
-/

namespace RegionNet

theorem Quantity.sum_eq (xs : List Rat) : Quantity.sum xs = xs.sum := by
  cases xs with
  | nil => rfl
  | cons x xs =>
      rw [List.sum_eq_foldl, List.foldl_cons, zero_add]
      rfl

/-! ## Descriptions -/

namespace Region

variable {c : Region Rat} {n : Nat} {hd : Head Rat} {bs : List (Block Rat)} {ps : List Rat}

theorem between_of_isShare {p : Rat} (h : isShare p = true) : 0 ≤ p ∧ p ≤ 1 := by
  simpa [isShare, Quantity.isFinite] using h

theorem nonneg_of_isAmount {x : Rat} (h : isAmount x = true) : 0 ≤ x := by
  simpa [isAmount, Quantity.isFinite] using h

/-- Each branch has a probability, and not all of them are zero. -/
structure Portions (n : Nat) (ps : List Rat) : Prop where
  length_eq : ps.length = n
  between : ∀ p ∈ ps, 0 ≤ p ∧ p ≤ 1
  sum_pos : 0 < ps.sum

theorem portions_of_branchFlaw {kind : Kind} (h : branchFlaw kind n (.branches ps) = none) :
    Portions n ps := by
  obtain ⟨hlength, hall, hsum⟩ := branchFlaw_branches.mp h
  refine ⟨hlength, fun p hp => between_of_isShare (List.all_eq_true.mp hall p hp), ?_⟩
  rw [not_or, Quantity.sum_eq, not_lt, not_lt] at hsum
  have hslack : (Quantity.slack : Rat) < 1 := by
    show (1 : Rat) / ((1000000000 : Nat) : Rat) < 1
    norm_num
  linarith

theorem distribution_of_choice {qs : Option (List Rat)} (h : c.block = .ok (.choice hd bs qs)) :
    c.distribution = qs.map .branches := by
  have hkind := kind_of_block h
  obtain ⟨bs', shape, -, hshape, he⟩ := shape_of_block h
  simp only [shapeOver, hkind, Block.kind] at hshape
  split at hshape
  · split at hshape
    · next hd =>
        cases hshape
        cases he
        exact hd
    · next ps hd =>
        cases hshape
        cases he
        exact hd
    · cases hshape
  · cases hshape

/-- The probabilities that a sound gateway gives to its branches. -/
theorem portions_of_sound (hsound : c.Sound n) (hkind : c.kind = .choice ∨ c.kind = .nature)
    (hd : c.distribution = some (.branches ps)) : Portions c.branches.length ps := by
  unfold Sound kindFault at hsound
  rcases hkind with hkind | hkind
  · simp only [hkind, orElse_eq_none_iff, hd, Option.bind_some, branchDistribution,
      Option.map_eq_none_iff] at hsound
    exact portions_of_branchFlaw hsound.2.2
  · simp only [hkind, orElse_eq_none_iff, hd, branchDistribution, Option.map_eq_none_iff] at hsound
    exact portions_of_branchFlaw hsound.2.2

/-- A sound task costs nothing less than zero. -/
theorem nonneg_of_task {v : List Rat} (hsound : c.Sound n) (h : c.block = .ok (.task hd v)) :
    ∀ x ∈ v, 0 ≤ x := by
  have hkind := kind_of_block h
  obtain ⟨bs', shape, -, hshape, he⟩ := shape_of_block h
  simp only [shapeOver, hkind, Block.kind] at hshape
  obtain ⟨v', hv, rfl⟩ := Option.map_eq_some_iff.mp hshape
  cases he
  unfold Sound kindFault at hsound
  simp only [hkind, Block.kind, orElse_eq_none_iff, taskImpacts, hv, Fault.require_eq_none_iff]
    at hsound
  exact fun x hx => nonneg_of_isAmount (List.all_eq_true.mp hsound.2.2.1 x hx)

/-- The odds of a gateway are from zero to one. -/
theorem odds_mem {g : Gate Rat} (hsound : c.Sound n) (h : c.block = .ok (g.block hd bs)) (i : Nat) :
    0 ≤ g.odds i ∧ g.odds i ≤ 1 := by
  have hentry : ∀ {ps : List Rat} {x : Rat}, (∀ p ∈ ps, 0 ≤ p ∧ p ≤ 1) → 0 ≤ x ∧ x ≤ 1 →
      0 ≤ (ps[i]?).getD x ∧ (ps[i]?).getD x ≤ 1 := by
    intro ps x hps hx
    cases hi : ps[i]? with
    | none => exact hx
    | some p => exact hps p (List.mem_of_getElem? hi)
  have hkind := kind_of_block h
  cases g with
  | choice qs =>
      cases qs with
      | none => exact hentry (List.forall_mem_nil _) ⟨zero_le_one, le_refl 1⟩
      | some ps =>
          have hportions := portions_of_sound hsound (Or.inl hkind) (distribution_of_choice h)
          exact hentry hportions.between ⟨zero_le_one, le_refl 1⟩
  | nature ps =>
      have hportions := portions_of_sound hsound (Or.inr hkind) (distribution_of_nature h)
      exact hentry hportions.between ⟨le_refl 0, zero_le_one⟩

end Region

/-! ## Nets -/

namespace Workflow.Consists

open Piece

variable {w : Workflow Rat} {r : Region Rat} {P : Piece Rat} {t : Transition Rat} {p : PlaceId}

theorem probability_mem (h : w.Consists P) (hr : r.Yields P) (ht : t ∈ w.net.transitions) :
    0 ≤ t.probability ∧ t.probability ≤ 1 := by
  obtain ⟨n, hsound⟩ := hr.sound
  obtain ⟨Q, hpart, hadds⟩ := exists_adds (h.transitions ▸ ht)
  obtain ⟨c, hc⟩ := hr.exists_region hpart
  cases hadds with
  | run | fork | join | merge | enter => exact ⟨zero_le_one, le_refl 1⟩
  | @pick s g bs i b hi => exact Region.odds_mem (hsound c hc.mem) hc.block i
  | back s body x k =>
      obtain ⟨hpos, hlt⟩ := Region.between_of_loop (hsound c hc.mem) hc.block
      exact ⟨hpos.le, hlt.le⟩
  | leave s body x k =>
      obtain ⟨hpos, hlt⟩ := Region.between_of_loop (hsound c hc.mem) hc.block
      exact ⟨sub_nonneg.mpr hlt.le, sub_le_self 1 hpos.le⟩

theorem impactsAt_nonneg (h : w.Consists P) (hr : r.Yields P) (hp : p ∈ P.zone) :
    ∀ x ∈ w.net.impactsAt p, 0 ≤ x := by
  obtain ⟨n, hsound⟩ := hr.sound
  obtain ⟨τ, hτ, hnonneg⟩ := h.laid.terms (D := fun _ => True)
    (K := fun τ => ∀ x ∈ τ.impacts.getD [], 0 ≤ x) trivial trivial (fun _ _ _ _ => trivial)
    (fun s v hpart _ _ => by
      obtain ⟨c, hc⟩ := hr.exists_region hpart
      exact Region.nonneg_of_task (hsound c hc.mem) hc.block)
    (fun _ _ _ => List.forall_mem_nil _) p hp
  obtain ⟨place, hplace, rfl⟩ := Option.map_eq_some_iff.mp hτ
  rwa [Net.impactsAt, hplace, Option.bind_some]

end Workflow.Consists

end RegionNet
