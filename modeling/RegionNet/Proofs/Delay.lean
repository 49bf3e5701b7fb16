import RegionNet.Proofs.Ledger
import RegionNet.Proofs.Origin

/-!
# Delays

How long tokens rest on the places of a compiled process. A place adds up the durations of the
regions that start there, so whatever holds of all durations and of zero, and is kept by sums, holds
of all delays (`Consists.delay_mem`): they are not negative, and they are whole numbers if the
durations are.
-/

namespace RegionNet

/-! ## Whole numbers -/

/-- The whole numbers. -/
def whole : AddSubgroup Rat := (Int.castAddHom Rat).range

theorem mem_whole {x : Rat} : x ∈ whole ↔ ∃ k : Int, x = k := by
  constructor
  · rintro ⟨k, rfl⟩
    exact ⟨k, rfl⟩
  · rintro ⟨k, rfl⟩
    exact ⟨k, rfl⟩

/-- Between whole numbers there is no slack. -/
theorem le_of_le_add_slack {x y : Rat} (hx : x ∈ whole) (hy : y ∈ whole)
    (h : x ≤ y + Quantity.slack) : x ≤ y := by
  obtain ⟨a, rfl⟩ := mem_whole.mp hx
  obtain ⟨b, rfl⟩ := mem_whole.mp hy
  have hslack : (Quantity.slack : Rat) < 1 := by
    show (1 : Rat) / ((1000000000 : Nat) : Rat) < 1
    norm_num
  have hlt : (a : Rat) < ((b + 1 : Int) : Rat) := by
    push_cast
    linarith
  exact_mod_cast Int.lt_add_one_iff.mp (by exact_mod_cast hlt)

/-! ## Delays of a net -/

namespace Net

variable {net : Net Rat} {p : PlaceId}

/-- How long a token rests on a place before it can be taken. -/
def delay (net : Net Rat) (p : PlaceId) : Rat := (net.place? p).elim 0 Place.duration

theorem delay_of_place {place : Place Rat} (h : net.place? p = some place) :
    net.delay p = place.duration := by
  rw [delay, h]
  rfl

theorem delay_of_terms {τ : Terms Rat} (h : net.terms p = some τ) : net.delay p = τ.duration := by
  obtain ⟨place, hplace, rfl⟩ := Option.map_eq_some_iff.mp h
  exact delay_of_place hplace

end Net

/-- What a piece sets for its places: a time that is added up from the durations of its regions,
starting from what was charged before or from nothing, and the impacts of its tasks. -/
theorem Piece.Laid.terms {α : Type} [Quantity α] {T : PlaceId → Option (Terms α)} {D : α → Prop}
    {K : Terms α → Prop} {acc : α} {P : Piece α} (h : P.Laid T acc) (hacc : D acc) (hzero : D 0)
    (hadd : ∀ Q, Part Q P → ∀ d, D d → D (d + Q.site.head.duration))
    (htask : ∀ s v, Part (.task s v) P → ∀ d, D d → K ⟨d, some v, none⟩)
    (hrest : ∀ d n, D d → K ⟨d, none, n⟩) : ∀ p ∈ P.zone, ∃ τ, T p = some τ ∧ K τ := by
  have hbranches : ∀ {bs : List (Piece α)}, AllLaid T bs →
      (∀ b ∈ bs, b.Laid T 0 → ∀ p ∈ b.zone, ∃ τ, T p = some τ ∧ K τ) →
      ∀ p ∈ zones bs, ∃ τ, T p = some τ ∧ K τ := by
    intro bs hlaid ih p hp
    obtain ⟨b, hb, hp⟩ := mem_zones.mp hp
    obtain ⟨hb', hexit⟩ := allLaid_iff.mp hlaid b hb
    rcases mem_ground.mp hp with hp | rfl
    · exact ih b hb hb' p hp
    · exact ⟨_, hexit, hrest _ _ hzero⟩
  induction P using Piece.ind generalizing acc with
  | task s v =>
      intro p hp
      obtain rfl := List.mem_singleton.mp hp
      exact ⟨_, h, htask s v .self _ (hadd _ .self _ hacc)⟩
  | sequential s P Q ihP ihQ =>
      intro p hp
      rcases List.mem_append.mp hp with hp | hp
      · exact ihP h.2.1 (hadd _ .self _ hacc) (fun R hR => hadd R hR.first)
          (fun s v hv => htask s v hv.first) p hp
      · exact ihQ h.2.2 hzero (fun R hR => hadd R hR.second)
          (fun s v hv => htask s v hv.second) p hp
  | parallel s bs ih =>
      intro p hp
      rcases List.mem_cons.mp hp with rfl | hp
      · exact ⟨_, h.1, hrest _ _ (hadd _ .self _ hacc)⟩
      · exact hbranches h.2 (fun b hb hlaid => ih b hb hlaid hzero
          (fun R hR => hadd R (hR.branch hb)) fun s v hv => htask s v (hv.branch hb)) p hp
  | gateway s g bs ih =>
      intro p hp
      rcases List.mem_cons.mp hp with rfl | hp
      · exact ⟨_, h.1, hrest _ _ (hadd _ .self _ hacc)⟩
      · exact hbranches h.2 (fun b hb hlaid => ih b hb hlaid hzero
          (fun R hR => hadd R (hR.arm hb)) fun s v hv => htask s v (hv.arm hb)) p hp
  | loop s body x n ih =>
      intro p hp
      rcases List.mem_cons.mp hp with rfl | hp
      · exact ⟨_, h.1, hrest _ _ (hadd _ .self _ hacc)⟩
      rcases mem_ground.mp hp with hp | rfl
      · exact ih h.2.2 hzero (fun R hR => hadd R hR.body) (fun s v hv => htask s v hv.body) p hp
      · exact ⟨_, h.2.1, hrest _ _ hzero⟩

/-- The times that a piece sets are made of the durations of its regions. -/
theorem Piece.Laid.duration_mem {T : PlaceId → Option (Terms Rat)} {acc : Rat} {P : Piece Rat}
    {S : AddSubmonoid Rat} (h : P.Laid T acc) (hacc : acc ∈ S)
    (hheads : ∀ Q, Part Q P → Q.site.head.duration ∈ S) :
    ∀ p ∈ P.zone, ∃ τ, T p = some τ ∧ τ.duration ∈ S :=
  h.terms (D := (· ∈ S)) (K := fun τ => τ.duration ∈ S) hacc S.zero_mem
    (fun Q hQ _ hd => S.add_mem hd (hheads Q hQ)) (fun _ _ _ _ hd => hd) fun _ _ hd => hd

namespace Workflow.Consists

variable {w : Workflow Rat} {P : Piece Rat} {p : PlaceId}

theorem exists_place {α : Type} [Quantity α] {w : Workflow α} {P : Piece α} (h : w.Consists P)
    (hp : p ∈ P.ground) : ∃ place, w.net.place? p = some place := by
  have hmem : p ∈ w.net.places.map Place.id := by
    rw [h.places]
    exact h.placed.fits.ground_perm.mem_iff.mp hp
  obtain ⟨place, hplace, rfl⟩ := List.mem_map.mp hmem
  cases hfind : w.net.place? place.id with
  | none => exact absurd (List.find?_eq_none.mp hfind place hplace) (by simp)
  | some q => exact ⟨q, rfl⟩

theorem delay_mem {S : AddSubmonoid Rat} (h : w.Consists P)
    (hheads : ∀ Q, Piece.Part Q P → Q.site.head.duration ∈ S) :
    ∀ p ∈ P.zone, w.net.delay p ∈ S := by
  intro p hp
  obtain ⟨τ, hτ, hmem⟩ := h.laid.duration_mem S.zero_mem hheads p hp
  rwa [Net.delay_of_terms hτ]

end Workflow.Consists

/-! ## Delays of a description -/

namespace Region

variable {r : Region Rat} {P : Piece Rat}

theorem nonneg_of_firstFault {rs : List (Region Rat)} : ∀ {seen : Visited},
    firstFault seen rs = none → ∀ c ∈ rs, 0 ≤ c.duration := by
  induction rs with
  | nil => exact fun _ => List.forall_mem_nil _
  | cons c rs ih =>
      intro seen h
      obtain ⟨hfault, hrest⟩ : c.fault seen = none ∧ firstFault (c.visit seen) rs = none := by
        simpa [firstFault] using h
      simp only [fault, orElse_eq_none_iff, Fault.require_eq_none_iff] at hfault
      obtain ⟨-, -, hamount, -⟩ := hfault
      refine List.forall_mem_cons.mpr ⟨?_, ih hrest⟩
      simpa [isAmount, Quantity.isFinite] using hamount

/-- The durations of a description that passes are not negative. -/
theorem nonneg_of_validate (h : r.validate = .ok ()) : ∀ c ∈ r.preorder, 0 ≤ c.duration := by
  unfold validate at h
  cases hfault : firstFault .none r.preorder with
  | none => exact nonneg_of_firstFault hfault
  | some f =>
      rw [hfault] at h
      cases h

/-- Each part of a piece lasts as long as some region. -/
theorem exists_duration {Q : Piece Rat} (h : r.validate = .ok ()) (hblock : r.block = .ok P.block)
    (hpart : Piece.Part Q P) : ∃ c ∈ r.preorder, c.duration = Q.site.head.duration := by
  obtain ⟨n, hsound⟩ := (rules_of_validate h).1
  obtain ⟨c, hc, hQ⟩ := exists_region hpart hsound hblock
  refine ⟨c, hc, ?_⟩
  rw [← Piece.head_block, head_of_block hQ]
  rfl

end Region

namespace Workflow.Consists

variable {r : Region Rat} {w : Workflow Rat} {P : Piece Rat}

theorem delay_nonneg (h : w.Consists P) (hvalid : r.validate = .ok ())
    (hblock : r.block = .ok P.block) : ∀ p ∈ P.zone, 0 ≤ w.net.delay p :=
  h.delay_mem (S := AddSubmonoid.nonneg Rat) fun Q hpart => by
    obtain ⟨c, hc, hduration⟩ := Region.exists_duration hvalid hblock hpart
    exact hduration ▸ Region.nonneg_of_validate hvalid c hc

theorem delay_whole (h : w.Consists P) (hvalid : r.validate = .ok ())
    (hblock : r.block = .ok P.block) (hwhole : ∀ c ∈ r.preorder, ∃ k : Int, c.duration = k) :
    ∀ p ∈ P.zone, w.net.delay p ∈ whole :=
  h.delay_mem (S := whole.toAddSubmonoid) fun Q hpart => by
    obtain ⟨c, hc, hduration⟩ := Region.exists_duration hvalid hblock hpart
    exact mem_whole.mpr (hduration ▸ hwhole c hc)

end Workflow.Consists

/-- The durations of the small description are whole numbers. -/
theorem Region.whole_sample : ∀ c ∈ Region.sample.preorder, ∃ k : Int, c.duration = k := by
  have hden : ∀ c ∈ Region.sample.preorder, c.duration.den = 1 := by decide +kernel
  exact fun c hc => ⟨c.duration.num, ((Rat.den_eq_one_iff _).mp (hden c hc)).symm⟩

end RegionNet
