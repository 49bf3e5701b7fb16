import RegionNet.Proofs.Listing
import RegionNet.Proofs.LoopStatus

/-!
# Parts in document order

`Piece.preorder` lists a piece and its parts in the order in which the layout lists them
(`Piece.infos_eq`) and in which the description lists the regions that they were made of
(`Region.Becomes.forall₂_preorder`). With it, what is said about the places where the regions of a
description start and end (`Workflow.HasEntry`, `Workflow.HasExit`) becomes a statement about
pieces.
-/

namespace RegionNet

variable {α : Type}

namespace Piece

variable {P Q : Piece α} {i : RegionInfo} {p : PlaceId}

mutual

/-- The piece and all pieces in it in document order. -/
def preorder : Piece α → List (Piece α)
  | .task s v => [.task s v]
  | .sequential s one two => .sequential s one two :: (one.preorder ++ two.preorder)
  | .parallel s bs => .parallel s bs :: preorders bs
  | .gateway s g bs => .gateway s g bs :: preorders bs
  | .loop s body x n => .loop s body x n :: body.preorder

def preorders : List (Piece α) → List (Piece α)
  | [] => []
  | b :: bs => b.preorder ++ preorders bs

end

theorem preorders_eq_flatMap (bs : List (Piece α)) : preorders bs = bs.flatMap preorder := by
  induction bs with
  | nil => rfl
  | cons b bs ih => rw [preorders, ih, List.flatMap_cons]

theorem preorder_eq (P : Piece α) : P.preorder = P :: P.parts.flatMap preorder := by
  cases P with
  | task s v => rfl
  | sequential s P Q => simp [preorder, parts]
  | parallel s bs => exact congrArg _ (preorders_eq_flatMap bs)
  | gateway s g bs => exact congrArg _ (preorders_eq_flatMap bs)
  | loop s body x n => simp [preorder, parts]

theorem mem_preorder : Q ∈ P.preorder ↔ Part Q P := by
  constructor
  · intro h
    induction P using Piece.parts_induct with
    | step P ih =>
        rw [preorder_eq] at h
        rcases List.mem_cons.mp h with rfl | h
        · exact .self
        · obtain ⟨P', hP', hQ⟩ := List.mem_flatMap.mp h
          exact .of_parts hP' (ih P' hP' hQ)
  · intro h
    apply h.climb
    · rw [preorder_eq]
      exact List.mem_cons_self
    · intro P P' hP' _ ih
      rw [preorder_eq]
      exact List.mem_cons_of_mem _ (List.mem_flatMap.mpr ⟨P', hP', ih⟩)

/-- The layout lists the parts in their order. -/
theorem infos_eq (P : Piece α) : P.layout.infos = P.preorder.map fun Q => Q.layout.info := by
  induction P using Piece.parts_induct with
  | step P ih =>
      rw [layout_eq, Layout.infos, Layout.infosAll_eq_flatMap, preorder_eq, List.map_cons,
        List.flatMap_map, List.map_flatMap]
      exact congrArg _ (List.flatMap_congr ih)

theorem mem_infos_iff : i ∈ P.layout.infos ↔ ∃ Q, Part Q P ∧ Q.layout.info = i := by
  simp only [infos_eq, List.mem_map, mem_preorder]

end Piece

/-! ## Regions and their pieces -/

theorem Region.preorders_eq_flatMap (rs : List (Region α)) :
    Region.preorders rs = rs.flatMap Region.preorder := by
  induction rs with
  | nil => rfl
  | cons r rs ih => rw [Region.preorders, ih, List.flatMap_cons]

variable [Quantity α]

/-- The regions in a region become the parts of its piece, in the same order. -/
theorem Region.Becomes.forall₂_preorder {r c : Region α} {R Q : Piece α} (hr : r.Yields R)
    (hc : r.Becomes R c Q) : List.Forall₂ (r.Becomes R) c.preorder Q.preorder := by
  induction Q using Piece.parts_induct generalizing c with
  | step Q ih =>
      rw [Region.preorder_eq, Region.preorders_eq_flatMap, Piece.preorder_eq]
      have hparts := hc.forall₂_parts hr
      have hall : List.Forall₂ (fun d P => List.Forall₂ (r.Becomes R) d.preorder P.preorder)
          c.branches Q.parts := by
        refine List.forall₂_iff_zip.mpr ⟨hparts.length_eq, fun {d P} hdP => ?_⟩
        exact ih P (List.of_mem_zip hdP).2 ((List.forall₂_iff_zip.mp hparts).2 hdP)
      exact .cons hc (List.rel_flatMap hall fun _ _ h => h)

namespace Workflow

/-- The region `c` starts at the place `p`. -/
def HasEntry (w : Workflow α) (c : Region α) (p : PlaceId) : Prop :=
  ∃ i ∈ w.layout.infos, i.id = c.id ∧ i.entry = p

/-- The region `c` ends at the place `p`. -/
def HasExit (w : Workflow α) (c : Region α) (p : PlaceId) : Prop :=
  ∃ i ∈ w.layout.infos, i.id = c.id ∧ i.exit = p

instance (w : Workflow α) (c : Region α) (p : PlaceId) : Decidable (w.HasEntry c p) :=
  inferInstanceAs (Decidable (∃ i ∈ w.layout.infos, i.id = c.id ∧ i.entry = p))

namespace Consists

open Piece

variable {w : Workflow α} {r c d : Region α} {P Q : Piece α} {p : PlaceId}

theorem hasEntry_iff (h : w.Consists P) (hr : r.Yields P) (hc : r.Becomes P c Q) :
    w.HasEntry c p ↔ Q.entry = p := by
  constructor
  · rintro ⟨i, hi, hid, rfl⟩
    rw [h.info_eq hr hc hi hid, info_layout_entry]
  · rintro rfl
    exact ⟨_, (h.info_mem hc).1, (h.info_mem hc).2, info_layout_entry Q⟩

theorem hasExit_iff (h : w.Consists P) (hr : r.Yields P) (hc : r.Becomes P c Q) :
    w.HasExit c p ↔ Q.exit = p := by
  constructor
  · rintro ⟨i, hi, hid, rfl⟩
    rw [h.info_eq hr hc hi hid, info_layout_exit]
  · rintro rfl
    exact ⟨_, (h.info_mem hc).1, (h.info_mem hc).2, info_layout_exit Q⟩

/-- The places of a region are those where the regions in it start and end. -/
theorem mem_ground_iff (h : w.Consists P) (hr : r.Yields P) (hc : r.Becomes P c Q) :
    p ∈ Q.ground ↔ ∃ d ∈ c.preorder, w.HasEntry d p ∨ w.HasExit d p := by
  rw [← (hc.part.placed h.placed).mem_places]
  unfold Layout.places
  simp only [List.mem_flatMap, List.mem_pair, mem_infos_iff]
  constructor
  · rintro ⟨i, ⟨Q', hpart, rfl⟩, hp⟩
    obtain ⟨d, hd⟩ := hr.exists_region (hc.part.trans hpart)
    refine ⟨d, (hd.mem_preorder_iff hr hc).mpr hpart, ?_⟩
    rw [h.hasEntry_iff hr hd, h.hasExit_iff hr hd, ← info_layout_entry, ← info_layout_exit]
    exact hp.imp Eq.symm Eq.symm
  · rintro ⟨d, hmem, hp⟩
    obtain ⟨Q', hd⟩ := hr.exists_part (Region.preorder_subset hc.mem hmem)
    refine ⟨_, ⟨Q', (hd.mem_preorder_iff hr hc).mp hmem, rfl⟩, ?_⟩
    rw [h.hasEntry_iff hr hd, h.hasExit_iff hr hd] at hp
    rw [info_layout_entry, info_layout_exit]
    exact hp.imp Eq.symm Eq.symm

end Consists

end Workflow

end RegionNet
