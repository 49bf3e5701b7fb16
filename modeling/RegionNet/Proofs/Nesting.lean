import RegionNet.Proofs.Effect

/-!
# Regions within regions

A region lies in another one exactly if the piece of the one is a part of the piece of the other
(`Region.mem_preorder_iff`). So what is said about the loops and decisions around a part can be said
about the regions around a region: a move goes back in a loop around a region
(`Region.renews_iff`), and a move takes a branch of a choice or draw by nature
(`Part.eq_pick_iff`).
-/

namespace RegionNet

variable {α : Type}

namespace Piece

variable {P Q Q' R : Piece α}

theorem Part.self_or_below (h : Part Q P) : Q = P ∨ ∃ P' ∈ P.parts, Part Q P' := by
  cases h with
  | self => exact Or.inl rfl
  | first h => exact Or.inr ⟨_, List.mem_cons_self, h⟩
  | second h => exact Or.inr ⟨_, List.mem_cons_of_mem _ List.mem_cons_self, h⟩
  | branch hb h => exact Or.inr ⟨_, hb, h⟩
  | arm hb h => exact Or.inr ⟨_, hb, h⟩
  | body h => exact Or.inr ⟨_, List.mem_cons_self, h⟩

/-- Parts with one id are one part. -/
theorem Part.eq_of_id (h : Part Q R) (h' : Part Q' R) (hnodup : R.block.ids.Nodup)
    (hid : Q.site.head.id = Q'.site.head.id) : Q = Q' := by
  have hown : ∀ P : Piece α, P.site.head.id ∈ P.block.ids := fun P => by
    rw [ids_block]
    exact List.mem_cons_self
  induction R using Piece.parts_induct with
  | step R ih =>
      have hbelow : ∀ {P P'}, P' ∈ R.parts → Part P P' → P.site.head.id ≠ R.site.head.id := by
        intro P P' hP' hpart he
        rw [ids_block, List.nodup_cons] at hnodup
        exact hnodup.1 (List.mem_flatMap.mpr ⟨P', hP', he ▸ hpart.ids_subset (hown P)⟩)
      rcases h.self_or_below with rfl | ⟨P, hP, hQ⟩
      · rcases h'.self_or_below with rfl | ⟨P', hP', hQ'⟩
        · rfl
        · exact absurd hid.symm (hbelow hP' hQ')
      · rcases h'.self_or_below with rfl | ⟨P', hP', hQ'⟩
        · exact absurd hid (hbelow hP hQ)
        · have hQid := hQ.ids_subset (hown Q)
          have hQid' := hQ'.ids_subset (hown Q')
          rw [← hid] at hQid'
          obtain rfl := eq_of_mem_ids hnodup hP hP' hQid hQid'
          exact ih P hP hQ hQ' (Piece.nodup_ids hP hnodup)

section

variable [Quantity α] {t : Transition α} {s : Site α} {v : List α} {g : Gate α}
  {bs : List (Piece α)}

/-- A transition with the id of a part is one that the part adds. -/
theorem Part.adds_of_regionId (h : Part Q R) (hnodup : R.block.ids.Nodup) (ht : t ∈ R.transitions)
    (hid : t.regionId = Q.site.head.id) : Q.Adds t := by
  obtain ⟨Q', h', hadds⟩ := exists_adds ht
  rw [h.eq_of_id h' hnodup (hid.symm.trans hadds.regionId)]
  exact hadds

/-- The task's own transition is the one that serves it. -/
theorem Part.eq_run_iff (h : Part (.task s v) R) (hnodup : R.block.ids.Nodup)
    (ht : t ∈ R.transitions) : t.serves s.head.id .task = true ↔ t = s.run := by
  constructor
  · intro hserves
    cases h.adds_of_regionId hnodup ht (Transition.serves_iff.mp hserves).1
    rfl
  · rintro rfl
    exact Transition.serves_iff.mpr ⟨rfl, rfl⟩

/-- The entry of a branch is the transition that serves its gateway with the branch's number. -/
theorem Part.eq_pick_iff (h : Part (.gateway s g bs) R) (hnodup : R.block.ids.Nodup)
    (ht : t ∈ R.transitions) (j : Nat) :
    t.serves s.head.id .branchEntry = true ∧ t.branch = some j ↔
      ∃ b, bs[j]? = some b ∧ t = s.pick g j b := by
  constructor
  · rintro ⟨hserves, hbranch⟩
    obtain ⟨hid, hrole⟩ := Transition.serves_iff.mp hserves
    cases h.adds_of_regionId hnodup ht hid with
    | pick s g hi =>
        obtain rfl := Option.some.inj hbranch
        exact ⟨_, hi, rfl⟩
    | merge s g hi => cases hrole
  · rintro ⟨b, -, rfl⟩
    exact ⟨Transition.serves_iff.mpr ⟨rfl, rfl⟩, rfl⟩

end

end Piece

/-! ## The tree of regions and the tree of pieces -/

namespace Region

theorem preorder_subset {r c : Region α} (h : c ∈ r.preorder) : c.preorder ⊆ r.preorder := by
  induction r using Region.ind with
  | step r ih =>
      have hr := preorder_eq r
      rw [hr] at h
      rcases List.mem_cons.mp h with rfl | h
      · exact List.Subset.refl _
      · obtain ⟨d, hd, hc⟩ := mem_preorders.mp h
        intro e he
        rw [hr]
        exact List.mem_cons_of_mem _ (mem_preorders.mpr ⟨d, hd, ih d hd hc he⟩)

theorem mem_preorder_of_branch {r c d : Region α} (h : c ∈ r.preorder) (hd : d ∈ c.branches) :
    d ∈ r.preorder := by
  apply preorder_subset h
  rw [preorder_eq]
  exact List.mem_cons_of_mem _ (mem_preorders.mpr ⟨d, hd, d.mem_preorder_self⟩)

variable [Quantity α]

/-- The description `r` is sound, and the piece `R` was made of it. -/
structure Yields (r : Region α) (R : Piece α) : Prop where
  sound : ∃ n, ∀ c ∈ r.preorder, c.Sound n
  distinct : (r.preorder.map Region.id).Nodup
  block : r.block = .ok R.block
  nodup : R.block.ids.Nodup

/-- The part `Q` is what the region `c` became. -/
structure Becomes (r : Region α) (R : Piece α) (c : Region α) (Q : Piece α) : Prop where
  mem : c ∈ r.preorder
  part : Piece.Part Q R
  block : c.block = .ok Q.block

namespace Becomes

variable {r c d : Region α} {R P Q : Piece α}

theorem id_eq (h : r.Becomes R c Q) : Q.site.head.id = c.id := by
  have hhead := head_of_block h.block
  rw [Piece.head_block] at hhead
  exact congrArg Head.id hhead

theorem kind_eq (h : r.Becomes R c Q) : c.kind = Q.block.kind := kind_of_block h.block

theorem unique_right (hr : r.Yields R) (hQ : r.Becomes R c Q) (hP : r.Becomes R c P) : Q = P :=
  hQ.part.eq_of_id hP.part hr.nodup (hQ.id_eq.trans hP.id_eq.symm)

theorem unique_left (hr : r.Yields R) (hc : r.Becomes R c Q) (hd : r.Becomes R d Q) : c = d :=
  List.inj_on_of_nodup_map hr.distinct hc.mem hd.mem (hc.id_eq.symm.trans hd.id_eq)

/-- The children of a region become the pieces right below its own, in the same order. -/
theorem forall₂_parts (hr : r.Yields R) (h : r.Becomes R c Q) :
    List.Forall₂ (fun d P => r.Becomes R d P) c.branches Q.parts := by
  obtain ⟨n, hsound⟩ := hr.sound
  have hall := forall₂_children (hsound c h.mem) h.block
  rw [Piece.children_block, List.forall₂_map_right_iff] at hall
  refine (List.forall₂_iff_zip.mpr ⟨hall.length_eq, fun {d P} hdP => ?_⟩)
  obtain ⟨hd, hP⟩ := List.of_mem_zip hdP
  exact ⟨mem_preorder_of_branch h.mem hd, h.part.trans (.of_parts hP .self),
    (List.forall₂_iff_zip.mp hall).2 hdP⟩

end Becomes

namespace Yields

variable {r c d : Region α} {R P Q : Piece α}

theorem exists_part (hr : r.Yields R) (hc : c ∈ r.preorder) : ∃ Q, r.Becomes R c Q := by
  obtain ⟨n, hsound⟩ := hr.sound
  obtain ⟨Q, hpart, hblock⟩ := Region.exists_part hsound hr.block hc
  exact ⟨Q, hc, hpart, hblock⟩

theorem exists_region (hr : r.Yields R) (hQ : Piece.Part Q R) : ∃ c, r.Becomes R c Q := by
  obtain ⟨n, hsound⟩ := hr.sound
  obtain ⟨c, hc, hblock⟩ := Region.exists_region hQ hsound hr.block
  exact ⟨c, hc, hQ, hblock⟩

end Yields

variable {r c d : Region α} {R P Q : Piece α}

/-- A region lies in another one if its piece is a part of the other's. -/
theorem Becomes.mem_preorder_iff (hr : r.Yields R) (hc : r.Becomes R c Q) (hd : r.Becomes R d P) :
    c ∈ d.preorder ↔ Piece.Part Q P := by
  obtain ⟨n, hsound⟩ := hr.sound
  have hbelow : ∀ e ∈ d.preorder, e.Sound n := fun e he => hsound e (preorder_subset hd.mem he)
  constructor
  · intro hmem
    obtain ⟨Q', hpart, hblock⟩ := Region.exists_part hbelow hd.block hmem
    obtain rfl := hc.unique_right hr ⟨hc.mem, hd.part.trans hpart, hblock⟩
    exact hpart
  · intro hpart
    obtain ⟨c', hc', hblock⟩ := Region.exists_region hpart hbelow hd.block
    obtain rfl := hc.unique_left hr ⟨preorder_subset hd.mem hc', hc.part, hblock⟩
    exact hc'

/-! ## Moves that concern a region -/

/-- The transition goes back in a loop around the region `c`. -/
def Renews (r c : Region α) (t : Transition α) : Prop :=
  ∃ l ∈ r.preorder, l.kind = .loop ∧ (∃ body ∈ l.branches, c ∈ body.preorder) ∧
    t.serves l.id .loopBack = true

/-- What goes back around a region goes back around its part. -/
theorem Becomes.renews_iff {t : Transition α} (hr : r.Yields R) (hc : r.Becomes R c Q)
    (ht : t ∈ R.transitions) : r.Renews c t ↔ Piece.Renews R Q t := by
  constructor
  · rintro ⟨l, hl, hkind, ⟨body, hbody, hmem⟩, hserves⟩
    obtain ⟨L, hL⟩ := hr.exists_part hl
    cases L with
    | loop s P x n =>
        obtain ⟨P', hP', hbecomes⟩ := exists_right_of_forall₂ (hL.forall₂_parts hr) hbody
        obtain rfl := List.mem_singleton.mp hP'
        have hpart := (hc.mem_preorder_iff hr hbecomes).mp hmem
        rw [← hL.id_eq] at hserves
        rcases hL.part.eq_of_serves hr.nodup ht hserves with ⟨-, hrole⟩ | ⟨rfl, -⟩ | ⟨-, hrole⟩
        · cases hrole
        · exact ⟨s, P', x, n, hL.part, hpart, rfl⟩
        · cases hrole
    | gateway s g bs => cases g <;> cases hkind.symm.trans hL.kind_eq
    | _ => cases hkind.symm.trans hL.kind_eq
  · rintro ⟨s, P, x, n, hloop, hpart, rfl⟩
    obtain ⟨l, hl⟩ := hr.exists_region hloop
    obtain ⟨body, hbody, hbecomes⟩ :=
      exists_left_of_forall₂ (hl.forall₂_parts hr) (List.mem_singleton_self P)
    refine ⟨l, hl.mem, hl.kind_eq, ⟨body, hbody, ?_⟩, ?_⟩
    · exact (hc.mem_preorder_iff hr hbecomes).mpr hpart
    · rw [← hl.id_eq]
      exact Piece.serves_back

end Region

end RegionNet
