import RegionNet.Proofs.LoopStatus
import RegionNet.Proofs.Part

/-!
# Regions and their parts

Every region of a description is found again in what was compiled from it: as a part of the piece
that makes up the net (`Region.exists_part`), and in the ids that transitions carry. Since no id
occurs twice, a transition with the id of a region is one of the transitions of its part
(`Part.mem_of_regionId`).
-/

namespace RegionNet

variable {α : Type}

/-- The blocks right below a block. -/
def Block.children : Block α → List (Block α)
  | .task _ _ => []
  | .sequential _ one two => [one, two]
  | .parallel _ bs => bs
  | .choice _ bs _ => bs
  | .nature _ bs _ => bs
  | .loop _ body _ _ => [body]

namespace Piece

variable {P Q : Piece α} {t : Transition α}

/-- The pieces right below a piece. -/
def parts : Piece α → List (Piece α)
  | .task _ _ => []
  | .sequential _ P Q => [P, Q]
  | .parallel _ bs => bs
  | .gateway _ _ bs => bs
  | .loop _ body _ _ => [body]

/-- A property of all pieces holds if it passes from the pieces right below a piece to the piece. -/
theorem parts_induct {motive : Piece α → Prop} (step : ∀ P, (∀ P' ∈ P.parts, motive P') → motive P)
    (P : Piece α) : motive P := by
  induction P using Piece.ind with
  | task s v => exact step _ fun _ h => absurd h List.not_mem_nil
  | sequential s P Q ihP ihQ =>
      refine step _ fun P' h => ?_
      rcases List.mem_pair.mp h with rfl | rfl
      · exact ihP
      · exact ihQ
  | parallel s bs ih => exact step _ ih
  | gateway s g bs ih => exact step _ ih
  | loop s body x n ih =>
      refine step _ fun P' h => ?_
      obtain rfl := List.mem_singleton.mp h
      exact ih

theorem children_block (P : Piece α) : P.block.children = P.parts.map block := by
  cases P with
  | task s v => rfl
  | sequential s P Q => rfl
  | parallel s bs => exact blocks_eq_map bs
  | gateway s g bs => cases g <;> exact blocks_eq_map bs
  | loop s body x n => rfl

theorem idsAll_blocks (bs : List (Piece α)) :
    Block.idsAll (blocks bs) = bs.flatMap fun b => b.block.ids := by
  induction bs with
  | nil => rfl
  | cons b bs ih => rw [blocks, Block.idsAll, ih, List.flatMap_cons]

theorem ids_block (P : Piece α) :
    P.block.ids = P.site.head.id :: P.parts.flatMap fun b => b.block.ids := by
  cases P with
  | task s v => rfl
  | sequential s P Q => simp [block, Block.ids, parts, site]
  | parallel s bs => exact congrArg _ (idsAll_blocks bs)
  | gateway s g bs => cases g <;> exact congrArg _ (idsAll_blocks bs)
  | loop s body x n => simp [block, Block.ids, parts, site]

/-! ## Parts, step by step -/

theorem Part.of_parts {P' : Piece α} (hP' : P' ∈ P.parts) (h : Part Q P') : Part Q P := by
  cases P with
  | task s v => cases hP'
  | sequential s P₁ P₂ =>
      rcases List.mem_pair.mp hP' with rfl | rfl
      · exact h.first
      · exact h.second
  | parallel s bs => exact h.branch hP'
  | gateway s g bs => exact h.arm hP'
  | loop s body x n =>
      obtain rfl := List.mem_singleton.mp hP'
      exact h.body

/-- What holds of a part and passes from the pieces right below a piece to the piece holds of the
whole. -/
theorem Part.climb {motive : Piece α → Prop} (h : Part Q P) (self : motive Q)
    (step : ∀ {P P'}, P' ∈ P.parts → Part Q P' → motive P' → motive P) : motive P := by
  induction h with
  | self => exact self
  | first h ih => exact step List.mem_cons_self h ih
  | second h ih => exact step (List.mem_cons_of_mem _ List.mem_cons_self) h ih
  | branch hb h ih => exact step hb h ih
  | arm hb h ih => exact step hb h ih
  | body h ih => exact step List.mem_cons_self h ih

theorem ids_subset {P' : Piece α} (h : P' ∈ P.parts) : P'.block.ids ⊆ P.block.ids := by
  intro i hi
  rw [ids_block P]
  exact List.mem_cons_of_mem _ (List.mem_flatMap.mpr ⟨P', h, hi⟩)

theorem Part.ids_subset (h : Part Q P) : Q.block.ids ⊆ P.block.ids :=
  h.climb (List.Subset.refl _) fun hP' _ ih => List.Subset.trans ih (Piece.ids_subset hP')

theorem nodup_ids {P' : Piece α} (h : P' ∈ P.parts) (hnodup : P.block.ids.Nodup) :
    P'.block.ids.Nodup := by
  rw [ids_block] at hnodup
  exact (List.nodup_flatMap.mp hnodup.of_cons).1 P' h

theorem Part.nodup_ids (h : Part Q P) (hnodup : P.block.ids.Nodup) : Q.block.ids.Nodup := by
  revert hnodup
  apply h.climb
  · exact id
  · intro P P' hP' _ ih hnodup
    exact ih (Piece.nodup_ids hP' hnodup)

/-- Pieces below the same piece share no id. -/
theorem eq_of_mem_ids {P₁ P₂ : Piece α} {i : String} (hnodup : P.block.ids.Nodup)
    (h₁ : P₁ ∈ P.parts) (h₂ : P₂ ∈ P.parts) (hi₁ : i ∈ P₁.block.ids) (hi₂ : i ∈ P₂.block.ids) :
    P₁ = P₂ := by
  rw [ids_block] at hnodup
  have hdisj := (List.nodup_flatMap.mp hnodup.of_cons).2
  by_contra hne
  have : Std.Symm (Function.onFun List.Disjoint fun b : Piece α => b.block.ids) :=
    ⟨fun _ _ hd _ hc hb => hd hb hc⟩
  exact hdisj.forall h₁ h₂ hne hi₁ hi₂

theorem proper_of_parts {n : Nat} {P' : Piece α} (h : P.block.Proper n) (hP' : P' ∈ P.parts) :
    P'.block.Proper n := by
  have hall : ∀ {bs : List (Piece α)}, Block.AllProper n (blocks bs) → P' ∈ bs →
      P'.block.Proper n := by
    intro bs hbs hmem
    rw [blocks_eq_map, Block.allProper_iff] at hbs
    exact hbs _ (List.mem_map_of_mem hmem)
  cases P with
  | task s v => cases hP'
  | sequential s P Q =>
      rcases List.mem_pair.mp hP' with rfl | rfl
      · exact h.1
      · exact h.2
  | parallel s bs => exact hall h.2 hP'
  | gateway s g bs =>
      cases g with
      | choice ps => exact hall h.2.2 hP'
      | nature ps => exact hall h.2.2 hP'
  | loop s body x k =>
      obtain rfl := List.mem_singleton.mp hP'
      exact h.2

theorem Part.proper {n : Nat} (h : Part Q P) (hproper : P.block.Proper n) : Q.block.Proper n := by
  revert hproper
  apply h.climb
  · exact id
  · intro P P' hP' _ ih hproper
    exact ih (proper_of_parts hproper hP')

/-- The layout of a part is among those of the whole. -/
theorem Part.mem_infos (h : Part Q P) : Q.layout.info ∈ P.layout.infos := by
  have hhead : ∀ l : Layout, l.info ∈ l.infos := fun l => by
    cases l
    exact List.mem_cons_self
  have hall : ∀ P : Piece α, P.layout.infos = P.layout.info :: P.parts.flatMap fun b =>
      b.layout.infos := by
    intro P
    have hbranches : ∀ bs : List (Piece α),
        Layout.infosAll (layouts bs) = bs.flatMap fun b => b.layout.infos := fun bs => by
      rw [Layout.infosAll_eq_flatMap, layouts_eq_map, List.flatMap_map]
    cases P with
    | task s v => rfl
    | sequential s P Q => exact congrArg _ (hbranches [P, Q])
    | parallel s bs => exact congrArg _ (hbranches bs)
    | gateway s g bs => exact congrArg _ (hbranches bs)
    | loop s body x n => exact congrArg _ (hbranches [body])
  apply h.climb (hhead _)
  intro P P' hP' _ ih
  rw [hall P]
  exact List.mem_cons_of_mem _ (List.mem_flatMap.mpr ⟨P', hP', ih⟩)

theorem id_layout (P : Piece α) : P.layout.info.id = P.site.head.id := by
  cases P <;> rfl

/-! ## Transitions and ids -/

section

variable [Quantity α]

theorem transitions_sublist {P' : Piece α} (h : P' ∈ P.parts) :
    P'.transitions.Sublist P.transitions := by
  cases P with
  | task s v => cases h
  | sequential s P₁ P₂ =>
      rcases List.mem_pair.mp h with rfl | rfl
      · exact List.sublist_append_left _ _
      · exact List.sublist_append_right _ _
  | parallel s bs =>
      have hbranch : P'.transitions.Sublist (transitionsAll bs) := by
        induction bs with
        | nil => cases h
        | cons b bs ih =>
            rcases List.mem_cons.mp h with rfl | h
            · exact List.sublist_append_left _ _
            · exact (ih h).trans (List.sublist_append_right _ _)
      exact (hbranch.trans (List.sublist_append_left _ _)).cons _
  | gateway s g bs =>
      have hbranch : ∀ i, P'.transitions.Sublist (arms s g i bs) := by
        induction bs with
        | nil => cases h
        | cons b bs ih =>
            intro i
            rw [arms]
            rcases List.mem_cons.mp h with rfl | h
            · exact (List.sublist_append_left _ _).cons _
            · exact (((ih h (i + 1)).cons _).trans (List.sublist_append_right _ _)).cons _
      exact hbranch 0
  | loop s body x n =>
      obtain rfl := List.mem_singleton.mp h
      exact (List.sublist_append_left _ _).cons _

/-- The transitions of a part come in the order in which they come in the whole. -/
theorem Part.transitions_sublist (h : Part Q P) : Q.transitions.Sublist P.transitions :=
  h.climb (List.Sublist.refl _) fun hP' _ ih =>
    List.Sublist.trans ih (Piece.transitions_sublist hP')

theorem transitions_subset {P' : Piece α} (h : P' ∈ P.parts) : P'.transitions ⊆ P.transitions :=
  (transitions_sublist h).subset

theorem Part.transitions_subset (h : Part Q P) : Q.transitions ⊆ P.transitions :=
  h.transitions_sublist.subset

/-- The piece adds the transition to those of the pieces below it. -/
inductive Adds : Piece α → Transition α → Prop where
  | run (s : Site α) (v : List α) : Adds (.task s v) s.run
  | fork (s : Site α) (bs : List (Piece α)) : Adds (.parallel s bs) (s.fork bs)
  | join (s : Site α) (bs : List (Piece α)) : Adds (.parallel s bs) (s.join bs)
  | pick (s : Site α) (g : Gate α) {bs : List (Piece α)} {i : Nat} {b : Piece α}
      (hi : bs[i]? = some b) : Adds (.gateway s g bs) (s.pick g i b)
  | merge (s : Site α) (g : Gate α) {bs : List (Piece α)} {i : Nat} {b : Piece α}
      (hi : bs[i]? = some b) : Adds (.gateway s g bs) (s.merge g i b)
  | enter (s : Site α) (body : Piece α) (x : α) (n : Nat) : Adds (.loop s body x n) (s.enter body)
  | back (s : Site α) (body : Piece α) (x : α) (n : Nat) : Adds (.loop s body x n) (s.back body x)
  | leave (s : Site α) (body : Piece α) (x : α) (n : Nat) :
      Adds (.loop s body x n) (s.leave body x)

/-- A transition of a piece is one of its own, or comes from below. -/
theorem adds_or_below (ht : t ∈ P.transitions) :
    P.Adds t ∨ ∃ P' ∈ P.parts, t ∈ P'.transitions := by
  cases P with
  | task s v =>
      obtain rfl := List.mem_singleton.mp ht
      exact Or.inl (.run s v)
  | sequential s P₁ P₂ =>
      rcases List.mem_append.mp ht with ht | ht
      · exact Or.inr ⟨P₁, List.mem_cons_self, ht⟩
      · exact Or.inr ⟨P₂, List.mem_cons_of_mem _ List.mem_cons_self, ht⟩
  | parallel s bs =>
      rcases List.mem_cons.mp ht with rfl | ht
      · exact Or.inl (.fork s bs)
      rcases List.mem_append.mp ht with ht | ht
      · exact Or.inr (mem_transitionsAll.mp ht)
      · obtain rfl := List.mem_singleton.mp ht
        exact Or.inl (.join s bs)
  | gateway s g bs =>
      obtain ⟨i, b, hi, hown⟩ := mem_arms.mp ht
      rw [Nat.zero_add] at hown
      rcases hown with rfl | ht | rfl
      · exact Or.inl (.pick s g hi)
      · exact Or.inr ⟨b, List.mem_of_getElem? hi, ht⟩
      · exact Or.inl (.merge s g hi)
  | loop s body x n =>
      rcases List.mem_cons.mp ht with rfl | ht
      · exact Or.inl (.enter s body x n)
      rcases List.mem_append.mp ht with ht | ht
      · exact Or.inr ⟨body, List.mem_cons_self, ht⟩
      rcases List.mem_pair.mp ht with rfl | rfl
      · exact Or.inl (.back s body x n)
      · exact Or.inl (.leave s body x n)

/-- Every transition is added by some part. -/
theorem exists_adds (ht : t ∈ P.transitions) : ∃ Q, Part Q P ∧ Q.Adds t := by
  induction P using Piece.parts_induct with
  | step P ih =>
      rcases adds_or_below ht with hown | ⟨P', hP', ht⟩
      · exact ⟨P, .self, hown⟩
      · obtain ⟨Q, hpart, hown⟩ := ih P' hP' ht
        exact ⟨Q, .of_parts hP' hpart, hown⟩

theorem Adds.regionId (h : P.Adds t) : t.regionId = P.site.head.id := by
  cases h <;> rfl

theorem regionId_mem_ids (ht : t ∈ P.transitions) : t.regionId ∈ P.block.ids := by
  induction P using Piece.parts_induct with
  | step P ih =>
      rcases adds_or_below ht with hown | ⟨P', hP', ht⟩
      · rw [ids_block, hown.regionId]
        exact List.mem_cons_self
      · exact Piece.ids_subset hP' (ih P' hP' ht)

/-- A transition with an id of a part is a transition of the part. -/
theorem Part.mem_of_regionId (h : Part Q P) (hnodup : P.block.ids.Nodup) (ht : t ∈ P.transitions)
    (hid : t.regionId ∈ Q.block.ids) : t ∈ Q.transitions := by
  revert hnodup ht
  refine h.climb (motive := fun P => P.block.ids.Nodup → t ∈ P.transitions → t ∈ Q.transitions)
    ?_ ?_
  · intro _ ht
    exact ht
  · intro P P' hP' hpart ih hnodup ht
    apply ih (Piece.nodup_ids hP' hnodup)
    rcases adds_or_below ht with hown | ⟨P'', hP'', ht⟩
    · rw [ids_block, List.nodup_cons] at hnodup
      have hmem : t.regionId ∈ P.parts.flatMap fun b => b.block.ids :=
        List.mem_flatMap.mpr ⟨P', hP', hpart.ids_subset hid⟩
      exact absurd (hown.regionId ▸ hmem) hnodup.1
    · rwa [eq_of_mem_ids hnodup hP' hP'' (hpart.ids_subset hid) (regionId_mem_ids ht)]

end

end Piece

/-! ## Regions and parts -/

namespace Region

variable [Quantity α] {r c : Region α} {n : Nat}

theorem head_of_block {blk : Block α} (h : r.block = .ok blk) : blk.head = r.head := by
  obtain ⟨_, shape, _, _, rfl⟩ := shape_of_block h
  cases shape <;> rfl

theorem kind_of_block {blk : Block α} (h : r.block = .ok blk) : r.kind = blk.kind := by
  obtain ⟨bs, shape, -, hshape, rfl⟩ := shape_of_block h
  unfold shapeOver at hshape
  cases hkind : r.kind <;> simp only [hkind] at hshape
  case task =>
    obtain ⟨v, -, rfl⟩ := Option.map_eq_some_iff.mp hshape
    rfl
  all_goals
    repeat' split at hshape
    all_goals cases hshape
    all_goals rfl

/-- A sound region keeps all its children in its shape. -/
theorem children_of_shape {bs : List (Block α)} {shape : Shape α (Block α)} (hsound : r.Sound n)
    (hlength : bs.length = r.branches.length) (h : r.shapeOver bs = some shape) :
    (Block.ofShape r.head shape).children = bs := by
  unfold Sound kindFault at hsound
  unfold shapeOver at h
  -- a task has no children; the other shapes list those that they are over
  cases hkind : r.kind <;> simp only [hkind, orElse_eq_none_iff] at hsound h
  case task =>
    have hnone : r.branches = [] := by simpa using hsound.1
    obtain ⟨v, -, rfl⟩ := Option.map_eq_some_iff.mp h
    rw [hnone] at hlength
    exact (List.eq_nil_of_length_eq_zero hlength).symm
  all_goals
    repeat' split at h
    all_goals cases h
    all_goals rfl

/-- The children of a sound region are those of its block. -/
theorem forall₂_children {blk : Block α} (hsound : r.Sound n) (h : r.block = .ok blk) :
    List.Forall₂ (fun c b => c.block = .ok b) r.branches blk.children := by
  obtain ⟨bs, shape, hbs, hshape, rfl⟩ := shape_of_block h
  have hall := forall₂_of_blocks hbs
  rwa [children_of_shape hsound hall.length_eq.symm hshape]

/-- Every region below a region becomes a part of its piece. -/
theorem exists_part {P : Piece α} (hsound : ∀ c ∈ r.preorder, c.Sound n)
    (h : r.block = .ok P.block) (hc : c ∈ r.preorder) :
    ∃ Q, Piece.Part Q P ∧ c.block = .ok Q.block := by
  induction r using Region.ind generalizing P with
  | step r ih =>
      rw [preorder_eq] at hsound hc
      rcases List.mem_cons.mp hc with rfl | hc
      · exact ⟨P, .self, h⟩
      obtain ⟨hr, hbelow⟩ := List.forall_mem_cons.mp hsound
      obtain ⟨d, hd, hc⟩ := mem_preorders.mp hc
      obtain ⟨b, hb, hblock⟩ := exists_right_of_forall₂ (forall₂_children hr h) hd
      rw [Piece.children_block] at hb
      obtain ⟨P', hP', rfl⟩ := List.mem_map.mp hb
      obtain ⟨Q, hpart, hQ⟩ := ih d hd
        (fun e he => hbelow e (mem_preorders.mpr ⟨d, hd, he⟩)) hblock hc
      exact ⟨Q, .of_parts hP' hpart, hQ⟩

/-- Every part of a piece is what some region became. -/
theorem exists_region {P Q : Piece α} (hpart : Piece.Part Q P) :
    ∀ {r : Region α}, (∀ c ∈ r.preorder, c.Sound n) → r.block = .ok P.block →
      ∃ c ∈ r.preorder, c.block = .ok Q.block := by
  apply hpart.climb
  · intro r _ h
    exact ⟨r, r.mem_preorder_self, h⟩
  · intro P P' hP' _ ih r hsound h
    rw [preorder_eq] at hsound ⊢
    obtain ⟨hr, hbelow⟩ := List.forall_mem_cons.mp hsound
    have hmem : P'.block ∈ P.block.children := by
      rw [Piece.children_block]
      exact List.mem_map_of_mem hP'
    obtain ⟨d, hd, hblock⟩ := exists_left_of_forall₂ (forall₂_children hr h) hmem
    obtain ⟨c, hc, hQ⟩ := ih (fun c hc => hbelow c (mem_preorders.mpr ⟨d, hd, hc⟩)) hblock
    exact ⟨c, List.mem_cons_of_mem _ (mem_preorders.mpr ⟨d, hd, hc⟩), hQ⟩

/-- The piece of a loop has its id and its bound, and the body of the loop for its body. -/
theorem loop_of_block {Q : Piece α} (hsound : c.Sound n) (hkind : c.kind = .loop)
    (h : c.block = .ok Q.block) :
    ∃ s body x k d, Q = .loop s body x k ∧ s.head.id = c.id ∧ c.loopBound = some k ∧
      c.branches = [d] ∧ d.id = body.site.head.id := by
  have hchildren := forall₂_children hsound h
  have hhead := head_of_block h
  obtain ⟨bs, shape, hbs, hshape, he⟩ := shape_of_block h
  simp only [shapeOver, hkind] at hshape
  split at hshape
  · next b p k _ hk =>
      cases hshape
      cases Q with
      | gateway s g bs => cases g <;> cases he
      | loop s body x m =>
          obtain ⟨-, -, -, rfl⟩ := Block.loop.inj he
          obtain ⟨d, _, hd, hnil, hbranches⟩ := List.forall₂_cons_right_iff.mp hchildren
          rw [List.forall₂_nil_right_iff] at hnil
          subst hnil
          refine ⟨s, body, x, _, d, rfl, congrArg Head.id hhead, hk, hbranches, ?_⟩
          rw [← Piece.head_block]
          exact congrArg Head.id (head_of_block hd).symm
      | _ => cases he
  · cases hshape

end Region

end RegionNet
