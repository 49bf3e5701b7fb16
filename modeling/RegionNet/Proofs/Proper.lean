import Mathlib.Data.List.Forall2
import Mathlib.Data.List.Nodup
import RegionNet.Workflow.Basic

/-!
# Valid descriptions

What a description that passes `Region.validate` amounts to: it has a block, this block is proper,
and no id occurs twice in it. So `Workflow.compile` accepts exactly the valid descriptions.

`Block.Proper` keeps those rules that matter for the net: the numbers of branches and of their
probabilities, the bounds of loops, and the common length of the impact vectors.
-/

namespace RegionNet

variable {α : Type}

theorem exists_left_of_forall₂ {β γ : Type} {R : β → γ → Prop} {xs : List β} {ys : List γ}
    (h : List.Forall₂ R xs ys) {y : γ} (hy : y ∈ ys) : ∃ x ∈ xs, R x y := by
  induction h with
  | nil => cases hy
  | @cons x y' xs ys hxy _ ih =>
      rcases List.mem_cons.mp hy with rfl | hy
      · exact ⟨x, List.mem_cons_self, hxy⟩
      · obtain ⟨x', hx', hR⟩ := ih hy
        exact ⟨x', List.mem_cons_of_mem _ hx', hR⟩

theorem exists_right_of_forall₂ {β γ : Type} {R : β → γ → Prop} {xs : List β} {ys : List γ}
    (h : List.Forall₂ R xs ys) {x : β} (hx : x ∈ xs) : ∃ y ∈ ys, R x y :=
  exists_left_of_forall₂ (R := fun y x => R x y) h.flip hx

theorem exists_getElem?_of_forall₂ {β γ : Type} {R : β → γ → Prop} {xs : List β} {ys : List γ}
    (h : List.Forall₂ R xs ys) :
    ∀ {i : Nat} {x : β}, xs[i]? = some x → ∃ y, ys[i]? = some y ∧ R x y := by
  induction h with
  | nil =>
      intro i x hi
      cases hi
  | @cons x' y xs ys hxy _ ih =>
      intro i x hi
      cases i with
      | zero =>
          obtain rfl := Option.some.inj hi
          exact ⟨y, rfl, hxy⟩
      | succ i => exact ih hi

theorem pairwise_of_forall₂ {β γ : Type} {R : β → γ → Prop} {S : β → β → Prop} {T : γ → γ → Prop}
    {xs : List β} {ys : List γ} (h : List.Forall₂ R xs ys) (hxs : xs.Pairwise S)
    (hST : ∀ x x' y y', R x y → R x' y' → S x x' → T y y') : ys.Pairwise T := by
  induction h with
  | nil => exact .nil
  | @cons x y xs ys hxy hrest ih =>
      obtain ⟨hx, hxs⟩ := List.pairwise_cons.mp hxs
      refine List.pairwise_cons.mpr ⟨fun y' hy' => ?_, ih hxs⟩
      obtain ⟨x', hx', hR⟩ := exists_left_of_forall₂ hrest hy'
      exact hST x x' y y' hxy hR (hx x' hx')

namespace Block

/-- A property of all blocks holds if it passes from the parts of a block to the block. -/
theorem ind {motive : Block α → Prop}
    (task : ∀ h v, motive (.task h v))
    (sequential : ∀ h one two, motive one → motive two → motive (.sequential h one two))
    (parallel : ∀ h bs, (∀ b ∈ bs, motive b) → motive (.parallel h bs))
    (choice : ∀ h bs ps, (∀ b ∈ bs, motive b) → motive (.choice h bs ps))
    (nature : ∀ h bs ps, (∀ b ∈ bs, motive b) → motive (.nature h bs ps))
    (loop : ∀ h body p n, motive body → motive (.loop h body p n))
    (blk : Block α) : motive blk :=
  Block.rec (motive_1 := motive) (motive_2 := fun bs => ∀ b ∈ bs, motive b)
    task sequential parallel choice nature loop
    (fun _ h => absurd h List.not_mem_nil)
    (fun _ _ hb hbs _ hc => by
      rcases List.mem_cons.mp hc with rfl | hc
      · exact hb
      · exact hbs _ hc)
    blk

mutual

/-- The rules for numbers of branches, for bounds, and for impact vectors of length `n`. -/
def Proper (n : Nat) : Block α → Prop
  | .task _ v => v.length = n
  | .sequential _ one two => one.Proper n ∧ two.Proper n
  | .parallel _ bs => 2 ≤ bs.length ∧ AllProper n bs
  | .choice _ bs ps => 2 ≤ bs.length ∧ (∀ qs ∈ ps, qs.length = bs.length) ∧ AllProper n bs
  | .nature _ bs ps => 2 ≤ bs.length ∧ ps.length = bs.length ∧ AllProper n bs
  | .loop _ body _ k => 1 ≤ k ∧ body.Proper n

def AllProper (n : Nat) : List (Block α) → Prop
  | [] => True
  | b :: bs => b.Proper n ∧ AllProper n bs

end

theorem allProper_iff {n : Nat} {bs : List (Block α)} :
    AllProper n bs ↔ ∀ b ∈ bs, b.Proper n := by
  induction bs with
  | nil => simp [AllProper]
  | cons b bs ih => rw [AllProper, ih, List.forall_mem_cons]

mutual

/-- The ids of a block in document order. -/
def ids : Block α → List String
  | .task h _ => [h.id]
  | .sequential h one two => h.id :: (one.ids ++ two.ids)
  | .parallel h bs => h.id :: idsAll bs
  | .choice h bs _ => h.id :: idsAll bs
  | .nature h bs _ => h.id :: idsAll bs
  | .loop h body _ _ => h.id :: body.ids

def idsAll : List (Block α) → List String
  | [] => []
  | b :: bs => b.ids ++ idsAll bs

end

end Block

namespace Region

/-- A property of all regions holds if it passes from the children of a region to the region. -/
theorem ind {motive : Region α → Prop}
    (step : ∀ r : Region α, (∀ c ∈ r.branches, motive c) → motive r) (r : Region α) : motive r :=
  Region.rec (motive_1 := motive) (motive_2 := fun cs => ∀ c ∈ cs.getD [], motive c)
    (motive_3 := fun cs => ∀ c ∈ cs, motive c)
    (fun _ _ _ _ _ _ _ _ ih => step _ ih)
    (fun _ h => absurd h List.not_mem_nil)
    (fun _ ih => ih)
    (fun _ h => absurd h List.not_mem_nil)
    (fun _ _ hr hrs _ hc => by
      rcases List.mem_cons.mp hc with rfl | hc
      · exact hr
      · exact hrs _ hc)
    r

theorem preorder_eq (r : Region α) : r.preorder = r :: preorders r.branches := by
  obtain ⟨_, _, _, _, _, children, _, _⟩ := r
  cases children <;> rfl

theorem mem_preorder_self (r : Region α) : r ∈ r.preorder := by
  rw [preorder_eq]
  exact List.mem_cons_self

theorem mem_preorders {r : Region α} {rs : List (Region α)} :
    r ∈ preorders rs ↔ ∃ c ∈ rs, r ∈ c.preorder := by
  induction rs with
  | nil => simp [preorders]
  | cons c rs ih => simp [preorders, ih]

theorem mem_impactLength_visit {seen : Visited} {r : Region α} {m : Nat}
    (hm : m ∈ seen.impactLength) : m ∈ (r.visit seen).impactLength := by
  rw [Option.mem_def] at hm
  unfold visit
  rw [hm]
  cases r.kind <;> rfl

theorem arity_of_childCount {r : Region α} (h : r.childCount = none) :
    r.kind.arity.allows r.branches.length = true := Fault.require_eq_none_iff.mp h

theorem two_le_of_childCount {r : Region α} (h : r.childCount = none)
    (hkind : r.kind = .parallel ∨ r.kind = .choice ∨ r.kind = .nature) : 2 ≤ r.branches.length := by
  have harity := arity_of_childCount h
  rcases hkind with hkind | hkind | hkind
  all_goals
    rw [hkind] at harity
    exact of_decide_eq_true harity

variable [Quantity α]

theorem block_eq (r : Region α) : r.block =
    match blocks r.branches with
    | .error culprit => .error culprit
    | .ok bs =>
      match r.shapeOver bs with
      | some shape => .ok (.ofShape r.head shape)
      | none => .error r := by
  obtain ⟨_, _, _, _, _, children, _, _⟩ := r
  cases children <;> rfl

/-- A region with a block has a shape over the blocks of its children. -/
theorem shape_of_block {r : Region α} {blk : Block α} (h : r.block = .ok blk) :
    ∃ bs shape, blocks r.branches = .ok bs ∧ r.shapeOver bs = some shape ∧
      blk = .ofShape r.head shape := by
  rw [block_eq] at h
  cases hbs : blocks r.branches with
  | error culprit =>
      rw [hbs] at h
      cases h
  | ok bs =>
      rw [hbs] at h
      cases hshape : r.shapeOver bs with
      | none => simp [hshape] at h
      | some shape =>
          simp only [hshape] at h
          cases h
          exact ⟨bs, shape, rfl, hshape, rfl⟩

/-! ## One region -/

theorem orElse_eq_none_iff {β : Type} {x y : Option β} :
    (x <|> y) = none ↔ x = none ∧ y = none := by
  simp

theorem orElse_eq_some_iff {β : Type} {x y : Option β} {b : β} :
    (x <|> y) = some b ↔ x = some b ∨ x = none ∧ y = some b := by
  simp

/-- The rules that a region obeys by itself, where impact vectors have length `n`. -/
def Sound (n : Nat) (r : Region α) : Prop := r.kindFault ⟨[], some n⟩ = none

/-- A region that passes is sound for the length that is remembered after it. -/
theorem sound_of_kindFault {seen : Visited} {r : Region α} {n : Nat}
    (h : r.kindFault seen = none) (hn : ∀ m ∈ (r.visit seen).impactLength, m = n) : r.Sound n := by
  unfold Sound kindFault at *
  cases hkind : r.kind <;> simp only [hkind] at h ⊢
  case task =>
    simp only [orElse_eq_none_iff] at h ⊢
    refine ⟨h.1, h.2.1, ?_⟩
    obtain ⟨-, -, htask⟩ := h
    unfold taskImpacts at *
    cases himpacts : r.impacts with
    | none => simp [himpacts] at htask
    | some v =>
        simp only [himpacts, orElse_eq_none_iff, Fault.require_eq_none_iff] at htask ⊢
        refine ⟨htask.1, (hn _ ?_).symm⟩
        cases hlength : seen.impactLength with
        | none => simp [visit, hkind, hlength, himpacts]
        | some m =>
            have hm : m = v.length := by simpa [hlength] using htask.2
            simp [visit, hkind, hlength, hm]
  all_goals exact h

/-- A list of regions that pass one after the other shares its ids and impact lengths with no
surprise: one length fits all, and the ids differ. -/
theorem sound_of_firstFault {rs : List (Region α)} : ∀ {seen : Visited},
    firstFault seen rs = none →
      (∃ n, (∀ m ∈ seen.impactLength, m = n) ∧ ∀ r ∈ rs, r.Sound n) ∧
        (∀ r ∈ rs, r.id ∉ seen.ids) ∧ (rs.map Region.id).Nodup := by
  induction rs with
  | nil =>
      intro seen _
      refine ⟨⟨seen.impactLength.getD 0, ?_, by simp⟩, by simp, List.nodup_nil⟩
      intro m hm
      rw [Option.mem_def.mp hm]
      rfl
  | cons r rs ih =>
      intro seen h
      obtain ⟨hfault, hrest⟩ : r.fault seen = none ∧ firstFault (r.visit seen) rs = none := by
        simpa [firstFault] using h
      obtain ⟨⟨n, hn, hsound⟩, hids, hnodup⟩ := ih hrest
      simp only [fault, orElse_eq_none_iff, Fault.require_eq_none_iff] at hfault
      obtain ⟨-, hid, -, -, hkind⟩ := hfault
      refine ⟨⟨n, fun m hm => hn m (mem_impactLength_visit hm), ?_⟩, ?_, ?_⟩
      · exact List.forall_mem_cons.mpr ⟨sound_of_kindFault hkind hn, hsound⟩
      · refine List.forall_mem_cons.mpr ⟨hid, fun c hc hmem => hids c hc ?_⟩
        exact List.mem_cons_of_mem _ hmem
      · refine List.nodup_cons.mpr ⟨fun hmem => ?_, hnodup⟩
        obtain ⟨c, hc, he⟩ := List.mem_map.mp hmem
        exact hids c hc (he ▸ List.mem_cons_self)

/-! ## The block of a valid description -/

/-- The block is proper, and its ids are those of the description. -/
def Describes (n : Nat) (r : Region α) (blk : Block α) : Prop :=
  blk.Proper n ∧ blk.ids = r.preorder.map Region.id

theorem blocks_cons {r : Region α} {rs : List (Region α)} {blk : Block α} {bs : List (Block α)}
    (hr : r.block = .ok blk) (hrs : blocks rs = .ok bs) : blocks (r :: rs) = .ok (blk :: bs) := by
  rw [blocks, hr, hrs]

theorem forall₂_of_blocks {rs : List (Region α)} : ∀ {bs : List (Block α)},
    blocks rs = .ok bs → List.Forall₂ (fun r b => r.block = .ok b) rs bs := by
  induction rs with
  | nil =>
      intro bs h
      cases h
      exact .nil
  | cons r rs ih =>
      intro bs h
      rw [blocks] at h
      cases hr : r.block with
      | error culprit =>
          rw [hr] at h
          cases h
      | ok b =>
          cases hrs : blocks rs with
          | error culprit =>
              rw [hr, hrs] at h
              cases h
          | ok bs' =>
              rw [hr, hrs] at h
              cases h
              exact .cons hr (ih hrs)

theorem blocks_of_forall {n : Nat} {rs : List (Region α)}
    (h : ∀ r ∈ rs, ∃ blk, r.block = .ok blk ∧ r.Describes n blk) :
    ∃ bs, blocks rs = .ok bs ∧ bs.length = rs.length ∧ (∀ b ∈ bs, b.Proper n) ∧
      Block.idsAll bs = (preorders rs).map Region.id := by
  induction rs with
  | nil => exact ⟨[], rfl, rfl, by simp, rfl⟩
  | cons r rs ih =>
      obtain ⟨blk, hblk, hproper, hids⟩ := h r List.mem_cons_self
      obtain ⟨bs, hbs, hlength, hall, hidsAll⟩ := ih fun c hc => h c (List.mem_cons_of_mem _ hc)
      refine ⟨blk :: bs, blocks_cons hblk hbs, ?_, List.forall_mem_cons.mpr ⟨hproper, hall⟩, ?_⟩
      · rw [List.length_cons, List.length_cons, hlength]
      · rw [Block.idsAll, preorders, List.map_append, hids, hidsAll]

/-- The probability of a loop that passes is a single one. -/
theorem exists_single_of_loopProbability {r : Region α} (h : r.loopProbability = none) :
    ∃ p, r.distribution = some (.single p) := by
  unfold loopProbability at h
  cases hd : r.distribution with
  | none => simp [hd] at h
  | some d =>
      cases d with
      | single p => exact ⟨p, rfl⟩
      | branches ps => simp [hd] at h

/-- A bound that passes allows one repetition at least. -/
theorem exists_loopBound_of_boundPresent {r : Region α} (h : r.boundPresent = none) :
    ∃ k, r.loopBound = some k ∧ 1 ≤ k := by
  unfold boundPresent at h
  cases hb : r.bound with
  | none => simp [hb] at h
  | some b =>
      rw [hb] at h
      obtain ⟨k, hk⟩ := Option.isSome_iff_exists.mp (Fault.require_eq_none_iff.mp h)
      refine ⟨k, hk, ?_⟩
      simp only [loopBound, hb, Option.bind_some] at hk
      split at hk
      · next hwhole =>
          obtain rfl := Option.some.inj hk
          exact hwhole.2.1
      · cases hk

theorem branchFlaw_branches {kind : Kind} {n : Nat} {ps : List α} :
    branchFlaw kind n (.branches ps) = none ↔ ps.length = n ∧ ps.all isShare = true ∧
      ¬(Quantity.slack < Quantity.sum ps - 1 ∨ Quantity.slack < 1 - Quantity.sum ps) := by
  simp only [branchFlaw]
  split
  · next hlength => exact iff_of_false (by simp) fun h => hlength h.1
  · next hlength =>
      rw [ne_eq, Decidable.not_not] at hlength
      split
      · next hall => exact iff_of_false (by simp) fun h => by simp [hall] at h
      · next hall =>
          rw [Bool.not_eq_false] at hall
          simp [hlength, hall]

/-- The probabilities that pass for `m` branches are `m` in number. -/
theorem length_of_branchFlaw {kind : Kind} {m : Nat} {d : Distribution α}
    (h : branchFlaw kind m d = none) : ∃ ps, d = .branches ps ∧ ps.length = m := by
  cases d with
  | single p => simp [branchFlaw] at h
  | branches ps => exact ⟨ps, rfl, (branchFlaw_branches.mp h).1⟩

/-- A sound region has a shape over any blocks that stand in for its children, and with proper ones
it makes a proper block. -/
theorem shape_of_sound {n : Nat} {r : Region α} {bs : List (Block α)} (h : r.Sound n)
    (hlength : bs.length = r.branches.length) (hproper : ∀ b ∈ bs, b.Proper n) :
    ∃ shape, r.shapeOver bs = some shape ∧ (Block.ofShape r.head shape).Proper n ∧
      (Block.ofShape r.head shape).ids = r.id :: Block.idsAll bs := by
  have hall := Block.allProper_iff.mpr hproper
  unfold Sound kindFault at h
  unfold shapeOver
  -- one case for each kind; what was checked is what the shape asks for
  cases hkind : r.kind <;> simp only [hkind, orElse_eq_none_iff] at h ⊢
  case task =>
    obtain ⟨hempty, -, himpacts⟩ := h
    have hnone : r.branches = [] := by simpa using hempty
    obtain rfl : bs = [] := by simpa [hnone] using hlength
    unfold taskImpacts at himpacts
    cases hv : r.impacts with
    | none => simp [hv] at himpacts
    | some v =>
        simp only [hv, orElse_eq_none_iff, Fault.require_eq_none_iff] at himpacts
        exact ⟨.task v, rfl, himpacts.2.symm, rfl⟩
  case sequential =>
    have harity := arity_of_childCount h.2.2
    rw [hkind] at harity
    have htwo : r.branches.length = 2 := beq_iff_eq.mp harity
    obtain ⟨one, two, rfl⟩ := List.length_eq_two.mp (hlength.trans htwo)
    have hboth : one.Proper n ∧ two.Proper n := by simpa using hproper
    exact ⟨.sequential one two, rfl, hboth, by simp [Block.ofShape, Block.ids, Block.idsAll, head]⟩
  case parallel =>
    have htwo : 2 ≤ bs.length := hlength ▸ two_le_of_childCount h.2.2 (by simp [hkind])
    exact ⟨.parallel bs, if_pos htwo, ⟨htwo, hall⟩, rfl⟩
  case choice =>
    obtain ⟨-, hcount, hdistribution⟩ := h
    have htwo : 2 ≤ bs.length := hlength ▸ two_le_of_childCount hcount (by simp [hkind])
    rw [if_pos htwo]
    cases hd : r.distribution with
    | none => exact ⟨.choice bs none, rfl, ⟨htwo, by simp, hall⟩, rfl⟩
    | some d =>
        rw [hd, Option.bind_some, branchDistribution, Option.map_eq_none_iff] at hdistribution
        obtain ⟨ps, rfl, hps⟩ := length_of_branchFlaw hdistribution
        exact ⟨.choice bs (some ps), rfl, ⟨htwo, by simp [hps, hlength], hall⟩, rfl⟩
  case nature =>
    obtain ⟨-, hcount, hdistribution⟩ := h
    have htwo : 2 ≤ bs.length := hlength ▸ two_le_of_childCount hcount (by simp [hkind])
    cases hd : r.distribution with
    | none => simp [hd] at hdistribution
    | some d =>
        simp only [hd, branchDistribution, Option.map_eq_none_iff] at hdistribution
        obtain ⟨ps, rfl, hps⟩ := length_of_branchFlaw hdistribution
        exact ⟨.nature bs ps, if_pos htwo, ⟨htwo, hps.trans hlength.symm, hall⟩, rfl⟩
  case loop =>
    obtain ⟨-, hcount, hprobability, hbound⟩ := h
    have harity := arity_of_childCount hcount
    rw [hkind] at harity
    have hone : r.branches.length = 1 := beq_iff_eq.mp harity
    obtain ⟨body, rfl⟩ := List.length_eq_one_iff.mp (hlength.trans hone)
    obtain ⟨p, hp⟩ := exists_single_of_loopProbability hprobability
    obtain ⟨k, hk, hpos⟩ := exists_loopBound_of_boundPresent hbound
    rw [hp, hk]
    exact ⟨.loop body p k, rfl, ⟨hpos, hproper body List.mem_cons_self⟩,
      by simp [Block.ofShape, Block.ids, Block.idsAll, head]⟩

/-- Sound regions make up proper blocks. -/
theorem block_of_sound {n : Nat} (r : Region α) (h : ∀ c ∈ r.preorder, c.Sound n) :
    ∃ blk, r.block = .ok blk ∧ r.Describes n blk := by
  induction r using Region.ind with
  | step r ih =>
      rw [preorder_eq] at h
      obtain ⟨hr, hbelow⟩ := List.forall_mem_cons.mp h
      obtain ⟨bs, hbs, hlength, hproper, hids⟩ := blocks_of_forall fun c hc =>
        ih c hc fun d hd => hbelow d (mem_preorders.mpr ⟨c, hc, hd⟩)
      obtain ⟨shape, hshape, hproper, hhead⟩ := shape_of_sound hr hlength hproper
      refine ⟨.ofShape r.head shape, ?_, hproper, ?_⟩
      · rw [block_eq, hbs]
        simp only [hshape]
      · rw [hhead, hids, preorder_eq, List.map_cons]

/-- In a description that passes every region is sound, and no id occurs twice. -/
theorem rules_of_validate {r : Region α} (h : r.validate = .ok ()) :
    (∃ n, ∀ c ∈ r.preorder, c.Sound n) ∧ (r.preorder.map Region.id).Nodup := by
  unfold validate at h
  have hnone : firstFault .none r.preorder = none := by
    cases hf : firstFault .none r.preorder with
    | none => rfl
    | some f => rw [hf] at h; cases h
  obtain ⟨⟨n, -, hsound⟩, -, hnodup⟩ := sound_of_firstFault hnone
  exact ⟨⟨n, hsound⟩, hnodup⟩

/-- A description that passes has a proper block in which no id occurs twice. -/
theorem block_of_validate {r : Region α} (h : r.validate = .ok ()) :
    ∃ blk n, r.block = .ok blk ∧ blk.Proper n ∧ blk.ids.Nodup := by
  obtain ⟨⟨n, hsound⟩, hnodup⟩ := rules_of_validate h
  obtain ⟨blk, hblk, hproper, hids⟩ := block_of_sound r hsound
  exact ⟨blk, n, hblk, hproper, hids ▸ hnodup⟩

end Region

/-- A small description with a region of each kind. -/
def Region.sample : Region Rat :=
  let task (id : String) (cost : Rat) : Region Rat :=
    ⟨id, .task, none, 1, some [cost], none, none, none⟩
  let node (id : String) (kind : Kind) (children : List (Region Rat))
      (distribution : Option (Distribution Rat)) (bound : Option Rat) : Region Rat :=
    ⟨id, kind, none, 0, none, some children, distribution, bound⟩
  let draw := node "draw" .nature [task "d" 3, task "e" 0] (some (.branches [1 / 4, 3 / 4])) none
  let choose := node "choose" .choice [task "c" 1, draw] none none
  node "root" .sequential
    [node "both" .parallel [task "a" 2, task "b" 5] none none,
      node "again" .loop [choose] (some (.single (1 / 2))) (some 2)] none none

theorem Region.sample_valid : Region.sample.validate = .ok () := by decide +kernel

namespace Workflow

variable [Quantity α] {r : Region α}

/-- A description that passes is compiled. -/
theorem compile_of_validate (h : r.validate = .ok ()) :
    ∃ blk n, r.block = .ok blk ∧ compile r = .ok (.ofBlock blk) ∧ blk.Proper n ∧
      blk.ids.Nodup := by
  obtain ⟨blk, n, hblk, hproper, hnodup⟩ := Region.block_of_validate h
  refine ⟨blk, n, hblk, ?_, hproper, hnodup⟩
  rw [compile, h, hblk]

/-- The compiler refuses what the rules refuse, for the same reason. -/
theorem compile_of_fault {f : Fault α} (h : r.validate = .error f) :
    compile r = .error f := by
  rw [compile, h]

theorem compile_eq_error_iff {f : Fault α} :
    compile r = .error f ↔ r.validate = .error f := by
  refine ⟨fun h => ?_, compile_of_fault⟩
  cases hr : r.validate with
  | error g =>
      rw [compile_of_fault hr] at h
      rw [Except.error.inj h]
  | ok =>
      obtain ⟨blk, n, -, hw, -⟩ := compile_of_validate hr
      rw [hw] at h
      cases h

theorem compile_eq_ok_iff : (∃ w, compile r = .ok w) ↔ r.validate = .ok () := by
  constructor
  · rintro ⟨w, hw⟩
    cases hr : r.validate with
    | error f =>
        rw [compile_of_fault hr] at hw
        cases hw
    | ok => rfl
  · intro hr
    obtain ⟨blk, n, -, hw, -⟩ := compile_of_validate hr
    exact ⟨_, hw⟩

end Workflow

end RegionNet
