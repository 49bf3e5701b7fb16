import RegionNet.Proofs.Doubles
import RegionNet.Proofs.Proper

/-!
# Well-formed descriptions

The rules for a description, region by region and without the order in which they are checked:
`Region.WellFormed`. `Region.validate` accepts exactly the descriptions that obey them, whatever
floating-point numbers stand in their fields.
-/

namespace RegionNet.Region

/-! ## The rules -/

/-- A finite number from zero on. -/
def Amount (x : Float) : Prop := x.isFinite = true ∧ 0 ≤ x

/-- Each of `n` branches has a probability, and together they make up one, with some slack. -/
structure Shares (n : Nat) (ps : List Float) : Prop where
  length_eq : ps.length = n
  unit : ∀ p ∈ ps, 0 ≤ p ∧ p ≤ 1
  sum : (Quantity.sum ps - 1).abs ≤ 1e-9

/-- The number of times that a loop may repeat. -/
def Limit (b : Float) : Prop := ∃ n : Nat, 1 ≤ n ∧ n ≤ 4294967295 ∧ b = Float.ofNat n

/-- The fields that depend on the kind are those of the kind. -/
def Fits (r : Region Float) : Prop :=
  match r.kind with
  | .task => r.branches = [] ∧ r.distribution = none ∧ ∃ v, r.impacts = some v ∧ ∀ x ∈ v, Amount x
  | .sequential => r.branches.length = 2 ∧ r.impacts = none ∧ r.distribution = none
  | .parallel => 2 ≤ r.branches.length ∧ r.impacts = none ∧ r.distribution = none
  | .choice =>
    2 ≤ r.branches.length ∧ r.impacts = none ∧
      ∀ d, r.distribution = some d → ∃ ps, d = .branches ps ∧ Shares r.branches.length ps
  | .nature =>
    2 ≤ r.branches.length ∧ r.impacts = none ∧
      ∃ ps, r.distribution = some (.branches ps) ∧ Shares r.branches.length ps
  | .loop =>
    r.branches.length = 1 ∧ r.impacts = none ∧
      (∃ p, r.distribution = some (.single p) ∧ 0 < p ∧ p < 1) ∧
      ∃ b, r.bound = some b ∧ Limit b

/-- The rules for a description and all regions in it. -/
structure WellFormed (r : Region Float) : Prop where
  named : ∀ c ∈ r.preorder, Text.trim c.id.toList ≠ []
  distinct : (r.preorder.map Region.id).Nodup
  durations : ∀ c ∈ r.preorder, Amount c.duration
  bounds : ∀ c ∈ r.preorder, c.bound ≠ none → c.kind = .loop
  fits : ∀ c ∈ r.preorder, c.Fits
  oneLength : ∃ n, ∀ c ∈ r.preorder, c.kind = .task → ∀ v, c.impacts = some v → v.length = n

/-! ## What is remembered along the way -/

section

variable {α : Type} [Quantity α]

/-- The rules that a region obeys whatever its kind. -/
def Plain (r : Region α) : Prop :=
  Text.blank r.id.toList = false ∧ isAmount r.duration = true ∧
    (r.bound.isSome = true → r.kind = .loop)

theorem fault_eq_none_iff {seen : Visited} {r : Region α} :
    r.fault seen = none ↔ r.Plain ∧ r.id ∉ seen.ids ∧ r.kindFault seen = none := by
  simp only [fault, orElse_eq_none_iff, Fault.require_eq_none_iff, Plain]
  tauto

/-- A sound region passes where only its own length of impact vectors is remembered. -/
theorem kindFault_of_sound {seen : Visited} {r : Region α} {n : Nat} (h : r.Sound n)
    (hn : ∀ m ∈ seen.impactLength, m = n) : r.kindFault seen = none := by
  unfold Sound kindFault at *
  cases hkind : r.kind <;> simp only [hkind] at h ⊢
  case task =>
    simp only [orElse_eq_none_iff] at h ⊢
    refine ⟨h.1, h.2.1, ?_⟩
    obtain ⟨-, -, htask⟩ := h
    unfold taskImpacts at *
    cases himpacts : r.impacts with
    | none => simp [himpacts] at htask
    | some v =>
        simp only [himpacts, orElse_eq_none_iff, Fault.require_eq_none_iff] at htask ⊢
        refine ⟨htask.1, ?_⟩
        cases hlength : seen.impactLength with
        | none => rfl
        | some m => exact Fault.require_eq_none_iff.mpr ((hn m hlength).trans htask.2)
  all_goals exact h

theorem impactLength_visit {seen : Visited} {r : Region α} {n : Nat} (h : r.Sound n)
    (hn : ∀ m ∈ seen.impactLength, m = n) : ∀ m ∈ (r.visit seen).impactLength, m = n := by
  intro m hm
  cases hlength : seen.impactLength with
  | some k =>
      rw [mem_impactLength_visit (Option.mem_def.mpr hlength)] at hm
      exact Option.some.inj hm ▸ hn k hlength
  | none =>
      -- only a task adds a length, and that is its own
      unfold Sound kindFault at h
      unfold visit at hm
      cases hkind : r.kind <;> simp only [hkind, hlength] at h hm <;> try cases hm
      simp only [orElse_eq_none_iff] at h
      obtain ⟨-, -, htask⟩ := h
      unfold taskImpacts at htask
      cases himpacts : r.impacts with
      | none => simp [himpacts] at htask
      | some v =>
          simp only [himpacts, orElse_eq_none_iff, Fault.require_eq_none_iff] at htask hm
          cases hm
          exact htask.2.symm

/-- A list of regions passes one after the other exactly if every region obeys the rules by itself,
one length fits all impact vectors, and the ids differ. -/
theorem firstFault_eq_none_iff {rs : List (Region α)} : ∀ {seen : Visited},
    firstFault seen rs = none ↔
      (∃ n, (∀ m ∈ seen.impactLength, m = n) ∧ ∀ r ∈ rs, r.Sound n) ∧
        ((∀ r ∈ rs, r.id ∉ seen.ids) ∧ (rs.map Region.id).Nodup) ∧ ∀ r ∈ rs, r.Plain := by
  intro seen
  constructor
  · intro h
    obtain ⟨hsound, hids, hnodup⟩ := sound_of_firstFault h
    refine ⟨hsound, ⟨hids, hnodup⟩, ?_⟩
    clear hsound hids hnodup
    induction rs generalizing seen with
    | nil => simp
    | cons r rs ih =>
        obtain ⟨hfault, hrest⟩ : r.fault seen = none ∧ firstFault (r.visit seen) rs = none := by
          simpa [firstFault] using h
        exact List.forall_mem_cons.mpr ⟨(fault_eq_none_iff.mp hfault).1, ih hrest⟩
  · induction rs generalizing seen with
    | nil => exact fun _ => rfl
    | cons r rs ih =>
        rintro ⟨⟨n, hn, hsound⟩, ⟨hids, hnodup⟩, hplain⟩
        obtain ⟨hr, hsound⟩ := List.forall_mem_cons.mp hsound
        obtain ⟨hid, hids⟩ := List.forall_mem_cons.mp hids
        obtain ⟨hfresh, hnodup⟩ := List.nodup_cons.mp hnodup
        obtain ⟨hplain, hrest⟩ := List.forall_mem_cons.mp hplain
        refine orElse_eq_none_iff.mpr ⟨?_, ih ⟨⟨n, ?_, hsound⟩, ⟨?_, hnodup⟩, hrest⟩⟩
        · exact fault_eq_none_iff.mpr ⟨hplain, hid, kindFault_of_sound hr hn⟩
        · exact impactLength_visit hr hn
        · intro c hc hmem
          rcases List.mem_cons.mp hmem with he | hmem
          · exact hfresh (List.mem_map.mpr ⟨c, hc, he⟩)
          · exact hids c hc hmem

theorem validate_eq_ok {r : Region α} :
    r.validate = .ok () ↔ firstFault .none r.preorder = none := by
  unfold validate
  cases firstFault .none r.preorder <;> simp

end

/-! ## One region -/

theorem isAmount_iff {x : Float} : isAmount x = true ↔ Amount x := by
  simp only [isAmount, Bool.and_eq_true, Bool.not_eq_true', decide_eq_false_iff_not]
  exact and_congr_right not_lt_zero_iff

theorem isShare_iff {p : Float} : isShare p = true ↔ 0 ≤ p ∧ p ≤ 1 := by
  simp only [isShare, Bool.and_eq_true, decide_eq_true_eq]
  exact ⟨And.right, fun h => ⟨isFinite_of_le_one h.1 h.2, h⟩⟩

theorem zero_le_foldl {ps : List Float} (h : ∀ p ∈ ps, 0 ≤ p) :
    ∀ {x : Float}, 0 ≤ x → 0 ≤ ps.foldl (· + ·) x := by
  induction ps with
  | nil => exact fun hx => hx
  | cons p ps ih =>
      intro x hx
      obtain ⟨hp, hps⟩ := List.forall_mem_cons.mp h
      exact ih hps (add_nonneg_of_nonneg hx hp)

theorem zero_le_sum {ps : List Float} (h : ∀ p ∈ ps, 0 ≤ p) : 0 ≤ Quantity.sum ps := by
  cases ps with
  | nil => exact zero_le_iff.mpr trivial
  | cons p ps =>
      obtain ⟨hp, hps⟩ := List.forall_mem_cons.mp h
      exact zero_le_foldl hps hp

/-- With probabilities from zero to one, both ways to compare their sum with one agree. -/
theorem sum_near_one_iff {ps : List Float} (h : ∀ p ∈ ps, 0 ≤ p ∧ p ≤ 1) :
    (Quantity.sum ps - 1).abs ≤ 1e-9 ↔
      ¬(Quantity.slack < Quantity.sum ps - 1 ∨ Quantity.slack < 1 - Quantity.sum ps) := by
  have hslack : (Quantity.slack : Float) = 1e-9 := by decide +kernel
  rw [hslack]
  refine abs_sub_le_iff (parts_sub_ne_notANumber (zero_le_sum fun p hp => (h p hp).1) ?_) ?_
  · exact isFinite_iff.mpr (Or.inr ⟨.positive, _, _, _, rfl⟩)
  · exact ⟨_, _, _, rfl⟩

theorem branchFlaw_eq_none_iff {kind : Kind} {n : Nat} {d : Distribution Float} :
    branchFlaw kind n d = none ↔ ∃ ps, d = .branches ps ∧ Shares n ps := by
  cases d with
  | single p => simp [branchFlaw]
  | branches ps =>
      have hall : ps.all isShare = true ↔ ∀ p ∈ ps, 0 ≤ p ∧ p ≤ 1 := by
        simp only [List.all_eq_true, isShare_iff]
      rw [branchFlaw_branches, hall]
      constructor
      · rintro ⟨hlength, hunit, hnear⟩
        exact ⟨ps, rfl, hlength, hunit, (sum_near_one_iff hunit).mpr hnear⟩
      · rintro ⟨ps', he, hlength, hunit, hsum⟩
        cases he
        exact ⟨hlength, hunit, (sum_near_one_iff hunit).mp hsum⟩

theorem loopBound_isSome_iff {r : Region Float} :
    r.loopBound.isSome = true ↔ ∃ b, r.bound = some b ∧ Limit b := by
  unfold loopBound
  cases hb : r.bound with
  | none => simp
  | some b =>
      simp only [Option.bind_some, Option.some.injEq, exists_eq_left']
      constructor
      · intro h
        split at h
        · next hwhole =>
            obtain ⟨hbeq, hlow, hhigh⟩ := hwhole
            refine ⟨b.toUInt64.toNat, hlow, hhigh, ?_⟩
            exact (eq_toUInt64_iff hlow (lt_of_le_of_lt hhigh (by decide))).mp ⟨hbeq, rfl⟩
        · cases h
      · rintro ⟨n, hlow, hhigh, he⟩
        obtain ⟨hbeq, hn⟩ := (eq_toUInt64_iff hlow (lt_of_le_of_lt hhigh (by decide))).mpr he
        subst hn
        rw [if_pos ⟨hbeq, hlow, hhigh⟩]
        rfl

theorem boundPresent_eq_none_iff {r : Region Float} :
    r.boundPresent = none ↔ ∃ b, r.bound = some b ∧ Limit b := by
  unfold boundPresent
  cases hb : r.bound with
  | none => simp
  | some b =>
      have hlimit := loopBound_isSome_iff (r := r)
      rw [hb] at hlimit
      exact Fault.require_eq_none_iff.trans hlimit

theorem loopProbability_eq_none_iff {r : Region Float} :
    r.loopProbability = none ↔ ∃ p, r.distribution = some (.single p) ∧ 0 < p ∧ p < 1 := by
  unfold loopProbability
  cases hd : r.distribution with
  | none => simp
  | some d =>
      cases d with
      | branches ps => simp
      | single p =>
          simp only [Fault.require_eq_none_iff, Option.some.injEq, Distribution.single.injEq,
            exists_eq_left']
          exact Iff.rfl

theorem taskImpacts_eq_none_iff {r : Region Float} {n : Nat} :
    r.taskImpacts ⟨[], some n⟩ = none ↔
      ∃ v, r.impacts = some v ∧ (∀ x ∈ v, Amount x) ∧ v.length = n := by
  unfold taskImpacts
  cases hv : r.impacts with
  | none => simp
  | some v =>
      simp only [orElse_eq_none_iff, Fault.require_eq_none_iff, List.all_eq_true, isAmount_iff,
        Option.some.injEq, exists_eq_left']
      exact and_congr_right fun _ => eq_comm

/-- A region is sound exactly if its fields fit and its impact vector has the right length. -/
theorem sound_iff {r : Region Float} {n : Nat} :
    r.Sound n ↔ r.Fits ∧ (r.kind = .task → ∀ v, r.impacts = some v → v.length = n) := by
  have harity := Fault.require_eq_none_iff (c := r.kind.arity.allows r.branches.length = true)
    (f := Fault.childCount (α := Float) r.id r.kind r.kind.arity r.branches.length)
  rw [← childCount] at harity
  unfold Sound kindFault Fits
  cases hkind : r.kind <;>
    simp only [hkind, Kind.arity, Arity.allows, orElse_eq_none_iff, noImpacts, noDistribution,
      Fault.require_eq_none_iff, Option.isNone_iff_eq_none, beq_iff_eq, decide_eq_true_eq,
      List.isEmpty_iff, reduceCtorEq, false_implies, and_true] at harity ⊢
  case task =>
    rw [taskImpacts_eq_none_iff]
    constructor
    · rintro ⟨hnone, hd, v, hv, hamounts, hlength⟩
      refine ⟨⟨hnone, hd, v, hv, hamounts⟩, fun _ w hw => ?_⟩
      rw [hv] at hw
      exact Option.some.inj hw ▸ hlength
    · rintro ⟨⟨hnone, hd, v, hv, hamounts⟩, hlength⟩
      exact ⟨hnone, hd, v, hv, hamounts, hlength trivial v hv⟩
  case sequential =>
    rw [harity]
    tauto
  case parallel =>
    rw [harity]
    tauto
  case choice =>
    rw [harity]
    have hflaw : r.distribution.bind r.branchDistribution = none ↔
        ∀ d, r.distribution = some d → ∃ ps, d = .branches ps ∧ Shares r.branches.length ps := by
      simp only [Option.bind_eq_none_iff, branchDistribution, Option.map_eq_none_iff,
        branchFlaw_eq_none_iff]
    rw [hflaw]
    tauto
  case nature =>
    rw [harity]
    cases hd : r.distribution with
    | none => simp
    | some d =>
        simp only [branchDistribution, Option.map_eq_none_iff, branchFlaw_eq_none_iff,
          Option.some.injEq]
        tauto
  case loop =>
    rw [harity, loopProbability_eq_none_iff, boundPresent_eq_none_iff]
    tauto

theorem plain_iff {r : Region Float} :
    r.Plain ↔ Text.trim r.id.toList ≠ [] ∧ Amount r.duration ∧ (r.bound ≠ none → r.kind = .loop) := by
  rw [Plain, isAmount_iff, Ne, Text.trim_eq_nil_iff, Bool.not_eq_true, Option.isSome_iff_ne_none]

/-! ## Validity -/

/-- The descriptions that pass are the well-formed ones. -/
theorem validate_eq_ok_iff (r : Region Float) : r.validate = .ok () ↔ r.WellFormed := by
  rw [validate_eq_ok, firstFault_eq_none_iff]
  constructor
  · rintro ⟨⟨n, -, hsound⟩, ⟨-, hnodup⟩, hplain⟩
    exact
      { named := fun c hc => (plain_iff.mp (hplain c hc)).1
        distinct := hnodup
        durations := fun c hc => (plain_iff.mp (hplain c hc)).2.1
        bounds := fun c hc => (plain_iff.mp (hplain c hc)).2.2
        fits := fun c hc => (sound_iff.mp (hsound c hc)).1
        oneLength := ⟨n, fun c hc => (sound_iff.mp (hsound c hc)).2⟩ }
  · intro h
    obtain ⟨n, hlength⟩ := h.oneLength
    refine ⟨⟨n, by simp [Visited.none], ?_⟩, ⟨by simp [Visited.none], h.distinct⟩, ?_⟩
    · exact fun c hc => sound_iff.mpr ⟨h.fits c hc, hlength c hc⟩
    · exact fun c hc => plain_iff.mpr ⟨h.named c hc, h.durations c hc, h.bounds c hc⟩

end RegionNet.Region
