import RegionNet.Proofs.Proper

/-!
# The first fault

The report on a description is about the first region in document order that breaks a rule
(`Region.validate_eq_error_iff`); this is the one at which a walk over the tree stops that judges
each region before the regions below it (`Region.validate_eq_walk`). Whether a region breaks a rule
is settled when it is visited, by its own fields, by the number of its children, and by what is
remembered of the regions before it. So what comes later in a tree does not change the report
(`Region.Raised.of_agrees`).

Two rules look back at other regions. An id must not be that of an earlier region
(`Region.fault_eq_duplicateId_iff`), and the impact vector of a task must be as long as that of the
first task of all (`Region.fault_eq_impactLength_iff`).
-/

namespace RegionNet

namespace Fault

variable {α : Type}

/-- The rule is about one region only, whatever came before. -/
def Alone : Fault α → Prop
  | duplicateId _ => False
  | impactLength _ _ _ => False
  | _ => True

end Fault

namespace Region

open Fault (require require_eq_some_iff)

variable {α : Type}

/-! ## The rules that look back -/

section

variable [Quantity α] {r : Region α} {seen : Visited} {f : Fault α}

omit [Quantity α] in
theorem alone_of_noImpacts (h : r.noImpacts = some f) : f.Alone := by
  obtain ⟨-, rfl⟩ := require_eq_some_iff.mp h
  trivial

omit [Quantity α] in
theorem alone_of_noDistribution (h : r.noDistribution = some f) : f.Alone := by
  obtain ⟨-, rfl⟩ := require_eq_some_iff.mp h
  trivial

omit [Quantity α] in
theorem alone_of_childCount (h : r.childCount = some f) : f.Alone := by
  obtain ⟨-, rfl⟩ := require_eq_some_iff.mp h
  trivial

theorem alone_of_branchDistribution {d : Distribution α} (h : r.branchDistribution d = some f) :
    f.Alone := by
  obtain ⟨flaw, -, rfl⟩ := Option.map_eq_some_iff.mp h
  trivial

theorem alone_of_loopProbability (h : r.loopProbability = some f) : f.Alone := by
  unfold loopProbability at h
  split at h
  · cases h
    trivial
  · cases h
    trivial
  · obtain ⟨-, rfl⟩ := require_eq_some_iff.mp h
    trivial

theorem alone_of_boundPresent (h : r.boundPresent = some f) : f.Alone := by
  unfold boundPresent at h
  split at h
  · cases h
    trivial
  · obtain ⟨-, rfl⟩ := require_eq_some_iff.mp h
    trivial

theorem alone_or_impactLength (h : r.taskImpacts seen = some f) :
    f.Alone ∨ ∃ expected found, f = .impactLength r.id expected found := by
  unfold taskImpacts at h
  split at h
  · cases h
    exact Or.inl trivial
  rcases orElse_eq_some_iff.mp h with h | ⟨-, h⟩
  · obtain ⟨-, rfl⟩ := require_eq_some_iff.mp h
    exact Or.inl trivial
  · split at h
    · cases h
    · obtain ⟨-, rfl⟩ := require_eq_some_iff.mp h
      exact Or.inr ⟨_, _, rfl⟩

/-- Of the rules that depend on the kind, only one for tasks looks back. -/
theorem kindFault_cases (h : r.kindFault seen = some f) : f.Alone ∨
    (∃ expected found, f = .impactLength r.id expected found) ∧
      r.kind = .task ∧ r.branches = [] ∧ r.distribution = none ∧ r.taskImpacts seen = some f := by
  unfold kindFault at h
  cases hkind : r.kind <;> simp only [hkind, orElse_eq_some_iff] at h
  case task =>
    rcases h with h | ⟨hbranches, h | ⟨hdistribution, h⟩⟩
    · obtain ⟨-, rfl⟩ := require_eq_some_iff.mp h
      exact Or.inl trivial
    · exact Or.inl (alone_of_noDistribution h)
    · refine (alone_or_impactLength h).imp_right fun hlength => ⟨hlength, rfl, ?_, ?_, h⟩
      · exact List.isEmpty_iff.mp (Fault.require_eq_none_iff.mp hbranches)
      · exact Option.isNone_iff_eq_none.mp (Fault.require_eq_none_iff.mp hdistribution)
  case sequential | parallel =>
    rcases h with h | ⟨-, h | ⟨-, h⟩⟩
    · exact Or.inl (alone_of_noImpacts h)
    · exact Or.inl (alone_of_noDistribution h)
    · exact Or.inl (alone_of_childCount h)
  case choice =>
    rcases h with h | ⟨-, h | ⟨-, h⟩⟩
    · exact Or.inl (alone_of_noImpacts h)
    · exact Or.inl (alone_of_childCount h)
    · obtain ⟨d, -, h⟩ := Option.bind_eq_some_iff.mp h
      exact Or.inl (alone_of_branchDistribution h)
  case nature =>
    rcases h with h | ⟨-, h | ⟨-, h⟩⟩
    · exact Or.inl (alone_of_noImpacts h)
    · exact Or.inl (alone_of_childCount h)
    · split at h
      · cases h
        exact Or.inl trivial
      · exact Or.inl (alone_of_branchDistribution h)
  case loop =>
    rcases h with h | ⟨-, h | ⟨-, h | ⟨-, h⟩⟩⟩
    · exact Or.inl (alone_of_noImpacts h)
    · exact Or.inl (alone_of_childCount h)
    · exact Or.inl (alone_of_loopProbability h)
    · exact Or.inl (alone_of_boundPresent h)

/-- The region is a task with the impact vector `v` that obeys all rules but the one for the length
of this vector, where `ids` are in use. -/
structure LengthLeft (ids : List String) (r : Region α) (v : List α) : Prop where
  task : r.kind = .task
  named : Text.blank r.id.toList = false
  fresh : r.id ∉ ids
  duration : isAmount r.duration = true
  noBound : r.bound = none
  noChildren : r.branches = []
  noDistribution : r.distribution = none
  impacts : r.impacts = some v
  amounts : ∀ x ∈ v, isAmount x = true

theorem taskImpacts_eq_impactLength_iff {i : String} {expected found : Nat} :
    r.taskImpacts seen = some (.impactLength i expected found) ↔
      ∃ v, r.impacts = some v ∧ (∀ x ∈ v, isAmount x = true) ∧
        seen.impactLength = some expected ∧ expected ≠ v.length ∧ i = r.id ∧ found = v.length := by
  unfold taskImpacts
  cases hv : r.impacts with
  | none => simp
  | some v =>
      simp only [orElse_eq_some_iff, Fault.require_eq_none_iff, require_eq_some_iff, reduceCtorEq,
        and_false, false_or, List.all_eq_true, Option.some.injEq, exists_eq_left']
      refine and_congr_right fun _ => ?_
      cases seen.impactLength with
      | none => simp
      | some m =>
          simp only [require_eq_some_iff, Fault.impactLength.injEq, Option.some.injEq]
          constructor
          · rintro ⟨hne, rfl, rfl, rfl⟩
            exact ⟨rfl, hne, rfl, rfl⟩
          · rintro ⟨rfl, hne, rfl, rfl⟩
            exact ⟨hne, rfl, rfl, rfl⟩

/-- An id is rejected as a duplicate if it is in use. -/
theorem fault_eq_duplicateId_iff {i : String} : r.fault seen = some (.duplicateId i) ↔
    i = r.id ∧ Text.blank r.id.toList = false ∧ r.id ∈ seen.ids := by
  simp only [fault, orElse_eq_some_iff, require_eq_some_iff, Fault.require_eq_none_iff,
    reduceCtorEq, and_false, false_or, not_not, Fault.duplicateId.injEq]
  constructor
  · rintro ⟨hnamed, ⟨hseen, rfl⟩ | ⟨-, -, -, hkind⟩⟩
    · exact ⟨rfl, hnamed, hseen⟩
    · rcases kindFault_cases hkind with halone | ⟨⟨_, _, he⟩, -⟩
      · cases halone
      · cases he
  · rintro ⟨rfl, hnamed, hseen⟩
    exact ⟨hnamed, Or.inl ⟨hseen, rfl⟩⟩

/-- An impact vector is rejected for its length if nothing else is wrong with its task. -/
theorem fault_eq_impactLength_iff {i : String} {expected found : Nat} :
    r.fault seen = some (.impactLength i expected found) ↔ ∃ v, r.LengthLeft seen.ids v ∧
      seen.impactLength = some expected ∧ expected ≠ v.length ∧ i = r.id ∧ found = v.length := by
  simp only [fault, orElse_eq_some_iff, require_eq_some_iff, Fault.require_eq_none_iff,
    reduceCtorEq, and_false, false_or]
  constructor
  · rintro ⟨hnamed, hfresh, hduration, hbound, hkind⟩
    rcases kindFault_cases hkind with halone | ⟨-, htask, hbranches, hdistribution, himpacts⟩
    · cases halone
    obtain ⟨v, hv, hamounts, hrest⟩ := taskImpacts_eq_impactLength_iff.mp himpacts
    refine ⟨v, ⟨htask, hnamed, hfresh, hduration, ?_, hbranches, hdistribution, hv, hamounts⟩,
      hrest⟩
    by_contra hb
    cases htask.symm.trans (hbound (Option.isSome_iff_ne_none.mpr hb))
  · rintro ⟨v, h, hrest⟩
    have himpacts := taskImpacts_eq_impactLength_iff.mpr ⟨v, h.impacts, h.amounts, hrest⟩
    refine ⟨h.named, h.fresh, h.duration, by simp [h.noBound], ?_⟩
    simp only [kindFault, h.task, h.noChildren, noDistribution, h.noDistribution]
    exact himpacts

end

/-! ## What is remembered of the regions before -/

theorem mem_ids_foldl_visit {i : String} {rs : List (Region α)} : ∀ {seen : Visited},
    i ∈ (rs.foldl visit seen).ids ↔ i ∈ seen.ids ∨ i ∈ rs.map Region.id := by
  induction rs with
  | nil => simp
  | cons r rs ih =>
      intro seen
      rw [List.foldl_cons, ih, List.map_cons, List.mem_cons, ← or_assoc]
      exact or_congr_left (List.mem_cons.trans or_comm)

theorem impactLength_visit_eq (seen : Visited) (r : Region α) :
    (r.visit seen).impactLength = seen.impactLength.or
      (if r.kind = .task then r.impacts.map List.length else none) := by
  cases hlength : seen.impactLength with
  | some m => rw [mem_impactLength_visit hlength, Option.some_or]
  | none =>
      by_cases htask : r.kind = .task
      · cases hv : r.impacts <;> simp [visit, htask, hlength, hv]
      · cases hkind : r.kind <;> simp_all [visit]

variable [Quantity α]

/-- A task that has passed has an impact vector. -/
theorem exists_impacts_of_passes {seen : Visited} {r : Region α} (h : r.fault seen = none)
    (htask : r.kind = .task) : ∃ v, r.impacts = some v := by
  simp only [fault, kindFault, htask, orElse_eq_none_iff] at h
  obtain ⟨-, -, -, -, -, -, himpacts⟩ := h
  unfold taskImpacts at himpacts
  cases hv : r.impacts with
  | none => simp [hv] at himpacts
  | some v => exact ⟨v, rfl⟩

/-- The rule that the region at a position of a list breaks when it is visited, if any. -/
def faultIn (seen : Visited) (rs : List (Region α)) (k : Nat) : Option (Fault α) :=
  rs[k]?.bind (fault ((rs.take k).foldl visit seen))

/-- The report is about the first position at which a rule is broken. -/
theorem firstFault_eq_some_iff {f : Fault α} {rs : List (Region α)} : ∀ {seen : Visited},
    firstFault seen rs = some f ↔
      ∃ k, (∀ j < k, faultIn seen rs j = none) ∧ faultIn seen rs k = some f := by
  induction rs with
  | nil => simp [firstFault, faultIn]
  | cons r rs ih =>
      intro seen
      rw [firstFault, orElse_eq_some_iff, ih]
      constructor
      · rintro (hr | ⟨hr, k, hbefore, hk⟩)
        · exact ⟨0, by simp, hr⟩
        · refine ⟨k + 1, fun j hj => ?_, hk⟩
          cases j with
          | zero => exact hr
          | succ j => exact hbefore j (Nat.lt_of_succ_lt_succ hj)
      · rintro ⟨k, hbefore, hk⟩
        cases k with
        | zero => exact Or.inl hk
        | succ k => exact Or.inr ⟨hbefore 0 (Nat.succ_pos k), k,
            fun j hj => hbefore (j + 1) (Nat.succ_lt_succ hj), hk⟩

/-- After regions that have passed, the length of the impact vector of the first task among them is
remembered. -/
theorem impactLength_foldl_visit {rs : List (Region α)} : ∀ {seen : Visited} {k : Nat},
    (∀ j < k, faultIn seen rs j = none) → ((rs.take k).foldl visit seen).impactLength =
      seen.impactLength.or
        (((rs.take k).find? (·.kind = .task)).bind fun t => t.impacts.map List.length) := by
  induction rs with
  | nil => simp
  | cons r rs ih =>
      intro seen k hpass
      cases k with
      | zero => simp
      | succ k =>
          have hr : r.fault seen = none := hpass 0 (Nat.succ_pos k)
          rw [List.take_succ_cons, List.foldl_cons,
            ih fun j hj => hpass (j + 1) (Nat.succ_lt_succ hj),
            impactLength_visit_eq, List.find?_cons, Option.or_assoc]
          congr 1
          by_cases htask : r.kind = .task
          · obtain ⟨v, hv⟩ := exists_impacts_of_passes hr htask
            simp [htask, hv]
          · simp [htask]

/-! ## The walk over a tree -/

mutual

/-- Judges a region before those below it, and stops at the first fault. -/
def walk (seen : Visited) (r : Region α) : Except (Fault α) Visited :=
  match r.fault seen with
  | some f => .error f
  | none =>
    match r with
    | ⟨_, _, _, _, _, some children, _, _⟩ => walkAll (r.visit seen) children
    | ⟨_, _, _, _, _, none, _, _⟩ => .ok (r.visit seen)
termination_by structural r

def walkAll (seen : Visited) : List (Region α) → Except (Fault α) Visited
  | [] => .ok seen
  | r :: rs =>
    match r.walk seen with
    | .error f => .error f
    | .ok seen => walkAll seen rs
termination_by structural rs => rs

end

theorem walk_eq (seen : Visited) (r : Region α) : r.walk seen =
    match r.fault seen with
    | some f => .error f
    | none => walkAll (r.visit seen) r.branches := by
  obtain ⟨_, _, _, _, _, children, _, _⟩ := r
  cases children <;> rfl

/-- What becomes of a list of regions that are visited one after the other. -/
def visitAll (seen : Visited) (rs : List (Region α)) : Except (Fault α) Visited :=
  match firstFault seen rs with
  | some f => .error f
  | none => .ok (rs.foldl visit seen)

theorem visitAll_append (rs rs' : List (Region α)) : ∀ seen : Visited, visitAll seen (rs ++ rs') =
    match visitAll seen rs with
    | .error f => .error f
    | .ok seen => visitAll seen rs' := by
  induction rs with
  | nil => exact fun _ => rfl
  | cons r rs ih =>
      intro seen
      have hcons : ∀ rs, visitAll seen (r :: rs) =
          match r.fault seen with
          | some f => .error f
          | none => visitAll (r.visit seen) rs := fun rs => by
        unfold visitAll
        rw [firstFault]
        cases r.fault seen <;> rfl
      rw [List.cons_append, hcons, hcons, ih]
      cases r.fault seen <;> rfl

/-- The walk over a tree visits its regions in document order. -/
theorem walk_eq_visitAll (r : Region α) :
    ∀ seen : Visited, r.walk seen = visitAll seen r.preorder := by
  induction r using Region.ind with
  | step r ih =>
      have hall : ∀ {rs : List (Region α)},
          (∀ c ∈ rs, ∀ seen, c.walk seen = visitAll seen c.preorder) →
            ∀ seen, walkAll seen rs = visitAll seen (preorders rs) := by
        intro rs hrs
        induction rs with
        | nil => exact fun _ => rfl
        | cons c rs ihrs =>
            intro seen
            obtain ⟨hc, hrs⟩ := List.forall_mem_cons.mp hrs
            rw [walkAll, preorders, visitAll_append, hc]
            cases visitAll seen c.preorder with
            | error f => rfl
            | ok seen => exact ihrs hrs seen
      intro seen
      rw [walk_eq, hall ih, preorder_eq]
      unfold visitAll
      rw [firstFault]
      cases r.fault seen <;> rfl

theorem validate_eq_walk (r : Region α) : r.validate = (r.walk .none).map fun _ => () := by
  rw [walk_eq_visitAll]
  unfold validate visitAll
  cases firstFault .none r.preorder <;> rfl

/-! ## Positions in a tree -/

/-- The rule that the region at a position in document order breaks when it is visited, if any. -/
def faultAt (r : Region α) (k : Nat) : Option (Fault α) := faultIn .none r.preorder k

/-- All regions before a position pass. -/
def PassesBefore (r : Region α) (k : Nat) : Prop := ∀ j < k, r.faultAt j = none

/-- The fault is raised by the region at a position, all regions before it having passed. -/
structure Raised (r : Region α) (k : Nat) (f : Fault α) : Prop where
  before : r.PassesBefore k
  here : r.faultAt k = some f

theorem validate_eq_error_iff {r : Region α} {f : Fault α} :
    r.validate = .error f ↔ ∃ k, r.Raised k f := by
  have hfirst : r.validate = .error f ↔ firstFault .none r.preorder = some f := by
    unfold validate
    cases firstFault .none r.preorder <;> simp
  rw [hfirst, firstFault_eq_some_iff]
  exact exists_congr fun k => ⟨fun h => ⟨h.1, h.2⟩, fun h => ⟨h.before, h.here⟩⟩

/-- Nothing is raised behind the first fault. -/
theorem Raised.unique {r : Region α} {k k' : Nat} {f f' : Fault α} (h : r.Raised k f)
    (h' : r.Raised k' f') : k = k' ∧ f = f' := by
  have hle : ∀ {i j : Nat} {g g' : Fault α}, r.Raised i g → r.Raised j g' → j ≤ i := by
    intro i j g g' hi hj
    by_contra hlt
    have hnone := hj.before i (Nat.lt_of_not_le hlt)
    rw [hi.here] at hnone
    cases hnone
  obtain rfl := Nat.le_antisymm (hle h' h) (hle h h')
  exact ⟨rfl, Option.some.inj (h.here.symm.trans h'.here)⟩

/-! ### Trees that agree at the beginning -/

/-- The own fields of a region, and the number of its children. -/
def own (r : Region α) : Region α × Nat := ({ r with children := none }, r.branches.length)

/-- Up to a position, and there too, two trees list regions with the same fields and the same
numbers of children. -/
def Agrees (k : Nat) (r s : Region α) : Prop :=
  ∀ i ≤ k, r.preorder[i]?.map own = s.preorder[i]?.map own

/-- The rules that depend on the kind are about own fields and the number of children. -/
theorem kindFault_congr {c d : Region α} (h : own c = own d) (seen : Visited) :
    c.kindFault seen = d.kindFault seen := by
  simp only [own, Prod.mk.injEq, Region.mk.injEq] at h
  obtain ⟨⟨hid, hkind, -, -, himpacts, -, hdistribution, hbound⟩, hlength⟩ := h
  have hempty : c.branches.isEmpty = d.branches.isEmpty := by
    rw [Bool.eq_iff_iff, List.isEmpty_iff_length_eq_zero, List.isEmpty_iff_length_eq_zero, hlength]
  have hnoImpacts : c.noImpacts = d.noImpacts := by
    rw [noImpacts, noImpacts, himpacts, hid, hkind]
  have hnoDistribution : c.noDistribution = d.noDistribution := by
    rw [noDistribution, noDistribution, hdistribution, hid, hkind]
  have hchildCount : c.childCount = d.childCount := by
    rw [childCount, childCount, hlength, hid, hkind]
  have htaskImpacts : c.taskImpacts seen = d.taskImpacts seen := by
    rw [taskImpacts, taskImpacts, himpacts, hid]
  have hbranches : c.branchDistribution = d.branchDistribution := by
    funext x
    rw [branchDistribution, branchDistribution, hlength, hid, hkind]
  have hprobability : c.loopProbability = d.loopProbability := by
    rw [loopProbability, loopProbability, hdistribution, hid, hkind]
  have hpresent : c.boundPresent = d.boundPresent := by
    rw [boundPresent, boundPresent, loopBound, loopBound, hbound, hid]
  rw [kindFault, kindFault, hempty, hnoImpacts, hnoDistribution, hchildCount, htaskImpacts,
    hbranches, hprobability, hpresent, hdistribution, hid, hkind]

/-- A region is judged by its own fields and the number of its children. -/
theorem fault_congr {c d : Region α} (h : own c = own d) (seen : Visited) :
    c.fault seen = d.fault seen := by
  have hkindFault := kindFault_congr h seen
  simp only [own, Prod.mk.injEq, Region.mk.injEq] at h
  obtain ⟨⟨hid, hkind, -, hduration, -, -, -, hbound⟩, -⟩ := h
  rw [fault, fault, hkindFault, hid, hkind, hduration, hbound]

omit [Quantity α] in
/-- What is remembered of a region are own fields of it. -/
theorem foldl_visit_congr {cs ds : List (Region α)} (h : cs.map own = ds.map own) :
    ∀ seen : Visited, cs.foldl visit seen = ds.foldl visit seen := by
  have hown : ∀ (rs : List (Region α)) (seen : Visited),
      rs.foldl visit seen = (rs.map own).foldl (fun seen p => p.1.visit seen) seen := by
    intro rs seen
    rw [List.foldl_map]
    rfl
  intro seen
  rw [hown, h, ← hown]

theorem faultAt_congr {k : Nat} {r s : Region α} (h : r.Agrees k s) :
    r.faultAt k = s.faultAt k := by
  have htake : (r.preorder.take k).map own = (s.preorder.take k).map own := by
    apply List.ext_getElem?
    intro i
    rw [List.getElem?_map, List.getElem?_map, List.getElem?_take, List.getElem?_take]
    split
    · next hi => exact h i (Nat.le_of_lt hi)
    · rfl
  have hhere := h k (Nat.le_refl k)
  unfold faultAt faultIn
  rw [foldl_visit_congr htake]
  cases hc : r.preorder[k]? with
  | none =>
      rw [hc, Option.map_none, eq_comm, Option.map_eq_none_iff] at hhere
      rw [hhere]
  | some c =>
      rw [hc, Option.map_some, eq_comm, Option.map_eq_some_iff] at hhere
      obtain ⟨d, hd, hown⟩ := hhere
      rw [hd]
      exact fault_congr hown.symm _

/-- What comes later in a tree has no bearing on a fault. -/
theorem Raised.of_agrees {k i : Nat} {r s : Region α} {f : Fault α} (h : r.Raised i f)
    (hagrees : r.Agrees k s) (hi : i ≤ k) : s.Raised i f := by
  have hsame : ∀ j ≤ i, r.faultAt j = s.faultAt j := fun j hj =>
    faultAt_congr fun l hl => hagrees l (Nat.le_trans hl (Nat.le_trans hj hi))
  exact ⟨fun j hj => (hsame j (Nat.le_of_lt hj)).symm.trans (h.before j hj),
    (hsame i (Nat.le_refl i)).symm.trans h.here⟩

/-! ## The report -/

/-- What a report says about a description. -/
structure ReportsFirst (r : Region α) : Prop where
  /-- It is what a walk over the tree comes across. -/
  walked : r.validate = (r.walk .none).map fun _ => ()
  /-- A description is rejected for the first fault in document order, ... -/
  error_iff : ∀ f, r.validate = .error f ↔ ∃ k, r.Raised k f
  unique : ∀ k k' f f', r.Raised k f → r.Raised k' f' → k = k' ∧ f = f'
  /-- ... and for the same fault as all others that agree with it up to there. -/
  alike : ∀ s k, r.Agrees k s → ∀ i ≤ k, ∀ f, r.Raised i f → s.Raised i f ∧ s.validate = .error f
  duplicateId_iff : ∀ k c, r.PassesBefore k → r.preorder[k]? = some c → ∀ id,
    r.Raised k (.duplicateId id) ↔
      id = c.id ∧ Text.blank c.id.toList = false ∧ ∃ d ∈ r.preorder.take k, d.id = c.id
  /-- All tasks have impact vectors of the length of that of the first task. -/
  impactLength_iff : ∀ k c, r.PassesBefore k → r.preorder[k]? = some c → ∀ id expected found,
    r.Raised k (.impactLength id expected found) ↔
      ∃ t v w, c.LengthLeft ((r.preorder.take k).map Region.id) v ∧
        r.preorder.find? (·.kind = .task) = some t ∧ t.impacts = some w ∧ w.length ≠ v.length ∧
        id = c.id ∧ expected = w.length ∧ found = v.length

theorem raised_iff {r c : Region α} {k : Nat} {f : Fault α} (hpass : r.PassesBefore k)
    (hc : r.preorder[k]? = some c) :
    r.Raised k f ↔ c.fault ((r.preorder.take k).foldl visit .none) = some f := by
  have hfault : r.faultAt k = c.fault ((r.preorder.take k).foldl visit .none) := by
    rw [faultAt, faultIn, hc, Option.bind_some]
  rw [← hfault]
  exact ⟨Raised.here, fun h => ⟨hpass, h⟩⟩

omit [Quantity α] in
/-- The ids in use at a position are those of the regions before. -/
theorem mem_ids_iff {r : Region α} {k : Nat} {i : String} :
    i ∈ ((r.preorder.take k).foldl visit .none).ids ↔ i ∈ (r.preorder.take k).map Region.id :=
  mem_ids_foldl_visit.trans (or_iff_right List.not_mem_nil)

theorem raised_duplicateId_iff {r c : Region α} {k : Nat} {id : String} (hpass : r.PassesBefore k)
    (hc : r.preorder[k]? = some c) : r.Raised k (.duplicateId id) ↔
      id = c.id ∧ Text.blank c.id.toList = false ∧ ∃ d ∈ r.preorder.take k, d.id = c.id := by
  rw [raised_iff hpass hc, fault_eq_duplicateId_iff, mem_ids_iff, List.mem_map]

omit [Quantity α] in
/-- The first task of a tree is an earlier one, or the one at hand. -/
theorem find?_task {r c : Region α} {k : Nat} (hc : r.preorder[k]? = some c)
    (htask : c.kind = .task) : r.preorder.find? (·.kind = .task) =
      some (((r.preorder.take k).find? (·.kind = .task)).getD c) := by
  have hdrop : r.preorder.drop k = c :: r.preorder.drop (k + 1) := by
    obtain ⟨hk, rfl⟩ := List.getElem?_eq_some_iff.mp hc
    exact List.drop_eq_getElem_cons hk
  have hsplit : r.preorder.find? (·.kind = .task) = ((r.preorder.take k).find? (·.kind = .task)).or
      ((r.preorder.drop k).find? (·.kind = .task)) := by
    rw [← List.find?_append, List.take_append_drop]
  rw [hsplit, hdrop, List.find?_cons_of_pos (by simpa using htask), Option.or_some]

theorem raised_impactLength_iff {r c : Region α} {k : Nat} {id : String} {expected found : Nat}
    (hpass : r.PassesBefore k) (hc : r.preorder[k]? = some c) :
    r.Raised k (.impactLength id expected found) ↔
      ∃ t v w, c.LengthLeft ((r.preorder.take k).map Region.id) v ∧
        r.preorder.find? (·.kind = .task) = some t ∧ t.impacts = some w ∧ w.length ≠ v.length ∧
        id = c.id ∧ expected = w.length ∧ found = v.length := by
  have hlength : ((r.preorder.take k).foldl visit .none).impactLength =
      ((r.preorder.take k).find? (·.kind = .task)).bind fun t => t.impacts.map List.length :=
    (impactLength_foldl_visit hpass).trans Option.none_or
  rw [raised_iff hpass hc, fault_eq_impactLength_iff, hlength]
  constructor
  · rintro ⟨v, h, hexpected, hne, rfl, rfl⟩
    obtain ⟨t, ht, hlong⟩ := Option.bind_eq_some_iff.mp hexpected
    obtain ⟨w, hw, rfl⟩ := Option.map_eq_some_iff.mp hlong
    refine ⟨t, v, w, { h with fresh := mem_ids_iff.not.mp h.fresh }, ?_, hw, hne, rfl, rfl, rfl⟩
    rw [find?_task hc h.task, ht, Option.getD_some]
  · rintro ⟨t, v, w, h, ht, hw, hne, rfl, rfl, rfl⟩
    refine ⟨v, { h with fresh := mem_ids_iff.not.mpr h.fresh }, ?_, hne, rfl, rfl⟩
    rw [find?_task hc h.task] at ht
    cases hfirst : (r.preorder.take k).find? (·.kind = .task) with
    | some t' =>
        rw [hfirst] at ht
        obtain rfl : t' = t := Option.some.inj ht
        rw [Option.bind_some, hw, Option.map_some]
    | none =>
        -- its own impact vector has the right length
        rw [hfirst] at ht
        obtain rfl : c = t := Option.some.inj ht
        exact absurd (congrArg List.length (Option.some.inj (hw.symm.trans h.impacts))) hne

/-- Every report is about the first fault. -/
theorem reportsFirst (r : Region α) : r.ReportsFirst where
  walked := validate_eq_walk r
  error_iff _ := validate_eq_error_iff
  unique _ _ _ _ := Raised.unique
  alike _ _ hagrees _ hi _ h :=
    ⟨h.of_agrees hagrees hi, validate_eq_error_iff.mpr ⟨_, h.of_agrees hagrees hi⟩⟩
  duplicateId_iff _ _ hpass hc _ := raised_duplicateId_iff hpass hc
  impactLength_iff _ _ hpass hc _ _ _ := raised_impactLength_iff hpass hc

/-- Three tasks side by side; the second one has fewer impacts than the first. -/
def uneven (last : String) : Region Rat :=
  let task (id : String) (impacts : List Rat) : Region Rat :=
    ⟨id, .task, none, 1, some impacts, none, none, none⟩
  ⟨"all", .parallel, none, 0, none, some [task "a" [1, 2], task "b" [1], task last [1, 2]], none,
    none⟩

/-- The report is about task `b`, also if the last task has an id that is in use. -/
theorem reportsFirst_sample : (uneven "c").Agrees 2 (uneven "a") ∧
    (uneven "c").Raised 2 (.impactLength "b" 2 1) ∧
    (uneven "a").validate = .error (.impactLength "b" 2 1) := by
  have hagrees : (uneven "c").Agrees 2 (uneven "a") := fun i hi => by
    match i, hi with
    | 0, _ => rfl
    | 1, _ => rfl
    | 2, _ => rfl
  have hraised : (uneven "c").Raised 2 (.impactLength "b" 2 1) := by
    constructor
    · unfold PassesBefore
      decide +kernel
    · decide +kernel
  exact ⟨hagrees, hraised, ((reportsFirst _).alike _ 2 hagrees 2 (Nat.le_refl 2) _ hraised).2⟩

end Region

end RegionNet
