import Mathlib
import RegionNet.Execution.Step
import RegionNet.Proofs.Proper

/-!
# Courses

A course is one way through a process: how likely it is and what it costs in impacts and in time.
`Region.courses` reads off a description which courses it allows, by recursion on the description
and without any net. Time adds up also where branches run side by side.

Courses multiply: probabilities are multiplied, impacts and times are added. Sets of courses then
multiply as sets do, each course of the one with each course of the other.
-/

namespace RegionNet

open scoped Pointwise

namespace Quantity

theorem addEntries_nil (xs : List Rat) : addEntries xs [] = xs := by
  have hzero : ∀ x : Rat, x + (0 : Rat) = x := add_zero
  cases xs with
  | nil => rfl
  | cons x xs =>
      show (x :: xs).map (fun x : Rat => x + (0 : Rat)) = x :: xs
      simp only [hzero, List.map_id']

theorem addEntries_comm (xs ys : List Rat) : addEntries xs ys = addEntries ys xs := by
  induction xs generalizing ys with
  | nil =>
      rw [addEntries_nil]
      show ys.map (fun y : Rat => (0 : Rat) + y) = ys
      simp only [zero_add, List.map_id']
  | cons x xs ih =>
      cases ys with
      | nil =>
          rw [addEntries_nil]
          show _ = (x :: xs).map (fun y : Rat => (0 : Rat) + y)
          simp only [zero_add, List.map_id']
      | cons y ys =>
          show (x + y) :: addEntries xs ys = (y + x) :: addEntries ys xs
          rw [ih, add_comm]

theorem nil_addEntries (xs : List Rat) : addEntries [] xs = xs := by
  rw [addEntries_comm, addEntries_nil]

theorem addEntries_assoc (xs ys zs : List Rat) :
    addEntries (addEntries xs ys) zs = addEntries xs (addEntries ys zs) := by
  induction xs generalizing ys zs with
  | nil => rw [nil_addEntries, nil_addEntries]
  | cons x xs ih =>
      cases ys with
      | nil => rw [addEntries_nil, nil_addEntries]
      | cons y ys =>
          cases zs with
          | nil => rw [addEntries_nil, addEntries_nil]
          | cons z zs =>
              show (x + y + z) :: addEntries (addEntries xs ys) zs =
                (x + (y + z)) :: addEntries xs (addEntries ys zs)
              rw [ih, add_assoc]

theorem length_addEntries (xs ys : List Rat) :
    (addEntries xs ys).length = max xs.length ys.length := by
  induction xs generalizing ys with
  | nil => rw [nil_addEntries, List.length_nil, Nat.zero_max]
  | cons x xs ih =>
      cases ys with
      | nil => rw [addEntries_nil, List.length_nil, Nat.max_zero]
      | cons y ys =>
          show (addEntries xs ys).length + 1 = _
          rw [ih, List.length_cons, List.length_cons, Nat.add_max_add_right]

/-- Zeros are added without a trace if there are not too many of them. -/
theorem zeros_addEntries {n : Nat} {xs : List Rat} (h : n ≤ xs.length) :
    addEntries (List.replicate n 0) xs = xs := by
  induction n generalizing xs with
  | zero => exact nil_addEntries xs
  | succ n ih =>
      cases xs with
      | nil => cases h
      | cons x xs =>
          show ((0 : Rat) + x) :: addEntries (List.replicate n 0) xs = x :: xs
          rw [zero_add, ih (Nat.le_of_succ_le_succ h)]

theorem getD_addEntries (xs ys : List Rat) (i : Nat) :
    (addEntries xs ys).getD i 0 = xs.getD i 0 + ys.getD i 0 := by
  induction xs generalizing ys i with
  | nil => simp [nil_addEntries]
  | cons x xs ih =>
      cases ys with
      | nil => simp [addEntries_nil]
      | cons y ys =>
          cases i with
          | zero => rfl
          | succ i => exact ih ys i

end Quantity

/-- One way through a process: how likely it is, and what it costs. -/
@[ext]
structure Course where
  probability : Rat
  impacts : List Rat
  elapsed : Rat

namespace Course

/-- Nothing happens, for certain and at no cost. -/
instance : One Course := ⟨⟨1, [], 0⟩⟩

/-- Both happen. -/
instance : Mul Course :=
  ⟨fun a b => ⟨a.probability * b.probability, Quantity.addEntries a.impacts b.impacts,
    a.elapsed + b.elapsed⟩⟩

instance : CommMonoid Course where
  mul_assoc a b c := by
    ext1
    · exact mul_assoc _ _ _
    · exact Quantity.addEntries_assoc _ _ _
    · exact add_assoc _ _ _
  mul_comm a b := by
    ext1
    · exact mul_comm _ _
    · exact Quantity.addEntries_comm _ _
    · exact add_comm _ _
  one_mul a := by
    ext1
    · exact one_mul _
    · exact Quantity.nil_addEntries _
    · exact zero_add _
  mul_one a := by
    ext1
    · exact mul_one _
    · exact Quantity.addEntries_nil _
    · exact add_zero _

/-- Time passes. -/
def wait (d : Rat) : Course := ⟨1, [], d⟩

/-- Something happens that is not certain. -/
def chance (p : Rat) : Course := ⟨p, [], 0⟩

theorem wait_mul_wait (d e : Rat) : wait d * wait e = wait (d + e) := by
  ext1
  · exact one_mul _
  · rfl
  · rfl

theorem chance_mul_chance (p q : Rat) : chance p * chance q = chance (p * q) := by
  ext1
  · rfl
  · rfl
  · exact add_zero _

theorem probability_prod (os : List Course) :
    os.prod.probability = (os.map probability).prod := by
  induction os with
  | nil => rfl
  | cons o os ih =>
      rw [List.prod_cons, List.map_cons, List.prod_cons, ← ih]
      rfl

theorem elapsed_prod (os : List Course) : os.prod.elapsed = (os.map elapsed).sum := by
  induction os with
  | nil => rfl
  | cons o os ih =>
      rw [List.prod_cons, List.map_cons, List.sum_cons, ← ih]
      rfl

theorem getD_impacts_prod (os : List Course) (i : Nat) :
    os.prod.impacts.getD i 0 = (os.map fun o => o.impacts.getD i 0).sum := by
  induction os with
  | nil => rfl
  | cons o os ih =>
      rw [List.prod_cons, List.map_cons, List.sum_cons, ← ih]
      exact Quantity.getD_addEntries _ _ i

theorem length_impacts_prod_le {os : List Course} {n : Nat} (h : ∀ o ∈ os, o.impacts.length ≤ n) :
    os.prod.impacts.length ≤ n := by
  induction os with
  | nil => exact Nat.zero_le n
  | cons o os ih =>
      obtain ⟨ho, hos⟩ := List.forall_mem_cons.mp h
      rw [List.prod_cons]
      show (Quantity.addEntries o.impacts os.prod.impacts).length ≤ n
      rw [Quantity.length_addEntries]
      exact Nat.max_le.mpr ⟨ho, ih hos⟩

/-- One set of courses out of several, each with its odds. -/
def drawn (odds : Nat → Rat) (Os : List (Set Course)) : Set Course :=
  {o | ∃ i O, Os[i]? = some O ∧ o ∈ {chance (odds i)} * O}

/-- A first round and then up to `n` more, each of which follows with probability `p`. -/
def rounds (p n : Rat) (O : Set Course) : Set Course :=
  {o | ∃ k : Nat, (k : Rat) ≤ n ∧ o ∈ {chance (p ^ k * (1 - p))} * O ^ (k + 1)}

end Course

open Course

namespace Region

/-- The probability of a branch; a choice without probabilities counts as certain. -/
def odds (r : Region Rat) (i : Nat) : Rat :=
  match r.distribution with
  | some (.branches ps) => ps.getD i 1
  | _ => 1

/-- The probability that a loop is repeated. -/
def again (r : Region Rat) : Rat :=
  match r.distribution with
  | some (.single p) => p
  | _ => 0

/-- The courses of a region whose children have the given courses. -/
def combine (r : Region Rat) (below : List (Set Course)) : Set Course :=
  {wait r.duration} *
    match r.kind with
    | .task => {⟨1, r.impacts.getD [], 0⟩}
    | .sequential | .parallel => below.prod
    | .choice | .nature => drawn r.odds below
    | .loop => rounds r.again (r.bound.getD 0) (below.headD ∅)

mutual

/-- The courses that a description allows. -/
def courses (r : Region Rat) : Set Course :=
  r.combine
    (match r with
    | ⟨_, _, _, _, _, some children, _, _⟩ => coursesOf children
    | ⟨_, _, _, _, _, none, _, _⟩ => [])
termination_by structural r

def coursesOf : List (Region Rat) → List (Set Course)
  | [] => []
  | r :: rs => r.courses :: coursesOf rs
termination_by structural rs => rs

end

theorem coursesOf_eq_map (rs : List (Region Rat)) : coursesOf rs = rs.map courses := by
  induction rs with
  | nil => rfl
  | cons r rs ih => rw [coursesOf, ih, List.map_cons]

theorem courses_eq (r : Region Rat) : r.courses = r.combine (r.branches.map courses) := by
  rw [← coursesOf_eq_map]
  obtain ⟨_, _, _, _, _, children, _, _⟩ := r
  cases children <;> rfl

end Region

namespace Block

mutual

/-- The courses of a block. -/
def courses : Block Rat → Set Course
  | .task h v => {wait h.duration} * {⟨1, v, 0⟩}
  | .sequential h one two => {wait h.duration} * (one.courses * two.courses)
  | .parallel h bs => {wait h.duration} * (coursesAll bs).prod
  | .choice h bs distribution =>
    {wait h.duration} * drawn (fun i => ((distribution.getD [])[i]?).getD 1) (coursesAll bs)
  | .nature h bs distribution =>
    {wait h.duration} * drawn (fun i => (distribution[i]?).getD 0) (coursesAll bs)
  | .loop h body p n => {wait h.duration} * rounds p n body.courses

def coursesAll : List (Block Rat) → List (Set Course)
  | [] => []
  | b :: bs => b.courses :: coursesAll bs

end

theorem coursesAll_eq_map (bs : List (Block Rat)) : coursesAll bs = bs.map courses := by
  induction bs with
  | nil => rfl
  | cons b bs ih => rw [coursesAll, ih, List.map_cons]

end Block

/-! ## Descriptions and their blocks -/

theorem Course.drawn_congr {f g : Nat → Rat} {Os : List (Set Course)}
    (h : ∀ i < Os.length, f i = g i) : drawn f Os = drawn g Os := by
  ext o
  constructor
  · rintro ⟨i, O, hi, ho⟩
    obtain ⟨hlt, _⟩ := List.getElem?_eq_some_iff.mp hi
    exact ⟨i, O, hi, h i hlt ▸ ho⟩
  · rintro ⟨i, O, hi, ho⟩
    obtain ⟨hlt, _⟩ := List.getElem?_eq_some_iff.mp hi
    exact ⟨i, O, hi, (h i hlt).symm ▸ ho⟩

namespace Region

theorem bound_of_loopBound {r : Region Rat} {n : Nat} (h : r.loopBound = some n) :
    r.bound.getD 0 = n := by
  unfold loopBound at h
  obtain ⟨b, hb, h⟩ := Option.bind_eq_some_iff.mp h
  dsimp only at h
  split at h
  · next hwhole =>
      obtain rfl := Option.some.inj h
      rw [hb, Option.getD_some]
      exact (eq_of_beq hwhole.1).symm
  · cases h

theorem drawn_courses {odds odds' : Nat → Rat} {bs : List (Block Rat)} {below : List (Set Course)}
    (hbelow : below = bs.map Block.courses) (hodds : ∀ i < bs.length, odds i = odds' i) :
    drawn odds below = drawn odds' (Block.coursesAll bs) := by
  rw [hbelow, Block.coursesAll_eq_map]
  apply drawn_congr
  rwa [List.length_map]

/-- A region with the shape of a proper block has the courses of the block. -/
theorem combine_of_shape {r : Region Rat} {bs : List (Block Rat)} {n : Nat}
    {shape : Shape Rat (Block Rat)} {below : List (Set Course)}
    (h : r.shapeOver bs = some shape) (hproper : (Block.ofShape r.head shape).Proper n)
    (hbelow : (∀ b ∈ bs, b.Proper n) → below = bs.map Block.courses) :
    r.combine below = (Block.ofShape r.head shape).courses := by
  unfold shapeOver at h
  unfold combine
  -- one case for each kind, with the children as the shape takes them
  cases hkind : r.kind <;> simp only [hkind] at h ⊢
  case task =>
    obtain ⟨v, hv, rfl⟩ := Option.map_eq_some_iff.mp h
    rw [hv]
    rfl
  case sequential =>
    split at h
    · next one two =>
        cases h
        obtain ⟨hone, htwo⟩ := hproper
        rw [hbelow (by simp [hone, htwo])]
        simp [Block.ofShape, Block.courses, head]
    · cases h
  case parallel =>
    split at h
    · cases h
      rw [hbelow (Block.allProper_iff.mp hproper.2)]
      simp [Block.ofShape, Block.courses, Block.coursesAll_eq_map, head]
    · cases h
  case choice =>
    split at h
    · split at h
      · next hnone =>
          cases h
          have hbelow := hbelow (Block.allProper_iff.mp hproper.2.2)
          exact congrArg _ (drawn_courses hbelow fun i _ => by simp [odds, hnone])
      · next ps hps =>
          cases h
          have hbelow := hbelow (Block.allProper_iff.mp hproper.2.2)
          exact congrArg _ (drawn_courses hbelow fun i _ => by simp [odds, hps])
      · cases h
    · cases h
  case nature =>
    split at h
    · next ps hps =>
        split at h
        · cases h
          obtain ⟨_, hlength, hall⟩ := hproper
          have hbelow := hbelow (Block.allProper_iff.mp hall)
          refine congrArg _ (drawn_courses hbelow ?_)
          intro i hi
          have hlt : i < ps.length := hlength ▸ hi
          simp [odds, hps, hlt]
        · cases h
    · cases h
  case loop =>
    split at h
    · next body p k hp hk =>
        cases h
        rw [hbelow (by simpa using hproper.2), bound_of_loopBound hk]
        simp [Block.ofShape, Block.courses, head, again, hp]
    · cases h

theorem map_courses {n : Nat} {rs : List (Region Rat)} {bs : List (Block Rat)}
    (h : List.Forall₂ (fun r b => r.block = .ok b) rs bs)
    (ih : ∀ r ∈ rs, ∀ b, r.block = .ok b → b.Proper n → r.courses = b.courses)
    (hproper : ∀ b ∈ bs, b.Proper n) : rs.map courses = bs.map Block.courses := by
  induction h with
  | nil => rfl
  | cons hr _ ihs =>
      obtain ⟨hb, hbs⟩ := List.forall_mem_cons.mp hproper
      rw [List.map_cons, List.map_cons, ih _ List.mem_cons_self _ hr hb,
        ihs (fun c hc => ih c (List.mem_cons_of_mem _ hc)) hbs]

/-- The courses of a description are those of its block. -/
theorem courses_of_block (r : Region Rat) {n : Nat} {blk : Block Rat} (h : r.block = .ok blk)
    (hproper : blk.Proper n) : r.courses = blk.courses := by
  induction r using Region.ind generalizing blk with
  | step r ih =>
      obtain ⟨bs, shape, hbs, hshape, rfl⟩ := shape_of_block h
      rw [courses_eq]
      apply combine_of_shape hshape hproper
      intro hall
      exact map_courses (forall₂_of_blocks hbs) (fun c hc _ => ih c hc) hall

end Region

/-! ## The length of impacts -/

/-- Impacts of all courses are `n` entries long or longer. -/
def Course.Spans (n : Nat) (O : Set Course) : Prop := ∀ o ∈ O, n ≤ o.impacts.length

theorem Course.Spans.mul {n : Nat} {X O : Set Course} (h : Spans n O) : Spans n (X * O) := by
  intro o ho
  obtain ⟨x, _, y, hy, rfl⟩ := Set.mem_mul.mp ho
  have hlength : (x * y).impacts.length = max x.impacts.length y.impacts.length :=
    Quantity.length_addEntries _ _
  have hn := h y hy
  omega

theorem Course.Spans.drawn {n : Nat} {odds : Nat → Rat} {Os : List (Set Course)}
    (h : ∀ O ∈ Os, Spans n O) : Spans n (drawn odds Os) := by
  rintro o ⟨i, O, hi, ho⟩
  exact (h O (List.mem_of_getElem? hi)).mul o ho

theorem Course.Spans.rounds {n : Nat} {p k : Rat} {O : Set Course} (h : Spans n O) :
    Spans n (rounds p k O) := by
  rintro o ⟨j, _, ho⟩
  rw [pow_succ] at ho
  exact h.mul.mul o ho

/-- Every course of a block has impacts of the common length. -/
theorem Block.spans {n : Nat} (blk : Block Rat) (hproper : blk.Proper n) :
    Spans n blk.courses := by
  have hall : ∀ {bs : List (Block Rat)}, AllProper n bs →
      (∀ b ∈ bs, b.Proper n → Spans n b.courses) → ∀ O ∈ coursesAll bs, Spans n O := by
    intro bs hproper ih O hO
    rw [coursesAll_eq_map] at hO
    obtain ⟨b, hb, rfl⟩ := List.mem_map.mp hO
    exact ih b hb (allProper_iff.mp hproper b hb)
  induction blk using Block.ind with
  | task h v =>
      apply Spans.mul
      intro o ho
      obtain rfl := Set.mem_singleton_iff.mp ho
      exact hproper.ge
  | sequential h one two ihone ihtwo => exact (ihtwo hproper.2).mul.mul
  | parallel h bs ih =>
      apply Spans.mul
      obtain ⟨hlength, hproper⟩ := hproper
      have hO := hall hproper ih
      rw [coursesAll_eq_map] at hO ⊢
      cases bs with
      | nil => cases hlength
      | cons b bs =>
          rw [List.map_cons, List.prod_cons, mul_comm]
          exact (hO _ List.mem_cons_self).mul
  | choice h bs ps ih => exact (Spans.drawn (hall hproper.2.2 ih)).mul
  | nature h bs ps ih => exact (Spans.drawn (hall hproper.2.2 ih)).mul
  | loop h body p k ih => exact (ih hproper.2).rounds.mul

end RegionNet
