import RegionNet.Proofs.Numeral
import RegionNet.Proofs.Rounding

/-!
# Shortest decimals

The search for a short decimal ends on a grid that is fine enough, and what it finds there is so
close to the binary that it is rounded to it (`Binary.Canonical.covers_shortest`).
-/

namespace RegionNet

/-! ## Powers -/

theorem zpow_mul_toNat_neg {a : Rat} (ha : a ≠ 0) (i : Int) :
    a ^ i * a ^ (-i).toNat = a ^ i.toNat := by
  rw [← zpow_natCast, ← zpow_natCast, ← zpow_add₀ ha]
  congr 1
  omega

/-- A power of ten is compared with a power of two by way of a pair of powers of which it is known
which is the larger. -/
theorem ten_zpow_lt_of {p q k e : Int} {m j : Nat} (hbase : (10 : Rat) ^ p ≤ 2 ^ q)
    (hk : k * m = p * j) (he : q * j < e * m) : (10 : Rat) ^ k < 2 ^ e := by
  refine lt_of_pow_lt_pow_left₀ m (by positivity) ?_
  calc ((10 : Rat) ^ k) ^ m = (10 ^ p) ^ j := by
        rw [← zpow_natCast, ← zpow_natCast, ← zpow_mul, ← zpow_mul, hk]
    _ ≤ (2 ^ q) ^ j := pow_le_pow_left₀ (by positivity) hbase j
    _ = 2 ^ (q * j) := by rw [← zpow_natCast, ← zpow_mul]
    _ < 2 ^ (e * m) := two_zpow_lt_iff.mpr he
    _ = (2 ^ e) ^ m := by rw [← zpow_natCast, ← zpow_mul]

theorem ten_zpow_lt {k e : Int} (hpos : 0 ≤ k → 10 * k < 3 * e) (hneg : k < 0 → 93 * k < 28 * e) :
    (10 : Rat) ^ k < 2 ^ e := by
  rcases lt_or_ge k 0 with hk | hk
  · refine ten_zpow_lt_of (show (10 : Rat) ^ (-28 : Int) ≤ 2 ^ (-93 : Int) by norm_num)
      (show k * 28 = -28 * ((-k).toNat : Int) by omega) ?_
    have := hneg hk
    push_cast
    omega
  · refine ten_zpow_lt_of (show (10 : Rat) ^ (3 : Int) ≤ 2 ^ (10 : Int) by norm_num)
      (show k * 3 = 3 * (k.toNat : Int) by omega) ?_
    have := hpos hk
    push_cast
    omega

namespace Binary

variable {b : Binary} {k : Int} {c n : Nat}

/-! ## Grids -/

/-- In the scale of a grid there are only whole numbers. -/
theorem scaled_eq (b : Binary) (k : Int) (n : Nat) :
    ((b.scaled k n).1 : Rat) * 10 ^ k = n * 2 ^ (b.exponent - 2) * (b.scaled k n).2 := by
  have hten := zpow_mul_toNat_neg (show (10 : Rat) ≠ 0 by norm_num) k
  have htwo := zpow_mul_toNat_neg (show (2 : Rat) ≠ 0 by norm_num) (b.exponent - 2)
  simp only [scaled, Nat.pow_eq]
  push_cast
  rw [← hten, ← htwo]
  ring

theorem unit_pos (b : Binary) (k : Int) (n : Nat) : 0 < (b.scaled k n).2 := by
  simp only [scaled, Nat.pow_eq]
  positivity

theorem scaled_le_iff {n n' : Nat} :
    (b.scaled k n).1 ≤ c * (b.scaled k n').2 ↔ (n : Rat) * 2 ^ (b.exponent - 2) ≤ c * 10 ^ k := by
  have hunit : (0 : Rat) < (b.scaled k n).2 := by exact_mod_cast unit_pos b k n
  have hten : (0 : Rat) < 10 ^ k := by positivity
  have hvalue := scaled_eq b k n
  show (b.scaled k n).1 ≤ c * (b.scaled k n).2 ↔ _
  rw [← Nat.cast_le (α := Rat), ← mul_le_mul_iff_left₀ hten, hvalue, Nat.cast_mul,
    mul_right_comm (c : Rat), mul_le_mul_iff_left₀ hunit]

theorem le_scaled_iff {n n' : Nat} :
    c * (b.scaled k n').2 ≤ (b.scaled k n).1 ↔ c * 10 ^ k ≤ (n : Rat) * 2 ^ (b.exponent - 2) := by
  have hunit : (0 : Rat) < (b.scaled k n).2 := by exact_mod_cast unit_pos b k n
  have hten : (0 : Rat) < 10 ^ k := by positivity
  have hvalue := scaled_eq b k n
  show c * (b.scaled k n).2 ≤ (b.scaled k n).1 ↔ _
  rw [← Nat.cast_le (α := Rat), ← mul_le_mul_iff_left₀ hten, hvalue, Nat.cast_mul,
    mul_right_comm (c : Rat), mul_le_mul_iff_left₀ hunit]

/-- The multiple of `10 ^ k` is rounded to the number. -/
def hits (b : Binary) (k : Int) (c : Nat) : Bool :=
  let unit := (b.scaled k b.quarters.2.1).2
  let first := (b.scaled k b.quarters.1).1
  let last := (b.scaled k b.quarters.2.2).1
  if b.mantissa % 2 = 0 then first ≤ c * unit && c * unit ≤ last
  else first < c * unit && c * unit < last

theorem onGrid_eq (b : Binary) (k : Int) :
    b.onGrid k =
      let (value, unit) := b.scaled k b.quarters.2.1
      let below := value / unit
      let above := below + 1
      match 0 < below && b.hits k below, b.hits k above with
      | true, true =>
        if value - below * unit < above * unit - value then some below
        else if above * unit - value < value - below * unit then some above
        else if below % 2 = 0 then some below else some above
      | true, false => some below
      | false, true => some above
      | false, false => none := rfl

theorem hits_of_onGrid (h : b.onGrid k = some c) : b.hits k c = true := by
  rw [onGrid_eq] at h
  simp only at h
  split at h
  · next hbelow habove =>
      have hbelow := (Bool.and_eq_true_iff.mp hbelow).2
      split_ifs at h <;> cases h <;> assumption
  · next hbelow habove =>
      cases h
      exact (Bool.and_eq_true_iff.mp hbelow).2
  · next hbelow habove =>
      cases h
      exact habove
  · cases h

theorem covers_of_hits (h : b.hits k c = true) : b.Covers (c * 10 ^ k) := by
  simp only [hits] at h
  split_ifs at h with heven
  · simp only [Bool.and_eq_true, decide_eq_true_eq, scaled_le_iff, le_scaled_iff] at h
    exact ⟨h.1, h.2, fun hodd => absurd hodd (by omega)⟩
  · simp only [Bool.and_eq_true, decide_eq_true_eq, ← not_le, scaled_le_iff, le_scaled_iff] at h
    simp only [not_le] at h
    exact ⟨h.1.le, h.2.le, fun _ => h⟩

theorem hits_of_lt (hlow : (b.quarters.1 : Rat) * 2 ^ (b.exponent - 2) < c * 10 ^ k)
    (hhigh : (c : Rat) * 10 ^ k < b.quarters.2.2 * 2 ^ (b.exponent - 2)) : b.hits k c = true := by
  simp only [hits]
  split_ifs
  · simp only [Bool.and_eq_true, decide_eq_true_eq, scaled_le_iff, le_scaled_iff]
    exact ⟨hlow.le, hhigh.le⟩
  · simp only [Bool.and_eq_true, decide_eq_true_eq, ← not_le, scaled_le_iff, le_scaled_iff]
    exact ⟨hlow.not_ge, hhigh.not_ge⟩

/-- On a fine grid the next multiple above the number is rounded to it. -/
theorem exists_onGrid (hpos : 0 < b.mantissa) (hfine : (10 : Rat) ^ k < 2 ^ (b.exponent - 1)) :
    ∃ c, b.onGrid k = some c := by
  set value := (b.scaled k b.quarters.2.1).1 with hvalue
  set unit := (b.scaled k b.quarters.2.1).2 with hunit
  have hunitpos : 0 < unit := unit_pos b k _
  have hten : (0 : Rat) < 10 ^ k := by positivity
  have htwo : (0 : Rat) < 2 ^ (b.exponent - 2) := by positivity
  have hhalf : (2 : Rat) ^ (b.exponent - 1) = 2 * 2 ^ (b.exponent - 2) := by
    rw [← zpow_one_add₀ (by norm_num)]
    congr 1
    ring
  -- the multiple above lies past the number by one step at most, which is half a place
  have hhits : b.hits k (value / unit + 1) = true := by
    have hlow : ¬(value / unit + 1) * unit ≤ value := by
      rw [Nat.add_mul, one_mul]
      have := Nat.lt_div_mul_add hunitpos (a := value)
      omega
    have hhigh : value / unit * unit ≤ value := Nat.div_mul_le_self _ _
    rw [le_scaled_iff] at hlow hhigh
    have hfirst : (b.quarters.1 : Rat) < b.quarters.2.1 := by
      have hlt : b.quarters.1 < b.quarters.2.1 := by
        simp only [quarters]
        split <;> omega
      exact_mod_cast hlt
    have hlast : (b.quarters.2.2 : Rat) = b.quarters.2.1 + 2 := by simp [quarters]
    refine hits_of_lt ?_ ?_
    · exact (mul_lt_mul_of_pos_right hfirst htwo).trans (not_le.mp hlow)
    · rw [hlast]
      push_cast
      linarith
  -- so that not both neighbours miss
  rw [onGrid_eq]
  simp only [← hvalue, ← hunit]
  split
  · split_ifs <;> exact ⟨_, rfl⟩
  · exact ⟨_, rfl⟩
  · exact ⟨_, rfl⟩
  · next hnone =>
      rw [hhits] at hnone
      cases hnone

/-! ## The search -/

theorem exists_of_search {n : Nat} {i : Nat} (hi : i < n) : ∀ {k : Int},
    (∃ c, b.onGrid (k - i) = some c) →
      ∃ c k', b.search n k = ⟨c, k'⟩ ∧ b.onGrid k' = some c := by
  induction n generalizing i with
  | zero => exact absurd hi (Nat.not_lt_zero i)
  | succ n ih =>
      intro k h
      rw [search]
      cases hgrid : b.onGrid k with
      | some c => exact ⟨c, k, rfl, hgrid⟩
      | none =>
          cases i with
          | zero =>
              obtain ⟨c, hc⟩ := h
              rw [Nat.cast_zero, sub_zero, hgrid] at hc
              cases hc
          | succ i =>
              refine ih (Nat.lt_of_succ_lt_succ hi) ?_
              rwa [show k - 1 - (i : Int) = k - ((i + 1 : Nat) : Int) by push_cast; ring]

/-- The shortest decimal is rounded to the number. -/
theorem Canonical.covers_shortest (hb : b.Canonical) : b.Covers b.shortest.value := by
  have hlog : b.mantissa.log2 ≤ 52 := Nat.lt_succ_iff.mp ((Nat.log2_lt hb.pos.ne').mpr hb.lt)
  have hlow := hb.lowest
  have hhigh := hb.highest
  -- the last of the grids is fine enough, whatever the exponent
  have hfine : (10 : Rat) ^ (b.topExponent - (20 : Nat)) < 2 ^ (b.exponent - 1) := by
    refine ten_zpow_lt ?_ ?_ <;>
    · simp only [topExponent]
      omega
  obtain ⟨c, k, hsearch, hgrid⟩ := exists_of_search (show 20 < 21 by decide)
    (exists_onGrid hb.pos hfine)
  have hshortest : b.shortest = ⟨c, k⟩ := by
    rw [shortest, if_neg hb.pos.ne', hsearch]
  rw [hshortest]
  exact covers_of_hits (hits_of_onGrid hgrid)

end Binary

end RegionNet
