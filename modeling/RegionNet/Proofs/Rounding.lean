import Mathlib
import RegionNet.Decimal.Shortest

/-!
# Rounding

How exact numbers become floating-point numbers. A `Binary` covers the numbers that are nearer to it
than to its neighbours, and those half-way that go to it because its mantissa is even. Whatever
mantissa and exponent an exact number is given with, rounding finds the binary that covers it
(`roundWithAccuracy_eq`).
-/

namespace RegionNet

open Float.Model Float.Model.UnpackedFloat

/-! ## Nearest whole numbers -/

/-- The whole number nearest to `q`; of two such the even one. -/
structure Nearest (q : Rat) (m : Nat) : Prop where
  lower : 2 * (m : Rat) - 1 ≤ 2 * q
  upper : 2 * q ≤ 2 * m + 1
  odd : m % 2 = 1 → 2 * (m : Rat) - 1 < 2 * q ∧ 2 * q < 2 * m + 1

/-- There is no second nearest number. -/
theorem Nearest.unique {q : Rat} {m n : Nat} (hm : Nearest q m) (hn : Nearest q n) : m = n := by
  have key : ∀ {k l : Nat}, Nearest q k → Nearest q l → ¬k < l := by
    intro k l hk hl hlt
    -- both would be a half away, and one of two neighbours is odd
    have hle : (k : Rat) + 1 ≤ l := by exact_mod_cast hlt
    have hge : (l : Rat) ≤ k + 1 := by linarith [hk.upper, hl.lower]
    obtain rfl : l = k + 1 := Nat.le_antisymm (by exact_mod_cast hge) hlt
    push_cast at hl hle
    rcases Nat.mod_two_eq_zero_or_one k with heven | hodd
    · have hstrict := (hl.odd (by omega)).1
      push_cast at hstrict
      linarith [hk.upper]
    · have hlower := hl.lower
      push_cast at hlower
      linarith [(hk.odd hodd).2]
  rcases Nat.lt_trichotomy m n with h | h | h
  · exact absurd h (key hm hn)
  · exact h
  · exact absurd h (key hn hm)

/-! ## Mantissas with two more bits -/

/-- A mantissa with its two extra bits stands for a number: the first bit counts a half, the second
says that less than a half is left over. -/
def StandsFor (em : ExtendedMantissa) (q : Rat) : Prop :=
  ∃ rest : Rat, 0 ≤ rest ∧ rest < 1 / 2 ∧ (em.stickyBit = true ↔ rest ≠ 0) ∧
    q = em.mantissa + em.roundBit.toNat / 2 + rest

theorem standsFor_exact (m : Nat) : StandsFor (.ofMantissaAndAccuracy m .exact) m :=
  ⟨0, le_rfl, by norm_num, by simp [ExtendedMantissa.ofMantissaAndAccuracy],
    by simp [ExtendedMantissa.ofMantissaAndAccuracy]⟩

/-- A quotient with remainder stands for the fraction. -/
theorem standsFor_fraction (a : Nat) {b : Nat} (hb : 0 < b) :
    StandsFor (.ofMantissaAndAccuracy (a / b) (accuracyOfFraction (a % b) b)) ((a : Rat) / b) := by
  have hb' : (0 : Rat) < b := by exact_mod_cast hb
  have hdiv : (a : Rat) / b = (a / b : Nat) + ((a % b : Nat) : Rat) / b := by
    have hsplit : (a : Rat) = b * (a / b : Nat) + (a % b : Nat) := by
      exact_mod_cast (Nat.div_add_mod a b).symm
    rw [div_eq_iff hb'.ne', add_mul, div_mul_cancel₀ _ hb'.ne']
    linarith
  rw [hdiv]
  have hlt : a % b < b := Nat.mod_lt _ hb
  generalize a / b = k at *
  generalize a % b = r at *
  unfold accuracyOfFraction
  rcases Nat.eq_zero_or_pos r with rfl | hr
  · simpa using standsFor_exact k
  · rw [if_neg hr.ne']
    have hr' : (0 : Rat) < r := by exact_mod_cast hr
    have hpos : 0 < (r : Rat) / b := div_pos hr' hb'
    rcases Nat.lt_trichotomy (2 * r) b with h | h | h
    · rw [compare_lt_iff_lt.mpr h]
      have h' : 2 * (r : Rat) < b := by exact_mod_cast h
      refine ⟨(r : Rat) / b, hpos.le, ?_, ?_, ?_⟩
      · rw [div_lt_div_iff₀ hb' (by norm_num)]
        linarith
      · simp [ExtendedMantissa.ofMantissaAndAccuracy, hpos.ne']
      · simp [ExtendedMantissa.ofMantissaAndAccuracy]
    · rw [compare_eq_iff_eq.mpr h]
      have h' : 2 * (r : Rat) = b := by exact_mod_cast h
      refine ⟨0, le_rfl, by norm_num, ?_, ?_⟩
      · simp [ExtendedMantissa.ofMantissaAndAccuracy]
      · have hhalf : (r : Rat) / b = 1 / 2 := by
          rw [div_eq_div_iff hb'.ne' (by norm_num)]
          linarith
        simp [ExtendedMantissa.ofMantissaAndAccuracy, hhalf]
    · rw [compare_gt_iff_gt.mpr h]
      have h' : (b : Rat) < 2 * r := by exact_mod_cast h
      have hone : (r : Rat) / b < 1 := by
        rw [div_lt_one hb']
        exact_mod_cast hlt
      have hhalf : 1 / 2 < (r : Rat) / b := by
        rw [div_lt_div_iff₀ (by norm_num) hb']
        linarith
      refine ⟨(r : Rat) / b - 1 / 2, by linarith, by linarith, ?_, ?_⟩
      · simp only [ExtendedMantissa.ofMantissaAndAccuracy, true_iff]
        linarith
      · simp only [ExtendedMantissa.ofMantissaAndAccuracy, Bool.toNat_true]
        push_cast
        ring

theorem StandsFor.shiftRightOne {em : ExtendedMantissa} {q : Rat} (h : StandsFor em q) :
    StandsFor em.shiftRightOne (q / 2) := by
  obtain ⟨rest, hpos, hlt, hsticky, rfl⟩ := h
  have hdiv : (em.mantissa : Rat) = 2 * (em.mantissa / 2 : Nat) + (em.mantissa % 2 : Nat) := by
    exact_mod_cast (Nat.div_add_mod em.mantissa 2).symm
  rw [hdiv]
  -- the bit that is shifted out becomes the half, and the old half a part of the rest
  have hhalf : (0 : Rat) ≤ em.roundBit.toNat ∧ (em.roundBit.toNat : Rat) ≤ 1 := by
    cases em.roundBit <;> simp
  have hbit : em.shiftRightOne.roundBit.toNat = em.mantissa % 2 := by
    rcases Nat.mod_two_eq_zero_or_one em.mantissa with h | h <;>
      simp [ExtendedMantissa.shiftRightOne, h]
  refine ⟨em.roundBit.toNat / 4 + rest / 2, by linarith, by linarith, ?_, ?_⟩
  · simp only [ExtendedMantissa.shiftRightOne, Bool.or_eq_true, hsticky]
    cases em.roundBit
    · simp
    · simp only [true_or, true_iff, Bool.toNat_true]
      push_cast
      linarith
  · rw [hbit]
    simp only [ExtendedMantissa.shiftRightOne]
    ring

theorem StandsFor.shiftRight {em : ExtendedMantissa} {q : Rat} (h : StandsFor em q) (n : Nat) :
    StandsFor (em >>> n) (q / 2 ^ n) := by
  induction n with
  | zero =>
      rw [pow_zero, div_one]
      exact h
  | succ n ih =>
      rw [pow_succ, ← div_div]
      exact ih.shiftRightOne

theorem StandsFor.nearest {em : ExtendedMantissa} {q : Rat} (h : StandsFor em q) :
    Nearest q em.roundedMantissa := by
  obtain ⟨m, half, sticky⟩ := em
  obtain ⟨rest, hpos, hlt, hsticky, rfl⟩ := h
  cases half <;> cases sticky <;>
    simp only [ExtendedMantissa.roundedMantissa, ExtendedMantissa.accuracy,
      Accuracy.roundToNearestEven, Bool.toNat_false, Bool.toNat_true, Nat.cast_zero, Nat.cast_one]
  · obtain rfl : rest = 0 := by simpa using hsticky
    exact ⟨by linarith, by linarith, fun _ => ⟨by linarith, by linarith⟩⟩
  · exact ⟨by linarith, by linarith, fun _ => ⟨by linarith, by linarith⟩⟩
  · obtain rfl : rest = 0 := by simpa using hsticky
    rcases Nat.mod_two_eq_zero_or_one m with heven | hodd
    · rw [heven]
      exact ⟨by push_cast; linarith, by push_cast; linarith, fun h => by omega⟩
    · rw [hodd]
      exact ⟨by push_cast; linarith, by push_cast; linarith, fun h => by omega⟩
  · have hrest : 0 < rest := lt_of_le_of_ne hpos (Ne.symm (hsticky.mp rfl))
    refine ⟨by push_cast; linarith, by push_cast; linarith, fun _ => ⟨?_, ?_⟩⟩
    all_goals
      push_cast
      linarith

theorem StandsFor.floor {em : ExtendedMantissa} {q : Rat} (h : StandsFor em q) :
    (em.mantissa : Rat) ≤ q ∧ q < em.mantissa + 1 := by
  obtain ⟨rest, hpos, hlt, -, rfl⟩ := h
  have hhalf : (0 : Rat) ≤ em.roundBit.toNat ∧ (em.roundBit.toNat : Rat) ≤ 1 := by
    cases em.roundBit <;> simp
  constructor <;> linarith

/-- A whole number that is stood for is the mantissa. -/
theorem StandsFor.mantissa_eq {em : ExtendedMantissa} {n : Nat} (h : StandsFor em n) :
    em.mantissa = n := by
  obtain ⟨hlow, hhigh⟩ := h.floor
  have hle : em.mantissa ≤ n := by exact_mod_cast hlow
  have hlt : n < em.mantissa + 1 := by exact_mod_cast hhigh
  omega

@[simp]
theorem mantissa_ofMantissaAndAccuracy (m : Nat) (acc : Accuracy) :
    (ExtendedMantissa.ofMantissaAndAccuracy m acc).mantissa = m := by
  cases acc with
  | exact => rfl
  | inexact o => cases o <;> rfl

/-! ## The exponent that fits -/

/-- The exponent at which a number with this mantissa and exponent has 53 bits, or the lowest one. -/
def fitting (m : Nat) (e : Int) : Int := Format.binary64.targetExponent (totalExponent m e)

theorem fitting_eq (m : Nat) (e : Int) : fitting m e = max ((m.log2 : Int) + e - 52) (-1074) := by
  have hmin : Format.binary64.minExponent = -1074 := by decide
  have hbits : (Format.binary64.mantissaBits : Int) = 53 := by decide
  simp only [fitting, Format.targetExponent, totalExponent, hmin, hbits]
  omega

theorem two_zpow_lt_iff {a b : Int} : (2 : Rat) ^ a < 2 ^ b ↔ a < b :=
  zpow_lt_zpow_iff_right₀ (by norm_num)

section

variable {m : Nat} {e k : Int} {acc : Accuracy} {q : Rat}

/-- The leading bit of the mantissa is that of the number. -/
theorem le_of_standsFor (h : StandsFor (.ofMantissaAndAccuracy m acc) q) (hm : m ≠ 0) :
    (2 : Rat) ^ ((m.log2 : Int) + e) ≤ q * 2 ^ e := by
  rw [zpow_add₀ (by norm_num), zpow_natCast]
  have hfloor := h.floor.1
  rw [mantissa_ofMantissaAndAccuracy] at hfloor
  refine mul_le_mul_of_nonneg_right (le_trans ?_ hfloor) (by positivity)
  exact_mod_cast Nat.log2_self_le hm

theorem lt_of_standsFor (h : StandsFor (.ofMantissaAndAccuracy m acc) q) :
    q * 2 ^ e < (2 : Rat) ^ ((m.log2 : Int) + e + 1) := by
  have hlt : ((m + 1 : Nat) : Rat) ≤ (2 : Rat) ^ (m.log2 + 1) := by
    exact_mod_cast Nat.lt_log2_self (n := m)
  rw [show (m.log2 : Int) + e + 1 = ((m.log2 + 1 : Nat) : Int) + e by push_cast; ring,
    zpow_add₀ (by norm_num), zpow_natCast]
  have hfloor := h.floor.2
  rw [mantissa_ofMantissaAndAccuracy] at hfloor
  refine mul_lt_mul_of_pos_right (hfloor.trans_le ?_) (by positivity)
  exact_mod_cast hlt

theorem fitting_of_normal (h : StandsFor (.ofMantissaAndAccuracy m acc) q)
    (hfit : e ≤ fitting m e) (hk : -1074 ≤ k) (hlow : (2 : Rat) ^ (k + 52) ≤ q * 2 ^ e)
    (hhigh : q * 2 ^ e < (2 : Rat) ^ (k + 53)) : fitting m e = k := by
  have hupper := two_zpow_lt_iff.mp (hlow.trans_lt (lt_of_standsFor h))
  rw [fitting_eq] at *
  rcases Nat.eq_zero_or_pos m with rfl | hm
  · simp only [Nat.log2_zero, Nat.cast_zero] at *
    omega
  · have hlower := two_zpow_lt_iff.mp ((le_of_standsFor h hm.ne').trans_lt hhigh)
    omega

theorem fitting_of_small (h : StandsFor (.ofMantissaAndAccuracy m acc) q)
    (hfit : e ≤ fitting m e) (hhigh : q * 2 ^ e < (2 : Rat) ^ (-1021 : Int)) :
    fitting m e = -1074 := by
  rw [fitting_eq] at *
  rcases Nat.eq_zero_or_pos m with rfl | hm
  · simp only [Nat.log2_zero, Nat.cast_zero] at *
    omega
  · have hlower := two_zpow_lt_iff.mp ((le_of_standsFor h hm.ne').trans_lt hhigh)
    omega

/-- A mantissa that is short enough for its exponent stays as it is. -/
theorem shiftToTargetExponent_of_lt (hm : m < 2 ^ 53) (he : -1074 ≤ e) :
    shiftToTargetExponent Format.binary64 m e .exact = (⟨m, false, false⟩, e) := by
  have hlog : m.log2 ≤ 52 := by
    rcases Nat.eq_zero_or_pos m with rfl | hpos
    · simp
    · exact Nat.lt_succ_iff.mp ((Nat.log2_lt hpos.ne').mpr hm)
  have hfit : (fitting m e - e).toNat = 0 := by
    rw [fitting_eq]
    omega
  rw [fitting] at hfit
  simp only [shiftToTargetExponent, shiftToExponent, hfit]
  simp only [Nat.cast_zero, add_zero]
  rfl

/-- A mantissa that was rounded up to a bit too many loses it again. -/
theorem shiftToTargetExponent_of_eq (he : -1074 ≤ e) :
    shiftToTargetExponent Format.binary64 (2 ^ 53) e .exact = (⟨2 ^ 52, false, false⟩, e + 1) := by
  have hlog : Nat.log2 (2 ^ 53) = 53 := Nat.log2_two_pow
  have hfit : (fitting (2 ^ 53) e - e).toNat = 1 := by
    rw [fitting_eq, hlog]
    omega
  rw [fitting] at hfit
  simp only [shiftToTargetExponent, shiftToExponent, hfit]
  rfl

/-- Rounding brings a number to the exponent that fits, and goes to the nearest mantissa there. -/
theorem exists_rounded (h : StandsFor (.ofMantissaAndAccuracy m acc) q) (hfit : e ≤ fitting m e) :
    ∃ em : ExtendedMantissa,
      shiftToTargetExponent Format.binary64 m e acc = (em, fitting m e) ∧
        Nearest (q * 2 ^ e / 2 ^ fitting m e) em.roundedMantissa := by
  have hshift : ((fitting m e - e).toNat : Int) = fitting m e - e := by omega
  refine ⟨ExtendedMantissa.ofMantissaAndAccuracy m acc >>> (fitting m e - e).toNat, ?_, ?_⟩
  · refine Prod.ext rfl ?_
    show e + ((fitting m e - e).toNat : Int) = fitting m e
    omega
  · have hpow : (2 : Rat) ^ (fitting m e - e).toNat = 2 ^ fitting m e / 2 ^ e := by
      rw [← zpow_natCast, hshift, zpow_sub₀ (by norm_num)]
    have hnearest := (h.shiftRight (fitting m e - e).toNat).nearest
    rwa [hpow, div_div_eq_mul_div] at hnearest

end

/-! ## Binaries -/

namespace Binary

/-- The binary is made of the parts of a finite floating-point number other than zero. -/
structure Canonical (b : Binary) : Prop where
  pos : 0 < b.mantissa
  lt : b.mantissa < 2 ^ 53
  lowest : -1074 ≤ b.exponent
  highest : b.exponent ≤ 971
  leading : b.exponent = -1074 ∨ 2 ^ 52 ≤ b.mantissa
  closer : b.lowerIsCloser = true ↔ b.mantissa = 2 ^ 52 ∧ -1074 < b.exponent

/-- A number is nearer to the binary than to its neighbours, or half-way to one of them while the
binary is even. -/
structure Covers (b : Binary) (v : Rat) : Prop where
  lower : (b.quarters.1 : Rat) * 2 ^ (b.exponent - 2) ≤ v
  upper : v ≤ (b.quarters.2.2 : Rat) * 2 ^ (b.exponent - 2)
  odd : b.mantissa % 2 = 1 → (b.quarters.1 : Rat) * 2 ^ (b.exponent - 2) < v ∧
    v < (b.quarters.2.2 : Rat) * 2 ^ (b.exponent - 2)

variable {b : Binary} {m : Nat} {e : Int} {acc : Accuracy} {q v : Rat}

/-- The binary covers its own value. -/
theorem Canonical.covers (hb : b.Canonical) : b.Covers (b.mantissa * 2 ^ b.exponent) := by
  have hunit : (2 : Rat) ^ b.exponent = 4 * 2 ^ (b.exponent - 2) := by
    rw [zpow_sub₀ (by norm_num)]
    norm_num
    ring
  have hpos : (0 : Rat) < 2 ^ (b.exponent - 2) := by positivity
  have hlow : (b.quarters.1 : Rat) < 4 * b.mantissa := by
    have := hb.pos
    have hlt : b.quarters.1 < 4 * b.mantissa := by
      simp only [quarters]
      split <;> omega
    exact_mod_cast hlt
  have hhigh : (4 * b.mantissa : Rat) < b.quarters.2.2 := by
    have hlt : 4 * b.mantissa < b.quarters.2.2 := by simp [quarters]
    exact_mod_cast hlt
  have hvalue : (b.mantissa : Rat) * 2 ^ b.exponent = 4 * b.mantissa * 2 ^ (b.exponent - 2) := by
    rw [hunit]
    ring
  rw [hvalue]
  have hlower := mul_lt_mul_of_pos_right hlow hpos
  have hupper := mul_lt_mul_of_pos_right hhigh hpos
  exact ⟨hlower.le, hupper.le, fun _ => ⟨hlower, hupper⟩⟩

/-- Seen at the exponent of the binary, a covered number is close to the mantissa. -/
theorem Canonical.close (hb : b.Canonical) (h : b.Covers v) :
    let w := v / 2 ^ b.exponent
    2 * (b.mantissa : Rat) - 1 ≤ 2 * w ∧ 2 * w ≤ 2 * b.mantissa + 1 ∧
      (b.mantissa % 2 = 1 → 2 * (b.mantissa : Rat) - 1 < 2 * w ∧ 2 * w < 2 * b.mantissa + 1) ∧
      (b.lowerIsCloser = true → 4 * (b.mantissa : Rat) - 1 ≤ 4 * w) := by
  have hunit : (2 : Rat) ^ b.exponent = 4 * 2 ^ (b.exponent - 2) := by
    rw [zpow_sub₀ (by norm_num)]
    norm_num
    ring
  have hpos : (0 : Rat) < 2 ^ (b.exponent - 2) := by positivity
  have hv : v = 4 * (v / 2 ^ b.exponent) * 2 ^ (b.exponent - 2) := by
    rw [hunit]
    field_simp
  have hlow := h.lower
  have hhigh := h.upper
  have hodd := h.odd
  have hmantissa := hb.pos
  have hlast : (b.quarters.2.2 : Rat) = 4 * b.mantissa + 2 := by simp [quarters]
  have hfirst : (b.quarters.1 : Rat) = 4 * b.mantissa - (if b.lowerIsCloser then 1 else 2) := by
    simp only [quarters]
    split
    · rw [Nat.cast_sub (by omega)]
      push_cast
      ring
    · rw [Nat.cast_sub (by omega)]
      push_cast
      ring
  rw [hv, mul_le_mul_iff_left₀ hpos] at hlow hhigh
  rw [hv, mul_lt_mul_iff_left₀ hpos, mul_lt_mul_iff_left₀ hpos] at hodd
  rw [hfirst] at hlow hodd
  rw [hlast] at hhigh hodd
  refine ⟨?_, by linarith, fun h => ⟨?_, by linarith [(hodd h).2]⟩, fun h => ?_⟩
  · split at hlow <;> linarith
  · have := (hodd h).1
    split at this <;> linarith
  · rw [if_pos h] at hlow
    exact hlow

/-- A covered number that lies below the binary's own power of two is at least half-way to it, seen
at the next lower exponent. -/
theorem Canonical.eq_of_below (hb : b.Canonical) (h : b.Covers v) (he : -1074 < b.exponent)
    (hbelow : v / 2 ^ b.exponent < 2 ^ 52) :
    b.mantissa = 2 ^ 52 ∧ 2 ^ 54 - 1 ≤ 4 * (v / 2 ^ b.exponent) := by
  obtain ⟨hlow, -, -, hcloser⟩ := hb.close h
  have hle : b.mantissa ≤ 2 ^ 52 := by
    by_contra hgt
    have hge : ((2 ^ 52 + 1 : Nat) : Rat) ≤ b.mantissa := by exact_mod_cast not_le.mp hgt
    push_cast at hge
    linarith
  have heq : b.mantissa = 2 ^ 52 :=
    Nat.le_antisymm hle (hb.leading.resolve_left he.ne')
  refine ⟨heq, ?_⟩
  have hquarter := hcloser (hb.closer.mpr ⟨heq, he⟩)
  rw [heq] at hquarter
  push_cast at hquarter
  linarith

/-- Rounding finds the binary that covers the number. -/
theorem Canonical.roundWithAccuracy_eq (hb : b.Canonical)
    (h : StandsFor (.ofMantissaAndAccuracy m acc) q) (hfit : e ≤ fitting m e)
    (hcovers : b.Covers (q * 2 ^ e)) (s : Sign) :
    roundWithAccuracy Format.binary64 s m e acc = .finite s b.mantissa b.exponent hb.pos := by
  obtain ⟨em, hshift, hnearest⟩ := exists_rounded h hfit
  obtain ⟨hlow, hhigh, hodd, -⟩ := hb.close hcovers
  have hmantissa : (b.mantissa : Rat) ≤ 2 ^ 53 - 1 := by
    have hle : ((b.mantissa + 1 : Nat) : Rat) ≤ (2 ^ 53 : Nat) := by exact_mod_cast hb.lt
    push_cast at hle
    linarith
  have hunit : (0 : Rat) < 2 ^ b.exponent := by positivity
  have hscale : ∀ n : Int, (2 : Rat) ^ (b.exponent + n) = 2 ^ n * 2 ^ b.exponent := fun n => by
    rw [zpow_add₀ (by norm_num), mul_comm]
  by_cases hbelow : -1074 < b.exponent ∧ q * 2 ^ e / 2 ^ b.exponent < 2 ^ 52
  · -- the number has one bit too many and is rounded up to the power of two
    obtain ⟨heq, hhalf⟩ := hb.eq_of_below hcovers hbelow.1 hbelow.2
    have hfitting : fitting m e = b.exponent - 1 := by
      refine fitting_of_normal h hfit (by omega) ?_ ?_
      · rw [show b.exponent - 1 + 52 = b.exponent + 51 by ring, hscale, ← le_div_iff₀ hunit]
        norm_num at hhalf ⊢
        linarith
      · rw [show b.exponent - 1 + 53 = b.exponent + 52 by ring, hscale, ← div_lt_iff₀ hunit]
        exact_mod_cast hbelow.2
    have hrounded : em.roundedMantissa = 2 ^ 53 := by
      refine hnearest.unique ?_
      rw [hfitting, zpow_sub₀ (by norm_num), zpow_one, div_div_eq_mul_div,
        mul_div_right_comm]
      refine ⟨?_, ?_, fun h => by norm_num at h⟩
      · push_cast
        linarith
      · push_cast
        linarith [hbelow.2]
    have hlowest : -1074 ≤ b.exponent - 1 := by omega
    simp only [roundWithAccuracy, hshift, hrounded, hfitting,
      shiftToTargetExponent_of_eq hlowest, heq]
    rw [dif_neg (by norm_num)]
    simp
  · have hfitting : fitting m e = b.exponent := by
      rcases hb.lowest.eq_or_lt with heq | hlt
      · rw [← heq]
        refine fitting_of_small h hfit ?_
        rw [show (-1021 : Int) = b.exponent + 53 by omega, hscale, ← div_lt_iff₀ hunit]
        norm_num
        linarith
      · refine fitting_of_normal h hfit hb.lowest ?_ ?_
        · rw [hscale, ← le_div_iff₀ hunit]
          exact_mod_cast not_lt.mp fun hlt' => hbelow ⟨hlt, hlt'⟩
        · rw [hscale, ← div_lt_iff₀ hunit]
          norm_num
          linarith
    have hrounded : em.roundedMantissa = b.mantissa := by
      refine hnearest.unique ?_
      rw [hfitting]
      exact ⟨hlow, hhigh, hodd⟩
    simp only [roundWithAccuracy, hshift, hrounded, hfitting,
      shiftToTargetExponent_of_lt hb.lt hb.lowest]
    rw [dif_neg hb.pos.ne']

/-! ## Rounded operations -/

theorem log2_mul_two_pow (hm : m ≠ 0) (n : Nat) : (m * 2 ^ n).log2 = m.log2 + n := by
  rw [Nat.log2_eq_iff (Nat.mul_ne_zero hm (by positivity)), pow_add, pow_succ, pow_add]
  have hlow := Nat.log2_self_le hm
  have hhigh : m < 2 ^ (m.log2 + 1) := Nat.lt_log2_self
  refine ⟨Nat.mul_le_mul_right _ hlow, ?_⟩
  calc m * 2 ^ n < 2 ^ (m.log2 + 1) * 2 ^ n := Nat.mul_lt_mul_of_pos_right hhigh (by positivity)
    _ = 2 ^ m.log2 * 2 ^ n * 2 := by ring

/-- Rounding a number that is given exactly. -/
theorem Canonical.round_eq (hb : b.Canonical) (hm : m ≠ 0)
    (hcovers : b.Covers (m * 2 ^ e)) (s : Sign) :
    UnpackedFloat.round Format.binary64 s m e = .finite s b.mantissa b.exponent hb.pos := by
  -- the mantissa is first shifted to the left, so far that it has bits enough
  set n := (e - fitting m e).toNat with hn
  have hfit : e - n ≤ fitting (m * 2 ^ n) (e - n) := by
    rw [fitting_eq, log2_mul_two_pow hm]
    rw [fitting_eq] at hn
    omega
  have hvalue : ((m * 2 ^ n : Nat) : Rat) * 2 ^ (e - n) = m * 2 ^ e := by
    rw [zpow_sub₀ (by norm_num), zpow_natCast]
    push_cast
    field_simp
  have h := hb.roundWithAccuracy_eq (standsFor_exact (m * 2 ^ n)) hfit (hvalue ▸ hcovers) s
  rw [← Nat.shiftLeft_eq] at h
  exact h

/-- The product of two floating-point numbers is the binary that covers the exact product. -/
theorem Canonical.mul_eq (hb : b.Canonical) {m₁ m₂ : Nat} {e₁ e₂ : Int} (hm₁ : 0 < m₁)
    (hm₂ : 0 < m₂) (hfit : e₁ + e₂ ≤ fitting (m₁ * m₂) (e₁ + e₂))
    (hcovers : b.Covers (m₁ * 2 ^ e₁ * (m₂ * 2 ^ e₂))) (s₁ s₂ : Sign) :
    UnpackedFloat.mul Format.binary64 (.finite s₁ m₁ e₁ hm₁) (.finite s₂ m₂ e₂ hm₂) =
      .finite (s₁ * s₂) b.mantissa b.exponent hb.pos := by
  have hvalue : ((m₁ * m₂ : Nat) : Rat) * 2 ^ (e₁ + e₂) = m₁ * 2 ^ e₁ * (m₂ * 2 ^ e₂) := by
    rw [zpow_add₀ (by norm_num)]
    push_cast
    ring
  exact hb.roundWithAccuracy_eq (standsFor_exact _) hfit (hvalue ▸ hcovers) _

/-- The quotient of two floating-point numbers is the binary that covers the exact quotient. -/
theorem Canonical.div_eq (hb : b.Canonical) {m₁ m₂ : Nat} {e₁ e₂ : Int} (hm₁ : 0 < m₁)
    (hm₂ : 0 < m₂) (hcovers : b.Covers (m₁ * 2 ^ e₁ / (m₂ * 2 ^ e₂))) (s₁ s₂ : Sign) :
    UnpackedFloat.div Format.binary64 (.finite s₁ m₁ e₁ hm₁) (.finite s₂ m₂ e₂ hm₂) =
      .finite (s₁ / s₂) b.mantissa b.exponent hb.pos := by
  set k := min (e₁ - e₂) (Format.binary64.targetExponent
    (totalExponent m₁ e₁ - totalExponent m₂ e₂)) with hk
  set n := (e₁ - e₂ - k).toNat with hn
  have hkn : (n : Int) = e₁ - e₂ - k := by omega
  have hm₂' : (m₂ : Rat) ≠ 0 := by exact_mod_cast hm₂.ne'
  have hvalue : ((m₁ * 2 ^ n : Nat) : Rat) / m₂ * 2 ^ k = m₁ * 2 ^ e₁ / (m₂ * 2 ^ e₂) := by
    have he : (2 : Rat) ^ e₁ = 2 ^ n * 2 ^ k * 2 ^ e₂ := by
      rw [← zpow_natCast, ← zpow_add₀ (by norm_num), ← zpow_add₀ (by norm_num)]
      congr 1
      omega
    rw [he]
    push_cast
    field_simp
  have hfit : k ≤ fitting (m₁ * 2 ^ n / m₂) k := by
    rw [fitting_eq]
    have hmin : Format.binary64.minExponent = -1074 := by decide
    have hbits : (Format.binary64.mantissaBits : Int) = 53 := by decide
    simp only [Format.targetExponent, totalExponent, hmin, hbits] at hk
    rcases le_or_gt k (-1074) with hle | hlt
    · omega
    · -- the quotient has 53 bits at least
      have hlow := Nat.log2_self_le hm₁.ne'
      have hhigh : m₂ < 2 ^ (m₂.log2 + 1) := Nat.lt_log2_self
      have hbits : m₂.log2 + 1 + 52 ≤ m₁.log2 + n := by omega
      have hquotient : 2 ^ 52 ≤ m₁ * 2 ^ n / m₂ := by
        rw [Nat.le_div_iff_mul_le hm₂]
        calc 2 ^ 52 * m₂ ≤ 2 ^ 52 * 2 ^ (m₂.log2 + 1) := Nat.mul_le_mul_left _ hhigh.le
          _ = 2 ^ (m₂.log2 + 1 + 52) := by rw [← pow_add, add_comm]
          _ ≤ 2 ^ (m₁.log2 + n) := Nat.pow_le_pow_right (by norm_num) hbits
          _ = 2 ^ m₁.log2 * 2 ^ n := pow_add _ _ _
          _ ≤ m₁ * 2 ^ n := Nat.mul_le_mul_right _ hlow
      have hlog : 52 ≤ (m₁ * 2 ^ n / m₂).log2 :=
        (Nat.le_log2 (by omega)).mpr hquotient
      omega
  have h := hb.roundWithAccuracy_eq (standsFor_fraction (m₁ * 2 ^ n) hm₂) hfit
    (hvalue ▸ hcovers) (s₁ / s₂)
  rw [← Nat.shiftLeft_eq] at h
  exact h

end Binary

end RegionNet
