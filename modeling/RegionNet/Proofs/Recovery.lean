import RegionNet.Proofs.Doubles
import RegionNet.Proofs.Shortest

/-!
# Numbers read back

Every finite number is read back from the numeral as which it is written (`Decimal.write_eq`,
`Decimal.toFloat?_numeral`). A number is made of its sign and its binary, as its bits tell, and
from a decimal that a binary covers the number made of this binary is read
(`Decimal.makes_toFloat`), whether by one exact operation or by rounding. No other than finite
numbers are read (`Json.Numeral.isFinite_of_toFloat?`).
-/

namespace RegionNet

open Float.Model Float.Model.UnpackedFloat

/-! ## Bits -/

/-- The sign of a number, as its first bit tells it. -/
def signOf (x : Float) : Sign := if x.toBits >>> 63 = 0 then .positive else .negative

theorem toNat_signOf (x : Float) : (signOf x).toBitVec.toNat = x.toBits.toNat / 2 ^ 63 := by
  have hlt : x.toBits.toNat < 2 ^ 64 := x.toBits.toBitVec.isLt
  have hbit : x.toBits >>> 63 = 0 ↔ x.toBits.toNat / 2 ^ 63 = 0 := by
    have hnat : (x.toBits >>> 63).toNat = x.toBits.toNat / 2 ^ 63 := by
      rw [UInt64.toNat_shiftRight]
      exact Nat.shiftRight_eq_div_pow _ _
    rw [← UInt64.toNat_inj, hnat]
    rfl
  unfold signOf
  split_ifs with h
  · rw [hbit.mp h]
    rfl
  · have hone : Sign.negative.toBitVec.toNat = 1 := rfl
    have hset := mt hbit.mpr h
    rw [hone]
    omega

/-- A number has a sign and two more fields. -/
theorem packComponents_signOf (x : Float) {scale : BitVec 11} {fraction : BitVec 52}
    (hscale : scale.toNat = x.toBits.toNat / 2 ^ 52 % 2 ^ 11)
    (hfraction : fraction.toNat = x.toBits.toNat % 2 ^ 52) :
    packComponents Format.binary64 (signOf x) scale fraction = x.toBits.toBitVec := by
  refine BitVec.eq_of_toNat_eq ?_
  show ((signOf x).toBitVec ++ scale ++ fraction).toNat = x.toBits.toNat
  rw [BitVec.toNat_append, ← Nat.shiftLeft_add_eq_or_of_lt fraction.isLt, BitVec.toNat_append,
    ← Nat.shiftLeft_add_eq_or_of_lt scale.isLt, toNat_signOf, hscale, hfraction,
    Nat.shiftLeft_eq, Nat.shiftLeft_eq]
  omega

/-- The parts of a number are in its bits. -/
theorem parts_eq (x : Float) : parts x =
    if x.toBits.toNat / 2 ^ 52 % 2 ^ 11 = 2047 then
      if x.toBits.toNat % 2 ^ 52 = 0 then infinity (signOf x) else notANumber
    else if h : (Binary.ofFloat x).mantissa = 0 then zero (signOf x)
    else .finite (signOf x) (Binary.ofFloat x).mantissa (Binary.ofFloat x).exponent
      (Nat.pos_of_ne_zero h) := by
  obtain ⟨scale, hscale⟩ : ∃ scale : BitVec 11,
      scale.toNat = x.toBits.toNat / 2 ^ 52 % 2 ^ 11 :=
    ⟨BitVec.ofNat 11 (x.toBits.toNat / 2 ^ 52), BitVec.toNat_ofNat _ _⟩
  obtain ⟨fraction, hfraction⟩ : ∃ fraction : BitVec 52, fraction.toNat = x.toBits.toNat % 2 ^ 52 :=
    ⟨BitVec.ofNat 52 x.toBits.toNat, BitVec.toNat_ofNat _ _⟩
  have hpack := packComponents_signOf x hscale hfraction
  have hunpack : parts x = _ := (congrArg (UnpackedFloat.unpack Format.binary64) hpack.symm).trans
    (unpack_packComponents _ _ _)
  have hfull : scale = -1#11 ↔ scale.toNat = 2047 := by
    rw [← BitVec.toNat_inj]
    rfl
  have hnone : ∀ {n : Nat} (v : BitVec n), v = 0#n ↔ v.toNat = 0 := by
    intro n v
    rw [← BitVec.toNat_inj, BitVec.toNat_zero]
  simp only [hunpack, hfull, hnone, hscale, hfraction, Binary.ofFloat, Binary.ofBits, Nat.pow_eq]
  split_ifs <;> simp_all

/-- The field between the sign and the fraction is full only in what is no finite number. -/
theorem scale_ne_of_isFinite {x : Float} (hx : x.isFinite = true) :
    x.toBits.toNat / 2 ^ 52 % 2 ^ 11 ≠ 2047 := by
  intro hfull
  rw [isFinite_iff, parts_eq, if_pos hfull] at hx
  split_ifs at hx <;> simp at hx

theorem parts_of_isFinite {x : Float} (hx : x.isFinite = true) : parts x =
    if h : (Binary.ofFloat x).mantissa = 0 then zero (signOf x)
    else .finite (signOf x) (Binary.ofFloat x).mantissa (Binary.ofFloat x).exponent
      (Nat.pos_of_ne_zero h) :=
  (parts_eq x).trans (if_neg (scale_ne_of_isFinite hx))

theorem Binary.canonical_ofFloat {x : Float} (hx : x.isFinite = true)
    (hpos : (ofFloat x).mantissa ≠ 0) : (ofFloat x).Canonical := by
  have hfull := scale_ne_of_isFinite hx
  simp only [ofFloat, ofBits, Nat.pow_eq] at hpos ⊢
  split_ifs with hscale
  · rw [if_pos hscale] at hpos
    refine ⟨Nat.pos_of_ne_zero hpos, ?_, le_rfl, by norm_num, Or.inl rfl, by simp⟩
    show _ % 2 ^ 52 < 2 ^ 53
    omega
  · refine ⟨?_, ?_, ?_, ?_, ?_, ?_⟩ <;> simp <;> omega

/-- The absolute value of a finite number other than zero is its binary. -/
theorem Binary.makes_ofFloat {x : Float} (hx : x.isFinite = true)
    (hpos : (ofFloat x).mantissa ≠ 0) : (ofFloat x).Makes (signOf x) x :=
  ⟨canonical_ofFloat hx hpos, (parts_of_isFinite hx).trans (dif_neg hpos)⟩

/-! ## Rounding decimals -/

namespace Binary

variable {b : Binary} {v : Rat}

/-- The numbers that a binary covers are neither too small nor too large for a floating-point
number. -/
theorem Canonical.bounds (hb : b.Canonical) (h : b.Covers v) :
    (2 : Rat) ^ (-1075 : Int) ≤ v ∧ v < (2 : Rat) ^ (1024 : Int) := by
  have hpos := hb.pos
  have hlt := hb.lt
  have hunit : (0 : Rat) < 2 ^ (b.exponent - 2) := by positivity
  constructor
  · have hfirst : (2 : Rat) ≤ b.quarters.1 := by
      have hle : 2 ≤ b.quarters.1 := by
        simp only [quarters]
        split <;> omega
      exact_mod_cast hle
    have hlowest : (2 : Rat) ^ (-1076 : Int) ≤ 2 ^ (b.exponent - 2) :=
      zpow_le_zpow_right₀ (by norm_num) (by linarith [hb.lowest])
    calc (2 : Rat) ^ (-1075 : Int) = 2 * 2 ^ (-1076 : Int) := by
          rw [← zpow_one_add₀ (by norm_num)]
          norm_num
      _ ≤ b.quarters.1 * 2 ^ (b.exponent - 2) := by gcongr
      _ ≤ v := h.lower
  · have hlast : (b.quarters.2.2 : Rat) < 2 ^ (55 : Int) := by
      have hlt' : b.quarters.2.2 < 2 ^ 55 := by
        simp only [quarters]
        omega
      exact_mod_cast hlt'
    have hhighest : (2 : Rat) ^ (b.exponent - 2) ≤ 2 ^ (969 : Int) :=
      zpow_le_zpow_right₀ (by norm_num) (by linarith [hb.highest])
    calc v ≤ b.quarters.2.2 * 2 ^ (b.exponent - 2) := h.upper
      _ < 2 ^ (55 : Int) * 2 ^ (b.exponent - 2) := by gcongr
      _ ≤ 2 ^ (55 : Int) * 2 ^ (969 : Int) := by gcongr
      _ = 2 ^ (1024 : Int) := by rw [← zpow_add₀ (by norm_num)]; norm_num

/-- A decimal is rounded to the binary that covers it. -/
theorem Canonical.ofScientific_eq (hb : b.Canonical) {m : Nat} {e : Int} (hm : 0 < m)
    (hhigh : e ≤ 2048) (hlow : -(2048 + (m.log2 : Int)) ≤ e) (h : b.Covers (m * 10 ^ e)) :
    UnpackedFloat.ofScientific Format.binary64 m e =
      .finite .positive b.mantissa b.exponent hb.pos := by
  have hbits : (2 : Int) ^ Format.binary64.exponentBits = 2048 := rfl
  have hplaces : Format.binary64.mantissaBits = 53 := rfl
  simp only [UnpackedFloat.ofScientific, hbits, hplaces]
  rw [dif_neg hm.ne', if_neg (by omega), if_neg (by omega)]
  split_ifs with hsign
  · obtain ⟨k, rfl⟩ := Int.eq_ofNat_of_zero_le hsign
    have hten : 0 < 10 ^ k := by positivity
    have hshift : 0 < m * 2 ^ 53 := by positivity
    simp only [Nat.shiftLeft_eq, Int.toNat_natCast]
    refine hb.mul_eq hshift hten ?_ ?_ .positive .positive
    · have hlog : 53 ≤ (m * 2 ^ 53 * 10 ^ k).log2 := by
        rw [Nat.le_log2 (by positivity)]
        calc 2 ^ 53 = 1 * 2 ^ 53 * 1 := by norm_num
          _ ≤ m * 2 ^ 53 * 10 ^ k := by gcongr <;> omega
      rw [fitting_eq]
      generalize (m * 2 ^ 53 * 10 ^ k).log2 = bits at hlog ⊢
      push_cast
      omega
    · rw [zpow_natCast] at h
      have hvalue : ((m * 2 ^ 53 : Nat) : Rat) * 2 ^ (-(53 : Nat) : Int) *
          ((10 ^ k : Nat) * 2 ^ (0 : Int)) = m * 10 ^ k := by
        rw [zpow_neg, zpow_natCast]
        push_cast
        field_simp
        norm_num
      rwa [hvalue]
  · obtain ⟨k, hk⟩ := Int.eq_ofNat_of_zero_le (show 0 ≤ -e by omega)
    obtain rfl : e = -(k : Int) := by omega
    have hten : 0 < 10 ^ k := by positivity
    have hvalue : (m : Rat) * 2 ^ (0 : Int) / ((10 ^ k : Nat) * 2 ^ (0 : Int)) =
        m * 10 ^ (-(k : Int)) := by
      rw [zpow_neg, zpow_natCast]
      push_cast
      field_simp
    simp only [neg_neg, Int.toNat_natCast]
    exact hb.div_eq hm hten (hvalue ▸ h) .positive .positive

end Binary

/-! ## Powers of ten in a table -/

/-- The number is a power of ten, as can be checked on its bits. -/
def isPowerOfTen (e : Nat) (x : Float) : Bool :=
  let b := Binary.ofFloat x
  x.isFinite && signOf x == .positive && 2 ^ 52 ≤ b.mantissa &&
    b.mantissa * 2 ^ b.exponent.toNat = 10 ^ e * 2 ^ (-b.exponent).toNat

theorem isPowerOfTen_powers : ∀ i : Fin Float.exactlyRepresentablePowersOfTen.size,
    isPowerOfTen i Float.exactlyRepresentablePowersOfTen[i] = true := by
  decide +kernel

theorem Binary.makes_of_isPowerOfTen {e : Nat} {x : Float} (h : isPowerOfTen e x = true) :
    (ofFloat x).Makes .positive x ∧ 2 ^ 52 ≤ (ofFloat x).mantissa ∧
      ((ofFloat x).mantissa : Rat) * 2 ^ (ofFloat x).exponent = 10 ^ e := by
  simp only [isPowerOfTen, Bool.and_eq_true, decide_eq_true_eq, beq_iff_eq] at h
  obtain ⟨⟨⟨hfinite, hsign⟩, hlow⟩, hvalue⟩ := h
  refine ⟨hsign ▸ makes_ofFloat hfinite (by omega), hlow, ?_⟩
  generalize ofFloat x = b at hvalue ⊢
  have hcast : (b.mantissa : Rat) * 2 ^ b.exponent.toNat = 10 ^ e * 2 ^ (-b.exponent).toNat := by
    exact_mod_cast hvalue
  rw [← zpow_mul_toNat_neg (by norm_num), ← mul_assoc] at hcast
  exact mul_right_cancel₀ (by positivity) hcast

theorem Binary.makes_powerOfTen {e : Nat} (h : e < Float.exactlyRepresentablePowersOfTen.size) :
    let x := Float.exactlyRepresentablePowersOfTen[e]
    (ofFloat x).Makes .positive x ∧ 2 ^ 52 ≤ (ofFloat x).mantissa ∧
      ((ofFloat x).mantissa : Rat) * 2 ^ (ofFloat x).exponent = 10 ^ e :=
  makes_of_isPowerOfTen (isPowerOfTen_powers ⟨e, h⟩)

/-- A decimal is read as the number made of the binary that covers it, whatever way is taken. -/
theorem Binary.Canonical.makes_ofScientific {b : Binary} (hb : b.Canonical) {m : Nat} {e : Int}
    (hm : 0 < m) (hhigh : e ≤ 2048) (hlow : -(2048 + (m.log2 : Int)) ≤ e)
    (h : b.Covers (m * 10 ^ e)) :
    b.Makes .positive (Float.ofScientific m (e < 0) e.natAbs) := by
  simp only [Float.ofScientific, decide_eq_true_eq]
  split_ifs with hshort hsign hsign
  · -- few bits and a small power of ten: one division or multiplication of exact numbers
    obtain ⟨hbits, hplaces⟩ := hshort
    obtain ⟨hp, -, hvalue⟩ := makes_powerOfTen (Nat.lt_succ_of_le hplaces)
    refine (makes_toFloat hm hbits).div hp hb ?_
    have he : (10 : Rat) ^ e = (10 ^ e.natAbs)⁻¹ := by
      rw [← zpow_natCast, ← zpow_neg]
      congr 1
      omega
    rwa [value_ofWhole hbits, hvalue, div_eq_mul_inv, ← he]
  · obtain ⟨hbits, hplaces⟩ := hshort
    obtain ⟨hp, hfull, hvalue⟩ := makes_powerOfTen (Nat.lt_succ_of_le hplaces)
    refine (makes_toFloat hm hbits).mul hp hfull hb ?_
    have he : (10 : Rat) ^ e = 10 ^ e.natAbs := by
      rw [← zpow_natCast]
      congr 1
      omega
    rwa [value_ofWhole hbits, hvalue, ← he]
  -- in all other cases the decimal is rounded once
  · refine hb.makes (congrArg ofParts ?_)
    have he : Int.negOfNat e.natAbs = e := by
      rw [Int.negOfNat_eq]
      show -(e.natAbs : Int) = e
      omega
    rw [he]
    exact hb.ofScientific_eq hm hhigh hlow h
  · refine hb.makes (congrArg ofParts ?_)
    have he : Int.ofNat e.natAbs = e := by
      show (e.natAbs : Int) = e
      omega
    rw [he]
    exact hb.ofScientific_eq hm hhigh hlow h

/-! ## Reading decimals -/

namespace Decimal

variable {d : Decimal}

theorem value_eq_zero_iff : d.value = 0 ↔ d.mantissa = 0 := by
  have hten : (10 : Rat) ^ d.exponent ≠ 0 := by positivity
  rw [value, mul_eq_zero, or_iff_left hten, Nat.cast_eq_zero]

/-- The order of a decimal is that of its value. -/
theorem value_bounds (h : 0 < d.mantissa) :
    (10 : Rat) ^ d.order ≤ d.value ∧ d.value < (10 : Rat) ^ (d.order + 1) := by
  have hten : (0 : Rat) < 10 ^ d.exponent := by positivity
  have hlength := length_digits_pos d.mantissa
  have hlow : (10 : Rat) ^ ((digits d.mantissa).length - 1) ≤ d.mantissa := by
    exact_mod_cast pow_length_digits_le h
  have hhigh : (d.mantissa : Rat) < 10 ^ (digits d.mantissa).length := by
    exact_mod_cast lt_pow_length_digits d.mantissa
  constructor
  · have horder : d.order = ((digits d.mantissa).length - 1 : Nat) + d.exponent := by
      rw [order]
      omega
    rw [horder, zpow_add₀ (by norm_num), zpow_natCast]
    exact mul_le_mul_of_nonneg_right hlow hten.le
  · have horder : d.order + 1 = ((digits d.mantissa).length : Nat) + d.exponent := by
      rw [order]
      omega
    rw [horder, zpow_add₀ (by norm_num), zpow_natCast]
    exact mul_lt_mul_of_pos_right hhigh hten

/-- The exponent lies below the order by less than the number of bits. -/
theorem order_sub_log2_le (h : 0 < d.mantissa) :
    d.order - d.mantissa.log2 ≤ d.exponent ∧ d.exponent ≤ d.order := by
  have hlength := length_digits_pos d.mantissa
  have hbits : (digits d.mantissa).length - 1 ≤ d.mantissa.log2 :=
    (Nat.le_log2 h.ne').mpr
      ((Nat.pow_le_pow_left (by decide) _).trans (pow_length_digits_le h))
  rw [order]
  omega

/-- A number is read from a decimal if it is made of a binary that covers the decimal. -/
theorem makes_toFloat {b : Binary} (hb : b.Canonical) (h : b.Covers d.value) :
    b.Makes .positive d.toFloat := by
  obtain ⟨hlow, hhigh⟩ := hb.bounds h
  have hpos : 0 < d.mantissa := by
    refine Nat.pos_of_ne_zero fun hzero => ?_
    rw [value_eq_zero_iff.mpr hzero] at hlow
    exact absurd hlow (not_le.mpr (by positivity))
  obtain ⟨horder, horder'⟩ := value_bounds hpos
  -- nothing is cut off
  have hlarge : ¬400 < d.order := by
    intro hlarge
    have hle : (10 : Rat) ^ (401 : Int) ≤ 10 ^ d.order :=
      zpow_le_zpow_right₀ (by norm_num) (by omega)
    have hlt : (2 : Rat) ^ (1024 : Int) < 10 ^ (401 : Int) := by
      have hnat : 2 ^ 1024 < 10 ^ 401 := by decide +kernel
      exact_mod_cast hnat
    exact absurd (hle.trans (horder.trans_lt hhigh).le) (not_le.mpr hlt)
  have hsmall : ¬d.order < -400 := by
    intro hsmall
    have hle : (10 : Rat) ^ (d.order + 1) ≤ 10 ^ (-400 : Int) :=
      zpow_le_zpow_right₀ (by norm_num) (by omega)
    have hlt : (10 : Rat) ^ (-400 : Int) < 2 ^ (-1075 : Int) :=
      ten_zpow_lt (by norm_num) (by norm_num)
    exact absurd (hlow.trans (horder'.le.trans hle)) (not_le.mpr hlt)
  obtain ⟨hexponent, hexponent'⟩ := order_sub_log2_le hpos
  rw [toFloat, if_neg hpos.ne', if_neg hlarge, if_neg hsmall]
  exact hb.makes_ofScientific hpos (by omega) (by omega) h

end Decimal

/-! ## Numbers that are read are finite -/

theorem roundWithAccuracy_ne_notANumber (s : Sign) (m : Nat) (e : Int) (acc : Accuracy) :
    roundWithAccuracy Format.binary64 s m e acc ≠ notANumber := by
  simp only [roundWithAccuracy]
  split <;> simp

/-- Neither a product nor a quotient of numbers with digits is undefined. -/
theorem mul_div_ne_notANumber {u v : UnpackedFloat} (hu : ∃ s m e h, u = .finite s m e h)
    (hv : ∃ s m e h, v = .finite s m e h) :
    UnpackedFloat.mul Format.binary64 u v ≠ notANumber ∧
      UnpackedFloat.div Format.binary64 u v ≠ notANumber := by
  obtain ⟨s, m, e, h, rfl⟩ := hu
  obtain ⟨s', m', e', h', rfl⟩ := hv
  exact ⟨roundWithAccuracy_ne_notANumber _ _ _ _, roundWithAccuracy_ne_notANumber _ _ _ _⟩

theorem ofScientific_ne_notANumber (m : Nat) (e : Int) :
    UnpackedFloat.ofScientific Format.binary64 m e ≠ notANumber := by
  simp only [UnpackedFloat.ofScientific]
  split_ifs
  · simp
  · simp
  · simp
  · exact (mul_div_ne_notANumber ⟨_, _, _, _, rfl⟩ ⟨_, _, _, _, rfl⟩).1
  · exact (mul_div_ne_notANumber ⟨_, _, _, _, rfl⟩ ⟨_, _, _, _, rfl⟩).2

theorem parts_ofScientific_ne_notANumber {m : Nat} (hm : 0 < m) (negative : Bool) (e : Nat) :
    parts (Float.ofScientific m negative e) ≠ notANumber := by
  simp only [Float.ofScientific]
  split_ifs with hshort hsign hsign
  all_goals refine parts_ofParts_ne_notANumber ?_
  · obtain ⟨_, hx⟩ := Binary.makes_toFloat hm hshort.1
    obtain ⟨⟨_, hy⟩, -⟩ := Binary.makes_powerOfTen (Nat.lt_succ_of_le hshort.2)
    exact (mul_div_ne_notANumber ⟨_, _, _, _, hx⟩ ⟨_, _, _, _, hy⟩).2
  · obtain ⟨_, hx⟩ := Binary.makes_toFloat hm hshort.1
    obtain ⟨⟨_, hy⟩, -⟩ := Binary.makes_powerOfTen (Nat.lt_succ_of_le hshort.2)
    exact (mul_div_ne_notANumber ⟨_, _, _, _, hx⟩ ⟨_, _, _, _, hy⟩).1
  · exact ofScientific_ne_notANumber _ _
  · exact ofScientific_ne_notANumber _ _

theorem Decimal.parts_toFloat_ne_notANumber (d : Decimal) : parts d.toFloat ≠ notANumber := by
  have hzero : parts (0.0 : Float) = zero .positive := rfl
  rw [Decimal.toFloat]
  split_ifs with h
  · simp [hzero]
  · exact parts_ofScientific_ne_notANumber Nat.one_pos _ _
  · simp [hzero]
  · exact parts_ofScientific_ne_notANumber (Nat.pos_of_ne_zero h) _ _

theorem parts_neg (x : Float) : parts (-x) = (parts x).neg := by
  show parts (ofParts (parts x).neg) = (parts x).neg
  rw [parts_ofParts_neg, ofParts_parts]

theorem isFinite_of_isInf {x : Float} (hnan : parts x ≠ notANumber) (hinf : x.isInf = false) :
    x.isFinite = true := by
  have hinf' : (parts x).isInf = false := hinf
  rw [isFinite_iff]
  cases hx : parts x with
  | notANumber => exact absurd hx hnan
  | infinity s =>
      rw [hx] at hinf'
      cases hinf'
  | zero s => exact Or.inl ⟨s, rfl⟩
  | finite s m e h => exact Or.inr ⟨s, m, e, h, rfl⟩

theorem isFinite_neg {x : Float} (h : x.isFinite = true) : (-x).isFinite = true := by
  rw [isFinite_iff, parts_neg]
  rcases isFinite_iff.mp h with ⟨s, hx⟩ | ⟨s, m, e, hm, hx⟩
  · exact Or.inl ⟨-s, by rw [hx]; rfl⟩
  · exact Or.inr ⟨-s, m, e, hm, by rw [hx]; rfl⟩

namespace Json.Numeral

variable {n : Numeral} {x : Float}

theorem toFloat?_eq_some_iff : n.toFloat? = some x ↔
    n.magnitude.toFloat.isInf = false ∧
      (if n.negative then -n.magnitude.toFloat else n.magnitude.toFloat) = x := by
  simp only [toFloat?]
  cases n.magnitude.toFloat.isInf <;> simp

theorem isFinite_of_toFloat? (h : n.toFloat? = some x) : x.isFinite = true := by
  obtain ⟨hinf, rfl⟩ := toFloat?_eq_some_iff.mp h
  have hfinite := isFinite_of_isInf n.magnitude.parts_toFloat_ne_notANumber hinf
  split_ifs
  · exact isFinite_neg hfinite
  · exact hfinite

end Json.Numeral

/-! ## Numbers that are written -/

theorem Binary.Makes.neg {b : Binary} {s : Sign} {x : Float} (h : b.Makes s x) :
    b.Makes (-s) (-x) := by
  obtain ⟨hb, hx⟩ := h
  refine ⟨hb, ?_⟩
  rw [parts_neg, hx]
  rfl

theorem Binary.Makes.isInf_eq_false {b : Binary} {s : Sign} {x : Float} (h : b.Makes s x) :
    x.isInf = false := by
  obtain ⟨hb, hx⟩ := h
  show (parts x).isInf = false
  rw [hx]
  rfl

/-- A finite number is written as the numeral of its shortest decimal, in any style. -/
theorem Decimal.write_eq (style : Decimal.Style) {x : Float} (hx : x.isFinite = true) :
    Decimal.write style x =
      (Decimal.numeral style (decide (x.toBits >>> 63 ≠ 0)) (Binary.ofFloat x).shortest).text := by
  have hnan : x.isNaN = false := by
    rcases isFinite_iff.mp hx with ⟨s, hx⟩ | ⟨s, m, e, hm, hx⟩
    all_goals
      show (parts x).isNaN = false
      rw [hx]
      rfl
  have hinf : x.isInf = false := by
    rcases isFinite_iff.mp hx with ⟨s, hx⟩ | ⟨s, m, e, hm, hx⟩
    all_goals
      show (parts x).isInf = false
      rw [hx]
      rfl
  simp only [Decimal.write, hnan, hinf, Bool.false_eq_true, if_false, Json.Numeral.text,
    Decimal.negative_numeral, ← Decimal.layout_eq]
  by_cases hsign : x.toBits >>> 63 = 0 <;> simp [hsign]

/-- A finite number is read from the numeral of its shortest decimal. -/
theorem Decimal.toFloat?_numeral (style : Decimal.Style) {x : Float} (hx : x.isFinite = true) :
    (Decimal.numeral style (decide (x.toBits >>> 63 ≠ 0)) (Binary.ofFloat x).shortest).toFloat? =
      some x := by
  set n := Decimal.numeral style (decide (x.toBits >>> 63 ≠ 0)) (Binary.ofFloat x).shortest with hn
  have hvalue : n.magnitude.value = (Binary.ofFloat x).shortest.value := Decimal.value_numeral _ _ _
  have hnegative : n.negative = decide (x.toBits >>> 63 ≠ 0) := Decimal.negative_numeral _ _ _
  rw [Json.Numeral.toFloat?_eq_some_iff, hnegative]
  by_cases hzero : (Binary.ofFloat x).mantissa = 0
  · -- a zero is written as a zero with the same sign
    have hshortest : (Binary.ofFloat x).shortest.value = 0 := by
      rw [Binary.shortest, if_pos hzero, Decimal.value_eq_zero_iff]
    have hmagnitude : n.magnitude.toFloat = 0.0 :=
      if_pos (Decimal.value_eq_zero_iff.mp (hvalue.trans hshortest))
    have hparts : parts x = zero (signOf x) := (parts_of_isFinite hx).trans (dif_pos hzero)
    have hself : ofParts (zero (signOf x)) = x := by rw [← hparts, ofParts_parts]
    rw [hmagnitude]
    refine ⟨rfl, Eq.trans ?_ hself⟩
    unfold signOf
    by_cases hsign : x.toBits >>> 63 = 0
    · rw [if_pos hsign, if_neg (by simpa using hsign)]
      rfl
    · rw [if_neg hsign, if_pos (by simpa using hsign)]
      rfl
  · have hb := Binary.canonical_ofFloat hx hzero
    have hself := Binary.makes_ofFloat hx hzero
    have hread := Decimal.makes_toFloat hb (hvalue ▸ hb.covers_shortest)
    refine ⟨hread.isInf_eq_false, ?_⟩
    unfold signOf at hself
    by_cases hsign : x.toBits >>> 63 = 0
    · rw [if_pos hsign] at hself
      rw [if_neg (by simpa using hsign)]
      exact hread.unique hself
    · rw [if_neg hsign] at hself
      rw [if_pos (by simpa using hsign)]
      exact hread.neg.unique hself

end RegionNet
