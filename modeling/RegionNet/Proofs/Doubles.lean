import Mathlib
import RegionNet.Proofs.Rounding
import RegionNet.Quantity

/-!
# Floating-point numbers

A floating-point number is taken apart into its sign and its absolute value, which is infinite, zero
or a `Binary`. Here stands how it is put together again, how it compares with other numbers, and
that whole numbers that are not too large are kept exactly.
-/

namespace RegionNet

open Float.Model Float.Model.UnpackedFloat

/-- The parts of a floating-point number. -/
def parts (x : Float) : UnpackedFloat := x.toModel.unpack

/-- The floating-point number with the given parts, as far as there is one. -/
def ofParts (u : UnpackedFloat) : Float := ⟨Float.Model.pack u⟩

/-- The parts of a number make it up. -/
@[simp]
theorem ofParts_parts (x : Float) : ofParts (parts x) = x := by
  obtain ⟨⟨bits, hvalid⟩⟩ := x
  have h := pack_unpack_of_valid hvalid
  simp only [ofParts, parts, Float.Model.pack, Float.Model.unpack, h]

/-! ## Taking apart what was put together -/

theorem unpack_packComponents (s : Sign) (scale : BitVec 11) (fraction : BitVec 52) :
    UnpackedFloat.unpack Format.binary64 (packComponents Format.binary64 s scale fraction) =
      if scale = -1#11 then
        if fraction = 0#52 then infinity s else notANumber
      else if scale = 0#11 then
        if h : fraction.toNat = 0 then zero s
        else .finite s fraction.toNat (-1074) (Nat.pos_of_ne_zero h)
      else .finite s (2 ^ 52 + fraction.toNat) (scale.toNat - 1075) (by positivity) := by
  have hbias : (Format.binary64.exponentBias : Int) = 1023 := rfl
  have hhidden : (1#1 ++ fraction).toNat = 2 ^ 52 + fraction.toNat := by
    rw [BitVec.toNat_append, ← Nat.shiftLeft_add_eq_or_of_lt fraction.isLt]
    simp
  simp only [UnpackedFloat.unpack, unpackMantissa_packComponents, unpackExponent_packComponents,
    unpackSign_packComponents, Sign.ofBitVec_toBitVec]
  split
  · rfl
  · split
    · next hzero =>
        subst hzero
        by_cases hfraction : fraction = 0#52
        · subst hfraction
          simp
        · have hne : fraction.toNat ≠ 0 := fun h => hfraction (BitVec.eq_of_toNat_eq h)
          rw [dif_neg hfraction, dif_neg hne]
          simp [hbias]
    · simp only [hhidden, hbias]
      congr 1

/-- What becomes of the parts of a number when it is put together and taken apart again. -/
theorem parts_ofParts (u : UnpackedFloat) :
    parts (ofParts u) =
      UnpackedFloat.unpack Format.binary64 (UnpackedFloat.pack Format.binary64 u) := rfl

@[simp]
theorem parts_ofParts_notANumber : parts (ofParts notANumber) = notANumber := rfl

@[simp]
theorem parts_ofParts_infinity (s : Sign) : parts (ofParts (infinity s)) = infinity s := by
  cases s <;> rfl

@[simp]
theorem parts_ofParts_zero (s : Sign) : parts (ofParts (zero s)) = zero s := by
  cases s <;> rfl

theorem pack_finite (s : Sign) (m : Nat) (e : Int) (h : 0 < m) :
    UnpackedFloat.pack Format.binary64 (.finite s m e h) =
      if 2047 ≤ (e + 1075).toNat then packedInfinity Format.binary64 s
      else
        packComponents Format.binary64 s
          (if m.log2 = 52 then BitVec.ofNat 11 (e + 1075).toNat else 0#11) (BitVec.ofNat 52 m) := by
  have hscale : (e + Format.binary64.exponentBias +
      Format.binary64.mantissaBitsWithoutImplicit).toNat = (e + 1075).toNat := by
    show (e + (1023 : Int) + (52 : Int)).toNat = (e + 1075).toNat
    omega
  have hbits : m.log2 + 1 = Format.binary64.mantissaBits ↔ m.log2 = 52 := by
    show m.log2 + 1 = 53 ↔ m.log2 = 52
    omega
  have hfull : 2 ^ Format.binary64.exponentBits ≤ (e + 1075).toNat + 1 ↔
      2047 ≤ (e + 1075).toNat := by
    show 2 ^ 11 ≤ (e + 1075).toNat + 1 ↔ 2047 ≤ (e + 1075).toNat
    omega
  simp only [UnpackedFloat.pack, hscale, hfull, hbits]
  refine if_congr Iff.rfl rfl ?_
  split <;> rfl

/-- The sign of a number plays no part when it is put together. -/
theorem parts_ofParts_finite (m : Nat) (e : Int) (h : 0 < m) :
    (∀ s, parts (ofParts (.finite s m e h)) = infinity s) ∨
      (∀ s, parts (ofParts (.finite s m e h)) = zero s) ∨
      ∃ m' e' h', ∀ s, parts (ofParts (.finite s m e h)) = .finite s m' e' h' := by
  by_cases hinf : 2047 ≤ (e + 1075).toNat
  · refine Or.inl fun s => ?_
    rw [parts_ofParts, pack_finite, if_pos hinf]
    exact parts_ofParts_infinity s
  -- all that is left is put together from three fields, of which the middle one is not full
  have hfields : ∃ (scale : BitVec 11) (fraction : BitVec 52), scale ≠ -1#11 ∧
      ∀ s, UnpackedFloat.pack Format.binary64 (.finite s m e h) =
        packComponents Format.binary64 s scale fraction := by
    refine ⟨_, _, ?_, fun s => by rw [pack_finite, if_neg hinf]⟩
    split
    · intro heq
      have hnat := congrArg BitVec.toNat heq
      have hfull : (-1#11).toNat = 2047 := by decide
      rw [hfull, BitVec.toNat_ofNat] at hnat
      omega
    · decide
  obtain ⟨scale, fraction, hscale, hpack⟩ := hfields
  have hunpack : ∀ s, parts (ofParts (.finite s m e h)) = _ := fun s => by
    rw [parts_ofParts, hpack, unpack_packComponents, if_neg hscale]
  by_cases hzero : scale = 0#11
  · by_cases hfraction : fraction.toNat = 0
    · refine Or.inr (Or.inl fun s => ?_)
      rw [hunpack, if_pos hzero, dif_pos hfraction]
    · refine Or.inr (Or.inr ⟨_, -1074, Nat.pos_of_ne_zero hfraction, fun s => ?_⟩)
      rw [hunpack, if_pos hzero, dif_neg hfraction]
  · refine Or.inr (Or.inr ⟨2 ^ 52 + fraction.toNat, scale.toNat - 1075, by positivity, fun s => ?_⟩)
    rw [hunpack, if_neg hzero]

theorem parts_ofParts_neg (u : UnpackedFloat) :
    parts (ofParts u.neg) = (parts (ofParts u)).neg := by
  cases u with
  | notANumber => rfl
  | infinity s => simp [UnpackedFloat.neg]
  | zero s => simp [UnpackedFloat.neg]
  | finite s m e h =>
      simp only [UnpackedFloat.neg]
      rcases parts_ofParts_finite m e h with hparts | hparts | ⟨m', e', h', hparts⟩ <;>
        simp [hparts]

/-! ## Comparing -/

section

variable {x y : Float}

theorem lt_iff_compare : x < y ↔ (parts x).compare (parts y) = some .lt := by
  show decide (x.toModel < y.toModel) = true ↔ _
  rw [decide_eq_true_iff]
  exact beq_iff_eq

theorem le_iff_compare :
    x ≤ y ↔ (parts x).compare (parts y) = some .lt ∨ (parts x).compare (parts y) = some .eq := by
  show decide (x.toModel ≤ y.toModel) = true ↔ _
  rw [decide_eq_true_iff]
  show ((parts x).compare (parts y)).any (·.isLE) = true ↔ _
  cases h : (parts x).compare (parts y) with
  | none => simp
  | some o => cases o <;> simp

/-- A number, but not one below zero. -/
def Unsigned : UnpackedFloat → Prop
  | notANumber => False
  | infinity s => s = .positive
  | zero _ => True
  | .finite s _ _ _ => s = .positive

theorem zero_le_iff : 0 ≤ x ↔ Unsigned (parts x) := by
  rw [le_iff_compare, show parts 0 = zero .positive from rfl]
  cases parts x with
  | notANumber => simp [UnpackedFloat.compare, Unsigned]
  | infinity s => cases s <;> simp [UnpackedFloat.compare, Unsigned]
  | zero s => simp [UnpackedFloat.compare, Unsigned]
  | finite s m e h => cases s <;> simp [UnpackedFloat.compare, Unsigned]

theorem isFinite_iff :
    x.isFinite = true ↔ (∃ s, parts x = zero s) ∨ ∃ s m e h, parts x = .finite s m e h := by
  show (parts x).isFinite = true ↔ _
  cases parts x with
  | notANumber => simp [UnpackedFloat.isFinite]
  | infinity s => simp [UnpackedFloat.isFinite]
  | zero s => simp [UnpackedFloat.isFinite]
  | finite s m e h => simp [UnpackedFloat.isFinite, h]

/-- Where there is no doubt that a number is one, what is not below zero is at least zero. -/
theorem not_lt_zero_iff (h : x.isFinite = true) : ¬x < 0 ↔ 0 ≤ x := by
  rw [zero_le_iff, lt_iff_compare, show parts 0 = zero .positive from rfl]
  rcases isFinite_iff.mp h with ⟨s, hx⟩ | ⟨s, m, e, hm, hx⟩ <;> rw [hx]
  · simp [UnpackedFloat.compare, Unsigned]
  · cases s <;> simp [UnpackedFloat.compare, Unsigned]

/-- What lies between zero and one is a finite number. -/
theorem isFinite_of_le_one (h : 0 ≤ x) (h' : x ≤ 1) : x.isFinite = true := by
  obtain ⟨m, e, hm, hone⟩ : ∃ m e hm, parts 1 = .finite .positive m e hm := ⟨_, _, _, rfl⟩
  rw [zero_le_iff] at h
  rw [le_iff_compare, hone] at h'
  rw [isFinite_iff]
  cases hx : parts x with
  | notANumber => simp [hx, Unsigned] at h
  | infinity s =>
      obtain rfl : s = .positive := by simpa [hx, Unsigned] using h
      simp [hx, UnpackedFloat.compare] at h'
  | zero s => exact Or.inl ⟨s, rfl⟩
  | finite s m e hm => exact Or.inr ⟨s, m, e, hm, rfl⟩

end

/-! ## Sums -/

theorem unsigned_parts_ofParts {u : UnpackedFloat} (h : Unsigned u) :
    Unsigned (parts (ofParts u)) := by
  cases u with
  | notANumber => exact h.elim
  | infinity s => simpa using h
  | zero s => simp [Unsigned]
  | finite s m e hm =>
      obtain rfl : s = .positive := h
      rcases parts_ofParts_finite m e hm with hp | hp | ⟨m', e', h', hp⟩ <;>
        simp [hp, Unsigned]

theorem unsigned_round (m : Nat) (e : Int) :
    Unsigned (UnpackedFloat.round Format.binary64 .positive m e) := by
  simp only [UnpackedFloat.round, roundWithAccuracy]
  split
  · trivial
  · rfl

/-- Sums of numbers from zero on stay there. -/
theorem add_nonneg_of_nonneg {x y : Float} (hx : 0 ≤ x) (hy : 0 ≤ y) : 0 ≤ x + y := by
  rw [zero_le_iff] at *
  show Unsigned (parts (ofParts (UnpackedFloat.add Format.binary64 (parts x) (parts y))))
  refine unsigned_parts_ofParts ?_
  cases hxp : parts x with
  | notANumber => simp [hxp, Unsigned] at hx
  | infinity s =>
      obtain rfl : s = .positive := by simpa [hxp, Unsigned] using hx
      cases hyp : parts y with
      | notANumber => simp [hyp, Unsigned] at hy
      | infinity t =>
          obtain rfl : t = .positive := by simpa [hyp, Unsigned] using hy
          simp [UnpackedFloat.add, Unsigned]
      | zero t => simp [UnpackedFloat.add, Unsigned]
      | finite t m e hm => simp [UnpackedFloat.add, Unsigned]
  | zero s =>
      cases hyp : parts y with
      | notANumber => simp [hyp, Unsigned] at hy
      | infinity t => simpa [hyp, UnpackedFloat.add] using hy
      | zero t =>
          simp only [UnpackedFloat.add]
          split <;> trivial
      | finite t m e hm => simpa [hyp, UnpackedFloat.add] using hy
  | finite s m e hm =>
      obtain rfl : s = .positive := by simpa [hxp, Unsigned] using hx
      cases hyp : parts y with
      | notANumber => simp [hyp, Unsigned] at hy
      | infinity t => simpa [hyp, UnpackedFloat.add] using hy
      | zero t => simp [UnpackedFloat.add, Unsigned]
      | finite t n f hn =>
          obtain rfl : t = .positive := by simpa [hyp, Unsigned] using hy
          simp only [UnpackedFloat.add, decreaseExponent, Sign.apply, UnpackedFloat.normalize]
          rw [compare_gt_iff_gt.mpr]
          · exact unsigned_round _ _
          · have hpos : 0 < m <<< (e - min e f).toNat := by
              rw [Nat.shiftLeft_eq]
              positivity
            exact Int.add_pos_of_pos_of_nonneg (by exact_mod_cast hpos) (Int.natCast_nonneg _)

/-! ## Differences -/

theorem round_neg (s : Sign) (m : Nat) (e : Int) :
    UnpackedFloat.round Format.binary64 (-s) m e =
      (UnpackedFloat.round Format.binary64 s m e).neg := by
  simp only [UnpackedFloat.round, roundWithAccuracy]
  split <;> rfl

theorem normalize_neg {k : Int} (hk : k ≠ 0) (e : Int) (s : Sign) :
    UnpackedFloat.normalize Format.binary64 (-k) e s =
      (UnpackedFloat.normalize Format.binary64 k e s).neg := by
  unfold UnpackedFloat.normalize
  rcases lt_or_gt_of_ne hk with h | h
  · rw [compare_lt_iff_lt.mpr h, compare_gt_iff_gt.mpr (by omega)]
    exact round_neg .negative _ _
  · rw [compare_gt_iff_gt.mpr h, compare_lt_iff_lt.mpr (by omega), neg_neg]
    exact round_neg .positive _ _

/-- The first number is the second with the other sign; the sign of zero is left open. -/
def Opposite (u v : UnpackedFloat) : Prop := u = v.neg ∨ ∃ s t, u = zero s ∧ v = zero t

theorem opposite_sub (u v : UnpackedFloat) :
    Opposite (UnpackedFloat.sub Format.binary64 u v) (UnpackedFloat.sub Format.binary64 v u) := by
  cases u with
  | notANumber => cases v <;> exact Or.inl rfl
  | infinity s =>
      cases v with
      | infinity t => cases s <;> cases t <;> exact Or.inl rfl
      | notANumber => exact Or.inl rfl
      | zero t => cases s <;> exact Or.inl rfl
      | finite t n f hn => cases s <;> exact Or.inl rfl
  | zero s =>
      cases v with
      | zero t => cases s <;> cases t <;> exact Or.inr ⟨_, _, rfl, rfl⟩
      | notANumber => exact Or.inl rfl
      | infinity t => exact Or.inl rfl
      | finite t n f hn => exact Or.inl rfl
  | finite s m e hm =>
      cases v with
      | notANumber => exact Or.inl rfl
      | infinity t => exact Or.inl rfl
      | zero t => cases s <;> exact Or.inl rfl
      | finite t n f hn =>
          simp only [UnpackedFloat.sub, decreaseExponent, min_comm f e]
          generalize (Sign.apply t _ : Int) = b
          generalize (Sign.apply s _ : Int) = a
          by_cases h : b - a = 0
          · obtain rfl : b = a := by omega
            rw [sub_self]
            exact Or.inr ⟨_, _, rfl, rfl⟩
          · rw [← neg_sub b a]
            exact Or.inl (normalize_neg h _ _)

theorem opposite_parts_sub (x y : Float) : Opposite (parts (x - y)) (parts (y - x)) := by
  show Opposite (parts (ofParts (UnpackedFloat.sub Format.binary64 (parts x) (parts y))))
    (parts (ofParts (UnpackedFloat.sub Format.binary64 (parts y) (parts x))))
  rcases opposite_sub (parts x) (parts y) with h | ⟨s, t, hs, ht⟩
  · rw [h, parts_ofParts_neg]
    exact Or.inl rfl
  · rw [hs, ht, parts_ofParts_zero, parts_ofParts_zero]
    exact Or.inr ⟨s, t, rfl, rfl⟩

theorem parts_abs (x : Float) : parts x.abs = (parts x).abs := by
  show parts (ofParts (parts x).abs) = (parts x).abs
  have hself : parts (ofParts (parts x)) = parts x := by rw [ofParts_parts]
  have hneg : parts (ofParts (parts x).neg) = (parts x).neg := by rw [parts_ofParts_neg, hself]
  -- the absolute value is the number itself or its negative
  generalize parts x = u at *
  cases u with
  | notANumber => exact hself
  | infinity s => simp [UnpackedFloat.abs]
  | zero s => simp [UnpackedFloat.abs]
  | finite s m e h =>
      cases s with
      | positive => exact hself
      | negative => exact hneg

/-- Two numbers are at most a positive distance apart exactly if neither exceeds the other by
more. -/
theorem abs_sub_le_iff {x y t : Float} (hnan : parts (x - y) ≠ notANumber)
    (ht : ∃ m e h, parts t = .finite .positive m e h) :
    (x - y).abs ≤ t ↔ ¬(t < x - y ∨ t < y - x) := by
  obtain ⟨m, e, hm, ht⟩ := ht
  have hopposite := opposite_parts_sub y x
  rw [le_iff_compare, lt_iff_compare, lt_iff_compare, parts_abs, ht]
  generalize parts (x - y) = u at *
  generalize parts (y - x) = v at *
  rcases hopposite with rfl | ⟨s, s', rfl, rfl⟩
  · cases u with
    | notANumber => exact absurd rfl hnan
    | infinity s => cases s <;> simp [UnpackedFloat.compare, UnpackedFloat.abs, UnpackedFloat.neg]
    | zero s => simp [UnpackedFloat.compare, UnpackedFloat.abs, UnpackedFloat.neg]
    | finite s n f hn =>
        have hswap : (compare f e).then (compare n m) = ((compare e f).then (compare m n)).swap := by
          rw [Ordering.swap_then, Std.OrientedOrd.eq_swap (a := f), Std.OrientedOrd.eq_swap (a := n)]
        cases s <;>
          simp only [UnpackedFloat.compare, UnpackedFloat.abs, UnpackedFloat.neg, hswap] <;>
          cases (compare e f).then (compare m n) <;> simp
  · simp [UnpackedFloat.compare, UnpackedFloat.abs]

theorem parts_ofParts_ne_notANumber {u : UnpackedFloat} (h : u ≠ notANumber) :
    parts (ofParts u) ≠ notANumber := by
  cases u with
  | notANumber => exact absurd rfl h
  | infinity s => simp
  | zero s => simp
  | finite s m e hm =>
      rcases parts_ofParts_finite m e hm with hp | hp | ⟨m', e', h', hp⟩ <;> simp [hp]

/-- The distance of a number from zero on to a finite number is a number. -/
theorem parts_sub_ne_notANumber {x y : Float} (hx : 0 ≤ x) (hy : y.isFinite = true) :
    parts (x - y) ≠ notANumber := by
  show parts (ofParts (UnpackedFloat.sub Format.binary64 (parts x) (parts y))) ≠ notANumber
  refine parts_ofParts_ne_notANumber ?_
  rw [zero_le_iff] at hx
  cases hxp : parts x with
  | notANumber => simp [hxp, Unsigned] at hx
  | infinity s =>
      rcases isFinite_iff.mp hy with ⟨t, ht⟩ | ⟨t, n, f, hn, ht⟩ <;>
        simp [ht, UnpackedFloat.sub]
  | zero s =>
      rcases isFinite_iff.mp hy with ⟨t, ht⟩ | ⟨t, n, f, hn, ht⟩
      · simp only [ht, UnpackedFloat.sub]
        split <;> simp
      · simp [ht, UnpackedFloat.sub]
  | finite s m e hm =>
      rcases isFinite_iff.mp hy with ⟨t, ht⟩ | ⟨t, n, f, hn, ht⟩
      · simp [ht, UnpackedFloat.sub]
      · simp only [ht, UnpackedFloat.sub, UnpackedFloat.normalize, UnpackedFloat.round,
          roundWithAccuracy]
        split
        · split <;> simp
        · simp
        · split <;> simp

/-! ## Whole numbers -/

/-- A canonical binary is kept as it is. -/
theorem Binary.Canonical.parts_ofParts {b : Binary} (hb : b.Canonical) (s : Sign) :
    parts (ofParts (.finite s b.mantissa b.exponent hb.pos)) =
      .finite s b.mantissa b.exponent hb.pos := by
  have hlow := hb.lowest
  have hhigh := hb.highest
  have hlt := hb.lt
  have hpos := hb.pos
  rw [RegionNet.parts_ofParts, pack_finite, if_neg (by omega), unpack_packComponents]
  by_cases hnormal : 2 ^ 52 ≤ b.mantissa
  · have hlog : b.mantissa.log2 = 52 := (Nat.log2_eq_iff hpos.ne').mpr ⟨hnormal, hlt⟩
    have hscale : (BitVec.ofNat 11 (b.exponent + 1075).toNat).toNat = (b.exponent + 1075).toNat := by
      rw [BitVec.toNat_ofNat]
      omega
    have hfull : BitVec.ofNat 11 (b.exponent + 1075).toNat ≠ -1#11 := fun h => by
      have hnat := congrArg BitVec.toNat h
      rw [hscale, show (-1#11).toNat = 2047 by decide] at hnat
      omega
    have hnone : BitVec.ofNat 11 (b.exponent + 1075).toNat ≠ 0#11 := fun h => by
      have hnat := congrArg BitVec.toNat h
      rw [hscale, show (0#11).toNat = 0 by decide] at hnat
      omega
    have hfraction : 2 ^ 52 + (BitVec.ofNat 52 b.mantissa).toNat = b.mantissa := by
      rw [BitVec.toNat_ofNat]
      omega
    rw [if_pos hlog, if_neg hfull, if_neg hnone]
    simp only [hscale, hfraction]
    congr 1
    omega
  · have hlog : b.mantissa.log2 ≠ 52 := fun h => by
      have hself := Nat.log2_self_le hpos.ne'
      rw [h] at hself
      exact hnormal hself
    have hlowest : b.exponent = -1074 := hb.leading.resolve_right hnormal
    have hfraction : (BitVec.ofNat 52 b.mantissa).toNat = b.mantissa := by
      rw [BitVec.toNat_ofNat]
      omega
    rw [if_neg hlog, if_neg (by decide), if_pos rfl, dif_neg (by omega)]
    simp only [hfraction, hlowest]

/-- A whole number as a binary. -/
def Binary.ofWhole (n : Nat) : Binary :=
  ⟨n * 2 ^ (52 - n.log2), (n.log2 : Int) - 52, n == 2 ^ n.log2⟩

theorem Binary.canonical_ofWhole {n : Nat} (hpos : 0 < n) (hlt : n < 2 ^ 53) :
    (ofWhole n).Canonical := by
  have hlog : n.log2 < 53 := (Nat.log2_lt hpos.ne').mpr hlt
  have hbits : (n * 2 ^ (52 - n.log2)).log2 = 52 := by
    rw [log2_mul_two_pow hpos.ne']
    omega
  have hne : n * 2 ^ (52 - n.log2) ≠ 0 := by positivity
  obtain ⟨hlow, hhigh⟩ := (Nat.log2_eq_iff hne).mp hbits
  refine ⟨by simpa [ofWhole] using hpos, hhigh, ?_, ?_, Or.inr hlow, ?_⟩
  · simp only [ofWhole]
    omega
  · simp only [ofWhole]
    omega
  · have hpow : 2 ^ 52 = 2 ^ n.log2 * 2 ^ (52 - n.log2) := by
      rw [← pow_add]
      congr 1
      omega
    simp only [ofWhole, beq_iff_eq, hpow, Nat.mul_left_inj (show 2 ^ (52 - n.log2) ≠ 0 by positivity)]
    constructor
    · intro h
      exact ⟨h, by omega⟩
    · exact And.left

theorem Binary.value_ofWhole {n : Nat} (hlt : n < 2 ^ 53) :
    ((ofWhole n).mantissa : Rat) * 2 ^ (ofWhole n).exponent = n := by
  have hlog : n.log2 ≤ 52 := by
    rcases Nat.eq_zero_or_pos n with rfl | hpos
    · simp
    · exact Nat.lt_succ_iff.mp ((Nat.log2_lt hpos.ne').mpr hlt)
  have hexponent : (n.log2 : Int) - 52 = -((52 - n.log2 : Nat) : Int) := by omega
  simp only [ofWhole, hexponent, zpow_neg, zpow_natCast]
  push_cast
  field_simp

/-! ## Numbers made of a sign and a binary -/

namespace Binary

/-- The binary is the absolute value of the number. -/
def Makes (b : Binary) (s : Sign) (x : Float) : Prop :=
  ∃ h : b.Canonical, parts x = .finite s b.mantissa b.exponent h.pos

variable {b b₁ b₂ : Binary} {s s₁ s₂ : Sign} {x y : Float}

/-- There is one number with a given sign and absolute value. -/
theorem Makes.unique (hx : b.Makes s x) (hy : b.Makes s y) : x = y := by
  obtain ⟨h, hx⟩ := hx
  obtain ⟨_, hy⟩ := hy
  rw [← ofParts_parts x, ← ofParts_parts y, hx, hy]

theorem Canonical.makes (hb : b.Canonical) (hx : x = ofParts (.finite s b.mantissa b.exponent hb.pos)) :
    b.Makes s x :=
  ⟨hb, hx ▸ hb.parts_ofParts s⟩

/-- A product is the number made of the binary that covers it. Of the factors one must use all the
bits there are. -/
theorem Makes.mul (hx : b₁.Makes s₁ x) (hy : b₂.Makes s₂ y) (hbits : 2 ^ 52 ≤ b₂.mantissa)
    (hb : b.Canonical)
    (hcovers : b.Covers (b₁.mantissa * 2 ^ b₁.exponent * (b₂.mantissa * 2 ^ b₂.exponent))) :
    b.Makes (s₁ * s₂) (x * y) := by
  obtain ⟨h₁, hx⟩ := hx
  obtain ⟨h₂, hy⟩ := hy
  refine hb.makes ?_
  show ofParts (UnpackedFloat.mul Format.binary64 (parts x) (parts y)) = _
  rw [hx, hy, hb.mul_eq h₁.pos h₂.pos ?_ hcovers]
  have hproduct : 2 ^ 52 ≤ b₁.mantissa * b₂.mantissa :=
    hbits.trans (Nat.le_mul_of_pos_left _ h₁.pos)
  have hlog : 52 ≤ (b₁.mantissa * b₂.mantissa).log2 := (Nat.le_log2 (by omega)).mpr hproduct
  rw [fitting_eq]
  omega

/-- A quotient is the number made of the binary that covers it. -/
theorem Makes.div (hx : b₁.Makes s₁ x) (hy : b₂.Makes s₂ y) (hb : b.Canonical)
    (hcovers : b.Covers (b₁.mantissa * 2 ^ b₁.exponent / (b₂.mantissa * 2 ^ b₂.exponent))) :
    b.Makes (s₁ / s₂) (x / y) := by
  obtain ⟨h₁, hx⟩ := hx
  obtain ⟨h₂, hy⟩ := hy
  refine hb.makes ?_
  show ofParts (UnpackedFloat.div Format.binary64 (parts x) (parts y)) = _
  rw [hx, hy, hb.div_eq h₁.pos h₂.pos hcovers]

theorem le_ofWhole {n : Nat} (hpos : 0 < n) (hlt : n < 2 ^ 53) : 2 ^ 52 ≤ (ofWhole n).mantissa := by
  have hlog : n.log2 < 53 := (Nat.log2_lt hpos.ne').mpr hlt
  calc 2 ^ 52 = 2 ^ n.log2 * 2 ^ (52 - n.log2) := by
        rw [← pow_add]
        congr 1
        omega
    _ ≤ n * 2 ^ (52 - n.log2) := Nat.mul_le_mul_right _ (Nat.log2_self_le hpos.ne')

theorem makes_toFloat {n : Nat} (hpos : 0 < n) (hlt : n < 2 ^ 53) :
    (ofWhole n).Makes .positive n.toUInt64.toFloat := by
  have hb := canonical_ofWhole hpos hlt
  refine hb.makes ?_
  have hself : n.toUInt64.toNat = n := Nat.mod_eq_of_lt (by omega)
  have hcovers : (ofWhole n).Covers (n * 2 ^ (0 : Int)) := by
    have h := hb.covers
    rwa [value_ofWhole hlt, ← mul_one (n : Rat), ← zpow_zero (2 : Rat)] at h
  have hround := hb.round_eq (e := 0) hpos.ne' hcovers .positive
  show ofParts (UnpackedFloat.normalize Format.binary64 (n.toUInt64.toNat : Int) 0 .positive) = _
  rw [hself, UnpackedFloat.normalize, compare_gt_iff_gt.mpr (by omega)]
  exact congrArg ofParts hround

/-- Whole numbers of not more than 53 bits are floating-point numbers. -/
theorem makes_ofNat {n : Nat} (hpos : 0 < n) (hlt : n < 2 ^ 53) :
    (ofWhole n).Makes .positive (Float.ofNat n) := by
  have hone : (ofWhole 1).Makes .positive (Float.exactlyRepresentablePowersOfTen[0]) :=
    ⟨canonical_ofWhole (by norm_num) (by norm_num), rfl⟩
  have hb := canonical_ofWhole hpos hlt
  have hproduct : Float.ofNat n = n.toUInt64.toFloat * Float.exactlyRepresentablePowersOfTen[0] := by
    show Float.ofScientific n false 0 = _
    rw [Float.ofScientific, dif_pos ⟨hlt, by omega⟩]
    rfl
  rw [hproduct]
  refine (makes_toFloat hpos hlt).mul hone (le_ofWhole (by norm_num) (by norm_num)) hb ?_
  rw [value_ofWhole (n := 1) (by norm_num), Nat.cast_one, mul_one]
  exact hb.covers

end Binary

/-- A whole number comes back from its floating-point number. -/
theorem toUInt64_ofNat {n : Nat} (hpos : 0 < n) (hlt : n < 2 ^ 53) :
    (Float.ofNat n).toUInt64.toNat = n := by
  obtain ⟨hb, hparts⟩ := Binary.makes_ofNat hpos hlt
  have hlog : n.log2 < 53 := (Nat.log2_lt hpos.ne').mpr hlt
  have hround : roundToInt .positive (Binary.ofWhole n).mantissa (Binary.ofWhole n).exponent = n := by
    have hshift : (Binary.ofWhole n).exponent.toNat = 0 := by
      simp only [Binary.ofWhole]
      omega
    have hback : (0 - (Binary.ofWhole n).exponent).toNat = 52 - n.log2 := by
      simp only [Binary.ofWhole]
      omega
    have hstands := (standsFor_exact (Binary.ofWhole n).mantissa).shiftRight (52 - n.log2)
    have hvalue : ((Binary.ofWhole n).mantissa : Rat) / 2 ^ (52 - n.log2) = n := by
      simp [Binary.ofWhole]
    rw [hvalue] at hstands
    simp only [roundToInt, decreaseExponent, sub_zero, hshift, shiftToExponent, Nat.shiftLeft_zero,
      Nat.cast_zero, hback, hstands.mantissa_eq, Sign.apply]
  have hint : (Float.ofNat n).toUInt64 =
      UInt64.ofNatClamp (toInt 0 ((UInt64.size : Int) - 1) (parts (Float.ofNat n))).toNat := rfl
  rw [hint, hparts]
  simp only [toInt, hround, Int.toNat_natCast, UInt64.ofNatClamp]
  rw [dif_pos (by simp only [UInt64.size]; omega)]
  rfl

/-- A number equals its own integer part, which is not zero, exactly if it is a whole number. -/
theorem eq_toUInt64_iff {x : Float} {n : Nat} (hpos : 0 < n) (hlt : n < 2 ^ 53) :
    (Float.ofNat x.toUInt64.toNat == x) = true ∧ x.toUInt64.toNat = n ↔ x = Float.ofNat n := by
  constructor
  · rintro ⟨hbeq, rfl⟩
    obtain ⟨hb, hparts⟩ := Binary.makes_ofNat hpos hlt
    rcases (Float.beq_iff_ne_nan_and_eq.mp hbeq).2.2 with h | ⟨h, -⟩ | ⟨h, -⟩
    · exact h.symm
    -- none of the zeros is made of a binary
    · rw [h] at hparts
      cases hparts
    · rw [h] at hparts
      cases hparts
  · rintro rfl
    obtain ⟨hb, hparts⟩ := Binary.makes_ofNat hpos hlt
    rw [toUInt64_ofNat hpos hlt]
    refine ⟨Float.beq_iff_ne_nan_and_eq.mpr ⟨?_, ?_, Or.inl rfl⟩, rfl⟩ <;>
    · intro h
      rw [h] at hparts
      cases hparts

end RegionNet
