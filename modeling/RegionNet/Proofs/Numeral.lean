import Mathlib
import RegionNet.Decimal.Layout
import RegionNet.Json.Token

/-!
# Numerals

A decimal is laid out as the text of a numeral (`Decimal.layout_eq`) that is well formed and of the
same value (`Decimal.wellFormed_numeral`, `Decimal.value_numeral`).
-/

namespace RegionNet

/-! ## Digits -/

theorem isDigit_of_mem_digits {n : Nat} {c : Char} (h : c ∈ digits n) : c.isDigit = true :=
  Nat.isDigit_of_mem_toDigits (by decide) (by decide) h

theorem length_digits_pos (n : Nat) : 0 < (digits n).length := Nat.length_toDigits_pos

theorem digits_ne_nil (n : Nat) : digits n ≠ [] := List.ne_nil_of_length_pos (length_digits_pos n)

theorem lt_pow_length_digits (n : Nat) : n < 10 ^ (digits n).length :=
  (Nat.length_toDigits_le_iff (by decide) (length_digits_pos n)).mp (Nat.le_refl _)

theorem pow_length_digits_le {n : Nat} (h : 0 < n) : 10 ^ ((digits n).length - 1) ≤ n := by
  have hlength := length_digits_pos n
  rcases Nat.eq_zero_or_pos ((digits n).length - 1) with hone | hmore
  · rw [hone]
    exact h
  · refine not_lt.mp fun hlt => ?_
    have hle : (digits n).length ≤ (digits n).length - 1 :=
      (Nat.length_toDigits_le_iff (by decide) hmore).mpr hlt
    omega

/-- Only zero has a zero in front. -/
theorem digits_ne_zero_cons {n : Nat} (h : 0 < n) : ∀ cs, digits n ≠ '0' :: cs := by
  induction n using Nat.strong_induction_on with
  | _ n ih =>
      intro cs hcs
      rw [digits, Nat.toDigits_eq_if (by decide)] at hcs
      split at hcs
      · next hlt =>
          obtain ⟨hzero, -⟩ := List.cons.inj hcs
          have hdigit : ∀ k < 10, 0 < k → Nat.digitChar k ≠ '0' := by decide
          exact hdigit n hlt h hzero
      · next hge =>
          -- the digits of a tenth of the number come first
          cases hds : Nat.toDigits 10 (n / 10) with
          | nil => exact digits_ne_nil (n / 10) hds
          | cons d ds =>
              rw [hds] at hcs
              obtain ⟨rfl, -⟩ := List.cons.inj hcs
              exact ih (n / 10) (by omega) (by omega) ds hds

theorem valueOfDigits_append (acc : Nat) (xs ys : List Char) :
    valueOfDigits acc (xs ++ ys) = valueOfDigits (valueOfDigits acc xs) ys :=
  List.foldl_append

theorem valueOfDigits_digits (n : Nat) : valueOfDigits 0 (digits n) = n :=
  Nat.ofDigitChars_toDigits (by decide) (by decide)

theorem valueOfDigits_zeros (acc n : Nat) :
    valueOfDigits acc (List.replicate n '0') = acc * 10 ^ n := by
  induction n generalizing acc with
  | zero => rw [pow_zero, mul_one]; rfl
  | succ n ih =>
      have hstep : valueOfDigits acc (List.replicate (n + 1) '0') =
          valueOfDigits (10 * acc + digitValue '0') (List.replicate n '0') := rfl
      have hzero : digitValue '0' = 0 := by decide
      rw [hstep, ih, hzero]
      ring

namespace Json.Numeral

/-- The numeral is made of digits, and no zero stands in front of its whole part. -/
structure WellFormed (n : Numeral) : Prop where
  whole : ∀ c ∈ n.whole, c.isDigit = true
  ne_nil : n.whole ≠ []
  leading : ∀ c cs, n.whole ≠ '0' :: c :: cs
  fraction : ∀ c ∈ n.fraction, c.isDigit = true
  exponent : ∀ e ∈ n.exponent, e.2 ≠ [] ∧ ∀ c ∈ e.2, c.isDigit = true

def exponentText (n : Numeral) : List Char :=
  match n.exponent with
  | none => []
  | some (negative, ds) => 'e' :: (if negative then '-' else '+') :: ds

def fractionText (n : Numeral) : List Char :=
  match n.fraction with
  | [] => []
  | cs => '.' :: cs

theorem fractionText_eq {n : Numeral} (h : n.fraction ≠ []) :
    n.fractionText = '.' :: n.fraction := by
  unfold fractionText
  split
  · next hnil => exact absurd hnil h
  · rfl

/-- The numeral without its sign. -/
def unsignedText (n : Numeral) : List Char := n.whole ++ (n.fractionText ++ n.exponentText)

def text (n : Numeral) : List Char := (if n.negative then ['-'] else []) ++ n.unsignedText

end Json.Numeral

namespace Decimal

open Json (Numeral)

/-- The number that a decimal stands for. -/
def value (d : Decimal) : Rat := d.mantissa * 10 ^ d.exponent

/-- The digits of a whole number. -/
def wholeDigits (d : Decimal) : List Char :=
  digits d.mantissa ++ if d.mantissa = 0 then [] else List.replicate d.exponent.toNat '0'

/-- The number of digits after the point. -/
def places (d : Decimal) : Nat := (-d.exponent).toNat

/-- The numeral with all places. -/
def plainNumeral (wholePoint negative : Bool) (d : Decimal) : Numeral :=
  let ds := digits d.mantissa
  if 0 ≤ d.exponent then ⟨negative, d.wholeDigits, if wholePoint then ['0'] else [], none⟩
  else if ds.length ≤ d.places then
    ⟨negative, ['0'], List.replicate (d.places - ds.length) '0' ++ ds, none⟩
  else ⟨negative, ds.take (ds.length - d.places), ds.drop (ds.length - d.places), none⟩

/-- The numeral with an exponent. -/
def scaledNumeral (negative : Bool) (d : Decimal) : Numeral :=
  ⟨negative, (digits d.mantissa).take 1, (digits d.mantissa).drop 1,
    some (d.order < 0, digits d.order.natAbs)⟩

/-- The numeral as which a decimal is laid out. -/
def numeral (style : Style) (negative : Bool) (d : Decimal) : Numeral :=
  match style.plainOrders with
  | none => plainNumeral style.wholePoint negative d
  | some (lowest, highest) =>
    if d.mantissa = 0 ∨ (lowest ≤ d.order ∧ d.order ≤ highest) then
      plainNumeral style.wholePoint negative d
    else scaledNumeral negative d

theorem unsignedText_point {ds : List Char} (negative : Bool) (whole : List Char) (h : ds ≠ []) :
    Numeral.unsignedText ⟨negative, whole, ds, none⟩ = whole ++ '.' :: ds := by
  rw [Numeral.unsignedText, Numeral.fractionText_eq h, Numeral.exponentText, List.append_nil]

section

variable (wholePoint negative : Bool) {d : Decimal}

theorem plainNumeral_of_whole (h : 0 ≤ d.exponent) : plainNumeral wholePoint negative d =
    ⟨negative, d.wholeDigits, if wholePoint then ['0'] else [], none⟩ :=
  if_pos h

theorem plainNumeral_of_small (h : ¬0 ≤ d.exponent)
    (hlength : (digits d.mantissa).length ≤ d.places) :
    plainNumeral wholePoint negative d =
      ⟨negative, ['0'],
        List.replicate (d.places - (digits d.mantissa).length) '0' ++ digits d.mantissa, none⟩ :=
  (if_neg h).trans (if_pos hlength)

theorem plainNumeral_of_mixed (h : ¬0 ≤ d.exponent)
    (hlength : ¬(digits d.mantissa).length ≤ d.places) :
    plainNumeral wholePoint negative d =
      ⟨negative, (digits d.mantissa).take ((digits d.mantissa).length - d.places),
        (digits d.mantissa).drop ((digits d.mantissa).length - d.places), none⟩ :=
  (if_neg h).trans (if_neg hlength)

theorem places_pos (h : ¬0 ≤ d.exponent) : 0 < d.places ∧ (d.places : Int) = -d.exponent := by
  rw [places]
  omega

theorem allPlaces_eq :
    allPlaces wholePoint d = (plainNumeral wholePoint negative d).unsignedText := by
  rw [allPlaces]
  by_cases h : 0 ≤ d.exponent
  · rw [plainNumeral_of_whole wholePoint negative h, if_pos h]
    cases wholePoint <;>
      simp [Numeral.unsignedText, Numeral.fractionText, Numeral.exponentText, wholeDigits]
  rw [if_neg h, ← places]
  have hplaces := places_pos h
  by_cases hlength : (digits d.mantissa).length ≤ d.places
  · rw [plainNumeral_of_small wholePoint negative h hlength, if_pos hlength, unsignedText_point]
    · simp
    · simp [digits_ne_nil]
  · rw [plainNumeral_of_mixed wholePoint negative h hlength, if_neg hlength, unsignedText_point]
    · simp
    · rw [Ne, List.drop_eq_nil_iff]
      omega

end

theorem withExponent_eq (negative : Bool) (d : Decimal) :
    withExponent d = (scaledNumeral negative d).unsignedText := by
  simp only [withExponent, scaledNumeral]
  cases hds : digits d.mantissa with
  | nil => exact absurd hds (digits_ne_nil _)
  | cons c ds =>
      cases ds <;> simp [Numeral.unsignedText, Numeral.fractionText, Numeral.exponentText]

/-- A decimal is laid out as its numeral. -/
theorem layout_eq (style : Style) (negative : Bool) (d : Decimal) :
    layout style d = (numeral style negative d).unsignedText := by
  simp only [layout, numeral]
  cases style.plainOrders with
  | none => exact allPlaces_eq _ negative
  | some orders =>
      simp only []
      split_ifs
      · exact allPlaces_eq _ negative
      · exact withExponent_eq negative d

theorem negative_numeral (style : Style) (negative : Bool) (d : Decimal) :
    (numeral style negative d).negative = negative := by
  have hplain : ∀ w, (plainNumeral w negative d).negative = negative := by
    intro w
    simp only [plainNumeral]
    split_ifs <;> rfl
  simp only [numeral]
  cases style.plainOrders with
  | none => exact hplain _
  | some orders =>
      simp only []
      split_ifs
      · exact hplain _
      · rfl

/-! ## The numeral is well formed -/

theorem append_ne_zero_cons {n : Nat} (h : 0 < n) (cs cs' : List Char) :
    digits n ++ cs ≠ '0' :: cs' := by
  intro hcs
  cases hds : digits n with
  | nil => exact digits_ne_nil n hds
  | cons d ds =>
      rw [hds] at hcs
      obtain ⟨rfl, -⟩ := List.cons.inj hcs
      exact digits_ne_zero_cons h ds hds

theorem take_ne_zero_cons {n : Nat} (h : 0 < n) (k : Nat) (c : Char) (cs : List Char) :
    (digits n).take k ≠ '0' :: c :: cs := by
  intro hcs
  refine digits_ne_zero_cons h (c :: cs ++ (digits n).drop k) ?_
  calc digits n = (digits n).take k ++ (digits n).drop k := (List.take_append_drop _ _).symm
    _ = '0' :: (c :: cs ++ (digits n).drop k) := by rw [hcs, List.cons_append]

theorem wellFormed_plainNumeral (wholePoint negative : Bool) (d : Decimal) :
    (plainNumeral wholePoint negative d).WellFormed := by
  have hdigits : ∀ c ∈ digits d.mantissa, c.isDigit = true := fun c => isDigit_of_mem_digits
  have hzeros : ∀ n, ∀ c ∈ List.replicate n '0', c.isDigit = true := by
    intro n c hc
    obtain ⟨-, rfl⟩ := List.mem_replicate.mp hc
    decide
  have hexponent : ∀ e ∈ (none : Option (Bool × List Char)),
      e.2 ≠ [] ∧ ∀ c ∈ e.2, c.isDigit = true := fun e he => absurd he (by simp)
  by_cases h : 0 ≤ d.exponent
  · rw [plainNumeral_of_whole wholePoint negative h]
    refine ⟨?_, ?_, ?_, ?_, hexponent⟩
    · intro c hc
      rcases List.mem_append.mp hc with hc | hc
      · exact hdigits c hc
      · split_ifs at hc
        · cases hc
        · exact hzeros _ c hc
    · exact List.append_ne_nil_of_left_ne_nil (digits_ne_nil _) _
    · intro c cs
      simp only [wholeDigits]
      split_ifs with hm
      · rw [hm, List.append_nil, show digits 0 = ['0'] by decide]
        simp
      · exact append_ne_zero_cons (Nat.pos_of_ne_zero hm) _ _
    · exact fun c hc => hzeros 1 c (by cases wholePoint <;> simp_all)
  have hplaces := places_pos h
  by_cases hlength : (digits d.mantissa).length ≤ d.places
  · rw [plainNumeral_of_small wholePoint negative h hlength]
    refine ⟨hzeros 1, by simp, by simp, ?_, hexponent⟩
    intro c hc
    rcases List.mem_append.mp hc with hc | hc
    · exact hzeros _ c hc
    · exact hdigits c hc
  · rw [plainNumeral_of_mixed wholePoint negative h hlength]
    -- zero has no digits on both sides of the point
    have hpos : 0 < d.mantissa := by
      refine Nat.pos_of_ne_zero fun hm => hlength ?_
      rw [hm, show (digits 0).length = 1 by decide]
      omega
    refine ⟨fun c hc => hdigits c (List.mem_of_mem_take hc), ?_,
      take_ne_zero_cons hpos _, fun c hc => hdigits c (List.mem_of_mem_drop hc), hexponent⟩
    rw [Ne, List.take_eq_nil_iff, not_or]
    exact ⟨by omega, digits_ne_nil _⟩

theorem wellFormed_scaledNumeral (negative : Bool) (d : Decimal) :
    (scaledNumeral negative d).WellFormed := by
  have hdigits : ∀ n, ∀ c ∈ digits n, c.isDigit = true := fun n c => isDigit_of_mem_digits
  refine ⟨fun c hc => hdigits _ c (List.mem_of_mem_take hc), ?_, ?_,
    fun c hc => hdigits _ c (List.mem_of_mem_drop hc), ?_⟩
  · simp [scaledNumeral, digits_ne_nil]
  · intro c cs h
    have hlength := congrArg List.length h
    simp only [scaledNumeral, List.length_take, List.length_cons] at hlength
    omega
  · intro e he
    cases he
    exact ⟨digits_ne_nil _, hdigits _⟩

theorem wellFormed_numeral (style : Style) (negative : Bool) (d : Decimal) :
    (numeral style negative d).WellFormed := by
  simp only [numeral]
  cases style.plainOrders with
  | none => exact wellFormed_plainNumeral _ negative d
  | some orders =>
      simp only []
      split_ifs
      · exact wellFormed_plainNumeral _ negative d
      · exact wellFormed_scaledNumeral negative d

/-! ## The numeral has the decimal's value -/

theorem value_eq_of_whole {d : Decimal} (h : 0 ≤ d.exponent) :
    d.value = (valueOfDigits 0 d.wholeDigits : Nat) := by
  obtain ⟨k, hk⟩ := Int.eq_ofNat_of_zero_le h
  rw [wholeDigits, valueOfDigits_append, valueOfDigits_digits, value, hk, zpow_natCast]
  split_ifs with hm
  · simp [hm, valueOfDigits]
  · simp [valueOfDigits_zeros]

theorem value_plainNumeral (wholePoint negative : Bool) (d : Decimal) :
    (plainNumeral wholePoint negative d).magnitude.value = d.value := by
  by_cases h : 0 ≤ d.exponent
  · rw [plainNumeral_of_whole wholePoint negative h, value_eq_of_whole h]
    cases wholePoint with
    | false => simp [Numeral.magnitude, value]
    | true =>
        have hzero : ∀ n, valueOfDigits n ['0'] = n * 10 := fun n => valueOfDigits_zeros n 1
        simp [Numeral.magnitude, value, valueOfDigits_append, hzero]
  obtain ⟨-, hplaces⟩ := places_pos h
  by_cases hlength : (digits d.mantissa).length ≤ d.places
  · rw [plainNumeral_of_small wholePoint negative h hlength]
    have hdigits : valueOfDigits 0 (['0'] ++ (List.replicate
        (d.places - (digits d.mantissa).length) '0' ++ digits d.mantissa)) = d.mantissa := by
      have hzero : valueOfDigits 0 ['0'] = 0 := by decide
      rw [valueOfDigits_append, valueOfDigits_append, hzero, valueOfDigits_zeros, zero_mul,
        valueOfDigits_digits]
    simp only [Numeral.magnitude, value, hdigits, List.length_append, List.length_replicate]
    congr 2
    omega
  · rw [plainNumeral_of_mixed wholePoint negative h hlength]
    simp only [Numeral.magnitude, value, List.take_append_drop, valueOfDigits_digits,
      List.length_drop]
    congr 2
    omega

theorem value_scaledNumeral (negative : Bool) (d : Decimal) :
    (scaledNumeral negative d).magnitude.value = d.value := by
  have hlength := length_digits_pos d.mantissa
  have horder : d.order = d.exponent + (digits d.mantissa).length - 1 := rfl
  simp only [scaledNumeral, Numeral.magnitude, value, List.take_append_drop, valueOfDigits_digits,
    List.length_drop]
  congr 2
  by_cases h : d.order < 0
  · simp only [decide_eq_true h, valueOfDigits_digits]
    omega
  · simp only [decide_eq_false h, valueOfDigits_digits]
    omega

/-- The numeral of a decimal has its value. -/
theorem value_numeral (style : Style) (negative : Bool) (d : Decimal) :
    (numeral style negative d).magnitude.value = d.value := by
  simp only [numeral]
  cases style.plainOrders with
  | none => exact value_plainNumeral _ negative d
  | some orders =>
      simp only []
      split_ifs
      · exact value_plainNumeral _ negative d
      · exact value_scaledNumeral negative d

end Decimal

end RegionNet
