import RegionNet.Config
import RegionNet.Proofs.Recovery

/-!
# Values that are one line

What is written behind the sign of equality on one line of a document is read as the value that it
was written for: the digits of a natural number (`writes_digits`), the places of a floating-point
number (`writes_number`), and a plain text in quotes (`writes_quoted`).
-/

namespace RegionNet.Toml

/-! ## Digits in a row -/

section

variable {isDigit : Char → Bool} {cs ds : List Char}

theorem grouped_eq_some_self (hunderscore : isDigit '_' = false) (hne : ds ≠ [])
    (hds : ∀ c ∈ ds, isDigit c = true) : grouped isDigit ds = some ds := by
  fun_induction grouped isDigit ds with
  | case1 => exact absurd rfl hne
  | case2 c hc => rfl
  | case3 c hc => exact absurd (hds c (List.mem_singleton_self c)) hc
  | case4 c cs hc ih =>
      have hdigit := hds '_' (by simp)
      rw [hunderscore] at hdigit
      cases hdigit
  | case5 c cs hc =>
      exact absurd (hds c List.mem_cons_self) hc
  | case6 c cs hlong hunder hc ih =>
      have hcs : cs ≠ [] := fun h => hlong (h ▸ rfl)
      rw [ih hcs fun d hd => hds d (List.mem_cons_of_mem _ hd)]
      rfl
  | case7 c cs hlong hunder hc => exact absurd (hds c List.mem_cons_self) hc

/-- Nothing but digits and underscores makes a run of digits. -/
theorem grouped_eq_none {c : Char} (hc : c ∈ cs) (hdigit : isDigit c = false)
    (hunderscore : c ≠ '_') : grouped isDigit cs = none := by
  fun_induction grouped isDigit cs with
  | case1 => rfl
  | case2 d hd =>
      obtain rfl := List.mem_singleton.mp hc
      rw [hdigit] at hd
      cases hd
  | case3 => rfl
  | case4 d cs hd ih =>
      have hrest : c ∈ cs := by
        rcases List.mem_cons.mp hc with rfl | hc
        · rw [hdigit] at hd
          cases hd
        · exact (List.mem_cons.mp hc).resolve_left hunderscore
      rw [ih hrest]
      rfl
  | case5 => rfl
  | case6 d cs _ _ hd ih =>
      have hrest : c ∈ cs := by
        rcases List.mem_cons.mp hc with rfl | hc
        · rw [hdigit] at hd
          cases hd
        · exact hc
      rw [ih hrest]
      rfl
  | case7 => rfl

end

/-- Digits that are no number with a needless zero in front. -/
structure Decimals (ds : List Char) : Prop where
  digits : ∀ c ∈ ds, c.isDigit = true
  ne_nil : ds ≠ []
  leading : ∀ c cs, ds ≠ '0' :: c :: cs

theorem decimals_digits (n : Nat) : Decimals (digits n) where
  digits _ := isDigit_of_mem_digits
  ne_nil := digits_ne_nil n
  leading c cs := by
    rcases Nat.eq_zero_or_pos n with rfl | h
    · rw [show digits 0 = ['0'] by decide]
      simp
    · exact digits_ne_zero_cons h (c :: cs)

theorem decimals_whole {n : Json.Numeral} (h : n.WellFormed) : Decimals n.whole :=
  ⟨h.whole, h.ne_nil, h.leading⟩

namespace Decimals

variable {ds cs : List Char}

theorem decimalDigits_eq (h : Decimals ds) : decimalDigits ds = some ds := by
  unfold decimalDigits
  rw [grouped_eq_some_self (by decide) h.ne_nil h.digits]
  split
  · next heq => exact absurd (Option.some.inj heq) (h.leading _ _)
  · rfl

/-- Digits begin with a digit, whatever follows them. -/
theorem exists_cons (h : Decimals ds) (cs : List Char) :
    ∃ c rest, ds ++ cs = c :: rest ∧ c.isDigit = true := by
  cases ds with
  | nil => exact absurd rfl h.ne_nil
  | cons c ds => exact ⟨c, ds ++ cs, rfl, h.digits c List.mem_cons_self⟩

theorem splitSign_append (h : Decimals ds) (cs : List Char) :
    splitSign (ds ++ cs) = (false, ds ++ cs) := by
  obtain ⟨c, rest, hcons, hc⟩ := h.exists_cons cs
  rw [hcons]
  unfold splitSign
  split
  · next heq =>
      obtain ⟨rfl, -⟩ := List.cons.inj heq
      cases hc
  · next heq =>
      obtain ⟨rfl, -⟩ := List.cons.inj heq
      cases hc
  · rfl

end Decimals

theorem inBase_ten {ds : List Char} (hds : ∀ c ∈ ds, c.isDigit = true) :
    inBase 10 ds = (valueOfDigits 0 ds : Nat) := by
  unfold inBase valueOfDigits
  congr 1
  refine List.foldl_ext _ _ _ fun n c hc => ?_
  rw [Json.hexValue, if_pos (hds c hc)]
  rfl

/-! ## Integers -/

/-- Without a letter behind its first zero, a word is an integer if its digits are in order. -/
theorem anyInteger?_eq {cs : List Char} (hcs : ∀ c ∈ cs, c ≠ 'x' ∧ c ≠ 'o' ∧ c ≠ 'b') :
    anyInteger? cs = (decimalDigits (splitSign cs).2).map fun ds =>
      if (splitSign cs).1 then -(inBase 10 ds) else inBase 10 ds := by
  unfold anyInteger?
  split
  · exact absurd rfl (hcs 'x' (by simp)).1
  · exact absurd rfl (hcs 'o' (by simp)).2.1
  · exact absurd rfl (hcs 'b' (by simp)).2.2
  · rfl

theorem ne_base_of_isDigit {c : Char} (h : c.isDigit = true) : c ≠ 'x' ∧ c ≠ 'o' ∧ c ≠ 'b' := by
  refine ⟨?_, ?_, ?_⟩ <;>
  · rintro rfl
    cases h

theorem anyInteger?_digits (n : Nat) : anyInteger? (digits n) = some (n : Int) := by
  have h := decimals_digits n
  have hsign : splitSign (digits n) = (false, digits n) := by
    simpa using h.splitSign_append []
  rw [anyInteger?_eq fun c hc => ne_base_of_isDigit (h.digits c hc), hsign]
  show (decimalDigits (digits n)).map _ = _
  rw [h.decimalDigits_eq, Option.map_some, if_neg (by simp), inBase_ten h.digits,
    valueOfDigits_digits]

/-- A word that begins with a digit or a sign is no truth value. -/
theorem ne_bool {c : Char} {cs : List Char} (h : c ≠ 't' ∧ c ≠ 'f') :
    c :: cs ≠ ['t', 'r', 'u', 'e'] ∧ c :: cs ≠ ['f', 'a', 'l', 's', 'e'] :=
  ⟨fun he => h.1 (List.cons.inj he).1, fun he => h.2 (List.cons.inj he).1⟩

theorem ne_truth_of_isDigit {c : Char} (h : c.isDigit = true) : c ≠ 't' ∧ c ≠ 'f' := by
  refine ⟨?_, ?_⟩ <;>
  · rintro rfl
    cases h

theorem scalarOf_digits {n : Nat} (h : n < 2 ^ 64) :
    scalarOf (digits n) = some (.integer n) := by
  obtain ⟨c, rest, hcons, hc⟩ := (decimals_digits n).exists_cons []
  rw [List.append_nil] at hcons
  have hne : digits n ≠ ['t', 'r', 'u', 'e'] ∧ digits n ≠ ['f', 'a', 'l', 's', 'e'] :=
    hcons ▸ ne_bool (ne_truth_of_isDigit hc)
  have hfits : fits (n : Int) = true := by
    show decide (n < Nat.pow 2 128) = true
    exact decide_eq_true (Nat.lt_trans h (by decide))
  unfold scalarOf
  rw [if_neg hne.1, if_neg hne.2, anyInteger?_digits]
  exact if_pos hfits

/-! ## Floating-point numbers -/

/-- A numeral with places behind the point and without an exponent. -/
structure Pointed (n : Json.Numeral) : Prop where
  wellFormed : n.WellFormed
  fraction : n.fraction ≠ []
  exponent : n.exponent = none

namespace Pointed

variable {n : Json.Numeral} {x : Float}

theorem unsignedText_eq (h : Pointed n) : n.unsignedText = n.whole ++ '.' :: n.fraction := by
  rw [Json.Numeral.unsignedText, Json.Numeral.fractionText_eq h.fraction,
    Json.Numeral.exponentText, h.exponent, List.append_nil]

theorem splitSign_text (h : Pointed n) : splitSign n.text = (n.negative, n.unsignedText) := by
  unfold Json.Numeral.text
  cases n.negative with
  | true => rfl
  | false =>
      rw [h.unsignedText_eq]
      exact (decimals_whole h.wellFormed).splitSign_append _

/-- The characters of a numeral are digits, a point, and a sign. -/
theorem mem_text (h : Pointed n) {c : Char} (hc : c ∈ n.text) :
    c = '-' ∨ c = '.' ∨ c.isDigit = true := by
  rw [Json.Numeral.text, h.unsignedText_eq] at hc
  rcases List.mem_append.mp hc with hc | hc
  · split at hc
    · exact Or.inl (List.mem_singleton.mp hc)
    · cases hc
  · rcases List.mem_append.mp hc with hc | hc
    · exact Or.inr (Or.inr (h.wellFormed.whole c hc))
    · rcases List.mem_cons.mp hc with rfl | hc
      · exact Or.inr (Or.inl rfl)
      · exact Or.inr (Or.inr (h.wellFormed.fraction c hc))

theorem anyInteger?_text (h : Pointed n) : anyInteger? n.text = none := by
  have hpoint : decimalDigits n.unsignedText = none := by
    unfold decimalDigits
    rw [h.unsignedText_eq, grouped_eq_none (c := '.') (by simp) (by decide) (by decide)]
  rw [anyInteger?_eq fun c hc => ?_, h.splitSign_text, hpoint, Option.map_none]
  rcases h.mem_text hc with rfl | rfl | hdigit
  · decide
  · decide
  · exact ne_base_of_isDigit hdigit

theorem fraction?_eq (h : Pointed n) : fraction? ('.' :: n.fraction) = some (n.fraction, none) := by
  have hnone : ∀ c ∈ '.' :: n.fraction, (!(decide (c = 'e') || decide (c = 'E'))) = true := by
    intro c hc
    rcases List.mem_cons.mp hc with rfl | hc
    · decide
    · have hdigit := h.wellFormed.fraction c hc
      simp only [Bool.not_eq_true', Bool.or_eq_false_iff, decide_eq_false_iff_not]
      refine ⟨?_, ?_⟩ <;>
      · rintro rfl
        cases hdigit
  have htake := List.takeWhile_eq_self_iff.mpr hnone
  have hdrop := List.dropWhile_eq_nil_iff.mpr hnone
  unfold fraction?
  simp only [htake, hdrop,
    @grouped_eq_some_self Char.isDigit _ (by decide) h.fraction h.wellFormed.fraction]
  rfl

theorem float?_text (h : Pointed n) : float? n.text = n.toFloat? := by
  have hwhole := decimals_whole h.wellFormed
  have hdigits : ∀ c ∈ n.whole, (c.isDigit || decide (c = '_')) = true := fun c hc => by
    rw [h.wellFormed.whole c hc, Bool.true_or]
  have htake : (n.whole ++ '.' :: n.fraction).takeWhile (fun c => c.isDigit || decide (c = '_')) =
      n.whole := by
    rw [List.takeWhile_append_of_pos hdigits]
    simp
  have hdrop : (n.whole ++ '.' :: n.fraction).dropWhile (fun c => c.isDigit || decide (c = '_')) =
      '.' :: n.fraction := by
    rw [List.dropWhile_append_of_pos hdigits]
    simp
  obtain ⟨c, rest, hcons, hc⟩ := hwhole.exists_cons ('.' :: n.fraction)
  unfold float?
  simp only [h.splitSign_text, h.unsignedText_eq]
  split
  · next heq =>
      rw [hcons] at heq
      obtain ⟨rfl, -⟩ := List.cons.inj heq
      cases hc
  · next heq =>
      rw [hcons] at heq
      obtain ⟨rfl, -⟩ := List.cons.inj heq
      cases hc
  · simp only [htake, hdrop, hwhole.decimalDigits_eq, h.fraction?_eq, Option.bind_eq_bind,
      Option.bind_some]
    rw [← h.exponent]

theorem scalarOf_text (h : Pointed n) (hx : n.toFloat? = some x) :
    scalarOf n.text = some (.float x) := by
  have hne : n.text ≠ ['t', 'r', 'u', 'e'] ∧ n.text ≠ ['f', 'a', 'l', 's', 'e'] := by
    have hnot : ∀ c cs, n.text = c :: cs → c ≠ 't' ∧ c ≠ 'f' := by
      intro c cs htext
      rcases h.mem_text (htext ▸ List.mem_cons_self) with rfl | rfl | hdigit
      · decide
      · decide
      · exact ne_truth_of_isDigit hdigit
    exact ⟨fun he => (hnot _ _ he).1 rfl, fun he => (hnot _ _ he).2 rfl⟩
  unfold scalarOf
  rw [if_neg hne.1, if_neg hne.2, h.anyInteger?_text, h.float?_text, hx]

end Pointed

/-! ## One line -/

/-- A word is read to the end of its line. -/
theorem word_line {text : List Char} (h : ∀ c ∈ text, isWordChar c = true) (rest : List Char) :
    word (text ++ '\n' :: rest) = (scalarOf text).map (·, '\n' :: rest) := by
  have htake : (text ++ '\n' :: rest).takeWhile isWordChar = text := by
    rw [List.takeWhile_append_of_pos h]
    simp [show isWordChar '\n' = false by decide]
  have hdrop : (text ++ '\n' :: rest).dropWhile isWordChar = '\n' :: rest := by
    rw [List.dropWhile_append_of_pos h]
    simp [show isWordChar '\n' = false by decide]
  simp only [word, htake, hdrop]
  split
  · next heq =>
      obtain ⟨hnew, -⟩ := List.cons.inj heq
      cases hnew
  · rfl

theorem value_eq_word {c : Char} {cs : List Char} (hdouble : c ≠ '"') (hsingle : c ≠ '\'')
    (hsquare : c ≠ '[') (hcurly : c ≠ '\x7b') :
    value (c :: cs) = (word (c :: cs)).map fun x => (.scalar x.1, x.2) := by
  unfold value maxDepth valueWithin
  split <;> simp_all

/-- The text is read as the value to the end of its line. -/
structure Writes (text : List Char) (v : Toml) : Prop where
  starts : ∃ c cs, text = c :: cs ∧ isIndent c = false
  reads : ∀ rest, value (text ++ '\n' :: rest) = some (v, '\n' :: rest)

/-- What stands for a scalar is written as a word. -/
theorem writes_word {text : List Char} {s : Scalar} (hne : text ≠ [])
    (hword : ∀ c ∈ text, isWordChar c = true) (hs : scalarOf text = some s) :
    Writes text (.scalar s) := by
  obtain ⟨c, cs, rfl⟩ := List.exists_cons_of_ne_nil hne
  have hc := hword c List.mem_cons_self
  have hnot : ∀ d, isWordChar d = false → c ≠ d := by
    rintro d hd rfl
    rw [hc] at hd
    cases hd
  refine ⟨⟨c, cs, rfl, ?_⟩, fun rest => ?_⟩
  · simp only [isIndent, Bool.or_eq_false_iff, decide_eq_false_iff_not]
    exact ⟨hnot ' ' (by decide), hnot '\t' (by decide)⟩
  · have hline := word_line hword rest
    rw [hs] at hline
    rw [List.cons_append] at hline ⊢
    rw [value_eq_word (hnot _ (by decide)) (hnot _ (by decide)) (hnot _ (by decide))
      (hnot _ (by decide)), hline]
    rfl

theorem isWordChar_of_isDigit {c : Char} (h : c.isDigit = true) : isWordChar c = true := by
  simp [isWordChar, Char.isAlphanum, h]

theorem writes_digits {n : Nat} (h : n < 2 ^ 64) : Writes (digits n) (.scalar (.integer n)) :=
  writes_word (digits_ne_nil n)
    (fun _ hc => isWordChar_of_isDigit (isDigit_of_mem_digits hc)) (scalarOf_digits h)

/-- With all places, and a point in whole numbers, a decimal is a numeral without an exponent. -/
theorem pointed_numeral (negative : Bool) (d : Decimal) :
    Pointed (Decimal.numeral Config.numberStyle negative d) := by
  refine ⟨Decimal.wellFormed_numeral _ _ _, ?_, ?_⟩
  · show (Decimal.plainNumeral true negative d).fraction ≠ []
    by_cases h : 0 ≤ d.exponent
    · rw [Decimal.plainNumeral_of_whole true negative h]
      exact List.cons_ne_nil _ _
    by_cases hlength : (digits d.mantissa).length ≤ d.places
    · rw [Decimal.plainNumeral_of_small true negative h hlength]
      exact List.append_ne_nil_of_right_ne_nil _ (digits_ne_nil _)
    · rw [Decimal.plainNumeral_of_mixed true negative h hlength]
      have hplaces := Decimal.places_pos h
      rw [Ne, List.drop_eq_nil_iff]
      omega
  · show (Decimal.plainNumeral true negative d).exponent = none
    simp only [Decimal.plainNumeral]
    split_ifs <;> rfl

theorem writes_number {x : Float} (hx : x.isFinite = true) :
    Writes (Decimal.write Config.numberStyle x) (.scalar (.float x)) := by
  have hpointed := pointed_numeral (decide (x.toBits >>> 63 ≠ 0)) (Binary.ofFloat x).shortest
  rw [Decimal.write_eq _ hx]
  refine writes_word ?_ (fun c hc => ?_)
    (hpointed.scalarOf_text (Decimal.toFloat?_numeral _ hx))
  · rw [Json.Numeral.text, hpointed.unsignedText_eq]
    simp
  · rcases hpointed.mem_text hc with rfl | rfl | hdigit
    · decide
    · decide
    · exact isWordChar_of_isDigit hdigit

/-! ## Quotes -/

/-- A character that stands for itself in double quotes. -/
def isPlain (c : Char) : Bool := isPrintable c && c ≠ '"' && c ≠ '\\'

theorem basicFor_append {text : List Char} (h : ∀ c ∈ text, isPlain c = true) (rest : List Char)
    (n : Nat) : basicFor (text.length + 1 + n) (text ++ '"' :: rest) = some (text, rest) := by
  induction text with
  | nil =>
      rw [List.length_nil, Nat.zero_add, Nat.add_comm, List.nil_append]
      simp only [basicFor]
  | cons c text ih =>
      obtain ⟨hc, htext⟩ := List.forall_mem_cons.mp h
      simp only [isPlain, Bool.and_eq_true, decide_eq_true_eq] at hc
      obtain ⟨⟨hprint, hquote⟩, hslash⟩ := hc
      have hlength : (c :: text).length + 1 + n = text.length + 1 + n + 1 := by
        rw [List.length_cons]
        omega
      rw [hlength, List.cons_append, basicFor, if_pos hprint, ih htext]
      · rfl
      · exact hquote
      · exact hslash

theorem writes_quoted {text : List Char} (hne : text ≠ []) (h : ∀ c ∈ text, isPlain c = true) :
    Writes ('"' :: text ++ ['"']) (.string (String.ofList text)) := by
  refine ⟨⟨'"', text ++ ['"'], rfl, by decide⟩, fun rest => ?_⟩
  have hbasic : basic (text ++ '"' :: '\n' :: rest) = some (text, '\n' :: rest) := by
    have hlength : (text ++ '"' :: '\n' :: rest).length + 1 =
        text.length + 1 + (rest.length + 2) := by
      rw [List.length_append, List.length_cons, List.length_cons]
      omega
    rw [basic, hlength, basicFor_append h]
  have hquoted : quoted ('"' :: (text ++ '"' :: '\n' :: rest)) = some (text, '\n' :: rest) := by
    obtain ⟨c, text, rfl⟩ := List.exists_cons_of_ne_nil hne
    have hc : c ≠ '"' := by
      have hplain := h c List.mem_cons_self
      simp only [isPlain, Bool.and_eq_true, decide_eq_true_eq] at hplain
      exact hplain.1.2
    rw [List.cons_append] at hbasic ⊢
    unfold quoted
    split <;> simp_all
  have hlist : '"' :: text ++ ['"'] ++ '\n' :: rest = '"' :: (text ++ '"' :: '\n' :: rest) := by
    simp
  rw [hlist]
  show stringValue _ = _
  rw [stringValue, hquoted]
  rfl

end RegionNet.Toml
