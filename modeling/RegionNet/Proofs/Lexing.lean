import Mathlib.Data.List.Forall2
import Mathlib.Data.List.TakeWhile
import RegionNet.Json.Value
import RegionNet.Proofs.Recovery
import RegionNet.Proofs.Tree

/-!
# Tokens of written values

What the text of a value is cut up into: for every JSON value there is a tree (`Json.tree`), and its
text, on one line or over many, has the tokens of this tree (`tokens_compact`, `tokens_document`).
-/

namespace RegionNet.Json

/-- With enough time, cutting up the text gives the tokens and goes on with the rest. -/
def Lexes (cs : List Char) (ts : List Token) (rest : List Char) : Prop :=
  ∀ n, cs.length ≤ n → ∃ n', rest.length ≤ n' ∧ tokensFor n cs = ts ++ tokensFor n' rest

theorem Lexes.refl (cs : List Char) : Lexes cs [] cs := fun n hn => ⟨n, hn, rfl⟩

theorem Lexes.trans {cs cs' rest : List Char} {ts ts' : List Token} (h : Lexes cs ts cs')
    (h' : Lexes cs' ts' rest) : Lexes cs (ts ++ ts') rest := by
  intro n hn
  obtain ⟨n', hn', he⟩ := h n hn
  obtain ⟨n'', hn'', he'⟩ := h' n' hn'
  exact ⟨n'', hn'', by rw [he, he', List.append_assoc]⟩

theorem tokens_of_lexes {cs : List Char} {ts : List Token} (h : Lexes cs ts []) :
    tokens cs = ts := by
  obtain ⟨n, -, he⟩ := h cs.length (Nat.le_refl _)
  have hnil : tokensFor n [] = [] := by cases n <;> rfl
  rw [tokens, he, hnil, List.append_nil]

theorem lexes_space {c : Char} (cs : List Char) (h : isSpace c = true) : Lexes (c :: cs) [] cs := by
  rintro (_ | n) hn
  · cases hn
  · refine ⟨n, Nat.le_of_succ_le_succ hn, ?_⟩
    rw [tokensFor, if_pos h]
    rfl

theorem lexes_token {c : Char} {cs rest : List Char} {t : Token} (hc : isSpace c = false)
    (h : token c cs = (t, rest)) (hlength : rest.length ≤ cs.length) :
    Lexes (c :: cs) [t] rest := by
  rintro (_ | n) hn
  · cases hn
  · refine ⟨n, hlength.trans (Nat.le_of_succ_le_succ hn), ?_⟩
    rw [tokensFor, if_neg (Bool.eq_false_iff.mp hc), h]
    rfl

/-! ## Strings -/

/-- The characters that are written with a letter after a backslash, or stand for themselves. -/
def isPlain (c : Char) : Bool :=
  c ∈ ['\x08', '\x0c', '\n', '\r', '\t'] || decide (0x20 ≤ c.toNat)

/-- What a written character is read as. -/
def piece (c : Char) : Piece := if isPlain c then .char c else .unit c.toNat

theorem text_pieces (cs : List Char) : Piece.text (cs.map piece) = some cs := by
  have hunit : ∀ (c : Char) (ps : List Piece), c.toNat < 0x20 →
      Piece.text (.unit c.toNat :: ps) = (Piece.text ps).map (c :: ·) := by
    intro c ps hc
    have hhigh : Piece.isHighSurrogate c.toNat = false := by
      simp only [Piece.isHighSurrogate, Bool.and_eq_false_iff, decide_eq_false_iff_not]
      omega
    have hlow : Piece.isLowSurrogate c.toNat = false := by
      simp only [Piece.isLowSurrogate, Bool.and_eq_false_iff, decide_eq_false_iff_not]
      omega
    cases ps with
    | nil => simp [Piece.text, hhigh, hlow, Char.ofNat_toNat]
    | cons p ps => cases p <;> simp [Piece.text, hhigh, hlow, Char.ofNat_toNat]
  induction cs with
  | nil => rfl
  | cons c cs ih =>
      rw [List.map_cons, piece]
      split
      · rw [Piece.text, ih, Option.map_some]
      · next h =>
          have hc : c.toNat < 0x20 := by
            simp only [isPlain, Bool.or_eq_true, decide_eq_true_eq, not_or] at h
            omega
          rw [hunit c _ hc, ih, Option.map_some]

theorem scanString_escape (c : Char) (cs : List Char) :
    scanString (escape c ++ cs) = (piece c :: (scanString cs).1, (scanString cs).2) := by
  unfold escape
  split
  case h_8 x h1 h2 h3 h4 h5 h6 h7 =>
    split
    · next hc =>
        have hhex : ∀ d < 16, isHexDigit (hexDigit d) = true ∧ hexValue (hexDigit d) = d := by
          decide
        obtain ⟨hhigh, hhigh'⟩ := hhex (c.toNat / 16) (by omega)
        obtain ⟨hlow, hlow'⟩ := hhex (c.toNat % 16) (by omega)
        have hunit : hexUnit '0' '0' (hexDigit (c.toNat / 16)) (hexDigit (c.toNat % 16)) =
            c.toNat := by
          have hzero : hexValue '0' = 0 := by decide
          rw [hexUnit, hzero, hhigh', hlow']
          omega
        have hplain : isPlain c = false := by
          simp only [isPlain, Bool.or_eq_false_iff, decide_eq_false_iff_not, List.mem_cons,
            List.not_mem_nil, or_false, not_or, not_le]
          exact ⟨⟨h3, h4, h5, h6, h7⟩, hc⟩
        have hdigit : isHexDigit '0' = true := by decide
        simp [scanString, hdigit, hhigh, hlow, hunit, piece, hplain]
    · next hc =>
        have hplain : isPlain c = true := by
          simp only [isPlain, Bool.or_eq_true, decide_eq_true_eq]
          omega
        rw [List.singleton_append, scanString.eq_def]
        split <;> simp_all [piece]
  all_goals simp [scanString, unescape, piece, isPlain]

theorem scanString_quoted (cs rest : List Char) :
    scanString (cs.flatMap escape ++ '"' :: rest) = (cs.map piece, .ok rest) := by
  induction cs with
  | nil => rfl
  | cons c cs ih => rw [List.flatMap_cons, List.append_assoc, scanString_escape, ih, List.map_cons]

theorem lexes_quote (s : String) (rest : List Char) :
    Lexes (quote s ++ rest) [.string (some s.toList)] rest := by
  have hquote : quote s ++ rest = '"' :: (s.toList.flatMap escape ++ '"' :: rest) := by simp [quote]
  rw [hquote]
  refine lexes_token (by decide) ?_ (by rw [List.length_append, List.length_cons]; omega)
  show stringToken _ = _
  rw [stringToken, scanString_quoted]
  simp only [text_pieces]

/-! ## Numbers -/

/-- Nothing at the front of a text could be a part of a number before it. -/
def Ends (cs : List Char) : Prop :=
  ∀ c rest, cs = c :: rest → c.isDigit = false ∧ c ≠ '.' ∧ c ≠ 'e' ∧ c ≠ 'E'

theorem takeWhile_digits {ds cs : List Char} (hds : ∀ c ∈ ds, c.isDigit = true)
    (hcs : ∀ c rest, cs = c :: rest → c.isDigit = false) :
    (ds ++ cs).takeWhile Char.isDigit = ds ∧ (ds ++ cs).dropWhile Char.isDigit = cs := by
  rw [List.takeWhile_append_of_pos hds, List.dropWhile_append_of_pos hds]
  cases cs with
  | nil => simp
  | cons c rest => simp [hcs c rest rfl]

section

variable {n : Numeral} {rest : List Char}

theorem scanTail_exponentText (h : n.WellFormed) (hrest : Ends rest) :
    Numeral.scanTail { n with exponent := none } (n.exponentText ++ rest) = (.number n, rest) := by
  obtain ⟨negative, whole, fraction, exponent⟩ := n
  cases exponent with
  | none =>
      simp only [Numeral.exponentText, List.nil_append]
      unfold Numeral.scanTail
      split
      · exact absurd rfl (hrest _ _ rfl).2.2.1
      · exact absurd rfl (hrest _ _ rfl).2.2.2
      · rfl
  | some e =>
      obtain ⟨sign, ds⟩ := e
      obtain ⟨hne, hds⟩ := h.exponent _ rfl
      obtain ⟨htake, hdrop⟩ := takeWhile_digits hds fun c cs hc => (hrest c cs hc).1
      have hexponent : ∀ s : Bool,
          Numeral.scanExponent ⟨negative, whole, fraction, none⟩
              ((if s then '-' else '+') :: (ds ++ rest)) =
            (.number ⟨negative, whole, fraction, some (s, ds)⟩, rest) := by
        intro s
        cases ds with
        | nil => exact absurd rfl hne
        | cons d ds =>
            cases s <;>
              simp only [Numeral.scanExponent, Bool.false_eq_true, if_true, if_false, htake, hdrop]
      exact hexponent sign

theorem ends_exponentText (n : Numeral) (hrest : Ends rest) :
    ∀ c cs, n.exponentText ++ rest = c :: cs → c.isDigit = false ∧ c ≠ '.' := by
  intro c cs h
  unfold Numeral.exponentText at h
  split at h
  · exact ⟨(hrest c cs h).1, (hrest c cs h).2.1⟩
  · cases h
    decide

theorem scan_append {n : Numeral} {cs : List Char} (h : n.WellFormed)
    (hcs : ∀ c cs', cs = c :: cs' → c.isDigit = false ∧ c ≠ '.') :
    Numeral.scan n.negative (n.whole ++ cs) =
      Numeral.scanTail ⟨n.negative, n.whole, [], none⟩ cs := by
  obtain ⟨htake, hdrop⟩ := takeWhile_digits h.whole fun c cs' hc => (hcs c cs' hc).1
  unfold Numeral.scan
  rw [htake, hdrop]
  split
  · next hnil => exact absurd hnil h.ne_nil
  · next hzero => exact absurd hzero (h.leading _ _)
  · split
    · next cs' => exact absurd rfl (hcs '.' cs' rfl).2
    · rfl

theorem scan_append_point {n : Numeral} {cs : List Char} (h : n.WellFormed) (hne : n.fraction ≠ [])
    (hcs : ∀ c cs', cs = c :: cs' → c.isDigit = false) :
    Numeral.scan n.negative (n.whole ++ '.' :: (n.fraction ++ cs)) =
      Numeral.scanTail ⟨n.negative, n.whole, n.fraction, none⟩ cs := by
  have hpoint : ∀ c cs', '.' :: (n.fraction ++ cs) = c :: cs' → c.isDigit = false := by
    intro c cs' hc
    cases hc
    decide
  obtain ⟨htake, hdrop⟩ := takeWhile_digits h.whole hpoint
  obtain ⟨htake', hdrop'⟩ := takeWhile_digits h.fraction hcs
  unfold Numeral.scan
  rw [htake, hdrop]
  split
  · next hnil => exact absurd hnil h.ne_nil
  · next hzero => exact absurd hzero (h.leading _ _)
  · simp only [htake', hdrop']

theorem scan_unsignedText (h : n.WellFormed) (hrest : Ends rest) :
    Numeral.scan n.negative (n.unsignedText ++ rest) = (.number n, rest) := by
  have htail := ends_exponentText n hrest
  rw [← scanTail_exponentText h hrest]
  by_cases hfraction : n.fraction = []
  · have htext : n.unsignedText ++ rest = n.whole ++ (n.exponentText ++ rest) := by
      simp [Numeral.unsignedText, Numeral.fractionText, hfraction]
    rw [htext, scan_append h htail, ← hfraction]
  · have htext : n.unsignedText ++ rest =
        n.whole ++ '.' :: (n.fraction ++ (n.exponentText ++ rest)) := by
      rw [Numeral.unsignedText, Numeral.fractionText_eq hfraction]
      simp
    rw [htext, scan_append_point h hfraction fun c cs hc => (htail c cs hc).1]

theorem token_of_isDigit {c : Char} (cs : List Char) (h : c.isDigit = true) :
    token c cs = Numeral.scan false (c :: cs) := by
  unfold token
  split
  case h_12 => exact if_pos h
  all_goals exact absurd h (by decide)

theorem isSpace_of_isDigit {c : Char} (h : c.isDigit = true) : isSpace c = false := by
  refine Bool.eq_false_iff.mpr fun hspace => ?_
  simp only [isSpace, Bool.or_eq_true, decide_eq_true_eq] at hspace
  obtain ((rfl | rfl) | rfl) | rfl := hspace <;> exact absurd h (by decide)

/-- A numeral that is well formed is read as it is written. -/
theorem lexes_numeral (h : n.WellFormed) (hrest : Ends rest) :
    Lexes (n.text ++ rest) [.number n] rest := by
  have hscan := scan_unsignedText h hrest
  cases hnegative : n.negative with
  | true =>
      have htext : n.text ++ rest = '-' :: (n.unsignedText ++ rest) := by
        simp [Numeral.text, hnegative]
      rw [hnegative] at hscan
      rw [htext]
      exact lexes_token (by decide) hscan (by simp)
  | false =>
      have htext : n.text ++ rest = n.unsignedText ++ rest := by simp [Numeral.text, hnegative]
      rw [hnegative] at hscan
      rw [htext]
      cases hwhole : n.whole with
      | nil => exact absurd hwhole h.ne_nil
      | cons c cs =>
          have hdigit : c.isDigit = true := h.whole c (by simp [hwhole])
          have hcons : n.unsignedText ++ rest =
              c :: (cs ++ (n.fractionText ++ n.exponentText) ++ rest) := by
            simp [Numeral.unsignedText, hwhole]
          rw [hcons] at hscan ⊢
          exact lexes_token (isSpace_of_isDigit hdigit)
            ((token_of_isDigit _ hdigit).trans hscan) (by simp only [List.length_append]; omega)

end

/-- The numeral as which a finite number is written. -/
def numeralOf (x : Float) : Numeral :=
  Decimal.numeral numberStyle (decide (x.toBits >>> 63 ≠ 0)) (Binary.ofFloat x).shortest

theorem writeNumber_eq {x : Float} (h : x.isFinite = true) :
    writeNumber x = (numeralOf x).text :=
  (if_pos h).trans (Decimal.write_eq numberStyle h)

/-! ## Values -/

mutual

/-- The tree as which a value is written. A number that is not finite is left out. -/
def tree (v : Json) : Tree :=
  match v with
  | null => .null
  | bool b => .bool b
  | nat n => .number ⟨false, digits n, [], none⟩
  | number x => if x.isFinite then .number (numeralOf x) else .null
  | string s => .string (some s.toList)
  | array items => .array (trees items)
  | object members => .object (memberTrees members)
termination_by structural v

def trees (items : List Json) : List Tree :=
  match items with
  | [] => []
  | v :: vs => v.tree :: trees vs
termination_by structural items

def memberTrees (members : List (String × Json)) : List (Option (List Char) × Tree) :=
  match members with
  | [] => []
  | (key, v) :: ms => (some key.toList, v.tree) :: memberTrees ms
termination_by structural members

end

theorem trees_eq (items : List Json) : trees items = items.map tree := by
  induction items with
  | nil => rfl
  | cons v vs ih => rw [trees, ih, List.map_cons]

theorem memberTrees_eq (members : List (String × Json)) :
    memberTrees members = members.map fun m => (some m.1.toList, m.2.tree) := by
  induction members with
  | nil => rfl
  | cons m ms ih => rw [memberTrees, ih, List.map_cons]

/-- A property of all values holds if it passes from the parts of a value to the value. -/
theorem ind {motive : Json → Prop} (null : motive .null) (bool : ∀ b, motive (.bool b))
    (nat : ∀ n, motive (.nat n)) (number : ∀ x, motive (.number x))
    (string : ∀ s, motive (.string s))
    (array : ∀ items, (∀ v ∈ items, motive v) → motive (.array items))
    (object : ∀ members, (∀ m ∈ members, motive m.2) → motive (.object members))
    (v : Json) : motive v :=
  Json.rec (motive_1 := motive) (motive_2 := fun vs => ∀ v ∈ vs, motive v)
    (motive_3 := fun ms => ∀ m ∈ ms, motive m.2) (motive_4 := fun m => motive m.2)
    null bool nat number string array object
    (fun _ h => absurd h List.not_mem_nil)
    (fun _ _ hv hvs => List.forall_mem_cons.mpr ⟨hv, hvs⟩)
    (fun _ h => absurd h List.not_mem_nil)
    (fun _ _ hm hms => List.forall_mem_cons.mpr ⟨hm, hms⟩)
    (fun _ _ hv => hv)
    v

/-- The text is cut up into the tokens, whatever follows it that is no part of a number. -/
def LexesAs (text : List Char) (ts : List Token) : Prop :=
  ∀ rest, Ends rest → Lexes (text ++ rest) ts rest

theorem lexesAs_leaf (v : Json) (harray : ∀ items, v ≠ .array items)
    (hobject : ∀ members, v ≠ .object members) : LexesAs (writeLeaf v) v.tree.tokens := by
  intro rest hrest
  have hnull : Lexes ('n' :: 'u' :: 'l' :: 'l' :: rest) [.null] rest :=
    lexes_token (by decide) (by simp [token, wordToken]) (by simp only [List.length_cons]; omega)
  cases v with
  | null => exact hnull
  | bool b =>
      cases b with
      | true =>
          show Lexes ('t' :: 'r' :: 'u' :: 'e' :: rest) [.bool true] rest
          exact lexes_token (by decide) (by simp [token, wordToken])
            (by simp only [List.length_cons]; omega)
      | false =>
          show Lexes ('f' :: 'a' :: 'l' :: 's' :: 'e' :: rest) [.bool false] rest
          exact lexes_token (by decide) (by simp [token, wordToken])
            (by simp only [List.length_cons]; omega)
  | nat n =>
      have htext : Numeral.text ⟨false, digits n, [], none⟩ = digits n := by
        simp [Numeral.text, Numeral.unsignedText, Numeral.fractionText, Numeral.exponentText]
      have h : Numeral.WellFormed ⟨false, digits n, [], none⟩ := by
        refine ⟨fun c hc => isDigit_of_mem_digits hc, digits_ne_nil n, ?_, by simp, by simp⟩
        rcases Nat.eq_zero_or_pos n with rfl | hpos
        · simp [show digits 0 = ['0'] by decide]
        · exact fun c cs => digits_ne_zero_cons hpos _
      have hlex := lexes_numeral h hrest
      rwa [htext] at hlex
  | number x =>
      by_cases h : x.isFinite = true
      · simp only [writeLeaf, tree, if_pos h, writeNumber_eq h]
        exact lexes_numeral (Decimal.wellFormed_numeral _ _ _) hrest
      · simp only [writeLeaf, tree, if_neg h, writeNumber]
        exact hnull
  | string s => exact lexes_quote s rest
  | array items => exact absurd rfl (harray items)
  | object members => exact absurd rfl (hobject members)

/-! ## Brackets -/

theorem lexes_spaces {gap : List Char} (hgap : ∀ c ∈ gap, isSpace c = true) (cs : List Char) :
    Lexes (gap ++ cs) [] cs := by
  induction gap with
  | nil => exact Lexes.refl cs
  | cons c gap ih =>
      obtain ⟨hc, hgap⟩ := List.forall_mem_cons.mp hgap
      exact (lexes_space _ hc).trans (ih hgap)

/-- Lists of tokens one after the other, each but the first after a comma. -/
def joined (first : Bool) : List (List Token) → List Token
  | [] => []
  | ts :: tss => (if first then [] else [.comma]) ++ (ts ++ joined false tss)

theorem elementTokens_eq (first : Bool) (items : List Tree) :
    Tree.elementTokens first items = joined first (items.map Tree.tokens) := by
  induction items generalizing first with
  | nil => rfl
  | cons t ts ih => rw [Tree.elementTokens, ih, List.map_cons, joined]

theorem memberTokens_eq (first : Bool) (members : List (Option (List Char) × Tree)) :
    Tree.memberTokens first members =
      joined first (members.map fun m => .string m.1 :: .colon :: m.2.tokens) := by
  induction members generalizing first with
  | nil => rfl
  | cons m ms ih =>
      rw [Tree.memberTokens, ih, List.map_cons, joined]
      simp

section

variable {gap : List Char} {texts : List (List Char)} {tss : List (List Token)}

theorem separated_cons (separator text : List Char) (texts : List (List Char)) :
    separated separator (text :: texts) = text ++ texts.flatMap (separator ++ ·) := by
  induction texts generalizing text with
  | nil => simp [separated]
  | cons text' texts ih => simp [separated, ih]

theorem ends_of_not_digit {c : Char} {cs : List Char}
    (h : c.isDigit = false ∧ c ≠ '.' ∧ c ≠ 'e' ∧ c ≠ 'E') : Ends (c :: cs) := by
  intro c' cs' heq
  cases heq
  exact h

/-- Texts that each follow a comma. -/
theorem lexesAs_after_comma (hgap : ∀ c ∈ gap, isSpace c = true)
    (h : List.Forall₂ LexesAs texts tss) :
    LexesAs (texts.flatMap (',' :: gap ++ ·)) (joined false tss) := by
  induction h with
  | nil => exact fun rest _ => Lexes.refl rest
  | @cons text ts texts tss hhead _ ih =>
      intro rest hrest
      have hnext : Ends (texts.flatMap (',' :: gap ++ ·) ++ rest) := by
        cases texts with
        | nil => exact hrest
        | cons _ _ => exact ends_of_not_digit (by decide)
      have hcomma : ∀ cs, Lexes (',' :: cs) [.comma] cs := fun cs =>
        lexes_token (by decide) rfl (Nat.le_refl _)
      have hall := (hcomma _).trans
        ((lexes_spaces hgap _).trans ((hhead _ hnext).trans (ih rest hrest)))
      simpa [joined] using hall

theorem lexesAs_separated (hgap : ∀ c ∈ gap, isSpace c = true)
    (h : List.Forall₂ LexesAs texts tss) :
    LexesAs (separated (',' :: gap) texts) (joined true tss) := by
  cases h with
  | nil => exact fun rest _ => Lexes.refl rest
  | @cons text ts texts tss hhead htail =>
      intro rest hrest
      have hnext : Ends (texts.flatMap (',' :: gap ++ ·) ++ rest) := by
        cases texts with
        | nil => exact hrest
        | cons _ _ => exact ends_of_not_digit (by decide)
      have hall := (hhead _ hnext).trans (lexesAs_after_comma hgap htail rest hrest)
      rw [separated_cons, List.append_assoc]
      exact hall

/-- Two brackets, each with its token. -/
structure Brackets (first last : Char) (t t' : Token) : Prop where
  opens : ∀ cs, Lexes (first :: cs) [t] cs
  closes : ∀ cs, Lexes (last :: cs) [t'] cs
  ends : ∀ cs, Ends (last :: cs)

theorem Brackets.square : Brackets '[' ']' .openBracket .closeBracket :=
  ⟨fun _ => lexes_token (by decide) rfl (Nat.le_refl _),
    fun _ => lexes_token (by decide) rfl (Nat.le_refl _), fun _ => ends_of_not_digit (by decide)⟩

theorem Brackets.curly : Brackets '{' '}' .openBrace .closeBrace :=
  ⟨fun _ => lexes_token (by decide) rfl (Nat.le_refl _),
    fun _ => lexes_token (by decide) rfl (Nat.le_refl _), fun _ => ends_of_not_digit (by decide)⟩

theorem ends_of_isSpace {c : Char} (cs : List Char) (h : isSpace c = true) : Ends (c :: cs) := by
  simp only [isSpace, Bool.or_eq_true, decide_eq_true_eq] at h
  obtain ((rfl | rfl) | rfl) | rfl := h <;> exact ends_of_not_digit (by decide)

variable {first last : Char} {t t' : Token}

/-- Brackets around separated texts. -/
theorem lexesAs_enclosed {gap' : List Char} (hbrackets : Brackets first last t t')
    (hgap : ∀ c ∈ gap, isSpace c = true) (hgap' : ∀ c ∈ gap', isSpace c = true)
    (h : List.Forall₂ LexesAs texts tss) :
    LexesAs (first :: gap ++ separated (',' :: gap) texts ++ gap' ++ [last])
      (t :: (joined true tss ++ [t'])) := by
  intro rest hrest
  have hends : Ends (gap' ++ last :: rest) := by
    cases gap' with
    | nil => exact hbrackets.ends rest
    | cons c gap' => exact ends_of_isSpace _ (hgap' c List.mem_cons_self)
  have hall := (hbrackets.opens _).trans ((lexes_spaces hgap _).trans
    ((lexesAs_separated hgap h _ hends).trans
      ((lexes_spaces hgap' _).trans (hbrackets.closes rest))))
  simpa using hall

theorem isSpace_of_mem_newLine {indent : Nat} {c : Char} (h : c ∈ newLine indent) :
    isSpace c = true := by
  rcases List.mem_cons.mp h with rfl | h
  · decide
  · obtain ⟨-, rfl⟩ := List.mem_replicate.mp h
    decide

theorem lexesAs_bracketed (hbrackets : Brackets first last t t') (indent : Nat)
    (h : List.Forall₂ LexesAs texts tss) :
    LexesAs (bracketed first last indent texts) (t :: (joined true tss ++ [t'])) := by
  have hnone : ∀ c ∈ ([] : List Char), isSpace c = true := fun c hc => absurd hc List.not_mem_nil
  cases h with
  | nil => exact lexesAs_enclosed hbrackets hnone hnone .nil
  | cons hhead htail =>
      exact lexesAs_enclosed hbrackets (fun _ => isSpace_of_mem_newLine)
        (fun _ => isSpace_of_mem_newLine) (.cons hhead htail)

end

/-- The text of a member of an object. -/
theorem lexesAs_member (key : String) {gap text : List Char} {ts : List Token}
    (hgap : ∀ c ∈ gap, isSpace c = true) (h : LexesAs text ts) :
    LexesAs (quote key ++ ':' :: (gap ++ text)) (.string (some key.toList) :: .colon :: ts) := by
  intro rest hrest
  have hcolon : Lexes (':' :: (gap ++ (text ++ rest))) [.colon] (gap ++ (text ++ rest)) :=
    lexes_token (by decide) rfl (Nat.le_refl _)
  have hall := (lexes_quote key _).trans
    (hcolon.trans ((lexes_spaces hgap _).trans (h rest hrest)))
  simpa using hall

/-! ## Whole values -/

theorem compactItems_eq (items : List Json) : compactItems items = items.map compact := by
  induction items with
  | nil => rfl
  | cons v vs ih => rw [compactItems, ih, List.map_cons]

theorem compactMembers_eq (members : List (String × Json)) :
    compactMembers members = members.map fun m => quote m.1 ++ ':' :: compact m.2 := by
  induction members with
  | nil => rfl
  | cons m ms ih => rw [compactMembers, ih, List.map_cons]

theorem indentedItems_eq (indent : Nat) (items : List Json) :
    indentedItems indent items = items.map (indented indent) := by
  induction items with
  | nil => rfl
  | cons v vs ih => rw [indentedItems, ih, List.map_cons]

theorem indentedMembers_eq (indent : Nat) (members : List (String × Json)) :
    indentedMembers indent members =
      members.map fun m => quote m.1 ++ ':' :: ' ' :: indented indent m.2 := by
  induction members with
  | nil => rfl
  | cons m ms ih => rw [indentedMembers, ih, List.map_cons]

theorem tokens_array (items : List Json) : (array items).tree.tokens =
    .openBracket :: (joined true (items.map fun v => v.tree.tokens) ++ [.closeBracket]) := by
  rw [tree, Tree.tokens, elementTokens_eq, trees_eq, List.map_map]
  rfl

theorem tokens_object (members : List (String × Json)) : (object members).tree.tokens =
    .openBrace :: (joined true (members.map fun m =>
      .string (some m.1.toList) :: .colon :: m.2.tree.tokens) ++ [.closeBrace]) := by
  rw [tree, Tree.tokens, memberTokens_eq, memberTrees_eq, List.map_map]
  rfl

theorem forall₂_lexesAs {β : Type} {xs : List β} {text : β → List Char} {ts : β → List Token}
    (h : ∀ x ∈ xs, LexesAs (text x) (ts x)) : List.Forall₂ LexesAs (xs.map text) (xs.map ts) := by
  rw [List.forall₂_map_left_iff, List.forall₂_map_right_iff, List.forall₂_same]
  exact h

theorem lexesAs_compact (v : Json) : LexesAs (compact v) v.tree.tokens := by
  have hnone : ∀ c ∈ ([] : List Char), isSpace c = true := fun c hc => absurd hc List.not_mem_nil
  induction v using ind with
  | null => exact lexesAs_leaf .null nofun nofun
  | bool b => exact lexesAs_leaf (.bool b) nofun nofun
  | nat n => exact lexesAs_leaf (.nat n) nofun nofun
  | number x => exact lexesAs_leaf (.number x) nofun nofun
  | string s => exact lexesAs_leaf (.string s) nofun nofun
  | array items ih =>
      rw [compact, compactItems_eq, tokens_array]
      have h := lexesAs_enclosed .square hnone hnone (forall₂_lexesAs ih)
      simpa using h
  | object members ih =>
      rw [compact, compactMembers_eq, tokens_object]
      have h := lexesAs_enclosed .curly hnone hnone
        (forall₂_lexesAs fun m hm => lexesAs_member m.1 hnone (ih m hm))
      simpa using h

theorem lexesAs_indented (v : Json) : ∀ indent, LexesAs (indented indent v) v.tree.tokens := by
  have hspace : ∀ c ∈ [' '], isSpace c = true := List.forall_mem_singleton.mpr (by decide)
  induction v using ind with
  | null => exact fun _ => lexesAs_leaf .null nofun nofun
  | bool b => exact fun _ => lexesAs_leaf (.bool b) nofun nofun
  | nat n => exact fun _ => lexesAs_leaf (.nat n) nofun nofun
  | number x => exact fun _ => lexesAs_leaf (.number x) nofun nofun
  | string s => exact fun _ => lexesAs_leaf (.string s) nofun nofun
  | array items ih =>
      intro indent
      rw [indented, indentedItems_eq, tokens_array]
      exact lexesAs_bracketed .square indent (forall₂_lexesAs fun v hv => ih v hv (indent + 1))
  | object members ih =>
      intro indent
      rw [indented, indentedMembers_eq, tokens_object]
      exact lexesAs_bracketed .curly indent
        (forall₂_lexesAs fun m hm => lexesAs_member m.1 hspace (ih m hm (indent + 1)))

/-- The text on one line has the tokens of the value. -/
theorem tokens_compact (v : Json) : tokens (compact v) = v.tree.tokens := by
  have h := lexesAs_compact v [] nofun
  rw [List.append_nil] at h
  exact tokens_of_lexes h

/-- The text over many lines has the tokens of the value. -/
theorem tokens_document (v : Json) : tokens v.document.toList = v.tree.tokens := by
  have hspace : isSpace '\n' = true := by decide
  have hall := (lexesAs_indented v 0 ['\n'] (ends_of_isSpace [] hspace)).trans
    (lexes_space [] hspace)
  rw [List.append_nil] at hall
  rw [document, String.toList_ofList]
  exact tokens_of_lexes hall

end RegionNet.Json
