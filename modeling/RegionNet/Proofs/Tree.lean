import Mathlib
import RegionNet.Json.Reader

/-!
# Written values

A JSON value as it is written: the tree of its brackets, with numerals and strings at the leaves. A
tree and its tokens tell the same (`Tree.tokens_inj`), and what is passed over as a value of any
form are the tokens of a tree (`pass_eq_ok_iff`).
-/

namespace RegionNet.Json

/-- A value as it is written. A string has no text if surrogates in it have no partners. -/
inductive Tree where
  | null
  | bool (b : Bool)
  | number (n : Numeral)
  | string (text : Option (List Char))
  | array (items : List Tree)
  | object (members : List (Option (List Char) × Tree))

namespace Tree

mutual

def tokens (t : Tree) : List Token :=
  match t with
  | null => [.null]
  | bool b => [.bool b]
  | number n => [.number n]
  | string text => [.string text]
  | array items => .openBracket :: (elementTokens true items ++ [.closeBracket])
  | object members => .openBrace :: (memberTokens true members ++ [.closeBrace])
termination_by structural t

/-- The tokens of the elements of an array, from the first one on or after a comma. -/
def elementTokens (first : Bool) (items : List Tree) : List Token :=
  match items with
  | [] => []
  | t :: ts => (if first then [] else [.comma]) ++ (t.tokens ++ elementTokens false ts)
termination_by structural items

/-- The tokens of the members of an object, from the first one on or after a comma. -/
def memberTokens (first : Bool) (members : List (Option (List Char) × Tree)) : List Token :=
  match members with
  | [] => []
  | (key, t) :: ms =>
    (if first then [] else [.comma]) ++ .string key :: .colon :: (t.tokens ++ memberTokens false ms)
termination_by structural members

end

/-- A property of all trees holds if it passes from the parts of a tree to the tree. -/
theorem ind {motive : Tree → Prop} (null : motive .null) (bool : ∀ b, motive (.bool b))
    (number : ∀ n, motive (.number n)) (string : ∀ text, motive (.string text))
    (array : ∀ items, (∀ t ∈ items, motive t) → motive (.array items))
    (object : ∀ members, (∀ m ∈ members, motive m.2) → motive (.object members))
    (t : Tree) : motive t :=
  Tree.rec (motive_1 := motive) (motive_2 := fun ts => ∀ t ∈ ts, motive t)
    (motive_3 := fun ms => ∀ m ∈ ms, motive m.2) (motive_4 := fun m => motive m.2)
    null bool number string array object
    (fun _ h => absurd h List.not_mem_nil)
    (fun _ _ ht hts => List.forall_mem_cons.mpr ⟨ht, hts⟩)
    (fun _ h => absurd h List.not_mem_nil)
    (fun _ _ hm hms => List.forall_mem_cons.mpr ⟨hm, hms⟩)
    (fun _ _ ht => ht)
    t

end Tree

/-- The tokens with which a value begins. -/
def Token.begins : Token → Bool
  | .null | .bool _ | .number _ | .string _ | .openBracket | .openBrace => true
  | _ => false

namespace Tree

theorem exists_head (t : Tree) : ∃ tok ts, t.tokens = tok :: ts ∧ tok.begins = true := by
  cases t <;> exact ⟨_, _, rfl, rfl⟩

/-- After the tokens of a value, where the next element or the end of an array follows, the elements
of a list are told from their tokens. -/
theorem elementTokens_inj {items : List Tree}
    (ih : ∀ t ∈ items, ∀ t' rest rest', t.tokens ++ rest = t'.tokens ++ rest' →
      t = t' ∧ rest = rest') :
    ∀ {first : Bool} {items' : List Tree} {rest rest' : List Token},
      elementTokens first items ++ .closeBracket :: rest =
        elementTokens first items' ++ .closeBracket :: rest' → items = items' ∧ rest = rest' := by
  have hend : ∀ {first : Bool} {t : Tree} {ts : List Tree} {rest rest' : List Token},
      Token.closeBracket :: rest ≠ elementTokens first (t :: ts) ++ .closeBracket :: rest' := by
    intro first t ts rest rest' h
    obtain ⟨tok, us, ht, hbegins⟩ := t.exists_head
    cases first <;> simp only [elementTokens, ht] at h
    · cases h
    · cases h
      cases hbegins
  induction items with
  | nil =>
      intro first items' rest rest' h
      cases items' with
      | nil => exact ⟨rfl, by simpa [elementTokens] using h⟩
      | cons t ts => exact absurd h hend
  | cons t ts ihs =>
      intro first items' rest rest' h
      obtain ⟨ht, hts⟩ := List.forall_mem_cons.mp ih
      cases items' with
      | nil => exact absurd h.symm hend
      | cons t' ts' =>
          simp only [elementTokens, List.append_assoc, List.append_cancel_left_eq] at h
          obtain ⟨rfl, hrest⟩ := ht _ _ _ h
          obtain ⟨rfl, rfl⟩ := ihs hts hrest
          exact ⟨rfl, rfl⟩

theorem memberTokens_inj {members : List (Option (List Char) × Tree)}
    (ih : ∀ m ∈ members, ∀ t' rest rest', m.2.tokens ++ rest = t'.tokens ++ rest' →
      m.2 = t' ∧ rest = rest') :
    ∀ {first : Bool} {members' : List (Option (List Char) × Tree)} {rest rest' : List Token},
      memberTokens first members ++ .closeBrace :: rest =
        memberTokens first members' ++ .closeBrace :: rest' →
          members = members' ∧ rest = rest' := by
  have hend : ∀ {first : Bool} {m : Option (List Char) × Tree}
      {ms : List (Option (List Char) × Tree)} {rest rest' : List Token},
      Token.closeBrace :: rest ≠ memberTokens first (m :: ms) ++ .closeBrace :: rest' := by
    intro first m ms rest rest' h
    cases first <;> cases h
  induction members with
  | nil =>
      intro first members' rest rest' h
      cases members' with
      | nil => exact ⟨rfl, by simpa [memberTokens] using h⟩
      | cons m ms => exact absurd h hend
  | cons m ms ihs =>
      intro first members' rest rest' h
      obtain ⟨hm, hms⟩ := List.forall_mem_cons.mp ih
      obtain ⟨key, t⟩ := m
      cases members' with
      | nil => exact absurd h.symm hend
      | cons m' ms' =>
          obtain ⟨key', t'⟩ := m'
          simp only [memberTokens, List.append_assoc, List.append_cancel_left_eq, List.cons_append,
            List.cons.injEq, Token.string.injEq, true_and] at h
          obtain ⟨rfl, h⟩ := h
          obtain ⟨rfl, hrest⟩ := hm _ _ _ h
          obtain ⟨rfl, rfl⟩ := ihs hms hrest
          exact ⟨rfl, rfl⟩

/-- A tree is told from its tokens, whatever follows them. -/
theorem tokens_inj (t : Tree) : ∀ t' rest rest', t.tokens ++ rest = t'.tokens ++ rest' →
    t = t' ∧ rest = rest' := by
  induction t using Tree.ind with
  | array items ih =>
      intro t' rest rest' h
      cases t' <;> simp only [tokens, List.cons_append, List.nil_append, List.append_assoc,
        List.cons.injEq, reduceCtorEq, false_and, true_and] at h
      obtain ⟨rfl, rfl⟩ := elementTokens_inj ih h
      exact ⟨rfl, rfl⟩
  | object members ih =>
      intro t' rest rest' h
      cases t' <;> simp only [tokens, List.cons_append, List.nil_append, List.append_assoc,
        List.cons.injEq, reduceCtorEq, false_and, true_and] at h
      obtain ⟨rfl, rfl⟩ := memberTokens_inj ih h
      exact ⟨rfl, rfl⟩
  | _ =>
      intro t' rest rest' h
      cases t' <;> simp_all [tokens]

/-! ## Values that are passed over -/

/-- Every part of the value is looked at with some care, inside the given brackets, and passes. -/
inductive Passes (care : Care) : List Bracket → Tree → Prop where
  | null {stack} : Passes care stack .null
  | bool {stack b} : Passes care stack (.bool b)
  | number {stack n} : care.problem (.number n) = none → Passes care stack (.number n)
  | string {stack text} : care.problem (.string text) = none → Passes care stack (.string text)
  | array {stack items} : care.allows stack = true →
      (∀ t ∈ items, Passes care (.square :: stack) t) → Passes care stack (.array items)
  | object {stack members} : care.allows stack = true →
      (∀ m ∈ members, care.problem (.string m.1) = none) →
      (∀ m ∈ members, Passes care (.curly :: stack) m.2) → Passes care stack (.object members)

/-- Nothing is too bad to be skipped. -/
theorem passes_skipping (t : Tree) : ∀ stack, Passes .skipping stack t := by
  induction t using Tree.ind with
  | null => exact fun _ => .null
  | bool b => exact fun _ => .bool
  | number n => exact fun _ => .number rfl
  | string text => exact fun _ => .string rfl
  | array items ih => exact fun stack => .array rfl fun t ht => ih t ht _
  | object members ih =>
      exact fun stack => .object rfl (fun _ _ => rfl) fun m hm => ih m hm _

end Tree

open RegionNet.Json.Tree

variable {care : Care} {stack : List Bracket} {ts rest : List Token}

/-- What is left to pass over after a value: nothing, or the rest of its surroundings. -/
def after (care : Care) (stack : List Bracket) (ts : List Token) : Except Problem (List Token) :=
  if stack.isEmpty then .ok ts else pass care .commaOrClose stack ts

theorem after_cons {b : Bracket} : after care (b :: stack) ts =
    pass care .commaOrClose (b :: stack) ts := rfl

theorem pass_comma_square : pass care .commaOrClose (.square :: stack) (.comma :: ts) =
    pass care .value (.square :: stack) ts := rfl

theorem pass_comma_curly : pass care .commaOrClose (.curly :: stack) (.comma :: ts) =
    pass care .key (.curly :: stack) ts := rfl

theorem pass_openBracket (h : care.allows stack = true) :
    pass care .value stack (.openBracket :: ts) = pass care .valueOrClose (.square :: stack) ts :=
  if_pos h

theorem pass_openBrace (h : care.allows stack = true) :
    pass care .value stack (.openBrace :: ts) = pass care .keyOrClose (.curly :: stack) ts :=
  if_pos h

theorem pass_valueOrClose {tok : Token} (h : tok.begins = true) :
    pass care .valueOrClose (.square :: stack) (tok :: ts) =
      pass care .value (.square :: stack) (tok :: ts) := by
  cases tok <;> first | rfl | cases h

theorem pass_number {n : Numeral} : pass care .value stack (.number n :: ts) =
    (care.problem (.number n)).elim (after care stack ts) .error := by
  rw [pass]
  · cases care.problem (.number n) <;> rfl
  all_goals simp

theorem pass_string {text : Option (List Char)} : pass care .value stack (.string text :: ts) =
    (care.problem (.string text)).elim (after care stack ts) .error := by
  rw [pass]
  · cases care.problem (.string text) <;> rfl
  all_goals simp

theorem pass_key_string {text : Option (List Char)} : pass care .key stack (.string text :: ts) =
    (care.problem (.string text)).elim (pass care .colon stack ts) .error := by
  rw [pass]
  cases care.problem (.string text) <;> rfl

/-- A key is passed over as a string. -/
theorem pass_key {text : Option (List Char)} (h : care.problem (.string text) = none) :
    pass care .key stack (.string text :: .colon :: ts) = pass care .value stack ts := by
  rw [pass_key_string, h]
  rfl

theorem exists_of_pass_key (h : pass care .key stack ts = .ok rest) :
    ∃ text ts', ts = .string text :: .colon :: ts' ∧ care.problem (.string text) = none ∧
      pass care .value stack ts' = .ok rest := by
  have hcolon : ∀ {us}, pass care .colon stack us = .ok rest →
      ∃ us', us = .colon :: us' ∧ pass care .value stack us' = .ok rest := by
    intro us h
    cases us with
    | nil => cases h
    | cons tok us =>
        cases tok with
        | colon => exact ⟨us, rfl, h⟩
        | _ => cases h
  cases ts with
  | nil => cases h
  | cons tok ts =>
      cases tok with
      | string text =>
          rw [pass_key_string] at h
          cases hp : care.problem (.string text) with
          | some p => simp [hp] at h
          | none =>
              rw [hp] at h
              obtain ⟨us, rfl, hvalue⟩ := hcolon h
              exact ⟨text, us, rfl, hp, hvalue⟩
      | badString p q => cases care <;> cases h
      | _ => cases h

theorem pass_keyOrClose {tok : Token} (h : tok ≠ .closeBrace) :
    pass care .keyOrClose (.curly :: stack) (tok :: ts) =
      pass care .key (.curly :: stack) (tok :: ts) := by
  cases tok <;> first | rfl | exact absurd rfl h

/-! ### Trees pass -/

theorem pass_elementTokens {items : List Tree}
    (ih : ∀ t ∈ items, ∀ stack rest, t.Passes care stack →
      pass care .value stack (t.tokens ++ rest) = after care stack rest)
    (h : ∀ t ∈ items, t.Passes care (.square :: stack)) :
    pass care .commaOrClose (.square :: stack) (elementTokens false items ++ .closeBracket :: rest) =
      after care stack rest := by
  induction items with
  | nil => rfl
  | cons t ts ihs =>
      obtain ⟨ht, hts⟩ := List.forall_mem_cons.mp ih
      obtain ⟨hpass, hrest⟩ := List.forall_mem_cons.mp h
      simp only [elementTokens, Bool.false_eq_true, if_false, List.cons_append, List.nil_append,
        List.append_assoc]
      rw [pass_comma_square, ht _ _ hpass]
      exact ihs hts hrest

theorem pass_memberTokens {members : List (Option (List Char) × Tree)}
    (ih : ∀ m ∈ members, ∀ stack rest, m.2.Passes care stack →
      pass care .value stack (m.2.tokens ++ rest) = after care stack rest)
    (hkeys : ∀ m ∈ members, care.problem (.string m.1) = none)
    (h : ∀ m ∈ members, m.2.Passes care (.curly :: stack)) :
    pass care .commaOrClose (.curly :: stack) (memberTokens false members ++ .closeBrace :: rest) =
      after care stack rest := by
  induction members with
  | nil => rfl
  | cons m ms ihs =>
      obtain ⟨key, t⟩ := m
      obtain ⟨ht, hts⟩ := List.forall_mem_cons.mp ih
      obtain ⟨hkey, hkeys⟩ := List.forall_mem_cons.mp hkeys
      obtain ⟨hpass, hrest⟩ := List.forall_mem_cons.mp h
      simp only [memberTokens, Bool.false_eq_true, if_false, List.cons_append, List.nil_append,
        List.append_assoc]
      rw [pass_comma_curly, pass_key hkey, ht _ _ hpass]
      exact ihs hts hkeys hrest

/-- The tokens of a tree that passes are passed over. -/
theorem pass_tokens (t : Tree) : ∀ stack rest, t.Passes care stack →
    pass care .value stack (t.tokens ++ rest) = after care stack rest := by
  induction t using Tree.ind with
  | null => exact fun _ _ _ => rfl
  | bool b => exact fun _ _ _ => rfl
  | number n =>
      intro stack rest h
      cases h with
      | number h =>
          exact pass_number.trans (by rw [h]; rfl)
  | string text =>
      intro stack rest h
      cases h with
      | string h =>
          exact pass_string.trans (by rw [h]; rfl)
  | array items ih =>
      intro stack rest h
      cases h with
      | array hallows hitems =>
          simp only [Tree.tokens, List.cons_append, List.nil_append, List.append_assoc]
          rw [pass_openBracket hallows]
          cases items with
          | nil => rfl
          | cons t ts =>
              obtain ⟨ht, hts⟩ := List.forall_mem_cons.mp ih
              obtain ⟨hpass, hrest⟩ := List.forall_mem_cons.mp hitems
              obtain ⟨tok, us, htok, hbegins⟩ := t.exists_head
              simp only [elementTokens, if_true, List.nil_append, List.append_assoc]
              rw [← pass_elementTokens hts hrest, ← after_cons, ← ht _ _ hpass, htok]
              exact pass_valueOrClose hbegins
  | object members ih =>
      intro stack rest h
      cases h with
      | object hallows hkeys hmembers =>
          simp only [Tree.tokens, List.cons_append, List.nil_append, List.append_assoc]
          rw [pass_openBrace hallows]
          cases members with
          | nil => rfl
          | cons m ms =>
              obtain ⟨key, t⟩ := m
              obtain ⟨ht, hts⟩ := List.forall_mem_cons.mp ih
              obtain ⟨hkey, hkeys⟩ := List.forall_mem_cons.mp hkeys
              obtain ⟨hpass, hrest⟩ := List.forall_mem_cons.mp hmembers
              simp only [memberTokens, if_true, List.nil_append, List.cons_append,
                List.append_assoc]
              rw [pass_keyOrClose (by simp), pass_key hkey, ht _ _ hpass]
              exact pass_memberTokens hts hkeys hrest

/-! ### What passes is a tree -/

/-- What was passed over is a value, and the rest of its surroundings. -/
def ValueFirst (care : Care) (stack : List Bracket) (ts rest : List Token) : Prop :=
  ∃ (t : Tree) (us : List Token), ts = t.tokens ++ us ∧ t.Passes care stack ∧
    after care stack us = .ok rest

/-- What was passed over are further elements, the end of an array, and the rest of its
surroundings. -/
def ElementsFirst (care : Care) (stack : List Bracket) (ts rest : List Token) : Prop :=
  ∃ (items : List Tree) (us : List Token), ts = elementTokens false items ++ .closeBracket :: us ∧
    (∀ t ∈ items, t.Passes care (.square :: stack)) ∧ after care stack us = .ok rest

/-- What was passed over are further members, the end of an object, and the rest of its
surroundings. -/
def MembersFirst (care : Care) (stack : List Bracket) (ts rest : List Token) : Prop :=
  ∃ (members : List (Option (List Char) × Tree)) (us : List Token),
    ts = memberTokens false members ++ .closeBrace :: us ∧
      (∀ m ∈ members, care.problem (.string m.1) = none) ∧
        (∀ m ∈ members, m.2.Passes care (.curly :: stack)) ∧ after care stack us = .ok rest

/-- The three facts about the first `n` tokens. -/
structure Parses (care : Care) (n : Nat) : Prop where
  value : ∀ {ts stack rest}, ts.length ≤ n → pass care .value stack ts = .ok rest →
    ValueFirst care stack ts rest
  elements : ∀ {ts stack rest}, ts.length ≤ n →
    pass care .commaOrClose (.square :: stack) ts = .ok rest → ElementsFirst care stack ts rest
  members : ∀ {ts stack rest}, ts.length ≤ n →
    pass care .commaOrClose (.curly :: stack) ts = .ok rest → MembersFirst care stack ts rest

variable {n : Nat}

theorem Parses.elements_succ (ih : Parses care n) (hlength : ts.length ≤ n + 1)
    (h : pass care .commaOrClose (.square :: stack) ts = .ok rest) :
    ElementsFirst care stack ts rest := by
  cases ts with
  | nil => cases h
  | cons tok ts =>
      have htail : ts.length ≤ n := by simpa using hlength
      cases tok with
      | closeBracket => exact ⟨[], ts, rfl, by simp, h⟩
      | comma =>
          rw [pass_comma_square] at h
          obtain ⟨t, us, rfl, hpass, hafter⟩ := ih.value htail h
          have hshort : us.length ≤ n := by
            simp only [List.length_append] at htail
            omega
          obtain ⟨items, vs, rfl, hitems, hrest⟩ := ih.elements hshort hafter
          exact ⟨t :: items, vs, by simp [elementTokens], List.forall_mem_cons.mpr ⟨hpass, hitems⟩,
            hrest⟩
      | _ => cases h

/-- A key, its value, and what comes after them in an object. -/
theorem Parses.member (ih : Parses care n) (hlength : ts.length ≤ n)
    (h : pass care .key (.curly :: stack) ts = .ok rest) :
    ∃ key t members us,
      ts = memberTokens true ((key, t) :: members) ++ .closeBrace :: us ∧
        (∀ m ∈ (key, t) :: members, care.problem (.string m.1) = none) ∧
          (∀ m ∈ (key, t) :: members, m.2.Passes care (.curly :: stack)) ∧
            after care stack us = .ok rest := by
  obtain ⟨key, ts', rfl, hkey, hvalue⟩ := exists_of_pass_key h
  simp only [List.length_cons] at hlength
  obtain ⟨t, us, rfl, hpass, hafter⟩ := ih.value (by omega) hvalue
  have hshort : us.length ≤ n := by
    simp only [List.length_append] at hlength
    omega
  obtain ⟨members, vs, rfl, hkeys, hmembers, hrest⟩ := ih.members hshort hafter
  exact ⟨key, t, members, vs, by simp [memberTokens], List.forall_mem_cons.mpr ⟨hkey, hkeys⟩,
    List.forall_mem_cons.mpr ⟨hpass, hmembers⟩, hrest⟩

theorem Parses.members_succ (ih : Parses care n) (hlength : ts.length ≤ n + 1)
    (h : pass care .commaOrClose (.curly :: stack) ts = .ok rest) :
    MembersFirst care stack ts rest := by
  cases ts with
  | nil => cases h
  | cons tok ts =>
      cases tok with
      | closeBrace => exact ⟨[], ts, rfl, by simp, by simp, h⟩
      | comma =>
          rw [pass_comma_curly] at h
          obtain ⟨key, t, members, us, rfl, hkeys, hmembers, hrest⟩ :=
            ih.member (by simpa using hlength) h
          exact ⟨(key, t) :: members, us, by simp [memberTokens], hkeys, hmembers, hrest⟩
      | _ => cases h

theorem Parses.array (ih : Parses care n) (hallows : care.allows stack = true)
    (hlength : ts.length ≤ n)
    (h : pass care .valueOrClose (.square :: stack) ts = .ok rest) :
    ValueFirst care stack (.openBracket :: ts) rest := by
  by_cases hclose : ∃ us, ts = .closeBracket :: us
  · obtain ⟨us, rfl⟩ := hclose
    exact ⟨.array [], us, rfl, .array hallows (by simp), h⟩
  · have hvalue : pass care .value (.square :: stack) ts = .ok rest := by
      cases ts with
      | nil => cases h
      | cons tok ts =>
          cases tok with
          | closeBracket => exact absurd ⟨ts, rfl⟩ hclose
          | _ => exact h
    obtain ⟨t, us, rfl, hpass, hafter⟩ := ih.value hlength hvalue
    have hshort : us.length ≤ n := by
      simp only [List.length_append] at hlength
      omega
    obtain ⟨items, vs, rfl, hitems, hrest⟩ := ih.elements hshort hafter
    exact ⟨.array (t :: items), vs, by simp [Tree.tokens, elementTokens],
      .array hallows (List.forall_mem_cons.mpr ⟨hpass, hitems⟩), hrest⟩

theorem Parses.object (ih : Parses care n) (hallows : care.allows stack = true)
    (hlength : ts.length ≤ n)
    (h : pass care .keyOrClose (.curly :: stack) ts = .ok rest) :
    ValueFirst care stack (.openBrace :: ts) rest := by
  by_cases hclose : ∃ us, ts = .closeBrace :: us
  · obtain ⟨us, rfl⟩ := hclose
    exact ⟨.object [], us, rfl, .object hallows (by simp) (by simp), h⟩
  · have hkey : pass care .key (.curly :: stack) ts = .ok rest := by
      cases ts with
      | nil => cases h
      | cons tok ts =>
          rwa [← pass_keyOrClose fun htok => hclose ⟨ts, by rw [htok]⟩]
    obtain ⟨key, t, members, us, rfl, hkeys, hmembers, hrest⟩ := ih.member hlength hkey
    exact ⟨.object ((key, t) :: members), us, by simp [Tree.tokens, memberTokens],
      .object hallows hkeys hmembers, hrest⟩

theorem Parses.value_succ (ih : Parses care n) (hlength : ts.length ≤ n + 1)
    (h : pass care .value stack ts = .ok rest) : ValueFirst care stack ts rest := by
  cases ts with
  | nil => cases h
  | cons tok ts =>
      have htail : ts.length ≤ n := by simpa using hlength
      -- a token that is a value by itself has no problem
      have hleaf : ∀ {t : Tree}, t.tokens = [tok] →
          (care.problem tok = none → t.Passes care stack) →
          (care.problem tok).elim (after care stack ts) .error = .ok rest →
            ValueFirst care stack (tok :: ts) rest := by
        intro t ht hpass h
        cases hp : care.problem tok with
        | some p => simp [hp] at h
        | none => exact ⟨t, ts, by rw [ht]; rfl, hpass hp, by simpa [hp] using h⟩
      cases tok with
      | null => exact ⟨.null, ts, rfl, .null, h⟩
      | bool b => exact ⟨.bool b, ts, rfl, .bool, h⟩
      | number m => exact hleaf (t := .number m) rfl .number (pass_number ▸ h)
      | string text => exact hleaf (t := .string text) rfl .string (pass_string ▸ h)
      | openBracket =>
          cases hallows : care.allows stack with
          | false =>
              change (if care.allows stack = true then _ else Except.error Problem.illFormed) = _ at h
              simp [hallows] at h
          | true => exact ih.array hallows htail (pass_openBracket hallows ▸ h)
      | openBrace =>
          cases hallows : care.allows stack with
          | false =>
              change (if care.allows stack = true then _ else Except.error Problem.illFormed) = _ at h
              simp [hallows] at h
          | true => exact ih.object hallows htail (pass_openBrace hallows ▸ h)
      | badString p q => cases care <;> cases h
      | badScalar p q => cases care <;> cases h
      | _ => cases care <;> cases h

theorem parses (care : Care) (n : Nat) : Parses care n := by
  induction n with
  | zero =>
      have hnil : ∀ {ts : List Token}, ts.length ≤ 0 → ts = [] := fun h =>
        List.eq_nil_of_length_eq_zero (Nat.le_zero.mp h)
      refine ⟨fun h hpass => ?_, fun h hpass => ?_, fun h hpass => ?_⟩ <;>
      · rw [hnil h] at hpass
        cases hpass
  | succ n ih => exact ⟨ih.value_succ, ih.elements_succ, ih.members_succ⟩

/-- A value is passed over exactly if the tokens of a tree that passes are there. -/
theorem pass_eq_ok_iff : pass care .value [] ts = .ok rest ↔
    ∃ t : Tree, ts = t.tokens ++ rest ∧ t.Passes care [] := by
  constructor
  · intro h
    obtain ⟨t, us, rfl, hpass, hafter⟩ := (parses care _).value (Nat.le_refl _) h
    obtain rfl := Except.ok.inj hafter
    exact ⟨t, rfl, hpass⟩
  · rintro ⟨t, rfl, hpass⟩
    exact pass_tokens t [] rest hpass

end RegionNet.Json
