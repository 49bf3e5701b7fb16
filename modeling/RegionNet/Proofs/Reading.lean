import RegionNet.Proofs.Tree

/-!
# What readers accept

A reader is described by the trees that spell a value for it: it takes the tokens of such a tree
from the front of a list and leaves what follows (`Accepts`). Here stand the descriptions of the
readers of plain values, of optional values, of arrays, and of the members of objects.
-/

namespace RegionNet

theorem Except.bind_eq_ok_iff {ε β γ : Type} {x : Except ε β} {f : β → Except ε γ} {z : γ} :
    (x >>= f) = .ok z ↔ ∃ y, x = .ok y ∧ f y = .ok z := by
  cases x with
  | error e => simp [bind, Except.bind]
  | ok y => simp [bind, Except.bind]

namespace Json

/-! ## Spellings -/

/-- A numeral for a number. -/
def SpellsNumber (x : Float) (t : Tree) : Prop := ∃ n, t = .number n ∧ n.toFloat? = some x

def SpellsText (s : String) (t : Tree) : Prop := t = .string (some s.toList)

/-- Null for nothing. -/
def SpellsOptional {β : Type} (Spells : β → Tree → Prop) : Option β → Tree → Prop
  | none, t => t = .null
  | some x, t => Spells x t

/-- An array, for which there must be a level left. -/
def SpellsList {β : Type} (levels : Nat) (Spells : β → Tree → Prop) (xs : List β) (t : Tree) : Prop :=
  0 < levels ∧ ∃ items, t = .array items ∧ List.Forall₂ Spells xs items

namespace Read

/-- The reader takes the tokens of those trees that spell a value. -/
def Accepts {β : Type} (read : Reader β) (Spells : β → Tree → Prop) : Prop :=
  ∀ ts x rest, read ts = .ok (x, rest) ↔ ∃ t : Tree, ts = t.tokens ++ rest ∧ Spells x t

/-! ## Plain values -/

theorem accepts_string (expected : String) : Accepts (string expected) SpellsText := by
  intro ts x rest
  constructor
  · intro h
    unfold string at h
    split at h
    · cases h
      exact ⟨_, rfl, by rw [SpellsText, String.toList_ofList]⟩
    · cases h
  · rintro ⟨t, rfl, rfl⟩
    exact congrArg (fun s => Except.ok (s, rest)) String.ofList_toList

theorem accepts_text : Accepts text SpellsText := accepts_string "a string"

theorem accepts_float : Accepts float SpellsNumber := by
  intro ts x rest
  constructor
  · intro h
    unfold float at h
    split at h
    · next n ts =>
        split at h
        · next y hy =>
            cases h
            exact ⟨.number n, rfl, n, rfl, hy⟩
        · cases h
    · cases h
  · rintro ⟨t, rfl, n, rfl, hn⟩
    rw [Tree.tokens, List.singleton_append, float, hn]

theorem accepts_unit : Accepts unit fun _ t => t = .null := by
  intro ts x rest
  constructor
  · intro h
    unfold unit at h
    split at h
    · cases h
      exact ⟨_, rfl, rfl⟩
    · cases h
  · rintro ⟨t, rfl, rfl⟩
    rfl

theorem accepts_skip : Accepts skip fun _ _ => True := by
  intro ts x rest
  have hpass : skip ts = .ok (x, rest) ↔ pass .skipping .value [] ts = .ok rest := by
    unfold skip
    cases pass .skipping .value [] ts <;> simp
  rw [hpass, pass_eq_ok_iff]
  exact exists_congr fun t => and_congr_right fun _ => iff_true_intro (t.passes_skipping [])

section

variable {β : Type} {item : Reader β} {Spells : β → Tree → Prop}

theorem accepts_optional (h : Accepts item Spells) (hnull : ∀ x, ¬Spells x .null) :
    Accepts (optional item) (SpellsOptional Spells) := by
  intro ts x rest
  by_cases hts : ∃ us, ts = .null :: us
  · obtain ⟨us, rfl⟩ := hts
    have hread : optional item (.null :: us) = .ok (none, us) := rfl
    rw [hread]
    constructor
    · intro h
      cases h
      exact ⟨.null, rfl, rfl⟩
    · rintro ⟨t, ht, hx⟩
      obtain ⟨rfl, rfl⟩ := Tree.tokens_inj .null t us rest ht
      cases x with
      | none => rfl
      | some x => exact absurd hx (hnull x)
  · have hread : optional item ts = .ok (x, rest) ↔ ∃ y, x = some y ∧ item ts = .ok (y, rest) := by
      unfold optional
      split
      · next us => exact absurd ⟨us, rfl⟩ hts
      · cases item ts with
        | error e => simp
        | ok z =>
            obtain ⟨z, us⟩ := z
            simp [eq_comm]
    rw [hread]
    cases x with
    | none =>
        refine iff_of_false (by simp) ?_
        rintro ⟨t, rfl, rfl⟩
        exact hts ⟨_, rfl⟩
    | some x =>
        simp only [Option.some.injEq, exists_eq_left']
        exact h ts x rest

/-! ## Arrays -/

theorem exists_of_nextElement {first : Bool} {ts ts' : List Token}
    (h : nextElement first ts = .ok (true, ts')) :
    ts = (if first then [] else [.comma]) ++ ts' := by
  unfold nextElement at h
  split at h
  · cases h
  · cases h
  · split at h
    · next hfirst =>
        cases h
        simp [hfirst]
    · next hfirst =>
        split at h
        · cases h
        · cases h
        · cases h
          simp [hfirst]
        · cases h

theorem exists_of_nextElement_false {first : Bool} {ts ts' : List Token}
    (h : nextElement first ts = .ok (false, ts')) :
    ∃ us, ts = .closeBracket :: us ∧ ts' = .closeBracket :: us := by
  unfold nextElement at h
  split at h
  · cases h
  · cases h
    exact ⟨_, rfl, rfl⟩
  · split at h
    · cases h
    · split at h <;> cases h

theorem nextElement_of_begins (first : Bool) {tok : Token} {ts : List Token}
    (h : tok.begins = true) :
    nextElement first ((if first then [] else [.comma]) ++ tok :: ts) = .ok (true, tok :: ts) := by
  cases first <;> cases tok <;> first | rfl | cases h

theorem nextElement_tokens (first : Bool) (t : Tree) (ts : List Token) :
    nextElement first ((if first then [] else [.comma]) ++ (t.tokens ++ ts)) =
      .ok (true, t.tokens ++ ts) := by
  obtain ⟨tok, us, ht, hbegins⟩ := t.exists_head
  rw [ht]
  exact nextElement_of_begins first hbegins

theorem closeArray_eq_ok_iff {ts rest : List Token} :
    closeArray ts = .ok ((), rest) ↔ ts = .closeBracket :: rest := by
  unfold closeArray
  split <;> simp_all

theorem elements_eq_ok_iff (h : Accepts item Spells) : ∀ {n : Nat} {first : Bool}
    {ts rest : List Token} {xs : List β}, ts.length < n →
      (elements item n first ts = .ok (xs, rest) ↔
        ∃ items : List Tree, ts = Tree.elementTokens first items ++ .closeBracket :: rest ∧
          List.Forall₂ Spells xs items) := by
  intro n
  induction n with
  | zero => exact fun hn => absurd hn (Nat.not_lt_zero _)
  | succ n ih =>
      intro first ts rest xs hn
      constructor
      · intro hread
        unfold elements at hread
        obtain ⟨⟨more, ts'⟩, hnext, hmore⟩ := Except.bind_eq_ok_iff.mp hread
        cases more with
        | false =>
            obtain ⟨us, rfl, rfl⟩ := exists_of_nextElement_false hnext
            cases hmore
            exact ⟨[], rfl, .nil⟩
        | true =>
            obtain rfl := exists_of_nextElement hnext
            obtain ⟨⟨x, ts''⟩, hitem, hmore⟩ := Except.bind_eq_ok_iff.mp hmore
            obtain ⟨⟨ys, ts₃⟩, hrest, hmore⟩ := Except.bind_eq_ok_iff.mp hmore
            cases hmore
            obtain ⟨t, rfl, hx⟩ := (h _ _ _).mp hitem
            have hshort : ts''.length < n := by
              obtain ⟨tok, us, ht, -⟩ := t.exists_head
              simp only [List.length_append, ht, List.length_cons] at hn
              omega
            obtain ⟨items, rfl, hys⟩ := (ih hshort).mp hrest
            exact ⟨t :: items, by simp [Tree.elementTokens], .cons hx hys⟩
      · rintro ⟨items, rfl, hxs⟩
        unfold elements
        cases hxs with
        | nil => exact Except.bind_eq_ok_iff.mpr ⟨(false, .closeBracket :: rest), rfl, rfl⟩
        | @cons x t xs items hx hxs =>
            simp only [Tree.elementTokens, List.append_assoc] at hn ⊢
            refine Except.bind_eq_ok_iff.mpr ⟨_, nextElement_tokens first t _, ?_⟩
            refine Except.bind_eq_ok_iff.mpr ⟨_, (h _ _ _).mpr ⟨t, rfl, hx⟩, ?_⟩
            refine Except.bind_eq_ok_iff.mpr ⟨_, (ih ?_).mpr ⟨items, rfl, hxs⟩, rfl⟩
            obtain ⟨tok, us, ht, -⟩ := t.exists_head
            simp only [List.length_append, ht, List.length_cons] at hn ⊢
            omega

theorem accepts_list (levels : Nat) (h : Accepts item Spells) :
    Accepts (list levels item) (SpellsList levels Spells) := by
  intro ts xs rest
  constructor
  · intro hread
    unfold list at hread
    split at hread
    · next us =>
        split at hread
        · cases hread
        · next hlevels =>
            obtain ⟨items, rfl, hxs⟩ := (elements_eq_ok_iff h (Nat.lt_succ_self _)).mp hread
            exact ⟨.array items, by simp [Tree.tokens], Nat.pos_of_ne_zero hlevels, items, rfl, hxs⟩
    · cases hread
  · rintro ⟨t, rfl, hlevels, items, rfl, hxs⟩
    simp only [Tree.tokens, List.cons_append, List.nil_append, List.append_assoc]
    refine (if_neg (Nat.pos_iff_ne_zero.mp hlevels)).trans ?_
    exact (elements_eq_ok_iff h (Nat.lt_succ_self _)).mpr ⟨items, rfl, hxs⟩

end

/-! ## Members of objects -/

theorem colon_eq_ok_iff {ts rest : List Token} :
    colon ts = .ok ((), rest) ↔ ts = .colon :: rest := by
  unfold colon
  split <;> simp_all

/-- The key that a list of tokens begins with. -/
def keyOf : Reader (Option String)
  | [] => .error unfinished
  | .string (some s) :: ts => .ok (some (String.ofList s), ts)
  | .badString reading _ :: _ => .error (.text reading)
  | _ => .error illFormed

theorem keyOf_eq_ok_iff {ts rest : List Token} {key : Option String} :
    keyOf ts = .ok (key, rest) ↔ ∃ s : String, key = some s ∧ ts = .string (some s.toList) :: rest := by
  constructor
  · intro h
    unfold keyOf at h
    split at h
    · cases h
    · cases h
      exact ⟨_, rfl, by rw [String.toList_ofList]⟩
    · cases h
    · cases h
  · rintro ⟨s, rfl, rfl⟩
    exact congrArg (fun s => Except.ok (some s, rest)) String.ofList_toList

/-- A comma before what is read. -/
def afterComma {β : Type} (read : Reader β) : Reader β
  | [] => .error unfinished
  | .comma :: ts => read ts
  | _ => .error illFormed

theorem nextKey_eq (first : Bool) {ts : List Token} (h : ∀ us, ts ≠ .closeBrace :: us) :
    nextKey first ts =
      if first then keyOf ts else afterComma keyOf ts := by
  cases ts with
  | nil => cases first <;> rfl
  | cons tok us => cases tok <;> cases first <;> first | rfl | exact absurd rfl (h us)

theorem nextKey_closeBrace (first : Bool) (ts : List Token) :
    nextKey first (.closeBrace :: ts) = .ok (none, ts) := rfl

theorem nextKey_eq_some_iff {first : Bool} {ts rest : List Token} {key : Option String}
    (h : ∀ us, ts ≠ .closeBrace :: us) : nextKey first ts = .ok (key, rest) ↔
      ∃ s : String, key = some s ∧
        ts = (if first then [] else [.comma]) ++ .string (some s.toList) :: rest := by
  rw [nextKey_eq first h]
  cases first with
  | true => exact keyOf_eq_ok_iff
  | false =>
      simp only [Bool.false_eq_true, if_false, List.cons_append, List.nil_append]
      unfold afterComma
      split
      · simp
      · rw [keyOf_eq_ok_iff]
        simp
      · next hcomma =>
          refine iff_of_false (by simp) ?_
          rintro ⟨s, -, hts⟩
          exact hcomma _ hts

section

variable {σ : Type} {member : String → σ → Reader σ} {Step : String → Tree → σ → σ → Prop}

/-- The members of an object, taken up one after the other. -/
inductive Runs (Step : String → Tree → σ → σ → Prop) :
    List (Option (List Char) × Tree) → σ → σ → Prop where
  | nil {s} : Runs Step [] s s
  | cons {key : String} {t ms s s' s''} : Step key t s s' → Runs Step ms s' s'' →
      Runs Step ((some key.toList, t) :: ms) s s''

theorem members_eq_ok_iff
    (h : ∀ key s ts s' rest, member key s ts = .ok (s', rest) ↔
      ∃ t : Tree, ts = .colon :: (t.tokens ++ rest) ∧ Step key t s s') :
    ∀ {n : Nat} {first : Bool} {s s' : σ} {ts rest : List Token}, ts.length < n →
      (members member n first s ts = .ok (s', rest) ↔
        ∃ ms, ts = Tree.memberTokens first ms ++ .closeBrace :: rest ∧ Runs Step ms s s') := by
  intro n
  induction n with
  | zero => exact fun hn => absurd hn (Nat.not_lt_zero _)
  | succ n ih =>
      intro first s s' ts rest hn
      by_cases hclose : ∃ us, ts = .closeBrace :: us
      · obtain ⟨us, rfl⟩ := hclose
        unfold members
        rw [nextKey_closeBrace]
        constructor
        · intro hread
          cases hread
          exact ⟨[], rfl, .nil⟩
        · rintro ⟨ms, hts, hruns⟩
          cases hruns with
          | nil =>
              cases hts
              rfl
          | cons hstep hruns => cases first <;> cases hts
      · have hopen : ∀ us, ts ≠ .closeBrace :: us := fun us hus => hclose ⟨us, hus⟩
        unfold members
        constructor
        · intro hread
          obtain ⟨⟨key, ts'⟩, hnext, hmore⟩ := Except.bind_eq_ok_iff.mp hread
          obtain ⟨key, rfl, rfl⟩ := (nextKey_eq_some_iff hopen).mp hnext
          obtain ⟨⟨s₁, ts''⟩, hmember, hloop⟩ := Except.bind_eq_ok_iff.mp hmore
          obtain ⟨t, rfl, hstep⟩ := (h _ _ _ _ _).mp hmember
          have hshort : ts''.length < n := by
            simp only [List.length_append, List.length_cons] at hn
            omega
          obtain ⟨ms, rfl, hruns⟩ := (ih hshort).mp hloop
          exact ⟨(some key.toList, t) :: ms, by simp [Tree.memberTokens], .cons hstep hruns⟩
        · rintro ⟨ms, rfl, hruns⟩
          cases hruns with
          | nil => exact absurd ⟨rest, rfl⟩ hclose
          | @cons key t ms s s₁ s' hstep hruns =>
              simp only [Tree.memberTokens, List.append_assoc, List.cons_append] at hn hopen ⊢
              have hnext := (nextKey_eq_some_iff hopen).mpr ⟨key, rfl, rfl⟩
              refine Except.bind_eq_ok_iff.mpr ⟨_, hnext, ?_⟩
              refine Except.bind_eq_ok_iff.mpr ⟨_, (h _ _ _ _ _).mpr ⟨t, rfl, hstep⟩, ?_⟩
              refine (ih ?_).mpr ⟨ms, rfl, hruns⟩
              simp only [List.length_append, List.length_cons] at hn ⊢
              omega

end

end Read

end Json

end RegionNet
