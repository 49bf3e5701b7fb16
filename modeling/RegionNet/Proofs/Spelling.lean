import RegionNet.Proofs.Proper
import RegionNet.Proofs.Reading
import RegionNet.Region.Document

/-!
# Spellings of regions

The trees that stand for a region, given how deep brackets may still be nested: an object with its
fields in any order between members that mean nothing, or an array that may break off, each with
the freedom that its fields have (`Region.Spells`). Reading accepts the spellings of a region and
nothing else (`Region.ofDocument_eq_ok_iff`).
-/

namespace RegionNet

open Json (Tree Token Reader SpellsNumber SpellsText SpellsOptional SpellsList)
open Json.Read (Accepts)

/-! ## Fields and their values -/

namespace Field

/-- What a field holds. -/
def Value : Field → Type
  | id => String
  | kind => Kind
  | label => Option String
  | duration => Float
  | impacts => Option (List Float)
  | children => Option (List (Region Float))
  | distribution => Option (Distribution Float)
  | bound => Option Float

/-- What a field holds that is left out. The id and the kind must not be. -/
def absent : (f : Field) → Option f.Value
  | id => none
  | kind => none
  | label => some none
  | duration => some (0 : Float)
  | impacts => some none
  | children => some none
  | distribution => some none
  | bound => some none

/-- The field that a key stands for. -/
def ofKey? (key : Option (List Char)) : Option Field := key.bind fun cs => ofName? (String.ofList cs)

theorem nodup_all : all.Nodup := by decide

theorem mem_all (f : Field) : f ∈ all := by cases f <;> decide

theorem ofName?_name (f : Field) : ofName? f.name = some f := by cases f <;> rfl

end Field

/-- The value of a field. -/
def Region.get (r : Region Float) : (f : Field) → f.Value
  | .id => r.id
  | .kind => r.kind
  | .label => r.label
  | .duration => r.duration
  | .impacts => r.impacts
  | .children => r.children
  | .distribution => r.distribution
  | .bound => r.bound

theorem Region.ext_get {r r' : Region Float} (h : ∀ f, r.get f = r'.get f) : r = r' := by
  obtain ⟨i, k, l, d, m, c, p, b⟩ := r
  obtain ⟨i', k', l', d', m', c', p', b'⟩ := r'
  obtain rfl : i = i' := h .id
  obtain rfl : k = k' := h .kind
  obtain rfl : l = l' := h .label
  obtain rfl : d = d' := h .duration
  obtain rfl : m = m' := h .impacts
  obtain rfl : c = c' := h .children
  obtain rfl : p = p' := h .distribution
  obtain rfl : b = b' := h .bound
  rfl

namespace Draft

/-- The value of a field, if it has been read. -/
def get (d : Draft) : (f : Field) → Option f.Value
  | .id => d.id
  | .kind => d.kind
  | .label => d.label
  | .duration => d.duration
  | .impacts => d.impacts
  | .children => d.children
  | .distribution => d.distribution
  | .bound => d.bound

/-- The draft after a field has been read. -/
def set (d : Draft) : (f : Field) → f.Value → Draft
  | .id, x => { d with id := some x }
  | .kind, x => { d with kind := some x }
  | .label, x => { d with label := some x }
  | .duration, x => { d with duration := some x }
  | .impacts, x => { d with impacts := some x }
  | .children, x => { d with children := some x }
  | .distribution, x => { d with distribution := some x }
  | .bound, x => { d with bound := some x }

variable {d : Draft} {f g : Field}

@[simp]
theorem get_empty (f : Field) : empty.get f = none := by cases f <;> rfl

@[simp]
theorem get_set (x : f.Value) : (d.set f x).get f = some x := by cases f <;> rfl

theorem get_set_of_ne (x : f.Value) (h : g ≠ f) : (d.set f x).get g = d.get g := by
  cases f <;> cases g <;> first | rfl | exact absurd rfl h

theorem has_eq_false_iff : d.has f = false ↔ d.get f = none := by
  cases f <;> exact Option.isSome_eq_false_iff.trans Option.isNone_iff_eq_none

/-- A draft makes the region that has what was read, and the rest left out. -/
theorem finish_eq_ok_iff {r : Region Float} :
    d.finish = .ok r ↔ ∀ f, (d.get f).or f.absent = some (r.get f) := by
  obtain ⟨i, k, l, du, m, c, p, b⟩ := d
  cases i with
  | none =>
      refine iff_of_false (by simp [finish]) fun h => ?_
      exact nomatch (h .id : (none : Option String) = some r.id)
  | some i =>
      cases k with
      | none =>
          refine iff_of_false (by simp [finish]) fun h => ?_
          exact nomatch (h .kind : (none : Option Kind) = some r.kind)
      | some k =>
          let made : Region Float :=
            ⟨i, k, l.join, du.getD 0, m.join, c.join, p.join, b.join⟩
          have hmade : ∀ f, ((⟨some i, some k, l, du, m, c, p, b⟩ : Draft).get f).or f.absent =
              some (made.get f) := by
            intro f
            cases f
            case id => rfl
            case kind => rfl
            case label => cases l <;> rfl
            case duration => cases du <;> rfl
            case impacts => cases m <;> rfl
            case children => cases c <;> rfl
            case distribution => cases p <;> rfl
            case bound => cases b <;> rfl
          have hfinish : finish ⟨some i, some k, l, du, m, c, p, b⟩ = .ok made := rfl
          rw [hfinish]
          constructor
          · intro h
            obtain rfl : made = r := Except.ok.inj h
            exact hmade
          · intro h
            refine congrArg Except.ok (Region.ext_get fun f => Option.some.inj ?_)
            rw [← hmade, h]

end Draft

/-! ## Spellings of fields -/

namespace Region

/-- A name of the kind, or an object with such a name as its only key. -/
def SpellsKind (levels : Nat) (k : Kind) (t : Tree) : Prop :=
  ∃ name : String, (name = k.title ∨ name = k.keyword) ∧
    (SpellsText name t ∨ 0 < levels ∧ t = .object [(some name.toList, .null)])

def SpellsDistribution (levels : Nat) : Distribution Float → Tree → Prop
  | .single p => SpellsNumber p
  | .branches ps => SpellsList levels SpellsNumber ps

/-- A value of a field, where it is known what spells a list of children. -/
def SpellsField (levels : Nat) (SpellsChildren : List (Region Float) → Tree → Prop) :
    (f : Field) → f.Value → Tree → Prop
  | .id => SpellsText
  | .kind => SpellsKind levels
  | .label => SpellsOptional SpellsText
  | .duration => SpellsNumber
  | .impacts => SpellsOptional (SpellsList levels SpellsNumber)
  | .children => SpellsOptional SpellsChildren
  | .distribution => SpellsOptional (SpellsDistribution levels)
  | .bound => SpellsOptional SpellsNumber

theorem kindOfName?_eq_some_iff {name : String} {k : Kind} :
    kindOfName? name = some k ↔ name = k.title ∨ name = k.keyword := by
  constructor
  · intro h
    simpa using List.find?_some h
  · cases k <;>
    · rintro (rfl | rfl) <;> decide

theorem accepts_kindName : Accepts readKindName fun k t =>
    ∃ name : String, (name = k.title ∨ name = k.keyword) ∧ SpellsText name t := by
  intro ts k rest
  constructor
  · intro h
    unfold readKindName at h
    split at h
    · cases h
    · split at h
      · obtain ⟨⟨name, ts'⟩, hname, hkind⟩ := Except.bind_eq_ok_iff.mp h
        obtain ⟨t, ht, hspells⟩ := (Json.Read.accepts_string _ _ _ _).mp hname
        simp only at hkind
        split at hkind
        · next k' hk =>
            cases hkind
            exact ⟨t, ht, name, kindOfName?_eq_some_iff.mp hk, hspells⟩
        · cases hkind
      · cases h
  · rintro ⟨t, rfl, name, hname, rfl⟩
    have hread := (Json.Read.accepts_string "a string" (.string (some name.toList) :: rest) name
      rest).mpr ⟨.string (some name.toList), rfl, rfl⟩
    refine Except.bind_eq_ok_iff.mpr ⟨_, hread, ?_⟩
    simp only [kindOfName?_eq_some_iff.mpr hname]

theorem accepts_kind (levels : Nat) : Accepts (readKind levels) (SpellsKind levels) := by
  intro ts k rest
  by_cases hts : ∃ us, ts = .openBrace :: us
  · obtain ⟨us, rfl⟩ := hts
    constructor
    · intro h
      unfold readKind at h
      simp only at h
      split at h
      · cases h
      · next hlevels =>
          obtain ⟨⟨k', us₁⟩, hname, h₁⟩ := Except.bind_eq_ok_iff.mp h
          obtain ⟨⟨⟨⟩, us₂⟩, hcolon, h₂⟩ := Except.bind_eq_ok_iff.mp h₁
          obtain ⟨⟨⟨⟩, us₃⟩, hunit, h₃⟩ := Except.bind_eq_ok_iff.mp h₂
          obtain ⟨t, rfl, name, hkind, rfl⟩ := (accepts_kindName _ _ _).mp hname
          obtain rfl := Json.Read.colon_eq_ok_iff.mp hcolon
          obtain ⟨t, rfl, rfl⟩ := (Json.Read.accepts_unit _ _ _).mp hunit
          simp only at h₃
          split at h₃
          · cases h₃
          · cases h₃
            exact ⟨.object [(some name.toList, .null)], rfl, name, hkind,
              Or.inr ⟨Nat.pos_of_ne_zero hlevels, rfl⟩⟩
          · cases h₃
    · rintro ⟨t, ht, name, hkind, rfl | ⟨hlevels, rfl⟩⟩
      · cases ht
      · cases ht
        refine (if_neg (Nat.pos_iff_ne_zero.mp hlevels)).trans ?_
        have hname := (accepts_kindName (.string (some name.toList) :: .colon :: .null ::
          .closeBrace :: rest) k _).mpr ⟨.string (some name.toList), rfl, name, hkind, rfl⟩
        exact Except.bind_eq_ok_iff.mpr ⟨_, hname, rfl⟩
  · have hread : readKind levels ts = readKindName ts := by
      unfold readKind
      split
      · next us => exact absurd ⟨us, rfl⟩ hts
      · rfl
    rw [hread, accepts_kindName]
    constructor
    · rintro ⟨t, rfl, name, hkind, hname⟩
      exact ⟨t, rfl, name, hkind, Or.inl hname⟩
    · rintro ⟨t, rfl, name, hkind, hname | ⟨-, rfl⟩⟩
      · exact ⟨t, rfl, name, hkind, hname⟩
      · exact absurd ⟨_, rfl⟩ hts

theorem passes_of_spellsNumber {levels : Nat} {x : Float} {t : Tree} (h : SpellsNumber x t)
    (stack : List Json.Bracket) : t.Passes (.reading levels) stack := by
  obtain ⟨n, rfl, hn⟩ := h
  refine .number ?_
  simp [Json.Care.problem, hn]

theorem passes_of_spellsDistribution {levels : Nat} {d : Distribution Float} {t : Tree}
    (h : SpellsDistribution levels d t) : t.Passes (.reading levels) [] := by
  cases d with
  | single p => exact passes_of_spellsNumber h []
  | branches ps =>
      obtain ⟨hlevels, items, rfl, hps⟩ := h
      refine .array (decide_eq_true hlevels) fun t ht => ?_
      obtain ⟨p, -, hp⟩ := exists_left_of_forall₂ hps ht
      exact passes_of_spellsNumber hp _

theorem accepts_distribution (levels : Nat) :
    Accepts (readDistribution levels) (SpellsDistribution levels) := by
  have hfloat := Json.Read.accepts_float
  have hlist := Json.Read.accepts_list levels Json.Read.accepts_float
  have hany : ∀ {ts rest : List Token}, Json.Read.any levels ts = .ok ((), rest) ↔
      ∃ t : Tree, ts = t.tokens ++ rest ∧ t.Passes (.reading levels) [] := by
    intro ts rest
    rw [← Json.pass_eq_ok_iff]
    unfold Json.Read.any
    cases Json.pass (.reading levels) .value [] ts <;> simp
  intro ts d rest
  constructor
  · intro h
    obtain ⟨⟨⟨⟩, us⟩, hpass, hread⟩ := Except.bind_eq_ok_iff.mp h
    obtain ⟨t, rfl, -⟩ := hany.mp hpass
    -- what was read is the value that was passed over
    simp only at hread
    split at hread
    · next p us' hp =>
        cases hread
        obtain ⟨t', ht, hspells⟩ := (hfloat _ _ _).mp hp
        obtain ⟨rfl, -⟩ := t.tokens_inj t' _ _ ht
        exact ⟨t, rfl, hspells⟩
    · split at hread
      · next ps us' hps =>
          cases hread
          obtain ⟨t', ht, hspells⟩ := (hlist _ _ _).mp hps
          obtain ⟨rfl, -⟩ := t.tokens_inj t' _ _ ht
          exact ⟨t, rfl, hspells⟩
      · cases hread
  · rintro ⟨t, rfl, hspells⟩
    refine Except.bind_eq_ok_iff.mpr
      ⟨_, hany.mpr ⟨t, rfl, passes_of_spellsDistribution hspells⟩, ?_⟩
    cases d with
    | single p => simp only [(hfloat _ _ _).mpr ⟨t, rfl, hspells⟩]
    | branches ps =>
        obtain ⟨hlevels, items, rfl, hps⟩ := hspells
        simp only [(hlist _ _ _).mpr ⟨.array items, rfl, hlevels, items, rfl, hps⟩]
        rfl

section

variable {levels : Nat} {children : Reader (List (Region Float))}
  {SpellsChildren : List (Region Float) → Tree → Prop}

theorem readField_eq_ok_iff (h : Accepts children SpellsChildren)
    (hnull : ∀ cs, ¬SpellsChildren cs .null) {f : Field} {d d' : Draft} {ts rest : List Token} :
    readField levels children f d ts = .ok (d', rest) ↔
      ∃ (t : Tree) (x : f.Value), ts = t.tokens ++ rest ∧
        SpellsField levels SpellsChildren f x t ∧ d' = d.set f x := by
  -- whatever the field is, its value is read first and then put into the draft
  have key : ∀ {β : Type} {read : Reader β} {Spells : β → Tree → Prop} (put : β → Draft),
      Accepts read Spells →
      ((read ts >>= fun y => Except.ok (put y.1, y.2)) = .ok (d', rest) ↔
        ∃ (t : Tree) (x : β), ts = t.tokens ++ rest ∧ Spells x t ∧ d' = put x) := by
    intro β read Spells put hread
    rw [Except.bind_eq_ok_iff]
    constructor
    · rintro ⟨⟨x, us⟩, hx, hput⟩
      cases hput
      obtain ⟨t, ht, hspells⟩ := (hread _ _ _).mp hx
      exact ⟨t, x, ht, hspells, rfl⟩
    · rintro ⟨t, x, ht, hspells, rfl⟩
      exact ⟨(x, rest), (hread _ _ _).mpr ⟨t, ht, hspells⟩, rfl⟩
  have htext : ∀ s, ¬SpellsText s .null := by
    intro s hs
    cases hs
  have hnumber : ∀ x, ¬SpellsNumber x .null := by
    rintro x ⟨n, hn, -⟩
    cases hn
  have hlist : ∀ xs, ¬SpellsList levels SpellsNumber xs .null := by
    rintro xs ⟨-, items, hitems, -⟩
    cases hitems
  have hdistribution : ∀ p, ¬SpellsDistribution levels p .null := by
    rintro (p | ps) hp
    · exact hnumber p hp
    · exact hlist ps hp
  cases f
  case id => exact key (d.set .id) Json.Read.accepts_text
  case kind => exact key (d.set .kind) (accepts_kind levels)
  case label => exact key (d.set .label) (Json.Read.accepts_optional Json.Read.accepts_text htext)
  case duration => exact key (d.set .duration) Json.Read.accepts_float
  case impacts =>
    exact key (d.set .impacts) (Json.Read.accepts_optional
      (Json.Read.accepts_list levels Json.Read.accepts_float) hlist)
  case children => exact key (d.set .children) (Json.Read.accepts_optional h hnull)
  case distribution =>
    exact key (d.set .distribution)
      (Json.Read.accepts_optional (accepts_distribution levels) hdistribution)
  case bound =>
    exact key (d.set .bound) (Json.Read.accepts_optional Json.Read.accepts_float hnumber)

/-! ## Fields one after the other -/

variable (levels SpellsChildren) in
/-- Values are taken up into a draft, each as the value of a field that has not been read or of
none. -/
inductive Fills : List (Option Field × Tree) → Draft → Draft → Prop where
  | nil {d} : Fills [] d d
  | unknown {t es d d'} : Fills es d d' → Fills ((none, t) :: es) d d'
  | known {f : Field} {x : f.Value} {t es d d'} : d.get f = none →
      SpellsField levels SpellsChildren f x t → Fills es (d.set f x) d' →
        Fills ((some f, t) :: es) d d'

/-- The fields that have values in a list. -/
def fieldsOf (es : List (Option Field × Tree)) : List Field := es.filterMap Prod.fst

@[simp]
theorem fieldsOf_unknown (t : Tree) (es : List (Option Field × Tree)) :
    fieldsOf ((none, t) :: es) = fieldsOf es := rfl

@[simp]
theorem fieldsOf_known (f : Field) (t : Tree) (es : List (Option Field × Tree)) :
    fieldsOf ((some f, t) :: es) = f :: fieldsOf es := rfl

variable (levels SpellsChildren) in
/-- The values of the fields are spelled in the list, none twice, and the others may be left out. -/
structure Entries (r : Region Float) (es : List (Option Field × Tree)) : Prop where
  spells : ∀ f t, (some f, t) ∈ es → SpellsField levels SpellsChildren f (r.get f) t
  once : (fieldsOf es).Nodup
  absent : ∀ f, f ∉ fieldsOf es → f.absent = some (r.get f)

/-- What a draft holds in the end was spelled, or was there before. -/
theorem Fills.spelled {es : List (Option Field × Tree)} {d d' : Draft}
    (h : Fills levels SpellsChildren es d d') :
    (∀ f t, (some f, t) ∈ es → ∃ x, d'.get f = some x ∧ SpellsField levels SpellsChildren f x t) ∧
      (fieldsOf es).Nodup ∧ (∀ f ∈ fieldsOf es, d.get f = none) ∧
        ∀ f, f ∉ fieldsOf es → d'.get f = d.get f := by
  induction h with
  | nil => simp [fieldsOf]
  | unknown _ ih =>
      obtain ⟨hspells, hrest⟩ := ih
      exact ⟨fun f t ht => hspells f t (by simpa using ht), hrest⟩
  | @known f x t es d d' hfresh hx _ ih =>
      obtain ⟨hspells, hnodup, hnone, hkept⟩ := ih
      -- the field is not set again
      have hf : f ∉ fieldsOf es := fun hmem => by simpa using hnone f hmem
      refine ⟨fun g u hu => ?_, List.nodup_cons.mpr ⟨hf, hnodup⟩, ?_, fun g hg => ?_⟩
      · rcases List.mem_cons.mp hu with he | hu
        · cases he
          exact ⟨x, by rw [hkept _ hf, Draft.get_set], hx⟩
        · exact hspells g u hu
      · refine List.forall_mem_cons.mpr ⟨hfresh, fun g hg => ?_⟩
        have hne : g ≠ f := fun he => hf (he ▸ hg)
        rw [← Draft.get_set_of_ne x hne, hnone g hg]
      · obtain ⟨hne, hg⟩ : g ≠ f ∧ g ∉ fieldsOf es := by simpa using hg
        rw [hkept g hg, Draft.get_set_of_ne x hne]

/-- Values that spell the fields of a region fill a draft with them. -/
theorem exists_fills {r : Region Float} {es : List (Option Field × Tree)}
    (hspells : ∀ f t, (some f, t) ∈ es → SpellsField levels SpellsChildren f (r.get f) t) :
    ∀ {d : Draft}, (fieldsOf es).Nodup → (∀ f ∈ fieldsOf es, d.get f = none) →
      ∃ d', Fills levels SpellsChildren es d d' ∧ ∀ f ∈ fieldsOf es, d'.get f = some (r.get f) := by
  induction es with
  | nil => exact fun _ _ => ⟨_, .nil, by simp [fieldsOf]⟩
  | cons e es ih =>
      intro d hnodup hnone
      obtain ⟨key, t⟩ := e
      have hrest := fun g u hu => hspells g u (List.mem_cons_of_mem _ hu)
      cases key with
      | none =>
          obtain ⟨d', hfills, hget⟩ := ih hrest hnodup hnone
          exact ⟨d', .unknown hfills, hget⟩
      | some f =>
          obtain ⟨hf, hnodup⟩ : f ∉ fieldsOf es ∧ (fieldsOf es).Nodup := by simpa using hnodup
          obtain ⟨hfresh, hnone⟩ := List.forall_mem_cons.mp hnone
          have hnone' : ∀ g ∈ fieldsOf es, (d.set f (r.get f)).get g = none := fun g hg => by
            have hne : g ≠ f := fun he => hf (he ▸ hg)
            rw [Draft.get_set_of_ne _ hne, hnone g hg]
          obtain ⟨d', hfills, hget⟩ := ih hrest hnodup hnone'
          have hx := hspells f t List.mem_cons_self
          refine ⟨d', .known hfresh hx hfills, List.forall_mem_cons.mpr ⟨?_, hget⟩⟩
          rw [hfills.spelled.2.2.2 f hf, Draft.get_set]

/-- What fills an empty draft that makes a region are the values of its fields. -/
theorem exists_fills_iff {r : Region Float} {es : List (Option Field × Tree)} :
    (∃ d, Fills levels SpellsChildren es .empty d ∧ d.finish = .ok r) ↔
      Entries levels SpellsChildren r es := by
  constructor
  · rintro ⟨d, hfills, hfinish⟩
    rw [Draft.finish_eq_ok_iff] at hfinish
    obtain ⟨hspells, hnodup, -, hkept⟩ := hfills.spelled
    refine ⟨fun f t ht => ?_, hnodup, fun f hf => ?_⟩
    · obtain ⟨x, hx, hspells⟩ := hspells f t ht
      have hget := hfinish f
      rw [hx, Option.some_or] at hget
      exact Option.some.inj hget ▸ hspells
    · have hget := hfinish f
      rwa [hkept f hf, Draft.get_empty, Option.none_or] at hget
  · intro h
    obtain ⟨d, hfills, hget⟩ := exists_fills h.spells (d := .empty) h.once fun f _ => by simp
    refine ⟨d, hfills, Draft.finish_eq_ok_iff.mpr fun f => ?_⟩
    by_cases hf : f ∈ fieldsOf es
    · rw [hget f hf, Option.some_or]
    · rw [hfills.spelled.2.2.2 f hf, Draft.get_empty, Option.none_or, h.absent f hf]

/-! ## Objects and arrays -/

/-- The members of an object, each as the value of the field that its key names. -/
def keyed (ms : List (Option (List Char) × Tree)) : List (Option Field × Tree) :=
  ms.map fun (key, t) => (Field.ofKey? key, t)

/-- The elements of an array as the values of fields. -/
def listed (fs : List Field) (items : List Tree) : List (Option Field × Tree) :=
  (fs.zip items).map fun (f, t) => (some f, t)

theorem fills_cons_iff {e : Option Field × Tree} {es : List (Option Field × Tree)} {d d' : Draft} :
    Fills levels SpellsChildren (e :: es) d d' ↔ ∃ d₁,
      Fills levels SpellsChildren [e] d d₁ ∧ Fills levels SpellsChildren es d₁ d' := by
  constructor
  · intro h
    cases h with
    | unknown h => exact ⟨d, .unknown .nil, h⟩
    | known hfresh hx h => exact ⟨_, .known hfresh hx .nil, h⟩
  · rintro ⟨d₁, h, hrest⟩
    cases h with
    | unknown h =>
        cases h
        exact .unknown hrest
    | known hfresh hx h =>
        cases h
        exact .known hfresh hx hrest

theorem readMember_eq_ok_iff (h : Accepts children SpellsChildren)
    (hnull : ∀ cs, ¬SpellsChildren cs .null) {key : String} {d d' : Draft} {ts rest : List Token} :
    readMember levels children key d ts = .ok (d', rest) ↔
      ∃ t : Tree, ts = .colon :: (t.tokens ++ rest) ∧
        Fills levels SpellsChildren [(Field.ofName? key, t)] d d' := by
  unfold readMember
  cases hkey : Field.ofName? key with
  | none =>
      constructor
      · intro hread
        obtain ⟨⟨⟨⟩, us⟩, hcolon, hread⟩ := Except.bind_eq_ok_iff.mp hread
        obtain ⟨⟨⟨⟩, vs⟩, hskip, hdone⟩ := Except.bind_eq_ok_iff.mp hread
        cases hdone
        obtain rfl := Json.Read.colon_eq_ok_iff.mp hcolon
        obtain ⟨t, rfl, -⟩ := (Json.Read.accepts_skip _ _ _).mp hskip
        exact ⟨t, rfl, .unknown .nil⟩
      · rintro ⟨t, rfl, hfills⟩
        cases hfills with
        | unknown hfills =>
            cases hfills
            have hskip := (Json.Read.accepts_skip _ () rest).mpr ⟨t, rfl, trivial⟩
            exact Except.bind_eq_ok_iff.mpr ⟨_, rfl, Except.bind_eq_ok_iff.mpr ⟨_, hskip, rfl⟩⟩
  | some f =>
      constructor
      · intro hread
        simp only at hread
        split at hread
        · cases hread
        · next hfresh =>
            obtain ⟨⟨⟨⟩, us⟩, hcolon, hfield⟩ := Except.bind_eq_ok_iff.mp hread
            obtain rfl := Json.Read.colon_eq_ok_iff.mp hcolon
            obtain ⟨t, x, rfl, hx, rfl⟩ := (readField_eq_ok_iff h hnull).mp hfield
            have hnone := Draft.has_eq_false_iff.mp (Bool.eq_false_iff.mpr hfresh)
            exact ⟨t, rfl, .known hnone hx .nil⟩
      · rintro ⟨t, rfl, hfills⟩
        cases hfills with
        | @known _ x _ _ _ _ hnone hx hfills =>
            cases hfills
            have hfresh := Bool.eq_false_iff.mp (Draft.has_eq_false_iff.mpr hnone)
            refine (if_neg hfresh).trans ?_
            exact Except.bind_eq_ok_iff.mpr
              ⟨_, rfl, (readField_eq_ok_iff h hnull).mpr ⟨t, x, rfl, hx, rfl⟩⟩

theorem runs_iff_fills {ms : List (Option (List Char) × Tree)} : ∀ {d d' : Draft},
    Json.Read.Runs (fun key t d d' => Fills levels SpellsChildren [(Field.ofName? key, t)] d d')
      ms d d' ↔ (∀ m ∈ ms, m.1.isSome = true) ∧ Fills levels SpellsChildren (keyed ms) d d' := by
  induction ms with
  | nil =>
      intro d d'
      constructor
      · intro h
        cases h
        exact ⟨by simp, .nil⟩
      · rintro ⟨-, h⟩
        cases h
        exact .nil
  | cons m ms ih =>
      intro d d'
      constructor
      · intro h
        cases h with
        | @cons key t _ _ s' _ hstep hruns =>
            obtain ⟨hkeys, hfills⟩ := ih.mp hruns
            refine ⟨List.forall_mem_cons.mpr ⟨rfl, hkeys⟩, fills_cons_iff.mpr ⟨s', ?_, hfills⟩⟩
            simpa [Field.ofKey?, String.ofList_toList] using hstep
      · rintro ⟨hkeys, hfills⟩
        obtain ⟨key, t⟩ := m
        obtain ⟨hkey, hothers⟩ := List.forall_mem_cons.mp hkeys
        obtain ⟨cs, rfl⟩ := Option.isSome_iff_exists.mp hkey
        obtain ⟨d₁, hstep, hrest⟩ := fills_cons_iff.mp hfills
        have hruns := ih.mpr ⟨hothers, hrest⟩
        rw [← String.toList_ofList (l := cs)]
        exact .cons hstep hruns

/-- An object is read as a region if its members are the values of the region's fields. -/
theorem readObject_eq_ok_iff (h : Accepts children SpellsChildren)
    (hnull : ∀ cs, ¬SpellsChildren cs .null) {r : Region Float} {ts rest : List Token} :
    readObject levels children ts = .ok (r, rest) ↔
      ∃ ms, ts = Tree.memberTokens true ms ++ .closeBrace :: rest ∧
        (∀ m ∈ ms, m.1.isSome = true) ∧ Entries levels SpellsChildren r (keyed ms) := by
  have hmembers : ∀ {d : Draft} {rest : List Token},
      Json.Read.members (readMember levels children) (ts.length + 1) true .empty ts =
        .ok (d, rest) ↔ ∃ ms, ts = Tree.memberTokens true ms ++ .closeBrace :: rest ∧
          (∀ m ∈ ms, m.1.isSome = true) ∧ Fills levels SpellsChildren (keyed ms) .empty d := by
    intro d rest
    refine Iff.trans (Json.Read.members_eq_ok_iff (fun _ _ _ _ _ => ?_)
      (Nat.lt_succ_self ts.length)) (exists_congr fun ms => and_congr_right fun _ => runs_iff_fills)
    exact readMember_eq_ok_iff h hnull
  unfold readObject
  rw [Except.bind_eq_ok_iff]
  constructor
  · rintro ⟨⟨d, us⟩, hread, hmade⟩
    obtain ⟨ms, hts, hkeys, hfills⟩ := hmembers.mp hread
    simp only at hmade
    split at hmade
    · cases hmade
    · next r' hfinish =>
        cases hmade
        exact ⟨ms, hts, hkeys, exists_fills_iff.mp ⟨d, hfills, hfinish⟩⟩
  · rintro ⟨ms, hts, hkeys, hentries⟩
    obtain ⟨d, hfills, hfinish⟩ := exists_fills_iff.mpr hentries
    refine ⟨(d, rest), hmembers.mpr ⟨ms, hts, hkeys, hfills⟩, ?_⟩
    simp only [hfinish]

theorem exists_of_readFields (h : Accepts children SpellsChildren)
    (hnull : ∀ cs, ¬SpellsChildren cs .null) {fs : List Field} : ∀ {first : Bool} {d d' : Draft}
    {ts rest : List Token}, fs.Nodup → (∀ f ∈ fs, d.get f = none) →
      readFields levels children fs first d ts = .ok (d', rest) →
        ∃ items : List Tree, ts = Tree.elementTokens first items ++ rest ∧
          items.length ≤ fs.length ∧ Fills levels SpellsChildren (listed fs items) d d' := by
  induction fs with
  | nil =>
      intro first d d' ts rest _ _ hread
      cases hread
      exact ⟨[], rfl, Nat.le_refl _, .nil⟩
  | cons f fs ih =>
      intro first d d' ts rest hnodup hnone hread
      obtain ⟨hf, hnodup⟩ := List.nodup_cons.mp hnodup
      obtain ⟨hfresh, hnone⟩ := List.forall_mem_cons.mp hnone
      obtain ⟨⟨more, us⟩, hnext, hmore⟩ := Except.bind_eq_ok_iff.mp hread
      cases more with
      | false =>
          obtain ⟨vs, rfl, rfl⟩ := Json.Read.exists_of_nextElement_false hnext
          cases hmore
          exact ⟨[], rfl, Nat.zero_le _, .nil⟩
      | true =>
          obtain rfl := Json.Read.exists_of_nextElement hnext
          obtain ⟨⟨d₁, vs⟩, hfield, hrest⟩ := Except.bind_eq_ok_iff.mp hmore
          obtain ⟨t, x, rfl, hx, rfl⟩ := (readField_eq_ok_iff h hnull).mp hfield
          have hnone' : ∀ g ∈ fs, (d.set f x).get g = none := fun g hg => by
            have hne : g ≠ f := fun he => hf (he ▸ hg)
            rw [Draft.get_set_of_ne _ hne, hnone g hg]
          obtain ⟨items, rfl, hlength, hfills⟩ := ih hnodup hnone' hrest
          exact ⟨t :: items, by simp [Tree.elementTokens], Nat.succ_le_succ hlength,
            .known hfresh hx hfills⟩

theorem readFields_of_fills (h : Accepts children SpellsChildren)
    (hnull : ∀ cs, ¬SpellsChildren cs .null) {fs : List Field} : ∀ {items : List Tree}
    {first : Bool} {d d' : Draft} {rest : List Token}, items.length ≤ fs.length →
      Fills levels SpellsChildren (listed fs items) d d' →
        readFields levels children fs first d
            (Tree.elementTokens first items ++ .closeBracket :: rest) =
          .ok (d', .closeBracket :: rest) := by
  induction fs with
  | nil =>
      intro items first d d' rest hlength hfills
      obtain rfl := List.eq_nil_of_length_eq_zero (Nat.le_zero.mp hlength)
      cases hfills
      rfl
  | cons f fs ih =>
      intro items first d d' rest hlength hfills
      cases items with
      | nil =>
          cases hfills
          exact Except.bind_eq_ok_iff.mpr ⟨(false, .closeBracket :: rest), rfl, rfl⟩
      | cons t items =>
          cases hfills with
          | @known _ x _ _ _ _ hfresh hx hfills =>
              simp only [Tree.elementTokens, List.append_assoc]
              let us := Tree.elementTokens false items ++ .closeBracket :: rest
              have hnext := Json.Read.nextElement_tokens first t us
              have hfield : readField levels children f d (t.tokens ++ us) = .ok (d.set f x, us) :=
                (readField_eq_ok_iff h hnull).mpr ⟨t, x, rfl, hx, rfl⟩
              exact Except.bind_eq_ok_iff.mpr ⟨_, hnext, Except.bind_eq_ok_iff.mpr
                ⟨_, hfield, ih (Nat.le_of_succ_le_succ hlength) hfills⟩⟩

/-- An array is read as a region if its elements are the values of the region's first fields. -/
theorem readPositional_eq_ok_iff (h : Accepts children SpellsChildren)
    (hnull : ∀ cs, ¬SpellsChildren cs .null) {r : Region Float} {ts rest : List Token} :
    readPositional levels children ts = .ok (r, rest) ↔
      ∃ items, ts = Tree.elementTokens true items ++ .closeBracket :: rest ∧
        items.length ≤ Field.all.length ∧
          Entries levels SpellsChildren r (listed Field.all items) := by
  unfold readPositional
  rw [Except.bind_eq_ok_iff]
  constructor
  · rintro ⟨⟨d, us⟩, hread, hmade⟩
    obtain ⟨items, rfl, hlength, hfills⟩ :=
      exists_of_readFields h hnull Field.nodup_all (fun f _ => Draft.get_empty f) hread
    simp only at hmade
    split at hmade
    · cases hmade
    · next r' hfinish =>
        obtain ⟨⟨⟨⟩, vs⟩, hclose, hmade⟩ := Except.bind_eq_ok_iff.mp hmade
        cases hmade
        obtain rfl := Json.Read.closeArray_eq_ok_iff.mp hclose
        exact ⟨items, rfl, hlength, exists_fills_iff.mp ⟨d, hfills, hfinish⟩⟩
  · rintro ⟨items, rfl, hlength, hentries⟩
    obtain ⟨d, hfills, hfinish⟩ := exists_fills_iff.mpr hentries
    refine ⟨_, readFields_of_fills h hnull hlength hfills, ?_⟩
    simp only [hfinish]
    rfl

variable (levels SpellsChildren) in
/-- A region in one of its two forms, whose fields have some levels left. -/
def Form (r : Region Float) (t : Tree) : Prop :=
  (∃ ms, t = .object ms ∧ (∀ m ∈ ms, m.1.isSome = true) ∧
      Entries levels SpellsChildren r (keyed ms)) ∨
    ∃ items, t = .array items ∧ items.length ≤ Field.all.length ∧
      Entries levels SpellsChildren r (listed Field.all items)

end

/-! ## Spellings of regions -/

/-- The tree spells the region, and nests brackets no deeper than some levels where this counts. -/
def Spells : Nat → Region Float → Tree → Prop
  | 0 => fun _ _ => False
  | levels + 1 => Form levels (children levels)
where
  /-- The array spells the regions. -/
  children : Nat → List (Region Float) → Tree → Prop
  | 0 => fun _ _ => False
  | levels + 1 => SpellsList (levels + 1) (Spells levels)

theorem not_spells_children_null (levels : Nat) (cs : List (Region Float)) :
    ¬Spells.children levels cs .null := by
  cases levels with
  | zero => exact fun h => h
  | succ levels =>
      rintro ⟨-, items, hnull, -⟩
      cases hnull

theorem accepts_children_zero : Accepts (read.children 0) (Spells.children 0) := by
  intro ts cs rest
  refine iff_of_false (fun h => ?_) ?_
  · unfold read.children Json.Read.list at h
    split at h <;> cases h
  · rintro ⟨t, -, h⟩
    exact h

theorem accepts_read (levels : Nat) :
    Accepts (read levels) (Spells levels) ∧
      Accepts (read.children levels) (Spells.children levels) := by
  have hread : ∀ {levels : Nat}, Accepts (read.children levels) (Spells.children levels) →
      Accepts (read (levels + 1)) (Spells (levels + 1)) := by
    intro levels h ts r rest
    have hnull := not_spells_children_null levels
    have hobject := @readObject_eq_ok_iff levels _ _ h hnull r
    have harray := @readPositional_eq_ok_iff levels _ _ h hnull r
    constructor
    · intro hr
      unfold read at hr
      split at hr
      · cases hr
      · cases hr
      · next levels' us hlevels =>
          cases hlevels
          obtain ⟨ms, rfl, hkeys, hentries⟩ := hobject.mp hr
          exact ⟨.object ms, by simp [Tree.tokens], Or.inl ⟨ms, rfl, hkeys, hentries⟩⟩
      · next levels' us hlevels =>
          cases hlevels
          obtain ⟨items, rfl, hlength, hentries⟩ := harray.mp hr
          exact ⟨.array items, by simp [Tree.tokens], Or.inr ⟨items, rfl, hlength, hentries⟩⟩
      · cases hr
    · rintro ⟨t, rfl, ⟨ms, rfl, hkeys, hentries⟩ | ⟨items, rfl, hlength, hentries⟩⟩
      · simp only [Tree.tokens, List.cons_append, List.nil_append, List.append_assoc]
        exact hobject.mpr ⟨ms, rfl, hkeys, hentries⟩
      · simp only [Tree.tokens, List.cons_append, List.nil_append, List.append_assoc]
        exact harray.mpr ⟨items, rfl, hlength, hentries⟩
  induction levels with
  | zero =>
      refine ⟨fun ts r rest => iff_of_false (fun h => ?_) ?_, accepts_children_zero⟩
      · unfold read at h
        split at h
        · cases h
        · cases h
        · next hlevels => cases hlevels
        · next hlevels => cases hlevels
        · cases h
      · rintro ⟨t, -, h⟩
        exact h
  | succ levels ih => exact ⟨hread ih.2, Json.Read.accepts_list (levels + 1) ih.1⟩

/-- A text is read as a region if its tokens are those of a spelling of the region. -/
theorem ofDocument_eq_ok_iff {s : String} {r : Region Float} :
    ofDocument s = .ok r ↔
      ∃ t : Tree, Json.tokens s.toList = t.tokens ∧ Spells Json.maxDepth r t := by
  unfold ofDocument
  rw [Except.bind_eq_ok_iff]
  constructor
  · rintro ⟨⟨r', rest⟩, hread, hrest⟩
    obtain ⟨t, ht, hspells⟩ := ((accepts_read _).1 _ _ _).mp hread
    simp only at hrest
    split at hrest
    · next hempty =>
        cases hrest
        obtain rfl := List.isEmpty_iff.mp hempty
        exact ⟨t, by rw [ht, List.append_nil], hspells⟩
    · cases hrest
  · rintro ⟨t, ht, hspells⟩
    refine ⟨(r, []), ((accepts_read _).1 _ _ _).mpr ⟨t, by rw [ht, List.append_nil], hspells⟩, rfl⟩

/-! ## Repeated fields -/

/-- The parts of an object or an array, each as the value of the field that it would be for a
region. -/
def entriesOf : Tree → List (Option Field × Tree)
  | .object ms => keyed ms
  | .array items => listed Field.all items
  | _ => []

/-- A field comes twice where a region is written, or where one is among its children. -/
inductive Repeats : Tree → Prop where
  | here {t} : ¬(fieldsOf (entriesOf t)).Nodup → Repeats t
  | child {t items u} : (some .children, .array items) ∈ entriesOf t → u ∈ items → Repeats u →
      Repeats t

theorem entries_of_spells {levels : Nat} {r : Region Float} {t : Tree}
    (h : Spells (levels + 1) r t) : Entries levels (Spells.children levels) r (entriesOf t) := by
  rcases h with ⟨ms, rfl, -, h⟩ | ⟨items, rfl, -, h⟩
  · exact h
  · exact h

/-- No spelling of a region has a field twice. -/
theorem not_spells_of_repeats {t : Tree} (h : Repeats t) :
    ∀ {levels : Nat} {r : Region Float}, ¬Spells levels r t := by
  induction h with
  | here hrepeats =>
      rintro (_ | levels) r h
      · exact h
      · exact hrepeats (entries_of_spells h).once
  | @child t items u hmem hu _ ih =>
      rintro (_ | levels) r h
      · exact h
      · have hspells : SpellsOptional (Spells.children levels) r.children (.array items) :=
          (entries_of_spells h).spells .children _ hmem
        cases hc : r.children with
        | none =>
            rw [hc] at hspells
            cases hspells
        | some cs =>
            rw [hc] at hspells
            cases levels with
            | zero => exact hspells
            | succ levels =>
                obtain ⟨-, items', he, hcs⟩ := hspells
                cases he
                obtain ⟨c, -, hc⟩ := exists_left_of_forall₂ hcs hu
                exact ih hc

/-- A region is read from each of its spellings, and nothing is read where a field comes twice. -/
theorem reads_alike {s : String} {t : Tree} (h : Json.tokens s.toList = t.tokens) :
    (∀ r, Spells Json.maxDepth r t → ofDocument s = .ok r) ∧
      (Repeats t → ∀ r, ofDocument s ≠ .ok r) := by
  refine ⟨fun r hspells => ofDocument_eq_ok_iff.mpr ⟨t, h, hspells⟩, fun hrepeats r hread => ?_⟩
  obtain ⟨t', ht', hspells⟩ := ofDocument_eq_ok_iff.mp hread
  obtain ⟨rfl, -⟩ := t.tokens_inj t' [] [] (by rw [← h, ht'])
  exact not_spells_of_repeats hrepeats hspells

/-- A sequence of two tasks, of which the one is written as an array and the other as an object, and
a sequence in which a task has two ids. -/
theorem reads_alike_sample :
    let text := "\x7b\"note\": [\x7b\x7d], \"children\": [[\"a\", \"Task\", null, 1], " ++
      "\x7b\"impacts\": [2], \"type\": \x7b\"task\": null\x7d, \"id\": \"b\"\x7d], " ++
      "\"id\": \"s\", \"type\": \"sequential\", \"label\": null\x7d"
    let repeated := "\x7b\"children\": [\x7b\"id\": \"a\", \"type\": \"task\", \"id\": \"b\"\x7d]\x7d"
    let a : Region Float := ⟨"a", .task, none, 1, none, none, none, none⟩
    let b : Region Float := ⟨"b", .task, none, 0, some [2], none, none, none⟩
    ofDocument text = .ok ⟨"s", .sequential, none, 0, none, some [a, b], none, none⟩ ∧
      ∀ r, ofDocument repeated ≠ .ok r := by
  intro text repeated a b
  let string (s : String) : Tree := .string (some s.toList)
  let number (digit : Char) : Tree := .number ⟨false, [digit], [], none⟩
  let key (s : String) (t : Tree) : Option (List Char) × Tree := (some s.toList, t)
  let first : Tree := .array [string "a", string "Task", .null, number '1']
  let second : Tree := .object [key "impacts" (.array [number '2']),
    key "type" (.object [(some "task".toList, .null)]), key "id" (string "b")]
  let whole : Tree := .object [key "note" (.array [.object []]),
    key "children" (.array [first, second]), key "id" (string "s"),
    key "type" (string "sequential"), key "label" .null]
  let wrong : Tree := .object [key "children" (.array [.object [key "id" (string "a"),
    key "type" (string "task"), key "id" (string "b")]])]
  have hone : SpellsNumber 1 (number '1') := ⟨_, rfl, by decide +kernel⟩
  have htwo : SpellsNumber 2 (number '2') := ⟨_, rfl, by decide +kernel⟩
  have hfirst : Spells 125 a first := by
    refine Or.inr ⟨_, rfl, by decide, fun f t ht => ?_, by decide, ?_⟩
    · obtain ⟨rfl, rfl⟩ | ⟨rfl, rfl⟩ | ⟨rfl, rfl⟩ | ⟨rfl, rfl⟩ : (f = .id ∧ t = string "a") ∨
          (f = .kind ∧ t = string "Task") ∨ (f = .label ∧ t = .null) ∨
            (f = .duration ∧ t = number '1') := by
        simpa [listed, Field.all] using ht
      · exact rfl
      · exact ⟨"Task", Or.inl rfl, Or.inl rfl⟩
      · exact rfl
      · exact hone
    · intro f hf
      cases f <;> first | rfl | exact absurd (by decide) hf
  have hsecond : Spells 125 b second := by
    refine Or.inl ⟨_, rfl, by decide, fun f t ht => ?_, by decide, ?_⟩
    · obtain ⟨rfl, rfl⟩ | ⟨rfl, rfl⟩ | ⟨rfl, rfl⟩ : (f = .impacts ∧ t = .array [number '2']) ∨
          (f = .kind ∧ t = .object [(some "task".toList, .null)]) ∨
            (f = .id ∧ t = string "b") := by
        have hkeys : keyed [key "impacts" (.array [number '2']),
            key "type" (.object [(some "task".toList, .null)]), key "id" (string "b")] =
            [(some .impacts, .array [number '2']),
              (some .kind, .object [(some "task".toList, .null)]), (some .id, string "b")] := rfl
        rw [hkeys] at ht
        simpa using ht
      · exact ⟨by decide, _, rfl, .cons htwo .nil⟩
      · exact ⟨"task", Or.inr rfl, Or.inr ⟨by decide, rfl⟩⟩
      · exact rfl
    · intro f hf
      cases f <;> first | rfl | exact absurd (by decide) hf
  have hwhole : Spells Json.maxDepth ⟨"s", .sequential, none, 0, none, some [a, b], none, none⟩
      whole := by
    refine Or.inl ⟨_, rfl, by decide, fun f t ht => ?_, by decide, ?_⟩
    · obtain ⟨rfl, rfl⟩ | ⟨rfl, rfl⟩ | ⟨rfl, rfl⟩ | ⟨rfl, rfl⟩ :
          (f = .children ∧ t = .array [first, second]) ∨ (f = .id ∧ t = string "s") ∨
            (f = .kind ∧ t = string "sequential") ∨ (f = .label ∧ t = .null) := by
        have hkeys : keyed [key "note" (.array [.object []]),
            key "children" (.array [first, second]), key "id" (string "s"),
            key "type" (string "sequential"), key "label" .null] =
            [(none, .array [.object []]), (some .children, .array [first, second]),
              (some .id, string "s"), (some .kind, string "sequential"), (some .label, .null)] :=
          rfl
        simpa [hkeys] using ht
      · exact ⟨by decide, _, rfl, .cons hfirst (.cons hsecond .nil)⟩
      · exact rfl
      · exact ⟨"sequential", Or.inr rfl, Or.inl rfl⟩
      · exact rfl
    · intro f hf
      cases f <;> first | rfl | exact absurd (by decide) hf
  have hrepeats : Repeats wrong := by
    refine .child (u := .object [key "id" (string "a"), key "type" (string "task"),
      key "id" (string "b")]) List.mem_cons_self List.mem_cons_self (.here (by decide))
  exact ⟨(reads_alike (t := whole) (by decide +kernel)).1 _ hwhole,
    (reads_alike (t := wrong) (by decide +kernel)).2 hrepeats⟩

end Region

end RegionNet
