import RegionNet.Proofs.Lexing
import RegionNet.Proofs.Recovery
import RegionNet.Proofs.Spelling

/-!
# Regions written and read back

A region that was read is read again from its own text, on one line or over many
(`Region.ofDocument_toJson`). Its tree is a spelling of the region (`Region.spells_toJson`): as to
how deep brackets are nested, each part of it needs no more levels than the part that was read.
-/

namespace RegionNet

open Json (Tree SpellsNumber SpellsText SpellsOptional SpellsList)

namespace Json

/-! ## Numbers and lists -/

theorem spellsNumber_tree {x : Float} (hx : x.isFinite = true) :
    SpellsNumber x (Json.number x).tree := by
  rw [tree, if_pos hx]
  exact ⟨_, rfl, Decimal.toFloat?_numeral numberStyle hx⟩

/-- What was read as a number is written as one. -/
theorem SpellsNumber.tree {x : Float} {t : Tree} (h : SpellsNumber x t) :
    SpellsNumber x (Json.number x).tree := by
  obtain ⟨n, -, hn⟩ := h
  exact spellsNumber_tree (Numeral.isFinite_of_toFloat? hn)

theorem SpellsList.tree {β : Type} {Spells : β → Tree → Prop} {write : β → Json} {levels : Nat}
    {xs : List β} {t : Tree} (h : SpellsList levels Spells xs t)
    (hwrite : ∀ x t, Spells x t → Spells x (write x).tree) :
    SpellsList levels Spells xs (Json.array (xs.map write)).tree := by
  obtain ⟨hlevels, items, -, hitems⟩ := h
  refine ⟨hlevels, _, rfl, ?_⟩
  rw [trees_eq, List.map_map, List.forall₂_map_right_iff, List.forall₂_same]
  intro x hx
  obtain ⟨t, -, ht⟩ := exists_left_of_forall₂ hitems.flip hx
  exact hwrite x t ht

theorem tree_present (members : List (String × Option Json)) : (present members).tree =
    .object (members.filterMap fun m => m.2.map fun v => (some m.1.toList, v.tree)) := by
  rw [present, tree, memberTrees_eq, List.map_filterMap]
  congr 2
  ext1 m
  rw [Option.map_map]
  rfl

end Json

namespace Region

/-! ## Fields -/

/-- The value of a field as it is written, if it is. -/
def written (r : Region Float) : Field → Option Json
  | .id => some (.string r.id)
  | .kind => some (.string r.kind.keyword)
  | .label => r.label.map .string
  | .duration => some (.number r.duration)
  | .impacts => r.impacts.map fun v => .array (v.map .number)
  | .children => r.children.map fun cs => .array (cs.map toJson)
  | .distribution => r.distribution.map distributionJson
  | .bound => r.bound.map .number

theorem toJsons_eq (rs : List (Region Float)) : toJsons rs = rs.map toJson := by
  induction rs with
  | nil => rfl
  | cons r rs ih => rw [toJsons, ih, List.map_cons]

theorem toJson_eq (r : Region Float) :
    r.toJson = .present (Field.all.map fun f => (f.name, r.written f)) := by
  obtain ⟨id, kind, label, duration, impacts, children, distribution, bound⟩ := r
  cases children with
  | none => rfl
  | some cs =>
      rw [toJson, toJsons_eq]
      rfl

section

variable {levels : Nat} {SpellsChildren : List (Region Float) → Tree → Prop} {r : Region Float}
  {v : Json}

theorem spellsDistribution_tree {d : Distribution Float} {t : Tree}
    (h : SpellsDistribution levels d t) :
    SpellsDistribution levels d (distributionJson d).tree := by
  cases d with
  | single p => exact Json.SpellsNumber.tree h
  | branches ps => exact Json.SpellsList.tree h fun _ _ => Json.SpellsNumber.tree

/-- Something that was spelled as something is spelled by what is written for it. -/
theorem spellsOptional_written {β : Type} {Spells : β → Tree → Prop} {write : β → Json}
    {x : Option β} {t : Tree} (h : SpellsOptional Spells x t) (hv : x.map write = some v)
    (hwrite : ∀ x t, Spells x t → Spells x (write x).tree) : SpellsOptional Spells x v.tree := by
  cases x with
  | none => cases hv
  | some x =>
      cases hv
      exact hwrite x t h

/-- A field that was spelled in some way is spelled by what is written for it. -/
theorem spellsField_written
    (hchildren : ∀ cs t, SpellsChildren cs t → SpellsChildren cs (Json.array (cs.map toJson)).tree)
    {f : Field} {t : Tree} (h : SpellsField levels SpellsChildren f (r.get f) t)
    (hv : r.written f = some v) : SpellsField levels SpellsChildren f (r.get f) v.tree := by
  cases f
  case id =>
    cases hv
    exact rfl
  case kind =>
    cases hv
    exact ⟨r.kind.keyword, Or.inr rfl, Or.inl rfl⟩
  case label => exact spellsOptional_written h hv fun _ _ _ => rfl
  case duration =>
    cases hv
    exact Json.SpellsNumber.tree h
  case impacts =>
    exact spellsOptional_written h hv fun _ _ h =>
      Json.SpellsList.tree h fun _ _ => Json.SpellsNumber.tree
  case children => exact spellsOptional_written h hv hchildren
  case distribution => exact spellsOptional_written h hv fun _ _ => spellsDistribution_tree
  case bound => exact spellsOptional_written h hv fun _ _ => Json.SpellsNumber.tree

/-- A field that was left out might have been spelled. -/
theorem exists_spellsField_of_absent {f : Field} (h : f.absent = some (r.get f)) :
    ∃ t, SpellsField levels SpellsChildren f (r.get f) t := by
  have hnone : ∀ {β : Type} {Spells : β → Tree → Prop} {x : Option β}, some none = some x →
      SpellsOptional Spells x .null := by
    intro β Spells x hx
    cases hx
    rfl
  cases f
  case id => cases h
  case kind => cases h
  case duration =>
    have hzero : 0 = r.duration := Option.some.inj h
    have hfinite : r.duration.isFinite = true := by rw [← hzero]; rfl
    exact ⟨_, Json.spellsNumber_tree hfinite⟩
  all_goals exact ⟨.null, hnone h⟩

theorem absent_of_written {f : Field} (h : r.written f = none) : f.absent = some (r.get f) := by
  cases f
  case id => cases h
  case kind => cases h
  case duration => cases h
  case label => exact congrArg some (Option.map_eq_none_iff.mp h).symm
  case impacts => exact congrArg some (Option.map_eq_none_iff.mp h).symm
  case children => exact congrArg some (Option.map_eq_none_iff.mp h).symm
  case distribution => exact congrArg some (Option.map_eq_none_iff.mp h).symm
  case bound => exact congrArg some (Option.map_eq_none_iff.mp h).symm

/-! ## Regions -/

/-- The fields that are written, with the trees of their values. -/
theorem keyed_written (r : Region Float) :
    keyed (Field.all.filterMap fun f => (r.written f).map fun v => (some f.name.toList, v.tree)) =
      Field.all.filterMap fun f => (r.written f).map fun v => (some f, v.tree) := by
  rw [keyed, List.map_filterMap]
  apply List.filterMap_congr
  intro f _
  have hkey : Field.ofKey? (some f.name.toList) = some f := by
    rw [Field.ofKey?, Option.bind_some, String.ofList_toList, Field.ofName?_name]
  rw [Option.map_map]
  cases r.written f <;> simp [hkey]

theorem fieldsOf_written (r : Region Float) :
    fieldsOf (Field.all.filterMap fun f => (r.written f).map fun v => (some f, v.tree)) =
      Field.all.filter fun f => (r.written f).isSome := by
  rw [fieldsOf, List.filterMap_filterMap, ← List.filterMap_eq_filter]
  apply List.filterMap_congr
  intro f _
  cases h : r.written f <;> simp [Option.guard, h]

theorem tree_toJson (r : Region Float) : r.toJson.tree = .object
    (Field.all.filterMap fun f => (r.written f).map fun v => (some f.name.toList, v.tree)) := by
  rw [toJson_eq, Json.tree_present, List.filterMap_map]
  rfl

/-- A region that was spelled in some way is spelled by what is written for it. -/
theorem form_toJson {es : List (Option Field × Tree)}
    (hchildren : ∀ cs t, SpellsChildren cs t → SpellsChildren cs (Json.array (cs.map toJson)).tree)
    (h : Entries levels SpellsChildren r es) : Form levels SpellsChildren r r.toJson.tree := by
  -- what was left out is spelled as well, by null or by zero
  have hspells : ∀ f, ∃ t, SpellsField levels SpellsChildren f (r.get f) t := by
    intro f
    by_cases hf : f ∈ fieldsOf es
    · obtain ⟨⟨_, t⟩, he, rfl⟩ := List.mem_filterMap.mp hf
      exact ⟨t, h.spells f t he⟩
    · exact exists_spellsField_of_absent (h.absent f hf)
  refine Or.inl ⟨_, r.tree_toJson, fun m hm => ?_, ?_⟩
  · obtain ⟨f, -, hf⟩ := List.mem_filterMap.mp hm
    obtain ⟨v, -, rfl⟩ := Option.map_eq_some_iff.mp hf
    rfl
  rw [keyed_written]
  refine ⟨fun f t ht => ?_, ?_, fun f hf => ?_⟩
  · obtain ⟨g, -, hg⟩ := List.mem_filterMap.mp ht
    obtain ⟨v, hv, he⟩ := Option.map_eq_some_iff.mp hg
    cases he
    obtain ⟨t, ht⟩ := hspells f
    exact spellsField_written hchildren ht hv
  · rw [fieldsOf_written]
    exact Field.nodup_all.filter _
  · rw [fieldsOf_written, List.mem_filter, not_and] at hf
    refine absent_of_written ?_
    simpa using hf f.mem_all

end

theorem spells_toJson (levels : Nat) :
    (∀ r t, Spells levels r t → Spells levels r r.toJson.tree) ∧
      ∀ cs t, Spells.children levels cs t →
        Spells.children levels cs (Json.array (cs.map toJson)).tree := by
  induction levels with
  | zero => exact ⟨fun _ _ h => h, fun _ _ h => h⟩
  | succ levels ih =>
      refine ⟨fun r t h => form_toJson ih.2 (entries_of_spells h), fun cs t h => ?_⟩
      exact Json.SpellsList.tree h ih.1

end Region

end RegionNet
