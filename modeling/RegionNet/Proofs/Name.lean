import RegionNet.Net.Basic
import RegionNet.Proofs.Numeral

/-!
# Names of nodes

A place is named by the letter `p` and its number, a transition by the letter `t` and its number.
The number can be read off the name, and the letter tells the two kinds of nodes apart: so nodes
that share their name are one node (`Node.name_injective`).
-/

namespace RegionNet

/-! ## The text of a name -/

theorem PlaceId.toList_name (p : PlaceId) : p.name.toList = 'p' :: digits p.index := by
  rw [name, String.toList_append, Nat.toString_eq_repr, Nat.toList_repr]
  rfl

theorem TransitionId.toList_name (t : TransitionId) : t.name.toList = 't' :: digits t.index := by
  rw [name, String.toList_append, Nat.toString_eq_repr, Nat.toList_repr]
  rfl

/-- The number in a name. -/
def numberIn (name : String) : Nat := valueOfDigits 0 name.toList.tail

/-! ## Reading names -/

namespace PlaceId

/-- The place that has a name. -/
def ofName (name : String) : PlaceId := ⟨numberIn name⟩

@[simp] theorem numberIn_name (p : PlaceId) : numberIn p.name = p.index := by
  rw [numberIn, toList_name, List.tail_cons, valueOfDigits_digits]

@[simp] theorem ofName_name (p : PlaceId) : ofName p.name = p := congrArg mk p.numberIn_name

theorem name_injective : Function.Injective name := Function.LeftInverse.injective ofName_name

end PlaceId

namespace TransitionId

/-- The transition that has a name. -/
def ofName (name : String) : TransitionId := ⟨numberIn name⟩

@[simp] theorem numberIn_name (t : TransitionId) : numberIn t.name = t.index := by
  rw [numberIn, toList_name, List.tail_cons, valueOfDigits_digits]

@[simp] theorem ofName_name (t : TransitionId) : ofName t.name = t := congrArg mk t.numberIn_name

theorem name_injective : Function.Injective name := Function.LeftInverse.injective ofName_name

end TransitionId

/-- No place is named like a transition. -/
theorem PlaceId.name_ne_name (p : PlaceId) (t : TransitionId) : p.name ≠ t.name := by
  intro h
  have htext := congrArg String.toList h
  rw [p.toList_name, t.toList_name] at htext
  exact absurd (List.cons.inj htext).1 (by decide)

theorem Node.name_injective : Function.Injective Node.name := by
  intro a b h
  cases a with
  | place p =>
      cases b with
      | place q => exact congrArg Node.place (PlaceId.name_injective h)
      | transition t => exact absurd h (p.name_ne_name t)
  | transition t =>
      cases b with
      | place q => exact absurd h.symm (q.name_ne_name t)
      | transition u => exact congrArg Node.transition (TransitionId.name_injective h)

end RegionNet
