/-!
# Splitting text

The parts of a text between separators. There is always one part more than there are separators.
-/

namespace RegionNet.Text

/-- The parts of a text between occurrences of a character. -/
def split (separator : Char) : List Char → List (List Char)
  | [] => [[]]
  | c :: cs =>
    if c = separator then [] :: split separator cs
    else
      match split separator cs with
      | [] => [[c]]
      | part :: rest => (c :: part) :: rest

theorem split_ne_nil (separator : Char) (cs : List Char) : split separator cs ≠ [] := by
  cases cs with
  | nil => simp [split]
  | cons c cs =>
    simp only [split]
    split
    · simp
    · split <;> simp

/-- Putting the separators back between the parts gives the text back. -/
theorem intercalate_split (separator : Char) (cs : List Char) :
    [separator].intercalate (split separator cs) = cs := by
  induction cs with
  | nil => rfl
  | cons c cs ih =>
    obtain ⟨part, rest, hs⟩ := List.exists_cons_of_ne_nil (split_ne_nil separator cs)
    rw [hs] at ih
    by_cases h : c = separator
    · rw [split, if_pos h, hs]
      simp only [List.intercalate, List.intersperse_cons_cons, List.flatten_cons] at ih ⊢
      simp [ih, h]
    · rw [split, if_neg h, hs]
      cases rest <;> simp_all [List.intercalate]

end RegionNet.Text
