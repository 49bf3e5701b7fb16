/-!
# Blank text

White space in the sense of the Unicode property `White_Space`, and trimming by it.
-/

namespace RegionNet.Text

/-- The code points with the property `White_Space`, as ranges with both ends included. -/
def blankRanges : List (Nat × Nat) :=
  [(0x09, 0x0D), (0x20, 0x20), (0x85, 0x85), (0xA0, 0xA0), (0x1680, 0x1680), (0x2000, 0x200A),
   (0x2028, 0x2029), (0x202F, 0x202F), (0x205F, 0x205F), (0x3000, 0x3000)]

/-- White space. -/
def isBlank (c : Char) : Bool :=
  blankRanges.any fun (first, last) => first ≤ c.toNat && c.toNat ≤ last

/-- The text without the white space around it. -/
def trim (cs : List Char) : List Char :=
  ((cs.dropWhile isBlank).reverse.dropWhile isBlank).reverse

/-- Nothing but white space. -/
def blank (cs : List Char) : Bool := cs.all isBlank

/-- Every character that core takes for white space is white space here. -/
theorem isBlank_of_isWhitespace {c : Char} (h : c.isWhitespace = true) : isBlank c = true := by
  simp only [Char.isWhitespace, Bool.or_eq_true, decide_eq_true_eq] at h
  rcases h with ((h | h) | h) | h <;> subst h <;> decide

example : (blankRanges.map fun (first, last) => last + 1 - first).sum = 25 := by decide

theorem dropWhile_isBlank_eq_nil_iff {cs : List Char} :
    cs.dropWhile isBlank = [] ↔ blank cs = true := by
  induction cs with
  | nil => simp [blank]
  | cons c cs ih =>
    cases hc : isBlank c
    · simp [blank, hc]
    · rw [List.dropWhile_cons_of_pos hc, ih]
      simp [blank, hc]

/-- Trimming leaves nothing exactly if there was nothing but white space. -/
theorem trim_eq_nil_iff {cs : List Char} : trim cs = [] ↔ blank cs = true := by
  rw [trim, List.reverse_eq_nil_iff, dropWhile_isBlank_eq_nil_iff, blank, List.all_reverse,
    ← blank]
  constructor
  · intro h
    rw [← dropWhile_isBlank_eq_nil_iff]
    cases hd : cs.dropWhile isBlank with
    | nil => rfl
    | cons c rest =>
      have hc : isBlank c = false := by
        have h := List.head_dropWhile_not isBlank (l := cs) (by simp [hd])
        simpa [hd] using h
      simp [blank, hd, hc] at h
  · intro h
    rw [dropWhile_isBlank_eq_nil_iff.2 h]
    rfl

end RegionNet.Text
