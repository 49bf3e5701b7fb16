import RegionNet.ChoiceList
import RegionNet.Proofs.Name

/-!
# The grammar of choice lists

A choice list is cut at its commas. Each of its parts is white space or spells a transition
(`ChoiceList.Spells`), and the list stands for the transitions that its parts spell, in their order
(`ChoiceList.Lists`). Reading accepts the lists of this grammar and no other texts
(`ChoiceList.read_eq_ok_iff`), so the names of transitions are read back, whatever white space
stands around and between them.

The grammar says what trimming and splitting leave to be said: where a part begins and ends, what is
in front of the digits and behind them, and what the digits come to.
-/

namespace RegionNet

namespace Text

/-! ## Splitting -/

theorem notMem_of_mem_split {separator : Char} {cs : List Char} :
    ∀ {part : List Char}, part ∈ split separator cs → separator ∉ part := by
  induction cs with
  | nil =>
      intro part h
      obtain rfl := List.mem_singleton.mp h
      exact List.not_mem_nil
  | cons c cs ih =>
      intro part h
      obtain ⟨first, rest, hsplit⟩ := List.exists_cons_of_ne_nil (split_ne_nil separator cs)
      rw [hsplit] at ih
      by_cases hc : c = separator
      · rw [split, if_pos hc, hsplit] at h
        rcases List.mem_cons.mp h with rfl | h
        · exact List.not_mem_nil
        · exact ih h
      · rw [split, if_neg hc, hsplit] at h
        rcases List.mem_cons.mp h with rfl | h
        · rw [List.mem_cons, not_or]
          exact ⟨Ne.symm hc, ih List.mem_cons_self⟩
        · exact ih (List.mem_cons_of_mem _ h)

/-- There is one way to cut a text at all its separators. -/
theorem split_eq_splitOn (separator : Char) (cs : List Char) :
    split separator cs = cs.splitOn separator := by
  have hcut := List.splitOn_intercalate separator (fun _ => notMem_of_mem_split)
    (split_ne_nil separator cs)
  rw [← hcut, intercalate_split]

/-! ## Trimming -/

/-- Trimming takes off nothing but white space. -/
theorem exists_trim (cs : List Char) : ∃ before after, blank before = true ∧ blank after = true ∧
    cs = before ++ trim cs ++ after := by
  refine ⟨cs.takeWhile isBlank, ((cs.dropWhile isBlank).reverse.takeWhile isBlank).reverse,
    List.all_takeWhile, ?_, ?_⟩
  · unfold blank
    rw [List.all_reverse]
    exact List.all_takeWhile
  · rw [trim, List.append_assoc, ← List.reverse_append, List.takeWhile_append_dropWhile,
      List.reverse_reverse, List.takeWhile_append_dropWhile]

theorem dropWhile_blank_append {before cs : List Char} (hbefore : blank before = true)
    (hcs : ∀ c ∈ cs.head?, isBlank c = false) : (before ++ cs).dropWhile isBlank = cs := by
  rw [List.dropWhile_append_of_pos (List.all_eq_true.mp hbefore)]
  cases cs with
  | nil => rfl
  | cons c cs => rw [List.dropWhile_cons_of_neg (by simpa using hcs)]

/-- White space around a text without any is what trimming takes off. -/
theorem trim_append {before cs after : List Char} (hbefore : blank before = true)
    (hafter : blank after = true) (hcs : ∀ c ∈ cs, isBlank c = false) :
    trim (before ++ cs ++ after) = cs := by
  cases cs with
  | nil =>
      rw [trim_eq_nil_iff, blank, List.append_nil, List.all_append]
      exact Bool.and_eq_true_iff.mpr ⟨hbefore, hafter⟩
  | cons c cs =>
      have hfront : (before ++ (c :: cs ++ after)).dropWhile isBlank = c :: cs ++ after := by
        refine dropWhile_blank_append hbefore fun d hd => ?_
        obtain rfl := Option.some.inj hd
        exact hcs c List.mem_cons_self
      have hback : (after.reverse ++ (c :: cs).reverse).dropWhile isBlank = (c :: cs).reverse := by
        refine dropWhile_blank_append (by rwa [blank, List.all_reverse]) fun d hd => ?_
        exact hcs d (List.mem_reverse.mp (List.mem_of_mem_head? hd))
      rw [trim, List.append_assoc, hfront, List.reverse_append, hback, List.reverse_reverse]

theorem isBlank_of_isDigit {c : Char} (h : c.isDigit = true) : isBlank c = false := by
  simp only [Char.isDigit, Bool.and_eq_true, decide_eq_true_eq, ge_iff_le, UInt32.le_iff_toNat_le]
    at h
  have hlow : 48 ≤ c.toNat := h.1
  have hhigh : c.toNat ≤ 57 := h.2
  simp only [isBlank, blankRanges, List.any_cons, List.any_nil, Bool.or_false, Bool.or_eq_false_iff,
    Bool.and_eq_false_iff, decide_eq_false_iff_not]
  omega

end Text

theorem valueOfDigits_eq_ofDigits (ds : List Char) :
    valueOfDigits 0 ds = Nat.ofDigits 10 (ds.reverse.map digitValue) := by
  rw [Nat.ofDigits_eq_foldr, List.foldr_map, List.foldr_reverse, valueOfDigits]
  simp only [Nat.cast_id, Nat.add_comm]

namespace ChoiceList

variable {cs part : List Char} {parts : List (List Char)} {t : TransitionId}
  {ts : List TransitionId}

/-! ## Parts -/

/-- White space, perhaps the letter `t`, digits that come to a number that a transition can have,
and white space again. -/
inductive Spells : List Char → TransitionId → Prop where
  | intro {before letter ds after : List Char} {n : Nat} (before_blank : Text.blank before = true)
      (letter_cases : letter = [] ∨ letter = ['t']) (ds_ne_nil : ds ≠ [])
      (isDigit : ∀ d ∈ ds, d.isDigit = true)
      (value : Nat.ofDigits 10 (ds.reverse.map digitValue) = n) (le_max : n ≤ maxIndex)
      (after_blank : Text.blank after = true) : Spells (before ++ (letter ++ ds) ++ after) ⟨n⟩

/-- Nothing but one letter may stand in front of the digits. -/
theorem exists_letter (cs : List Char) :
    ∃ letter, (letter = [] ∨ letter = ['t']) ∧ cs = letter ++ withoutLetter cs := by
  unfold withoutLetter
  split
  · exact ⟨['t'], Or.inr rfl, rfl⟩
  · exact ⟨[], Or.inl rfl, rfl⟩

theorem withoutLetter_append {letter ds : List Char} (hletter : letter = [] ∨ letter = ['t'])
    (hds : ∀ d ∈ ds, d.isDigit = true) : withoutLetter (letter ++ ds) = ds := by
  rcases hletter with rfl | rfl
  · cases ds with
    | nil => rfl
    | cons d ds =>
        have hd : d ≠ 't' := by
          rintro rfl
          exact absurd (hds 't' List.mem_cons_self) (by decide)
        simp [withoutLetter, hd]
  · rfl

theorem isBlank_of_mem_letter_append {letter ds : List Char}
    (hletter : letter = [] ∨ letter = ['t']) (hds : ∀ d ∈ ds, d.isDigit = true) :
    ∀ c ∈ letter ++ ds, Text.isBlank c = false := by
  intro c hc
  rcases List.mem_append.mp hc with hc | hc
  · rcases hletter with rfl | rfl
    · cases hc
    · obtain rfl := List.mem_singleton.mp hc
      decide
  · exact Text.isBlank_of_isDigit (hds c hc)

theorem readId_eq_ok_iff : readId part = .ok t ↔ Spells part t := by
  constructor
  · intro h
    simp only [readId] at h
    split at h
    · cases h
    · next hform =>
        simp only [Bool.or_eq_true, Bool.not_eq_true', not_or, Bool.not_eq_false,
          List.isEmpty_iff, List.all_eq_true] at hform
        split at h
        · next hle =>
            obtain rfl := Except.ok.inj h
            obtain ⟨before, after, hbefore, hafter, hpart⟩ := Text.exists_trim part
            obtain ⟨letter, hletter, htrim⟩ := exists_letter (Text.trim part)
            have hspells := Spells.intro hbefore hletter hform.1 hform.2
              (valueOfDigits_eq_ofDigits _).symm hle hafter
            rwa [← htrim, ← hpart] at hspells
        · cases h
  · rintro ⟨hbefore, hletter, hne, hds, rfl, hle, hafter⟩
    rw [← valueOfDigits_eq_ofDigits] at hle ⊢
    have htrim := Text.trim_append hbefore hafter (isBlank_of_mem_letter_append hletter hds)
    have hempty : ∀ ds : List Char, ds ≠ [] → ds.isEmpty = false := by simp
    simp only [readId, htrim, withoutLetter_append hletter hds, hempty _ hne,
      List.all_eq_true.mpr hds, Bool.not_true, Bool.or_self, Bool.false_eq_true, if_false, hle,
      if_true]

theorem Spells.not_blank (h : Spells part t) : Text.blank part = false := by
  obtain ⟨hbefore, hletter, hne, hds, rfl, -, hafter⟩ := h
  have htrim := Text.trim_append hbefore hafter (isBlank_of_mem_letter_append hletter hds)
  rw [← Bool.not_eq_true, ← Text.trim_eq_nil_iff, htrim, List.append_eq_nil_iff, not_and]
  exact fun _ => hne

theorem spells_name {before after : List Char} (hbefore : Text.blank before = true)
    (ht : t.index ≤ maxIndex) (hafter : Text.blank after = true) :
    Spells (before ++ t.name.toList ++ after) t := by
  rw [t.toList_name, ← List.singleton_append]
  refine .intro hbefore (Or.inr rfl) (digits_ne_nil _) (fun _ => isDigit_of_mem_digits) ?_ ht hafter
  rw [← valueOfDigits_eq_ofDigits, valueOfDigits_digits]

/-! ## Lists -/

/-- Every part is blank or spells a transition, and these are the transitions, in their order. -/
inductive Lists : List (List Char) → List TransitionId → Prop where
  | nil : Lists [] []
  | blank {part : List Char} {parts : List (List Char)} {ts : List TransitionId}
      (h : Text.blank part = true) (rest : Lists parts ts) : Lists (part :: parts) ts
  | id {part : List Char} {parts : List (List Char)} {t : TransitionId} {ts : List TransitionId}
      (h : Spells part t) (rest : Lists parts ts) : Lists (part :: parts) (t :: ts)

theorem readIds_cons_eq_ok_iff : readIds (part :: parts) = .ok ts ↔
    ∃ t rest, readId part = .ok t ∧ readIds parts = .ok rest ∧ ts = t :: rest := by
  rw [readIds]
  cases readId part with
  | error e => simp
  | ok t =>
      cases readIds parts with
      | error e => simp
      | ok rest => simp [eq_comm]

theorem readIds_eq_ok_iff :
    readIds (parts.filter fun part => !Text.blank part) = .ok ts ↔ Lists parts ts := by
  induction parts generalizing ts with
  | nil =>
      constructor
      · intro h
        obtain rfl := Except.ok.inj h
        exact .nil
      · rintro ⟨⟩
        rfl
  | cons part parts ih =>
      cases hblank : Text.blank part with
      | true =>
          rw [List.filter_cons_of_neg (by simp [hblank]), ih]
          constructor
          · exact .blank hblank
          · rintro (_ | ⟨_, h⟩ | ⟨hspells, _⟩)
            · exact h
            · rw [hspells.not_blank] at hblank
              cases hblank
      | false =>
          rw [List.filter_cons_of_pos (by simp [hblank]), readIds_cons_eq_ok_iff]
          constructor
          · rintro ⟨t, rest, ht, hrest, rfl⟩
            exact .id (readId_eq_ok_iff.mp ht) (ih.mp hrest)
          · rintro (_ | ⟨h, _⟩ | ⟨hspells, h⟩)
            · rw [hblank] at h
              cases h
            · exact ⟨_, _, readId_eq_ok_iff.mpr hspells, ih.mpr h, rfl⟩

theorem read_eq_ok_iff : read cs = .ok ts ↔ Lists (cs.splitOn ',') ts := by
  rw [read, Text.split_eq_splitOn, readIds_eq_ok_iff]

theorem exists_lists_iff : (∃ ts, Lists parts ts) ↔
    ∀ part ∈ parts, Text.blank part = true ∨ ∃ t, Spells part t := by
  induction parts with
  | nil => exact ⟨fun _ => by simp, fun _ => ⟨[], .nil⟩⟩
  | cons part parts ih =>
      rw [List.forall_mem_cons, ← ih]
      constructor
      · rintro ⟨ts, h⟩
        cases h with
        | blank h rest => exact ⟨Or.inl h, ts, rest⟩
        | id h rest => exact ⟨Or.inr ⟨_, h⟩, _, rest⟩
      · rintro ⟨h | ⟨t, h⟩, ts, rest⟩
        · exact ⟨ts, .blank h rest⟩
        · exact ⟨t :: ts, .id h rest⟩

/-! ## Written lists -/

/-- A piece of text in which there is nothing but white space. -/
abbrev Space := { cs : List Char // Text.blank cs = true }

/-- What can stand between two commas: white space, alone or around the name of a transition that
has a number small enough. -/
inductive Item where
  | space (cs : Space)
  | id (before : Space) (t : { t : TransitionId // t.index ≤ maxIndex }) (after : Space)

namespace Item

def text : Item → List Char
  | space cs => cs
  | id before t after => before ++ t.1.name.toList ++ after

def id? : Item → Option TransitionId
  | space _ => none
  | id _ t _ => some t

end Item

theorem lists_items (items : List Item) :
    Lists (items.map Item.text) (items.filterMap Item.id?) := by
  induction items with
  | nil => exact .nil
  | cons item items ih =>
      cases item with
      | space cs => exact .blank cs.2 ih
      | id before t after => exact .id (spells_name before.2 t.2 after.2) ih

theorem notMem_comma_of_blank (h : Text.blank cs = true) : ',' ∉ cs := by
  intro hmem
  exact absurd (List.all_eq_true.mp h _ hmem) (by decide)

theorem notMem_comma_text (item : Item) : ',' ∉ item.text := by
  cases item with
  | space cs => exact notMem_comma_of_blank cs.2
  | id before t after =>
      have hname : ',' ∉ t.1.name.toList := by
        rw [t.1.toList_name, List.mem_cons, not_or]
        refine ⟨by decide, fun hmem => ?_⟩
        exact absurd (isDigit_of_mem_digits hmem) (by decide)
      simp only [Item.text, List.mem_append, not_or]
      exact ⟨⟨notMem_comma_of_blank before.2, hname⟩, notMem_comma_of_blank after.2⟩

/-! ## The statement -/

/-- How a text is read as a choice list. -/
structure Phrased (cs : List Char) : Prop where
  accepted : (∃ ts, read cs = .ok ts) ↔
    ∀ part ∈ cs.splitOn ',', Text.blank part = true ∨ ∃ t, Spells part t
  values : ∀ ts, read cs = .ok ts ↔ Lists (cs.splitOn ',') ts

/-- Texts are read by the grammar of choice lists, and what is written is read back. -/
theorem read_grammar : (∀ cs, Phrased cs) ∧ ∀ items : List Item,
    read ([','].intercalate (items.map Item.text)) = .ok (items.filterMap Item.id?) := by
  refine ⟨fun cs => ⟨?_, fun ts => read_eq_ok_iff⟩, fun items => ?_⟩
  · simp only [read_eq_ok_iff, exists_lists_iff]
  · rw [read_eq_ok_iff]
    by_cases hitems : items = []
    · subst hitems
      exact .blank rfl .nil
    · rw [List.splitOn_intercalate ',' ?_ (by simpa using hitems)]
      · exact lists_items items
      · intro part hpart
        obtain ⟨item, -, rfl⟩ := List.mem_map.mp hpart
        exact notMem_comma_text item

example : read " t007,, 4294967295\u2003,".toList = .ok [⟨7⟩, ⟨4294967295⟩] := by decide +kernel

end ChoiceList

end RegionNet
