import RegionNet.Proofs.Conduct

/-!
# Rounds

Saturation is one round after another, and a round is told by the marking and by the budget that is
left (`Timing.next`): all that is due fires, or the clock goes on, or saturation is over. One
equation says so for every way a round can go (`Timing.saturateFor_succ`), and from it follows what
holds of a whole saturation: what each round keeps is kept to the end (`Timing.exists_last`), the
step is made by the acts of the rounds, one after the other (`Timing.eq_of_acts`), and rounds to
spare make no difference (`Timing.saturateFor_of_le`).
-/

namespace RegionNet

variable {α : Type} [Quantity α]

/-! ## What acts make of a marking and of a step -/

/-- The marking after an act. -/
def Act.perform (m : Marking α) : Act α → Marking α
  | .fire t => m.fire t
  | .pass dt => m.addTime dt

theorem Act.fired_fires {α : Type} (ts : List (Transition α)) : fired (ts.map fire) = ts := by
  rw [fired, List.filterMap_map]
  exact List.filterMap_some

namespace Timing

variable {timing : Timing α} {net : Net α} {m : Marking α} {n k : Nat} {budget left : Option α}
  {s s' : Step α} {as : List (Act α)}

/-- Extends a step by an act. -/
def perform (timing : Timing α) (net : Net α) (s : Step α) : Act α → Step α
  | .fire t => timing.fire net s t
  | .pass dt => { s with marking := s.marking.addTime dt, elapsed := s.elapsed + dt }

theorem marking_performs (timing : Timing α) (net : Net α) (as : List (Act α)) : ∀ s : Step α,
    (as.foldl (timing.perform net) s).marking = as.foldl Act.perform s.marking := by
  induction as with
  | nil => exact fun _ => rfl
  | cons a as ih =>
      intro s
      have hmarking : (timing.perform net s a).marking = Act.perform s.marking a := by
        cases a with
        | fire t => exact timing.marking_fire net s t
        | pass dt => rfl
      rw [List.foldl_cons, ih, hmarking, List.foldl_cons]

theorem performs_fire (timing : Timing α) (net : Net α) (s : Step α) (ts : List (Transition α)) :
    (ts.map Act.fire).foldl (timing.perform net) s = timing.fireAll net s ts := List.foldl_map

theorem performs_marking_fire (m : Marking α) (ts : List (Transition α)) :
    (ts.map Act.fire).foldl Act.perform m = ts.foldl (fun m t => m.fire t) m := List.foldl_map

/-! ## One round -/

/-- As much of a wait as there is budget for. -/
def cut (budget : Option α) (wait : α) : α := budget.elim wait (Quantity.smaller wait)

/-- What saturation does in the next round, with the budget that is left after it; nothing, if it is
over. -/
def next (timing : Timing α) (net : Net α) (budget : Option α) (m : Marking α) :
    Option (List (Act α) × Option α) :=
  if (timing.due net m).any Transition.stop then none
  else if timing.due net m = [] then
    match timing.nextWait net m with
    | none => none
    | some wait =>
      if cut budget wait ≤ 0 then none
      else some ([.pass (cut budget wait)], budget.map (· - cut budget wait))
  else some ((timing.due net m).map .fire, budget)

/-- Everything that is due fires in a round, or time passes: as much as is needed, or as much as
there is. -/
theorem next_cases (h : timing.next net budget m = some (as, left)) :
    (timing.due net m ≠ [] ∧ (∀ t ∈ timing.due net m, t.stop = false) ∧
        as = (timing.due net m).map .fire ∧ left = budget) ∨
      ∃ wait, timing.due net m = [] ∧ timing.nextWait net m = some wait ∧
        ¬ cut budget wait ≤ 0 ∧ as = [.pass (cut budget wait)] ∧
        left = budget.map (· - cut budget wait) := by
  unfold next at h
  split at h
  · cases h
  · next hany =>
      split at h
      · next hidle =>
          split at h
          · cases h
          · next wait hwait =>
              split at h
              · cases h
              · next hpos =>
                  cases h
                  exact Or.inr ⟨wait, hidle, hwait, hpos, rfl, rfl⟩
      · next hsome =>
          cases h
          refine Or.inl ⟨hsome, fun t ht => ?_, rfl, rfl⟩
          exact Bool.eq_false_iff.mpr fun hstop => hany (List.any_eq_true.mpr ⟨t, ht, hstop⟩)

/-- Saturation is over where a decision is due, where nothing has to wait, or with a budget that is
used up. -/
theorem next_eq_none (h : timing.next net budget m = none) :
    timing.Open net m ∨ timing.due net m = [] ∧
      (timing.nextWait net m = none ∨
        ∃ wait, timing.nextWait net m = some wait ∧ cut budget wait ≤ 0) := by
  unfold next at h
  split at h
  · next hany => exact Or.inl (open_iff.mpr hany)
  · split at h
    · next hidle =>
        refine Or.inr ⟨hidle, ?_⟩
        split at h
        · next hwait => exact Or.inl hwait
        · next wait hwait =>
            split at h
            · next hle => exact Or.inr ⟨wait, hwait, hle⟩
            · cases h
    · cases h

/-! ## Saturation, round by round -/

theorem saturateFor_succ (timing : Timing α) (net : Net α) (n : Nat) (budget : Option α)
    (s : Step α) : timing.saturateFor net (n + 1) budget s =
      match timing.next net budget s.marking with
      | none => some { s with remaining := budget }
      | some (as, left) => timing.saturateFor net n left (as.foldl (timing.perform net) s) := by
  by_cases hany : (timing.due net s.marking).any Transition.stop = true
  · rw [next, if_pos hany, saturateFor_of_open hany]
  rw [next, if_neg hany]
  by_cases hidle : timing.due net s.marking = []
  · rw [if_pos hidle]
    cases hwait : timing.nextWait net s.marking with
    | none => exact saturateFor_of_quiet hidle hwait
    | some wait =>
        rw [saturateFor_of_wait hidle hwait rfl]
        by_cases hle : cut budget wait ≤ 0
        · simp only [if_pos hle]
          exact if_pos hle
        · simp only [if_neg hle]
          exact if_neg hle
  · rw [if_neg hidle, saturateFor_of_fire hany hidle]
    exact congrArg _ (timing.performs_fire net s _).symm

theorem saturateFor_of_next_eq_none (h : timing.next net budget s.marking = none) :
    timing.saturateFor net (n + 1) budget s = some { s with remaining := budget } := by
  rw [saturateFor_succ, h]

theorem saturateFor_of_next_eq_some (h : timing.next net budget s.marking = some (as, left)) :
    timing.saturateFor net (n + 1) budget s =
      timing.saturateFor net n left (as.foldl (timing.perform net) s) := by
  rw [saturateFor_succ, h]

/-- What every round keeps holds when saturation is over. -/
theorem exists_last {I : Option α → Step α → Prop}
    (hround : ∀ budget s as left, I budget s → timing.next net budget s.marking = some (as, left) →
      I left (as.foldl (timing.perform net) s)) :
    ∀ {n budget s s'}, I budget s → timing.saturateFor net n budget s = some s' →
      ∃ left last, I left last ∧ timing.next net left last.marking = none ∧
        s' = { last with remaining := left } := by
  intro n
  induction n with
  | zero =>
      intro budget s s' _ hsome
      cases hsome
  | succ n ih =>
      intro budget s s' hs hsome
      cases hnext : timing.next net budget s.marking with
      | none =>
          rw [saturateFor_of_next_eq_none hnext] at hsome
          exact ⟨budget, s, hs, hnext, (Option.some.inj hsome).symm⟩
      | some round =>
          rw [saturateFor_of_next_eq_some hnext] at hsome
          exact ih (hround budget s _ _ hs hnext) hsome

/-- Saturation is over within its rounds if each of them lowers what the rounds outnumber. -/
theorem exists_saturateFor (I : Marking α → Prop) (toDo : Option α → Marking α → Nat)
    (hround : ∀ budget m as left, I m → timing.next net budget m = some (as, left) →
      I (as.foldl Act.perform m) ∧ toDo left (as.foldl Act.perform m) < toDo budget m) :
    ∀ {n budget} {s : Step α}, I s.marking → toDo budget s.marking < n →
      ∃ s', timing.saturateFor net n budget s = some s' := by
  intro n
  induction n with
  | zero => exact fun _ hlt => absurd hlt (Nat.not_lt_zero _)
  | succ n ih =>
      intro budget s hs hlt
      cases hnext : timing.next net budget s.marking with
      | none => exact ⟨_, saturateFor_of_next_eq_none hnext⟩
      | some round =>
          obtain ⟨hkept, hless⟩ := hround budget s.marking _ _ hs hnext
          rw [← timing.marking_performs net] at hkept hless
          rw [saturateFor_of_next_eq_some hnext]
          exact ih hkept (hless.trans_le (Nat.lt_succ_iff.mp hlt))

/-- Rounds to spare make no difference. -/
theorem saturateFor_of_le (h : timing.saturateFor net n budget s = some s') (hle : n ≤ k) :
    timing.saturateFor net k budget s = some s' := by
  induction n generalizing k budget s with
  | zero => cases h
  | succ n ih =>
      obtain ⟨k, rfl⟩ : ∃ j, k = j + 1 := ⟨k - 1, by omega⟩
      cases hnext : timing.next net budget s.marking with
      | none =>
          rw [saturateFor_of_next_eq_none hnext] at h ⊢
          exact h
      | some round =>
          rw [saturateFor_of_next_eq_some hnext] at h ⊢
          exact ih h (Nat.le_of_succ_le_succ hle)

/-! ## What saturation does -/

/-- All that saturation does in at most the given number of rounds, whether or not it is over by
then. -/
def acts (timing : Timing α) (net : Net α) : Nat → Option α → Marking α → List (Act α)
  | 0, _, _ => []
  | n + 1, budget, m =>
    match timing.next net budget m with
    | none => []
    | some (as, left) => as ++ timing.acts net n left (as.foldl Act.perform m)

theorem acts_of_next_eq_some (h : timing.next net budget m = some (as, left)) :
    timing.acts net (n + 1) budget m = as ++ timing.acts net n left (as.foldl Act.perform m) := by
  simp only [acts, h]

theorem acts_of_next_eq_none (h : timing.next net budget m = none) :
    timing.acts net n budget m = [] := by
  cases n with
  | zero => rfl
  | succ n => simp only [acts, h]

/-- The step of a saturation is made by its acts. -/
theorem eq_of_acts (h : timing.saturateFor net n budget s = some s') :
    s' = { (timing.acts net n budget s.marking).foldl (timing.perform net) s with
      remaining := s'.remaining } := by
  induction n generalizing budget s with
  | zero => cases h
  | succ n ih =>
      cases hnext : timing.next net budget s.marking with
      | none =>
          rw [saturateFor_of_next_eq_none hnext] at h
          rw [acts_of_next_eq_none hnext, ← Option.some.inj h]
          rfl
      | some round =>
          rw [saturateFor_of_next_eq_some hnext] at h
          rw [acts_of_next_eq_some hnext, List.foldl_append, ← timing.marking_performs net]
          exact ih h

end Timing

/-- What a call for saturation does. -/
def Strategy.acts (strategy : Strategy α) (w : Workflow α) (m : Marking α) : List (Act α) :=
  strategy.timing.acts w.net strategy.maxRounds strategy.timing.budget m

end RegionNet
