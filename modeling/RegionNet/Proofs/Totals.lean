import RegionNet.Proofs.Ancestry

/-!
# Totals

Every node but the root was found by a step, and its snapshot extends the one of its parent by this
step. Extending a snapshot and composing steps are two definitions of one sum, with the same
operations in the same order: so what a snapshot says is what the steps along the way to it come to
(`Exploration.sums_of_way`), also where sums are rounded. Recording what is known already disturbs
none of it.
-/

namespace RegionNet

/-- The last one of a list has the last partner. -/
theorem exists_of_forall₂_concat {β γ : Type} {r : β → γ → Prop} {xs : List β} {x : β}
    {ys : List γ} (h : List.Forall₂ r (xs ++ [x]) ys) :
    ∃ before y, ys = before ++ [y] ∧ List.Forall₂ r xs before ∧ r x y := by
  have hreverse := List.forall₂_reverse_iff.mpr h
  rw [List.reverse_concat] at hreverse
  obtain ⟨y, before, hxy, hbefore, heq⟩ := List.forall₂_cons_left_iff.mp hreverse
  refine ⟨before.reverse, y, ?_, ?_, hxy⟩
  · rw [← List.reverse_reverse ys, heq, List.reverse_cons]
  · rw [← List.reverse_reverse xs]
    exact List.forall₂_reverse_iff.mpr hbefore

variable {α : Type} [Quantity α]

/-- What comes of taking steps one after the other, from the initial marking. -/
def Workflow.total (w : Workflow α) (steps : List (Step α)) : Step α :=
  steps.foldl Step.andThen (.identity w.initial w.dimensions)

theorem Workflow.total_concat (w : Workflow α) (steps : List (Step α)) (step : Step α) :
    w.total (steps ++ [step]) = (w.total steps).andThen step :=
  List.foldl_concat _ _ _ _

/-- The snapshot says what the steps come to. -/
structure Snapshot.Sums (w : Workflow α) (x : Snapshot α) (steps : List (Step α)) : Prop where
  marking : x.marking = (steps.getLast?.map Step.marking).getD w.initial
  status : x.status = w.status x.marking
  probability : x.probability = (w.total steps).probability
  impacts : x.impacts = (w.total steps).impacts
  time : x.time = (w.total steps).elapsed

namespace Snapshot

variable {w : Workflow α} {x : Snapshot α} {steps : List (Step α)}

theorem sums_initial (w : Workflow α) : (initial w).Sums w [] :=
  ⟨rfl, rfl, rfl, rfl, rfl⟩

theorem Sums.extend (h : x.Sums w steps) (step : Step α) :
    (x.extend w step).Sums w (steps ++ [step]) := by
  refine ⟨?_, rfl, ?_, ?_, ?_⟩
  · rw [List.getLast?_concat]
    rfl
  · rw [w.total_concat]
    exact congrArg (· * step.probability) h.probability
  · rw [w.total_concat]
    exact congrArg (Quantity.addEntries · step.impacts) h.impacts
  · rw [w.total_concat]
    exact congrArg (· + step.elapsed) h.time

end Snapshot

namespace Exploration

variable {w : Workflow α} {t t' : Exploration α} {c i : Nat} {step : Step α} {x : Snapshot α}
  {path : List Nat} {steps : List (Step α)}

/-! ## What a node was found by -/

/-- On a way from the start to the exploration the step was recorded, and by this the node with the
given number was found. -/
def FoundBy (w : Workflow α) (t : Exploration α) (c : Nat) (step : Step α) : Prop :=
  ∃ before follow, Later w (start w) before ∧ before.nodes.length = c ∧
    (before.record w step follow).2.nodes.length = c + 1 ∧
    Later w (before.record w step follow).2 t

theorem FoundBy.later (h : FoundBy w t c step) (hlater : Later w t t') : FoundBy w t' c step := by
  obtain ⟨before, follow, hstart, hlast, hgrown, hrest⟩ := h
  exact ⟨before, follow, hstart, hlast, hgrown, hrest.trans hlater⟩

/-- A node extends what was found at its parent by the step that it was found by. -/
theorem FoundBy.extends (h : FoundBy w t c step) : ∃ p x, t.parent? c = some p ∧
    t.snapshot? p = some x ∧ t.snapshot? c = some (x.extend w step) := by
  obtain ⟨before, follow, hstart, rfl, hgrown, hlater⟩ := h
  obtain ⟨hgoing, hnew⟩ := (length_record_iff follow).mp hgrown
  refine ⟨before.cursor, before.current.snapshot, ?_, ?_, ?_⟩
  · refine hlater.keeps.parent? ?_
    rw [record_of_new hgoing hnew, parent?_follow, parent?_grow, if_pos rfl]
  · exact hlater.snapshot? (snapshot?_record before.snapshot?_cursor step follow)
  · refine hlater.snapshot? ?_
    rw [record_of_new hgoing hnew, snapshot?_follow, snapshot?_grow, if_pos rfl]

theorem exists_foundBy (h : Later w (start w) t) (hpos : 0 < c) (hlt : c < t.nodes.length) :
    ∃ step, FoundBy w t c step := by
  induction h with
  | refl =>
      have hone : c < 1 := hlt
      omega
  | @record t' h step follow ih =>
      by_cases hold : c < t'.nodes.length
      · obtain ⟨found, hfound⟩ := ih hold
        exact ⟨found, hfound.later (.record .refl step follow)⟩
      by_cases hopen : w.isFinal t'.current.snapshot.marking = false ∧
          t'.childWith step.marking = none
      · have hgrown := (length_record_iff follow).mpr hopen
        have hc : t'.nodes.length = c := by omega
        exact ⟨step, t', follow, h, hc, hc ▸ hgrown, .refl⟩
      · rw [nodes_record follow hopen] at hlt
        exact absurd hlt hold
  | moveTo h i ih =>
      rw [nodes_moveTo] at hlt
      obtain ⟨step, hstep⟩ := ih hlt
      exact ⟨step, hstep.later (.moveTo .refl i)⟩

/-! ## Sums along a way -/

/-- The root says what no step comes to, and every step on the way down adds itself. -/
theorem sums_of_way (h : Later w (start w) t) (hway : t.Way i (0 :: path)) :
    ∀ steps, List.Forall₂ (FoundBy w t) path steps →
      ∃ x, t.snapshot? i = some x ∧ x.Sums w steps := by
  refine hway.ind (motive := fun i path => ∀ steps, List.Forall₂ (FoundBy w t) path steps →
    ∃ x, t.snapshot? i = some x ∧ x.Sums w steps) ?_ ?_
  · intro steps hsteps
    obtain rfl := List.forall₂_nil_left_iff.mp hsteps
    exact ⟨.initial w, h.snapshot? rfl, Snapshot.sums_initial w⟩
  · intro p c path hp ih steps hsteps
    obtain ⟨before, step, rfl, hbefore, hstep⟩ := exists_of_forall₂_concat hsteps
    obtain ⟨x, hx, hsums⟩ := ih before hbefore
    obtain ⟨q, y, hq, hy, hc⟩ := hstep.extends
    obtain rfl : p = q := Option.some.inj (hp.symm.trans hq)
    obtain rfl : x = y := Option.some.inj (hx.symm.trans hy)
    exact ⟨_, hc, hsums.extend step⟩

/-- All nodes on a way but the root were found by steps. -/
theorem exists_steps_of_way (h : Later w (start w) t) (hway : t.Way i (0 :: path)) :
    ∃ steps, List.Forall₂ (FoundBy w t) path steps := by
  have ht : t.Rooted := h.rooted (.ofRoot _)
  refine hway.ind (motive := fun _ path => ∃ steps, List.Forall₂ (FoundBy w t) path steps)
    ⟨[], .nil⟩ ?_
  rintro p c path hp ⟨steps, hsteps⟩
  obtain ⟨step, hstep⟩ := exists_foundBy h (Nat.zero_lt_of_lt (ht.parent_lt hp)) (lt_of_parent? hp)
  exact ⟨steps ++ [step], List.rel_append hsteps (.cons hstep .nil)⟩

/-- Whatever else was recorded, the snapshot of a node says what the steps come to that found the
nodes on the path to it. -/
theorem sums_of_later (h : Later w (start w) t) (hx : t.snapshot? i = some x) :
    ∃ path, t.pathTo i = some (0 :: path) ∧ (∃ steps, List.Forall₂ (FoundBy w t) path steps) ∧
      ∀ steps, List.Forall₂ (FoundBy w t) path steps → x.Sums w steps := by
  have ht : t.Rooted := h.rooted (.ofRoot _)
  obtain ⟨path, hpath, hway⟩ := ht.exists_pathTo (lt_of_snapshot? hx)
  refine ⟨path, hpath, exists_steps_of_way h hway, fun steps hsteps => ?_⟩
  obtain ⟨y, hy, hsums⟩ := sums_of_way h hway steps hsteps
  exact Option.some.inj (hy.symm.trans hx) ▸ hsums

/-- The second way of the small exploration: the step that found the first way as well, and then
the likelier and dearer one. -/
theorem sums_sample : Later .errand (start .errand) sample ∧ sample.pathTo 3 = some [0, 1, 3] ∧
    List.Forall₂ (FoundBy .errand sample) [1, 3] [sampleFirst, sampleRight] ∧
      ∀ x, sample.snapshot? 3 = some x → x.Sums .errand [sampleFirst, sampleRight] ∧
        x.probability = 3 / 4 ∧ x.impacts = [5] ∧ x.time = 4 := by
  have hfirst : FoundBy .errand sample 1 sampleFirst :=
    ⟨start .errand, true, .refl, rfl, by decide +kernel,
      .record (.record (.moveTo (.record .refl sampleLeft true) 1) _ _) _ _⟩
  have hright : FoundBy .errand sample 3 sampleRight :=
    ⟨sampleHalf, false, later_sampleHalf, by decide +kernel, by decide +kernel, .record .refl _ _⟩
  have hfound := List.Forall₂.cons hfirst (.cons hright .nil)
  have hpath : sample.pathTo 3 = some [0, 1, 3] := by decide +kernel
  refine ⟨later_sample, hpath, hfound, fun x hx => ?_⟩
  obtain ⟨path, hsome, -, hall⟩ := sums_of_later later_sample hx
  obtain rfl : path = [1, 3] := (List.cons.inj (Option.some.inj (hsome.symm.trans hpath))).2
  have hsums := hall _ hfound
  refine ⟨hsums, hsums.probability.trans ?_, hsums.impacts.trans ?_, hsums.time.trans ?_⟩
  all_goals decide +kernel

end Exploration

end RegionNet
