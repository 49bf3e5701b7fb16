import RegionNet.Execution.Resolver
import RegionNet.Proofs.Batch
import RegionNet.Proofs.Decision
import RegionNet.Proofs.Origin

/-!
# Answers that are heeded

A resolver is asked for a decision by its place only, and has to find out by itself between which
transitions to decide. It heeds a strategy if it always answers with a transition that the strategy
has on offer (`Resolver.Heeds`); then each open decision is taken (`Heeds.forall₂_select`).

The resolver used by default looks for the candidates on its own, by tokens alone and whatever the
strategy knows about ages. These are nevertheless the transitions on offer, since all decisions at a
place take their tokens from this place and no other one (`Consists.heeds_byDefault`).
-/

namespace RegionNet

variable {σ α : Type}

/-! ## Transitions that are decided for -/

section

variable [Quantity α]

/-- What a transition that is fired only by a decision looks like. -/
structure Transition.Decisive (t : Transition α) : Prop where
  inputs : ∃ p, t.inputs = [p]
  loop : t.regionKind = .loop → t.role = .loopBack ∨ t.role = .loopExit

theorem Piece.decisive_of_stop {P : Piece α} {t : Transition α} (ht : t ∈ P.transitions)
    (hstop : t.stop = true) : t.Decisive := by
  obtain ⟨Q, -, hadds⟩ := exists_adds ht
  cases hadds with
  | run | fork | join | merge | enter => cases hstop
  | pick s g hi => exact ⟨⟨s.entry, rfl⟩, fun hkind => by cases g <;> cases hkind⟩
  | back s body x n => exact ⟨⟨body.exit, rfl⟩, fun _ => Or.inl rfl⟩
  | leave s body x n => exact ⟨⟨body.exit, rfl⟩, fun _ => Or.inr rfl⟩

/-- Transitions with the same inputs are due at the same time. -/
theorem Timing.enabled_of_inputs {timing : Timing α} {net : Net α} {m : Marking α}
    {t u : Transition α} (hu : timing.enabled net u m = true) (hin : t.inputs = u.inputs)
    (ht : net.tokenEnabled t m = true) : timing.enabled net t m = true := by
  cases timing with
  | counter => exact ht
  | duration step =>
      have hrested : u.inputs.all (net.rested m) = true := (Bool.and_eq_true _ _ ▸ hu : _ ∧ _).2
      show (net.tokenEnabled t m && t.inputs.all (net.rested m)) = true
      rw [ht, hin, hrested, Bool.and_true]

namespace Workflow.Consists

variable {w : Workflow α} {P : Piece α} {m : Marking α} {timing : Timing α} {d : DecisionPoint}
  {c : TransitionId} {p : PlaceId} {t : Transition α}

/-- On offer at a decision point are the decisions that are due there. -/
theorem mem_offered_iff (h : w.Consists P) (hd : d ∈ timing.decisionPoints w.net m) :
    c ∈ d.transitions ↔ ∃ t ∈ w.net.transitions, t.stop = true ∧
      timing.enabled w.net t m = true ∧ t.inputs = [d.place] ∧ t.id = c := by
  constructor
  · intro hc
    obtain ⟨t, ht, hstop, he, hplace, hid⟩ := Timing.offers_decisionPoints.mp ⟨d, hd, rfl, hc⟩
    obtain ⟨⟨p, hin⟩, -⟩ := Piece.decisive_of_stop (h.transitions ▸ ht) hstop
    rw [Transition.decisionPlace, hin] at hplace
    obtain rfl : p = d.place := Option.some.inj hplace
    exact ⟨t, ht, hstop, he, hin, hid⟩
  · rintro ⟨t, ht, hstop, he, hin, rfl⟩
    have hplace : t.decisionPlace = some d.place := by
      rw [Transition.decisionPlace, hin]
      rfl
    obtain ⟨e, hmem, hsame, hc⟩ :=
      Timing.offers_decisionPoints.mpr ⟨t, ht, hstop, he, hplace, rfl⟩
    rwa [Timing.tidy_decisionPoints.eq_of_place hd hmem hsame.symm]

theorem isSome_of_mem_offered (h : w.Consists P) (hd : d ∈ timing.decisionPoints w.net m)
    (hc : c ∈ d.transitions) : (w.net.transition? c).isSome = true := by
  obtain ⟨t, ht, -, -, -, rfl⟩ := (h.mem_offered_iff hd).mp hc
  rw [h.transition?_eq ht]
  rfl

/-- A decision is on offer at the place that it takes its token from, and at no other one. -/
theorem disjoint_decisionPoints (h : w.Consists P) : Disjoint (timing.decisionPoints w.net m) := by
  refine Timing.tidy_decisionPoints.ascending.imp_of_mem fun hd he hlt c hc hc' => ?_
  obtain ⟨t, ht, -, -, hin, rfl⟩ := (h.mem_offered_iff hd).mp hc
  obtain ⟨u, hu, -, -, hin', hid⟩ := (h.mem_offered_iff he).mp hc'
  obtain rfl := h.eq_of_id hu ht hid
  rw [List.cons.inj (hin.symm.trans hin') |>.1] at hlt
  exact Nat.lt_irrefl _ hlt

theorem mem_candidates_iff (h : w.Consists P) : t ∈ Resolver.candidates w.net p m ↔
    t ∈ w.net.transitions ∧ t.stop = true ∧ w.net.tokenEnabled t m = true ∧ t.inputs = [p] := by
  simp only [Resolver.candidates, Net.outgoing, List.mem_filter, List.contains_iff_mem,
    Bool.and_eq_true]
  constructor
  · rintro ⟨⟨ht, hp⟩, hstop, he⟩
    obtain ⟨⟨q, hin⟩, -⟩ := Piece.decisive_of_stop (h.transitions ▸ ht) hstop
    rw [hin, List.mem_singleton] at hp
    exact ⟨ht, hstop, he, hp ▸ hin⟩
  · rintro ⟨ht, hstop, he, hin⟩
    refine ⟨⟨ht, ?_⟩, hstop, he⟩
    rw [hin]
    exact List.mem_singleton_self p

/-- The candidates at an open decision are on offer. -/
theorem id_mem_of_candidate (h : w.Consists P) (hd : d ∈ timing.decisionPoints w.net m)
    (ht : t ∈ Resolver.candidates w.net d.place m) : t.id ∈ d.transitions := by
  obtain ⟨ht, hstop, htokens, hin⟩ := h.mem_candidates_iff.mp ht
  obtain ⟨c, hc⟩ := List.exists_mem_of_ne_nil _ (Timing.tidy_decisionPoints.nonempty d hd)
  obtain ⟨u, -, -, hu, hin', -⟩ := (h.mem_offered_iff hd).mp hc
  have he := Timing.enabled_of_inputs hu (hin.trans hin'.symm) htokens
  exact (h.mem_offered_iff hd).mpr ⟨t, ht, hstop, he, hin, rfl⟩

theorem candidates_ne_nil (h : w.Consists P) (hd : d ∈ timing.decisionPoints w.net m) :
    Resolver.candidates w.net d.place m ≠ [] := by
  obtain ⟨c, hc⟩ := List.exists_mem_of_ne_nil _ (Timing.tidy_decisionPoints.nonempty d hd)
  obtain ⟨u, hu, hstop, he, hin, -⟩ := (h.mem_offered_iff hd).mp hc
  exact List.ne_nil_of_mem
    (h.mem_candidates_iff.mpr ⟨hu, hstop, Timing.tokenEnabled_of_enabled he, hin⟩)

end Workflow.Consists

end

/-! ## Resolvers that keep to what is on offer -/

namespace Resolver

variable [Quantity α]

/-- The resolver answers with a transition that is on offer, whichever decision it is asked for. -/
def Heeds (resolver : Resolver σ α) (strategy : Strategy α) (w : Workflow α) : Prop :=
  ∀ m s, ∀ d ∈ strategy.choices w m,
    ∃ t ∈ d.transitions, (resolver.answer w d.place m s).1 = some t

omit [Quantity α] in
/-- With nothing chosen, the answers take every decision. -/
theorem forall₂_select {resolver : Resolver σ α} {w : Workflow α} {m : Marking α}
    {points : List DecisionPoint}
    (h : ∀ s, ∀ d ∈ points, ∃ t ∈ d.transitions, (resolver.answer w d.place m s).1 = some t)
    (s : σ) :
    List.Forall₂ (fun d t => t ∈ d.transitions) points (resolver.select w m [] points s).1 := by
  induction points generalizing s with
  | nil => exact .nil
  | cons d points ih =>
      obtain ⟨t, ht, hanswer⟩ := h s d List.mem_cons_self
      have hrest := ih (fun s e he => h s e (List.mem_cons_of_mem _ he))
        (resolver.answer w d.place m s).2
      simp only [select, List.find?_nil, hanswer]
      rw [Option.filter_some, if_pos (by simpa using ht)]
      exact .cons ht hrest

/-! ## The resolver used by default -/

section

variable {ts : List (Transition α)}

omit [Quantity α] in
theorem exists_firstBranch (h : ts ≠ []) : ∃ t ∈ ts, firstBranch ts = some t := by
  induction ts with
  | nil => exact absurd rfl h
  | cons t ts ih =>
      unfold firstBranch
      cases hrest : firstBranch ts with
      | none => exact ⟨t, List.mem_cons_self, rfl⟩
      | some u =>
          dsimp only
          split
          · by_cases hts : ts = []
            · rw [hts] at hrest
              cases hrest
            · obtain ⟨v, hv, hsome⟩ := ih hts
              obtain rfl : u = v := Option.some.inj (hrest.symm.trans hsome)
              exact ⟨u, List.mem_cons_of_mem _ hv, rfl⟩
          · exact ⟨t, List.mem_cons_self, rfl⟩

theorem exists_pick (h : ts ≠ []) (x : α) : ∃ t ∈ ts, pick x ts = some t.id := by
  induction ts generalizing x with
  | nil => exact absurd rfl h
  | cons t ts ih =>
      cases ts with
      | nil => exact ⟨t, List.mem_cons_self, rfl⟩
      | cons u us =>
          unfold pick
          split
          · exact ⟨t, List.mem_cons_self, rfl⟩
          · obtain ⟨v, hv, hsome⟩ := ih (List.cons_ne_nil u us) (x - weight t)
            exact ⟨v, List.mem_cons_of_mem _ hv, hsome⟩

theorem exists_sample (source : Source σ) (h : ts ≠ []) (s : σ) :
    ∃ t ∈ ts, (sample source ts s).1 = some t.id := by
  unfold sample
  dsimp only
  split
  · obtain ⟨t, us, rfl⟩ := List.exists_cons_of_ne_nil h
    exact ⟨t, List.mem_cons_self, rfl⟩
  · exact exists_pick h _

/-- A loop is decided for one of its ways on that are there. -/
theorem exists_decideLoop (source : Source σ) (reached : Bool) {t : Transition α} (ht : t ∈ ts)
    (hrole : t.role = .loopBack ∨ t.role = .loopExit) (s : σ) :
    ∃ u ∈ ts, (decideLoop source reached (ts.find? (·.role = .loopBack))
      (ts.find? (·.role = .loopExit)) s).1 = some u.id := by
  cases hback : ts.find? (·.role = .loopBack) with
  | none =>
      cases hexit : ts.find? (·.role = .loopExit) with
      | none =>
          have hnot := List.find?_eq_none.mp hback t ht
          have hnot' := List.find?_eq_none.mp hexit t ht
          simp only [decide_eq_true_eq] at hnot hnot'
          exact (hrole.elim hnot hnot').elim
      | some exit => exact ⟨exit, List.mem_of_find?_eq_some hexit, rfl⟩
  | some back =>
      have hback := List.mem_of_find?_eq_some hback
      cases hexit : ts.find? (·.role = .loopExit) with
      | none => exact ⟨back, hback, rfl⟩
      | some exit =>
          have hexit := List.mem_of_find?_eq_some hexit
          unfold decideLoop
          cases reached with
          | true => exact ⟨exit, hexit, rfl⟩
          | false =>
              dsimp only
              rw [if_neg Bool.false_ne_true]
              dsimp only
              split
              · exact ⟨back, hback, rfl⟩
              · exact ⟨exit, hexit, rfl⟩

/-- The answer is one of the candidates. -/
theorem exists_candidate {w : Workflow α} {p : PlaceId} {m : Marking α} (source : Source σ)
    (h : candidates w.net p m ≠ []) (hdecisive : ∀ t ∈ candidates w.net p m, t.Decisive) (s : σ) :
    ∃ t ∈ candidates w.net p m, ((byDefault source).answer w p m s).1 = some t.id := by
  obtain ⟨first, rest, hcons⟩ := List.exists_cons_of_ne_nil h
  have hfirst : first ∈ candidates w.net p m := hcons ▸ List.mem_cons_self
  unfold byDefault
  dsimp only
  split
  · next hnil => exact absurd hnil h
  · next head tail hcons' =>
      obtain rfl : first = head := (List.cons.inj (hcons.symm.trans hcons')).1
      split
      · obtain ⟨t, ht, hsome⟩ := exists_firstBranch h
        exact ⟨t, ht, by rw [hsome]; rfl⟩
      · exact exists_sample source h s
      · next hkind =>
          exact exists_decideLoop source _ hfirst ((hdecisive first hfirst).loop hkind) s
      · exact ⟨first, hfirst, rfl⟩

end

end Resolver

/-- The resolver used by default heeds every strategy. -/
theorem Workflow.Consists.heeds_byDefault [Quantity α] {w : Workflow α} {P : Piece α}
    (h : w.Consists P) (source : Source σ) (strategy : Strategy α) :
    (Resolver.byDefault source).Heeds strategy w := by
  intro m s d hd
  have hdecisive : ∀ t ∈ Resolver.candidates w.net d.place m, t.Decisive := by
    intro t ht
    obtain ⟨ht, hstop, -⟩ := h.mem_candidates_iff.mp ht
    exact Piece.decisive_of_stop (h.transitions ▸ ht) hstop
  obtain ⟨t, ht, hanswer⟩ :=
    Resolver.exists_candidate source (h.candidates_ne_nil hd) hdecisive s
  exact ⟨t.id, h.id_mem_of_candidate hd ht, hanswer⟩

end RegionNet
