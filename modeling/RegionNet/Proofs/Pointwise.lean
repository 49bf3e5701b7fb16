import RegionNet.Proofs.Commuting
import RegionNet.Proofs.Doubles
import RegionNet.Proofs.FreeChoice
import RegionNet.Proofs.Siblings

/-!
# Markings, place by place

A place that a marking does not list counts as empty, but comparing two markings compares the lists.
Both come to the same for the markings that arise from a net (`Net.Formed`): whatever fires, enabled
or not, and however long tokens rest, the places of the net are listed and no others
(`Consists.lists_of_formed`). So such markings compare as equal exactly if they agree on every
place, and then nothing that is asked of a marking tells them apart
(`Workflow.compares_of_compile`).
-/

namespace RegionNet

variable {α : Type} [Quantity α]

/-- The markings that arise from a net: tokens are put on its places, its transitions fire, enabled
or not, and time passes. -/
inductive Net.Formed (net : Net α) : Marking α → Prop where
  | empty : Formed net (.empty net)
  | withTokens (tokens : List (PlaceId × Nat)) (h : ∀ x ∈ tokens, x.1 ∈ net.places.map Place.id) :
      Formed net (.withTokens net tokens)
  | fire {m : Marking α} {t : Transition α} (h : Formed net m) (ht : t ∈ net.transitions) :
      Formed net (m.fire t)
  | addTime {m : Marking α} (h : Formed net m) (dt : α) : Formed net (m.addTime dt)

/-! ## The places that are listed -/

namespace Workflow.Consists

variable {w : Workflow α} {P : Piece α} {m : Marking α}

theorem formed_initial (h : w.Consists P) : w.net.Formed w.initial := by
  rw [h.initial]
  exact .withTokens _ (List.forall_mem_singleton.mpr
    (h.mem_places_iff.mpr h.placed.entry_mem_ground))

theorem formed_final (h : w.Consists P) : w.net.Formed w.final := by
  rw [h.final]
  exact .withTokens _ (List.forall_mem_singleton.mpr (h.mem_places_iff.mpr P.exit_mem_ground))

/-- Nothing that happens in a workflow adds a place to a marking or takes one away. -/
theorem lists_of_formed (h : w.Consists P) (hm : w.net.Formed m) : w.net.Lists m := by
  induction hm with
  | empty => exact Net.lists_empty h.ordered
  | withTokens tokens htokens => exact Net.lists_withTokens h.ordered htokens
  | fire _ ht ih => exact h.lists_fire ih ht
  | addTime _ dt ih => exact ih.addTime dt

end Workflow.Consists

/-! ## Comparing -/

/-- Equal numbers of tokens and visits, and ages that compare as equal. -/
structure PlaceState.Agrees (s s' : PlaceState α) : Prop where
  tokens : s.tokens = s'.tokens
  age : (s.age == s'.age) = true
  visits : s.visits = s'.visits

theorem PlaceState.beq_iff_agrees {s s' : PlaceState α} : (s == s') = true ↔ s.Agrees s' := by
  obtain ⟨n, a, v⟩ := s
  obtain ⟨n', a', v'⟩ := s'
  show (n == n' && (a == a' && v == v')) = true ↔ _
  simp only [Bool.and_eq_true, beq_iff_eq]
  exact ⟨fun h => ⟨h.1, h.2.1, h.2.2⟩, fun h => ⟨h.tokens, h.age, h.visits⟩⟩

/-- Markings that list the places of one net compare as equal if they agree on each of these. -/
theorem Net.Lists.beq_iff {net : Net α} {m m' : Marking α} (hm : net.Lists m)
    (hm' : net.Lists m') :
    (m == m') = true ↔ ∀ p ∈ net.places.map Place.id, (m.state p).Agrees (m'.state p) := by
  have hbeq : (m == m') = true ↔ List.Forall₂ Marking.Alike m.states m'.states :=
    Marking.beq_iff_forall₂
  rw [hbeq, Marking.states_eq hm.ordered, Marking.states_eq hm'.ordered, hm.places, hm'.places,
    List.forall₂_map_left_iff, List.forall₂_map_right_iff, List.forall₂_same]
  refine forall₂_congr fun p _ => ?_
  exact ⟨fun h => ⟨h.tokens, h.age, h.visits⟩, fun h => ⟨rfl, h.tokens, h.age, h.visits⟩⟩

namespace Marking

/-- Having equal numbers of tokens is an equivalence, whatever the markings list. -/
theorem sameTokens_equivalence : Equivalence fun m n : Marking α => m.sameTokens n = true where
  refl _ := sameTokens_iff.mpr fun _ => rfl
  symm h := sameTokens_iff.mpr fun p => (sameTokens_iff.mp h p).symm
  trans h h' := sameTokens_iff.mpr fun p => (sameTokens_iff.mp h p).trans (sameTokens_iff.mp h' p)

theorem sameTokens_congr {m m' : Marking α} (h : m.sameTokens m' = true) (n : Marking α) :
    m.sameTokens n = m'.sameTokens n :=
  Bool.eq_iff_iff.mpr ⟨sameTokens_equivalence.trans (sameTokens_equivalence.symm h),
    sameTokens_equivalence.trans h⟩

end Marking

/-! ### Ages as floating-point numbers -/

/-- What compares as equal compares alike with everything else. -/
theorem beq_eq_of_beq {x y : Float} (h : (x == y) = true) (z : Float) : (x == z) = (y == z) := by
  rw [Float.beq_iff_ne_nan_and_eq] at h
  rw [Bool.eq_iff_iff, Float.beq_iff_ne_nan_and_eq, Float.beq_iff_ne_nan_and_eq]
  grind

theorem beq_self_iff {x : Float} : (x == x) = true ↔ x.isNaN = false := by
  rw [Float.beq_iff_ne_nan_and_eq, Float.isNaN_eq_decide_eq_nan, decide_eq_false_iff_not]
  exact ⟨fun h => h.1, fun h => ⟨h, h, Or.inl rfl⟩⟩

theorem PlaceState.Agrees.beq_eq {s s' : PlaceState Float} (h : s.Agrees s')
    (expected : PlaceState Float) : (s == expected) = (s' == expected) := by
  rw [Bool.eq_iff_iff, beq_iff_agrees, beq_iff_agrees]
  have hage := beq_eq_of_beq h.age expected.age
  constructor
  · intro hs
    exact ⟨h.tokens.symm.trans hs.tokens, hage ▸ hs.age, h.visits.symm.trans hs.visits⟩
  · intro hs'
    exact ⟨h.tokens.trans hs'.tokens, hage ▸ hs'.age, h.visits.trans hs'.visits⟩

/-- Markings that list the places of one net agree on all places if they agree on those. -/
theorem Net.Lists.agrees {net : Net Float} {m m' : Marking Float} (hm : net.Lists m)
    (hm' : net.Lists m')
    (h : ∀ p ∈ net.places.map Place.id, (m.state p).Agrees (m'.state p)) (p : PlaceId) :
    (m.state p).Agrees (m'.state p) := by
  by_cases hp : p ∈ net.places.map Place.id
  · exact h p hp
  · -- a place that is not listed is fresh
    rw [Marking.state_of_notMem (hm.places.symm ▸ hp),
      Marking.state_of_notMem (hm'.places.symm ▸ hp)]
    exact ⟨rfl, by decide, rfl⟩

/-- Comparing the markings of a workflow is comparing them place by place. -/
structure Workflow.Compares (w : Workflow Float) : Prop where
  /-- Where the process starts and where it ends are markings of the net. -/
  bounds : w.net.Formed w.initial ∧ w.net.Formed w.final
  /-- A marking lists the places of the net, each of them once. -/
  places : ∀ m, w.net.Formed m → m.places = w.net.places.map Place.id
  once : (w.net.places.map Place.id).Nodup
  pointwise : ∀ m m', w.net.Formed m → w.net.Formed m' →
    ((m == m') = true ↔ ∀ p, (m.state p).Agrees (m'.state p))
  /-- Only an undefined age keeps a marking from being equal to itself. -/
  itself : ∀ m, w.net.Formed m → ((m == m) = true ↔ ∀ p, (m.state p).age.isNaN = false)
  /-- Equal markings answer every question alike. -/
  alike : ∀ m m', w.net.Formed m → w.net.Formed m' → (m == m') = true →
    m.sameTokens m' = true ∧ (∀ n, m.sameTokens n = m'.sameTokens n) ∧
      w.isFinal m = w.isFinal m' ∧ ∀ pattern, m.fits pattern = m'.fits pattern
  tokens : Equivalence fun m n : Marking Float => m.sameTokens n = true

theorem Workflow.Consists.compares {w : Workflow Float} {P : Piece Float} (h : w.Consists P) :
    w.Compares := by
  have hpointwise : ∀ m m', w.net.Formed m → w.net.Formed m' →
      ((m == m') = true ↔ ∀ p, (m.state p).Agrees (m'.state p)) := by
    intro m m' hm hm'
    have hlists := h.lists_of_formed hm
    have hlists' := h.lists_of_formed hm'
    rw [hlists.beq_iff hlists']
    exact ⟨hlists.agrees hlists', fun hall p _ => hall p⟩
  refine ⟨⟨h.formed_initial, h.formed_final⟩, fun m hm => (h.lists_of_formed hm).places,
    h.nodup_places, hpointwise, ?_, ?_, Marking.sameTokens_equivalence⟩
  · intro m hm
    rw [hpointwise m m hm hm]
    refine forall_congr' fun p => ?_
    rw [← beq_self_iff]
    exact ⟨fun hp => hp.age, fun hage => ⟨rfl, hage, rfl⟩⟩
  · intro m m' hm hm' heq
    have hagrees := (hpointwise m m' hm hm').mp heq
    have htokens : m.sameTokens m' = true := Marking.sameTokens_iff.mpr fun p => (hagrees p).tokens
    refine ⟨htokens, Marking.sameTokens_congr htokens, Marking.sameTokens_congr htokens w.final, ?_⟩
    intro pattern
    unfold Marking.fits
    congr 1
    funext ⟨p, expected⟩
    exact (hagrees p).beq_eq expected

/-- The markings that arise from a compiled process list its places, whatever happens, so comparing
them is comparing them place by place. -/
theorem Workflow.compares_of_compile {r : Region Float} {w : Workflow Float}
    (h : compile r = .ok w) : w.Compares := by
  obtain ⟨blk, n, -, hcompile, hproper, -⟩ := compile_of_validate (compile_eq_ok_iff.mp ⟨w, h⟩)
  obtain ⟨P, rfl, hP⟩ := exists_piece hproper
  obtain rfl := Except.ok.inj (hcompile.symm.trans h)
  exact hP.compares

/-- A loop around a task, after two short rests and after a long one: the markings are equal, so
every pattern fits both or none. Going back fires without tokens, and still the places of the net
are the ones that are listed. After a rest of undefined length the marking is not equal to itself,
though it has the tokens that it has. -/
theorem Workflow.compares_sample :
    let work : Region Float := ⟨"a", .task, none, 1, some [2.5], none, none, none⟩
    let again : Region Float :=
      ⟨"l", .loop, none, 0, none, some [work], some (.single 0.5), some 3⟩
    ∃ (w : Workflow Float) (back : Transition Float), compile again = .ok w ∧
      back ∈ w.net.transitions ∧ back.role = .loopBack ∧
      (let short := (w.initial.addTime 0.25).addTime 0.5
       let long := w.initial.addTime 0.75
       (short == long) = true ∧ (∀ pattern, short.fits pattern = long.fits pattern) ∧
         w.net.tokenEnabled back long = false ∧
         (long.fire back).places = w.net.places.map Place.id) ∧
      (let undefined := w.initial.addTime (0.0 / 0.0)
       (undefined == undefined) = false ∧ undefined.sameTokens undefined = true) := by
  intro work again
  obtain ⟨w, hw⟩ := compile_eq_ok_iff.mpr (show again.validate = .ok () by decide +kernel)
  have hcompares := compares_of_compile hw
  have hcheck : (match compile again with
      | .ok w =>
          let long := w.initial.addTime 0.75
          (w.initial.addTime 0.25).addTime 0.5 == long &&
            ((w.initial.addTime (0.0 / 0.0)).state ⟨0⟩).age.isNaN &&
            (w.net.transitions[2]?).any fun t =>
              t.role = .loopBack ∧ w.net.tokenEnabled t long = false
      | .error _ => false) = true := by decide +kernel
  rw [hw] at hcheck
  simp only [Bool.and_eq_true, Option.any_eq_true, decide_eq_true_eq] at hcheck
  obtain ⟨⟨hequal, hage⟩, back, hback, hrole, hdisabled⟩ := hcheck
  have hmem := List.mem_of_getElem? hback
  have hinitial := hcompares.bounds.1
  refine ⟨w, back, hw, hmem, hrole, ⟨hequal, ?_, hdisabled, ?_⟩, ?_, ?_⟩
  · exact (hcompares.alike _ _ ((hinitial.addTime _).addTime _) (hinitial.addTime _) hequal).2.2.2
  · exact hcompares.places _ (.fire (hinitial.addTime _) hmem)
  · refine Bool.eq_false_iff.mpr fun heq => ?_
    have hdefined := (hcompares.itself _ (hinitial.addTime _)).mp heq ⟨0⟩
    rw [hage] at hdefined
    cases hdefined
  · exact hcompares.tokens.refl _

end RegionNet
