import Mathlib.Data.List.Count
import RegionNet.Net.Firing

/-!
# Tallies

The token game does not look at ages: whether a transition has its tokens depends on a marking only
through the number of tokens and visits of each place. This module takes the game apart from the
clock. A `Tally` is what the game sees of a marking; `Tally.fire` and `Tally.Admits` play it, and
`Tally.Path` is a sequence of moves. The main statements say that firing in a marking is firing in
its tally, that rest changes no tally, and that paths and runs are the same thing.
-/

namespace RegionNet

variable {α : Type}

/-- The numbers of tokens and visits of every place. -/
abbrev Tally := PlaceId → Nat × Nat

namespace Tally

/-- The tally after a transition with arcs of weight one has fired. -/
def fire (f : Tally) (t : Transition α) : Tally := fun p =>
  ((f p).1 - t.inputs.count p + t.outputs.count p,
    if p ∈ t.resetVisits then 0 else (f p).2 + t.inputs.count p)

/-- The inputs of a transition hold tokens and no bound forbids it. -/
def Admits (lim : PlaceId → Option Nat) (f : Tally) (t : Transition α) : Prop :=
  (∀ p ∈ t.inputs, 0 < (f p).1) ∧
    (t.role = .loopBack → ∀ p ∈ t.inputs, ∀ n, lim p = some n → (f p).2 < n)

/-- From one tally to another by firing transitions out of a list, each when it is admitted. -/
inductive Path (lim : PlaceId → Option Nat) (T : List (Transition α)) :
    Tally → List (Transition α) → Tally → Prop where
  | nil (f : Tally) : Path lim T f [] f
  | cons {f f' : Tally} {t : Transition α} {ts : List (Transition α)} (ht : t ∈ T)
      (ha : f.Admits lim t) (h : Path lim T (f.fire t) ts f') : Path lim T f (t :: ts) f'

theorem fire_of_notMem {f : Tally} {t : Transition α} {p : PlaceId} (hin : p ∉ t.inputs)
    (hout : p ∉ t.outputs) (hreset : p ∉ t.resetVisits) : f.fire t p = f p := by
  simp [fire, List.count_eq_zero_of_not_mem, hin, hout, hreset]

namespace Path

variable {lim : PlaceId → Option Nat} {T T' : List (Transition α)} {f f' f'' : Tally}
  {ts ts' : List (Transition α)}

theorem trans (h : Path lim T f ts f') (h' : Path lim T f' ts' f'') :
    Path lim T f (ts ++ ts') f'' := by
  induction h with
  | nil => exact h'
  | cons ht ha _ ih => exact .cons ht ha (ih h')

theorem mono (h : Path lim T f ts f') (hT : T ⊆ T') : Path lim T' f ts f' := by
  induction h with
  | nil => exact .nil _
  | cons ht ha _ ih => exact .cons (hT ht) ha ih

theorem single {t : Transition α} (ht : t ∈ T) (ha : f.Admits lim t) :
    Path lim T f [t] (f.fire t) := .cons ht ha (.nil _)

theorem of_append (h : Path lim T f (ts ++ ts') f'') :
    ∃ f', Path lim T f ts f' ∧ Path lim T f' ts' f'' := by
  induction ts generalizing f with
  | nil => exact ⟨f, .nil f, h⟩
  | cons t ts ih =>
      cases h with
      | cons ht ha h =>
          obtain ⟨f', hbefore, hafter⟩ := ih h
          exact ⟨f', .cons ht ha hbefore, hafter⟩

theorem mem (h : Path lim T f ts f') : ∀ t ∈ ts, t ∈ T := by
  induction h with
  | nil => exact fun _ ht => absurd ht List.not_mem_nil
  | cons ht _ _ ih => exact List.forall_mem_cons.mpr ⟨ht, ih⟩

theorem eq_foldl (h : Path lim T f ts f') : f' = ts.foldl fire f := by
  induction h with
  | nil => rfl
  | cons _ _ _ ih => exact ih

/-- What every move keeps, a path keeps. -/
theorem invariant {I : Tally → Prop} (h : Path lim T f ts f') (hf : I f)
    (hstep : ∀ g, I g → ∀ t ∈ T, g.Admits lim t → I (g.fire t)) : I f' := by
  induction h with
  | nil => exact hf
  | cons ht ha _ ih => exact ih (hstep _ hf _ ht ha)

/-- What holds of the start and passes along every move, with the moves so far, holds in the end. -/
theorem history {I : List (Transition α) → Tally → Prop} (h : Path lim T f ts f') (hf : I [] f)
    (hstep : ∀ us g, I us g → ∀ t ∈ T, g.Admits lim t → I (us ++ [t]) (g.fire t)) : I ts f' := by
  suffices hall : ∀ us, I us f → I (us ++ ts) f' from hall [] hf
  clear hf
  induction h with
  | nil =>
      intro us hus
      rwa [List.append_nil]
  | @cons _ _ t ts ht ha _ ih =>
      intro us hus
      have hnext := ih (us ++ [t]) (hstep us _ hus t ht ha)
      rwa [List.append_assoc, List.singleton_append] at hnext

theorem snoc {t : Transition α} (h : Path lim T f ts f') (ht : t ∈ T) (ha : f'.Admits lim t) :
    Path lim T f (ts ++ [t]) (f'.fire t) := h.trans (single ht ha)

end Path

end Tally

/-! ## The tally of a marking -/

namespace Marking

variable [Quantity α]

def tally (m : Marking α) : Tally := fun p => (m.tokens p, (m.state p).visits)

theorem tally_takeAll (ps : List PlaceId) : ∀ {m : Marking α}, m.Ordered →
    let taken := (ps.map (·, 1)).foldl (fun m (p, w) => m.modify p (.take w)) m
    taken.Ordered ∧
      ∀ p, taken.tally p = ((m.tally p).1 - ps.count p, (m.tally p).2 + ps.count p) := by
  induction ps with
  | nil => exact fun h => ⟨h, fun p => rfl⟩
  | cons q ps ih =>
      intro m h
      obtain ⟨hordered, htally⟩ := ih (h.modify q (.take 1))
      refine ⟨hordered, ?_⟩
      intro p
      rw [List.map_cons, List.foldl_cons, htally p]
      by_cases hp : p = q
      · subst hp
        simp only [tally, tokens, state_modify h, if_true, PlaceState.take, List.count_cons_self,
          Prod.mk.injEq]
        omega
      · simp [tally, tokens, state_modify h, hp, List.count_cons_of_ne (Ne.symm hp)]

theorem tally_putAll (ps : List PlaceId) : ∀ {m : Marking α}, m.Ordered →
    let put := (ps.map (·, 1)).foldl (fun m (p, w) => m.modify p (.put w)) m
    put.Ordered ∧ ∀ p, put.tally p = ((m.tally p).1 + ps.count p, (m.tally p).2) := by
  induction ps with
  | nil => exact fun h => ⟨h, fun p => rfl⟩
  | cons q ps ih =>
      intro m h
      obtain ⟨hordered, htally⟩ := ih (h.modify q (.put 1))
      refine ⟨hordered, ?_⟩
      intro p
      rw [List.map_cons, List.foldl_cons, htally p]
      by_cases hp : p = q
      · subst hp
        simp only [tally, tokens, state_modify h, if_true, PlaceState.put, List.count_cons_self]
        rw [Nat.add_assoc, Nat.add_comm 1]
      · simp [tally, tokens, state_modify h, hp, List.count_cons_of_ne (Ne.symm hp)]

theorem tally_forgetAll (ps : List PlaceId) : ∀ {m : Marking α}, m.Ordered →
    let forgotten := ps.foldl (fun m p => m.modify p .forget) m
    forgotten.Ordered ∧
      ∀ p, forgotten.tally p = ((m.tally p).1, if p ∈ ps then 0 else (m.tally p).2) := by
  induction ps with
  | nil => exact fun h => ⟨h, fun p => rfl⟩
  | cons q ps ih =>
      intro m h
      obtain ⟨hordered, htally⟩ := ih (h.modify q .forget)
      refine ⟨hordered, ?_⟩
      intro p
      rw [List.foldl_cons, htally p]
      by_cases hp : p = q
      · simp [tally, tokens, state_modify h, hp, PlaceState.forget]
      · simp [tally, tokens, state_modify h, hp]

theorem tally_restAll (dt : α) (ps : List PlaceId) : ∀ {m : Marking α}, m.Ordered →
    let rested := ps.foldl (fun m p => m.modify p (.rest dt)) m
    rested.Ordered ∧ rested.tally = m.tally := by
  induction ps with
  | nil => exact fun h => ⟨h, rfl⟩
  | cons q ps ih =>
      intro m h
      obtain ⟨hordered, htally⟩ := ih (h.modify q (.rest dt))
      refine ⟨hordered, ?_⟩
      rw [List.foldl_cons, htally]
      funext p
      by_cases hp : p = q
      · simp [tally, tokens, state_modify h, hp, PlaceState.rest]
      · simp [tally, tokens, state_modify h, hp]

theorem Ordered.fire {m : Marking α} (h : m.Ordered) {t : Transition α}
    (hpre : t.preset = t.inputs.map (·, 1)) (hpost : t.postset = t.outputs.map (·, 1)) :
    (m.fire t).Ordered := by
  unfold Marking.fire
  rw [hpre, hpost]
  exact (tally_forgetAll _ (tally_putAll _ (tally_takeAll _ h).1).1).1

/-- Firing in a marking is firing in its tally. -/
theorem tally_fire {m : Marking α} (h : m.Ordered) {t : Transition α}
    (hpre : t.preset = t.inputs.map (·, 1)) (hpost : t.postset = t.outputs.map (·, 1)) :
    (m.fire t).tally = m.tally.fire t := by
  have htake := tally_takeAll t.inputs h
  have hput := tally_putAll t.outputs htake.1
  have hforget := tally_forgetAll t.resetVisits hput.1
  funext p
  unfold Marking.fire
  rw [hpre, hpost, hforget.2 p, hput.2 p, htake.2 p]
  rfl

theorem Ordered.addTime {m : Marking α} (h : m.Ordered) (dt : α) : (m.addTime dt).Ordered :=
  (tally_restAll dt m.marked h).1

/-- Rest changes no tally. -/
theorem tally_addTime {m : Marking α} (h : m.Ordered) (dt : α) :
    (m.addTime dt).tally = m.tally := (tally_restAll dt m.marked h).2

/-! ### Markings with a single token -/

theorem Ordered.empty {net : Net α}
    (h : (net.places.map Place.id).Pairwise fun p q => p.index < q.index) :
    (Marking.empty net).Ordered := by
  unfold Ordered places Marking.empty
  rwa [List.map_map]

theorem state_empty (net : Net α) (p : PlaceId) : (Marking.empty net).state p = .fresh := by
  unfold state Marking.empty
  induction net.places with
  | nil => rfl
  | cons q qs ih =>
      rw [List.map_cons, List.lookup_cons]
      by_cases hp : p = q.id
      · simp [hp]
      · rwa [beq_false_of_ne hp]

variable {net : Net α} {p : PlaceId}

theorem Ordered.withToken (h : (net.places.map Place.id).Pairwise fun p q => p.index < q.index)
    (p : PlaceId) : (Marking.withTokens net [(p, 1)]).Ordered := (Ordered.empty h).modify p _

theorem state_withToken (h : (net.places.map Place.id).Pairwise fun p q => p.index < q.index)
    (p q : PlaceId) :
    (Marking.withTokens net [(p, 1)]).state q = if q = p then ⟨1, 0, 0⟩ else .fresh := by
  have hmodify : Marking.withTokens net [(p, 1)] =
      (Marking.empty net).modify p fun s => { s with tokens := 1 } := rfl
  rw [hmodify, state_modify (Ordered.empty h), state_empty, state_empty]
  rfl

theorem tally_withToken (h : (net.places.map Place.id).Pairwise fun p q => p.index < q.index)
    (p q : PlaceId) :
    (Marking.withTokens net [(p, 1)]).tally q = if q = p then (1, 0) else (0, 0) := by
  rw [tally, tokens, state_withToken h]
  split <;> rfl

theorem state_of_notMem {m : Marking α} (hp : p ∉ m.places) : m.state p = .fresh := by
  have hnone : m.states.lookup p = none := by
    rw [List.lookup_eq_none_iff]
    intro x hx
    exact bne_iff_ne.mpr fun he => hp (he ▸ List.mem_map_of_mem hx)
  rw [state, hnone]
  rfl

theorem tokens_of_notMem {m : Marking α} (hp : p ∉ m.places) : m.tokens p = 0 := by
  rw [tokens, state_of_notMem hp]
  rfl

/-- Comparing the listed places compares all. -/
theorem sameTokens_iff {m n : Marking α} :
    m.sameTokens n = true ↔ ∀ p, m.tokens p = n.tokens p := by
  simp only [sameTokens, List.all_eq_true, List.mem_append, beq_iff_eq]
  constructor
  · intro h p
    by_cases hp : p ∈ m.places ∨ p ∈ n.places
    · exact h p hp
    · rw [tokens_of_notMem fun hm => hp (Or.inl hm), tokens_of_notMem fun hn => hp (Or.inr hn)]
  · intro h p _
    exact h p

end Marking

/-! ## Runs -/

namespace Net

/-- The bound of the loop that is decided at a place. -/
def limit (net : Net α) (p : PlaceId) : Option Nat := (net.place? p).bind Place.visitLimit

variable [Quantity α]

theorem loopBoundReached_eq_false_iff {net : Net α} {t : Transition α} {m : Marking α} :
    net.loopBoundReached t m = false ↔
      (t.role = .loopBack → ∀ p ∈ t.inputs, ∀ n, net.limit p = some n → (m.tally p).2 < n) := by
  simp only [loopBoundReached, Bool.and_eq_false_imp, decide_eq_true_eq, List.any_eq_false,
    Bool.not_eq_true]
  refine forall_congr' fun _ => forall₂_congr ?_
  intro p _
  unfold limit
  cases (net.place? p).bind Place.visitLimit with
  | none => simp
  | some n => simp [Marking.tally]

theorem tokenEnabled_iff {net : Net α} {t : Transition α} {m : Marking α}
    (hpre : t.preset = t.inputs.map (·, 1)) :
    net.tokenEnabled t m = true ↔ m.tally.Admits net.limit t := by
  rw [tokenEnabled, Bool.and_eq_true, Bool.not_eq_true', loopBoundReached_eq_false_iff, hpre]
  simp [Tally.Admits, Marking.tally, Nat.one_le_iff_ne_zero, Nat.pos_iff_ne_zero]

/-- Transitions of the net fire one after the other, each of them when it is token-enabled. -/
inductive Run (net : Net α) : Marking α → List (Transition α) → Marking α → Prop where
  | nil (m : Marking α) : Run net m [] m
  | cons {m m' : Marking α} {t : Transition α} {ts : List (Transition α)}
      (ht : t ∈ net.transitions) (he : net.tokenEnabled t m = true) (h : Run net (m.fire t) ts m') :
      Run net m (t :: ts) m'

theorem Run.of_append {net : Net α} {ts us : List (Transition α)} {m m'' : Marking α}
    (h : net.Run m (ts ++ us) m'') : ∃ m', net.Run m ts m' ∧ net.Run m' us m'' := by
  induction ts generalizing m with
  | nil => exact ⟨m, .nil m, h⟩
  | cons t ts ih =>
      cases h with
      | cons ht he h =>
          obtain ⟨m', hbefore, hafter⟩ := ih h
          exact ⟨m', .cons ht he hbefore, hafter⟩

/-- The marking after the transitions at the given positions have fired one after the other, if each
of them was token-enabled. -/
def replay (net : Net α) : List Nat → Marking α → Option (Marking α)
  | [], m => some m
  | i :: is, m =>
    match net.transitions[i]? with
    | some t => if net.tokenEnabled t m then net.replay is (m.fire t) else none
    | none => none

theorem run_of_replay {net : Net α} {is : List Nat} {m' : Marking α} : ∀ {m : Marking α},
    net.replay is m = some m' → net.Run m (is.filterMap fun i => net.transitions[i]?) m' := by
  induction is with
  | nil =>
      intro m h
      cases h
      exact .nil _
  | cons i is ih =>
      intro m h
      unfold replay at h
      split at h
      · next t ht =>
          split at h
          · next he =>
              rw [List.filterMap_cons_some ht]
              exact .cons (List.mem_of_getElem? ht) he (ih h)
          · cases h
      · cases h

theorem exists_run_of_replay {net : Net α} {is : List Nat} {m m' : Marking α}
    (h : net.replay is m = some m') : ∃ ts, net.Run m ts m' := ⟨_, run_of_replay h⟩

/-- All arcs of the net have weight one. -/
def Plain (net : Net α) : Prop :=
  ∀ t ∈ net.transitions, t.preset = t.inputs.map (·, 1) ∧ t.postset = t.outputs.map (·, 1)

/-- A run of markings is a path of tallies. -/
theorem Run.path {net : Net α} {m m' : Marking α} {ts : List (Transition α)} (hnet : net.Plain)
    (h : net.Run m ts m') (hm : m.Ordered) :
    m'.Ordered ∧ Tally.Path net.limit net.transitions m.tally ts m'.tally := by
  induction h with
  | nil => exact ⟨hm, .nil _⟩
  | cons ht he _ ih =>
      obtain ⟨hpre, hpost⟩ := hnet _ ht
      obtain ⟨hordered, hpath⟩ := ih (hm.fire hpre hpost)
      rw [Marking.tally_fire hm hpre hpost] at hpath
      exact ⟨hordered, .cons ht ((tokenEnabled_iff hpre).mp he) hpath⟩

/-- Every path of tallies is run by markings. -/
theorem exists_run {net : Net α} {f f' : Tally} {ts : List (Transition α)} (hnet : net.Plain)
    (h : Tally.Path net.limit net.transitions f ts f') :
    ∀ {m : Marking α}, m.Ordered → m.tally = f → ∃ m', net.Run m ts m' ∧ m'.tally = f' := by
  induction h with
  | nil => exact fun _ hf => ⟨_, .nil _, hf⟩
  | cons ht ha _ ih =>
      intro m hm hf
      subst hf
      obtain ⟨hpre, hpost⟩ := hnet _ ht
      obtain ⟨m', hrun, htally⟩ := ih (hm.fire hpre hpost) (Marking.tally_fire hm hpre hpost)
      exact ⟨m', .cons ht ((tokenEnabled_iff hpre).mpr ha) hrun, htally⟩

/-- What can be reached when token-enabled transitions fire and the clock is put forward, or back,
in between. -/
inductive Wanders (net : Net α) : Marking α → Marking α → Prop where
  | refl (m : Marking α) : Wanders net m m
  | fire {m m' : Marking α} {t : Transition α} (h : Wanders net m m') (ht : t ∈ net.transitions)
      (he : net.tokenEnabled t m' = true) : Wanders net m (m'.fire t)
  | rest {m m' : Marking α} (h : Wanders net m m') (dt : α) : Wanders net m (m'.addTime dt)

theorem Wanders.path {net : Net α} {m m' : Marking α} (hnet : net.Plain) (h : net.Wanders m m')
    (hm : m.Ordered) :
    m'.Ordered ∧ ∃ ts, Tally.Path net.limit net.transitions m.tally ts m'.tally := by
  induction h with
  | refl => exact ⟨hm, [], .nil _⟩
  | fire _ ht he ih =>
      obtain ⟨hordered, ts, hpath⟩ := ih
      obtain ⟨hpre, hpost⟩ := hnet _ ht
      rw [Marking.tally_fire hordered hpre hpost]
      exact ⟨hordered.fire hpre hpost, _, hpath.snoc ht ((tokenEnabled_iff hpre).mp he)⟩
  | rest _ _ ih =>
      obtain ⟨hordered, ts, hpath⟩ := ih
      rw [Marking.tally_addTime hordered]
      exact ⟨hordered.addTime _, ts, hpath⟩

theorem Run.wanders {net : Net α} {m m' m'' : Marking α} {ts : List (Transition α)}
    (h : net.Run m' ts m'') (hm : net.Wanders m m') : net.Wanders m m'' := by
  induction h with
  | nil => exact hm
  | cons ht he _ ih => exact ih (.fire hm ht he)

/-- What can be reached when transitions fire as soon as they are token-enabled, or later, and time
passes in between. -/
inductive Reaches (net : Net α) : Marking α → Marking α → Prop where
  | refl (m : Marking α) : Reaches net m m
  | fire {m m' : Marking α} {t : Transition α} (h : Reaches net m m') (ht : t ∈ net.transitions)
      (he : net.tokenEnabled t m' = true) : Reaches net m (m'.fire t)
  | rest {m m' : Marking α} {dt : α} (h : Reaches net m m') (hdt : 0 ≤ dt) :
      Reaches net m (m'.addTime dt)

theorem Reaches.wanders {net : Net α} {m m' : Marking α} (h : net.Reaches m m') :
    net.Wanders m m' := by
  induction h with
  | refl => exact .refl _
  | fire _ ht he ih => exact .fire ih ht he
  | rest _ _ ih => exact .rest ih _

end Net

end RegionNet
