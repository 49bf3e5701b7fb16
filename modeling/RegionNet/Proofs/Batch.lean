import RegionNet.Proofs.Conflict
import RegionNet.Proofs.Proper

/-!
# Batches

Several transitions that fire in one go, one after the other, although all of them were admitted
before the first of them fired. If none of them takes a token that another one takes, they all stay
admitted until their turn comes (`path_of_batch`), wherever tokens may be otherwise.

Transitions that fire on their own can go on only for so long: none of them fires twice before the
next decision (`Placed.pristine_path`).
-/

namespace RegionNet

variable {α : Type} {lim : PlaceId → Option Nat} {f g : Tally} {t u : Transition α} {p : PlaceId}

theorem Tally.Admits.congr (h : f.Admits lim t) (hfg : ∀ p ∈ t.inputs, g p = f p) :
    g.Admits lim t := by
  constructor
  · intro p hp
    rw [hfg p hp]
    exact h.1 p hp
  · intro hrole p hp n hn
    rw [hfg p hp]
    exact h.2 hrole p hp n hn

theorem countP_lt_countP {β : Type} {q r : β → Bool} {xs : List β} (h : ∀ x ∈ xs, q x → r x) {y : β}
    (hy : y ∈ xs) (hr : r y = true) (hq : q y = false) : xs.countP q < xs.countP r := by
  obtain ⟨l, l', rfl⟩ := List.append_of_mem hy
  have hl : l.countP q ≤ l.countP r :=
    List.countP_mono_left fun x hx => h x (List.mem_append_left _ hx)
  have hl' : l'.countP q ≤ l'.countP r :=
    List.countP_mono_left fun x hx => h x (List.mem_append_right _ (List.mem_cons_of_mem _ hx))
  rw [List.countP_append, List.countP_append, List.countP_cons, List.countP_cons, hr, hq]
  simp only [if_true, Bool.false_eq_true, if_false]
  omega

namespace Piece

variable {P : Piece α} {ts : List (Transition α)}

/-- No transition takes a token from a place that the other takes one from. -/
def Independent (t u : Transition α) : Prop := ∀ p ∈ u.inputs, p ∉ t.inputs

/-- Transitions that fire on their own and have not fired since the last decision: their tokens
have not been taken yet. -/
def pristine (P : Piece α) [Quantity α] (f : Tally) : Nat :=
  P.transitions.countP fun t => !t.stop && t.inputs.all fun p => (f p).2 == 0

variable [Quantity α]

theorem Placed.busy_of_admits (hP : Placed lim P) (hlive : P.Live f) (ht : t ∈ P.transitions)
    (ha : f.Admits lim t) : P.Busy f := by
  rcases hlive with ⟨hbusy, _⟩ | ⟨hdone, _⟩
  · exact hbusy
  · exact absurd ha (hP.not_admits_of_done hdone ht)

omit [Quantity α] in
/-- Where one of two independent transitions has fired, the other is still admitted: on its places
tokens have only been put, and visits only forgotten. -/
theorem admits_of_independent (hau : f.Admits lim u) (hindep : Independent t u) :
    (f.fire t).Admits lim u := by
  have hcount : ∀ p ∈ u.inputs, t.inputs.count p = 0 := fun p hp =>
    List.count_eq_zero_of_not_mem (hindep p hp)
  constructor
  · intro p hp
    have hmarked := hau.1 p hp
    have htokens : (f.fire t p).1 = (f p).1 - t.inputs.count p + t.outputs.count p := rfl
    rw [hcount p hp] at htokens
    omega
  · intro hrole p hp n hn
    have hlt := hau.2 hrole p hp n hn
    simp only [Tally.fire, hcount p hp]
    split
    · exact Nat.zero_lt_of_lt hlt
    · exact hlt

omit [Quantity α] in
/-- Independent transitions that are all admitted can fire one after the other. -/
theorem path_of_batch {T : List (Transition α)} (hts : ∀ t ∈ ts, t ∈ T ∧ f.Admits lim t)
    (hindep : ts.Pairwise Independent) : Tally.Path lim T f ts (ts.foldl Tally.fire f) := by
  induction ts generalizing f with
  | nil => exact .nil f
  | cons t ts ih =>
      obtain ⟨⟨ht, ha⟩, hts⟩ := List.forall_mem_cons.mp hts
      obtain ⟨hfirst, hindep⟩ := List.pairwise_cons.mp hindep
      refine .cons ht ha (ih (fun u hu => ?_) hindep)
      obtain ⟨hu', hau⟩ := hts u hu
      exact ⟨hu', admits_of_independent hau (hfirst u hu)⟩

theorem Placed.live_path {f' : Tally} (hP : Placed lim P) (hlive : P.Live f)
    (hpath : Tally.Path lim P.transitions f ts f') : P.Live f' :=
  hpath.invariant hlive fun _ hg _ ht ha => hP.step_live hg ht ha

/-- Transitions that fire on their own want different tokens. -/
theorem Placed.independent_of_free (hP : Placed lim P) (ht : t ∈ P.transitions)
    (hu : u ∈ P.transitions) (hstop : t.stop = false) (hne : t ≠ u) : Independent t u := by
  intro p hpu hpt
  rcases hP.shared ht hu hpt hpu with he | ⟨hstop', _⟩
  · exact hne he
  · rw [hstop] at hstop'
    cases hstop'

/-- A transition that fires on its own is used up. -/
theorem Placed.pristine_fire (hP : Placed lim P) (hbusy : P.Busy f) (ht : t ∈ P.transitions)
    (ha : f.Admits lim t) (hstop : t.stop = false) : P.pristine (f.fire t) < P.pristine f := by
  obtain ⟨hinputs, hresets⟩ := (hP.event hbusy ht ha).free hstop
  refine countP_lt_countP (fun u _ hu => ?_) ht ?_ ?_
  · rw [Bool.and_eq_true, List.all_eq_true] at hu ⊢
    refine ⟨hu.1, ?_⟩
    intro p hp
    have hzero := hu.2 p hp
    have hle := Tally.visits_le_fire (f := f) hresets p
    rw [beq_iff_eq] at hzero ⊢
    omega
  · rw [hstop, Bool.not_false, Bool.true_and, List.all_eq_true]
    intro p hp
    rw [hinputs p hp]
    rfl
  · obtain ⟨p, hp⟩ := List.exists_mem_of_ne_nil _ (hP.within ht).takes
    rw [hstop, Bool.not_false, Bool.true_and, List.all_eq_false]
    refine ⟨p, hp, ?_⟩
    have hcount : 0 < t.inputs.count p := List.count_pos_iff.mpr hp
    simp [Tally.fire, hresets, hinputs p hp, hcount.ne']

/-- None of the transitions that fire on their own fires twice. -/
theorem Placed.pristine_path {f' : Tally} (hP : Placed lim P) (hlive : P.Live f)
    (hpath : Tally.Path lim P.transitions f ts f') (hstop : ∀ t ∈ ts, t.stop = false) :
    P.pristine f' + ts.length ≤ P.pristine f := by
  induction hpath with
  | nil => exact Nat.le_refl _
  | @cons f f' t ts ht ha _ ih =>
      obtain ⟨ht', hts⟩ := List.forall_mem_cons.mp hstop
      have hlt := hP.pristine_fire (hP.busy_of_admits hlive ht ha) ht ha ht'
      have hle := ih (hP.step_live hlive ht ha) hts
      rw [List.length_cons]
      omega

/-- Every firing uses up a visit that was left. -/
theorem Placed.left_path {f' : Tally} (hP : Placed lim P) (hlive : P.Live f)
    (hpath : Tally.Path lim P.transitions f ts f') : P.left f' + ts.length ≤ P.left f := by
  induction hpath with
  | nil => exact Nat.le_refl _
  | @cons f f' t ts ht ha _ ih =>
      have hlt := hP.left_fire (hP.busy_of_admits hlive ht ha) ht ha
      have hle := ih (hP.step_live hlive ht ha)
      rw [List.length_cons]
      omega

/-! ## Decisions -/

/-- The transition can take the decision that is open at a place. -/
structure Decides (lim : PlaceId → Option Nat) (P : Piece α) (f : Tally) (p : PlaceId)
    (t : Transition α) : Prop where
  mem : t ∈ P.transitions
  admits : f.Admits lim t
  stop : t.stop = true
  inputs : t.inputs = [p]

theorem Decides.congr {P : Piece α} {t : Transition α} (h : P.Decides lim f p t) (hg : g p = f p) :
    P.Decides lim g p t := by
  refine ⟨h.mem, h.admits.congr fun q hq => ?_, h.stop, h.inputs⟩
  rw [h.inputs, List.mem_singleton] at hq
  rw [hq, hg]

theorem independent_of_decides {P : Piece α} {ps : List PlaceId} {ts : List (Transition α)}
    (h : List.Forall₂ (P.Decides lim f) ps ts) (hps : ps.Nodup) : ts.Pairwise Independent := by
  refine pairwise_of_forall₂ h hps fun p q t u ht hu hne r hru hrt => hne ?_
  rw [ht.inputs, List.mem_singleton] at hrt
  rw [hu.inputs, List.mem_singleton] at hru
  rw [← hrt, ← hru]

end Piece

/-! ## Rounds and decisions of a workflow -/

namespace Workflow.Consists

variable [Quantity α] {w : Workflow α} {P : Piece α} {m : Marking α} {ts : List (Transition α)}

/-- What is enabled and no decision fires in one go. -/
theorem path_of_round (h : w.Consists P)
    (hts : ∀ t ∈ ts, t ∈ w.net.transitions ∧ w.net.tokenEnabled t m = true) (hnodup : ts.Nodup)
    (hstop : ∀ t ∈ ts, t.stop = false) :
    Tally.Path w.net.limit w.net.transitions m.tally ts (ts.foldl Tally.fire m.tally) := by
  have hmem : ∀ t ∈ ts, t ∈ P.transitions ∧ m.tally.Admits w.net.limit t := by
    intro t ht
    obtain ⟨ht, he⟩ := hts t ht
    exact ⟨h.transitions ▸ ht, (h.enabled_iff ht).mp he⟩
  rw [h.transitions]
  refine Piece.path_of_batch hmem (hnodup.imp_of_mem fun ht hu hne => ?_)
  exact h.placed.independent_of_free (hmem _ ht).1 (hmem _ hu).1 (hstop _ ht) hne

/-- What takes decisions at different places fires in one go. -/
theorem path_of_decides {ps : List PlaceId} (h : w.Consists P)
    (hts : List.Forall₂ (P.Decides w.net.limit m.tally) ps ts) (hps : ps.Nodup) :
    Tally.Path w.net.limit w.net.transitions m.tally ts (ts.foldl Tally.fire m.tally) := by
  rw [h.transitions]
  refine Piece.path_of_batch (fun t ht => ?_) (Piece.independent_of_decides hts hps)
  obtain ⟨p, -, hp⟩ := exists_left_of_forall₂ hts ht
  exact ⟨hp.mem, hp.admits⟩

theorem exists_decides_of_stop (h : w.Consists P) (hlive : P.Live m.tally)
    (ht : t ∈ w.net.transitions) (hstop : t.stop = true) (he : w.net.tokenEnabled t m = true) :
    ∃ p, P.Decides w.net.limit m.tally p t := by
  have ha : m.tally.Admits w.net.limit t := (h.enabled_iff ht).mp he
  rw [h.transitions] at ht
  have hbusy := h.placed.busy_of_admits hlive ht ha
  obtain ⟨p, v, hin, _⟩ := (h.placed.event hbusy ht ha).decision hstop
  exact ⟨p, ht, ha, hstop, hin⟩

end Workflow.Consists

end RegionNet
