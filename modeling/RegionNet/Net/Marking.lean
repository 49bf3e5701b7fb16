import RegionNet.Net.Basic

/-!
# Markings

A marking says for each place how many tokens rest there, for how long they have been there, and how
often a token has left. It is an association list in ascending order of places; a place that is not
listed is empty, fresh and unvisited.

Two markings are equal only if they list the same places with equal states, which is finer than
agreeing on every place; `Marking.sameTokens` is coarser. The main statement here is
`Marking.state_modify`: in a marking that is listed in order, changing a place changes its state and
no other.
-/

namespace RegionNet

/-- The state of one place. -/
structure PlaceState (α : Type) where
  tokens : Nat
  /-- Time since the tokens arrived. -/
  age : α
  /-- How often a token has left. -/
  visits : Nat
  deriving BEq, Repr

namespace PlaceState

variable {α : Type} [Quantity α]

def fresh : PlaceState α := ⟨0, 0, 0⟩

def withTokens (n : Nat) : PlaceState α := ⟨n, 0, 0⟩

end PlaceState

structure Marking (α : Type) where
  states : List (PlaceId × PlaceState α)
  deriving BEq, Repr

/-- A partial description of a marking: states that some places must have. -/
abbrev Pattern (α : Type) := List (PlaceId × PlaceState α)

namespace Marking

variable {α : Type} [Quantity α]

/-- The state listed for a place. -/
def state (m : Marking α) (p : PlaceId) : PlaceState α := (m.states.lookup p).getD .fresh

def tokens (m : Marking α) (p : PlaceId) : Nat := (m.state p).tokens

/-- The listed places. -/
def places (m : Marking α) : List PlaceId := m.states.map Prod.fst

/-- Changes the state of one place in a list in ascending order. -/
def modifyStates (p : PlaceId) (f : PlaceState α → PlaceState α) :
    List (PlaceId × PlaceState α) → List (PlaceId × PlaceState α)
  | [] => [(p, f .fresh)]
  | (q, s) :: rest =>
    if p = q then (q, f s) :: rest
    else if p.index < q.index then (p, f .fresh) :: (q, s) :: rest
    else (q, s) :: modifyStates p f rest

/-- Changes the state of one place, which is listed from then on. -/
def modify (m : Marking α) (p : PlaceId) (f : PlaceState α → PlaceState α) : Marking α :=
  ⟨modifyStates p f m.states⟩

def setTokens (m : Marking α) (p : PlaceId) (n : Nat) : Marking α :=
  m.modify p fun s => { s with tokens := n }

/-- The marking without tokens that lists the places of a net. -/
def empty (net : Net α) : Marking α := ⟨net.places.map fun p => (p.id, .fresh)⟩

/-- The marking with the given numbers of tokens on the given places and none elsewhere. -/
def withTokens (net : Net α) (tokens : List (PlaceId × Nat)) : Marking α :=
  tokens.foldl (fun m (p, n) => m.setTokens p n) (empty net)

/-- The places that hold a token. -/
def marked (m : Marking α) : List PlaceId :=
  (m.states.filter fun (_, s) => 0 < s.tokens).map Prod.fst

/-- Equal numbers of tokens on every place. -/
def sameTokens (m n : Marking α) : Bool :=
  (m.places ++ n.places).all fun p => m.tokens p == n.tokens p

/-- Every place of the pattern has the state that the pattern asks for. -/
def fits (m : Marking α) (pattern : Pattern α) : Bool :=
  pattern.all fun (p, s) => m.state p == s

/-! ## Order -/

/-- The places are listed in ascending order, each of them once. -/
def Ordered (m : Marking α) : Prop := m.places.Pairwise fun p q => p.index < q.index

theorem lookup_modifyStates (p q : PlaceId) (f : PlaceState α → PlaceState α) :
    ∀ states : List (PlaceId × PlaceState α),
      (states.map Prod.fst).Pairwise (fun p q => p.index < q.index) →
      ((modifyStates p f states).lookup q).getD .fresh =
        if q = p then f ((states.lookup p).getD .fresh) else (states.lookup q).getD .fresh
  | [], _ => by
    by_cases h : q = p
    · simp [modifyStates, h]
    · simp [modifyStates, List.lookup_cons, beq_false_of_ne h, h]
  | (r, s) :: rest, h => by
    rw [List.map_cons, List.pairwise_cons] at h
    unfold modifyStates
    by_cases hp : p = r
    · subst hp
      by_cases hq : q = p
      · simp [hq]
      · simp [List.lookup_cons, beq_false_of_ne hq, hq]
    · by_cases hlt : p.index < r.index
      · have hnone : ((r, s) :: rest).lookup p = none := by
          rw [List.lookup_eq_none_iff]
          intro x hx
          rcases List.mem_cons.1 hx with rfl | hx
          · exact bne_iff_ne.2 hp
          · refine bne_iff_ne.2 fun e => ?_
            have := h.1 x.1 (List.mem_map_of_mem hx)
            rw [← e] at this
            exact Nat.lt_asymm hlt this
        simp only [hp, hlt, if_false, if_true, hnone]
        by_cases hq : q = p
        · simp [hq]
        · simp [List.lookup_cons, beq_false_of_ne hq, hq]
      · have ih := lookup_modifyStates p q f rest h.2
        simp only [hp, hlt, if_false]
        by_cases hq : q = r
        · subst hq
          have : ¬ q = p := fun h => hp h.symm
          simp [this]
        · simp [List.lookup_cons, beq_false_of_ne hq, beq_false_of_ne hp, ih]

/-- Changing the state of one place changes it there and nowhere else. -/
theorem state_modify {m : Marking α} (h : m.Ordered) (p q : PlaceId)
    (f : PlaceState α → PlaceState α) :
    (m.modify p f).state q = if q = p then f (m.state p) else m.state q :=
  lookup_modifyStates p q f m.states h

theorem mem_map_modifyStates (p : PlaceId) (f : PlaceState α → PlaceState α) :
    ∀ states : List (PlaceId × PlaceState α), ∀ q,
      q ∈ (modifyStates p f states).map Prod.fst → q = p ∨ q ∈ states.map Prod.fst
  | [], q, h => by simpa [modifyStates] using h
  | (r, s) :: rest, q, h => by
    unfold modifyStates at h
    split at h
    · exact Or.inr h
    · split at h
      · rw [List.map_cons, List.mem_cons] at h
        exact h
      · rw [List.map_cons, List.mem_cons] at h
        rcases h with h | h
        · exact Or.inr (List.mem_cons.2 (Or.inl h))
        · exact (mem_map_modifyStates p f rest q h).imp_right fun h => List.mem_cons.2 (Or.inr h)

theorem pairwise_modifyStates (p : PlaceId) (f : PlaceState α → PlaceState α) :
    ∀ states : List (PlaceId × PlaceState α),
      (states.map Prod.fst).Pairwise (fun p q => p.index < q.index) →
      ((modifyStates p f states).map Prod.fst).Pairwise (fun p q => p.index < q.index)
  | [], _ => by simp [modifyStates]
  | (r, s) :: rest, h => by
    have h' := List.pairwise_cons.1 h
    unfold modifyStates
    split
    · exact h
    · rename_i hp
      split
      · rename_i hlt
        refine List.pairwise_cons.2 ⟨?_, h⟩
        intro q hq
        rcases List.mem_cons.1 hq with rfl | hq
        · exact hlt
        · exact Nat.lt_trans hlt (h'.1 q hq)
      · rename_i hlt
        refine List.pairwise_cons.2 ⟨?_, pairwise_modifyStates p f rest h'.2⟩
        intro q hq
        rcases mem_map_modifyStates p f rest q hq with rfl | hq
        · have : q.index ≠ r.index := by
            intro e
            exact hp (by cases q; cases r; simp_all)
          show r.index < q.index
          omega
        · exact h'.1 q hq

theorem Ordered.modify {m : Marking α} (h : m.Ordered) (p : PlaceId)
    (f : PlaceState α → PlaceState α) : (m.modify p f).Ordered :=
  pairwise_modifyStates p f m.states h

end Marking

end RegionNet
