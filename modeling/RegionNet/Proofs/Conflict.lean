import RegionNet.Proofs.Bounds
import RegionNet.Proofs.Part

/-!
# Conflicts

Which moves get in each other's way. Two transitions want the same token only where a decision is
open, and then each of them wants that token alone (`Placed.shared`). Transitions that want
different tokens leave each other's tokens and visits as they are (`Placed.persists`). So whatever
fires on its own can fire in any order, and decisions at different places can be taken in any order.
-/

namespace RegionNet

variable {α : Type} [Quantity α] {lim : PlaceId → Option Nat} {f : Tally} {t u : Transition α}
  {p : PlaceId}

namespace Piece

variable {P : Piece α} {s : Site α} {bs : List (Piece α)}

/-! ## What an admitted transition is -/

/-- The transition `t` is admitted as one of the transitions of some piece, and this is known of
it. -/
inductive Event (lim : PlaceId → Option Nat) (f : Tally) (t : Transition α) : Prop where
  | run {s : Site α} (entry : f s.entry = (1, 0)) (ht : t = s.run)
  | fork {s : Site α} {bs : List (Piece α)} (entry : f s.entry = (1, 0)) (ht : t = s.fork bs)
  | join {s : Site α} {bs : List (Piece α)} (done : ∀ b ∈ bs, f b.exit = (1, 0))
      (ht : t = s.join bs)
  | pick {s : Site α} {g : Gate α} {i : Nat} {b : Piece α} (entry : f s.entry = (1, 0))
      (ht : t = s.pick g i b)
  | merge {s : Site α} {g : Gate α} {i : Nat} {b : Piece α} (exit : f b.exit = (1, 0))
      (ht : t = s.merge g i b)
  | enter {s : Site α} {P : Piece α} (entry : f s.entry = (1, 0)) (ht : t = s.enter P)
  | back {s : Site α} {P : Piece α} {x : α} (v : Nat) (hP : Placed lim P) (done : P.Done f)
      (exit : f P.exit = (1, v)) (ht : t = s.back P x)
  | leave {s : Site α} {P : Piece α} {x : α} (v : Nat) (exit : f P.exit = (1, v))
      (ht : t = s.leave P x)

theorem Placed.event (hP : Placed lim P) (hbusy : P.Busy f) (ht : t ∈ P.transitions)
    (ha : f.Admits lim t) : Event lim f t := by
  induction P using Piece.ind with
  | task s v =>
      cases hP.turn hbusy ht ha with
      | run hentry ht => exact .run hentry ht
  | sequential s P Q ihP ihQ =>
      cases hP.turn hbusy ht ha with
      | first hbusy _ ht => exact ihP hP.fst hbusy ht
      | second _ hbusy ht => exact ihQ hP.snd hbusy ht
  | parallel s bs ih =>
      cases hP.turn hbusy ht ha with
      | fork hentry _ ht => exact .fork hentry ht
      | branch b hb _ _ hbusy _ ht => exact ih b hb (hP.parallel.branch hb) hbusy ht
      | join _ hdone ht => exact .join (fun b hb => (hdone b hb).2) ht
  | gateway s g bs ih =>
      cases hP.turn hbusy ht ha with
      | pick b i _ hentry _ ht => exact .pick hentry ht
      | arm b hb _ _ hbusy _ ht => exact ih b hb (hP.gateway.branch hb) hbusy ht
      | merge b i _ _ _ _ hexit ht => exact .merge hexit ht
  | loop s body x n ih =>
      cases hP.turn hbusy ht ha with
      | enter hentry _ ht => exact .enter hentry ht
      | body v _ _ hbusy _ ht => exact ih hP.body hbusy ht
      | back v _ _ hdone hexit ht => exact .back v hP.body hdone hexit ht
      | leave v _ _ _ hexit ht => exact .leave v hexit ht

namespace Event

omit [Quantity α] in
theorem forall_singleton {R : PlaceId → Prop} {ps : List PlaceId} (h : R p) (hps : ps = [p]) :
    ∀ q ∈ ps, R q := by
  intro q hq
  rw [hps, List.mem_singleton] at hq
  rwa [hq]

/-- What fires on its own takes tokens from unvisited places and forgets nothing. -/
theorem free (h : Event lim f t) (hstop : t.stop = false) :
    (∀ p ∈ t.inputs, f p = (1, 0)) ∧ t.resetVisits = [] := by
  cases h with
  | run hentry ht =>
      subst ht
      exact ⟨forall_singleton hentry (by simp [Site.run]), rfl⟩
  | fork hentry ht =>
      subst ht
      exact ⟨forall_singleton hentry (by simp [Site.fork]), rfl⟩
  | join hdone ht =>
      subst ht
      exact ⟨by simpa [Site.join] using hdone, rfl⟩
  | merge hexit ht =>
      subst ht
      exact ⟨forall_singleton hexit (by simp [Site.merge]), rfl⟩
  | enter hentry ht =>
      subst ht
      exact ⟨forall_singleton hentry (by simp [Site.enter]), rfl⟩
  | pick _ ht => subst ht; cases hstop
  | back _ _ _ _ ht => subst ht; cases hstop
  | leave _ _ ht => subst ht; cases hstop

/-- A decision takes a single token. -/
theorem decision (h : Event lim f t) (hstop : t.stop = true) :
    ∃ p v, t.inputs = [p] ∧ f p = (1, v) := by
  cases h with
  | run _ ht => subst ht; cases hstop
  | fork _ ht => subst ht; cases hstop
  | join _ ht => subst ht; cases hstop
  | merge _ ht => subst ht; cases hstop
  | enter _ ht => subst ht; cases hstop
  | pick hentry ht => exact ⟨_, 0, by simp [ht, Site.pick], hentry⟩
  | back v _ _ hexit ht => exact ⟨_, v, by simp [ht, Site.back], hexit⟩
  | leave v hexit ht => exact ⟨_, v, by simp [ht, Site.leave], hexit⟩

theorem input (h : Event lim f t) (hp : p ∈ t.inputs) : (f p).1 = 1 := by
  cases hstop : t.stop with
  | false => rw [(h.free hstop).1 p hp]
  | true =>
      obtain ⟨q, v, hin, hq⟩ := h.decision hstop
      rw [hin, List.mem_singleton] at hp
      rw [hp, hq]

/-- Visits are only forgotten where no token is. -/
theorem idle_of_reset (h : Event lim f t) (hp : p ∈ t.resetVisits) : (f p).1 = 0 := by
  cases hstop : t.stop with
  | false =>
      rw [(h.free hstop).2] at hp
      cases hp
  | true =>
      cases h with
      | back v hP hdone _ ht =>
          subst ht
          exact hP.idle_of_done hdone p ((mem_back_resetVisits hP).mp hp)
      | pick _ ht => subst ht; cases hp
      | leave _ _ ht => subst ht; cases hp
      | _ => next ht => subst ht; cases hp

end Event

/-- A token that a transition does not take stays where it is, and its place as it is. -/
theorem Placed.undisturbed (hP : Placed lim P) (hbusy : P.Busy f) (ht : t ∈ P.transitions)
    (ha : f.Admits lim t) (hzone : p ∈ P.zone) (hmarked : 0 < (f p).1) (hnot : p ∉ t.inputs) :
    f.fire t p = f p := by
  have hreset : p ∉ t.resetVisits := fun hreset =>
    hmarked.ne' ((hP.event hbusy ht ha).idle_of_reset hreset)
  have hbound : (f.fire t p).1 ≤ 1 := by
    rcases hP.step hbusy ht ha with ⟨hbusy', _⟩ | ⟨hdone, _⟩
    · exact (hP.bounded_of_busy hbusy' p hzone).1
    · exact (hP.bounded_of_done hdone p hzone).1
  -- with a second token the place would hold two
  have hout : t.outputs.count p = 0 := by
    have htokens : (f.fire t p).1 = (f p).1 - t.inputs.count p + t.outputs.count p := rfl
    rw [List.count_eq_zero_of_not_mem hnot] at htokens
    omega
  exact Tally.fire_of_notMem hnot (List.count_eq_zero.mp hout) hreset

theorem Placed.persists (hP : Placed lim P) (hbusy : P.Busy f) (ht : t ∈ P.transitions)
    (ha : f.Admits lim t) (hu : u ∈ P.transitions) (hau : f.Admits lim u) (hp : p ∈ u.inputs)
    (hnot : p ∉ t.inputs) : f.fire t p = f p :=
  hP.undisturbed hbusy ht ha ((hP.within hu).inputs hp) (hau.1 p hp) hnot

/-! ## Who wants the same token -/

/-- Two transitions that can both take a token from `p` are decisions between which to choose. -/
def Rivals (t u : Transition α) (p : PlaceId) : Prop :=
  t.stop = true ∧ u.stop = true ∧ t.inputs = [p] ∧ u.inputs = [p]

theorem Placed.shared_sequential {Q : Piece α} (hP : Placed lim (.sequential s P Q))
    (ihP : t ∈ P.transitions → u ∈ P.transitions → t = u ∨ Rivals t u p)
    (ihQ : t ∈ Q.transitions → u ∈ Q.transitions → t = u ∨ Rivals t u p)
    (ht : t ∈ P.transitions ++ Q.transitions) (hu : u ∈ P.transitions ++ Q.transitions)
    (hpt : p ∈ t.inputs) (hpu : p ∈ u.inputs) : t = u ∨ Rivals t u p := by
  have hnot : p ∈ P.zone → p ∈ Q.zone → False := fun hp hq =>
    hP.notMem_snd_ground hp (zone_subset_ground _ hq)
  rcases List.mem_append.mp ht with ht | ht
  · rcases List.mem_append.mp hu with hu | hu
    · exact ihP ht hu
    · exact (hnot ((hP.fst.within ht).inputs hpt) ((hP.snd.within hu).inputs hpu)).elim
  · rcases List.mem_append.mp hu with hu | hu
    · exact (hnot ((hP.fst.within hu).inputs hpu) ((hP.snd.within ht).inputs hpt)).elim
    · exact ihQ ht hu

/-- Who takes tokens from the places of a parallel block. -/
theorem Branched.taker_parallel (h : Branched lim s bs)
    (ht : t ∈ s.fork bs :: (transitionsAll bs ++ [s.join bs])) (hp : p ∈ t.inputs) :
    p = s.entry ∧ t = s.fork bs ∨ (∃ b ∈ bs, p ∈ b.zone ∧ t ∈ b.transitions) ∨
      (∃ b ∈ bs, p = b.exit) ∧ t = s.join bs := by
  rcases List.mem_cons.mp ht with rfl | ht
  · exact Or.inl ⟨by simpa [Site.fork] using hp, rfl⟩
  rcases List.mem_append.mp ht with ht | ht
  · obtain ⟨b, hb, ht⟩ := mem_transitionsAll.mp ht
    exact Or.inr (Or.inl ⟨b, hb, ((h.branch hb).within ht).inputs hp, ht⟩)
  · obtain rfl : t = s.join bs := List.mem_singleton.mp ht
    obtain ⟨b, hb, rfl⟩ : ∃ b ∈ bs, b.exit = p := by simpa [Site.join] using hp
    exact Or.inr (Or.inr ⟨⟨b, hb, rfl⟩, rfl⟩)

/-- Who takes tokens from the places of a choice or of a draw by nature. -/
theorem Branched.taker_gateway {g : Gate α} (h : Branched lim s bs) (ht : t ∈ arms s g 0 bs)
    (hp : p ∈ t.inputs) :
    p = s.entry ∧ (∃ i b, t = s.pick g i b) ∨ (∃ b ∈ bs, p ∈ b.zone ∧ t ∈ b.transitions) ∨
      ∃ i b, bs[i]? = some b ∧ p = b.exit ∧ t = s.merge g i b := by
  obtain ⟨i, b, hi, ht⟩ := mem_arms.mp ht
  rw [Nat.zero_add] at ht
  have hb : b ∈ bs := List.mem_of_getElem? hi
  rcases ht with rfl | ht | rfl
  · exact Or.inl ⟨by simpa [Site.pick] using hp, i, b, rfl⟩
  · exact Or.inr (Or.inl ⟨b, hb, ((h.branch hb).within ht).inputs hp, ht⟩)
  · exact Or.inr (Or.inr ⟨i, b, hi, by simpa [Site.merge] using hp, rfl⟩)

/-- Who takes tokens from the places of a loop. -/
theorem Placed.taker_loop {x : α} {n : Nat} (hP : Placed lim (.loop s P x n))
    (ht : t ∈ s.enter P :: (P.transitions ++ [s.back P x, s.leave P x])) (hp : p ∈ t.inputs) :
    p = s.entry ∧ t = s.enter P ∨ p ∈ P.zone ∧ t ∈ P.transitions ∨
      p = P.exit ∧ t.stop = true ∧ t.inputs = [p] := by
  rcases List.mem_cons.mp ht with rfl | ht
  · exact Or.inl ⟨by simpa [Site.enter] using hp, rfl⟩
  rcases List.mem_append.mp ht with ht | ht
  · exact Or.inr (Or.inl ⟨(hP.body.within ht).inputs hp, ht⟩)
  rcases List.mem_cons.mp ht with rfl | ht
  · obtain rfl : p = P.exit := by simpa [Site.back] using hp
    exact Or.inr (Or.inr ⟨rfl, rfl, by simp [Site.back]⟩)
  · obtain rfl : t = s.leave P x := List.mem_singleton.mp ht
    obtain rfl : p = P.exit := by simpa [Site.leave] using hp
    exact Or.inr (Or.inr ⟨rfl, rfl, by simp [Site.leave]⟩)

theorem Branched.shared_parallel (h : Branched lim s bs)
    (ih : ∀ b ∈ bs, t ∈ b.transitions → u ∈ b.transitions → t = u ∨ Rivals t u p)
    (ht : t ∈ s.fork bs :: (transitionsAll bs ++ [s.join bs]))
    (hu : u ∈ s.fork bs :: (transitionsAll bs ++ [s.join bs]))
    (hpt : p ∈ t.inputs) (hpu : p ∈ u.inputs) : t = u ∨ Rivals t u p := by
  have hentry : ∀ b ∈ bs, p ∈ b.ground → p ≠ s.entry := fun b hb hp => h.ne_entry hb hp
  rcases h.taker_parallel ht hpt with ⟨rfl, rfl⟩ | ⟨b, hb, hp, ht⟩ | ⟨⟨b, hb, rfl⟩, rfl⟩
  · rcases h.taker_parallel hu hpu with ⟨_, rfl⟩ | ⟨c, hc, hp, _⟩ | ⟨⟨c, hc, he⟩, _⟩
    · exact Or.inl rfl
    · exact absurd rfl (hentry c hc (zone_subset_ground _ hp))
    · exact absurd rfl (hentry c hc (he ▸ exit_mem_ground c))
  · rcases h.taker_parallel hu hpu with ⟨he, _⟩ | ⟨c, hc, hp', hu⟩ | ⟨⟨c, hc, he⟩, _⟩
    · exact absurd he (hentry b hb (zone_subset_ground _ hp))
    · obtain rfl := h.eq_of_zones hb hc hp hp'
      exact ih c hc ht hu
    · exact absurd he (h.ne_exit_of_zone hb hc hp)
  · rcases h.taker_parallel hu hpu with ⟨he, _⟩ | ⟨c, hc, hp', _⟩ | ⟨_, rfl⟩
    · exact absurd he (hentry b hb (exit_mem_ground b))
    · exact absurd rfl (h.ne_exit_of_zone hc hb hp')
    · exact Or.inl rfl

theorem Branched.shared_gateway {g : Gate α} (h : Branched lim s bs)
    (ih : ∀ b ∈ bs, t ∈ b.transitions → u ∈ b.transitions → t = u ∨ Rivals t u p)
    (ht : t ∈ arms s g 0 bs) (hu : u ∈ arms s g 0 bs)
    (hpt : p ∈ t.inputs) (hpu : p ∈ u.inputs) : t = u ∨ Rivals t u p := by
  have hentry : ∀ b ∈ bs, p ∈ b.ground → p ≠ s.entry := fun b hb hp => h.ne_entry hb hp
  -- two picks want the same token; a merge shares its token with no other merge
  rcases h.taker_gateway ht hpt with ⟨rfl, i, b, rfl⟩ | ⟨b, hb, hp, ht⟩ | ⟨i, b, hi, rfl, rfl⟩
  · rcases h.taker_gateway hu hpu with ⟨_, j, c, rfl⟩ | ⟨c, hc, hp, _⟩ | ⟨j, c, hj, he, _⟩
    · exact Or.inr ⟨rfl, rfl, by simp [Site.pick], by simp [Site.pick]⟩
    · exact absurd rfl (hentry c hc (zone_subset_ground _ hp))
    · exact absurd rfl (hentry c (List.mem_of_getElem? hj) (he ▸ exit_mem_ground c))
  · rcases h.taker_gateway hu hpu with ⟨he, _⟩ | ⟨c, hc, hp', hu⟩ | ⟨j, c, hj, he, _⟩
    · exact absurd he (hentry b hb (zone_subset_ground _ hp))
    · obtain rfl := h.eq_of_zones hb hc hp hp'
      exact ih c hc ht hu
    · exact absurd he (h.ne_exit_of_zone hb (List.mem_of_getElem? hj) hp)
  · have hb : b ∈ bs := List.mem_of_getElem? hi
    rcases h.taker_gateway hu hpu with ⟨he, _⟩ | ⟨c, hc, hp', _⟩ | ⟨j, c, hj, he, rfl⟩
    · exact absurd he (hentry b hb (exit_mem_ground b))
    · exact absurd rfl (h.ne_exit_of_zone hc hb hp')
    · obtain rfl := h.eq_of_exits hb (List.mem_of_getElem? hj) he
      obtain rfl : i = j := by
        have hnodup : bs.Nodup := List.Nodup.of_map _ (h.map_nodup fun b _ => exit_mem_ground b)
        exact (List.getElem?_inj (List.getElem?_eq_some_iff.mp hi).1 hnodup).mp (hi.trans hj.symm)
      exact Or.inl rfl

theorem Placed.shared_loop {x : α} {n : Nat} (hP : Placed lim (.loop s P x n))
    (ih : t ∈ P.transitions → u ∈ P.transitions → t = u ∨ Rivals t u p)
    (ht : t ∈ s.enter P :: (P.transitions ++ [s.back P x, s.leave P x]))
    (hu : u ∈ s.enter P :: (P.transitions ++ [s.back P x, s.leave P x]))
    (hpt : p ∈ t.inputs) (hpu : p ∈ u.inputs) : t = u ∨ Rivals t u p := by
  rcases hP.taker_loop ht hpt with ⟨rfl, rfl⟩ | ⟨hp, ht⟩ | ⟨rfl, hstop, hin⟩
  · rcases hP.taker_loop hu hpu with ⟨_, rfl⟩ | ⟨hp, _⟩ | ⟨he, _⟩
    · exact Or.inl rfl
    · exact absurd (zone_subset_ground _ hp) hP.entry_notMem_body
    · exact absurd he.symm (hP.ne_entry_of_body (exit_mem_ground P))
  · rcases hP.taker_loop hu hpu with ⟨he, _⟩ | ⟨_, hu⟩ | ⟨he, _⟩
    · exact absurd he (hP.ne_entry_of_body (zone_subset_ground _ hp))
    · exact ih ht hu
    · exact absurd he (hP.body.ne_exit hp)
  · rcases hP.taker_loop hu hpu with ⟨he, _⟩ | ⟨hp, _⟩ | ⟨_, hstop', hin'⟩
    · exact absurd he (hP.ne_entry_of_body (exit_mem_ground P))
    · exact absurd hp hP.body.exit_notMem_zone
    · exact Or.inr ⟨hstop, hstop', hin, hin'⟩

/-- Only rivals take tokens from the same place. -/
theorem Placed.shared (hP : Placed lim P) (ht : t ∈ P.transitions) (hu : u ∈ P.transitions)
    (hpt : p ∈ t.inputs) (hpu : p ∈ u.inputs) : t = u ∨ Rivals t u p := by
  induction P using Piece.ind with
  | task s v =>
      obtain rfl : t = s.run := List.mem_singleton.mp ht
      obtain rfl : u = s.run := List.mem_singleton.mp hu
      exact Or.inl rfl
  | sequential s P Q ihP ihQ =>
      exact hP.shared_sequential (ihP hP.fst) (ihQ hP.snd) ht hu hpt hpu
  | parallel s bs ih =>
      exact hP.parallel.shared_parallel (fun b hb => ih b hb (hP.parallel.branch hb)) ht hu hpt hpu
  | gateway s g bs ih =>
      exact hP.gateway.shared_gateway (fun b hb => ih b hb (hP.gateway.branch hb)) ht hu hpt hpu
  | loop s body x n ih => exact hP.shared_loop (ih hP.body) ht hu hpt hpu

end Piece

end RegionNet
