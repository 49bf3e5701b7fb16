import RegionNet.Proofs.Decision
import RegionNet.Proofs.Heeding
import RegionNet.Proofs.Repetition

/-!
# Confluence

The order in which branches move on does not matter as long as decisions are taken by a rule that
cannot see the order. In general this is a matter of diamonds: if transitions that may fire at the
same time neither stop nor disturb each other, all ways to the end fire the same transitions and
end in the same tally (`Tally.Walk.confluent`).

A rule may look at the place of a decision and at the visits of its guards, which are the places
where the loops around the decision count their rounds (`Workflow.guards`). As long as a decision is
open, none of these loops goes back or is left (`Part.visits_kept`), so the answer stays the same,
whatever happens in other branches (`Consists.diamond`).
-/

namespace RegionNet

variable {σ α : Type}

/-! ## Diamonds -/

namespace Tally

/-- What a firing does to a place depends on this place only. -/
theorem fire_congr {f g : Tally} {t : Transition α} {p : PlaceId} (h : g p = f p) :
    g.fire t p = f.fire t p := by
  unfold fire
  rw [h]

/-- Transitions fire one after the other, each of them when it is allowed to. -/
inductive Walk (A : Tally → Transition α → Prop) : Tally → List (Transition α) → Tally → Prop where
  | nil (f : Tally) : Walk A f [] f
  | cons {f f' : Tally} {t : Transition α} {ts : List (Transition α)} (ha : A f t)
      (h : Walk A (f.fire t) ts f') : Walk A f (t :: ts) f'

/-- Two transitions that are allowed at the same time can fire in either order. -/
structure Diamond (I : Tally → Prop) (A : Tally → Transition α → Prop) : Prop where
  keeps : ∀ f t, I f → A f t → I (f.fire t)
  persists : ∀ f t u, I f → A f t → A f u → t ≠ u → A (f.fire t) u
  commutes : ∀ f t u, I f → A f t → A f u → t ≠ u → (f.fire t).fire u = (f.fire u).fire t

namespace Walk

variable {I : Tally → Prop} {A : Tally → Transition α → Prop} {f f' f'' : Tally}
  {t : Transition α} {ts us : List (Transition α)}

theorem trans (h : Walk A f ts f') (h' : Walk A f' us f'') : Walk A f (ts ++ us) f'' := by
  induction h with
  | nil => exact h'
  | cons ha _ ih => exact .cons ha (ih h')

theorem eq_foldl (h : Walk A f ts f') : f' = ts.foldl fire f := by
  induction h with
  | nil => rfl
  | cons _ _ ih => exact ih

/-- Different transitions that are all allowed can fire one after the other. -/
theorem of_pairwise (hd : Diamond I A) (hf : I f) (hts : ∀ t ∈ ts, A f t) (hne : ts.Nodup) :
    Walk A f ts (ts.foldl fire f) := by
  induction ts generalizing f with
  | nil => exact .nil f
  | cons t ts ih =>
      obtain ⟨ht, hts⟩ := List.forall_mem_cons.mp hts
      obtain ⟨hnot, hne⟩ := List.nodup_cons.mp hne
      refine .cons ht (ih (hd.keeps f t hf ht) (fun u hu => ?_) hne)
      exact hd.persists f t u hf ht (hts u hu) fun he => hnot (he ▸ hu)

/-- What is allowed at the start of a walk to the end is fired on it, and might be fired first. -/
theorem bring_forward (hd : Diamond I A) (hf : I f) (ht : A f t) (h : Walk A f us f')
    (hend : ∀ u, ¬ A f' u) : ∃ vs, Walk A (f.fire t) vs f' ∧ us.Perm (t :: vs) := by
  induction h with
  | nil => exact absurd ht (hend t)
  | @cons f f' u us hu h ih =>
      by_cases he : t = u
      · subst he
        exact ⟨us, h, List.Perm.refl _⟩
      · have hu' := hd.persists f t u hf ht hu he
        have ht' := hd.persists f u t hf hu ht (Ne.symm he)
        obtain ⟨vs, hwalk, hperm⟩ := ih (hd.keeps f u hf hu) ht' hend
        rw [← hd.commutes f t u hf ht hu he] at hwalk
        exact ⟨u :: vs, .cons hu' hwalk, (hperm.cons u).trans (List.Perm.swap t u vs)⟩

/-- All walks to an end fire the same transitions, and the end is the same. -/
theorem confluent (hd : Diamond I A) (hf : I f) (h : Walk A f ts f') (h' : Walk A f us f'')
    (hend : ∀ u, ¬ A f' u) (hend' : ∀ u, ¬ A f'' u) : ts.Perm us ∧ f' = f'' := by
  induction h generalizing us with
  | nil f =>
      cases h' with
      | nil => exact ⟨List.Perm.refl _, rfl⟩
      | cons ha _ => exact absurd ha (hend _)
  | @cons f f' t ts ht _ ih =>
      obtain ⟨vs, hwalk, hperm⟩ := h'.bring_forward hd hf ht hend'
      obtain ⟨hsame, he⟩ := ih (hd.keeps f t hf ht) hwalk hend
      exact ⟨(hsame.cons t).trans hperm.symm, he⟩

end Walk

end Tally

/-! ## Independent transitions -/

namespace Piece

variable [Quantity α] {lim : PlaceId → Option Nat} {P : Piece α} {f : Tally} {t u : Transition α}
  {p : PlaceId}

theorem Placed.fire_fire_of_input (hP : Placed lim P) (hbusy : P.Busy f) (ht : t ∈ P.transitions)
    (ha : f.Admits lim t) (hu : u ∈ P.transitions) (hau : f.Admits lim u) (hp : p ∈ u.inputs)
    (hnot : p ∉ t.inputs) : (f.fire t).fire u p = (f.fire u).fire t p := by
  have hsame := hP.persists hbusy ht ha hu hau hp hnot
  have hmarked := hau.1 p hp
  have hout : p ∉ t.outputs := by
    intro hout
    have hcount := List.count_pos_iff.mpr hout
    have htokens : (f.fire t p).1 = (f p).1 - t.inputs.count p + t.outputs.count p := rfl
    rw [hsame, List.count_eq_zero_of_not_mem hnot] at htokens
    omega
  have hreset : p ∉ t.resetVisits := fun hreset =>
    hmarked.ne' ((hP.event hbusy ht ha).idle_of_reset hreset)
  rw [Tally.fire_of_notMem hnot hout hreset]
  exact Tally.fire_congr hsame

/-- It makes no difference which one of two independent transitions fires first. -/
theorem Placed.fire_comm (hP : Placed lim P) (hbusy : P.Busy f) (ht : t ∈ P.transitions)
    (ha : f.Admits lim t) (hu : u ∈ P.transitions) (hau : f.Admits lim u)
    (hindep : Independent t u) : (f.fire t).fire u = (f.fire u).fire t := by
  funext p
  by_cases hpu : p ∈ u.inputs
  · exact hP.fire_fire_of_input hbusy ht ha hu hau hpu (hindep p hpu)
  by_cases hpt : p ∈ t.inputs
  · exact (hP.fire_fire_of_input hbusy hu hau ht ha hpt hpu).symm
  -- elsewhere tokens are only put and visits only forgotten
  simp only [Tally.fire, List.count_eq_zero_of_not_mem hpu, List.count_eq_zero_of_not_mem hpt,
    Nat.sub_zero, Nat.add_zero, Nat.add_right_comm _ (t.outputs.count p), Prod.mk.injEq, true_and]
  split <;> split <;> rfl

/-! ## Guards -/

/-- While a token rests in its body, a loop counts no round. -/
theorem Part.visits_kept {s : Site α} {body : Piece α} {x : α} {n : Nat}
    (hpart : Part (.loop s body x n) P) (hP : Placed lim P) (hlive : P.Live f)
    (ht : t ∈ P.transitions) (ha : f.Admits lim t) (hp : p ∈ body.ground) (hmarked : 0 < (f p).1)
    (hnot : p ∉ t.inputs) : (f.fire t body.exit).2 = (f body.exit).2 := by
  have hL : Placed lim (.loop s body x n) := hpart.placed hP
  have hbusy := hP.busy_of_admits hlive ht ha
  have hbusyL : (Piece.loop s body x n).Busy f :=
    (hL.busy_of_marked (hpart.staged hP hlive.staged) (List.mem_cons_of_mem _ hp) hmarked).1
  -- once the body is over, the token is at its end, where the loop is decided
  have hend : body.Done f → p = body.exit := fun hdone =>
    (mem_ground.mp hp).resolve_left fun hzone =>
      hmarked.ne' (hL.body.idle_of_done hdone p hzone)
  rcases hpart.frame hP hbusy hbusyL ht ha with hown | hsame
  · cases hL.turn hbusyL hown ha with
    | enter _ hfresh _ => exact absurd hmarked (not_pos_of_eq (hfresh p hp))
    | body v _ _ _ _ ht =>
        have hwithin := hL.body.within ht
        have hin : body.exit ∉ t.inputs := fun hin =>
          hL.body.exit_notMem_zone (hwithin.inputs hin)
        have hreset : body.exit ∉ t.resetVisits := fun hreset =>
          hL.body.exit_notMem_zone (hwithin.resets hreset)
        simp only [Tally.fire, List.count_eq_zero_of_not_mem hin, hreset, if_false, Nat.add_zero]
    | back v _ _ hdone _ ht => exact absurd (by simp [ht, Site.back, hend hdone]) hnot
    | leave v _ _ hdone _ ht => exact absurd (by simp [ht, Site.leave, hend hdone]) hnot
  · rw [hsame _ (List.mem_cons_of_mem _ (exit_mem_ground body))]

end Piece

/-- The places at which the loops around a place count their rounds. The place where a loop itself
is decided is in its body. -/
def Workflow.guards (w : Workflow α) (p : PlaceId) : List PlaceId :=
  (w.layout.subtrees.filter (·.info.kind = .loop)).flatMap fun l =>
    (l.children.filter (p ∈ ·.places)).map (·.info.exit)

/-- The answers follow a rule that looks only at the place of a decision and at the visits of its
guards. -/
def Resolver.Follows [Quantity α] (resolver : Resolver σ α) (w : Workflow α)
    (rule : PlaceId → List Nat → Option TransitionId) : Prop :=
  ∀ p m s, (resolver.answer w p m s).1 = rule p ((w.guards p).map fun g => (m.state g).visits)

/-- The transition may fire: if it takes a decision, the rule is for it. -/
structure Workflow.Allows [Quantity α] (w : Workflow α)
    (rule : PlaceId → List Nat → Option TransitionId) (f : Tally) (t : Transition α) : Prop where
  mem : t ∈ w.net.transitions
  admits : f.Admits w.net.limit t
  ruled : t.stop = true → ∀ p ∈ t.inputs, rule p ((w.guards p).map fun g => (f g).2) = some t.id

namespace Workflow.Consists

variable [Quantity α] {w : Workflow α} {P : Piece α} {f : Tally} {t u : Transition α}
  {p g : PlaceId} {rule : PlaceId → List Nat → Option TransitionId}

open Piece

theorem exists_loop_of_guard (h : w.Consists P) (hg : g ∈ w.guards p) :
    ∃ s body x n, Part (.loop s body x n) P ∧ p ∈ body.ground ∧ g = body.exit := by
  obtain ⟨l, hl, hg⟩ := List.mem_flatMap.mp hg
  obtain ⟨hl, hkind⟩ := List.mem_filter.mp hl
  obtain ⟨c, hc, rfl⟩ := List.mem_map.mp hg
  obtain ⟨hc, hp⟩ := List.mem_filter.mp hc
  rw [decide_eq_true_eq] at hkind hp
  rw [h.layout] at hl
  obtain ⟨Q, hpart, rfl⟩ := exists_part hl
  cases Q with
  | loop s body x n =>
      obtain rfl : c = body.layout := List.mem_singleton.mp hc
      have hbody := (hpart.placed h.placed).body
      exact ⟨s, body, x, n, hpart, hbody.mem_places.mp hp, info_layout_exit body⟩
  | gateway s gate bs => cases gate <;> cases hkind
  | _ => cases hkind

/-- Different transitions that are allowed want different tokens. -/
theorem independent_of_allows (h : w.Consists P) (ht : w.Allows rule f t)
    (hu : w.Allows rule f u) (hne : t ≠ u) : Independent t u := by
  intro p hpu hpt
  rcases h.placed.shared (h.transitions ▸ ht.mem) (h.transitions ▸ hu.mem) hpt hpu with
    he | ⟨hstop, hstop', -, -⟩
  · exact hne he
  -- the rule is for one of them only
  · have hid := (ht.ruled hstop p hpt).symm.trans (hu.ruled hstop' p hpu)
    exact hne (h.eq_of_id ht.mem hu.mem (Option.some.inj hid))

/-- What a rule allows can happen in any order. -/
theorem diamond (h : w.Consists P) : Tally.Diamond P.Live (w.Allows rule) := by
  constructor
  · intro f t hlive ht
    exact h.placed.step_live hlive (h.transitions ▸ ht.mem) ht.admits
  · intro f t u hlive ht hu hne
    have hmem := h.transitions ▸ ht.mem
    have hindep := h.independent_of_allows ht hu hne
    refine ⟨hu.mem, admits_of_independent hu.admits hindep, fun hstop p hp => ?_⟩
    rw [← hu.ruled hstop p hp]
    congr 1
    refine List.map_congr_left fun g hg => ?_
    obtain ⟨s, body, x, n, hpart, hground, rfl⟩ := h.exists_loop_of_guard hg
    exact hpart.visits_kept h.placed hlive hmem ht.admits hground (hu.admits.1 p hp) (hindep p hp)
  · intro f t u hlive ht hu hne
    have hmem := h.transitions ▸ ht.mem
    exact h.placed.fire_comm (h.placed.busy_of_admits hlive hmem ht.admits) hmem ht.admits
      (h.transitions ▸ hu.mem) hu.admits (h.independent_of_allows ht hu hne)

end Workflow.Consists

end RegionNet
