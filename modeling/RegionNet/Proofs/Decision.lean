import Mathlib.Data.List.Forall2
import Mathlib.Data.List.Nodup
import Mathlib.Data.List.Pairwise
import RegionNet.Execution.Strategy
import RegionNet.Proofs.Proper

/-!
# Decisions

What is on offer in a marking, and what becomes of the choices of a caller who decides everything.
A decision point offers exactly the decisions that are enabled at its place
(`Timing.offers_decisionPoints`). Choices that take one transition from each decision point are
accepted (`checkChoices_of_settles`), and the resolver is not asked (`Resolver.select_of_settles`).
-/

namespace RegionNet

/-! ## Lists side by side -/

theorem exists_map_of_forall₂ {β γ δ : Type} {R : β → γ → Prop} {S : β → δ → Prop} {k : δ → γ}
    {xs : List β} {ys : List γ} (h : List.Forall₂ R xs ys)
    (hRS : ∀ x ∈ xs, ∀ y, R x y → ∃ z, S x z ∧ k z = y) :
    ∃ zs, List.Forall₂ S xs zs ∧ zs.map k = ys := by
  induction h with
  | nil => exact ⟨[], .nil, rfl⟩
  | @cons x y xs ys hxy _ ih =>
      obtain ⟨hx, hxs⟩ := List.forall_mem_cons.mp hRS
      obtain ⟨z, hz, rfl⟩ := hx y hxy
      obtain ⟨zs, hzs, rfl⟩ := ih hxs
      exact ⟨z :: zs, .cons hz hzs, rfl⟩

/-! ## Decision points -/

namespace DecisionPoint

/-- The transition is on offer at the place. -/
def Offers (points : List DecisionPoint) (p : PlaceId) (t : TransitionId) : Prop :=
  ∃ d ∈ points, d.place = p ∧ t ∈ d.transitions

/-- Decision points in ascending order of places, each with something to decide. -/
structure Tidy (points : List DecisionPoint) : Prop where
  ascending : points.Pairwise fun d e => d.place.index < e.place.index
  nonempty : ∀ d ∈ points, d.transitions ≠ []

variable {points : List DecisionPoint} {p q : PlaceId} {t u : TransitionId}

theorem offers_cons {d : DecisionPoint} : Offers (d :: points) q u ↔
    d.place = q ∧ u ∈ d.transitions ∨ Offers points q u := by
  unfold Offers
  simp only [List.exists_mem_cons_iff]

theorem offers_insert : Offers (insert p t points) q u ↔
    p = q ∧ u = t ∨ Offers points q u := by
  induction points with
  | nil => simp [insert, Offers]
  | cons d ds ih =>
      unfold insert
      split
      · next hp =>
          rw [offers_cons, offers_cons, hp, List.mem_append, List.mem_singleton, and_or_left,
            or_comm (a := _ ∧ _), or_assoc]
      · split
        · rw [offers_cons, List.mem_singleton]
        · rw [offers_cons, ih, offers_cons, or_left_comm]

theorem place_of_mem_insert {d : DecisionPoint} (h : d ∈ insert p t points) :
    d.place = p ∨ ∃ e ∈ points, e.place = d.place := by
  induction points with
  | nil => exact Or.inl (congrArg place (List.mem_singleton.mp h))
  | cons e es ih =>
      unfold insert at h
      split at h
      · next hp =>
          rcases List.mem_cons.mp h with rfl | h
          · exact Or.inl hp.symm
          · exact Or.inr ⟨d, List.mem_cons_of_mem _ h, rfl⟩
      · split at h
        · rcases List.mem_cons.mp h with rfl | h
          · exact Or.inl rfl
          · exact Or.inr ⟨d, h, rfl⟩
        · rcases List.mem_cons.mp h with rfl | h
          · exact Or.inr ⟨d, List.mem_cons_self, rfl⟩
          · rcases ih h with hd | ⟨e', he', hd⟩
            · exact Or.inl hd
            · exact Or.inr ⟨e', List.mem_cons_of_mem _ he', hd⟩

theorem Tidy.insert (h : Tidy points) (p : PlaceId) (t : TransitionId) :
    Tidy (insert p t points) := by
  induction points with
  | nil => exact ⟨List.pairwise_singleton _ _, by simp [DecisionPoint.insert]⟩
  | cons d ds ih =>
      obtain ⟨hlt, hascending⟩ := List.pairwise_cons.mp h.ascending
      obtain ⟨hd, hnonempty⟩ := List.forall_mem_cons.mp h.nonempty
      unfold DecisionPoint.insert
      split
      · exact ⟨List.pairwise_cons.mpr ⟨hlt, hascending⟩,
          List.forall_mem_cons.mpr ⟨by simp, hnonempty⟩⟩
      · next hp =>
          split
          · next hpd =>
              refine ⟨List.pairwise_cons.mpr ⟨fun e he => ?_, h.ascending⟩,
                List.forall_mem_cons.mpr ⟨by simp, h.nonempty⟩⟩
              rcases List.mem_cons.mp he with rfl | he
              · exact hpd
              · exact Nat.lt_trans hpd (hlt e he)
          · next hpd =>
              have htidy := ih ⟨hascending, hnonempty⟩
              refine ⟨List.pairwise_cons.mpr ⟨fun e he => ?_, htidy.ascending⟩,
                List.forall_mem_cons.mpr ⟨hd, htidy.nonempty⟩⟩
              -- neither the same place nor one before it
              have hne : p.index ≠ d.place.index := fun he => hp (by
                cases p
                cases hq : d.place
                rw [hq] at he
                exact congrArg PlaceId.mk he)
              rcases place_of_mem_insert he with hplace | ⟨e', he', hplace⟩
              · rw [hplace]
                omega
              · rw [← hplace]
                exact hlt e' he'

/-- What is inserted for the first time is not repeated. -/
theorem nodup_insert (h : ∀ d ∈ points, d.transitions.Nodup) (ht : ¬ Offers points p t) :
    ∀ d ∈ insert p t points, d.transitions.Nodup := by
  induction points with
  | nil => simp [insert]
  | cons e es ih =>
      obtain ⟨he, hes⟩ := List.forall_mem_cons.mp h
      rw [offers_cons, not_or] at ht
      unfold insert
      split
      · next hp =>
          have hnew : t ∉ e.transitions := fun hmem => ht.1 ⟨hp.symm, hmem⟩
          refine List.forall_mem_cons.mpr ⟨?_, hes⟩
          rw [← List.concat_eq_append]
          exact he.concat hnew
      · split
        · exact List.forall_mem_cons.mpr ⟨List.nodup_singleton t, h⟩
        · exact List.forall_mem_cons.mpr ⟨he, ih hes ht.2⟩

/-- A place has one decision point at most. -/
theorem Tidy.eq_of_place (h : Tidy points) {d e : DecisionPoint} (hd : d ∈ points) (he : e ∈ points)
    (hplace : d.place = e.place) : d = e := by
  have hnodup : (points.map place).Nodup := List.pairwise_map.mpr
    (h.ascending.imp fun hlt he => Nat.ne_of_lt hlt (congrArg PlaceId.index he))
  exact List.inj_on_of_nodup_map hnodup hd he hplace

end DecisionPoint

open DecisionPoint

variable {α : Type}

/-! ## What is on offer -/

namespace Timing

theorem foldl_insert (ts : List (Transition α)) : ∀ points : List DecisionPoint, Tidy points →
    let all := ts.foldl (fun points t =>
      match t.decisionPlace with
      | some p => DecisionPoint.insert p t.id points
      | none => points) points
    Tidy all ∧ ∀ p u, Offers all p u ↔
      (∃ t ∈ ts, t.decisionPlace = some p ∧ t.id = u) ∨ Offers points p u := by
  induction ts with
  | nil => exact fun _ h => ⟨h, fun p u => by simp⟩
  | cons t ts ih =>
      intro points h
      rw [List.foldl_cons]
      cases hplace : t.decisionPlace with
      | none =>
          obtain ⟨htidy, hoffers⟩ := ih points h
          refine ⟨htidy, ?_⟩
          intro p u
          rw [hoffers]
          simp [hplace]
      | some q =>
          obtain ⟨htidy, hoffers⟩ := ih _ (h.insert q t.id)
          refine ⟨htidy, ?_⟩
          intro p u
          rw [hoffers, offers_insert]
          simp only [List.exists_mem_cons_iff, hplace, Option.some_inj]
          rw [eq_comm (a := u), or_assoc, or_left_comm]

/-- Transitions with different ids are on offer once each. -/
theorem nodup_foldl_insert {ts : List (Transition α)} : ∀ {points : List DecisionPoint},
    (ts.map Transition.id).Nodup → (∀ d ∈ points, d.transitions.Nodup) →
      (∀ t ∈ ts, ∀ p, ¬ Offers points p t.id) →
      ∀ d ∈ ts.foldl (fun points t =>
        match t.decisionPlace with
        | some p => DecisionPoint.insert p t.id points
        | none => points) points, d.transitions.Nodup := by
  induction ts with
  | nil => exact fun _ h _ => h
  | cons t ts ih =>
      intro points hids h hnew
      obtain ⟨hid, hids⟩ := List.nodup_cons.mp hids
      obtain ⟨ht, hts⟩ := List.forall_mem_cons.mp hnew
      rw [List.foldl_cons]
      cases hplace : t.decisionPlace with
      | none => exact ih hids h hts
      | some q =>
          refine ih hids (nodup_insert h (ht q)) fun u hu p hoffer => ?_
          rcases offers_insert.mp hoffer with ⟨-, he⟩ | hoffer
          · exact hid (he ▸ List.mem_map_of_mem hu)
          · exact hts u hu p hoffer

variable [Quantity α] {timing : Timing α} {net : Net α} {m : Marking α}

theorem tokenEnabled_of_enabled {t : Transition α} (h : timing.enabled net t m = true) :
    net.tokenEnabled t m = true := by
  cases timing with
  | counter => exact h
  | duration step => exact (Bool.and_eq_true _ _ ▸ h : _ ∧ _).1

theorem tidy_decisionPoints : Tidy (timing.decisionPoints net m) :=
  (foldl_insert _ [] ⟨List.Pairwise.nil, fun _ h => absurd h List.not_mem_nil⟩).1

theorem nodup_places : ((timing.decisionPoints net m).map DecisionPoint.place).Nodup :=
  List.pairwise_map.mpr (tidy_decisionPoints.ascending.imp fun hlt he =>
    Nat.ne_of_lt hlt (congrArg PlaceId.index he))

theorem nodup_transitions {d : DecisionPoint} (hnet : (net.transitions.map Transition.id).Nodup)
    (hd : d ∈ timing.decisionPoints net m) : d.transitions.Nodup :=
  nodup_foldl_insert (hnet.sublist (List.filter_sublist.map _)) (List.forall_mem_nil _)
    (fun _ _ _ hoffer => by simp [Offers] at hoffer) d hd

/-- On offer are the enabled decisions, each at its place. -/
theorem offers_decisionPoints {p : PlaceId} {u : TransitionId} :
    Offers (timing.decisionPoints net m) p u ↔ ∃ t ∈ net.transitions, t.stop = true ∧
      timing.enabled net t m = true ∧ t.decisionPlace = some p ∧ t.id = u := by
  have hall := (foldl_insert (net.transitions.filter fun t => t.stop && timing.enabled net t m) []
    ⟨List.Pairwise.nil, fun _ h => absurd h List.not_mem_nil⟩).2 p u
  apply hall.trans
  simp [Offers, and_assoc]

end Timing

/-! ## Choices that settle everything -/

/-- The choices are, up to order and repetition, one transition from each decision point. -/
def Settles (points : List DecisionPoint) (cs : List TransitionId) : Prop :=
  ∃ ts, List.Forall₂ (fun d t => t ∈ d.transitions) points ts ∧ ∀ t, t ∈ cs ↔ t ∈ ts

/-- No transition is on offer at two decision points. -/
def Disjoint (points : List DecisionPoint) : Prop :=
  points.Pairwise fun d e => ∀ t ∈ d.transitions, t ∉ e.transitions

variable {cs ts : List TransitionId} {points : List DecisionPoint} {net : Net α}

/-- Each decision point finds its own transition among the choices. -/
theorem forall₂_of_settles
    (h : List.Forall₂ (fun d t => t ∈ d.transitions) points ts) (hdisj : Disjoint points)
    (hts : ∀ t ∈ ts, t ∈ cs) (hcs : ∀ t ∈ cs, t ∈ ts ∨ ∀ d ∈ points, t ∉ d.transitions) :
    List.Forall₂ (fun d t => t ∈ d.transitions ∧ t ∈ cs ∧ ∀ u ∈ cs, u ∈ d.transitions → u = t)
      points ts := by
  -- induction over the points; choices that were taken earlier belong to none of the others
  induction h with
  | nil => exact .nil
  | @cons d t points ts ht hrest ih =>
      obtain ⟨hd, hdisj⟩ := List.pairwise_cons.mp hdisj
      obtain ⟨htcs, htscs⟩ := List.forall_mem_cons.mp hts
      have hpoint : ∀ u ∈ ts, ∃ e ∈ points, u ∈ e.transitions := fun u hu => by
        exact exists_left_of_forall₂ hrest hu
      refine .cons ⟨ht, htcs, fun u hu hud => ?_⟩ (ih hdisj htscs fun u hu => ?_)
      · rcases hcs u hu with hu | hu
        · rcases List.mem_cons.mp hu with rfl | hu
          · rfl
          · obtain ⟨e, he, hue⟩ := hpoint u hu
            exact absurd hue (hd e he u hud)
        · exact absurd hud (hu d List.mem_cons_self)
      · rcases hcs u hu with hu | hu
        · rcases List.mem_cons.mp hu with rfl | hu
          · exact Or.inr fun e he => hd e he u ht
          · exact Or.inl hu
        · exact Or.inr fun e he => hu e (List.mem_cons_of_mem _ he)

theorem checkChoices_eq_ok (hknown : ∀ t ∈ cs, (net.transition? t).isSome = true) :
    ∀ {earlier : List TransitionId},
      (∀ t ∈ cs, ∃ d ∈ points, t ∈ d.transitions) →
      (∀ d ∈ points, ∀ t ∈ earlier ++ cs, ∀ u ∈ earlier ++ cs, t ∈ d.transitions →
        u ∈ d.transitions → t = u) → checkChoices net points earlier cs = .ok () := by
  induction cs with
  | nil => exact fun _ _ => rfl
  | cons t cs ih =>
      intro earlier hoffer hagree
      obtain ⟨ht, hcs⟩ := List.forall_mem_cons.mp hknown
      obtain ⟨htoffer, hoffers⟩ := List.forall_mem_cons.mp hoffer
      have hknown' : (net.transition? t).isNone = false := by
        cases hfound : net.transition? t with
        | none => simp [hfound] at ht
        | some u => rfl
      unfold checkChoices
      rw [hknown', if_neg Bool.false_ne_true]
      cases hpoint : points.find? (·.transitions.contains t) with
      | none =>
          obtain ⟨d, hd, htd⟩ := htoffer
          have hnot := List.find?_eq_none.mp hpoint d hd
          simp [htd] at hnot
      | some d =>
          have hd : d ∈ points := List.mem_of_find?_eq_some hpoint
          have htd : t ∈ d.transitions := by simpa using List.find?_some hpoint
          have hnone : earlier.find? (fun e => d.transitions.contains e && e != t) = none := by
            refine List.find?_eq_none.mpr fun e he => ?_
            have heq : e ∈ d.transitions → e = t := fun hed =>
              hagree d hd e (List.mem_append_left _ he) t (by simp) hed htd
            simpa using heq
          simp only [hnone]
          apply ih hcs hoffers
          intro e he
          rw [List.append_assoc, List.singleton_append]
          exact hagree e he

theorem Disjoint.eq_of_mem (hdisj : Disjoint points) {d e : DecisionPoint} {t : TransitionId}
    (hd : d ∈ points) (he : e ∈ points) (htd : t ∈ d.transitions) (hte : t ∈ e.transitions) :
    d = e := by
  have : Std.Symm fun d e : DecisionPoint => ∀ t ∈ d.transitions, t ∉ e.transitions :=
    ⟨fun _ _ h t hte htd => h t htd hte⟩
  by_contra hne
  exact List.Pairwise.forall hdisj hd he hne t htd hte

/-- Accepted choices are on offer, and those for one decision are the same. -/
theorem of_checkChoices_eq_ok (hdisj : Disjoint points) : ∀ {earlier : List TransitionId},
    checkChoices net points earlier cs = .ok () →
      (∀ t ∈ cs, ∃ d ∈ points, t ∈ d.transitions) ∧
        ∀ d ∈ points, ∀ t ∈ cs, t ∈ d.transitions → ∀ u ∈ earlier ++ cs, u ∈ d.transitions →
          u = t := by
  induction cs with
  | nil => exact fun _ => ⟨List.forall_mem_nil _, fun _ _ _ h => absurd h List.not_mem_nil⟩
  | cons t cs ih =>
      intro earlier hok
      unfold checkChoices at hok
      split at hok
      · cases hok
      · split at hok
        · cases hok
        · next d hpoint =>
          split at hok
          · cases hok
          · next hnone =>
            have hd : d ∈ points := List.mem_of_find?_eq_some hpoint
            have htd : t ∈ d.transitions := by simpa using List.find?_some hpoint
            obtain ⟨hoffers, hsame⟩ := ih hok
            rw [List.append_assoc, List.singleton_append] at hsame
            refine ⟨List.forall_mem_cons.mpr ⟨⟨d, hd, htd⟩, hoffers⟩, fun e he => ?_⟩
            refine List.forall_mem_cons.mpr ⟨fun hte u hu hue => ?_, hsame e he⟩
            obtain rfl := hdisj.eq_of_mem hd he htd hte
            -- an earlier choice was compared with this one, a later one will be
            rcases List.mem_append.mp hu with hu | hu
            · have hnot := List.find?_eq_none.mp hnone u hu
              simpa [hue] using hnot
            · rcases List.mem_cons.mp hu with rfl | hu
              · rfl
              · exact (hsame d hd u hu hue t (by simp) htd).symm

/-- Choices that settle everything are accepted. -/
theorem checkChoices_of_settles (h : Settles points cs) (hdisj : Disjoint points)
    (hknown : ∀ d ∈ points, ∀ t ∈ d.transitions, (net.transition? t).isSome = true) :
    checkChoices net points [] cs = .ok () := by
  obtain ⟨ts, hts, hcs⟩ := h
  have hpoint : ∀ t ∈ cs, ∃ d ∈ points, t ∈ d.transitions := fun t ht =>
    exists_left_of_forall₂ hts ((hcs t).mp ht)
  have hown := forall₂_of_settles hts hdisj (fun t ht => (hcs t).mpr ht)
    fun t ht => Or.inl ((hcs t).mp ht)
  refine checkChoices_eq_ok (fun t ht => ?_) hpoint fun d hd t ht u hu htd hud => ?_
  · obtain ⟨d, hd, htd⟩ := hpoint t ht
    exact hknown d hd t htd
  · obtain ⟨e, _, _, _, honly⟩ := exists_right_of_forall₂ hown hd
    rw [honly t ht htd, honly u hu hud]

namespace Resolver

variable {σ : Type} {resolver : Resolver σ α} {w : Workflow α} {m : Marking α} {d : DecisionPoint}
  {s : σ} {c : TransitionId}

theorem select_cons_of_some (h : cs.find? d.transitions.contains = some c) :
    resolver.select w m cs (d :: points) s =
      (c :: (resolver.select w m cs points s).1, (resolver.select w m cs points s).2) := by
  simp only [select, h]

theorem select_cons_of_none (h : cs.find? d.transitions.contains = none) :
    (resolver.select w m cs (d :: points) s).1 =
      ((resolver.answer w d.place m s).1.filter d.transitions.contains).toList ++
        (resolver.select w m cs points (resolver.answer w d.place m s).2).1 := by
  simp only [select, h]

/-- The resolver is not asked where everything is chosen. -/
theorem select_of_settles (hts : List.Forall₂ (fun d t => t ∈ d.transitions) points ts)
    (hdisj : Disjoint points) (hcs : ∀ t, t ∈ cs ↔ t ∈ ts) :
    resolver.select w m cs points s = (ts, s) := by
  have hown := forall₂_of_settles hts hdisj (fun t ht => (hcs t).mpr ht)
    fun t ht => Or.inl ((hcs t).mp ht)
  clear hts hdisj hcs
  induction hown with
  | nil => rfl
  | @cons d t points ts ht _ ih =>
      have hfind : cs.find? d.transitions.contains = some t := by
        obtain ⟨htd, htcs, honly⟩ := ht
        cases hfound : cs.find? d.transitions.contains with
        | none =>
            have hnot := List.find?_eq_none.mp hfound t htcs
            simp [htd] at hnot
        | some u =>
            have hud : u ∈ d.transitions := by simpa using List.find?_some hfound
            rw [honly u (List.mem_of_find?_eq_some hfound) hud]
      rw [select_cons_of_some hfind, ih]

end Resolver

end RegionNet
