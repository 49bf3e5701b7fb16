import Mathlib
import RegionNet.Proofs.Listing
import RegionNet.Proofs.Shares

/-!
# Answers of the resolver used by default

What the resolver used by default answers when it is asked for an open decision. It finds the
candidates by itself, and they are what is listed there; so the answer is always on the list
(`Consists.heeds_byDefault`), and which one it is can be told from the region that is decided: the
first branch of a choice, the way out of a loop whose bound is reached, and for a draw by nature the
branch in whose stretch the drawn number lies (`Resolver.exists_pick_of_lt`).
-/

namespace RegionNet

/-! ## Picking by weight -/

namespace Resolver

/-- The weights are laid end to end, and the number lies in the stretch of the transition that is
picked. -/
theorem exists_pick_of_lt {ts : List (Transition Rat)} {x : Rat} (hx : 0 ≤ x)
    (hlt : x < (ts.map weight).sum) : ∃ i t, ts[i]? = some t ∧ pick x ts = some t.id ∧
      ((ts.map weight).take i).sum ≤ x ∧ x < ((ts.map weight).take (i + 1)).sum := by
  induction ts generalizing x with
  | nil => exact absurd hlt (not_lt.mpr hx)
  | cons t ts ih =>
      rw [List.map_cons, List.sum_cons] at hlt
      by_cases hfirst : x < weight t
      · refine ⟨0, t, rfl, ?_, hx, by simpa using hfirst⟩
        cases ts with
        | nil => rfl
        | cons u us => exact if_pos hfirst
      · cases ts with
        | nil =>
            simp only [List.map_nil, List.sum_nil, add_zero] at hlt
            exact absurd hlt hfirst
        | cons u us =>
            obtain ⟨i, v, hv, hpick, hle, hnext⟩ :=
              ih (x := x - weight t) (sub_nonneg.mpr (not_lt.mp hfirst)) (by linarith)
            refine ⟨i + 1, v, hv, (if_neg hfirst).trans hpick, ?_, ?_⟩
            · rw [List.map_cons, List.take_succ_cons, List.sum_cons]
              linarith
            · rw [List.map_cons, List.take_succ_cons, List.sum_cons]
              linarith

theorem fraction_mem (word : UInt64) :
    0 ≤ (Quantity.fraction word : Rat) ∧ (Quantity.fraction word : Rat) < 1 := by
  have hlt : (word >>> 12).toNat < Nat.pow 2 52 := by
    have hword := word.toNat_lt
    rw [UInt64.toNat_shiftRight, Nat.shiftRight_eq_div_pow]
    exact Nat.div_lt_of_lt_mul hword
  have hpos : (0 : Rat) < (Nat.pow 2 52 : Nat) := Nat.cast_pos.mpr (Nat.pow_pos Nat.two_pos)
  unfold Quantity.fraction
  refine ⟨div_nonneg (Nat.cast_nonneg _) hpos.le, (div_lt_one hpos).mpr ?_⟩
  exact_mod_cast hlt

/-! ## One decision -/

variable {α σ : Type} [Quantity α]

omit [Quantity α] in
/-- The branch with the number zero is the first one. -/
theorem firstBranch_cons {t : Transition α} {ts : List (Transition α)} (h : t.branch = some 0) :
    firstBranch (t :: ts) = some t := by
  unfold firstBranch
  cases firstBranch ts with
  | none => rfl
  | some u => exact if_neg (h ▸ Nat.not_lt_zero _)

/-- Before its bound is reached, chance says whether a loop goes back. -/
theorem decideLoop_or (source : Source σ) (back exit : Transition α) (s : σ) :
    (decideLoop source false (some back) (some exit) s).1 = some back.id ∨
      (decideLoop source false (some back) (some exit) s).1 = some exit.id := by
  have hanswer : (decideLoop source false (some back) (some exit) s).1 =
      some (if Quantity.accepts back.probability (source.next s).1 then back.id else exit.id) := rfl
  rw [hanswer]
  split
  · exact Or.inl rfl
  · exact Or.inr rfl

variable {w : Workflow α} {p : PlaceId} {m : Marking α} {first : Transition α}
  {ts : List (Transition α)} {s : σ}

/-- The first candidate tells by what kind of region the decision is taken. -/
theorem answer_of_candidates (source : Source σ) (h : candidates w.net p m = first :: ts) :
    (byDefault source).answer w p m s =
      match first.regionKind with
      | .choice => ((firstBranch (first :: ts)).map Transition.id, s)
      | .nature => sample source (first :: ts) s
      | .loop =>
        decideLoop source (boundReached w.net p m) ((first :: ts).find? (·.role = .loopBack))
          ((first :: ts).find? (·.role = .loopExit)) s
      | _ => (some first.id, s) := by
  cases hkind : first.regionKind <;> simp only [byDefault, h, hkind]

/-- If the weights are not all zero, one of the candidates is picked with a drawn number. -/
theorem sample_of_pos (source : Source σ) {ts : List (Transition Rat)}
    (h : 0 < (ts.map weight).sum) (s : σ) : (sample source ts s).1 =
      pick (Quantity.fraction (source.next s).1 * (ts.map weight).sum) ts := by
  unfold sample
  rw [Quantity.sum_eq]
  dsimp only
  rw [if_neg (not_le.mpr h)]

/-- Where nature decides, one of the candidates is drawn. -/
theorem answer_of_nature (source : Source σ) (hsome : candidates w.net p m ≠ [])
    (h : ∀ t ∈ candidates w.net p m, t.regionKind = .nature) (s : σ) :
    (byDefault source).answer w p m s = sample source (candidates w.net p m) s := by
  obtain ⟨first, ts, hcons⟩ := List.exists_cons_of_ne_nil hsome
  rw [answer_of_candidates source hcons, h first (hcons ▸ List.mem_cons_self), hcons]

end Resolver

/-! ## Answers -/

namespace Workflow

section

variable {α : Type} [Quantity α]

/-- The answer fits the decision that is open at `d`. -/
structure Answered (w : Workflow α) (r : Region α) (m : Marking α) (d : DecisionPoint)
    (answer : Option TransitionId) : Prop where
  offered : ∃ t ∈ d.transitions, answer = some t
  /-- A choice is decided for its first branch. -/
  choice : ∀ c ∈ r.preorder, c.kind = .choice → w.DecidesAt c d.place →
    ∃ child t, c.branches[0]? = some child ∧ w.Enters c d.place 0 child t ∧ answer = some t.id
  /-- A loop goes back or is left, and it is left when its bound is reached. -/
  loop : ∀ c ∈ r.preorder, c.kind = .loop → w.DecidesAt c d.place →
    ∃ back ∈ w.net.transitions, ∃ exit ∈ w.net.transitions, ∃ bound,
      back.serves c.id .loopBack = true ∧ exit.serves c.id .loopExit = true ∧
      w.net.limit d.place = some bound ∧ (answer = some back.id ∨ answer = some exit.id) ∧
      (bound ≤ (m.state d.place).visits → answer = some exit.id)

end

/-- The draw by nature `c`, which is decided at `p`, is taken with the probabilities `ps`. -/
structure Draws (w : Workflow Rat) (c : Region Rat) (p : PlaceId) (m : Marking Rat)
    (ps : List Rat) : Prop where
  weights : (Resolver.candidates w.net p m).map Resolver.weight = ps
  /-- A number from zero up to the sum of the probabilities is drawn. -/
  drawn : ∀ {σ : Type} (source : Source σ) (s : σ), ∃ x, 0 ≤ x ∧ x < ps.sum ∧
    x = Quantity.fraction (source.next s).1 * ps.sum ∧
    ((Resolver.byDefault source).answer w p m s).1 =
      Resolver.pick x (Resolver.candidates w.net p m)
  /-- Whatever number is drawn, the branch is taken in whose stretch it lies, and this stretch is
  not empty. -/
  picked : ∀ x, 0 ≤ x → x < ps.sum → ∃ i child t q, c.branches[i]? = some child ∧
    w.Enters c p i child t ∧ Resolver.pick x (Resolver.candidates w.net p m) = some t.id ∧
    ps[i]? = some q ∧ 0 < q ∧ (ps.take i).sum ≤ x ∧ x < (ps.take (i + 1)).sum

namespace Consists

open Piece

section

variable {α σ : Type} [Quantity α] {w : Workflow α} {r : Region α} {P : Piece α} {m : Marking α}
  {d : DecisionPoint} {strategy : Strategy α}

theorem answered (h : w.Consists P) (hr : r.Yields P) (hd : d ∈ strategy.choices w m)
    (source : Source σ) (s : σ) :
    w.Answered r m d ((Resolver.byDefault source).answer w d.place m s).1 where
  offered := h.heeds_byDefault source strategy m s d hd
  choice c hc hkind hdecides := by
    obtain ⟨site, g, bs, hQ, hplace⟩ := h.exists_gateway hr hc (Or.inl hkind) hdecides
    obtain ⟨b, bs, rfl⟩ := List.exists_cons_of_ne_nil (hQ.part.placed h.placed).gateway.nonempty
    obtain ⟨child, hchild, hbecomes⟩ := exists_getElem?_of_forall₂ (hQ.forall₂_parts hr).flip
      (i := 0) (x := b) rfl
    obtain ⟨b', hb', henters⟩ := h.exists_enters hr hQ hchild
    obtain rfl := Option.some.inj hb'
    refine ⟨child, site.pick g 0 b, hchild, hplace ▸ henters, ?_⟩
    have hcandidates := h.candidates_gateway hQ.part (hplace ▸ h.marked_of_mem hd)
    rw [← hplace, picks, List.zipIdx_cons, List.map_cons] at hcandidates
    rw [Resolver.answer_of_candidates source hcandidates]
    cases g with
    | choice qs => exact congrArg (Option.map Transition.id) (Resolver.firstBranch_cons rfl)
    | nature qs => cases hkind.symm.trans hQ.kind_eq
  loop c hc hkind hdecides := by
    obtain ⟨site, body, x, bound, hQ, hplace, -⟩ := h.exists_loop hr hc hkind hdecides
    have hcandidates := h.candidates_loop hQ.part (hplace ▸ h.marked_of_mem hd)
    rw [← hplace] at hcandidates
    have hlimit : w.net.limit d.place = some bound :=
      hplace ▸ (hQ.part.placed h.placed).fits.2.1
    have hreached : Resolver.boundReached w.net d.place m =
        decide (bound ≤ (m.state d.place).visits) := by
      unfold Net.limit at hlimit
      rw [Resolver.boundReached, hlimit]
    have hsub := hQ.part.transitions_subset
    rw [← h.transitions] at hsub
    have hback : site.back body x ∈ w.net.transitions := hsub (by simp [Piece.transitions])
    have hleave : site.leave body x ∈ w.net.transitions := hsub (by simp [Piece.transitions])
    refine ⟨site.back body x, hback, site.leave body x, hleave, bound,
      Transition.serves_iff.mpr ⟨hQ.id_eq, rfl⟩, Transition.serves_iff.mpr ⟨hQ.id_eq, rfl⟩,
      hlimit, ?_⟩
    by_cases hlt : (m.state d.place).visits < bound
    · rw [if_pos hlt] at hcandidates
      have hfree : Resolver.boundReached w.net d.place m = false :=
        hreached.trans (decide_eq_false (Nat.not_le.mpr hlt))
      rw [Resolver.answer_of_candidates source hcandidates, hfree]
      exact ⟨Resolver.decideLoop_or source _ _ s, fun hle => absurd hle (Nat.not_le.mpr hlt)⟩
    · rw [if_neg hlt] at hcandidates
      rw [Resolver.answer_of_candidates source hcandidates]
      exact ⟨Or.inr rfl, fun _ => rfl⟩

end

variable {w : Workflow Rat} {r c : Region Rat} {P : Piece Rat} {m : Marking Rat} {p : PlaceId}

/-- The candidates of a draw by nature weigh as much as its branches are likely. -/
theorem weights_of_nature {s : Site Rat} {ps : List Rat} {bs : List (Piece Rat)}
    (hlength : ps.length = bs.length) (hps : ∀ q ∈ ps, 0 ≤ q) :
    (picks s (.nature ps) bs).map Resolver.weight = ps := by
  apply List.ext_getElem?
  intro i
  rw [List.getElem?_map, getElem?_picks]
  cases hq : ps[i]? with
  | none =>
      have hnone : bs[i]? = none := by
        rw [List.getElem?_eq_none_iff] at hq ⊢
        omega
      rw [hnone]
      rfl
  | some q =>
      obtain ⟨hlt, -⟩ := List.getElem?_eq_some_iff.mp hq
      obtain ⟨b, hb⟩ : ∃ b, bs[i]? = some b :=
        ⟨bs.get ⟨i, hlength ▸ hlt⟩, List.getElem?_eq_getElem _⟩
      have hodds : (s.pick (.nature ps) i b).probability = q := by
        show (ps[i]?).getD 0 = q
        rw [hq]
        rfl
      rw [hb, Option.map_some, Option.map_some, Resolver.weight, hodds,
        if_neg (not_lt.mpr (hps q (List.mem_of_getElem? hq)))]

theorem draws (h : w.Consists P) (hr : r.Yields P) (hc : c ∈ r.preorder) (hkind : c.kind = .nature)
    (hdecides : w.DecidesAt c p) (hmarked : 0 < m.tokens p) :
    ∃ ps, c.distribution = some (.branches ps) ∧ w.Draws c p m ps := by
  obtain ⟨n, hsound⟩ := hr.sound
  obtain ⟨site, g, bs, hQ, rfl⟩ := h.exists_gateway hr hc (Or.inr hkind) hdecides
  cases g with
  | choice qs => cases hkind.symm.trans hQ.kind_eq
  | nature ps =>
      have hdistribution := Region.distribution_of_nature hQ.block
      have hportions := Region.portions_of_sound (hsound c hc) (Or.inr hkind) hdistribution
      have hparts := hQ.forall₂_parts hr
      have hlength : ps.length = bs.length := hportions.length_eq.trans hparts.length_eq
      have hcandidates := h.candidates_gateway hQ.part hmarked
      have hweights : (Resolver.candidates w.net site.entry m).map Resolver.weight = ps := by
        rw [hcandidates]
        exact weights_of_nature hlength fun q hq => (hportions.between q hq).1
      refine ⟨ps, hdistribution, hweights, fun source s => ?_, fun x hx hlt => ?_⟩
      · obtain ⟨hzero, hone⟩ := Resolver.fraction_mem (source.next s).1
        refine ⟨_, mul_nonneg hzero hportions.sum_pos.le,
          mul_lt_of_lt_one_left hportions.sum_pos hone, rfl, ?_⟩
        have hsome := h.candidates_ne_nil_iff.mpr ⟨hmarked, _, hQ.part, rfl⟩
        rw [Resolver.answer_of_nature source hsome (fun t ht => ?_) s]
        · have hpos := hweights.symm ▸ hportions.sum_pos
          exact hweights ▸ Resolver.sample_of_pos source hpos s
        · rw [hcandidates] at ht
          obtain ⟨i, b, -, rfl⟩ := mem_picks.mp ht
          rfl
      · obtain ⟨i, t, hi, hpick, hle, hnext⟩ := Resolver.exists_pick_of_lt hx (hweights.symm ▸ hlt)
        rw [hweights] at hle hnext
        rw [hcandidates, getElem?_picks] at hi
        obtain ⟨b, hb, rfl⟩ := Option.map_eq_some_iff.mp hi
        obtain ⟨child, hchild, -⟩ := exists_getElem?_of_forall₂ hparts.flip hb
        obtain ⟨b', hb', henters⟩ := h.exists_enters hr hQ hchild
        obtain rfl : b = b' := Option.some.inj (hb.symm.trans hb')
        obtain ⟨hlt', -⟩ := List.getElem?_eq_some_iff.mp hb
        obtain ⟨q, hq⟩ : ∃ q, ps[i]? = some q :=
          ⟨ps.get ⟨i, hlength ▸ hlt'⟩, List.getElem?_eq_getElem _⟩
        have hsum : (ps.take (i + 1)).sum = (ps.take i).sum + q := by
          rw [List.take_add_one, hq, Option.toList_some, List.sum_append, List.sum_singleton]
        exact ⟨i, child, site.pick (.nature ps) i b, q, hchild, henters, hpick, hq, by linarith,
          hle, hnext⟩

end Consists

/-- In any marking and for any open decision, the resolver used by default answers with a transition
that is listed there. It takes the first branch of a choice and leaves a loop whose bound is
reached; and where nature draws, it takes the branch in whose stretch the drawn number lies. -/
theorem answers_of_compile :
    (∀ {α : Type} [Quantity α] {r : Region α} {w : Workflow α}, compile r = .ok w →
      ∀ (strategy : Strategy α) (m : Marking α), ∀ d ∈ strategy.choices w m,
        ∀ {σ : Type} (source : Source σ) (s : σ),
          w.Answered r m d ((Resolver.byDefault source).answer w d.place m s).1) ∧
    ∀ {r : Region Rat} {w : Workflow Rat}, compile r = .ok w →
      ∀ (strategy : Strategy Rat) (m : Marking Rat), ∀ d ∈ strategy.choices w m,
        ∀ c ∈ r.preorder, c.kind = .nature → w.DecidesAt c d.place →
          ∃ ps, c.distribution = some (.branches ps) ∧ w.Draws c d.place m ps := by
  constructor
  · intro α _ r w h strategy m d hd σ source s
    obtain ⟨w', P, hcompile, hP, hr⟩ := exists_yields (compile_eq_ok_iff.mp ⟨w, h⟩)
    obtain rfl := Except.ok.inj (hcompile.symm.trans h)
    exact hP.answered hr hd source s
  · intro r w h strategy m d hd c hc hkind hdecides
    obtain ⟨w', P, hcompile, hP, hr⟩ := exists_yields (compile_eq_ok_iff.mp ⟨w, h⟩)
    obtain rfl := Except.ok.inj (hcompile.symm.trans h)
    exact hP.draws hr hc hkind hdecides (hP.marked_of_mem hd)

/-- A choice, a loop and a draw by nature are open at once. The word that is drawn stands for one
half, which lies in the stretch of task `e` from one quarter to one. -/
theorem answers_sample : ∃ (w : Workflow Rat) (m : Marking Rat) (c : Region Rat),
    compile Region.sample = .ok w ∧ Strategy.choices ⟨.counter, 50⟩ w m =
      [⟨⟨10⟩, [⟨14⟩, ⟨19⟩]⟩, ⟨⟨12⟩, [⟨33⟩, ⟨34⟩]⟩, ⟨⟨18⟩, [⟨22⟩, ⟨27⟩]⟩] ∧
    (∀ d ∈ Strategy.choices ⟨.counter, 50⟩ w m, w.Answered Region.sample m d
      ((Resolver.byDefault Cycle.source).answer w d.place m (.ofWords [9223372036854775808])).1) ∧
    c ∈ Region.sample.preorder ∧ c.kind = .nature ∧ w.DecidesAt c ⟨18⟩ ∧
    w.Draws c ⟨18⟩ m [1 / 4, 3 / 4] ∧
    ((Resolver.byDefault Cycle.source).answer w ⟨18⟩ m (.ofWords [9223372036854775808])).1 =
      some ⟨27⟩ := by
  obtain ⟨blk, n, -, hcompile, -, -⟩ := compile_of_validate Region.sample_valid
  generalize ofBlock blk = w at hcompile
  have hcheck : (match compile Region.sample with
      | .ok w =>
          let m := Marking.withTokens w.net [(⟨10⟩, 1), (⟨12⟩, 1), (⟨18⟩, 1)]
          (Strategy.choices ⟨.counter, 50⟩ w m =
            [⟨⟨10⟩, [⟨14⟩, ⟨19⟩]⟩, ⟨⟨12⟩, [⟨33⟩, ⟨34⟩]⟩, ⟨⟨18⟩, [⟨22⟩, ⟨27⟩]⟩] &&
          ((Resolver.byDefault Cycle.source).answer w ⟨18⟩ m (.ofWords [9223372036854775808])).1 =
            some ⟨27⟩) &&
          Region.sample.preorder.any fun c => c.kind = .nature &&
            c.distribution = some (.branches [1 / 4, 3 / 4]) &&
            w.layout.infos.any fun i => i.id = c.id && i.entry = ⟨18⟩
      | .error _ => false) = true := by decide +kernel
  rw [hcompile] at hcheck
  simp only [Bool.and_eq_true, decide_eq_true_eq, List.any_eq_true] at hcheck
  obtain ⟨⟨hchoices, hanswer⟩, c, hc, ⟨hkind, hdistribution⟩, i, hi, hid, hentry⟩ := hcheck
  have hdecides : w.DecidesAt c ⟨18⟩ := Or.inl ⟨Or.inr hkind, i, hi, hid, hentry⟩
  obtain ⟨ps, hps, hdraws⟩ := answers_of_compile.2 hcompile ⟨.counter, 50⟩ _
    ⟨⟨18⟩, [⟨22⟩, ⟨27⟩]⟩ (by rw [hchoices]; simp) c hc hkind hdecides
  obtain rfl : ps = [1 / 4, 3 / 4] := by
    rw [hdistribution] at hps
    cases hps
    rfl
  exact ⟨w, _, c, hcompile, hchoices, fun d hd => answers_of_compile.1 hcompile _ _ d hd _ _, hc,
    hkind, hdecides, hdraws, hanswer⟩

end Workflow

end RegionNet
