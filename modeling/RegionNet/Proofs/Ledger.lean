import RegionNet.Proofs.Course
import RegionNet.Proofs.Soundness

/-!
# What is still to be paid

Every place charges a toll for the token that is taken from it. `Piece.rest` are the courses that a
piece can still take from where it stands: all of its courses before it is entered, and none but the
empty one when it is over. A move of a piece under way is balanced (`Placed.balanced`): it pays its
price out of what is left, and whatever is left can be had through a move that takes the same
tokens.
-/

namespace RegionNet

open scoped Pointwise

open Course

/-! ## Rounds of a loop -/

namespace Course

theorem chance_one : chance 1 = 1 := rfl

theorem wait_zero : wait 0 = 1 := rfl

/-- The courses of a loop after the first round, when `n` more are allowed. -/
def after (p : Rat) (O : Set Course) : Nat → Set Course
  | 0 => {chance (1 - p)}
  | n + 1 => {chance (1 - p)} ∪ {chance p} * (O * after p O n)

theorem mem_after {p : Rat} {O : Set Course} {o : Course} {n : Nat} :
    o ∈ after p O n ↔ ∃ k ≤ n, o ∈ {chance (p ^ k * (1 - p))} * O ^ k := by
  have hfirst : ∀ {k : Nat}, {chance p} * (O * ({chance (p ^ k * (1 - p))} * O ^ k)) =
      {chance (p ^ (k + 1) * (1 - p))} * O ^ (k + 1) := by
    intro k
    rw [mul_left_comm O, ← mul_assoc, Set.singleton_mul_singleton, chance_mul_chance, pow_succ' O,
      pow_succ' p, mul_assoc p]
  induction n generalizing o with
  | zero =>
      simp only [after, Nat.le_zero, exists_eq_left, pow_zero, one_mul, mul_one]
  | succ n ih =>
      rw [after, Set.mem_union]
      constructor
      · rintro (ho | ho)
        · exact ⟨0, Nat.zero_le _, by simpa using ho⟩
        · obtain ⟨a, ha, b, hb, rfl⟩ := Set.mem_mul.mp ho
          obtain ⟨c, hc, d, hd, rfl⟩ := Set.mem_mul.mp hb
          obtain ⟨k, hk, hd⟩ := ih.mp hd
          refine ⟨k + 1, Nat.succ_le_succ hk, ?_⟩
          rw [← hfirst]
          exact Set.mul_mem_mul ha (Set.mul_mem_mul hc hd)
      · rintro ⟨k, hk, ho⟩
        cases k with
        | zero => exact Or.inl (by simpa using ho)
        | succ k =>
            rw [← hfirst] at ho
            obtain ⟨a, ha, b, hb, rfl⟩ := Set.mem_mul.mp ho
            obtain ⟨c, hc, d, hd, rfl⟩ := Set.mem_mul.mp hb
            exact Or.inr (Set.mul_mem_mul ha (Set.mul_mem_mul hc
              (ih.mpr ⟨k, Nat.le_of_succ_le_succ hk, hd⟩)))

/-- After the first round, the others. -/
theorem rounds_eq (p : Rat) (n : Nat) (O : Set Course) : rounds p n O = O * after p O n := by
  ext o
  constructor
  · rintro ⟨k, hk, ho⟩
    rw [pow_succ', mul_left_comm] at ho
    obtain ⟨a, ha, b, hb, rfl⟩ := Set.mem_mul.mp ho
    exact Set.mul_mem_mul ha (mem_after.mpr ⟨k, Nat.cast_le.mp hk, hb⟩)
  · intro ho
    obtain ⟨a, ha, b, hb, rfl⟩ := Set.mem_mul.mp ho
    obtain ⟨k, hk, hb⟩ := mem_after.mp hb
    refine ⟨k, Nat.cast_le.mpr hk, ?_⟩
    rw [pow_succ', mul_left_comm]
    exact Set.mul_mem_mul ha hb

end Course

namespace Piece

variable {lim : PlaceId → Option Nat} {f g : Tally} {t u : Transition Rat} {p : PlaceId}
  {P : Piece Rat} {s : Site Rat} {bs : List (Piece Rat)} {toll : PlaceId → Course}

/-! ## Tolls and prices -/

/-- The price of a transition: its probability and the tolls of the places that it takes from. -/
def price (toll : PlaceId → Course) (t : Transition Rat) : Course :=
  chance t.probability * (t.inputs.map toll).prod

/-- The price of several transitions: their odds, and the tolls of all places that they take
from. -/
theorem prod_prices (toll : PlaceId → Course) (ts : List (Transition Rat)) :
    (ts.map (price toll)).prod = chance (ts.map Transition.probability).prod *
      ((ts.flatMap Transition.inputs).map toll).prod := by
  induction ts with
  | nil =>
      rw [List.map_nil, List.map_nil, List.flatMap_nil, List.map_nil, List.prod_nil, mul_one]
      rfl
  | cons t ts ih =>
      rw [List.map_cons, List.prod_cons, ih, price, List.map_cons, List.prod_cons,
        List.flatMap_cons, List.map_append, List.prod_append, mul_mul_mul_comm, chance_mul_chance]

mutual

/-- The courses of a piece, tolls of its places included. -/
def whole (toll : PlaceId → Course) : Piece Rat → Set Course
  | .task s _ => {toll s.entry}
  | .sequential _ P Q => P.whole toll * Q.whole toll
  | .parallel s bs => {toll s.entry} * (wholes toll bs).prod
  | .gateway s g bs => {toll s.entry} * drawn g.odds (wholes toll bs)
  | .loop s body x n => {toll s.entry} * rounds x n (body.whole toll * {toll body.exit})

def wholes (toll : PlaceId → Course) : List (Piece Rat) → List (Set Course)
  | [] => []
  | b :: bs => (b.whole toll * {toll b.exit}) :: wholes toll bs

end

/-- The toll of a place that has not been visited. -/
def due (toll : PlaceId → Course) (f : Tally) (p : PlaceId) : Set Course :=
  if (f p).2 = 0 then {toll p} else 1

mutual

/-- The courses that a piece can still take. -/
def rest (toll : PlaceId → Course) (f : Tally) : Piece Rat → Set Course
  | .task s _ => due toll f s.entry
  | .sequential _ P Q => P.rest toll f * Q.rest toll f
  | .parallel s bs => due toll f s.entry * (rests toll f bs).prod
  | .gateway s g bs =>
    if (f s.entry).2 = 0 then (Piece.gateway s g bs).whole toll else restOfOne toll f bs
  | .loop s body x n =>
    if (f s.entry).2 = 0 then (Piece.loop s body x n).whole toll
    else if ∃ p ∈ body.ground, 0 < (f p).1 then
      body.rest toll f *
        ({toll body.exit} * after x (body.whole toll * {toll body.exit}) (n - (f body.exit).2))
    else 1

def rests (toll : PlaceId → Course) (f : Tally) : List (Piece Rat) → List (Set Course)
  | [] => []
  | b :: bs => (b.rest toll f * due toll f b.exit) :: rests toll f bs

/-- The courses that the branch that was entered can still take. -/
def restOfOne (toll : PlaceId → Course) (f : Tally) : List (Piece Rat) → Set Course
  | [] => ∅
  | b :: bs =>
    if f.Untouched b.ground then restOfOne toll f bs else b.rest toll f * due toll f b.exit

end

theorem wholes_eq_map (bs : List (Piece Rat)) :
    wholes toll bs = bs.map fun b => b.whole toll * {toll b.exit} := by
  induction bs with
  | nil => rfl
  | cons b bs ih => rw [wholes, ih, List.map_cons]

theorem rests_eq_map (bs : List (Piece Rat)) :
    rests toll f bs = bs.map fun b => b.rest toll f * due toll f b.exit := by
  induction bs with
  | nil => rfl
  | cons b bs ih => rw [rests, ih, List.map_cons]

theorem due_of_fresh (h : (f p).2 = 0) : due toll f p = {toll p} := if_pos h

theorem due_of_visited (h : 0 < (f p).2) : due toll f p = 1 := if_neg h.ne'

theorem due_congr (h : (g p).2 = (f p).2) : due toll g p = due toll f p := by
  unfold due
  rw [h]

theorem restOfOne_eq {b : Piece Rat} (hb : b ∈ bs) (htouched : ¬ f.Untouched b.ground)
    (hothers : ∀ c ∈ bs, c ≠ b → f.Untouched c.ground) :
    restOfOne toll f bs = b.rest toll f * due toll f b.exit := by
  induction bs with
  | nil => cases hb
  | cons c bs ih =>
      rw [restOfOne]
      by_cases hcb : c = b
      · rw [hcb, if_neg htouched]
      · rw [if_pos (hothers c List.mem_cons_self hcb)]
        exact ih ((List.mem_cons.mp hb).resolve_left (Ne.symm hcb)) fun d hd =>
          hothers d (List.mem_cons_of_mem _ hd)

theorem rest_loop {body : Piece Rat} {x : Rat} {n : Nat} (hentry : 0 < (f s.entry).2)
    (hmarked : ∃ p ∈ body.ground, 0 < (f p).1) : (Piece.loop s body x n).rest toll f =
      {toll body.exit} * after x (body.whole toll * {toll body.exit}) (n - (f body.exit).2) *
        body.rest toll f := by
  rw [rest, if_neg hentry.ne', if_pos hmarked, mul_comm]

/-! ## Before, elsewhere and afterwards -/

/-- Where no place of its zone was visited, a piece has all its courses before it. -/
theorem rest_of_unvisited (P : Piece Rat) (h : ∀ p ∈ P.zone, (f p).2 = 0) :
    P.rest toll f = P.whole toll := by
  induction P using Piece.ind with
  | task s v => exact due_of_fresh (h _ List.mem_cons_self)
  | sequential s P Q ihP ihQ =>
      rw [rest, whole, ihP fun p hp => h p (List.mem_append_left _ hp),
        ihQ fun p hp => h p (List.mem_append_right _ hp)]
  | parallel s bs ih =>
      rw [rest, whole, due_of_fresh (h _ List.mem_cons_self), rests_eq_map, wholes_eq_map]
      refine congrArg _ (congrArg _ (List.map_congr_left ?_))
      intro b hb
      have hground : ∀ p ∈ b.ground, (f p).2 = 0 := fun p hp =>
        h p (List.mem_cons_of_mem _ (mem_zones.mpr ⟨b, hb, hp⟩))
      rw [ih b hb fun p hp => hground p (zone_subset_ground _ hp),
        due_of_fresh (hground _ (exit_mem_ground b))]
  | gateway s g bs ih => exact if_pos (h _ List.mem_cons_self)
  | loop s body x n ih => exact if_pos (h _ List.mem_cons_self)

theorem rests_of_unvisited (h : ∀ b ∈ bs, ∀ p ∈ b.ground, (f p).2 = 0) :
    rests toll f bs = wholes toll bs := by
  rw [rests_eq_map, wholes_eq_map]
  apply List.map_congr_left
  intro b hb
  rw [rest_of_unvisited b fun p hp => h b hb p (zone_subset_ground _ hp),
    due_of_fresh (h b hb _ (exit_mem_ground b))]

theorem Ready.unvisited (h : P.Ready f) (hexit : f P.exit = (0, 0)) :
    ∀ p ∈ P.ground, (f p).2 = 0 := by
  intro p hp
  rcases mem_ground.mp hp with hp | rfl
  · by_cases he : p = P.entry
    · rw [he, h.1]
    · rw [h.2 p hp he]
  · rw [hexit]

/-- What is left depends on the zone only. -/
theorem rest_congr (P : Piece Rat) (h : ∀ p ∈ P.zone, g p = f p) :
    P.rest toll g = P.rest toll f := by
  have hground : ∀ {bs : List (Piece Rat)}, (∀ p ∈ zones bs, g p = f p) →
      ∀ b ∈ bs, ∀ p ∈ b.ground, g p = f p := fun h b hb p hp => h p (mem_zones.mpr ⟨b, hb, hp⟩)
  induction P using Piece.ind with
  | task s v => exact due_congr (by rw [h _ List.mem_cons_self])
  | sequential s P Q ihP ihQ =>
      rw [rest, rest, ihP fun p hp => h p (List.mem_append_left _ hp),
        ihQ fun p hp => h p (List.mem_append_right _ hp)]
  | parallel s bs ih =>
      have hbs := hground fun p hp => h p (List.mem_cons_of_mem _ hp)
      rw [rest, rest, due_congr (by rw [h _ List.mem_cons_self]), rests_eq_map, rests_eq_map]
      refine congrArg _ (congrArg _ (List.map_congr_left ?_))
      intro b hb
      rw [ih b hb fun p hp => hbs b hb p (zone_subset_ground _ hp),
        due_congr (by rw [hbs b hb _ (exit_mem_ground b)])]
  | gateway s g' bs ih =>
      have hbs := hground fun p hp => h p (List.mem_cons_of_mem _ hp)
      have hone : restOfOne toll g bs = restOfOne toll f bs := by
        clear h
        induction bs with
        | nil => rfl
        | cons b bs ihbs =>
            obtain ⟨hb, hbs⟩ := List.forall_mem_cons.mp hbs
            obtain ⟨ihb, ih⟩ := List.forall_mem_cons.mp ih
            have huntouched : g.Untouched b.ground ↔ f.Untouched b.ground :=
              ⟨fun h => h.congr fun p hp => (hb p hp).symm, fun h => h.congr hb⟩
            rw [restOfOne, restOfOne, ihbs ih hbs,
              ihb fun p hp => hb p (zone_subset_ground _ hp),
              due_congr (by rw [hb _ (exit_mem_ground b)])]
            simp only [huntouched]
      rw [rest, rest, h _ List.mem_cons_self, hone]
  | loop s body x n ih =>
      have hbody : ∀ p ∈ body.ground, g p = f p := fun p hp => h p (List.mem_cons_of_mem _ hp)
      have hmarked : (∃ p ∈ body.ground, 0 < (g p).1) ↔ ∃ p ∈ body.ground, 0 < (f p).1 :=
        exists_congr fun p => and_congr_right fun hp => by rw [hbody p hp]
      rw [rest, rest, h _ List.mem_cons_self, hbody _ (exit_mem_ground body),
        ih fun p hp => hbody p (zone_subset_ground _ hp)]
      simp only [hmarked]

/-- Nothing is left when a piece is over. -/
theorem Placed.rest_of_done (hP : Placed lim P) (h : P.Done f) : P.rest toll f = 1 := by
  have hleft : ∀ {b : Piece Rat}, b.rest toll f = 1 → f b.exit = (0, 1) →
      b.rest toll f * due toll f b.exit = 1 := by
    intro b hrest hexit
    rw [hrest, due_of_visited (by rw [hexit]; exact Nat.zero_lt_one), one_mul]
  induction P using Piece.ind with
  | task s v =>
      rw [rest, due_of_visited]
      rw [show f s.entry = (0, 1) from h]
      exact Nat.zero_lt_one
  | sequential s P Q ihP ihQ => rw [rest, ihP hP.fst h.1, ihQ hP.snd h.2, one_mul]
  | parallel s bs ih =>
      obtain ⟨hentry, hbs⟩ := done_parallel.mp h
      rw [rest, due_of_visited (by rw [hentry]; exact Nat.zero_lt_one), one_mul, rests_eq_map]
      apply List.prod_eq_one
      intro O hO
      obtain ⟨b, hb, rfl⟩ := List.mem_map.mp hO
      exact hleft (ih b hb (hP.parallel.branch hb) (hbs b hb).1) (hbs b hb).2
  | gateway s g bs ih =>
      obtain ⟨hentry, b, hb, ⟨hdone, hexit⟩, hothers⟩ := hP.gateway.done_gateway.mp h
      have htouched : ¬ f.Untouched b.ground := by
        intro hb'
        rw [hb' _ (exit_mem_ground b)] at hexit
        cases hexit
      rw [rest, if_neg (by rw [hentry]; exact Nat.one_ne_zero),
        restOfOne_eq hb htouched hothers]
      exact hleft (ih b hb (hP.gateway.branch hb) hdone) hexit
  | loop s body x n ih =>
      obtain ⟨hentry, hdone, v, _, hexit⟩ := h
      rw [rest, if_neg (by rw [hentry]; exact Nat.one_ne_zero), if_neg]
      rintro ⟨p, hp, hmarked⟩
      rcases mem_ground.mp hp with hp | rfl
      · exact absurd (hP.body.idle_of_done hdone p hp) hmarked.ne'
      · exact not_pos_of_eq hexit hmarked

/-! ## Moves are paid out of what is left -/

theorem price_of_input (hin : t.inputs = [p]) (hsure : t.probability = 1) :
    price toll t = toll p := by
  rw [price, hin, hsure, chance_one, one_mul, List.map_singleton, List.prod_singleton]

theorem price_of_decision (hin : t.inputs = [p]) :
    price toll t = chance t.probability * toll p := by
  rw [price, hin, List.map_singleton, List.prod_singleton]

/-- The move `t` is paid out of what is left of the piece, and with the tokens that it takes all of
what is left can be had. -/
structure Balanced (lim : PlaceId → Option Nat) (toll : PlaceId → Course) (P : Piece Rat)
    (f : Tally) (t : Transition Rat) : Prop where
  pays : {price toll t} * P.rest toll (f.fire t) ⊆ P.rest toll f
  splits : ∀ o ∈ P.rest toll f, ∃ u ∈ P.transitions, f.Admits lim u ∧ u.inputs = t.inputs ∧
    o ∈ {price toll u} * P.rest toll (f.fire u)

theorem Placed.marked_of_busy (hP : Placed lim P) (hbusy : P.Busy f) :
    ∃ p ∈ P.ground, 0 < (f p).1 := by
  obtain ⟨p, hp, hmarked⟩ := hP.exists_marked hbusy
  exact ⟨p, zone_subset_ground _ hp, hmarked⟩

/-- A move leaves a token in the piece or at its end. -/
theorem Placed.marked_of_move (hP : Placed lim P) (hbusy : P.Busy f) (ht : t ∈ P.transitions)
    (ha : f.Admits lim t) : ∃ p ∈ P.ground, 0 < (f.fire t p).1 := by
  rcases hP.step hbusy ht ha with ⟨hbusy', _⟩ | ⟨_, hmarks⟩
  · exact hP.marked_of_busy hbusy'
  · exact ⟨_, exit_mem_ground P, by rw [hmarks]; exact Nat.succ_pos _⟩

theorem not_untouched {ps : List PlaceId} (h : ∃ p ∈ ps, 0 < (f p).1) : ¬ f.Untouched ps := by
  intro hfresh
  obtain ⟨p, hp, hmarked⟩ := h
  exact not_pos_of_eq (hfresh p hp) hmarked

/-- A move without alternative takes its price from all that is left. -/
theorem Balanced.of_eq (ht : t ∈ P.transitions) (ha : f.Admits lim t)
    (h : P.rest toll f = {price toll t} * P.rest toll (f.fire t)) : P.Balanced lim toll f t :=
  ⟨h.ge, fun _ ho => ⟨t, ht, ha, rfl, h ▸ ho⟩⟩

/-- What is balanced in a part is balanced in the whole, where the part's own moves change nothing
else that is left. -/
theorem Balanced.lift {b : Piece Rat} {X : Set Course} (h : b.Balanced lim toll f t)
    (hsub : b.transitions ⊆ P.transitions) (hf : P.rest toll f = X * b.rest toll f)
    (hfire : ∀ u ∈ b.transitions, f.Admits lim u →
      P.rest toll (f.fire u) = X * b.rest toll (f.fire u))
    (ht : t ∈ b.transitions) (ha : f.Admits lim t) : P.Balanced lim toll f t := by
  constructor
  · rw [hf, hfire t ht ha, mul_left_comm]
    exact Set.mul_subset_mul_left h.pays
  · intro _ ho
    rw [hf] at ho
    obtain ⟨x, hx, y, hy, rfl⟩ := Set.mem_mul.mp ho
    obtain ⟨u, hu, hau, hin, hy⟩ := h.splits y hy
    refine ⟨u, hsub hu, hau, hin, ?_⟩
    rw [hfire u hu hau, mul_left_comm]
    exact Set.mul_mem_mul hx hy

theorem Placed.balanced_sequential {Q : Piece Rat} (hP : Placed lim (.sequential s P Q))
    (ihP : P.Busy f → t ∈ P.transitions → P.Balanced lim toll f t)
    (ihQ : Q.Busy f → t ∈ Q.transitions → Q.Balanced lim toll f t)
    (ha : f.Admits lim t) (hturn : (Piece.sequential s P Q).Turn f t) :
    (Piece.sequential s P Q).Balanced lim toll f t := by
  cases hturn with
  | first hbusy hfresh ht =>
      -- a token on the joint is no visit
      have hvisits : ∀ u ∈ P.transitions, Q.rest toll (f.fire u) = Q.rest toll f := by
        intro u hu
        have hunvisited : ∀ p ∈ Q.zone, (f p).2 = 0 := fun p hp => by rw [hfresh p hp]
        rw [rest_of_unvisited Q hunvisited, rest_of_unvisited Q fun p hp => ?_]
        rw [hP.fst.visits_elsewhere hu (hP.notMem_fst_zone (zone_subset_ground _ hp))]
        exact hunvisited p hp
      refine (ihP hbusy ht).lift (List.subset_append_left _ _) (mul_comm _ _) ?_ ht ha
      intro u hu _
      rw [rest, hvisits u hu, mul_comm]
  | second hdone hbusy ht =>
      refine (ihQ hbusy ht).lift (List.subset_append_right _ _) rfl ?_ ht ha
      intro u hu _
      rw [rest, rest_congr P fun p hp => ?_]
      exact hP.snd.fire_elsewhere hu (hP.notMem_snd_ground hp)

variable (toll) in
/-- What is left of the other branches does not depend on what happens in one of them. -/
theorem Branched.exists_frame {b : Piece Rat} (h : Branched lim s bs) (hb : b ∈ bs) (f : Tally) :
    ∃ X : Set Course, ∀ g : Tally, (∀ c ∈ bs, c ≠ b → ∀ p ∈ c.ground, g p = f p) →
      (g b.exit).2 = (f b.exit).2 → (rests toll g bs).prod = X * b.rest toll g := by
  -- the frame is the product over the branches before and after
  obtain ⟨l, r, rfl⟩ := List.append_of_mem hb
  have hnodup : (l ++ b :: r).Nodup :=
    List.Nodup.of_map _ (h.map_nodup fun c _ => exit_mem_ground c)
  have hne : ∀ c ∈ l ++ r, c ≠ b := by
    rintro c hc rfl
    exact (List.nodup_cons.mp (List.nodup_middle.mp hnodup)).1 hc
  refine ⟨(rests toll f l).prod * due toll f b.exit * (rests toll f r).prod, ?_⟩
  intro g hg hexit
  have hside : ∀ {cs : List (Piece Rat)}, cs ⊆ l ++ r → rests toll g cs = rests toll f cs := by
    intro cs hcs
    rw [rests_eq_map, rests_eq_map]
    apply List.map_congr_left
    intro c hc
    have hc' : ∀ p ∈ c.ground, g p = f p := by
      refine hg c ?_ (hne c (hcs hc))
      rcases List.mem_append.mp (hcs hc) with hc | hc
      · exact List.mem_append_left _ hc
      · exact List.mem_append_right _ (List.mem_cons_of_mem _ hc)
    rw [rest_congr c fun p hp => hc' p (zone_subset_ground _ hp),
      due_congr (by rw [hc' _ (exit_mem_ground c)])]
  have hsplit : (rests toll g (l ++ b :: r)).prod = (rests toll g l).prod *
      ((b.rest toll g * due toll g b.exit) * (rests toll g r).prod) := by
    simp only [rests_eq_map, List.map_append, List.map_cons, List.prod_append, List.prod_cons]
  rw [hsplit, hside (List.subset_append_left _ _), hside (List.subset_append_right _ _),
    due_congr hexit]
  ac_rfl

theorem prod_singletons (xs : List PlaceId) :
    (xs.map fun p => ({toll p} : Set Course)).prod = {(xs.map toll).prod} := by
  induction xs with
  | nil => rfl
  | cons x xs ih => rw [List.map_cons, List.prod_cons, ih, Set.singleton_mul_singleton,
      List.map_cons, List.prod_cons]

theorem Branched.balanced_parallel (hP : Placed lim (.parallel s bs)) (h : Branched lim s bs)
    (ih : ∀ b ∈ bs, b.Busy f → t ∈ b.transitions → b.Balanced lim toll f t)
    (ht : t ∈ (Piece.parallel s bs).transitions) (ha : f.Admits lim t)
    (hturn : (Piece.parallel s bs).Turn f t) : (Piece.parallel s bs).Balanced lim toll f t := by
  cases hturn with
  | fork hentry hfresh he =>
      subst he
      obtain ⟨hentry', _, hready⟩ := h.fork hentry hfresh
      refine .of_eq ht ha ?_
      rw [rest, rest, due_of_fresh (by rw [hentry]), due_of_visited (by rw [hentry']; decide),
        one_mul, price_of_input (p := s.entry) (by simp [Site.fork]) rfl,
        rests_of_unvisited fun b hb p hp => by rw [untouched_branch hfresh hb p hp],
        rests_of_unvisited fun b hb => (hready b hb).1.unvisited (hready b hb).2]
  | branch b hb hentry hlive hbusy hexit ht =>
      obtain ⟨X, hX⟩ := h.exists_frame toll hb f
      have hwhole : ∀ g : Tally, g s.entry = f s.entry →
          (∀ c ∈ bs, c ≠ b → ∀ p ∈ c.ground, g p = f p) → (g b.exit).2 = (f b.exit).2 →
          (Piece.parallel s bs).rest toll g = due toll f s.entry * X * b.rest toll g := by
        intro g hg hothers hvisits
        rw [rest, hX g hothers hvisits, due_congr (by rw [hg]), mul_assoc]
      refine (ih b hb hbusy ht).lift (fun u hu => ?_)
        (hwhole f rfl (fun _ _ _ _ _ => rfl) rfl) (fun u hu _ => ?_) ht ha
      · exact List.mem_cons_of_mem _ (List.mem_append_left _ (mem_transitionsAll.mpr ⟨b, hb, hu⟩))
      · obtain ⟨hentry', _, hothers⟩ := h.elsewhere (f := f) hb hu
        exact hwhole _ hentry' hothers
          ((h.branch hb).visits_elsewhere hu (h.branch hb).exit_notMem_zone)
  | join hentry hdone he =>
      subst he
      obtain ⟨hentry', _, hdone'⟩ := h.join hdone
      refine .of_eq ht ha ?_
      rw [hP.rest_of_done (done_parallel.mpr ⟨hentry'.trans hentry, hdone'⟩), mul_one, rest,
        due_of_visited (by rw [hentry]; decide), one_mul, rests_eq_map]
      have hleft : ∀ b ∈ bs, b.rest toll f * due toll f b.exit = {toll b.exit} := by
        intro b hb
        rw [(h.branch hb).rest_of_done (hdone b hb).1, one_mul,
          due_of_fresh (by rw [(hdone b hb).2])]
      have hprice : price toll (s.join bs) = ((bs.map exit).map toll).prod := by
        rw [price, show (s.join bs).inputs = bs.map exit by simp [Site.join]]
        exact one_mul _
      rw [List.map_congr_left hleft, hprice, ← prod_singletons, List.map_map]
      rfl

/-- What is left after a branch was picked. -/
theorem Branched.rest_pick {g : Gate Rat} {b : Piece Rat} {i : Nat} (h : Branched lim s bs)
    (hi : bs[i]? = some b) (hentry : f s.entry = (1, 0)) (hfresh : f.Untouched (zones bs)) :
    (Piece.gateway s g bs).rest toll (f.fire (s.pick g i b)) = b.whole toll * {toll b.exit} := by
  have hb : b ∈ bs := List.mem_of_getElem? hi
  have hpick := h.pick_moves (g := g) hb i
  obtain ⟨hready, hexit⟩ :=
    (h.branch hb).ready_of_moves hpick (h.entry_notMem hb) (untouched_branch hfresh hb)
  have hbentry := (h.branch hb).entry_mem_ground
  have hothers : ∀ c ∈ bs, c ≠ b → (f.fire (s.pick g i b)).Untouched c.ground := by
    intro c hc hne p hp
    rw [hpick.elsewhere (h.ne_entry hc hp) (h.ne_of_ne hb hc hne hp hbentry),
      untouched_branch hfresh hc p hp]
  have htouched : ¬ (f.fire (s.pick g i b)).Untouched b.ground := fun h' => by
    have hzero := h' _ hbentry
    rw [hready.1] at hzero
    cases hzero
  rw [rest, if_neg (by rw [hpick.input hentry]; exact Nat.one_ne_zero),
    restOfOne_eq hb htouched hothers, due_of_fresh (by rw [hexit]),
    rest_of_unvisited b fun p hp => hready.unvisited hexit p (zone_subset_ground _ hp)]

/-- A pick pays for the branch that it enters, and another pick could have entered another. -/
theorem Branched.balanced_pick {g : Gate Rat} {b : Piece Rat} {i : Nat} (h : Branched lim s bs)
    (hi : bs[i]? = some b) (hentry : f s.entry = (1, 0)) (hfresh : f.Untouched (zones bs)) :
    (Piece.gateway s g bs).Balanced lim toll f (s.pick g i b) := by
  have hprice : ∀ {j : Nat} {c : Piece Rat},
      ({price toll (s.pick g j c)} : Set Course) = {toll s.entry} * {chance (g.odds j)} := by
    intro j c
    rw [price_of_decision (p := s.entry) (by simp [Site.pick]), Set.singleton_mul_singleton,
      mul_comm]
    rfl
  have hwhole : (Piece.gateway s g bs).rest toll f =
      {toll s.entry} * drawn g.odds (wholes toll bs) := if_pos (by rw [hentry])
  constructor
  · rw [h.rest_pick hi hentry hfresh, hwhole, hprice, mul_assoc]
    refine Set.mul_subset_mul_left fun o ho => ⟨i, _, ?_, ho⟩
    rw [wholes_eq_map, List.getElem?_map, hi, Option.map_some]
  · intro o ho
    rw [hwhole] at ho
    obtain ⟨x, hx, y, ⟨j, O, hj, hy⟩, rfl⟩ := Set.mem_mul.mp ho
    rw [wholes_eq_map, List.getElem?_map] at hj
    obtain ⟨c, hc, rfl⟩ := Option.map_eq_some_iff.mp hj
    refine ⟨s.pick g j c, ?_, admits_pick (pos_of_eq hentry), by simp [Site.pick], ?_⟩
    · exact mem_arms.mpr ⟨j, c, hc, Or.inl (by rw [Nat.zero_add])⟩
    · rw [h.rest_pick hc hentry hfresh, hprice, mul_assoc]
      exact Set.mul_mem_mul hx hy

/-- Inside the branch that was entered, a gateway has left what the branch has. -/
theorem Branched.balanced_arm {g : Gate Rat} {b : Piece Rat} (h : Branched lim s bs) (hb : b ∈ bs)
    (hbalanced : b.Balanced lim toll f t) (hentry : f s.entry = (0, 1))
    (hothers : ∀ c ∈ bs, c ≠ b → f.Untouched c.ground) (hbusy : b.Busy f) (ht : t ∈ b.transitions)
    (ha : f.Admits lim t) : (Piece.gateway s g bs).Balanced lim toll f t := by
  have hwhole : ∀ g' : Tally, g' s.entry = f s.entry →
      (∀ c ∈ bs, c ≠ b → ∀ p ∈ c.ground, g' p = f p) → (g' b.exit).2 = (f b.exit).2 →
      (∃ p ∈ b.ground, 0 < (g' p).1) →
      (Piece.gateway s g bs).rest toll g' = due toll f b.exit * b.rest toll g' := by
    intro g' hg' hsame hvisits hmarked
    rw [rest, if_neg (by rw [hg', hentry]; exact Nat.one_ne_zero),
      restOfOne_eq hb (not_untouched hmarked) fun c hc hne =>
        (hothers c hc hne).congr (hsame c hc hne),
      due_congr hvisits, mul_comm]
  have hmarked := (h.branch hb).marked_of_busy hbusy
  refine hbalanced.lift (fun u hu => ?_)
    (hwhole f rfl (fun _ _ _ _ _ => rfl) rfl hmarked) (fun u hu hau => ?_) ht ha
  · obtain ⟨j, hj⟩ := List.mem_iff_getElem?.mp hb
    exact mem_arms.mpr ⟨j, b, hj, Or.inr (Or.inl hu)⟩
  · obtain ⟨hentry', _, hsame⟩ := h.elsewhere (f := f) hb hu
    exact hwhole _ hentry' hsame
      ((h.branch hb).visits_elsewhere hu (h.branch hb).exit_notMem_zone)
      ((h.branch hb).marked_of_move hbusy hu hau)

theorem Branched.balanced_gateway {g : Gate Rat} (hP : Placed lim (.gateway s g bs))
    (h : Branched lim s bs)
    (ih : ∀ b ∈ bs, b.Busy f → t ∈ b.transitions → b.Balanced lim toll f t)
    (ht : t ∈ (Piece.gateway s g bs).transitions) (ha : f.Admits lim t)
    (hturn : (Piece.gateway s g bs).Turn f t) : (Piece.gateway s g bs).Balanced lim toll f t := by
  cases hturn with
  | pick b i hi hentry hfresh he =>
      subst he
      exact h.balanced_pick hi hentry hfresh
  | arm b hb hentry hothers hbusy hexit ht =>
      exact h.balanced_arm hb (ih b hb hbusy ht) hentry hothers hbusy ht ha
  | merge b i hi hentry hothers hdone hexit he =>
      subst he
      have hb : b ∈ bs := List.mem_of_getElem? hi
      obtain ⟨hentry', _, hdone', hleft, hsame⟩ := h.merge (g := g) hb i hdone hexit
      have hover : (Piece.gateway s g bs).Done (f.fire (s.merge g i b)) :=
        h.done_gateway.mpr ⟨hentry'.trans hentry, b, hb, ⟨hdone', hleft⟩, fun c hc hne =>
          (hothers c hc hne).congr (hsame c hc hne)⟩
      have hmarked := not_untouched ⟨_, exit_mem_ground b, pos_of_eq hexit⟩
      refine .of_eq ht ha ?_
      rw [hP.rest_of_done hover, mul_one, rest, if_neg (by rw [hentry]; exact Nat.one_ne_zero),
        restOfOne_eq hb hmarked hothers, (h.branch hb).rest_of_done hdone, one_mul,
        due_of_fresh (by rw [hexit]), price_of_input (p := b.exit) (by simp [Site.merge]) rfl]

variable (toll) in
/-- What is left of a loop that has to be decided comes from its exit, or from another round. -/
theorem Placed.rest_decide {x : Rat} {n v : Nat} (hP : Placed lim (.loop s P x n))
    (hv : v ≤ n) (hentry : f s.entry = (0, 1)) (hdone : P.Done f) (hexit : f P.exit = (1, v)) :
    (Piece.loop s P x n).rest toll f =
      {price toll (s.leave P x)} * (Piece.loop s P x n).rest toll (f.fire (s.leave P x)) ∪
        if v < n then
          {price toll (s.back P x)} * (Piece.loop s P x n).rest toll (f.fire (s.back P x))
        else ∅ := by
  -- leaving is paid by the exit and the odds of not going on
  have hleave : ({price toll (s.leave P x)} : Set Course) *
      (Piece.loop s P x n).rest toll (f.fire (s.leave P x)) = {toll P.exit} * {chance (1 - x)} := by
    rw [hP.rest_of_done (hP.leave hv hentry hdone hexit).1, mul_one,
      price_of_decision (p := P.exit) (by simp [Site.leave]), Set.singleton_mul_singleton, mul_comm]
    rfl
  rw [rest_loop (by rw [hentry]; exact Nat.zero_lt_one) ⟨_, exit_mem_ground P, pos_of_eq hexit⟩,
    hP.body.rest_of_done hdone, hexit, mul_one, hleave]
  -- another round is one that is allowed less afterwards
  by_cases hlt : v < n
  · obtain ⟨k, hk⟩ : ∃ k, n - v = k + 1 := ⟨n - v - 1, by omega⟩
    obtain ⟨hready, hexit'⟩ := hP.back_ready (x := x) hdone hexit
    have hentry' : f.fire (s.back P x) s.entry = (0, 1) :=
      (hP.body.back_elsewhere hP.entry_notMem_body).trans hentry
    have hprice : ({price toll (s.back P x)} : Set Course) = {toll P.exit} * {chance x} := by
      rw [price_of_decision (p := P.exit) (by simp [Site.back]), Set.singleton_mul_singleton,
        mul_comm]
      rfl
    rw [if_pos hlt, rest_loop (by rw [hentry']; exact Nat.zero_lt_one)
      ⟨_, hP.body.entry_mem_ground, pos_of_eq hready.1⟩, hexit',
      rest_of_unvisited P fun p hp => ?_, hprice, hk, after, Set.mul_union,
      show n - (v + 1) = k by omega]
    · refine congrArg _ ?_
      ac_rfl
    · by_cases he : p = P.entry
      · rw [he, hready.1]
      · rw [hready.2 p hp he]
  · rw [if_neg hlt, Set.union_empty, show n - v = 0 by omega, after]

theorem Placed.splits_decide {x : Rat} {n v : Nat} {o : Course} (hP : Placed lim (.loop s P x n))
    (hv : v ≤ n) (hentry : f s.entry = (0, 1)) (hdone : P.Done f) (hexit : f P.exit = (1, v))
    (ho : o ∈ (Piece.loop s P x n).rest toll f) :
    ∃ u ∈ (Piece.loop s P x n).transitions, f.Admits lim u ∧ u.inputs = [P.exit] ∧
      o ∈ {price toll u} * (Piece.loop s P x n).rest toll (f.fire u) := by
  rw [hP.rest_decide toll hv hentry hdone hexit] at ho
  rcases ho with ho | ho
  · exact ⟨s.leave P x, by simp [transitions], admits_leave (pos_of_eq hexit),
      by simp [Site.leave], ho⟩
  · split at ho
    · next hv =>
        have hback := admits_back (x := x) hP (pos_of_eq hexit) (hexit ▸ hv)
        exact ⟨s.back P x, by simp [transitions], hback, by simp [Site.back], ho⟩
    · cases ho

theorem Placed.balanced_loop {x : Rat} {n : Nat} (hP : Placed lim (.loop s P x n))
    (ih : P.Busy f → t ∈ P.transitions → P.Balanced lim toll f t)
    (ht : t ∈ (Piece.loop s P x n).transitions) (ha : f.Admits lim t)
    (hturn : (Piece.loop s P x n).Turn f t) : (Piece.loop s P x n).Balanced lim toll f t := by
  cases hturn with
  | enter hentry hfresh he =>
      subst he
      obtain ⟨hready, hexit⟩ := hP.body.ready_of_moves hP.enter_moves hP.entry_notMem_body hfresh
      have hvisited : 0 < (f.fire (s.enter P) s.entry).2 := by
        rw [hP.enter_moves.input hentry]
        exact Nat.zero_lt_one
      -- what a loop that was entered has left is a round and what may follow it
      refine .of_eq ht ha ?_
      rw [rest_loop hvisited ⟨_, hP.body.entry_mem_ground, pos_of_eq hready.1⟩, hexit,
        rest_of_unvisited P fun p hp => hready.unvisited hexit p (zone_subset_ground _ hp),
        rest, if_pos (by rw [hentry]), whole, rounds_eq,
        price_of_input (p := s.entry) (by simp [Site.enter]) rfl]
      rw [Nat.sub_zero]
      ac_rfl
  | body v hv hentry hbusy hexit ht =>
      have hvisited : 0 < (f s.entry).2 := by
        rw [hentry]
        exact Nat.zero_lt_one
      refine (ih hbusy ht).lift (fun u hu => ?_)
        (rest_loop hvisited (hP.body.marked_of_busy hbusy)) (fun u hu hau => ?_) ht ha
      · exact List.mem_cons_of_mem _ (List.mem_append_left _ hu)
      · have hentry' : f.fire u s.entry = f s.entry :=
          hP.body.fire_elsewhere hu hP.entry_notMem_body
        have hvisits : (f.fire u P.exit).2 = (f P.exit).2 :=
          hP.body.visits_elsewhere hu hP.body.exit_notMem_zone
        rw [rest_loop (by rw [hentry']; exact hvisited) (hP.body.marked_of_move hbusy hu hau),
          hvisits]
  | back v hv hentry hdone hexit he =>
      subst he
      have hrest := hP.rest_decide toll (Nat.le_of_lt hv) hentry hdone hexit
      rw [if_pos hv] at hrest
      refine ⟨hrest ▸ Set.subset_union_right, ?_⟩
      intro o ho
      obtain ⟨u, hu, hau, hin, ho⟩ := hP.splits_decide (Nat.le_of_lt hv) hentry hdone hexit ho
      exact ⟨u, hu, hau, by simpa [Site.back] using hin, ho⟩
  | leave v hv hentry hdone hexit he =>
      subst he
      have hrest := hP.rest_decide toll hv hentry hdone hexit
      refine ⟨hrest ▸ Set.subset_union_left, ?_⟩
      intro o ho
      obtain ⟨u, hu, hau, hin, ho⟩ := hP.splits_decide hv hentry hdone hexit ho
      exact ⟨u, hu, hau, by simpa [Site.leave] using hin, ho⟩

/-- Every move of a piece under way is balanced. -/
theorem Placed.balanced (hP : Placed lim P) (hbusy : P.Busy f) (ht : t ∈ P.transitions)
    (ha : f.Admits lim t) : P.Balanced lim toll f t := by
  induction P using Piece.ind with
  | task s v =>
      refine .of_eq ht ha ?_
      obtain rfl : t = s.run := List.mem_singleton.mp ht
      rw [hP.rest_of_done (f := f.fire s.run) (hP.run_moves.input hbusy), mul_one, rest,
        price_of_input (p := s.entry) (by simp [Site.run]) rfl,
        due_of_fresh (by rw [show f s.entry = (1, 0) from hbusy])]
  | sequential s P Q ihP ihQ =>
      exact hP.balanced_sequential (ihP hP.fst) (ihQ hP.snd) ha (hP.turn hbusy ht ha)
  | parallel s bs ih =>
      exact hP.parallel.balanced_parallel hP (fun b hb => ih b hb (hP.parallel.branch hb)) ht ha
        (hP.turn hbusy ht ha)
  | gateway s g bs ih =>
      exact hP.gateway.balanced_gateway hP (fun b hb => ih b hb (hP.gateway.branch hb)) ht ha
        (hP.turn hbusy ht ha)
  | loop s body x n ih => exact hP.balanced_loop (ih hP.body) ht ha (hP.turn hbusy ht ha)

/-- Whatever moves were made, what they cost and what is left then was left before. -/
theorem Placed.pays_path {ts : List (Transition Rat)} {f' : Tally} (hP : Placed lim P)
    (hlive : P.Live f) (hpath : Tally.Path lim P.transitions f ts f') :
    {(ts.map (price toll)).prod} * P.rest toll f' ⊆ P.rest toll f := by
  induction hpath with
  | nil => rw [List.map_nil, List.prod_nil, Set.singleton_one, one_mul]
  | @cons f f' t ts ht ha hpath ih =>
      rcases hlive with ⟨hbusy, hexit⟩ | ⟨hdone, _⟩
      · have hbalanced : P.Balanced lim toll f t := hP.balanced hbusy ht ha
        refine Set.Subset.trans ?_ hbalanced.pays
        rw [List.map_cons, List.prod_cons, ← Set.singleton_mul_singleton, mul_assoc]
        exact Set.mul_subset_mul_left (ih ((hP.step hbusy ht ha).live hexit))
      · exact absurd ha (hP.not_admits_of_done hdone ht)

/-! ## The courses of a laid piece -/

end Piece

/-- What a place charges. -/
def Terms.toll (t : Terms Rat) : Course := ⟨1, t.impacts.getD [], t.duration⟩

/-- The tolls that some terms set. -/
def tollIn (T : PlaceId → Option (Terms Rat)) (p : PlaceId) : Course := (T p).elim 1 Terms.toll

theorem tollIn_of_eq {T : PlaceId → Option (Terms Rat)} {p : PlaceId} {t : Terms Rat}
    (h : T p = some t) : tollIn T p = t.toll := by
  rw [tollIn, h]
  rfl

namespace Piece

variable {T : PlaceId → Option (Terms Rat)}

theorem wholes_of_laid {bs : List (Piece Rat)} (h : AllLaid T bs)
    (ih : ∀ b ∈ bs, b.Laid T 0 → b.whole (tollIn T) = {wait 0} * b.block.courses) :
    wholes (tollIn T) bs = Block.coursesAll (blocks bs) := by
  rw [wholes_eq_map, Block.coursesAll_eq_map, blocks_eq_map, List.map_map]
  apply List.map_congr_left
  intro b hb
  obtain ⟨hlaid, hexit⟩ := allLaid_iff.mp h b hb
  rw [ih b hb hlaid, tollIn_of_eq hexit]
  show {1} * b.block.courses * {1} = _
  rw [Set.singleton_one, one_mul, mul_one]
  rfl

/-- The courses of a laid piece are those of its block, after the time that was charged on its entry
before. -/
theorem Laid.whole {acc : Rat} {P : Piece Rat} (h : P.Laid T acc) :
    P.whole (tollIn T) = {wait acc} * P.block.courses := by
  have hentry : ∀ {s : Site Rat} {acc : Rat}, T s.entry = some (.lasting (acc + s.head.duration)) →
      ({tollIn T s.entry} : Set Course) = {wait acc} * {wait s.head.duration} := by
    intro s acc h
    rw [tollIn_of_eq h, Set.singleton_mul_singleton, wait_mul_wait]
    rfl
  -- only the first part inherits what was charged before; branches and bodies start from nothing
  induction P using Piece.ind generalizing acc with
  | task s v =>
      have htoll : (Terms.toll ⟨acc + s.head.duration, some v, none⟩ : Course) =
          wait acc * (wait s.head.duration * ⟨1, v, 0⟩) := by
        ext1
        · show (1 : Rat) = 1 * (1 * 1)
          rw [one_mul, one_mul]
        · exact ((Quantity.nil_addEntries _).trans (Quantity.nil_addEntries v)).symm
        · exact congrArg (acc + ·) (add_zero s.head.duration).symm
      rw [Piece.whole, tollIn_of_eq h, htoll, ← Set.singleton_mul_singleton,
        ← Set.singleton_mul_singleton]
      rfl
  | sequential s P Q ihP ihQ =>
      obtain ⟨-, hP, hQ⟩ := h
      have hwait : ({wait (acc + s.head.duration)} : Set Course) =
          {wait acc} * {wait s.head.duration} := by
        rw [Set.singleton_mul_singleton, wait_mul_wait]
      have hzero : ({wait 0} : Set Course) = 1 := by
        rw [wait_zero, Set.singleton_one]
      have hsecond : Q.whole (tollIn T) = {wait 0} * Q.block.courses := ihQ hQ
      have hfirst : P.whole (tollIn T) = {wait (acc + s.head.duration)} * P.block.courses := ihP hP
      rw [Piece.whole, hfirst, hsecond, hzero, one_mul, hwait, mul_assoc, mul_assoc]
      rfl
  | parallel s bs ih =>
      obtain ⟨hs, hbs⟩ := h
      rw [Piece.whole, hentry hs, wholes_of_laid hbs fun b hb => ih b hb, mul_assoc]
      rfl
  | gateway s g bs ih =>
      obtain ⟨hs, hbs⟩ := h
      rw [Piece.whole, hentry hs, wholes_of_laid hbs fun b hb => ih b hb, mul_assoc]
      cases g <;> rfl
  | loop s body x n ih =>
      obtain ⟨hs, hexit, hbody⟩ := h
      have hwhole : body.whole (tollIn T) * {tollIn T body.exit} = body.block.courses := by
        rw [ih hbody, tollIn_of_eq hexit]
        show {1} * body.block.courses * {1} = _
        rw [Set.singleton_one, one_mul, mul_one]
      rw [Piece.whole, hentry hs, hwhole, mul_assoc]
      rfl

end Piece

end RegionNet
