import Mathlib
import RegionNet.Proofs.Step

/-!
# Progress

A piece under way can always move on, and it cannot do so for ever. `Piece.left` counts the visits
that are still possible, where each round of a loop that may still come counts for a whole body; a
move uses up at least one of them (`Placed.left_fire`). So a piece under way can be brought to its
end (`Placed.exists_finish`), and on some way through it each of its transitions gets its turn
(`Placed.exists_turn`).
-/

namespace RegionNet

variable {α : Type} {lim : PlaceId → Option Nat} {f g : Tally} {t : Transition α} {p : PlaceId}

theorem Tally.visits_le_fire (h : t.resetVisits = []) (p : PlaceId) :
    (f p).2 ≤ (f.fire t p).2 := by
  simp [fire, h]

namespace Piece

/-! ## What is left to do -/

mutual

/-- The visits that are still possible before the piece is over. -/
def left : Piece α → Tally → Nat
  | .task s _, f => 1 - (f s.entry).2
  | .sequential _ P Q, f => P.left f + Q.left f
  | .parallel s bs, f => (1 - (f s.entry).2) + leftAll bs f
  | .gateway s _ bs, f => (1 - (f s.entry).2) + leftAll bs f
  | .loop s body _ n, f =>
    (1 - (f s.entry).2) +
      (body.left f + (n + 1 - (f body.exit).2) * (body.left (fun _ => (0, 0)) + 1))

def leftAll : List (Piece α) → Tally → Nat
  | [], _ => 0
  | b :: bs, f => (b.left f + (1 - (f b.exit).2)) + leftAll bs f

end

theorem leftAll_eq_sum (bs : List (Piece α)) (f : Tally) :
    leftAll bs f = (bs.map fun b => b.left f + (1 - (f b.exit).2)).sum := by
  induction bs with
  | nil => rfl
  | cons b bs ih => rw [leftAll, ih, List.map_cons, List.sum_cons]

theorem leftAll_le {bs : List (Piece α)} (h : ∀ b ∈ bs, b.left g ≤ b.left f)
    (hexit : ∀ b ∈ bs, (f b.exit).2 ≤ (g b.exit).2) : leftAll bs g ≤ leftAll bs f := by
  rw [leftAll_eq_sum, leftAll_eq_sum]
  apply List.sum_le_sum
  intro b hb
  have hleft := h b hb
  have hvisits := hexit b hb
  omega

theorem leftAll_lt {bs : List (Piece α)} (h : ∀ b ∈ bs, b.left g ≤ b.left f)
    (hexit : ∀ b ∈ bs, (f b.exit).2 ≤ (g b.exit).2)
    (hlt : ∃ b ∈ bs, b.left g < b.left f ∨ (f b.exit).2 < (g b.exit).2 ∧ (f b.exit).2 = 0) :
    leftAll bs g < leftAll bs f := by
  rw [leftAll_eq_sum, leftAll_eq_sum]
  obtain ⟨b, hb, hlt⟩ := hlt
  refine List.sum_lt_sum _ _ (fun c hc => ?_) ⟨b, hb, ?_⟩
  · have hleft := h c hc
    have hvisits := hexit c hc
    omega
  · have hleft := h b hb
    have hvisits := hexit b hb
    omega

/-- The more visits there were, the fewer are left. -/
theorem left_anti {P : Piece α} (hfg : ∀ p ∈ P.zone, (f p).2 ≤ (g p).2)
    (hP : P.Fits lim) : P.left g ≤ P.left f := by
  have hall : ∀ {s : Site α} {bs : List (Piece α)}, FitAll lim bs →
      (∀ p ∈ s.entry :: zones bs, (f p).2 ≤ (g p).2) →
      (∀ b ∈ bs, (∀ p ∈ b.zone, (f p).2 ≤ (g p).2) → b.Fits lim → b.left g ≤ b.left f) →
      (1 - (g s.entry).2) + leftAll bs g ≤ (1 - (f s.entry).2) + leftAll bs f := by
    intro s bs hbs hfg ih
    have hentry := hfg _ List.mem_cons_self
    have hground : ∀ b ∈ bs, ∀ p ∈ b.ground, (f p).2 ≤ (g p).2 := fun b hb p hp =>
      hfg p (List.mem_cons_of_mem _ (mem_zones.mpr ⟨b, hb, hp⟩))
    have hrest : leftAll bs g ≤ leftAll bs f := leftAll_le
      (fun b hb => ih b hb (fun p hp => hground b hb p (zone_subset_ground _ hp))
        (fitAll_iff.mp hbs b hb).1)
      (fun b hb => hground b hb _ (exit_mem_ground b))
    omega
  induction P using Piece.ind with
  | task s v => exact Nat.sub_le_sub_left (hfg _ List.mem_cons_self) 1
  | sequential s P Q ihP ihQ =>
      obtain ⟨-, -, -, hP, hQ⟩ := hP
      exact Nat.add_le_add (ihP (fun p hp => hfg p (List.mem_append_left _ hp)) hP)
        (ihQ (fun p hp => hfg p (List.mem_append_right _ hp)) hQ)
  | parallel s bs ih => exact hall hP.2.2 hfg ih
  | gateway s g bs ih => exact hall hP.2.2 hfg ih
  | loop s body x n ih =>
      have hbody : ∀ p ∈ body.ground, (f p).2 ≤ (g p).2 := fun p hp =>
        hfg p (List.mem_cons_of_mem _ hp)
      have hentry := hfg _ List.mem_cons_self
      have hleft := ih (fun p hp => hbody p (zone_subset_ground _ hp)) hP.2.2.2
      have hrounds : n + 1 - (g body.exit).2 ≤ n + 1 - (f body.exit).2 :=
        Nat.sub_le_sub_left (hbody _ (exit_mem_ground body)) _
      exact Nat.add_le_add (Nat.sub_le_sub_left hentry 1)
        (Nat.add_le_add hleft (Nat.mul_le_mul_right _ hrounds))

theorem left_congr {P : Piece α} (hfg : ∀ p ∈ P.zone, (f p).2 = (g p).2)
    (hP : P.Fits lim) : P.left g = P.left f :=
  Nat.le_antisymm (left_anti (fun p hp => Nat.le_of_eq (hfg p hp)) hP)
    (left_anti (fun p hp => Nat.le_of_eq (hfg p hp).symm) hP)

variable {P : Piece α} {s : Site α} {bs : List (Piece α)}

/-- A transition without resets leaves at most as much to do anywhere. -/
theorem Placed.left_fire_le (hP : Placed lim P) (h : t.resetVisits = []) :
    P.left (f.fire t) ≤ P.left f :=
  left_anti (fun p _ => Tally.visits_le_fire h p) hP.fits

theorem Branched.leftAll_fire_le (hbs : Branched lim s bs) (h : t.resetVisits = []) :
    leftAll bs (f.fire t) ≤ leftAll bs f :=
  leftAll_le (fun _ hb => (hbs.branch hb).left_fire_le h) fun _ _ => Tally.visits_le_fire h _

/-! ## Transitions that are admitted now or later -/

theorem admits_of_inputs (hin : t.inputs = [p]) (hp : 0 < (f p).1) (hrole : t.role ≠ .loopBack) :
    f.Admits lim t := by
  refine ⟨fun q hq => ?_, fun he => absurd he hrole⟩
  rw [hin, List.mem_singleton] at hq
  rwa [hq]

/-- Some moves of the transitions `T` from `f` lead to where `t` is admitted. -/
def Due (lim : PlaceId → Option Nat) (T : List (Transition α)) (f : Tally) (t : Transition α) :
    Prop :=
  ∃ ts g, Tally.Path lim T f ts g ∧ g.Admits lim t

theorem Due.now {T : List (Transition α)} (h : f.Admits lim t) : Due lim T f t := ⟨[], f, .nil f, h⟩

theorem Due.after {T : List (Transition α)} {ts : List (Transition α)}
    (hpath : Tally.Path lim T f ts g) (h : Due lim T g t) : Due lim T f t := by
  obtain ⟨us, f', hpath', ha⟩ := h
  exact ⟨ts ++ us, f', hpath.trans hpath', ha⟩

theorem Due.mono {T T' : List (Transition α)} (h : Due lim T f t) (hT : T ⊆ T') :
    Due lim T' f t := by
  obtain ⟨ts, g, hpath, ha⟩ := h
  exact ⟨ts, g, hpath.mono hT, ha⟩

/-- Where a token has appeared, a transition that puts one there has had its turn. -/
theorem exists_due_output {T ts : List (Transition α)} (hpath : Tally.Path lim T f ts g)
    (hf : (f p).1 = 0) (hg : 0 < (g p).1) : ∃ t ∈ T, p ∈ t.outputs ∧ Due lim T f t := by
  induction hpath with
  | nil => exact absurd hf (Nat.pos_iff_ne_zero.mp hg)
  | @cons f g t ts ht ha hpath ih =>
      by_cases hp : p ∈ t.outputs
      · exact ⟨t, ht, hp, .now ha⟩
      · have hzero : (f.fire t p).1 = 0 := by
          simp [Tally.fire, hf, List.count_eq_zero_of_not_mem hp]
        obtain ⟨u, hu, hp', hdue⟩ := ih hzero hg
        exact ⟨u, hu, hp', hdue.after (.single ht ha)⟩

/-! ## Every move uses up a visit -/

variable [Quantity α]

/-- Only visits in the zone of its piece change when a transition fires. -/
theorem Placed.visits_elsewhere (hP : Placed lim P) (ht : t ∈ P.transitions) (hp : p ∉ P.zone) :
    (f.fire t p).2 = (f p).2 := by
  have hwithin := hP.within ht
  have hin : p ∉ t.inputs := fun hin => hp (hwithin.inputs hin)
  have hreset : p ∉ t.resetVisits := fun hreset => hp (hwithin.resets hreset)
  simp [Tally.fire, hreset, List.count_eq_zero_of_not_mem hin]

/-- A transition of a part leaves the same to do in a part elsewhere. -/
theorem Placed.left_elsewhere {Q : Piece α} (hP : Placed lim P) (hQ : Placed lim Q)
    (ht : t ∈ P.transitions) (hdisj : ∀ p ∈ Q.zone, p ∉ P.zone) :
    Q.left (f.fire t) = Q.left f :=
  left_congr (fun p hp => (hP.visits_elsewhere ht (hdisj p hp)).symm) hQ.fits

/-- A move inside one branch uses up a visit there and none elsewhere. -/
theorem Branched.leftAll_branch {b : Piece α} (hbs : Branched lim s bs) (hb : b ∈ bs)
    (ht : t ∈ b.transitions) (hlt : b.left (f.fire t) < b.left f) :
    (1 - (f.fire t s.entry).2) + leftAll bs (f.fire t) < (1 - (f s.entry).2) + leftAll bs f := by
  have hb' := hbs.branch hb
  have hentry : (f.fire t s.entry).2 = (f s.entry).2 :=
    hb'.visits_elsewhere ht fun hp => hbs.entry_notMem hb (zone_subset_ground _ hp)
  have hall : leftAll bs (f.fire t) < leftAll bs f := by
    refine leftAll_lt (fun c hc => ?_) (fun c hc => ?_) ⟨b, hb, Or.inl hlt⟩
    · by_cases hcb : c = b
      · rw [hcb]
        exact Nat.le_of_lt hlt
      · refine Nat.le_of_eq (hb'.left_elsewhere (hbs.branch hc) ht ?_)
        intro p hp hp'
        exact hbs.notMem_of_ne hb hc hcb (zone_subset_ground _ hp') (zone_subset_ground _ hp)
    · refine Nat.le_of_eq (hb'.visits_elsewhere ht fun hp => ?_).symm
      by_cases hcb : c = b
      · exact hb'.exit_notMem_zone (hcb ▸ hp)
      · exact hbs.notMem_of_ne hb hc hcb (zone_subset_ground _ hp) (exit_mem_ground c)
  omega

theorem Branched.left_parallel (hbs : Branched lim s bs)
    (ih : ∀ b ∈ bs, b.Busy f → t ∈ b.transitions → b.left (f.fire t) < b.left f)
    (hturn : (Piece.parallel s bs).Turn f t) :
    (Piece.parallel s bs).left (f.fire t) < (Piece.parallel s bs).left f := by
  show _ + leftAll bs _ < _ + leftAll bs f
  cases hturn with
  | fork hentry hfresh ht =>
      subst ht
      have hle := hbs.leftAll_fire_le (f := f) (t := s.fork bs) (by simp [Site.fork])
      rw [(hbs.fork hentry hfresh).1, hentry]
      omega
  | branch b hb hentry hlive hbusy hexit ht => exact hbs.leftAll_branch hb ht (ih b hb hbusy ht)
  | join hentry hdone ht =>
      subst ht
      have hreset : (s.join bs).resetVisits = [] := by simp [Site.join]
      obtain ⟨hentry', _, hdone'⟩ := hbs.join hdone
      obtain ⟨b, hb⟩ := List.exists_mem_of_ne_nil bs hbs.nonempty
      have hlt : leftAll bs (f.fire (s.join bs)) < leftAll bs f := by
        refine leftAll_lt (fun c hc => (hbs.branch hc).left_fire_le hreset)
          (fun c _ => Tally.visits_le_fire hreset _) ⟨b, hb, Or.inr ?_⟩
        rw [(hdone' b hb).2, (hdone b hb).2]
        exact ⟨Nat.zero_lt_one, rfl⟩
      rw [hentry']
      omega

theorem Branched.left_gateway {g : Gate α} (hbs : Branched lim s bs)
    (ih : ∀ b ∈ bs, b.Busy f → t ∈ b.transitions → b.left (f.fire t) < b.left f)
    (hturn : (Piece.gateway s g bs).Turn f t) :
    (Piece.gateway s g bs).left (f.fire t) < (Piece.gateway s g bs).left f := by
  show _ + leftAll bs _ < _ + leftAll bs f
  cases hturn with
  | pick b i hi hentry hfresh ht =>
      subst ht
      have hpick := hbs.pick_moves (g := g) (List.mem_of_getElem? hi) i
      have hle := hbs.leftAll_fire_le (f := f) hpick.resets
      rw [hpick.input hentry, hentry]
      omega
  | arm b hb hentry hothers hbusy hexit ht => exact hbs.leftAll_branch hb ht (ih b hb hbusy ht)
  | merge b i hi hentry hothers hdone hexit ht =>
      subst ht
      have hb := List.mem_of_getElem? hi
      have hmerge := hbs.merge_moves (g := g) hb i
      have hentry' := hmerge.elsewhere (f := f) (hbs.ne_entry hb (exit_mem_ground b)).symm
        hbs.entry_ne_exit
      have hlt : leftAll bs (f.fire (s.merge g i b)) < leftAll bs f := by
        refine leftAll_lt (fun c hc => (hbs.branch hc).left_fire_le hmerge.resets)
          (fun c _ => Tally.visits_le_fire hmerge.resets _) ⟨b, hb, Or.inr ?_⟩
        rw [hmerge.input hexit, hexit]
        exact ⟨Nat.zero_lt_one, rfl⟩
      rw [hentry']
      omega

theorem Placed.left_loop {x : α} {n : Nat} (hP : Placed lim (.loop s P x n))
    (ih : P.Busy f → t ∈ P.transitions → P.left (f.fire t) < P.left f)
    (hturn : (Piece.loop s P x n).Turn f t) :
    (Piece.loop s P x n).left (f.fire t) < (Piece.loop s P x n).left f := by
  have hexitground := exit_mem_ground P
  show _ + (_ + _ * _) < (1 - (f s.entry).2) + (P.left f + _ * _)
  cases hturn with
  | enter hentry hfresh ht =>
      subst ht
      have hmoves := hP.enter_moves
      have hle := hP.body.left_fire_le (f := f) hmoves.resets
      have hexit := hmoves.elsewhere (f := f) (hP.ne_entry_of_body hexitground)
        hP.body.entry_ne_exit.symm
      rw [hmoves.input hentry, hentry, hexit]
      omega
  | body v hv hentry hbusy hexit ht =>
      have hlt := ih hbusy ht
      have hentry' := hP.body.fire_elsewhere (f := f) ht hP.entry_notMem_body
      have hexit' := hP.body.visits_elsewhere (f := f) ht hP.body.exit_notMem_zone
      rw [hentry', hexit']
      omega
  | back v hv hentry hdone hexit ht =>
      subst ht
      obtain ⟨_, hexit'⟩ := hP.back_ready hdone hexit
      -- a new round has a whole body to do, which is what one visit of its exit counts for
      have hround : P.left (f.fire (s.back P x)) ≤ P.left fun _ => (0, 0) :=
        left_anti (fun p _ => Nat.zero_le _) hP.body.fits
      have hrounds : n + 1 - v = n + 1 - (v + 1) + 1 := by omega
      rw [hP.body.back_elsewhere hP.entry_notMem_body, hexit', hexit]
      dsimp only
      rw [hrounds, Nat.add_one_mul]
      omega
  | leave v hv hentry hdone hexit ht =>
      subst ht
      have hmoves := hP.leave_moves
      have hle := hP.body.left_fire_le (f := f) hmoves.resets
      have hrounds : n + 1 - v = n + 1 - (v + 1) + 1 := by omega
      rw [hmoves.elsewhere (hP.ne_entry_of_body hexitground).symm hP.entry_ne_exit,
        hmoves.input hexit, hexit]
      dsimp only
      rw [hrounds, Nat.add_one_mul]
      omega

/-- Every move of a piece under way uses up a visit that was left. -/
theorem Placed.left_fire (hP : Placed lim P) (hbusy : P.Busy f) (ht : t ∈ P.transitions)
    (ha : f.Admits lim t) : P.left (f.fire t) < P.left f := by
  induction P using Piece.ind with
  | task s v =>
      obtain rfl : t = s.run := List.mem_singleton.mp ht
      show 1 - _ < 1 - (f s.entry).2
      rw [hP.run_moves.input hbusy, show f s.entry = (1, 0) from hbusy]
      decide
  | sequential s P Q ihP ihQ =>
      show _ + _ < P.left f + Q.left f
      cases hP.turn hbusy ht ha with
      | first hbusy hfresh ht =>
          have hQ := hP.fst.left_elsewhere (f := f) hP.snd ht fun p hp =>
            hP.notMem_fst_zone (zone_subset_ground _ hp)
          have hlt := ihP hP.fst hbusy ht
          omega
      | second hdone hbusy ht =>
          have hP' := hP.snd.left_elsewhere (f := f) hP.fst ht fun p hp hp' =>
            hP.notMem_snd_ground hp (zone_subset_ground _ hp')
          have hlt := ihQ hP.snd hbusy ht
          omega
  | parallel s bs ih =>
      exact hP.parallel.left_parallel (fun b hb => ih b hb (hP.parallel.branch hb))
        (hP.turn hbusy ht ha)
  | gateway s g bs ih =>
      exact hP.gateway.left_gateway (fun b hb => ih b hb (hP.gateway.branch hb))
        (hP.turn hbusy ht ha)
  | loop s body x n ih => exact hP.left_loop (ih hP.body) (hP.turn hbusy ht ha)

/-! ## A piece under way can move -/

theorem admits_leave {x : α} (hexit : 0 < (f P.exit).1) : f.Admits lim (s.leave P x) :=
  admits_of_inputs (p := P.exit) (by simp [Site.leave]) hexit
    (by simp [Site.leave, Wiring.transition])

omit [Quantity α] in
theorem admits_back {x : α} {n : Nat} (hP : Placed lim (.loop s P x n))
    (hexit : 0 < (f P.exit).1) (hlt : (f P.exit).2 < n) : f.Admits lim (s.back P x) := by
  constructor
  · intro p hp
    obtain rfl : p = P.exit := by simpa [Site.back] using hp
    exact hexit
  · intro _ p hp k hk
    obtain rfl : p = P.exit := by simpa [Site.back] using hp
    obtain rfl : n = k := Option.some.inj (hP.fits.2.1.symm.trans hk)
    exact hlt

theorem admits_merge {g : Gate α} {b : Piece α} {i : Nat} (hexit : 0 < (f b.exit).1) :
    f.Admits lim (s.merge g i b) :=
  admits_of_inputs (p := b.exit) (by simp [Site.merge]) hexit
    (by simp [Site.merge, Wiring.transition])

theorem admits_pick {g : Gate α} {b : Piece α} {i : Nat} (hentry : 0 < (f s.entry).1) :
    f.Admits lim (s.pick g i b) :=
  admits_of_inputs (p := s.entry) (by simp [Site.pick]) hentry
    (by simp [Site.pick, Wiring.transition])

theorem admits_enter (hentry : 0 < (f s.entry).1) : f.Admits lim (s.enter P) :=
  admits_of_inputs (p := s.entry) (by simp [Site.enter]) hentry
    (by simp [Site.enter, Wiring.transition])

theorem admits_fork (hentry : 0 < (f s.entry).1) : f.Admits lim (s.fork bs) :=
  admits_of_inputs (p := s.entry) (by simp [Site.fork]) hentry
    (by simp [Site.fork, Wiring.transition])

/-- A piece under way can move. -/
theorem Placed.exists_admitted (hP : Placed lim P) (hbusy : P.Busy f) :
    ∃ t ∈ P.transitions, f.Admits lim t := by
  induction P using Piece.ind with
  | task s v =>
      refine ⟨s.run, List.mem_cons_self, ?_⟩
      exact admits_of_inputs (p := s.entry) (by simp [Site.run]) (pos_of_eq hbusy)
        (by simp [Site.run, Wiring.transition])
  | sequential s P Q ihP ihQ =>
      rcases hbusy with ⟨hbusy, _⟩ | ⟨_, hbusy⟩
      · obtain ⟨t, ht, ha⟩ := ihP hP.fst hbusy
        exact ⟨t, List.mem_append_left _ ht, ha⟩
      · obtain ⟨t, ht, ha⟩ := ihQ hP.snd hbusy
        exact ⟨t, List.mem_append_right _ ht, ha⟩
  | parallel s bs ih =>
      rcases busy_parallel.mp hbusy with ⟨hentry, _⟩ | ⟨_, hlive⟩
      · exact ⟨s.fork bs, List.mem_cons_self, admits_fork (pos_of_eq hentry)⟩
      by_cases hmove : ∃ b ∈ bs, b.Busy f
      · obtain ⟨b, hb, hbusy⟩ := hmove
        obtain ⟨t, ht, ha⟩ := ih b hb (hP.parallel.branch hb) hbusy
        refine ⟨t, List.mem_cons_of_mem _ (List.mem_append_left _ ?_), ha⟩
        exact mem_transitionsAll.mpr ⟨b, hb, ht⟩
      -- with no branch under way, all of them wait for the join
      · refine ⟨s.join bs, List.mem_cons_of_mem _ (by simp), ?_, ?_⟩
        · intro p hp
          have hp : p ∈ bs.map exit := by simpa [Site.join] using hp
          obtain ⟨b, hb, rfl⟩ := List.mem_map.mp hp
          rcases hlive b hb with ⟨hbusy, _⟩ | ⟨_, hexit⟩
          · exact absurd ⟨b, hb, hbusy⟩ hmove
          · exact pos_of_eq hexit
        · intro he
          exact absurd he (by simp [Site.join, Wiring.transition])
  | gateway s g bs ih =>
      rcases hP.gateway.busy_gateway.mp hbusy with ⟨hentry, _⟩ | ⟨_, b, hb, hlive, _⟩
      · obtain ⟨b, hb⟩ := List.exists_mem_of_ne_nil bs hP.gateway.nonempty
        obtain ⟨i, hi⟩ := List.mem_iff_getElem?.mp hb
        exact ⟨s.pick g (0 + i) b, mem_arms.mpr ⟨i, b, hi, Or.inl rfl⟩,
          admits_pick (pos_of_eq hentry)⟩
      · obtain ⟨i, hi⟩ := List.mem_iff_getElem?.mp hb
        rcases hlive with ⟨hbusy, _⟩ | ⟨_, hexit⟩
        · obtain ⟨t, ht, ha⟩ := ih b hb (hP.gateway.branch hb) hbusy
          exact ⟨t, mem_arms.mpr ⟨i, b, hi, Or.inr (Or.inl ht)⟩, ha⟩
        · exact ⟨s.merge g (0 + i) b, mem_arms.mpr ⟨i, b, hi, Or.inr (Or.inr rfl)⟩,
            admits_merge (pos_of_eq hexit)⟩
  | loop s body x n ih =>
      rcases hbusy with ⟨hentry, _⟩ | ⟨_, v, _, ⟨hbusy, _⟩ | ⟨_, hexit⟩⟩
      · exact ⟨s.enter body, List.mem_cons_self, admits_enter (pos_of_eq hentry)⟩
      · obtain ⟨t, ht, ha⟩ := ih hP.body hbusy
        exact ⟨t, List.mem_cons_of_mem _ (List.mem_append_left _ ht), ha⟩
      · exact ⟨s.leave body x, by simp [transitions], admits_leave (pos_of_eq hexit)⟩

/-- Moves of a piece change nothing outside its ground. -/
theorem Placed.path_elsewhere {ts : List (Transition α)} {f' : Tally} (hP : Placed lim P)
    (h : Tally.Path lim P.transitions f ts f') (hp : p ∉ P.ground) : f' p = f p :=
  h.invariant (I := fun g => g p = f p) rfl fun _ hg _ ht _ => (hP.fire_elsewhere ht hp).trans hg

/-- A piece under way can be brought to its end. -/
theorem Placed.exists_finish (hP : Placed lim P) (hbusy : P.Busy f) :
    ∃ ts f', Tally.Path lim P.transitions f ts f' ∧ P.Done f' ∧
      f' P.exit = ((f P.exit).1 + 1, (f P.exit).2) := by
  induction hn : P.left f using Nat.strong_induction_on generalizing f with
  | _ n ih =>
      obtain ⟨t, ht, ha⟩ := hP.exists_admitted hbusy
      have hlt := hP.left_fire hbusy ht ha
      rcases hP.step hbusy ht ha with ⟨hbusy', hstay⟩ | ⟨hdone, hleft⟩
      · obtain ⟨ts, f', hpath, hdone, hexit⟩ := ih _ (hn ▸ hlt) hbusy' rfl
        exact ⟨t :: ts, f', .cons ht ha hpath, hdone, by rw [hexit, hstay]⟩
      · exact ⟨[t], f.fire t, .single ht ha, hdone, hleft⟩

/-! ## Every transition gets its turn -/

theorem Placed.exists_finish_of_ready (hP : Placed lim P) (hready : P.Ready f)
    (hexit : f P.exit = (0, 0)) :
    ∃ ts f', Tally.Path lim P.transitions f ts f' ∧ P.Done f' ∧ f' P.exit = (1, 0) := by
  obtain ⟨ts, f', hpath, hdone, hexit'⟩ := hP.exists_finish (hP.busy_of_ready hready)
  rw [hexit] at hexit'
  exact ⟨ts, f', hpath, hdone, hexit'⟩

/-- Only the join puts a token on the exit of a parallel block. -/
theorem Branched.eq_join (hbs : Branched lim s bs)
    (ht : t ∈ s.fork bs :: (transitionsAll bs ++ [s.join bs])) (hexit : s.exit ∈ t.outputs) :
    t = s.join bs := by
  rw [List.mem_cons, List.mem_append, List.mem_singleton, mem_transitionsAll] at ht
  rcases ht with rfl | ⟨b, hb, ht⟩ | ht
  · obtain ⟨b, hb, he⟩ : ∃ b ∈ bs, b.entry = s.exit := by simpa [Site.fork] using hexit
    exact absurd he (hbs.ne_exit hb (hbs.branch hb).entry_mem_ground)
  · exact absurd (((hbs.branch hb).within ht).outputs hexit) (hbs.exit_notMem hb)
  · exact ht

theorem Branched.due_parallel (hbs : Branched lim s bs) (hP : Placed lim (.parallel s bs))
    (hready : (Piece.parallel s bs).Ready f) (hexit : f s.exit = (0, 0))
    (ih : ∀ b ∈ bs, b.Ready (f.fire (s.fork bs)) → f.fire (s.fork bs) b.exit = (0, 0) →
      t ∈ b.transitions → Due lim b.transitions (f.fire (s.fork bs)) t)
    (ht : t ∈ s.fork bs :: (transitionsAll bs ++ [s.join bs])) :
    Due lim (Piece.parallel s bs).transitions f t := by
  have hfork : f.Admits lim (s.fork bs) := admits_fork (pos_of_eq (p := s.entry) hready.1)
  have hpath := Tally.Path.single (T := (Piece.parallel s bs).transitions) List.mem_cons_self hfork
  rcases List.mem_cons.mp ht with rfl | ht'
  · exact .now hfork
  rcases List.mem_append.mp ht' with ht' | ht'
  · obtain ⟨b, hb, ht'⟩ := mem_transitionsAll.mp ht'
    obtain ⟨_, _, hbranches⟩ := hbs.fork hready.1 (hbs.ready hready.2)
    refine ((ih b hb (hbranches b hb).1 (hbranches b hb).2 ht').mono fun u hu => ?_).after hpath
    exact List.mem_cons_of_mem _ (List.mem_append_left _ (mem_transitionsAll.mpr ⟨b, hb, hu⟩))
  -- the token that appears on the exit in the end can only come from the join
  · obtain rfl : t = s.join bs := List.mem_singleton.mp ht'
    obtain ⟨ts, f', hfinish, _, hexit'⟩ := hP.exists_finish_of_ready hready hexit
    obtain ⟨u, hu, hout, hdue⟩ := exists_due_output (p := s.exit) hfinish (by rw [hexit])
      (pos_of_eq (p := s.exit) hexit')
    rwa [hbs.eq_join hu hout] at hdue

theorem Branched.due_gateway {g : Gate α} (hbs : Branched lim s bs)
    (hready : (Piece.gateway s g bs).Ready f)
    (ih : ∀ b ∈ bs, ∀ {h : Tally}, b.Ready h → h b.exit = (0, 0) →
      t ∈ b.transitions → Due lim b.transitions h t)
    (ht : t ∈ arms s g 0 bs) : Due lim (Piece.gateway s g bs).transitions f t := by
  obtain ⟨i, b, hi, ht⟩ := mem_arms.mp ht
  have hb := List.mem_of_getElem? hi
  have harm : ∀ u ∈ b.transitions, u ∈ arms s g 0 bs := fun u hu =>
    mem_arms.mpr ⟨i, b, hi, Or.inr (Or.inl hu)⟩
  have hpick : f.Admits lim (s.pick g (0 + i) b) :=
    admits_pick (pos_of_eq (p := s.entry) hready.1)
  have hpath := Tally.Path.single (T := arms s g 0 bs) (mem_arms.mpr ⟨i, b, hi, Or.inl rfl⟩) hpick
  obtain ⟨hready', hexit'⟩ := (hbs.branch hb).ready_of_moves (hbs.pick_moves (g := g) hb (0 + i))
    (hbs.entry_notMem hb) (untouched_branch (hbs.ready hready.2) hb)
  rcases ht with rfl | ht | rfl
  · exact .now hpick
  · exact ((ih b hb hready' hexit' ht).mono harm).after hpath
  · obtain ⟨ts, f', hfinish, _, hexit⟩ := (hbs.branch hb).exists_finish_of_ready hready' hexit'
    exact Due.after (hpath.trans (hfinish.mono harm)) (.now (admits_merge (pos_of_eq hexit)))

theorem Placed.due_loop {x : α} {n : Nat} (hP : Placed lim (.loop s P x n))
    (hready : (Piece.loop s P x n).Ready f)
    (ih : ∀ {h : Tally}, P.Ready h → h P.exit = (0, 0) → t ∈ P.transitions →
      Due lim P.transitions h t)
    (ht : t ∈ s.enter P :: (P.transitions ++ [s.back P x, s.leave P x])) :
    Due lim (Piece.loop s P x n).transitions f t := by
  obtain ⟨hentry, hfresh⟩ := hP.ready_loop hready
  have hbody : P.transitions ⊆ (Piece.loop s P x n).transitions := fun u hu =>
    List.mem_cons_of_mem _ (List.mem_append_left _ hu)
  have henter : f.Admits lim (s.enter P) := admits_enter (pos_of_eq hentry)
  have hpath := Tally.Path.single (T := (Piece.loop s P x n).transitions) List.mem_cons_self henter
  obtain ⟨hready', hexit'⟩ := hP.body.ready_of_moves hP.enter_moves hP.entry_notMem_body hfresh
  obtain ⟨ts, f', hfinish, _, hexit⟩ := hP.body.exists_finish_of_ready hready' hexit'
  have hround := hpath.trans (hfinish.mono hbody)
  simp only [List.mem_cons, List.mem_append, List.not_mem_nil, or_false] at ht
  rcases ht with rfl | ht | rfl | rfl
  · exact .now henter
  · exact ((ih hready' hexit' ht).mono hbody).after hpath
  · exact Due.after hround (.now (admits_back hP (pos_of_eq hexit)
      (hexit ▸ hP.fits.2.2.1)))
  · exact Due.after hround (.now (admits_leave (pos_of_eq hexit)))

/-- Each transition of a ready piece gets its turn on some way through it. -/
theorem Placed.exists_turn (hP : Placed lim P) (hready : P.Ready f) (hexit : f P.exit = (0, 0))
    (ht : t ∈ P.transitions) : Due lim P.transitions f t := by
  induction P using Piece.ind generalizing f with
  | task s v =>
      obtain rfl : t = s.run := List.mem_singleton.mp ht
      exact .now (admits_of_inputs (p := s.entry) (by simp [Site.run])
        (pos_of_eq (p := s.entry) hready.1) (by simp [Site.run, Wiring.transition]))
  | sequential s P Q ihP ihQ =>
      obtain ⟨hfirst, hfresh⟩ := hP.ready_sequential hready
      have hjoint : f P.exit = (0, 0) := hP.snd_entry ▸ hfresh _ hP.snd.entry_mem_zone
      rcases List.mem_append.mp ht with ht | ht
      · exact (ihP hP.fst hfirst hjoint ht).mono (List.subset_append_left _ _)
      · obtain ⟨ts, f', hfinish, _, hexit'⟩ := hP.fst.exists_finish_of_ready hfirst hjoint
        have hQ : ∀ p ∈ Q.ground, p ≠ Q.entry → f' p = f p := fun p hp hne =>
          hP.fst.path_elsewhere hfinish (hP.notMem_fst_ground hp hne)
        have hsecond : Q.Ready f' := by
          refine ⟨by rw [hP.snd_entry, hexit'], ?_⟩
          intro p hp hne
          rw [hQ p (zone_subset_ground _ hp) hne, hfresh p hp]
        have hend : f' Q.exit = (0, 0) := by
          rw [hQ _ (exit_mem_ground Q) hP.snd.entry_ne_exit.symm, hP.snd_exit]
          exact hexit
        exact ((ihQ hP.snd hsecond hend ht).mono (List.subset_append_right _ _)).after
          (hfinish.mono (List.subset_append_left _ _))
  | parallel s bs ih =>
      exact hP.parallel.due_parallel hP hready hexit
        (fun b hb hready hexit => ih b hb (hP.parallel.branch hb) hready hexit) ht
  | gateway s g bs ih =>
      exact hP.gateway.due_gateway hready (fun b hb => ih b hb (hP.gateway.branch hb)) ht
  | loop s body x n ih => exact hP.due_loop hready (ih hP.body) ht

end Piece

end RegionNet
