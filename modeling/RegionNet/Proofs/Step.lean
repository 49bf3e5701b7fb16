import RegionNet.Proofs.Stage

/-!
# Steps

What one move does to the stage of a piece. The transitions of a piece have their tokens only while
the piece is under way; each of them then keeps it under way or ends it, in which case a token
appears on the exit (`Placed.step`). Nothing outside the ground of the piece changes.
-/

namespace RegionNet

variable {α : Type} {lim : PlaceId → Option Nat} {f : Tally} {t : Transition α} {p q r : PlaceId}

/-! ## Effects on single places -/

theorem Tally.fire_input {n v : Nat} (hf : f p = (n + 1, v)) (hin : t.inputs.count p = 1)
    (hout : p ∉ t.outputs) (hreset : p ∉ t.resetVisits) : f.fire t p = (n, v + 1) := by
  simp [fire, hf, hin, List.count_eq_zero_of_not_mem hout, hreset]

theorem Tally.fire_output (hin : p ∉ t.inputs) (hout : t.outputs.count p = 1)
    (hreset : p ∉ t.resetVisits) : f.fire t p = ((f p).1 + 1, (f p).2) := by
  simp [fire, hout, List.count_eq_zero_of_not_mem hin, hreset]

/-- A transition that moves a token from one place to another and forgets nothing. -/
structure Moves (t : Transition α) (p q : PlaceId) : Prop where
  inputs : t.inputs = [p]
  outputs : t.outputs = [q]
  resets : t.resetVisits = []
  ne : p ≠ q

namespace Moves

theorem input {n v : Nat} (h : Moves t p q) (hf : f p = (n + 1, v)) : f.fire t p = (n, v + 1) :=
  Tally.fire_input hf (by simp [h.inputs]) (by simpa [h.outputs] using h.ne) (by simp [h.resets])

theorem output (h : Moves t p q) : f.fire t q = ((f q).1 + 1, (f q).2) :=
  Tally.fire_output (by simpa [h.inputs] using h.ne.symm) (by simp [h.outputs]) (by simp [h.resets])

theorem elsewhere (h : Moves t p q) (hp : r ≠ p) (hq : r ≠ q) : f.fire t r = f r :=
  Tally.fire_of_notMem (by simpa [h.inputs] using hp) (by simpa [h.outputs] using hq)
    (by simp [h.resets])

theorem marked (h : Moves t p q) (ha : f.Admits lim t) : (f p).1 ≠ 0 :=
  Nat.pos_iff_ne_zero.mp (ha.1 p (by simp [h.inputs]))

end Moves

namespace Piece

variable {P : Piece α} {s : Site α} {bs : List (Piece α)}

/-! ## Stages after a step -/

/-- What a step of a piece under way leads to. -/
def Moved (P : Piece α) (f f' : Tally) : Prop :=
  P.Busy f' ∧ f' P.exit = f P.exit ∨ P.Done f' ∧ f' P.exit = ((f P.exit).1 + 1, (f P.exit).2)

theorem Moved.live {f' : Tally} (h : P.Moved f f') (hexit : f P.exit = (0, 0)) : P.Live f' := by
  rw [Moved, hexit] at h
  exact h

/-- A token put on its entry makes an untouched piece ready. -/
theorem Placed.ready_of_moves (hP : Placed lim P) (h : Moves t p P.entry) (hp : p ∉ P.ground)
    (hfresh : f.Untouched P.ground) : P.Ready (f.fire t) ∧ f.fire t P.exit = (0, 0) := by
  have hrest : ∀ q ∈ P.ground, q ≠ P.entry → f.fire t q = (0, 0) := fun q hq hne => by
    rw [h.elsewhere (fun he => hp (he ▸ hq)) hne, hfresh q hq]
  refine ⟨⟨?_, fun q hq => hrest q (zone_subset_ground _ hq)⟩, ?_⟩
  · rw [h.output, hfresh _ hP.entry_mem_ground]
  · exact hrest _ (exit_mem_ground P) hP.entry_ne_exit.symm

/-- Places of different branches are different places. -/
theorem Branched.map_nodup (h : Branched lim s bs) {at' : Piece α → PlaceId}
    (hat : ∀ b ∈ bs, at' b ∈ b.ground) : (bs.map at').Nodup := by
  have hzones := h.zones_nodup
  rw [zones_eq_flatMap, List.nodup_flatMap] at hzones
  rw [List.Nodup, List.pairwise_map]
  refine hzones.2.imp_of_mem fun {b c} hb hc hdisj he => ?_
  exact hdisj (hat b hb) (he ▸ hat c hc)

/-- Looping back makes the body ready again. -/
theorem Placed.back_ready {x : α} {n v : Nat} (h : Placed lim (.loop s P x n)) (hdone : P.Done f)
    (hexit : f P.exit = (1, v)) :
    P.Ready (f.fire (s.back P x)) ∧ f.fire (s.back P x) P.exit = (0, v + 1) := by
  have hin : (s.back P x).inputs = [P.exit] := by simp [Site.back]
  have hout : (s.back P x).outputs = [P.entry] := by simp [Site.back]
  have hreset : ∀ p, p ∈ (s.back P x).resetVisits ↔ p ∈ P.zone := fun p =>
    mem_back_resetVisits h.body
  have hidle := h.body.idle_of_done hdone
  -- tokens were gone from the zone, and its visits are forgotten
  have hzone : ∀ p ∈ P.zone, f.fire (s.back P x) p = ([P.entry].count p, 0) := by
    intro p hp
    have hne : p ∉ [P.exit] := fun he => h.body.ne_exit hp (List.mem_singleton.mp he)
    simp only [Tally.fire, hin, hout, List.count_eq_zero_of_not_mem hne, hidle p hp, hreset p, hp,
      if_true, Nat.zero_add, Nat.sub_zero]
  refine ⟨⟨?_, fun p hp hne => ?_⟩, ?_⟩
  · rw [hzone _ h.body.entry_mem_zone, List.count_singleton_self]
  · rw [hzone p hp, List.count_eq_zero_of_not_mem (fun he => hne (List.mem_singleton.mp he))]
  · refine Tally.fire_input hexit (by simp [hin]) ?_ ?_
    · simpa [hout] using h.body.entry_ne_exit.symm
    · intro he
      exact h.body.exit_notMem_zone ((hreset _).mp he)

theorem Placed.back_elsewhere {x : α} (hP : Placed lim P) (hp : p ∉ P.ground) :
    f.fire (s.back P x) p = f p := by
  refine Tally.fire_of_notMem ?_ ?_ fun he => ?_
  · simpa [Site.back] using fun he : p = P.exit => hp (he ▸ exit_mem_ground P)
  · simpa [Site.back] using fun he : p = P.entry => hp (he ▸ hP.entry_mem_ground)
  · exact hp (zone_subset_ground _ ((mem_back_resetVisits hP).mp he))

theorem Placed.leave_moves {x : α} {n : Nat} [Quantity α] (h : Placed lim (.loop s P x n)) :
    Moves (s.leave P x) P.exit s.exit :=
  ⟨by simp [Site.leave], by simp [Site.leave], by simp [Site.leave],
    h.ne_exit_of_body (exit_mem_ground P)⟩

variable [Quantity α]

theorem Placed.run_moves {v : List α} (h : Placed lim (.task s v)) : Moves s.run s.entry s.exit :=
  ⟨by simp [Site.run], by simp [Site.run], by simp [Site.run], h.entry_ne_exit⟩

theorem Branched.pick_moves {g : Gate α} {b : Piece α} (h : Branched lim s bs) (hb : b ∈ bs)
    (i : Nat) : Moves (s.pick g i b) s.entry b.entry :=
  ⟨by simp [Site.pick], by simp [Site.pick], by simp [Site.pick],
    (h.ne_entry hb (h.branch hb).entry_mem_ground).symm⟩

theorem Branched.merge_moves {g : Gate α} {b : Piece α} (h : Branched lim s bs) (hb : b ∈ bs)
    (i : Nat) : Moves (s.merge g i b) b.exit s.exit :=
  ⟨by simp [Site.merge], by simp [Site.merge], by simp [Site.merge],
    h.ne_exit hb (exit_mem_ground b)⟩

theorem Placed.enter_moves {x : α} {n : Nat} (h : Placed lim (.loop s P x n)) :
    Moves (s.enter P) s.entry P.entry :=
  ⟨by simp [Site.enter], by simp [Site.enter], by simp [Site.enter],
    (h.ne_entry_of_body h.body.entry_mem_ground).symm⟩

/-- A transition changes nothing outside the ground of its piece. -/
theorem Placed.fire_elsewhere (hP : Placed lim P) (ht : t ∈ P.transitions) (hp : p ∉ P.ground) :
    f.fire t p = f p := by
  have hwithin := hP.within ht
  exact Tally.fire_of_notMem (fun hin => hp (zone_subset_ground _ (hwithin.inputs hin)))
    (fun hout => hp (hwithin.outputs hout))
    (fun hreset => hp (zone_subset_ground _ (hwithin.resets hreset)))

/-- Without tokens in its zone, no transition of a piece is admitted. -/
theorem Placed.not_admits (hP : Placed lim P) (hidle : ∀ p ∈ P.zone, (f p).1 = 0)
    (ht : t ∈ P.transitions) : ¬ f.Admits lim t := by
  rintro ⟨htokens, _⟩
  have hwithin := hP.within ht
  obtain ⟨p, hp⟩ := List.exists_mem_of_ne_nil _ hwithin.takes
  have hzero := hidle p (hwithin.inputs hp)
  have hpos := htokens p hp
  omega

theorem Placed.not_admits_of_untouched (hP : Placed lim P) (h : f.Untouched P.ground)
    (ht : t ∈ P.transitions) : ¬ f.Admits lim t :=
  hP.not_admits (fun p hp => by rw [h p (zone_subset_ground _ hp)]) ht

theorem Placed.not_admits_of_done (hP : Placed lim P) (h : P.Done f) (ht : t ∈ P.transitions) :
    ¬ f.Admits lim t := hP.not_admits (hP.idle_of_done h) ht

/-! ## Forks and joins -/

/-- A fork makes all branches ready. -/
theorem Branched.fork (h : Branched lim s bs) (hentry : f s.entry = (1, 0))
    (hfresh : f.Untouched (zones bs)) :
    f.fire (s.fork bs) s.entry = (0, 1) ∧ f.fire (s.fork bs) s.exit = f s.exit ∧
      ∀ b ∈ bs, b.Ready (f.fire (s.fork bs)) ∧ f.fire (s.fork bs) b.exit = (0, 0) := by
  have hin : (s.fork bs).inputs = [s.entry] := by simp [Site.fork]
  have hout : (s.fork bs).outputs = bs.map entry := by simp [Site.fork]
  have hreset : (s.fork bs).resetVisits = [] := by simp [Site.fork]
  have hmem : ∀ b ∈ bs, b.entry ∈ b.ground := fun b hb => (h.branch hb).entry_mem_ground
  have hnotout : ∀ {p}, (∀ b ∈ bs, p ≠ b.entry) → p ∉ (s.fork bs).outputs := by
    intro p hp he
    rw [hout] at he
    obtain ⟨b, hb, he⟩ := List.mem_map.mp he
    exact hp b hb he.symm
  refine ⟨?_, ?_, fun b hb => ?_⟩
  · refine Tally.fire_input hentry (by simp [hin]) (hnotout fun b hb => ?_) (by simp [hreset])
    exact (h.ne_entry hb (hmem b hb)).symm
  · refine Tally.fire_of_notMem ?_ (hnotout fun b hb => ?_) (by simp [hreset])
    · simpa [hin] using h.entry_ne_exit.symm
    · exact (h.ne_exit hb (hmem b hb)).symm
  have hne : ∀ p ∈ b.ground, p ∉ (s.fork bs).inputs := by
    intro p hp he
    rw [hin, List.mem_singleton] at he
    exact h.ne_entry hb hp he
  -- only the entry of a branch is an output of the fork
  have hrest : ∀ p ∈ b.ground, p ≠ b.entry → f.fire (s.fork bs) p = (0, 0) := by
    intro p hp hpe
    rw [Tally.fire_of_notMem (hne p hp) (hnotout fun c hc => ?_) (by simp [hreset])]
    · exact untouched_branch hfresh hb p hp
    by_cases hcb : c = b
    · rwa [hcb]
    · exact (h.ne_of_ne hb hc hcb (hmem c hc) hp).symm
  refine ⟨⟨?_, fun p hp => hrest p (zone_subset_ground _ hp)⟩, ?_⟩
  · have hcount : (s.fork bs).outputs.count b.entry = 1 := by
      rw [hout]
      exact List.count_eq_one_of_mem (h.map_nodup hmem) (List.mem_map_of_mem hb)
    rw [Tally.fire_output (hne _ (hmem b hb)) hcount (by simp [hreset]),
      untouched_branch hfresh hb _ (hmem b hb)]
  · exact hrest _ (exit_mem_ground b) (h.branch hb).entry_ne_exit.symm

/-- A join leaves all branches. -/
theorem Branched.join (h : Branched lim s bs) (hdone : ∀ b ∈ bs, b.Done f ∧ f b.exit = (1, 0)) :
    f.fire (s.join bs) s.entry = f s.entry ∧
      f.fire (s.join bs) s.exit = ((f s.exit).1 + 1, (f s.exit).2) ∧
      ∀ b ∈ bs, b.Done (f.fire (s.join bs)) ∧ f.fire (s.join bs) b.exit = (0, 1) := by
  have hin : (s.join bs).inputs = bs.map exit := by simp [Site.join]
  have hout : (s.join bs).outputs = [s.exit] := by simp [Site.join]
  have hreset : (s.join bs).resetVisits = [] := by simp [Site.join]
  have hnotin : ∀ {p}, (∀ b ∈ bs, p ≠ b.exit) → p ∉ (s.join bs).inputs := by
    intro p hp he
    rw [hin] at he
    obtain ⟨b, hb, he⟩ := List.mem_map.mp he
    exact hp b hb he.symm
  refine ⟨?_, ?_, fun b hb => ⟨?_, ?_⟩⟩
  · refine Tally.fire_of_notMem (hnotin fun b hb => ?_) ?_ (by simp [hreset])
    · exact (h.ne_entry hb (exit_mem_ground b)).symm
    · simpa [hout] using h.entry_ne_exit
  · refine Tally.fire_output (hnotin fun b hb => ?_) (by simp [hout]) (by simp [hreset])
    exact (h.ne_exit hb (exit_mem_ground b)).symm
  · refine (h.branch hb).done_congr (fun p hp => ?_) (hdone b hb).1
    refine Tally.fire_of_notMem (hnotin fun c hc => ?_) ?_ (by simp [hreset])
    · by_cases hcb : c = b
      · rw [hcb]
        exact (h.branch hb).ne_exit hp
      · exact (h.ne_of_ne hb hc hcb (exit_mem_ground c) (zone_subset_ground _ hp)).symm
    · simpa [hout] using h.ne_exit hb (zone_subset_ground _ hp)
  · have hcount : (s.join bs).inputs.count b.exit = 1 := by
      rw [hin]
      exact List.count_eq_one_of_mem (h.map_nodup fun c _ => exit_mem_ground c)
        (List.mem_map_of_mem hb)
    refine Tally.fire_input (hdone b hb).2 hcount ?_ (by simp [hreset])
    simpa [hout] using h.ne_exit hb (exit_mem_ground b)

/-- A merge leaves its branch. -/
theorem Branched.merge {g : Gate α} {b : Piece α} (h : Branched lim s bs) (hb : b ∈ bs) (i : Nat)
    (hdone : b.Done f) (hexit : f b.exit = (1, 0)) :
    f.fire (s.merge g i b) s.entry = f s.entry ∧
      f.fire (s.merge g i b) s.exit = ((f s.exit).1 + 1, (f s.exit).2) ∧
      b.Done (f.fire (s.merge g i b)) ∧ f.fire (s.merge g i b) b.exit = (0, 1) ∧
      ∀ c ∈ bs, c ≠ b → ∀ p ∈ c.ground, f.fire (s.merge g i b) p = f p := by
  have hmerge := h.merge_moves (g := g) hb i
  have hbexit := exit_mem_ground b
  refine ⟨?_, hmerge.output, ?_, hmerge.input hexit, fun c hc hne p hp => ?_⟩
  · exact hmerge.elsewhere (h.ne_entry hb hbexit).symm h.entry_ne_exit
  · exact (h.branch hb).done_congr (fun p hp => hmerge.elsewhere ((h.branch hb).ne_exit hp)
      (h.ne_exit hb (zone_subset_ground _ hp))) hdone
  · exact hmerge.elsewhere (h.ne_of_ne hb hc hne hp hbexit) (h.ne_exit hc hp)

/-- The exit of a loop ends it. -/
theorem Placed.leave {x : α} {n v : Nat} (h : Placed lim (.loop s P x n)) (hv : v ≤ n)
    (hentry : f s.entry = (0, 1)) (hdone : P.Done f) (hexit : f P.exit = (1, v)) :
    (Piece.loop s P x n).Done (f.fire (s.leave P x)) ∧
      f.fire (s.leave P x) s.exit = ((f s.exit).1 + 1, (f s.exit).2) := by
  have hmoves := h.leave_moves
  refine ⟨⟨?_, ?_, v, hv, hmoves.input hexit⟩, hmoves.output⟩
  · rw [hmoves.elsewhere (h.ne_entry_of_body (exit_mem_ground P)).symm h.entry_ne_exit, hentry]
  · exact h.body.done_congr (fun p hp => hmoves.elsewhere (h.body.ne_exit hp)
      (h.ne_exit_of_body (zone_subset_ground _ hp))) hdone

/-! ## Whose turn it is -/

/-- How a transition can be admitted in a piece under way. -/
inductive Turn (f : Tally) (t : Transition α) : Piece α → Prop where
  | run {s : Site α} {v : List α} (entry : f s.entry = (1, 0)) (ht : t = s.run) :
      Turn f t (.task s v)
  | first {s : Site α} {P Q : Piece α} (busy : P.Busy f) (fresh : f.Untouched Q.zone)
      (ht : t ∈ P.transitions) : Turn f t (.sequential s P Q)
  | second {s : Site α} {P Q : Piece α} (done : P.Done f) (busy : Q.Busy f)
      (ht : t ∈ Q.transitions) : Turn f t (.sequential s P Q)
  | fork {s : Site α} {bs : List (Piece α)} (entry : f s.entry = (1, 0))
      (fresh : f.Untouched (zones bs)) (ht : t = s.fork bs) : Turn f t (.parallel s bs)
  | branch {s : Site α} {bs : List (Piece α)} (b : Piece α) (hb : b ∈ bs)
      (entry : f s.entry = (0, 1)) (live : ∀ c ∈ bs, c.Live f) (busy : b.Busy f)
      (exit : f b.exit = (0, 0)) (ht : t ∈ b.transitions) : Turn f t (.parallel s bs)
  | join {s : Site α} {bs : List (Piece α)} (entry : f s.entry = (0, 1))
      (done : ∀ b ∈ bs, b.Done f ∧ f b.exit = (1, 0)) (ht : t = s.join bs) :
      Turn f t (.parallel s bs)
  | pick {s : Site α} {g : Gate α} {bs : List (Piece α)} (b : Piece α) (i : Nat)
      (hb : bs[i]? = some b) (entry : f s.entry = (1, 0)) (fresh : f.Untouched (zones bs))
      (ht : t = s.pick g i b) : Turn f t (.gateway s g bs)
  | arm {s : Site α} {g : Gate α} {bs : List (Piece α)} (b : Piece α) (hb : b ∈ bs)
      (entry : f s.entry = (0, 1)) (others : ∀ c ∈ bs, c ≠ b → f.Untouched c.ground)
      (busy : b.Busy f) (exit : f b.exit = (0, 0)) (ht : t ∈ b.transitions) :
      Turn f t (.gateway s g bs)
  | merge {s : Site α} {g : Gate α} {bs : List (Piece α)} (b : Piece α) (i : Nat)
      (hb : bs[i]? = some b) (entry : f s.entry = (0, 1))
      (others : ∀ c ∈ bs, c ≠ b → f.Untouched c.ground) (done : b.Done f)
      (exit : f b.exit = (1, 0)) (ht : t = s.merge g i b) : Turn f t (.gateway s g bs)
  | enter {s : Site α} {P : Piece α} {x : α} {n : Nat} (entry : f s.entry = (1, 0))
      (fresh : f.Untouched P.ground) (ht : t = s.enter P) : Turn f t (.loop s P x n)
  | body {s : Site α} {P : Piece α} {x : α} {n : Nat} (v : Nat) (hv : v ≤ n)
      (entry : f s.entry = (0, 1)) (busy : P.Busy f) (exit : f P.exit = (0, v))
      (ht : t ∈ P.transitions) : Turn f t (.loop s P x n)
  | back {s : Site α} {P : Piece α} {x : α} {n : Nat} (v : Nat) (hv : v < n)
      (entry : f s.entry = (0, 1)) (done : P.Done f) (exit : f P.exit = (1, v))
      (ht : t = s.back P x) : Turn f t (.loop s P x n)
  | leave {s : Site α} {P : Piece α} {x : α} {n : Nat} (v : Nat) (hv : v ≤ n)
      (entry : f s.entry = (0, 1)) (done : P.Done f) (exit : f P.exit = (1, v))
      (ht : t = s.leave P x) : Turn f t (.loop s P x n)

theorem pos_of_eq {n : Nat} (h : f p = (1, n)) : 0 < (f p).1 := by
  rw [h]
  exact Nat.zero_lt_one

theorem not_pos_of_eq {n : Nat} (h : f p = (0, n)) : ¬ 0 < (f p).1 := by
  rw [h]
  exact Nat.lt_irrefl 0

theorem Placed.turn_sequential {Q : Piece α} (h : Placed lim (.sequential s P Q))
    (hbusy : (Piece.sequential s P Q).Busy f) (ht : t ∈ P.transitions ++ Q.transitions)
    (ha : f.Admits lim t) : (Piece.sequential s P Q).Turn f t := by
  rcases hbusy with ⟨hbusy, hfresh⟩ | ⟨hdone, hbusy⟩
  · rcases List.mem_append.mp ht with ht | ht
    · exact .first hbusy hfresh ht
    · exact absurd ha (h.snd.not_admits (fun p hp => by rw [hfresh p hp]) ht)
  · rcases List.mem_append.mp ht with ht | ht
    · exact absurd ha (h.fst.not_admits_of_done hdone ht)
    · exact .second hdone hbusy ht

theorem Branched.turn_parallel (h : Branched lim s bs) (hbusy : (Piece.parallel s bs).Busy f)
    (ht : t ∈ s.fork bs :: (transitionsAll bs ++ [s.join bs])) (ha : f.Admits lim t) :
    (Piece.parallel s bs).Turn f t := by
  rw [List.mem_cons, List.mem_append, List.mem_singleton, mem_transitionsAll] at ht
  rcases busy_parallel.mp hbusy with ⟨hentry, hfresh⟩ | ⟨hentry, hlive⟩
  · rcases ht with ht | ⟨b, hb, ht⟩ | rfl
    · exact .fork hentry hfresh ht
    · exact absurd ha ((h.branch hb).not_admits_of_untouched (untouched_branch hfresh hb) ht)
    · obtain ⟨b, hb⟩ := List.exists_mem_of_ne_nil bs h.nonempty
      have hexit := untouched_branch hfresh hb _ (exit_mem_ground b)
      exact absurd (ha.1 b.exit (by simpa [Site.join] using ⟨b, hb, rfl⟩)) (not_pos_of_eq hexit)
  · rcases ht with rfl | ⟨b, hb, ht⟩ | rfl
    · exact absurd (ha.1 s.entry (by simp [Site.fork])) (not_pos_of_eq hentry)
    · rcases hlive b hb with ⟨hbusy, hexit⟩ | ⟨hdone, _⟩
      · exact .branch b hb hentry hlive hbusy hexit ht
      · exact absurd ha ((h.branch hb).not_admits_of_done hdone ht)
    · refine .join hentry (fun b hb => (hlive b hb).resolve_left fun ⟨_, hexit⟩ => ?_) rfl
      exact not_pos_of_eq hexit (ha.1 b.exit (by simpa [Site.join] using ⟨b, hb, rfl⟩))

theorem Branched.turn_gateway {g : Gate α} (h : Branched lim s bs)
    (hbusy : (Piece.gateway s g bs).Busy f) (ht : t ∈ arms s g 0 bs) (ha : f.Admits lim t) :
    (Piece.gateway s g bs).Turn f t := by
  obtain ⟨i, c, hi, ht⟩ := mem_arms.mp ht
  rw [Nat.zero_add] at ht
  have hc : c ∈ bs := List.mem_of_getElem? hi
  have hidle : f.Untouched c.ground → ¬ (t ∈ c.transitions ∨ t = s.merge g i c) := by
    rintro hfresh (ht | rfl)
    · exact (h.branch hc).not_admits_of_untouched hfresh ht ha
    · exact not_pos_of_eq (hfresh _ (exit_mem_ground c)) (ha.1 _ (by simp [Site.merge]))
  rcases h.busy_gateway.mp hbusy with ⟨hentry, hfresh⟩ | ⟨hentry, b, hb, hlive, hothers⟩
  · rcases ht with ht | ht
    · exact .pick c i hi hentry hfresh ht
    · exact absurd ht (hidle (untouched_branch hfresh hc))
  -- the branch that was entered is the only one whose transitions can have tokens
  · rcases ht with rfl | ht
    · exact absurd (ha.1 s.entry (by simp [Site.pick])) (not_pos_of_eq hentry)
    by_cases hcb : c = b
    · subst hcb
      rcases hlive with ⟨hbusy, hexit⟩ | ⟨hdone, hexit⟩
      · rcases ht with ht | rfl
        · exact .arm c hc hentry hothers hbusy hexit ht
        · exact absurd (ha.1 c.exit (by simp [Site.merge])) (not_pos_of_eq hexit)
      · rcases ht with ht | ht
        · exact absurd ha ((h.branch hc).not_admits_of_done hdone ht)
        · exact .merge c i hi hentry hothers hdone hexit ht
    · exact absurd ht (hidle (hothers c hc hcb))

theorem Placed.turn_loop {x : α} {n : Nat} (h : Placed lim (.loop s P x n))
    (hbusy : (Piece.loop s P x n).Busy f)
    (ht : t ∈ s.enter P :: (P.transitions ++ [s.back P x, s.leave P x])) (ha : f.Admits lim t) :
    (Piece.loop s P x n).Turn f t := by
  have hdecision : t = s.back P x ∨ t = s.leave P x → 0 < (f P.exit).1 := by
    rintro (rfl | rfl)
    · exact ha.1 _ (by simp [Site.back])
    · exact ha.1 _ (by simp [Site.leave])
  simp only [List.mem_cons, List.mem_append, List.not_mem_nil, or_false] at ht
  rcases hbusy with ⟨hentry, hfresh⟩ | ⟨hentry, v, hv, hround⟩
  · rcases ht with ht | ht | ht
    · exact .enter hentry hfresh ht
    · exact absurd ha (h.body.not_admits_of_untouched hfresh ht)
    · exact absurd (hdecision ht) (not_pos_of_eq (hfresh _ (exit_mem_ground P)))
  rcases ht with rfl | ht
  · exact absurd (ha.1 s.entry (by simp [Site.enter])) (not_pos_of_eq hentry)
  rcases hround with ⟨hbusy, hexit⟩ | ⟨hdone, hexit⟩
  · rcases ht with ht | ht
    · exact .body v hv hentry hbusy hexit ht
    · exact absurd (hdecision ht) (not_pos_of_eq hexit)
  · rcases ht with ht | rfl | rfl
    · exact absurd ha (h.body.not_admits_of_done hdone ht)
    · have hlt := ha.2 rfl P.exit (by simp [Site.back]) n h.fits.2.1
      rw [hexit] at hlt
      exact .back v hlt hentry hdone hexit rfl
    · exact .leave v hv hentry hdone hexit rfl

/-- Every admitted transition of a piece under way has its turn. -/
theorem Placed.turn (hP : Placed lim P) (hbusy : P.Busy f) (ht : t ∈ P.transitions)
    (ha : f.Admits lim t) : P.Turn f t := by
  cases P with
  | task s v => exact .run hbusy (List.mem_singleton.mp ht)
  | sequential s P Q => exact hP.turn_sequential hbusy ht ha
  | parallel s bs => exact hP.parallel.turn_parallel hbusy ht ha
  | gateway s g bs => exact hP.gateway.turn_gateway hbusy ht ha
  | loop s body x n => exact hP.turn_loop hbusy ht ha

/-! ## The step theorem -/

/-- A step inside one branch changes nothing in the others. -/
theorem Branched.elsewhere {b : Piece α} (h : Branched lim s bs) (hb : b ∈ bs)
    (ht : t ∈ b.transitions) :
    f.fire t s.entry = f s.entry ∧ f.fire t s.exit = f s.exit ∧
      ∀ c ∈ bs, c ≠ b → ∀ p ∈ c.ground, f.fire t p = f p :=
  ⟨(h.branch hb).fire_elsewhere ht (h.entry_notMem hb),
    (h.branch hb).fire_elsewhere ht (h.exit_notMem hb),
    fun _ hc hne _ hp => (h.branch hb).fire_elsewhere ht fun hp' => h.notMem_of_ne hb hc hne hp' hp⟩

theorem Placed.step_sequential {Q : Piece α} (h : Placed lim (.sequential s P Q))
    (ihP : P.Busy f → t ∈ P.transitions → P.Moved f (f.fire t))
    (ihQ : Q.Busy f → t ∈ Q.transitions → Q.Moved f (f.fire t))
    (hturn : (Piece.sequential s P Q).Turn f t) : (Piece.sequential s P Q).Moved f (f.fire t) := by
  have hexit : (Piece.sequential s P Q).exit = Q.exit := h.snd_exit.symm
  rw [Moved, hexit]
  cases hturn with
  | first hbusy hfresh ht =>
      have hQ : ∀ p ∈ Q.ground, p ≠ Q.entry → f.fire t p = f p := fun p hp hne =>
        h.fst.fire_elsewhere ht (h.notMem_fst_ground hp hne)
      have hjoint : f P.exit = (0, 0) := h.snd_entry ▸ hfresh _ h.snd.entry_mem_zone
      refine Or.inl ⟨?_, hQ _ (exit_mem_ground Q) h.snd.entry_ne_exit.symm⟩
      rcases ihP hbusy ht with ⟨hbusy', hstay⟩ | ⟨hdone', hleft⟩
      · refine Or.inl ⟨hbusy', ?_⟩
        intro p hp
        by_cases hne : p = Q.entry
        · rw [hne, h.snd_entry, hstay, hjoint]
        · rw [hQ p (zone_subset_ground _ hp) hne, hfresh p hp]
      · refine Or.inr ⟨hdone', h.snd.busy_of_ready ⟨?_, fun p hp hne => ?_⟩⟩
        · rw [h.snd_entry, hleft, hjoint]
        · rw [hQ p (zone_subset_ground _ hp) hne, hfresh p hp]
  | second hdone hbusy ht =>
      have hdone' := h.fst.done_congr
        (fun p hp => h.snd.fire_elsewhere ht (h.notMem_snd_ground hp)) hdone
      exact (ihQ hbusy ht).imp (And.imp_left fun hbusy' => Or.inr ⟨hdone', hbusy'⟩)
        (And.imp_left fun hdone'' => ⟨hdone', hdone''⟩)

theorem Branched.step_parallel (h : Branched lim s bs)
    (ih : ∀ b ∈ bs, b.Busy f → t ∈ b.transitions → b.Moved f (f.fire t))
    (hturn : (Piece.parallel s bs).Turn f t) : (Piece.parallel s bs).Moved f (f.fire t) := by
  rw [Moved, busy_parallel, done_parallel]
  show (_ ∧ f.fire t s.exit = f s.exit) ∨ _ ∧ f.fire t s.exit = _
  cases hturn with
  | fork hentry hfresh ht =>
      subst ht
      obtain ⟨hentry', hexit', hready⟩ := h.fork hentry hfresh
      refine Or.inl ⟨Or.inr ⟨hentry', fun b hb => Or.inl ?_⟩, hexit'⟩
      exact ⟨(h.branch hb).busy_of_ready (hready b hb).1, (hready b hb).2⟩
  | branch b hb hentry hlive hbusy hexit ht =>
      obtain ⟨hentry', hexit', hothers⟩ := h.elsewhere (f := f) hb ht
      refine Or.inl ⟨Or.inr ⟨hentry'.trans hentry, fun c hc => ?_⟩, hexit'⟩
      by_cases hcb : c = b
      · rw [hcb]
        exact (ih b hb hbusy ht).live hexit
      · exact (h.branch hc).live_congr (hothers c hc hcb) (hlive c hc)
  | join hentry hdone ht =>
      subst ht
      obtain ⟨hentry', hexit', hdone'⟩ := h.join hdone
      exact Or.inr ⟨⟨hentry'.trans hentry, hdone'⟩, hexit'⟩

theorem Branched.step_gateway {g : Gate α} (h : Branched lim s bs)
    (ih : ∀ b ∈ bs, b.Busy f → t ∈ b.transitions → b.Moved f (f.fire t))
    (hturn : (Piece.gateway s g bs).Turn f t) : (Piece.gateway s g bs).Moved f (f.fire t) := by
  rw [Moved, h.busy_gateway, h.done_gateway]
  show (_ ∧ f.fire t s.exit = f s.exit) ∨ _ ∧ f.fire t s.exit = _
  cases hturn with
  | pick b i hi hentry hfresh ht =>
      subst ht
      have hb : b ∈ bs := List.mem_of_getElem? hi
      have hpick := h.pick_moves (g := g) hb i
      obtain ⟨hready, hexit⟩ :=
        (h.branch hb).ready_of_moves hpick (h.entry_notMem hb) (untouched_branch hfresh hb)
      have hbentry := (h.branch hb).entry_mem_ground
      refine Or.inl ⟨Or.inr ⟨hpick.input hentry, b, hb, ?_, fun c hc hne p hp => ?_⟩, ?_⟩
      · exact Or.inl ⟨(h.branch hb).busy_of_ready hready, hexit⟩
      · rw [hpick.elsewhere (h.ne_entry hc hp) (h.ne_of_ne hb hc hne hp hbentry),
          untouched_branch hfresh hc p hp]
      · exact hpick.elsewhere h.entry_ne_exit.symm (h.ne_exit hb hbentry).symm
  | arm b hb hentry hothers hbusy hexit ht =>
      obtain ⟨hentry', hexit', hsame⟩ := h.elsewhere (f := f) hb ht
      refine Or.inl ⟨Or.inr ⟨hentry'.trans hentry, b, hb, ?_, fun c hc hne => ?_⟩, hexit'⟩
      · exact (ih b hb hbusy ht).live hexit
      · exact (hothers c hc hne).congr (hsame c hc hne)
  | merge b i hi hentry hothers hdone hexit ht =>
      subst ht
      have hb : b ∈ bs := List.mem_of_getElem? hi
      obtain ⟨hentry', hexit', hdone', hleft, hsame⟩ := h.merge (g := g) hb i hdone hexit
      exact Or.inr ⟨⟨hentry'.trans hentry, b, hb, ⟨hdone', hleft⟩, fun c hc hne =>
        (hothers c hc hne).congr (hsame c hc hne)⟩, hexit'⟩

theorem Placed.step_loop {x : α} {n : Nat} (h : Placed lim (.loop s P x n))
    (ih : P.Busy f → t ∈ P.transitions → P.Moved f (f.fire t))
    (hturn : (Piece.loop s P x n).Turn f t) : (Piece.loop s P x n).Moved f (f.fire t) := by
  show (_ ∧ f.fire t s.exit = f s.exit) ∨ _ ∧ f.fire t s.exit = _
  cases hturn with
  | enter hentry hfresh ht =>
      subst ht
      obtain ⟨hready, hexit⟩ := h.body.ready_of_moves h.enter_moves h.entry_notMem_body hfresh
      refine Or.inl ⟨Or.inr ⟨h.enter_moves.input hentry, 0, Nat.zero_le n, Or.inl ?_⟩, ?_⟩
      · exact ⟨h.body.busy_of_ready hready, hexit⟩
      · exact h.enter_moves.elsewhere h.entry_ne_exit.symm
          (h.ne_exit_of_body h.body.entry_mem_ground).symm
  | body v hv hentry hbusy hexit ht =>
      refine Or.inl ⟨Or.inr ⟨?_, v, hv, ?_⟩, h.body.fire_elsewhere ht h.exit_notMem_body⟩
      · exact (h.body.fire_elsewhere ht h.entry_notMem_body).trans hentry
      · have hmoved := ih hbusy ht
        rwa [Moved, hexit] at hmoved
  | back v hv hentry hdone hexit ht =>
      subst ht
      obtain ⟨hready, hexit'⟩ := h.back_ready hdone hexit
      refine Or.inl ⟨Or.inr ⟨?_, v + 1, hv, Or.inl ?_⟩, h.body.back_elsewhere h.exit_notMem_body⟩
      · exact (h.body.back_elsewhere h.entry_notMem_body).trans hentry
      · exact ⟨h.body.busy_of_ready hready, hexit'⟩
  | leave v hv hentry hdone hexit ht =>
      subst ht
      exact Or.inr (h.leave hv hentry hdone hexit)

/-- A transition of a piece under way keeps it under way, or ends it and marks its exit. -/
theorem Placed.step (hP : Placed lim P) (hbusy : P.Busy f) (ht : t ∈ P.transitions)
    (ha : f.Admits lim t) : P.Moved f (f.fire t) := by
  induction P using Piece.ind with
  | task s v =>
      obtain rfl : t = s.run := List.mem_singleton.mp ht
      exact Or.inr ⟨hP.run_moves.input hbusy, hP.run_moves.output⟩
  | sequential s P Q ihP ihQ =>
      exact hP.step_sequential (ihP hP.fst) (ihQ hP.snd) (hP.turn hbusy ht ha)
  | parallel s bs ih =>
      exact hP.parallel.step_parallel (fun b hb => ih b hb (hP.parallel.branch hb))
        (hP.turn hbusy ht ha)
  | gateway s g bs ih =>
      exact hP.gateway.step_gateway (fun b hb => ih b hb (hP.gateway.branch hb))
        (hP.turn hbusy ht ha)
  | loop s body x n ih => exact hP.step_loop (ih hP.body) (hP.turn hbusy ht ha)

theorem Placed.step_live (hP : Placed lim P) (hlive : P.Live f) (ht : t ∈ P.transitions)
    (ha : f.Admits lim t) : P.Live (f.fire t) := by
  rcases hlive with ⟨hbusy, hexit⟩ | ⟨hdone, _⟩
  · exact (hP.step hbusy ht ha).live hexit
  · exact absurd ha (hP.not_admits_of_done hdone ht)

end Piece

end RegionNet
