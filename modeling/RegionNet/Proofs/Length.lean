import RegionNet.Proofs.Batch

/-!
# Lengths of runs

A process cannot go on for ever, whoever decides and however often its loops go back.
`Block.longest` reads a bound off the block: a task takes one move, a parallel block one more before
and one more after those of its branches, a gateway as many with the longest of its branches only,
and a loop enters once and then, in each round, goes through its body and moves on.

`Piece.ahead` refines the bound for a piece under way: it counts the moves that may still come. The
rounds of a loop that may still come are read off the visits of the place where it is decided, which
the rounds themselves do not forget. Every move lowers this number (`Placed.ahead_fire`).
-/

namespace RegionNet

variable {α : Type}

mutual

/-- As many moves as a run of the block can take. -/
def Block.longest : Block α → Nat
  | .task _ _ => 1
  | .sequential _ one two => one.longest + two.longest
  | .parallel _ bs => 2 + Block.longestTogether bs
  | .choice _ bs _ => 2 + Block.longestAlone bs
  | .nature _ bs _ => 2 + Block.longestAlone bs
  | .loop _ body _ n => 1 + (n + 1) * (body.longest + 1)

/-- As many as the blocks take one beside the other. -/
def Block.longestTogether : List (Block α) → Nat
  | [] => 0
  | b :: bs => b.longest + Block.longestTogether bs

/-- As many as one of the blocks takes. -/
def Block.longestAlone : List (Block α) → Nat
  | [] => 0
  | b :: bs => max b.longest (Block.longestAlone bs)

end

namespace Piece

variable {lim : PlaceId → Option Nat} {f g : Tally} {t : Transition α} {P : Piece α} {s : Site α}
  {bs : List (Piece α)}

theorem longestTogether_blocks (bs : List (Piece α)) :
    Block.longestTogether (blocks bs) = (bs.map fun b => b.block.longest).sum := by
  induction bs with
  | nil => rfl
  | cons b bs ih => rw [blocks, Block.longestTogether, ih, List.map_cons, List.sum_cons]

theorem longest_le_alone {b : Piece α} (hb : b ∈ bs) :
    b.block.longest ≤ Block.longestAlone (blocks bs) := by
  induction bs with
  | nil => cases hb
  | cons c bs ih =>
      rw [blocks, Block.longestAlone]
      rcases List.mem_cons.mp hb with rfl | hb
      · exact Nat.le_max_left _ _
      · exact Nat.le_trans (ih hb) (Nat.le_max_right _ _)

theorem longest_gateway (s : Site α) (g : Gate α) (bs : List (Piece α)) :
    (Piece.gateway s g bs).block.longest = 2 + Block.longestAlone (blocks bs) := by
  cases g <;> rfl

/-! ## What is ahead -/

/-- Some of the places hold a token. -/
def Holds (f : Tally) (ps : List PlaceId) : Prop := ∃ p ∈ ps, 0 < (f p).1

instance (f : Tally) (ps : List PlaceId) : Decidable (Holds f ps) :=
  inferInstanceAs (Decidable (∃ p ∈ ps, 0 < (f p).1))

theorem Holds.congr {ps : List PlaceId} (h : ∀ p ∈ ps, f p = g p) : Holds f ps ↔ Holds g ps :=
  exists_congr fun p => and_congr_right fun hp => by rw [h p hp]

mutual

/-- The moves that may still come before the piece is over. -/
def ahead : Piece α → Tally → Nat
  | .task s _, f => 1 - (f s.entry).2
  | .sequential _ P Q, f => P.ahead f + Q.ahead f
  | .parallel s bs, f =>
    if (f s.entry).2 = 0 then (Piece.parallel s bs).block.longest
    else if Holds f (zones bs) then aheadTogether bs f + 1 else 0
  | .gateway s g bs, f =>
    if (f s.entry).2 = 0 then (Piece.gateway s g bs).block.longest else aheadAlone bs f
  | .loop s body x n, f =>
    if (f s.entry).2 = 0 then (Piece.loop s body x n).block.longest
    else if Holds f body.ground then
      body.ahead f + 1 + (n - (f body.exit).2) * (body.block.longest + 1)
    else 0

def aheadTogether : List (Piece α) → Tally → Nat
  | [], _ => 0
  | b :: bs, f => b.ahead f + aheadTogether bs f

/-- Branches without a token count for nothing, the others for a merge as well. -/
def aheadAlone : List (Piece α) → Tally → Nat
  | [], _ => 0
  | b :: bs, f => max (if Holds f b.ground then b.ahead f + 1 else 0) (aheadAlone bs f)

end

theorem ahead_task (s : Site α) (v : List α) (f : Tally) :
    (Piece.task s v).ahead f = 1 - (f s.entry).2 := rfl

theorem ahead_sequential (s : Site α) (P Q : Piece α) (f : Tally) :
    (Piece.sequential s P Q).ahead f = P.ahead f + Q.ahead f := rfl

theorem ahead_parallel (s : Site α) (bs : List (Piece α)) (f : Tally) :
    (Piece.parallel s bs).ahead f =
      if (f s.entry).2 = 0 then (Piece.parallel s bs).block.longest
      else if Holds f (zones bs) then aheadTogether bs f + 1 else 0 := rfl

theorem ahead_gateway (s : Site α) (g : Gate α) (bs : List (Piece α)) (f : Tally) :
    (Piece.gateway s g bs).ahead f =
      if (f s.entry).2 = 0 then (Piece.gateway s g bs).block.longest else aheadAlone bs f := rfl

theorem ahead_loop (s : Site α) (body : Piece α) (x : α) (n : Nat) (f : Tally) :
    (Piece.loop s body x n).ahead f =
      if (f s.entry).2 = 0 then (Piece.loop s body x n).block.longest
      else if Holds f body.ground then
        body.ahead f + 1 + (n - (f body.exit).2) * (body.block.longest + 1)
      else 0 := rfl

theorem aheadTogether_cons (b : Piece α) (bs : List (Piece α)) (f : Tally) :
    aheadTogether (b :: bs) f = b.ahead f + aheadTogether bs f := rfl

theorem aheadAlone_cons (b : Piece α) (bs : List (Piece α)) (f : Tally) :
    aheadAlone (b :: bs) f =
      max (if Holds f b.ground then b.ahead f + 1 else 0) (aheadAlone bs f) := rfl

theorem aheadTogether_eq_sum (bs : List (Piece α)) (f : Tally) :
    aheadTogether bs f = (bs.map fun b => b.ahead f).sum := by
  induction bs with
  | nil => rfl
  | cons b bs ih => rw [aheadTogether_cons, ih, List.map_cons, List.sum_cons]

theorem aheadTogether_congr (h : ∀ b ∈ bs, b.ahead f = b.ahead g) :
    aheadTogether bs f = aheadTogether bs g := by
  rw [aheadTogether_eq_sum, aheadTogether_eq_sum, List.map_congr_left h]

theorem aheadTogether_lt {b : Piece α} (hb : b ∈ bs) (hlt : b.ahead f < b.ahead g)
    (h : ∀ c ∈ bs, c ≠ b → c.ahead f = c.ahead g) : aheadTogether bs f < aheadTogether bs g := by
  rw [aheadTogether_eq_sum, aheadTogether_eq_sum]
  refine List.sum_lt_sum _ _ (fun c hc => ?_) ⟨b, hb, hlt⟩
  by_cases hcb : c = b
  · rw [hcb]
    exact Nat.le_of_lt hlt
  · exact Nat.le_of_eq (h c hc hcb)

theorem aheadAlone_congr (hground : ∀ b ∈ bs, ∀ p ∈ b.ground, f p = g p)
    (h : ∀ b ∈ bs, b.ahead f = b.ahead g) : aheadAlone bs f = aheadAlone bs g := by
  induction bs with
  | nil => rfl
  | cons b bs ih =>
      have hrest := ih (fun c hc => hground c (List.mem_cons_of_mem _ hc)) fun c hc =>
        h c (List.mem_cons_of_mem _ hc)
      simp only [aheadAlone_cons, hrest, h b List.mem_cons_self,
        Holds.congr (hground b List.mem_cons_self)]

theorem lt_aheadAlone {b : Piece α} (hb : b ∈ bs) (hmarked : Holds f b.ground) :
    b.ahead f < aheadAlone bs f := by
  induction bs with
  | nil => cases hb
  | cons c bs ih =>
      rw [aheadAlone_cons]
      rcases List.mem_cons.mp hb with rfl | hb
      · rw [if_pos hmarked]
        exact Nat.le_max_left _ _
      · exact Nat.lt_of_lt_of_le (ih hb) (Nat.le_max_right _ _)

theorem aheadAlone_le {n : Nat} (h : ∀ b ∈ bs, Holds f b.ground → b.ahead f < n) :
    aheadAlone bs f ≤ n := by
  induction bs with
  | nil => exact Nat.zero_le n
  | cons b bs ih =>
      rw [aheadAlone_cons]
      refine Nat.max_le.mpr ⟨?_, ih fun c hc => h c (List.mem_cons_of_mem _ hc)⟩
      split
      · next hmarked => exact h b List.mem_cons_self hmarked
      · exact Nat.zero_le n

theorem not_holds_of_untouched {ps : List PlaceId} (h : f.Untouched ps) : ¬ Holds f ps := by
  rintro ⟨p, hp, hmarked⟩
  exact not_pos_of_eq (h p hp) hmarked

/-- With all other branches untouched, it is a branch under way that counts. -/
theorem aheadAlone_le_of_untouched {b : Piece α} {n : Nat}
    (hothers : ∀ c ∈ bs, c ≠ b → f.Untouched c.ground) (hlt : b.ahead f < n) :
    aheadAlone bs f ≤ n := by
  refine aheadAlone_le fun c hc hmarked => ?_
  by_cases hcb : c = b
  · rwa [hcb]
  · exact absurd hmarked (not_holds_of_untouched (hothers c hc hcb))

theorem not_holds_ground_of_done (hP : Placed lim P) (hdone : P.Done f)
    (hexit : (f P.exit).1 = 0) : ¬ Holds f P.ground := by
  rintro ⟨p, hp, hmarked⟩
  rcases mem_ground.mp hp with hp | rfl
  · rw [hP.idle_of_done hdone p hp] at hmarked
    exact Nat.lt_irrefl 0 hmarked
  · rw [hexit] at hmarked
    exact Nat.lt_irrefl 0 hmarked

theorem not_holds_zones (h : ∀ b ∈ bs, ¬ Holds f b.ground) : ¬ Holds f (zones bs) := by
  rintro ⟨p, hp, hmarked⟩
  obtain ⟨b, hb, hp⟩ := mem_zones.mp hp
  exact h b hb ⟨p, hp, hmarked⟩

theorem holds_zones {b : Piece α} (hb : b ∈ bs) (h : Holds f b.ground) : Holds f (zones bs) := by
  obtain ⟨p, hp, hmarked⟩ := h
  exact ⟨p, mem_zones.mpr ⟨b, hb, hp⟩, hmarked⟩

/-! ## What is ahead at first, in the end, and as seen from elsewhere -/

/-- What is ahead depends on the zone only. -/
theorem ahead_congr (hfg : ∀ p ∈ P.zone, f p = g p) : P.ahead f = P.ahead g := by
  have hbranches : ∀ {s : Site α} {bs : List (Piece α)}, (∀ p ∈ s.entry :: zones bs, f p = g p) →
      ∀ b ∈ bs, ∀ p ∈ b.ground, f p = g p := fun hfg b hb p hp =>
    hfg p (List.mem_cons_of_mem _ (mem_zones.mpr ⟨b, hb, hp⟩))
  induction P using Piece.ind with
  | task s v => rw [ahead_task, ahead_task, hfg _ List.mem_cons_self]
  | sequential s P Q ihP ihQ =>
      rw [ahead_sequential, ahead_sequential, ihP fun p hp => hfg p (List.mem_append_left _ hp),
        ihQ fun p hp => hfg p (List.mem_append_right _ hp)]
  | parallel s bs ih =>
      have hall : aheadTogether bs f = aheadTogether bs g := aheadTogether_congr fun b hb =>
        ih b hb fun p hp => hbranches hfg b hb p (zone_subset_ground _ hp)
      have hmarked : Holds f (zones bs) ↔ Holds g (zones bs) :=
        Holds.congr fun p hp => hfg p (List.mem_cons_of_mem _ hp)
      simp only [ahead_parallel, hfg _ List.mem_cons_self, hall, hmarked]
  | gateway s gate bs ih =>
      have hground := hbranches hfg
      have hall : aheadAlone bs f = aheadAlone bs g := aheadAlone_congr hground fun b hb =>
        ih b hb fun p hp => hground b hb p (zone_subset_ground _ hp)
      simp only [ahead_gateway, hfg _ List.mem_cons_self, hall]
  | loop s body x n ih =>
      have hbody : ∀ p ∈ body.ground, f p = g p := fun p hp => hfg p (List.mem_cons_of_mem _ hp)
      simp only [ahead_loop, hfg _ List.mem_cons_self, hbody _ (exit_mem_ground body),
        ih fun p hp => hbody p (zone_subset_ground _ hp), Holds.congr hbody]

/-- Before anything has happened, everything is ahead. -/
theorem Placed.ahead_of_unvisited (hP : Placed lim P) (h : ∀ p ∈ P.zone, (f p).2 = 0) :
    P.ahead f = P.block.longest := by
  have hentry := h _ hP.entry_mem_zone
  induction P using Piece.ind with
  | task s v =>
      show 1 - (f s.entry).2 = 1
      rw [show (f s.entry).2 = 0 from hentry]
  | sequential s P Q ihP ihQ =>
      have hzoneP : ∀ p ∈ P.zone, (f p).2 = 0 := fun p hp => h p (List.mem_append_left _ hp)
      have hzoneQ : ∀ p ∈ Q.zone, (f p).2 = 0 := fun p hp => h p (List.mem_append_right _ hp)
      rw [ahead_sequential, ihP hP.fst hzoneP (hzoneP _ hP.fst.entry_mem_zone),
        ihQ hP.snd hzoneQ (hzoneQ _ hP.snd.entry_mem_zone)]
      rfl
  | parallel s bs _ => exact if_pos hentry
  | gateway s g bs _ => exact if_pos hentry
  | loop s body x n _ => exact if_pos hentry

theorem Placed.ahead_of_ready (hP : Placed lim P) (h : P.Ready f) :
    P.ahead f = P.block.longest := by
  refine hP.ahead_of_unvisited fun p hp => ?_
  by_cases hne : p = P.entry
  · rw [hne, h.1]
  · rw [h.2 p hp hne]

/-- When a piece is over, nothing is ahead. -/
theorem Placed.ahead_of_done (hP : Placed lim P) (hdone : P.Done f) : P.ahead f = 0 := by
  induction P using Piece.ind with
  | task s v =>
      show 1 - (f s.entry).2 = 0
      rw [show f s.entry = (0, 1) from hdone, Nat.sub_self]
  | sequential s P Q ihP ihQ => rw [ahead_sequential, ihP hP.fst hdone.1, ihQ hP.snd hdone.2]
  | parallel s bs _ =>
      obtain ⟨hentry, hbs⟩ := done_parallel.mp hdone
      have hidle : ¬ Holds f (zones bs) := not_holds_zones fun b hb =>
        not_holds_ground_of_done (hP.parallel.branch hb) (hbs b hb).1 (by rw [(hbs b hb).2])
      rw [ahead_parallel, hentry, if_neg Nat.one_ne_zero, if_neg hidle]
  | gateway s g bs _ =>
      obtain ⟨hentry, b, hb, ⟨hbdone, hexit⟩, hothers⟩ := hP.gateway.done_gateway.mp hdone
      rw [ahead_gateway, hentry, if_neg Nat.one_ne_zero]
      refine Nat.le_zero.mp (aheadAlone_le fun c hc hmarked => absurd hmarked ?_)
      by_cases hcb : c = b
      · rw [hcb]
        exact not_holds_ground_of_done (hP.gateway.branch hb) hbdone (by rw [hexit])
      · exact not_holds_of_untouched (hothers c hc hcb)
  | loop s body x n _ =>
      obtain ⟨hentry, hbdone, v, _, hexit⟩ := hdone
      have hidle := not_holds_ground_of_done hP.body hbdone (by rw [hexit])
      rw [ahead_loop, hentry, if_neg Nat.one_ne_zero, if_neg hidle]

/-! ## Every move is one of those ahead -/

theorem Placed.holds_of_live (hP : Placed lim P) (h : P.Live f) : Holds f P.ground :=
  marked_of_live hP.exists_marked h

variable [Quantity α]

theorem Placed.ahead_fire_sequential {Q : Piece α} (hP : Placed lim (.sequential s P Q))
    (ihP : P.Busy f → t ∈ P.transitions → P.ahead (f.fire t) < P.ahead f)
    (ihQ : Q.Busy f → t ∈ Q.transitions → Q.ahead (f.fire t) < Q.ahead f)
    (hturn : (Piece.sequential s P Q).Turn f t) :
    (Piece.sequential s P Q).ahead (f.fire t) < (Piece.sequential s P Q).ahead f := by
  rw [ahead_sequential, ahead_sequential]
  cases hturn with
  | first hbusy hfresh ht =>
      -- the second part may get its token now, but was not visited yet
      have hQ : Q.ahead (f.fire t) = Q.block.longest := hP.snd.ahead_of_unvisited fun p hp => by
        rw [hP.fst.visits_elsewhere ht (hP.notMem_fst_zone (zone_subset_ground _ hp)), hfresh p hp]
      have hQ' : Q.ahead f = Q.block.longest := hP.snd.ahead_of_unvisited fun p hp => by
        rw [hfresh p hp]
      have hlt := ihP hbusy ht
      omega
  | second hdone hbusy ht =>
      have hP' : P.ahead (f.fire t) = P.ahead f := ahead_congr fun p hp =>
        hP.snd.fire_elsewhere ht (hP.notMem_snd_ground hp)
      have hlt := ihQ hbusy ht
      omega

theorem Branched.ahead_fire_parallel (hbs : Branched lim s bs)
    (ih : ∀ b ∈ bs, b.Busy f → t ∈ b.transitions → b.ahead (f.fire t) < b.ahead f)
    (hturn : (Piece.parallel s bs).Turn f t) :
    (Piece.parallel s bs).ahead (f.fire t) < (Piece.parallel s bs).ahead f := by
  rw [ahead_parallel, ahead_parallel]
  cases hturn with
  | fork hentry hfresh ht =>
      subst ht
      obtain ⟨hentry', _, hready⟩ := hbs.fork hentry hfresh
      have hall : aheadTogether bs (f.fire (s.fork bs)) = Block.longestTogether (blocks bs) := by
        rw [aheadTogether_eq_sum, longestTogether_blocks]
        congr 1
        apply List.map_congr_left
        intro b hb
        exact (hbs.branch hb).ahead_of_ready (hready b hb).1
      rw [hentry', hentry, if_neg Nat.one_ne_zero, if_pos rfl, hall]
      show _ < 2 + Block.longestTogether (blocks bs)
      split <;> omega
  | branch b hb hentry hlive hbusy hexit ht =>
      obtain ⟨hentry', _, hothers⟩ := hbs.elsewhere (f := f) hb ht
      have hmarked := holds_zones hb ((hbs.branch hb).holds_of_live (hlive b hb))
      have hlt : aheadTogether bs (f.fire t) < aheadTogether bs f :=
        aheadTogether_lt hb (ih b hb hbusy ht) fun c hc hne =>
          ahead_congr fun p hp => hothers c hc hne p (zone_subset_ground _ hp)
      rw [hentry', hentry, if_neg Nat.one_ne_zero, if_neg Nat.one_ne_zero, if_pos hmarked]
      split <;> omega
  | join hentry hdone ht =>
      subst ht
      obtain ⟨hentry', _, hdone'⟩ := hbs.join hdone
      have hidle : ¬ Holds (f.fire (s.join bs)) (zones bs) := not_holds_zones fun b hb =>
        not_holds_ground_of_done (hbs.branch hb) (hdone' b hb).1 (by rw [(hdone' b hb).2])
      obtain ⟨b, hb⟩ := List.exists_mem_of_ne_nil bs hbs.nonempty
      have hmarked := holds_zones hb ((hbs.branch hb).holds_of_live (Or.inr (hdone b hb)))
      rw [hentry', hentry, if_neg Nat.one_ne_zero, if_neg Nat.one_ne_zero, if_neg hidle,
        if_pos hmarked]
      exact Nat.succ_pos _

theorem Branched.ahead_fire_gateway {g : Gate α} (hbs : Branched lim s bs)
    (ih : ∀ b ∈ bs, b.Busy f → t ∈ b.transitions → b.ahead (f.fire t) < b.ahead f)
    (hturn : (Piece.gateway s g bs).Turn f t) :
    (Piece.gateway s g bs).ahead (f.fire t) < (Piece.gateway s g bs).ahead f := by
  rw [ahead_gateway, ahead_gateway, longest_gateway]
  cases hturn with
  | pick b i hi hentry hfresh ht =>
      subst ht
      have hb : b ∈ bs := List.mem_of_getElem? hi
      have hpick := hbs.pick_moves (g := g) hb i
      have hbentry := (hbs.branch hb).entry_mem_ground
      obtain ⟨hready, _⟩ := (hbs.branch hb).ready_of_moves hpick (hbs.entry_notMem hb)
        (untouched_branch hfresh hb)
      have hothers : ∀ c ∈ bs, c ≠ b → (f.fire (s.pick g i b)).Untouched c.ground := by
        intro c hc hne p hp
        rw [hpick.elsewhere (hbs.ne_entry hc hp) (hbs.ne_of_ne hb hc hne hp hbentry),
          untouched_branch hfresh hc p hp]
      have hle := aheadAlone_le_of_untouched hothers (Nat.lt_succ_self _)
      rw [(hbs.branch hb).ahead_of_ready hready] at hle
      have hlongest := longest_le_alone hb
      rw [hpick.input hentry, hentry, if_neg Nat.one_ne_zero, if_pos rfl]
      omega
  | arm b hb hentry hothers hbusy hexit ht =>
      obtain ⟨hentry', _, hsame⟩ := hbs.elsewhere (f := f) hb ht
      have hmarked := (hbs.branch hb).holds_of_live (Or.inl ⟨hbusy, hexit⟩)
      have hlt := lt_aheadAlone hb hmarked
      have hle : aheadAlone bs (f.fire t) ≤ b.ahead f :=
        aheadAlone_le_of_untouched (fun c hc hne => (hothers c hc hne).congr (hsame c hc hne))
          (ih b hb hbusy ht)
      rw [hentry', hentry, if_neg Nat.one_ne_zero, if_neg Nat.one_ne_zero]
      omega
  | merge b i hi hentry hothers hdone hexit ht =>
      subst ht
      have hb : b ∈ bs := List.mem_of_getElem? hi
      obtain ⟨hentry', _, hdone', hleft, hsame⟩ := hbs.merge (g := g) hb i hdone hexit
      have hlt := lt_aheadAlone hb ((hbs.branch hb).holds_of_live (Or.inr ⟨hdone, hexit⟩))
      have hidle : aheadAlone bs (f.fire (s.merge g i b)) ≤ 0 := by
        refine aheadAlone_le fun c hc hmarked => absurd hmarked ?_
        by_cases hcb : c = b
        · rw [hcb]
          exact not_holds_ground_of_done (hbs.branch hb) hdone' (by rw [hleft])
        · exact not_holds_of_untouched ((hothers c hc hcb).congr (hsame c hc hcb))
      rw [hentry', hentry, if_neg Nat.one_ne_zero, if_neg Nat.one_ne_zero]
      omega

theorem Placed.ahead_fire_loop {x : α} {n : Nat} (hP : Placed lim (.loop s P x n))
    (ih : P.Busy f → t ∈ P.transitions → P.ahead (f.fire t) < P.ahead f)
    (hturn : (Piece.loop s P x n).Turn f t) :
    (Piece.loop s P x n).ahead (f.fire t) < (Piece.loop s P x n).ahead f := by
  rw [ahead_loop, ahead_loop]
  cases hturn with
  | enter hentry hfresh ht =>
      subst ht
      obtain ⟨hready, hexit⟩ := hP.body.ready_of_moves hP.enter_moves hP.entry_notMem_body hfresh
      have hmarked := hP.body.holds_of_live (Or.inl ⟨hP.body.busy_of_ready hready, hexit⟩)
      rw [hP.enter_moves.input hentry, hentry, if_neg Nat.one_ne_zero, if_pos rfl, if_pos hmarked,
        hP.body.ahead_of_ready hready, hexit]
      show _ < 1 + (n + 1) * (P.block.longest + 1)
      dsimp only
      rw [Nat.sub_zero, Nat.add_one_mul]
      omega
  | body v hv hentry hbusy hexit ht =>
      have hlt := ih hbusy ht
      have hentry' := hP.body.fire_elsewhere (f := f) ht hP.entry_notMem_body
      have hexit' := hP.body.visits_elsewhere (f := f) ht hP.body.exit_notMem_zone
      have hmarked : Holds f P.ground :=
        (hP.body.exists_marked hbusy).imp fun p => And.imp_left fun hp => zone_subset_ground _ hp
      rw [hentry', hentry, if_neg Nat.one_ne_zero, if_neg Nat.one_ne_zero, if_pos hmarked, hexit']
      split <;> omega
  | back v hv hentry hdone hexit ht =>
      subst ht
      obtain ⟨hready, hexit'⟩ := hP.back_ready (x := x) hdone hexit
      have hmarked : Holds f P.ground := ⟨P.exit, exit_mem_ground P, by rw [hexit]; exact one_pos⟩
      have hmarked' : Holds (f.fire (s.back P x)) P.ground :=
        ⟨P.entry, hP.body.entry_mem_ground, by rw [hready.1]; exact one_pos⟩
      -- the round that starts was counted among those to come
      have hrounds : n - v = n - (v + 1) + 1 := by omega
      rw [hP.body.back_elsewhere hP.entry_notMem_body, hentry, if_neg Nat.one_ne_zero,
        if_neg Nat.one_ne_zero, if_pos hmarked, if_pos hmarked', hP.body.ahead_of_ready hready,
        hP.body.ahead_of_done hdone, hexit', hexit]
      dsimp only
      rw [hrounds, Nat.add_one_mul]
      omega
  | leave v hv hentry hdone hexit ht =>
      subst ht
      obtain ⟨⟨hentry', hdone', k, _, hexit'⟩, _⟩ := hP.leave hv hentry hdone hexit
      have hidle := not_holds_ground_of_done hP.body hdone' (by rw [hexit'])
      have hmarked : Holds f P.ground := ⟨P.exit, exit_mem_ground P, by rw [hexit]; exact one_pos⟩
      rw [hentry', hentry, if_neg Nat.one_ne_zero, if_neg Nat.one_ne_zero, if_neg hidle,
        if_pos hmarked]
      omega

/-- Every move of a piece under way is one of those that were ahead. -/
theorem Placed.ahead_fire (hP : Placed lim P) (hbusy : P.Busy f) (ht : t ∈ P.transitions)
    (ha : f.Admits lim t) : P.ahead (f.fire t) < P.ahead f := by
  induction P using Piece.ind with
  | task s v =>
      obtain rfl : t = s.run := List.mem_singleton.mp ht
      rw [ahead_task, ahead_task, hP.run_moves.input hbusy, show f s.entry = (1, 0) from hbusy]
      exact one_pos
  | sequential s P Q ihP ihQ =>
      exact hP.ahead_fire_sequential (ihP hP.fst) (ihQ hP.snd) (hP.turn hbusy ht ha)
  | parallel s bs ih =>
      exact hP.parallel.ahead_fire_parallel (fun b hb => ih b hb (hP.parallel.branch hb))
        (hP.turn hbusy ht ha)
  | gateway s g bs ih =>
      exact hP.gateway.ahead_fire_gateway (fun b hb => ih b hb (hP.gateway.branch hb))
        (hP.turn hbusy ht ha)
  | loop s body x n ih =>
      exact hP.ahead_fire_loop (ih hP.body) (hP.turn hbusy ht ha)

/-- A path is as long as what it takes away from what is ahead, or shorter. -/
theorem Placed.ahead_path {ts : List (Transition α)} (hP : Placed lim P) (hlive : P.Live f)
    (hpath : Tally.Path lim P.transitions f ts g) : P.ahead g + ts.length ≤ P.ahead f := by
  induction hpath with
  | nil => exact Nat.le_refl _
  | @cons f g t ts ht ha _ ih =>
      have hbusy := hP.busy_of_admits hlive ht ha
      have hlt := hP.ahead_fire hbusy ht ha
      have hle := ih (hP.step_live hlive ht ha)
      rw [List.length_cons]
      omega

end Piece

/-- No run of a valid process is longer than its block tells. -/
theorem Workflow.length_le_of_validate [Quantity α] {r : Region α} (h : r.validate = .ok ()) :
    ∃ blk w, r.block = .ok blk ∧ Workflow.compile r = .ok w ∧
      ∀ ts m, w.net.Run w.initial ts m → ts.length ≤ blk.longest := by
  obtain ⟨blk, n, hblock, hcompile, hproper, -⟩ := Workflow.compile_of_validate h
  obtain ⟨P, rfl, hP⟩ := Workflow.exists_piece hproper
  refine ⟨P.block, _, hblock, hcompile, ?_⟩
  intro ts m hrun
  obtain ⟨-, hpath⟩ := hrun.path hP.plain hP.ordered_initial
  rw [hP.transitions] at hpath
  have hle := hP.placed.ahead_path hP.alive_initial.1 hpath
  rw [hP.placed.ahead_of_ready hP.ready] at hle
  omega

theorem Workflow.length_le_sample : ∃ blk w, Region.sample.block = .ok blk ∧
    Workflow.compile Region.sample = .ok w ∧
      ∀ ts m, w.net.Run w.initial ts m → ts.length ≤ blk.longest :=
  Workflow.length_le_of_validate Region.sample_valid

end RegionNet
