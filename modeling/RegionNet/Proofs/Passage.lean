import RegionNet.Proofs.Batch

/-!
# Passages

A passage leads through a piece from its start to its end: a path of its own transitions, from a
tally in which the piece is ready to one in which it is over. It falls apart along the piece. A
sequence is passed part by part (`Placed.passage_sequential`), a gateway through one of its branches
(`Placed.passage_gateway`), a loop round by round (`Placed.passage_round`), and in a parallel block
what concerns one branch is a passage through this branch, whatever happens in the others in
between (`Branched.passage_branch`).
-/

namespace RegionNet

namespace Piece

open Tally

variable {α : Type} [Quantity α] {lim : PlaceId → Option Nat} {P Q b : Piece α} {s : Site α}
  {bs : List (Piece α)} {f f' g : Tally} {T ts us : List (Transition α)} {t : Transition α}

/-- A path of the piece's own transitions from its start to its end. -/
structure Passage (lim : PlaceId → Option Nat) (P : Piece α) (f : Tally) (ts : List (Transition α))
    (g : Tally) : Prop where
  ready : P.Ready f
  path : Path lim P.transitions f ts g
  done : P.Done g

omit [Quantity α] in
theorem Placed.not_busy_of_done (hP : Placed lim P) (h : P.Done f) : ¬ P.Busy f := by
  intro hbusy
  obtain ⟨p, hp, hmarked⟩ := hP.exists_marked hbusy
  exact Nat.ne_of_gt hmarked (hP.idle_of_done h p hp)

omit [Quantity α] in
theorem Placed.not_busy_of_untouched (hP : Placed lim P) (h : f.Untouched P.zone) : ¬ P.Busy f := by
  intro hbusy
  obtain ⟨p, hp, hmarked⟩ := hP.exists_marked hbusy
  exact not_pos_of_eq (h p hp) hmarked

/-- Nothing happens in a piece that is over. -/
theorem Placed.eq_nil_of_done (hP : Placed lim P) (h : P.Done f)
    (hpath : Path lim P.transitions f ts g) : ts = [] := by
  cases hpath with
  | nil => rfl
  | cons ht ha _ => exact absurd ha (hP.not_admits_of_done h ht)

/-- What starts with a part under way and ends without goes to the end of the part first, if only
the part's own transitions can fire until then. -/
theorem Placed.exists_passage (hb : Placed lim b) (hbusy : b.Busy f)
    (hown : ∀ g, b.Busy g → g b.exit = f b.exit → (∀ p ∉ b.ground, g p = f p) →
      ∀ t ∈ T, g.Admits lim t → t ∈ b.transitions)
    (hpath : Path lim T f ts f') (hend : ¬ b.Busy f') :
    ∃ us vs g, ts = us ++ vs ∧ Path lim b.transitions f us g ∧ Path lim T g vs f' ∧ b.Done g ∧
      g b.exit = ((f b.exit).1 + 1, (f b.exit).2) ∧ ∀ p ∉ b.ground, g p = f p := by
  induction hpath with
  | nil => exact absurd hbusy hend
  | @cons f f' t ts ht ha hpath ih =>
      have htb := hown f hbusy rfl (fun _ _ => rfl) t ht ha
      have helse : ∀ p ∉ b.ground, f.fire t p = f p := fun p hp => hb.fire_elsewhere htb hp
      rcases hb.step hbusy htb ha with ⟨hbusy', hexit⟩ | ⟨hdone, hexit⟩
      · obtain ⟨us, vs, g, rfl, hus, hvs, hdone, hexit', helse'⟩ :=
          ih hbusy' (fun g hg he hsame => hown g hg (he.trans hexit) fun p hp =>
            (hsame p hp).trans (helse p hp)) hend
        exact ⟨t :: us, vs, g, rfl, .cons htb ha hus, hvs, hdone, hexit ▸ hexit',
          fun p hp => (helse' p hp).trans (helse p hp)⟩
      · exact ⟨[t], ts, f.fire t, rfl, .single htb ha, hpath, hdone, hexit, helse⟩

/-! ## Sequences -/

theorem Placed.passage_sequential (hP : Placed lim (.sequential s P Q))
    (h : Passage lim (.sequential s P Q) f ts g) :
    ∃ us vs g', ts = us ++ vs ∧ Passage lim P f us g' ∧ Passage lim Q g' vs g := by
  obtain ⟨hready, hfresh⟩ := hP.ready_sequential h.ready
  have hjoint : f P.exit = (0, 0) := hP.snd_entry ▸ hfresh _ hP.snd.entry_mem_zone
  obtain ⟨us, vs, g', rfl, hus, hvs, hdone, hexit, hsame⟩ :=
    hP.fst.exists_passage (hP.fst.busy_of_ready hready) (fun f' _ hexit hsame t ht ha => by
      refine (List.mem_append.mp ht).resolve_right fun ht => ?_
      refine hP.snd.not_admits (fun p hp => ?_) ht ha
      by_cases hne : p = Q.entry
      · rw [hne, hP.snd_entry, hexit, hjoint]
      · rw [hsame p (hP.notMem_fst_ground (zone_subset_ground _ hp) hne), hfresh p hp])
      h.path (hP.fst.not_busy_of_done h.done.1)
  rw [hjoint] at hexit
  have hreadyQ : Q.Ready g' := ⟨hP.snd_entry ▸ hexit, fun p hp hne => by
    rw [hsame p (hP.notMem_fst_ground (zone_subset_ground _ hp) hne), hfresh p hp]⟩
  obtain ⟨vs, ws, g'', rfl, hvs, hws, hdone', -, hsame'⟩ :=
    hP.snd.exists_passage (hP.snd.busy_of_ready hreadyQ) (fun f' _ _ hsame t ht ha => by
      refine (List.mem_append.mp ht).resolve_left fun ht => ?_
      refine hP.fst.not_admits_of_done (hP.fst.done_congr (fun p hp => ?_) hdone) ht ha
      exact hsame p (hP.notMem_snd_ground hp))
      hvs (hP.snd.not_busy_of_done h.done.2)
  have hdone'' : (Piece.sequential s P Q).Done g'' :=
    ⟨hP.fst.done_congr (fun p hp => hsame' p (hP.notMem_snd_ground hp)) hdone, hdone'⟩
  obtain rfl := hP.eq_nil_of_done hdone'' hws
  cases hws
  exact ⟨us, vs, g', by rw [List.append_nil], ⟨hready, hus, hdone⟩, ⟨hreadyQ, hvs, hdone'⟩⟩

/-! ## Gateways -/

/-- While a branch is under way, only its own transitions can fire. -/
theorem Placed.arm_of_admits {gate : Gate α} (hP : Placed lim (.gateway s gate bs)) (hb : b ∈ bs)
    (hentry : f s.entry = (0, 1)) (hothers : ∀ c ∈ bs, c ≠ b → f.Untouched c.ground)
    (hbusy : b.Busy f) (hexit : f b.exit = (0, 0)) (ht : t ∈ (Piece.gateway s gate bs).transitions)
    (ha : f.Admits lim t) : t ∈ b.transitions := by
  have hbs := hP.gateway
  have hbusy' : (Piece.gateway s gate bs).Busy f :=
    hbs.busy_gateway.mpr (Or.inr ⟨hentry, b, hb, Or.inl ⟨hbusy, hexit⟩, hothers⟩)
  have huntouched : ∀ c ∈ bs, f.Untouched c.ground → ¬ c.Busy f := fun c hc h =>
    (hbs.branch hc).not_busy_of_untouched (h.mono (zone_subset_ground c))
  cases hP.turn hbusy' ht ha with
  | pick c i hi hentry' => exact absurd (hentry.symm.trans hentry') (by simp)
  | arm c hc _ hothers' hbusy' _ ht =>
      by_cases hcb : c = b
      · exact hcb ▸ ht
      · exact absurd hbusy' (huntouched c hc (hothers c hc hcb))
  | merge c i hi _ hothers' hdone _ _ =>
      have hc : c ∈ bs := List.mem_of_getElem? hi
      by_cases hcb : c = b
      · exact absurd hbusy ((hbs.branch hb).not_busy_of_done (hcb ▸ hdone))
      · exact absurd hbusy (huntouched b hb (hothers' b hb (Ne.symm hcb)))

/-- At the end of a branch, the only thing to do is to leave it. -/
theorem Placed.merge_of_admits {gate : Gate α} (hP : Placed lim (.gateway s gate bs)) (hb : b ∈ bs)
    (hentry : f s.entry = (0, 1)) (hothers : ∀ c ∈ bs, c ≠ b → f.Untouched c.ground)
    (hdone : b.Done f) (hexit : f b.exit = (1, 0)) (ht : t ∈ (Piece.gateway s gate bs).transitions)
    (ha : f.Admits lim t) :
    (∃ j, t = s.merge gate j b) ∧ (Piece.gateway s gate bs).Done (f.fire t) := by
  have hbs := hP.gateway
  have hbusy : (Piece.gateway s gate bs).Busy f :=
    hbs.busy_gateway.mpr (Or.inr ⟨hentry, b, hb, Or.inr ⟨hdone, hexit⟩, hothers⟩)
  cases hP.turn hbusy ht ha with
  | pick c i hi hentry' => exact absurd (hentry.symm.trans hentry') (by simp)
  | arm c hc _ _ hbusy' _ _ =>
      by_cases hcb : c = b
      · exact absurd hbusy' ((hbs.branch hc).not_busy_of_done (hcb ▸ hdone))
      · exact absurd hbusy' ((hbs.branch hc).not_busy_of_untouched
          ((hothers c hc hcb).mono (zone_subset_ground c)))
  | merge c i hi _ _ _ hexit' he =>
      have hc : c ∈ bs := List.mem_of_getElem? hi
      obtain rfl : c = b := by
        by_contra hcb
        exact absurd (hexit'.symm.trans (hothers c hc hcb _ (exit_mem_ground c))) (by simp)
      subst he
      obtain ⟨hentry', -, hdone', hexit'', hsame⟩ := hbs.merge (g := gate) hb i hdone hexit
      exact ⟨⟨i, rfl⟩, hbs.done_gateway.mpr ⟨hentry'.trans hentry, c, hb, ⟨hdone', hexit''⟩,
        fun d hd hne => (hothers d hd hne).congr (hsame d hd hne)⟩⟩

theorem Placed.passage_gateway {gate : Gate α} (hP : Placed lim (.gateway s gate bs))
    (h : Passage lim (.gateway s gate bs) f ts g) :
    ∃ i j b us g', bs[i]? = some b ∧ ts = s.pick gate i b :: (us ++ [s.merge gate j b]) ∧
      Passage lim b (f.fire (s.pick gate i b)) us g' := by
  have hbs := hP.gateway
  have hbusy := hP.busy_of_ready h.ready
  have hdoneg := hbs.done_gateway.mp h.done
  have hpath := h.path
  cases hpath with
  | nil => exact absurd hbusy (hP.not_busy_of_done h.done)
  | @cons _ _ t ts ht ha hpath =>
  cases hP.turn hbusy ht ha with
  | arm b hb hentry => exact absurd (h.ready.1.symm.trans hentry) (by simp)
  | merge b i hi hentry => exact absurd (h.ready.1.symm.trans hentry) (by simp)
  | pick b i hi hentry hfresh he =>
  subst he
  have hb : b ∈ bs := List.mem_of_getElem? hi
  have hpick := hbs.pick_moves (g := gate) hb i
  obtain ⟨hready, hexit⟩ :=
    (hbs.branch hb).ready_of_moves hpick (hbs.entry_notMem hb) (untouched_branch hfresh hb)
  have hothers : ∀ c ∈ bs, c ≠ b → (f.fire (s.pick gate i b)).Untouched c.ground := by
    intro c hc hne p hp
    rw [hpick.elsewhere (hbs.ne_entry hc hp)
      (hbs.ne_of_ne hb hc hne hp (hbs.branch hb).entry_mem_ground)]
    exact untouched_branch hfresh hc p hp
  -- outside the branch that was picked nothing changes until it is left
  have houtside : ∀ g' : Tally, (∀ p ∉ b.ground, g' p = f.fire (s.pick gate i b) p) →
      g' s.entry = (0, 1) ∧ ∀ c ∈ bs, c ≠ b → g'.Untouched c.ground := by
    intro g' hsame
    refine ⟨(hsame _ (hbs.entry_notMem hb)).trans (hpick.input hentry), fun c hc hne => ?_⟩
    exact (hothers c hc hne).congr fun p hp => hsame p (hbs.notMem_of_ne hc hb (Ne.symm hne) hp)
  have hend : ¬ b.Busy g := by
    obtain ⟨-, c, -, ⟨hdone, -⟩, hrest⟩ := hdoneg
    by_cases hbc : b = c
    · exact (hbs.branch hb).not_busy_of_done (hbc ▸ hdone)
    · exact (hbs.branch hb).not_busy_of_untouched ((hrest b hb hbc).mono (zone_subset_ground b))
  obtain ⟨us, vs, g', rfl, hus, hvs, hdone, hexit', hsame⟩ :=
    (hbs.branch hb).exists_passage ((hbs.branch hb).busy_of_ready hready)
      (fun g' hbusy he hsame t ht ha => hP.arm_of_admits hb (houtside g' hsame).1
        (houtside g' hsame).2 hbusy (he.trans hexit) ht ha) hpath hend
  rw [hexit] at hexit'
  obtain ⟨hentry', hothers'⟩ := houtside g' hsame
  cases hvs with
  | nil =>
      obtain ⟨-, c, -, ⟨-, hleft⟩, hrest⟩ := hdoneg
      by_cases hbc : b = c
      · subst hbc
        exact absurd (hexit'.symm.trans hleft) (by simp)
      · exact absurd (hexit'.symm.trans (hrest b hb hbc _ (exit_mem_ground b))) (by simp)
  | @cons _ _ u vs hu hau hvs =>
      obtain ⟨⟨j, rfl⟩, hover⟩ := hP.merge_of_admits hb hentry' hothers' hdone hexit' hu hau
      obtain rfl := hP.eq_nil_of_done hover hvs
      exact ⟨i, j, b, us, g', hi, rfl, hready, hus, hdone⟩

/-! ## Loops -/

/-- A loop at the start of a round that is not its first one. -/
structure Round (s : Site α) (body : Piece α) (v : Nat) (f : Tally) : Prop where
  ready : body.Ready f
  entry : f s.entry = (0, 1)
  exit : f body.exit = (0, v)

theorem Placed.passage_enter {body : Piece α} {x : α} {n : Nat}
    (hP : Placed lim (.loop s body x n)) (h : Passage lim (.loop s body x n) f ts g) :
    ∃ us, ts = s.enter body :: us ∧ Round s body 0 (f.fire (s.enter body)) ∧
      Path lim (Piece.loop s body x n).transitions (f.fire (s.enter body)) us g := by
  have hbusy := hP.busy_of_ready h.ready
  have hpath := h.path
  cases hpath with
  | nil => exact absurd hbusy (hP.not_busy_of_done h.done)
  | @cons _ _ t ts ht ha hpath =>
      cases hP.turn hbusy ht ha with
      | body v _ hentry => exact absurd (h.ready.1.symm.trans hentry) (by simp)
      | back v _ hentry => exact absurd (h.ready.1.symm.trans hentry) (by simp)
      | leave v _ hentry => exact absurd (h.ready.1.symm.trans hentry) (by simp)
      | enter hentry hfresh he =>
          subst he
          obtain ⟨hready, hexit⟩ :=
            hP.body.ready_of_moves hP.enter_moves hP.entry_notMem_body hfresh
          exact ⟨ts, rfl, ⟨hready, hP.enter_moves.input hentry, hexit⟩, hpath⟩

/-- The body is passed in each round, and then there is another round or none. -/
theorem Placed.passage_round {body : Piece α} {x : α} {n v : Nat}
    (hP : Placed lim (.loop s body x n)) (hround : Round s body v f) (hv : v ≤ n)
    (hpath : Path lim (Piece.loop s body x n).transitions f ts g)
    (hdone : (Piece.loop s body x n).Done g) :
    ∃ us vs g', Passage lim body f us g' ∧
      (ts = us ++ [s.leave body x] ∨ v < n ∧ ts = us ++ s.back body x :: vs ∧
        Round s body (v + 1) (g'.fire (s.back body x)) ∧
        Path lim (Piece.loop s body x n).transitions (g'.fire (s.back body x)) vs g) := by
  have hbusy := hP.body.busy_of_ready hround.ready
  obtain ⟨us, vs, g', rfl, hus, hvs, hdone', hexit', hsame⟩ :=
    hP.body.exists_passage hbusy (fun g' hbusy he hsame t ht ha => by
      have hentry := (hsame _ hP.entry_notMem_body).trans hround.entry
      have hexit := he.trans hround.exit
      cases hP.turn (Or.inr ⟨hentry, v, hv, Or.inl ⟨hbusy, hexit⟩⟩) ht ha with
      | enter hentry' => exact absurd (hentry.symm.trans hentry') (by simp)
      | body _ _ _ _ _ ht => exact ht
      | back _ _ _ hdone => exact absurd hbusy (hP.body.not_busy_of_done hdone)
      | leave _ _ _ hdone => exact absurd hbusy (hP.body.not_busy_of_done hdone))
      hpath (hP.body.not_busy_of_done hdone.2.1)
  have hentry := (hsame _ hP.entry_notMem_body).trans hround.entry
  rw [hround.exit] at hexit'
  have hpassage : Passage lim body f us g' := ⟨hround.ready, hus, hdone'⟩
  cases hvs with
  | nil =>
      obtain ⟨-, -, m, -, hleft⟩ := hdone
      exact absurd (hexit'.symm.trans hleft) (by simp)
  | @cons _ _ u vs hu hau hvs =>
      cases hP.turn (Or.inr ⟨hentry, v, hv, Or.inr ⟨hdone', hexit'⟩⟩) hu hau with
      | enter hentry' => exact absurd (hentry.symm.trans hentry') (by simp)
      | body _ _ _ hbusy => exact absurd hbusy (hP.body.not_busy_of_done hdone')
      | back m hm _ _ hexit he =>
          subst he
          obtain ⟨-, rfl⟩ : 1 = 1 ∧ v = m := by simpa using hexit'.symm.trans hexit
          obtain ⟨hready, hexit''⟩ := hP.back_ready hdone' hexit'
          refine ⟨us, vs, g', hpassage, Or.inr ⟨hm, rfl, ⟨hready, ?_, hexit''⟩, hvs⟩⟩
          exact (hP.body.back_elsewhere hP.entry_notMem_body).trans hentry
      | leave m hm _ _ _ he =>
          subst he
          obtain rfl := hP.eq_nil_of_done (hP.leave hv hentry hdone' hexit').1 hvs
          exact ⟨us, [], g', hpassage, Or.inl rfl⟩

/-! ## Parallel blocks -/

/-- While the branches are under way, only their transitions fire; then they are joined. -/
theorem Placed.passage_join (hP : Placed lim (.parallel s bs)) (hentry : f s.entry = (0, 1))
    (hlive : ∀ b ∈ bs, b.Live f) (hpath : Path lim (Piece.parallel s bs).transitions f ts g)
    (hdone : (Piece.parallel s bs).Done g) :
    ∃ us g', ts = us ++ [s.join bs] ∧ Path lim (transitionsAll bs) f us g' ∧
      ∀ b ∈ bs, b.Done g' := by
  have hbs := hP.parallel
  induction hpath with
  | nil f =>
      obtain ⟨b, hb⟩ := List.exists_mem_of_ne_nil bs hbs.nonempty
      have hexit := ((done_parallel.mp hdone).2 b hb).2
      rcases hlive b hb with ⟨-, hexit'⟩ | ⟨-, hexit'⟩
      · exact absurd (hexit'.symm.trans hexit) (by simp)
      · exact absurd (hexit'.symm.trans hexit) (by simp)
  | @cons f g t ts ht ha hpath ih =>
      cases hP.turn (busy_parallel.mpr (Or.inr ⟨hentry, hlive⟩)) ht ha with
      | fork hentry' => exact absurd (hentry.symm.trans hentry') (by simp)
      | branch b hb _ _ hbusy hexit ht =>
          obtain ⟨hentry', -, hothers⟩ := hbs.elsewhere (f := f) hb ht
          have hlive' : ∀ c ∈ bs, c.Live (f.fire t) := by
            intro c hc
            by_cases hcb : c = b
            · exact hcb ▸ ((hbs.branch hb).step hbusy ht ha).live hexit
            · exact (hbs.branch hc).live_congr (hothers c hc hcb) (hlive c hc)
          obtain ⟨us, g', rfl, hus, hend⟩ := ih (hentry'.trans hentry) hlive' hdone
          exact ⟨t :: us, g', rfl, .cons (mem_transitionsAll.mpr ⟨b, hb, ht⟩) ha hus, hend⟩
      | join _ hend he =>
          subst he
          obtain ⟨hentry', -, hend'⟩ := hbs.join hend
          obtain rfl := hP.eq_nil_of_done (done_parallel.mpr ⟨hentry'.trans hentry, hend'⟩) hpath
          exact ⟨[], f, rfl, .nil f, fun b hb => (hend b hb).1⟩

theorem Placed.passage_parallel (hP : Placed lim (.parallel s bs))
    (h : Passage lim (.parallel s bs) f ts g) :
    ∃ us g', ts = s.fork bs :: (us ++ [s.join bs]) ∧
      Path lim (transitionsAll bs) (f.fire (s.fork bs)) us g' ∧
      ∀ b ∈ bs, b.Ready (f.fire (s.fork bs)) ∧ b.Done g' := by
  have hbs := hP.parallel
  have hbusy := hP.busy_of_ready h.ready
  have hpath := h.path
  cases hpath with
  | nil => exact absurd hbusy (hP.not_busy_of_done h.done)
  | @cons _ _ t ts ht ha hpath =>
      cases hP.turn hbusy ht ha with
      | branch b hb hentry => exact absurd (h.ready.1.symm.trans hentry) (by simp)
      | join hentry => exact absurd (h.ready.1.symm.trans hentry) (by simp)
      | fork hentry hfresh he =>
          subst he
          obtain ⟨hentry', -, hready⟩ := hbs.fork hentry hfresh
          obtain ⟨us, g', rfl, hus, hend⟩ := hP.passage_join hentry' (fun b hb =>
            Or.inl ⟨(hbs.branch hb).busy_of_ready (hready b hb).1, (hready b hb).2⟩) hpath h.done
          exact ⟨us, g', rfl, hus, fun b hb => ⟨(hready b hb).1, hend b hb⟩⟩

open Classical in
/-- The moves that the piece makes itself. -/
noncomputable def own (b : Piece α) (us : List (Transition α)) : List (Transition α) :=
  us.filter fun t => t ∈ b.transitions

theorem own_cons_of_mem (ht : t ∈ b.transitions) : b.own (t :: us) = t :: b.own us :=
  List.filter_cons_of_pos (by simpa using ht)

theorem own_cons_of_notMem (ht : t ∉ b.transitions) : b.own (t :: us) = b.own us :=
  List.filter_cons_of_neg (by simpa using ht)

/-- What happens in other branches makes no difference to a branch. -/
theorem Branched.exists_path_own (h : Branched lim s bs) (hb : b ∈ bs)
    (hpath : Path lim (transitionsAll bs) f us g) : ∀ f' : Tally, (∀ p ∈ b.ground, f' p = f p) →
      ∃ g', Path lim b.transitions f' (b.own us) g' ∧ ∀ p ∈ b.ground, g' p = g p := by
  induction hpath with
  | nil => exact fun f' hsame => ⟨f', .nil f', hsame⟩
  | @cons f g t us ht ha _ ih =>
      intro f' hsame
      by_cases htb : t ∈ b.transitions
      · obtain ⟨g', hpath, hend⟩ := ih (f'.fire t) fun p hp => by
          rw [Tally.fire, Tally.fire, hsame p hp]
        refine ⟨g', ?_, hend⟩
        rw [own_cons_of_mem htb]
        have hin := ((h.branch hb).within htb).inputs
        exact .cons htb (ha.congr fun p hp => hsame p (zone_subset_ground _ (hin hp))) hpath
      · obtain ⟨g', hpath, hend⟩ := ih f' fun p hp => by
          obtain ⟨c, hc, htc⟩ := mem_transitionsAll.mp ht
          have hbc : b ≠ c := fun he => htb (he ▸ htc)
          rw [hsame p hp, (h.elsewhere hc htc).2.2 b hb hbc p hp]
        refine ⟨g', ?_, hend⟩
        rwa [own_cons_of_notMem htb]

/-- What concerns one branch is a passage through this branch. -/
theorem Branched.passage_branch (h : Branched lim s bs) (hb : b ∈ bs) (hready : b.Ready f)
    (hpath : Path lim (transitionsAll bs) f us g) (hdone : b.Done g) :
    ∃ g', Passage lim b f (b.own us) g' := by
  obtain ⟨g', hpath, hsame⟩ := h.exists_path_own hb hpath f fun _ _ => rfl
  refine ⟨g', hready, hpath, (h.branch hb).done_congr (fun p hp => ?_) hdone⟩
  exact hsame p (zone_subset_ground _ hp)

end Piece

end RegionNet
