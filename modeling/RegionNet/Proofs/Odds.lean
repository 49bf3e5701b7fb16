import Mathlib.Algebra.Field.Rat
import RegionNet.Proofs.Call
import RegionNet.Proofs.Origin

/-!
# Odds of a decision

What an open decision offers, and how likely it says that this is. Where nature draws, all branches
are on offer (`Part.decides_pick_iff`). A loop offers its exit and, until its bound is used up, the
way back (`Part.decides_loop_iff`). So if nobody but nature decides and its odds sum to one, the
odds of every decision sum to one; only the exit that is left over at the bound of a loop keeps the
odds that it had while there was a choice (`Piece.Deciders`).
-/

namespace RegionNet

namespace Piece

section

variable {α : Type} [Quantity α] {lim : PlaceId → Option Nat} {f : Tally} {t : Transition α}
  {P Q : Piece α} {s : Site α} {g : Gate α} {bs : List (Piece α)} {x : α} {n : Nat}

/-! ## Who decides -/

/-- All branches of a gateway are on offer at once. -/
theorem Part.decides_pick_iff (h : Part (.gateway s g bs) P) (hP : Placed lim P)
    (hmarked : 0 < (f s.entry).1) :
    P.Decides lim f s.entry t ↔ ∃ i b, bs[i]? = some b ∧ t = s.pick g i b := by
  have hbs := (h.placed hP).gateway
  constructor
  · intro ht
    have hin : s.entry ∈ t.inputs := by simp [ht.inputs]
    have hown := h.owns hP ht.mem hin List.mem_cons_self
    obtain ⟨i, b, hi, rfl | hb | rfl⟩ := mem_arms.mp hown
    · exact ⟨0 + i, b, by rwa [Nat.zero_add], rfl⟩
    · have hb' := List.mem_of_getElem? hi
      exact absurd (zone_subset_ground _ (((hbs.branch hb').within hb).inputs hin))
        (hbs.entry_notMem hb')
    · cases ht.stop
  · rintro ⟨i, b, hi, rfl⟩
    refine ⟨h.transitions_subset (mem_arms.mpr ⟨i, b, hi, Or.inl ?_⟩), admits_pick hmarked, rfl,
      by simp [Site.pick]⟩
    rw [Nat.zero_add]

/-- A loop offers its exit, and the way back while its bound is not reached. -/
theorem Part.decides_loop_iff (h : Part (.loop s Q x n) P) (hP : Placed lim P)
    (hexit : 0 < (f Q.exit).1) :
    P.Decides lim f Q.exit t ↔ t = s.leave Q x ∨ t = s.back Q x ∧ (f Q.exit).2 < n := by
  have hloop := h.placed hP
  have hzone : Q.exit ∈ (Piece.loop s Q x n).zone := List.mem_cons_of_mem _ (exit_mem_ground Q)
  constructor
  · intro ht
    have hin : Q.exit ∈ t.inputs := by simp [ht.inputs]
    rcases List.mem_cons.mp (h.owns hP ht.mem hin hzone) with rfl | hown
    · cases ht.stop
    rcases List.mem_append.mp hown with hbody | hown
    · exact absurd ((hloop.body.within hbody).inputs hin) hloop.body.exit_notMem_zone
    rcases List.mem_pair.mp hown with rfl | rfl
    · exact Or.inr ⟨rfl, ht.admits.2 rfl _ hin n hloop.fits.2.1⟩
    · exact Or.inl rfl
  · have hback : s.back Q x ∈ (Piece.loop s Q x n).transitions := by simp [transitions]
    have hleave : s.leave Q x ∈ (Piece.loop s Q x n).transitions := by simp [transitions]
    rintro (rfl | ⟨rfl, hlt⟩)
    · exact ⟨h.transitions_subset hleave, admits_leave hexit, rfl, by simp [Site.leave]⟩
    · exact ⟨h.transitions_subset hback, admits_back hloop hexit hlt, rfl, by simp [Site.back]⟩

/-- The decisions of a gateway, one for each branch. -/
def picks (s : Site α) (g : Gate α) (bs : List (Piece α)) : List (Transition α) :=
  bs.zipIdx.map fun bi => s.pick g bi.2 bi.1

theorem mem_picks : t ∈ picks s g bs ↔ ∃ i b, bs[i]? = some b ∧ t = s.pick g i b := by
  unfold picks
  rw [List.mem_map]
  constructor
  · rintro ⟨⟨b, i⟩, hmem, rfl⟩
    exact ⟨i, b, List.mem_zipIdx_iff_getElem?.mp hmem, rfl⟩
  · rintro ⟨i, b, hi, rfl⟩
    exact ⟨(b, i), List.mem_zipIdx_iff_getElem?.mpr hi, rfl⟩

end

/-! ## Odds that sum to one -/

variable {lim : PlaceId → Option Nat} {f : Tally} {t : Transition Rat} {P : Piece Rat} {p : PlaceId}

/-- The odds of each gateway sum to one, and no loop is certain to go on. -/
structure Even (P : Piece Rat) : Prop where
  gateway : ∀ {s g bs}, Part (.gateway s g bs) P →
    2 ≤ bs.length ∧ ((List.range bs.length).map g.odds).sum = 1
  loop : ∀ {s body x n}, Part (.loop s body x n) P → x ≠ 1

theorem nodup_picks (s : Site Rat) (g : Gate Rat) (bs : List (Piece Rat)) :
    (picks s g bs).Nodup := by
  apply List.Nodup.of_map Transition.branch
  have hbranches : (picks s g bs).map Transition.branch = (List.range' 0 bs.length).map some := by
    rw [← List.zipIdx_map_snd, picks, List.map_map, List.map_map]
    rfl
  rw [hbranches]
  exact List.Nodup.map (Option.some_injective _) (List.nodup_range' _)

theorem sum_picks (s : Site Rat) (g : Gate Rat) (bs : List (Piece Rat)) :
    ((picks s g bs).map Transition.probability).sum =
      ((List.range bs.length).map g.odds).sum := by
  rw [List.range_eq_range', ← List.zipIdx_map_snd, picks, List.map_map, List.map_map]
  rfl

/-- The transitions `us` can take the decision at a place, and none else. Their odds sum to one,
unless there is nothing to decide any more because only the exit of a loop is left over. -/
structure Deciders (lim : PlaceId → Option Nat) (P : Piece Rat) (f : Tally) (p : PlaceId)
    (us : List (Transition Rat)) : Prop where
  nodup : us.Nodup
  mem_iff : ∀ {u}, u ∈ us ↔ P.Decides lim f p u
  odds : us.length ≠ 1 ∧ (us.map Transition.probability).sum = 1 ∨
    ∃ s body x n, Part (.loop s body x n) P ∧ us = [s.leave body x]

theorem Placed.deciders_gateway {s : Site Rat} {g : Gate Rat} {bs : List (Piece Rat)}
    (hP : Placed lim P) (heven : P.Even) (hpart : Part (.gateway s g bs) P)
    (hmarked : 0 < (f s.entry).1) : P.Deciders lim f s.entry (picks s g bs) := by
  obtain ⟨htwo, hsum⟩ := heven.gateway hpart
  refine ⟨nodup_picks s g bs, ?_, Or.inl ⟨?_, ?_⟩⟩
  · intro u
    rw [mem_picks, hpart.decides_pick_iff hP hmarked]
  · rw [picks, List.length_map, List.length_zipIdx]
    omega
  · rw [sum_picks, hsum]

theorem Placed.exists_deciders_loop {s : Site Rat} {body : Piece Rat} {x : Rat} {n : Nat}
    (hP : Placed lim P) (hpart : Part (.loop s body x n) P) (hone : (f body.exit).1 = 1) :
    ∃ us, P.Deciders lim f body.exit us := by
  have hexit : 0 < (f body.exit).1 := hone ▸ Nat.one_pos
  by_cases hlt : (f body.exit).2 < n
  · refine ⟨[s.back body x, s.leave body x], ?_, ?_, Or.inl ⟨by simp, ?_⟩⟩
    · have hne : s.back body x ≠ s.leave body x := fun he =>
        Role.noConfusion (congrArg Transition.role he)
      simpa using hne
    · intro u
      rw [hpart.decides_loop_iff hP hexit, List.mem_pair, and_iff_left hlt, or_comm]
    · simp [Site.back, Site.leave, Wiring.transition]
  -- the bound is reached
  · refine ⟨[s.leave body x], List.nodup_singleton _, ?_, Or.inr ⟨s, body, x, n, hpart, rfl⟩⟩
    intro u
    rw [hpart.decides_loop_iff hP hexit, List.mem_singleton, iff_self_or]
    exact fun h => absurd h.2 hlt

/-- Whatever can be decided, the odds are even. -/
theorem Placed.exists_deciders (hP : Placed lim P) (heven : P.Even) (hbusy : P.Busy f)
    (ht : P.Decides lim f p t) : ∃ us, P.Deciders lim f p us := by
  have hone : (f p).1 = 1 := (hP.event hbusy ht.mem ht.admits).input (by simp [ht.inputs])
  obtain ⟨Q, hpart, hadds⟩ := exists_adds ht.mem
  have hstop := ht.stop
  have hinputs := ht.inputs
  cases hadds with
  | run | fork | join | merge | enter => cases hstop
  | @pick s g bs =>
      obtain rfl : s.entry = p := by simpa [Site.pick] using hinputs
      exact ⟨picks s g bs, hP.deciders_gateway heven hpart (hone ▸ Nat.one_pos)⟩
  | back s body x n =>
      obtain rfl : body.exit = p := by simpa [Site.back] using hinputs
      exact hP.exists_deciders_loop hpart hone
  | leave s body x n =>
      obtain rfl : body.exit = p := by simpa [Site.leave] using hinputs
      exact hP.exists_deciders_loop hpart hone

/-- What fires on its own is certain. -/
theorem probability_of_free (ht : t ∈ P.transitions) (hstop : t.stop = false) :
    t.probability = 1 := by
  obtain ⟨Q, -, hadds⟩ := exists_adds ht
  cases hadds with
  | run | fork | join | merge | enter => rfl
  | pick | back | leave => cases hstop

end Piece

/-! ## Descriptions without choices -/

namespace Region

/-- Nobody has a choice, and wherever nature draws, the probabilities sum to one exactly. -/
def Fair (r : Region Rat) : Prop :=
  ∀ c ∈ r.preorder, c.kind ≠ .choice ∧
    ∀ ps, c.kind = .nature → c.distribution = some (.branches ps) → ps.sum = 1

variable {r : Region Rat} {n : Nat}

theorem distribution_of_nature {hd : Head Rat} {bs : List (Block Rat)} {ps : List Rat}
    (h : r.block = .ok (.nature hd bs ps)) : r.distribution = some (.branches ps) := by
  have hkind := kind_of_block h
  obtain ⟨bs', shape, -, hshape, he⟩ := shape_of_block h
  simp only [shapeOver, hkind, Block.kind] at hshape
  split at hshape
  · next qs hqs =>
      split at hshape
      · cases hshape
        cases he
        exact hqs
      · cases hshape
  · cases hshape

theorem distribution_of_loop {hd : Head Rat} {body : Block Rat} {x : Rat} {k : Nat}
    (h : r.block = .ok (.loop hd body x k)) : r.distribution = some (.single x) := by
  have hkind := kind_of_block h
  obtain ⟨bs', shape, -, hshape, he⟩ := shape_of_block h
  simp only [shapeOver, hkind, Block.kind] at hshape
  split at hshape
  · next hp _ =>
      cases hshape
      cases he
      exact hp
  · cases hshape

/-- A sound loop may go back and may be left. -/
theorem between_of_loop {hd : Head Rat} {body : Block Rat} {x : Rat} {k : Nat} (hsound : r.Sound n)
    (h : r.block = .ok (.loop hd body x k)) : 0 < x ∧ x < 1 := by
  have hkind := kind_of_block h
  unfold Sound kindFault at hsound
  simp only [hkind, Block.kind, orElse_eq_none_iff, loopProbability, distribution_of_loop h,
    Fault.require_eq_none_iff] at hsound
  exact hsound.2.2.1

/-- The piece of a fair description has odds that sum to one. -/
theorem even_of_fair {P : Piece Rat} (hsound : ∀ c ∈ r.preorder, c.Sound n)
    (h : r.block = .ok P.block) (hproper : P.block.Proper n) (hfair : r.Fair) : P.Even := by
  constructor
  · intro s g bs hpart
    obtain ⟨c, hc, hblock⟩ := exists_region hpart hsound h
    have hproper' := hpart.proper hproper
    have hkind := kind_of_block hblock
    cases g with
    | choice ps => exact absurd hkind (hfair c hc).1
    | nature ps =>
        obtain ⟨htwo, hlength, -⟩ := hproper'
        rw [Piece.blocks_eq_map, List.length_map] at htwo hlength
        have hodds : (List.range bs.length).map (Gate.nature ps).odds = ps := by
          rw [← hlength]
          apply List.ext_getElem?
          intro i
          by_cases hi : i < ps.length
          · simp [hi, Gate.odds]
          · simp [hi]
        refine ⟨htwo, ?_⟩
        rw [hodds]
        exact (hfair c hc).2 ps hkind (distribution_of_nature hblock)
  · intro s body x k hpart
    obtain ⟨c, hc, hblock⟩ := exists_region hpart hsound h
    exact (between_of_loop (hsound c hc) hblock).2.ne

/-- A description without loops has no loop in its piece. -/
theorem not_part_of_loop {P : Piece Rat} (hsound : ∀ c ∈ r.preorder, c.Sound n)
    (h : r.block = .ok P.block) (hloop : ∀ c ∈ r.preorder, c.kind ≠ .loop) {s : Site Rat}
    {body : Piece Rat} {x : Rat} {k : Nat} : ¬ Piece.Part (.loop s body x k) P := by
  intro hpart
  obtain ⟨c, hc, hblock⟩ := exists_region hpart hsound h
  exact hloop c hc (kind_of_block hblock)

end Region

end RegionNet
