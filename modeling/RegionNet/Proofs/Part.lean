import RegionNet.Proofs.Report
import RegionNet.Proofs.Step

/-!
# Parts of a piece

A part of a piece is the piece itself or a part of one of its branches. Parts inherit what holds of
the whole: they are placed (`Part.placed`), they are in one of the three stages (`Part.staged`), and
only their own transitions take tokens from their zone (`Part.owns`).
-/

namespace RegionNet

namespace Piece

variable {α : Type} {lim : PlaceId → Option Nat} {P Q : Piece α} {s : Site α} {bs : List (Piece α)}
  {f : Tally} {p : PlaceId}

/-- The piece `Q` is the given one or sits in it. -/
inductive Part (Q : Piece α) : Piece α → Prop where
  | self : Part Q Q
  | first {s : Site α} {P P' : Piece α} (h : Part Q P) : Part Q (.sequential s P P')
  | second {s : Site α} {P P' : Piece α} (h : Part Q P') : Part Q (.sequential s P P')
  | branch {s : Site α} {bs : List (Piece α)} {b : Piece α} (hb : b ∈ bs) (h : Part Q b) :
      Part Q (.parallel s bs)
  | arm {s : Site α} {g : Gate α} {bs : List (Piece α)} {b : Piece α} (hb : b ∈ bs)
      (h : Part Q b) : Part Q (.gateway s g bs)
  | body {s : Site α} {P : Piece α} {x : α} {n : Nat} (h : Part Q P) : Part Q (.loop s P x n)

namespace Part

theorem placed (h : Part Q P) (hP : Placed lim P) : Placed lim Q := by
  induction h with
  | self => exact hP
  | first _ ih => exact ih hP.fst
  | second _ ih => exact ih hP.snd
  | branch hb _ ih => exact ih (hP.parallel.branch hb)
  | arm hb _ ih => exact ih (hP.gateway.branch hb)
  | body _ ih => exact ih hP.body

theorem trans {R : Piece α} (h : Part Q P) (hR : Part R Q) : Part R P := by
  induction h with
  | self => exact hR
  | first _ ih => exact ih.first
  | second _ ih => exact ih.second
  | branch hb _ ih => exact ih.branch hb
  | arm hb _ ih => exact ih.arm hb
  | body _ ih => exact ih.body

theorem zone_subset (h : Part Q P) : Q.zone ⊆ P.zone := by
  have hbranch : ∀ {s : Site α} {bs : List (Piece α)} {b : Piece α}, b ∈ bs → Q.zone ⊆ b.zone →
      Q.zone ⊆ s.entry :: zones bs := fun hb ih p hp =>
    List.mem_cons_of_mem _ (mem_zones.mpr ⟨_, hb, zone_subset_ground _ (ih hp)⟩)
  induction h with
  | self => exact List.Subset.refl _
  | first _ ih => exact List.Subset.trans ih (List.subset_append_left _ _)
  | second _ ih => exact List.Subset.trans ih (List.subset_append_right _ _)
  | branch hb _ ih => exact hbranch hb ih
  | arm hb _ ih => exact hbranch hb ih
  | body _ ih =>
      exact List.Subset.trans ih
        (List.Subset.trans (List.subset_append_left _ _) (List.subset_cons_self _ _))

end Part

/-- Every layout in the layout of a piece is that of a part. -/
theorem exists_part {l : Layout} (hl : l ∈ P.layout.subtrees) : ∃ Q, Part Q P ∧ Q.layout = l := by
  have hall : ∀ {bs : List (Piece α)}, l ∈ Layout.subtreesAll (layouts bs) →
      ∃ b ∈ bs, l ∈ b.layout.subtrees := by
    intro bs hl
    rw [layouts_eq_map] at hl
    obtain ⟨c, hc, hl⟩ := Layout.mem_subtreesAll.mp hl
    obtain ⟨b, hb, rfl⟩ := List.mem_map.mp hc
    exact ⟨b, hb, hl⟩
  induction P using Piece.ind with
  | task s v =>
      obtain rfl : l = (Piece.task s v).layout := List.mem_singleton.mp hl
      exact ⟨_, .self, rfl⟩
  | sequential s P Q ihP ihQ =>
      rcases List.mem_cons.mp hl with rfl | hl
      · exact ⟨_, .self, rfl⟩
      have hl' : l ∈ P.layout.subtrees ∨ l ∈ Q.layout.subtrees := by
        simpa [Layout.subtreesAll] using hl
      rcases hl' with hl' | hl'
      · obtain ⟨R, hR, hlayout⟩ := ihP hl'
        exact ⟨R, hR.first, hlayout⟩
      · obtain ⟨R, hR, hlayout⟩ := ihQ hl'
        exact ⟨R, hR.second, hlayout⟩
  | parallel s bs ih =>
      rcases List.mem_cons.mp hl with rfl | hl
      · exact ⟨_, .self, rfl⟩
      obtain ⟨b, hb, hl⟩ := hall hl
      obtain ⟨R, hR, hlayout⟩ := ih b hb hl
      exact ⟨R, hR.branch hb, hlayout⟩
  | gateway s g bs ih =>
      rcases List.mem_cons.mp hl with rfl | hl
      · exact ⟨_, .self, rfl⟩
      obtain ⟨b, hb, hl⟩ := hall hl
      obtain ⟨R, hR, hlayout⟩ := ih b hb hl
      exact ⟨R, hR.arm hb, hlayout⟩
  | loop s body x n ih =>
      rcases List.mem_cons.mp hl with rfl | hl
      · exact ⟨_, .self, rfl⟩
      have hl' : l ∈ body.layout.subtrees := by simpa [Layout.subtreesAll] using hl
      obtain ⟨R, hR, hlayout⟩ := ih hl'
      exact ⟨R, hR.body, hlayout⟩

/-! ## Stages of parts -/

/-- The piece was not touched, or is under way with no token on its exit, or is over. -/
def Staged (P : Piece α) (f : Tally) : Prop :=
  f.Untouched P.zone ∨ P.Busy f ∧ (f P.exit).1 = 0 ∨ P.Done f

theorem Live.staged (h : P.Live f) : P.Staged f := by
  rcases h with ⟨hbusy, hexit⟩ | ⟨hdone, _⟩
  · exact Or.inr (Or.inl ⟨hbusy, by rw [hexit]⟩)
  · exact Or.inr (Or.inr hdone)

theorem Placed.staged_sequential (hP : Placed lim (.sequential s P Q))
    (h : (Piece.sequential s P Q).Staged f) : P.Staged f ∧ Q.Staged f := by
  rcases h with hfresh | ⟨⟨hbusy, hfresh⟩ | ⟨hdone, hbusy⟩, hexit⟩ | ⟨hdone, hdone'⟩
  · exact ⟨Or.inl (hfresh.mono (List.subset_append_left _ _)),
      Or.inl (hfresh.mono (List.subset_append_right _ _))⟩
  · have hjoint := hfresh _ hP.snd.entry_mem_zone
    rw [hP.snd_entry] at hjoint
    exact ⟨Or.inr (Or.inl ⟨hbusy, by rw [hjoint]⟩), Or.inl hfresh⟩
  · refine ⟨Or.inr (Or.inr hdone), Or.inr (Or.inl ⟨hbusy, ?_⟩)⟩
    rw [hP.snd_exit]
    exact hexit
  · exact ⟨Or.inr (Or.inr hdone), Or.inr (Or.inr hdone')⟩

theorem staged_of_untouched {b : Piece α} (h : f.Untouched (zones bs)) (hb : b ∈ bs) : b.Staged f :=
  Or.inl ((untouched_branch h hb).mono (zone_subset_ground b))

theorem staged_parallel {b : Piece α} (h : (Piece.parallel s bs).Staged f) (hb : b ∈ bs) :
    b.Staged f := by
  rcases h with hfresh | ⟨hbusy, _⟩ | hdone
  · exact staged_of_untouched (hfresh.mono (List.subset_cons_self _ _)) hb
  · rcases busy_parallel.mp hbusy with ⟨_, hfresh⟩ | ⟨_, hlive⟩
    · exact staged_of_untouched hfresh hb
    · exact (hlive b hb).staged
  · exact Or.inr (Or.inr ((done_parallel.mp hdone).2 b hb).1)

theorem Branched.staged_gateway {g : Gate α} {b : Piece α} (h : Branched lim s bs)
    (hstaged : (Piece.gateway s g bs).Staged f) (hb : b ∈ bs) : b.Staged f := by
  rcases hstaged with hfresh | ⟨hbusy, _⟩ | hdone
  · exact staged_of_untouched (hfresh.mono (List.subset_cons_self _ _)) hb
  · rcases h.busy_gateway.mp hbusy with ⟨_, hfresh⟩ | ⟨_, c, hc, hlive, hothers⟩
    · exact staged_of_untouched hfresh hb
    · by_cases hbc : b = c
      · exact hbc ▸ hlive.staged
      · exact Or.inl ((hothers b hb hbc).mono (zone_subset_ground b))
  · obtain ⟨_, c, hc, ⟨hdone, _⟩, hothers⟩ := h.done_gateway.mp hdone
    by_cases hbc : b = c
    · exact Or.inr (Or.inr (hbc ▸ hdone))
    · exact Or.inl ((hothers b hb hbc).mono (zone_subset_ground b))

theorem staged_loop {x : α} {n : Nat} (h : (Piece.loop s P x n).Staged f) : P.Staged f := by
  rcases h with hfresh | ⟨⟨_, hfresh⟩ | ⟨_, v, _, ⟨hbusy, hexit⟩ | ⟨hdone, _⟩⟩, _⟩ | ⟨_, hdone, _⟩
  · exact Or.inl (hfresh.mono fun p hp => List.mem_cons_of_mem _ (zone_subset_ground _ hp))
  · exact Or.inl (hfresh.mono (zone_subset_ground P))
  · exact Or.inr (Or.inl ⟨hbusy, by rw [hexit]⟩)
  · exact Or.inr (Or.inr hdone)
  · exact Or.inr (Or.inr hdone)

theorem Part.staged (h : Part Q P) (hP : Placed lim P) (hstaged : P.Staged f) : Q.Staged f := by
  induction h with
  | self => exact hstaged
  | first _ ih => exact ih hP.fst (hP.staged_sequential hstaged).1
  | second _ ih => exact ih hP.snd (hP.staged_sequential hstaged).2
  | branch hb _ ih => exact ih (hP.parallel.branch hb) (staged_parallel hstaged hb)
  | arm hb _ ih => exact ih (hP.gateway.branch hb) (hP.gateway.staged_gateway hstaged hb)
  | body _ ih => exact ih hP.body (staged_loop hstaged)

/-! ## Who takes the tokens -/

variable [Quantity α] {t : Transition α}

/-- A token in the zone of one branch is taken by a transition of that branch. -/
theorem Branched.owns {b c : Piece α} (h : Branched lim s bs) (hb : b ∈ bs) (hc : c ∈ bs)
    (hp : p ∈ b.zone) (ht : t ∈ c.transitions) (hin : p ∈ t.inputs) : t ∈ b.transitions := by
  by_cases hcb : c = b
  · exact hcb ▸ ht
  · have hcground := zone_subset_ground _ (((h.branch hc).within ht).inputs hin)
    exact absurd (zone_subset_ground _ hp) (h.notMem_of_ne hc hb (Ne.symm hcb) hcground)

/-- Only a part's own transitions take tokens from its zone. -/
theorem Part.owns (h : Part Q P) (hP : Placed lim P) (ht : t ∈ P.transitions)
    (hin : p ∈ t.inputs) (hp : p ∈ Q.zone) : t ∈ Q.transitions := by
  -- down the path to the part: no transition next to a part takes its tokens
  induction h with
  | self => exact ht
  | first h ih =>
      apply ih hP.fst
      rcases List.mem_append.mp ht with ht | ht
      · exact ht
      · have hp' := zone_subset_ground _ ((hP.snd.within ht).inputs hin)
        exact absurd hp' (hP.notMem_snd_ground (h.zone_subset hp))
  | second h ih =>
      apply ih hP.snd
      rcases List.mem_append.mp ht with ht | ht
      · have hp' := zone_subset_ground _ (h.zone_subset hp)
        exact absurd hp' (hP.notMem_snd_ground ((hP.fst.within ht).inputs hin))
      · exact ht
  | @branch s bs b hb h ih =>
      apply ih (hP.parallel.branch hb)
      have hpb := h.zone_subset hp
      have hnot := (hP.parallel.ne_entry hb (zone_subset_ground _ hpb))
      rcases List.mem_cons.mp ht with rfl | ht
      · exact absurd hin (by simpa [Site.fork] using hnot)
      rcases List.mem_append.mp ht with ht | ht
      · obtain ⟨c, hc, ht⟩ := mem_transitionsAll.mp ht
        exact hP.parallel.owns hb hc hpb ht hin
      · obtain rfl : t = s.join bs := List.mem_singleton.mp ht
        obtain ⟨c, hc, he⟩ : ∃ c ∈ bs, c.exit = p := by simpa [Site.join] using hin
        exact absurd he.symm (hP.parallel.ne_exit_of_zone hb hc hpb)
  | @arm s g bs b hb h ih =>
      apply ih (hP.gateway.branch hb)
      have hpb := h.zone_subset hp
      have hnot := (hP.gateway.ne_entry hb (zone_subset_ground _ hpb))
      obtain ⟨j, c, hj, ht⟩ := mem_arms.mp ht
      have hc : c ∈ bs := List.mem_of_getElem? hj
      rcases ht with rfl | ht | rfl
      · exact absurd hin (by simpa [Site.pick] using hnot)
      · exact hP.gateway.owns hb hc hpb ht hin
      · obtain rfl : p = c.exit := by simpa [Site.merge] using hin
        exact absurd rfl (hP.gateway.ne_exit_of_zone hb hc hpb)
  | @body s P x n h ih =>
      apply ih hP.body
      have hpb := h.zone_subset hp
      have hentry := hP.ne_entry_of_body (zone_subset_ground _ hpb)
      have hexit := hP.body.ne_exit hpb
      rcases List.mem_cons.mp ht with rfl | ht
      · exact absurd hin (by simpa [Site.enter] using hentry)
      rcases List.mem_append.mp ht with ht | ht
      · exact ht
      rcases List.mem_cons.mp ht with rfl | ht
      · exact absurd hin (by simpa [Site.back] using hexit)
      · obtain rfl : t = s.leave P x := List.mem_singleton.mp ht
        exact absurd hin (by simpa [Site.leave] using hexit)

end Piece

end RegionNet
