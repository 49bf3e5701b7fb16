import Mathlib
import RegionNet.Proofs.Passage
import RegionNet.Proofs.Prompt
import RegionNet.Proofs.Resolution

/-!
# Stamps and makespans

The stamps of a passage are the times of a resolved piece. From the stamps on its entry and exit one
reads how long the piece took, and from the transitions that fired how it was decided; both belong
to one resolution of the piece (`Placed.exists_resolution`). Branches that overlap do not disturb
each other: what happens elsewhere changes no stamp on the ground of a branch.
-/

namespace RegionNet

/-! ## Rulings of transitions -/

/-- What the transition decides about its region. -/
def Transition.ruling {α : Type} (t : Transition α) : Option Ruling :=
  match t.role with
  | .branchEntry => t.branch.map fun i => ⟨t.regionId, .branch i⟩
  | .loopBack => some ⟨t.regionId, .again⟩
  | .loopExit => some ⟨t.regionId, .leave⟩
  | _ => none

/-- The decisions among some transitions. -/
def rulings {α : Type} (ts : List (Transition α)) : List Ruling := ts.filterMap Transition.ruling

section

variable {α : Type} {t : Transition α} {ts us : List (Transition α)} {i : String}

theorem rulings_append (ts us : List (Transition α)) :
    rulings (ts ++ us) = rulings ts ++ rulings us :=
  List.filterMap_append

theorem rulings_cons_of_none (h : t.ruling = none) : rulings (t :: ts) = rulings ts :=
  List.filterMap_cons_none h

theorem rulings_cons_of_some {x : Ruling} (h : t.ruling = some x) :
    rulings (t :: ts) = x :: rulings ts := List.filterMap_cons_some h

theorem region_of_ruling {x : Ruling} (h : t.ruling = some x) : x.region = t.regionId := by
  unfold Transition.ruling at h
  split at h
  · obtain ⟨i, -, rfl⟩ := Option.map_eq_some_iff.mp h
    rfl
  all_goals cases h
  all_goals rfl

theorem about_rulings_eq_nil (h : ∀ t ∈ ts, t.regionId ≠ i) : Ruling.about i (rulings ts) = [] := by
  refine List.filter_eq_nil_iff.mpr fun x hx => ?_
  obtain ⟨t, ht, hx⟩ := List.mem_filterMap.mp hx
  simpa [region_of_ruling hx] using h t ht

end

namespace Piece

open Ruling

variable {lim : PlaceId → Option Nat} {s : Site Rat} {bs : List (Piece Rat)} {b : Piece Rat}
  {us : List (Transition Rat)} {i : String}

/-- The rulings on what is in a branch are among the branch's own moves. -/
theorem about_own (hnodup : (Piece.parallel s bs).block.ids.Nodup) (hb : b ∈ bs)
    (hus : ∀ t ∈ us, t ∈ transitionsAll bs) (hi : i ∈ b.block.ids) :
    about i (rulings us) = about i (rulings (b.own us)) := by
  induction us with
  | nil => rfl
  | cons t us ih =>
      obtain ⟨ht, hus⟩ := List.forall_mem_cons.mp hus
      have hcons : ∀ us : List (Transition Rat),
          about i (rulings (t :: us)) = about i (rulings [t]) ++ about i (rulings us) := by
        intro us
        rw [← about_append, ← rulings_append, List.singleton_append]
      by_cases htb : t ∈ b.transitions
      · rw [own_cons_of_mem htb, hcons, hcons (b.own us), ih hus]
      · rw [own_cons_of_notMem htb, hcons, ih hus, about_rulings_eq_nil, List.nil_append]
        intro u hu he
        obtain rfl := List.mem_singleton.mp hu
        have hmem : u ∈ (Piece.parallel s bs).transitions :=
          List.mem_cons_of_mem _ (List.mem_append_left _ ht)
        exact htb ((Part.branch hb .self).mem_of_regionId hnodup hmem (he ▸ hi))

theorem mem_of_mem_own {t : Transition Rat} (ht : t ∈ b.own us) : t ∈ b.transitions := by
  simpa [own] using (List.mem_filter.mp ht).2

/-- The rulings of branches that overlap are those of one branch after the other. -/
theorem Branched.alike_branches (h : Branched lim s bs)
    (hnodup : (Piece.parallel s bs).block.ids.Nodup) (hus : ∀ t ∈ us, t ∈ transitionsAll bs) :
    Alike (rulings us) (bs.flatMap fun b => rulings (b.own us)) := by
  intro i
  have hempty : ∀ c ∈ bs, i ∉ c.block.ids → about i (rulings (c.own us)) = [] := by
    intro c _ hi
    refine about_rulings_eq_nil fun t ht he => hi ?_
    rw [← he]
    exact regionId_mem_ids (mem_of_mem_own ht)
  have hflat : ∀ cs : List (Piece Rat), (∀ c ∈ cs, about i (rulings (c.own us)) = []) →
      about i (cs.flatMap fun b => rulings (b.own us)) = [] := by
    intro cs hcs
    induction cs with
    | nil => rfl
    | cons c cs ih =>
        obtain ⟨hc, hcs⟩ := List.forall_mem_cons.mp hcs
        rw [List.flatMap_cons, about_append, hc, ih hcs, List.append_nil]
  by_cases hsome : ∃ b ∈ bs, i ∈ b.block.ids
  · obtain ⟨b, hb, hi⟩ := hsome
    have hother : ∀ c ∈ bs, c ≠ b → about i (rulings (c.own us)) = [] := fun c hc hne =>
      hempty c hc fun hi' => hne (eq_of_mem_ids hnodup hc hb hi' hi)
    rw [about_own hnodup hb hus hi]
    -- the branch is there once
    obtain ⟨l, r, rfl⟩ := List.append_of_mem hb
    have hdistinct : (l ++ b :: r).Nodup := .of_map _ (h.map_nodup fun c _ => exit_mem_ground c)
    have hnot := (List.nodup_cons.mp (List.nodup_middle.mp hdistinct)).1
    rw [List.flatMap_append, List.flatMap_cons, about_append, about_append, hflat l, hflat r,
      List.nil_append, List.append_nil]
    · exact fun c hc => hother c (by simp [hc]) fun he => hnot (by simp [← he, hc])
    · exact fun c hc => hother c (by simp [hc]) fun he => hnot (by simp [← he, hc])
  · have hnone : ∀ b ∈ bs, i ∉ b.block.ids := fun b hb hi => hsome ⟨b, hb, hi⟩
    rw [hflat bs fun c hc => hempty c hc (hnone c hc)]
    refine about_rulings_eq_nil fun t ht he => ?_
    obtain ⟨b, hb, htb⟩ := mem_transitionsAll.mp (hus t ht)
    exact hnone b hb (he ▸ regionId_mem_ids htb)

end Piece

/-! ## Stamps along a passage -/

namespace Stamps

variable {delay : PlaceId → Rat} {c c' : Stamps} {t : Transition Rat}
  {ts us : List (Transition Rat)} {p q : PlaceId} {ps : List PlaceId}

theorem foldl_nonneg (delay : PlaceId → Rat) (ts : List (Transition Rat)) (hc : ∀ p, 0 ≤ c p) :
    ∀ p, 0 ≤ ts.foldl (fire delay) c p := by
  induction ts generalizing c with
  | nil => exact hc
  | cons t ts ih =>
      refine ih fun p => ?_
      unfold fire
      split
      · exact ready_nonneg
      · exact hc p

/-- A token that is moved alone arrives when it was ready. -/
theorem fire_of_input (delay : PlaceId → Rat) (hin : t.inputs = [p])
    (hout : q ∈ t.outputs) (hready : 0 ≤ c p + delay p) :
    fire delay c t q = c p + delay p := by
  rw [fire, if_pos hout, hin]
  exact max_eq_left hready

theorem ready_congr (h : ∀ p ∈ ps, c' p = c p) : ready delay c' ps = ready delay c ps := by
  unfold ready
  rw [List.map_congr_left fun p hp => by rw [h p hp]]

open Piece in
/-- What happens in other branches changes no stamp of a branch. -/
theorem foldl_own {lim : PlaceId → Option Nat} {s : Site Rat} {bs : List (Piece Rat)}
    {b : Piece Rat} (h : Branched lim s bs) (hb : b ∈ bs) (hus : ∀ t ∈ us, t ∈ transitionsAll bs) :
    ∀ {c c' : Stamps}, (∀ p ∈ b.ground, c' p = c p) →
      ∀ p ∈ b.ground, (b.own us).foldl (fire delay) c' p = us.foldl (fire delay) c p := by
  induction us with
  | nil => exact fun hsame => hsame
  | cons t us ih =>
      obtain ⟨ht, hus⟩ := List.forall_mem_cons.mp hus
      intro c c' hsame
      by_cases htb : t ∈ b.transitions
      · rw [own_cons_of_mem htb]
        refine ih hus fun p hp => ?_
        have hin := ((h.branch hb).within htb).inputs
        rw [fire, fire, hsame p hp,
          ready_congr fun q hq => hsame q (zone_subset_ground _ (hin hq))]
      · rw [own_cons_of_notMem htb]
        refine ih hus fun p hp => ?_
        obtain ⟨d, hd, htd⟩ := mem_transitionsAll.mp ht
        have hbd : d ≠ b := fun he => htb (he ▸ htd)
        rw [hsame p hp, fire, if_neg]
        exact fun hout => h.notMem_of_ne hb hd hbd hp (((h.branch hd).within htd).outputs hout)

end Stamps

/-! ## The resolution of a passage -/

namespace Piece

open Ruling Tally

/-- The resolution of the piece has the rulings of the passage, and from the given time on it takes
until the stamp of the exit. -/
structure Explains (delay : PlaceId → Rat) (P : Piece Rat) (c : Stamps) (ts : List (Transition Rat))
    (start : Rat) (R : Resolved Rat) : Prop where
  resolves : P.block.Resolves R
  nonneg : 0 ≤ R.makespan
  alike : Alike (rulings ts) R.rulings
  stamp : ts.foldl (Stamps.fire delay) c P.exit = start + R.makespan

/-- Every passage through the piece has a resolution, whatever was charged on its entry before. -/
def Explained (net : Net Rat) (lim : PlaceId → Option Nat) (P : Piece Rat) : Prop :=
  ∀ ⦃acc : Rat⦄ ⦃c : Stamps⦄ ⦃f g : Tally⦄ ⦃ts : List (Transition Rat)⦄, P.Laid net.terms acc →
    0 ≤ acc → (∀ p, 0 ≤ c p) → Passage lim P f ts g →
      ∃ R, P.Explains net.delay c ts (c P.entry + acc) R

variable {net : Net Rat} {lim : PlaceId → Option Nat} {P Q b : Piece Rat} {s : Site Rat}
  {bs : List (Piece Rat)} {f g : Tally} {ts us : List (Transition Rat)} {c : Stamps} {acc x : Rat}
  {n : Nat}

theorem Placed.explained_task {v : List Rat} (hP : Placed lim (.task s v))
    (hduration : 0 ≤ s.head.duration) : (Piece.task s v).Explained net lim := by
  intro acc c f g ts hlaid hacc hc h
  have hdelay : net.delay s.entry = acc + s.head.duration := Net.delay_of_terms hlaid
  obtain ⟨hready, hpath, hdone⟩ := h
  cases hpath with
  | nil => exact absurd (hready.1.symm.trans hdone) (by simp)
  | cons ht ha hpath =>
      obtain rfl := List.mem_singleton.mp ht
      have hover : (Piece.task s v).Done (f.fire s.run) := hP.run_moves.input hready.1
      obtain rfl := hP.eq_nil_of_done hover hpath
      refine ⟨.task s.head, .task _ _, hduration, Alike.refl _, ?_⟩
      have hfire := Stamps.fire_of_input (c := c) net.delay hP.run_moves.inputs
        (by simp [Site.run] : s.exit ∈ s.run.outputs) (by rw [hdelay]; linarith [hc s.entry])
      rw [List.foldl_cons, List.foldl_nil]
      refine hfire.trans ?_
      rw [hdelay, ← add_assoc]
      rfl

theorem Placed.explained_sequential (hP : Placed lim (.sequential s P Q))
    (hduration : 0 ≤ s.head.duration) (ihP : P.Explained net lim) (ihQ : Q.Explained net lim) :
    (Piece.sequential s P Q).Explained net lim := by
  intro acc c f g ts hlaid hacc hc h
  obtain ⟨us, vs, g', rfl, hus, hvs⟩ := hP.passage_sequential h
  obtain ⟨R, hR⟩ := ihP hlaid.2.1 (add_nonneg hacc hduration) hc hus
  obtain ⟨S, hS⟩ := ihQ hlaid.2.2 (le_refl 0) (Stamps.foldl_nonneg _ us hc) hvs
  refine ⟨.sequential s.head R S, .sequential _ hR.resolves hS.resolves, ?_, ?_, ?_⟩
  · exact add_nonneg hduration (add_nonneg hR.nonneg hS.nonneg)
  · rw [rulings_append]
    exact hR.alike.append hS.alike
  · have hexit : (Piece.sequential s P Q).exit = Q.exit := hP.snd_exit.symm
    have hentry : (Piece.sequential s P Q).entry = P.entry := hP.fst_entry.symm
    rw [List.foldl_append, hexit, hS.stamp, hP.snd_entry, hR.stamp, hentry, Resolved.makespan]
    ring

theorem Placed.explained_gateway {gate : Gate Rat} (hP : Placed lim (.gateway s gate bs))
    (hduration : 0 ≤ s.head.duration) (ih : ∀ b ∈ bs, b.Explained net lim) :
    (Piece.gateway s gate bs).Explained net lim := by
  intro acc c f g ts hlaid hacc hc h
  have hbs := hP.gateway
  have hdelay : net.delay s.entry = acc + s.head.duration := Net.delay_of_terms hlaid.1
  obtain ⟨i, j, b, us, g', hi, rfl, hpassage⟩ := hP.passage_gateway h
  have hb : b ∈ bs := List.mem_of_getElem? hi
  obtain ⟨hlaid', hterms⟩ := allLaid_iff.mp hlaid.2 b hb
  have hpick := hbs.pick_moves (g := gate) hb i
  have hmerge := hbs.merge_moves (g := gate) hb j
  -- the token leaves the entry when it is ready, and is moved on at once at the end of the branch
  have hstart := Stamps.fire_of_input (c := c) net.delay hpick.inputs
    (by rw [hpick.outputs]; exact List.mem_singleton_self _)
    (by rw [hdelay]; linarith [hc s.entry])
  have hc' : ∀ p, 0 ≤ Stamps.fire net.delay c (s.pick gate i b) p :=
    Stamps.foldl_nonneg net.delay [s.pick gate i b] hc
  obtain ⟨R, hR⟩ := ih b hb hlaid' (le_refl 0) hc' hpassage
  have hexit : net.delay b.exit = 0 := Net.delay_of_terms hterms
  have hend := Stamps.fire_of_input
    (c := us.foldl (Stamps.fire net.delay) (Stamps.fire net.delay c (s.pick gate i b))) net.delay
    hmerge.inputs (by rw [hmerge.outputs]; exact List.mem_singleton_self _)
    (by rw [hexit, add_zero]; exact Stamps.foldl_nonneg _ us hc' _)
  refine ⟨.taken s.head i R, ?_, ?_, ?_, ?_⟩
  · have hblocks : (blocks bs)[i]? = some b.block := by
      rw [blocks_eq_map, List.getElem?_map, hi]
      rfl
    cases gate with
    | choice distribution => exact .choice _ _ hblocks hR.resolves
    | nature distribution => exact .nature _ _ hblocks hR.resolves
  · exact add_nonneg hduration hR.nonneg
  · rw [rulings_cons_of_some (x := ⟨s.head.id, .branch i⟩) rfl, rulings_append]
    have hnone : rulings [s.merge gate j b] = [] := rulings_cons_of_none rfl
    rw [hnone, List.append_nil]
    exact (Alike.refl [_]).append hR.alike
  · rw [List.foldl_cons, List.foldl_append, List.foldl_cons, List.foldl_nil]
    refine hend.trans ?_
    rw [hR.stamp, hstart, hdelay, hexit, Resolved.makespan]
    show _ = c s.entry + acc + _
    ring

/-- The rounds of a loop come one after the other. -/
theorem Placed.explained_rounds (hP : Placed lim (.loop s P x n)) (ih : P.Explained net lim)
    (hlaid : P.Laid net.terms 0) (hexit : net.delay P.exit = 0) (k : Nat) :
    ∀ {v : Nat} {c : Stamps} {f : Tally} {ts : List (Transition Rat)}, v + k = n →
      Round s P v f → (∀ p, 0 ≤ c p) →
      Path lim (Piece.loop s P x n).transitions f ts g → (Piece.loop s P x n).Done g →
      ∃ Rs : List (Resolved Rat), Rs ≠ [] ∧ Rs.length ≤ k + 1 ∧
        (∀ R ∈ Rs, P.block.Resolves R ∧ 0 ≤ R.makespan) ∧
        Alike (rulings ts) (Resolved.rulingsOfRounds s.head Rs) ∧
        ts.foldl (Stamps.fire net.delay) c s.exit = c P.entry + (Resolved.makespans Rs).sum := by
  induction k using Nat.strong_induction_on with
  | _ k ihk =>
      intro v c f ts hk hround hc hpath hdone
      obtain ⟨us, vs, g', hpassage, hnext⟩ :=
        hP.passage_round hround (Nat.le.intro hk) hpath hdone
      obtain ⟨R, hR⟩ := ih hlaid (le_refl 0) hc hpassage
      have hc' := Stamps.foldl_nonneg net.delay us hc
      have hstamp : us.foldl (Stamps.fire net.delay) c P.exit = c P.entry + R.makespan := by
        rw [hR.stamp, add_zero]
      -- a decision takes no time
      have hdecided : ∀ {t : Transition Rat} {p : PlaceId}, t.inputs = [P.exit] → p ∈ t.outputs →
          Stamps.fire net.delay (us.foldl (Stamps.fire net.delay) c) t p =
            c P.entry + R.makespan := by
        intro t p hin hout
        have hready : 0 ≤ us.foldl (Stamps.fire net.delay) c P.exit + net.delay P.exit := by
          rw [hexit, add_zero]
          exact hc' _
        rw [Stamps.fire_of_input net.delay hin hout hready, hexit, add_zero, hstamp]
      rcases hnext with rfl | ⟨hlt, rfl, hround', hpath'⟩
      · refine ⟨[R], List.cons_ne_nil _ _, by simp, by simp [hR.resolves, hR.nonneg], ?_, ?_⟩
        · rw [rulings_append, rulings_cons_of_some (x := ⟨s.head.id, .leave⟩) rfl]
          exact hR.alike.append (Alike.refl _)
        · rw [List.foldl_append, List.foldl_cons, List.foldl_nil,
            hdecided (by simp [Site.leave]) (by simp [Site.leave])]
          simp [Resolved.makespans]
      · obtain ⟨k, rfl⟩ : ∃ j, k = j + 1 := ⟨k - 1, by omega⟩
        obtain ⟨Rs, hsome, hlength, hRs, halike, hsum⟩ := ihk k (Nat.lt_succ_self k)
          (by omega : v + 1 + k = n) hround'
          (Stamps.foldl_nonneg net.delay [s.back P x] hc') hpath' hdone
        refine ⟨R :: Rs, List.cons_ne_nil _ _, Nat.succ_le_succ hlength,
          List.forall_mem_cons.mpr ⟨⟨hR.resolves, hR.nonneg⟩, hRs⟩, ?_, ?_⟩
        · have hagain : Rs.isEmpty = false := by simpa using hsome
          rw [rulings_append, rulings_cons_of_some (x := ⟨s.head.id, .again⟩) rfl,
            Resolved.rulingsOfRounds, hagain]
          exact hR.alike.append ((Alike.refl [_]).append halike)
        · rw [List.foldl_cons, List.foldl_nil,
            hdecided (by simp [Site.back]) (by simp [Site.back])] at hsum
          rw [List.foldl_append, List.foldl_cons, hsum, Resolved.makespans, List.sum_cons,
            add_assoc]

theorem Placed.explained_loop (hP : Placed lim (.loop s P x n)) (hduration : 0 ≤ s.head.duration)
    (ih : P.Explained net lim) : (Piece.loop s P x n).Explained net lim := by
  intro acc c f g ts hlaid hacc hc h
  have hdelay : net.delay s.entry = acc + s.head.duration := Net.delay_of_terms hlaid.1
  obtain ⟨us, rfl, hround, hpath⟩ := hP.passage_enter h
  have hstart := Stamps.fire_of_input (c := c) net.delay hP.enter_moves.inputs
    (by rw [hP.enter_moves.outputs]; exact List.mem_singleton_self _)
    (by rw [hdelay]; linarith [hc s.entry])
  obtain ⟨Rs, hsome, hlength, hRs, halike, hsum⟩ := hP.explained_rounds ih hlaid.2.2
    (Net.delay_of_terms hlaid.2.1) n (Nat.zero_add n) hround
    (Stamps.foldl_nonneg net.delay [s.enter P] hc) hpath h.done
  refine ⟨.rounds s.head Rs, .loop _ _ hsome hlength fun R hR => (hRs R hR).1, ?_, ?_, ?_⟩
  · refine add_nonneg hduration (List.sum_nonneg fun m hm => ?_)
    rw [Resolved.makespans_eq_map] at hm
    obtain ⟨R, hR, rfl⟩ := List.mem_map.mp hm
    exact (hRs R hR).2
  · rw [rulings_cons_of_none rfl]
    exact halike
  · rw [List.foldl_cons]
    refine hsum.trans ?_
    rw [List.foldl_cons, List.foldl_nil, hstart, hdelay, Resolved.makespan]
    show _ = c s.entry + acc + _
    ring

theorem foldr_max_nonneg (xs : List Rat) : 0 ≤ xs.foldr max 0 := by
  cases xs with
  | nil => exact le_refl 0
  | cons x xs => exact (foldr_max_nonneg xs).trans (le_max_right _ _)

/-- The latest of several times that are all put off by the same. -/
theorem foldr_max_add {y : Rat} (hy : 0 ≤ y) :
    ∀ {xs : List Rat}, xs ≠ [] → (∀ x ∈ xs, 0 ≤ x) →
      (xs.map (y + ·)).foldr max 0 = y + xs.foldr max 0
  | [x], _, hxs => by
      have hx : 0 ≤ x := hxs x List.mem_cons_self
      simp only [List.map_cons, List.map_nil, List.foldr_cons, List.foldr_nil]
      rw [max_eq_left (add_nonneg hy hx), max_eq_left hx]
  | x :: x' :: xs, _, hxs => by
      have ih := foldr_max_add hy (List.cons_ne_nil x' xs) (List.forall_mem_cons.mp hxs).2
      rw [List.map_cons, List.foldr_cons, ih, max_add_add_left]
      rfl

theorem Placed.explained_parallel (hP : Placed lim (.parallel s bs))
    (hnodup : (Piece.parallel s bs).block.ids.Nodup) (hduration : 0 ≤ s.head.duration)
    (ih : ∀ b ∈ bs, b.Explained net lim) : (Piece.parallel s bs).Explained net lim := by
  intro acc c f g ts hlaid hacc hc h
  have hbs := hP.parallel
  have hdelay : net.delay s.entry = acc + s.head.duration := Net.delay_of_terms hlaid.1
  obtain ⟨us, g', rfl, hpath, hbranches⟩ := hP.passage_parallel h
  have hus := hpath.mem
  have hc' : ∀ p, 0 ≤ Stamps.fire net.delay c (s.fork bs) p :=
    Stamps.foldl_nonneg net.delay [s.fork bs] hc
  have hstart : ∀ b ∈ bs, Stamps.fire net.delay c (s.fork bs) b.entry =
      c s.entry + acc + s.head.duration := by
    intro b hb
    rw [Stamps.fire_of_input net.delay (by simp [Site.fork] : (s.fork bs).inputs = [s.entry])
      (by simpa [Site.fork] using ⟨b, hb, rfl⟩) (by rw [hdelay]; linarith [hc s.entry]), hdelay,
      add_assoc]
  have hresolved : ∀ b ∈ bs, ∃ R, b.Explains net.delay (Stamps.fire net.delay c (s.fork bs))
      (b.own us) (c s.entry + acc + s.head.duration) R := by
    intro b hb
    obtain ⟨g'', hpassage⟩ := hbs.passage_branch hb (hbranches b hb).1 hpath (hbranches b hb).2
    obtain ⟨R, hR⟩ := ih b hb (allLaid_iff.mp hlaid.2 b hb).1 (le_refl 0) hc' hpassage
    rw [hstart b hb, add_zero] at hR
    exact ⟨R, hR⟩
  have : Nonempty (Resolved Rat) := ⟨.task s.head⟩
  choose! R hR using hresolved
  refine ⟨.parallel s.head (bs.map R), .parallel _ ?_, ?_, ?_, ?_⟩
  · rw [blocks_eq_map, List.forall₂_map_left_iff, List.forall₂_map_right_iff, List.forall₂_same]
    exact fun b hb => (hR b hb).resolves
  · exact add_nonneg hduration (foldr_max_nonneg _)
  · have hjoin : rulings [s.join bs] = [] := rulings_cons_of_none rfl
    rw [rulings_cons_of_none rfl, rulings_append, hjoin, List.append_nil, Resolved.rulings,
      Resolved.rulingsAll_eq_flatMap, List.flatMap_map]
    exact (hbs.alike_branches hnodup hus).trans (.flatMap fun b hb => (hR b hb).alike)
  · have hends : ∀ b ∈ bs,
        us.foldl (Stamps.fire net.delay) (Stamps.fire net.delay c (s.fork bs)) b.exit +
          net.delay b.exit = c s.entry + acc + s.head.duration + (R b).makespan := by
      intro b hb
      have hexit : net.delay b.exit = 0 := Net.delay_of_terms (allLaid_iff.mp hlaid.2 b hb).2
      rw [hexit, add_zero, ← (hR b hb).stamp]
      exact (Stamps.foldl_own hbs hb hus (fun _ _ => rfl) _ (exit_mem_ground b)).symm
    have hstart' : 0 ≤ c s.entry + acc + s.head.duration :=
      add_nonneg (add_nonneg (hc _) hacc) hduration
    have hmakespans : ∀ m ∈ bs.map fun b => (R b).makespan, 0 ≤ m := by
      intro m hm
      obtain ⟨b, hb, rfl⟩ := List.mem_map.mp hm
      exact (hR b hb).nonneg
    have hlatest := foldr_max_add hstart' (by simpa using hbs.nonempty) hmakespans
    rw [List.foldl_cons, List.foldl_append, List.foldl_cons, List.foldl_nil, Stamps.fire,
      if_pos (by simp [Site.join, exit, site]), Stamps.ready]
    have hin : (s.join bs).inputs = bs.map exit := by simp [Site.join]
    have harrivals : (bs.map exit).map (fun p => us.foldl (Stamps.fire net.delay)
        (Stamps.fire net.delay c (s.fork bs)) p + net.delay p) =
        (bs.map fun b => (R b).makespan).map (c s.entry + acc + s.head.duration + ·) := by
      rw [List.map_map, List.map_map]
      exact List.map_congr_left hends
    rw [hin, harrivals, hlatest, Resolved.makespan, Resolved.makespans_eq_map, List.map_map]
    show _ = c s.entry + acc + _
    rw [← add_assoc]
    rfl

theorem Placed.explained (hP : Placed lim P) (hnodup : P.block.ids.Nodup)
    (hheads : ∀ Q, Part Q P → 0 ≤ Q.site.head.duration) : P.Explained net lim := by
  induction P using Piece.ind with
  | task s v => exact hP.explained_task (hheads (.task s v) .self)
  | sequential s P Q ihP ihQ =>
      exact hP.explained_sequential (hheads (.sequential s P Q) .self)
        (ihP hP.fst ((Part.first .self).nodup_ids hnodup) fun R hR => hheads R hR.first)
        (ihQ hP.snd ((Part.second .self).nodup_ids hnodup) fun R hR => hheads R hR.second)
  | parallel s bs ih =>
      exact hP.explained_parallel hnodup (hheads (.parallel s bs) .self) fun b hb => ih b hb
        (hP.parallel.branch hb) ((Part.branch hb .self).nodup_ids hnodup) fun R hR =>
          hheads R (hR.branch hb)
  | gateway s gate bs ih =>
      exact hP.explained_gateway (hheads (.gateway s gate bs) .self) fun b hb => ih b hb
        (hP.gateway.branch hb) ((Part.arm hb .self).nodup_ids hnodup) fun R hR =>
          hheads R (hR.arm hb)
  | loop s body x n ih =>
      have hpart : Part body (.loop s body x n) := .body .self
      exact hP.explained_loop (hheads (.loop s body x n) .self)
        (ih hP.body (hpart.nodup_ids hnodup) fun R hR => hheads R hR.body)

end Piece

end RegionNet
