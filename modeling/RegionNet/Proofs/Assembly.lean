import RegionNet.Proofs.Growth
import RegionNet.Proofs.Placement
import RegionNet.Proofs.Proper

/-!
# Assembled nets

Assembling a proper block places it: there is a piece with this block such that the builder's net
has grown by exactly the places and transitions of the piece, and charges on the piece's places what
the regions that start there ask for. This is `Block.assembles`, shown kind by kind.

So the net of a compiled process consists of one well placed piece (`Workflow.exists_piece`), and
what the other modules say about pieces holds for it.
-/

namespace RegionNet

variable {α : Type}

namespace Piece

section

variable [Quantity α]

mutual

/-- The terms of the places are those that the piece asks for, where `acc` has been charged on its
entry before. -/
def Laid (T : PlaceId → Option (Terms α)) (acc : α) : Piece α → Prop
  | .task s v => T s.entry = some ⟨acc + s.head.duration, some v, none⟩
  | .sequential s one two =>
    (one.entry = s.entry ∧ two.entry = one.exit ∧ two.exit = s.exit) ∧
      one.Laid T (acc + s.head.duration) ∧ two.Laid T 0
  | .parallel s bs => T s.entry = some (.lasting (acc + s.head.duration)) ∧ AllLaid T bs
  | .gateway s _ bs => T s.entry = some (.lasting (acc + s.head.duration)) ∧ AllLaid T bs
  | .loop s body _ n =>
    T s.entry = some (.lasting (acc + s.head.duration)) ∧
      T body.exit = some ⟨0, none, some n⟩ ∧ body.Laid T 0

def AllLaid (T : PlaceId → Option (Terms α)) : List (Piece α) → Prop
  | [] => True
  | b :: bs => (b.Laid T 0 ∧ T b.exit = some (.lasting 0)) ∧ AllLaid T bs

end

theorem allLaid_iff {T : PlaceId → Option (Terms α)} {bs : List (Piece α)} :
    AllLaid T bs ↔ ∀ b ∈ bs, b.Laid T 0 ∧ T b.exit = some (.lasting 0) := by
  induction bs with
  | nil => simp [AllLaid]
  | cons b bs ih => rw [AllLaid, ih, List.forall_mem_cons]

/-! ## Laid pieces fit -/

variable {T T' : PlaceId → Option (Terms α)} {acc : α} {n : Nat}

theorem fitAll_of_laid {bs : List (Piece α)} (h : AllLaid T bs)
    (hproper : Block.AllProper n (blocks bs))
    (ih : ∀ b ∈ bs, b.Laid T 0 → b.block.Proper n → b.Fits (limitIn T)) :
    FitAll (limitIn T) bs := by
  rw [blocks_eq_map, Block.allProper_iff] at hproper
  apply fitAll_iff.mpr
  intro b hb
  obtain ⟨hlaid, hexit⟩ := allLaid_iff.mp h b hb
  refine ⟨ih b hb hlaid (hproper _ (List.mem_map_of_mem hb)), ?_⟩
  rw [limitIn_of_eq hexit, Terms.lasting]

theorem Laid.fits {P : Piece α} (h : P.Laid T acc) (hproper : P.block.Proper n) :
    P.Fits (limitIn T) := by
  have hnil : ∀ {bs : List (Piece α)}, 2 ≤ (blocks bs).length → bs ≠ [] := by
    rintro _ hlength rfl
    exact Nat.not_succ_le_zero 1 hlength
  induction P using Piece.ind generalizing acc with
  | task s v => exact limitIn_of_eq h
  | sequential s P Q ihP ihQ =>
      obtain ⟨⟨hentry, hjoint, hexit⟩, hP, hQ⟩ := h
      exact ⟨hentry, hjoint, hexit, ihP hP hproper.1, ihQ hQ hproper.2⟩
  | parallel s bs ih =>
      obtain ⟨hentry, hbs⟩ := h
      refine ⟨limitIn_of_eq hentry, hnil hproper.1, ?_⟩
      exact fitAll_of_laid hbs hproper.2 fun b hb => ih b hb
  | gateway s g bs ih =>
      obtain ⟨hentry, hbs⟩ := h
      obtain ⟨htwo, hall⟩ : 2 ≤ (blocks bs).length ∧ Block.AllProper n (blocks bs) := by
        cases g with
        | choice ps => exact ⟨hproper.1, hproper.2.2⟩
        | nature ps => exact ⟨hproper.1, hproper.2.2⟩
      refine ⟨limitIn_of_eq hentry, hnil htwo, ?_⟩
      exact fitAll_of_laid hbs hall fun b hb => ih b hb
  | loop s body x k ih =>
      obtain ⟨hentry, hexit, hbody⟩ := h
      exact ⟨limitIn_of_eq hentry, limitIn_of_eq hexit, hproper.1, ih hbody hproper.2⟩

theorem Laid.mono {P : Piece α} (h : P.Laid T acc)
    (hT : ∀ {p t}, T p = some t → T' p = some t) : P.Laid T' acc := by
  induction P using Piece.ind generalizing acc with
  | task s v => exact hT h
  | sequential s P Q ihP ihQ => exact ⟨h.1, ihP h.2.1, ihQ h.2.2⟩
  | parallel s bs ih =>
      refine ⟨hT h.1, allLaid_iff.mpr ?_⟩
      intro b hb
      have hlaid := allLaid_iff.mp h.2 b hb
      exact ⟨ih b hb hlaid.1, hT hlaid.2⟩
  | gateway s g bs ih =>
      refine ⟨hT h.1, allLaid_iff.mpr ?_⟩
      intro b hb
      have hlaid := allLaid_iff.mp h.2 b hb
      exact ⟨ih b hb hlaid.1, hT hlaid.2⟩
  | loop s body x k ih => exact ⟨hT h.1, hT h.2.1, ih h.2.2⟩

theorem AllLaid.mono {bs : List (Piece α)} (h : AllLaid T bs)
    (hT : ∀ {p t}, T p = some t → T' p = some t) : AllLaid T' bs :=
  allLaid_iff.mpr fun b hb => (allLaid_iff.mp h b hb).imp (fun hlaid => hlaid.mono hT) hT

/-- Being laid is a matter of the zone. -/
theorem Laid.congr {lim : PlaceId → Option Nat} {P : Piece α} (h : P.Laid T acc)
    (hfits : P.Fits lim) (hT : ∀ p ∈ P.zone, T' p = T p) : P.Laid T' acc := by
  have hbranches : ∀ {bs : List (Piece α)}, FitAll lim bs → AllLaid T bs →
      (∀ p ∈ zones bs, T' p = T p) →
      (∀ b ∈ bs, ∀ {acc}, b.Laid T acc → b.Fits lim → (∀ p ∈ b.zone, T' p = T p) →
        b.Laid T' acc) → AllLaid T' bs := by
    intro bs hfits hlaid hT ih
    apply allLaid_iff.mpr
    intro b hb
    obtain ⟨hb', hexit⟩ := allLaid_iff.mp hlaid b hb
    refine ⟨ih b hb hb' (fitAll_iff.mp hfits b hb).1 fun p hp => ?_, ?_⟩
    · exact hT p (mem_zones.mpr ⟨b, hb, zone_subset_ground _ hp⟩)
    · rw [hT _ (mem_zones.mpr ⟨b, hb, exit_mem_ground b⟩), hexit]
  induction P using Piece.ind generalizing acc with
  | task s v => exact (hT _ List.mem_cons_self).trans h
  | sequential s P Q ihP ihQ =>
      obtain ⟨hlinks, hP, hQ⟩ := h
      obtain ⟨-, -, -, hfitsP, hfitsQ⟩ := hfits
      exact ⟨hlinks, ihP hP hfitsP fun p hp => hT p (List.mem_append_left _ hp),
        ihQ hQ hfitsQ fun p hp => hT p (List.mem_append_right _ hp)⟩
  | parallel s bs ih =>
      exact ⟨(hT _ List.mem_cons_self).trans h.1, hbranches hfits.2.2 h.2
        (fun p hp => hT p (List.mem_cons_of_mem _ hp)) fun b hb _ => ih b hb⟩
  | gateway s g bs ih =>
      exact ⟨(hT _ List.mem_cons_self).trans h.1, hbranches hfits.2.2 h.2
        (fun p hp => hT p (List.mem_cons_of_mem _ hp)) fun b hb _ => ih b hb⟩
  | loop s body x k ih =>
      obtain ⟨hentry, hexit, hbody⟩ := h
      have hT' : ∀ p ∈ body.ground, T' p = T p := fun p hp => hT p (List.mem_cons_of_mem _ hp)
      exact ⟨(hT _ List.mem_cons_self).trans hentry, (hT' _ (exit_mem_ground _)).trans hexit,
        ih hbody hfits.2.2.2 fun p hp => hT' p (zone_subset_ground _ hp)⟩

end

end Piece

/-! ## What assembling a block amounts to -/

section

variable [Quantity α]

/-- The piece records how the net has grown and what it charges. -/
structure Assembled (acc : α) (b : Builder α) (entry : PlaceId) (built : Built α Layout)
    (P : Piece α) : Prop where
  starts : P.entry = entry
  layout : built.result = P.layout
  stop : P.site.stop = built.builder.next
  growth : Builder.Growth [entry] b built.builder P.added P.transitions
  laid : P.Laid built.builder.net.terms acc
  exit : built.builder.net.terms P.exit = some (.lasting 0)

namespace Assembled

variable {acc : α} {b b' : Builder α} {entry p : PlaceId} {built : Built α Layout} {P : Piece α}
  {n : Nat} {es ps : List PlaceId} {ts : List (Transition α)}

theorem result_exit (h : Assembled acc b entry built P) : built.result.info.exit = P.exit := by
  rw [h.layout, Piece.info_layout_exit]

theorem fits (h : Assembled acc b entry built P) (hproper : P.block.Proper n) :
    P.Fits built.builder.net.limit := by
  rw [Net.limit_eq]
  exact h.laid.fits hproper

/-- The places of the piece are its entry and new ones. -/
theorem ground_perm (h : Assembled acc b entry built P) (hproper : P.block.Proper n) :
    P.ground.Perm (entry :: P.added) := by
  have hperm := (h.fits hproper).ground_perm
  rwa [h.starts] at hperm

theorem ground_old (h : Assembled acc b entry built P) (hproper : P.block.Proper n)
    (hentry : entry ∈ b.places) (hp : p ∈ P.ground) : p ∈ built.builder.places := by
  rcases List.mem_cons.mp ((h.ground_perm hproper).mem_iff.mp hp) with rfl | hp
  · exact h.growth.old hentry
  · exact h.growth.mem_places.mpr (Or.inr hp)

theorem placed (h : Assembled acc b entry built P) (hproper : P.block.Proper n) (hb : b.Tidy)
    (hentry : entry ∈ b.places) : P.Placed built.builder.net.limit := by
  refine ⟨h.fits hproper, (h.ground_perm hproper).nodup_iff.mpr ?_⟩
  have hnodup := (h.growth.tidy hb).nodup
  rw [h.growth.places] at hnodup
  exact List.nodup_cons.mpr
    ⟨h.growth.notMem_of_mem hb hentry, (List.nodup_append.mp hnodup).2.1⟩

theorem exit_mem_added (h : Assembled acc b entry built P) (hproper : P.block.Proper n)
    (hb : b.Tidy) (hentry : entry ∈ b.places) : P.exit ∈ P.added := by
  refine (List.mem_cons.mp ((h.ground_perm hproper).mem_iff.mp P.exit_mem_ground)).resolve_left ?_
  have hne := (h.placed hproper hb hentry).entry_ne_exit
  intro he
  exact hne (h.starts.trans he.symm)

/-- A piece stays laid while other places change. -/
theorem laid_of_growth (h : Assembled acc b entry built P) (hproper : P.block.Proper n)
    (hentry : entry ∈ b.places) (hgrowth : Builder.Growth es built.builder b' ps ts)
    (hes : ∀ p ∈ P.zone, p ∉ es) : P.Laid b'.net.terms acc :=
  h.laid.congr (h.fits hproper) fun p hp =>
    hgrowth.keeps p (h.ground_old hproper hentry (Piece.zone_subset_ground _ hp)) (hes p hp)

/-- Changes to older places other than the entry do not affect the piece. -/
theorem settled (h : Assembled acc b entry built P) (hproper : P.block.Proper n) (hb : b.Tidy)
    (hentry : entry ∈ b.places) (hgrowth : Builder.Growth es built.builder b' ps ts)
    (hes : ∀ p ∈ es, p ∈ b.places ∧ p ≠ entry) :
    P.Laid b'.net.terms acc ∧ b'.net.terms P.exit = some (.lasting 0) := by
  have hout : ∀ p ∈ P.ground, p ∉ es := by
    intro p hp he
    obtain ⟨hold, hne⟩ := hes p he
    rcases List.mem_cons.mp ((h.ground_perm hproper).mem_iff.mp hp) with rfl | hp
    · exact hne rfl
    · exact h.growth.notMem_of_mem hb hold hp
  refine ⟨h.laid_of_growth hproper hentry hgrowth fun p hp => ?_, ?_⟩
  · exact hout p (Piece.zone_subset_ground _ hp)
  · have hexit := Piece.exit_mem_ground P
    rw [hgrowth.keeps _ (h.ground_old hproper hentry hexit) (hout _ hexit), h.exit]

end Assembled

namespace Block

/-- Wherever the block is assembled, it is placed. -/
def Assembles (blk : Block α) : Prop :=
  ∀ (b : Builder α) (entry : PlaceId) (acc : α), b.Tidy →
    b.net.terms entry = some (.lasting acc) →
      ∃ P : Piece α, P.block = blk ∧ Assembled acc b entry (b.assemble entry blk) P

open Builder in
theorem assembles_task (h : Head α) (v : List α) : (Block.task h v).Assembles := by
  intro b entry acc hb hterms
  let entered := b.enter entry .task h
  -- the impacts are charged on the place where the task starts
  let charge : Place α → Place α := fun p => { p with impacts := some v }
  let charged := { entered with dimensions := entered.dimensions.or (some v.length) }.modifyPlace
    entry charge
  have hentered : Growth [entry] b entered [] [] := growth_enter
  have hcharged : Growth [entry] entered charged [] [] :=
    (growth_modifyPlace (f := charge) fun _ => rfl).congr rfl rfl
  have hb' := hcharged.tidy (hentered.tidy hb)
  let P : Piece α := .task ⟨h, b.labelFor .task h, entry, ⟨b.next⟩, b.next, b.next + 2⟩ v
  have hbuilt : Growth [] charged (b.assemble entry (.task h v)).builder P.added P.transitions :=
    (growth_addPlace.trans hb' growth_connect (by simp)).trans hb' growth_finish (by simp)
  have hduration : entered.net.terms entry = some (.lasting (acc + h.duration)) :=
    terms_enter hterms
  have hsite : charged.net.terms entry = some ⟨acc + h.duration, some v, none⟩ :=
    terms_modifyPlace (f := charge) (g := fun t => { t with impacts := some v }) (fun _ => rfl)
      (fun _ => rfl) hduration
  refine ⟨P, rfl, rfl, rfl, rfl, ?_, hbuilt.terms hsite List.not_mem_nil, ?_⟩
  · exact (hentered.trans hb hcharged (by simp)).trans hb hbuilt (by simp)
  · exact growth_finish.terms (growth_connect.terms (terms_addPlace hb') List.not_mem_nil)
      List.not_mem_nil

open Builder in
theorem assembles_sequential {n : Nat} {h : Head α} {one two : Block α}
    (ihone : one.Assembles) (ihtwo : two.Assembles) (hone : one.Proper n) (htwo : two.Proper n) :
    (Block.sequential h one two).Assembles := by
  intro b entry acc hb hterms
  let entered := b.enter entry .sequential h
  have hentered : Growth [entry] b entered [] [] := growth_enter
  have hb₁ := hentered.tidy hb
  have hcharged : entered.net.terms entry = some (.lasting (acc + h.duration)) := terms_enter hterms
  have hentry := mem_places_of_terms hcharged
  -- the own duration has been charged, and the first part starts on top of it
  obtain ⟨P, rfl, hP⟩ := ihone _ _ _ hb₁ hcharged
  let first := entered.assemble entry P.block
  have hjoint : first.result.info.exit = P.exit := hP.result_exit
  have hb₂ : first.builder.Tidy := hP.growth.tidy hb₁
  -- the second part starts where the first one ends
  obtain ⟨Q, rfl, hQ⟩ := ihtwo _ first.result.info.exit _ hb₂ (hjoint ▸ hP.exit)
  let second := first.builder.assemble first.result.info.exit Q.block
  let built := b.assemble entry (.sequential h P.block Q.block)
  have hexit : P.exit ∈ P.added := hP.exit_mem_added hone hb₁ hentry
  have hfinish : Growth [] second.builder built.builder [] [] := growth_finish
  have hrest : Growth [first.result.info.exit] first.builder built.builder Q.added
      Q.transitions := by
    have htrans := hQ.growth.trans hb₂ hfinish (by simp)
    rwa [List.append_nil, List.append_nil] at htrans
  have hbuilt := (hentered.trans hb hP.growth (by simp)).trans hb hrest
    (by simpa using Or.inr (hjoint ▸ hexit))
  refine ⟨.sequential ⟨h, b.labelFor .sequential h, entry, second.result.info.exit, b.next,
    built.builder.next⟩ P Q, rfl, rfl, ?_, rfl, hbuilt, ⟨⟨hP.starts, ?_, ?_⟩, ?_, ?_⟩, ?_⟩
  · exact congrArg₂ (fun one two => Layout.node _ [one, two]) hP.layout hQ.layout
  · exact hQ.starts.trans hjoint
  · exact hQ.result_exit.symm
  · apply hP.laid_of_growth hone hentry hrest
    intro p hp he
    exact (hP.placed hone hb₁ hentry).ne_exit hp ((List.mem_singleton.mp he).trans hjoint)
  · exact hQ.laid_of_growth htwo (mem_places_of_terms (hjoint ▸ hP.exit)) hfinish (by simp)
  · exact hfinish.terms (hQ.result_exit ▸ hQ.exit) List.not_mem_nil

end Block

/-- The pieces record how the net has grown by several blocks. -/
structure AssembledAll (es : List PlaceId) (b : Builder α) (built : Built α (List Layout))
    (ps : List PlaceId) (ts : List (Transition α)) (Ps : List (Piece α)) : Prop where
  layouts : built.result = Piece.layouts Ps
  growth : Builder.Growth es b built.builder ps ts
  laid : Piece.AllLaid built.builder.net.terms Ps

namespace Block

open Builder in
theorem assembles_all {n : Nat} {blks : List (Block α)} (ih : ∀ blk ∈ blks, blk.Assembles)
    (hproper : ∀ blk ∈ blks, blk.Proper n) : ∀ {b : Builder α} {start : Nat}, b.Tidy →
      (∀ i < blks.length, b.net.terms ⟨start + i⟩ = some (.lasting 0)) →
      ∃ Ps : List (Piece α), Piece.blocks Ps = blks ∧
        Ps.map Piece.entry = (List.range blks.length).map (fun i => ⟨start + i⟩) ∧
        AssembledAll (Ps.map Piece.entry) b (b.assembleAll start blks) (Piece.addedAll Ps)
          (Piece.transitionsAll Ps) Ps := by
  induction blks with
  | nil =>
      intro b start hb _
      exact ⟨[], rfl, rfl, rfl, .of_places rfl rfl rfl fun _ _ _ => rfl, trivial⟩
  | cons blk blks ihall =>
      intro b start hb hterms
      have hstart := hterms 0 (Nat.zero_lt_succ _)
      have hentry := mem_places_of_terms hstart
      obtain ⟨P, rfl, hP⟩ := ih blk List.mem_cons_self _ _ _ hb hstart
      have hlater : ∀ i < blks.length, b.net.terms ⟨start + 1 + i⟩ = some (.lasting 0) := by
        intro i hi
        have hi' := hterms (i + 1) (Nat.succ_lt_succ hi)
        rwa [show start + (i + 1) = start + 1 + i by omega] at hi'
      have hne : ∀ i, (⟨start + 1 + i⟩ : PlaceId) ≠ ⟨start⟩ := by
        intro i he
        have hindex := congrArg PlaceId.index he
        change start + 1 + i = start at hindex
        omega
      -- the first branch leaves the starts of the others as they are
      obtain ⟨Ps, rfl, hentries, hPs⟩ := ihall (fun blk hb => ih blk (List.mem_cons_of_mem _ hb))
        (fun blk hb => hproper blk (List.mem_cons_of_mem _ hb)) (hP.growth.tidy hb)
        fun i hi => hP.growth.terms (hlater i hi) fun he => hne i (List.mem_singleton.mp he)
      have hothers : ∀ p ∈ Ps.map Piece.entry, p ∈ b.places ∧ p ≠ ⟨start⟩ := by
        intro p hp
        rw [hentries] at hp
        obtain ⟨i, hi, rfl⟩ := List.mem_map.mp hp
        exact ⟨mem_places_of_terms (hlater i (List.mem_range.mp hi)), hne i⟩
      refine ⟨P :: Ps, rfl, ?_, ⟨congrArg₂ List.cons hP.layout hPs.layouts, ?_, ?_⟩⟩
      · rw [List.map_cons, hentries, hP.starts, List.length_cons, List.range_succ_eq_map,
          List.map_cons, List.map_map]
        refine congrArg _ (List.map_congr_left ?_)
        intro i _
        simp only [Function.comp_apply, Nat.succ_eq_add_one, Nat.add_assoc, Nat.add_comm 1]
      · have hhead : [(⟨start⟩ : PlaceId)] ⊆ (P :: Ps).map Piece.entry := by simp [hP.starts]
        refine (hP.growth.weaken hhead).trans hb hPs.growth fun p hp => Or.inl ?_
        exact List.mem_cons_of_mem _ hp
      · have hhere := hproper _ List.mem_cons_self
        exact ⟨hP.settled hhere hb hentry hPs.growth hothers, hPs.laid⟩

open Builder in
theorem assembles_parallel {n : Nat} {h : Head α} {blks : List (Block α)}
    (ih : ∀ blk ∈ blks, blk.Assembles) (hproper : ∀ blk ∈ blks, blk.Proper n) :
    (Block.parallel h blks).Assembles := by
  intro b entry acc hb hterms
  let label := b.labelFor .parallel h
  let entered := b.enter entry .parallel h
  let starts := (List.range blks.length).map fun i => PlaceId.mk (b.next + i)
  let forked := (entered.addPlaces blks.length).connect .parallel h
    { role := .fork, label := "Fork " ++ label, probability := 1, inputs := [entry],
      outputs := starts }
  let all := forked.assembleAll b.next blks
  let built := b.assemble entry (.parallel h blks)
  have hentered : Growth [entry] b entered [] [] := growth_enter
  have hb₁ := hentered.tidy hb
  have hcharged : entered.net.terms entry = some (.lasting (acc + h.duration)) := terms_enter hterms
  obtain ⟨hadded, hnew⟩ := growth_addPlaces blks.length hb₁
  have hb₂ : forked.Tidy := growth_connect.tidy (hadded.tidy hb₁)
  obtain ⟨Ps, rfl, hentries, hPs⟩ := assembles_all ih hproper hb₂ hnew
  have hb₃ : all.builder.Tidy := hPs.growth.tidy hb₂
  let s : Site α := ⟨h, label, entry, all.builder.newPlace, b.next, built.builder.next⟩
  -- the fork leads to the starts of the branches, the join comes from their ends
  have hforked : Growth [] entered forked (Ps.map Piece.entry) [s.fork Ps] := by
    have hlength : (Piece.blocks Ps).length = Ps.length := by
      rw [Piece.blocks_eq_map, List.length_map]
    refine (hadded.trans hb₁ growth_connect (by simp)).cast ?_ ?_
    · rw [List.append_nil]
      exact hentries.symm
    · rw [List.nil_append, next_addPlaces, Site.fork, hentries, ← hlength]
      rfl
  have hjoined : Growth [] all.builder built.builder [s.exit] [s.join Ps] := by
    refine ((growth_addPlace.trans hb₃ growth_connect (by simp)).trans hb₃ growth_finish
      (by simp)).cast rfl ?_
    have hexits : all.result.map (·.info.exit) = Ps.map Piece.exit := by
      have hlayouts : all.result = Piece.layouts Ps := hPs.layouts
      rw [hlayouts, Piece.layouts_eq_map, List.map_map]
      exact List.map_congr_left fun P _ => P.info_layout_exit
    rw [Site.join, ← hexits]
    rfl
  have hbranches := (hforked.trans hb₁ hPs.growth fun p hp => Or.inr hp).trans hb₁ hjoined (by simp)
  have hsite := hbranches.terms hcharged List.not_mem_nil
  refine ⟨.parallel s Ps, rfl, rfl, congrArg (Layout.node _) hPs.layouts, rfl, ?_, ⟨hsite, ?_⟩, ?_⟩
  · exact (hentered.trans hb hbranches (by simp)).cast (by simp [Piece.added])
      (by simp [Piece.transitions])
  · exact hPs.laid.mono fun ht => hjoined.terms ht List.not_mem_nil
  · exact growth_finish.terms (growth_connect.terms (terms_addPlace hb₃) List.not_mem_nil)
      List.not_mem_nil

open Builder in
theorem assembles_loop {n : Nat} {h : Head α} {body : Block α} {x : α} {k : Nat}
    (ih : body.Assembles) (hproper : body.Proper n) : (Block.loop h body x k).Assembles := by
  intro b entry acc hb hterms
  let label := b.labelFor .loop h
  let entered := b.enter entry .loop h
  let start := entered.newPlace
  let opened := entered.addPlace.connect .loop h
    { role := .loopEntry, label := "Entry " ++ label, probability := 1, inputs := [entry],
      outputs := [start] }
  let inner := opened.assemble start body
  let bound : Place α → Place α := fun p => { p with visitLimit := some k }
  let limited := inner.builder.modifyPlace inner.result.info.exit bound
  let built := b.assemble entry (.loop h body x k)
  have hentered : Growth [entry] b entered [] [] := growth_enter
  have hb₁ := hentered.tidy hb
  have hcharged : entered.net.terms entry = some (.lasting (acc + h.duration)) := terms_enter hterms
  have hopened : Growth [] entered opened [start] _ :=
    growth_addPlace.trans hb₁ growth_connect (by simp)
  have hb₂ := hopened.tidy hb₁
  have hstart : opened.net.terms start = some (.lasting 0) :=
    growth_connect.terms (terms_addPlace hb₁) List.not_mem_nil
  have hstartmem := mem_places_of_terms hstart
  obtain ⟨P, rfl, hP⟩ := ih _ _ _ hb₂ hstart
  have hb₃ : inner.builder.Tidy := hP.growth.tidy hb₂
  have hstop : inner.result.info.exit = P.exit := hP.result_exit
  -- the bound is set on the place where the body ends, after the body was assembled
  have hlimited : Growth [inner.result.info.exit] inner.builder limited [] [] :=
    growth_modifyPlace (f := bound) fun _ => rfl
  have hb₄ := hlimited.tidy hb₃
  have hlimit : limited.net.terms P.exit = some ⟨0, none, some k⟩ := by
    refine hstop ▸ terms_modifyPlace (f := bound) (g := fun t => { t with limit := some k })
      (fun _ => rfl) (fun _ => rfl) (hstop ▸ hP.exit)
  -- back resets all places from the start of the body on: these are the places of the body
  have hplaces : limited.places = entered.places ++ start :: P.added := by
    rw [hlimited.places, hP.growth.places, hopened.places]
    simp
  let s : Site α := ⟨h, label, entry, limited.newPlace, b.next, built.builder.next⟩
  have hbegun : Growth [] entered opened [P.entry] [s.enter P] := by
    refine hopened.cast (by rw [hP.starts]) ?_
    rw [Site.enter, hP.starts]
    rfl
  have hended : Growth [] limited built.builder [s.exit] [s.back P x, s.leave P x] := by
    refine (((growth_addPlace.trans hb₄ growth_connect (by simp)).trans hb₄ growth_connect
      (by simp)).trans hb₄ growth_finish (by simp)).cast rfl ?_
    rw [Site.back, Site.leave, hP.starts, ← hstop, ← placesFrom_eq hb₄ hplaces]
    rfl
  have hexit : inner.result.info.exit ∈ P.added :=
    hstop ▸ hP.exit_mem_added hproper hb₂ hstartmem
  have hround := (hP.growth.trans hb₂ hlimited (by simp [hexit])).trans hb₂ hended (by simp)
  have hbuilt := hbegun.trans hb₁ hround (by simp [hP.starts])
  have hsite := hbuilt.terms hcharged List.not_mem_nil
  refine ⟨.loop s P x k, rfl, rfl, ?_, rfl, ?_, ⟨hsite, ?_, ?_⟩, ?_⟩
  · exact congrArg (fun l => Layout.node _ [l]) hP.layout
  · exact (hentered.trans hb hbuilt (by simp)).cast (by simp [Piece.added])
      (by simp [Piece.transitions])
  · exact hended.terms hlimit List.not_mem_nil
  · refine (hP.laid_of_growth hproper hstartmem hlimited fun p hp he => ?_).mono fun ht =>
      hended.terms ht List.not_mem_nil
    exact (hP.placed hproper hb₂ hstartmem).ne_exit hp ((List.mem_singleton.mp he).trans hstop)
  · exact growth_finish.terms (growth_connect.terms (growth_connect.terms (terms_addPlace hb₄)
      List.not_mem_nil) List.not_mem_nil) List.not_mem_nil

open Builder in
theorem assembles_branches {n : Nat} {blks : List (Block α)} {s : Site α} {g : Gate α}
    (ih : ∀ blk ∈ blks, blk.Assembles) (hproper : ∀ blk ∈ blks, blk.Proper n) :
    ∀ {b : Builder α} {i : Nat}, b.Tidy →
      ∃ Ps : List (Piece α), Piece.blocks Ps = blks ∧
        AssembledAll [] b
          (b.assembleBranches g.kind s.head s.label s.entry s.exit g.odds i blks)
          (Piece.addedArms Ps) (Piece.arms s g i Ps) Ps := by
  induction blks with
  | nil =>
      intro b i _
      exact ⟨[], rfl, rfl, .of_places rfl rfl rfl fun _ _ _ => rfl, trivial⟩
  | cons blk blks ihall =>
      intro b i hb
      let start := b.newPlace
      let opened := b.addPlace.connect g.kind s.head
        { role := .branchEntry, label := branchLabel blk.head, probability := g.odds i,
          stop := true, branch := some i, inputs := [s.entry], outputs := [start] }
      have hopened : Growth [] b opened [start] _ :=
        growth_addPlace.trans hb growth_connect (by simp)
      have hb₁ := hopened.tidy hb
      have hstart : opened.net.terms start = some (.lasting 0) :=
        growth_connect.terms (terms_addPlace hb) List.not_mem_nil
      have hstartmem := mem_places_of_terms hstart
      have hhere := hproper _ List.mem_cons_self
      obtain ⟨P, rfl, hP⟩ := ih blk List.mem_cons_self _ _ _ hb₁ hstart
      let one := opened.assemble start P.block
      let merged := one.builder.connect g.kind s.head
        { role := .branchExit, label := "Merge " ++ s.label, probability := 1, branch := some i,
          inputs := [one.result.info.exit], outputs := [s.exit] }
      have hb₂ := hP.growth.tidy hb₁
      -- around the branch stand a pick and a merge
      have hpicked : Growth [] b opened [P.entry] [s.pick g i P] := by
        refine hopened.cast (by rw [hP.starts]) ?_
        rw [Site.pick, hP.starts, Piece.head_block]
        rfl
      have hmerged : Growth [] one.builder merged [] [s.merge g i P] := by
        apply growth_connect.cast rfl
        rw [Site.merge, hP.stop, ← hP.result_exit]
      obtain ⟨Ps, rfl, hPs⟩ := ihall (fun blk hb => ih blk (List.mem_cons_of_mem _ hb))
        (fun blk hb => hproper blk (List.mem_cons_of_mem _ hb)) (hmerged.tidy hb₂) (i := i + 1)
      have hrest := hmerged.trans hb₂ hPs.growth (by simp)
      refine ⟨P :: Ps, rfl, congrArg₂ List.cons hP.layout hPs.layouts, ?_, ?_, hPs.laid⟩
      · refine (hpicked.trans hb (hP.growth.trans hb₁ hrest (by simp)) ?_).cast rfl rfl
        simp [hP.starts]
      · exact hP.settled hhere hb₁ hstartmem hrest (by simp)

open Builder in
theorem assembles_gateway {n : Nat} {h : Head α} {g : Gate α} {blks : List (Block α)}
    (ih : ∀ blk ∈ blks, blk.Assembles) (hproper : ∀ blk ∈ blks, blk.Proper n) :
    (g.block h blks).Assembles := by
  intro b entry acc hb hterms
  let label := b.labelFor g.kind h
  let entered := b.enter entry g.kind h
  let exit := entered.newPlace
  let all := entered.addPlace.assembleBranches g.kind h label entry exit g.odds 0 blks
  let built := all.builder.finish g.kind h label entry exit all.result
  have hentered : Growth [entry] b entered [] [] := growth_enter
  have hb₁ := hentered.tidy hb
  have hcharged : entered.net.terms entry = some (.lasting (acc + h.duration)) := terms_enter hterms
  let s : Site α := ⟨h, label, entry, exit, b.next, built.builder.next⟩
  have hb₂ := growth_addPlace.tidy hb₁
  obtain ⟨Ps, rfl, hPs⟩ := assembles_branches (s := s) (g := g) ih hproper hb₂ (i := 0)
  have hbuilt : b.assemble entry (g.block h (Piece.blocks Ps)) = built := by
    cases g <;> rfl
  rw [hbuilt]
  have hrest : Growth [] entered.addPlace built.builder (Piece.addedArms Ps)
      (Piece.arms s g 0 Ps) :=
    (hPs.growth.trans hb₂ growth_finish (by simp)).cast (by simp) (by simp)
  have hbranches := growth_addPlace.trans hb₁ hrest (by simp)
  have hsite := hbranches.terms hcharged List.not_mem_nil
  refine ⟨.gateway s g Ps, rfl, rfl, congrArg (Layout.node _) hPs.layouts, rfl, ?_, ⟨hsite, ?_⟩, ?_⟩
  · exact hentered.trans hb hbranches (by simp)
  · exact hPs.laid.mono fun ht => growth_finish.terms ht List.not_mem_nil
  · exact hrest.terms (terms_addPlace hb₁) List.not_mem_nil

/-- A proper block is placed wherever it is assembled. -/
theorem assembles {n : Nat} (blk : Block α) (hproper : blk.Proper n) : blk.Assembles := by
  have hall : ∀ {blks : List (Block α)}, AllProper n blks →
      (∀ blk ∈ blks, blk.Proper n → blk.Assembles) → ∀ blk ∈ blks, blk.Assembles :=
    fun hblks ih blk hblk => ih blk hblk (allProper_iff.mp hblks blk hblk)
  induction blk using Block.ind with
  | task h v => exact assembles_task h v
  | sequential h one two ihone ihtwo =>
      obtain ⟨hone, htwo⟩ := hproper
      exact assembles_sequential (ihone hone) (ihtwo htwo) hone htwo
  | parallel h bs ih =>
      exact assembles_parallel (hall hproper.2 ih) (allProper_iff.mp hproper.2)
  | choice h bs ps ih =>
      obtain ⟨-, -, hbs⟩ := hproper
      exact assembles_gateway (g := .choice ps) (hall hbs ih) (allProper_iff.mp hbs)
  | nature h bs ps ih =>
      obtain ⟨-, -, hbs⟩ := hproper
      exact assembles_gateway (g := .nature ps) (hall hbs ih) (allProper_iff.mp hbs)
  | loop h body x k ih => exact assembles_loop (ih hproper.2) hproper.2

end Block

/-! ## The length of impact vectors -/

namespace Builder

/-- If a length of impact vectors is known, it is `n`. -/
def Knows (n : Nat) (b : Builder α) : Prop := ∀ d ∈ b.dimensions, d = n

omit [Quantity α] in
theorem Knows.of_eq {n : Nat} {b : Builder α} (h : b.dimensions = some n) : b.Knows n := by
  intro d hd
  rw [h] at hd
  exact (Option.some.inj hd).symm

theorem dimensions_addPlaces (n : Nat) :
    ∀ b : Builder α, (b.addPlaces n).dimensions = b.dimensions := by
  induction n with
  | zero => exact fun _ => rfl
  | succ n ih => exact fun b => ih b.addPlace

/-- Once a proper block has been assembled, the length of its impact vectors is known. -/
def Learns (n : Nat) (blk : Block α) : Prop :=
  ∀ (b : Builder α) (entry : PlaceId), b.Knows n →
    (b.assemble entry blk).builder.dimensions = some n

theorem dimensions_assembleAll {n : Nat} {blks : List (Block α)} (ih : ∀ blk ∈ blks, Learns n blk) :
    ∀ (b : Builder α) (start : Nat), b.Knows n → blks ≠ [] →
      (b.assembleAll start blks).builder.dimensions = some n := by
  induction blks with
  | nil => exact fun _ _ _ hne => absurd rfl hne
  | cons blk blks ihall =>
      intro b start hb _
      have hone := ih blk List.mem_cons_self b ⟨start⟩ hb
      cases blks with
      | nil => exact hone
      | cons c cs =>
          exact ihall (fun d hd => ih d (List.mem_cons_of_mem _ hd)) _ _ (.of_eq hone)
            (List.cons_ne_nil _ _)

theorem dimensions_assembleBranches {n : Nat} {blks : List (Block α)} {kind : Kind} {h : Head α}
    {label : String} {entry exit : PlaceId} {odds : Nat → α} (ih : ∀ blk ∈ blks, Learns n blk) :
    ∀ (b : Builder α) (i : Nat), b.Knows n → blks ≠ [] →
      (b.assembleBranches kind h label entry exit odds i blks).builder.dimensions = some n := by
  induction blks with
  | nil => exact fun _ _ _ hne => absurd rfl hne
  | cons blk blks ihall =>
      intro b i hb _
      let opened := b.addPlace.connect kind h
        { role := .branchEntry, label := branchLabel blk.head, probability := odds i, stop := true,
          branch := some i, inputs := [entry], outputs := [b.newPlace] }
      have hone := ih blk List.mem_cons_self opened b.newPlace hb
      cases blks with
      | nil => exact hone
      | cons c cs =>
          exact ihall (fun d hd => ih d (List.mem_cons_of_mem _ hd)) _ _ (.of_eq hone)
            (List.cons_ne_nil _ _)

theorem learns {n : Nat} (blk : Block α) (hproper : blk.Proper n) : Learns n blk := by
  have hne : ∀ {bs : List (Block α)}, 2 ≤ bs.length → bs ≠ [] := by
    rintro _ htwo rfl
    exact Nat.not_succ_le_zero 1 htwo
  induction blk using Block.ind with
  | task h v =>
      intro b entry hb
      show b.dimensions.or (some v.length) = some n
      cases hd : b.dimensions with
      | none => exact congrArg some hproper
      | some d => exact congrArg some (hb d hd)
  | sequential h one two ihone ihtwo =>
      intro b entry hb
      exact ihtwo hproper.2 _ _ (.of_eq (ihone hproper.1 _ _ hb))
  | parallel h bs ih =>
      intro b entry hb
      obtain ⟨htwo, hall⟩ := hproper
      refine dimensions_assembleAll
        (fun blk hblk => ih blk hblk (Block.allProper_iff.mp hall _ hblk))
        _ _ ?_ (hne htwo)
      intro d hd
      exact hb d ((dimensions_addPlaces bs.length (b.enter entry .parallel h)).symm.trans hd)
  | choice h bs ps ih =>
      intro b entry hb
      obtain ⟨htwo, -, hall⟩ := hproper
      exact dimensions_assembleBranches
        (fun blk hblk => ih blk hblk (Block.allProper_iff.mp hall _ hblk)) _ _ hb (hne htwo)
  | nature h bs ps ih =>
      intro b entry hb
      obtain ⟨htwo, -, hall⟩ := hproper
      exact dimensions_assembleBranches
        (fun blk hblk => ih blk hblk (Block.allProper_iff.mp hall _ hblk)) _ _ hb (hne htwo)
  | loop h body x k ih =>
      intro b entry hb
      exact ih hproper.2 _ _ hb

end Builder

theorem Workflow.dimensions_ofBlock {n : Nat} {blk : Block α} (hproper : blk.Proper n) :
    (Workflow.ofBlock blk).dimensions = n := by
  let b : Builder α := .empty
  have hlearnt := Builder.learns blk hproper b.addPlace b.newPlace fun d hd => by cases hd
  show Option.getD _ 0 = n
  rw [hlearnt]
  rfl

/-! ## Compiled processes -/

/-- The piece that a workflow consists of. -/
structure Workflow.Consists (w : Workflow α) (P : Piece α) : Prop where
  laid : P.Laid w.net.terms 0
  placed : P.Placed w.net.limit
  places : w.net.places.map Place.id = P.entry :: P.added
  transitions : w.net.transitions = P.transitions
  numbered : (w.net.transitions.map Transition.id).Pairwise fun t u => t.index < u.index
  ordered : (w.net.places.map Place.id).Pairwise fun p q => p.index < q.index
  layout : w.layout = P.layout
  initial : w.initial = .withTokens w.net [(P.entry, 1)]
  final : w.final = .withTokens w.net [(P.exit, 1)]
  unlimited : w.net.limit P.exit = none

/-- The net of a compiled process consists of one piece. -/
theorem Workflow.exists_piece {n : Nat} {blk : Block α} (hproper : blk.Proper n) :
    ∃ P : Piece α, P.block = blk ∧ (Workflow.ofBlock blk).Consists P := by
  let b : Builder α := .empty
  have hempty : b.Tidy := ⟨.nil, fun _ h => absurd h List.not_mem_nil, .nil,
    fun _ h => absurd h List.not_mem_nil⟩
  have hstart := Builder.growth_addPlace (b := b)
  have hb := hstart.tidy hempty
  have hterms := Builder.terms_addPlace hempty
  obtain ⟨P, rfl, hP⟩ := blk.assembles hproper _ _ _ hb hterms
  have htidy := hP.growth.tidy hb
  refine ⟨P, rfl, hP.laid, hP.placed hproper hb (Builder.mem_places_of_terms hterms), ?_, ?_,
    htidy.transitions, htidy.places, hP.layout, ?_, ?_, ?_⟩
  · rw [hP.starts]
    exact hP.growth.places
  · exact hP.growth.transitions
  · rw [hP.starts]
    rfl
  · rw [← hP.result_exit]
    rfl
  · rw [Net.limit_eq]
    exact limitIn_of_eq hP.exit

end

end RegionNet
