import RegionNet.Proofs.Preorder

/-!
# What assembling writes on places

While a net is assembled its places are changed where regions start and end, where tasks work and
where loops are decided. `Piece.changes` lists the changes that come from a piece in the order in
which they are made, and every place of a net is what these changes make of a bare place
(`Workflow.Consists.recorded`). A field of a place is therefore determined by those changes that
write it (`Change.field_replay`).

The numbers of places and transitions come from one counter. So all numbers below the next one are
in use, and each of them once (`Builder.Counted`).
-/

namespace RegionNet

variable {α : Type}

/-- A change that assembling a net makes to a place. -/
inductive Change (α : Type) where
  /-- A region starts here. -/
  | start (h : Head α)
  /-- The region that starts here is a task with these impacts. -/
  | work (impacts : List α)
  /-- A loop with this bound is decided here. -/
  | bound (n : Nat)
  /-- A region ends here. -/
  | finish (h : Head α)

namespace Change

variable {β γ : Type} {note : Change α → Option γ} {p : PlaceId} {cs ds : List (PlaceId × Change α)}

/-- What the changes at a place say of one kind. -/
def notes (note : Change α → Option γ) (p : PlaceId) (cs : List (PlaceId × Change α)) : List γ :=
  cs.filterMap fun c => if c.1 = p then note c.2 else none

@[simp]
theorem notes_nil : notes note p [] = [] := rfl

theorem notes_append : notes note p (cs ++ ds) = notes note p cs ++ notes note p ds :=
  List.filterMap_append

theorem notes_cons {q : PlaceId} {c : Change α} :
    notes note p ((q, c) :: cs) = (if q = p then (note c).toList else []) ++ notes note p cs := by
  unfold notes
  rw [List.filterMap_cons]
  by_cases hq : q = p <;> cases note c <;> simp [hq]

variable [Quantity α]

def apply : Change α → Place α → Place α
  | start h, q => Builder.startAt h q
  | work v, q => { q with impacts := some v }
  | bound n, q => { q with visitLimit := some n }
  | finish h, q => { q with exitOf := some h.id }

theorem id_apply (c : Change α) (q : Place α) : (c.apply q).id = q.id := by
  cases c <;> rfl

/-- What a list of changes makes of a place. -/
def replay (cs : List (PlaceId × Change α)) (q : Place α) : Place α :=
  cs.foldl (fun q c => if c.1 = q.id then c.2.apply q else q) q

theorem replay_append (q : Place α) : replay (cs ++ ds) q = replay ds (replay cs q) :=
  List.foldl_append

/-- A field of a place is written by the changes that take note of it, one after the other. -/
theorem field_replay (note : Change α → Option γ) (field : Place α → β) (write : β → γ → β)
    (h : ∀ c q, field (c.apply q) = ((note c).elim (field q) (write (field q))))
    (cs : List (PlaceId × Change α)) : ∀ q,
      field (replay cs q) = (notes note q.id cs).foldl write (field q) := by
  induction cs with
  | nil => exact fun _ => rfl
  | cons c cs ih =>
      obtain ⟨p, c⟩ := c
      intro q
      show field (replay cs (if p = q.id then c.apply q else q)) = _
      rw [ih, notes_cons]
      by_cases hp : p = q.id
      · rw [if_pos hp, if_pos hp, id_apply, h, List.foldl_append]
        cases note c <;> rfl
      · rw [if_neg hp, if_neg hp, List.nil_append]

end Change

namespace Piece

mutual

/-- The changes to places that come from a piece, in the order in which they are made. -/
def changes : Piece α → List (PlaceId × Change α)
  | .task s v => [(s.entry, .start s.head), (s.entry, .work v), (s.exit, .finish s.head)]
  | .sequential s one two =>
    (s.entry, .start s.head) :: (one.changes ++ two.changes ++ [(s.exit, .finish s.head)])
  | .parallel s bs => (s.entry, .start s.head) :: (changesAll bs ++ [(s.exit, .finish s.head)])
  | .gateway s _ bs => (s.entry, .start s.head) :: (changesAll bs ++ [(s.exit, .finish s.head)])
  | .loop s body _ n =>
    (s.entry, .start s.head) ::
      (body.changes ++ [(body.exit, .bound n), (s.exit, .finish s.head)])

def changesAll : List (Piece α) → List (PlaceId × Change α)
  | [] => []
  | b :: bs => b.changes ++ changesAll bs

end

theorem changesAll_eq_flatMap (bs : List (Piece α)) : changesAll bs = bs.flatMap changes := by
  induction bs with
  | nil => rfl
  | cons b bs ih => rw [changesAll, ih, List.flatMap_cons]

end Piece

variable [Quantity α]

/-! ## The changes of a builder -/

namespace Builder

variable {b b' b'' : Builder α} {cs cs' : List (PlaceId × Change α)} {p : PlaceId}

/-- The place with this number; a bare one if there is none yet. -/
def placeAt (b : Builder α) (p : PlaceId) : Place α := (b.net.place? p).getD (bare p)

theorem id_placeAt (b : Builder α) (p : PlaceId) : (b.placeAt p).id = p := by
  unfold placeAt
  cases hq : b.net.place? p with
  | none => rfl
  | some q => exact Net.place?_id hq

omit [Quantity α] in
theorem isSome_place? (hp : p ∈ b.places) : (b.net.place? p).isSome := by
  obtain ⟨q, hq, hid⟩ := List.mem_map.mp hp
  exact List.find?_isSome.mpr ⟨q, hq, by simpa using hid⟩

/-- All numbers below the next one are in use, each of them once. -/
def Counted (b : Builder α) : Prop :=
  (b.places.map PlaceId.index ++ b.net.transitions.map (·.id.index)).Perm (List.range b.next)

/-- From one builder to another the changes `cs` were made, and no place was lost. -/
structure Records (b b' : Builder α) (cs : List (PlaceId × Change α)) : Prop where
  places : b.places ⊆ b'.places
  replayed : ∀ p, b'.placeAt p = Change.replay cs (b.placeAt p)
  counted : b.Counted → b'.Counted

namespace Records

theorem trans (h : Records b b' cs) (h' : Records b' b'' cs') : Records b b'' (cs ++ cs') where
  places := List.Subset.trans h.places h'.places
  replayed p := by rw [h'.replayed, h.replayed, Change.replay_append]
  counted hb := h'.counted (h.counted hb)

/-- Only the net and the next number matter. -/
theorem congr (h : Records b b' cs) (hnet : b''.net = b'.net) (hnext : b''.next = b'.next) :
    Records b b'' cs := by
  have hplaces : b''.places = b'.places := congrArg (fun net => net.places.map Place.id) hnet
  refine ⟨hplaces ▸ h.places, fun p => ?_, fun hb => ?_⟩
  · rw [placeAt, hnet]
    exact h.replayed p
  · rw [Counted, hplaces, hnet, hnext]
    exact h.counted hb

end Records

theorem records_refl : Records b b [] := ⟨List.Subset.refl _, fun _ => rfl, id⟩

theorem records_modifyPlace (hp : p ∈ b.places) (c : Change α) :
    Records b (b.modifyPlace p c.apply) [(p, c)] where
  places := by
    rw [places_modifyPlace c.id_apply]
    exact List.Subset.refl _
  replayed q := by
    show _ = if p = (b.placeAt q).id then c.apply (b.placeAt q) else b.placeAt q
    rw [id_placeAt]
    unfold placeAt
    rw [place?_modifyPlace c.id_apply]
    by_cases hq : p = q
    · subst hq
      obtain ⟨r, hr⟩ := Option.isSome_iff_exists.mp (isSome_place? hp)
      rw [if_pos rfl, if_pos rfl, hr]
      rfl
    · rw [if_neg hq, if_neg fun he => hq he.symm]
  counted := by
    unfold Counted
    rw [places_modifyPlace c.id_apply]
    exact id

theorem records_enter (hp : p ∈ b.places) (kind : Kind) (h : Head α) :
    Records b (b.enter p kind h) [(p, .start h)] :=
  (records_modifyPlace hp (.start h)).congr rfl rfl

theorem records_finish (hp : p ∈ b.places) (kind : Kind) (h : Head α) (label : String)
    (entry : PlaceId) (children : List Layout) :
    Records b (b.finish kind h label entry p children).builder [(p, .finish h)] :=
  records_modifyPlace hp (.finish h)

theorem records_addPlace (b : Builder α) : Records b b.addPlace [] where
  places := by
    have hplaces : b.addPlace.places = b.places ++ [b.newPlace] := growth_addPlace.places
    rw [hplaces]
    exact List.subset_append_left _ _
  replayed p := by
    show b.addPlace.placeAt p = b.placeAt p
    unfold placeAt Net.place? addPlace
    rw [List.find?_append]
    cases b.net.places.find? (·.id = p) with
    | some q => rfl
    | none =>
        -- a new place is bare, like one that is not there
        by_cases hp : b.newPlace = p <;> simp [bare, hp]
  counted h := by
    have hplaces : b.addPlace.places = b.places ++ [b.newPlace] := growth_addPlace.places
    show (b.addPlace.places.map _ ++ b.net.transitions.map _).Perm (List.range (b.next + 1))
    rw [hplaces, List.map_append, List.range_succ, List.append_assoc]
    exact (List.perm_append_comm.append_left _).trans
      (by rw [← List.append_assoc]; exact h.append_right _)

theorem newPlace_mem (b : Builder α) : b.newPlace ∈ b.addPlace.places := by
  have hplaces : b.addPlace.places = b.places ++ [b.newPlace] := growth_addPlace.places
  rw [hplaces]
  exact List.mem_append_right _ (List.mem_singleton_self _)

theorem records_addPlaces (n : Nat) : ∀ b : Builder α, Records b (b.addPlaces n) [] ∧
    ∀ i < n, (⟨b.next + i⟩ : PlaceId) ∈ (b.addPlaces n).places := by
  induction n with
  | zero => exact fun _ => ⟨records_refl, fun i hi => absurd hi (Nat.not_lt_zero i)⟩
  | succ n ih =>
      intro b
      obtain ⟨hrest, hnew⟩ := ih b.addPlace
      refine ⟨(records_addPlace b).trans hrest, fun i hi => ?_⟩
      cases i with
      | zero => exact hrest.places b.newPlace_mem
      | succ i =>
          have hnext : b.addPlace.next = b.next + 1 := rfl
          have hi' := hnew i (Nat.lt_of_succ_lt_succ hi)
          rwa [hnext, Nat.add_assoc, Nat.add_comm 1] at hi'

theorem records_connect (b : Builder α) (kind : Kind) (h : Head α) (w : Wiring α) :
    Records b (b.connect kind h w) [] where
  places := List.Subset.refl _
  replayed _ := rfl
  counted hb := by
    have hgrowth : Growth [] b (b.connect kind h w) [] [w.transition b.next kind h] :=
      growth_connect
    show (b.places.map _ ++ (b.connect kind h w).net.transitions.map _).Perm
      (List.range (b.next + 1))
    rw [hgrowth.transitions, List.map_append, List.range_succ, ← List.append_assoc]
    exact hb.append_right _

end Builder

/-! ## The changes of a piece -/

namespace Piece

open Builder

/-- Wherever the block of the piece is assembled to the piece, the changes of the piece are made. -/
def Recorded (P : Piece α) : Prop :=
  ∀ (b : Builder α) (entry : PlaceId), entry ∈ b.places →
    (b.assemble entry P.block).result = P.layout →
      Records b (b.assemble entry P.block).builder P.changes ∧
        P.exit ∈ (b.assemble entry P.block).builder.places

theorem recorded_task (s : Site α) (v : List α) : (Piece.task s v).Recorded := by
  intro b entry hentry hlayout
  obtain ⟨h, label, start, exit, first, stop⟩ := s
  obtain rfl : start = entry := congrArg (fun l => l.info.entry) hlayout.symm
  obtain rfl : exit = b.newPlace := congrArg (fun l => l.info.exit) hlayout.symm
  let entered := b.enter start .task h
  let learnt := { entered with dimensions := entered.dimensions.or (some v.length) }
  let charged := learnt.modifyPlace start (Change.work v).apply
  have hentered : Records b learnt [(start, .start h)] :=
    (records_enter hentry .task h).congr rfl rfl
  have hcharged : Records learnt charged [(start, .work v)] :=
    records_modifyPlace (hentered.places hentry) (.work v)
  have hconnected := records_connect charged.addPlace .task h
    { role := .task, label := b.labelFor .task h, probability := 1, inputs := [start],
      outputs := [b.newPlace] }
  have hnew := hconnected.places charged.newPlace_mem
  have hfinished := records_finish hnew .task h (b.labelFor .task h) start []
  exact ⟨((hentered.trans hcharged).trans ((records_addPlace charged).trans hconnected)).trans
    hfinished, hfinished.places hnew⟩

theorem recorded_sequential {s : Site α} {P Q : Piece α} (ihP : P.Recorded) (ihQ : Q.Recorded) :
    (Piece.sequential s P Q).Recorded := by
  intro b entry hentry hlayout
  obtain ⟨h, label, start, exit, first, stop⟩ := s
  obtain rfl : start = entry := congrArg (fun l => l.info.entry) hlayout.symm
  let entered := b.enter start .sequential h
  let one := entered.assemble start P.block
  let two := one.builder.assemble one.result.info.exit Q.block
  obtain rfl : exit = two.result.info.exit := congrArg (fun l => l.info.exit) hlayout.symm
  obtain ⟨hone, htwo⟩ := List.cons.inj (congrArg Layout.children hlayout)
  have htwo : two.result = Q.layout := (List.cons.inj htwo).1
  have hentered := records_enter hentry .sequential h
  obtain ⟨hP, hjoint⟩ := ihP entered start (hentered.places hentry) hone
  rw [← info_layout_exit, ← hone] at hjoint
  obtain ⟨hQ, hlast⟩ := ihQ one.builder _ hjoint htwo
  rw [← info_layout_exit, ← htwo] at hlast
  have hfinished := records_finish hlast .sequential h (b.labelFor .sequential h) start
    [one.result, two.result]
  exact ⟨hentered.trans ((hP.trans hQ).trans hfinished), hfinished.places hlast⟩

theorem recorded_loop {s : Site α} {body : Piece α} {x : α} {n : Nat} (ih : body.Recorded) :
    (Piece.loop s body x n).Recorded := by
  intro b entry hentry hlayout
  obtain ⟨h, label, start, exit, first, stop⟩ := s
  obtain rfl : start = entry := congrArg (fun l => l.info.entry) hlayout.symm
  let entered := b.enter start .loop h
  let opened := entered.addPlace.connect .loop h
    { role := .loopEntry, label := "Entry " ++ b.labelFor .loop h, probability := 1,
      inputs := [start], outputs := [entered.newPlace] }
  let inner := opened.assemble entered.newPlace body.block
  let limited := inner.builder.modifyPlace inner.result.info.exit (Change.bound n).apply
  obtain rfl : exit = limited.newPlace := congrArg (fun l => l.info.exit) hlayout.symm
  have hinner : inner.result = body.layout :=
    (List.cons.inj (congrArg Layout.children hlayout)).1
  have hentered := records_enter hentry .loop h
  have hopened : Records entered opened [] :=
    (records_addPlace entered).trans (records_connect _ _ _ _)
  have hstart : entered.newPlace ∈ opened.places :=
    (records_connect entered.addPlace _ _ _).places entered.newPlace_mem
  obtain ⟨hbody, hlast⟩ := ih opened _ hstart hinner
  have hstop : inner.result.info.exit = body.exit := by rw [hinner, info_layout_exit]
  have hlimited : Records inner.builder limited [(body.exit, .bound n)] :=
    hstop ▸ records_modifyPlace (hstop ▸ hlast) (.bound n)
  let back : Wiring α :=
    { role := .loopBack, label := "Loop " ++ b.labelFor .loop h, probability := x, stop := true,
      inputs := [inner.result.info.exit], outputs := [entered.newPlace],
      resets := limited.placesFrom entered.newPlace inner.result.info.exit }
  let leave : Wiring α :=
    { role := .loopExit, label := "Exit " ++ b.labelFor .loop h, probability := 1 - x,
      stop := true, inputs := [inner.result.info.exit], outputs := [limited.newPlace] }
  have hback := records_connect limited.addPlace .loop h back
  have hleave := records_connect (limited.addPlace.connect .loop h back) .loop h leave
  have hnew := hleave.places (hback.places limited.newPlace_mem)
  have hfinished := records_finish hnew .loop h (b.labelFor .loop h) start [inner.result]
  have hended := (((records_addPlace limited).trans hback).trans hleave).trans hfinished
  exact ⟨hentered.trans ((hopened.trans hbody).trans (hlimited.trans hended)),
    hfinished.places hnew⟩

theorem recorded_all {Ps : List (Piece α)} (ih : ∀ P ∈ Ps, P.Recorded) :
    ∀ (b : Builder α) (start : Nat), (∀ i < Ps.length, (⟨start + i⟩ : PlaceId) ∈ b.places) →
      (b.assembleAll start (blocks Ps)).result = layouts Ps →
        Records b (b.assembleAll start (blocks Ps)).builder (changesAll Ps) := by
  induction Ps with
  | nil => exact fun b _ _ _ => records_refl
  | cons P Ps ihall =>
      obtain ⟨ihP, ihPs⟩ := List.forall_mem_cons.mp ih
      intro b start hstarts hlayouts
      obtain ⟨hone, hrest⟩ := List.cons.inj hlayouts
      obtain ⟨hP, -⟩ := ihP b ⟨start⟩ (hstarts 0 (Nat.zero_lt_succ _)) hone
      refine hP.trans (ihall ihPs _ _ (fun i hi => hP.places ?_) hrest)
      rw [Nat.add_assoc, Nat.add_comm 1]
      exact hstarts (i + 1) (Nat.succ_lt_succ hi)

theorem recorded_branches {Ps : List (Piece α)} {kind : Kind} {h : Head α} {label : String}
    {entry exit : PlaceId} {odds : Nat → α} (ih : ∀ P ∈ Ps, P.Recorded) :
    ∀ (b : Builder α) (i : Nat),
      (b.assembleBranches kind h label entry exit odds i (blocks Ps)).result = layouts Ps →
        Records b (b.assembleBranches kind h label entry exit odds i (blocks Ps)).builder
          (changesAll Ps) := by
  induction Ps with
  | nil => exact fun b _ _ => records_refl
  | cons P Ps ihall =>
      obtain ⟨ihP, ihPs⟩ := List.forall_mem_cons.mp ih
      intro b i hlayouts
      obtain ⟨hone, hrest⟩ := List.cons.inj hlayouts
      let opened := b.addPlace.connect kind h
        { role := .branchEntry, label := branchLabel P.block.head, probability := odds i,
          stop := true, branch := some i, inputs := [entry], outputs := [b.newPlace] }
      let one := opened.assemble b.newPlace P.block
      have hopened : Records b.addPlace opened [] := records_connect _ _ _ _
      obtain ⟨hP, -⟩ := ihP opened b.newPlace (hopened.places b.newPlace_mem) hone
      have hmerged := records_connect one.builder kind h
        { role := .branchExit, label := "Merge " ++ label, probability := 1, branch := some i,
          inputs := [one.result.info.exit], outputs := [exit] }
      exact (((records_addPlace b).trans hopened).trans hP).trans
        (hmerged.trans (ihall ihPs _ _ hrest))

theorem recorded_parallel {s : Site α} {Ps : List (Piece α)} (ih : ∀ P ∈ Ps, P.Recorded) :
    (Piece.parallel s Ps).Recorded := by
  intro b entry hentry hlayout
  obtain ⟨h, label, start, exit, first, stop⟩ := s
  obtain rfl : start = entry := congrArg (fun l => l.info.entry) hlayout.symm
  have hlength : (blocks Ps).length = Ps.length := by rw [blocks_eq_map, List.length_map]
  let entered := b.enter start .parallel h
  let starts := (List.range (blocks Ps).length).map fun i => PlaceId.mk (b.next + i)
  let forked := (entered.addPlaces (blocks Ps).length).connect .parallel h
    { role := .fork, label := "Fork " ++ b.labelFor .parallel h, probability := 1,
      inputs := [start], outputs := starts }
  let all := forked.assembleAll b.next (blocks Ps)
  obtain rfl : exit = all.builder.newPlace := congrArg (fun l => l.info.exit) hlayout.symm
  have hall : all.result = layouts Ps := congrArg Layout.children hlayout
  have hentered := records_enter hentry .parallel h
  obtain ⟨hadded, hnew⟩ := records_addPlaces (blocks Ps).length entered
  have hforked : Records entered forked [] := hadded.trans (records_connect _ _ _ _)
  have hbranches := recorded_all ih forked b.next
    (fun i hi => (records_connect _ _ _ _).places (hnew i (hlength ▸ hi))) hall
  have hjoined := records_connect all.builder.addPlace .parallel h
    { role := .join, label := "Join " ++ b.labelFor .parallel h, probability := 1,
      inputs := all.result.map (·.info.exit), outputs := [all.builder.newPlace] }
  have hend := hjoined.places all.builder.newPlace_mem
  have hfinished := records_finish hend .parallel h (b.labelFor .parallel h) start all.result
  have hended := ((records_addPlace all.builder).trans hjoined).trans hfinished
  exact ⟨hentered.trans ((hforked.trans hbranches).trans hended), hfinished.places hend⟩

theorem recorded_gateway {s : Site α} {g : Gate α} {Ps : List (Piece α)}
    (ih : ∀ P ∈ Ps, P.Recorded) : (Piece.gateway s g Ps).Recorded := by
  intro b entry hentry hlayout
  obtain ⟨h, label, start, exit, first, stop⟩ := s
  let entered := b.enter entry g.kind h
  let all := entered.addPlace.assembleBranches g.kind h (b.labelFor g.kind h) entry
    entered.newPlace g.odds 0 (blocks Ps)
  let built := all.builder.finish g.kind h (b.labelFor g.kind h) entry entered.newPlace all.result
  have hbuilt : b.assemble entry (g.block h (blocks Ps)) = built := by
    cases g <;> rfl
  change (b.assemble entry (g.block h (blocks Ps))).result = _ at hlayout
  show Records b (b.assemble entry (g.block h (blocks Ps))).builder _ ∧
    exit ∈ (b.assemble entry (g.block h (blocks Ps))).builder.places
  rw [hbuilt] at hlayout ⊢
  obtain rfl : start = entry := congrArg (fun l => l.info.entry) hlayout.symm
  obtain rfl : exit = entered.newPlace := congrArg (fun l => l.info.exit) hlayout.symm
  have hall : all.result = layouts Ps := congrArg Layout.children hlayout
  have hentered := records_enter hentry g.kind h
  have hbranches := recorded_branches ih entered.addPlace 0 hall
  have hend := hbranches.places entered.newPlace_mem
  have hfinished := records_finish hend g.kind h (b.labelFor g.kind h) start all.result
  exact ⟨hentered.trans (((records_addPlace entered).trans hbranches).trans hfinished),
    hfinished.places hend⟩

theorem recorded (P : Piece α) : P.Recorded := by
  induction P using Piece.ind with
  | task s v => exact recorded_task s v
  | sequential s P Q ihP ihQ => exact recorded_sequential ihP ihQ
  | parallel s bs ih => exact recorded_parallel ih
  | gateway s g bs ih => exact recorded_gateway ih
  | loop s body x n ih => exact recorded_loop ih

end Piece

/-! ## The places of a workflow -/

omit [Quantity α] in
/-- Where no number is used twice a place is found under its number. -/
theorem Net.place?_of_mem {net : Net α} {q : Place α} (hnodup : (net.places.map Place.id).Nodup)
    (hq : q ∈ net.places) : net.place? q.id = some q := by
  have hsome : (net.place? q.id).isSome :=
    List.find?_isSome.mpr ⟨q, hq, decide_eq_true (rfl : q.id = q.id)⟩
  obtain ⟨q', hq'⟩ := Option.isSome_iff_exists.mp hsome
  obtain rfl := List.inj_on_of_nodup_map hnodup (List.mem_of_find?_eq_some hq') hq
    (Net.place?_id hq')
  exact hq'

namespace Workflow

variable {R : Piece α} {q : Place α}

/-- A place of a workflow is found under its number. -/
theorem Consists.place?_eq {w : Workflow α} (h : w.Consists R) (hq : q ∈ w.net.places) :
    w.net.place? q.id = some q := Net.place?_of_mem h.nodup_places hq

/-- What assembling a workflow writes on its places, and how it uses its numbers. -/
structure Recorded (w : Workflow α) (R : Piece α) : Prop where
  replayed : ∀ q ∈ w.net.places, q = Change.replay R.changes (Builder.bare q.id)
  numbers : (w.net.places.map (·.id.index) ++ w.net.transitions.map (·.id.index)).Perm
    (List.range (w.net.places.length + w.net.transitions.length))

theorem Consists.recorded (h : (ofBlock R.block).Consists R) : (ofBlock R.block).Recorded R := by
  let b : Builder α := .empty
  let built := b.addPlace.assemble b.newPlace R.block
  obtain ⟨hrecords, -⟩ := R.recorded b.addPlace b.newPlace b.newPlace_mem h.layout
  have hempty : b.Counted := List.Perm.refl []
  have hstart := Builder.records_addPlace b
  have hcounted : (built.builder.places.map PlaceId.index ++
      built.builder.net.transitions.map (·.id.index)).Perm (List.range built.builder.next) :=
    hrecords.counted (hstart.counted hempty)
  refine ⟨fun q hq => ?_, ?_⟩
  · have hfound : built.builder.placeAt q.id = q := by
      rw [Builder.placeAt, show built.builder.net.place? q.id = some q from h.place?_eq hq]
      rfl
    have hbare : b.addPlace.placeAt q.id = Builder.bare q.id := hstart.replayed q.id
    rw [← hbare, ← hrecords.replayed q.id]
    exact hfound.symm
  · have hlength := hcounted.length_eq
    rw [List.length_append, List.length_map, List.length_map, List.length_range, Builder.places,
      List.length_map] at hlength
    rw [Builder.places, List.map_map, ← hlength] at hcounted
    exact hcounted

/-- The workflow of a valid description is assembled from a piece that was made of it. -/
theorem exists_ofBlock {r : Region α} (h : r.validate = .ok ()) :
    ∃ R : Piece α, compile r = .ok (ofBlock R.block) ∧ (ofBlock R.block).Consists R ∧
      r.Yields R := by
  obtain ⟨w, R, hcompile, hR, hr⟩ := exists_yields h
  obtain rfl : ofBlock R.block = w := by
    have hcompiled := hcompile
    simp only [compile, h, hr.block] at hcompiled
    exact Except.ok.inj hcompiled
  exact ⟨R, hcompile, hR, hr⟩

end Workflow

end RegionNet
