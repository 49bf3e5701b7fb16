import RegionNet.Proofs.Changes
import RegionNet.Proofs.Report

/-!
# Assembling is relocatable

A block that is assembled behind other nodes becomes what it becomes alone, in another place: the
start is the given entry, and all other numbers are shifted by one offset (`Block.relocates`). Of
what was there before only the entry is changed, in the way in which the start is changed when the
block is alone. Labels that are made up count the regions that brought none, so they count on.

Both builders do the same steps. `Builder.Copies` says what one of them holds if the other one
started from nothing, and every step preserves it.
-/

namespace RegionNet

variable {α : Type}

/-- Where the nodes of a net go: the start to a place that is there, all others behind the nodes
that are there. -/
structure Relocation where
  entry : PlaceId
  offset : Nat

namespace Relocation

def place (ρ : Relocation) (p : PlaceId) : PlaceId :=
  if p.index = 0 then ρ.entry else ⟨p.index + ρ.offset⟩

def transition (ρ : Relocation) (t : TransitionId) : TransitionId := ⟨t.index + ρ.offset⟩

theorem place_of_ne {ρ : Relocation} {p : PlaceId} (h : p.index ≠ 0) :
    ρ.place p = ⟨p.index + ρ.offset⟩ := if_neg h

theorem place_eq_iff {ρ : Relocation} {p q : PlaceId} (hp : p.index ≠ 0) (hq : q.index ≠ 0) :
    ρ.place p = ρ.place q ↔ p = q := by
  rw [place_of_ne hp, place_of_ne hq, PlaceId.mk.injEq, Nat.add_right_cancel_iff]
  exact ⟨congrArg PlaceId.mk, congrArg PlaceId.index⟩

/-- Nothing is moved to where something was. -/
theorem place_ne_of_le {ρ : Relocation} {p q : PlaceId} (hp : p.index ≠ 0)
    (hq : q.index ≤ ρ.offset) : ρ.place p ≠ q := by
  rw [place_of_ne hp]
  rintro rfl
  change p.index + ρ.offset ≤ ρ.offset at hq
  omega

end Relocation

/-- The place in its new position. -/
def Place.relocate (ρ : Relocation) (q : Place α) : Place α := { q with id := ρ.place q.id }

/-- The labels of a region are the same, or made up with different numbers: `made` lists the kinds
of the regions for which labels were made up before. -/
def Relabels (made : List Kind) (kind : Kind) (h : Head α) (l l' : String) : Prop :=
  l' = l ∨ Builder.ownLabel h = none ∧ ∃ (before : String) (n : Nat),
    l = before ++ (kind.title ++ " " ++ toString n) ∧
      l' = before ++ (kind.title ++ " " ++ toString (n + made.count kind))

theorem Relabels.prepend {made : List Kind} {kind : Kind} {h : Head α} {l l' : String}
    (hl : Relabels made kind h l l') (before : String) :
    Relabels made kind h (before ++ l) (before ++ l') := by
  rcases hl with rfl | ⟨hown, before', n, rfl, rfl⟩
  · exact Or.inl rfl
  · exact Or.inr ⟨hown, before ++ before', n, String.append_assoc.symm, String.append_assoc.symm⟩

/-- The transition in its new position. Its label may differ if it was made up for one of the
regions `hs`. -/
structure Transition.Relocates (ρ : Relocation) (made : List Kind) (hs : List (Head α))
    (t t' : Transition α) : Prop where
  shifted : t' = { t with
    id := ρ.transition t.id
    label := t'.label
    preset := t.preset.map fun x => (ρ.place x.1, x.2)
    postset := t.postset.map fun x => (ρ.place x.1, x.2)
    resetVisits := t.resetVisits.map ρ.place }
  label : ∃ h ∈ hs, h.id = t.regionId ∧ Relabels made t.regionKind h t.label t'.label
  branch : t.role = .branchEntry → t'.label = t.label

/-- A region in its new position. -/
structure RegionInfo.Relocates (ρ : Relocation) (made : List Kind) (hs : List (Head α))
    (i i' : RegionInfo) : Prop where
  shifted : i' = { i with label := i'.label, entry := ρ.place i.entry, exit := ρ.place i.exit }
  label : ∃ h ∈ hs, h.id = i.id ∧ Relabels made i.kind h i.label i'.label

/-- The trees have the same form, and their regions are related. -/
inductive Layout.Relates (R : RegionInfo → RegionInfo → Prop) : Layout → Layout → Prop where
  | node {i i' : RegionInfo} {cs cs' : List Layout} (hi : R i i')
      (hcs : List.Forall₂ (Relates R) cs cs') : Relates R (.node i cs) (.node i' cs')

/-- A change that is made where regions start. -/
inductive Change.Opens : Change α → Prop where
  | start (h : Head α) : Opens (.start h)
  | work (v : List α) : Opens (.work v)

variable [Quantity α]

/-- What changes make of the place at which they are made. -/
def Change.applyAll (cs : List (Change α)) (q : Place α) : Place α :=
  cs.foldl (fun q c => c.apply q) q

theorem Change.id_applyAll (cs : List (Change α)) (q : Place α) : (applyAll cs q).id = q.id := by
  induction cs generalizing q with
  | nil => rfl
  | cons c cs ih => exact (ih (c.apply q)).trans (c.id_apply q)

theorem Change.applyAll_concat (cs : List (Change α)) (c : Change α) (q : Place α) :
    applyAll (cs ++ [c]) q = c.apply (applyAll cs q) := List.foldl_append

theorem Change.relocate_apply (ρ : Relocation) (c : Change α) (q : Place α) :
    (c.apply q).relocate ρ = c.apply (q.relocate ρ) := by
  cases c <;> rfl

/-- The nodes that were there before are numbered below those that come. -/
structure Relocation.Clear (ρ : Relocation) (old : Builder α) : Prop where
  entry : ρ.entry.index ≤ ρ.offset
  places : ∀ q ∈ old.net.places, q.id.index ≤ ρ.offset

/-- One builder holds what another one held before, and what a third one assembled from nothing. -/
structure Builder.Copies (ρ : Relocation) (old : Builder α) (hs : List (Head α))
    (b b' : Builder α) : Prop where
  pos : 0 < b.next
  next : b'.next = b.next + ρ.offset
  numbered : b'.numbered = b.numbered ++ old.numbered
  places : ∃ cs qs, (∀ c ∈ cs, c.Opens) ∧ (∀ q ∈ qs, q.id.index ≠ 0) ∧
    b.net.places = Change.applyAll cs (bare ⟨0⟩) :: qs ∧
    b'.net.places = (old.net.places.map fun q =>
      if q.id = ρ.entry then Change.applyAll cs q else q) ++ qs.map (Place.relocate ρ)
  transitions : ∃ ts, b'.net.transitions = old.net.transitions ++ ts ∧
    List.Forall₂ (Transition.Relocates ρ old.numbered hs) b.net.transitions ts

namespace Builder

/-- What a change at `p` makes of a place. -/
def changeAt (p : PlaceId) (c : Change α) (q : Place α) : Place α :=
  if q.id = p then c.apply q else q

theorem id_changeAt (p : PlaceId) (c : Change α) (q : Place α) : (changeAt p c q).id = q.id := by
  unfold changeAt
  split_ifs
  · exact c.id_apply q
  · rfl

variable {ρ : Relocation} {old b b' c c' : Builder α} {hs : List (Head α)} {p : PlaceId}
  {kind : Kind} {h : Head α}

namespace Copies

/-- Only the net, the next number and the labels matter. -/
theorem congr (hb : Copies ρ old hs b b') (hnet : c.net = b.net) (hnext : c.next = b.next)
    (hnumbered : c.numbered = b.numbered) (hnet' : c'.net = b'.net) (hnext' : c'.next = b'.next)
    (hnumbered' : c'.numbered = b'.numbered) : Copies ρ old hs c c' where
  pos := hnext ▸ hb.pos
  next := by rw [hnext', hnext, hb.next]
  numbered := by rw [hnumbered', hnumbered, hb.numbered]
  places := by rw [hnet, hnet']; exact hb.places
  transitions := by rw [hnet, hnet']; exact hb.transitions

theorem place_newPlace (hb : Copies ρ old hs b b') : ρ.place b.newPlace = b'.newPlace := by
  rw [Relocation.place_of_ne (show b.newPlace.index ≠ 0 from hb.pos.ne'), newPlace, newPlace,
    hb.next]

theorem addPlace (hb : Copies ρ old hs b b') : Copies ρ old hs b.addPlace b'.addPlace where
  pos := Nat.succ_pos _
  next := by
    show b'.next + 1 = b.next + 1 + ρ.offset
    rw [hb.next]
    omega
  numbered := hb.numbered
  places := by
    obtain ⟨cs, qs, hcs, hqs, hplaces, hplaces'⟩ := hb.places
    refine ⟨cs, qs ++ [bare b.newPlace], hcs, ?_, ?_, ?_⟩
    · intro q hq
      rcases List.mem_append.mp hq with hq | hq
      · exact hqs q hq
      · obtain rfl := List.mem_singleton.mp hq
        exact hb.pos.ne'
    · show b.net.places ++ [bare b.newPlace] = _
      rw [hplaces, List.cons_append]
    · show b'.net.places ++ [bare b'.newPlace] = _
      rw [hplaces', List.map_append, List.append_assoc, ← hb.place_newPlace]
      rfl
  transitions := hb.transitions

theorem addPlaces (n : Nat) : ∀ {b b' : Builder α}, Copies ρ old hs b b' →
    Copies ρ old hs (b.addPlaces n) (b'.addPlaces n) := by
  induction n with
  | zero => exact id
  | succ n ih => exact fun hb => ih hb.addPlace

/-- The wiring in its new position. -/
structure Rewires (ρ : Relocation) (made : List Kind) (kind : Kind) (h : Head α)
    (w w' : Wiring α) : Prop where
  shifted : w' = { w with
    label := w'.label
    inputs := w.inputs.map ρ.place
    outputs := w.outputs.map ρ.place
    resets := w.resets.map ρ.place }
  label : Relabels made kind h w.label w'.label
  branch : w.role = .branchEntry → w'.label = w.label

theorem connect {w w' : Wiring α} (hb : Copies ρ old hs b b') (hh : h ∈ hs)
    (hw : Rewires ρ old.numbered kind h w w') :
    Copies ρ old hs (b.connect kind h w) (b'.connect kind h w') where
  pos := Nat.succ_pos _
  next := by
    show b'.next + 1 = b.next + 1 + ρ.offset
    rw [hb.next]
    omega
  numbered := hb.numbered
  places := hb.places
  transitions := by
    obtain ⟨ts, hts, hrelocates⟩ := hb.transitions
    refine ⟨ts ++ [w'.transition b'.next kind h], ?_, ?_⟩
    · show b'.net.transitions ++ [w'.transition b'.next kind h] = _
      rw [hts, List.append_assoc]
    · refine List.rel_append hrelocates (.cons ⟨?_, ⟨h, hh, rfl, hw.label⟩, hw.branch⟩ .nil)
      rw [hw.shifted, hb.next]
      simp [Wiring.transition, Relocation.transition, Function.comp_def]

/-- A change where the block starts is made at the entry. -/
theorem modifyStart (hρ : ρ.Clear old) (hb : Copies ρ old hs b b') {c : Change α} (hc : c.Opens) :
    Copies ρ old hs (b.modifyPlace ⟨0⟩ c.apply) (b'.modifyPlace ρ.entry c.apply) where
  pos := hb.pos
  next := hb.next
  numbered := hb.numbered
  places := by
    obtain ⟨cs, qs, hcs, hqs, hplaces, hplaces'⟩ := hb.places
    have hothers : qs.map (changeAt ⟨0⟩ c) = qs := by
      refine Eq.trans (List.map_congr_left fun q hq => ?_) (List.map_id qs)
      exact if_neg fun h => hqs q hq (congrArg PlaceId.index h)
    refine ⟨cs ++ [c], qs, ?_, hqs, ?_, ?_⟩
    · exact List.forall_mem_append.mpr ⟨hcs, List.forall_mem_singleton.mpr hc⟩
    · show b.net.places.map (changeAt ⟨0⟩ c) = _
      rw [hplaces, List.map_cons, hothers, Change.applyAll_concat]
      exact congrArg (· :: qs) (if_pos (Change.id_applyAll cs _))
    · show b'.net.places.map (changeAt ρ.entry c) = _
      rw [hplaces', List.map_append, List.map_map, List.map_map]
      congr 1
      · refine List.map_congr_left fun q _ => ?_
        rw [Function.comp_apply]
        split_ifs with hq
        · rw [Change.applyAll_concat]
          exact if_pos ((Change.id_applyAll cs q).trans hq)
        · exact if_neg hq
      · refine List.map_congr_left fun q hq => ?_
        exact if_neg (Relocation.place_ne_of_le (hqs q hq) hρ.entry)
  transitions := hb.transitions

/-- A change elsewhere is made where the place has gone. -/
theorem modifyOther (hρ : ρ.Clear old) (hb : Copies ρ old hs b b') (hp : p.index ≠ 0)
    (c : Change α) :
    Copies ρ old hs (b.modifyPlace p c.apply) (b'.modifyPlace (ρ.place p) c.apply) where
  pos := hb.pos
  next := hb.next
  numbered := hb.numbered
  places := by
    obtain ⟨cs, qs, hcs, hqs, hplaces, hplaces'⟩ := hb.places
    refine ⟨cs, qs.map (changeAt p c), hcs, ?_, ?_, ?_⟩
    · refine List.forall_mem_map.mpr fun q hq => ?_
      rw [id_changeAt]
      exact hqs q hq
    · show b.net.places.map (changeAt p c) = _
      rw [hplaces, List.map_cons]
      refine congrArg (· :: qs.map (changeAt p c)) (if_neg fun h => ?_)
      rw [Change.id_applyAll] at h
      exact hp (congrArg PlaceId.index h).symm
    · show b'.net.places.map (changeAt (ρ.place p) c) = _
      rw [hplaces', List.map_append, List.map_map, List.map_map, List.map_map]
      congr 1
      · refine List.map_congr_left fun q hq => if_neg ?_
        have hid : (if q.id = ρ.entry then Change.applyAll cs q else q).id = q.id := by
          split_ifs
          · exact Change.id_applyAll cs q
          · rfl
        rw [hid]
        exact (Relocation.place_ne_of_le hp (hρ.places q hq)).symm
      · refine List.map_congr_left fun q hq => ?_
        have hiff : ρ.place q.id = ρ.place p ↔ q.id = p := Relocation.place_eq_iff (hqs q hq) hp
        show changeAt (ρ.place p) c (q.relocate ρ) = (changeAt p c q).relocate ρ
        by_cases hqp : q.id = p
        · rw [changeAt, changeAt, if_pos hqp, Change.relocate_apply]
          exact if_pos (hiff.mpr hqp)
        · rw [changeAt, changeAt, if_neg hqp]
          exact if_neg (mt hiff.mp hqp)
  transitions := hb.transitions

theorem modifyPlace (hρ : ρ.Clear old) (hb : Copies ρ old hs b b') {c : Change α} (hc : c.Opens)
    (p : PlaceId) :
    Copies ρ old hs (b.modifyPlace p c.apply) (b'.modifyPlace (ρ.place p) c.apply) := by
  by_cases hp : p.index = 0
  · obtain rfl : p = ⟨0⟩ := congrArg PlaceId.mk hp
    exact modifyStart hρ hb hc
  · exact modifyOther hρ hb hp c

/-- The labels that a region gets. -/
theorem labelFor (hb : Copies ρ old hs b b') (kind : Kind) (h : Head α) :
    Relabels old.numbered kind h (b.labelFor kind h) (b'.labelFor kind h) := by
  unfold Builder.labelFor
  cases hown : ownLabel h with
  | some l => exact Or.inl rfl
  | none =>
      refine Or.inr ⟨hown, "", b.numbered.count kind + 1, by simp, ?_⟩
      rw [hb.numbered, List.count_append, Nat.add_right_comm]
      simp

theorem enter (hρ : ρ.Clear old) (hb : Copies ρ old hs b b') (p : PlaceId) (kind : Kind)
    (h : Head α) : Copies ρ old hs (b.enter p kind h) (b'.enter (ρ.place p) kind h) := by
  have hnumbered : Copies ρ old hs
      { b with numbered := if (ownLabel h).isSome then b.numbered else kind :: b.numbered }
      { b' with numbered := if (ownLabel h).isSome then b'.numbered else kind :: b'.numbered } := by
    refine ⟨hb.pos, hb.next, ?_, hb.places, hb.transitions⟩
    show (if (ownLabel h).isSome then b'.numbered else kind :: b'.numbered) = _
    split_ifs
    · exact hb.numbered
    · rw [hb.numbered, List.cons_append]
  exact modifyPlace hρ hnumbered (.start h) p

theorem placesFrom (hρ : ρ.Clear old) (hb : Copies ρ old hs b b') {first except : PlaceId}
    (hfirst : first.index ≠ 0) (hexcept : except.index ≠ 0) :
    b'.placesFrom (ρ.place first) (ρ.place except) = (b.placesFrom first except).map ρ.place := by
  obtain ⟨cs, qs, -, hqs, hplaces, hplaces'⟩ := hb.places
  have hids : b.net.places.map Place.id = ⟨0⟩ :: qs.map Place.id := by
    rw [hplaces, List.map_cons, Change.id_applyAll]
    rfl
  have hids' : b'.net.places.map Place.id =
      old.net.places.map Place.id ++ (qs.map Place.id).map ρ.place := by
    rw [hplaces', List.map_append, List.map_map, List.map_map, List.map_map]
    congr 1
    refine List.map_congr_left fun q _ => ?_
    rw [Function.comp_apply]
    split_ifs
    · exact Change.id_applyAll cs q
    · rfl
  have hold : (old.net.places.map Place.id).filter (fun p =>
      decide ((ρ.place first).index ≤ p.index) && p != ρ.place except) = [] := by
    refine List.filter_eq_nil_iff.mpr (List.forall_mem_map.mpr fun q hq => ?_)
    have hle := hρ.places q hq
    rw [Relocation.place_of_ne hfirst]
    simp
    omega
  unfold Builder.placesFrom
  rw [hids', List.filter_append, hold, List.nil_append, List.filter_map, hids,
    List.filter_cons_of_neg (by simp [hfirst])]
  refine congrArg _ (List.filter_congr (List.forall_mem_map.mpr fun q hq => ?_))
  rw [Function.comp_apply, Relocation.place_of_ne hfirst, Relocation.place_of_ne (hqs q hq)]
  have hne : (ρ.place q.id != ρ.place except) = (q.id != except) := by
    rw [Bool.eq_iff_iff]
    simp [Relocation.place_eq_iff (hqs q hq) hexcept]
  rw [Relocation.place_of_ne (hqs q hq)] at hne
  rw [hne]
  simp

end Copies

end Builder

/-- Two answers with the same layout, from builders that hold the same. -/
structure Built.Copies (ρ : Relocation) (old : Builder α) (hs : List (Head α))
    (one one' : Built α Layout) : Prop where
  builder : Builder.Copies ρ old hs one.builder one'.builder
  layout : one.result.Relates (RegionInfo.Relocates ρ old.numbered hs) one'.result
  exit : one.result.info.exit.index ≠ 0

theorem Layout.Relates.info {R : RegionInfo → RegionInfo → Prop} {l l' : Layout}
    (h : l.Relates R l') : R l.info l'.info := by
  obtain ⟨hi, -⟩ := h
  exact hi

/-- The same for several layouts. -/
structure Built.CopiesAll (ρ : Relocation) (old : Builder α) (hs : List (Head α))
    (all all' : Built α (List Layout)) : Prop where
  builder : Builder.Copies ρ old hs all.builder all'.builder
  layouts : List.Forall₂ (Layout.Relates (RegionInfo.Relocates ρ old.numbered hs))
    all.result all'.result

theorem Built.CopiesAll.place_exits {ρ : Relocation} {old : Builder α} {hs : List (Head α)}
    {all all' : Built α (List Layout)} (h : Built.CopiesAll ρ old hs all all') :
    (all.result.map (·.info.exit)).map ρ.place = all'.result.map (·.info.exit) := by
  have hexits : List.Forall₂ (· = ·) ((all.result.map (·.info.exit)).map ρ.place)
      (all'.result.map (·.info.exit)) := by
    rw [List.map_map, List.forall₂_map_left_iff, List.forall₂_map_right_iff]
    refine h.layouts.imp fun l l' hl => ?_
    rw [hl.info.shifted]
    rfl
  exact List.forall₂_eq_eq_eq ▸ hexits

theorem Built.Copies.place_exit {ρ : Relocation} {old : Builder α} {hs : List (Head α)}
    {one one' : Built α Layout} (h : Built.Copies ρ old hs one one') :
    ρ.place one.result.info.exit = one'.result.info.exit := by
  rw [h.layout.info.shifted]

namespace Builder.Copies

variable {ρ : Relocation} {old b b' : Builder α} {hs : List (Head α)} {kind : Kind} {h : Head α}

theorem finish (hρ : ρ.Clear old) (hb : Builder.Copies ρ old hs b b') (hh : h ∈ hs)
    {label label' : String} (hlabel : Relabels old.numbered kind h label label') (entry : PlaceId)
    {exit exit' : PlaceId} (hexit : exit.index ≠ 0) (hexit' : ρ.place exit = exit')
    {children children' : List Layout}
    (hchildren : List.Forall₂
      (Layout.Relates (RegionInfo.Relocates ρ old.numbered hs)) children children') :
    Built.Copies ρ old hs (b.finish kind h label entry exit children)
      (b'.finish kind h label' (ρ.place entry) exit' children') := by
  subst hexit'
  exact ⟨modifyOther hρ hb hexit (.finish h), .node ⟨rfl, h, hh, rfl, hlabel⟩ hchildren, hexit⟩

end Builder.Copies

namespace Block

mutual

/-- What the regions of a block have whatever their kinds, in document order. -/
def heads : Block α → List (Head α)
  | .task h _ => [h]
  | .sequential h one two => h :: (one.heads ++ two.heads)
  | .parallel h bs => h :: headsAll bs
  | .choice h bs _ => h :: headsAll bs
  | .nature h bs _ => h :: headsAll bs
  | .loop h body _ _ => h :: body.heads

def headsAll : List (Block α) → List (Head α)
  | [] => []
  | b :: bs => b.heads ++ headsAll bs

end

/-- Whatever is assembled of the block alone is also assembled of it in another place. -/
def Relocates (blk : Block α) : Prop :=
  ∀ {ρ : Relocation} {old b b' : Builder α} {hs : List (Head α)} (p : PlaceId), ρ.Clear old →
    blk.heads ⊆ hs → Builder.Copies ρ old hs b b' →
      Built.Copies ρ old hs (b.assemble p blk) (b'.assemble (ρ.place p) blk)

variable {ρ : Relocation} {old b b' : Builder α} {hs : List (Head α)}

open Builder Builder.Copies

theorem relocates_task (h : Head α) (v : List α) : (Block.task h v).Relocates := by
  intro ρ old b b' hs p hρ hhs hb
  have hh : h ∈ hs := hhs List.mem_cons_self
  have hlabel := hb.labelFor .task h
  let entered := b.enter p .task h
  let entered' := b'.enter (ρ.place p) .task h
  let counted := { entered with dimensions := entered.dimensions.or (some v.length) }
  let counted' := { entered' with dimensions := entered'.dimensions.or (some v.length) }
  have hentered : Builder.Copies ρ old hs entered entered' := hb.enter hρ p .task h
  have hcounted : Builder.Copies ρ old hs counted counted' :=
    hentered.congr rfl rfl rfl rfl rfl rfl
  have hcharged := hcounted.modifyPlace hρ (.work v) p
  have hexit := hcharged.place_newPlace
  let run : Wiring α :=
    { role := .task, label := b.labelFor .task h, probability := 1, inputs := [p],
      outputs := [b.newPlace] }
  let run' : Wiring α :=
    { role := .task, label := b'.labelFor .task h, probability := 1, inputs := [ρ.place p],
      outputs := [b'.newPlace] }
  have hrun : Rewires ρ old.numbered .task h run run' :=
    ⟨congrArg (fun q => { run' with outputs := [q] }) hexit.symm, hlabel, nofun⟩
  exact (hcharged.addPlace.connect hh hrun).finish hρ hh hlabel p hcharged.pos.ne' hexit .nil

theorem relocates_sequential {h : Head α} {one two : Block α} (ihone : one.Relocates)
    (ihtwo : two.Relocates) : (Block.sequential h one two).Relocates := by
  intro ρ old b b' hs p hρ hhs hb
  obtain ⟨hh, hhs⟩ := List.cons_subset.mp hhs
  obtain ⟨hhsone, hhstwo⟩ := List.append_subset.mp hhs
  have hlabel := hb.labelFor .sequential h
  let first := (b.enter p .sequential h).assemble p one
  have hone := ihone p hρ hhsone (hb.enter hρ p .sequential h)
  have htwo := ihtwo first.result.info.exit hρ hhstwo hone.builder
  rw [hone.place_exit] at htwo
  exact htwo.builder.finish hρ hh hlabel p htwo.exit htwo.place_exit
    (.cons hone.layout (.cons htwo.layout .nil))

/-- Blocks at consecutive entries. -/
theorem relocates_all {blks : List (Block α)} (ih : ∀ blk ∈ blks, blk.Relocates)
    (hρ : ρ.Clear old) (hhs : headsAll blks ⊆ hs) : ∀ {b b' : Builder α} {start : Nat},
      start ≠ 0 → Builder.Copies ρ old hs b b' →
        Built.CopiesAll ρ old hs (b.assembleAll start blks)
          (b'.assembleAll (start + ρ.offset) blks) := by
  induction blks with
  | nil => exact fun _ hb => ⟨hb, .nil⟩
  | cons blk blks ihall =>
      intro b b' start hstart hb
      obtain ⟨hhead, htail⟩ := List.append_subset.mp hhs
      have hone := ih blk List.mem_cons_self ⟨start⟩ hρ hhead hb
      rw [Relocation.place_of_ne hstart] at hone
      have hrest := ihall (fun blk hblk => ih blk (List.mem_cons_of_mem _ hblk)) htail
        (Nat.succ_ne_zero start) hone.builder
      rw [Nat.succ_add] at hrest
      exact ⟨hrest.builder, .cons hone.layout hrest.layouts⟩

theorem relocates_parallel {h : Head α} {blks : List (Block α)}
    (ih : ∀ blk ∈ blks, blk.Relocates) : (Block.parallel h blks).Relocates := by
  intro ρ old b b' hs p hρ hhs hb
  obtain ⟨hh, hhs⟩ := List.cons_subset.mp hhs
  have hlabel := hb.labelFor .parallel h
  have hentered := hb.enter hρ p .parallel h
  let fork : Wiring α :=
    { role := .fork, label := "Fork " ++ b.labelFor .parallel h, probability := 1, inputs := [p],
      outputs := (List.range blks.length).map fun i => ⟨b.next + i⟩ }
  let fork' : Wiring α :=
    { role := .fork, label := "Fork " ++ b'.labelFor .parallel h, probability := 1,
      inputs := [ρ.place p], outputs := (List.range blks.length).map fun i => ⟨b'.next + i⟩ }
  have hstarts : fork'.outputs = fork.outputs.map ρ.place := by
    show (List.range blks.length).map (fun i => PlaceId.mk (b'.next + i)) =
      ((List.range blks.length).map fun i => PlaceId.mk (b.next + i)).map ρ.place
    rw [List.map_map]
    refine List.map_congr_left fun i _ => ?_
    have hpos := hb.pos
    have hne : (PlaceId.mk (b.next + i)).index ≠ 0 := by
      show b.next + i ≠ 0
      omega
    rw [Function.comp_apply, Relocation.place_of_ne hne, hb.next, Nat.add_right_comm]
  have hfork : Rewires ρ old.numbered .parallel h fork fork' :=
    ⟨congrArg (fun qs => { fork' with outputs := qs }) hstarts, hlabel.prepend "Fork ", nofun⟩
  have hforked := (hentered.addPlaces blks.length).connect hh hfork
  have hall := relocates_all ih hρ hhs hb.pos.ne' hforked
  rw [← hb.next] at hall
  have hexit := hall.builder.place_newPlace
  let all := ((b.enter p .parallel h).addPlaces blks.length).connect .parallel h fork
    |>.assembleAll b.next blks
  let all' := ((b'.enter (ρ.place p) .parallel h).addPlaces blks.length).connect .parallel h fork'
    |>.assembleAll b'.next blks
  let join : Wiring α :=
    { role := .join, label := "Join " ++ b.labelFor .parallel h, probability := 1,
      inputs := all.result.map (·.info.exit), outputs := [all.builder.newPlace] }
  let join' : Wiring α :=
    { role := .join, label := "Join " ++ b'.labelFor .parallel h, probability := 1,
      inputs := all'.result.map (·.info.exit), outputs := [all'.builder.newPlace] }
  have hjoin : Rewires ρ old.numbered .parallel h join join' :=
    ⟨congrArg₂ (fun ps q => { join' with inputs := ps, outputs := [q] }) hall.place_exits.symm
      hexit.symm, hlabel.prepend "Join ", nofun⟩
  exact (hall.builder.addPlace.connect hh hjoin).finish hρ hh hlabel p hall.builder.pos.ne' hexit
    hall.layouts

/-- Alternative branches between two places. -/
theorem relocates_branches {kind : Kind} {h : Head α} {blks : List (Block α)}
    (ih : ∀ blk ∈ blks, blk.Relocates) (hρ : ρ.Clear old) (hh : h ∈ hs)
    (hhs : headsAll blks ⊆ hs) {label label' : String}
    (hlabel : Relabels old.numbered kind h label label') (entry exit : PlaceId)
    (probability : Nat → α) : ∀ {b b' : Builder α} {i : Nat}, Builder.Copies ρ old hs b b' →
      Built.CopiesAll ρ old hs (b.assembleBranches kind h label entry exit probability i blks)
        (b'.assembleBranches kind h label' (ρ.place entry) (ρ.place exit) probability i blks) := by
  induction blks with
  | nil => exact fun hb => ⟨hb, .nil⟩
  | cons blk blks ihall =>
      intro b b' i hb
      obtain ⟨hhead, htail⟩ := List.append_subset.mp hhs
      have hstart := hb.place_newPlace
      let pick : Wiring α :=
        { role := .branchEntry, label := branchLabel blk.head, probability := probability i,
          stop := true, branch := some i, inputs := [entry], outputs := [b.newPlace] }
      let pick' : Wiring α :=
        { role := .branchEntry, label := branchLabel blk.head, probability := probability i,
          stop := true, branch := some i, inputs := [ρ.place entry], outputs := [b'.newPlace] }
      have hpick : Rewires ρ old.numbered kind h pick pick' :=
        ⟨congrArg (fun q => { pick' with outputs := [q] }) hstart.symm, Or.inl rfl, fun _ => rfl⟩
      have hone := ih blk List.mem_cons_self b.newPlace hρ hhead (hb.addPlace.connect hh hpick)
      rw [hstart] at hone
      let one := (b.addPlace.connect kind h pick).assemble b.newPlace blk
      let one' := (b'.addPlace.connect kind h pick').assemble b'.newPlace blk
      let merge : Wiring α :=
        { role := .branchExit, label := "Merge " ++ label, probability := 1, branch := some i,
          inputs := [one.result.info.exit], outputs := [exit] }
      let merge' : Wiring α :=
        { role := .branchExit, label := "Merge " ++ label', probability := 1, branch := some i,
          inputs := [one'.result.info.exit], outputs := [ρ.place exit] }
      have hmerge : Rewires ρ old.numbered kind h merge merge' :=
        ⟨congrArg (fun q => { merge' with inputs := [q] }) hone.place_exit.symm,
          hlabel.prepend "Merge ", nofun⟩
      have hrest := ihall (fun blk hblk => ih blk (List.mem_cons_of_mem _ hblk)) htail
        (i := i + 1) (hone.builder.connect hh hmerge)
      exact ⟨hrest.builder, .cons hone.layout hrest.layouts⟩

theorem relocates_gateway {h : Head α} {g : Gate α} {blks : List (Block α)}
    (ih : ∀ blk ∈ blks, blk.Relocates) : (g.block h blks).Relocates := by
  intro ρ old b b' hs p hρ hhs hb
  have hheads : (g.block h blks).heads = h :: headsAll blks := by
    cases g <;> rfl
  obtain ⟨hh, hhs⟩ := List.cons_subset.mp (hheads ▸ hhs)
  have hlabel := hb.labelFor g.kind h
  have hentered := hb.enter hρ p g.kind h
  have hexit := hentered.place_newPlace
  have hall := relocates_branches ih hρ hh hhs hlabel p (b.enter p g.kind h).newPlace g.odds
    (i := 0) hentered.addPlace
  rw [hexit] at hall
  have hbuilt := hall.builder.finish hρ hh hlabel p hentered.pos.ne' hexit hall.layouts
  cases g <;> exact hbuilt

theorem relocates_loop {h : Head α} {body : Block α} {x : α} {n : Nat} (ih : body.Relocates) :
    (Block.loop h body x n).Relocates := by
  intro ρ old b b' hs p hρ hhs hb
  obtain ⟨hh, hhs⟩ := List.cons_subset.mp hhs
  have hlabel := hb.labelFor .loop h
  have hentered := hb.enter hρ p .loop h
  let start := (b.enter p .loop h).newPlace
  let start' := (b'.enter (ρ.place p) .loop h).newPlace
  have hstart : ρ.place start = start' := hentered.place_newPlace
  let enters : Wiring α :=
    { role := .loopEntry, label := "Entry " ++ b.labelFor .loop h, probability := 1,
      inputs := [p], outputs := [start] }
  let enters' : Wiring α :=
    { role := .loopEntry, label := "Entry " ++ b'.labelFor .loop h, probability := 1,
      inputs := [ρ.place p], outputs := [start'] }
  have henters : Rewires ρ old.numbered .loop h enters enters' :=
    ⟨congrArg (fun q => { enters' with outputs := [q] }) hstart.symm, hlabel.prepend "Entry ",
      nofun⟩
  have hinner := ih start hρ hhs (hentered.addPlace.connect hh henters)
  rw [hstart] at hinner
  let inner := ((b.enter p .loop h).addPlace.connect .loop h enters).assemble start body
  let inner' :=
    ((b'.enter (ρ.place p) .loop h).addPlace.connect .loop h enters').assemble start' body
  let stop := inner.result.info.exit
  let stop' := inner'.result.info.exit
  have hstop : ρ.place stop = stop' := hinner.place_exit
  let bounded := inner.builder.modifyPlace stop (Change.bound n).apply
  let bounded' := inner'.builder.modifyPlace stop' (Change.bound n).apply
  have hbounded : Builder.Copies ρ old hs bounded bounded' := by
    have hbound := hinner.builder.modifyOther hρ hinner.exit (.bound n)
    rwa [hstop] at hbound
  have hresets : bounded'.placesFrom start' stop' =
      (bounded.placesFrom start stop).map ρ.place := by
    rw [← hstop, ← hstart]
    exact hbounded.placesFrom hρ hentered.pos.ne' hinner.exit
  have hexit := hbounded.place_newPlace
  let back : Wiring α :=
    { role := .loopBack, label := "Loop " ++ b.labelFor .loop h, probability := x, stop := true,
      inputs := [stop], outputs := [start], resets := bounded.placesFrom start stop }
  let back' : Wiring α :=
    { role := .loopBack, label := "Loop " ++ b'.labelFor .loop h, probability := x, stop := true,
      inputs := [stop'], outputs := [start'], resets := bounded'.placesFrom start' stop' }
  have hback : Rewires ρ old.numbered .loop h back back' := by
    refine ⟨?_, hlabel.prepend "Loop ", nofun⟩
    show back' = { back' with
      inputs := [ρ.place stop], outputs := [ρ.place start],
      resets := (bounded.placesFrom start stop).map ρ.place }
    rw [hstop, ← hresets, hstart]
  let leave : Wiring α :=
    { role := .loopExit, label := "Exit " ++ b.labelFor .loop h, probability := 1 - x,
      stop := true, inputs := [stop], outputs := [bounded.newPlace] }
  let leave' : Wiring α :=
    { role := .loopExit, label := "Exit " ++ b'.labelFor .loop h, probability := 1 - x,
      stop := true, inputs := [stop'], outputs := [bounded'.newPlace] }
  have hleave : Rewires ρ old.numbered .loop h leave leave' :=
    ⟨congrArg₂ (fun p q => { leave' with inputs := [p], outputs := [q] }) hstop.symm hexit.symm,
      hlabel.prepend "Exit ", nofun⟩
  exact ((hbounded.addPlace.connect hh hback).connect hh hleave).finish hρ hh hlabel p
    hbounded.pos.ne' hexit (.cons hinner.layout .nil)

theorem relocates (blk : Block α) : blk.Relocates := by
  induction blk using Block.ind with
  | task h v => exact relocates_task h v
  | sequential h one two ihone ihtwo => exact relocates_sequential ihone ihtwo
  | parallel h bs ih => exact relocates_parallel ih
  | choice h bs ps ih => exact relocates_gateway (g := .choice ps) ih
  | nature h bs ps ih => exact relocates_gateway (g := .nature ps) ih
  | loop h body x n ih => exact relocates_loop ih

end Block

/-! ## The list of regions -/

namespace Layout

/-- Two lines about related regions, where the second one stands `d` lines further down and the
root, which has no parent in the first list, has the parent `outer` in the second. -/
structure Entry.Relates (R : RegionInfo → RegionInfo → Prop) (outer : Option Nat) (d : Nat)
    (e e' : Entry) : Prop where
  info : R e.info e'.info
  parent : e'.parent = (e.parent.map (· + d)).or outer
  children : e'.children = e.children.map (· + d)

variable {R : RegionInfo → RegionInfo → Prop} {cs cs' : List Layout} {l l' : Layout}

theorem sizes_eq_of_relates (hcs : List.Forall₂ (Relates R) cs cs')
    (ih : ∀ c ∈ cs, ∀ {c'}, c.Relates R c' → c'.size = c.size) : sizes cs' = sizes cs := by
  induction hcs with
  | nil => rfl
  | cons hc _ ihcs =>
      rw [sizes, sizes, ih _ List.mem_cons_self hc,
        ihcs fun c hc => ih c (List.mem_cons_of_mem _ hc)]

theorem Relates.size_eq (h : l.Relates R l') : l'.size = l.size := by
  induction l using ind generalizing l' with
  | node i cs ih =>
      obtain ⟨-, hcs⟩ := h
      rw [size, size, sizes_eq_of_relates hcs ih]

theorem positions_add (hcs : List.Forall₂ (Relates R) cs cs') (d : Nat) : ∀ start,
    positions (start + d) cs' = (positions start cs).map (· + d) := by
  induction hcs with
  | nil => exact fun _ => rfl
  | cons hc _ ih =>
      intro start
      rw [positions, positions, List.map_cons, hc.size_eq, ← ih, Nat.add_right_comm]

/-- Related trees are listed alike. -/
theorem Relates.entriesFrom (h : l.Relates R l') (outer : Option Nat) (d : Nat) :
    ∀ parent start, List.Forall₂ (Entry.Relates R outer d) (l.entriesFrom parent start)
      (l'.entriesFrom ((parent.map (· + d)).or outer) (start + d)) := by
  induction l using ind generalizing l' with
  | node i cs ih =>
      obtain ⟨hi, hcs⟩ := h
      have hbelow : ∀ {cs cs'}, List.Forall₂ (Relates R) cs cs' →
          (∀ c ∈ cs, ∀ {c'}, c.Relates R c' → ∀ parent start,
            List.Forall₂ (Entry.Relates R outer d) (c.entriesFrom parent start)
              (c'.entriesFrom ((parent.map (· + d)).or outer) (start + d))) →
          ∀ parent start, List.Forall₂ (Entry.Relates R outer d) (entriesOf parent start cs)
            (entriesOf (parent + d) (start + d) cs') := by
        intro cs cs' hcs ih parent
        induction hcs with
        | nil => exact fun _ => .nil
        | @cons c c' cs cs' hc _ ihcs =>
            intro start
            have hrest := ihcs (fun c hc => ih c (List.mem_cons_of_mem _ hc)) (start + c.size)
            rw [show start + c.size + d = start + d + c'.size by
              rw [hc.size_eq, Nat.add_right_comm]] at hrest
            exact List.rel_append (ih _ List.mem_cons_self hc (some parent) start) hrest
      intro parent start
      refine .cons ⟨hi, rfl, ?_⟩ ?_
      · show positions (start + d + 1) _ = _
        rw [Nat.add_right_comm, positions_add hcs]
      · have hlisted := hbelow hcs ih start (start + 1)
        rwa [Nat.add_right_comm] at hlisted

end Layout

end RegionNet
