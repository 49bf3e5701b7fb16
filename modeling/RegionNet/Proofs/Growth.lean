import Mathlib.Data.List.Nodup
import Mathlib.Data.List.Pairwise
import RegionNet.Proofs.Piece
import RegionNet.Proofs.Tally

/-!
# Growing nets

A net under construction only grows: nodes are appended, each with a number above all earlier ones,
and of the places that were there before only few are changed. `Growth` says which places and
transitions were appended between two builders and which older places may have been changed; growth
composes, and each operation of a builder is a growth.

Of a place only its `Terms` matter to the token game and to costs: what it charges, and how often it
may be left. The ids of the regions that start and end there are not among them.
-/

namespace RegionNet

/-- What a place charges for a token, and how many visits it allows. -/
structure Terms (α : Type) where
  duration : α
  impacts : Option (List α)
  limit : Option Nat

variable {α : Type}

/-- A place that charges nothing but time, without limit. -/
def Terms.lasting (d : α) : Terms α := ⟨d, none, none⟩

def Place.terms (p : Place α) : Terms α := ⟨p.duration, p.impacts, p.visitLimit⟩

def Net.terms (net : Net α) (p : PlaceId) : Option (Terms α) := (net.place? p).map Place.terms

/-- The limits that some terms set. -/
def limitIn (T : PlaceId → Option (Terms α)) (p : PlaceId) : Option Nat := (T p).bind Terms.limit

theorem limitIn_of_eq {T : PlaceId → Option (Terms α)} {p : PlaceId} {t : Terms α}
    (h : T p = some t) : limitIn T p = t.limit := by
  rw [limitIn, h, Option.bind_some]

theorem Net.limit_eq (net : Net α) : net.limit = limitIn net.terms := by
  funext p
  unfold Net.limit limitIn Net.terms
  cases net.place? p <;> rfl

theorem Net.place?_id {net : Net α} {p : PlaceId} {q : Place α} (h : net.place? p = some q) :
    q.id = p := by
  have hfound := List.find?_some h
  exact of_decide_eq_true hfound

namespace Builder

/-- The places of the net under construction. -/
def places (b : Builder α) : List PlaceId := b.net.places.map Place.id

/-- Places and transitions are listed in the order of their numbers, which are all in use. -/
structure Tidy (b : Builder α) : Prop where
  places : b.places.Pairwise fun p q => p.index < q.index
  placesBelow : ∀ p ∈ b.places, p.index < b.next
  transitions : (b.net.transitions.map Transition.id).Pairwise fun t u => t.index < u.index
  transitionsBelow : ∀ t ∈ b.net.transitions.map Transition.id, t.index < b.next

theorem Tidy.nodup {b : Builder α} (h : b.Tidy) : b.places.Nodup := by
  apply h.places.imp
  rintro p q hlt rfl
  exact Nat.lt_irrefl _ hlt

theorem Tidy.newPlace_notMem {b : Builder α} (h : b.Tidy) : b.newPlace ∉ b.places := fun hp =>
  Nat.lt_irrefl _ (h.placesBelow _ hp)

theorem place?_eq_none {b : Builder α} {p : PlaceId} (hp : p ∉ b.places) :
    b.net.place? p = none := by
  refine List.find?_eq_none.mpr fun q hq => ?_
  simpa using fun he : q.id = p => hp (he ▸ List.mem_map_of_mem hq)

theorem mem_places_of_terms {b : Builder α} {p : PlaceId} {t : Terms α}
    (h : b.net.terms p = some t) : p ∈ b.places := by
  by_contra hp
  rw [Net.terms, place?_eq_none hp] at h
  cases h

/-- From one builder to another the places `ps` and the transitions `ts` were added, and of the
older places at most those of `es` were changed. -/
structure Growth (es : List PlaceId) (b b' : Builder α) (ps : List PlaceId)
    (ts : List (Transition α)) : Prop where
  places : b'.places = b.places ++ ps
  transitions : b'.net.transitions = b.net.transitions ++ ts
  tidy : b.Tidy → b'.Tidy
  keeps : ∀ p ∈ b.places, p ∉ es → b'.net.terms p = b.net.terms p

namespace Growth

variable {b b' b'' : Builder α} {es es' ps ps' : List PlaceId} {ts ts' : List (Transition α)}
  {p : PlaceId}

theorem mem_places (h : Growth es b b' ps ts) : p ∈ b'.places ↔ p ∈ b.places ∨ p ∈ ps := by
  rw [h.places, List.mem_append]

theorem old (h : Growth es b b' ps ts) (hp : p ∈ b.places) : p ∈ b'.places :=
  h.mem_places.mpr (Or.inl hp)

/-- What was added was not there before. -/
theorem notMem_of_mem (h : Growth es b b' ps ts) (hb : b.Tidy) (hp : p ∈ b.places) : p ∉ ps := by
  have hnodup := (h.tidy hb).nodup
  rw [h.places] at hnodup
  intro hp'
  exact (List.nodup_append.mp hnodup).2.2 p hp p hp' rfl

/-- Only the net and the next number matter. -/
theorem congr (h : Growth es b b' ps ts) (hnet : b''.net = b'.net) (hnext : b''.next = b'.next) :
    Growth es b b'' ps ts where
  places := by rw [← h.places, Builder.places, hnet, Builder.places]
  transitions := by rw [hnet, h.transitions]
  tidy := by
    intro hb
    have hb' := h.tidy hb
    refine ⟨?_, ?_, hnet ▸ hb'.transitions, hnext ▸ hnet ▸ hb'.transitionsBelow⟩
    · rw [Builder.places, hnet]
      exact hb'.places
    · rw [Builder.places, hnet, hnext]
      exact hb'.placesBelow
  keeps := by rw [hnet]; exact h.keeps

theorem terms {t : Terms α} (h : Growth es b b' ps ts) (ht : b.net.terms p = some t)
    (hp : p ∉ es) : b'.net.terms p = some t :=
  (h.keeps p (mem_places_of_terms ht) hp).trans ht

theorem weaken (h : Growth es b b' ps ts) (hes : es ⊆ es') : Growth es' b b' ps ts :=
  { h with keeps := fun p hp hne => h.keeps p hp fun he => hne (hes he) }

theorem cast (h : Growth es b b' ps ts) (hps : ps = ps') (hts : ts = ts') :
    Growth es b b' ps' ts' := hps ▸ hts ▸ h

/-- Growth composes; a change to a place that was added before does not count. -/
theorem trans (hb : b.Tidy) (h : Growth es b b' ps ts) (h' : Growth es' b' b'' ps' ts')
    (hes : ∀ p ∈ es', p ∈ es ∨ p ∈ ps) : Growth es b b'' (ps ++ ps') (ts ++ ts') where
  places := by rw [h'.places, h.places, List.append_assoc]
  transitions := by rw [h'.transitions, h.transitions, List.append_assoc]
  tidy := fun hb => h'.tidy (h.tidy hb)
  keeps := by
    intro p hp hne
    have hne' : p ∉ es' := fun he => (hes p he).elim hne (h.notMem_of_mem hb hp)
    rw [h'.keeps p (h.old hp) hne', h.keeps p hp hne]

end Growth

/-! ## Operations -/

theorem Growth.of_places {b b' : Builder α} (hplaces : b'.places = b.places)
    (htransitions : b'.net.transitions = b.net.transitions) (hnext : b'.next = b.next)
    {es : List PlaceId} (hkeeps : ∀ p ∈ b.places, p ∉ es → b'.net.terms p = b.net.terms p) :
    Growth es b b' [] [] where
  places := by rw [hplaces, List.append_nil]
  transitions := by rw [htransitions, List.append_nil]
  tidy := fun h =>
    ⟨hplaces ▸ h.places, hplaces ▸ hnext ▸ h.placesBelow, htransitions ▸ h.transitions,
      htransitions ▸ hnext ▸ h.transitionsBelow⟩
  keeps := hkeeps

section

variable {b : Builder α} {p q : PlaceId} {f : Place α → Place α}

theorem places_modifyPlace (hid : ∀ r, (f r).id = r.id) :
    (b.modifyPlace p f).places = b.places := by
  unfold places modifyPlace
  rw [List.map_map]
  apply List.map_congr_left
  intro r _
  by_cases hr : r.id = p
  · simp [hr, hid]
  · simp [hr]

theorem place?_modifyPlace (hid : ∀ r, (f r).id = r.id) :
    (b.modifyPlace p f).net.place? q =
      if q = p then (b.net.place? q).map f else b.net.place? q := by
  have hfind : (b.modifyPlace p f).net.place? q =
      (b.net.place? q).map fun r => if r.id = p then f r else r := by
    unfold modifyPlace Net.place?
    rw [List.find?_map]
    congr 2
    funext r
    by_cases hr : r.id = p <;> simp [hr, hid]
  rw [hfind]
  cases hq : b.net.place? q with
  | none => simp
  | some r =>
      obtain rfl := Net.place?_id hq
      by_cases hr : r.id = p <;> simp [hr]

theorem terms_modifyPlace {g : Terms α → Terms α} {t : Terms α} (hid : ∀ r, (f r).id = r.id)
    (hf : ∀ r, (f r).terms = g r.terms) (ht : b.net.terms p = some t) :
    (b.modifyPlace p f).net.terms p = some (g t) := by
  obtain ⟨r, hr, rfl⟩ := Option.map_eq_some_iff.mp ht
  rw [Net.terms, place?_modifyPlace hid, if_pos rfl, hr, Option.map_some, Option.map_some, hf]

/-- Changing a place changes no other. -/
theorem growth_modifyPlace (hid : ∀ r, (f r).id = r.id) :
    Growth [p] b (b.modifyPlace p f) [] [] :=
  .of_places (places_modifyPlace hid) rfl rfl fun q _ hq => by
    rw [Net.terms, place?_modifyPlace hid, if_neg (List.mem_singleton.not.mp hq)]
    rfl

/-- A change that no terms show is no change. -/
theorem growth_modifyPlace_of_terms (hid : ∀ r, (f r).id = r.id)
    (hterms : ∀ r, (f r).terms = r.terms) : Growth [] b (b.modifyPlace p f) [] [] :=
  .of_places (places_modifyPlace hid) rfl rfl fun q _ _ => by
    rw [Net.terms, place?_modifyPlace hid]
    split
    · rw [Option.map_map]
      exact congrArg (fun g => (b.net.place? q).map g) (funext hterms)
    · rfl

theorem growth_connect {kind : Kind} {h : Head α} {w : Wiring α} :
    Growth [] b (b.connect kind h w) [] [w.transition b.next kind h] where
  places := (List.append_nil _).symm
  transitions := rfl
  tidy := by
    intro hb
    refine ⟨hb.places, fun p hp => Nat.lt_succ_of_lt (hb.placesBelow p hp), ?_, ?_⟩
    · show ((b.net.transitions ++ [w.transition b.next kind h]).map _).Pairwise _
      rw [List.map_append]
      refine List.pairwise_append.mpr ⟨hb.transitions, List.pairwise_singleton _ _, ?_⟩
      intro t ht u hu
      obtain rfl := List.mem_singleton.mp hu
      exact hb.transitionsBelow t ht
    · show ∀ t ∈ (b.net.transitions ++ [w.transition b.next kind h]).map _, _
      rw [List.map_append]
      intro t ht
      rcases List.mem_append.mp ht with ht | ht
      · exact Nat.lt_succ_of_lt (hb.transitionsBelow t ht)
      · obtain rfl := List.mem_singleton.mp ht
        exact Nat.lt_succ_self _
  keeps := fun _ _ _ => rfl

/-- Ending a region changes no terms. -/
theorem growth_finish {kind : Kind} {h : Head α} {label : String} {entry exit : PlaceId}
    {children : List Layout} :
    Growth [] b (b.finish kind h label entry exit children).builder [] [] :=
  growth_modifyPlace_of_terms (fun _ => rfl) fun _ => rfl

variable [Quantity α]

theorem growth_addPlace : Growth [] b b.addPlace [b.newPlace] [] where
  places := by simp [places, addPlace, bare]
  transitions := (List.append_nil _).symm
  tidy := by
    intro h
    have hplaces : b.addPlace.places = b.places ++ [b.newPlace] := by simp [places, addPlace, bare]
    refine ⟨?_, ?_, h.transitions, fun t ht => Nat.lt_succ_of_lt (h.transitionsBelow t ht)⟩
    · rw [hplaces]
      refine List.pairwise_append.mpr ⟨h.places, List.pairwise_singleton _ _, ?_⟩
      intro p hp q hq
      obtain rfl := List.mem_singleton.mp hq
      exact h.placesBelow p hp
    · rw [hplaces]
      intro p hp
      rcases List.mem_append.mp hp with hp | hp
      · exact Nat.lt_succ_of_lt (h.placesBelow p hp)
      · obtain rfl := List.mem_singleton.mp hp
        exact Nat.lt_succ_self _
  keeps := by
    intro p hp _
    obtain ⟨r, hr, hid⟩ := List.mem_map.mp hp
    have hsome : (b.net.place? p).isSome := by
      refine List.find?_isSome.mpr ⟨r, hr, ?_⟩
      simpa using hid
    unfold Net.terms Net.place? addPlace at *
    rw [List.find?_append, Option.or_of_isSome hsome]

theorem terms_addPlace (hb : b.Tidy) : b.addPlace.net.terms b.newPlace = some (.lasting 0) := by
  have hnone := place?_eq_none hb.newPlace_notMem
  unfold Net.terms Net.place? addPlace at *
  rw [List.find?_append, hnone]
  simp [bare, Place.terms, Terms.lasting]

/-- Several new places in a row. -/
theorem growth_addPlaces (n : Nat) : ∀ {b : Builder α}, b.Tidy →
    Growth [] b (b.addPlaces n) ((List.range n).map fun i => ⟨b.next + i⟩) [] ∧
      ∀ i < n, (b.addPlaces n).net.terms ⟨b.next + i⟩ = some (.lasting 0) := by
  induction n with
  | zero =>
      intro _ _
      exact ⟨.of_places rfl rfl rfl fun _ _ _ => rfl, fun i hi => absurd hi (by omega)⟩
  | succ n ih =>
      intro b hb
      have hone := growth_addPlace (b := b)
      obtain ⟨hgrowth, hterms⟩ := ih (hone.tidy hb)
      have hnext : b.addPlace.next = b.next + 1 := rfl
      simp only [hnext] at hgrowth hterms
      refine ⟨?_, fun i hi => ?_⟩
      · have hrange : ((List.range (n + 1)).map fun i => PlaceId.mk (b.next + i)) =
            b.newPlace :: (List.range n).map fun i => ⟨b.next + 1 + i⟩ := by
          rw [List.range_succ_eq_map, List.map_cons, List.map_map]
          refine congrArg _ (List.map_congr_left ?_)
          intro i _
          simp only [Function.comp_apply, Nat.succ_eq_add_one, Nat.add_assoc, Nat.add_comm 1]
        rw [hrange]
        exact hone.trans hb hgrowth (by simp)
      · cases i with
        | zero =>
            have hnew : b.newPlace ∈ b.addPlace.places :=
              hone.mem_places.mpr (Or.inr List.mem_cons_self)
            exact (hgrowth.keeps _ hnew List.not_mem_nil).trans (terms_addPlace hb)
        | succ i =>
            rw [Nat.add_comm i, ← Nat.add_assoc]
            exact hterms i (by omega)

theorem next_addPlaces (n : Nat) : ∀ b : Builder α, (b.addPlaces n).next = b.next + n := by
  induction n with
  | zero => exact fun _ => rfl
  | succ n ih =>
      intro b
      rw [addPlaces, ih]
      show b.next + 1 + n = _
      rw [Nat.add_assoc, Nat.add_comm 1]

omit [Quantity α] in
/-- In a tidy net, the places numbered from one on are that place and all that follow it. -/
theorem placesFrom_eq (hb : b.Tidy) {old new : List PlaceId} {first except : PlaceId}
    (hplaces : b.places = old ++ first :: new) :
    b.placesFrom first except = (first :: new).filter (· != except) := by
  have hsorted := hb.places
  rw [hplaces] at hsorted
  obtain ⟨_, hfirst, hcross⟩ := List.pairwise_append.mp hsorted
  have hold : ∀ p ∈ old, ¬ first.index ≤ p.index := fun p hp =>
    Nat.not_le.mpr (hcross p hp first List.mem_cons_self)
  have hnew : ∀ p ∈ first :: new, first.index ≤ p.index := by
    intro p hp
    rcases List.mem_cons.mp hp with rfl | hp
    · exact Nat.le_refl _
    · exact Nat.le_of_lt ((List.pairwise_cons.mp hfirst).1 p hp)
  show b.places.filter _ = _
  rw [hplaces, List.filter_append, List.filter_eq_nil_iff.mpr, List.nil_append]
  · exact List.filter_congr fun p hp => by simp [hnew p hp]
  · intro p hp
    exact by simp [hold p hp]

/-- Starting a region charges its duration where it starts. -/
def startAt (h : Head α) (r : Place α) : Place α :=
  { r with duration := r.duration + h.duration, entryOf := some h.id }

theorem growth_enter {entry : PlaceId} {kind : Kind} {h : Head α} :
    Growth [entry] b (b.enter entry kind h) [] [] :=
  (growth_modifyPlace (f := startAt h) fun _ => rfl).congr rfl rfl

theorem terms_enter {entry : PlaceId} {kind : Kind} {h : Head α} {acc : α}
    (hentry : b.net.terms entry = some (.lasting acc)) :
    (b.enter entry kind h).net.terms entry = some (.lasting (acc + h.duration)) :=
  terms_modifyPlace (f := startAt h) (g := fun t => { t with duration := t.duration + h.duration })
    (fun _ => rfl) (fun _ => rfl) hentry

end

end Builder

end RegionNet
