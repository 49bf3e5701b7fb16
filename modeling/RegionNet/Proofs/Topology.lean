import RegionNet.Proofs.FreeChoice
import RegionNet.Proofs.Journey
import RegionNet.Proofs.Name
import RegionNet.View.Net

/-!
# Reading a net view

A net view shows every node under its name and every arc as a pair of names. A reader finds the
presets and postsets again by collecting the arcs of each transition: since no two nodes share a
name, and since the arcs of a transition stand together in the order of its preset and postset, the
view determines how the net is joined (`Workflow.depicts_of_compile`).
-/

namespace RegionNet

variable {α : Type}

/-! ## Arcs and their transitions -/

namespace Arc

/-- The ends of an arc. -/
def ends (a : Arc) : Node × Node := (a.source, a.target)

/-- The views of the arcs that have a node at one end are those with its name there. -/
theorem filter_views (x : Node) {f : Arc → Node} {g : ArcView → String}
    (hg : ∀ a : Arc, g a.view = (f a).name) (as : List Arc) :
    (as.map view).filter (g · = x.name) = (as.filter (f · = x)).map view := by
  rw [List.filter_map]
  refine congrArg _ (List.filter_congr fun a _ => decide_eq_decide.mpr ?_)
  rw [hg]
  exact Node.name_injective.eq_iff

end Arc

namespace Transition

variable {t u : Transition α} {a : Arc}

/-- The arcs into a transition. -/
def arcsIn (t : Transition α) : List Arc :=
  t.preset.map fun (p, n) => ⟨.place p, .transition t.id, n⟩

/-- The arcs out of a transition. -/
def arcsOut (t : Transition α) : List Arc :=
  t.postset.map fun (p, n) => ⟨.transition t.id, .place p, n⟩

theorem mem_arcsIn : a ∈ t.arcsIn ↔
    ∃ p n, (p, n) ∈ t.preset ∧ a = ⟨.place p, .transition t.id, n⟩ := by
  simp only [arcsIn, List.mem_map, Prod.exists, eq_comm]

theorem mem_arcsOut : a ∈ t.arcsOut ↔
    ∃ p n, (p, n) ∈ t.postset ∧ a = ⟨.transition t.id, .place p, n⟩ := by
  simp only [arcsOut, List.mem_map, Prod.exists, eq_comm]

/-- Into a transition lead its own arcs, and no others. -/
theorem filter_target (t u : Transition α) :
    (u.arcsIn ++ u.arcsOut).filter (·.target = .transition t.id) =
      if u.id = t.id then u.arcsIn else [] := by
  have hout : u.arcsOut.filter (·.target = .transition t.id) = [] := by
    simp [arcsOut, List.filter_map, Function.comp_def]
  rw [List.filter_append, hout, List.append_nil]
  split <;> simp [arcsIn, List.filter_map, Function.comp_def, *]

theorem filter_source (t u : Transition α) :
    (u.arcsIn ++ u.arcsOut).filter (·.source = .transition t.id) =
      if u.id = t.id then u.arcsOut else [] := by
  have hin : u.arcsIn.filter (·.source = .transition t.id) = [] := by
    simp [arcsIn, List.filter_map, Function.comp_def]
  rw [List.filter_append, hin, List.nil_append]
  split <;> simp [arcsOut, List.filter_map, Function.comp_def, *]

theorem nodup_ends (hin : t.inputs.Nodup) (hout : t.outputs.Nodup) :
    ((t.arcsIn ++ t.arcsOut).map Arc.ends).Nodup := by
  have hleft : t.arcsIn.map Arc.ends =
      t.inputs.map fun p => (Node.place p, Node.transition t.id) := by
    simp [arcsIn, inputs, Arc.ends, Function.comp_def]
  have hright : t.arcsOut.map Arc.ends =
      t.outputs.map fun p => (Node.transition t.id, Node.place p) := by
    simp [arcsOut, outputs, Arc.ends, Function.comp_def]
  rw [List.map_append, hleft, hright, List.nodup_append]
  refine ⟨hin.map fun p q h => by simpa using h, hout.map fun p q h => by simpa using h, ?_⟩
  simp

end Transition

namespace Net

variable {net : Net α} {t : Transition α} {a : Arc}

theorem arcs_eq (net : Net α) :
    net.arcs = net.transitions.flatMap fun t => t.arcsIn ++ t.arcsOut := rfl

theorem mem_arcs : a ∈ net.arcs ↔ ∃ t ∈ net.transitions, a ∈ t.arcsIn ∨ a ∈ t.arcsOut := by
  simp only [arcs_eq, List.mem_flatMap, List.mem_append]

/-- Of what is listed for the transitions that have one id, all comes from one transition. -/
theorem flatMap_of_id {β : Type} {ts : List (Transition α)} (f : Transition α → List β)
    (hids : (ts.map Transition.id).Nodup) (ht : t ∈ ts) :
    (ts.flatMap fun u => if u.id = t.id then f u else []) = f t := by
  induction ts with
  | nil => cases ht
  | cons u us ih =>
      obtain ⟨hu, hus⟩ := List.nodup_cons.mp hids
      have hother : ∀ v ∈ us, v.id ≠ u.id := fun v hv he => hu (he ▸ List.mem_map_of_mem hv)
      rw [List.flatMap_cons]
      rcases List.mem_cons.mp ht with rfl | ht
      · have hrest : (us.flatMap fun v => if v.id = t.id then f v else []) = [] :=
          List.flatMap_eq_nil_iff.mpr fun v hv => if_neg (hother v hv)
        rw [if_pos rfl, hrest, List.append_nil]
      · rw [if_neg (hother t ht).symm, ih hus ht, List.nil_append]

/-- What is picked of every transition only if it has one id is picked of one transition. -/
theorem filter_arcs {f : Arc → Node} {g : Transition α → List Arc}
    (hids : (net.transitions.map Transition.id).Nodup) (ht : t ∈ net.transitions)
    (hg : ∀ u : Transition α, (u.arcsIn ++ u.arcsOut).filter (f · = .transition t.id) =
      if u.id = t.id then g u else []) :
    net.arcs.filter (f · = .transition t.id) = g t := by
  rw [arcs_eq, List.filter_flatMap]
  simp only [hg]
  exact flatMap_of_id g hids ht

/-- No two arcs have the same ends. -/
theorem nodup_ends (hids : (net.transitions.map Transition.id).Nodup)
    (hsimple : ∀ t ∈ net.transitions, t.inputs.Nodup ∧ t.outputs.Nodup) :
    (net.arcs.map Arc.ends).Nodup := by
  rw [arcs_eq, List.map_flatMap, List.nodup_flatMap]
  refine ⟨fun t ht => Transition.nodup_ends (hsimple t ht).1 (hsimple t ht).2, ?_⟩
  refine (List.pairwise_map.mp hids).imp fun {t u} hne e he he' => ?_
  obtain ⟨a, ha, rfl⟩ := List.mem_map.mp he
  obtain ⟨b, hb, hends⟩ := List.mem_map.mp he'
  simp only [Arc.ends, Prod.mk.injEq] at hends
  simp only [List.mem_append, Transition.mem_arcsIn, Transition.mem_arcsOut] at ha hb
  obtain ⟨_, _, -, rfl⟩ | ⟨_, _, -, rfl⟩ := ha <;>
    obtain ⟨_, _, -, rfl⟩ | ⟨_, _, -, rfl⟩ := hb
  · exact hne (Node.transition.inj hends.2).symm
  · exact Node.noConfusion hends.1
  · exact Node.noConfusion hends.1
  · exact hne (Node.transition.inj hends.1).symm

end Net

/-! ## Markings in views -/

namespace Marking

variable [Quantity α] {m : Marking α} {net : Net α} {p : PlaceId}

/-- A view shows the states of the places that are marked or have been visited. -/
theorem view_eq (h : m.Ordered) : m.view =
    (m.places.filter fun p => 0 < (m.state p).tokens || 0 < (m.state p).visits).map
      fun p => ⟨p.name, m.state p⟩ := by
  rw [view, states_eq h, List.filter_map, List.map_map]
  rfl

theorem places_withToken (h : (net.places.map Place.id).Pairwise fun p q => p.index < q.index)
    (hp : p ∈ net.places.map Place.id) :
    (withTokens net [(p, 1)]).places = net.places.map Place.id := by
  have hempty : (empty net).places = net.places.map Place.id := by
    rw [places, empty, List.map_map]
    rfl
  have hlisted : p ∈ (empty net).places := hempty ▸ hp
  exact (map_modifyStates _ _ (Ordered.empty h) hlisted).trans hempty

/-- The view of a marking with a single token shows where it is. -/
theorem view_withToken (h : (net.places.map Place.id).Pairwise fun p q => p.index < q.index)
    (hp : p ∈ net.places.map Place.id) :
    (withTokens net [(p, 1)]).view = [⟨p.name, ⟨1, 0, 0⟩⟩] := by
  have hshown : ∀ q, (0 < ((withTokens net [(p, 1)]).state q).tokens ||
      0 < ((withTokens net [(p, 1)]).state q).visits) = decide (q = p) := by
    intro q
    rw [state_withToken h]
    split <;> simp [PlaceState.fresh, *]
  have hone : (net.places.map Place.id).count p = 1 :=
    List.count_eq_one_of_mem (h.imp fun hlt he => Nat.ne_of_lt hlt (congrArg _ he)) hp
  rw [view_eq (Ordered.withToken h p), places_withToken h hp, List.filter_congr fun q _ => hshown q,
    List.filter_eq, hone, List.replicate_one, List.map_singleton, state_withToken h, if_pos rfl]

end Marking

/-! ## What a reader makes out -/

/-- How the nodes of a net are joined. -/
structure Topology where
  places : List PlaceId
  /-- Each transition with its preset and its postset. -/
  transitions : List (TransitionId × List (PlaceId × Nat) × List (PlaceId × Nat))
  deriving DecidableEq, Repr

def Net.topology (net : Net α) : Topology :=
  ⟨net.places.map Place.id, net.transitions.map fun t => (t.id, t.preset, t.postset)⟩

/-- The arc goes from one to the other, or back. -/
def ArcView.Joins (a : ArcView) (p t : String) : Prop :=
  a.source = p ∧ a.target = t ∨ a.source = t ∧ a.target = p

namespace NetView

/-- The sources of the arcs into a node. -/
def preset (v : NetView α) (id : String) : List (PlaceId × Nat) :=
  (v.arcs.filter (·.target = id)).map fun a => (.ofName a.source, a.weight)

/-- The targets of the arcs out of a node. -/
def postset (v : NetView α) (id : String) : List (PlaceId × Nat) :=
  (v.arcs.filter (·.source = id)).map fun a => (.ofName a.target, a.weight)

def topology (v : NetView α) : Topology :=
  ⟨v.places.map fun p => .ofName p.id,
    v.transitions.map fun t => (.ofName t.id, v.preset t.id, v.postset t.id)⟩

/-- The view shows how the net of a workflow is joined and where its process starts and ends. -/
structure Depicts [Quantity α] (v : NetView α) (w : Workflow α) : Prop where
  /-- No two nodes have the same id. -/
  distinct : (v.places.map PlaceView.id ++ v.transitions.map TransitionView.id).Nodup
  places : (v.places.map fun p => numberIn p.id).Pairwise (· < ·)
  transitions : (v.transitions.map fun t => numberIn t.id).Pairwise (· < ·)
  joins : ∀ a ∈ v.arcs, ∃! x : PlaceView α × TransitionView α,
    x.1 ∈ v.places ∧ x.2 ∈ v.transitions ∧ a.Joins x.1.id x.2.id
  /-- No two arcs have the same ends. -/
  single : (v.arcs.map fun a => (a.source, a.target)).Nodup
  topology : v.topology = w.net.topology
  initial : v.initial = [⟨w.layout.info.entry.name, ⟨1, 0, 0⟩⟩]
  final : v.final = [⟨w.layout.info.exit.name, ⟨1, 0, 0⟩⟩]

/-- Ids that tell all nodes apart also tell which nodes an arc joins. -/
theorem eq_of_joins {v : NetView α} {a : ArcView} {p q : PlaceView α} {t u : TransitionView α}
    (hdistinct : (v.places.map PlaceView.id ++ v.transitions.map TransitionView.id).Nodup)
    (hp : p ∈ v.places) (hq : q ∈ v.places) (ht : t ∈ v.transitions) (hu : u ∈ v.transitions)
    (h : a.Joins p.id t.id) (h' : a.Joins q.id u.id) : p = q ∧ t = u := by
  obtain ⟨hplaces, htransitions, hapart⟩ := List.nodup_append.mp hdistinct
  have hne : ∀ p ∈ v.places, ∀ t ∈ v.transitions, p.id ≠ t.id := fun p hp t ht =>
    hapart _ (List.mem_map_of_mem hp) _ (List.mem_map_of_mem ht)
  have hsame (hid : p.id = q.id) (hid' : t.id = u.id) : p = q ∧ t = u :=
    ⟨List.inj_on_of_nodup_map hplaces hp hq hid, List.inj_on_of_nodup_map htransitions ht hu hid'⟩
  rcases h with ⟨hs, ht'⟩ | ⟨hs, ht'⟩ <;> rcases h' with ⟨hs', hu'⟩ | ⟨hs', hu'⟩
  · exact hsame (hs.symm.trans hs') (ht'.symm.trans hu')
  · exact absurd (hs.symm.trans hs') (hne p hp u hu)
  · exact absurd (hs'.symm.trans hs) (hne q hq t ht)
  · exact hsame (ht'.symm.trans hu') (hs.symm.trans hs')

end NetView

namespace Workflow

variable {w : Workflow α} {t : Transition α} {name : String}

theorem preset_netView (hids : (w.net.transitions.map Transition.id).Nodup)
    (ht : t ∈ w.net.transitions) : (w.netView name).preset t.id.name = t.preset := by
  have harcs : (w.netView name).arcs.filter (·.target = t.id.name) = t.arcsIn.map Arc.view := by
    rw [← Net.filter_arcs hids ht t.filter_target]
    exact Arc.filter_views (.transition t.id) (fun _ => rfl) _
  rw [NetView.preset, harcs, Transition.arcsIn, List.map_map, List.map_map]
  refine (List.map_congr_left fun e _ => ?_).trans (List.map_id _)
  exact Prod.ext (PlaceId.ofName_name e.1) rfl

theorem postset_netView (hids : (w.net.transitions.map Transition.id).Nodup)
    (ht : t ∈ w.net.transitions) : (w.netView name).postset t.id.name = t.postset := by
  have harcs : (w.netView name).arcs.filter (·.source = t.id.name) = t.arcsOut.map Arc.view := by
    rw [← Net.filter_arcs hids ht t.filter_source]
    exact Arc.filter_views (.transition t.id) (fun _ => rfl) _
  rw [NetView.postset, harcs, Transition.arcsOut, List.map_map, List.map_map]
  refine (List.map_congr_left fun e _ => ?_).trans (List.map_id _)
  exact Prod.ext (PlaceId.ofName_name e.1) rfl

theorem topology_netView (hids : (w.net.transitions.map Transition.id).Nodup) :
    (w.netView name).topology = w.net.topology := by
  refine congrArg₂ Topology.mk ?_ ?_
  · rw [netView, List.map_map]
    exact List.map_congr_left fun p _ => PlaceId.ofName_name p.id
  · rw [show (w.netView name).transitions = w.net.transitions.map Transition.view from rfl,
      List.map_map]
    refine List.map_congr_left fun t ht => ?_
    exact congrArg₂ Prod.mk (TransitionId.ofName_name t.id)
      (congrArg₂ Prod.mk (preset_netView hids ht) (postset_netView hids ht))

namespace Consists

variable [Quantity α] {P : Piece α}

theorem nodup_nodes (h : w.Consists P) : w.net.nodes.Nodup := by
  refine List.nodup_append.mpr ⟨?_, ?_, ?_⟩
  · exact List.map_map ▸ h.nodup_places.map (f := Node.place) fun _ _ => Node.place.inj
  · exact List.map_map ▸ h.nodup_ids.map (f := Node.transition) fun _ _ => Node.transition.inj
  · simp

theorem distinct_netView (h : w.Consists P) :
    ((w.netView name).places.map PlaceView.id ++
      (w.netView name).transitions.map TransitionView.id).Nodup := by
  have hnames : (w.netView name).places.map PlaceView.id ++
      (w.netView name).transitions.map TransitionView.id = w.net.nodes.map Node.name := by
    simp only [netView, Net.nodes, List.map_append, List.map_map]
    rfl
  rw [hnames]
  exact h.nodup_nodes.map Node.name_injective

/-- Every arc of a view joins a place of the view with a transition of the view. -/
theorem exists_joins (h : w.Consists P) {a : ArcView} (ha : a ∈ (w.netView name).arcs) :
    ∃ p ∈ (w.netView name).places, ∃ t ∈ (w.netView name).transitions, a.Joins p.id t.id := by
  have hplace : ∀ t ∈ w.net.transitions, ∀ p, p ∈ t.inputs ∨ p ∈ t.outputs →
      ∃ q ∈ w.net.places, q.id = p := by
    intro t ht p hp
    have hwithin := h.placed.within (h.transitions ▸ ht)
    refine List.mem_map.mp (h.mem_places_iff.mpr ?_)
    exact hp.elim (fun hp => P.zone_subset_ground (hwithin.inputs hp)) (hwithin.outputs ·)
  obtain ⟨b, hb, rfl⟩ := List.mem_map.mp ha
  obtain ⟨t, ht, hb⟩ := Net.mem_arcs.mp hb
  rw [Transition.mem_arcsIn, Transition.mem_arcsOut] at hb
  rcases hb with ⟨p, n, hp, rfl⟩ | ⟨p, n, hp, rfl⟩
  · obtain ⟨q, hq, rfl⟩ := hplace t ht p (Or.inl (List.mem_map_of_mem hp))
    exact ⟨q.view, List.mem_map_of_mem hq, t.view, List.mem_map_of_mem ht, Or.inl ⟨rfl, rfl⟩⟩
  · obtain ⟨q, hq, rfl⟩ := hplace t ht p (Or.inr (List.mem_map_of_mem hp))
    exact ⟨q.view, List.mem_map_of_mem hq, t.view, List.mem_map_of_mem ht, Or.inr ⟨rfl, rfl⟩⟩

theorem single_netView (h : w.Consists P) :
    ((w.netView name).arcs.map fun a => (a.source, a.target)).Nodup := by
  have hends : (w.netView name).arcs.map (fun a => (a.source, a.target)) =
      (w.net.arcs.map Arc.ends).map (Prod.map Node.name Node.name) := by
    rw [netView, List.map_map, List.map_map]
    rfl
  rw [hends]
  refine (Net.nodup_ends h.nodup_ids fun t ht => ?_).map
    (Node.name_injective.prodMap Node.name_injective)
  obtain ⟨hin, hout, -⟩ := h.placed.simple (h.transitions ▸ ht)
  exact ⟨hin, hout⟩

theorem depicts (h : w.Consists P) (name : String) : (w.netView name).Depicts w where
  distinct := h.distinct_netView
  places := by
    simpa [netView, Place.view, List.pairwise_map] using h.ordered
  transitions := by
    simpa [netView, Transition.view, List.pairwise_map] using h.numbered
  joins a ha := by
    obtain ⟨p, hp, t, ht, hjoins⟩ := h.exists_joins ha
    refine ⟨(p, t), ⟨hp, ht, hjoins⟩, fun x ⟨hp', ht', hjoins'⟩ => ?_⟩
    obtain ⟨hp, ht⟩ := NetView.eq_of_joins h.distinct_netView hp' hp ht' ht hjoins' hjoins
    exact Prod.ext hp ht
  single := h.single_netView
  topology := topology_netView h.nodup_ids
  initial := by
    rw [h.layout, P.info_layout_entry]
    exact (congrArg Marking.view h.initial).trans
      (Marking.view_withToken h.ordered (h.mem_places_iff.mpr h.placed.entry_mem_ground))
  final := by
    rw [h.layout, P.info_layout_exit]
    exact (congrArg Marking.view h.final).trans
      (Marking.view_withToken h.ordered (h.mem_places_iff.mpr P.exit_mem_ground))

end Consists

/-- The view of a compiled net, under any name, shows how the net is joined and where it starts and
ends. -/
theorem depicts_of_compile [Quantity α] {r : Region α} (h : compile r = .ok w) (name : String) :
    (w.netView name).Depicts w := by
  obtain ⟨blk, n, -, hcompile, hproper, -⟩ := compile_of_validate (compile_eq_ok_iff.mp ⟨w, h⟩)
  obtain rfl := Except.ok.inj (hcompile.symm.trans h)
  obtain ⟨P, rfl, hP⟩ := exists_piece hproper
  exact hP.depicts name

/-- Place 12 of the sample has two producers, and two arcs of its loop lead to place 10. -/
theorem depicts_sample : ∃ w, compile Region.sample = .ok w ∧
    (w.netView "sample").Depicts w ∧ (w.netView "sample").arcs.length = 38 ∧
    (w.netView "sample").preset "t9" = [(⟨4⟩, 1), (⟨6⟩, 1)] ∧
    (w.netView "sample").postset "t17" = [(⟨12⟩, 1)] ∧
    (w.netView "sample").postset "t31" = [(⟨12⟩, 1)] ∧
    (w.netView "sample").postset "t11" = [(⟨10⟩, 1)] ∧
    (w.netView "sample").postset "t33" = [(⟨10⟩, 1)] := by
  obtain ⟨w, hcompile⟩ := compile_eq_ok_iff.mpr Region.sample_valid
  have hcheck : (match compile Region.sample with
      | .ok w =>
          (w.netView "sample").arcs.length = 38 &&
          (w.netView "sample").preset "t9" = [(⟨4⟩, 1), (⟨6⟩, 1)] &&
          (w.netView "sample").postset "t17" = [(⟨12⟩, 1)] &&
          (w.netView "sample").postset "t31" = [(⟨12⟩, 1)] &&
          (w.netView "sample").postset "t11" = [(⟨10⟩, 1)] &&
          (w.netView "sample").postset "t33" = [(⟨10⟩, 1)]
      | .error _ => false) = true := by decide +kernel
  rw [hcompile] at hcheck
  simp only [Bool.and_eq_true, decide_eq_true_eq, and_assoc] at hcheck
  exact ⟨w, hcompile, depicts_of_compile hcompile "sample", hcheck⟩

end Workflow

end RegionNet
