import RegionNet.Proofs.Confluence
import RegionNet.Proofs.Journey

/-!
# Commuting

Transitions that want different tokens do not disturb each other, not even by what they leave
behind in the marking: whichever fires first, all places end up with the same tokens of the same
ages and with the same visits (`Consists.fire_comm`). A loop that goes back forgets the visits of
its body, but while it can go back, nothing can fire in there.

So the order in which transitions fire on their own cannot be told from where they come to rest:
they are the same ones in each order, none of them fires twice, and the marking in the end is the
same (`Workflow.commutes_of_validate`).
-/

namespace RegionNet

variable {α : Type} [Quantity α]

/-- No transition of the net can fire on its own. -/
def Net.Quiet (net : Net α) (m : Marking α) : Prop :=
  ∀ t ∈ net.transitions, t.stop = false → net.tokenEnabled t m = false

instance (net : Net α) (m : Marking α) : Decidable (net.Quiet m) :=
  inferInstanceAs (Decidable (∀ t ∈ net.transitions, t.stop = false → _))

/-- The marking lists the places of the net. -/
structure Net.Lists (net : Net α) (m : Marking α) : Prop where
  ordered : m.Ordered
  places : m.places = net.places.map Place.id

/-- Transitions that are enabled at the same time may fire in any order. -/
structure Workflow.Commutes (w : Workflow α) (m : Marking α) : Prop where
  /-- Two that want no common token: the one leaves the other enabled, and both orders lead to the
  same marking. -/
  pair : ∀ t ∈ w.net.transitions, ∀ u ∈ w.net.transitions, w.net.tokenEnabled t m = true →
    w.net.tokenEnabled u m = true → t.inputs.Disjoint u.inputs →
      w.net.tokenEnabled u (m.fire t) = true ∧ w.net.tokenEnabled t (m.fire u) = true ∧
        (m.fire t).fire u = (m.fire u).fire t
  /-- What fires on its own comes to rest ... -/
  finite : ∀ ts m', w.net.Run m ts m' → (∀ t ∈ ts, t.stop = false) →
    ts.length ≤ w.net.transitions.length
  /-- ... and it is always the same transitions that have fired then, with the same result. -/
  rest : ∀ ts us m' m'', w.net.Run m ts m' → (∀ t ∈ ts, t.stop = false) → w.net.Quiet m' →
    w.net.Run m us m'' → (∀ u ∈ us, u.stop = false) → w.net.Quiet m'' → ts.Perm us ∧ m' = m''

namespace Net

variable {net : Net α} {m m' : Marking α} {ts : List (Transition α)} {p : PlaceId}

theorem lists_empty (h : (net.places.map Place.id).Pairwise fun p q => p.index < q.index) :
    net.Lists (.empty net) :=
  ⟨.empty h, by rw [Marking.places, Marking.empty, List.map_map]; rfl⟩

theorem Lists.modify (h : net.Lists m) (hp : p ∈ net.places.map Place.id)
    (f : PlaceState α → PlaceState α) : net.Lists (m.modify p f) := by
  have hlisted : p ∈ m.places := by rwa [h.places]
  exact ⟨h.ordered.modify p f,
    (Marking.map_modifyStates f m.states h.ordered hlisted).trans h.places⟩

theorem Lists.addTime (h : net.Lists m) (dt : α) : net.Lists (m.addTime dt) :=
  ⟨h.ordered.addTime dt, (Marking.places_addTime h.ordered dt).trans h.places⟩

theorem lists_withTokens (h : (net.places.map Place.id).Pairwise fun p q => p.index < q.index)
    {tokens : List (PlaceId × Nat)} (htokens : ∀ x ∈ tokens, x.1 ∈ net.places.map Place.id) :
    net.Lists (.withTokens net tokens) := by
  suffices hall : ∀ m, net.Lists m →
      net.Lists (tokens.foldl (fun m x => m.setTokens x.1 x.2) m) from hall _ (lists_empty h)
  induction tokens with
  | nil => exact fun _ hm => hm
  | cons x xs ih =>
      obtain ⟨hx, hxs⟩ := List.forall_mem_cons.mp htokens
      exact fun m hm => ih hxs _ (hm.modify hx _)

/-- Tokens are new where one was taken on the way. -/
theorem Run.age (hnet : net.Plain) (h : net.Run m ts m') (hm : m.Ordered) :
    (m'.state p).age = if p ∈ ts.flatMap Transition.inputs then 0 else (m.state p).age := by
  induction h with
  | nil => rfl
  | @cons m m' t ts ht _ _ ih =>
      obtain ⟨hpre, hpost⟩ := hnet t ht
      rw [ih (hm.fire hpre hpost), Marking.age_fire hm hpre hpost, List.flatMap_cons]
      simp only [List.mem_append]
      by_cases hp : p ∈ ts.flatMap Transition.inputs <;> simp [hp]

end Net

namespace Workflow.Consists

variable {w : Workflow α} {P : Piece α} {m m' m'' : Marking α} {ts us : List (Transition α)}
  {t u : Transition α}

open Piece

theorem lists_initial (h : w.Consists P) : w.net.Lists w.initial := by
  have hentry : P.entry ∈ w.net.places.map Place.id := by
    rw [h.places]
    exact List.mem_cons_self
  rw [h.initial]
  exact Net.lists_withTokens h.ordered (List.forall_mem_singleton.mpr hentry)

theorem lists_fire (h : w.Consists P) (hm : w.net.Lists m) (ht : t ∈ w.net.transitions) :
    w.net.Lists (m.fire t) := by
  obtain ⟨hpre, hpost⟩ := h.plain t ht
  have hwithin := h.placed.within (h.transitions ▸ ht)
  have hground : P.ground ⊆ m.places := fun p hp => by
    rw [hm.places, h.places]
    exact h.placed.fits.ground_perm.mem_iff.mp hp
  refine ⟨hm.ordered.fire hpre hpost, (Marking.places_fire hm.ordered hpre hpost ?_ ?_ ?_).trans
    hm.places⟩
  · exact fun p hp => hground (zone_subset_ground P (hwithin.inputs hp))
  · exact fun p hp => hground (hwithin.outputs hp)
  · exact fun p hp => hground (zone_subset_ground P (hwithin.resets hp))

theorem lists_of_wanders (h : w.Consists P) (hm : w.net.Lists m) (hwanders : w.net.Wanders m m') :
    w.net.Lists m' := by
  induction hwanders with
  | refl => exact hm
  | fire _ ht _ ih => exact h.lists_fire ih ht
  | rest _ dt ih => exact ih.addTime dt

/-- Runs of the same transitions that lead to the same tally lead to the same marking. -/
theorem eq_of_perm (h : w.Consists P) (hm : w.net.Lists m) (hrun : w.net.Run m ts m')
    (hrun' : w.net.Run m us m'') (hperm : ts.Perm us) (htally : m'.tally = m''.tally) :
    m' = m'' := by
  have hm' := h.lists_of_wanders hm (hrun.wanders (.refl m))
  have hm'' := h.lists_of_wanders hm (hrun'.wanders (.refl m))
  refine Marking.ext_of_state hm'.ordered hm''.ordered (hm'.places.trans hm''.places.symm) ?_
  intro p
  have hage : (m'.state p).age = (m''.state p).age := by
    rw [hrun.age h.plain hm.ordered, hrun'.age h.plain hm.ordered]
    simp only [(hperm.flatMap_right Transition.inputs).mem_iff]
  obtain ⟨htokens, hvisits⟩ := Prod.ext_iff.mp (congrFun htally p)
  exact PlaceState.ext htokens hage hvisits

/-- It makes no difference which one of two enabled transitions fires first if they want no common
token. -/
theorem fire_comm (h : w.Consists P) (hm : w.net.Lists m) (hlive : P.Live m.tally)
    (ht : t ∈ w.net.transitions) (hu : u ∈ w.net.transitions)
    (het : w.net.tokenEnabled t m = true) (heu : w.net.tokenEnabled u m = true)
    (hdisj : t.inputs.Disjoint u.inputs) :
    w.net.tokenEnabled u (m.fire t) = true ∧ w.net.tokenEnabled t (m.fire u) = true ∧
      (m.fire t).fire u = (m.fire u).fire t := by
  have htu : Independent t u := fun p hpu hpt => hdisj hpt hpu
  have hut : Independent u t := fun p hpt hpu => hdisj hpt hpu
  have heu' : Timing.counter.enabled w.net u (m.fire t) = true :=
    h.enabled_of_independent hm.ordered ht hu heu htu
  have het' : Timing.counter.enabled w.net t (m.fire u) = true :=
    h.enabled_of_independent hm.ordered hu ht het hut
  refine ⟨heu', het', ?_⟩
  refine h.eq_of_perm hm (.cons ht het (.cons hu heu' (.nil _)))
    (.cons hu heu (.cons ht het' (.nil _))) (List.Perm.swap u t []) ?_
  obtain ⟨hpre, hpost⟩ := h.plain t ht
  obtain ⟨hpre', hpost'⟩ := h.plain u hu
  have hat := (h.enabled_iff ht).mp het
  have hau := (h.enabled_iff hu).mp heu
  have hbusy := h.placed.busy_of_admits hlive (h.transitions ▸ ht) hat
  rw [Marking.tally_fire (hm.ordered.fire hpre hpost) hpre' hpost',
    Marking.tally_fire hm.ordered hpre hpost,
    Marking.tally_fire (hm.ordered.fire hpre' hpost') hpre hpost,
    Marking.tally_fire hm.ordered hpre' hpost']
  exact h.placed.fire_comm hbusy (h.transitions ▸ ht) hat (h.transitions ▸ hu) hau htu

/-- What fires on its own follows the rule that takes no decision. -/
theorem allows_iff (h : w.Consists P) {f : Tally} : w.Allows (fun _ _ => none) f t ↔
    t ∈ w.net.transitions ∧ f.Admits w.net.limit t ∧ t.stop = false := by
  constructor
  · intro ht
    refine ⟨ht.mem, ht.admits, Bool.eq_false_iff.mpr fun hstop => ?_⟩
    obtain ⟨p, hp⟩ := List.exists_mem_of_ne_nil _ (h.placed.within (h.transitions ▸ ht.mem)).takes
    cases ht.ruled hstop p hp
  · rintro ⟨ht, ha, hfree⟩
    exact ⟨ht, ha, fun hstop => by rw [hfree] at hstop; cases hstop⟩

theorem walk_of_run (h : w.Consists P) (hm : m.Ordered) (hrun : w.net.Run m ts m')
    (hfree : ∀ t ∈ ts, t.stop = false) :
    Tally.Walk (w.Allows fun _ _ => none) m.tally ts m'.tally := by
  induction hrun with
  | nil => exact .nil _
  | cons ht he _ ih =>
      obtain ⟨hfirst, hfree⟩ := List.forall_mem_cons.mp hfree
      obtain ⟨hpre, hpost⟩ := h.plain _ ht
      have hwalk := ih (hm.fire hpre hpost) hfree
      rw [Marking.tally_fire hm hpre hpost] at hwalk
      exact .cons (h.allows_iff.mpr ⟨ht, (h.enabled_iff ht).mp he, hfirst⟩) hwalk

theorem not_allows_of_quiet (h : w.Consists P) (hquiet : w.net.Quiet m) (t : Transition α) :
    ¬ w.Allows (fun _ _ => none) m.tally t := by
  intro hallows
  obtain ⟨ht, ha, hfree⟩ := h.allows_iff.mp hallows
  have he := (h.enabled_iff ht).mpr ha
  rw [hquiet t ht hfree] at he
  cases he

theorem commutes (h : w.Consists P) (hm : w.net.Lists m) (hlive : P.Live m.tally) :
    w.Commutes m := by
  constructor
  · intro t ht u hu het heu hdisj
    exact h.fire_comm hm hlive ht hu het heu hdisj
  · intro ts m' hrun hfree
    have hpath := (hrun.path h.plain hm.ordered).2
    have hused := h.placed.pristine_path hlive (h.transitions ▸ hpath) hfree
    have hle : P.pristine m.tally ≤ w.net.transitions.length := by
      rw [h.transitions]
      exact List.countP_le_length
    omega
  · intro ts us m' m'' hrun hfree hquiet hrun' hfree' hquiet'
    obtain ⟨hperm, htally⟩ := (h.walk_of_run hm.ordered hrun hfree).confluent h.diamond hlive
      (h.walk_of_run hm.ordered hrun' hfree') (h.not_allows_of_quiet hquiet)
      (h.not_allows_of_quiet hquiet')
    exact ⟨hperm, h.eq_of_perm hm hrun hrun' hperm htally⟩

end Workflow.Consists

/-- Wherever a valid process can get, concurrent transitions commute, and what fires on its own
comes to rest in one way only. -/
theorem Workflow.commutes_of_validate {r : Region α} (h : r.validate = .ok ()) :
    ∃ w, compile r = .ok w ∧ ∀ m, w.net.Wanders w.initial m → w.Commutes m := by
  obtain ⟨blk, n, -, hcompile, hproper, -⟩ := compile_of_validate h
  obtain ⟨P, rfl, hP⟩ := exists_piece hproper
  refine ⟨_, hcompile, fun m hwanders => ?_⟩
  obtain ⟨-, ts, hpath⟩ := hwanders.path hP.plain hP.ordered_initial
  exact hP.commutes (hP.lists_of_wanders hP.lists_initial hwanders) (hP.alive_of_path hpath).1

/-- After the fork of the small description the tasks of both branches are enabled, and whichever
comes first, the process comes to rest before the choice in the same marking. -/
theorem Workflow.commutes_sample : ∃ (w : Workflow Rat) (m m' : Marking Rat)
    (t u : Transition Rat) (ts us : List (Transition Rat)),
      Workflow.compile Region.sample = .ok w ∧ w.net.Wanders w.initial m ∧ t.id ≠ u.id ∧
      t.inputs.Disjoint u.inputs ∧ w.net.tokenEnabled u (m.fire t) = true ∧
      w.net.tokenEnabled t (m.fire u) = true ∧ (m.fire t).fire u = (m.fire u).fire t ∧
      w.net.Run m ts m' ∧ w.net.Run m us m' ∧ w.net.Quiet m' ∧ ts.length = 4 ∧ ts.Perm us := by
  obtain ⟨w, hcompile, hall⟩ := Workflow.commutes_of_validate Region.sample_valid
  have hcheck : (match Workflow.compile Region.sample with
      | .ok w =>
          let fired (is : List Nat) := is.filterMap fun i => w.net.transitions[i]?
          (w.net.replay [0] w.initial).any fun m =>
            (w.net.transitions[1]?).any fun t => (w.net.transitions[2]?).any fun u =>
            (w.net.replay [1, 2, 3, 4] m).any fun m' => (w.net.replay [2, 1, 3, 4] m).any fun m'' =>
              t.id ≠ u.id ∧ (∀ p ∈ t.inputs, p ∉ u.inputs) ∧
                w.net.tokenEnabled t m = true ∧ w.net.tokenEnabled u m = true ∧
                (∀ v ∈ fired [1, 2, 3, 4], v.stop = false) ∧ w.net.Quiet m' ∧
                (∀ v ∈ fired [2, 1, 3, 4], v.stop = false) ∧ w.net.Quiet m'' ∧
                (fired [1, 2, 3, 4]).length = 4
      | .error _ => false) = true := by decide +kernel
  rw [hcompile] at hcheck
  simp only [Option.any_eq_true, decide_eq_true_eq] at hcheck
  obtain ⟨m, hm, t, ht, u, hu, m', hm', m'', hm'', hne, hdisj, het, heu, hfree, hquiet, hfree',
    hquiet', hlength⟩ := hcheck
  have hwanders := (Net.run_of_replay hm).wanders (.refl _)
  have hrun := Net.run_of_replay hm'
  have hrun' := Net.run_of_replay hm''
  obtain ⟨heu', het', hsame⟩ := (hall m hwanders).pair t (List.mem_of_getElem? ht) u
    (List.mem_of_getElem? hu) het heu hdisj
  obtain ⟨hperm, rfl⟩ := (hall m hwanders).rest _ _ m' m'' hrun hfree hquiet hrun' hfree' hquiet'
  exact ⟨w, m, m', t, u, _, _, hcompile, hwanders, hne, hdisj, heu', het', hsame, hrun, hrun',
    hquiet, hlength, hperm⟩

end RegionNet
