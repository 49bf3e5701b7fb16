import Mathlib.Data.List.Lattice
import Mathlib.Logic.Relation
import RegionNet.Proofs.Conflict
import RegionNet.Proofs.Origin
import RegionNet.Proofs.Soundness

/-!
# Free choice

The shape of compiled nets. There is one place that nothing leads to and one that nothing leads away
from, and all other nodes lie between them. Where more than one transition wants a token, all that
do are decisions of one region and want nothing else, so taking one of them instead of another is
a choice that does not depend on the rest of the net.

Who puts tokens where is read off the parts of a piece. That everything lies between the entry and
the exit follows from how tokens move instead: each transition gets its turn on a way through the
net, and on such a way tokens move along the arcs.
-/

namespace RegionNet

variable {α : Type}

/-! ## Ways along the arcs -/

namespace Net

def nodes (net : Net α) : List Node :=
  net.places.map (fun p => .place p.id) ++ net.transitions.map fun t => .transition t.id

/-- There is an arc from one node to another. -/
def Arrow (net : Net α) (x y : Node) : Prop := ∃ a ∈ net.arcs, a.source = x ∧ a.target = y

/-- There is a way from one node to another along the arcs. -/
def Leads (net : Net α) : Node → Node → Prop := Relation.ReflTransGen net.Arrow

variable {net : Net α} {t : Transition α} {p : PlaceId}

theorem mem_outgoing : t ∈ net.outgoing p ↔ t ∈ net.transitions ∧ p ∈ t.inputs := by
  rw [outgoing, List.mem_filter, List.contains_iff_mem]

theorem arrow_of_input (ht : t ∈ net.transitions) (hp : p ∈ t.inputs) :
    net.Arrow (.place p) (.transition t.id) := by
  obtain ⟨⟨_, w⟩, ha, rfl⟩ := List.mem_map.mp hp
  refine ⟨⟨.place _, .transition t.id, w⟩, List.mem_flatMap.mpr ⟨t, ht, ?_⟩, rfl, rfl⟩
  exact List.mem_append_left _ (List.mem_map.mpr ⟨_, ha, rfl⟩)

theorem arrow_of_output (ht : t ∈ net.transitions) (hp : p ∈ t.outputs) :
    net.Arrow (.transition t.id) (.place p) := by
  obtain ⟨⟨_, w⟩, ha, rfl⟩ := List.mem_map.mp hp
  refine ⟨⟨.transition t.id, .place _, w⟩, List.mem_flatMap.mpr ⟨t, ht, ?_⟩, rfl, rfl⟩
  exact List.mem_append_right _ (List.mem_map.mpr ⟨_, ha, rfl⟩)

theorem Plain.weight (h : net.Plain) {a : Arc} (ha : a ∈ net.arcs) : a.weight = 1 := by
  obtain ⟨t, ht, ha⟩ := List.mem_flatMap.mp ha
  obtain ⟨hpre, hpost⟩ := h t ht
  rw [hpre, hpost, List.map_map, List.map_map] at ha
  rcases List.mem_append.mp ha with ha | ha
  all_goals
    obtain ⟨p, _, rfl⟩ := List.mem_map.mp ha
    rfl

end Net

namespace Tally.Path

variable {net : Net α} {lim : PlaceId → Option Nat} {f g : Tally} {ts : List (Transition α)}
  {x : Node} {p : PlaceId}

/-- A token comes along the arcs from where a token has been before. -/
theorem leads_to (h : Path lim net.transitions f ts g)
    (htakes : ∀ t ∈ net.transitions, t.inputs ≠ [])
    (hf : ∀ p, 0 < (f p).1 → net.Leads x (.place p)) (hp : 0 < (g p).1) :
    net.Leads x (.place p) := by
  revert p
  apply h.invariant (I := fun g => ∀ {p}, 0 < (g p).1 → net.Leads x (.place p)) (hf _)
  intro g hg t ht ha p hp
  by_cases hout : p ∈ t.outputs
  · obtain ⟨q, hq⟩ := List.exists_mem_of_ne_nil _ (htakes t ht)
    exact ((hg (ha.1 q hq)).tail (Net.arrow_of_input ht hq)).tail (Net.arrow_of_output ht hout)
  · have htokens : (g.fire t p).1 = (g p).1 - t.inputs.count p + t.outputs.count p := rfl
    rw [List.count_eq_zero_of_not_mem hout] at htokens
    exact hg (by omega)

/-- A token stays, or goes along the arcs to where a token is in the end. -/
theorem leads_from (h : Path lim net.transitions f ts g)
    (hputs : ∀ t ∈ net.transitions, t.outputs ≠ []) (hp : 0 < (f p).1) :
    ∃ q, 0 < (g q).1 ∧ net.Leads (.place p) (.place q) := by
  induction h generalizing p with
  | nil => exact ⟨p, hp, .refl⟩
  | @cons f g t ts ht ha _ ih =>
      have htokens : ∀ q, (f.fire t q).1 = (f q).1 - t.inputs.count q + t.outputs.count q :=
        fun _ => rfl
      by_cases hin : p ∈ t.inputs
      · obtain ⟨q, hq⟩ := List.exists_mem_of_ne_nil _ (hputs t ht)
        have hcount : 0 < t.outputs.count q := List.count_pos_iff.mpr hq
        obtain ⟨r, hr, hway⟩ := ih (p := q) (by rw [htokens]; omega)
        exact ⟨r, hr, (hway.head (Net.arrow_of_output ht hq)).head (Net.arrow_of_input ht hin)⟩
      · refine ih ?_
        rw [htokens, List.count_eq_zero_of_not_mem hin]
        omega

end Tally.Path

/-! ## Where tokens come from and go to -/

namespace Piece

variable [Quantity α] {lim : PlaceId → Option Nat} {P Q : Piece α} {t u : Transition α}
  {p : PlaceId} {n : Nat}

/-- A transition takes from different places and puts on different others. -/
theorem Adds.simple (h : Q.Adds t) (hQ : Placed lim Q) :
    t.inputs.Nodup ∧ t.outputs.Nodup ∧ t.inputs.Disjoint t.outputs ∧ t.outputs ≠ [] := by
  cases h with
  | run s v =>
      have hne : s.exit ≠ s.entry := hQ.entry_ne_exit.symm
      simpa [Site.run] using hne
  | fork s bs =>
      have hnodup : (bs.map entry).Nodup := hQ.parallel.map_nodup fun b hb =>
        (hQ.parallel.branch hb).entry_mem_ground
      have hne : ∀ b ∈ bs, b.entry ≠ s.entry := fun b hb =>
        hQ.parallel.ne_entry hb (hQ.parallel.branch hb).entry_mem_ground
      simpa [Site.fork, hnodup, hQ.parallel.nonempty] using hne
  | join s bs =>
      have hnodup : (bs.map exit).Nodup := hQ.parallel.map_nodup fun b _ => exit_mem_ground b
      have hne : ∀ b ∈ bs, b.exit ≠ s.exit := fun b hb =>
        hQ.parallel.ne_exit hb (exit_mem_ground b)
      simpa [Site.join, hnodup] using hne
  | pick s g hi =>
      have hb := List.mem_of_getElem? hi
      simpa [Site.pick] using hQ.gateway.ne_entry hb (hQ.gateway.branch hb).entry_mem_ground
  | merge s g hi =>
      simpa [Site.merge] using
        (hQ.gateway.ne_exit (List.mem_of_getElem? hi) (exit_mem_ground _)).symm
  | enter s body x n =>
      simpa [Site.enter] using hQ.ne_entry_of_body hQ.body.entry_mem_ground
  | back s body x n => simpa [Site.back] using hQ.body.entry_ne_exit
  | leave s body x n =>
      simpa [Site.leave] using (hQ.ne_exit_of_body (exit_mem_ground body)).symm

theorem Placed.simple (hP : Placed lim P) (ht : t ∈ P.transitions) :
    t.inputs.Nodup ∧ t.outputs.Nodup ∧ t.inputs.Disjoint t.outputs ∧ t.outputs ≠ [] := by
  obtain ⟨Q, hpart, hadds⟩ := exists_adds ht
  exact hadds.simple (hpart.placed hP)

theorem role_of_inputs (ht : t ∈ P.transitions) (hin : 1 < t.inputs.length) : t.role = .join := by
  obtain ⟨Q, -, hadds⟩ := exists_adds ht
  cases hadds with
  | join s bs => rfl
  | run s v => simp [Site.run] at hin
  | fork s bs => simp [Site.fork] at hin
  | pick s g hi => simp [Site.pick] at hin
  | merge s g hi => simp [Site.merge] at hin
  | enter s body x n => simp [Site.enter] at hin
  | back s body x n => simp [Site.back] at hin
  | leave s body x n => simp [Site.leave] at hin

theorem Adds.entry_notMem_outputs (h : Q.Adds t) (hQ : Placed lim Q) : Q.entry ∉ t.outputs := by
  have hown : t.inputs = [Q.entry] → Q.entry ∉ t.outputs := fun hin =>
    (h.simple hQ).2.2.1 (hin ▸ List.mem_singleton_self _)
  have hexit : t.outputs = [Q.exit] → Q.entry ∉ t.outputs := fun hout hmem =>
    hQ.entry_ne_exit (List.mem_singleton.mp (hout ▸ hmem))
  cases h with
  | run s v => exact hown (by simp [Site.run, entry, site])
  | fork s bs => exact hown (by simp [Site.fork, entry, site])
  | join s bs => exact hexit (by simp [Site.join, exit, site])
  | pick s g hi => exact hown (by simp [Site.pick, entry, site])
  | merge s g hi => exact hexit (by simp [Site.merge, exit, site])
  | enter s body x n => exact hown (by simp [Site.enter, entry, site])
  | leave s body x n => exact hexit (by simp [Site.leave, exit, site])
  | back s body x n =>
      have hout : (s.back body x).outputs = [body.entry] := by simp [Site.back]
      rw [hout, List.mem_singleton]
      exact (hQ.ne_entry_of_body hQ.body.entry_mem_ground).symm

/-- No transition of a piece puts a token on its entry. -/
theorem Placed.entry_notMem_outputs (hP : Placed lim P) (ht : t ∈ P.transitions) :
    P.entry ∉ t.outputs := by
  induction P using Piece.ind with
  | task s v =>
      obtain rfl : t = s.run := List.mem_singleton.mp ht
      exact (Adds.run s v).entry_notMem_outputs hP
  | sequential s P Q ihP ihQ =>
      have hentry : (Piece.sequential s P Q).entry = P.entry := hP.fst_entry.symm
      rw [hentry]
      rcases List.mem_append.mp ht with ht | ht
      · exact ihP hP.fst ht
      · exact fun hout =>
          hP.notMem_snd_ground hP.fst.entry_mem_zone ((hP.snd.within ht).outputs hout)
  | parallel s bs ih =>
      rcases adds_or_below ht with hadds | ⟨b, hb, ht⟩
      · exact hadds.entry_notMem_outputs hP
      · have hwithin := (hP.parallel.branch hb).within ht
        exact fun hout => hP.parallel.entry_notMem hb (hwithin.outputs hout)
  | gateway s g bs ih =>
      rcases adds_or_below ht with hadds | ⟨b, hb, ht⟩
      · exact hadds.entry_notMem_outputs hP
      · have hwithin := (hP.gateway.branch hb).within ht
        exact fun hout => hP.gateway.entry_notMem hb (hwithin.outputs hout)
  | loop s body x n ih =>
      rcases adds_or_below ht with hadds | ⟨b, hb, hbelow⟩
      · exact hadds.entry_notMem_outputs hP
      · obtain rfl := List.mem_singleton.mp hb
        have hwithin := hP.body.within hbelow
        exact fun hout => hP.entry_notMem_body (hwithin.outputs hout)

omit [Quantity α] in
theorem info_layout_entry (P : Piece α) : P.layout.info.entry = P.entry := by
  cases P <;> rfl

/-- The piece decides at a place: it has more than one transition that takes a token from there, and
adds all that do itself. -/
structure Decider (Q : Piece α) (p : PlaceId) : Prop where
  zone : p ∈ Q.zone
  adds : ∀ t ∈ Q.transitions, p ∈ t.inputs → Q.Adds t
  rivals : ∃ t u, t ∈ Q.transitions ∧ u ∈ Q.transitions ∧ p ∈ t.inputs ∧ p ∈ u.inputs ∧ t ≠ u

theorem Branched.decider {s : Site α} {g : Gate α} {bs : List (Piece α)} (h : Branched lim s bs)
    (htwo : 2 ≤ bs.length) : (Piece.gateway s g bs).Decider s.entry := by
  refine ⟨List.mem_cons_self, ?_, ?_⟩
  · intro t ht hin
    rcases adds_or_below ht with hadds | ⟨b, hb, ht⟩
    · exact hadds
    · exact absurd (zone_subset_ground _ (((h.branch hb).within ht).inputs hin)) (h.entry_notMem hb)
  · have hpick : ∀ i (hi : i < bs.length), s.pick g i bs[i] ∈ (Piece.gateway s g bs).transitions :=
      fun i hi =>
        mem_arms.mpr ⟨i, bs[i], List.getElem?_eq_getElem hi, Or.inl (by rw [Nat.zero_add])⟩
    refine ⟨_, _, hpick 0 (by omega), hpick 1 (by omega), by simp [Site.pick],
      by simp [Site.pick], fun he => ?_⟩
    exact absurd (congrArg Transition.branch he) (by simp [Site.pick, Wiring.transition])

theorem Placed.decider {s : Site α} {body : Piece α} {x : α} (h : Placed lim (.loop s body x n)) :
    (Piece.loop s body x n).Decider body.exit := by
  refine ⟨List.mem_cons_of_mem _ (exit_mem_ground body), ?_, ?_⟩
  · intro t ht hin
    rcases adds_or_below ht with hadds | ⟨b, hb, hbelow⟩
    · exact hadds
    · obtain rfl := List.mem_singleton.mp hb
      exact absurd ((h.body.within hbelow).inputs hin) h.body.exit_notMem_zone
  · refine ⟨s.back body x, s.leave body x, by simp [transitions], by simp [transitions],
      by simp [Site.back], by simp [Site.leave], fun he => ?_⟩
    exact absurd (congrArg Transition.role he) (by simp [Site.back, Site.leave, Wiring.transition])

/-- What becomes of a token in the zone of a piece: it is taken without being asked for, or some
part decides. -/
def Serves (P : Piece α) (p : PlaceId) : Prop :=
  (∃ t ∈ P.transitions, p ∈ t.inputs ∧ t.stop = false) ∨ ∃ Q, Part Q P ∧ Q.Decider p

theorem Serves.of_parts {P' : Piece α} (hP' : P' ∈ P.parts) (h : P'.Serves p) : P.Serves p := by
  rcases h with ⟨t, ht, hin, hstop⟩ | ⟨Q, hpart, hdecider⟩
  · exact Or.inl ⟨t, transitions_subset hP' ht, hin, hstop⟩
  · exact Or.inr ⟨Q, .of_parts hP' hpart, hdecider⟩

omit [Quantity α] in
theorem two_le_of_proper {s : Site α} {g : Gate α} {bs : List (Piece α)}
    (h : (Piece.gateway s g bs).block.Proper n) : 2 ≤ bs.length := by
  have htwo : 2 ≤ (blocks bs).length := by
    cases g with
    | choice ps => exact h.1
    | nature ps => exact h.1
  rwa [blocks_eq_map, List.length_map] at htwo

theorem Placed.serves (hP : Placed lim P) (hproper : P.block.Proper n) (hp : p ∈ P.zone) :
    P.Serves p := by
  induction P using Piece.ind with
  | task s v =>
      obtain rfl := List.mem_singleton.mp hp
      exact Or.inl ⟨s.run, List.mem_singleton_self _, by simp [Site.run], rfl⟩
  | sequential s P Q ihP ihQ =>
      rcases List.mem_append.mp hp with hp | hp
      · exact (ihP hP.fst hproper.1 hp).of_parts List.mem_cons_self
      · exact (ihQ hP.snd hproper.2 hp).of_parts (List.mem_cons_of_mem _ List.mem_cons_self)
  | parallel s bs ih =>
      rcases List.mem_cons.mp hp with rfl | hp
      · exact Or.inl ⟨s.fork bs, List.mem_cons_self, by simp [Site.fork], rfl⟩
      obtain ⟨b, hb, hp⟩ := mem_zones.mp hp
      rcases mem_ground.mp hp with hp | rfl
      · exact (ih b hb (hP.parallel.branch hb) (proper_of_parts hproper hb) hp).of_parts hb
      · refine Or.inl ⟨s.join bs, by simp [transitions], ?_, rfl⟩
        simpa [Site.join] using ⟨b, hb, rfl⟩
  | gateway s g bs ih =>
      rcases List.mem_cons.mp hp with rfl | hp
      · exact Or.inr ⟨_, .self, hP.gateway.decider (two_le_of_proper hproper)⟩
      obtain ⟨b, hb, hp⟩ := mem_zones.mp hp
      rcases mem_ground.mp hp with hp | rfl
      · exact (ih b hb (hP.gateway.branch hb) (proper_of_parts hproper hb) hp).of_parts hb
      · obtain ⟨i, hi⟩ := List.mem_iff_getElem?.mp hb
        have hmem : s.merge g i b ∈ arms s g 0 bs :=
          mem_arms.mpr ⟨i, b, hi, Or.inr (Or.inr (by rw [Nat.zero_add]))⟩
        exact Or.inl ⟨_, hmem, by simp [Site.merge], rfl⟩
  | loop s body x k ih =>
      rcases List.mem_cons.mp hp with rfl | hp
      · exact Or.inl ⟨s.enter body, List.mem_cons_self, by simp [Site.enter], rfl⟩
      rcases mem_ground.mp hp with hp | rfl
      · exact (ih hP.body hproper.2 hp).of_parts List.mem_cons_self
      · exact Or.inr ⟨_, .self, hP.decider⟩

end Piece

/-! ## The whole net -/

namespace Workflow

/-- A net between two places in which no conflict depends on the rest of the net. -/
structure FreeChoice (w : Workflow α) : Prop where
  weight : ∀ a ∈ w.net.arcs, a.weight = 1
  simple : ∀ t ∈ w.net.transitions, t.inputs.Nodup ∧ t.outputs.Nodup ∧ t.inputs.Disjoint t.outputs
  /-- The two ends are places of the net. -/
  ends : w.layout.info.entry ∈ w.net.places.map Place.id ∧
    w.layout.info.exit ∈ w.net.places.map Place.id
  source : ∀ p ∈ w.net.places.map Place.id,
    (∃ t ∈ w.net.transitions, p ∈ t.outputs) ↔ p ≠ w.layout.info.entry
  sink : ∀ p ∈ w.net.places.map Place.id, w.net.outgoing p = [] ↔ p = w.layout.info.exit
  between : ∀ x ∈ w.net.nodes,
    w.net.Leads (.place w.layout.info.entry) x ∧ w.net.Leads x (.place w.layout.info.exit)
  /-- A token is taken by the only transition that can, or by a decision between several ... -/
  conflict : ∀ p ∈ w.net.places.map Place.id, p ≠ w.layout.info.exit →
    (∃ t, w.net.outgoing p = [t] ∧ t.stop = false) ∨
      2 ≤ (w.net.outgoing p).length ∧ (w.net.outgoing p).Nodup ∧
        -- ... which belong to one region and want this token only
        ∃ r ∈ w.layout.infos, ∀ t ∈ w.net.outgoing p,
          t.stop = true ∧ t.regionId = r.id ∧ t.preset = [(p, 1)]
  synchronized : ∀ t ∈ w.net.transitions, 1 < t.inputs.length → t.role = .join

namespace Consists

variable [Quantity α] {w : Workflow α} {P : Piece α} {t : Transition α} {p : PlaceId} {n : Nat}

open Piece

theorem mem_places_iff (h : w.Consists P) : p ∈ w.net.places.map Place.id ↔ p ∈ P.ground := by
  rw [h.places, h.placed.fits.ground_perm.mem_iff]

theorem nodup_outgoing (h : w.Consists P) (p : PlaceId) : (w.net.outgoing p).Nodup :=
  h.transitions_nodup.filter _

/-- Each transition is admitted some time. -/
theorem due (h : w.Consists P) (ht : t ∈ w.net.transitions) :
    Due w.net.limit w.net.transitions w.initial.tally t := by
  rw [h.transitions] at ht ⊢
  exact h.placed.exists_turn h.ready h.tally_initial_exit ht

/-- From wherever the process has come, a token comes to the exit and to no other place. -/
theorem exists_end {f : Tally} {ts : List (Transition α)} (h : w.Consists P)
    (hpath : Tally.Path w.net.limit w.net.transitions w.initial.tally ts f) :
    ∃ us g, Tally.Path w.net.limit w.net.transitions f us g ∧
      ∀ p, 0 < (g p).1 ↔ p = P.exit := by
  obtain ⟨m, hrun, rfl⟩ := Net.exists_run h.plain hpath h.ordered_initial rfl
  have hm := (hrun.path h.plain h.ordered_initial).1
  obtain ⟨us, m', hrun', hfinal⟩ := h.exists_run_isFinal hm (h.alive_of_path hpath)
  refine ⟨us, m'.tally, (hrun'.path h.plain hm).2, fun p => ?_⟩
  rw [h.isFinal_iff.mp hfinal p]
  split <;> simp [*]

theorem takes (h : w.Consists P) (ht : t ∈ w.net.transitions) : t.inputs ≠ [] :=
  (h.placed.within (h.transitions ▸ ht)).takes

theorem puts (h : w.Consists P) (ht : t ∈ w.net.transitions) : t.outputs ≠ [] :=
  (h.placed.simple (h.transitions ▸ ht)).2.2.2

/-! ### Ways through the net -/

/-- Where a token comes to some time, the arcs lead. -/
theorem leads_of_marked {f : Tally} {ts : List (Transition α)} (h : w.Consists P)
    (hpath : Tally.Path w.net.limit w.net.transitions w.initial.tally ts f) (hp : 0 < (f p).1) :
    w.net.Leads (.place P.entry) (.place p) ∧ w.net.Leads (.place p) (.place P.exit) := by
  constructor
  · refine hpath.leads_to (fun _ => h.takes) (fun q hq => ?_) hp
    rw [h.tally_initial] at hq
    split at hq
    · next he => exact he ▸ .refl
    · cases hq
  · obtain ⟨us, g, hrest, hend⟩ := h.exists_end hpath
    obtain ⟨q, hq, hway⟩ := hrest.leads_from (fun _ => h.puts) hp
    exact (hend q).mp hq ▸ hway

theorem leads_transition (h : w.Consists P) (ht : t ∈ w.net.transitions) :
    w.net.Leads (.place P.entry) (.transition t.id) ∧
      w.net.Leads (.transition t.id) (.place P.exit) := by
  obtain ⟨ts, f, hpath, ha⟩ := h.due ht
  constructor
  · obtain ⟨p, hp⟩ := List.exists_mem_of_ne_nil _ (h.takes ht)
    exact (h.leads_of_marked hpath (ha.1 p hp)).1.tail (Net.arrow_of_input ht hp)
  · obtain ⟨p, hp⟩ := List.exists_mem_of_ne_nil _ (h.puts ht)
    have hmarked : 0 < (f.fire t p).1 :=
      Nat.lt_of_lt_of_le (List.count_pos_iff.mpr hp) (Nat.le_add_left _ _)
    exact (h.leads_of_marked (hpath.snoc ht ha) hmarked).2.head (Net.arrow_of_output ht hp)

theorem exists_taker (h : w.Consists P) (hproper : P.block.Proper n) (hp : p ∈ P.zone) :
    ∃ t ∈ w.net.transitions, p ∈ t.inputs := by
  rw [h.transitions]
  rcases h.placed.serves hproper hp with ⟨t, ht, hin, -⟩ | ⟨Q, hpart, hdecider⟩
  · exact ⟨t, ht, hin⟩
  · obtain ⟨t, -, ht, -, hin, -⟩ := hdecider.rivals
    exact ⟨t, hpart.transitions_subset ht, hin⟩

/-- A token comes to every place some time. -/
theorem exists_marked (h : w.Consists P) (hproper : P.block.Proper n) (hp : p ∈ P.ground) :
    ∃ ts f, Tally.Path w.net.limit w.net.transitions w.initial.tally ts f ∧ 0 < (f p).1 := by
  rcases mem_ground.mp hp with hp | rfl
  · obtain ⟨t, ht, hin⟩ := h.exists_taker hproper hp
    obtain ⟨ts, f, hpath, ha⟩ := h.due ht
    exact ⟨ts, f, hpath, ha.1 p hin⟩
  · obtain ⟨us, g, hpath, hend⟩ := h.exists_end (.nil _)
    exact ⟨us, g, hpath, (hend _).mpr rfl⟩

/-! ### Conflicts -/

/-- Where a transition takes that is no decision, no other one does. -/
theorem outgoing_eq_singleton (h : w.Consists P) (ht : t ∈ w.net.transitions) (hp : p ∈ t.inputs)
    (hstop : t.stop = false) : w.net.outgoing p = [t] := by
  refine List.perm_singleton.mp
    ((List.perm_ext_iff_of_nodup (h.nodup_outgoing p) (List.nodup_singleton t)).mpr fun u => ?_)
  rw [Net.mem_outgoing, List.mem_singleton]
  constructor
  · rintro ⟨hu, hpu⟩
    rcases h.placed.shared (h.transitions ▸ hu) (h.transitions ▸ ht) hpu hp with he | ⟨-, hstop', -⟩
    · exact he
    · exact absurd hstop' (by rw [hstop]; exact Bool.false_ne_true)
  · rintro rfl
    exact ⟨ht, hp⟩

/-- Where a part decides, its decisions are the only takers. -/
theorem outgoing_of_decider {Q : Piece α} (h : w.Consists P) (hpart : Part Q P)
    (hdecider : Q.Decider p) :
    2 ≤ (w.net.outgoing p).length ∧ ∀ t ∈ w.net.outgoing p,
      t.stop = true ∧ t.regionId = Q.layout.info.id ∧ t.preset = [(p, 1)] := by
  obtain ⟨t, u, ht, hu, hpt, hpu, hne⟩ := hdecider.rivals
  have hmem : ∀ {v}, v ∈ Q.transitions → v ∈ P.transitions := fun hv =>
    hpart.transitions_subset hv
  constructor
  · have hnodup : [t, u].Nodup := by simpa using hne
    refine (List.subperm_of_subset hnodup fun v hv => ?_).length_le
    rw [Net.mem_outgoing, h.transitions]
    rcases List.mem_pair.mp hv with rfl | rfl
    · exact ⟨hmem ht, hpt⟩
    · exact ⟨hmem hu, hpu⟩
  · intro v hv
    obtain ⟨hv, hpv⟩ := Net.mem_outgoing.mp hv
    rw [h.transitions] at hv
    -- of two different ones there is one that it differs from
    have hrival : ∃ v' ∈ P.transitions, p ∈ v'.inputs ∧ v ≠ v' := by
      by_cases hvt : v = t
      · exact ⟨u, hmem hu, hpu, hvt ▸ hne⟩
      · exact ⟨t, hmem ht, hpt, hvt⟩
    obtain ⟨v', hv', hpv', hne'⟩ := hrival
    obtain ⟨hstop, -, hin, -⟩ := (h.placed.shared hv hv' hpv hpv').resolve_left hne'
    have hadds := hdecider.adds v (hpart.owns h.placed hv hpv hdecider.zone) hpv
    refine ⟨hstop, hadds.regionId.trans (id_layout Q).symm, ?_⟩
    rw [(h.placed.within hv).preset, hin]
    rfl

/-- Exactly the places other than the entry are put on. -/
theorem source_iff (h : w.Consists P) (hproper : P.block.Proper n) (hp : p ∈ P.ground) :
    (∃ t ∈ w.net.transitions, p ∈ t.outputs) ↔ p ≠ P.entry := by
  constructor
  · rintro ⟨t, ht, hout⟩ rfl
    exact h.placed.entry_notMem_outputs (h.transitions ▸ ht) hout
  · intro hne
    obtain ⟨ts, f, hpath, hmarked⟩ := h.exists_marked hproper hp
    have hempty : (w.initial.tally p).1 = 0 := by rw [h.tally_initial, if_neg hne]
    obtain ⟨t, ht, hout, -⟩ := exists_due_output hpath hempty hmarked
    exact ⟨t, ht, hout⟩

/-- Exactly the places other than the exit are taken from. -/
theorem sink_iff (h : w.Consists P) (hproper : P.block.Proper n) (hp : p ∈ P.ground) :
    w.net.outgoing p = [] ↔ p = P.exit := by
  rw [List.eq_nil_iff_forall_not_mem]
  constructor
  · intro hnone
    refine (mem_ground.mp hp).resolve_left fun hzone => ?_
    obtain ⟨t, ht, hin⟩ := h.exists_taker hproper hzone
    exact hnone t (Net.mem_outgoing.mpr ⟨ht, hin⟩)
  · rintro rfl t ht
    obtain ⟨ht, hin⟩ := Net.mem_outgoing.mp ht
    exact h.placed.exit_notMem_zone ((h.placed.within (h.transitions ▸ ht)).inputs hin)

theorem freeChoice (h : w.Consists P) (hproper : P.block.Proper n) : w.FreeChoice := by
  have hentry : w.layout.info.entry = P.entry := by rw [h.layout, P.info_layout_entry]
  have hexit : w.layout.info.exit = P.exit := by rw [h.layout, P.info_layout_exit]
  refine ⟨fun a => h.plain.weight, fun t ht => ?_, ?_, fun p hp => ?_, fun p hp => ?_,
    fun x hx => ?_, fun p hp hne => ?_, fun t ht => role_of_inputs (h.transitions ▸ ht)⟩
  · obtain ⟨hin, hout, hdisj, -⟩ := h.placed.simple (h.transitions ▸ ht)
    exact ⟨hin, hout, hdisj⟩
  · rw [hentry, hexit, h.mem_places_iff, h.mem_places_iff]
    exact ⟨h.placed.entry_mem_ground, exit_mem_ground P⟩
  · rw [hentry]
    exact h.source_iff hproper (h.mem_places_iff.mp hp)
  · rw [hexit]
    exact h.sink_iff hproper (h.mem_places_iff.mp hp)
  · rw [hentry, hexit]
    rcases List.mem_append.mp hx with hx | hx
    · obtain ⟨place, hplace, rfl⟩ := List.mem_map.mp hx
      have hground := h.mem_places_iff.mp (List.mem_map_of_mem hplace)
      obtain ⟨ts, f, hpath, hmarked⟩ := h.exists_marked hproper hground
      exact h.leads_of_marked hpath hmarked
    · obtain ⟨t, ht, rfl⟩ := List.mem_map.mp hx
      exact h.leads_transition ht
  · rw [hexit] at hne
    have hzone := (mem_ground.mp (h.mem_places_iff.mp hp)).resolve_right hne
    rcases h.placed.serves hproper hzone with ⟨t, ht, hin, hstop⟩ | ⟨Q, hpart, hdecider⟩
    · exact Or.inl ⟨t, h.outgoing_eq_singleton (h.transitions ▸ ht) hin hstop, hstop⟩
    · obtain ⟨htwo, hall⟩ := h.outgoing_of_decider hpart hdecider
      exact Or.inr ⟨htwo, h.nodup_outgoing p, Q.layout.info, h.layout ▸ hpart.mem_infos, hall⟩

end Consists

/-- The nets of valid descriptions have the shape of free choice nets between two places. -/
theorem freeChoice_of_validate [Quantity α] {r : Region α} (h : r.validate = .ok ()) :
    ∃ w, compile r = .ok w ∧ w.FreeChoice := by
  obtain ⟨blk, n, -, hcompile, hproper, -⟩ := compile_of_validate h
  obtain ⟨P, rfl, hP⟩ := exists_piece hproper
  exact ⟨_, hcompile, hP.freeChoice hproper⟩

theorem freeChoice_sample : ∃ w, compile Region.sample = .ok w ∧ w.FreeChoice :=
  freeChoice_of_validate Region.sample_valid

end Workflow

end RegionNet
