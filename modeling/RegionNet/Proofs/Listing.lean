import Mathlib.Data.List.Sort
import RegionNet.Proofs.Consistency
import RegionNet.Proofs.Delay
import RegionNet.Proofs.FreeChoice
import RegionNet.Proofs.LoopStatus
import RegionNet.Proofs.Odds
import RegionNet.Proofs.Refusal
import RegionNet.Proofs.Repetition

/-!
# The list of open decisions

Which decisions a strategy lists, and what it offers at each of them. A list of decision points is
made by putting transitions one after the other where they belong, so what is offered at a place are
the enabled decisions for it in the order of the net (`Timing.mem_decisionPoints_iff`). In a
workflow a place is decided at by one region only: a gateway decides where it starts, between the
entries of its branches, and a loop decides where its body ends, whether to go back or to leave
(`Consists.candidates_gateway`, `Consists.candidates_loop`).

All decisions at a place take their token from this place alone. So whether the token has rested
makes a difference for the place as a whole: with a clock the list is the same, less the places
whose tokens have to wait (`Consists.decisionPoints_duration`).
-/

namespace RegionNet

variable {α : Type}

/-- What is listed in strictly ascending order is determined by its members. -/
theorem eq_of_ascending {β : Type} {xs ys : List β} (k : β → Nat)
    (hxs : xs.Pairwise fun x y => k x < k y) (hys : ys.Pairwise fun x y => k x < k y)
    (h : ∀ x, x ∈ xs ↔ x ∈ ys) : xs = ys := by
  have : Std.Irrefl fun x y : β => k x < k y := ⟨fun _ => Nat.lt_irrefl _⟩
  have : Std.Antisymm fun x y : β => k x < k y := ⟨fun _ _ h h' => absurd h' (Nat.lt_asymm h)⟩
  exact hxs.eq_of_mem_iff hys h

/-! ## What is offered where -/

namespace DecisionPoint

variable {points : List DecisionPoint} {p q : PlaceId} {t : TransitionId} {d : DecisionPoint}

/-- What is offered at a place. -/
def offered (points : List DecisionPoint) (p : PlaceId) : List TransitionId :=
  ((points.find? (·.place = p)).map transitions).getD []

theorem offered_cons (d : DecisionPoint) (points : List DecisionPoint) (p : PlaceId) :
    offered (d :: points) p = if d.place = p then d.transitions else offered points p := by
  unfold offered
  rw [List.find?_cons]
  by_cases hp : d.place = p <;> simp [hp]

theorem offered_of_lt (h : ∀ d ∈ points, p.index < d.place.index) : offered points p = [] := by
  have hnone : points.find? (·.place = p) = none := List.find?_eq_none.mpr fun d hd => by
    simpa using fun hp => Nat.lt_irrefl _ (hp ▸ h d hd)
  rw [offered, hnone]
  rfl

/-- A transition is put at the end of what is offered at its place. -/
theorem offered_insert (h : Tidy points) : offered (insert p t points) q =
    offered points q ++ if p = q then [t] else [] := by
  induction points with
  | nil => by_cases hq : p = q <;> simp [insert, offered, hq]
  | cons d ds ih =>
      obtain ⟨hlt, hascending⟩ := List.pairwise_cons.mp h.ascending
      have hds : Tidy ds := ⟨hascending, (List.forall_mem_cons.mp h.nonempty).2⟩
      unfold insert
      split
      · next hp =>
          subst hp
          simp only [offered_cons]
          split <;> simp
      · next hne =>
          split
          · next hpd =>
              -- the place is new, so nothing has been offered there
              have hnew : offered (d :: ds) p = [] := offered_of_lt
                (List.forall_mem_cons.mpr ⟨hpd, fun e he => Nat.lt_trans hpd (hlt e he)⟩)
              rw [offered_cons]
              by_cases hq : p = q
              · subst hq
                rw [hnew]
                simp
              · simp [hq]
          · rw [offered_cons, offered_cons, ih hds]
            by_cases hq : d.place = q
            · have hpq : p ≠ q := fun he => hne (he.trans hq.symm)
              simp [hq, hpq]
            · simp [hq]

/-- The decision points are the places at which something is offered. -/
theorem Tidy.mem_iff (h : Tidy points) :
    d ∈ points ↔ d.transitions ≠ [] ∧ d.transitions = offered points d.place := by
  have hfound : ∀ {e}, points.find? (·.place = d.place) = some e → e ∈ points ∧ e.place = d.place :=
    fun he => ⟨List.mem_of_find?_eq_some he, by simpa using List.find?_some he⟩
  unfold offered
  cases hfind : points.find? (·.place = d.place) with
  | none =>
      have hnot : d ∉ points := fun hd => List.find?_eq_none.mp hfind d hd (by simp)
      refine iff_of_false hnot ?_
      rintro ⟨hnonempty, hnone⟩
      exact hnonempty hnone
  | some e =>
      obtain ⟨he, hplace⟩ := hfound hfind
      constructor
      · intro hd
        obtain rfl := h.eq_of_place he hd hplace
        exact ⟨h.nonempty e he, rfl⟩
      · rintro ⟨-, hsame⟩
        obtain rfl : d = e := by
          cases d
          cases e
          cases hplace
          cases hsame
          rfl
        exact he

end DecisionPoint

open DecisionPoint

namespace Timing

variable [Quantity α] {timing : Timing α} {net : Net α} {m : Marking α} {d : DecisionPoint}

omit [Quantity α] in
theorem offered_foldl (ts : List (Transition α)) (p : PlaceId) : ∀ points : List DecisionPoint,
    Tidy points → offered (ts.foldl (fun points t =>
      match t.decisionPlace with
      | some p => DecisionPoint.insert p t.id points
      | none => points) points) p =
        offered points p ++ (ts.filter (·.decisionPlace = some p)).map Transition.id := by
  induction ts with
  | nil => exact fun _ _ => (List.append_nil _).symm
  | cons t ts ih =>
      intro points h
      rw [List.foldl_cons]
      cases hplace : t.decisionPlace with
      | none =>
          dsimp only
          rw [ih points h, List.filter_cons_of_neg (by simp [hplace])]
      | some q =>
          dsimp only
          rw [ih _ (h.insert q t.id), offered_insert h]
          by_cases hq : q = p <;> simp [hplace, hq]

/-- A decision point lists the enabled decisions for its place, in the order of the net. -/
theorem mem_decisionPoints_iff : d ∈ timing.decisionPoints net m ↔ d.transitions ≠ [] ∧
    d.transitions = ((net.transitions.filter fun t => t.stop && timing.enabled net t m).filter
      (·.decisionPlace = some d.place)).map Transition.id := by
  have hoffered : offered (timing.decisionPoints net m) d.place = _ :=
    offered_foldl (net.transitions.filter fun t => t.stop && timing.enabled net t m) d.place []
      ⟨.nil, List.forall_mem_nil _⟩
  rw [tidy_decisionPoints.mem_iff, hoffered]
  rfl

end Timing

/-! ## Decisions of a piece -/

namespace Piece

/-- The place where a piece decides, if it does. -/
def guard? : Piece α → Option PlaceId
  | .task _ _ => none
  | .sequential _ _ _ => none
  | .parallel _ _ => none
  | .gateway s _ _ => some s.entry
  | .loop _ body _ _ => some body.exit

variable [Quantity α]

theorem getElem?_picks (s : Site α) (g : Gate α) (bs : List (Piece α)) (i : Nat) :
    (picks s g bs)[i]? = bs[i]?.map (s.pick g i) := by
  rw [picks, List.getElem?_map, List.getElem?_zipIdx, Option.map_map, Nat.zero_add]
  rfl

/-- The decisions of a gateway come in the order of its branches. -/
theorem picks_sublist (s : Site α) (g : Gate α) (bs : List (Piece α)) :
    (picks s g bs).Sublist (Piece.gateway s g bs).transitions := by
  have harms : ∀ i, ((bs.zipIdx i).map fun bi => s.pick g bi.2 bi.1).Sublist (arms s g i bs) := by
    induction bs with
    | nil => exact fun _ => .slnil
    | cons b bs ih =>
        intro i
        rw [List.zipIdx_cons, List.map_cons, arms]
        exact (((ih (i + 1)).cons _).trans (List.sublist_append_right _ _)).cons_cons _
  exact harms 0

end Piece

/-! ## Decisions in a workflow -/

namespace Workflow.Consists

open Piece

variable [Quantity α] {w : Workflow α} {P Q : Piece α} {m : Marking α} {timing : Timing α}
  {d : DecisionPoint} {p : PlaceId} {t : Transition α} {s : Site α} {g : Gate α}
  {bs : List (Piece α)} {body : Piece α} {x : α} {n : Nat}

/-- A decision point lists the enabled decisions among those that take a token from its place. -/
theorem mem_decisionPoints_iff (h : w.Consists P) : d ∈ timing.decisionPoints w.net m ↔
    d.transitions ≠ [] ∧ d.transitions = ((w.net.outgoing d.place).filter
      fun t => t.stop && timing.enabled w.net t m).map Transition.id := by
  rw [Timing.mem_decisionPoints_iff, Net.outgoing, List.filter_filter, List.filter_filter]
  have hsame : (w.net.transitions.filter fun t =>
      decide (t.decisionPlace = some d.place) && (t.stop && timing.enabled w.net t m)) =
      w.net.transitions.filter fun t =>
        (t.stop && timing.enabled w.net t m) && t.inputs.contains d.place := by
    refine List.filter_congr fun t ht => ?_
    cases hstop : t.stop with
    | false => simp
    | true =>
        obtain ⟨⟨p, hin⟩, -⟩ := decisive_of_stop (h.transitions ▸ ht) hstop
        have hplace : t.decisionPlace = some p := by
          rw [Transition.decisionPlace, hin]
          rfl
        rw [hplace, hin, Bool.and_comm]
        simp [eq_comm]
  rw [hsame]

/-- With a clock, the places are left out at which the tokens have to wait. -/
theorem decisionPoints_duration (h : w.Consists P) (timeStep : Option α) :
    (Timing.duration timeStep).decisionPoints w.net m =
      (Timing.counter.decisionPoints w.net m).filter fun d => w.net.rested m d.place := by
  refine eq_of_ascending (fun d => d.place.index) Timing.tidy_decisionPoints.ascending
    (Timing.tidy_decisionPoints.ascending.sublist List.filter_sublist) fun d => ?_
  rw [List.mem_filter, h.mem_decisionPoints_iff, h.mem_decisionPoints_iff]
  -- the decisions at a place wait for the same tokens
  have hrested : ∀ t ∈ w.net.outgoing d.place,
      (t.stop && (Timing.duration timeStep).enabled w.net t m) =
        ((t.stop && Timing.counter.enabled w.net t m) && w.net.rested m d.place) := by
    intro t ht
    obtain ⟨ht, hp⟩ := Net.mem_outgoing.mp ht
    cases hstop : t.stop with
    | false => rfl
    | true =>
        obtain ⟨⟨p, hin⟩, -⟩ := decisive_of_stop (h.transitions ▸ ht) hstop
        rw [hin, List.mem_singleton] at hp
        show (w.net.tokenEnabled t m && t.inputs.all (w.net.rested m)) =
          (w.net.tokenEnabled t m && w.net.rested m d.place)
        rw [hin, hp, List.all_cons, List.all_nil, Bool.and_true]
  rw [List.filter_congr hrested]
  cases w.net.rested m d.place with
  | true => simp
  | false => simp

/-- What is listed at a place are the candidates of a resolver that is asked for it. -/
theorem transitions_eq_candidates (h : w.Consists P) (hd : d ∈ timing.decisionPoints w.net m) :
    d.transitions = (Resolver.candidates w.net d.place m).map Transition.id := by
  have hcounter : d ∈ Timing.counter.decisionPoints w.net m := by
    cases timing with
    | counter => exact hd
    | duration timeStep =>
        rw [h.decisionPoints_duration timeStep] at hd
        exact (List.mem_filter.mp hd).1
  exact (h.mem_decisionPoints_iff.mp hcounter).2

/-! ### Candidates -/

theorem mem_candidates_iff_decides (h : w.Consists P) : t ∈ Resolver.candidates w.net p m ↔
    P.Decides w.net.limit m.tally p t := by
  rw [h.mem_candidates_iff]
  constructor
  · rintro ⟨ht, hstop, he, hin⟩
    exact ⟨h.transitions ▸ ht, (h.enabled_iff ht).mp he, hstop, hin⟩
  · intro ht
    have hmem : t ∈ w.net.transitions := h.transitions ▸ ht.mem
    exact ⟨hmem, ht.stop, (h.enabled_iff hmem).mpr ht.admits, ht.inputs⟩

/-- Transitions in the order of the net are the candidates if they are those that decide. -/
theorem candidates_eq (h : w.Consists P) {ts : List (Transition α)}
    (hsub : ts.Sublist P.transitions)
    (hts : ∀ t, t ∈ ts ↔ P.Decides w.net.limit m.tally p t) :
    Resolver.candidates w.net p m = ts := by
  have hnumbered := List.pairwise_map.mp h.numbered
  have hcandidates : (Resolver.candidates w.net p m).Sublist w.net.transitions :=
    List.filter_sublist.trans List.filter_sublist
  refine eq_of_ascending (fun t => t.id.index) (hnumbered.sublist hcandidates)
    (hnumbered.sublist (h.transitions ▸ hsub)) fun t => ?_
  rw [h.mem_candidates_iff_decides, hts]

/-- A gateway decides between all its branches. -/
theorem candidates_gateway (h : w.Consists P) (hpart : Part (.gateway s g bs) P)
    (hmarked : 0 < m.tokens s.entry) :
    Resolver.candidates w.net s.entry m = picks s g bs := by
  refine h.candidates_eq ((picks_sublist s g bs).trans hpart.transitions_sublist) fun t => ?_
  rw [mem_picks, hpart.decides_pick_iff h.placed hmarked]

/-- A loop decides whether to go back, as long as its bound allows that, or to leave. -/
theorem candidates_loop (h : w.Consists P) (hpart : Part (.loop s body x n) P)
    (hmarked : 0 < m.tokens body.exit) :
    Resolver.candidates w.net body.exit m =
      if (m.state body.exit).visits < n then [s.back body x, s.leave body x]
      else [s.leave body x] := by
  have hsub : [s.back body x, s.leave body x].Sublist P.transitions :=
    ((List.sublist_append_right _ _).cons _).trans hpart.transitions_sublist
  have hdecides : ∀ t, P.Decides w.net.limit m.tally body.exit t ↔
      t = s.leave body x ∨ t = s.back body x ∧ (m.state body.exit).visits < n := fun t =>
    hpart.decides_loop_iff h.placed hmarked
  split
  · next hlt =>
      refine h.candidates_eq hsub fun t => ?_
      rw [List.mem_pair, hdecides, and_iff_left hlt, or_comm]
  · next hnot =>
      refine h.candidates_eq ((List.sublist_cons_self _ _).trans hsub) fun t => ?_
      rw [List.mem_singleton, hdecides, or_iff_left fun hback => hnot hback.2]

/-- Places are listed where something can be decided. -/
theorem exists_point_iff (h : w.Consists P) :
    (∃ d ∈ Timing.counter.decisionPoints w.net m, d.place = p) ↔
      Resolver.candidates w.net p m ≠ [] := by
  constructor
  · rintro ⟨d, hd, rfl⟩
    exact h.candidates_ne_nil hd
  · intro hsome
    refine ⟨⟨p, (Resolver.candidates w.net p m).map Transition.id⟩, ?_, rfl⟩
    exact h.mem_decisionPoints_iff.mpr ⟨by simpa using hsome, rfl⟩

/-- Something can be decided where a token is and a part decides. -/
theorem candidates_ne_nil_iff (h : w.Consists P) : Resolver.candidates w.net p m ≠ [] ↔
    0 < m.tokens p ∧ ∃ Q, Part Q P ∧ Q.guard? = some p := by
  constructor
  · intro hsome
    obtain ⟨t, ht⟩ := List.exists_mem_of_ne_nil _ hsome
    obtain ⟨ht, ha, hstop, hin⟩ := h.mem_candidates_iff_decides.mp ht
    refine ⟨ha.1 p (hin ▸ List.mem_singleton_self p), ?_⟩
    obtain ⟨Q, hpart, hadds⟩ := exists_adds ht
    refine ⟨Q, hpart, ?_⟩
    cases hadds with
    | run | fork | join | merge | enter => cases hstop
    | pick s g hi => simpa [Site.pick, guard?] using hin
    | back s body x n => simpa [Site.back, guard?] using hin
    | leave s body x n => simpa [Site.leave, guard?] using hin
  · rintro ⟨hmarked, Q, hpart, hguard⟩
    cases Q with
    | gateway s g bs =>
        obtain rfl := Option.some.inj hguard
        rw [h.candidates_gateway hpart hmarked]
        obtain ⟨b, bs, rfl⟩ :=
          List.exists_cons_of_ne_nil (hpart.placed h.placed).gateway.nonempty
        exact List.cons_ne_nil _ _
    | loop s body x n =>
        obtain rfl := Option.some.inj hguard
        rw [h.candidates_loop hpart hmarked]
        split <;> exact List.cons_ne_nil _ _
    | task | sequential | parallel => cases hguard

/-- Where a decision is listed, a token is. -/
theorem marked_of_mem (h : w.Consists P) (hd : d ∈ timing.decisionPoints w.net m) :
    0 < m.tokens d.place :=
  (h.candidates_ne_nil_iff.mp (h.candidates_ne_nil hd)).1

end Workflow.Consists

/-! ## Decisions of a description -/

variable [Quantity α]

/-- The region `c` is decided at a place: a gateway where it starts, a loop where its body ends. -/
def Workflow.DecidesAt (w : Workflow α) (c : Region α) (p : PlaceId) : Prop :=
  (c.kind = .choice ∨ c.kind = .nature) ∧ (∃ i ∈ w.layout.infos, i.id = c.id ∧ i.entry = p) ∨
    c.kind = .loop ∧ ∃ body ∈ c.branches, ∃ i ∈ w.layout.infos, i.id = body.id ∧ i.exit = p

namespace Workflow.Consists

open Piece

variable {w : Workflow α} {r c : Region α} {P Q : Piece α} {p : PlaceId}

/-- The layout has one line for each part. -/
theorem info_eq (h : w.Consists P) (hr : r.Yields P) (hc : r.Becomes P c Q) {i : RegionInfo}
    (hi : i ∈ w.layout.infos) (hid : i.id = c.id) : i = Q.layout.info := by
  rw [h.layout] at hi
  have hnodup : (P.layout.infos.map RegionInfo.id).Nodup := (ids_layout P).symm ▸ hr.nodup
  exact List.inj_on_of_nodup_map hnodup hi hc.part.mem_infos
    (hid.trans (hc.id_eq.symm.trans Q.id_layout.symm))

theorem info_mem (h : w.Consists P) (hc : r.Becomes P c Q) :
    Q.layout.info ∈ w.layout.infos ∧ Q.layout.info.id = c.id :=
  ⟨h.layout ▸ hc.part.mem_infos, Q.id_layout.trans hc.id_eq⟩

/-- Regions are decided where their pieces decide. -/
theorem decidesAt_iff (h : w.Consists P) (hr : r.Yields P) (hc : r.Becomes P c Q) :
    w.DecidesAt c p ↔ Q.guard? = some p := by
  have hkind := hc.kind_eq
  unfold DecidesAt
  cases Q with
  | gateway s g bs =>
      have hgate : (c.kind = .choice ∨ c.kind = .nature) ∧ c.kind ≠ .loop := by
        cases g <;> simp [hkind, block, Gate.block, Block.kind]
      rw [or_iff_left fun hloop => hgate.2 hloop.1, and_iff_right hgate.1]
      constructor
      · rintro ⟨i, hi, hid, rfl⟩
        rw [h.info_eq hr hc hi hid]
        rfl
      · intro hp
        obtain rfl := Option.some.inj hp
        exact ⟨_, (h.info_mem hc).1, (h.info_mem hc).2, rfl⟩
  | loop s body x n =>
      have hloop : c.kind = .loop := hkind
      rw [or_iff_right fun hgate => by simp [hloop] at hgate, and_iff_right hloop]
      have hparts := hc.forall₂_parts hr
      constructor
      · rintro ⟨d, hd, i, hi, hid, rfl⟩
        obtain ⟨P', hP', hbecomes⟩ := exists_right_of_forall₂ hparts hd
        obtain rfl := List.mem_singleton.mp hP'
        rw [h.info_eq hr hbecomes hi hid, info_layout_exit]
        rfl
      · intro hp
        obtain rfl := Option.some.inj hp
        obtain ⟨d, hd, hbecomes⟩ := exists_left_of_forall₂ hparts (List.mem_singleton_self body)
        exact ⟨d, hd, _, (h.info_mem hbecomes).1, (h.info_mem hbecomes).2, info_layout_exit body⟩
  | task | sequential | parallel =>
      have hnone : c.kind ≠ .choice ∧ c.kind ≠ .nature ∧ c.kind ≠ .loop := by
        simp [hkind, block, Block.kind]
      simp [hnone, guard?]

/-- The piece of a choice or a draw by nature that is decided at a place. -/
theorem exists_gateway (h : w.Consists P) (hr : r.Yields P) (hc : c ∈ r.preorder)
    (hkind : c.kind = .choice ∨ c.kind = .nature) (hdecides : w.DecidesAt c p) :
    ∃ s g bs, r.Becomes P c (.gateway s g bs) ∧ p = s.entry := by
  obtain ⟨Q, hQ⟩ := hr.exists_part hc
  have hguard := (h.decidesAt_iff hr hQ).mp hdecides
  cases Q with
  | gateway s g bs => exact ⟨s, g, bs, hQ, (Option.some.inj hguard).symm⟩
  | loop s body x n =>
      have hloop : c.kind = .loop := hQ.kind_eq
      simp [hloop] at hkind
  | task | sequential | parallel => cases hguard

/-- The piece of a loop that is decided at a place. -/
theorem exists_loop (h : w.Consists P) (hr : r.Yields P) (hc : c ∈ r.preorder)
    (hkind : c.kind = .loop) (hdecides : w.DecidesAt c p) : ∃ s body x bound,
      r.Becomes P c (.loop s body x bound) ∧ p = body.exit ∧ c.loopBound = some bound := by
  obtain ⟨Q, hQ⟩ := hr.exists_part hc
  obtain ⟨n, hsound⟩ := hr.sound
  obtain ⟨s, body, x, bound, e, rfl, -, hbound, -⟩ :=
    Region.loop_of_block (hsound c hc) hkind hQ.block
  have hguard := (h.decidesAt_iff hr hQ).mp hdecides
  exact ⟨s, body, x, bound, hQ, (Option.some.inj hguard).symm, hbound⟩

end Workflow.Consists

/-! ## What is listed -/

namespace Workflow

/-- The transition enters branch number `i` of the gateway `c`, which is decided at `p` and whose
branch with this number is the region `child`. -/
structure Enters (w : Workflow α) (c : Region α) (p : PlaceId) (i : Nat) (child : Region α)
    (t : Transition α) : Prop where
  mem : t ∈ w.net.transitions
  serves : t.serves c.id .branchEntry = true
  branch : t.branch = some i
  inputs : t.inputs = [p]
  outputs : ∃ info ∈ w.layout.infos, info.id = child.id ∧ t.outputs = [info.entry]

/-- What the strategies list as open decisions in the marking `m`. -/
structure Listing (w : Workflow α) (r : Region α) (rounds : Nat) (m : Marking α) : Prop where
  ascending : (Strategy.choices ⟨.counter, rounds⟩ w m).Pairwise
    fun d e => d.place.index < e.place.index
  /-- A place is listed if it holds a token and a region is decided there. -/
  occurs : ∀ p, (∃ d ∈ Strategy.choices ⟨.counter, rounds⟩ w m, d.place = p) ↔
    0 < m.tokens p ∧ ∃ c ∈ r.preorder, w.DecidesAt c p
  /-- A gateway offers all its branches in their order. -/
  gateway : ∀ c ∈ r.preorder, c.kind = .choice ∨ c.kind = .nature →
    ∀ d ∈ Strategy.choices ⟨.counter, rounds⟩ w m, w.DecidesAt c d.place →
      ∃ ts : List (Transition α), d.transitions = ts.map Transition.id ∧
        ts.length = c.branches.length ∧ ∀ i child, c.branches[i]? = some child →
          ∃ t, ts[i]? = some t ∧ w.Enters c d.place i child t
  /-- A loop offers to go back as long as its bound is not reached, and to leave. -/
  loop : ∀ c ∈ r.preorder, c.kind = .loop →
    ∀ d ∈ Strategy.choices ⟨.counter, rounds⟩ w m, w.DecidesAt c d.place →
      ∃ back ∈ w.net.transitions, ∃ exit ∈ w.net.transitions, ∃ bound,
        back.serves c.id .loopBack = true ∧ exit.serves c.id .loopExit = true ∧
        c.loopBound = some bound ∧ d.transitions =
          if (m.state d.place).visits < bound then [back.id, exit.id] else [exit.id]
  /-- With a clock, the places are listed whose tokens have rested, with the same transitions. -/
  timed : ∀ timeStep rounds', Strategy.choices ⟨.duration timeStep, rounds'⟩ w m =
    (Strategy.choices ⟨.counter, rounds⟩ w m).filter fun d =>
      (w.net.place? d.place).any fun place =>
        place.duration ≤ (m.state d.place).age + Quantity.slack

namespace Consists

open Piece

variable {w : Workflow α} {r c : Region α} {P Q : Piece α} {m : Marking α} {d : DecisionPoint}
  {timing : Timing α} {s : Site α} {g : Gate α} {bs : List (Piece α)} {body : Piece α} {x : α}
  {n : Nat}

/-- The transitions between which a gateway decides enter its branches one by one. -/
theorem exists_enters (h : w.Consists P) (hr : r.Yields P) (hc : r.Becomes P c (.gateway s g bs))
    {i : Nat} {child : Region α} (hi : c.branches[i]? = some child) :
    ∃ b, bs[i]? = some b ∧ w.Enters c s.entry i child (s.pick g i b) := by
  obtain ⟨b, hb, hbecomes⟩ := exists_getElem?_of_forall₂ (hc.forall₂_parts hr) hi
  have hb' : bs[i]? = some b := hb
  have hpick : s.pick g i b ∈ P.transitions :=
    hc.part.transitions_subset ((picks_sublist s g bs).subset (mem_picks.mpr ⟨i, b, hb', rfl⟩))
  obtain ⟨hinfo, hid⟩ := h.info_mem hbecomes
  refine ⟨b, hb', h.transitions ▸ hpick, Transition.serves_iff.mpr ⟨hc.id_eq, rfl⟩, rfl, rfl,
    b.layout.info, hinfo, hid, ?_⟩
  rw [info_layout_entry]
  rfl

theorem listing (h : w.Consists P) (hr : r.Yields P) (rounds : Nat) (m : Marking α) :
    w.Listing r rounds m where
  ascending := Timing.tidy_decisionPoints.ascending
  occurs p := by
    refine h.exists_point_iff.trans (h.candidates_ne_nil_iff.trans (and_congr_right fun _ => ?_))
    constructor
    · rintro ⟨Q, hpart, hguard⟩
      obtain ⟨c, hc⟩ := hr.exists_region hpart
      exact ⟨c, hc.mem, (h.decidesAt_iff hr hc).mpr hguard⟩
    · rintro ⟨c, hc, hdecides⟩
      obtain ⟨Q, hQ⟩ := hr.exists_part hc
      exact ⟨Q, hQ.part, (h.decidesAt_iff hr hQ).mp hdecides⟩
  gateway c hc hkind d hd hdecides := by
    obtain ⟨s, g, bs, hQ, hplace⟩ := h.exists_gateway hr hc hkind hdecides
    have hcandidates := h.candidates_gateway hQ.part (hplace ▸ h.marked_of_mem hd)
    refine ⟨picks s g bs, ?_, ?_, fun i child hi => ?_⟩
    · rw [h.transitions_eq_candidates hd, hplace, hcandidates]
    · rw [picks, List.length_map, List.length_zipIdx]
      exact (hQ.forall₂_parts hr).length_eq.symm
    · obtain ⟨b, hb, henters⟩ := h.exists_enters hr hQ hi
      refine ⟨s.pick g i b, ?_, hplace ▸ henters⟩
      rw [getElem?_picks, hb]
      rfl
  loop c hc hkind d hd hdecides := by
    obtain ⟨s, body, x, bound, hQ, hplace, hbound⟩ := h.exists_loop hr hc hkind hdecides
    have hcandidates := h.candidates_loop hQ.part (hplace ▸ h.marked_of_mem hd)
    have hsub := hQ.part.transitions_subset
    rw [← h.transitions] at hsub
    have hback : s.back body x ∈ w.net.transitions := hsub (by simp [Piece.transitions])
    have hleave : s.leave body x ∈ w.net.transitions := hsub (by simp [Piece.transitions])
    refine ⟨s.back body x, hback, s.leave body x, hleave, bound,
      Transition.serves_iff.mpr ⟨hQ.id_eq, rfl⟩, Transition.serves_iff.mpr ⟨hQ.id_eq, rfl⟩,
      hbound, ?_⟩
    rw [h.transitions_eq_candidates hd, hplace, hcandidates]
    split <;> rfl
  timed timeStep rounds' := by
    refine (h.decisionPoints_duration timeStep).trans (List.filter_congr fun d hd => ?_)
    obtain ⟨t, ht⟩ := List.exists_mem_of_ne_nil _ (h.candidates_ne_nil hd)
    obtain ⟨ht, -, -, hin⟩ := h.mem_candidates_iff.mp ht
    have hzone : d.place ∈ P.zone := (h.placed.within (h.transitions ▸ ht)).inputs
      (hin ▸ List.mem_singleton_self _)
    obtain ⟨place, hplace⟩ := h.exists_place (zone_subset_ground _ hzone)
    rw [Net.rested, hplace]
    rfl

end Consists

/-- The strategies list the open decisions of every compiled workflow completely, in any marking. -/
theorem listing_of_compile {r : Region α} {w : Workflow α} (h : compile r = .ok w) (rounds : Nat)
    (m : Marking α) : w.Listing r rounds m := by
  obtain ⟨w', P, hcompile, hP, hr⟩ := exists_yields (compile_eq_ok_iff.mp ⟨w, h⟩)
  obtain rfl := Except.ok.inj (hcompile.symm.trans h)
  exact hP.listing hr rounds m

/-- With one token in front of the choice and one where the body of the loop ends, both are listed.
The loop has gone back twice, as often as its bound allows, and can only be left. -/
theorem listing_sample : ∃ (w : Workflow Rat) (m : Marking Rat), compile Region.sample = .ok w ∧
    m.marked = [⟨10⟩, ⟨12⟩] ∧ (m.state ⟨12⟩).visits = 2 ∧
    Strategy.choices ⟨.counter, 50⟩ w m = [⟨⟨10⟩, [⟨14⟩, ⟨19⟩]⟩, ⟨⟨12⟩, [⟨34⟩]⟩] ∧
    w.Listing Region.sample 50 m := by
  obtain ⟨blk, n, -, hcompile, -, -⟩ := compile_of_validate Region.sample_valid
  generalize ofBlock blk = w at hcompile
  have hcheck : (match compile Region.sample with
      | .ok w =>
          let m := (Marking.withTokens w.net [(⟨10⟩, 1), (⟨12⟩, 1)]).modify ⟨12⟩
            fun s => { s with visits := 2 }
          m.marked = [⟨10⟩, ⟨12⟩] && (m.state ⟨12⟩).visits = 2 &&
            Strategy.choices ⟨.counter, 50⟩ w m = [⟨⟨10⟩, [⟨14⟩, ⟨19⟩]⟩, ⟨⟨12⟩, [⟨34⟩]⟩]
      | .error _ => false) = true := by decide +kernel
  rw [hcompile] at hcheck
  simp only [Bool.and_eq_true, decide_eq_true_eq] at hcheck
  obtain ⟨⟨hmarked, hvisits⟩, hchoices⟩ := hcheck
  exact ⟨w, _, hcompile, hmarked, hvisits, hchoices, listing_of_compile hcompile 50 _⟩

end Workflow

end RegionNet
