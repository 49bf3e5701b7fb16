import RegionNet.Proofs.Counters
import RegionNet.Proofs.Preorder

/-!
# What loops forget

Going back in a loop forgets the visits of the places of its body, all but those of the place where
the body ends, which counts the rounds (`Workflow.resets_of_validate`). These are places that no
region around the loop has to do with: from the zone of a part only its own transitions take
(`Piece.Part.owns`), and apart from its entry only its own transitions put tokens there
(`Piece.Part.feeds`).

The counter of a loop is therefore forgotten by the loops in whose body the loop lies, and by no
other one.
-/

namespace RegionNet

variable {α : Type}

theorem Net.mem_places_of_limit {net : Net α} {p : PlaceId} {n : Nat} (h : net.limit p = some n) :
    p ∈ net.places.map Place.id := by
  obtain ⟨q, hq, -⟩ := Option.bind_eq_some_iff.mp h
  rw [← Net.place?_id hq]
  exact List.mem_map_of_mem (List.mem_of_find?_eq_some hq)

namespace Piece

variable {lim : PlaceId → Option Nat} {P Q : Piece α} {s s' : Site α} {body body' : Piece α}
  {t : Transition α} {p : PlaceId} {x x' : α} {n n' : Nat}

/-- A place of one branch is in no other. -/
theorem Branched.eq_of_grounds {b c : Piece α} {bs : List (Piece α)} (h : Branched lim s bs)
    (hb : b ∈ bs) (hc : c ∈ bs) (hpb : p ∈ b.ground) (hpc : p ∈ c.ground) : c = b := by
  by_contra hne
  exact h.notMem_of_ne hb hc hne hpb hpc

theorem Placed.nodup_back (h : Placed lim body) : (s.back body x).resetVisits.Nodup := by
  have hnodup : (body.entry :: body.added).Nodup := h.fits.ground_perm.nodup_iff.mp h.nodup
  exact List.Nodup.filter (· != body.exit) hnodup

variable [Quantity α]

/-- Only a part's own transitions put tokens in its zone, unless on its entry. -/
theorem Part.feeds (h : Part Q P) (hP : Placed lim P) (ht : t ∈ P.transitions)
    (hout : p ∈ t.outputs) (hp : p ∈ Q.zone) (hne : p ≠ Q.entry) : t ∈ Q.transitions := by
  -- a piece on the way down to the part does not start at the place either
  have hentry : ∀ {P' : Piece α}, Part Q P' → Placed lim P' → p ≠ P'.entry := by
    rintro P' hpart hP' rfl
    exact hne (hpart.entry_eq hP' hp)
  induction h with
  | self => exact ht
  | first h ih =>
      apply ih hP.fst
      rcases List.mem_append.mp ht with ht | ht
      · exact ht
      · exact absurd ((hP.snd.within ht).outputs hout) (hP.notMem_snd_ground (h.zone_subset hp))
  | second h ih =>
      apply ih hP.snd
      rcases List.mem_append.mp ht with ht | ht
      · have hground := zone_subset_ground _ (h.zone_subset hp)
        exact absurd ((hP.fst.within ht).outputs hout)
          (hP.notMem_fst_ground hground (hentry h hP.snd))
      · exact ht
  | @branch s bs b hb h ih =>
      have hbs := hP.parallel
      have hground := zone_subset_ground _ (h.zone_subset hp)
      have hown : ∀ {c}, c ∈ bs → p ∈ c.ground → c = b := fun hc hpc =>
        hbs.eq_of_grounds hb hc hground hpc
      apply ih (hbs.branch hb)
      rcases List.mem_cons.mp ht with rfl | ht
      · obtain ⟨c, hc, rfl⟩ : ∃ c ∈ bs, c.entry = p := by simpa [Site.fork] using hout
        obtain rfl := hown hc (hbs.branch hc).entry_mem_ground
        exact absurd rfl (hentry h (hbs.branch hc))
      rcases List.mem_append.mp ht with ht | ht
      · obtain ⟨c, hc, ht⟩ := mem_transitionsAll.mp ht
        exact hown hc (((hbs.branch hc).within ht).outputs hout) ▸ ht
      · obtain rfl : t = s.join bs := List.mem_singleton.mp ht
        exact absurd (by simpa [Site.join] using hout) (hbs.ne_exit hb hground)
  | @arm s g bs b hb h ih =>
      have hbs := hP.gateway
      have hground := zone_subset_ground _ (h.zone_subset hp)
      have hown : ∀ {c}, c ∈ bs → p ∈ c.ground → c = b := fun hc hpc =>
        hbs.eq_of_grounds hb hc hground hpc
      apply ih (hbs.branch hb)
      obtain ⟨j, c, hj, ht⟩ := mem_arms.mp ht
      have hc : c ∈ bs := List.mem_of_getElem? hj
      rcases ht with rfl | ht | rfl
      · obtain rfl : p = c.entry := by simpa [Site.pick] using hout
        obtain rfl := hown hc (hbs.branch hc).entry_mem_ground
        exact absurd rfl (hentry h (hbs.branch hc))
      · exact hown hc (((hbs.branch hc).within ht).outputs hout) ▸ ht
      · exact absurd (by simpa [Site.merge] using hout) (hbs.ne_exit hb hground)
  | @body s P x n h ih =>
      have hground := zone_subset_ground _ (h.zone_subset hp)
      have hstart : p ≠ P.entry := hentry h hP.body
      apply ih hP.body
      rcases List.mem_cons.mp ht with rfl | ht
      · exact absurd (by simpa [Site.enter] using hout) hstart
      rcases List.mem_append.mp ht with ht | ht
      · exact ht
      rcases List.mem_pair.mp ht with rfl | rfl
      · exact absurd (by simpa [Site.back] using hout) hstart
      · exact absurd (by simpa [Site.leave] using hout) (hP.ne_exit_of_body hground)

/-- The places whose visits a loop forgets have to do with the transitions of the loop only. -/
theorem Part.mem_of_touches (h : Part (.loop s body x n) P) (hP : Placed lim P)
    (ht : t ∈ P.transitions) (hp : p ∈ body.zone) (htouches : p ∈ t.inputs ∨ p ∈ t.outputs) :
    t ∈ (Piece.loop s body x n).transitions := by
  have hzone : p ∈ (Piece.loop s body x n).zone :=
    List.mem_cons_of_mem _ (zone_subset_ground _ hp)
  rcases htouches with hin | hout
  · exact h.owns hP ht hin hzone
  · exact h.feeds hP ht hout hzone ((h.placed hP).ne_entry_of_body (zone_subset_ground _ hp))

/-- What is no move back forgets nothing. -/
theorem Adds.resets_eq_nil_or (h : Q.Adds t) :
    t.resetVisits = [] ∨ ∃ s body x n, Q = .loop s body x n ∧ t = s.back body x := by
  cases h with
  | back s body x n => exact Or.inr ⟨s, body, x, n, rfl, rfl⟩
  | _ => exact Or.inl rfl

/-- The place where a loop is decided lies in the body of another one if the loop does. -/
theorem Part.guard_mem_zone_iff (h : Part (.loop s body x n) P) (h' : Part (.loop s' body' x' n') P)
    (hP : Placed lim P) (hnodup : P.block.ids.Nodup) :
    body.exit ∈ body'.zone ↔ Part (.loop s body x n) body' := by
  constructor
  · intro hzone
    have hbody' : Part body' P := h'.trans (.body .self)
    have hback : s.back body x ∈ P.transitions := h.transitions_subset (by simp [transitions])
    have hown := hbody'.owns hP hback (by simp [Site.back]) hzone
    obtain ⟨Q, hpart, hadds⟩ := exists_adds hown
    have hid : Q.site.head.id = s.head.id := hadds.regionId.symm
    rwa [(hbody'.trans hpart).eq_of_id h hnodup hid] at hpart
  · intro hpart
    exact hpart.zone_subset (List.mem_cons_of_mem _ (exit_mem_ground body))

end Piece

/-! ## Loops of a workflow -/

variable [Quantity α]

namespace Workflow

/-- The transition `t` forgets the visits of the places of the region `body`, except those of the
place where it ends, and they are no concern of regions outside the loop `c`. -/
structure Forgets (w : Workflow α) (c body : Region α) (t : Transition α) : Prop where
  nodup : t.resetVisits.Nodup
  mem_iff : ∀ p, p ∈ t.resetVisits ↔
    (∃ d ∈ body.preorder, w.HasEntry d p ∨ w.HasExit d p) ∧ ¬ w.HasExit body p
  apart : ∀ u ∈ w.net.transitions, ∀ p ∈ t.resetVisits, p ∈ u.inputs ∨ p ∈ u.outputs →
    ∃ d ∈ c.preorder, u.regionId = d.id

/-- How the loops of a description count their rounds and forget them. -/
structure Resets (w : Workflow α) (r : Region α) : Prop where
  /-- Every loop has one transition to go back, which forgets the visits in the body. -/
  loop : ∀ c ∈ r.preorder, c.kind = .loop → ∃ body t, c.branches = [body] ∧
    (∀ u, u ∈ w.net.transitions ∧ u.serves c.id .loopBack = true ↔ u = t) ∧ w.Forgets c body t
  others : ∀ t ∈ w.net.transitions,
    (∀ c ∈ r.preorder, c.kind = .loop → t.serves c.id .loopBack = false) → t.resetVisits = []
  /-- Every loop has a bound and is decided at one place, and the places where loops are decided,
  and no others, are guarded by their bounds. -/
  decided : ∀ c ∈ r.preorder, c.kind = .loop →
    ∃ n p, c.loopBound = some n ∧ ∀ q, w.DecidesAt c q ↔ q = p
  guarded : ∀ p n, w.net.limit p = some n ↔
    ∃ c ∈ r.preorder, c.kind = .loop ∧ w.DecidesAt c p ∧ c.loopBound = some n
  distinct : ∀ c ∈ r.preorder, ∀ d ∈ r.preorder, c.kind = .loop → d.kind = .loop →
    ∀ p, w.DecidesAt c p → w.DecidesAt d p → c = d
  /-- The rounds of a loop are forgotten by the loops in whose body it lies. -/
  enclosing : ∀ c ∈ r.preorder, ∀ d ∈ r.preorder, c.kind = .loop → d.kind = .loop →
    ∀ p t, w.DecidesAt c p → t ∈ w.net.transitions → t.serves d.id .loopBack = true →
      (p ∈ t.resetVisits ↔ ∃ body ∈ d.branches, c ∈ body.preorder)

namespace Consists

open Piece

variable {w : Workflow α} {r c d : Region α} {R Q body : Piece α} {s : Site α} {x : α} {n : Nat}
  {t : Transition α} {p : PlaceId}

/-- A region that is a loop became the piece of a loop. -/
theorem exists_loop_piece (hr : r.Yields R) (hc : c ∈ r.preorder) (hkind : c.kind = .loop) :
    ∃ s body x n d, r.Becomes R c (.loop s body x n) ∧ c.loopBound = some n ∧ c.branches = [d] ∧
      r.Becomes R d body := by
  obtain ⟨Q, hQ⟩ := hr.exists_part hc
  obtain ⟨k, hsound⟩ := hr.sound
  obtain ⟨s, body, x, n, d, rfl, -, hbound, hbranches, -⟩ :=
    Region.loop_of_block (hsound c hc) hkind hQ.block
  have hparts := hQ.forall₂_parts hr
  rw [hbranches] at hparts
  exact ⟨s, body, x, n, d, hQ, hbound, hbranches, (List.forall₂_cons.mp hparts).1⟩

/-- The transition with which a loop goes back. -/
theorem serves_back_iff (h : w.Consists R) (hr : r.Yields R)
    (hc : r.Becomes R c (.loop s body x n)) :
    t ∈ w.net.transitions ∧ t.serves c.id .loopBack = true ↔ t = s.back body x := by
  rw [h.transitions, ← hc.id_eq]
  constructor
  · rintro ⟨ht, hserves⟩
    rcases hc.part.eq_of_serves hr.nodup ht hserves with ⟨-, hrole⟩ | ⟨rfl, -⟩ | ⟨-, hrole⟩
    · cases hrole
    · rfl
    · cases hrole
  · rintro rfl
    exact ⟨hc.part.transitions_subset (by simp [Piece.transitions]), serves_back⟩

theorem forgets (h : w.Consists R) (hr : r.Yields R) (hc : r.Becomes R c (.loop s body x n))
    (hd : r.Becomes R d body) : w.Forgets c d (s.back body x) := by
  have hbody : Placed w.net.limit body := hd.part.placed h.placed
  refine ⟨hbody.nodup_back, fun p => ?_, fun u hu p hp htouches => ?_⟩
  · rw [mem_back_resetVisits hbody, ← h.mem_ground_iff hr hd, h.hasExit_iff hr hd]
    constructor
    · intro hp
      exact ⟨zone_subset_ground _ hp, fun he => hbody.ne_exit hp he.symm⟩
    · rintro ⟨hp, hne⟩
      exact (mem_ground.mp hp).resolve_right fun he => hne he.symm
  · rw [h.transitions] at hu
    rw [mem_back_resetVisits hbody] at hp
    obtain ⟨Q, hpart, hadds⟩ := exists_adds (hc.part.mem_of_touches h.placed hu hp htouches)
    obtain ⟨e, he⟩ := hr.exists_region (hc.part.trans hpart)
    exact ⟨e, (he.mem_preorder_iff hr hc).mpr hpart, hadds.regionId.trans he.id_eq⟩

/-- The bound of a loop guards the place where the loop is decided. -/
theorem limit_eq_some_iff (h : w.Consists R) (hr : r.Yields R) : w.net.limit p = some n ↔
    ∃ c ∈ r.preorder, c.kind = .loop ∧ w.DecidesAt c p ∧ c.loopBound = some n := by
  constructor
  · intro hlimit
    have hp : p ∈ R.ground := by
      rw [← h.mem_places_iff]
      exact Net.mem_places_of_limit hlimit
    have hzone : p ∈ R.zone := (mem_ground.mp hp).resolve_right fun he => by
      rw [he, h.unlimited] at hlimit
      cases hlimit
    obtain ⟨s, body, x, hpart, rfl⟩ := h.placed.exists_loop hzone hlimit
    obtain ⟨c, hc⟩ := hr.exists_region hpart
    have hkind : c.kind = .loop := hc.kind_eq
    obtain ⟨s', body', x', n', d, hc', hbound, -⟩ := exists_loop_piece hr hc.mem hkind
    cases hc.unique_right hr hc'
    exact ⟨c, hc.mem, hkind, (h.decidesAt_iff hr hc).mpr rfl, hbound⟩
  · rintro ⟨c, hc, hkind, hdecides, hbound⟩
    obtain ⟨s, body, x, n', hQ, rfl, hbound'⟩ := h.exists_loop hr hc hkind hdecides
    obtain rfl : n' = n := Option.some.inj (hbound'.symm.trans hbound)
    exact (hQ.part.placed h.placed).fits.2.1

/-- No two loops are decided at one place. -/
theorem eq_of_decidesAt (h : w.Consists R) (hr : r.Yields R) (hc : c ∈ r.preorder)
    (hd : d ∈ r.preorder) (hkind : c.kind = .loop) (hkind' : d.kind = .loop)
    (hdecides : w.DecidesAt c p) (hdecides' : w.DecidesAt d p) : c = d := by
  obtain ⟨s, body, x, n, hQ, rfl, -⟩ := h.exists_loop hr hc hkind hdecides
  obtain ⟨s', body', x', n', hQ', he, -⟩ := h.exists_loop hr hd hkind' hdecides'
  -- the move back of the one loop takes its token where the other one is decided
  obtain ⟨ht, -⟩ := (h.serves_back_iff hr hQ).mpr rfl
  have hout : s.back body x ∈ w.net.outgoing body.exit :=
    Net.mem_outgoing.mpr ⟨ht, by simp [Site.back]⟩
  obtain ⟨-, hall⟩ := h.outgoing_of_decider hQ'.part (he ▸ (hQ'.part.placed h.placed).decider)
  have hid : s.head.id = s'.head.id := (hall _ hout).2.1
  cases hQ.part.eq_of_id hQ'.part hr.nodup hid
  exact hQ.unique_left hr hQ'

theorem resets (h : w.Consists R) (hr : r.Yields R) : w.Resets r where
  loop c hc hkind := by
    obtain ⟨s, body, x, n, d, hQ, -, hbranches, hd⟩ := exists_loop_piece hr hc hkind
    exact ⟨d, s.back body x, hbranches, fun u => h.serves_back_iff hr hQ, h.forgets hr hQ hd⟩
  others t ht hnot := by
    obtain ⟨Q, hpart, hadds⟩ := exists_adds (h.transitions ▸ ht)
    refine hadds.resets_eq_nil_or.resolve_right ?_
    rintro ⟨s, body, x, n, rfl, rfl⟩
    obtain ⟨c, hc⟩ := hr.exists_region hpart
    have hserves := ((h.serves_back_iff hr hc).mpr rfl).2
    rw [hnot c hc.mem hc.kind_eq] at hserves
    cases hserves
  decided c hc hkind := by
    obtain ⟨s, body, x, n, d, hQ, hbound, -⟩ := exists_loop_piece hr hc hkind
    refine ⟨n, body.exit, hbound, fun q => (h.decidesAt_iff hr hQ).trans ?_⟩
    exact ⟨fun hq => (Option.some.inj hq).symm, fun hq => congrArg some hq.symm⟩
  guarded p n := h.limit_eq_some_iff hr
  distinct c hc d hd hkind hkind' p := h.eq_of_decidesAt hr hc hd hkind hkind'
  enclosing c hc d hd hkind hkind' p t hdecides ht hserves := by
    obtain ⟨s, body, x, n, hQ, rfl, -⟩ := h.exists_loop hr hc hkind hdecides
    obtain ⟨s', body', x', n', e, hQ', -, hbranches, he⟩ := exists_loop_piece hr hd hkind'
    obtain rfl := (h.serves_back_iff hr hQ').mp ⟨ht, hserves⟩
    rw [mem_back_resetVisits (he.part.placed h.placed),
      hQ.part.guard_mem_zone_iff hQ'.part h.placed hr.nodup, ← hQ.mem_preorder_iff hr he, hbranches]
    simp

end Consists

/-- A loop that goes back forgets the visits of its body and of nothing else. -/
theorem resets_of_validate {r : Region α} (h : r.validate = .ok ()) :
    ∃ w, compile r = .ok w ∧ w.Resets r := by
  obtain ⟨w, R, hcompile, hR, hr⟩ := exists_yields h
  exact ⟨w, hcompile, hR.resets hr⟩

end Workflow

/-- A loop whose body is another loop. -/
def Region.nested : Region Rat :=
  ⟨"outer", .loop, none, 0, none, some [⟨"inner", .loop, none, 0, none,
    some [⟨"a", .task, none, 1, some [1], none, none, none⟩], some (.single (1 / 2)), some 2⟩],
    some (.single (1 / 2)), some 3⟩

theorem Region.nested_valid : Region.nested.validate = .ok () := by decide +kernel

/-- The outer loop forgets the rounds of the inner one, but not its own. -/
theorem Workflow.resets_nested : Region.nested.validate = .ok () ∧
    ∃ w, Workflow.compile Region.nested = .ok w ∧ w.Resets Region.nested ∧
      w.net.limit ⟨5⟩ = some 2 ∧ w.net.limit ⟨7⟩ = some 3 ∧
      (w.net.transitions.filter (·.role = .loopBack)).map Transition.resetVisits =
        [[⟨3⟩], [⟨1⟩, ⟨3⟩, ⟨5⟩]] := by
  obtain ⟨w, hcompile, hresets⟩ := Workflow.resets_of_validate Region.nested_valid
  have hcheck : (match Workflow.compile Region.nested with
      | .ok w => w.net.limit ⟨5⟩ = some 2 && w.net.limit ⟨7⟩ = some 3 &&
          (w.net.transitions.filter (·.role = .loopBack)).map Transition.resetVisits =
            [[⟨3⟩], [⟨1⟩, ⟨3⟩, ⟨5⟩]]
      | .error _ => false) = true := by decide +kernel
  rw [hcompile] at hcheck
  simp only [Bool.and_eq_true, decide_eq_true_eq] at hcheck
  obtain ⟨⟨hinner, houter⟩, hback⟩ := hcheck
  exact ⟨Region.nested_valid, w, hcompile, hresets, hinner, houter, hback⟩

end RegionNet
