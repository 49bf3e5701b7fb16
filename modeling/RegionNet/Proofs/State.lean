import RegionNet.Proofs.Report
import RegionNet.Proofs.Step

/-!
# The reported state of regions

The state of a region is told from the states of its children, not from where its token is. While a
token rests in front of a join or merge with which a region ends, all that came before is completed,
so the region is reported as completed too, although it has not been left. `Layout.tails` are the
places where this can happen, and a region under way is reported as active exactly as long as some
token rests outside its tails (`Piece.Tells`).
-/

namespace RegionNet

namespace Layout

/-- The places where regions of the tree start and end. -/
def places (l : Layout) : List PlaceId := l.infos.flatMap fun i => [i.entry, i.exit]

mutual

/-- The places in front of the joins and merges with which a region ends. -/
def tails : Layout → List PlaceId
  | .node i cs =>
    match i.kind with
    | .parallel | .choice | .nature => tailsAll cs
    | _ => tailsLast cs

/-- The ends of all branches, and the places where they end themselves. -/
def tailsAll : List Layout → List PlaceId
  | [] => []
  | l :: ls => l.info.exit :: (l.tails ++ tailsAll ls)

def tailsLast : List Layout → List PlaceId
  | [] => []
  | l :: ls => if ls.isEmpty then l.tails else tailsLast ls

end

theorem mem_tailsAll {p : PlaceId} {ls : List Layout} :
    p ∈ tailsAll ls ↔ ∃ l ∈ ls, p = l.info.exit ∨ p ∈ l.tails := by
  induction ls with
  | nil => simp [tailsAll]
  | cons l ls ih => simp [tailsAll, ih, or_assoc]

end Layout

/-! ## States told from the states of children -/

namespace Activity

theorem done_activeIf (c : Bool) : (activeIf c).done = false := by
  cases c <;> rfl

end Activity

namespace Status

variable {α : Type} [Quantity α] {net : Net α} {m : Marking α} {info : RegionInfo} {a : Activity}
  {below : List Layout} {states : List Activity}

theorem state_report (i : RegionInfo) (cs : List Layout) :
    (report net m (.node i cs)).state =
      settle net m i (stateOf m i cs (cs.map fun c => (report net m c).state)) := by
  rw [report, reports_eq_map, List.map_map]
  rfl

/-- Whether a region is completed does not depend on whether it waits for a decision. -/
theorem done_settle : (settle net m info a).done = a.done := by
  unfold settle
  split
  · next h =>
      rw [Bool.and_eq_true, decide_eq_true_eq] at h
      rw [h.1]
      rfl
  · rfl

@[simp]
theorem settle_active : settle net m info .active = .active := rfl

@[simp]
theorem settle_waiting : settle net m info .waiting = .waiting := rfl

/-- A region is only held back in front of a decision by a token on its exit. -/
theorem settle_of_empty (h : m.tokens info.exit = 0) : settle net m info a = a := by
  unfold settle awaitsDecision
  rw [h]
  simp

theorem started_of_done (h : a.done = true) : a.started = true := by
  unfold Activity.started
  rw [h, Bool.or_true]

theorem stateOf_task (hkind : info.kind = .task) :
    stateOf m info below states =
      if 0 < m.tokens info.entry then .active
      else if 0 < (m.state info.entry).visits then .completed
      else .waiting := by
  unfold stateOf
  simp only [hkind, decide_eq_true_eq]

theorem stateOf_sequential {first second : Activity} (hkind : info.kind = .sequential) :
    stateOf m info below [first, second] =
      if second.done then second else .activeIf (first.started || second.started) := by
  unfold stateOf
  simp only [hkind]

theorem stateOf_loop (hkind : info.kind = .loop) {body : Layout} :
    stateOf m info [body] [a] =
      if a.done ∧ m.tokens body.info.exit = 0 then .completed
      else .activeIf (a.started || 0 < m.tokens info.entry || 0 < m.tokens body.info.exit) := by
  unfold stateOf
  simp [hkind, decisionPending]

theorem stateOf_parallel (hkind : info.kind = .parallel) (hne : states ≠ []) :
    stateOf m info below states =
      if states.all Activity.done then .completed
      else .activeIf (0 < m.tokens info.entry || states.any Activity.started) := by
  unfold stateOf
  simp [hkind, hne]

theorem stateOf_gateway (hkind : info.kind = .choice ∨ info.kind = .nature) :
    stateOf m info below states =
      match taken info.kind states with
      | some i => if (states.getD i .waiting).done then .completed else .active
      | none => .activeIf (0 < m.tokens info.entry) := by
  cases info with
  | mk id kind label entry exit =>
      rcases hkind with hkind | hkind
      · cases hkind
        rfl
      · cases hkind
        rfl

/-- Before a branch is begun, none is taken. -/
theorem taken_of_waiting {kind : Kind} (h : ∀ x ∈ states, x = .waiting) :
    taken kind states = none := by
  have hnone : ∀ q : Activity → Bool, q .waiting = false → states.findIdx? q = none := by
    intro q hq
    rw [List.findIdx?_eq_none_iff]
    intro x hx
    rw [h x hx, hq]
  unfold taken
  cases kind <;> simp [hnone, Activity.started, Activity.done]

/-- Where only one branch was begun, its state decides. -/
theorem stateOf_of_alone (hkind : info.kind = .choice ∨ info.kind = .nature)
    (h : ∀ x ∈ states, x = .waiting ∨ x = a) (ha : a ∈ states) (hstarted : a.started = true) :
    stateOf m info below states = if a.done then .completed else .active := by
  have hfound : ∀ {q : Activity → Bool} {i : Nat}, q .waiting = false →
      states.findIdx? q = some i → states.getD i .waiting = a := by
    intro q i hq hi
    obtain ⟨hlt, hqi, _⟩ := List.findIdx?_eq_some_iff_getElem.mp hi
    have hget : states.getD i .waiting = states[i] := by simp [hlt]
    rw [hget]
    apply (h _ (List.getElem_mem hlt)).resolve_left
    intro he
    rw [he, hq] at hqi
    cases hqi
  -- the first active or started branch is the one that was begun
  have htaken : ∃ i, taken info.kind states = some i ∧ states.getD i .waiting = a := by
    have hor : taken info.kind states =
        (states.findIdx? (· = .active)).or (states.findIdx? Activity.started) := by
      rcases hkind with hkind | hkind <;> rw [hkind] <;> rfl
    rw [hor]
    cases hi : states.findIdx? (· = .active) with
    | some i => exact ⟨i, rfl, hfound rfl hi⟩
    | none =>
        have hsome : (states.findIdx? Activity.started).isSome := by
          rw [List.findIdx?_isSome, List.any_eq_true]
          exact ⟨a, ha, hstarted⟩
        obtain ⟨i, hi⟩ := Option.isSome_iff_exists.mp hsome
        exact ⟨i, hi, hfound rfl hi⟩
  obtain ⟨i, hi, hget⟩ := htaken
  rw [stateOf_gateway hkind, hi]
  simp only [hget]

end Status

/-! ## Tails -/

namespace Piece

variable {α : Type} {lim : PlaceId → Option Nat} {P : Piece α} {s : Site α} {bs : List (Piece α)}
  {f : Tally} {p : PlaceId}

theorem mem_tailsAll_layouts : p ∈ Layout.tailsAll (layouts bs) ↔
    ∃ b ∈ bs, p = b.exit ∨ p ∈ b.layout.tails := by
  rw [layouts_eq_map, Layout.mem_tailsAll]
  constructor
  · rintro ⟨l, hl, hp⟩
    obtain ⟨b, hb, rfl⟩ := List.mem_map.mp hl
    exact ⟨b, hb, by rwa [info_layout_exit] at hp⟩
  · rintro ⟨b, hb, hp⟩
    exact ⟨b.layout, List.mem_map_of_mem hb, by rwa [info_layout_exit]⟩

theorem tails_gateway {g : Gate α} :
    (Piece.gateway s g bs).layout.tails = Layout.tailsAll (layouts bs) := by
  cases g <;> rfl

theorem kind_gateway (s : Site α) (g : Gate α) :
    (s.info g.kind).kind = .choice ∨ (s.info g.kind).kind = .nature := by
  cases g
  · exact Or.inl rfl
  · exact Or.inr rfl

/-- The tails of a piece lie in its zone. -/
theorem tails_subset_zone (P : Piece α) : P.layout.tails ⊆ P.zone := by
  have hall : ∀ {bs : List (Piece α)}, (∀ b ∈ bs, b.layout.tails ⊆ b.zone) →
      Layout.tailsAll (layouts bs) ⊆ zones bs := by
    intro bs ih p hp
    obtain ⟨b, hb, rfl | hp⟩ := mem_tailsAll_layouts.mp hp
    · exact mem_zones.mpr ⟨b, hb, exit_mem_ground b⟩
    · exact mem_zones.mpr ⟨b, hb, zone_subset_ground _ (ih b hb hp)⟩
  induction P using Piece.ind with
  | task s v => exact List.nil_subset _
  | sequential s P Q _ ihQ => exact List.Subset.trans ihQ (List.subset_append_right _ _)
  | parallel s bs ih => exact List.Subset.trans (hall ih) (List.subset_cons_self _ _)
  | gateway s g bs ih =>
      rw [tails_gateway]
      exact List.Subset.trans (hall ih) (List.subset_cons_self _ _)
  | loop s body x n ih =>
      exact List.Subset.trans ih
        (List.Subset.trans (List.subset_append_left _ _) (List.subset_cons_self _ _))

/-- All tokens in the piece rest in its tails. -/
def Winding (P : Piece α) (f : Tally) : Prop := ∀ p ∈ P.zone, 0 < (f p).1 → p ∈ P.layout.tails

theorem not_winding (hp : p ∈ P.zone) (hmarked : 0 < (f p).1) (htails : p ∉ P.layout.tails) :
    ¬ P.Winding f := fun h => htails (h p hp hmarked)

/-- Tokens in the tails of branches rest in the tails of these branches, or at their ends. -/
theorem Branched.winding_branch {b : Piece α} (h : Branched lim s bs) (hb : b ∈ bs)
    (hwinding : ∀ p ∈ s.entry :: zones bs, 0 < (f p).1 → p ∈ Layout.tailsAll (layouts bs)) :
    b.Winding f := by
  intro p hp hmarked
  have hground := zone_subset_ground b hp
  obtain ⟨c, hc, htail⟩ := mem_tailsAll_layouts.mp
    (hwinding p (List.mem_cons_of_mem _ (mem_zones.mpr ⟨b, hb, hground⟩)) hmarked)
  have hp' : p ∈ c.ground := by
    rcases htail with rfl | htail
    · exact exit_mem_ground c
    · exact zone_subset_ground _ (tails_subset_zone c htail)
  have hcb : c = b := by
    by_contra hne
    exact h.notMem_of_ne hb hc hne hground hp'
  subst hcb
  exact htail.resolve_left ((h.branch hc).ne_exit hp)

/-- In front of a fork or a decision no token rests in the tails. -/
theorem Branched.entry_notMem_tails (h : Branched lim s bs) :
    s.entry ∉ Layout.tailsAll (layouts bs) := by
  intro htails
  obtain ⟨b, hb, he | htail⟩ := mem_tailsAll_layouts.mp htails
  · exact h.entry_notMem hb (he ▸ exit_mem_ground b)
  · exact h.entry_notMem hb (zone_subset_ground _ (tails_subset_zone b htail))

theorem Branched.winding_of_branches (h : Branched lim s bs) (hentry : (f s.entry).1 = 0)
    (hbs : ∀ b ∈ bs, f.Untouched b.ground ∨ b.Done f ∨ b.Winding f) :
    ∀ p ∈ s.entry :: zones bs, 0 < (f p).1 → p ∈ Layout.tailsAll (layouts bs) := by
  intro p hp hmarked
  rcases List.mem_cons.mp hp with rfl | hp
  · rw [hentry] at hmarked
    exact absurd hmarked (Nat.lt_irrefl 0)
  obtain ⟨b, hb, hp⟩ := mem_zones.mp hp
  refine mem_tailsAll_layouts.mpr ⟨b, hb, ?_⟩
  rcases mem_ground.mp hp with hzone | hexit
  · rcases hbs b hb with hfresh | hdone | hwinding
    · exact absurd hmarked (not_pos_of_eq (hfresh p hp))
    · rw [(h.branch hb).idle_of_done hdone p hzone] at hmarked
      exact absurd hmarked (Nat.lt_irrefl 0)
    · exact Or.inr (hwinding p hzone hmarked)
  · exact Or.inl hexit

theorem Branched.winding_gateway {g : Gate α} {b : Piece α} (h : Branched lim s bs)
    (hentry : f s.entry = (0, 1)) (hothers : ∀ c ∈ bs, c ≠ b → f.Untouched c.ground)
    (hb : b.Done f ∨ b.Winding f) : (Piece.gateway s g bs).Winding f := by
  intro p hp hmarked
  rw [tails_gateway]
  refine h.winding_of_branches (by rw [hentry]) (fun c hc => ?_) p hp hmarked
  by_cases hcb : c = b
  · exact Or.inr (hcb ▸ hb)
  · exact Or.inl (hothers c hc hcb)

/-! ## States of pieces -/

variable [Quantity α] {net : Net α} {m : Marking α}

/-- The state of a region as it is reported. -/
def state (P : Piece α) (net : Net α) (m : Marking α) : Activity :=
  (Status.report net m P.layout).state

theorem state_branches : (layouts bs).map (fun c => (Status.report net m c).state) =
    bs.map fun b => b.state net m := by
  rw [layouts_eq_map, List.map_map]
  rfl

/-- What is reported of a piece that was not touched, is over, or is under way. -/
structure Tells (P : Piece α) (net : Net α) (m : Marking α) : Prop where
  fresh : m.tally.Untouched P.zone → P.state net m = .waiting
  ended : P.Done m.tally → (P.state net m).done = true
  winding : P.Busy m.tally → P.Winding m.tally → (P.state net m).done = true
  active : P.Busy m.tally → ¬ P.Winding m.tally → P.state net m = .active

theorem state_task {v : List α} (net : Net α) (m : Marking α) :
    (Piece.task s v).state net m = Status.settle net m (s.info .task)
      (if 0 < (m.tally s.entry).1 then .active
        else if 0 < (m.tally s.entry).2 then .completed else .waiting) := by
  rw [state, layout, Status.state_report, Status.stateOf_task rfl]
  rfl

theorem tells_task {v : List α} : (Piece.task s v).Tells net m := by
  have hstate := state_task (s := s) (v := v) net m
  constructor
  · intro h
    rw [hstate, h _ List.mem_cons_self]
    exact Status.settle_waiting
  · intro h
    rw [hstate, show m.tally s.entry = (0, 1) from h]
    exact Status.done_settle
  · intro h hwinding
    refine absurd hwinding (not_winding (p := s.entry) List.mem_cons_self ?_ List.not_mem_nil)
    exact pos_of_eq h
  · intro h _
    rw [hstate, show m.tally s.entry = (1, 0) from h]
    exact Status.settle_active

/-- A piece under way was begun, whether its tokens rest in its tails or not. -/
theorem Tells.started (h : P.Tells net m) (hbusy : P.Busy m.tally) :
    (P.state net m).started = true := by
  by_cases hwinding : P.Winding m.tally
  · exact Status.started_of_done (h.winding hbusy hwinding)
  · rw [h.active hbusy hwinding]
    rfl

theorem state_sequential {Q : Piece α} (net : Net α) (m : Marking α) :
    (Piece.sequential s P Q).state net m = Status.settle net m (s.info .sequential)
      (if (Q.state net m).done then Q.state net m
        else .activeIf ((P.state net m).started || (Q.state net m).started)) := by
  rw [state, layout, Status.state_report, List.map_cons, List.map_cons, List.map_nil,
    Status.stateOf_sequential rfl]
  rfl

theorem Placed.tells_sequential {Q : Piece α} (hP : Placed lim (.sequential s P Q))
    (ihP : P.Tells net m) (ihQ : Q.Tells net m) : (Piece.sequential s P Q).Tells net m := by
  have hstate := state_sequential (s := s) (P := P) (Q := Q) net m
  -- a token in the first part lies outside the tails, which belong to the second part
  have hfirst : P.Busy m.tally → ¬ (Piece.sequential s P Q).Winding m.tally := by
    intro hbusy
    obtain ⟨p, hp, hmarked⟩ := hP.fst.exists_marked hbusy
    apply not_winding (List.mem_append_left _ hp) hmarked
    intro htails
    exact hP.notMem_snd_ground hp (zone_subset_ground _ (tails_subset_zone Q htails))
  constructor
  · intro h
    have hP' := ihP.fresh (h.mono (List.subset_append_left _ _))
    have hQ' := ihQ.fresh (h.mono (List.subset_append_right _ _))
    rw [hstate, hP', hQ']
    exact Status.settle_waiting
  · intro h
    rw [hstate, Status.done_settle, if_pos (ihQ.ended h.2), ihQ.ended h.2]
  · intro h hwinding
    rcases h with ⟨hbusy, _⟩ | ⟨_, hbusy⟩
    · exact absurd hwinding (hfirst hbusy)
    · have hdone := ihQ.winding hbusy fun p hp => hwinding p (List.mem_append_right _ hp)
      rw [hstate, Status.done_settle, if_pos hdone, hdone]
  · intro h hwinding
    rcases h with ⟨hbusy, hfresh⟩ | ⟨hdone, hbusy⟩
    · rw [hstate, ihQ.fresh hfresh, ihP.started hbusy]
      exact Status.settle_active
    · have hactive := ihQ.active hbusy fun hQ => hwinding fun p hp hmarked => by
        rcases List.mem_append.mp hp with hp | hp
        · rw [hP.fst.idle_of_done hdone p hp] at hmarked
          exact absurd hmarked (Nat.lt_irrefl 0)
        · exact hQ p hp hmarked
      rw [hstate, hactive]
      simp [Activity.done, Activity.started, Activity.activeIf]

/-- The states of branches that were not touched. -/
theorem states_of_untouched (hfresh : m.tally.Untouched (zones bs)) (ih : ∀ b ∈ bs, b.Tells net m) :
    ∀ x ∈ bs.map fun b => b.state net m, x = .waiting := by
  intro x hx
  obtain ⟨b, hb, rfl⟩ := List.mem_map.mp hx
  exact (ih b hb).fresh ((untouched_branch hfresh hb).mono (zone_subset_ground b))

/-- A live branch is under way with its tokens in its tails, or elsewhere, or waits at its end. -/
theorem Tells.live {b : Piece α} (h : b.Tells net m) (hlive : b.Live m.tally) :
    (b.state net m).done = true ∨
      b.Busy m.tally ∧ ¬ b.Winding m.tally ∧ b.state net m = .active := by
  rcases hlive with ⟨hbusy, _⟩ | ⟨hdone, _⟩
  · by_cases hwinding : b.Winding m.tally
    · exact Or.inl (h.winding hbusy hwinding)
    · exact Or.inr ⟨hbusy, hwinding, h.active hbusy hwinding⟩
  · exact Or.inl (h.ended hdone)

/-! ### Parallel blocks -/

theorem Branched.state_parallel (h : Branched lim s bs) (net : Net α) (m : Marking α) :
    (Piece.parallel s bs).state net m = Status.settle net m (s.info .parallel)
      (if (bs.map fun b => b.state net m).all Activity.done then .completed
        else .activeIf (0 < (m.tally s.entry).1 ||
          (bs.map fun b => b.state net m).any Activity.started)) := by
  have hne : (bs.map fun b => b.state net m) ≠ [] := by simpa using h.nonempty
  rw [state, layout, Status.state_report, state_branches, Status.stateOf_parallel rfl hne]
  rfl

theorem Branched.done_state_parallel (h : Branched lim s bs)
    (hall : ∀ b ∈ bs, (b.state net m).done = true) :
    ((Piece.parallel s bs).state net m).done = true := by
  rw [h.state_parallel, if_pos (by simpa using hall)]
  exact Status.done_settle

theorem Branched.state_parallel_of_untouched (h : Branched lim s bs)
    (ih : ∀ b ∈ bs, b.Tells net m) (hfresh : m.tally.Untouched (zones bs)) :
    (Piece.parallel s bs).state net m = .activeIf (0 < (m.tally s.entry).1) := by
  obtain ⟨c, hc⟩ := List.exists_mem_of_ne_nil bs h.nonempty
  have hwaiting := states_of_untouched hfresh ih
  have hall : (bs.map fun b => b.state net m).all Activity.done = false := by
    refine List.all_eq_false.mpr ⟨_, List.mem_map_of_mem hc, ?_⟩
    rw [hwaiting _ (List.mem_map_of_mem hc)]
    exact Bool.false_ne_true
  have hany : (bs.map fun b => b.state net m).any Activity.started = false := by
    apply List.any_eq_false.mpr
    intro x hx
    rw [hwaiting x hx]
    exact Bool.false_ne_true
  rw [h.state_parallel, hall, hany, Bool.or_false]
  cases decide (0 < (m.tally s.entry).1) <;> rfl

/-- One active branch makes the whole block active. -/
theorem Branched.state_parallel_of_active {b : Piece α} (h : Branched lim s bs) (hb : b ∈ bs)
    (hactive : b.state net m = .active) : (Piece.parallel s bs).state net m = .active := by
  have hall : (bs.map fun b => b.state net m).all Activity.done = false := by
    refine List.all_eq_false.mpr ⟨_, List.mem_map_of_mem hb, ?_⟩
    rw [hactive]
    exact Bool.false_ne_true
  have hany : (bs.map fun b => b.state net m).any Activity.started = true := by
    refine List.any_eq_true.mpr ⟨_, List.mem_map_of_mem hb, ?_⟩
    rw [hactive]
    rfl
  rw [h.state_parallel, hall, hany, Bool.or_true]
  rfl

/-- If not all tokens wait for the join, some branch is reported as active. -/
theorem Branched.exists_active (h : Branched lim s bs) (ih : ∀ b ∈ bs, b.Tells net m)
    (hentry : m.tally s.entry = (0, 1)) (hlive : ∀ b ∈ bs, b.Live m.tally)
    (hwinding : ¬ (Piece.parallel s bs).Winding m.tally) : ∃ b ∈ bs, b.state net m = .active := by
  by_contra hnone
  refine hwinding (h.winding_of_branches (by rw [hentry]) ?_)
  intro b hb
  rcases hlive b hb with ⟨hbusy, _⟩ | ⟨hover, _⟩
  · by_contra hnot
    have hnot' : ¬ b.Winding m.tally := fun hwind => hnot (Or.inr (Or.inr hwind))
    exact hnone ⟨b, hb, (ih b hb).active hbusy hnot'⟩
  · exact Or.inr (Or.inl hover)

theorem Branched.tells_parallel (h : Branched lim s bs) (ih : ∀ b ∈ bs, b.Tells net m) :
    (Piece.parallel s bs).Tells net m := by
  constructor
  · intro hzone
    rw [h.state_parallel_of_untouched ih (hzone.mono (List.subset_cons_self _ _)),
      hzone _ List.mem_cons_self]
    rfl
  · intro hover
    exact h.done_state_parallel fun b hb => (ih b hb).ended ((done_parallel.mp hover).2 b hb).1
  · intro hbusy hwinding
    rcases busy_parallel.mp hbusy with ⟨hentry, _⟩ | ⟨_, hlive⟩
    · exact absurd (hwinding _ List.mem_cons_self (pos_of_eq hentry)) h.entry_notMem_tails
    · apply h.done_state_parallel
      intro b hb
      apply ((ih b hb).live (hlive b hb)).resolve_right
      rintro ⟨_, hnot, _⟩
      exact hnot (h.winding_branch hb hwinding)
  · intro hbusy hwinding
    rcases busy_parallel.mp hbusy with ⟨hentry, hzones⟩ | ⟨hentry, hlive⟩
    · rw [h.state_parallel_of_untouched ih hzones, hentry]
      rfl
    · obtain ⟨b, hb, hactive⟩ := h.exists_active ih hentry hlive hwinding
      exact h.state_parallel_of_active hb hactive

/-! ### Choices and draws by nature -/

theorem state_gateway (g : Gate α) (net : Net α) (m : Marking α) :
    (Piece.gateway s g bs).state net m = Status.settle net m (s.info g.kind)
      (Status.stateOf m (s.info g.kind) (layouts bs) (bs.map fun b => b.state net m)) := by
  rw [state, layout, Status.state_report, state_branches]

theorem state_gateway_of_untouched {g : Gate α} (ih : ∀ b ∈ bs, b.Tells net m)
    (hfresh : m.tally.Untouched (zones bs)) :
    (Piece.gateway s g bs).state net m = .activeIf (0 < (m.tally s.entry).1) := by
  rw [state_gateway, Status.stateOf_gateway (kind_gateway s g),
    Status.taken_of_waiting (states_of_untouched hfresh ih)]
  show Status.settle net m _ (.activeIf (0 < (m.tally s.entry).1)) = _
  cases decide (0 < (m.tally s.entry).1) <;> rfl

/-- The branch that was entered decides what is reported. -/
theorem state_gateway_of_alone {g : Gate α} {b : Piece α} (ih : ∀ b ∈ bs, b.Tells net m)
    (hb : b ∈ bs) (hothers : ∀ c ∈ bs, c ≠ b → m.tally.Untouched c.ground)
    (hstarted : (b.state net m).started = true) :
    (Piece.gateway s g bs).state net m = Status.settle net m (s.info g.kind)
      (if (b.state net m).done then .completed else .active) := by
  have hstates : ∀ x ∈ bs.map fun b => b.state net m, x = .waiting ∨ x = b.state net m := by
    intro x hx
    obtain ⟨c, hc, rfl⟩ := List.mem_map.mp hx
    by_cases hcb : c = b
    · exact Or.inr (by rw [hcb])
    · exact Or.inl ((ih c hc).fresh ((hothers c hc hcb).mono (zone_subset_ground c)))
  rw [state_gateway,
    Status.stateOf_of_alone (kind_gateway s g) hstates (List.mem_map_of_mem hb) hstarted]

theorem done_state_gateway {g : Gate α} {b : Piece α} (ih : ∀ b ∈ bs, b.Tells net m) (hb : b ∈ bs)
    (hothers : ∀ c ∈ bs, c ≠ b → m.tally.Untouched c.ground)
    (hdone : (b.state net m).done = true) :
    ((Piece.gateway s g bs).state net m).done = true := by
  rw [state_gateway_of_alone ih hb hothers (Status.started_of_done hdone), if_pos hdone]
  exact Status.done_settle

theorem Branched.tells_gateway {g : Gate α} (h : Branched lim s bs)
    (ih : ∀ b ∈ bs, b.Tells net m) : (Piece.gateway s g bs).Tells net m := by
  constructor
  · intro hzone
    rw [state_gateway_of_untouched ih (hzone.mono (List.subset_cons_self _ _)),
      hzone _ List.mem_cons_self]
    rfl
  · intro hover
    obtain ⟨_, b, hb, ⟨hover, _⟩, hothers⟩ := h.done_gateway.mp hover
    exact done_state_gateway ih hb hothers ((ih b hb).ended hover)
  · intro hbusy hwinding
    have htails : ∀ p ∈ s.entry :: zones bs, 0 < (m.tally p).1 →
        p ∈ Layout.tailsAll (layouts bs) := fun p hp hmarked => by
      rw [← tails_gateway (s := s) (g := g)]
      exact hwinding p hp hmarked
    rcases h.busy_gateway.mp hbusy with ⟨hentry, _⟩ | ⟨_, b, hb, hlive, hothers⟩
    · exact absurd (htails _ List.mem_cons_self (pos_of_eq hentry)) h.entry_notMem_tails
    · refine done_state_gateway ih hb hothers (((ih b hb).live hlive).resolve_right ?_)
      rintro ⟨_, hnot, _⟩
      exact hnot (h.winding_branch hb htails)
  · intro hbusy hwinding
    rcases h.busy_gateway.mp hbusy with ⟨hentry, hzones⟩ | ⟨hentry, b, hb, hlive, hothers⟩
    · rw [state_gateway_of_untouched ih hzones, hentry]
      rfl
    · have hnot : ¬ (b.Done m.tally ∨ b.Winding m.tally) := fun hb' =>
        hwinding (h.winding_gateway hentry hothers hb')
      have hbusy' : b.Busy m.tally := by
        rcases hlive with ⟨hbusy, _⟩ | ⟨hover, _⟩
        · exact hbusy
        · exact absurd (Or.inl hover) hnot
      have hactive := (ih b hb).active hbusy' fun hwind => hnot (Or.inr hwind)
      rw [state_gateway_of_alone ih hb hothers (by rw [hactive]; rfl), hactive]
      rfl

/-! ### Loops -/

theorem state_loop (net : Net α) (m : Marking α) {x : α} {n : Nat} :
    (Piece.loop s P x n).state net m =
    Status.settle net m (s.info .loop)
      (if (P.state net m).done ∧ (m.tally P.exit).1 = 0 then .completed
        else .activeIf ((P.state net m).started || 0 < (m.tally s.entry).1 ||
          0 < (m.tally P.exit).1)) := by
  rw [state, layout, Status.state_report, List.map_cons, List.map_nil, Status.stateOf_loop rfl,
    info_layout_exit]
  rfl

theorem Placed.tells_loop {x : α} {n : Nat} (hP : Placed lim (.loop s P x n))
    (ih : P.Tells net m) : (Piece.loop s P x n).Tells net m := by
  have hstate := state_loop (P := P) (s := s) (x := x) (n := n) net m
  have hexitground := exit_mem_ground P
  have hdone : (P.state net m).done = true → (m.tally P.exit).1 = 0 →
      ((Piece.loop s P x n).state net m).done = true := by
    intro hdone hexit
    rw [hstate, if_pos ⟨hdone, hexit⟩]
    exact Status.done_settle
  have hout : ∀ {p}, p ∉ P.zone → p ∉ (Piece.loop s P x n).layout.tails := fun hp htails =>
    hp (tails_subset_zone P htails)
  have hentryout : s.entry ∉ P.zone := fun hp => hP.entry_notMem_body (zone_subset_ground _ hp)
  have hexitzone : P.exit ∈ (Piece.loop s P x n).zone := List.mem_cons_of_mem _ hexitground
  have hfresh : m.tally.Untouched P.ground → (Piece.loop s P x n).state net m =
      .activeIf (0 < (m.tally s.entry).1) := by
    intro hfresh
    rw [hstate, ih.fresh (hfresh.mono (zone_subset_ground P)), hfresh _ hexitground]
    show Status.settle net m _ (.activeIf (false || decide (0 < (m.tally s.entry).1) || false)) = _
    cases decide (0 < (m.tally s.entry).1) <;> rfl
  constructor
  · intro hzone
    rw [hfresh (hzone.mono (List.subset_cons_self _ _)), hzone _ List.mem_cons_self]
    rfl
  · intro hover
    obtain ⟨_, hover, v, _, hexit⟩ := hover
    exact hdone (ih.ended hover) (by rw [hexit])
  · intro hbusy hwinding
    rcases hbusy with ⟨hentry, _⟩ | ⟨_, v, _, ⟨hbusy, hexit⟩ | ⟨_, hexit⟩⟩
    · exact absurd (hwinding _ List.mem_cons_self (pos_of_eq hentry)) (hout hentryout)
    · refine hdone (ih.winding hbusy fun p hp hmarked => ?_) (by rw [hexit])
      exact hwinding p (List.mem_cons_of_mem _ (zone_subset_ground _ hp)) hmarked
    · exact absurd (hwinding _ hexitzone (pos_of_eq hexit)) (hout hP.body.exit_notMem_zone)
  · intro hbusy hwinding
    rcases hbusy with ⟨hentry, hzones⟩ | ⟨hentry, v, _, ⟨hbusy, hexit⟩ | ⟨_, hexit⟩⟩
    · rw [hfresh hzones, hentry]
      rfl
    · have hactive := ih.active hbusy fun hwind => hwinding fun p hp hmarked => by
        rcases List.mem_cons.mp hp with rfl | hp
        · exact absurd hmarked (not_pos_of_eq hentry)
        rcases mem_ground.mp hp with hp | rfl
        · exact hwind p hp hmarked
        · exact absurd hmarked (not_pos_of_eq hexit)
      rw [hstate, hactive]
      simp [Activity.done, Activity.started, Activity.activeIf]
    -- the loop has to be decided
    · rw [hstate, hexit]
      simp [Activity.activeIf]

/-- What is reported of a piece that was not touched, is over, or is under way. -/
theorem Placed.tells (hP : Placed lim P) : P.Tells net m := by
  induction P using Piece.ind with
  | task s v => exact tells_task
  | sequential s P Q ihP ihQ => exact hP.tells_sequential (ihP hP.fst) (ihQ hP.snd)
  | parallel s bs ih =>
      exact hP.parallel.tells_parallel fun b hb => ih b hb (hP.parallel.branch hb)
  | gateway s g bs ih =>
      exact hP.gateway.tells_gateway fun b hb => ih b hb (hP.gateway.branch hb)
  | loop s body x n ih => exact hP.tells_loop (ih hP.body)

end Piece

end RegionNet
