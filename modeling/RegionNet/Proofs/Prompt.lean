import RegionNet.Proofs.Delay
import RegionNet.Proofs.Journey

/-!
# Promptness

The clock is put forward only while nothing is due, and never beyond the moment at which something
becomes due. So a transition that has its tokens is never overdue: at least one of them has not
rested for longer than it had to (`Prompt.late`), whatever happens elsewhere in the process.

When each token came can therefore be told from the firings alone, without any clock. A transition
puts tokens when the last of those that it takes is ready, and these times are the stamps of the
places (`Stamps.fire`). A journey takes no longer than the stamp of its last token says
(`Consists.le_stamp`); and where all times are whole numbers, so that the slack with which they are
compared makes no difference, it takes exactly as long (`Consists.eq_stamp`).
-/

namespace RegionNet

/-! ## Waiting -/

namespace Net

variable {net : Net Rat} {m : Marking Rat} {t : Transition Rat} {p : PlaceId} {dt : Rat}

/-- A transition waits as long as some of its tokens has to, or not at all. -/
theorem exists_wait {α : Type} [Quantity α] (net : Net α) (m : Marking α) (ps : List PlaceId) :
    ∀ x : α,
      let wait := ps.foldl (fun wait p =>
        match net.place? p with
        | some place => Quantity.larger wait (place.duration - (m.state p).age)
        | none => wait) x
      wait = x ∨ ∃ p ∈ ps, ∃ place, net.place? p = some place ∧
        wait = place.duration - (m.state p).age := by
  induction ps with
  | nil => exact fun _ => Or.inl rfl
  | cons p ps ih =>
      intro x
      dsimp only
      rw [List.foldl_cons]
      cases hplace : net.place? p with
      | none => exact (ih x).imp_right fun ⟨q, hq, hwait⟩ => ⟨q, List.mem_cons_of_mem _ hq, hwait⟩
      | some place =>
          rcases ih (Quantity.larger x (place.duration - (m.state p).age)) with
            hwait | ⟨q, hq, hwait⟩
          · dsimp only
            rw [hwait, Quantity.larger]
            split
            · exact Or.inr ⟨p, List.mem_cons_self, place, hplace, rfl⟩
            · exact Or.inl rfl
          · exact Or.inr ⟨q, List.mem_cons_of_mem _ hq, hwait⟩

theorem exists_remainingWait (h : 0 < net.remainingWait t m) :
    ∃ p ∈ t.inputs, net.remainingWait t m = net.delay p - (m.state p).age := by
  rcases net.exists_wait m t.inputs 0 with hzero | ⟨p, hp, place, hplace, hwait⟩
  · exact absurd hzero h.ne'
  · exact ⟨p, hp, by rw [delay_of_place hplace]; exact hwait⟩

/-- A transition that has its tokens and is not due has to wait. -/
theorem remainingWait_pos (htokens : net.tokenEnabled t m = true)
    (hnot : net.enabled t m = false) : 0 < net.remainingWait t m := by
  by_contra hwait
  have hrested : t.inputs.all (net.rested m) = true :=
    rested_of_wait (not_lt.mp hwait) fun p _ => (add_zero _).symm
  rw [enabled, htokens, hrested] at hnot
  cases hnot

end Net

namespace Timing

variable {net : Net Rat} {m : Marking Rat} {t : Transition Rat} {dt : Rat} {step : Option Rat}

theorem smaller_foldl_le (xs : List Rat) : ∀ x y : Rat, y ∈ x :: xs →
    xs.foldl Quantity.smaller x ≤ y := by
  have hsmaller : ∀ x y : Rat, Quantity.smaller x y ≤ x ∧ Quantity.smaller x y ≤ y := by
    intro x y
    unfold Quantity.smaller
    split
    · next hlt => exact ⟨hlt.le, le_refl _⟩
    · next hlt => exact ⟨le_refl _, not_lt.mp hlt⟩
  induction xs with
  | nil =>
      intro x y hy
      rw [List.mem_singleton.mp hy]
      rfl
  | cons z zs ih =>
      intro x y hy
      rw [List.foldl_cons]
      have hfirst := ih (Quantity.smaller x z) _ List.mem_cons_self
      rcases List.mem_cons.mp hy with rfl | hy
      · exact hfirst.trans (hsmaller _ _).1
      rcases List.mem_cons.mp hy with rfl | hy
      · exact hfirst.trans (hsmaller _ _).2
      · exact ih _ _ (List.mem_cons_of_mem _ hy)

/-- The next wait is the shortest one that some transition has left. -/
theorem nextWait_eq_some (h : (duration step).nextWait net m = some dt) :
    (∃ t ∈ net.transitions, net.tokenEnabled t m = true ∧ 0 < net.remainingWait t m ∧
      net.remainingWait t m = dt) ∧
      ∀ t ∈ net.transitions, net.tokenEnabled t m = true → 0 < net.remainingWait t m →
        dt ≤ net.remainingWait t m := by
  rw [nextWait_duration] at h
  cases hwaits : net.waits m with
  | nil =>
      rw [hwaits] at h
      cases h
  | cons wait rest =>
      rw [hwaits] at h
      obtain rfl := Option.some.inj h
      refine ⟨?_, fun t ht htokens hpos => ?_⟩
      · exact Net.mem_waits.mp (hwaits ▸ Quantity.smaller_foldl_mem rest wait)
      · exact smaller_foldl_le rest wait _
          (hwaits ▸ Net.mem_waits.mpr ⟨t, ht, htokens, hpos, rfl⟩)

end Timing

/-! ## Prompt markings -/

/-- A marking in which nothing is overdue. -/
structure Prompt (w : Workflow Rat) (P : Piece Rat) (m : Marking Rat) : Prop where
  ordered : m.Ordered
  live : P.Live m.tally
  idle : ∀ p, m.tokens p = 0 → (m.state p).age = 0
  late : ∀ t ∈ w.net.transitions, w.net.tokenEnabled t m = true →
    ∃ p ∈ t.inputs, (m.state p).age ≤ w.net.delay p
  ended : 0 < m.tokens P.exit → (m.state P.exit).age = 0

namespace Prompt

variable {w : Workflow Rat} {P : Piece Rat} {m m' : Marking Rat} {t : Transition Rat}
  {p : PlaceId} {d dt : Rat} {ts : List (Transition Rat)} {step : Option Rat}

/-- Where a token can be taken, none has come to the end. -/
theorem tokens_exit (hm : Prompt w P m) (h : w.Consists P) (ht : t ∈ w.net.transitions)
    (he : w.net.tokenEnabled t m = true) : m.tokens P.exit = 0 := by
  have ha := (h.enabled_iff ht).mp he
  rw [h.transitions] at ht
  rcases hm.live with ⟨-, hexit⟩ | ⟨hdone, -⟩
  · exact congrArg Prod.fst hexit
  · exact absurd ha (h.placed.not_admits_of_done hdone ht)

/-- After a transition has fired, a place is new or as it was before. -/
theorem aged (hm : Prompt w P m) (h : w.Consists P) (ht : t ∈ w.net.transitions)
    (he : w.net.tokenEnabled t m = true) (hp : p ∈ P.ground) :
    ((m.fire t).state p).age = 0 ∨ p ∉ t.inputs ∧ 0 < m.tokens p ∧
      (m.fire t).tally p = m.tally p ∧ ((m.fire t).state p).age = (m.state p).age := by
  obtain ⟨hpre, hpost⟩ := h.plain t ht
  have ha := (h.enabled_iff ht).mp he
  have hage := Marking.age_fire hm.ordered hpre hpost p
  by_cases hin : p ∈ t.inputs
  · exact Or.inl (hage.trans (if_pos hin))
  rw [if_neg hin] at hage
  rcases Nat.eq_zero_or_pos (m.tokens p) with hzero | hmarked
  · exact Or.inl (hage.trans (hm.idle p hzero))
  have hzone : p ∈ P.zone := (Piece.mem_ground.mp hp).resolve_right fun hexit => by
    rw [hexit, hm.tokens_exit h ht he] at hmarked
    exact Nat.lt_irrefl 0 hmarked
  rw [Marking.tally_fire hm.ordered hpre hpost]
  rw [h.transitions] at ht
  exact Or.inr ⟨hin, hmarked, h.placed.undisturbed (h.placed.busy_of_admits hm.live ht ha) ht ha
    hzone hmarked hin, hage⟩

/-- A token is new, or it was there before and has its age. -/
theorem marked_fire (hm : Prompt w P m) (h : w.Consists P) (ht : t ∈ w.net.transitions)
    (he : w.net.tokenEnabled t m = true) (hp : 0 < (m.fire t).tokens p) :
    p ∈ t.outputs ∧ ((m.fire t).state p).age = 0 ∨
      p ∉ t.outputs ∧ 0 < m.tokens p ∧ ((m.fire t).state p).age = (m.state p).age := by
  obtain ⟨hpre, hpost⟩ := h.plain t ht
  have ha := (h.enabled_iff ht).mp he
  have htokens : (m.fire t).tokens p =
      m.tokens p - t.inputs.count p + t.outputs.count p :=
    congrArg Prod.fst (congrFun (Marking.tally_fire hm.ordered hpre hpost) p)
  rw [h.transitions] at ht
  by_cases hout : p ∈ t.outputs
  · refine Or.inl ⟨hout, ?_⟩
    rcases hm.aged h (h.transitions ▸ ht) he ((h.placed.within ht).outputs hout) with
      hage | ⟨hin, -, hsame, -⟩
    · exact hage
    · have hcount := List.count_pos_iff.mpr hout
      have hsame' : (m.fire t).tokens p = m.tokens p := congrArg Prod.fst hsame
      rw [List.count_eq_zero_of_not_mem hin] at htokens
      omega
  · rw [List.count_eq_zero_of_not_mem hout] at htokens
    by_cases hin : p ∈ t.inputs
    · have hone : m.tokens p = 1 :=
        (h.placed.event (h.placed.busy_of_admits hm.live ht ha) ht ha).input hin
      have hcount := List.count_pos_iff.mpr hin
      omega
    · rw [List.count_eq_zero_of_not_mem hin] at htokens
      exact Or.inr ⟨hout, by omega,
        (Marking.age_fire hm.ordered hpre hpost p).trans (if_neg hin)⟩

theorem fire (hm : Prompt w P m) (h : w.Consists P) (hdelay : ∀ p ∈ P.zone, 0 ≤ w.net.delay p)
    (ht : t ∈ w.net.transitions) (he : w.net.tokenEnabled t m = true) :
    Prompt w P (m.fire t) := by
  obtain ⟨hpre, hpost⟩ := h.plain t ht
  have ha := (h.enabled_iff ht).mp he
  have htally := Marking.tally_fire hm.ordered hpre hpost
  refine ⟨hm.ordered.fire hpre hpost, ?_, ?_, ?_, ?_⟩
  · rw [htally]
    exact h.placed.step_live hm.live (h.transitions ▸ ht) ha
  · intro p hzero
    rw [Marking.age_fire hm.ordered hpre hpost]
    split
    · rfl
    · next hin =>
        have htokens : m.tokens p - t.inputs.count p + t.outputs.count p = 0 :=
          (congrArg Prod.fst (congrFun htally p)).symm.trans hzero
        rw [List.count_eq_zero_of_not_mem hin] at htokens
        exact hm.idle p (by omega)
  · intro u hu heu
    have hwithin := h.placed.within (h.transitions ▸ hu)
    by_cases hnew : ∃ p ∈ u.inputs, ((m.fire t).state p).age = 0
    · obtain ⟨p, hp, hage⟩ := hnew
      exact ⟨p, hp, hage ▸ hdelay p (hwithin.inputs hp)⟩
    -- a transition without new tokens had them all before
    · have hold : ∀ p ∈ u.inputs, (m.fire t).tally p = m.tally p ∧
          ((m.fire t).state p).age = (m.state p).age := fun p hp =>
        ((hm.aged h ht he (Piece.zone_subset_ground _ (hwithin.inputs hp))).resolve_left
          fun hage => hnew ⟨p, hp, hage⟩).2.2
      have hau := ((h.enabled_iff hu).mp heu).congr fun p hp => (hold p hp).1.symm
      obtain ⟨p, hp, hage⟩ := hm.late u hu ((h.enabled_iff hu).mpr hau)
      exact ⟨p, hp, (hold p hp).2 ▸ hage⟩
  · intro hexit
    rcases hm.aged h ht he (Piece.exit_mem_ground P) with hage | ⟨-, hmarked, -⟩
    · exact hage
    · exact absurd (hm.tokens_exit h ht he) hmarked.ne'

theorem wait (hm : Prompt w P m) (h : w.Consists P)
    (hidle : (Timing.duration step).due w.net m = [])
    (hwait : (Timing.duration step).nextWait w.net m = some dt) : Prompt w P (m.addTime dt) := by
  have htally := Marking.tally_addTime hm.ordered dt
  obtain ⟨⟨v, hv, hev, -⟩, hleast⟩ := Timing.nextWait_eq_some hwait
  refine ⟨hm.ordered.addTime dt, htally ▸ hm.live, ?_, ?_, ?_⟩
  · intro p hzero
    rw [Marking.tokens_addTime hm.ordered] at hzero
    rw [Marking.state_addTime hm.ordered, if_neg (by omega)]
    exact hm.idle p hzero
  · intro u hu heu
    rw [Net.tokenEnabled_congr (h.plain u hu).1 htally] at heu
    have hnot : w.net.enabled u m = false := by
      by_contra hdue
      have hmem : u ∈ (Timing.duration step).due w.net m :=
        Timing.mem_due.mpr ⟨hu, (Bool.not_eq_false _).mp hdue⟩
      rw [hidle] at hmem
      cases hmem
    -- nothing waits for less time than is left for the transition
    have hpos := Net.remainingWait_pos heu hnot
    obtain ⟨p, hp, hrest⟩ := Net.exists_remainingWait hpos
    have hle := hleast u hu heu hpos
    refine ⟨p, hp, ?_⟩
    rw [Marking.age_addTime hm.ordered dt (((h.enabled_iff hu).mp heu).1 p hp)]
    linarith
  · intro hexit
    rw [Marking.tokens_addTime hm.ordered, hm.tokens_exit h hv hev] at hexit
    exact absurd hexit (Nat.lt_irrefl 0)

theorem journey (hm : Prompt w P m) (h : w.Consists P) (hdelay : ∀ p ∈ P.zone, 0 ≤ w.net.delay p)
    (hjourney : (Timing.duration step).Journey w.net m ts d m') : Prompt w P m' := by
  induction hjourney with
  | nil => exact hm
  | fire ht he _ ih => exact ih (hm.fire h hdelay ht (Timing.tokenEnabled_of_enabled he))
  | wait hidle hwait _ ih => exact ih (hm.wait h hidle hwait)

end Prompt

/-! ## Stamps -/

/-- For each place a time: when the last token came there. -/
abbrev Stamps := PlaceId → Rat

namespace Stamps

variable {c : Stamps} {delay : PlaceId → Rat} {ps : List PlaceId} {p : PlaceId} {T : Rat}

/-- When the last one of the tokens on some places is ready to be taken. -/
def ready (delay : PlaceId → Rat) (c : Stamps) (ps : List PlaceId) : Rat :=
  (ps.map fun p => c p + delay p).foldr max 0

/-- A transition that is fired when all its tokens are ready puts new ones. -/
def fire (delay : PlaceId → Rat) (c : Stamps) (t : Transition Rat) : Stamps := fun p =>
  if p ∈ t.outputs then ready delay c t.inputs else c p

theorem ready_nonneg : 0 ≤ ready delay c ps := by
  unfold ready
  induction ps with
  | nil => exact le_refl _
  | cons p ps ih => exact ih.trans (le_max_right _ _)

theorem le_ready (hp : p ∈ ps) : c p + delay p ≤ ready delay c ps := by
  unfold ready
  induction ps with
  | nil => cases hp
  | cons q ps ih =>
      rcases List.mem_cons.mp hp with rfl | hp
      · exact le_max_left _ _
      · exact (ih hp).trans (le_max_right _ _)

theorem ready_le (hT : 0 ≤ T) (h : ∀ p ∈ ps, c p + delay p ≤ T) : ready delay c ps ≤ T := by
  unfold ready
  induction ps with
  | nil => exact hT
  | cons p ps ih =>
      obtain ⟨hp, hps⟩ := List.forall_mem_cons.mp h
      exact max_le hp (ih hps)

end Stamps

namespace Workflow.Consists

variable {w : Workflow Rat} {P : Piece Rat} {m m' : Marking Rat} {ts : List (Transition Rat)}
  {t : Transition Rat} {p : PlaceId} {T d : Rat} {c : Stamps} {step : Option Rat}
  {A : Type} [SetLike A Rat] {S : A}

theorem late_stamp (h : w.Consists P) (hdelay : ∀ p ∈ P.zone, 0 ≤ w.net.delay p)
    (hm : Prompt w P m) (hjourney : (Timing.duration step).Journey w.net m ts d m')
    (hc : ∀ p, 0 < m.tokens p → T ≤ c p + (m.state p).age) :
    ∀ p, 0 < m'.tokens p → T + d ≤ ts.foldl (Stamps.fire w.net.delay) c p + (m'.state p).age := by
  induction hjourney generalizing T c with
  | nil => simpa using hc
  | @fire m m' t ts d ht he _ ih =>
      have he' := Timing.tokenEnabled_of_enabled he
      refine ih (hm.fire h hdelay ht he') fun p hp => ?_
      rcases hm.marked_fire h ht he' hp with ⟨hout, hage⟩ | ⟨hout, hmarked, hage⟩
      -- one of the tokens that were taken was not there for too long
      · obtain ⟨q, hq, hlate⟩ := hm.late t ht he'
        have hq' := hc q (((h.enabled_iff ht).mp he').1 q hq)
        have hready : c q + w.net.delay q ≤ Stamps.ready w.net.delay c t.inputs :=
          Stamps.le_ready hq
        rw [Stamps.fire, if_pos hout, hage]
        linarith
      · rw [Stamps.fire, if_neg hout, hage]
        exact hc p hmarked
  | @wait m m' ts d dt hidle hwait _ ih =>
      intro p hp
      have hle := ih (T := T + dt) (c := c) (hm.wait h hidle hwait) (fun q hq => by
        rw [Marking.tokens_addTime hm.ordered] at hq
        rw [Marking.age_addTime hm.ordered dt hq]
        have := hc q hq
        linarith) p hp
      linarith

/-- What is due has rested for long enough, if all times are whole. -/
theorem delay_le_age (h : w.Consists P) (hwhole : ∀ p ∈ P.zone, w.net.delay p ∈ whole)
    (hages : ∀ p, (m.state p).age ∈ whole) (ht : t ∈ w.net.transitions)
    (he : (Timing.duration step).enabled w.net t m = true) (hp : p ∈ t.inputs) :
    w.net.delay p ≤ (m.state p).age := by
  have hrested : t.inputs.all (w.net.rested m) = true := (Bool.and_eq_true _ _ ▸ he : _ ∧ _).2
  have hzone := (h.placed.within (h.transitions ▸ ht)).inputs hp
  obtain ⟨place, hplace⟩ := h.exists_place (Piece.zone_subset_ground _ hzone)
  have hdue := List.all_eq_true.mp hrested p hp
  unfold Net.rested at hdue
  rw [hplace, decide_eq_true_eq, ← Net.delay_of_place hplace] at hdue
  exact le_of_le_add_slack (hwhole p hzone) (hages p) hdue

theorem age_fire_mem [ZeroMemClass A Rat] (h : w.Consists P) (hm : m.Ordered)
    (hages : ∀ p, (m.state p).age ∈ S) (ht : t ∈ w.net.transitions) (p : PlaceId) :
    ((m.fire t).state p).age ∈ S := by
  rw [Marking.age_fire hm (h.plain t ht).1 (h.plain t ht).2]
  split
  · exact zero_mem S
  · exact hages p

/-- The next wait is a whole number if all delays and ages are. -/
theorem nextWait_mem {dt : Rat} (h : w.Consists P) (hwhole : ∀ p ∈ P.zone, w.net.delay p ∈ whole)
    (hages : ∀ p, (m.state p).age ∈ whole)
    (hwait : (Timing.duration step).nextWait w.net m = some dt) : dt ∈ whole := by
  obtain ⟨⟨t, ht, -, hpos, rfl⟩, -⟩ := Timing.nextWait_eq_some hwait
  obtain ⟨p, hp, hrest⟩ := Net.exists_remainingWait hpos
  rw [hrest]
  exact whole.sub_mem (hwhole p ((h.placed.within (h.transitions ▸ ht)).inputs hp)) (hages p)

theorem age_addTime_mem [AddMemClass A Rat] {dt : Rat} (hm : m.Ordered)
    (hages : ∀ p, (m.state p).age ∈ S) (hdt : dt ∈ S) (p : PlaceId) :
    ((m.addTime dt).state p).age ∈ S := by
  rw [Marking.state_addTime hm]
  split
  · exact add_mem (hages p) hdt
  · exact hages p

theorem early_stamp (h : w.Consists P) (hdelay : ∀ p ∈ P.zone, 0 ≤ w.net.delay p)
    (hwhole : ∀ p ∈ P.zone, w.net.delay p ∈ whole) (hm : Prompt w P m)
    (hages : ∀ p, (m.state p).age ∈ whole)
    (hjourney : (Timing.duration step).Journey w.net m ts d m') (hT : 0 ≤ T)
    (hc : ∀ p, 0 < m.tokens p → c p + (m.state p).age ≤ T) :
    ∀ p, 0 < m'.tokens p → ts.foldl (Stamps.fire w.net.delay) c p + (m'.state p).age ≤ T + d := by
  induction hjourney generalizing T c with
  | nil => simpa using hc
  | @fire m m' t ts d ht he _ ih =>
      have he' := Timing.tokenEnabled_of_enabled he
      refine ih (hm.fire h hdelay ht he') (h.age_fire_mem hm.ordered hages ht) hT fun p hp => ?_
      rcases hm.marked_fire h ht he' hp with ⟨hout, hage⟩ | ⟨hout, hmarked, hage⟩
      · rw [Stamps.fire, if_pos hout, hage, add_zero]
        refine Stamps.ready_le hT fun q hq => ?_
        have hq' := hc q (((h.enabled_iff ht).mp he').1 q hq)
        have hdue := h.delay_le_age hwhole hages ht he hq
        linarith
      · rw [Stamps.fire, if_neg hout, hage]
        exact hc p hmarked
  | @wait m m' ts d dt hidle hwait _ ih =>
      intro p hp
      obtain ⟨⟨v, -, -, hpos, hdt⟩, -⟩ := Timing.nextWait_eq_some hwait
      have hages' := age_addTime_mem hm.ordered hages (h.nextWait_mem hwhole hages hwait)
      have hle := ih (T := T + dt) (c := c) (hm.wait h hidle hwait) hages' (by linarith)
        (fun q hq => by
          rw [Marking.tokens_addTime hm.ordered] at hq
          rw [Marking.age_addTime hm.ordered dt hq]
          have := hc q hq
          linarith) p hp
      linarith

/-! ## Whole runs -/

theorem age_initial {α : Type} [Quantity α] {w : Workflow α} {P : Piece α} (h : w.Consists P)
    (p : PlaceId) : (w.initial.state p).age = 0 := by
  have hmodify : w.initial =
      (Marking.empty w.net).modify P.entry fun s => { s with tokens := 1 } := h.initial
  rw [hmodify, Marking.state_modify (Marking.Ordered.empty h.ordered), Marking.state_empty,
    Marking.state_empty]
  split <;> rfl

theorem prompt_initial (h : w.Consists P) (hdelay : ∀ p ∈ P.zone, 0 ≤ w.net.delay p) :
    Prompt w P w.initial := by
  refine ⟨h.ordered_initial, h.alive_initial.1, fun p _ => h.age_initial p, ?_,
    fun _ => h.age_initial _⟩
  intro t ht he
  have hwithin := h.placed.within (h.transitions ▸ ht)
  obtain ⟨p, hp⟩ := List.exists_mem_of_ne_nil _ hwithin.takes
  exact ⟨p, hp, h.age_initial p ▸ hdelay p (hwithin.inputs hp)⟩

/-- A run takes no longer than until the last token of the process can come to its end. -/
theorem le_stamp (h : w.Consists P) (hdelay : ∀ p ∈ P.zone, 0 ≤ w.net.delay p)
    (hjourney : (Timing.duration step).Journey w.net w.initial ts d m)
    (hexit : 0 < m.tokens P.exit) : d ≤ ts.foldl (Stamps.fire w.net.delay) 0 P.exit := by
  have hm := h.prompt_initial hdelay
  have hle := h.late_stamp hdelay hm hjourney (T := 0) (c := 0)
    (fun p _ => by rw [h.age_initial]; exact le_of_eq (add_zero 0).symm) _ hexit
  rwa [(hm.journey h hdelay hjourney).ended hexit, zero_add, add_zero] at hle

/-- Where all times are whole, a run takes until the last token of the process comes to its end. -/
theorem eq_stamp (h : w.Consists P) (hdelay : ∀ p ∈ P.zone, 0 ≤ w.net.delay p)
    (hwhole : ∀ p ∈ P.zone, w.net.delay p ∈ whole)
    (hjourney : (Timing.duration step).Journey w.net w.initial ts d m)
    (hexit : 0 < m.tokens P.exit) : d = ts.foldl (Stamps.fire w.net.delay) 0 P.exit := by
  have hm := h.prompt_initial hdelay
  have hages : ∀ p, (w.initial.state p).age ∈ whole := fun p =>
    h.age_initial p ▸ whole.zero_mem
  have hle := h.early_stamp hdelay hwhole hm hages hjourney (le_refl 0) (c := 0)
    (fun p _ => by rw [h.age_initial]; exact le_of_eq (add_zero 0)) _ hexit
  rw [(hm.journey h hdelay hjourney).ended hexit, zero_add, add_zero] at hle
  exact le_antisymm (h.le_stamp hdelay hjourney hexit) hle

end Workflow.Consists

end RegionNet
