import RegionNet.Proofs.Charges
import RegionNet.Proofs.Relocation
import RegionNet.Proofs.WellFormed

/-!
# Regions in context

While a process is compiled its regions are assembled one by one, each behind an entry that is there
(`Builder.calls`). The calls make the regions of the layout (`Builder.results_calls`) out of the
regions of the description (`Builder.makes_calls`), both in document order. Wherever a call is, its
region becomes the net that it is compiled to alone, in another place
(`Workflow.relocated_of_validate`).
-/

namespace RegionNet

variable {α : Type} [Quantity α]

/-- The regions below sound regions are sound. -/
theorem Region.sound_preorder {n : Nat} {r : Region α} (h : ∀ c ∈ r.preorder, c.Sound n) :
    r.Sound n ∧ ∀ d ∈ r.branches, ∀ c ∈ d.preorder, c.Sound n := by
  rw [preorder_eq] at h
  obtain ⟨hr, hbelow⟩ := List.forall_mem_cons.mp h
  exact ⟨hr, fun d hd c hc => hbelow c (mem_preorders.mpr ⟨d, hd, hc⟩)⟩

namespace Builder

/-- A block that is assembled behind an entry of a net under construction. -/
structure Call (α : Type) where
  builder : Builder α
  entry : PlaceId
  block : Block α

def Call.built (c : Call α) : Built α Layout := c.builder.assemble c.entry c.block

mutual

/-- The calls that assembling a block amounts to, its own first. -/
def calls (b : Builder α) (entry : PlaceId) : Block α → List (Call α)
  | .task h impacts => [⟨b, entry, .task h impacts⟩]
  | .sequential h first second =>
    let entered := b.enter entry .sequential h
    let one := entered.assemble entry first
    ⟨b, entry, .sequential h first second⟩ ::
      (entered.calls entry first ++ one.builder.calls one.result.info.exit second)
  | .parallel h branches =>
    let label := b.labelFor .parallel h
    let entered := b.enter entry .parallel h
    let starts := (List.range branches.length).map fun i => PlaceId.mk (b.next + i)
    let forked := (entered.addPlaces branches.length).connect .parallel h
      { role := .fork, label := "Fork " ++ label, probability := 1,
        inputs := [entry], outputs := starts }
    ⟨b, entry, .parallel h branches⟩ :: forked.callsAll b.next branches
  | .choice h branches distribution =>
    let entered := b.enter entry .choice h
    ⟨b, entry, .choice h branches distribution⟩ ::
      entered.addPlace.callsBranches .choice h (b.labelFor .choice h) entry entered.newPlace
        (fun i => ((distribution.getD [])[i]?).getD 1) 0 branches
  | .nature h branches distribution =>
    let entered := b.enter entry .nature h
    ⟨b, entry, .nature h branches distribution⟩ ::
      entered.addPlace.callsBranches .nature h (b.labelFor .nature h) entry entered.newPlace
        (fun i => (distribution[i]?).getD 0) 0 branches
  | .loop h body probability bound =>
    let entered := b.enter entry .loop h
    let start := entered.newPlace
    let opened := entered.addPlace.connect .loop h
      { role := .loopEntry, label := "Entry " ++ b.labelFor .loop h, probability := 1,
        inputs := [entry], outputs := [start] }
    ⟨b, entry, .loop h body probability bound⟩ :: opened.calls start body

/-- The calls for blocks at entry places with consecutive numbers. -/
def callsAll (b : Builder α) (start : Nat) : List (Block α) → List (Call α)
  | [] => []
  | blk :: blks =>
    b.calls ⟨start⟩ blk ++ (b.assemble ⟨start⟩ blk).builder.callsAll (start + 1) blks

/-- The calls for alternative branches, the first of them being branch number `i`. -/
def callsBranches (b : Builder α) (kind : Kind) (h : Head α) (label : String)
    (entry exit : PlaceId) (probability : Nat → α) (i : Nat) : List (Block α) → List (Call α)
  | [] => []
  | blk :: blks =>
    let start := b.newPlace
    let opened := b.addPlace.connect kind h
      { role := .branchEntry, label := branchLabel blk.head, probability := probability i,
        stop := true, branch := some i, inputs := [entry], outputs := [start] }
    let one := opened.assemble start blk
    let merged := one.builder.connect kind h
      { role := .branchExit, label := "Merge " ++ label, probability := 1, branch := some i,
        inputs := [one.result.info.exit], outputs := [exit] }
    opened.calls start blk ++
      merged.callsBranches kind h label entry exit probability (i + 1) blks

end

variable {b : Builder α} {entry : PlaceId} {c : Call α}

/-! ## Every region comes from a call -/

theorem results_callsAll {blks : List (Block α)}
    (ih : ∀ blk ∈ blks, ∀ (b : Builder α) (entry : PlaceId),
      (b.calls entry blk).map (fun c => c.built.result) = (b.assemble entry blk).result.subtrees) :
    ∀ (b : Builder α) (start : Nat), (b.callsAll start blks).map (fun c => c.built.result) =
      Layout.subtreesAll (b.assembleAll start blks).result := by
  induction blks with
  | nil => exact fun _ _ => rfl
  | cons blk blks ihall =>
      intro b start
      rw [callsAll, List.map_append, ih blk List.mem_cons_self,
        ihall fun blk hblk => ih blk (List.mem_cons_of_mem _ hblk)]
      rfl

theorem results_callsBranches {kind : Kind} {h : Head α} {label : String} {entry exit : PlaceId}
    {probability : Nat → α} {blks : List (Block α)}
    (ih : ∀ blk ∈ blks, ∀ (b : Builder α) (entry : PlaceId),
      (b.calls entry blk).map (fun c => c.built.result) = (b.assemble entry blk).result.subtrees) :
    ∀ (b : Builder α) (i : Nat),
      (b.callsBranches kind h label entry exit probability i blks).map (fun c => c.built.result) =
        Layout.subtreesAll
          (b.assembleBranches kind h label entry exit probability i blks).result := by
  induction blks with
  | nil => exact fun _ _ => rfl
  | cons blk blks ihall =>
      intro b i
      rw [callsBranches, List.map_append, ih blk List.mem_cons_self,
        ihall fun blk hblk => ih blk (List.mem_cons_of_mem _ hblk)]
      rfl

/-- One call makes one region of the layout, in document order. -/
theorem results_calls (blk : Block α) : ∀ (b : Builder α) (entry : PlaceId),
    (b.calls entry blk).map (fun c => c.built.result) =
      (b.assemble entry blk).result.subtrees := by
  induction blk using Block.ind with
  | task h v => exact fun _ _ => rfl
  | sequential h one two ihone ihtwo =>
      intro b entry
      rw [calls, List.map_cons, List.map_append, ihone, ihtwo]
      simp [Call.built, assemble, finish, Layout.subtrees, Layout.subtreesAll]
  | parallel h bs ih =>
      intro b entry
      rw [calls, List.map_cons, results_callsAll ih]
      rfl
  | choice h bs ps ih =>
      intro b entry
      rw [calls, List.map_cons, results_callsBranches ih]
      rfl
  | nature h bs ps ih =>
      intro b entry
      rw [calls, List.map_cons, results_callsBranches ih]
      rfl
  | loop h body x n ih =>
      intro b entry
      rw [calls, List.map_cons, ih]
      simp [Call.built, assemble, finish, Layout.subtrees, Layout.subtreesAll]

/-! ## Calls and regions -/

/-- The region is compiled by the call. The net is in order before, and the entry charges nothing
but time so far. -/
structure Call.Makes (c : Call α) (r : Region α) : Prop where
  block : r.block = .ok c.block
  tidy : c.builder.Tidy
  lasting : ∃ acc, c.builder.net.terms c.entry = some (.lasting acc)

/-- The calls for a block compile the regions of a description, one after the other. -/
def MakesAll (n : Nat) (blk : Block α) : Prop :=
  ∀ (r : Region α) {b : Builder α} {entry : PlaceId} {acc : α}, (∀ c ∈ r.preorder, c.Sound n) →
    r.block = .ok blk → b.Tidy → b.net.terms entry = some (.lasting acc) →
      List.Forall₂ (fun r c => c.Makes r) r.preorder (b.calls entry blk)

theorem makes_callsAll {n : Nat} {rs : List (Region α)} {blks : List (Block α)}
    (hrs : List.Forall₂ (fun r blk => r.block = .ok blk) rs blks)
    (hsound : ∀ r ∈ rs, ∀ c ∈ r.preorder, c.Sound n) (ih : ∀ blk ∈ blks, MakesAll n blk)
    (hproper : ∀ blk ∈ blks, blk.Proper n) : ∀ {b : Builder α} {start : Nat}, b.Tidy →
      (∀ i < blks.length, b.net.terms ⟨start + i⟩ = some (.lasting 0)) →
      List.Forall₂ (fun r c => c.Makes r) (Region.preorders rs) (b.callsAll start blks) := by
  induction hrs with
  | nil => exact fun _ _ => .nil
  | @cons r blk rs blks hr _ ihall =>
      intro b start hb hterms
      obtain ⟨hr', hrest⟩ := List.forall_mem_cons.mp hsound
      have hstart := hterms 0 (Nat.zero_lt_succ _)
      obtain ⟨P, -, hP⟩ := blk.assembles (hproper blk List.mem_cons_self) _ _ _ hb hstart
      refine List.rel_append (ih blk List.mem_cons_self r hr' hr hb hstart) ?_
      refine ihall hrest (fun blk hblk => ih blk (List.mem_cons_of_mem _ hblk))
        (fun blk hblk => hproper blk (List.mem_cons_of_mem _ hblk)) (hP.growth.tidy hb)
        fun i hi => ?_
      -- a branch charges nothing on the starts of the branches behind it
      have hlater := hterms (i + 1) (Nat.succ_lt_succ hi)
      rw [show start + (i + 1) = start + 1 + i by omega] at hlater
      apply hP.growth.terms hlater
      simp only [List.mem_singleton, PlaceId.mk.injEq]
      omega

theorem makes_callsBranches {n : Nat} {kind : Kind} {h : Head α} {label : String}
    {entry exit : PlaceId} {probability : Nat → α} {rs : List (Region α)} {blks : List (Block α)}
    (hrs : List.Forall₂ (fun r blk => r.block = .ok blk) rs blks)
    (hsound : ∀ r ∈ rs, ∀ c ∈ r.preorder, c.Sound n) (ih : ∀ blk ∈ blks, MakesAll n blk)
    (hproper : ∀ blk ∈ blks, blk.Proper n) : ∀ {b : Builder α} {i : Nat}, b.Tidy →
      List.Forall₂ (fun r c => c.Makes r) (Region.preorders rs)
        (b.callsBranches kind h label entry exit probability i blks) := by
  induction hrs with
  | nil => exact fun _ => .nil
  | @cons r blk rs blks hr _ ihall =>
      intro b i hb
      obtain ⟨hr', hrest⟩ := List.forall_mem_cons.mp hsound
      let opened := b.addPlace.connect kind h
        { role := .branchEntry, label := branchLabel blk.head, probability := probability i,
          stop := true, branch := some i, inputs := [entry], outputs := [b.newPlace] }
      have hopened : opened.Tidy := growth_connect.tidy (growth_addPlace.tidy hb)
      have hstart : opened.net.terms b.newPlace = some (.lasting 0) := terms_addPlace hb
      obtain ⟨P, -, hP⟩ := blk.assembles (hproper blk List.mem_cons_self) _ _ _ hopened hstart
      exact List.rel_append (ih blk List.mem_cons_self r hr' hr hopened hstart)
        (ihall hrest (fun blk hblk => ih blk (List.mem_cons_of_mem _ hblk))
          (fun blk hblk => hproper blk (List.mem_cons_of_mem _ hblk))
          (growth_connect.tidy (hP.growth.tidy hopened)))

/-- The block of a region is called first, then the blocks of its children. -/
theorem forall₂_makes {r : Region α} {blk : Block α} {acc : α} {cs : List (Call α)}
    (hr : r.block = .ok blk) (hb : b.Tidy) (hterms : b.net.terms entry = some (.lasting acc))
    (hcs : List.Forall₂ (fun r c => c.Makes r) (Region.preorders r.branches) cs) :
    List.Forall₂ (fun r c => c.Makes r) r.preorder (⟨b, entry, blk⟩ :: cs) := by
  rw [Region.preorder_eq]
  exact .cons ⟨hr, hb, acc, hterms⟩ hcs

theorem makes_gateway {n : Nat} {h : Head α} {g : Gate α} {blks : List (Block α)}
    (ih : ∀ blk ∈ blks, MakesAll n blk) (hproper : ∀ blk ∈ blks, blk.Proper n) :
    MakesAll n (g.block h blks) := by
  intro r b entry acc hsound hr hb hterms
  obtain ⟨hsound, hbelow⟩ := Region.sound_preorder hsound
  have hchildren : (g.block h blks).children = blks := by
    cases g <;> rfl
  have hrs := Region.forall₂_children hsound hr
  rw [hchildren] at hrs
  let entered := b.enter entry g.kind h
  have hcalls : b.calls entry (g.block h blks) = ⟨b, entry, g.block h blks⟩ ::
      entered.addPlace.callsBranches g.kind h (b.labelFor g.kind h) entry entered.newPlace g.odds 0
        blks := by
    cases g <;> rfl
  rw [hcalls]
  exact forall₂_makes hr hb hterms (makes_callsBranches hrs hbelow ih hproper
    (growth_addPlace.tidy (growth_enter.tidy hb)))

/-- Every region of a description is compiled by one call. -/
theorem makes_calls {n : Nat} (blk : Block α) (hproper : blk.Proper n) : MakesAll n blk := by
  have hall : ∀ {blks : List (Block α)}, Block.AllProper n blks →
      (∀ blk ∈ blks, blk.Proper n → MakesAll n blk) → ∀ blk ∈ blks, MakesAll n blk :=
    fun hblks ih blk hblk => ih blk hblk (Block.allProper_iff.mp hblks blk hblk)
  induction blk using Block.ind with
  | task h v =>
      intro r b entry acc hsound hr hb hterms
      obtain ⟨hsound, -⟩ := Region.sound_preorder hsound
      refine forall₂_makes hr hb hterms ?_
      rw [List.forall₂_nil_right_iff.mp (Region.forall₂_children hsound hr)]
      exact .nil
  | sequential h one two ihone ihtwo =>
      intro r b entry acc hsound hr hb hterms
      obtain ⟨hone, htwo⟩ := hproper
      obtain ⟨hsound, hbelow⟩ := Region.sound_preorder hsound
      obtain ⟨c, _, hc, hrest, hbranches⟩ :=
        List.forall₂_cons_right_iff.mp (Region.forall₂_children hsound hr)
      obtain ⟨d, _, hd, hnil, rfl⟩ := List.forall₂_cons_right_iff.mp hrest
      obtain rfl := List.forall₂_nil_right_iff.mp hnil
      rw [hbranches] at hbelow
      have hentered : (b.enter entry .sequential h).Tidy := growth_enter.tidy hb
      have hcharged : (b.enter entry .sequential h).net.terms entry =
          some (.lasting (acc + h.duration)) := terms_enter hterms
      obtain ⟨P, rfl, hP⟩ := one.assembles hone _ _ _ hentered hcharged
      refine forall₂_makes hr hb hterms ?_
      rw [hbranches, Region.preorders, Region.preorders, Region.preorders, List.append_nil]
      -- the second region starts where the first one ends, and nothing is charged there yet
      apply List.rel_append
      · exact ihone hone c (hbelow c (by simp)) hc hentered hcharged
      · exact ihtwo htwo d (hbelow d (by simp)) hd (hP.growth.tidy hentered)
          (hP.result_exit ▸ hP.exit)
  | parallel h bs ih =>
      intro r b entry acc hsound hr hb hterms
      obtain ⟨hsound, hbelow⟩ := Region.sound_preorder hsound
      have hentered : (b.enter entry .parallel h).Tidy := growth_enter.tidy hb
      obtain ⟨hadded, hnew⟩ := growth_addPlaces bs.length hentered
      exact forall₂_makes hr hb hterms (makes_callsAll (Region.forall₂_children hsound hr) hbelow
        (hall hproper.2 ih) (Block.allProper_iff.mp hproper.2)
        (growth_connect.tidy (hadded.tidy hentered)) hnew)
  | choice h bs ps ih =>
      obtain ⟨-, -, hbs⟩ := hproper
      exact makes_gateway (g := .choice ps) (hall hbs ih) (Block.allProper_iff.mp hbs)
  | nature h bs ps ih =>
      obtain ⟨-, -, hbs⟩ := hproper
      exact makes_gateway (g := .nature ps) (hall hbs ih) (Block.allProper_iff.mp hbs)
  | loop h body x n ih =>
      intro r b entry acc hsound hr hb hterms
      obtain ⟨hsound, hbelow⟩ := Region.sound_preorder hsound
      obtain ⟨c, _, hc, hnil, hbranches⟩ :=
        List.forall₂_cons_right_iff.mp (Region.forall₂_children hsound hr)
      obtain rfl := List.forall₂_nil_right_iff.mp hnil
      have hentered : (b.enter entry .loop h).Tidy := growth_enter.tidy hb
      refine forall₂_makes hr hb hterms ?_
      rw [hbranches] at hbelow ⊢
      rw [Region.preorders, Region.preorders, List.append_nil]
      exact ih hproper.2 c (hbelow c (by simp)) hc
        (growth_connect.tidy (growth_addPlace.tidy hentered)) (terms_addPlace hentered)

end Builder

/-- The calls for a block when nothing is there but the place where it starts. -/
def Block.calls (trunk : Block α) : List (Builder.Call α) :=
  let b : Builder α := .empty
  b.addPlace.calls b.newPlace trunk

/-! ## Regions in a valid description -/

namespace Region

variable {r c : Region α}

omit [Quantity α] in
theorem preorder_sublist (hc : c ∈ r.preorder) : List.Sublist c.preorder r.preorder := by
  induction r using Region.ind with
  | step r ih =>
      rw [preorder_eq] at hc
      rcases List.mem_cons.mp hc with rfl | hc
      · exact .refl _
      · obtain ⟨d, hd, hc⟩ := mem_preorders.mp hc
        rw [preorder_eq r, preorders_eq_flatMap, List.flatMap_def]
        exact ((ih d hd hc).trans (List.sublist_flatten_of_mem (List.mem_map_of_mem hd))).cons r

/-- What is below a valid description is valid. -/
theorem validate_of_mem (h : r.validate = .ok ()) (hc : c ∈ r.preorder) : c.validate = .ok () := by
  have hsub := preorder_sublist hc
  rw [validate_eq_ok, firstFault_eq_none_iff] at h ⊢
  obtain ⟨⟨n, hn, hsound⟩, ⟨hids, hnodup⟩, hplain⟩ := h
  exact ⟨⟨n, hn, fun d hd => hsound d (hsub.subset hd)⟩,
    ⟨fun d hd => hids d (hsub.subset hd), hnodup.sublist (hsub.map _)⟩,
    fun d hd => hplain d (hsub.subset hd)⟩

end Region

omit [Quantity α] in
theorem Block.heads_eq (b : Block α) : b.heads = b.head :: headsAll b.children := by
  cases b <;> simp [heads, head, children, headsAll]

namespace Region

theorem headsAll_of_blocks {rs : List (Region α)} {bs : List (Block α)}
    (hrs : List.Forall₂ (fun r blk => r.block = .ok blk) rs bs)
    (ih : ∀ r ∈ rs, ∀ {blk}, r.block = .ok blk → blk.heads = r.preorder.map head) :
    Block.headsAll bs = (preorders rs).map head := by
  induction hrs with
  | nil => rfl
  | cons hr _ ihrs =>
      rw [Block.headsAll, preorders, List.map_append, ih _ List.mem_cons_self hr,
        ihrs fun r hr => ih r (List.mem_cons_of_mem _ hr)]

/-- What stands at the heads of a block's regions is what stood there in the description. -/
theorem heads_of_block {n : Nat} {r : Region α} (hsound : ∀ c ∈ r.preorder, c.Sound n) :
    ∀ {blk : Block α}, r.block = .ok blk → blk.heads = r.preorder.map head := by
  induction r using Region.ind with
  | step r ih =>
      intro blk h
      obtain ⟨hr, hbelow⟩ := sound_preorder hsound
      rw [Block.heads_eq, head_of_block h, preorder_eq, List.map_cons]
      exact congrArg _
        (headsAll_of_blocks (forall₂_children hr h) fun c hc => ih c hc (hbelow c hc))

end Region

/-! ## The entry -/

/-- The regions of a block that start where the block starts. -/
def Block.leading : Block α → List (Head α)
  | .task h _ => [h]
  | .sequential h one _ => h :: one.leading
  | .parallel h _ => [h]
  | .choice h _ _ => [h]
  | .nature h _ _ => [h]
  | .loop h _ _ _ => [h]

/-- The time on a place when regions have started there, one after the other. -/
def charge (hs : List (Head α)) (d : α) : α := hs.foldl (fun d h => d + h.duration) d

theorem Piece.Laid.charge_leading {T : PlaceId → Option (Terms α)} {P : Piece α} :
    ∀ {acc : α}, P.Laid T acc →
      (T P.entry).map Terms.duration = some (charge P.block.leading acc) := by
  induction P using Piece.ind with
  | task s v => exact fun h => congrArg _ h
  | sequential s one two ihone =>
      rintro acc ⟨⟨hentry, -, -⟩, hone, -⟩
      exact (congrArg (fun p => (T p).map Terms.duration) hentry.symm).trans (ihone hone)
  | parallel s bs => exact fun h => congrArg _ h.1
  | gateway s g bs => cases g <;> exact fun h => congrArg _ h.1
  | loop s body x n => exact fun h => congrArg _ h.1

/-- What a piece charges where it starts is on the place. -/
theorem Piece.Laid.duration_eq {net : Net α} {P : Piece α} {acc : α} {q : Place α}
    (h : P.Laid net.terms acc) (hnodup : (net.places.map Place.id).Nodup) (hq : q ∈ net.places)
    (hid : P.entry = q.id) : q.duration = charge P.block.leading acc := by
  have hcharge := h.charge_leading
  rw [hid, Net.terms, Net.place?_of_mem hnodup hq] at hcharge
  exact Option.some.inj hcharge

/-- Changes where regions start charge time, and replace the name and the impacts. -/
theorem Change.exists_applyAll {cs : List (Change α)} (hcs : ∀ c ∈ cs, c.Opens) :
    ∃ (name : Option String) (impacts : Option (List α)), ∀ q : Place α,
      applyAll cs q = { q with
        duration := (applyAll cs q).duration
        entryOf := name.or q.entryOf
        impacts := impacts.or q.impacts } := by
  induction cs using List.reverseRecOn with
  | nil => exact ⟨none, none, fun _ => rfl⟩
  | append_singleton cs c ih =>
      obtain ⟨hcs, hc⟩ := List.forall_mem_append.mp hcs
      obtain ⟨name, impacts, hall⟩ := ih hcs
      cases List.forall_mem_singleton.mp hc with
      | start h =>
          refine ⟨some h.id, impacts, fun q => ?_⟩
          rw [applyAll_concat, hall]
          rfl
      | work v =>
          refine ⟨name, some v, fun q => ?_⟩
          rw [applyAll_concat, hall]
          rfl

/-- Changes that name a place give it the name, and if it has no impacts the impacts, that they give
to a place with nothing on it. -/
theorem Change.applyAll_eq {cs : List (Change α)} (hcs : ∀ c ∈ cs, c.Opens) {p : PlaceId}
    (hname : (applyAll cs (Builder.bare p)).entryOf.isSome = true) {q : Place α}
    (hq : q.impacts = none) :
    applyAll cs q = { q with
      duration := (applyAll cs q).duration
      entryOf := (applyAll cs (Builder.bare p)).entryOf
      impacts := (applyAll cs (Builder.bare p)).impacts } := by
  obtain ⟨name, impacts, hall⟩ := exists_applyAll hcs
  rw [hall] at hname
  obtain ⟨name, rfl⟩ : ∃ s, name = some s := by
    simpa [Builder.bare, Option.isSome_iff_exists] using hname
  rw [hall (Builder.bare p), hall q, hq]
  rfl

namespace Builder

/-- Where a call takes the nodes of its block. -/
def Call.relocation (c : Call α) : Relocation := ⟨c.entry, c.builder.next - 1⟩

theorem copies_empty {ρ : Relocation} {old : Builder α} (hs : List (Head α))
    (hoffset : old.next = 1 + ρ.offset) : Copies ρ old hs empty.addPlace old where
  pos := Nat.one_pos
  next := hoffset
  numbered := rfl
  places := ⟨[], [], by simp, by simp, rfl, by simp [Change.applyAll]⟩
  transitions := ⟨[], by simp, .nil⟩

namespace Call.Makes

variable {c : Call α} {r : Region α} {hs : List (Head α)}

theorem entry_lt (h : c.Makes r) : c.entry.index < c.builder.next := by
  obtain ⟨acc, hacc⟩ := h.lasting
  exact h.tidy.placesBelow _ (mem_places_of_terms hacc)

theorem offset (h : c.Makes r) : c.builder.next = 1 + c.relocation.offset := by
  have hlt := h.entry_lt
  show c.builder.next = 1 + (c.builder.next - 1)
  omega

theorem clear (h : c.Makes r) : c.relocation.Clear c.builder where
  entry := Nat.le_sub_one_of_lt h.entry_lt
  places := fun _ hq => Nat.le_sub_one_of_lt (h.tidy.placesBelow _ (List.mem_map_of_mem hq))

/-- There is a place at the entry, with nothing but time on it. -/
theorem exists_entry (h : c.Makes r) : ∃ given, c.builder.net.place? c.entry = some given ∧
    given.terms = .lasting given.duration := by
  obtain ⟨acc, hacc⟩ := h.lasting
  obtain ⟨given, hgiven, hterms⟩ := Option.map_eq_some_iff.mp hacc
  obtain rfl : given.duration = acc := congrArg Terms.duration hterms
  exact ⟨given, hgiven, hterms⟩

theorem eq_of_id {given q : Place α} (h : c.Makes r)
    (hgiven : c.builder.net.place? c.entry = some given) (hq : q ∈ c.builder.net.places)
    (hid : q.id = c.entry) : q = given :=
  List.inj_on_of_nodup_map h.tidy.nodup hq (List.mem_of_find?_eq_some hgiven)
    (hid.trans (Net.place?_id hgiven).symm)

/-- The call adds the time of its leading regions to what there is on the entry. -/
theorem duration_eq {n : Nat} {given q : Place α} (h : c.Makes r) (hproper : c.block.Proper n)
    (hgiven : c.builder.net.place? c.entry = some given)
    (hterms : given.terms = .lasting given.duration) (hq : q ∈ c.built.builder.net.places)
    (hid : q.id = c.entry) : q.duration = charge c.block.leading given.duration := by
  have hlasting : c.builder.net.terms c.entry = some (.lasting given.duration) := by
    rw [Net.terms, hgiven, Option.map_some, hterms]
  obtain ⟨P, hP, hassembled⟩ := c.block.assembles hproper _ _ _ h.tidy hlasting
  rw [← hP]
  exact hassembled.laid.duration_eq (hassembled.growth.tidy h.tidy).nodup hq
    (hassembled.starts.trans hid.symm)

/-- What the block becomes alone is copied by the call. -/
theorem copies (h : c.Makes r) (hhs : c.block.heads ⊆ hs) :
    Built.Copies c.relocation c.builder hs (empty.addPlace.assemble ⟨0⟩ c.block) c.built :=
  c.block.relocates _ h.clear hhs (copies_empty hs h.offset)

end Call.Makes

end Builder

namespace Workflow

/-- The place where the workflow starts, and all others. -/
structure Starts (w : Workflow α) (home : Place α) (others : List (Place α)) : Prop where
  places : w.net.places = home :: others
  id : home.id = ⟨0⟩
  exitOf : home.exitOf = none
  visitLimit : home.visitLimit = none

/-- What the call adds to the net is the workflow, with all numbers shifted by one offset, and of
what was there it changes only the entry. -/
structure Relocated (w : Workflow α) (hs : List (Head α)) (c : Builder.Call α) (ρ : Relocation) :
    Prop where
  entry : ρ.entry = c.entry
  offset : ρ.offset + 1 = c.builder.next
  /-- The entry is charged the same, on top of the time that it has been charged already; there are
  no impacts and no limit on it before. -/
  places : ∃ (home : Place α) (others : List (Place α)) (given : Place α), w.Starts home others ∧
    c.builder.net.place? c.entry = some given ∧ given.impacts = none ∧ given.visitLimit = none ∧
    home.duration = charge c.block.leading 0 ∧
    c.built.builder.net.places = (c.builder.net.places.map fun q =>
        if q.id = c.entry then { q with
          duration := charge c.block.leading q.duration
          entryOf := home.entryOf
          impacts := home.impacts } else q) ++ others.map (Place.relocate ρ)
  transitions : ∃ ts, c.built.builder.net.transitions = c.builder.net.transitions ++ ts ∧
    List.Forall₂ (Transition.Relocates ρ c.builder.numbered hs) w.net.transitions ts
  /-- The regions are listed alike behind any list of regions, under any parent. -/
  listed : ∀ parent start, List.Forall₂
    (Layout.Entry.Relates (RegionInfo.Relocates ρ c.builder.numbered hs) parent start)
    w.layout.entries (c.built.result.entriesFrom parent start)

variable {R : Piece α} {w : Workflow α} {home : Place α} {others : List (Place α)}

/-- A workflow starts where its outermost region does. -/
theorem Consists.entry_eq (h : w.Consists R) (hplaces : w.net.places = home :: others) :
    R.entry = home.id := by
  have hids := h.places
  rw [hplaces, List.map_cons] at hids
  exact (List.cons.inj hids).1.symm

theorem Consists.entryOf_isSome (h : w.Consists R) (hrecorded : w.Recorded R)
    (hplaces : w.net.places = home :: others) : home.entryOf.isSome = true := by
  have hhome : home ∈ w.net.places := hplaces ▸ List.mem_cons_self
  have hmem : R ∈ R.preorder.filter (·.entry = home.id) :=
    List.mem_filter.mpr ⟨Piece.mem_preorder.mpr .self, decide_eq_true (h.entry_eq hplaces)⟩
  rw [hrecorded.entryOf hhome, Option.isSome_map]
  exact List.getLast?_isSome.mpr (List.ne_nil_of_mem hmem)

/-- The call adds the workflow that its region is compiled to alone. -/
theorem relocated_of_makes {r : Region α} {c : Builder.Call α} (hr : r.validate = .ok ())
    (h : c.Makes r) :
    ∃ w ρ, compile r = .ok w ∧ w.Relocated (r.preorder.map Region.head) c ρ := by
  obtain ⟨R, hcompile, hR, hyields⟩ := exists_ofBlock hr
  obtain ⟨n, hsound⟩ := hyields.sound
  obtain ⟨blk, hblk, hproper, -⟩ := Region.block_of_sound r hsound
  obtain rfl : c.block = blk := Except.ok.inj (h.block.symm.trans hblk)
  have hblock : R.block = c.block := Except.ok.inj (hyields.block.symm.trans h.block)
  have hcopies := h.copies (List.Subset.refl c.block.heads)
  rw [Region.heads_of_block hsound h.block] at hcopies
  obtain ⟨cs, qs, hcs, -, hplaces, hplaces'⟩ := hcopies.builder.places
  rw [← hblock] at hcopies hplaces
  obtain ⟨given, hgiven, hterms⟩ := h.exists_entry
  let home := Change.applyAll cs (Builder.bare ⟨0⟩)
  have hhome : home.duration = charge c.block.leading 0 := by
    rw [← hblock]
    exact hR.laid.duration_eq hR.nodup_places (hplaces ▸ List.mem_cons_self) (hR.entry_eq hplaces)
  refine ⟨ofBlock R.block, c.relocation, hcompile, rfl, h.offset.symm ▸ Nat.add_comm _ _,
    ⟨home, qs, given, ⟨hplaces, Change.id_applyAll cs _, ?_, ?_⟩, hgiven,
      congrArg Terms.impacts hterms, congrArg Terms.limit hterms, hhome, ?_⟩,
    hcopies.builder.transitions, fun parent start => ?_⟩
  · obtain ⟨name, impacts, hall⟩ := Change.exists_applyAll hcs
    exact congrArg Place.exitOf (hall _)
  · obtain ⟨name, impacts, hall⟩ := Change.exists_applyAll hcs
    exact congrArg Place.visitLimit (hall _)
  · rw [hplaces']
    congr 1
    refine List.map_congr_left fun q hq => if_ctx_congr Iff.rfl (fun hid => ?_) fun _ => rfl
    obtain rfl := h.eq_of_id hgiven hq hid
    have hmem : Change.applyAll cs q ∈ c.built.builder.net.places := by
      rw [hplaces']
      exact List.mem_append_left _ (List.mem_map.mpr ⟨q, hq, if_pos hid⟩)
    have hduration := h.duration_eq hproper hgiven hterms hmem ((Change.id_applyAll cs q).trans hid)
    have hname := hR.entryOf_isSome hR.recorded hplaces
    rw [Change.applyAll_eq hcs hname (congrArg Terms.impacts hterms), hduration]
  · have hlisted := hcopies.layout.entriesFrom parent start none 0
    rwa [Nat.zero_add] at hlisted

/-- Each region of a valid description is compiled by one call, in document order, and what the call
adds is the workflow that the region is compiled to alone, in another place. -/
theorem relocated_of_validate {root : Region α} (h : root.validate = .ok ()) :
    ∃ trunk : Block α, root.block = .ok trunk ∧ compile root = .ok (ofBlock trunk) ∧
      trunk.calls.map (fun c => c.built.result) = (ofBlock trunk).layout.subtrees ∧
      List.Forall₂ (fun r c => r.block = .ok c.block ∧ ∃ w ρ, compile r = .ok w ∧
        w.Relocated (r.preorder.map Region.head) c ρ) root.preorder trunk.calls := by
  obtain ⟨⟨n, hsound⟩, -⟩ := Region.rules_of_validate h
  obtain ⟨trunk, hblock, hproper, -⟩ := Region.block_of_sound root hsound
  have hcompile : compile root = .ok (ofBlock trunk) := by rw [compile, h, hblock]
  let b : Builder α := .empty
  have hempty : b.Tidy := ⟨.nil, fun _ h => absurd h List.not_mem_nil, .nil,
    fun _ h => absurd h List.not_mem_nil⟩
  have hmakes : List.Forall₂ (fun r c => c.Makes r) root.preorder trunk.calls :=
    Builder.makes_calls trunk hproper root hsound hblock (Builder.growth_addPlace.tidy hempty)
      (Builder.terms_addPlace hempty)
  refine ⟨trunk, hblock, hcompile, Builder.results_calls trunk b.addPlace b.newPlace, ?_⟩
  refine List.forall₂_iff_zip.mpr ⟨hmakes.length_eq, fun {r c} hrc => ?_⟩
  have hr := Region.validate_of_mem h (List.of_mem_zip hrc).1
  have hc := (List.forall₂_iff_zip.mp hmakes).2 hrc
  exact ⟨hc.block, relocated_of_makes hr hc⟩

end Workflow

/-- In a sequence the second region comes behind the first: its entry is the place where the first
one ends, and its nodes are numbered on from there. -/
theorem Workflow.relocated_chain : Region.chain.validate = .ok () ∧
    ∃ trunk : Block Rat, Workflow.compile Region.chain = .ok (.ofBlock trunk) ∧
      List.Forall₂ (fun r c => r.block = .ok c.block ∧ ∃ w ρ, Workflow.compile r = .ok w ∧
        w.Relocated (r.preorder.map Region.head) c ρ) Region.chain.preorder trunk.calls ∧
      trunk.calls.map (fun c => (c.entry, c.builder.next)) =
        [(⟨0⟩, 1), (⟨0⟩, 1), (⟨0⟩, 1), (⟨1⟩, 3), (⟨3⟩, 5)] := by
  obtain ⟨trunk, hblock, hcompile, -, hrelocated⟩ :=
    Workflow.relocated_of_validate Region.chain_valid
  have hcheck : (match Region.chain.block with
      | .ok trunk => decide (trunk.calls.map (fun c => (c.entry, c.builder.next)) =
          [(⟨0⟩, 1), (⟨0⟩, 1), (⟨0⟩, 1), (⟨1⟩, 3), (⟨3⟩, 5)])
      | .error _ => false) = true := by decide +kernel
  rw [hblock] at hcheck
  exact ⟨Region.chain_valid, trunk, hcompile, hrelocated, of_decide_eq_true hcheck⟩

end RegionNet
