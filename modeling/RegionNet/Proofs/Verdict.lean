import RegionNet.Command.Disk
import RegionNet.Command.Run
import RegionNet.Proofs.Proper

/-!
# One verdict

Three functions look at the fields of a description: the check of its rules, the view of a region
through its shape, and the compiler, which goes by the shapes. They agree: a description that passes
has shapes everywhere, so that `Workflow.compile` fails with nothing but the verdict of
`Region.validate`, and a document is accepted or refused alike by whatever loads it.
-/

namespace RegionNet

variable {α : Type} [Quantity α]

namespace Region

/-! ## The rules and the shapes -/

/-- Whether there is a shape is told by how many children there are. -/
theorem shapeOver_isSome_congr {β γ : Type} (r : Region α) {xs : List β} {ys : List γ}
    (h : xs.length = ys.length) : (r.shapeOver xs).isSome = (r.shapeOver ys).isSome := by
  unfold shapeOver
  cases r.kind
  case task => cases r.impacts <;> rfl
  case sequential =>
    match xs, ys, h with
    | [], [], _ => rfl
    | [_], [_], _ => rfl
    | [_, _], [_, _], _ => rfl
    | _ :: _ :: _ :: _, _ :: _ :: _ :: _, _ => rfl
  case parallel =>
    simp only [h]
    split <;> rfl
  case choice =>
    simp only [h]
    split
    · cases r.distribution with
      | none => rfl
      | some d => cases d <;> rfl
    · rfl
  case nature =>
    simp only [h]
    cases r.distribution with
    | none => rfl
    | some d =>
        cases d with
        | single p => rfl
        | branches ps =>
            simp only
            split <;> rfl
  case loop =>
    match xs, ys, h with
    | [], [], _ => rfl
    | _ :: _ :: _, _ :: _ :: _, _ => rfl
    | [_], [_], _ =>
      cases r.distribution with
      | none => rfl
      | some d =>
          cases d with
          | branches ps => rfl
          | single p => cases r.loopBound <;> rfl

/-- In a description that has a block every region has a shape. -/
theorem shapes_of_block (r : Region α) : ∀ {blk : Block α}, r.block = .ok blk →
    ∀ c ∈ r.preorder, c.shape.isSome = true := by
  induction r using Region.ind with
  | step r ih =>
      intro blk h c hc
      obtain ⟨bs, shape, hbs, hshape, -⟩ := shape_of_block h
      have hblocks := forall₂_of_blocks hbs
      rw [preorder_eq] at hc
      rcases List.mem_cons.mp hc with rfl | hc
      · rw [Region.shape, c.shapeOver_isSome_congr hblocks.length_eq, hshape]
        rfl
      · obtain ⟨d, hd, hc⟩ := mem_preorders.mp hc
        obtain ⟨b, -, hb⟩ := exists_right_of_forall₂ hblocks hd
        exact ih d hd hb c hc

/-! ## What a verdict can be -/

/-- None of the rules is that there be a shape. -/
theorem fault_ne_malformed {seen : Visited} {r : Region α} {id : String} {kind : Kind} :
    r.fault seen ≠ some (.malformed id kind) := by
  intro h
  simp only [fault, orElse_eq_some_iff, Fault.require_eq_some_iff, reduceCtorEq, and_false,
    false_or] at h
  obtain ⟨-, -, -, -, hrest⟩ := h
  unfold kindFault at hrest
  cases hkind : r.kind <;>
    simp only [hkind, orElse_eq_some_iff, Fault.require_eq_some_iff, noImpacts, noDistribution,
      childCount, reduceCtorEq, and_false, false_or] at hrest
  case task =>
    obtain ⟨-, -, h⟩ := hrest
    unfold taskImpacts at h
    split at h
    · cases h
    · simp only [orElse_eq_some_iff, Fault.require_eq_some_iff, reduceCtorEq, and_false,
        false_or] at h
      split at h
      · cases h.2
      · simp [Fault.require_eq_some_iff] at h
  case choice =>
    obtain ⟨-, -, h⟩ := hrest
    obtain ⟨d, -, h⟩ := Option.bind_eq_some_iff.mp h
    simp [branchDistribution] at h
  case nature =>
    obtain ⟨-, -, h⟩ := hrest
    split at h
    · cases h
    · simp [branchDistribution] at h
  case loop =>
    obtain ⟨-, -, h⟩ := hrest
    rcases h with h | ⟨-, h⟩
    · unfold loopProbability at h
      split at h
      · cases h
      · cases h
      · simp [Fault.require_eq_some_iff] at h
    · unfold boundPresent at h
      split at h
      · cases h
      · simp [Fault.require_eq_some_iff] at h

theorem validate_ne_malformed {r : Region α} {id : String} {kind : Kind} :
    r.validate ≠ .error (.malformed id kind) := by
  have hnone : ∀ {rs : List (Region α)} {seen : Visited},
      firstFault seen rs ≠ some (.malformed id kind) := by
    intro rs
    induction rs with
    | nil =>
        intro seen h
        cases h
    | cons r rs ih =>
        intro seen h
        rcases orElse_eq_some_iff.mp h with h | ⟨-, h⟩
        · exact fault_ne_malformed h
        · exact ih h
  intro h
  unfold validate at h
  split at h
  · next f hf =>
      cases h
      exact hnone hf
  · cases h

end Region

/-! ## Loading -/

namespace Command

/-- How a document is refused that reads as a region and breaks a rule. -/
def refusal (path : String) (f : Fault Float) : String :=
  "invalid region " ++ path ++ ": " ++ f.message

variable {d : Disk} {path text : String} {r : Region Float}

/-- A step that succeeds hands on what it found, and the disk. -/
theorem run_bind_of_run {β γ : Type} {x : Attempt (StateM Disk) β}
    {f : β → Attempt (StateM Disk) γ} {y : β} {d' : Disk} (h : x.run.run d = (.ok y, d')) :
    (x >>= f).run.run d = (f y).run.run d' := by
  rw [ExceptT.run_bind, StateT.run_bind, h]
  rfl

theorem readRegion_of_read (hread : d.read path = .ok text) (hr : Region.ofDocument text = .ok r) :
    (readRegion path : Attempt (StateM Disk) (Region Float)).run.run d = (.ok r, d) := by
  have hfile : (lift (during ("read region " ++ path) FileError.message <$> Host.readFile path) :
      Attempt (StateM Disk) String).run.run d = (.ok text, d) := by
    show (during ("read region " ++ path) FileError.message (d.read path), d) = _
    rw [hread]
    rfl
  unfold readRegion
  rw [run_bind_of_run hfile, hr]
  rfl

theorem loadRegion_of_read (hread : d.read path = .ok text) (hr : Region.ofDocument text = .ok r) :
    (loadRegion path : Attempt (StateM Disk) (Region Float)).run.run d =
      (match r.validate with
        | .ok () => .ok r
        | .error f => .error (refusal path f), d) := by
  unfold loadRegion
  rw [run_bind_of_run (readRegion_of_read hread hr)]
  cases r.validate <;> rfl

theorem loadWorkflow_of_read (hread : d.read path = .ok text)
    (hr : Region.ofDocument text = .ok r) :
    (loadWorkflow path : Attempt (StateM Disk) (Workflow Float)).run.run d =
      (match Workflow.compile r with
        | .ok w => .ok w
        | .error f => .error (refusal path f), d) := by
  unfold loadWorkflow
  rw [run_bind_of_run (readRegion_of_read hread hr)]
  cases Workflow.compile r <;> rfl

end Command

/-! ## Agreement -/

/-- The compiler accepts what the rules accept and refuses the rest with their verdict. Where they
accept, every region has a shape, so that none is ever reported as malformed. And a document that
reads as a region is loaded with its workflow or without, or refused for the same reason. -/
theorem Workflow.judges_alike (r : Region Float) :
    ((∃ w, compile r = .ok w) ↔ r.validate = .ok ()) ∧
      (∀ f, compile r = .error f ↔ r.validate = .error f) ∧
      (r.validate = .ok () → ∀ c ∈ r.preorder, c.shape.isSome = true) ∧
      (∀ id kind, compile r ≠ .error (.malformed id kind)) ∧
      ∀ (d : Disk) (path text : String), d.read path = .ok text → Region.ofDocument text = .ok r →
        (∃ w, compile r = .ok w ∧
          (Command.loadRegion path : Command.Attempt (StateM Disk) _).run.run d = (.ok r, d) ∧
          (Command.loadWorkflow path : Command.Attempt (StateM Disk) _).run.run d = (.ok w, d)) ∨
        ∃ f, r.validate = .error f ∧
          (Command.loadRegion path : Command.Attempt (StateM Disk) _).run.run d =
            (.error (Command.refusal path f), d) ∧
          (Command.loadWorkflow path : Command.Attempt (StateM Disk) _).run.run d =
            (.error (Command.refusal path f), d) := by
  refine ⟨compile_eq_ok_iff, fun f => compile_eq_error_iff, fun h => ?_, fun id kind h => ?_, ?_⟩
  · obtain ⟨blk, n, hblk, -⟩ := compile_of_validate h
    exact r.shapes_of_block hblk
  · exact Region.validate_ne_malformed (compile_eq_error_iff.mp h)
  · intro d path text hread hr
    rw [Command.loadRegion_of_read hread hr, Command.loadWorkflow_of_read hread hr]
    cases hv : r.validate with
    | error f => exact Or.inr ⟨f, rfl, rfl, by rw [compile_of_fault hv]⟩
    | ok =>
        obtain ⟨w, hw⟩ := compile_eq_ok_iff.mpr hv
        exact Or.inl ⟨w, hw, rfl, by rw [hw]⟩

/-- A task that takes less than no time. -/
theorem Workflow.judges_alike_sample :
    let text := "[\"a\", \"task\", null, -1, [2.5]]"
    let d := Disk.empty.install "a.json" text
    let refused := Command.refusal "a.json" (.invalidDuration "a" (-1))
    ∃ r, d.read "a.json" = .ok text ∧ Region.ofDocument text = .ok r ∧
      (Command.loadRegion "a.json" : Command.Attempt (StateM Disk) _).run.run d =
        (.error refused, d) ∧
      (Command.loadWorkflow "a.json" : Command.Attempt (StateM Disk) _).run.run d =
        (.error refused, d) := by
  intro text d refused
  have hread : d.read "a.json" = .ok text := by decide
  have hverdict : (Region.ofDocument text).toOption.map Region.validate =
      some (.error (.invalidDuration "a" (-1))) := by decide +kernel
  cases hr : Region.ofDocument text with
  | error e => simp [hr, Except.toOption] at hverdict
  | ok r =>
      have hfault : r.validate = .error (.invalidDuration "a" (-1)) := by
        simpa [hr, Except.toOption] using hverdict
      refine ⟨r, hread, rfl, ?_⟩
      obtain ⟨hok, -, -, -, hload⟩ := judges_alike r
      rcases hload d "a.json" text hread hr with ⟨w, hw, -⟩ | ⟨f, hf, hregion, hworkflow⟩
      · rw [hok.mp ⟨w, hw⟩] at hfault
        cases hfault
      · rw [hfault] at hf
        cases hf
        exact ⟨hregion, hworkflow⟩

end RegionNet
