import RegionNet.Proofs.Reading
import RegionNet.Proofs.Settings
import RegionNet.Proofs.Verdict

/-!
# Saved configurations

What is stored under a path is found there. A file is put at a place of the disk that depends on
nothing but the folders (`Disk.Slot`), and a change that lets the folders be leaves all paths as
they were (`Disk.Slot.read`). So a configuration that was written is loaded again
(`Command.saves`).
-/

namespace RegionNet

namespace Disk

variable {d e d' : Disk} {path text : String} {place : Place}

/-! ## Contents -/

theorem lookup_filter_ne {p : Place} (h : p ≠ place) (fs : List (Place × String)) :
    (fs.filter fun f => f.1 ≠ place).lookup p = fs.lookup p := by
  induction fs with
  | nil => rfl
  | cons f fs ih =>
      by_cases hf : f.1 = place
      · rw [List.filter_cons_of_neg (by simpa using hf), ih, List.lookup_cons,
          beq_false_of_ne (hf ▸ h)]
      · rw [List.filter_cons_of_pos (by simpa using hf), List.lookup_cons, List.lookup_cons, ih]

/-- Nothing but what is at a place is taken away from it. -/
theorem content_erase {p : Place} (h : p ≠ place) :
    (d.erase place).content p = d.content p := by
  unfold content
  rw [show (d.erase place).files.lookup p = d.files.lookup p from lookup_filter_ne h d.files]
  rfl

theorem content_put (d : Disk) (place : Place) (text : String) (p : Place) :
    (d.put place text).content p = if p = place then .file text else d.content p := by
  have hfiles : (d.put place text).files = (place, text) :: (d.erase place).files := rfl
  unfold content
  by_cases hp : p = place
  · rw [if_pos hp, hfiles, List.lookup_cons, hp, beq_self_eq_true]
  · rw [if_neg hp, hfiles, List.lookup_cons, beq_false_of_ne hp]
    exact content_erase hp

/-- What a place holds, but for the text of a file. -/
def Content.withoutText : Content → Content
  | .file _ => .file ""
  | c => c

/-- Two disks hold the same folders, and files at the same places. -/
def Alike (d e : Disk) : Prop :=
  ∀ p, (d.content p).withoutText = (e.content p).withoutText

theorem alike_put (d : Disk) (place : Place) (text text' : String) :
    (d.put place text).Alike (d.put place text') := by
  intro p
  rw [content_put, content_put]
  split_ifs <;> rfl

/-- What was a folder on a disk is one on another. -/
def Keeps (d e : Disk) : Prop := ∀ p, d.content p = .folder → e.content p = .folder

theorem keeps_put (h : d.content place ≠ .folder) : d.Keeps (d.put place text) := by
  intro p hp
  have hne : p ≠ place := by
    rintro rfl
    exact h hp
  rw [content_put, if_neg hne, hp]

theorem Content.eq_folder_iff {c c' : Content} (h : c.withoutText = c'.withoutText) :
    c = .folder ↔ c' = .folder := by
  cases c <;> cases c' <;> simp_all [withoutText]

theorem Alike.keeps (h : d.Alike e) : d.Keeps e := fun p => (Content.eq_folder_iff (h p)).mp

theorem Alike.symm (h : d.Alike e) : e.Alike d := fun p => (h p).symm

/-! ## Ways -/

/-- Nothing but a folder lets a way go on. -/
theorem follow_eq_ok {name : String} {from' : Place} (h : d.follow from' name = .ok place) :
    d.content from' = .folder := by
  unfold follow at h
  split at h
  · cases h
  · cases h
  · assumption

theorem Keeps.follow {name : String} {from' : Place} (hkeeps : d.Keeps e)
    (h : d.follow from' name = .ok place) : e.follow from' name = .ok place := by
  have hfolder := follow_eq_ok h
  unfold Disk.follow at h ⊢
  rw [hfolder] at h
  rw [hkeeps _ hfolder]
  exact h

theorem Keeps.foldlM_follow (hkeeps : d.Keeps e) {names : List String} {from' : Place}
    (h : names.foldlM d.follow from' = .ok place) : names.foldlM e.follow from' = .ok place := by
  induction names generalizing from' with
  | nil => exact h
  | cons name names ih =>
      rw [List.foldlM_cons] at h ⊢
      obtain ⟨next, hnext, hrest⟩ := Except.bind_eq_ok_iff.mp h
      rw [hkeeps.follow hnext]
      exact ih hrest

theorem Keeps.walk (hkeeps : d.Keeps e) {names : List String}
    (h : d.walk path names = .ok place) : e.walk path names = .ok place := by
  unfold Disk.walk at h ⊢
  split_ifs at h ⊢
  exact hkeeps.foldlM_follow h

theorem walk_concat_dot {names : List String} (h : d.walk path (names ++ ["."]) = .ok place) :
    d.walk path names = .ok place := by
  unfold walk at h ⊢
  split_ifs at h ⊢
  rw [List.foldlM_append] at h
  obtain ⟨folder, hfolder, hdot⟩ := Except.bind_eq_ok_iff.mp h
  rw [hfolder]
  rw [List.foldlM_cons] at hdot
  obtain ⟨same, hsame, hdot⟩ := Except.bind_eq_ok_iff.mp hdot
  cases hdot
  have hcontent := follow_eq_ok hsame
  simp only [follow, hcontent, if_true, Except.ok.injEq] at hsame
  rw [hsame]

theorem walk_concat {names : List String} {name : String} {folder : Place}
    (h : d.walk path names = .ok folder) (hfollow : d.follow folder name = .ok place) :
    d.walk path (names ++ [name]) = .ok place := by
  unfold walk at h ⊢
  split_ifs at h ⊢
  rw [List.foldlM_append]
  refine Except.bind_eq_ok_iff.mpr ⟨folder, h, ?_⟩
  rw [List.foldlM_cons, hfollow]
  rfl

/-! ## Places for files -/

/-- A file can be put under the path, and comes to this place. -/
def Slot (d : Disk) (path : String) (place : Place) : Prop :=
  ∃ folder name, d.entry path = .ok (some (folder, name)) ∧ Path.endsInSlash path = false ∧
    d.follow folder name = .ok place ∧ d.content place ≠ .folder

theorem entry_eq_ok_iff {folder : Place} {name : String} :
    d.entry path = .ok (some (folder, name)) ↔
      d.walk path ((Path.names path).dropLast ++ ["."]) = .ok folder ∧
        (Path.names path).getLast?.filter (!Path.isDots ·) = some name := by
  simp only [entry, Except.bind_eq_ok_iff, pure, Except.pure, Except.ok.injEq,
    Option.map_eq_some_iff, Prod.mk.injEq]
  constructor
  · rintro ⟨y, hwalk, name', hname, rfl, rfl⟩
    exact ⟨hwalk, hname⟩
  · rintro ⟨hwalk, hname⟩
    exact ⟨folder, hwalk, name, hname, rfl, rfl⟩

theorem Slot.unique {place' : Place} (h : d.Slot path place) (h' : d.Slot path place') :
    place = place' := by
  obtain ⟨folder, name, hentry, -, hfollow, -⟩ := h
  obtain ⟨folder', name', hentry', -, hfollow', -⟩ := h'
  rw [hentry] at hentry'
  cases hentry'
  rw [hfollow] at hfollow'
  cases hfollow'
  rfl

theorem Slot.free (h : d.Slot path place) : d.content place ≠ .folder := by
  obtain ⟨-, -, -, -, -, hfree⟩ := h
  exact hfree

/-- As long as the folders stay, a path keeps its place. -/
theorem Slot.keeps (h : d.Slot path place) (hkeeps : d.Keeps e)
    (hfree : e.content place ≠ .folder) : e.Slot path place := by
  obtain ⟨folder, name, hentry, hslash, hfollow, -⟩ := h
  obtain ⟨hwalk, hname⟩ := entry_eq_ok_iff.mp hentry
  exact ⟨folder, name, entry_eq_ok_iff.mpr ⟨hkeeps.walk hwalk, hname⟩, hslash,
    hkeeps.follow hfollow, hfree⟩

theorem Slot.alike (h : d.Slot path place) (halike : d.Alike e) : e.Slot path place := by
  apply h.keeps halike.keeps
  rw [Ne, ← Content.eq_folder_iff (halike place)]
  exact h.free

/-- A file that was put at the place of a path can be replaced there. -/
theorem Slot.put (h : d.Slot path place) : (d.put place text).Slot path place := by
  apply h.keeps (keeps_put h.free)
  rw [content_put, if_pos rfl]
  exact nofun

theorem write_eq_ok_iff :
    d.write path text = .ok d' ↔ ∃ place, d.Slot path place ∧ d' = d.put place text := by
  constructor
  · intro h
    obtain ⟨found, hentry, h⟩ := Except.bind_eq_ok_iff.mp h
    split at h
    · cases h
    · next folder name =>
        split at h
        · cases h
        · next hslash =>
            obtain ⟨place, hfollow, h⟩ := Except.bind_eq_ok_iff.mp h
            split at h
            · cases h
            · next hfree =>
                cases h
                exact ⟨place, ⟨folder, name, hentry, Bool.eq_false_iff.mpr hslash, hfollow, hfree⟩,
                  rfl⟩
  · rintro ⟨place, ⟨folder, name, hentry, hslash, hfollow, hfree⟩, rfl⟩
    refine Except.bind_eq_ok_iff.mpr ⟨_, hentry, ?_⟩
    simp only [hslash, Bool.false_eq_true, if_false]
    refine Except.bind_eq_ok_iff.mpr ⟨_, hfollow, ?_⟩
    split
    · next hfolder => exact absurd hfolder hfree
    · rfl

variable {source target : String}

theorem move_eq_ok_iff :
    d.move source target = .ok d' ↔ ∃ old new text, d.Slot source old ∧ d.Slot target new ∧
      d.content old = .file text ∧ d' = (d.erase old).put new text := by
  constructor
  · intro h
    obtain ⟨found, hentry, h⟩ := Except.bind_eq_ok_iff.mp h
    obtain ⟨found', hentry', h⟩ := Except.bind_eq_ok_iff.mp h
    rcases found with _ | ⟨folder, name⟩ <;> rcases found' with _ | ⟨newFolder, newName⟩
    · cases h
    · cases h
    · cases h
    · obtain ⟨old, hold, h⟩ := Except.bind_eq_ok_iff.mp h
      obtain ⟨new, hnew, h⟩ := Except.bind_eq_ok_iff.mp h
      split at h
      · cases h
      · cases h
      · next text htext =>
          split at h
          · cases h
          · next hslash =>
              rw [Bool.or_eq_true, not_or, Bool.not_eq_true, Bool.not_eq_true] at hslash
              split at h
              · cases h
              · next hfree =>
                  cases h
                  exact ⟨old, new, text,
                    ⟨folder, name, hentry, hslash.1, hold, by rw [htext]; exact nofun⟩,
                    ⟨newFolder, newName, hentry', hslash.2, hnew, hfree⟩, htext, rfl⟩
  · rintro ⟨old, new, text, ⟨folder, name, hentry, hslash, hold, -⟩,
      ⟨newFolder, newName, hentry', hslash', hnew, hfree⟩, htext, rfl⟩
    refine Except.bind_eq_ok_iff.mpr ⟨_, hentry, Except.bind_eq_ok_iff.mpr ⟨_, hentry', ?_⟩⟩
    refine Except.bind_eq_ok_iff.mpr ⟨_, hold, Except.bind_eq_ok_iff.mpr ⟨_, hnew, ?_⟩⟩
    simp only [htext, hslash, hslash', Bool.or_self, Bool.false_eq_true, if_false]

/-- What is put at the place of a path is read from there. -/
theorem Slot.read (h : d.Slot path place) (hkeeps : d.Keeps e)
    (htext : e.content place = .file text) : e.isPresent path = true ∧ e.read path = .ok text := by
  obtain ⟨folder, name, hentry, hslash, hfollow, -⟩ :=
    h.keeps hkeeps (by rw [htext]; exact nofun)
  obtain ⟨hwalk, hname⟩ := entry_eq_ok_iff.mp hentry
  have hnames : (Path.names path).dropLast ++ [name] = Path.names path := by
    obtain ⟨hlast, -⟩ := Option.filter_eq_some_iff.mp hname
    exact List.dropLast_append_getLast? _ hlast
  have hlocate : e.locate path = .ok place := by
    have hway := walk_concat (walk_concat_dot hwalk) hfollow
    rw [hnames] at hway
    refine Except.bind_eq_ok_iff.mpr ⟨place, hway, ?_⟩
    simp only [htext, hslash, Bool.false_eq_true, if_false]
  constructor
  · simp only [isPresent, hlocate, htext]
  · refine Except.bind_eq_ok_iff.mpr ⟨_, hlocate, ?_⟩
    rw [htext]

end Disk

namespace Command

variable {d d' : Disk} {path : String} {c : Config}

/-! ## Steps that succeed -/

theorem run_bind_eq_ok_iff {β γ : Type} {x : Attempt (StateM Disk) β}
    {f : β → Attempt (StateM Disk) γ} {z : γ} :
    (x >>= f).run.run d = (.ok z, d') ↔
      ∃ y d₁, x.run.run d = (.ok y, d₁) ∧ (f y).run.run d₁ = (.ok z, d') := by
  rw [ExceptT.run_bind, StateT.run_bind]
  rcases hx : x.run.run d with ⟨_ | y, d₁⟩
  · constructor
    · intro h
      cases h
    · rintro ⟨y, d₂, h, -⟩
      cases h
  · constructor
    · exact fun h => ⟨y, d₁, rfl, h⟩
    · rintro ⟨y', d₂, h, hf⟩
      cases h
      exact hf

theorem run_lift_eq_ok_iff {β : Type} {doing : String} {action : StateM Disk (Except FileError β)}
    {y : β} : (lift (during doing FileError.message <$> action) :
      Attempt (StateM Disk) β).run.run d = (.ok y, d') ↔ action d = (.ok y, d') := by
  show (during doing FileError.message (action d).1, (action d).2) = (.ok y, d') ↔ _
  rcases action d with ⟨_ | x, d₁⟩
  · exact ⟨nofun, nofun⟩
  · constructor
    · intro h
      cases h
      rfl
    · intro h
      cases h
      rfl

theorem attempt_eq_ok_iff {change : Disk → Except FileError Disk} :
    Disk.attempt change d = (.ok (), d') ↔ change d = .ok d' := by
  unfold Disk.attempt
  cases change d with
  | error e => exact ⟨nofun, nofun⟩
  | ok d₁ =>
      constructor
      · intro h
        cases h
        rfl
      · intro h
        cases h
        rfl

/-- A configuration that breaks a rule is refused before anything is done. -/
theorem writeConfig_of_fault {f : ConfigFault} (h : c.validate = .error f) :
    (writeConfig path c : Attempt (StateM Disk) Unit).run.run d = (.error f.message, d) := by
  unfold writeConfig
  rw [Config.document_of_fault h]
  rfl

/-- A configuration is written if it is valid, its folder can be made, and there are places for it
and its draft. -/
theorem writeConfig_eq_ok_iff :
    (writeConfig path c : Attempt (StateM Disk) Unit).run.run d = (.ok (), d') ↔
      c.validate = .ok () ∧ ∃ folder d₁ place new, Path.parent? path = some folder ∧
        (Host.makeFolders folder : StateM Disk (Except FileError Unit)) d = (.ok (), d₁) ∧
        d₁.Slot (Path.withExtension path "toml.tmp") place ∧
        (d₁.put place c.text).Slot path new ∧
        d' = ((d₁.put place c.text).erase place).put new c.text := by
  rcases hvalid : c.validate with f | ⟨⟩
  · rw [writeConfig_of_fault hvalid]
    exact ⟨nofun, nofun⟩
  unfold writeConfig
  rw [Config.document_of_validate hvalid]
  cases Path.parent? path with
  | none => exact ⟨nofun, nofun⟩
  | some folder =>
    simp only [pure_bind]
    simp only [run_bind_eq_ok_iff, run_lift_eq_ok_iff]
    constructor
    · rintro ⟨⟨⟩, d₁, hfolders, ⟨⟩, d₂, hwrite, hmove⟩
      obtain ⟨place, hplace, rfl⟩ := Disk.write_eq_ok_iff.mp (attempt_eq_ok_iff.mp hwrite)
      obtain ⟨old, new, text, hold, hnew, htext, rfl⟩ :=
        Disk.move_eq_ok_iff.mp (attempt_eq_ok_iff.mp hmove)
      -- the draft is still where it was put
      obtain rfl : place = old := hplace.put.unique hold
      obtain rfl : c.text = text := by
        rw [Disk.content_put, if_pos rfl] at htext
        cases htext
        rfl
      exact ⟨trivial, folder, d₁, place, new, rfl, hfolders, hplace, hnew, rfl⟩
    · rintro ⟨-, folder', d₁, place, new, hparent, hfolders, hplace, hnew, rfl⟩
      cases hparent
      refine ⟨(), d₁, hfolders, (), d₁.put place c.text, ?_, ?_⟩
      · exact attempt_eq_ok_iff.mpr (Disk.write_eq_ok_iff.mpr ⟨place, hplace, rfl⟩)
      · have htext : (d₁.put place c.text).content place = .file c.text := by
          rw [Disk.content_put, if_pos rfl]
        exact attempt_eq_ok_iff.mpr
          (Disk.move_eq_ok_iff.mpr ⟨place, new, c.text, hplace.put, hnew, htext, rfl⟩)

/-! ## Saving and loading -/

/-- What was moved to a path is present and read. -/
theorem read_of_writeConfig
    (h : (writeConfig path c : Attempt (StateM Disk) Unit).run.run d = (.ok (), d')) :
    d'.isPresent path = true ∧ d'.read path = .ok c.text := by
  obtain ⟨-, folder, d₁, place, new, -, -, hplace, hnew, rfl⟩ := writeConfig_eq_ok_iff.mp h
  refine hnew.read ?_ ?_
  · intro p hp
    have hfree : p ≠ place := by
      rintro rfl
      rw [Disk.content_put, if_pos rfl] at hp
      cases hp
    have hfree' : p ≠ new := by
      rintro rfl
      exact hnew.free hp
    rw [Disk.content_put, if_neg hfree', Disk.content_erase hfree, hp]
  · rw [Disk.content_put, if_pos rfl]

/-- Whether a valid configuration is written does not depend on what it says. -/
theorem exists_writeConfig {c c' : Config} (hc' : c'.validate = .ok ())
    (h : (writeConfig path c : Attempt (StateM Disk) Unit).run.run d = (.ok (), d')) :
    ∃ d'', (writeConfig path c' : Attempt (StateM Disk) Unit).run.run d = (.ok (), d'') := by
  obtain ⟨-, folder, d₁, place, new, hparent, hfolders, hplace, hnew, -⟩ :=
    writeConfig_eq_ok_iff.mp h
  have hnew' := hnew.alike (Disk.alike_put d₁ place c.text c'.text)
  exact ⟨_, writeConfig_eq_ok_iff.mpr
    ⟨hc', folder, d₁, place, new, hparent, hfolders, hplace, hnew', rfl⟩⟩

theorem run_isPresent (d : Disk) (path : String) :
    (lift (.ok <$> Host.isPresent path) : Attempt (StateM Disk) Bool).run.run d =
      (.ok (d.isPresent path), d) := rfl

theorem loadConfig_of_read {text : String} (hpresent : d.isPresent path = true)
    (hread : d.read path = .ok text) (hc : Config.ofDocument text = .ok c) :
    (loadConfig path : Attempt (StateM Disk) Config).run.run d = (.ok c, d) := by
  have hfile : (lift (during ("read " ++ path) FileError.message <$> Host.readFile path) :
      Attempt (StateM Disk) String).run.run d = (.ok text, d) :=
    run_lift_eq_ok_iff.mpr (congrArg (·, d) hread)
  unfold loadConfig
  rw [run_bind_of_run (run_isPresent d path), if_pos hpresent, run_bind_of_run hfile, hc]
  rfl

/-- Loading only looks at the disk, and finds nothing but valid configurations. -/
theorem validate_of_loadConfig
    (h : (loadConfig path : Attempt (StateM Disk) Config).run.run d = (.ok c, d')) :
    c.validate = .ok () ∧ d' = d := by
  unfold loadConfig at h
  rw [run_bind_of_run (run_isPresent d path)] at h
  split_ifs at h with hpresent
  · obtain ⟨text, d₁, hfile, h⟩ := run_bind_eq_ok_iff.mp h
    obtain ⟨-, rfl⟩ : d.read path = .ok text ∧ d = d₁ :=
      Prod.ext_iff.mp (run_lift_eq_ok_iff.mp hfile)
    split at h
    · next hc =>
        cases h
        exact ⟨Config.validate_of_ofDocument hc, rfl⟩
    · cases h
    · cases h
  · cases h
    exact ⟨Config.validate_default, rfl⟩

end Command

end RegionNet
