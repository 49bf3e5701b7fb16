import RegionNet.Proofs.Word

/-!
# Settings read back

A configuration is written as one line for each of its settings (`Config.lines_eq`), and each line
is read as one more entry of the document (`Toml.linesFor_line`). So the document of a valid
configuration is read as that configuration (`Config.ofDocument_text`), and nothing but a valid
configuration is ever read (`Config.validate_of_ofDocument`).
-/

namespace RegionNet

namespace Toml

/-! ## One line -/

/-- A key that is written without quotes. -/
structure BareKey (key : String) : Prop where
  ne_nil : key.toList ≠ []
  bare : ∀ c ∈ key.toList, isBare c = true

variable {k : String} {text : List Char} {v : Toml} {es : Entries}

theorem BareKey.exists_cons (h : BareKey k) :
    ∃ c cs, k.toList = c :: cs ∧ ∀ d, isBare d = false → c ≠ d := by
  obtain ⟨c, cs, hcons⟩ := List.exists_cons_of_ne_nil h.ne_nil
  refine ⟨c, cs, hcons, ?_⟩
  rintro d hd rfl
  rw [h.bare c (hcons ▸ List.mem_cons_self)] at hd
  cases hd

theorem skipIndent_of_head {c : Char} (h : isIndent c = false) (cs : List Char) :
    skipIndent (c :: cs) = c :: cs := by
  rw [skipIndent, List.dropWhile_cons_of_neg (by simp [h])]

/-- The head of a key is neither white space nor a mark of the document. -/
theorem BareKey.skipIndent (h : BareKey k) (cs : List Char) :
    skipIndent (k.toList ++ cs) = k.toList ++ cs := by
  obtain ⟨c, k', hcons, hne⟩ := h.exists_cons
  rw [hcons, List.cons_append]
  refine skipIndent_of_head ?_ _
  simp only [isIndent, Bool.or_eq_false_iff, decide_eq_false_iff_not]
  exact ⟨hne ' ' (by decide), hne '\t' (by decide)⟩

theorem keyPart_bare (h : BareKey k) {c : Char} (hc : isBare c = false) (cs : List Char) :
    keyPart (k.toList ++ c :: cs) = some (k, c :: cs) := by
  have htake : (k.toList ++ c :: cs).takeWhile isBare = k.toList := by
    rw [List.takeWhile_append_of_pos h.bare, List.takeWhile_cons_of_neg (by simp [hc]),
      List.append_nil]
  have hdrop : (k.toList ++ c :: cs).dropWhile isBare = c :: cs := by
    rw [List.dropWhile_append_of_pos h.bare, List.dropWhile_cons_of_neg (by simp [hc])]
  obtain ⟨c', k', hcons, hne⟩ := h.exists_cons
  unfold keyPart
  split
  · next heq =>
      rw [hcons, List.cons_append] at heq
      exact absurd (List.cons.inj heq).1 (hne _ (by decide))
  · next heq =>
      rw [hcons, List.cons_append] at heq
      exact absurd (List.cons.inj heq).1 (hne _ (by decide))
  · rw [htake, hdrop]
    split
    · next heq => exact absurd heq h.ne_nil
    · rw [String.ofList_toList]

theorem keyValue_line (hkey : BareKey k) (hv : Writes text v) (rest : List Char) :
    keyValue skipIndent value (k.toList ++ ' ' :: '=' :: ' ' :: (text ++ '\n' :: rest)) =
      some (([k], v), '\n' :: rest) := by
  have hpart := keyPart_bare hkey (c := ' ') (by decide) ('=' :: ' ' :: (text ++ '\n' :: rest))
  have hblank : ∀ cs, Toml.skipIndent (' ' :: cs) = Toml.skipIndent cs := fun cs => rfl
  have hequals : ∀ cs, Toml.skipIndent ('=' :: cs) = '=' :: cs :=
    fun cs => skipIndent_of_head (by decide) cs
  have hkey' : key (k.toList ++ ' ' :: '=' :: ' ' :: (text ++ '\n' :: rest)) =
      some ([k], '=' :: ' ' :: (text ++ '\n' :: rest)) := by
    unfold key maxParts keyFor
    simp only [hkey.skipIndent, hpart, hblank, hequals, Option.bind_eq_bind, Option.bind_some]
    rfl
  obtain ⟨c, cs, hcons, hc⟩ := hv.starts
  have htext : Toml.skipIndent (text ++ '\n' :: rest) = text ++ '\n' :: rest := by
    rw [hcons]
    exact skipIndent_of_head hc _
  simp only [keyValue, hkey', hequals, hblank, htext, hv.reads, Option.bind_eq_bind,
    Option.bind_some]

theorem alter_new {f : Option Toml → Option Toml} (hnew : es.get? k = none) (hf : f none = some v) :
    Entries.alter k f es = some (es ++ [(k, v)]) := by
  induction es with
  | nil => rw [Entries.alter, hf]; rfl
  | cons e es ih =>
      obtain ⟨key, old⟩ := e
      rw [Entries.get?, List.lookup_cons] at hnew
      by_cases hkey : k = key
      · rw [hkey, beq_self_eq_true] at hnew
        cases hnew
      · rw [show (k == key) = false from beq_false_of_ne hkey] at hnew
        rw [Entries.alter, if_neg hkey, ih hnew]
        rfl

/-- A line with a new key adds one entry. -/
theorem linesFor_line (hkey : BareKey k) (hv : Writes text v) (hnew : es.get? k = none) (n : Nat)
    (rest : List Char) :
    linesFor (n + 1) [] es (Config.line k text ++ rest) =
      linesFor n [] (es ++ [(k, v)]) rest := by
  have hline : Config.line k text ++ rest =
      k.toList ++ ' ' :: '=' :: ' ' :: (text ++ '\n' :: rest) := by
    simp [Config.line]
  have hassign : assignBelow [] [k] v es = some (es ++ [(k, v)]) := by
    show assign v true [k] es = _
    rw [assign, if_pos rfl]
    exact alter_new hnew rfl
  have hpair := keyValue_line hkey hv rest
  have hskip := hkey.skipIndent (' ' :: '=' :: ' ' :: (text ++ '\n' :: rest))
  obtain ⟨c, k', hcons, hne⟩ := hkey.exists_cons
  rw [hcons, List.cons_append] at hpair hskip
  have hmark : ¬(c = '#' ∨ c = '\n' ∨ c = '\r') := by
    rintro (h | h | h) <;> exact hne _ (by decide) h
  rw [hline, hcons, List.cons_append, linesFor, hskip]
  split
  · next heq => cases heq
  · next heq => exact absurd (List.cons.inj heq).1 (hne _ (by decide))
  · next heq => exact absurd (List.cons.inj heq).1 (hne _ (by decide))
  · next heq =>
      obtain ⟨rfl, rfl⟩ := List.cons.inj heq
      rw [if_neg hmark, hpair]
      simp only [Option.bind_eq_bind, Option.bind_some, hassign]
      rfl

/-! ## All lines -/

/-- A line of a document: a key, its value, and the text of the value. -/
structure Setting where
  key : String
  text : List Char
  value : Toml

namespace Setting

def entry (s : Setting) : String × Toml := (s.key, s.value)

def line (s : Setting) : List Char := Config.line s.key s.text

/-- The line can be read. -/
structure Readable (s : Setting) : Prop where
  bare : BareKey s.key
  writes : Writes s.text s.value

end Setting

theorem get?_append {es es' : Entries} (h : es.get? k = none) (h' : es'.get? k = none) :
    Entries.get? (es ++ es') k = none := by
  rw [Entries.get?, List.lookup_append]
  rw [Entries.get?] at h h'
  rw [h, h']
  rfl

theorem linesFor_settings {ss : List Setting} (hss : ∀ s ∈ ss, s.Readable)
    (hkeys : (ss.map Setting.key).Nodup) (hnew : ∀ s ∈ ss, es.get? s.key = none) (n : Nat)
    (rest : List Char) :
    linesFor (n + ss.length) [] es (ss.flatMap Setting.line ++ rest) =
      linesFor n [] (es ++ ss.map Setting.entry) rest := by
  induction ss generalizing es with
  | nil => simp
  | cons s ss ih =>
      obtain ⟨hs, hss⟩ := List.forall_mem_cons.mp hss
      obtain ⟨hfresh, hnew⟩ := List.forall_mem_cons.mp hnew
      obtain ⟨hkey, hkeys⟩ := List.nodup_cons.mp hkeys
      have hnext : ∀ t ∈ ss, Entries.get? (es ++ [s.entry]) t.key = none := by
        intro t ht
        refine get?_append (hnew t ht) ?_
        have hne : t.key ≠ s.key := fun h => hkey (h ▸ List.mem_map_of_mem ht)
        simp [Entries.get?, Setting.entry, List.lookup_cons, beq_false_of_ne hne]
      have hstep := linesFor_line hs.bare hs.writes hfresh (n + ss.length)
        (ss.flatMap Setting.line ++ rest)
      have hrest := ih hss hkeys hnext
      rw [List.flatMap_cons, List.append_assoc, List.length_cons, ← Nat.add_assoc]
      rw [List.append_assoc, ← List.map_singleton, ← List.map_append] at hrest
      exact hstep.trans hrest

theorem length_le_flatMap_line (ss : List Setting) :
    ss.length ≤ (ss.flatMap Setting.line).length := by
  induction ss with
  | nil => exact Nat.le_refl _
  | cons s ss ih =>
      have hline : 0 < s.line.length := by simp [Setting.line, Config.line]
      rw [List.flatMap_cons, List.length_append, List.length_cons]
      omega

/-- A document of nothing but lines is read as their entries. -/
theorem document_settings {ss : List Setting} (hss : ∀ s ∈ ss, s.Readable)
    (hkeys : (ss.map Setting.key).Nodup) :
    document (ss.flatMap Setting.line ++ ['\n']) = some (ss.map Setting.entry) := by
  have hmark : withoutMark (ss.flatMap Setting.line ++ ['\n']) =
      ss.flatMap Setting.line ++ ['\n'] := by
    cases ss with
    | nil => rfl
    | cons s ss =>
        obtain ⟨c, cs, hcons, hne⟩ := (hss s List.mem_cons_self).bare.exists_cons
        have hc := hne '\uFEFF' (by decide)
        simp only [List.flatMap_cons, Setting.line, Config.line, hcons, List.cons_append]
        unfold withoutMark
        split
        · next heq => exact absurd (List.cons.inj heq).1 hc
        · rfl
  have hlength := length_le_flatMap_line ss
  obtain ⟨n, hn⟩ : ∃ n, (ss.flatMap Setting.line ++ ['\n']).length + 1 = n + 2 + ss.length :=
    ⟨(ss.flatMap Setting.line).length - ss.length, by
      rw [List.length_append, List.length_singleton]
      omega⟩
  rw [document, hmark, hn, linesFor_settings hss hkeys (fun _ _ => rfl)]
  rfl

end Toml

namespace StrategyKind

theorem ofKeyword?_keyword (k : StrategyKind) : ofKeyword? k.keyword = some k := by
  cases k <;> decide

theorem writes_keyword (k : StrategyKind) :
    Toml.Writes ('"' :: k.keyword.toList ++ ['"']) (.string k.keyword) := by
  have hne : k.keyword.toList ≠ [] := by cases k <;> decide
  have hplain : k.keyword.toList.all Toml.isPlain = true := by cases k <;> decide
  have h := Toml.writes_quoted hne (List.all_eq_true.mp hplain)
  rwa [String.ofList_toList] at h

end StrategyKind

namespace Config

open Toml (Setting)

/-! ## Configurations -/

/-- The settings of a configuration. Those without a value are left out. -/
def settings (c : Config) : List Setting :=
  [⟨"strategy", '"' :: c.strategy.keyword.toList ++ ['"'], .string c.strategy.keyword⟩] ++
  (c.timeStep.toList.map fun dt =>
    ⟨"time_step", Decimal.write numberStyle dt, .scalar (.float dt)⟩) ++
  (c.seed.toList.map fun seed => ⟨"seed", digits seed.toNat, .scalar (.integer seed.toNat)⟩) ++
  [⟨"max_steps", digits c.maxSteps.toNat, .scalar (.integer c.maxSteps.toNat)⟩,
    ⟨"max_rounds", digits c.maxRounds.toNat, .scalar (.integer c.maxRounds.toNat)⟩]

theorem lines_eq (c : Config) : c.lines = c.settings.flatMap Setting.line := by
  rcases c with ⟨strategy, _ | dt, _ | seed, maxSteps, maxRounds⟩ <;>
    simp [lines, settings, Setting.line]

theorem nodup_settings (c : Config) : (c.settings.map Setting.key).Nodup := by
  rcases c with ⟨strategy, _ | dt, _ | seed, maxSteps, maxRounds⟩ <;> simp [settings]

theorem fault_of_validate {c : Config} (h : c.validate = .ok ()) : c.fault = none := by
  unfold validate at h
  split at h
  · cases h
  · assumption

theorem isFinite_timeStep {c : Config} (h : c.validate = .ok ()) :
    ∀ dt ∈ c.timeStep, dt.isFinite = true := by
  intro dt hdt
  have hfault := fault_of_validate h
  rw [fault, timeStepFault, Option.mem_def.mp hdt] at hfault
  by_contra hfinite
  rw [Bool.not_eq_true] at hfinite
  simp [hfinite] at hfault

theorem readable_settings {c : Config} (h : c.validate = .ok ()) :
    ∀ s ∈ c.settings, s.Readable := by
  have hbare : ∀ k ∈ ["strategy", "time_step", "seed", "max_steps", "max_rounds"],
      k.toList ≠ [] ∧ k.toList.all Toml.isBare = true := by decide
  have hkey : ∀ k ∈ ["strategy", "time_step", "seed", "max_steps", "max_rounds"],
      Toml.BareKey k := fun k hk => ⟨(hbare k hk).1, List.all_eq_true.mp (hbare k hk).2⟩
  intro s hs
  simp only [settings, List.mem_append, List.mem_map, Option.mem_toList, List.mem_cons,
    List.not_mem_nil, or_false] at hs
  rcases hs with ((rfl | ⟨dt, hdt, rfl⟩) | ⟨seed, hseed, rfl⟩) | rfl | rfl
  · exact ⟨hkey _ (by simp), c.strategy.writes_keyword⟩
  · exact ⟨hkey _ (by simp), Toml.writes_number (isFinite_timeStep h dt hdt)⟩
  · exact ⟨hkey _ (by simp), Toml.writes_digits seed.toNat_lt⟩
  · exact ⟨hkey _ (by simp), Toml.writes_digits c.maxSteps.toNat_lt⟩
  · exact ⟨hkey _ (by simp), Toml.writes_digits c.maxRounds.toNat_lt⟩

theorem readCount_toNat (n : UInt64) : readCount (.scalar (.integer n.toNat)) = some n := by
  have hlt : n.toNat < UInt64.size := n.toNat_lt
  simp [readCount, Int.toNat?, hlt]

theorem ofEntries_settings (c : Config) : ofEntries (c.settings.map Setting.entry) = some c := by
  have hstrategy : ∀ k : StrategyKind, readStrategy (.string k.keyword) = some k :=
    fun k => k.ofKeyword?_keyword
  have hnumber : ∀ dt, readNumber (.scalar (.float dt)) = some dt := fun _ => rfl
  rcases c with ⟨strategy, _ | dt, _ | seed, maxSteps, maxRounds⟩ <;>
    simp [settings, ofEntries, field, Setting.entry, Toml.Entries.get?, List.lookup, hstrategy,
      hnumber, readCount_toNat, default]

/-- The text of a configuration. -/
def text (c : Config) : String := String.ofList (c.lines ++ ['\n'])

theorem document_of_validate {c : Config} (h : c.validate = .ok ()) :
    c.document = .ok c.text := by
  rw [document, h]
  rfl

theorem document_of_fault {c : Config} {f : ConfigFault} (h : c.validate = .error f) :
    c.document = .error f := by
  rw [document, h]

/-- What is written of a valid configuration is read as it was. -/
theorem ofDocument_text {c : Config} (h : c.validate = .ok ()) : ofDocument c.text = .ok c := by
  have hentries := Toml.document_settings (readable_settings h) c.nodup_settings
  simp only [ofDocument, text, String.toList_ofList, lines_eq, hentries, Option.bind_some,
    ofEntries_settings, h]

/-- What is read satisfies the rules. -/
theorem validate_of_ofDocument {c : Config} {text : String} (h : ofDocument text = .ok c) :
    c.validate = .ok () := by
  unfold ofDocument at h
  split at h
  · cases h
  · split at h
    · cases h
    · next hvalid =>
        cases h
        exact hvalid

theorem validate_default : default.validate = .ok () := by decide

end Config

end RegionNet
