import Mathlib.Data.List.Nodup
import Mathlib.Data.List.Flatten
import RegionNet.Status

/-!
# Reports

Facts about status reports that hold for every layout, net and marking. A report has one line for
each region, in document order. The line of a region either says that another branch was taken or
tells the state that the region has by itself, whatever lies above it (`Status.lookup_report`).
-/

namespace RegionNet

namespace Layout

/-- A property of all layouts holds if it passes from the children of a node to the node. -/
theorem ind {motive : Layout → Prop}
    (node : ∀ i cs, (∀ c ∈ cs, motive c) → motive (.node i cs)) (l : Layout) : motive l :=
  Layout.rec (motive_1 := motive) (motive_2 := fun cs => ∀ c ∈ cs, motive c)
    node
    (fun _ h => absurd h List.not_mem_nil)
    (fun _ _ hl hls _ hc => by
      rcases List.mem_cons.mp hc with rfl | hc
      · exact hl
      · exact hls _ hc)
    l

mutual

/-- The tree itself and all trees in it. -/
def subtrees : Layout → List Layout
  | .node i cs => .node i cs :: subtreesAll cs

def subtreesAll : List Layout → List Layout
  | [] => []
  | l :: ls => l.subtrees ++ subtreesAll ls

end

theorem mem_subtreesAll {l : Layout} {ls : List Layout} :
    l ∈ subtreesAll ls ↔ ∃ c ∈ ls, l ∈ c.subtrees := by
  induction ls with
  | nil => simp [subtreesAll]
  | cons c ls ih => simp [subtreesAll, ih]

theorem infosAll_eq_flatMap (ls : List Layout) : infosAll ls = ls.flatMap infos := by
  induction ls with
  | nil => rfl
  | cons l ls ih => rw [infosAll, ih, List.flatMap_cons]

end Layout

namespace Status

variable {α : Type} [Quantity α] {net : Net α} {m : Marking α}

theorem reports_eq_map (cs : List Layout) : reports net m cs = cs.map (report net m) := by
  induction cs with
  | nil => rfl
  | cons c cs ih => rw [reports, ih, List.map_cons]

/-! ## The lines of a report -/

theorem ids_struckOut (r : Report) : r.struckOut.map Prod.fst = r.entries.map Prod.fst := by
  unfold Report.struckOut
  rw [List.map_map]
  rfl

theorem ids_merge (chosen : Option Nat) (rs : List Report) :
    (Report.merge chosen rs).map Prod.fst = rs.flatMap fun r => r.entries.map Prod.fst := by
  have hlines : (Report.merge chosen rs).map Prod.fst =
      rs.zipIdx.flatMap fun ri => ri.1.entries.map Prod.fst := by
    unfold Report.merge
    rw [List.map_flatMap]
    apply List.flatMap_congr
    rintro ⟨r, i⟩ _
    cases chosen with
    | none => rfl
    | some c =>
        by_cases hi : i = c
        · simp [hi]
        · simp only [hi, if_false, ids_struckOut]
  rw [hlines, ← List.flatMap_map Prod.fst fun r : Report => r.entries.map Prod.fst,
    List.zipIdx_map_fst]

/-- A report has one line for each region, in document order. -/
theorem ids_report (l : Layout) :
    (report net m l).entries.map Prod.fst = l.infos.map RegionInfo.id := by
  induction l using Layout.ind with
  | node i cs ih =>
      rw [report, Layout.infos, List.map_cons, List.map_cons, ids_merge, reports_eq_map,
        List.flatMap_map, List.flatMap_congr ih, Layout.infosAll_eq_flatMap, List.map_flatMap]

theorem mem_merge {chosen : Option Nat} {rs : List Report} {r : Report} {id : String}
    {a : Activity} (hr : r ∈ rs) (ha : (id, a) ∈ r.entries) :
    (id, a) ∈ Report.merge chosen rs ∨ (id, .willNotBeExecuted) ∈ Report.merge chosen rs := by
  obtain ⟨i, hi⟩ := List.mem_iff_getElem?.mp hr
  have hmem : (r, i) ∈ rs.zipIdx := List.mk_mem_zipIdx_iff_getElem?.mpr hi
  have hout : (id, Activity.willNotBeExecuted) ∈ r.struckOut := List.mem_map.mpr ⟨_, ha, rfl⟩
  unfold Report.merge
  simp only [List.mem_flatMap]
  cases chosen with
  | none => exact Or.inl ⟨_, hmem, ha⟩
  | some c =>
      by_cases hc : i = c
      · exact Or.inl ⟨_, hmem, by simpa [hc] using ha⟩
      · exact Or.inr ⟨_, hmem, by simpa [hc] using hout⟩

/-- There is a line for each region: it is struck out or has its own state. -/
theorem mem_report {l s : Layout} (hs : s ∈ l.subtrees) :
    ∃ a, (s.info.id, a) ∈ (report net m l).entries ∧
      (a = .willNotBeExecuted ∨ a = (report net m s).state) := by
  induction l using Layout.ind with
  | node i cs ih =>
      rcases List.mem_cons.mp hs with rfl | hs
      · exact ⟨_, List.mem_cons_self, Or.inr rfl⟩
      · obtain ⟨c, hc, hs⟩ := Layout.mem_subtreesAll.mp hs
        obtain ⟨a, ha, hstate⟩ := ih c hc hs
        have hreport : report net m c ∈ reports net m cs := by
          rw [reports_eq_map]
          exact List.mem_map_of_mem hc
        rw [report]
        rcases mem_merge hreport ha with hmem | hmem
        · exact ⟨a, List.mem_cons_of_mem _ hmem, hstate⟩
        · exact ⟨_, List.mem_cons_of_mem _ hmem, Or.inl rfl⟩

theorem lookup_of_mem {β : Type} {k : String} {v : β} {xs : List (String × β)}
    (hnodup : (xs.map Prod.fst).Nodup) (h : (k, v) ∈ xs) : xs.lookup k = some v := by
  induction xs with
  | nil => cases h
  | cons x xs ih =>
      obtain ⟨k', v'⟩ := x
      rw [List.map_cons, List.nodup_cons] at hnodup
      rcases List.mem_cons.mp h with he | h
      · cases he
        exact List.lookup_cons_self
      · have hk : k ∈ xs.map Prod.fst := List.mem_map_of_mem (f := Prod.fst) h
        have hne : k ≠ k' := fun he => hnodup.1 (he ▸ hk)
        rw [List.lookup_cons, beq_false_of_ne hne]
        exact ih hnodup.2 h

/-- Where ids differ, a region's line is the only one with its id. -/
theorem lookup_report {l s : Layout} (hnodup : (l.infos.map RegionInfo.id).Nodup)
    (hs : s ∈ l.subtrees) :
    (report net m l).entries.lookup s.info.id = some .willNotBeExecuted ∨
      (report net m l).entries.lookup s.info.id = some (report net m s).state := by
  obtain ⟨a, ha, hstate⟩ : ∃ a, (s.info.id, a) ∈ (report net m l).entries ∧
      (a = .willNotBeExecuted ∨ a = (report net m s).state) := mem_report hs
  have hids : (report net m l).entries.map Prod.fst = l.infos.map RegionInfo.id := ids_report l
  rw [← hids] at hnodup
  have hlookup := lookup_of_mem hnodup ha
  rcases hstate with rfl | rfl
  · exact Or.inl hlookup
  · exact Or.inr hlookup

end Status

end RegionNet
