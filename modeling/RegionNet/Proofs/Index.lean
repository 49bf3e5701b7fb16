import RegionNet.Proofs.Arrival
import RegionNet.Proofs.Changes

/-!
# The list of regions

The layout of a workflow is listed line by line, and the links between the lines are positions in
the list. A piece whose lines start at a position has its own line there, and its children point to
the lines of the pieces right below it, in their order (`Piece.Sits.children`); so a part sits where
it stands among all parts in document order, and its parent is the position of the piece right above
it.

With this the list says of a description what the tree says (`Workflow.mirrors_of_validate`).
-/

namespace RegionNet

variable {α : Type}

namespace Piece

variable {P P' Q R : Piece α} {i j : Nat} {parent parent' : Option Nat}

theorem prefix_drop_append {β : Type} {xs ys zs : List β} {n : Nat}
    (h : xs ++ ys <+: zs.drop n) : xs <+: zs.drop n ∧ ys <+: zs.drop (n + xs.length) := by
  obtain ⟨rest, hrest⟩ := h
  refine ⟨⟨ys ++ rest, by rw [← List.append_assoc, hrest]⟩, rest, ?_⟩
  rw [← List.drop_drop, ← hrest, List.append_assoc, List.drop_left]

theorem prefix_drop_cons {β : Type} {x : β} {xs zs : List β} {n : Nat}
    (h : x :: xs <+: zs.drop n) : zs[n]? = some x ∧ xs <+: zs.drop (n + 1) := by
  obtain ⟨hhead, htail⟩ := prefix_drop_append (List.singleton_append ▸ h : [x] ++ xs <+: zs.drop n)
  obtain ⟨rest, hrest⟩ := hhead
  have hfirst : (zs.drop n)[0]? = some x := by rw [← hrest]; rfl
  rw [List.getElem?_drop, Nat.add_zero] at hfirst
  exact ⟨hfirst, htail⟩

theorem kind_layout (P : Piece α) : P.layout.info.kind = P.block.kind := by
  cases P with
  | gateway s g bs => cases g <;> rfl
  | _ => rfl

/-! ## Lines of a piece -/

theorem sizes_layouts (Ps : List (Piece α)) (ih : ∀ P ∈ Ps, P.layout.size = P.preorder.length) :
    Layout.sizes (Ps.map layout) = (Ps.flatMap preorder).length := by
  induction Ps with
  | nil => rfl
  | cons P Ps ihPs =>
      obtain ⟨hP, hPs⟩ := List.forall_mem_cons.mp ih
      rw [List.map_cons, Layout.sizes, hP, ihPs hPs, List.flatMap_cons, List.length_append]

theorem size_layout (P : Piece α) : P.layout.size = P.preorder.length := by
  induction P using Piece.parts_induct with
  | step P ih =>
      rw [layout_eq, Layout.size, sizes_layouts P.parts ih, preorder_eq, List.length_cons,
        Nat.add_comm]

/-- The line of a piece that is listed at a position. -/
def line (P : Piece α) (i : Nat) (parent : Option Nat) : Layout.Entry :=
  ⟨P.layout.info, parent, Layout.positions (i + 1) (P.parts.map layout)⟩

theorem entriesFrom_layout (P : Piece α) (parent : Option Nat) (i : Nat) :
    P.layout.entriesFrom parent i =
      P.line i parent :: Layout.entriesOf i (i + 1) (P.parts.map layout) := by
  conv_lhs => rw [layout_eq]
  rfl

theorem length_entriesOf (Ps : List (Piece α))
    (ih : ∀ P ∈ Ps, ∀ parent i, (P.layout.entriesFrom parent i).length = P.preorder.length) :
    ∀ i start, (Layout.entriesOf i start (Ps.map layout)).length =
      (Ps.flatMap preorder).length := by
  induction Ps with
  | nil => exact fun _ _ => rfl
  | cons P Ps ihPs =>
      obtain ⟨hP, hPs⟩ := List.forall_mem_cons.mp ih
      intro i start
      rw [List.map_cons, Layout.entriesOf, List.length_append, hP, ihPs hPs, List.flatMap_cons,
        List.length_append]

theorem length_entriesFrom (P : Piece α) : ∀ parent i,
    (P.layout.entriesFrom parent i).length = P.preorder.length := by
  induction P using Piece.parts_induct with
  | step P ih =>
      intro parent i
      rw [entriesFrom_layout, List.length_cons, length_entriesOf P.parts ih, preorder_eq,
        List.length_cons]

/-- The lines of the part `P` start at a position in the list of `R`. -/
structure Sits (R : Piece α) (i : Nat) (parent : Option Nat) (P : Piece α) : Prop where
  pieces : P.preorder <+: R.preorder.drop i
  lines : P.layout.entriesFrom parent i <+: R.layout.entries.drop i

theorem sits_self (R : Piece α) : R.Sits 0 none R :=
  ⟨List.prefix_refl _, List.prefix_refl _⟩

namespace Sits

theorem piece_eq (h : R.Sits i parent P) : R.preorder[i]? = some P := by
  have hpieces := h.pieces
  rw [preorder_eq P] at hpieces
  exact (prefix_drop_cons hpieces).1

theorem line_eq (h : R.Sits i parent P) : R.layout.entries[i]? = some (P.line i parent) := by
  have hlines := h.lines
  rw [entriesFrom_layout] at hlines
  exact (prefix_drop_cons hlines).1

theorem part (h : R.Sits i parent P) : Part P R :=
  mem_preorder.mp (List.mem_of_getElem? h.piece_eq)

/-- The children of a piece sit where its line says. -/
theorem children (h : R.Sits i parent P) :
    List.Forall₂ (fun j P' => R.Sits j (some i) P') (P.line i parent).children P.parts := by
  have hall : ∀ (Ps : List (Piece α)) (start : Nat),
      Ps.flatMap preorder <+: R.preorder.drop start →
      Layout.entriesOf i start (Ps.map layout) <+: R.layout.entries.drop start →
        List.Forall₂ (fun j P' => R.Sits j (some i) P')
          (Layout.positions start (Ps.map layout)) Ps := by
    intro Ps
    induction Ps with
    | nil => exact fun _ _ _ => .nil
    | cons P Ps ih =>
        intro start hpieces hlines
        obtain ⟨hP, hPs⟩ := prefix_drop_append hpieces
        obtain ⟨hP', hPs'⟩ := prefix_drop_append hlines
        rw [length_entriesFrom, ← size_layout] at hPs'
        rw [← size_layout] at hPs
        exact .cons ⟨hP, hP'⟩ (ih _ hPs hPs')
  have hpieces := h.pieces
  have hlines := h.lines
  rw [preorder_eq P] at hpieces
  rw [entriesFrom_layout] at hlines
  exact hall P.parts (i + 1) (prefix_drop_cons hpieces).2 (prefix_drop_cons hlines).2

end Sits

theorem Part.exists_sits (h : Part Q R) : ∃ i parent, R.Sits i parent Q := by
  -- on the way down from the whole to the part
  have hbelow : ∀ P, Part Q P → ∀ i parent, R.Sits i parent P →
      ∃ j parent', R.Sits j parent' Q := by
    intro P hpart
    apply hpart.climb
    · exact fun i parent hsits => ⟨i, parent, hsits⟩
    · intro P P' hP' _ ih i parent hsits
      obtain ⟨j, -, hj⟩ := exists_left_of_forall₂ hsits.children hP'
      exact ih j _ hj
  exact hbelow R h 0 none R.sits_self

/-- A part is the whole, or right below another part. -/
theorem Part.eq_or_exists_above (h : Part Q R) : Q = R ∨ ∃ P, Part P R ∧ Q ∈ P.parts := by
  apply h.climb
  · exact Or.inl rfl
  · rintro P P' hP' - (rfl | ⟨P'', hpart, hQ⟩)
    · exact Or.inr ⟨P, .self, hP'⟩
    · exact Or.inr ⟨P'', .of_parts hP' hpart, hQ⟩

/-- No part is listed twice. -/
theorem nodup_preorder (hnodup : R.block.ids.Nodup) : R.preorder.Nodup := by
  rw [← ids_layout, infos_eq, List.map_map] at hnodup
  exact .of_map _ hnodup

theorem Sits.index_eq (h : R.Sits i parent P) (hnodup : R.block.ids.Nodup)
    (hj : R.preorder[j]? = some P) : i = j := by
  obtain ⟨hi, he⟩ := List.getElem?_eq_some_iff.mp h.piece_eq
  obtain ⟨hj, he'⟩ := List.getElem?_eq_some_iff.mp hj
  exact (nodup_preorder hnodup).getElem_inj_iff.mp (he.trans he'.symm)

namespace Sits

theorem parent_eq (h : R.Sits i parent P) (h' : R.Sits i parent' P') : parent = parent' :=
  congrArg Layout.Entry.parent (Option.some.inj (h.line_eq.symm.trans h'.line_eq))

/-- The parent is where the piece right above sits. -/
theorem parent_of_above (h : R.Sits i parent P) (hnodup : R.block.ids.Nodup)
    (h' : R.Sits j parent' P') (hP : P ∈ P'.parts) : parent = some j := by
  obtain ⟨i', -, hi'⟩ := exists_left_of_forall₂ h'.children hP
  obtain rfl := hi'.index_eq hnodup h.piece_eq
  exact h.parent_eq hi'

/-- Only the whole has no parent. -/
theorem parent_cases (h : R.Sits i parent P) (hnodup : R.block.ids.Nodup) :
    i = 0 ∧ parent = none ∨
      ∃ j grand P', parent = some j ∧ R.Sits j grand P' ∧ P ∈ P'.parts := by
  rcases h.part.eq_or_exists_above with rfl | ⟨P', hpart, hP⟩
  · obtain rfl := h.index_eq hnodup (sits_self P).piece_eq
    exact Or.inl ⟨rfl, h.parent_eq (sits_self P)⟩
  · obtain ⟨j, grand, hj⟩ := hpart.exists_sits
    exact Or.inr ⟨j, grand, P', h.parent_of_above hnodup hj hP, hj, hP⟩

end Sits

end Piece

/-! ## Lines of a description -/

variable [Quantity α]

namespace Workflow

open Layout (Entry)

/-- Line number `i` of the list is about the region `c`. -/
structure Lists (w : Workflow α) (r : Region α) (i : Nat) (c : Region α) (e : Entry) : Prop where
  region : r.preorder[i]? = some c
  line : w.layout.entries[i]? = some e

/-- The list of regions says of a description what the tree of regions and the net say. -/
structure Mirrors (w : Workflow α) (r : Region α) : Prop where
  /-- There is one line for each region, in document order, and the first one is the root's. -/
  length : w.layout.entries.length = r.preorder.length
  root : ∃ e, w.Lists r 0 r e
  names : ∀ i c e, w.Lists r i c e → e.info.id = c.id ∧ e.info.kind = c.kind
  /-- The links between the lines are those of the tree. -/
  children : ∀ i c e, w.Lists r i c e →
    List.Forall₂ (fun j d => r.preorder[j]? = some d) e.children c.branches
  parent : ∀ i c e, w.Lists r i c e →
    ∀ j, e.parent = some j ↔ ∃ d, r.preorder[j]? = some d ∧ c ∈ d.branches
  orphan : ∀ i c e, w.Lists r i c e → (e.parent = none ↔ i = 0)
  found : ∀ id i, w.layout.position? id = some i ↔ ∃ c, r.preorder[i]? = some c ∧ c.id = id
  /-- Regions start and end at different places of the net. -/
  places : ∀ e ∈ w.layout.entries, e.info.entry ∈ w.net.places.map Place.id ∧
    e.info.exit ∈ w.net.places.map Place.id ∧ e.info.entry ≠ e.info.exit
  /-- The parts of a sequence are joined end to end. -/
  sequential : ∀ i c e, w.Lists r i c e → c.kind = .sequential →
    ∃ j k one two, e.children = [j, k] ∧ w.layout.entries[j]? = some one ∧
      w.layout.entries[k]? = some two ∧ one.info.entry = e.info.entry ∧
      two.info.entry = one.info.exit ∧ two.info.exit = e.info.exit
  /-- A parallel block has one fork and one join, which lead to the entries and come from the exits
  of its branches, in their order. -/
  parallel : ∀ i c e, w.Lists r i c e → c.kind = .parallel →
    ∃ fork join, (∀ t, t ∈ w.net.transitions ∧ t.serves c.id .fork = true ↔ t = fork) ∧
      (∀ t, t ∈ w.net.transitions ∧ t.serves c.id .join = true ↔ t = join) ∧
      List.Forall₂ (fun j p => ∃ b, w.layout.entries[j]? = some b ∧ b.info.entry = p)
        e.children fork.outputs ∧
      List.Forall₂ (fun j p => ∃ b, w.layout.entries[j]? = some b ∧ b.info.exit = p)
        e.children join.inputs
  /-- The entry of branch number `k` leads to the entry of child number `k`. -/
  branch : ∀ t ∈ w.net.transitions, t.role = .branchEntry →
    ∃ i c e k j b, w.Lists r i c e ∧ t.regionId = c.id ∧ t.branch = some k ∧
      e.children[k]? = some j ∧ w.layout.entries[j]? = some b ∧ t.outputs = [b.info.entry]
  /-- Places and transitions are numbered together, without a gap. -/
  numbers : (w.net.places.map (·.id.index) ++ w.net.transitions.map (·.id.index)).Perm
    (List.range (w.net.places.length + w.net.transitions.length))

namespace Consists

open Piece

variable {w : Workflow α} {r c d : Region α} {R P Q : Piece α} {i j : Nat} {e : Entry}
  {parent : Option Nat}

/-- What became of a region sits where the region stands in document order. -/
theorem lists_iff (h : w.Consists R) (hr : r.Yields R) : w.Lists r i c e ↔
    ∃ Q parent, r.Becomes R c Q ∧ R.Sits i parent Q ∧ e = Q.line i parent := by
  have hself : r.Becomes R r R := ⟨r.mem_preorder_self, .self, hr.block⟩
  have hall := hself.forall₂_preorder hr
  constructor
  · rintro ⟨hregion, hline⟩
    obtain ⟨Q, hQ, hbecomes⟩ := exists_getElem?_of_forall₂ hall hregion
    obtain ⟨j, parent, hsits⟩ := hbecomes.part.exists_sits
    obtain rfl := hsits.index_eq hr.nodup hQ
    refine ⟨Q, parent, hbecomes, hsits, Option.some.inj ?_⟩
    rw [← hsits.line_eq, ← h.layout, hline]
  · rintro ⟨Q, parent, hbecomes, hsits, rfl⟩
    obtain ⟨c', hc', hbecomes'⟩ := exists_getElem?_of_forall₂ hall.flip hsits.piece_eq
    obtain rfl := hbecomes.unique_left hr hbecomes'
    exact ⟨hc', h.layout ▸ hsits.line_eq⟩

theorem lists_of_sits (h : w.Consists R) (hr : r.Yields R) (hsits : R.Sits i parent Q) :
    ∃ c, r.Becomes R c Q ∧ w.Lists r i c (Q.line i parent) := by
  obtain ⟨c, hc⟩ := hr.exists_region hsits.part
  exact ⟨c, hc, (h.lists_iff hr).mpr ⟨Q, parent, hc, hsits, rfl⟩⟩

theorem line_of_sits (h : w.Consists R) (hsits : R.Sits i parent Q) :
    w.layout.entries[i]? = some (Q.line i parent) :=
  h.layout ▸ hsits.line_eq

theorem length_entries (h : w.Consists R) (hr : r.Yields R) :
    w.layout.entries.length = r.preorder.length := by
  have hself : r.Becomes R r R := ⟨r.mem_preorder_self, .self, hr.block⟩
  rw [(hself.forall₂_preorder hr).length_eq, h.layout]
  exact R.length_entriesFrom none 0

theorem exists_lists (h : w.Consists R) (hr : r.Yields R) (hregion : r.preorder[i]? = some c) :
    ∃ e, w.Lists r i c e := by
  obtain ⟨hi, -⟩ := List.getElem?_eq_some_iff.mp hregion
  rw [← h.length_entries hr] at hi
  exact ⟨_, hregion, List.getElem?_eq_getElem hi⟩

/-- The children of a line are those of the region. -/
theorem forall₂_children (hr : r.Yields R) (h : w.Consists R) (hc : r.Becomes R c Q)
    (hsits : R.Sits i parent Q) :
    List.Forall₂ (fun j d => r.preorder[j]? = some d) (Q.line i parent).children c.branches := by
  have hboth : ∀ {js : List Nat} {ds : List (Region α)} {Ps : List (Piece α)},
      List.Forall₂ (fun j P => R.Sits j (some i) P) js Ps →
      List.Forall₂ (fun d P => r.Becomes R d P) ds Ps →
        List.Forall₂ (fun j d => r.preorder[j]? = some d) js ds := by
    intro js ds Ps hjs
    induction hjs generalizing ds with
    | nil =>
        intro hds
        cases hds
        exact .nil
    | cons hj _ ih =>
        intro hds
        obtain ⟨d, ds, hd, hrest, rfl⟩ := List.forall₂_cons_right_iff.mp hds
        obtain ⟨d', hd', hlists⟩ := h.lists_of_sits hr hj
        obtain rfl := hd.unique_left hr hd'
        exact .cons hlists.region (ih hrest)
  exact hboth hsits.children (hc.forall₂_parts hr)

/-- The parent of a line is that of the region. -/
theorem parent_iff (hr : r.Yields R) (h : w.Consists R) (hc : r.Becomes R c Q)
    (hsits : R.Sits i parent Q) :
    parent = some j ↔ ∃ d, r.preorder[j]? = some d ∧ c ∈ d.branches := by
  constructor
  · rintro rfl
    rcases hsits.parent_cases hr.nodup with ⟨-, hnone⟩ | ⟨k, grand, P, hk, hP, hQ⟩
    · cases hnone
    · obtain rfl := Option.some.inj hk
      obtain ⟨d, hd, hlists⟩ := h.lists_of_sits hr hP
      obtain ⟨c', hc', hbecomes⟩ := exists_left_of_forall₂ (hd.forall₂_parts hr) hQ
      obtain rfl := hc.unique_left hr hbecomes
      exact ⟨d, hlists.region, hc'⟩
  · rintro ⟨d, hregion, hmem⟩
    obtain ⟨e, hlists⟩ := h.exists_lists hr hregion
    obtain ⟨P, grand, hd, hP, -⟩ := (h.lists_iff hr).mp hlists
    obtain ⟨Q', hQ', hbecomes⟩ := exists_right_of_forall₂ (hd.forall₂_parts hr) hmem
    obtain rfl := hc.unique_right hr hbecomes
    exact hsits.parent_of_above hr.nodup hP hQ'

theorem orphan_iff (hr : r.Yields R) (hsits : R.Sits i parent Q) : parent = none ↔ i = 0 := by
  constructor
  · rintro rfl
    rcases hsits.parent_cases hr.nodup with ⟨hi, -⟩ | ⟨k, grand, P, hk, -, -⟩
    · exact hi
    · cases hk
  · rintro rfl
    exact hsits.parent_eq (sits_self R)

theorem position?_eq_some_iff (h : w.Consists R) (hr : r.Yields R) {id : String} :
    w.layout.position? id = some i ↔ ∃ c, r.preorder[i]? = some c ∧ c.id = id := by
  have hname : ∀ {j c e}, w.Lists r j c e → e.info.id = c.id := by
    intro j c e hlists
    obtain ⟨Q, parent, hbecomes, -, rfl⟩ := (h.lists_iff hr).mp hlists
    exact Q.id_layout.trans hbecomes.id_eq
  have hlists : ∀ j (hj : j < w.layout.entries.length), ∃ c, w.Lists r j c w.layout.entries[j] := by
    intro j hj
    have hj' := h.length_entries hr ▸ hj
    exact ⟨_, List.getElem?_eq_getElem hj', List.getElem?_eq_getElem hj⟩
  unfold Layout.position?
  rw [List.findIdx?_eq_some_iff_getElem]
  constructor
  · rintro ⟨hi, hid, -⟩
    obtain ⟨c, hc⟩ := hlists i hi
    exact ⟨c, hc.region, (hname hc).symm.trans (of_decide_eq_true hid)⟩
  · rintro ⟨c, hregion, rfl⟩
    obtain ⟨e, he⟩ := h.exists_lists hr hregion
    obtain ⟨hi, hline⟩ := List.getElem?_eq_some_iff.mp he.line
    refine ⟨hi, decide_eq_true (hline ▸ hname he), fun j hj hfound => ?_⟩
    -- an earlier line would be about a region of the same name
    obtain ⟨d, hd⟩ := hlists j (Nat.lt_trans hj hi)
    have hid : d.id = c.id := (hname hd).symm.trans (of_decide_eq_true hfound)
    obtain rfl : d = c := List.inj_on_of_nodup_map hr.distinct
      (List.mem_of_getElem? hd.region) (List.mem_of_getElem? hregion) hid
    obtain ⟨hj', hdj⟩ := List.getElem?_eq_some_iff.mp hd.region
    obtain ⟨hi', hdi⟩ := List.getElem?_eq_some_iff.mp hregion
    have hdistinct : r.preorder.Nodup := .of_map _ hr.distinct
    exact Nat.ne_of_lt hj (hdistinct.getElem_inj_iff.mp (hdj.trans hdi.symm))

theorem places_of_sits (h : w.Consists R) (hsits : R.Sits i parent Q) :
    (Q.line i parent).info.entry ∈ w.net.places.map Place.id ∧
      (Q.line i parent).info.exit ∈ w.net.places.map Place.id ∧
        (Q.line i parent).info.entry ≠ (Q.line i parent).info.exit := by
  have hQ : Placed w.net.limit Q := hsits.part.placed h.placed
  have hground : ∀ p ∈ Q.ground, p ∈ w.net.places.map Place.id := fun p hp =>
    h.mem_places_iff.mpr (hsits.part.ground_subset h.placed hp)
  have hentry : (Q.line i parent).info.entry = Q.entry := Q.info_layout_entry
  have hexit : (Q.line i parent).info.exit = Q.exit := Q.info_layout_exit
  rw [hentry, hexit]
  exact ⟨hground _ hQ.entry_mem_ground, hground _ (exit_mem_ground Q), hQ.entry_ne_exit⟩

theorem line_of_sequential {s : Site α} (h : w.Consists R)
    (hsits : R.Sits i parent (.sequential s P Q)) :
    ∃ j k one two, ((Piece.sequential s P Q).line i parent).children = [j, k] ∧
      w.layout.entries[j]? = some one ∧ w.layout.entries[k]? = some two ∧
      one.info.entry = s.entry ∧ two.info.entry = one.info.exit ∧ two.info.exit = s.exit := by
  have hseq : Placed w.net.limit (.sequential s P Q) := hsits.part.placed h.placed
  obtain ⟨hP, hrest⟩ := List.forall₂_cons.mp hsits.children
  obtain ⟨hQ, -⟩ := List.forall₂_cons.mp hrest
  refine ⟨_, _, _, _, rfl, h.line_of_sits hP, h.line_of_sits hQ, ?_, ?_, ?_⟩
  · exact P.info_layout_entry.trans hseq.fst_entry
  · exact Q.info_layout_entry.trans (hseq.snd_entry.trans P.info_layout_exit.symm)
  · exact Q.info_layout_exit.trans hseq.snd_exit

/-- What the lines of the branches say of their places. -/
theorem forall₂_lines (h : w.Consists R) (hsits : R.Sits i parent Q) {f : RegionInfo → PlaceId}
    {g : Piece α → PlaceId} (hfg : ∀ P, f P.layout.info = g P) :
    List.Forall₂ (fun j p => ∃ b, w.layout.entries[j]? = some b ∧ f b.info = p)
      (Q.line i parent).children (Q.parts.map g) := by
  rw [List.forall₂_map_right_iff]
  exact hsits.children.imp fun j P hP => ⟨_, h.line_of_sits hP, hfg P⟩

/-- The fork and the join of a parallel block. -/
theorem serves_fork_iff {s : Site α} {bs : List (Piece α)} {t : Transition α} (h : w.Consists R)
    (hr : r.Yields R) (hc : r.Becomes R c (.parallel s bs)) :
    (t ∈ w.net.transitions ∧ t.serves c.id .fork = true ↔ t = s.fork bs) ∧
      (t ∈ w.net.transitions ∧ t.serves c.id .join = true ↔ t = s.join bs) := by
  have hadds : ∀ {role}, t ∈ w.net.transitions ∧ t.serves c.id role = true →
      (Piece.parallel s bs).Adds t ∧ t.role = role := by
    rintro role ⟨ht, hserves⟩
    obtain ⟨hid, hrole⟩ := Transition.serves_iff.mp hserves
    exact ⟨hc.part.adds_of_regionId hr.nodup (h.transitions ▸ ht) (hid.trans hc.id_eq.symm), hrole⟩
  have hmem : (Piece.parallel s bs).transitions ⊆ w.net.transitions :=
    h.transitions ▸ hc.part.transitions_subset
  constructor
  · constructor
    · intro ht
      obtain ⟨hown, hrole⟩ := hadds ht
      cases hown with
      | fork => rfl
      | join => cases hrole
    · rintro rfl
      exact ⟨hmem List.mem_cons_self, Transition.serves_iff.mpr ⟨hc.id_eq, rfl⟩⟩
  · constructor
    · intro ht
      obtain ⟨hown, hrole⟩ := hadds ht
      cases hown with
      | fork => cases hrole
      | join => rfl
    · rintro rfl
      exact ⟨hmem (by simp [Piece.transitions]), Transition.serves_iff.mpr ⟨hc.id_eq, rfl⟩⟩

theorem exists_branch {t : Transition α} (h : w.Consists R) (hr : r.Yields R)
    (ht : t ∈ w.net.transitions) (hrole : t.role = .branchEntry) :
    ∃ i c e k j b, w.Lists r i c e ∧ t.regionId = c.id ∧ t.branch = some k ∧
      e.children[k]? = some j ∧ w.layout.entries[j]? = some b ∧ t.outputs = [b.info.entry] := by
  obtain ⟨Q, hpart, hadds⟩ := exists_adds (h.transitions ▸ ht)
  cases hadds with
  | @pick s g bs k b hk =>
      obtain ⟨i, parent, hsits⟩ := hpart.exists_sits
      obtain ⟨c, hc, hlists⟩ := h.lists_of_sits hr hsits
      obtain ⟨j, hj, hb⟩ := exists_getElem?_of_forall₂ hsits.children.flip hk
      refine ⟨i, c, _, k, j, _, hlists, hc.id_eq, rfl, hj, h.line_of_sits hb, ?_⟩
      rw [Site.pick, transition_outputs]
      exact congrArg (fun p => [p]) b.info_layout_entry.symm
  | _ => cases hrole

theorem mirrors {R : Piece α} (h : (ofBlock R.block).Consists R) (hr : r.Yields R) :
    (ofBlock R.block).Mirrors r where
  length := h.length_entries hr
  root := by
    apply h.exists_lists hr
    rw [Region.preorder_eq]
    rfl
  names i c e hlists := by
    obtain ⟨Q, parent, hbecomes, -, rfl⟩ := (h.lists_iff hr).mp hlists
    exact ⟨Q.id_layout.trans hbecomes.id_eq, Q.kind_layout.trans hbecomes.kind_eq.symm⟩
  children i c e hlists := by
    obtain ⟨Q, parent, hbecomes, hsits, rfl⟩ := (h.lists_iff hr).mp hlists
    exact forall₂_children hr h hbecomes hsits
  parent i c e hlists j := by
    obtain ⟨Q, parent, hbecomes, hsits, rfl⟩ := (h.lists_iff hr).mp hlists
    exact parent_iff hr h hbecomes hsits
  orphan i c e hlists := by
    obtain ⟨Q, parent, -, hsits, rfl⟩ := (h.lists_iff hr).mp hlists
    exact orphan_iff hr hsits
  found id i := h.position?_eq_some_iff hr
  places e he := by
    obtain ⟨i, hi, rfl⟩ := List.mem_iff_getElem.mp he
    have hi' := h.length_entries hr ▸ hi
    obtain ⟨Q, parent, -, hsits, he⟩ := (h.lists_iff hr).mp
      ⟨List.getElem?_eq_getElem hi', List.getElem?_eq_getElem hi⟩
    rw [he]
    exact h.places_of_sits hsits
  sequential i c e hlists hkind := by
    obtain ⟨Q, parent, hbecomes, hsits, rfl⟩ := (h.lists_iff hr).mp hlists
    rw [hbecomes.kind_eq] at hkind
    cases Q with
    | sequential s P Q => exact h.line_of_sequential hsits
    | gateway s g bs => cases g <;> cases hkind
    | _ => cases hkind
  parallel i c e hlists hkind := by
    obtain ⟨Q, parent, hbecomes, hsits, rfl⟩ := (h.lists_iff hr).mp hlists
    rw [hbecomes.kind_eq] at hkind
    cases Q with
    | parallel s bs =>
        refine ⟨s.fork bs, s.join bs, fun t => (h.serves_fork_iff hr hbecomes).1,
          fun t => (h.serves_fork_iff hr hbecomes).2, ?_, ?_⟩
        · rw [Site.fork, transition_outputs]
          exact h.forall₂_lines hsits info_layout_entry
        · rw [Site.join, transition_inputs]
          exact h.forall₂_lines hsits info_layout_exit
    | gateway s g bs => cases g <;> cases hkind
    | _ => cases hkind
  branch t := h.exists_branch hr
  numbers := h.recorded.numbers

end Consists

end Workflow

end RegionNet
