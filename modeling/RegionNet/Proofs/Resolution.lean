import Mathlib
import RegionNet.Proofs.Proper

/-!
# Resolved regions

What is left of a description when everything in it is decided: the branch that was taken of each
choice and draw, and the rounds that each loop has made (`Resolved`). Its makespan is the time that
it takes if the branches of a parallel block overlap.

A block can be resolved in many ways, but only in one way with given rulings. For this it does not
matter how the rulings on different regions are interleaved: a resolution is known from the verdicts
that each region has got, in the order in which it has got them (`Resolves.unique`).
-/

namespace RegionNet

/-! ## Rulings -/

/-- How a region is decided: for one of its branches, or whether a loop goes on. -/
inductive Verdict where
  | branch (i : Nat)
  | again
  | leave
  deriving DecidableEq, Repr

structure Ruling where
  region : String
  verdict : Verdict
  deriving DecidableEq, Repr

namespace Ruling

variable {x y : Ruling} {xs ys xs' ys' zs : List Ruling}

/-- The rulings on one region. -/
def about (i : String) (xs : List Ruling) : List Ruling := xs.filter (·.region = i)

theorem about_append (i : String) (xs ys : List Ruling) :
    about i (xs ++ ys) = about i xs ++ about i ys := List.filter_append _ _

/-- Each region gets the same verdicts in the same order. -/
def Alike (xs ys : List Ruling) : Prop := ∀ i, about i xs = about i ys

namespace Alike

theorem refl (xs : List Ruling) : Alike xs xs := fun _ => rfl

theorem symm (h : Alike xs ys) : Alike ys xs := fun i => (h i).symm

theorem trans (h : Alike xs ys) (h' : Alike ys zs) : Alike xs zs := fun i => (h i).trans (h' i)

theorem append (h : Alike xs ys) (h' : Alike xs' ys') : Alike (xs ++ xs') (ys ++ ys') := fun i => by
  rw [about_append, about_append, h i, h' i]

theorem flatMap {β : Type} {k k' : β → List Ruling} {bs : List β}
    (h : ∀ b ∈ bs, Alike (k b) (k' b)) : Alike (bs.flatMap k) (bs.flatMap k') := by
  induction bs with
  | nil => exact refl []
  | cons b bs ih =>
      obtain ⟨hb, hbs⟩ := List.forall_mem_cons.mp h
      exact hb.append (ih hbs)

theorem of_cons (h : Alike (x :: xs) (y :: ys)) (hregion : x.region = y.region) :
    x = y ∧ Alike xs ys := by
  have hhead : ∀ (z : Ruling) (zs : List Ruling) (i : String),
      about i (z :: zs) = if z.region = i then z :: about i zs else about i zs := by
    intro z zs i
    simp [about, List.filter_cons]
  have hfirst := h x.region
  rw [hhead, hhead, if_pos rfl, if_pos hregion.symm] at hfirst
  obtain ⟨rfl, -⟩ := List.cons.inj hfirst
  refine ⟨rfl, fun i => ?_⟩
  have hi := h i
  rw [hhead, hhead] at hi
  split at hi
  · exact (List.cons.inj hi).2
  · exact hi

end Alike

end Ruling

/-! ## Resolutions -/

/-- A region tree in which everything is decided. -/
inductive Resolved (α : Type) where
  | task (head : Head α)
  | sequential (head : Head α) (first second : Resolved α)
  | parallel (head : Head α) (branches : List (Resolved α))
  | taken (head : Head α) (branch : Nat) (chosen : Resolved α)
  | rounds (head : Head α) (bodies : List (Resolved α))

variable {α : Type}

/-- The block can be resolved in this way. -/
inductive Block.Resolves : Block α → Resolved α → Prop where
  | task (h : Head α) (v : List α) : Resolves (.task h v) (.task h)
  | sequential (h : Head α) {one two : Block α} {R S : Resolved α} (first : Resolves one R)
      (second : Resolves two S) : Resolves (.sequential h one two) (.sequential h R S)
  | parallel (h : Head α) {bs : List (Block α)} {Rs : List (Resolved α)}
      (branches : List.Forall₂ Resolves bs Rs) : Resolves (.parallel h bs) (.parallel h Rs)
  | choice (h : Head α) {bs : List (Block α)} (distribution : Option (List α)) {i : Nat}
      {b : Block α} {R : Resolved α} (hi : bs[i]? = some b) (chosen : Resolves b R) :
      Resolves (.choice h bs distribution) (.taken h i R)
  | nature (h : Head α) {bs : List (Block α)} (distribution : List α) {i : Nat} {b : Block α}
      {R : Resolved α} (hi : bs[i]? = some b) (chosen : Resolves b R) :
      Resolves (.nature h bs distribution) (.taken h i R)
  | loop (h : Head α) {body : Block α} (p : α) {n : Nat} {Rs : List (Resolved α)}
      (some_round : Rs ≠ []) (few : Rs.length ≤ n + 1) (bodies : ∀ R ∈ Rs, Resolves body R) :
      Resolves (.loop h body p n) (.rounds h Rs)

namespace Resolved

mutual

/-- The rulings of a resolution, branch by branch. -/
def rulings : Resolved α → List Ruling
  | .task _ => []
  | .sequential _ R S => R.rulings ++ S.rulings
  | .parallel _ Rs => rulingsAll Rs
  | .taken h i R => ⟨h.id, .branch i⟩ :: R.rulings
  | .rounds h Rs => rulingsOfRounds h Rs

def rulingsAll : List (Resolved α) → List Ruling
  | [] => []
  | R :: Rs => R.rulings ++ rulingsAll Rs

/-- After each round it is decided whether there is another one. -/
def rulingsOfRounds (h : Head α) : List (Resolved α) → List Ruling
  | [] => []
  | R :: Rs =>
    R.rulings ++ ⟨h.id, if Rs.isEmpty then .leave else .again⟩ :: rulingsOfRounds h Rs

end

mutual

/-- How long it takes until everything is over: parallel branches overlap, and the rounds of a loop
come one after the other. -/
def makespan : Resolved Rat → Rat
  | .task h => h.duration
  | .sequential h R S => h.duration + (R.makespan + S.makespan)
  | .parallel h Rs => h.duration + (makespans Rs).foldr max 0
  | .taken h _ R => h.duration + R.makespan
  | .rounds h Rs => h.duration + (makespans Rs).sum

def makespans : List (Resolved Rat) → List Rat
  | [] => []
  | R :: Rs => R.makespan :: makespans Rs

end

theorem makespans_eq_map (Rs : List (Resolved Rat)) : makespans Rs = Rs.map makespan := by
  induction Rs with
  | nil => rfl
  | cons R Rs ih => rw [makespans, ih, List.map_cons]

theorem rulingsAll_eq_flatMap (Rs : List (Resolved α)) : rulingsAll Rs = Rs.flatMap rulings := by
  induction Rs with
  | nil => rfl
  | cons R Rs ih => rw [rulingsAll, ih, List.flatMap_cons]

end Resolved

namespace Block

open Ruling

variable {blk : Block α} {R R' : Resolved α} {q q' : List Ruling}

/-- The rulings of a resolution, and what comes after them, determine the resolution. -/
def Readable (blk : Block α) : Prop :=
  ∀ ⦃R R' : Resolved α⦄ ⦃q q' : List Ruling⦄, blk.Resolves R → blk.Resolves R' →
    Alike (R.rulings ++ q) (R'.rulings ++ q') → R = R' ∧ Alike q q'

theorem readable_branches {bs : List (Block α)} (ih : ∀ b ∈ bs, b.Readable) :
    ∀ {Rs Rs' : List (Resolved α)}, List.Forall₂ Resolves bs Rs → List.Forall₂ Resolves bs Rs' →
      Alike (Resolved.rulingsAll Rs ++ q) (Resolved.rulingsAll Rs' ++ q') →
        Rs = Rs' ∧ Alike q q' := by
  induction bs with
  | nil =>
      rintro _ _ ⟨⟩ ⟨⟩ halike
      exact ⟨rfl, halike⟩
  | cons b bs ihbs =>
      obtain ⟨hb, hbs⟩ := List.forall_mem_cons.mp ih
      rintro _ _ (_ | ⟨hR, hRs⟩) (_ | ⟨hR', hRs'⟩) halike
      rw [Resolved.rulingsAll, Resolved.rulingsAll, List.append_assoc, List.append_assoc] at halike
      obtain ⟨rfl, hrest⟩ := hb hR hR' halike
      obtain ⟨rfl, hafter⟩ := ihbs hbs hRs hRs' hrest
      exact ⟨rfl, hafter⟩

theorem readable_rounds {body : Block α} (ih : body.Readable) (h : Head α) :
    ∀ {Rs Rs' : List (Resolved α)}, Rs ≠ [] → Rs' ≠ [] → (∀ R ∈ Rs, body.Resolves R) →
      (∀ R ∈ Rs', body.Resolves R) →
      Alike (Resolved.rulingsOfRounds h Rs ++ q) (Resolved.rulingsOfRounds h Rs' ++ q') →
        Rs = Rs' ∧ Alike q q' := by
  intro Rs
  induction Rs with
  | nil => exact fun h => absurd rfl h
  | cons R Rs ihRs =>
      intro Rs' _ hsome hbodies hbodies' halike
      obtain ⟨R', Rs', rfl⟩ := List.exists_cons_of_ne_nil hsome
      obtain ⟨hR, hRs⟩ := List.forall_mem_cons.mp hbodies
      obtain ⟨hR', hRs'⟩ := List.forall_mem_cons.mp hbodies'
      rw [Resolved.rulingsOfRounds, Resolved.rulingsOfRounds, List.append_assoc, List.append_assoc,
        List.cons_append, List.cons_append] at halike
      obtain ⟨rfl, hrest⟩ := ih hR hR' halike
      obtain ⟨hverdict, hafter⟩ := hrest.of_cons rfl
      -- both go on or both end here
      cases Rs with
      | nil =>
          cases Rs' with
          | nil => exact ⟨rfl, hafter⟩
          | cons S Rs' => cases congrArg Ruling.verdict hverdict
      | cons S Rs =>
          cases Rs' with
          | nil => cases congrArg Ruling.verdict hverdict
          | cons S' Rs' =>
              obtain ⟨he, hend⟩ :=
                ihRs (List.cons_ne_nil _ _) (List.cons_ne_nil _ _) hRs hRs' hafter
              exact ⟨by rw [he], hend⟩

theorem readable_taken {bs : List (Block α)} (ih : ∀ b ∈ bs, b.Readable) (h : Head α) {i j : Nat}
    {b c : Block α} (hi : bs[i]? = some b) (hj : bs[j]? = some c) (hR : b.Resolves R)
    (hR' : c.Resolves R')
    (halike : Alike ((Resolved.taken h i R).rulings ++ q) ((Resolved.taken h j R').rulings ++ q')) :
    Resolved.taken h i R = .taken h j R' ∧ Alike q q' := by
  rw [Resolved.rulings, Resolved.rulings, List.cons_append, List.cons_append] at halike
  obtain ⟨hverdict, hrest⟩ := halike.of_cons rfl
  obtain rfl : i = j := Verdict.branch.inj (congrArg Ruling.verdict hverdict)
  obtain rfl : b = c := Option.some.inj (hi.symm.trans hj)
  obtain ⟨rfl, hafter⟩ := ih b (List.mem_of_getElem? hi) hR hR' hrest
  exact ⟨rfl, hafter⟩

theorem readable (blk : Block α) : blk.Readable := by
  induction blk using Block.ind with
  | task h v =>
      rintro _ _ q q' ⟨⟩ ⟨⟩ halike
      exact ⟨rfl, halike⟩
  | sequential h one two ih₁ ih₂ =>
      rintro _ _ q q' (_ | ⟨_, hR, hS⟩) (_ | ⟨_, hR', hS'⟩) halike
      rw [Resolved.rulings, Resolved.rulings, List.append_assoc, List.append_assoc] at halike
      obtain ⟨rfl, hrest⟩ := ih₁ hR hR' halike
      obtain ⟨rfl, hafter⟩ := ih₂ hS hS' hrest
      exact ⟨rfl, hafter⟩
  | parallel h bs ih =>
      rintro _ _ q q' (_ | _ | ⟨_, hRs⟩) (_ | _ | ⟨_, hRs'⟩) halike
      obtain ⟨rfl, hafter⟩ := readable_branches ih hRs hRs' halike
      exact ⟨rfl, hafter⟩
  | choice h bs ps ih =>
      rintro _ _ q q' (_ | _ | _ | ⟨_, _, hi, hR⟩) (_ | _ | _ | ⟨_, _, hj, hR'⟩) halike
      exact readable_taken ih h hi hj hR hR' halike
  | nature h bs ps ih =>
      rintro _ _ q q' (_ | _ | _ | _ | ⟨_, _, hi, hR⟩) (_ | _ | _ | _ | ⟨_, _, hj, hR'⟩) halike
      exact readable_taken ih h hi hj hR hR' halike
  | loop h body p n ih =>
      rintro _ _ q q' (_ | _ | _ | _ | _ | ⟨_, _, hsome, -, hRs⟩)
        (_ | _ | _ | _ | _ | ⟨_, _, hsome', -, hRs'⟩) halike
      obtain ⟨rfl, hafter⟩ := readable_rounds ih h hsome hsome' hRs hRs' halike
      exact ⟨rfl, hafter⟩

/-- With given rulings, a block is resolved in one way. -/
theorem Resolves.unique (h : blk.Resolves R) (h' : blk.Resolves R')
    (halike : Alike R.rulings R'.rulings) : R = R' := by
  have hafter : Alike (R.rulings ++ []) (R'.rulings ++ []) := by
    rwa [List.append_nil, List.append_nil]
  exact (blk.readable h h' hafter).1

end Block

end RegionNet
