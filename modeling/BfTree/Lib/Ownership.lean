import Mathlib

/-!
# BfTree.Lib.Ownership — cells owned by tasks or kept in free lists

A cell has a state. At any time it is in one place: a task owns it, or it is in one free
list, or it stands by itself. A cell is put on a list by its owner, before the owner says
so in the state. Moves change the place of one cell at a time.
-/

namespace BfTree.Lib

/-- What an owner knows: the state of its cell, and the list it has put it on. -/
structure Claim (κ σ : Type) where
  state : σ
  link : Option κ

/-- `cls` is the list that a cell belongs to. The cells of `lost` have the state of a cell
in a list, but are in none. -/
structure Cells (ι π κ σ : Type) where
  IsCell : π → Prop
  cls : π → Option κ
  own : ι → Option (π × Claim κ σ)
  lists : κ → List π
  state : π → σ
  lost : List π

namespace Cells

variable {ι π κ σ : Type} [DecidableEq π] [DecidableEq κ] {free : σ}

def Unowned (x : Cells ι π κ σ) (p : π) : Prop := ∀ j y, x.own j ≠ some (p, y)

/-- The place of a cell. -/
inductive Placed (free : σ) (x : Cells ι π κ σ) (p : π) : Prop
  | owned {i : ι} {y : Claim κ σ} (hi : x.own i = some (p, y))
      (hj : ∀ j, j ≠ i → ∀ y', x.own j ≠ some (p, y')) (hcell : x.IsCell p)
      (hstate : x.state p = y.state)
      (hlists : ∀ c, (x.lists c).count p = if y.link = some c then 1 else 0)
      (hcls : ∀ c, y.link = some c → x.cls p = some c) (hlost : p ∉ x.lost)
  | standing (hown : x.Unowned p) (hlists : ∀ c, p ∉ x.lists c) (hlost : p ∉ x.lost)
      (hstate : x.IsCell p → x.state p ≠ free)
  | listed {c : κ} (hown : x.Unowned p) (hcell : x.IsCell p) (hstate : x.state p = free)
      (hlists : ∀ c', (x.lists c').count p = if c' = c then 1 else 0) (hcls : x.cls p = some c)
      (hlost : p ∉ x.lost)
  | lost (hown : x.Unowned p) (hlists : ∀ c, p ∉ x.lists c) (hcell : x.IsCell p)
      (hstate : x.state p = free) (hlost : p ∈ x.lost)

def Coherent (free : σ) (x : Cells ι π κ σ) : Prop := ∀ p, x.Placed free p

/-- Nothing changes about a cell. -/
structure SameAt (x x' : Cells ι π κ σ) (q : π) : Prop where
  own : ∀ j y, x'.own j = some (q, y) ↔ x.own j = some (q, y)
  lists : ∀ c, (x'.lists c).count q = (x.lists c).count q
  state : x.IsCell q → x'.state q = x.state q
  isCell : x'.IsCell q ↔ x.IsCell q
  cls : x.IsCell q → x'.cls q = x.cls q
  lost : q ∈ x'.lost ↔ q ∈ x.lost

variable {x x' : Cells ι π κ σ} {p q : π} {i : ι} {y : Claim κ σ} {c : κ}

theorem SameAt.unowned (h : SameAt x x' q) (hown : x.Unowned q) : x'.Unowned q :=
  fun j y hj => hown j y ((h.own j y).1 hj)

theorem SameAt.notMem (h : SameAt x x' q) {c : κ} (hq : q ∉ x.lists c) : q ∉ x'.lists c := by
  rw [← List.count_eq_zero] at hq ⊢
  rw [h.lists, hq]

theorem Placed.same (hp : x.Placed free q) (h : SameAt x x' q) : x'.Placed free q := by
  cases hp with
  | owned hi hj hcell hstate hlists hcls hlost =>
    exact .owned ((h.own _ _).2 hi) (fun j hne y' hj' => hj j hne y' ((h.own _ _).1 hj'))
      (h.isCell.2 hcell) ((h.state hcell).trans hstate) (fun c => (h.lists c).trans (hlists c))
      (fun c hc => (h.cls hcell).trans (hcls c hc)) (fun hl => hlost (h.lost.1 hl))
  | standing hown hlists hlost hstate =>
    refine .standing (h.unowned hown) (fun c => h.notMem (hlists c))
      (fun hl => hlost (h.lost.1 hl)) fun hcell => ?_
    rw [h.state (h.isCell.1 hcell)]
    exact hstate (h.isCell.1 hcell)
  | listed hown hcell hstate hlists hcls hlost =>
    exact .listed (h.unowned hown) (h.isCell.2 hcell) ((h.state hcell).trans hstate)
      (fun c => (h.lists c).trans (hlists c)) ((h.cls hcell).trans hcls)
      (fun hl => hlost (h.lost.1 hl))
  | lost hown hlists hcell hstate hlost =>
    exact .lost (h.unowned hown) (fun c => h.notMem (hlists c)) (h.isCell.2 hcell)
      ((h.state hcell).trans hstate) (h.lost.2 hlost)

/-- A move of one cell. -/
theorem Coherent.move (h : x.Coherent free) (p : π) (hsame : ∀ q, q ≠ p → SameAt x x' q)
    (hp : x'.Placed free p) : x'.Coherent free := by
  intro q
  by_cases hq : q = p
  · exact hq ▸ hp
  · exact (h q).same (hsame q hq)

theorem Coherent.same (h : x.Coherent free) (hsame : ∀ q, SameAt x x' q) : x'.Coherent free :=
  fun q => (h q).same (hsame q)

/-! ## Where a cell is -/

/-- The cell of a task. -/
structure Owner (x : Cells ι π κ σ) (i : ι) (p : π) (y : Claim κ σ) : Prop where
  alone : ∀ j, j ≠ i → ∀ y', x.own j ≠ some (p, y')
  cell : x.IsCell p
  state : x.state p = y.state
  lists : ∀ c, (x.lists c).count p = if y.link = some c then 1 else 0
  cls : ∀ c, y.link = some c → x.cls p = some c
  notLost : p ∉ x.lost

theorem Coherent.owner (h : x.Coherent free) (hi : x.own i = some (p, y)) : x.Owner i p y := by
  cases h p with
  | @owned i' y' hi' hj hcell hstate hlists hcls hlost =>
    obtain rfl : i = i' := by
      by_contra hne
      exact hj i hne y hi
    obtain rfl : y' = y := congrArg Prod.snd (Option.some.inj (hi'.symm.trans hi))
    exact ⟨hj, hcell, hstate, hlists, hcls, hlost⟩
  | standing hown => exact absurd hi (hown i y)
  | listed hown => exact absurd hi (hown i y)
  | lost hown => exact absurd hi (hown i y)

theorem Coherent.unique (h : x.Coherent free) {j : ι} {y' : Claim κ σ}
    (hi : x.own i = some (p, y)) (hj : x.own j = some (p, y')) : i = j := by
  by_contra hne
  exact (h.owner hi).alone j (Ne.symm hne) y' hj

/-- A cell in a list that no task is putting there. -/
structure InList (free : σ) (x : Cells ι π κ σ) (c : κ) (p : π) : Prop where
  unowned : x.Unowned p
  cell : x.IsCell p
  state : x.state p = free
  lists : ∀ c', (x.lists c').count p = if c' = c then 1 else 0
  cls : x.cls p = some c
  notLost : p ∉ x.lost

theorem Coherent.inList (h : x.Coherent free) (hp : p ∈ x.lists c)
    (hlink : ∀ i y, x.own i = some (p, y) → y.link ≠ some c) : x.InList free c p := by
  have hpos := List.count_pos_iff.2 hp
  cases h p with
  | owned hi hj hcell hstate hlists =>
    rw [hlists, if_neg (hlink _ _ hi)] at hpos
    cases hpos
  | standing hown hlists => exact absurd hp (hlists c)
  | @listed c' hown hcell hstate hlists hcls hlost =>
    rw [hlists] at hpos
    split at hpos
    · next heq =>
      subst heq
      exact ⟨hown, hcell, hstate, hlists, hcls, hlost⟩
    · cases hpos
  | lost hown hlists => exact absurd hp (hlists c)

/-- A cell without an owner that is not free stands by itself. -/
theorem Coherent.stands (h : x.Coherent free) (hown : x.Unowned p) (hcell : x.IsCell p)
    (hstate : x.state p ≠ free) : (∀ c, p ∉ x.lists c) ∧ p ∉ x.lost := by
  cases h p with
  | owned hi => exact absurd hi (hown _ _)
  | standing _ hlists hlost => exact ⟨hlists, hlost⟩
  | listed _ _ hstate' => exact absurd hstate' hstate
  | lost _ _ _ hstate' => exact absurd hstate' hstate

/-- A pointer that is not a cell is nowhere. -/
theorem Coherent.nowhere (h : x.Coherent free) (hcell : ¬x.IsCell p) :
    x.Unowned p ∧ (∀ c, p ∉ x.lists c) ∧ p ∉ x.lost := by
  cases h p with
  | owned _ _ hcell' => exact absurd hcell' hcell
  | standing hown hlists hlost => exact ⟨hown, hlists, hlost⟩
  | listed _ hcell' => exact absurd hcell' hcell
  | lost _ _ hcell' => exact absurd hcell' hcell

/-! ## Changes of one task -/

section Update

variable [DecidableEq ι] {own : ι → Option (π × Claim κ σ)} {new : Option (π × Claim κ σ)}

/-- Other cells do not notice what a task does with its own. -/
theorem own_update_iff (hold : ∀ y, own i = some (q, y) → q = p)
    (hnew : ∀ y, new = some (q, y) → q = p) (hq : q ≠ p) (j : ι) (y : Claim κ σ) :
    Function.update own i new j = some (q, y) ↔ own j = some (q, y) := by
  by_cases hj : j = i
  · subst hj
    rw [Function.update_self]
    exact iff_of_false (fun h => hq (hnew y h)) (fun h => hq (hold y h))
  · rw [Function.update_of_ne hj]

end Update

end Cells

end BfTree.Lib
