import Mathlib

/-!
# BfTree.Lib.Tiling — blocks one after the other

Blocks of any lengths that cover a range of addresses without gaps, and their images
in a ring: addresses modulo a capacity that the range does not exceed.
-/

namespace BfTree.Lib

/-- The blocks `bs` cover the addresses from `a` to `b`; the one at `x` is `len x` long. -/
inductive Tiling (len : Nat → Nat) : Nat → List Nat → Nat → Prop
  | nil (a : Nat) : Tiling len a [] a
  | cons {a b : Nat} {bs : List Nat} (hpos : 0 < len a) (h : Tiling len (a + len a) bs b) :
      Tiling len a (a :: bs) b

/-- The blocks from `a` on, up to the one that ends at `b`. -/
def walk (len : Nat → Nat) : (fuel a b : Nat) → List Nat
  | 0, _, _ => []
  | fuel + 1, a, b => if a = b then [] else a :: walk len fuel (a + len a) b

namespace Tiling

variable {len len' : Nat → Nat} {a b m x y : Nat} {bs cs : List Nat}

theorem le (h : Tiling len a bs b) : a ≤ b := by
  induction h with
  | nil => exact Nat.le_refl _
  | cons _ _ ih => omega

theorem length_le (h : Tiling len a bs b) : bs.length ≤ b - a := by
  induction h with
  | nil => exact Nat.zero_le _
  | cons hpos h ih =>
    have := h.le
    rw [List.length_cons]
    omega

theorem walk_eq (h : Tiling len a bs b) : ∀ {fuel : Nat}, bs.length ≤ fuel →
    walk len fuel a b = bs := by
  induction h with
  | nil =>
    intro fuel _
    cases fuel with
    | zero => rfl
    | succ fuel => rw [walk, if_pos rfl]
  | cons hpos h ih =>
    intro fuel hfuel
    cases fuel with
    | zero => cases hfuel
    | succ fuel =>
      have := h.le
      rw [walk, if_neg (by omega), ih (Nat.le_of_succ_le_succ hfuel)]

theorem append (h : Tiling len a bs m) (h' : Tiling len m cs b) : Tiling len a (bs ++ cs) b := by
  induction h with
  | nil => exact h'
  | cons hpos _ ih => exact .cons hpos (ih h')

theorem snoc (h : Tiling len a bs b) (hpos : 0 < len b) :
    Tiling len a (bs ++ [b]) (b + len b) :=
  h.append (.cons hpos (.nil _))

theorem bounds (h : Tiling len a bs b) (hx : x ∈ bs) : a ≤ x ∧ x + len x ≤ b ∧ 0 < len x := by
  induction h with
  | nil => cases hx
  | cons hpos h ih =>
    have := h.le
    rcases List.mem_cons.1 hx with rfl | hx
    · omega
    · have := ih hx
      omega

/-- The first block, if there is any. -/
theorem head_mem (h : Tiling len a bs b) (hlt : a < b) : ∃ bs', bs = a :: bs' ∧
    Tiling len (a + len a) bs' b := by
  cases h with
  | nil => omega
  | cons _ h => exact ⟨_, rfl, h⟩

theorem lt_of_lt (h : Tiling len a bs b) (hx : x ∈ bs) (hy : y ∈ bs) (hxy : x < y) :
    x + len x ≤ y := by
  induction h with
  | nil => cases hx
  | cons hpos h ih =>
    rcases List.mem_cons.1 hx with rfl | hx' <;> rcases List.mem_cons.1 hy with rfl | hy'
    · omega
    · exact (h.bounds hy').1
    · have := (h.bounds hx').1
      omega
    · exact ih hx' hy'

theorem congr (h : Tiling len a bs b) (heq : ∀ x ∈ bs, len' x = len x) : Tiling len' a bs b := by
  induction h with
  | nil => exact .nil _
  | @cons a b bs hpos h ih =>
    have ha := heq a List.mem_cons_self
    refine .cons (ha ▸ hpos) ?_
    rw [ha]
    exact ih fun x hx => heq x (List.mem_cons_of_mem _ hx)

theorem dvd {n : Nat} (h : Tiling len a bs b) (ha : n ∣ a) (hlen : ∀ x ∈ bs, n ∣ len x) : n ∣ b := by
  induction h with
  | nil => exact ha
  | @cons a b bs hpos h ih =>
    exact ih (Nat.dvd_add ha (hlen a List.mem_cons_self)) fun x hx =>
      hlen x (List.mem_cons_of_mem _ hx)

/-! ## In a ring -/

variable {capacity : Nat}

theorem mod_inj (h : Tiling len a bs b) (hcap : b ≤ a + capacity) (hx : x ∈ bs) (hy : y ∈ bs)
    (hmod : x % capacity = y % capacity) : x = y := by
  have key : ∀ {x y : Nat}, x ∈ bs → y ∈ bs → x % capacity = y % capacity → ¬x < y := by
    intro x y hx hy hmod hlt
    have hbx := h.bounds hx
    have hby := h.bounds hy
    have := Nat.le_of_dvd (by omega) ((Nat.modEq_iff_dvd' hlt.le).1 hmod)
    omega
  exact Nat.le_antisymm (Nat.not_lt.1 (key hy hx hmod.symm)) (Nat.not_lt.1 (key hx hy hmod))

/-- The end of the range is not the image of a block, as long as the ring is not full. -/
theorem mod_ne (h : Tiling len a bs b) (hcap : b < a + capacity) (hx : x ∈ bs) :
    x % capacity ≠ b % capacity := by
  intro hmod
  have hbx := h.bounds hx
  have := Nat.le_of_dvd (by omega) ((Nat.modEq_iff_dvd' (by omega)).1 hmod)
  omega

/-- Blocks that do not cross a multiple of the capacity do not overlap in the ring. -/
theorem disjoint (h : Tiling len a bs b) (hcap : b ≤ a + capacity) (hx : x ∈ bs) (hy : y ∈ bs)
    (hne : x ≠ y) (hinside : ∀ z ∈ bs, z % capacity + len z ≤ capacity) :
    x % capacity + len x ≤ y % capacity ∨ y % capacity + len y ≤ x % capacity := by
  have key : ∀ {x y : Nat}, x ∈ bs → y ∈ bs → x < y →
      x % capacity + len x ≤ y % capacity ∨ y % capacity + len y ≤ x % capacity := by
    intro x y hx hy hlt
    have hxy := h.lt_of_lt hx hy hlt
    have hbx := h.bounds hx
    have hby := h.bounds hy
    have hix := hinside x hx
    have hdx := Nat.div_add_mod x capacity
    have hdy := Nat.div_add_mod y capacity
    -- the two blocks are in the same lap, or the second one is in the next lap
    rcases Nat.lt_trichotomy (x / capacity) (y / capacity) with hq | hq | hq
    · have hle : capacity * (x / capacity + 1) ≤ capacity * (y / capacity) :=
        Nat.mul_le_mul_left _ hq
      rw [Nat.mul_add] at hle
      right
      omega
    · rw [hq] at hdx
      left
      omega
    · have := Nat.div_le_div_right (c := capacity) hlt.le
      omega
  rcases Nat.lt_or_gt_of_ne hne with hlt | hlt
  · exact key hx hy hlt
  · exact (key hy hx hlt).symm

end Tiling

end BfTree.Lib
