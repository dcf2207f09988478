import Mathlib

/-!
# BfTree.Lib.Bytes — numbers and records in byte buffers

Little-endian numbers of a fixed width, slices that fail when they are out of bounds,
and writes in the middle of a buffer.
-/

namespace BfTree.Lib

/-! ## Little-endian numbers -/

/-- The `width` lowest bytes of a number, lowest first. -/
def toLE : (width : Nat) → Nat → List UInt8
  | 0, _ => []
  | width + 1, n => UInt8.ofNat n :: toLE width (n / 256)

def ofLE : List UInt8 → Nat
  | [] => 0
  | b :: bs => b.toNat + 256 * ofLE bs

@[simp] theorem length_toLE (width n : Nat) : (toLE width n).length = width := by
  induction width generalizing n with
  | zero => rfl
  | succ width ih => rw [toLE, List.length_cons, ih]

theorem ofLE_toLE (width n : Nat) : ofLE (toLE width n) = n % 256 ^ width := by
  induction width generalizing n with
  | zero => rw [toLE, ofLE, Nat.pow_zero, Nat.mod_one]
  | succ width ih =>
    have hbyte : (UInt8.ofNat n).toNat = n % 256 := by simp
    have hpow : 256 ^ (width + 1) = 256 * 256 ^ width := by rw [Nat.pow_succ, Nat.mul_comm]
    rw [toLE, ofLE, ih, hbyte, hpow, Nat.mod_mul]

theorem ofLE_toLE_of_lt {width n : Nat} (h : n < 256 ^ width) : ofLE (toLE width n) = n := by
  rw [ofLE_toLE, Nat.mod_eq_of_lt h]

/-! ## Slices and writes -/

variable {α : Type}

/-- The elements from `lo` to `hi`, if they exist. -/
def slice (l : List α) (lo hi : Nat) : Option (List α) :=
  if lo ≤ hi ∧ hi ≤ l.length then some ((l.drop lo).take (hi - lo)) else none

/-- Replace what stands at `offset`. -/
def writeAt (l : List α) (offset : Nat) (data : List α) : List α :=
  l.take offset ++ data ++ l.drop (offset + data.length)

/-- A slice between a known front and rest. -/
theorem slice_append {A B C : List α} {lo hi : Nat} (hlo : A.length = lo)
    (hhi : A.length + B.length = hi) : slice (A ++ (B ++ C)) lo hi = some B := by
  subst hlo hhi
  rw [slice, if_pos ⟨Nat.le_add_right _ _, by simp⟩, List.drop_left, Nat.add_sub_cancel_left,
    List.take_left]

theorem length_of_slice {l s : List α} {lo hi : Nat} (h : slice l lo hi = some s) :
    lo ≤ hi ∧ hi ≤ l.length ∧ s.length = hi - lo := by
  rw [slice] at h
  split at h
  · next hle =>
    cases h
    refine ⟨hle.1, hle.2, ?_⟩
    rw [List.length_take, List.length_drop]
    omega
  · cases h

theorem writeAt_append {A B C data : List α} {offset : Nat} (ho : A.length = offset)
    (hlen : data.length = B.length) : writeAt (A ++ (B ++ C)) offset data = A ++ (data ++ C) := by
  subst ho
  rw [writeAt, List.take_left, List.append_assoc, ← List.drop_drop, List.drop_left, hlen,
    List.drop_left]

theorem length_writeAt {l data : List α} {offset : Nat} (h : offset + data.length ≤ l.length) :
    (writeAt l offset data).length = l.length := by
  simp only [writeAt, List.length_append, List.length_take, List.length_drop]
  omega

/-- A write behind a known front. -/
theorem writeAt_front (A B data : List α) :
    writeAt (A ++ B) A.length data = A ++ data ++ B.drop data.length := by
  rw [writeAt, List.take_left, ← List.drop_drop, List.drop_left]

end BfTree.Lib
