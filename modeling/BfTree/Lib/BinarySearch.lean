import Mathlib

/-!
# BfTree.Lib.BinarySearch — binary search over an index range

The search halves `[lower, upper)` with a three-way test of the middle index. It
answers `ok i` when the test finds index `i` equal and `error i` when the range
is exhausted at insertion point `i`. The range shrinks in every round, so its
length is enough fuel and the recursion is structural.
-/

namespace BfTree.Lib

/-- One binary search; `test i` compares entry `i` with what is searched for. -/
def binarySearch (test : Nat → Ordering) : (fuel lower upper : Nat) → Except Nat Nat
  | 0, lower, _ => .error lower
  | fuel + 1, lower, upper =>
    if lower < upper then
      let mid := lower + (upper - lower) / 2
      match test mid with
      | .gt => binarySearch test fuel lower mid
      | .eq => .ok mid
      | .lt => binarySearch test fuel (mid + 1) upper
    else .error lower

/-- The answer stays in the range, whatever the test says. -/
theorem binarySearch_le {test : Nat → Ordering} {i : Nat} :
    ∀ {fuel lower upper : Nat}, lower ≤ upper →
      binarySearch test fuel lower upper = .ok i ∨ binarySearch test fuel lower upper = .error i →
      i ≤ upper := by
  intro fuel
  induction fuel with
  | zero =>
    rintro lower upper hle (h | h)
    · cases h
    · cases h
      exact hle
  | succ fuel ih =>
    intro lower upper hle h
    rw [binarySearch] at h
    split at h
    · dsimp only at h
      split at h
      · exact Nat.le_trans (ih (by omega) h) (by omega)
      · rcases h with h | h <;> cases h
        omega
      · exact ih (by omega) h
    · rcases h with h | h <;> cases h
      exact hle

/-- A search in a part of the range. -/
theorem binarySearch_shift {test test' : Nat → Ordering} (lo : Nat) {n : Nat}
    (h : ∀ i, i < n → test (lo + i) = test' i) :
    ∀ {fuel lower upper : Nat}, upper ≤ n →
      binarySearch test fuel (lo + lower) (lo + upper) =
        match binarySearch test' fuel lower upper with
        | .ok i => .ok (lo + i)
        | .error i => .error (lo + i) := by
  intro fuel
  induction fuel with
  | zero => intros; rfl
  | succ fuel ih =>
    intro lower upper hle
    rw [binarySearch, binarySearch]
    by_cases hlt : lower < upper
    · have hmid : lo + lower + (lo + upper - (lo + lower)) / 2 = lo + (lower + (upper - lower) / 2) := by
        omega
      rw [if_pos (by omega), if_pos hlt]
      dsimp only
      rw [hmid, h _ (by omega)]
      cases test' (lower + (upper - lower) / 2) with
      | gt => exact ih (by omega)
      | eq => rfl
      | lt => exact @ih (lower + (upper - lower) / 2 + 1) upper hle
    · rw [if_neg (by omega), if_neg hlt]

/-- The test is strictly increasing on `[lo, hi)`: below an index that is not
greater, every index is smaller. -/
def StrictTest (test : Nat → Ordering) (lo hi : Nat) : Prop :=
  ∀ i j, lo ≤ i → i < j → j < hi → test j ≠ .gt → test i = .lt

theorem StrictTest.gt_of_not_lt {test : Nat → Ordering} {lo hi i j : Nat}
    (h : StrictTest test lo hi) (hi' : lo ≤ i) (hij : i < j) (hj : j < hi) (hnl : test i ≠ .lt) :
    test j = .gt := by
  by_contra hc
  exact hnl (h i j hi' hij hj hc)

/-- The answer splits the range: everything before it is smaller, nothing from it
on is smaller, and it is equal exactly when the answer is `ok`. -/
structure SearchSpec (test : Nat → Ordering) (lo hi : Nat) (r : Except Nat Nat) : Prop where
  ok : ∀ i, r = .ok i → lo ≤ i ∧ i < hi ∧ test i = .eq
  error : ∀ i, r = .error i →
    lo ≤ i ∧ i ≤ hi ∧ (∀ j, lo ≤ j → j < i → test j = .lt) ∧ ∀ j, i ≤ j → j < hi → test j = .gt

/-- Invariant of the rounds: what lies left of the range is smaller, what lies
right of it is greater. -/
private theorem binarySearch_spec_aux {test : Nat → Ordering} {lo hi : Nat}
    (hs : StrictTest test lo hi) :
    ∀ (fuel lower upper : Nat), upper - lower ≤ fuel → lo ≤ lower → lower ≤ upper → upper ≤ hi →
      (∀ j, lo ≤ j → j < lower → test j = .lt) → (∀ j, upper ≤ j → j < hi → test j = .gt) →
      SearchSpec test lo hi (binarySearch test fuel lower upper) := by
  intro fuel
  induction fuel with
  | zero =>
    intro lower upper hf hlo hlu hhi hleft hright
    have he : upper = lower := by omega
    subst he
    refine ⟨fun i h => by simp [binarySearch] at h, fun i h => ?_⟩
    obtain rfl : upper = i := by simpa [binarySearch] using h
    exact ⟨hlo, hhi, hleft, hright⟩
  | succ fuel ih =>
    intro lower upper hf hlo hlu hhi hleft hright
    rw [binarySearch]
    by_cases hlt : lower < upper
    · rw [if_pos hlt]
      have hmid : lower + (upper - lower) / 2 < upper := by omega
      cases ht : test (lower + (upper - lower) / 2) with
      | gt =>
        simp only [ht]
        refine ih lower _ (by omega) hlo (by omega) (by omega) hleft fun j hj hjh => ?_
        rcases Nat.lt_or_ge (lower + (upper - lower) / 2) j with h | h
        · exact hs.gt_of_not_lt (by omega) h hjh (by rw [ht]; decide)
        · rw [show j = lower + (upper - lower) / 2 by omega, ht]
      | eq =>
        simp only [ht]
        refine ⟨fun i h => ?_, fun i h => by simp at h⟩
        have hi' : lower + (upper - lower) / 2 = i := by simpa using h
        exact ⟨by omega, by omega, hi' ▸ ht⟩
      | lt =>
        simp only [ht]
        refine ih _ upper (by omega) (by omega) (by omega) hhi (fun j hj hjm => ?_) hright
        rcases Nat.lt_or_ge j (lower + (upper - lower) / 2) with h | h
        · exact hs j _ hj h (by omega) (by rw [ht]; decide)
        · rw [show j = lower + (upper - lower) / 2 by omega, ht]
    · rw [if_neg hlt]
      have he : upper = lower := by omega
      subst he
      refine ⟨fun i h => by simp at h, fun i h => ?_⟩
      obtain rfl : upper = i := by simpa using h
      exact ⟨hlo, hhi, hleft, hright⟩

/-- **Binary search is correct** on every strictly increasing test. -/
theorem binarySearch_spec {test : Nat → Ordering} {lo hi : Nat} (hle : lo ≤ hi)
    (hs : StrictTest test lo hi) : SearchSpec test lo hi (binarySearch test (hi - lo) lo hi) :=
  binarySearch_spec_aux hs (hi - lo) lo hi (Nat.le_refl _) (Nat.le_refl _) hle (Nat.le_refl _)
    (fun _ h h' => absurd h' (by omega)) (fun _ h h' => absurd h' (by omega))

end BfTree.Lib
