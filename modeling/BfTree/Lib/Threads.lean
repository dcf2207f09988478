import Mathlib

/-!
# BfTree.Lib.Threads — one of many threads takes a step

The local states of the threads of a system are a function from threads to states, and a step
of one thread updates it at this thread. How many threads are in states of some kind changes
by what that one thread leaves and enters.
-/

namespace BfTree.Lib

variable {T α : Type} [DecidableEq T]

theorem exists_update_of {P : α → Prop} {f : T → α} {i : T} {a : α} (h : ∃ j, P (f j))
    (hi : P (f i) → P a) : ∃ j, P (Function.update f i a j) := by
  obtain ⟨j, hj⟩ := h
  by_cases hji : j = i
  · subst hji
    exact ⟨j, by rw [Function.update_self]; exact hi hj⟩
  · exact ⟨j, by rwa [Function.update_of_ne hji]⟩

theorem exists_or_of_exists_update {P : α → Prop} {f : T → α} {i : T} {a : α}
    (h : ∃ j, P (Function.update f i a j)) : P a ∨ ∃ j, P (f j) := by
  obtain ⟨j, hj⟩ := h
  by_cases hji : j = i
  · subst hji
    rw [Function.update_self] at hj
    exact .inl hj
  · rw [Function.update_of_ne hji] at hj
    exact .inr ⟨j, hj⟩

/-- How many threads are in a state of some kind. -/
def countOf [Fintype T] (p : α → Prop) [DecidablePred p] (f : T → α) : Nat :=
  (Finset.univ.filter fun i => p (f i)).card

variable [Fintype T] {p : α → Prop} [DecidablePred p] {f : T → α}

theorem countOf_update (i : T) (a : α) :
    countOf p (Function.update f i a) + (if p (f i) then 1 else 0) =
      countOf p f + if p a then 1 else 0 := by
  have hothers : ∀ j ∈ Finset.univ.erase i, (if p (Function.update f i a j) then 1 else 0) =
      if p (f j) then 1 else 0 := by
    intro j hj
    rw [Function.update_of_ne (Finset.ne_of_mem_erase hj)]
  simp only [countOf, Finset.card_filter]
  rw [← Finset.add_sum_erase _ _ (Finset.mem_univ i), ← Finset.add_sum_erase _ _ (Finset.mem_univ i),
    Finset.sum_congr rfl hothers, Function.update_self]
  omega

omit [DecidableEq T] in
theorem countOf_pos : 0 < countOf p f ↔ ∃ i, p (f i) := by
  simp [countOf, Finset.card_pos, Finset.filter_nonempty_iff]

omit [DecidableEq T] in
/-- At most one thread is in a state that is counted at most once. -/
theorem eq_of_countOf_le_one (h : countOf p f ≤ 1) {i j : T} (hi : p (f i)) (hj : p (f j)) : i = j :=
  Finset.card_le_one.1 h i (by simpa using hi) j (by simpa using hj)

omit [DecidableEq T] in
theorem countOf_congr {β : Type} {q : β → Prop} [DecidablePred q] {g : T → β}
    (h : ∀ i, p (f i) ↔ q (g i)) : countOf p f = countOf q g := by
  rw [countOf, countOf, Finset.filter_congr fun i _ => h i]

end BfTree.Lib
