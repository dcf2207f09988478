import Mathlib

/-!
# BfTree.Lib.Lex — the lexicographic order on strings

Strings are compared letter by letter, a proper initial part before its
extensions. The order itself is Mathlib's order on `List`; this file adds what a
page that stores keys without their common initial part relies on: cutting the
same initial part from two strings keeps their order, every string between two
strings that share an initial part shares it too, and a comparison may look at
a few leading letters first.
-/

namespace BfTree.Lib

/-- Bytes are linearly ordered by their value. -/
instance byteLinearOrder : LinearOrder UInt8 where
  le_refl := UInt8.le_refl
  le_trans _ _ _ := UInt8.le_trans
  le_antisymm _ _ := UInt8.le_antisymm
  le_total := UInt8.le_total
  lt_iff_le_not_ge a b := by
    rw [UInt8.lt_iff_le_and_ne]
    constructor
    · rintro ⟨h, hne⟩
      exact ⟨h, fun h' => hne (UInt8.le_antisymm h h')⟩
    · rintro ⟨h, hn⟩
      exact ⟨h, fun e => hn (e ▸ UInt8.le_refl _)⟩
  toDecidableLE := inferInstance
  toDecidableLT := inferInstance
  toDecidableEq := inferInstance

variable {α : Type} [LinearOrder α]

/-! ## Cutting a common initial part -/

/-- Strings that start with the same letters compare as their remainders do. -/
theorem append_lt_append_iff (p a b : List α) : p ++ a < p ++ b ↔ a < b := by
  induction p with
  | nil => rfl
  | cons x p ih => simp [ih]

theorem append_le_append_iff (p a b : List α) : p ++ a ≤ p ++ b ↔ a ≤ b := by
  rw [← not_lt, ← not_lt, append_lt_append_iff]

theorem nil_le (a : List α) : [] ≤ a := by
  cases a with
  | nil => exact le_refl _
  | cons x a => exact le_of_lt (List.nil_lt_cons x a)

/-- The empty string is below every other string. -/
theorem nil_lt_iff {a : List α} : [] < a ↔ a ≠ [] := by
  rw [lt_iff_le_and_ne]
  exact ⟨fun h e => h.2 e.symm, fun h => ⟨nil_le a, fun e => h e.symm⟩⟩

/-- **Betweenness.** A string between two strings that start with `p` starts
with `p` as well. -/
theorem eq_append_of_between {p a b k : List α} (hlo : p ++ a ≤ k) (hhi : k < p ++ b) :
    ∃ c, k = p ++ c := by
  induction p generalizing k with
  | nil => exact ⟨k, rfl⟩
  | cons x p ih =>
    cases k with
    | nil => exact absurd (List.nil_lt_cons x (p ++ a)) (not_lt.2 hlo)
    | cons y k =>
      rw [List.cons_append] at hlo hhi
      have hxy : x = y := by
        rcases List.cons_lt_cons_iff.1 hhi with h | h
        · rcases lt_or_eq_of_le hlo with h' | h'
          · rcases List.cons_lt_cons_iff.1 h' with h'' | h''
            · exact absurd h (lt_asymm h'')
            · exact h''.1
          · exact (List.cons.inj h').1
        · exact h.1.symm
      subst hxy
      have hlo' : p ++ a ≤ k := (append_le_append_iff [x] (p ++ a) k).1 hlo
      have hhi' : k < p ++ b := (append_lt_append_iff [x] k (p ++ b)).1 hhi
      obtain ⟨c, hc⟩ := ih hlo' hhi'
      exact ⟨c, by rw [hc, List.cons_append]⟩

/-! ## Three-way comparison -/

/-- The three-way comparison of two strings. -/
def lexCmp (a b : List α) : Ordering :=
  if a < b then .lt else if b < a then .gt else .eq

theorem lexCmp_eq_lt {a b : List α} : lexCmp a b = .lt ↔ a < b := by
  unfold lexCmp
  split
  · simp_all
  · split <;> simp_all

theorem lexCmp_eq_gt {a b : List α} : lexCmp a b = .gt ↔ b < a := by
  unfold lexCmp
  split
  · next h => simp [lt_asymm h]
  · split <;> simp_all

theorem lexCmp_eq_eq {a b : List α} : lexCmp a b = .eq ↔ a = b := by
  unfold lexCmp
  split
  · next h => simp [ne_of_lt h]
  · split
    · next h => simp [ne_of_gt h]
    · next h h' => simp [le_antisymm (not_lt.1 h') (not_lt.1 h)]

theorem lexCmp_self (a : List α) : lexCmp a a = .eq :=
  lexCmp_eq_eq.2 rfl

theorem lexCmp_append_append (p a b : List α) : lexCmp (p ++ a) (p ++ b) = lexCmp a b := by
  simp only [lexCmp, append_lt_append_iff]

/-- If the first `n` letters differ, they decide the comparison. -/
theorem lexCmp_take (n : Nat) (a b : List α) (h : a.take n ≠ b.take n) :
    lexCmp (a.take n) (b.take n) = lexCmp a b := by
  induction n generalizing a b with
  | zero => simp at h
  | succ n ih =>
    cases a with
    | nil =>
      cases b with
      | nil => rfl
      | cons y b => rfl
    | cons x a =>
      cases b with
      | nil => rfl
      | cons y b =>
        rw [List.take_succ_cons, List.take_succ_cons] at h ⊢
        rcases lt_trichotomy x y with hxy | hxy | hxy
        · rw [lexCmp_eq_lt.2 (List.cons_lt_cons_iff.2 (.inl hxy)),
            lexCmp_eq_lt.2 (List.cons_lt_cons_iff.2 (.inl hxy))]
        · subst hxy
          have hne : a.take n ≠ b.take n := fun e => h (by rw [e])
          have hcut := ih a b hne
          rwa [← lexCmp_append_append [x] a b, ← lexCmp_append_append [x]] at hcut
        · rw [lexCmp_eq_gt.2 (List.cons_lt_cons_iff.2 (.inl hxy)),
            lexCmp_eq_gt.2 (List.cons_lt_cons_iff.2 (.inl hxy))]

/-- Comparing `n` leading letters first, and the whole strings or only what
follows those letters on a tie, is comparing the whole strings. -/
theorem lexCmp_take_then (n : Nat) (a b : List α) (c : Ordering)
    (hc : c = lexCmp a b ∨ c = lexCmp (a.drop n) (b.drop n)) :
    (lexCmp (a.take n) (b.take n)).then c = lexCmp a b := by
  rcases eq_or_ne (a.take n) (b.take n) with h | h
  · rw [lexCmp_eq_eq.2 h, Ordering.then]
    rcases hc with hc | hc
    · exact hc
    · conv_rhs => rw [← List.take_append_drop n a, ← List.take_append_drop n b, h]
      rw [lexCmp_append_append, hc]
  · have hne : lexCmp (a.take n) (b.take n) ≠ .eq := fun e => h (lexCmp_eq_eq.1 e)
    rw [lexCmp_take n a b h] at hne ⊢
    cases hab : lexCmp a b with
    | eq => exact absurd hab hne
    | lt => rfl
    | gt => rfl

end BfTree.Lib
