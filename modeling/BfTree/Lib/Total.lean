import BfTree.Lib.Prog

/-!
# BfTree.Lib.Total — total correctness of programs

`twp` is the weakest precondition that also rules out a panic: the program returns, with
one postcondition for a normal return and one for an error. The rules follow those of `wp`;
they differ where a program may panic.
-/

namespace BfTree.Lib

namespace Prog

variable {σ ε α β : Type}

/-- `m` returns; `Q` holds if it returns normally, and `E` if it fails. -/
def twp (m : Prog σ ε α) (Q : α → σ → Prop) (E : ε → σ → Prop) (s : σ) : Prop :=
  match m s with
  | some (.ok a, s') => Q a s'
  | some (.error e, s') => E e s'
  | none => False

variable {Q Q' : α → σ → Prop} {E E' : ε → σ → Prop} {s : σ}

/-- A program with a precondition returns. -/
theorem twp.returns {m : Prog σ ε α} (h : twp m Q E s) :
    (∃ a s', m s = some (.ok a, s') ∧ Q a s') ∨ ∃ e s', m s = some (.error e, s') ∧ E e s' := by
  rw [twp] at h
  cases hm : m s with
  | none => rw [hm] at h; exact h.elim
  | some r =>
    obtain ⟨r, s'⟩ := r
    rw [hm] at h
    cases r with
    | ok a => exact .inl ⟨a, s', rfl, h⟩
    | error e => exact .inr ⟨e, s', rfl, h⟩

theorem twp_mono {m : Prog σ ε α} (h : twp m Q E s) (hQ : ∀ a s', Q a s' → Q' a s')
    (hE : ∀ e s', E e s' → E' e s') : twp m Q' E' s := by
  obtain ⟨a, s', hm, ha⟩ | ⟨e, s', hm, he⟩ := h.returns
  · rw [twp, hm]
    exact hQ a s' ha
  · rw [twp, hm]
    exact hE e s' he

@[simp] theorem twp_pure (a : α) : twp (pure a : Prog σ ε α) Q E s ↔ Q a s := Iff.rfl

@[simp] theorem twp_bind (m : Prog σ ε α) (f : α → Prog σ ε β) {Q : β → σ → Prop} :
    twp (m >>= f) Q E s ↔ twp m (fun a s' => twp (f a) Q E s') E s := by
  have hbind : (m >>= f) s = Prog.bind m f s := rfl
  unfold twp
  rw [hbind, Prog.bind]
  cases m s with
  | none => rfl
  | some r =>
    obtain ⟨r, s'⟩ := r
    cases r <;> rfl

@[simp] theorem twp_fail (e : ε) : twp (fail e : Prog σ ε α) Q E s ↔ E e s := Iff.rfl

@[simp] theorem twp_get {Q : σ → σ → Prop} : twp (get : Prog σ ε σ) Q E s ↔ Q s s := Iff.rfl

@[simp] theorem twp_modify {Q : Unit → σ → Prop} (f : σ → σ) :
    twp (modify f : Prog σ ε Unit) Q E s ↔ Q () (f s) := Iff.rfl

@[simp] theorem twp_unwrap (o : Option α) :
    twp (unwrap o : Prog σ ε α) Q E s ↔ ∃ a, o = some a ∧ Q a s := by
  cases o with
  | none => simp [twp, unwrap]
  | some a => simp [twp, unwrap]

@[simp] theorem twp_assert {Q : Unit → σ → Prop} (b : Bool) :
    twp (assert b : Prog σ ε Unit) Q E s ↔ b = true ∧ Q () s := by
  cases b with
  | false => simp [twp, assert, crash]
  | true => exact (and_iff_right rfl).symm

theorem twp_ite {c : Prop} [Decidable c] {m m' : Prog σ ε α} (ht : c → twp m Q E s)
    (hf : ¬ c → twp m' Q E s) : twp (if c then m else m') Q E s := by
  by_cases h : c
  · rw [if_pos h]; exact ht h
  · rw [if_neg h]; exact hf h

end Prog

export Prog (twp twp_assert twp_bind twp_fail twp_get twp_ite twp_modify twp_mono twp_pure
  twp_unwrap)

end BfTree.Lib
