import Mathlib

/-!
# BfTree.Lib.Prog — programs that change a state, fail or panic

A program over a state `σ` returns a value, fails with an error (the state keeps
what it did before the failure), or panics and has no result. `wp` is its weakest
precondition for partial correctness: one postcondition for a normal return and
one for an error, nothing about panics. The rules below rewrite the weakest
precondition of a composed program into those of its parts.
-/

namespace BfTree.Lib

/-- A state-changing program with errors `ε`; `none` is a panic. -/
def Prog (σ ε α : Type) : Type := σ → Option (Except ε α × σ)

namespace Prog

variable {σ ε α β : Type}

protected def pure (a : α) : Prog σ ε α := fun s => some (.ok a, s)

protected def bind (m : Prog σ ε α) (f : α → Prog σ ε β) : Prog σ ε β := fun s =>
  match m s with
  | none => none
  | some (.ok a, s') => f a s'
  | some (.error e, s') => some (.error e, s')

instance : Monad (Prog σ ε) where
  pure := Prog.pure
  bind := Prog.bind

/-- Return early with an error. -/
def fail (e : ε) : Prog σ ε α := fun s => some (.error e, s)

def crash : Prog σ ε α := fun _ => none

def get : Prog σ ε σ := fun s => some (.ok s, s)

def modify (f : σ → σ) : Prog σ ε Unit := fun s => some (.ok (), f s)

/-- Take the value or panic. -/
def unwrap (o : Option α) : Prog σ ε α := fun s => o.map fun a => (.ok a, s)

/-- Panic unless the condition holds. -/
def assert (b : Bool) : Prog σ ε Unit := if b then Prog.pure () else crash

/-- Go on after an error. -/
def handle (m : Prog σ ε α) (h : ε → Prog σ ε α) : Prog σ ε α := fun s =>
  match m s with
  | some (.error e, s') => h e s'
  | r => r

/-- Run for the effect only. -/
def ignore (m : Prog σ ε α) : Prog σ ε Unit :=
  handle (m >>= fun _ => pure ()) fun _ => pure ()

theorem pure_apply (a : α) (s : σ) : (pure a : Prog σ ε α) s = some (.ok a, s) := rfl

theorem get_apply (s : σ) : (get : Prog σ ε σ) s = some (.ok s, s) := rfl

/-- The rest of a program whose first part has returned. -/
theorem bind_of_ok {m : Prog σ ε α} {f : α → Prog σ ε β} {s s' : σ} {a : α}
    (h : m s = some (.ok a, s')) : (m >>= f) s = f a s' := by
  show Prog.bind m f s = f a s'
  rw [Prog.bind, h]

theorem bind_of_none {m : Prog σ ε α} {f : α → Prog σ ε β} {s : σ} (h : m s = none) :
    (m >>= f) s = none := by
  show Prog.bind m f s = none
  rw [Prog.bind, h]

theorem bind_of_error {m : Prog σ ε α} {f : α → Prog σ ε β} {s s' : σ} {e : ε}
    (h : m s = some (.error e, s')) : (m >>= f) s = some (.error e, s') := by
  show Prog.bind m f s = _
  rw [Prog.bind, h]

theorem handle_of_ok {m : Prog σ ε α} {h : ε → Prog σ ε α} {s s' : σ} {a : α}
    (hm : m s = some (.ok a, s')) : handle m h s = some (.ok a, s') := by
  rw [handle, hm]

/-! ## Weakest preconditions -/

/-- If `m` returns normally then `Q` holds, if it fails then `E` holds. -/
def wp (m : Prog σ ε α) (Q : α → σ → Prop) (E : ε → σ → Prop) (s : σ) : Prop :=
  (∀ a s', m s = some (.ok a, s') → Q a s') ∧ ∀ e s', m s = some (.error e, s') → E e s'

variable {Q Q' : α → σ → Prop} {E E' : ε → σ → Prop} {s : σ}

theorem wp_mono {m : Prog σ ε α} (h : wp m Q E s) (hQ : ∀ a s', Q a s' → Q' a s')
    (hE : ∀ e s', E e s' → E' e s') : wp m Q' E' s :=
  ⟨fun a s' hm => hQ a s' (h.1 a s' hm), fun e s' hm => hE e s' (h.2 e s' hm)⟩

theorem wp_of_ok {m : Prog σ ε α} {a : α} {s' : σ} (h : m s = some (.ok a, s')) (hQ : Q a s') :
    wp m Q E s := by
  constructor
  · intro b t hm
    obtain ⟨⟨⟩, rfl⟩ := Prod.mk.inj (Option.some.inj (h.symm.trans hm))
    exact hQ
  · intro e t hm
    cases h.symm.trans hm

@[simp] theorem wp_pure (a : α) : wp (pure a : Prog σ ε α) Q E s ↔ Q a s := by
  constructor
  · intro h
    exact h.1 a s rfl
  · intro h
    refine ⟨fun b s' hb => ?_, fun e s' hb => ?_⟩
    · cases hb; exact h
    · cases hb

@[simp] theorem wp_bind (m : Prog σ ε α) (f : α → Prog σ ε β) {Q : β → σ → Prop} :
    wp (m >>= f) Q E s ↔ wp m (fun a s' => wp (f a) Q E s') E s := by
  have hbind : (m >>= f) s = match m s with
      | none => none
      | some (.ok a, s') => f a s'
      | some (.error e, s') => some (.error e, s') := rfl
  unfold wp
  rw [hbind]
  cases hm : m s with
  | none => simp
  | some r =>
    obtain ⟨r, s'⟩ := r
    cases r with
    | ok a =>
      constructor
      · intro h
        exact ⟨fun b t hb => (by cases hb; exact h), fun e t hb => (by cases hb)⟩
      · intro h
        exact h.1 a s' rfl
    | error e =>
      constructor
      · intro h
        exact ⟨fun b t hb => (by cases hb), fun e' t hb => by cases hb; exact h.2 e s' rfl⟩
      · intro h
        exact ⟨fun b t hb => (by cases hb), fun e' t hb => by cases hb; exact h.2 e s' rfl⟩

@[simp] theorem wp_fail (e : ε) : wp (fail e : Prog σ ε α) Q E s ↔ E e s := by
  constructor
  · intro h
    exact h.2 e s rfl
  · intro h
    exact ⟨fun b t hb => (by simp [fail] at hb), fun e' t hb => by cases hb; exact h⟩

@[simp] theorem wp_crash : wp (crash : Prog σ ε α) Q E s ↔ True := by
  simp [wp, crash]

@[simp] theorem wp_get {Q : σ → σ → Prop} : wp (get : Prog σ ε σ) Q E s ↔ Q s s := by
  constructor
  · intro h
    exact h.1 s s rfl
  · intro h
    exact ⟨fun b t hb => (by cases hb; exact h), fun e t hb => (by cases hb)⟩

@[simp] theorem wp_modify {Q : Unit → σ → Prop} (f : σ → σ) :
    wp (modify f : Prog σ ε Unit) Q E s ↔ Q () (f s) := by
  constructor
  · intro h
    exact h.1 () (f s) rfl
  · intro h
    exact ⟨fun b t hb => (by cases hb; exact h), fun e t hb => (by cases hb)⟩

@[simp] theorem wp_unwrap (o : Option α) :
    wp (unwrap o : Prog σ ε α) Q E s ↔ ∀ a, o = some a → Q a s := by
  cases o with
  | none => simp [wp, unwrap]
  | some a =>
    constructor
    · intro h b hb
      exact h.1 b s (by simp [unwrap, hb])
    · intro h
      exact ⟨fun b t hb => (by cases hb; exact h a rfl), fun e t hb => by simp [unwrap] at hb⟩

@[simp] theorem wp_assert {Q : Unit → σ → Prop} (b : Bool) :
    wp (assert b : Prog σ ε Unit) Q E s ↔ (b = true → Q () s) := by
  cases b with
  | false => simp [assert]
  | true =>
    have hpure : wp (pure () : Prog σ ε Unit) Q E s ↔ Q () s := wp_pure ()
    exact hpure.trans (by simp)

@[simp] theorem wp_handle (m : Prog σ ε α) (h : ε → Prog σ ε α) :
    wp (handle m h) Q E s ↔ wp m Q (fun e s' => wp (h e) Q E s') s := by
  have hdef : handle m h s = match m s with
      | some (.error e, s') => h e s'
      | r => r := rfl
  unfold wp
  rw [hdef]
  cases hm : m s with
  | none => simp
  | some r =>
    obtain ⟨r, s'⟩ := r
    cases r with
    | ok a =>
      constructor
      · intro hw
        exact ⟨hw.1, fun e t he => by cases he⟩
      · intro hw
        exact ⟨hw.1, fun e t he => by cases he⟩
    | error e =>
      constructor
      · intro hw
        exact ⟨fun a t ha => (by cases ha), fun e' t he => by cases he; exact hw⟩
      · intro hw
        exact hw.2 e s' rfl

@[simp] theorem wp_ignore (m : Prog σ ε α) {Q : Unit → σ → Prop} :
    wp (ignore m) Q E s ↔ wp m (fun _ => Q ()) (fun _ => Q ()) s := by
  simp only [ignore, wp_handle, wp_bind, wp_pure]

theorem wp_and {m : Prog σ ε α} (h : wp m Q E s) (h' : wp m Q' E' s) :
    wp m (fun a s' => Q a s' ∧ Q' a s') (fun e s' => E e s' ∧ E' e s') s :=
  ⟨fun a s' hm => ⟨h.1 a s' hm, h'.1 a s' hm⟩, fun e s' hm => ⟨h.2 e s' hm, h'.2 e s' hm⟩⟩

theorem wp_ite {c : Prop} [Decidable c] {m m' : Prog σ ε α} (ht : c → wp m Q E s)
    (hf : ¬ c → wp m' Q E s) : wp (if c then m else m') Q E s := by
  by_cases h : c
  · rw [if_pos h]; exact ht h
  · rw [if_neg h]; exact hf h

/-- `P` holds however the program ends. -/
def Ensures (m : Prog σ ε α) (P : σ → Prop) (s : σ) : Prop :=
  wp m (fun _ => P) (fun _ => P) s

theorem Ensures.mono {m : Prog σ ε α} {P P' : σ → Prop} (h : Ensures m P s)
    (hP : ∀ s', P s' → P' s') : Ensures m P' s :=
  wp_mono h (fun _ => hP) (fun _ => hP)

theorem Ensures.bind {m : Prog σ ε α} {f : α → Prog σ ε β} {P : σ → Prop}
    (h : wp m (fun a s' => Ensures (f a) P s') (fun _ => P) s) : Ensures (m >>= f) P s :=
  (wp_bind m f).2 h

/-! ## State invariants -/

/-- However the program ends, it keeps `I`; what it returns satisfies `R`. -/
def Holds (I : σ → Prop) (R : α → Prop) (m : Prog σ ε α) : Prop :=
  ∀ s, I s → wp m (fun a s' => I s' ∧ R a) (fun _ => I) s

namespace Holds

variable {I : σ → Prop} {R : α → Prop} {R' : β → Prop} {m : Prog σ ε α}

theorem mono {R' : α → Prop} (h : Holds I R m) (hR : ∀ a, R a → R' a) : Holds I R' m :=
  fun s hs => wp_mono (h s hs) (fun a _ ha => ⟨ha.1, hR a ha.2⟩) fun _ _ he => he

theorem bind {f : α → Prog σ ε β} (h : Holds I R m) (hf : ∀ a, R a → Holds I R' (f a)) :
    Holds I R' (m >>= f) := fun s hs =>
  (wp_bind m f).2 (wp_mono (h s hs) (fun a s' ha => hf a ha.2 s' ha.1) fun _ _ he => he)

theorem pure {a : α} (h : R a) : Holds I R (pure a : Prog σ ε α) :=
  fun _ hs => (wp_pure a).2 ⟨hs, h⟩

theorem fail (e : ε) : Holds I R (fail e : Prog σ ε α) := fun _ hs => (wp_fail e).2 hs

theorem crash : Holds I R (crash : Prog σ ε α) := fun _ _ => wp_crash.2 trivial

theorem get : Holds I I (get : Prog σ ε σ) := fun _ hs => wp_get.2 ⟨hs, hs⟩

theorem modify {f : σ → σ} (h : ∀ s, I s → I (f s)) :
    Holds I (fun _ => True) (modify f : Prog σ ε Unit) :=
  fun s hs => (wp_modify f).2 ⟨h s hs, trivial⟩

theorem unwrap (o : Option α) : Holds I (fun a => o = some a) (unwrap o : Prog σ ε α) :=
  fun _ hs => (wp_unwrap o).2 fun _ ha => ⟨hs, ha⟩

theorem assert (b : Bool) : Holds I (fun _ => b = true) (assert b : Prog σ ε Unit) :=
  fun _ hs => (wp_assert b).2 fun hb => ⟨hs, hb⟩

theorem ite {c : Prop} [Decidable c] {m' : Prog σ ε α} (ht : c → Holds I R m)
    (hf : ¬ c → Holds I R m') : Holds I R (if c then m else m') :=
  fun s hs => wp_ite (fun hc => ht hc s hs) (fun hc => hf hc s hs)

theorem handle {h : ε → Prog σ ε α} (hm : Holds I R m) (hh : ∀ e, Holds I R (h e)) :
    Holds I R (handle m h) := fun s hs =>
  (wp_handle m h).2 (wp_mono (hm s hs) (fun _ _ ha => ha) fun e s' he => hh e s' he)

theorem ignore (hm : Holds I R m) : Holds I (fun _ => True) (ignore m) := fun s hs =>
  (wp_ignore m).2 (wp_mono (hm s hs) (fun _ _ ha => ⟨ha.1, trivial⟩) fun _ _ he => ⟨he, trivial⟩)

end Holds

/-! ## Two runs -/

/-- Two runs end alike: both panic, both fail with the same error, or both return, with
values and states that are related. -/
def Twins (R : α → σ → β → σ → Prop) (m : Prog σ ε α) (m' : Prog σ ε β) (s s' : σ) : Prop :=
  match m s, m' s' with
  | none, none => True
  | some (.error e, _), some (.error e', _) => e = e'
  | some (.ok a, t), some (.ok b, t') => R a t b t'
  | _, _ => False

namespace Twins

variable {γ δ : Type} {R : α → σ → β → σ → Prop} {R' : γ → σ → δ → σ → Prop} {m : Prog σ ε α}
  {m' : Prog σ ε β} {s s' : σ}

theorem bind {f : α → Prog σ ε γ} {f' : β → Prog σ ε δ} (h : Twins R m m' s s')
    (hf : ∀ a t b t', R a t b t' → Twins R' (f a) (f' b) t t') :
    Twins R' (m >>= f) (m' >>= f') s s' := by
  unfold Twins at h
  split at h
  · next hm hm' =>
    simp only [Twins, bind_of_none hm, bind_of_none hm']
  · next hm hm' =>
    simpa only [Twins, bind_of_error hm, bind_of_error hm'] using h
  · next hm hm' =>
    unfold Twins
    rw [bind_of_ok hm, bind_of_ok hm']
    exact hf _ _ _ _ h
  · exact h.elim

/-- Both runs have returned from their first parts. -/
theorem bind_ok {f : α → Prog σ ε γ} {f' : β → Prog σ ε δ} {a : α} {b : β} {t t' : σ}
    (h : m s = some (.ok a, t)) (h' : m' s' = some (.ok b, t')) (hf : Twins R' (f a) (f' b) t t') :
    Twins R' (m >>= f) (m' >>= f') s s' := by
  unfold Twins
  rw [bind_of_ok h, bind_of_ok h']
  exact hf

/-- A run is its own twin. -/
theorem of_wp {R : α → σ → α → σ → Prop} (h : wp m (fun a t => R a t a t) (fun _ _ => True) s) :
    Twins R m m s s := by
  unfold Twins
  split
  · trivial
  · next he he' =>
    rw [he] at he'
    cases he'
    rfl
  · next ha hb =>
    rw [ha] at hb
    cases hb
    exact h.1 _ _ ha
  · next hno hno' hno'' =>
    cases hm : m s with
    | none => exact hno hm hm
    | some r =>
      obtain ⟨r | r, s'⟩ := r
      · exact hno' _ _ _ _ hm hm
      · exact hno'' _ _ _ _ hm hm

theorem pure {a : α} {b : β} (h : R a s b s') :
    Twins R (pure a : Prog σ ε α) (pure b) s s' := h

theorem fail (e : ε) : Twins R (fail e) (fail e) s s' := rfl

/-- Both runs take the same value or panic. -/
theorem bind_unwrap {o : Option α} {f : α → Prog σ ε γ} {f' : α → Prog σ ε δ}
    (hf : ∀ a, o = some a → Twins R' (f a) (f' a) s s') :
    Twins R' (Prog.unwrap o >>= f) (Prog.unwrap o >>= f') s s' := by
  cases o with
  | none => trivial
  | some a => exact hf a rfl

theorem ite {c c' : Prop} [Decidable c] [Decidable c'] {n : Prog σ ε α} {n' : Prog σ ε β}
    (hc : c' ↔ c) (ht : c → Twins R m m' s s') (hf : ¬ c → Twins R n n' s s') :
    Twins R (if c then m else n) (if c' then m' else n') s s' := by
  by_cases h : c
  · rw [if_pos h, if_pos (hc.2 h)]
    exact ht h
  · rw [if_neg h, if_neg (mt hc.1 h)]
    exact hf h

end Twins

end Prog

export Prog (Ensures bind_of_error bind_of_none bind_of_ok get_apply wp wp_and wp_assert wp_bind
  wp_crash wp_fail wp_get wp_handle wp_ignore wp_ite wp_modify wp_mono wp_of_ok wp_pure wp_unwrap)

end BfTree.Lib
