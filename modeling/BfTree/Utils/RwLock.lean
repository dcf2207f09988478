import Mathlib

/-!
# The readers-writer lock

One word per lock: twice the number of readers, plus one while a writer waits, or the
largest `u32` while a writer holds it. Every load, store and compare-exchange is one
atomic step. A wait may end at any time, as the loops check the word again anyway.
Fewer than `2 ^ 31 - 1` readers hold a lock at once, so that the word does not wrap.
-/

namespace BfTree

/-- The word of a lock that a writer holds. -/
def writeLocked : Nat := 2 ^ 32 - 1

inductive LockMode where
  | shared
  | exclusive
  deriving DecidableEq

/-- The next atomic step of a thread inside `read`, `write` or the drop of a guard. -/
inductive LockPc where
  | readLoad
  | readTest (v : Nat)
  | readWait
  | reading
  | writeLoad
  | writeTest (s : Nat)
  | writeWait
  | writing
  | released
  deriving DecidableEq

namespace LockPc

/-- The first step of `read` or `write`. -/
def enter : LockMode → LockPc
  | .shared => readLoad
  | .exclusive => writeLoad

/-- The guard is held. -/
def holds : LockPc → Bool
  | reading | writing => true
  | _ => false

/-- One atomic step on the lock word. `spurious` is a failure of `compare_exchange_weak`
that has no other reason. -/
def step (spurious : Bool) (word : Nat) : LockPc → LockPc × Nat
  | readLoad => (readTest word, word)
  | readTest v =>
    if v % 2 = 0 then
      if word = v ∧ spurious = false then (reading, v + 2)
      else if word % 2 = 0 then (readTest word, word)
      else (readWait, word)
    else (readWait, word)
  | readWait => (readLoad, word)
  | reading => (released, word - 2)
  | writeLoad => (writeTest word, word)
  | writeTest s =>
    if s ≤ 1 then
      if word = s then (writing, writeLocked) else (writeTest word, word)
    else if s % 2 = 0 then
      if word = s then (writeWait, s + 1) else (writeTest word, word)
    else (writeWait, word)
  | writeWait => (writeLoad, word)
  | writing => (released, 0)
  | released => (released, word)

/-- Nobody but its holder changes the word of a lock that a writer holds. -/
theorem step_writeLocked {pc : LockPc} (h : pc.holds = false) (spurious : Bool) :
    (pc.step spurious writeLocked).1.holds = false ∧ (pc.step spurious writeLocked).2 = writeLocked := by
  have hodd : writeLocked % 2 = 1 := rfl
  have hlarge : 1 < writeLocked := by decide
  cases pc with
  | readTest v =>
    have hne : v % 2 = 0 → writeLocked ≠ v := fun hv he => by omega
    simp only [step]
    split_ifs <;> simp_all [holds]
  | writeTest s =>
    have hne : s ≤ 1 → writeLocked ≠ s := fun hs he => by omega
    have hne' : s % 2 = 0 → writeLocked ≠ s := fun hs he => by omega
    simp only [step]
    split_ifs <;> simp_all [holds]
  | reading => cases h
  | writing => cases h
  | _ => exact ⟨rfl, rfl⟩

/-- The steps of `read`. -/
def reads : LockPc → Bool
  | readLoad | readTest _ | readWait | reading | released => true
  | _ => false

/-- A reader takes the guard with its compare-exchange and leaves the word alone before. -/
theorem step_reads {pc : LockPc} (hr : pc.reads = true) (h : pc.holds = false) (spurious : Bool)
    (word : Nat) :
    (pc.step spurious word).1.reads = true ∧
      ((pc.step spurious word).1.holds = false ∧ (pc.step spurious word).2 = word ∨
        pc = .readTest word ∧ word % 2 = 0 ∧ spurious = false) := by
  cases pc with
  | readTest v =>
    simp only [step]
    split_ifs with hv hc <;> simp_all [holds, reads]
  | reading => cases h
  | writeLoad => cases hr
  | writeTest => cases hr
  | writeWait => cases hr
  | writing => cases hr
  | _ => exact ⟨rfl, .inl ⟨rfl, rfl⟩⟩

/-- Dropping the guard of a reader. -/
theorem step_reads_holds {pc : LockPc} (hr : pc.reads = true) (h : pc.holds = true) (spurious : Bool)
    (word : Nat) : (pc.step spurious word).1 = .released := by
  cases pc with
  | reading => rfl
  | writing => cases hr
  | _ => cases h

end LockPc

end BfTree
