import BfTree.Lib.Threads
import BfTree.Utils.RwLock

/-!
# BfTree.Utils.RwLockSystem — threads that share a readers-writer lock

Any number of threads call `read`, `try_read`, `write`, `try_write` and `try_upgrade` and drop
their guards. Every load, store, compare-exchange and fetch is one atomic step, a wait that
finds the expected value puts the thread to sleep in the same step, and a wake-up reaches one
or all sleepers of its word. Readers sleep on the lock word, writers on the wake counter.

A weak compare-exchange may fail and a wait may return for no reason. A thread that keeps
several guards at once counts as several threads here. The counter is kept as the number of its
increments; the word in memory and the copy that a writer loads are its residues.
-/

namespace BfTree

open Lib

/-- A lock word that says that no writer waits or holds the lock. -/
abbrev EvenWord := { v : Nat // v % 2 = 0 }

/-- A lock word that says that a writer waits or holds the lock. -/
abbrev OddWord := { v : Nat // v % 2 = 1 }

/-- A lock word that a writer may take over. -/
abbrev FreeWord := { s : Nat // s ≤ 1 }

/-- The next atomic step of a thread. -/
inductive RwPc where
  | idle
  | readLoad
  | readCas (v : EvenWord)
  | readWait (v : OddWord)
  | readAsleep
  | tryReadLoad
  | tryReadCas (v : EvenWord)
  | reading
  | dropReadAdd
  | dropReadWake
  | writeLoad
  | writeCas (s : FreeWord)
  | writeMark (s : EvenWord)
  | writeCounter
  | writeRecheck (w : Nat)
  | writeWait (w : Nat)
  | writeAsleep
  | tryWriteLoad
  | tryWriteCas (s : FreeWord)
  | writing
  | dropWriteAdd
  | dropWriteWakeOne
  | dropWriteWakeAll
  deriving DecidableEq

/-- What a thread without a guard calls. -/
inductive RwCall where
  | read
  | tryRead
  | write
  | tryWrite
  deriving DecidableEq

namespace RwPc

/-- The top of the loop of `read`, with the value `v`. -/
def readNext (v : Nat) : RwPc :=
  if h : v % 2 = 0 then readCas ⟨v, h⟩ else readWait ⟨v, Nat.mod_two_ne_zero.1 h⟩

/-- The top of the loop of `write`, with the value `s`. -/
def writeNext (s : Nat) : RwPc :=
  if h : s ≤ 1 then writeCas ⟨s, h⟩ else if h : s % 2 = 0 then writeMark ⟨s, h⟩ else writeCounter

def enter : RwCall → RwPc
  | .read => readLoad
  | .tryRead => tryReadLoad
  | .write => writeLoad
  | .tryWrite => tryWriteLoad

/-- One atomic step that touches the lock word, the counter and the thread itself. `upgrade`
says what the holder of a read guard does with it, `spurious` is a failure of a weak
compare-exchange or the return of a wait that has no other reason. Wake-ups are not steps of
this kind. -/
def localStep (call : RwCall) (upgrade spurious : Bool) (word adds : Nat) :
    RwPc → Option (RwPc × Nat × Nat)
  | idle => some (enter call, word, adds)
  -- `read`
  | readLoad => some (readNext word, word, adds)
  | readCas v =>
    if word = v ∧ spurious = false then some (reading, (v + 2) % 2 ^ 32, adds)
    else some (readNext word, word, adds)
  | readWait v =>
    if word = v ∧ spurious = false then some (readAsleep, word, adds)
    else some (readLoad, word, adds)
  | readAsleep => if spurious then some (readLoad, word, adds) else none
  -- `try_read`
  | tryReadLoad => some (if h : word % 2 = 0 then tryReadCas ⟨word, h⟩ else idle, word, adds)
  | tryReadCas v =>
    if word = v ∧ spurious = false then some (reading, (v + 2) % 2 ^ 32, adds)
    else some (idle, word, adds)
  -- `write`
  | writeLoad => some (writeNext word, word, adds)
  | writeCas s =>
    if word = s then some (writing, writeLocked, adds) else some (writeNext word, word, adds)
  | writeMark s =>
    if word = s then some (writeCounter, (s + 1) % 2 ^ 32, adds)
    else some (writeNext word, word, adds)
  | writeCounter => some (writeRecheck adds, word, adds)
  | writeRecheck w =>
    if 2 ≤ word ∧ word % 2 = 1 then some (writeWait w, word, adds)
    else some (writeNext word, word, adds)
  | writeWait w =>
    if adds % 2 ^ 32 = w % 2 ^ 32 ∧ spurious = false then some (writeAsleep, word, adds)
    else some (writeLoad, word, adds)
  | writeAsleep => if spurious then some (writeLoad, word, adds) else none
  -- `try_write`
  | tryWriteLoad => some (if h : word ≤ 1 then tryWriteCas ⟨word, h⟩ else idle, word, adds)
  | tryWriteCas s =>
    if word = s ∧ spurious = false then some (writing, writeLocked, adds)
    else some (idle, word, adds)
  -- a read guard is upgraded or dropped
  | reading =>
    if upgrade then
      if word = 2 ∧ spurious = false then some (writing, writeLocked, adds)
      else some (reading, word, adds)
    else some (if word = 3 then dropReadAdd else idle, (word + (2 ^ 32 - 2)) % 2 ^ 32, adds)
  | dropReadAdd => some (dropReadWake, word, adds + 1)
  -- a write guard is dropped
  | writing => some (dropWriteAdd, 0, adds)
  | dropWriteAdd => some (dropWriteWakeOne, word, adds + 1)
  | dropReadWake | dropWriteWakeOne | dropWriteWakeAll => none

/-- Where a thread goes on after it woke one sleeper of the counter. -/
def afterWakeOne : RwPc → Option RwPc
  | dropReadWake => some idle
  | dropWriteWakeOne => some dropWriteWakeAll
  | _ => none

/-- What the wake-up of all sleepers of the lock word does to a thread. -/
def wokenByWord : RwPc → RwPc
  | readAsleep => readLoad
  | pc => pc

/-- The thread has a guard. -/
def holds (pc : RwPc) : Prop := pc = reading ∨ pc = writing

def asleep (pc : RwPc) : Prop := pc = readAsleep ∨ pc = writeAsleep

end RwPc

/-- A lock and the threads that use it. -/
structure RwLockSys (T : Type) where
  word : Nat
  adds : Nat
  pcs : T → RwPc

namespace RwLockSys

variable {T : Type} [DecidableEq T]

/-- A new lock that nobody uses. -/
def new (T : Type) : RwLockSys T := ⟨0, 0, fun _ => .idle⟩

/-- One atomic step of one thread. -/
inductive Step (s : RwLockSys T) : RwLockSys T → Prop where
  | run (i : T) {call : RwCall} {upgrade spurious : Bool} {pc : RwPc} {word adds : Nat}
      (h : (s.pcs i).localStep call upgrade spurious s.word s.adds = some (pc, word, adds)) :
      Step s ⟨word, adds, Function.update s.pcs i pc⟩
  | wakeOne (i j : T) {pc : RwPc} (h : (s.pcs i).afterWakeOne = some pc)
      (hj : s.pcs j = .writeAsleep) :
      Step s { s with pcs := Function.update (Function.update s.pcs j .writeLoad) i pc }
  | wakeNone (i : T) {pc : RwPc} (h : (s.pcs i).afterWakeOne = some pc)
      (hnone : ∀ j, s.pcs j ≠ .writeAsleep) :
      Step s { s with pcs := Function.update s.pcs i pc }
  | wakeAll (i : T) (h : s.pcs i = .dropWriteWakeAll) :
      Step s { s with pcs := Function.update (fun j => (s.pcs j).wokenByWord) i .idle }

/-- The states that are reached through states with the property `P`. -/
inductive Reach (P : RwLockSys T → Prop) : RwLockSys T → Prop where
  | new (h : P (new T)) : Reach P (new T)
  | step {s s' : RwLockSys T} (h : Reach P s) (hstep : Step s s') (hP : P s') : Reach P s'

/-- How many read guards there are. -/
def readers [Fintype T] (s : RwLockSys T) : Nat := countOf (· = .reading) s.pcs

/-- Since a writer loaded the counter that it is about to wait on, the counter did not go all
the way round. -/
def NoWrap (s : RwLockSys T) : Prop := ∀ i w, s.pcs i = .writeWait w → s.adds < w + 2 ^ 32

/-- No guard is held and no thread is about to take a step, but one is asleep. -/
def Lost (s : RwLockSys T) : Prop :=
  (∀ i, s.pcs i = .idle ∨ (s.pcs i).asleep) ∧ ∃ i, (s.pcs i).asleep

end RwLockSys

end BfTree
