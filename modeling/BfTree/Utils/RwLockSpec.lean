import BfTree.Utils.RwLockSystem

/-!
# BfTree.Utils.RwLockSpec — the lock excludes and wakes

The proofs look at a thread's role only: whether it has a guard, whether it is inside `write`
and awake, whether it owes others a wake-up. `localStep_role` says once what a step can do to
the role of its thread, to the lock word and to the counter; all invariants follow from it.

The word counts the guards, and it is odd without a holder only while some thread is inside
`write`. A reader sleeps while the word is odd or a writer still has to wake all readers. A
writer sleeps while the word is odd and at least 2, or somebody owes a wake-up, or another
writer is awake inside `write` and will see what is to be done.
-/

namespace BfTree

open Lib

/-! ## Roles -/

/-- What the other threads can rely on a thread for. -/
inductive RwRole where
  | away
  | readAsleep
  | reading
  | writer
  | rechecking (w : Nat)
  | waiting (w : Nat)
  | writeAsleep
  | writing
  | adding (exclusive : Bool)
  | waking (exclusive : Bool)
  | wakingAll
  deriving DecidableEq

def RwPc.role : RwPc → RwRole
  | readAsleep => .readAsleep
  | reading => .reading
  | writeLoad | writeCas _ | writeMark _ | writeCounter => .writer
  | writeRecheck w => .rechecking w
  | writeWait w => .waiting w
  | writeAsleep => .writeAsleep
  | writing => .writing
  | dropReadAdd => .adding false
  | dropWriteAdd => .adding true
  | dropReadWake => .waking false
  | dropWriteWakeOne => .waking true
  | dropWriteWakeAll => .wakingAll
  | idle | readLoad | readCas _ | readWait _ | tryReadLoad | tryReadCas _ | tryWriteLoad
  | tryWriteCas _ => .away

/-- What one step makes of the role of its thread, of the word and of the counter. -/
inductive RoleStep (word adds : Nat) : RwRole → RwRole → Nat → Nat → Prop where
  | away : RoleStep word adds .away .away word adds
  | readSleep (h : word % 2 = 1) : RoleStep word adds .away .readAsleep word adds
  | readWake : RoleStep word adds .readAsleep .away word adds
  | readTake (h : word % 2 = 0) : RoleStep word adds .away .reading ((word + 2) % 2 ^ 32) adds
  | tryWriteTake (h : word ≤ 1) : RoleStep word adds .away .writing writeLocked adds
  | enterWrite : RoleStep word adds .away .writer word adds
  | writer : RoleStep word adds .writer .writer word adds
  | mark (h : word % 2 = 0) : RoleStep word adds .writer .writer ((word + 1) % 2 ^ 32) adds
  | writeTake (h : word ≤ 1) : RoleStep word adds .writer .writing writeLocked adds
  | loadCounter : RoleStep word adds .writer (.rechecking adds) word adds
  | wait {w : Nat} (h : 2 ≤ word ∧ word % 2 = 1) :
      RoleStep word adds (.rechecking w) (.waiting w) word adds
  | again {w : Nat} : RoleStep word adds (.rechecking w) .writer word adds
  | waitReturn {w : Nat} : RoleStep word adds (.waiting w) .writer word adds
  | writeSleep {w : Nat} (h : adds % 2 ^ 32 = w % 2 ^ 32) :
      RoleStep word adds (.waiting w) .writeAsleep word adds
  | writeWake : RoleStep word adds .writeAsleep .writer word adds
  | keepReading : RoleStep word adds .reading .reading word adds
  | readDrop (h : word ≠ 3) :
      RoleStep word adds .reading .away ((word + (2 ^ 32 - 2)) % 2 ^ 32) adds
  | lastReadDrop (h : word = 3) : RoleStep word adds .reading (.adding false) 1 adds
  | upgrade (h : word = 2) : RoleStep word adds .reading .writing writeLocked adds
  | writeDrop : RoleStep word adds .writing (.adding true) 0 adds
  | add {exclusive : Bool} :
      RoleStep word adds (.adding exclusive) (.waking exclusive) word (adds + 1)

namespace RwPc

@[simp] theorem role_readNext (v : Nat) : (readNext v).role = .away := by
  rw [readNext]
  split <;> rfl

@[simp] theorem role_writeNext (s : Nat) : (writeNext s).role = .writer := by
  rw [writeNext]
  split
  · rfl
  · split <;> rfl

theorem triple_inj {pc pc' : RwPc} {word adds word' adds' : Nat}
    (h : some (pc, word, adds) = some (pc', word', adds')) : pc = pc' ∧ word = word' ∧ adds = adds' := by
  simpa using h

/-- **What a step can do.** -/
theorem localStep_role {pc pc' : RwPc} {call : RwCall} {upgrade spurious : Bool}
    {word adds word' adds' : Nat}
    (h : pc.localStep call upgrade spurious word adds = some (pc', word', adds')) :
    RoleStep word adds pc.role pc'.role word' adds' := by
  -- a step that is not the one of a lock operation that goes through changes nothing
  cases pc with
  | idle =>
    obtain ⟨rfl, rfl, rfl⟩ := triple_inj h
    cases call
    · exact .away
    · exact .away
    · exact .enterWrite
    · exact .away
  | readLoad =>
    obtain ⟨rfl, rfl, rfl⟩ := triple_inj h
    rw [role_readNext]
    exact .away
  | readCas v =>
    rw [localStep] at h
    split at h
    · next hc =>
      obtain ⟨rfl, rfl, rfl⟩ := triple_inj h
      rw [← hc.1]
      exact .readTake (hc.1 ▸ v.2)
    · obtain ⟨rfl, rfl, rfl⟩ := triple_inj h
      rw [role_readNext]
      exact .away
  | readWait v =>
    rw [localStep] at h
    split at h
    · next hc =>
      obtain ⟨rfl, rfl, rfl⟩ := triple_inj h
      exact .readSleep (hc.1 ▸ v.2)
    · obtain ⟨rfl, rfl, rfl⟩ := triple_inj h
      exact .away
  | readAsleep =>
    rw [localStep] at h
    split at h
    · obtain ⟨rfl, rfl, rfl⟩ := triple_inj h
      exact .readWake
    · cases h
  | tryReadLoad =>
    obtain ⟨rfl, rfl, rfl⟩ := triple_inj h
    split
    · exact .away
    · exact .away
  | tryReadCas v =>
    rw [localStep] at h
    split at h
    · next hc =>
      obtain ⟨rfl, rfl, rfl⟩ := triple_inj h
      rw [← hc.1]
      exact .readTake (hc.1 ▸ v.2)
    · obtain ⟨rfl, rfl, rfl⟩ := triple_inj h
      exact .away
  | reading =>
    rw [localStep] at h
    split at h
    · split at h
      · next hc =>
        obtain ⟨rfl, rfl, rfl⟩ := triple_inj h
        exact .upgrade hc.1
      · obtain ⟨rfl, rfl, rfl⟩ := triple_inj h
        exact .keepReading
    · obtain ⟨rfl, rfl, rfl⟩ := triple_inj h
      split
      · next hc =>
        subst hc
        exact .lastReadDrop rfl
      · next hc => exact .readDrop hc
  | dropReadAdd =>
    obtain ⟨rfl, rfl, rfl⟩ := triple_inj h
    exact .add
  | writeLoad =>
    obtain ⟨rfl, rfl, rfl⟩ := triple_inj h
    rw [role_writeNext]
    exact .writer
  | writeCas s =>
    rw [localStep] at h
    split at h
    · next hc =>
      obtain ⟨rfl, rfl, rfl⟩ := triple_inj h
      exact .writeTake (hc ▸ s.2)
    · obtain ⟨rfl, rfl, rfl⟩ := triple_inj h
      rw [role_writeNext]
      exact .writer
  | writeMark s =>
    rw [localStep] at h
    split at h
    · next hc =>
      obtain ⟨rfl, rfl, rfl⟩ := triple_inj h
      rw [← hc]
      exact .mark (hc ▸ s.2)
    · obtain ⟨rfl, rfl, rfl⟩ := triple_inj h
      rw [role_writeNext]
      exact .writer
  | writeCounter =>
    obtain ⟨rfl, rfl, rfl⟩ := triple_inj h
    exact .loadCounter
  | writeRecheck w =>
    rw [localStep] at h
    split at h
    · next hc =>
      obtain ⟨rfl, rfl, rfl⟩ := triple_inj h
      exact .wait hc
    · obtain ⟨rfl, rfl, rfl⟩ := triple_inj h
      rw [role_writeNext]
      exact .again
  | writeWait w =>
    rw [localStep] at h
    split at h
    · next hc =>
      obtain ⟨rfl, rfl, rfl⟩ := triple_inj h
      exact .writeSleep hc.1
    · obtain ⟨rfl, rfl, rfl⟩ := triple_inj h
      exact .waitReturn
  | writeAsleep =>
    rw [localStep] at h
    split at h
    · obtain ⟨rfl, rfl, rfl⟩ := triple_inj h
      exact .writeWake
    · cases h
  | tryWriteLoad =>
    obtain ⟨rfl, rfl, rfl⟩ := triple_inj h
    split
    · exact .away
    · exact .away
  | tryWriteCas s =>
    rw [localStep] at h
    split at h
    · next hc =>
      obtain ⟨rfl, rfl, rfl⟩ := triple_inj h
      exact .tryWriteTake (hc.1 ▸ s.2)
    · obtain ⟨rfl, rfl, rfl⟩ := triple_inj h
      exact .away
  | writing =>
    obtain ⟨rfl, rfl, rfl⟩ := triple_inj h
    exact .writeDrop
  | dropWriteAdd =>
    obtain ⟨rfl, rfl, rfl⟩ := triple_inj h
    exact .add
  | dropReadWake => cases h
  | dropWriteWakeOne => cases h
  | dropWriteWakeAll => cases h

end RwPc

namespace RwRole

/-- Inside `write`, awake or not. -/
def inWrite : RwRole → Bool
  | writer | rechecking _ | waiting _ | writeAsleep => true
  | _ => false

/-- Has dropped a write guard and will wake all readers. -/
def owesReaders : RwRole → Bool
  | adding exclusive | waking exclusive => exclusive
  | wakingAll => true
  | _ => false

/-- Will add to the counter. -/
def willAdd : RwRole → Bool
  | adding _ => true
  | _ => false

/-- Will wake a writer, or is one that looks at the lock again before it sleeps. -/
def stirs (adds : Nat) : RwRole → Bool
  | adding _ | waking _ | writer | rechecking _ => true
  | waiting w => w < adds
  | _ => false

/-- Where a thread goes on after it woke one sleeper of the counter. -/
def afterWake (exclusive : Bool) : RwRole := if exclusive then wakingAll else away

/-- What the wake-up of all readers does to a thread. -/
def woken : RwRole → RwRole
  | readAsleep => away
  | r => r

theorem woken_eq_iff {r r' : RwRole} (haway : r' ≠ away) (hasleep : r' ≠ readAsleep) :
    r.woken = r' ↔ r = r' := by
  cases r <;> simp [woken, haway.symm, hasleep.symm]

end RwRole

/-! ## What a step does to the word and to the counter -/

/-- One write guard and no other, or no write guard and as many read guards as the word says. -/
def GuardedBy (word readers writers : Nat) : Prop :=
  writers = 1 ∧ readers = 0 ∧ word = writeLocked ∨
    writers = 0 ∧ (word = 2 * readers ∨ word = 2 * readers + 1)

/-- What a step does to the guards and to the word. -/
theorem GuardedBy.step {word adds word' adds' R W R' W' : Nat} {r r' : RwRole}
    (h : GuardedBy word R W) (hstep : RoleStep word adds r r' word' adds')
    (hR : R' + (if r = .reading then 1 else 0) = R + if r' = .reading then 1 else 0)
    (hW : W' + (if r = .writing then 1 else 0) = W + if r' = .writing then 1 else 0)
    (hlt : R' < 2 ^ 30) : GuardedBy word' R' W' := by
  rw [GuardedBy, writeLocked] at *
  cases hstep <;> simp at hR hW <;> (try rw [writeLocked]) <;> omega

/-- A writer waits or holds the lock, and there is a guard. -/
def Busy (word : Nat) : Prop := 2 ≤ word ∧ word % 2 = 1

namespace RoleStep

variable {word adds word' adds' : Nat} {r r' : RwRole}
  (hstep : RoleStep word adds r r' word' adds')
include hstep

theorem busy (hlt : word < 2 ^ 32) (h : Busy word) :
    Busy word' ∨ r'.willAdd = true := by
  rw [Busy] at *
  cases hstep <;> (try rw [writeLocked]) <;> simp [RwRole.willAdd] <;> omega

theorem odd (h : word % 2 = 1) :
    word' % 2 = 1 ∨ r'.owesReaders = true := by
  cases hstep <;> (try rw [writeLocked]) <;> simp [RwRole.owesReaders] <;> omega

theorem marked (hreading : r = .reading → word ≠ writeLocked)
    (hodd : word' % 2 = 1) (hne : word' ≠ writeLocked) :
    r'.inWrite = true ∨
      word % 2 = 1 ∧ word ≠ writeLocked ∧ (r.inWrite = true → r'.inWrite = true) := by
  cases hstep <;> simp_all [RwRole.inWrite]
  omega

theorem owes (h : r.owesReaders = true) :
    r'.owesReaders = true := by
  cases hstep <;> simp_all [RwRole.owesReaders]

theorem adds_of_willAdd (h : r.willAdd = true) : adds' = adds + 1 := by
  cases hstep <;> simp_all [RwRole.willAdd]

theorem adds_le : adds ≤ adds' := by
  cases hstep <;> omega

/-- A writer that stirs goes on to stir unless it found the lock busy or took it. -/
theorem stirs (hwrap : ∀ w, r = .waiting w → adds < w + 2 ^ 32)
    (h : r.stirs adds = true) : r'.stirs adds' = true ∨ Busy word' := by
  cases hstep <;> simp_all [RwRole.stirs, Busy, writeLocked]
  omega

end RoleStep

theorem RwRole.stirs_mono {adds adds' : Nat} {r : RwRole} (h : r.stirs adds = true) (hle : adds ≤ adds') :
    r.stirs adds' = true := by
  cases r <;> simp_all [RwRole.stirs]
  omega

theorem RwRole.stirs_of_willAdd {r : RwRole} (h : r.willAdd = true) (adds : Nat) : r.stirs adds = true := by
  cases r <;> simp_all [RwRole.stirs, RwRole.willAdd]

/-! ## The lock and the roles -/

/-- The lock with the roles of its threads. -/
structure RwView (T : Type) where
  word : Nat
  adds : Nat
  roles : T → RwRole

namespace RwView

variable {T : Type} [DecidableEq T]

inductive Step (v : RwView T) : RwView T → Prop where
  | run (i : T) {r : RwRole} {word adds : Nat}
      (h : RoleStep v.word v.adds (v.roles i) r word adds) :
      Step v ⟨word, adds, Function.update v.roles i r⟩
  | wakeOne (i j : T) {exclusive : Bool} (h : v.roles i = .waking exclusive)
      (hj : v.roles j = .writeAsleep) :
      Step v { v with
        roles := Function.update (Function.update v.roles j .writer) i (.afterWake exclusive) }
  | wakeNone (i : T) {exclusive : Bool} (h : v.roles i = .waking exclusive)
      (hnone : ∀ j, v.roles j ≠ .writeAsleep) :
      Step v { v with roles := Function.update v.roles i (.afterWake exclusive) }
  | wakeAll (i : T) (h : v.roles i = .wakingAll) :
      Step v { v with roles := Function.update (fun j => (v.roles j).woken) i .away }

end RwView

namespace RwLockSys

variable {T : Type} [DecidableEq T]

def view (s : RwLockSys T) : RwView T := ⟨s.word, s.adds, fun i => (s.pcs i).role⟩

theorem role_update (f : T → RwPc) (i : T) (pc : RwPc) :
    (fun j => (Function.update f i pc j).role) = Function.update (fun j => (f j).role) i pc.role :=
  funext fun _ => Function.apply_update (fun _ => RwPc.role) f i pc _

theorem view_update (word adds : Nat) (f : T → RwPc) (i : T) (pc : RwPc) :
    view ⟨word, adds, Function.update f i pc⟩ =
      ⟨word, adds, Function.update (fun j => (f j).role) i pc.role⟩ :=
  congrArg (RwView.mk word adds) (role_update f i pc)

theorem role_eq_writeAsleep {pc : RwPc} : pc.role = .writeAsleep ↔ pc = .writeAsleep := by
  cases pc <;> simp [RwPc.role]

/-- A thread that wakes one sleeper. -/
theorem role_afterWakeOne {pc pc' : RwPc} (h : pc.afterWakeOne = some pc') :
    ∃ exclusive, pc.role = .waking exclusive ∧ pc'.role = .afterWake exclusive := by
  cases pc <;> simp only [RwPc.afterWakeOne, Option.some.injEq, reduceCtorEq] at h
  · subst h
    exact ⟨false, rfl, rfl⟩
  · subst h
    exact ⟨true, rfl, rfl⟩

/-- **Every step of the code is a step of the roles.** -/
theorem Step.view {s s' : RwLockSys T} (h : Step s s') : RwView.Step s.view s'.view := by
  cases h with
  | run i h =>
    have hrun := RwView.Step.run (v := s.view) i (RwPc.localStep_role h)
    rwa [view_update]
  | wakeOne i j h hj =>
    obtain ⟨exclusive, hi, hnext⟩ := role_afterWakeOne h
    have hwake := RwView.Step.wakeOne (v := s.view) i j hi (congrArg RwPc.role hj)
    rwa [view_update, role_update, hnext]
  | wakeNone i h hnone =>
    obtain ⟨exclusive, hi, hnext⟩ := role_afterWakeOne h
    have hwake := RwView.Step.wakeNone (v := s.view) i hi fun j hj => hnone j (role_eq_writeAsleep.1 hj)
    rwa [view_update, hnext]
  | wakeAll i h =>
    have hwoken : ∀ pc : RwPc, pc.wokenByWord.role = pc.role.woken := by
      intro pc
      cases pc <;> rfl
    have hwake := RwView.Step.wakeAll (v := s.view) i (congrArg RwPc.role h)
    rw [view_update]
    simp only [hwoken]
    exact hwake

end RwLockSys

/-! ## The word counts the guards -/

namespace RwView

variable {T : Type} [DecidableEq T] [Fintype T]

def readers (v : RwView T) : Nat := countOf (· = .reading) v.roles

def writers (v : RwView T) : Nat := countOf (· = .writing) v.roles

def Guarded (v : RwView T) : Prop := GuardedBy v.word v.readers v.writers

/-- A change of role that is none of guards. -/
theorem counts_update {v : RwView T} {i : T} {r : RwRole} (word adds : Nat)
    (hr : r = .reading ↔ v.roles i = .reading) (hw : r = .writing ↔ v.roles i = .writing) :
    readers ⟨word, adds, Function.update v.roles i r⟩ = v.readers ∧
      writers ⟨word, adds, Function.update v.roles i r⟩ = v.writers := by
  have hreaders := countOf_update (p := (· = .reading)) (f := v.roles) i r
  have hwriters := countOf_update (p := (· = .writing)) (f := v.roles) i r
  simp only [hr, hw, Nat.add_right_cancel_iff] at hreaders hwriters
  exact ⟨hreaders, hwriters⟩

theorem Guarded.run {v : RwView T} (h : v.Guarded) {i : T} {r : RwRole} {word adds : Nat}
    (hstep : RoleStep v.word v.adds (v.roles i) r word adds)
    (hreaders : readers ⟨word, adds, Function.update v.roles i r⟩ < 2 ^ 30) :
    Guarded ⟨word, adds, Function.update v.roles i r⟩ :=
  GuardedBy.step h hstep (countOf_update i r) (countOf_update i r) hreaders

/-- A thread that is not about to drop its guard does not have one. -/
theorem ne_guard_afterWake (exclusive : Bool) :
    RwRole.afterWake exclusive ≠ .reading ∧ RwRole.afterWake exclusive ≠ .writing := by
  cases exclusive <;> decide

/-- Waking others changes no guard. -/
theorem Guarded.wake {v : RwView T} (h : v.Guarded) {i : T} {exclusive : Bool}
    (hi : v.roles i = .waking exclusive) :
    Guarded { v with roles := Function.update v.roles i (.afterWake exclusive) } := by
  obtain ⟨hr, hw⟩ := ne_guard_afterWake exclusive
  obtain ⟨hreaders, hwriters⟩ := counts_update (v := v) (i := i) v.word v.adds
    (iff_of_false hr (by rw [hi]; nofun)) (iff_of_false hw (by rw [hi]; nofun))
  rw [Guarded, hreaders, hwriters]
  exact h

theorem Guarded.step {v v' : RwView T} (h : v.Guarded) (hstep : Step v v')
    (hreaders : v'.readers < 2 ^ 30) : v'.Guarded := by
  cases hstep with
  | run i hrun => exact h.run hrun hreaders
  | wakeOne i j hi hj =>
    obtain ⟨hr, hw⟩ := counts_update (v := v) (i := j) (r := .writer) v.word v.adds
      (iff_of_false nofun (by rw [hj]; nofun)) (iff_of_false nofun (by rw [hj]; nofun))
    have hwoken : Guarded { v with roles := Function.update v.roles j .writer } := by
      rw [Guarded, hr, hw]
      exact h
    have hne : i ≠ j := by
      rintro rfl
      rw [hi] at hj
      cases hj
    exact hwoken.wake (by rw [← hi]; exact Function.update_of_ne hne _ _)
  | wakeNone i hi => exact h.wake hi
  | wakeAll i hi =>
    have hr : countOf (· = .reading) (fun j => (v.roles j).woken) = v.readers :=
      countOf_congr fun j => RwRole.woken_eq_iff nofun nofun
    have hw : countOf (· = .writing) (fun j => (v.roles j).woken) = v.writers :=
      countOf_congr fun j => RwRole.woken_eq_iff nofun nofun
    have hwoken : Guarded { v with roles := fun j => (v.roles j).woken } := by
      rw [Guarded, readers, writers, hr, hw]
      exact h
    obtain ⟨hreaders, hwriters⟩ := counts_update (v := { v with roles := fun j => (v.roles j).woken })
      (i := i) (r := .away) v.word v.adds (iff_of_false nofun (by simp [hi, RwRole.woken]))
      (iff_of_false nofun (by simp [hi, RwRole.woken]))
    rw [Guarded, hreaders, hwriters]
    exact hwoken

/-! ## Somebody will wake the sleepers -/

/-- Whoever sleeps or is about to is not forgotten. -/
structure Alive (v : RwView T) : Prop where
  marked : v.word % 2 = 1 → v.word ≠ writeLocked → ∃ i, (v.roles i).inWrite = true
  readAsleep : (∃ i, v.roles i = .readAsleep) →
    v.word % 2 = 1 ∨ ∃ i, (v.roles i).owesReaders = true
  loaded : ∀ i w, v.roles i = .rechecking w ∨ v.roles i = .waiting w → w ≤ v.adds
  waiting : (∃ i, v.roles i = .waiting v.adds) → Busy v.word ∨ ∃ i, (v.roles i).willAdd = true
  writeAsleep : (∃ i, v.roles i = .writeAsleep) →
    Busy v.word ∨ ∃ i, (v.roles i).stirs v.adds = true

variable {v v' : RwView T}

omit [DecidableEq T] in
/-- The word of a lock with a read guard is not that of a write guard. -/
theorem Guarded.word_ne_of_reading (h : v.Guarded) {i : T} (hi : v.roles i = .reading) :
    v.word ≠ writeLocked ∨ 2 ^ 30 ≤ v.readers := by
  have hpos : 0 < v.readers := countOf_pos.2 ⟨i, hi⟩
  rw [Guarded, GuardedBy] at h
  rw [writeLocked]
  omega

omit [DecidableEq T] in
theorem Guarded.word_lt (h : v.Guarded) (hreaders : v.readers < 2 ^ 30) : v.word < 2 ^ 32 := by
  rw [Guarded, GuardedBy, writeLocked] at h
  omega

def NoWrap (v : RwView T) : Prop := ∀ i w, v.roles i = .waiting w → v.adds < w + 2 ^ 32

theorem Alive.run (h : v.Alive) (hg : v.Guarded) (hreaders : v.readers < 2 ^ 30) (hwrap : v.NoWrap)
    {i : T} {r : RwRole} {word adds : Nat}
    (hstep : RoleStep v.word v.adds (v.roles i) r word adds) :
    Alive ⟨word, adds, Function.update v.roles i r⟩ where
  marked hodd hne := by
    have hreading : v.roles i = .reading → v.word ≠ writeLocked := fun hi =>
      (hg.word_ne_of_reading hi).resolve_right (by omega)
    rcases hstep.marked hreading hodd hne with hr | ⟨hodd, hne, hkeeps⟩
    · exact ⟨i, by dsimp only; rwa [Function.update_self]⟩
    · exact exists_update_of (P := fun r : RwRole => r.inWrite = true) (h.marked hodd hne) hkeeps
  readAsleep hex := by
    dsimp only at hex ⊢
    rcases exists_or_of_exists_update (P := (· = RwRole.readAsleep)) hex with rfl | hold
    · left
      generalize v.roles i = r₀ at hstep
      cases hstep
      assumption
    · rcases h.readAsleep hold with hodd | howes
      · rcases hstep.odd hodd with hodd | howes
        · exact .inl hodd
        · exact .inr ⟨i, by rwa [Function.update_self]⟩
      · right
        exact exists_update_of (P := fun r : RwRole => r.owesReaders = true) howes hstep.owes
  loaded j w hj := by
    by_cases hji : j = i
    · subst hji
      have hold := h.loaded j w
      simp only [Function.update_self] at hj
      generalize v.roles j = r₀ at hstep hold
      cases hstep <;> simp_all
    · simp only [Function.update_of_ne hji] at hj
      exact (h.loaded j w hj).trans hstep.adds_le
  waiting hex := by
    dsimp only at hex ⊢
    rcases exists_or_of_exists_update (P := (· = RwRole.waiting adds)) hex with rfl | ⟨j, hj⟩
    · left
      generalize v.roles i = r₀ at hstep
      cases hstep
      assumption
    · -- a thread that waits for the newest count was there before, so that nothing was added
      have hadds : v.adds = adds := le_antisymm hstep.adds_le (h.loaded j adds (.inr hj))
      rcases h.waiting ⟨j, hadds ▸ hj⟩ with hbusy | hadd
      · rcases hstep.busy (hg.word_lt hreaders) hbusy with hbusy | hadd
        · exact .inl hbusy
        · exact .inr ⟨i, by rwa [Function.update_self]⟩
      · right
        refine exists_update_of (P := fun r : RwRole => r.willAdd = true) hadd fun hi => ?_
        have hmore := hstep.adds_of_willAdd hi
        omega
  writeAsleep hex := by
    dsimp only at hex ⊢
    have hmono := hstep.adds_le
    -- whoever stirred does so still, or the lock is busy now
    have hstirs : ∀ k, (v.roles k).stirs v.adds = true →
        Busy word ∨ ∃ j, (Function.update v.roles i r j).stirs adds = true := by
      intro k hk
      by_cases hki : k = i
      · subst hki
        rcases hstep.stirs (hwrap k) hk with hr | hbusy
        · exact .inr ⟨k, by rwa [Function.update_self]⟩
        · exact .inl hbusy
      · exact .inr ⟨k, by rw [Function.update_of_ne hki]; exact RwRole.stirs_mono hk hmono⟩
    have hbusy : Busy v.word → Busy word ∨ ∃ j, (Function.update v.roles i r j).stirs adds = true := by
      intro hbusy
      rcases hstep.busy (hg.word_lt hreaders) hbusy with hbusy | hadd
      · exact .inl hbusy
      · exact .inr ⟨i, by rw [Function.update_self]; exact RwRole.stirs_of_willAdd hadd adds⟩
    rcases exists_or_of_exists_update (P := (· = RwRole.writeAsleep)) hex with rfl | hold
    · -- the thread falls asleep: the count is still the one it loaded
      obtain ⟨w, hw, hmod⟩ : ∃ w, v.roles i = .waiting w ∧ v.adds % 2 ^ 32 = w % 2 ^ 32 := by
        generalize v.roles i = r₀ at hstep
        cases hstep
        exact ⟨_, rfl, by assumption⟩
      have hle := h.loaded i w (.inr hw)
      have hlt := hwrap i w hw
      have heq : v.adds = w := by omega
      rcases h.waiting ⟨i, heq ▸ hw⟩ with hb | ⟨k, hk⟩
      · exact hbusy hb
      · exact hstirs k (RwRole.stirs_of_willAdd hk _)
    · rcases h.writeAsleep hold with hb | ⟨k, hk⟩
      · exact hbusy hb
      · exact hstirs k hk

omit [Fintype T] in
/-- A thread has woken one writer, or there was none to wake. -/
theorem Alive.wake (h : v.Alive) {i : T} {exclusive : Bool} (hi : v.roles i = .waking exclusive)
    (hwoken : (∀ j, v.roles j ≠ .writeAsleep) ∨ ∃ j, j ≠ i ∧ (v.roles j).stirs v.adds = true) :
    Alive { v with roles := Function.update v.roles i (.afterWake exclusive) } where
  marked hodd hne := exists_update_of (P := fun r : RwRole => r.inWrite = true) (h.marked hodd hne)
    fun hin => by simp [hi, RwRole.inWrite] at hin
  readAsleep hex := by
    rcases exists_or_of_exists_update (P := (· = RwRole.readAsleep)) hex with hr | hold
    · cases exclusive <;> cases hr
    · rcases h.readAsleep hold with hodd | howes
      · exact .inl hodd
      · refine .inr (exists_update_of (P := fun r : RwRole => r.owesReaders = true) howes fun hin => ?_)
        rw [hi] at hin
        cases exclusive
        · cases hin
        · rfl
  loaded j w hj := by
    by_cases hji : j = i
    · subst hji
      simp only [Function.update_self] at hj
      cases exclusive <;> rcases hj with hj | hj <;> cases hj
    · simp only [Function.update_of_ne hji] at hj
      exact h.loaded j w hj
  waiting hex := by
    rcases exists_or_of_exists_update (P := (· = RwRole.waiting v.adds)) hex with hr | hold
    · cases exclusive <;> cases hr
    · rcases h.waiting hold with hbusy | hadd
      · exact .inl hbusy
      · exact .inr (exists_update_of (P := fun r : RwRole => r.willAdd = true) hadd
          fun hin => by simp [hi, RwRole.willAdd] at hin)
  writeAsleep hex := by
    rcases hwoken with hnone | ⟨j, hji, hj⟩
    · rcases exists_or_of_exists_update (P := (· = RwRole.writeAsleep)) hex with hr | ⟨j, hj⟩
      · cases exclusive <;> cases hr
      · exact absurd hj (hnone j)
    · exact .inr ⟨j, by dsimp only; rwa [Function.update_of_ne hji]⟩

omit [Fintype T] in
/-- All readers are awake. -/
theorem Alive.wakeAll (h : v.Alive) {i : T} (hi : v.roles i = .wakingAll) :
    Alive { v with roles := Function.update (fun j => (v.roles j).woken) i .away } where
  marked hodd hne := by
    obtain ⟨j, hj⟩ := h.marked hodd hne
    refine exists_update_of (P := fun r : RwRole => r.inWrite = true) ⟨j, ?_⟩ fun hin => ?_
    · revert hj
      cases v.roles j <;> simp [RwRole.woken, RwRole.inWrite]
    · simp [hi, RwRole.woken, RwRole.inWrite] at hin
  readAsleep hex := by
    rcases exists_or_of_exists_update (P := (· = RwRole.readAsleep)) hex with hr | ⟨j, hj⟩
    · cases hr
    · revert hj
      cases v.roles j <;> simp [RwRole.woken]
  loaded j w hj := by
    by_cases hji : j = i
    · subst hji
      simp at hj
    · simp only [Function.update_of_ne hji, RwRole.woken_eq_iff, ne_eq, reduceCtorEq, not_false_eq_true]
        at hj
      exact h.loaded j w hj
  waiting hex := by
    rcases exists_or_of_exists_update (P := (· = RwRole.waiting v.adds)) hex with hr | ⟨j, hj⟩
    · cases hr
    · rcases h.waiting ⟨j, (RwRole.woken_eq_iff (by simp) (by simp)).1 hj⟩ with hbusy | ⟨k, hk⟩
      · exact .inl hbusy
      · refine .inr (exists_update_of (P := fun r : RwRole => r.willAdd = true) ⟨k, ?_⟩ fun hin => ?_)
        · revert hk
          cases v.roles k <;> simp [RwRole.woken, RwRole.willAdd]
        · simp [hi, RwRole.woken, RwRole.willAdd] at hin
  writeAsleep hex := by
    rcases exists_or_of_exists_update (P := (· = RwRole.writeAsleep)) hex with hr | ⟨j, hj⟩
    · cases hr
    · rcases h.writeAsleep ⟨j, (RwRole.woken_eq_iff (by simp) (by simp)).1 hj⟩ with hbusy | ⟨k, hk⟩
      · exact .inl hbusy
      · refine .inr (exists_update_of (P := fun r : RwRole => r.stirs v.adds = true) ⟨k, ?_⟩ fun hin => ?_)
        · revert hk
          cases v.roles k <;> simp [RwRole.woken, RwRole.stirs]
        · simp [hi, RwRole.woken, RwRole.stirs] at hin

theorem Alive.step (h : v.Alive) (hg : v.Guarded) (hreaders : v.readers < 2 ^ 30) (hwrap : v.NoWrap)
    (hstep : Step v v') : v'.Alive := by
  cases hstep with
  | run i hrun => exact h.run hg hreaders hwrap hrun
  | wakeOne i j hi hj =>
    have hne : i ≠ j := by
      rintro rfl
      rw [hi] at hj
      cases hj
    have hwake : RoleStep v.word v.adds (v.roles j) .writer v.word v.adds := by
      rw [hj]
      exact .writeWake
    refine (h.run hg hreaders hwrap hwake).wake ?_ (.inr ⟨j, hne.symm, ?_⟩)
    · rw [← hi]
      exact Function.update_of_ne hne _ _
    · dsimp only
      rw [Function.update_self]
      rfl
  | wakeNone i hi hnone => exact h.wake hi (.inl hnone)
  | wakeAll i hi => exact h.wakeAll hi

end RwView

end BfTree
