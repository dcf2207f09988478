import BfTree.Lib.Threads
import BfTree.Snapshot.HandshakeSpec
import BfTree.Snapshot.PhaseWait

/-!
# The manager is not left asleep

A slot stops to hold the manager up only when its worker clears its local state, and that
worker then adds to `phase_waiter` before it wakes the manager. So a manager that waits on the
newest count is held up by a slot, or some worker is about to add; and one that sleeps on an
older count is about to be woken. A `phase_waiter` that goes all the way round between the
manager's load and its wait makes an old count look like the newest one.
-/

namespace BfTree

open Lib

/-! ## Local states of the slots -/

namespace WorkerPc

/-- The slot of a worker that has not yet stored its local state, or has cleared it. -/
def blank : WorkerPc → Option SlotId
  | loadGlobal tid | setLoad tid _ | setStore tid _ | revertSlot tid | releaseSlot tid => some tid
  | _ => none

theorem owner_of_blank {pc : WorkerPc} {tid : SlotId} (h : pc.blank = some tid) :
    pc.owner = some tid := by
  cases pc <;> simp_all [owner, blank]

end WorkerPc

namespace SnapshotMgr

variable (m : SnapshotMgr) (tid : SlotId)

@[simp] theorem setSlot_threadSlots (b : Bool) :
    (m.setSlot tid b).threadSlots = Function.update m.threadSlots tid b := rfl

@[simp] theorem setSlot_threadLocalStates (b : Bool) :
    (m.setSlot tid b).threadLocalStates = m.threadLocalStates := rfl

@[simp] theorem storeLocal_threadSlots (word : Nat) :
    (m.storeLocal tid word).threadSlots = m.threadSlots := rfl

@[simp] theorem storeLocal_threadLocalStates (word : Nat) :
    (m.storeLocal tid word).threadLocalStates = Function.update m.threadLocalStates tid word := rfl

/-- A slot that nobody has reads invalid. -/
def FreeBlank (m : SnapshotMgr) : Prop :=
  ∀ tid, m.threadSlots tid = false → m.threadLocalStates tid = invalidSnapshotState

/-- A slot that holds the manager up. -/
def HeldUp (m : SnapshotMgr) (target : Nat) : Prop := ∃ tid, m.slotPasses target tid = false

theorem checkIfPhaseCompleted_eq_false {m : SnapshotMgr} {target : Nat} :
    m.checkIfPhaseCompleted target = false ↔ m.HeldUp target := by
  simp [checkIfPhaseCompleted, HeldUp]

end SnapshotMgr

/-- What one step of a worker does to the slots and to their local states. -/
inductive WorkerEffect (m : SnapshotMgr) (pc : WorkerPc) : SnapshotMgr → WorkerPc → Prop where
  | keep {pc' : WorkerPc} (hgives : pc.givesBack = false)
      (hblank : ∀ tid, pc'.blank = some tid →
        pc.blank = some tid ∨ m.threadLocalStates tid = invalidSnapshotState) :
      WorkerEffect m pc m pc'
  | take (tid : SlotId) (hgives : pc.givesBack = false) (hfree : m.threadSlots tid = false) :
      WorkerEffect m pc (m.setSlot tid true) (.loadGlobal tid)
  | store (tid : SlotId) (g : Nat) (hpc : pc = .setStore tid g) :
      WorkerEffect m pc (m.storeLocal tid g) (.recheckGlobal tid g)
  | clear (tid : SlotId) {pc' : WorkerPc} (hgives : pc.givesBack = false)
      (howner : pc.owner = some tid) (hgives' : pc'.givesBack = true)
      (hblank : pc'.blank = some tid) :
      WorkerEffect m pc (m.storeLocal tid invalidSnapshotState) pc'
  | giveBack (tid : SlotId) (hgives : pc.givesBack = true) (hblank : pc.blank = some tid) :
      WorkerEffect m pc (m.setSlot tid false) .idle

theorem workerStep_effect {m m' : SnapshotMgr} {start : SlotId} {pc pc' : WorkerPc}
    (h : workerStep m start pc = some (m', pc')) : WorkerEffect m pc m' pc' := by
  cases pc with
  | idle =>
    obtain ⟨rfl, rfl⟩ : m = m' ∧ _ = pc' := by simpa [workerStep] using h
    split <;> exact .keep rfl (by simp [WorkerPc.blank])
  | cas i =>
    simp only [workerStep] at h
    split at h
    · split at h
      · obtain ⟨rfl, rfl⟩ : m = m' ∧ _ = pc' := by simpa using h
        exact .keep rfl (by simp [WorkerPc.blank])
      · next hfree =>
        obtain ⟨rfl, rfl⟩ : _ = m' ∧ _ = pc' := by simpa using h
        exact .take _ rfl (by simpa using hfree)
    · obtain ⟨rfl, rfl⟩ : m = m' ∧ _ = pc' := by simpa using h
      exact .keep rfl (by simp [WorkerPc.blank])
  | setStore tid g =>
    obtain ⟨rfl, rfl⟩ : _ = m' ∧ _ = pc' := by simpa [workerStep] using h
    exact .store tid g rfl
  | loadGlobal tid | recheckGlobal tid g | reserved tid g st =>
    obtain ⟨rfl, rfl⟩ : m = m' ∧ _ = pc' := by simpa [workerStep] using h
    exact .keep rfl (by simp [WorkerPc.blank])
  | setLoad tid g | recheckLocal tid g cur =>
    obtain ⟨rfl, rfl⟩ : m = m' ∧ _ = pc' := by simpa [workerStep] using h
    split <;> exact .keep rfl (by simp [WorkerPc.blank])
  | recheckPause tid g =>
    simp only [workerStep] at h
    split at h
    · obtain ⟨rfl, rfl⟩ : m = m' ∧ _ = pc' := by simpa using h
      exact .keep rfl (by simp [WorkerPc.blank])
    · obtain ⟨phase, -, hr⟩ := Option.bind_eq_some_iff.mp h
      obtain ⟨rfl, rfl⟩ : m = m' ∧ _ = pc' := by simpa using hr
      exact .keep rfl (by simp [WorkerPc.blank])
  | revertLoad tid | releaseLoad tid =>
    obtain ⟨rfl, rfl⟩ : m = m' ∧ _ = pc' := by simpa [workerStep] using h
    split
    · next hinvalid => exact .keep rfl (by simp [WorkerPc.blank, hinvalid])
    · exact .keep rfl (by simp [WorkerPc.blank])
  | revertStore tid | releaseStore tid =>
    obtain ⟨rfl, rfl⟩ : _ = m' ∧ _ = pc' := by simpa [workerStep] using h
    exact .clear tid rfl rfl rfl rfl
  | revertSlot tid =>
    simp only [workerStep, Option.ite_none_right_eq_some, Option.some.injEq, Prod.mk.injEq] at h
    obtain ⟨-, rfl, rfl⟩ := h
    exact .giveBack tid rfl rfl
  | releaseSlot tid =>
    obtain ⟨rfl, rfl⟩ : _ = m' ∧ _ = pc' := by simpa [workerStep] using h
    exact .giveBack tid rfl rfl

namespace WorkerEffect

variable {m m' : SnapshotMgr} {pc pc' : WorkerPc}

/-- A slot that is free, or whose worker has not yet stored or has cleared its local state,
reads invalid. -/
theorem blank (h : WorkerEffect m pc m' pc') (hinv : pc.Inv m) (hfree : m.FreeBlank)
    (hblank : ∀ tid, pc.blank = some tid → m.threadLocalStates tid = invalidSnapshotState) :
    m'.FreeBlank ∧
      ∀ tid, pc'.blank = some tid → m'.threadLocalStates tid = invalidSnapshotState := by
  cases h with
  | keep hgives hkeeps => exact ⟨hfree, fun tid ht => (hkeeps tid ht).elim (hblank tid) id⟩
  | take tid hgives htaken =>
    refine ⟨fun t ht => hfree t ?_, ?_⟩
    · by_cases htid : t = tid
      · rw [htid, htaken]
      · simpa [htid] using ht
    · rintro _ ⟨⟩
      exact hfree tid htaken
  | store tid g hpc =>
    subst hpc
    refine ⟨fun t ht => ?_, by simp [WorkerPc.blank]⟩
    have hne : t ≠ tid := by
      rintro rfl
      simp [hinv.slot t rfl] at ht
    simpa [hne] using hfree t ht
  | clear tid hgives howner hgives' hpc' =>
    refine ⟨fun t ht => ?_, fun t ht => ?_⟩
    · by_cases htid : t = tid
      · simp [htid]
      · simpa [htid] using hfree t ht
    · obtain rfl : tid = t := by simpa [hpc'] using ht
      simp
  | giveBack tid hgives hpc =>
    refine ⟨fun t ht => ?_, by simp [WorkerPc.blank]⟩
    by_cases htid : t = tid
    · rw [htid]
      exact hblank tid hpc
    · exact hfree t (by simpa [htid] using ht)

/-- What held the manager up does so still, unless the worker has just cleared its state. -/
theorem heldUp {target : Nat} (h : WorkerEffect m pc m' pc')
    (hblank : ∀ tid, pc.blank = some tid → m.threadLocalStates tid = invalidSnapshotState)
    (hup : m.HeldUp target) : m'.HeldUp target ∨ pc'.givesBack = true := by
  cases h with
  | keep | take | giveBack => exact .inl hup
  | store tid g hpc =>
    obtain ⟨t, ht⟩ := hup
    have hne : t ≠ tid := by
      rintro rfl
      have hinvalid := hblank t (by rw [hpc]; rfl)
      simp [SnapshotMgr.slotPasses, hinvalid] at ht
    refine .inl ⟨t, ?_⟩
    rw [← ht]
    simp [SnapshotMgr.slotPasses, hne]
  | clear tid hgives howner hgives' => exact .inr hgives'

/-- A worker that is about to give its slot back does so. -/
theorem of_givesBack (h : WorkerEffect m pc m' pc') (hpc : pc.givesBack = true) : pc' = .idle := by
  cases h with
  | giveBack => rfl
  | store tid g hstore => simp [hstore, WorkerPc.givesBack] at hpc
  | keep hgives | take tid hgives | clear tid hgives => simp [hgives] at hpc

end WorkerEffect

namespace HandshakeSys

variable {W : Type}

/-- What holds of the local states of all slots. -/
structure SlotInv (s : HandshakeSys W) : Prop where
  free : s.mgr.FreeBlank
  blank : ∀ w tid, (s.workers w).blank = some tid →
    s.mgr.threadLocalStates tid = invalidSnapshotState

theorem SlotInv.new {version : Nat} {m : SnapshotMgr} (h : SnapshotMgr.new version = some m) :
    (start W m).SlotInv := by
  obtain ⟨g, -, hm⟩ := Option.bind_eq_some_iff.mp h
  obtain rfl : _ = m := by simpa using hm
  exact ⟨fun _ _ => rfl, by simp [start, WorkerPc.blank]⟩

theorem SlotInv.managerStep {s s' : HandshakeSys W} {a : ManagerAction} (hslots : s.SlotInv)
    (h : BfTree.managerStep s a = some s') : s'.SlotInv := by
  obtain ⟨hfree, hblank⟩ := hslots
  cases managerStep_spec h <;> exact ⟨hfree, hblank⟩

variable [DecidableEq W]

theorem handshakeStep_effect {s s' : HandshakeSys W} {w : W} {start : SlotId}
    (h : handshakeStep s (.worker w start) = some s') :
    ∃ mgr pc, WorkerEffect s.mgr (s.workers w) mgr pc ∧
      s' = { s with mgr := mgr, workers := Function.update s.workers w pc } := by
  obtain ⟨⟨mgr, pc⟩, hstep, hs⟩ := Option.bind_eq_some_iff.mp h
  obtain rfl : _ = s' := by simpa using hs
  exact ⟨mgr, pc, workerStep_effect hstep, rfl⟩

theorem SlotInv.workerStep {s s' : HandshakeSys W} {w : W} {start : SlotId} (hinv : s.Inv)
    (hslots : s.SlotInv) (h : handshakeStep s (.worker w start) = some s') : s'.SlotInv := by
  obtain ⟨⟨mgr, pc⟩, hstep, hs⟩ := Option.bind_eq_some_iff.mp h
  obtain rfl : _ = s' := by simpa using hs
  have hspec := workerStep_spec hstep (hinv.worker w) hinv.valid
  obtain ⟨hfree, hblank⟩ := (workerStep_effect hstep).blank (hinv.worker w) hslots.free (hslots.blank w)
  refine ⟨hfree, fun w' tid ht => ?_⟩
  by_cases hw : w' = w
  · subst hw
    exact hblank tid (by simpa using ht)
  · simp only [Function.update_of_ne hw] at ht
    -- the stepping worker owns another slot
    have hne : (s.workers w).owner ≠ some tid := fun ho =>
      hw (hinv.exclusive w' w tid (WorkerPc.owner_of_blank ht) ho)
    rw [hspec.locals tid hne]
    exact hslots.blank w' tid ht

end HandshakeSys

/-! ## The manager's wait -/

namespace ManagerWait

/-- The count that the manager has loaded in order to wait on it. -/
def waiterVal : ManagerWait → Option Nat
  | secondCheck _ val | wait _ val | asleep _ val => some val
  | _ => none

/-- The target and the count of a manager that found itself held up after it loaded the count. -/
def waiting : ManagerWait → Option (Nat × Nat)
  | wait target val | asleep target val => some (target, val)
  | _ => none

theorem waiterVal_of_waiting {pc : ManagerWait} {target val : Nat}
    (h : pc.waiting = some (target, val)) : pc.waiterVal = some val := by
  cases pc <;> simp_all [waiterVal, waiting]

theorem waiterVal_of_woken {pc : ManagerWait} {val : Nat} (h : pc.woken.waiterVal = some val) :
    pc.waiterVal = some val := by
  cases pc <;> simp_all [waiterVal, woken]

theorem waiting_of_woken {pc : ManagerWait} {x : Nat × Nat} (h : pc.woken.waiting = some x) :
    pc.waiting = some x := by
  cases pc <;> simp_all [waiting, woken]

theorem woken_ne_asleep (pc : ManagerWait) (target val : Nat) : pc.woken ≠ asleep target val := by
  cases pc <;> simp [woken]

theorem eq_secondCheck_of_woken {pc : ManagerWait} {target val : Nat}
    (h : pc.woken = secondCheck target val) : pc = secondCheck target val := by
  cases pc <;> simp_all [woken]

end ManagerWait

namespace PhaseWaitSys

variable {W : Type} {s s' : PhaseWaitSys W}

/-- The worker will add to `phase_waiter`. -/
def WillAdd (s : PhaseWaitSys W) (w : W) : Prop :=
  (s.sys.workers w).givesBack = true ∨ s.owed w = some .add

theorem WillAdd.notifying {w : W} (h : s.WillAdd w) : s.Notifying w := by
  rcases h with h | h
  · exact .inl h
  · exact .inr (by simp [h])

structure Inv (s : PhaseWaitSys W) : Prop where
  sys : s.sys.Inv
  slots : s.sys.SlotInv
  idle : ∀ w, s.owed w ≠ none → s.sys.workers w = .idle
  loaded : ∀ val, s.managerWait.waiterVal = some val → val ≤ s.phaseWaiter
  waiting : ∀ target, s.managerWait.waiting = some (target, s.phaseWaiter) →
    s.sys.mgr.HeldUp target ∨ ∃ w, s.WillAdd w
  asleep : ∀ target val, s.managerWait = .asleep target val →
    val = s.phaseWaiter ∨ ∃ w, s.owed w = some .wake

theorem Inv.new {version : Nat} (h : new W version = some s) : s.Inv := by
  obtain ⟨m, hm, rfl⟩ := Option.map_eq_some_iff.mp h
  exact {
    sys := .new (Option.map_eq_some_iff.mpr ⟨m, hm, rfl⟩)
    slots := .new hm
    idle := by simp [start]
    loaded := by simp [start, ManagerWait.waiterVal]
    waiting := by simp [start, ManagerWait.waiting]
    asleep := by simp [start] }

/-- The manager moves on in its loop. -/
theorem Inv.moveTo {pc : ManagerWait} (hinv : s.Inv)
    (hloaded : ∀ val, pc.waiterVal = some val → val ≤ s.phaseWaiter)
    (hwaiting : ∀ target, pc.waiting = some (target, s.phaseWaiter) →
      s.sys.mgr.HeldUp target ∨ ∃ w, s.WillAdd w)
    (hasleep : ∀ target val, pc = .asleep target val → val = s.phaseWaiter) :
    Inv { s with managerWait := pc } where
  sys := hinv.sys
  slots := hinv.slots
  idle := hinv.idle
  loaded := hloaded
  waiting := hwaiting
  asleep target val hpc := .inl (hasleep target val hpc)

/-- The manager moves on to a place where it has not loaded the count. -/
theorem Inv.moveOn {pc : ManagerWait} (hinv : s.Inv) (hpc : pc.waiterVal = none) :
    Inv { s with managerWait := pc } := by
  refine hinv.moveTo (by simp [hpc]) (fun target ht => ?_) ?_
  · simp [ManagerWait.waiterVal_of_waiting ht] at hpc
  · rintro target val rfl
    cases hpc

theorem managerStep_heldUp {s s' : HandshakeSys W} {a : ManagerAction} {target : Nat}
    (h : managerStep s a = some s') : s'.mgr.HeldUp target ↔ s.mgr.HeldUp target := by
  cases managerStep_spec h <;> rfl

/-- A step of the manager changes no local state and no worker. -/
theorem Inv.managerSys {sys : HandshakeSys W} {a : ManagerAction} (hinv : s.Inv)
    (h : managerStep s.sys a = some sys) : Inv { s with sys := sys } := by
  have hworkers := HandshakeSys.managerStep_workers (managerStep_spec h)
  exact {
    sys := (hinv.sys.managerStep (managerStep_spec h)).1
    slots := hinv.slots.managerStep h
    idle := by
      rw [hworkers]
      exact hinv.idle
    loaded := hinv.loaded
    waiting := by
      simp only [WillAdd, hworkers, managerStep_heldUp h]
      exact hinv.waiting
    asleep := hinv.asleep }

/-- A check that returns false has found a slot that holds the manager up. -/
theorem heldUp_of_checkReturns {m : SnapshotMgr} {target slot : Nat}
    (h : m.checkReturns (.check target slot) = some false) : m.HeldUp target := by
  rw [SnapshotMgr.checkReturns] at h
  split at h
  · split at h
    · cases h
    · next hslot hpasses => exact ⟨⟨slot, hslot⟩, by simpa using hpasses⟩
  · cases h

/-- During its second check the manager scans for its target. -/
def Checking (s : PhaseWaitSys W) : Prop :=
  ∀ target val, s.managerWait = .secondCheck target val →
    ∃ slot, s.sys.managerPc = .check target slot

/-- A check that does not return goes on with the next slot. -/
theorem managerStep_of_checkReturns {s s' : HandshakeSys W} {target slot : Nat}
    (hpc : s.managerPc = .check target slot) (hnone : s.mgr.checkReturns s.managerPc = none)
    (h : managerStep s .continue = some s') : s'.managerPc = .check target (slot + 1) := by
  rw [hpc] at hnone
  by_cases hslot : slot < maxSnapshotThreadNum
  · have hpasses : s.mgr.threadLocalStates ⟨slot, hslot⟩ ≠ invalidSnapshotState →
        s.mgr.threadLocalStates ⟨slot, hslot⟩ = target := by
      simpa [SnapshotMgr.checkReturns, SnapshotMgr.slotPasses, hslot] using hnone
    simp only [managerStep, hpc, hslot, dif_pos] at h
    rw [if_neg fun hboth => hboth.2 (hpasses hboth.1)] at h
    cases h
    rfl
  · simp [SnapshotMgr.checkReturns, hslot] at hnone

theorem Inv.waitStep {spurious : Bool} (hinv : s.Inv) (hchecking : s.Checking) (hwrap : s.NoWrap)
    (h : s.waitStep spurious = some s') : s'.Inv := by
  rw [PhaseWaitSys.waitStep] at h
  split at h
  · cases h
  · next target hpc =>
    obtain ⟨sys, hsys, hs⟩ := Option.bind_eq_some_iff.mp h
    obtain rfl : _ = s' := by simpa using hs
    exact (hinv.managerSys hsys).moveOn rfl
  · next target hpc =>
    obtain ⟨sys, hsys, hs⟩ := Option.bind_eq_some_iff.mp h
    obtain rfl : _ = s' := by simpa using hs
    refine (hinv.managerSys hsys).moveOn ?_
    split <;> rfl
  · next target hpc =>
    obtain ⟨sys, hsys, hs⟩ := Option.bind_eq_some_iff.mp h
    obtain rfl : _ = s' := by simpa using hs
    refine (hinv.managerSys hsys).moveTo ?_ ?_ ?_
    · rintro _ ⟨⟩
      exact le_rfl
    · simp [ManagerWait.waiting]
    · simp
  · next target val hpc =>
    obtain ⟨sys, hsys, hs⟩ := Option.bind_eq_some_iff.mp h
    obtain rfl : _ = s' := by simpa using hs
    obtain ⟨slot, hcheck⟩ := hchecking target val hpc
    have hle : val ≤ s.phaseWaiter := hinv.loaded val (by rw [hpc]; rfl)
    refine (hinv.managerSys hsys).moveTo (fun v hv => ?_) (fun t ht => ?_) (fun t v ht => ?_)
    · split at hv <;> cases hv <;> exact hle
    · split at ht
      · cases ht
      · cases ht
      · next hfalse =>
        -- the slot that the second scan stopped at
        cases ht
        rw [hcheck] at hfalse
        exact .inl ((managerStep_heldUp hsys).2 (heldUp_of_checkReturns hfalse))
    · split at ht <;> cases ht
  · next target val hpc =>
    split at h
    · next hsame =>
      obtain rfl : _ = s' := by simpa using h
      have hle : val ≤ s.phaseWaiter := hinv.loaded val (by rw [hpc]; rfl)
      have hlt := hwrap target val hpc
      have heq : val = s.phaseWaiter := by omega
      subst heq
      refine hinv.moveTo ?_ ?_ ?_
      · rintro _ ⟨⟩
        exact le_rfl
      · rintro _ ⟨⟩
        exact hinv.waiting target (by rw [hpc]; rfl)
      · rintro _ _ ⟨⟩
        rfl
    · obtain rfl : _ = s' := by simpa using h
      exact hinv.moveOn rfl
  · next target val hpc =>
    obtain ⟨-, rfl⟩ : _ ∧ _ = s' := by simpa using h
    exact hinv.moveOn rfl

theorem Checking.waitStep {spurious : Bool} (hchecking : s.Checking)
    (h : s.waitStep spurious = some s') : s'.Checking := by
  rw [PhaseWaitSys.waitStep] at h
  split at h
  · cases h
  · obtain ⟨sys, hsys, hs⟩ := Option.bind_eq_some_iff.mp h
    obtain rfl : _ = s' := by simpa using hs
    rintro _ _ ⟨⟩
  · obtain ⟨sys, hsys, hs⟩ := Option.bind_eq_some_iff.mp h
    obtain rfl : _ = s' := by simpa using hs
    intro target val hpc
    dsimp only at hpc
    split at hpc <;> cases hpc
  · obtain ⟨sys, hsys, hs⟩ := Option.bind_eq_some_iff.mp h
    obtain rfl : _ = s' := by simpa using hs
    rintro _ _ ⟨⟩
    cases managerStep_spec hsys
    exact ⟨0, rfl⟩
  · next target val hpc =>
    obtain ⟨sys, hsys, hs⟩ := Option.bind_eq_some_iff.mp h
    obtain rfl : _ = s' := by simpa using hs
    obtain ⟨slot, hcheck⟩ := hchecking target val hpc
    intro target' val' hpc'
    dsimp only at hpc'
    split at hpc'
    · next hnone =>
      cases hpc'
      exact ⟨slot + 1, managerStep_of_checkReturns hcheck hnone hsys⟩
    · cases hpc'
    · cases hpc'
  · split at h <;> cases h <;> rintro _ _ ⟨⟩
  · obtain ⟨-, rfl⟩ : _ ∧ _ = s' := by simpa using h
    rintro _ _ ⟨⟩

theorem startWait_eq_some {target : Nat} (h : s.startWait target = some s') :
    s' = { s with managerWait := .loop target } := by
  simp only [startWait, Option.ite_none_right_eq_some, Option.some.injEq] at h
  exact h.2.symm

theorem betweenWaits_eq_some {a : ManagerAction} (h : s.betweenWaits a = some s') :
    s.managerWait = .out ∧ ∃ sys, managerStep s.sys a = some sys ∧ s' = { s with sys := sys } := by
  simp only [betweenWaits, Option.ite_none_right_eq_some, Option.map_eq_some_iff] at h
  obtain ⟨hout, sys, hsys, rfl⟩ := h
  exact ⟨hout, sys, hsys, rfl⟩

variable [DecidableEq W]

/-- A worker takes a step of the handshake. -/
theorem Inv.callerRun {w : W} {start : SlotId} {sys : HandshakeSys W} (hinv : s.Inv)
    (hnone : s.owed w = none) (h : handshakeStep s.sys (.worker w start) = some sys) :
    Inv { s with
      sys := sys
      owed := Function.update s.owed w (if (s.sys.workers w).givesBack then some .add else none) } := by
  have hsys := (hinv.sys.step ⟨_, h⟩).1
  have hslots := hinv.slots.workerStep hinv.sys h
  obtain ⟨mgr, pc, heffect, rfl⟩ := HandshakeSys.handshakeStep_effect h
  exact {
    sys := hsys
    slots := hslots
    idle := fun w' hw' => by
      by_cases hw : w' = w
      · subst hw
        simp only [Function.update_self, ne_eq, ite_eq_right_iff, reduceCtorEq, imp_false,
          Bool.not_eq_true, Bool.not_eq_false] at hw' ⊢
        exact heffect.of_givesBack hw'
      · simp only [Function.update_of_ne hw] at hw' ⊢
        exact hinv.idle w' hw'
    loaded := hinv.loaded
    waiting := fun target ht => by
      rcases hinv.waiting target ht with hup | ⟨u, hu⟩
      · rcases heffect.heldUp (hinv.slots.blank w) hup with hup | hgives
        · exact .inl hup
        · exact .inr ⟨w, .inl (by simpa using hgives)⟩
      · refine .inr ⟨u, ?_⟩
        by_cases huw : u = w
        · subst huw
          have hgives : (s.sys.workers u).givesBack = true := hu.resolve_right (by simp [hnone])
          exact .inr (by simp [hgives])
        · simpa [WillAdd, huw] using hu
    asleep := fun target val hpc => by
      refine (hinv.asleep target val hpc).imp_right fun ⟨u, hu⟩ => ⟨u, ?_⟩
      have huw : u ≠ w := by
        rintro rfl
        simp [hnone] at hu
      simpa [huw] using hu }

/-- What a worker that is not about to give back a slot has in its notices is free to change. -/
theorem Inv.idle_update {w : W} (hinv : s.Inv) (hidle : s.sys.workers w = .idle) (n : Option Notice) :
    ∀ w', Function.update s.owed w n w' ≠ none → s.sys.workers w' = .idle := by
  intro w' hw'
  by_cases hw : w' = w
  · rw [hw, hidle]
  · exact hinv.idle w' (by simpa [hw] using hw')

theorem Inv.callerAdd {w : W} (hinv : s.Inv) (howed : s.owed w = some .add) :
    Inv { s with
      phaseWaiter := s.phaseWaiter + 1, owed := Function.update s.owed w (some .wake) } where
  sys := hinv.sys
  slots := hinv.slots
  idle := hinv.idle_update (hinv.idle w (by simp [howed])) _
  loaded val hval := (hinv.loaded val hval).trans (Nat.le_succ _)
  waiting target ht := by
    have hle := hinv.loaded _ (ManagerWait.waiterVal_of_waiting ht)
    exact absurd hle (Nat.not_succ_le_self _)
  asleep _ _ _ := .inr ⟨w, Function.update_self _ _ _⟩

theorem Inv.callerWake {w : W} (hinv : s.Inv) (howed : s.owed w = some .wake) :
    Inv { s with
      owed := Function.update s.owed w none, managerWait := s.managerWait.woken } := by
  have hidle := hinv.idle w (by simp [howed])
  exact {
    sys := hinv.sys
    slots := hinv.slots
    idle := hinv.idle_update hidle _
    loaded := fun val hval => hinv.loaded val (ManagerWait.waiterVal_of_woken hval)
    waiting := fun target ht => by
      refine (hinv.waiting target (ManagerWait.waiting_of_woken ht)).imp_right fun ⟨u, hu⟩ => ⟨u, ?_⟩
      have huw : u ≠ w := by
        rintro rfl
        simp [WillAdd, hidle, howed, WorkerPc.givesBack] at hu
      simpa [WillAdd, huw] using hu
    asleep := fun target val hpc => absurd hpc (ManagerWait.woken_ne_asleep _ _ _) }

theorem Inv.callerStep {w : W} {start : SlotId} (hinv : s.Inv)
    (h : s.callerStep w start = some s') : s'.Inv := by
  rw [PhaseWaitSys.callerStep] at h
  split at h
  · next hnone =>
    obtain ⟨sys, hsys, hs⟩ := Option.bind_eq_some_iff.mp h
    obtain rfl : _ = s' := by simpa using hs
    exact hinv.callerRun hnone hsys
  · next hadd =>
    cases h
    exact hinv.callerAdd hadd
  · next hwake =>
    cases h
    exact hinv.callerWake hwake

theorem Checking.callerStep {w : W} {start : SlotId} (hchecking : s.Checking)
    (h : s.callerStep w start = some s') : s'.Checking := by
  rw [PhaseWaitSys.callerStep] at h
  split at h
  · obtain ⟨sys, hsys, hs⟩ := Option.bind_eq_some_iff.mp h
    obtain rfl : _ = s' := by simpa using hs
    obtain ⟨mgr, pc, -, rfl⟩ := HandshakeSys.handshakeStep_effect hsys
    exact hchecking
  · cases h
    exact hchecking
  · cases h
    intro target val hpc
    exact hchecking target val (ManagerWait.eq_secondCheck_of_woken hpc)

theorem Inv.step (hinv : s.Inv) (hchecking : s.Checking) (hwrap : s.NoWrap) (h : Step s s') :
    s'.Inv ∧ s'.Checking := by
  obtain ⟨a, ha⟩ := h
  cases a with
  | worker w start => exact ⟨hinv.callerStep ha, hchecking.callerStep ha⟩
  | manager a =>
    obtain ⟨hout, sys, hsys, rfl⟩ := betweenWaits_eq_some ha
    exact ⟨hinv.managerSys hsys, by simp [Checking, hout]⟩
  | waitForPhaseCompletion target =>
    obtain rfl := startWait_eq_some ha
    exact ⟨hinv.moveOn rfl, by simp [Checking]⟩
  | waitForAllSlotsReleased =>
    obtain rfl := startWait_eq_some ha
    exact ⟨hinv.moveOn rfl, by simp [Checking]⟩
  | continueWait spurious => exact ⟨hinv.waitStep hchecking hwrap ha, hchecking.waitStep ha⟩

omit [DecidableEq W] in
/-- A manager that sleeps is held up or about to be woken. -/
theorem Inv.not_stranded (hinv : s.Inv) : ¬ s.Stranded := by
  rintro ⟨target, val, hpc, -, hdone, hquiet⟩
  rcases hinv.asleep target val hpc with rfl | ⟨w, hw⟩
  · rcases hinv.waiting target (by rw [hpc]; rfl) with hup | ⟨w, hw⟩
    · rw [SnapshotMgr.checkIfPhaseCompleted_eq_false.2 hup] at hdone
      cases hdone
    · exact hquiet w hw.notifying
  · exact hquiet w (.inr (by simp [hw]))

/-! ## One worker and the manager -/

/-- A run through states with the property `P`. -/
abbrev RunWithin (P : PhaseWaitSys W → Prop) : PhaseWaitSys W → PhaseWaitSys W → Prop :=
  Relation.ReflTransGen fun s s' => Step s s' ∧ P s'

/-- One worker. -/
def solo (mgr : SnapshotMgr) (pc : WorkerPc) (managerPc : ManagerPc) (phaseWaiter : Nat)
    (owed : Option Notice) (managerWait : ManagerWait) : PhaseWaitSys Unit :=
  ⟨⟨mgr, fun _ => pc, managerPc, false, false⟩, phaseWaiter, fun _ => owed, managerWait⟩

theorem update_unit {α : Type} (a b : α) : Function.update (fun _ : Unit => a) () b = fun _ => b :=
  funext fun _ => Function.update_self _ _ _

section Solo

variable {P : PhaseWaitSys Unit → Prop} {s₀ : PhaseWaitSys Unit} {m m' : SnapshotMgr}
  {pc pc' : WorkerPc} {managerPc : ManagerPc} {n : Nat} {managerWait : ManagerWait}

theorem RunWithin.run (h : RunWithin P s₀ (solo m pc managerPc n none managerWait))
    (hstep : workerStep m 0 pc = some (m', pc')) (hgives : pc.givesBack = false)
    (hP : P (solo m' pc' managerPc n none managerWait)) :
    RunWithin P s₀ (solo m' pc' managerPc n none managerWait) := by
  refine h.tail ⟨⟨.worker () 0, ?_⟩, hP⟩
  simp [step, callerStep, solo, handshakeStep, hstep, hgives, update_unit]

/-- A worker that gives its slot back adds to the count and wakes the manager, if it sleeps. -/
theorem RunWithin.giveBack (h : RunWithin P s₀ (solo m pc managerPc n none managerWait))
    (hstep : workerStep m 0 pc = some (m', .idle)) (hgives : pc.givesBack = true)
    (hwait : managerWait.woken = managerWait) (hP : ∀ s, P s) :
    RunWithin P s₀ (solo m' .idle managerPc (n + 1) none managerWait) := by
  have hback : Step (solo m pc managerPc n none managerWait)
      (solo m' .idle managerPc n (some .add) managerWait) :=
    ⟨.worker () 0, by simp [step, callerStep, solo, handshakeStep, hstep, hgives, update_unit]⟩
  have hadd : Step (solo m' .idle managerPc n (some .add) managerWait)
      (solo m' .idle managerPc (n + 1) (some .wake) managerWait) :=
    ⟨.worker () 0, by simp [step, callerStep, solo, update_unit]⟩
  have hwake : Step (solo m' .idle managerPc (n + 1) (some .wake) managerWait)
      (solo m' .idle managerPc (n + 1) none managerWait) :=
    ⟨.worker () 0, by simp [step, callerStep, solo, update_unit, hwait]⟩
  exact ((h.tail ⟨hback, hP _⟩).tail ⟨hadd, hP _⟩).tail ⟨hwake, hP _⟩

/-- All slots are free in global state `g`. -/
def freeMgr (g : Nat) : SnapshotMgr := ⟨g, fun _ => false, fun _ => invalidSnapshotState, false⟩

/-- Slot 0 is reserved for the state `g`. -/
def reservedMgr (g : Nat) : SnapshotMgr := ((freeMgr g).setSlot 0 true).storeLocal 0 g

theorem giveBack_reservedMgr (g g' : Nat) :
    ({ reservedMgr g with globalState := g' }.storeLocal 0 invalidSnapshotState).setSlot 0 false =
      freeMgr g' := by
  simp [reservedMgr, freeMgr, SnapshotMgr.storeLocal, SnapshotMgr.setSlot]

/-- The worker reserves slot 0. -/
theorem RunWithin.reserve {g : Nat} (st : SnapshotState) (hg : g ≠ invalidSnapshotState)
    (hst : SnapshotState.decode g = some st)
    (h : RunWithin P s₀ (solo (freeMgr g) .idle managerPc n none managerWait))
    (hP : ∀ m pc, P (solo m pc managerPc n none managerWait)) :
    RunWithin P s₀ (solo (reservedMgr g) (.reserved 0 g st) managerPc n none managerWait) := by
  obtain ⟨phase, hphase, hr⟩ := Option.bind_eq_some_iff.mp hst
  obtain rfl : _ = st := by simpa using hr
  have htake : RunWithin P s₀
      (solo ((freeMgr g).setSlot 0 true) (.setLoad 0 g) managerPc n none managerWait) :=
    ((h.run rfl rfl (hP _ _)).run rfl rfl (hP _ _)).run rfl rfl (hP _ _)
  have hload : workerStep ((freeMgr g).setSlot 0 true) 0 (.setLoad 0 g) =
      some ((freeMgr g).setSlot 0 true, .setStore 0 g) := by
    simp [workerStep, freeMgr, hg.symm]
  have hstore : RunWithin P s₀
      (solo (reservedMgr g) (.recheckLocal 0 g g) managerPc n none managerWait) :=
    ((htake.run hload rfl (hP _ _)).run rfl rfl (hP _ _)).run rfl rfl (hP _ _)
  have hrecheck : workerStep (reservedMgr g) 0 (.recheckLocal 0 g g) =
      some (reservedMgr g, .recheckPause 0 g) := by
    simp [workerStep, reservedMgr]
  refine (hstore.run hrecheck rfl (hP _ _)).run ?_ rfl (hP _ _)
  simp [workerStep, reservedMgr, freeMgr, SnapshotMgr.storeLocal, SnapshotMgr.setSlot, hphase]

/-- The worker releases slot 0, maybe after the global state has moved on to `g'`. -/
theorem RunWithin.release {g g' : Nat} {st : SnapshotState} (hg : g ≠ invalidSnapshotState)
    (h : RunWithin P s₀ (solo { reservedMgr g with globalState := g' } (.reserved 0 g st) managerPc n
      none managerWait))
    (hwait : managerWait.woken = managerWait) (hP : ∀ s, P s) :
    RunWithin P s₀ (solo (freeMgr g') .idle managerPc (n + 1) none managerWait) := by
  have hload : workerStep { reservedMgr g with globalState := g' } 0 (.releaseLoad 0) =
      some ({ reservedMgr g with globalState := g' }, .releaseStore 0) := by
    simp [workerStep, reservedMgr, hg]
  have hclear := ((h.run rfl rfl (hP _)).run hload rfl (hP _)).run rfl rfl (hP _)
  refine hclear.giveBack ?_ rfl hwait hP
  rw [← giveBack_reservedMgr g g']
  rfl

/-- The worker has reserved slot 0 at rest, the manager has moved on to prepare, found itself held
up and is about to wait. -/
theorem RunWithin.heldUp (hP : ∀ s, s.phaseWaiter = 0 → P s) :
    RunWithin P (start Unit (freeMgr 0))
      (solo { reservedMgr 0 with globalState := 2 ^ 61 } (.reserved 0 0 ⟨.rest, 0⟩) .idle 0 none
        (.wait (2 ^ 61) 0)) := by
  have hnew : RunWithin P (start Unit (freeMgr 0)) (solo (freeMgr 0) .idle .idle 0 none .out) := .refl
  have hreserved := hnew.reserve ⟨.rest, 0⟩ (by decide) rfl fun _ _ => hP _ rfl
  have hadvanced := ((hreserved.tail ⟨⟨.manager .advance, rfl⟩, hP _ rfl⟩).tail
    ⟨⟨.manager .continue, rfl⟩, hP _ rfl⟩).tail ⟨⟨.manager .continue, rfl⟩, hP _ rfl⟩
  have hloop := hadvanced.tail ⟨⟨.waitForPhaseCompletion (2 ^ 61), rfl⟩, hP _ rfl⟩
  have hfirst := (hloop.tail ⟨⟨.continueWait false, rfl⟩, hP _ rfl⟩).tail
    ⟨⟨.continueWait false, rfl⟩, hP _ rfl⟩
  exact (hfirst.tail ⟨⟨.continueWait false, rfl⟩, hP _ rfl⟩).tail
    ⟨⟨.continueWait false, rfl⟩, hP _ rfl⟩

/-- Reserving and releasing slot 0 over and over brings the count to any value, while the manager
is about to wait for it to leave the value 0. -/
theorem RunWithin.afterReleases (hP : ∀ s, P s) : ∀ n,
    RunWithin P (start Unit (freeMgr 0))
      (solo (freeMgr (2 ^ 61)) .idle .idle (n + 1) none (.wait (2 ^ 61) 0))
  | 0 => (heldUp fun s _ => hP s).release (by decide) rfl hP
  | n + 1 =>
    have hreserved := (afterReleases hP n).reserve ⟨.prepare, 0⟩ (by decide) rfl fun _ _ => hP _
    RunWithin.release (by decide) hreserved rfl hP

end Solo

/-! ## Every interleaving -/

/-- **The manager is not left asleep.** Over every interleaving in which `phase_waiter` does not go
all the way round between the manager's load and its wait, the manager never sleeps on the
current value of `phase_waiter` with its target reached and no worker about to wake it. -/
theorem run_not_stranded {version : Nat} {s₀ : PhaseWaitSys W} (h₀ : new W version = some s₀)
    (h : Relation.ReflTransGen TimelyStep s₀ s) : ¬ s.Stranded := by
  have hall : s.Inv ∧ s.Checking ∧ s.NoWrap := by
    induction h with
    | refl =>
      refine ⟨.new h₀, ?_⟩
      obtain ⟨m, -, rfl⟩ := Option.map_eq_some_iff.mp h₀
      exact ⟨by simp [Checking, start], by simp [NoWrap, start]⟩
    | tail _ hstep ih =>
      obtain ⟨hinv, hchecking⟩ := ih.1.step ih.2.1 ih.2.2 hstep.1
      exact ⟨hinv, hchecking, hstep.2⟩
  exact hall.1.not_stranded

/-- The manager sleeps while the worker still holds its reservation of the phase before. -/
theorem run_not_stranded_held_up :
    new Unit 0 = some (start Unit (freeMgr 0)) ∧
    ¬ Stranded (solo { reservedMgr 0 with globalState := 2 ^ 61 } (.reserved 0 0 ⟨.rest, 0⟩) .idle 0
      none (.asleep (2 ^ 61) 0)) := by
  have hP : ∀ s : PhaseWaitSys Unit, s.phaseWaiter = 0 → s.NoWrap := by
    intro s hs target val _
    omega
  have hnew : new Unit 0 = some (start Unit (freeMgr 0)) := rfl
  have hasleep := (RunWithin.heldUp hP).tail ⟨⟨.continueWait false, rfl⟩, hP _ rfl⟩
  exact ⟨hnew, run_not_stranded hnew hasleep⟩

/-- After 2³² increments `phase_waiter` has its old value, and the manager that had loaded it goes
to sleep though all slots are free and nobody is left to wake it. -/
theorem manager_sleeps_beside_free_slots :
    ∃ s₀ s : PhaseWaitSys Unit, new Unit 0 = some s₀ ∧ Relation.ReflTransGen Step s₀ s ∧ s.Stranded := by
  have hrun := RunWithin.afterReleases (P := fun _ => True) (fun _ => trivial) (2 ^ 32 - 1)
  have hsteps := Relation.ReflTransGen.mono (fun _ _ h => h.1) _ _ hrun
  refine ⟨_, _, rfl, hsteps.tail ⟨.continueWait false, rfl⟩, 2 ^ 61, 0, rfl, rfl, ?_, ?_⟩
  · decide
  · rintro ⟨⟩ (h | h)
    · cases h
    · exact h rfl

end PhaseWaitSys

end BfTree
