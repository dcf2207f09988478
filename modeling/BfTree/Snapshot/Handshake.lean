import BfTree.Snapshot.State

/-!
# The phase handshake

Worker threads reserve a thread slot before they touch a page; the snapshot
manager advances the global state and scans the slots. Every load, store and
compare-exchange is one atomic step, and the steps of any number of workers and
of the one manager interleave freely.
-/

namespace BfTree

abbrev maxSnapshotThreadNum : Nat := 64

abbrev SlotId := Fin maxSnapshotThreadNum

/-- The shared atomics of `CPRSnapShotMgr`. -/
structure SnapshotMgr where
  globalState : Nat
  threadSlots : SlotId → Bool
  threadLocalStates : SlotId → Nat
  pauseSnapshot : Bool

namespace SnapshotMgr

/-- `CPRSnapShotMgr::new`. -/
def new (version : Nat) : Option SnapshotMgr := do
  let globalState ← newSnapshotState 0 version
  return ⟨globalState, fun _ => false, fun _ => invalidSnapshotState, false⟩

def setSlot (m : SnapshotMgr) (tid : SlotId) (b : Bool) : SnapshotMgr :=
  { m with threadSlots := Function.update m.threadSlots tid b }

def storeLocal (m : SnapshotMgr) (tid : SlotId) (word : Nat) : SnapshotMgr :=
  { m with threadLocalStates := Function.update m.threadLocalStates tid word }

end SnapshotMgr

/-- The next atomic step of a worker inside `reserve_thread_slot` and
`release_thread_slot`. The two steps of `set_local_state` (the load that skips an
equal store, and the store) appear at each of its three calls. -/
inductive WorkerPc where
  | idle
  | cas (i : Nat)
  | loadGlobal (tid : SlotId)
  | setLoad (tid : SlotId) (globalState : Nat)
  | setStore (tid : SlotId) (globalState : Nat)
  | recheckGlobal (tid : SlotId) (globalState : Nat)
  | recheckLocal (tid : SlotId) (globalState currentGlobal : Nat)
  | recheckPause (tid : SlotId) (globalState : Nat)
  | revertLoad (tid : SlotId)
  | revertStore (tid : SlotId)
  | revertSlot (tid : SlotId)
  | reserved (tid : SlotId) (globalState : Nat) (state : SnapshotState)
  | releaseLoad (tid : SlotId)
  | releaseStore (tid : SlotId)
  | releaseSlot (tid : SlotId)
deriving DecidableEq

/-- One atomic step of a worker. `start` is the random slot an attempt starts at;
`none` is a failing assertion or an invalid phase id. -/
def workerStep (m : SnapshotMgr) (start : SlotId) : WorkerPc → Option (SnapshotMgr × WorkerPc)
  | .idle => some (m, if m.pauseSnapshot then .idle else .cas start)
  | .cas i =>
    if i < 2 * maxSnapshotThreadNum then
      let tid : SlotId := ⟨i % maxSnapshotThreadNum, Nat.mod_lt _ (by decide)⟩
      if m.threadSlots tid then some (m, .cas (i + 1))
      else some (m.setSlot tid true, .loadGlobal tid)
    else some (m, .idle)
  | .loadGlobal tid => some (m, .setLoad tid m.globalState)
  | .setLoad tid g =>
    some (m, if m.threadLocalStates tid = g then .recheckGlobal tid g else .setStore tid g)
  | .setStore tid g => some (m.storeLocal tid g, .recheckGlobal tid g)
  | .recheckGlobal tid g => some (m, .recheckLocal tid g m.globalState)
  | .recheckLocal tid g cur =>
    some (m, if m.threadLocalStates tid ≠ cur then .revertLoad tid else .recheckPause tid g)
  | .recheckPause tid g =>
    if m.pauseSnapshot then some (m, .revertLoad tid)
    else do
      let phase ← wordPhaseId g
      return (m, .reserved tid g ⟨phase, wordVersion g⟩)
  | .revertLoad tid =>
    some (m, if m.threadLocalStates tid = invalidSnapshotState then .revertSlot tid
      else .revertStore tid)
  | .revertStore tid => some (m.storeLocal tid invalidSnapshotState, .revertSlot tid)
  | .revertSlot tid =>
    -- the compare-exchange of the assertion must find the slot taken
    if m.threadSlots tid then some (m.setSlot tid false, .idle) else none
  | .reserved tid _ _ => some (m, .releaseLoad tid)
  | .releaseLoad tid =>
    some (m, if m.threadLocalStates tid = invalidSnapshotState then .releaseSlot tid
      else .releaseStore tid)
  | .releaseStore tid => some (m.storeLocal tid invalidSnapshotState, .releaseSlot tid)
  | .releaseSlot tid => some (m.setSlot tid false, .idle)

/-- The next atomic step of the manager inside `advance_global_state` and
`check_if_phase_completed`. -/
inductive ManagerPc where
  | idle
  | advanceVersion (phase : PhaseId)
  | advanceStore (newState : Nat)
  | check (target : Nat) (slot : Nat)
deriving DecidableEq

/-- What the manager does next; `continue` takes the next step of a running call. -/
inductive ManagerAction where
  | advance
  | check (target : Nat)
  | pause
  | resume
  | continue
deriving DecidableEq

/-- Workers, manager and shared state. `phaseCompleted` records that
`check_if_phase_completed` has returned true for the global state since the last
advance, `drained` that it has returned true for the invalid state since
`pause_snapshot` was last written. -/
structure HandshakeSys (W : Type) where
  mgr : SnapshotMgr
  workers : W → WorkerPc
  managerPc : ManagerPc
  phaseCompleted : Bool
  drained : Bool

variable {W : Type}

/-- One atomic step of the manager. -/
def managerStep (s : HandshakeSys W) (a : ManagerAction) : Option (HandshakeSys W) :=
  match s.managerPc, a with
  | .idle, .advance => do
    let phase ← wordPhaseId s.mgr.globalState
    return { s with managerPc := .advanceVersion phase }
  | .idle, .check target => some { s with managerPc := .check target 0 }
  | .idle, .pause =>
    some { s with mgr := { s.mgr with pauseSnapshot := true }, drained := false }
  | .idle, .resume =>
    some { s with mgr := { s.mgr with pauseSnapshot := false }, drained := false }
  | .advanceVersion phase, .continue => do
    let newState ← (SnapshotState.next ⟨phase, wordVersion s.mgr.globalState⟩).encode
    return { s with managerPc := .advanceStore newState }
  | .advanceStore newState, .continue =>
    some { s with
      mgr := { s.mgr with globalState := newState }, managerPc := .idle, phaseCompleted := false }
  | .check target slot, .continue =>
    if h : slot < maxSnapshotThreadNum then
      let localState := s.mgr.threadLocalStates ⟨slot, h⟩
      if localState ≠ invalidSnapshotState ∧ localState ≠ target then
        some { s with managerPc := .idle }
      else some { s with managerPc := .check target (slot + 1) }
    else some { s with
      managerPc := .idle
      phaseCompleted := s.phaseCompleted || decide (target = s.mgr.globalState)
      drained := s.drained || decide (target = invalidSnapshotState) }
  | _, _ => none

inductive HandshakeAction (W : Type) where
  | worker (w : W) (start : SlotId)
  | manager (a : ManagerAction)

def handshakeStep [DecidableEq W] (s : HandshakeSys W) :
    HandshakeAction W → Option (HandshakeSys W)
  | .worker w start => do
    let (mgr, pc) ← workerStep s.mgr start (s.workers w)
    return { s with mgr := mgr, workers := Function.update s.workers w pc }
  | .manager a => managerStep s a

namespace HandshakeSys

/-- All workers and the manager idle. -/
def start (W : Type) (mgr : SnapshotMgr) : HandshakeSys W :=
  ⟨mgr, fun _ => .idle, .idle, false, false⟩

/-- All workers and the manager idle on a fresh `CPRSnapShotMgr`. -/
def new (W : Type) (version : Nat) : Option (HandshakeSys W) :=
  (SnapshotMgr.new version).map (start W)

/-- Worker `w` holds the reservation `(tid, version, phase)`. -/
def Holds (s : HandshakeSys W) (w : W) (tid : SlotId) (st : SnapshotState) : Prop :=
  ∃ g, s.workers w = .reserved tid g st

variable [DecidableEq W]

def Step (s s' : HandshakeSys W) : Prop :=
  ∃ a, handshakeStep s a = some s'

/-- A step of a manager that follows `snapshot`: past the version `v` the tree was
opened with, it advances only out of a completed phase. -/
def SnapshotStep (v : Nat) (s s' : HandshakeSys W) : Prop :=
  ∃ a, handshakeStep s a = some s' ∧
    (a = .manager .advance →
      s.phaseCompleted ∨ newSnapshotState 0 v = some s.mgr.globalState)

/-- A step that leaves the workers paused. -/
def PausedStep (s s' : HandshakeSys W) : Prop :=
  Step s s' ∧ s'.mgr.pauseSnapshot

end HandshakeSys

end BfTree
