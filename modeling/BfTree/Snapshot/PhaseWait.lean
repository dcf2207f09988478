import BfTree.Snapshot.Handshake

/-!
# The manager's wait for the workers

`wait_for_phase_completion` and `wait_for_all_slots_released` scan the slots, load
`phase_waiter`, scan once more and sleep on the loaded value. A worker that gave its slot
back adds one to `phase_waiter` and wakes all sleepers, as two more steps of its own. These
steps are put on top of the handshake, whose steps stay as they are.

A wait may return for no reason. `phaseWaiter` is the number of increments; the `u32` in
memory and the copy that the manager loads are its residues.
-/

namespace BfTree

/-- What a worker that gave its slot back still has to do. -/
inductive Notice where
  | add
  | wake
deriving DecidableEq

/-- Where the manager is in the loop of a wait for `target`. -/
inductive ManagerWait where
  | out
  | loop (target : Nat)
  | firstCheck (target : Nat)
  | loadWaiter (target : Nat)
  | secondCheck (target waiterVal : Nat)
  | wait (target waiterVal : Nat)
  | asleep (target waiterVal : Nat)
deriving DecidableEq

namespace ManagerWait

/-- What `wake_all` does to the manager. -/
def woken : ManagerWait → ManagerWait
  | asleep target _ => loop target
  | pc => pc

end ManagerWait

/-- The next step of the worker gives its slot back. -/
def WorkerPc.givesBack : WorkerPc → Bool
  | revertSlot _ | releaseSlot _ => true
  | _ => false

namespace SnapshotMgr

/-- The check of one slot passes. -/
def slotPasses (m : SnapshotMgr) (target : Nat) (tid : SlotId) : Bool :=
  m.threadLocalStates tid = invalidSnapshotState ∨ m.threadLocalStates tid = target

/-- `check_if_phase_completed`, if no worker takes a step meanwhile. -/
def checkIfPhaseCompleted (m : SnapshotMgr) (target : Nat) : Bool :=
  (List.finRange maxSnapshotThreadNum).all (m.slotPasses target)

/-- What `check_if_phase_completed` returns in the manager's next step, if it returns. -/
def checkReturns (m : SnapshotMgr) : ManagerPc → Option Bool
  | .check target slot =>
    if h : slot < maxSnapshotThreadNum then
      if m.slotPasses target ⟨slot, h⟩ then none else some false
    else some true
  | _ => none

end SnapshotMgr

/-- The handshake with `phase_waiter`, the notices that workers owe and the manager's wait. -/
structure PhaseWaitSys (W : Type) where
  sys : HandshakeSys W
  phaseWaiter : Nat
  owed : W → Option Notice
  managerWait : ManagerWait

inductive PhaseWaitAction (W : Type) where
  | worker (w : W) (start : SlotId)
  | manager (a : ManagerAction)
  | waitForPhaseCompletion (target : Nat)
  | waitForAllSlotsReleased
  | continueWait (spurious : Bool)

namespace PhaseWaitSys

variable {W : Type}

/-- One step of a worker. -/
def callerStep [DecidableEq W] (s : PhaseWaitSys W) (w : W) (start : SlotId) :
    Option (PhaseWaitSys W) :=
  match s.owed w with
  | none => do
    let sys ← handshakeStep s.sys (.worker w start)
    let owed := if (s.sys.workers w).givesBack then some .add else none
    return { s with sys := sys, owed := Function.update s.owed w owed }
  | some .add => some { s with
      phaseWaiter := s.phaseWaiter + 1, owed := Function.update s.owed w (some .wake) }
  | some .wake => some { s with
      owed := Function.update s.owed w none, managerWait := s.managerWait.woken }

/-- Both waits are this loop, `wait_for_all_slots_released` with the invalid state as target. -/
def startWait (s : PhaseWaitSys W) (target : Nat) : Option (PhaseWaitSys W) :=
  if s.managerWait = .out ∧ s.sys.managerPc = .idle then some { s with managerWait := .loop target }
  else none

/-- One step of the loop. -/
def waitStep (s : PhaseWaitSys W) (spurious : Bool) : Option (PhaseWaitSys W) :=
  match s.managerWait with
  | .out => none
  | .loop target => do
    let sys ← managerStep s.sys (.check target)
    return { s with sys := sys, managerWait := .firstCheck target }
  | .firstCheck target => do
    let sys ← managerStep s.sys .continue
    return { s with
      sys := sys
      managerWait := match s.sys.mgr.checkReturns s.sys.managerPc with
        | none => .firstCheck target
        | some true => .out
        | some false => .loadWaiter target }
  | .loadWaiter target => do
    let sys ← managerStep s.sys (.check target)
    return { s with sys := sys, managerWait := .secondCheck target s.phaseWaiter }
  | .secondCheck target waiterVal => do
    let sys ← managerStep s.sys .continue
    return { s with
      sys := sys
      managerWait := match s.sys.mgr.checkReturns s.sys.managerPc with
        | none => .secondCheck target waiterVal
        | some true => .out
        | some false => .wait target waiterVal }
  | .wait target waiterVal =>
    if s.phaseWaiter % 2 ^ 32 = waiterVal % 2 ^ 32 ∧ spurious = false then
      some { s with managerWait := .asleep target waiterVal }
    else some { s with managerWait := .loop target }
  | .asleep target _ => if spurious then some { s with managerWait := .loop target } else none

/-- The manager's other steps, between two waits. -/
def betweenWaits (s : PhaseWaitSys W) (a : ManagerAction) : Option (PhaseWaitSys W) :=
  if s.managerWait = .out then (managerStep s.sys a).map fun sys => { s with sys := sys }
  else none

def step [DecidableEq W] (s : PhaseWaitSys W) : PhaseWaitAction W → Option (PhaseWaitSys W)
  | .worker w start => s.callerStep w start
  | .manager a => s.betweenWaits a
  | .waitForPhaseCompletion target => s.startWait target
  | .waitForAllSlotsReleased => s.startWait invalidSnapshotState
  | .continueWait spurious => s.waitStep spurious

def start (W : Type) (mgr : SnapshotMgr) : PhaseWaitSys W :=
  ⟨.start W mgr, 0, fun _ => none, .out⟩

def new (W : Type) (version : Nat) : Option (PhaseWaitSys W) :=
  (SnapshotMgr.new version).map (start W)

/-- The worker has cleared its local state and not yet called `wake_all`. -/
def Notifying (s : PhaseWaitSys W) (w : W) : Prop :=
  (s.sys.workers w).givesBack = true ∨ s.owed w ≠ none

/-- The manager sleeps on the current value of `phase_waiter` though its target is reached and
no worker is about to wake it. -/
def Stranded (s : PhaseWaitSys W) : Prop :=
  ∃ target waiterVal, s.managerWait = .asleep target waiterVal ∧
    s.phaseWaiter % 2 ^ 32 = waiterVal % 2 ^ 32 ∧
    s.sys.mgr.checkIfPhaseCompleted target = true ∧ ∀ w, ¬ s.Notifying w

/-- Since the manager loaded the value that it is about to wait on, `phase_waiter` did not go
all the way round. -/
def NoWrap (s : PhaseWaitSys W) : Prop :=
  ∀ target waiterVal, s.managerWait = .wait target waiterVal → s.phaseWaiter < waiterVal + 2 ^ 32

variable [DecidableEq W]

def Step (s s' : PhaseWaitSys W) : Prop :=
  ∃ a, s.step a = some s'

/-- A step into a state in which `phase_waiter` has not gone round. -/
def TimelyStep (s s' : PhaseWaitSys W) : Prop :=
  Step s s' ∧ s'.NoWrap

end PhaseWaitSys

end BfTree
