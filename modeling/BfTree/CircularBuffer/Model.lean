import BfTree.Config
import BfTree.Lib.Tiling

/-!
# The circular buffer

Memory for cached pages is taken at the tail of a ring and given back at its head. Each
block starts with a meta that has a size and a state. Blocks that are given back early
go to the free list of their size class, where they are found again by allocations.

Every compare-exchange, load and critical section is one atomic step. A task is a call in
progress, or a guard or a handle that some caller holds; the tasks of all threads
interleave freely.
-/

namespace BfTree

open Lib

inductive MetaState where
  | notReady
  | ready
  | tombstone
  | beginTombstone
  | freeListed
  | evicted
deriving DecidableEq

structure AllocMeta where
  /-- Without the meta itself. -/
  size : Nat
  state : MetaState
deriving DecidableEq

def cbAllocMetaSize : Nat := 8

def alignUp (addr align : Nat) : Nat := (addr + align - 1) / align * align

inductive RingPanic where
  | metaState (expected actual : MetaState)
  | assertion
  | sizeTooSmall
  | sizeTooLarge
  | overflow
deriving DecidableEq

/-- Why a step is not taken: a lock or a call is not available, or the code panics. -/
inductive Halt where
  | blocked
  | panicked (reason : RingPanic)
deriving DecidableEq

/-- Memory is addressed by offsets. The metas are read and written at physical addresses;
the free lists hold data pointers. -/
structure CircularBuffer where
  capacity : Nat
  copyOnAccessThreshold : Nat
  sizeClasses : List Nat
  headAddr : Nat
  evictingAddr : Nat
  tailAddr : Nat
  metas : Nat → AllocMeta
  listHeads : Nat → List Nat

namespace CircularBuffer

/-- A new buffer over uninitialised memory; `none` is a failed assertion. The threshold is
a fraction of the capacity. -/
def new (cfg : Config) (capacity copyOnAccessThreshold : Nat) (memory : Nat → AllocMeta) :
    Option CircularBuffer := do
  guard (Config.isPowerOfTwo capacity ∧ cfg.leafPageSize + cbAllocMetaSize ≤ capacity)
  let classes ← cfg.createMemPageSizeClasses
  return ⟨capacity, copyOnAccessThreshold, classes.reverse, 0, 0, 0, memory, fun _ => []⟩

def logicalToPhysical (b : CircularBuffer) (addr : Nat) : Nat := addr &&& (b.capacity - 1)

def getMeta (b : CircularBuffer) (addr : Nat) : AllocMeta := b.metas (b.logicalToPhysical addr)

def getMetaFromDataPtr (b : CircularBuffer) (ptr : Nat) : AllocMeta :=
  b.metas (ptr - cbAllocMetaSize)

/-- The data pointer of the meta at a logical address. -/
def dataPtr (b : CircularBuffer) (addr : Nat) : Nat := b.logicalToPhysical addr + cbAllocMetaSize

def blockLen (b : CircularBuffer) (addr : Nat) : Nat := (b.getMeta addr).size + cbAllocMetaSize

/-- The blocks from head to tail. -/
def iter (b : CircularBuffer) : List Nat :=
  walk b.blockLen (b.tailAddr - b.headAddr) b.headAddr b.tailAddr

def distanceToTail (b : CircularBuffer) (tail ptr : Nat) : Nat :=
  let tailPtr := b.logicalToPhysical tail
  if ptr ≤ tailPtr then tailPtr - ptr else b.capacity - (ptr - tailPtr)

/-- `tail` is the tail address that the caller sees. -/
def ptrIsCopyOnAccess (b : CircularBuffer) (tail ptr : Nat) : Bool :=
  b.copyOnAccessThreshold ≤ b.distanceToTail tail ptr

/-! ## States -/

def setState (b : CircularBuffer) (ptr : Nat) (state : MetaState) : CircularBuffer :=
  let m := b.getMetaFromDataPtr ptr
  { b with metas := Function.update b.metas (ptr - cbAllocMetaSize) ⟨m.size, state⟩ }

/-- A compare-exchange that must not fail; `reported` is the state that the panic names. -/
def transition (old new reported : MetaState) (b : CircularBuffer) (ptr : Nat) :
    Except Halt CircularBuffer :=
  let actual := (b.getMetaFromDataPtr ptr).state
  if actual = old then .ok (b.setState ptr new)
  else .error (.panicked (.metaState reported actual))

def toReady := transition .notReady .ready .notReady

def revertToReady := transition .beginTombstone .ready .beginTombstone

def freeListToTombstone := transition .freeListed .tombstone .freeListed

/-- The panic names another state than the one compared with. -/
def toFreelist := transition .beginTombstone .freeListed .ready

def toTombstone := transition .beginTombstone .tombstone .beginTombstone

def tombstoneToEvicted := transition .tombstone .evicted .tombstone

/-! ## Free lists -/

/-- The largest size class that is not larger. The classes are in descending order. -/
def sizeClassSmallerThan (b : CircularBuffer) (size : Nat) : Option Nat :=
  b.sizeClasses.findIdx? (· ≤ size)

/-- The smallest size class that is not smaller. -/
def sizeClassLargerThan (b : CircularBuffer) (size : Nat) : Option Nat :=
  (b.sizeClasses.reverse.findIdx? (size ≤ ·)).map (b.sizeClasses.length - 1 - ·)

def setList (b : CircularBuffer) (c : Nat) (list : List Nat) : CircularBuffer :=
  { b with listHeads := Function.update b.listHeads c list }

/-! ## The tail -/

/-- The block at the tail. -/
def push (b : CircularBuffer) (m : AllocMeta) : CircularBuffer :=
  { b with
    metas := Function.update b.metas (b.logicalToPhysical b.tailAddr) m
    tailAddr := b.tailAddr + (m.size + cbAllocMetaSize) }

inductive TailAlloc where
  | full
  /-- The end of the memory is filled up with a tombstone. -/
  | padded (b : CircularBuffer)
  | done (ptr : Nat) (b : CircularBuffer)

/-- The part of `alloc` after the free list. -/
def allocTail (b : CircularBuffer) (size : Nat) : Except Halt TailAlloc :=
  let logicalRemaining := b.capacity - (b.tailAddr - b.headAddr)
  let physicalRemaining := b.capacity - (b.tailAddr &&& (b.capacity - 1))
  let alignedSize := alignUp size cbAllocMetaSize
  let required := alignedSize + cbAllocMetaSize
  if logicalRemaining < required then .ok .full
  else if physicalRemaining < required then
    if physicalRemaining < cbAllocMetaSize then .error (.panicked .assertion)
    else if b.tailAddr + physicalRemaining < 2 ^ 64 then
      .ok (.padded (b.push ⟨(physicalRemaining - cbAllocMetaSize) % 2 ^ 32, .tombstone⟩))
    else .error (.panicked .overflow)
  else if b.tailAddr + required < 2 ^ 64 then
    .ok (.done (b.logicalToPhysical (b.tailAddr + cbAllocMetaSize))
      (b.push ⟨alignedSize % 2 ^ 32, .notReady⟩))
  else .error (.panicked .overflow)

end CircularBuffer

/-! ## Tasks -/

inductive AllocPhase where
  | lock
  | remove
  | taken (ptr : Nat)
  | tail
deriving DecidableEq

inductive DeallocPhase where
  | start
  | tombstone
  /-- The block is in the list of class `c`, whose lock is held. -/
  | linked (c : Nat)
deriving DecidableEq

inductive EvictPhase where
  | acquire
  | load
  | callback
  | dealloc
  | find
  | unlinked
  | tombstoned
  | finish
  | bump
deriving DecidableEq

inductive Task where
  | idle
  | guard (ptr : Nat)
  | handle (ptr : Nat)
  | alloc (phase : AllocPhase) (size : Nat)
  | dealloc (phase : DeallocPhase) (ptr : Nat)
  /-- An eviction of the block from `start` to `stop`. -/
  | evict (phase : EvictPhase) (start stop : Nat)
deriving DecidableEq

variable {W : Type}

structure RingSys (W : Type) where
  buffer : CircularBuffer
  lock : Option W
  listLocks : Nat → Option W
  tasks : W → Task

/-- What a step decides besides the state: whether `compare_exchange_weak` fails without
cause, whether a `try_lock` finds the lock taken, the tail address that is seen without
the lock, and whether the callback evicts. -/
structure StepEnv where
  spurious : Bool
  contended : Bool
  fuzzyTail : Nat
  callbackOk : Bool

inductive RingEvent where
  | allocated (size ptr : Nat)
  | weakFailure (ptr : Nat)
  | full
  | emptyAlloc
  | wouldBlock
  | nothingToEvict
  | evicted (bytes : Nat)
deriving DecidableEq

inductive RingAction (W : Type) where
  | alloc (i : W) (size : Nat)
  /-- A guard or a handle is dropped. -/
  | drop (i : W)
  | acquire (i : W) (ptr : Nat)
  | dealloc (i : W)
  | evict (i : W)
  | step (i : W) (env : StepEnv)

namespace RingSys

variable [DecidableEq W]

def new (b : CircularBuffer) : RingSys W := ⟨b, none, fun _ => none, fun _ => .idle⟩

def setTask (s : RingSys W) (i : W) (task : Task) : RingSys W :=
  { s with tasks := Function.update s.tasks i task }

def setListLock (s : RingSys W) (c : Nat) (owner : Option W) : RingSys W :=
  { s with listLocks := Function.update s.listLocks c owner }

/-- The state after a step, with what a caller is told. -/
abbrev Result (W : Type) := Option RingEvent × RingSys W

def allocStep (s : RingSys W) (i : W) (env : StepEnv) (size : Nat) : AllocPhase → Except Halt (Result W)
  | .lock =>
    if s.lock.isSome then .error .blocked
    else .ok (none, { s with lock := some i }.setTask i (.alloc .remove size))
  | .remove =>
    match s.buffer.sizeClassLargerThan size with
    | none => .error (.panicked .sizeTooLarge)
    | some c =>
      if (s.listLocks c).isSome then .error .blocked
      else
        match s.buffer.listHeads c with
        | [] => .ok (none, s.setTask i (.alloc .tail size))
        | ptr :: rest =>
          .ok (none, { s with buffer := s.buffer.setList c rest }.setTask i
            (.alloc (.taken ptr) size))
  | .taken ptr =>
    if s.buffer.ptrIsCopyOnAccess s.buffer.tailAddr ptr then do
      let b ← s.buffer.freeListToTombstone ptr
      .ok (none, { s with buffer := b }.setTask i (.alloc .remove size))
    else if (s.buffer.getMetaFromDataPtr ptr).size < size then .error (.panicked .assertion)
    else if (s.buffer.getMetaFromDataPtr ptr).state = .freeListed ∧ env.spurious = false then
      .ok (some (.allocated size ptr),
        { s with buffer := s.buffer.setState ptr .notReady, lock := none }.setTask i (.guard ptr))
    else .ok (some (.weakFailure ptr), s.setTask i (.alloc .remove size))
  | .tail => do
      match ← s.buffer.allocTail size with
      | .full => .ok (some .full, { s with lock := none }.setTask i .idle)
      | .padded b => .ok (none, { s with buffer := b, lock := none }.setTask i (.alloc .lock size))
      | .done ptr b =>
        .ok (some (.allocated size ptr),
          { s with buffer := b, lock := none }.setTask i (.guard ptr))

/-- `dealloc_inner` of `dealloc`. -/
def deallocStep (s : RingSys W) (i : W) (env : StepEnv) (ptr : Nat) : DeallocPhase → Except Halt (Result W)
  | .start =>
    let size := (s.buffer.getMetaFromDataPtr ptr).size
    if s.buffer.ptrIsCopyOnAccess env.fuzzyTail ptr then
      .ok (none, s.setTask i (.dealloc .tombstone ptr))
    else if size < s.buffer.sizeClasses.getLastD 0 then
      .ok (none, s.setTask i (.dealloc .tombstone ptr))
    else
      match s.buffer.sizeClassSmallerThan size with
      | none => .error (.panicked .sizeTooSmall)
      | some c =>
        if env.contended ∨ (s.listLocks c).isSome then
          .ok (none, s.setTask i (.dealloc .tombstone ptr))
        else
          let b := s.buffer.setList c (ptr :: s.buffer.listHeads c)
          .ok (none, ({ s with buffer := b }.setListLock c (some i)).setTask i
            (.dealloc (.linked c) ptr))
  | .tombstone => do
      let b ← s.buffer.toTombstone ptr
      .ok (none, { s with buffer := b }.setTask i .idle)
  | .linked c => do
      let b ← s.buffer.toFreelist ptr
      .ok (none, ({ s with buffer := b }.setListLock c none).setTask i .idle)

/-- The loop of `evict_one` and the bump of the head after it. -/
def evictStep (s : RingSys W) (i : W) (env : StepEnv) (start stop : Nat) : EvictPhase → Except Halt (Result W)
  | .acquire =>
    if (s.buffer.getMeta start).state = .ready then
      .ok (none, { s with buffer := s.buffer.setState (s.buffer.dataPtr start) .beginTombstone
        }.setTask i (.evict .callback start stop))
    else .ok (none, s.setTask i (.evict .load start stop))
  | .load =>
    match (s.buffer.getMeta start).state with
    | .tombstone => .ok (none, s.setTask i (.evict .tombstoned start stop))
    | .freeListed => .ok (none, s.setTask i (.evict .find start stop))
    | _ => .ok (none, s.setTask i (.evict .acquire start stop))
  | .callback =>
    if env.callbackOk then .ok (none, s.setTask i (.evict .dealloc start stop))
    else do
      let b ← s.buffer.revertToReady (s.buffer.dataPtr start)
      .ok (none, { s with buffer := b }.setTask i (.evict .acquire start stop))
  | .dealloc => do
      let b ← s.buffer.toTombstone (s.buffer.dataPtr start)
      .ok (none, { s with buffer := b }.setTask i (.evict .tombstoned start stop))
  | .find =>
    match s.buffer.sizeClassSmallerThan (s.buffer.getMeta start).size with
    | none => .error (.panicked .sizeTooSmall)
    | some c =>
      if (s.listLocks c).isSome then .error .blocked
      else if s.buffer.dataPtr start ∈ s.buffer.listHeads c then
        let b := s.buffer.setList c ((s.buffer.listHeads c).erase (s.buffer.dataPtr start))
        .ok (none, { s with buffer := b }.setTask i (.evict .unlinked start stop))
      else .ok (none, s.setTask i (.evict .acquire start stop))
  | .unlinked => do
      let b ← s.buffer.freeListToTombstone (s.buffer.dataPtr start)
      .ok (none, { s with buffer := b }.setTask i (.evict .tombstoned start stop))
  | .tombstoned => do
      let b ← s.buffer.tombstoneToEvicted (s.buffer.dataPtr start)
      .ok (none, { s with buffer := b }.setTask i (.evict .finish start stop))
  | .finish =>
    if s.lock.isSome then .error .blocked
    else .ok (none, { s with lock := some i }.setTask i (.evict .bump start stop))
  | .bump =>
    -- one turn of the loop; the lock keeps the addresses fixed otherwise
    let head := s.buffer.headAddr
    if head < s.buffer.evictingAddr ∧ (s.buffer.getMeta head).state = .evicted then
      .ok (none, { s with buffer :=
        { s.buffer with headAddr := head + s.buffer.blockLen head } })
    else .ok (some (.evicted (stop - start)), { s with lock := none }.setTask i .idle)

/-- One atomic step. -/
def step (s : RingSys W) : RingAction W → Except Halt (Result W)
  | .alloc i size =>
    if s.tasks i ≠ .idle then .error .blocked
    else if size = 0 then .ok (some .emptyAlloc, s)
    else if size < s.buffer.sizeClasses.getLastD 0 then .error (.panicked .assertion)
    else .ok (none, s.setTask i (.alloc .lock size))
  | .drop i =>
    match s.tasks i with
    | .guard ptr => do
        let b ← s.buffer.toReady ptr
        .ok (none, { s with buffer := b }.setTask i .idle)
    | .handle ptr => do
        let b ← s.buffer.revertToReady ptr
        .ok (none, { s with buffer := b }.setTask i .idle)
    | _ => .error .blocked
  | .acquire i ptr =>
    if s.tasks i ≠ .idle then .error .blocked
    else if (s.buffer.getMetaFromDataPtr ptr).state = .ready then
      .ok (none, { s with buffer := s.buffer.setState ptr .beginTombstone }.setTask i
        (.handle ptr))
    else .ok (some .wouldBlock, s)
  | .dealloc i =>
    match s.tasks i with
    | .handle ptr => .ok (none, s.setTask i (.dealloc .start ptr))
    | _ => .error .blocked
  | .evict i =>
    -- the reservation, under the lock
    if s.tasks i ≠ .idle ∨ s.lock.isSome then .error .blocked
    else
      let start := s.buffer.evictingAddr
      if start = s.buffer.tailAddr then .ok (some .nothingToEvict, s)
      else
        let stop := start + s.buffer.blockLen start
        .ok (none, { s with buffer := { s.buffer with evictingAddr := stop } }.setTask i
          (.evict .acquire start stop))
  | .step i env =>
    match s.tasks i with
    | .alloc phase size => s.allocStep i env size phase
    | .dealloc phase ptr => s.deallocStep i env ptr phase
    | .evict phase start stop => s.evictStep i env start stop phase
    | _ => .error .blocked

/-- What callers keep to: allocations have the size of a class, and a handle is asked for
a block that the buffer has allocated and not passed yet. -/
def Allowed (s : RingSys W) : RingAction W → Prop
  | .alloc _ size => size ∈ s.buffer.sizeClasses
  | .acquire _ ptr => ∃ a ∈ s.buffer.iter, ptr = s.buffer.dataPtr a
  | _ => True

/-- A run and its events. -/
inductive Run (s₀ : RingSys W) : List RingEvent → RingSys W → Prop
  | refl : Run s₀ [] s₀
  | step {events : List RingEvent} {s s' : RingSys W} {a : RingAction W}
      {event : Option RingEvent} (h : Run s₀ events s) (ha : s.Allowed a)
      (hs : s.step a = .ok (event, s')) : Run s₀ (events ++ event.toList) s'

end RingSys

end BfTree
