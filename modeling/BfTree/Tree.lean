import BfTree.LeafTx

/-!
# The tree

Inner nodes are addressed by their position in the heap of inner nodes, leaves by
their position in the page table. An operation is a sequence of attempts; an attempt
descends to a leaf, splits nodes that were marked on its way, and runs one transaction
on the leaf. The outcomes of locks, allocations and dice are given from outside.
-/

namespace BfTree

open Lib

structure Tree where
  config : Config
  sizeClasses : List Nat
  root : PageID
  inners : List InnerNode
  pages : List PageLocation
  vfs : Nat → Option LeafNode
  nextOffset : Nat
  captures : List (Nat × Capture)
  inserted : List (InnerNode × Key)

namespace Tree

abbrev M := Prog Tree TreeError

/-- `BfTree::with_config`; `version` is the one of the initial snapshot guard. -/
def withConfig (config : Config) (version : Nat) : Option (Except ConfigError Tree) := do
  match ← config.validate with
  | .error e => some (.error e)
  | .ok () =>
    let sizeClasses ← config.createMemPageSizeClasses
    some (.ok {
      config := config
      sizeClasses := sizeClasses
      root := .id 0
      inners := []
      pages := [if config.cacheOnly then
          .mini (LeafNode.initializeMiniPage config.leafPageSize none true version)
        else .base 0]
      vfs := fun offset =>
        if !config.cacheOnly && offset = 0 then
          some (LeafNode.makeBasePage config.leafPageSize version)
        else none
      nextOffset := config.leafPageSize
      captures := []
      inserted := [] })

/-! ## Locked leaves -/

/-- Lock a leaf. -/
def lockLeaf (t : Tree) (pid : Nat) (loc : PageLocation) (parent : Option Parent) : LeafEntry where
  pid := pid
  loc := loc
  tmpBuffer := none
  vfs := t.vfs
  parent := parent
  nextPid := t.pages.length
  nextOffset := t.nextOffset
  sibling := none
  captures := t.captures
  inserted := t.inserted

/-- The inner nodes once the parent of a leaf is written back. -/
def setParent (t : Tree) : Option Parent → List InnerNode
  | some p => t.inners.set p.ptr p.node
  | none => t.inners

/-- Unlock a leaf whose buffer is written. -/
def unlockLeaf (t : Tree) (l : LeafEntry) : Tree :=
  { t with
    inners := t.setParent l.parent
    pages := t.pages.set l.pid l.loc ++ l.sibling.toList
    vfs := l.vfs
    nextOffset := if l.sibling.isSome then t.nextOffset + t.config.leafPageSize else t.nextOffset
    captures := l.captures
    inserted := l.inserted }

/-- The node of a parent that the descent came through. -/
def parentOf (t : Tree) : Option Nat → Option (Option Parent)
  | none => some none
  | some ptr => (t.inners[ptr]?).map fun n => some ⟨ptr, n⟩

/-- Run a transaction on a locked leaf. -/
def withLeaf {α : Type} (pid : Nat) (parent : Option Nat) (m : LeafEntry.M α) : M α := fun t => do
  let loc ← t.pages[pid]?
  let parent ← t.parentOf parent
  let (r, l) ← m (t.lockLeaf pid loc parent)
  let l ← l.flush
  some (r, t.unlockLeaf l)

/-! ## Splits on the way down -/

def getInner (ptr : Nat) : M InnerNode := do
  let t ← Prog.get
  Prog.unwrap t.inners[ptr]?

def setInner (ptr : Nat) (n : InnerNode) : M Unit :=
  Prog.modify fun t => { t with inners := t.inners.set ptr n }

/-- Returns the address of the new node. -/
def allocInner (n : InnerNode) : M Nat := do
  let t ← Prog.get
  Prog.modify fun t => { t with inners := t.inners ++ [n] }
  pure t.inners.length

/-- Make a new inner node the root. -/
def installRoot (n : InnerNode) : M Unit := do
  let ptr ← allocInner { n with isRoot := true }
  Prog.modify fun t => { t with root := .inner ptr }

def record (slot : Nat) (c : Capture) : M Unit :=
  Prog.modify fun t => { t with captures := t.captures ++ [(slot, c)] }

/-- Record an inner node. The root is noted too, and has to be the current one. -/
def recordInner (slot ptr : Nat) (n : InnerNode) (isRoot : Bool) : M Unit := do
  record slot (.innerNode ptr n)
  if isRoot then do
    let t ← Prog.get
    Prog.assert n.isRoot
    Prog.assert (t.root = .inner ptr)
    Prog.assert (t.captures.all fun c =>
      match c.2 with
      | .rootPage q => q = .id 0 ∨ q = .inner ptr
      | _ => true)
    record slot (.rootPage (.inner ptr))

/-- Lift an older inner node; `save` first records it. -/
def liftInner (g : SnapshotGuard) (ptr : Nat) (isRoot : Bool) (save : Option Nat) : M Unit := do
  let n ← getInner ptr
  if n.snapshotVersion < g.version then do
    if let some slot := save then recordInner slot ptr n isRoot
    setInner ptr { n with snapshotVersion := g.version }

/-- The version rules for the inner nodes of a split, parent first. Each comes with
the question whether it is to be noted as the root. -/
def versionRuleInner (g : SnapshotGuard) (nodes : List (Nat × Bool)) : M Unit := do
  let t ← Prog.get
  match g.slot with
  | none => pure ()
  | some slot =>
    match g.phase with
    | .rest => nodes.forM fun x => liftInner g x.1 x.2 none
    | .prepare =>
      if nodes.any fun x => t.inners[x.1]?.any fun n => g.version < n.snapshotVersion then
        Prog.fail .needRestart
      else pure ()
    | .inProgress | .sweep => nodes.forM fun x => liftInner g x.1 x.2 (some slot)

/-- Split the root leaf and put the first inner node above it. -/
def splitLeaf (env : AttemptEnv) (g : SnapshotGuard) (pid : Nat) : M Unit := do
  let t ← Prog.get
  let key ← withLeaf pid none (LeafEntry.splitRootLeaf t.config env g)
  let root ← Prog.unwrap (InnerNode.build (.id pid) true [(key, .id t.pages.length)] g.version)
  installRoot root

/-- `try_split_leaf`; only the root leaf is ever split here. -/
def trySplitLeaf (env : AttemptEnv) (pid : Nat) (parent : Option Nat) : M Bool := do
  let flag ← withLeaf pid parent LeafEntry.getSplitFlag
  if !flag then pure false
  else do
    let g ← takeGuard env.splitGuard
    Prog.assert parent.isNone
    splitLeaf env g pid
    pure true

/-- `x_parent.insert` of an inner split; the parent is marked if it has no room. -/
def insertSeparator (parent : Nat) (key : Key) (child : PageID) : M Unit := do
  let n ← getInner parent
  if (n.insert key child).1 then
    Prog.modify fun t => { t with
      inners := t.inners.set parent (n.insert key child).2
      inserted := t.inserted ++ [(n, key)] }
  else do
    setInner parent { n with splitFlag := true }
    Prog.fail .needRestart

/-- Split an inner node below its parent. -/
def splitBelow (env : AttemptEnv) (g : SnapshotGuard) (ptr parent : Nat) : M Unit := do
  attempt (checkLock env.splitCurUpgrade)
  attempt (checkLock env.splitParentUpgrade)
  let p ← getInner parent
  versionRuleInner g [(parent, p.isRoot), (ptr, false)]
  let n ← getInner ptr
  let splitKey ← Prog.unwrap n.getSplitKey
  let t ← Prog.get
  insertSeparator parent splitKey (.inner t.inners.length)
  let (_, left, leftMost, rest) ← Prog.unwrap (n.split g.version)
  setInner ptr left
  let sibling ← Prog.unwrap (InnerNode.build leftMost n.childrenIsLeaf rest g.version)
  let _ ← allocInner sibling

/-- Split the root and put a new root above it. -/
def splitRoot (env : AttemptEnv) (g : SnapshotGuard) (ptr : Nat) : M Unit := do
  attempt (checkLock env.splitCurUpgrade)
  versionRuleInner g [(ptr, true)]
  let n ← getInner ptr
  let (key, left, leftMost, rest) ← Prog.unwrap (n.split g.version)
  setInner ptr { left with isRoot := false }
  let sibling ← Prog.unwrap (InnerNode.build leftMost n.childrenIsLeaf rest g.version)
  let siblingPtr ← allocInner sibling
  let root ← Prog.unwrap
    (InnerNode.build (.inner ptr) false [(key, .inner siblingPtr)] g.version)
  installRoot root

def splitInner (env : AttemptEnv) (g : SnapshotGuard) (ptr : Nat) (parent : Option Nat) : M Unit :=
  match parent with
  | some p => splitBelow env g ptr p
  | none => splitRoot env g ptr

/-- `try_split_inner` -/
def trySplitInner (env : AttemptEnv) (ptr : Nat) (parent : Option Nat) : M Bool := do
  let n ← getInner ptr
  if !n.splitFlag then pure false
  else do
    let g ← takeGuard env.splitGuard
    splitInner env g ptr parent
    pure true

/-! ## Descent -/

def trySplit (env : AttemptEnv) (cur : PageID) (isLeaf : Bool) (parent : Option Nat) : M Bool :=
  match cur, isLeaf with
  | .id pid, true => trySplitLeaf env pid parent
  | .inner ptr, false => trySplitInner env ptr parent
  | .inner _, true => pure false
  | .id _, false => Prog.crash

/-- A marked node is split and the attempt ends. -/
def splitMarked (env : AttemptEnv) (aggressiveSplit : Bool) (cur : PageID) (isLeaf : Bool)
    (parent : Option Nat) : M Unit :=
  if aggressiveSplit then do
    let split ← trySplit env cur isLeaf parent
    if split then Prog.fail .needRestart else pure ()
  else pure ()

/-- Where a descent ends: the leaf, its parent and the separator right of it, if the
leaf has one on its path. -/
structure Landing where
  pid : Nat
  parent : Option Nat
  highFence : Key
deriving DecidableEq

def traverseFrom (env : AttemptEnv) (key : Key) (aggressiveSplit : Bool) :
    (fuel : Nat) → (cur : PageID) → (isLeaf : Bool) → (parent : Option Nat) →
      (highFence : Key) → M Landing
  | 0, _, _, _, _ => Prog.crash
  | fuel + 1, cur, isLeaf, parent, highFence => do
      splitMarked env aggressiveSplit cur isLeaf parent
      match cur, isLeaf with
      | .id pid, true => pure ⟨pid, parent, highFence⟩
      | .inner ptr, false => do
        let n ← getInner ptr
        let next ← Prog.unwrap (n.getValue (n.lowerBound key))
        let highFence := match n.records[n.lowerBound key]? with
          | some r => r.1
          | none => highFence
        traverseFrom env key aggressiveSplit fuel next n.childrenIsLeaf (some ptr) highFence
      | _, _ => Prog.crash

/-- A path has at most one node more than there are inner nodes. -/
def traverseToLeaf (env : AttemptEnv) (key : Key) (aggressiveSplit : Bool) : M Landing := do
  attempt (checkLock env.descent)
  let t ← Prog.get
  traverseFrom env key aggressiveSplit (t.inners.length + 1) t.root t.root.isLeaf none []

/-! ## Attempts -/

def writeInner (env : AttemptEnv) (key : Key) (value : Value) (op : OpType)
    (aggressiveSplit : Bool) : M Unit := do
  let landing ← traverseToLeaf env key aggressiveSplit
  let t ← Prog.get
  withLeaf landing.pid landing.parent
    (LeafEntry.write t.config t.sizeClasses env key value op)

def readInner (env : AttemptEnv) (key : Key) (outBuffer : List UInt8) (aggressiveSplit : Bool) :
    M (LeafNode.LeafReadResult × List UInt8) := do
  let landing ← traverseToLeaf env key aggressiveSplit
  let t ← Prog.get
  withLeaf landing.pid landing.parent
    (LeafEntry.readRecord t.config t.sizeClasses env key outBuffer)

/-- Which cached page the circular buffer evicts next. A page without records yields
whatever bytes stand in its place as the key to reach it. -/
structure Eviction where
  pid : Nat
  stale : Key
  env : AttemptEnv

/-- `get_key_to_reach_this_node`, or the careful version of cache-only mode. -/
def evictionKey (e : Eviction) : M Key := do
  let t ← Prog.get
  match t.pages[e.pid]? with
  | some (.mini page) | some (.full page) =>
    match page.getKeyToReachThisNode with
    | some key => pure key
    | none => if t.config.cacheOnly then Prog.fail .needRestart else pure e.stale
  | _ => Prog.fail .needRestart

def evictionCallback (e : Eviction) : M Unit := do
  let key ← evictionKey e
  let landing ← traverseToLeaf e.env key true
  if landing.pid = e.pid then do
    let t ← Prog.get
    withLeaf landing.pid landing.parent (LeafEntry.evict t.config e.env.leaf)
  else Prog.fail .needRestart

/-- `evict_from_circular_buffer`: an error ends the round, callers ignore it. -/
def evictFromCircularBuffer : List Eviction → M Unit
  | [] => pure ()
  | e :: es => do
      evictionCallback e
      evictFromCircularBuffer es

/-! ## Operations -/

/-- One round of a retry loop: the outcomes of an attempt, and the evictions that
follow if the circular buffer was full. -/
structure Round where
  env : AttemptEnv
  evictions : List Eviction

/-- `loop { match attempt { .. } }`. The rounds are those that happen; an operation
that needs more of them does not return. `lockedSplits` says whether a locked node
also makes the next descent split marked nodes. -/
def retry {α : Type} (attempt : AttemptEnv → Bool → M α) (lockedSplits : Bool) :
    List Round → (aggressiveSplit : Bool) → M α
  | [], _ => Prog.crash
  | r :: rs, aggressiveSplit =>
    Prog.handle (attempt r.env aggressiveSplit) fun e =>
      match e with
      | .needRestart => retry attempt lockedSplits rs true
      | .circularBufferFull => do
        Prog.ignore (evictFromCircularBuffer r.evictions)
        retry attempt lockedSplits rs true
      | .locked => retry attempt lockedSplits rs (aggressiveSplit || lockedSplits)

/-- The key lengths that all operations accept. -/
def validKey (cfg : Config) (key : Key) : Bool :=
  !(cfg.maxFenceLen / 2 < key.length || maxKeyLen < key.length) && key ≠ []

/-- The records that insert accepts. -/
def validRecord (cfg : Config) (key : Key) (value : Value) : Bool :=
  validKey cfg key &&
    !(maxValueLen < value.length || cfg.cbMaxRecordSize < key.length + value.length) &&
    !(key.length + value.length < cfg.cbMinRecordSize)

inductive LeafInsertResult where
  | success
  | invalidKV
deriving DecidableEq

def insert (rounds : List Round) (key : Key) (value : Value) : M LeafInsertResult := do
  let t ← Prog.get
  if validRecord t.config key value then do
    retry (fun env aggressive => writeInner env key value .insert aggressive) false rounds false
    pure .success
  else pure .invalidKV

/-- Invalid keys are ignored. -/
def delete (rounds : List Round) (key : Key) : M Unit := do
  let t ← Prog.get
  if validKey t.config key then
    retry (fun env aggressive => writeInner env key [] .delete aggressive) true rounds false
  else pure ()

/-- What a read returns; `invalidKey` is answered before the tree is touched. -/
inductive TreeReadResult where
  | leaf (r : LeafNode.LeafReadResult)
  | invalidKey
deriving DecidableEq

def read (rounds : List Round) (key : Key) (outBuffer : List UInt8) :
    M (TreeReadResult × List UInt8) := do
  let t ← Prog.get
  if validKey t.config key then do
    let (r, out) ← retry (fun env aggressive => readInner env key outBuffer aggressive) true
      rounds false
    pure (.leaf r, out)
  else pure (.invalidKey, outBuffer)

end Tree

end BfTree
