import BfTree.MiniPageOp

/-!
# Leaf transactions of the tree

What the tree does to one leaf once a descent has found and locked it: the writes and
reads of clients with the promotions they may trigger, evictions, and the split of a
root that is still a leaf.
-/

namespace BfTree

open Lib

/-- The outcomes of locks, allocations, slot reservations and dice in one attempt of a
tree operation. -/
structure AttemptEnv where
  /-- The locks and version checks on the way down. -/
  descent : Bool
  /-- `get_snapshot_guard` of a split on the way down. -/
  splitGuard : Option SnapshotGuard
  splitCurUpgrade : Bool
  splitParentUpgrade : Bool
  /-- `alloc_mini_page` of a root split, which must not fail. -/
  splitAlloc : Bool
  leaf : Env
  /-- `cache_page_about_to_evict` -/
  aboutToEvict : Bool
  /-- The outcomes within `move_cache_page_to_tail`. -/
  move : Env
  /-- `try_upgrade` of a read lock. -/
  leafUpgrade : Bool
  /-- `should_promote_read` or `should_promote_scan_page` -/
  promote : Bool

/-- `get_snapshot_guard`; the caller starts over if there is no guard. -/
def takeGuard {σ : Type} (guard : Option SnapshotGuard) : Prog σ TreeError SnapshotGuard :=
  match guard with
  | none => Prog.fail .needRestart
  | some g => pure g

namespace LeafEntry

/-- A page near the head of the circular buffer is moved to its tail, if possible. -/
def refresh (cfg : Config) (env : AttemptEnv) : M Unit := do
  let t ← Prog.get
  match t.loc with
  | .mini _ | .full _ =>
    if env.aboutToEvict then Prog.ignore (moveCachePageToTail cfg env.move) else pure ()
  | .base _ => pure ()
  | .null => Prog.crash

/-- [Cache-only mode] Write to a leaf whose page was evicted. -/
def writeNull (cfg : Config) (sizeClasses : List Nat) (env : AttemptEnv) (key : Key)
    (value : Value) (op : OpType) : M Unit := do
  if !cfg.cacheOnly then Prog.crash
  else if op = .delete then pure ()
  else do
    let size ← Prog.unwrap
      (LeafNode.getChainSizeHint key.length value.length sizeClasses cfg.cacheOnly)
    let g ← takeGuard env.leaf.snapshotGuard
    attempt env.leaf.allocMiniPage
    let (success, mini) ← Prog.unwrap
      ((LeafNode.initializeMiniPage size none true g.version).insert key value op 0)
    Prog.assert success
    setLoc (.mini mini)

/-- The part of `write_inner` below the descent. -/
def write (cfg : Config) (sizeClasses : List Nat) (env : AttemptEnv) (key : Key) (value : Value)
    (op : OpType) : M Unit := do
  let t ← Prog.get
  match t.loc with
  | .null => writeNull cfg sizeClasses env key value op
  | _ => do
    insert cfg sizeClasses env.leaf key value op
    refresh cfg env

/-- `BfTree::upgrade_to_full_page` -/
def upgradeLeaf (cfg : Config) (env : Env) : M Unit := do
  let t ← Prog.get
  match t.loc with
  | .mini page =>
    attempt env.beginDealloc
    let _ ← tryMergeMiniPage cfg env page
    changeToBaseLoc
    let base ← loadBasePageFromBuffer
    let loc ← upgradeToFullPage cfg env base page.nextLevel
    setLoc loc
  | .full _ => pure ()
  | .base offset =>
    let base ← loadBasePage offset
    let loc ← upgradeToFullPage cfg env base (some offset)
    setLoc loc
  | .null => Prog.crash

/-- Cache what was read from the base page: the record in a mini page, or the page. -/
def promoteRead (cfg : Config) (sizeClasses : List Nat) (env : AttemptEnv) (key : Key)
    (value : Value) : M Unit :=
  let promotion :=
    if cfg.readRecordCache then insert cfg sizeClasses env.leaf key value .cache
    else upgradeLeaf cfg env.leaf
  -- under contention the read just returns
  Prog.handle promotion fun e => if e = .locked then pure () else Prog.fail e

/-- The part of `read_inner` below the descent. -/
def readRecord (cfg : Config) (sizeClasses : List Nat) (env : AttemptEnv) (key : Key)
    (outBuffer : List UInt8) : M (LeafNode.LeafReadResult × List UInt8) := do
  let (r, outBuffer) ← read cfg key outBuffer
  match r with
  | .mini r | .full r => do
    if env.leafUpgrade then refresh cfg env
    pure (r, outBuffer)
  | .base r =>
    if cfg.cacheOnly then Prog.crash
    else
      let t ← Prog.get
      match r with
      | .found n => do
        if t.parent.isSome && env.promote && env.leafUpgrade then
          promoteRead cfg sizeClasses env key (outBuffer.take n)
        pure (r, outBuffer)
      | _ => pure (r, outBuffer)
  | .none => pure (.notFound, outBuffer)

/-- The part of `eviction_callback` below the descent, once it has found the page. -/
def evict (cfg : Config) (env : Env) : M Unit := do
  let t ← Prog.get
  match t.loc with
  | .mini page =>
    Prog.assert t.parent.isSome
    attempt env.parentCheckVersion
    if cfg.cacheOnly then setLoc .null
    else do
      let _ ← tryMergeMiniPage cfg env page
      changeToBaseLoc
  | .full page => mergeFullPage cfg page
  | .base _ | .null => Prog.fail .needRestart

def getSplitFlag : M Bool := do
  let t ← Prog.get
  match t.loc with
  | .base offset => do
    let base ← loadBasePage offset
    pure base.splitFlag
  | .full page | .mini page => pure page.splitFlag
  | .null => pure false

/-- Split a root that is a leaf; returns the splitting key. -/
def splitRootLeaf (cfg : Config) (env : AttemptEnv) (g : SnapshotGuard) : M Key := do
  let t ← Prog.get
  if cfg.cacheOnly then
    match t.loc with
    | .mini page => do
      let page ← versionRuleMini cfg g page
      Prog.assert env.splitAlloc
      let (key, left, sibling) ← Prog.unwrap (page.split cfg.leafPageSize true g.version)
      Prog.modify fun t => { t with loc := .mini left, sibling := some (.mini sibling) }
      pure key
    | _ => Prog.crash
  else do
    versionRuleBase g
    let base ← loadBasePageMut
    let (key, left, sibling) ← Prog.unwrap (base.split cfg.leafPageSize false g.version)
    writeBase left
    Prog.modify fun t => { t with
      vfs := Function.update t.vfs t.nextOffset (some sibling)
      sibling := some (.base t.nextOffset) }
    pure key

end LeafEntry

end BfTree
