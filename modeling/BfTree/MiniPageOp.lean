import BfTree.Storage

/-!
# Operations on a locked leaf

Inserts, merges, promotions and moves of `LeafEntryXLocked`, as programs over one
locked page-table entry. Each of them may panic, and may fail after it has already
changed the leaf.
-/

namespace BfTree.LeafEntry

open Lib

/-! ## Version rules

A transaction holds a guard with the phase and version of its thread. At rest it
lifts older pages to its version, in prepare it backs off from newer pages, and in
progress or sweep it records older pages before it lifts them. -/

/-- The version rules for one page. `same` is the page if nothing is to be done,
`lift` sets the version, `save` records the page and sets the version. -/
def versionRule {α : Type} (g : SnapshotGuard) (pageVersion : Nat) (same : α) (lift : M α)
    (save : Nat → M α) : M α :=
  match g.slot with
  | none => pure same
  | some slot =>
    match g.phase with
    | .rest => if pageVersion < g.version then lift else pure same
    | .prepare => if g.version < pageVersion then Prog.fail .needRestart else pure same
    | .inProgress | .sweep => if pageVersion < g.version then save slot else pure same

def versionRuleBase (g : SnapshotGuard) : M Unit := do
  if g.isProtected then
    let page ← loadBasePageMut
    let t ← Prog.get
    versionRule g page.snapshotVersion ()
      (writeBase (page.setSnapshotVersion g.version false))
      (fun slot => do
        record slot (.basePage t.pid page)
        writeBase (page.setSnapshotVersion g.version false)
        if t.parent.isNone then recordRoot slot (.id t.pid))

/-- A full page is recorded as a base page, without its next level. -/
def versionRuleFull (g : SnapshotGuard) (page : LeafNode) : M LeafNode := do
  let t ← Prog.get
  let lifted := page.setSnapshotVersion g.version true
  versionRule g page.snapshotVersion page
    (do setLoc (.full lifted); pure lifted)
    (fun slot => do
      record slot (.basePage t.pid { page with nextLevel := none })
      setLoc (.full lifted)
      pure lifted)

/-- A mini page is recorded together with the base page behind it. -/
def versionRuleMini (cfg : Config) (g : SnapshotGuard) (page : LeafNode) : M LeafNode := do
  let t ← Prog.get
  let lifted := page.setSnapshotVersion g.version (!cfg.cacheOnly)
  versionRule g page.snapshotVersion page
    (do setLoc (.mini lifted); pure lifted)
    (fun slot => do
      record slot (.miniPage t.pid page)
      setLoc (.mini lifted)
      if !cfg.cacheOnly then
        let offset ← Prog.unwrap page.nextLevel
        let base ← loadBasePage offset
        Prog.assert (base.snapshotVersion < g.version)
        record slot (.basePage t.pid base)
      if cfg.cacheOnly && t.parent.isNone then recordRoot slot (.id t.pid)
      pure lifted)

/-- Record an inner node, and note it if it is the root. -/
def recordInner (slot : Nat) (p : Parent) : M Unit := do
  record slot (.innerNode p.ptr p.node)
  if p.node.isRoot then recordRoot slot (.inner p.ptr)

def versionRuleParent (g : SnapshotGuard) (p : Parent) : M Parent := do
  let lifted := { p with node := { p.node with snapshotVersion := g.version } }
  versionRule g p.node.snapshotVersion p
    (do setParent lifted; pure lifted)
    (fun slot => do
      recordInner slot p
      setParent lifted
      pure lifted)

/-! ## Full pages -/

def upgradeToFullPage (cfg : Config) (env : Env) (base : LeafNode) (offset : Option Nat) :
    M PageLocation := do
  attempt env.allocMiniPage
  Prog.assert (base.nodeSize = cfg.leafPageSize)
  let full ← Prog.unwrap base.covertInsertRecordsToCache
  pure (.full { full with nextLevel := offset })

/-- Flush a full page into its base page. -/
def mergeFullPage (cfg : Config) (page : LeafNode) : M Unit := do
  Prog.assert (page.nodeSize = cfg.leafPageSize)
  if !page.needActuallyMergeToDisk && !page.versionChanged then changeToBaseLoc
  else
    let page := page.convertCacheRecordsToInsert.clearSnapshotVersionChangedFlag
    changeToBaseLoc
    let t ← Prog.get
    Prog.assert (t.tmpBuffer.all fun b => b.isDirty)
    writeBase { page with nextLevel := none }

def mergeFullPageAndDealloc (cfg : Config) (env : Env) (page : LeafNode) : M Unit := do
  attempt env.beginDealloc
  mergeFullPage cfg page

/-! ## Merging a mini page -/

inductive MergeResult where
  | noSplit
  | mergeAndSplit
deriving DecidableEq

/-- Lift an older parent; `save` first records it in the thread's slot. -/
def liftParent (g : SnapshotGuard) (p : Parent) (save : Option Nat) : M Parent :=
  if p.node.snapshotVersion < g.version then do
    if let some slot := save then recordInner slot p
    let lifted := { p with node := { p.node with snapshotVersion := g.version } }
    setParent lifted
    pure lifted
  else pure p

/-- Lift an older mini page; `save` first records it and the base page, which is then
lifted too. -/
def liftMini (g : SnapshotGuard) (mini base : LeafNode) (save : Option Nat) :
    M (LeafNode × LeafNode) := do
  let t ← Prog.get
  if mini.snapshotVersion < g.version then
    let lifted := mini.setSnapshotVersion g.version true
    match save with
    | none =>
      setLoc (.mini lifted)
      pure (lifted, base)
    | some slot =>
      record slot (.miniPage t.pid mini)
      setLoc (.mini lifted)
      record slot (.basePage t.pid base)
      let base := base.setSnapshotVersion g.version false
      writeBase base
      pure (lifted, base)
  else pure (mini, base)

/-- The version rules for the three pages a splitting merge changes. -/
def versionRuleMerge (g : SnapshotGuard) (p : Parent) (mini base : LeafNode) :
    M (Parent × LeafNode × LeafNode) :=
  match g.slot with
  | none => pure (p, mini, base)
  | some slot =>
    match g.phase with
    | .rest => do
      let p ← liftParent g p none
      let pages ← liftMini g mini base none
      pure (p, pages)
    | .prepare =>
      if g.version < p.node.snapshotVersion ∨ g.version < mini.snapshotVersion then
        Prog.fail .needRestart
      else pure (p, mini, base)
    | .inProgress | .sweep => do
      let p ← liftParent g p (some slot)
      let pages ← liftMini g mini base (some slot)
      pure (p, pages)

/-- The dirty records go to the half their key belongs to; each must fit. -/
def distribute (maxFenceLen : Nat) (splitKey : Key) :
    List (Key × Value × OpType) → LeafNode × LeafNode → Option (LeafNode × LeafNode)
  | [], pages => some pages
  | (key, value, op) :: pairs, (left, sibling) =>
    if splitKey ≤ key then
      match sibling.insert key value op maxFenceLen with
      | some (true, sibling') => distribute maxFenceLen splitKey pairs (left, sibling')
      | _ => none
    else
      match left.insert key value op maxFenceLen with
      | some (true, left') => distribute maxFenceLen splitKey pairs (left', sibling)
      | _ => none

/-- The base page has no room: split it and spread the mini page over both halves. -/
def mergeAndSplit (cfg : Config) (env : Env) (mini base : LeafNode) : M MergeResult := do
  let g ← match env.mergeGuard with
    | none => Prog.fail .needRestart
    | some g => pure g
  attempt env.parentUpgrade
  let t ← Prog.get
  let p ← Prog.unwrap t.parent
  let (splitKey, base) ← Prog.unwrap (base.getMergeSplitKey mini)
  writeBase base
  let (p, mini, base) ← versionRuleMerge g p mini base
  if p.node.haveSpaceFor splitKey then
    let pages ← Prog.unwrap (base.splitWithKey cfg.leafPageSize splitKey false g.version)
    insertParent p splitKey (.id t.nextPid)
    let (left, sibling) ← Prog.unwrap
      (distribute cfg.maxFenceLen splitKey mini.dirtyPairs pages)
    writeBase left
    Prog.modify fun t => { t with
      vfs := Function.update t.vfs t.nextOffset (some sibling)
      sibling := some (.base t.nextOffset) }
    pure .mergeAndSplit
  else
    setParent { p with node := { p.node with splitFlag := true } }
    Prog.fail .needRestart

/-- A base page with a single record is consolidated before the merge, so that a
tombstone does not stand in the way of a split. -/
def consolidateSingle (base : LeafNode) : Option LeafNode :=
  if base.metas.length = 1 then
    (base.consolidateInner .insert none true false none base.snapshotVersion).map
      fun b => b.setSnapshotVersion base.snapshotVersion false
  else some base

/-- Merge the mini page into the base page. Clean mini pages are just dropped. -/
def tryMergeMiniPage (cfg : Config) (env : Env) (mini : LeafNode) : M MergeResult := do
  attempt env.parentCheckVersion
  if !mini.needActuallyMergeToDisk && !mini.versionChanged then pure .noSplit
  else
    let base ← loadBasePageMut
    let base ← Prog.unwrap (consolidateSingle base)
    let (merged, base) ← Prog.unwrap (base.mergeMiniPage mini cfg.maxFenceLen)
    writeBase base
    if merged then pure .noSplit
    else mergeAndSplit cfg env mini base

def mergeMiniPageAndDealloc (cfg : Config) (env : Env) (mini : LeafNode) : M Unit := do
  attempt env.beginDealloc
  let _ ← tryMergeMiniPage cfg env mini
  changeToBaseLoc

/-! ## Insert -/

/-- Insert at a leaf that is only on disk. The root leaf takes the record itself,
any other leaf gets a mini page. -/
def insertBase (cfg : Config) (sizeClasses : List Nat) (env : Env) (g : SnapshotGuard)
    (offset : Nat) (key : Key) (value : Value) (op : OpType) : M Unit := do
  versionRuleBase g
  let t ← Prog.get
  if t.parent.isNone then
    let base ← loadBasePageMut
    let (success, base) ← Prog.unwrap (base.insert key value op cfg.maxFenceLen)
    if success then writeBase base
    else
      writeBase base.setSplitFlag
      Prog.fail .needRestart
  else
    let size ← Prog.unwrap
      (LeafNode.getChainSizeHint key.length value.length sizeClasses cfg.cacheOnly)
    attempt env.allocMiniPage
    let mini := LeafNode.initializeMiniPage size (some offset) false g.version
    let (success, mini) ← Prog.unwrap (mini.insert key value op 0)
    Prog.assert success
    setLoc (.mini mini)

def insertFull (cfg : Config) (env : Env) (g : SnapshotGuard) (page : LeafNode) (key : Key)
    (value : Value) (op : OpType) : M Unit := do
  let page ← versionRuleFull g page
  let (success, page) ← Prog.unwrap (page.insert key value op cfg.maxFenceLen)
  setLoc (.full page)
  if success then pure ()
  else
    mergeFullPageAndDealloc cfg env page
    Prog.fail .needRestart

/-- Move to a larger mini page and insert there. -/
def growMini (env : Env) (g : SnapshotGuard) (page : LeafNode) (size : Nat) (key : Key)
    (value : Value) (op : OpType) : M Unit := do
  attempt env.beginDealloc
  attempt env.allocMiniPage
  let grown ← Prog.unwrap (page.copyInitializeTo size true g.version)
  -- a changed version must still reach the base page
  let grown := if page.versionChanged then { grown with versionChanged := true } else grown
  let (success, grown) ← Prog.unwrap (grown.insert key value op 0)
  Prog.assert success
  setLoc (.mini grown)

/-- [Cache-only mode] Split a mini page of maximal size and insert into the half
the key belongs to. -/
def splitMini (cfg : Config) (env : Env) (g : SnapshotGuard) (page : LeafNode) (key : Key)
    (value : Value) (op : OpType) : M Unit := do
  Prog.assert (page.nodeSize = cfg.leafPageSize)
  let page ← Prog.unwrap (page.consolidateSkipKey key g.version)
  let (success, page) ← Prog.unwrap (page.insert key value op 0)
  setLoc (.mini page)
  if success then pure ()
  else
    Prog.assert (page.metas ≠ [])
    let splitKey ← Prog.unwrap
      (page.getCacheOnlyInsertSplitKey key (u16 (key.length + value.length)))
    let t ← Prog.get
    let p ← Prog.unwrap t.parent
    attempt env.parentCheckVersion
    attempt env.parentUpgrade
    let p ← versionRuleParent g p
    if p.node.haveSpaceFor splitKey then
      attempt env.allocMiniPage
      let (left, sibling) ← Prog.unwrap
        (page.splitWithKey cfg.leafPageSize splitKey true g.version)
      insertParent p splitKey (.id t.nextPid)
      if splitKey ≤ key then
        let (success, sibling) ← Prog.unwrap (sibling.insert key value op 0)
        Prog.assert success
        Prog.modify fun t => { t with loc := .mini left, sibling := some (.mini sibling) }
      else
        let (success, left) ← Prog.unwrap (left.insert key value op 0)
        Prog.assert success
        Prog.modify fun t => { t with loc := .mini left, sibling := some (.mini sibling) }
    else
      setParent { p with node := { p.node with splitFlag := true } }
      Prog.fail .needRestart

/-- Cache the leaf whole, unless its base page is empty. -/
def promoteMerged (cfg : Config) (env : Env) (nextLevel : Option Nat) : M Unit := do
  let offset ← Prog.unwrap nextLevel
  let base ← loadBasePage offset
  if base.metas ≠ [] then
    let loc ← upgradeToFullPage cfg env base nextLevel
    setLoc loc

/-- A mini page of maximal size is merged; a hot leaf is then cached whole. The
insert itself has to be tried again. -/
def mergeAndPromote (cfg : Config) (env : Env) (page : LeafNode) : M Unit := do
  let t ← Prog.get
  Prog.assert t.parent.isSome
  mergeMiniPageAndDealloc cfg env page
  if cfg.writeLoadFullPage then promoteMerged cfg env page.nextLevel
  Prog.fail .needRestart

def insertIntoMini (cfg : Config) (sizeClasses : List Nat) (env : Env) (g : SnapshotGuard)
    (page : LeafNode) (key : Key) (value : Value) (op : OpType) : M Unit := do
  Prog.assert (!cfg.cacheOnly || page.nextLevel.isNone)
  let (success, page) ← Prog.unwrap (page.insert key value op 0)
  setLoc (.mini page)
  if success then pure ()
  else
    let newSize ← Prog.unwrap (page.newSizeIfUpgrade
      (key.length + value.length + kvMetaSize) sizeClasses cfg.cacheOnly)
    match newSize with
    | some size => growMini env g page size key value op
    | none =>
      if cfg.cacheOnly then splitMini cfg env g page key value op
      else mergeAndPromote cfg env page

/-- [Cache-only mode] The root leaf is a mini page and splits on the next descent. A
record that fits at once is inserted here and again by the common path. -/
def insertRootMini (cfg : Config) (sizeClasses : List Nat) (env : Env) (g : SnapshotGuard)
    (page : LeafNode) (key : Key) (value : Value) (op : OpType) : M Unit := do
  let (success, page) ← Prog.unwrap (page.insert key value op 0)
  setLoc (.mini page)
  if success then insertIntoMini cfg sizeClasses env g page key value op
  else
    let page ← Prog.unwrap
      (page.consolidateInner .insert none true cfg.cacheOnly none g.version)
    let (success, page) ← Prog.unwrap (page.insert key value op 0)
    if success then setLoc (.mini page)
    else
      setLoc (.mini page.setSplitFlag)
      Prog.fail .needRestart

def insertMini (cfg : Config) (sizeClasses : List Nat) (env : Env) (g : SnapshotGuard)
    (page : LeafNode) (key : Key) (value : Value) (op : OpType) : M Unit := do
  let page ← versionRuleMini cfg g page
  let t ← Prog.get
  if cfg.cacheOnly && t.parent.isNone then insertRootMini cfg sizeClasses env g page key value op
  else insertIntoMini cfg sizeClasses env g page key value op

/-- `LeafEntryXLocked::insert`. -/
def insert (cfg : Config) (sizeClasses : List Nat) (env : Env) (key : Key) (value : Value)
    (op : OpType) : M Unit := do
  match env.snapshotGuard with
  | none => Prog.fail .needRestart
  | some g =>
    let t ← Prog.get
    match t.loc with
    | .base offset =>
      if cfg.cacheOnly then Prog.crash
      else insertBase cfg sizeClasses env g offset key value op
    | .full page =>
      if cfg.cacheOnly then Prog.crash else insertFull cfg env g page key value op
    | .mini page => insertMini cfg sizeClasses env g page key value op
    | .null => Prog.crash

/-! ## Read -/

inductive ReadResult where
  | mini (r : LeafNode.LeafReadResult)
  | full (r : LeafNode.LeafReadResult)
  | base (r : LeafNode.LeafReadResult)
  | none
deriving DecidableEq

/-- Read from the base page; the reference mark stays in the buffer. -/
def readBase (offset : Nat) (key : Key) (outBuffer : List UInt8) :
    M (ReadResult × List UInt8) := do
  let base ← loadBasePage offset
  let (r, outBuffer, base) ← Prog.unwrap (base.readByKey key outBuffer)
  Prog.modify fun t => { t with tmpBuffer := t.tmpBuffer.map fun b => { b with page := base } }
  pure (.base r, outBuffer)

/-- `LeafOperations::read`. -/
def read (cfg : Config) (key : Key) (outBuffer : List UInt8) : M (ReadResult × List UInt8) := do
  let t ← Prog.get
  match t.loc with
  | .base offset => readBase offset key outBuffer
  | .full page =>
    let (r, outBuffer, page) ← Prog.unwrap (page.readByKey key outBuffer)
    setLoc (.full page)
    pure (.full r, outBuffer)
  | .mini page =>
    let (r, outBuffer, page) ← Prog.unwrap
      (page.readByKeyInner key outBuffer cfg.miniPageBinarySearch)
    setLoc (.mini page)
    match r with
    | .found _ | .deleted => pure (.mini r, outBuffer)
    | .notFound =>
      if cfg.cacheOnly then pure (.none, outBuffer)
      else
        let offset ← Prog.unwrap page.nextLevel
        readBase offset key outBuffer
  | .null => pure (.none, outBuffer)

/-! ## Moving to the tail of the circular buffer -/

def moveCachePageToTail (cfg : Config) (env : Env) : M Unit := do
  let t ← Prog.get
  match t.loc with
  | .mini page =>
    attempt env.beginDealloc
    attempt env.allocMiniPage
    let moved ← Prog.unwrap (page.copyInitializeTo page.nodeSize true page.snapshotVersion)
    let moved := moved.setSnapshotVersion page.snapshotVersion false
    setLoc (.mini (if page.versionChanged then { moved with versionChanged := true } else moved))
  | .full page =>
    Prog.assert (page.nodeSize = cfg.leafPageSize)
    attempt env.beginDealloc
    attempt env.allocMiniPage
    setLoc (.full page)
  | .base _ | .null => Prog.crash

end BfTree.LeafEntry
