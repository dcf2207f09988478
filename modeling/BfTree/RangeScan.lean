import BfTree.Tree

/-!
# Range scans

A scan places a cursor on the leaf of its start key and reads the records from there
on, leaf by leaf. A mini page has to be merged into its base page before the leaf can
be scanned, and a base page may be cached whole for the scans to come.
-/

namespace BfTree

open Lib

inductive ScanReturnField where
  | key
  | value
  | keyAndValue
deriving DecidableEq, Repr

/-- The page a cursor is on, and its slot there, counted after the fences. -/
inductive ScanPosition where
  | base (pos : Nat)
  | full (pos : Nat)
  | mini (pos : Nat)
  | null
deriving DecidableEq, Repr

inductive GetScanRecordByPosResult where
  | deleted
  | found (keyLen valueLen : Nat)
  | endOfLeaf
  | boundKeyExceeded
deriving DecidableEq, Repr

namespace LeafNode

/-- The bytes of a record that the caller asks for. -/
def scanBytes (p : LeafNode) (m : LeafKVMeta) : ScanReturnField → List UInt8
  | .key => p.getFullKey m
  | .value => m.value
  | .keyAndValue => p.getFullKey m ++ m.value

def scanLengths (p : LeafNode) (m : LeafKVMeta) : ScanReturnField → Nat × Nat
  | .key => ((p.getFullKey m).length, 0)
  | .value => (0, m.value.length)
  | .keyAndValue => ((p.getFullKey m).length, m.value.length)

/-- The record in a slot. Absent records are passed over before the bound is looked at. -/
def getRecordByPosWithBound (p : LeafNode) (pos : Nat) (outBuffer : List UInt8)
    (returnField : ScanReturnField) (boundKey : Option Key) :
    Option (GetScanRecordByPosResult × List UInt8) :=
  match p.metas[pos]? with
  | none => some (.endOfLeaf, outBuffer)
  | some m =>
    if m.opType.isAbsent then some (.deleted, outBuffer)
    else if boundKey.any fun bound => bound < p.getFullKey m then some (.boundKeyExceeded, outBuffer)
    else (copyFromSlice outBuffer (p.scanBytes m returnField)).map fun outBuffer =>
      (.found (p.scanLengths m returnField).1 (p.scanLengths m returnField).2, outBuffer)

end LeafNode

/-! ## Placing the cursor on a leaf -/

/-- What is left to do once the leaf is prepared: the cursor has its position, or the
base page in the buffer is scanned, or cached whole and then scanned. -/
inductive ScanPlan where
  | ready (pos : ScanPosition)
  | scanBase
  | promoteBase (offset : Option Nat)
deriving DecidableEq

namespace LeafEntry

/-- `none` is `ScanError::NeedMergeMiniPage`. -/
def getScanPosition (cfg : Config) (key : Key) : M (Option ScanPosition) := do
  let t ← Prog.get
  match t.loc with
  | .base offset => do
    let base ← loadBasePage offset
    let pos ← Prog.unwrap (base.lowerBound key)
    pure (some (.base pos))
  | .full page => do
    let pos ← Prog.unwrap (page.lowerBound key)
    pure (some (.full pos))
  | .mini page =>
    if cfg.cacheOnly then do
      let pos ← Prog.unwrap (page.lowerBound key)
      pure (some (.mini pos))
    else pure none
  | .null => do
    Prog.assert cfg.cacheOnly
    pure (some .null)

/-- `promote_or_merge_mini_page`, up to the point where it looks at the base page. -/
def prepareMerge (cfg : Config) (env : AttemptEnv) : M ScanPlan := do
  let t ← Prog.get
  match t.loc with
  | .base offset => pure (.promoteBase (some offset))
  | .mini page => do
    attempt env.leaf.beginDealloc
    let r ← tryMergeMiniPage cfg env.leaf page
    changeToBaseLoc
    match r with
    | .noSplit => pure (if env.promote then .promoteBase page.nextLevel else .scanBase)
    -- the key may now belong to the new leaf
    | .mergeAndSplit => Prog.fail .needRestart
  | .full _ | .null => Prog.crash

/-- `promote_or_merge_mini_page`, from there on. -/
def finishScan (cfg : Config) (env : AttemptEnv) (key : Key) : ScanPlan → M ScanPosition
  | .ready pos => pure pos
  | .scanBase => do
    let base ← loadBasePageFromBuffer
    let pos ← Prog.unwrap (base.lowerBound key)
    pure (.base pos)
  | .promoteBase offset => do
    let base ← loadBasePageFromBuffer
    let pos ← Prog.unwrap (base.lowerBound key)
    if base.metas ≠ [] then do
      let loc ← upgradeToFullPage cfg env.leaf base offset
      setLoc loc
      pure (.full pos)
    else pure (.base pos)

/-- `try_upgrade` of the read lock, then `promote_or_merge_mini_page`. -/
def upgradeAndMerge (cfg : Config) (env : AttemptEnv) : M ScanPlan := do
  let t ← Prog.get
  if env.leafUpgrade then do
    Prog.assert t.parent.isSome
    prepareMerge cfg env
  else Prog.fail .locked

/-- The part of `move_cursor_to_leaf` below the descent, up to the look at the base page. -/
def prepareScan (cfg : Config) (env : AttemptEnv) (key : Key) : M ScanPlan := do
  let pos ← getScanPosition cfg key
  let t ← Prog.get
  match pos with
  | some (.base pos) =>
    if t.parent.isNone || !env.promote then pure (.ready (.base pos))
    else upgradeAndMerge cfg env
  | some pos => pure (.ready pos)
  | none => upgradeAndMerge cfg env

/-- The page under a cursor; the leaf stays locked as long as the cursor is on it. -/
def cursorPage (t : LeafEntry) : ScanPosition → Option LeafNode
  | .base _ => t.tmpBuffer.map fun b => b.page
  | .full _ | .mini _ =>
    match t.loc with
    | .full page | .mini page => some page
    | _ => none
  | .null => none

def moveCursor (cfg : Config) (env : AttemptEnv) (key : Key) :
    M (ScanPosition × Option LeafNode) := do
  let plan ← prepareScan cfg env key
  let pos ← finishScan cfg env key plan
  let t ← Prog.get
  pure (pos, t.cursorPage pos)

end LeafEntry

/-! ## The iterator -/

structure ScanIter where
  scanCnt : Nat
  position : ScanPosition
  page : Option LeafNode
  returnField : ScanReturnField
  endKey : Option Key
  nextKey : Key
deriving DecidableEq

namespace ScanPosition

/-- There is no next slot on an evicted page. -/
def moveToNext : ScanPosition → Option ScanPosition
  | .base pos => some (.base (pos + 1))
  | .full pos => some (.full (pos + 1))
  | .mini pos => some (.mini (pos + 1))
  | .null => none

def slot : ScanPosition → Nat
  | .base pos | .full pos | .mini pos => pos
  | .null => 0

end ScanPosition

namespace ScanIter

/-- `scan_record_by_pos_with_bound` -/
def getRecord (it : ScanIter) (outBuffer : List UInt8) :
    Option (GetScanRecordByPosResult × List UInt8) :=
  match it.position with
  | .null => some (.endOfLeaf, outBuffer)
  | pos => do
    let page ← it.page
    page.getRecordByPosWithBound pos.slot outBuffer it.returnField it.endKey

/-- Where the next leaf starts; empty at the last leaf. -/
def getRightSibling (cfg : Config) (it : ScanIter) : Option Key :=
  if cfg.cacheOnly then some it.nextKey else it.page.map fun page => page.highFence

end ScanIter

namespace Tree

def moveCursorToLeaf (env : AttemptEnv) (key : Key) (aggressiveSplit : Bool) :
    M (ScanPosition × Option LeafNode × Key) := do
  let landing ← traverseToLeaf env key aggressiveSplit
  let t ← Prog.get
  let (pos, page) ← withLeaf landing.pid landing.parent
    (LeafEntry.moveCursor t.config env key)
  pure (pos, page, landing.highFence)

/-- `ScanIter::new_with_scan_count` -/
def newWithScanCount (rounds : List Round) (startKey : Key) (scanCnt : Nat)
    (returnField : ScanReturnField) : M ScanIter := do
  let (pos, page, nextKey) ← retry
    (fun env aggressive => moveCursorToLeaf env startKey aggressive) false rounds false
  pure ⟨scanCnt, pos, page, returnField, none, nextKey⟩

def newWithEndKey (rounds : List Round) (startKey endKey : Key) (returnField : ScanReturnField) :
    M ScanIter := do
  let it ← newWithScanCount rounds startKey (2 ^ 64 - 1) returnField
  pure { it with endKey := some endKey }

/-- Place the cursor on the next leaf. Nothing is evicted here, as the old leaf is still
locked. -/
def moveToRightSibling (envs : List AttemptEnv) (key : Key) (it : ScanIter) : M ScanIter := do
  let (pos, page, nextKey) ← retry
    (fun env aggressive => moveCursorToLeaf env key aggressive) false
    (envs.map fun env => ⟨env, []⟩) false
  pure { it with position := pos, page := page, nextKey := nextKey }

/-- `ScanIter::next`. There is one list of outcomes for each leaf that the cursor moves
to; a call that needs more steps than `fuel` does not return. -/
def next : (fuel : Nat) → (moves : List (List AttemptEnv)) → ScanIter → List UInt8 →
    M (Option (Nat × Nat) × List UInt8 × ScanIter)
  | 0, _, _, _ => Prog.crash
  | fuel + 1, moves, it, outBuffer =>
    if it.scanCnt = 0 ∧ it.endKey = none then pure (none, outBuffer, it)
    else do
      let (r, outBuffer) ← Prog.unwrap (it.getRecord outBuffer)
      match r with
      | .deleted => do
        let pos ← Prog.unwrap it.position.moveToNext
        next fuel moves { it with position := pos } outBuffer
      | .found keyLen valueLen => do
        let pos ← Prog.unwrap it.position.moveToNext
        -- `scan_cnt -= 1` wraps around at zero
        pure (some (keyLen, valueLen), outBuffer,
          { it with position := pos, scanCnt := (it.scanCnt + (2 ^ 64 - 1)) % 2 ^ 64 })
      | .boundKeyExceeded => pure (none, outBuffer, { it with scanCnt := 0 })
      | .endOfLeaf => do
        let t ← Prog.get
        let key ← Prog.unwrap (it.getRightSibling t.config)
        if key = [] then pure (none, outBuffer, { it with scanCnt := 0 })
        else
          match moves with
          | [] => Prog.crash
          | envs :: moves => do
            let it ← moveToRightSibling envs key it
            next fuel moves it outBuffer

inductive ScanIterError where
  | invalidStartKey
  | invalidEndKey
  | invalidCount
  | invalidKeyRange
deriving DecidableEq, Repr

def scanWithCount (rounds : List Round) (key : Key) (cnt : Nat) (returnField : ScanReturnField) :
    M (Except ScanIterError ScanIter) := do
  let t ← Prog.get
  if !validKey t.config key then pure (.error .invalidStartKey)
  else if cnt = 0 then pure (.error .invalidCount)
  else do
    let it ← newWithScanCount rounds key cnt returnField
    pure (.ok it)

def scanWithEndKey (rounds : List Round) (startKey endKey : Key) (returnField : ScanReturnField) :
    M (Except ScanIterError ScanIter) := do
  let t ← Prog.get
  if !validKey t.config startKey then pure (.error .invalidStartKey)
  else if !validKey t.config endKey then pure (.error .invalidEndKey)
  else if endKey < startKey then pure (.error .invalidKeyRange)
  else do
    let it ← newWithEndKey rounds startKey endKey returnField
    pure (.ok it)

end Tree

end BfTree
