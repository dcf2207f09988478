import BfTree.Nodes.LeafNode

/-!
# BfTree.Nodes.LeafRebuild — consolidation, splits and merges of leaf pages

Everything that rewrites a whole page: consolidation (drop holes and tombstones),
the three searches for a split key, the two splits, the merge of a mini page into
its base page, the copy of a mini page to a larger one, and the conversions
between clean and dirty records when a base page is cached whole.
-/

namespace BfTree

open Lib

/-- Addition on 16-bit counters wraps in release code. -/
def u16 (n : Nat) : Nat := n % 65536

/-- The 16-bit signed value with these low bits. -/
def i16 (z : Int) : Int := z.bmod 65536

/-- `(left as i16 - right as i16).abs()` -/
def sideDiff (left right : Nat) : Int :=
  let d := i16 ((left : Int) - right)
  i16 (if d < 0 then -d else d)

namespace LeafNode

/-- Size of a record with its slot, counted with the full key. -/
def recordSize (p : LeafNode) (m : LeafKVMeta) : Nat :=
  p.getKeyLen m + m.value.length + kvMetaSize

/-! ## Consolidation -/

/-- The records a consolidation keeps, with the op type they get. -/
def consolidatePairs (p : LeafNode) (newOptype : OpType) (skipTombstone : Bool)
    (skipKey : Option Key) : List (Key × Value × OpType) :=
  p.metas.filterMap fun m =>
    if skipTombstone && m.opType = .delete then none
    else if skipKey = some (p.getFullKey m) then none
    else some (p.getFullKey m, m.value, if m.opType = .delete then .delete else newOptype)

def consolidateInner (p : LeafNode) (newOptype : OpType) (newHighFence : Option Key)
    (skipTombstone cacheOnly : Bool) (skipKey : Option Key) (snapshotVersion : Nat) :
    Option LeafNode :=
  let highFence := newHighFence.getD p.highFence
  (initializeNode p.lowFence highFence p.nodeSize p.nextLevel p.hasFence cacheOnly
    snapshotVersion).insertAll 0 (p.consolidatePairs newOptype skipTombstone skipKey)

def consolidateAfterSplit (p : LeafNode) (highFence : Key) (snapshotVersion : Nat) :
    Option LeafNode :=
  if p.isCacheOnlyLeaf || p.isBasePage then
    p.consolidateInner .insert (some highFence) true p.isCacheOnlyLeaf none snapshotVersion
  else none

/-- Cache-only mini pages: consolidate and drop the record with the given key. -/
def consolidateSkipKey (p : LeafNode) (key : Key) (snapshotVersion : Nat) : Option LeafNode :=
  if !p.isBasePage && p.isCacheOnlyLeaf then
    p.consolidateInner .insert none true p.isCacheOnlyLeaf (some key) snapshotVersion
  else none

/-! ## The split key of one page -/

def getSplitKeyFrom (p : LeafNode) (cacheOnly : Bool) (target : Nat) :
    (i curSize : Nat) → List LeafKVMeta → Option (Key × Nat)
  | _, _, [] => none
  | i, curSize, m :: ms =>
    let curSize' := u16 (curSize + p.recordSize m)
    -- in cache-only mode the left page keeps at least one record
    if cacheOnly && i == 0 then p.getSplitKeyFrom cacheOnly target (i + 1) curSize' ms
    else if target ≤ curSize' then some (p.getFullKey m, i)
    else p.getSplitKeyFrom cacheOnly target (i + 1) curSize' ms

/-- The key that splits the page into two roughly equal sizes, and how many
records stay left of it. -/
def getSplitKey (p : LeafNode) (cacheOnly : Bool) : Option (Key × Nat) :=
  let dataSize := u16 (p.metas.map p.recordSize).sum
  p.getSplitKeyFrom cacheOnly (dataSize / 2) 0 0 p.metas

/-- Number of keys strictly smaller than the split key. -/
def getKvNumBelowKey (p : LeafNode) (mergeSplitKey : Key) : Nat :=
  (p.metas.takeWhile fun m => p.getFullKey m < mergeSplitKey).length

/-! ## Split-key candidates

The two searches over several sources walk the records in key order, add up
their sizes and remember the first two keys at which half of the total is
reached. -/

structure SplitSearch where
  mergedSize : Nat
  key1 : Option Key
  key2 : Option Key
  diff1 : Int
  diff2 : Int
  deriving DecidableEq

namespace SplitSearch

def start : SplitSearch where
  mergedSize := 0
  key1 := none
  key2 := none
  diff1 := 32767
  diff2 := 32767

/-- Count one record; at or past the target it becomes a candidate, as long as
there are fewer than two. -/
def visit (s : SplitSearch) (total target size : Nat) (key : Key) : SplitSearch :=
  let mergedSize := u16 (s.mergedSize + size)
  if mergedSize < target ∨ s.key2.isSome then { s with mergedSize := mergedSize }
  else
    -- the left side is the sum with this record taken off again
    let leftSide := s.mergedSize
    let rightSide := u16 (total + 65536 - leftSide)
    if s.key1.isNone then
      { s with mergedSize := mergedSize, key1 := some key, diff1 := sideDiff leftSide rightSide }
    else
      { s with mergedSize := mergedSize, key2 := some key, diff2 := sideDiff leftSide rightSide }

/-- The loops stop at a record past the target once both candidates are there. -/
def stops (s : SplitSearch) (target size : Nat) : Bool :=
  target ≤ u16 (s.mergedSize + size) && s.key2.isSome

/-- The candidate with the smaller size difference. -/
def best (s : SplitSearch) : Option Key :=
  if s.key2.isNone || s.diff1 < s.diff2 then s.key1 else s.key2

end SplitSearch

/-- `while cmp == Less`: visit the records below `key`. -/
def visitBelow (p : LeafNode) (total target : Nat) (key : Key) :
    List LeafKVMeta → SplitSearch → List LeafKVMeta × SplitSearch
  | [], s => ([], s)
  | m :: ms, s =>
    if p.getFullKey m < key then
      let s' := s.visit total target (p.recordSize m) (p.getFullKey m)
      if s.stops target (p.recordSize m) then (m :: ms, s')
      else p.visitBelow total target key ms s'
    else (m :: ms, s)

/-- Visit the records that are left. -/
def visitRest (p : LeafNode) (total target : Nat) : List LeafKVMeta → SplitSearch → SplitSearch
  | [], s => s
  | m :: ms, s =>
    let s' := s.visit total target (p.recordSize m) (p.getFullKey m)
    if s.stops target (p.recordSize m) then s' else p.visitRest total target ms s'

/-- [Cache-only mode] The key that evenly splits the page's records and the
record to be inserted. `newRecordSize` is key plus value. -/
def getCacheOnlyInsertSplitKey (p : LeafNode) (key : Key) (newRecordSize : Nat) : Option Key :=
  let newSize := newRecordSize + kvMetaSize
  let total := u16 ((p.metas.map p.recordSize).sum + newSize)
  let target := total / 2
  let (rest, s) := p.visitBelow total target key p.metas .start
  let s := if s.key2.isNone then s.visit total target newSize key else s
  (p.visitRest total target rest s).best

/-! ## The split key of a base page and a mini page -/

/-- Advance over the base records below a mini key, adding up their sizes. -/
def skipBelow (p : LeafNode) (key : Key) :
    List LeafKVMeta → (pos total : Nat) → List LeafKVMeta × Nat × Nat
  | [], pos, total => ([], pos, total)
  | m :: ms, pos, total =>
    if p.getFullKey m < key then p.skipBelow key ms (pos + 1) (u16 (total + p.recordSize m))
    else (m :: ms, pos, total)

/-- First pass: total size of the distinct merged records, and the positions of
the base records whose key the mini page holds dirty. -/
def mergedTotal (base mini : LeafNode) :
    (minis rest : List LeafKVMeta) → (pos total : Nat) → (duplicates : List Nat) → Nat × List Nat
  | [], rest, _, total, duplicates =>
    (u16 (total + (rest.map base.recordSize).sum), duplicates)
  | m :: ms, rest, pos, total, duplicates =>
    if !m.opType.isDirty then base.mergedTotal mini ms rest pos total duplicates
    else
      let key := mini.getFullKey m
      let (rest, pos, total) := base.skipBelow key rest pos total
      match rest with
      | b :: bs =>
        if base.getFullKey b = key then
          base.mergedTotal mini ms bs (pos + 1) (u16 (total + mini.recordSize m))
            (duplicates ++ [pos])
        else base.mergedTotal mini ms rest pos (u16 (total + mini.recordSize m)) duplicates
      | [] => base.mergedTotal mini ms [] pos (u16 (total + mini.recordSize m)) duplicates

/-- Second pass: visit base records and dirty mini records in key order, a key in
both pages once, as the mini page's record. -/
def visitMerged (base mini : LeafNode) (total target : Nat) :
    (minis rest : List LeafKVMeta) → SplitSearch → List LeafKVMeta × SplitSearch
  | [], rest, s => (rest, s)
  | m :: ms, rest, s =>
    if !m.opType.isDirty then base.visitMerged mini total target ms rest s
    else
      let key := mini.getFullKey m
      let (rest, s) := base.visitBelow total target key rest s
      let rest := match rest with
        | b :: bs => if base.getFullKey b = key then bs else b :: bs
        | [] => []
      let s' := s.visit total target (mini.recordSize m) key
      if s.stops target (mini.recordSize m) then (rest, s')
      else base.visitMerged mini total target ms rest s'

def markDeletedAt (metas : List LeafKVMeta) (pos : Nat) : List LeafKVMeta :=
  metas.modify pos fun m => { m with opType := .delete }

/-- Both passes: the split-key candidates and the positions to mark. -/
def mergeSearch (base mini : LeafNode) : SplitSearch × List Nat :=
  let (total, duplicates) := base.mergedTotal mini mini.metas base.metas 0 0 []
  let target := total / 2
  let (rest, s) := base.visitMerged mini total target mini.metas base.metas .start
  (base.visitRest total target rest s, duplicates)

/-- The better candidate that is not a fence of the page. -/
def chooseSplitKey (s : SplitSearch) (lowFence highFence : Key) : Option Key := do
  let key1 ← s.key1
  guard (s.key2 ≠ some key1)
  let best ← s.best
  -- the low fence would leave an empty page and a duplicate separator
  let candidate := if lowFence ≠ [] ∧ best = lowFence then s.key2 else some best
  let splittingKey ← candidate
  guard (highFence = [] ∨ splittingKey ≠ highFence)
  return splittingKey

/-- The key that divides the merged records of the mini page and its base page
evenly. Marks the base records that the mini page overwrites as deleted. -/
def getMergeSplitKey (base mini : LeafNode) : Option (Key × LeafNode) :=
  (chooseSplitKey (base.mergeSearch mini).1 base.lowFence base.highFence).map fun key =>
    (key, { base with metas := (base.mergeSearch mini).2.foldl markDeletedAt base.metas })

/-! ## Splits -/

/-- The records that move to the sibling: tombstones are skipped, the rest become
inserts. -/
def movedPairs (p : LeafNode) (metas : List LeafKVMeta) : List (Key × Value × OpType) :=
  metas.filterMap fun m =>
    if m.opType = .delete then none else some (p.getFullKey m, m.value, .insert)

/-- Cut after `newCurCount` records: the sibling gets the rest and takes
`splittingKey` as its low fence, the page keeps the first ones and takes it as
its high fence. -/
def splitAtCount (p : LeafNode) (siblingSize newCurCount : Nat) (splittingKey : Key)
    (cacheOnly : Bool) (snapshotVersion : Nat) : Option (LeafNode × LeafNode) := do
  let empty :=
    if cacheOnly then initializeNode [] [] siblingSize none false cacheOnly snapshotVersion
    else initializeNode splittingKey p.highFence siblingSize none true cacheOnly snapshotVersion
  let sibling ← empty.insertAll 0 (p.movedPairs (p.metas.drop newCurCount))
  let left ← { p with metas := p.metas.take newCurCount }.consolidateAfterSplit splittingKey
    snapshotVersion
  some (left, sibling)

/-- The kind of page a split accepts. -/
def splittable (p : LeafNode) (cacheOnly : Bool) : Bool :=
  if cacheOnly then p.isCacheOnlyLeaf && !p.hasFence else p.isBasePage && p.hasFence

/-- Split by size, returning the splitting key. Used for the root leaf. -/
def split (p : LeafNode) (siblingSize : Nat) (cacheOnly : Bool) (snapshotVersion : Nat) :
    Option (Key × LeafNode × LeafNode) := do
  guard (p.splittable cacheOnly)
  let (splittingKey, newCurCount) ← p.getSplitKey cacheOnly
  let (left, sibling) ← p.splitAtCount siblingSize newCurCount splittingKey cacheOnly
    snapshotVersion
  some (splittingKey, left, sibling)

/-- Split at a given key. -/
def splitWithKey (p : LeafNode) (siblingSize : Nat) (mergeSplitKey : Key) (cacheOnly : Bool)
    (snapshotVersion : Nat) : Option (LeafNode × LeafNode) := do
  guard (p.splittable cacheOnly)
  let newCurCount := p.getKvNumBelowKey mergeSplitKey
  let (left, sibling) ← p.splitAtCount siblingSize newCurCount mergeSplitKey cacheOnly
    snapshotVersion
  guard (cacheOnly ∨ left.highFence = mergeSplitKey ∧ sibling.lowFence = mergeSplitKey)
  some (left, sibling)

/-! ## Merging and copying -/

def needActuallyMergeToDisk (p : LeafNode) : Bool :=
  p.metas.any fun m => m.opType.isDirty

def estimateMergeSize (p : LeafNode) : Nat :=
  ((p.metas.filter fun m => m.opType = .insert).map p.recordSize).sum

/-- The records a merge writes to the base page; clean ones are there already. -/
def dirtyPairs (p : LeafNode) : List (Key × Value × OpType) :=
  p.metas.filterMap fun m =>
    if m.opType.isDirty then some (p.getFullKey m, m.value, m.opType) else none

/-- Merge without split. The base page takes over the mini page's version. -/
def mergeMiniPage (base mini : LeafNode) (maxFenceLen : Nat) : Option (Bool × LeafNode) :=
  if base.fullWithFences (u16 mini.estimateMergeSize) maxFenceLen then some (false, base)
  else do
    let base' ← (base.setSnapshotVersion mini.snapshotVersion false).insertAll 0 mini.dirtyPairs
    some (true, base')

/-- Copy a mini page to a new, not smaller, place. -/
def copyInitializeTo (p : LeafNode) (dstSize : Nat) (discardColdCache : Bool)
    (snapshotVersion : Nat) : Option LeafNode :=
  if p.isBasePage ∨ dstSize < p.nodeSize then none
  else
    (initializeNode [] [] dstSize p.nextLevel false p.isCacheOnlyLeaf snapshotVersion).insertAll 0
      (p.metas.filterMap fun m =>
        if discardColdCache && m.opType.isCache && !m.referenced then none
        else some (p.getFullKey m, m.value, m.opType))

/-- After promoting a base page to a full page, every record is a cached one. -/
def covertInsertRecordsToCache (p : LeafNode) : Option LeafNode :=
  if p.metas.any fun m => m.opType.isCache then none
  else some { p with metas := p.metas.map fun m =>
    { m with opType := if m.opType = .insert then .cache else .phantom } }

/-- Merging a full page back makes clean records dirty. -/
def convertCacheRecordsToInsert (p : LeafNode) : LeafNode :=
  { p with metas := p.metas.map fun m =>
    { m with opType := match m.opType with
      | .cache => .insert
      | .phantom => .delete
      | op => op } }

/-- Any key that routes to the page: its first one. -/
def getKeyToReachThisNode (p : LeafNode) : Option Key :=
  p.metas.head?.map p.getFullKey

/-! ## Mini page sizes -/

/-- The smallest mini page that holds the record without filling it. Only
cache-only mini pages may reach the leaf page size. -/
def getChainSizeHint (keyLen valueLen : Nat) (pageClasses : List Nat) (cacheOnly : Bool) :
    Option Nat :=
  let initialRecordSize := keyLen + valueLen + kvMetaSize + leafHeaderSize
  match pageClasses.dropLast.find? fun x => initialRecordSize < x with
  | some s => some s
  | none =>
    match pageClasses.getLast? with
    | some s => if cacheOnly ∧ initialRecordSize ≤ s then some s else none
    | none => none

/-- The next size up in which the incoming record fits. Panics if that is the
smallest class. -/
def newSizeIfUpgrade (p : LeafNode) (incomingSize : Nat) (pageClasses : List Nat)
    (cacheOnly : Bool) : Option (Option Nat) :=
  let requestSize := p.nodeSize + incomingSize
  match pageClasses.dropLast.find? fun x => requestSize < x with
  | some s => if pageClasses.head? = some s then none else some (some s)
  | none =>
    match pageClasses.getLast? with
    | some s => if cacheOnly ∧ requestSize ≤ s then some (some s) else some none
    | none => none

end LeafNode

end BfTree
