import BfTree.Lib.Bytes
import BfTree.Lib.Memory
import BfTree.Nodes.LeafRebuild

/-!
# BfTree.Nodes.PageBytes — leaf pages as bytes

`LeafNode` keeps a page at the level of its records. Here a page is what the source keeps
in memory: a header of packed 16-bit words, and behind it one array in which the slots grow
upwards and the key and value bytes grow downwards. A slot packs the op type with the key
length and the reference bit with the value length.

The words are `UInt16` and wrap as release code does. A page that is too small for its
fences is not produced: the debug assertions of `install_fence_key` are panics here.
-/

namespace BfTree

open Lib

/-! ## Slots -/

namespace OpType

def toWord : OpType → UInt16
  | insert => 0
  | delete => 1
  | cache => 2
  | phantom => 3

/-- The two bits of a slot are always an op type. -/
def ofWord (w : UInt16) : OpType :=
  match w.toNat with
  | 0 => insert
  | 1 => delete
  | 2 => cache
  | _ => phantom

end OpType

def opTypeShift : UInt16 := 14

def keyLenMask : UInt16 := 0x3FFF

def refBitMask : UInt16 := 0x8000

def valueLenMask : UInt16 := 0x7FFF

/-- `LeafKVMeta` as it is stored. -/
structure PackedMeta where
  offset : UInt16
  opTypeKeyLen : UInt16
  refValueLen : UInt16
  preview : UInt8 × UInt8
  deriving DecidableEq

namespace PackedMeta

/-- A new slot is not referenced. -/
def makePrefixedMeta (offset valueLen : UInt16) (key : Key) (prefixLen : UInt16) (opType : OpType) :
    PackedMeta where
  offset := offset
  opTypeKeyLen := UInt16.ofNat key.length ||| opType.toWord <<< opTypeShift
  refValueLen := valueLen &&& ~~~refBitMask
  preview := (key[prefixLen.toNat]?.getD 0, key[prefixLen.toNat + 1]?.getD 0)

def makeInfiniteHighFenceKey : PackedMeta := ⟨0xFFFF, 0, 0, (0, 0)⟩

def makeInfiniteLowFenceKey : PackedMeta := ⟨0xFFFE, 0, 0, (0, 0)⟩

def isInfiniteLowFenceKey (m : PackedMeta) : Bool := m.offset = 0xFFFE

def isInfiniteHighFenceKey (m : PackedMeta) : Bool := m.offset = 0xFFFF

def valueLen (m : PackedMeta) : UInt16 := m.refValueLen &&& valueLenMask

def setValueLen (m : PackedMeta) (value : UInt16) : PackedMeta :=
  { m with refValueLen := (m.refValueLen &&& ~~~valueLenMask) ||| (value &&& valueLenMask) }

def getKeyLen (m : PackedMeta) : UInt16 := m.opTypeKeyLen &&& keyLenMask

def setOpType (m : PackedMeta) (opType : OpType) : PackedMeta :=
  { m with opTypeKeyLen := m.getKeyLen ||| opType.toWord <<< opTypeShift }

def opType (m : PackedMeta) : OpType := OpType.ofWord (m.opTypeKeyLen >>> opTypeShift)

def markAsRef (m : PackedMeta) : PackedMeta := { m with refValueLen := m.refValueLen ||| refBitMask }

def isReferenced (m : PackedMeta) : Bool := m.refValueLen &&& refBitMask ≠ 0

def previewBytes (m : PackedMeta) : List UInt8 := [m.preview.1, m.preview.2]

/-- The eight bytes of a slot. -/
def encode (m : PackedMeta) : List UInt8 :=
  toLE 2 m.offset.toNat ++ toLE 2 m.opTypeKeyLen.toNat ++ toLE 2 m.refValueLen.toNat ++ m.previewBytes

def decode (bytes : List UInt8) : PackedMeta where
  offset := UInt16.ofNat (ofLE (bytes.take 2))
  opTypeKeyLen := UInt16.ofNat (ofLE ((bytes.drop 2).take 2))
  refValueLen := UInt16.ofNat (ofLE ((bytes.drop 4).take 2))
  preview := (bytes[6]?.getD 0, bytes[7]?.getD 0)

end PackedMeta

/-! ## The header -/

def hasFenceMask : UInt16 := 0x8000

def cacheLeafMask : UInt16 := 0x1000

def valueCountMask : UInt16 := 0x0FFF

structure NodeMeta where
  encoded : UInt16
  nodeSize : UInt16
  remainingSize : UInt16

namespace NodeMeta

/-- `NodeMeta::new` for a leaf. -/
def new (remainingSize : UInt16) (hasFence : Bool) (nodeSize : UInt16) (cacheOnly : Bool) :
    NodeMeta where
  encoded := (if hasFence then hasFenceMask else 0) ||| (if cacheOnly then cacheLeafMask else 0)
  nodeSize := nodeSize
  remainingSize := remainingSize

def metaCountWithFence (n : NodeMeta) : UInt16 := n.encoded &&& valueCountMask

def hasFence (n : NodeMeta) : Bool := n.encoded &&& hasFenceMask ≠ 0

def isCacheOnlyLeaf (n : NodeMeta) : Bool := n.encoded &&& cacheLeafMask ≠ 0

/-- Counts in the lowest bits of the word that also holds the flags. -/
def incrementValueCount (n : NodeMeta) : NodeMeta := { n with encoded := n.encoded + 1 }

def setValueCount (n : NodeMeta) (count : UInt16) : NodeMeta :=
  { n with encoded := (n.encoded &&& ~~~valueCountMask) ||| count }

/-- `remaining_size -= size` -/
def take (n : NodeMeta) (size : UInt16) : NodeMeta :=
  { n with remainingSize := n.remainingSize - size }

end NodeMeta

/-- Slots before the records of a page with fences. -/
def fenceKeyCnt : Nat := 2

def lowFenceIdx : Nat := 0

def highFenceIdx : Nat := 1

/-- A leaf page in memory. The log sequence number is not used by the functions below. -/
structure LeafPage where
  header : NodeMeta
  prefixLen : UInt16
  nextLevel : Option Nat
  snapshotVersion : UInt64
  data : Memory

namespace LeafPage

open PackedMeta

def metaCountWithFence (page : LeafPage) : Nat := page.header.metaCountWithFence.toNat

def hasFence (page : LeafPage) : Bool := page.header.hasFence

def firstMetaPosAfterFence (page : LeafPage) : Nat := if page.hasFence then fenceKeyCnt else 0

def isBasePage (page : LeafPage) : Bool := !page.header.isCacheOnlyLeaf && page.nextLevel.isNone

/-! ## Slots and the bytes they point to -/

def getKvMeta (page : LeafPage) (index : Nat) : PackedMeta :=
  decode (page.data.read (index * kvMetaSize) kvMetaSize)

/-- Also what a change through `get_kv_meta_mut` leaves behind. -/
def writeInitialKvMeta (page : LeafPage) (index : Nat) (m : PackedMeta) : LeafPage :=
  { page with data := page.data.write (index * kvMetaSize) m.encode }

/-- The slots of the records. -/
def metaIter (page : LeafPage) : List PackedMeta :=
  (List.range' page.firstMetaPosAfterFence
    (page.metaCountWithFence - page.firstMetaPosAfterFence)).map page.getKvMeta

def getRemainingKey (page : LeafPage) (m : PackedMeta) : Key :=
  page.data.read m.offset.toNat (m.getKeyLen - page.prefixLen).toNat

/-- The low fence is stored whole, and begins with the bytes that all keys share. -/
def getPrefix (page : LeafPage) : Key :=
  page.data.read (page.getKvMeta lowFenceIdx).offset.toNat page.prefixLen.toNat

def getFullKey (page : LeafPage) (m : PackedMeta) : Key :=
  page.getPrefix ++ page.getRemainingKey m

def getValue (page : LeafPage) (m : PackedMeta) : Value :=
  page.data.read (m.offset + m.getKeyLen - page.prefixLen).toNat m.valueLen.toNat

def getLowFenceKey (page : LeafPage) : Key :=
  let m := page.getKvMeta lowFenceIdx
  if m.isInfiniteLowFenceKey then [] else page.data.read m.offset.toNat m.getKeyLen.toNat

def getHighFenceKey (page : LeafPage) : Key :=
  let m := page.getKvMeta highFenceIdx
  if m.isInfiniteHighFenceKey then [] else page.getFullKey m

/-! ## Initialization -/

def currentLowestOffset (page : LeafPage) : UInt16 :=
  page.header.metaCountWithFence * UInt16.ofNat kvMetaSize + page.header.remainingSize

def installFenceKey (page : LeafPage) (key : Key) (isHighFence : Bool) : Option LeafPage := do
  let loc := page.metaCountWithFence
  let curLowOffset := page.currentLowestOffset
  guard (kvMetaSize ≤ page.header.remainingSize.toNat)
  let page := { page with header := page.header.incrementValueCount.take (UInt16.ofNat kvMetaSize) }
  if key = [] then
    some (page.writeInitialKvMeta loc
      (if isHighFence then makeInfiniteHighFenceKey else makeInfiniteLowFenceKey))
  else
    -- the low fence is not compressed
    let prefixLen := if isHighFence then page.prefixLen else 0
    let kvLen := UInt16.ofNat key.length - prefixLen
    guard (kvLen ≤ page.header.remainingSize)
    let offset := curLowOffset - kvLen
    let page := page.writeInitialKvMeta loc (makePrefixedMeta offset 0 key prefixLen .insert)
    some { page with
      header := page.header.take kvLen
      data := page.data.write offset.toNat (key.drop prefixLen.toNat) }

/-- `LeafNode::initialize`; the bytes of the page stay as they are. -/
def initializePage (page : LeafPage) (lowFence highFence : Key) (nodeSize : Nat)
    (nextLevel : Option Nat) (hasFence cacheOnly : Bool) (snapshotVersion : UInt64) :
    Option LeafPage := do
  let page := { page with
    header := .new (UInt16.ofNat (LeafNode.maxDataSize nodeSize)) hasFence (UInt16.ofNat nodeSize)
      cacheOnly
    nextLevel := nextLevel
    snapshotVersion := snapshotVersion &&& 0x7FFFFFFFFFFFFFFF }
  if hasFence then
    let page := { page with prefixLen := UInt16.ofNat (commonPrefixLen lowFence highFence) }
    let page ← page.installFenceKey lowFence false
    page.installFenceKey highFence true
  else
    guard (lowFence = [] ∧ highFence = [])
    some { page with prefixLen := 0 }

/-! ## Search -/

/-- Orders a slot against a key: two preview bytes first, the stored bytes on a tie. -/
def keyCmp (page : LeafPage) (m : PackedMeta) (key : Key) : Ordering :=
  let suffix := key.drop page.prefixLen.toNat
  (lexCmp (m.previewBytes.take (min previewSize (m.getKeyLen.toNat - page.prefixLen.toNat)))
    (suffix.take (min suffix.length previewSize))).then (lexCmp (page.getRemainingKey m) suffix)

def lowerBound (page : LeafPage) (key : Key) : Option Nat :=
  if key.length < page.prefixLen.toNat then none
  else
    let lower := page.firstMetaPosAfterFence
    let upper := page.metaCountWithFence
    match binarySearch (fun i => page.keyCmp (page.getKvMeta i) key) (upper - lower) lower upper with
    | .ok mid => some mid
    | .error lower => some lower

/-- The loop of `linear_lower_bound`; the comparison slices off the common part, which panics
on a shorter key. The slots from `index` on are enough fuel. -/
def linearFrom (page : LeafPage) (key : Key) : (fuel index : Nat) → Option Nat
  | 0, index => some index
  | fuel + 1, index =>
    if index < page.metaCountWithFence then
      if key.length < page.prefixLen.toNat then none
      else if page.keyCmp (page.getKvMeta index) key ≠ .lt then some index
      else page.linearFrom key fuel (index + 1)
    else some index

def linearLowerBound (page : LeafPage) (key : Key) : Option Nat :=
  page.linearFrom key (page.metaCountWithFence - page.firstMetaPosAfterFence)
    page.firstMetaPosAfterFence

/-! ## Insert -/

def fullWithFences (page : LeafPage) (requestedSize : UInt16) (maxFenceLen : Nat) : Bool :=
  if page.header.remainingSize < requestedSize then true
  else if page.hasFence then
    let low := page.getKvMeta lowFenceIdx
    let high := page.getKvMeta highFenceIdx
    let emptyDataSize := page.header.remainingSize
      + (if low.isInfiniteLowFenceKey then 0 else low.getKeyLen)
      + (if high.isInfiniteHighFenceKey then 0 else high.getKeyLen)
    !decide (requestedSize + UInt16.ofNat maxFenceLen ≤ emptyDataSize)
  else false

/-- Put a key without its common part and a value into the free bytes. -/
def writePair (page : LeafPage) (offset postFixLen : UInt16) (key : Key) (value : Value) : LeafPage :=
  { page with
    data := (page.data.write offset.toNat (key.drop page.prefixLen.toNat)).write
      (offset.toNat + postFixLen.toNat) value }

/-- The key is in the slot at `pos`. -/
def insertExisting (page : LeafPage) (pos : Nat) (postFixLen valLen : UInt16) (key : Key)
    (value : Value) (opType : OpType) : Option (Bool × LeafPage) :=
  let m := page.getKvMeta pos
  if opType = .delete then some (true, page.writeInitialKvMeta pos (m.setOpType .delete))
  else if valLen ≤ m.valueLen then
    let page := { page with
      data := page.data.write (m.offset.toNat + postFixLen.toNat) value }
    some (true, page.writeInitialKvMeta pos ((m.setValueLen valLen).setOpType opType))
  else if page.header.remainingSize < postFixLen + valLen then some (false, page)
  else if opType = .cache then none
  else
    let offset := page.currentLowestOffset - (postFixLen + valLen)
    let page := page.writeInitialKvMeta pos
      { (m.setValueLen valLen).setOpType opType with offset := offset }
    let page := page.writePair offset postFixLen key value
    some (true, { page with header := page.header.take (postFixLen + valLen) })

/-- The key is not in the page: the slots from `pos` on move up by one. -/
def insertNew (page : LeafPage) (pos : Nat) (postFixLen valLen : UInt16) (key : Key) (value : Value)
    (opType : OpType) : LeafPage :=
  let offset := page.currentLowestOffset - (postFixLen + valLen)
  let m := makePrefixedMeta offset valLen key page.prefixLen opType
  let page := { page with
    data := page.data.copy (pos * kvMetaSize) ((pos + 1) * kvMetaSize)
      (kvMetaSize * (page.metaCountWithFence - pos)) }
  let page := page.writeInitialKvMeta pos m
  let page := page.writePair offset postFixLen key value
  { page with
    header := (page.header.take (postFixLen + valLen + UInt16.ofNat kvMetaSize)).incrementValueCount }

/-- Returns true if the insert is successful, false if out of space. -/
def insert (page : LeafPage) (key : Key) (value : Value) (opType : OpType) (maxFenceLen : Nat) :
    Option (Bool × LeafPage) := do
  let postFixLen := UInt16.ofNat key.length - page.prefixLen
  let valLen := UInt16.ofNat value.length
  let pos ← page.lowerBound key
  if pos < page.metaCountWithFence ∧
      page.getRemainingKey (page.getKvMeta pos) = key.drop page.prefixLen.toNat then
    page.insertExisting pos postFixLen valLen key value opType
  else if opType = .delete ∧ page.isBasePage then some (true, page)
  else if page.fullWithFences (postFixLen + valLen + UInt16.ofNat kvMetaSize) maxFenceLen then
    some (false, page)
  else some (true, page.insertNew pos postFixLen valLen key value opType)

def insertAll (page : LeafPage) (maxFenceLen : Nat) : List (Key × Value × OpType) → Option LeafPage
  | [] => some page
  | (key, value, opType) :: pairs =>
    match page.insert key value opType maxFenceLen with
    | some (true, page') => page'.insertAll maxFenceLen pairs
    | _ => none

/-! ## Consolidation -/

def consolidatePairs (page : LeafPage) (newOptype : OpType) (skipTombstone : Bool)
    (skipKey : Option Key) : List (Key × Value × OpType) :=
  page.metaIter.filterMap fun m =>
    if skipTombstone && m.opType = .delete then none
    else if skipKey = some (page.getFullKey m) then none
    else some (page.getFullKey m, page.getValue m, if m.opType = .delete then .delete else newOptype)

def consolidateInner (page : LeafPage) (newOptype : OpType) (newHighFence : Option Key)
    (skipTombstone cacheOnly : Bool) (skipKey : Option Key) (snapshotVersion : UInt64) :
    Option LeafPage := do
  let pairs := page.consolidatePairs newOptype skipTombstone skipKey
  let lowFence := if page.hasFence then page.getLowFenceKey else []
  let highFence := if page.hasFence then newHighFence.getD page.getHighFenceKey else []
  let page ← page.initializePage lowFence highFence page.header.nodeSize.toNat page.nextLevel
    page.hasFence cacheOnly snapshotVersion
  page.insertAll 0 pairs

def consolidateAfterSplit (page : LeafPage) (highFence : Key) (snapshotVersion : UInt64) :
    Option LeafPage :=
  if page.header.isCacheOnlyLeaf || page.isBasePage then
    page.consolidateInner .insert (some highFence) true page.header.isCacheOnlyLeaf none
      snapshotVersion
  else none

/-! ## Split -/

/-- What a record takes, with its slot. -/
def slotSize (m : PackedMeta) : UInt16 := m.getKeyLen + m.valueLen + UInt16.ofNat kvMetaSize

def getSplitKeyFrom (page : LeafPage) (cacheOnly : Bool) (splitTargetSize : UInt16) :
    (i : Nat) → (curSize : UInt16) → List PackedMeta → Option (Key × Nat)
  | _, _, [] => none
  | i, curSize, m :: ms =>
    let curSize := curSize + slotSize m
    if cacheOnly && i == 0 then page.getSplitKeyFrom cacheOnly splitTargetSize (i + 1) curSize ms
    else if splitTargetSize ≤ curSize then some (page.getFullKey m, i)
    else page.getSplitKeyFrom cacheOnly splitTargetSize (i + 1) curSize ms

def getSplitKey (page : LeafPage) (cacheOnly : Bool) : Option (Key × Nat) :=
  let dataSize := page.metaIter.foldl (fun size m => size + slotSize m) 0
  page.getSplitKeyFrom cacheOnly (dataSize / 2) 0 0 page.metaIter

def getKvNumBelowKey (page : LeafPage) (mergeSplitKey : Key) : Nat :=
  (page.metaIter.takeWhile fun m => page.getFullKey m < mergeSplitKey).length

/-- The records that go to the sibling; deleted ones are skipped. -/
def movedPairs (page : LeafPage) (newCurCount : Nat) : List (Key × Value × OpType) :=
  (page.metaIter.drop newCurCount).filterMap fun m =>
    if m.opType = .delete then none else some (page.getFullKey m, page.getValue m, .insert)

/-- In cache-only mode pages have no fences. -/
def initializeSibling (page sibling : LeafPage) (lowFenceKey : Key) (cacheOnly : Bool)
    (snapshotVersion : UInt64) : Option LeafPage :=
  let siblingSize := sibling.header.nodeSize.toNat
  if cacheOnly then
    sibling.initializePage [] [] siblingSize none false cacheOnly snapshotVersion
  else
    sibling.initializePage lowFenceKey page.getHighFenceKey siblingSize none true cacheOnly
      snapshotVersion

/-- What both splits do once they know where to cut. -/
def splitAtCount (page sibling : LeafPage) (newCurCount : Nat) (lowFenceKey splittingKey : Key)
    (cacheOnly : Bool) (snapshotVersion : UInt64) : Option (LeafPage × LeafPage) := do
  let sibling ← page.initializeSibling sibling lowFenceKey cacheOnly snapshotVersion
  let sibling ← sibling.insertAll 0 (page.movedPairs newCurCount)
  let count := if cacheOnly then newCurCount else newCurCount + fenceKeyCnt
  let page := { page with header := page.header.setValueCount (UInt16.ofNat count) }
  let left ← page.consolidateAfterSplit splittingKey snapshotVersion
  some (left, sibling)

/-- The kind of page a split accepts. -/
def splittable (page : LeafPage) (cacheOnly : Bool) : Bool :=
  if cacheOnly then page.header.isCacheOnlyLeaf && !page.hasFence
  else page.isBasePage && page.hasFence

def split (page sibling : LeafPage) (cacheOnly : Bool) (snapshotVersion : UInt64) :
    Option (Key × LeafPage × LeafPage) := do
  guard (page.splittable cacheOnly)
  let (splittingKey, newCurCount) ← page.getSplitKey cacheOnly
  let lowFenceForRight := page.getKvMeta (fenceKeyCnt + newCurCount)
  guard (cacheOnly ∨ ¬ lowFenceForRight.isInfiniteLowFenceKey)
  let (left, sibling) ← page.splitAtCount sibling newCurCount (page.getFullKey lowFenceForRight)
    splittingKey cacheOnly snapshotVersion
  some (splittingKey, left, sibling)

/-- The low fence as it is stored, infinite or not. -/
def getLowFenceFullKey (page : LeafPage) : Key :=
  let m := page.getKvMeta lowFenceIdx
  page.data.read m.offset.toNat m.getKeyLen.toNat

def splitWithKey (page sibling : LeafPage) (mergeSplitKey : Key) (cacheOnly : Bool)
    (snapshotVersion : UInt64) : Option (LeafPage × LeafPage) := do
  guard (page.splittable cacheOnly)
  let newCurCount := page.getKvNumBelowKey mergeSplitKey
  let (left, sibling) ← page.splitAtCount sibling newCurCount mergeSplitKey mergeSplitKey cacheOnly
    snapshotVersion
  guard (cacheOnly ∨ left.getFullKey (left.getKvMeta highFenceIdx) = mergeSplitKey ∧
    sibling.getLowFenceFullKey = mergeSplitKey)
  some (left, sibling)

/-! ## Read -/

/-- Reads a key and marks the slot it lands on as referenced. -/
def readByKey (page : LeafPage) (searchKey : Key) (outBuffer : List UInt8) :
    Option (LeafNode.LeafReadResult × List UInt8 × LeafPage) := do
  let pos ← page.lowerBound searchKey
  if page.metaCountWithFence ≤ pos then some (.notFound, outBuffer, page)
  else
    let m := page.getKvMeta pos
    let page' := page.writeInitialKvMeta pos m.markAsRef
    if page.getRemainingKey m = searchKey.drop page.prefixLen.toNat then
      if m.opType.isAbsent then some (.deleted, outBuffer, page')
      else do
        let outBuffer' ← LeafNode.copyFromSlice outBuffer (page.getValue m)
        some (.found m.valueLen.toNat, outBuffer', page')
    else some (.notFound, outBuffer, page')

end LeafPage

end BfTree
