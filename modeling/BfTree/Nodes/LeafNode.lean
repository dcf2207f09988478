import BfTree.Lib.Lex
import BfTree.Lib.BinarySearch
import BfTree.Lib.KeyedList

/-!
# BfTree.Nodes.LeafNode — leaf pages

One page type serves base pages, full pages and mini pages. The model keeps a
page at the level of its records: the metas after the two fence keys, in slot
order, each with the key bytes that are stored (the key without the page's
common initial part), its value, its op type and its reference bit. The space
accounting (`nodeSize`, `remainingSize`) is explicit, because growth in place
and deletion leave holes that only a consolidation gives back.

A function that can panic returns `Option`; `none` is the panic. Sizes are
natural numbers: keys have at most 2020 bytes, values at most 16332 and pages at
most 32768, so no 16-bit page counter wraps. The sums over whole pages in the
split-key searches can exceed 16 bits and wrap there as release code does.
-/

namespace BfTree

open Lib

abbrev Key := List UInt8

abbrev Value := List UInt8

/-! ## Records -/

inductive OpType where
  | insert
  | delete
  /-- The clean version of insert. -/
  | cache
  /-- The clean version of delete. -/
  | phantom
  deriving DecidableEq, Repr

namespace OpType

def isDirty : OpType → Bool
  | insert | delete => true
  | cache | phantom => false

def isAbsent : OpType → Bool
  | insert | cache => false
  | phantom | delete => true

def isCache : OpType → Bool
  | cache | phantom => true
  | insert | delete => false

end OpType

def previewSize : Nat := 2

def kvMetaSize : Nat := 8

/-- Size of the page header. -/
def leafHeaderSize : Nat := 32

/-- Length of the longest common initial part of the two fences. -/
def commonPrefixLen : Key → Key → Nat
  | a :: low, b :: high => if a = b then commonPrefixLen low high + 1 else 0
  | _, _ => 0

/-- The first bytes of a stored key, filled up with zeros. -/
def previewOf (remainingKey : Key) : List UInt8 :=
  remainingKey.take previewSize ++ List.replicate (previewSize - remainingKey.length) 0

/-- A record slot together with the bytes it points to. The preview is written
once, with the key, and always shows that key. -/
structure LeafKVMeta where
  opType : OpType
  referenced : Bool
  previewBytes : List UInt8
  remainingKey : Key
  value : Value
  preview_eq : previewBytes = previewOf remainingKey
  deriving DecidableEq

/-- A new slot is not referenced. -/
def LeafKVMeta.makePrefixedMeta (value : Value) (key : Key) (prefixLen : Nat) (opType : OpType) :
    LeafKVMeta where
  opType := opType
  referenced := false
  previewBytes := previewOf (key.drop prefixLen)
  remainingKey := key.drop prefixLen
  value := value
  preview_eq := rfl

/-! ## Pages -/

/-- A leaf page. An empty fence is the infinite fence; a page without fences has
both empty. `nextLevel` is the disk offset of the base page behind a mini or full
page, `none` for a base page and in cache-only mode. -/
structure LeafNode where
  nodeSize : Nat
  remainingSize : Nat
  hasFence : Bool
  splitFlag : Bool
  isCacheOnlyLeaf : Bool
  prefixLen : Nat
  nextLevel : Option Nat
  snapshotVersion : Nat
  versionChanged : Bool
  lowFence : Key
  highFence : Key
  metas : List LeafKVMeta
  deriving DecidableEq

namespace LeafNode

def maxDataSize (nodeSize : Nat) : Nat := nodeSize - leafHeaderSize

/-- The key bytes that all keys of the page share and that are stored once, in
the low fence. -/
def getPrefix (p : LeafNode) : Key := p.lowFence.take p.prefixLen

def getFullKey (p : LeafNode) (m : LeafKVMeta) : Key := p.getPrefix ++ m.remainingKey

/-- Full key length of a record. -/
def getKeyLen (p : LeafNode) (m : LeafKVMeta) : Nat := p.prefixLen + m.remainingKey.length

/-- Base pages are leaf pages without next pointer in non cache-only mode. -/
def isBasePage (p : LeafNode) : Bool := !p.isCacheOnlyLeaf && p.nextLevel.isNone

def initializeNode (lowFence highFence : Key) (nodeSize : Nat) (nextLevel : Option Nat)
    (hasFence cacheOnly : Bool) (snapshotVersion : Nat) : LeafNode :=
  if hasFence then
    let prefixLen := commonPrefixLen lowFence highFence
    { nodeSize := nodeSize
      -- each fence takes a slot; the low fence is stored whole, the high one cut
      remainingSize := maxDataSize nodeSize - kvMetaSize - lowFence.length
        - kvMetaSize - (highFence.length - prefixLen)
      hasFence := true, splitFlag := false, isCacheOnlyLeaf := cacheOnly
      prefixLen := prefixLen, nextLevel := nextLevel
      snapshotVersion := snapshotVersion, versionChanged := false
      lowFence := lowFence, highFence := highFence, metas := [] }
  else
    { nodeSize := nodeSize
      remainingSize := maxDataSize nodeSize
      hasFence := false, splitFlag := false, isCacheOnlyLeaf := cacheOnly
      prefixLen := 0, nextLevel := nextLevel
      snapshotVersion := snapshotVersion, versionChanged := false
      lowFence := [], highFence := [], metas := [] }

def makeBasePage (nodeSize snapshotVersion : Nat) : LeafNode :=
  initializeNode [] [] nodeSize none true false snapshotVersion

def initializeMiniPage (nodeSize : Nat) (nextLevel : Option Nat) (cacheOnly : Bool)
    (snapshotVersion : Nat) : LeafNode :=
  initializeNode [] [] nodeSize nextLevel false cacheOnly snapshotVersion

def setSnapshotVersion (p : LeafNode) (snapshotVersion : Nat) (markChanged : Bool) : LeafNode :=
  { p with snapshotVersion := snapshotVersion, versionChanged := markChanged }

def clearSnapshotVersionChangedFlag (p : LeafNode) : LeafNode :=
  { p with versionChanged := false }

def setSplitFlag (p : LeafNode) : LeafNode :=
  { p with splitFlag := true }

/-! ## Search -/

/-- Orders a record against a search key: two preview bytes first, the stored
bytes on a tie. `suffix` is the search key without the page's common part. -/
def keyCmp (m : LeafKVMeta) (suffix : Key) : Ordering :=
  (lexCmp (m.previewBytes.take (min previewSize m.remainingKey.length))
    (suffix.take (min suffix.length previewSize))).then (lexCmp m.remainingKey suffix)

/-- Three-way test of slot `i`; the search never leaves the slots. -/
def slotTest (metas : List LeafKVMeta) (suffix : Key) (i : Nat) : Ordering :=
  match metas[i]? with
  | some m => keyCmp m suffix
  | none => .gt

/-- Position of the first record whose key is not below `key`, counted after the
fences. Slicing off the common part panics on a shorter key. -/
def lowerBound (p : LeafNode) (key : Key) : Option Nat :=
  if key.length < p.prefixLen then none
  else
    match binarySearch (slotTest p.metas (key.drop p.prefixLen)) p.metas.length 0 p.metas.length with
    | .ok mid => some mid
    | .error lower => some lower

/-- The linear search that a configuration may select for mini pages. -/
def linearLowerBound (p : LeafNode) (key : Key) : Option Nat :=
  if p.metas ≠ [] ∧ key.length < p.prefixLen then none
  else some (p.metas.takeWhile fun m => keyCmp m (key.drop p.prefixLen) = .lt).length

def searchPos (p : LeafNode) (key : Key) (useBinarySearch : Bool) : Option Nat :=
  if useBinarySearch then p.lowerBound key else p.linearLowerBound key

/-! ## Insert -/

/-- No room for `requestedSize` more bytes. A fenced page keeps `maxFenceLen`
bytes for the fences a later consolidation may install. -/
def fullWithFences (p : LeafNode) (requestedSize maxFenceLen : Nat) : Bool :=
  if p.remainingSize < requestedSize then true
  else if p.hasFence then
    let emptyDataSize := p.remainingSize + p.lowFence.length + p.highFence.length
    !decide (requestedSize + maxFenceLen ≤ emptyDataSize)
  else false

def setMeta (p : LeafNode) (pos : Nat) (m : LeafKVMeta) : LeafNode :=
  { p with metas := p.metas.set pos m }

/-- Insert over the record at `pos` that has the same key. A shorter or equal
value overwrites the old one, a longer one is put into the free space; the bytes
of the old one are lost until the next consolidation. -/
def insertExisting (p : LeafNode) (pos : Nat) (m : LeafKVMeta) (kvLen : Nat) (value : Value)
    (opType : OpType) : Option (Bool × LeafNode) :=
  if opType = .delete then
    some (true, p.setMeta pos { m with opType := .delete })
  else if value.length ≤ m.value.length then
    some (true, p.setMeta pos { m with value := value, opType := opType })
  else if p.remainingSize < kvLen then some (false, p)
  else if opType = .cache then none
  else some (true, { p.setMeta pos { m with value := value, opType := opType } with
    remainingSize := p.remainingSize - kvLen })

/-- Insert a key that is not in the page. Deleting a key that a base page does
not hold is done at once. -/
def insertNew (p : LeafNode) (pos : Nat) (kvLen : Nat) (key : Key) (value : Value)
    (opType : OpType) (maxFenceLen : Nat) : Bool × LeafNode :=
  if opType = .delete ∧ p.isBasePage then (true, p)
  else if p.fullWithFences (kvLen + kvMetaSize) maxFenceLen then (false, p)
  else (true, { p with
    metas := p.metas.insertIdx pos (LeafKVMeta.makePrefixedMeta value key p.prefixLen opType)
    remainingSize := p.remainingSize - (kvLen + kvMetaSize) })

/-- Returns true if the insert is successful, false if out of space. -/
def insert (p : LeafNode) (key : Key) (value : Value) (opType : OpType) (maxFenceLen : Nat) :
    Option (Bool × LeafNode) := do
  let pos ← p.lowerBound key
  let suffix := key.drop p.prefixLen
  let kvLen := suffix.length + value.length
  match p.metas[pos]? with
  | some m =>
    if m.remainingKey = suffix then p.insertExisting pos m kvLen value opType
    else some (p.insertNew pos kvLen key value opType maxFenceLen)
  | none => some (p.insertNew pos kvLen key value opType maxFenceLen)

/-- The loop `for (key, value, op) in pairs { assert!(self.insert(..)) }` of every
function that rebuilds a page. -/
def insertAll (p : LeafNode) (maxFenceLen : Nat) : List (Key × Value × OpType) → Option LeafNode
  | [] => some p
  | (key, value, opType) :: pairs =>
    match p.insert key value opType maxFenceLen with
    | some (true, p') => p'.insertAll maxFenceLen pairs
    | _ => none

/-! ## Read -/

/-- What a read finds in one page; a hit says how many bytes of the buffer it
wrote. -/
inductive LeafReadResult where
  | found (len : Nat)
  | deleted
  | notFound
  deriving DecidableEq, Repr

/-- Copies `value` to the front of the caller's buffer; panics if it is too
small. -/
def copyFromSlice (outBuffer : List UInt8) (value : Value) : Option (List UInt8) :=
  if value.length ≤ outBuffer.length then some (value ++ outBuffer.drop value.length) else none

/-- Reads a key and marks the slot it lands on as referenced, also when that slot
holds another key. -/
def readByKeyInner (p : LeafNode) (searchKey : Key) (outBuffer : List UInt8)
    (useBinarySearch : Bool) : Option (LeafReadResult × List UInt8 × LeafNode) := do
  let pos ← p.searchPos searchKey useBinarySearch
  match p.metas[pos]? with
  | none => some (.notFound, outBuffer, p)
  | some m =>
    let p' := p.setMeta pos { m with referenced := true }
    if m.remainingKey = searchKey.drop p.prefixLen then
      if m.opType.isAbsent then some (.deleted, outBuffer, p')
      else do
        let outBuffer' ← copyFromSlice outBuffer m.value
        some (.found m.value.length, outBuffer', p')
    else some (.notFound, outBuffer, p')

def readByKey (p : LeafNode) (searchKey : Key) (outBuffer : List UInt8) :
    Option (LeafReadResult × List UInt8 × LeafNode) :=
  p.readByKeyInner searchKey outBuffer true

end LeafNode

end BfTree
