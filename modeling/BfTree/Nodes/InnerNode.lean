import BfTree.Nodes.LeafNode

/-!
# BfTree.Nodes.InnerNode — inner nodes

An inner node has one child more than it has separators: the left-most child for
keys below the first separator, and with every separator the child for the keys
from it on. A node is modelled by its separators with their children and by its
free space. Slot 0 of the source holds the left-most child under a dummy key; slot
`i + 1` is entry `i` of `records`.
-/

namespace BfTree

open Lib

/-- A page id is the id of a leaf in the page table or the address of an inner
node. -/
inductive PageID where
  | id (n : Nat)
  | inner (ptr : Nat)
  deriving DecidableEq, Repr

def PageID.isLeaf : PageID → Bool
  | .id _ => true
  | .inner _ => false

def innerNodeSize : Nat := 4096

def innerHeaderSize : Nat := 32

def keyLookAheadSize : Nat := 4

def pageIdSize : Nat := 8

def innerKvMetaSize : Nat := 8

structure InnerNode where
  childrenIsLeaf : Bool
  splitFlag : Bool
  remainingSize : Nat
  isRoot : Bool
  snapshotVersion : Nat
  leftMost : PageID
  records : List (Key × PageID)
  deriving DecidableEq

namespace InnerNode

def maxDataSize : Nat := innerNodeSize - innerHeaderSize

/-- Bytes a separator takes with its child and its slot; the look-ahead bytes are
part of the slot. -/
def recordSize (key : Key) : Nat :=
  max key.length keyLookAheadSize - keyLookAheadSize + pageIdSize + innerKvMetaSize

/-- A node without separators. -/
def reinitialize (leftMost : PageID) (childrenIsLeaf isRoot : Bool) (snapshotVersion : Nat) :
    InnerNode where
  childrenIsLeaf := childrenIsLeaf
  splitFlag := false
  remainingSize := maxDataSize - (pageIdSize + innerKvMetaSize)
  isRoot := isRoot
  snapshotVersion := snapshotVersion
  leftMost := leftMost
  records := []

/-- Separator against search key: four look-ahead bytes first, the rest only on a
tie and only if either key has more. -/
def keyCompare (separator key : Key) : Ordering :=
  let cmp := lexCmp (separator.take keyLookAheadSize) (key.take keyLookAheadSize)
  if cmp = .eq ∧ (keyLookAheadSize < separator.length ∨ key.drop keyLookAheadSize ≠ []) then
    lexCmp (separator.drop keyLookAheadSize) (key.drop keyLookAheadSize)
  else cmp

def slotTest (records : List (Key × PageID)) (key : Key) (slot : Nat) : Ordering :=
  match records[slot - 1]? with
  | some r => keyCompare r.1 key
  | none => .gt

/-- Slot of the child that is responsible for the key. -/
def lowerBound (n : InnerNode) (key : Key) : Nat :=
  match binarySearch (slotTest n.records key) n.records.length 1 (n.records.length + 1) with
  | .ok mid => mid
  | .error lower => lower - 1

/-- Child in a slot. -/
def getValue (n : InnerNode) : Nat → Option PageID
  | 0 => some n.leftMost
  | i + 1 => n.records[i]?.map Prod.snd

def haveSpaceFor (n : InnerNode) (key : Key) : Bool :=
  recordSize key ≤ n.remainingSize

/-- False if there is no room; a separator that is already there gets the new
child. -/
def insert (n : InnerNode) (key : Key) (child : PageID) : Bool × InnerNode :=
  if n.remainingSize < recordSize key then (false, n)
  else
    let pos := n.lowerBound key
    if 0 < pos ∧ n.records[pos - 1]?.any fun r => keyCompare r.1 key = .eq then
      (true, { n with records := n.records.modify (pos - 1) fun r => (r.1, child) })
    else
      (true, { n with
        records := n.records.insertIdx pos (key, child)
        remainingSize := n.remainingSize - recordSize key })

/-- Insert in order, whatever the single inserts say. -/
def insertPairs (n : InnerNode) (pairs : List (Key × PageID)) : InnerNode :=
  pairs.foldl (fun n r => (n.insert r.1 r.2).2) n

/-- Rewrite the node without holes. The root flag stays. -/
def consolidate (n : InnerNode) (snapshotVersion : Nat) : InnerNode :=
  ( reinitialize n.leftMost n.childrenIsLeaf n.isRoot snapshotVersion).insertPairs n.records

/-- `InnerNodeBuilder::build`; every insert has to succeed. -/
def build (leftMost : PageID) (childrenIsLeaf : Bool) (records : List (Key × PageID))
    (snapshotVersion : Nat) : Option InnerNode :=
  records.foldlM (fun n r => if (n.insert r.1 r.2).1 then some (n.insert r.1 r.2).2 else none)
    ( reinitialize leftMost childrenIsLeaf false snapshotVersion)

/-- Slot at which a split cuts. -/
def splitPos (n : InnerNode) : Nat :=
  (n.records.length + 1) - (n.records.length + 1) / 2

def getSplitKey (n : InnerNode) : Option Key :=
  n.records[n.splitPos - 1]?.map Prod.fst

/-- What goes to the sibling's builder: its left-most child and its records. -/
def split (n : InnerNode) (snapshotVersion : Nat) :
    Option (Key × InnerNode × PageID × List (Key × PageID)) := do
  let (splitKey, splitValue) ← n.records[n.splitPos - 1]?
  let left := { n with records := n.records.take (n.splitPos - 1) }.consolidate snapshotVersion
  some (splitKey, left, splitValue, n.records.drop n.splitPos)

end InnerNode

end BfTree
