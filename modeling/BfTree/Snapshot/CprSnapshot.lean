import BfTree.Lib.Bfs
import BfTree.Nodes.InnerSpec
import BfTree.Snapshot.SnapshotFile
import BfTree.Tree

/-!
# Writing a snapshot and recovering from it

The sweep visits a disk-backed tree that nobody works on and writes its nodes and pages to
the snapshot file, with mappings from their ids to their places. Recovery starts with the
inner nodes: it copies them in breadth-first order and lets them point to the copies.
-/

namespace BfTree

open Lib

/-- An id with an offset in the file. -/
abbrev Entry := PageID × Nat

/-- The mappings of a snapshot. -/
inductive MapKind where
  | inner
  | mini
  | base
deriving DecidableEq

namespace Tree

/-- The nodes that `BfsVisitor::next` appends to its queue. -/
def below (t : Tree) (innerNodesOnly : Bool) : PageID → List PageID
  | .id _ => []
  | .inner ptr =>
    match t.inners[ptr]? with
    | some n => if innerNodesOnly && n.childrenIsLeaf then [] else n.children
    | none => []

/-- The nodes in the order of `BfsVisitor`. -/
def bfsVisitor (t : Tree) (innerNodesOnly : Bool) : List PageID :=
  bfs (t.below innerNodesOnly) (t.inners.length + t.pages.length) [t.root]

/-! ## The sweep -/

/-- A page for one of the mappings, or the root id. -/
inductive SweepItem where
  | page (kind : MapKind) (id : PageID) (image : PageImage)
  | root (id : PageID)

variable (t : Tree) (version : Nat)

/-- The sweep leaves out what has the version of a later snapshot. -/
def older (pageVersion : Nat) (items : List SweepItem) : List SweepItem :=
  if pageVersion < version then items else []

def sweepRoot : Option (List SweepItem) :=
  match t.root with
  | .inner ptr => do
      let n ← t.inners[ptr]?
      some (older version n.snapshotVersion [.page .inner t.root (.inner n), .root t.root])
  | .id pid => do
      match ← t.pages[pid]? with
      | .base offset => do
          let p ← t.vfs offset
          some (older version p.snapshotVersion [.page .base t.root (.leaf p), .root t.root])
      | _ => none

/-- A leaf has to be at level 0, that is, the root. -/
def sweepInner : PageID → Option (List SweepItem)
  | .inner ptr => do
      let n ← t.inners[ptr]?
      some (older version n.snapshotVersion [.page .inner (.inner ptr) (.inner n)])
  | .id pid => if t.root = .id pid then some [] else none

/-- A full page is written as a base page, a mini page with the base page behind it. -/
def sweepLeaf (pid : Nat) : PageLocation → Option (List SweepItem)
  | .base offset => do
      let p ← t.vfs offset
      some (older version p.snapshotVersion [.page .base (.id pid) (.leaf p)])
  | .full p =>
      some (older version p.snapshotVersion
        [.page .base (.id pid) (.leaf { p with nextLevel := none })])
  | .mini p =>
      if version ≤ p.snapshotVersion then some []
      else do
        let base ← p.nextLevel.bind t.vfs
        if base.snapshotVersion < version then
          some [.page .mini (.id pid) (.leaf p), .page .base (.id pid) (.leaf base)]
        else none
  | .null => some []

/-- The root first, then the inner nodes, then the page table. -/
def sweep : Option (List SweepItem) := do
  let root ← t.sweepRoot version
  let inners ← (t.bfsVisitor true).mapM (t.sweepInner version)
  let leaves ← t.pages.zipIdx.mapM fun x => t.sweepLeaf version x.2 x.1
  some (root ++ (inners.flatten ++ leaves.flatten))

end Tree

/-- The snapshot file and the mappings as they grow. -/
structure Sweep where
  file : SnapshotFile
  maps : MapKind → List Entry
  root : Option PageID

def Sweep.start : Sweep := ⟨.reset, fun _ => [], none⟩

/-- A page is written and gets its entry. -/
def Sweep.take (s : Sweep) : Tree.SweepItem → Sweep
  | .page kind id image =>
      { s with
        file := s.file.snapshotPage image
        maps := fun k => s.maps k ++ if k = kind then [(id, s.file.nextAvailableOffset)] else [] }
  | .root id => { s with root := some id }

/-! ## Finalizing -/

/-- A hash map in which the first entry of every id stays. -/
def keepFirst (l : List Entry) : List Entry := l.reverse.pwFilter (·.1 ≠ ·.1)

/-- The order in which a hash map is iterated. -/
structure HashOrder where
  order : List Entry → List Entry
  perm : ∀ l, (order l).Perm l

/-- What the file holds: the root id, the mappings and the pages. -/
structure Snapshot where
  rootId : Option PageID
  maps : MapKind → List Entry
  file : SnapshotFile

/-- Each mapping is written without its duplicates. -/
def finalize (orders : MapKind → HashOrder) (s : Sweep) : Snapshot where
  rootId := s.root
  maps kind := (orders kind).order (keepFirst (s.maps kind))
  file := s.file

/-- `CPRSnapShotMgr::snapshot` of a tree at rest: the transactions have captured nothing. -/
def Tree.cprSnapshot (t : Tree) (version : Nat) (orders : MapKind → HashOrder) : Option Snapshot := do
  let items ← t.sweep (version + 1)
  some (finalize orders (items.foldl Sweep.take .start))

/-! ## Recovery -/

/-- `update_at_pos` for every position. -/
def InnerNode.updateChildren (n : InnerNode) (ids : List PageID) : InnerNode :=
  { n with
    leftMost := ids.headD n.leftMost
    records := n.records.zipWith (fun r id => (r.1, id)) ids.tail }

namespace Snapshot

variable (s : Snapshot)

/-- The page of an id, through a hash map that is filled from the mapping. -/
def load (kind : MapKind) (id : PageID) : Option PageImage :=
  ((s.maps kind).reverse.find? (·.1 = id)).bind fun e => s.file.read e.2

def loadInner (id : PageID) : Option InnerNode := (s.load .inner id).bind PageImage.asInner

/-- The captured inner nodes with the root flag. -/
def rootCnt : Nat :=
  (s.maps .inner).countP fun e => ((s.file.read e.2).bind PageImage.asInner).any (·.isRoot)

/-- The queue holds the addresses of the copies whose children are not resolved. Copies of the
children go to the end of the heap. -/
def resolve (load : PageID → Option InnerNode) :
    (fuel : Nat) → (queue : List Nat) → (heap : List InnerNode) → Option (List InnerNode)
  | _, [], heap => some heap
  | 0, _ :: _, _ => none
  | fuel + 1, ptr :: queue, heap => do
      let n ← heap[ptr]?
      if n.childrenIsLeaf then resolve load fuel queue heap
      else do
        let pages ← n.children.mapM load
        let ptrs := List.range' heap.length pages.length
        resolve load fuel (queue ++ ptrs)
          ((heap ++ pages).set ptr (n.updateChildren (ptrs.map .inner)))

/-- The first step of `new_from_snapshot`: the root id and the inner nodes. -/
def recoverInners : Option (PageID × List InnerNode) := do
  match ← s.rootId with
  | .id pid => some (.id pid, [])
  | .inner ptr => do
      guard (s.rootCnt = 1)
      let root ← s.loadInner (.inner ptr)
      let heap ← resolve s.loadInner (s.maps .inner).length [0] [{ root with isRoot := true }]
      some (.inner 0, heap)

end Snapshot

end BfTree
