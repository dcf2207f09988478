import BfTree.Lib.Prog
import BfTree.Config
import BfTree.Nodes.LeafRebuild
import BfTree.Nodes.InnerNode
import BfTree.Snapshot.State

/-!
# Leaf storage

Where a leaf lives, and the state that one exclusively locked page-table entry
works on. A leaf is a base page on disk, alone or under a mini page that holds the
newest records, or under a full page that caches it whole.
-/

namespace BfTree

open Lib

inductive TreeError where
  | locked
  | circularBufferFull
  | needRestart
deriving DecidableEq, Repr

/-- A mini or full page is owned by its page-table entry, so the entry holds the
page itself. -/
inductive PageLocation where
  | mini (page : LeafNode)
  | full (page : LeafNode)
  | base (offset : Nat)
  | null
deriving DecidableEq

/-- The disk offset of the base page. -/
def PageLocation.offset : PageLocation → Option Nat
  | .base offset => some offset
  | .mini page | .full page => page.nextLevel
  | .null => none

/-! ## Snapshot guards -/

def invalidSnapshotVersion : Nat := (2 ^ 64 - 1) / 2

/-- `CPRSnapshotGuard`; `slot` is `none` when snapshots are disabled. -/
structure SnapshotGuard where
  slot : Option Nat
  version : Nat
  phase : PhaseId
deriving DecidableEq

namespace SnapshotGuard

def unprotected : SnapshotGuard := ⟨none, invalidSnapshotVersion, .rest⟩

def isProtected (g : SnapshotGuard) : Bool := g.slot.isSome

/-- In prepare a thread backs off from a newer page. -/
def refuses (g : SnapshotGuard) (pageVersion : Nat) : Bool :=
  g.isProtected && (g.phase = .prepare && g.version < pageVersion)

end SnapshotGuard

/-- What a transaction records for the running snapshot. -/
inductive Capture where
  | basePage (pid : Nat) (page : LeafNode)
  | miniPage (pid : Nat) (page : LeafNode)
  | innerNode (ptr : Nat) (node : InnerNode)
  | rootPage (pid : PageID)
deriving DecidableEq

/-! ## The outcomes of the outside world

Locks, the circular buffer, the slot reservation and the dice decide within one
attempt whether a call goes through; `none` is success. -/

structure Env where
  /-- `get_snapshot_guard` at the start of an insert; `none` is its refusal. -/
  snapshotGuard : Option SnapshotGuard
  /-- `get_snapshot_guard` before a split during a merge. -/
  mergeGuard : Option SnapshotGuard
  parentCheckVersion : Option TreeError
  parentUpgrade : Option TreeError
  beginDealloc : Option TreeError
  allocMiniPage : Option TreeError

/-- Return early with the error of a refused call. -/
def attempt {σ : Type} (outcome : Option TreeError) : Prog σ TreeError Unit :=
  match outcome with
  | none => pure ()
  | some e => Prog.fail e

/-- A lock word that is taken or has changed. -/
def checkLock (unchanged : Bool) : Option TreeError :=
  if unchanged then none else some .locked

/-! ## A locked page-table entry -/

structure TmpBuffer where
  isDirty : Bool
  page : LeafNode
deriving DecidableEq

/-- The parent a descent came through. -/
structure Parent where
  ptr : Nat
  node : InnerNode
deriving DecidableEq

/-- `LeafEntryXLocked`, with what its transactions reach from there: the disk, the
parent, the id and the disk offset that a new leaf gets, and the new leaf. The source
keeps no history: `inserted` notes every separator a split puts into an inner node,
with the node before. -/
structure LeafEntry where
  pid : Nat
  loc : PageLocation
  tmpBuffer : Option TmpBuffer
  vfs : Nat → Option LeafNode
  parent : Option Parent
  nextPid : Nat
  nextOffset : Nat
  sibling : Option PageLocation
  captures : List (Nat × Capture)
  inserted : List (InnerNode × Key)

namespace LeafEntry

abbrev M := Prog LeafEntry TreeError

def setLoc (loc : PageLocation) : M Unit :=
  Prog.modify fun t => { t with loc := loc }

def setBuffer (b : TmpBuffer) : M Unit :=
  Prog.modify fun t => { t with tmpBuffer := some b }

def setParent (p : Parent) : M Unit :=
  Prog.modify fun t => { t with parent := some p }

/-- A split gives the parent a new child. -/
def insertParent (p : Parent) (key : Key) (child : PageID) : M Unit :=
  Prog.modify fun t => { t with
    parent := some { p with node := (p.node.insert key child).2 }
    inserted := t.inserted ++ [(p.node, key)] }

/-- Append to the mappings of a thread slot. -/
def record (slot : Nat) (c : Capture) : M Unit :=
  Prog.modify fun t => { t with captures := t.captures ++ [(slot, c)] }

/-- `snapshot_root_page`. The root id 0 counts as not set, any other one must not
change. -/
def recordRoot (slot : Nat) (pid : PageID) : M Unit := do
  let t ← Prog.get
  Prog.assert (t.captures.all fun c =>
    match c.2 with
    | .rootPage q => q = .id 0 ∨ q = pid
    | _ => true)
  record slot (.rootPage pid)

def offset (t : LeafEntry) : Option Nat := t.loc.offset

/-- The base page at `offset`, through the temporary buffer. -/
def loadBasePage (offset : Nat) : M LeafNode := do
  let t ← Prog.get
  match t.tmpBuffer with
  | some b => pure b.page
  | none =>
    let page ← Prog.unwrap (t.vfs offset)
    setBuffer ⟨false, page⟩
    pure page

/-- Panics if no base page has been loaded. -/
def loadBasePageFromBuffer : M LeafNode := do
  let t ← Prog.get
  let b ← Prog.unwrap t.tmpBuffer
  pure b.page

/-- Write access to the base page makes the buffer dirty. -/
def loadBasePageMut : M LeafNode := do
  let t ← Prog.get
  match t.tmpBuffer with
  | some b =>
    setBuffer ⟨true, b.page⟩
    pure b.page
  | none =>
    let offset ← Prog.unwrap t.offset
    let page ← Prog.unwrap (t.vfs offset)
    setBuffer ⟨true, page⟩
    pure page

/-- The change made through the reference that `load_base_page_mut` returned. -/
def writeBase (page : LeafNode) : M Unit :=
  setBuffer ⟨true, page⟩

/-- Dropping the entry writes a dirty buffer to the offset the page has by then. -/
def flush (t : LeafEntry) : Option LeafEntry :=
  match t.tmpBuffer with
  | some ⟨true, page⟩ =>
    t.offset.map fun offset => { t with vfs := Function.update t.vfs offset (some page) }
  | _ => some t

def changeToBaseLoc : M Unit := do
  let t ← Prog.get
  match t.loc with
  | .mini page | .full page =>
    let offset ← Prog.unwrap page.nextLevel
    setLoc (.base offset)
  | .base _ | .null => Prog.crash

end LeafEntry

end BfTree
