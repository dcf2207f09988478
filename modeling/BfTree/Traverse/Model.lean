import BfTree.TreeShape
import BfTree.Utils.RwLock

/-!
# Optimistic descents

Every inner node has a version word. A writer adds 2 to it when it takes the node and
2 again when it gives the node back, so bit 1 tells whether a writer is active. A
descent takes no locks: it reads the version of a node, then checks that the node
above still has the version it was left with, and then reads the contents. Whatever it
reads from a node whose version has moved on is arbitrary; the next check finds out.
The leaf at the end is locked by the caller, who checks its parent once more.

Any number of threads descend and split nodes on their way. What a writer does to the
contents of nodes it has locked is one step here, as nobody else can observe it in
parts. A thread can give up at any point and then drops what it holds. Leaves are only
known by their fences; a leaf is split at a key strictly between them. Versions do not
wrap around.
-/

namespace BfTree

open Lib

/-- `is_locked` -/
def isLocked (version : Nat) : Bool := version &&& 0b10 == 0b10

theorem isLocked_iff {version : Nat} : isLocked version = true ↔ 2 ≤ version % 4 := by
  have hmod : version &&& 0b10 = version % 4 &&& 0b10 := by
    rw [show (4 : Nat) = 2 ^ 2 from rfl, ← Nat.and_two_pow_sub_one_eq_mod, Nat.and_assoc]
    rfl
  have hlt : version % 4 < 4 := Nat.mod_lt _ (by decide)
  rw [isLocked, hmod]
  generalize version % 4 = r at hlt
  revert r
  decide

theorem isLocked_add_two {version : Nat} : isLocked (version + 2) = !isLocked version := by
  rw [Bool.eq_iff_iff, Bool.not_eq_true', ← Bool.not_eq_true, isLocked_iff, isLocked_iff]
  omega

/-- What the threads share: the root, the inner nodes with their version words, and
the fences of the leaves. -/
structure Memory where
  root : PageID
  inners : List InnerNode
  versions : Nat → Nat
  leaves : List (Key × Key)

/-- A node and the version it had. -/
structure ReadGuard where
  node : PageID
  version : Nat

namespace Memory

/-- The value is what a load of the node's version may return. A page id that is not
the address of a node gives anything. -/
def Loads (m : Memory) (x : PageID) (v : Nat) : Prop :=
  ∀ ptr, x = .inner ptr → ptr < m.inners.length → m.versions ptr = v

/-- `check_parent!` passes. -/
def CheckParent (m : Memory) (node : PageID) : Option ReadGuard → Prop
  | some p => m.Loads p.node p.version
  | none => node = m.root

/-- The child that a descent for the key reads from a node. -/
def Reads (m : Memory) (g : ReadGuard) (key : Key) (child : PageID) (isLeaf : Bool) : Prop :=
  ∀ ptr n, g.node = .inner ptr → m.inners[ptr]? = some n → m.versions ptr = g.version →
    n.getValue (n.lowerBound key) = some child ∧ n.childrenIsLeaf = isLeaf

/-- A writer takes a node or gives it back. -/
def bump (m : Memory) (ptr : Nat) : Memory :=
  { m with versions := Function.update m.versions ptr (m.versions ptr + 2) }

/-- A leaf hands the keys from `key` on to a new leaf. -/
def splitFences (m : Memory) (pid : Nat) (fences : Key × Key) (key : Key) : List (Key × Key) :=
  m.leaves.set pid (fences.1, key) ++ [(key, fences.2)]

end Memory

/-- Where a thread is. `split` tells the steps of `try_split_inner` from those of the
descent itself. -/
inductive Thread where
  | idle
  /-- At the top of the loop of `traverse_to_leaf`. -/
  | top (key : Key) (cur : PageID) (isLeaf : Bool) (parent : Option ReadGuard)
  /-- The version of the node is read. -/
  | read (split : Bool) (key : Key) (cur : ReadGuard) (parent : Option ReadGuard)
  /-- The parent is checked. -/
  | checked (split : Bool) (key : Key) (cur : ReadGuard) (parent : Option ReadGuard)
  | lockedCur (key : Key) (ptr : Nat) (parent : Option ReadGuard)
  | lockedBoth (ptr parent : Nat)
  /-- The descent has returned and the leaf is locked. -/
  | lockedLeaf (mode : LockMode) (key : Key) (pid : Nat) (parent : Option ReadGuard)
  /-- The parent of the locked leaf is checked. -/
  | inLeaf (mode : LockMode) (key : Key) (pid : Nat) (parent : Option ReadGuard)
  /-- The parent of the locked leaf is locked too. -/
  | lockedParent (pid parent : Nat)
  /-- Guards that are still to be dropped. -/
  | releasing (nodes : List Nat) (leaves : List (Nat × LockMode))

namespace Thread

/-- The inner nodes the thread has taken. -/
def writes : Thread → List Nat
  | lockedCur _ ptr _ => [ptr]
  | lockedBoth ptr parent => [parent, ptr]
  | lockedParent _ parent => [parent]
  | releasing nodes _ => nodes
  | _ => []

/-- The leaves the thread has locked. -/
def leafLocks : Thread → List (Nat × LockMode)
  | lockedLeaf mode _ pid _ | inLeaf mode _ pid _ => [(pid, mode)]
  | lockedParent pid _ => [(pid, .exclusive)]
  | releasing _ leaves => leaves
  | _ => []

end Thread

/-- One step of a thread; `free` tells which leaf locks it can get. -/
inductive Move (free : LockMode → Nat → Prop) : Memory → Thread → Memory → Thread → Prop
  | start {m : Memory} (key : Key) : Move free m .idle m (.top key m.root m.root.isLeaf none)
  | tryRead {m : Memory} {key : Key} {cur : PageID} {parent : Option ReadGuard} (split : Bool)
      {v : Nat} (hload : m.Loads cur v) (hv : isLocked v = false) :
      Move free m (.top key cur false parent) m (.read split key ⟨cur, v⟩ parent)
  | check {m : Memory} {split : Bool} {key : Key} {cur : ReadGuard} {parent : Option ReadGuard}
      (hparent : m.CheckParent cur.node parent) :
      Move free m (.read split key cur parent) m (.checked split key cur parent)
  /-- The node is not marked for a split. -/
  | unmarked {m : Memory} {key : Key} {cur : ReadGuard} {parent : Option ReadGuard} :
      Move free m (.checked true key cur parent) m (.top key cur.node false parent)
  | descend {m : Memory} {key : Key} {cur : ReadGuard} {parent : Option ReadGuard}
      {child : PageID} {isLeaf : Bool} (hread : m.Reads cur key child isLeaf) :
      Move free m (.checked false key cur parent) m (.top key child isLeaf (some cur))
  | upgradeCur {m : Memory} {key : Key} {ptr v : Nat} {parent : Option ReadGuard}
      (hv : m.versions ptr = v) :
      Move free m (.checked true key ⟨.inner ptr, v⟩ parent) (m.bump ptr)
        (.lockedCur key ptr parent)
  | upgradeParent {m : Memory} {key : Key} {ptr par v : Nat} (hv : m.versions par = v) :
      Move free m (.lockedCur key ptr (some ⟨.inner par, v⟩)) (m.bump par)
        (.lockedBoth ptr par)
  /-- `try_split_inner` with a parent. -/
  | splitBelow {m : Memory} {ptr par ver : Nat} {n p left sibling : InnerNode} {key : Key}
      {next : PageID} {rest : List (Key × PageID)} (hn : m.inners[ptr]? = some n)
      (hp : m.inners[par]? = some p) (hsplit : n.split ver = some (key, left, next, rest))
      (hbuild : InnerNode.build next n.childrenIsLeaf rest ver = some sibling)
      (hspace : p.haveSpaceFor key = true) :
      Move free m (.lockedBoth ptr par)
        { m with
          inners := (m.inners.set par (p.insert key (.inner m.inners.length)).2).set ptr left ++
            [sibling]
          versions := Function.update m.versions m.inners.length 0 }
        (.releasing [par, ptr] [])
  /-- `try_split_inner` without one: the new root is taken before it is made the root. -/
  | splitRoot {m : Memory} {key : Key} {ptr ver : Nat} {n left sibling top : InnerNode}
      {splitKey : Key} {next : PageID} {rest : List (Key × PageID)} (hn : m.inners[ptr]? = some n)
      (hsplit : n.split ver = some (splitKey, left, next, rest))
      (hbuild : InnerNode.build next n.childrenIsLeaf rest ver = some sibling)
      (htop : InnerNode.build (.inner ptr) false [(splitKey, .inner m.inners.length)] ver =
        some top) :
      Move free m (.lockedCur key ptr none)
        { m with
          root := .inner (m.inners.length + 1)
          inners := m.inners.set ptr { left with isRoot := false } ++
            [sibling, { top with isRoot := true }]
          versions := Function.update (Function.update m.versions m.inners.length 0)
            (m.inners.length + 1) 2 }
        (.releasing [m.inners.length + 1, ptr] [])
  | lockLeaf {m : Memory} {key : Key} {pid : Nat} {parent : Option ReadGuard} (mode : LockMode)
      (hpid : pid < m.leaves.length) (hfree : free mode pid) :
      Move free m (.top key (.id pid) true parent) m (.lockedLeaf mode key pid parent)
  | checkLeaf {m : Memory} {mode : LockMode} {key : Key} {pid : Nat} {parent : Option ReadGuard}
      (hparent : m.CheckParent (.id pid) parent) :
      Move free m (.lockedLeaf mode key pid parent) m (.inLeaf mode key pid parent)
  | upgradeLeaf {m : Memory} {key : Key} {pid : Nat} {parent : Option ReadGuard}
      (hfree : free .exclusive pid) :
      Move free m (.inLeaf .shared key pid parent) m (.inLeaf .exclusive key pid parent)
  /-- The leaf is not marked for a split. -/
  | unmarkedLeaf {m : Memory} {mode : LockMode} {key : Key} {pid : Nat}
      {parent : Option ReadGuard} :
      Move free m (.inLeaf mode key pid parent) m (.top key (.id pid) true parent)
  /-- `try_split_leaf` -/
  | splitRootLeaf {m : Memory} {key : Key} {pid ver : Nat} {fences : Key × Key} {splitKey : Key}
      {top : InnerNode} (hpid : m.leaves[pid]? = some fences) (hlo : fences.1 < splitKey)
      (hhi : fences.2 = [] ∨ splitKey < fences.2)
      (htop : InnerNode.build (.id pid) true [(splitKey, .id m.leaves.length)] ver = some top) :
      Move free m (.inLeaf .exclusive key pid none)
        { root := .inner m.inners.length
          inners := m.inners ++ [{ top with isRoot := true }]
          versions := Function.update m.versions m.inners.length 0
          leaves := m.splitFences pid fences splitKey }
        (.releasing [] [(m.leaves.length, .exclusive), (pid, .exclusive)])
  | upgradeLeafParent {m : Memory} {key : Key} {pid par v : Nat} (hv : m.versions par = v) :
      Move free m (.inLeaf .exclusive key pid (some ⟨.inner par, v⟩)) (m.bump par)
        (.lockedParent pid par)
  /-- The split of a leaf that has a parent. -/
  | splitLeaf {m : Memory} {pid par : Nat} {fences : Key × Key} {splitKey : Key} {p : InnerNode}
      (hpid : m.leaves[pid]? = some fences) (hlo : fences.1 < splitKey)
      (hhi : fences.2 = [] ∨ splitKey < fences.2) (hp : m.inners[par]? = some p)
      (hspace : p.haveSpaceFor splitKey = true) :
      Move free m (.lockedParent pid par)
        { m with
          inners := m.inners.set par (p.insert splitKey (.id m.leaves.length)).2
          leaves := m.splitFences pid fences splitKey }
        (.releasing [par] [(m.leaves.length, .exclusive), (pid, .exclusive)])
  /-- Split flag and snapshot version of a node that the thread has taken. -/
  | relabel {m : Memory} {t : Thread} {ptr : Nat} {n n' : InnerNode} (hptr : ptr ∈ t.writes)
      (hn : m.inners[ptr]? = some n) (hsame : SameNode n n') :
      Move free m t { m with inners := m.inners.set ptr n' } t
  | unlockNode {m : Memory} {ptr : Nat} {nodes : List Nat} {leaves : List (Nat × LockMode)} :
      Move free m (.releasing (ptr :: nodes) leaves) (m.bump ptr) (.releasing nodes leaves)
  | unlockLeaf {m : Memory} {l : Nat × LockMode} {leaves : List (Nat × LockMode)} :
      Move free m (.releasing [] (l :: leaves)) m (.releasing [] leaves)
  | finish {m : Memory} : Move free m (.releasing [] []) m .idle
  /-- An error is returned. -/
  | fail {m : Memory} {t : Thread} : Move free m t m (.releasing t.writes t.leafLocks)

/-- The threads over the tree they share. -/
structure Descents (W : Type) where
  mem : Memory
  threads : W → Thread

namespace Descents

variable {W : Type}

/-- Thread `i` can lock the leaf. -/
def Free (s : Descents W) (i : W) (mode : LockMode) (pid : Nat) : Prop :=
  ∀ j, j ≠ i → ∀ mode', (pid, mode') ∈ (s.threads j).leafLocks → mode = .shared ∧ mode' = .shared

inductive Step [DecidableEq W] (s : Descents W) : Descents W → Prop
  | move {i : W} {m : Memory} {t : Thread} (h : Move (s.Free i) s.mem (s.threads i) m t) :
      Step s ⟨m, Function.update s.threads i t⟩

/-- A tree that nobody works on. -/
structure Quiescent (s : Descents W) : Prop where
  idle : ∀ i, s.threads i = .idle
  unlocked : ∀ ptr < s.mem.inners.length, isLocked (s.mem.versions ptr) = false
  shaped : ∃ sh, Shaped s.mem.root s.mem.inners s.mem.leaves.length sh ∧
    ∀ pid fences, s.mem.leaves[pid]? = some fences → sh.range (.id pid) = fences

end Descents

end BfTree
