import BfTree.RangeScan

/-!
# Invariants that descents keep

A descent may split nodes on its way. It writes inner nodes, notes them for a snapshot, may
put a new root on top, and looks at one leaf or splits it. An invariant of trees that
survives each of these survives every descent.
-/

namespace BfTree

open Lib

namespace Tree

variable {I : Tree → Prop} {α β : Type}

/-- The program keeps the invariant. -/
abbrev KeepsInv (I : Tree → Prop) (m : M α) : Prop := Prog.Holds I (fun _ => True) m

/-- What an invariant has to survive. -/
structure Stable (I : Tree → Prop) : Prop where
  inners : ∀ t ns, I t → I { t with inners := ns }
  captures : ∀ t cs, I t → I { t with captures := cs }
  inserted : ∀ t ns xs, I t → I { t with inners := ns, inserted := xs }
  root : ∀ t ptr, I t → I { t with root := .inner ptr }
  getSplitFlag : ∀ pid parent, KeepsInv I (withLeaf pid parent LeafEntry.getSplitFlag)
  splitRootLeaf : ∀ t env g pid, I t →
    KeepsInv I (withLeaf pid none (LeafEntry.splitRootLeaf t.config env g))

theorem keeps_attempt (outcome : Option TreeError) : KeepsInv I (attempt outcome) := by
  cases outcome with
  | none => exact .pure trivial
  | some e => exact .fail e

theorem keeps_takeGuard (guard : Option SnapshotGuard) : KeepsInv I (takeGuard guard) := by
  cases guard with
  | none => exact .fail _
  | some g => exact .pure trivial

theorem keeps_forM {f : β → M PUnit} (hf : ∀ b, KeepsInv I (f b)) (l : List β) :
    KeepsInv I (l.forM f) := by
  induction l with
  | nil => exact .pure trivial
  | cons b l ih => exact .bind (hf b) fun _ _ => ih

theorem keeps_getInner (ptr : Nat) : KeepsInv I (getInner ptr) :=
  .bind .get fun _ _ => (Prog.Holds.unwrap _).mono fun _ _ => trivial

namespace Stable

variable (h : Stable I)
include h

theorem setInner (ptr : Nat) (n : InnerNode) : KeepsInv I (Tree.setInner ptr n) :=
  .modify fun t => h.inners t _

theorem allocInner (n : InnerNode) : KeepsInv I (Tree.allocInner n) :=
  .bind .get fun _ _ => .bind (.modify fun t => h.inners t _) fun _ _ => .pure trivial

theorem installRoot (n : InnerNode) : KeepsInv I (Tree.installRoot n) :=
  .bind (h.allocInner _) fun _ _ => .modify fun t => h.root t _

theorem record (slot : Nat) (c : Capture) : KeepsInv I (Tree.record slot c) :=
  .modify fun t => h.captures t _

theorem recordInner (slot ptr : Nat) (n : InnerNode) (isRoot : Bool) :
    KeepsInv I (Tree.recordInner slot ptr n isRoot) := by
  refine .bind (h.record _ _) fun _ _ => .ite (fun _ => ?_) fun _ => .pure trivial
  refine .bind .get fun _ _ => .bind (.assert _) fun _ _ => .bind (.assert _) fun _ _ => ?_
  exact .bind (.assert _) fun _ _ => h.record _ _

theorem liftInner (g : SnapshotGuard) (ptr : Nat) (isRoot : Bool) (save : Option Nat) :
    KeepsInv I (Tree.liftInner g ptr isRoot save) := by
  refine .bind (keeps_getInner _) fun n _ => .ite (fun _ => ?_) fun _ => .pure trivial
  cases save with
  | none => exact h.setInner _ _
  | some slot => exact .bind (h.recordInner _ _ _ _) fun _ _ => h.setInner _ _

theorem versionRuleInner (g : SnapshotGuard) (nodes : List (Nat × Bool)) :
    KeepsInv I (Tree.versionRuleInner g nodes) := by
  unfold Tree.versionRuleInner
  refine .bind .get fun t _ => ?_
  cases g.slot with
  | none => exact .pure trivial
  | some slot =>
    cases g.phase with
    | rest => exact keeps_forM (fun _ => h.liftInner _ _ _ _) _
    | prepare => exact .ite (fun _ => .fail _) fun _ => .pure trivial
    | inProgress => exact keeps_forM (fun _ => h.liftInner _ _ _ _) _
    | sweep => exact keeps_forM (fun _ => h.liftInner _ _ _ _) _

theorem insertSeparator (parent : Nat) (key : Key) (child : PageID) :
    KeepsInv I (Tree.insertSeparator parent key child) := by
  refine .bind (keeps_getInner _) fun n _ => .ite (fun _ => .modify fun t => h.inserted t _ _) fun _ => ?_
  exact .bind (h.setInner _ _) fun _ _ => .fail _

theorem splitInner (env : AttemptEnv) (g : SnapshotGuard) (ptr : Nat) (parent : Option Nat) :
    KeepsInv I (Tree.splitInner env g ptr parent) := by
  cases parent with
  | some parent =>
    refine .bind (keeps_attempt _) fun _ _ => .bind (keeps_attempt _) fun _ _ => ?_
    refine .bind (keeps_getInner _) fun _ _ => .bind (h.versionRuleInner _ _) fun _ _ => ?_
    refine .bind (keeps_getInner _) fun _ _ => .bind (.unwrap _) fun _ _ => .bind .get fun _ _ => ?_
    refine .bind (h.insertSeparator _ _ _) fun _ _ => .bind (.unwrap _) fun _ _ => ?_
    refine .bind (h.setInner _ _) fun _ _ => .bind (.unwrap _) fun _ _ => ?_
    exact .bind (h.allocInner _) fun _ _ => .pure trivial
  | none =>
    refine .bind (keeps_attempt _) fun _ _ => .bind (h.versionRuleInner _ _) fun _ _ => ?_
    refine .bind (keeps_getInner _) fun _ _ => .bind (.unwrap _) fun _ _ => ?_
    refine .bind (h.setInner _ _) fun _ _ => .bind (.unwrap _) fun _ _ => ?_
    refine .bind (h.allocInner _) fun _ _ => .bind (.unwrap _) fun _ _ => ?_
    exact h.installRoot _

theorem splitLeaf (env : AttemptEnv) (g : SnapshotGuard) (pid : Nat) :
    KeepsInv I (Tree.splitLeaf env g pid) := by
  refine .bind .get fun t ht => .bind (h.splitRootLeaf t env g pid ht) fun _ _ => ?_
  exact .bind (.unwrap _) fun _ _ => h.installRoot _

theorem trySplitLeaf (env : AttemptEnv) (pid : Nat) (parent : Option Nat) :
    KeepsInv I (Tree.trySplitLeaf env pid parent) := by
  refine .bind (h.getSplitFlag _ _) fun flag _ => .ite (fun _ => .pure trivial) fun _ => ?_
  refine .bind (keeps_takeGuard _) fun g _ => .bind (.assert _) fun _ _ => ?_
  exact .bind (h.splitLeaf env g pid) fun _ _ => .pure trivial

theorem trySplitInner (env : AttemptEnv) (ptr : Nat) (parent : Option Nat) :
    KeepsInv I (Tree.trySplitInner env ptr parent) := by
  refine .bind (keeps_getInner _) fun n _ => .ite (fun _ => .pure trivial) fun _ => ?_
  refine .bind (keeps_takeGuard _) fun g _ => ?_
  exact .bind (h.splitInner env g ptr parent) fun _ _ => .pure trivial

theorem splitMarked (env : AttemptEnv) (aggressive : Bool) (cur : PageID) (isLeaf : Bool)
    (parent : Option Nat) : KeepsInv I (Tree.splitMarked env aggressive cur isLeaf parent) := by
  have htry : KeepsInv I (Tree.trySplit env cur isLeaf parent) := by
    cases cur with
    | id pid =>
      cases isLeaf with
      | false => exact .crash
      | true => exact h.trySplitLeaf env pid parent
    | inner ptr =>
      cases isLeaf with
      | true => exact .pure trivial
      | false => exact h.trySplitInner env ptr parent
  refine .ite (fun _ => .bind htry fun _ _ => ?_) fun _ => .pure trivial
  exact .ite (fun _ => .fail _) fun _ => .pure trivial

theorem traverseFrom (env : AttemptEnv) (key : Key) (aggressive : Bool) (fuel : Nat) :
    ∀ (cur : PageID) (isLeaf : Bool) (parent : Option Nat) (highFence : Key),
      KeepsInv I (Tree.traverseFrom env key aggressive fuel cur isLeaf parent highFence) := by
  induction fuel with
  | zero => exact fun _ _ _ _ => .crash
  | succ fuel ih =>
    intro cur isLeaf parent highFence
    unfold Tree.traverseFrom
    refine .bind (h.splitMarked env aggressive cur isLeaf parent) fun _ _ => ?_
    cases cur with
    | id pid =>
      cases isLeaf with
      | true => exact .pure trivial
      | false => exact .crash
    | inner ptr =>
      cases isLeaf with
      | true => exact .crash
      | false => exact .bind (keeps_getInner _) fun n _ => .bind (.unwrap _) fun next _ => ih _ _ _ _

theorem traverseToLeaf (env : AttemptEnv) (key : Key) (aggressive : Bool) :
    KeepsInv I (Tree.traverseToLeaf env key aggressive) :=
  .bind (keeps_attempt _) fun _ _ => .bind .get fun _ _ => h.traverseFrom env key aggressive _ _ _ _ _

theorem moveCursorToLeaf (env : AttemptEnv) (key : Key) (aggressive : Bool)
    (hleaf : ∀ t pid parent, I t →
      KeepsInv I (withLeaf pid parent (LeafEntry.moveCursor t.config env key))) :
    KeepsInv I (Tree.moveCursorToLeaf env key aggressive) := by
  refine .bind (h.traverseToLeaf env key aggressive) fun landing _ => .bind .get fun t ht => ?_
  exact .bind (hleaf t _ _ ht) fun _ _ => .pure trivial

theorem evictionCallback (e : Eviction)
    (hleaf : ∀ t pid parent, I t →
      KeepsInv I (withLeaf pid parent (LeafEntry.evict t.config e.env.leaf))) :
    KeepsInv I (Tree.evictionCallback e) := by
  have hkey : KeepsInv I (evictionKey e) := by
    refine .bind .get fun t _ => ?_
    split
    all_goals try exact .fail _
    all_goals
      split
      · exact .pure trivial
      · exact .ite (fun _ => .fail _) fun _ => .pure trivial
  refine .bind hkey fun key _ => .bind (h.traverseToLeaf _ _ _) fun landing _ => ?_
  exact .ite (fun _ => .bind .get fun t ht => hleaf t _ _ ht) fun _ => .fail _

end Stable

end Tree

end BfTree
