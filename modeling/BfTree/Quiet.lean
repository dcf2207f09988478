import BfTree.RangeScan

/-!
# A tree with one thread

While a single thread works on the tree no lock is taken by somebody else, no version
changes under it, a thread slot is always free and no snapshot runs. What is left open are
the dice and the circular buffer.
-/

namespace BfTree

open Lib

/-- No snapshot is running. -/
def SnapshotGuard.Resting (g : SnapshotGuard) : Prop := g.slot = none ∨ g.phase = .rest

/-- The outcomes within a leaf transaction of the only thread. -/
structure Env.Quiet (env : Env) : Prop where
  snapshotGuard : ∃ g, env.snapshotGuard = some g ∧ g.Resting
  mergeGuard : ∃ g, env.mergeGuard = some g ∧ g.Resting
  parentCheckVersion : env.parentCheckVersion = none
  parentUpgrade : env.parentUpgrade = none
  beginDealloc : env.beginDealloc = none

/-- The outcomes of an attempt of the only thread. -/
structure AttemptEnv.Quiet (env : AttemptEnv) : Prop where
  descent : env.descent = true
  splitGuard : ∃ g, env.splitGuard = some g ∧ g.Resting
  splitCurUpgrade : env.splitCurUpgrade = true
  splitParentUpgrade : env.splitParentUpgrade = true
  leaf : env.leaf.Quiet
  leafUpgrade : env.leafUpgrade = true

end BfTree
