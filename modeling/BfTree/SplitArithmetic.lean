import BfTree.Attempts
import BfTree.Nodes.BalancedSplit

/-!
# BfTree.SplitArithmetic — when the search for a split key wraps around

Both searches add up record sizes with full keys in 16 bits and compare the sides as signed
numbers. The page size bounds neither: keys are stored without their common part, and a
pending record comes on top of a full page.
-/

namespace BfTree.LeafNode

open Lib

/-- `get_merge_split_key` computes exactly. -/
def MergeSplitExact (base mini : LeafNode) : Prop :=
  NoWrap (base.mergedItems mini mini.metas base.metas)

/-- `get_cache_only_insert_split_key` computes exactly. -/
def InsertSplitExact (p : LeafNode) (key : Key) (newRecordSize : Nat) : Prop :=
  NoWrap (p.insertItems key (newRecordSize + kvMetaSize))

end BfTree.LeafNode

namespace BfTree.Tree

open Lib LeafNode

/-- The largest pages, with records of nearly half a page. -/
def largestPages : Config :=
  { Config.default with
    cacheOnly := true, cbSizeByte := 131072, cbMinRecordSize := 8, cbMaxRecordSize := 16360
    leafPageSize := 32768 }

/-- The root is split once, then its left leaf is filled. -/
def fillLeftLeaf : List Attempt :=
  [.insert calm [1] (List.replicate 15990 0) false, .insert calm [2] (List.replicate 16332 0) false,
    .insert calm [3] (List.replicate 16332 0) false, .insert calm [3] (List.replicate 16332 0) true,
    .insert calm [1, 1] (List.replicate 16331 0) false, .insert calm [1, 3] (List.replicate 300 0) false]

/-- The records that the search visits for a pending record which the page refuses, also
after a consolidation. -/
def pendingItems (t : Tree) (pid : Nat) (key : Key) (value : Value) : Option (List (Nat × Key)) :=
  match t.pages[pid]? with
  | some (.mini p) =>
    match p.consolidateSkipKey key 0 with
    | some q =>
      if (p.insert key value .insert 0).any (fun r => !r.1) &&
          (q.insert key value .insert 0).any (fun r => !r.1) then
        some (q.insertItems key (u16 (key.length + value.length) + kvMetaSize))
      else none
    | none => none
  | _ => none

theorem pendingItems_eq_some {t : Tree} {pid : Nat} {key : Key} {value : Value}
    {items : List (Nat × Key)} (h : t.pendingItems pid key value = some items) :
    ∃ p q, t.pages[pid]? = some (.mini p) ∧ p.consolidateSkipKey key 0 = some q ∧
      p.insert key value .insert 0 = some (false, p) ∧
      q.insert key value .insert 0 = some (false, q) ∧
      q.insertItems key (u16 (key.length + value.length) + kvMetaSize) = items := by
  have hrefused : ∀ {p : LeafNode}, (p.insert key value .insert 0).any (fun r => !r.1) = true →
      p.insert key value .insert 0 = some (false, p) := by
    intro p hp
    obtain ⟨⟨b, p'⟩, hins, hb⟩ := (Option.any_eq_true _ _).1 hp
    obtain rfl : b = false := by simpa using hb
    rw [hins, insert_refused hins]
  unfold pendingItems at h
  split at h
  · next p hp =>
    split at h
    · next q hq =>
      split at h
      · next hins =>
        rw [Bool.and_eq_true] at hins
        exact ⟨p, q, hp, hq, hrefused hins.1, hrefused hins.2, Option.some.inj h⟩
      · cases h
    · cases h
  · cases h

end BfTree.Tree
