import BfTree.Config
import BfTree.Nodes.InnerNode

/-!
# The snapshot file

Space is handed out from the second disk page on and never taken back, so no range of the
file is written twice. The ranges are kept with what they hold.
-/

namespace BfTree

open Lib

inductive PageImage where
  | leaf (page : LeafNode)
  | inner (node : InnerNode)

def PageImage.length : PageImage → Nat
  | .leaf page => page.nodeSize
  | .inner _ => innerNodeSize

def PageImage.asInner : PageImage → Option InnerNode
  | .inner node => some node
  | .leaf _ => none

def PageImage.asLeaf : PageImage → Option LeafNode
  | .leaf page => some page
  | .inner _ => none

/-- The ranges that were written, the last one first. -/
structure SnapshotFile where
  nextAvailableOffset : Nat
  ranges : List (Nat × PageImage)
  below : ∀ r ∈ ranges, r.1 + r.2.length ≤ nextAvailableOffset
  disjoint : ranges.Pairwise fun r older => older.1 + older.2.length ≤ r.1

namespace SnapshotFile

/-- `OffsetAlloc::reset` on a file that was cut to length 0. -/
def reset : SnapshotFile := ⟨diskPageSize, [], by simp, .nil⟩

/-- `snapshot_page`: new space at the end, and the write to it. -/
def snapshotPage (f : SnapshotFile) (image : PageImage) : SnapshotFile where
  nextAvailableOffset := f.nextAvailableOffset + image.length
  ranges := (f.nextAvailableOffset, image) :: f.ranges
  below := List.forall_mem_cons.2
    ⟨le_rfl, fun r hr => (f.below r hr).trans (Nat.le_add_right _ _)⟩
  disjoint := .cons f.below f.disjoint

/-- What stands at an offset. -/
def read (f : SnapshotFile) (offset : Nat) : Option PageImage :=
  (f.ranges.find? (·.1 = offset)).map Prod.snd

theorem read_snapshotPage (f : SnapshotFile) (image : PageImage) :
    (f.snapshotPage image).read f.nextAvailableOffset = some image := by
  simp [read, snapshotPage]

/-- What was read before reads the same after a write. -/
theorem read_snapshotPage_of_read {f : SnapshotFile} {o : Nat} {old : PageImage}
    (ho : f.read o = some old) (hpos : 0 < old.length) (image : PageImage) :
    (f.snapshotPage image).read o = some old := by
  obtain ⟨r, hr, rfl⟩ := Option.map_eq_some_iff.1 ho
  have hlt := f.below r (List.mem_of_find?_eq_some hr)
  obtain rfl : r.1 = o := by simpa using List.find?_some hr
  have hne : ¬ f.nextAvailableOffset = r.1 := by omega
  rw [read, snapshotPage, List.find?_cons_of_neg (by simpa using hne), hr, Option.map_some]

end SnapshotFile

end BfTree
