import Mathlib

/-!
# BfTree.Lib.Memory — bytes at addresses, cells from the bottom, chunks from the top

A memory has a byte at every address. Reads and writes move byte strings; a read sees a
write inside its interval and nothing of it elsewhere.

An array of cells of one width stands at the lowest addresses. `Block` describes chunks of
any length that are taken from the top of the free part: their regions are disjoint, all of
them lie in the block, and the lowest one starts where the free part ends. `Slotted` puts
the two together: cells that grow upwards as slots, chunks that grow downwards.
-/

namespace BfTree.Lib

abbrev Memory := Nat → UInt8

namespace Memory

/-- The bytes from `start` on. -/
def read (m : Memory) (start len : Nat) : List UInt8 :=
  (List.range' start len).map m

/-- Replace what stands at `start`. -/
def write (m : Memory) (start : Nat) (bytes : List UInt8) : Memory := fun i =>
  if start ≤ i then (bytes[i - start]?).getD (m i) else m i

/-- Move a byte string; the two intervals may overlap. -/
def copy (m : Memory) (src dst len : Nat) : Memory :=
  m.write dst (m.read src len)

variable {m m' : Memory} {a s n k len : Nat} {bytes : List UInt8}

@[simp] theorem length_read (m : Memory) (s n : Nat) : (m.read s n).length = n := by
  simp [read]

/-- Two reads side by side. -/
theorem read_add (m : Memory) (s n k : Nat) : m.read s (n + k) = m.read s n ++ m.read (s + n) k := by
  rw [read, ← List.range'_append_1, List.map_append]
  rfl

/-- A read depends on its interval only. -/
theorem read_congr (h : ∀ i, s ≤ i → i < s + n → m i = m' i) : m.read s n = m'.read s n := by
  refine List.map_congr_left fun i hi => ?_
  obtain ⟨hle, hlt⟩ := List.mem_range'_1.1 hi
  exact h i hle hlt

/-- A part of what was read. -/
theorem take_drop_read (h : k + n ≤ len) : ((m.read s len).drop k).take n = m.read (s + k) n := by
  obtain ⟨rest, rfl⟩ := Nat.exists_eq_add_of_le h
  rw [Nat.add_assoc, read_add, List.drop_left' (length_read ..), read_add,
    List.take_left' (length_read ..)]

theorem take_read (h : n ≤ len) : (m.read s len).take n = m.read s n := by
  have hpart : ((m.read s len).drop 0).take n = m.read (s + 0) n := take_drop_read (by omega)
  simpa using hpart

/-- A write is not seen outside its interval. -/
theorem read_write_of_disjoint (h : a + n ≤ s ∨ s + bytes.length ≤ a) :
    (m.write s bytes).read a n = m.read a n := by
  refine read_congr fun i hle hlt => ?_
  rcases h with h | h
  · simp [write, show ¬ s ≤ i by omega]
  · simp [write, show bytes.length ≤ i - s by omega]

/-- A part of what was written. -/
theorem read_write_inside (h : k + n ≤ bytes.length) :
    (m.write s bytes).read (s + k) n = (bytes.drop k).take n := by
  refine List.ext_getElem (by simp; omega) fun i hi _ => ?_
  have hi' : i < n := by simpa using hi
  simp [read, write, show s + k + i - s = k + i by omega, show s ≤ s + k + i by omega,
    List.getElem?_eq_getElem (show k + i < bytes.length by omega)]

@[simp] theorem read_write (m : Memory) (s : Nat) (bytes : List UInt8) :
    (m.write s bytes).read s bytes.length = bytes := by
  have hinside : (m.write s bytes).read (s + 0) bytes.length = (bytes.drop 0).take bytes.length :=
    read_write_inside (by omega)
  simpa using hinside

/-- A part of what was moved. -/
theorem read_copy {src dst : Nat} (h : k + n ≤ len) :
    (m.copy src dst len).read (dst + k) n = m.read (src + k) n := by
  rw [copy, read_write_inside (by simpa using h), take_drop_read h]

@[simp] theorem copy_zero (m : Memory) (src dst : Nat) : m.copy src dst 0 = m := by
  funext i
  simp [copy, write]

/-- Two writes side by side. -/
theorem write_append (m : Memory) (s : Nat) (a b : List UInt8) :
    (m.write s a).write (s + a.length) b = m.write s (a ++ b) := by
  funext i
  simp only [write]
  by_cases hb : s + a.length ≤ i
  · simp [hb, show s ≤ i by omega, show i - (s + a.length) = i - s - a.length by omega,
      List.getElem?_append_right (show a.length ≤ i - s by omega),
      show a.length ≤ i - s by omega]
  · by_cases ha : s ≤ i
    · simp [hb, ha, List.getElem?_append_left (show i - s < a.length by omega)]
    · simp [hb, ha]

/-! ## Cells -/

/-- The first `n` cells of `width` bytes. -/
def cells (m : Memory) (width n : Nat) : List (List UInt8) :=
  (List.range n).map fun i => m.read (i * width) width

variable {width i j : Nat}

@[simp] theorem length_cells (m : Memory) (width n : Nat) : (m.cells width n).length = n := by
  simp [cells]

theorem getElem?_cells (m : Memory) (width : Nat) (h : i < n) :
    (m.cells width n)[i]? = some (m.read (i * width) width) := by
  simp [cells, h]

/-- Different cells are apart. -/
theorem cell_add_le (h : i < j) : i * width + width ≤ j * width := by
  rw [← Nat.succ_mul]
  exact Nat.mul_le_mul_right width h

theorem cells_congr (h : ∀ i, i < n → m.read (i * width) width = m'.read (i * width) width) :
    m.cells width n = m'.cells width n :=
  List.map_congr_left fun i hi => h i (List.mem_range.1 hi)

/-- A write behind the cells. -/
theorem cells_write_of_le (h : n * width ≤ s) : (m.write s bytes).cells width n = m.cells width n :=
  cells_congr fun _ hi => read_write_of_disjoint (.inl (Nat.le_trans (cell_add_le hi) h))

/-- Overwrite a cell. -/
theorem cells_write (hlen : bytes.length = width) (i : Nat) :
    (m.write (i * width) bytes).cells width n = (m.cells width n).set i bytes := by
  refine List.ext_getElem (by simp) fun j hj _ => ?_
  rw [List.getElem_set]
  simp only [cells, List.getElem_map, List.getElem_range]
  split
  · next heq =>
    subst heq hlen
    exact read_write ..
  · next hne =>
    refine read_write_of_disjoint ?_
    rw [hlen]
    rcases Nat.lt_or_gt_of_ne hne with h | h
    · exact .inr (cell_add_le h)
    · exact .inl (cell_add_le h)

/-- Move the cells from `i` on up by one and write a new one in their place. -/
theorem cells_insert (hlen : bytes.length = width) (hi : i ≤ n) :
    ((m.copy (i * width) ((i + 1) * width) (width * (n - i))).write (i * width) bytes).cells width
      (n + 1) = (m.cells width n).insertIdx i bytes := by
  rw [cells_write hlen]
  have hlow : ∀ j, j < i →
      (m.copy (i * width) ((i + 1) * width) (width * (n - i))).read (j * width) width =
        m.read (j * width) width := fun j hj =>
    read_write_of_disjoint (.inl (Nat.le_trans (cell_add_le hj) (Nat.mul_le_mul_right _ (Nat.le_succ i))))
  have hhigh : ∀ j, i ≤ j → j < n →
      (m.copy (i * width) ((i + 1) * width) (width * (n - i))).read ((j + 1) * width) width =
        m.read (j * width) width := by
    intro j hij hjn
    have hshift : (j - i) * width + width ≤ width * (n - i) := by
      rw [Nat.mul_comm width]
      exact cell_add_le (by omega)
    have hcopy : (m.copy (i * width) ((i + 1) * width) (width * (n - i))).read
        ((i + 1) * width + (j - i) * width) width = m.read (i * width + (j - i) * width) width :=
      read_copy hshift
    rwa [← Nat.add_mul, ← Nat.add_mul, show i + 1 + (j - i) = j + 1 by omega,
      show i + (j - i) = j by omega] at hcopy
  refine List.ext_getElem (by rw [List.length_insertIdx_of_le_length] <;> simp [hi]) fun j hj hj' => ?_
  rw [List.getElem_set, List.getElem_insertIdx]
  simp only [cells, List.getElem_map, List.getElem_range]
  have hjn : j < n + 1 := by simpa using hj
  rcases Nat.lt_trichotomy j i with h | h | h
  · rw [if_neg (by omega), dif_pos h]
    exact hlow j h
  · rw [if_pos h.symm, dif_neg (by omega), dif_pos h]
  · rw [if_neg (by omega), dif_neg (by omega), dif_neg (by omega)]
    have := hhigh (j - 1) (by omega) (by omega)
    rwa [show j - 1 + 1 = j by omega] at this

end Memory

/-! ## Regions -/

structure Region where
  start : Nat
  len : Nat
  deriving DecidableEq

namespace Region

def Disjoint (r s : Region) : Prop := r.start + r.len ≤ s.start ∨ s.start + s.len ≤ r.start

theorem Disjoint.symm {r s : Region} (h : r.Disjoint s) : s.Disjoint r := Or.symm h

end Region

/-- Regions in a block of `size` bytes, taken from the top down to `low`. -/
structure Placed (low size : Nat) (rs : List Region) : Prop where
  above : ∀ r ∈ rs, low ≤ r.start
  inside : ∀ r ∈ rs, r.start + r.len ≤ size
  disjoint : rs.Pairwise Region.Disjoint
  lowest : (∃ r ∈ rs, r.start = low) ∨ rs = [] ∧ low = size

namespace Placed

variable {low size len : Nat} {r r' : Region} {A B rs rs' : List Region}

theorem nil (size : Nat) : Placed size size [] :=
  ⟨nofun, nofun, .nil, .inr ⟨rfl, rfl⟩⟩

theorem le (h : Placed low size rs) : low ≤ size := by
  rcases h.lowest with ⟨r, hr, rfl⟩ | ⟨-, rfl⟩
  · have := h.inside r hr
    omega
  · exact Nat.le_refl _

/-- The order of the regions does not matter. -/
theorem perm (h : Placed low size rs) (hp : rs.Perm rs') : Placed low size rs' where
  above r hr := h.above r (hp.mem_iff.2 hr)
  inside r hr := h.inside r (hp.mem_iff.2 hr)
  disjoint := (hp.pairwise_iff fun {_ _} => Region.Disjoint.symm).1 h.disjoint
  lowest := h.lowest.imp (fun ⟨r, hr, he⟩ => ⟨r, hp.mem_iff.1 hr, he⟩)
    fun ⟨he, hl⟩ => ⟨by simpa [he] using hp, hl⟩

/-- Take a region from the free part. The regions that stay may be fewer than before. -/
theorem push_sublist (h : Placed low size rs) (hs : rs'.Sublist rs) (hle : len ≤ low) :
    Placed (low - len) size (⟨low - len, len⟩ :: rs') where
  above r hr := by
    rcases List.mem_cons.1 hr with rfl | hr
    · exact Nat.le_refl _
    · have := h.above r (hs.subset hr)
      omega
  inside r hr := by
    rcases List.mem_cons.1 hr with rfl | hr
    · have := h.le
      dsimp only
      omega
    · exact h.inside r (hs.subset hr)
  disjoint := by
    refine List.pairwise_cons.2 ⟨fun r hr => .inl ?_, h.disjoint.sublist hs⟩
    have := h.above r (hs.subset hr)
    dsimp only
    omega
  lowest := .inl ⟨_, List.mem_cons_self, rfl⟩

/-- A region is cut at its end. -/
theorem shrink (h : Placed low size (A ++ r :: B)) (hstart : r'.start = r.start)
    (hlen : r'.len ≤ r.len) : Placed low size (A ++ r' :: B) := by
  have hp : Placed low size (r :: (A ++ B)) := h.perm List.perm_middle
  obtain ⟨habove, hinside⟩ := List.pairwise_cons.1 hp.disjoint
  suffices hq : Placed low size (r' :: (A ++ B)) from hq.perm List.perm_middle.symm
  refine ⟨fun s hs => ?_, fun s hs => ?_, List.pairwise_cons.2 ⟨fun s hs => ?_, hinside⟩, ?_⟩
  · rcases List.mem_cons.1 hs with rfl | hs
    · exact hstart ▸ hp.above r List.mem_cons_self
    · exact hp.above s (List.mem_cons_of_mem _ hs)
  · rcases List.mem_cons.1 hs with rfl | hs
    · have := hp.inside r List.mem_cons_self
      omega
    · exact hp.inside s (List.mem_cons_of_mem _ hs)
  · have := habove s hs
    simp only [Region.Disjoint] at this ⊢
    omega
  · rcases hp.lowest with ⟨s, hs, he⟩ | ⟨hnil, -⟩
    · rcases List.mem_cons.1 hs with rfl | hs
      · exact .inl ⟨r', List.mem_cons_self, hstart.trans he⟩
      · exact .inl ⟨s, List.mem_cons_of_mem _ hs, he⟩
    · cases hnil

/-- The start of the lowest region. -/
theorem foldr_min (h : Placed low size rs) : rs.foldr (fun r low => min r.start low) size = low := by
  have hle : ∀ rs : List Region, (∀ r ∈ rs, low ≤ r.start) →
      low ≤ rs.foldr (fun r low => min r.start low) size := by
    intro rs
    induction rs with
    | nil => exact fun _ => h.le
    | cons r rs ih =>
      intro habove
      exact Nat.le_min.2 ⟨habove r List.mem_cons_self, ih fun s hs => habove s (List.mem_cons_of_mem _ hs)⟩
  have hge : ∀ rs : List Region, ∀ r ∈ rs, rs.foldr (fun r low => min r.start low) size ≤ r.start := by
    intro rs
    induction rs with
    | nil => exact nofun
    | cons s rs ih =>
      intro r hr
      rcases List.mem_cons.1 hr with rfl | hr
      · exact Nat.min_le_left _ _
      · exact Nat.le_trans (Nat.min_le_right _ _) (ih r hr)
  rcases h.lowest with ⟨r, hr, rfl⟩ | ⟨rfl, rfl⟩
  · exact Nat.le_antisymm (hge rs r hr) (hle rs h.above)
  · rfl

end Placed

/-! ## Chunks -/

/-- Bytes at a place. -/
structure Chunk where
  start : Nat
  bytes : List UInt8

def Chunk.region (c : Chunk) : Region := ⟨c.start, c.bytes.length⟩

/-- Chunks in a block of `size` bytes, taken from the top down to `low`. -/
structure Block (m : Memory) (low size : Nat) (cs : List Chunk) : Prop where
  placed : Placed low size (cs.map Chunk.region)
  read : ∀ c ∈ cs, m.read c.start c.bytes.length = c.bytes

namespace Block

variable {m : Memory} {low size s k : Nat} {bytes : List UInt8} {c : Chunk} {A B cs : List Chunk}

theorem nil (m : Memory) (size : Nat) : Block m size size [] := ⟨.nil size, nofun⟩

/-- A write to the free part. -/
theorem write_below (h : Block m low size cs) (hle : s + bytes.length ≤ low) :
    Block (m.write s bytes) low size cs := by
  refine ⟨h.placed, fun c hc => ?_⟩
  have habove : low ≤ c.start := h.placed.above c.region (List.mem_map_of_mem hc)
  rw [Memory.read_write_of_disjoint (.inr (Nat.le_trans hle habove)), h.read c hc]

/-- Write a chunk to the end of the free part. The chunks that stay may be fewer. -/
theorem push (h : Block m low size cs) (hs : (A ++ B).Sublist cs) (hle : bytes.length ≤ low) :
    Block (m.write (low - bytes.length) bytes) (low - bytes.length) size
      (A ++ ⟨low - bytes.length, bytes⟩ :: B) := by
  refine ⟨?_, fun c hc => ?_⟩
  · have hplaced := h.placed.push_sublist (hs.map Chunk.region) hle
    rw [List.map_append] at hplaced
    rw [List.map_append, List.map_cons]
    exact hplaced.perm List.perm_middle.symm
  · rcases List.mem_append.1 hc with hc | hc
    · exact (h.write_below (by omega)).read c (hs.subset (List.mem_append_left _ hc))
    · rcases List.mem_cons.1 hc with rfl | hc
      · exact Memory.read_write ..
      · exact (h.write_below (by omega)).read c (hs.subset (List.mem_append_right _ hc))

/-- Overwrite a chunk from its byte `k` on; what stood behind is given up. -/
theorem overwrite (h : Block m low size (A ++ c :: B)) (hle : k + bytes.length ≤ c.bytes.length) :
    Block (m.write (c.start + k) bytes) low size (A ++ ⟨c.start, c.bytes.take k ++ bytes⟩ :: B) := by
  have hlen : (c.bytes.take k ++ bytes).length = k + bytes.length := by
    rw [List.length_append, List.length_take, Nat.min_eq_left (by omega)]
  have hplaced := h.placed
  rw [List.map_append, List.map_cons] at hplaced
  -- the other chunks lie outside of the chunk that is written
  have hother : ∀ x, x ∈ A ∨ x ∈ B → (m.write (c.start + k) bytes).read x.start x.bytes.length =
      m.read x.start x.bytes.length := by
    intro x hx
    have hp := (hplaced.perm List.perm_middle).disjoint
    have hdisj : c.region.Disjoint x.region := by
      refine (List.pairwise_cons.1 hp).1 _ (List.mem_append.2 ?_)
      exact hx.imp List.mem_map_of_mem List.mem_map_of_mem
    refine Memory.read_write_of_disjoint ?_
    simp only [Region.Disjoint, Chunk.region] at hdisj
    omega
  refine ⟨?_, fun x hx => ?_⟩
  · rw [List.map_append, List.map_cons]
    refine hplaced.shrink rfl ?_
    simp only [Chunk.region]
    omega
  · rcases List.mem_append.1 hx with hx | hx
    · rw [hother x (.inl hx), h.read x (List.mem_append_left _ hx)]
    · rcases List.mem_cons.1 hx with rfl | hx
      · have hold := h.read c (List.mem_append_right _ List.mem_cons_self)
        have hfront : m.read c.start k = c.bytes.take k := by
          rw [← hold, Memory.take_read (by omega)]
        dsimp only
        rw [hlen, Memory.read_add, Memory.read_write, Memory.read_write_of_disjoint (.inl (Nat.le_refl _)),
          hfront]
      · rw [hother x (.inr hx), h.read x (List.mem_append_right _ (List.mem_cons_of_mem _ hx))]

end Block

/-! ## Slotted pages -/

/-- Slots of `width` bytes at the bottom, `free` bytes behind them, and chunks up to `size`.
What the bytes of a slot mean is up to `decode`. -/
structure Slotted {α : Type} (width : Nat) (decode : List UInt8 → α) (data : Memory) (free size : Nat)
    (S : List α) (cs : List Chunk) : Prop where
  slots : (data.cells width S.length).map decode = S
  block : Block data (S.length * width + free) size cs

namespace Slotted

variable {α : Type} {width : Nat} {decode : List UInt8 → α} {data : Memory} {free size i k : Nat}
  {S : List α} {cs A B : List Chunk} {c : Chunk} {m : α} {slot bytes : List UInt8}

theorem empty (data : Memory) (size : Nat) : Slotted width decode data size size [] [] :=
  ⟨rfl, by simpa using Block.nil data size⟩

theorem le (h : Slotted width decode data free size S cs) : S.length * width + free ≤ size :=
  h.block.placed.le

/-- The slot at an index. -/
theorem decode_read (h : Slotted width decode data free size S cs) (hi : i < S.length) :
    S[i]? = some (decode (data.read (i * width) width)) := by
  conv_lhs => rw [← h.slots]
  rw [List.getElem?_map, Memory.getElem?_cells data width hi]
  rfl

theorem setSlot (h : Slotted width decode data free size S cs) (hi : i < S.length)
    (hlen : slot.length = width) (hdec : decode slot = m) :
    Slotted width decode (data.write (i * width) slot) free size (S.set i m) cs where
  slots := by
    rw [List.length_set, Memory.cells_write hlen, List.map_set, h.slots, hdec]
  block := by
    rw [List.length_set]
    refine h.block.write_below ?_
    have hcell : i * width + width ≤ S.length * width := Memory.cell_add_le hi
    omega

/-- A new slot takes the lowest free bytes. -/
theorem insertSlot (h : Slotted width decode data free size S cs) (hi : i ≤ S.length)
    (hfree : width ≤ free) (hlen : slot.length = width) (hdec : decode slot = m) :
    Slotted width decode ((data.copy (i * width) ((i + 1) * width) (width * (S.length - i))).write
      (i * width) slot) (free - width) size (S.insertIdx i m) cs where
  slots := by
    rw [List.length_insertIdx_of_le_length hi, Memory.cells_insert hlen hi, List.map_insertIdx, h.slots,
      hdec]
  block := by
    rw [List.length_insertIdx_of_le_length hi]
    have hlow : (S.length + 1) * width + (free - width) = S.length * width + free := by
      rw [Nat.succ_mul]
      omega
    rw [hlow]
    have hle : i * width + width ≤ S.length * width + free :=
      Nat.add_le_add (Nat.mul_le_mul_right _ hi) hfree
    refine (h.block.write_below ?_).write_below (by rwa [hlen])
    rw [Memory.length_read, ← Nat.mul_comm (S.length - i), ← Nat.add_mul,
      show i + 1 + (S.length - i) = S.length + 1 by omega, Nat.succ_mul]
    omega

/-- A slot behind the others. -/
theorem appendSlot (h : Slotted width decode data free size S cs) (hfree : width ≤ free)
    (hlen : slot.length = width) (hdec : decode slot = m) :
    Slotted width decode (data.write (S.length * width) slot) (free - width) size (S ++ [m]) cs := by
  have hins := h.insertSlot (Nat.le_refl _) hfree hlen hdec
  rwa [Nat.sub_self, Nat.mul_zero, Memory.copy_zero, List.insertIdx_length_self] at hins

/-- A new chunk takes the highest free bytes. The chunks that stay may be fewer. -/
theorem push (h : Slotted width decode data free size S cs) (hs : (A ++ B).Sublist cs)
    (hle : bytes.length ≤ free) :
    Slotted width decode (data.write (S.length * width + free - bytes.length) bytes)
      (free - bytes.length) size S (A ++ ⟨S.length * width + free - bytes.length, bytes⟩ :: B) where
  slots := by
    rw [Memory.cells_write_of_le (by omega), h.slots]
  block := by
    have hlow : bytes.length ≤ S.length * width + free := by omega
    have hpush := h.block.push hs hlow
    rwa [Nat.add_sub_assoc hle] at hpush ⊢

/-- Overwrite a chunk from its byte `k` on. -/
theorem overwrite (h : Slotted width decode data free size S (A ++ c :: B))
    (hle : k + bytes.length ≤ c.bytes.length) :
    Slotted width decode (data.write (c.start + k) bytes) free size S
      (A ++ ⟨c.start, c.bytes.take k ++ bytes⟩ :: B) where
  slots := by
    have habove : S.length * width + free ≤ c.start :=
      h.block.placed.above c.region (List.mem_map_of_mem (by simp))
    rw [Memory.cells_write_of_le (by omega), h.slots]
  block := h.block.overwrite hle

end Slotted

end BfTree.Lib
