import BfTree.CircularBuffer.Model

/-!
# The layout of the ring

The blocks from head to tail lie one after the other, and the whole range is no longer
than the memory. The blocks before the evicting address are reserved for eviction.
-/

namespace BfTree

open Lib

namespace CircularBuffer

variable {b : CircularBuffer} {reserved rest : List Nat}

/-- The blocks `reserved` reach from the head to the evicting address, the blocks `rest`
from there to the tail. -/
structure Layout (b : CircularBuffer) (reserved rest : List Nat) : Prop where
  pow : ∃ k, b.capacity = 2 ^ k
  aligned : 8 ∣ b.capacity
  reserved_tiling : Tiling b.blockLen b.headAddr reserved b.evictingAddr
  rest_tiling : Tiling b.blockLen b.evictingAddr rest b.tailAddr
  bound : b.tailAddr ≤ b.headAddr + b.capacity
  inside : ∀ a ∈ reserved ++ rest, a % b.capacity + b.blockLen a ≤ b.capacity
  head_aligned : 8 ∣ b.headAddr
  len_aligned : ∀ a ∈ reserved ++ rest, 8 ∣ b.blockLen a
  descending : b.sizeClasses.Pairwise (· > ·)
  nonempty : b.sizeClasses ≠ []
  class_le : ∀ size ∈ b.sizeClasses, size ≤ maxLeafPageSize

/-- A pointer to the data of a block between head and tail. -/
def IsBlock (b : CircularBuffer) (blocks : List Nat) (ptr : Nat) : Prop :=
  ∃ a ∈ blocks, ptr = b.dataPtr a

theorem alignUp_spec (size : Nat) :
    size ≤ alignUp size cbAllocMetaSize ∧ alignUp size cbAllocMetaSize < size + 8 ∧
      8 ∣ alignUp size cbAllocMetaSize := by
  simp only [alignUp, cbAllocMetaSize]
  omega

/-! ## Changes of states -/

@[simp] theorem getMeta_eq (b : CircularBuffer) (addr : Nat) :
    b.getMetaFromDataPtr (b.dataPtr addr) = b.getMeta addr := by
  rw [getMetaFromDataPtr, dataPtr, Nat.add_sub_cancel, getMeta]

theorem transition_of_state {old new reported : MetaState} {ptr : Nat}
    (h : (b.getMetaFromDataPtr ptr).state = old) :
    transition old new reported b ptr = .ok (b.setState ptr new) := by
  rw [transition, if_pos h]

/-- One more block at the tail, and no other change. -/
def Pushed (b : CircularBuffer) (reserved rest : List Nat) (m : AllocMeta) : Prop :=
  Layout (b.push m) reserved (rest ++ [b.tailAddr]) ∧ (b.push m).getMeta b.tailAddr = m ∧
    ∀ a ∈ reserved ++ rest, (b.push m).getMeta a = b.getMeta a

/-- Memory taken at the tail: a block for the allocation, or a tombstone up to the end
of the memory. -/
def TailAlloc.Ok (b : CircularBuffer) (reserved rest : List Nat) (size : Nat) : TailAlloc → Prop
  | .full => True
  | .padded b' => ∃ m : AllocMeta, m.state = .tombstone ∧ b' = b.push m ∧ Pushed b reserved rest m
  | .done ptr b' => ∃ m : AllocMeta, m.state = .notReady ∧ size ≤ m.size ∧ b' = b.push m ∧
      ptr = b'.dataPtr b.tailAddr ∧ Pushed b reserved rest m

namespace Layout

theorem physical (h : Layout b reserved rest) (addr : Nat) :
    b.logicalToPhysical addr = addr % b.capacity := by
  obtain ⟨k, hk⟩ := h.pow
  rw [logicalToPhysical, hk, Nat.and_two_pow_sub_one_eq_mod]

theorem tiling (h : Layout b reserved rest) :
    Tiling b.blockLen b.headAddr (reserved ++ rest) b.tailAddr :=
  h.reserved_tiling.append h.rest_tiling

theorem iter_eq (h : Layout b reserved rest) : b.iter = reserved ++ rest :=
  h.tiling.walk_eq h.tiling.length_le

/-- Different blocks have different pointers. -/
theorem dataPtr_inj (h : Layout b reserved rest) {a a' : Nat} (ha : a ∈ reserved ++ rest)
    (ha' : a' ∈ reserved ++ rest) (heq : b.dataPtr a = b.dataPtr a') : a = a' := by
  simp only [dataPtr, h.physical] at heq
  exact h.tiling.mod_inj h.bound ha ha' (by omega)

/-- The layout does not depend on states and free lists. -/
theorem congr (h : Layout b reserved rest) {b' : CircularBuffer} (hcap : b'.capacity = b.capacity)
    (hlen : b'.blockLen = b.blockLen) (hhead : b'.headAddr = b.headAddr)
    (hevicting : b'.evictingAddr = b.evictingAddr) (htail : b'.tailAddr = b.tailAddr)
    (hclasses : b'.sizeClasses = b.sizeClasses) : Layout b' reserved rest := by
  constructor
  · rw [hcap]; exact h.pow
  · rw [hcap]; exact h.aligned
  · rw [hlen, hhead, hevicting]; exact h.reserved_tiling
  · rw [hlen, hevicting, htail]; exact h.rest_tiling
  · rw [htail, hhead, hcap]; exact h.bound
  · rw [hcap, hlen]; exact h.inside
  · rw [hhead]; exact h.head_aligned
  · rw [hlen]; exact h.len_aligned
  · rw [hclasses]; exact h.descending
  · rw [hclasses]; exact h.nonempty
  · rw [hclasses]; exact h.class_le

/-! ## Changes of addresses -/

/-- A block that starts at the tail, within the memory and before the head. -/
theorem push (h : Layout b reserved rest) {m : AllocMeta} (halign : 8 ∣ m.size)
    (hroom : b.tailAddr + (m.size + cbAllocMetaSize) ≤ b.headAddr + b.capacity)
    (hinside : b.tailAddr % b.capacity + (m.size + cbAllocMetaSize) ≤ b.capacity) :
    Pushed b reserved rest m := by
  have hmeta : cbAllocMetaSize = 8 := rfl
  have hphys : ∀ addr, (b.push m).logicalToPhysical addr = b.logicalToPhysical addr := fun _ => rfl
  have hnew : (b.push m).getMeta b.tailAddr = m := by
    rw [getMeta, hphys]
    exact Function.update_self ..
  have hold : ∀ a ∈ reserved ++ rest, (b.push m).getMeta a = b.getMeta a := by
    intro a ha
    rw [getMeta, hphys]
    refine Function.update_of_ne ?_ _ _
    rw [h.physical, h.physical]
    exact h.tiling.mod_ne (by omega) ha
  have hlen : ∀ a ∈ reserved ++ rest, (b.push m).blockLen a = b.blockLen a := by
    intro a ha
    rw [blockLen, hold a ha, blockLen]
  have hlast : (b.push m).blockLen b.tailAddr = m.size + cbAllocMetaSize := by
    rw [blockLen, hnew]
  refine ⟨?_, hnew, hold⟩
  have hreserved : Tiling (b.push m).blockLen b.headAddr reserved b.evictingAddr :=
    h.reserved_tiling.congr fun a ha => hlen a (List.mem_append_left _ ha)
  have hrest : Tiling (b.push m).blockLen b.evictingAddr rest b.tailAddr :=
    h.rest_tiling.congr fun a ha => hlen a (List.mem_append_right _ ha)
  have hmem : ∀ {a}, a ∈ reserved ++ (rest ++ [b.tailAddr]) → a ∈ reserved ++ rest ∨ a = b.tailAddr := by
    intro a ha
    rw [← List.append_assoc, List.mem_append, List.mem_singleton] at ha
    exact ha
  refine { h with
    reserved_tiling := hreserved
    rest_tiling := ?_
    bound := hroom
    inside := fun a ha => ?_
    len_aligned := fun a ha => ?_ }
  · have := hrest.snoc (by rw [hlast]; omega)
    rwa [hlast] at this
  · rcases hmem ha with ha | rfl
    · rw [hlen a ha]
      exact h.inside a ha
    · rw [hlast]
      exact hinside
  · rcases hmem ha with ha | rfl
    · rw [hlen a ha]
      exact h.len_aligned a ha
    · rw [hlast, hmeta]
      omega

/-- The reservation of the next block. -/
theorem reserve (h : Layout b reserved rest) (hlt : b.evictingAddr ≠ b.tailAddr) :
    ∃ rest', rest = b.evictingAddr :: rest' ∧
      Layout { b with evictingAddr := b.evictingAddr + b.blockLen b.evictingAddr }
        (reserved ++ [b.evictingAddr]) rest' := by
  have hle := h.rest_tiling.le
  obtain ⟨rest', rfl, hrest⟩ := h.rest_tiling.head_mem (by omega)
  have hpos := (h.rest_tiling.bounds List.mem_cons_self).2.2
  refine ⟨rest', rfl, { h with
    reserved_tiling := h.reserved_tiling.snoc hpos
    rest_tiling := hrest
    inside := ?_
    len_aligned := ?_ }⟩
  · rw [List.append_assoc]
    exact h.inside
  · rw [List.append_assoc]
    exact h.len_aligned

/-- The head passes a block. -/
theorem bump (h : Layout b reserved rest) (hlt : b.headAddr < b.evictingAddr) :
    ∃ reserved', reserved = b.headAddr :: reserved' ∧
      Layout { b with headAddr := b.headAddr + b.blockLen b.headAddr } reserved' rest := by
  obtain ⟨reserved', rfl, hreserved⟩ := h.reserved_tiling.head_mem hlt
  refine ⟨reserved', rfl, { h with
    reserved_tiling := hreserved
    bound := ?_
    inside := fun a ha => h.inside a (List.mem_cons_of_mem _ ha)
    head_aligned := Nat.dvd_add h.head_aligned (h.len_aligned _ List.mem_cons_self)
    len_aligned := fun a ha => h.len_aligned a (List.mem_cons_of_mem _ ha) }⟩
  have := h.bound
  show b.tailAddr ≤ b.headAddr + b.blockLen b.headAddr + b.capacity
  omega

/-! ## Allocation at the tail -/

theorem tail_aligned (h : Layout b reserved rest) : 8 ∣ b.tailAddr :=
  h.tiling.dvd h.head_aligned h.len_aligned

theorem allocTail (h : Layout b reserved rest) {size : Nat} (hpos : 0 < size)
    (hsize : size ≤ maxLeafPageSize) {result : TailAlloc} (hr : b.allocTail size = .ok result) :
    result.Ok b reserved rest size := by
  have hmeta : cbAllocMetaSize = 8 := rfl
  have hmax : maxLeafPageSize = 32768 := rfl
  obtain ⟨hge, hlt, hdvd⟩ := alignUp_spec size
  have htail := h.tail_aligned
  have hcap := h.aligned
  have hle := h.tiling.le
  have hbound := h.bound
  have hmod : b.tailAddr &&& (b.capacity - 1) = b.tailAddr % b.capacity := h.physical _
  have hmodDvd : 8 ∣ b.tailAddr % b.capacity := (Nat.dvd_mod_iff hcap).2 htail
  rw [CircularBuffer.allocTail, hmod] at hr
  have hmodlt : b.tailAddr % b.capacity < b.capacity := by
    refine Nat.mod_lt _ ?_
    obtain ⟨k, hk⟩ := h.pow
    rw [hk]
    exact Nat.two_pow_pos k
  split at hr
  · obtain rfl := Except.ok.inj hr
    trivial
  · split at hr
    · split at hr
      · cases hr
      · split at hr
        · obtain rfl := Except.ok.inj hr
          have hpad : (b.capacity - b.tailAddr % b.capacity - cbAllocMetaSize) % 2 ^ 32 =
              b.capacity - b.tailAddr % b.capacity - cbAllocMetaSize :=
            Nat.mod_eq_of_lt (by omega)
          refine ⟨_, rfl, rfl, h.push ?_ ?_ ?_⟩ <;> simp only [hpad] <;> omega
        · cases hr
    · split at hr
      · obtain rfl := Except.ok.inj hr
        have hfits : alignUp size cbAllocMetaSize % 2 ^ 32 = alignUp size cbAllocMetaSize :=
          Nat.mod_eq_of_lt (by omega)
        refine ⟨_, rfl, by rwa [hfits], rfl, ?_, h.push ?_ ?_ ?_⟩
        · -- the block is not empty, so the data starts before the end of the memory
          show b.logicalToPhysical (b.tailAddr + cbAllocMetaSize) =
            b.logicalToPhysical b.tailAddr + cbAllocMetaSize
          rw [h.physical, h.physical, Nat.add_mod, Nat.mod_eq_of_lt (a := cbAllocMetaSize) (by omega),
            Nat.mod_eq_of_lt (by omega)]
        · rwa [hfits]
        · simp only [hfits]
          omega
        · simp only [hfits]
          omega
      · cases hr

end Layout

/-- A new buffer is empty. -/
theorem new_layout {cfg : Config} {capacity threshold : Nat} {memory : Nat → AllocMeta}
    (h : CircularBuffer.new cfg capacity threshold memory = some b) : Layout b [] [] := by
  simp only [CircularBuffer.new, Option.bind_eq_bind, Option.bind_eq_some_iff,
    Option.guard_eq_some', exists_const] at h
  obtain ⟨⟨hpow, hle⟩, classes, hclasses, heq⟩ := h
  cases heq
  obtain ⟨hsorted, hne, hmax, hclass⟩ := Config.createMemPageSizeClasses_spec hclasses
  obtain ⟨k, hk⟩ := Config.exists_pow_of_isPowerOfTwo hpow
  refine {
    pow := ⟨k, hk⟩
    aligned := ?_
    reserved_tiling := .nil _
    rest_tiling := .nil _
    bound := Nat.zero_le _
    inside := nofun
    head_aligned := Nat.dvd_zero _
    len_aligned := nofun
    descending := List.pairwise_reverse.2 hsorted
    nonempty := by simpa using hne
    class_le := fun size hs => (hclass size (List.mem_reverse.1 hs)).trans hmax }
  show 8 ∣ capacity
  have h3 : 3 ≤ k := by
    by_contra hlt
    have := Nat.pow_lt_pow_right (a := 2) (by omega) (Nat.not_le.1 hlt)
    simp only [cbAllocMetaSize] at hle
    omega
  rw [hk]
  exact pow_dvd_pow 2 h3

end CircularBuffer

end BfTree
