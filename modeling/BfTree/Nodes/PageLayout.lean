import BfTree.Config
import BfTree.Nodes.LeafSpec
import BfTree.Nodes.PackedWords

/-!
# BfTree.Nodes.PageLayout — the bytes of a page and its records

`Image page p fences recs` says that the bytes of `page` are the page `p`: the slots in
`fences` stand for its fences, and `recs` pairs every other slot with the record it
describes. The page operations on bytes do to the image what the operations on records do,
so everything proved about records holds of the bytes.
-/

namespace BfTree

open Lib PackedMeta

/-! ## Slots and chunks -/

/-- The slots and chunks of a leaf page. -/
abbrev Layout (data : Memory) (free size : Nat) (S : List PackedMeta) (cs : List Chunk) : Prop :=
  Slotted kvMetaSize decode data free size S cs

/-! ## Slots and records -/

/-- The slot of a record. -/
structure Describes (prefixLen : Nat) (m : PackedMeta) (r : LeafKVMeta) : Prop where
  keyLen : m.getKeyLen.toNat = prefixLen + r.remainingKey.length
  valueLen : m.valueLen.toNat = r.value.length
  opType : m.opType = r.opType
  referenced : m.isReferenced = r.referenced
  preview : m.previewBytes = r.previewBytes

namespace Describes

variable {prefixLen : Nat} {m : PackedMeta} {r : LeafKVMeta}

theorem setOpType (h : Describes prefixLen m r) (op : OpType) :
    Describes prefixLen (m.setOpType op) { r with opType := op } where
  keyLen := by rw [getKeyLen_setOpType, h.keyLen]
  valueLen := h.valueLen
  opType := opType_setOpType m op
  referenced := h.referenced
  preview := h.preview

theorem setValueLen (h : Describes prefixLen m r) {value : Value} (hlt : value.length < 32768) :
    Describes prefixLen (m.setValueLen (UInt16.ofNat value.length)) { r with value := value } where
  keyLen := h.keyLen
  valueLen := by
    rw [toNat_valueLen, toNat_refValueLen_setValueLen, toNat_ofNat_of_lt (by omega)]
    dsimp only
    omega
  opType := h.opType
  referenced := by
    rw [← h.referenced, isReferenced_eq, isReferenced_eq, decide_eq_decide,
      toNat_refValueLen_setValueLen]
    omega
  preview := h.preview

theorem markAsRef (h : Describes prefixLen m r) :
    Describes prefixLen m.markAsRef { r with referenced := true } where
  keyLen := h.keyLen
  valueLen := by
    rw [← h.valueLen, toNat_valueLen, toNat_valueLen, toNat_refValueLen_markAsRef]
    omega
  opType := h.opType
  referenced := by
    rw [isReferenced_eq, toNat_refValueLen_markAsRef, decide_eq_true_iff]
    omega
  preview := h.preview

/-- Only the offset says where the bytes are. -/
theorem setOffset (h : Describes prefixLen m r) (offset : UInt16) :
    Describes prefixLen { m with offset := offset } r :=
  ⟨h.keyLen, h.valueLen, h.opType, h.referenced, h.preview⟩

theorem make {prefixLen : UInt16} {key : Key} {value : Value} (hpre : prefixLen.toNat ≤ key.length)
    (hkey : key.length < 16384) (hvalue : value.length < 32768) (offset : UInt16) (op : OpType) :
    Describes prefixLen.toNat
      (makePrefixedMeta offset (UInt16.ofNat value.length) key prefixLen op)
      (LeafKVMeta.makePrefixedMeta value key prefixLen.toNat op) where
  keyLen := by
    rw [getKeyLen_make hkey, LeafKVMeta.makePrefixedMeta, List.length_drop]
    omega
  valueLen := by
    rw [toNat_valueLen, toNat_refValueLen_make, toNat_ofNat_of_lt (by omega)]
    dsimp only [LeafKVMeta.makePrefixedMeta]
    omega
  opType := opType_make hkey
  referenced := by
    rw [isReferenced_eq, toNat_refValueLen_make, toNat_ofNat_of_lt (by omega)]
    exact decide_eq_false (by omega)
  preview := previewBytes_make

end Describes

/-- The bytes of a record. -/
def recordChunk (e : PackedMeta × LeafKVMeta) : Chunk :=
  ⟨e.1.offset.toNat, e.2.remainingKey ++ e.2.value⟩

/-- The slot of a fence: a sentinel for the infinite fence, else a key. -/
def FenceSlot (infinite m : PackedMeta) (key : Key) : Prop :=
  if key = [] then m = infinite else m.getKeyLen.toNat = key.length

/-- The slots of the two fences, if the page has them. -/
def FenceSlots (p : LeafNode) (fences : List PackedMeta) : Prop :=
  if p.hasFence then ∃ low high, fences = [low, high] ∧
    FenceSlot makeInfiniteLowFenceKey low p.lowFence ∧
    FenceSlot makeInfiniteHighFenceKey high p.highFence
  else fences = []

/-- The bytes of a fence. -/
def fenceChunk (m : PackedMeta) (key : Key) (cut : Nat) : List Chunk :=
  if key = [] then [] else [⟨m.offset.toNat, key.drop cut⟩]

def fenceChunks (p : LeafNode) : List PackedMeta → List Chunk
  | [low, high] => fenceChunk low p.lowFence 0 ++ fenceChunk high p.highFence p.prefixLen
  | _ => []

/-- The bytes of `page` are the page `p`. Versions and the split flag have no part in it. -/
structure Image (page : LeafPage) (p : LeafNode) (fences : List PackedMeta)
    (recs : List (PackedMeta × LeafKVMeta)) : Prop where
  nodeSize : page.header.nodeSize.toNat = p.nodeSize
  nodeSize_le : p.nodeSize ≤ maxLeafPageSize
  encoded : page.header.encoded.toNat =
    headerFlags p.hasFence p.isCacheOnlyLeaf + (fences.length + recs.length)
  remaining : page.header.remainingSize.toNat = p.remainingSize
  prefixLen : page.prefixLen.toNat = p.prefixLen
  nextLevel : page.nextLevel = p.nextLevel
  metas : p.metas = recs.map Prod.snd
  fits : p.hasFence = true → kvMetaSize + p.lowFence.length + kvMetaSize +
    (p.highFence.length - p.prefixLen) ≤ LeafNode.maxDataSize p.nodeSize
  fenceSlots : FenceSlots p fences
  described : ∀ e ∈ recs, Describes p.prefixLen e.1 e.2
  layout : Layout page.data p.remainingSize (LeafNode.maxDataSize p.nodeSize)
    (fences ++ recs.map Prod.fst) (fenceChunks p fences ++ recs.map recordChunk)

namespace Image

variable {page : LeafPage} {p : LeafNode} {fences : List PackedMeta}
  {recs : List (PackedMeta × LeafKVMeta)} {e : PackedMeta × LeafKVMeta}

/-! ## What the words of a page say -/

section

variable (h : Image page p fences recs)
include h

theorem maxDataSize_le : LeafNode.maxDataSize p.nodeSize ≤ 32736 := by
  have := h.nodeSize_le
  rw [maxLeafPageSize] at this
  rw [LeafNode.maxDataSize, leafHeaderSize]
  omega

theorem space_le : (fences.length + recs.length) * 8 + p.remainingSize ≤ 32736 := by
  have hle := h.layout.le
  rw [List.length_append, List.length_map, kvMetaSize] at hle
  exact hle.trans h.maxDataSize_le

theorem counts :
    page.header.Counts p.hasFence p.isCacheOnlyLeaf (fences.length + recs.length) := by
  have := h.space_le
  exact ⟨h.encoded, by omega⟩

theorem metaCountWithFence : page.metaCountWithFence = fences.length + recs.length :=
  h.counts.metaCountWithFence

theorem hasFence : page.hasFence = p.hasFence := h.counts.hasFence

theorem isBasePage : page.isBasePage = p.isBasePage := by
  rw [LeafPage.isBasePage, LeafNode.isBasePage, h.counts.isCacheOnlyLeaf, h.nextLevel]

theorem length_fences : fences.length = if p.hasFence then fenceKeyCnt else 0 := by
  have hf := h.fenceSlots
  rw [FenceSlots] at hf
  split at hf
  · next hfence =>
    obtain ⟨low, high, rfl, -⟩ := hf
    rw [if_pos hfence]
    rfl
  · next hfence =>
    rw [hf, if_neg hfence]
    rfl

theorem firstMetaPosAfterFence : page.firstMetaPosAfterFence = fences.length := by
  rw [LeafPage.firstMetaPosAfterFence, h.hasFence, h.length_fences]

theorem currentLowestOffset :
    page.currentLowestOffset.toNat = (fences.length + recs.length) * 8 + p.remainingSize := by
  have hle := h.space_le
  have hcount : page.header.metaCountWithFence.toNat = fences.length + recs.length :=
    h.metaCountWithFence
  rw [LeafPage.currentLowestOffset, UInt16.toNat_add, UInt16.toNat_mul, hcount, h.remaining,
    toNat_ofNat_of_lt (by decide), kvMetaSize]
  omega

/-- The slots behind the fences. -/
theorem getKvMeta {i : Nat} (hi : recs[i]? = some e) : page.getKvMeta (fences.length + i) = e.1 := by
  have hlt : i < recs.length := (List.getElem?_eq_some_iff.1 hi).1
  have hslot := h.layout.decode_read (i := fences.length + i) (by simpa using hlt)
  rw [List.getElem?_append_right (Nat.le_add_right _ _), Nat.add_sub_cancel_left, List.getElem?_map, hi]
    at hslot
  exact (Option.some.inj hslot).symm

theorem read (he : e ∈ recs) :
    page.data.read e.1.offset.toNat (e.2.remainingKey.length + e.2.value.length) =
      e.2.remainingKey ++ e.2.value := by
  have := h.layout.block.read (recordChunk e) (List.mem_append_right _ (List.mem_map_of_mem he))
  rwa [recordChunk, List.length_append] at this

theorem offset_le (he : e ∈ recs) :
    e.1.offset.toNat + e.2.remainingKey.length + e.2.value.length ≤ 32736 := by
  have := h.layout.block.placed.inside (recordChunk e).region
    (List.mem_map_of_mem (List.mem_append_right _ (List.mem_map_of_mem he)))
  have hsize := h.maxDataSize_le
  simp only [Chunk.region, recordChunk, List.length_append] at this
  omega

theorem keyLen_sub (he : e ∈ recs) :
    (e.1.getKeyLen - page.prefixLen).toNat = e.2.remainingKey.length := by
  have hlen := (h.described e he).keyLen
  rw [UInt16.toNat_sub_of_le, hlen, h.prefixLen, Nat.add_sub_cancel_left]
  rw [UInt16.le_iff_toNat_le, hlen, h.prefixLen]
  exact Nat.le_add_right _ _

theorem getRemainingKey (he : e ∈ recs) : page.getRemainingKey e.1 = e.2.remainingKey := by
  have hfront : (page.data.read e.1.offset.toNat (e.2.remainingKey.length + e.2.value.length)).take
      e.2.remainingKey.length = page.data.read e.1.offset.toNat e.2.remainingKey.length :=
    Memory.take_read (Nat.le_add_right _ _)
  rw [LeafPage.getRemainingKey, h.keyLen_sub he, ← hfront, h.read he, List.take_left]

theorem getValue (he : e ∈ recs) : page.getValue e.1 = e.2.value := by
  have hlen := (h.described e he).keyLen
  have hoffset := h.offset_le he
  have hlt : e.1.getKeyLen.toNat < 16384 := by
    rw [toNat_getKeyLen]
    omega
  have hsum : (e.1.offset + e.1.getKeyLen).toNat = e.1.offset.toNat + e.1.getKeyLen.toNat := by
    rw [UInt16.toNat_add]
    omega
  have hstart : (e.1.offset + e.1.getKeyLen - page.prefixLen).toNat =
      e.1.offset.toNat + e.2.remainingKey.length := by
    rw [UInt16.toNat_sub_of_le, hsum, h.prefixLen]
    · omega
    · rw [UInt16.le_iff_toNat_le, hsum, h.prefixLen]
      omega
  have hrest : ((page.data.read e.1.offset.toNat (e.2.remainingKey.length + e.2.value.length)).drop
      e.2.remainingKey.length).take e.2.value.length =
        page.data.read (e.1.offset.toNat + e.2.remainingKey.length) e.2.value.length :=
    Memory.take_drop_read (Nat.le_refl _)
  rw [LeafPage.getValue, hstart, (h.described e he).valueLen, ← hrest, h.read he, List.drop_left,
    List.take_length]

/-! ## Search -/

theorem keyCmp (he : e ∈ recs) (key : Key) :
    page.keyCmp e.1 key = LeafNode.keyCmp e.2 (key.drop p.prefixLen) := by
  have hlen := (h.described e he).keyLen
  rw [LeafPage.keyCmp, LeafNode.keyCmp, h.getRemainingKey he, h.prefixLen, hlen, Nat.add_sub_cancel_left,
    (h.described e he).preview]

theorem getElem?_metas (i : Nat) : p.metas[i]? = recs[i]?.map Prod.snd := by
  rw [h.metas, List.getElem?_map]

theorem length_metas : p.metas.length = recs.length := by
  rw [h.metas, List.length_map]

theorem lowerBound (key : Key) :
    page.lowerBound key = (p.lowerBound key).map (fences.length + ·) := by
  have htest : ∀ i, i < recs.length →
      page.keyCmp (page.getKvMeta (fences.length + i)) key =
        LeafNode.slotTest p.metas (key.drop p.prefixLen) i := by
    intro i hi
    have hget : recs[i]? = some recs[i] := List.getElem?_eq_getElem hi
    rw [h.getKvMeta hget, h.keyCmp (List.getElem_mem hi), LeafNode.slotTest, h.getElem?_metas, hget]
    rfl
  have hshift : binarySearch (fun i => page.keyCmp (page.getKvMeta i) key) recs.length
      (fences.length + 0) (fences.length + recs.length) = _ :=
    binarySearch_shift fences.length htest (Nat.le_refl _)
  rw [LeafPage.lowerBound, LeafNode.lowerBound, h.prefixLen, h.firstMetaPosAfterFence,
    h.metaCountWithFence, h.length_metas]
  split
  · rfl
  · rw [Nat.add_zero] at hshift
    dsimp only
    rw [Nat.add_sub_cancel_left, hshift]
    cases binarySearch (LeafNode.slotTest p.metas (key.drop p.prefixLen)) recs.length 0 recs.length <;>
      rfl

/-! ## Fences -/

/-- The slots of the fences. -/
theorem getKvMeta_fence {i : Nat} (hi : i < fences.length) :
    fences[i]? = some (page.getKvMeta i) := by
  have hslot := h.layout.decode_read (i := i) (by rw [List.length_append]; omega)
  rwa [List.getElem?_append_left hi] at hslot

/-- A page with fences begins with their slots. -/
theorem fence_cases (hf : p.hasFence = true) :
    fences = [page.getKvMeta lowFenceIdx, page.getKvMeta highFenceIdx] ∧
      FenceSlot makeInfiniteLowFenceKey (page.getKvMeta lowFenceIdx) p.lowFence ∧
      FenceSlot makeInfiniteHighFenceKey (page.getKvMeta highFenceIdx) p.highFence := by
  have hslots := h.fenceSlots
  rw [FenceSlots, if_pos hf] at hslots
  obtain ⟨low, high, rfl, hlow, hhigh⟩ := hslots
  have hzero : low = page.getKvMeta lowFenceIdx :=
    Option.some.inj (h.getKvMeta_fence (i := 0) (by simp))
  have hone : high = page.getKvMeta highFenceIdx :=
    Option.some.inj (h.getKvMeta_fence (i := 1) (by simp))
  subst hzero hone
  exact ⟨rfl, hlow, hhigh⟩

theorem chunk_read {c : Chunk} (hc : c ∈ fenceChunks p fences) :
    page.data.read c.start c.bytes.length = c.bytes ∧ c.start + c.bytes.length ≤ 32736 := by
  have hmem := List.mem_append_left (recs.map recordChunk) hc
  have hinside := h.layout.block.placed.inside c.region (List.mem_map_of_mem hmem)
  exact ⟨h.layout.block.read c hmem, hinside.trans h.maxDataSize_le⟩

theorem lowFence_chunk (hf : p.hasFence = true) (hne : p.lowFence ≠ []) :
    ⟨(page.getKvMeta lowFenceIdx).offset.toNat, p.lowFence⟩ ∈ fenceChunks p fences := by
  rw [(h.fence_cases hf).1, fenceChunks, fenceChunk, if_neg hne, List.drop_zero]
  exact List.mem_append_left _ (List.mem_singleton.2 rfl)

theorem highFence_chunk (hf : p.hasFence = true) (hne : p.highFence ≠ []) :
    ⟨(page.getKvMeta highFenceIdx).offset.toNat, p.highFence.drop p.prefixLen⟩ ∈
      fenceChunks p fences := by
  rw [(h.fence_cases hf).1, fenceChunks]
  refine List.mem_append_right _ ?_
  rw [fenceChunk, if_neg hne]
  exact List.mem_singleton.2 rfl

theorem isInfiniteLowFenceKey (hf : p.hasFence = true) :
    (page.getKvMeta lowFenceIdx).isInfiniteLowFenceKey = decide (p.lowFence = []) := by
  have hslot := (h.fence_cases hf).2.1
  rw [FenceSlot] at hslot
  split at hslot
  · next hnil => rw [hslot, hnil]; rfl
  · next hne =>
    have hlt := (h.chunk_read (h.lowFence_chunk hf hne)).2
    rw [decide_eq_false hne, PackedMeta.isInfiniteLowFenceKey, decide_eq_false_iff_not]
    intro heq
    rw [heq] at hlt
    simp at hlt
    omega

theorem isInfiniteHighFenceKey (hf : p.hasFence = true) :
    (page.getKvMeta highFenceIdx).isInfiniteHighFenceKey = decide (p.highFence = []) := by
  have hslot := (h.fence_cases hf).2.2
  rw [FenceSlot] at hslot
  split at hslot
  · next hnil => rw [hslot, hnil]; rfl
  · next hne =>
    have hlt := (h.chunk_read (h.highFence_chunk hf hne)).2
    rw [decide_eq_false hne, PackedMeta.isInfiniteHighFenceKey, decide_eq_false_iff_not]
    intro heq
    rw [heq] at hlt
    simp at hlt
    omega

theorem fullWithFences {size : UInt16} {maxFenceLen : Nat}
    (hlt : size.toNat + maxFenceLen < 65536) :
    page.fullWithFences size maxFenceLen = p.fullWithFences size.toNat maxFenceLen := by
  simp only [LeafPage.fullWithFences, LeafNode.fullWithFences, h.hasFence, UInt16.lt_iff_toNat_lt,
    h.remaining]
  split
  · rfl
  · split
    · next hf =>
      obtain ⟨-, hlow, hhigh⟩ := h.fence_cases hf
      have hspace := h.space_le
      have hlowLen : (if p.lowFence = [] then 0 else (page.getKvMeta lowFenceIdx).getKeyLen).toNat =
          p.lowFence.length ∧ p.lowFence.length < 16384 := by
        rw [FenceSlot] at hlow
        split at hlow
        · next hnil => simp [hnil]
        · next hne =>
          rw [if_neg hne, hlow, ← hlow, toNat_getKeyLen]
          omega
      have hhighLen : (if p.highFence = [] then 0 else (page.getKvMeta highFenceIdx).getKeyLen).toNat =
          p.highFence.length ∧ p.highFence.length < 16384 := by
        rw [FenceSlot] at hhigh
        split at hhigh
        · next hnil => simp [hnil]
        · next hne =>
          rw [if_neg hne, hhigh, ← hhigh, toNat_getKeyLen]
          omega
      simp only [h.isInfiniteLowFenceKey hf, h.isInfiniteHighFenceKey hf, decide_eq_true_eq]
      refine congrArg not (decide_eq_decide.2 ?_)
      rw [UInt16.le_iff_toNat_le, UInt16.toNat_add, UInt16.toNat_add, UInt16.toNat_add, h.remaining,
        hlowLen.1, hhighLen.1, toNat_ofNat_of_lt (by omega), Nat.mod_eq_of_lt (by omega),
        Nat.mod_eq_of_lt (by omega), Nat.mod_eq_of_lt (by omega)]
    · rfl

/-! ## Insert -/

/-- Other records and other free bytes between the same fences. -/
theorem of_layout (header : NodeMeta) {data : Memory} {free : Nat}
    {recs' : List (PackedMeta × LeafKVMeta)} (hnode : header.nodeSize = page.header.nodeSize)
    (hencoded : header.encoded.toNat =
      headerFlags p.hasFence p.isCacheOnlyLeaf + (fences.length + recs'.length))
    (hremaining : header.remainingSize.toNat = free)
    (hdescribed : ∀ e ∈ recs', Describes p.prefixLen e.1 e.2)
    (hlayout : Layout data free (LeafNode.maxDataSize p.nodeSize) (fences ++ recs'.map Prod.fst)
      (fenceChunks p fences ++ recs'.map recordChunk)) :
    Image { page with header := header, data := data }
      { p with metas := recs'.map Prod.snd, remainingSize := free } fences recs' where
  nodeSize := by rw [← h.nodeSize, ← hnode]
  nodeSize_le := h.nodeSize_le
  encoded := hencoded
  remaining := hremaining
  prefixLen := h.prefixLen
  nextLevel := h.nextLevel
  metas := rfl
  fits := h.fits
  fenceSlots := h.fenceSlots
  described := hdescribed
  layout := hlayout

end

theorem chunks_middle (p : LeafNode) (fences : List PackedMeta) (A B : List (PackedMeta × LeafKVMeta))
    (e : PackedMeta × LeafKVMeta) :
    fenceChunks p fences ++ (A ++ e :: B).map recordChunk =
      (fenceChunks p fences ++ A.map recordChunk) ++ recordChunk e :: B.map recordChunk := by
  rw [List.map_append, List.map_cons, List.append_assoc]

/-- Both calls panic, or both return the same answer and images of each other. -/
def Agree (fences : List PackedMeta) : Option (Bool × LeafPage) → Option (Bool × LeafNode) → Prop :=
  Option.Rel fun x y => x.1 = y.1 ∧ ∃ recs, Image x.2 y.2 fences recs

theorem Agree.cases {x : Option (Bool × LeafPage)} {y : Option (Bool × LeafNode)}
    (h : Agree fences x y) : x = none ∧ y = none ∨
      ∃ ok page p recs, x = some (ok, page) ∧ y = some (ok, p) ∧ Image page p fences recs := by
  cases h with
  | none => exact .inl ⟨rfl, rfl⟩
  | @some a b h =>
    obtain ⟨heq, recs, himage⟩ := h
    exact .inr ⟨a.1, a.2, b.2, recs, rfl, by rw [heq], himage⟩

section Existing

variable {A B : List (PackedMeta × LeafKVMeta)} (h : Image page p fences (A ++ e :: B))
include h

theorem getKvMeta_middle : page.getKvMeta (fences.length + A.length) = e.1 :=
  h.getKvMeta (by simp)

theorem metas_set (m : PackedMeta) (r : LeafKVMeta) :
    p.metas.set A.length r = (A ++ (m, r) :: B).map Prod.snd := by
  rw [h.metas, List.map_append, List.map_cons, List.map_append, List.map_cons,
    show A.length = (A.map Prod.snd).length by simp, set_length_append]

omit h in
theorem slots_set (m : PackedMeta) (r : LeafKVMeta) :
    (fences ++ (A ++ e :: B).map Prod.fst).set (fences.length + A.length) m =
      fences ++ (A ++ (m, r) :: B).map Prod.fst := by
  rw [List.map_append, List.map_cons, List.map_append, List.map_cons, ← List.append_assoc,
    ← List.append_assoc, show fences.length + A.length = (fences ++ A.map Prod.fst).length by simp,
    set_length_append]

theorem described_middle {m : PackedMeta} {r : LeafKVMeta} (hm : Describes p.prefixLen m r) :
    ∀ x ∈ A ++ (m, r) :: B, Describes p.prefixLen x.1 x.2 := by
  intro x hx
  rcases List.mem_append.1 hx with hx | hx
  · exact h.described x (List.mem_append_left _ hx)
  · rcases List.mem_cons.1 hx with rfl | hx
    · exact hm
    · exact h.described x (List.mem_append_right _ (List.mem_cons_of_mem _ hx))

/-- Change a slot and nothing else. -/
theorem setMeta {m : PackedMeta} {r : LeafKVMeta} (hm : Describes p.prefixLen m r)
    (hchunk : recordChunk (m, r) = recordChunk e) :
    Image (page.writeInitialKvMeta (fences.length + A.length) m) (p.setMeta A.length r) fences
      (A ++ (m, r) :: B) := by
  have hlayout := h.layout.setSlot (i := fences.length + A.length) (by simp) (length_encode m) (decode_encode m)
  rw [slots_set m r, chunks_middle, ← hchunk, ← chunks_middle] at hlayout
  have himage := h.of_layout page.header rfl (by rw [h.encoded]; simp) h.remaining (h.described_middle hm) hlayout
  rwa [← h.metas_set] at himage

/-- Overwrite the value and change the slot. -/
theorem setValue {m : PackedMeta} {value : Value} {op : OpType}
    (hm : Describes p.prefixLen m { e.2 with value := value, opType := op })
    (hoffset : m.offset = e.1.offset) (hle : value.length ≤ e.2.value.length) :
    Image (({ page with data := page.data.write (e.1.offset.toNat + e.2.remainingKey.length) value } :
        LeafPage).writeInitialKvMeta (fences.length + A.length) m)
      (p.setMeta A.length { e.2 with value := value, opType := op }) fences
      (A ++ (m, { e.2 with value := value, opType := op }) :: B) := by
  have hroom : e.2.remainingKey.length + value.length ≤ (recordChunk e).bytes.length := by
    simp only [recordChunk, List.length_append]
    exact Nat.add_le_add_left hle _
  have hchunk : (⟨(recordChunk e).start, (recordChunk e).bytes.take e.2.remainingKey.length ++ value⟩ :
      Chunk) = recordChunk (m, { e.2 with value := value, opType := op }) := by
    simp only [recordChunk, hoffset, List.take_left]
  have hlayout := h.layout
  rw [chunks_middle] at hlayout
  have hset := (hlayout.overwrite hroom).setSlot (i := fences.length + A.length) (by simp)
    (length_encode m) (decode_encode m)
  rw [slots_set m { e.2 with value := value, opType := op }, hchunk, ← chunks_middle] at hset
  have himage := h.of_layout page.header rfl (by rw [h.encoded]; simp) h.remaining (h.described_middle hm) hset
  rwa [← h.metas_set] at himage

/-- Give up the bytes of a record for a new place. -/
theorem moveValue {m : PackedMeta} {value : Value} {op : OpType} {kvLen : UInt16}
    (hm : Describes p.prefixLen m { e.2 with value := value, opType := op })
    (hkvLen : kvLen.toNat = e.2.remainingKey.length + value.length) (hle : kvLen.toNat ≤ p.remainingSize)
    (hoffset : m.offset.toNat =
      (fences.length + (A ++ e :: B).length) * 8 + p.remainingSize - kvLen.toNat) :
    Image { page with
        header := page.header.take kvLen
        data := (page.data.write ((fences.length + A.length) * kvMetaSize) m.encode).write
          m.offset.toNat (e.2.remainingKey ++ value) }
      { p.setMeta A.length { e.2 with value := value, opType := op } with
        remainingSize := p.remainingSize - kvLen.toNat } fences
      (A ++ (m, { e.2 with value := value, opType := op }) :: B) := by
  have hbytes : (e.2.remainingKey ++ value).length = kvLen.toNat := by
    rw [hkvLen, List.length_append]
  have hset := h.layout.setSlot (i := fences.length + A.length) (by simp) (length_encode m) (decode_encode m)
  rw [slots_set m { e.2 with value := value, opType := op }, chunks_middle] at hset
  have hpush := hset.push ((List.sublist_cons_self _ _).append_left _) (hbytes.trans_le hle)
  have hstart : (fences ++ (A ++ (m, { e.2 with value := value, opType := op }) :: B).map
      Prod.fst).length * kvMetaSize + p.remainingSize - (e.2.remainingKey ++ value).length =
        m.offset.toNat := by
    rw [hoffset, hbytes, kvMetaSize]
    simp
  rw [hstart, hbytes] at hpush
  have hremaining : (page.header.take kvLen).remainingSize.toNat = p.remainingSize - kvLen.toNat := by
    rw [NodeMeta.take, UInt16.toNat_sub_of_le, h.remaining]
    rwa [UInt16.le_iff_toNat_le, h.remaining]
  have hchunk : (⟨m.offset.toNat, e.2.remainingKey ++ value⟩ : Chunk) =
      recordChunk (m, { e.2 with value := value, opType := op }) := rfl
  rw [hchunk, ← chunks_middle] at hpush
  have hencoded : (page.header.take kvLen).encoded.toNat =
      headerFlags p.hasFence p.isCacheOnlyLeaf + (fences.length +
        (A ++ (m, { e.2 with value := value, opType := op }) :: B).length) := by
    rw [NodeMeta.take, h.encoded]
    simp
  have himage := h.of_layout (page.header.take kvLen) rfl hencoded hremaining (h.described_middle hm) hpush
  rwa [← h.metas_set] at himage

/-- The key is there. -/
theorem insertExisting {key : Key} {value : Value} (op : OpType) {postFixLen valLen : UInt16}
    (hkey : e.2.remainingKey = key.drop p.prefixLen) (hpost : postFixLen.toNat = e.2.remainingKey.length)
    (hval : valLen = UInt16.ofNat value.length) (hkeyLen : key.length < 16384)
    (hvalue : value.length < 32768) :
    Agree fences (page.insertExisting (fences.length + A.length) postFixLen valLen key value op)
      (p.insertExisting A.length e.2 ((key.drop p.prefixLen).length + value.length) value op) := by
  have hdescribes := h.described e (by simp)
  have hlen : e.2.remainingKey.length ≤ key.length := by
    rw [hkey, List.length_drop]
    omega
  have hvalLen : valLen.toNat = value.length := by
    rw [hval, toNat_ofNat_of_lt (by omega)]
  have hkvLen : (postFixLen + valLen).toNat = e.2.remainingKey.length + value.length := by
    rw [UInt16.toNat_add, hpost, hvalLen]
    omega
  have hnew : Describes p.prefixLen ((e.1.setValueLen valLen).setOpType op)
      { e.2 with value := value, opType := op } := by
    rw [hval]
    exact (hdescribes.setValueLen (by omega)).setOpType op
  rw [LeafPage.insertExisting, LeafNode.insertExisting, h.getKvMeta_middle, ← hkey]
  by_cases hdelete : op = .delete
  · rw [if_pos hdelete, if_pos hdelete]
    exact .some ⟨rfl, _, h.setMeta (hdescribes.setOpType .delete) rfl⟩
  · rw [if_neg hdelete, if_neg hdelete]
    by_cases hle : value.length ≤ e.2.value.length
    · rw [if_pos (UInt16.le_iff_toNat_le.2 (by rwa [hvalLen, hdescribes.valueLen])), if_pos hle, hpost]
      exact .some ⟨rfl, _, h.setValue hnew rfl hle⟩
    · rw [if_neg (mt UInt16.le_iff_toNat_le.1 (by rwa [hvalLen, hdescribes.valueLen])), if_neg hle]
      by_cases hroom : p.remainingSize < e.2.remainingKey.length + value.length
      · rw [if_pos (UInt16.lt_iff_toNat_lt.2 (by rwa [h.remaining, hkvLen])), if_pos hroom]
        exact .some ⟨rfl, _, h⟩
      · rw [if_neg (mt UInt16.lt_iff_toNat_lt.1 (by rwa [h.remaining, hkvLen])), if_neg hroom]
        by_cases hcache : op = .cache
        · rw [if_pos hcache, if_pos hcache]
          exact .none
        · rw [if_neg hcache, if_neg hcache]
          have hroom' : (postFixLen + valLen).toNat ≤ p.remainingSize := by omega
          have hoffset : (page.currentLowestOffset - (postFixLen + valLen)).toNat =
              (fences.length + (A ++ e :: B).length) * 8 + p.remainingSize -
                (postFixLen + valLen).toNat := by
            rw [UInt16.toNat_sub_of_le, h.currentLowestOffset]
            rw [UInt16.le_iff_toNat_le, h.currentLowestOffset]
            omega
          have hmove := h.moveValue (hnew.setOffset _) hkvLen hroom' hoffset
          rw [hkvLen, ← Memory.write_append] at hmove
          simp only [LeafPage.writePair, LeafPage.writeInitialKvMeta, h.prefixLen, hpost, ← hkey]
          exact .some ⟨rfl, _, hmove⟩

end Existing

theorem slots_insert {A B : List (PackedMeta × LeafKVMeta)} (m : PackedMeta) (r : LeafKVMeta) :
    (fences ++ (A ++ B).map Prod.fst).insertIdx (fences.length + A.length) m =
      fences ++ (A ++ (m, r) :: B).map Prod.fst := by
  rw [List.map_append, List.map_append, List.map_cons, ← List.append_assoc, ← List.append_assoc,
    show fences.length + A.length = (fences ++ A.map Prod.fst).length by simp, insertIdx_length_append]

section New

variable {A B : List (PackedMeta × LeafKVMeta)} (h : Image page p fences (A ++ B))
include h

/-- The key is not there. -/
theorem insertNew {key : Key} {value : Value} (op : OpType) {postFixLen valLen : UInt16}
    (hpre : p.prefixLen ≤ key.length) (hpost : postFixLen.toNat = (key.drop p.prefixLen).length)
    (hval : valLen = UInt16.ofNat value.length) (hkey : key.length < 16384)
    (hvalue : value.length < 32768)
    (hroom : (key.drop p.prefixLen).length + value.length + kvMetaSize ≤ p.remainingSize) :
    ∃ m, Image (page.insertNew (fences.length + A.length) postFixLen valLen key value op)
      { p with
        metas := p.metas.insertIdx A.length (LeafKVMeta.makePrefixedMeta value key p.prefixLen op)
        remainingSize := p.remainingSize - ((key.drop p.prefixLen).length + value.length + kvMetaSize) }
      fences (A ++ (m, LeafKVMeta.makePrefixedMeta value key p.prefixLen op) :: B) := by
  have hdrop : (key.drop p.prefixLen).length ≤ key.length := by
    rw [List.length_drop]
    omega
  have hvalLen : valLen.toNat = value.length := by
    rw [hval, toNat_ofNat_of_lt (by omega)]
  have hkvLen : (postFixLen + valLen).toNat = (key.drop p.prefixLen).length + value.length := by
    rw [UInt16.toNat_add, hpost, hvalLen]
    omega
  have hspace := h.space_le
  have hoffset : (page.currentLowestOffset - (postFixLen + valLen)).toNat =
      (fences.length + (A ++ B).length) * 8 + p.remainingSize -
        ((key.drop p.prefixLen).length + value.length) := by
    rw [UInt16.toNat_sub_of_le, h.currentLowestOffset, hkvLen]
    rw [UInt16.le_iff_toNat_le, h.currentLowestOffset, hkvLen]
    omega
  simp only [LeafPage.insertNew, LeafPage.writeInitialKvMeta, LeafPage.writePair]
  generalize hoff : page.currentLowestOffset - (postFixLen + valLen) = offset at hoffset ⊢
  generalize hm : makePrefixedMeta offset valLen key page.prefixLen op = m
  have hmoffset : m.offset = offset := by rw [← hm, makePrefixedMeta]
  have hdescribes : Describes p.prefixLen m (LeafKVMeta.makePrefixedMeta value key p.prefixLen op) := by
    rw [← hm, hval, ← h.prefixLen]
    exact Describes.make (by rwa [h.prefixLen]) hkey (by omega) offset op
  -- the slot takes the lowest free bytes, the record the highest ones
  have hslot := h.layout.insertSlot (i := fences.length + A.length) (by simp) (by omega)
    (length_encode m) (decode_encode m)
  rw [slots_insert m (LeafKVMeta.makePrefixedMeta value key p.prefixLen op)] at hslot
  have hbytes : (key.drop p.prefixLen ++ value).length ≤ p.remainingSize - kvMetaSize := by
    rw [List.length_append]
    omega
  have hpush := hslot.push (A := fenceChunks p fences ++ A.map recordChunk) (B := B.map recordChunk)
    (by rw [List.map_append, List.append_assoc]) hbytes
  have hstart : (fences ++ (A ++ (m, LeafKVMeta.makePrefixedMeta value key p.prefixLen op) :: B).map
      Prod.fst).length * kvMetaSize + (p.remainingSize - kvMetaSize) -
        (key.drop p.prefixLen ++ value).length = offset.toNat := by
    rw [hoffset, kvMetaSize]
    rw [kvMetaSize] at hroom
    simp only [List.length_append, List.length_map, List.length_cons]
    omega
  have hfree : p.remainingSize - kvMetaSize - (key.drop p.prefixLen ++ value).length =
      p.remainingSize - ((key.drop p.prefixLen).length + value.length + kvMetaSize) := by
    rw [List.length_append]
    omega
  have hchunk : (⟨offset.toNat, key.drop p.prefixLen ++ value⟩ : Chunk) =
      recordChunk (m, LeafKVMeta.makePrefixedMeta value key p.prefixLen op) := by
    rw [recordChunk, ← hmoffset]
    rfl
  rw [hstart, hfree, hchunk, ← chunks_middle, ← Memory.write_append] at hpush
  have hcount := h.counts.increment (by omega)
  have hsum : (postFixLen + valLen + UInt16.ofNat kvMetaSize).toNat =
      (key.drop p.prefixLen).length + value.length + kvMetaSize := by
    rw [UInt16.toNat_add, hkvLen, toNat_ofNat_of_lt (by decide), kvMetaSize]
    omega
  have hencoded : (page.header.take (postFixLen + valLen + UInt16.ofNat
      kvMetaSize)).incrementValueCount.encoded.toNat =
      headerFlags p.hasFence p.isCacheOnlyLeaf + (fences.length +
        (A ++ (m, LeafKVMeta.makePrefixedMeta value key p.prefixLen op) :: B).length) := by
    refine hcount.1.trans ?_
    simp only [List.length_append, List.length_cons]
    omega
  have hremaining : (page.header.take (postFixLen + valLen + UInt16.ofNat
      kvMetaSize)).incrementValueCount.remainingSize.toNat =
      p.remainingSize - ((key.drop p.prefixLen).length + value.length + kvMetaSize) := by
    rw [NodeMeta.incrementValueCount, NodeMeta.take, UInt16.toNat_sub_of_le, h.remaining, hsum]
    rwa [UInt16.le_iff_toNat_le, h.remaining, hsum]
  have hall : ∀ x ∈ A ++ (m, LeafKVMeta.makePrefixedMeta value key p.prefixLen op) :: B,
      Describes p.prefixLen x.1 x.2 := by
    intro x hx
    rcases List.mem_append.1 hx with hx | hx
    · exact h.described x (List.mem_append_left _ hx)
    · rcases List.mem_cons.1 hx with rfl | hx
      · exact hdescribes
      · exact h.described x (List.mem_append_right _ hx)
  have himage := h.of_layout (page.header.take (postFixLen + valLen + UInt16.ofNat
    kvMetaSize)).incrementValueCount rfl hencoded hremaining hall hpush
  refine ⟨m, ?_⟩
  have hmetas : p.metas.insertIdx A.length (LeafKVMeta.makePrefixedMeta value key p.prefixLen op) =
      (A ++ (m, LeafKVMeta.makePrefixedMeta value key p.prefixLen op) :: B).map Prod.snd := by
    rw [h.metas, List.map_append, List.map_append, List.map_cons,
      show A.length = (A.map Prod.snd).length by simp, insertIdx_length_append]
  rw [hmetas]
  have hlen : (fences ++ (A ++ B).map Prod.fst).length = page.metaCountWithFence := by
    rw [h.metaCountWithFence]
    simp
  rw [hlen] at himage
  simp only [h.prefixLen, hpost]
  exact himage

end New

section

variable (h : Image page p fences recs)
include h

/-- **An insert does the same to the bytes as to the records**, if the slot has room for the
lengths. -/
theorem insert_of_lt {key : Key} {value : Value} (op : OpType) {maxFenceLen : Nat}
    (hkey : key.length < 16384) (hvalue : value.length < 32768)
    (hfence : maxFenceLen / 2 ≤ maxKeyLen) :
    Agree fences (page.insert key value op maxFenceLen) (p.insert key value op maxFenceLen) := by
  rw [maxKeyLen] at hfence
  simp only [LeafPage.insert, LeafNode.insert, h.lowerBound, Option.bind_eq_bind]
  cases hlb : p.lowerBound key with
  | none => exact .none
  | some pos =>
    simp only [Option.map_some, Option.bind_some]
    have hpre : p.prefixLen ≤ key.length := by
      rw [LeafNode.lowerBound] at hlb
      split at hlb
      · cases hlb
      · omega
    have hpos : pos ≤ recs.length := h.length_metas ▸ LeafNode.lowerBound_le hlb
    have hpost : (UInt16.ofNat key.length - page.prefixLen).toNat = (key.drop p.prefixLen).length := by
      rw [UInt16.toNat_sub_of_le, toNat_ofNat_of_lt (by omega), h.prefixLen, List.length_drop]
      rw [UInt16.le_iff_toNat_le, toNat_ofNat_of_lt (by omega), h.prefixLen]
      exact hpre
    have hsum : (UInt16.ofNat key.length - page.prefixLen + UInt16.ofNat value.length +
        UInt16.ofNat kvMetaSize).toNat =
          (key.drop p.prefixLen).length + value.length + kvMetaSize := by
      rw [UInt16.toNat_add, UInt16.toNat_add, hpost, toNat_ofNat_of_lt (by omega),
        toNat_ofNat_of_lt (by decide), List.length_drop, kvMetaSize]
      omega
    -- the key is not in a slot
    have hnew : Agree fences
        (if op = .delete ∧ page.isBasePage then some (true, page)
          else if page.fullWithFences (UInt16.ofNat key.length - page.prefixLen +
              UInt16.ofNat value.length + UInt16.ofNat kvMetaSize) maxFenceLen then
            some (false, page)
          else some (true, page.insertNew (fences.length + pos)
            (UInt16.ofNat key.length - page.prefixLen) (UInt16.ofNat value.length) key value op))
        (some (p.insertNew pos ((key.drop p.prefixLen).length + value.length) key value op
          maxFenceLen)) := by
      have hlen : (key.drop p.prefixLen).length ≤ key.length := by
        rw [List.length_drop]
        omega
      have hlt : (UInt16.ofNat key.length - page.prefixLen + UInt16.ofNat value.length +
          UInt16.ofNat kvMetaSize).toNat + maxFenceLen < 65536 := by
        rw [hsum, kvMetaSize]
        omega
      rw [LeafNode.insertNew, h.isBasePage, h.fullWithFences hlt, hsum]
      split
      · exact .some ⟨rfl, recs, h⟩
      · split
        · exact .some ⟨rfl, recs, h⟩
        · next hroom =>
          have hsplit : recs.take pos ++ recs.drop pos = recs := List.take_append_drop pos recs
          have htake : (recs.take pos).length = pos := by rw [List.length_take, min_eq_left hpos]
          have hmid := h
          rw [← hsplit] at hmid
          obtain ⟨m, himage⟩ := hmid.insertNew op hpre hpost rfl hkey hvalue
            (by
              rw [LeafNode.fullWithFences] at hroom
              split at hroom
              · exact absurd rfl hroom
              · omega)
          rw [htake] at himage
          exact .some ⟨rfl, _, himage⟩
    by_cases hlt : pos < recs.length
    · have hget : recs[pos]? = some recs[pos] := List.getElem?_eq_getElem hlt
      rw [h.getKvMeta hget, h.getRemainingKey (List.getElem_mem hlt), h.prefixLen, h.getElem?_metas, hget]
      simp only [Option.map_some]
      by_cases heq : recs[pos].2.remainingKey = key.drop p.prefixLen
      · rw [if_pos ⟨by rw [h.metaCountWithFence]; omega, heq⟩, if_pos heq]
        have hsplit : recs.take pos ++ recs[pos] :: recs.drop (pos + 1) = recs := by simp
        have htake : (recs.take pos).length = pos := by rw [List.length_take, min_eq_left hpos]
        have hmid := h
        rw [← hsplit] at hmid
        have hex := hmid.insertExisting op heq (by rw [hpost, heq]) rfl hkey hvalue
        rwa [htake] at hex
      · rw [if_neg (fun hc => heq hc.2), if_neg heq]
        exact hnew
    · rw [if_neg (fun hc => hlt (by rw [h.metaCountWithFence] at hc; omega)), h.getElem?_metas,
        List.getElem?_eq_none (by omega)]
      exact hnew

theorem insert {key : Key} {value : Value} (op : OpType) {maxFenceLen : Nat}
    (hkey : key.length ≤ maxKeyLen) (hvalue : value.length ≤ maxValueLen)
    (hfence : maxFenceLen / 2 ≤ maxKeyLen) :
    Agree fences (page.insert key value op maxFenceLen) (p.insert key value op maxFenceLen) := by
  rw [maxKeyLen] at hkey
  rw [maxValueLen] at hvalue
  exact h.insert_of_lt op (by omega) (by omega) hfence

end

end Image

/-! ## Initialization -/

/-- What installing a fence leaves: a slot behind the others and the bytes of the key. -/
structure Installed (page page' : LeafPage) (flags size cut : Nat) (infinite : PackedMeta) (key : Key)
    (S : List PackedMeta) (cs : List Chunk) (m : PackedMeta) : Prop where
  header : page' = { page with header := page'.header, data := page'.data }
  nodeSize : page'.header.nodeSize = page.header.nodeSize
  encoded : page'.header.encoded.toNat = flags + (S.length + 1)
  remaining : page'.header.remainingSize.toNat =
    page.header.remainingSize.toNat - kvMetaSize - (key.length - cut)
  slot : FenceSlot infinite m key
  layout : Layout page'.data page'.header.remainingSize.toNat size (S ++ [m])
    (cs ++ fenceChunk m key cut)

namespace LeafPage

variable {page page' : LeafPage} {f c : Bool} {size cut : Nat} {S : List PackedMeta} {cs : List Chunk}
  {key : Key} {isHighFence : Bool}

theorem toNat_take {n : NodeMeta} {size : UInt16} (h : size.toNat ≤ n.remainingSize.toNat) :
    (n.take size).remainingSize.toNat = n.remainingSize.toNat - size.toNat := by
  rw [NodeMeta.take, UInt16.toNat_sub_of_le]
  rwa [UInt16.le_iff_toNat_le]

/-- The bytes of a fence that are stored. -/
theorem toNat_fenceLen (hkey : key.length < 16384)
    (hcut : cut = if isHighFence then page.prefixLen.toNat else 0) (hle : cut ≤ key.length) :
    (if isHighFence then page.prefixLen else 0).toNat = cut ∧
      (UInt16.ofNat key.length - if isHighFence then page.prefixLen else 0).toNat = key.length - cut := by
  have hpre : (if isHighFence then page.prefixLen else 0).toNat = cut := by
    rw [hcut]
    cases isHighFence <;> rfl
  refine ⟨hpre, ?_⟩
  rw [UInt16.toNat_sub_of_le, toNat_ofNat_of_lt (by omega), hpre]
  rwa [UInt16.le_iff_toNat_le, toNat_ofNat_of_lt (by omega), hpre]

/-- The two ways to install a fence. -/
theorem installFenceKey_eq (hslot : kvMetaSize ≤ page.header.remainingSize.toNat) :
    page.installFenceKey key isHighFence =
      if key = [] then
        some { page with
          header := page.header.incrementValueCount.take (UInt16.ofNat kvMetaSize)
          data := page.data.write (page.metaCountWithFence * kvMetaSize)
            (if isHighFence then makeInfiniteHighFenceKey else makeInfiniteLowFenceKey).encode }
      else
        let cut := if isHighFence then page.prefixLen else 0
        let kvLen := UInt16.ofNat key.length - cut
        let header := page.header.incrementValueCount.take (UInt16.ofNat kvMetaSize)
        let offset := page.currentLowestOffset - kvLen
        if kvLen ≤ header.remainingSize then
          some { page with
            header := header.take kvLen
            data := (page.data.write (page.metaCountWithFence * kvMetaSize)
              (makePrefixedMeta offset 0 key cut .insert).encode).write offset.toNat
                (key.drop cut.toNat) }
        else none := by
  simp only [installFenceKey, guard, if_pos hslot]
  split
  · rfl
  · generalize (if isHighFence = true then page.prefixLen else 0) = pre
    split <;> rfl

theorem installFenceKey_fits (isHighFence : Bool) (cut : Nat) (hkey : key.length < 16384)
    (hcut : cut = if isHighFence then page.prefixLen.toNat else 0) (hle : key ≠ [] → cut ≤ key.length)
    (h : page.installFenceKey key isHighFence = some page') :
    kvMetaSize + (key.length - cut) ≤ page.header.remainingSize.toNat := by
  by_cases hslot : kvMetaSize ≤ page.header.remainingSize.toNat
  · rw [installFenceKey_eq hslot] at h
    split at h
    · next hnil =>
      rw [hnil, List.length_nil]
      omega
    · next hne =>
      have hlen := (toNat_fenceLen hkey hcut (hle hne)).2
      dsimp only at h
      generalize (if isHighFence = true then page.prefixLen else 0) = pre at h hlen
      split at h
      · next hroom =>
        have htake : (page.header.incrementValueCount.take
            (UInt16.ofNat kvMetaSize)).remainingSize.toNat =
              page.header.remainingSize.toNat - kvMetaSize := toNat_take hslot
        rw [UInt16.le_iff_toNat_le, hlen, htake] at hroom
        omega
      · cases h
  · simp only [installFenceKey, guard, if_neg hslot] at h
    cases h

theorem installFenceKey_of_fits (isHighFence : Bool) (cut : Nat)
    (hlayout : Layout page.data page.header.remainingSize.toNat size S cs) (hsize : size ≤ 32736)
    (hcounts : page.header.Counts f c S.length) (hkey : key.length < 16384)
    (hcut : cut = if isHighFence then page.prefixLen.toNat else 0) (hle : key ≠ [] → cut ≤ key.length)
    (hfits : kvMetaSize + (key.length - cut) ≤ page.header.remainingSize.toNat) :
    ∃ page' m, page.installFenceKey key isHighFence = some page' ∧
      Installed page page' (headerFlags f c) size cut
        (if isHighFence then makeInfiniteHighFenceKey else makeInfiniteLowFenceKey) key S cs m := by
  have hspace := hlayout.le
  have hslot : kvMetaSize ≤ page.header.remainingSize.toNat := by omega
  have hcount : page.metaCountWithFence = S.length := hcounts.metaCountWithFence
  have hincrement : page.header.incrementValueCount.encoded.toNat = headerFlags f c + (S.length + 1) := by
    rw [kvMetaSize] at hspace hslot
    exact (hcounts.increment (by omega)).1
  have htake : (page.header.incrementValueCount.take (UInt16.ofNat kvMetaSize)).remainingSize.toNat =
      page.header.remainingSize.toNat - kvMetaSize := toNat_take hslot
  rw [installFenceKey_eq hslot, hcount]
  by_cases hnil : key = []
  · rw [if_pos hnil]
    refine ⟨_, if isHighFence then makeInfiniteHighFenceKey else makeInfiniteLowFenceKey, rfl, rfl, rfl,
      hincrement, ?_, ?_, ?_⟩
    · rw [hnil, List.length_nil, Nat.zero_sub, Nat.sub_zero]
      exact htake
    · rw [FenceSlot, if_pos hnil]
    · rw [fenceChunk, if_pos hnil, List.append_nil, htake]
      exact hlayout.appendSlot hslot (length_encode _) (decode_encode _)
  · obtain ⟨hpre, hlen⟩ := toNat_fenceLen hkey hcut (hle hnil)
    rw [if_neg hnil]
    dsimp only
    generalize (if isHighFence = true then page.prefixLen else 0) = pre at hpre hlen ⊢
    have hroom : (UInt16.ofNat key.length - pre).toNat ≤
        (page.header.incrementValueCount.take (UInt16.ofNat kvMetaSize)).remainingSize.toNat := by
      rw [hlen, htake]
      omega
    rw [if_pos (UInt16.le_iff_toNat_le.2 hroom)]
    generalize hoff : page.currentLowestOffset - (UInt16.ofNat key.length - pre) = offset
    have hoffset : offset.toNat =
        S.length * kvMetaSize + page.header.remainingSize.toNat - (key.length - cut) := by
      have hlow : page.currentLowestOffset.toNat =
          S.length * kvMetaSize + page.header.remainingSize.toNat := by
        have hmeta : page.header.metaCountWithFence.toNat = S.length := hcount
        rw [kvMetaSize] at hspace ⊢
        rw [currentLowestOffset, UInt16.toNat_add, UInt16.toNat_mul, hmeta,
          toNat_ofNat_of_lt (by decide), kvMetaSize]
        omega
      rw [← hoff, UInt16.toNat_sub_of_le, hlow, hlen]
      rw [UInt16.le_iff_toNat_le, hlow, hlen]
      omega
    refine ⟨_, makePrefixedMeta offset 0 key pre .insert, rfl, rfl, rfl, hincrement, ?_, ?_, ?_⟩
    · rw [toNat_take hroom, htake, hlen]
    · rw [FenceSlot, if_neg hnil]
      exact getKeyLen_make hkey
    · have hbytes : (key.drop cut).length = key.length - cut := List.length_drop
      have happend := hlayout.appendSlot hslot
        (length_encode (makePrefixedMeta offset 0 key pre .insert)) (decode_encode _)
      have hpush := happend.push (A := cs) (B := []) (by rw [List.append_nil])
        (show (key.drop cut).length ≤ _ by rw [hbytes]; omega)
      have hstart : (S ++ [makePrefixedMeta offset 0 key pre .insert]).length * kvMetaSize +
          (page.header.remainingSize.toNat - kvMetaSize) - (key.drop cut).length = offset.toNat := by
        rw [hoffset, hbytes, List.length_append, List.length_singleton, Nat.succ_mul]
        omega
      rw [hstart, hbytes] at hpush
      rw [toNat_take hroom, htake, hlen, hpre, fenceChunk, if_neg hnil]
      exact hpush

section Initialize

variable {lo hi : Key} (page : LeafPage) (next : Option Nat) (version : UInt64)

/-- The page before its fences are installed. -/
def blank (page : LeafPage) (prefixLen : UInt16) (nodeSize : Nat) (next : Option Nat)
    (hasFence cacheOnly : Bool) (version : UInt64) : LeafPage where
  header := .new (UInt16.ofNat (LeafNode.maxDataSize nodeSize)) hasFence (UInt16.ofNat nodeSize) cacheOnly
  prefixLen := prefixLen
  nextLevel := next
  snapshotVersion := version &&& 0x7FFFFFFFFFFFFFFF
  data := page.data

theorem toNat_blank (hsize : size ≤ maxLeafPageSize) (pre : UInt16) (f c : Bool) :
    (page.blank pre size next f c version).header.nodeSize.toNat = size ∧
      (page.blank pre size next f c version).header.remainingSize.toNat = LeafNode.maxDataSize size := by
  rw [maxLeafPageSize] at hsize
  refine ⟨toNat_ofNat_of_lt (by omega), toNat_ofNat_of_lt ?_⟩
  rw [LeafNode.maxDataSize]
  omega

theorem initializePage_fence :
    page.initializePage lo hi size next true c version =
      ((page.blank (UInt16.ofNat (commonPrefixLen lo hi)) size next true c version).installFenceKey lo
        false).bind (·.installFenceKey hi true) := rfl

/-- A page without fences is empty. -/
theorem image_blank (hsize : size ≤ maxLeafPageSize) (v : Nat) :
    Image (page.blank 0 size next false c version)
      (LeafNode.initializeNode [] [] size next false c v) [] [] := by
  obtain ⟨hnode, hremaining⟩ := page.toNat_blank next version hsize 0 false c
  exact {
    nodeSize := hnode
    nodeSize_le := hsize
    encoded := (NodeMeta.counts_new ..).1
    remaining := hremaining
    prefixLen := rfl
    nextLevel := rfl
    metas := rfl
    fits := nofun
    fenceSlots := rfl
    described := nofun
    layout := Slotted.empty _ _ }

/-- The room for two fences. -/
def FencesFit (lo hi : Key) (nodeSize : Nat) : Prop :=
  kvMetaSize + lo.length + kvMetaSize + (hi.length - commonPrefixLen lo hi) ≤
    LeafNode.maxDataSize nodeSize

theorem maxDataSize_le (hsize : size ≤ maxLeafPageSize) : LeafNode.maxDataSize size ≤ 32736 := by
  rw [maxLeafPageSize] at hsize
  rw [LeafNode.maxDataSize, leafHeaderSize]
  omega

/-- The low fence comes first. -/
theorem installFenceKey_blank (hsize : size ≤ maxLeafPageSize) (hlo : lo.length < 16384)
    (hfits : kvMetaSize + lo.length ≤ LeafNode.maxDataSize size) (pre : UInt16) (c : Bool) :
    ∃ page₁ low, (page.blank pre size next true c version).installFenceKey lo false = some page₁ ∧
      page₁.prefixLen = pre ∧ page₁.nextLevel = next ∧ page₁.header.nodeSize.toNat = size ∧
      page₁.header.remainingSize.toNat = LeafNode.maxDataSize size - kvMetaSize - lo.length ∧
      page₁.header.Counts true c [low].length ∧ FenceSlot makeInfiniteLowFenceKey low lo ∧
      Layout page₁.data page₁.header.remainingSize.toNat (LeafNode.maxDataSize size) [low]
        (fenceChunk low lo 0) := by
  obtain ⟨hnode, hremaining⟩ := page.toNat_blank next version hsize pre true c
  have hempty : Layout (page.blank pre size next true c version).data
      (page.blank pre size next true c version).header.remainingSize.toNat (LeafNode.maxDataSize size)
      [] [] := by
    rw [hremaining]
    exact Slotted.empty _ _
  obtain ⟨page₁, low, hlow, hin⟩ := installFenceKey_of_fits false 0 hempty (maxDataSize_le hsize)
    (NodeMeta.counts_new ..) hlo rfl (fun _ => Nat.zero_le _) (by rw [hremaining]; exact hfits)
  refine ⟨page₁, low, hlow, by rw [hin.header]; rfl, by rw [hin.header]; rfl, ?_, ?_,
    ⟨hin.encoded, (by decide : 1 < 4096)⟩, hin.slot, hin.layout⟩
  · rw [hin.nodeSize, hnode]
  · rw [hin.remaining, hremaining]
    rfl

theorem initializePage_of_fits (hsize : size ≤ maxLeafPageSize) (hlo : lo.length < 16384)
    (hhi : hi.length < 16384) (hfits : FencesFit lo hi size) (v : Nat) :
    ∃ page' fences, page.initializePage lo hi size next true c version = some page' ∧
      Image page' (LeafNode.initializeNode lo hi size next true c v) fences [] := by
  have hcut := commonPrefixLen_le lo hi
  rw [FencesFit] at hfits
  obtain ⟨page₁, low, hlow, hcommon, hnext, hnode, hremaining, hcounts, hslot, hlayout⟩ :=
    page.installFenceKey_blank next version hsize hlo (by omega)
      (UInt16.ofNat (commonPrefixLen lo hi)) c
  have hprefixLen : page₁.prefixLen.toNat = commonPrefixLen lo hi := by
    rw [hcommon, toNat_ofNat_of_lt (by omega)]
  obtain ⟨page₂, high, hhigh, hin⟩ := installFenceKey_of_fits true _ hlayout (maxDataSize_le hsize)
    hcounts hhi hprefixLen.symm (fun _ => commonPrefixLen_le_right lo hi) (by rw [hremaining]; omega)
  have hremaining₂ : page₂.header.remainingSize.toNat =
      (LeafNode.initializeNode lo hi size next true c v).remainingSize := by
    rw [hin.remaining, hremaining]
    rfl
  have hlayout₂ := hin.layout
  rw [hremaining₂] at hlayout₂
  refine ⟨page₂, [low, high], by rw [initializePage_fence, hlow]; exact hhigh, ?_⟩
  exact {
    nodeSize := by rw [hin.nodeSize, hnode]; rfl
    nodeSize_le := hsize
    encoded := hin.encoded
    remaining := hremaining₂
    prefixLen := by rw [hin.header, hprefixLen]; rfl
    nextLevel := by rw [hin.header, hnext]; rfl
    metas := rfl
    fits := fun _ => hfits
    fenceSlots := ⟨low, high, rfl, hslot, hin.slot⟩
    described := nofun
    layout := by
      rw [List.map_nil, List.append_nil, List.map_nil, List.append_nil]
      exact hlayout₂ }

theorem initializePage_fits (hsize : size ≤ maxLeafPageSize) (hlo : lo.length < 16384)
    (hhi : hi.length < 16384) {page' : LeafPage}
    (h : page.initializePage lo hi size next true c version = some page') : FencesFit lo hi size := by
  have hcut := commonPrefixLen_le lo hi
  rw [initializePage_fence] at h
  obtain ⟨page₁, hlow, hhigh⟩ := Option.bind_eq_some_iff.1 h
  have hroom := installFenceKey_fits false 0 hlo rfl (fun _ => Nat.zero_le _) hlow
  rw [(page.toNat_blank next version hsize _ true c).2, Nat.sub_zero] at hroom
  obtain ⟨page₁', low, hlow', hcommon, -, -, hremaining, -⟩ :=
    page.installFenceKey_blank next version hsize hlo hroom
      (UInt16.ofNat (commonPrefixLen lo hi)) c
  obtain rfl : page₁ = page₁' := Option.some.inj (hlow.symm.trans hlow')
  have hprefixLen : page₁.prefixLen.toNat = commonPrefixLen lo hi := by
    rw [hcommon, toNat_ofNat_of_lt (by omega)]
  have hroom' := installFenceKey_fits true _ hhi hprefixLen.symm
    (fun _ => commonPrefixLen_le_right lo hi) hhigh
  rw [FencesFit]
  omega

/-- **A new page is an image of the new page of records.** -/
theorem image_initializePage (hsize : size ≤ maxLeafPageSize) (hlo : lo.length < 16384)
    (hhi : hi.length < 16384) {page' : LeafPage}
    (h : page.initializePage lo hi size next f c version = some page') (v : Nat) :
    ∃ fences, Image page' (LeafNode.initializeNode lo hi size next f c v) fences [] := by
  cases f with
  | true =>
    obtain ⟨page₂, fences, heq, himage⟩ := page.initializePage_of_fits next version
      (c := c) hsize hlo hhi (page.initializePage_fits next version hsize hlo hhi h) v
    obtain rfl : page₂ = page' := Option.some.inj (heq.symm.trans h)
    exact ⟨fences, himage⟩
  | false =>
    simp only [initializePage, guard, Bool.false_eq_true, if_false] at h
    split at h
    · next hnil =>
      cases h
      rw [hnil.1, hnil.2]
      exact ⟨[], page.image_blank next version hsize v⟩
    · cases h

end Initialize

end LeafPage

end BfTree
