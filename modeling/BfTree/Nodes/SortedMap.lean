import BfTree.Nodes.PageRebuild
import BfTree.Nodes.Reads

/-!
# BfTree.Nodes.SortedMap — a leaf page is a sorted map

What a page of bytes is along every sequence of calls: `Lists` says that its slots are
sorted, describe the bytes they point to and share no bytes, and that the counters of the
header are right. `Reaches` records in step with the calls which value was written last
under each key, and a read returns it.

A consolidation gives all records it keeps one op type, tombstones apart. It does not know
clean tombstones: a phantom record that it turns into an insert is readable afterwards.
-/

namespace BfTree

open Lib PackedMeta

/-! ## What the bytes of a page say -/

/-- The slot of a record: the lengths, the preview and the bytes it points to. -/
structure SlotOf (page : LeafPage) (m : PackedMeta) (record : Key × Value) : Prop where
  keyLen : m.getKeyLen.toNat = record.1.length
  valueLen : m.valueLen.toNat = record.2.length
  preview : m.previewBytes = previewOf (record.1.drop page.prefixLen.toNat)
  bytes : page.data.read m.offset.toNat (record.1.length - page.prefixLen.toNat + record.2.length) =
    record.1.drop page.prefixLen.toNat ++ record.2
  fullKey : page.getFullKey m = record.1
  value : page.getValue m = record.2

namespace LeafPage

/-- The bytes of the fences that are not infinite. The low fence is stored whole. -/
def fenceRegions (page : LeafPage) : List Region :=
  let low := page.getKvMeta lowFenceIdx
  let high := page.getKvMeta highFenceIdx
  if page.hasFence then
    (if low.isInfiniteLowFenceKey then [] else [⟨low.offset.toNat, low.getKeyLen.toNat⟩]) ++
      if high.isInfiniteHighFenceKey then []
      else [⟨high.offset.toNat, high.getKeyLen.toNat - page.prefixLen.toNat⟩]
  else []

def recordRegion (page : LeafPage) (m : PackedMeta) : Region :=
  ⟨m.offset.toNat, m.getKeyLen.toNat - page.prefixLen.toNat + m.valueLen.toNat⟩

/-- The bytes that slots point to. -/
def liveRegions (page : LeafPage) : List Region :=
  page.fenceRegions ++ page.metaIter.map page.recordRegion

/-- The smallest offset, which `current_lowest_offset` compares its result with. -/
def minOffset (page : LeafPage) : Nat :=
  page.liveRegions.foldr (fun r low => min r.start low)
    (LeafNode.maxDataSize page.header.nodeSize.toNat)

/-- The bytes of a page are these records. -/
structure Lists (page : LeafPage) (records : List (Key × Value)) : Prop where
  sorted : KeySorted Prod.fst records
  slots : List.Forall₂ (SlotOf page) page.metaIter records
  disjoint : page.liveRegions.Pairwise Region.Disjoint
  inside : ∀ r ∈ page.liveRegions,
    r.start + r.len ≤ LeafNode.maxDataSize page.header.nodeSize.toNat
  above : ∀ r ∈ page.liveRegions, page.metaCountWithFence * kvMetaSize ≤ r.start
  lowest : page.currentLowestOffset.toNat = page.minOffset
  remaining : page.header.remainingSize.toNat + page.metaCountWithFence * kvMetaSize =
    page.currentLowestOffset.toNat
  count : page.header.Counts page.hasFence page.header.isCacheOnlyLeaf
    (page.firstMetaPosAfterFence + records.length)

end LeafPage

namespace Image

variable {page : LeafPage} {p : LeafNode} {fences : List PackedMeta}
  {recs : List (PackedMeta × LeafKVMeta)} {e : PackedMeta × LeafKVMeta}
  (h : Image page p fences recs)
include h

theorem slotOf (hw : p.WF) (he : e ∈ recs) : SlotOf page e.1 (p.getFullKey e.2, e.2.value) := by
  have hdescribes := h.described e he
  have hlen : p.getPrefix.length = p.prefixLen := by
    rw [LeafNode.getPrefix, List.length_take, min_eq_left (hw.prefixLen_eq ▸ commonPrefixLen_le _ _)]
  have hfull : (p.getFullKey e.2).length = p.prefixLen + e.2.remainingKey.length := by
    rw [LeafNode.getFullKey, List.length_append, hlen]
  have hdrop : (p.getFullKey e.2).drop page.prefixLen.toNat = e.2.remainingKey := by
    rw [h.prefixLen, LeafNode.getFullKey, List.drop_left' hlen]
  refine ⟨hdescribes.keyLen.trans hfull.symm, hdescribes.valueLen, ?_, ?_, h.getFullKey hw he,
    h.getValue he⟩
  · dsimp only
    rw [hdrop, hdescribes.preview, e.2.preview_eq]
  · dsimp only
    rw [hdrop, hfull, h.prefixLen, Nat.add_sub_cancel_left]
    exact h.read he

theorem fenceRegions : page.fenceRegions = (fenceChunks p fences).map Chunk.region := by
  rw [LeafPage.fenceRegions, h.hasFence]
  cases hf : p.hasFence with
  | true =>
    obtain ⟨hfences, hlow, hhigh⟩ := h.fence_cases hf
    simp only [if_true, h.isInfiniteLowFenceKey hf, h.isInfiniteHighFenceKey hf, decide_eq_true_eq]
    rw [hfences, fenceChunks, List.map_append, fenceChunk, fenceChunk]
    rw [FenceSlot] at hlow hhigh
    congr 1
    · split
      · rfl
      · next hne =>
        rw [if_neg hne] at hlow
        rw [hlow]
        rfl
    · split
      · rfl
      · next hne =>
        rw [if_neg hne] at hhigh
        rw [hhigh, h.prefixLen, ← List.length_drop]
        rfl
  | false =>
    have hslots := h.fenceSlots
    rw [FenceSlots, hf] at hslots
    rw [hslots]
    rfl

theorem recordRegion (he : e ∈ recs) : page.recordRegion e.1 = (recordChunk e).region := by
  have hdescribes := h.described e he
  rw [LeafPage.recordRegion, Chunk.region, recordChunk, List.length_append, hdescribes.keyLen,
    hdescribes.valueLen, h.prefixLen, Nat.add_sub_cancel_left]

theorem liveRegions :
    page.liveRegions = (fenceChunks p fences ++ recs.map recordChunk).map Chunk.region := by
  rw [LeafPage.liveRegions, h.fenceRegions, h.metaIter, List.map_append, List.map_map, List.map_map]
  exact congrArg _ (List.map_congr_left fun e he => h.recordRegion he)

/-- **The bytes of a page are its records.** -/
theorem lists (hw : p.WF) : page.Lists (recs.map fun e => (p.getFullKey e.2, e.2.value)) := by
  have hplaced := h.layout.block.placed
  rw [← h.liveRegions, List.length_append, List.length_map] at hplaced
  have hcount := h.metaCountWithFence
  have hsorted := hw.sorted
  rw [h.metas] at hsorted
  exact {
    sorted := by
      rw [KeySorted, List.pairwise_map] at hsorted ⊢
      exact hsorted
    slots := by
      rw [h.metaIter, List.forall₂_map_left_iff, List.forall₂_map_right_iff, List.forall₂_same]
      exact fun e he => h.slotOf hw he
    disjoint := hplaced.disjoint
    inside := by
      rw [h.nodeSize]
      exact hplaced.inside
    above := by
      intro r hr
      rw [hcount]
      exact (Nat.le_add_right _ _).trans (hplaced.above r hr)
    lowest := by
      rw [h.currentLowestOffset, LeafPage.minOffset, h.nodeSize, hplaced.foldr_min]
      rfl
    remaining := by
      rw [h.currentLowestOffset, h.remaining, hcount, Nat.add_comm]
      rfl
    count := by
      have := h.counts
      rw [h.hasFence, h.firstMetaPosAfterFence, List.length_map, this.isCacheOnlyLeaf]
      exact this }

end Image

/-! ## Calls -/

/-- The calls of a page. -/
inductive PageCall where
  | insert (key : Key) (value : Value) (opType : OpType) (maxFenceLen : Nat)
  | consolidateInner (newOptype : OpType) (newHighFence : Option Key) (skipTombstone cacheOnly : Bool)
      (skipKey : Option Key) (snapshotVersion : UInt64)
  | readByKey (searchKey : Key) (outBuffer : List UInt8)

/-- A key lies between the fences of the page. -/
def LeafPage.Covers (page : LeafPage) (key : Key) : Prop :=
  page.hasFence = true → InRange page.getLowFenceKey page.getHighFenceKey key

/-- The value that was written last under each key. -/
abbrev Written := Key → Option Value

namespace PageCall

def run (page : LeafPage) : PageCall → Option (Bool × LeafPage)
  | insert key value opType maxFenceLen => page.insert key value opType maxFenceLen
  | consolidateInner newOptype newHighFence skipTombstone cacheOnly skipKey snapshotVersion =>
    (page.consolidateInner newOptype newHighFence skipTombstone cacheOnly skipKey
      snapshotVersion).map (true, ·)
  | readByKey searchKey outBuffer => (page.readByKey searchKey outBuffer).map (true, ·.2.2)

/-- What a call that returns `ok` writes. -/
def write (w : Written) (ok : Bool) : PageCall → Written
  | insert key value opType _ =>
    if ok then Function.update w key (if opType.isAbsent then none else some value) else w
  | consolidateInner _ _ _ _ skipKey _ => fun key => if skipKey = some key then none else w key
  | readByKey _ _ => w

/-- Keys inside the fences, sizes that a tree accepts, and clean records only for keys that
are not in the page. -/
def Accepted (page : LeafPage) : PageCall → Prop
  | insert key value opType maxFenceLen =>
    page.Covers key ∧ key.length ≤ maxKeyLen ∧ value.length ≤ maxValueLen ∧
      maxFenceLen / 2 ≤ maxKeyLen ∧
      (opType.isCache = true → ∀ m ∈ page.metaIter, page.getFullKey m ≠ key)
  | consolidateInner _ newHighFence _ _ _ _ =>
    ∀ high, newHighFence = some high → high.length ≤ maxKeyLen ∧
      (page.hasFence = true →
        ∀ m ∈ page.metaIter, InRange page.getLowFenceKey high (page.getFullKey m))
  | readByKey searchKey _ => page.Covers searchKey

/-- No record changes between present and absent when it gets the new op type. -/
def KeepsPresence (page : LeafPage) : PageCall → Prop
  | consolidateInner newOptype _ _ _ skipKey _ =>
    ∀ m ∈ page.metaIter, m.opType ≠ .delete → skipKey ≠ some (page.getFullKey m) →
      m.opType.isAbsent = newOptype.isAbsent
  | _ => True

end PageCall

/-- The pages that calls with the property `C` lead to from any new page, and what was
written. -/
inductive Reaches (C : LeafPage → PageCall → Prop) : LeafPage → Written → Prop where
  | fresh {memory page : LeafPage} {low high : Key} {nodeSize : Nat} {next : Option Nat}
      {hasFence cacheOnly : Bool} {snapshotVersion : UInt64} (hheader : leafHeaderSize ≤ nodeSize)
      (hsize : nodeSize ≤ maxLeafPageSize) (hlow : low.length ≤ maxKeyLen)
      (hhigh : high.length ≤ maxKeyLen)
      (h : memory.initializePage low high nodeSize next hasFence cacheOnly snapshotVersion =
        some page) : Reaches C page fun _ => none
  | call {page page' : LeafPage} {w : Written} {call : PageCall} {ok : Bool} (h : Reaches C page w)
      (haccepted : call.Accepted page) (hcall : C page call) (hrun : call.run page = some (ok, page')) :
      Reaches C page' (call.write w ok)

/-! ## The invariant -/

theorem Image.covers {page : LeafPage} {p : LeafNode} {fences : List PackedMeta}
    {recs : List (PackedMeta × LeafKVMeta)} (h : Image page p fences recs) (hw : p.WF) (key : Key) :
    page.Covers key ↔ p.Covers key := by
  rw [LeafPage.Covers, LeafNode.Covers, h.hasFence]
  cases hf : p.hasFence with
  | true => simp only [forall_const, h.getLowFenceKey hf, h.getHighFenceKey hw hf]
  | false =>
    rw [(hw.no_fence hf).1, (hw.no_fence hf).2]
    exact ⟨fun _ => inRange_nil_nil key, by simp⟩

/-- A page of records that keeps to the sizes and counts its bytes. -/
structure GoodPage (p : LeafNode) : Prop where
  wf : p.WF
  sizes : ∀ key e, p.entry key = some e → key.length ≤ maxKeyLen ∧ e.2.length ≤ maxValueLen
  space : p.remainingSize + p.used ≤ p.capacity

/-- The bytes are those of a good page. -/
def GoodImage (page : LeafPage) (p : LeafNode) : Prop :=
  GoodPage p ∧ ∃ fences recs, Image page p fences recs

namespace GoodImage

variable {page page' : LeafPage} {p : LeafNode}

theorem covers (h : GoodImage page p) (key : Key) : page.Covers key ↔ p.Covers key := by
  obtain ⟨hgood, fences, recs, himage⟩ := h
  exact himage.covers hgood.wf key

/-- The records of the page. -/
theorem mem_metaIter (h : GoodImage page p) {key : Key} {e : OpType × Value} :
    p.entry key = some e ↔ ∃ m ∈ page.metaIter, page.getFullKey m = key ∧ m.opType = e.1 ∧
      page.getValue m = e.2 := by
  obtain ⟨hgood, fences, recs, himage⟩ := h
  obtain ⟨op, v⟩ := e
  rw [LeafNode.entry_eq_some hgood.wf, himage.metas, himage.metaIter]
  constructor
  · rintro ⟨r, hr, rfl, rfl, rfl⟩
    obtain ⟨e, he, rfl⟩ := List.mem_map.1 hr
    exact ⟨e.1, List.mem_map_of_mem he, himage.getFullKey hgood.wf he, (himage.described e he).opType,
      himage.getValue he⟩
  · rintro ⟨m, hm, rfl, rfl, rfl⟩
    obtain ⟨e, he, rfl⟩ := List.mem_map.1 hm
    exact ⟨e.2, List.mem_map_of_mem he, (himage.getFullKey hgood.wf he).symm,
      (himage.described e he).opType.symm, (himage.getValue he).symm⟩

theorem entry_none (h : GoodImage page p) {key : Key}
    (hnot : ∀ m ∈ page.metaIter, page.getFullKey m ≠ key) : p.entry key = none := by
  cases he : p.entry key with
  | none => rfl
  | some e =>
    obtain ⟨m, hm, hkey, -⟩ := h.mem_metaIter.1 he
    exact absurd hkey (hnot m hm)

end GoodImage

/-- An insert returns, unless it would have to move a cached record. -/
theorem LeafNode.insert_returns {p : LeafNode} (h : p.WF) {key : Key} (hkey : p.Covers key)
    (value : Value) {op : OpType} (hop : op = .cache → p.entry key = none) (maxFenceLen : Nat) :
    ∃ r, p.insert key value op maxFenceLen = some r := by
  obtain ⟨A, m, B, hs, hm, hi⟩ | ⟨A, B, hs, hnone, hi⟩ := insert_cases h hkey value op maxFenceLen
  · have hentry : p.entry key ≠ none := by
      rw [entry, hs.findKey_head h.sorted]
      simp [hm]
    rw [hi, insertExisting, if_neg (fun hc => hentry (hop hc))]
    split
    · exact ⟨_, rfl⟩
    · split
      · exact ⟨_, rfl⟩
      · split
        · exact ⟨_, rfl⟩
        · exact ⟨_, rfl⟩
  · exact ⟨_, hi⟩

theorem GoodPage.insert {p p' : LeafNode} (h : GoodPage p) {key : Key} (hcovers : p.Covers key)
    {value : Value} (hkey : key.length ≤ maxKeyLen) (hvalue : value.length ≤ maxValueLen) {op : OpType}
    {maxFenceLen : Nat} {ok : Bool} (hins : p.insert key value op maxFenceLen = some (ok, p')) :
    GoodPage p' ∧ ∀ x, LeafNode.live (p'.entry x) =
      if ok = true ∧ x = key then if op.isAbsent then none else some value
      else LeafNode.live (p.entry x) := by
  obtain ⟨hwf, hheader, hfalse, htrue⟩ := LeafNode.insert_spec h.wf hcovers hins
  have hspace := (LeafNode.insert_accounting h.wf hcovers hins).1
  cases ok with
  | false =>
    rw [hfalse rfl]
    exact ⟨h, fun x => by simp⟩
  | true =>
    refine ⟨⟨hwf, fun x e he => ?_, ?_⟩, fun x => ?_⟩
    · rw [htrue rfl x] at he
      split at he
      · next hx =>
        rw [hx]
        cases hold : p.entry key with
        | none =>
          rw [hold, LeafNode.insertEntry] at he
          split at he
          · cases he
          · cases he
            exact ⟨hkey, hvalue⟩
        | some old =>
          rw [hold, LeafNode.insertEntry] at he
          split at he
          · cases he
            exact ⟨hkey, (h.sizes key old hold).2⟩
          · cases he
            exact ⟨hkey, hvalue⟩
      · exact h.sizes x e he
    · rw [hheader.capacity]
      exact hspace.trans h.space
    · rw [htrue rfl x]
      by_cases hx : x = key
      · rw [if_pos hx, if_pos ⟨rfl, hx⟩, LeafNode.live_insertEntry]
      · rw [if_neg hx, if_neg (fun hc => hx hc.2)]

/-- The space of a page that was consolidated is counted exactly. -/
theorem LeafNode.consolidateInner_space {p p' : LeafNode} (h : p.WF) {op : OpType}
    {newHigh : Option Key} {skip c : Bool} {skipKey : Option Key} {ver : Nat}
    (hcov : ∀ m ∈ p.metas, p.hasFence = true →
      InRange p.lowFence (newHigh.getD p.highFence) (p.getFullKey m))
    (hr : p.consolidateInner op newHigh skip c skipKey ver = some p') :
    p'.remainingSize + p'.used = p'.capacity := by
  have hheader := (consolidateInner_live h hcov hr).2.1
  rw [hheader.capacity, ← initializeNode_remainingSize]
  refine rebuild_accounting h (List.Sublist.refl _) _ (fun m e he => ?_) (wf_initializeNode ..)
    (initializeNode_metas ..) (fun m hm => covers_initializeNode _ _ _ _ (hcov m hm)) hr
  split at he
  · cases he
  · split at he
    · cases he
    · cases he
      rfl

theorem GoodPage.consolidateInner {p p' : LeafNode} (h : GoodPage p) {op : OpType}
    {newHigh : Option Key} {skip c : Bool} {skipKey : Option Key} {ver : Nat}
    (hcov : ∀ m ∈ p.metas, p.hasFence = true →
      InRange p.lowFence (newHigh.getD p.highFence) (p.getFullKey m))
    (hr : p.consolidateInner op newHigh skip c skipKey ver = some p') : GoodPage p' := by
  obtain ⟨hwf, -, hvalues, -⟩ := LeafNode.consolidateInner_live h.wf hcov hr
  refine ⟨hwf, fun key e he => ?_, (LeafNode.consolidateInner_space h.wf hcov hr).le⟩
  obtain ⟨o, hold⟩ := hvalues key e he
  exact h.sizes key (o, e.2) hold

/-- A consolidation between the same fences needs no more room than the page has. -/
theorem GoodPage.consolidateInner_returns {p : LeafNode} (h : GoodPage p) (op : OpType) (skip c : Bool)
    (skipKey : Option Key) (ver : Nat) :
    ∃ p', p.consolidateInner op none skip c skipKey ver = some p' := by
  have hlow : (LeafNode.initializeNode p.lowFence p.highFence p.nodeSize p.nextLevel p.hasFence c
      ver).prefixLen = p.prefixLen := by
    rw [h.wf.prefixLen_eq]
    cases hf : p.hasFence with
    | true => rfl
    | false =>
      rw [(h.wf.no_fence hf).1, commonPrefixLen_nil_left]
      rfl
  have hcapacity : (LeafNode.initializeNode p.lowFence p.highFence p.nodeSize p.nextLevel p.hasFence c
      ver).remainingSize = p.capacity := by
    rw [LeafNode.initializeNode_remainingSize, LeafNode.capacity, LeafNode.capacity,
      LeafNode.initializeNode_hasFence, LeafNode.initializeNode_nodeSize,
      LeafNode.initializeNode_lowFence, LeafNode.initializeNode_highFence, hlow]
    cases p.hasFence <;> rfl
  have hlen : p.getPrefix.length = p.prefixLen := by
    rw [LeafNode.getPrefix, List.length_take,
      min_eq_left (h.wf.prefixLen_eq ▸ commonPrefixLen_le _ _)]
  have hspace := h.space
  have hcov : ∀ m ∈ p.metas, p.hasFence = true →
      InRange p.lowFence ((none : Option Key).getD p.highFence) (p.getFullKey m) :=
    fun m hm _ => h.wf.inRange m hm
  have hcost : ∀ m, ((p.getFullKey m).drop (LeafNode.initializeNode p.lowFence
      ((none : Option Key).getD p.highFence) p.nodeSize p.nextLevel p.hasFence c ver).prefixLen).length +
        m.value.length + kvMetaSize ≤ LeafNode.storedSize m := by
    intro m
    rw [Option.getD_none, hlow, LeafNode.getFullKey, List.drop_left' hlen, LeafNode.storedSize]
  have hroom : (p.metas.map LeafNode.storedSize).sum ≤ (LeafNode.initializeNode p.lowFence
      ((none : Option Key).getD p.highFence) p.nodeSize p.nextLevel p.hasFence c ver).remainingSize := by
    rw [Option.getD_none, hcapacity, ← LeafNode.used]
    omega
  obtain ⟨p', hp', -⟩ := LeafNode.consolidateInner_of_room h.wf hcov LeafNode.storedSize hcost hroom
  exact ⟨p', hp'⟩

namespace GoodImage

variable {page page' : LeafPage} {p : LeafNode}

theorem fresh {memory : LeafPage} {low high : Key} {nodeSize : Nat} {next : Option Nat} {f c : Bool}
    {version : UInt64} (hsize : nodeSize ≤ maxLeafPageSize) (hlow : low.length ≤ maxKeyLen)
    (hhigh : high.length ≤ maxKeyLen)
    (h : memory.initializePage low high nodeSize next f c version = some page) :
    GoodImage page (LeafNode.initializeNode low high nodeSize next f c 0) := by
  rw [maxKeyLen] at hlow hhigh
  obtain ⟨fences, himage⟩ := memory.image_initializePage next version hsize (by omega) (by omega) h 0
  refine ⟨⟨LeafNode.wf_initializeNode .., fun key e he => ?_, ?_⟩, fences, [], himage⟩
  · rw [LeafNode.entry_initializeNode] at he
    cases he
  · rw [LeafNode.initializeNode_remainingSize, LeafNode.used, LeafNode.initializeNode_metas]
    exact le_rfl

theorem insert (h : GoodImage page p) {key : Key} {value : Value} {op : OpType} {maxFenceLen : Nat}
    (haccepted : (PageCall.insert key value op maxFenceLen).Accepted page) :
    ∃ ok page' p', page.insert key value op maxFenceLen = some (ok, page') ∧ GoodImage page' p' ∧
      ∀ x, LeafNode.live (p'.entry x) =
        if ok = true ∧ x = key then if op.isAbsent then none else some value
        else LeafNode.live (p.entry x) := by
  obtain ⟨hcovers, hkey, hvalue, hfence, hclean⟩ := haccepted
  have hcovers' := (h.covers key).1 hcovers
  have hcache : op = .cache → p.entry key = none := by
    rintro rfl
    exact h.entry_none (hclean rfl)
  obtain ⟨r, hr⟩ := LeafNode.insert_returns h.1.wf hcovers' value hcache maxFenceLen
  obtain ⟨hgood, fences, recs, himage⟩ := h
  obtain ⟨-, hnone⟩ | ⟨ok, page', p', recs', hpage, hp, himage'⟩ :=
    (himage.insert op hkey hvalue hfence).cases
  · rw [hnone] at hr
    cases hr
  · obtain ⟨hgood', hlive⟩ := hgood.insert hcovers' hkey hvalue hp
    exact ⟨ok, page', p', hpage, ⟨hgood', fences, recs', himage'⟩, hlive⟩

section Consolidate

variable {op : OpType} {newHigh : Option Key} {skip c : Bool} {skipKey : Option Key} {version : UInt64}

theorem inRange_newHigh (h : GoodImage page p)
    (haccepted : (PageCall.consolidateInner op newHigh skip c skipKey version).Accepted page) :
    ∀ m ∈ p.metas, p.hasFence = true →
      InRange p.lowFence (newHigh.getD p.highFence) (p.getFullKey m) := by
  obtain ⟨hgood, fences, recs, himage⟩ := h
  intro m hm hf
  cases newHigh with
  | none => exact hgood.wf.inRange m hm
  | some high =>
    rw [himage.metas] at hm
    obtain ⟨e, he, rfl⟩ := List.mem_map.1 hm
    have hrange := (haccepted high rfl).2 (by rw [himage.hasFence, hf]) e.1
      (by rw [himage.metaIter]; exact List.mem_map_of_mem he)
    rwa [himage.getLowFenceKey hf, himage.getFullKey hgood.wf he] at hrange

theorem pairsFit (h : GoodPage p) (op : OpType) (skip : Bool) (skipKey : Option Key) :
    Image.PairsFit (p.consolidatePairs op skip skipKey) := by
  intro e he
  obtain ⟨m, hm, hg⟩ := List.mem_filterMap.1 he
  have hentry : p.entry (p.getFullKey m) = some (m.opType, m.value) := by
    rw [LeafNode.entry, h.wf.sorted.findKey_mem hm]
    rfl
  split at hg
  · cases hg
  · split at hg
    · cases hg
    · cases hg
      exact h.sizes _ _ hentry

theorem length_newHigh
    (haccepted : (PageCall.consolidateInner op newHigh skip c skipKey version).Accepted page) :
    ∀ k, newHigh = some k → k.length < 16384 := by
  intro k hk
  have := (haccepted k hk).1
  rw [maxKeyLen] at this
  omega

theorem consolidateInner (h : GoodImage page p)
    (haccepted : (PageCall.consolidateInner op newHigh skip c skipKey version).Accepted page)
    (hrun : page.consolidateInner op newHigh skip c skipKey version = some page') :
    ∃ p', GoodImage page' p' ∧
      ((PageCall.consolidateInner op newHigh skip c skipKey version).KeepsPresence page →
        ∀ x, LeafNode.live (p'.entry x) =
          if skipKey = some x then none else LeafNode.live (p.entry x)) := by
  have hcov := h.inRange_newHigh haccepted
  have hmem := h
  obtain ⟨hgood, fences, recs, himage⟩ := h
  obtain ⟨fences', hrel⟩ := himage.consolidateInner_of_fits hgood.wf (pairsFit hgood op skip skipKey)
    (length_newHigh haccepted)
    (himage.fits_of_consolidateInner hgood.wf (length_newHigh haccepted) hrun) 0
  rw [hrun] at hrel
  cases hp : p.consolidateInner op newHigh skip c skipKey 0 with
  | none =>
    rw [hp] at hrel
    cases hrel
  | some p' =>
    rw [hp] at hrel
    cases hrel with
    | some hrel =>
      obtain ⟨recs', himage'⟩ := hrel
      refine ⟨p', ⟨hgood.consolidateInner hcov hp, fences', recs', himage'⟩, fun hkeeps x => ?_⟩
      rw [(LeafNode.consolidateInner_live hgood.wf hcov hp).2.2.2 x]
      split
      · rfl
      · next hskip =>
        cases he : p.entry x with
        | none => rfl
        | some e =>
          obtain ⟨m, hm, rfl, hop, -⟩ := hmem.mem_metaIter.1 he
          rw [Option.bind_some, LeafNode.live]
          by_cases hdelete : e.1 = .delete
          · rw [if_pos (.inl hdelete), hdelete]
            rfl
          · have hsame := hkeeps m hm (by rwa [hop]) hskip
            rw [hop] at hsame
            rw [hsame]
            simp only [hdelete, false_or]

theorem consolidateInner_returns (h : GoodImage page p) (op : OpType) (skip c : Bool)
    (skipKey : Option Key) (version : UInt64) :
    ∃ page', page.consolidateInner op none skip c skipKey version = some page' := by
  obtain ⟨hgood, fences, recs, himage⟩ := h
  obtain ⟨p', hp'⟩ := hgood.consolidateInner_returns op skip c skipKey 0
  have hlen : ∀ k, (none : Option Key) = some k → k.length < 16384 := nofun
  have hfits : p.hasFence = true →
      LeafPage.FencesFit p.lowFence ((none : Option Key).getD p.highFence) p.nodeSize := by
    intro hf
    have := himage.fits hf
    rwa [hgood.wf.prefixLen_eq] at this
  obtain ⟨fences', hrel⟩ : ∃ fences', Option.Rel _
      (page.consolidateInner op none skip c skipKey version) _ :=
    himage.consolidateInner_of_fits hgood.wf (pairsFit hgood op skip skipKey) hlen hfits 0
  rw [hp'] at hrel
  cases hpage : page.consolidateInner op none skip c skipKey version with
  | none =>
    rw [hpage] at hrel
    cases hrel
  | some page' => exact ⟨page', rfl⟩

end Consolidate

/-- A read changes nothing that a reader sees. -/
theorem readByKey (h : GoodImage page p) {key : Key} (hcovers : page.Covers key) {buf buf' : List UInt8}
    {r : LeafNode.LeafReadResult} (hrun : page.readByKey key buf = some (r, buf', page')) :
    ∃ p', GoodImage page' p' ∧ ∀ x, p'.entry x = p.entry x := by
  have hcovers' := (h.covers key).1 hcovers
  obtain ⟨hgood, fences, recs, himage⟩ := h
  have hrel := himage.readByKey key buf
  rw [hrun] at hrel
  cases hp : p.readByKey key buf with
  | none =>
    rw [hp] at hrel
    cases hrel
  | some y =>
    rw [hp] at hrel
    cases hrel with
    | some hrel =>
      obtain ⟨-, -, recs', himage'⟩ := hrel
      obtain ⟨hwf, hheader, hentry, -⟩ := LeafNode.readByKeyInner_spec hgood.wf hcovers' hp
      have hspace := LeafNode.readByKeyInner_space hp
      refine ⟨y.2.2, ⟨⟨hwf, fun x e he => ?_, ?_⟩, fences, recs', himage'⟩, hentry⟩
      · rw [hentry x] at he
        exact hgood.sizes x e he
      · rw [hheader.capacity, hspace.1, hspace.2]
        exact hgood.space

end GoodImage

/-- A read of `key` with a large enough buffer returns `w`. -/
def LeafPage.Reads (page : LeafPage) (key : Key) (w : Option Value) : Prop :=
  ∀ buf : List UInt8, (∀ v ∈ w, v.length ≤ buf.length) →
    ∃ r buf' page', page.readByKey key buf = some (r, buf', page') ∧
      match w with
      | some v => r = .found v.length ∧ buf' = v ++ buf.drop v.length
      | none => (r = .deleted ∨ r = .notFound) ∧ buf' = buf

theorem GoodImage.reads {page : LeafPage} {p : LeafNode} (h : GoodImage page p) {key : Key}
    (hcovers : page.Covers key) : page.Reads key (LeafNode.live (p.entry key)) := by
  intro buf hbuf
  have hcovers' := (h.covers key).1 hcovers
  obtain ⟨hgood, fences, recs, himage⟩ := h
  obtain ⟨r, buf', p', hp, hresult⟩ := LeafNode.reads_entry hgood.wf hcovers' buf hbuf
  have hrel := himage.readByKey key buf
  rw [hp] at hrel
  cases hpage : page.readByKey key buf with
  | none =>
    rw [hpage] at hrel
    cases hrel
  | some y =>
    rw [hpage] at hrel
    cases hrel with
    | some hrel =>
      obtain ⟨hr, hb, -⟩ := hrel
      exact ⟨y.1, y.2.1, y.2.2, rfl, by rw [hr, hb]; exact hresult⟩

/-- A page that refuses a record stays as it is. -/
theorem LeafPage.insert_refused {page page' : LeafPage} {key : Key} {value : Value} {op : OpType}
    {maxFenceLen : Nat} (h : page.insert key value op maxFenceLen = some (false, page')) :
    page' = page := by
  simp only [LeafPage.insert, Option.bind_eq_bind, Option.bind_eq_some_iff] at h
  obtain ⟨pos, -, h⟩ := h
  split at h
  · rw [LeafPage.insertExisting] at h
    split_ifs at h <;> cases h
    rfl
  · split_ifs at h <;> cases h
    rfl

namespace Reaches

variable {C : LeafPage → PageCall → Prop} {page : LeafPage} {w : Written}

/-- The invariant of all calls. -/
theorem good (h : Reaches C page w) : ∃ p, GoodImage page p ∧
    ((∀ page call, C page call → call.KeepsPresence page) →
      ∀ key, LeafNode.live (p.entry key) = w key) := by
  induction h with
  | fresh hheader hsize hlow hhigh hinit =>
    refine ⟨_, GoodImage.fresh hsize hlow hhigh hinit, fun _ key => ?_⟩
    rw [LeafNode.entry_initializeNode]
    rfl
  | @call page page' w call ok h haccepted hcall hrun ih =>
    obtain ⟨p, hgood, hreads⟩ := ih
    cases call with
    | insert key value op maxFenceLen =>
      obtain ⟨ok', page'', p', hpage, hgood', hlive⟩ := hgood.insert haccepted
      obtain ⟨rfl, rfl⟩ : ok' = ok ∧ page'' = page' :=
        Prod.mk.inj (Option.some.inj (hpage.symm.trans hrun))
      refine ⟨p', hgood', fun hC x => ?_⟩
      rw [hlive x, hreads hC x, PageCall.write]
      cases ok' with
      | false => rfl
      | true =>
        by_cases hx : x = key
        · rw [if_pos ⟨rfl, hx⟩, if_pos rfl, hx, Function.update_self]
        · rw [if_neg (fun hc => hx hc.2), if_pos rfl, Function.update_of_ne hx]
    | consolidateInner op newHigh skip c skipKey version =>
      obtain ⟨page'', hpage, heq⟩ := Option.map_eq_some_iff.1 hrun
      obtain ⟨-, rfl⟩ := Prod.mk.inj heq
      obtain ⟨p', hgood', hlive⟩ := hgood.consolidateInner haccepted hpage
      refine ⟨p', hgood', fun hC x => ?_⟩
      rw [hlive (hC _ _ hcall) x, hreads hC x, PageCall.write]
    | readByKey key buf =>
      obtain ⟨y, hpage, heq⟩ := Option.map_eq_some_iff.1 hrun
      obtain ⟨-, rfl⟩ := Prod.mk.inj heq
      obtain ⟨p', hgood', hentry⟩ := hgood.readByKey haccepted hpage
      exact ⟨p', hgood', fun hC x => by rw [hentry x, hreads hC x, PageCall.write]⟩

/-- **A leaf page implements a sorted map.** After any accepted calls the bytes are a sorted
list of records, inserts and consolidations between the same fences return, and a refused
insert changes nothing. If no consolidation turned an absent record into a present one or
back, every read returns the value written last. -/
theorem sorted_map (h : Reaches C page w) :
    (∃ records, page.Lists records) ∧
      (∀ key value op maxFenceLen, (PageCall.insert key value op maxFenceLen).Accepted page →
        ∃ ok page', page.insert key value op maxFenceLen = some (ok, page') ∧
          (ok = false → page' = page)) ∧
      (∀ op skip c skipKey version,
        ∃ page', page.consolidateInner op none skip c skipKey version = some page') ∧
      ((∀ page call, C page call → call.KeepsPresence page) →
        ∀ key, page.Covers key → page.Reads key (w key)) := by
  obtain ⟨p, hgood, hreads⟩ := h.good
  refine ⟨?_, fun key value op maxFenceLen haccepted => ?_, hgood.consolidateInner_returns,
    fun hC key hcovers => ?_⟩
  · obtain ⟨hpage, fences, recs, himage⟩ := hgood
    exact ⟨_, himage.lists hpage.wf⟩
  · obtain ⟨ok, page', p', hins, -, -⟩ := hgood.insert haccepted
    refine ⟨ok, page', hins, fun hok => ?_⟩
    rw [hok] at hins
    exact LeafPage.insert_refused hins
  · rw [← hreads hC key]
    exact hgood.reads hcovers

end Reaches

/-! ## A page with one record -/

def zeroPage : LeafPage where
  header := ⟨0, 0, 0⟩
  prefixLen := 0
  nextLevel := none
  snapshotVersion := 0
  data := fun _ => 0

/-- A new mini page of the smallest size. -/
def newMiniPage : LeafPage :=
  (zeroPage.initializePage [] [] 64 (some 0) false false 0).getD zeroPage

/-- The mini page with a record under the key `1`. -/
def onePage (op : OpType) : LeafPage :=
  ((newMiniPage.insert [1] [7] op 0).map Prod.snd).getD zeroPage

theorem Reaches.onePage {C : LeafPage → PageCall → Prop} (op : OpType)
    (hC : C newMiniPage (.insert [1] [7] op 0)) :
    Reaches C (onePage op) (PageCall.write (fun _ => none) true (.insert [1] [7] op 0)) := by
  have hinit : zeroPage.initializePage [] [] 64 (some 0) false false 0 = some newMiniPage :=
    (Option.getD_of_ne_none (Option.isSome_iff_ne_none.1 (by decide +kernel)) _).symm
  have hins : newMiniPage.insert [1] [7] op 0 = some (true, BfTree.onePage op) := by
    have hok : (newMiniPage.insert [1] [7] op 0).map Prod.fst = some true := by
      cases op <;> decide +kernel
    obtain ⟨⟨ok, page⟩, heq, rfl⟩ := Option.map_eq_some_iff.1 hok
    rw [BfTree.onePage, heq]
    rfl
  refine .call (.fresh (by decide) (by decide) (by decide) (by decide) hinit) ?_ hC hins
  have hfence : newMiniPage.hasFence = false := by decide +kernel
  have hempty : newMiniPage.metaIter = [] := by decide +kernel
  refine ⟨fun hf => ?_, by decide, by decide, by decide, fun _ m hm => ?_⟩
  · rw [hfence] at hf
    cases hf
  · rw [hempty] at hm
    cases hm

theorem Reaches.sorted_map_one_record :
    ∃ page w, Reaches (fun page call => call.KeepsPresence page) page w ∧ w [1] = some [7] ∧
      page.Reads [1] (w [1]) := by
  have hreaches : Reaches (fun page call => call.KeepsPresence page) _ _ :=
    Reaches.onePage .insert trivial
  have hfence : (BfTree.onePage .insert).hasFence = false := by decide +kernel
  refine ⟨_, _, hreaches, rfl, hreaches.sorted_map.2.2.2 (fun _ _ h => h) [1] fun hf => ?_⟩
  rw [hfence] at hf
  cases hf

/-- A consolidation that makes all kept records cached ones brings back a key that the page
knew to be absent. -/
theorem phantom_is_read_after_consolidation :
    ∃ page w key, Reaches (fun _ _ => True) page w ∧ page.Covers key ∧ w key = none ∧
      ¬ page.Reads key (w key) := by
  have hreaches : Reaches (fun _ _ => True) _ _ := Reaches.onePage .phantom trivial
  have hrun : some (((onePage .phantom).consolidateInner .cache none false false none 0).getD zeroPage) =
      (onePage .phantom).consolidateInner .cache none false false none 0 :=
    Option.getD_of_ne_none (Option.isSome_iff_ne_none.1 (by decide +kernel)) _
  have hread : ((((onePage .phantom).consolidateInner .cache none false false none 0).getD
      zeroPage).readByKey [1] [0]).map Prod.fst = some (.found 1) := by decide +kernel
  have hfence : (((onePage .phantom).consolidateInner .cache none false false none 0).getD
      zeroPage).hasFence = false := by decide +kernel
  generalize ((onePage .phantom).consolidateInner .cache none false false none 0).getD zeroPage = page
    at hrun hread hfence
  have hcall : (PageCall.consolidateInner .cache none false false none 0).run (onePage .phantom) =
      some (true, page) := by
    rw [PageCall.run, ← hrun]
    rfl
  have haccepted : (PageCall.consolidateInner .cache none false false none 0).Accepted
      (onePage .phantom) := nofun
  refine ⟨page, _, [1], hreaches.call haccepted trivial hcall, fun hf => ?_, rfl, fun hreads => ?_⟩
  · rw [hfence] at hf
    cases hf
  · obtain ⟨r, buf', page', heq, hr, -⟩ := hreads [0] nofun
    rw [heq] at hread
    obtain rfl : r = .found 1 := Option.some.inj hread
    rcases hr with hr | hr <;> cases hr

end BfTree
