import BfTree.Nodes.LeafSearch

/-!
# BfTree.Nodes.PrefixCompression — keys without their common part

A page with fences stores of each key only what follows the part that its two fences share.
`get_full_key` puts the two together again. A key between the fences begins with the shared
part, so nothing is lost, and a split or a consolidation that tightens the fences writes every
record anew from its full key.

The length of a key has fourteen bits in its slot, next to the op type. A longer key does
not come back; the tree accepts keys of up to `MAX_KEY_LEN` bytes only.
-/

namespace BfTree

open Lib PackedMeta

namespace LeafPage

/-- The records of a page as the slots give them. -/
def records (page : LeafPage) : List (Key × Value × OpType) :=
  page.metaIter.map fun m => (page.getFullKey m, page.getValue m, m.opType)

/-- A page between two fences omits from its keys what the fences share. -/
structure Compressed (page : LeafPage) (low high : Key) : Prop where
  hasFence : page.hasFence = true
  low_eq : page.getLowFenceKey = low
  high_eq : page.getHighFenceKey = high
  prefixLen_eq : page.prefixLen.toNat = commonPrefixLen low high

/-- What a rebuilt page makes of a record: deleted ones are dropped. -/
def survivor (r : Key × Value × OpType) : Option (Key × Value × OpType) :=
  if r.2.2 = .delete then none else some (r.1, r.2.1, .insert)

/-- A page was cut at a key: every record that was not deleted is on its side with its full
key and its value, and both sides omit what their own fences share. -/
structure SplitInTwo (page left right : LeafPage) (key : Key) : Prop where
  left_records : left.records = (page.records.filter (·.1 < key)).filterMap survivor
  right_records : right.records = (page.records.filter (key ≤ ·.1)).filterMap survivor
  left_compressed : page.hasFence = true → left.Compressed page.getLowFenceKey key
  right_compressed : page.hasFence = true → right.Compressed key page.getHighFenceKey

/-- The bytes of the page are those of a well-formed page of records. -/
def WellFormed (page : LeafPage) : Prop :=
  ∃ p fences recs, Image page p fences recs ∧ p.WF

end LeafPage

/-! ## What the bytes of a page say -/

namespace Image

variable {page : LeafPage} {p : LeafNode} {fences : List PackedMeta}
  {recs : List (PackedMeta × LeafKVMeta)} (h : Image page p fences recs)
include h

theorem records (hw : p.WF) : page.records = p.slots := by
  rw [LeafPage.records, LeafNode.slots, h.metaIter, h.metas, List.map_map, List.map_map]
  refine List.map_congr_left fun e he => ?_
  simp only [Function.comp_apply, h.getFullKey hw he, h.getValue he, (h.described e he).opType]

theorem shortPairs_records (hw : p.WF) : ShortPairs page.records := by
  intro r hr
  rw [LeafPage.records, h.metaIter, List.map_map] at hr
  obtain ⟨e, he, rfl⟩ := List.mem_map.1 hr
  have hslot := h.slotOf hw he
  have hkey := hslot.keyLen
  have hvalue := hslot.valueLen
  simp only [Function.comp_apply, hslot.fullKey, hslot.value]
  rw [toNat_getKeyLen] at hkey
  rw [toNat_valueLen] at hvalue
  dsimp only at hkey hvalue
  omega

theorem compressed (hw : p.WF) (hf : p.hasFence = true) : page.Compressed p.lowFence p.highFence :=
  ⟨h.hasFence.trans hf, h.getLowFenceKey hf, h.getHighFenceKey hw hf,
    h.prefixLen.trans hw.prefixLen_eq⟩

theorem inRange_records (hw : p.WF) (hf : page.hasFence = true) :
    ∀ r ∈ page.records, InRange page.getLowFenceKey page.getHighFenceKey r.1 := by
  intro r hr
  rw [h.hasFence] at hf
  rw [h.getLowFenceKey hf, h.getHighFenceKey hw hf]
  rw [h.records hw, LeafNode.slots] at hr
  obtain ⟨m, hm, rfl⟩ := List.mem_map.1 hr
  exact hw.inRange m hm

theorem sorted_records (hw : p.WF) : KeySorted Prod.fst page.records := by
  rw [h.records hw]
  exact LeafNode.slots_sorted hw

end Image

/-! ## Rebuilding a page -/

/-- A page made anew between two fences, with the records that were inserted into it. -/
structure Rebuilt (page : LeafPage) (hasFence : Bool) (low high : Key)
    (pairs : List (Key × Value × OpType)) : Prop where
  wellFormed : page.WellFormed
  compressed : hasFence = true → page.Compressed low high
  records : page.records = pairs.filter fun e => !(decide (e.2.2 = .delete) && page.isBasePage)

/-- Sorted records with keys between the fences come back with their full keys. A base page
takes no deleted record. -/
theorem rebuilt_of_insertAll {memory start page : LeafPage} {low high : Key} {size : Nat}
    {next : Option Nat} {f c : Bool} {version : UInt64} {pairs : List (Key × Value × OpType)}
    (hsize : size ≤ maxLeafPageSize) (hlow : low.length < 16384) (hhigh : high.length < 16384)
    (hinit : memory.initializePage low high size next f c version = some start)
    (hall : start.insertAll 0 pairs = some page) (hshort : Image.ShortPairs pairs)
    (hsorted : KeySorted Prod.fst pairs) (hrange : f = true → ∀ e ∈ pairs, InRange low high e.1) :
    Rebuilt page f low high pairs := by
  obtain ⟨fences, himage⟩ := memory.image_initializePage next version hsize hlow hhigh hinit 0
  have hrel : Option.Rel _ (start.insertAll 0 pairs) _ :=
    Image.insertAll_of_short (Nat.zero_le _) himage hshort
  rw [hall] at hrel
  cases hp : (LeafNode.initializeNode low high size next f c 0).insertAll 0 pairs with
  | none =>
    rw [hp] at hrel
    cases hrel
  | some p =>
    rw [hp] at hrel
    cases hrel with
    | some hrel =>
      obtain ⟨recs, himage⟩ := hrel
      have hcov : ∀ e ∈ pairs, (LeafNode.initializeNode low high size next f c 0).Covers e.1 :=
        fun e he => LeafNode.covers_initializeNode _ _ _ _ fun hf => hrange hf e he
      obtain ⟨hwf, hheader, hentry⟩ :=
        LeafNode.insertAll_spec (LeafNode.wf_initializeNode ..) hcov hsorted hp
      have hbase : page.isBasePage = (LeafNode.initializeNode low high size next f c 0).isBasePage := by
        rw [himage.isBasePage, hheader.isBasePage]
      refine ⟨⟨p, fences, recs, himage, hwf⟩, fun hf => ?_, ?_⟩
      · have hcomp := himage.compressed hwf (by rw [hheader.hasFence, LeafNode.initializeNode_hasFence, hf])
        rwa [hheader.lowFence, hheader.highFence, LeafNode.initializeNode_lowFence,
          LeafNode.initializeNode_highFence, if_pos hf, if_pos hf] at hcomp
      · rw [himage.records hwf, hbase]
        refine LeafNode.slots_eq hwf (hsorted.sublist List.filter_sublist) fun k v op => ?_
        rw [hentry k, LeafNode.entry_initializeNode, List.mem_filter]
        cases hfind : findKey Prod.fst pairs k with
        | none =>
          have hnot : (k, v, op) ∉ pairs := fun hmem => findKey_eq_none.1 hfind _ hmem rfl
          simp [hnot]
        | some e =>
          obtain ⟨hmem, rfl⟩ := findKey_some hfind
          have hiff : (e.1, v, op) ∈ pairs ↔ e = (e.1, v, op) := by
            constructor
            · intro hin
              exact Option.some.inj (hfind.symm.trans (hsorted.findKey_mem hin))
            · intro heq
              rw [← heq]
              exact hmem
          obtain ⟨x, w, o⟩ := e
          simp only [hiff, LeafNode.insertEntry, Prod.mk.injEq, true_and]
          grind

/-- No deleted record is among the survivors of a rebuild. -/
theorem Rebuilt.of_survivors {page : LeafPage} {f : Bool} {low high : Key}
    {rs : List (Key × Value × OpType)}
    (h : Rebuilt page f low high (rs.filterMap LeafPage.survivor)) :
    page.records = rs.filterMap LeafPage.survivor := by
  rw [h.records, List.filter_eq_self]
  intro e he
  obtain ⟨r, -, hr⟩ := List.mem_filterMap.1 he
  rw [LeafPage.survivor] at hr
  split at hr
  · cases hr
  · cases hr
    rfl

theorem survivor_fst {r e : Key × Value × OpType} (h : LeafPage.survivor r = some e) :
    e.1 = r.1 ∧ e.2.1 = r.2.1 := by
  rw [LeafPage.survivor] at h
  split at h
  · cases h
  · cases h
    exact ⟨rfl, rfl⟩

/-- A consolidation rebuilds the page from its records. -/
theorem rebuilt_of_consolidateInner {page page' : LeafPage} {op : OpType} {newHigh : Option Key}
    {skip c : Bool} {skipKey : Option Key} {version : UInt64}
    (hres : page.consolidateInner op newHigh skip c skipKey version = some page')
    (hsize : page.header.nodeSize.toNat ≤ maxLeafPageSize)
    (hlow : page.hasFence = true → page.getLowFenceKey.length < 16384)
    (hhigh : page.hasFence = true → (newHigh.getD page.getHighFenceKey).length < 16384)
    (hshort : Image.ShortPairs (page.consolidatePairs op skip skipKey))
    (hsorted : KeySorted Prod.fst (page.consolidatePairs op skip skipKey))
    (hrange : page.hasFence = true → ∀ e ∈ page.consolidatePairs op skip skipKey,
      InRange page.getLowFenceKey (newHigh.getD page.getHighFenceKey) e.1) :
    Rebuilt page' page.hasFence page.getLowFenceKey (newHigh.getD page.getHighFenceKey)
      (page.consolidatePairs op skip skipKey) := by
  obtain ⟨start, hinit, hall⟩ := Option.bind_eq_some_iff.1 hres
  cases hf : page.hasFence with
  | true =>
    rw [hf, if_pos rfl, if_pos rfl] at hinit
    exact rebuilt_of_insertAll hsize (hlow hf) (hhigh hf) hinit hall hshort hsorted
      fun _ => hrange hf
  | false =>
    rw [hf, if_neg Bool.false_ne_true, if_neg Bool.false_ne_true] at hinit
    obtain ⟨hwf, -, hrecords⟩ := rebuilt_of_insertAll hsize (by decide) (by decide) hinit hall hshort
      hsorted nofun
    exact ⟨hwf, nofun, hrecords⟩

theorem consolidatePairs_eq_survivors (page : LeafPage) :
    page.consolidatePairs .insert true none = page.records.filterMap LeafPage.survivor := by
  rw [LeafPage.consolidatePairs, LeafPage.records, List.filterMap_map]
  refine List.filterMap_congr fun m _ => ?_
  by_cases hop : m.opType = .delete <;> simp [LeafPage.survivor, hop]

/-! ## Splits -/

namespace LeafPage

/-- The page that a split leaves to the consolidation: its first `n` records. -/
def truncated (page : LeafPage) (n : Nat) : LeafPage :=
  { page with
    header := page.header.setValueCount (UInt16.ofNat (n + page.firstMetaPosAfterFence)) }

end LeafPage

section

variable {page : LeafPage} {p : LeafNode} {fences : List PackedMeta}
  {recs : List (PackedMeta × LeafKVMeta)} {n : Nat} (h : Image page p fences recs)
  (hn : n ≤ recs.length)
include h hn

theorem Image.counts_truncated : (page.truncated n).header.Counts page.hasFence
    page.header.isCacheOnlyLeaf (n + page.firstMetaPosAfterFence) := by
  have hcounts := h.counts
  have hlt := hcounts.2
  rw [LeafPage.truncated, h.hasFence, hcounts.isCacheOnlyLeaf, h.firstMetaPosAfterFence]
  exact hcounts.setValueCount (by omega)

theorem Image.metaIter_truncated : (page.truncated n).metaIter = page.metaIter.take n := by
  have hcounts := h.counts_truncated hn
  have hfirst : (page.truncated n).firstMetaPosAfterFence = page.firstMetaPosAfterFence := by
    rw [LeafPage.firstMetaPosAfterFence, LeafPage.hasFence, hcounts.hasFence]
    rfl
  have hcount : (page.truncated n).metaCountWithFence = n + page.firstMetaPosAfterFence :=
    hcounts.metaCountWithFence
  have hrest : page.metaCountWithFence - page.firstMetaPosAfterFence = n + (recs.length - n) := by
    rw [h.metaCountWithFence, h.firstMetaPosAfterFence]
    omega
  rw [LeafPage.metaIter, LeafPage.metaIter, hfirst, hcount, Nat.add_sub_cancel, hrest, ← List.map_take,
    ← List.range'_append_1, List.take_left' List.length_range']
  rfl

theorem Image.records_truncated : (page.truncated n).records = page.records.take n := by
  rw [LeafPage.records, LeafPage.records, h.metaIter_truncated hn, List.map_take]
  rfl

end

theorem keySorted_survivors {rs rs' : List (Key × Value × OpType)} (h : KeySorted Prod.fst rs)
    (hs : rs'.Sublist rs) : KeySorted Prod.fst (rs'.filterMap LeafPage.survivor) :=
  (h.sublist hs).filterMap _ fun _ _ he => (survivor_fst he).1

theorem shortPairs_survivors {rs rs' : List (Key × Value × OpType)} (h : Image.ShortPairs rs)
    (hs : rs'.Sublist rs) : Image.ShortPairs (rs'.filterMap LeafPage.survivor) := by
  intro e he
  obtain ⟨r, hr, hre⟩ := List.mem_filterMap.1 he
  obtain ⟨hkey, hvalue⟩ := survivor_fst hre
  rw [hkey, hvalue]
  exact h r (hs.subset hr)

theorem movedPairs_eq_survivors (page : LeafPage) (n : Nat) :
    page.movedPairs n = (page.records.drop n).filterMap LeafPage.survivor := by
  rw [LeafPage.movedPairs, LeafPage.records, ← List.map_drop, List.filterMap_map]
  rfl

/-- A split after `n` records, all below the key that becomes the fence. -/
theorem Image.splitAtCount {page sibling left right : LeafPage} {p : LeafNode}
    {fences : List PackedMeta} {recs : List (PackedMeta × LeafKVMeta)} {n : Nat} {key : Key}
    {cacheOnly : Bool} {version : UInt64} (h : Image page p fences recs) (hw : p.WF)
    (hn : n ≤ recs.length)
    (hcut : SplitAt Prod.fst page.records key (page.records.take n) (page.records.drop n))
    (hkey : key.length < 16384) (hsize : sibling.header.nodeSize.toNat ≤ maxLeafPageSize)
    (hsplittable : page.splittable cacheOnly = true)
    (hr : page.splitAtCount sibling n key key cacheOnly version = some (left, right)) :
    left.WellFormed ∧ right.WellFormed ∧ page.SplitInTwo left right key := by
  have hbelow : page.records.filter (·.1 < key) = page.records.take n :=
    hcut.filter_left fun r => decide_eq_true_iff
  have habove : page.records.filter (key ≤ ·.1) = page.records.drop n :=
    hcut.filter_right fun r => decide_eq_true_iff
  have hsorted := h.sorted_records hw
  have hshort := h.shortPairs_records hw
  have hrange := h.inRange_records hw
  have hfence : page.hasFence = !cacheOnly := by
    rw [LeafPage.splittable] at hsplittable
    cases cacheOnly <;> simp_all
  have hcount : (if cacheOnly then n else n + fenceKeyCnt) = n + page.firstMetaPosAfterFence := by
    rw [LeafPage.firstMetaPosAfterFence, hfence]
    cases cacheOnly <;> rfl
  simp only [LeafPage.splitAtCount, Option.bind_eq_bind, Option.bind_eq_some_iff] at hr
  obtain ⟨start, hinit, right', hright, left', hleft, heq⟩ := hr
  obtain ⟨rfl, rfl⟩ := Prod.mk.inj (Option.some.inj heq)
  rw [hcount] at hleft
  have hleft : (page.truncated n).consolidateAfterSplit key version = some left' := hleft
  rw [movedPairs_eq_survivors] at hright
  -- the sibling is made anew from the records above the key
  have hright' : Rebuilt right' page.hasFence key page.getHighFenceKey
      ((page.records.drop n).filterMap LeafPage.survivor) := by
    have hshort' := shortPairs_survivors hshort (List.drop_sublist n _)
    have hsorted' := keySorted_survivors hsorted (List.drop_sublist n _)
    cases cacheOnly with
    | true =>
      simp only [LeafPage.initializeSibling, if_true] at hinit
      obtain ⟨hwf, -, hrecords⟩ := rebuilt_of_insertAll hsize (by decide) (by decide) hinit hright
        hshort' hsorted' (by simp)
      rw [hfence]
      exact ⟨hwf, by simp, hrecords⟩
    | false =>
      simp only [LeafPage.initializeSibling, Bool.false_eq_true, if_false] at hinit
      have hf : p.hasFence = true := by rw [← h.hasFence, hfence]; rfl
      rw [hfence]
      refine rebuilt_of_insertAll hsize hkey ?_ hinit hright hshort' hsorted' fun _ e he => ?_
      · rw [h.getHighFenceKey hw hf]
        exact h.length_highFence hf
      · obtain ⟨r, hr, hre⟩ := List.mem_filterMap.1 he
        rw [(survivor_fst hre).1]
        exact ⟨hcut.right r hr, (hrange (by rw [hfence]; rfl) r (List.mem_of_mem_drop hr)).2⟩
  -- the page itself from those below it
  have hleft' : Rebuilt left' page.hasFence page.getLowFenceKey key
      ((page.records.take n).filterMap LeafPage.survivor) := by
    rw [LeafPage.consolidateAfterSplit] at hleft
    split at hleft
    · have hfence' : (page.truncated n).hasFence = page.hasFence := (h.counts_truncated hn).hasFence
      have hpairs : (page.truncated n).consolidatePairs .insert true none =
          (page.records.take n).filterMap LeafPage.survivor := by
        rw [consolidatePairs_eq_survivors, h.records_truncated hn]
      rw [← hfence', ← hpairs]
      refine rebuilt_of_consolidateInner hleft ?_ (fun hf => ?_) (fun _ => hkey) ?_ ?_ fun hf e he => ?_
      · exact h.nodeSize.trans_le h.nodeSize_le
      · have hf : p.hasFence = true := by rw [← h.hasFence, ← hfence', hf]
        exact (congrArg List.length (h.getLowFenceKey hf)).trans_lt (h.length_lowFence hf)
      · rw [hpairs]
        exact shortPairs_survivors hshort (List.take_sublist n _)
      · rw [hpairs]
        exact keySorted_survivors hsorted (List.take_sublist n _)
      · rw [hpairs] at he
        obtain ⟨r, hr, hre⟩ := List.mem_filterMap.1 he
        rw [(survivor_fst hre).1]
        exact ⟨(hrange (hfence'.symm.trans hf) r (List.mem_of_mem_take hr)).1, .inr (hcut.left r hr)⟩
    · cases hleft
  exact ⟨hleft'.wellFormed, hright'.wellFormed, by rw [hbelow]; exact hleft'.of_survivors,
    by rw [habove]; exact hright'.of_survivors, hleft'.compressed, hright'.compressed⟩

namespace LeafPage

variable {page page' sibling left right : LeafPage} {key : Key} {cacheOnly : Bool} {version : UInt64}

/-- The search by size stops at a slot of the page. -/
theorem getSplitKeyFrom_spec {target : UInt16} {n : Nat} :
    ∀ (ms : List PackedMeta) (i : Nat) (cur : UInt16),
      page.getSplitKeyFrom cacheOnly target i cur ms = some (key, n) →
      i ≤ n ∧ ∃ m, ms[n - i]? = some m ∧ page.getFullKey m = key := by
  intro ms
  induction ms with
  | nil => intro i cur h; cases h
  | cons m ms ih =>
    intro i cur h
    have hnext : ∀ cur', page.getSplitKeyFrom cacheOnly target (i + 1) cur' ms = some (key, n) →
        i ≤ n ∧ ∃ m', (m :: ms)[n - i]? = some m' ∧ page.getFullKey m' = key := by
      intro cur' h'
      obtain ⟨hle, m', hm', hkey⟩ := ih (i + 1) cur' h'
      refine ⟨by omega, m', ?_, hkey⟩
      rw [show n - i = n - (i + 1) + 1 by omega, List.getElem?_cons_succ]
      exact hm'
    rw [getSplitKeyFrom] at h
    split at h
    · exact hnext _ h
    · split at h
      · cases h
        exact ⟨le_rfl, m, by rw [Nat.sub_self]; rfl, rfl⟩
      · exact hnext _ h

theorem getElem?_records (i : Nat) : page.records[i]? =
    page.metaIter[i]?.map fun m => (page.getFullKey m, page.getValue m, m.opType) := by
  rw [records, List.getElem?_map]

/-- Sorted records are cut at the key of one of them. -/
theorem splitAt_of_getElem? {rs : List (Key × Value × OpType)} (hs : KeySorted Prod.fst rs) {n : Nat}
    {r : Key × Value × OpType} (hr : rs[n]? = some r) :
    SplitAt Prod.fst rs r.1 (rs.take n) (rs.drop n) := by
  obtain ⟨hn, rfl⟩ := List.getElem?_eq_some_iff.1 hr
  have hsplit := keySorted_append.1 ((List.take_append_drop n rs).symm ▸ hs)
  rw [List.drop_eq_getElem_cons hn] at hsplit ⊢
  refine ⟨by rw [← List.drop_eq_getElem_cons hn, List.take_append_drop], fun a ha => ?_, fun b hb => ?_⟩
  · exact hsplit.2.2 a ha _ List.mem_cons_self
  · rcases List.mem_cons.1 hb with rfl | hb
    · exact le_rfl
    · exact ((keySorted_cons.1 hsplit.2.1).1 b hb).le

theorem WellFormed.split (h : page.WellFormed)
    (hsize : sibling.header.nodeSize.toNat ≤ maxLeafPageSize)
    (hr : page.split sibling cacheOnly version = some (key, left, right)) :
    left.WellFormed ∧ right.WellFormed ∧ page.SplitInTwo left right key := by
  obtain ⟨p, fences, recs, himage, hw⟩ := h
  simp only [LeafPage.split, Option.bind_eq_bind, Option.bind_eq_some_iff] at hr
  obtain ⟨_, hsplittable, ⟨k, n⟩, hsplit, _, -, ⟨l, r⟩, hcount, heq⟩ := hr
  obtain ⟨rfl, rfl, rfl⟩ : k = key ∧ l = left ∧ r = right := by simpa using heq
  obtain ⟨-, m, hm, rfl⟩ := getSplitKeyFrom_spec _ _ _ hsplit
  rw [Nat.sub_zero] at hm
  have hlt : n < recs.length := by
    have := (List.getElem?_eq_some_iff.1 hm).1
    rwa [himage.metaIter, List.length_map] at this
  have hrec : page.records[n]? = some (page.getFullKey m, page.getValue m, m.opType) := by
    rw [getElem?_records, hm]
    rfl
  have hshort := himage.shortPairs_records hw _ (List.mem_of_getElem? hrec)
  have hsplittable := (Option.guard_eq_some' _).1 hsplittable
  -- the low fence of the sibling is read from the slot of the splitting key
  have hlow : page.splitAtCount sibling n (page.getFullKey (page.getKvMeta (fenceKeyCnt + n)))
      (page.getFullKey m) cacheOnly version =
        page.splitAtCount sibling n (page.getFullKey m) (page.getFullKey m) cacheOnly version := by
    cases cacheOnly with
    | true => rfl
    | false =>
      have hfence : fences.length = fenceKeyCnt := by
        have hf : page.hasFence = true := by
          rw [splittable] at hsplittable
          simp_all
        rw [← himage.firstMetaPosAfterFence, firstMetaPosAfterFence, if_pos hf]
      rw [himage.metaIter, List.getElem?_map] at hm
      obtain ⟨e, he, rfl⟩ := Option.map_eq_some_iff.1 hm
      rw [← hfence, himage.getKvMeta he]
  dsimp only at hcount
  rw [hlow] at hcount
  exact himage.splitAtCount hw hlt.le (splitAt_of_getElem? (himage.sorted_records hw) hrec) hshort.1
    hsize hsplittable hcount

theorem WellFormed.splitWithKey (h : page.WellFormed)
    (hsize : sibling.header.nodeSize.toNat ≤ maxLeafPageSize) (hkey : key.length < 16384)
    (hr : page.splitWithKey sibling key cacheOnly version = some (left, right)) :
    left.WellFormed ∧ right.WellFormed ∧ page.SplitInTwo left right key := by
  obtain ⟨p, fences, recs, himage, hw⟩ := h
  simp only [LeafPage.splitWithKey, Option.bind_eq_bind, Option.bind_eq_some_iff] at hr
  obtain ⟨_, hsplittable, ⟨l, r⟩, hcount, _, -, heq⟩ := hr
  obtain ⟨rfl, rfl⟩ := Prod.mk.inj (Option.some.inj heq)
  have hle : page.getKvNumBelowKey key ≤ recs.length := by
    have hlen : page.metaIter.length = recs.length := by rw [himage.metaIter, List.length_map]
    exact hlen ▸ (List.takeWhile_sublist _).length_le
  -- the records below the key come first
  have hcut := (himage.sorted_records hw).splitAt_takeWhile (k := key)
    (q := fun r => r.1 < key) (fun r => by simp)
  have hlen : (page.records.takeWhile fun r => r.1 < key).length = page.getKvNumBelowKey key := by
    rw [records, List.takeWhile_map, List.length_map]
    rfl
  have htake : page.records.take (page.getKvNumBelowKey key) =
      page.records.takeWhile fun r => r.1 < key := by
    conv_lhs => rw [hcut.eq]
    exact List.take_left' hlen
  have hdrop : page.records.drop (page.getKvNumBelowKey key) =
      page.records.dropWhile fun r => r.1 < key := by
    conv_lhs => rw [hcut.eq]
    exact List.drop_left' hlen
  rw [← htake, ← hdrop] at hcut
  exact himage.splitAtCount hw hle hcut hkey hsize ((Option.guard_eq_some' _).1 hsplittable) hcount

/-! ## Insert and consolidation -/

theorem WellFormed.insert (h : page.WellFormed) {value : Value} {op : OpType} {maxFenceLen : Nat}
    {ok : Bool} (hcovers : page.Covers key) (hkey : key.length < 16384) (hvalue : value.length < 32768)
    (hfence : maxFenceLen / 2 ≤ maxKeyLen)
    (hr : page.insert key value op maxFenceLen = some (ok, page')) :
    page'.WellFormed ∧
      (page.hasFence = true → page'.Compressed page.getLowFenceKey page.getHighFenceKey) ∧
      (∀ r ∈ page.records, r.1 ≠ key → r ∈ page'.records) ∧
      (ok = true → (op = .delete → page.isBasePage = false) → ∃ r ∈ page'.records, r.1 = key) := by
  obtain ⟨p, fences, recs, himage, hw⟩ := h
  obtain ⟨hpage, -⟩ | ⟨ok', page'', p', recs', hpage, hp, himage'⟩ :=
    (himage.insert_of_lt op hkey hvalue hfence).cases
  · rw [hr] at hpage
    cases hpage
  · rw [hr] at hpage
    cases hpage
    have hcovers' := (himage.covers hw key).1 hcovers
    obtain ⟨hw', hheader, hfalse, htrue⟩ := LeafNode.insert_spec hw hcovers' hp
    refine ⟨⟨p', fences, recs', himage', hw'⟩, fun hf => ?_, fun r hr hne => ?_, fun hok hop => ?_⟩
    · rw [himage.hasFence] at hf
      rw [himage.getLowFenceKey hf, himage.getHighFenceKey hw hf, ← hheader.lowFence, ← hheader.highFence]
      exact himage'.compressed hw' (hheader.hasFence.trans hf)
    · obtain ⟨k, v, o⟩ := r
      rw [himage.records hw, LeafNode.mem_slots hw] at hr
      rw [himage'.records hw', LeafNode.mem_slots hw']
      cases ok with
      | false => rwa [hfalse rfl]
      | true => rwa [htrue rfl, if_neg hne]
    · obtain ⟨o, v, hentry⟩ : ∃ o v, p'.entry key = some (o, v) := by
        rw [htrue hok, if_pos rfl]
        rw [himage.isBasePage] at hop
        cases p.entry key with
        | none =>
          rw [LeafNode.insertEntry, if_neg (fun hc => by simp [hop hc.1] at hc)]
          exact ⟨_, _, rfl⟩
        | some e =>
          rw [LeafNode.insertEntry]
          split <;> exact ⟨_, _, rfl⟩
      exact ⟨(key, v, o), by rw [himage'.records hw', LeafNode.mem_slots hw']; exact hentry, rfl⟩

/-- What a consolidation keeps of a record. -/
theorem mem_consolidatePairs {op : OpType} {skip : Bool} {skipKey : Option Key}
    {e : Key × Value × OpType} (he : e ∈ page.consolidatePairs op skip skipKey) :
    ∃ r ∈ page.records, e.1 = r.1 ∧ e.2.1 = r.2.1 := by
  obtain ⟨m, hm, hme⟩ := List.mem_filterMap.1 he
  split at hme
  · cases hme
  · split at hme
    · cases hme
    · cases hme
      exact ⟨_, List.mem_map_of_mem hm, rfl, rfl⟩

theorem WellFormed.consolidateInner (h : page.WellFormed) {op : OpType} {newHigh : Option Key}
    {skip : Bool} {skipKey : Option Key}
    (hhigh : ∀ high, newHigh = some high → high.length < 16384 ∧
      (page.hasFence = true → ∀ r ∈ page.records, InRange page.getLowFenceKey high r.1))
    (hr : page.consolidateInner op newHigh skip cacheOnly skipKey version = some page') :
    Rebuilt page' page.hasFence page.getLowFenceKey (newHigh.getD page.getHighFenceKey)
      (page.consolidatePairs op skip skipKey) := by
  obtain ⟨p, fences, recs, himage, hw⟩ := h
  refine rebuilt_of_consolidateInner hr (himage.nodeSize.trans_le himage.nodeSize_le) (fun hf => ?_)
    (fun hf => ?_) (fun e he => ?_) ?_ fun hf e he => ?_
  · rw [himage.hasFence] at hf
    rw [himage.getLowFenceKey hf]
    exact himage.length_lowFence hf
  · rw [himage.hasFence] at hf
    rw [himage.getHighFenceKey hw hf]
    exact himage.length_newHigh (fun k hk => (hhigh k hk).1) hf
  · obtain ⟨r, hr, hkey, hvalue⟩ := mem_consolidatePairs he
    rw [hkey, hvalue]
    exact himage.shortPairs_records hw r hr
  · rw [himage.consolidatePairs hw, LeafNode.consolidatePairs]
    refine hw.sorted.filterMap _ fun m e hme => ?_
    split at hme
    · cases hme
    · split at hme
      · cases hme
      · cases hme
        rfl
  · obtain ⟨r, hmem, hkey, -⟩ := mem_consolidatePairs he
    rw [hkey]
    cases newHigh with
    | none => exact himage.inRange_records hw hf r hmem
    | some high => exact (hhigh high rfl).2 hf r hmem

end LeafPage

/-! ## Pages that are built by these calls -/

/-- The pages that initialization, inserts, splits and consolidations lead to, with keys,
fences and values whose lengths the slots can hold. -/
inductive Built : LeafPage → Prop where
  | fresh {memory page : LeafPage} {low high : Key} {nodeSize : Nat} {next : Option Nat}
      {hasFence cacheOnly : Bool} {version : UInt64} (hsize : nodeSize ≤ maxLeafPageSize)
      (hlow : low.length < 16384) (hhigh : high.length < 16384)
      (h : memory.initializePage low high nodeSize next hasFence cacheOnly version = some page) :
      Built page
  | insert {page page' : LeafPage} {key : Key} {value : Value} {op : OpType} {maxFenceLen : Nat}
      {ok : Bool} (hpage : Built page) (hcovers : page.Covers key) (hkey : key.length < 16384)
      (hvalue : value.length < 32768) (hfence : maxFenceLen / 2 ≤ maxKeyLen)
      (h : page.insert key value op maxFenceLen = some (ok, page')) : Built page'
  | split {page sibling left right : LeafPage} {key : Key} {cacheOnly : Bool} {version : UInt64}
      (hpage : Built page) (hsize : sibling.header.nodeSize.toNat ≤ maxLeafPageSize)
      (h : page.split sibling cacheOnly version = some (key, left, right)) {page' : LeafPage}
      (hside : page' = left ∨ page' = right) : Built page'
  | splitWithKey {page sibling left right : LeafPage} {key : Key} {cacheOnly : Bool} {version : UInt64}
      (hpage : Built page) (hsize : sibling.header.nodeSize.toNat ≤ maxLeafPageSize)
      (hkey : key.length < 16384)
      (h : page.splitWithKey sibling key cacheOnly version = some (left, right)) {page' : LeafPage}
      (hside : page' = left ∨ page' = right) : Built page'
  | consolidateInner {page page' : LeafPage} {op : OpType} {newHigh : Option Key} {skip cacheOnly : Bool}
      {skipKey : Option Key} {version : UInt64} (hpage : Built page)
      (hhigh : ∀ high, newHigh = some high → high.length < 16384 ∧
        (page.hasFence = true → ∀ r ∈ page.records, InRange page.getLowFenceKey high r.1))
      (h : page.consolidateInner op newHigh skip cacheOnly skipKey version = some page') : Built page'

theorem Built.wellFormed {page : LeafPage} (h : Built page) : page.WellFormed := by
  induction h with
  | @fresh memory page low high nodeSize next hasFence cacheOnly version hsize hlow hhigh h =>
    obtain ⟨fences, himage⟩ := memory.image_initializePage next version hsize hlow hhigh h 0
    exact ⟨_, fences, [], himage, LeafNode.wf_initializeNode ..⟩
  | insert _ hcovers hkey hvalue hfence h ih => exact (ih.insert hcovers hkey hvalue hfence h).1
  | split _ hsize h hside ih =>
    obtain ⟨hleft, hright, -⟩ := ih.split hsize h
    rcases hside with rfl | rfl
    · exact hleft
    · exact hright
  | splitWithKey _ hsize hkey h hside ih =>
    obtain ⟨hleft, hright, -⟩ := ih.splitWithKey hsize hkey h
    rcases hside with rfl | rfl
    · exact hleft
    · exact hright
  | consolidateInner _ hhigh h ih => exact (ih.consolidateInner hhigh h).wellFormed

/-- A key between the fences begins with what they share. -/
theorem take_commonPrefixLen_of_inRange {low high key : Key} (h : InRange low high key) :
    key.take (commonPrefixLen low high) = low.take (commonPrefixLen low high) ∧
      key.take (commonPrefixLen low high) = high.take (commonPrefixLen low high) ∧
      commonPrefixLen low high ≤ key.length := by
  obtain ⟨heq, hlen⟩ := take_append_drop_of_inRange h
  have htake : key.take (commonPrefixLen low high) = low.take (commonPrefixLen low high) := by
    conv_lhs => rw [← heq]
    exact List.take_left' (by rw [List.length_take, min_eq_left (commonPrefixLen_le low high)])
  exact ⟨htake, htake.trans (take_commonPrefixLen low high), hlen⟩

/-- **Prefix compression is lossless** for keys and fences of up to 16383 bytes. A key between
two fences begins with what they share, and in every page built between them the record that
was inserted under a key has this full key. A split or a consolidation gives both new pages the
shared part of their own fences, and every record that survives keeps its full key and its
value. -/
theorem Built.prefix_compression_lossless {low high : Key} :
    (∀ key, InRange low high key →
      key.take (commonPrefixLen low high) = low.take (commonPrefixLen low high) ∧
        key.take (commonPrefixLen low high) = high.take (commonPrefixLen low high) ∧
        commonPrefixLen low high ≤ key.length) ∧
    (∀ (memory page : LeafPage) nodeSize next cacheOnly version, nodeSize ≤ maxLeafPageSize →
      low.length < 16384 → high.length < 16384 →
      memory.initializePage low high nodeSize next true cacheOnly version = some page →
        page.Compressed low high ∧ page.records = []) ∧
    ∀ page, Built page → page.Compressed low high →
      (∀ key value op maxFenceLen page', InRange low high key → key.length < 16384 →
        value.length < 32768 → maxFenceLen / 2 ≤ maxKeyLen → (op = .delete → page.isBasePage = false) →
        page.insert key value op maxFenceLen = some (true, page') →
          page'.Compressed low high ∧ (∃ m ∈ page'.metaIter, page'.getFullKey m = key) ∧
            ∀ r ∈ page.records, r.1 ≠ key → r ∈ page'.records) ∧
      (∀ sibling cacheOnly version key left right, sibling.header.nodeSize.toNat ≤ maxLeafPageSize →
        page.split sibling cacheOnly version = some (key, left, right) →
          page.SplitInTwo left right key) ∧
      (∀ sibling key cacheOnly version left right, sibling.header.nodeSize.toNat ≤ maxLeafPageSize →
        key.length < 16384 → page.splitWithKey sibling key cacheOnly version = some (left, right) →
          page.SplitInTwo left right key) ∧
      ∀ op newHigh skip cacheOnly skipKey version page',
        (∀ k, newHigh = some k → k.length < 16384 ∧ ∀ r ∈ page.records, InRange low k r.1) →
        page.consolidateInner op newHigh skip cacheOnly skipKey version = some page' →
          page'.Compressed low (newHigh.getD high) ∧
            page'.records = (page.consolidatePairs op skip skipKey).filter fun e =>
              !(decide (e.2.2 = .delete) && page'.isBasePage) := by
  refine ⟨fun key hrange => take_commonPrefixLen_of_inRange hrange, ?_, ?_⟩
  · intro memory page nodeSize next cacheOnly version hsize hlow hhigh hinit
    have hrebuilt : Rebuilt page true low high [] :=
      rebuilt_of_insertAll hsize hlow hhigh hinit rfl nofun (.nil _) nofun
    exact ⟨hrebuilt.compressed rfl, hrebuilt.records⟩
  · intro page hbuilt hcomp
    have hwf := hbuilt.wellFormed
    obtain ⟨hf, rfl, rfl, -⟩ := hcomp
    refine ⟨?_, ?_, ?_, ?_⟩
    · intro key value op maxFenceLen page' hrange hkey hvalue hfence hop hins
      obtain ⟨-, hcomp, hothers, hrecord⟩ :=
        hwf.insert (fun _ => hrange) hkey hvalue hfence hins
      obtain ⟨r, hr, rfl⟩ := hrecord rfl hop
      obtain ⟨m, hm, rfl⟩ := List.mem_map.1 hr
      exact ⟨hcomp hf, ⟨m, hm, rfl⟩, hothers⟩
    · intro sibling cacheOnly version key left right hsize hsplit
      exact (hwf.split hsize hsplit).2.2
    · intro sibling key cacheOnly version left right hsize hkey hsplit
      exact (hwf.splitWithKey hsize hkey hsplit).2.2
    · intro op newHigh skip cacheOnly skipKey version page' hhigh hres
      have hrebuilt := hwf.consolidateInner (fun k hk => ⟨(hhigh k hk).1, fun _ => (hhigh k hk).2⟩) hres
      exact ⟨hrebuilt.compressed hf, hrebuilt.records⟩

/-- The record under `[1, 3]` of the page between `[1, 2]` and `[1, 5]` has its full key, also
after a split. -/
theorem Built.prefix_compression_lossless_fenced :
    (∃ m ∈ fencedPage.metaIter, fencedPage.getFullKey m = [1, 3]) ∧
      ∃ key left right, fencedPage.split newFencedPage false 0 = some (key, left, right) ∧
        fencedPage.SplitInTwo left right key := by
  have hinit := initializePage_newFencedPage
  have hins := insert_newFencedPage
  obtain ⟨-, hfresh, hbuilt⟩ := @Built.prefix_compression_lossless [1, 2] [1, 5]
  have hnew : Built newFencedPage := .fresh (by decide) (by decide) (by decide) hinit
  have hrange : InRange [1, 2] [1, 5] [1, 3] := ⟨by decide, .inr (by decide)⟩
  have hcomp := (hfresh _ _ _ _ _ _ (by decide) (by decide) (by decide) hinit).1
  obtain ⟨hinsert, -⟩ := hbuilt newFencedPage hnew hcomp
  obtain ⟨hcomp', hkey, -⟩ := hinsert [1, 3] [7] .insert 0 fencedPage hrange (by decide) (by decide)
    (by decide) nofun hins
  have hcovers : newFencedPage.Covers [1, 3] := fun _ => by rwa [hcomp.low_eq, hcomp.high_eq]
  have hpage : Built fencedPage := hnew.insert hcovers (by decide) (by decide) (by decide) hins
  have hsome : (fencedPage.split newFencedPage false 0).isSome = true := by decide +kernel
  obtain ⟨⟨key, left, right⟩, hsplit⟩ := Option.isSome_iff_exists.1 hsome
  obtain ⟨-, hsplits, -⟩ := hbuilt fencedPage hpage hcomp'
  exact ⟨hkey, key, left, right, hsplit,
    hsplits newFencedPage false 0 key left right (by decide +kernel) hsplit⟩

/-! ## Longer keys -/

/-- A base page of the largest size without finite fences. -/
def largestPage : LeafPage :=
  (zeroPage.initializePage [] [] 32768 none true false 0).getD zeroPage

/-- A key of 16384 bytes is accepted, and its slot says that it is empty. -/
theorem long_key_is_lost : ∃ (page page' : LeafPage) (key : Key), InRange [] [] key ∧
    zeroPage.initializePage [] [] 32768 none true false 0 = some page ∧
    page.insert key [] .insert 0 = some (true, page') ∧
    ∀ m ∈ page'.metaIter, page'.getFullKey m ≠ key := by
  obtain ⟨key, hlen⟩ : ∃ key : Key, key.length = 16384 :=
    ⟨List.replicate 16384 0, List.length_replicate⟩
  have hinit : zeroPage.initializePage [] [] 32768 none true false 0 = some largestPage :=
    (Option.getD_of_ne_none (Option.isSome_iff_ne_none.1 (by decide +kernel)) _).symm
  have hcount : largestPage.header.metaCountWithFence = 2 := by decide +kernel
  have hfence : largestPage.hasFence = true := by decide +kernel
  have hprefix : largestPage.prefixLen = 0 := by decide +kernel
  have hencoded : largestPage.header.encoded = 0x8002 := by decide +kernel
  have hfirst : largestPage.firstMetaPosAfterFence = 2 := by rw [LeafPage.firstMetaPosAfterFence, hfence]; rfl
  have hcount' : largestPage.metaCountWithFence = 2 := by rw [LeafPage.metaCountWithFence, hcount]; rfl
  have hlower : largestPage.lowerBound key = some 2 := by
    rw [LeafPage.lowerBound, hprefix, hfirst, hcount', if_neg (by simp)]
    rfl
  have hpost : UInt16.ofNat key.length - largestPage.prefixLen = 16384 := by
    rw [hlen, hprefix]
    rfl
  have hroom : largestPage.fullWithFences
      (16384 + UInt16.ofNat ([] : Value).length + UInt16.ofNat kvMetaSize) 0 = false := by decide +kernel
  have hins : largestPage.insert key [] .insert 0 =
      some (true, largestPage.insertNew 2 16384 0 key [] .insert) := by
    simp only [LeafPage.insert, hlower, Option.bind_eq_bind, Option.bind_some, hcount', hpost]
    rw [if_neg (by simp), if_neg (by simp), hroom]
    rfl
  have hoffset : largestPage.currentLowestOffset - (16384 + 0) = 16352 := by decide +kernel
  refine ⟨largestPage, _, key, inRange_nil_nil key, hinit, hins, fun m hm heq => ?_⟩
  have hslot : (largestPage.insertNew 2 16384 0 key [] .insert).getKvMeta 2 =
      makePrefixedMeta 16352 0 key 0 .insert := by
    simp only [LeafPage.insertNew, LeafPage.writeInitialKvMeta, LeafPage.writePair, LeafPage.getKvMeta,
      hoffset, hprefix]
    rw [Memory.read_write_of_disjoint (.inl (by decide)), Memory.read_write_of_disjoint (.inl (by decide)),
      ← length_encode (makePrefixedMeta 16352 0 key 0 .insert), Memory.read_write, decode_encode]
  have hheader : (largestPage.insertNew 2 16384 0 key [] .insert).header.encoded = 0x8003 := by
    show largestPage.header.encoded + 1 = 0x8003
    rw [hencoded]
    rfl
  have hiter : (largestPage.insertNew 2 16384 0 key [] .insert).metaIter =
      [makePrefixedMeta 16352 0 key 0 .insert] := by
    rw [LeafPage.metaIter, LeafPage.firstMetaPosAfterFence, LeafPage.metaCountWithFence,
      LeafPage.hasFence, NodeMeta.hasFence, NodeMeta.metaCountWithFence, hheader]
    exact congrArg (fun m => [m]) hslot
  rw [hiter, List.mem_singleton] at hm
  have hkeyLen : m.getKeyLen = 0 := by
    rw [hm, getKeyLen, makePrefixedMeta, hlen]
    show (UInt16.ofNat 16384 ||| OpType.insert.toWord <<< opTypeShift) &&& keyLenMask = 0
    decide
  have hprefix' : (largestPage.insertNew 2 16384 0 key [] .insert).prefixLen = 0 := hprefix
  have hempty := congrArg List.length heq
  rw [LeafPage.getFullKey, LeafPage.getPrefix, LeafPage.getRemainingKey, hprefix', hkeyLen, hlen] at hempty
  simp at hempty

end BfTree
