import BfTree.Config
import BfTree.Nodes.Accounting

/-!
# BfTree.Nodes.Reads — what readers see after a merge or a split

The specifications of the page operations speak about entries. Here they are restated in
terms of what a reader gets from the page, and of the slots as a list: a merge overlays
the dirty records of the mini page, a split cuts the list of live records in two.
-/

namespace BfTree.LeafNode

open Lib

/-! ## Reading -/

/-- A read of `k` with a large enough buffer returns `w`. -/
def Reads (p : LeafNode) (k : Key) (w : Option Value) : Prop :=
  ∀ buf : List UInt8, (∀ v ∈ w, v.length ≤ buf.length) →
    ∃ r buf' p', p.readByKey k buf = some (r, buf', p') ∧
      match w with
      | some v => r = .found v.length ∧ buf' = v ++ buf.drop v.length
      | none => (r = .deleted ∨ r = .notFound) ∧ buf' = buf

/-- Readers get the live entries. -/
theorem reads_entry {p : LeafNode} (h : p.WF) {k : Key} (hk : p.Covers k) :
    p.Reads k (live (p.entry k)) := by
  intro buf hbuf
  obtain ⟨A, B, hlb, hs⟩ := searchPos_spec h hk true
  have hget : p.metas[A.length]? = B.head? := by rw [hs.eq, getElem?_length_append]
  have hentry : p.entry k = (B.head?.filter fun b => p.getFullKey b = k).map
      fun m => (m.opType, m.value) := by rw [entry, hs.findKey_head h.sorted]
  simp only [readByKey, readByKeyInner, hlb, Option.bind_eq_bind, Option.bind_some, hget]
  cases B with
  | nil =>
    rw [hentry]
    exact ⟨_, _, _, rfl, .inr rfl, rfl⟩
  | cons m B =>
    rw [List.head?_cons, Option.filter_some] at hentry
    simp only [List.head?_cons, fullKey_eq_iff h hk m]
    by_cases hm : p.getFullKey m = k
    · simp only [hm, decide_true, if_true, Option.map_some] at hentry
      rw [hentry] at hbuf ⊢
      rw [if_pos hm]
      by_cases ha : m.opType.isAbsent
      · simp only [live, ha, if_true]
        exact ⟨_, _, _, rfl, .inl rfl, rfl⟩
      · simp only [live, ha, Bool.false_eq_true, if_false] at hbuf ⊢
        have hlen : m.value.length ≤ buf.length := hbuf _ rfl
        simp only [copyFromSlice, if_pos hlen, Option.bind_some]
        exact ⟨_, _, _, rfl, rfl, rfl⟩
    · simp only [hm, decide_false, Bool.false_eq_true, if_false, Option.map_none] at hentry
      rw [hentry, if_neg hm]
      exact ⟨_, _, _, rfl, .inr rfl, rfl⟩

/-- A key reads in one way only. -/
theorem Reads.unique {p : LeafNode} {k : Key} {w w' : Option Value} (h : p.Reads k w)
    (h' : p.Reads k w') : w = w' := by
  -- a buffer long enough for both
  have hlen : ∀ u ∈ [w, w'], ∀ v ∈ u, v.length ≤
      (List.replicate ((w.getD []).length + (w'.getD []).length) (0 : UInt8)).length := by
    intro u hu v hv
    obtain rfl := Option.mem_def.1 hv
    rw [List.length_replicate]
    rcases List.mem_cons.1 hu with rfl | hu
    · exact Nat.le_add_right _ _
    · obtain rfl := List.mem_singleton.1 hu
      exact Nat.le_add_left _ _
  obtain ⟨r, buf, q, hr, hw⟩ := h _ (hlen w (by simp))
  obtain ⟨r', buf', q', hr', hw'⟩ := h' _ (hlen w' (by simp))
  rw [hr, Option.some.injEq, Prod.mk.injEq, Prod.mk.injEq] at hr'
  obtain ⟨rfl, rfl, -⟩ := hr'
  cases w with
  | none =>
    cases w' with
    | none => rfl
    | some v =>
      rcases hw.1 with hw | hw <;> rw [hw] at hw' <;> cases hw'.1
  | some v =>
    cases w' with
    | none => rcases hw'.1 with hw' | hw' <;> rw [hw'] at hw <;> cases hw.1
    | some v' =>
      have hlen : v.length = v'.length :=
        LeafReadResult.found.inj (hw.1.symm.trans hw'.1)
      exact congrArg some (List.append_inj_left (hw.2.symm.trans hw'.2) hlen)

theorem Reads.eq_entry {p : LeafNode} (h : p.WF) {k : Key} (hk : p.Covers k) {w : Option Value}
    (hr : p.Reads k w) : w = live (p.entry k) :=
  hr.unique (reads_entry h hk)

/-! ## Slots -/

/-- The records of the page in slot order. -/
def slots (p : LeafNode) : List (Key × Value × OpType) :=
  p.metas.map fun m => (p.getFullKey m, m.value, m.opType)

/-- The records that a reader finds. -/
def liveSlots (p : LeafNode) : List (Key × Value × OpType) :=
  p.slots.filter fun r => !r.2.2.isAbsent

theorem slots_sorted {p : LeafNode} (h : p.WF) : KeySorted Prod.fst p.slots :=
  List.pairwise_map.2 h.sorted

theorem mem_slots {p : LeafNode} (h : p.WF) {k : Key} {v : Value} {op : OpType} :
    (k, v, op) ∈ p.slots ↔ p.entry k = some (op, v) := by
  rw [entry_eq_some h, slots, List.mem_map]
  constructor
  · rintro ⟨m, hm, heq⟩
    obtain ⟨rfl, rfl, rfl⟩ : p.getFullKey m = k ∧ m.value = v ∧ m.opType = op := by
      simpa using heq
    exact ⟨m, hm, rfl, rfl, rfl⟩
  · rintro ⟨m, hm, rfl, rfl, rfl⟩
    exact ⟨m, hm, rfl⟩

/-- Strictly sorted lists with the same records are the same. -/
theorem slots_eq {p : LeafNode} (h : p.WF) {L : List (Key × Value × OpType)}
    (hL : KeySorted Prod.fst L) (hmem : ∀ k v op, p.entry k = some (op, v) ↔ (k, v, op) ∈ L) :
    p.slots = L := by
  have hirrefl : Std.Irrefl fun a b : Key × Value × OpType => a.1 < b.1 := ⟨fun a => lt_irrefl a.1⟩
  have hasymm : Std.Antisymm fun a b : Key × Value × OpType => a.1 < b.1 :=
    ⟨fun _ _ hab hba => absurd hab (lt_asymm hba)⟩
  refine List.Pairwise.eq_of_mem_iff (slots_sorted h) hL fun e => ?_
  obtain ⟨k, v, op⟩ := e
  rw [mem_slots h]
  exact hmem k v op

/-! ## Merge -/

/-- The page is a real one: its header, its records and its free bytes have room in it. -/
structure Fits (p : LeafNode) : Prop where
  header_le : leafHeaderSize ≤ p.nodeSize
  nodeSize_le : p.nodeSize ≤ maxLeafPageSize
  space : p.remainingSize + p.used ≤ p.capacity

/-- What a mini page makes of the value of a key in the base page. Clean records change
nothing. -/
def mergedValue (mini : Option (OpType × Value)) (old : Option Value) : Option Value :=
  match mini with
  | some (.insert, v) => some v
  | some (.delete, _) => none
  | some (.cache, _) | some (.phantom, _) | none => old

theorem live_mergeEntry {isBase : Bool} (e b : Option (OpType × Value)) :
    live (mergeEntry isBase e b) = mergedValue e (live b) := by
  cases e with
  | none => rfl
  | some e =>
    obtain ⟨op, v⟩ := e
    cases op with
    | insert => simp [mergeEntry, mergedValue, OpType.isDirty, live, OpType.isAbsent]
    | delete =>
      cases b with
      | none => cases isBase <;>
          simp [mergeEntry, mergedValue, OpType.isDirty, insertEntry, live, OpType.isAbsent]
      | some b => simp [mergeEntry, mergedValue, OpType.isDirty, insertEntry, live, OpType.isAbsent]
    | cache => rfl
    | phantom => rfl

/-- Without fences the estimate counts the bytes that the records take in the mini page. -/
theorem Fits.estimateMergeSize_lt {p : LeafNode} (h : p.Fits) (hw : p.WF) (hf : p.hasFence = false) :
    p.estimateMergeSize < 65536 := by
  have hcap : p.capacity ≤ p.nodeSize := by
    rw [capacity, hf]
    exact Nat.sub_le _ _
  have hsum : p.estimateMergeSize ≤ p.used := by
    rw [estimateMergeSize, recordSize_eq_storedSize hw hf, used]
    exact (List.filter_sublist.map _).sum_le_sum fun _ _ => Nat.zero_le _
  have hspace := h.space
  have hsize : p.nodeSize ≤ 32768 := h.nodeSize_le
  omega

/-- On a base page only the inserts cost anything, at most what the estimate counts. -/
theorem pairCost_dirtyPairs_le {base : LeafNode} (hbase : base.isBasePage = true) (mini : LeafNode) :
    (mini.dirtyPairs.map base.pairCost).sum ≤ mini.estimateMergeSize := by
  have hinsert : ∀ m : LeafKVMeta,
      base.pairCost (mini.getFullKey m, m.value, .insert) ≤ mini.recordSize m := by
    intro m
    have hkey := mini.length_getFullKey_le m
    simp only [pairCost, recordSize, reduceCtorEq, false_and, if_false, List.length_drop]
    omega
  unfold dirtyPairs estimateMergeSize
  induction mini.metas with
  | nil => exact Nat.le_refl 0
  | cons m ms ih =>
    rw [List.filterMap_cons, List.filter_cons]
    cases hop : m.opType with
    | insert =>
      have := hinsert m
      simp only [OpType.isDirty, decide_true, if_true, List.map_cons, List.sum_cons]
      exact Nat.add_le_add this ih
    | delete =>
      have hzero : base.pairCost (mini.getFullKey m, m.value, .delete) = 0 := if_pos ⟨rfl, hbase⟩
      simp only [OpType.isDirty, if_true, List.map_cons, List.sum_cons, hzero, Nat.zero_add]
      exact ih
    | cache => exact ih
    | phantom => exact ih

theorem mem_dirtyPairs {p : LeafNode} {e : Key × Value × OpType} (h : e ∈ p.dirtyPairs) :
    ∃ m ∈ p.metas, p.getFullKey m = e.1 ∧ e.2.2.isDirty = true := by
  obtain ⟨m, hm, he⟩ := List.mem_filterMap.1 h
  split at he
  · cases he
    exact ⟨m, hm, rfl, ‹_›⟩
  · cases he

theorem dirtyPairs_sorted {p : LeafNode} (h : p.WF) : KeySorted Prod.fst p.dirtyPairs :=
  h.sorted.filterMap _ fun m e he => by
    split at he
    · cases he
      rfl
    · cases he

/-- A merge without split returns, and if it says so, the base page reads as the mini page
over it did. The estimate made up front is enough for every record. -/
theorem mergeMiniPage_reads {base mini : LeafNode} (hb : base.WF) (hbase : base.isBasePage = true)
    (hm : mini.WF) (hmini : mini.hasFence = false) (hfits : mini.Fits)
    (hcov : ∀ m ∈ mini.metas, base.Covers (mini.getFullKey m)) (maxFenceLen : Nat) :
    ∃ merged base', base.mergeMiniPage mini maxFenceLen = some (merged, base') ∧
      (merged = false → base' = base) ∧
      (merged = true →
        (∀ k w, base.Covers k → base.Reads k w → base'.Reads k (mergedValue (mini.entry k) w)) ∧
        base'.lowFence = base.lowFence ∧ base'.highFence = base.highFence ∧
        base'.snapshotVersion = mini.snapshotVersion ∧ base'.versionChanged = false) := by
  have hreturns : ∃ merged base', base.mergeMiniPage mini maxFenceLen = some (merged, base') := by
    rw [mergeMiniPage, u16, Nat.mod_eq_of_lt (hfits.estimateMergeSize_lt hm hmini)]
    split
    · exact ⟨_, _, rfl⟩
    · next hroom =>
      have hle : mini.estimateMergeSize ≤ base.remainingSize := by
        by_contra hlt
        exact hroom (if_pos (by omega))
      obtain ⟨base', hall, -⟩ := insertAll_of_room
        (p := base.setSnapshotVersion mini.snapshotVersion false)
        (hb.setSnapshotVersion mini.snapshotVersion false)
        (fun e he => by
          obtain ⟨m, hmem, hkey, -⟩ := mem_dirtyPairs he
          exact hkey ▸ hcov m hmem)
        (dirtyPairs_sorted hm)
        (fun e he hc => by
          obtain ⟨-, -, -, hd⟩ := mem_dirtyPairs he
          rw [hc] at hd
          cases hd)
        ((pairCost_dirtyPairs_le hbase mini).trans hle)
      exact ⟨true, base', by rw [hall]; rfl⟩
  obtain ⟨merged, base', hr⟩ := hreturns
  refine ⟨merged, base', hr, ?_⟩
  have hcov' : ∀ k, mini.entry k ≠ none → base.Covers k := by
    intro k hk
    obtain ⟨e, he⟩ := Option.ne_none_iff_exists'.1 hk
    obtain ⟨m, hmem, rfl, -⟩ := (entry_eq_some hm).1 he
    exact hcov m hmem
  obtain ⟨rfl, rfl⟩ | ⟨rfl, hw, hh, he⟩ := mergeMiniPage_spec hm hb hcov' hr
  · exact ⟨fun _ => rfl, nofun⟩
  · refine ⟨nofun, fun _ => ⟨fun k w hk hread => ?_, hh.lowFence, hh.highFence, hh.snapshotVersion,
      hh.versionChanged⟩⟩
    rw [hread.eq_entry hb hk, ← live_mergeEntry, ← he]
    exact reads_entry hw (hh.covers.2 hk)

/-- A mini page with one record for a new base page. -/
def oneRecord : LeafNode :=
  { initializeMiniPage 64 (some 0) false 1 with
    metas := [LeafKVMeta.makePrefixedMeta [2, 3, 4] [1] 0 .insert], remainingSize := 20 }

theorem oneRecord_wf : oneRecord.WF where
  prefixLen_eq := rfl
  no_fence _ := ⟨rfl, rfl⟩
  sorted := List.pairwise_singleton _ _
  inRange _ _ := inRange_nil_nil _

theorem mergeMiniPage_reads_oneRecord :
    ∃ base', (makeBasePage 4096 0).mergeMiniPage oneRecord 32 = some (true, base') ∧
      base'.Reads [1] (some [2, 3, 4]) ∧ base'.Reads [2] none := by
  have hwf : (makeBasePage 4096 0).WF := wf_initializeNode ..
  have hcov : ∀ k, (makeBasePage 4096 0).Covers k := inRange_nil_nil
  obtain ⟨merged, base', hr, -, hmerged⟩ := mergeMiniPage_reads hwf rfl oneRecord_wf rfl
    ⟨by decide, by decide, by decide⟩ (fun m _ => hcov _) 32
  have htrue : ((makeBasePage 4096 0).mergeMiniPage oneRecord 32).map Prod.fst = some true := by decide
  rw [hr] at htrue
  obtain rfl : merged = true := Option.some.inj htrue
  obtain ⟨hreads, -⟩ := hmerged rfl
  exact ⟨base', hr, hreads [1] none (hcov _) (reads_entry hwf (hcov _)),
    hreads [2] none (hcov _) (reads_entry hwf (hcov _))⟩

/-! ## Split -/

theorem cleaned_eq_some_iff {e : Option (OpType × Value)} (hdirty : ∀ x ∈ e, x.1.isDirty = true)
    {op : OpType} {v : Value} :
    cleaned e = some (op, v) ↔ e = some (op, v) ∧ op.isAbsent = false := by
  cases e with
  | none => simp
  | some e =>
    obtain ⟨op', v'⟩ := e
    have hd := hdirty _ rfl
    cases op' with
    | insert =>
      simp only [cleaned, reduceCtorEq, if_false, Option.some.injEq, Prod.mk.injEq]
      constructor
      · rintro ⟨rfl, rfl⟩
        exact ⟨⟨rfl, rfl⟩, rfl⟩
      · exact fun h => h.1
    | delete =>
      simp only [cleaned, if_true, reduceCtorEq, Option.some.injEq, Prod.mk.injEq, false_iff]
      rintro ⟨⟨rfl, -⟩, h⟩
      cases h
    | cache => cases hd
    | phantom => cases hd

theorem mem_liveSlots {p : LeafNode} (h : p.WF) {k : Key} {v : Value} {op : OpType} :
    (k, v, op) ∈ p.liveSlots ↔ p.entry k = some (op, v) ∧ op.isAbsent = false := by
  rw [liveSlots, List.mem_filter, mem_slots h]
  simp

section SplitResult

variable {p left sibling : LeafNode} {siblingSize version : Nat} {key : Key} {cacheOnly : Bool}

/-- A split cuts the list of live records in two. -/
theorem SplitResult.slots (h : p.WF) (hdirty : ∀ k e, p.entry k = some e → e.1.isDirty = true)
    (hs : SplitResult p left sibling siblingSize key cacheOnly version) :
    left.slots = p.liveSlots.filter (fun r => r.1 < key) ∧
      sibling.slots = p.liveSlots.filter (fun r => key ≤ r.1) := by
  have hsorted : ∀ f, KeySorted Prod.fst (p.liveSlots.filter f) := fun f =>
    (slots_sorted h).sublist (List.filter_sublist.trans List.filter_sublist)
  refine ⟨slots_eq hs.left_wf (hsorted _) fun k v op => ?_,
    slots_eq hs.sibling_wf (hsorted _) fun k v op => ?_⟩
  · rw [hs.left_entry, List.mem_filter, mem_liveSlots h]
    by_cases hlt : k < key
    · simp [hlt, cleaned_eq_some_iff fun x hx => hdirty k x hx]
    · simp [hlt]
  · rw [hs.sibling_entry, List.mem_filter, mem_liveSlots h]
    by_cases hlt : k < key
    · simp [hlt]
    · simp [hlt, not_lt.1 hlt, cleaned_eq_some_iff fun x hx => hdirty k x hx]

/-- The halves of a page with fences meet at the split key. -/
theorem SplitResult.fences (hs : SplitResult p left sibling siblingSize key false version)
    (hfence : p.hasFence = true) : left.lowFence = p.lowFence ∧ left.highFence = key ∧
      sibling.lowFence = key ∧ sibling.highFence = p.highFence := by
  have hl := hs.left_header
  have hr := hs.sibling_header
  refine ⟨by rw [hl.lowFence]; simp [hfence], by rw [hl.highFence]; simp [hfence],
    by rw [hr.lowFence]; simp, by rw [hr.highFence]; simp⟩

end SplitResult

/-- A split by key cuts the list of live records in two. Each half has its fences, and every
key reads from its half as it read from the page. -/
theorem splitWithKey_partitions {p left sibling : LeafNode} (h : p.WF)
    (hdirty : ∀ m ∈ p.metas, m.opType.isDirty = true) {siblingSize version : Nat} {key : Key}
    {cacheOnly : Bool}
    (hr : p.splitWithKey siblingSize key cacheOnly version = some (left, sibling)) :
    left.slots = p.liveSlots.filter (fun r => r.1 < key) ∧
      sibling.slots = p.liveSlots.filter (fun r => key ≤ r.1) ∧
      (cacheOnly = false → left.lowFence = p.lowFence ∧ left.highFence = key ∧
        sibling.lowFence = key ∧ sibling.highFence = p.highFence) ∧
      ∀ k w, p.Covers k → p.Reads k w →
        if k < key then left.Reads k w else sibling.Reads k w := by
  obtain ⟨hsp, hs⟩ := splitWithKey_spec h hr
  have hentry : ∀ k e, p.entry k = some e → e.1.isDirty = true := by
    intro k e he
    obtain ⟨m, hm, -, hop, -⟩ := (entry_eq_some h).1 he
    exact hop ▸ hdirty m hm
  obtain ⟨hleft, hright⟩ := hs.slots h hentry
  refine ⟨hleft, hright, fun hc => ?_, fun k w hk hread => ?_⟩
  · subst hc
    simp only [splittable, Bool.false_eq_true, if_false, Bool.and_eq_true] at hsp
    exact hs.fences hsp.2
  · rw [hread.eq_entry h hk, ← live_cleaned fun e he => hentry k e he]
    split
    · next hlt =>
      have hcov : left.Covers k := by
        rw [Covers, hs.left_header.lowFence, hs.left_header.highFence]
        cases p.hasFence with
        | true =>
          have hin : InRange p.lowFence key k := ⟨hk.1, .inr hlt⟩
          simpa using hin
        | false => simpa using inRange_nil_nil k
      have hreads := reads_entry hs.left_wf hcov
      rwa [hs.left_entry, if_pos hlt] at hreads
    · next hge =>
      have hcov : sibling.Covers k := by
        rw [Covers, hs.sibling_header.lowFence, hs.sibling_header.highFence]
        cases cacheOnly with
        | true => simpa using inRange_nil_nil k
        | false =>
          have hin : InRange key p.highFence k := ⟨not_lt.1 hge, hk.2⟩
          simpa using hin
      have hreads := reads_entry hs.sibling_wf hcov
      rwa [hs.sibling_entry, if_neg hge] at hreads

/-- A base page with two records and a tombstone. -/
def twoAndATombstone : LeafNode :=
  { makeBasePage 4096 0 with
    metas := [LeafKVMeta.makePrefixedMeta [7] [1] 0 .insert,
      LeafKVMeta.makePrefixedMeta [8] [2] 0 .delete, LeafKVMeta.makePrefixedMeta [9] [3] 0 .insert]
    remainingSize := 4018 }

theorem twoAndATombstone_wf : twoAndATombstone.WF where
  prefixLen_eq := rfl
  no_fence h := by cases h
  sorted := by unfold KeySorted; decide
  inRange _ _ := inRange_nil_nil _

theorem splitWithKey_partitions_two :
    ∃ left sibling, twoAndATombstone.splitWithKey 4096 [2] false 1 = some (left, sibling) ∧
      left.slots = [([1], [7], .insert)] ∧ sibling.slots = [([3], [9], .insert)] := by
  have hsome : (twoAndATombstone.splitWithKey 4096 [2] false 1).isSome := by decide
  obtain ⟨⟨left, sibling⟩, hr⟩ := Option.isSome_iff_exists.1 hsome
  obtain ⟨hleft, hsibling, -⟩ := splitWithKey_partitions twoAndATombstone_wf (by decide) hr
  exact ⟨left, sibling, hr, hleft, hsibling⟩

end BfTree.LeafNode
