import BfTree.FailedInsert
import BfTree.Filled
import BfTree.Nodes.BalancedSplit
import BfTree.TreePages

/-!
# BfTree.CacheOnlySplit — splitting a full cache-only page

A cache-only page of maximal size that has no room for a record, not even after a
consolidation, is split. The record is counted as if it were in the page already, and no
record takes more than half a page, so that both halves have room for what they get.
-/

namespace BfTree

open Lib LeafNode

namespace LeafNode

theorem CutAt.filter_items {p : LeafNode} {n : Nat} {key : Key} (hcut : p.CutAt n key) :
    (p.metas.map p.item).filter (fun r => r.2 < key) = (p.metas.take n).map p.item ∧
      (p.metas.map p.item).filter (fun r => key ≤ r.2) = (p.metas.drop n).map p.item := by
  have hleft : ∀ r ∈ (p.metas.take n).map p.item, r.2 < key := by
    intro r hr
    obtain ⟨m, hm, rfl⟩ := List.mem_map.1 hr
    exact hcut.left m hm
  have hright : ∀ r ∈ (p.metas.drop n).map p.item, key ≤ r.2 := by
    intro r hr
    obtain ⟨m, hm, rfl⟩ := List.mem_map.1 hr
    exact hcut.right m hm
  have hsplit : p.metas.map p.item = (p.metas.take n).map p.item ++ (p.metas.drop n).map p.item := by
    rw [← List.map_append, List.take_append_drop]
  rw [hsplit, List.filter_append, List.filter_append]
  constructor
  · rw [List.filter_eq_self.2 fun r hr => decide_eq_true (hleft r hr),
      List.filter_eq_nil_iff.2 fun r hr => by simpa using hright r hr, List.append_nil]
  · rw [List.filter_eq_nil_iff.2 fun r hr => by simpa using hleft r hr,
      List.filter_eq_self.2 fun r hr => decide_eq_true (hright r hr), List.nil_append]

/-- The sides of a split key, counted with the pending record, are the parts of the page. -/
theorem itemsSize_sides {p : LeafNode} (h : p.WF) {key : Key} (hnew : p.entry key = none) {n : Nat}
    {A B : List (Nat × Key)} {y : Nat × Key} (heq : p.insertItems key n = A ++ y :: B) :
    itemsSize A = ((p.metas.take (p.getKvNumBelowKey y.2)).map p.recordSize).sum +
        (if key < y.2 then n else 0) ∧
      itemsSize (y :: B) = ((p.metas.drop (p.getKvNumBelowKey y.2)).map p.recordSize).sum +
        (if key < y.2 then 0 else n) := by
  have hperm : (p.insertItems key n).Perm ((n, key) :: p.metas.map p.item) := by
    refine List.perm_middle.trans (List.Perm.cons _ (List.Perm.of_eq ?_))
    rw [← List.map_append, List.takeWhile_append_dropWhile]
  obtain ⟨hA, hB⟩ := filter_lt_of_sorted (heq ▸ insertItems_sorted h hnew n)
  obtain ⟨hbelow, habove⟩ := (cutAt_getKvNumBelowKey h y.2).filter_items
  have hleft := itemsSize_perm (hperm.filter fun r => decide (r.2 < y.2))
  have hright := itemsSize_perm (hperm.filter fun r => decide (y.2 ≤ r.2))
  rw [heq, hA, List.filter_cons, hbelow] at hleft
  rw [heq, hB, List.filter_cons, habove] at hright
  rw [hleft, hright, ← itemsSize_map_item, ← itemsSize_map_item]
  by_cases hlt : key < y.2
  · simp [hlt, not_le.2 hlt, Nat.add_comm]
  · simp [hlt, not_lt.1 hlt, Nat.add_comm]

end LeafNode

section Page

variable {cfg : Config} {lo hi : Key} {p : LeafNode}

/-- A page without fences has all of its data for records. -/
theorem CachePage.capacity_eq (h : CachePage cfg lo hi p) : p.capacity = maxDataSize p.nodeSize := by
  rw [capacity, h.hasFence]
  rfl

theorem CachePage.pairCost_eq (h : CachePage cfg lo hi p) (e : Key × Value × OpType) :
    p.pairCost e = e.1.length + e.2.1.length + kvMetaSize := by
  have hprefix : p.prefixLen = 0 := by
    rw [h.wf.prefixLen_eq, h.noFences.1, commonPrefixLen_nil_left]
  rw [pairCost, h.isBasePage, if_neg (by simp), hprefix, List.drop_zero]

/-- A consolidation succeeds and leaves no holes. -/
theorem CachePage.consolidateSkipKey (h : CachePage cfg lo hi p)
    (hspace : p.remainingSize + p.used ≤ p.capacity) (key : Key) (ver : Nat) :
    ∃ q, p.consolidateSkipKey key ver = some q ∧ CachePage cfg lo hi q ∧ q.nodeSize = p.nodeSize ∧
      q.remainingSize + q.used = maxDataSize q.nodeSize ∧
      (∀ k e, q.entry k = some e → e.1 = .insert) ∧
      ∀ k, q.entry k = if k = key then none else cleaned (p.entry k) := by
  have hcov : ∀ m ∈ p.metas, p.hasFence = true →
      InRange p.lowFence ((none : Option Key).getD p.highFence) (p.getFullKey m) := by
    intro m _ hf
    rw [h.hasFence] at hf
    cases hf
  have hinit : ∀ c, (initializeNode p.lowFence ((none : Option Key).getD p.highFence) p.nodeSize
      p.nextLevel p.hasFence c ver).remainingSize = maxDataSize p.nodeSize := by
    intro c
    rw [h.hasFence]
    rfl
  rw [h.capacity_eq] at hspace
  obtain ⟨q, hq, -⟩ : ∃ q, p.consolidateInner .insert none true true (some key) ver = some q ∧ _ :=
    consolidateInner_of_room h.wf hcov p.recordSize (fun m => p.length_drop_getFullKey_le _ m) (by
      rw [hinit, h.recordSize_eq]
      exact (Nat.le_add_left _ _).trans hspace)
  have hskip : p.consolidateSkipKey key ver = some q := by
    rw [LeafNode.consolidateSkipKey, h.isBasePage, h.isCacheOnlyLeaf]
    exact hq
  obtain ⟨hcache, hnode, -⟩ := h.consolidateInner hq
  refine ⟨q, hskip, hcache, hnode, ?_, h.consolidateInner_op hq,
    (consolidateSkipKey_spec h.wf hskip).2.2⟩
  have hbal := rebuild_accounting h.wf (List.Sublist.refl _) _
    (fun m e he => by
      split at he
      · cases he
      · split at he
        · cases he
        · cases he
          rfl)
    (wf_initializeNode ..) (initializeNode_metas ..)
    (fun m hm => covers_initializeNode _ _ _ _ (hcov m hm)) hq
  rw [hbal, hinit, hnode]

variable {key : Key} {value : Value} {op : OpType} {ver : Nat}

/-- What the two pages hold once the record is in one of them. -/
theorem CachePage.split_insert_slots {q left sibling left' sibling' : LeafNode} {splitKey : Key}
    {size : Nat} (h : CachePage cfg lo hi q) (hop : ∀ k e, q.entry k = some e → e.1 = .insert)
    (hnew : q.entry key = none) (hs : SplitResult q left sibling size splitKey true ver)
    (hins : splitKey ≤ key ∧ left' = left ∧ sibling.insert key value op 0 = some (true, sibling') ∨
      key < splitKey ∧ sibling' = sibling ∧ left.insert key value op 0 = some (true, left'))
    (k : Key) (v : Value) (o : OpType) :
    (k, v, o) ∈ left'.slots ∨ (k, v, o) ∈ sibling'.slots ↔
      (k, v, o) = (key, value, op) ∨ q.entry k = some (o, v) := by
  obtain ⟨hl, hr, -, -⟩ := h.split hs
  have hclean : ∀ x, cleaned (q.entry x) = q.entry x := by
    intro x
    cases hx : q.entry x with
    | none => rfl
    | some e =>
      obtain ⟨o', v'⟩ := e
      obtain rfl : o' = .insert := hop x _ hx
      rfl
  have hleft : ∀ x, left.entry x = if x < splitKey then q.entry x else none := fun x => by
    rw [hs.left_entry, hclean]
  have hright : ∀ x, sibling.entry x = if x < splitKey then none else q.entry x := fun x => by
    rw [hs.sibling_entry, hclean]
  have hstored : ∀ {r r' : LeafNode}, CachePage cfg lo splitKey r ∨ CachePage cfg splitKey hi r →
      r.entry key = none → r.insert key value op 0 = some (true, r') →
      r'.WF ∧ ∀ x, r'.entry x = if x = key then some (op, value) else r.entry x := by
    intro r r' hcase hnone hri
    obtain ⟨hw, hcov, hbase⟩ : r.WF ∧ r.Covers key ∧ r.isBasePage = false := by
      rcases hcase with hc | hc
      · exact ⟨hc.wf, hc.covers key, hc.isBasePage⟩
      · exact ⟨hc.wf, hc.covers key, hc.isBasePage⟩
    obtain ⟨hw', -, -, he⟩ := insert_spec hw hcov hri
    refine ⟨hw', fun x => ?_⟩
    rw [he rfl, hnone, hbase]
    simp [insertEntry]
  obtain ⟨hge, rfl, hins⟩ | ⟨hlt, rfl, hins⟩ := hins
  · have hnone : sibling.entry key = none := by rw [hright, if_neg (not_lt.2 hge), hnew]
    obtain ⟨hw, he⟩ := hstored (.inr hr) hnone hins
    rw [mem_slots hl.wf, mem_slots hw, hleft, he, hright]
    by_cases hk : k = key
    · subst hk
      simp [not_lt.2 hge, hnew, eq_comm, and_comm]
    · by_cases hlt : k < splitKey <;> simp [hk, hlt]
  · have hnone : left.entry key = none := by rw [hleft, if_pos hlt, hnew]
    obtain ⟨hw, he⟩ := hstored (.inl hl) hnone hins
    rw [mem_slots hr.wf, mem_slots hw, hright, he, hleft]
    by_cases hk : k = key
    · subst hk
      simp [hlt, hnew, eq_comm, and_comm]
    · by_cases hlt : k < splitKey <;> simp [hk, hlt]

/-- Without fences all of a new page is for records. -/
theorem CachePage.splitWithKey_of_room (h : CachePage cfg lo hi p) (size : Nat) (splitKey : Key)
    (ver : Nat) (hleft : ((p.metas.take (p.getKvNumBelowKey splitKey)).map p.recordSize).sum ≤
      maxDataSize p.nodeSize)
    (hright : ((p.metas.drop (p.getKvNumBelowKey splitKey)).map p.recordSize).sum ≤
      maxDataSize size) :
    ∃ left sibling, p.splitWithKey size splitKey true ver = some (left, sibling) ∧
      maxDataSize p.nodeSize ≤ left.remainingSize +
        ((p.metas.take (p.getKvNumBelowKey splitKey)).map p.recordSize).sum ∧
      maxDataSize size ≤ sibling.remainingSize +
        ((p.metas.drop (p.getKvNumBelowKey splitKey)).map p.recordSize).sum := by
  have hinit : (initializeNode p.lowFence splitKey p.nodeSize p.nextLevel p.hasFence
      p.isCacheOnlyLeaf ver).remainingSize = maxDataSize p.nodeSize := by
    rw [h.hasFence]
    rfl
  have hkind : (p.isCacheOnlyLeaf || p.isBasePage) = true := by rw [h.isCacheOnlyLeaf]; rfl
  obtain ⟨left, sibling, hs, hl, hr⟩ : ∃ left sibling, p.splitAtCount size
      (p.getKvNumBelowKey splitKey) splitKey true ver = some (left, sibling) ∧ _ ∧ _ :=
    splitAtCount_of_room h.wf (cutAt_getKvNumBelowKey h.wf splitKey) hkind
      (by rw [hinit]; exact hleft) hright
  refine ⟨left, sibling, ?_, by rw [← hinit]; exact hl, hr⟩
  simp [splitWithKey, splittable, h.isCacheOnlyLeaf, h.hasFence, hs]

/-- A page without holes that refuses a record is split, and then takes it. -/
theorem CachePage.split_for_record {q : LeafNode} (h : CachePage cfg lo hi q) (hcfg : cfg.Bounds)
    (hcache : cfg.cacheOnly = true) (hsize : q.nodeSize = cfg.leafPageSize)
    (hfull : q.remainingSize + q.used = maxDataSize q.nodeSize) (hnew : q.entry key = none)
    (hop : ∀ k e, q.entry k = some e → e.1 = .insert)
    (hsmall : key.length + value.length ≤ cfg.cbMaxRecordSize)
    (hfail : q.insert key value op 0 = some (false, q)) (ver : Nat) :
    q.metas ≠ [] ∧ ∃ splitKey,
      q.getCacheOnlyInsertSplitKey key (u16 (key.length + value.length)) = some splitKey ∧
      (∃ k, (q.entry k ≠ none ∨ k = key) ∧ k < splitKey) ∧
      ∃ left sibling, q.splitWithKey cfg.leafPageSize splitKey true ver = some (left, sibling) ∧
      ∃ left' sibling',
        (splitKey ≤ key ∧ left' = left ∧ sibling.insert key value op 0 = some (true, sibling') ∨
          key < splitKey ∧ sibling' = sibling ∧ left.insert key value op 0 = some (true, left')) ∧
        left'.metas ≠ [] ∧ sibling'.metas ≠ [] ∧
        ∀ k v o, (k, v, o) ∈ left'.slots ∨ (k, v, o) ∈ sibling'.slots ↔
          (k, v, o) = (key, value, op) ∨ q.entry k = some (o, v) := by
  have hmax := hcfg.cacheOnly hcache
  have hleaf := hcfg.leaf_le
  have hdata : maxDataSize cfg.leafPageSize = cfg.leafPageSize - leafHeaderSize := rfl
  have hsum : (q.metas.map q.recordSize).sum = q.used := by rw [h.recordSize_eq]; rfl
  rw [hsize] at hfull
  simp only [leafHeaderSize, maxLeafPageSize] at hmax hleaf hdata
  -- there is less room than the record needs
  have hroom : q.remainingSize < key.length + value.length + kvMetaSize := by
    by_contra hge
    obtain ⟨q', hq', -⟩ := insert_of_room h.wf (h.covers key) (fun _ => hnew)
      (by rw [h.pairCost_eq]; exact not_lt.1 hge : q.pairCost (key, value, op) ≤ q.remainingSize)
    rw [hfail] at hq'
    cases hq'
  have hne : q.metas ≠ [] := by
    intro hnil
    rw [LeafNode.used, hnil] at hfull
    simp only [List.map_nil, List.sum_nil] at hfull
    omega
  refine ⟨hne, ?_⟩
  have hlen : u16 (key.length + value.length) = key.length + value.length := u16_of_lt (by omega)
  rw [hlen]
  have hmeta : kvMetaSize = 8 := rfl
  obtain ⟨A, y, B, heq, hA, hkey, hbal⟩ : ∃ A y B, q.insertItems key
      (key.length + value.length + kvMetaSize) = A ++ y :: B ∧ A ≠ [] ∧
      q.getCacheOnlyInsertSplitKey key (key.length + value.length) = some y.2 ∧ _ :=
    getCacheOnlyInsertSplitKey_balanced hne (by omega)
      (fun m hm => (h.recordSize_le hm).trans (by omega)) (by omega)
  obtain ⟨hleft, hright⟩ := itemsSize_sides h.wf hnew heq
  obtain ⟨hbl, hbr⟩ := hbal (cfg.cbMaxRecordSize + kvMetaSize) fun x hx => by
    obtain ⟨m, hm, rfl⟩ | rfl := mem_insertItems.1 hx
    · exact h.recordSize_le hm
    · exact Nat.add_le_add_right hsmall _
  rw [itemsSize_insertItems, hsum] at hbl hbr
  obtain ⟨left, sibling, hs, hl, hr⟩ := h.splitWithKey_of_room cfg.leafPageSize y.2 ver
    (by rw [hsize]; omega) (by omega)
  rw [hsize] at hl
  obtain ⟨-, hres⟩ := splitWithKey_spec h.wf hs
  obtain ⟨hcl, hcr, -, -⟩ := h.split hres
  obtain ⟨hmem, hbelow⟩ := h.splitKey_mem hcfg hcache hnew hne
    (by rw [hsum, ← hfull]; exact Nat.le_add_left _ _) hsmall hkey
  refine ⟨y.2, hkey, hbelow, left, sibling, hs, ?_⟩
  have hclean : ∀ {o : Option (OpType × Value)}, o = none → cleaned o = none := by
    rintro _ rfl
    rfl
  -- the half that the record belongs to has room for it
  obtain ⟨left', sibling', hins⟩ : ∃ left' sibling',
      y.2 ≤ key ∧ left' = left ∧ sibling.insert key value op 0 = some (true, sibling') ∨
        key < y.2 ∧ sibling' = sibling ∧ left.insert key value op 0 = some (true, left') := by
    by_cases hlt : key < y.2
    · obtain ⟨left', hl', -⟩ := insert_of_room hcl.wf (hcl.covers key)
        (fun _ => by rw [hres.left_entry, if_pos hlt, hclean hnew])
        (by rw [hcl.pairCost_eq]; rw [if_pos hlt] at hleft; dsimp only; omega :
          left.pairCost (key, value, op) ≤ left.remainingSize)
      exact ⟨left', sibling, .inr ⟨hlt, rfl, hl'⟩⟩
    · obtain ⟨sibling', hr', -⟩ := insert_of_room hcr.wf (hcr.covers key)
        (fun _ => by rw [hres.sibling_entry, if_neg hlt, hclean hnew])
        (by rw [hcr.pairCost_eq]; rw [if_neg hlt] at hright; dsimp only; omega :
          sibling.pairCost (key, value, op) ≤ sibling.remainingSize)
      exact ⟨left, sibling', .inl ⟨not_lt.1 hlt, rfl, hr'⟩⟩
  obtain ⟨hne₁, hne₂⟩ := h.halves_ne_nil hop hres hmem hbelow hins
  exact ⟨left', sibling', hins, hne₁, hne₂, h.split_insert_slots hop hnew hres hins⟩

end Page

namespace Tree

variable {cfg : Config} {t : Tree} {pid : Nat} {p : LeafNode} {key : Key} {value : Value} {op : OpType}

/-- The cached pages of a cache-only tree. -/
theorem Reachable.cachePage (h : Reachable cfg t) (hcache : cfg.cacheOnly = true)
    (hp : t.pages[pid]? = some (.mini p)) :
    cfg.Bounds ∧ p.remainingSize + p.used ≤ p.capacity ∧ ∃ lo hi, CachePage cfg lo hi p := by
  obtain ⟨C, s, hok⟩ := h.inv
  obtain ⟨c, hleaf, -⟩ := hok.stored.leaf pid _ hp
  rw [leafOk_cacheOnly hcache] at hleaf
  obtain ⟨-, classes, -, hsized⟩ := h.sized
  have hpage : Sized cfg classes p := hsized.pages _ (List.mem_of_getElem? hp)
  exact ⟨hok.bounds, hpage.space, _, _, hleaf.1⟩

/-- A full page of a cache-only tree that has no room for a record, not even after a
consolidation, is cut in two pages that hold its records and the new one. -/
theorem Reachable.cache_only_split (h : Reachable cfg t) (hcache : cfg.cacheOnly = true)
    (hp : t.pages[pid]? = some (.mini p)) (hsize : p.nodeSize = cfg.leafPageSize)
    (hw : Writable cfg key value op) (ver : Nat) :
    ∃ q, p.consolidateSkipKey key ver = some q ∧
      ∀ q', q.insert key value op 0 = some (false, q') → q' = q ∧ q.metas ≠ [] ∧
        ∃ splitKey, q.getCacheOnlyInsertSplitKey key (u16 (key.length + value.length)) = some splitKey ∧
          (∃ k, (q.entry k ≠ none ∨ k = key) ∧ k < splitKey) ∧
          ∃ left sibling, q.splitWithKey cfg.leafPageSize splitKey true ver = some (left, sibling) ∧
          ∃ left' sibling',
            (splitKey ≤ key ∧ left' = left ∧ sibling.insert key value op 0 = some (true, sibling') ∨
              key < splitKey ∧ sibling' = sibling ∧
                left.insert key value op 0 = some (true, left')) ∧
            left'.metas ≠ [] ∧ sibling'.metas ≠ [] ∧
            ∀ k v o, (k, v, o) ∈ left'.slots ∨ (k, v, o) ∈ sibling'.slots ↔
              (k, v, o) = (key, value, op) ∨ k ≠ key ∧ (k, v, o) ∈ p.liveSlots := by
  obtain ⟨hbounds, hspace, lo, hi, hpage⟩ := h.cachePage hcache hp
  obtain ⟨q, hq, hcq, hnode, hfull, hop, hentry⟩ := hpage.consolidateSkipKey hspace key ver
  refine ⟨q, hq, fun q' hfail => ?_⟩
  obtain rfl := insert_refused hfail
  have hnew : q'.entry key = none := by rw [hentry, if_pos rfl]
  obtain ⟨hne, splitKey, hkey, hbelow, left, sibling, hs, left', sibling', hins, hl, hr, hslots⟩ :=
    hcq.split_for_record hbounds hcache (hnode.trans hsize) hfull hnew hop hw.small hfail ver
  refine ⟨rfl, hne, splitKey, hkey, hbelow, left, sibling, hs, left', sibling', hins, hl, hr,
    fun k v o => (hslots k v o).trans (or_congr Iff.rfl ?_)⟩
  rw [hentry, mem_liveSlots hpage.wf]
  by_cases hk : k = key
  · simp [hk]
  · rw [if_neg hk, cleaned_eq_some_iff fun x hx => hpage.dirty k x hx]
    simp [hk]

/-- Not even a consolidation makes room for the record. -/
def staysFull (key : Key) (value : Value) (pid : Nat) (t : Tree) : Bool :=
  match t.pages[pid]? with
  | some (.mini p) => p.nodeSize = t.config.leafPageSize &&
      (p.consolidateSkipKey key 0).any fun q => (q.insert key value .insert 0).any fun r => !r.1
  | _ => false

theorem staysFull_eq_true (h : t.staysFull key value pid = true) :
    ∃ p q q', t.pages[pid]? = some (.mini p) ∧ p.nodeSize = t.config.leafPageSize ∧
      p.consolidateSkipKey key 0 = some q ∧ q.insert key value .insert 0 = some (false, q') := by
  unfold staysFull at h
  split at h
  · next p hp =>
    simp only [Bool.and_eq_true, decide_eq_true_eq, Option.any_eq_true] at h
    obtain ⟨hsize, q, hq, ⟨b, q'⟩, hins, hb⟩ := h
    obtain rfl : b = false := by simpa using hb
    exact ⟨p, q, q', hp, hsize, hq, hins⟩
  · cases h

/-- Three records of 1300 bytes fill a page of 4096 bytes. -/
theorem Reachable.cache_only_split_full_leaf : ∃ t p q splitKey left sibling left' sibling',
    Reachable { Config.default with cacheOnly := true } t ∧ t.pages[1]? = some (.mini p) ∧
    p.consolidateSkipKey [3, 3] 0 = some q ∧
    q.insert [3, 3] (List.replicate 1900 0) .insert 0 = some (false, q) ∧
    q.splitWithKey 4096 splitKey true 0 = some (left, sibling) ∧
    (splitKey ≤ [3, 3] ∧ left' = left ∧
        sibling.insert [3, 3] (List.replicate 1900 0) .insert 0 = some (true, sibling') ∨
      [3, 3] < splitKey ∧ sibling' = sibling ∧
        left.insert [3, 3] (List.replicate 1900 0) .insert 0 = some (true, left')) ∧
    left'.metas ≠ [] ∧ sibling'.metas ≠ [] := by
  have hfull : fromNew { Config.default with cacheOnly := true } 0 fullLeafAttempts
      (fun _ t => (t.staysFull [3, 3] (List.replicate 1900 0) 1, t.config.leafPageSize)) =
        some (true, 4096) := by
    decide +kernel
  obtain ⟨t₀, t, done, hnew, hrun, hres⟩ := fromNew_eq_some hfull
  have hreach := Reachable.attempts _ (.new hnew) (by decide +kernel) hrun
  obtain ⟨hstay, hleaf⟩ := Prod.mk.inj hres
  obtain ⟨p, q, q', hp, hsize, hq, hfail⟩ := staysFull_eq_true hstay
  have hw : Writable { Config.default with cacheOnly := true } [3, 3] (List.replicate 1900 0)
      .insert := writable_insert (by decide +kernel)
  obtain ⟨q₁, hq₁, hsplit⟩ := hreach.cache_only_split rfl hp (hsize.trans hleaf) hw 0
  obtain rfl : q = q₁ := Option.some.inj (hq.symm.trans hq₁)
  obtain ⟨rfl, -, splitKey, -, -, left, sibling, hs, left', sibling', hins, hl, hr, -⟩ :=
    hsplit q' hfail
  exact ⟨t, p, q', splitKey, left, sibling, left', sibling', hreach, hp, hq, hfail, hs, hins, hl, hr⟩

end Tree

end BfTree
