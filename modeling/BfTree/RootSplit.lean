import BfTree.Nodes.Reads
import BfTree.TreePages

/-!
# BfTree.RootSplit — splitting the root leaf

The root leaf is cut at the first record with which half of the stored bytes is reached.
That record may be large and goes to the right, where its key is also stored as a fence.
The bound on the record size leaves room for both.
-/

namespace BfTree

open Lib LeafNode

namespace LeafNode

/-- The by-size search stops at the first record that reaches the target. -/
theorem getSplitKeyFrom_first (p : LeafNode) (target : Nat) :
    ∀ (ms : List LeafKVMeta) (i cur : Nat), ms ≠ [] → cur + (ms.map p.recordSize).sum < 65536 →
      target ≤ cur + (ms.map p.recordSize).sum → (i = 0 ∨ cur < target) →
      ∃ A m B, ms = A ++ m :: B ∧
        p.getSplitKeyFrom false target i cur ms = some (p.getFullKey m, i + A.length) ∧
        target ≤ cur + (A.map p.recordSize).sum + p.recordSize m ∧
        (i + A.length = 0 ∨ cur + (A.map p.recordSize).sum < target) := by
  intro ms
  induction ms with
  | nil => exact fun _ _ h => absurd rfl h
  | cons m ms ih =>
    intro i cur _ hlt htarget hcur
    simp only [List.map_cons, List.sum_cons] at hlt htarget
    have hu16 : u16 (cur + p.recordSize m) = cur + p.recordSize m := u16_of_lt (by omega)
    simp only [getSplitKeyFrom, Bool.false_and, Bool.false_eq_true, if_false, hu16]
    by_cases hstop : target ≤ cur + p.recordSize m
    · refine ⟨[], m, ms, rfl, by rw [if_pos hstop]; rfl, by simpa using hstop, ?_⟩
      simpa using hcur
    · have hne : ms ≠ [] := by
        rintro rfl
        simp only [List.map_nil, List.sum_nil] at htarget
        omega
      obtain ⟨A, x, B, rfl, hget, hreach, hbelow⟩ :=
        ih (i + 1) (cur + p.recordSize m) hne (by omega) (by omega) (.inr (not_le.1 hstop))
      refine ⟨m :: A, x, B, rfl, ?_, ?_, ?_⟩
      · rw [if_neg hstop, hget, List.length_cons]
        congr 2
        omega
      · simp only [List.map_cons, List.sum_cons]
        omega
      · simp only [List.map_cons, List.sum_cons, List.length_cons]
        omega

/-- Less than half of the bytes stay left of the split key, unless it is the first key. -/
theorem getSplitKey_half {p : LeafNode} (hne : p.metas ≠ [])
    (hlt : (p.metas.map p.recordSize).sum < 65536) :
    ∃ A m B, p.metas = A ++ m :: B ∧ p.getSplitKey false = some (p.getFullKey m, A.length) ∧
      (p.metas.map p.recordSize).sum / 2 ≤ (A.map p.recordSize).sum + p.recordSize m ∧
      (A = [] ∨ (A.map p.recordSize).sum < (p.metas.map p.recordSize).sum / 2) := by
  obtain ⟨A, m, B, hms, hget, hreach, hbelow⟩ := getSplitKeyFrom_first p
    ((p.metas.map p.recordSize).sum / 2) p.metas 0 0 hne (by omega) (by omega) (.inl rfl)
  refine ⟨A, m, B, hms, ?_, by omega, ?_⟩
  · rw [getSplitKey, u16_of_lt hlt, hget, Nat.zero_add]
  · rw [Nat.zero_add, Nat.zero_add, List.length_eq_zero_iff] at hbelow
    exact hbelow

theorem getSplitKeyFrom_congr {p q : LeafNode} (hk : q.getFullKey = p.getFullKey)
    (hr : q.recordSize = p.recordSize) (c : Bool) (target : Nat) (ms : List LeafKVMeta) :
    ∀ i cur, q.getSplitKeyFrom c target i cur ms = p.getSplitKeyFrom c target i cur ms := by
  induction ms with
  | nil => exact fun _ _ => rfl
  | cons m ms ih =>
    intro i cur
    simp only [getSplitKeyFrom, hk, hr, ih]

/-- Both halves get a new version, whatever that of the page was. -/
theorem split_version (p : LeafNode) (ver : Nat) (changed : Bool) (size : Nat) (c : Bool) (v : Nat) :
    ({ p with snapshotVersion := ver, versionChanged := changed } : LeafNode).split size c v =
      p.split size c v := by
  have hkey : ({ p with snapshotVersion := ver, versionChanged := changed } : LeafNode).getSplitKey c =
      p.getSplitKey c := by
    refine getSplitKeyFrom_congr (p := p) ?_ ?_ c _ p.metas 0 0
    · rfl
    · rfl
  rw [split, hkey]
  rfl

end LeafNode

section Page

variable {cfg : Config} {classes : List Nat} {p : LeafNode}

/-- A validated configuration on disk has room for two records, the fences and their slots. -/
theorem Config.two_records_le (h : cfg.validate = some (.ok ())) (hdisk : cfg.cacheOnly = false) :
    2 * (cfg.cbMaxRecordSize + kvMetaSize) + cfg.maxFenceLen + 2 * kvMetaSize + leafHeaderSize ≤
      cfg.leafPageSize := by
  obtain ⟨maxMini, -, -, hle, hmini⟩ := Config.validate_maxMini h
  have := hmini hdisk
  rw [Config.reserved, hdisk, if_neg (by decide)] at hle
  omega

/-- A page over all keys has no prefix. -/
theorem BasePage.prefixLen_root (h : BasePage [] [] p) : p.prefixLen = 0 := by
  rw [h.wf.prefixLen_eq, h.lowFence, commonPrefixLen_nil_left]

theorem BasePage.capacity_root (h : BasePage [] [] p) :
    p.capacity = maxDataSize p.nodeSize - 2 * kvMetaSize := by
  rw [capacity, h.hasFence, if_pos rfl, h.lowFence, h.highFence, List.length_nil]
  omega

theorem BasePage.recordSize_root (h : BasePage [] [] p) : p.recordSize = storedSize := by
  funext m
  rw [recordSize, getKeyLen, h.prefixLen_root, storedSize]
  omega

/-- An empty root page takes every record that the tree accepts. -/
theorem BasePage.insert_empty_root (h : BasePage [] [] p) (hs : Sized cfg classes p)
    (hvalid : cfg.validate = some (.ok ())) (hdisk : cfg.cacheOnly = false) (hnil : p.metas = [])
    {key : Key} {value : Value} (op : OpType)
    (hsmall : key.length + value.length ≤ cfg.cbMaxRecordSize) :
    ∃ p', p.insert key value op cfg.maxFenceLen = some (true, p') := by
  have hroom := Config.two_records_le hvalid hdisk
  have hfree := hs.empty hnil
  rw [h.capacity_root, hs.fence h.hasFence, maxDataSize] at hfree
  have hcov : p.Covers key := by
    rw [Covers, h.lowFence, h.highFence]
    exact inRange_nil_nil key
  obtain ⟨A, m, B, hsplit, -⟩ | ⟨A, B, -, -, hins⟩ := insert_cases h.wf hcov value op cfg.maxFenceLen
  · rw [hnil] at hsplit
    exact absurd hsplit.eq (by simp)
  · rw [hins, insertNew, h.prefixLen_root, List.drop_zero]
    have hfull : p.fullWithFences (key.length + value.length + kvMetaSize) cfg.maxFenceLen = false := by
      rw [fullWithFences, if_neg (by omega), h.hasFence, if_pos rfl, h.lowFence, h.highFence]
      simp only [List.length_nil, Bool.not_eq_false', decide_eq_true_eq]
      omega
    rw [hfull]
    split <;> exact ⟨_, rfl⟩

/-- A root page with records is split; its key takes a slot in the new root. -/
theorem BasePage.split_root (h : BasePage [] [] p) (hs : Sized cfg classes p)
    (hvalid : cfg.validate = some (.ok ())) (hdisk : cfg.cacheOnly = false) (hne : p.metas ≠ [])
    (ver : Nat) :
    ∃ m ∈ p.metas, ∃ left sibling,
      p.split cfg.leafPageSize false ver = some (p.getFullKey m, left, sibling) := by
  have hroom := Config.two_records_le hvalid hdisk
  have hleaf := (Config.validate_ok hvalid).leaf_le
  have hnode := hs.fence h.hasFence
  have hspace := hs.space
  rw [h.capacity_root, hnode, maxDataSize, LeafNode.used, ← h.recordSize_root] at hspace
  rw [maxLeafPageSize] at hleaf
  obtain ⟨A, m, B, hms, hget, hreach, hbelow⟩ := getSplitKey_half hne (by omega)
  have hm : m ∈ p.metas := by rw [hms]; simp
  have hsmall := hs.small m hm
  have hrec : p.recordSize m ≤ cfg.cbMaxRecordSize + kvMetaSize :=
    Nat.add_le_add_right hsmall.record _
  have hkey := (p.length_getFullKey_le m).trans hsmall.fence
  have hown : (p.getFullKey m).length ≤ p.recordSize m := by
    have := p.length_getFullKey_le m
    rw [recordSize]
    omega
  have hsum : (p.metas.map p.recordSize).sum =
      (A.map p.recordSize).sum + ((m :: B).map p.recordSize).sum := by
    rw [hms, List.map_append, List.sum_append]
  have htail : ((m :: B).map p.recordSize).sum = p.recordSize m + (B.map p.recordSize).sum := by
    rw [List.map_cons, List.sum_cons]
  have htake : p.metas.take A.length = A := by rw [hms, List.take_left]
  have hdrop : p.metas.drop A.length = m :: B := by rw [hms, List.drop_left]
  obtain ⟨hcut, -, -⟩ := cutAt_getSplitKey h.wf hget
  -- either half has one finite fence
  have hleft : (initializeNode p.lowFence (p.getFullKey m) p.nodeSize p.nextLevel p.hasFence
      p.isCacheOnlyLeaf ver).remainingSize =
      cfg.leafPageSize - leafHeaderSize - 2 * kvMetaSize - (p.getFullKey m).length := by
    rw [h.hasFence, h.lowFence, hnode, initializeNode, if_pos rfl]
    simp only [maxDataSize, List.length_nil, commonPrefixLen_nil_left]
    omega
  have hright : (initializeNode (p.getFullKey m) p.highFence cfg.leafPageSize none true false
      ver).remainingSize =
      cfg.leafPageSize - leafHeaderSize - 2 * kvMetaSize - (p.getFullKey m).length := by
    rw [h.highFence, initializeNode, if_pos rfl]
    simp only [maxDataSize, List.length_nil, commonPrefixLen_nil_right]
    omega
  obtain ⟨left, sibling, hsplit, -⟩ : ∃ left sibling, p.splitAtCount cfg.leafPageSize A.length
      (p.getFullKey m) false ver = some (left, sibling) ∧ _ := by
    refine splitAtCount_of_room h.wf hcut (by rw [h.isBasePage, Bool.or_true]) ?_ ?_
    · rw [hleft, htake]
      omega
    · refine le_of_le_of_eq ?_ hright.symm
      rw [hdrop]
      -- nothing is left of the first key, and then half of the page is one record
      obtain rfl | hbelow := hbelow
      · simp only [List.map_nil, List.sum_nil] at hsum hreach
        omega
      · omega
  refine ⟨m, hm, left, sibling, ?_⟩
  simp [LeafNode.split, splittable, h.isBasePage, h.hasFence, hget, hsplit]

end Page

namespace LeafEntry

variable {t l : LeafEntry} {offset : Nat} {p : LeafNode} {g : SnapshotGuard}

theorem loadBasePageMut_of_base (h : t.loc = .base offset) (hb : t.tmpBuffer = none)
    (hp : t.vfs offset = some p) :
    loadBasePageMut t = some (.ok p, { t with tmpBuffer := some ⟨true, p⟩ }) := by
  have hoff : t.offset = some offset := by rw [LeafEntry.offset, h]; rfl
  unfold loadBasePageMut
  rw [bind_of_ok (get_apply t), hb]
  dsimp only
  rw [hoff, bind_of_ok (rfl : Prog.unwrap (some offset) t = _), hp]
  rfl

/-- The version rule leaves the base page but for its version. -/
theorem versionRuleBase_of_base (h : t.loc = .base offset) (hb : t.tmpBuffer = none)
    (hp : t.vfs offset = some p) (hr : versionRuleBase g t = some (.ok (), l)) :
    ∃ cs ver changed, loadBasePageMut l =
      some (.ok { p with snapshotVersion := ver, versionChanged := changed },
        { t with
          tmpBuffer := some ⟨true, { p with snapshotVersion := ver, versionChanged := changed }⟩
          captures := cs }) := by
  have hload := loadBasePageMut_of_base h hb hp
  have hrule : wp (versionRuleBase g) (fun _ l => l = t ∨ ∃ cs ver changed, l = { t with
      tmpBuffer := some ⟨true, { p with snapshotVersion := ver, versionChanged := changed }⟩
      captures := cs }) (fun _ _ => True) t := by
    unfold versionRuleBase
    refine wp_ite (fun _ => ?_) fun _ => (wp_pure ()).2 (.inl rfl)
    rw [wp_bind]
    refine wp_of_ok hload ?_
    simp only [wp_bind, wp_get]
    refine wp_versionRule (.inr ⟨_, _, _, rfl⟩) trivial ?_ fun slot => ?_
    · rw [wp_writeBase]
      exact .inr ⟨_, _, _, rfl⟩
    · simp only [wp_bind, wp_record, wp_writeBase]
      exact wp_ite (fun _ => wp_recordRoot (.inr ⟨_, _, _, rfl⟩))
        fun _ => (wp_pure ()).2 (.inr ⟨_, _, _, rfl⟩)
  obtain rfl | ⟨cs, ver, changed, rfl⟩ := hrule.1 () l hr
  · exact ⟨_, _, _, hload⟩
  · exact ⟨cs, ver, changed, rfl⟩

/-- The root leaf with its halves, before the buffer is written. -/
theorem splitRootLeaf_of_split {cfg : Config} (env : AttemptEnv) {key : Key} {left sibling : LeafNode}
    (hdisk : cfg.cacheOnly = false) (h : t.loc = .base offset) (hb : t.tmpBuffer = none)
    (hp : t.vfs offset = some p) (hr : versionRuleBase g t = some (.ok (), l))
    (hs : p.split cfg.leafPageSize false g.version = some (key, left, sibling)) :
    ∃ cs, splitRootLeaf cfg env g t = some (.ok key, { t with
      tmpBuffer := some ⟨true, left⟩
      vfs := Function.update t.vfs t.nextOffset (some sibling)
      sibling := some (.base t.nextOffset)
      captures := cs }) := by
  obtain ⟨cs, ver, changed, hload⟩ := versionRuleBase_of_base h hb hp hr
  refine ⟨cs, ?_⟩
  unfold splitRootLeaf
  rw [bind_of_ok (get_apply t), hdisk]
  simp only [Bool.false_eq_true, if_false]
  rw [bind_of_ok hr, bind_of_ok hload, split_version, hs]
  rfl

end LeafEntry

namespace Tree

variable {cfg : Config} {t t' : Tree} {pid offset : Nat} {p left sibling : LeafNode} {key splitKey : Key}

/-- The root leaf is halved and has the first inner node above it. -/
structure RootRaised (t : Tree) (pid offset : Nat) (splitKey : Key) (left sibling : LeafNode)
    (t' : Tree) : Prop where
  root : t'.root = .inner t.inners.length
  node : ∃ n, t'.inners[t.inners.length]? = some n ∧ n.records = [(splitKey, .id t.pages.length)] ∧
    n.leftMost = .id pid ∧ n.childrenIsLeaf = true
  left : t'.pages[pid]? = some (.base offset) ∧ t'.vfs offset = some left
  sibling : t'.pages[t.pages.length]? = some (.base t.nextOffset) ∧
    t'.vfs t.nextOffset = some sibling

theorem getInner_of_some {ptr : Nat} {n : InnerNode} (hn : t.inners[ptr]? = some n) :
    getInner ptr t = some (.ok n, t) := by
  unfold getInner
  rw [bind_of_ok (get_apply t), hn]
  rfl

theorem traverseFrom_leaf (env : AttemptEnv) (key : Key) (fuel pid : Nat) (parent : Option Nat)
    (highFence : Key) (t : Tree) :
    traverseFrom env key false (fuel + 1) (.id pid) true parent highFence t =
      some (.ok ⟨pid, parent, highFence⟩, t) := by
  unfold traverseFrom
  rfl

theorem traverseFrom_inner (env : AttemptEnv) (fuel : Nat) {ptr : Nat} (parent : Option Nat)
    (highFence : Key) {n : InnerNode} {next : PageID} (hn : t.inners[ptr]? = some n)
    (hnext : n.getValue (n.lowerBound key) = some next) :
    traverseFrom env key false (fuel + 1) (.inner ptr) false parent highFence t =
      traverseFrom env key false fuel next n.childrenIsLeaf (some ptr)
        (((n.records[n.lowerBound key]?).map Prod.fst).getD highFence) t := by
  conv_lhs => unfold traverseFrom
  rw [bind_of_ok (rfl : splitMarked env false (.inner ptr) false parent t = some (.ok (), t))]
  dsimp only
  rw [bind_of_ok (getInner_of_some hn), hnext, 
    bind_of_ok (rfl : Prog.unwrap (some next) t = _)]
  cases n.records[n.lowerBound key]? <;> rfl

/-- Keys below the separator go to the old leaf, the others to the new one. -/
theorem RootRaised.traverseToLeaf (h : RootRaised t pid offset splitKey left sibling t') (key : Key)
    {env : AttemptEnv} (hdescent : env.descent = true) :
    traverseToLeaf env key false t' = some (.ok (if key < splitKey then
      ⟨pid, some t.inners.length, splitKey⟩ else ⟨t.pages.length, some t.inners.length, []⟩), t') := by
  obtain ⟨n, hn, hrecords, hleft, hchildren⟩ := h.node
  have hsorted : KeySorted Prod.fst n.records := by
    rw [hrecords]
    exact List.pairwise_singleton _ _
  obtain ⟨A, B, heq, hlb, hA, hB⟩ := InnerNode.lowerBound_spec hsorted key
  have hlen : t.inners.length < t'.inners.length := (List.getElem?_eq_some_iff.1 hn).1
  obtain ⟨fuel, hfuel⟩ : ∃ fuel, t'.inners.length + 1 = fuel + 2 := ⟨t'.inners.length - 1, by omega⟩
  unfold Tree.traverseToLeaf
  rw [hdescent, bind_of_ok (rfl : attempt (checkLock true) t' = _),
    bind_of_ok (get_apply t'), hfuel, h.root]
  rw [hrecords] at heq
  by_cases hlt : key < splitKey
  · obtain rfl : A = [] := by
      refine List.eq_nil_iff_forall_not_mem.2 fun r hr => ?_
      have hmem : r ∈ [(splitKey, PageID.id t.pages.length)] := heq ▸ List.mem_append_left B hr
      rw [List.mem_singleton.1 hmem] at hr
      exact absurd (hA _ hr) (not_le.2 hlt)
    have hnext : n.getValue (n.lowerBound key) = some (.id pid) := by
      rw [hlb, List.length_nil, InnerNode.getValue, hleft]
    rw [PageID.isLeaf, traverseFrom_inner env (fuel + 1) none [] hn hnext, hchildren,
      traverseFrom_leaf, hlb, hrecords, if_pos hlt]
    rfl
  · obtain rfl : B = [] := by
      refine List.eq_nil_iff_forall_not_mem.2 fun r hr => ?_
      have hmem : r ∈ [(splitKey, PageID.id t.pages.length)] := heq ▸ List.mem_append_right A hr
      rw [List.mem_singleton.1 hmem] at hr
      exact hlt (hB _ hr)
    rw [List.append_nil] at heq
    have hnext : n.getValue (n.lowerBound key) = some (.id t.pages.length) := by
      rw [hlb, ← heq, List.length_singleton, InnerNode.getValue, hrecords]
      rfl
    rw [PageID.isLeaf, traverseFrom_inner env (fuel + 1) none [] hn hnext, hchildren,
      traverseFrom_leaf, hlb, hrecords, ← heq, if_neg hlt]
    rfl

theorem withLeaf_of_ok {α : Type} {m : LeafEntry.M α} {r : Except TreeError α} {loc : PageLocation}
    {l l' : LeafEntry} (hloc : t.pages[pid]? = some loc)
    (hm : m (t.lockLeaf pid loc none) = some (r, l)) (hf : l.flush = some l') :
    withLeaf pid none m t = some (r, t.unlockLeaf l') := by
  simp [withLeaf, hloc, parentOf, hm, hf]

/-- Looking at the split flag changes nothing. -/
theorem withLeaf_getSplitFlag_of_base (hloc : t.pages[pid]? = some (.base offset))
    (hp : t.vfs offset = some p) :
    withLeaf pid none LeafEntry.getSplitFlag t = some (.ok p.splitFlag, t) := by
  have hrun : LeafEntry.getSplitFlag (t.lockLeaf pid (.base offset) none) = some (.ok p.splitFlag,
      { t.lockLeaf pid (.base offset) none with tmpBuffer := some ⟨false, p⟩ }) := by
    have hload : LeafEntry.loadBasePage offset (t.lockLeaf pid (.base offset) none) = some (.ok p,
        { t.lockLeaf pid (.base offset) none with tmpBuffer := some ⟨false, p⟩ }) := by
      unfold LeafEntry.loadBasePage
      rw [bind_of_ok (get_apply _)]
      dsimp only [lockLeaf]
      rw [hp]
      rfl
    unfold LeafEntry.getSplitFlag
    rw [bind_of_ok (get_apply _)]
    exact bind_of_ok hload
  obtain ⟨hlt, hget⟩ := List.getElem?_eq_some_iff.1 hloc
  have hset : t.pages.set pid (.base offset) = t.pages := by rw [← hget, List.set_getElem_self]
  rw [withLeaf_of_ok hloc hrun rfl]
  simp [unlockLeaf, lockLeaf, setParent, hset]

/-- The new root has room for one separator. -/
theorem build_single (leftMost child : PageID) (isLeaf : Bool) (ver : Nat)
    (hkey : splitKey.length ≤ maxKeyLen) :
    ∃ n, InnerNode.build leftMost isLeaf [(splitKey, child)] ver = some n ∧
      n.records = [(splitKey, child)] ∧ n.leftMost = leftMost ∧ n.childrenIsLeaf = isLeaf := by
  have hroom : ¬ ( InnerNode.reinitialize leftMost isLeaf false ver).remainingSize <
      InnerNode.recordSize splitKey := by
    simp only [ InnerNode.reinitialize, InnerNode.recordSize, InnerNode.maxDataSize, innerNodeSize,
      innerHeaderSize, pageIdSize, innerKvMetaSize, keyLookAheadSize]
    rw [maxKeyLen] at hkey
    omega
  obtain ⟨n, hn⟩ : ∃ n, InnerNode.build leftMost isLeaf [(splitKey, child)] ver = some n := by
    simp only [InnerNode.build, List.foldlM_cons, List.foldlM_nil, InnerNode.insert, if_neg hroom]
    split <;> exact ⟨_, rfl⟩
  obtain ⟨-, hrecords, hleft, hchildren, -⟩ :=
    InnerNode.build_spec (List.pairwise_singleton _ _) hn
  exact ⟨n, hn, hrecords, hleft, hchildren⟩

/-- The root leaf is split if its page is. -/
theorem splitLeaf_of_split (env : AttemptEnv) {g : SnapshotGuard} {l : LeafEntry}
    (hdisk : t.config.cacheOnly = false) (hloc : t.pages[pid]? = some (.base offset))
    (hp : t.vfs offset = some p) (hoff : offset ≠ t.nextOffset)
    (hrule : LeafEntry.versionRuleBase g (t.lockLeaf pid (.base offset) none) = some (.ok (), l))
    (hs : p.split t.config.leafPageSize false g.version = some (splitKey, left, sibling))
    (hkey : splitKey.length ≤ maxKeyLen) :
    ∃ t', splitLeaf env g pid t = some (.ok (), t') ∧
      RootRaised t pid offset splitKey left sibling t' := by
  obtain ⟨cs, hsplit⟩ := LeafEntry.splitRootLeaf_of_split env hdisk rfl rfl hp hrule hs
  obtain ⟨n, hbuild, hrecords, hleft, hchildren⟩ :=
    build_single (.id pid) (.id t.pages.length) true g.version hkey
  have hlt : pid < t.pages.length := (List.getElem?_eq_some_iff.1 hloc).1
  refine ⟨{ t with
    root := .inner t.inners.length
    inners := t.inners ++ [{ n with isRoot := true }]
    pages := t.pages.set pid (.base offset) ++ [.base t.nextOffset]
    vfs := Function.update (Function.update t.vfs t.nextOffset (some sibling)) offset (some left)
    nextOffset := t.nextOffset + t.config.leafPageSize
    captures := cs }, ?_, ?_⟩
  · unfold splitLeaf
    rw [bind_of_ok (get_apply t), bind_of_ok (withLeaf_of_ok hloc hsplit rfl), hbuild,
      bind_of_ok (rfl : Prog.unwrap (some n) _ = _)]
    rfl
  · refine ⟨rfl, ⟨{ n with isRoot := true }, ?_, hrecords, hleft, hchildren⟩, ⟨?_, ?_⟩, ?_, ?_⟩
    · exact List.getElem?_concat_length
    · rw [List.getElem?_append_left (by rwa [List.length_set]), List.getElem?_set_self hlt]
    · exact Function.update_self ..
    · rw [List.getElem?_append_right (by rw [List.length_set]), List.length_set, Nat.sub_self]
      rfl
    · dsimp only
      rw [Function.update_of_ne hoff.symm, Function.update_self]

/-- A marked root leaf is split if its page is. -/
theorem trySplitLeaf_of_split {env : AttemptEnv} {g : SnapshotGuard} {l : LeafEntry}
    (hdisk : t.config.cacheOnly = false) (hloc : t.pages[pid]? = some (.base offset))
    (hp : t.vfs offset = some p) (hoff : offset ≠ t.nextOffset) (hflag : p.splitFlag = true)
    (hguard : env.splitGuard = some g)
    (hrule : LeafEntry.versionRuleBase g (t.lockLeaf pid (.base offset) none) = some (.ok (), l))
    (hs : p.split t.config.leafPageSize false g.version = some (splitKey, left, sibling))
    (hkey : splitKey.length ≤ maxKeyLen) :
    ∃ t', trySplitLeaf env pid none t = some (.ok true, t') ∧
      RootRaised t pid offset splitKey left sibling t' := by
  obtain ⟨t', hsplit, hraised⟩ := splitLeaf_of_split env hdisk hloc hp hoff hrule hs hkey
  refine ⟨t', ?_, hraised⟩
  unfold trySplitLeaf
  rw [bind_of_ok (withLeaf_getSplitFlag_of_base hloc hp), hflag]
  simp only [Bool.not_true, Bool.false_eq_true, if_false]
  rw [hguard, bind_of_ok (rfl : takeGuard (some g) t = _), Option.isNone_none,
    bind_of_ok (rfl : Prog.assert true t = _), bind_of_ok hsplit]
  rfl

/-- A marked root leaf that has refused a record is split, unless a snapshot comes between:
the halves hold its live records, both fit, and the record is then looked for in the half
with its fences. -/
theorem Reachable.root_leaf_split (h : Reachable cfg t) (hdisk : cfg.cacheOnly = false)
    (hroot : t.root = .id pid) :
    ∃ offset p, t.pages[pid]? = some (.base offset) ∧ t.vfs offset = some p ∧
      ∀ {key : Key} {value : Value} {op : OpType} {p' : LeafNode} {env : AttemptEnv}
        {g : SnapshotGuard} {l : LeafEntry}, Writable cfg key value op →
        p.insert key value op cfg.maxFenceLen = some (false, p') → p.splitFlag = true →
        env.splitGuard = some g →
        LeafEntry.versionRuleBase g (t.lockLeaf pid (.base offset) none) = some (.ok (), l) →
        ∃ splitKey left sibling t',
          p.split cfg.leafPageSize false g.version = some (splitKey, left, sibling) ∧
          (∃ m ∈ p.metas, p.getFullKey m = splitKey) ∧
          left.slots = p.liveSlots.filter (fun r => r.1 < splitKey) ∧
          sibling.slots = p.liveSlots.filter (fun r => splitKey ≤ r.1) ∧
          left.remainingSize + left.used ≤ left.capacity ∧
          sibling.remainingSize + sibling.used ≤ sibling.capacity ∧
          trySplitLeaf env pid none t = some (.ok true, t') ∧
          ∀ env' : AttemptEnv, env'.descent = true → ∃ landing o page,
            traverseToLeaf env' key false t' = some (.ok landing, t') ∧
            landing.pid = (if key < splitKey then pid else t.pages.length) ∧
            t'.pages[landing.pid]? = some (.base o) ∧ t'.vfs o = some page ∧
            page = (if key < splitKey then left else sibling) ∧
            page.lowFence = (if key < splitKey then [] else splitKey) ∧
            page.highFence = (if key < splitKey then splitKey else []) ∧
            landing.highFence = page.highFence ∧ page.Covers key := by
  obtain ⟨C, s, hok⟩ := h.inv
  obtain ⟨hvalid, classes, hclasses, hsized⟩ := h.sized
  obtain ⟨offset, hloc⟩ := hok.rootBase hdisk pid hroot
  obtain ⟨c, hleaf, -⟩ := hok.stored.leaf pid _ hloc
  rw [leafOk_disk hdisk] at hleaf
  have hshaped := hok.shaped
  rw [hroot] at hshaped
  have hrange : s.range (.id pid) = ([], []) := hshaped.root_range
  rw [hrange] at hleaf
  obtain ⟨o, p, hp, hbase, hcaches, -⟩ := hleaf
  obtain rfl : offset = o := hcaches
  refine ⟨offset, p, hloc, hp, ?_⟩
  intro key value op p' env g l hw hfail hflag hguard hrule
  have hpage : Sized cfg classes p := hsized.vfs offset p hp
  have hne : p.metas ≠ [] := by
    intro hnil
    obtain ⟨q, hq⟩ := hbase.insert_empty_root hpage hvalid hdisk hnil op hw.small
    rw [hfail] at hq
    cases hq
  obtain ⟨m, hm, left, sibling, hsplit⟩ := hbase.split_root hpage hvalid hdisk hne g.version
  have hkey : (p.getFullKey m).length ≤ maxKeyLen :=
    (p.length_getFullKey_le m).trans (hpage.small m hm).key
  have hleafSize : cfg.leafPageSize ∈ classes := hpage.fence hbase.hasFence ▸ hpage.mem
  obtain ⟨hl, hr⟩ := (sized_invariant hleafSize).split hpage hsplit
  obtain ⟨-, hres, -⟩ := split_spec hbase.wf hsplit
  obtain ⟨hslots₁, hslots₂⟩ := hres.slots hbase.wf hbase.dirty
  obtain ⟨hlow₁, hhigh₁, hlow₂, hhigh₂⟩ := hres.fences hbase.hasFence
  rw [hbase.lowFence] at hlow₁
  rw [hbase.highFence] at hhigh₂
  obtain ⟨t', htry, hraised⟩ := trySplitLeaf_of_split (hok.config ▸ hdisk) hloc hp
    (hok.stored.offset_lt pid _ offset hloc rfl).ne hflag hguard hrule (hok.config ▸ hsplit) hkey
  refine ⟨p.getFullKey m, left, sibling, t', hsplit, ⟨m, hm, rfl⟩, hslots₁, hslots₂, hl.space, hr.space,
    htry, fun env' hdescent => ?_⟩
  have hland := hraised.traverseToLeaf key hdescent
  by_cases hlt : key < p.getFullKey m
  · rw [if_pos hlt] at hland
    refine ⟨_, offset, left, hland, ?_⟩
    simp only [if_pos hlt]
    refine ⟨trivial, hraised.left.1, hraised.left.2, trivial, hlow₁, hhigh₁, hhigh₁.symm, ?_⟩
    rw [Covers, hlow₁, hhigh₁]
    exact ⟨nil_le _, .inr hlt⟩
  · rw [if_neg hlt] at hland
    refine ⟨_, t.nextOffset, sibling, hland, ?_⟩
    simp only [if_neg hlt]
    refine ⟨trivial, hraised.sibling.1, hraised.sibling.2, trivial, hlow₂, hhigh₂, hhigh₂.symm, ?_⟩
    rw [Covers, hlow₂, hhigh₂]
    exact ⟨not_lt.1 hlt, .inl rfl⟩

/-- Whether the root leaf is marked and refuses the record. -/
def rootRefuses (key : Key) (value : Value) (t : Tree) : Bool :=
  t.root = .id 0 && (t.vfs 0).any fun p => p.splitFlag &&
    (p.insert key value .insert t.config.maxFenceLen).any fun r => !r.1

theorem rootRefuses_eq_true {value : Value} (h : t.rootRefuses key value = true) :
    t.root = .id 0 ∧ ∃ p p', t.vfs 0 = some p ∧ p.splitFlag = true ∧
      p.insert key value .insert t.config.maxFenceLen = some (false, p') := by
  simp only [rootRefuses, Bool.and_eq_true, decide_eq_true_eq, Option.any_eq_true] at h
  obtain ⟨hroot, p, hp, hflag, ⟨b, p'⟩, hins, hb⟩ := h
  obtain rfl : b = false := by simpa using hb
  exact ⟨hroot, p, p', hp, hflag, hins⟩

/-- Two records of 1900 bytes fit into the root leaf, the third one marks it. -/
def markedRootAttempts : List Attempt :=
  let v : Value := List.replicate 1900 0
  [.insert calm [1, 2] v false, .insert calm [2, 2] v false, .insert calm [3, 2] v false]

theorem Reachable.root_leaf_split_third_record : ∃ t p splitKey left sibling t',
    Reachable .default t ∧ t.root = .id 0 ∧ t.vfs 0 = some p ∧ p.splitFlag = true ∧
    p.split 4096 false SnapshotGuard.unprotected.version = some (splitKey, left, sibling) ∧
    trySplitLeaf calm 0 none t = some (.ok true, t') ∧
    ∃ landing, traverseToLeaf calm [3, 2] false t' = some (.ok landing, t') := by
  have hmarked : fromNew .default 0 markedRootAttempts
      (fun _ t => (t.rootRefuses [3, 2] (List.replicate 1900 0), t.pages[0]?, t.config)) =
        some (true, some (.base 0), .default) := by
    decide +kernel
  obtain ⟨t₀, t, done, hnew, hrun, hres⟩ := fromNew_eq_some hmarked
  have hreach := Reachable.attempts _ (.new hnew) (by decide +kernel) hrun
  obtain ⟨hrefuses, hrest⟩ := Prod.mk.inj hres
  obtain ⟨hpage, hconfig⟩ := Prod.mk.inj hrest
  obtain ⟨hroot, p, p', hp, hflag, hfail⟩ := rootRefuses_eq_true hrefuses
  have hw : Writable .default [3, 2] (List.replicate 1900 0) .insert :=
    writable_insert (by decide +kernel)
  rw [hconfig] at hfail
  obtain ⟨offset, q, hloc, hq, hsplit⟩ := hreach.root_leaf_split rfl hroot
  obtain rfl : 0 = offset := by simpa using hpage.symm.trans hloc
  obtain rfl : p = q := Option.some.inj (hp.symm.trans hq)
  obtain ⟨splitKey, left, sibling, t', hs, -, -, -, -, -, htry, hland⟩ :=
    hsplit hw hfail hflag (rfl : calm.splitGuard = some .unprotected) rfl
  obtain ⟨landing, -, -, htraverse, -⟩ := hland calm rfl
  exact ⟨t, p, splitKey, left, sibling, t', hreach, hroot, hp, hflag, hs, htry, landing, htraverse⟩

end Tree

end BfTree
