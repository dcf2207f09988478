import BfTree.Config
import BfTree.Nodes.Accounting

/-!
# BfTree.Nodes.PageInvariant — properties of single pages

A property of a page that depends on its space and its records only, and that new pages
and inserts keep, is kept by every operation that rewrites pages: all of them start from
a new page and insert the records of old ones. The tree then has it in all its pages.
-/

namespace BfTree.LeafNode

open Lib

/-- The two pages differ in op types, reference bits, versions, flags and the kind of page
only. -/
structure SameSpace (p q : LeafNode) : Prop where
  nodeSize : q.nodeSize = p.nodeSize
  remainingSize : q.remainingSize = p.remainingSize
  hasFence : q.hasFence = p.hasFence
  prefixLen : q.prefixLen = p.prefixLen
  lowFence : q.lowFence = p.lowFence
  highFence : q.highFence = p.highFence
  records : q.metas.map (fun m => (m.remainingKey, m.value)) =
    p.metas.map fun m => (m.remainingKey, m.value)

/-- Lengths of a key and a value that the tree accepts. -/
structure AcceptedSize (cfg : Config) (keyLen valueLen : Nat) : Prop where
  fence : keyLen ≤ cfg.maxFenceLen / 2
  key : keyLen ≤ maxKeyLen
  record : keyLen + valueLen ≤ cfg.cbMaxRecordSize

theorem AcceptedSize.mono {cfg : Config} {m n valueLen : Nat} (h : AcceptedSize cfg n valueLen)
    (hle : m ≤ n) : AcceptedSize cfg m valueLen :=
  ⟨hle.trans h.fence, hle.trans h.key, (Nat.add_le_add_right hle _).trans h.record⟩

/-- A property that every page of a tree has. Fenced pages are leaf pages, all others have
one of the size classes. -/
structure PageInvariant (cfg : Config) (classes : List Nat) (P : LeafNode → Prop) : Prop where
  leaf_mem : cfg.leafPageSize ∈ classes
  size : ∀ {p : LeafNode}, P p →
    p.nodeSize ∈ classes ∧ (p.hasFence = true → p.nodeSize = cfg.leafPageSize)
  small : ∀ {p : LeafNode}, P p → ∀ m ∈ p.metas, AcceptedSize cfg (p.getKeyLen m) m.value.length
  congr : ∀ {p q : LeafNode}, P p → SameSpace p q → P q
  fresh : ∀ (lo hi : Key) (size : Nat) (next : Option Nat) (fence cacheOnly : Bool) (version : Nat),
    size ∈ classes → (fence = true → size = cfg.leafPageSize) →
    P (initializeNode lo hi size next fence cacheOnly version)
  insert : ∀ {p p' : LeafNode} {key : Key} {value : Value} {op : OpType} {mf : Nat} {b : Bool}, P p →
    AcceptedSize cfg key.length value.length →
    p.insert key value op mf = some (b, p') → P p'

namespace PageInvariant

variable {cfg : Config} {classes : List Nat} {P : LeafNode → Prop} {p q : LeafNode}

/-- Records in the bounds of the configuration. -/
def Small (cfg : Config) (pairs : List (Key × Value × OpType)) : Prop :=
  ∀ e ∈ pairs, AcceptedSize cfg e.1.length e.2.1.length

theorem insertAll (hP : PageInvariant cfg classes P) {mf : Nat} {pairs : List (Key × Value × OpType)} :
    ∀ {p : LeafNode}, P p → Small cfg pairs → p.insertAll mf pairs = some q → P q := by
  induction pairs with
  | nil =>
    intro p hp _ h
    cases h
    exact hp
  | cons e pairs ih =>
    obtain ⟨key, value, op⟩ := e
    intro p hp hsmall h
    rw [LeafNode.insertAll] at h
    split at h
    · next p' hins =>
      exact ih (hP.insert hp (hsmall _ List.mem_cons_self) hins)
        (fun e he => hsmall e (List.mem_cons_of_mem _ he)) h
    · cases h

/-- What is read out of pages can be written into others. -/
theorem small_filterMap {ms : List LeafKVMeta} {g : LeafKVMeta → Option (Key × Value × OpType)}
    (hms : ∀ m ∈ ms, AcceptedSize cfg (p.getKeyLen m) m.value.length)
    (hg : ∀ m e, g m = some e → e.1 = p.getFullKey m ∧ e.2.1 = m.value) :
    Small cfg (ms.filterMap g) := by
  intro e he
  obtain ⟨m, hm, hge⟩ := List.mem_filterMap.1 he
  obtain ⟨hkey, hvalue⟩ := hg m e hge
  rw [hkey, hvalue]
  exact (hms m hm).mono (p.length_getFullKey_le m)

theorem dirtyPairs (hP : PageInvariant cfg classes P) (hp : P p) : Small cfg p.dirtyPairs :=
  small_filterMap (hP.small hp) fun m e he => by
    split at he
    · cases he
      exact ⟨rfl, rfl⟩
    · cases he

theorem initializeMiniPage (hP : PageInvariant cfg classes P) {size : Nat} (hsize : size ∈ classes)
    (next : Option Nat) (cacheOnly : Bool) (version : Nat) :
    P (LeafNode.initializeMiniPage size next cacheOnly version) :=
  hP.fresh _ _ _ _ _ _ _ hsize fun hf => by cases hf

/-- Consolidation of a page whose records may be fewer than those of `p`. -/
theorem consolidateInner (hP : PageInvariant cfg classes P) (hp : P p) {ms : List LeafKVMeta}
    (hms : ∀ m ∈ ms, m ∈ p.metas) {op : OpType} {high : Option Key} {skip cacheOnly : Bool}
    {skipKey : Option Key} {version : Nat}
    (h : ({ p with metas := ms } : LeafNode).consolidateInner op high skip cacheOnly skipKey version =
      some q) : P q := by
  obtain ⟨hsize, hfence⟩ := hP.size hp
  refine hP.insertAll (hP.fresh _ _ _ _ _ _ _ hsize hfence) ?_ h
  refine small_filterMap (p := p) (fun m hm => hP.small hp m (hms m hm)) fun m e he => ?_
  split at he
  · cases he
  · split at he
    · cases he
    · cases he
      exact ⟨rfl, rfl⟩

theorem consolidateSkipKey (hP : PageInvariant cfg classes P) (hp : P p) {key : Key} {version : Nat}
    (h : p.consolidateSkipKey key version = some q) : P q := by
  unfold LeafNode.consolidateSkipKey at h
  split at h
  · exact hP.consolidateInner hp (fun _ hm => hm) h
  · cases h

theorem splitAtCount (hP : PageInvariant cfg classes P) (hp : P p) {n : Nat} {key : Key}
    {cacheOnly : Bool} {version : Nat} {left sibling : LeafNode}
    (h : p.splitAtCount cfg.leafPageSize n key cacheOnly version = some (left, sibling)) :
    P left ∧ P sibling := by
  simp only [LeafNode.splitAtCount, Option.bind_eq_bind, Option.bind_eq_some_iff] at h
  obtain ⟨s, hs, l, hl, heq⟩ := h
  obtain ⟨rfl, rfl⟩ : l = left ∧ s = sibling := by simpa using heq
  constructor
  · unfold consolidateAfterSplit at hl
    split at hl
    · exact hP.consolidateInner hp (fun _ hm => List.mem_of_mem_take hm) hl
    · cases hl
  · refine hP.insertAll ?_ ?_ hs
    · split
      · exact hP.fresh _ _ _ _ _ _ _ hP.leaf_mem fun _ => rfl
      · exact hP.fresh _ _ _ _ _ _ _ hP.leaf_mem fun _ => rfl
    · refine small_filterMap (p := p) (fun m hm => hP.small hp m (List.mem_of_mem_drop hm))
        fun m e he => ?_
      split at he
      · cases he
      · cases he
        exact ⟨rfl, rfl⟩

theorem split (hP : PageInvariant cfg classes P) (hp : P p) {key : Key} {cacheOnly : Bool}
    {version : Nat} {left sibling : LeafNode}
    (h : p.split cfg.leafPageSize cacheOnly version = some (key, left, sibling)) :
    P left ∧ P sibling := by
  simp only [LeafNode.split, Option.bind_eq_bind, Option.bind_eq_some_iff] at h
  obtain ⟨_, -, ⟨k, n⟩, -, ⟨l, s⟩, hcount, heq⟩ := h
  obtain ⟨rfl, rfl, rfl⟩ : k = key ∧ l = left ∧ s = sibling := by simpa using heq
  exact hP.splitAtCount hp hcount

theorem splitWithKey (hP : PageInvariant cfg classes P) (hp : P p) {key : Key} {cacheOnly : Bool}
    {version : Nat} {left sibling : LeafNode}
    (h : p.splitWithKey cfg.leafPageSize key cacheOnly version = some (left, sibling)) :
    P left ∧ P sibling := by
  simp only [LeafNode.splitWithKey, Option.bind_eq_bind, Option.bind_eq_some_iff] at h
  obtain ⟨_, -, ⟨l, s⟩, hcount, _, -, heq⟩ := h
  obtain ⟨rfl, rfl⟩ : l = left ∧ s = sibling := by simpa using heq
  exact hP.splitAtCount hp hcount

theorem setSnapshotVersion (hP : PageInvariant cfg classes P) (hp : P p) (version : Nat)
    (changed : Bool) : P (p.setSnapshotVersion version changed) :=
  hP.congr hp ⟨rfl, rfl, rfl, rfl, rfl, rfl, rfl⟩

theorem mergeMiniPage (hP : PageInvariant cfg classes P) {base base' mini : LeafNode} (hb : P base)
    (hm : P mini) {mf : Nat} {b : Bool} (h : base.mergeMiniPage mini mf = some (b, base')) :
    P base' := by
  unfold LeafNode.mergeMiniPage at h
  split at h
  · cases h
    exact hb
  · simp only [Option.bind_eq_bind, Option.bind_eq_some_iff] at h
    obtain ⟨b', hall, heq⟩ := h
    cases heq
    exact hP.insertAll (hP.setSnapshotVersion hb _ _) (hP.dirtyPairs hm) hall

theorem markDeletedAt_records (ms : List LeafKVMeta) (pos : Nat) :
    (markDeletedAt ms pos).map (fun m => (m.remainingKey, m.value)) =
      ms.map fun m => (m.remainingKey, m.value) := by
  refine List.ext_getElem? fun i => ?_
  rw [markDeletedAt, List.getElem?_map, List.getElem?_map, List.getElem?_modify]
  cases ms[i]? with
  | none => rfl
  | some m =>
    dsimp only [Option.map_eq_map, Option.map_some]
    split <;> rfl

theorem getMergeSplitKey (hP : PageInvariant cfg classes P) {base base' mini : LeafNode} (hb : P base)
    {key : Key} (h : base.getMergeSplitKey mini = some (key, base')) : P base' := by
  obtain ⟨k, -, heq⟩ := Option.map_eq_some_iff.1 h
  obtain ⟨-, rfl⟩ := Prod.mk.inj heq
  refine hP.congr hb ⟨rfl, rfl, rfl, rfl, rfl, rfl, ?_⟩
  dsimp only
  generalize (base.mergeSearch mini).2 = positions
  generalize base.metas = ms
  induction positions generalizing ms with
  | nil => rfl
  | cons pos positions ih =>
    rw [List.foldl_cons, ih, markDeletedAt_records]

theorem copyInitializeTo (hP : PageInvariant cfg classes P) (hp : P p) {size version : Nat}
    {discard : Bool} (hsize : size ∈ classes)
    (h : p.copyInitializeTo size discard version = some q) : P q := by
  unfold LeafNode.copyInitializeTo at h
  split at h
  · cases h
  · refine hP.insertAll (hP.fresh _ _ _ _ _ _ _ hsize fun hf => by cases hf) ?_ h
    refine small_filterMap (p := p) (hP.small hp) fun m e he => ?_
    split at he
    · cases he
    · cases he
      exact ⟨rfl, rfl⟩

theorem covertInsertRecordsToCache (hP : PageInvariant cfg classes P) (hp : P p)
    (h : p.covertInsertRecordsToCache = some q) : P q := by
  unfold LeafNode.covertInsertRecordsToCache at h
  split at h
  · cases h
  · cases h
    exact hP.congr hp ⟨rfl, rfl, rfl, rfl, rfl, rfl, by simp⟩

theorem convertCacheRecordsToInsert (hP : PageInvariant cfg classes P) (hp : P p) :
    P p.convertCacheRecordsToInsert :=
  hP.congr hp ⟨rfl, rfl, rfl, rfl, rfl, rfl, by simp [LeafNode.convertCacheRecordsToInsert]⟩

theorem setMeta_referenced (hP : PageInvariant cfg classes P) (hp : P p) {pos : Nat} {m : LeafKVMeta}
    (hm : p.metas[pos]? = some m) : P (p.setMeta pos { m with referenced := true }) := by
  obtain ⟨hlt, rfl⟩ := List.getElem?_eq_some_iff.1 hm
  refine hP.congr hp ⟨rfl, rfl, rfl, rfl, rfl, rfl, ?_⟩
  rw [setMeta, List.map_set]
  conv_rhs => rw [← List.set_getElem_self hlt, List.map_set]

/-- A read marks a slot; the value it finds could be written again under the key. -/
theorem readByKeyInner (hP : PageInvariant cfg classes P) (hp : P p) {key : Key}
    {buf buf' : List UInt8} {b : Bool} {r : LeafReadResult}
    (h : p.readByKeyInner key buf b = some (r, buf', q)) :
    P q ∧ ∀ n, r = .found n → AcceptedSize cfg key.length (buf'.take n).length := by
  simp only [LeafNode.readByKeyInner, Option.bind_eq_bind, Option.bind_eq_some_iff] at h
  obtain ⟨pos, -, h⟩ := h
  split at h
  · obtain ⟨rfl, -, rfl⟩ : .notFound = r ∧ buf = buf' ∧ p = q := by simpa using h
    exact ⟨hp, by simp⟩
  · next m hm =>
    have hmark := hP.setMeta_referenced hp hm
    split at h
    · next hkey =>
      split at h
      · obtain ⟨rfl, -, rfl⟩ : .deleted = r ∧ buf = buf' ∧ _ = q := by simpa using h
        exact ⟨hmark, by simp⟩
      · simp only [Option.bind_eq_some_iff, Option.some.injEq, Prod.mk.injEq] at h
        obtain ⟨out, hout, rfl, rfl, rfl⟩ := h
        refine ⟨hmark, fun n hn => ?_⟩
        obtain rfl := LeafReadResult.found.inj hn
        have hsmall := hP.small hp m (List.mem_of_getElem? hm)
        unfold copyFromSlice at hout
        split at hout
        · cases hout
          rw [getKeyLen, hkey, List.length_drop] at hsmall
          rw [List.take_left' rfl]
          exact hsmall.mono (by omega)
        · cases hout
    · obtain ⟨rfl, -, rfl⟩ : .notFound = r ∧ buf = buf' ∧ _ = q := by simpa using h
      exact ⟨hmark, by simp⟩

end PageInvariant

theorem mem_of_getChainSizeHint {keyLen valueLen size : Nat} {classes : List Nat} {cacheOnly : Bool}
    (h : getChainSizeHint keyLen valueLen classes cacheOnly = some size) : size ∈ classes := by
  simp only [getChainSizeHint] at h
  split at h
  · next s hs => exact Option.some.inj h ▸ List.dropLast_subset _ (List.mem_of_find?_eq_some hs)
  · split at h
    · next s hs =>
      split at h
      · exact Option.some.inj h ▸ List.mem_of_getLast? hs
      · cases h
    · cases h

theorem mem_of_newSizeIfUpgrade {p : LeafNode} {incoming size : Nat} {classes : List Nat}
    {cacheOnly : Bool} (h : p.newSizeIfUpgrade incoming classes cacheOnly = some (some size)) :
    size ∈ classes := by
  simp only [newSizeIfUpgrade] at h
  split at h
  · next s hs =>
    split at h
    · cases h
    · obtain rfl := Option.some.inj (Option.some.inj h)
      exact List.dropLast_subset _ (List.mem_of_find?_eq_some hs)
  · split at h
    · next s hs =>
      split at h
      · obtain rfl := Option.some.inj (Option.some.inj h)
        exact List.mem_of_getLast? hs
      · cases h
    · cases h

/-! ## The space of a page -/

/-- What an insert does, in any page: nothing, a slot with the key is overwritten, or a new
slot is added. -/
theorem insert_inv {p p' : LeafNode} {key : Key} {value : Value} {op : OpType} {mf : Nat} {b : Bool}
    (h : p.insert key value op mf = some (b, p')) :
    p.prefixLen ≤ key.length ∧
      (p' = p ∨
        (∃ pos m v r, p.metas[pos]? = some m ∧ m.remainingKey = key.drop p.prefixLen ∧
          (v = m.value ∨ v = value) ∧
          (v.length ≤ m.value.length ∧ r = p.remainingSize ∨
            r + (m.remainingKey.length + v.length) = p.remainingSize) ∧
          p' = { p with
            metas := p.metas.set pos { m with value := v, opType := op }, remainingSize := r }) ∨
        ∃ pos r, pos ≤ p.metas.length ∧
          r + ((key.drop p.prefixLen).length + value.length + kvMetaSize) = p.remainingSize ∧
          p' = { p with
            metas := p.metas.insertIdx pos (LeafKVMeta.makePrefixedMeta value key p.prefixLen op)
            remainingSize := r }) := by
  simp only [LeafNode.insert, Option.bind_eq_bind, Option.bind_eq_some_iff] at h
  obtain ⟨pos, hpos, h⟩ := h
  have hlen : p.prefixLen ≤ key.length := by
    unfold lowerBound at hpos
    split at hpos
    · cases hpos
    · omega
  refine ⟨hlen, ?_⟩
  have hnew : ∀ {q : LeafNode}, p.insertNew pos ((key.drop p.prefixLen).length + value.length) key
      value op mf = (b, q) → q = p ∨ ∃ pos r, pos ≤ p.metas.length ∧
        r + ((key.drop p.prefixLen).length + value.length + kvMetaSize) = p.remainingSize ∧
        q = { p with
          metas := p.metas.insertIdx pos (LeafKVMeta.makePrefixedMeta value key p.prefixLen op)
          remainingSize := r } := by
    intro q hq
    unfold insertNew at hq
    split at hq
    · exact .inl (Prod.mk.inj hq).2.symm
    · split at hq
      · exact .inl (Prod.mk.inj hq).2.symm
      · next hfull =>
        refine .inr ⟨pos, _, lowerBound_le hpos, ?_, (Prod.mk.inj hq).2.symm⟩
        unfold fullWithFences at hfull
        split at hfull
        · exact absurd rfl hfull
        · omega
  split at h
  · next m hm =>
    split at h
    · next hkey =>
      unfold insertExisting at h
      split at h
      · next hop =>
        refine .inr (.inl ⟨pos, m, m.value, _, hm, hkey, .inl rfl, .inl ⟨le_rfl, rfl⟩, ?_⟩)
        exact hop ▸ (Prod.mk.inj (Option.some.inj h)).2.symm
      · split at h
        · next hle =>
          exact .inr (.inl ⟨pos, m, value, _, hm, hkey, .inr rfl, .inl ⟨hle, rfl⟩,
            (Prod.mk.inj (Option.some.inj h)).2.symm⟩)
        · split at h
          · exact .inl (Prod.mk.inj (Option.some.inj h)).2.symm
          · split at h
            · cases h
            · refine .inr (.inl ⟨pos, m, value, _, hm, hkey, .inr rfl, .inr ?_,
                (Prod.mk.inj (Option.some.inj h)).2.symm⟩)
              rw [hkey]
              omega
    · exact (hnew (Option.some.inj h)).imp_right .inr
  · exact (hnew (Option.some.inj h)).imp_right .inr

/-- The page has one of the sizes of its tree, its records are in the bounds of the
configuration, and they and the free bytes have room in it. Without records all of the
page is free. -/
structure Sized (cfg : Config) (classes : List Nat) (p : LeafNode) : Prop where
  mem : p.nodeSize ∈ classes
  fence : p.hasFence = true → p.nodeSize = cfg.leafPageSize
  small : ∀ m ∈ p.metas, AcceptedSize cfg (p.getKeyLen m) m.value.length
  space : p.remainingSize + p.used ≤ p.capacity
  empty : p.metas = [] → p.remainingSize = p.capacity

theorem SameSpace.used {p q : LeafNode} (h : SameSpace p q) : q.used = p.used := by
  have := congrArg (List.map fun x : Key × Value => x.1.length + x.2.length + kvMetaSize) h.records
  rw [List.map_map, List.map_map] at this
  exact congrArg List.sum this

theorem SameSpace.capacity {p q : LeafNode} (h : SameSpace p q) : q.capacity = p.capacity := by
  rw [LeafNode.capacity, LeafNode.capacity, h.hasFence, h.nodeSize, h.lowFence, h.highFence,
    h.prefixLen]

theorem Sized.congr {cfg : Config} {classes : List Nat} {p q : LeafNode} (h : Sized cfg classes p)
    (hs : SameSpace p q) : Sized cfg classes q := by
  refine ⟨hs.nodeSize ▸ h.mem, ?_, fun m hm => ?_, ?_, ?_⟩
  · rw [hs.hasFence, hs.nodeSize]
    exact h.fence
  · have hmem : (m.remainingKey, m.value) ∈ p.metas.map fun m => (m.remainingKey, m.value) := by
      rw [← hs.records]
      exact List.mem_map_of_mem hm
    obtain ⟨m', hm', heq⟩ := List.mem_map.1 hmem
    obtain ⟨hkey, hvalue⟩ := Prod.mk.inj heq
    have := h.small m' hm'
    rw [getKeyLen, hs.prefixLen, ← hkey, ← hvalue]
    exact this
  · rw [hs.remainingSize, hs.used, hs.capacity]
    exact h.space
  · intro hnil
    have hrecords := hs.records
    rw [hnil, List.map_nil, eq_comm, List.map_eq_nil_iff] at hrecords
    rw [hs.remainingSize, hs.capacity]
    exact h.empty hrecords

theorem used_set {ms : List LeafKVMeta} {pos : Nat} {m : LeafKVMeta} (hm : ms[pos]? = some m)
    (m' : LeafKVMeta) :
    ((ms.set pos m').map storedSize).sum + storedSize m = (ms.map storedSize).sum + storedSize m' := by
  obtain ⟨hlt, rfl⟩ := List.getElem?_eq_some_iff.1 hm
  have hsplit : ms = ms.take pos ++ ms.get ⟨pos, hlt⟩ :: ms.drop (pos + 1) := by simp
  rw [List.set_eq_take_append_cons_drop, if_pos hlt]
  conv_rhs => rw [hsplit]
  rw [used_append_cons, used_append_cons]
  simp only [List.get_eq_getElem]
  omega

theorem used_insertIdx_le (ms : List LeafKVMeta) (pos : Nat) (m : LeafKVMeta) :
    ((ms.insertIdx pos m).map storedSize).sum ≤ (ms.map storedSize).sum + storedSize m := by
  induction ms generalizing pos with
  | nil =>
    cases pos with
    | zero => simp
    | succ pos => simp
  | cons a ms ih =>
    cases pos with
    | zero => simp [Nat.add_comm]
    | succ pos =>
      have := ih pos
      simp only [List.insertIdx_succ_cons, List.map_cons, List.sum_cons]
      omega

theorem Sized.insert {cfg : Config} {classes : List Nat} {p p' : LeafNode} (h : Sized cfg classes p)
    {key : Key} {value : Value} {op : OpType} {mf : Nat} {b : Bool}
    (hkv : AcceptedSize cfg key.length value.length)
    (hins : p.insert key value op mf = some (b, p')) : Sized cfg classes p' := by
  have hspace := h.space
  obtain ⟨hlen, rfl | ⟨pos, m, v, r, hm, hkey, hv, hr, rfl⟩ | ⟨pos, r, hpos, hr, rfl⟩⟩ := insert_inv hins
  · exact h
  · refine ⟨h.mem, h.fence, fun n hn => ?_, ?_, fun hnil => ?_⟩
    · rcases List.mem_or_eq_of_mem_set hn with hn | rfl
      · exact h.small n hn
      · rcases hv with rfl | rfl
        · exact h.small m (List.mem_of_getElem? hm)
        · have hlen' := congrArg List.length hkey
          rw [List.length_drop] at hlen'
          exact hkv.mono (by dsimp only [getKeyLen]; omega)
    · have hused := used_set hm { m with value := v, opType := op }
      dsimp only [LeafNode.used, LeafNode.capacity, storedSize] at *
      omega
    · rw [(List.set_eq_nil_iff _ _).1 hnil] at hm
      cases hm
  · refine ⟨h.mem, h.fence, fun n hn => ?_, ?_, fun hnil => ?_⟩
    · rcases (List.mem_insertIdx hpos).1 hn with rfl | hn
      · rw [getKeyLen, LeafKVMeta.makePrefixedMeta, List.length_drop]
        exact hkv.mono (by dsimp only; omega)
      · exact h.small n hn
    · have hused := used_insertIdx_le p.metas pos
        (LeafKVMeta.makePrefixedMeta value key p.prefixLen op)
      dsimp only [LeafNode.used, LeafNode.capacity, storedSize, LeafKVMeta.makePrefixedMeta] at *
      omega
    · exact absurd ((List.mem_insertIdx hpos).2 (.inl rfl)) (hnil ▸ List.not_mem_nil)

theorem sized_invariant {cfg : Config} {classes : List Nat} (hleaf : cfg.leafPageSize ∈ classes) :
    PageInvariant cfg classes (Sized cfg classes) where
  leaf_mem := hleaf
  size h := ⟨h.mem, h.fence⟩
  small h := h.small
  congr := Sized.congr
  fresh lo hi size next fence cacheOnly version hsize hfence := by
    have hnil : (initializeNode lo hi size next fence cacheOnly version).metas = [] := by
      cases fence <;> rfl
    have hnode : (initializeNode lo hi size next fence cacheOnly version).nodeSize = size := by
      cases fence <;> rfl
    have hf : (initializeNode lo hi size next fence cacheOnly version).hasFence = fence := by
      cases fence <;> rfl
    refine ⟨by rwa [hnode], ?_, ?_, ?_, fun _ => initializeNode_remainingSize ..⟩
    · rw [hf, hnode]
      exact hfence
    · rw [hnil]
      exact nofun
    · rw [initializeNode_remainingSize, LeafNode.used, hnil]
      exact le_rfl
  insert h hkv hins := h.insert hkv hins

end BfTree.LeafNode
