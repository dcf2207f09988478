import BfTree.MiniPageSpec
import BfTree.LeafTx
import BfTree.Nodes.Accounting
import BfTree.Nodes.SplitBalance

/-!
# Operations on a cache-only leaf

In cache-only mode a leaf is one mini page, or nothing once that page is evicted.
Every version of a record is in that page. An operation that fails may lose records,
but never brings back an old one.
-/

namespace BfTree

open Lib LeafNode

/-- The page of a cache-only leaf. -/
structure CachePage (cfg : Config) (lo hi : Key) (p : LeafNode) : Prop where
  wf : p.WF
  hasFence : p.hasFence = false
  isCacheOnlyLeaf : p.isCacheOnlyLeaf = true
  nextLevel : p.nextLevel = none
  inRange : ∀ k, p.entry k ≠ none → InRange lo hi k
  nonempty : p.entry [] = none
  dirty : ∀ k e, p.entry k = some e → e.1.isDirty = true
  small : ∀ k e, p.entry k = some e → k.length + e.2.length ≤ cfg.cbMaxRecordSize

/-- A cache-only leaf that stores the map `c`. -/
def CacheLeaf (cfg : Config) (lo hi : Key) (c : Key → Option Value) : PageLocation → Prop
  | .mini p => CachePage cfg lo hi p ∧ ∀ k, live (p.entry k) = c k
  | .null => ∀ k, c k = none
  | _ => False

section Page

variable {cfg : Config} {lo hi key : Key} {p p' q : LeafNode}

theorem CachePage.covers (h : CachePage cfg lo hi p) (k : Key) : p.Covers k := by
  rw [LeafNode.Covers, (h.wf.no_fence h.hasFence).1, (h.wf.no_fence h.hasFence).2]
  exact inRange_nil_nil k

theorem CachePage.isBasePage (h : CachePage cfg lo hi p) : p.isBasePage = false := by
  simp [LeafNode.isBasePage, h.isCacheOnlyLeaf]

theorem CachePage.congr (h : CachePage cfg lo hi p) (hs : SameRecords p p') :
    CachePage cfg lo hi p' where
  wf := hs.wf.2 h.wf
  hasFence := hs.hasFence.trans h.hasFence
  isCacheOnlyLeaf := hs.isCacheOnlyLeaf.trans h.isCacheOnlyLeaf
  nextLevel := hs.nextLevel.trans h.nextLevel
  inRange k hk := h.inRange k (hs.entry k ▸ hk)
  nonempty := (hs.entry []).trans h.nonempty
  dirty k e he := h.dirty k e (hs.entry k ▸ he)
  small k e he := h.small k e (hs.entry k ▸ he)

/-- A page that is rebuilt from the records of a cache-only page. -/
theorem CachePage.rebuild (h : CachePage cfg lo hi p) {size ver : Nat} {lo' hi' : Key} (hw : q.WF)
    (hh : SameHeader (initializeNode [] [] size none false true ver) q)
    (he : ∀ k e, q.entry k = some e → e.1.isDirty = true ∧ InRange lo' hi' k ∧
      ∃ op, p.entry k = some (op, e.2)) :
    CachePage cfg lo' hi' q where
  wf := hw
  hasFence := by simpa using hh.hasFence
  isCacheOnlyLeaf := by simpa using hh.isCacheOnlyLeaf
  nextLevel := by simpa using hh.nextLevel
  inRange k hk := by
    obtain ⟨e, hk⟩ := Option.ne_none_iff_exists'.1 hk
    exact (he k e hk).2.1
  nonempty := by
    cases hk : q.entry [] with
    | none => rfl
    | some e =>
      obtain ⟨-, -, op, hp⟩ := he [] e hk
      rw [h.nonempty] at hp
      cases hp
  dirty k e hk := (he k e hk).1
  small k e hk := by
    obtain ⟨-, -, op, hp⟩ := he k e hk
    exact h.small k (op, e.2) hp

theorem CachePage.empty (cfg : Config) (lo hi : Key) (size ver : Nat) :
    CachePage cfg lo hi (initializeMiniPage size none true ver) where
  wf := wf_initializeNode _ _ _ _ _ _ _
  hasFence := by simp [initializeMiniPage]
  isCacheOnlyLeaf := by simp [initializeMiniPage]
  nextLevel := by simp [initializeMiniPage]
  inRange k hk := by simp [initializeMiniPage] at hk
  nonempty := by simp [initializeMiniPage]
  dirty k e hk := by simp [initializeMiniPage] at hk
  small k e hk := by simp [initializeMiniPage] at hk

/-- A record that a cache-only leaf may take. -/
structure Storable (cfg : Config) (lo hi key : Key) (value : Value) (op : OpType) : Prop where
  inRange : InRange lo hi key
  nonempty : key ≠ []
  dirty : op.isDirty = true
  small : key.length + value.length ≤ cfg.cbMaxRecordSize

theorem insertEntry_value {b : Bool} {op : OpType} {v : Value} {e : Option (OpType × Value)}
    {r : OpType × Value} (h : insertEntry b op v e = some r) :
    r.2 = v ∨ ∃ op', e = some (op', r.2) := by
  cases e with
  | none =>
    simp only [insertEntry] at h
    split at h <;> cases h
    exact .inl rfl
  | some e =>
    simp only [insertEntry] at h
    split at h <;> cases h
    · exact .inr ⟨e.1, rfl⟩
    · exact .inl rfl

theorem CachePage.insert {value : Value} {op : OpType} {mf : Nat} (h : CachePage cfg lo hi p)
    (hs : Storable cfg lo hi key value op) (hins : p.insert key value op mf = some (true, p')) :
    CachePage cfg lo hi p' ∧
      ∀ k, live (p'.entry k) = written (fun x => live (p.entry x)) key value op k := by
  obtain ⟨hw, hh, -, he⟩ := insert_spec h.wf (h.covers key) hins
  have he := he rfl
  refine ⟨⟨hw, hh.hasFence.trans h.hasFence, hh.isCacheOnlyLeaf.trans h.isCacheOnlyLeaf,
    hh.nextLevel.trans h.nextLevel, ?_, ?_, ?_, ?_⟩, ?_⟩
  · intro k hk
    rw [he] at hk
    split at hk
    · next heq => rw [heq]; exact hs.inRange
    · exact h.inRange k hk
  · rw [he, if_neg hs.nonempty.symm, h.nonempty]
  · intro k e hk
    rw [he] at hk
    split at hk
    · rw [insertEntry_op hk]; exact hs.dirty
    · exact h.dirty k e hk
  · intro k e hk
    rw [he] at hk
    split at hk
    · next heq =>
      obtain hv | ⟨op', hold⟩ := insertEntry_value hk
      · rw [heq, hv]; exact hs.small
      · rw [heq]; exact h.small key (op', e.2) hold
    · exact h.small k e hk
  · intro k
    rw [he, written]
    split
    · exact live_insertEntry _ _ _ _
    · rfl

theorem CachePage.noFences (h : CachePage cfg lo hi p) : p.lowFence = [] ∧ p.highFence = [] :=
  h.wf.no_fence h.hasFence

/-- Consolidation without one key. -/
theorem CachePage.consolidateInner (h : CachePage cfg lo hi p) {skip : Option Key} {ver : Nat}
    (hr : p.consolidateInner .insert none true true skip ver = some p') :
    CachePage cfg lo hi p' ∧ p'.nodeSize = p.nodeSize ∧
      (∀ k, live (p'.entry k) = if skip = some k then none else live (p.entry k)) ∧
      (p'.metas.map p'.recordSize).sum ≤ maxDataSize p.nodeSize ∧
      ∀ k, skip = some k → p'.entry k = none := by
  have hcov : ∀ m ∈ p.metas, p.hasFence = true →
      InRange p.lowFence ((none : Option Key).getD p.highFence) (p.getFullKey m) := by
    intro m _ hf
    rw [h.hasFence] at hf
    cases hf
  obtain ⟨hw, hh, he⟩ := consolidateInner_spec h.wf hcov hr
  have hinit : initializeNode p.lowFence ((none : Option Key).getD p.highFence) p.nodeSize p.nextLevel
      p.hasFence true ver = initializeNode [] [] p.nodeSize none false true ver := by
    rw [h.noFences.1, h.nextLevel, h.hasFence]
    simp [h.noFences.2]
  rw [hinit] at hh
  have hpage : CachePage cfg lo hi p' := by
    refine h.rebuild hw hh fun k e hk => ?_
    rw [he] at hk
    split at hk
    · cases hk
    · obtain ⟨hop, op, hp⟩ := cleaned_eq_some hk
      exact ⟨by rw [hop]; rfl, h.inRange k (by simp [hp]), op, hp⟩
  refine ⟨hpage, by simpa using hh.nodeSize, fun k => ?_, ?_, fun k hk => by rw [he, if_pos hk]⟩
  · rw [he]
    split
    · rfl
    · exact live_cleaned (h.dirty k)
  · have hacc := rebuild_accounting h.wf (List.Sublist.refl _) _ (fun m e hme => ?_)
      (wf_initializeNode _ _ _ _ _ _ _) (initializeNode_metas _ _ _ _ _ _ _) (fun m hm => ?_) hr
    · rw [recordSize_eq_storedSize hw hpage.hasFence]
      rw [initializeNode_remainingSize, hinit] at hacc
      have hcap : (initializeNode [] [] p.nodeSize none false true ver).capacity =
          maxDataSize p.nodeSize := by simp [capacity]
      rw [hcap, used] at hacc
      omega
    · split at hme
      · cases hme
      · split at hme
        · cases hme
        · cases hme; rfl
    · rw [LeafNode.Covers, initializeNode_lowFence, initializeNode_highFence, h.hasFence]
      exact inRange_nil_nil _

/-- All records are dirty, so a copy loses none. -/
theorem CachePage.copy (h : CachePage cfg lo hi p) {size ver : Nat} {discard : Bool}
    (hr : p.copyInitializeTo size discard ver = some p') :
    CachePage cfg lo hi p' ∧ ∀ k, p'.entry k = p.entry k := by
  obtain ⟨-, hw, hh, he⟩ := copyInitializeTo_spec h.wf hr
  rw [h.nextLevel, h.isCacheOnlyLeaf] at hh
  have hentry : ∀ k, p'.entry k = p.entry k := by
    intro k
    obtain h' | ⟨-, op, v, hp, hc, -⟩ := he k
    · exact h'
    · have hd : op.isDirty = true := h.dirty k _ hp
      cases op <;> first | exact absurd hd (by decide) | exact absurd hc (by decide)
  refine ⟨h.rebuild hw hh fun k e hk => ?_, hentry⟩
  rw [hentry] at hk
  exact ⟨h.dirty k e hk, h.inRange k (by simp [hk]), e.1, hk⟩

/-- Both halves of a split are cache-only pages. -/
theorem CachePage.split {left sibling : LeafNode} {size ver : Nat} (h : CachePage cfg lo hi p)
    (hs : SplitResult p left sibling size key true ver) :
    CachePage cfg lo key left ∧ CachePage cfg key hi sibling ∧
      (∀ k, live (left.entry k) = if k < key then live (p.entry k) else none) ∧
      ∀ k, live (sibling.entry k) = if k < key then none else live (p.entry k) := by
  have hinit : initializeNode p.lowFence key p.nodeSize p.nextLevel p.hasFence p.isCacheOnlyLeaf ver =
      initializeNode [] [] p.nodeSize none false true ver := by
    rw [h.nextLevel, h.hasFence, h.isCacheOnlyLeaf]
    simp [initializeNode]
  have hleft := hs.left_header
  rw [hinit] at hleft
  refine ⟨h.rebuild hs.left_wf hleft fun k e hk => ?_,
    h.rebuild hs.sibling_wf (by simpa using hs.sibling_header) fun k e hk => ?_, fun k => ?_,
    fun k => ?_⟩
  · rw [hs.left_entry] at hk
    split at hk
    · next hlt =>
      obtain ⟨hop, op, hp⟩ := cleaned_eq_some hk
      exact ⟨by rw [hop]; rfl, ⟨(h.inRange k (by simp [hp])).1, .inr hlt⟩, op, hp⟩
    · cases hk
  · rw [hs.sibling_entry] at hk
    split at hk
    · cases hk
    · next hge =>
      obtain ⟨hop, op, hp⟩ := cleaned_eq_some hk
      exact ⟨by rw [hop]; rfl, ⟨not_lt.1 hge, (h.inRange k (by simp [hp])).2⟩, op, hp⟩
  · rw [hs.left_entry]
    split
    · exact live_cleaned (h.dirty k)
    · rfl
  · rw [hs.sibling_entry]
    split
    · rfl
    · exact live_cleaned (h.dirty k)

/-- After a consolidation all records are inserts. -/
theorem CachePage.consolidateInner_op (h : CachePage cfg lo hi p) {skip : Option Key} {ver : Nat}
    (hr : p.consolidateInner .insert none true true skip ver = some p') (k : Key)
    (e : OpType × Value) (he : p'.entry k = some e) : e.1 = .insert := by
  have hcov : ∀ m ∈ p.metas, p.hasFence = true →
      InRange p.lowFence ((none : Option Key).getD p.highFence) (p.getFullKey m) := by
    intro m _ hf
    rw [h.hasFence] at hf
    cases hf
  rw [(consolidateInner_spec h.wf hcov hr).2.2] at he
  split at he
  · cases he
  · exact (cleaned_eq_some he).1

/-- Records of a cache-only page are stored with their full key. -/
theorem CachePage.recordSize_eq (h : CachePage cfg lo hi p) : p.recordSize = storedSize :=
  recordSize_eq_storedSize h.wf h.hasFence

theorem CachePage.recordSize_le (h : CachePage cfg lo hi p) {m : LeafKVMeta} (hm : m ∈ p.metas) :
    p.recordSize m ≤ cfg.cbMaxRecordSize + kvMetaSize := by
  have hsmall := h.small _ _ ((entry_eq_some h.wf).2 ⟨m, hm, rfl, rfl, rfl⟩)
  have hlen : (p.getFullKey m).length = m.remainingKey.length := by
    simp [getFullKey, getPrefix, h.noFences.1]
  rw [h.recordSize_eq, storedSize]
  dsimp only at hsmall
  omega

/-- The split key is one of the records, and not the first. -/
theorem CachePage.splitKey_mem (h : CachePage cfg lo hi p) (hcfg : cfg.Bounds)
    (hc : cfg.cacheOnly = true) {k : Key} {n : Nat} (hnew : p.entry key = none) (hne : p.metas ≠ [])
    (hsum : (p.metas.map p.recordSize).sum ≤ maxDataSize cfg.leafPageSize)
    (hn : n ≤ cfg.cbMaxRecordSize) (hr : p.getCacheOnlyInsertSplitKey key n = some k) :
    (p.entry k ≠ none ∨ k = key) ∧ ∃ k', (p.entry k' ≠ none ∨ k' = key) ∧ k' < k := by
  have hleaf := hcfg.leaf_le
  have hmax := hcfg.cacheOnly hc
  simp only [maxDataSize, leafHeaderSize, kvMetaSize, maxLeafPageSize] at hsum hleaf hmax
  have hrec : ∀ m ∈ p.metas, p.recordSize m ≤ 16368 := fun m hm =>
    (h.recordSize_le hm).trans (by rw [kvMetaSize]; omega)
  exact getCacheOnlyInsertSplitKey_spec h.wf hnew hne (by omega) hrec (by rw [kvMetaSize]; omega) hr

/-- The page is split strictly inside its range. -/
theorem CachePage.splitKey_inside (h : CachePage cfg lo hi p) (hcfg : cfg.Bounds)
    (hc : cfg.cacheOnly = true) {k : Key} {n : Nat} (hk : InRange lo hi key)
    (hnew : p.entry key = none) (hne : p.metas ≠ [])
    (hsum : (p.metas.map p.recordSize).sum ≤ maxDataSize cfg.leafPageSize)
    (hn : n ≤ cfg.cbMaxRecordSize) (hr : p.getCacheOnlyInsertSplitKey key n = some k) :
    lo < k ∧ (hi = [] ∨ k < hi) := by
  have hkeys : ∀ k, p.entry k ≠ none ∨ k = key → InRange lo hi k := by
    rintro k (hk' | rfl)
    · exact h.inRange k hk'
    · exact hk
  obtain ⟨hmem, k', hmem', hlt⟩ := h.splitKey_mem hcfg hc hnew hne hsum hn hr
  exact ⟨(hkeys k' hmem').1.trans_lt hlt, (hkeys k hmem).2⟩

end Page

namespace LeafEntry

/-! ## Insert -/

/-- The upper part of the key range goes to a new cache-only leaf. -/
structure CacheSplitOff (cfg : Config) (lo hi : Key) (c : Key → Option Value) (t t' : LeafEntry)
    (key : Key) (sibling : LeafNode) : Prop where
  lo_lt : lo < key
  lt_hi : hi = [] ∨ key < hi
  left : CacheLeaf cfg lo key (fun k => if k < key then c k else none) t'.loc
  right : CachePage cfg key hi sibling
  right_live : ∀ k, live (sibling.entry k) = if k < key then none else c k
  vfs : t'.vfs = t.vfs
  tmpBuffer : t'.tmpBuffer = t.tmpBuffer
  sibling_eq : t'.sibling = some (.mini sibling)
  pid : t'.pid = t.pid

structure CacheKeeps (cfg : Config) (lo hi : Key) (c : Key → Option Value) (t t' : LeafEntry) :
    Prop where
  leaf : CacheLeaf cfg lo hi c t'.loc
  kept : Kept t t'
  tmpBuffer : t'.tmpBuffer = t.tmpBuffer

inductive CacheOutcome (cfg : Config) (lo hi : Key) (c : Key → Option Value) (t t' : LeafEntry) :
    Prop
  | keeps (h : CacheKeeps cfg lo hi c t t')
  | splits (key : Key) (sibling : LeafNode) (h : CacheSplitOff cfg lo hi c t t' key sibling)
      (hp : Gains t t' key)

/-- Some records of `c` may be lost; nothing is said about `key`. -/
def LosesOff (key : Key) (c c' : Key → Option Value) : Prop :=
  ∀ k, k ≠ key → c' k = c k ∨ c' k = none

theorem LosesOff.refl (key : Key) (c : Key → Option Value) : LosesOff key c c :=
  fun _ _ => .inl rfl

theorem losesOff_dropsKey (drops : Bool) (key : Key) (c : Key → Option Value) :
    LosesOff key c (if drops then Function.update c key none else c) := by
  intro k hk
  left
  split
  · rw [Function.update_of_ne hk]
  · rfl

section Insert

variable {cfg : Config} {lo hi key : Key} {value : Value} {op : OpType} {p : LeafNode}
  {t : LeafEntry} {c : Key → Option Value} (sizeClasses : List Nat) (env : Env) (g : SnapshotGuard)

theorem CacheKeeps.of_page {q : LeafNode} (h : CachePage cfg lo hi q)
    (he : ∀ k, live (q.entry k) = c k) : CacheKeeps cfg lo hi c t { t with loc := .mini q } :=
  ⟨⟨h, he⟩, .of_local t _ t.tmpBuffer t.captures, rfl⟩

theorem CacheKeeps.trans {u w : LeafEntry} (h : Kept t u) (hb : u.tmpBuffer = t.tmpBuffer)
    (h' : CacheKeeps cfg lo hi c u w) : CacheKeeps cfg lo hi c t w :=
  ⟨h'.leaf, h.trans h'.kept, h'.tmpBuffer.trans hb⟩

theorem CacheOutcome.of_kept {u w : LeafEntry} (hk : Kept t u) (hb : u.tmpBuffer = t.tmpBuffer)
    (h : CacheOutcome cfg lo hi c u w) : CacheOutcome cfg lo hi c t w := by
  cases h with
  | keeps h => exact .keeps (.trans hk hb h)
  | splits key sibling h hp =>
    obtain ⟨q, hq, hspace, hpar, hins⟩ := hp
    exact .splits key sibling ⟨h.lo_lt, h.lt_hi, h.left, h.right, h.right_live, h.vfs.trans hk.vfs,
      h.tmpBuffer.trans hb, h.sibling_eq, h.pid.trans hk.pid⟩
      ⟨q, hk.parent.trans hq, hspace, hpar.trans (by rw [hk.nextPid]),
        hins.trans (by rw [hk.inserted])⟩

theorem versionRuleMini_cacheOnly (hl : t.loc = .mini p) (hc : cfg.cacheOnly = true) :
    wp (versionRuleMini cfg g p)
      (fun q t' => SameRecords p q ∧ (q = p ∨ q = p.setSnapshotVersion g.version false) ∧
        t'.loc = .mini q ∧ Kept t t' ∧ t'.tmpBuffer = t.tmpBuffer ∧ t'.parent = t.parent)
      (fun _ t' => t' = t) t := by
  have hsame : SameRecords p (p.setSnapshotVersion g.version false) := .setSnapshotVersion _ _ _
  simp only [versionRuleMini, wp_bind, wp_get, hc, Bool.not_true]
  refine wp_versionRule ⟨.refl p, .inl rfl, hl, .refl t, rfl, rfl⟩ rfl ?_ ?_
  · simp only [wp_bind, wp_setLoc, wp_pure]
    exact ⟨hsame, .inr trivial, trivial, .of_local _ _ _ _, trivial, trivial⟩
  · intro slot
    simp only [wp_bind, wp_record, wp_setLoc, Bool.false_eq_true, if_false]
    refine wp_ite (fun _ => ?_) (fun _ => ?_)
    · rw [wp_bind]
      refine wp_recordRoot ?_
      rw [wp_pure]
      exact ⟨hsame, .inr rfl, rfl, .of_local _ _ _ _, rfl, rfl⟩
    · rw [wp_pure]
      exact ⟨hsame, .inr rfl, rfl, .of_local _ _ _ _, rfl, rfl⟩

theorem versionRuleMini_refuses (hc : cfg.cacheOnly = true) (p : LeafNode) :
    wp (versionRuleMini cfg g p) (fun _ _ => g.refuses p.snapshotVersion = false)
      (fun _ _ => g.refuses p.snapshotVersion = true) t := by
  simp only [versionRuleMini, wp_bind, wp_get, hc, Bool.not_true, Bool.true_and]
  refine wp_versionRule_refuses ?_ fun slot => ?_
  · simp only [wp_bind, wp_setLoc, wp_pure]
  · simp only [wp_bind, wp_record, wp_setLoc, Bool.false_eq_true, if_false]
    refine wp_ite (fun _ => ?_) (fun _ => (wp_pure _).2 trivial)
    rw [wp_bind]
    exact wp_recordRoot ((wp_pure _).2 trivial)

theorem versionRuleParent_spec {q : Parent} (hq : t.parent = some q) :
    wp (versionRuleParent g q)
      (fun q' t' => t'.parent = some q' ∧ t'.loc = t.loc ∧ Kept t t' ∧ t'.tmpBuffer = t.tmpBuffer)
      (fun _ t' => t' = t) t := by
  have hkept : ∀ cs, Kept t { t with
      parent := some { q with node := { q.node with snapshotVersion := g.version } }
      captures := cs } := by
    intro cs
    refine ⟨rfl, rfl, ?_, rfl, rfl, rfl, rfl⟩
    rw [hq]
    exact ⟨rfl, rfl⟩
  simp only [versionRuleParent]
  refine wp_versionRule ⟨hq, rfl, .refl t, rfl⟩ rfl ?_ ?_
  · simp only [wp_bind, wp_setParent, wp_pure]
    exact ⟨trivial, trivial, hkept _, trivial⟩
  · intro slot
    rw [wp_bind]
    refine wp_recordInner fun cs => ?_
    simp only [wp_bind, wp_setParent, wp_pure]
    exact ⟨trivial, trivial, hkept _, trivial⟩

theorem growMini_cacheOnly (h : CachePage cfg lo hi p) (hc : ∀ k, live (p.entry k) = c k)
    (size : Nat) :
    wp (growMini env g p size key value op)
      (fun _ t' => Storable cfg lo hi key value op →
        CacheKeeps cfg lo hi (written c key value op) t t')
      (fun _ t' => t' = t) t := by
  simp only [growMini, wp_bind, wp_attempt, wp_unwrap, wp_assert, wp_setLoc]
  refine ⟨fun _ => ⟨fun _ => ?_, fun _ _ => trivial⟩, fun _ _ => trivial⟩
  intro grown hgrown
  rintro ⟨success, grown'⟩ hins hsuccess
  obtain rfl : success = true := hsuccess
  intro hs
  obtain ⟨hg, he⟩ := h.copy hgrown
  have hflag : SameRecords grown
      (if p.versionChanged then { grown with versionChanged := true } else grown) := by
    split
    · exact .setSnapshotVersion grown grown.snapshotVersion true
    · exact .refl grown
  obtain ⟨hg', he'⟩ := (hg.congr hflag).insert hs hins
  refine .of_page hg' fun k => ?_
  rw [he' k]
  congr 1
  funext k
  rw [hflag.entry, he, hc]

/-- The two halves after the new record went to one of them. -/
theorem splitMini_halves {left sibling left' sibling' : LeafNode} {k₀ : Key}
    (hl : CachePage cfg lo k₀ left) (hr : CachePage cfg k₀ hi sibling)
    (hel : ∀ k, live (left.entry k) = if k < k₀ then live (p.entry k) else none)
    (her : ∀ k, live (sibling.entry k) = if k < k₀ then none else live (p.entry k))
    (hs : Storable cfg lo hi key value op)
    (hins : k₀ ≤ key ∧ left' = left ∧ sibling.insert key value op 0 = some (true, sibling') ∨
      key < k₀ ∧ sibling' = sibling ∧ left.insert key value op 0 = some (true, left')) :
    CachePage cfg lo k₀ left' ∧ CachePage cfg k₀ hi sibling' ∧
      (∀ k, live (left'.entry k) =
        if k < k₀ then written (fun x => live (p.entry x)) key value op k else none) ∧
      ∀ k, live (sibling'.entry k) =
        if k < k₀ then none else written (fun x => live (p.entry x)) key value op k := by
  obtain ⟨hge, rfl, hins⟩ | ⟨hlt, rfl, hins⟩ := hins
  · obtain ⟨hr', he⟩ := hr.insert ⟨⟨hge, hs.inRange.2⟩, hs.nonempty, hs.dirty, hs.small⟩ hins
    refine ⟨hl, hr', fun k => ?_, fun k => ?_⟩
    · rw [hel]
      split
      · next hk => rw [written, if_neg (hk.trans_le hge).ne]
      · rfl
    · rw [he, written]
      by_cases hk : k = key
      · have hk' : ¬ k < k₀ := not_lt.2 (hk ▸ hge)
        rw [if_pos hk, if_neg hk', written, if_pos hk]
      · rw [if_neg hk, her, written, if_neg hk]
  · obtain ⟨hl', he⟩ := hl.insert ⟨⟨hs.inRange.1, .inr hlt⟩, hs.nonempty, hs.dirty, hs.small⟩ hins
    refine ⟨hl', hr, fun k => ?_, fun k => ?_⟩
    · rw [he, written]
      by_cases hk : k = key
      · have hk' : k < k₀ := hk ▸ hlt
        rw [if_pos hk, if_pos hk', written, if_pos hk]
      · rw [if_neg hk, hel, written, if_neg hk]
    · rw [her]
      split
      · rfl
      · next hk => rw [written, if_neg (hlt.trans_le (not_lt.1 hk)).ne']

theorem splitMini_spec (h : CachePage cfg lo hi p) (hc : ∀ k, live (p.entry k) = c k)
    (hcfg : cfg.Bounds) (hcache : cfg.cacheOnly = true) :
    wp (splitMini cfg env g p key value op)
      (fun _ t' => Storable cfg lo hi key value op →
        CacheOutcome cfg lo hi (written c key value op) t t')
      (fun _ => CacheKeeps cfg lo hi (Function.update c key none) t) t := by
  simp only [splitMini, wp_bind, wp_assert, wp_unwrap, wp_setLoc]
  intro hsize p₁ hp₁
  rintro ⟨success, p₂⟩ hins
  -- the old record of the key is gone first
  have hp₁ : p.consolidateInner .insert none true true (some key) g.version = some p₁ := by
    rw [consolidateSkipKey, h.isBasePage, h.isCacheOnlyLeaf] at hp₁
    exact hp₁
  obtain ⟨h₁, hsize₁, he₁, hsum₁, hnew₁⟩ := h.consolidateInner hp₁
  have hwritten : written (fun x => live (p₁.entry x)) key value op = written c key value op := by
    funext k
    rw [written, written]
    split
    · rfl
    · next hk => rw [he₁, if_neg (fun heq => hk (Option.some.inj heq).symm), hc]
  have hloses : ∀ k, live (p₁.entry k) = Function.update c key none k := by
    intro k
    rw [he₁, Function.update_apply, hc]
    simp only [Option.some.injEq, eq_comm]
  cases success with
  | true =>
    rw [if_pos rfl, wp_pure]
    intro hs
    obtain ⟨h₂, he₂⟩ := h₁.insert hs hins
    refine .keeps (.of_page h₂ fun k => ?_)
    rw [he₂, hwritten]
  | false =>
    obtain rfl := insert_refused hins
    have hkeep : ∀ u, Kept { t with loc := .mini p₂ } u → u.loc = .mini p₂ →
        u.tmpBuffer = t.tmpBuffer → CacheKeeps cfg lo hi (Function.update c key none) t u := by
      intro u hk hul hb
      refine ⟨by rw [hul]; exact ⟨h₁, hloses⟩, ?_, hb⟩
      exact Kept.trans (.of_local t _ t.tmpBuffer t.captures) hk
    have hsame : CacheKeeps cfg lo hi (Function.update c key none) t { t with loc := .mini p₂ } :=
      hkeep _ (.refl _) rfl rfl
    simp only [Bool.false_eq_true, if_false, wp_bind, wp_assert, wp_unwrap,
      wp_get, wp_attempt]
    intro hne splitKey hkey q hq
    refine ⟨fun _ => ⟨fun _ => ?_, fun _ _ => hsame⟩, fun _ _ => hsame⟩
    have hq' : ({ t with loc := .mini p₂ } : LeafEntry).parent = some q := hq
    refine wp_mono (versionRuleParent_spec g hq') ?_ ?_
    · rintro q' t₁ ⟨hq₁, hl₁, hk₁, hb₁⟩
      have hpar₁ : SameParent t.parent (some q') := by
        have := hk₁.parent
        rwa [hq₁] at this
      refine wp_ite (fun hspace => ?_) (fun _ => ?_)
      · simp only [wp_bind, wp_attempt, wp_unwrap, wp_insertParent]
        refine ⟨fun _ => ?_, fun _ _ => hkeep t₁ hk₁ hl₁ hb₁⟩
        rintro ⟨left, sibling⟩ hsplit
        obtain ⟨-, hres⟩ := splitWithKey_spec h₁.wf hsplit
        obtain ⟨hcl, hcr, hel, her⟩ := h₁.split hres
        have hsum : (p₂.metas.map p₂.recordSize).sum ≤ maxDataSize cfg.leafPageSize := by
          rwa [of_decide_eq_true hsize] at hsum₁
        -- the outcome, whichever half takes the record
        have hout : ∀ left' sibling',
            (splitKey ≤ key ∧ left' = left ∧
              sibling.insert key value op 0 = some (true, sibling') ∨
            key < splitKey ∧ sibling' = sibling ∧
              left.insert key value op 0 = some (true, left')) →
            Storable cfg lo hi key value op →
            CacheOutcome cfg lo hi (written c key value op) t { t₁ with
              parent := some { q' with
                node := (q'.node.insert splitKey (.id t.nextPid)).2 }
              inserted := t₁.inserted ++ [(q'.node, splitKey)]
              loc := .mini left'
              sibling := some (.mini sibling') } := by
          intro left' sibling' hcase hs
          have hn : u16 (key.length + value.length) ≤ cfg.cbMaxRecordSize :=
            (Nat.mod_le _ _).trans hs.small
          obtain ⟨hlo, hhi⟩ := h₁.splitKey_inside hcfg hcache hs.inRange (hnew₁ key rfl)
            (of_decide_eq_true hne) hsum hn hkey
          obtain ⟨hl', hr', hel', her'⟩ := splitMini_halves hcl hcr hel her hs hcase
          rw [hwritten] at hel' her'
          refine .splits splitKey sibling' ⟨hlo, hhi, ⟨hl', hel'⟩, hr', her', hk₁.vfs, hb₁, rfl,
            hk₁.pid⟩ ⟨q', hpar₁, hspace, rfl, ?_⟩
          rw [hk₁.inserted]
        refine wp_ite (fun hge => ?_) (fun hlt => ?_)
        · simp only [wp_bind, wp_unwrap, wp_assert, wp_modify]
          rintro ⟨success, sibling'⟩ hins' hsuccess
          obtain rfl : success = true := hsuccess
          exact hout left sibling' (.inl ⟨hge, rfl, hins'⟩)
        · simp only [wp_bind, wp_unwrap, wp_assert, wp_modify]
          rintro ⟨success, left'⟩ hins' hsuccess
          obtain rfl : success = true := hsuccess
          exact hout left' sibling (.inr ⟨not_le.1 hlt, rfl, hins'⟩)
      · simp only [wp_bind, wp_setParent, wp_fail]
        refine hkeep _ ⟨hk₁.pid, hk₁.vfs, hpar₁.trans ⟨rfl, rfl⟩, hk₁.nextPid, hk₁.nextOffset,
          hk₁.sibling, hk₁.inserted⟩ hl₁ hb₁
    · rintro e t' rfl
      exact hsame

/-- The page is full and has no class to grow to, so that it comes to a split. -/
def outgrown (sizeClasses : List Nat) (page : LeafNode) (key : Key) (value : Value) (op : OpType) :
    Bool :=
  (page.insert key value op 0).map (·.1) = some false &&
    page.newSizeIfUpgrade (key.length + value.length + kvMetaSize) sizeClasses true = some none

theorem insertIntoMini_cacheOnly (h : CachePage cfg lo hi p) (hc : ∀ k, live (p.entry k) = c k)
    (hl : t.loc = .mini p) (hcfg : cfg.Bounds) (hcache : cfg.cacheOnly = true) :
    wp (insertIntoMini cfg sizeClasses env g p key value op)
      (fun _ t' => Storable cfg lo hi key value op →
        CacheOutcome cfg lo hi (written c key value op) t t')
      (fun _ => CacheKeeps cfg lo hi
        (if outgrown sizeClasses p key value op then Function.update c key none else c) t) t := by
  simp only [insertIntoMini, wp_bind, wp_assert, wp_unwrap, wp_setLoc]
  rintro - ⟨success, p'⟩ hins
  cases success with
  | true =>
    rw [if_pos rfl, wp_pure]
    intro hs
    obtain ⟨h', he⟩ := h.insert hs hins
    refine .keeps (.of_page h' fun k => ?_)
    rw [he, funext hc]
  | false =>
    obtain rfl := insert_refused hins
    have ht : { t with loc := .mini p' } = t := by rw [← hl]
    rw [ht]
    simp only [Bool.false_eq_true, if_false, wp_bind, wp_unwrap, hcache, if_true]
    intro newSize hsize
    rw [outgrown, hins, hsize]
    cases newSize with
    | some size =>
      refine wp_mono (growMini_cacheOnly env g h hc size) (fun _ _ hk hs => .keeps (hk hs)) ?_
      rintro e t' rfl
      exact ⟨by rw [hl]; exact ⟨h, hc⟩, .refl _, rfl⟩
    | none => exact splitMini_spec env g h hc hcfg hcache

theorem written_written (c : Key → Option Value) (key : Key) (value : Value) (op : OpType) :
    written (written c key value op) key value op = written c key value op := by
  funext k
  simp only [written]
  split <;> rfl

/-- The root takes a record twice, and is not split here. -/
theorem insertRootMini_spec (h : CachePage cfg lo hi p) (hc : ∀ k, live (p.entry k) = c k)
    (hcfg : cfg.Bounds) (hcache : cfg.cacheOnly = true) :
    wp (insertRootMini cfg sizeClasses env g p key value op)
      (fun _ t' => Storable cfg lo hi key value op →
        CacheOutcome cfg lo hi (written c key value op) t t')
      (fun _ => CacheKeeps cfg lo hi c t) t := by
  simp only [insertRootMini, wp_bind, wp_unwrap, wp_setLoc]
  rintro ⟨success, p₁⟩ hins
  cases success with
  | true =>
    simp only [if_true, insertIntoMini, wp_bind, wp_assert, wp_unwrap, wp_setLoc]
    rintro - ⟨success, p₂⟩ hins₂
    obtain rfl := insert_again h.wf (h.covers key) hins hins₂
    rw [if_pos rfl, wp_pure]
    intro hs
    obtain ⟨h₁, he₁⟩ := h.insert hs hins
    obtain ⟨h₂, he₂⟩ := h₁.insert hs hins₂
    refine .keeps (.of_page h₂ fun k => ?_)
    rw [he₂, funext he₁, funext hc, written_written]
  | false =>
    obtain rfl := insert_refused hins
    simp only [Bool.false_eq_true, if_false, wp_bind, wp_unwrap]
    intro p₂ hp₂
    rw [hcache] at hp₂
    obtain ⟨h₂, -, he₂, -, -⟩ := h.consolidateInner hp₂
    have he₂ : ∀ k, live (p₂.entry k) = c k := fun k => by rw [he₂, if_neg (by simp), hc]
    rintro ⟨success, p₃⟩ hins'
    cases success with
    | true =>
      rw [if_pos rfl, wp_setLoc]
      intro hs
      obtain ⟨h₃, he₃⟩ := h₂.insert hs hins'
      rw [funext he₂] at he₃
      exact .keeps (.of_page h₃ he₃)
    | false =>
      obtain rfl := insert_refused hins'
      simp only [Bool.false_eq_true, if_false, wp_bind, wp_setLoc, wp_fail]
      refine .of_page (h₂.congr (.setSplitFlag p₃)) fun k => ?_
      rw [← he₂ k]
      rfl

/-- The insert fails after `consolidate_skip_key`, if it fails. -/
def dropsKey (cfg : Config) (sizeClasses : List Nat) (guard : Option SnapshotGuard) (isRoot : Bool)
    (key : Key) (value : Value) (op : OpType) : PageLocation → Bool
  | .mini page => cfg.cacheOnly && !isRoot && guard.any (!·.refuses page.snapshotVersion) &&
      outgrown sizeClasses page key value op
  | _ => false

/-- A failed insert keeps the map, apart from the old record of the key. -/
theorem insert_cacheOnly (h : CachePage cfg lo hi p) (hc : ∀ k, live (p.entry k) = c k)
    (hl : t.loc = .mini p) (hcfg : cfg.Bounds) (hcache : cfg.cacheOnly = true) :
    wp (insert cfg sizeClasses env key value op)
      (fun _ t' => Storable cfg lo hi key value op →
        CacheOutcome cfg lo hi (written c key value op) t t')
      (fun _ => CacheKeeps cfg lo hi
        (if dropsKey cfg sizeClasses env.snapshotGuard t.parent.isNone key value op t.loc then
          Function.update c key none else c) t) t := by
  have hsame : CacheKeeps cfg lo hi c t t := ⟨by rw [hl]; exact ⟨h, hc⟩, .refl t, rfl⟩
  generalize hdrops :
    dropsKey cfg sizeClasses env.snapshotGuard t.parent.isNone key value op t.loc = drops
  rw [hl, dropsKey, hcache] at hdrops
  unfold insert
  cases hg : env.snapshotGuard with
  | none =>
    obtain rfl : drops = false := by simpa [hg] using hdrops.symm
    exact (wp_fail _).2 hsame
  | some g =>
    rw [hg, Option.any_some] at hdrops
    simp only [wp_bind, wp_get, hl, insertMini]
    refine wp_mono (wp_and (versionRuleMini_cacheOnly g hl hcache)
      (versionRuleMini_refuses g hcache p)) ?_ ?_
    · rintro q t₁ ⟨⟨hq, hver, hl₁, hk₁, hb₁, hpar⟩, hrefuses⟩
      have h₁ := h.congr hq
      have hc₁ : ∀ k, live (q.entry k) = c k := fun k => by rw [hq.entry, hc]
      rw [hrefuses] at hdrops
      rw [hcache, Bool.true_and, hpar]
      refine wp_ite (fun hroot => ?_) (fun hroot => ?_)
      · obtain rfl : drops = false := by simpa [hroot] using hdrops.symm
        exact wp_mono (insertRootMini_spec sizeClasses env g h₁ hc₁ hcfg hcache)
          (fun _ _ ho hs => (ho hs).of_kept hk₁ hb₁) (fun _ _ hk => .trans hk₁ hb₁ hk)
      · have hgrown : outgrown sizeClasses q key value op = outgrown sizeClasses p key value op := by
          rcases hver with rfl | rfl
          · rfl
          · rw [outgrown, insert_setSnapshotVersion]
            rfl
        obtain rfl : outgrown sizeClasses q key value op = drops := by
          rw [hgrown]
          simpa [hroot] using hdrops
        exact wp_mono (insertIntoMini_cacheOnly sizeClasses env g h₁ hc₁ hl₁ hcfg hcache)
          (fun _ _ ho hs => (ho hs).of_kept hk₁ hb₁) (fun _ _ hk => .trans hk₁ hb₁ hk)
    · rintro e t' ⟨rfl, hrefuses⟩
      obtain rfl : drops = false := by simpa [hrefuses] using hdrops.symm
      exact hsame

end Insert

end LeafEntry

end BfTree
