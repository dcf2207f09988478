import BfTree.LeafTxSpec

/-!
# Committed leaf transactions

What a transaction has done to its leaf once the temporary buffer is written, in either
mode: the leaf stores a map again, or it has handed the upper part of its key range to
a new leaf. Nothing else on disk has changed.
-/

namespace BfTree

open Lib LeafNode

/-- The leaf for the keys from `lo` to `hi` stores the map `c`. -/
def LeafOk (cfg : Config) (lo hi : Key) (c : Key → Option Value) (loc : PageLocation)
    (vfs : Nat → Option LeafNode) : Prop :=
  if cfg.cacheOnly then CacheLeaf cfg lo hi c loc
  else ∃ offset, LeafEntry.Leaf lo hi offset c loc vfs

/-- A cache-only tree may lose records. Nothing is said about the key that is being
written. -/
def Loses (cfg : Config) (key : Option Key) (c c' : Key → Option Value) : Prop :=
  if cfg.cacheOnly then ∀ k, some k ≠ key → c' k = c k ∨ c' k = none else c' = c

section

variable {cfg : Config} {lo hi : Key} {c c' c'' : Key → Option Value} {key : Option Key}

theorem leafOk_cacheOnly (h : cfg.cacheOnly = true) {loc : PageLocation}
    {vfs : Nat → Option LeafNode} : LeafOk cfg lo hi c loc vfs ↔ CacheLeaf cfg lo hi c loc := by
  rw [LeafOk, if_pos h]

theorem leafOk_disk (h : cfg.cacheOnly = false) {loc : PageLocation}
    {vfs : Nat → Option LeafNode} :
    LeafOk cfg lo hi c loc vfs ↔ ∃ offset, LeafEntry.Leaf lo hi offset c loc vfs := by
  rw [LeafOk, if_neg (by rw [h]; decide)]

theorem CacheLeaf.offset_eq {loc : PageLocation} (h : CacheLeaf cfg lo hi c loc) :
    loc.offset = none := by
  cases loc with
  | mini p => exact h.1.nextLevel
  | full p => exact h.elim
  | base o => exact h.elim
  | null => rfl

/-- A leaf reads the disk at its own offset only. -/
theorem LeafOk.congr {loc : PageLocation} {vfs vfs' : Nat → Option LeafNode}
    (h : LeafOk cfg lo hi c loc vfs) (hv : ∀ o, loc.offset = some o → vfs' o = vfs o) :
    LeafOk cfg lo hi c loc vfs' := by
  cases hc : cfg.cacheOnly with
  | true =>
    rw [leafOk_cacheOnly hc] at h ⊢
    exact h
  | false =>
    rw [leafOk_disk hc] at h ⊢
    obtain ⟨offset, base, hb, hbase, hcaches, hcont⟩ := h
    exact ⟨offset, base, (hv offset hcaches.offset_eq).trans hb, hbase, hcaches, hcont⟩

theorem Loses.refl (cfg : Config) (key : Option Key) (c : Key → Option Value) :
    Loses cfg key c c := by
  unfold Loses
  split
  · exact fun _ _ => .inl rfl
  · rfl

theorem Loses.trans (h : Loses cfg key c c') (h' : Loses cfg key c' c'') : Loses cfg key c c'' := by
  unfold Loses at h h' ⊢
  split
  · next hc =>
    rw [if_pos hc] at h h'
    intro k hk
    obtain he | he := h' k hk
    · rw [he]; exact h k hk
    · exact .inr he
  · next hc =>
    rw [if_neg hc] at h h'
    rw [h', h]

theorem Loses.of_none (h : Loses cfg none c c') (key : Option Key) : Loses cfg key c c' := by
  unfold Loses at h ⊢
  split
  · next hc =>
    rw [if_pos hc] at h
    exact fun k _ => h k (by simp)
  · next hc =>
    rw [if_neg hc] at h
    exact h

theorem loses_disk (h : cfg.cacheOnly = false) : Loses cfg key c c' ↔ c' = c := by
  rw [Loses, if_neg (by rw [h]; decide)]

theorem loses_cacheOnly (h : cfg.cacheOnly = true) :
    Loses cfg key c c' ↔ ∀ k, some k ≠ key → c' k = c k ∨ c' k = none := by
  rw [Loses, if_pos h]

end

namespace LeafEntry

/-- A leaf that has just been locked. -/
structure Fresh (t : LeafEntry) : Prop where
  tmpBuffer : t.tmpBuffer = none
  sibling : t.sibling = none
  offset : t.loc.offset ≠ some t.nextOffset

/-- The leaf stays at its place, and other leaves are not touched. -/
structure Frame (t t' : LeafEntry) : Prop where
  pid : t'.pid = t.pid
  offset : t'.loc.offset = t.loc.offset
  vfs : ∀ o, t.loc.offset ≠ some o → o ≠ t.nextOffset → t'.vfs o = t.vfs o

/-- The upper part of the key range has gone to a new leaf. -/
structure Halved (cfg : Config) (lo hi : Key) (c : Key → Option Value) (t t' : LeafEntry) (key : Key)
    (sibling : PageLocation) : Prop where
  lo_lt : lo < key
  lt_hi : hi = [] ∨ key < hi
  left : LeafOk cfg lo key (fun k => if k < key then c k else none) t'.loc t'.vfs
  right : LeafOk cfg key hi (fun k => if k < key then none else c k) sibling t'.vfs
  sibling_eq : t'.sibling = some sibling
  offset : sibling.offset = none ∨ sibling.offset = some t.nextOffset
  frame : Frame t t'

/-- The leaf has kept its range and stores `c`. -/
structure Settled (cfg : Config) (lo hi : Key) (c : Key → Option Value) (t t' : LeafEntry) : Prop where
  leaf : LeafOk cfg lo hi c t'.loc t'.vfs
  frame : Frame t t'
  parent : SameParent t.parent t'.parent
  sibling : t'.sibling = none
  inserted : t'.inserted = t.inserted
  root : RootStays t t'

/-- What a transaction may have done to a leaf that now stores `c`. -/
inductive Committed (cfg : Config) (lo hi : Key) (c : Key → Option Value) (t t' : LeafEntry) : Prop
  | keeps (h : Settled cfg lo hi c t t')
  | splits (key : Key) (sibling : PageLocation) (h : Halved cfg lo hi c t t' key sibling)
      (hp : Gains t t' key)

/-- `P` holds after the buffer is written. -/
def Flushes (P : LeafEntry → Prop) (t : LeafEntry) : Prop := ∀ t', t.flush = some t' → P t'

/-! ## Disk-backed leaves -/

section Disk

variable {cfg : Config} {lo hi : Key} {offset : Nat} {base : LeafNode} {t t₁ : LeafEntry}
  {c : Key → Option Value}

/-- A locked leaf, seen from within its transaction. -/
theorem Fresh.over (hf : Fresh t) (h : LeafOk cfg lo hi c t.loc t.vfs)
    (hdisk : cfg.cacheOnly = false) :
    ∃ offset base, Over lo hi offset base t ∧ content base t.loc = c := by
  rw [leafOk_disk hdisk] at h
  obtain ⟨offset, base, hb, hbase, hcaches, hcont⟩ := h
  refine ⟨offset, base, ⟨?_, ?_, hbase, hcaches⟩, funext hcont⟩
  · rw [basePage?_of_none hf.tmpBuffer, hb]
  · intro p hp
    rw [hf.tmpBuffer] at hp
    cases hp

/-- Writing the buffer touches the leaf's own offset only. -/
theorem Stores.flushes (h : Stores lo hi offset c t₁) (hdisk : cfg.cacheOnly = false)
    (ho : t.loc.offset = some offset) (hpid : t₁.pid = t.pid)
    (hv : ∀ o, o ≠ t.nextOffset → t₁.vfs o = t.vfs o) :
    Flushes (fun t' => LeafOk cfg lo hi c t'.loc t'.vfs ∧ Frame t t' ∧ t' = { t₁ with vfs := t'.vfs } ∧
      ∀ o, o ≠ offset → t'.vfs o = t₁.vfs o) t₁ := by
  intro t' ht'
  obtain ⟨t'', hflush, hleaf, hvfs, heq⟩ := flush_spec h
  obtain rfl : t'' = t' := Option.some.inj (hflush.symm.trans ht')
  have hoff : t''.loc.offset = some offset := by
    obtain ⟨base, -, -, hcaches, -⟩ := hleaf
    exact hcaches.offset_eq
  refine ⟨(leafOk_disk hdisk).2 ⟨offset, hleaf⟩, ⟨?_, ?_, fun o hne hnext => ?_⟩, heq, hvfs⟩
  · rw [heq]; exact hpid
  · rw [hoff, ho]
  · rw [hvfs o (fun he => hne (by rw [ho, he])), hv o hnext]

theorem Keeps.settled (h : Keeps lo hi offset c t t₁) (hf : Fresh t)
    (ho : t.loc.offset = some offset) (hroot : RootStays t t₁) (hdisk : cfg.cacheOnly = false) :
    Flushes (Settled cfg lo hi c t) t₁ := by
  intro t' ht'
  obtain ⟨hleaf, hframe, heq, -⟩ := h.stores.flushes hdisk ho h.kept.pid
    (fun o _ => by rw [h.kept.vfs]) t' ht'
  refine ⟨hleaf, hframe, ?_, ?_, ?_, fun hp o hl => ?_⟩
  · rw [heq]; exact h.kept.parent
  · rw [heq]; exact h.kept.sibling.trans hf.sibling
  · rw [heq]; exact h.kept.inserted
  · rw [heq]; exact hroot hp o hl

theorem SplitOff.halved {key : Key} {sibling : LeafNode} (h : SplitOff lo hi offset c t t₁ key sibling)
    (hf : Fresh t) (ho : t.loc.offset = some offset) (hdisk : cfg.cacheOnly = false) :
    Flushes (fun t' => Halved cfg lo hi c t t' key (.base t.nextOffset) ∧ t' = { t₁ with vfs := t'.vfs })
      t₁ := by
  intro t' ht'
  have hne : t.nextOffset ≠ offset := by
    rintro he
    exact hf.offset (by rw [ho, he])
  obtain ⟨hleaf, hframe, heq, hvfs⟩ := h.left.flushes hdisk ho h.pid
    (fun o hne => by rw [h.vfs, Function.update_of_ne hne]) t' ht'
  refine ⟨⟨h.lo_lt, h.lt_hi, hleaf, ?_, ?_, .inr rfl, hframe⟩, heq⟩
  · refine (leafOk_disk hdisk).2 ⟨t.nextOffset, sibling, ?_, h.right, rfl, h.right_live⟩
    rw [hvfs _ hne, h.vfs, Function.update_self]
  · rw [heq]; exact h.sibling_eq

theorem Outcome.committed (h : Outcome lo hi offset c t t₁) (hf : Fresh t)
    (ho : t.loc.offset = some offset) (hroot : RootStays t t₁) (hdisk : cfg.cacheOnly = false) :
    Flushes (Committed cfg lo hi c t) t₁ := by
  cases h with
  | keeps h => exact fun t' ht' => .keeps (h.settled hf ho hroot hdisk t' ht')
  | splits key sibling h hp =>
    intro t' ht'
    obtain ⟨hhalved, heq⟩ := h.halved hf ho hdisk t' ht'
    obtain ⟨q, hq, hspace, hpar, hins⟩ := hp
    refine .splits key _ hhalved ⟨q, hq, hspace, ?_, ?_⟩
    · rw [heq]; exact hpar
    · rw [heq]; exact hins

end Disk

/-! ## Cache-only leaves -/

section CacheOnly

variable {cfg : Config} {lo hi : Key} {t t₁ : LeafEntry} {c : Key → Option Value}

theorem CacheKeeps.settled (h : CacheKeeps cfg lo hi c t t₁) (hf : Fresh t)
    (hl : t.loc.offset = none) (hcache : cfg.cacheOnly = true) :
    Flushes (Settled cfg lo hi c t) t₁ := by
  intro t' ht'
  rw [flush_of_none (h.tmpBuffer.trans hf.tmpBuffer)] at ht'
  cases ht'
  refine ⟨(leafOk_cacheOnly hcache).2 h.leaf, ⟨h.kept.pid, ?_, fun o _ _ => ?_⟩, h.kept.parent,
    h.kept.sibling.trans hf.sibling, h.kept.inserted, fun _ o ho => ?_⟩
  · rw [h.leaf.offset_eq, hl]
  · rw [h.kept.vfs]
  · rw [ho] at hl
    cases hl

theorem CacheSplitOff.halved {key : Key} {sibling : LeafNode}
    (h : CacheSplitOff cfg lo hi c t t₁ key sibling) (hf : Fresh t) (hl : t.loc.offset = none)
    (hcache : cfg.cacheOnly = true) :
    Flushes (fun t' => Halved cfg lo hi c t t' key (.mini sibling) ∧ t' = t₁) t₁ := by
  intro t' ht'
  rw [flush_of_none (h.tmpBuffer.trans hf.tmpBuffer)] at ht'
  cases ht'
  refine ⟨⟨h.lo_lt, h.lt_hi, (leafOk_cacheOnly hcache).2 h.left,
    (leafOk_cacheOnly hcache).2 ⟨h.right, h.right_live⟩, h.sibling_eq, .inl h.right.nextLevel,
    h.pid, ?_, fun o _ _ => ?_⟩, rfl⟩
  · rw [h.left.offset_eq, hl]
  · rw [h.vfs]

theorem CacheOutcome.committed (h : CacheOutcome cfg lo hi c t t₁) (hf : Fresh t)
    (hl : t.loc.offset = none) (hcache : cfg.cacheOnly = true) :
    Flushes (Committed cfg lo hi c t) t₁ := by
  cases h with
  | keeps h => exact fun t' ht' => .keeps (h.settled hf hl hcache t' ht')
  | splits key sibling h hp =>
    intro t' ht'
    obtain ⟨hhalved, rfl⟩ := h.halved hf hl hcache t' ht'
    exact .splits key _ hhalved hp

end CacheOnly

/-! ## Transactions in either mode -/

section Transactions

variable {cfg : Config} {lo hi key : Key} {t : LeafEntry} {c : Key → Option Value} {value : Value}
  {op : OpType} (sizeClasses : List Nat) (env : AttemptEnv)

/-- On disk a write that succeeds leaves the leaf its range. -/
theorem write_settles (h : LeafOk cfg lo hi c t.loc t.vfs) (hf : Fresh t)
    (hs : Storable cfg lo hi key value op) (hc : cfg.cacheOnly = false) :
    wp (write cfg sizeClasses env key value op)
      (fun _ => Flushes (Settled cfg lo hi (written c key value op) t))
      (fun _ => Flushes (Committed cfg lo hi c t)) t := by
  obtain ⟨offset, base, hover, rfl⟩ := hf.over h hc
  refine wp_mono (wp_and (write_root cfg sizeClasses env hover hc)
    (write_spec cfg sizeClasses env hover hs.inRange hs.nonempty hs.dirty hc)) ?_ ?_
  · rintro _ t₁ ⟨hroot, hk⟩
    exact hk.settled hf hover.offset_eq hroot hc
  · rintro _ t₁ ⟨hroot, ho⟩
    exact ho.committed hf hover.offset_eq hroot hc

theorem write_commits (h : LeafOk cfg lo hi c t.loc t.vfs) (hf : Fresh t) (hcfg : cfg.Bounds)
    (hs : Storable cfg lo hi key value op) :
    wp (write cfg sizeClasses env key value op)
      (fun _ => Flushes (Committed cfg lo hi (written c key value op) t))
      (fun _ => Flushes fun t' => ∃ c', Loses cfg (some key) c c' ∧ Committed cfg lo hi c' t t') t := by
  cases hc : cfg.cacheOnly with
  | true =>
    rw [leafOk_cacheOnly hc] at h
    refine wp_mono (write_cacheOnly sizeClasses env h hs hcfg hc)
      (fun _ t₁ ho => ho.committed hf h.offset_eq hc) ?_
    rintro _ t₁ ⟨c', hl, hk⟩ t' ht'
    refine ⟨c', (loses_cacheOnly hc).2 fun k hk => hl k fun he => hk (by rw [he]), ?_⟩
    exact .keeps (hk.settled hf h.offset_eq hc t' ht')
  | false =>
    exact wp_mono (write_settles sizeClasses env h hf hs hc)
      (fun _ t₁ hk t' ht' => .keeps (hk t' ht')) fun _ t₁ ho t' ht' => ⟨c, .refl _ _ _, ho t' ht'⟩

theorem readRecord_commits (h : LeafOk cfg lo hi c t.loc t.vfs) (hf : Fresh t)
    (hr : InRange lo hi key) (hne : key ≠ []) (out : List UInt8) :
    wp (readRecord cfg sizeClasses env key out)
      (fun r t₁ => ReadsAs c key r.1 r.2 ∧ Flushes (Committed cfg lo hi c t) t₁)
      (fun _ => Flushes (Committed cfg lo hi c t)) t := by
  cases hc : cfg.cacheOnly with
  | true =>
    rw [leafOk_cacheOnly hc] at h
    exact wp_mono (readRecord_cacheOnly sizeClasses env h out hc)
      (fun _ t₁ hk => ⟨hk.1, fun t' ht' => .keeps (hk.2.settled hf h.offset_eq hc t' ht')⟩) (fun _ _ hf => hf.elim)
  | false =>
    obtain ⟨offset, base, hover, rfl⟩ := hf.over h hc
    refine wp_mono (wp_and (readRecord_root cfg sizeClasses env hover hr out hc)
      (readRecord_spec cfg sizeClasses env hover hr hne out hc)) ?_ ?_
    · rintro _ t₁ ⟨hroot, hread, ho⟩
      exact ⟨hread, ho.committed hf hover.offset_eq hroot hc⟩
    · rintro _ t₁ ⟨hroot, ho⟩
      exact ho.committed hf hover.offset_eq hroot hc

theorem evict_commits (h : LeafOk cfg lo hi c t.loc t.vfs) (hf : Fresh t) (env : Env) :
    Ensures (evict cfg env)
      (Flushes fun t' => ∃ c', Loses cfg none c c' ∧ Committed cfg lo hi c' t t') t := by
  cases hc : cfg.cacheOnly with
  | true =>
    rw [leafOk_cacheOnly hc] at h
    refine (evict_cacheOnly h env hc).mono ?_
    rintro t₁ ⟨c', hl, hk⟩ t' ht'
    exact ⟨c', (loses_cacheOnly hc).2 fun k _ => hl k, .keeps (hk.settled hf h.offset_eq hc t' ht')⟩
  | false =>
    obtain ⟨offset, base, hover, rfl⟩ := hf.over h hc
    have hend : ∀ t₁, RootStays t t₁ ∧ Outcome lo hi offset (content base t.loc) t t₁ →
        Flushes (fun t' => ∃ c', Loses cfg none (content base t.loc) c' ∧
          Committed cfg lo hi c' t t') t₁ := by
      rintro t₁ ⟨hroot, ho⟩ t' ht'
      exact ⟨_, .refl _ _ _, ho.committed hf hover.offset_eq hroot hc t' ht'⟩
    exact wp_mono (wp_and (evict_root cfg env) (evict_spec cfg hover env hc))
      (fun _ => hend) (fun _ => hend)

theorem getSplitFlag_commits (h : LeafOk cfg lo hi c t.loc t.vfs) (hf : Fresh t) :
    Ensures getSplitFlag (Flushes (Settled cfg lo hi c t)) t := by
  cases hc : cfg.cacheOnly with
  | true =>
    rw [leafOk_cacheOnly hc] at h
    exact (getSplitFlag_cacheOnly h).mono fun t₁ hk => hk.settled hf h.offset_eq hc
  | false =>
    obtain ⟨offset, base, hover, rfl⟩ := hf.over h hc
    have hend : ∀ t₁, RootStays t t₁ ∧ Keeps lo hi offset (content base t.loc) t t₁ →
        Flushes (Settled cfg lo hi (content base t.loc) t) t₁ :=
      fun t₁ ho => ho.2.settled hf hover.offset_eq ho.1 hc
    exact wp_mono (wp_and (getSplitFlag_root hover) (getSplitFlag_spec hover))
      (fun _ => hend) (fun _ => hend)

/-- The root leaf has been cut in two, and only the pages and the disk have changed. -/
def RootHalved (cfg : Config) (c : Key → Option Value) (t : LeafEntry) (key : Key) (t' : LeafEntry) :
    Prop :=
  ∃ sibling, Halved cfg [] [] c t t' key sibling ∧ SameParent t.parent t'.parent ∧
    t'.inserted = t.inserted

theorem splitRootLeaf_commits (h : LeafOk cfg [] [] c t.loc t.vfs) (hf : Fresh t)
    (hl : cfg.cacheOnly = false → ∃ offset, t.loc = .base offset) (g : SnapshotGuard) :
    wp (splitRootLeaf cfg env g)
      (fun key => Flushes (RootHalved cfg c t key))
      (fun _ => Flushes (Settled cfg [] [] c t)) t := by
  cases hc : cfg.cacheOnly with
  | true =>
    rw [leafOk_cacheOnly hc] at h
    refine wp_mono (splitRootLeaf_cacheOnly env h g hc) ?_
      (fun _ t₁ hk => hk.settled hf h.offset_eq hc)
    rintro key t₁ ⟨sibling, hs, hp, hins⟩ t' ht'
    obtain ⟨hhalved, rfl⟩ := hs.halved hf h.offset_eq hc t' ht'
    exact ⟨_, hhalved, hp, hins⟩
  | false =>
    obtain ⟨offset, base, hover, rfl⟩ := hf.over h hc
    obtain ⟨o, hl⟩ := hl hc
    have ho : o = offset := by
      have := hover.caches
      rwa [hl] at this
    refine wp_mono (splitRootLeaf_spec cfg env hover (ho ▸ hl) g hc) ?_
      (fun _ t₁ hk => hk.1.settled hf hover.offset_eq (fun _ o ho => hk.2.trans ho) hc)
    rintro key t₁ ⟨sibling, hs, hp, hins⟩ t' ht'
    obtain ⟨hhalved, heq⟩ := hs.halved hf hover.offset_eq hc t' ht'
    refine ⟨_, hhalved, ?_, ?_⟩
    · rw [heq]; exact hp
    · rw [heq]; exact hins

end Transactions

end LeafEntry

end BfTree
