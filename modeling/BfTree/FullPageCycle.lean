import BfTree.LeafTx
import BfTree.MiniPageSpec

/-!
# BfTree.FullPageCycle — a base page is cached whole and written back

A base page is promoted to a full page, takes writes and moves through the circular buffer
there, and is merged back when it is evicted or full. Every step is a transaction under the
lock of the leaf; a dirty buffer goes to disk when the lock is released.

`Cached` is the invariant of the full page: what it reads is the base page with the writes
so far, and a key without a dirty record still reads as it does on disk. `WrittenBack` is
what the merge leaves on disk.
-/

namespace BfTree

open Lib LeafNode

/-! ## The cycle -/

/-- An insert or a delete. -/
structure LeafWrite where
  key : Key
  value : Value
  op : OpType
  isDirty : op.isDirty = true

/-- The map after some writes. -/
def logged (c : Key → Option Value) (log : List LeafWrite) : Key → Option Value :=
  log.foldl (fun c w => written c w.key w.value w.op) c

inductive FullEvent where
  | write (env : Env) (w : LeafWrite)
  | move (env : Env)

/-- A leaf with the writes it has accepted. -/
structure LoggedLeaf where
  entry : LeafEntry
  log : List LeafWrite

namespace LeafEntry

/-- One transaction under the lock, up to the release. -/
def transact (m : M Unit) (t : LeafEntry) : Option (Except TreeError Unit × LeafEntry) := do
  let (r, t) ← m { t with tmpBuffer := none }
  let t ← t.flush
  some (r, t)

/-- An event while the page is cached whole. A write that finds no room has merged the page
itself; then the cycle is over. -/
def fullStep (cfg : Config) (sizeClasses : List Nat) (s : LoggedLeaf) (event : FullEvent) :
    Option LoggedLeaf :=
  match s.entry.loc with
  | .full _ =>
    match event with
    | .write env w => do
      let (r, t) ← transact (insert cfg sizeClasses env w.key w.value w.op) s.entry
      match r with
      | .ok () => some ⟨t, s.log ++ [w]⟩
      | .error _ => some ⟨t, s.log⟩
    | .move env => do
      let (_, t) ← transact (moveCachePageToTail cfg env) s.entry
      some ⟨t, s.log⟩
  | _ => some s

/-- Promote the base page and apply the events. -/
def cacheWhole (cfg : Config) (sizeClasses : List Nat) (env : Env) (events : List FullEvent)
    (t : LeafEntry) : Option LoggedLeaf := do
  let (_, t) ← transact (upgradeLeaf cfg env) t
  events.foldlM (fullStep cfg sizeClasses) ⟨t, []⟩

/-- Merge the full page back. -/
def writeBack (cfg : Config) (s : LoggedLeaf) : Option LoggedLeaf :=
  match s.entry.loc with
  | .full page => do
    let (_, t) ← transact (mergeFullPage cfg page) s.entry
    some ⟨t, s.log⟩
  | _ => some s

end LeafEntry

/-! ## Invariants -/

/-- A base page that can be cached whole. -/
structure Cacheable (cfg : Config) (base : LeafNode) : Prop where
  wf : base.WF
  isBasePage : base.isBasePage = true
  nodeSize : base.nodeSize = cfg.leafPageSize
  ops : ∀ m ∈ base.metas, m.opType = .insert ∨ m.opType = .delete

/-- The full page over `base` after the writes in `log`. -/
structure Cached (base : LeafNode) (offset : Nat) (log : List LeafWrite) (p : LeafNode) : Prop where
  wf : p.WF
  nodeSize : p.nodeSize = base.nodeSize
  notCacheOnly : p.isCacheOnlyLeaf = false
  nextLevel : p.nextLevel = some offset
  lowFence : p.lowFence = base.lowFence
  highFence : p.highFence = base.highFence
  reads : ∀ k, live (p.entry k) = logged (fun k => live (base.entry k)) log k
  clean : ∀ k, p.dirtyAt k = false → live (p.entry k) = live (base.entry k)
  noWrite : log = [] → ∀ k, p.dirtyAt k = false
  version : p.versionChanged = base.versionChanged ∧ p.snapshotVersion = base.snapshotVersion ∨
    base.snapshotVersion < p.snapshotVersion

/-- What the cycle leaves on disk. -/
structure WrittenBack (base : LeafNode) (log : List LeafWrite) (disk : LeafNode) : Prop where
  wf : disk.WF
  isBasePage : disk.isBasePage = true
  nextLevel : disk.nextLevel = none
  ops : ∀ m ∈ disk.metas, m.opType = .insert ∨ m.opType = .delete
  lowFence : disk.lowFence = base.lowFence
  highFence : disk.highFence = base.highFence
  reads : ∀ k, live (disk.entry k) = logged (fun k => live (base.entry k)) log k
  /-- Without a write and without a new version nothing is written. -/
  untouched : log = [] → base.versionChanged = false → disk.snapshotVersion = base.snapshotVersion →
    disk = base

section

variable {cfg : Config} {base p p' : LeafNode} {offset : Nat} {log : List LeafWrite}

theorem Cacheable.clean_entry (h : Cacheable cfg base) {k : Key} {e : OpType × Value}
    (he : base.entry k = some e) : e.1 = .insert ∨ e.1 = .delete := by
  obtain ⟨m, hm, -, hop, -⟩ := (entry_eq_some h.wf).1 he
  exact hop ▸ h.ops m hm

/-- **Promotion.** -/
theorem Cacheable.upgrade (h : Cacheable cfg base) (offset : Nat) :
    ∃ full, base.covertInsertRecordsToCache = some full ∧
      Cached base offset [] { full with nextLevel := some offset } := by
  have hnot : (base.metas.any fun m => m.opType.isCache) = false := by
    rw [List.any_eq_false]
    intro m hm
    rcases h.ops m hm with hop | hop <;> simp [hop, OpType.isCache]
  obtain ⟨full, hfull⟩ : ∃ full, base.covertInsertRecordsToCache = some full := by
    rw [covertInsertRecordsToCache, hnot]
    exact ⟨_, rfl⟩
  obtain ⟨hw, hh, -, he⟩ := covertInsertRecordsToCache_spec h.wf hfull
  have hentry : ∀ k, LeafNode.entry { full with nextLevel := some offset } k =
      (base.entry k).map fun e => (if e.1 = .insert then .cache else .phantom, e.2) := he
  have hlive : ∀ k, live (LeafNode.entry { full with nextLevel := some offset } k) = live (base.entry k) := by
    intro k
    rw [hentry]
    cases hk : base.entry k with
    | none => rfl
    | some e =>
      obtain ⟨op, v⟩ := e
      rcases h.clean_entry hk with hop | hop <;> (dsimp only at hop; subst hop; rfl)
  have hbase := h.isBasePage
  simp only [LeafNode.isBasePage, Bool.and_eq_true, Bool.not_eq_true'] at hbase
  refine ⟨full, hfull, ⟨hw.prefixLen_eq, hw.no_fence, hw.sorted, hw.inRange⟩, hh.nodeSize,
    hh.isCacheOnlyLeaf.trans hbase.1, rfl, hh.lowFence, hh.highFence, hlive, fun k _ => hlive k, ?_,
    .inl ⟨hh.versionChanged, hh.snapshotVersion⟩⟩
  intro _ k
  rw [LeafNode.dirtyAt, hentry]
  cases base.entry k with
  | none => rfl
  | some e =>
    rw [Option.map_some, Option.any_some]
    split <;> rfl

theorem Cached.isBasePage (h : Cached base offset log p) : p.isBasePage = false := by
  simp [LeafNode.isBasePage, h.nextLevel]

/-- The version rules lift a page to a greater version only. -/
theorem Cached.setSnapshotVersion (h : Cached base offset log p) {v : Nat} (hv : p.snapshotVersion < v) :
    Cached base offset log (p.setSnapshotVersion v true) where
  wf := h.wf.setSnapshotVersion v true
  nodeSize := h.nodeSize
  notCacheOnly := h.notCacheOnly
  nextLevel := h.nextLevel
  lowFence := h.lowFence
  highFence := h.highFence
  reads := h.reads
  clean := h.clean
  noWrite := h.noWrite
  version := .inr (by
    rcases h.version with ⟨-, hsame⟩ | hlt
    · exact hsame ▸ hv
    · exact hlt.trans hv)

/-- **Writes.** -/
theorem Cached.insert (h : Cached base offset log p) (w : LeafWrite) (hk : base.Covers w.key) {mf : Nat}
    (hins : p.insert w.key w.value w.op mf = some (true, p')) : Cached base offset (log ++ [w]) p' := by
  have hcov : p.Covers w.key := by rwa [LeafNode.Covers, h.lowFence, h.highFence]
  obtain ⟨hw, hh, -, he⟩ := insert_spec h.wf hcov hins
  have he := he rfl
  rw [h.isBasePage] at he
  refine ⟨hw, hh.nodeSize.trans h.nodeSize, hh.isCacheOnlyLeaf.trans h.notCacheOnly,
    hh.nextLevel.trans h.nextLevel, hh.lowFence.trans h.lowFence, hh.highFence.trans h.highFence, ?_, ?_,
    by simp, ?_⟩
  · intro k
    rw [logged, List.foldl_append]
    change _ = written (logged _ log) w.key w.value w.op k
    rw [he, written]
    split
    · exact live_insertEntry _ _ _ _
    · exact h.reads k
  · intro k hd
    rw [LeafNode.dirtyAt, he] at hd
    rw [he]
    split at hd
    · obtain ⟨e, hs, hop⟩ := insertEntry_eq_some w.op w.value (p.entry w.key)
      rw [hs, Option.any_some, hop, w.isDirty] at hd
      cases hd
    · rename_i hne
      rw [if_neg hne]
      exact h.clean k hd
  · rw [hh.versionChanged, hh.snapshotVersion]
    exact h.version

/-- An insert or a delete always gets an answer. -/
theorem insert_answers {w : LeafWrite} (h : p.WF) (hk : p.Covers w.key) (mf : Nat) :
    ∃ ok p', p.insert w.key w.value w.op mf = some (ok, p') := by
  rcases insert_cases h hk w.value w.op mf with ⟨A, m, B, -, -, heq⟩ | ⟨A, B, -, -, heq⟩
  · have hcache : w.op ≠ .cache := fun hop => by
      have := w.isDirty
      rw [hop] at this
      cases this
    rw [heq, insertExisting]
    split
    · exact ⟨_, _, rfl⟩
    · split
      · exact ⟨_, _, rfl⟩
      · split
        · exact ⟨_, _, rfl⟩
        · exact ⟨_, _, rfl⟩
  · exact ⟨_, _, heq⟩

/-- **Merge of a page with changes.** -/
theorem Cached.merge (h : Cached base offset log p)
    (hchanged : p.needActuallyMergeToDisk = true ∨ p.versionChanged = true) :
    WrittenBack base log
      { p.convertCacheRecordsToInsert.clearSnapshotVersionChangedFlag with nextLevel := none } := by
  obtain ⟨hw, hh, he⟩ := convertCacheRecordsToInsert_spec h.wf
  have hentry : ∀ k, LeafNode.entry
      { p.convertCacheRecordsToInsert.clearSnapshotVersionChangedFlag with nextLevel := none } k =
      (p.entry k).map fun e => (toDirty e.1, e.2) := he
  refine ⟨⟨hw.prefixLen_eq, hw.no_fence, hw.sorted, hw.inRange⟩, ?_, rfl, ?_, hh.lowFence.trans h.lowFence,
    hh.highFence.trans h.highFence, ?_, ?_⟩
  · simp [LeafNode.isBasePage, LeafNode.clearSnapshotVersionChangedFlag, hh.isCacheOnlyLeaf, h.notCacheOnly]
  · intro m hm
    obtain ⟨m', -, rfl⟩ := List.mem_map.1 hm
    cases m'.opType <;> simp
  · intro k
    rw [hentry, ← h.reads]
    cases p.entry k with
    | none => rfl
    | some e => obtain ⟨op, v⟩ := e; cases op <;> rfl
  · intro hlog hbase hsame
    exfalso
    have hclean : p.needActuallyMergeToDisk = false :=
      (needActuallyMergeToDisk_eq_false h.wf).2 (h.noWrite hlog)
    have hversion : p.snapshotVersion = base.snapshotVersion := hsame
    rcases h.version with ⟨hflag, -⟩ | hlt
    · rw [hflag, hbase, hclean] at hchanged
      simp at hchanged
    · omega

/-- The base page itself, if it reads as it should. -/
theorem Cacheable.writtenBack_of_reads (hb : Cacheable cfg base)
    (hreads : ∀ k, live (base.entry k) = logged (fun k => live (base.entry k)) log k) :
    WrittenBack base log base := by
  have hbase := hb.isBasePage
  simp only [LeafNode.isBasePage, Bool.and_eq_true, Option.isNone_iff_eq_none] at hbase
  exact ⟨hb.wf, hb.isBasePage, hbase.2, hb.ops, rfl, rfl, hreads, fun _ _ _ => rfl⟩

theorem Cacheable.writtenBack (hb : Cacheable cfg base) : WrittenBack base [] base :=
  hb.writtenBack_of_reads fun _ => rfl

/-- **Merge of a page without changes.** The base page stays. -/
theorem Cached.merge_clean (hb : Cacheable cfg base) (h : Cached base offset log p)
    (hclean : p.needActuallyMergeToDisk = false) : WrittenBack base log base := by
  refine hb.writtenBack_of_reads fun k => ?_
  rw [← h.reads, h.clean k ((needActuallyMergeToDisk_eq_false h.wf).1 hclean k)]

end

/-! ## Transactions -/

namespace LeafEntry

variable {cfg : Config} {base p : LeafNode} {offset : Nat} {log : List LeafWrite} {t t₀ : LeafEntry}

/-- A transaction whose program leaves a state that can be released. -/
theorem transact_of_twp {m : M Unit} {R : Except TreeError Unit → LeafEntry → Prop}
    (h : twp m (fun _ t' => ∃ t'', t'.flush = some t'' ∧ R (.ok ()) t'')
      (fun e t' => ∃ t'', t'.flush = some t'' ∧ R (.error e) t'') { t with tmpBuffer := none }) :
    ∃ r t', transact m t = some (r, t') ∧ R r t' := by
  obtain ⟨⟨⟩, t', hm, t'', hflush, hR⟩ | ⟨e, t', hm, t'', hflush, hR⟩ := h.returns
  · exact ⟨_, t'', by simp [transact, hm, hflush], hR⟩
  · exact ⟨_, t'', by simp [transact, hm, hflush], hR⟩

/-- The leaf is cached whole and nothing has reached the disk since `t₀`. -/
structure InCache (base : LeafNode) (offset : Nat) (t₀ : LeafEntry) (log : List LeafWrite) (t : LeafEntry) :
    Prop where
  cached : ∃ p, t.loc = .full p ∧ Cached base offset log p
  vfs : t.vfs = t₀.vfs

/-- The leaf is on disk again. No other page of the disk has changed. -/
structure OnDisk (base : LeafNode) (offset : Nat) (t₀ : LeafEntry) (log : List LeafWrite) (t : LeafEntry) :
    Prop where
  loc : t.loc = .base offset
  written : ∃ disk, t.vfs = Function.update t₀.vfs offset (some disk) ∧ WrittenBack base log disk

theorem mergeFullPage_twp (hb : Cacheable cfg base) (hvfs : t₀.vfs offset = some base)
    (hc : Cached base offset log p) (hl : t.loc = .full p) (ht : t.tmpBuffer = none)
    (hsame : t.vfs = t₀.vfs) :
    twp (mergeFullPage cfg p)
      (fun _ t' => ∃ t'', t'.flush = some t'' ∧ OnDisk base offset t₀ log t'')
      (fun _ _ => False) t := by
  have hloc : twp changeToBaseLoc (fun _ t' => t' = { t with loc := .base offset })
      (fun _ _ => False) t := by
    simp only [changeToBaseLoc, twp_bind, twp_get, hl, twp_unwrap]
    exact ⟨offset, hc.nextLevel, rfl⟩
  simp only [mergeFullPage, twp_bind, twp_assert]
  refine ⟨by simp [hc.nodeSize, hb.nodeSize], twp_ite (fun hclean => ?_) (fun hchanged => ?_)⟩
  · refine twp_mono hloc ?_ (fun _ _ hf => hf)
    rintro _ t' rfl
    simp only [Bool.and_eq_true, Bool.not_eq_true'] at hclean
    refine ⟨{ t with loc := .base offset }, flush_of_none ht, rfl, base, ?_, hc.merge_clean hb hclean.1⟩
    rw [← hvfs, Function.update_eq_self]
    exact hsame
  · rw [twp_bind]
    refine twp_mono hloc ?_ (fun _ _ hf => hf)
    rintro _ t' rfl
    simp only [twp_bind, twp_get, twp_assert, ht]
    refine ⟨rfl, _, rfl, rfl, _, ?_, hc.merge ?_⟩
    · exact congrArg (Function.update · offset _) hsame
    · simpa [Bool.not_eq_true, or_iff_not_imp_left] using hchanged

theorem twp_versionRule {α : Type} {g : SnapshotGuard} {ver : Nat} {same : α} {lift : M α}
    {save : Nat → M α} {Q : α → LeafEntry → Prop} {E : TreeError → LeafEntry → Prop} (hsame : Q same t)
    (hfail : E .needRestart t) (hlift : ver < g.version → twp lift Q E t)
    (hsave : ∀ slot, ver < g.version → twp (save slot) Q E t) :
    twp (versionRule g ver same lift save) Q E t := by
  unfold versionRule
  cases g.slot with
  | none => exact (twp_pure same).2 hsame
  | some slot =>
    cases g.phase with
    | rest => exact twp_ite hlift (fun _ => (twp_pure same).2 hsame)
    | prepare =>
      exact twp_ite (fun _ => (twp_fail _).2 hfail) (fun _ => (twp_pure same).2 hsame)
    | inProgress | sweep =>
      exact twp_ite (hsave slot) (fun _ => (twp_pure same).2 hsame)

theorem versionRuleFull_twp (hc : Cached base offset log p) (hl : t.loc = .full p)
    (ht : t.tmpBuffer = none) (hsame : t.vfs = t₀.vfs) (g : SnapshotGuard) :
    twp (versionRuleFull g p)
      (fun p' t' => Cached base offset log p' ∧ t'.loc = .full p' ∧ t'.tmpBuffer = none ∧
        t'.vfs = t₀.vfs)
      (fun _ t' => t' = t) t := by
  simp only [versionRuleFull, twp_bind, twp_get]
  refine twp_versionRule ⟨hc, hl, ht, hsame⟩ rfl (fun hlt => ?_) (fun slot hlt => ?_)
  · exact ⟨hc.setSnapshotVersion hlt, rfl, ht, hsame⟩
  · exact ⟨hc.setSnapshotVersion hlt, rfl, ht, hsame⟩

/-- **A write to the full page** is accepted, or it changes nothing, or it finds no room and
merges the page. -/
theorem insert_twp (hcfg : cfg.cacheOnly = false) (hb : Cacheable cfg base)
    (hvfs : t₀.vfs offset = some base) (hc : Cached base offset log p) (hl : t.loc = .full p)
    (ht : t.tmpBuffer = none) (hsame : t.vfs = t₀.vfs) (w : LeafWrite) (hk : base.Covers w.key)
    (sizeClasses : List Nat) (env : Env) :
    twp (insert cfg sizeClasses env w.key w.value w.op)
      (fun _ t' => ∃ t'', t'.flush = some t'' ∧ InCache base offset t₀ (log ++ [w]) t'')
      (fun _ t' => ∃ t'', t'.flush = some t'' ∧
        (InCache base offset t₀ log t'' ∨ OnDisk base offset t₀ log t'')) t := by
  have hstay : ∃ t'', t.flush = some t'' ∧
      (InCache base offset t₀ log t'' ∨ OnDisk base offset t₀ log t'') :=
    ⟨t, flush_of_none ht, .inl ⟨⟨p, hl, hc⟩, hsame⟩⟩
  unfold insert
  cases env.snapshotGuard with
  | none => exact hstay
  | some g =>
    simp only [twp_bind, twp_get, hl, hcfg, insertFull]
    rw [if_neg (by simp), twp_bind]
    refine twp_mono (versionRuleFull_twp hc hl ht hsame g) ?_ ?_
    · rintro q t₁ ⟨hq, hl₁, ht₁, hsame₁⟩
      have hcov : q.Covers w.key := by rwa [LeafNode.Covers, hq.lowFence, hq.highFence]
      obtain ⟨ok, q', hins⟩ := insert_answers hq.wf hcov cfg.maxFenceLen
      rw [twp_bind, twp_unwrap]
      refine ⟨(ok, q'), hins, ?_⟩
      cases ok with
      | true =>
        exact ⟨_, flush_of_none ht₁, ⟨q', rfl, hq.insert w hk hins⟩, hsame₁⟩
      | false =>
        obtain rfl := insert_refused hins
        simp only [setLoc, twp_bind, twp_modify, Bool.false_eq_true, if_false,
          mergeFullPageAndDealloc, twp_attempt, twp_fail]
        refine ⟨fun _ => ?_, fun e _ => ?_⟩
        · refine twp_mono (mergeFullPage_twp hb hvfs hq rfl ht₁ hsame₁) ?_ (fun _ _ hf => hf.elim)
          rintro _ t' ⟨t'', hflush, hdisk⟩
          exact ⟨t'', hflush, .inr hdisk⟩
        · exact ⟨_, flush_of_none ht₁, .inl ⟨⟨q', rfl, hq⟩, hsame₁⟩⟩
    · rintro e t' rfl
      exact hstay

theorem move_twp (hb : Cacheable cfg base) (hc : Cached base offset log p) (hl : t.loc = .full p)
    (ht : t.tmpBuffer = none) (hsame : t.vfs = t₀.vfs) (env : Env) :
    twp (moveCachePageToTail cfg env)
      (fun _ t' => ∃ t'', t'.flush = some t'' ∧ InCache base offset t₀ log t'')
      (fun _ t' => ∃ t'', t'.flush = some t'' ∧ InCache base offset t₀ log t'') t := by
  have hstay : ∃ t'', t.flush = some t'' ∧ InCache base offset t₀ log t'' :=
    ⟨t, flush_of_none ht, ⟨p, hl, hc⟩, hsame⟩
  simp only [moveCachePageToTail, twp_bind, twp_get, hl, twp_assert, twp_attempt]
  refine ⟨by simp [hc.nodeSize, hb.nodeSize], fun _ => ⟨fun _ => ?_, fun _ _ => hstay⟩, fun _ _ => hstay⟩
  exact ⟨_, flush_of_none ht, ⟨p, rfl, hc⟩, hsame⟩

theorem upgradeLeaf_twp (hb : Cacheable cfg base) (hl : t.loc = .base offset)
    (ht : t.tmpBuffer = none) (hvfs : t.vfs offset = some base) (env : Env) :
    twp (upgradeLeaf cfg env)
      (fun _ t' => ∃ t'', t'.flush = some t'' ∧ InCache base offset t [] t'')
      (fun _ t' => ∃ t'', t'.flush = some t'' ∧ t''.loc = .base offset ∧ t''.vfs = t.vfs) t := by
  obtain ⟨full, hfull, hcached⟩ := hb.upgrade offset
  simp only [upgradeLeaf, loadBasePage, upgradeToFullPage, twp_bind, twp_get, hl, ht,
    twp_unwrap, twp_attempt, twp_assert, twp_pure]
  refine ⟨base, hvfs, fun _ => ⟨by simp [hb.nodeSize], full, hfull, ?_⟩, fun e _ => ?_⟩
  · exact ⟨_, rfl, ⟨_, rfl, hcached⟩, rfl⟩
  · exact ⟨_, rfl, hl, rfl⟩

/-- **End of the cycle.** -/
theorem writeBack_spec {s : LoggedLeaf} (hb : Cacheable cfg base) (hvfs : t₀.vfs offset = some base)
    (h : InCache base offset t₀ s.log s.entry ∨ OnDisk base offset t₀ s.log s.entry) :
    ∃ s', writeBack cfg s = some s' ∧ s'.log = s.log ∧ OnDisk base offset t₀ s.log s'.entry := by
  rcases h with ⟨⟨p, hl, hc⟩, hsame⟩ | h
  · obtain ⟨r, t', ht', hdisk⟩ := transact_of_twp (R := fun _ => OnDisk base offset t₀ s.log)
      (twp_mono (mergeFullPage_twp (t := { s.entry with tmpBuffer := none }) hb hvfs hc hl rfl hsame)
        (fun _ _ h => h) (fun _ _ hf => hf.elim))
    exact ⟨⟨t', s.log⟩, by simp [writeBack, hl, ht'], rfl, hdisk⟩
  · exact ⟨s, by simp [writeBack, h.loc], rfl, h⟩

/-- **One event.** -/
theorem fullStep_spec {s : LoggedLeaf} {event : FullEvent} (hcfg : cfg.cacheOnly = false)
    (hb : Cacheable cfg base) (hvfs : t₀.vfs offset = some base)
    (hk : ∀ env w, event = .write env w → base.Covers w.key)
    (h : InCache base offset t₀ s.log s.entry ∨ OnDisk base offset t₀ s.log s.entry)
    (sizeClasses : List Nat) :
    ∃ s', fullStep cfg sizeClasses s event = some s' ∧
      (InCache base offset t₀ s'.log s'.entry ∨ OnDisk base offset t₀ s'.log s'.entry) := by
  rcases h with ⟨⟨p, hl, hc⟩, hsame⟩ | h
  · cases event with
    | write env w =>
      obtain ⟨r, t', ht', hR⟩ := transact_of_twp (R := fun r t' => match r with
          | .ok () => InCache base offset t₀ (s.log ++ [w]) t'
          | .error _ => InCache base offset t₀ s.log t' ∨ OnDisk base offset t₀ s.log t')
        (insert_twp (t := { s.entry with tmpBuffer := none }) hcfg hb hvfs hc hl rfl hsame w
          (hk env w rfl) sizeClasses env)
      cases r with
      | ok => exact ⟨⟨t', s.log ++ [w]⟩, by simp [fullStep, hl, ht'], .inl hR⟩
      | error e => exact ⟨⟨t', s.log⟩, by simp [fullStep, hl, ht'], hR⟩
    | move env =>
      obtain ⟨r, t', ht', hR⟩ := transact_of_twp (R := fun _ => InCache base offset t₀ s.log)
        (move_twp (t := { s.entry with tmpBuffer := none }) hb hc hl rfl hsame env)
      exact ⟨⟨t', s.log⟩, by simp [fullStep, hl, ht'], .inl hR⟩
  · exact ⟨s, by simp [fullStep, h.loc], .inr h⟩

/-- **A run of events.** -/
theorem foldlM_fullStep_spec {events : List FullEvent} (hcfg : cfg.cacheOnly = false)
    (hb : Cacheable cfg base) (hvfs : t₀.vfs offset = some base)
    (hk : ∀ env w, .write env w ∈ events → base.Covers w.key) (sizeClasses : List Nat) {s : LoggedLeaf}
    (h : InCache base offset t₀ s.log s.entry ∨ OnDisk base offset t₀ s.log s.entry) :
    ∃ s', events.foldlM (fullStep cfg sizeClasses) s = some s' ∧
      (InCache base offset t₀ s'.log s'.entry ∨ OnDisk base offset t₀ s'.log s'.entry) := by
  induction events generalizing s with
  | nil => exact ⟨s, rfl, h⟩
  | cons event events ih =>
    obtain ⟨s₁, hstep, h₁⟩ := fullStep_spec hcfg hb hvfs
      (fun env w he => hk env w (he ▸ List.mem_cons_self)) h sizeClasses
    rw [List.foldlM_cons, hstep]
    exact ih (fun env w hw => hk env w (List.mem_cons_of_mem _ hw)) h₁

end LeafEntry

end BfTree
