import BfTree.MiniPageOp
import BfTree.Nodes.SplitKey

/-!
# What a disk-backed leaf stores

The records of a leaf are spread over two layers: the base page on disk and the page
that caches it. The upper layer may hold any version of a record, but a clean version
is always the one of the base page, so that it can be dropped at any time.
-/

namespace BfTree

open Lib LeafNode

/-- The newest version of a record: the one of the upper layer if it has any. -/
def overlay (upper : Option (OpType × Value)) (lower : Option Value) : Option Value :=
  match upper with
  | some e => live (some e)
  | none => lower

@[simp] theorem overlay_none (lower : Option Value) : overlay none lower = lower := rfl

@[simp] theorem overlay_some (e : OpType × Value) (lower : Option Value) :
    overlay (some e) lower = live (some e) := rfl

/-- A base page holds inserts and deletes only. -/
structure BasePage (lo hi : Key) (p : LeafNode) : Prop where
  wf : p.WF
  hasFence : p.hasFence = true
  isBasePage : p.isBasePage = true
  lowFence : p.lowFence = lo
  highFence : p.highFence = hi
  dirty : ∀ k e, p.entry k = some e → e.1.isDirty = true
  nonempty : p.entry [] = none

/-- A mini page over the base page at `offset`. -/
structure MiniPage (lo hi : Key) (offset : Nat) (base p : LeafNode) : Prop where
  wf : p.WF
  hasFence : p.hasFence = false
  notCacheOnly : p.isCacheOnlyLeaf = false
  nextLevel : p.nextLevel = some offset
  inRange : ∀ k, p.entry k ≠ none → InRange lo hi k
  nonempty : p.entry [] = none
  clean : ∀ k e, p.entry k = some e → e.1.isDirty = false → live (some e) = live (base.entry k)

/-- A full page over the base page at `offset`. -/
structure FullPage (lo hi : Key) (offset : Nat) (base p : LeafNode) : Prop where
  wf : p.WF
  hasFence : p.hasFence = true
  notCacheOnly : p.isCacheOnlyLeaf = false
  nextLevel : p.nextLevel = some offset
  lowFence : p.lowFence = lo
  highFence : p.highFence = hi
  nonempty : p.entry [] = none
  clean : ∀ k, p.dirtyAt k = false → live (p.entry k) = live (base.entry k)

/-- The page-table entry of a leaf whose base page is `base`. -/
def Caches (lo hi : Key) (offset : Nat) (base : LeafNode) : PageLocation → Prop
  | .mini p => MiniPage lo hi offset base p
  | .full p => FullPage lo hi offset base p
  | .base o => o = offset
  | .null => False

theorem Caches.offset_eq {lo hi : Key} {offset : Nat} {base : LeafNode} {loc : PageLocation}
    (h : Caches lo hi offset base loc) : loc.offset = some offset := by
  cases loc with
  | mini p => exact MiniPage.nextLevel h
  | full p => exact FullPage.nextLevel h
  | base o => exact congrArg some h
  | null => exact h.elim

/-- The records of a leaf. -/
def content (base : LeafNode) (loc : PageLocation) (k : Key) : Option Value :=
  match loc with
  | .mini p => overlay (p.entry k) (live (base.entry k))
  | .full p => live (p.entry k)
  | .base _ => live (base.entry k)
  | .null => none

@[simp] theorem content_base (base : LeafNode) (offset : Nat) (k : Key) :
    content base (.base offset) k = live (base.entry k) := rfl

@[simp] theorem content_mini (base p : LeafNode) (k : Key) :
    content base (.mini p) k = overlay (p.entry k) (live (base.entry k)) := rfl

@[simp] theorem content_full (base p : LeafNode) (k : Key) :
    content base (.full p) k = live (p.entry k) := rfl

/-! ## Pages with the same records -/

/-- Same fences, kind and records; the accounting, flags and versions may differ. -/
structure SameRecords (p p' : LeafNode) : Prop where
  wf : p'.WF ↔ p.WF
  hasFence : p'.hasFence = p.hasFence
  isCacheOnlyLeaf : p'.isCacheOnlyLeaf = p.isCacheOnlyLeaf
  nextLevel : p'.nextLevel = p.nextLevel
  lowFence : p'.lowFence = p.lowFence
  highFence : p'.highFence = p.highFence
  entry : ∀ x, p'.entry x = p.entry x

namespace SameRecords

variable {p p' q : LeafNode}

theorem refl (p : LeafNode) : SameRecords p p :=
  ⟨.rfl, rfl, rfl, rfl, rfl, rfl, fun _ => rfl⟩

theorem symm (h : SameRecords p p') : SameRecords p' p :=
  ⟨h.wf.symm, h.hasFence.symm, h.isCacheOnlyLeaf.symm, h.nextLevel.symm, h.lowFence.symm,
    h.highFence.symm, fun x => (h.entry x).symm⟩

theorem trans (h : SameRecords p p') (h' : SameRecords p' q) : SameRecords p q :=
  ⟨h'.wf.trans h.wf, h'.hasFence.trans h.hasFence, h'.isCacheOnlyLeaf.trans h.isCacheOnlyLeaf,
    h'.nextLevel.trans h.nextLevel, h'.lowFence.trans h.lowFence,
    h'.highFence.trans h.highFence, fun x => (h'.entry x).trans (h.entry x)⟩

theorem of_sameHeader (hp : p.WF) (hp' : p'.WF) (h : SameHeader p p')
    (he : ∀ x, p'.entry x = p.entry x) : SameRecords p p' :=
  ⟨⟨fun _ => hp, fun _ => hp'⟩, h.hasFence, h.isCacheOnlyLeaf, h.nextLevel, h.lowFence, h.highFence, he⟩

theorem setSnapshotVersion (p : LeafNode) (v : Nat) (c : Bool) :
    SameRecords p (p.setSnapshotVersion v c) :=
  ⟨⟨fun h => ⟨h.prefixLen_eq, h.no_fence, h.sorted, h.inRange⟩, fun h => h.setSnapshotVersion v c⟩, rfl, rfl, rfl, rfl, rfl, fun _ => rfl⟩

theorem setSplitFlag (p : LeafNode) : SameRecords p p.setSplitFlag :=
  ⟨⟨fun h => ⟨h.prefixLen_eq, h.no_fence, h.sorted, h.inRange⟩,
    fun h => ⟨h.prefixLen_eq, h.no_fence, h.sorted, h.inRange⟩⟩, rfl, rfl, rfl, rfl, rfl,
    fun _ => rfl⟩

theorem isBasePage (h : SameRecords p p') : p'.isBasePage = p.isBasePage := by
  rw [LeafNode.isBasePage, LeafNode.isBasePage, h.isCacheOnlyLeaf, h.nextLevel]

theorem dirtyAt (h : SameRecords p p') (k : Key) : p'.dirtyAt k = p.dirtyAt k := by
  rw [LeafNode.dirtyAt, LeafNode.dirtyAt, h.entry]

end SameRecords

theorem BasePage.congr {lo hi : Key} {p p' : LeafNode} (h : BasePage lo hi p)
    (hs : SameRecords p p') : BasePage lo hi p' where
  wf := hs.wf.2 h.wf
  hasFence := hs.hasFence.trans h.hasFence
  isBasePage := hs.isBasePage.trans h.isBasePage
  lowFence := hs.lowFence.trans h.lowFence
  highFence := hs.highFence.trans h.highFence
  dirty k e he := h.dirty k e (by rw [← hs.entry, he])
  nonempty := (hs.entry []).trans h.nonempty

theorem MiniPage.congr {lo hi : Key} {offset : Nat} {base p p' : LeafNode}
    (h : MiniPage lo hi offset base p) (hs : SameRecords p p') : MiniPage lo hi offset base p' where
  wf := hs.wf.2 h.wf
  hasFence := hs.hasFence.trans h.hasFence
  notCacheOnly := hs.isCacheOnlyLeaf.trans h.notCacheOnly
  nextLevel := hs.nextLevel.trans h.nextLevel
  inRange k hk := h.inRange k (hs.entry k ▸ hk)
  nonempty := (hs.entry []).trans h.nonempty
  clean k e he := h.clean k e (hs.entry k ▸ he)

theorem FullPage.congr {lo hi : Key} {offset : Nat} {base p p' : LeafNode}
    (h : FullPage lo hi offset base p) (hs : SameRecords p p') : FullPage lo hi offset base p' where
  wf := hs.wf.2 h.wf
  hasFence := hs.hasFence.trans h.hasFence
  notCacheOnly := hs.isCacheOnlyLeaf.trans h.notCacheOnly
  nextLevel := hs.nextLevel.trans h.nextLevel
  lowFence := hs.lowFence.trans h.lowFence
  highFence := hs.highFence.trans h.highFence
  nonempty := (hs.entry []).trans h.nonempty
  clean k hk := by rw [hs.entry]; exact h.clean k (hs.dirtyAt k ▸ hk)

/-- The cached page only depends on the live records of the base page. -/
theorem Caches.congr {lo hi : Key} {offset : Nat} {base base' : LeafNode} {loc : PageLocation}
    (h : Caches lo hi offset base loc) (he : ∀ k, live (base'.entry k) = live (base.entry k)) :
    Caches lo hi offset base' loc := by
  cases loc with
  | mini p => exact { h with clean := fun k e hk hd => (h.clean k e hk hd).trans (he k).symm }
  | full p => exact { h with clean := fun k hd => (h.clean k hd).trans (he k).symm }
  | base o => exact h
  | null => exact h

theorem content_congr {base base' : LeafNode} (loc : PageLocation)
    (he : ∀ k, live (base'.entry k) = live (base.entry k)) (k : Key) :
    content base' loc k = content base loc k := by
  cases loc <;> simp [content, he]

/-! ## Writing one record -/

/-- The map after a write. -/
def written (c : Key → Option Value) (key : Key) (value : Value) (op : OpType) (k : Key) :
    Option Value :=
  if k = key then (if op.isAbsent then none else some value) else c k

theorem insertEntry_op {b : Bool} {op : OpType} {v : Value} {e : Option (OpType × Value)}
    {r : OpType × Value} (h : insertEntry b op v e = some r) : r.1 = op := by
  cases e with
  | none =>
    simp only [insertEntry] at h
    split at h
    · cases h
    · cases h; rfl
  | some e =>
    simp only [insertEntry] at h
    split at h
    · rename_i hd
      cases h; exact hd.symm
    · cases h; rfl

/-- Only a base page has nothing to write for a delete. -/
theorem insertEntry_eq_some (op : OpType) (v : Value) (e : Option (OpType × Value)) :
    ∃ r, insertEntry false op v e = some r ∧ r.1 = op := by
  have hsome : (insertEntry false op v e).isSome := by
    cases e with
    | none => simp [insertEntry]
    | some e => cases op <;> simp [insertEntry]
  obtain ⟨r, hr⟩ := Option.isSome_iff_exists.1 hsome
  exact ⟨r, hr, insertEntry_op hr⟩

theorem BasePage.covers {lo hi : Key} {p : LeafNode} (h : BasePage lo hi p) {k : Key}
    (hk : InRange lo hi k) : p.Covers k := by
  rw [LeafNode.Covers, h.lowFence, h.highFence]; exact hk

theorem FullPage.covers {lo hi : Key} {offset : Nat} {base p : LeafNode}
    (h : FullPage lo hi offset base p) {k : Key} (hk : InRange lo hi k) : p.Covers k := by
  rw [LeafNode.Covers, h.lowFence, h.highFence]; exact hk

theorem MiniPage.covers {lo hi : Key} {offset : Nat} {base p : LeafNode}
    (h : MiniPage lo hi offset base p) (k : Key) : p.Covers k := by
  rw [LeafNode.Covers, (h.wf.no_fence h.hasFence).1, (h.wf.no_fence h.hasFence).2]
  exact inRange_nil_nil k

theorem FullPage.isBasePage {lo hi : Key} {offset : Nat} {base p : LeafNode}
    (h : FullPage lo hi offset base p) : p.isBasePage = false := by
  simp [LeafNode.isBasePage, h.nextLevel]

theorem MiniPage.isBasePage {lo hi : Key} {offset : Nat} {base p : LeafNode}
    (h : MiniPage lo hi offset base p) : p.isBasePage = false := by
  simp [LeafNode.isBasePage, h.nextLevel]

section Insert

variable {lo hi key : Key} {value : Value} {op : OpType} {mf offset : Nat} {base p p' : LeafNode}

theorem BasePage.insert (h : BasePage lo hi p) (hr : InRange lo hi key) (hne : key ≠ [])
    (hop : op.isDirty = true) (hins : p.insert key value op mf = some (true, p')) :
    BasePage lo hi p' ∧
      ∀ k, live (p'.entry k) = written (fun x => live (p.entry x)) key value op k := by
  obtain ⟨hw, hh, -, he⟩ := insert_spec h.wf (h.covers hr) hins
  have he := he rfl
  refine ⟨⟨hw, hh.hasFence.trans h.hasFence, hh.isBasePage.trans h.isBasePage,
    hh.lowFence.trans h.lowFence, hh.highFence.trans h.highFence, ?_, ?_⟩, ?_⟩
  · intro k e hk
    rw [he] at hk
    split at hk
    · rw [insertEntry_op hk]; exact hop
    · exact h.dirty k e hk
  · rw [he, if_neg hne.symm, h.nonempty]
  · intro k
    rw [he, written]
    split
    · exact live_insertEntry _ _ _ _
    · rfl

/-- A clean record may be put into a mini page if the base page has it. -/
theorem MiniPage.insert (h : MiniPage lo hi offset base p) (hr : InRange lo hi key)
    (hne : key ≠ [])
    (hop : op.isDirty = true ∨ op = .cache ∧ live (base.entry key) = some value)
    (hins : p.insert key value op mf = some (true, p')) :
    MiniPage lo hi offset base p' ∧
      ∀ k, content base (.mini p') k = written (content base (.mini p)) key value op k := by
  obtain ⟨hw, hh, -, he⟩ := insert_spec h.wf (h.covers key) hins
  have he := he rfl
  rw [h.isBasePage] at he
  refine ⟨⟨hw, hh.hasFence.trans h.hasFence, hh.isCacheOnlyLeaf.trans h.notCacheOnly,
    hh.nextLevel.trans h.nextLevel, ?_, ?_, ?_⟩, ?_⟩
  · intro k hk
    rw [he] at hk
    split at hk
    · rename_i heq; rw [heq]; exact hr
    · exact h.inRange k hk
  · rw [he, if_neg hne.symm, h.nonempty]
  · intro k e hk hd
    rw [he] at hk
    split at hk
    · rename_i heq
      have hop' := hop.resolve_left (by rw [← insertEntry_op hk, hd]; simp)
      rw [heq, hop'.2, ← hk, live_insertEntry, hop'.1]
      rfl
    · exact h.clean k e hk hd
  · intro k
    rw [content_mini, written, he]
    split
    · obtain ⟨e, hs, -⟩ := insertEntry_eq_some op value (p.entry key)
      rw [hs, overlay_some, ← hs, live_insertEntry]
    · rfl

theorem FullPage.insert (h : FullPage lo hi offset base p) (hr : InRange lo hi key)
    (hne : key ≠ []) (hop : op.isDirty = true) (hins : p.insert key value op mf = some (true, p')) :
    FullPage lo hi offset base p' ∧
      ∀ k, content base (.full p') k = written (content base (.full p)) key value op k := by
  obtain ⟨hw, hh, -, he⟩ := insert_spec h.wf (h.covers hr) hins
  have he := he rfl
  rw [h.isBasePage] at he
  refine ⟨⟨hw, hh.hasFence.trans h.hasFence, hh.isCacheOnlyLeaf.trans h.notCacheOnly,
    hh.nextLevel.trans h.nextLevel, hh.lowFence.trans h.lowFence,
    hh.highFence.trans h.highFence, ?_, ?_⟩, ?_⟩
  · rw [he, if_neg hne.symm, h.nonempty]
  · intro k hd
    rw [LeafNode.dirtyAt, he] at hd
    rw [he]
    split at hd
    · obtain ⟨e, hs, hop'⟩ := insertEntry_eq_some op value (p.entry key)
      rw [hs, Option.any_some, hop', hop] at hd
      cases hd
    · rename_i hkk
      rw [if_neg hkk]
      exact h.clean k hd
  · intro k
    rw [content_full, written, he]
    split
    · exact live_insertEntry _ _ _ _
    · rfl

end Insert

/-! ## Moving records between the layers -/

theorem cleaned_eq_some {e : Option (OpType × Value)} {r : OpType × Value}
    (h : cleaned e = some r) : r.1 = .insert ∧ ∃ op, e = some (op, r.2) := by
  cases e with
  | none => cases h
  | some e =>
    rw [cleaned] at h
    split at h <;> cases h
    exact ⟨rfl, e.1, rfl⟩

theorem live_mergeEntry {isBase : Bool} {upper lower : Option (OpType × Value)}
    (h : ∀ e, upper = some e → e.1.isDirty = false → live (some e) = live lower) :
    live (mergeEntry isBase upper lower) = overlay upper (live lower) := by
  cases upper with
  | none => rfl
  | some e =>
    obtain ⟨op, v⟩ := e
    cases hd : op.isDirty with
    | true =>
      rw [mergeEntry, if_pos hd, live_insertEntry]
      rfl
    | false => simp [mergeEntry, hd, h _ rfl hd]

theorem mergeEntry_dirty {isBase : Bool} {upper lower : Option (OpType × Value)}
    (h : ∀ e, lower = some e → e.1.isDirty = true) :
    ∀ e, mergeEntry isBase upper lower = some e → e.1.isDirty = true := by
  intro e he
  cases upper with
  | none => exact h e he
  | some u =>
    cases hd : u.1.isDirty with
    | true =>
      rw [mergeEntry, hd] at he
      rw [insertEntry_op he, hd]
    | false =>
      rw [mergeEntry, hd] at he
      exact h e he

theorem needActuallyMergeToDisk_eq_false {p : LeafNode} (h : p.WF) :
    p.needActuallyMergeToDisk = false ↔ ∀ k, p.dirtyAt k = false := by
  rw [needActuallyMergeToDisk, List.any_eq_false]
  constructor
  · intro hall k
    cases he : p.entry k with
    | none => simp [LeafNode.dirtyAt, he]
    | some e =>
      obtain ⟨m, hm, -, hop, -⟩ := (entry_eq_some h).1 he
      simp [LeafNode.dirtyAt, he, ← hop, hall m hm]
  · intro hall m hm
    have he : p.entry (p.getFullKey m) = some (m.opType, m.value) :=
      (entry_eq_some h).2 ⟨m, hm, rfl, rfl, rfl⟩
    have hd := hall (p.getFullKey m)
    rw [LeafNode.dirtyAt, he] at hd
    simpa using hd

section Layers

variable {lo hi : Key} {offset : Nat} {base base' p p' mini : LeafNode}

/-- A mini page without dirty records can be dropped. -/
theorem MiniPage.content_of_clean (h : MiniPage lo hi offset base p)
    (hc : p.needActuallyMergeToDisk = false) (k : Key) :
    content base (.mini p) k = live (base.entry k) := by
  have hd := (needActuallyMergeToDisk_eq_false h.wf).1 hc k
  rw [content_mini]
  cases he : p.entry k with
  | none => rfl
  | some e => exact h.clean k e he (by simpa [LeafNode.dirtyAt, he] using hd)

/-- A full page without dirty records can be dropped. -/
theorem FullPage.content_of_clean (h : FullPage lo hi offset base p)
    (hc : p.needActuallyMergeToDisk = false) (k : Key) :
    content base (.full p) k = live (base.entry k) :=
  h.clean k ((needActuallyMergeToDisk_eq_false h.wf).1 hc k)

theorem MiniPage.empty (lo hi : Key) (offset : Nat) (base : LeafNode) (size ver : Nat) :
    MiniPage lo hi offset base (initializeMiniPage size (some offset) false ver) where
  wf := wf_initializeNode _ _ _ _ _ _ _
  hasFence := by simp [initializeMiniPage]
  notCacheOnly := by simp [initializeMiniPage]
  nextLevel := by simp [initializeMiniPage]
  inRange k hk := by simp [initializeMiniPage] at hk
  nonempty := by simp [initializeMiniPage]
  clean k e hk := by simp [initializeMiniPage] at hk

/-- Copying a mini page may lose clean records. -/
theorem MiniPage.copy (h : MiniPage lo hi offset base p) {size ver : Nat} {discard : Bool}
    (hr : p.copyInitializeTo size discard ver = some p') :
    MiniPage lo hi offset base p' ∧
      ∀ k, content base (.mini p') k = content base (.mini p) k := by
  obtain ⟨-, hw, hh, he⟩ := copyInitializeTo_spec h.wf hr
  have hsome : ∀ k e, p'.entry k = some e → p.entry k = some e := by
    intro k e hk
    obtain h' | ⟨h', -⟩ := he k
    · rw [← h', hk]
    · rw [h'] at hk; cases hk
  refine ⟨⟨hw, ?_, ?_, ?_, ?_, ?_, ?_⟩, ?_⟩
  · simpa using hh.hasFence
  · simpa [h.notCacheOnly] using hh.isCacheOnlyLeaf
  · simpa [h.nextLevel] using hh.nextLevel
  · intro k hk
    obtain ⟨e, hk⟩ := Option.ne_none_iff_exists'.1 hk
    exact h.inRange k (by simp [hsome k e hk])
  · obtain h' | ⟨h', -⟩ := he []
    · rw [h', h.nonempty]
    · exact h'
  · intro k e hk hd
    exact h.clean k e (hsome k e hk) hd
  · intro k
    obtain h' | ⟨h', op, v, hp, hc, -⟩ := he k
    · simp [h']
    · have hd : op.isDirty = false := by cases op <;> first | rfl | cases hc
      rw [content_mini, content_mini, h', hp, overlay_some, h.clean k _ hp hd, overlay_none]

theorem MiniPage.base_covers (h : MiniPage lo hi offset base p) (hb : BasePage lo hi base') (k : Key)
    (hk : p.entry k ≠ none) : base'.Covers k :=
  hb.covers (h.inRange k hk)

theorem BasePage.mergeMiniPage (hb : BasePage lo hi base) (h : MiniPage lo hi offset base mini)
    {mf : Nat} (hr : base.mergeMiniPage mini mf = some (true, base')) :
    BasePage lo hi base' ∧ ∀ k, live (base'.entry k) = content base (.mini mini) k := by
  obtain ⟨hf, -⟩ | ⟨-, hw, hh, he⟩ := mergeMiniPage_spec h.wf hb.wf (h.base_covers hb) hr
  · cases hf
  refine ⟨⟨hw, hh.hasFence.trans hb.hasFence, hh.isBasePage.trans hb.isBasePage,
    hh.lowFence.trans hb.lowFence, hh.highFence.trans hb.highFence, ?_, ?_⟩, ?_⟩
  · intro k e hk
    rw [he] at hk
    exact mergeEntry_dirty (hb.dirty k) e hk
  · rw [he, h.nonempty, hb.nonempty]; rfl
  · intro k
    rw [he, live_mergeEntry (h.clean k), content_mini]

/-- A full page becomes the base page. -/
theorem FullPage.flush (h : FullPage lo hi offset base p) :
    BasePage lo hi
        { p.convertCacheRecordsToInsert.clearSnapshotVersionChangedFlag with nextLevel := none } ∧
      ∀ k, live (LeafNode.entry
        { p.convertCacheRecordsToInsert.clearSnapshotVersionChangedFlag with nextLevel := none } k) =
          content base (.full p) k := by
  obtain ⟨hw, hh, he⟩ := convertCacheRecordsToInsert_spec h.wf
  have hentry : ∀ k, LeafNode.entry
      { p.convertCacheRecordsToInsert.clearSnapshotVersionChangedFlag with nextLevel := none } k =
      (p.entry k).map fun e => (toDirty e.1, e.2) := he
  refine ⟨⟨⟨hw.prefixLen_eq, hw.no_fence, hw.sorted, hw.inRange⟩, hh.hasFence.trans h.hasFence, ?_,
    hh.lowFence.trans h.lowFence, hh.highFence.trans h.highFence, ?_, ?_⟩, ?_⟩
  · simp [LeafNode.isBasePage, LeafNode.clearSnapshotVersionChangedFlag, hh.isCacheOnlyLeaf,
      h.notCacheOnly]
  · intro k e hk
    rw [hentry] at hk
    obtain ⟨r, -, rfl⟩ := Option.map_eq_some_iff.1 hk
    cases r.1 <;> rfl
  · rw [hentry, h.nonempty]; rfl
  · intro k
    rw [hentry, content_full]
    cases p.entry k with
    | none => rfl
    | some e => obtain ⟨op, v⟩ := e; cases op <;> rfl

/-- A base page is cached whole. -/
theorem BasePage.upgrade (hb : BasePage lo hi base) (hr : base.covertInsertRecordsToCache = some p) :
    FullPage lo hi offset base { p with nextLevel := some offset } ∧
      ∀ k, live (LeafNode.entry { p with nextLevel := some offset } k) = live (base.entry k) := by
  obtain ⟨hw, hh, -, he⟩ := covertInsertRecordsToCache_spec hb.wf hr
  have hentry : ∀ k, LeafNode.entry { p with nextLevel := some offset } k =
      (base.entry k).map fun e => (if e.1 = .insert then .cache else .phantom, e.2) := he
  have hlive : ∀ k, live (LeafNode.entry { p with nextLevel := some offset } k) =
      live (base.entry k) := by
    intro k
    rw [hentry]
    cases hk : base.entry k with
    | none => rfl
    | some e =>
      have hd := hb.dirty k e hk
      obtain ⟨op, v⟩ := e
      cases op <;> first | rfl | cases hd
  have hbase := hb.isBasePage
  simp only [LeafNode.isBasePage, Bool.and_eq_true, Bool.not_eq_true'] at hbase
  refine ⟨⟨⟨hw.prefixLen_eq, hw.no_fence, hw.sorted, hw.inRange⟩, hh.hasFence.trans hb.hasFence,
    hh.isCacheOnlyLeaf.trans hbase.1, rfl, hh.lowFence.trans hb.lowFence,
    hh.highFence.trans hb.highFence, ?_, fun k _ => hlive k⟩, hlive⟩
  rw [hentry, hb.nonempty]; rfl

theorem BasePage.consolidateSingle (hb : BasePage lo hi base)
    (hr : LeafEntry.consolidateSingle base = some base') :
    BasePage lo hi base' ∧ ∀ k, live (base'.entry k) = live (base.entry k) := by
  unfold LeafEntry.consolidateSingle at hr
  split at hr
  · obtain ⟨q, hq, rfl⟩ := Option.map_eq_some_iff.1 hr
    have hcov : ∀ m ∈ base.metas, base.hasFence = true →
        InRange base.lowFence ((none : Option Key).getD base.highFence) (base.getFullKey m) :=
      fun m hm _ => hb.wf.inRange m hm
    obtain ⟨hw, hh, he⟩ := consolidateInner_spec hb.wf hcov hq
    have hentry : ∀ k, q.entry k = cleaned (base.entry k) := fun k => by simpa using he k
    have hbase := hb.isBasePage
    simp only [LeafNode.isBasePage, Bool.and_eq_true, Bool.not_eq_true'] at hbase
    refine ⟨BasePage.congr ⟨hw, ?_, ?_, ?_, ?_, ?_, ?_⟩ (.setSnapshotVersion _ _ _), ?_⟩
    · simpa [hb.hasFence] using hh.hasFence
    · have hn := hh.nextLevel
      have hc := hh.isCacheOnlyLeaf
      simp only [initializeNode_nextLevel, initializeNode_isCacheOnlyLeaf] at hn hc
      simp [LeafNode.isBasePage, hn, hc, hbase.2]
    · simpa [hb.hasFence, hb.lowFence] using hh.lowFence
    · simpa [hb.hasFence, hb.highFence] using hh.highFence
    · intro k e hk
      rw [hentry] at hk
      rw [(cleaned_eq_some hk).1]; rfl
    · rw [hentry, hb.nonempty]; rfl
    · intro k
      rw [entry_setSnapshotVersion, hentry, live_cleaned (hb.dirty k)]
  · cases hr
    exact ⟨hb, fun _ => rfl⟩

/-! ## Splitting during a merge -/

theorem distribute_eq_some {mf : Nat} {key : Key} {pairs : List (Key × Value × OpType)} :
    ∀ {left sibling left' sibling' : LeafNode},
      LeafEntry.distribute mf key pairs (left, sibling) = some (left', sibling') →
      left.insertAll mf (pairs.filter fun e => decide (e.1 < key)) = some left' ∧
        sibling.insertAll mf (pairs.filter fun e => !decide (e.1 < key)) = some sibling' := by
  induction pairs with
  | nil =>
    intro left sibling left' sibling' h
    obtain ⟨rfl, rfl⟩ : left = left' ∧ sibling = sibling' := by
      simpa [LeafEntry.distribute] using h
    exact ⟨rfl, rfl⟩
  | cons e pairs ih =>
    obtain ⟨k, v, op⟩ := e
    intro left sibling left' sibling' h
    rw [LeafEntry.distribute] at h
    split at h
    · rename_i hk
      have hlt : ¬ k < key := not_lt.2 hk
      split at h
      · rename_i q hq
        obtain ⟨h₁, h₂⟩ := ih h
        exact ⟨by simpa [hlt] using h₁, by simpa [hlt, insertAll, hq] using h₂⟩
      · cases h
    · rename_i hk
      have hlt : k < key := not_le.1 hk
      split at h
      · rename_i q hq
        obtain ⟨h₁, h₂⟩ := ih h
        exact ⟨by simpa [hlt, insertAll, hq] using h₁, by simpa [hlt] using h₂⟩
      · cases h

theorem live_of_mergeSplit {key : Key} (hm : MergeSplit base mini base' key) (k : Key)
    (hk : mini.dirtyAt k = false) : base'.entry k = base.entry k := by
  rw [hm.entry]
  cases base.entry k <;> simp [hk]

/-- The search for a split key marks base records that the mini page replaces. -/
theorem BasePage.mergeSplit {key : Key} (hb : BasePage lo hi base)
    (h : MiniPage lo hi offset base mini) (hm : MergeSplit base mini base' key) :
    BasePage lo hi base' ∧ MiniPage lo hi offset base' mini ∧
      (∀ k, content base' (.mini mini) k = content base (.mini mini) k) ∧
      lo < key ∧ (hi = [] ∨ key < hi) := by
  have hclean : ∀ k e, mini.entry k = some e → e.1.isDirty = false → mini.dirtyAt k = false := by
    intro k e he hd
    simp [LeafNode.dirtyAt, he, hd]
  refine ⟨⟨hm.wf, hm.header.hasFence.trans hb.hasFence, hm.header.isBasePage.trans hb.isBasePage,
    hm.header.lowFence.trans hb.lowFence, hm.header.highFence.trans hb.highFence, ?_, ?_⟩,
    { h with clean := ?_ }, ?_, ?_, ?_⟩
  · intro k e hk
    rw [hm.entry] at hk
    obtain ⟨r, hr, rfl⟩ := Option.map_eq_some_iff.1 hk
    have hd := hb.dirty k r hr
    dsimp only
    split
    · rfl
    · exact hd
  · rw [hm.entry, hb.nonempty]; rfl
  · intro k e he hd
    rw [live_of_mergeSplit hm k (hclean k e he hd)]
    exact h.clean k e he hd
  · intro k
    rw [content_mini, content_mini]
    cases he : mini.entry k with
    | none => rw [overlay_none, overlay_none, live_of_mergeSplit hm k (by simp [LeafNode.dirtyAt, he])]
    | some e => rfl
  · rcases eq_or_ne lo [] with hlo | hlo
    · rw [hlo]
      refine lt_of_le_of_ne (nil_le key) fun heq => ?_
      obtain hk | hk := hm.key_mem
      · exact hk (heq ▸ hb.nonempty)
      · exact hk (heq ▸ h.nonempty)
    · have hlt := hm.ne_low (by rwa [hb.lowFence])
      rwa [hb.lowFence] at hlt
  · have hcov := hm.covers.2
    rwa [hb.highFence] at hcov

/-- Both halves of a split base page are base pages. -/
theorem BasePage.halves {left sibling : LeafNode} {key : Key} {size ver : Nat}
    (hb : BasePage lo hi base) (hs : SplitResult base left sibling size key false ver) :
    BasePage lo key left ∧ BasePage key hi sibling ∧
      (∀ k, live (left.entry k) = if k < key then live (base.entry k) else none) ∧
      ∀ k, live (sibling.entry k) = if k < key then none else live (base.entry k) := by
  have hbase := hb.isBasePage
  simp only [LeafNode.isBasePage, Bool.and_eq_true, Bool.not_eq_true'] at hbase
  have hcleaned : ∀ k e, cleaned (base.entry k) = some e → e.1.isDirty = true := by
    intro k e he
    rw [(cleaned_eq_some he).1]; rfl
  refine ⟨⟨hs.left_wf, ?_, ?_, ?_, ?_, ?_, ?_⟩, ⟨hs.sibling_wf, ?_, ?_, ?_, ?_, ?_, ?_⟩, ?_, ?_⟩
  · simpa [hb.hasFence] using hs.left_header.hasFence
  · have hn := hs.left_header.nextLevel
    have hc := hs.left_header.isCacheOnlyLeaf
    simp only [initializeNode_nextLevel, initializeNode_isCacheOnlyLeaf] at hn hc
    simp [LeafNode.isBasePage, hn, hc, hbase.1, hbase.2]
  · simpa [hb.hasFence, hb.lowFence] using hs.left_header.lowFence
  · simpa [hb.hasFence] using hs.left_header.highFence
  · intro k e he
    rw [hs.left_entry] at he
    split at he
    · exact hcleaned k e he
    · cases he
  · rw [hs.left_entry, hb.nonempty]; simp
  · simpa using hs.sibling_header.hasFence
  · have hn := hs.sibling_header.nextLevel
    have hc := hs.sibling_header.isCacheOnlyLeaf
    simp only [initializeNode_nextLevel, initializeNode_isCacheOnlyLeaf] at hn hc
    simp [LeafNode.isBasePage, hn, hc]
  · simpa using hs.sibling_header.lowFence
  · simpa [hb.highFence] using hs.sibling_header.highFence
  · intro k e he
    rw [hs.sibling_entry] at he
    split at he
    · cases he
    · exact hcleaned k e he
  · rw [hs.sibling_entry, hb.nonempty]; simp
  · intro k
    rw [hs.left_entry]
    split
    · exact live_cleaned (hb.dirty k)
    · rfl
  · intro k
    rw [hs.sibling_entry]
    split
    · rfl
    · exact live_cleaned (hb.dirty k)

/-- One half takes over the dirty records on its side. -/
theorem BasePage.mergeSide {lo' hi' : Key} {mf : Nat} (hb : BasePage lo hi p)
    (h : MiniPage lo' hi' offset base mini) (side : Key → Bool)
    (hcov : ∀ k, mini.entry k ≠ none → side k = true → InRange lo hi k)
    (hlive : ∀ k, side k = true → live (p.entry k) = live (base.entry k))
    (hnone : ∀ k, side k = false → live (p.entry k) = none)
    (hr : p.insertAll mf (mini.dirtyPairs.filter fun e => side e.1) = some p') :
    BasePage lo hi p' ∧
      ∀ k, live (p'.entry k) = if side k then content base (.mini mini) k else none := by
  obtain ⟨hw, hh, he⟩ := insertAll_dirtyPairs_spec h.wf hb.wf side
    (fun k hk hs => hb.covers (hcov k hk hs)) hr
  refine ⟨⟨hw, hh.hasFence.trans hb.hasFence, hh.isBasePage.trans hb.isBasePage,
    hh.lowFence.trans hb.lowFence, hh.highFence.trans hb.highFence, ?_, ?_⟩, fun k => ?_⟩
  · intro k e hk
    rw [he] at hk
    split at hk
    · exact mergeEntry_dirty (hb.dirty k) e hk
    · exact hb.dirty k e hk
  · rw [he, h.nonempty, hb.nonempty]; simp [mergeEntry]
  · rw [he]
    split
    · next hs =>
      rw [live_mergeEntry fun e hk hd => (h.clean k e hk hd).trans (hlive k hs).symm, content_mini,
        hlive k hs]
    · next hs => exact hnone k (by simpa using hs)

/-- Both halves of a splitting merge are base pages that share the records. -/
theorem BasePage.split {left sibling left' sibling' : LeafNode} {key : Key} {size ver mf : Nat}
    (hb : BasePage lo hi base) (h : MiniPage lo hi offset base mini)
    (hs : base.splitWithKey size key false ver = some (left, sibling))
    (hd : LeafEntry.distribute mf key mini.dirtyPairs (left, sibling) = some (left', sibling')) :
    BasePage lo key left' ∧ BasePage key hi sibling' ∧
      (∀ k, live (left'.entry k) = if k < key then content base (.mini mini) k else none) ∧
      ∀ k, live (sibling'.entry k) = if k < key then none else content base (.mini mini) k := by
  obtain ⟨-, hsplit⟩ := splitWithKey_spec hb.wf hs
  obtain ⟨hl, hr, hll, hlr⟩ := hb.halves hsplit
  obtain ⟨hdl, hdr⟩ := distribute_eq_some hd
  obtain ⟨hl', hll'⟩ := hl.mergeSide h (fun k => decide (k < key))
    (fun k hk hs => ⟨(h.inRange k hk).1, .inr (of_decide_eq_true hs)⟩)
    (fun k hs => by rw [hll, if_pos (of_decide_eq_true hs)])
    (fun k hs => by rw [hll, if_neg (of_decide_eq_false hs)]) hdl
  obtain ⟨hr', hlr'⟩ := hr.mergeSide h (fun k => !decide (k < key))
    (fun k hk hs => ⟨not_lt.1 (by simpa using hs), (h.inRange k hk).2⟩)
    (fun k hs => by rw [hlr, if_neg (by simpa using hs)])
    (fun k hs => by rw [hlr, if_pos (by simpa using hs)]) hdr
  refine ⟨hl', hr', fun k => ?_, fun k => ?_⟩
  · rw [hll']
    simp only [decide_eq_true_eq]
  · rw [hlr']
    by_cases hk : k < key <;> simp [hk]

end Layers

end BfTree
