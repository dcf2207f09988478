import BfTree.RangeScan
import BfTree.TreeSpec

/-!
# Scans read the map

A cursor stands on a page that shows the records of its leaf, at the first record that
has not been returned. Placing it may merge, split or cache the leaf, but the map stays
the same.
-/

namespace BfTree

open Lib LeafNode

/-- The page shows the map `c` on its range, and the slot is the one of `key`. -/
structure CursorPage (c : Key → Option Value) (lo hi key : Key) (slot : Nat) (p : LeafNode) :
    Prop where
  wf : p.WF
  inRange : ∀ k, p.entry k ≠ none → InRange lo hi k
  shows : ∀ k, InRange lo hi k → live (p.entry k) = c k
  split : ∃ A B, SplitAt p.getFullKey p.metas key A B ∧ slot = A.length

/-- The cursor stands on the leaf of `key`. An evicted leaf has no page. -/
def CursorOk (cfg : Config) (c : Key → Option Value) (lo hi key : Key)
    (r : ScanPosition × Option LeafNode) : Prop :=
  r.1 = .null ∧ cfg.cacheOnly = true ∧ (∀ k, InRange lo hi k → c k = none) ∨
  r.1 ≠ .null ∧ ∃ p, r.2 = some p ∧ CursorPage c lo hi key r.1.slot p ∧
    (cfg.cacheOnly = false → p.highFence = hi)

theorem LeafNode.WF.covers_of_ne_none {p : LeafNode} (h : p.WF) {k : Key} (hk : p.entry k ≠ none) :
    p.Covers k := by
  obtain ⟨e, he⟩ := Option.ne_none_iff_exists'.1 hk
  exact h.covers_of_entry he

section Pages

variable {lo hi key : Key} {slot offset : Nat} {base p : LeafNode} {c : Key → Option Value}

theorem CursorPage.of_lowerBound (h : p.WF) (hcov : p.Covers key)
    (hin : ∀ k, p.entry k ≠ none → InRange lo hi k) (hc : ∀ k, InRange lo hi k → live (p.entry k) = c k)
    (hslot : p.lowerBound key = some slot) : CursorPage c lo hi key slot p := by
  obtain ⟨A, B, hlb, hs⟩ := lowerBound_spec h hcov
  exact ⟨h, hin, hc, A, B, hs, Option.some.inj (hslot.symm.trans hlb)⟩

theorem BasePage.cursorPage (h : BasePage lo hi base) (hr : InRange lo hi key)
    (hslot : base.lowerBound key = some slot) (hc : ∀ k, live (base.entry k) = c k) :
    CursorPage c lo hi key slot base := by
  refine .of_lowerBound h.wf (h.covers hr) (fun k hk => ?_) (fun k _ => hc k) hslot
  have := h.wf.covers_of_ne_none hk
  rwa [LeafNode.Covers, h.lowFence, h.highFence] at this

theorem FullPage.cursorPage (h : FullPage lo hi offset base p) (hr : InRange lo hi key)
    (hslot : p.lowerBound key = some slot) (hc : ∀ k, live (p.entry k) = c k) :
    CursorPage c lo hi key slot p := by
  refine .of_lowerBound h.wf (h.covers hr) (fun k hk => ?_) (fun k _ => hc k) hslot
  have := h.wf.covers_of_ne_none hk
  rwa [LeafNode.Covers, h.lowFence, h.highFence] at this

/-- The slot stays the right one when the base page is cached whole. -/
theorem BasePage.cursorPage_upgrade (h : BasePage lo hi base) (hr : InRange lo hi key)
    (hslot : base.lowerBound key = some slot) (hc : ∀ k, live (base.entry k) = c k)
    (hfull : base.covertInsertRecordsToCache = some p) :
    CursorPage c lo hi key slot { p with nextLevel := some offset } := by
  have hup : FullPage lo hi offset base { p with nextLevel := some offset } ∧ _ := h.upgrade hfull
  obtain ⟨hf, he⟩ := hup
  obtain ⟨A, B, hlb, hs⟩ := lowerBound_spec h.wf (h.covers hr)
  obtain rfl : slot = A.length := Option.some.inj (hslot.symm.trans hlb)
  refine ⟨hf.wf, fun k hk => ?_, fun k _ => (he k).trans (hc k), ?_⟩
  · have := hf.wf.covers_of_ne_none hk
    rwa [LeafNode.Covers, hf.lowFence, hf.highFence] at this
  · unfold covertInsertRecordsToCache at hfull
    split at hfull
    · cases hfull
    · cases hfull
      let clean : LeafKVMeta → LeafKVMeta := fun m =>
        { m with opType := if m.opType = .insert then .cache else .phantom }
      refine ⟨A.map clean, B.map clean, ⟨?_, fun m hm => ?_, fun m hm => ?_⟩,
        (List.length_map clean).symm⟩
      · rw [← List.map_append, ← hs.eq]
      · obtain ⟨m', hm', rfl⟩ := List.mem_map.1 hm
        exact hs.left m' hm'
      · obtain ⟨m', hm', rfl⟩ := List.mem_map.1 hm
        exact hs.right m' hm'

end Pages

namespace LeafEntry

section Disk

variable {cfg : Config} {lo hi key : Key} {offset : Nat} {base : LeafNode} {t : LeafEntry}
  {c : Key → Option Value} (env : AttemptEnv)

/-- The plan is made for a leaf that stores `c`. -/
def PlanOk (cfg : Config) (lo hi : Key) (offset : Nat) (c : Key → Option Value) (key : Key)
    (t' : LeafEntry) : ScanPlan → Prop
  | .ready pos => CursorOk cfg c lo hi key (pos, t'.cursorPage pos)
  | .scanBase => t'.loc = .base offset
  | .promoteBase o => t'.loc = .base offset ∧ o = some offset

theorem getScanPosition_spec (h : Over lo hi offset base t) (hr : InRange lo hi key)
    (hdisk : cfg.cacheOnly = false) :
    wp (getScanPosition cfg key)
      (fun pos t' => Over lo hi offset base t' ∧ (∃ b, t' = { t with tmpBuffer := b }) ∧
        (∀ p, pos = some p → p ≠ .null ∧
          CursorOk cfg (content base t.loc) lo hi key (p, t'.cursorPage p)) ∧
        ((∃ p, pos = some (.base p)) → t.loc = .base offset) ∧
        (pos = none → ∃ p, t.loc = .mini p))
      (fun _ _ => False) t := by
  simp only [getScanPosition, wp_bind, wp_get]
  have hc := h.caches
  split
  · next o hl =>
    rw [hl] at hc
    obtain rfl : o = offset := hc
    rw [wp_bind]
    refine wp_mono (loadBasePage_spec h) ?_ (fun _ _ hf => hf.elim)
    rintro p t₁ ⟨rfl, h₁, hb, b, rfl⟩
    simp only [wp_bind, wp_unwrap, wp_pure]
    intro pos hpos
    obtain ⟨b', hb'⟩ := Option.ne_none_iff_exists'.1 hb
    have hpage : b'.page = p := by
      have := h₁.base_eq
      rw [basePage?_of_some hb'] at this
      exact Option.some.inj this
    refine ⟨h₁, ⟨b, rfl⟩, ?_, fun _ => hl, by simp⟩
    rintro q ⟨rfl⟩
    refine ⟨by simp, .inr ⟨by simp, p, ?_, ?_, fun _ => h.basePage.highFence⟩⟩
    · have hb'' : b = some b' := hb'
      simp [cursorPage, hb'', hpage]
    · rw [hl]
      exact h.basePage.cursorPage hr hpos fun k => rfl
  · next p hl =>
    have hf := h.caches_full hl
    simp only [wp_bind, wp_unwrap, wp_pure]
    intro pos hpos
    refine ⟨h, ⟨t.tmpBuffer, rfl⟩, ?_, by simp, by simp⟩
    rintro q ⟨rfl⟩
    refine ⟨by simp, .inr ⟨by simp, p, ?_, ?_, fun _ => hf.highFence⟩⟩
    · simp [cursorPage, hl]
    · rw [hl]
      exact hf.cursorPage hr hpos fun k => rfl
  · next p hl =>
    simp only [hdisk, Bool.false_eq_true, if_false, wp_pure]
    exact ⟨h, ⟨t.tmpBuffer, rfl⟩, by simp, by simp, fun _ => ⟨p, hl⟩⟩
  · next hl =>
    rw [hl] at hc
    exact hc.elim

theorem prepareMerge_spec (h : Over lo hi offset base t) (key : Key) :
    wp (prepareMerge cfg env)
      (fun plan t' => Keeps lo hi offset (content base t.loc) t t' ∧
        PlanOk cfg lo hi offset (content base t.loc) key t' plan)
      (fun _ => Outcome lo hi offset (content base t.loc) t) t := by
  have hsame : Keeps lo hi offset (content base t.loc) t t := ⟨⟨base, h, fun _ => rfl⟩, .refl t⟩
  have hc := h.caches
  simp only [prepareMerge, wp_bind, wp_get]
  split
  · next o hl =>
    rw [hl] at hc
    obtain rfl : o = offset := hc
    exact (wp_pure _).2 ⟨hsame, hl, rfl⟩
  · next p hl =>
    have hn := (h.caches_mini hl).nextLevel
    simp only [wp_bind, wp_attempt]
    refine ⟨fun _ => ?_, fun _ _ => .keeps hsame⟩
    refine wp_mono (tryMergeMiniPage_spec h hl cfg env.leaf) (fun r t₁ hm => ?_)
      (fun _ _ hk => .keeps (hl ▸ hk))
    obtain ⟨q, hq, hqn⟩ := hm.loc
    refine changeToBaseLoc_spec (.inl hq) hqn ?_
    rw [hl]
    cases r with
    | noSplit =>
      rw [wp_pure]
      refine ⟨hm.noSplit rfl, ?_⟩
      split
      · exact ⟨rfl, hn⟩
      · exact rfl
    | mergeAndSplit => exact (wp_fail _).2 hm.outcome
  · exact wp_crash.2 trivial
  · exact wp_crash.2 trivial

theorem prepareScan_spec (h : Over lo hi offset base t) (hr : InRange lo hi key)
    (hdisk : cfg.cacheOnly = false) :
    wp (prepareScan cfg env key)
      (fun plan t' => Keeps lo hi offset (content base t.loc) t t' ∧
        PlanOk cfg lo hi offset (content base t.loc) key t' plan)
      (fun _ => Outcome lo hi offset (content base t.loc) t) t := by
  simp only [prepareScan, wp_bind, wp_get]
  refine wp_mono (getScanPosition_spec h hr hdisk) ?_ (fun _ _ hf => hf.elim)
  rintro pos t₁ ⟨h₁, ⟨b, rfl⟩, hpos, -, -⟩
  have hkept : Kept t { t with tmpBuffer := b } := .of_local _ _ _ _
  have hsame : Keeps lo hi offset (content base t.loc) t { t with tmpBuffer := b } :=
    ⟨⟨base, h₁, fun _ => rfl⟩, hkept⟩
  have hmerge : wp (upgradeAndMerge cfg env)
      (fun plan t' => Keeps lo hi offset (content base t.loc) t t' ∧
        PlanOk cfg lo hi offset (content base t.loc) key t' plan)
      (fun _ => Outcome lo hi offset (content base t.loc) t) { t with tmpBuffer := b } := by
    simp only [upgradeAndMerge, wp_bind, wp_get]
    refine wp_ite (fun _ => ?_) (fun _ => (wp_fail _).2 (.keeps hsame))
    simp only [wp_bind, wp_assert]
    intro _
    exact wp_mono (prepareMerge_spec env h₁ key)
      (fun _ t₂ h₂ => ⟨.trans hkept h₂.1, h₂.2⟩) (fun _ t₂ ho => ho.of_kept hkept)
  cases pos with
  | none => exact hmerge
  | some pos =>
    have hready := (hpos pos rfl).2
    cases pos with
    | base slot =>
      refine wp_ite (fun _ => (wp_pure _).2 ⟨hsame, hready⟩) (fun _ => hmerge)
    | full slot => exact (wp_pure _).2 ⟨hsame, hready⟩
    | mini slot => exact (wp_pure _).2 ⟨hsame, hready⟩
    | null => exact (wp_pure _).2 ⟨hsame, hready⟩

/-- The rest works on the base page in the buffer. -/
theorem finishScan_spec (h : Over lo hi offset base t) (hr : InRange lo hi key)
    {plan : ScanPlan} (hplan : PlanOk cfg lo hi offset (content base t.loc) key t plan) :
    wp (finishScan cfg env key plan)
      (fun pos t' => Keeps lo hi offset (content base t.loc) t t' ∧
        CursorOk cfg (content base t.loc) lo hi key (pos, t'.cursorPage pos))
      (fun _ => Keeps lo hi offset (content base t.loc) t) t := by
  have hsame : Keeps lo hi offset (content base t.loc) t t := ⟨⟨base, h, fun _ => rfl⟩, .refl t⟩
  -- the cursor on the base page itself
  have hbase : ∀ b slot, t.tmpBuffer = some b → t.loc = .base offset →
      base.lowerBound key = some slot →
      CursorOk cfg (content base t.loc) lo hi key (.base slot, t.cursorPage (.base slot)) := by
    intro b slot hb hl hslot
    have hpage : b.page = base := by
      have := h.base_eq
      rw [basePage?_of_some hb] at this
      exact Option.some.inj this
    refine .inr ⟨by simp, base, ?_, ?_, fun _ => h.basePage.highFence⟩
    · simp [cursorPage, hb, hpage]
    · rw [hl]
      exact h.basePage.cursorPage hr hslot fun k => rfl
  have hbuf : ∀ b, t.tmpBuffer = some b → b.page = base := by
    intro b hb
    have := h.base_eq
    rw [basePage?_of_some hb] at this
    exact Option.some.inj this
  cases plan with
  | ready pos => exact (wp_pure pos).2 ⟨hsame, hplan⟩
  | scanBase =>
    simp only [finishScan, loadBasePageFromBuffer, wp_bind, wp_get, wp_unwrap,
      wp_pure]
    intro b hb slot hslot
    rw [hbuf b hb] at hslot
    exact ⟨hsame, hbase b slot hb hplan hslot⟩
  | promoteBase o =>
    obtain ⟨hl, rfl⟩ := hplan
    simp only [finishScan, loadBasePageFromBuffer, wp_bind, wp_get, wp_unwrap,
      wp_pure]
    intro b hb slot hslot
    rw [hbuf b hb] at hslot ⊢
    refine wp_ite (fun _ => ?_) (fun _ => ?_)
    · simp only [upgradeToFullPage, wp_bind, wp_attempt, wp_assert, wp_unwrap,
        wp_pure, wp_setLoc]
      refine ⟨fun _ _ full hfull => ?_, fun _ _ => hsame⟩
      have hup : FullPage lo hi offset base { full with nextLevel := some offset } ∧ _ :=
        h.basePage.upgrade hfull
      refine ⟨.of_loc h hup.1 fun k => ?_, .inr ⟨by simp, _, rfl, ?_, fun _ => hup.1.highFence⟩⟩
      · rw [hl, content_base, content_full, hup.2 k]
      · rw [hl]
        exact h.basePage.cursorPage_upgrade hr hslot (fun k => rfl) hfull
    · exact (wp_pure _).2 ⟨hsame, hbase b slot hb hl hslot⟩

theorem moveCursor_spec (h : Over lo hi offset base t) (hr : InRange lo hi key)
    (hdisk : cfg.cacheOnly = false) :
    wp (moveCursor cfg env key)
      (fun r t' => Keeps lo hi offset (content base t.loc) t t' ∧
        CursorOk cfg (content base t.loc) lo hi key r)
      (fun _ => Outcome lo hi offset (content base t.loc) t) t := by
  simp only [moveCursor, wp_bind, wp_get, wp_pure]
  refine wp_mono (prepareScan_spec env h hr hdisk) ?_ (fun _ _ ho => ho)
  rintro plan t₁ ⟨⟨⟨base₁, h₁, hc₁⟩, hk₁⟩, hplan⟩
  rw [← funext hc₁] at hplan ⊢
  exact wp_mono (finishScan_spec env h₁ hr hplan)
    (fun _ t₂ h₂ => ⟨.trans hk₁ h₂.1, h₂.2⟩) (fun _ t₂ h₂ => .keeps (.trans hk₁ h₂))

/-- The root leaf is scanned where it is. -/
theorem moveCursor_root (h : Over lo hi offset base t) :
    Ensures (moveCursor cfg env key) (RootStays t) t := by
  refine ensures_rootStays fun hp o hl => ?_
  have hc := h.caches
  rw [hl] at hc
  obtain rfl : o = offset := hc
  simp only [Ensures, moveCursor, prepareScan, wp_bind, wp_get]
  simp only [getScanPosition, wp_bind, wp_get, hl]
  refine wp_mono (loadBasePage_spec h) ?_ (fun _ _ hf => hf.elim)
  rintro p t₁ ⟨-, -, -, b, rfl⟩
  simp only [wp_unwrap, wp_pure, hp, Option.isNone_none, Bool.true_or, if_true, finishScan]
  exact fun _ _ => hl

end Disk

section CacheOnly

variable {cfg : Config} {lo hi key : Key} {t : LeafEntry} {c : Key → Option Value}
  (env : AttemptEnv)

theorem moveCursor_cacheOnly (h : CacheLeaf cfg lo hi c t.loc) (hcache : cfg.cacheOnly = true) :
    wp (moveCursor cfg env key)
      (fun r t' => t' = t ∧ CursorOk cfg c lo hi key r) (fun _ _ => False) t := by
  simp only [moveCursor, prepareScan, getScanPosition, wp_bind, wp_get]
  split
  · next o hl => rw [hl] at h; exact h.elim
  · next p hl => rw [hl] at h; exact h.elim
  · next p hl =>
    rw [hl] at h
    simp only [hcache, if_true, wp_bind, wp_unwrap, wp_pure, finishScan]
    intro slot hslot
    refine ⟨trivial, .inr ⟨by simp, p, by simp [cursorPage, hl], ?_, fun hf => ?_⟩⟩
    · exact .of_lowerBound h.1.wf (h.1.covers key) h.1.inRange (fun k _ => h.2 k) hslot
    · rw [hcache] at hf
      cases hf
  · next hl =>
    rw [hl] at h
    simp only [hcache, wp_bind, wp_assert, wp_pure, finishScan]
    exact fun _ => ⟨trivial, .inl ⟨rfl, hcache, fun k _ => h k⟩⟩

end CacheOnly

/-- Placing the cursor, in either mode. -/
theorem moveCursor_commits {cfg : Config} {lo hi key : Key} {t : LeafEntry} {c : Key → Option Value}
    (env : AttemptEnv) (h : LeafOk cfg lo hi c t.loc t.vfs) (hf : Fresh t)
    (hr : InRange lo hi key) :
    wp (moveCursor cfg env key)
      (fun r t₁ => CursorOk cfg c lo hi key r ∧ Flushes (Settled cfg lo hi c t) t₁)
      (fun _ t₁ => cfg.cacheOnly = false ∧ Flushes (Committed cfg lo hi c t) t₁) t := by
  cases hc : cfg.cacheOnly with
  | true =>
    rw [leafOk_cacheOnly hc] at h
    refine wp_mono (moveCursor_cacheOnly env h hc) ?_ (fun _ _ hf => hf.elim)
    rintro r t₁ ⟨rfl, hcur⟩
    exact ⟨hcur, (CacheKeeps.same h).settled hf h.offset_eq hc⟩
  | false =>
    obtain ⟨offset, base, hover, rfl⟩ := hf.over h hc
    refine wp_mono (wp_and (moveCursor_root env hover)
      (moveCursor_spec env hover hr hc)) ?_ ?_
    · rintro r t₁ ⟨hroot, hk, hcur⟩
      exact ⟨hcur, hk.settled hf hover.offset_eq hroot hc⟩
    · rintro _ t₁ ⟨hroot, ho⟩
      exact ⟨rfl, ho.committed hf hover.offset_eq hroot hc⟩

end LeafEntry

namespace Tree

variable {cfg : Config} {s : Shape} {C : Key → Option Value} {t : Tree}

theorem CursorOk.congr {c : Key → Option Value} {lo hi key : Key}
    {r : ScanPosition × Option LeafNode} (h : CursorOk cfg c lo hi key r)
    (hc : ∀ k, InRange lo hi k → c k = C k) : CursorOk cfg C lo hi key r := by
  rcases h with ⟨h1, h2, h3⟩ | ⟨h1, p, h2, h3, h4⟩
  · exact .inl ⟨h1, h2, fun k hk => (hc k hk).symm.trans (h3 k hk)⟩
  · exact .inr ⟨h1, p, h2, ⟨h3.wf, h3.inRange, fun k hk => (h3.shows k hk).trans (hc k hk), h3.split⟩,
      h4⟩

/-! Descents allocate nothing in the circular buffer. -/

/-- The program does not run out of space in the circular buffer. -/
def NeverFull {σ α : Type} (m : Prog σ TreeError α) : Prop :=
  ∀ s, wp m (fun _ _ => True) (fun e _ => e ≠ .circularBufferFull) s

namespace NeverFull

variable {σ α β : Type} {m : Prog σ TreeError α}

theorem bind {f : α → Prog σ TreeError β} (hm : NeverFull m) (hf : ∀ a, NeverFull (f a)) :
    NeverFull (m >>= f) :=
  fun s => (wp_bind m f).2 (wp_mono (hm s) (fun a s' _ => hf a s') fun _ _ h => h)

theorem pure (a : α) : NeverFull (σ := σ) (pure a) := fun _ => (wp_pure a).2 trivial

theorem fail {e : TreeError} (he : e ≠ .circularBufferFull) :
    NeverFull (σ := σ) (α := α) (Prog.fail e) := fun _ => (wp_fail e).2 he

theorem crash : NeverFull (σ := σ) (α := α) Prog.crash := fun _ => wp_crash.2 trivial

theorem get : NeverFull (σ := σ) Prog.get := fun _ => wp_get.2 trivial

theorem modify (f : σ → σ) : NeverFull (Prog.modify f) := fun _ => (wp_modify f).2 trivial

theorem unwrap (o : Option α) : NeverFull (σ := σ) (Prog.unwrap o) :=
  fun _ => (wp_unwrap o).2 fun _ _ => trivial

theorem assert (b : Bool) : NeverFull (σ := σ) (Prog.assert b) :=
  fun _ => (wp_assert b).2 fun _ => trivial

theorem ite {c : Prop} [Decidable c] {m' : Prog σ TreeError α} (hm : NeverFull m)
    (hm' : NeverFull m') : NeverFull (if c then m else m') := by
  split
  · exact hm
  · exact hm'

theorem checkLock (b : Bool) : NeverFull (σ := σ) (attempt (BfTree.checkLock b)) := by
  cases b with
  | false => exact fail (by decide)
  | true => exact pure ()

theorem takeGuard (g : Option SnapshotGuard) : NeverFull (σ := σ) (BfTree.takeGuard g) := by
  cases g with
  | none => exact fail (by decide)
  | some g => exact pure g

theorem withLeaf {m : LeafEntry.M α} (hm : NeverFull m) (pid : Nat) (parent : Option Nat) :
    NeverFull (Tree.withLeaf pid parent m) := by
  refine fun t => ⟨fun _ _ _ => trivial, fun e t' ht' => ?_⟩
  simp only [Tree.withLeaf, Option.bind_eq_bind, Option.bind_eq_some_iff] at ht'
  obtain ⟨loc, -, par, -, ⟨r, l⟩, hrun, l', -, heq⟩ := ht'
  obtain ⟨rfl, -⟩ := Prod.mk.inj (Option.some.inj heq)
  exact (hm _).2 e l hrun

theorem forM {γ : Type} {f : γ → Prog σ TreeError PUnit} (hf : ∀ a, NeverFull (f a)) (l : List γ) :
    NeverFull (l.forM f) := by
  induction l with
  | nil => exact pure ()
  | cons a l ih => exact bind (hf a) fun _ => ih

theorem recordRoot (slot : Nat) (pid : PageID) : NeverFull (LeafEntry.recordRoot slot pid) :=
  bind get fun _ => bind (assert _) fun _ => modify _

theorem loadBasePage (offset : Nat) : NeverFull (LeafEntry.loadBasePage offset) := by
  refine bind get fun t => ?_
  split
  · exact pure _
  · exact bind (unwrap _) fun _ => bind (modify _) fun _ => pure _

theorem loadBasePageMut : NeverFull LeafEntry.loadBasePageMut := by
  refine bind get fun t => ?_
  split
  · exact bind (modify _) fun _ => pure _
  · exact bind (unwrap _) fun _ => bind (unwrap _) fun _ => bind (modify _) fun _ => pure _

theorem versionRule {g : SnapshotGuard} {v : Nat} {a : α} {lift : LeafEntry.M α}
    {save : Nat → LeafEntry.M α} (hlift : NeverFull lift) (hsave : ∀ slot, NeverFull (save slot)) :
    NeverFull (LeafEntry.versionRule g v a lift save) := by
  unfold LeafEntry.versionRule
  split
  · exact pure a
  · split
    · exact ite hlift (pure a)
    · exact ite (fail (by decide)) (pure a)
    · exact ite (hsave _) (pure a)
    · exact ite (hsave _) (pure a)

theorem getSplitFlag : NeverFull LeafEntry.getSplitFlag := by
  refine bind get fun t => ?_
  split
  · exact bind (loadBasePage _) fun _ => pure _
  · exact pure _
  · exact pure _
  · exact pure _

theorem splitRootLeaf (cfg : Config) (env : AttemptEnv) (g : SnapshotGuard) :
    NeverFull (LeafEntry.splitRootLeaf cfg env g) := by
  refine bind get fun t => ite ?_ ?_
  · split
    · next page _ =>
      refine bind ?_ fun _ => bind (assert _) fun _ => bind (unwrap _) fun _ =>
        bind (modify _) fun _ => pure _
      refine bind get fun t => versionRule (bind (modify _) fun _ => pure _) fun slot =>
        bind (modify _) fun _ => bind (modify _) fun _ => ?_
      have hroot : NeverFull (if (cfg.cacheOnly && t.parent.isNone) = true then do
            LeafEntry.recordRoot slot (.id t.pid)
            Pure.pure (page.setSnapshotVersion g.version (!cfg.cacheOnly))
          else Pure.pure (page.setSnapshotVersion g.version (!cfg.cacheOnly))) :=
        ite (bind (recordRoot _ _) fun _ => pure _) (pure _)
      exact ite (bind (unwrap _) fun _ => bind (loadBasePage _) fun _ => bind (assert _) fun _ =>
        bind (modify _) fun _ => hroot) hroot
    · exact crash
  · refine bind ?_ fun _ => bind loadBasePageMut fun _ => bind (unwrap _) fun _ =>
      bind (modify _) fun _ => bind (modify _) fun _ => pure _
    refine ite (bind loadBasePageMut fun _ => bind get fun _ => versionRule (modify _) fun slot =>
      bind (modify _) fun _ => bind (modify _) fun _ => ?_) (pure _)
    exact ite (recordRoot _ _) (pure _)

theorem versionRuleInner (g : SnapshotGuard) (nodes : List (Nat × Bool)) :
    NeverFull (Tree.versionRuleInner g nodes) := by
  have hrecord : ∀ slot ptr n isRoot, NeverFull (Tree.recordInner slot ptr n isRoot) := by
    intro slot ptr n isRoot
    refine bind (modify _) fun _ => ite ?_ (pure _)
    exact bind get fun _ => bind (assert _) fun _ => bind (assert _) fun _ =>
      bind (assert _) fun _ => modify _
  have hlift : ∀ ptr isRoot save, NeverFull (Tree.liftInner g ptr isRoot save) := by
    intro ptr isRoot save
    refine bind (bind get fun _ => unwrap _) fun n => ite ?_ (pure _)
    cases save with
    | none => exact modify _
    | some slot => exact bind (hrecord slot ptr n isRoot) fun _ => modify _
  refine bind get fun t => ?_
  split
  · exact pure _
  · split
    · exact forM (fun _ => hlift _ _ _) nodes
    · exact ite (fail (by decide)) (pure _)
    · exact forM (fun _ => hlift _ _ _) nodes
    · exact forM (fun _ => hlift _ _ _) nodes

theorem trySplitLeaf (env : AttemptEnv) (pid : Nat) (parent : Option Nat) :
    NeverFull (Tree.trySplitLeaf env pid parent) := by
  refine bind (withLeaf getSplitFlag _ _) fun _ => ite (pure _) (bind (takeGuard _) fun g =>
    bind (assert _) fun _ => bind ?_ fun _ => pure _)
  exact bind get fun _ => bind (withLeaf (splitRootLeaf _ _ _) _ _) fun _ => bind (unwrap _) fun _ =>
    bind (bind get fun _ => bind (modify _) fun _ => pure _) fun _ => modify _

theorem trySplitInner (env : AttemptEnv) (ptr : Nat) (parent : Option Nat) :
    NeverFull (Tree.trySplitInner env ptr parent) := by
  have hget : ∀ ptr, NeverFull (Tree.getInner ptr) := fun _ => bind get fun _ => unwrap _
  have halloc : ∀ n, NeverFull (Tree.allocInner n) := fun _ => bind get fun _ =>
    bind (modify _) fun _ => pure _
  refine bind (hget _) fun n => ite (pure _) (bind (takeGuard _) fun g => bind ?_ fun _ => pure _)
  cases parent with
  | none =>
    exact bind (checkLock _) fun _ => bind (versionRuleInner _ _) fun _ => bind (hget _) fun _ =>
      bind (unwrap _) fun _ => bind (modify _) fun _ => bind (unwrap _) fun _ =>
      bind (halloc _) fun _ => bind (unwrap _) fun _ => bind (halloc _) fun _ => modify _
  | some p =>
    refine bind (checkLock _) fun _ => bind (checkLock _) fun _ => bind (hget _) fun _ =>
      bind (versionRuleInner _ _) fun _ => bind (hget _) fun _ => bind (unwrap _) fun _ =>
      bind get fun _ => bind ?_ fun _ => bind (unwrap _) fun _ => bind (modify _) fun _ =>
      bind (unwrap _) fun _ => bind (halloc _) fun _ => pure _
    exact bind (hget _) fun _ => ite (modify _) (bind (modify _) fun _ => fail (by decide))

theorem traverseToLeaf (env : AttemptEnv) (key : Key) (aggressive : Bool) :
    NeverFull (Tree.traverseToLeaf env key aggressive) := by
  have hsplit : ∀ cur isLeaf parent, NeverFull (Tree.splitMarked env aggressive cur isLeaf parent) := by
    intro cur isLeaf parent
    refine ite (bind ?_ fun _ => ite (fail (by decide)) (pure _)) (pure _)
    unfold Tree.trySplit
    split
    · exact trySplitLeaf env _ parent
    · exact trySplitInner env _ parent
    · exact pure _
    · exact crash
  refine bind (checkLock _) fun _ => bind get fun t => ?_
  generalize t.inners.length + 1 = fuel
  generalize t.root.isLeaf = isLeaf
  generalize t.root = cur
  generalize (none : Option Nat) = parent
  generalize ([] : Key) = highFence
  induction fuel generalizing cur isLeaf parent highFence with
  | zero => exact crash
  | succ fuel ih =>
    unfold Tree.traverseFrom
    refine bind (hsplit cur isLeaf parent) fun _ => ?_
    split
    · exact pure _
    · exact bind (bind get fun _ => unwrap _) fun n => bind (unwrap _) fun _ => ih _ _ _ _
    · exact crash

end NeverFull

/-- The cursor is placed on the leaf that holds the key. -/
theorem moveCursorToLeaf_reshapes (h : t.Ok cfg s C) (env : AttemptEnv) (key : Key)
    (aggressive : Bool) :
    wp (moveCursorToLeaf env key aggressive)
      (fun r t' => Reshaped cfg C s t.pages.length key t' ∧ ∃ lo hi, InRange lo hi key ∧ r.2.2 = hi ∧
        CursorOk cfg C lo hi key (r.1, r.2.1))
      (fun e t' => Reshaped cfg C s t.pages.length key t' ∧
        (e = .circularBufferFull → cfg.cacheOnly = false)) t := by
  simp only [moveCursorToLeaf, wp_bind, wp_get, wp_pure]
  refine wp_mono (wp_and (NeverFull.traverseToLeaf env key aggressive t)
    (traverseToLeaf_reshapes h env key aggressive)) ?_
    (fun _ _ h₁ => ⟨h₁.2, fun he => absurd he h₁.1⟩)
  rintro landing t₁ ⟨-, h₁, hland, hlen⟩
  rw [h₁.config, ← hlen]
  obtain ⟨loc, par, c, hloc, hpar, hleaf, hc⟩ := h₁.lock hland.alive hland.parent
  have hpatch : patch (s.range (.id landing.pid)).1 (s.range (.id landing.pid)).2 c C = C :=
    patch_eq hc fun _ _ => rfl
  refine wp_withLeaf hloc hpar (wp_mono
    (LeafEntry.moveCursor_commits (t := t₁.lockLeaf landing.pid loc par) env hleaf
      (h₁.fresh hloc par) hland.inRange) (fun r l hl l' hl' => ?_) fun _ l hl l' hl' => ?_)
  · have := h₁.commit hloc hpar hland.parent (.keeps (hl.2 l' hl')) hland.inRange
    rw [hpatch] at this
    exact ⟨this, _, _, hland.inRange, hland.highFence.symm, CursorOk.congr hl.1 hc⟩
  · have := h₁.commit hloc hpar hland.parent (hl.2 l' hl') hland.inRange
    rw [hpatch] at this
    exact ⟨this, fun _ => hl.1⟩

theorem moveCursorToLeaf_spec (h : t.Inv cfg C) (env : AttemptEnv) (key : Key) (aggressive : Bool) :
    wp (moveCursorToLeaf env key aggressive)
      (fun r t' => t'.Inv cfg C ∧ ∃ lo hi, InRange lo hi key ∧ r.2.2 = hi ∧
        CursorOk cfg C lo hi key (r.1, r.2.1))
      (fun e t' => t'.Inv cfg C ∧ (e = .circularBufferFull → cfg.cacheOnly = false)) t := by
  obtain ⟨s, h⟩ := h
  exact wp_mono (moveCursorToLeaf_reshapes h env key aggressive)
    (fun _ _ h₁ => ⟨h₁.1.inv, h₁.2⟩) fun _ _ h₁ => ⟨h₁.1.inv, h₁.2⟩

end Tree

end BfTree
