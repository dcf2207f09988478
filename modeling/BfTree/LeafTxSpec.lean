import BfTree.CacheSpec

/-!
# What leaf transactions do to the map

The transactions of clients and of the eviction, first on a disk-backed leaf, then on
a cache-only leaf. The last part forgets the mode: after a transaction the leaf stores
the new map, or it has handed the upper part of its range to a new leaf.
-/

namespace BfTree

open Lib LeafNode

theorem wp_takeGuard {σ : Type} {o : Option SnapshotGuard} {Q : SnapshotGuard → σ → Prop}
    {E : TreeError → σ → Prop} {s : σ} (hfail : E .needRestart s) (hok : ∀ g, Q g s) :
    wp (takeGuard o) Q E s := by
  cases o with
  | none => exact (wp_fail _).2 hfail
  | some g => exact (wp_pure g).2 (hok g)

namespace LeafEntry

/-! ## Disk-backed leaves -/

section Disk

variable {lo hi key : Key} {offset : Nat} {base mini : LeafNode} {t : LeafEntry}
  {value : Value} {op : OpType} {c : Key → Option Value} (cfg : Config) (sizeClasses : List Nat)
  (env : AttemptEnv)

theorem refresh_spec (h : Over lo hi offset base t) :
    wp (refresh cfg env)
      (fun _ t' => Keeps lo hi offset (content base t.loc) t t' ∧ t'.parent = t.parent)
      (fun _ _ => False) t := by
  have hsame : Keeps lo hi offset (content base t.loc) t t := ⟨⟨base, h, fun _ => rfl⟩, .refl t⟩
  have hmove := moveCachePageToTail_spec h cfg env.move
  simp only [refresh, wp_bind, wp_get]
  split
  · refine wp_ite (fun _ => ?_) (fun _ => (wp_pure ()).2 ⟨hsame, rfl⟩)
    exact (wp_ignore _).2 hmove
  · refine wp_ite (fun _ => ?_) (fun _ => (wp_pure ()).2 ⟨hsame, rfl⟩)
    exact (wp_ignore _).2 hmove
  · exact (wp_pure ()).2 ⟨hsame, rfl⟩
  · exact wp_crash.2 trivial

theorem write_spec (h : Over lo hi offset base t) (hr : InRange lo hi key) (hne : key ≠ [])
    (hop : op.isDirty = true) (hdisk : cfg.cacheOnly = false) :
    wp (write cfg sizeClasses env key value op)
      (fun _ => Keeps lo hi offset (written (content base t.loc) key value op) t)
      (fun _ => Outcome lo hi offset (content base t.loc) t) t := by
  have hinsert : wp (do
      insert cfg sizeClasses env.leaf key value op
      refresh cfg env)
      (fun _ => Keeps lo hi offset (written (content base t.loc) key value op) t)
      (fun _ => Outcome lo hi offset (content base t.loc) t) t := by
    rw [wp_bind]
    refine wp_mono (insert_spec cfg sizeClasses env.leaf h hr hne (.inl hop) hdisk)
      (fun _ t₁ h₁ => ?_) (fun _ _ ho => ho)
    obtain ⟨⟨base₁, hb₁, hc₁⟩, hk₁⟩ := h₁
    refine wp_mono (refresh_spec cfg env hb₁) (fun _ t₂ h₂ => ?_) (fun _ _ hf => hf.elim)
    rw [funext hc₁] at h₂
    exact .trans hk₁ h₂.1
  simp only [write, wp_bind, wp_get]
  have hc := h.caches
  split
  · next hl => rw [hl] at hc; exact hc.elim
  · exact hinsert

/-- A base page in the buffer is cached whole. -/
theorem upgradeBuffered_spec (h : Over lo hi offset base t) (hl : t.loc = .base offset) (env : Env) :
    Ensures (do
        let p ← loadBasePageFromBuffer
        let loc ← upgradeToFullPage cfg env p (some offset)
        setLoc loc)
      (fun t' => Keeps lo hi offset (content base t.loc) t t' ∧ t'.parent = t.parent) t := by
  have hsame : Keeps lo hi offset (content base t.loc) t t := ⟨⟨base, h, fun _ => rfl⟩, .refl t⟩
  simp only [Ensures, loadBasePageFromBuffer, wp_bind, wp_get, wp_unwrap,
    wp_pure]
  intro b hb
  have hbase := h.base_eq
  rw [basePage?_of_some hb, Option.some.injEq] at hbase
  rw [hbase]
  refine wp_mono (upgradeToFullPage_spec h cfg env) ?_ ?_
  · rintro loc t₁ ⟨rfl, hc, he⟩
    rw [wp_setLoc]
    refine ⟨.of_loc h hc fun k => ?_, rfl⟩
    rw [he k, hl, content_base]
  · rintro e t₁ rfl
    exact ⟨hsame, rfl⟩

theorem upgradeLeaf_spec (h : Over lo hi offset base t) (env : Env) :
    Ensures (upgradeLeaf cfg env) (Outcome lo hi offset (content base t.loc) t) t := by
  have hsame : Outcome lo hi offset (content base t.loc) t t :=
    .keeps ⟨⟨base, h, fun _ => rfl⟩, .refl t⟩
  have hc := h.caches
  simp only [Ensures, upgradeLeaf, wp_bind, wp_get]
  split
  · next p hl =>
    simp only [wp_bind, wp_attempt]
    refine ⟨fun _ => ?_, fun _ _ => hsame⟩
    refine wp_mono (tryMergeMiniPage_spec h hl cfg env) (fun _ t₁ hm => ?_)
      (fun _ _ hk => .keeps (hl ▸ hk))
    obtain ⟨q, hq, hn⟩ := hm.loc
    refine changeToBaseLoc_spec (.inl hq) hn ?_
    rw [(h.caches_mini hl).nextLevel]
    have hup := hm.outcome.andThen fun hi' c' hs => by
      obtain ⟨base₁, h₁, hc₁⟩ := hs
      obtain rfl := funext hc₁
      exact upgradeBuffered_spec cfg h₁ rfl env
    simp only [Ensures, wp_bind] at hup
    rw [hl]
    exact hup
  · exact (wp_pure ()).2 hsame
  · next o hl =>
    rw [hl] at hc
    obtain rfl : o = offset := hc
    rw [wp_bind]
    refine wp_mono (loadBasePage_spec h) ?_ (fun _ _ hf => hf.elim)
    rintro p t₁ ⟨rfl, h₁, -, b, rfl⟩
    have hkept : Kept t { t with tmpBuffer := b } := .of_local _ _ _ _
    rw [wp_bind]
    refine wp_mono (upgradeToFullPage_spec h₁ cfg env) ?_ ?_
    · rintro loc t₂ ⟨rfl, hc, he⟩
      rw [wp_setLoc]
      refine .keeps (.trans hkept (.of_loc h₁ hc fun k => ?_))
      rw [he k, hl, content_base]
    · rintro e t₂ rfl
      exact .keeps ⟨⟨p, h₁, fun _ => rfl⟩, hkept⟩
  · exact wp_crash.2 trivial

theorem written_cache {key : Key} {value : Value} (h : c key = some value) :
    written c key value .cache = c := by
  funext k
  rw [written]
  split
  · next hk => rw [hk, h]; rfl
  · rfl

theorem promoteRead_spec (h : Over lo hi offset base t) (hr : InRange lo hi key) (hne : key ≠ [])
    (hop : Insertable base t key value .cache) (hv : content base t.loc key = some value)
    (hdisk : cfg.cacheOnly = false) :
    Ensures (promoteRead cfg sizeClasses env key value)
      (Outcome lo hi offset (content base t.loc) t) t := by
  have hend : ∀ e t', Outcome lo hi offset (content base t.loc) t t' →
      wp (if e = TreeError.locked then pure () else Prog.fail e)
        (fun _ => Outcome lo hi offset (content base t.loc) t)
        (fun _ => Outcome lo hi offset (content base t.loc) t) t' := fun e t' ho =>
    wp_ite (fun _ => (wp_pure ()).2 ho) (fun _ => (wp_fail e).2 ho)
  simp only [Ensures, promoteRead, wp_handle]
  refine wp_ite (fun _ => ?_) (fun _ => ?_)
  · refine wp_mono (insert_spec cfg sizeClasses env.leaf h hr hne hop hdisk) (fun _ t₁ h₁ => ?_)
      hend
    rw [written_cache hv] at h₁
    exact .keeps h₁
  · exact wp_mono (upgradeLeaf_spec cfg h env.leaf) (fun _ _ ho => ho) hend

theorem readRecord_spec (h : Over lo hi offset base t) (hr : InRange lo hi key) (hne : key ≠ [])
    (out : List UInt8) (hdisk : cfg.cacheOnly = false) :
    wp (readRecord cfg sizeClasses env key out)
      (fun r t' => ReadsAs (content base t.loc) key r.1 r.2 ∧
        Outcome lo hi offset (content base t.loc) t t')
      (fun _ => Outcome lo hi offset (content base t.loc) t) t := by
  simp only [readRecord, wp_bind]
  refine wp_mono (read_spec h hr out cfg hdisk) ?_ (fun _ _ hf => hf.elim)
  rintro ⟨r, out'⟩ t₁ ⟨hres, hk₁, hp₁⟩
  have hmoved : ∀ res, ReadsAs (content base t.loc) key res out' →
      wp (do
        if env.leafUpgrade then refresh cfg env
        pure (res, out'))
      (fun r t' => ReadsAs (content base t.loc) key r.1 r.2 ∧
        Outcome lo hi offset (content base t.loc) t t')
      (fun _ => Outcome lo hi offset (content base t.loc) t) t₁ := by
    intro res hres
    obtain ⟨⟨base₁, h₁, hc₁⟩, hkept⟩ := hk₁
    refine wp_ite (fun _ => ?_) (fun _ => ?_)
    · rw [wp_bind]
      refine wp_mono (refresh_spec cfg env h₁) (fun _ t₂ h₂ => ?_) (fun _ _ hf => hf.elim)
      rw [funext hc₁] at h₂
      exact (wp_pure _).2 ⟨hres, .keeps (.trans hkept h₂.1)⟩
    · exact (wp_pure _).2 ⟨hres, .keeps ⟨⟨base₁, h₁, hc₁⟩, hkept⟩⟩
  cases r with
  | mini res => exact hmoved res hres
  | full res => exact hmoved res hres
  | none => exact hres.elim
  | base res =>
    obtain ⟨hread, hnf, base₁, h₁, hc₁, hlive⟩ := hres
    have hkeep : Outcome lo hi offset (content base t.loc) t t₁ := .keeps hk₁
    simp only [hdisk, Bool.false_eq_true, if_false, wp_bind, wp_get]
    cases res with
    | deleted => exact (wp_pure _).2 ⟨hread, hkeep⟩
    | notFound => exact (wp_pure _).2 ⟨hread, hkeep⟩
    | found n =>
      refine wp_ite (fun hcond => ?_) (fun _ => (wp_pure _).2 ⟨hread, hkeep⟩)
      simp only [Bool.and_eq_true] at hcond
      have hv : content base t.loc key = some (out'.take n) := hread
      have hop : Insertable base₁ t₁ key (out'.take n) .cache := by
        refine .inr ⟨rfl, by rw [hlive, hv], ?_, hnf⟩
        exact Option.isSome_iff_ne_none.1 hcond.1.1
      rw [wp_bind]
      refine wp_mono (promoteRead_spec cfg sizeClasses env h₁ hr hne hop
        (by rw [hc₁, hv]) hdisk) (fun _ t₂ h₂ => ?_) (fun _ t₂ h₂ => ?_)
      · rw [funext hc₁] at h₂
        exact (wp_pure _).2 ⟨hread, h₂.of_kept hk₁.kept⟩
      · rw [funext hc₁] at h₂
        exact h₂.of_kept hk₁.kept

theorem evict_spec (h : Over lo hi offset base t) (env : Env) (hdisk : cfg.cacheOnly = false) :
    Ensures (evict cfg env) (Outcome lo hi offset (content base t.loc) t) t := by
  have hsame : Outcome lo hi offset (content base t.loc) t t :=
    .keeps ⟨⟨base, h, fun _ => rfl⟩, .refl t⟩
  simp only [Ensures, evict, wp_bind, wp_get]
  split
  · next p hl =>
    simp only [wp_bind, wp_assert, wp_attempt, hdisk, Bool.false_eq_true, if_false]
    refine fun _ => ⟨fun _ => ?_, fun _ _ => hsame⟩
    refine wp_mono (tryMergeMiniPage_spec h hl cfg env) (fun _ t₁ hm => ?_)
      (fun _ _ hk => .keeps (hl ▸ hk))
    obtain ⟨q, hq, hn⟩ := hm.loc
    rw [hl]
    exact changeToBaseLoc_spec (.inl hq) hn hm.outcome
  · next p hl =>
    exact wp_mono (mergeFullPage_spec h hl cfg) (fun _ _ hk => .keeps hk.1)
      (fun _ _ hf => hf.elim)
  · exact (wp_fail _).2 hsame
  · exact (wp_fail _).2 hsame

theorem getSplitFlag_spec (h : Over lo hi offset base t) :
    Ensures getSplitFlag (Keeps lo hi offset (content base t.loc) t) t := by
  have hsame : Keeps lo hi offset (content base t.loc) t t :=
    ⟨⟨base, h, fun _ => rfl⟩, .refl t⟩
  have hc := h.caches
  simp only [Ensures, getSplitFlag, wp_bind, wp_get]
  split
  · next o hl =>
    rw [hl] at hc
    obtain rfl : o = offset := hc
    rw [wp_bind]
    refine wp_mono (loadBasePage_spec h) ?_ (fun _ _ hf => hf.elim)
    rintro p t₁ ⟨rfl, h₁, -, b, rfl⟩
    exact (wp_pure _).2 ⟨⟨p, h₁, fun _ => rfl⟩, .of_local _ _ _ _⟩
  · exact (wp_pure _).2 hsame
  · exact (wp_pure _).2 hsame
  · exact (wp_pure _).2 hsame

/-- The root leaf holds all keys, and is split at one of its records. -/
theorem splitRootLeaf_spec (h : Over [] [] offset base t) (hl : t.loc = .base offset)
    (g : SnapshotGuard) (hdisk : cfg.cacheOnly = false) :
    wp (splitRootLeaf cfg env g)
      (fun key t' => ∃ sibling, SplitOff [] [] offset (content base t.loc) t t' key sibling ∧
        SameParent t.parent t'.parent ∧ t'.inserted = t.inserted)
      (fun _ t' => Keeps [] [] offset (content base t.loc) t t' ∧ t'.loc = t.loc) t := by
  simp only [splitRootLeaf, wp_bind, wp_get, hdisk, Bool.false_eq_true, if_false]
  refine wp_mono (versionRuleBase_spec h g) ?_ ?_
  · rintro - t₁ ⟨base₁, hs₁, h₁, hl₁, hk₁⟩
    refine wp_mono (loadBasePageMut_spec h₁) ?_ (fun _ _ hf => hf.elim)
    rintro p t₂ ⟨rfl, rfl, h₂⟩
    simp only [wp_unwrap, wp_writeBase, wp_modify, wp_pure]
    rintro ⟨key, left, sibling⟩ hsplit
    obtain ⟨-, hres, m, hm, hkey⟩ := split_spec h₂.basePage.wf hsplit
    obtain ⟨hbl, hbs, hel, hes⟩ := h₂.basePage.halves hres
    have hc : ∀ k, live (p.entry k) = content base t.loc k := by
      intro k
      rw [hs₁.entry, hl, content_base]
    have hne : key ≠ [] := by
      rintro rfl
      exact h₂.basePage.wf.entry_ne_none hm (hkey ▸ h₂.basePage.nonempty)
    refine ⟨sibling, ⟨Lib.nil_lt_iff.2 hne, .inl rfl, ⟨left, .of_dirty hbl ?_ rfl, fun k => ?_⟩,
      hbs, fun k => ?_, ?_, ?_, hk₁.pid⟩, hk₁.parent, hk₁.inserted⟩
    · rw [hl₁, hl]; rfl
    · rw [hl₁, hl, content_base, hel, hc, hl]
    · rw [hes, hc]
    · rw [hk₁.vfs, hk₁.nextOffset]
    · rw [hk₁.nextOffset]
  · rintro - t₁ ⟨base₁, hs₁, h₁, hl₁, hk₁⟩
    refine ⟨⟨⟨base₁, h₁, fun k => ?_⟩, hk₁⟩, hl₁⟩
    rw [hl₁]
    exact content_congr t.loc (fun k => by rw [hs₁.entry]) k

/-! ### The root leaf

A leaf without parent takes its records itself: it never has a page that caches it. -/

def RootStays (t t' : LeafEntry) : Prop :=
  t.parent = none → ∀ o, t.loc = .base o → t'.loc = .base o

theorem ensures_rootStays {α : Type} {m : M α}
    (h : t.parent = none → ∀ o, t.loc = .base o → Ensures m (fun t' => t'.loc = .base o) t) :
    Ensures m (RootStays t) t :=
  ⟨fun a t' hm hp o hl => (h hp o hl).1 a t' hm, fun e t' hm hp o hl => (h hp o hl).2 e t' hm⟩

theorem insertBase_root (h : Over lo hi offset base t) (hp : t.parent = none)
    (hl : t.loc = .base offset) (env : Env) (g : SnapshotGuard) :
    Ensures (insertBase cfg sizeClasses env g offset key value op)
      (fun t' => t'.loc = .base offset) t := by
  simp only [Ensures, insertBase, wp_bind]
  refine wp_mono (versionRuleBase_spec h g) ?_ ?_
  · rintro - t₁ ⟨base₁, -, h₁, hl₁, hk₁⟩
    have hp₁ : t₁.parent = none := by
      have := hk₁.parent
      rw [hp] at this
      cases hq : t₁.parent with
      | none => rfl
      | some q => rw [hq] at this; exact this.elim
    simp only [wp_get, hp₁, Option.isNone_none, if_true, wp_bind]
    refine wp_mono (loadBasePageMut_spec h₁) ?_ (fun _ _ hf => hf.elim)
    rintro p t₂ ⟨-, rfl, -⟩
    simp only [wp_unwrap]
    rintro ⟨success, p'⟩ -
    refine wp_ite (fun _ => ?_) (fun _ => ?_)
    · rw [wp_writeBase]
      exact hl₁.trans hl
    · simp only [wp_bind, wp_writeBase, wp_fail]
      exact hl₁.trans hl
  · rintro - t₁ ⟨-, -, -, hl₁, -⟩
    exact hl₁.trans hl

theorem insert_root (h : Over lo hi offset base t) (env : Env) (hdisk : cfg.cacheOnly = false) :
    Ensures (insert cfg sizeClasses env key value op) (RootStays t) t := by
  refine ensures_rootStays fun hp o hl => ?_
  have hc := h.caches
  rw [hl] at hc
  obtain rfl : o = offset := hc
  simp only [Ensures, insert]
  cases env.snapshotGuard with
  | none => exact (wp_fail _).2 hl
  | some g =>
    simp only [wp_bind, wp_get, hl, hdisk, Bool.false_eq_true, if_false]
    exact insertBase_root cfg sizeClasses h hp hl env g

theorem write_root (h : Over lo hi offset base t) (hdisk : cfg.cacheOnly = false) :
    Ensures (write cfg sizeClasses env key value op) (RootStays t) t := by
  refine ensures_rootStays fun hp o hl => ?_
  simp only [Ensures, write, wp_bind, wp_get, hl]
  refine wp_mono (insert_root cfg sizeClasses h env.leaf hdisk) ?_
    (fun _ _ hroot => hroot hp o hl)
  intro _ t₁ hroot
  have hl₁ := hroot hp o hl
  simp only [refresh, wp_bind, wp_get, hl₁, wp_pure]

theorem readRecord_root (h : Over lo hi offset base t) (hr : InRange lo hi key)
    (out : List UInt8) (hdisk : cfg.cacheOnly = false) :
    Ensures (readRecord cfg sizeClasses env key out) (RootStays t) t := by
  refine ensures_rootStays fun hp o hl => ?_
  have hc := h.caches
  rw [hl] at hc
  obtain rfl : o = offset := hc
  simp only [Ensures, readRecord, read, wp_bind, wp_get, hl]
  refine wp_mono (readBase_spec h hr out) ?_ (fun _ _ hf => hf.elim)
  rintro ⟨r, out'⟩ t₁ ⟨res, base', rfl, -, -, -, hl₁, -, hp₁⟩
  simp only [hdisk, Bool.false_eq_true, if_false, wp_bind, wp_get]
  cases res with
  | found n =>
    refine wp_ite (fun hcond => ?_) (fun _ => (wp_pure _).2 (hl₁.trans hl))
    rw [hp₁, hp] at hcond
    simp at hcond
  | deleted => exact (wp_pure _).2 (hl₁.trans hl)
  | notFound => exact (wp_pure _).2 (hl₁.trans hl)

theorem evict_root (env : Env) : Ensures (evict cfg env) (RootStays t) t := by
  refine ensures_rootStays fun hp o hl => ?_
  simp only [Ensures, evict, wp_bind, wp_get, hl, wp_fail]

theorem getSplitFlag_root (h : Over lo hi offset base t) :
    Ensures getSplitFlag (RootStays t) t := by
  refine ensures_rootStays fun hp o hl => ?_
  have hc := h.caches
  rw [hl] at hc
  obtain rfl : o = offset := hc
  simp only [Ensures, getSplitFlag, wp_bind, wp_get, hl]
  refine wp_mono (loadBasePage_spec h) ?_ (fun _ _ hf => hf.elim)
  rintro p t₁ ⟨-, -, -, b, rfl⟩
  exact (wp_pure _).2 hl

end Disk

/-! ## Cache-only mode -/

section CacheOnly

variable {cfg : Config} {lo hi key : Key} {value : Value} {op : OpType} {p : LeafNode}
  {t : LeafEntry} {c : Key → Option Value} (sizeClasses : List Nat) (env : AttemptEnv)

theorem CacheKeeps.of_leaf {loc : PageLocation} (h : CacheLeaf cfg lo hi c loc) :
    CacheKeeps cfg lo hi c t { t with loc := loc } :=
  ⟨h, .of_local t _ t.tmpBuffer t.captures, rfl⟩

theorem CacheKeeps.same (h : CacheLeaf cfg lo hi c t.loc) : CacheKeeps cfg lo hi c t t :=
  ⟨h, .refl t, rfl⟩

theorem moveCachePageToTail_cacheOnly (h : CacheLeaf cfg lo hi c t.loc) (env : Env) :
    Ensures (moveCachePageToTail cfg env)
      (fun t' => ∃ loc, CacheLeaf cfg lo hi c loc ∧ t' = { t with loc := loc }) t := by
  simp only [Ensures, moveCachePageToTail, wp_bind, wp_get]
  split
  · next p hl =>
    have hsame : ∃ loc, CacheLeaf cfg lo hi c loc ∧ t = { t with loc := loc } := ⟨t.loc, h, rfl⟩
    rw [hl] at h
    simp only [wp_bind, wp_attempt, wp_unwrap, wp_setLoc]
    refine ⟨fun _ => ⟨fun _ => ?_, fun _ _ => hsame⟩, fun _ _ => hsame⟩
    intro moved hmoved
    obtain ⟨hm, he⟩ := h.1.copy hmoved
    have hflag : SameRecords moved (if p.versionChanged then
        { moved.setSnapshotVersion p.snapshotVersion false with versionChanged := true }
        else moved.setSnapshotVersion p.snapshotVersion false) := by
      split
      · exact .setSnapshotVersion moved p.snapshotVersion true
      · exact .setSnapshotVersion moved p.snapshotVersion false
    have hleaf : CacheLeaf cfg lo hi c (.mini (if p.versionChanged then
        { moved.setSnapshotVersion p.snapshotVersion false with versionChanged := true }
        else moved.setSnapshotVersion p.snapshotVersion false)) :=
      ⟨hm.congr hflag, fun k => by rw [hflag.entry, he, h.2]⟩
    exact ⟨_, hleaf, rfl⟩
  · next p hl =>
    rw [hl] at h
    exact h.elim
  · exact wp_crash.2 trivial
  · exact wp_crash.2 trivial

theorem refresh_cacheOnly (h : CacheLeaf cfg lo hi c t.loc) :
    wp (refresh cfg env)
      (fun _ t' => ∃ loc, CacheLeaf cfg lo hi c loc ∧ t' = { t with loc := loc })
      (fun _ _ => False) t := by
  have hmove : wp (if env.aboutToEvict then Prog.ignore (moveCachePageToTail cfg env.move)
      else pure ())
      (fun _ t' => ∃ loc, CacheLeaf cfg lo hi c loc ∧ t' = { t with loc := loc })
      (fun _ _ => False) t :=
    wp_ite (fun _ => (wp_ignore _).2 (moveCachePageToTail_cacheOnly h env.move))
      (fun _ => (wp_pure ()).2 ⟨t.loc, h, rfl⟩)
  simp only [refresh, wp_bind, wp_get]
  split
  · exact hmove
  · exact hmove
  · exact (wp_pure ()).2 ⟨t.loc, h, rfl⟩
  · exact wp_crash.2 trivial

/-- A change of the leaf's page after the transaction. -/
theorem CacheOutcome.andThen {α : Type} {t₁ : LeafEntry} {m : M α} (h : CacheOutcome cfg lo hi c t t₁)
    (hm : ∀ hi' c', CacheLeaf cfg lo hi' c' t₁.loc → wp m
      (fun _ t' => ∃ loc, CacheLeaf cfg lo hi' c' loc ∧ t' = { t₁ with loc := loc })
      (fun _ _ => False) t₁) :
    wp m (fun _ => CacheOutcome cfg lo hi c t) (fun _ _ => False) t₁ := by
  cases h with
  | keeps h =>
    refine wp_mono (hm hi c h.leaf) ?_ (fun _ _ hf => hf)
    rintro - t₂ ⟨loc, hl, rfl⟩
    exact .keeps (.trans h.kept h.tmpBuffer (.of_leaf hl))
  | splits key sibling h hp =>
    refine wp_mono (hm key _ h.left) ?_ (fun _ _ hf => hf)
    rintro - t₂ ⟨loc, hl, rfl⟩
    exact .splits key sibling ⟨h.lo_lt, h.lt_hi, hl, h.right, h.right_live, h.vfs, h.tmpBuffer,
      h.sibling_eq, h.pid⟩ hp

theorem writeNull_spec (hl : t.loc = .null) (h : CacheLeaf cfg lo hi c t.loc)
    (hs : Storable cfg lo hi key value op) :
    wp (writeNull cfg sizeClasses env key value op)
      (fun _ => CacheKeeps cfg lo hi (written c key value op) t)
      (fun _ => CacheKeeps cfg lo hi c t) t := by
  have hsame := CacheKeeps.same h
  have hnone : ∀ k, c k = none := by
    rw [hl] at h
    exact h
  rw [writeNull]
  refine wp_ite (fun _ => wp_crash.2 trivial) (fun _ => ?_)
  refine wp_ite (fun hop => ?_) (fun _ => ?_)
  · rw [wp_pure]
    have hw : written c key value op = c := by
      funext k
      rw [written]
      split
      · rw [hop, hnone]; rfl
      · rfl
    rw [hw]
    exact hsame
  · simp only [wp_bind, wp_unwrap]
    intro size _
    refine wp_takeGuard hsame fun g => ?_
    rw [wp_attempt]
    refine ⟨fun _ => ?_, fun _ _ => hsame⟩
    rintro ⟨success, mini⟩ hins
    simp only [wp_assert, wp_setLoc]
    intro hsuccess
    obtain rfl : success = true := hsuccess
    obtain ⟨hp, he⟩ := (CachePage.empty cfg lo hi size g.version).insert hs hins
    refine .of_leaf ⟨hp, fun k => ?_⟩
    rw [he]
    congr 1
    funext k
    simp [LeafNode.initializeMiniPage, hnone, live]

theorem write_cacheOnly (h : CacheLeaf cfg lo hi c t.loc) (hs : Storable cfg lo hi key value op)
    (hcfg : cfg.Bounds) (hcache : cfg.cacheOnly = true) :
    wp (write cfg sizeClasses env key value op)
      (fun _ => CacheOutcome cfg lo hi (written c key value op) t)
      (fun _ t' => ∃ c', LosesOff key c c' ∧ CacheKeeps cfg lo hi c' t t') t := by
  simp only [write, wp_bind, wp_get]
  split
  · next hl =>
    exact wp_mono (writeNull_spec sizeClasses env hl h hs) (fun _ _ hk => .keeps hk)
      (fun _ _ hk => ⟨c, .refl key c, hk⟩)
  · next hl =>
    obtain ⟨p, hp⟩ : ∃ p, t.loc = .mini p := by
      cases hloc : t.loc with
      | mini p => exact ⟨p, rfl⟩
      | full p => rw [hloc] at h; exact h.elim
      | base o => rw [hloc] at h; exact h.elim
      | null => exact (hl hloc).elim
    rw [hp] at h
    rw [wp_bind]
    refine wp_mono (insert_cacheOnly sizeClasses env.leaf h.1 h.2 hp hcfg hcache) ?_
      (fun _ _ hk => ⟨_, losesOff_dropsKey _ key c, hk⟩)
    intro _ t₁ ho
    refine wp_mono ((ho hs).andThen fun hi' c' hc' => refresh_cacheOnly env hc')
      (fun _ _ h => h) (fun _ _ hf => hf.elim)

theorem readRecord_cacheOnly (h : CacheLeaf cfg lo hi c t.loc) (out : List UInt8)
    (hcache : cfg.cacheOnly = true) :
    wp (readRecord cfg sizeClasses env key out)
      (fun r t' => ReadsAs c key r.1 r.2 ∧ CacheKeeps cfg lo hi c t t')
      (fun _ _ => False) t := by
  simp only [readRecord, read, wp_bind, wp_get]
  split
  · next o hl => rw [hl] at h; exact h.elim
  · next q hl => rw [hl] at h; exact h.elim
  · next p hl =>
    rw [hl] at h
    simp only [wp_bind, wp_unwrap, wp_setLoc]
    rintro ⟨r, out', p'⟩ hread
    obtain ⟨hw, hh, he, hres⟩ := readByKeyInner_spec h.1.wf (h.1.covers key) hread
    have hleaf : CacheLeaf cfg lo hi c (.mini p') :=
      ⟨h.1.congr (.of_sameHeader h.1.wf hw hh he), fun k => by rw [he, h.2]⟩
    have hkeep : CacheKeeps cfg lo hi c t { t with loc := .mini p' } := .of_leaf hleaf
    have hmoved : ∀ res, ReadsAs c key res out' → wp (do
          if env.leafUpgrade then refresh cfg env
          pure (res, out'))
        (fun r t' => ReadsAs c key r.1 r.2 ∧ CacheKeeps cfg lo hi c t t')
        (fun _ _ => False) { t with loc := .mini p' } := by
      intro res hres
      refine wp_ite (fun _ => ?_) (fun _ => (wp_pure _).2 ⟨hres, hkeep⟩)
      rw [wp_bind]
      refine wp_mono (refresh_cacheOnly env hleaf) ?_ (fun _ _ hf => hf)
      rintro - t₂ ⟨loc, hloc, rfl⟩
      exact (wp_pure _).2 ⟨hres, .of_leaf hloc⟩
    cases r with
    | found n =>
      rw [wp_pure]
      exact hmoved _ (by rw [ReadsAs, ← h.2]; exact hres)
    | deleted =>
      rw [wp_pure]
      exact hmoved _ (by rw [ReadsAs, ← h.2]; exact hres.1)
    | notFound =>
      simp only [hcache, if_true, wp_pure]
      refine ⟨?_, hkeep⟩
      rw [ReadsAs, ← h.2]
      exact (congrArg live hres).trans rfl
  · next hl =>
    have hnone : c key = none := by
      rw [hl] at h
      exact h key
    simp only [wp_pure]
    exact ⟨hnone, .same h⟩

/-- An evicted page takes all its records along. -/
theorem evict_cacheOnly (h : CacheLeaf cfg lo hi c t.loc) (env : Env)
    (hcache : cfg.cacheOnly = true) :
    Ensures (evict cfg env)
      (fun t' => ∃ c', (∀ k, c' k = c k ∨ c' k = none) ∧ CacheKeeps cfg lo hi c' t t') t := by
  have hsame : ∃ c', (∀ k, c' k = c k ∨ c' k = none) ∧ CacheKeeps cfg lo hi c' t t :=
    ⟨c, fun _ => .inl rfl, .same h⟩
  simp only [Ensures, evict, wp_bind, wp_get]
  split
  · simp only [wp_bind, wp_assert, wp_attempt, hcache, if_true, wp_setLoc]
    refine fun _ => ⟨fun _ => ⟨fun _ => none, fun _ => .inr rfl, .of_leaf fun _ => rfl⟩,
      fun _ _ => hsame⟩
  · next p hl => rw [hl] at h; exact h.elim
  · exact (wp_fail _).2 hsame
  · exact (wp_fail _).2 hsame

theorem getSplitFlag_cacheOnly (h : CacheLeaf cfg lo hi c t.loc) :
    Ensures getSplitFlag (CacheKeeps cfg lo hi c t) t := by
  simp only [Ensures, getSplitFlag, wp_bind, wp_get]
  split
  · next o hl => rw [hl] at h; exact h.elim
  · exact (wp_pure _).2 (.same h)
  · exact (wp_pure _).2 (.same h)
  · exact (wp_pure _).2 (.same h)

theorem splitRootLeaf_cacheOnly (h : CacheLeaf cfg [] [] c t.loc) (g : SnapshotGuard)
    (hcache : cfg.cacheOnly = true) :
    wp (splitRootLeaf cfg env g)
      (fun key t' => ∃ sibling, CacheSplitOff cfg [] [] c t t' key sibling ∧
        SameParent t.parent t'.parent ∧ t'.inserted = t.inserted)
      (fun _ => CacheKeeps cfg [] [] c t) t := by
  simp only [splitRootLeaf, wp_bind, wp_get, hcache, if_true]
  split
  · next p hl =>
    have hsame : CacheKeeps cfg [] [] c t t := .same h
    rw [hl] at h
    rw [wp_bind]
    refine wp_mono (versionRuleMini_cacheOnly g hl hcache) ?_ ?_
    · rintro q t₁ ⟨hq, -, -, hk₁, hb₁, -⟩
      simp only [wp_bind, wp_assert, wp_unwrap, wp_modify, wp_pure]
      rintro - ⟨key, left, sibling⟩ hsplit
      have hq' := h.1.congr hq
      have hc : ∀ k, live (q.entry k) = c k := fun k => by rw [hq.entry, h.2]
      obtain ⟨-, hres, m, hm, hkey⟩ := split_spec hq'.wf hsplit
      obtain ⟨hl', hr', hel, her⟩ := hq'.split hres
      have hne : key ≠ [] := by
        rintro rfl
        exact hq'.wf.entry_ne_none hm (hkey ▸ hq'.nonempty)
      refine ⟨sibling, ⟨Lib.nil_lt_iff.2 hne, .inl rfl, ⟨hl', fun k => ?_⟩, hr', fun k => ?_,
        hk₁.vfs, hb₁, rfl, hk₁.pid⟩, hk₁.parent, hk₁.inserted⟩
      · rw [hel, hc]
      · rw [her, hc]
    · rintro e t' rfl
      exact hsame
  · exact wp_crash.2 trivial

end CacheOnly

end LeafEntry

end BfTree
