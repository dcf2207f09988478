import BfTree.Filled
import BfTree.CleanRecords

/-!
# Cached pages can be reached

The eviction of a cached page needs a key that leads to it, and takes one of its
records. Two kinds of steps may cache a page without records: the split of a cache-only
root leaf, and the promotion of a leaf that is split on the way. As long as each of
these leaves a live record in the pages it makes, no other step of any client takes the
last record out of a cached page.
-/

namespace BfTree

open Lib LeafNode

section Leaf

variable {cfg : Config} {c : Key → Option Value} {lo hi : Key}

theorem LeafOk.isBasePage {loc : PageLocation} {vfs : Nat → Option LeafNode}
    (h : LeafOk cfg lo hi c loc vfs) (p : LeafNode) (hp : loc = .mini p) : p.isBasePage = false := by
  subst hp
  cases hc : cfg.cacheOnly with
  | true =>
    rw [leafOk_cacheOnly hc] at h
    exact h.1.isBasePage
  | false =>
    rw [leafOk_disk hc] at h
    obtain ⟨offset, base, -, -, hcaches, -⟩ := h
    exact MiniPage.isBasePage hcaches

namespace LeafEntry

variable {l l' : LeafEntry}

theorem flush_still (h : l.flush = some l') : Still l l' := by
  unfold flush at h
  split at h
  · obtain ⟨o, -, rfl⟩ := Option.map_eq_some_iff.1 h
    exact ⟨rfl, rfl⟩
  · cases h
    exact ⟨rfl, rfl⟩

theorem Committed.pid_eq (h : l.Committed cfg lo hi c l') : l'.pid = l.pid := by
  cases h with
  | keeps h => exact h.frame.pid
  | splits key sibling h hp => exact h.frame.pid

theorem Committed.sibling_of_root (h : l.Committed cfg lo hi c l') (hp : l.parent = none) :
    l'.sibling = none := by
  cases h with
  | keeps h => exact h.sibling
  | splits key sibling h hg =>
    obtain ⟨q, hq, -⟩ := hg
    rw [hp] at hq
    exact hq.elim

end LeafEntry

end Leaf

namespace Tree

/-- Every cached page has a record, apart from the root leaf of a cache-only tree. -/
def NoEmptyPage (t : Tree) : Prop :=
  ∀ (pid : Nat) (loc : PageLocation), t.pages[pid]? = some loc →
    loc.Filled ∨ t.config.cacheOnly = true ∧ t.root = .id pid

/-- The pages that a step may leave empty: the halves of a cache-only root leaf, and a
leaf whose mini page was merged with a split before the leaf was cached whole. The
latter only happens if reads cache whole pages. -/
def MayEmpty (t t' : Tree) (pid : Nat) : Prop :=
  (t.config.cacheOnly = true ∧ ∃ r, t.root = .id r ∧ t'.root ≠ .id r ∧
    (pid = r ∨ pid = t.pages.length)) ∨
  (t.config.cacheOnly = false ∧ t.config.readRecordCache = false ∧
    (∃ p, t.pages[pid]? = some (.mini p)) ∧ (∃ p, t'.pages[pid]? = some (.full p)) ∧
    t.pages.length < t'.pages.length)

/-- A live record is left in each of these pages. -/
def SplitsLive (t t' : Tree) : Prop :=
  ∀ pid, MayEmpty t t' pid → ∃ key, t'.leafOf key = some pid ∧ t'.lookup key ≠ none

/-- What a step does to the cached pages. -/
structure Refills (t t' : Tree) : Prop where
  config : t'.config = t.config
  page : ∀ (pid : Nat) (loc : PageLocation), t'.pages[pid]? = some loc →
    loc.Filled ∨ t'.config.cacheOnly = true ∧ t'.root = .id pid ∨ MayEmpty t t' pid

/-- The page table and the root stay as they are. -/
structure SamePages (t t' : Tree) : Prop where
  config : t'.config = t.config
  pages : t'.pages = t.pages
  root : t'.root = t.root

variable {cfg : Config} {s : Shape} {C c : Key → Option Value} {t t' : Tree} {pid : Nat}
  {parent : Option Nat} {key : Key}

theorem SamePages.refl (t : Tree) : SamePages t t := ⟨rfl, rfl, rfl⟩

theorem SamePages.trans {t'' : Tree} (h : SamePages t t') (h' : SamePages t' t'') :
    SamePages t t'' :=
  ⟨h'.config.trans h.config, h'.pages.trans h.pages, h'.root.trans h.root⟩

theorem NoEmptyPage.congr (h : t.NoEmptyPage) (hs : SamePages t t') : t'.NoEmptyPage := by
  intro pid loc hloc
  rw [hs.config, hs.root]
  exact h pid loc (hs.pages ▸ hloc)

theorem NoEmptyPage.refills (h : t.NoEmptyPage) (hs : SamePages t t') : Refills t t' :=
  ⟨hs.config, fun pid loc hloc => (h.congr hs pid loc hloc).imp_right .inl⟩

theorem Refills.of_samePages {t₁ : Tree} (hs : SamePages t t₁) (h : Refills t₁ t') : Refills t t' := by
  refine ⟨h.config.trans hs.config, fun pid loc hloc => (h.page pid loc hloc).imp_right ?_⟩
  refine Or.imp_right fun hm => ?_
  rw [MayEmpty, hs.config, hs.pages, hs.root] at hm
  exact hm

/-- A step that keeps the leaves of the page table, and a root that is a leaf. -/
theorem NoEmptyPage.of_pages (h : t.NoEmptyPage) (hc : t'.config = t.config)
    (hp : t'.pages = t.pages) (hroot : t'.root = t.root ∨ ∃ ptr, t.root = .inner ptr) :
    Refills t t' := by
  refine ⟨hc, fun pid loc hloc => ?_⟩
  rw [hp] at hloc
  refine (h pid loc hloc).imp_right fun hr => .inl ⟨hc ▸ hr.1, ?_⟩
  obtain heq | ⟨ptr, hptr⟩ := hroot
  · exact heq.trans hr.2
  · rw [hptr] at hr
    cases hr.2

/-! ## Leaf transactions -/

/-- The page table after a leaf transaction. -/
theorem unlockLeaf_page {l : LeafEntry} (hl : l.pid = pid) {q : Nat} {loc : PageLocation}
    (h : (t.unlockLeaf l).pages[q]? = some loc) :
    q = pid ∧ loc = l.loc ∨ q ≠ pid ∧ t.pages[q]? = some loc ∨
      q = t.pages.length ∧ l.sibling = some loc := by
  simp only [unlockLeaf, hl] at h
  rw [List.getElem?_append, List.length_set, List.getElem?_set] at h
  split at h
  · split at h
    · next heq =>
      obtain ⟨-, rfl⟩ : _ ∧ l.loc = loc := by simpa using h
      exact .inl ⟨heq.symm, rfl⟩
    · next hne => exact .inr (.inl ⟨fun he => hne he.symm, h⟩)
  · next hge =>
    cases hs : l.sibling with
    | none => simp [hs] at h
    | some l₂ =>
      rw [hs, Option.toList_some] at h
      obtain ⟨hlt, rfl⟩ := List.getElem?_eq_some_iff.1 h
      rw [List.length_singleton] at hlt
      exact .inr (.inr ⟨by omega, by simp⟩)

/-- A transaction that caches pages with records only, or is known to have split its leaf. -/
theorem withLeaf_refills {α : Type} {m : LeafEntry.M α} (h : t.Ok cfg s C) (hf : t.NoEmptyPage)
    (hpid : pid < t.pages.length) (hparent : s.parent (.id pid) = parent)
    (hcommit : ∀ (loc : PageLocation) (par : Option Parent) (c : Key → Option Value),
      t.pages[pid]? = some loc →
      LeafOk cfg (s.range (.id pid)).1 (s.range (.id pid)).2 c loc t.vfs →
      Ensures m (LeafEntry.Flushes fun l' => ∃ c', (t.lockLeaf pid loc par).Committed cfg
        (s.range (.id pid)).1 (s.range (.id pid)).2 c' l') (t.lockLeaf pid loc par))
    (hfill : ∀ (loc : PageLocation) (par : Option Parent) (c : Key → Option Value),
      LeafOk cfg (s.range (.id pid)).1 (s.range (.id pid)).2 c loc t.vfs →
      (t.lockLeaf pid loc par).Filled → (cfg.cacheOnly = true → par ≠ none) →
      Ensures m (fun l => l.Filled ∨
        LeafEntry.SplitRead cfg (t.lockLeaf pid loc par) l)
        (t.lockLeaf pid loc par)) :
    Ensures (withLeaf pid parent m) (Refills t) t := by
  obtain ⟨loc, par, c, hloc, hpar, hleaf, -⟩ := h.lock hpid hparent
  by_cases hroot : cfg.cacheOnly = true ∧ t.root = .id pid
  · -- the root leaf may be empty, and no new leaf is split off it
    have hnone : par = none := by
      rw [← hparent, ← hroot.2, h.shaped.root_parent] at hpar
      simpa [parentOf] using hpar.symm
    have hend : ∀ l, LeafEntry.Flushes (fun l' => ∃ c', (t.lockLeaf pid loc par).Committed cfg
        (s.range (.id pid)).1 (s.range (.id pid)).2 c' l') l →
        LeafEntry.Flushes (fun l' => Refills t (t.unlockLeaf l')) l := by
      intro l hl l' hl'
      obtain ⟨c', hc'⟩ := hl l' hl'
      refine ⟨rfl, fun q loc' hq => ?_⟩
      obtain ⟨rfl, -⟩ | ⟨-, hq⟩ | ⟨-, hq⟩ := unlockLeaf_page hc'.pid_eq hq
      · exact .inr (.inl ⟨h.config ▸ hroot.1, hroot.2⟩)
      · exact (hf q loc' hq).imp_right .inl
      · rw [hc'.sibling_of_root hnone] at hq
        cases hq
    exact wp_withLeaf hloc hpar (wp_mono (hcommit loc par c hloc hleaf)
      (fun _ => hend) fun _ => hend)
  · have hlocf : loc.Filled := (hf pid loc hloc).resolve_right (by rw [h.config]; exact hroot)
    have hlock : (t.lockLeaf pid loc par).Filled := ⟨hlocf, by rintro l ⟨⟩⟩
    have hpar' : cfg.cacheOnly = true → par ≠ none := by
      rintro hc rfl
      have hnone : parent = none := by
        cases parent with
        | none => rfl
        | some ptr =>
          obtain ⟨n, -, hn⟩ := parentOf_some hpar
          cases hn
      exact hroot ⟨hc, root_of_parent h hpid (hparent.trans hnone)⟩
    have hend : ∀ l, LeafEntry.Flushes (fun l' => ∃ c', (t.lockLeaf pid loc par).Committed cfg
        (s.range (.id pid)).1 (s.range (.id pid)).2 c' l') l ∧ (l.Filled ∨
        LeafEntry.SplitRead cfg (t.lockLeaf pid loc par) l) →
        LeafEntry.Flushes (fun l' => Refills t (t.unlockLeaf l')) l := by
      rintro l ⟨hl, hcase⟩ l' hl'
      obtain ⟨c', hc'⟩ := hl l' hl'
      have hstill := LeafEntry.flush_still hl'
      have hpid' : l'.pid = pid := hc'.pid_eq
      refine ⟨rfl, fun q loc' hq => ?_⟩
      obtain ⟨rfl, rfl⟩ | ⟨-, hq⟩ | ⟨-, hq⟩ := unlockLeaf_page hpid' hq
      · rcases hcase with hfill | ⟨hdisk, hread, ⟨p, hp⟩, ⟨p', hp'⟩, o, ho⟩
        · exact .inl (hstill.loc ▸ hfill.loc)
        · refine .inr (.inr (.inr ⟨h.config ▸ hdisk, h.config ▸ hread, ⟨p, ?_⟩, ⟨p', ?_⟩, ?_⟩))
          · rw [hloc, show loc = .mini p from hp]
          · rw [hq, hstill.loc, hp']
          · have hsib : l'.sibling = some (.base o) := hstill.sibling.trans ho
            simp [unlockLeaf, hsib]
      · exact (hf q loc' hq).imp_right .inl
      · rw [hstill.sibling] at hq
        rcases hcase with hfill | ⟨-, -, -, -, o, ho⟩
        · exact .inl (hfill.sibling loc' hq)
        · obtain rfl : .base o = loc' := Option.some.inj (ho.symm.trans hq)
          exact .inl trivial
    exact wp_withLeaf hloc hpar (wp_mono (wp_and (hcommit loc par c hloc hleaf)
      (hfill loc par c hleaf hlock hpar')) (fun _ => hend) fun _ => hend)

/-! ## Descents -/

theorem liftInners_samePages (g : SnapshotGuard) (save : Option Nat) (nodes : List (Nat × Bool)) :
    ∀ {t₁ : Tree}, SamePages t t₁ →
      Ensures (nodes.forM fun x => liftInner g x.1 x.2 save) (SamePages t) t₁ := by
  induction nodes with
  | nil => intro t₁ h; exact (wp_pure ()).2 h
  | cons x nodes ih =>
    intro t₁ h
    refine .bind ?_
    simp only [liftInner, wp_bind]
    refine wp_getInner fun n hn => ?_
    refine wp_ite (fun _ => ?_) (fun _ => (wp_pure ()).2 (ih h))
    cases save with
    | none => exact (wp_setInner _ _).2 (ih ⟨h.config, h.pages, h.root⟩)
    | some slot =>
      rw [wp_bind]
      refine wp_mono (recordInner_spec slot x.1 n x.2) ?_ (fun _ _ hf => hf.elim)
      rintro - t₂ ⟨cs, rfl⟩
      exact (wp_setInner _ _).2 (ih ⟨h.config, h.pages, h.root⟩)

theorem versionRuleInner_samePages (g : SnapshotGuard) (nodes : List (Nat × Bool)) :
    Ensures (versionRuleInner g nodes) (SamePages t) t := by
  have hsame := SamePages.refl t
  simp only [Ensures, versionRuleInner, wp_bind, wp_get]
  cases g.slot with
  | none => exact (wp_pure ()).2 hsame
  | some slot =>
    cases g.phase with
    | rest => exact liftInners_samePages g none nodes hsame
    | prepare =>
      exact wp_ite (fun _ => (wp_fail _).2 hsame) fun _ => (wp_pure ()).2 hsame
    | inProgress => exact liftInners_samePages g (some slot) nodes hsame
    | sweep => exact liftInners_samePages g (some slot) nodes hsame

theorem splitBelow_samePages (env : AttemptEnv) (g : SnapshotGuard) (ptr par : Nat) :
    Ensures (splitBelow env g ptr par) (SamePages t) t := by
  have hsame := SamePages.refl t
  simp only [Ensures, splitBelow, wp_bind, wp_attempt]
  refine ⟨fun _ => ⟨fun _ => wp_getInner fun p _ => ?_, fun _ _ => hsame⟩, fun _ _ => hsame⟩
  refine wp_mono (versionRuleInner_samePages g _) (fun _ t₁ h₁ => ?_) fun _ _ h₁ => h₁
  refine wp_getInner fun n hn => ?_
  simp only [wp_unwrap, wp_get, insertSeparator, wp_bind]
  intro splitKey _
  refine wp_getInner fun p hpn => ?_
  refine wp_ite (fun _ => ?_) (fun _ => ?_)
  · simp only [wp_modify]
    rintro ⟨key, left, next, rest⟩ -
    simp only [wp_setInner, wp_allocInner, wp_pure]
    exact fun _ _ => ⟨h₁.config, h₁.pages, h₁.root⟩
  · simp only [wp_bind, wp_setInner, wp_fail]
    exact ⟨h₁.config, h₁.pages, h₁.root⟩

theorem splitRoot_refills (hf : t.NoEmptyPage) {ptr : Nat} (hroot : t.root = .inner ptr)
    (env : AttemptEnv) (g : SnapshotGuard) : Ensures (splitRoot env g ptr) (Refills t) t := by
  simp only [Ensures, splitRoot, wp_bind, wp_attempt]
  refine ⟨fun _ => ?_, fun _ _ => hf.refills (.refl t)⟩
  refine wp_mono (versionRuleInner_samePages g _) (fun _ t₁ h₁ => ?_) fun _ _ h₁ => hf.refills h₁
  refine wp_getInner fun n hn => ?_
  simp only [wp_unwrap]
  rintro ⟨key, left, next, rest⟩ -
  simp only [wp_setInner, wp_allocInner, wp_installRoot]
  exact fun _ _ _ _ => hf.of_pages h₁.config h₁.pages (.inr ⟨ptr, hroot⟩)

/-- Both halves of a cache-only root leaf may be empty. -/
theorem splitLeaf_refills (h : t.Ok cfg s C) (hf : t.NoEmptyPage) (hroot : t.root = .id pid)
    (env : AttemptEnv) (g : SnapshotGuard) : Ensures (splitLeaf env g pid) (Refills t) t := by
  have hshaped := h.shaped
  rw [hroot] at hshaped
  have hrange : s.range (.id pid) = ([], []) := hshaped.root_range
  obtain ⟨loc, par, c, hloc, hpar, hleaf, -⟩ := h.lock hshaped.root_alive hshaped.root_parent
  obtain rfl : none = par := by simpa [parentOf] using hpar
  rw [hrange] at hleaf
  have hbase : cfg.cacheOnly = false → ∃ o, loc = .base o := by
    intro hcache
    obtain ⟨o, ho⟩ := h.rootBase hcache pid hroot
    exact ⟨o, Option.some.inj (hloc.symm.trans ho)⟩
  have hcommit := LeafEntry.splitRootLeaf_commits (t := t.lockLeaf pid loc none) env hleaf
    (h.fresh hloc none) hbase g
  have hfill : cfg.cacheOnly = false →
      Ensures (LeafEntry.splitRootLeaf cfg env g) LeafEntry.Filled (t.lockLeaf pid loc none) := by
    intro hdisk
    obtain ⟨o, rfl⟩ := hbase hdisk
    exact LeafEntry.splitRootLeaf_filled ⟨trivial, by rintro l ⟨⟩⟩ hdisk
  have hboth : wp (LeafEntry.splitRootLeaf cfg env g)
      (fun key l => LeafEntry.Flushes ((t.lockLeaf pid loc none).RootHalved cfg c key) l ∧
        (cfg.cacheOnly = false → l.Filled))
      (fun _ l => LeafEntry.Flushes ((t.lockLeaf pid loc none).Settled cfg [] [] c) l ∧
        (cfg.cacheOnly = false → l.Filled)) (t.lockLeaf pid loc none) :=
    ⟨fun a l hrun => ⟨hcommit.1 a l hrun, fun hd => (hfill hd).1 a l hrun⟩,
      fun e l hrun => ⟨hcommit.2 e l hrun, fun hd => (hfill hd).2 e l hrun⟩⟩
  simp only [Ensures, splitLeaf, wp_bind, wp_get]
  rw [h.config]
  refine wp_withLeaf hloc hpar (wp_mono hboth ?_ ?_)
  · rintro key l ⟨hl, hfl⟩ l' hl'
    simp only [wp_unwrap, wp_installRoot]
    intro n _
    obtain ⟨sibling, hhalved, -, -⟩ := hl l' hl'
    have hstill := LeafEntry.flush_still hl'
    refine ⟨rfl, fun q loc' hq => ?_⟩
    cases hc : cfg.cacheOnly with
    | false =>
      have hfl := hfl hc
      obtain ⟨rfl, rfl⟩ | ⟨-, hq⟩ | ⟨-, hq⟩ := unlockLeaf_page hhalved.frame.pid hq
      · exact .inl (hstill.loc ▸ hfl.loc)
      · refine .inl ((hf q loc' hq).resolve_right fun hr => ?_)
        rw [h.config, hc] at hr
        cases hr.1
      · exact .inl (hfl.sibling loc' (hstill.sibling ▸ hq))
    | true =>
      have hmay : q = pid ∨ q = t.pages.length → MayEmpty t { t.unlockLeaf l' with
          inners := (t.unlockLeaf l').inners ++ [{ n with isRoot := true }]
          root := .inner (t.unlockLeaf l').inners.length } q :=
        fun hq => .inl ⟨h.config ▸ hc, pid, hroot, by simp, hq⟩
      obtain ⟨rfl, -⟩ | ⟨hne, hq⟩ | ⟨rfl, -⟩ := unlockLeaf_page hhalved.frame.pid hq
      · exact .inr (.inr (hmay (.inl rfl)))
      · refine .inl ((hf q loc' hq).resolve_right fun hr => hne ?_)
        rw [hroot] at hr
        exact (PageID.id.inj hr.2).symm
      · exact .inr (.inr (hmay (.inr rfl)))
  · rintro - l ⟨hl, hfl⟩ l' hl'
    have hset := hl l' hl'
    have hstill := LeafEntry.flush_still hl'
    refine ⟨rfl, fun q loc' hq => ?_⟩
    obtain ⟨rfl, rfl⟩ | ⟨-, hq⟩ | ⟨-, hq⟩ := unlockLeaf_page hset.frame.pid hq
    · cases hc : cfg.cacheOnly with
      | false => exact .inl (hstill.loc ▸ (hfl hc).loc)
      | true => exact .inr (.inl ⟨h.config ▸ hc, hroot⟩)
    · exact (hf q loc' hq).imp_right .inl
    · rw [hset.sibling] at hq
      cases hq

theorem getSplitFlag_samePages (h : t.Ok cfg s C) (hpid : pid < t.pages.length)
    (hparent : s.parent (.id pid) = parent) :
    Ensures (withLeaf pid parent LeafEntry.getSplitFlag) (SamePages t) t := by
  obtain ⟨loc, par, c, hloc, hpar, hleaf, -⟩ := h.lock hpid hparent
  have hend : ∀ l, LeafEntry.Flushes ((t.lockLeaf pid loc par).Settled cfg
      (s.range (.id pid)).1 (s.range (.id pid)).2 c) l ∧ LeafEntry.Still (t.lockLeaf pid loc par) l →
      LeafEntry.Flushes (fun l => SamePages t (t.unlockLeaf l)) l := by
    rintro l ⟨hl, hstill⟩ l' hl'
    have hset := hl l' hl'
    refine ⟨rfl, ?_, rfl⟩
    have hloc' : l'.loc = loc := (LeafEntry.flush_still hl').loc.trans hstill.loc
    show t.pages.set l'.pid l'.loc ++ l'.sibling.toList = t.pages
    rw [hset.sibling, hset.frame.pid, hloc', Option.toList_none, List.append_nil]
    obtain ⟨hlt, rfl⟩ := List.getElem?_eq_some_iff.1 hloc
    exact List.set_getElem_self hlt
  exact wp_withLeaf hloc hpar (wp_mono (wp_and
    (LeafEntry.getSplitFlag_commits (t := t.lockLeaf pid loc par) hleaf (h.fresh hloc par))
    LeafEntry.getSplitFlag_still) (fun _ => hend) fun _ => hend)

theorem splitMarked_refills (h : t.Ok cfg s C) (hf : t.NoEmptyPage) {cur : PageID}
    (hcur : cur.Alive t.inners.length t.pages.length) (hparent : s.parent cur = parent)
    (env : AttemptEnv) (aggressive : Bool) :
    wp (splitMarked env aggressive cur cur.isLeaf parent)
      (fun _ => SamePages t) (fun _ => Refills t) t := by
  refine wp_ite (fun _ => ?_) (fun _ => (wp_pure ()).2 (.refl t))
  have hsplit : wp (trySplit env cur cur.isLeaf parent)
      (fun split t' => if split then Refills t t' else SamePages t t') (fun _ => Refills t) t := by
    cases cur with
    | id pid =>
      simp only [PageID.isLeaf, trySplit, trySplitLeaf, wp_bind]
      refine wp_mono (wp_and (withLeaf_getSplitFlag h hcur hparent)
        (getSplitFlag_samePages h hcur hparent)) ?_ (fun _ _ h₁ => hf.refills h₁.2)
      rintro flag t₁ ⟨⟨h₁, hsize⟩, hsame⟩
      refine wp_ite (fun _ => (wp_pure _).2 (by simpa using hsame)) (fun _ => ?_)
      rw [wp_bind]
      refine wp_takeGuard (hf.refills hsame) fun g => ?_
      simp only [wp_bind, wp_assert]
      intro hnone
      have hpar : s.parent (.id pid) = none := hparent.trans (Option.isNone_iff_eq_none.1 hnone)
      have hroot : t₁.root = .id pid := by
        refine root_of_parent h₁ ?_ hpar
        show pid < t₁.pages.length
        rw [hsame.pages]
        exact hcur
      refine wp_mono (splitLeaf_refills h₁ (hf.congr hsame) hroot env g) (fun _ t₂ h₂ => ?_)
        fun _ _ h₂ => h₂.of_samePages hsame
      exact (wp_pure true).2 (h₂.of_samePages hsame)
    | inner ptr =>
      simp only [PageID.isLeaf, trySplit, trySplitInner, wp_bind]
      refine wp_getInner fun n hn => ?_
      refine wp_ite (fun _ => (wp_pure _).2 (by simpa using .refl t)) (fun _ => ?_)
      rw [wp_bind]
      refine wp_takeGuard (hf.refills (.refl t)) fun g => ?_
      have hinner : Ensures (splitInner env g ptr parent) (Refills t) t := by
        cases parent with
        | none => exact splitRoot_refills hf (root_of_parent h hcur hparent) env g
        | some par => exact (splitBelow_samePages env g ptr par).mono fun _ => hf.refills
      rw [wp_bind]
      exact wp_mono hinner (fun _ t₂ h₂ => (wp_pure true).2 h₂) (fun _ _ h₂ => h₂)
  rw [wp_bind]
  refine wp_mono hsplit (fun split t₁ h₁ => ?_) (fun _ _ h₁ => h₁)
  cases split with
  | true => exact (wp_fail _).2 h₁
  | false => exact (wp_pure ()).2 h₁

theorem traverseFrom_refills (env : AttemptEnv) (key : Key) (aggressive : Bool) (fuel : Nat) :
    ∀ {t : Tree} {cur : PageID} {parent : Option Nat} {highFence : Key}, t.Ok cfg s C →
      t.NoEmptyPage → cur.Alive t.inners.length t.pages.length → s.parent cur = parent →
      InRange (s.range cur).1 (s.range cur).2 key →
      wp (traverseFrom env key aggressive fuel cur cur.isLeaf parent highFence)
        (fun _ => SamePages t) (fun _ => Refills t) t := by
  induction fuel with
  | zero => intros; exact wp_crash.2 trivial
  | succ fuel ih =>
    intro t cur parent highFence h hf hcur hparent hkey
    have hsplit := wp_and (splitMarked_spec h hcur hparent env aggressive key)
      (splitMarked_refills h hf hcur hparent env aggressive)
    cases cur with
    | id pid =>
      simp only [PageID.isLeaf, traverseFrom, wp_bind, wp_pure] at hsplit ⊢
      exact wp_mono hsplit (fun _ _ h₁ => h₁.2) fun _ _ h₁ => h₁.2
    | inner ptr =>
      simp only [PageID.isLeaf, traverseFrom, wp_bind] at hsplit ⊢
      refine wp_mono hsplit ?_ fun _ _ h₁ => h₁.2
      rintro - t₁ ⟨⟨h₁, -⟩, hsame⟩
      refine wp_getInner fun n hn => ?_
      rw [wp_unwrap]
      intro x hx
      obtain ⟨y, hy, hchild, hin, -⟩ := (h₁.shaped.inner ptr n hn).route hkey
      obtain rfl : x = y := Option.some.inj (hx.symm.trans hy)
      rw [← hchild.kind]
      exact wp_mono (ih h₁ (hf.congr hsame) hchild.alive hchild.parent hin)
        (fun _ _ h₂ => hsame.trans h₂) fun _ _ h₂ => h₂.of_samePages hsame

theorem traverseToLeaf_refills (h : t.Ok cfg s C) (hf : t.NoEmptyPage) (env : AttemptEnv) (key : Key)
    (aggressive : Bool) :
    wp (traverseToLeaf env key aggressive)
      (fun landing t' => t'.Ok cfg s C ∧ Lands s t' key landing ∧ SamePages t t')
      (fun _ => Refills t) t := by
  have hpages : wp (traverseToLeaf env key aggressive) (fun _ => SamePages t)
      (fun _ => Refills t) t := by
    simp only [traverseToLeaf, wp_bind, wp_attempt, wp_get]
    refine ⟨fun _ => ?_, fun _ _ => hf.refills (.refl t)⟩
    refine traverseFrom_refills env key aggressive _ h hf h.shaped.root_alive h.shaped.root_parent ?_
    rw [h.shaped.root_range]
    exact inRange_nil_nil key
  exact wp_mono (wp_and (traverseToLeaf_spec h env key aggressive) hpages)
    (fun _ _ h₁ => ⟨h₁.1.1, h₁.1.2, h₁.2⟩) fun _ _ h₁ => h₁.2

/-! ## Attempts -/

theorem writeInner_refills (h : t.Ok cfg s C) (hf : t.NoEmptyPage) (env : AttemptEnv) {value : Value}
    {op : OpType} (hw : Writable cfg key value op) (aggressive : Bool) :
    Ensures (writeInner env key value op aggressive) (Refills t) t := by
  refine .bind (wp_mono (traverseToLeaf_refills h hf env key aggressive) ?_ fun _ _ h₁ => h₁)
  rintro landing t₁ ⟨h₁, hland, hsame⟩
  have hstore : Storable cfg (s.range (.id landing.pid)).1 (s.range (.id landing.pid)).2 key value op :=
    ⟨hland.inRange, hw.nonempty, hw.dirty, hw.small⟩
  have hclean : op.isCache = false := by
    have := hw.dirty
    cases op <;> first | rfl | cases this
  simp only [Ensures, wp_bind, wp_get]
  rw [h₁.config]
  refine (withLeaf_refills h₁ (hf.congr hsame) hland.alive hland.parent
    (fun loc par c hloc hleaf => ?_) fun loc par c hleaf hfill hpar => ?_).mono
    fun _ h₂ => h₂.of_samePages hsame
  · exact wp_mono (LeafEntry.write_commits (t := t₁.lockLeaf landing.pid loc par) _ env hleaf
      (h₁.fresh hloc par) h.bounds hstore) (fun _ l hl l' hl' => ⟨_, hl l' hl'⟩) fun _ l hl l' hl' => by
        obtain ⟨c', -, hc'⟩ := hl l' hl'
        exact ⟨c', hc'⟩
  · refine (LeafEntry.write_filled hfill hleaf.isBasePage h.bounds (fun hc => ⟨hpar hc, ?_⟩)
      hclean).mono fun _ => .inl
    intro p hp
    rw [leafOk_cacheOnly hc, show loc = .mini p from hp] at hleaf
    exact ⟨_, _, hleaf.1, hstore⟩

theorem readInner_refills (h : t.Ok cfg s C) (hf : t.NoEmptyPage) (env : AttemptEnv) (hne : key ≠ [])
    (out : List UInt8) (aggressive : Bool) :
    Ensures (readInner env key out aggressive) (Refills t) t := by
  refine .bind (wp_mono (traverseToLeaf_refills h hf env key aggressive) ?_ fun _ _ h₁ => h₁)
  rintro landing t₁ ⟨h₁, hland, hsame⟩
  simp only [Ensures, wp_bind, wp_get]
  rw [h₁.config]
  refine (withLeaf_refills h₁ (hf.congr hsame) hland.alive hland.parent
    (fun loc par c hloc hleaf => ?_) fun loc par c hleaf hfill _ => ?_).mono
    fun _ h₂ => h₂.of_samePages hsame
  · exact wp_mono (LeafEntry.readRecord_commits (t := t₁.lockLeaf landing.pid loc par) _ env hleaf
      (h₁.fresh hloc par) hland.inRange hne out) (fun _ l hl l' hl' => ⟨_, hl.2 l' hl'⟩)
      fun _ l hl l' hl' => ⟨_, hl l' hl'⟩
  · exact LeafEntry.readRecord_filled hfill hleaf.isBasePage h.bounds rfl

theorem moveCursorToLeaf_refills (h : t.Ok cfg s C) (hf : t.NoEmptyPage) (env : AttemptEnv) (key : Key)
    (aggressive : Bool) : Ensures (moveCursorToLeaf env key aggressive) (Refills t) t := by
  refine .bind (wp_mono (traverseToLeaf_refills h hf env key aggressive) ?_ fun _ _ h₁ => h₁)
  rintro landing t₁ ⟨h₁, hland, hsame⟩
  simp only [Ensures, wp_bind, wp_get, wp_pure]
  rw [h₁.config]
  refine (withLeaf_refills h₁ (hf.congr hsame) hland.alive hland.parent
    (fun loc par c hloc hleaf => ?_) fun loc par c _ hfill _ => ?_).mono
    fun _ h₂ => h₂.of_samePages hsame
  · exact wp_mono (LeafEntry.moveCursor_commits (t := t₁.lockLeaf landing.pid loc par) env hleaf
      (h₁.fresh hloc par) hland.inRange) (fun _ l hl l' hl' => ⟨_, .keeps (hl.2 l' hl')⟩)
      fun _ l hl l' hl' => ⟨_, hl.2 l' hl'⟩
  · exact (LeafEntry.moveCursor_filled hfill).mono fun _ => .inl

theorem evictionCallback_refills (h : t.Ok cfg s C) (hf : t.NoEmptyPage) (e : Eviction) :
    Ensures (evictionCallback e) (Refills t) t := by
  refine .bind (wp_mono (evictionKey_same e) ?_ ?_)
  · rintro key t₁ rfl
    refine .bind (wp_mono (traverseToLeaf_refills h hf e.env key true) ?_ fun _ _ h₁ => h₁)
    rintro landing t₁ ⟨h₁, hland, hsame⟩
    refine wp_ite (fun _ => ?_) fun _ => (wp_fail _).2 (hf.refills hsame)
    simp only [wp_bind, wp_get]
    rw [h₁.config]
    refine (withLeaf_refills h₁ (hf.congr hsame) hland.alive hland.parent
      (fun loc par c hloc hleaf => ?_) fun loc par c _ hfill _ => ?_).mono
      fun _ h₂ => h₂.of_samePages hsame
    · refine (LeafEntry.evict_commits (t := t₁.lockLeaf landing.pid loc par) hleaf
        (h₁.fresh hloc par) e.env.leaf).mono fun l hl l' hl' => ?_
      obtain ⟨c', -, hc'⟩ := hl l' hl'
      exact ⟨c', hc'⟩
    · exact (LeafEntry.evict_filled hfill).mono fun _ => .inl
  · rintro - t₁ rfl
    exact hf.refills (.refl _)

/-- What one attempt of a client does to the cached pages. -/
theorem Attempt.exec_refills (h : t.Ok cfg s C) (hf : t.NoEmptyPage) (a : Attempt)
    (ha : a.accepted cfg = true) : Ensures a.exec (Refills t) t := by
  cases a with
  | insert env key value aggressive => exact writeInner_refills h hf env (writable_insert ha) aggressive
  | delete env key aggressive =>
    exact writeInner_refills h hf env (writable_delete h.bounds ha) aggressive
  | read env key out aggressive =>
    simp only [Ensures, exec, wp_bind, wp_pure]
    exact readInner_refills h hf env (validKey_iff.1 ha).2.2 out aggressive
  | scan env key aggressive =>
    simp only [Ensures, exec, wp_bind, wp_pure]
    exact moveCursorToLeaf_refills h hf env key aggressive
  | evict e => exact evictionCallback_refills h hf e

/-! ## Runs -/

/-- A page from which a key is served is not empty. -/
theorem Ok.filled_of_lookup (h : t.Ok cfg s C) {loc : PageLocation} (hloc : t.pages[pid]? = some loc)
    (hleaf : t.leafOf key = some pid) (hk : t.lookup key ≠ none)
    (hkind : cfg.cacheOnly = true ∨ ∀ p, loc ≠ .mini p) : loc.Filled := by
  obtain ⟨c, hok, -⟩ := h.stored.leaf pid loc hloc
  rw [lookup, hleaf, Option.bind_eq_bind, Option.bind_some, hloc, Option.bind_eq_bind,
    Option.bind_some] at hk
  cases loc with
  | base o => trivial
  | null => trivial
  | full p => exact ne_nil_of_entry (k := key) fun he => hk (by rw [readLeaf, he]; rfl)
  | mini p =>
    have hcache := hkind.resolve_right fun hm => hm p rfl
    rw [leafOk_cacheOnly hcache] at hok
    refine ne_nil_of_entry (k := key) fun he => hk ?_
    rw [readLeaf, he, overlay_none, readBehind, PageLocation.offset, hok.1.nextLevel]
    rfl

theorem Refills.noEmptyPage (h : t'.Ok cfg s C) (hr : Refills t t') (hl : SplitsLive t t') :
    t'.NoEmptyPage := by
  intro pid loc hloc
  obtain hfill | hroot | hmay := hr.page pid loc hloc
  · exact .inl hfill
  · exact .inr hroot
  · obtain ⟨key, hleaf, hk⟩ := hl pid hmay
    refine .inl (h.filled_of_lookup hloc hleaf hk ?_)
    rcases hmay with ⟨hc, -⟩ | ⟨-, -, -, ⟨p, hp⟩, -⟩
    · left
      rw [← h.config, hr.config]
      exact hc
    · right
      intro q hq
      rw [hloc, hq] at hp
      cases hp

/-- The trees that attempts lead to whose splits leave live records. -/
inductive ReachableLive (cfg : Config) : Tree → Prop
  | new {ver : Nat} {t : Tree} (h : withConfig cfg ver = some (.ok t)) : ReachableLive cfg t
  | step {t t' : Tree} {a : Attempt} {r : Except TreeError Unit} (h : ReachableLive cfg t)
      (ha : a.accepted cfg = true) (hstep : a.exec t = some (r, t')) (hlive : SplitsLive t t') :
      ReachableLive cfg t'

theorem ReachableLive.reachable (h : ReachableLive cfg t) : Reachable cfg t := by
  induction h with
  | new h => exact .new h
  | step _ ha hstep _ ih => exact .step ih ha hstep

theorem withConfig_noEmptyPage {ver : Nat} (h : withConfig cfg ver = some (.ok t)) :
    t.NoEmptyPage := by
  simp only [withConfig, Option.bind_eq_bind, Option.bind_eq_some_iff] at h
  obtain ⟨r, -, h⟩ := h
  cases r with
  | error e => cases h
  | ok u =>
    obtain ⟨sizeClasses, -, h⟩ := Option.bind_eq_some_iff.1 h
    obtain rfl : _ = t := Except.ok.inj (Option.some.inj h)
    intro pid loc hloc
    cases pid with
    | succ pid => cases hloc
    | zero =>
      cases hc : cfg.cacheOnly with
      | true => exact .inr ⟨rfl, rfl⟩
      | false =>
        simp only [hc] at hloc
        cases hloc
        exact .inl trivial

theorem ReachableLive.noEmptyPage (h : ReachableLive cfg t) : t.NoEmptyPage := by
  induction h with
  | new h => exact withConfig_noEmptyPage h
  | @step t t' a r h ha hstep hlive ih =>
    obtain ⟨C, s, hok⟩ := h.reachable.inv
    obtain ⟨C', s', hok'⟩ := (h.reachable.step ha hstep).inv
    have hrefill := a.exec_refills hok ih ha
    cases r with
    | ok u => exact (hrefill.1 u t' hstep).noEmptyPage hok' hlive
    | error e => exact (hrefill.2 e t' hstep).noEmptyPage hok' hlive

/-- A disk-backed tree whose reads cache single records never has such a split. -/
theorem Reachable.live (h : Reachable cfg t) (hdisk : cfg.cacheOnly = false)
    (hread : cfg.readRecordCache = true) : ReachableLive cfg t := by
  induction h with
  | new h => exact .new h
  | @step t t' a r h ha hstep ih =>
    obtain ⟨C, s, hok⟩ := h.inv
    refine .step ih ha hstep ?_
    rintro pid (⟨hc, -⟩ | ⟨-, hr, -⟩)
    · rw [hok.config, hdisk] at hc
      cases hc
    · rw [hok.config, hread] at hr
      cases hr

/-- The page is a mini page. -/
def isMini (t : Tree) (pid : Nat) : Bool :=
  match t.pages[pid]? with
  | some (.mini _) => true
  | _ => false

/-- A page of a leaf below the root that no key leads to. -/
def unreachablePage (t : Tree) (pid : Nat) : Bool :=
  t.root ≠ .id pid && match t.pages[pid]? with
    | some (.mini page) | some (.full page) => page.getKeyToReachThisNode = none
    | _ => false

/-- The root leaf of a cache-only tree is full and marked. Before it is split, another
client deletes the record of its left half. -/
def emptyHalfAttempts : List Attempt :=
  let v : Value := List.replicate 1900 0
  [.insert calm [1, 2] v false, .insert calm [2, 2] v false, .insert calm [3, 2] v false,
    .delete calm [1, 2] false, .insert calm [3, 2] v true]

/-- The records below the middle of a leaf are deleted, and a mini page holds a record
for the upper half. A read of the leaf caches it whole, and splits it on the way. -/
def emptyPromotionAttempts : List Attempt :=
  let v : Value := List.replicate 1900 0
  let evict : Attempt := .evict ⟨0, [], calm⟩
  [.insert calm [1, 2] v false, .insert calm [2, 2] [7, 7] false, .insert calm [5, 2] v false,
    .insert calm [6, 2] v true, .insert calm [6, 2] v true,
    .insert calm [0, 1] (List.replicate 1000 0) false, evict,
    .insert calm [0, 2] (List.replicate 1065 0) false, evict,
    .delete calm [0, 1] false, .delete calm [0, 2] false, evict,
    .insert calm [1, 5] (List.replicate 100 0) false,
    .read { calm with promote := true } [1, 2] v false]

end Tree

end BfTree
