import BfTree.SearchTree

/-!
# Clean records can be dropped

A cached page holds clean copies of records of the base page besides the dirty ones.
The copies agree with the base page, so a key reads the same when they are left out.
-/

namespace BfTree

open Lib LeafNode

/-- The clean records of a mini page agree with the base page, and whatever leaves them
out shows the same records. -/
structure MiniAgrees (base p : LeafNode) : Prop where
  cache : ∀ m ∈ p.metas, m.opType = .cache → ∃ b ∈ base.metas,
    base.getFullKey b = p.getFullKey m ∧ b.opType = .insert ∧ b.value = m.value
  phantom : ∀ m ∈ p.metas, m.opType = .phantom → ∀ b ∈ base.metas,
    base.getFullKey b = p.getFullKey m → b.opType.isAbsent = true
  /-- Moving the page to the tail, or to a larger place. -/
  copy : ∀ size discardColdCache ver p', p.copyInitializeTo size discardColdCache ver = some p' →
    ∀ k, content base (.mini p') k = content base (.mini p) k
  /-- Merging only the dirty records. -/
  merge : ∀ maxFenceLen base', base.mergeMiniPage p maxFenceLen = some (true, base') →
    ∀ k, live (base'.entry k) = content base (.mini p) k
  /-- Not merging at all when nothing is dirty. -/
  drop : p.needActuallyMergeToDisk = false → ∀ k, live (base.entry k) = content base (.mini p) k

theorem MiniPage.agrees {lo hi : Key} {offset : Nat} {base p : LeafNode}
    (h : MiniPage lo hi offset base p) (hb : BasePage lo hi base) : MiniAgrees base p where
  cache m hm hop := by
    have he := (entry_eq_some h.wf).2 ⟨m, hm, rfl, hop, rfl⟩
    have hclean : live (base.entry (p.getFullKey m)) = some m.value :=
      (h.clean _ _ he rfl).symm.trans (by simp [live, OpType.isAbsent])
    cases hbe : base.entry (p.getFullKey m) with
    | none => rw [hbe] at hclean; cases hclean
    | some e =>
      obtain ⟨op, v⟩ := e
      obtain ⟨b, hmem, hkey, rfl, rfl⟩ := (entry_eq_some hb.wf).1 hbe
      have hdirty := hb.dirty _ _ hbe
      rw [hbe, live] at hclean
      refine ⟨b, hmem, hkey, ?_, ?_⟩
      · cases hb' : b.opType with
        | insert => rfl
        | delete => rw [hb'] at hclean; cases hclean
        | cache => rw [hb'] at hdirty; cases hdirty
        | phantom => rw [hb'] at hdirty; cases hdirty
      · split at hclean
        · cases hclean
        · exact Option.some.inj hclean
  phantom m hm hop b hmem hkey := by
    have he := (entry_eq_some h.wf).2 ⟨m, hm, rfl, hop, rfl⟩
    have hbe := (entry_eq_some hb.wf).2 ⟨b, hmem, hkey, rfl, rfl⟩
    have hclean := h.clean _ _ he rfl
    rw [hbe, live, live] at hclean
    by_contra habs
    rw [if_neg habs] at hclean
    cases hclean
  copy size discard ver p' hp' := (h.copy hp').2
  merge mf base' hm := (hb.mergeMiniPage h hm).2
  drop hd k := (h.content_of_clean hd k).symm

namespace Tree

/-- In every state of a disk-backed tree the clean records agree with the base page:
those of a mini page one by one, those of a full page without dirty records as a whole. -/
theorem clean_records_agree {cfg : Config} {t : Tree} (h : Reachable cfg t)
    (hdisk : cfg.cacheOnly = false) {pid : Nat} {loc : PageLocation}
    (hloc : t.pages[pid]? = some loc) :
    ∃ offset base, loc.offset = some offset ∧ t.vfs offset = some base ∧
      (∀ p, loc = .mini p → MiniAgrees base p) ∧
      ∀ p, loc = .full p → p.needActuallyMergeToDisk = false →
        ∀ k, live (p.entry k) = live (base.entry k) := by
  obtain ⟨C, s, hok⟩ := h.inv
  obtain ⟨c, hleaf, -⟩ := hok.stored.leaf pid loc hloc
  rw [leafOk_disk hdisk] at hleaf
  obtain ⟨offset, base, hb, hbase, hcaches, -⟩ := hleaf
  refine ⟨offset, base, hcaches.offset_eq, hb, ?_, ?_⟩
  · rintro p rfl
    exact MiniPage.agrees hcaches hbase
  · rintro p rfl hd k
    exact FullPage.content_of_clean hcaches hd k

/-- After a split of the root leaf, a read is promoted to a mini page. -/
def promotingAttempts : List Attempt :=
  let v : Value := List.replicate 1900 0
  [.insert calm [1, 2] v false, .insert calm [2, 2] [7, 7] false, .insert calm [3, 2] v false,
    .insert calm [4, 2] v true, .insert calm [4, 2] v true,
    .read { calm with promote := true } [2, 2] [0, 0] false]

/-- The op types of a cached page. -/
def cachedOps : PageLocation → List OpType
  | .mini p | .full p => p.metas.map fun m => m.opType
  | .base _ | .null => []

theorem clean_records_agree_sample : ∃ t loc, Reachable Config.default t ∧
    t.pages[1]? = some loc ∧ cachedOps loc = [.cache] ∧
    ∃ offset base, loc.offset = some offset ∧ t.vfs offset = some base ∧
      ∀ p, loc = .mini p → MiniAgrees base p := by
  obtain ⟨t₀, t, done, hnew, hrun, ht⟩ := fromNew_eq_some
    (by decide +kernel : fromNew Config.default 0 promotingAttempts
      (fun _ t => t.pages[1]?.map cachedOps) = some (some [.cache]))
  obtain ⟨loc, hloc, hops⟩ := Option.map_eq_some_iff.1 ht
  have h : Reachable Config.default t := .attempts _ (.new hnew) (by decide +kernel) hrun
  obtain ⟨offset, base, ho, hb, hmini, -⟩ := clean_records_agree h rfl hloc
  exact ⟨t, loc, h, hloc, hops, offset, base, ho, hb, hmini⟩

end Tree

end BfTree
