import BfTree.Attempts
import BfTree.Nodes.PageInvariant
import BfTree.SizeClasses
import BfTree.TreeStable

/-!
# Properties of all pages of a tree

A page invariant holds of every page that a tree ever has: in its page table, on disk and
in the buffers of the transactions. Each transaction is followed through its program; only
the page operations it calls matter.
-/

namespace BfTree

open Lib LeafNode

/-- The page of an entry, if it caches one, has the property. -/
def PageLocation.All (P : LeafNode → Prop) : PageLocation → Prop
  | .mini p | .full p => P p
  | .base _ | .null => True

namespace LeafEntry

theorem vfs_update {P : LeafNode → Prop} {vfs : Nat → Option LeafNode} {offset : Nat}
    {page : LeafNode} (h : ∀ o p, vfs o = some p → P p) (hpage : P page) (o : Nat) (p : LeafNode)
    (hp : Function.update vfs offset (some page) o = some p) : P p := by
  by_cases ho : o = offset
  · subst ho
    rw [Function.update_self] at hp
    exact Option.some.inj hp ▸ hpage
  · rw [Function.update_of_ne ho] at hp
    exact h o p hp

/-- All pages that a transaction reaches have the property. -/
structure AllPages (P : LeafNode → Prop) (t : LeafEntry) : Prop where
  loc : t.loc.All P
  buffer : ∀ b, t.tmpBuffer = some b → P b.page
  vfs : ∀ o p, t.vfs o = some p → P p
  sibling : ∀ l, t.sibling = some l → l.All P

variable {cfg : Config} {classes : List Nat} {P : LeafNode → Prop} {α : Type}

/-- The transaction keeps the property for all pages; `R` holds of what it returns. -/
abbrev KeepsPages (P : LeafNode → Prop) (R : α → Prop) (m : M α) : Prop :=
  Prog.Holds (AllPages P) R m

/-! ## Storage -/

theorem holds_setLoc {loc : PageLocation} (h : loc.All P) :
    KeepsPages P (fun _ => True) (setLoc loc) :=
  .modify fun _ ht => { ht with loc := h }

theorem holds_setBuffer {b : TmpBuffer} (h : P b.page) : KeepsPages P (fun _ => True) (setBuffer b) :=
  .modify fun _ ht => { ht with buffer := fun _ hb => Option.some.inj hb ▸ h }

theorem holds_writeBase {page : LeafNode} (h : P page) :
    KeepsPages P (fun _ => True) (writeBase page) :=
  holds_setBuffer h

theorem holds_setParent (p : Parent) : KeepsPages P (fun _ => True) (setParent p) :=
  .modify fun _ ht => ⟨ht.loc, ht.buffer, ht.vfs, ht.sibling⟩

theorem holds_insertParent (p : Parent) (key : Key) (child : PageID) :
    KeepsPages P (fun _ => True) (insertParent p key child) :=
  .modify fun _ ht => ⟨ht.loc, ht.buffer, ht.vfs, ht.sibling⟩

theorem holds_record (slot : Nat) (c : Capture) : KeepsPages P (fun _ => True) (record slot c) :=
  .modify fun _ ht => ⟨ht.loc, ht.buffer, ht.vfs, ht.sibling⟩

theorem holds_recordRoot (slot : Nat) (pid : PageID) :
    KeepsPages P (fun _ => True) (recordRoot slot pid) :=
  .bind .get fun _ _ => .bind (.assert _) fun _ _ => holds_record _ _

theorem holds_attempt (outcome : Option TreeError) :
    KeepsPages P (fun _ => True) (attempt outcome) := by
  cases outcome with
  | none => exact .pure trivial
  | some e => exact .fail e

theorem holds_takeGuard (guard : Option SnapshotGuard) :
    KeepsPages P (fun _ => True) (takeGuard guard) := by
  cases guard with
  | none => exact .fail _
  | some g => exact .pure trivial

theorem holds_loadBasePage (offset : Nat) : KeepsPages P P (loadBasePage offset) := by
  unfold loadBasePage
  refine .bind .get fun t ht => ?_
  cases hb : t.tmpBuffer with
  | some b => exact .pure (ht.buffer b hb)
  | none =>
    refine .bind (.unwrap _) fun page hpage => ?_
    exact .bind (holds_setBuffer (ht.vfs _ _ hpage)) fun _ _ => .pure (ht.vfs _ _ hpage)

theorem holds_loadBasePageFromBuffer : KeepsPages P P loadBasePageFromBuffer := by
  unfold loadBasePageFromBuffer
  refine .bind .get fun t ht => .bind (.unwrap _) fun b hb => ?_
  exact .pure (ht.buffer b hb)

theorem holds_loadBasePageMut : KeepsPages P P loadBasePageMut := by
  unfold loadBasePageMut
  refine .bind .get fun t ht => ?_
  cases hb : t.tmpBuffer with
  | some b =>
    exact .bind (holds_setBuffer (ht.buffer b hb)) fun _ _ => .pure (ht.buffer b hb)
  | none =>
    refine .bind (.unwrap _) fun offset _ => .bind (.unwrap _) fun page hpage => ?_
    exact .bind (holds_setBuffer (ht.vfs _ _ hpage)) fun _ _ => .pure (ht.vfs _ _ hpage)

theorem holds_changeToBaseLoc : KeepsPages P (fun _ => True) changeToBaseLoc := by
  unfold changeToBaseLoc
  refine .bind .get fun t _ => ?_
  cases t.loc with
  | mini page => exact .bind (.unwrap _) fun _ _ => holds_setLoc trivial
  | full page => exact .bind (.unwrap _) fun _ _ => holds_setLoc trivial
  | base offset => exact .crash
  | null => exact .crash

/-- The base page of a new leaf is written. -/
theorem holds_addBase {page : LeafNode} (h : P page) : KeepsPages P (fun _ => True)
    (Prog.modify fun t => { t with
      vfs := Function.update t.vfs t.nextOffset (some page)
      sibling := some (.base t.nextOffset) }) := by
  refine .modify fun t ht => ⟨ht.loc, ht.buffer, ?_, fun l hsib => Option.some.inj hsib ▸ trivial⟩
  exact vfs_update ht.vfs h

/-- A dirty buffer is written back. -/
theorem AllPages.flush {t t' : LeafEntry} (h : t.AllPages P) (hf : t.flush = some t') :
    t'.AllPages P := by
  unfold LeafEntry.flush at hf
  split at hf
  · next page hb =>
    obtain ⟨o, -, rfl⟩ := Option.map_eq_some_iff.1 hf
    exact ⟨h.loc, h.buffer, vfs_update h.vfs (h.buffer _ hb), h.sibling⟩
  · cases hf
    exact h

/-! ## Version rules -/

theorem holds_versionRule {R : α → Prop} {g : SnapshotGuard} {version : Nat} {same : α} {lift : M α}
    {save : Nat → M α} (hsame : R same) (hlift : KeepsPages P R lift)
    (hsave : ∀ slot, KeepsPages P R (save slot)) :
    KeepsPages P R (versionRule g version same lift save) := by
  unfold versionRule
  cases g.slot with
  | none => exact .pure hsame
  | some slot =>
    cases g.phase with
    | rest => exact .ite (fun _ => hlift) fun _ => .pure hsame
    | prepare => exact .ite (fun _ => .fail _) fun _ => .pure hsame
    | inProgress => exact .ite (fun _ => hsave slot) fun _ => .pure hsame
    | sweep => exact .ite (fun _ => hsave slot) fun _ => .pure hsame

theorem holds_recordInner (slot : Nat) (p : Parent) :
    KeepsPages P (fun _ => True) (recordInner slot p) := by
  unfold recordInner
  refine .bind (holds_record _ _) fun _ _ => ?_
  exact .ite (fun _ => holds_recordRoot _ _) fun _ => .pure trivial

theorem holds_versionRuleParent (g : SnapshotGuard) (p : Parent) :
    KeepsPages P (fun _ => True) (versionRuleParent g p) := by
  unfold versionRuleParent
  refine holds_versionRule trivial ?_ fun slot => ?_
  · exact .bind (holds_setParent _) fun _ _ => .pure trivial
  · refine .bind (holds_recordInner _ _) fun _ _ => ?_
    exact .bind (holds_setParent _) fun _ _ => .pure trivial

theorem holds_liftParent (g : SnapshotGuard) (p : Parent) (save : Option Nat) :
    KeepsPages P (fun _ => True) (liftParent g p save) := by
  unfold liftParent
  refine .ite (fun _ => ?_) fun _ => .pure trivial
  cases save with
  | none => exact .bind (holds_setParent _) fun _ _ => .pure trivial
  | some slot =>
    refine .bind (holds_recordInner _ _) fun _ _ => ?_
    exact .bind (holds_setParent _) fun _ _ => .pure trivial

section Invariant

variable (hP : PageInvariant cfg classes P)
include hP

theorem holds_versionRuleBase (g : SnapshotGuard) :
    KeepsPages P (fun _ => True) (versionRuleBase g) := by
  unfold versionRuleBase
  refine .ite (fun _ => .bind holds_loadBasePageMut fun page hpage => ?_) fun _ => .pure trivial
  have hlift := holds_writeBase (hP.setSnapshotVersion hpage g.version false)
  refine .bind .get fun t _ => holds_versionRule trivial hlift fun slot => ?_
  refine .bind (holds_record _ _) fun _ _ => .bind hlift fun _ _ => ?_
  exact .ite (fun _ => holds_recordRoot _ _) fun _ => .pure trivial

theorem holds_versionRuleFull (g : SnapshotGuard) {page : LeafNode} (hpage : P page) :
    KeepsPages P P (versionRuleFull g page) := by
  unfold versionRuleFull
  have hlifted := hP.setSnapshotVersion hpage g.version true
  have hset : (PageLocation.full (page.setSnapshotVersion g.version true)).All P := hlifted
  refine .bind .get fun t _ => holds_versionRule hpage ?_ fun slot => ?_
  · exact .bind (holds_setLoc hset) fun _ _ => .pure hlifted
  · refine .bind (holds_record _ _) fun _ _ => ?_
    exact .bind (holds_setLoc hset) fun _ _ => .pure hlifted

theorem holds_versionRuleMini (g : SnapshotGuard) {page : LeafNode} (hpage : P page) :
    KeepsPages P P (versionRuleMini cfg g page) := by
  unfold versionRuleMini
  have hlifted := hP.setSnapshotVersion hpage g.version (!cfg.cacheOnly)
  have hset : (PageLocation.mini (page.setSnapshotVersion g.version (!cfg.cacheOnly))).All P := hlifted
  refine .bind .get fun t _ => holds_versionRule hpage ?_ fun slot => ?_
  · exact .bind (holds_setLoc hset) fun _ _ => .pure hlifted
  · refine .bind (holds_record _ _) fun _ _ => .bind (holds_setLoc hset) fun _ _ => ?_
    dsimp only
    have hroot : KeepsPages P P (do
        if cfg.cacheOnly && t.parent.isNone then recordRoot slot (.id t.pid)
        pure (page.setSnapshotVersion g.version (!cfg.cacheOnly))) :=
      .ite (fun _ => .bind (holds_recordRoot _ _) fun _ _ => .pure hlifted) fun _ => .pure hlifted
    refine .ite (fun _ => ?_) fun _ => hroot
    refine .bind (.unwrap _) fun _ _ => .bind (holds_loadBasePage _) fun _ _ => ?_
    exact .bind (.assert _) fun _ _ => .bind (holds_record _ _) fun _ _ => hroot

theorem holds_liftMini (g : SnapshotGuard) {mini base : LeafNode} (hmini : P mini) (hbase : P base)
    (save : Option Nat) : KeepsPages P (fun r => P r.1 ∧ P r.2) (liftMini g mini base save) := by
  unfold liftMini
  have hlifted := hP.setSnapshotVersion hmini g.version true
  have hset : (PageLocation.mini (mini.setSnapshotVersion g.version true)).All P := hlifted
  refine .bind .get fun t _ => .ite (fun _ => ?_) fun _ => .pure ⟨hmini, hbase⟩
  cases save with
  | none => exact .bind (holds_setLoc hset) fun _ _ => .pure ⟨hlifted, hbase⟩
  | some slot =>
    have hbase' := hP.setSnapshotVersion hbase g.version false
    refine .bind (holds_record _ _) fun _ _ => .bind (holds_setLoc hset) fun _ _ => ?_
    refine .bind (holds_record _ _) fun _ _ => ?_
    exact .bind (holds_writeBase hbase') fun _ _ => .pure ⟨hlifted, hbase'⟩

theorem holds_versionRuleMerge (g : SnapshotGuard) (p : Parent) {mini base : LeafNode}
    (hmini : P mini) (hbase : P base) :
    KeepsPages P (fun r => P r.2.1 ∧ P r.2.2) (versionRuleMerge g p mini base) := by
  have hlift : ∀ save, KeepsPages P (fun r : Parent × LeafNode × LeafNode => P r.2.1 ∧ P r.2.2) (do
      let p ← liftParent g p save
      let pages ← liftMini g mini base save
      pure (p, pages)) := fun save =>
    .bind (holds_liftParent _ _ _) fun _ _ => .bind (holds_liftMini hP g hmini hbase save)
      fun _ hr => .pure hr
  unfold versionRuleMerge
  cases g.slot with
  | none => exact .pure ⟨hmini, hbase⟩
  | some slot =>
    cases g.phase with
    | rest => exact hlift none
    | prepare => exact .ite (fun _ => .fail _) fun _ => .pure ⟨hmini, hbase⟩
    | inProgress => exact hlift (some slot)
    | sweep => exact hlift (some slot)

/-! ## Full pages and merges -/

theorem holds_upgradeToFullPage (env : Env) {base : LeafNode} (hbase : P base) (offset : Option Nat) :
    KeepsPages P (fun loc => loc.All P) (upgradeToFullPage cfg env base offset) := by
  unfold upgradeToFullPage
  refine .bind (holds_attempt _) fun _ _ => .bind (.assert _) fun _ _ => ?_
  refine .bind (.unwrap _) fun full hfull => .pure ?_
  exact hP.congr (hP.covertInsertRecordsToCache hbase hfull) ⟨rfl, rfl, rfl, rfl, rfl, rfl, rfl⟩

theorem holds_mergeFullPage {page : LeafNode} (hpage : P page) :
    KeepsPages P (fun _ => True) (mergeFullPage cfg page) := by
  unfold mergeFullPage
  refine .bind (.assert _) fun _ _ => .ite (fun _ => holds_changeToBaseLoc) fun _ => ?_
  refine .bind holds_changeToBaseLoc fun _ _ => .bind .get fun _ _ => ?_
  refine .bind (.assert _) fun _ _ => holds_writeBase ?_
  exact hP.congr (hP.convertCacheRecordsToInsert hpage) ⟨rfl, rfl, rfl, rfl, rfl, rfl, rfl⟩

theorem holds_mergeFullPageAndDealloc (env : Env) {page : LeafNode} (hpage : P page) :
    KeepsPages P (fun _ => True) (mergeFullPageAndDealloc cfg env page) :=
  .bind (holds_attempt _) fun _ _ => holds_mergeFullPage hP hpage

theorem distribute_all {mf : Nat} {splitKey : Key} {pairs : List (Key × Value × OpType)}
    (hsmall : PageInvariant.Small cfg pairs) {pages pages' : LeafNode × LeafNode} (h₁ : P pages.1)
    (h₂ : P pages.2) (h : distribute mf splitKey pairs pages = some pages') :
    P pages'.1 ∧ P pages'.2 := by
  induction pairs generalizing pages with
  | nil =>
    cases h
    exact ⟨h₁, h₂⟩
  | cons e pairs ih =>
    obtain ⟨key, value, op⟩ := e
    obtain ⟨left, sibling⟩ := pages
    have hrest : PageInvariant.Small cfg pairs := fun e he => hsmall e (List.mem_cons_of_mem _ he)
    have hsize := hsmall _ List.mem_cons_self
    rw [distribute] at h
    split at h
    · split at h
      · next sibling' hins =>
        have h₂' : P sibling' := hP.insert h₂ hsize hins
        exact @ih hrest (left, sibling') h₁ h₂' h
      · cases h
    · split at h
      · next left' hins =>
        have h₁' : P left' := hP.insert h₁ hsize hins
        exact @ih hrest (left', sibling) h₁' h₂ h
      · cases h

theorem holds_mergeAndSplit (env : Env) {mini base : LeafNode} (hmini : P mini) (hbase : P base) :
    KeepsPages P (fun _ => True) (mergeAndSplit cfg env mini base) := by
  unfold mergeAndSplit
  rcases env.mergeGuard with _ | g
  · exact .bind (R := fun _ => False) (.fail _) fun _ h => h.elim
  dsimp only
  refine .bind (R := fun _ => True) (.pure trivial) fun g _ => ?_
  refine .bind (holds_attempt _) fun _ _ => .bind .get fun t _ => .bind (.unwrap _) fun p _ => ?_
  refine .bind (.unwrap _) fun r hr => ?_
  obtain ⟨splitKey, base'⟩ := r
  have hbase' := hP.getMergeSplitKey hbase hr
  refine .bind (holds_writeBase hbase') fun _ _ => ?_
  refine .bind (holds_versionRuleMerge hP g p hmini hbase') fun r hr => ?_
  obtain ⟨p', mini', base''⟩ := r
  refine .ite (fun _ => ?_) fun _ => .bind (holds_setParent _) fun _ _ => .fail _
  refine .bind (.unwrap _) fun pages hpages => .bind (holds_insertParent _ _ _) fun _ _ => ?_
  refine .bind (.unwrap _) fun r hd => ?_
  obtain ⟨left, sibling⟩ := r
  obtain ⟨hl, hs⟩ := hP.splitWithKey hr.2 hpages
  obtain ⟨hl', hs'⟩ := distribute_all hP (hP.dirtyPairs hr.1) hl hs hd
  exact .bind (holds_writeBase hl') fun _ _ => .bind (holds_addBase hs') fun _ _ => .pure trivial

theorem consolidateSingle_all {base base' : LeafNode} (hbase : P base)
    (h : consolidateSingle base = some base') : P base' := by
  unfold consolidateSingle at h
  split at h
  · obtain ⟨b, hb, rfl⟩ := Option.map_eq_some_iff.1 h
    exact hP.setSnapshotVersion (hP.consolidateInner hbase (fun _ hm => hm) hb) _ _
  · cases h
    exact hbase

theorem holds_tryMergeMiniPage (env : Env) {mini : LeafNode} (hmini : P mini) :
    KeepsPages P (fun _ => True) (tryMergeMiniPage cfg env mini) := by
  unfold tryMergeMiniPage
  refine .bind (holds_attempt _) fun _ _ => .ite (fun _ => .pure trivial) fun _ => ?_
  refine .bind holds_loadBasePageMut fun base hbase => .bind (.unwrap _) fun base' hbase' => ?_
  have hsingle := consolidateSingle_all hP hbase hbase'
  refine .bind (.unwrap _) fun r hr => ?_
  obtain ⟨merged, base''⟩ := r
  have hmerged := hP.mergeMiniPage hsingle hmini hr
  refine .bind (holds_writeBase hmerged) fun _ _ => ?_
  exact .ite (fun _ => .pure trivial) fun _ => holds_mergeAndSplit hP env hmini hmerged

theorem holds_mergeMiniPageAndDealloc (env : Env) {mini : LeafNode} (hmini : P mini) :
    KeepsPages P (fun _ => True) (mergeMiniPageAndDealloc cfg env mini) :=
  .bind (holds_attempt _) fun _ _ => .bind (holds_tryMergeMiniPage hP env hmini)
    fun _ _ => holds_changeToBaseLoc

/-! ## Inserts -/

section Insert

variable {key : Key} {value : Value} (hkv : AcceptedSize cfg key.length value.length)
include hkv

theorem holds_insertBase (env : Env) (g : SnapshotGuard) (offset : Nat) (op : OpType) :
    KeepsPages P (fun _ => True) (insertBase cfg classes env g offset key value op) := by
  unfold insertBase
  refine .bind (holds_versionRuleBase hP g) fun _ _ => .bind .get fun t _ => .ite (fun _ => ?_) fun _ => ?_
  · refine .bind holds_loadBasePageMut fun base hbase => .bind (.unwrap _) fun r hr => ?_
    obtain ⟨success, base'⟩ := r
    have hbase' := hP.insert hbase hkv hr
    refine .ite (fun _ => holds_writeBase hbase') fun _ => ?_
    exact .bind (holds_writeBase (hP.congr hbase' ⟨rfl, rfl, rfl, rfl, rfl, rfl, rfl⟩)) fun _ _ => .fail _
  · refine .bind (.unwrap _) fun size hsize => .bind (holds_attempt _) fun _ _ => ?_
    refine .bind (.unwrap _) fun r hr => .bind (.assert _) fun _ _ => holds_setLoc ?_
    exact hP.insert (hP.initializeMiniPage (mem_of_getChainSizeHint hsize) _ _ _) hkv hr

theorem holds_insertFull (env : Env) (g : SnapshotGuard) {page : LeafNode} (hpage : P page)
    (op : OpType) : KeepsPages P (fun _ => True) (insertFull cfg env g page key value op) := by
  unfold insertFull
  refine .bind (holds_versionRuleFull hP g hpage) fun page hpage => .bind (.unwrap _) fun r hr => ?_
  obtain ⟨success, page'⟩ := r
  have hpage' := hP.insert hpage hkv hr
  refine .bind (holds_setLoc hpage') fun _ _ => .ite (fun _ => .pure trivial) fun _ => ?_
  exact .bind (holds_mergeFullPageAndDealloc hP env hpage') fun _ _ => .fail _

theorem holds_growMini (env : Env) (g : SnapshotGuard) {page : LeafNode} (hpage : P page) {size : Nat}
    (hsize : size ∈ classes) (op : OpType) :
    KeepsPages P (fun _ => True) (growMini env g page size key value op) := by
  unfold growMini
  refine .bind (holds_attempt _) fun _ _ => .bind (holds_attempt _) fun _ _ => ?_
  refine .bind (.unwrap _) fun grown hgrown => .bind (.unwrap _) fun r hr => ?_
  refine .bind (.assert _) fun _ _ => holds_setLoc (hP.insert ?_ hkv hr)
  have hcopy := hP.copyInitializeTo hpage hsize hgrown
  split
  · exact hP.congr hcopy ⟨rfl, rfl, rfl, rfl, rfl, rfl, rfl⟩
  · exact hcopy

theorem holds_splitMini (env : Env) (g : SnapshotGuard) {page : LeafNode} (hpage : P page)
    (op : OpType) : KeepsPages P (fun _ => True) (splitMini cfg env g page key value op) := by
  unfold splitMini
  refine .bind (.assert _) fun _ _ => .bind (.unwrap _) fun page' hcons => .bind (.unwrap _) fun r hr => ?_
  obtain ⟨success, page''⟩ := r
  have hpage'' := hP.insert (hP.consolidateSkipKey hpage hcons) hkv hr
  refine .bind (holds_setLoc hpage'') fun _ _ => .ite (fun _ => .pure trivial) fun _ => ?_
  refine .bind (.assert _) fun _ _ => .bind (.unwrap _) fun splitKey _ => .bind .get fun t _ => ?_
  refine .bind (.unwrap _) fun p _ => .bind (holds_attempt _) fun _ _ => .bind (holds_attempt _) fun _ _ => ?_
  refine .bind (holds_versionRuleParent _ _) fun p' _ => .ite (fun _ => ?_) fun _ =>
    .bind (holds_setParent _) fun _ _ => .fail _
  refine .bind (holds_attempt _) fun _ _ => .bind (.unwrap _) fun r hsplit => ?_
  obtain ⟨left, sibling⟩ := r
  obtain ⟨hleft, hsibling⟩ := hP.splitWithKey hpage'' hsplit
  have hset : ∀ {l s : LeafNode}, P l → P s → KeepsPages P (fun _ => True)
      (Prog.modify fun t => { t with loc := .mini l, sibling := some (.mini s) }) := fun hl hs =>
    .modify fun t ht => ⟨hl, ht.buffer, ht.vfs, fun _ h => Option.some.inj h ▸ hs⟩
  refine .bind (holds_insertParent _ _ _) fun _ _ => .ite (fun _ => ?_) fun _ => ?_
  · refine .bind (.unwrap _) fun r hins => .bind (.assert _) fun _ _ => ?_
    exact hset hleft (hP.insert hsibling hkv hins)
  · refine .bind (.unwrap _) fun r hins => .bind (.assert _) fun _ _ => ?_
    exact hset (hP.insert hleft hkv hins) hsibling

end Insert

theorem holds_promoteMerged (env : Env) (nextLevel : Option Nat) :
    KeepsPages P (fun _ => True) (promoteMerged cfg env nextLevel) := by
  unfold promoteMerged
  refine .bind (.unwrap _) fun offset _ => .bind (holds_loadBasePage _) fun base hbase => ?_
  refine .ite (fun _ => ?_) fun _ => .pure trivial
  exact .bind (holds_upgradeToFullPage hP env hbase _) fun loc hloc => holds_setLoc hloc

theorem holds_mergeAndPromote (env : Env) {page : LeafNode} (hpage : P page) :
    KeepsPages P (fun _ => True) (mergeAndPromote cfg env page) := by
  unfold mergeAndPromote
  refine .bind .get fun t _ => .bind (.assert _) fun _ _ => ?_
  refine .bind (holds_mergeMiniPageAndDealloc hP env hpage) fun _ _ => ?_
  exact .ite (fun _ => .bind (holds_promoteMerged hP env _) fun _ _ => .fail _) fun _ => .fail _

section Insert

variable {key : Key} {value : Value} (hkv : AcceptedSize cfg key.length value.length)
include hkv

theorem holds_insertIntoMini (env : Env) (g : SnapshotGuard) {page : LeafNode} (hpage : P page)
    (op : OpType) :
    KeepsPages P (fun _ => True) (insertIntoMini cfg classes env g page key value op) := by
  unfold insertIntoMini
  refine .bind (.assert _) fun _ _ => .bind (.unwrap _) fun r hr => ?_
  obtain ⟨success, page'⟩ := r
  have hpage' := hP.insert hpage hkv hr
  refine .bind (holds_setLoc hpage') fun _ _ => .ite (fun _ => .pure trivial) fun _ => ?_
  refine .bind (.unwrap _) fun newSize hsize => ?_
  cases newSize with
  | some size => exact holds_growMini hP hkv env g hpage' (mem_of_newSizeIfUpgrade hsize) op
  | none =>
    exact .ite (fun _ => holds_splitMini hP hkv env g hpage' op) fun _ =>
      holds_mergeAndPromote hP env hpage'

theorem holds_insertRootMini (env : Env) (g : SnapshotGuard) {page : LeafNode} (hpage : P page)
    (op : OpType) :
    KeepsPages P (fun _ => True) (insertRootMini cfg classes env g page key value op) := by
  unfold insertRootMini
  refine .bind (.unwrap _) fun r hr => ?_
  obtain ⟨success, page'⟩ := r
  have hpage' := hP.insert hpage hkv hr
  refine .bind (holds_setLoc hpage') fun _ _ => .ite (fun _ => ?_) fun _ => ?_
  · exact holds_insertIntoMini hP hkv env g hpage' op
  · refine .bind (.unwrap _) fun page'' hcons => .bind (.unwrap _) fun r hr => ?_
    obtain ⟨success', page₃⟩ := r
    have hpage₃ := hP.insert (hP.consolidateInner hpage' (fun _ hm => hm) hcons) hkv hr
    refine .ite (fun _ => holds_setLoc hpage₃) fun _ => .bind (holds_setLoc ?_) fun _ _ => .fail _
    exact hP.congr hpage₃ ⟨rfl, rfl, rfl, rfl, rfl, rfl, rfl⟩

theorem holds_insertMini (env : Env) (g : SnapshotGuard) {page : LeafNode} (hpage : P page)
    (op : OpType) : KeepsPages P (fun _ => True) (insertMini cfg classes env g page key value op) := by
  unfold insertMini
  refine .bind (holds_versionRuleMini hP g hpage) fun page' hpage' => .bind .get fun t _ => ?_
  exact .ite (fun _ => holds_insertRootMini hP hkv env g hpage' op) fun _ =>
    holds_insertIntoMini hP hkv env g hpage' op

theorem holds_insert (env : Env) (op : OpType) :
    KeepsPages P (fun _ => True) (insert cfg classes env key value op) := by
  unfold insert
  cases env.snapshotGuard with
  | none => exact .fail _
  | some g =>
    refine .bind .get fun t ht => ?_
    have hloc := ht.loc
    cases hl : t.loc with
    | base offset => exact .ite (fun _ => .crash) fun _ => holds_insertBase hP hkv env g offset op
    | full page =>
      rw [hl] at hloc
      exact .ite (fun _ => .crash) fun _ => holds_insertFull hP hkv env g hloc op
    | mini page =>
      rw [hl] at hloc
      exact holds_insertMini hP hkv env g hloc op
    | null => exact .crash

end Insert

/-! ## Reads -/

/-- What a read found on disk could be written again. -/
def Rewritable (cfg : Config) (key : Key) (r : ReadResult × List UInt8) : Prop :=
  ∀ n, r.1 = .base (.found n) → AcceptedSize cfg key.length (r.2.take n).length

theorem holds_readBase (offset : Nat) (key : Key) (out : List UInt8) :
    KeepsPages P (Rewritable cfg key) (readBase offset key out) := by
  unfold readBase
  refine .bind (holds_loadBasePage _) fun base hbase => .bind (.unwrap _) fun r hr => ?_
  obtain ⟨r, out', base'⟩ := r
  obtain ⟨hbase', hfound⟩ := hP.readByKeyInner hbase hr
  refine .bind (.modify fun t ht => ⟨ht.loc, fun b hb => ?_, ht.vfs, ht.sibling⟩) fun _ _ => .pure ?_
  · obtain ⟨b₀, -, rfl⟩ := Option.map_eq_some_iff.1 hb
    exact hbase'
  · exact fun n hn => hfound n (ReadResult.base.inj hn)

theorem holds_read (key : Key) (out : List UInt8) :
    KeepsPages P (Rewritable cfg key) (read cfg key out) := by
  unfold read
  refine .bind .get fun t ht => ?_
  have hloc := ht.loc
  cases hl : t.loc with
  | base offset => exact holds_readBase hP offset key out
  | full page =>
    rw [hl] at hloc
    refine .bind (.unwrap _) fun r hr => .bind (holds_setLoc ?_) fun _ _ => .pure nofun
    exact (hP.readByKeyInner hloc hr).1
  | mini page =>
    rw [hl] at hloc
    refine .bind (.unwrap _) fun r hr => ?_
    obtain ⟨r, out', page'⟩ := r
    refine .bind (holds_setLoc (hP.readByKeyInner hloc hr).1) fun _ _ => ?_
    cases r with
    | found n => exact .pure nofun
    | deleted => exact .pure nofun
    | notFound =>
      refine .ite (fun _ => .pure nofun) fun _ => .bind (.unwrap _) fun offset _ => ?_
      exact holds_readBase hP offset key out'
  | null => exact .pure nofun

theorem holds_moveCachePageToTail (env : Env) :
    KeepsPages P (fun _ => True) (moveCachePageToTail cfg env) := by
  unfold moveCachePageToTail
  refine .bind .get fun t ht => ?_
  have hloc := ht.loc
  cases hl : t.loc with
  | mini page =>
    rw [hl] at hloc
    refine .bind (holds_attempt _) fun _ _ => .bind (holds_attempt _) fun _ _ => ?_
    refine .bind (.unwrap _) fun moved hmoved => holds_setLoc ?_
    have hcopy := hP.setSnapshotVersion (hP.copyInitializeTo hloc (hP.size hloc).1 hmoved)
      page.snapshotVersion false
    dsimp only [PageLocation.All]
    split
    · exact hP.congr hcopy ⟨rfl, rfl, rfl, rfl, rfl, rfl, rfl⟩
    · exact hcopy
  | full page =>
    rw [hl] at hloc
    refine .bind (.assert _) fun _ _ => .bind (holds_attempt _) fun _ _ => ?_
    exact .bind (holds_attempt _) fun _ _ => holds_setLoc hloc
  | base offset => exact .crash
  | null => exact .crash

/-! ## Transactions -/

theorem holds_refresh (env : AttemptEnv) : KeepsPages P (fun _ => True) (refresh cfg env) := by
  unfold refresh
  have hmove := Prog.Holds.ignore (holds_moveCachePageToTail hP env.move)
  refine .bind .get fun t _ => ?_
  cases t.loc with
  | mini page => exact .ite (fun _ => hmove) fun _ => .pure trivial
  | full page => exact .ite (fun _ => hmove) fun _ => .pure trivial
  | base offset => exact .pure trivial
  | null => exact .crash

theorem holds_write {key : Key} {value : Value}
    (hkv : AcceptedSize cfg key.length value.length) (env : AttemptEnv) (op : OpType) :
    KeepsPages P (fun _ => True) (write cfg classes env key value op) := by
  have hinsert : KeepsPages P (fun _ => True) (do
      insert cfg classes env.leaf key value op
      refresh cfg env) :=
    .bind (holds_insert hP hkv env.leaf op) fun _ _ => holds_refresh hP env
  unfold write
  refine .bind .get fun t _ => ?_
  cases t.loc with
  | null =>
    unfold writeNull
    refine .ite (fun _ => .crash) fun _ => .ite (fun _ => .pure trivial) fun _ => ?_
    refine .bind (.unwrap _) fun size hsize => .bind (holds_takeGuard _) fun g _ => ?_
    refine .bind (holds_attempt _) fun _ _ => .bind (.unwrap _) fun r hr => ?_
    refine .bind (.assert _) fun _ _ => holds_setLoc ?_
    exact hP.insert (hP.initializeMiniPage (mem_of_getChainSizeHint hsize) _ _ _) hkv hr
  | mini page => exact hinsert
  | full page => exact hinsert
  | base offset => exact hinsert

theorem holds_upgradeLeaf (env : Env) : KeepsPages P (fun _ => True) (upgradeLeaf cfg env) := by
  unfold upgradeLeaf
  refine .bind .get fun t ht => ?_
  have hloc := ht.loc
  cases hl : t.loc with
  | mini page =>
    rw [hl] at hloc
    refine .bind (holds_attempt _) fun _ _ => .bind (holds_tryMergeMiniPage hP env hloc) fun _ _ => ?_
    refine .bind holds_changeToBaseLoc fun _ _ => .bind holds_loadBasePageFromBuffer fun base hb => ?_
    exact .bind (holds_upgradeToFullPage hP env hb _) fun loc hloc => holds_setLoc hloc
  | full page => exact .pure trivial
  | base offset =>
    refine .bind (holds_loadBasePage _) fun base hb => ?_
    exact .bind (holds_upgradeToFullPage hP env hb _) fun loc hloc => holds_setLoc hloc
  | null => exact .crash

theorem holds_promoteRead {key : Key} {value : Value}
    (hkv : AcceptedSize cfg key.length value.length) (env : AttemptEnv) :
    KeepsPages P (fun _ => True) (promoteRead cfg classes env key value) := by
  refine .handle (.ite (fun _ => holds_insert hP hkv _ _) fun _ => holds_upgradeLeaf hP _) fun e => ?_
  exact .ite (fun _ => .pure trivial) fun _ => .fail _

theorem holds_readRecord (env : AttemptEnv) (key : Key) (out : List UInt8) :
    KeepsPages P (fun _ => True) (readRecord cfg classes env key out) := by
  unfold readRecord
  refine .bind (holds_read hP key out) fun r hr => ?_
  obtain ⟨r, out'⟩ := r
  have hcached : ∀ r : LeafReadResult, KeepsPages P (fun _ => True) (do
      if env.leafUpgrade then refresh cfg env
      pure (r, out')) := fun r =>
    .ite (fun _ => .bind (holds_refresh hP env) fun _ _ => .pure trivial) fun _ => .pure trivial
  cases r with
  | mini r => exact hcached r
  | full r => exact hcached r
  | none => exact .pure trivial
  | base r =>
    refine .ite (fun _ => .crash) fun _ => .bind .get fun t _ => ?_
    cases r with
    | found n =>
      refine .ite (fun _ => ?_) fun _ => .pure trivial
      exact .bind (holds_promoteRead hP (hr n rfl) env) fun _ _ => .pure trivial
    | deleted => exact .pure trivial
    | notFound => exact .pure trivial

theorem holds_evict (env : Env) : KeepsPages P (fun _ => True) (evict cfg env) := by
  unfold evict
  refine .bind .get fun t ht => ?_
  have hloc := ht.loc
  cases hl : t.loc with
  | mini page =>
    rw [hl] at hloc
    refine .bind (.assert _) fun _ _ => .bind (holds_attempt _) fun _ _ => ?_
    refine .ite (fun _ => holds_setLoc trivial) fun _ => ?_
    exact .bind (holds_tryMergeMiniPage hP env hloc) fun _ _ => holds_changeToBaseLoc
  | full page =>
    rw [hl] at hloc
    exact holds_mergeFullPage hP hloc
  | base offset => exact .fail _
  | null => exact .fail _

theorem holds_splitRootLeaf (env : AttemptEnv) (g : SnapshotGuard) :
    KeepsPages P (fun _ => True) (splitRootLeaf cfg env g) := by
  unfold splitRootLeaf
  refine .bind .get fun t ht => .ite (fun _ => ?_) fun _ => ?_
  · have hloc := ht.loc
    cases hl : t.loc with
    | mini page =>
      rw [hl] at hloc
      refine .bind (holds_versionRuleMini hP g hloc) fun page hpage => .bind (.assert _) fun _ _ => ?_
      refine .bind (.unwrap _) fun r hr => ?_
      obtain ⟨key, left, sibling⟩ := r
      obtain ⟨hl, hs⟩ := hP.split hpage hr
      refine .bind (.modify fun t ht => ⟨hl, ht.buffer, ht.vfs, fun l h => ?_⟩) fun _ _ => .pure trivial
      exact Option.some.inj h ▸ hs
    | full page => exact .crash
    | base offset => exact .crash
    | null => exact .crash
  · refine .bind (holds_versionRuleBase hP g) fun _ _ => .bind holds_loadBasePageMut fun base hb => ?_
    refine .bind (.unwrap _) fun r hr => ?_
    obtain ⟨key, left, sibling⟩ := r
    obtain ⟨hl, hs⟩ := hP.split hb hr
    exact .bind (holds_writeBase hl) fun _ _ => .bind (holds_addBase hs) fun _ _ => .pure trivial

/-! ## Scans -/

theorem holds_prepareMerge (env : AttemptEnv) :
    KeepsPages P (fun _ => True) (prepareMerge cfg env) := by
  unfold prepareMerge
  refine .bind .get fun t ht => ?_
  have hloc := ht.loc
  cases hl : t.loc with
  | base offset => exact .pure trivial
  | mini page =>
    rw [hl] at hloc
    refine .bind (holds_attempt _) fun _ _ => .bind (holds_tryMergeMiniPage hP _ hloc) fun r _ => ?_
    refine .bind holds_changeToBaseLoc fun _ _ => ?_
    cases r with
    | noSplit => exact .pure trivial
    | mergeAndSplit => exact .fail _
  | full page => exact .crash
  | null => exact .crash

theorem holds_finishScan (env : AttemptEnv) (key : Key) (plan : ScanPlan) :
    KeepsPages P (fun _ => True) (finishScan cfg env key plan) := by
  cases plan with
  | ready pos => exact .pure trivial
  | scanBase =>
    exact .bind holds_loadBasePageFromBuffer fun _ _ => .bind (.unwrap _) fun _ _ => .pure trivial
  | promoteBase offset =>
    refine .bind holds_loadBasePageFromBuffer fun base hb => .bind (.unwrap _) fun _ _ => ?_
    refine .ite (fun _ => ?_) fun _ => .pure trivial
    refine .bind (holds_upgradeToFullPage hP _ hb _) fun loc hloc => ?_
    exact .bind (holds_setLoc hloc) fun _ _ => .pure trivial

theorem holds_upgradeAndMerge (env : AttemptEnv) :
    KeepsPages P (fun _ => True) (upgradeAndMerge cfg env) := by
  unfold upgradeAndMerge
  refine .bind .get fun t _ => .ite (fun _ => ?_) fun _ => .fail _
  exact .bind (.assert _) fun _ _ => holds_prepareMerge hP env

omit hP in
theorem holds_getScanPosition (key : Key) :
    KeepsPages P (fun _ => True) (getScanPosition cfg key) := by
  unfold getScanPosition
  refine .bind .get fun t _ => ?_
  cases t.loc with
  | base offset =>
    exact .bind (holds_loadBasePage _) fun _ _ => .bind (.unwrap _) fun _ _ => .pure trivial
  | full page => exact .bind (.unwrap _) fun _ _ => .pure trivial
  | mini page => exact .ite (fun _ => .bind (.unwrap _) fun _ _ => .pure trivial) fun _ => .pure trivial
  | null => exact .bind (.assert _) fun _ _ => .pure trivial

theorem holds_prepareScan (env : AttemptEnv) (key : Key) :
    KeepsPages P (fun _ => True) (prepareScan cfg env key) := by
  unfold prepareScan
  have hmerge := holds_upgradeAndMerge hP env
  refine .bind (holds_getScanPosition key) fun pos _ => .bind .get fun t _ => ?_
  rcases pos with _ | pos
  · exact hmerge
  · cases pos with
    | base pos => exact .ite (fun _ => .pure trivial) fun _ => hmerge
    | full pos => exact .pure trivial
    | mini pos => exact .pure trivial
    | null => exact .pure trivial

theorem holds_moveCursor (env : AttemptEnv) (key : Key) :
    KeepsPages P (fun _ => True) (moveCursor cfg env key) := by
  unfold moveCursor
  refine .bind (holds_prepareScan hP env key) fun plan _ => ?_
  exact .bind (holds_finishScan hP env key plan) fun _ _ => .bind .get fun _ _ => .pure trivial

end Invariant

theorem holds_getSplitFlag : KeepsPages P (fun _ => True) getSplitFlag := by
  unfold getSplitFlag
  refine .bind .get fun t _ => ?_
  cases t.loc with
  | base offset => exact .bind (holds_loadBasePage _) fun _ _ => .pure trivial
  | full page => exact .pure trivial
  | mini page => exact .pure trivial
  | null => exact .pure trivial

end LeafEntry

namespace Tree

/-- All pages of a tree have the property. -/
structure AllPages (cfg : Config) (classes : List Nat) (P : LeafNode → Prop) (t : Tree) : Prop where
  config : t.config = cfg
  sizeClasses : t.sizeClasses = classes
  pages : ∀ l ∈ t.pages, l.All P
  vfs : ∀ o p, t.vfs o = some p → P p

variable {cfg : Config} {classes : List Nat} {P : LeafNode → Prop} {α : Type}

/-- The program keeps the property for all pages. -/
abbrev KeepsPages (cfg : Config) (classes : List Nat) (P : LeafNode → Prop) (m : M α) : Prop :=
  Prog.Holds (AllPages cfg classes P) (fun _ => True) m

theorem AllPages.lockLeaf {t : Tree} (ht : t.AllPages cfg classes P) {pid : Nat} {loc : PageLocation}
    (hloc : t.pages[pid]? = some loc) (par : Option Parent) : (t.lockLeaf pid loc par).AllPages P :=
  ⟨ht.pages loc (List.mem_of_getElem? hloc), nofun, ht.vfs, nofun⟩

theorem holds_withLeaf {m : LeafEntry.M α} (hm : LeafEntry.KeepsPages P (fun _ => True) m)
    (pid : Nat) (parent : Option Nat) : KeepsPages cfg classes P (withLeaf pid parent m) := by
  intro t ht
  have hrun : ∀ r t', withLeaf pid parent m t = some (r, t') → AllPages cfg classes P t' := by
    intro r t' h
    simp only [withLeaf, Option.bind_eq_bind, Option.bind_eq_some_iff] at h
    obtain ⟨loc, hloc, par, -, ⟨r₁, l₁⟩, hm₁, l₂, hflush, heq⟩ := h
    cases heq
    have hlock := ht.lockLeaf hloc par
    have hl₁ : l₁.AllPages P := by
      cases r₁ with
      | ok a => exact ((hm _ hlock).1 a l₁ hm₁).1
      | error e => exact (hm _ hlock).2 e l₁ hm₁
    have hl₂ := hl₁.flush hflush
    refine ⟨ht.config, ht.sizeClasses, fun l hl => ?_, hl₂.vfs⟩
    rcases List.mem_append.1 hl with hl | hl
    · rcases List.mem_or_eq_of_mem_set hl with hl | rfl
      · exact ht.pages l hl
      · exact hl₂.loc
    · exact hl₂.sibling l (Option.mem_toList.1 hl)
  exact ⟨fun a t' h => ⟨hrun _ _ h, trivial⟩, fun e t' h => hrun _ _ h⟩

/-! ## Attempts -/

theorem acceptedSize_insert {key : Key} {value : Value} (h : validRecord cfg key value = true) :
    AcceptedSize cfg key.length value.length := by
  obtain ⟨hkey, -, hsmall, -⟩ := validRecord_iff.1 h
  obtain ⟨hfence, hmax, -⟩ := validKey_iff.1 hkey
  exact ⟨hfence, hmax, hsmall⟩

theorem acceptedSize_delete (hcfg : cfg.Bounds) {key : Key} (h : validKey cfg key = true) :
    AcceptedSize cfg key.length ([] : Value).length := by
  obtain ⟨hfence, hmax, -⟩ := validKey_iff.1 h
  exact ⟨hfence, hmax, (writable_delete hcfg h).small⟩

section Invariant

variable (hP : PageInvariant cfg classes P)
include hP

/-- Descents only split leaves by the page operations. -/
theorem stable_allPages : Stable (AllPages cfg classes P) where
  inners _ _ ht := ⟨ht.config, ht.sizeClasses, ht.pages, ht.vfs⟩
  captures _ _ ht := ⟨ht.config, ht.sizeClasses, ht.pages, ht.vfs⟩
  inserted _ _ _ ht := ⟨ht.config, ht.sizeClasses, ht.pages, ht.vfs⟩
  root _ _ ht := ⟨ht.config, ht.sizeClasses, ht.pages, ht.vfs⟩
  getSplitFlag := holds_withLeaf LeafEntry.holds_getSplitFlag
  splitRootLeaf t env g pid ht := by
    rw [ht.config]
    exact holds_withLeaf (LeafEntry.holds_splitRootLeaf hP env g) pid none

theorem holds_writeInner {key : Key} {value : Value}
    (hkv : AcceptedSize cfg key.length value.length) (env : AttemptEnv) (op : OpType)
    (aggressive : Bool) : KeepsPages cfg classes P (writeInner env key value op aggressive) := by
  unfold writeInner
  refine .bind ((stable_allPages hP).traverseToLeaf env key aggressive) fun landing _ => .bind .get fun t ht => ?_
  rw [ht.config, ht.sizeClasses]
  exact holds_withLeaf (LeafEntry.holds_write hP hkv env op) _ _

theorem holds_readInner (env : AttemptEnv) (key : Key) (out : List UInt8) (aggressive : Bool) :
    KeepsPages cfg classes P (readInner env key out aggressive) := by
  unfold readInner
  refine .bind ((stable_allPages hP).traverseToLeaf env key aggressive) fun landing _ => .bind .get fun t ht => ?_
  rw [ht.config, ht.sizeClasses]
  exact holds_withLeaf (LeafEntry.holds_readRecord hP env key out) _ _

theorem holds_moveCursorToLeaf (env : AttemptEnv) (key : Key) (aggressive : Bool) :
    KeepsPages cfg classes P (moveCursorToLeaf env key aggressive) := by
  refine (stable_allPages hP).moveCursorToLeaf env key aggressive fun t pid parent ht => ?_
  rw [ht.config]
  exact holds_withLeaf (LeafEntry.holds_moveCursor hP env key) pid parent

theorem holds_evictionCallback (e : Eviction) : KeepsPages cfg classes P (evictionCallback e) := by
  refine (stable_allPages hP).evictionCallback e fun t pid parent ht => ?_
  rw [ht.config]
  exact holds_withLeaf (LeafEntry.holds_evict hP _) pid parent

theorem holds_exec (hcfg : cfg.Bounds) (a : Attempt) (ha : a.accepted cfg = true) :
    KeepsPages cfg classes P a.exec := by
  cases a with
  | insert env key value aggressive =>
    exact holds_writeInner hP (acceptedSize_insert ha) env .insert aggressive
  | delete env key aggressive =>
    exact holds_writeInner hP (acceptedSize_delete hcfg ha) env .delete aggressive
  | read env key out aggressive =>
    exact .bind (holds_readInner hP env key out aggressive) fun _ _ => .pure trivial
  | scan env key aggressive =>
    exact .bind (holds_moveCursorToLeaf hP env key aggressive) fun _ _ => .pure trivial
  | evict e => exact holds_evictionCallback hP e

end Invariant

theorem withConfig_inv_classes {ver : Nat} {t : Tree} (h : withConfig cfg ver = some (.ok t)) :
    cfg.validate = some (.ok ()) ∧ ∃ classes, cfg.createMemPageSizeClasses = some classes ∧
      ∀ P, PageInvariant cfg classes P → t.AllPages cfg classes P := by
  simp only [withConfig, Option.bind_eq_bind, Option.bind_eq_some_iff] at h
  obtain ⟨r, hvalid, h⟩ := h
  split at h
  · cases h
  · simp only [Option.bind_eq_some_iff, Option.some.injEq, Except.ok.injEq] at h
    obtain ⟨classes, hclasses, rfl⟩ := h
    refine ⟨hvalid, classes, hclasses, fun P hP => ⟨rfl, rfl, fun l hl => ?_, fun o p hp => ?_⟩⟩
    · obtain rfl := List.mem_singleton.1 hl
      split
      · exact hP.initializeMiniPage hP.leaf_mem _ _ _
      · trivial
    · dsimp only at hp
      split at hp
      · exact Option.some.inj hp ▸ hP.fresh _ _ _ _ _ _ _ hP.leaf_mem fun _ => rfl
      · cases hp

/-- Every page of a reachable tree has the property. -/
theorem Reachable.allPages {t : Tree} (h : Reachable cfg t) :
    cfg.validate = some (.ok ()) ∧ ∃ classes, cfg.createMemPageSizeClasses = some classes ∧
      ∀ P, PageInvariant cfg classes P → t.AllPages cfg classes P := by
  induction h with
  | new h => exact withConfig_inv_classes h
  | @step t t' a r hreach ha hstep ih =>
    obtain ⟨hvalid, classes, hclasses, hall⟩ := ih
    refine ⟨hvalid, classes, hclasses, fun P hP => ?_⟩
    have hspec := holds_exec hP (Config.validate_ok hvalid) a ha t (hall P hP)
    cases r with
    | ok u => exact (hspec.1 u t' hstep).1
    | error e => exact hspec.2 e t' hstep

/-- In a reachable tree no page holds more than it has room for. -/
theorem Reachable.sized {t : Tree} (h : Reachable cfg t) :
    cfg.validate = some (.ok ()) ∧ ∃ classes, cfg.createMemPageSizeClasses = some classes ∧
      t.AllPages cfg classes (Sized cfg classes) := by
  obtain ⟨hvalid, classes, hclasses, hall⟩ := h.allPages
  obtain ⟨maxMini, front, -, rfl⟩ := Config.classes_eq_append hvalid hclasses
  exact ⟨hvalid, _, hclasses, hall _ (sized_invariant (by simp))⟩

end Tree

end BfTree
