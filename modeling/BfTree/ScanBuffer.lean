import BfTree.NoEmptyPage

/-!
# Scans that look at a base page they have not loaded

Before a leaf with a mini page is scanned, the mini page is merged, and the scan goes on
with the base page in the buffer. The merge of a mini page without dirty records returns
at once and loads nothing, so the buffer is empty then and the scan panics. Such mini
pages come from reads that are promoted. In all other cases the base page is there.
-/

namespace BfTree

open Lib LeafNode

/-- The rest of the placement works on the base page in the buffer. -/
def ScanPlan.usesBuffer : ScanPlan → Bool
  | .ready _ => false
  | .scanBase | .promoteBase _ => true

namespace LeafNode

/-- The merge of such a mini page does nothing. -/
def Unchanged (mini : LeafNode) : Prop :=
  mini.needActuallyMergeToDisk = false ∧ mini.versionChanged = false

end LeafNode

namespace LeafEntry

section

variable {t : LeafEntry} {cfg : Config} {env : Env} {mini : LeafNode}

/-- A merge that does not split loads the base page, unless it has nothing to do. -/
theorem tryMergeMiniPage_buffer (hl : t.loc = .mini mini) :
    wp (tryMergeMiniPage cfg env mini)
      (fun r t' => r = .noSplit → t'.tmpBuffer = none →
        mini.Unchanged ∧ env.parentCheckVersion = none) (fun _ _ => True) t := by
  simp only [tryMergeMiniPage, wp_bind, wp_attempt]
  refine ⟨fun hcheck => wp_ite (fun hclean => ?_) fun _ => ?_, fun _ _ => trivial⟩
  · rw [Bool.and_eq_true, Bool.not_eq_true', Bool.not_eq_true'] at hclean
    exact (wp_pure _).2 fun _ _ => ⟨hclean, hcheck⟩
  · rw [wp_bind]
    refine wp_loadBasePageMut fun p _ => ?_
    simp only [wp_bind, wp_unwrap, wp_writeBase]
    intro base _
    rintro ⟨merged, base'⟩ -
    refine wp_ite (fun _ => (wp_pure _).2 fun _ hb => by cases hb) fun _ => ?_
    refine wp_mono (mergeAndSplit_merging hl) ?_ fun _ _ _ => trivial
    rintro r t' ⟨-, rfl, -⟩ hr
    cases hr

/-- Nothing is loaded for a mini page that has nothing to merge. -/
theorem tryMergeMiniPage_unchanged (h : mini.Unchanged) (hcheck : env.parentCheckVersion = none) :
    tryMergeMiniPage cfg env mini t = some (.ok .noSplit, t) := by
  simp only [tryMergeMiniPage, hcheck, attempt, h.1, h.2, Bool.not_false, Bool.and_self, if_true]
  rfl

end

variable {t : LeafEntry} {cfg : Config} {env : AttemptEnv} {key : Key}

/-- What lets a scan go on with an empty buffer. -/
structure Unloaded (env : AttemptEnv) (t : LeafEntry) (mini : LeafNode) : Prop where
  loc : t.loc = .mini mini
  unchanged : mini.Unchanged
  parent : t.parent ≠ none
  upgrade : env.leafUpgrade = true
  dealloc : env.leaf.beginDealloc = none
  check : env.leaf.parentCheckVersion = none

theorem prepareScan_buffer :
    wp (prepareScan cfg env key)
      (fun plan t' => plan.usesBuffer = true → t'.tmpBuffer = none → ∃ mini, Unloaded env t mini)
      (fun _ _ => True) t := by
  have hmerge : ∀ {t₁ : LeafEntry}, Still t t₁ → t₁.parent = t.parent →
      (∀ o, t₁.loc = .base o → t₁.tmpBuffer ≠ none) →
      wp (upgradeAndMerge cfg env)
        (fun plan t' => plan.usesBuffer = true → t'.tmpBuffer = none → ∃ mini, Unloaded env t mini)
        (fun _ _ => True) t₁ := by
    intro t₁ hstill hp₁ hb₁
    simp only [upgradeAndMerge, wp_bind, wp_get]
    refine wp_ite (fun hup => ?_) fun _ => (wp_fail _).2 trivial
    simp only [prepareMerge, wp_bind, wp_assert, wp_get]
    intro hpar
    have hpar : t.parent ≠ none := by
      rw [← hp₁]
      exact Option.isSome_iff_ne_none.1 hpar
    split
    · next o hl => exact (wp_pure _).2 fun _ hb => absurd hb (hb₁ o hl)
    · next mini hl =>
      simp only [wp_bind, wp_attempt]
      refine ⟨fun hdealloc => ?_, fun _ _ => trivial⟩
      refine wp_mono (tryMergeMiniPage_buffer hl) (fun r t₂ h₂ => ?_) fun _ _ _ => trivial
      refine wp_changeToBaseLoc fun o => ?_
      cases r with
      | mergeAndSplit => exact (wp_fail _).2 trivial
      | noSplit =>
        refine (wp_pure _).2 fun _ hb => ?_
        obtain ⟨hclean, hcheck⟩ := h₂ rfl hb
        exact ⟨mini, hstill.loc ▸ hl, hclean, hpar, hup, hdealloc, hcheck⟩
    · exact wp_crash.2 trivial
    · exact wp_crash.2 trivial
  have hready : ∀ {t₁ : LeafEntry} (pos : ScanPosition), ScanPlan.usesBuffer (.ready pos) = true →
      t₁.tmpBuffer = none → ∃ mini, Unloaded env t mini := fun _ hr => by cases hr
  simp only [prepareScan, getScanPosition, wp_bind, wp_get]
  split
  · next o hl =>
    rw [wp_bind]
    refine wp_loadBasePage fun b _ => ?_
    simp only [wp_bind, wp_unwrap, wp_pure]
    intro pos _
    refine wp_ite (fun _ => (wp_pure _).2 (hready _)) fun _ => ?_
    exact hmerge ⟨rfl, rfl⟩ rfl fun _ _ => by simp
  · simp only [wp_bind, wp_unwrap, wp_pure]
    exact fun pos _ => hready _
  · next mini hl =>
    refine wp_ite (fun _ => ?_) fun _ => ?_
    · simp only [wp_bind, wp_unwrap, wp_pure]
      exact fun pos _ => hready _
    · rw [wp_pure]
      exact hmerge ⟨rfl, rfl⟩ rfl fun o ho => by rw [hl] at ho; cases ho
  · simp only [wp_bind, wp_assert, wp_pure]
    exact fun _ => hready _

/-- The other way round the scan goes on, whatever the dice say. -/
theorem Unloaded.prepareScan (hdisk : cfg.cacheOnly = false) {mini : LeafNode} {offset : Nat}
    (h : Unloaded env t mini) (hn : mini.nextLevel = some offset) (hb : t.tmpBuffer = none) :
    ∃ plan t', prepareScan cfg env key t = some (.ok plan, t') ∧ plan.usesBuffer = true ∧
      t'.tmpBuffer = none := by
  refine ⟨if env.promote then .promoteBase mini.nextLevel else .scanBase,
    { t with loc := .base offset }, ?_, by split <;> rfl, hb⟩
  have hpos : getScanPosition cfg key t = some (.ok none, t) := by
    rw [getScanPosition, bind_of_ok (get_apply t), h.loc]
    simp only [hdisk, Bool.false_eq_true, if_false]
    rfl
  have hbase : changeToBaseLoc t = some (.ok (), { t with loc := .base offset }) := by
    rw [changeToBaseLoc, bind_of_ok (get_apply t), h.loc]
    simp only [hn]
    rfl
  have hmerge : prepareMerge cfg env t = some (.ok (if env.promote then .promoteBase mini.nextLevel
      else .scanBase), { t with loc := .base offset }) := by
    rw [prepareMerge, bind_of_ok (get_apply t), h.loc]
    simp only [h.dealloc, attempt]
    rw [bind_of_ok (Prog.pure_apply () t),
      bind_of_ok (tryMergeMiniPage_unchanged h.unchanged h.check), bind_of_ok hbase]
    rfl
  have hup : upgradeAndMerge cfg env t = prepareMerge cfg env t := by
    rw [upgradeAndMerge, bind_of_ok (get_apply t), if_pos h.upgrade,
      Option.isSome_iff_ne_none.2 h.parent]
    rfl
  rw [LeafEntry.prepareScan, bind_of_ok hpos, bind_of_ok (get_apply t)]
  exact hup.trans hmerge

/-- The base page is not there. -/
theorem finishScan_unloaded {plan : ScanPlan} (hp : plan.usesBuffer = true) (hb : t.tmpBuffer = none) :
    finishScan cfg env key plan t = none := by
  have hload : loadBasePageFromBuffer t = none := by
    rw [loadBasePageFromBuffer, bind_of_ok (get_apply t), hb]
    rfl
  cases plan with
  | ready pos => cases hp
  | scanBase => exact bind_of_none hload
  | promoteBase o => exact bind_of_none hload

end LeafEntry

namespace Tree

/-- Placing the cursor for a key goes on with the base page in the buffer, and there is
none. -/
def LooksUnloaded (env : AttemptEnv) (key : Key) (aggressiveSplit : Bool) (t : Tree) : Prop :=
  ∃ landing t₁ loc par plan l, traverseToLeaf env key aggressiveSplit t = some (.ok landing, t₁) ∧
    t₁.pages[landing.pid]? = some loc ∧ t₁.parentOf landing.parent = some par ∧
    LeafEntry.prepareScan t₁.config env key (t₁.lockLeaf landing.pid loc par) = some (.ok plan, l) ∧
    plan.usesBuffer = true ∧ l.tmpBuffer = none

theorem LooksUnloaded.panics {env : AttemptEnv} {key : Key} {aggressive : Bool} {t : Tree}
    (h : LooksUnloaded env key aggressive t) : moveCursorToLeaf env key aggressive t = none := by
  obtain ⟨landing, t₁, loc, par, plan, l, hland, hloc, hpar, hplan, huse, hbuf⟩ := h
  have hcursor : LeafEntry.moveCursor t₁.config env key (t₁.lockLeaf landing.pid loc par) = none := by
    rw [LeafEntry.moveCursor, bind_of_ok hplan]
    exact bind_of_none (LeafEntry.finishScan_unloaded huse hbuf)
  have hleaf : withLeaf landing.pid landing.parent (LeafEntry.moveCursor t₁.config env key) t₁ = none := by
    simp [withLeaf, hloc, hpar, hcursor]
  rw [moveCursorToLeaf, bind_of_ok hland, bind_of_ok (get_apply t₁)]
  exact bind_of_none hleaf

/-- Placing a cursor on a leaf of a disk-backed tree looks at a base page that was not
loaded, and panics, exactly if the leaf has a mini page without dirty records and with
an unchanged version, and the locks and the circular buffer let the merge begin. -/
theorem looks_unloaded_iff {cfg : Config} {t : Tree} (h : Reachable cfg t)
    (hdisk : cfg.cacheOnly = false) (env : AttemptEnv) (key : Key) (aggressive : Bool) :
    (LooksUnloaded env key aggressive t ↔
      ∃ landing t₁ mini, traverseToLeaf env key aggressive t = some (.ok landing, t₁) ∧
        t₁.pages[landing.pid]? = some (.mini mini) ∧ mini.Unchanged ∧ env.leafUpgrade = true ∧
        env.leaf.beginDealloc = none ∧ env.leaf.parentCheckVersion = none) ∧
    (LooksUnloaded env key aggressive t → moveCursorToLeaf env key aggressive t = none) := by
  obtain ⟨C, s, hok⟩ := h.inv
  refine ⟨⟨?_, ?_⟩, LooksUnloaded.panics⟩
  · rintro ⟨landing, t₁, loc, par, plan, l, hland, hloc, hpar, hplan, huse, hbuf⟩
    obtain ⟨mini, hu⟩ := LeafEntry.prepareScan_buffer.1 plan l hplan huse hbuf
    obtain rfl : loc = .mini mini := hu.loc
    exact ⟨landing, t₁, mini, hland, hloc, hu.unchanged, hu.upgrade, hu.dealloc, hu.check⟩
  · rintro ⟨landing, t₁, mini, hland, hloc, hclean, hup, hdealloc, hcheck⟩
    obtain ⟨h₁, hl⟩ := (traverseToLeaf_spec hok env key aggressive).1 landing t₁ hland
    obtain ⟨loc, par, c, hloc', hpar, hleaf, -⟩ := h₁.lock hl.alive hl.parent
    obtain rfl : .mini mini = loc := Option.some.inj (hloc.symm.trans hloc')
    rw [leafOk_disk hdisk] at hleaf
    obtain ⟨offset, base, -, -, hcaches, -⟩ := hleaf
    -- the root leaf has no mini page
    have hpar' : par ≠ none := by
      rintro rfl
      have hnone : landing.parent = none := by
        cases hp : landing.parent with
        | none => rfl
        | some ptr =>
          rw [hp] at hpar
          obtain ⟨n, -, hn⟩ := parentOf_some hpar
          cases hn
      obtain ⟨o, ho⟩ := h₁.rootBase hdisk landing.pid
        (root_of_parent h₁ hl.alive (hl.parent.trans hnone))
      rw [hloc] at ho
      cases ho
    have hunloaded : LeafEntry.Unloaded env (t₁.lockLeaf landing.pid (.mini mini) par) mini :=
      ⟨rfl, hclean, hpar', hup, hdealloc, hcheck⟩
    obtain ⟨plan, l, hplan, huse, hbuf⟩ :=
      hunloaded.prepareScan hdisk (MiniPage.nextLevel hcaches) rfl
    rw [← h₁.config] at hplan
    exact ⟨landing, t₁, _, par, plan, l, hland, hloc, hpar, hplan, huse, hbuf⟩

/-- Evaluate `LooksUnloaded`. -/
def looksUnloaded (env : AttemptEnv) (key : Key) (aggressiveSplit : Bool) (t : Tree) : Bool :=
  match traverseToLeaf env key aggressiveSplit t with
  | some (.ok landing, t₁) =>
    match t₁.pages[landing.pid]?, t₁.parentOf landing.parent with
    | some loc, some par =>
      match LeafEntry.prepareScan t₁.config env key (t₁.lockLeaf landing.pid loc par) with
      | some (.ok plan, l) => plan.usesBuffer && l.tmpBuffer.isNone
      | _ => false
    | _, _ => false
  | _ => false

theorem LooksUnloaded.of_eval {env : AttemptEnv} {key : Key} {aggressive : Bool} {t : Tree}
    (h : looksUnloaded env key aggressive t = true) : LooksUnloaded env key aggressive t := by
  unfold looksUnloaded at h
  split at h
  · next landing t₁ hland =>
    split at h
    · next loc par hloc hpar =>
      split at h
      · next plan l hplan =>
        rw [Bool.and_eq_true, Option.isNone_iff_eq_none] at h
        exact ⟨landing, t₁, loc, par, plan, l, hland, hloc, hpar, hplan, h⟩
      · cases h
    · cases h
  · cases h

/-- A read has been promoted to a mini page; the next scan of the leaf panics, whatever
its dice say. -/
theorem promoted_read_unloaded : ∃ t, Reachable Config.default t ∧
    LooksUnloaded calm [2, 2] false t ∧
    LooksUnloaded { calm with promote := true } [2, 2] false t := by
  obtain ⟨t₀, t, done, hnew, hrun, ht⟩ := fromNew_eq_some
    (by decide +kernel : fromNew Config.default 0 promotingAttempts
      (fun _ t => looksUnloaded calm [2, 2] false t &&
        looksUnloaded { calm with promote := true } [2, 2] false t) = some true)
  rw [Bool.and_eq_true] at ht
  exact ⟨t, .attempts _ (.new hnew) (by decide +kernel) hrun, .of_eval ht.1, .of_eval ht.2⟩

/-- The scan of a leaf that is on disk only. -/
theorem looks_unloaded_iff_sample : ∃ t, Reachable Config.default t ∧
    ((LooksUnloaded calm [2, 2] false t ↔
      ∃ landing t₁ mini, traverseToLeaf calm [2, 2] false t = some (.ok landing, t₁) ∧
        t₁.pages[landing.pid]? = some (.mini mini) ∧ mini.Unchanged ∧ calm.leafUpgrade = true ∧
        calm.leaf.beginDealloc = none ∧ calm.leaf.parentCheckVersion = none) ∧
    (LooksUnloaded calm [2, 2] false t → moveCursorToLeaf calm [2, 2] false t = none)) := by
  obtain ⟨t₀, t, done, hnew, hrun, -⟩ := fromNew_eq_some
    (by decide +kernel : fromNew Config.default 0 sampleAttempts (fun done _ => done) =
      some [true, false, true])
  have h : Reachable Config.default t := .attempts _ (.new hnew) (by decide +kernel) hrun
  exact ⟨t, h, looks_unloaded_iff h rfl calm [2, 2] false⟩

end Tree

end BfTree
