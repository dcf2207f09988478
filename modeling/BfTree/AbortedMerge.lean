import BfTree.Client
import BfTree.SizeClasses
import BfTree.Snapshot.HandshakeSpec

/-!
# Merges that are given up

A merge that has to split the base page may fail after it has marked the replaced
records of the base page as deleted, recorded images and lifted versions. What it leaves
behind reads the same, and a later merge does what it would have done without it: the
split key depends on keys and sizes only, and a base page with a single record, which
would be consolidated again, always has room.
-/

namespace BfTree

open Lib LeafNode

/-! ## Up to versions -/

def LeafNode.unversioned (p : LeafNode) : LeafNode := p.setSnapshotVersion 0 false

def InnerNode.unversioned (n : InnerNode) : InnerNode :=
  { n with snapshotVersion := 0, splitFlag := false }

theorem InnerNode.insert_unversioned (n : InnerNode) (key : Key) (child : PageID) :
    (n.unversioned.insert key child).2 = (n.insert key child).2.unversioned := by
  have hfree : n.unversioned.remainingSize = n.remainingSize := rfl
  have hrecords : n.unversioned.records = n.records := rfl
  have hpos : n.unversioned.lowerBound key = n.lowerBound key := rfl
  rw [InnerNode.insert, InnerNode.insert, hfree, hrecords, hpos]
  dsimp only
  split_ifs <;> rfl

def Parent.unversioned (p : Parent) : Parent := { p with node := p.node.unversioned }

theorem Parent.insert_unversioned {p q : Parent} (h : q.unversioned = p.unversioned) (key : Key)
    (child : PageID) :
    Parent.unversioned { q with node := (q.node.insert key child).2 } =
      Parent.unversioned { p with node := (p.node.insert key child).2 } := by
  obtain ⟨hptr, hnode⟩ := Parent.mk.inj h
  rw [Parent.unversioned, Parent.unversioned, ← InnerNode.insert_unversioned,
    ← InnerNode.insert_unversioned, hptr, hnode]

def PageLocation.unversioned : PageLocation → PageLocation
  | .mini p => .mini p.unversioned
  | .full p => .full p.unversioned
  | .base offset => .base offset
  | .null => .null

namespace LeafEntry

/-- The same leaf, up to versions and the split mark of the parent. -/
structure SameLeaf (t u : LeafEntry) : Prop where
  loc : u.loc.unversioned = t.loc.unversioned
  vfs : u.vfs = t.vfs
  parent : u.parent.map Parent.unversioned = t.parent.map Parent.unversioned
  sibling : u.sibling = t.sibling

/-- Two merges with the same result, and the same leaf once the lock is dropped. -/
def SameMerge (r : MergeResult) (t : LeafEntry) (r' : MergeResult) (u : LeafEntry) : Prop :=
  r' = r ∧ ∃ t' u', t.flush = some t' ∧ u.flush = some u' ∧ SameLeaf t' u'

theorem flush_mini {offset : Nat} {mini page : LeafNode} {t : LeafEntry} (hl : t.loc = .mini mini)
    (hn : mini.nextLevel = some offset) (hb : t.tmpBuffer = some ⟨true, page⟩) :
    t.flush = some { t with vfs := Function.update t.vfs offset (some page) } := by
  have hoffset : t.offset = some offset := by rw [LeafEntry.offset, hl, PageLocation.offset, hn]
  rw [flush, hb, hoffset]
  rfl

/-! ## What the version rules of a merge do -/

/-- The root pages that have been recorded so far go with `pid`. -/
def rootsAgree (captures : List (Nat × Capture)) (pid : PageID) : Bool :=
  captures.all fun c =>
    match c.2 with
    | .rootPage q => q = .id 0 ∨ q = pid
    | _ => true

theorem rootsAgree_append (cs cs' : List (Nat × Capture)) (pid : PageID) :
    rootsAgree (cs ++ cs') pid = (rootsAgree cs pid && rootsAgree cs' pid) := List.all_append

/-- Recording the parent as the root would run into the assertion on an earlier root. -/
def rootConflict (g : SnapshotGuard) (p : Parent) (captures : List (Nat × Capture)) : Prop :=
  g.isProtected = true ∧ (g.phase = .inProgress ∨ g.phase = .sweep) ∧
    p.node.snapshotVersion < g.version ∧ p.node.isRoot = true ∧
    rootsAgree captures (.inner p.ptr) = false

/-- A version is kept or lifted to the guard's. -/
def Raised (g : SnapshotGuard) (ver ver' : Nat) : Prop :=
  ver' = ver ∨ g.isProtected = true ∧ g.phase ≠ .prepare ∧ ver < g.version ∧ ver' = g.version

/-- The three pages of a splitting merge after the rules, and the state with them. -/
structure PagesLifted (g : SnapshotGuard) (p : Parent) (mini base : LeafNode) (t : LeafEntry)
    (p' : Parent) (mini' base' : LeafNode) (t' : LeafEntry) : Prop where
  parent : ∃ ver, p' = { p with node := { p.node with snapshotVersion := ver } } ∧
    Raised g p.node.snapshotVersion ver
  mini : ∃ ver changed, mini' = mini.setSnapshotVersion ver changed ∧
    Raised g mini.snapshotVersion ver ∧ (changed = true ∨ changed = mini.versionChanged)
  base : ∃ ver changed, base' = base.setSnapshotVersion ver changed
  state : ∃ cs, rootsAgree cs (.inner p.ptr) = true ∧
    t' = { t with
      loc := .mini mini', tmpBuffer := some ⟨true, base'⟩, parent := some p'
      captures := t.captures ++ cs }

/-- Everything the rules can do. -/
inductive MergeRuled (g : SnapshotGuard) (p : Parent) (mini base : LeafNode) (t : LeafEntry) :
    Option (Except TreeError (Parent × LeafNode × LeafNode) × LeafEntry) → Prop
  | panics (h : rootConflict g p t.captures) : MergeRuled g p mini base t none
  | refuses (h : (g.refuses p.node.snapshotVersion || g.refuses mini.snapshotVersion) = true) :
      MergeRuled g p mini base t (some (.error .needRestart, t))
  | lifts {p' : Parent} {mini' base' : LeafNode} {t' : LeafEntry}
      (hroot : ¬ rootConflict g p t.captures)
      (href : (g.refuses p.node.snapshotVersion || g.refuses mini.snapshotVersion) = false)
      (h : PagesLifted g p mini base t p' mini' base' t') :
      MergeRuled g p mini base t (some (.ok (p', mini', base'), t'))

variable {cfg : Config} {lo hi : Key} {offset : Nat} {base mini : LeafNode} {t u : LeafEntry}
  {g : SnapshotGuard} {p q : Parent}

/-- A merge is refused in prepare, where nothing is recorded. -/
theorem not_refuses_of_rootConflict {captures : List (Nat × Capture)}
    (h : rootConflict g p captures) :
    ¬ (g.refuses p.node.snapshotVersion || g.refuses mini.snapshotVersion) = true := by
  obtain ⟨-, hphase | hphase, -⟩ := h <;> simp [SnapshotGuard.refuses, hphase]

theorem recordRoot_apply (slot : Nat) (pid : PageID) (t : LeafEntry) :
    recordRoot slot pid t =
      if rootsAgree t.captures pid then
        some (.ok (), { t with captures := t.captures ++ [(slot, .rootPage pid)] })
      else none := by
  have hget : recordRoot slot pid t =
      (Prog.assert (rootsAgree t.captures pid) >>= fun _ => record slot (.rootPage pid)) t := rfl
  rw [hget]
  cases rootsAgree t.captures pid <;> rfl

/-- Lifting the parent panics on a second root or goes through. -/
theorem liftParent_apply (hp : t.parent = some p) (hg : g.isProtected = true)
    (hphase : g.phase ≠ .prepare) {save : Option Nat}
    (hsave : save.isSome ↔ g.phase = .inProgress ∨ g.phase = .sweep) :
    rootConflict g p t.captures ∧ liftParent g p save t = none ∨
    ¬ rootConflict g p t.captures ∧ ∃ ver cs, Raised g p.node.snapshotVersion ver ∧
      rootsAgree cs (.inner p.ptr) = true ∧
      liftParent g p save t =
        some (.ok { p with node := { p.node with snapshotVersion := ver } }, { t with
          parent := some { p with node := { p.node with snapshotVersion := ver } }
          captures := t.captures ++ cs }) := by
  by_cases hlt : p.node.snapshotVersion < g.version
  · have hraised : Raised g p.node.snapshotVersion g.version := .inr ⟨hg, hphase, hlt, rfl⟩
    rw [liftParent, if_pos hlt]
    cases save with
    | none =>
      refine .inr ⟨fun h => ?_, g.version, [], hraised, rfl, ?_⟩
      · simpa using hsave.2 h.2.1
      · rw [List.append_nil]
        rfl
    | some slot =>
      have hprogress := hsave.1 rfl
      have hrecord : recordInner slot p t =
          (if p.node.isRoot then recordRoot slot (.inner p.ptr) else pure ())
            { t with captures := t.captures ++ [(slot, .innerNode p.ptr p.node)] } := rfl
      have hagree : rootsAgree [(slot, .innerNode p.ptr p.node)] (.inner p.ptr) = true := rfl
      by_cases hroot : p.node.isRoot = true
      · rw [if_pos hroot, recordRoot_apply, rootsAgree_append, hagree, Bool.and_true] at hrecord
        cases hroots : rootsAgree t.captures (.inner p.ptr) with
        | false =>
          rw [hroots, if_neg Bool.false_ne_true] at hrecord
          exact .inl ⟨⟨hg, hprogress, hlt, hroot, hroots⟩, bind_of_none hrecord⟩
        | true =>
          rw [hroots, if_pos rfl, List.append_assoc] at hrecord
          refine .inr ⟨fun h => ?_, g.version, _, hraised, ?_, bind_of_ok hrecord⟩
          · exact Bool.false_ne_true (h.2.2.2.2.symm.trans hroots)
          · simp [rootsAgree]
      · rw [if_neg hroot] at hrecord
        exact .inr ⟨fun h => hroot h.2.2.2.1, g.version, _, hraised, hagree,
          bind_of_ok hrecord⟩
  · rw [liftParent, if_neg hlt]
    refine .inr ⟨fun h => hlt h.2.2.1, p.node.snapshotVersion, [], .inl rfl, rfl, ?_⟩
    rw [List.append_nil, Prog.pure_apply, ← hp]

theorem liftMini_apply (hl : t.loc = .mini mini) (hb : t.tmpBuffer = some ⟨true, base⟩)
    (hg : g.isProtected = true) (hphase : g.phase ≠ .prepare) (save : Option Nat) :
    ∃ ver changed ver' changed' cs, Raised g mini.snapshotVersion ver ∧
      (changed = true ∨ changed = mini.versionChanged) ∧
      (∀ pid, rootsAgree cs pid = true) ∧
      liftMini g mini base save t =
        some (.ok (mini.setSnapshotVersion ver changed, base.setSnapshotVersion ver' changed'), { t with
          loc := .mini (mini.setSnapshotVersion ver changed)
          tmpBuffer := some ⟨true, base.setSnapshotVersion ver' changed'⟩
          captures := t.captures ++ cs }) := by
  rw [liftMini, bind_of_ok (get_apply t)]
  split
  · next hlt =>
    have hraised : Raised g mini.snapshotVersion g.version := .inr ⟨hg, hphase, hlt, rfl⟩
    cases save with
    | none =>
      refine ⟨g.version, true, base.snapshotVersion, base.versionChanged, [], hraised, .inl rfl,
        fun _ => rfl, ?_⟩
      have hsame : base.setSnapshotVersion base.snapshotVersion base.versionChanged = base := rfl
      rw [hsame, ← hb, List.append_nil]
      rfl
    | some slot =>
      refine ⟨g.version, true, g.version, false,
        [(slot, .miniPage t.pid mini), (slot, .basePage t.pid base)], hraised, .inl rfl,
        fun _ => rfl, ?_⟩
      rw [List.append_cons]
      rfl
  · refine ⟨mini.snapshotVersion, mini.versionChanged, base.snapshotVersion, base.versionChanged, [],
      .inl rfl, .inr rfl, fun _ => rfl, ?_⟩
    have hsame : base.setSnapshotVersion base.snapshotVersion base.versionChanged = base := rfl
    have hsame' : mini.setSnapshotVersion mini.snapshotVersion mini.versionChanged = mini := rfl
    rw [hsame, hsame', ← hb, ← hl, List.append_nil]
    rfl


/-- Outside of prepare both pages are lifted. -/
theorem lift_ruled (hl : t.loc = .mini mini) (hb : t.tmpBuffer = some ⟨true, base⟩)
    (hp : t.parent = some p) (hg : g.isProtected = true) (hphase : g.phase ≠ .prepare)
    (save : Option Nat) (hsave : save.isSome ↔ g.phase = .inProgress ∨ g.phase = .sweep) :
    MergeRuled g p mini base t
      ((do
        let p ← liftParent g p save
        let pages ← liftMini g mini base save
        pure (p, pages) : M (Parent × LeafNode × LeafNode)) t) := by
  have href : ∀ ver, g.refuses ver = false := fun ver => by simp [SnapshotGuard.refuses, hphase]
  obtain ⟨hc, hpanic⟩ | ⟨hc, ver, cs, hver, hcs, hrun⟩ := liftParent_apply hp hg hphase hsave
  · rw [bind_of_none hpanic]
    exact .panics hc
  · rw [bind_of_ok hrun]
    obtain ⟨ver₁, changed₁, ver₂, changed₂, cs', hraised, hchanged, hcs', hrun'⟩ :=
      liftMini_apply (t := { t with
        parent := some { p with node := { p.node with snapshotVersion := ver } }
        captures := t.captures ++ cs }) hl hb hg hphase save
    rw [bind_of_ok hrun', Prog.pure_apply]
    refine .lifts hc (by rw [href, href]; rfl) ⟨⟨ver, rfl, hver⟩,
      ⟨ver₁, changed₁, rfl, hraised, hchanged⟩, ⟨ver₂, changed₂, rfl⟩, cs ++ cs', ?_, ?_⟩
    · rw [rootsAgree_append, hcs, hcs', Bool.and_self]
    · rw [List.append_assoc]

theorem versionRuleMerge_ruled (hl : t.loc = .mini mini) (hb : t.tmpBuffer = some ⟨true, base⟩)
    (hp : t.parent = some p) (g : SnapshotGuard) :
    MergeRuled g p mini base t (versionRuleMerge g p mini base t) := by
  have hsame : PagesLifted g p mini base t p mini base t :=
    ⟨⟨p.node.snapshotVersion, rfl, .inl rfl⟩,
      ⟨mini.snapshotVersion, mini.versionChanged, rfl, .inl rfl, .inr rfl⟩,
      ⟨base.snapshotVersion, base.versionChanged, rfl⟩,
      [], rfl, by rw [List.append_nil, ← hl, ← hb, ← hp]⟩
  obtain ⟨slot, version, phase⟩ := g
  cases slot with
  | none => exact .lifts (fun h => Bool.false_ne_true h.1) rfl hsame
  | some slot =>
    cases phase with
    | rest =>
      exact lift_ruled hl hb hp rfl (by simp) none (by simp)
    | prepare =>
      have href : (SnapshotGuard.refuses ⟨some slot, version, .prepare⟩ p.node.snapshotVersion ||
          SnapshotGuard.refuses ⟨some slot, version, .prepare⟩ mini.snapshotVersion) =
          decide (version < p.node.snapshotVersion ∨ version < mini.snapshotVersion) := by
        simp [SnapshotGuard.refuses, SnapshotGuard.isProtected]
      by_cases hc : version < p.node.snapshotVersion ∨ version < mini.snapshotVersion
      · rw [decide_eq_true hc] at href
        rw [versionRuleMerge, if_pos hc]
        exact .refuses href
      · rw [decide_eq_false hc] at href
        rw [versionRuleMerge, if_neg hc]
        exact .lifts (fun h => by simpa using h.2.1) href hsame
    | inProgress =>
      exact lift_ruled hl hb hp rfl (by simp) (some slot) (by simp)
    | sweep =>
      exact lift_ruled hl hb hp rfl (by simp) (some slot) (by simp)

theorem wp_versionRuleMerge (hl : t.loc = .mini mini) (hb : t.tmpBuffer = some ⟨true, base⟩)
    (hp : t.parent = some p) {Q : Parent × LeafNode × LeafNode → LeafEntry → Prop}
    {E : TreeError → LeafEntry → Prop}
    (hQ : ∀ p' mini' base' t', ¬ rootConflict g p t.captures →
      PagesLifted g p mini base t p' mini' base' t' → Q (p', mini', base') t')
    (hE : (g.refuses p.node.snapshotVersion || g.refuses mini.snapshotVersion) = true →
      E .needRestart t) :
    wp (versionRuleMerge g p mini base) Q E t := by
  have hruled := versionRuleMerge_ruled hl hb hp g
  refine ⟨fun r t' hr => ?_, fun e t' hr => ?_⟩
  · rw [hr] at hruled
    cases hruled with
    | lifts hroot href h => exact hQ _ _ _ _ hroot h
  · rw [hr] at hruled
    cases hruled with
    | refuses h => exact hE h

/-! ## What an aborted merge leaves behind -/

/-- What a merge leaves behind that gives up once the base page is marked. -/
structure LeftBehind (g : SnapshotGuard) (p : Parent) (mini base : LeafNode) (t u : LeafEntry) :
    Prop where
  mini : ∃ ver changed, u.loc = .mini (mini.setSnapshotVersion ver changed) ∧
    Raised g mini.snapshotVersion ver ∧ (changed = true ∨ changed = mini.versionChanged)
  base : ∃ ver changed, u.tmpBuffer = some ⟨true, base.setSnapshotVersion ver changed⟩
  parent : ∃ q, u.parent = some q ∧ q.unversioned = p.unversioned ∧
    Raised g p.node.snapshotVersion q.node.snapshotVersion
  roots : ¬ rootConflict g p t.captures
  captures : ∃ cs, rootsAgree cs (.inner p.ptr) = true ∧ u.captures = t.captures ++ cs
  rest : u = { t with
    loc := u.loc, tmpBuffer := u.tmpBuffer, parent := u.parent, captures := u.captures }

theorem mergeAndSplit_aborts (hl : t.loc = .mini mini) (cfg : Config) (env : Env) (base : LeafNode) :
    wp (mergeAndSplit cfg env mini base) (fun _ _ => True)
      (fun _ u => u = t ∨ ∃ g p key base', env.mergeGuard = some g ∧ t.parent = some p ∧
        base.getMergeSplitKey mini = some (key, base') ∧ LeftBehind g p mini base' t u) t := by
  unfold mergeAndSplit
  cases env.mergeGuard with
  | none =>
    rw [wp_bind, wp_fail]
    exact .inl rfl
  | some g =>
    simp only [wp_bind, wp_pure, wp_attempt, wp_get, wp_unwrap, wp_writeBase]
    refine ⟨fun _ p hp => ?_, fun _ _ => .inl trivial⟩
    rintro ⟨key, base'⟩ hkey
    refine wp_versionRuleMerge (by exact hl) rfl (by exact hp) (fun p' mini' base'' t' hroot h => ?_)
      fun href => .inr ⟨g, p, key, base', rfl, hp, hkey, ?_⟩
    · refine wp_ite (fun _ => ?_) fun _ => ?_
      · simp only [wp_bind, wp_unwrap, wp_insertParent, wp_writeBase, wp_modify,
          wp_pure, implies_true]
      · obtain ⟨⟨ver, rfl, hver⟩, ⟨ver₁, changed₁, rfl, hver₁, hchanged⟩, ⟨ver₂, changed₂, rfl⟩,
          cs, hcs, rfl⟩ := h
        simp only [wp_bind, wp_setParent, wp_fail]
        exact .inr ⟨g, p, key, base', rfl, hp, hkey, ⟨ver₁, changed₁, rfl, hver₁, hchanged⟩,
          ⟨ver₂, changed₂, rfl⟩, ⟨_, rfl, rfl, hver⟩, hroot, ⟨cs, hcs, rfl⟩, rfl⟩
    · refine ⟨⟨mini.snapshotVersion, mini.versionChanged, hl, .inl rfl, .inr rfl⟩,
        ⟨base'.snapshotVersion, base'.versionChanged, rfl⟩, ⟨p, hp, rfl, .inl rfl⟩, ?_,
        ⟨[], rfl, (List.append_nil _).symm⟩, rfl⟩
      exact fun hc => not_refuses_of_rootConflict hc href

/-! ## Base pages with a single record -/

/-- The sizes a merge relies on: records and fences of the base page keep to the
configuration, and the mini page is no larger than the largest one. -/
structure MergeSized (cfg : Config) (base mini : LeafNode) : Prop where
  nodeSize : base.nodeSize = cfg.leafPageSize
  fences : base.lowFence.length + base.highFence.length ≤ cfg.maxFenceLen
  records : ∀ m ∈ base.metas, base.getKeyLen m + m.value.length ≤ cfg.cbMaxRecordSize
  miniSize : ∀ maxMini, cfg.maxMiniPageSize = some maxMini → mini.nodeSize ≤ maxMini
  used : mini.used + leafHeaderSize ≤ mini.nodeSize

/-- A consolidated page with at most one record. -/
theorem consolidateSingle_space {base' : LeafNode} {n : Nat} (hb : BasePage lo hi base)
    (hlen : base.metas.length = 1)
    (hrec : ∀ m ∈ base.metas, base.getKeyLen m + m.value.length ≤ n)
    (h : consolidateSingle base = some base') :
    base.nodeSize ≤ base'.remainingSize + base.lowFence.length + base.highFence.length +
      leafHeaderSize + 3 * kvMetaSize + n := by
  obtain ⟨m, hm⟩ := List.length_eq_one_iff.1 hlen
  rw [consolidateSingle, if_pos hlen, Option.map_eq_some_iff] at h
  obtain ⟨q, hq, rfl⟩ := h
  have hkey : (base.getFullKey m).length ≤ base.getKeyLen m := by
    rw [getFullKey, getKeyLen, getPrefix, List.length_append, List.length_take]
    omega
  have hn := hrec m (by rw [hm]; exact List.mem_singleton_self m)
  have hspace : base.nodeSize ≤ (initializeNode base.lowFence base.highFence base.nodeSize
      base.nextLevel true false base.snapshotVersion).remainingSize + base.lowFence.length +
        base.highFence.length + leafHeaderSize + 2 * kvMetaSize := by
    show _ ≤ maxDataSize base.nodeSize - kvMetaSize - base.lowFence.length - kvMetaSize -
      (base.highFence.length - _) + _ + _ + _ + _
    rw [maxDataSize]
    omega
  have hpairs : base.consolidatePairs .insert true none = [] ∨
      base.consolidatePairs .insert true none = [(base.getFullKey m, m.value, .insert)] := by
    rw [consolidatePairs, hm, List.filterMap_cons, List.filterMap_nil]
    cases m.opType <;> simp
  rw [consolidateInner, hb.hasFence, Option.getD_none] at hq
  show _ ≤ q.remainingSize + _ + _ + _ + _ + _
  obtain hp | hp := hpairs
  · rw [hp, insertAll] at hq
    cases hq
    omega
  · rw [hp, insertAll] at hq
    split at hq
    · next q' hins =>
      obtain rfl : q' = q := Option.some.inj hq
      have hroom := insert_metas_nil (initializeNode_metas ..) hins
      omega
    · cases hq

/-- A base page with a single record has room for every mini page. -/
theorem consolidateSingle_merges (hcfg : cfg.validate = some (.ok ())) (hc : cfg.cacheOnly = false)
    (hb : BasePage lo hi base) (hm : MiniPage lo hi offset base mini)
    (hsize : MergeSized cfg base mini) (hlen : base.metas.length = 1) {base' : LeafNode}
    (h : consolidateSingle base = some base') :
    base'.fullWithFences (u16 mini.estimateMergeSize) cfg.maxFenceLen = false := by
  obtain ⟨maxMini, hmax, -, hle, -⟩ := Config.validate_maxMini hcfg
  rw [Config.reserved, if_neg (by rw [hc]; decide)] at hle
  have hmini := hsize.miniSize maxMini hmax
  have hfences := hsize.fences
  have hused := hsize.used
  have hbase := hsize.nodeSize
  have hspace := consolidateSingle_space hb hlen hsize.records h
  have hb' := (hb.consolidateSingle h).1
  have hestimate : mini.estimateMergeSize ≤ mini.used := by
    rw [estimateMergeSize, used, recordSize_eq_storedSize hm.wf hm.hasFence]
    exact (List.filter_sublist.map _).sum_le_sum fun _ _ => Nat.zero_le _
  have hu16 : u16 mini.estimateMergeSize ≤ mini.estimateMergeSize := Nat.mod_le _ _
  have hheader : leafHeaderSize = 32 := rfl
  have hslot : kvMetaSize = 8 := rfl
  have hlo : base'.lowFence = base.lowFence := hb'.lowFence.trans hb.lowFence.symm
  have hhi : base'.highFence = base.highFence := hb'.highFence.trans hb.highFence.symm
  rw [fullWithFences, if_neg (by omega), if_pos hb'.hasFence, hlo, hhi]
  simp only [Bool.not_eq_false', decide_eq_true_eq]
  omega

/-! ## Aborted merges -/

/-- A merge that has found no room in the base page, has marked it and gives up. -/
structure Abandoned (cfg : Config) (env : Env) (mini base : LeafNode) (t u : LeafEntry) : Prop where
  unmerged : (!mini.needActuallyMergeToDisk && !mini.versionChanged) = false
  several : base.metas.length ≠ 1
  full : base.fullWithFences (u16 mini.estimateMergeSize) cfg.maxFenceLen = true
  left : ∃ g p key base', env.mergeGuard = some g ∧ t.parent = some p ∧
    base.getMergeSplitKey mini = some (key, base') ∧ LeftBehind g p mini base' t u

theorem tryMergeMiniPage_aborts (hcfg : cfg.validate = some (.ok ())) (hc : cfg.cacheOnly = false)
    (h : Over lo hi offset base t) (hl : t.loc = .mini mini) (hsize : MergeSized cfg base mini)
    (env : Env) :
    wp (tryMergeMiniPage cfg env mini) (fun _ _ => True)
      (fun _ u => u = t ∨ u = { t with tmpBuffer := some ⟨true, base⟩ } ∨
        Abandoned cfg env mini base t u) t := by
  simp only [tryMergeMiniPage, wp_bind, wp_attempt]
  refine ⟨fun _ => wp_ite (fun _ => (wp_pure _).2 trivial) fun hdirty => ?_,
    fun _ _ => .inl trivial⟩
  rw [wp_bind]
  refine wp_mono (loadBasePageMut_spec h) ?_ (fun _ _ hf => hf.elim)
  rintro base _ ⟨rfl, rfl, -⟩
  simp only [wp_bind, wp_unwrap]
  rintro base₁ hbase₁ ⟨merged, base₂⟩ hmerge
  simp only [wp_writeBase]
  refine wp_ite (fun _ => (wp_pure _).2 trivial) fun hmerged => ?_
  -- only a full page is not merged, and then it is not a consolidated one
  rw [mergeMiniPage] at hmerge
  split at hmerge
  · next hfull =>
    cases hmerge
    have hseveral : base.metas.length ≠ 1 := fun hlen => by
      rw [consolidateSingle_merges hcfg hc h.basePage (h.caches_mini hl) hsize hlen hbase₁] at hfull
      exact Bool.false_ne_true hfull
    rw [consolidateSingle, if_neg hseveral] at hbase₁
    cases hbase₁
    refine wp_mono (mergeAndSplit_aborts (by exact hl) cfg env base) (fun _ _ _ => trivial) ?_
    rintro e u (rfl | ⟨g, p, key, base', hg, hp, hkey, hleft⟩)
    · exact .inr (.inl rfl)
    · exact .inr (.inr ⟨by simpa using hdirty, hseveral, hfull, g, p, key, base', hg, hp, hkey,
        ⟨hleft.mini, hleft.base, hleft.parent, hleft.roots, hleft.captures, hleft.rest⟩⟩)
  · simp only [Option.bind_eq_bind, Option.bind_eq_some_iff, Option.some.injEq] at hmerge
    obtain ⟨_, -, hmerge⟩ := hmerge
    exact absurd (Prod.mk.inj hmerge).1.symm hmerged

/-! ## The next attempt -/

/-- Both attempts hold the lock of the leaf while they reserve a thread slot, so that the
second reservation is begun once the first is held. -/
def TakenAfter (g g' : SnapshotGuard) : Prop :=
  g.isProtected = true → g'.isProtected = true →
    ∃ (v : Nat) (s₀ s₁ s₂ s₃ : HandshakeSys Nat) (w w' : Nat) (tid tid' : SlotId),
      HandshakeSys.new Nat v = some s₀ ∧ Relation.ReflTransGen HandshakeSys.Step s₀ s₁ ∧
      s₁.Holds w tid ⟨g.phase, g.version⟩ ∧ Relation.ReflTransGen HandshakeSys.Step s₁ s₂ ∧
      s₂.workers w' = .idle ∧ Relation.ReflTransGen HandshakeSys.Step s₂ s₃ ∧
      s₃.Holds w' tid' ⟨g'.phase, g'.version⟩

theorem TakenAfter.order {g g' : SnapshotGuard} (h : TakenAfter g g') (hg : g.isProtected = true)
    (hg' : g'.isProtected = true) : g.version ≤ g'.version ∧
      (g.version = g'.version → g'.phase = .inProgress ∨ g'.phase = .sweep →
        g.phase = .inProgress ∨ g.phase = .sweep) := by
  obtain ⟨v, s₀, s₁, s₂, s₃, w, w', tid, tid', hnew, hrun₁, hw, hrun₂, hidle, hrun₃, hw'⟩ := h hg hg'
  have hrank := HandshakeSys.held_in_order (HandshakeSys.run_inv (.new hnew) (.new hnew) hrun₁).1
    hw hrun₂ hidle hrun₃ hw'
  refine ⟨SnapshotState.version_le_of_rank_le hrank, fun hver hphase => ?_⟩
  simp only [SnapshotState.rank, hver] at hrank
  obtain hp | hp := hphase <;> rw [hp] at hrank <;> cases hq : g.phase <;> rw [hq] at hrank <;>
    simp at hrank ⊢ <;> omega

/-- `u` is what an aborted merge under the guard `g` has made of `t`. -/
structure Resumes (g : SnapshotGuard) (offset : Nat) (p q : Parent) (mini mini' : LeafNode)
    (t u : LeafEntry) : Prop where
  loc : t.loc = .mini mini
  loc' : u.loc = .mini mini'
  nextLevel : mini.nextLevel = some offset
  mini : ∃ ver changed, mini' = mini.setSnapshotVersion ver changed ∧
    Raised g mini.snapshotVersion ver
  parent : t.parent = some p
  parent' : u.parent = some q
  unversioned : q.unversioned = p.unversioned
  raised : Raised g p.node.snapshotVersion q.node.snapshotVersion
  roots : ¬ rootConflict g p t.captures
  captures : ∃ cs, rootsAgree cs (.inner p.ptr) = true ∧ u.captures = t.captures ++ cs
  vfs : ∀ o, o ≠ offset → u.vfs o = t.vfs o
  nextPid : u.nextPid = t.nextPid
  nextOffset : u.nextOffset = t.nextOffset

theorem Raised.refuses_iff {g' : SnapshotGuard} {ver ver' : Nat} (h : Raised g ver ver')
    (hafter : TakenAfter g g') : g'.refuses ver' = g'.refuses ver := by
  obtain rfl | ⟨hg, -, hlt, rfl⟩ := h
  · rfl
  · cases hg' : g'.isProtected with
    | false => simp only [SnapshotGuard.refuses, hg', Bool.false_and]
    | true =>
      have hle := (hafter.order hg hg').1
      have h₁ : decide (g'.version < g.version) = false := decide_eq_false (by omega)
      have h₂ : decide (g'.version < ver) = false := decide_eq_false (by omega)
      simp only [SnapshotGuard.refuses, h₁, h₂, Bool.and_false]

namespace Resumes

variable {g' : SnapshotGuard} {mini' : LeafNode}

theorem refuses_eq (h : Resumes g offset p q mini mini' t u) (hafter : TakenAfter g g') :
    (g'.refuses q.node.snapshotVersion || g'.refuses mini'.snapshotVersion) =
      (g'.refuses p.node.snapshotVersion || g'.refuses mini.snapshotVersion) := by
  obtain ⟨ver, changed, rfl, hver⟩ := h.mini
  rw [h.raised.refuses_iff hafter, ← hver.refuses_iff hafter]
  rfl

/-- The assertion on the recorded root fails in both runs or in none. -/
theorem rootConflict_iff (h : Resumes g offset p q mini mini' t u) (hafter : TakenAfter g g') :
    rootConflict g' q u.captures ↔ rootConflict g' p t.captures := by
  obtain ⟨cs, hcs, hcaptures⟩ := h.captures
  have hptr := congrArg Parent.ptr h.unversioned
  have hroot := congrArg (fun p : Parent => p.node.isRoot) h.unversioned
  change q.ptr = p.ptr at hptr
  change q.node.isRoot = p.node.isRoot at hroot
  have hroots : rootsAgree u.captures (.inner q.ptr) = rootsAgree t.captures (.inner p.ptr) := by
    rw [hcaptures, hptr, rootsAgree_append, hcs, Bool.and_true]
  rw [rootConflict, rootConflict, hroot, hroots]
  refine and_congr_right fun hg' => and_congr_right fun hphase => ?_
  obtain heq | ⟨hg, -, hlt, heq⟩ := h.raised
  · rw [heq]
  · obtain ⟨hle, hsame⟩ := hafter.order hg hg'
    rw [heq]
    by_cases hver : g.version = g'.version
    · -- the aborted merge has recorded the parent for this snapshot already
      refine iff_of_false (fun hc => by omega) fun hc => h.roots ?_
      exact ⟨hg, hsame hver hphase, hlt, hc.2⟩
    · exact and_congr_left fun _ => iff_of_true (by omega) (by omega)

/-- Both runs go on with the same pages, up to versions. -/
structure SamePages (offset : Nat) (r : Parent × LeafNode × LeafNode) (t : LeafEntry)
    (r' : Parent × LeafNode × LeafNode) (u : LeafEntry) : Prop where
  parent : r'.1.unversioned = r.1.unversioned
  mini : ∃ ver changed, r'.2.1 = r.2.1.setSnapshotVersion ver changed
  base : ∃ ver changed, r'.2.2 = r.2.2.setSnapshotVersion ver changed
  loc : t.loc = .mini r.2.1
  loc' : u.loc = .mini r'.2.1
  nextLevel : r.2.1.nextLevel = some offset
  vfs : ∀ o, o ≠ offset → u.vfs o = t.vfs o
  nextPid : u.nextPid = t.nextPid
  nextOffset : u.nextOffset = t.nextOffset

theorem versionRuleMerge_twins (h : Resumes g offset p q mini mini' t u)
    (hafter : TakenAfter g g') {ver : Nat} {changed : Bool} (hb : t.tmpBuffer = some ⟨true, base⟩)
    (hb' : u.tmpBuffer = some ⟨true, base.setSnapshotVersion ver changed⟩) :
    Prog.Twins (SamePages offset) (versionRuleMerge g' p mini base)
      (versionRuleMerge g' q mini' (base.setSnapshotVersion ver changed)) t u := by
  have hruled := versionRuleMerge_ruled h.loc hb h.parent g'
  have hruled' := versionRuleMerge_ruled h.loc' hb' h.parent' g'
  have hroot := h.rootConflict_iff hafter
  have href := h.refuses_eq hafter
  unfold Prog.Twins
  generalize versionRuleMerge g' p mini base t = r at hruled
  generalize versionRuleMerge g' q mini' (base.setSnapshotVersion ver changed) u = r' at hruled'
  cases hruled with
  | panics hc =>
    cases hruled' with
    | panics => trivial
    | refuses hr =>
      rw [href] at hr
      exact (not_refuses_of_rootConflict hc hr).elim
    | lifts hn => exact (hn (hroot.2 hc)).elim
  | refuses hr =>
    cases hruled' with
    | panics hc => exact (not_refuses_of_rootConflict (hroot.1 hc) hr).elim
    | refuses => rfl
    | lifts _ hn => exact absurd (hn.symm.trans (href.trans hr)) (by decide)
  | lifts hn hnr hlift =>
    cases hruled' with
    | panics hc => exact (hn (hroot.1 hc)).elim
    | refuses hr => exact absurd (hnr.symm.trans (href.symm.trans hr)) (by decide)
    | lifts _ _ hlift' =>
      obtain ⟨⟨v₁, rfl, -⟩, ⟨v₂, c₂, rfl, -⟩, ⟨v₃, c₃, rfl⟩, cs, -, rfl⟩ := hlift
      obtain ⟨⟨w₁, rfl, -⟩, ⟨w₂, d₂, rfl, -⟩, ⟨w₃, d₃, rfl⟩, cs', -, rfl⟩ := hlift'
      obtain ⟨v, c, rfl, -⟩ := h.mini
      exact ⟨h.unversioned, ⟨w₂, d₂, rfl⟩, ⟨w₃, d₃, rfl⟩, rfl, rfl, h.nextLevel, h.vfs, h.nextPid,
        h.nextOffset⟩

theorem mergeAndSplit_twins (h : Resumes g offset p q mini mini' t u) {env : Env}
    (hafter : ∀ g', env.mergeGuard = some g' → TakenAfter g g') {base' : LeafNode}
    {ver : Nat} {changed : Bool} {key : Key} {marked : LeafNode}
    (hkey : base.getMergeSplitKey mini = some (key, marked))
    (hkey' : base'.getMergeSplitKey mini' = some (key, marked.setSnapshotVersion ver changed))
    (cfg : Config) :
    Prog.Twins SameMerge (mergeAndSplit cfg env mini base) (mergeAndSplit cfg env mini' base') t u := by
  unfold mergeAndSplit
  cases hg : env.mergeGuard with
  | none => exact .fail _
  | some g' =>
    cases hup : env.parentUpgrade with
    | some e => exact .fail _
    | none =>
      refine .bind_ok rfl rfl (.bind_ok rfl rfl (.bind_ok rfl rfl ?_))
      rw [h.parent, h.parent', hkey, hkey']
      refine .bind_ok rfl rfl (.bind_ok rfl rfl (.bind_ok rfl rfl ?_))
      refine .bind (versionRuleMerge_twins (t := { t with tmpBuffer := some ⟨true, marked⟩ })
        (u := { u with tmpBuffer := some ⟨true, marked.setSnapshotVersion ver changed⟩ })
        ⟨h.loc, h.loc', h.nextLevel, h.mini, h.parent, h.parent', h.unversioned, h.raised, h.roots,
          h.captures, h.vfs, h.nextPid, h.nextOffset⟩ (hafter g' hg) rfl rfl) ?_
      rintro ⟨p₁, mini₁, base₁⟩ t₁ ⟨q₁, mini₂, base₂⟩ u₁ hsame
      obtain ⟨ver₁, changed₁, rfl⟩ := hsame.mini
      obtain ⟨ver₂, changed₂, rfl⟩ := hsame.base
      have hspace := congrArg (fun p : Parent => p.node.haveSpaceFor key) hsame.parent
      change q₁.node.haveSpaceFor key = p₁.node.haveSpaceFor key at hspace
      refine .ite (by rw [hspace]) (fun _ => ?_) fun _ => ?_
      · have hsplit : (base₁.setSnapshotVersion ver₂ changed₂).splitWithKey cfg.leafPageSize key false
            g'.version = base₁.splitWithKey cfg.leafPageSize key false g'.version := rfl
        rw [hsplit]
        refine .bind_unwrap fun pages _ => .bind_ok rfl rfl ?_
        have hdirty : (mini₁.setSnapshotVersion ver₁ changed₁).dirtyPairs = mini₁.dirtyPairs := rfl
        rw [hdirty]
        refine .bind_unwrap fun halves _ => .bind_ok rfl rfl (.bind_ok rfl rfl (.pure ⟨rfl, ?_⟩))
        refine ⟨_, _, flush_mini (by exact hsame.loc) hsame.nextLevel rfl,
          flush_mini (by exact hsame.loc') (by exact hsame.nextLevel) rfl, ?_⟩
        constructor
        · show u₁.loc.unversioned = t₁.loc.unversioned
          rw [hsame.loc, hsame.loc']
          rfl
        · -- both halves are written, whatever was there before
          funext o
          dsimp only
          rw [hsame.nextOffset]
          by_cases ho : o = offset
          · rw [ho, Function.update_self, Function.update_self]
          · rw [Function.update_of_ne ho, Function.update_of_ne ho, Function.update_apply,
              Function.update_apply, hsame.vfs o ho]
        · show some (Parent.unversioned _) = some (Parent.unversioned _)
          rw [h.nextPid, Parent.insert_unversioned hsame.parent]
        · show some (PageLocation.base u₁.nextOffset) = some (.base t₁.nextOffset)
          rw [hsame.nextOffset]
      · exact .bind_ok rfl rfl (.fail _)

end Resumes

/-- The leaf is locked again, without a temporary buffer. -/
def relocked (t : LeafEntry) : LeafEntry := { t with tmpBuffer := none }

/-- Dropping the lock leaves the base page on disk. -/
theorem relocked_flush (hl : t.loc = .mini mini) (hn : mini.nextLevel = some offset)
    (hbase : t.basePage? offset = some base)
    (hclean : ∀ page, t.tmpBuffer = some ⟨false, page⟩ → t.vfs offset = some page) :
    ∃ t', t.flush = some t' ∧ t'.loc = t.loc ∧ t'.relocked = { t with
      tmpBuffer := none, vfs := Function.update t.vfs offset (some base) } := by
  cases hb : t.tmpBuffer with
  | none =>
    rw [basePage?_of_none hb] at hbase
    refine ⟨t, flush_of_none hb, rfl, ?_⟩
    rw [relocked, ← hbase, Function.update_eq_self]
  | some b =>
    obtain ⟨dirty, page⟩ := b
    rw [basePage?_of_some hb, Option.some.injEq] at hbase
    obtain rfl : page = base := hbase
    cases dirty with
    | true => exact ⟨_, flush_mini hl hn hb, rfl, rfl⟩
    | false =>
      refine ⟨t, by rw [flush, hb], rfl, ?_⟩
      rw [relocked, ← hclean page hb, Function.update_eq_self]

theorem loadBasePageMut_apply (hbuf : t.tmpBuffer = none) (hoff : t.offset = some offset)
    (hv : t.vfs offset = some base) :
    loadBasePageMut t = some (.ok base, { t with tmpBuffer := some ⟨true, base⟩ }) := by
  rw [loadBasePageMut, bind_of_ok (get_apply t), hbuf, hoff]
  show (Prog.unwrap (t.vfs offset) >>= _ : M LeafNode) t = _
  rw [hv]
  rfl

/-- The merge that is tried after an abandoned one ends alike. -/
theorem Abandoned.again {env : Env} (h : Abandoned cfg env mini base t u)
    (hl : t.loc = .mini mini) (hb : BasePage lo hi base) (hm : MiniPage lo hi offset base mini) :
    ∃ mini' base', u.loc = .mini mini' ∧ mini'.unversioned = mini.unversioned ∧
      u.tmpBuffer = some ⟨true, base'⟩ ∧
      ∀ env', (∀ g g', env.mergeGuard = some g → env'.mergeGuard = some g' → TakenAfter g g') →
        Prog.Twins SameMerge (tryMergeMiniPage cfg env' mini) (tryMergeMiniPage cfg env' mini')
          { t with tmpBuffer := none, vfs := Function.update t.vfs offset (some base) }
          { u with tmpBuffer := none, vfs := Function.update u.vfs offset (some base') } := by
  obtain ⟨g, p, key, marked, hg, hp, hkey, hleft⟩ := h.left
  obtain ⟨ver, changed, hloc, hver, hchanged⟩ := hleft.mini
  obtain ⟨ver', changed', hbuf⟩ := hleft.base
  obtain ⟨q, hq, hsame, hraised⟩ := hleft.parent
  obtain ⟨cs, hcs, hcaptures⟩ := hleft.captures
  obtain ⟨hmarked, hsame_marked, hlen⟩ := getMergeSplitKey_marks hb.wf hm.wf hkey
  refine ⟨_, _, hloc, rfl, hbuf, fun env' hafter => ?_⟩
  unfold tryMergeMiniPage
  cases env'.parentCheckVersion with
  | some e => exact .fail _
  | none =>
    refine .bind_ok rfl rfl ?_
    have hdirty : (!(mini.setSnapshotVersion ver changed).needActuallyMergeToDisk &&
        !(mini.setSnapshotVersion ver changed).versionChanged) = false := by
      have hneed : (mini.setSnapshotVersion ver changed).needActuallyMergeToDisk =
          mini.needActuallyMergeToDisk := rfl
      have hunmerged := h.unmerged
      rw [hneed]
      show (_ && !changed) = false
      obtain rfl | rfl := hchanged
      · rw [Bool.not_true, Bool.and_false]
      · exact hunmerged
    rw [h.unmerged, hdirty, if_neg Bool.false_ne_true, if_neg Bool.false_ne_true]
    refine .bind_ok
      (loadBasePageMut_apply rfl (by rw [LeafEntry.offset, hl, PageLocation.offset, hm.nextLevel])
        (Function.update_self ..))
      (loadBasePageMut_apply rfl (by rw [LeafEntry.offset, hloc]; exact hm.nextLevel)
        (Function.update_self ..)) ?_
    have hsingle : consolidateSingle base = some base := if_neg h.several
    have hsingle' : consolidateSingle (marked.setSnapshotVersion ver' changed') =
        some (marked.setSnapshotVersion ver' changed') := if_neg (by
      show marked.metas.length ≠ 1
      rw [hlen]
      exact h.several)
    have hmerge : base.mergeMiniPage mini cfg.maxFenceLen = some (false, base) := if_pos h.full
    have hmerge' : (marked.setSnapshotVersion ver' changed').mergeMiniPage
        (mini.setSnapshotVersion ver changed) cfg.maxFenceLen =
          some (false, marked.setSnapshotVersion ver' changed') := if_pos (by
      rw [hsame_marked]
      exact h.full)
    rw [hsingle, hsingle']
    refine .bind_ok rfl rfl ?_
    rw [hmerge, hmerge']
    refine .bind_ok rfl rfl (.bind_ok rfl rfl ?_)
    have hresumes : Resumes g offset p q mini (mini.setSnapshotVersion ver changed)
        { t with tmpBuffer := some ⟨true, base⟩, vfs := Function.update t.vfs offset (some base) }
        { u with
          tmpBuffer := some ⟨true, marked.setSnapshotVersion ver' changed'⟩
          vfs := Function.update u.vfs offset (some (marked.setSnapshotVersion ver' changed')) } := by
      refine ⟨hl, hloc, hm.nextLevel, ⟨ver, changed, rfl, hver⟩, hp, hq, hsame, hraised, hleft.roots,
        ⟨cs, hcs, hcaptures⟩, fun o ho => ?_, ?_, ?_⟩
      · dsimp only
        rw [Function.update_of_ne ho, Function.update_of_ne ho, hleft.rest]
      · dsimp only
        rw [hleft.rest]
      · dsimp only
        rw [hleft.rest]
    have hkey' : (marked.setSnapshotVersion ver' changed').getMergeSplitKey
        (mini.setSnapshotVersion ver changed) = some (key, marked.setSnapshotVersion ver' changed') := by
      rw [getMergeSplitKey_setSnapshotVersion hmarked hm.wf, getMergeSplitKey_again hb.wf hm.wf hkey]
      rfl
    exact hresumes.mergeAndSplit_twins (fun g' => hafter g g' hg) hkey hkey' cfg

/-- A merge that is repeated without anything in between ends as before. -/
theorem tryMergeMiniPage_twins (h : Over lo hi offset base t) (hl : t.loc = .mini mini) (cfg : Config)
    (env : Env) :
    Prog.Twins SameMerge (tryMergeMiniPage cfg env mini) (tryMergeMiniPage cfg env mini) t t := by
  refine .of_wp (wp_mono (tryMergeMiniPage_spec h hl cfg env) (fun r t' hm => ?_)
    fun _ _ _ => trivial)
  obtain ⟨p, hp, hn⟩ := hm.loc
  have hsome : ∃ t'', t'.flush = some t'' := by
    unfold flush
    split
    · exact ⟨_, by rw [LeafEntry.offset, hp, PageLocation.offset, hn]; rfl⟩
    · exact ⟨t', rfl⟩
  obtain ⟨t'', ht''⟩ := hsome
  exact ⟨rfl, t'', t'', ht'', ht'', rfl, rfl, rfl, rfl⟩

/-- A merge that fails leaves a leaf with the same records when the lock is dropped, and the
next merge gives the result that it would have given had this one not been tried. -/
theorem aborted_merge_harmless (hcfg : cfg.validate = some (.ok ())) (hc : cfg.cacheOnly = false)
    (h : Over lo hi offset base t)
    (hclean : ∀ page, t.tmpBuffer = some ⟨false, page⟩ → t.vfs offset = some page)
    (hl : t.loc = .mini mini) (hsize : MergeSized cfg base mini) {env : Env} {e : TreeError}
    {t₁ : LeafEntry} (habort : tryMergeMiniPage cfg env mini t = some (.error e, t₁)) :
    ∃ t' u mini', t.flush = some t' ∧ t₁.flush = some u ∧ u.loc = .mini mini' ∧
      mini'.unversioned = mini.unversioned ∧ Leaf lo hi offset (content base (.mini mini)) u.loc u.vfs ∧
      ∀ env', (∀ g g', env.mergeGuard = some g → env'.mergeGuard = some g' → TakenAfter g g') →
        Prog.Twins SameMerge (tryMergeMiniPage cfg env' mini) (tryMergeMiniPage cfg env' mini')
          t'.relocked u.relocked := by
  have hm := h.caches_mini hl
  obtain ⟨t', hflush, hloc', hrelock⟩ := relocked_flush hl hm.nextLevel h.base_eq hclean
  obtain ⟨u, hflush₁, hleaf, -, -⟩ :=
    flush_spec ((tryMergeMiniPage_spec h hl cfg env).2 e t₁ habort).stores
  -- the leaf as it is found after dropping the lock without a merge
  have hover : Over lo hi offset base { t with
      tmpBuffer := none, vfs := Function.update t.vfs offset (some base) } :=
    ⟨(basePage?_of_none rfl _).trans (Function.update_self ..), fun _ hp => by simp at hp,
      h.basePage, h.caches⟩
  have hrepeat : ∀ env', Prog.Twins SameMerge (tryMergeMiniPage cfg env' mini)
      (tryMergeMiniPage cfg env' mini) t'.relocked t'.relocked := by
    intro env'
    rw [hrelock]
    exact tryMergeMiniPage_twins hover hl cfg env'
  obtain rfl | rfl | habandoned := (tryMergeMiniPage_aborts hcfg hc h hl hsize env).2 e t₁ habort
  · obtain rfl : t' = u := Option.some.inj (hflush.symm.trans hflush₁)
    exact ⟨t', t', mini, hflush, hflush, hloc'.trans hl, rfl, hleaf, fun env' _ => hrepeat env'⟩
  · obtain ⟨u', hflush₂, hloc₂, hrelock₂⟩ := relocked_flush
      (t := { t with tmpBuffer := some ⟨true, base⟩ }) hl hm.nextLevel (basePage?_of_some rfl _)
      (fun page hp => by simp at hp)
    obtain rfl : u' = u := Option.some.inj (hflush₂.symm.trans hflush₁)
    refine ⟨t', u', mini, hflush, hflush₁, hloc₂.trans hl, rfl, hleaf, fun env' _ => ?_⟩
    rw [hrelock₂, ← hrelock]
    exact hrepeat env'
  · obtain ⟨mini', base', hloc, hmini, hbuf, hagain⟩ := habandoned.again hl h.basePage hm
    have hn := congrArg LeafNode.nextLevel hmini
    change mini'.nextLevel = mini.nextLevel at hn
    rw [hm.nextLevel] at hn
    obtain ⟨u', hflush₂, hloc₂, hrelock₂⟩ := relocked_flush hloc hn (basePage?_of_some hbuf _)
      (fun page hp => by simp [hbuf] at hp)
    obtain rfl : u' = u := Option.some.inj (hflush₂.symm.trans hflush₁)
    refine ⟨t', u', mini', hflush, hflush₁, hloc₂.trans hloc, hmini, hleaf, fun env' hafter => ?_⟩
    rw [hrelock, hrelock₂]
    exact hagain env' hafter

/-- Two large records fill a base page. -/
def twoLargeRecords : LeafNode :=
  { makeBasePage 4096 0 with
    remainingSize := 130
    metas := [.makePrefixedMeta (List.replicate 1950 0) [1] 0 .insert,
      .makePrefixedMeta (List.replicate 1950 0) [2] 0 .insert] }

/-- A mini page with a new version of the first one. -/
def oneUpdate : LeafNode :=
  { initializeMiniPage 2048 (some 0) false 0 with
    remainingSize := 1807
    metas := [.makePrefixedMeta (List.replicate 200 0) [1] 0 .insert] }

/-- The parent of the leaf is full. -/
def underFullParent : LeafEntry where
  pid := 0
  loc := .mini oneUpdate
  tmpBuffer := none
  vfs := fun o => if o = 0 then some twoLargeRecords else none
  parent := some ⟨0, { InnerNode.reinitialize (.id 0) true true 0 with remainingSize := 0 }⟩
  nextPid := 1
  nextOffset := 4096
  sibling := none
  captures := []
  inserted := []

def calmLeaf : Env := ⟨none, some .unprotected, none, none, none, none⟩

theorem twoLargeRecords_basePage : BasePage [] [] twoLargeRecords := by
  have hfirst : (makeBasePage 4096 0).insert [1] (List.replicate 1950 0) .insert 32 = some (true,
      { makeBasePage 4096 0 with
        remainingSize := 2089
        metas := [.makePrefixedMeta (List.replicate 1950 0) [1] 0 .insert] }) := by
    decide +kernel
  have hsecond : LeafNode.insert { makeBasePage 4096 0 with
        remainingSize := 2089
        metas := [.makePrefixedMeta (List.replicate 1950 0) [1] 0 .insert] }
      [2] (List.replicate 1950 0) .insert 32 = some (true, twoLargeRecords) := by
    decide +kernel
  have hrange : ∀ k, InRange [] [] k := inRange_nil_nil
  have hbase := ((Tree.makeBasePage_basePage 4096 0).insert (hrange [1]) (by decide) rfl hfirst).1
  exact (hbase.insert (hrange [2]) (by decide) rfl hsecond).1

theorem oneUpdate_miniPage : MiniPage [] [] 0 twoLargeRecords oneUpdate := by
  have hinsert : (initializeMiniPage 2048 (some 0) false 0).insert [1] (List.replicate 200 0) .insert 0 =
      some (true, oneUpdate) := by
    decide +kernel
  exact ((MiniPage.empty [] [] 0 twoLargeRecords 2048 0).insert (inRange_nil_nil [1]) (by decide)
    (.inl rfl) hinsert).1

/-- The base page is marked, and the parent has no room for another separator. -/
theorem aborted_merge_under_full_parent :
    ∃ e t₁, tryMergeMiniPage .default calmLeaf oneUpdate underFullParent = some (.error e, t₁) ∧
      ∃ t' u mini', underFullParent.flush = some t' ∧ t₁.flush = some u ∧ u.loc = .mini mini' ∧
        Leaf [] [] 0 (content twoLargeRecords (.mini oneUpdate)) u.loc u.vfs ∧
        Prog.Twins SameMerge (tryMergeMiniPage .default calmLeaf oneUpdate)
          (tryMergeMiniPage .default calmLeaf mini') t'.relocked u.relocked := by
  have habort : ((tryMergeMiniPage .default calmLeaf oneUpdate underFullParent).map
      fun r => r.1.toBool) = some false := by
    decide +kernel
  obtain ⟨⟨r, t₁⟩, hrun, hr⟩ := Option.map_eq_some_iff.1 habort
  cases r with
  | ok => cases hr
  | error e =>
    have hover : Over [] [] 0 twoLargeRecords underFullParent :=
      ⟨rfl, nofun, twoLargeRecords_basePage, oneUpdate_miniPage⟩
    have hsize : MergeSized .default twoLargeRecords oneUpdate := by
      constructor <;> decide +kernel
    obtain ⟨t', u, mini', hflush, hflush₁, hloc, -, hleaf, hagain⟩ :=
      aborted_merge_harmless (by decide +kernel) rfl hover nofun rfl hsize hrun
    exact ⟨e, t₁, hrun, t', u, mini', hflush, hflush₁, hloc, hleaf, hagain calmLeaf fun g _ hg _ h => by
      obtain rfl : SnapshotGuard.unprotected = g := Option.some.inj hg
      exact (Bool.false_ne_true h).elim⟩

end LeafEntry

end BfTree
