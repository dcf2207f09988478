import BfTree.Nodes.LeafSpec

/-!
# BfTree.Nodes.RebuildSpec — what rebuilding a page keeps

Consolidation, split, merge and copy, seen through `entry`. Consolidation and
splits drop tombstones and rewrite everything else as an insert (`cleaned`), so
they are only correct on pages that hold no clean tombstones; a merge overlays the
dirty entries of the mini page on the base page (`mergeEntry`).
-/

namespace BfTree

open Lib

namespace LeafNode

/-- Tombstones go, everything else becomes an insert. -/
def cleaned : Option (OpType × Value) → Option (OpType × Value)
  | some (op, v) => if op = .delete then none else some (.insert, v)
  | none => none

@[simp] theorem cleaned_none : cleaned none = none := rfl

/-- Dropping tombstones changes nothing that a reader sees. -/
theorem live_cleaned {e : Option (OpType × Value)} (h : ∀ r, e = some r → r.1.isDirty = true) :
    live (cleaned e) = live e := by
  cases e with
  | none => rfl
  | some r =>
    obtain ⟨op, v⟩ := r
    have hd := h _ rfl
    cases op <;> first | rfl | cases hd

@[simp] theorem insertEntry_insert (b : Bool) (v : Value) (e : Option (OpType × Value)) :
    insertEntry b .insert v e = some (.insert, v) := by
  cases e <;> simp [insertEntry]

/-! ## Rebuilding from translated records -/

/-- A page rebuilt by inserting translated records of `p` into an empty page:
each key holds what its record was translated to. -/
theorem rebuild_spec {p q q' : LeafNode} (h : p.WF) {ms : List LeafKVMeta}
    (hms : ms.Sublist p.metas) (g : LeafKVMeta → Option (Key × Value × OpType))
    (hg : ∀ m e, g m = some e → e.1 = p.getFullKey m) (hq : q.WF) (hnil : q.metas = [])
    (hcov : ∀ m ∈ ms, q.Covers (p.getFullKey m)) {mf : Nat}
    (hr : q.insertAll mf (ms.filterMap g) = some q') :
    q'.WF ∧ SameHeader q q' ∧ ∀ x, q'.entry x =
      (((findKey p.getFullKey ms x).bind g).bind fun e =>
        insertEntry q.isBasePage e.2.2 e.2.1 none) := by
  have hsorted : KeySorted p.getFullKey ms := h.sorted.sublist hms
  have hcov' : ∀ e ∈ ms.filterMap g, q.Covers e.1 := by
    intro e he
    obtain ⟨m, hm, hge⟩ := List.mem_filterMap.1 he
    rw [hg m e hge]
    exact hcov m hm
  obtain ⟨hwf, hh, he⟩ := insertAll_spec hq hcov' (hsorted.filterMap g hg) hr
  refine ⟨hwf, hh, fun x => ?_⟩
  rw [he x, hsorted.findKey_filterMap g hg, entry_of_metas_nil hnil]
  cases (findKey p.getFullKey ms x).bind g with
  | none => rfl
  | some e => rfl

/-! ## Consolidation -/

theorem consolidateInner_spec {p p' : LeafNode} (h : p.WF) {newHigh : Option Key} {c : Bool}
    {skipKey : Option Key} {ver : Nat}
    (hcov : ∀ m ∈ p.metas, p.hasFence = true →
      InRange p.lowFence (newHigh.getD p.highFence) (p.getFullKey m))
    (hr : p.consolidateInner .insert newHigh true c skipKey ver = some p') :
    p'.WF ∧
      SameHeader (initializeNode p.lowFence (newHigh.getD p.highFence) p.nodeSize p.nextLevel
        p.hasFence c ver) p' ∧
      ∀ x, p'.entry x = if skipKey = some x then none else cleaned (p.entry x) := by
  have hcov' : ∀ m ∈ p.metas, (initializeNode p.lowFence (newHigh.getD p.highFence) p.nodeSize
      p.nextLevel p.hasFence c ver).Covers (p.getFullKey m) :=
    fun m hm => covers_initializeNode _ _ _ _ (hcov m hm)
  obtain ⟨hwf, hh, he⟩ := rebuild_spec h (List.Sublist.refl _) _ (by
    intro m e hme
    split at hme
    · cases hme
    · split at hme
      · cases hme
      · cases hme; rfl) (wf_initializeNode ..) (initializeNode_metas ..) hcov' hr
  refine ⟨hwf, hh, fun x => ?_⟩
  rw [he x, entry]
  cases hx : findKey p.getFullKey p.metas x with
  | none => simp
  | some m =>
    obtain ⟨-, rfl⟩ := findKey_some hx
    by_cases hd : m.opType = .delete
    · simp [hd, cleaned]
    · by_cases hsk : skipKey = some (p.getFullKey m)
      · simp [hd, hsk]
      · simp [hd, hsk, cleaned]

/-- Consolidation with any arguments: no value changes, and a reader sees the kept records
under the new op type. -/
theorem consolidateInner_live {p p' : LeafNode} (h : p.WF) {op : OpType} {newHigh : Option Key}
    {skip c : Bool} {skipKey : Option Key} {ver : Nat}
    (hcov : ∀ m ∈ p.metas, p.hasFence = true →
      InRange p.lowFence (newHigh.getD p.highFence) (p.getFullKey m))
    (hr : p.consolidateInner op newHigh skip c skipKey ver = some p') :
    p'.WF ∧
      SameHeader (initializeNode p.lowFence (newHigh.getD p.highFence) p.nodeSize p.nextLevel
        p.hasFence c ver) p' ∧
      (∀ x e, p'.entry x = some e → ∃ o, p.entry x = some (o, e.2)) ∧
      ∀ x, live (p'.entry x) = if skipKey = some x then none else
        (p.entry x).bind fun e => if e.1 = .delete ∨ op.isAbsent then none else some e.2 := by
  have hcov' : ∀ m ∈ p.metas, (initializeNode p.lowFence (newHigh.getD p.highFence) p.nodeSize
      p.nextLevel p.hasFence c ver).Covers (p.getFullKey m) :=
    fun m hm => covers_initializeNode _ _ _ _ (hcov m hm)
  obtain ⟨hwf, hh, he⟩ := rebuild_spec h (List.Sublist.refl _) _ (by
    intro m e hme
    split at hme
    · cases hme
    · split at hme
      · cases hme
      · cases hme; rfl) (wf_initializeNode ..) (initializeNode_metas ..) hcov' hr
  -- what an insert into an empty page leaves for a reader
  have hlive : ∀ (b : Bool) (o : OpType) (v : Value),
      live (insertEntry b o v none) = if o.isAbsent then none else some v := by
    intro b o v
    cases b <;> cases o <;> rfl
  have hvalue : ∀ (b : Bool) (o : OpType) (v : Value) (e : OpType × Value),
      insertEntry b o v none = some e → e.2 = v := by
    intro b o v e he
    rw [insertEntry] at he
    split at he
    · cases he
    · cases he
      rfl
  refine ⟨hwf, hh, fun x e hx => ?_, fun x => ?_⟩
  · rw [he x] at hx
    obtain ⟨pair, hpair, hx⟩ := Option.bind_eq_some_iff.1 hx
    obtain ⟨m, hm, hg⟩ := Option.bind_eq_some_iff.1 hpair
    refine ⟨m.opType, ?_⟩
    rw [entry, hm]
    split at hg
    · cases hg
    · split at hg
      · cases hg
      · cases hg
        rw [hvalue _ _ _ _ hx, Option.map_some]
  · rw [he x, entry]
    cases hx : findKey p.getFullKey p.metas x with
    | none => simp [live]
    | some m =>
      obtain ⟨-, rfl⟩ := findKey_some hx
      by_cases hd : m.opType = .delete
      · by_cases hsk : skipKey = some (p.getFullKey m)
        · cases skip <;> simp [hd, hsk, live]
        · cases skip
          · simp only [hd, hsk, Option.bind_some, Bool.false_and, Bool.false_eq_true, if_false, if_true,
              hlive, OpType.isAbsent, Option.map_some, true_or]
          · simp [hd, hsk, live]
      · by_cases hsk : skipKey = some (p.getFullKey m)
        · simp [hd, hsk, live]
        · simp [hd, hsk, hlive]

theorem consolidateSkipKey_spec {p p' : LeafNode} (h : p.WF) {key : Key} {ver : Nat}
    (hr : p.consolidateSkipKey key ver = some p') :
    p'.WF ∧
      SameHeader (initializeNode p.lowFence p.highFence p.nodeSize p.nextLevel p.hasFence
        p.isCacheOnlyLeaf ver) p' ∧
      ∀ x, p'.entry x = if x = key then none else cleaned (p.entry x) := by
  unfold consolidateSkipKey at hr
  split at hr
  · obtain ⟨hwf, hh, he⟩ := consolidateInner_spec h (by intro m hm _; exact h.inRange m hm) hr
    exact ⟨hwf, hh, fun x => by simpa [eq_comm] using he x⟩
  · cases hr

/-! ## Splits -/

theorem WF.of_sublist {p : LeafNode} (h : p.WF) {ms : List LeafKVMeta} (hs : ms.Sublist p.metas) :
    ({ p with metas := ms } : LeafNode).WF where
  prefixLen_eq := h.prefixLen_eq
  no_fence := h.no_fence
  sorted := h.sorted.sublist hs
  inRange m hm := h.inRange m (hs.subset hm)

/-- What the two pages of a split hold. -/
structure SplitResult (p left sibling : LeafNode) (siblingSize : Nat) (key : Key) (cacheOnly : Bool)
    (ver : Nat) : Prop where
  left_wf : left.WF
  left_header : SameHeader (initializeNode p.lowFence key p.nodeSize p.nextLevel p.hasFence
    p.isCacheOnlyLeaf ver) left
  left_entry : ∀ x, left.entry x = if x < key then cleaned (p.entry x) else none
  sibling_wf : sibling.WF
  sibling_header : SameHeader (initializeNode (if cacheOnly then [] else key)
    (if cacheOnly then [] else p.highFence) siblingSize none (!cacheOnly) cacheOnly ver) sibling
  sibling_entry : ∀ x, sibling.entry x = if x < key then none else cleaned (p.entry x)

/-- Where the page is cut: at a key between its fences. -/
def CutAt (p : LeafNode) (n : Nat) (key : Key) : Prop :=
  SplitAt p.getFullKey p.metas key (p.metas.take n) (p.metas.drop n)

theorem CutAt.covers_sibling {p : LeafNode} {n siblingSize ver : Nat} {key : Key} {cacheOnly : Bool}
    (hcut : p.CutAt n key) (h : p.WF) {m : LeafKVMeta} (hm : m ∈ p.metas.drop n) :
    (initializeNode (if cacheOnly then [] else key) (if cacheOnly then [] else p.highFence)
      siblingSize none (!cacheOnly) cacheOnly ver).Covers (p.getFullKey m) := by
  refine covers_initializeNode _ _ _ _ fun hc => ?_
  obtain rfl : cacheOnly = false := by simpa using hc
  exact ⟨hcut.right m hm, (h.inRange m (List.mem_of_mem_drop hm)).2⟩

theorem splitAtCount_spec {p left sibling : LeafNode} (h : p.WF) {n siblingSize ver : Nat} {key : Key}
    {cacheOnly : Bool} (hcut : p.CutAt n key)
    (hr : p.splitAtCount siblingSize n key cacheOnly ver = some (left, sibling)) :
    SplitResult p left sibling siblingSize key cacheOnly ver := by
  simp only [splitAtCount, Option.bind_eq_bind, Option.bind_eq_some_iff] at hr
  obtain ⟨sib, hsib, lft, hleft, hpair⟩ := hr
  obtain ⟨rfl, rfl⟩ : lft = left ∧ sib = sibling := by simpa using hpair
  -- the sibling
  have hempty : (if cacheOnly = true then initializeNode [] [] siblingSize none false cacheOnly ver
      else initializeNode key p.highFence siblingSize none true cacheOnly ver) =
      initializeNode (if cacheOnly then [] else key) (if cacheOnly then [] else p.highFence)
        siblingSize none (!cacheOnly) cacheOnly ver := by
    cases cacheOnly <;> rfl
  rw [hempty] at hsib
  have hcovS : ∀ m ∈ p.metas.drop n, (initializeNode (if cacheOnly then [] else key)
      (if cacheOnly then [] else p.highFence) siblingSize none (!cacheOnly) cacheOnly ver).Covers
      (p.getFullKey m) := fun m hm => hcut.covers_sibling h hm
  obtain ⟨hwfS, hhS, heS⟩ := rebuild_spec h (List.drop_sublist n p.metas) _ (by
    intro m e hme
    split at hme
    · cases hme
    · cases hme; rfl) (wf_initializeNode ..) (initializeNode_metas ..) hcovS hsib
  -- the page itself
  have hkept : ({ p with metas := p.metas.take n } : LeafNode).WF :=
    h.of_sublist (List.take_sublist n p.metas)
  unfold consolidateAfterSplit at hleft
  split at hleft
  case isFalse => cases hleft
  obtain ⟨hwfL, hhL, heL⟩ := consolidateInner_spec hkept (by
    intro m hm _
    exact ⟨(h.inRange m (List.mem_of_mem_take hm)).1, .inr (hcut.left m hm)⟩) hleft
  refine ⟨hwfL, hhL, fun x => ?_, hwfS, hhS, fun x => ?_⟩
  · have hx : ({ p with metas := p.metas.take n } : LeafNode).entry x =
        if x < key then p.entry x else none := by
      change (findKey p.getFullKey (p.metas.take n) x).map _ = _
      split
      · next hlt => rw [entry, hcut.findKey_left hlt]
      · next hge =>
          have hn : findKey p.getFullKey (p.metas.take n) x = none :=
            findKey_eq_none.2 fun a ha => ne_of_lt ((hcut.left a ha).trans_le (not_lt.1 hge))
          rw [hn]
          rfl
    rw [heL x, hx]
    by_cases hlt : x < key <;> simp [hlt]
  · rw [heS x]
    by_cases hlt : x < key
    · have hn : findKey p.getFullKey (p.metas.drop n) x = none :=
        findKey_eq_none.2 fun b hb => ne_of_gt (hlt.trans_le (hcut.right b hb))
      simp [hn, hlt]
    · rw [if_neg hlt, entry, ← hcut.findKey_right (not_lt.1 hlt)]
      cases hx : findKey p.getFullKey p.metas x with
      | none => simp
      | some m =>
        by_cases hd : m.opType = .delete
        · simp [hd, cleaned]
        · simp [hd, cleaned]

theorem cutAt_getKvNumBelowKey {p : LeafNode} (h : p.WF) (key : Key) :
    p.CutAt (p.getKvNumBelowKey key) key := by
  have hall : ∀ (l : List LeafKVMeta), KeySorted p.getFullKey l →
      SplitAt p.getFullKey l key (l.take (l.takeWhile fun m => p.getFullKey m < key).length)
        (l.drop (l.takeWhile fun m => p.getFullKey m < key).length) := by
    intro l
    induction l with
    | nil => intro _; exact ⟨rfl, by simp, by simp⟩
    | cons m l ih =>
      intro hs
      obtain ⟨hm, hl⟩ := keySorted_cons.1 hs
      by_cases hlt : p.getFullKey m < key
      · obtain ⟨heq, hleft, hright⟩ := ih hl
        simp only [hlt, decide_true, List.takeWhile_cons_of_pos, List.length_cons,
          List.take_succ_cons, List.drop_succ_cons]
        refine ⟨by rw [List.cons_append, ← heq], ?_, hright⟩
        intro a ha
        obtain rfl | ha := List.mem_cons.1 ha
        · exact hlt
        · exact hleft a ha
      · simp only [hlt, decide_false, Bool.false_eq_true, not_false_eq_true,
          List.takeWhile_cons_of_neg, List.length_nil, List.take_zero, List.drop_zero]
        refine ⟨rfl, by simp, ?_⟩
        intro b hb
        obtain rfl | hb := List.mem_cons.1 hb
        · exact not_lt.1 hlt
        · exact (not_lt.1 hlt).trans (hm b hb).le
  exact hall p.metas h.sorted

theorem splitWithKey_spec {p left sibling : LeafNode} (h : p.WF) {siblingSize ver : Nat} {key : Key}
    {cacheOnly : Bool} (hr : p.splitWithKey siblingSize key cacheOnly ver = some (left, sibling)) :
    p.splittable cacheOnly = true ∧ SplitResult p left sibling siblingSize key cacheOnly ver := by
  simp only [splitWithKey, Option.bind_eq_bind, Option.bind_eq_some_iff] at hr
  obtain ⟨_, hsp, ⟨l, s⟩, hcount, _, -, hpair⟩ := hr
  obtain ⟨rfl, rfl⟩ : l = left ∧ s = sibling := by simpa using hpair
  exact ⟨(Option.guard_eq_some' _).1 hsp,
    splitAtCount_spec h (cutAt_getKvNumBelowKey h key) hcount⟩

/-- The by-size search stops at a record of the page. -/
theorem getSplitKeyFrom_spec {p : LeafNode} {c : Bool} {target : Nat} {key : Key} {n : Nat} :
    ∀ (ms : List LeafKVMeta) (i cur : Nat),
      p.getSplitKeyFrom c target i cur ms = some (key, n) →
      i ≤ n ∧ (c = true → i = 0 → 0 < n) ∧
        ∃ m, ms[n - i]? = some m ∧ p.getFullKey m = key := by
  intro ms
  induction ms with
  | nil => intro i cur h; cases h
  | cons m ms ih =>
    intro i cur h
    -- both ways to go on to the next record
    have hnext : ∀ cur', p.getSplitKeyFrom c target (i + 1) cur' ms = some (key, n) →
        i ≤ n ∧ (c = true → i = 0 → 0 < n) ∧
          ∃ m', (m :: ms)[n - i]? = some m' ∧ p.getFullKey m' = key := by
      intro cur' h'
      obtain ⟨hle, -, m', hm', hk⟩ := ih (i + 1) cur' h'
      refine ⟨by omega, fun _ _ => by omega, m', ?_, hk⟩
      rw [show n - i = (n - (i + 1)) + 1 by omega, List.getElem?_cons_succ, hm']
    rw [getSplitKeyFrom] at h
    by_cases hfirst : (c && i == 0) = true
    · rw [if_pos hfirst] at h
      exact hnext _ h
    · rw [if_neg hfirst] at h
      split at h
      · obtain ⟨hk, rfl⟩ : p.getFullKey m = key ∧ i = n := by simpa using h
        refine ⟨Nat.le_refl _, fun hc hi => absurd ?_ hfirst, m, by simp, hk⟩
        simp [hc, hi]
      · exact hnext _ h

theorem cutAt_getSplitKey {p : LeafNode} (h : p.WF) {c : Bool} {key : Key} {n : Nat}
    (hr : p.getSplitKey c = some (key, n)) :
    p.CutAt n key ∧ (∃ m ∈ p.metas, p.getFullKey m = key) ∧ (c = true → 0 < n) := by
  obtain ⟨-, hpos, m, hm, hk⟩ := getSplitKeyFrom_spec _ _ _ hr
  rw [Nat.sub_zero] at hm
  obtain ⟨hlt, hget⟩ := List.getElem?_eq_some_iff.1 hm
  have hsplit : p.metas = p.metas.take n ++ m :: p.metas.drop (n + 1) := by
    rw [← hget, ← List.drop_eq_getElem_cons hlt, List.take_append_drop]
  have hs := h.sorted
  rw [hsplit] at hs
  obtain ⟨-, hs2, hs3⟩ := keySorted_append.1 hs
  refine ⟨⟨(List.take_append_drop n _).symm, ?_, ?_⟩, ⟨m, List.mem_of_getElem? hm, hk⟩,
    fun hc => hpos hc rfl⟩
  · intro a ha
    rw [← hk]
    exact hs3 a ha m (by simp)
  · rw [List.drop_eq_getElem_cons hlt, hget]
    intro b hb
    rw [← hk]
    obtain rfl | hb := List.mem_cons.1 hb
    · exact le_refl _
    · exact ((keySorted_cons.1 hs2).1 b hb).le

theorem split_spec {p left sibling : LeafNode} (h : p.WF) {siblingSize ver : Nat} {key : Key}
    {cacheOnly : Bool} (hr : p.split siblingSize cacheOnly ver = some (key, left, sibling)) :
    p.splittable cacheOnly = true ∧ SplitResult p left sibling siblingSize key cacheOnly ver ∧
      (∃ m ∈ p.metas, p.getFullKey m = key) := by
  simp only [split, Option.bind_eq_bind, Option.bind_eq_some_iff] at hr
  obtain ⟨_, hsp, ⟨k, n⟩, hkey, ⟨l, s⟩, hcount, hres⟩ := hr
  obtain ⟨rfl, rfl, rfl⟩ : k = key ∧ l = left ∧ s = sibling := by simpa using hres
  obtain ⟨hcut, hmem, -⟩ := cutAt_getSplitKey h hkey
  exact ⟨(Option.guard_eq_some' _).1 hsp, splitAtCount_spec h hcut hcount, hmem⟩

/-! ## Merge -/

/-- A dirty entry of the mini page is written over the base entry, a clean one is
not. -/
def mergeEntry (isBase : Bool) (mini base : Option (OpType × Value)) : Option (OpType × Value) :=
  match mini with
  | some (op, v) => if op.isDirty then insertEntry isBase op v base else base
  | none => base

/-- Writing the dirty records of a mini page that belong to one side into a page. -/
theorem insertAll_dirtyPairs_spec {q q' mini : LeafNode} (hm : mini.WF) (hq : q.WF)
    (side : Key → Bool) (hcov : ∀ k, mini.entry k ≠ none → side k = true → q.Covers k) {mf : Nat}
    (hr : q.insertAll mf (mini.dirtyPairs.filter fun e => side e.1) = some q') :
    q'.WF ∧ SameHeader q q' ∧ ∀ x, q'.entry x =
      if side x then mergeEntry q.isBasePage (mini.entry x) (q.entry x) else q.entry x := by
  have hg : ∀ (m : LeafKVMeta) (e : Key × Value × OpType),
      (if m.opType.isDirty then some (mini.getFullKey m, m.value, m.opType) else none) = some e →
      e.1 = mini.getFullKey m := by
    intro m e hme
    split at hme
    · cases hme; rfl
    · cases hme
  have hsorted : KeySorted Prod.fst mini.dirtyPairs := hm.sorted.filterMap _ hg
  have hcov' : ∀ e ∈ mini.dirtyPairs.filter fun e => side e.1, q.Covers e.1 := by
    intro e he
    obtain ⟨he, hside⟩ := List.mem_filter.1 he
    obtain ⟨m, hmem, hge⟩ := List.mem_filterMap.1 he
    refine hcov _ ?_ hside
    rw [hg m e hge, entry, hm.sorted.findKey_mem hmem]
    simp
  obtain ⟨hwf, hh, he⟩ := insertAll_spec hq hcov' (hsorted.sublist List.filter_sublist) hr
  refine ⟨hwf, hh, fun x => ?_⟩
  have hmini : mini.entry x = (findKey mini.getFullKey mini.metas x).map _ := rfl
  have hfind : findKey Prod.fst mini.dirtyPairs x = _ := hm.sorted.findKey_filterMap _ hg x
  rw [he x, hsorted.findKey_filter, hfind, hmini]
  cases hx : findKey mini.getFullKey mini.metas x with
  | none => simp [mergeEntry]
  | some m =>
    have hkey := (findKey_some hx).2
    by_cases hd : m.opType.isDirty <;> by_cases hs : side x <;>
      simp [hd, hs, hkey, mergeEntry, Option.filter]

theorem entry_setSnapshotVersion (p : LeafNode) (v : Nat) (c : Bool) (x : Key) :
    (p.setSnapshotVersion v c).entry x = p.entry x := rfl

theorem WF.setSnapshotVersion {p : LeafNode} (h : p.WF) (v : Nat) (c : Bool) :
    (p.setSnapshotVersion v c).WF :=
  ⟨h.prefixLen_eq, h.no_fence, h.sorted, h.inRange⟩

theorem mergeMiniPage_spec {base base' mini : LeafNode} {b : Bool} (hm : mini.WF) (hb : base.WF)
    (hcov : ∀ k, mini.entry k ≠ none → base.Covers k) {mf : Nat}
    (hr : base.mergeMiniPage mini mf = some (b, base')) :
    (b = false ∧ base' = base) ∨
      (b = true ∧ base'.WF ∧ SameHeader (base.setSnapshotVersion mini.snapshotVersion false) base' ∧
        ∀ x, base'.entry x = mergeEntry base.isBasePage (mini.entry x) (base.entry x)) := by
  unfold mergeMiniPage at hr
  split at hr
  · left
    obtain ⟨rfl, rfl⟩ : false = b ∧ base = base' := by simpa using hr
    exact ⟨rfl, rfl⟩
  · right
    simp only [Option.bind_eq_bind, Option.bind_eq_some_iff] at hr
    obtain ⟨q, hq, hres⟩ := hr
    obtain ⟨rfl, rfl⟩ : true = b ∧ q = base' := by simpa using hres
    obtain ⟨hwf, hh, he⟩ := insertAll_dirtyPairs_spec hm
      (hb.setSnapshotVersion mini.snapshotVersion false) (fun _ => true) (fun k hk _ => hcov k hk)
      (by rwa [List.filter_true])
    exact ⟨rfl, hwf, hh, fun x => by rw [he x, if_pos rfl]; rfl⟩

/-! ## Copy and conversion -/

/-- A copied mini page holds what it held, less cold clean records. -/
theorem copyInitializeTo_spec {p p' : LeafNode} (h : p.WF) {dstSize ver : Nat} {discard : Bool}
    (hr : p.copyInitializeTo dstSize discard ver = some p') :
    p.isBasePage = false ∧ p'.WF ∧
      SameHeader (initializeNode [] [] dstSize p.nextLevel false p.isCacheOnlyLeaf ver) p' ∧
      ∀ x, p'.entry x = p.entry x ∨
        p'.entry x = none ∧ ∃ op v, p.entry x = some (op, v) ∧ op.isCache = true ∧
          discard = true := by
  unfold copyInitializeTo at hr
  split at hr
  case isTrue => cases hr
  case isFalse hn =>
    have hbase : p.isBasePage = false := by
      have := not_or.1 hn
      simpa using this.1
    obtain ⟨hwf, hh, he⟩ := rebuild_spec h (List.Sublist.refl _) _ (by
      intro m e hme
      split at hme
      · cases hme
      · cases hme; rfl) (wf_initializeNode ..) (initializeNode_metas ..)
      (by intro m _; simpa [Covers] using inRange_nil_nil _) hr
    have hfresh : (initializeNode [] [] dstSize p.nextLevel false p.isCacheOnlyLeaf ver).isBasePage
        = false := by
      simpa [isBasePage] using hbase
    refine ⟨hbase, hwf, hh, fun x => ?_⟩
    rw [he x, hfresh, entry]
    cases findKey p.getFullKey p.metas x with
    | none => simp
    | some m =>
      by_cases hcold : (discard && m.opType.isCache && !m.referenced) = true
      · right
        simp only [Bool.and_eq_true] at hcold
        refine ⟨by rw [Option.bind_some, if_pos (by simpa using hcold)]; rfl, m.opType, m.value, by simp, hcold.1.2, hcold.1.1⟩
      · left
        rw [Option.bind_some, if_neg hcold]
        simp [insertEntry]

/-- Change the op types of the records, each by its key. -/
def mapOp (p : LeafNode) (f : Key → OpType → OpType) : LeafNode :=
  { p with metas := p.metas.map fun m => { m with opType := f (p.getFullKey m) m.opType } }

/-- Changing only op types keeps the shape of a page. -/
theorem mapOp_spec {p : LeafNode} (h : p.WF) (f : Key → OpType → OpType) :
    (p.mapOp f).WF ∧ ∀ x, (p.mapOp f).entry x = (p.entry x).map fun e => (f x e.1, e.2) := by
  have hkey : ∀ m : LeafKVMeta,
      p.getFullKey { m with opType := f (p.getFullKey m) m.opType } = p.getFullKey m :=
    fun _ => rfl
  refine ⟨⟨h.prefixLen_eq, h.no_fence, h.sorted.map _ hkey, ?_⟩, fun x => ?_⟩
  · intro m hm
    obtain ⟨m', hm', rfl⟩ := List.mem_map.1 hm
    exact h.inRange m' hm'
  · change (findKey p.getFullKey (p.metas.map _) x).map _ = _
    rw [findKey_map _ _ hkey, entry]
    cases hf : findKey p.getFullKey p.metas x with
    | none => rfl
    | some m => simp [(findKey_some hf).2]

theorem covertInsertRecordsToCache_spec {p p' : LeafNode} (h : p.WF)
    (hr : p.covertInsertRecordsToCache = some p') :
    p'.WF ∧ SameHeader p p' ∧ (∀ m ∈ p.metas, m.opType.isCache = false) ∧
      ∀ x, p'.entry x =
        (p.entry x).map fun e => (if e.1 = .insert then .cache else .phantom, e.2) := by
  unfold covertInsertRecordsToCache at hr
  split at hr
  case isTrue => cases hr
  case isFalse hn =>
    cases hr
    obtain ⟨hwf, he⟩ := mapOp_spec h fun _ op => if op = .insert then .cache else .phantom
    exact ⟨hwf, rfl, by simpa using hn, he⟩

/-- Clean op types as dirty ones. -/
def toDirty : OpType → OpType
  | .cache => .insert
  | .phantom => .delete
  | op => op

theorem convertCacheRecordsToInsert_spec {p : LeafNode} (h : p.WF) :
    p.convertCacheRecordsToInsert.WF ∧ SameHeader p p.convertCacheRecordsToInsert ∧
      ∀ x, p.convertCacheRecordsToInsert.entry x =
        (p.entry x).map fun e => (toDirty e.1, e.2) := by
  obtain ⟨hwf, he⟩ := mapOp_spec h fun _ => toDirty
  have heq : p.convertCacheRecordsToInsert =
      { p with metas := p.metas.map fun m => { m with opType := toDirty m.opType } } := rfl
  rw [heq]
  exact ⟨hwf, rfl, he⟩

end LeafNode

end BfTree
