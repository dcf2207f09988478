import BfTree.Attempts

/-!
# The tree is a search tree

The separators on the path to a node give the range of keys below it. In every state
that attempts lead to, the ranges of the leaves partition the key space, and a leaf
only holds records of its range.
-/

namespace BfTree

open Lib LeafNode

namespace Tree

/-- The separators above the node leave it the keys from `lo` to `hi`. -/
inductive Range (t : Tree) : PageID → Key → Key → Prop
  | root : Range t t.root [] []
  | child {ptr : Nat} {n : InnerNode} {lo hi a b : Key} {x : PageID} (h : Range t (.inner ptr) lo hi)
      (hn : t.inners[ptr]? = some n) (hx : (a, b, x) ∈ n.spansIn (lo, hi)) : Range t x a b

variable {cfg : Config} {C : Key → Option Value} {s : Shape} {t : Tree}

theorem range_iff {x : PageID} {lo hi : Key} : t.Range x lo hi ↔ Routes t.root t.inners x lo hi := by
  constructor <;> intro h
  · induction h with
    | root => exact .root
    | child _ hn hx ih => exact .child ih hn hx
  · induction h with
    | root => exact .root
    | child _ hn hx ih => exact .child ih hn hx

/-- The range by the separators is the one of the shape. -/
theorem Ok.range_eq (h : t.Ok cfg s C) {x : PageID} {lo hi : Key} (hr : t.Range x lo hi) :
    x.Alive t.inners.length t.pages.length ∧ s.range x = (lo, hi) :=
  h.shaped.routes_eq (range_iff.1 hr)

theorem Ok.leaf_range (h : t.Ok cfg s C) {pid : Nat} (hpid : pid < t.pages.length) :
    t.Range (.id pid) (s.range (.id pid)).1 (s.range (.id pid)).2 :=
  range_iff.2 (h.shaped.routes hpid)

/-- The fences of the base page, and the keys of a leaf. -/
theorem LeafOk.fences {lo hi : Key} {c : Key → Option Value} {loc : PageLocation}
    {vfs : Nat → Option LeafNode} (h : LeafOk cfg lo hi c loc vfs) (hdisk : cfg.cacheOnly = false) :
    ∃ offset base, loc.offset = some offset ∧ vfs offset = some base ∧ base.lowFence = lo ∧
      base.highFence = hi := by
  rw [leafOk_disk hdisk] at h
  obtain ⟨offset, base, hb, hbase, hcaches, -⟩ := h
  exact ⟨offset, base, hcaches.offset_eq, hb, hbase.lowFence, hbase.highFence⟩

theorem LeafOk.keys {lo hi : Key} {c : Key → Option Value} {loc : PageLocation}
    {vfs : Nat → Option LeafNode} (h : LeafOk cfg lo hi c loc vfs) {k : Key}
    (hk : k ∈ leafKeys vfs loc) : InRange lo hi k := by
  have hentry : ∀ {p : LeafNode}, p.WF → k ∈ p.metas.map p.getFullKey → p.entry k ≠ none := by
    intro p hp hk
    obtain ⟨m, hm, rfl⟩ := List.mem_map.1 hk
    rw [(entry_eq_some hp).2 ⟨m, hm, rfl, rfl, rfl⟩]
    simp
  have hfence : ∀ {p : LeafNode}, p.WF → p.lowFence = lo → p.highFence = hi →
      k ∈ p.metas.map p.getFullKey → InRange lo hi k := by
    intro p hp hlo hhi hk
    have := hp.covers_of_ne_none (hentry hp hk)
    rwa [LeafNode.Covers, hlo, hhi] at this
  cases hc : cfg.cacheOnly with
  | true =>
    rw [leafOk_cacheOnly hc] at h
    cases loc with
    | mini p =>
      simp only [leafKeys, PageLocation.offset, h.1.nextLevel, Option.bind_none, Option.elim_none,
        List.append_nil] at hk
      exact h.1.inRange k (hentry h.1.wf hk)
    | full p => exact h.elim
    | base o => exact h.elim
    | null => cases hk
  | false =>
    rw [leafOk_disk hc] at h
    obtain ⟨offset, base, hb, hbase, hcaches, -⟩ := h
    simp only [leafKeys, hcaches.offset_eq, Option.bind_some, hb, Option.elim_some,
      List.mem_append] at hk
    rcases hk with hk | hk
    · cases loc with
      | mini p => exact MiniPage.inRange hcaches k (hentry (MiniPage.wf hcaches) hk)
      | full p =>
        exact hfence (FullPage.wf hcaches) (FullPage.lowFence hcaches)
          (FullPage.highFence hcaches) hk
      | base o => cases hk
      | null => exact hcaches.elim
    · exact hfence hbase.wf hbase.lowFence hbase.highFence hk

/-- No part of a range is empty. -/
theorem SepsWithin.span_nonempty {lo hi a b : Key} {c x : PageID} {B : List (Key × PageID)}
    (h : SepsWithin lo hi B) (hne : hi = [] ∨ lo < hi) (hx : (a, b, x) ∈ spans lo hi c B) :
    b = [] ∨ a < b := by
  induction B generalizing lo c with
  | nil =>
    obtain ⟨rfl, rfl, -⟩ : a = lo ∧ b = hi ∧ x = c := by simpa [spans] using hx
    exact hne
  | cons r B ih =>
    obtain ⟨h1, h2, h3⟩ := SepsWithin.cons_iff.1 h
    rw [spans, List.mem_cons] at hx
    rcases hx with hx | hx
    · obtain ⟨rfl, rfl, -⟩ : a = lo ∧ b = r.1 ∧ x = c := by simpa using hx
      exact .inr h1
    · exact ih h3 h2 hx

theorem Ok.range_nonempty (h : t.Ok cfg s C) {x : PageID} {lo hi : Key} (hr : t.Range x lo hi) :
    hi = [] ∨ lo < hi := by
  induction hr with
  | root => exact .inl rfl
  | @child ptr n lo hi a b x hup hn hx ih =>
    have hseps := (h.shaped.inner ptr n hn).seps
    rw [(h.range_eq hup).2] at hseps
    exact SepsWithin.span_nonempty hseps ih hx

/-- The tree is a search tree. -/
structure SearchTree (cfg : Config) (t : Tree) : Prop where
  /-- A key is routed to a leaf that is responsible for it. -/
  routed : ∀ key, ∃ pid lo hi, t.leafOf key = some pid ∧ pid < t.pages.length ∧
    t.Range (.id pid) lo hi ∧ InRange lo hi key
  /-- No other leaf is. -/
  disjoint : ∀ key pid pid' lo hi lo' hi', t.Range (.id pid) lo hi → t.Range (.id pid') lo' hi' →
    InRange lo hi key → InRange lo' hi' key → pid = pid'
  /-- Every page of the table is a leaf of the tree, in one place, with a range that is not
  empty. -/
  leaf : ∀ pid, pid < t.pages.length →
    ∃! r : Key × Key, t.Range (.id pid) r.1 r.2 ∧ (r.2 = [] ∨ r.1 < r.2)
  /-- Separators increase and lie inside the range that the nodes above leave. -/
  separators : ∀ ptr n lo hi, t.Range (.inner ptr) lo hi → t.inners[ptr]? = some n →
    n.records.Pairwise (fun r r' => r.1 < r'.1) ∧
      ∀ r ∈ n.records, lo < r.1 ∧ (hi = [] ∨ r.1 < hi)
  /-- No split has put a separator in place of an equal one. -/
  fresh : ∀ x ∈ t.inserted, ∀ r ∈ x.1.records, r.1 ≠ x.2
  /-- The fences of a base page are the bounds on its path. -/
  fences : cfg.cacheOnly = false → ∀ pid lo hi, t.Range (.id pid) lo hi →
    ∃ loc offset base, t.pages[pid]? = some loc ∧ loc.offset = some offset ∧
      t.vfs offset = some base ∧ base.lowFence = lo ∧ base.highFence = hi
  /-- The records of a leaf lie in its range. -/
  records : ∀ pid lo hi loc, t.Range (.id pid) lo hi → t.pages[pid]? = some loc →
    ∀ k ∈ leafKeys t.vfs loc, InRange lo hi k

theorem Ok.searchTree (h : t.Ok cfg s C) : SearchTree cfg t where
  routed key := by
    obtain ⟨pid, hroute, hpid, hin⟩ := h.leafOf key
    exact ⟨pid, _, _, hroute, hpid, h.leaf_range hpid, hin⟩
  disjoint key pid pid' lo hi lo' hi' hr hr' hin hin' := by
    obtain ⟨hpid, heq⟩ := h.range_eq hr
    obtain ⟨hpid', heq'⟩ := h.range_eq hr'
    exact h.shaped.leaf_unique hpid hpid' (by rw [heq]; exact hin) (by rw [heq']; exact hin')
  leaf pid hpid := by
    have hr := h.leaf_range hpid
    refine ⟨s.range (.id pid), ⟨hr, h.range_nonempty hr⟩, fun r hr' => ?_⟩
    exact (h.range_eq hr'.1).2.symm
  separators ptr n lo hi hr hn := by
    have hseps := (h.shaped.inner ptr n hn).seps
    rw [(h.range_eq hr).2] at hseps
    exact ⟨hseps.sorted, fun r hmem => ⟨hseps.lo_lt r hmem, hseps.lt_hi r hmem⟩⟩
  fresh := h.inserted
  fences hdisk pid lo hi hr := by
    obtain ⟨hpid, heq⟩ := h.range_eq hr
    obtain ⟨loc, hloc⟩ : ∃ loc, t.pages[pid]? = some loc := ⟨_, List.getElem?_eq_getElem hpid⟩
    obtain ⟨c, hleaf, -⟩ := h.stored.leaf pid loc hloc
    rw [heq] at hleaf
    obtain ⟨offset, base, hrest⟩ := LeafOk.fences hleaf hdisk
    exact ⟨loc, offset, base, hloc, hrest⟩
  records pid lo hi loc hr hloc k hk := by
    obtain ⟨c, hleaf, -⟩ := h.stored.leaf pid loc hloc
    rw [(h.range_eq hr).2] at hleaf
    exact LeafOk.keys hleaf hk

/-- Splits keep the tree a search tree. -/
theorem reachable_searchTree {cfg : Config} {t : Tree} (h : Reachable cfg t) : SearchTree cfg t := by
  obtain ⟨C, s, hok⟩ := h.inv
  exact hok.searchTree

/-- Three large records; the third one splits the root leaf. -/
def splittingAttempts : List Attempt :=
  let v : Value := List.replicate 1900 0
  [.insert calm [1, 2] v false, .insert calm [2, 2] v false, .insert calm [3, 2] v false,
    .insert calm [3, 2] v true, .insert calm [3, 2] v true]

theorem reachable_searchTree_sample : ∃ t, Reachable Config.default t ∧ t.root = .inner 0 ∧
    t.pages.length = 2 ∧ SearchTree Config.default t := by
  obtain ⟨t₀, t, done, hnew, hrun, ht⟩ := fromNew_eq_some
    (by decide +kernel : fromNew Config.default 0 splittingAttempts
      (fun _ t => (t.root, t.pages.length)) = some (.inner 0, 2))
  obtain ⟨hroot, hlen⟩ := Prod.mk.inj ht
  have h : Reachable Config.default t := .attempts _ (.new hnew) (by decide +kernel) hrun
  exact ⟨t, h, hroot, hlen, reachable_searchTree h⟩

end Tree

end BfTree
