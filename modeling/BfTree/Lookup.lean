import BfTree.TreeInv

/-!
# Where the tree keeps a key

A key is routed to a leaf by the separators alone. Its value is the newest version in
that leaf: the one of the cached page, or else of the base page behind it.
-/

namespace BfTree

open Lib LeafNode

namespace Tree

/-- Follow the separators down to a leaf. -/
def routeFrom (inners : List InnerNode) (key : Key) : (fuel : Nat) → PageID → Option Nat
  | _, .id pid => some pid
  | 0, .inner _ => none
  | fuel + 1, .inner ptr => do
      let n ← inners[ptr]?
      let next ← n.getValue (n.lowerBound key)
      routeFrom inners key fuel next

/-- The leaf that a key belongs to. -/
def leafOf (t : Tree) (key : Key) : Option Nat :=
  routeFrom t.inners key t.inners.length t.root

/-- The value of a key in the base page of a leaf. -/
def readBehind (vfs : Nat → Option LeafNode) (loc : PageLocation) (key : Key) : Option Value :=
  (loc.offset.bind vfs).bind fun base => live (base.entry key)

/-- The value of a key in a leaf. -/
def readLeaf (vfs : Nat → Option LeafNode) (loc : PageLocation) (key : Key) : Option Value :=
  match loc with
  | .mini p => overlay (p.entry key) (readBehind vfs loc key)
  | .full p => live (p.entry key)
  | .base _ => readBehind vfs loc key
  | .null => none

/-- The value of a key in the tree. -/
def lookup (t : Tree) (key : Key) : Option Value := do
  let pid ← t.leafOf key
  let loc ← t.pages[pid]?
  readLeaf t.vfs loc key

variable {cfg : Config} {s : Shape} {C : Key → Option Value} {t : Tree} {key : Key}

theorem readLeaf_eq {lo hi : Key} {c : Key → Option Value} {loc : PageLocation}
    {vfs : Nat → Option LeafNode} (h : LeafOk cfg lo hi c loc vfs) (k : Key) :
    readLeaf vfs loc k = c k := by
  cases hc : cfg.cacheOnly with
  | true =>
    rw [leafOk_cacheOnly hc] at h
    cases loc with
    | mini p =>
      rw [← h.2 k, readLeaf, readBehind, PageLocation.offset, h.1.nextLevel]
      cases p.entry k with
      | none => rfl
      | some e => rfl
    | full p => exact h.elim
    | base o => exact h.elim
    | null => exact (h k).symm
  | false =>
    rw [leafOk_disk hc] at h
    obtain ⟨offset, base, hb, -, hcaches, hcont⟩ := h
    have hbehind : readBehind vfs loc k = live (base.entry k) := by
      rw [readBehind, hcaches.offset_eq, Option.bind_some, hb, Option.bind_some]
    rw [← hcont k]
    cases loc with
    | mini p => rw [readLeaf, hbehind, content_mini]
    | full p => rw [readLeaf, content_full]
    | base o => rw [readLeaf, hbehind, content_base]
    | null => exact hcaches.elim

/-- Every key is routed to the leaf that is responsible for it. -/
theorem routeFrom_spec (h : Shaped t.root t.inners t.pages.length s) (fuel : Nat) :
    ∀ x : PageID, x.Alive t.inners.length t.pages.length → s.level x ≤ fuel →
      InRange (s.range x).1 (s.range x).2 key →
      ∃ pid, routeFrom t.inners key fuel x = some pid ∧ pid < t.pages.length ∧
        InRange (s.range (.id pid)).1 (s.range (.id pid)).2 key := by
  induction fuel with
  | zero =>
    intro x hx hlevel hin
    cases x with
    | id pid => exact ⟨pid, by rw [routeFrom], hx, hin⟩
    | inner ptr =>
      obtain ⟨n, hn⟩ : ∃ n, t.inners[ptr]? = some n := ⟨_, List.getElem?_eq_getElem hx⟩
      have := (h.inner ptr n hn).level_pos
      omega
  | succ fuel ih =>
    intro x hx hlevel hin
    cases x with
    | id pid => exact ⟨pid, by rw [routeFrom], hx, hin⟩
    | inner ptr =>
      obtain ⟨n, hn⟩ : ∃ n, t.inners[ptr]? = some n := ⟨_, List.getElem?_eq_getElem hx⟩
      obtain ⟨y, hy, hchild, hin', -⟩ := (h.inner ptr n hn).route hin
      have hl := hchild.level
      obtain ⟨pid, hroute, hpid, hr⟩ := ih y hchild.alive (by omega) hin'
      refine ⟨pid, ?_, hpid, hr⟩
      rw [routeFrom, hn, Option.bind_eq_bind, Option.bind_some, hy, Option.bind_eq_bind,
        Option.bind_some, hroute]

theorem Ok.leafOf (h : t.Ok cfg s C) (key : Key) :
    ∃ pid, t.leafOf key = some pid ∧ pid < t.pages.length ∧
      InRange (s.range (.id pid)).1 (s.range (.id pid)).2 key := by
  refine routeFrom_spec h.shaped _ t.root h.shaped.root_alive h.shaped.root_level ?_
  rw [h.shaped.root_range]
  exact inRange_nil_nil key

/-- The tree holds the map of its invariant. -/
theorem Ok.lookup_eq (h : t.Ok cfg s C) (key : Key) : t.lookup key = C key := by
  obtain ⟨pid, hroute, hpid, hin⟩ := h.leafOf key
  obtain ⟨loc, hloc⟩ : ∃ loc, t.pages[pid]? = some loc := ⟨_, List.getElem?_eq_getElem hpid⟩
  obtain ⟨c, hleaf, hc⟩ := h.stored.leaf pid loc hloc
  rw [lookup, hroute, Option.bind_eq_bind, Option.bind_some, hloc, Option.bind_eq_bind,
    Option.bind_some, readLeaf_eq hleaf, hc key hin]

theorem Inv.lookup_eq (h : t.Inv cfg C) (key : Key) : t.lookup key = C key := by
  obtain ⟨s, h⟩ := h
  exact h.lookup_eq key

/-- The keys that a leaf has a record for. -/
def leafKeys (vfs : Nat → Option LeafNode) (loc : PageLocation) : List Key :=
  let keys (p : LeafNode) := p.metas.map p.getFullKey
  (match loc with
    | .mini p | .full p => keys p
    | .base _ | .null => []) ++ (loc.offset.bind vfs).elim [] keys

theorem mem_leafKeys {vfs : Nat → Option LeafNode} {loc : PageLocation} {v : Value}
    (h : readLeaf vfs loc key = some v) : key ∈ leafKeys vfs loc := by
  have hpage : ∀ p : LeafNode, p.entry key ≠ none → key ∈ p.metas.map p.getFullKey := by
    intro p hp
    obtain ⟨e, he⟩ := Option.ne_none_iff_exists'.1 hp
    obtain ⟨m, hm, -⟩ := Option.map_eq_some_iff.1 he
    exact List.mem_map.2 ⟨m, findKey_some hm⟩
  have hlower : readBehind vfs loc key ≠ none →
      key ∈ (loc.offset.bind vfs).elim [] fun p => p.metas.map p.getFullKey := by
    unfold readBehind
    cases loc.offset.bind vfs with
    | none => simp
    | some base =>
      intro hne
      refine hpage base fun he => hne ?_
      simp [he, live]
  refine List.mem_append.2 ?_
  cases loc with
  | mini p =>
    rw [readLeaf] at h
    cases he : p.entry key with
    | none =>
      rw [he, overlay_none] at h
      exact .inr (hlower (by rw [h]; simp))
    | some e => exact .inl (hpage p (by simp [he]))
  | full p =>
    rw [readLeaf] at h
    exact .inl (hpage p fun he => by rw [he] at h; cases h)
  | base o => exact .inr (hlower (by rw [show readBehind _ _ _ = some v from h]; simp))
  | null => cases h

/-- Only finitely many keys have a value. -/
theorem Inv.mem_keys (h : t.Inv cfg C) (hk : C key ≠ none) :
    key ∈ t.pages.flatMap (leafKeys t.vfs) := by
  obtain ⟨v, hv⟩ := Option.ne_none_iff_exists'.1 hk
  rw [← h.lookup_eq key] at hv
  simp only [lookup, Option.bind_eq_bind, Option.bind_eq_some_iff] at hv
  obtain ⟨pid, -, loc, hloc, hread⟩ := hv
  exact List.mem_flatMap.2 ⟨loc, List.mem_of_getElem? hloc, mem_leafKeys hread⟩

end Tree

end BfTree
