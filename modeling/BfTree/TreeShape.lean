import BfTree.Nodes.InnerSpec

/-!
# The shape of the tree

Every node of the tree is responsible for a range of keys. The ranges are not stored:
they follow from the separators above the node. A shape assigns to every node its
range, its parent and its level, and the inner nodes have to agree with it. The lemmas
say how the shape changes when a node is split.
-/

namespace BfTree

open Lib

/-- The page id is in use in a tree with so many inner nodes and leaves. -/
def PageID.Alive (nodes leaves : Nat) : PageID → Prop
  | .id pid => pid < leaves
  | .inner ptr => ptr < nodes

theorem PageID.Alive.mono {nodes nodes' leaves leaves' : Nat} {x : PageID}
    (h : x.Alive nodes leaves) (hn : nodes ≤ nodes') (hl : leaves ≤ leaves') :
    x.Alive nodes' leaves' := by
  cases x with
  | id pid => exact lt_of_lt_of_le h hl
  | inner ptr => exact lt_of_lt_of_le h hn

/-- Range, parent and level of every node. -/
structure Shape where
  range : PageID → Key × Key
  parent : PageID → Option Nat
  level : PageID → Nat

/-- The parts of a node's range with the children responsible for them. -/
def InnerNode.spansIn (n : InnerNode) (r : Key × Key) : List (Key × Key × PageID) :=
  spans r.1 r.2 n.leftMost n.records

theorem InnerNode.mem_children_iff {n : InnerNode} {r : Key × Key} {x : PageID} :
    x ∈ n.children ↔ ∃ a b, (a, b, x) ∈ n.spansIn r := by
  rw [InnerNode.children, ← spans_children r.1 r.2, List.mem_map]
  constructor
  · rintro ⟨⟨a, b, y⟩, hm, rfl⟩
    exact ⟨a, b, hm⟩
  · rintro ⟨a, b, hm⟩
    exact ⟨(a, b, x), hm, rfl⟩

/-- The low ends of the parts increase. -/
theorem SepsWithin.spans_pairwise {lo hi : Key} {B : List (Key × PageID)} (h : SepsWithin lo hi B)
    (c : PageID) : (spans lo hi c B).Pairwise fun p q => p.1 < q.1 := by
  induction B generalizing lo c with
  | nil => simp [spans]
  | cons r B ih =>
    obtain ⟨h1, -, h3⟩ := SepsWithin.cons_iff.1 h
    rw [spans, List.pairwise_cons]
    refine ⟨fun q hq => ?_, ih h3 r.2⟩
    exact h1.trans_le (h3.span_subset hq).1

/-- A node fits under its parent. -/
structure ChildOk (s : Shape) (nodes leaves ptr : Nat) (isLeaf : Bool) (a b : Key) (x : PageID) :
    Prop where
  alive : x.Alive nodes leaves
  range : s.range x = (a, b)
  parent : s.parent x = some ptr
  level : s.level x + 1 = s.level (.inner ptr)
  kind : x.isLeaf = isLeaf

/-- An inner node agrees with the shape. -/
structure InnerOk (s : Shape) (nodes leaves ptr : Nat) (n : InnerNode) : Prop where
  sized : n.Sized
  seps : SepsWithin (s.range (.inner ptr)).1 (s.range (.inner ptr)).2 n.records
  child : ∀ a b x, (a, b, x) ∈ n.spansIn (s.range (.inner ptr)) →
    ChildOk s nodes leaves ptr n.childrenIsLeaf a b x

/-- Up to split flag and version the nodes are the same. -/
def SameNode (n n' : InnerNode) : Prop :=
  n' = { n with splitFlag := n'.splitFlag, snapshotVersion := n'.snapshotVersion }

theorem SameNode.refl (n : InnerNode) : SameNode n n := rfl

namespace InnerOk

variable {s s' : Shape} {nodes nodes' leaves leaves' ptr : Nat} {n : InnerNode}

theorem of_same {n' : InnerNode} (h : InnerOk s nodes leaves ptr n) (hs : SameNode n n') :
    InnerOk s nodes leaves ptr n' := by
  unfold SameNode at hs
  rw [hs]
  exact ⟨h.sized, h.seps, h.child⟩

/-- What becomes of the children of a node when their shape stays. -/
theorem congr (h : InnerOk s nodes leaves ptr n) (hn : nodes ≤ nodes') (hl : leaves ≤ leaves')
    (hrange : s'.range (.inner ptr) = s.range (.inner ptr))
    (hlevel : s'.level (.inner ptr) = s.level (.inner ptr))
    (hchild : ∀ x, x.Alive nodes leaves → s.parent x = some ptr →
      s'.range x = s.range x ∧ s'.parent x = s.parent x ∧ s'.level x = s.level x) :
    InnerOk s' nodes' leaves' ptr n := by
  refine ⟨h.sized, by rw [hrange]; exact h.seps, fun a b x hx => ?_⟩
  rw [hrange] at hx
  have hc := h.child a b x hx
  obtain ⟨h1, h2, h3⟩ := hchild x hc.alive hc.parent
  exact ⟨hc.alive.mono hn hl, h1.trans hc.range, h2.trans hc.parent, by rw [h3, hlevel, hc.level],
    hc.kind⟩

theorem leftMost (h : InnerOk s nodes leaves ptr n) :
    ∃ a b, ChildOk s nodes leaves ptr n.childrenIsLeaf a b n.leftMost := by
  obtain ⟨a, b, hm⟩ := InnerNode.mem_children_iff (n := n) (r := s.range (.inner ptr)).1
    (by simp [InnerNode.children] : n.leftMost ∈ n.children)
  exact ⟨a, b, h.child a b _ hm⟩

theorem level_pos (h : InnerOk s nodes leaves ptr n) : 0 < s.level (.inner ptr) := by
  obtain ⟨a, b, hc⟩ := h.leftMost
  rw [← hc.level]
  omega

/-- The search finds the child whose range holds the key. -/
theorem route (h : InnerOk s nodes leaves ptr n) {k : Key}
    (hk : InRange (s.range (.inner ptr)).1 (s.range (.inner ptr)).2 k) :
    ∃ x, n.getValue (n.lowerBound k) = some x ∧
      ChildOk s nodes leaves ptr n.childrenIsLeaf (s.range x).1 (s.range x).2 x ∧
      InRange (s.range x).1 (s.range x).2 k ∧
      (s.range x).2 = match n.records[n.lowerBound k]? with
        | some r => r.1
        | none => (s.range (.inner ptr)).2 := by
  obtain ⟨a, b, x, hr, hm, hin, hb⟩ := InnerNode.route_spec h.seps hk
  have hc := h.child a b x hm
  refine ⟨x, hr, ?_, ?_, ?_⟩
  · rw [hc.range]; exact hc
  · rw [hc.range]; exact hin
  · rw [hc.range]; exact hb

/-- The node gets a new child next to an old one. -/
theorem insert (s' : Shape) (h : InnerOk s nodes leaves ptr n) {a b key : Key} {x y : PageID}
    (hx : (a, b, x) ∈ n.spansIn (s.range (.inner ptr))) (hlo : a < key) (hhi : b = [] ∨ key < b)
    (hspace : n.haveSpaceFor key = true) (hn : nodes ≤ nodes') (hl : leaves ≤ leaves')
    (hrange : s'.range (.inner ptr) = s.range (.inner ptr))
    (hlevel : s'.level (.inner ptr) = s.level (.inner ptr))
    (hxs : s'.range x = (a, key) ∧ s'.parent x = some ptr ∧ s'.level x = s.level x)
    (hys : ChildOk s' nodes' leaves' ptr n.childrenIsLeaf key b y)
    (hchild : ∀ z, z.Alive nodes leaves → s.parent z = some ptr → z ≠ x →
      s'.range z = s.range z ∧ s'.parent z = s.parent z ∧ s'.level z = s.level z) :
    InnerOk s' nodes' leaves' ptr (n.insert key y).2 ∧ (∀ r ∈ n.records, r.1 ≠ key) ∧
      (n.insert key y).2.isRoot = n.isRoot ∧
      ∀ z, z ∈ (n.insert key y).2.children ↔ z ∈ n.children ∨ z = y := by
  obtain ⟨A, B, X, Y, heq, hins, hseps, hne, hsp, hsp'⟩ :=
    InnerNode.insert_spec (y := y) h.seps hx hlo hhi hspace
  have hold := h.child a b x hx
  -- the other parts start elsewhere, so they belong to other children
  have hpw := h.seps.spans_pairwise n.leftMost
  rw [hsp, List.pairwise_append, List.pairwise_cons] at hpw
  have hother : ∀ c d z, (c, d, z) ∈ X ∨ (c, d, z) ∈ Y → ChildOk s' nodes' leaves' ptr
      n.childrenIsLeaf c d z := by
    intro c d z hz
    have hmem : (c, d, z) ∈ n.spansIn (s.range (.inner ptr)) := by
      rw [InnerNode.spansIn, hsp]
      rcases hz with hz | hz <;> simp [hz]
    have hc := h.child c d z hmem
    have hzx : z ≠ x := by
      rintro rfl
      have hca : c = a := by
        have := hc.range.symm.trans hold.range
        exact congrArg Prod.fst this
      rcases hz with hz | hz
      · exact absurd (hpw.2.2 _ hz (a, b, z) (by simp)) (by simp [hca])
      · exact absurd (hpw.2.1.1 _ hz) (by simp [hca])
    obtain ⟨h1, h2, h3⟩ := hchild z hc.alive hc.parent hzx
    exact ⟨hc.alive.mono hn hl, h1.trans hc.range, h2.trans hc.parent, by rw [h3, hlevel, hc.level],
      hc.kind⟩
  refine ⟨⟨?_, ?_, fun c d z hz => ?_⟩, hne, by rw [hins], fun z => ?_⟩
  · have hsz := h.sized
    have hroom : InnerNode.recordSize key ≤ n.remainingSize := by
      simpa [InnerNode.haveSpaceFor] using hspace
    rw [hins]
    unfold InnerNode.Sized at hsz ⊢
    rw [heq] at hsz
    simp only [List.map_append, List.sum_append, List.map_cons, List.sum_cons] at hsz ⊢
    omega
  · rw [hins, hrange]
    exact hseps
  · rw [hins, InnerNode.spansIn, hrange] at hz
    dsimp only at hz
    rw [hsp', List.mem_append, List.mem_cons, List.mem_cons] at hz
    rw [hins]
    rcases hz with hz | hz | hz | hz
    · exact hother c d z (.inl hz)
    · obtain ⟨rfl, rfl, rfl⟩ : c = a ∧ d = key ∧ z = x := by simpa using hz
      exact ⟨hold.alive.mono hn hl, hxs.1, hxs.2.1, by rw [hxs.2.2, hlevel, hold.level], hold.kind⟩
    · obtain ⟨rfl, rfl, rfl⟩ : c = key ∧ d = b ∧ z = y := by simpa using hz
      exact hys
    · exact hother c d z (.inr hz)
  · rw [hins]
    simp only [InnerNode.children, heq, List.map_append, List.map_cons, List.mem_cons,
      List.mem_append]
    tauto

/-- Both halves of a split node. -/
theorem halves (s' : Shape) (h : InnerOk s nodes leaves ptr n) {left sibling : InnerNode} {ver sib : Nat}
    {key : Key} {next : PageID} {rest : List (Key × PageID)}
    (hsplit : n.split ver = some (key, left, next, rest))
    (hbuild : InnerNode.build next n.childrenIsLeaf rest ver = some sibling)
    (hn : nodes ≤ nodes') (hl : leaves ≤ leaves')
    (hleft : s'.range (.inner ptr) = ((s.range (.inner ptr)).1, key))
    (hright : s'.range (.inner sib) = (key, (s.range (.inner ptr)).2))
    (hlevel : s'.level (.inner ptr) = s.level (.inner ptr))
    (hlevel' : s'.level (.inner sib) = s.level (.inner ptr))
    (hchild : ∀ x, x.Alive nodes leaves → s.parent x = some ptr →
      s'.range x = s.range x ∧ s'.level x = s.level x ∧
        s'.parent x = if key ≤ (s.range x).1 then some sib else some ptr) :
    InnerOk s' nodes' leaves' ptr left ∧ InnerOk s' nodes' leaves' sib sibling ∧
      left.isRoot = n.isRoot ∧ sibling.isRoot = false ∧
      ∀ z, z ∈ n.children → z ∈ left.children ∨ z ∈ sibling.children := by
  obtain ⟨hrec, hsized, hlm, hkind, hroot, -, -, -⟩ := InnerNode.split_spec h.seps.sorted h.sized hsplit
  have hseps := h.seps
  rw [hrec] at hseps
  obtain ⟨hsl, hsr, -, -⟩ := hseps.cut
  obtain ⟨hsized', hrec', hlm', hkind', hroot', -, -⟩ := InnerNode.build_spec hsr.sorted hbuild
  have hspans : n.spansIn (s.range (.inner ptr)) =
      left.spansIn ((s.range (.inner ptr)).1, key) ++
        sibling.spansIn (key, (s.range (.inner ptr)).2) := by
    rw [InnerNode.spansIn, InnerNode.spansIn, InnerNode.spansIn, hrec, spans_append_cons, hlm, hlm',
      hrec']
  refine ⟨⟨hsized, by rw [hleft]; exact hsl, fun a b x hx => ?_⟩,
    ⟨hsized', by rw [hright, hrec']; exact hsr, fun a b x hx => ?_⟩, hroot, hroot', fun z hz => ?_⟩
  · rw [hleft] at hx
    have hc := h.child a b x (by rw [hspans]; exact List.mem_append_left _ hx)
    obtain ⟨h1, h2, h3⟩ := hchild x hc.alive hc.parent
    -- the part starts below the split key, as it has keys below it
    have hlt : ¬ key ≤ a := by
      intro hle
      have hpw := h.seps.spans_pairwise n.leftMost
      rw [show spans (s.range (.inner ptr)).1 (s.range (.inner ptr)).2 n.leftMost n.records =
        n.spansIn (s.range (.inner ptr)) from rfl, hspans, List.pairwise_append] at hpw
      obtain ⟨b', y, hy⟩ : ∃ b' y, (key, b', y) ∈ sibling.spansIn (key, (s.range (.inner ptr)).2) := by
        rw [InnerNode.spansIn]
        cases sibling.records with
        | nil => exact ⟨_, _, by simp [spans]; exact ⟨rfl, rfl⟩⟩
        | cons r B => exact ⟨r.1, sibling.leftMost, by simp [spans]⟩
      exact absurd (hpw.2.2 _ hx _ hy) (not_lt.2 hle)
    refine ⟨hc.alive.mono hn hl, h1.trans hc.range, ?_, by rw [h2, hlevel, hc.level],
      hc.kind.trans hkind.symm⟩
    rw [h3, hc.range, if_neg hlt]
  · rw [hright] at hx
    have hc := h.child a b x (by rw [hspans]; exact List.mem_append_right _ hx)
    obtain ⟨h1, h2, h3⟩ := hchild x hc.alive hc.parent
    have hge : key ≤ a := by
      rw [InnerNode.spansIn, hrec'] at hx
      exact (hsr.span_subset hx).1
    refine ⟨hc.alive.mono hn hl, h1.trans hc.range, ?_, by rw [h2, hlevel', hc.level],
      hc.kind.trans hkind'.symm⟩
    rw [h3, hc.range, if_pos hge]
  · simp only [InnerNode.children, hrec, hlm, hlm', hrec', List.map_append, List.map_cons,
      List.mem_cons, List.mem_append] at hz ⊢
    tauto

/-- A node with two children. -/
theorem pair {x y : PageID} {key : Key} {ver : Nat} {isLeaf : Bool}
    (hbuild : InnerNode.build x isLeaf [(key, y)] ver = some n)
    (hrange : s.range (.inner ptr) = ([], [])) (hkey : key ≠ [])
    (hx : ChildOk s nodes leaves ptr isLeaf [] key x)
    (hy : ChildOk s nodes leaves ptr isLeaf key [] y) :
    InnerOk s nodes leaves ptr { n with isRoot := true } ∧ n.children = [x, y] := by
  have hseps : SepsWithin [] [] [(key, y)] :=
    SepsWithin.cons_iff.2 ⟨nil_lt_iff.2 hkey, .inl rfl, .nil _ _⟩
  obtain ⟨hsized, hrec, hlm, hkind, -, -, -⟩ := InnerNode.build_spec hseps.sorted hbuild
  refine ⟨⟨hsized, ?_, fun a b z hz => ?_⟩, by simp [InnerNode.children, hlm, hrec]⟩
  · rw [hrange]
    dsimp only
    rw [hrec]
    exact hseps
  · rw [hrange, InnerNode.spansIn] at hz
    dsimp only at hz ⊢
    rw [hrec, hlm] at hz
    rw [hkind]
    simp only [spans, List.mem_cons, List.not_mem_nil, or_false, Prod.mk.injEq] at hz
    rcases hz with ⟨rfl, rfl, rfl⟩ | ⟨rfl, rfl, rfl⟩
    · exact hx
    · exact hy

end InnerOk

/-! ## The whole tree -/

/-- The inner nodes agree with the shape, and every node hangs below the root. -/
structure Shaped (root : PageID) (inners : List InnerNode) (leaves : Nat) (s : Shape) : Prop where
  root_alive : root.Alive inners.length leaves
  root_range : s.range root = ([], [])
  root_parent : s.parent root = none
  root_level : s.level root ≤ inners.length
  leaf_level : ∀ pid, s.level (.id pid) = 0
  level_le : ∀ x, x.Alive inners.length leaves → s.level x ≤ s.level root
  inner : ∀ ptr n, inners[ptr]? = some n → InnerOk s inners.length leaves ptr n
  isRoot : ∀ ptr n, inners[ptr]? = some n → (n.isRoot = true ↔ root = .inner ptr)
  below : ∀ x, x.Alive inners.length leaves → x ≠ root →
    ∃ (ptr : Nat) (n : InnerNode), inners[ptr]? = some n ∧ x ∈ n.children

/-- The upper part of the range of `x` goes to the new node `y`. -/
def Shape.split (s : Shape) (x : PageID) (key : Key) (y : PageID) : Shape where
  range z := if z = y then (key, (s.range x).2) else if z = x then ((s.range x).1, key) else s.range z
  parent z := if z = y then s.parent x else s.parent z
  level z := if z = y then s.level x else s.level z

/-- The children of an inner node from `key` on go to the new node. -/
def Shape.splitInner (s : Shape) (ptr : Nat) (key : Key) (sib : Nat) : Shape :=
  { s.split (.inner ptr) key (.inner sib) with
    parent := fun z => if z = .inner sib then s.parent (.inner ptr)
      else if s.parent z = some ptr ∧ key ≤ (s.range z).1 then some sib else s.parent z }

/-- A new root above two nodes. -/
def Shape.raise (s : Shape) (x y : PageID) (root : Nat) : Shape where
  range z := if z = .inner root then ([], []) else s.range z
  parent z := if z = x ∨ z = y then some root else if z = .inner root then none else s.parent z
  level z := if z = .inner root then s.level x + 1 else s.level z

namespace Shaped

variable {root : PageID} {inners : List InnerNode} {leaves ptr : Nat} {s : Shape} {n n' : InnerNode}

theorem alive_inner (hn : inners[ptr]? = some n) : (PageID.inner ptr).Alive inners.length leaves :=
  (List.getElem?_eq_some_iff.1 hn).1

/-- A node is below its parent. -/
theorem child (h : Shaped root inners leaves s) {x : PageID} (hx : x.Alive inners.length leaves)
    (hp : s.parent x = some ptr) :
    ∃ n, inners[ptr]? = some n ∧ (((s.range x).1, (s.range x).2, x) ∈ n.spansIn (s.range (.inner ptr))) := by
  have hne : x ≠ root := by
    rintro rfl
    rw [h.root_parent] at hp
    cases hp
  obtain ⟨ptr', n, hn, hmem⟩ := h.below x hx hne
  obtain ⟨a, b, hm⟩ := InnerNode.mem_children_iff (r := s.range (.inner ptr')).1 hmem
  have hc := (h.inner ptr' n hn).child a b x hm
  obtain rfl : ptr' = ptr := Option.some.inj (hc.parent.symm.trans hp)
  exact ⟨n, hn, by rw [hc.range]; exact hm⟩

/-- Nodes of the same level have disjoint ranges. -/
theorem unique (h : Shaped root inners leaves s) {x y : PageID} {k : Key}
    (hx : x.Alive inners.length leaves) (hy : y.Alive inners.length leaves)
    (hlevel : s.level x = s.level y) (hkx : InRange (s.range x).1 (s.range x).2 k)
    (hky : InRange (s.range y).1 (s.range y).2 k) : x = y := by
  -- induction from the root down
  obtain ⟨d, hd⟩ : ∃ d, s.level x + d = s.level root := ⟨_, Nat.add_sub_of_le (h.level_le x hx)⟩
  have hup : ∀ z, z.Alive inners.length leaves → z ≠ root →
      ∃ (q : Nat) (m : InnerNode), inners[q]? = some m ∧ s.parent z = some q ∧
        s.level z + 1 = s.level (.inner q) ∧
        ((s.range z).1, (s.range z).2, z) ∈ m.spansIn (s.range (.inner q)) := by
    intro z hz hne
    obtain ⟨q, m, hm, hmem⟩ := h.below z hz hne
    obtain ⟨a, b, hab⟩ := InnerNode.mem_children_iff (r := s.range (.inner q)).1 hmem
    have hc := (h.inner q m hm).child a b z hab
    exact ⟨q, m, hm, hc.parent, hc.level, by rw [hc.range]; exact hab⟩
  have htop : ∀ z, z.Alive inners.length leaves → s.level z = s.level root → z = root := by
    intro z hz hl
    by_contra hne
    obtain ⟨q, m, hm, -, hl', -⟩ := hup z hz hne
    have := h.level_le (.inner q) (alive_inner hm)
    omega
  induction d generalizing x y with
  | zero =>
    rw [htop x hx (by omega), htop y hy (by omega)]
  | succ d ih =>
    have hxr : x ≠ root := by
      rintro rfl
      omega
    have hyr : y ≠ root := by
      rintro rfl
      omega
    obtain ⟨q, m, hm, -, hlx, hsx⟩ := hup x hx hxr
    obtain ⟨q', m', hm', -, hly, hsy⟩ := hup y hy hyr
    have hseps := (h.inner q m hm).seps
    have hseps' := (h.inner q' m' hm').seps
    have hq : PageID.inner q = .inner q' :=
      ih (alive_inner hm) (alive_inner hm') (by omega) (hseps.span_mono hsx hkx)
        (hseps'.span_mono hsy hky) (by omega)
    obtain rfl : q = q' := by simpa using hq
    obtain rfl : m = m' := Option.some.inj (hm.symm.trans hm')
    have := hseps.span_unique hsx hsy hkx hky
    simpa using congrArg (fun p => p.2.2) this

/-- The leaves have disjoint ranges. -/
theorem leaf_unique (h : Shaped root inners leaves s) {p q : Nat} {k : Key} (hp : p < leaves)
    (hq : q < leaves) (hkp : InRange (s.range (.id p)).1 (s.range (.id p)).2 k)
    (hkq : InRange (s.range (.id q)).1 (s.range (.id q)).2 k) : p = q := by
  have := h.unique (x := .id p) (y := .id q) hp hq (by rw [h.leaf_level, h.leaf_level]) hkp hkq
  simpa using this

/-- A leaf at the root is the only one. -/
theorem leaf_eq_root {pid q : Nat} (h : Shaped (.id pid) inners leaves s) (hq : q < leaves) :
    q = pid := by
  by_contra hne
  obtain ⟨ptr, n, hn, -⟩ := h.below (.id q) hq (by simpa using hne)
  have hpos := (h.inner ptr n hn).level_pos
  have hle := h.level_le (.inner ptr) (alive_inner hn)
  rw [h.leaf_level pid] at hle
  omega

/-- Flags and versions do not matter. -/
theorem set_same (h : Shaped root inners leaves s) (hn : inners[ptr]? = some n)
    (hs : SameNode n n') : Shaped root (inners.set ptr n') leaves s := by
  have hget : ∀ (q : Nat) (m : InnerNode), (inners.set ptr n')[q]? = some m → ∃ m₀, inners[q]? = some m₀ ∧ SameNode m₀ m := by
    intro q m hm
    rw [List.getElem?_set] at hm
    split at hm
    · next heq =>
      obtain ⟨-, rfl⟩ : _ ∧ n' = m := by simpa using hm
      exact ⟨n, heq ▸ hn, hs⟩
    · exact ⟨m, hm, .refl m⟩
  refine ⟨by rw [List.length_set]; exact h.root_alive, h.root_range, h.root_parent,
    by rw [List.length_set]; exact h.root_level, h.leaf_level,
    fun x hx => h.level_le x (by rw [List.length_set] at hx; exact hx), fun q m hm => ?_,
    fun q m hm => ?_, fun x hx hne => ?_⟩
  · obtain ⟨m₀, hm₀, hs₀⟩ := hget q m hm
    rw [List.length_set]
    exact (h.inner q m₀ hm₀).of_same hs₀
  · obtain ⟨m₀, hm₀, hs₀⟩ := hget q m hm
    rw [hs₀]
    exact h.isRoot q m₀ hm₀
  · rw [List.length_set] at hx
    obtain ⟨q, m, hm, hmem⟩ := h.below x hx hne
    by_cases heq : ptr = q
    · subst heq
      obtain rfl : n = m := Option.some.inj (hn.symm.trans hm)
      refine ⟨ptr, n', by rw [List.getElem?_set_self (List.getElem?_eq_some_iff.1 hm).1], ?_⟩
      rw [hs]
      exact hmem
    · exact ⟨q, m, by rw [List.getElem?_set_ne heq]; exact hm, hmem⟩

/-- Setting one node and adding others: which nodes there are then. -/
theorem getElem?_set_append {q : Nat} {m : InnerNode} (new : List InnerNode)
    (hm : (inners.set ptr n' ++ new)[q]? = some m) :
    ptr = q ∧ m = n' ∨ ptr ≠ q ∧ inners[q]? = some m ∨
      inners.length ≤ q ∧ new[q - inners.length]? = some m := by
  rw [List.getElem?_append] at hm
  split at hm
  · rw [List.getElem?_set] at hm
    split at hm
    · next heq =>
      obtain ⟨-, rfl⟩ : _ ∧ n' = m := by simpa using hm
      exact .inl ⟨heq, rfl⟩
    · next hne => exact .inr (.inl ⟨hne, hm⟩)
  · next hlen =>
    rw [List.length_set] at hm hlen
    exact .inr (.inr ⟨not_lt.1 hlen, hm⟩)

/-- A leaf hands the upper part of its range to a new leaf. -/
theorem splitLeaf (h : Shaped root inners leaves s) (hn : inners[ptr]? = some n) {pid : Nat}
    {key : Key} (hpid : pid < leaves) (hp : s.parent (.id pid) = some ptr)
    (hlo : (s.range (.id pid)).1 < key)
    (hhi : (s.range (.id pid)).2 = [] ∨ key < (s.range (.id pid)).2)
    (hspace : n.haveSpaceFor key = true) :
    Shaped root (inners.set ptr (n.insert key (.id leaves)).2) (leaves + 1)
        (s.split (.id pid) key (.id leaves)) ∧
      ∀ r ∈ n.records, r.1 ≠ key := by
  obtain ⟨n₀, hn₀, hmem⟩ := h.child (x := .id pid) hpid hp
  obtain rfl : n = n₀ := Option.some.inj (hn.symm.trans hn₀)
  have hok := h.inner ptr n hn
  have hold := hok.child _ _ _ hmem
  have hpl : PageID.id pid ≠ .id leaves := by simp; omega
  have hroot : root ≠ .id leaves := by
    rintro rfl
    exact absurd h.root_alive (lt_irrefl leaves)
  have hrootpid : root ≠ .id pid := by
    rintro rfl
    rw [h.root_parent] at hp
    cases hp
  -- old nodes keep their shape, apart from the leaf
  have hsame : ∀ z, z.Alive inners.length leaves → z ≠ .id pid →
      (s.split (.id pid) key (.id leaves)).range z = s.range z ∧
      (s.split (.id pid) key (.id leaves)).parent z = s.parent z ∧
      (s.split (.id pid) key (.id leaves)).level z = s.level z := by
    intro z hz hne
    have hne' : z ≠ .id leaves := by
      rintro rfl
      exact absurd hz (lt_irrefl leaves)
    simp [Shape.split, hne, hne']
  have hnew : ChildOk (s.split (.id pid) key (.id leaves)) inners.length (leaves + 1) ptr
      n.childrenIsLeaf key (s.range (.id pid)).2 (.id leaves) :=
    ⟨Nat.lt_succ_self _, by simp [Shape.split], by simp [Shape.split, hp],
      by simpa [Shape.split] using hold.level, hold.kind⟩
  obtain ⟨hins, hkeys, hflag, hchildren⟩ := hok.insert (s.split (.id pid) key (.id leaves))
    hmem hlo hhi hspace le_rfl (Nat.le_succ _) (hsame _ (alive_inner hn) (by simp)).1 (hsame _ (alive_inner hn) (by simp)).2.2
    ⟨by simp [Shape.split, hpl], by simp [Shape.split, hpl, hp], by simp [Shape.split, hpl]⟩
    hnew fun z hz _ hne => hsame z hz hne
  -- an old node, or the new leaf
  have hcases : ∀ x : PageID, x.Alive inners.length (leaves + 1) →
      x.Alive inners.length leaves ∨ x = .id leaves := by
    intro x hx
    cases x with
    | id q =>
      rcases Nat.lt_succ_iff_lt_or_eq.1 hx with hq | rfl
      · exact .inl hq
      · exact .inr rfl
    | inner q => exact .inl hx
  refine ⟨⟨?_, ?_, ?_, ?_, fun q => ?_, fun x hx => ?_, fun q m hm => ?_, fun q m hm => ?_,
    fun x hx hne => ?_⟩, hkeys⟩
  · rw [List.length_set]
    exact h.root_alive.mono le_rfl (Nat.le_succ _)
  · rw [(hsame root h.root_alive hrootpid).1, h.root_range]
  · rw [(hsame root h.root_alive hrootpid).2.1, h.root_parent]
  · rw [(hsame root h.root_alive hrootpid).2.2, List.length_set]
    exact h.root_level
  · simp only [Shape.split, h.leaf_level, ite_self]
  · rw [List.length_set] at hx
    rw [(hsame root h.root_alive hrootpid).2.2]
    cases x with
    | id q => simp only [Shape.split, h.leaf_level, ite_self, Nat.zero_le]
    | inner q =>
      rw [(hsame (.inner q) hx (by simp)).2.2]
      exact h.level_le (.inner q) hx
  · rw [List.length_set]
    obtain ⟨rfl, rfl⟩ | ⟨hne, hm⟩ | ⟨-, hm⟩ :=
      getElem?_set_append [] (by rw [List.append_nil]; exact hm)
    · exact hins
    · refine (h.inner q m hm).congr le_rfl (Nat.le_succ _) (hsame _ (alive_inner hm) (by simp)).1
        (hsame _ (alive_inner hm) (by simp)).2.2 fun x hx hpx => hsame x hx ?_
      rintro rfl
      exact hne (Option.some.inj (hp.symm.trans hpx))
    · simp at hm
  · obtain ⟨rfl, rfl⟩ | ⟨hne, hm⟩ | ⟨-, hm⟩ :=
      getElem?_set_append [] (by rw [List.append_nil]; exact hm)
    · rw [hflag]
      exact h.isRoot ptr n hn
    · exact h.isRoot q m hm
    · simp at hm
  · rw [List.length_set] at hx
    have hget : (inners.set ptr (n.insert key (.id leaves)).2)[ptr]? =
        some (n.insert key (.id leaves)).2 := by
      rw [List.getElem?_set_self (List.getElem?_eq_some_iff.1 hn).1]
    obtain hx' | hxl := hcases x hx
    swap
    · exact ⟨ptr, _, hget, (hchildren x).2 (.inr hxl)⟩
    · obtain ⟨q, m, hm, hmem'⟩ := h.below x hx' hne
      by_cases heq : ptr = q
      · subst heq
        obtain rfl : n = m := Option.some.inj (hn.symm.trans hm)
        exact ⟨ptr, _, hget, (hchildren x).2 (.inl hmem')⟩
      · exact ⟨q, m, by rw [List.getElem?_set_ne heq]; exact hm, hmem'⟩

/-- A root that is a leaf is split, and gets a root above it. -/
theorem splitRootLeaf {pid : Nat} (h : Shaped (.id pid) inners leaves s) {key : Key} {ver : Nat}
    (hkey : key ≠ []) (hbuild : InnerNode.build (.id pid) true [(key, .id leaves)] ver = some n) :
    Shaped (.inner inners.length) (inners ++ [{ n with isRoot := true }]) (leaves + 1)
      ((s.split (.id pid) key (.id leaves)).raise (.id pid) (.id leaves) inners.length) := by
  have hpid : pid < leaves := h.root_alive
  have hpl : PageID.id pid ≠ .id leaves := by simp; omega
  generalize hs' : (s.split (.id pid) key (.id leaves)).raise (.id pid) (.id leaves)
    inners.length = s'
  have hsame : ∀ z, z.Alive inners.length leaves → z ≠ .id pid →
      s'.range z = s.range z ∧ s'.parent z = s.parent z ∧ s'.level z = s.level z := by
    intro z hz hne
    have hne' : z ≠ .id leaves := by
      rintro rfl
      exact absurd hz (lt_irrefl leaves)
    have hne'' : z ≠ .inner inners.length := by
      rintro rfl
      exact absurd hz (lt_irrefl inners.length)
    simp [← hs', Shape.raise, Shape.split, hne, hne', hne'']
  have hrange : s'.range (.inner inners.length) = ([], []) := by simp [← hs', Shape.raise]
  have hlevel : s'.level (.inner inners.length) = 1 := by
    simp [← hs', Shape.raise, Shape.split, hpl, h.leaf_level]
  have hleaf : ∀ q, s'.level (.id q) = 0 := by
    intro q
    simp [← hs', Shape.raise, Shape.split, h.leaf_level]
  have hx : ChildOk s' (inners.length + 1) (leaves + 1) inners.length true [] key (.id pid) :=
    ⟨Nat.lt_succ_of_lt hpid, by simp [← hs', Shape.raise, Shape.split, hpl, h.root_range],
      by simp [← hs', Shape.raise], by rw [hlevel, hleaf], rfl⟩
  have hy : ChildOk s' (inners.length + 1) (leaves + 1) inners.length true key [] (.id leaves) :=
    ⟨Nat.lt_succ_self _, by simp [← hs', Shape.raise, Shape.split, h.root_range],
      by simp [← hs', Shape.raise], by rw [hlevel, hleaf], rfl⟩
  obtain ⟨hnew, hchildren⟩ := InnerOk.pair hbuild hrange hkey hx hy
  have hget : ∀ (q : Nat) (m : InnerNode), (inners ++ [{ n with isRoot := true }])[q]? = some m →
      inners[q]? = some m ∨ q = inners.length ∧ m = { n with isRoot := true } := by
    intro q m hm
    rw [List.getElem?_append] at hm
    split at hm
    · exact .inl hm
    · next hlen =>
      obtain ⟨h0, hval⟩ := List.getElem?_eq_some_iff.1 hm
      simp at h0
      exact .inr ⟨by omega, by simpa using hval.symm⟩
  have hlen : (inners ++ [{ n with isRoot := true }]).length = inners.length + 1 := by simp
  -- an old node, the new leaf or the new root
  have hcases : ∀ x : PageID, x.Alive (inners.length + 1) (leaves + 1) →
      x.Alive inners.length leaves ∨ x = .id leaves ∨ x = .inner inners.length := by
    intro x hx
    cases x with
    | id q =>
      rcases Nat.lt_succ_iff_lt_or_eq.1 hx with hq | rfl
      · exact .inl hq
      · exact .inr (.inl rfl)
    | inner q =>
      rcases Nat.lt_succ_iff_lt_or_eq.1 hx with hq | rfl
      · exact .inl hq
      · exact .inr (.inr rfl)
  refine ⟨?_, hrange, ?_, ?_, hleaf, fun x hx => ?_, fun q m hm => ?_, fun q m hm => ?_,
    fun x hx hne => ?_⟩
  · rw [hlen]
    exact Nat.lt_succ_self _
  · simp [← hs', Shape.raise]
  · rw [hlevel, hlen]
    omega
  · rw [hlen] at hx
    rw [hlevel]
    obtain hx' | rfl | rfl := hcases x hx
    · cases x with
      | id q => rw [hleaf]; exact Nat.zero_le _
      | inner q =>
        rw [(hsame (.inner q) hx' (by simp)).2.2]
        have := h.level_le (.inner q) hx'
        rw [h.leaf_level] at this
        omega
    · rw [hleaf]; exact Nat.zero_le _
    · rw [hlevel]
  · rw [hlen]
    obtain hm | ⟨rfl, rfl⟩ := hget q m hm
    · refine (h.inner q m hm).congr (Nat.le_succ _) (Nat.le_succ _)
        (hsame _ (alive_inner hm) (by simp)).1 (hsame _ (alive_inner hm) (by simp)).2.2
        fun x hx hpx => hsame x hx ?_
      rintro rfl
      rw [h.root_parent] at hpx
      cases hpx
    · exact hnew
  · obtain hm | ⟨rfl, rfl⟩ := hget q m hm
    · have hq := (List.getElem?_eq_some_iff.1 hm).1
      have hfalse := h.isRoot q m hm
      constructor
      · intro hm'
        cases hfalse.1 hm'
      · intro heq
        simp at heq
        omega
    · simp
  · rw [hlen] at hx
    have hroot : (inners ++ [{ n with isRoot := true }])[inners.length]? =
        some { n with isRoot := true } := by simp
    by_cases hxy : x = .id pid ∨ x = .id leaves
    · exact ⟨inners.length, _, hroot, by
        show x ∈ n.children
        rw [hchildren]
        simpa using hxy⟩
    · rw [not_or] at hxy
      have hx' : x.Alive inners.length leaves :=
        (hcases x hx).resolve_right (by rw [not_or]; exact ⟨hxy.2, hne⟩)
      obtain ⟨q, m, hm, hmem⟩ := h.below x hx' hxy.1
      refine ⟨q, m, ?_, hmem⟩
      rw [List.getElem?_append_left (List.getElem?_eq_some_iff.1 hm).1]
      exact hm

/-- An inner root is split, and gets a root above it. -/
theorem splitRoot (h : Shaped (.inner ptr) inners leaves s) (hn : inners[ptr]? = some n)
    {left sibling top : InnerNode} {ver : Nat} {key : Key} {next : PageID}
    {rest : List (Key × PageID)} (hsplit : n.split ver = some (key, left, next, rest))
    (hbuild : InnerNode.build next n.childrenIsLeaf rest ver = some sibling)
    (htop : InnerNode.build (.inner ptr) false [(key, .inner inners.length)] ver = some top) :
    Shaped (.inner (inners.length + 1))
      (inners.set ptr { left with isRoot := false } ++ [sibling, { top with isRoot := true }]) leaves
      ((s.splitInner ptr key inners.length).raise (.inner ptr) (.inner inners.length)
        (inners.length + 1)) := by
  have hptr : ptr < inners.length := h.root_alive
  have hok := h.inner ptr n hn
  have hkey : key ≠ [] := by
    obtain ⟨hrec, -⟩ := InnerNode.split_spec hok.seps.sorted hok.sized hsplit
    have hseps := hok.seps
    rw [hrec, h.root_range] at hseps
    exact nil_lt_iff.1 hseps.cut.2.2.1
  generalize hs' : (s.splitInner ptr key inners.length).raise (.inner ptr) (.inner inners.length)
    (inners.length + 1) = s'
  have hne₁ : ptr ≠ inners.length := by omega
  have hne₂ : ptr ≠ inners.length + 1 := by omega
  have hsame : ∀ z, z.Alive inners.length leaves → z ≠ .inner ptr →
      s'.range z = s.range z ∧ s'.level z = s.level z ∧
      s'.parent z = if s.parent z = some ptr ∧ key ≤ (s.range z).1 then some inners.length
        else s.parent z := by
    intro z hz hne
    have hne' : z ≠ .inner inners.length := by
      rintro rfl
      exact absurd hz (lt_irrefl inners.length)
    have hne'' : z ≠ .inner (inners.length + 1) := by
      rintro rfl
      exact absurd hz (Nat.not_lt_of_lt (Nat.lt_succ_self _))
    simp [← hs', Shape.raise, Shape.splitInner, Shape.split, hne, hne', hne'']
  have hchildne : ∀ z q, s.parent z = some q → z ≠ .inner ptr := by
    rintro z q hz rfl
    rw [h.root_parent] at hz
    cases hz
  have hrange : s'.range (.inner (inners.length + 1)) = ([], []) := by simp [← hs', Shape.raise]
  have hlevel : s'.level (.inner (inners.length + 1)) = s.level (.inner ptr) + 1 := by
    simp [← hs', Shape.raise, Shape.splitInner, Shape.split, hne₁]
  have hlx : s'.level (.inner ptr) = s.level (.inner ptr) := by
    simp [← hs', Shape.raise, Shape.splitInner, Shape.split, hne₁, hne₂]
  have hly : s'.level (.inner inners.length) = s.level (.inner ptr) := by
    simp [← hs', Shape.raise, Shape.splitInner, Shape.split]
  have hrx : s'.range (.inner ptr) = ((s.range (.inner ptr)).1, key) := by
    simp [← hs', Shape.raise, Shape.splitInner, Shape.split, hne₁, hne₂]
  have hry : s'.range (.inner inners.length) = (key, (s.range (.inner ptr)).2) := by
    simp [← hs', Shape.raise, Shape.splitInner, Shape.split]
  have hpx : s'.parent (.inner ptr) = some (inners.length + 1) := by simp [← hs', Shape.raise]
  have hpy : s'.parent (.inner inners.length) = some (inners.length + 1) := by
    simp [← hs', Shape.raise]
  obtain ⟨hleft, hright, -, hflag, hchildren⟩ := hok.halves s' hsplit hbuild
    (Nat.le_add_right inners.length 2) le_rfl hrx hry hlx hly fun x hx hp => by
      obtain ⟨h1, h2, h3⟩ := hsame x hx (hchildne x ptr hp)
      refine ⟨h1, h2, ?_⟩
      rw [h3, hp]
      simp
  have hx : ChildOk s' (inners.length + 2) leaves (inners.length + 1) false [] key (.inner ptr) :=
    ⟨Nat.lt_add_right 2 hptr, by rw [hrx, h.root_range], hpx, by rw [hlevel, hlx], rfl⟩
  have hy : ChildOk s' (inners.length + 2) leaves (inners.length + 1) false key []
      (.inner inners.length) :=
    ⟨Nat.lt_add_of_pos_right (by omega), by rw [hry, h.root_range], hpy, by rw [hlevel, hly], rfl⟩
  obtain ⟨hnew, htopc⟩ := InnerOk.pair htop hrange hkey hx hy
  have hlen : (inners.set ptr { left with isRoot := false } ++
      [sibling, { top with isRoot := true }]).length = inners.length + 2 := by simp
  have hget : ∀ (q : Nat) (m : InnerNode), (inners.set ptr { left with isRoot := false } ++
      [sibling, { top with isRoot := true }])[q]? = some m →
      q = ptr ∧ m = { left with isRoot := false } ∨ q ≠ ptr ∧ inners[q]? = some m ∨
      q = inners.length ∧ m = sibling ∨ q = inners.length + 1 ∧ m = { top with isRoot := true } := by
    intro q m hm
    obtain ⟨rfl, rfl⟩ | ⟨hne, hm⟩ | ⟨hle, hm⟩ := getElem?_set_append _ hm
    · exact .inl ⟨rfl, rfl⟩
    · exact .inr (.inl ⟨hne.symm, hm⟩)
    · obtain hq | hq | hq : q - inners.length = 0 ∨ q - inners.length = 1 ∨ 2 ≤ q - inners.length := by
        omega
      · rw [hq] at hm
        exact .inr (.inr (.inl ⟨by omega, by simpa using hm.symm⟩))
      · rw [hq] at hm
        exact .inr (.inr (.inr ⟨by omega, by simpa using hm.symm⟩))
      · have := (List.getElem?_eq_some_iff.1 hm).1
        simp at this
        omega
  -- an old node, the new sibling or the new root
  have hcases : ∀ x : PageID, x.Alive (inners.length + 2) leaves → x.Alive inners.length leaves ∨
      x = .inner inners.length ∨ x = .inner (inners.length + 1) := by
    intro x hx
    cases x with
    | id q => exact .inl hx
    | inner q =>
      obtain hq | rfl | rfl : q < inners.length ∨ q = inners.length ∨ q = inners.length + 1 := by
        have : q < inners.length + 2 := hx
        omega
      · exact .inl hq
      · exact .inr (.inl rfl)
      · exact .inr (.inr rfl)
  refine ⟨?_, hrange, ?_, ?_, fun q => ?_, fun x hx => ?_, fun q m hm => ?_, fun q m hm => ?_,
    fun x hx hne => ?_⟩
  · rw [hlen]
    exact Nat.lt_succ_self _
  · simp [← hs', Shape.raise, hne₂.symm]
  · rw [hlevel, hlen]
    have := h.root_level
    omega
  · simp [← hs', Shape.raise, Shape.splitInner, Shape.split, h.leaf_level]
  · rw [hlen] at hx
    rw [hlevel]
    obtain hx' | rfl | rfl := hcases x hx
    · by_cases hxp : x = .inner ptr
      · rw [hxp, hlx]
        exact Nat.le_succ _
      · rw [(hsame x hx' hxp).2.1]
        exact (h.level_le x hx').trans (Nat.le_succ _)
    · rw [hly]
      exact Nat.le_succ _
    · rw [hlevel]
  · rw [hlen]
    obtain ⟨rfl, rfl⟩ | ⟨hne, hm⟩ | ⟨rfl, rfl⟩ | ⟨rfl, rfl⟩ := hget q m hm
    · exact ⟨hleft.sized, hleft.seps, hleft.child⟩
    · have hq : PageID.inner q ≠ .inner ptr := by simpa using hne
      refine (h.inner q m hm).congr (Nat.le_add_right _ _) le_rfl (hsame _ (alive_inner hm) hq).1
        (hsame _ (alive_inner hm) hq).2.1 fun x hx hpx => ?_
      obtain ⟨h1, h2, h3⟩ := hsame x hx (hchildne x q hpx)
      refine ⟨h1, ?_, h2⟩
      rw [h3, if_neg]
      rintro ⟨hp, -⟩
      exact hne (Option.some.inj (hpx.symm.trans hp))
    · exact hright
    · exact hnew
  · obtain ⟨rfl, rfl⟩ | ⟨hne, hm⟩ | ⟨rfl, rfl⟩ | ⟨rfl, rfl⟩ := hget q m hm
    · simp
      omega
    · have hq := (List.getElem?_eq_some_iff.1 hm).1
      have hfalse := h.isRoot q m hm
      constructor
      · intro hm'
        have := hfalse.1 hm'
        simp at this
        omega
      · intro heq
        simp at heq
        omega
    · rw [hflag]
      simp
    · simp
  · rw [hlen] at hx
    have hat : ∀ i m, ([sibling, { top with isRoot := true }] : List InnerNode)[i]? = some m →
        (inners.set ptr { left with isRoot := false } ++
          [sibling, { top with isRoot := true }])[inners.length + i]? = some m := by
      intro i m hm
      rw [List.getElem?_append_right (by simp), List.length_set, Nat.add_sub_cancel_left]
      exact hm
    have hset : (inners.set ptr { left with isRoot := false } ++
        [sibling, { top with isRoot := true }])[ptr]? = some { left with isRoot := false } := by
      rw [List.getElem?_append_left (by simpa using hptr), List.getElem?_set_self hptr]
    by_cases hxy : x = .inner ptr ∨ x = .inner inners.length
    · refine ⟨inners.length + 1, _, hat 1 _ rfl, ?_⟩
      show x ∈ top.children
      rw [htopc]
      simpa using hxy
    · rw [not_or] at hxy
      have hx' : x.Alive inners.length leaves :=
        (hcases x hx).resolve_right (by rw [not_or]; exact ⟨hxy.2, hne⟩)
      obtain ⟨q, m, hm, hmem⟩ := h.below x hx' hxy.1
      by_cases hq : q = ptr
      · subst hq
        obtain rfl : n = m := Option.some.inj (hn.symm.trans hm)
        obtain hc | hc := hchildren x hmem
        · exact ⟨q, _, hset, hc⟩
        · exact ⟨inners.length, _, hat 0 _ rfl, hc⟩
      · refine ⟨q, m, ?_, hmem⟩
        rw [List.getElem?_append_left (by simpa using (List.getElem?_eq_some_iff.1 hm).1),
          List.getElem?_set_ne (Ne.symm hq)]
        exact hm

/-- An inner node hands its upper children to a new node. -/
theorem splitBelow (h : Shaped root inners leaves s) (hn : inners[ptr]? = some n) {par : Nat}
    (hp : s.parent (.inner ptr) = some par) {p left sibling : InnerNode}
    (hpn : inners[par]? = some p) {ver : Nat} {key : Key} {next : PageID}
    {rest : List (Key × PageID)} (hsplit : n.split ver = some (key, left, next, rest))
    (hbuild : InnerNode.build next n.childrenIsLeaf rest ver = some sibling)
    (hspace : p.haveSpaceFor key = true) :
    Shaped root ((inners.set par (p.insert key (.inner inners.length)).2).set ptr left ++ [sibling])
        leaves (s.splitInner ptr key inners.length) ∧
      ∀ r ∈ p.records, r.1 ≠ key := by
  have hptr : ptr < inners.length := (List.getElem?_eq_some_iff.1 hn).1
  have hpar : par < inners.length := (List.getElem?_eq_some_iff.1 hpn).1
  have hok := h.inner ptr n hn
  have hpok := h.inner par p hpn
  obtain ⟨p₀, hp₀, hmem⟩ := h.child (alive_inner hn) hp
  obtain rfl : p = p₀ := Option.some.inj (hpn.symm.trans hp₀)
  have hold := hpok.child _ _ _ hmem
  obtain ⟨hrec, -⟩ := InnerNode.split_spec hok.seps.sorted hok.sized hsplit
  have hseps := hok.seps
  rw [hrec] at hseps
  obtain ⟨-, -, hlo, hhi⟩ := hseps.cut
  have hne : ptr ≠ par := by
    rintro rfl
    have := hold.level
    omega
  have hne₁ : ptr ≠ inners.length := by omega
  have hrootne : root ≠ .inner ptr := by
    rintro rfl
    rw [h.root_parent] at hp
    cases hp
  generalize hs' : s.splitInner ptr key inners.length = s'
  have hsame : ∀ z, z.Alive inners.length leaves → z ≠ .inner ptr →
      s'.range z = s.range z ∧ s'.level z = s.level z ∧
      s'.parent z = if s.parent z = some ptr ∧ key ≤ (s.range z).1 then some inners.length
        else s.parent z := by
    intro z hz hne
    have hne' : z ≠ .inner inners.length := by
      rintro rfl
      exact absurd hz (lt_irrefl inners.length)
    simp [← hs', Shape.splitInner, Shape.split, hne, hne']
  have hselfne : ∀ z, s.parent z = some ptr → z ≠ .inner ptr := by
    rintro z hz rfl
    exact hne (Option.some.inj (hz.symm.trans hp))
  have hlx : s'.level (.inner ptr) = s.level (.inner ptr) := by
    simp [← hs', Shape.splitInner, Shape.split, hne₁]
  have hly : s'.level (.inner inners.length) = s.level (.inner ptr) := by
    simp [← hs', Shape.splitInner, Shape.split]
  have hrx : s'.range (.inner ptr) = ((s.range (.inner ptr)).1, key) := by
    simp [← hs', Shape.splitInner, Shape.split, hne₁]
  have hry : s'.range (.inner inners.length) = (key, (s.range (.inner ptr)).2) := by
    simp [← hs', Shape.splitInner, Shape.split]
  have hpx : s'.parent (.inner ptr) = some par := by
    simp [← hs', Shape.splitInner, hne₁, hp, hne.symm]
  have hpy : s'.parent (.inner inners.length) = some par := by
    simp [← hs', Shape.splitInner, hp]
  obtain ⟨hleft, hright, hflagl, hflag, hchildren⟩ := hok.halves s' hsplit hbuild
    (Nat.le_succ inners.length) le_rfl hrx hry hlx hly fun x hx hpx => by
      obtain ⟨h1, h2, h3⟩ := hsame x hx (hselfne x hpx)
      refine ⟨h1, h2, ?_⟩
      rw [h3, hpx]
      simp
  have hparne : PageID.inner par ≠ .inner ptr := by simpa using hne.symm
  have hparsame := hsame _ (alive_inner hpn) hparne
  have hynew : ChildOk s' (inners.length + 1) leaves par p.childrenIsLeaf key
      (s.range (.inner ptr)).2 (.inner inners.length) :=
    ⟨Nat.lt_succ_self _, hry, hpy, by rw [hly, hparsame.2.1, hold.level], hold.kind⟩
  obtain ⟨hins, hkeys, hflagp, hchildrenp⟩ := hpok.insert s' hmem hlo hhi hspace
    (Nat.le_succ inners.length) le_rfl hparsame.1 hparsame.2.1 ⟨hrx, hpx, hlx⟩ hynew
    fun z hz hpz hzne => by
      obtain ⟨h1, h2, h3⟩ := hsame z hz hzne
      refine ⟨h1, ?_, h2⟩
      rw [h3, if_neg]
      rintro ⟨hp', -⟩
      exact hne (Option.some.inj (hp'.symm.trans hpz))
  generalize hp' : (p.insert key (.inner inners.length)).2 = p' at *
  have hlen : ((inners.set par p').set ptr left ++ [sibling]).length = inners.length + 1 := by simp
  have hget : ∀ (q : Nat) (m : InnerNode),
      ((inners.set par p').set ptr left ++ [sibling])[q]? = some m →
      q = ptr ∧ m = left ∨ q = par ∧ m = p' ∨ q ≠ ptr ∧ q ≠ par ∧ inners[q]? = some m ∨
      q = inners.length ∧ m = sibling := by
    intro q m hm
    obtain ⟨rfl, rfl⟩ | ⟨hq, hm⟩ | ⟨hle, hm⟩ := getElem?_set_append _ hm
    · exact .inl ⟨rfl, rfl⟩
    · obtain ⟨rfl, rfl⟩ | ⟨hq', hm⟩ | ⟨-, hm⟩ :=
        getElem?_set_append [] (by rw [List.append_nil]; exact hm)
      · exact .inr (.inl ⟨rfl, rfl⟩)
      · exact .inr (.inr (.inl ⟨hq.symm, hq'.symm, hm⟩))
      · simp at hm
    · rw [List.length_set] at hle hm
      obtain ⟨hlt, hval⟩ := List.getElem?_eq_some_iff.1 hm
      simp at hlt
      exact .inr (.inr (.inr ⟨by omega, by simpa using hval.symm⟩))
  -- an old node, or the new sibling
  have hcases : ∀ x : PageID, x.Alive (inners.length + 1) leaves →
      x.Alive inners.length leaves ∨ x = .inner inners.length := by
    intro x hx
    cases x with
    | id q => exact .inl hx
    | inner q =>
      rcases Nat.lt_succ_iff_lt_or_eq.1 hx with hq | rfl
      · exact .inl hq
      · exact .inr rfl
  refine ⟨⟨?_, ?_, ?_, ?_, fun q => ?_, fun x hx => ?_, fun q m hm => ?_, fun q m hm => ?_,
    fun x hx hxr => ?_⟩, hkeys⟩
  · rw [hlen]
    exact h.root_alive.mono (Nat.le_succ _) le_rfl
  · rw [(hsame root h.root_alive hrootne).1, h.root_range]
  · rw [(hsame root h.root_alive hrootne).2.2, h.root_parent]
    simp
  · rw [(hsame root h.root_alive hrootne).2.1, hlen]
    exact h.root_level.trans (Nat.le_succ _)
  · simp [← hs', Shape.splitInner, Shape.split, h.leaf_level]
  · rw [hlen] at hx
    rw [(hsame root h.root_alive hrootne).2.1]
    obtain hx' | rfl := hcases x hx
    · by_cases hxp : x = .inner ptr
      · rw [hxp, hlx]
        exact h.level_le _ (alive_inner hn)
      · rw [(hsame x hx' hxp).2.1]
        exact h.level_le x hx'
    · rw [hly]
      exact h.level_le _ (alive_inner hn)
  · rw [hlen]
    obtain ⟨rfl, rfl⟩ | ⟨rfl, rfl⟩ | ⟨hq, hq', hm⟩ | ⟨rfl, rfl⟩ := hget q m hm
    · exact hleft
    · exact hins
    · have hqne : PageID.inner q ≠ .inner ptr := by simpa using hq
      refine (h.inner q m hm).congr (Nat.le_succ _) le_rfl (hsame _ (alive_inner hm) hqne).1
        (hsame _ (alive_inner hm) hqne).2.1 fun x hx hpx' => ?_
      have hxne : x ≠ .inner ptr := by
        rintro rfl
        exact hq' (Option.some.inj (hpx'.symm.trans hp))
      obtain ⟨h1, h2, h3⟩ := hsame x hx hxne
      refine ⟨h1, ?_, h2⟩
      rw [h3, if_neg]
      rintro ⟨hp'', -⟩
      exact hq (Option.some.inj (hpx'.symm.trans hp''))
    · exact hright
  · obtain ⟨rfl, rfl⟩ | ⟨rfl, rfl⟩ | ⟨-, -, hm⟩ | ⟨rfl, rfl⟩ := hget q m hm
    · rw [hflagl]
      exact h.isRoot q n hn
    · rw [hflagp]
      exact h.isRoot q p hpn
    · exact h.isRoot q m hm
    · rw [hflag]
      constructor
      · intro hf
        cases hf
      · rintro rfl
        exact absurd h.root_alive (lt_irrefl _)
  · rw [hlen] at hx
    have hgetl : ((inners.set par p').set ptr left ++ [sibling])[ptr]? = some left := by
      rw [List.getElem?_append_left (by simpa using hptr), List.getElem?_set_self (by simpa using hptr)]
    have hgetp : ((inners.set par p').set ptr left ++ [sibling])[par]? = some p' := by
      rw [List.getElem?_append_left (by simpa using hpar), List.getElem?_set_ne hne,
        List.getElem?_set_self hpar]
    have hgets : ((inners.set par p').set ptr left ++ [sibling])[inners.length]? = some sibling := by
      rw [List.getElem?_append_right (by simp)]
      simp
    obtain hx' | hxs := hcases x hx
    swap
    · exact ⟨par, p', hgetp, (hchildrenp x).2 (.inr hxs)⟩
    · obtain ⟨q, m, hm, hmem'⟩ := h.below x hx' hxr
      by_cases hq : q = ptr
      · subst hq
        obtain rfl : n = m := Option.some.inj (hn.symm.trans hm)
        obtain hc | hc := hchildren x hmem'
        · exact ⟨q, _, hgetl, hc⟩
        · exact ⟨inners.length, _, hgets, hc⟩
      · by_cases hq' : q = par
        · subst hq'
          obtain rfl : p = m := Option.some.inj (hpn.symm.trans hm)
          exact ⟨q, _, hgetp, (hchildrenp x).2 (.inl hmem')⟩
        · refine ⟨q, m, ?_, hmem'⟩
          rw [List.getElem?_append_left (by simpa using (List.getElem?_eq_some_iff.1 hm).1),
            List.getElem?_set_ne (Ne.symm hq), List.getElem?_set_ne (Ne.symm hq')]
          exact hm

end Shaped

/-- One leaf for all keys. -/
def Shape.single : Shape := ⟨fun _ => ([], []), fun _ => none, fun _ => 0⟩

theorem shaped_single : Shaped (.id 0) [] 1 Shape.single := by
  refine ⟨Nat.zero_lt_one, rfl, rfl, le_refl 0, fun _ => rfl, fun _ _ => le_refl 0, by simp, by simp,
    fun x hx hne => ?_⟩
  cases x with
  | id pid => exact absurd (congrArg PageID.id (Nat.lt_one_iff.1 hx)) hne
  | inner ptr => exact absurd hx (Nat.not_lt_zero ptr)

/-! ## Ranges by separators -/

/-- The separators above a node leave it the keys from `lo` to `hi`. -/
inductive Routes (root : PageID) (inners : List InnerNode) : PageID → Key → Key → Prop
  | root : Routes root inners root [] []
  | child {ptr : Nat} {n : InnerNode} {lo hi a b : Key} {x : PageID}
      (h : Routes root inners (.inner ptr) lo hi) (hn : inners[ptr]? = some n)
      (hx : (a, b, x) ∈ n.spansIn (lo, hi)) : Routes root inners x a b

namespace Shaped

variable {root : PageID} {inners : List InnerNode} {leaves : Nat} {s : Shape}

/-- The range by the separators is the one of the shape. -/
theorem routes_eq (h : Shaped root inners leaves s) {x : PageID} {lo hi : Key}
    (hr : Routes root inners x lo hi) :
    x.Alive inners.length leaves ∧ s.range x = (lo, hi) := by
  induction hr with
  | root => exact ⟨h.root_alive, h.root_range⟩
  | @child ptr n lo hi a b x _ hn hx ih =>
    rw [← ih.2] at hx
    have hc := (h.inner ptr n hn).child a b x hx
    exact ⟨hc.alive, hc.range⟩

/-- Every node in use has a range. -/
theorem routes (h : Shaped root inners leaves s) {x : PageID}
    (hx : x.Alive inners.length leaves) : Routes root inners x (s.range x).1 (s.range x).2 := by
  -- down from the root, level by level
  obtain ⟨d, hd⟩ : ∃ d, s.level x + d = s.level root := ⟨_, Nat.add_sub_of_le (h.level_le x hx)⟩
  induction d generalizing x with
  | zero =>
    obtain rfl : x = root := by
      by_contra hne
      obtain ⟨ptr, n, hn, hmem⟩ := h.below x hx hne
      obtain ⟨a, b, hab⟩ := InnerNode.mem_children_iff (r := s.range (.inner ptr)).1 hmem
      have hlevel := ((h.inner ptr n hn).child a b x hab).level
      have hle := h.level_le (.inner ptr) (alive_inner hn)
      omega
    rw [h.root_range]
    exact .root
  | succ d ih =>
    have hne : x ≠ root := by
      rintro rfl
      omega
    obtain ⟨ptr, n, hn, hmem⟩ := h.below x hx hne
    obtain ⟨a, b, hab⟩ := InnerNode.mem_children_iff (r := s.range (.inner ptr)).1 hmem
    have hc := (h.inner ptr n hn).child a b x hab
    have hlevel := hc.level
    rw [hc.range]
    exact .child (ih (x := .inner ptr) (alive_inner hn) (by omega)) hn hab

end Shaped

end BfTree
