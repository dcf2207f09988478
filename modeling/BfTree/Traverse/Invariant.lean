import BfTree.Traverse.Model

/-!
# What a descent knows

A version that has not moved on vouches for what was seen of its node: the key was in
its range, and the child that was read is the one for the key. Nobody else can change
this without taking the node, which moves the version. The facts are handed down from
node to node: the check of the parent makes the child known, and from then on the
child's own version vouches for it.
-/

namespace BfTree

open Lib

namespace Memory

/-- The node is in use. -/
def Alive (m : Memory) (x : PageID) : Prop := x.Alive m.inners.length m.leaves.length

/-- As long as the version of the guard stands, `P` holds of its node. -/
def Vouches (m : Memory) (g : ReadGuard) (P : Nat → Prop) : Prop :=
  ∃ ptr, g.node = .inner ptr ∧ ptr < m.inners.length ∧ isLocked g.version = false ∧
    g.version ≤ m.versions ptr ∧ (m.versions ptr = g.version → P ptr)

variable (m : Memory) (sh : Shape)

def Covers (x : PageID) (key : Key) : Prop := InRange (sh.range x).1 (sh.range x).2 key

/-- `x` is the child of a node on the way to the key. -/
structure OnWay (key : Key) (isLeaf : Bool) (x : PageID) (ptr : Nat) : Prop where
  alive : m.Alive x
  parent : sh.parent x = some ptr
  covers : Covers sh x key
  kind : x.isLeaf = isLeaf

/-- What is known of the page a descent is at. -/
def Leads (key : Key) (cur : PageID) (isLeaf : Bool) : Option ReadGuard → Prop
  | none => m.Alive cur ∧ cur.isLeaf = isLeaf
  | some g => m.Vouches g (OnWay m sh key isLeaf cur)

/-- The node has at least the version of the guard. -/
structure Seen (g : ReadGuard) : Prop where
  alive : m.Alive g.node
  le : ∀ ptr, g.node = .inner ptr → g.version ≤ m.versions ptr

/-- The version of a node was read before its parent was checked. -/
def SeenBelow (g : ReadGuard) : Option ReadGuard → Prop
  | none => m.Seen g
  | some p => m.Vouches p fun _ => m.Seen g

/-- What is known of a node whose parent was checked. -/
def Entered (key : Key) (parent : Option ReadGuard) (ptr : Nat) : Prop :=
  Covers sh (.inner ptr) key ∧ (parent = none → m.root = .inner ptr)

/-- What a thread knows. -/
def ThreadOk : Thread → Prop
  | .idle => True
  | .top key cur isLeaf parent => m.Leads sh key cur isLeaf parent
  | .read _ key cur parent => m.Leads sh key cur.node false parent ∧
      isLocked cur.version = false ∧ m.SeenBelow cur parent
  | .checked _ key cur parent => m.Leads sh key cur.node false parent ∧
      m.Vouches cur (m.Entered sh key parent)
  | .lockedCur key ptr parent => m.Leads sh key (.inner ptr) false parent ∧
      (parent = none → m.root = .inner ptr)
  | .lockedBoth ptr parent => sh.parent (.inner ptr) = some parent
  | .lockedLeaf _ key pid parent => m.Leads sh key (.id pid) true parent
  | .inLeaf _ key pid parent => m.Leads sh key (.id pid) true parent ∧
      Covers sh (.id pid) key ∧ (parent = none → m.root = .id pid)
  | .lockedParent pid parent => sh.parent (.id pid) = some parent
  | .releasing _ _ => True

end Memory

/-! ## Frames -/

/-- What a thread leaves as it is: nodes it has not taken, with their children, and
leaves it has not locked. -/
structure Frame (t : Thread) (m : Memory) (sh : Shape) (m' : Memory) (sh' : Shape) : Prop where
  inners_le : m.inners.length ≤ m'.inners.length
  leaves_le : m.leaves.length ≤ m'.leaves.length
  versions_le : ∀ ptr < m.inners.length, m.versions ptr ≤ m'.versions ptr
  range : ∀ ptr < m.inners.length, ptr ∉ t.writes → sh'.range (.inner ptr) = sh.range (.inner ptr)
  child : ∀ ptr, ptr ∉ t.writes → ∀ x, m.Alive x → sh.parent x = some ptr →
    sh'.parent x = some ptr ∧ sh'.range x = sh.range x
  leaf : ∀ pid < m.leaves.length, (pid, .exclusive) ∉ t.leafLocks →
    sh'.range (.id pid) = sh.range (.id pid)
  root : m'.root = m.root ∨ (∃ ptr ∈ t.writes, m.root = .inner ptr) ∨
    ∃ pid, (pid, .exclusive) ∈ t.leafLocks ∧ m.root = .id pid

namespace Frame

open Memory

variable {t : Thread} {m m' : Memory} {sh sh' : Shape} {key : Key} {parent : Option ReadGuard}

theorem refl (t : Thread) (m : Memory) (sh : Shape) : Frame t m sh m sh :=
  ⟨le_rfl, le_rfl, fun _ _ => le_rfl, fun _ _ _ => rfl, fun _ _ _ _ hp => ⟨hp, rfl⟩,
    fun _ _ _ => rfl, .inl rfl⟩

/-- Only version words move, upwards. -/
theorem bump (t : Thread) (m : Memory) (sh : Shape) (ptr : Nat) : Frame t m sh (m.bump ptr) sh := by
  refine { refl t m sh with versions_le := fun q _ => ?_ }
  simp only [Memory.bump, Function.update_apply]
  split
  · next heq => rw [heq]; omega
  · exact le_rfl

/-- The node `x`, which the thread has locked together with its parent, is split. -/
theorem split (x : PageID) (hinners : m.inners.length ≤ m'.inners.length)
    (hleaves : m.leaves.length ≤ m'.leaves.length)
    (hversions : ∀ ptr < m.inners.length, m'.versions ptr = m.versions ptr)
    (hlocked : (∃ ptr ∈ t.writes, x = .inner ptr) ∨
      ∃ pid, (pid, .exclusive) ∈ t.leafLocks ∧ x = .id pid)
    (hroot : m'.root = m.root ∨ m.root = x) (hup : ∀ ptr, sh.parent x = some ptr → ptr ∈ t.writes)
    (hrange : ∀ z, m.Alive z → z ≠ x → sh'.range z = sh.range z)
    (hparent : ∀ z ptr, m.Alive z → z ≠ x → sh.parent z = some ptr → ptr ∉ t.writes →
      sh'.parent z = some ptr) : Frame t m sh m' sh' := by
  refine ⟨hinners, hleaves, fun ptr hptr => (hversions ptr hptr).ge, fun ptr hptr hw => ?_,
    fun ptr hw z hz hp => ?_, fun pid hpid hx => ?_, ?_⟩
  · refine hrange (.inner ptr) hptr ?_
    rintro rfl
    obtain ⟨q, hq, heq⟩ | ⟨pid, -, heq⟩ := hlocked
    · obtain rfl : ptr = q := by simpa using heq
      exact hw hq
    · cases heq
  · have hne : z ≠ x := by
      rintro rfl
      exact hw (hup ptr hp)
    exact ⟨hparent z ptr hz hne hp hw, hrange z hz hne⟩
  · refine hrange (.id pid) hpid ?_
    rintro rfl
    obtain ⟨q, -, heq⟩ | ⟨q, hq, heq⟩ := hlocked
    · cases heq
    · obtain rfl : pid = q := by simpa using heq
      exact hx hq
  · rcases hroot with hroot | rfl
    · exact .inl hroot
    · obtain ⟨ptr, hptr, heq⟩ | ⟨pid, hpid, heq⟩ := hlocked
      · exact .inr (.inl ⟨ptr, hptr, heq⟩)
      · exact .inr (.inr ⟨pid, hpid, heq⟩)

theorem alive (h : Frame t m sh m' sh') {x : PageID} (hx : m.Alive x) : m'.Alive x :=
  hx.mono h.inners_le h.leaves_le

/-- A version that stands vouches for nodes nobody has taken. -/
theorem vouches (h : Frame t m sh m' sh')
    (hfree : ∀ ptr < m.inners.length, isLocked (m.versions ptr) = false → ptr ∉ t.writes)
    {g : ReadGuard} {P P' : Nat → Prop} (hg : m.Vouches g P)
    (hP : ∀ ptr < m.inners.length, ptr ∉ t.writes → P ptr → P' ptr) : m'.Vouches g P' := by
  obtain ⟨ptr, hnode, hptr, hv, hle, hp⟩ := hg
  have hle' := h.versions_le ptr hptr
  refine ⟨ptr, hnode, hptr.trans_le h.inners_le, hv, hle.trans hle', fun heq => ?_⟩
  -- the version has not moved in between
  have heq' : m.versions ptr = g.version := by omega
  exact hP ptr hptr (hfree ptr hptr (by rw [heq']; exact hv)) (hp heq')

theorem leads (h : Frame t m sh m' sh')
    (hfree : ∀ ptr < m.inners.length, isLocked (m.versions ptr) = false → ptr ∉ t.writes)
    {cur : PageID} {isLeaf : Bool} (hl : m.Leads sh key cur isLeaf parent) :
    m'.Leads sh' key cur isLeaf parent := by
  cases parent with
  | none => exact ⟨h.alive hl.1, hl.2⟩
  | some g =>
    refine h.vouches hfree hl fun ptr _ hw hc => ?_
    obtain ⟨hparent, hrange⟩ := h.child ptr hw cur hc.alive hc.parent
    exact ⟨h.alive hc.alive, hparent, by rw [Covers, hrange]; exact hc.covers, hc.kind⟩

theorem seen (h : Frame t m sh m' sh') {g : ReadGuard} (hs : m.Seen g) : m'.Seen g := by
  refine ⟨h.alive hs.alive, fun ptr hnode => ?_⟩
  have hptr := hs.alive
  rw [Memory.Alive, hnode] at hptr
  exact (hs.le ptr hnode).trans (h.versions_le ptr hptr)

theorem seenBelow (h : Frame t m sh m' sh')
    (hfree : ∀ ptr < m.inners.length, isLocked (m.versions ptr) = false → ptr ∉ t.writes)
    {g : ReadGuard} (hs : m.SeenBelow g parent) : m'.SeenBelow g parent := by
  cases parent with
  | none => exact h.seen hs
  | some p => exact h.vouches hfree hs fun _ _ _ hs => h.seen hs

theorem root_inner (h : Frame t m sh m' sh') {ptr : Nat} (hroot : m.root = .inner ptr)
    (hw : ptr ∉ t.writes) : m'.root = .inner ptr := by
  obtain heq | ⟨q, hq, heq⟩ | ⟨pid, -, heq⟩ := h.root
  · rw [heq, hroot]
  · obtain rfl : ptr = q := by simpa using hroot.symm.trans heq
    exact absurd hq hw
  · cases hroot.symm.trans heq

theorem root_leaf (h : Frame t m sh m' sh') {pid : Nat} (hroot : m.root = .id pid)
    (hw : (pid, .exclusive) ∉ t.leafLocks) : m'.root = .id pid := by
  obtain heq | ⟨q, -, heq⟩ | ⟨pid', hpid, heq⟩ := h.root
  · rw [heq, hroot]
  · cases hroot.symm.trans heq
  · obtain rfl : pid = pid' := by simpa using hroot.symm.trans heq
    exact absurd hpid hw

theorem entered (h : Frame t m sh m' sh')
    (hfree : ∀ ptr < m.inners.length, isLocked (m.versions ptr) = false → ptr ∉ t.writes)
    {g : ReadGuard} (hg : m.Vouches g (m.Entered sh key parent)) :
    m'.Vouches g (m'.Entered sh' key parent) :=
  h.vouches hfree hg fun ptr hptr hw he =>
    ⟨by rw [Covers, h.range ptr hptr hw]; exact he.1, fun hp => h.root_inner (he.2 hp) hw⟩

/-- A thread keeps what it knows when another one moves. -/
theorem threadOk (h : Frame t m sh m' sh')
    (hfree : ∀ ptr < m.inners.length, isLocked (m.versions ptr) = false → ptr ∉ t.writes)
    {u : Thread} (hwrites : ∀ ptr ∈ u.writes, ptr < m.inners.length ∧ ptr ∉ t.writes)
    (hleaves : ∀ l ∈ u.leafLocks, l.1 < m.leaves.length ∧ (l.1, .exclusive) ∉ t.leafLocks)
    (hu : m.ThreadOk sh u) : m'.ThreadOk sh' u := by
  cases u with
  | idle => trivial
  | top => exact h.leads hfree hu
  | read =>
    obtain ⟨hl, hv, hs⟩ := hu
    exact ⟨h.leads hfree hl, hv, h.seenBelow hfree hs⟩
  | checked =>
    obtain ⟨hl, he⟩ := hu
    exact ⟨h.leads hfree hl, h.entered hfree he⟩
  | lockedCur key ptr parent =>
    obtain ⟨hl, hroot⟩ := hu
    have hw := (hwrites ptr (by simp [Thread.writes])).2
    exact ⟨h.leads hfree hl, fun hp => h.root_inner (hroot hp) hw⟩
  | lockedBoth ptr par =>
    have hw := (hwrites par (by simp [Thread.writes])).2
    have hptr := (hwrites ptr (by simp [Thread.writes])).1
    exact (h.child par hw (.inner ptr) hptr hu).1
  | lockedLeaf => exact h.leads hfree hu
  | inLeaf mode key pid parent =>
    obtain ⟨hl, hc, hroot⟩ := hu
    obtain ⟨hpid, hx⟩ := hleaves (pid, mode) (by simp [Thread.leafLocks])
    exact ⟨h.leads hfree hl, by rw [Covers, h.leaf pid hpid hx]; exact hc,
      fun hp => h.root_leaf (hroot hp) hx⟩
  | lockedParent pid par =>
    have hw := (hwrites par (by simp [Thread.writes])).2
    have hpid := (hleaves (pid, .exclusive) (by simp [Thread.leafLocks])).1
    exact (h.child par hw (.id pid) hpid hu).1
  | releasing => trivial

end Frame

end BfTree
