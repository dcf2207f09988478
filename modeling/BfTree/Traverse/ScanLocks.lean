import BfTree.Traverse.Safety

/-!
# Scans that wait for the next leaf

A scan keeps its leaf locked while it descends to the next one, and it locks the leaf at
the end of that descent before it checks the parent. So every thread has two cursors
here: the leaf its iterator holds, and the descent that is running. A lock that is not
free is waited for. An operation that is no scan holds nothing while it descends.

`torn` says what a scan may read that holds a leaf. If it is set, as it is in the code, a
node whose version has moved on since it was entered routes to any of its children;
otherwise such a node is not read from.
-/

namespace BfTree

open Lib

/-- The threads with their two cursors, the iterator's leaf under `true` and the descent
under `false`, and the locks that are waited for. -/
structure Scans (W : Type) where
  descents : Descents (W × Bool)
  want : W → Option LockMode

namespace Scans

variable {W : Type}

def held (s : Scans W) (i : W) : Thread := s.descents.threads (i, true)

def descent (s : Scans W) (i : W) : Thread := s.descents.threads (i, false)

/-- A child is read from a node that still has the version it was entered with, or is any
child of the node. -/
def Routed (torn : Bool) (s : Scans W) (i : W) (t : Thread) : Prop :=
  ∀ key ptr v parent child isLeaf, s.descent i = .checked false key ⟨.inner ptr, v⟩ parent →
    t = .top key child isLeaf (some ⟨.inner ptr, v⟩) →
    s.descents.mem.versions ptr = v ∨
      (torn = true ∨ s.held i = .idle) ∧
        ∃ n, s.descents.mem.inners[ptr]? = some n ∧ n.childrenIsLeaf = isLeaf ∧ child ∈ n.children

section

variable [DecidableEq W]

def setDescent (s : Scans W) (m : Memory) (i : W) (t : Thread) : Descents (W × Bool) :=
  ⟨m, Function.update s.descents.threads (i, false) t⟩

inductive Step (torn : Bool) (s : Scans W) : Scans W → Prop
  /-- A descent takes a step. Only without a leaf in hand it may start at any key. -/
  | move {i : W} {m : Memory} {t : Thread} (hwant : s.want i = none)
      (hstart : s.descent i = .idle → s.held i = .idle) (hroute : s.Routed torn i t)
      (h : Move (s.descents.Free (i, false)) s.descents.mem (s.descent i) m t) :
      Step torn s ⟨s.setDescent m i t, s.want⟩
  /-- The scan looks for the leaf behind the one it holds. -/
  | next {i : W} {mode : LockMode} {key : Key} {pid : Nat} {parent : Option ReadGuard}
      {fences : Key × Key} (hidle : s.descent i = .idle)
      (hheld : s.held i = .inLeaf mode key pid parent)
      (hfences : s.descents.mem.leaves[pid]? = some fences) (hright : fences.2 ≠ []) :
      Step torn s ⟨s.setDescent s.descents.mem i
        (.top fences.2 s.descents.mem.root s.descents.mem.root.isLeaf none), s.want⟩
  /-- `get` or `get_mut` is called. -/
  | request {i : W} {key : Key} {pid : Nat} {parent : Option ReadGuard} (mode : LockMode)
      (hwant : s.want i = none) (htop : s.descent i = .top key (.id pid) true parent) :
      Step torn s ⟨s.descents, Function.update s.want i (some mode)⟩
  | acquire {i : W} {mode : LockMode} {key : Key} {pid : Nat} {parent : Option ReadGuard}
      (hwant : s.want i = some mode) (htop : s.descent i = .top key (.id pid) true parent)
      (hpid : pid < s.descents.mem.leaves.length) (hfree : s.descents.Free (i, false) mode pid) :
      Step torn s ⟨s.setDescent s.descents.mem i (.lockedLeaf mode key pid parent),
        Function.update s.want i none⟩
  /-- The iterator takes over the leaf that was found, or nothing, and drops its old one. -/
  | exchange {i : W} (hwant : s.want i = none)
      (hleaf : s.descent i = .idle ∨
        ∃ mode key pid parent, s.descent i = .inLeaf mode key pid parent) :
      Step torn s ⟨⟨s.descents.mem,
        Function.update (Function.update s.descents.threads (i, true) (s.descent i)) (i, false)
          (.releasing (s.held i).writes (s.held i).leafLocks)⟩, s.want⟩

end

/-- A tree that nobody works on. -/
def Quiescent (s : Scans W) : Prop := s.descents.Quiescent ∧ ∀ i, s.want i = none

/-! ## Deadlocks -/

/-- The thread waits for the lock of the leaf. -/
def Wants (s : Scans W) (i : W) (pid : Nat) (mode : LockMode) : Prop :=
  s.want i = some mode ∧ ∃ key parent, s.descent i = .top key (.id pid) true parent

/-- Thread `i` waits for a lock that thread `j` holds, or for a writer that readers have to
let pass. -/
inductive WaitsFor (s : Scans W) (i j : W) : Prop
  | lock {pid : Nat} {mode mode' : LockMode} {b : Bool} (hi : s.Wants i pid mode)
      (hj : (pid, mode') ∈ (s.descents.threads (j, b)).leafLocks)
      (hconflict : ¬ (mode = .shared ∧ mode' = .shared))
  | writer {pid : Nat} (hi : s.Wants i pid .shared) (hj : s.Wants j pid .exclusive)

/-- Some threads wait for each other in a cycle. -/
def Deadlock (s : Scans W) : Prop := ∃ i, Relation.TransGen s.WaitsFor i i

end Scans

/-! ## What one step of a descent can do -/

/-- The key a descent is for. -/
def Thread.aim : Thread → Option Key
  | .top key _ _ _ | .read _ key _ _ | .checked _ key _ _ | .lockedCur key _ _ => some key
  | .lockedLeaf _ key _ _ | .inLeaf _ key _ _ => some key
  | _ => none

/-- The leaf a descent has come to. -/
def Thread.target : Thread → Option Nat
  | .top _ (.id pid) true _ | .lockedLeaf _ _ pid _ | .inLeaf _ _ pid _ => some pid
  | _ => none

section

variable {free : LockMode → Nat → Prop} {m m' : Memory} {t t' : Thread}

/-- The key stays the same. -/
theorem Move.aim (h : Move free m t m' t') {key : Key} (ht : t'.aim = some key) :
    t.aim = some key ∨ t = .idle := by
  cases h with
  | start => exact .inr rfl
  | relabel => exact .inl ht
  | tryRead => exact .inl ht
  | check => exact .inl ht
  | unmarked => exact .inl ht
  | descend => exact .inl ht
  | upgradeCur => exact .inl ht
  | lockLeaf => exact .inl ht
  | checkLeaf => exact .inl ht
  | upgradeLeaf => exact .inl ht
  | unmarkedLeaf => exact .inl ht
  | _ => cases ht

/-- A leaf is found at the root or below the node that is read. -/
theorem Move.target (h : Move free m t m' t') {q : Nat} (ht : t'.target = some q) :
    t.target = some q ∨ t = .idle ∨ ∃ key cur parent, t = .checked false key cur parent ∧
      t' = .top key (.id q) true (some cur) ∧ m.Reads cur key (.id q) true := by
  cases h with
  | start => exact .inr (.inl rfl)
  | relabel => exact .inl ht
  | @descend key cur parent child isLeaf hread =>
    cases child with
    | inner ptr => cases ht
    | id pid =>
      cases isLeaf with
      | false => cases ht
      | true =>
        obtain rfl : pid = q := Option.some.inj ht
        exact .inr (.inr ⟨key, cur, parent, rfl, rfl, hread⟩)
  | @unmarked _ cur =>
    exfalso
    obtain ⟨_ | _, _⟩ := cur <;> cases ht
  | lockLeaf => exact .inl ht
  | checkLeaf => exact .inl ht
  | upgradeLeaf => exact .inl ht
  | unmarkedLeaf => exact .inl ht
  | _ => cases ht

/-- Fences move only where a locked leaf is split, and the low ones never. -/
theorem Move.leaves (h : Move free m t m' t') :
    m'.leaves = m.leaves ∨ ∃ pid fences key, (pid, .exclusive) ∈ t.leafLocks ∧
      m.leaves[pid]? = some fences ∧ m'.leaves = m.splitFences pid fences key := by
  cases h with
  | splitRootLeaf hpid => exact .inr ⟨_, _, _, List.mem_singleton_self _, hpid, rfl⟩
  | splitLeaf hpid => exact .inr ⟨_, _, _, List.mem_singleton_self _, hpid, rfl⟩
  | _ => exact .inl rfl

/-- The fences of a leaf that the thread has not locked. -/
theorem Move.fences (h : Move free m t m' t') {pid : Nat} (hpid : pid < m.leaves.length)
    (hx : (pid, .exclusive) ∉ t.leafLocks) : m'.leaves[pid]? = m.leaves[pid]? := by
  obtain heq | ⟨q, fences, key, hq, -, heq⟩ := h.leaves
  · rw [heq]
  · have hne : q ≠ pid := fun he => hx (he ▸ hq)
    rw [heq, Memory.splitFences, List.getElem?_append_left (by simpa using hpid),
      List.getElem?_set_ne hne]

theorem Move.low (h : Move free m t m' t') {pid : Nat} {fences : Key × Key}
    (hpid : m.leaves[pid]? = some fences) : ∃ high, m'.leaves[pid]? = some (fences.1, high) := by
  have hlt := (List.getElem?_eq_some_iff.1 hpid).1
  obtain heq | ⟨q, fences', key, -, hq, heq⟩ := h.leaves
  · exact ⟨fences.2, by rw [heq]; exact hpid⟩
  · rw [heq, Memory.splitFences, List.getElem?_append_left (by simpa using hlt), List.getElem?_set]
    split
    · next he =>
      subst he
      rw [if_pos hlt]
      obtain rfl := Option.some.inj (hq.symm.trans hpid)
      exact ⟨key, rfl⟩
    · exact ⟨fences.2, hpid⟩

end

/-! ## Scans go to the right -/

theorem update_swap {α β : Type} [DecidableEq α] (f : α → β) (a b : α) (x : β) :
    Function.update (Function.update f a (f b)) b x = Function.update (f ∘ Equiv.swap a b) b x := by
  funext c
  simp only [Function.update_apply, Function.comp_apply, Equiv.swap_apply_def]
  grind

namespace Descents

variable {V : Type} {s : Descents V} {sh : Shape}

/-- The leaf of a key that is the high fence of another leaf lies behind that one. -/
theorem Inv.low_lt (h : s.Inv sh) {c : V} {mode : LockMode} {key : Key} {pid q : Nat}
    {parent : Option ReadGuard} {f g : Key × Key} (hc : s.threads c = .inLeaf mode key pid parent)
    (hf : s.mem.leaves[pid]? = some f) (hg : s.mem.leaves[q]? = some g) (hne : f.2 ≠ [])
    (hq : InRange g.1 g.2 f.2) : f.1 < g.1 := by
  have hpid := (List.getElem?_eq_some_iff.1 hf).1
  have hqlt := (List.getElem?_eq_some_iff.1 hg).1
  have hrf := h.fenced pid f hf
  have hrg := h.fenced q g hg
  have hknow := h.threads c
  rw [hc] at hknow
  have hcover := hknow.2.1
  rw [Memory.Covers, hrf] at hcover
  have hlt : f.1 < f.2 := hcover.1.trans_lt (hcover.2.resolve_left hne)
  by_contra hle
  rw [not_lt] at hle
  -- otherwise both leaves are responsible for the low fence
  have heq : pid = q := by
    refine h.shaped.leaf_unique (k := f.1) hpid hqlt ?_ ?_
    · rw [hrf]
      exact ⟨le_rfl, .inr hlt⟩
    · rw [hrg]
      exact ⟨hle, hq.2.imp_right hlt.trans⟩
  subst heq
  obtain rfl := Option.some.inj (hf.symm.trans hg)
  exact hq.2.elim hne (lt_irrefl _)

/-- The indices of the threads do not matter. -/
theorem Inv.comp {V' : Type} (h : s.Inv sh) (σ : V' ≃ V) : Inv ⟨s.mem, s.threads ∘ σ⟩ sh := by
  refine ⟨h.shaped, h.fenced, fun c => h.owns (σ c), fun ptr hptr hv => ?_,
    fun c c' hne => h.apart _ _ (σ.injective.ne hne), fun c => h.threads (σ c)⟩
  obtain ⟨c, hc⟩ := h.owner ptr hptr hv
  obtain ⟨c', rfl⟩ := σ.surjective c
  exact ⟨c', hc⟩

end Descents

namespace Scans

variable {W : Type} {s s' : Scans W}

/-- Every scan that holds a leaf is on its way to one further right. -/
structure Rightwards (s : Scans W) : Prop where
  inv : ∃ sh, s.descents.Inv sh
  held : ∀ i, s.held i = .idle ∨ ∃ mode key pid parent, s.held i = .inLeaf mode key pid parent
  aims : ∀ i mode key₀ pid parent key, s.held i = .inLeaf mode key₀ pid parent →
    (s.descent i).aim = some key → key ≠ [] ∧ ∃ lo, s.descents.mem.leaves[pid]? = some (lo, key)
  right : ∀ i mode key₀ pid parent q f, s.held i = .inLeaf mode key₀ pid parent →
    (s.descent i).target = some q → s.descents.mem.leaves[pid]? = some f →
    ∃ g, s.descents.mem.leaves[q]? = some g ∧ f.1 < g.1

namespace Rightwards

/-- A descent that reads a node by its version finds a leaf to the right. -/
theorem found (h : s.Rightwards) {i : W} {mode : LockMode} {key₀ : Key} {pid q : Nat}
    {parent parent' : Option ReadGuard} {f : Key × Key} {key : Key} {cur : ReadGuard}
    (hheld : s.held i = .inLeaf mode key₀ pid parent) (hf : s.descents.mem.leaves[pid]? = some f)
    (ht : s.descent i = .checked false key cur parent')
    (hread : s.descents.mem.Reads cur key (.id q) true)
    (hstable : ∀ ptr v, cur = ⟨.inner ptr, v⟩ → s.descents.mem.versions ptr = v) :
    ∃ g, s.descents.mem.leaves[q]? = some g ∧ f.1 < g.1 := by
  obtain ⟨sh, hinv⟩ := h.inv
  have hknow := hinv.threads (i, false)
  rw [show s.descents.threads (i, false) = _ from ht] at hknow
  obtain ⟨ptr, hnode, hptr, -, -, hway⟩ := Memory.descends hinv.shaped hknow.2 hread
  have hway := hway (hstable ptr cur.version (by rw [← hnode]))
  have hq : q < s.descents.mem.leaves.length := hway.alive
  obtain ⟨g, hg⟩ : ∃ g, s.descents.mem.leaves[q]? = some g := ⟨_, List.getElem?_eq_getElem hq⟩
  obtain ⟨hne, lo, hlo⟩ := h.aims i mode key₀ pid parent key hheld (by rw [ht]; rfl)
  obtain rfl : f = (lo, key) := Option.some.inj (hf.symm.trans hlo)
  refine ⟨g, hg, hinv.low_lt hheld hf hg hne ?_⟩
  have hcover := hway.covers
  rwa [Memory.Covers, hinv.fenced q g hg] at hcover

/-- Nobody moves the fences of a leaf that a scan holds. -/
theorem fences (h : s.Rightwards) {i j : W} {m : Memory} {t : Thread}
    (hmove : Move (s.descents.Free (i, false)) s.descents.mem (s.descent i) m t) {mode : LockMode}
    {key : Key} {pid : Nat} {parent : Option ReadGuard}
    (hheld : s.held j = .inLeaf mode key pid parent) :
    m.leaves[pid]? = s.descents.mem.leaves[pid]? := by
  obtain ⟨sh, hinv⟩ := h.inv
  have hlock : (pid, mode) ∈ (s.held j).leafLocks := by
    rw [hheld]
    exact List.mem_singleton_self _
  refine hmove.fences ((hinv.owns (j, true)).leaves _ hlock) fun hx => ?_
  have := (hinv.apart (j, true) (i, false) (by simp)).leaves pid mode .exclusive hlock hx
  exact LockMode.noConfusion this.2

/-- A scan's next descent starts above the leaves, as it holds one that is not the last. -/
theorem root_inner (h : s.Rightwards) {pid q : Nat} {f : Key × Key}
    (hf : s.descents.mem.leaves[pid]? = some f) (hne : f.2 ≠ []) :
    s.descents.mem.root ≠ .id q := by
  intro hroot
  obtain ⟨sh, hinv⟩ := h.inv
  have hshaped := hinv.shaped
  rw [hroot] at hshaped
  have hpid : pid = q := hshaped.leaf_eq_root (List.getElem?_eq_some_iff.1 hf).1
  have hrange := hshaped.root_range
  rw [← hpid, hinv.fenced pid f hf] at hrange
  exact hne (congrArg Prod.snd hrange)

variable [DecidableEq W]

/-- A step of one descent, which goes to the right if its scan holds a leaf. -/
theorem moved (h : s.Rightwards) {i : W} {m : Memory} {t : Thread} {want : W → Option LockMode}
    (hmove : Move (s.descents.Free (i, false)) s.descents.mem (s.descent i) m t)
    (haims : ∀ mode key₀ pid parent key, s.held i = .inLeaf mode key₀ pid parent →
      t.aim = some key → key ≠ [] ∧ ∃ lo, s.descents.mem.leaves[pid]? = some (lo, key))
    (hright : ∀ mode key₀ pid parent q f, s.held i = .inLeaf mode key₀ pid parent →
      t.target = some q → s.descents.mem.leaves[pid]? = some f →
      ∃ g, s.descents.mem.leaves[q]? = some g ∧ f.1 < g.1) :
    Rightwards ⟨s.setDescent m i t, want⟩ := by
  have hheld : ∀ j, Scans.held ⟨s.setDescent m i t, want⟩ j = s.held j :=
    fun j => Function.update_of_ne (by simp) ..
  have hother : ∀ j, j ≠ i → Scans.descent ⟨s.setDescent m i t, want⟩ j = s.descent j :=
    fun j hj => Function.update_of_ne (by simpa using hj) ..
  have hself : Scans.descent ⟨s.setDescent m i t, want⟩ i = t := Function.update_self ..
  obtain ⟨sh, hinv⟩ := h.inv
  refine ⟨hinv.step (.move hmove), fun j => hheld j ▸ h.held j, ?_, ?_⟩
  · intro j mode key₀ pid parent key hj haim
    rw [hheld] at hj
    change _ ∧ ∃ lo, m.leaves[pid]? = _
    rw [h.fences hmove hj]
    by_cases he : j = i
    · subst he
      rw [hself] at haim
      exact haims mode key₀ pid parent key hj haim
    · rw [hother j he] at haim
      exact h.aims j mode key₀ pid parent key hj haim
  · intro j mode key₀ pid parent q f hj htarget hf
    rw [hheld] at hj
    change m.leaves[pid]? = _ at hf
    rw [h.fences hmove hj] at hf
    obtain ⟨g, hg, hlt⟩ : ∃ g, s.descents.mem.leaves[q]? = some g ∧ f.1 < g.1 := by
      by_cases he : j = i
      · subst he
        rw [hself] at htarget
        exact hright mode key₀ pid parent q f hj htarget hf
      · rw [hother j he] at htarget
        exact h.right j mode key₀ pid parent q f hj htarget hf
    obtain ⟨high, hhigh⟩ := hmove.low hg
    exact ⟨(g.1, high), hhigh, hlt⟩

theorem exchanged (h : s.Rightwards) {i : W} {want : W → Option LockMode}
    (hleaf : s.descent i = .idle ∨ ∃ mode key pid parent, s.descent i = .inLeaf mode key pid parent) :
    Rightwards ⟨⟨s.descents.mem,
      Function.update (Function.update s.descents.threads (i, true) (s.descent i)) (i, false)
        (.releasing (s.held i).writes (s.held i).leafLocks)⟩, want⟩ := by
  obtain ⟨sh, hinv⟩ := h.inv
  generalize hs' : Scans.mk ⟨s.descents.mem, _⟩ want = s'
  have hmem : s'.descents.mem = s.descents.mem := by rw [← hs']
  have hself : s'.held i = s.descent i ∧
      s'.descent i = .releasing (s.held i).writes (s.held i).leafLocks := by
    rw [← hs']
    exact ⟨(Function.update_of_ne (by simp) ..).trans (Function.update_self ..),
      Function.update_self ..⟩
  have hother : ∀ j, j ≠ i → s'.held j = s.held j ∧ s'.descent j = s.descent j := by
    intro j hj
    rw [← hs']
    exact ⟨(Function.update_of_ne (by simp) ..).trans (Function.update_of_ne (by simpa using hj) ..),
      (Function.update_of_ne (by simpa using hj) ..).trans (Function.update_of_ne (by simp) ..)⟩
  refine ⟨?_, fun j => ?_, fun j mode key₀ pid parent key hj haim => ?_,
    fun j mode key₀ pid parent q f hj htarget hf => ?_⟩
  · -- the two cursors change places, then the descent drops what it has
    have hstep := (hinv.comp (Equiv.swap (i, true) (i, false))).step
      (.move (i := (i, false)) .fail)
    rw [← update_swap] at hstep
    simp only [Function.comp_apply, Equiv.swap_apply_right] at hstep
    rw [← hs']
    exact hstep
  · by_cases he : j = i
    · rw [he, hself.1]
      exact hleaf
    · rw [(hother j he).1]
      exact h.held j
  · by_cases he : j = i
    · rw [he, hself.2] at haim
      cases haim
    · rw [(hother j he).1] at hj
      rw [(hother j he).2] at haim
      rw [hmem]
      exact h.aims j mode key₀ pid parent key hj haim
  · by_cases he : j = i
    · rw [he, hself.2] at htarget
      cases htarget
    · rw [(hother j he).1] at hj
      rw [(hother j he).2] at htarget
      rw [hmem] at hf ⊢
      exact h.right j mode key₀ pid parent q f hj htarget hf

/-- Without torn reads every step keeps the order. -/
theorem step (h : s.Rightwards) (hs : s.Step false s') : s'.Rightwards := by
  cases hs with
  | @move i m t hwant hstart hroute hmove =>
    refine h.moved hmove (fun mode key₀ pid parent key hheld haim => ?_)
      (fun mode key₀ pid parent q f hheld htarget hf => ?_)
    · obtain haim | hidle := hmove.aim haim
      · exact h.aims i mode key₀ pid parent key hheld haim
      · rw [hstart hidle] at hheld
        cases hheld
    · obtain htarget | hidle | ⟨key, cur, parent', ht, rfl, hread⟩ := hmove.target htarget
      · exact h.right i mode key₀ pid parent q f hheld htarget hf
      · rw [hstart hidle] at hheld
        cases hheld
      · refine h.found hheld hf ht hread fun ptr v hcur => ?_
        subst hcur
        obtain hv | ⟨hno | hidle, -⟩ := hroute key ptr v parent' (.id q) true ht rfl
        · exact hv
        · cases hno
        · rw [hidle] at hheld
          cases hheld
  | @next i mode key pid parent fences hidle hheld hfences hright =>
    have hstart : Move (s.descents.Free (i, false)) s.descents.mem .idle s.descents.mem _ :=
      .start fences.2
    rw [← hidle] at hstart
    refine h.moved hstart (fun mode' key₀ pid' parent' key' hheld' haim => ?_)
      (fun mode' key₀ pid' parent' q f hheld' htarget hf => ?_)
    · obtain rfl : fences.2 = key' := Option.some.inj haim
      obtain ⟨-, -, rfl, -⟩ := Thread.inLeaf.inj (hheld.symm.trans hheld')
      exact ⟨hright, fences.1, hfences⟩
    · cases hroot : s.descents.mem.root with
      | id r => exact absurd hroot (h.root_inner hfences hright)
      | inner ptr =>
        rw [hroot] at htarget
        cases htarget
  | request mode hwant htop => exact ⟨h.inv, h.held, h.aims, h.right⟩
  | @acquire i mode key pid parent hwant htop hpid hfree =>
    have hlock : Move (s.descents.Free (i, false)) s.descents.mem (.top key (.id pid) true parent)
        s.descents.mem (.lockedLeaf mode key pid parent) := .lockLeaf mode hpid hfree
    rw [← htop] at hlock
    refine h.moved hlock (fun mode' key₀ pid' parent' key' hheld haim => ?_)
      (fun mode' key₀ pid' parent' q f hheld htarget hf => ?_)
    · exact h.aims i mode' key₀ pid' parent' key' hheld (by rw [htop]; exact haim)
    · exact h.right i mode' key₀ pid' parent' q f hheld (by rw [htop]; exact htarget) hf
  | exchange hwant hleaf => exact h.exchanged hleaf

theorem run (h : s.Rightwards) (hs : Relation.ReflTransGen (Step false) s s') : s'.Rightwards := by
  induction hs with
  | refl => exact h
  | tail _ hstep ih => exact ih.step hstep

end Rightwards

theorem Quiescent.rightwards (h : s.Quiescent) : s.Rightwards := by
  refine ⟨h.1.inv, fun i => .inl (h.1.idle _), fun i mode key₀ pid parent key hheld => ?_,
    fun i mode key₀ pid parent q f hheld => ?_⟩
  all_goals
    rw [show s.held i = .idle from h.1.idle _] at hheld
    cases hheld

/-! ## The order of the waiting threads -/

/-- Where a thread waits: leaves from left to right, writers before readers. -/
def spot (s : Scans W) (pid : Nat) (mode : LockMode) : Key ×ₗ Bool :=
  toLex ((s.descents.mem.leaves.getD pid ([], [])).1, mode == .exclusive)

theorem Wants.unique {i : W} {p q : Nat} {mode mode' : LockMode} (h : s.Wants i p mode)
    (h' : s.Wants i q mode') : p = q ∧ mode = mode' := by
  obtain ⟨hmode, key, parent, htop⟩ := h
  obtain ⟨hmode', key', parent', htop'⟩ := h'
  obtain ⟨-, hid, -, -⟩ := Thread.top.inj (htop.symm.trans htop')
  exact ⟨PageID.id.inj hid, Option.some.inj (hmode.symm.trans hmode')⟩

theorem WaitsFor.wants {i j : W} (h : s.WaitsFor i j) : ∃ pid mode, s.Wants i pid mode := by
  cases h with
  | lock hi => exact ⟨_, _, hi⟩
  | writer hi => exact ⟨_, _, hi⟩

/-- A thread that is waited for waits itself further on. -/
theorem Rightwards.spot_lt (h : s.Rightwards) {i j : W} (hij : s.WaitsFor i j) {p q : Nat}
    {mode mode' : LockMode} (hi : s.Wants i p mode) (hj : s.Wants j q mode') :
    s.spot p mode < s.spot q mode' := by
  cases hij with
  | @lock pid _ mode'' b hi' hlock =>
    obtain ⟨rfl, rfl⟩ := hi.unique hi'
    obtain ⟨-, key, parent, htop⟩ := hj
    cases b with
    | false =>
      rw [show s.descents.threads (j, false) = _ from htop] at hlock
      cases hlock
    | true =>
      obtain hidle | ⟨mode₀, key₀, pid₀, parent₀, hheld⟩ := h.held j
      · rw [show s.descents.threads (j, true) = _ from hidle] at hlock
        cases hlock
      · rw [show s.descents.threads (j, true) = _ from hheld] at hlock
        obtain ⟨rfl, -⟩ := Prod.mk.inj (List.mem_singleton.1 hlock)
        obtain ⟨sh, hinv⟩ := h.inv
        have hpid := (hinv.owns (j, true)).leaves (p, mode₀) (by
          rw [show s.descents.threads (j, true) = _ from hheld]
          exact List.mem_singleton_self _)
        have hf := List.getElem?_eq_getElem hpid
        obtain ⟨g, hg, hlt⟩ := h.right j mode₀ key₀ p parent₀ q _ hheld (by rw [htop]; rfl) hf
        refine Prod.Lex.toLex_lt_toLex.2 (.inl ?_)
        rw [List.getD_eq_getElem?_getD, List.getD_eq_getElem?_getD, hf, hg]
        exact hlt
  | writer hi' hj' =>
    obtain ⟨rfl, rfl⟩ := hi.unique hi'
    obtain ⟨rfl, rfl⟩ := hj.unique hj'
    exact Prod.Lex.toLex_lt_toLex.2 (.inr ⟨rfl, (by decide : false < true)⟩)

theorem Rightwards.chain (h : s.Rightwards) {i j : W} (hij : Relation.TransGen s.WaitsFor i j)
    {p q : Nat} {mode mode' : LockMode} (hi : s.Wants i p mode) (hj : s.Wants j q mode') :
    s.spot p mode < s.spot q mode' := by
  induction hij generalizing q mode' with
  | single hij => exact h.spot_lt hij hi hj
  | tail _ hkj ih =>
    obtain ⟨r, mode₁, hk⟩ := hkj.wants
    exact (ih hk).trans (h.spot_lt hkj hk hj)

theorem Rightwards.no_deadlock (h : s.Rightwards) : ¬ s.Deadlock := by
  rintro ⟨i, hcycle⟩
  obtain ⟨j, hij, -⟩ := Relation.TransGen.head'_iff.1 hcycle
  obtain ⟨pid, mode, hi⟩ := hij.wants
  exact lt_irrefl _ (h.chain hcycle hi hi)

/-! ## A scan that waits for itself -/

/-- Two threads: a scan (`false`) and a writer (`true`), which holds no iterator. -/
def duo (m : Memory) (held scan write : Thread) (want : Option LockMode) : Scans Bool :=
  ⟨⟨m, fun
    | (false, true) => held
    | (false, false) => scan
    | (true, true) => .idle
    | (true, false) => write⟩, fun i => if i then none else want⟩

theorem duo_quiescent : (duo Descents.halves .idle .idle .idle none).Quiescent := by
  obtain ⟨sh₀, hinv₀⟩ := (Descents.fresh_quiescent Unit).inv
  obtain ⟨sh, hinv⟩ := hinv₀.run Descents.fresh_to_halves
  refine ⟨⟨?_, fun ptr hptr => ?_, sh, hinv.shaped, hinv.fenced⟩, by decide⟩
  · rintro ⟨_ | _, _ | _⟩ <;> rfl
  · obtain rfl : ptr = 0 := Nat.lt_one_iff.1 hptr
    decide

section

variable {m m' : Memory} {held scan scan' write write' : Thread}

theorem eq_duo {s : Scans Bool} (hidle : s.held true = .idle) (hwant : s.want true = none) :
    s = duo s.descents.mem (s.held false) (s.descent false) (s.descent true) (s.want false) := by
  obtain ⟨⟨m, threads⟩, want⟩ := s
  simp only [duo, Scans.mk.injEq, Descents.mk.injEq, true_and]
  refine ⟨?_, ?_⟩
  · funext ⟨i, b⟩
    cases i <;> cases b <;> first | rfl | exact hidle
  · funext i
    cases i <;> first | rfl | exact hwant

theorem duo_step {s s' : Scans Bool} (h : Step true s s') (hidle : s'.held true = .idle)
    (hwant : s'.want true = none) : Step true s
      (duo s'.descents.mem (s'.held false) (s'.descent false) (s'.descent true) (s'.want false)) :=
  eq_duo hidle hwant ▸ h

theorem duo_scan (hmove : Move (Descents.Free (duo m held scan write none).descents (false, false))
      m scan m' scan') (hstart : scan = .idle → held = .idle)
    (hroute : (duo m held scan write none).Routed true false scan') :
    Step true (duo m held scan write none) (duo m' held scan' write none) :=
  duo_step (.move (s := duo m held scan write none) (i := false) rfl hstart hroute hmove) rfl rfl

theorem duo_write (hmove : Move (Descents.Free (duo m held scan write none).descents (true, false))
      m write m' write') (hroute : (duo m held scan write none).Routed true true write') :
    Step true (duo m held scan write none) (duo m' held scan write' none) :=
  duo_step (.move (s := duo m held scan write none) (i := true) rfl (fun _ => rfl) hroute hmove)
    rfl rfl

end

/-- The parent of the two halves, as it is entered. -/
def overHalves : ReadGuard := ⟨.inner 0, 0⟩

/-- A thread enters one of the halves. -/
theorem enters_half (S : Thread → Scans Bool) (c : Bool × Bool)
    (hstep : ∀ {t t'}, Move ((S t).descents.Free c) Descents.halves t Descents.halves t' →
      (∀ key g parent, t = .checked false key g parent → g = overHalves) →
      Step true (S t) (S t'))
    {key : Key} {pid : Nat} (hpid : pid < Descents.halves.leaves.length)
    (hfree : ∀ t, (S t).descents.Free c .exclusive pid)
    (hread : Descents.halves.Reads overHalves key (.id pid) true) :
    Relation.ReflTransGen (Step true) (S .idle)
      (S (.inLeaf .exclusive key pid (some overHalves))) := by
  refine .head (hstep (.start key) nofun) ?_
  refine .head (hstep (.tryRead false Descents.loads_halves (by decide)) nofun) ?_
  refine .head (hstep (.check rfl) nofun) (.head (hstep (.descend hread) ?_) ?_)
  · rintro key g parent ⟨⟩
    rfl
  refine .head (hstep (.lockLeaf .exclusive hpid (hfree _)) nofun) ?_
  exact .single (hstep (.checkLeaf Descents.loads_halves) nofun)

/-- The scan holds the left half and is about to read the child for the right one. -/
theorem scan_holds_left : Relation.ReflTransGen (Step true)
    (duo Descents.halves .idle .idle .idle none)
    (duo Descents.halves (.inLeaf .exclusive [1] 0 (some overHalves))
      (.checked false [5] overHalves none) .idle none) := by
  have henter : Relation.ReflTransGen (Step true) (duo Descents.halves .idle .idle .idle none)
      (duo Descents.halves .idle (.inLeaf .exclusive [1] 0 (some overHalves)) .idle none) := by
    refine enters_half (fun t => duo Descents.halves .idle t .idle none) (false, false)
      (fun {t t'} hmove hstable => duo_scan hmove (fun _ => rfl) ?_) (by decide) (fun t => ?_) ?_
    · intro key ptr v parent child isLeaf ht _
      cases hstable key _ parent ht
      exact .inl rfl
    · rintro ⟨_ | _, _ | _⟩ hne mode' hlock
      · exact absurd rfl hne
      all_goals cases hlock
    · rintro ptr n ⟨⟩ ⟨⟩ -
      decide
  have hexchange : Step true
      (duo Descents.halves .idle (.inLeaf .exclusive [1] 0 (some overHalves)) .idle none)
      (duo Descents.halves (.inLeaf .exclusive [1] 0 (some overHalves)) (.releasing [] []) .idle
        none) := by
    exact duo_step (.exchange (i := false) rfl (.inr ⟨_, _, _, _, rfl⟩)) rfl rfl
  have hnext : Step true
      (duo Descents.halves (.inLeaf .exclusive [1] 0 (some overHalves)) .idle .idle none)
      (duo Descents.halves (.inLeaf .exclusive [1] 0 (some overHalves))
        (.top [5] (.inner 0) false none) .idle none) := by
    have hleaf : Descents.halves.leaves[0]? = some ([], [5]) := rfl
    exact duo_step (.next (i := false)
      (s := duo Descents.halves (.inLeaf .exclusive [1] 0 (some overHalves)) .idle .idle none)
      rfl rfl hleaf (List.cons_ne_nil 5 [])) rfl rfl
  refine henter.trans (.head hexchange (.head (duo_scan .finish nofun nofun) (.head hnext ?_)))
  refine .head (duo_scan (.tryRead false Descents.loads_halves (by decide)) nofun nofun) ?_
  exact .single (duo_scan (.check rfl) nofun nofun)

/-- The writer takes the right half and the parent. -/
theorem writer_takes_parent {held scan : Thread} (hheld : held.leafLocks = [(0, .exclusive)])
    (hscan : scan.leafLocks = []) :
    Relation.ReflTransGen (Step true) (duo Descents.halves held scan .idle none)
      (duo (Descents.halves.bump 0) held scan (.lockedParent 1 0) none) := by
  refine Relation.ReflTransGen.tail (b := duo Descents.halves held scan
    (.inLeaf .exclusive [7] 1 (some overHalves)) none) ?_
    (duo_write (.upgradeLeafParent rfl) nofun)
  refine enters_half (fun t => duo Descents.halves held scan t none) (true, false)
    (fun {t t'} hmove hstable => duo_write hmove ?_) (by decide) (fun t => ?_) ?_
  · intro key ptr v parent child isLeaf ht _
    cases hstable key _ parent ht
    exact .inl rfl
  · rintro ⟨_ | _, _ | _⟩ hne mode' hlock
    · rw [show (duo Descents.halves held scan t none).descents.threads (false, false) = scan from rfl,
        hscan] at hlock
      cases hlock
    · rw [show (duo Descents.halves held scan t none).descents.threads (false, true) = held from rfl,
        hheld] at hlock
      cases List.mem_singleton.1 hlock
    · exact absurd rfl hne
    · cases hlock
  · rintro ptr n ⟨⟩ ⟨⟩ -
    decide

/-- While the writer has the parent, the scan is led back to the leaf it holds. -/
theorem scan_led_back {held write : Thread} {key : Key} :
    Step true (duo (Descents.halves.bump 0) held (.checked false key overHalves none) write none)
      (duo (Descents.halves.bump 0) held (.top key (.id 0) true (some overHalves)) write none) := by
  refine duo_scan (.descend ?_) nofun ?_
  · rintro ptr n ⟨⟩ - hv
    exact absurd hv (by decide)
  · rintro _ ptr v parent child isLeaf ⟨⟩ ⟨⟩
    exact .inr ⟨.inl rfl, _, rfl, rfl, by decide⟩

theorem exists_self_wait : ∃ s₀ s : Scans Bool, s₀.Quiescent ∧
    Relation.ReflTransGen (Step true) s₀ s ∧ s.WaitsFor false false := by
  refine ⟨_, duo (Descents.halves.bump 0) (.inLeaf .exclusive [1] 0 (some overHalves))
    (.top [5] (.id 0) true (some overHalves)) (.lockedParent 1 0) (some .exclusive), duo_quiescent,
    ?_, ?_⟩
  · refine scan_holds_left.trans ((writer_takes_parent rfl rfl).trans (.head scan_led_back ?_))
    exact .single (duo_step (.request (i := false) LockMode.exclusive rfl rfl) rfl rfl)
  · exact .lock (b := true) ⟨rfl, [5], some overHalves, rfl⟩
      (List.mem_singleton_self (0, LockMode.exclusive)) nofun

/-! ## Results -/

end Scans

end BfTree
