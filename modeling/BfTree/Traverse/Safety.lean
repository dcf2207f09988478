import BfTree.Traverse.Invariant

/-!
# A descent lands on the right leaf

The invariant over all threads: the tree has a shape, every locked version word has one
owner, leaf locks exclude each other, and every thread knows what its guards vouch for.
-/

namespace BfTree

open Lib Memory

/-! ## Locks -/

/-- What a step does to the locks of a thread. -/
structure LockMove (free : LockMode → Nat → Prop) (m : Memory) (t : Thread) (m' : Memory)
    (t' : Thread) : Prop where
  nodup : t'.writes.Nodup
  alive : ∀ ptr ∈ t'.writes, ptr < m'.inners.length
  locked : ∀ ptr < m'.inners.length, isLocked (m'.versions ptr) = true ↔
    ptr ∈ t'.writes ∨ ptr ∉ t.writes ∧ ptr < m.inners.length ∧ isLocked (m.versions ptr) = true
  gained : ∀ ptr ∈ t'.writes, ptr ∉ t.writes →
    ptr < m.inners.length → isLocked (m.versions ptr) = false
  leafAlive : ∀ l ∈ t'.leafLocks, l.1 < m'.leaves.length
  leafGained : ∀ l ∈ t'.leafLocks, l ∉ t.leafLocks → l.1 < m.leaves.length → free l.2 l.1

/-- A thread holds the locks it thinks it holds. -/
structure Owns (m : Memory) (t : Thread) : Prop where
  nodup : t.writes.Nodup
  locked : ∀ ptr ∈ t.writes, ptr < m.inners.length ∧ isLocked (m.versions ptr) = true
  leaves : ∀ l ∈ t.leafLocks, l.1 < m.leaves.length

section

variable {free : LockMode → Nat → Prop} {m m' : Memory} {t t' : Thread} {sh : Shape}

theorem Owns.notMem (h : Owns m t) :
    ∀ ptr < m.inners.length, isLocked (m.versions ptr) = false → ptr ∉ t.writes := by
  intro ptr _ hv hmem
  rw [(h.locked ptr hmem).2] at hv
  cases hv

/-- A step that may add nodes but leaves the old versions alone. -/
theorem Owns.grow (h : Owns m t) (new : List Nat) (hw : t'.writes = new ++ t.writes)
    (hlen : m.inners.length ≤ m'.inners.length)
    (hver : ∀ ptr < m.inners.length, m'.versions ptr = m.versions ptr) (hnodup : new.Nodup)
    (hnew : ∀ ptr ∈ new, m.inners.length ≤ ptr ∧ ptr < m'.inners.length)
    (hlocked : ∀ ptr < m'.inners.length, m.inners.length ≤ ptr →
      (isLocked (m'.versions ptr) = true ↔ ptr ∈ new))
    (hleaves : m.leaves.length ≤ m'.leaves.length)
    (hl : ∀ l ∈ t'.leafLocks, l ∈ t.leafLocks ∨ l.1 < m'.leaves.length ∧
      (l.1 < m.leaves.length → free l.2 l.1)) :
    LockMove free m t m' t' where
  nodup := by
    rw [hw, List.nodup_append]
    refine ⟨hnodup, h.nodup, fun ptr hptr q hq => ?_⟩
    exact ((h.locked q hq).1.trans_le (hnew ptr hptr).1).ne'
  alive ptr hptr := by
    rw [hw] at hptr
    obtain hptr | hptr := List.mem_append.1 hptr
    · exact (hnew ptr hptr).2
    · exact (h.locked ptr hptr).1.trans_le hlen
  locked ptr hptr := by
    rw [hw, List.mem_append]
    by_cases hold : ptr < m.inners.length
    · have hnot : ptr ∉ new := fun hmem => absurd hold (not_lt.2 (hnew ptr hmem).1)
      rw [hver ptr hold]
      by_cases hmem : ptr ∈ t.writes
      · simp [hmem, (h.locked ptr hmem).2]
      · simp [hmem, hold, hnot]
    · have hnot : ptr ∉ t.writes := fun hmem => hold (h.locked ptr hmem).1
      rw [hlocked ptr hptr (not_lt.1 hold)]
      simp [hnot, hold]
  gained ptr hptr hnot hold := by
    rw [hw] at hptr
    obtain hptr | hptr := List.mem_append.1 hptr
    · exact absurd hold (not_lt.2 (hnew ptr hptr).1)
    · exact absurd hptr hnot
  leafAlive l hmem := by
    obtain hold | ⟨hnew, -⟩ := hl l hmem
    · exact (h.leaves l hold).trans_le hleaves
    · exact hnew
  leafGained l hmem hnot := by
    obtain hold | ⟨-, hnew⟩ := hl l hmem
    · exact absurd hold hnot
    · exact hnew

/-- A step that leaves versions and the number of nodes alone. -/
theorem Owns.stay (h : Owns m t) (hlen : m'.inners.length = m.inners.length)
    (hver : m'.versions = m.versions) (hleaves : m.leaves.length ≤ m'.leaves.length)
    (hw : t'.writes = t.writes)
    (hl : ∀ l ∈ t'.leafLocks, l ∈ t.leafLocks ∨ l.1 < m'.leaves.length ∧
      (l.1 < m.leaves.length → free l.2 l.1)) :
    LockMove free m t m' t' := by
  refine h.grow [] (by rw [hw, List.nil_append]) hlen.ge (fun _ _ => by rw [hver]) List.nodup_nil
    (by simp) (fun ptr hptr hge => ?_) hleaves hl
  rw [hlen] at hptr
  exact absurd hptr (not_lt.2 hge)

/-- A node is taken. -/
theorem Owns.take (h : Owns m t) {ptr : Nat} (hptr : ptr < m.inners.length)
    (hv : isLocked (m.versions ptr) = false) (hw : t'.writes = ptr :: t.writes)
    (hl : t'.leafLocks = t.leafLocks) : LockMove free m t (m.bump ptr) t' where
  nodup := by
    rw [hw, List.nodup_cons]
    refine ⟨fun hmem => ?_, h.nodup⟩
    rw [(h.locked ptr hmem).2] at hv
    cases hv
  alive q hq := by
    rw [hw] at hq
    obtain rfl | hq := List.mem_cons.1 hq
    · exact hptr
    · exact (h.locked q hq).1
  locked q hq := by
    rw [hw]
    simp only [Memory.bump, Function.update_apply]
    by_cases hqp : q = ptr
    · subst hqp
      simp [isLocked_add_two, hv]
    · rw [if_neg hqp]
      by_cases hmem : q ∈ t.writes
      · simp [hmem, (h.locked q hmem).2]
      · simp only [List.mem_cons, hqp, hmem, false_or, not_false_eq_true, true_and]
        exact ⟨fun hlk => ⟨hq, hlk⟩, And.right⟩
  gained q hq hnot _ := by
    rw [hw] at hq
    obtain rfl | hq := List.mem_cons.1 hq
    · exact hv
    · exact absurd hq hnot
  leafAlive l hmem := by rw [hl] at hmem; exact h.leaves l hmem
  leafGained l hmem hnot := by rw [hl] at hmem; exact absurd hmem hnot

/-- A node is given back. -/
theorem Owns.give (h : Owns m t) {ptr : Nat} (hw : t.writes = ptr :: t'.writes)
    (hl : t'.leafLocks = t.leafLocks) : LockMove free m t (m.bump ptr) t' where
  nodup := by
    have hnd := h.nodup
    rw [hw] at hnd
    exact (List.nodup_cons.1 hnd).2
  alive q hq := (h.locked q (by rw [hw]; exact List.mem_cons_of_mem _ hq)).1
  locked q hq := by
    have hnd := h.nodup
    rw [hw, List.nodup_cons] at hnd
    rw [hw]
    simp only [Memory.bump, Function.update_apply]
    by_cases hqp : q = ptr
    · subst hqp
      have hlk := (h.locked q (by rw [hw]; exact List.mem_cons_self)).2
      simp [isLocked_add_two, hlk, hnd.1]
    · rw [if_neg hqp]
      by_cases hmem : q ∈ t'.writes
      · simp [hmem, (h.locked q (by rw [hw]; exact List.mem_cons_of_mem _ hmem)).2]
      · simp only [List.mem_cons, hqp, hmem, false_or, not_false_eq_true, true_and]
        exact ⟨fun hlk => ⟨hq, hlk⟩, And.right⟩
  gained q hq hnot := absurd (by rw [hw]; exact List.mem_cons_of_mem _ hq) hnot
  leafAlive l hmem := by rw [hl] at hmem; exact h.leaves l hmem
  leafGained l hmem hnot := by rw [hl] at hmem; exact absurd hmem hnot

theorem Memory.Vouches.mono {g : ReadGuard} {P P' : Nat → Prop} (h : m.Vouches g P)
    (hP : ∀ ptr < m.inners.length, P ptr → P' ptr) : m.Vouches g P' := by
  obtain ⟨ptr, hnode, hptr, hv, hle, hp⟩ := h
  exact ⟨ptr, hnode, hptr, hv, hle, fun heq => hP ptr hptr (hp heq)⟩

/-- The version still stands. -/
theorem Memory.Vouches.current {ptr v : Nat} {P : Nat → Prop} (h : m.Vouches ⟨.inner ptr, v⟩ P)
    (hv : m.versions ptr = v) :
    ptr < m.inners.length ∧ isLocked (m.versions ptr) = false ∧ P ptr := by
  obtain ⟨q, hnode, hq, hlk, -, hp⟩ := h
  obtain rfl : ptr = q := by simpa using hnode
  exact ⟨hq, by rw [hv]; exact hlk, hp hv⟩

/-- The parent's check passes. -/
theorem Memory.Vouches.loads {g : ReadGuard} {P : Nat → Prop} (h : m.Vouches g P)
    (hload : m.Loads g.node g.version) : ∃ ptr, P ptr := by
  obtain ⟨ptr, hnode, hptr, -, -, hp⟩ := h
  exact ⟨ptr, hp (hload ptr hnode hptr)⟩

theorem Move.lockMove (h : Move free m t m' t') (ht : m.ThreadOk sh t) (ho : Owns m t) :
    LockMove free m t m' t' := by
  cases h with
  | start => exact ho.stay rfl rfl le_rfl rfl (by simp [Thread.leafLocks])
  | tryRead => exact ho.stay rfl rfl le_rfl rfl (by simp [Thread.leafLocks])
  | check => exact ho.stay rfl rfl le_rfl rfl (by simp [Thread.leafLocks])
  | unmarked => exact ho.stay rfl rfl le_rfl rfl (by simp [Thread.leafLocks])
  | descend => exact ho.stay rfl rfl le_rfl rfl (by simp [Thread.leafLocks])
  | upgradeCur hv =>
    obtain ⟨hptr, hlk, -⟩ := ht.2.current hv
    exact ho.take hptr hlk rfl rfl
  | upgradeParent hv =>
    obtain ⟨hptr, hlk, -⟩ := Vouches.current ht.1 hv
    exact ho.take hptr hlk rfl rfl
  | splitBelow =>
    refine ho.grow [] rfl (by simp) (fun ptr hptr => ?_) List.nodup_nil (by simp)
      (fun ptr hptr hge => ?_) le_rfl (by simp [Thread.leafLocks])
    · exact Function.update_of_ne hptr.ne _ _
    · obtain rfl : ptr = m.inners.length := by simp at hptr; omega
      simp [isLocked]
  | splitRoot =>
    refine ho.grow [m.inners.length + 1] rfl (by simp) (fun ptr hptr => ?_)
      (by simp) (by simp) (fun ptr hptr hge => ?_) le_rfl (by simp [Thread.leafLocks])
    · dsimp only
      rw [Function.update_of_ne (by omega), Function.update_of_ne hptr.ne]
    · obtain rfl | rfl : ptr = m.inners.length ∨ ptr = m.inners.length + 1 := by
        simp at hptr
        omega
      · simp [isLocked]
      · simp [isLocked]
  | lockLeaf _ hpid hfree =>
    refine ho.stay rfl rfl le_rfl rfl ?_
    simp [Thread.leafLocks, hpid, hfree]
  | checkLeaf => exact ho.stay rfl rfl le_rfl rfl (by simp [Thread.leafLocks])
  | upgradeLeaf hfree =>
    have hpid := ho.leaves _ (List.mem_singleton.2 rfl)
    refine ho.stay rfl rfl le_rfl rfl ?_
    simp only [Thread.leafLocks, List.mem_singleton, forall_eq]
    exact .inr ⟨hpid, fun _ => hfree⟩
  | unmarkedLeaf => exact ho.stay rfl rfl le_rfl rfl (by simp [Thread.leafLocks])
  | splitRootLeaf hpid =>
    have hpid' := (List.getElem?_eq_some_iff.1 hpid).1
    refine ho.grow [] rfl (by simp) (fun ptr hptr => ?_) List.nodup_nil (by simp)
      (fun ptr hptr hge => ?_) (by simp [splitFences]) ?_
    · exact Function.update_of_ne hptr.ne _ _
    · obtain rfl : ptr = m.inners.length := by simp at hptr; omega
      simp [isLocked]
    · simp [Thread.leafLocks, splitFences]
  | upgradeLeafParent hv =>
    obtain ⟨hptr, hlk, -⟩ := Vouches.current ht.1 hv
    exact ho.take hptr hlk rfl rfl
  | splitLeaf =>
    exact ho.stay (by simp) rfl (by simp [splitFences]) rfl
      (by simp [Thread.leafLocks, splitFences])
  | relabel => exact ho.stay (by simp) rfl le_rfl rfl fun l hl => .inl hl
  | unlockNode => exact ho.give rfl rfl
  | unlockLeaf =>
    refine ho.stay rfl rfl le_rfl rfl fun l hl => .inl ?_
    exact List.mem_cons_of_mem _ hl
  | finish => exact ho.stay rfl rfl le_rfl rfl (by simp [Thread.leafLocks])
  | fail => exact ho.stay rfl rfl le_rfl rfl fun l hl => .inl hl


/-! ## Shapes -/

/-- The fences of the leaves are their ranges. -/
def Memory.Fenced (m : Memory) (sh : Shape) : Prop :=
  ∀ pid fences, m.leaves[pid]? = some fences → sh.range (.id pid) = fences

theorem Memory.covers_root (h : Shaped m.root m.inners m.leaves.length sh) (key : Key) :
    Covers sh m.root key := by
  rw [Covers, h.root_range]
  exact inRange_nil_nil key

theorem PageID.eq_inner {x : PageID} (h : x.isLeaf = false) : ∃ ptr, x = .inner ptr := by
  cases x with
  | id pid => cases h
  | inner ptr => exact ⟨ptr, rfl⟩

/-- The check of the parent makes a node known whose version was read before. -/
theorem Memory.entered (h : Shaped m.root m.inners m.leaves.length sh) {key : Key} {cur : ReadGuard}
    {parent : Option ReadGuard} (hl : m.Leads sh key cur.node false parent)
    (hv : isLocked cur.version = false) (hs : m.SeenBelow cur parent)
    (hparent : m.CheckParent cur.node parent) : m.Vouches cur (m.Entered sh key parent) := by
  have hknown : m.Seen cur ∧ Covers sh cur.node key ∧ cur.node.isLeaf = false ∧
      (parent = none → m.root = cur.node) := by
    cases parent with
    | none =>
      rw [Memory.CheckParent] at hparent
      exact ⟨hs, by rw [hparent]; exact covers_root h key, hl.2, fun _ => hparent.symm⟩
    | some p =>
      obtain ⟨_, hway⟩ := Vouches.loads hl hparent
      obtain ⟨_, hseen⟩ := Vouches.loads hs hparent
      exact ⟨hseen, hway.covers, hway.kind, nofun⟩
  obtain ⟨hseen, hcovers, hkind, hroot⟩ := hknown
  obtain ⟨ptr, hnode⟩ := PageID.eq_inner hkind
  have hptr := hseen.alive
  rw [hnode] at hptr hcovers hroot
  exact ⟨ptr, hnode, hptr, hv, hseen.le ptr hnode, fun _ => ⟨hcovers, hroot⟩⟩

/-- The child that is read is the one for the key, while the version stands. -/
theorem Memory.descends (h : Shaped m.root m.inners m.leaves.length sh) {key : Key} {cur : ReadGuard}
    {parent : Option ReadGuard} {child : PageID} {isLeaf : Bool}
    (he : m.Vouches cur (m.Entered sh key parent)) (hread : m.Reads cur key child isLeaf) :
    m.Leads sh key child isLeaf (some cur) := by
  obtain ⟨ptr, hnode, hptr, hv, hle, hp⟩ := he
  refine ⟨ptr, hnode, hptr, hv, hle, fun heq => ?_⟩
  have hn := List.getElem?_eq_getElem hptr
  obtain ⟨hvalue, hkind⟩ := hread ptr _ hnode hn heq
  obtain ⟨x, hx, hc, hin, -⟩ := (h.inner ptr _ hn).route (hp heq).1
  obtain rfl : child = x := Option.some.inj (hvalue.symm.trans hx)
  exact ⟨hc.alive, hc.parent, hin, hc.kind.trans hkind⟩

theorem Memory.fenced_split {pid : Nat} {fences : Key × Key} {key : Key} {sh' : Shape}
    (hf : m.Fenced sh) (hleaves : m'.leaves = m.splitFences pid fences key)
    (hold : ∀ q, q ≠ pid → q < m.leaves.length → sh'.range (.id q) = sh.range (.id q))
    (hlow : sh'.range (.id pid) = (fences.1, key))
    (hhigh : sh'.range (.id m.leaves.length) = (key, fences.2)) : m'.Fenced sh' := by
  intro q f hq
  rw [hleaves, splitFences, List.getElem?_append, List.length_set] at hq
  split at hq
  · next hlt =>
    rw [List.getElem?_set] at hq
    split at hq
    · next heq =>
      obtain ⟨-, rfl⟩ : _ ∧ (fences.1, key) = f := by simpa using hq
      rw [← heq, hlow]
    · next hne =>
      rw [hold q (Ne.symm hne) hlt]
      exact hf q f hq
  · next hge =>
    obtain ⟨heq, rfl⟩ : q - m.leaves.length = 0 ∧ (key, fences.2) = f := by
      cases hi : q - m.leaves.length with
      | zero => simpa [hi] using hq
      | succ i => simp [hi] at hq
    obtain rfl : q = m.leaves.length := by omega
    exact hhigh

theorem Memory.Alive.ne_inner {x : PageID} (h : m.Alive x) {ptr : Nat}
    (hptr : m.inners.length ≤ ptr) : x ≠ .inner ptr := by
  rintro rfl
  exact absurd h (not_lt.2 hptr)

theorem Memory.Alive.ne_id {x : PageID} (h : m.Alive x) : x ≠ .id m.leaves.length := by
  rintro rfl
  exact absurd h (lt_irrefl _)

/-- What one step preserves: the tree keeps a shape, other threads' nodes stay as they
are, and the thread knows what it should know next. -/
theorem Move.spec (h : Move free m t m' t') (hsh : Shaped m.root m.inners m.leaves.length sh)
    (hf : m.Fenced sh) (ho : Owns m t) (ht : m.ThreadOk sh t) :
    ∃ sh', Shaped m'.root m'.inners m'.leaves.length sh' ∧ m'.Fenced sh' ∧
      Frame t m sh m' sh' ∧ m'.ThreadOk sh' t' := by
  have hfree := ho.notMem
  cases h with
  | start => exact ⟨sh, hsh, hf, .refl .., hsh.root_alive, rfl⟩
  | @tryRead key cur parent split v hload hv =>
    refine ⟨sh, hsh, hf, .refl .., ht, hv, ?_⟩
    have hseen : m.Alive cur → m.Seen ⟨cur, v⟩ := by
      refine fun hx => ⟨hx, fun ptr hnode => ?_⟩
      obtain rfl : cur = .inner ptr := hnode
      exact (hload ptr rfl hx).ge
    cases parent with
    | none => exact hseen ht.1
    | some p => exact Vouches.mono ht fun _ _ hway => hseen hway.alive
  | check hparent =>
    exact ⟨sh, hsh, hf, .refl .., ht.1, entered hsh ht.1 ht.2.1 ht.2.2 hparent⟩
  | unmarked => exact ⟨sh, hsh, hf, .refl .., ht.1⟩
  | descend hread => exact ⟨sh, hsh, hf, .refl .., descends hsh ht.2 hread⟩
  | upgradeCur hv =>
    exact ⟨sh, hsh, hf, .bump .., (Frame.bump _ m sh _).leads hfree ht.1, (ht.2.current hv).2.2.2⟩
  | upgradeParent hv =>
    exact ⟨sh, hsh, hf, .bump .., (Vouches.current ht.1 hv).2.2.parent⟩
  | @splitBelow ptr par ver n p left sibling key next rest hn hp hsplit hbuild hspace =>
    have hparent : sh.parent (.inner ptr) = some par := ht
    refine ⟨_, (hsh.splitBelow hn hparent hp hsplit hbuild hspace).1, ?_, ?_, trivial⟩
    · intro pid fences hpid
      rw [← hf pid fences hpid]
      simp [Shape.splitInner, Shape.split]
    · refine .split (.inner ptr) (by simp) le_rfl (fun q hq => Function.update_of_ne hq.ne _ _)
        (.inl ⟨ptr, by simp [Thread.writes], rfl⟩) (.inl rfl) (fun q hq => ?_)
        (fun z hz hne => ?_) fun z q hz hne hq hw => ?_
      · obtain rfl : q = par := Option.some.inj (hq.symm.trans hparent)
        simp [Thread.writes]
      · simp [Shape.splitInner, Shape.split, hne, hz.ne_inner le_rfl]
      · have hqp : q ≠ ptr := by
          rintro rfl
          simp [Thread.writes] at hw
        simp [Shape.splitInner, hz.ne_inner le_rfl, hq, hqp]
  | @splitRoot key ptr ver n left sibling top splitKey next rest hn hsplit hbuild htop =>
    have hroot : m.root = .inner ptr := ht.2 rfl
    rw [hroot] at hsh
    refine ⟨_, hsh.splitRoot hn hsplit hbuild htop, ?_, ?_, trivial⟩
    · intro pid fences hpid
      rw [← hf pid fences hpid]
      simp [Shape.splitInner, Shape.split, Shape.raise]
    · refine .split (.inner ptr) (by simp) le_rfl (fun q hq => ?_)
        (.inl ⟨ptr, by simp [Thread.writes], rfl⟩) (.inr hroot) (fun q hq => ?_)
        (fun z hz hne => ?_) fun z q hz hne hq hw => ?_
      · dsimp only
        rw [Function.update_of_ne (by omega), Function.update_of_ne hq.ne]
      · rw [hsh.root_parent] at hq
        cases hq
      · simp [Shape.splitInner, Shape.split, Shape.raise, hne, hz.ne_inner le_rfl,
          hz.ne_inner (Nat.le_succ _)]
      · have hqp : q ≠ ptr := by
          rintro rfl
          simp [Thread.writes] at hw
        simp [Shape.splitInner, Shape.raise, hne, hz.ne_inner le_rfl,
          hz.ne_inner (Nat.le_succ _), hq, hqp]
  | lockLeaf => exact ⟨sh, hsh, hf, .refl .., ht⟩
  | @checkLeaf mode key pid parent hparent =>
    refine ⟨sh, hsh, hf, .refl .., ht, ?_⟩
    cases parent with
    | none =>
      rw [CheckParent] at hparent
      exact ⟨by rw [hparent]; exact covers_root hsh key, fun _ => hparent.symm⟩
    | some p =>
      obtain ⟨_, hway⟩ := Vouches.loads ht hparent
      exact ⟨hway.covers, by simp⟩
  | upgradeLeaf => exact ⟨sh, hsh, hf, .refl .., ht⟩
  | unmarkedLeaf => exact ⟨sh, hsh, hf, .refl .., ht.1⟩
  | @splitRootLeaf key pid ver fences splitKey top hpid hlo hhi htop =>
    have hroot : m.root = .id pid := ht.2.2 rfl
    have hrange := hf pid fences hpid
    have hlt := (List.getElem?_eq_some_iff.1 hpid).1
    rw [hroot] at hsh
    have hkey : splitKey ≠ [] := by
      rintro rfl
      exact absurd hlo (not_lt.2 (nil_le _))
    have hne : PageID.id pid ≠ .id m.leaves.length := Memory.Alive.ne_id (m := m) hlt
    refine ⟨_, by simpa [splitFences] using hsh.splitRootLeaf hkey htop, ?_, ?_, trivial⟩
    · refine fenced_split hf rfl (fun q hq hlt => ?_) ?_ ?_
      · have hq' : PageID.id q ≠ .id m.leaves.length := Memory.Alive.ne_id (m := m) hlt
        simp [Shape.raise, Shape.split, hq, hq']
      · simp [Shape.raise, Shape.split, hne, hrange]
      · simp [Shape.raise, Shape.split, hrange]
    · refine .split (.id pid) (by simp) (by simp [splitFences])
        (fun q hq => Function.update_of_ne hq.ne _ _)
        (.inr ⟨pid, by simp [Thread.leafLocks], rfl⟩) (.inr hroot) (fun q hq => ?_)
        (fun z hz hne => ?_) fun z q hz hne hq hw => ?_
      · rw [hsh.root_parent] at hq
        cases hq
      · simp [Shape.split, Shape.raise, hne, hz.ne_inner le_rfl, hz.ne_id]
      · simp [Shape.split, Shape.raise, hne, hz.ne_inner le_rfl, hz.ne_id, hq]
  | upgradeLeafParent hv =>
    exact ⟨sh, hsh, hf, .bump .., (Vouches.current ht.1 hv).2.2.parent⟩
  | @splitLeaf pid par fences splitKey p hpid hlo hhi hp hspace =>
    have hparent : sh.parent (.id pid) = some par := ht
    have hrange := hf pid fences hpid
    have hlt := (List.getElem?_eq_some_iff.1 hpid).1
    have hne : PageID.id pid ≠ .id m.leaves.length := Memory.Alive.ne_id (m := m) hlt
    refine ⟨_, by
      simpa [splitFences] using (hsh.splitLeaf hp hlt hparent (by rw [hrange]; exact hlo)
        (by rw [hrange]; exact hhi) hspace).1, ?_, ?_, trivial⟩
    · refine fenced_split hf rfl (fun q hq hlt => ?_) ?_ ?_
      · have hq' : PageID.id q ≠ .id m.leaves.length := Memory.Alive.ne_id (m := m) hlt
        simp [Shape.split, hq, hq']
      · simp [Shape.split, hne, hrange]
      · simp [Shape.split, hrange]
    · refine .split (.id pid) (by simp) (by simp [splitFences]) (fun q hq => rfl)
        (.inr ⟨pid, by simp [Thread.leafLocks], rfl⟩) (.inl rfl) (fun q hq => ?_)
        (fun z hz hne => ?_) fun z q hz hne hq hw => ?_
      · obtain rfl : q = par := Option.some.inj (hq.symm.trans hparent)
        simp [Thread.writes]
      · simp [Shape.split, hne, hz.ne_id]
      · simp [Shape.split, hz.ne_id, hq]
  | @relabel t ptr n n' hptr hn hsame =>
    have hframe (u : Thread) : Frame u m sh { m with inners := m.inners.set ptr n' } sh :=
      { Frame.refl u m sh with inners_le := by simp }
    refine ⟨sh, by simpa using hsh.set_same hn hsame, hf, hframe t, ?_⟩
    -- to what the thread knows the step is as good as one of an idle thread
    exact (hframe .idle).threadOk (by simp [Thread.writes])
      (fun q hq => ⟨(ho.locked q hq).1, by simp [Thread.writes]⟩)
      (fun l hl => ⟨ho.leaves l hl, by simp [Thread.leafLocks]⟩) ht
  | unlockNode => exact ⟨sh, hsh, hf, .bump .., trivial⟩
  | unlockLeaf => exact ⟨sh, hsh, hf, .refl .., trivial⟩
  | finish => exact ⟨sh, hsh, hf, .refl .., trivial⟩
  | fail => exact ⟨sh, hsh, hf, .refl .., trivial⟩

end

/-! ## All threads -/

/-- Two threads do not hold the same locks, unless they only share leaves. -/
structure Apart (t u : Thread) : Prop where
  writes : ∀ ptr ∈ t.writes, ptr ∉ u.writes
  leaves : ∀ pid mode mode', (pid, mode) ∈ t.leafLocks → (pid, mode') ∈ u.leafLocks →
    mode = .shared ∧ mode' = .shared

theorem Apart.symm {t u : Thread} (h : Apart t u) : Apart u t :=
  ⟨fun ptr hu ht => h.writes ptr ht hu,
    fun pid mode mode' hu ht => (h.leaves pid mode' mode ht hu).symm⟩

/-- A symmetric relation between all threads, when one of them moves. -/
theorem pairwise_update {W α : Type} [DecidableEq W] {R : α → α → Prop}
    (hsymm : ∀ {a b}, R a b → R b a) {f : W → α} (h : ∀ j k, j ≠ k → R (f j) (f k)) {i : W} {a : α}
    (ha : ∀ j, j ≠ i → R a (f j)) :
    ∀ j k, j ≠ k → R (Function.update f i a j) (Function.update f i a k) := by
  intro j k hjk
  simp only [Function.update_apply]
  split
  · next hj =>
    rw [if_neg fun hk => hjk (hj.trans hk.symm)]
    exact ha k fun hk => hjk (hj.trans hk.symm)
  · next hj =>
    split
    · exact hsymm (ha j hj)
    · exact h j k hjk

namespace Descents

variable {W : Type} {s s' : Descents W}

structure Inv (s : Descents W) (sh : Shape) : Prop where
  shaped : Shaped s.mem.root s.mem.inners s.mem.leaves.length sh
  fenced : s.mem.Fenced sh
  owns : ∀ i, Owns s.mem (s.threads i)
  owner : ∀ ptr < s.mem.inners.length, isLocked (s.mem.versions ptr) = true →
    ∃ i, ptr ∈ (s.threads i).writes
  apart : ∀ i j, i ≠ j → Apart (s.threads i) (s.threads j)
  threads : ∀ i, s.mem.ThreadOk sh (s.threads i)

theorem Quiescent.inv (h : s.Quiescent) : ∃ sh, s.Inv sh := by
  obtain ⟨sh, hsh, hf⟩ := h.shaped
  refine ⟨sh, hsh, hf, fun i => ?_, fun ptr hptr hv => ?_, fun i j _ => ?_, fun i => ?_⟩
  · rw [h.idle]
    exact ⟨List.nodup_nil, by simp [Thread.writes], by simp [Thread.leafLocks]⟩
  · rw [h.unlocked ptr hptr] at hv
    cases hv
  · rw [h.idle]
    exact ⟨by simp [Thread.writes], by simp [Thread.leafLocks]⟩
  · rw [h.idle]
    trivial

/-- One step of one thread keeps the invariant. -/
theorem Inv.step [DecidableEq W] {sh : Shape} (h : s.Inv sh) (hs : s.Step s') :
    ∃ sh', s'.Inv sh' := by
  obtain @⟨i, m, t, hmove⟩ := hs
  have hlock := hmove.lockMove (h.threads i) (h.owns i)
  obtain ⟨sh', hsh, hf, hframe, ht⟩ := hmove.spec h.shaped h.fenced (h.owns i) (h.threads i)
  have hapart : ∀ j, j ≠ i → Apart t (s.threads j) := by
    refine fun j hj => ⟨fun ptr hmem hptr => ?_, fun pid mode mode' hl hl' => ?_⟩
    · obtain ⟨hlt, hv⟩ := (h.owns j).locked ptr hptr
      rw [hlock.gained ptr hmem ((h.apart j i hj).writes ptr hptr) hlt] at hv
      cases hv
    · by_cases hold : (pid, mode) ∈ (s.threads i).leafLocks
      · exact (h.apart i j hj.symm).leaves pid mode mode' hold hl'
      · exact hlock.leafGained _ hl hold ((h.owns j).leaves (pid, mode') hl') j hj mode' hl'
  have howns : ∀ j, j ≠ i → Owns m (s.threads j) := by
    intro j hj
    have ho := h.owns j
    refine ⟨ho.nodup, fun ptr hptr => ?_, fun l hl => (ho.leaves l hl).trans_le hframe.leaves_le⟩
    obtain ⟨hlt, hv⟩ := ho.locked ptr hptr
    have hlt' := hlt.trans_le hframe.inners_le
    exact ⟨hlt', (hlock.locked ptr hlt').2 (.inr ⟨(h.apart j i hj).writes ptr hptr, hlt, hv⟩)⟩
  have hknows : ∀ j, j ≠ i → m.ThreadOk sh' (s.threads j) := by
    intro j hj
    refine hframe.threadOk (h.owns i).notMem
      (fun ptr hptr => ⟨((h.owns j).locked ptr hptr).1, (h.apart j i hj).writes ptr hptr⟩)
      (fun l hl => ⟨(h.owns j).leaves l hl, fun hx => ?_⟩) (h.threads j)
    cases ((h.apart i j hj.symm).leaves l.1 .exclusive l.2 hx hl).1
  refine ⟨sh', hsh, hf, ?_, fun ptr hptr hv => ?_, pairwise_update (R := Apart) Apart.symm (f := s.threads) h.apart hapart, ?_⟩
  · refine (Function.forall_update_iff s.threads fun _ u => Owns m u).2 ⟨?_, howns⟩
    exact ⟨hlock.nodup, fun ptr hptr => ⟨hlock.alive ptr hptr,
      (hlock.locked ptr (hlock.alive ptr hptr)).2 (.inl hptr)⟩, hlock.leafAlive⟩
  · obtain hmem | ⟨hnot, hlt, hv'⟩ := (hlock.locked ptr hptr).1 hv
    · exact ⟨i, by simpa using hmem⟩
    · obtain ⟨j, hj⟩ := h.owner ptr hlt hv'
      have hji : j ≠ i := by
        rintro rfl
        exact hnot hj
      exact ⟨j, by simpa [hji] using hj⟩
  · exact (Function.forall_update_iff s.threads fun _ u => m.ThreadOk sh' u).2 ⟨ht, hknows⟩

theorem Inv.run [DecidableEq W] {sh : Shape} (h : s.Inv sh) (hs : Relation.ReflTransGen Step s s') :
    ∃ sh', s'.Inv sh' := by
  induction hs with
  | refl => exact ⟨sh, h⟩
  | tail _ hstep ih =>
    obtain ⟨sh', h'⟩ := ih
    exact h'.step hstep

/-- A thread that has locked the leaf its descent led to, and has then checked the
parent, holds a leaf whose range has its key: from the check on, for as long as it
holds the lock and does not split the leaf itself. -/
theorem descent_lands [DecidableEq W] {s₀ : Descents W} (h₀ : s₀.Quiescent)
    (hrun : Relation.ReflTransGen Step s₀ s) {i : W} {mode : LockMode} {key : Key} {pid : Nat}
    {parent : Option ReadGuard} (hi : s.threads i = .inLeaf mode key pid parent) :
    ∃ lo hi, Routes s.mem.root s.mem.inners (.id pid) lo hi ∧ InRange lo hi key := by
  obtain ⟨sh₀, hinv₀⟩ := h₀.inv
  obtain ⟨sh, hinv⟩ := hinv₀.run hrun
  have hown := hinv.owns i
  have hknow := hinv.threads i
  rw [hi] at hown hknow
  have hpid := hown.leaves (pid, mode) (by simp [Thread.leafLocks])
  exact ⟨_, _, hinv.shaped.routes hpid, hknow.2.1⟩

/-- A tree of one leaf, with threads that do nothing yet. -/
def fresh (W : Type) : Descents W := ⟨⟨.id 0, [], fun _ => 0, [([], [])]⟩, fun _ => .idle⟩

theorem fresh_quiescent (W : Type) : (fresh W).Quiescent := by
  refine ⟨fun _ => rfl, by simp [fresh], Shape.single, shaped_single, fun pid fences h => ?_⟩
  obtain ⟨-, rfl⟩ : pid = 0 ∧ ([], []) = fences := by
    cases pid with
    | zero => exact ⟨rfl, Option.some.inj h⟩
    | succ pid => cases h
  rfl

theorem step_unit {m m' : Memory} {t t' : Thread} (h : Move (fun _ _ => True) m t m' t') :
    Step ⟨m, fun _ : Unit => t⟩ ⟨m', fun _ => t'⟩ := by
  have hfree : Free ⟨m, fun _ : Unit => t⟩ () = fun _ _ => True :=
    funext₂ fun _ _ => eq_true fun _ hj => absurd rfl hj
  rw [← hfree] at h
  have hupdate : Function.update (fun _ : Unit => t) () t' = fun _ => t' :=
    funext fun _ => Function.update_self ..
  rw [← hupdate]
  exact .move h

/-- The tree once the first leaf is split at `[5]`. -/
def halves : Memory :=
  ⟨.inner 0, [⟨true, false, 4032, true, 0, .id 0, [([5], .id 1)]⟩],
    Function.update (fun _ => 0) 0 0, [([], [5]), ([5], [])]⟩

theorem loads_halves : halves.Loads (.inner 0) 0 := by
  intro ptr hptr _
  cases hptr
  rfl

/-- A thread splits the first leaf. -/
theorem fresh_to_halves : Relation.ReflTransGen Step (fresh Unit) ⟨halves, fun _ => .idle⟩ := by
  have hsplit : Move (fun _ _ => True) (fresh Unit).mem (.inLeaf .exclusive [1] 0 none)
      halves (.releasing [] [(1, .exclusive), (0, .exclusive)]) := by
    refine @Move.splitRootLeaf _ (fresh Unit).mem [1] 0 0 ([], []) [5] _ rfl ?_ (.inl rfl) rfl
    decide
  refine .head (step_unit (.start [1])) ?_
  refine .head (step_unit (.lockLeaf .exclusive (by decide) trivial)) ?_
  refine .head (step_unit (.checkLeaf rfl)) (.head (step_unit hsplit) ?_)
  exact .head (step_unit .unlockLeaf) (.head (step_unit .unlockLeaf) (.single (step_unit .finish)))

/-- Then it descends to the new one. -/
theorem exists_right_half : ∃ s : Descents Unit, Relation.ReflTransGen Step (fresh Unit) s ∧
    s.threads () = .inLeaf .shared [7] 1 (some ⟨.inner 0, 0⟩) := by
  have hdown : halves.Reads ⟨.inner 0, 0⟩ [7] (.id 1) true := by
    intro ptr n hnode hn _
    cases hnode
    cases hn
    decide
  have hsecond : Relation.ReflTransGen Step ⟨halves, fun _ : Unit => .idle⟩
      ⟨halves, fun _ => .inLeaf .shared [7] 1 (some ⟨.inner 0, 0⟩)⟩ := by
    refine .head (step_unit (.start [7])) ?_
    refine .head (step_unit (.tryRead false loads_halves (by decide))) ?_
    refine .head (step_unit (.check rfl)) (.head (step_unit (.descend hdown)) ?_)
    refine .head (step_unit (.lockLeaf .shared (by decide) trivial)) ?_
    exact .single (step_unit (.checkLeaf loads_halves))
  exact ⟨_, fresh_to_halves.trans hsecond, rfl⟩

theorem descent_lands_right_half : ∃ s : Descents Unit, Relation.ReflTransGen Step (fresh Unit) s ∧
    s.threads () = .inLeaf .shared [7] 1 (some ⟨.inner 0, 0⟩) ∧
    ∃ lo hi, Routes s.mem.root s.mem.inners (.id 1) lo hi ∧ InRange lo hi [7] := by
  obtain ⟨s, hrun, hs⟩ := exists_right_half
  exact ⟨s, hrun, hs, descent_lands (fresh_quiescent Unit) hrun hs⟩

end Descents

end BfTree
