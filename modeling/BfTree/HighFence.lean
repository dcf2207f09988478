import BfTree.FailedInsert
import BfTree.Filled
import BfTree.Quiet
import BfTree.SearchTree

/-!
# The high fence that a descent finds

A leaf of cache-only mode has no fences. The descent to a leaf remembers the last separator
to the right of its path instead. This is the least separator of the tree above the key,
and so the key where the range of the next leaf begins: a scan that goes on from there comes
to every leaf once, from left to right.
-/

namespace BfTree

open Lib LeafNode

/-! ## Separators and leaves -/

theorem spans_high {lo hi a b : Key} {c x : PageID} {B : List (Key × PageID)}
    (h : (a, b, x) ∈ spans lo hi c B) : b = hi ∨ ∃ r ∈ B, b = r.1 := by
  induction B generalizing lo c with
  | nil =>
    obtain ⟨-, rfl, -⟩ : a = lo ∧ b = hi ∧ x = c := by simpa [spans] using h
    exact .inl rfl
  | cons r B ih =>
    rw [spans, List.mem_cons] at h
    rcases h with h | h
    · obtain ⟨-, rfl, -⟩ : a = lo ∧ b = r.1 ∧ x = c := by simpa using h
      exact .inr ⟨r, List.mem_cons_self, rfl⟩
    · refine (ih h).imp_right ?_
      rintro ⟨r', hr', rfl⟩
      exact ⟨r', List.mem_cons_of_mem r hr', rfl⟩

/-- A child begins at its separator. -/
theorem mem_spans_of_mem {lo hi : Key} {c : PageID} {B : List (Key × PageID)} {r : Key × PageID}
    (h : r ∈ B) : ∃ b, (r.1, b, r.2) ∈ spans lo hi c B := by
  induction B generalizing lo c with
  | nil => cases h
  | cons r' B ih =>
    rw [spans]
    rcases List.mem_cons.1 h with rfl | h
    · cases B with
      | nil => exact ⟨hi, by simp [spans]⟩
      | cons r'' B => exact ⟨r''.1, by simp [spans]⟩
    · obtain ⟨b, hb⟩ := @ih r'.1 r'.2 h
      exact ⟨b, List.mem_cons_of_mem _ hb⟩

namespace Shaped

variable {root : PageID} {inners : List InnerNode} {leaves ptr : Nat} {s : Shape} {n : InnerNode}

/-- The leaf for a key below a node does not begin before the node. -/
theorem leaf_below (h : Shaped root inners leaves s) {k : Key} (d : Nat) :
    ∀ {x : PageID}, x.Alive inners.length leaves → s.level x = d →
      InRange (s.range x).1 (s.range x).2 k →
      ∃ pid, pid < leaves ∧ InRange (s.range (.id pid)).1 (s.range (.id pid)).2 k ∧
        (s.range x).1 ≤ (s.range (.id pid)).1 := by
  induction d with
  | zero =>
    intro x hx hlevel hk
    cases x with
    | id pid => exact ⟨pid, hx, hk, le_rfl⟩
    | inner ptr =>
      have := (h.inner ptr _ (List.getElem?_eq_getElem hx)).level_pos
      omega
  | succ d ih =>
    intro x hx hlevel hk
    cases x with
    | id pid => exact ⟨pid, hx, hk, le_rfl⟩
    | inner ptr =>
      have hn := h.inner ptr _ (List.getElem?_eq_getElem hx)
      obtain ⟨a, b, y, -, hspan, hin, -⟩ := InnerNode.route_spec hn.seps hk
      have hchild := hn.child a b y hspan
      have hlevel' := hchild.level
      obtain ⟨pid, hpid, hkpid, hle⟩ := ih hchild.alive (by omega) (by rw [hchild.range]; exact hin)
      rw [hchild.range] at hle
      exact ⟨pid, hpid, hkpid, (hn.seps.span_subset hspan).1.trans hle⟩

/-- A leaf begins at every separator. -/
theorem leaf_at (h : Shaped root inners leaves s) (hn : inners[ptr]? = some n) {r : Key × PageID}
    (hr : r ∈ n.records) : ∃ pid, pid < leaves ∧ (s.range (.id pid)).1 = r.1 ∧
      InRange (s.range (.id pid)).1 (s.range (.id pid)).2 r.1 := by
  have hok := h.inner ptr n hn
  obtain ⟨b, hspan⟩ : ∃ b, (r.1, b, r.2) ∈ n.spansIn (s.range (.inner ptr)) := mem_spans_of_mem hr
  have hchild := hok.child r.1 b r.2 hspan
  have hlow := hok.seps.lo_lt r hr
  have hne : b = [] ∨ r.1 < b :=
    Tree.SepsWithin.span_nonempty hok.seps ((hok.seps.lt_hi r hr).imp_right hlow.trans) hspan
  have hin : InRange (s.range r.2).1 (s.range r.2).2 r.1 := by
    rw [hchild.range]
    exact ⟨le_rfl, hne⟩
  obtain ⟨pid, hpid, hk, hle⟩ := h.leaf_below _ hchild.alive rfl hin
  rw [hchild.range] at hle
  exact ⟨pid, hpid, le_antisymm hk.1 hle, hk⟩

/-- No separator lies inside the range of a leaf. -/
theorem le_leaf_low (h : Shaped root inners leaves s) (hn : inners[ptr]? = some n)
    {r : Key × PageID} (hr : r ∈ n.records) {pid : Nat} (hpid : pid < leaves)
    (hin : InRange (s.range (.id pid)).1 (s.range (.id pid)).2 r.1) :
    r.1 = (s.range (.id pid)).1 := by
  obtain ⟨q, hq, hlow, hk⟩ := h.leaf_at hn hr
  obtain rfl : q = pid := h.leaf_unique hq hpid hk hin
  exact hlow.symm

/-- The ranges of the leaves follow each other without gaps. -/
theorem leaf_adjacent (h : Shaped root inners leaves s) {p q : Nat} (hp : p < leaves) (hq : q < leaves)
    (hne : (s.range (.id p)).2 = [] ∨ (s.range (.id p)).1 < (s.range (.id p)).2)
    (hend : (s.range (.id p)).2 ≠ [])
    (hin : InRange (s.range (.id q)).1 (s.range (.id q)).2 (s.range (.id p)).2) :
    (s.range (.id q)).1 = (s.range (.id p)).2 := by
  by_contra hlow
  have hlt : (s.range (.id q)).1 < (s.range (.id p)).2 := lt_of_le_of_ne hin.1 hlow
  have hltp := hne.resolve_left hend
  -- the larger one of the two low ends lies in both ranges
  have hmax : max (s.range (.id p)).1 (s.range (.id q)).1 < (s.range (.id p)).2 := max_lt hltp hlt
  have hsame : p = q := by
    refine h.leaf_unique hp hq ⟨le_max_left _ _, .inr hmax⟩ ⟨le_max_right _ _, ?_⟩
    exact hin.2.imp_right hmax.trans
  rw [← hsame] at hin
  exact (hin.2.resolve_left hend).false

end Shaped

/-- The page in memory, if there is one. -/
def PageLocation.cached : PageLocation → Option LeafNode
  | .mini page | .full page => some page
  | .base _ | .null => none

namespace LeafEntry

/-- Unlocking writes pages only. -/
theorem flush_eq {l l' : LeafEntry} (h : l.flush = some l') :
    ∃ vfs, l' = { l with vfs := vfs } := by
  unfold flush at h
  split at h
  · obtain ⟨o, -, rfl⟩ := Option.map_eq_some_iff.1 h
    exact ⟨_, rfl⟩
  · cases h
    exact ⟨_, rfl⟩

/-- In cache-only mode the cursor of a scan leaves the leaf as it is. -/
theorem moveCursor_cached {cfg : Config} {lo hi : Key} {c : Key → Option Value} {t : LeafEntry}
    (env : AttemptEnv) (key : Key) (h : CacheLeaf cfg lo hi c t.loc) (hcache : cfg.cacheOnly = true) :
    ∃ pos, moveCursor cfg env key t = some (.ok (pos, t.loc.cached), t) := by
  have hrun : ∀ pos, getScanPosition cfg key t = some (.ok (some pos), t) → (∀ i, pos ≠ .base i) →
      moveCursor cfg env key t = some (.ok (pos, t.cursorPage pos), t) := by
    intro pos hpos hne
    have hplan : prepareScan cfg env key t = some (.ok (.ready pos), t) := by
      rw [prepareScan, bind_of_ok hpos, bind_of_ok (get_apply t)]
      cases pos with
      | base i => exact absurd rfl (hne i)
      | full i => rfl
      | mini i => rfl
      | null => rfl
    rw [moveCursor, bind_of_ok hplan]
    rfl
  cases hl : t.loc with
  | mini p =>
    rw [hl] at h
    obtain ⟨A, B, hslot, -⟩ := lowerBound_spec h.1.wf (h.1.covers key)
    have hpos : getScanPosition cfg key t = some (.ok (some (.mini A.length)), t) := by
      rw [getScanPosition, bind_of_ok (get_apply t), hl]
      simp only [hcache, hslot]
      rfl
    refine ⟨.mini A.length, ?_⟩
    rw [hrun _ hpos (by simp)]
    simp [cursorPage, hl, PageLocation.cached]
  | null =>
    have hpos : getScanPosition cfg key t = some (.ok (some .null), t) := by
      rw [getScanPosition, bind_of_ok (get_apply t), hl]
      simp only [hcache]
      rfl
    refine ⟨.null, ?_⟩
    rw [hrun _ hpos (by simp)]
    rfl
  | base o => rw [hl] at h; exact h.elim
  | full p => rw [hl] at h; exact h.elim

end LeafEntry

namespace Tree

variable {t : Tree} {s : Shape} {key : Key}

/-- The nodes form a search tree. -/
def Structured (t : Tree) : Prop := ∃ s, Shaped t.root t.inners t.pages.length s

theorem Inv.structured {cfg : Config} {C : Key → Option Value} (h : t.Inv cfg C) : t.Structured := by
  obtain ⟨s, h⟩ := h
  exact ⟨s, h.shaped⟩

/-- The separators in the whole tree. -/
def separators (t : Tree) : List Key := t.inners.flatMap fun n => n.records.map Prod.fst

theorem mem_separators {k : Key} : k ∈ t.separators ↔
    ∃ (ptr : Nat) (n : InnerNode) (r : Key × PageID), t.inners[ptr]? = some n ∧ r ∈ n.records ∧
      r.1 = k := by
  simp only [separators, List.mem_flatMap, List.mem_map]
  constructor
  · rintro ⟨n, hn, r, hr, rfl⟩
    obtain ⟨ptr, hptr⟩ := List.mem_iff_getElem?.1 hn
    exact ⟨ptr, n, r, hptr, hr, rfl⟩
  · rintro ⟨ptr, n, r, hn, hr, rfl⟩
    exact ⟨n, List.mem_of_getElem? hn, r, hr, rfl⟩

/-- A range ends at a separator, or does not end. -/
theorem Range.high {x : PageID} {lo hi : Key} (h : t.Range x lo hi) : hi = [] ∨ hi ∈ t.separators := by
  induction h with
  | root => exact .inl rfl
  | @child ptr n lo hi a b x _ hn hx ih =>
    obtain rfl | ⟨r, hr, rfl⟩ := spans_high hx
    · exact ih
    · exact .inr (mem_separators.2 ⟨ptr, n, r, hn, hr, rfl⟩)

/-- The descent has found the leaf for the key and the least separator above the key. -/
structure Fenced (t : Tree) (key : Key) (landing : Landing) : Prop where
  range : ∃ lo, t.Range (.id landing.pid) lo landing.highFence ∧ InRange lo landing.highFence key
  least : landing.highFence ≠ [] → IsLeast {k | k ∈ t.separators ∧ key < k} landing.highFence
  empty : landing.highFence = [] ↔ ∀ k ∈ t.separators, ¬ key < k

/-- The end of the leaf's range is this separator. -/
theorem Lands.fenced (h : Shaped t.root t.inners t.pages.length s) {landing : Landing}
    (hl : Lands s t key landing) : t.Fenced key landing := by
  have hrange : t.Range (.id landing.pid) (s.range (.id landing.pid)).1 landing.highFence := by
    rw [← hl.highFence]
    exact range_iff.2 (h.routes hl.alive)
  have hin := hl.inRange
  rw [hl.highFence] at hin
  -- a separator above the key is not inside the range of the leaf
  have hno : ∀ k ∈ t.separators, key < k → landing.highFence ≠ [] ∧ landing.highFence ≤ k := by
    intro k hk hlt
    obtain ⟨ptr, n, r, hn, hr, rfl⟩ := mem_separators.1 hk
    by_contra hnot
    have hend : landing.highFence = [] ∨ r.1 < landing.highFence := by
      by_cases he : landing.highFence = []
      · exact .inl he
      · exact .inr (not_le.1 fun hle => hnot ⟨he, hle⟩)
    have hlow := h.le_leaf_low hn hr hl.alive ⟨hin.1.trans hlt.le, by rw [hl.highFence]; exact hend⟩
    exact (hlow ▸ hlt).not_ge hin.1
  refine ⟨⟨_, hrange, hin⟩, fun hne => ⟨⟨hrange.high.resolve_left hne, hin.2.resolve_left hne⟩, ?_⟩,
    ⟨fun he k hk hlt => (hno k hk hlt).1 he, fun hall => ?_⟩⟩
  · exact fun k hk => (hno k hk.1 hk.2).2
  · by_contra hne
    exact hall _ (hrange.high.resolve_left hne) (hin.2.resolve_left hne)

/-! ## The descent -/

/-- Nothing changed above the leaves. -/
structure SameNodes (t t' : Tree) : Prop where
  root : t'.root = t.root
  inners : t'.inners = t.inners
  pages : t'.pages.length = t.pages.length

theorem SameNodes.trans {t' t'' : Tree} (h : SameNodes t t') (h' : SameNodes t' t'') :
    SameNodes t t'' :=
  ⟨h'.root.trans h.root, h'.inners.trans h.inners, h'.pages.trans h.pages⟩

theorem SameNodes.shaped {t' : Tree} (h : SameNodes t t')
    (hs : Shaped t.root t.inners t.pages.length s) : Shaped t'.root t'.inners t'.pages.length s := by
  rw [h.root, h.inners, h.pages]
  exact hs

theorem setParent_parentOf {parent : Option Nat} {par : Option Parent}
    (h : t.parentOf parent = some par) : t.setParent par = t.inners := by
  cases parent with
  | none =>
    obtain rfl : none = par := Option.some.inj h
    rfl
  | some ptr =>
    obtain ⟨n, hn, rfl⟩ := parentOf_some h
    obtain ⟨hlt, rfl⟩ := List.getElem?_eq_some_iff.1 hn
    exact List.set_getElem_self hlt

/-- A look at the flag of a leaf changes nothing above it. -/
theorem withLeaf_getSplitFlag_sameNodes (pid : Nat) (parent : Option Nat) :
    Ensures (withLeaf pid parent LeafEntry.getSplitFlag) (SameNodes t) t := by
  have hflag : ∀ l, Ensures LeafEntry.getSplitFlag
      (fun l' => l'.pid = l.pid ∧ l'.parent = l.parent ∧ l'.sibling = l.sibling) l := by
    intro l
    simp only [Ensures, LeafEntry.getSplitFlag, wp_bind, wp_get]
    split
    · rw [wp_bind]
      exact LeafEntry.wp_loadBasePage fun b _ => (wp_pure _).2 ⟨rfl, rfl, rfl⟩
    · exact (wp_pure _).2 ⟨rfl, rfl, rfl⟩
    · exact (wp_pure _).2 ⟨rfl, rfl, rfl⟩
    · exact (wp_pure _).2 ⟨rfl, rfl, rfl⟩
  have hrun : ∀ r t', withLeaf pid parent LeafEntry.getSplitFlag t = some (r, t') → SameNodes t t' := by
    intro r t' h
    simp only [withLeaf, Option.bind_eq_bind, Option.bind_eq_some_iff, Option.some.injEq,
      Prod.mk.injEq] at h
    obtain ⟨loc, hloc, par, hpar, ⟨r', l⟩, hm, l', hflush, rfl, rfl⟩ := h
    have hl : l.pid = pid ∧ l.parent = par ∧ l.sibling = none := by
      cases r' with
      | ok a => exact (hflag _).1 a l hm
      | error e => exact (hflag _).2 e l hm
    obtain ⟨hpid, hparent, hsibling⟩ := hl
    obtain ⟨v, rfl⟩ := LeafEntry.flush_eq hflush
    refine ⟨rfl, ?_, ?_⟩
    · show t.setParent l.parent = t.inners
      rw [hparent, setParent_parentOf hpar]
    · show (t.pages.set l.pid l.loc ++ l.sibling.toList).length = t.pages.length
      simp [hsibling]
  exact ⟨fun a t' h => hrun _ t' h, fun e t' h => hrun _ t' h⟩

/-- A descent that goes on has split nothing. -/
theorem splitMarked_sameNodes (env : AttemptEnv) (aggressive : Bool) (cur : PageID) (isLeaf : Bool)
    (parent : Option Nat) :
    wp (splitMarked env aggressive cur isLeaf parent) (fun _ => SameNodes t) (fun _ _ => True) t := by
  have hsame : SameNodes t t := ⟨rfl, rfl, rfl⟩
  have htrue : ∀ {t₁ : Tree} (m : M Unit), wp (m >>= fun _ => pure true)
      (fun split t' => split = false → SameNodes t t') (fun _ _ => True) t₁ := by
    intro t₁ m
    simp only [wp_bind, wp_pure]
    exact ⟨by simp, by simp⟩
  have htry : wp (trySplit env cur isLeaf parent)
      (fun split t' => split = false → SameNodes t t') (fun _ _ => True) t := by
    cases cur with
    | id pid =>
      cases isLeaf with
      | false => exact wp_crash.2 trivial
      | true =>
        simp only [trySplit, trySplitLeaf]
        rw [wp_bind]
        refine wp_mono (withLeaf_getSplitFlag_sameNodes pid parent) (fun flag t₁ h₁ => ?_)
          fun _ _ _ => trivial
        refine wp_ite (fun _ => (wp_pure _).2 fun _ => h₁) fun _ => ?_
        rw [wp_bind]
        refine ⟨fun g t₂ _ => (wp_bind _ _).2 ?_, fun _ _ _ => trivial⟩
        rw [wp_assert]
        exact fun _ => htrue _
    | inner ptr =>
      cases isLeaf with
      | true => exact (wp_pure _).2 fun _ => hsame
      | false =>
        simp only [trySplit, trySplitInner]
        rw [wp_bind]
        refine wp_getInner fun n _ => ?_
        refine wp_ite (fun _ => (wp_pure _).2 fun _ => hsame) fun _ => ?_
        rw [wp_bind]
        exact ⟨fun g t₂ _ => htrue _, fun _ _ _ => trivial⟩
  unfold splitMarked
  refine wp_ite (fun _ => ?_) fun _ => (wp_pure ()).2 hsame
  rw [wp_bind]
  refine wp_mono htry (fun split t' h' => ?_) fun _ _ h' => h'
  cases split with
  | true => exact (wp_fail _).2 trivial
  | false => exact (wp_pure ()).2 (h' rfl)

/-- Where a descent below a node ends. -/
theorem traverseFrom_lands (env : AttemptEnv) (key : Key) (aggressive : Bool) (fuel : Nat) :
    ∀ {t : Tree} {cur : PageID} {parent : Option Nat} {highFence : Key},
      Shaped t.root t.inners t.pages.length s → cur.Alive t.inners.length t.pages.length →
      s.parent cur = parent → InRange (s.range cur).1 (s.range cur).2 key →
      (s.range cur).2 = highFence →
      wp (traverseFrom env key aggressive fuel cur cur.isLeaf parent highFence)
        (fun landing t' => SameNodes t t' ∧ Lands s t' key landing) (fun _ _ => True) t := by
  induction fuel with
  | zero => intros; exact wp_crash.2 trivial
  | succ fuel ih =>
    intro t cur parent highFence h hcur hparent hkey hfence
    have hsplit := @splitMarked_sameNodes t env aggressive cur cur.isLeaf parent
    cases cur with
    | id pid =>
      simp only [PageID.isLeaf, traverseFrom, wp_bind, wp_pure] at hsplit ⊢
      refine wp_mono hsplit (fun _ t₁ h₁ => ⟨h₁, ?_, hparent, hkey, hfence⟩) fun _ _ h₁ => h₁
      rw [h₁.pages]
      exact hcur
    | inner ptr =>
      simp only [PageID.isLeaf, traverseFrom, wp_bind] at hsplit ⊢
      refine wp_mono hsplit (fun _ t₁ h₁ => ?_) fun _ _ h₁ => h₁
      have hs₁ := h₁.shaped h
      refine wp_getInner fun n hn => ?_
      rw [wp_unwrap]
      intro x hx
      obtain ⟨y, hy, hchild, hin, hfence'⟩ := (hs₁.inner ptr n hn).route hkey
      obtain rfl : x = y := Option.some.inj (hx.symm.trans hy)
      rw [hfence] at hfence'
      rw [← hchild.kind]
      exact wp_mono (ih hs₁ hchild.alive hchild.parent hin hfence')
        (fun _ _ h₂ => ⟨h₁.trans h₂.1, h₂.2⟩) fun _ _ h₂ => h₂

/-- A descent that splits nothing comes to a leaf. -/
theorem traverseFrom_returns (h : Shaped t.root t.inners t.pages.length s) (env : AttemptEnv)
    (fuel : Nat) : ∀ {cur : PageID} {parent : Option Nat} {highFence : Key},
      cur.Alive t.inners.length t.pages.length → s.level cur < fuel →
      InRange (s.range cur).1 (s.range cur).2 key →
      ∃ landing, traverseFrom env key false fuel cur cur.isLeaf parent highFence t =
        some (.ok landing, t) := by
  induction fuel with
  | zero => intro cur _ _ _ hlevel; omega
  | succ fuel ih =>
    intro cur parent highFence hcur hlevel hkey
    cases cur with
    | id pid => exact ⟨⟨pid, parent, highFence⟩, rfl⟩
    | inner ptr =>
      obtain ⟨n, hn⟩ : ∃ n, t.inners[ptr]? = some n := ⟨_, List.getElem?_eq_getElem hcur⟩
      obtain ⟨y, hy, hchild, hin, -⟩ := (h.inner ptr n hn).route hkey
      have hl := hchild.level
      have hget : getInner ptr t = some (.ok n, t) := by
        rw [getInner, bind_of_ok (get_apply t), hn]
        rfl
      have hnext : (Prog.unwrap (n.getValue (n.lowerBound key)) : M PageID) t = some (.ok y, t) := by
        rw [hy]
        rfl
      obtain ⟨landing, hrun⟩ := @ih y (some ptr) _ hchild.alive (by omega) hin
      refine ⟨landing, ?_⟩
      rw [hchild.kind] at hrun
      exact (bind_of_ok rfl).trans ((bind_of_ok hget).trans
        ((bind_of_ok hnext).trans hrun))

theorem traverseToLeaf_lands (h : Shaped t.root t.inners t.pages.length s) (env : AttemptEnv)
    (key : Key) (aggressive : Bool) :
    wp (traverseToLeaf env key aggressive)
      (fun landing t' => SameNodes t t' ∧ Lands s t' key landing) (fun _ _ => True) t := by
  simp only [traverseToLeaf, wp_bind, wp_attempt, wp_get]
  refine ⟨fun _ => ?_, fun _ _ => trivial⟩
  refine traverseFrom_lands env key aggressive _ h h.root_alive h.root_parent ?_ ?_
  · rw [h.root_range]
    exact inRange_nil_nil key
  · rw [h.root_range]

theorem traverseToLeaf_returns (h : Shaped t.root t.inners t.pages.length s) {env : AttemptEnv}
    (henv : env.descent = true) (key : Key) :
    ∃ landing, traverseToLeaf env key false t = some (.ok landing, t) := by
  obtain ⟨landing, hrun⟩ := @traverseFrom_returns t s key h env (t.inners.length + 1) t.root none []
    h.root_alive (Nat.lt_succ_of_le h.root_level) (by rw [h.root_range]; exact inRange_nil_nil key)
  refine ⟨landing, ?_⟩
  have hlock : (attempt (checkLock env.descent) : M Unit) t = some (.ok (), t) := by
    rw [henv]
    rfl
  rw [traverseToLeaf, bind_of_ok hlock, bind_of_ok (get_apply t)]
  exact hrun

/-! ## A scan in cache-only mode -/

/-- The next leaves that the cursor of a scan moves to: at the end of a leaf it goes on from the
fence that it has found, until there is none. -/
def cursorMoves : List (List AttemptEnv) → ScanIter → M (List ScanIter)
  | [], _ => pure []
  | envs :: moves, it =>
    if it.nextKey = [] then pure []
    else do
      let it ← moveToRightSibling envs it.nextKey it
      let its ← cursorMoves moves it
      pure (it :: its)

/-- The cursor is on the leaf with this range. -/
structure Visits (t : Tree) (it : ScanIter) (r : Nat × Key × Key) : Prop where
  range : t.Range (.id r.1) r.2.1 r.2.2
  nextKey : it.nextKey = r.2.2
  page : (t.pages[r.1]?).map PageLocation.cached = some it.page

variable {cfg : Config} {C : Key → Option Value}

/-- The cursor is placed at the first try, on the leaf for its key. -/
theorem moveCursorToLeaf_visits (h : t.Ok cfg s C) (hcache : cfg.cacheOnly = true) {env : AttemptEnv}
    (henv : env.descent = true) (key : Key) :
    ∃ pos page landing, moveCursorToLeaf env key false t = some (.ok (pos, page, landing.highFence), t) ∧
      Lands s t key landing ∧ (t.pages[landing.pid]?).map PageLocation.cached = some page := by
  obtain ⟨landing, hland⟩ := traverseToLeaf_returns h.shaped henv key
  have hl := ((traverseToLeaf_lands h.shaped env key false).1 landing t hland).2
  obtain ⟨loc, par, c, hloc, hpar, hleaf, -⟩ := h.lock hl.alive hl.parent
  rw [leafOk_cacheOnly hcache] at hleaf
  obtain ⟨pos, hcursor⟩ : ∃ pos, LeafEntry.moveCursor cfg env key (t.lockLeaf landing.pid loc par) =
      some (.ok (pos, loc.cached), t.lockLeaf landing.pid loc par) :=
    LeafEntry.moveCursor_cached env key hleaf hcache
  refine ⟨pos, loc.cached, landing, ?_, hl, by rw [hloc]; rfl⟩
  have hunlock : t.unlockLeaf (t.lockLeaf landing.pid loc par) = t := by
    have hset : t.pages.set landing.pid loc = t.pages := by
      obtain ⟨hlt, rfl⟩ := List.getElem?_eq_some_iff.1 hloc
      exact List.set_getElem_self hlt
    simp [unlockLeaf, lockLeaf, setParent_parentOf hpar, hset]
  have hwith : withLeaf landing.pid landing.parent (LeafEntry.moveCursor t.config env key) t =
      some (.ok (pos, loc.cached), t) := by
    rw [h.config]
    simp only [withLeaf, hloc, hpar, Option.bind_eq_bind, Option.bind_some, hcursor]
    simp [LeafEntry.flush, lockLeaf]
    exact hunlock
  rw [moveCursorToLeaf, bind_of_ok hland, bind_of_ok (get_apply t), bind_of_ok hwith]
  rfl

theorem moveToRightSibling_visits (h : t.Ok cfg s C) (hcache : cfg.cacheOnly = true)
    {env : AttemptEnv} (henv : env.descent = true) (rest : List AttemptEnv) (key : Key) (it : ScanIter) :
    ∃ it' q, moveToRightSibling (env :: rest) key it t = some (.ok it', t) ∧ q < t.pages.length ∧
      InRange (s.range (.id q)).1 (s.range (.id q)).2 key ∧ t.Visits it' (q, s.range (.id q)) := by
  obtain ⟨pos, page, landing, hrun, hl, hpage⟩ := moveCursorToLeaf_visits h hcache henv key
  refine ⟨{ it with position := pos, page := page, nextKey := landing.highFence }, landing.pid, ?_,
    hl.alive, hl.inRange, h.leaf_range hl.alive, hl.highFence.symm, hpage⟩
  exact (bind_of_ok (Prog.handle_of_ok hrun)).trans rfl

/-- How many leaves begin at the key or after it. -/
def leavesFrom (s : Shape) (leaves : Nat) (key : Key) : Nat :=
  ((Finset.range leaves).filter fun q => key ≤ (s.range (.id q)).1).card

theorem leavesFrom_lt {leaves q : Nat} {k : Key} (hq : q < leaves) (hk : k ≤ (s.range (.id q)).1)
    (hlt : (s.range (.id q)).1 < key) : leavesFrom s leaves key < leavesFrom s leaves k := by
  refine Finset.card_lt_card (Finset.ssubset_iff_of_subset ?_ |>.2 ⟨q, ?_, ?_⟩)
  · intro q' hq'
    rw [Finset.mem_filter] at hq' ⊢
    exact ⟨hq'.1, hk.trans (hlt.le.trans hq'.2)⟩
  · exact Finset.mem_filter.2 ⟨Finset.mem_range.2 hq, hk⟩
  · exact fun hmem => ((Finset.mem_filter.1 hmem).2.trans_lt hlt).false

/-- A leaf that begins later begins where this one ends, or after that. -/
theorem Ok.leaf_after (h : t.Ok cfg s C) {p q : Nat} (hp : p < t.pages.length)
    (hq : q < t.pages.length) (hlt : (s.range (.id p)).1 < (s.range (.id q)).1) :
    (s.range (.id p)).2 ≠ [] ∧ (s.range (.id p)).2 ≤ (s.range (.id q)).1 := by
  by_contra hnot
  have hin : InRange (s.range (.id p)).1 (s.range (.id p)).2 (s.range (.id q)).1 := by
    refine ⟨hlt.le, ?_⟩
    by_cases he : (s.range (.id p)).2 = []
    · exact .inl he
    · exact .inr (not_le.1 fun hle => hnot ⟨he, hle⟩)
  have hself : InRange (s.range (.id q)).1 (s.range (.id q)).2 (s.range (.id q)).1 :=
    ⟨le_rfl, h.range_nonempty (h.leaf_range hq)⟩
  obtain rfl := h.shaped.leaf_unique hp hq hin hself
  exact hlt.false

/-- The cursor moves to the leaves that come after the first one, without gaps. With enough
moves it comes to all of them. -/
theorem cursorMoves_visits (h : t.Ok cfg s C) (hcache : cfg.cacheOnly = true)
    (moves : List (List AttemptEnv))
    (hmoves : ∀ es ∈ moves, ∃ env rest, es = env :: rest ∧ env.descent = true) :
    ∀ {it : ScanIter} {p : Nat}, p < t.pages.length → it.nextKey = (s.range (.id p)).2 →
      ∃ its L, cursorMoves moves it t = some (.ok its, t) ∧ List.Forall₂ t.Visits its L ∧
        List.IsChain (fun r r' => r.2.2 = r'.2.1) ((p, s.range (.id p)) :: L) ∧
        ((p, s.range (.id p)) :: L).Pairwise (fun r r' => r.2.1 < r'.2.1) ∧
        (leavesFrom s t.pages.length (s.range (.id p)).2 ≤ moves.length →
          ∀ q, q < t.pages.length → (s.range (.id p)).1 < (s.range (.id q)).1 →
            (q, s.range (.id q)) ∈ L) := by
  induction moves with
  | nil =>
    intro it p hp hnext
    refine ⟨[], [], rfl, .nil, by simp, by simp, fun hle q hq hlt => ?_⟩
    -- a later leaf would have to be visited
    obtain ⟨-, hle'⟩ := h.leaf_after hp hq hlt
    have hnone := Finset.card_eq_zero.1 (Nat.le_zero.1 hle)
    exact absurd (Finset.mem_filter.2 ⟨Finset.mem_range.2 hq, hle'⟩) (hnone ▸ Finset.notMem_empty q)
  | cons es moves ih =>
    intro it p hp hnext
    obtain ⟨env, rest, rfl, henv⟩ := hmoves es List.mem_cons_self
    by_cases hend : (s.range (.id p)).2 = []
    · refine ⟨[], [], ?_, .nil, by simp, by simp, fun _ q hq hlt => ?_⟩
      · rw [cursorMoves, hnext, if_pos hend]
        rfl
      · exact absurd hend (h.leaf_after hp hq hlt).1
    · obtain ⟨it', q, hrun, hq, hin, hvis⟩ :=
        moveToRightSibling_visits h hcache henv rest it.nextKey it
      rw [hnext] at hin
      have hlow : (s.range (.id q)).1 = (s.range (.id p)).2 :=
        h.shaped.leaf_adjacent hp hq (h.range_nonempty (h.leaf_range hp)) hend hin
      have hltp := (h.range_nonempty (h.leaf_range hp)).resolve_left hend
      obtain ⟨its, L, hmovesrun, hall, hchain, hsorted, hcomplete⟩ :=
        ih (fun es' hes' => hmoves es' (List.mem_cons_of_mem _ hes')) hq hvis.nextKey
      refine ⟨it' :: its, (q, s.range (.id q)) :: L, ?_, .cons hvis hall, ?_, ?_, ?_⟩
      · rw [cursorMoves, if_neg (hnext ▸ hend), bind_of_ok hrun, bind_of_ok hmovesrun]
        rfl
      · exact List.isChain_cons_cons.2 ⟨hlow.symm, hchain⟩
      · have hfirst : (s.range (.id p)).1 < (s.range (.id q)).1 := hlow ▸ hltp
        refine List.pairwise_cons.2 ⟨fun r hr => ?_, hsorted⟩
        rcases List.mem_cons.1 hr with rfl | hr
        · exact hfirst
        · exact hfirst.trans ((List.pairwise_cons.1 hsorted).1 r hr)
      · intro hle q' hq' hlt
        rcases eq_or_ne q' q with rfl | hne
        · exact List.mem_cons_self
        -- the leaf between the two ends where the other one begins, or before that
        obtain ⟨-, hle'⟩ := h.leaf_after hp hq' hlt
        have hlt' : (s.range (.id q)).1 < (s.range (.id q')).1 := by
          refine lt_of_le_of_ne (hlow ▸ hle') fun heq => hne ?_
          refine h.shaped.leaf_unique hq' hq ⟨heq.ge, ?_⟩ ⟨le_rfl, h.range_nonempty (h.leaf_range hq)⟩
          rw [heq]
          exact h.range_nonempty (h.leaf_range hq')
        refine List.mem_cons_of_mem _ (hcomplete ?_ q' hq' hlt')
        have hshort : leavesFrom s t.pages.length (s.range (.id q)).2 <
            leavesFrom s t.pages.length (s.range (.id p)).2 :=
          leavesFrom_lt hq hlow.ge ((h.range_nonempty (h.leaf_range hq)).resolve_left
            (h.leaf_after hq hq' hlt').1)
        rw [List.length_cons] at hle
        omega

/-- The first cursor of a scan is placed likewise. -/
theorem openIter_visits (h : t.Ok cfg s C) (hcache : cfg.cacheOnly = true) {env : AttemptEnv}
    (henv : env.descent = true) (es : List Eviction) (rounds : List Round) (key : Key)
    (limit : ScanLimit) (field : ScanReturnField) :
    ∃ it p, openIter (⟨env, es⟩ :: rounds) key limit field t = some (.ok it, t) ∧ p < t.pages.length ∧
      InRange (s.range (.id p)).1 (s.range (.id p)).2 key ∧ t.Visits it (p, s.range (.id p)) := by
  obtain ⟨pos, page, landing, hrun, hl, hpage⟩ := moveCursorToLeaf_visits h hcache henv key
  have hcount : ∀ cnt, newWithScanCount (⟨env, es⟩ :: rounds) key cnt field t =
      some (.ok ⟨cnt, pos, page, field, none, landing.highFence⟩, t) := by
    intro cnt
    exact (bind_of_ok (Prog.handle_of_ok hrun)).trans rfl
  have hvisits : ∀ it : ScanIter, it.nextKey = landing.highFence → it.page = page →
      t.Visits it (landing.pid, s.range (.id landing.pid)) := fun it hnext hp =>
    ⟨h.leaf_range hl.alive, hnext.trans hl.highFence.symm, hp ▸ hpage⟩
  cases limit with
  | count cnt => exact ⟨_, landing.pid, hcount cnt, hl.alive, hl.inRange, hvisits _ rfl rfl⟩
  | endKey e =>
    have hend : newWithEndKey (⟨env, es⟩ :: rounds) key e field t =
        some (.ok ⟨2 ^ 64 - 1, pos, page, field, some e, landing.highFence⟩, t) :=
      (bind_of_ok (hcount _)).trans rfl
    exact ⟨_, landing.pid, hend, hl.alive, hl.inRange, hvisits _ rfl rfl⟩

theorem leavesFrom_le (s : Shape) (leaves : Nat) (key : Key) : leavesFrom s leaves key ≤ leaves :=
  (Finset.card_filter_le _ _).trans_eq (Finset.card_range leaves)

/-- The descent in a search tree finds the least separator above its key. A scan in cache-only
mode that goes on from there comes to the leaves from left to right without gaps, and with
enough moves to every leaf whose range does not end before the start, once. -/
theorem Structured.high_fence (h : t.Structured) (key : Key) :
    (∀ env aggressive landing t', traverseToLeaf env key aggressive t = some (.ok landing, t') →
      t.Fenced key landing) ∧
    (∀ env : AttemptEnv, env.Quiet → ∃ landing, traverseToLeaf env key false t = some (.ok landing, t)) ∧
    ∀ cfg C, t.Inv cfg C → cfg.cacheOnly = true →
      ∀ (env : AttemptEnv) (es : List Eviction) (rounds : List Round) (limit : ScanLimit)
        (field : ScanReturnField) (moves : List (List AttemptEnv)), env.Quiet →
        (∀ es ∈ moves, ∃ env rest, es = env :: rest ∧ env.Quiet) →
      ∃ it its first L, openIter (⟨env, es⟩ :: rounds) key limit field t = some (.ok it, t) ∧
        cursorMoves moves it t = some (.ok its, t) ∧
        List.Forall₂ t.Visits (it :: its) (first :: L) ∧ InRange first.2.1 first.2.2 key ∧
        List.IsChain (fun r r' => r.2.2 = r'.2.1) (first :: L) ∧
        (first :: L).Pairwise (fun r r' => r.2.1 < r'.2.1) ∧
        (t.pages.length ≤ moves.length → ∀ pid lo hi, t.Range (.id pid) lo hi →
          ((pid, lo, hi) ∈ first :: L ↔ hi = [] ∨ key < hi)) := by
  refine ⟨?_, ?_, ?_⟩
  · intro env aggressive landing t' hrun
    obtain ⟨s, hs⟩ := h
    obtain ⟨hsame, hl⟩ := (traverseToLeaf_lands hs env key aggressive).1 landing t' hrun
    exact Lands.fenced hs ⟨hsame.pages ▸ hl.alive, hl.parent, hl.inRange, hl.highFence⟩
  · intro env henv
    obtain ⟨s, hs⟩ := h
    exact traverseToLeaf_returns hs henv.descent key
  · rintro cfg C ⟨s, hok⟩ hcache env es rounds limit field moves henv hmoves
    obtain ⟨it, p, hopen, hp, hin, hvis⟩ :=
      openIter_visits hok hcache henv.descent es rounds key limit field
    have hmoves' : ∀ es ∈ moves, ∃ env rest, es = env :: rest ∧ env.descent = true := by
      intro es hes
      obtain ⟨env, rest, rfl, hq⟩ := hmoves es hes
      exact ⟨env, rest, rfl, hq.descent⟩
    obtain ⟨its, L, hrun, hall, hchain, hsorted, hcomplete⟩ :=
      cursorMoves_visits hok hcache moves hmoves' hp hvis.nextKey
    refine ⟨it, its, (p, s.range (.id p)), L, hopen, hrun, .cons hvis hall, hin, hchain, hsorted, ?_⟩
    intro hlong pid lo hi hrange
    obtain ⟨hpid, heq⟩ := hok.range_eq hrange
    constructor
    · intro hmem
      rcases List.mem_cons.1 hmem with hmem | hmem
      · obtain ⟨rfl, hrp⟩ := Prod.mk.inj hmem
        have := hin.2
        rwa [← hrp] at this
      · -- a later leaf begins after the key
        have hlt : (s.range (.id p)).1 < (s.range (.id pid)).1 := by
          rw [heq]
          exact (List.pairwise_cons.1 hsorted).1 _ hmem
        obtain ⟨hne, hle⟩ := hok.leaf_after hp hpid hlt
        rw [heq] at hle
        have hkey : key < lo := (hin.2.resolve_left hne).trans_le hle
        exact (hok.range_nonempty hrange).imp_right hkey.trans
    · intro hkey
      rcases le_or_gt lo key with hle | hlt
      · have hsame : pid = p := by
          refine hok.shaped.leaf_unique hpid hp ?_ hin
          rw [heq]
          exact ⟨hle, hkey⟩
        rw [← hsame, heq]
        exact List.mem_cons_self
      · have hlow : (s.range (.id p)).1 < (s.range (.id pid)).1 := by
          rw [heq]
          exact hin.1.trans_lt hlt
        have hmem := hcomplete ((leavesFrom_le s _ _).trans hlong) pid hpid hlow
        rw [heq] at hmem
        exact List.mem_cons_of_mem _ hmem

/-- A cache-only tree of two leaves with the separator `[2, 2]`. -/
theorem Structured.high_fence_two_leaves : ∃ t landing it its first L,
    Reachable { Config.default with cacheOnly := true } t ∧ t.separators = [[2, 2]] ∧
    traverseToLeaf calm [1] false t = some (.ok landing, t) ∧ landing.highFence = [2, 2] ∧
    openIter [⟨calm, []⟩] [1] (.count 9) .key t = some (.ok it, t) ∧
    cursorMoves [[calm], [calm]] it t = some (.ok its, t) ∧
    List.Forall₂ t.Visits (it :: its) (first :: L) ∧
    ∀ pid lo hi, t.Range (.id pid) lo hi → ((pid, lo, hi) ∈ first :: L ↔ hi = [] ∨ [1] < hi) := by
  obtain ⟨t₀, t, done, hnew, hrun, hall⟩ := fromNew_eq_some
    (by decide +kernel : fromNew { Config.default with cacheOnly := true } 0 fullLeafAttempts
      (fun _ t => (t.separators, t.pages.length)) = some ([[2, 2]], 2))
  obtain ⟨hseps, hpages⟩ := Prod.mk.inj hall
  have hreach : Reachable { Config.default with cacheOnly := true } t :=
    .attempts _ (.new hnew) (by decide +kernel) hrun
  obtain ⟨C, hinv⟩ := hreach.inv
  have hcalm : calm.Quiet :=
    ⟨rfl, ⟨_, rfl, .inl rfl⟩, rfl, rfl, ⟨⟨_, rfl, .inl rfl⟩, ⟨_, rfl, .inl rfl⟩, rfl, rfl, rfl⟩, rfl⟩
  obtain ⟨hfenced, hreturns, hscan⟩ := hinv.structured.high_fence [1]
  obtain ⟨landing, hland⟩ := hreturns calm hcalm
  have hf := hfenced calm false landing t hland
  have hmoves : ∀ es ∈ [[calm], [calm]], ∃ env rest, es = env :: rest ∧ env.Quiet := by
    intro es hes
    obtain rfl : es = [calm] := by simpa using hes
    exact ⟨calm, [], rfl, hcalm⟩
  obtain ⟨it, its, first, L, hopen, hmoved, hvisits, hin, hchain, hsorted, hcomplete⟩ :=
    hscan _ C hinv rfl calm [] [] (.count 9) .key [[calm], [calm]] hcalm hmoves
  have hfence : landing.highFence = [2, 2] := by
    by_cases he : landing.highFence = []
    · exact absurd (by decide) (hf.empty.1 he [2, 2] (by simp [hseps]))
    · have := (hf.least he).1.1
      simpa [hseps] using this
  exact ⟨t, landing, it, its, first, L, hreach, hseps, hland, hfence, hopen, hmoved, hvisits,
    hcomplete hpages.le⟩

end Tree

end BfTree
