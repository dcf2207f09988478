import BfTree.TreeInv

/-!
# What the operations do to the map

One attempt of an operation, whatever its locks, allocations and dice say, leaves a
tree that stores the old map or the new one. Splits on the way down change the shape
only. The operations follow by induction on the rounds of their retry loop.
-/

namespace BfTree

open Lib LeafNode

namespace Tree

variable {cfg : Config} {s : Shape} {C c : Key → Option Value} {t : Tree} {pid : Nat}
  {parent : Option Nat} {key : Key}

/-! ## Leaf transactions -/

/-- A leaf below its parent can be locked. -/
theorem Ok.lock (h : t.Ok cfg s C) (hpid : pid < t.pages.length)
    (hparent : s.parent (.id pid) = parent) :
    ∃ loc par c, t.pages[pid]? = some loc ∧ t.parentOf parent = some par ∧
      LeafOk cfg (s.range (.id pid)).1 (s.range (.id pid)).2 c loc t.vfs ∧
      ∀ k, InRange (s.range (.id pid)).1 (s.range (.id pid)).2 k → c k = C k := by
  have hloc : t.pages[pid]? = some t.pages[pid] := List.getElem?_eq_getElem hpid
  obtain ⟨c, hleaf, hc⟩ := h.stored.leaf pid _ hloc
  cases parent with
  | none => exact ⟨_, none, c, hloc, rfl, hleaf, hc⟩
  | some ptr =>
    obtain ⟨n, hn, -⟩ := h.shaped.child (x := .id pid) hpid hparent
    exact ⟨_, some ⟨ptr, n⟩, c, hloc, by simp [parentOf, hn], hleaf, hc⟩

theorem patch_eq {lo hi : Key} {c C C' : Key → Option Value}
    (hin : ∀ k, InRange lo hi k → c k = C' k) (hout : ∀ k, ¬ InRange lo hi k → C k = C' k) :
    patch lo hi c C = C' := by
  funext k
  rw [patch]
  split
  · next hk => exact hin k hk
  · next hk => exact hout k hk

theorem loses_patch {lo hi : Key} {c c' C : Key → Option Value} {key : Option Key}
    (hc : ∀ k, InRange lo hi k → c k = C k) (h : Loses cfg key c c') :
    Loses cfg key C (patch lo hi c' C) := by
  cases hcache : cfg.cacheOnly with
  | true =>
    rw [loses_cacheOnly hcache] at h ⊢
    intro k hk
    rw [patch]
    split
    · next hin =>
      rw [← hc k hin]
      exact h k hk
    · exact .inl rfl
  | false =>
    rw [loses_disk hcache] at h ⊢
    subst h
    exact patch_eq hc fun _ _ => rfl

theorem withLeaf_write (h : t.Ok cfg s C) (hpid : pid < t.pages.length)
    (hparent : s.parent (.id pid) = parent) (sizeClasses : List Nat) (env : AttemptEnv)
    {value : Value} {op : OpType}
    (hs : Storable cfg (s.range (.id pid)).1 (s.range (.id pid)).2 key value op) :
    wp (withLeaf pid parent (LeafEntry.write cfg sizeClasses env key value op))
      (fun _ => Reshaped cfg (written C key value op) s t.pages.length key)
      (fun _ t' => ∃ C', Loses cfg (some key) C C' ∧ Reshaped cfg C' s t.pages.length key t') t := by
  obtain ⟨loc, par, c, hloc, hpar, hleaf, hc⟩ := h.lock hpid hparent
  have hpatch : patch (s.range (.id pid)).1 (s.range (.id pid)).2 (written c key value op) C =
      written C key value op := by
    refine patch_eq (fun k hk => ?_) fun k hk => ?_
    · rw [written, written, hc k hk]
    · rw [written, if_neg]
      rintro rfl
      exact hk hs.inRange
  refine wp_withLeaf hloc hpar (wp_mono
    (LeafEntry.write_commits (t := t.lockLeaf pid loc par) sizeClasses env hleaf (h.fresh hloc par)
      h.bounds hs) (fun _ l hl l' hl' => ?_) fun _ l hl l' hl' => ?_)
  · rw [← hpatch]
    exact h.commit hloc hpar hparent (hl l' hl') hs.inRange
  · obtain ⟨c', hloses, hcommit⟩ := hl l' hl'
    exact ⟨_, loses_patch hc hloses, h.commit hloc hpar hparent hcommit hs.inRange⟩

theorem withLeaf_readRecord (h : t.Ok cfg s C) (hpid : pid < t.pages.length)
    (hparent : s.parent (.id pid) = parent) (sizeClasses : List Nat) (env : AttemptEnv)
    (hr : InRange (s.range (.id pid)).1 (s.range (.id pid)).2 key) (hne : key ≠ [])
    (out : List UInt8) :
    wp (withLeaf pid parent (LeafEntry.readRecord cfg sizeClasses env key out))
      (fun r t' => LeafEntry.ReadsAs C key r.1 r.2 ∧ Reshaped cfg C s t.pages.length key t')
      (fun _ => Reshaped cfg C s t.pages.length key) t := by
  obtain ⟨loc, par, c, hloc, hpar, hleaf, hc⟩ := h.lock hpid hparent
  have hpatch : patch (s.range (.id pid)).1 (s.range (.id pid)).2 c C = C :=
    patch_eq hc fun _ _ => rfl
  refine wp_withLeaf hloc hpar (wp_mono
    (LeafEntry.readRecord_commits (t := t.lockLeaf pid loc par) sizeClasses env hleaf
      (h.fresh hloc par) hr hne out) (fun r l hl l' hl' => ?_) fun _ l hl l' hl' => ?_)
  · refine ⟨?_, ?_⟩
    · have hread := hl.1
      cases hres : r.1 with
      | found n => rw [hres] at hread; exact (hc key hr).symm.trans hread
      | deleted => rw [hres] at hread; exact (hc key hr).symm.trans hread
      | notFound => rw [hres] at hread; exact (hc key hr).symm.trans hread
    · rw [← hpatch]
      exact h.commit hloc hpar hparent (hl.2 l' hl') hr
  · rw [← hpatch]
    exact h.commit hloc hpar hparent (hl l' hl') hr

theorem withLeaf_evict (h : t.Ok cfg s C) (hpid : pid < t.pages.length)
    (hparent : s.parent (.id pid) = parent)
    (hr : InRange (s.range (.id pid)).1 (s.range (.id pid)).2 key) (env : Env) :
    Ensures (withLeaf pid parent (LeafEntry.evict cfg env))
      (fun t' => ∃ C', Loses cfg none C C' ∧ Reshaped cfg C' s t.pages.length key t') t := by
  obtain ⟨loc, par, c, hloc, hpar, hleaf, hc⟩ := h.lock hpid hparent
  have hend : ∀ l, LeafEntry.Flushes (fun t' => ∃ c', Loses cfg none c c' ∧
      (t.lockLeaf pid loc par).Committed cfg (s.range (.id pid)).1 (s.range (.id pid)).2 c' t') l →
      LeafEntry.Flushes (fun l => ∃ C', Loses cfg none C C' ∧
        Reshaped cfg C' s t.pages.length key (t.unlockLeaf l)) l := by
    intro l hl l' hl'
    obtain ⟨c', hloses, hcommit⟩ := hl l' hl'
    exact ⟨_, loses_patch hc hloses, h.commit hloc hpar hparent hcommit hr⟩
  exact wp_withLeaf hloc hpar (wp_mono
    (LeafEntry.evict_commits (t := t.lockLeaf pid loc par) hleaf (h.fresh hloc par) env)
    (fun _ => hend) fun _ => hend)

/-- The number of nodes has not changed. -/
def SameSize (t t' : Tree) : Prop :=
  t'.inners.length = t.inners.length ∧ t'.pages.length = t.pages.length ∧ t'.root = t.root

theorem withLeaf_getSplitFlag (h : t.Ok cfg s C) (hpid : pid < t.pages.length)
    (hparent : s.parent (.id pid) = parent) :
    Ensures (withLeaf pid parent LeafEntry.getSplitFlag)
      (fun t' => t'.Ok cfg s C ∧ t.SameSize t') t := by
  obtain ⟨loc, par, c, hloc, hpar, hleaf, hc⟩ := h.lock hpid hparent
  have hpatch : patch (s.range (.id pid)).1 (s.range (.id pid)).2 c C = C :=
    patch_eq hc fun _ _ => rfl
  have hend : ∀ l, LeafEntry.Flushes ((t.lockLeaf pid loc par).Settled cfg
      (s.range (.id pid)).1 (s.range (.id pid)).2 c) l →
      LeafEntry.Flushes (fun l => (t.unlockLeaf l).Ok cfg s C ∧ t.SameSize (t.unlockLeaf l)) l := by
    intro l hl l' hl'
    have hset := hl l' hl'
    refine ⟨?_, ?_, ?_, rfl⟩
    · have := h.settle hloc hpar hparent hset
      rwa [hpatch] at this
    · show (t.setParent l'.parent).length = _
      cases l'.parent with
      | none => rfl
      | some p => exact List.length_set
    · show (t.pages.set l'.pid l'.loc ++ l'.sibling.toList).length = _
      rw [hset.sibling]
      simp
  exact wp_withLeaf hloc hpar (wp_mono
    (LeafEntry.getSplitFlag_commits (t := t.lockLeaf pid loc par) hleaf (h.fresh hloc par))
    (fun _ => hend) fun _ => hend)

/-! ## Splits on the way down -/

theorem wp_getInner {Q : InnerNode → Tree → Prop} {E : TreeError → Tree → Prop} {ptr : Nat}
    (h : ∀ n, t.inners[ptr]? = some n → Q n t) : wp (getInner ptr) Q E t := by
  simp only [getInner, wp_bind, wp_get, wp_unwrap]
  exact h

@[simp] theorem wp_setInner {Q : Unit → Tree → Prop} {E : TreeError → Tree → Prop} (ptr : Nat)
    (n : InnerNode) :
    wp (setInner ptr n) Q E t ↔ Q () { t with inners := t.inners.set ptr n } :=
  wp_modify _

@[simp] theorem wp_allocInner {Q : Nat → Tree → Prop} {E : TreeError → Tree → Prop}
    (n : InnerNode) :
    wp (allocInner n) Q E t ↔ Q t.inners.length { t with inners := t.inners ++ [n] } := by
  simp only [allocInner, wp_bind, wp_get, wp_modify, wp_pure]

@[simp] theorem wp_installRoot {Q : Unit → Tree → Prop} {E : TreeError → Tree → Prop}
    (n : InnerNode) :
    wp (installRoot n) Q E t ↔ Q () { t with
      inners := t.inners ++ [{ n with isRoot := true }]
      root := .inner t.inners.length } := by
  simp only [installRoot, wp_bind, wp_allocInner, wp_modify]

/-- Captures are not part of the tree. -/
theorem Ok.setCaptures (h : t.Ok cfg s C) (cs : List (Nat × Capture)) :
    ({ t with captures := cs } : Tree).Ok cfg s C :=
  ⟨h.config, h.bounds, h.shaped, h.stored, h.rootBase, h.inserted⟩

theorem Ok.setInner {ptr : Nat} {n n' : InnerNode} (h : t.Ok cfg s C)
    (hn : t.inners[ptr]? = some n) (hs : SameNode n n') :
    ({ t with inners := t.inners.set ptr n' } : Tree).Ok cfg s C :=
  ⟨h.config, h.bounds, h.shaped.set_same hn hs, h.stored, h.rootBase, h.inserted⟩

theorem recordInner_spec (slot ptr : Nat) (n : InnerNode) (isRoot : Bool) :
    wp (recordInner slot ptr n isRoot) (fun _ t' => ∃ cs, t' = { t with captures := cs })
      (fun _ _ => False) t := by
  simp only [recordInner, record, wp_bind, wp_modify]
  refine wp_ite (fun _ => ?_) (fun _ => (wp_pure ()).2 ⟨_, rfl⟩)
  simp only [wp_bind, wp_get, wp_assert, wp_modify]
  exact fun _ _ _ => ⟨_, rfl⟩

theorem liftInner_spec (h : t.Ok cfg s C) (g : SnapshotGuard) (ptr : Nat) (isRoot : Bool)
    (save : Option Nat) :
    Ensures (liftInner g ptr isRoot save) (Ok cfg s C) t := by
  simp only [Ensures, liftInner, wp_bind]
  refine wp_getInner fun n hn => ?_
  refine wp_ite (fun _ => ?_) (fun _ => (wp_pure ()).2 h)
  cases save with
  | none =>
    rw [wp_setInner]
    exact h.setInner hn rfl
  | some slot =>
    rw [wp_bind]
    refine wp_mono (recordInner_spec slot ptr n isRoot) ?_ (fun _ _ hf => hf.elim)
    rintro - t₁ ⟨cs, rfl⟩
    rw [wp_setInner]
    exact (h.setCaptures cs).setInner hn rfl

theorem liftInners_spec (g : SnapshotGuard) (save : Option Nat) (nodes : List (Nat × Bool)) :
    ∀ {t : Tree}, t.Ok cfg s C →
      Ensures (nodes.forM fun x => liftInner g x.1 x.2 save) (Ok cfg s C) t := by
  induction nodes with
  | nil => intro t h; exact (wp_pure ()).2 h
  | cons x nodes ih =>
    intro t h
    exact .bind (wp_mono (liftInner_spec h g x.1 x.2 save)
      (fun _ t₁ h₁ => ih h₁) (fun _ _ h₁ => h₁))

theorem versionRuleInner_spec (h : t.Ok cfg s C) (g : SnapshotGuard) (nodes : List (Nat × Bool)) :
    Ensures (versionRuleInner g nodes) (Ok cfg s C) t := by
  simp only [Ensures, versionRuleInner, wp_bind, wp_get]
  cases g.slot with
  | none => exact (wp_pure ()).2 h
  | some slot =>
    cases g.phase with
    | rest => exact liftInners_spec g none nodes h
    | prepare =>
      exact wp_ite (fun _ => (wp_fail _).2 h) (fun _ => (wp_pure ()).2 h)
    | inProgress => exact liftInners_spec g (some slot) nodes h
    | sweep => exact liftInners_spec g (some slot) nodes h

/-- The version rules touch neither the root pointer nor the leaves. -/
theorem versionRuleInner_root (g : SnapshotGuard) (nodes : List (Nat × Bool)) :
    Ensures (versionRuleInner g nodes)
      (fun t' => t'.root = t.root ∧ t'.pages.length = t.pages.length) t := by
  have hlift : ∀ (save : Option Nat) (nodes : List (Nat × Bool)) (t₁ : Tree),
      t₁.root = t.root ∧ t₁.pages.length = t.pages.length →
      Ensures (nodes.forM fun x => liftInner g x.1 x.2 save)
        (fun t' => t'.root = t.root ∧ t'.pages.length = t.pages.length) t₁ := by
    intro save nodes
    induction nodes with
    | nil => intro t₁ h; exact (wp_pure ()).2 h
    | cons x nodes ih =>
      intro t₁ h
      refine .bind ?_
      simp only [liftInner, wp_bind]
      refine wp_getInner fun n hn => ?_
      refine wp_ite (fun _ => ?_) (fun _ => (wp_pure ()).2 (ih t₁ h))
      cases save with
      | none => exact (wp_setInner _ _).2 (ih _ h)
      | some slot =>
        rw [wp_bind]
        refine wp_mono (recordInner_spec slot x.1 n x.2) ?_ (fun _ _ hf => hf.elim)
        rintro - t₂ ⟨cs, rfl⟩
        exact (wp_setInner _ _).2 (ih _ h)
  simp only [Ensures, versionRuleInner, wp_bind, wp_get]
  cases g.slot with
  | none => exact (wp_pure ()).2 ⟨rfl, rfl⟩
  | some slot =>
    cases g.phase with
    | rest => exact hlift none nodes t ⟨rfl, rfl⟩
    | prepare =>
      exact wp_ite (fun _ => (wp_fail _).2 ⟨rfl, rfl⟩)
        (fun _ => (wp_pure ()).2 ⟨rfl, rfl⟩)
    | inProgress => exact hlift (some slot) nodes t ⟨rfl, rfl⟩
    | sweep => exact hlift (some slot) nodes t ⟨rfl, rfl⟩

theorem insert_fst {n : InnerNode} {key : Key} {x : PageID} (h : (n.insert key x).1 = true) :
    n.haveSpaceFor key = true := by
  rw [InnerNode.insert] at h
  split at h
  · cases h
  · next hroom => simpa [InnerNode.haveSpaceFor] using hroom

theorem splitBelow_spec (h : t.Ok cfg s C) {ptr par : Nat} (hp : s.parent (.inner ptr) = some par)
    (env : AttemptEnv) (g : SnapshotGuard) (key : Key) :
    Ensures (splitBelow env g ptr par) (Reshaped cfg C s t.pages.length key) t := by
  have hsame := h.reshaped key
  simp only [Ensures, splitBelow, wp_bind, wp_attempt]
  refine ⟨fun _ => ⟨fun _ => wp_getInner fun p _ => ?_, fun _ _ => hsame⟩, fun _ _ => hsame⟩
  refine wp_mono (wp_and (versionRuleInner_spec h g _) (versionRuleInner_root g _)) ?_
    (fun _ _ h₁ => h₁.2.2 ▸ h₁.1.reshaped key)
  rintro - t₁ ⟨h₁, -, hlen⟩
  refine wp_getInner fun n hn => ?_
  simp only [wp_unwrap, wp_get, insertSeparator, wp_bind]
  intro splitKey hkey
  refine wp_getInner fun p hpn => ?_
  refine wp_ite (fun hins => ?_) (fun _ => ?_)
  · simp only [wp_modify]
    rintro ⟨splitKey', left, next, rest⟩ hsplit
    simp only [wp_setInner, wp_allocInner, wp_pure]
    intro sibling hbuild
    have hok := h₁.shaped.inner ptr n hn
    obtain ⟨-, -, -, -, -, -, -, hkey'⟩ := InnerNode.split_spec hok.seps.sorted hok.sized hsplit
    obtain rfl : splitKey = splitKey' := Option.some.inj (hkey.symm.trans hkey')
    obtain ⟨hshaped, hkeys⟩ :=
      h₁.shaped.splitBelow hn hp hpn hsplit hbuild (insert_fst hins)
    have hrange : ∀ q, (s.splitInner ptr splitKey t₁.inners.length).range (.id q) =
        s.range (.id q) := fun q => by simp [Shape.splitInner, Shape.split]
    refine ⟨_, ⟨h₁.config, h₁.bounds, hshaped, ?_, h₁.rootBase, fun x hx => ?_⟩, hlen.ge,
      fun q _ _ => hrange q⟩
    · have hst := h₁.stored
      simp only [← hrange] at hst
      exact hst
    · rw [List.mem_append, List.mem_singleton] at hx
      rcases hx with hx | rfl
      · exact h₁.inserted x hx
      · exact hkeys
  · simp only [wp_bind, wp_setInner, wp_fail]
    have hmarked : ({ t₁ with inners := t₁.inners.set par { p with splitFlag := true } } : Tree).Ok
        cfg s C := h₁.setInner hpn rfl
    exact hlen ▸ hmarked.reshaped key

theorem splitRoot_spec (h : t.Ok cfg s C) {ptr : Nat} (hroot : t.root = .inner ptr)
    (env : AttemptEnv) (g : SnapshotGuard) (key : Key) :
    Ensures (splitRoot env g ptr) (Reshaped cfg C s t.pages.length key) t := by
  have hsame := h.reshaped key
  simp only [Ensures, splitRoot, wp_bind, wp_attempt]
  refine ⟨fun _ => ?_, fun _ _ => hsame⟩
  refine wp_mono (wp_and (versionRuleInner_spec h g _) (versionRuleInner_root g _))
    ?_ (fun _ _ h₁ => h₁.2.2 ▸ h₁.1.reshaped key)
  rintro - t₁ ⟨h₁, hr₁, hlen⟩
  refine wp_getInner fun n hn => ?_
  simp only [wp_unwrap]
  rintro ⟨splitKey, left, next, rest⟩ hsplit
  simp only [wp_setInner, wp_unwrap, wp_allocInner, wp_installRoot, List.length_set]
  intro sibling hbuild top htop
  have hroot₁ : t₁.root = .inner ptr := hr₁.trans hroot
  have hshaped := h₁.shaped
  rw [hroot₁] at hshaped
  have hnew := hshaped.splitRoot hn hsplit hbuild htop
  have hrange : ∀ q, ((s.splitInner ptr splitKey t₁.inners.length).raise (.inner ptr)
      (.inner t₁.inners.length) (t₁.inners.length + 1)).range (.id q) = s.range (.id q) :=
    fun q => by simp [Shape.raise, Shape.splitInner, Shape.split]
  refine ⟨(s.splitInner ptr splitKey t₁.inners.length).raise (.inner ptr)
    (.inner t₁.inners.length) (t₁.inners.length + 1),
    ⟨h₁.config, h₁.bounds, ?_, ?_, fun _ q hq => ?_, h₁.inserted⟩, hlen.ge, fun q _ _ => hrange q⟩
  · simpa using hnew
  · have hst := h₁.stored
    simp only [← hrange] at hst
    exact hst
  · cases hq

theorem root_of_parent (h : t.Ok cfg s C) {x : PageID}
    (hx : x.Alive t.inners.length t.pages.length) (hp : s.parent x = none) : t.root = x := by
  by_contra hne
  obtain ⟨ptr, n, hn, hmem⟩ := h.shaped.below x hx fun he => hne he.symm
  obtain ⟨a, b, hab⟩ := InnerNode.mem_children_iff (r := s.range (.inner ptr)).1 hmem
  have := ((h.shaped.inner ptr n hn).child a b x hab).parent
  rw [hp] at this
  cases this

/-- The root leaf has been cut in two, and a root is put above it. -/
theorem Ok.raiseRoot (h : t.Ok cfg s C) (hroot : t.root = .id pid) {loc : PageLocation}
    (hloc : t.pages[pid]? = some loc) {l : LeafEntry} {ver : Nat} {n : InnerNode}
    (hc : ∀ k, c k = C k) (hl : (t.lockLeaf pid loc none).RootHalved cfg c key l)
    (hbuild : InnerNode.build (.id pid) true [(key, .id t.pages.length)] ver = some n) (k : Key) :
    Reshaped cfg C s t.pages.length k { t.unlockLeaf l with
      inners := (t.unlockLeaf l).inners ++ [{ n with isRoot := true }]
      root := .inner (t.unlockLeaf l).inners.length } := by
  obtain ⟨sibling, hl, hp, hins⟩ := hl
  have hpid : pid < t.pages.length := (List.getElem?_eq_some_iff.1 hloc).1
  have hpages : (t.unlockLeaf l).pages = t.pages.set pid l.loc ++ [sibling] := by
    rw [unlockLeaf, hl.sibling_eq, hl.frame.pid]
    rfl
  have hnext : (t.unlockLeaf l).nextOffset = t.nextOffset + t.config.leafPageSize := by
    simp [unlockLeaf, hl.sibling_eq]
  have hinners : (t.unlockLeaf l).inners = t.inners := by
    have hpar : l.parent = none := by
      cases hlp : l.parent with
      | none => rfl
      | some q => rw [hlp] at hp; exact hp.elim
    rw [unlockLeaf, hpar]
    rfl
  have hshaped := h.shaped
  rw [hroot] at hshaped
  have hrange : s.range (.id pid) = ([], []) := hshaped.root_range
  have hkey : key ≠ [] := nil_lt_iff.1 hl.lo_lt
  have hne : PageID.id pid ≠ .id t.pages.length := by simp; omega
  have hpatch : patch (s.range (.id pid)).1 (s.range (.id pid)).2 c C = C :=
    patch_eq (fun k _ => hc k) fun _ _ => rfl
  refine ⟨(s.split (.id pid) key (.id t.pages.length)).raise (.id pid) (.id t.pages.length)
    t.inners.length, ⟨h.config, h.bounds, ?_, ?_, fun _ q hq => ?_, fun x hx => ?_⟩, ?_,
    fun q hq hkeep => ?_⟩
  · dsimp only
    rw [hpages, hinners, List.length_append, List.length_set]
    exact hshaped.splitRootLeaf hkey hbuild
  · rw [← hpatch]
    dsimp only
    rw [hpages, hnext]
    have hlo : (s.range (.id pid)).1 < key := by rw [hrange]; exact hl.lo_lt
    refine h.stored.split hloc (by rw [hrange]; exact hl.left) (by rw [hrange]; exact hl.right) hlo
      (by rw [hrange]; exact hl.lt_hi) hl.frame.offset hl.offset ?_ hl.frame.vfs (h.disjoint hloc)
      ?_ ?_ fun r hr hrp => ?_
    · have := h.bounds.leaf_pos
      rw [h.config]
      omega
    · simp [Shape.raise, Shape.split, hne]
    · simp [Shape.raise, Shape.split]
    · have hrne : PageID.id r ≠ .id t.pages.length := by simp; omega
      have hrpid : PageID.id r ≠ .id pid := by simpa using hrp
      simp [Shape.raise, Shape.split, hrne, hrpid]
  · cases hq
  · have hins' : (t.unlockLeaf l).inserted = t.inserted := hins
    dsimp only at hx
    rw [hins'] at hx
    exact h.inserted x hx
  · dsimp only
    rw [hpages, List.length_append, List.length_set]
    exact Nat.le_add_right _ _
  · -- the root leaf is the only one, and every key is in its range
    obtain rfl := hshaped.leaf_eq_root hq
    dsimp only at hkeep
    rw [hpages, hrange] at hkeep
    simp [inRange_nil_nil] at hkeep

theorem splitLeaf_spec (h : t.Ok cfg s C) (hroot : t.root = .id pid) (env : AttemptEnv)
    (g : SnapshotGuard) (k : Key) :
    Ensures (splitLeaf env g pid) (Reshaped cfg C s t.pages.length k) t := by
  have hshaped := h.shaped
  rw [hroot] at hshaped
  have hrange : s.range (.id pid) = ([], []) := hshaped.root_range
  have halive : pid < t.pages.length := hshaped.root_alive
  obtain ⟨loc, par, c, hloc, hpar, hleaf, hc⟩ := h.lock halive hshaped.root_parent
  obtain rfl : none = par := by simpa [parentOf] using hpar
  rw [hrange] at hleaf hc
  have hbase : cfg.cacheOnly = false → ∃ o, loc = .base o := by
    intro hcache
    obtain ⟨o, ho⟩ := h.rootBase hcache pid hroot
    exact ⟨o, Option.some.inj (hloc.symm.trans ho)⟩
  have hpatch : patch [] [] c C = C :=
    patch_eq hc fun _ _ => rfl
  simp only [Ensures, splitLeaf, wp_bind, wp_get]
  rw [h.config]
  refine wp_withLeaf hloc hpar (wp_mono
    (LeafEntry.splitRootLeaf_commits (t := t.lockLeaf pid loc none) env hleaf (h.fresh hloc none)
      hbase g) (fun key l hl l' hl' => ?_) fun _ l hl l' hl' => ?_)
  · simp only [wp_unwrap, wp_installRoot]
    intro n hbuild
    exact h.raiseRoot hroot hloc (fun k => hc k (inRange_nil_nil k)) (hl l' hl') hbuild k
  · have hset := hl l' hl'
    rw [show (t.lockLeaf pid loc none).Settled cfg [] [] c l' ↔ (t.lockLeaf pid loc none).Settled cfg
      (s.range (.id pid)).1 (s.range (.id pid)).2 c l' by rw [hrange]] at hset
    have := h.settle hloc hpar hshaped.root_parent hset
    rw [hrange, hpatch] at this
    have hlen : (t.unlockLeaf l').pages.length = t.pages.length := by
      rw [unlockLeaf, hset.sibling, hset.frame.pid]
      simp [lockLeaf]
    exact hlen ▸ this.reshaped k

/-- Without a split only the leaf's buffer is used. -/
theorem trySplitLeaf_spec (h : t.Ok cfg s C) (hpid : pid < t.pages.length)
    (hparent : s.parent (.id pid) = parent) (env : AttemptEnv) (key : Key) :
    wp (trySplitLeaf env pid parent)
      (fun split t' => if split then Reshaped cfg C s t.pages.length key t'
        else t'.Ok cfg s C ∧ t.SameSize t')
      (fun _ => Reshaped cfg C s t.pages.length key) t := by
  simp only [trySplitLeaf, wp_bind]
  refine wp_mono (withLeaf_getSplitFlag h hpid hparent) (fun flag t₁ h₁ => ?_)
    (fun _ _ h₁ => h₁.2.2.1 ▸ h₁.1.reshaped key)
  refine wp_ite (fun _ => (wp_pure _).2 (by simpa using h₁)) (fun _ => ?_)
  rw [wp_bind]
  refine wp_takeGuard (h₁.2.2.1 ▸ h₁.1.reshaped key) fun g => ?_
  simp only [wp_bind, wp_assert]
  intro hnone
  have hpar : s.parent (.id pid) = none := hparent.trans (Option.isNone_iff_eq_none.1 hnone)
  have hroot : t₁.root = .id pid := by
    refine root_of_parent h₁.1 ?_ hpar
    show pid < t₁.pages.length
    rw [h₁.2.2.1]
    exact hpid
  have hsplit := splitLeaf_spec h₁.1 hroot env g key
  rw [h₁.2.2.1] at hsplit
  refine wp_mono hsplit (fun _ t₂ h₂ => ?_) (fun _ _ h₂ => h₂)
  exact (wp_pure true).2 h₂

theorem trySplitInner_spec (h : t.Ok cfg s C) {ptr : Nat} (hptr : ptr < t.inners.length)
    (hparent : s.parent (.inner ptr) = parent) (env : AttemptEnv) (key : Key) :
    wp (trySplitInner env ptr parent)
      (fun split t' => if split then Reshaped cfg C s t.pages.length key t'
        else t'.Ok cfg s C ∧ t.SameSize t')
      (fun _ => Reshaped cfg C s t.pages.length key) t := by
  simp only [trySplitInner, wp_bind]
  refine wp_getInner fun n hn => ?_
  refine wp_ite (fun _ => (wp_pure _).2 (by simpa using ⟨h, rfl, rfl, rfl⟩)) (fun _ => ?_)
  rw [wp_bind]
  refine wp_takeGuard (h.reshaped key) fun g => ?_
  have hsplit : Ensures (splitInner env g ptr parent)
      (Reshaped cfg C s t.pages.length key) t := by
    cases parent with
    | none => exact splitRoot_spec h (root_of_parent h hptr hparent) env g key
    | some par => exact splitBelow_spec h hparent env g key
  rw [wp_bind]
  exact wp_mono hsplit (fun _ t₂ h₂ => (wp_pure true).2 h₂) (fun _ _ h₂ => h₂)

/-! ## Descent -/

theorem splitMarked_spec (h : t.Ok cfg s C) {cur : PageID}
    (hcur : cur.Alive t.inners.length t.pages.length) (hparent : s.parent cur = parent)
    (env : AttemptEnv) (aggressive : Bool) (key : Key) :
    wp (splitMarked env aggressive cur cur.isLeaf parent)
      (fun _ t' => t'.Ok cfg s C ∧ t.SameSize t')
      (fun _ => Reshaped cfg C s t.pages.length key) t := by
  refine wp_ite (fun _ => ?_) (fun _ => (wp_pure ()).2 ⟨h, rfl, rfl, rfl⟩)
  have hsplit : wp (trySplit env cur cur.isLeaf parent)
      (fun split t' => if split then Reshaped cfg C s t.pages.length key t'
        else t'.Ok cfg s C ∧ t.SameSize t')
      (fun _ => Reshaped cfg C s t.pages.length key) t := by
    cases cur with
    | id pid => exact trySplitLeaf_spec h hcur hparent env key
    | inner ptr => exact trySplitInner_spec h hcur hparent env key
  rw [wp_bind]
  refine wp_mono hsplit (fun split t₁ h₁ => ?_) (fun _ _ h₁ => h₁)
  cases split with
  | true => exact (wp_fail _).2 h₁
  | false => exact (wp_pure ()).2 h₁

/-- The leaf where a descent for the key ends. -/
structure Lands (s : Shape) (t : Tree) (key : Key) (landing : Landing) : Prop where
  alive : landing.pid < t.pages.length
  parent : s.parent (.id landing.pid) = landing.parent
  inRange : InRange (s.range (.id landing.pid)).1 (s.range (.id landing.pid)).2 key
  highFence : (s.range (.id landing.pid)).2 = landing.highFence

theorem traverseFrom_spec (env : AttemptEnv) (key : Key) (aggressive : Bool) (fuel : Nat) :
    ∀ {t : Tree} {cur : PageID} {parent : Option Nat} {highFence : Key}, t.Ok cfg s C →
      cur.Alive t.inners.length t.pages.length → s.parent cur = parent →
      InRange (s.range cur).1 (s.range cur).2 key → (s.range cur).2 = highFence →
      wp (traverseFrom env key aggressive fuel cur cur.isLeaf parent highFence)
        (fun landing t' => t'.Ok cfg s C ∧ Lands s t' key landing ∧
          t'.pages.length = t.pages.length)
        (fun _ => Reshaped cfg C s t.pages.length key) t := by
  induction fuel with
  | zero => intros; exact wp_crash.2 trivial
  | succ fuel ih =>
    intro t cur parent highFence h hcur hparent hkey hfence
    have hsplit := splitMarked_spec h hcur hparent env aggressive key
    cases cur with
    | id pid =>
      simp only [PageID.isLeaf, traverseFrom, wp_bind, wp_pure] at hsplit ⊢
      refine wp_mono hsplit ?_ (fun _ _ h₁ => h₁)
      rintro - t₁ ⟨h₁, -, hp₁, -⟩
      refine ⟨h₁, ⟨?_, hparent, hkey, hfence⟩, hp₁⟩
      rw [hp₁]
      exact hcur
    | inner ptr =>
      simp only [PageID.isLeaf, traverseFrom, wp_bind] at hsplit ⊢
      refine wp_mono hsplit ?_ (fun _ _ h₁ => h₁)
      rintro - t₁ ⟨h₁, -, hp₁, -⟩
      refine wp_getInner fun n hn => ?_
      rw [wp_unwrap]
      intro x hx
      obtain ⟨y, hy, hchild, hin, hfence'⟩ := (h₁.shaped.inner ptr n hn).route hkey
      obtain rfl : x = y := Option.some.inj (hx.symm.trans hy)
      rw [hfence] at hfence'
      rw [← hchild.kind]
      have hnext := ih h₁ hchild.alive hchild.parent hin hfence'
      rwa [hp₁] at hnext

theorem traverseToLeaf_reshapes (h : t.Ok cfg s C) (env : AttemptEnv) (key : Key)
    (aggressive : Bool) :
    wp (traverseToLeaf env key aggressive)
      (fun landing t' => t'.Ok cfg s C ∧ Lands s t' key landing ∧
        t'.pages.length = t.pages.length)
      (fun _ => Reshaped cfg C s t.pages.length key) t := by
  simp only [traverseToLeaf, wp_bind, wp_attempt, wp_get]
  refine ⟨fun _ => ?_, fun _ _ => h.reshaped key⟩
  refine traverseFrom_spec env key aggressive _ h h.shaped.root_alive h.shaped.root_parent ?_ ?_
  · rw [h.shaped.root_range]
    exact inRange_nil_nil key
  · rw [h.shaped.root_range]

theorem traverseToLeaf_spec (h : t.Ok cfg s C) (env : AttemptEnv) (key : Key) (aggressive : Bool) :
    wp (traverseToLeaf env key aggressive)
      (fun landing t' => t'.Ok cfg s C ∧ Lands s t' key landing) (fun _ => Inv cfg C) t :=
  wp_mono (traverseToLeaf_reshapes h env key aggressive) (fun _ _ h₁ => ⟨h₁.1, h₁.2.1⟩)
    fun _ _ h₁ => h₁.inv

/-! ## Attempts -/

theorem validKey_iff : validKey cfg key = true ↔
    key.length ≤ cfg.maxFenceLen / 2 ∧ key.length ≤ maxKeyLen ∧ key ≠ [] := by
  simp [validKey, and_assoc]

theorem validRecord_iff {value : Value} : validRecord cfg key value = true ↔
    validKey cfg key = true ∧ value.length ≤ maxValueLen ∧
      key.length + value.length ≤ cfg.cbMaxRecordSize ∧
      cfg.cbMinRecordSize ≤ key.length + value.length := by
  simp [validRecord, and_assoc]

/-- A record that an operation may write. -/
structure Writable (cfg : Config) (key : Key) (value : Value) (op : OpType) : Prop where
  nonempty : key ≠ []
  dirty : op.isDirty = true
  small : key.length + value.length ≤ cfg.cbMaxRecordSize

theorem writable_insert {value : Value} (h : validRecord cfg key value = true) :
    Writable cfg key value .insert := by
  obtain ⟨hkey, -, hsmall, -⟩ := validRecord_iff.1 h
  exact ⟨(validKey_iff.1 hkey).2.2, rfl, hsmall⟩

theorem writable_delete (hcfg : cfg.Bounds) (h : validKey cfg key = true) :
    Writable cfg key [] .delete := by
  obtain ⟨hlen, -, hne⟩ := validKey_iff.1 h
  exact ⟨hne, rfl, by simpa using hlen.trans hcfg.fence_le⟩

theorem writeInner_reshapes (h : t.Ok cfg s C) (env : AttemptEnv) {value : Value} {op : OpType}
    (hw : Writable cfg key value op) (aggressive : Bool) :
    wp (writeInner env key value op aggressive)
      (fun _ => Reshaped cfg (written C key value op) s t.pages.length key)
      (fun _ t' => ∃ C', Loses cfg (some key) C C' ∧ Reshaped cfg C' s t.pages.length key t') t := by
  simp only [writeInner, wp_bind, wp_get]
  refine wp_mono (traverseToLeaf_reshapes h env key aggressive) ?_
    (fun _ _ h₁ => ⟨C, .refl _ _ _, h₁⟩)
  rintro landing t₁ ⟨h₁, hland, hlen⟩
  rw [h₁.config, ← hlen]
  exact withLeaf_write h₁ hland.alive hland.parent _ env
    ⟨hland.inRange, hw.nonempty, hw.dirty, hw.small⟩

theorem writeInner_spec (h : t.Inv cfg C) (env : AttemptEnv) {value : Value} {op : OpType}
    (hw : Writable cfg key value op) (aggressive : Bool) :
    wp (writeInner env key value op aggressive)
      (fun _ => Inv cfg (written C key value op))
      (fun _ t' => ∃ C', Loses cfg (some key) C C' ∧ t'.Inv cfg C') t := by
  obtain ⟨s, h⟩ := h
  exact wp_mono (writeInner_reshapes h env hw aggressive) (fun _ _ h₁ => h₁.inv)
    fun _ _ ⟨C', hl, h₁⟩ => ⟨C', hl, h₁.inv⟩

theorem readInner_reshapes (h : t.Ok cfg s C) (env : AttemptEnv) (hne : key ≠ [])
    (out : List UInt8) (aggressive : Bool) :
    wp (readInner env key out aggressive)
      (fun r t' => LeafEntry.ReadsAs C key r.1 r.2 ∧ Reshaped cfg C s t.pages.length key t')
      (fun _ => Reshaped cfg C s t.pages.length key) t := by
  simp only [readInner, wp_bind, wp_get]
  refine wp_mono (traverseToLeaf_reshapes h env key aggressive) ?_ (fun _ _ h₁ => h₁)
  rintro landing t₁ ⟨h₁, hland, hlen⟩
  rw [h₁.config, ← hlen]
  exact withLeaf_readRecord h₁ hland.alive hland.parent _ env hland.inRange hne out

theorem readInner_spec (h : t.Inv cfg C) (env : AttemptEnv) (hne : key ≠ []) (out : List UInt8)
    (aggressive : Bool) :
    wp (readInner env key out aggressive)
      (fun r t' => LeafEntry.ReadsAs C key r.1 r.2 ∧ t'.Inv cfg C) (fun _ => Inv cfg C) t := by
  obtain ⟨s, h⟩ := h
  exact wp_mono (readInner_reshapes h env hne out aggressive)
    (fun _ _ h₁ => ⟨h₁.1, h₁.2.inv⟩) fun _ _ h₁ => h₁.inv

/-- Choosing a key does not change the tree. -/
theorem evictionKey_same (e : Eviction) : Ensures (evictionKey e) (fun t' => t' = t) t := by
  simp only [Ensures, evictionKey, wp_bind, wp_get]
  split
  · split
    · exact (wp_pure _).2 rfl
    · exact wp_ite (fun _ => (wp_fail _).2 rfl) (fun _ => (wp_pure _).2 rfl)
  · split
    · exact (wp_pure _).2 rfl
    · exact wp_ite (fun _ => (wp_fail _).2 rfl) (fun _ => (wp_pure _).2 rfl)
  · exact (wp_fail _).2 rfl

theorem evictionCallback_spec (h : t.Inv cfg C) (e : Eviction) :
    Ensures (evictionCallback e) (fun t' => ∃ C', Loses cfg none C C' ∧ t'.Inv cfg C') t := by
  have hsame : ∀ {t' : Tree}, t'.Inv cfg C → ∃ C', Loses cfg none C C' ∧ t'.Inv cfg C' :=
    fun h' => ⟨C, .refl _ _ _, h'⟩
  obtain ⟨s, h⟩ := h
  refine .bind (wp_mono (evictionKey_same e) ?_ ?_)
  · rintro key t₁ rfl
    refine .bind (wp_mono (traverseToLeaf_spec h e.env key true) ?_
      (fun _ _ h₁ => hsame h₁))
    rintro landing t₁ ⟨h₁, hland⟩
    refine wp_ite (fun _ => ?_) (fun _ => (wp_fail _).2 (hsame ⟨s, h₁⟩))
    simp only [wp_bind, wp_get]
    rw [h₁.config]
    refine (withLeaf_evict h₁ hland.alive hland.parent hland.inRange e.env.leaf).mono ?_
    rintro t₂ ⟨C', hl, h₂⟩
    exact ⟨C', hl, h₂.inv⟩
  · rintro - t₁ rfl
    exact hsame ⟨s, h⟩

theorem evictFromCircularBuffer_spec (es : List Eviction) : ∀ {C : Key → Option Value} {t : Tree},
    t.Inv cfg C → Ensures (evictFromCircularBuffer es)
      (fun t' => ∃ C', Loses cfg none C C' ∧ t'.Inv cfg C') t := by
  induction es with
  | nil => intro C t h; exact (wp_pure ()).2 ⟨C, .refl _ _ _, h⟩
  | cons e es ih =>
    intro C t h
    refine .bind (wp_mono (evictionCallback_spec h e) ?_ (fun _ _ h₁ => h₁))
    rintro - t₁ ⟨C₁, hl₁, h₁⟩
    refine (ih h₁).mono ?_
    rintro t₂ ⟨C₂, hl₂, h₂⟩
    exact ⟨C₂, hl₁.trans hl₂, h₂⟩

/-! ## Operations -/

/-- A retry loop ends with a successful attempt, after attempts that failed and
evictions. -/
theorem retry_spec {α : Type} {m : AttemptEnv → Bool → M α} {key : Option Key}
    {Q : (Key → Option Value) → α → Tree → Prop} {lockedSplits : Bool}
    (hm : ∀ {C : Key → Option Value} {t : Tree} (env : AttemptEnv) (aggressive : Bool),
      t.Inv cfg C → wp (m env aggressive) (Q C)
        (fun _ t' => ∃ C', Loses cfg key C C' ∧ t'.Inv cfg C') t) (rounds : List Round) :
    ∀ {C : Key → Option Value} {t : Tree} {aggressive : Bool}, t.Inv cfg C →
      wp (retry m lockedSplits rounds aggressive)
        (fun a t' => ∃ C', Loses cfg key C C' ∧ Q C' a t') (fun _ _ => False) t := by
  induction rounds with
  | nil => intros; exact wp_crash.2 trivial
  | cons r rounds ih =>
    intro C t aggressive h
    have hnext : ∀ {C' : Key → Option Value} {t' : Tree} {aggressive : Bool}, Loses cfg key C C' →
        t'.Inv cfg C' → wp (retry m lockedSplits rounds aggressive)
          (fun a t' => ∃ C', Loses cfg key C C' ∧ Q C' a t') (fun _ _ => False) t' := by
      intro C' t' aggressive hl h'
      refine wp_mono (ih h') ?_ (fun _ _ hf => hf)
      rintro a t'' ⟨C'', hl', hq⟩
      exact ⟨C'', hl.trans hl', hq⟩
    rw [retry, wp_handle]
    refine wp_mono (hm r.env aggressive h) (fun a t' hq => ⟨C, .refl _ _ _, hq⟩) ?_
    rintro e t' ⟨C', hl, h'⟩
    cases e with
    | needRestart => exact hnext hl h'
    | locked => exact hnext hl h'
    | circularBufferFull =>
      rw [wp_bind, wp_ignore]
      refine (evictFromCircularBuffer_spec r.evictions h').mono ?_
      rintro t'' ⟨C'', hl', h''⟩
      exact hnext (hl.trans (hl'.of_none key)) h''

end Tree

end BfTree
