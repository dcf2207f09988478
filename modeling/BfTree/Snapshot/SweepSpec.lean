import BfTree.Snapshot.CprSnapshot
import BfTree.TreePages

/-!
# What the sweep writes

The visitor yields every node once. The sweep of a tree in which nothing is newer than the
snapshot writes the image of every inner node and of every page.
-/

namespace BfTree

open Lib

theorem mapM_of_forall {α β : Type} {f : α → Option β} {g : α → β} {l : List α}
    (h : ∀ a ∈ l, f a = some (g a)) : l.mapM f = some (l.map g) := by
  induction l with
  | nil => rfl
  | cons a l ih => simp_all [List.mapM_cons]

namespace Tree

variable {cfg : Config} {s : Shape} {C : Key → Option Value} {t : Tree} {innerOnly : Bool}
  {version pid : Nat} {x y : PageID} {seen queue : List PageID}

/-! ## The visitor -/

theorem mem_below (h : y ∈ t.below innerOnly x) : ∃ ptr n, x = .inner ptr ∧ t.inners[ptr]? = some n ∧
    y ∈ n.children ∧ ¬ (innerOnly = true ∧ n.childrenIsLeaf = true) := by
  cases x with
  | id pid => cases h
  | inner ptr => grind [below]

theorem Ok.childOk (h : t.Ok cfg s C) {ptr : Nat} {n : InnerNode} (hn : t.inners[ptr]? = some n)
    (hx : x ∈ n.children) :
    ∃ a b, ChildOk s t.inners.length t.pages.length ptr n.childrenIsLeaf a b x := by
  obtain ⟨a, b, hm⟩ := InnerNode.mem_children_iff (r := s.range (.inner ptr)).1 hx
  exact ⟨a, b, (h.shaped.inner ptr n hn).child a b x hm⟩

/-- A child of a node. -/
theorem Ok.child (h : t.Ok cfg s C) (hy : y ∈ t.below innerOnly x) :
    ∃ ptr, x = .inner ptr ∧ s.parent y = some ptr ∧ y.Alive t.inners.length t.pages.length ∧
      (innerOnly = true → y.isLeaf = false) := by
  obtain ⟨ptr, n, rfl, hn, hmem, hleaf⟩ := mem_below hy
  obtain ⟨a, b, hc⟩ := h.childOk hn hmem
  exact ⟨ptr, rfl, hc.parent, hc.alive, fun hi => by simpa [hc.kind, hi] using hleaf⟩

theorem Ok.rooted (h : t.Ok cfg s C) (innerOnly : Bool) : Rooted (t.below innerOnly) t.root where
  root x hx := by
    obtain ⟨ptr, -, hp, -⟩ := h.child hx
    cases h.shaped.root_parent.symm.trans hp
  nodup x := by
    cases x with
    | id pid => exact .nil
    | inner ptr =>
      rw [below]
      split
      · next n hn =>
        split
        · exact .nil
        · -- the parts of two slots start at different keys
          have hok := h.shaped.inner ptr n hn
          rw [InnerNode.children, ← spans_children (s.range (.inner ptr)).1 (s.range (.inner ptr)).2]
          refine List.pairwise_map.2 ((hok.seps.spans_pairwise n.leftMost).imp_of_mem ?_)
          intro p q hp hq hlt heq
          have hrange := (hok.child p.1 p.2.1 p.2.2 hp).range
          rw [heq, (hok.child q.1 q.2.1 q.2.2 hq).range] at hrange
          exact absurd hlt (by simp [(Prod.mk.inj hrange).1])
      · exact .nil
  parent x y z hx hy := by
    obtain ⟨ptr, rfl, hp, -⟩ := h.child hx
    obtain ⟨ptr', rfl, hp', -⟩ := h.child hy
    rw [Option.some.inj (hp.symm.trans hp')]

/-- What a visit comes to. -/
theorem Ok.mem_frontier (h : t.Ok cfg s C)
    (hF : Frontier (t.below innerOnly) t.root seen queue) (hx : x ∈ seen ++ queue) :
    x.Alive t.inners.length t.pages.length ∧ (innerOnly = true → x.isLeaf = true → x = t.root) := by
  rcases hF.source x hx with rfl | ⟨y, -, hy⟩
  · exact ⟨h.shaped.root_alive, fun _ _ => rfl⟩
  · obtain ⟨-, -, -, halive, hinner⟩ := h.child hy
    exact ⟨halive, fun hi hl => by simp [hinner hi] at hl⟩

/-- How many nodes a visit can come to. -/
def bound (t : Tree) (innerOnly : Bool) : Nat :=
  t.inners.length + if innerOnly && !t.root.isLeaf then 0 else t.pages.length

theorem Ok.length_frontier (h : t.Ok cfg s C)
    (hF : Frontier (t.below innerOnly) t.root seen queue) :
    (seen ++ queue).length ≤ t.bound innerOnly := by
  let dom := (List.range t.inners.length).map PageID.inner ++
    if innerOnly && !t.root.isLeaf then [] else (List.range t.pages.length).map .id
  have hsub : ∀ x ∈ seen ++ queue, x ∈ dom := by
    intro x hx
    have := h.mem_frontier hF hx
    cases x <;> grind [PageID.Alive, PageID.isLeaf]
  have := (hF.nodup.subperm hsub).length_le
  grind [bound]

/-- A visit that is long enough reaches every node it can. -/
theorem Ok.visited (h : t.Ok cfg s C) {fuel : Nat} (hfuel : t.bound innerOnly ≤ fuel) :
    Frontier (t.below innerOnly) t.root (bfs (t.below innerOnly) fuel [t.root]) [] ∧
      ∀ x, x.Alive t.inners.length t.pages.length → (innerOnly = true → x.isLeaf = false) →
        x ∈ bfs (t.below innerOnly) fuel [t.root] := by
  have hrun := (Frontier.start (t.below innerOnly) t.root).run (h.rooted innerOnly)
    h.length_frontier (by simpa using hfuel)
  rw [List.nil_append] at hrun
  refine ⟨hrun, fun x hx hleaf => ?_⟩
  -- induction from the root down
  induction hd : s.level t.root - s.level x using Nat.strongRecOn generalizing x with
  | _ d ih =>
    by_cases hne : x = t.root
    · simpa [hne] using hrun.mem_root
    · obtain ⟨ptr, n, hn, hc⟩ := h.shaped.below x hx hne
      obtain ⟨a, b, hchild⟩ := h.childOk hn hc
      have hl := hchild.level
      have hle := h.shaped.level_le (.inner ptr) (Shaped.alive_inner hn)
      have hmem := ih _ (by omega) (.inner ptr) (Shaped.alive_inner hn) (fun _ => rfl) rfl
      have hkind := hchild.kind
      have hx : x ∈ t.below innerOnly (.inner ptr) := by
        simp only [below, hn]
        grind
      simpa using hrun.closed _ hmem x hx

/-- The visitor yields every node once, or every inner node and the root. -/
theorem Ok.visitor (h : t.Ok cfg s C) (innerOnly : Bool) :
    (t.bfsVisitor innerOnly).Nodup ∧ ∀ x, x ∈ t.bfsVisitor innerOnly ↔
      x.Alive t.inners.length t.pages.length ∧ (innerOnly = true → x.isLeaf = true → x = t.root) := by
  have hfuel : t.bound innerOnly ≤ t.inners.length + t.pages.length := by grind [bound]
  obtain ⟨hrun, hall⟩ := h.visited hfuel
  rw [bfsVisitor]
  refine ⟨by simpa using hrun.nodup, fun x => ⟨fun hx => h.mem_frontier hrun (by simpa using hx),
    fun ⟨hx, hleaf⟩ => ?_⟩⟩
  by_cases he : x = t.root
  · simpa [he] using hrun.mem_root
  · exact hall x hx fun hi => by simpa [he] using hleaf hi

/-! ## The sweep -/

/-- The cached page of a leaf and its base page. -/
def pagesOf (t : Tree) : PageLocation → List LeafNode
  | .mini p | .full p => p :: (p.nextLevel.bind t.vfs).toList
  | .base offset => (t.vfs offset).toList
  | .null => []

/-- Nothing belongs to a later version. -/
def Ready (t : Tree) (version : Nat) : Prop :=
  (∀ n ∈ t.inners, n.snapshotVersion ≤ version) ∧
    ∀ loc ∈ t.pages, ∀ p ∈ t.pagesOf loc, p.snapshotVersion ≤ version

instance decidableReady (t : Tree) (version : Nat) : Decidable (t.Ready version) :=
  inferInstanceAs (Decidable (_ ∧ _))

/-- The attempts that split the root leaf, under a snapshot guard. -/
def guardedAttempts : List Attempt :=
  let guard : Option SnapshotGuard := some ⟨some 0, 0, .rest⟩
  let env := { calm with splitGuard := guard, leaf := { calm.leaf with snapshotGuard := guard } }
  let insert key := Attempt.insert env [key, 2] (List.replicate 1900 0)
  [insert 1 false, insert 2 false, insert 3 false, insert 3 true, insert 3 true]

theorem exists_ready : ∃ t, Reachable Config.default t ∧ t.root = .inner 0 ∧ t.Ready 0 := by
  obtain ⟨t₀, t, done, hnew, hrun, ht⟩ := fromNew_eq_some
    (by decide +kernel : fromNew Config.default 0 guardedAttempts
      (fun _ t => (t.root, decide (t.Ready 0))) = some (.inner 0, true))
  obtain ⟨hroot, hready⟩ := Prod.mk.inj ht
  exact ⟨t, .attempts _ (.new hnew) (by decide +kernel) hrun, hroot, of_decide_eq_true hready⟩

/-- The visitor reaches every node of the tree exactly once. -/
theorem reachable_bfsVisitor (h : Reachable cfg t) (innerOnly : Bool) :
    (t.bfsVisitor innerOnly).Nodup ∧ ∀ x, x ∈ t.bfsVisitor innerOnly ↔
      x.Alive t.inners.length t.pages.length ∧ (innerOnly = true → x.isLeaf = true → x = t.root) := by
  obtain ⟨C, s, h⟩ := h.inv
  exact h.visitor innerOnly

theorem reachable_bfsVisitor_sample : ∃ t, Reachable Config.default t ∧ t.root = .inner 0 ∧
    (t.bfsVisitor false).Nodup := by
  obtain ⟨t, h, hroot, -⟩ := exists_ready
  exact ⟨t, h, hroot, (reachable_bfsVisitor h false).1⟩

/-- The leaves have different places on disk, and the next place is a new one. -/
theorem reachable_offsets (h : Reachable cfg t) : (t.pages.filterMap PageLocation.offset).Nodup ∧
    ∀ o ∈ t.pages.filterMap PageLocation.offset, o < t.nextOffset := by
  obtain ⟨C, s, h⟩ := h.inv
  constructor
  · refine List.pairwise_filterMap.2 (List.pairwise_iff_getElem.2 fun i j hi hj hij o ho o' ho' he => ?_)
    have := h.stored.offset_inj i j _ _ o (List.getElem?_eq_getElem hi) (List.getElem?_eq_getElem hj)
      ho (he ▸ ho')
    omega
  · intro o ho
    obtain ⟨loc, hloc, ho⟩ := List.mem_filterMap.1 ho
    obtain ⟨i, hi⟩ := List.getElem?_of_mem hloc
    exact h.stored.offset_lt i loc o hi ho

theorem reachable_offsets_sample : ∃ t, Reachable Config.default t ∧ t.root = .inner 0 ∧
    (t.pages.filterMap PageLocation.offset).Nodup := by
  obtain ⟨t, h, hroot, -⟩ := exists_ready
  exact ⟨t, h, hroot, (reachable_offsets h).1⟩

/-- What a snapshot has to hold for a node or a page. -/
def image (t : Tree) : MapKind → PageID → Option PageImage
  | .inner, .inner ptr => t.inners[ptr]?.map .inner
  | .base, .id pid =>
    match t.pages[pid]? with
    | some (.full p) => some (.leaf { p with nextLevel := none })
    | some loc => (loc.offset.bind t.vfs).map .leaf
    | none => none
  | .mini, .id pid =>
    match t.pages[pid]? with
    | some (.mini p) => some (.leaf p)
    | _ => none
  | _, _ => none

theorem alive_of_image {kind : MapKind} {image : PageImage} (h : t.image kind x = some image) :
    x.Alive t.inners.length t.pages.length := by
  cases x <;> cases kind <;> grind [Tree.image, PageID.Alive]

/-- Every image takes room in the file. -/
def Sizable (t : Tree) : Prop := ∀ kind x image, t.image kind x = some image → 0 < image.length

theorem Reachable.sizable (h : Reachable cfg t) (hd : cfg.cacheOnly = false) : t.Sizable := by
  intro kind x image himg
  obtain ⟨-, classes, hclasses, hall⟩ := h.sized
  have hpos := fun p (hp : LeafNode.Sized cfg classes p) => Config.classes_pos hd hclasses hp.mem
  cases x with
  | inner ptr =>
    cases kind <;> simp [Tree.image] at himg
    obtain ⟨n, -, rfl⟩ := himg
    exact (by decide : 0 < innerNodeSize)
  | id pid =>
    cases hloc : t.pages[pid]? with
    | none => cases kind <;> simp [Tree.image, hloc] at himg
    | some loc =>
      have hp := hall.pages loc (List.mem_of_getElem? hloc)
      have := hall.vfs
      cases kind <;> cases loc <;>
        simp [Tree.image, hloc, Option.bind_eq_some_iff] at himg <;>
        grind [PageImage.length, PageLocation.All]

/-- The item has to be written. -/
def Due (t : Tree) : SweepItem → Prop
  | .page kind x image => t.image kind x = some image
  | .root x => x = t.root

/-- The items for a node. -/
def shown (t : Tree) (x : PageID) : List SweepItem :=
  [MapKind.inner, .mini, .base].flatMap fun kind => ((t.image kind x).map (.page kind x)).toList

theorem mem_shown {item : SweepItem} : item ∈ t.shown x ↔ ∃ kind image,
    t.image kind x = some image ∧ item = .page kind x image := by
  constructor
  · simp only [shown, List.mem_flatMap, Option.mem_toList, Option.map_eq_some_iff]
    rintro ⟨kind, -, image, himg, rfl⟩
    exact ⟨kind, image, himg, rfl⟩
  · rintro ⟨kind, image, himg, rfl⟩
    cases kind <;> simp [shown, himg]

theorem Ok.loadBase (h : t.Ok cfg s C) (hd : cfg.cacheOnly = false) {loc : PageLocation}
    (hloc : t.pages[pid]? = some loc) :
    (∃ base, loc.offset.bind t.vfs = some base) ∧ loc ≠ .null := by
  obtain ⟨c, hleaf, -⟩ := h.stored.leaf pid loc hloc
  obtain ⟨offset, base, hb, -, hcaches, -⟩ := (leafOk_disk hd).1 hleaf
  refine ⟨⟨base, by rw [hcaches.offset_eq]; exact hb⟩, ?_⟩
  rintro rfl
  exact hcaches

section

variable (h : t.Ok cfg s C) (hd : cfg.cacheOnly = false) (hv : t.Ready version)
include h hd hv

theorem Ok.sweepLeaf {loc : PageLocation} (hloc : t.pages[pid]? = some loc) :
    t.sweepLeaf (version + 1) pid loc = some (t.shown (.id pid)) := by
  obtain ⟨⟨base, hbase⟩, hnull⟩ := h.loadBase hd hloc
  have hready := hv.2 loc (List.mem_of_getElem? hloc)
  cases loc with
  | null => exact absurd rfl hnull
  | base o | full p | mini p =>
    simp_all [Tree.sweepLeaf, PageLocation.offset, pagesOf, older, shown, image, Nat.not_lt_of_le,
      -Option.map_bind]

theorem Ok.sweepRoot : t.sweepRoot (version + 1) = some (t.shown t.root ++ [.root t.root]) := by
  have halive := h.shaped.root_alive
  cases hr : t.root with
  | inner ptr =>
    rw [hr] at halive
    have hn : t.inners[ptr]? = some _ := List.getElem?_eq_getElem halive
    have := hv.1 _ (List.mem_of_getElem? hn)
    simp [Tree.sweepRoot, hr, hn, older, this, shown, image]
  | id pid =>
    obtain ⟨o, ho⟩ := h.rootBase hd pid hr
    obtain ⟨⟨base, hbase⟩, -⟩ := h.loadBase hd ho
    have := hv.2 _ (List.mem_of_getElem? ho)
    simp_all [Tree.sweepRoot, PageLocation.offset, pagesOf, older, shown, image]

/-- The sweep does not panic, and it misses nothing. -/
theorem Ok.sweep : ∃ items, t.sweep (version + 1) = some items ∧ ∀ item, item ∈ items ↔ t.Due item := by
  obtain ⟨-, hmem⟩ := h.visitor true
  have hinner : ∀ x ∈ t.bfsVisitor true,
      t.sweepInner (version + 1) x = some (if x.isLeaf then [] else t.shown x) := by
    intro x hx
    obtain ⟨halive, hroot⟩ := (hmem x).1 hx
    cases x with
    | inner ptr =>
      have hn : t.inners[ptr]? = some _ := List.getElem?_eq_getElem halive
      have := hv.1 _ (List.mem_of_getElem? hn)
      simp [Tree.sweepInner, hn, older, this, shown, image, PageID.isLeaf]
    | id pid => exact if_pos (hroot rfl rfl).symm
  have hleaf : ∀ x ∈ t.pages.zipIdx, t.sweepLeaf (version + 1) x.2 x.1 = some (t.shown (.id x.2)) :=
    fun x hx => h.sweepLeaf hd hv (List.mem_zipIdx_iff_getElem?.1 hx)
  refine ⟨_, by rw [Tree.sweep, h.sweepRoot hd hv, Option.bind_eq_bind, Option.bind_some,
    mapM_of_forall hinner, Option.bind_eq_bind, Option.bind_some, mapM_of_forall hleaf]; rfl, ?_⟩
  intro item
  simp only [List.mem_append, List.mem_flatten, List.mem_map]
  constructor
  · have hdue : ∀ x, item ∈ t.shown x → t.Due item := by
      intro x hi
      obtain ⟨kind, image, himg, rfl⟩ := mem_shown.1 hi
      exact himg
    rintro ((hi | hi) | ⟨_, ⟨x, -, rfl⟩, hi⟩ | ⟨_, ⟨x, -, rfl⟩, hi⟩)
    · exact hdue _ hi
    · rw [List.mem_singleton.1 hi]
      rfl
    · exact hdue x (by grind)
    · exact hdue _ hi
  · intro hdue
    cases item with
    | root x => simp [show x = t.root from hdue]
    | page kind x image =>
      have hi : SweepItem.page kind x image ∈ t.shown x := mem_shown.2 ⟨kind, image, hdue, rfl⟩
      have halive := alive_of_image hdue
      cases x with
      | inner ptr =>
        have hx := (hmem (.inner ptr)).2 ⟨halive, by simp [PageID.isLeaf]⟩
        exact .inr (.inl ⟨_, ⟨_, hx, rfl⟩, hi⟩)
      | id pid =>
        have hz : (t.pages[pid], pid) ∈ t.pages.zipIdx :=
          List.mem_zipIdx_iff_getElem?.2 (List.getElem?_eq_getElem halive)
        exact .inr (.inr ⟨_, ⟨_, hz, rfl⟩, hi⟩)

end

end Tree

/-! ## The mappings -/

/-- The entries lead to the images of their nodes. -/
def Leads (t : Tree) (f : SnapshotFile) (maps : MapKind → List Entry) : Prop :=
  ∀ kind, ∀ e ∈ maps kind, ∃ image, t.image kind e.1 = some image ∧ f.read e.2 = some image

/-- The mappings are right, and no node is missing. -/
structure Mapped (t : Tree) (f : SnapshotFile) (maps : MapKind → List Entry) : Prop where
  leads : Leads t f maps
  complete : ∀ kind x image, t.image kind x = some image → ∃ offset, (x, offset) ∈ maps kind

variable {cfg : Config} {t : Tree} {version : Nat} {f : SnapshotFile} {maps : MapKind → List Entry}

theorem Mapped.mem_inners (hm : Mapped t f maps) {ptr : Nat} (hptr : ptr < t.inners.length) :
    .inner ptr ∈ (maps .inner).map Prod.fst := by
  have hn : t.inners[ptr]? = some _ := List.getElem?_eq_getElem hptr
  obtain ⟨offset, ho⟩ := hm.complete .inner (.inner ptr) _ (by rw [Tree.image, hn, Option.map_some])
  exact List.mem_map.2 ⟨_, ho, rfl⟩

theorem Mapped.length_inners (hm : Mapped t f maps) : t.inners.length ≤ (maps .inner).length := by
  let dom := (List.range t.inners.length).map PageID.inner
  have hnodup : dom.Nodup := List.nodup_range.map fun _ _ => PageID.inner.inj
  have hsub : ∀ x ∈ dom, x ∈ (maps .inner).map Prod.fst := by
    intro x hx
    obtain ⟨q, hq, rfl⟩ := List.mem_map.1 hx
    exact hm.mem_inners (List.mem_range.1 hq)
  simpa [dom] using (hnodup.subperm hsub).length_le

namespace Sweep

variable {s : Sweep} {item other : Tree.SweepItem}

/-- The item has been written. -/
def Notes (s : Sweep) : Tree.SweepItem → Prop
  | .page kind x _ => ∃ offset, (x, offset) ∈ s.maps kind
  | .root x => s.root = some x

theorem notes_take : (s.take item).Notes item := by
  cases item <;> simp [take, Notes]

theorem Notes.take (h : s.Notes other) (hitem : t.Due item) (hother : t.Due other) :
    (s.take item).Notes other := by
  cases item <;> cases other <;> simp_all [Sweep.take, Notes, Tree.Due]
  exact h.imp fun _ => .inl

theorem leads_take (hpos : t.Sizable) (h : Leads t s.file s.maps) (hitem : t.Due item) :
    Leads t (s.take item).file (s.take item).maps := by
  cases item with
  | root x => exact h
  | page kind x image =>
    intro k e he
    rcases List.mem_append.1 he with he | he
    · obtain ⟨old, hold, hread⟩ := h k e he
      exact ⟨old, hold, SnapshotFile.read_snapshotPage_of_read hread (hpos _ _ _ hold) image⟩
    · have := SnapshotFile.read_snapshotPage s.file image
      grind [Tree.Due, Sweep.take]

/-- After the whole list. -/
theorem foldl_take (hpos : t.Sizable) {items : List Tree.SweepItem}
    (h : Leads t s.file s.maps) (hitems : ∀ item ∈ items, t.Due item) :
    Leads t (items.foldl Sweep.take s).file (items.foldl Sweep.take s).maps ∧
      (∀ item ∈ items, (items.foldl Sweep.take s).Notes item) ∧
      ∀ other, t.Due other → s.Notes other → (items.foldl Sweep.take s).Notes other := by
  induction items generalizing s with
  | nil => exact ⟨h, by simp, fun _ _ ho => ho⟩
  | cons item items ih =>
    obtain ⟨hitem, hitems⟩ := List.forall_mem_cons.1 hitems
    obtain ⟨hl, hn, hk⟩ := ih (leads_take hpos h hitem) hitems
    exact ⟨hl, List.forall_mem_cons.2 ⟨hk _ hitem notes_take, hn⟩,
      fun o ho hs => hk o ho (hs.take hitem ho)⟩

end Sweep

theorem nodup_keepFirst (l : List Entry) : ((keepFirst l).map Prod.fst).Nodup :=
  List.pairwise_map.2 (List.pairwise_pwFilter _)

theorem exists_mem_keepFirst {l : List Entry} {e : Entry} (h : e ∈ l) :
    ∃ offset, (e.1, offset) ∈ keepFirst l := by
  by_contra hno
  have hall : ∀ b ∈ keepFirst l, e.1 ≠ b.1 := fun b hb he => hno ⟨b.2, he ▸ hb⟩
  refine (List.forall_mem_pwFilter (fun {x y z} hxz => ?_) e l.reverse).1 hall e (by simpa using h) rfl
  by_contra hno
  simp_all

/-- The snapshot of a tree at rest is taken, and its mappings describe the tree. -/
theorem Tree.Ok.cprSnapshot {sh : Shape} {C : Key → Option Value} (h : t.Ok cfg sh C)
    (hpos : t.Sizable) (hd : cfg.cacheOnly = false) (hv : t.Ready version)
    (orders : MapKind → HashOrder) :
    ∃ snap, t.cprSnapshot version orders = some snap ∧ snap.rootId = some t.root ∧
      Mapped t snap.file snap.maps ∧ ∀ kind, ((snap.maps kind).map Prod.fst).Nodup := by
  obtain ⟨items, hitems, hmem⟩ := h.sweep hd hv
  have hstart : Leads t Sweep.start.file Sweep.start.maps := by simp [Leads, Sweep.start]
  obtain ⟨hleads, hnotes, -⟩ := Sweep.foldl_take hpos hstart fun item => (hmem item).1
  generalize hs : items.foldl Sweep.take .start = s at hleads hnotes
  have hperm := fun kind => (orders kind).perm (keepFirst (s.maps kind))
  refine ⟨finalize orders s, by rw [Tree.cprSnapshot, hitems, ← hs]; rfl,
    hnotes _ ((hmem (.root t.root)).2 rfl), ⟨fun kind e he => ?_, fun kind x image himg => ?_⟩,
    fun kind => ((hperm kind).map _).nodup_iff.2 (nodup_keepFirst _)⟩
  · have he := List.pwFilter_subset _ ((hperm kind).mem_iff.1 he)
    exact hleads kind e (List.mem_reverse.1 he)
  · obtain ⟨offset, hval⟩ := hnotes _ ((hmem (.page kind x image)).2 himg)
    obtain ⟨offset, hval⟩ := exists_mem_keepFirst hval
    exact ⟨offset, (hperm kind).mem_iff.2 hval⟩

namespace Tree

/-- A snapshot of a tree is taken: it has the root id, its mappings lead to every node and page
of the tree, and no id stands in one twice. -/
theorem reachable_cprSnapshot (h : Reachable cfg t) (hd : cfg.cacheOnly = false)
    (hv : t.Ready version) (orders : MapKind → HashOrder) :
    ∃ snap, t.cprSnapshot version orders = some snap ∧ snap.rootId = some t.root ∧
      Mapped t snap.file snap.maps ∧ ∀ kind, ((snap.maps kind).map Prod.fst).Nodup := by
  obtain ⟨C, s, hok⟩ := h.inv
  exact hok.cprSnapshot (h.sizable hd) hd hv orders

theorem reachable_cprSnapshot_sample : ∃ t, Reachable Config.default t ∧ t.root = .inner 0 ∧
    ∃ snap, t.cprSnapshot 0 (fun _ => ⟨id, .refl⟩) = some snap := by
  obtain ⟨t, h, hroot, hready⟩ := exists_ready
  obtain ⟨snap, hsnap, -⟩ := reachable_cprSnapshot h rfl hready fun _ => ⟨id, .refl⟩
  exact ⟨t, h, hroot, snap, hsnap⟩

end Tree

end BfTree
