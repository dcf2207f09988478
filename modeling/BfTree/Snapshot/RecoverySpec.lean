import BfTree.Snapshot.SweepSpec

/-!
# Recovery gives the tree back

The inner nodes are copied in the order of a breadth-first visit, each to the place of its
visit, so a path in the copy is a path in the tree. At its end are the pages of the tree.
-/

namespace BfTree

open Lib LeafNode

/-! ## Inner nodes -/

namespace InnerNode

/-- The node with other ids for its children. -/
def rename (f : PageID → PageID) (n : InnerNode) : InnerNode :=
  { n with leftMost := f n.leftMost, records := n.records.map fun r => (r.1, f r.2) }

variable (n : InnerNode) (f : PageID → PageID)

theorem updateChildren_map : n.updateChildren (n.children.map f) = n.rename f := by
  simp [updateChildren, children, rename, List.zipWith_map_right]

theorem getValue_rename (key : Key) : (n.rename f).getValue ((n.rename f).lowerBound key) =
    (n.getValue (n.lowerBound key)).map f := by
  have htest : slotTest (n.rename f).records key = slotTest n.records key := by
    funext i
    simp only [slotTest, rename, List.getElem?_map]
    cases n.records[i - 1]? <;> rfl
  have hbound : (n.rename f).lowerBound key = n.lowerBound key := by
    rw [lowerBound, htest, lowerBound]
    simp [rename]
  rw [hbound, getValue_eq, getValue_eq, ← List.getElem?_map]
  simp [children, rename, Function.comp_def]

variable {n f}

theorem rename_eq_self (h : ∀ c ∈ n.children, f c = c) : n.rename f = n := by
  have hrec : n.records.map (fun r => (r.1, f r.2)) = n.records.map id :=
    List.map_congr_left fun r hr => by
      rw [h r.2 (List.mem_cons_of_mem _ (List.mem_map_of_mem hr))]
      rfl
  rw [rename, hrec, List.map_id, h n.leftMost (by simp [children])]

end InnerNode

/-- Where the copy of a node stands. -/
def address (visited : List PageID) : PageID → PageID
  | .inner ptr => .inner (visited.idxOf (.inner ptr))
  | .id pid => .id pid

/-- The copy of a node. -/
def copied (load : PageID → Option InnerNode) (visited : List PageID) (x : PageID) : Option InnerNode :=
  (load x).map (.rename (address visited))

theorem map_address {V A cs B : List PageID} (hV : V.Nodup) (heq : V = A ++ cs ++ B)
    (hinner : ∀ c ∈ cs, c.isLeaf = false) :
    (List.range' A.length cs.length).map .inner = cs.map (address V) := by
  refine List.ext_getElem (by simp) fun j hj _ => ?_
  have hj : j < cs.length := by simpa using hj
  have hget : V[A.length + j]? = some cs[j] := by
    simp [heq, List.getElem?_append, hj]
  obtain ⟨hlt, hget⟩ := List.getElem?_eq_some_iff.1 hget
  have hidx := hV.idxOf_getElem _ hlt
  have hc := hinner cs[j] (List.getElem_mem hj)
  cases hx : cs[j] with
  | id pid => simp [hx, PageID.isLeaf] at hc
  | inner ptr => simp_all [address]

namespace Tree

variable {cfg : Config} {s : Shape} {C : Key → Option Value} {t : Tree}
  {load : PageID → Option InnerNode} {V seen queue : List PageID}

/-- A visited node is an inner node of the tree. -/
theorem Ok.inner_of_frontier (h : t.Ok cfg s C) (hroot : t.root.isLeaf = false)
    (hF : Frontier (t.below true) t.root seen queue) {x : PageID} (hx : x ∈ seen ++ queue) :
    ∃ ptr n, x = .inner ptr ∧ t.inners[ptr]? = some n := by
  obtain ⟨halive, hleaf⟩ := h.mem_frontier hF hx
  cases x with
  | id pid => simp [← hleaf rfl rfl, PageID.isLeaf] at hroot
  | inner ptr => exact ⟨ptr, _, rfl, List.getElem?_eq_getElem halive⟩

/-- The copies at the end, each with the addresses of its children. -/
theorem Ok.resolve (h : t.Ok cfg s C) (hroot : t.root.isLeaf = false)
    (hload : ∀ ptr n, t.inners[ptr]? = some n → load (.inner ptr) = some n) (hV : V.Nodup)
    {fuel : Nat} (hfuel : t.bound true ≤ seen.length + fuel) {heap : List InnerNode}
    (hF : Frontier (t.below true) t.root seen queue) (hbfs : seen ++ bfs (t.below true) fuel queue = V)
    (hheap : heap.map some = seen.map (copied load V) ++ queue.map load) :
    ∃ heap', Snapshot.resolve load fuel (List.range' seen.length queue.length) heap = some heap' ∧
      heap'.map some = V.map (copied load V) := by
  induction fuel generalizing seen queue heap with
  | zero =>
    have hlen := h.length_frontier hF
    obtain rfl : queue = [] := List.eq_nil_of_length_eq_zero (by rw [List.length_append] at hlen; omega)
    exact ⟨heap, by simp [Snapshot.resolve], by simpa [← hbfs, bfs] using hheap⟩
  | succ fuel ih =>
    cases queue with
    | nil => exact ⟨heap, by simp [Snapshot.resolve], by simpa [← hbfs, bfs] using hheap⟩
    | cons x queue =>
      obtain ⟨ptr, n, rfl, hn⟩ := h.inner_of_frontier hroot hF (x := x) (by simp)
      have hstep := hF.step (h.rooted true)
      have hlen' := h.length_frontier hstep
      rw [bfs, List.append_cons] at hbfs
      have hget : heap[seen.length]? = some n := by
        have : (heap.map some)[seen.length]? = some (some n) := by
          rw [hheap]
          simp [hload ptr n hn]
        simpa using this
      have hchild : ∀ c ∈ n.children, c.isLeaf = n.childrenIsLeaf ∧
          c.Alive t.inners.length t.pages.length := by
        intro c hc
        obtain ⟨a, b, hok⟩ := h.childOk hn hc
        exact ⟨hok.kind, hok.alive⟩
      by_cases hleaf : n.childrenIsLeaf = true
      · have hbelow : t.below true (.inner ptr) = [] := by simp [below, hn, hleaf]
        have hsame : n.rename (address V) = n := InnerNode.rename_eq_self fun c hc => by
          have := (hchild c hc).1
          cases c <;> simp_all [address, PageID.isLeaf]
        rw [hbelow, List.append_nil] at hstep hbfs
        obtain ⟨heap', hr, hh⟩ := ih (by simp; omega) hstep hbfs
          (by simpa [hload ptr n hn, hsame, copied] using hheap)
        refine ⟨heap', ?_, hh⟩
        simpa [Snapshot.resolve, List.range'_succ, hget, hleaf] using hr
      · have hbelow : t.below true (.inner ptr) = n.children := by simp [below, hn, hleaf]
        rw [hbelow] at hstep hbfs hlen'
        have hq : (queue ++ n.children).length ≤ fuel := by
          simp only [List.length_append, List.length_singleton] at hlen' ⊢
          omega
        obtain ⟨rest, hrest⟩ := exists_bfs_append (t.below true) hq []
        have hVeq : V = (seen ++ .inner ptr :: queue) ++ n.children ++ rest := by
          rw [← hbfs, ← List.append_nil (queue ++ n.children), hrest]
          simp
        have hlen : heap.length = (seen ++ .inner ptr :: queue).length := by
          simpa using congrArg List.length hheap
        have hids := map_address hV hVeq fun c hc => (hchild c hc).1.trans (by simpa using hleaf)
        have hsome : ∀ c ∈ n.children, load c = some ((load c).getD n) := by
          intro c hc
          have := hchild c hc
          cases c with
          | id pid => simp_all [PageID.isLeaf]
          | inner q => rw [hload q _ (List.getElem?_eq_getElem this.2)]; rfl
        have hpages := mapM_of_forall hsome
        have hcopies : ((heap ++ n.children.map fun c => (load c).getD n).set seen.length
            (n.rename (address V))).map some =
              (seen ++ [PageID.inner ptr]).map (copied load V) ++ (queue ++ n.children).map load := by
          have hmap := List.map_congr_left fun c hc => (hsome c hc).symm
          rw [List.map_set, List.map_append, hheap, List.map_map, List.append_assoc,
            List.set_append_right _ _ (by simp)]
          simp [hload ptr n hn, Function.comp_def, hmap, copied]
        obtain ⟨heap', hr, hh⟩ := ih (by simp; omega) hstep hbfs hcopies
        refine ⟨heap', ?_, hh⟩
        simp only [Snapshot.resolve, List.length_cons, List.range'_succ, hget, Option.bind_eq_bind,
          Option.bind_some, hleaf, hpages, List.length_map, hlen, hids, InnerNode.updateChildren_map]
        rw [← hr]
        simp [← List.range'_append_1, Nat.add_assoc, Nat.add_comm 1]

/-- The copies route every key to the same leaf. -/
theorem Ok.routeFrom_copied (h : t.Ok cfg s C)
    (hload : ∀ ptr n, t.inners[ptr]? = some n → load (.inner ptr) = some n)
    (hmem : ∀ ptr < t.inners.length, .inner ptr ∈ V) {heap : List InnerNode}
    (hheap : heap.map some = V.map (copied load V)) (key : Key) (fuel : Nat) {x : PageID}
    (hx : x.Alive t.inners.length t.pages.length) :
    routeFrom heap key fuel (address V x) = routeFrom t.inners key fuel x := by
  induction fuel generalizing x with
  | zero => cases x <;> rfl
  | succ fuel ih =>
    cases x with
    | id pid => rfl
    | inner ptr =>
      obtain ⟨n, hn⟩ : ∃ n, t.inners[ptr]? = some n := ⟨_, List.getElem?_eq_getElem hx⟩
      have hcopy : (heap.map some)[V.idxOf (.inner ptr)]? = some (copied load V (.inner ptr)) := by
        rw [hheap, List.getElem?_map, List.getElem?_idxOf (hmem ptr hx), Option.map_some]
      have hcopy : heap[V.idxOf (.inner ptr)]? = some (n.rename (address V)) := by
        simpa [copied, hload ptr n hn] using hcopy
      rw [address, routeFrom, routeFrom, hcopy, hn]
      simp only [Option.bind_eq_bind, Option.bind_some, InnerNode.getValue_rename]
      cases hc : n.getValue (n.lowerBound key) with
      | none => rfl
      | some c =>
        rw [InnerNode.getValue_eq] at hc
        obtain ⟨a, b, hok⟩ := h.childOk hn (List.mem_of_getElem? hc)
        exact ih hok.alive

end Tree

/-- The value of a key in the captured pages of a leaf: a mini page lies over the base page. -/
def Snapshot.readLeaf (s : Snapshot) (pid : Nat) (key : Key) : Option Value :=
  let page kind := (s.load kind (.id pid)).bind PageImage.asLeaf
  let behind := (page .base).bind fun base => live (base.entry key)
  match page .mini with
  | some mini => overlay (mini.entry key) behind
  | none => behind

namespace Tree

variable {cfg : Config} {sh : Shape} {C : Key → Option Value} {t : Tree} {s : Snapshot}

theorem load_eq_image (hm : Mapped t s.file s.maps) (kind : MapKind) (x : PageID) :
    s.load kind x = t.image kind x := by
  cases hf : (s.maps kind).reverse.find? (·.1 = x) with
  | some e =>
    obtain rfl : e.1 = x := by simpa using List.find?_some hf
    obtain ⟨image, himg, hread⟩ := hm.leads kind e (by simpa using List.mem_of_find?_eq_some hf)
    rw [Snapshot.load, hf, Option.bind_some, hread, himg]
  | none =>
    rw [Snapshot.load, hf, Option.bind_none]
    cases himg : t.image kind x with
    | none => rfl
    | some image =>
      obtain ⟨value, hv⟩ := hm.complete kind x image himg
      simpa using List.find?_eq_none.1 hf (x, value) (by simpa using hv)

/-- The root alone has the flag. -/
theorem Ok.rootCnt (h : t.Ok cfg sh C) (hm : Mapped t s.file s.maps)
    (hnodup : ((s.maps .inner).map Prod.fst).Nodup) {ptr : Nat} (hr : t.root = .inner ptr)
    (hptr : ptr < t.inners.length) : s.rootCnt = 1 := by
  have hflag : ∀ e ∈ s.maps .inner,
      ((s.file.read e.2).bind PageImage.asInner).any (·.isRoot) = true ↔ e.1 = .inner ptr := by
    intro e he
    obtain ⟨image, himg, hread⟩ := hm.leads .inner e he
    cases hx : e.1 with
    | id pid => simp [hx, Tree.image] at himg
    | inner q =>
      obtain ⟨n, hn, rfl⟩ : ∃ n, t.inners[q]? = some n ∧ .inner n = image := by
        simpa [hx, Tree.image] using himg
      simp [hread, PageImage.asInner, h.shaped.isRoot q n hn, hr, eq_comm]
  rw [← List.count_eq_one_of_mem hnodup (hm.mem_inners hptr), List.count, List.countP_map]
  exact List.countP_congr fun e he => by simp [hflag e he]

/-- The recovered inner nodes route every key to the leaf it belongs to. -/
theorem Ok.recoverInners (h : t.Ok cfg sh C) (hm : Mapped t s.file s.maps)
    (hnodup : ((s.maps .inner).map Prod.fst).Nodup) (hroot : s.rootId = some t.root) :
    ∃ root inners, s.recoverInners = some (root, inners) ∧
      ∀ key fuel, routeFrom inners key fuel root = routeFrom t.inners key fuel t.root := by
  have halive := h.shaped.root_alive
  cases hr : t.root with
  | id pid =>
    refine ⟨.id pid, [], by rw [Snapshot.recoverInners, hroot, hr]; rfl, fun key fuel => ?_⟩
    simp [routeFrom]
  | inner ptr =>
    rw [hr] at halive
    obtain ⟨n, hn⟩ : ∃ n, t.inners[ptr]? = some n := ⟨_, List.getElem?_eq_getElem halive⟩
    have hload : ∀ q n, t.inners[q]? = some n → s.loadInner (.inner q) = some n := fun q n hn => by
      simp [Snapshot.loadInner, load_eq_image hm, image, hn, PageImage.asInner]
    have hinner : t.root.isLeaf = false := by rw [hr]; rfl
    have hfuel : t.bound true ≤ (s.maps .inner).length := by
      simpa [bound, hinner] using hm.length_inners
    obtain ⟨hrun, hall⟩ := h.visited hfuel
    have hmem : ∀ q < t.inners.length, .inner q ∈ bfs (t.below true) (s.maps .inner).length [t.root] :=
      fun q hq => hall _ hq fun _ => rfl
    obtain ⟨heap, hheap, hcopies⟩ := h.resolve hinner hload (by simpa using hrun.nodup)
      (by simpa using hfuel) (.start _ _) rfl (by simp [hr, hload ptr n hn] : [n].map some = _)
    have hfirst : { n with isRoot := true } = n := by rw [← (h.shaped.isRoot ptr n hn).2 hr]
    refine ⟨.inner 0, heap, ?_, fun key fuel => ?_⟩
    · rw [Snapshot.recoverInners, hroot, hr]
      simp only [Option.bind_eq_bind, Option.bind_some, h.rootCnt hm hnodup hr halive, guard_true,
        hload ptr n hn, hfirst]
      rw [show [0] = List.range' ([] : List PageID).length [t.root].length from rfl, hheap]
      rfl
    · have haddr : address (bfs (t.below true) (s.maps .inner).length [t.root]) t.root = .inner 0 := by
        cases hc : (s.maps .inner).length with
        | zero => simp_all [bound]
        | succ fuel => simp [hr, address, bfs]
      rw [← haddr, ← hr]
      exact h.routeFrom_copied hload hmem hcopies key fuel h.shaped.root_alive

/-! ## Pages -/

theorem Ok.readLeaf (h : t.Ok cfg sh C) (hd : cfg.cacheOnly = false) (hm : Mapped t s.file s.maps)
    {pid : Nat} {loc : PageLocation} (hloc : t.pages[pid]? = some loc) (key : Key) :
    s.readLeaf pid key = readLeaf t.vfs loc key := by
  obtain ⟨⟨base, hbase⟩, hnull⟩ := h.loadBase hd hloc
  have hfull : ∀ p : LeafNode, { p with nextLevel := none }.entry key = p.entry key := fun _ => rfl
  cases loc with
  | null => exact absurd rfl hnull
  | base o | full p | mini p =>
    simp_all [Snapshot.readLeaf, load_eq_image hm, image, Tree.readLeaf, readBehind,
      PageLocation.offset, PageImage.asLeaf, -Option.map_bind]

/-- What is recovered from the snapshot of a tree: the inner nodes route every key as in the
tree, and the pages give the key its value. -/
theorem reachable_recoverInners {version : Nat} (h : Reachable cfg t) (hd : cfg.cacheOnly = false)
    (hv : t.Ready version) (orders : MapKind → HashOrder) : ∃ snap root inners,
      t.cprSnapshot version orders = some snap ∧ snap.recoverInners = some (root, inners) ∧
        (∀ key fuel, routeFrom inners key fuel root = routeFrom t.inners key fuel t.root) ∧
        ∀ key, (t.leafOf key).bind (snap.readLeaf · key) = t.lookup key := by
  have hpos := h.sizable hd
  obtain ⟨C, sh, h⟩ := h.inv
  obtain ⟨snap, hsnap, hroot, hm, hnodup⟩ := h.cprSnapshot hpos hd hv orders
  obtain ⟨root, inners, hrec, hroute⟩ := h.recoverInners hm (hnodup .inner) hroot
  refine ⟨snap, root, inners, hsnap, hrec, hroute, fun key => ?_⟩
  obtain ⟨pid, hleaf, hpid, -⟩ := h.leafOf key
  have hloc : t.pages[pid]? = some _ := List.getElem?_eq_getElem hpid
  simp [Tree.lookup, hleaf, hloc, h.readLeaf hd hm hloc]

theorem reachable_recoverInners_sample : ∃ t snap root inners, Reachable Config.default t ∧
    t.root = .inner 0 ∧ t.cprSnapshot 0 (fun _ => ⟨id, .refl⟩) = some snap ∧
      snap.recoverInners = some (root, inners) := by
  obtain ⟨t, h, hr, hready⟩ := exists_ready
  obtain ⟨snap, root, inners, hs, hi, -⟩ := reachable_recoverInners h rfl hready fun _ => ⟨id, .refl⟩
  exact ⟨t, snap, root, inners, h, hr, hs, hi⟩

end Tree

end BfTree
