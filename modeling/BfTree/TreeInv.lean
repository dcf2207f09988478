import BfTree.LeafCommit
import BfTree.TreeShape
import BfTree.Tree

/-!
# What a tree stores

The leaves partition the key space, and each stores one map on its part. A leaf
transaction changes the map on the range of its leaf only; a split leaves the map as
it is.
-/

namespace BfTree

open Lib LeafNode

theorem Config.Bounds.leaf_pos {cfg : Config} (h : cfg.Bounds) : 0 < cfg.leafPageSize := by
  cases hc : cfg.cacheOnly with
  | true =>
    have := h.cacheOnly hc
    simp only [kvMetaSize] at this
    omega
  | false =>
    obtain ⟨maxMini, hmax, hle⟩ := h.disk hc
    simp only [Config.maxMiniPageSize, hc, Option.bind_eq_bind, Option.bind_eq_some_iff] at hmax
    obtain ⟨r, hr, size, hsize, -⟩ := hmax
    have h1 := Config.usizeSub_eq_some hsize
    have h2 := Config.usizeAdd_eq_some hr
    simp only [kvMetaSize] at h2
    omega

/-- `c` on the range, `C` elsewhere. -/
def patch (lo hi : Key) (c C : Key → Option Value) (k : Key) : Option Value :=
  if InRange lo hi k then c k else C k

/-- The leaves store the map `C`, each at its own place on disk. -/
structure Stored (cfg : Config) (pages : List PageLocation) (vfs : Nat → Option LeafNode)
    (nextOffset : Nat) (range : Nat → Key × Key) (C : Key → Option Value) : Prop where
  leaf : ∀ (pid : Nat) (loc : PageLocation), pages[pid]? = some loc →
    ∃ c, LeafOk cfg (range pid).1 (range pid).2 c loc vfs ∧
      ∀ k, InRange (range pid).1 (range pid).2 k → c k = C k
  offset_lt : ∀ (pid : Nat) (loc : PageLocation) (o : Nat), pages[pid]? = some loc →
    loc.offset = some o → o < nextOffset
  offset_inj : ∀ (pid pid' : Nat) (loc loc' : PageLocation) (o : Nat), pages[pid]? = some loc →
    pages[pid']? = some loc' → loc.offset = some o → loc'.offset = some o → pid = pid'

namespace Stored

variable {cfg : Config} {pages : List PageLocation} {vfs vfs' : Nat → Option LeafNode}
  {next next' : Nat} {range range' : Nat → Key × Key} {C c : Key → Option Value} {pid : Nat}
  {loc loc' : PageLocation}

/-- A leaf that is not touched. -/
theorem other (h : Stored cfg pages vfs next range C) (hloc : pages[pid]? = some loc)
    (hvfs : ∀ o, loc.offset ≠ some o → o ≠ next → vfs' o = vfs o)
    (hdisj : ∀ q k, q < pages.length → q ≠ pid → InRange (range q).1 (range q).2 k →
      ¬ InRange (range pid).1 (range pid).2 k) {q : Nat} {loc₁ : PageLocation} (hne : q ≠ pid)
    (hq : pages[q]? = some loc₁) :
    ∃ c₁, LeafOk cfg (range q).1 (range q).2 c₁ loc₁ vfs' ∧
      ∀ k, InRange (range q).1 (range q).2 k →
        c₁ k = patch (range pid).1 (range pid).2 c C k := by
  obtain ⟨c₁, hleaf, hc₁⟩ := h.leaf q loc₁ hq
  refine ⟨c₁, hleaf.congr fun o ho => hvfs o (fun heq => ?_) ?_, fun k hk => ?_⟩
  · exact hne (h.offset_inj q pid loc₁ loc o hq hloc ho heq)
  · exact (h.offset_lt q loc₁ o hq ho).ne
  · rw [patch, if_neg (hdisj q k (List.getElem?_eq_some_iff.1 hq).1 hne hk), hc₁ k hk]

/-- One leaf is rewritten at its place. -/
theorem set (h : Stored cfg pages vfs next range C) (hloc : pages[pid]? = some loc)
    (hleaf : LeafOk cfg (range pid).1 (range pid).2 c loc' vfs') (hoff : loc'.offset = loc.offset)
    (hvfs : ∀ o, loc.offset ≠ some o → o ≠ next → vfs' o = vfs o)
    (hdisj : ∀ q k, q < pages.length → q ≠ pid → InRange (range q).1 (range q).2 k →
      ¬ InRange (range pid).1 (range pid).2 k) :
    Stored cfg (pages.set pid loc') vfs' next range
      (patch (range pid).1 (range pid).2 c C) := by
  have hget : ∀ (q : Nat) (l : PageLocation), (pages.set pid loc')[q]? = some l →
      q = pid ∧ l = loc' ∨ q ≠ pid ∧ pages[q]? = some l := by
    intro q l hq
    rw [List.getElem?_set] at hq
    split at hq
    · next heq =>
      obtain ⟨-, rfl⟩ : _ ∧ loc' = l := by simpa using hq
      exact .inl ⟨heq.symm, rfl⟩
    · next hne => exact .inr ⟨fun he => hne he.symm, hq⟩
  -- the offsets of all leaves are the same as before
  have hold : ∀ (q : Nat) (l : PageLocation), (pages.set pid loc')[q]? = some l →
      ∃ l₀ : PageLocation, pages[q]? = some l₀ ∧ l.offset = l₀.offset := by
    intro q l hq
    obtain ⟨rfl, rfl⟩ | ⟨-, hq⟩ := hget q l hq
    · exact ⟨loc, hloc, hoff⟩
    · exact ⟨l, hq, rfl⟩
  refine ⟨fun q l hq => ?_, fun q l o hq ho => ?_, fun q q' l l' o hq hq' ho ho' => ?_⟩
  · obtain ⟨rfl, rfl⟩ | ⟨hne, hq⟩ := hget q l hq
    · exact ⟨c, hleaf, fun k hk => by rw [patch, if_pos hk]⟩
    · exact h.other hloc hvfs hdisj hne hq
  · obtain ⟨l₀, hl₀, heq⟩ := hold q l hq
    exact h.offset_lt q l₀ o hl₀ (heq.symm.trans ho)
  · obtain ⟨l₀, hl₀, heq⟩ := hold q l hq
    obtain ⟨l₀', hl₀', heq'⟩ := hold q' l' hq'
    exact h.offset_inj q q' l₀ l₀' o hl₀ hl₀' (heq.symm.trans ho) (heq'.symm.trans ho')

/-- One leaf is cut in two. -/
theorem split {key : Key} {sibling : PageLocation} (h : Stored cfg pages vfs next range C)
    (hloc : pages[pid]? = some loc)
    (hleft : LeafOk cfg (range pid).1 key (fun k => if k < key then c k else none) loc' vfs')
    (hright : LeafOk cfg key (range pid).2 (fun k => if k < key then none else c k) sibling vfs')
    (hlo : (range pid).1 < key) (hhi : (range pid).2 = [] ∨ key < (range pid).2)
    (hoff : loc'.offset = loc.offset) (hsib : sibling.offset = none ∨ sibling.offset = some next)
    (hnext : next < next') (hvfs : ∀ o, loc.offset ≠ some o → o ≠ next → vfs' o = vfs o)
    (hdisj : ∀ q k, q < pages.length → q ≠ pid → InRange (range q).1 (range q).2 k →
      ¬ InRange (range pid).1 (range pid).2 k)
    (hr : range' pid = ((range pid).1, key)) (hr' : range' pages.length = (key, (range pid).2))
    (hrange : ∀ q, q < pages.length → q ≠ pid → range' q = range q) :
    Stored cfg (pages.set pid loc' ++ [sibling]) vfs' next' range'
      (patch (range pid).1 (range pid).2 c C) := by
  have hpid : pid < pages.length := (List.getElem?_eq_some_iff.1 hloc).1
  have hkey : key ≠ [] := fun he => by
    rw [he] at hlo
    exact absurd hlo (not_lt.2 (nil_le _))
  have hget : ∀ (q : Nat) (l : PageLocation), (pages.set pid loc' ++ [sibling])[q]? = some l →
      q = pid ∧ l = loc' ∨ q ≠ pid ∧ q < pages.length ∧ pages[q]? = some l ∨
        q = pages.length ∧ l = sibling := by
    intro q l hq
    rw [List.getElem?_append] at hq
    split at hq
    · rw [List.getElem?_set] at hq
      split at hq
      · next heq =>
        exact .inl ⟨heq.symm, by simpa using hq.symm⟩
      · next hne =>
        exact .inr (.inl ⟨fun he => hne he.symm, (List.getElem?_eq_some_iff.1 hq).1, hq⟩)
    · next hlen =>
      rw [List.length_set] at hq hlen
      obtain ⟨hlt, hval⟩ := List.getElem?_eq_some_iff.1 hq
      simp at hlt
      exact .inr (.inr ⟨by omega, by simpa using hval.symm⟩)
  -- an old leaf has its old offset, the new leaf one that no other has
  have hold : ∀ (q : Nat) (l : PageLocation) (o : Nat),
      (pages.set pid loc' ++ [sibling])[q]? = some l → l.offset = some o →
      (∃ l₀ : PageLocation, pages[q]? = some l₀ ∧ l₀.offset = some o) ∨
        q = pages.length ∧ o = next := by
    intro q l o hq ho
    obtain ⟨rfl, rfl⟩ | ⟨-, -, hq⟩ | ⟨rfl, rfl⟩ := hget q l hq
    · exact .inl ⟨loc, hloc, hoff.symm.trans ho⟩
    · exact .inl ⟨l, hq, ho⟩
    · rcases hsib with hs | hs
      · rw [hs] at ho; cases ho
      · rw [hs] at ho
        exact .inr ⟨rfl, (Option.some.inj ho).symm⟩
  refine ⟨fun q l hq => ?_, fun q l o hq ho => ?_, fun q q' l l' o hq hq' ho ho' => ?_⟩
  · obtain ⟨rfl, rfl⟩ | ⟨hne, hlt, hq⟩ | ⟨rfl, rfl⟩ := hget q l hq
    · rw [hr]
      refine ⟨_, hleft, fun k hk => ?_⟩
      have hk' : k < key := hk.2.resolve_left hkey
      have hin : InRange (range q).1 (range q).2 k :=
        ⟨hk.1, hhi.imp_right fun hlt => hk'.trans hlt⟩
      rw [patch, if_pos hin, if_pos hk']
    · rw [hrange q hlt hne]
      exact h.other hloc hvfs hdisj hne hq
    · rw [hr']
      refine ⟨_, hright, fun k hk => ?_⟩
      have hin : InRange (range pid).1 (range pid).2 k := ⟨hlo.le.trans hk.1, hk.2⟩
      rw [patch, if_pos hin, if_neg (not_lt.2 hk.1)]
  · obtain ⟨l₀, hl₀, heq⟩ | ⟨-, rfl⟩ := hold q l o hq ho
    · exact (h.offset_lt q l₀ o hl₀ heq).trans hnext
    · exact hnext
  · obtain ⟨l₀, hl₀, heq⟩ | ⟨rfl, hon⟩ := hold q l o hq ho
    · obtain ⟨l₀', hl₀', heq'⟩ | ⟨-, rfl⟩ := hold q' l' o hq' ho'
      · exact h.offset_inj q q' l₀ l₀' o hl₀ hl₀' heq heq'
      · exact absurd (h.offset_lt q l₀ o hl₀ heq) (lt_irrefl _)
    · obtain ⟨l₀', hl₀', heq'⟩ | ⟨rfl, -⟩ := hold q' l' o hq' ho'
      · exact absurd (h.offset_lt q' l₀' o hl₀' heq') (by rw [hon]; exact lt_irrefl _)
      · rfl

end Stored

/-- The tree has the shape `s` and stores the map `C`. -/
structure Tree.Ok (cfg : Config) (s : Shape) (C : Key → Option Value) (t : Tree) : Prop where
  config : t.config = cfg
  bounds : cfg.Bounds
  shaped : Shaped t.root t.inners t.pages.length s
  stored : Stored cfg t.pages t.vfs t.nextOffset (fun pid => s.range (.id pid)) C
  rootBase : cfg.cacheOnly = false → ∀ pid, t.root = .id pid →
    ∃ o, t.pages[pid]? = some (.base o)
  inserted : ∀ x ∈ t.inserted, ∀ r ∈ x.1.records, r.1 ≠ x.2

namespace Tree

/-- The tree stores the map `C`. -/
def Inv (cfg : Config) (C : Key → Option Value) (t : Tree) : Prop := ∃ s, t.Ok cfg s C

/-! ## Locked leaves -/

theorem wp_withLeaf {α : Type} {pid : Nat} {parent : Option Nat} {m : LeafEntry.M α}
    {Q : α → Tree → Prop} {E : TreeError → Tree → Prop} {t : Tree} {loc : PageLocation}
    {par : Option Parent} (hloc : t.pages[pid]? = some loc) (hpar : t.parentOf parent = some par)
    (h : wp m (fun a => LeafEntry.Flushes fun l => Q a (t.unlockLeaf l))
      (fun e => LeafEntry.Flushes fun l => E e (t.unlockLeaf l)) (t.lockLeaf pid loc par)) :
    wp (withLeaf pid parent m) Q E t := by
  have hrun : ∀ r t', withLeaf pid parent m t = some (r, t') →
      ∃ l l', m (t.lockLeaf pid loc par) = some (r, l) ∧ l.flush = some l' ∧ t.unlockLeaf l' = t' := by
    intro r t' hr
    simp only [withLeaf, hloc, hpar, Option.bind_eq_bind, Option.bind_some, Option.bind_eq_some_iff,
      Option.some.injEq, Prod.mk.injEq] at hr
    obtain ⟨⟨r', l⟩, hm, l', hl, rfl, rfl⟩ := hr
    exact ⟨l, l', hm, hl, rfl⟩
  refine ⟨fun a t' ha => ?_, fun e t' he => ?_⟩
  · obtain ⟨l, l', hm, hl, rfl⟩ := hrun _ _ ha
    exact h.1 a l hm l' hl
  · obtain ⟨l, l', hm, hl, rfl⟩ := hrun _ _ he
    exact h.2 e l hm l' hl

section

variable {cfg : Config} {s : Shape} {C c : Key → Option Value} {t : Tree} {pid : Nat}
  {loc : PageLocation} {par : Option Parent} {l : LeafEntry}

theorem Ok.fresh (h : t.Ok cfg s C) (hloc : t.pages[pid]? = some loc) (par : Option Parent) :
    (t.lockLeaf pid loc par).Fresh := by
  refine ⟨rfl, rfl, fun ho => ?_⟩
  exact absurd (h.stored.offset_lt pid loc _ hloc ho) (lt_irrefl _)

theorem parentOf_some {ptr : Nat} (h : t.parentOf (some ptr) = some par) :
    ∃ n, t.inners[ptr]? = some n ∧ par = some ⟨ptr, n⟩ := by
  simp only [parentOf, Option.map_eq_some_iff] at h
  obtain ⟨n, hn, rfl⟩ := h
  exact ⟨n, hn, rfl⟩

/-- Other leaves have other keys. -/
theorem Ok.disjoint (h : t.Ok cfg s C) (hloc : t.pages[pid]? = some loc) (q : Nat) (k : Key)
    (hq : q < t.pages.length) (hne : q ≠ pid)
    (hk : InRange (s.range (.id q)).1 (s.range (.id q)).2 k) :
    ¬ InRange (s.range (.id pid)).1 (s.range (.id pid)).2 k :=
  fun hk' => hne (h.shaped.leaf_unique hq (List.getElem?_eq_some_iff.1 hloc).1 hk hk')

/-- The inner nodes after a transaction that at most marks or lifts the parent. -/
theorem shaped_sameParent {leaves : Nat} {parent : Option Nat} {p' : Option Parent}
    (h : Shaped t.root t.inners leaves s) (hpar : t.parentOf parent = some par)
    (hp : LeafEntry.SameParent par p') :
    Shaped t.root (t.setParent p') leaves s := by
  cases parent with
  | none =>
    obtain rfl : none = par := by simpa [parentOf] using hpar
    cases p' with
    | none => exact h
    | some p => exact hp.elim
  | some ptr =>
    obtain ⟨n, hn, rfl⟩ := parentOf_some hpar
    cases p' with
    | none => exact hp.elim
    | some p =>
      obtain ⟨hptr, hsame⟩ := hp
      rw [setParent, hptr]
      exact h.set_same hn hsame

/-- After a transaction that only changes its own leaf. -/
theorem Ok.settle (h : t.Ok cfg s C) (hloc : t.pages[pid]? = some loc) {parent : Option Nat}
    (hpar : t.parentOf parent = some par) (hparent : s.parent (.id pid) = parent)
    (hl : (t.lockLeaf pid loc par).Settled cfg (s.range (.id pid)).1 (s.range (.id pid)).2 c l) :
    (t.unlockLeaf l).Ok cfg s (patch (s.range (.id pid)).1 (s.range (.id pid)).2 c C) := by
  have hpages : (t.unlockLeaf l).pages = t.pages.set pid l.loc := by
    rw [unlockLeaf, hl.sibling, hl.frame.pid]
    simp [lockLeaf]
  have hnext : (t.unlockLeaf l).nextOffset = t.nextOffset := by
    simp [unlockLeaf, hl.sibling]
  refine ⟨h.config, h.bounds, ?_, ?_, fun hc q hq => ?_, ?_⟩
  · rw [hpages, List.length_set]
    exact shaped_sameParent h.shaped hpar hl.parent
  · rw [hpages, hnext]
    exact h.stored.set hloc hl.leaf hl.frame.offset hl.frame.vfs (h.disjoint hloc)
  · obtain ⟨o, ho⟩ := h.rootBase hc q hq
    rw [hpages]
    by_cases hqp : pid = q
    · subst hqp
      obtain rfl : loc = .base o := Option.some.inj (hloc.symm.trans ho)
      have hp : par = none := by
        have hroot : t.root = .id pid := hq
        rw [← hroot, h.shaped.root_parent] at hparent
        rw [← hparent] at hpar
        simpa [parentOf] using hpar.symm
      refine ⟨o, ?_⟩
      rw [List.getElem?_set_self (List.getElem?_eq_some_iff.1 hloc).1, hl.root hp o rfl]
    · exact ⟨o, by rw [List.getElem?_set_ne hqp]; exact ho⟩
  · intro x hx
    have hins : (t.unlockLeaf l).inserted = t.inserted := hl.inserted
    rw [hins] at hx
    exact h.inserted x hx

/-- The tree stores `C`. Of the leaves that it had in the shape `s` only the one of `key`
may have given up a part of its range, to a new leaf. -/
def Reshaped (cfg : Config) (C : Key → Option Value) (s : Shape) (leaves : Nat) (key : Key)
    (t : Tree) : Prop :=
  ∃ s', t.Ok cfg s' C ∧ leaves ≤ t.pages.length ∧ ∀ p < leaves,
    t.pages.length = leaves ∨ ¬ InRange (s.range (.id p)).1 (s.range (.id p)).2 key →
      s'.range (.id p) = s.range (.id p)

theorem Reshaped.inv {leaves : Nat} {key : Key} (h : Reshaped cfg C s leaves key t) :
    t.Inv cfg C := by
  obtain ⟨s', h, -⟩ := h
  exact ⟨s', h⟩

theorem Ok.reshaped (h : t.Ok cfg s C) (key : Key) : Reshaped cfg C s t.pages.length key t :=
  ⟨s, h, Nat.le_refl _, fun _ _ _ => rfl⟩

/-- After any leaf transaction. -/
theorem Ok.commit (h : t.Ok cfg s C) (hloc : t.pages[pid]? = some loc) {parent : Option Nat}
    (hpar : t.parentOf parent = some par) (hparent : s.parent (.id pid) = parent)
    (hl : (t.lockLeaf pid loc par).Committed cfg (s.range (.id pid)).1 (s.range (.id pid)).2 c l)
    {key : Key} (hkey : InRange (s.range (.id pid)).1 (s.range (.id pid)).2 key) :
    Reshaped cfg (patch (s.range (.id pid)).1 (s.range (.id pid)).2 c C) s t.pages.length key
      (t.unlockLeaf l) := by
  cases hl with
  | keeps hl =>
    refine ⟨s, h.settle hloc hpar hparent hl, ?_, fun _ _ _ => rfl⟩
    rw [unlockLeaf, List.length_append, List.length_set]
    exact Nat.le_add_right _ _
  | splits key sibling hl hp =>
    obtain ⟨q, hq, hspace, hlp, hins⟩ := hp
    have hpid : pid < t.pages.length := (List.getElem?_eq_some_iff.1 hloc).1
    cases parent with
    | none =>
      obtain rfl : none = par := by simpa [parentOf] using hpar
      exact hq.elim
    | some ptr =>
      obtain ⟨n, hn, rfl⟩ := parentOf_some hpar
      obtain ⟨rfl, hsame⟩ := hq
      have hpages : (t.unlockLeaf l).pages = t.pages.set pid l.loc ++ [sibling] := by
        rw [unlockLeaf, hl.sibling_eq, hl.frame.pid]
        rfl
      have hnext : (t.unlockLeaf l).nextOffset = t.nextOffset + t.config.leafPageSize := by
        simp [unlockLeaf, hl.sibling_eq]
      have hinners : (t.unlockLeaf l).inners =
          t.inners.set q.ptr (q.node.insert key (.id t.pages.length)).2 := by
        rw [unlockLeaf, hlp]
        rfl
      -- lift the parent first, then give it the new child
      have hset := h.shaped.set_same hn hsame
      have hqn : (t.inners.set q.ptr q.node)[q.ptr]? = some q.node :=
        List.getElem?_set_self (List.getElem?_eq_some_iff.1 hn).1
      obtain ⟨hsplit, hkeys⟩ := hset.splitLeaf hqn hpid hparent hl.lo_lt hl.lt_hi hspace
      have hne : PageID.id pid ≠ .id t.pages.length := by simp; omega
      refine ⟨s.split (.id pid) key (.id t.pages.length), ⟨h.config, h.bounds, ?_, ?_,
        fun hc r hr => ?_, fun x hx => ?_⟩, ?_, fun r hr hkeep => ?_⟩
      · rw [List.set_set] at hsplit
        rw [hpages, hinners, List.length_append, List.length_set]
        exact hsplit
      · rw [hpages, hnext]
        refine h.stored.split hloc hl.left hl.right hl.lo_lt hl.lt_hi hl.frame.offset hl.offset
          ?_ hl.frame.vfs (h.disjoint hloc) ?_ ?_ fun r hr hrp => ?_
        · have := h.bounds.leaf_pos
          rw [h.config]
          omega
        · simp [Shape.split, hne]
        · simp [Shape.split]
        · have hrne : PageID.id r ≠ .id t.pages.length := by simp; omega
          have hrpid : PageID.id r ≠ .id pid := by simpa using hrp
          simp [Shape.split, hrne, hrpid]
      · obtain ⟨o, ho⟩ := h.rootBase hc r hr
        have hrp : pid ≠ r := by
          rintro rfl
          have hroot : t.root = .id pid := hr
          rw [← hroot, h.shaped.root_parent] at hparent
          cases hparent
        rw [hpages]
        refine ⟨o, ?_⟩
        rw [List.getElem?_append_left (by simpa using (List.getElem?_eq_some_iff.1 ho).1),
          List.getElem?_set_ne hrp]
        exact ho
      · have hins' : (t.unlockLeaf l).inserted = t.inserted ++ [(q.node, key)] := hins
        rw [hins', List.mem_append, List.mem_singleton] at hx
        rcases hx with hx | rfl
        · exact h.inserted x hx
        · exact hkeys
      · rw [hpages, List.length_append, List.length_set]
        exact Nat.le_add_right _ _
      · have hlen : (t.unlockLeaf l).pages.length ≠ t.pages.length := by
          rw [hpages]
          simp
        have hrne : PageID.id r ≠ .id t.pages.length := by simp; omega
        have hrpid : PageID.id r ≠ .id pid := by
          rintro heq
          obtain rfl := PageID.id.inj heq
          exact hkeep.resolve_left hlen hkey
        simp [Shape.split, hrne, hrpid]

end

end Tree

end BfTree
