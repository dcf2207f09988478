import BfTree.Nodes.RebuildSpec

/-!
# Space accounting of leaf pages

The free space of a page and the space its records take never exceed its capacity.
Overwriting a record with a longer one leaves a hole, so that the sum may be smaller;
after a rebuild it is exact. Of its free space a fenced page keeps the length of two keys
for the fences of a later split, but only new records are counted against it.
-/

namespace BfTree.LeafNode

open Lib

/-- Bytes a record takes in its page, slot included. -/
def storedSize (m : LeafKVMeta) : Nat := m.remainingKey.length + m.value.length + kvMetaSize

/-- Bytes all records take. -/
def used (p : LeafNode) : Nat := (p.metas.map storedSize).sum

/-- Bytes an empty page with this header has for records. -/
def capacity (p : LeafNode) : Nat :=
  if p.hasFence then
    maxDataSize p.nodeSize - kvMetaSize - p.lowFence.length - kvMetaSize
      - (p.highFence.length - p.prefixLen)
  else maxDataSize p.nodeSize

theorem SameHeader.capacity {p p' : LeafNode} (h : SameHeader p p') : p'.capacity = p.capacity := by
  rw [LeafNode.capacity, LeafNode.capacity, h.hasFence, h.nodeSize, h.lowFence, h.highFence,
    h.prefixLen]

theorem initializeNode_remainingSize (lo hi : Key) (n : Nat) (nl : Option Nat) (f c : Bool) (v : Nat) :
    (initializeNode lo hi n nl f c v).remainingSize = (initializeNode lo hi n nl f c v).capacity := by
  cases f <;> simp [initializeNode, capacity]

/-- In a page without fences a record takes its full size. -/
theorem recordSize_eq_storedSize {p : LeafNode} (h : p.WF) (hf : p.hasFence = false) :
    p.recordSize = storedSize := by
  funext m
  have hp : p.prefixLen = 0 := by
    rw [h.prefixLen_eq, (h.no_fence hf).1, commonPrefixLen_nil_left]
  rw [recordSize, getKeyLen, storedSize, hp, Nat.zero_add]

/-- Records replaced or added in place. -/
theorem used_append_cons (A B : List LeafKVMeta) (m : LeafKVMeta) :
    ((A ++ m :: B).map storedSize).sum = ((A ++ B).map storedSize).sum + storedSize m := by
  simp only [List.map_append, List.map_cons, List.sum_append, List.sum_cons]
  omega

/-- An insert never takes more than there is; a new record takes exactly its size. -/
theorem insert_accounting {p p' : LeafNode} {b : Bool} (h : p.WF) {k : Key} (hk : p.Covers k)
    {v : Value} {op : OpType} {mf : Nat} (hr : p.insert k v op mf = some (b, p')) :
    p'.remainingSize + p'.used ≤ p.remainingSize + p.used ∧
      (p.entry k = none → p'.remainingSize + p'.used = p.remainingSize + p.used) := by
  obtain ⟨A, m, B, hs, hm, hi⟩ | ⟨A, B, hs, hnone, hi⟩ := insert_cases h hk v op mf
  · have hentry : p.entry k ≠ none := by
      rw [← hm]
      exact fun hn => by simp [entry, h.sorted.findKey_mem (hs.eq ▸ (by simp) : m ∈ p.metas)] at hn
    refine ⟨?_, fun hn => (hentry hn).elim⟩
    have hused : p.used = ((A ++ B).map storedSize).sum + storedSize m := by
      rw [used, hs.eq, used_append_cons]
    have hset : ∀ n : LeafKVMeta, (p.setMeta A.length n).used =
        ((A ++ B).map storedSize).sum + storedSize n := by
      intro n
      rw [used, setMeta, hs.eq, set_length_append, used_append_cons]
    rw [hi, insertExisting] at hr
    split at hr
    · cases hr
      rw [hset, hused]; exact le_rfl
    · split at hr
      · next hlen =>
        cases hr
        rw [hset, hused]
        simp only [setMeta, storedSize]
        omega
      · split at hr
        · cases hr
          exact le_rfl
        · next hroom =>
          split at hr
          · cases hr
          · cases hr
            have hused' : LeafNode.used { p.setMeta A.length { m with value := v, opType := op } with
                remainingSize := p.remainingSize - ((k.drop p.prefixLen).length + v.length) } =
                ((A ++ B).map storedSize).sum + storedSize { m with value := v, opType := op } :=
              hset _
            rw [hused', hused]
            simp only [storedSize] at *
            omega
  · rw [hi, insertNew] at hr
    split at hr
    · cases hr
      exact ⟨le_rfl, fun _ => rfl⟩
    · split at hr
      · cases hr
        exact ⟨le_rfl, fun _ => rfl⟩
      · next hfull =>
        cases hr
        have hroom : (k.drop p.prefixLen).length + v.length + kvMetaSize ≤ p.remainingSize := by
          by_contra hlt
          exact hfull (by rw [fullWithFences, if_pos (by omega)])
        have hused : LeafNode.used { p with
            metas := p.metas.insertIdx A.length (LeafKVMeta.makePrefixedMeta v k p.prefixLen op)
            remainingSize := p.remainingSize -
              ((k.drop p.prefixLen).length + v.length + kvMetaSize) } =
            p.used + ((k.drop p.prefixLen).length + v.length + kvMetaSize) := by
          simp only [used]
          conv_lhs => rw [hs.eq, insertIdx_length_append, used_append_cons]
          rw [hs.eq]
          rfl
        rw [hused]
        dsimp only
        constructor
        · omega
        · intro _; omega

/-- A read marks a slot and takes no space. -/
theorem readByKeyInner_space {p p' : LeafNode} {k : Key} {buf buf' : List UInt8} {r : LeafReadResult}
    {b : Bool} (hr : p.readByKeyInner k buf b = some (r, buf', p')) :
    p'.remainingSize = p.remainingSize ∧ p'.used = p.used := by
  have hmark : ∀ pos m, p.metas[pos]? = some m →
      (p.setMeta pos { m with referenced := true }).used = p.used := by
    intro pos m hm
    obtain ⟨hlt, rfl⟩ := List.getElem?_eq_some_iff.1 hm
    rw [used, used, setMeta, List.map_set]
    conv_rhs => rw [← List.set_getElem_self hlt, List.map_set]
    rfl
  simp only [readByKeyInner, Option.bind_eq_bind, Option.bind_eq_some_iff] at hr
  obtain ⟨pos, -, hr⟩ := hr
  split at hr
  · cases hr
    exact ⟨rfl, rfl⟩
  · next m hm =>
    split at hr
    · split at hr
      · cases hr
        exact ⟨rfl, hmark pos m hm⟩
      · obtain ⟨out, -, hr⟩ := Option.bind_eq_some_iff.1 hr
        cases hr
        exact ⟨rfl, hmark pos m hm⟩
    · cases hr
      exact ⟨rfl, hmark pos m hm⟩

/-- The first record of a page takes at most its full size. -/
theorem insert_metas_nil {p p' : LeafNode} (hnil : p.metas = []) {key : Key} {value : Value}
    {op : OpType} {mf : Nat} {b : Bool} (hr : p.insert key value op mf = some (b, p')) :
    p.remainingSize ≤ p'.remainingSize + (key.length + value.length + kvMetaSize) := by
  simp only [insert, hnil, List.getElem?_nil, Option.bind_eq_bind, Option.bind_eq_some_iff,
    Option.some.injEq] at hr
  obtain ⟨pos, -, hr⟩ := hr
  have hdrop : (key.drop p.prefixLen).length ≤ key.length := by
    rw [List.length_drop]
    exact Nat.sub_le _ _
  unfold insertNew at hr
  split at hr
  · obtain ⟨-, rfl⟩ := Prod.mk.inj hr
    exact Nat.le_add_right _ _
  · split at hr
    · obtain ⟨-, rfl⟩ := Prod.mk.inj hr
      exact Nat.le_add_right _ _
    · obtain ⟨-, rfl⟩ := Prod.mk.inj hr
      dsimp only
      omega

theorem insertAll_accounting {mf : Nat} {pairs : List (Key × Value × OpType)} :
    ∀ {p p' : LeafNode}, p.WF → (∀ e ∈ pairs, p.Covers e.1) → KeySorted Prod.fst pairs →
      p.insertAll mf pairs = some p' →
      p'.remainingSize + p'.used ≤ p.remainingSize + p.used ∧
        ((∀ e ∈ pairs, p.entry e.1 = none) →
          p'.remainingSize + p'.used = p.remainingSize + p.used) := by
  induction pairs with
  | nil =>
    intro p p' _ _ _ hr
    cases hr
    exact ⟨le_rfl, fun _ => rfl⟩
  | cons e pairs ih =>
    obtain ⟨k, v, op⟩ := e
    intro p p' h hcov hsorted hr
    rw [insertAll] at hr
    split at hr
    · next q hq =>
      have hk := hcov (k, v, op) List.mem_cons_self
      obtain ⟨hw, hh, -, he⟩ := insert_spec h hk hq
      obtain ⟨hle, heq⟩ := insert_accounting h hk hq
      obtain ⟨hlt, hsorted'⟩ := keySorted_cons.1 hsorted
      obtain ⟨hle', heq'⟩ := ih hw
        (fun e he => hh.covers.2 (hcov e (List.mem_cons_of_mem _ he))) hsorted' hr
      refine ⟨hle'.trans hle, fun hnew => ?_⟩
      rw [heq' ?_, heq (hnew _ List.mem_cons_self)]
      intro e' he'
      have hne : e'.1 ≠ k := (hlt e' he').ne'
      rw [he rfl, if_neg hne]
      exact hnew e' (List.mem_cons_of_mem _ he')
    · cases hr

/-- A page that was rebuilt from scratch has no holes. -/
theorem rebuild_accounting {p q q' : LeafNode} (h : p.WF) {ms : List LeafKVMeta}
    (hms : ms.Sublist p.metas) (g : LeafKVMeta → Option (Key × Value × OpType))
    (hg : ∀ m e, g m = some e → e.1 = p.getFullKey m) (hq : q.WF) (hnil : q.metas = [])
    (hcov : ∀ m ∈ ms, q.Covers (p.getFullKey m)) {mf : Nat}
    (hr : q.insertAll mf (ms.filterMap g) = some q') :
    q'.remainingSize + q'.used = q.remainingSize := by
  have hsorted : KeySorted p.getFullKey ms := h.sorted.sublist hms
  have hcov' : ∀ e ∈ ms.filterMap g, q.Covers e.1 := by
    intro e he
    obtain ⟨m, hm, hge⟩ := List.mem_filterMap.1 he
    rw [hg m e hge]
    exact hcov m hm
  have hbal := (insertAll_accounting hq hcov' (hsorted.filterMap g hg) hr).2
    fun e _ => entry_of_metas_nil hnil e.1
  rw [hbal, used, hnil]
  rfl

/-! ## Room for a rebuild -/

/-- Bytes that writing a record takes at most. A base page stores no tombstone for a key
it does not hold. -/
def pairCost (p : LeafNode) (e : Key × Value × OpType) : Nat :=
  if e.2.2 = .delete ∧ p.isBasePage then 0
  else (e.1.drop p.prefixLen).length + e.2.1.length + kvMetaSize

theorem SameHeader.pairCost {p p' : LeafNode} (h : SameHeader p p') : p'.pairCost = p.pairCost := by
  funext e
  rw [LeafNode.pairCost, LeafNode.pairCost, h.isBasePage, h.prefixLen]

/-- A record that fits is written. Only a cached record must not meet an older one. -/
theorem insert_of_room {p : LeafNode} (h : p.WF) {k : Key} (hk : p.Covers k) {v : Value} {op : OpType}
    (hop : op = .cache → p.entry k = none) (hroom : p.pairCost (k, v, op) ≤ p.remainingSize) :
    ∃ p', p.insert k v op 0 = some (true, p') ∧
      p.remainingSize ≤ p'.remainingSize + p.pairCost (k, v, op) := by
  -- everything but a tombstone on a base page counts
  have hcost : ¬ (op = .delete ∧ p.isBasePage = true) →
      p.pairCost (k, v, op) = (k.drop p.prefixLen).length + v.length + kvMetaSize :=
    fun hc => if_neg hc
  obtain ⟨A, m, B, hs, hm, hi⟩ | ⟨A, B, hs, hnone, hi⟩ := insert_cases h hk v op 0
  · rw [hi, insertExisting]
    by_cases hdel : op = .delete
    · rw [if_pos hdel]
      exact ⟨_, rfl, Nat.le_add_right _ _⟩
    · rw [if_neg hdel]
      by_cases hlen : v.length ≤ m.value.length
      · rw [if_pos hlen]
        exact ⟨_, rfl, Nat.le_add_right _ _⟩
      · have hentry : p.entry k ≠ none := by
          rw [entry, hs.findKey_head h.sorted]
          simp [hm]
        have := hcost fun hc => hdel hc.1
        rw [if_neg hlen, if_neg (by omega), if_neg (fun hc => hentry (hop hc))]
        exact ⟨_, rfl, by dsimp only; omega⟩
  · rw [hi, insertNew]
    by_cases hdel : op = .delete ∧ p.isBasePage = true
    · rw [if_pos hdel]
      exact ⟨_, rfl, Nat.le_add_right _ _⟩
    · have := hcost hdel
      have hfree : p.fullWithFences ((k.drop p.prefixLen).length + v.length + kvMetaSize) 0 =
          false := by
        rw [fullWithFences, if_neg (by omega)]
        split
        · simp only [Bool.not_eq_false', decide_eq_true_eq]
          omega
        · rfl
      rw [if_neg hdel, if_neg (by rw [hfree]; exact Bool.false_ne_true)]
      exact ⟨_, rfl, by dsimp only; omega⟩

/-- One estimate up front covers a whole series of records. -/
theorem insertAll_of_room {pairs : List (Key × Value × OpType)} :
    ∀ {p : LeafNode}, p.WF → (∀ e ∈ pairs, p.Covers e.1) → KeySorted Prod.fst pairs →
      (∀ e ∈ pairs, e.2.2 = .cache → p.entry e.1 = none) →
      (pairs.map p.pairCost).sum ≤ p.remainingSize →
      ∃ p', p.insertAll 0 pairs = some p' ∧
        p.remainingSize ≤ p'.remainingSize + (pairs.map p.pairCost).sum := by
  induction pairs with
  | nil =>
    intro p _ _ _ _ _
    exact ⟨p, rfl, Nat.le_refl _⟩
  | cons e pairs ih =>
    obtain ⟨k, v, op⟩ := e
    intro p h hcov hsorted hcache hroom
    rw [List.map_cons, List.sum_cons] at hroom
    obtain ⟨hlt, hsorted'⟩ := keySorted_cons.1 hsorted
    have hk := hcov (k, v, op) List.mem_cons_self
    have hcost : p.pairCost (k, v, op) ≤ p.remainingSize := by omega
    obtain ⟨q, hq, hleft⟩ := insert_of_room h hk (hcache (k, v, op) List.mem_cons_self) hcost
    obtain ⟨hw, hh, -, he⟩ := insert_spec h hk hq
    obtain ⟨p', hp', hleft'⟩ := ih hw (fun e he => hh.covers.2 (hcov e (List.mem_cons_of_mem _ he)))
      hsorted'
      (fun e he' hc => by
        rw [he rfl, if_neg (hlt e he').ne']
        exact hcache e (List.mem_cons_of_mem _ he') hc)
      (by rw [hh.pairCost]; dsimp only at hleft; omega)
    refine ⟨p', by rw [insertAll, hq]; exact hp', ?_⟩
    rw [hh.pairCost] at hleft'
    rw [List.map_cons, List.sum_cons]
    dsimp only at hleft
    omega

/-- A page whose records take at most `f` bytes each is rebuilt in any page with that much
room. -/
theorem rebuild_of_room {p q : LeafNode} (h : p.WF) {ms : List LeafKVMeta}
    (hms : ms.Sublist p.metas) (g : LeafKVMeta → Option (Key × Value × OpType))
    (hg : ∀ m e, g m = some e → e.1 = p.getFullKey m) (hq : q.WF) (hnil : q.metas = [])
    (hcov : ∀ m ∈ ms, q.Covers (p.getFullKey m)) (f : LeafKVMeta → Nat)
    (hcost : ∀ m e, g m = some e → q.pairCost e ≤ f m) (hroom : (ms.map f).sum ≤ q.remainingSize) :
    ∃ q', q.insertAll 0 (ms.filterMap g) = some q' ∧
      q.remainingSize ≤ q'.remainingSize + (ms.map f).sum := by
  have hsum : ((ms.filterMap g).map q.pairCost).sum ≤ (ms.map f).sum := by
    clear hms hcov hroom
    induction ms with
    | nil => exact Nat.le_refl 0
    | cons m ms ih =>
      rw [List.filterMap_cons, List.map_cons, List.sum_cons]
      cases hm : g m with
      | none => exact Nat.le_add_left_of_le ih
      | some e => exact Nat.add_le_add (hcost m e hm) ih
  have hsorted : KeySorted p.getFullKey ms := h.sorted.sublist hms
  obtain ⟨q', hq', hleft⟩ := insertAll_of_room hq
    (fun e he => by
      obtain ⟨m, hm, hge⟩ := List.mem_filterMap.1 he
      rw [hg m e hge]
      exact hcov m hm)
    (hsorted.filterMap g hg) (fun e _ _ => entry_of_metas_nil hnil e.1) (hsum.trans hroom)
  exact ⟨q', hq', by omega⟩

theorem length_getFullKey_le (p : LeafNode) (m : LeafKVMeta) :
    (p.getFullKey m).length ≤ p.getKeyLen m := by
  rw [getFullKey, List.length_append, getKeyLen, getPrefix, List.length_take]
  omega

/-- The full size of a record is enough in any page. -/
theorem length_drop_getFullKey_le (p : LeafNode) (n : Nat) (m : LeafKVMeta) :
    ((p.getFullKey m).drop n).length + m.value.length + kvMetaSize ≤ p.recordSize m := by
  have := p.length_getFullKey_le m
  rw [List.length_drop, recordSize]
  omega

theorem pairCost_le (p : LeafNode) (e : Key × Value × OpType) :
    p.pairCost e ≤ (e.1.drop p.prefixLen).length + e.2.1.length + kvMetaSize := by
  unfold pairCost
  split
  · exact Nat.zero_le _
  · exact le_rfl

/-- A page is consolidated if its records, `f` bytes each, fit between the new fences. -/
theorem consolidateInner_of_room {p : LeafNode} (h : p.WF) {op : OpType} {newHigh : Option Key}
    {skipTombstone c : Bool} {skipKey : Option Key} {ver : Nat}
    (hcov : ∀ m ∈ p.metas, p.hasFence = true →
      InRange p.lowFence (newHigh.getD p.highFence) (p.getFullKey m))
    (f : LeafKVMeta → Nat)
    (hcost : ∀ m, ((p.getFullKey m).drop (initializeNode p.lowFence (newHigh.getD p.highFence)
      p.nodeSize p.nextLevel p.hasFence c ver).prefixLen).length + m.value.length + kvMetaSize ≤ f m)
    (hroom : (p.metas.map f).sum ≤ (initializeNode p.lowFence (newHigh.getD p.highFence) p.nodeSize
      p.nextLevel p.hasFence c ver).remainingSize) :
    ∃ q, p.consolidateInner op newHigh skipTombstone c skipKey ver = some q ∧
      (initializeNode p.lowFence (newHigh.getD p.highFence) p.nodeSize p.nextLevel p.hasFence c
        ver).remainingSize ≤ q.remainingSize + (p.metas.map f).sum := by
  refine rebuild_of_room h (List.Sublist.refl _) _ (fun m e he => ?_) (wf_initializeNode ..)
    (initializeNode_metas ..) (fun m hm => covers_initializeNode _ _ _ _ (hcov m hm)) f
    (fun m e he => ?_) hroom
  · split at he
    · cases he
    · split at he
      · cases he
      · cases he
        rfl
  · split at he
    · cases he
    · split at he
      · cases he
      · cases he
        exact (pairCost_le _ _).trans (hcost m)

/-- A page is cut in two if each part fits between its new fences. -/
theorem splitAtCount_of_room {p : LeafNode} (h : p.WF) {n siblingSize ver : Nat} {key : Key}
    {cacheOnly : Bool} (hcut : p.CutAt n key) (hkind : (p.isCacheOnlyLeaf || p.isBasePage) = true)
    (hleft : ((p.metas.take n).map p.recordSize).sum ≤ (initializeNode p.lowFence key p.nodeSize
      p.nextLevel p.hasFence p.isCacheOnlyLeaf ver).remainingSize)
    (hright : ((p.metas.drop n).map p.recordSize).sum ≤
      (initializeNode (if cacheOnly then [] else key) (if cacheOnly then [] else p.highFence)
        siblingSize none (!cacheOnly) cacheOnly ver).remainingSize) :
    ∃ left sibling, p.splitAtCount siblingSize n key cacheOnly ver = some (left, sibling) ∧
      (initializeNode p.lowFence key p.nodeSize p.nextLevel p.hasFence p.isCacheOnlyLeaf
        ver).remainingSize ≤ left.remainingSize + ((p.metas.take n).map p.recordSize).sum ∧
      (initializeNode (if cacheOnly then [] else key) (if cacheOnly then [] else p.highFence)
        siblingSize none (!cacheOnly) cacheOnly ver).remainingSize ≤
          sibling.remainingSize + ((p.metas.drop n).map p.recordSize).sum := by
  obtain ⟨sibling, hs, hroomS⟩ := rebuild_of_room h (List.drop_sublist n p.metas)
    (fun m => if m.opType = .delete then none else some (p.getFullKey m, m.value, .insert))
    (fun m e he => by
      split at he
      · cases he
      · cases he
        rfl)
    (wf_initializeNode ..) (initializeNode_metas ..) (fun m hm => hcut.covers_sibling h hm)
    p.recordSize
    (fun m e he => by
      split at he
      · cases he
      · cases he
        exact (pairCost_le _ _).trans (p.length_drop_getFullKey_le _ m))
    hright
  have hbelow : ∀ m ∈ p.metas.take n, p.hasFence = true →
      InRange p.lowFence ((some key).getD p.highFence) (p.getFullKey m) := fun m hm _ =>
    ⟨(h.inRange m (List.mem_of_mem_take hm)).1, .inr (hcut.left m hm)⟩
  obtain ⟨left, hl, hroomL⟩ : ∃ q, ({ p with metas := p.metas.take n } : LeafNode).consolidateInner
        .insert (some key) true p.isCacheOnlyLeaf none ver = some q ∧
      (initializeNode p.lowFence key p.nodeSize p.nextLevel p.hasFence p.isCacheOnlyLeaf
        ver).remainingSize ≤ q.remainingSize + ((p.metas.take n).map p.recordSize).sum :=
    consolidateInner_of_room (h.of_sublist (List.take_sublist n p.metas)) hbelow p.recordSize
      (fun m => p.length_drop_getFullKey_le _ m) hleft
  refine ⟨left, sibling, ?_, hroomL, hroomS⟩
  have hempty : (if cacheOnly = true then initializeNode [] [] siblingSize none false cacheOnly ver
      else initializeNode key p.highFence siblingSize none true cacheOnly ver) =
      initializeNode (if cacheOnly then [] else key) (if cacheOnly then [] else p.highFence)
        siblingSize none (!cacheOnly) cacheOnly ver := by
    cases cacheOnly <;> rfl
  have hkind' : (({ p with metas := p.metas.take n } : LeafNode).isCacheOnlyLeaf ||
      ({ p with metas := p.metas.take n } : LeafNode).isBasePage) = true := hkind
  simp only [splitAtCount, hempty, movedPairs, hs, consolidateAfterSplit, hkind', if_true, hl,
    Option.bind_eq_bind, Option.bind_some]

/-! ## The fence reserve -/

/-- The page keeps `maxFenceLen` bytes for its fences; an infinite fence counts nothing. -/
def KeepsReserve (p : LeafNode) (maxFenceLen : Nat) : Prop :=
  maxFenceLen ≤ p.remainingSize + p.lowFence.length + p.highFence.length

instance (p : LeafNode) (maxFenceLen : Nat) : Decidable (p.KeepsReserve maxFenceLen) :=
  inferInstanceAs (Decidable (_ ≤ _))

/-- Bytes an insert puts into the free space next to the old record of its key: none,
unless the new value is longer. -/
def replacedBytes (p : LeafNode) (key : Key) (value : Value) (op : OpType) : Nat :=
  match p.entry key with
  | some (_, old) =>
    if op ≠ .delete ∧ old.length < value.length then
      (key.drop p.prefixLen).length + value.length
    else 0
  | none => 0

/-- A new record leaves the reserve alone. A longer value of a key that is there takes its
bytes from the reserve as well, if nothing else is free. -/
theorem insert_keepsReserve_iff {p p' : LeafNode} (h : p.WF) (hf : p.hasFence = true) {key : Key}
    (hk : p.Covers key) {value : Value} {op : OpType} {maxFenceLen : Nat}
    (hres : p.KeepsReserve maxFenceLen)
    (hr : p.insert key value op maxFenceLen = some (true, p')) :
    p'.KeepsReserve maxFenceLen ↔
      maxFenceLen + p.replacedBytes key value op ≤
        p.remainingSize + p.lowFence.length + p.highFence.length := by
  obtain ⟨-, hh, -, -⟩ := insert_spec h hk hr
  rw [KeepsReserve, hh.lowFence, hh.highFence]
  rw [KeepsReserve] at hres
  obtain ⟨A, m, B, hs, hm, hi⟩ | ⟨A, B, hs, hnone, hi⟩ := insert_cases h hk value op maxFenceLen
  · have hentry : p.entry key = some (m.opType, m.value) := by
      rw [entry, hs.findKey_head h.sorted]
      simp [hm]
    rw [hi, insertExisting] at hr
    simp only [replacedBytes, hentry]
    split at hr
    · next hdel =>
      cases hr
      rw [if_neg (fun hc => hc.1 hdel)]
      rfl
    · next hdel =>
      split at hr
      · next hle =>
        cases hr
        rw [if_neg (by omega)]
        rfl
      · next hgt =>
        rw [if_pos ⟨hdel, by omega⟩]
        split at hr
        · cases hr
        · split at hr
          · cases hr
          · cases hr
            dsimp only
            omega
  · have hentry : p.entry key = none := by rw [entry, hnone]; rfl
    rw [hi, insertNew] at hr
    simp only [replacedBytes, hentry]
    split at hr
    · cases hr
      rfl
    · split at hr
      · cases hr
      · next hfull =>
        cases hr
        simp only [fullWithFences, hf, if_true] at hfull
        split at hfull
        · exact absurd rfl hfull
        · simp only [Bool.not_eq_true, Bool.not_eq_false', decide_eq_true_eq] at hfull
          refine iff_of_true ?_ hres
          dsimp only
          omega

theorem insert_keepsReserve_first :
    ∃ p', (makeBasePage 4096 0).insert [1] [2, 3, 4] .insert 32 = some (true, p') ∧
      p'.KeepsReserve 32 := by
  have hwf : (makeBasePage 4096 0).WF := wf_initializeNode ..
  have hr : (makeBasePage 4096 0).insert [1] [2, 3, 4] .insert 32 = some (true, _) := rfl
  exact ⟨_, hr, (insert_keepsReserve_iff hwf rfl (inRange_nil_nil [1]) (by decide) hr).2 (by decide)⟩

/-- Records that were small when they came and then grew in place. -/
def grownRecords : List (Key × Value × OpType) :=
  [([1], List.replicate 4 0, .insert), ([1], List.replicate 1951 0, .insert),
    ([2], List.replicate 4 0, .insert), ([2], List.replicate 1951 0, .insert),
    ([3], List.replicate 4 0, .insert)]

/-- With the sizes of the default configuration: 105 bytes are free before the last record
grows by re-placing 101 bytes, and 4 afterwards. -/
theorem grown_record_takes_reserve :
    ∃ p p', (makeBasePage 4096 0).insertAll 32 grownRecords = some p ∧ p.KeepsReserve 32 ∧
      p.insert [3] (List.replicate 100 0) .insert 32 = some (true, p') ∧
      ¬ p'.KeepsReserve 32 := by
  have hrun : ((makeBasePage 4096 0).insertAll 32 grownRecords).any (fun p =>
      p.KeepsReserve 32 && (p.insert [3] (List.replicate 100 0) .insert 32).any fun r =>
        r.1 && !r.2.KeepsReserve 32) = true := by
    decide +kernel
  simp only [Option.any_eq_true, Bool.and_eq_true, decide_eq_true_eq, Bool.not_eq_true',
    decide_eq_false_iff_not] at hrun
  obtain ⟨p, hp, hres, ⟨b, p'⟩, hp', rfl, hres'⟩ := hrun
  exact ⟨p, p', hp, hres, hp', hres'⟩

end BfTree.LeafNode
