import BfTree.Nodes.LeafRebuild

/-!
# BfTree.Nodes.LeafSpec — a leaf page is a map

What the page operations mean. `entry p k` is the record a page holds for a key;
`insert` changes it at one key and nowhere else, and every rebuild is a sequence
of inserts. Callers use `insert_spec` and `insertAll_spec` and never look at slots
again.
-/

namespace BfTree

open Lib

/-! ## Key ranges -/

/-- `k` lies in `[lo, hi)`; an empty `hi` is no bound, an empty `lo` is below
every key. -/
def InRange (lo hi k : Key) : Prop := lo ≤ k ∧ (hi = [] ∨ k < hi)

instance (lo hi k : Key) : Decidable (InRange lo hi k) :=
  inferInstanceAs (Decidable (_ ∧ _))

theorem inRange_nil_nil (k : Key) : InRange [] [] k :=
  ⟨nil_le k, .inl rfl⟩

/-! ## The common part of the fences -/

theorem take_commonPrefixLen (low high : Key) :
    low.take (commonPrefixLen low high) = high.take (commonPrefixLen low high) := by
  induction low generalizing high with
  | nil => simp [commonPrefixLen]
  | cons a low ih =>
    cases high with
    | nil => simp [commonPrefixLen]
    | cons b high =>
      by_cases h : a = b
      · simp [commonPrefixLen, h, ih]
      · simp [commonPrefixLen, h]

theorem commonPrefixLen_le (low high : Key) : commonPrefixLen low high ≤ low.length := by
  induction low generalizing high with
  | nil => simp [commonPrefixLen]
  | cons a low ih =>
    cases high with
    | nil => simp [commonPrefixLen]
    | cons b high =>
      by_cases h : a = b
      · simpa [commonPrefixLen, h] using ih high
      · simp [commonPrefixLen, h]

theorem commonPrefixLen_le_right (low high : Key) : commonPrefixLen low high ≤ high.length := by
  have hlen := congrArg List.length (take_commonPrefixLen low high)
  have hle := commonPrefixLen_le low high
  rw [List.length_take, List.length_take] at hlen
  omega

@[simp] theorem commonPrefixLen_nil_left (high : Key) : commonPrefixLen [] high = 0 := by
  simp [commonPrefixLen]

@[simp] theorem commonPrefixLen_nil_right (low : Key) : commonPrefixLen low [] = 0 := by
  cases low <;> simp [commonPrefixLen]

/-- Cutting the common part of the fences loses nothing on a key between them. -/
theorem take_append_drop_of_inRange {low high k : Key} (h : InRange low high k) :
    low.take (commonPrefixLen low high) ++ k.drop (commonPrefixLen low high) = k ∧
      commonPrefixLen low high ≤ k.length := by
  rcases h.2 with rfl | hlt
  · simp
  · have hlo : low.take (commonPrefixLen low high) ++ low.drop (commonPrefixLen low high) ≤ k := by
      rw [List.take_append_drop]; exact h.1
    have hhi : k < low.take (commonPrefixLen low high) ++ high.drop (commonPrefixLen low high) := by
      rw [take_commonPrefixLen, List.take_append_drop]; exact hlt
    obtain ⟨c, hc⟩ := eq_append_of_between hlo hhi
    have hlen : (low.take (commonPrefixLen low high)).length = commonPrefixLen low high := by
      rw [List.length_take, min_eq_left (commonPrefixLen_le low high)]
    constructor
    · conv_lhs => rw [hc, List.drop_append_of_le_length hlen.ge, List.drop_eq_nil_of_le hlen.le]
      rw [List.nil_append, ← hc]
    · rw [hc, List.length_append, hlen]
      exact Nat.le_add_right _ _

namespace LeafNode

/-! ## Well-formed pages -/

/-- The shape every page keeps: the common part belongs to the fences, the
records are strictly sorted and lie between the fences. -/
structure WF (p : LeafNode) : Prop where
  prefixLen_eq : p.prefixLen = commonPrefixLen p.lowFence p.highFence
  no_fence : p.hasFence = false → p.lowFence = [] ∧ p.highFence = []
  sorted : KeySorted p.getFullKey p.metas
  inRange : ∀ m ∈ p.metas, InRange p.lowFence p.highFence (p.getFullKey m)

/-- The record a page holds for a key. -/
def entry (p : LeafNode) (k : Key) : Option (OpType × Value) :=
  (findKey p.getFullKey p.metas k).map fun m => (m.opType, m.value)

/-- A key lies between the fences of the page. -/
def Covers (p : LeafNode) (k : Key) : Prop := InRange p.lowFence p.highFence k

theorem WF.fullKey_drop {p : LeafNode} (h : p.WF) {k : Key} (hk : p.Covers k) :
    p.getPrefix ++ k.drop p.prefixLen = k ∧ p.prefixLen ≤ k.length := by
  rw [getPrefix, h.prefixLen_eq]
  exact take_append_drop_of_inRange hk

theorem WF.covers_of_entry {p : LeafNode} (h : p.WF) {k : Key} {e : OpType × Value}
    (he : p.entry k = some e) : p.Covers k := by
  obtain ⟨m, hm, -⟩ := Option.map_eq_some_iff.1 he
  obtain ⟨hmem, rfl⟩ := findKey_some hm
  exact h.inRange m hmem

theorem entry_eq_some {p : LeafNode} (h : p.WF) {k : Key} {op : OpType} {v : Value} :
    p.entry k = some (op, v) ↔
      ∃ m ∈ p.metas, p.getFullKey m = k ∧ m.opType = op ∧ m.value = v := by
  simp only [entry, Option.map_eq_some_iff, h.sorted.findKey_iff, Prod.mk.injEq, and_assoc]

/-! ## Fresh pages -/

@[simp] theorem initializeNode_metas (lo hi : Key) (n : Nat) (nl : Option Nat) (f c : Bool)
    (v : Nat) : (initializeNode lo hi n nl f c v).metas = [] := by
  cases f <;> rfl

@[simp] theorem initializeNode_nextLevel (lo hi : Key) (n : Nat) (nl : Option Nat) (f c : Bool)
    (v : Nat) : (initializeNode lo hi n nl f c v).nextLevel = nl := by
  cases f <;> rfl

@[simp] theorem initializeNode_isCacheOnlyLeaf (lo hi : Key) (n : Nat) (nl : Option Nat)
    (f c : Bool) (v : Nat) : (initializeNode lo hi n nl f c v).isCacheOnlyLeaf = c := by
  cases f <;> rfl

@[simp] theorem initializeNode_hasFence (lo hi : Key) (n : Nat) (nl : Option Nat) (f c : Bool)
    (v : Nat) : (initializeNode lo hi n nl f c v).hasFence = f := by
  cases f <;> rfl

@[simp] theorem initializeNode_nodeSize (lo hi : Key) (n : Nat) (nl : Option Nat)
    (f c : Bool) (v : Nat) : (initializeNode lo hi n nl f c v).nodeSize = n := by
  cases f <;> rfl

@[simp] theorem initializeNode_lowFence (lo hi : Key) (n : Nat) (nl : Option Nat) (f c : Bool)
    (v : Nat) : (initializeNode lo hi n nl f c v).lowFence = if f then lo else [] := by
  cases f <;> rfl

@[simp] theorem initializeNode_highFence (lo hi : Key) (n : Nat) (nl : Option Nat) (f c : Bool)
    (v : Nat) : (initializeNode lo hi n nl f c v).highFence = if f then hi else [] := by
  cases f <;> rfl

theorem wf_initializeNode (lo hi : Key) (n : Nat) (nl : Option Nat) (f c : Bool) (v : Nat) :
    (initializeNode lo hi n nl f c v).WF where
  prefixLen_eq := by cases f <;> simp [initializeNode]
  no_fence := by cases f <;> simp
  sorted := by simp
  inRange := by simp

theorem entry_of_metas_nil {p : LeafNode} (h : p.metas = []) (k : Key) : p.entry k = none := by
  simp [entry, h]

theorem covers_initializeNode {lo hi k : Key} {f : Bool} (n : Nat) (nl : Option Nat) (c : Bool)
    (v : Nat) (h : f = true → InRange lo hi k) : (initializeNode lo hi n nl f c v).Covers k := by
  cases f with
  | true => simpa [Covers] using h rfl
  | false => simpa [Covers] using inRange_nil_nil k

@[simp] theorem entry_initializeNode (lo hi : Key) (n : Nat) (nl : Option Nat) (f c : Bool)
    (v : Nat) (k : Key) : (initializeNode lo hi n nl f c v).entry k = none :=
  entry_of_metas_nil (initializeNode_metas ..) k

/-! ## Search -/

theorem take_previewOf (k : Key) : (previewOf k).take (min previewSize k.length) =
    k.take previewSize := by
  rcases Nat.le_total previewSize k.length with h | h
  · simp [previewOf, h]
  · rw [previewOf, min_eq_right h, List.take_of_length_le h, List.take_left]

/-- The preview never changes the outcome of a comparison. -/
theorem keyCmp_eq (m : LeafKVMeta) (suffix : Key) : keyCmp m suffix = lexCmp m.remainingKey suffix := by
  have hpre : suffix.take (min suffix.length previewSize) = suffix.take previewSize := by
    rw [Nat.min_comm, ← List.take_take, List.take_length]
  rw [keyCmp, m.preview_eq, take_previewOf, hpre]
  exact lexCmp_take_then previewSize m.remainingKey suffix _ (.inl rfl)

theorem keyCmp_drop {p : LeafNode} (h : p.WF) {k : Key} (hk : p.Covers k) (m : LeafKVMeta) :
    keyCmp m (k.drop p.prefixLen) = lexCmp (p.getFullKey m) k := by
  rw [keyCmp_eq, ← lexCmp_append_append p.getPrefix, (h.fullKey_drop hk).1, getFullKey]

theorem strictTest_slotTest {p : LeafNode} (h : p.WF) {k : Key} (hk : p.Covers k) :
    StrictTest (slotTest p.metas (k.drop p.prefixLen)) 0 p.metas.length := by
  intro i j _ hij hj hng
  have hi : i < p.metas.length := hij.trans hj
  have hlt : p.getFullKey p.metas[i] < p.getFullKey p.metas[j] :=
    List.pairwise_iff_getElem.1 h.sorted i j hi hj hij
  simp only [slotTest, List.getElem?_eq_getElem hi, List.getElem?_eq_getElem hj,
    keyCmp_drop h hk, ne_eq, lexCmp_eq_gt, lexCmp_eq_lt, not_lt] at hng ⊢
  exact hlt.trans_le hng

theorem lowerBound_le {p : LeafNode} {key : Key} {pos : Nat} (h : p.lowerBound key = some pos) :
    pos ≤ p.metas.length := by
  simp only [lowerBound] at h
  split at h
  · cases h
  · split at h
    · next mid hmid =>
      obtain rfl : mid = pos := Option.some.inj h
      exact binarySearch_le (Nat.zero_le _) (.inl hmid)
    · next lower hlower =>
      obtain rfl : lower = pos := Option.some.inj h
      exact binarySearch_le (Nat.zero_le _) (.inr hlower)

/-- The search position splits the page at the key. -/
theorem lowerBound_spec {p : LeafNode} (h : p.WF) {k : Key} (hk : p.Covers k) :
    ∃ A B, p.lowerBound k = some A.length ∧ SplitAt p.getFullKey p.metas k A B := by
  have hlen : ¬ k.length < p.prefixLen := not_lt.2 (h.fullKey_drop hk).2
  have hspec := binarySearch_spec (Nat.zero_le p.metas.length) (strictTest_slotTest h hk)
  rw [Nat.sub_zero] at hspec
  have htest : ∀ i (hi : i < p.metas.length),
      slotTest p.metas (k.drop p.prefixLen) i = lexCmp (p.getFullKey p.metas[i]) k := by
    intro i hi
    rw [slotTest, List.getElem?_eq_getElem hi]
    exact keyCmp_drop h hk _
  -- whichever way the search ends, `i` separates smaller from not smaller slots
  have hsplit : ∀ i, i ≤ p.metas.length →
      (∀ j, j < i → slotTest p.metas (k.drop p.prefixLen) j = .lt) →
      (∀ j, i ≤ j → j < p.metas.length → slotTest p.metas (k.drop p.prefixLen) j ≠ .lt) →
      (p.metas.take i).length = i ∧
        SplitAt p.getFullKey p.metas k (p.metas.take i) (p.metas.drop i) := by
    intro i hi hleft hright
    refine ⟨by rw [List.length_take, min_eq_left hi], (List.take_append_drop i _).symm, ?_, ?_⟩
    · intro a ha
      obtain ⟨j, hj, rfl⟩ := List.mem_take_iff_getElem.1 ha
      have hj' : j < i ∧ j < p.metas.length := by omega
      have := hleft j hj'.1
      rwa [htest j hj'.2, lexCmp_eq_lt] at this
    · intro b hb
      obtain ⟨j, hj, rfl⟩ := List.mem_drop_iff_getElem.1 hb
      have := hright (j + i) (by omega) (by omega)
      rw [htest _ (by omega), ne_eq, lexCmp_eq_lt, not_lt] at this
      simpa [Nat.add_comm] using this
  rw [lowerBound, if_neg hlen]
  cases hr : binarySearch (slotTest p.metas (k.drop p.prefixLen)) p.metas.length 0
      p.metas.length with
  | ok i =>
    obtain ⟨-, hi, heq⟩ := hspec.ok i hr
    have hleft : ∀ j, j < i → slotTest p.metas (k.drop p.prefixLen) j = .lt := fun j hj =>
      strictTest_slotTest h hk j i (Nat.zero_le j) hj hi (by rw [heq]; decide)
    have hright : ∀ j, i ≤ j → j < p.metas.length →
        slotTest p.metas (k.drop p.prefixLen) j ≠ .lt := by
      intro j hij hj
      rcases Nat.eq_or_lt_of_le hij with rfl | hlt
      · rw [heq]; decide
      · rw [(strictTest_slotTest h hk).gt_of_not_lt (Nat.zero_le i) hlt hj (by rw [heq]; decide)]
        decide
    obtain ⟨hl, hs⟩ := hsplit i hi.le hleft hright
    exact ⟨_, _, by rw [hl], hs⟩
  | error i =>
    obtain ⟨-, hi, hleft, hright⟩ := hspec.error i hr
    obtain ⟨hl, hs⟩ := hsplit i hi (fun j hj => hleft j (Nat.zero_le j) hj)
      (fun j hij hj => by rw [hright j hij hj]; decide)
    exact ⟨_, _, by rw [hl], hs⟩

theorem linearLowerBound_spec {p : LeafNode} (h : p.WF) {k : Key} (hk : p.Covers k) :
    ∃ A B, p.linearLowerBound k = some A.length ∧ SplitAt p.getFullKey p.metas k A B := by
  have hlen : ¬ k.length < p.prefixLen := not_lt.2 (h.fullKey_drop hk).2
  rw [linearLowerBound, if_neg (fun hc => hlen hc.2)]
  simp only [keyCmp_drop h hk, lexCmp_eq_lt]
  exact ⟨_, _, rfl, h.sorted.splitAt_takeWhile fun _ => decide_eq_true_iff⟩

theorem searchPos_spec {p : LeafNode} (h : p.WF) {k : Key} (hk : p.Covers k) (b : Bool) :
    ∃ A B, p.searchPos k b = some A.length ∧ SplitAt p.getFullKey p.metas k A B := by
  cases b
  · exact linearLowerBound_spec h hk
  · exact lowerBound_spec h hk

theorem fullKey_eq_iff {p : LeafNode} (h : p.WF) {k : Key} (hk : p.Covers k) (m : LeafKVMeta) :
    m.remainingKey = k.drop p.prefixLen ↔ p.getFullKey m = k := by
  rw [← List.append_right_inj p.getPrefix, (h.fullKey_drop hk).1, getFullKey]

/-! ## Insert -/

/-- What a page holds for a key after an insert of that key: a delete keeps the
old value under a tombstone, and a base page takes no tombstone for a key it does
not hold. -/
def insertEntry (isBase : Bool) (op : OpType) (v : Value) :
    Option (OpType × Value) → Option (OpType × Value)
  | some (_, w) => if op = .delete then some (.delete, w) else some (op, v)
  | none => if op = .delete ∧ isBase then none else some (op, v)

/-- `p'` differs from `p` in its records and its free space only. -/
def SameHeader (p p' : LeafNode) : Prop :=
  p' = { p with metas := p'.metas, remainingSize := p'.remainingSize }

theorem SameHeader.refl (p : LeafNode) : SameHeader p p := rfl

theorem SameHeader.trans {p q r : LeafNode} (h : SameHeader p q) (h' : SameHeader q r) :
    SameHeader p r := by
  unfold SameHeader at *
  rw [h', h]

namespace SameHeader

variable {p p' : LeafNode} (h : SameHeader p p')
include h

theorem nodeSize : p'.nodeSize = p.nodeSize := by rw [h]
theorem hasFence : p'.hasFence = p.hasFence := by rw [h]
theorem isCacheOnlyLeaf : p'.isCacheOnlyLeaf = p.isCacheOnlyLeaf := by rw [h]
theorem prefixLen : p'.prefixLen = p.prefixLen := by rw [h]
theorem nextLevel : p'.nextLevel = p.nextLevel := by rw [h]
theorem snapshotVersion : p'.snapshotVersion = p.snapshotVersion := by rw [h]
theorem versionChanged : p'.versionChanged = p.versionChanged := by rw [h]
theorem lowFence : p'.lowFence = p.lowFence := by rw [h]
theorem highFence : p'.highFence = p.highFence := by rw [h]
theorem isBasePage : p'.isBasePage = p.isBasePage := by rw [h]; rfl
theorem getFullKey : p'.getFullKey = p.getFullKey := by rw [h]; rfl
theorem covers {k : Key} : p'.Covers k ↔ p.Covers k := by rw [Covers, Covers, h.lowFence, h.highFence]

end SameHeader

/-- The two ways an insert can go: over the record with the same key, or between
the smaller and the greater records. -/
theorem insert_cases {p : LeafNode} (h : p.WF) {k : Key} (hk : p.Covers k) (v : Value) (op : OpType)
    (mf : Nat) :
    (∃ A m B, SplitAt p.getFullKey p.metas k A (m :: B) ∧ p.getFullKey m = k ∧
      p.insert k v op mf =
        p.insertExisting A.length m ((k.drop p.prefixLen).length + v.length) v op) ∨
    (∃ A B, SplitAt p.getFullKey p.metas k A B ∧ findKey p.getFullKey p.metas k = none ∧
      p.insert k v op mf =
        some (p.insertNew A.length ((k.drop p.prefixLen).length + v.length) k v op mf)) := by
  obtain ⟨A, B, hlb, hs⟩ := lowerBound_spec h hk
  have hfind := hs.findKey_head h.sorted
  have hget : p.metas[A.length]? = B.head? := by rw [hs.eq, getElem?_length_append]
  cases B with
  | nil =>
    refine .inr ⟨A, [], hs, hfind, ?_⟩
    rw [List.head?_nil] at hget
    simp [insert, hlb, hget]
  | cons m B =>
    rw [List.head?_cons] at hget
    by_cases hm : p.getFullKey m = k
    · refine .inl ⟨A, m, B, hs, hm, ?_⟩
      simp [insert, hlb, hget, (fullKey_eq_iff h hk m).2 hm]
    · refine .inr ⟨A, m :: B, hs, by simp [hfind, hm], ?_⟩
      simp [insert, hlb, hget, mt (fullKey_eq_iff h hk m).1 hm]

/-- Changing the record of `k` only. -/
theorem wf_and_entry_of_update {p p' : LeafNode} (h : p.WF) {k : Key} (hk : p.Covers k)
    (hh : SameHeader p p') {m : LeafKVMeta} (hm : p.getFullKey m = k)
    (hsorted : KeySorted p.getFullKey p'.metas) (hmem : ∀ x ∈ p'.metas, x = m ∨ x ∈ p.metas)
    (hfind : ∀ x, findKey p.getFullKey p'.metas x =
      if x = k then some m else findKey p.getFullKey p.metas x) :
    p'.WF ∧ ∀ x, p'.entry x = if x = k then some (m.opType, m.value) else p.entry x := by
  constructor
  · refine ⟨?_, ?_, ?_, ?_⟩
    · rw [hh.prefixLen, hh.lowFence, hh.highFence, h.prefixLen_eq]
    · rw [hh.hasFence, hh.lowFence, hh.highFence]
      exact h.no_fence
    · rw [hh.getFullKey]
      exact hsorted
    · rw [hh.getFullKey, hh.lowFence, hh.highFence]
      intro x hx
      obtain rfl | hx' := hmem x hx
      · rw [hm]; exact hk
      · exact h.inRange x hx'
  · intro x
    rw [entry, hh.getFullKey, hfind x]
    by_cases hx : x = k
    · simp [hx]
    · simp [hx, entry]

/-- A page that refuses a record stays as it is. -/
theorem insert_refused {p p' : LeafNode} {k : Key} {v : Value} {op : OpType} {mf : Nat}
    (h : p.insert k v op mf = some (false, p')) : p' = p := by
  have hexisting : ∀ pos m kvLen, p.insertExisting pos m kvLen v op = some (false, p') → p' = p := by
    intro pos m kvLen h
    rw [insertExisting] at h
    split_ifs at h <;> cases h
    rfl
  have hnew : ∀ pos kvLen, some (p.insertNew pos kvLen k v op mf) = some (false, p') → p' = p := by
    intro pos kvLen h
    rw [insertNew] at h
    split_ifs at h <;> cases h
    rfl
  simp only [insert, Option.bind_eq_bind, Option.bind_eq_some_iff] at h
  obtain ⟨pos, -, h⟩ := h
  split at h
  · split at h
    · exact hexisting _ _ _ h
    · exact hnew _ _ h
  · exact hnew _ _ h

/-- The version of a page does not matter for an insert. -/
theorem insert_setSnapshotVersion (p : LeafNode) (ver : Nat) (changed : Bool) (k : Key) (v : Value)
    (op : OpType) (mf : Nat) :
    ((p.setSnapshotVersion ver changed).insert k v op mf).map (·.1) =
      (p.insert k v op mf).map (·.1) := by
  have hexisting : ∀ pos m kvLen,
      ((p.setSnapshotVersion ver changed).insertExisting pos m kvLen v op).map (·.1) =
        (p.insertExisting pos m kvLen v op).map (·.1) := by
    intro pos m kvLen
    have hsize : (p.setSnapshotVersion ver changed).remainingSize = p.remainingSize := rfl
    rw [insertExisting, insertExisting, hsize]
    split_ifs <;> rfl
  have hnew : ∀ pos kvLen, ((p.setSnapshotVersion ver changed).insertNew pos kvLen k v op mf).1 =
      (p.insertNew pos kvLen k v op mf).1 := by
    intro pos kvLen
    simp only [insertNew, apply_ite Prod.fst]
    rfl
  have hlb : (p.setSnapshotVersion ver changed).lowerBound k = p.lowerBound k := rfl
  have hmetas : (p.setSnapshotVersion ver changed).metas = p.metas := rfl
  have hprefix : (p.setSnapshotVersion ver changed).prefixLen = p.prefixLen := rfl
  simp only [insert, Option.bind_eq_bind, hlb, hmetas, hprefix]
  cases p.lowerBound k with
  | none => rfl
  | some pos =>
    rw [Option.bind_some, Option.bind_some]
    cases p.metas[pos]? with
    | none => exact congrArg some (hnew _ _)
    | some m =>
      dsimp only
      split
      · exact hexisting _ _ _
      · exact congrArg some (hnew _ _)

/-- **Insert.** A failed insert leaves the page alone; a successful one changes
the record of its key and nothing else. -/
theorem insert_spec {p p' : LeafNode} {b : Bool} (h : p.WF) {k : Key} (hk : p.Covers k) {v : Value}
    {op : OpType} {mf : Nat} (hr : p.insert k v op mf = some (b, p')) :
    p'.WF ∧ SameHeader p p' ∧ (b = false → p' = p) ∧
      (b = true → ∀ x, p'.entry x =
        if x = k then insertEntry p.isBasePage op v (p.entry k) else p.entry x) := by
  obtain ⟨A, m, B, hs, hm, hi⟩ | ⟨A, B, hs, hnone, hi⟩ := insert_cases h hk v op mf
  · -- over an existing record
    have hentry : p.entry k = some (m.opType, m.value) := by
      rw [entry, hs.findKey_head h.sorted]
      simp [hm]
    have hset : ∀ n : LeafKVMeta, p.getFullKey n = k → ∀ r : Nat,
        ({ p.setMeta A.length n with remainingSize := r } : LeafNode).WF ∧
        SameHeader p { p.setMeta A.length n with remainingSize := r } ∧
        ∀ x, ({ p.setMeta A.length n with remainingSize := r } : LeafNode).entry x =
          if x = k then some (n.opType, n.value) else p.entry x := by
      intro n hn r
      have hmetas : (p.setMeta A.length n).metas = A ++ n :: B := by
        rw [setMeta, hs.eq, set_length_append]
      have hh : SameHeader p { p.setMeta A.length n with remainingSize := r } := rfl
      have hupd := wf_and_entry_of_update h hk hh hn
        (by rw [hmetas]; exact hs.sorted_replace h.sorted hm hn)
        (by
          intro x hx
          rw [hmetas, List.mem_append, List.mem_cons] at hx
          rw [hs.eq, List.mem_append, List.mem_cons]
          tauto)
        (by intro x; rw [hmetas]; exact hs.findKey_replace hm hn x)
      exact ⟨hupd.1, hh, hupd.2⟩
    rw [hi, insertExisting] at hr
    by_cases hdel : op = .delete
    · obtain ⟨rfl, rfl⟩ : true = b ∧ _ = p' := by simpa [hdel] using hr
      obtain ⟨hwf, hh, he⟩ := hset { m with opType := .delete } hm p.remainingSize
      exact ⟨hwf, hh, by simp, fun _ x => by rw [hentry, insertEntry, if_pos hdel]; exact he x⟩
    · rw [if_neg hdel] at hr
      by_cases hlen : v.length ≤ m.value.length
      · obtain ⟨rfl, rfl⟩ : true = b ∧ _ = p' := by simpa [hlen] using hr
        obtain ⟨hwf, hh, he⟩ := hset { m with value := v, opType := op } hm p.remainingSize
        exact ⟨hwf, hh, by simp, fun _ x => by rw [hentry, insertEntry, if_neg hdel]; exact he x⟩
      · rw [if_neg hlen] at hr
        by_cases hroom : p.remainingSize < (k.drop p.prefixLen).length + v.length
        · obtain ⟨rfl, rfl⟩ : false = b ∧ p = p' := by simpa only [if_pos hroom, Option.some.injEq, Prod.mk.injEq] using hr
          exact ⟨h, .refl p, fun _ => rfl, by simp⟩
        · rw [if_neg hroom] at hr
          by_cases hc : op = .cache
          · simp [hc] at hr
          · rw [if_neg hc, Option.some.injEq, Prod.mk.injEq] at hr
            obtain ⟨rfl, rfl⟩ := hr
            obtain ⟨hwf, hh, he⟩ := hset { m with value := v, opType := op } hm
              (p.remainingSize - ((k.drop p.prefixLen).length + v.length))
            exact ⟨hwf, hh, by simp,
              fun _ x => by rw [hentry, insertEntry, if_neg hdel]; exact he x⟩
  · -- a new record
    have hentry : p.entry k = none := by rw [entry, hnone]; rfl
    rw [hi, insertNew, Option.some.injEq] at hr
    by_cases hbase : op = .delete ∧ p.isBasePage
    · rw [if_pos hbase, Prod.mk.injEq] at hr
      obtain ⟨rfl, rfl⟩ := hr
      refine ⟨h, .refl p, by simp, fun _ x => ?_⟩
      rw [hentry, insertEntry, if_pos hbase]
      split
      · next hx => rw [hx, hentry]
      · rfl
    · rw [if_neg hbase] at hr
      split at hr
      · rw [Prod.mk.injEq] at hr
        obtain ⟨rfl, rfl⟩ := hr
        exact ⟨h, .refl p, fun _ => rfl, by simp⟩
      · rw [Prod.mk.injEq] at hr
        obtain ⟨rfl, rfl⟩ := hr
        have hn : p.getFullKey (LeafKVMeta.makePrefixedMeta v k p.prefixLen op) = k :=
          (h.fullKey_drop hk).1
        have hmetas : p.metas.insertIdx A.length (LeafKVMeta.makePrefixedMeta v k p.prefixLen op) =
            A ++ LeafKVMeta.makePrefixedMeta v k p.prefixLen op :: B := by
          conv_lhs => rw [hs.eq, insertIdx_length_append]
        have hh : SameHeader p { p with
            metas := p.metas.insertIdx A.length (LeafKVMeta.makePrefixedMeta v k p.prefixLen op)
            remainingSize := p.remainingSize -
              ((k.drop p.prefixLen).length + v.length + kvMetaSize) } := rfl
        have hupd := wf_and_entry_of_update h hk hh hn
          (by rw [hmetas]; exact hs.sorted_insert h.sorted hnone hn)
          (by
            intro x hx
            rw [hmetas, List.mem_append, List.mem_cons] at hx
            rw [hs.eq, List.mem_append]
            tauto)
          (by intro x; rw [hmetas]; exact hs.findKey_insert hn x)
        refine ⟨hupd.1, rfl, by simp, fun _ x => ?_⟩
        rw [hupd.2 x, hentry, insertEntry, if_neg hbase]
        rfl

/-- A page that has taken a record takes it again. -/
theorem insert_again {p p' p'' : LeafNode} {b : Bool} (h : p.WF) {k : Key} (hk : p.Covers k)
    {v : Value} {op : OpType} {mf : Nat} (hr : p.insert k v op mf = some (true, p'))
    (hr' : p'.insert k v op mf = some (b, p'')) : b = true := by
  obtain ⟨hw, hh, -, he⟩ := insert_spec h hk hr
  have hentry := he rfl k
  rw [if_pos rfl] at hentry
  obtain ⟨A, m, B, hs, hm, hi⟩ | ⟨A, B, -, hnone, hi⟩ := insert_cases hw (hh.covers.2 hk) v op mf
  · rw [entry, hs.findKey_head hw.sorted] at hentry
    simp only [List.head?_cons, Option.filter_some, hm, decide_true, if_true, Option.map_some] at hentry
    rw [hi, insertExisting] at hr'
    by_cases hdel : op = .delete
    · rw [if_pos hdel] at hr'
      exact (Prod.mk.inj (Option.some.inj hr')).1.symm
    · have hv : m.value = v := by
        cases hp : p.entry k with
        | none =>
          rw [hp, insertEntry, if_neg (fun hc => hdel hc.1)] at hentry
          exact (Prod.mk.inj (Option.some.inj hentry)).2
        | some e =>
          rw [hp, insertEntry, if_neg hdel] at hentry
          exact (Prod.mk.inj (Option.some.inj hentry)).2
      rw [if_neg hdel, hv, if_pos le_rfl] at hr'
      exact (Prod.mk.inj (Option.some.inj hr')).1.symm
  · rw [entry, hnone] at hentry
    rw [hi, insertNew] at hr'
    have hbase : op = .delete ∧ p.isBasePage = true := by
      cases hp : p.entry k with
      | none =>
        rw [hp, insertEntry] at hentry
        by_contra hno
        rw [if_neg hno] at hentry
        cases hentry
      | some e =>
        rw [hp, insertEntry] at hentry
        split at hentry <;> cases hentry
    rw [hh.isBasePage, if_pos hbase] at hr'
    exact (Prod.mk.inj (Option.some.inj hr')).1.symm

/-- **Rebuild.** Inserting records with distinct keys one after the other changes
exactly their entries. -/
theorem insertAll_spec {mf : Nat} {pairs : List (Key × Value × OpType)} :
    ∀ {p p' : LeafNode}, p.WF → (∀ e ∈ pairs, p.Covers e.1) → KeySorted Prod.fst pairs →
      p.insertAll mf pairs = some p' →
      p'.WF ∧ SameHeader p p' ∧ ∀ x, p'.entry x =
        match findKey Prod.fst pairs x with
        | some (_, v, op) => insertEntry p.isBasePage op v (p.entry x)
        | none => p.entry x := by
  induction pairs with
  | nil =>
    intro p p' h _ _ hr
    obtain rfl : p = p' := by simpa [insertAll] using hr
    exact ⟨h, .refl p, fun x => by simp⟩
  | cons e pairs ih =>
    obtain ⟨k, v, op⟩ := e
    intro p p' h hcov hs hr
    obtain ⟨hk, hs'⟩ := keySorted_cons.1 hs
    rw [insertAll] at hr
    cases hi : p.insert k v op mf with
    | none => simp [hi] at hr
    | some r =>
      obtain ⟨b, q⟩ := r
      cases b with
      | false => simp [hi] at hr
      | true =>
        simp only [hi] at hr
        obtain ⟨hq, hh, -, he⟩ := insert_spec h (hcov (k, v, op) (by simp)) hi
        have hcov' : ∀ e ∈ pairs, q.Covers e.1 := fun e he' =>
          hh.covers.2 (hcov e (by simp [he']))
        obtain ⟨hp', hh', he'⟩ := ih hq hcov' hs' hr
        refine ⟨hp', hh.trans hh', fun x => ?_⟩
        rw [he' x, findKey_cons, he rfl x, hh.isBasePage]
        by_cases hx : k = x
        · have hn : findKey Prod.fst pairs x = none :=
            findKey_eq_none.2 fun e he'' => hx ▸ ne_of_gt (hk e he'')
          simp [hx, hn]
        · simp [hx, Ne.symm hx]

/-! ## Read -/

/-- What a reader makes of an entry: the value if it is a live record. -/
def live : Option (OpType × Value) → Option Value
  | some (op, v) => if op.isAbsent then none else some v
  | none => none

/-- Whatever was there, a reader sees what an insert wrote. -/
theorem live_insertEntry (isBase : Bool) (op : OpType) (v : Value) (e : Option (OpType × Value)) :
    live (insertEntry isBase op v e) = if op.isAbsent then none else some v := by
  cases e with
  | none => cases op <;> cases isBase <;> rfl
  | some e => cases op <;> rfl

/-- Marking a slot as referenced. -/
theorem entry_setMeta_referenced {p : LeafNode} (h : p.WF) {A B : List LeafKVMeta} {m : LeafKVMeta}
    (hm : p.metas = A ++ m :: B) :
    (p.setMeta A.length { m with referenced := true }).WF ∧
      SameHeader p (p.setMeta A.length { m with referenced := true }) ∧
      ∀ x, (p.setMeta A.length { m with referenced := true }).entry x = p.entry x := by
  have hmem : m ∈ p.metas := by simp [hm]
  have hsplit : SplitAt p.getFullKey p.metas (p.getFullKey m) A (m :: B) := by
    have hs := h.sorted
    rw [hm] at hs
    obtain ⟨-, hs2, hs3⟩ := keySorted_append.1 hs
    refine ⟨hm, fun a ha => hs3 a ha m (by simp), fun b hb => ?_⟩
    obtain rfl | hb := List.mem_cons.1 hb
    · exact le_refl _
    · exact ((keySorted_cons.1 hs2).1 b hb).le
  have hmetas : (p.setMeta A.length { m with referenced := true }).metas =
      A ++ { m with referenced := true } :: B := by
    rw [setMeta, hm, set_length_append]
  have hh : SameHeader p (p.setMeta A.length { m with referenced := true }) := rfl
  have hkey : p.getFullKey { m with referenced := true } = p.getFullKey m := rfl
  have hupd := wf_and_entry_of_update h (h.inRange m hmem) hh hkey
    (by rw [hmetas]; exact hsplit.sorted_replace h.sorted rfl hkey)
    (by
      intro x hx
      rw [hmetas, List.mem_append, List.mem_cons] at hx
      rw [hm, List.mem_append, List.mem_cons]
      tauto)
    (by intro x; rw [hmetas]; exact hsplit.findKey_replace rfl hkey x)
  refine ⟨hupd.1, hh, fun x => ?_⟩
  rw [hupd.2 x]
  split
  · next hx => rw [hx, entry, h.sorted.findKey_mem hmem]; rfl
  · rfl

/-- **Read.** A read returns what the page holds for the key and changes no
record. -/
theorem readByKeyInner_spec {p p' : LeafNode} (h : p.WF) {k : Key} (hk : p.Covers k)
    {buf buf' : List UInt8} {r : LeafReadResult} {b : Bool}
    (hr : p.readByKeyInner k buf b = some (r, buf', p')) :
    p'.WF ∧ SameHeader p p' ∧ (∀ x, p'.entry x = p.entry x) ∧
      (match r with
        | .found n => live (p.entry k) = some (buf'.take n)
        | .deleted => live (p.entry k) = none ∧ p.entry k ≠ none
        | .notFound => p.entry k = none) := by
  obtain ⟨A, B, hlb, hs⟩ := searchPos_spec h hk b
  have hget : p.metas[A.length]? = B.head? := by rw [hs.eq, getElem?_length_append]
  have hentry : p.entry k = (B.head?.filter fun b => p.getFullKey b = k).map
      fun m => (m.opType, m.value) := by rw [entry, hs.findKey_head h.sorted]
  simp only [readByKeyInner, hlb, Option.bind_eq_bind, Option.bind_some, hget] at hr
  cases B with
  | nil =>
    simp only [List.head?_nil, Option.some.injEq, Prod.mk.injEq] at hr
    obtain ⟨rfl, -, rfl⟩ := hr
    exact ⟨h, .refl p, fun _ => rfl, by simp [hentry]⟩
  | cons m B =>
    obtain ⟨hwf, hh, he⟩ := entry_setMeta_referenced h hs.eq
    simp only [List.head?_cons, fullKey_eq_iff h hk m] at hr
    rw [List.head?_cons, Option.filter_some] at hentry
    by_cases hm : p.getFullKey m = k
    · simp only [hm, decide_true, if_true, Option.map_some] at hentry
      rw [if_pos hm] at hr
      by_cases ha : m.opType.isAbsent
      · simp only [ha, if_true, Option.some.injEq, Prod.mk.injEq] at hr
        obtain ⟨rfl, -, rfl⟩ := hr
        exact ⟨hwf, hh, he, by simp [hentry, live, ha]⟩
      · simp only [ha, Bool.false_eq_true, if_false, copyFromSlice] at hr
        by_cases hl : m.value.length ≤ buf.length
        · simp only [hl, if_true, Option.bind_some, Option.some.injEq, Prod.mk.injEq] at hr
          obtain ⟨rfl, rfl, rfl⟩ := hr
          exact ⟨hwf, hh, he, by simp [hentry, live, ha]⟩
        · simp [hl] at hr
    · rw [if_neg hm, Option.some.injEq, Prod.mk.injEq, Prod.mk.injEq] at hr
      obtain ⟨rfl, -, rfl⟩ := hr
      exact ⟨hwf, hh, he, by simp [hentry, hm]⟩

end LeafNode

end BfTree
