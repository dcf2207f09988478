import BfTree.Nodes.PageBytes

/-!
# BfTree.Nodes.PackedWords — the packed words of a leaf page

Every packed word is a sum of its fields, so that what the masks and shifts of the source
read and write is arithmetic. The slots of a page are a list that the writes of an insert
change at one place.
-/

namespace BfTree

open Lib

/-! ## Fields of a word -/

/-- Two fields of a word, the lower one `i` bits wide. -/
theorem or_shiftLeft {b i : Nat} (h : b < 2 ^ i) (a : Nat) : b ||| a <<< i = a * 2 ^ i + b := by
  rw [Nat.or_comm, ← Nat.shiftLeft_add_eq_or_of_lt h, Nat.shiftLeft_eq]

/-- One bit of a word. -/
theorem and_bit (x i : Nat) : x &&& 2 ^ i = x / 2 ^ i % 2 * 2 ^ i := by
  rw [Nat.and_two_pow, Nat.testBit_eq_decide_div_mod_eq]
  rcases Nat.mod_two_eq_zero_or_one (x / 2 ^ i) with h | h <;> simp [h]

/-- A flag is a bit that is tested with a mask. -/
theorem flag_eq {mask : UInt16} {i : Nat} (hmask : mask.toNat = 2 ^ i) (w : UInt16) :
    decide (w &&& mask ≠ 0) = decide (w.toNat / 2 ^ i % 2 = 1) := by
  rw [decide_eq_decide, ne_eq, ← UInt16.toNat_inj, UInt16.toNat_and, hmask, and_bit, UInt16.toNat_zero,
    Nat.mul_eq_zero]
  have := Nat.two_pow_pos i
  omega

theorem toNat_ofNat_of_lt {n : Nat} (h : n < 65536) : (UInt16.ofNat n).toNat = n := by
  simpa using h

namespace OpType

def index : OpType → Nat
  | insert => 0
  | delete => 1
  | cache => 2
  | phantom => 3

theorem toNat_toWord_shiftLeft (op : OpType) : (op.toWord <<< opTypeShift).toNat = op.index <<< 14 := by
  cases op <;> rfl

theorem ofWord_shiftRight {w : UInt16} {op : OpType} (h : w.toNat / 16384 = op.index) :
    ofWord (w >>> opTypeShift) = op := by
  have hw : (w >>> opTypeShift).toNat = op.index := by
    rw [UInt16.toNat_shiftRight, ← h, Nat.shiftRight_eq_div_pow]
    rfl
  rw [ofWord, hw]
  cases op <;> rfl

end OpType

namespace PackedMeta

variable {m : PackedMeta} {n : UInt16}

@[simp] theorem toNat_getKeyLen (m : PackedMeta) : m.getKeyLen.toNat = m.opTypeKeyLen.toNat % 16384 := by
  rw [getKeyLen, UInt16.toNat_and]
  exact Nat.and_two_pow_sub_one_eq_mod _ 14

@[simp] theorem toNat_valueLen (m : PackedMeta) : m.valueLen.toNat = m.refValueLen.toNat % 32768 := by
  rw [valueLen, UInt16.toNat_and]
  exact Nat.and_two_pow_sub_one_eq_mod _ 15

theorem isReferenced_eq (m : PackedMeta) : m.isReferenced = decide (32768 ≤ m.refValueLen.toNat) := by
  have hlt := m.refValueLen.toNat_lt
  rw [isReferenced, flag_eq (i := 15) rfl, decide_eq_decide]
  omega

theorem toNat_opTypeKeyLen_setOpType (m : PackedMeta) (op : OpType) :
    (m.setOpType op).opTypeKeyLen.toNat = op.index * 16384 + m.getKeyLen.toNat := by
  have hlt : m.getKeyLen.toNat < 2 ^ 14 := by rw [toNat_getKeyLen]; omega
  rw [setOpType, UInt16.toNat_or, OpType.toNat_toWord_shiftLeft]
  exact or_shiftLeft hlt _

@[simp] theorem getKeyLen_setOpType (m : PackedMeta) (op : OpType) :
    (m.setOpType op).getKeyLen = m.getKeyLen := by
  apply UInt16.toNat.inj
  rw [toNat_getKeyLen, toNat_opTypeKeyLen_setOpType, toNat_getKeyLen]
  omega

@[simp] theorem opType_setOpType (m : PackedMeta) (op : OpType) : (m.setOpType op).opType = op := by
  refine OpType.ofWord_shiftRight ?_
  have : m.getKeyLen.toNat < 16384 := by rw [toNat_getKeyLen]; omega
  rw [toNat_opTypeKeyLen_setOpType]
  omega

theorem toNat_refValueLen_setValueLen (m : PackedMeta) (n : UInt16) :
    (m.setValueLen n).refValueLen.toNat =
      m.refValueLen.toNat / 32768 * 32768 + n.toNat % 32768 := by
  have hhigh : (m.refValueLen &&& ~~~valueLenMask).toNat = (m.refValueLen.toNat / 32768) <<< 15 := by
    rw [UInt16.toNat_and, Nat.shiftLeft_eq]
    have := m.refValueLen.toNat_lt
    exact (and_bit m.refValueLen.toNat 15).trans (by omega)
  have hlow : (n &&& valueLenMask).toNat = n.toNat % 32768 := by
    rw [UInt16.toNat_and]
    exact Nat.and_two_pow_sub_one_eq_mod _ 15
  rw [setValueLen, UInt16.toNat_or, hhigh, hlow, Nat.or_comm]
  exact or_shiftLeft (i := 15) (Nat.mod_lt _ (by decide)) _

theorem toNat_refValueLen_markAsRef (m : PackedMeta) :
    m.markAsRef.refValueLen.toNat = 32768 + m.refValueLen.toNat % 32768 := by
  have hlt := m.refValueLen.toNat_lt
  have hpack : ∀ a : Nat, m.refValueLen.toNat % 32768 ||| a <<< 15 =
      a * 32768 + m.refValueLen.toNat % 32768 :=
    or_shiftLeft (i := 15) (Nat.mod_lt _ (by decide))
  have hsplit : m.refValueLen.toNat =
      m.refValueLen.toNat % 32768 ||| (m.refValueLen.toNat / 32768) <<< 15 := by
    rw [hpack]
    omega
  have hbit : m.refValueLen.toNat / 32768 = 0 ∨ m.refValueLen.toNat / 32768 = 1 := by omega
  have hone : (m.refValueLen.toNat / 32768) <<< 15 ||| refBitMask.toNat = 1 <<< 15 := by
    rcases hbit with h | h <;> rw [h] <;> rfl
  calc m.markAsRef.refValueLen.toNat
      = m.refValueLen.toNat ||| refBitMask.toNat := UInt16.toNat_or ..
    _ = m.refValueLen.toNat % 32768 |||
        ((m.refValueLen.toNat / 32768) <<< 15 ||| refBitMask.toNat) := by
          rw [← Nat.or_assoc, ← hsplit]
    _ = 32768 + m.refValueLen.toNat % 32768 := by rw [hone, hpack, Nat.one_mul]

section Make

variable {offset valueLen prefixLen : UInt16} {key : Key} {op : OpType}

theorem toNat_opTypeKeyLen_make (h : key.length < 16384) :
    (makePrefixedMeta offset valueLen key prefixLen op).opTypeKeyLen.toNat =
      op.index * 16384 + key.length := by
  rw [makePrefixedMeta, UInt16.toNat_or, OpType.toNat_toWord_shiftLeft,
    toNat_ofNat_of_lt (by omega)]
  exact or_shiftLeft (i := 14) h _

theorem getKeyLen_make (h : key.length < 16384) :
    (makePrefixedMeta offset valueLen key prefixLen op).getKeyLen.toNat = key.length := by
  rw [toNat_getKeyLen, toNat_opTypeKeyLen_make h]
  omega

theorem opType_make (h : key.length < 16384) :
    (makePrefixedMeta offset valueLen key prefixLen op).opType = op := by
  refine OpType.ofWord_shiftRight ?_
  rw [toNat_opTypeKeyLen_make h]
  omega

theorem toNat_refValueLen_make :
    (makePrefixedMeta offset valueLen key prefixLen op).refValueLen.toNat =
      valueLen.toNat % 32768 := by
  rw [makePrefixedMeta, UInt16.toNat_and]
  exact Nat.and_two_pow_sub_one_eq_mod _ 15

/-- The preview shows the first bytes behind the common part. -/
theorem previewBytes_make :
    (makePrefixedMeta offset valueLen key prefixLen op).previewBytes =
      previewOf (key.drop prefixLen.toNat) := by
  simp only [previewBytes, makePrefixedMeta, previewOf, previewSize]
  rw [← List.getElem?_drop (i := prefixLen.toNat) (j := 1)]
  have hzero : key[prefixLen.toNat]? = (key.drop prefixLen.toNat)[0]? := by simp
  rw [hzero]
  rcases key.drop prefixLen.toNat with _ | ⟨a, _ | ⟨b, rest⟩⟩
  · rfl
  · rfl
  · simp

end Make

/-! ## Slots as bytes -/

@[simp] theorem length_encode (m : PackedMeta) : m.encode.length = kvMetaSize := rfl

@[simp] theorem decode_encode (m : PackedMeta) : decode m.encode = m := by
  have hword : ∀ w : UInt16, UInt16.ofNat (ofLE (toLE 2 w.toNat)) = w := by
    intro w
    rw [ofLE_toLE_of_lt w.toNat_lt, UInt16.ofNat_toNat]
  obtain ⟨o, k, v, p, q⟩ := m
  simp only [toLE] at hword
  simp only [encode, decode, toLE, previewBytes, List.cons_append, List.nil_append, List.take_succ_cons,
    List.take_zero, List.drop_succ_cons, List.drop_zero, hword]
  rfl

end PackedMeta

/-! ## The header -/

/-- The flag bits of a leaf's header word. -/
def headerFlags (hasFence cacheOnly : Bool) : Nat :=
  (if hasFence then 32768 else 0) + if cacheOnly then 4096 else 0

namespace NodeMeta

variable {n : NodeMeta} {f c : Bool} {count : Nat}

/-- The header word is its flags and a count that fits in twelve bits. -/
def Counts (n : NodeMeta) (hasFence cacheOnly : Bool) (count : Nat) : Prop :=
  n.encoded.toNat = headerFlags hasFence cacheOnly + count ∧ count < 4096

theorem counts_new (size node : UInt16) (f c : Bool) : (new size f node c).Counts f c 0 := by
  cases f <;> cases c <;> exact ⟨rfl, by decide⟩

theorem Counts.metaCountWithFence (h : n.Counts f c count) : n.metaCountWithFence.toNat = count := by
  have hmask : n.metaCountWithFence.toNat = n.encoded.toNat % 4096 := by
    rw [NodeMeta.metaCountWithFence, UInt16.toNat_and]
    exact Nat.and_two_pow_sub_one_eq_mod _ 12
  obtain ⟨heq, hlt⟩ := h
  cases f <;> cases c <;> simp [headerFlags] at heq <;> omega

theorem Counts.hasFence (h : n.Counts f c count) : n.hasFence = f := by
  obtain ⟨heq, hlt⟩ := h
  rw [NodeMeta.hasFence, flag_eq (i := 15) rfl, heq]
  cases f <;> cases c <;> simp [headerFlags] <;> omega

theorem Counts.isCacheOnlyLeaf (h : n.Counts f c count) : n.isCacheOnlyLeaf = c := by
  obtain ⟨heq, hlt⟩ := h
  rw [NodeMeta.isCacheOnlyLeaf, flag_eq (i := 12) rfl, heq]
  cases f <;> cases c <;> simp [headerFlags] <;> omega

theorem Counts.increment (h : n.Counts f c count) (hlt : count + 1 < 4096) :
    n.incrementValueCount.Counts f c (count + 1) := by
  obtain ⟨heq, -⟩ := h
  refine ⟨?_, hlt⟩
  rw [incrementValueCount, UInt16.toNat_add, heq]
  cases f <;> cases c <;> simp [headerFlags] <;> omega

/-- The bits above the count. -/
theorem toNat_and_not_valueCountMask (w : UInt16) :
    (w &&& ~~~valueCountMask).toNat = w.toNat / 4096 * 4096 := by
  have hmask : (~~~valueCountMask).toNat = (2 ^ 4 - 1) * 2 ^ 12 := by decide
  rw [UInt16.toNat_and, hmask]
  refine Nat.eq_of_testBit_eq fun i => ?_
  rw [Nat.testBit_and, show (4096 : Nat) = 2 ^ 12 from rfl, Nat.testBit_mul_two_pow,
    Nat.testBit_mul_two_pow, Nat.testBit_div_two_pow, Nat.testBit_two_pow_sub_one]
  by_cases hi : 12 ≤ i
  · rw [Nat.sub_add_cancel hi]
    by_cases hword : i < 16
    · simp [hi, show i - 12 < 4 by omega]
    · have hsmall : w.toNat < 2 ^ i :=
        w.toNat_lt.trans_le (Nat.pow_le_pow_right (by decide) (by omega))
      simp [Nat.testBit_lt_two_pow hsmall]
  · simp [hi]

theorem toNat_setValueCount {k : Nat} (hk : k < 4096) :
    (n.setValueCount (UInt16.ofNat k)).encoded.toNat = n.encoded.toNat / 4096 * 4096 + k := by
  have hpack : ∀ a : Nat, k ||| a * 4096 = a * 4096 + k := by
    intro a
    have hshift := or_shiftLeft (i := 12) hk a
    rwa [Nat.shiftLeft_eq] at hshift
  rw [setValueCount, UInt16.toNat_or, toNat_and_not_valueCountMask, toNat_ofNat_of_lt (by omega),
    Nat.or_comm, hpack]

theorem Counts.setValueCount (h : n.Counts f c count) {k : Nat} (hk : k < 4096) :
    (n.setValueCount (UInt16.ofNat k)).Counts f c k := by
  obtain ⟨heq, hlt⟩ := h
  refine ⟨?_, hk⟩
  rw [toNat_setValueCount hk, heq]
  cases f <;> cases c <;> simp [headerFlags] <;> omega

end NodeMeta

end BfTree
