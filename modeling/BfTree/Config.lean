import BfTree.Nodes.LeafNode

/-!
# Configuration

`Config::validate`, and the size classes of the memory pages a validated
configuration gives. Sizes are `usize`: an operation that overflows is a panic,
written `none`.
-/

namespace BfTree

def maxLeafPageSize : Nat := 32768
def maxKeyLen : Nat := 2020
def maxValueLen : Nat := 16332
def diskPageSize : Nat := 4096
def cacheLineSize : Nat := 64

def usizeAdd (a b : Nat) : Option Nat :=
  if a + b < 2 ^ 64 then some (a + b) else none

def usizeSub (a b : Nat) : Option Nat :=
  if b ≤ a then some (a - b) else none

def usizeMul (a b : Nat) : Option Nat :=
  if a * b < 2 ^ 64 then some (a * b) else none

inductive ConfigError where
  | minimumRecordSize (message : String)
  | maximumRecordSize (message : String)
  | leafPageSize (message : String)
  | maxKeyLen (message : String)
  | circularBufferSize (message : String)
deriving DecidableEq, Repr

/-- The parameters that the tree's operations read. -/
structure Config where
  cbSizeByte : Nat
  cbMinRecordSize : Nat
  cbMaxRecordSize : Nat
  leafPageSize : Nat
  maxFenceLen : Nat
  readRecordCache : Bool
  miniPageBinarySearch : Bool
  writeLoadFullPage : Bool
  cacheOnly : Bool
deriving DecidableEq, Repr

namespace Config

protected def default : Config where
  cbSizeByte := 32 * 1024 * 1024
  cbMinRecordSize := 4
  cbMaxRecordSize := 1952
  leafPageSize := 4096
  maxFenceLen := 32
  readRecordCache := true
  miniPageBinarySearch := true
  writeLoadFullPage := true
  cacheOnly := false

def isPowerOfTwo (n : Nat) : Bool :=
  n != 0 && n &&& (n - 1) == 0

theorem exists_pow_of_isPowerOfTwo {n : Nat} (h : isPowerOfTwo n = true) : ∃ k, n = 2 ^ k := by
  simp only [isPowerOfTwo, Bool.and_eq_true, bne_iff_ne, ne_eq, beq_iff_eq] at h
  induction n using Nat.strong_induction_on with
  | _ n ih =>
    have hdiv : n / 2 &&& (n - 1) / 2 = 0 := by rw [← Nat.and_div_two, h.2]
    rcases Nat.mod_two_eq_zero_or_one n with heven | hodd
    · rw [show (n - 1) / 2 = n / 2 - 1 by omega] at hdiv
      obtain ⟨k, hk⟩ := ih (n / 2) (by omega) ⟨by omega, hdiv⟩
      exact ⟨k + 1, by rw [Nat.pow_succ, ← hk]; omega⟩
    · rw [show (n - 1) / 2 = n / 2 by omega, Nat.and_self] at hdiv
      exact ⟨0, by omega⟩

/-- The alignment of the leaf page size. -/
def validateAlignment (c : Config) : Except ConfigError Unit :=
  if !c.cacheOnly && c.leafPageSize % diskPageSize != 0 then
    .error (.leafPageSize ("In non cache-only mode leaf_page_size should be multiple of " ++
      toString diskPageSize))
  else if c.cacheOnly && c.leafPageSize % cacheLineSize != 0 then
    .error (.leafPageSize ("In cache-only mode leaf_page_size should be multiple of " ++
      toString cacheLineSize))
  else .ok ()

/-- The checks of each single parameter, in the order of the source. -/
def validateParameters (c : Config) : Except ConfigError Unit :=
  if c.cbMinRecordSize ≤ 1 then
    .error (.minimumRecordSize
      "cb_min_record_size (key + value in bytes) needs to be at least 2 bytes")
  else if c.cbMinRecordSize > c.cbMaxRecordSize then
    .error (.maximumRecordSize
      "cb_min_record_size (key + value in bytes) cannot be greater than cb_max_record_size")
  else if c.maxFenceLen = 0 then
    .error (.maxKeyLen "cb_max_key_len cannot be zero")
  else if c.maxFenceLen / 2 > c.cbMaxRecordSize then
    .error (.maxKeyLen "cb_max_key_len cannot be greater than cb_max_record_size")
  else if c.leafPageSize > maxLeafPageSize then
    .error (.leafPageSize ("leaf_page_size cannot be larger than " ++ toString maxLeafPageSize))
  else if c.maxFenceLen / 2 > BfTree.maxKeyLen then
    .error (.maxKeyLen ("cb_max_key_len cannot be larger than " ++ toString BfTree.maxKeyLen))
  else if !isPowerOfTwo c.cbSizeByte then
    .error (.circularBufferSize "cb_size_byte should be a power of two")
  else if c.leafPageSize / c.cbMinRecordSize > 4096 then
    .error (.minimumRecordSize "leaf_page_size/min_record_size cannot exceed 2^12.")
  else c.validateAlignment

/-- The largest mini page: what is left of a leaf page after one record of the
maximal size and the fences, rounded down to the cache line size. -/
def maxMiniPageSize (c : Config) : Option Nat := do
  let maxRecordSizeWithMeta ← usizeAdd c.cbMaxRecordSize kvMetaSize
  let size ← usizeSub c.leafPageSize maxRecordSizeWithMeta
  if c.cacheOnly then return size / cacheLineSize * cacheLineSize
  else
    let size ← usizeSub size c.maxFenceLen
    let size ← usizeSub size (2 * kvMetaSize)
    return size / cacheLineSize * cacheLineSize

/-- The bound on the record size that page merges and splits rely on. -/
def validateRecordSize (c : Config) : Option (Except ConfigError Unit) := do
  let maxRecordSizeWithMeta ← usizeAdd c.cbMaxRecordSize kvMetaSize
  if c.cacheOnly then
    let twoRecords ← usizeMul 2 maxRecordSizeWithMeta
    let needed ← usizeAdd twoRecords leafHeaderSize
    if c.leafPageSize < needed then
      let room ← usizeSub c.leafPageSize leafHeaderSize
      let bound ← usizeSub (room / 2) kvMetaSize
      return .error (.maximumRecordSize
        ("In cache-only mode, given the leaf_page_size the corresponding " ++
          "cb_max_record_size should be <= " ++ toString bound))
    else return .ok ()
  else
    let size ← usizeSub c.leafPageSize c.maxFenceLen
    let bound ← usizeSub size (2 * kvMetaSize)
    if maxRecordSizeWithMeta > bound then
      return .error (.maximumRecordSize
        ("In non cache-only mode, given the leaf_page_size the corresponding " ++
          "cb_max_record_size should be <= " ++ toString bound))
    else
      let maxMini ← c.maxMiniPageSize
      let needed ← usizeAdd maxRecordSizeWithMeta leafHeaderSize
      if maxMini < needed then
        let room ← usizeSub maxMini leafHeaderSize
        let bound ← usizeSub room kvMetaSize
        return .error (.maximumRecordSize
          ("In non cache-only mode, given the leaf_page_size the corresponding " ++
            "cb_max_record_size should be <= " ++ toString bound))
      else return .ok ()

def validateBufferSize (c : Config) : Except ConfigError Unit :=
  if c.cacheOnly then
    if c.cbSizeByte < 4 * c.leafPageSize then
      .error (.circularBufferSize
        "In cache-only mode, cb_size_byte should be at least 4 times of leaf_page_size")
    else .ok ()
  else if c.cbSizeByte < 2 * c.leafPageSize then
    .error (.circularBufferSize
      "In non cache-only mode, cb_size_byte should be at least 2 times of leaf_page_size")
  else .ok ()

/-- `Config::validate`. -/
def validate (c : Config) : Option (Except ConfigError Unit) :=
  match c.validateParameters with
  | .error e => some (.error e)
  | .ok () =>
    match c.validateRecordSize with
    | none => none
    | some (.error e) => some (.error e)
    | some (.ok ()) => some c.validateBufferSize

/-- What an accepted configuration guarantees. -/
structure Bounds (c : Config) : Prop where
  minRecord : 2 ≤ c.cbMinRecordSize
  minRecord_le : c.cbMinRecordSize ≤ c.cbMaxRecordSize
  fence_pos : 0 < c.maxFenceLen
  fence_le : c.maxFenceLen / 2 ≤ c.cbMaxRecordSize
  leaf_le : c.leafPageSize ≤ maxLeafPageSize
  cacheOnly : c.cacheOnly = true →
    2 * (c.cbMaxRecordSize + kvMetaSize) + leafHeaderSize ≤ c.leafPageSize
  disk : c.cacheOnly = false → ∃ maxMini, c.maxMiniPageSize = some maxMini ∧
    c.cbMaxRecordSize + kvMetaSize + leafHeaderSize ≤ maxMini

theorem usizeAdd_eq_some {a b n : Nat} (h : usizeAdd a b = some n) : n = a + b := by
  unfold usizeAdd at h
  split at h <;> cases h
  rfl

theorem usizeSub_eq_some {a b n : Nat} (h : usizeSub a b = some n) : b ≤ a ∧ n = a - b := by
  unfold usizeSub at h
  split at h <;> cases h
  exact ⟨‹_›, rfl⟩

theorem usizeMul_eq_some {a b n : Nat} (h : usizeMul a b = some n) : n = a * b := by
  unfold usizeMul at h
  split at h <;> cases h
  rfl

theorem validateRecordSize_ok {c : Config} (h : c.validateRecordSize = some (.ok ())) :
    (c.cacheOnly = true →
      2 * (c.cbMaxRecordSize + kvMetaSize) + leafHeaderSize ≤ c.leafPageSize) ∧
    (c.cacheOnly = false → ∃ maxMini, c.maxMiniPageSize = some maxMini ∧
      c.cbMaxRecordSize + kvMetaSize + leafHeaderSize ≤ maxMini) := by
  simp only [validateRecordSize, Option.bind_eq_bind, Option.bind_eq_some_iff] at h
  obtain ⟨record, hrecord, h⟩ := h
  obtain rfl := usizeAdd_eq_some hrecord
  split at h
  · next hc =>
    simp only [Option.bind_eq_some_iff] at h
    obtain ⟨two, htwo, needed, hneeded, h⟩ := h
    obtain rfl := usizeMul_eq_some htwo
    obtain rfl := usizeAdd_eq_some hneeded
    refine ⟨fun _ => ?_, fun hc' => by rw [hc] at hc'; cases hc'⟩
    by_contra hlt
    rw [if_pos (by omega)] at h
    simp only [Option.bind_eq_some_iff] at h
    obtain ⟨_, _, _, _, h⟩ := h
    cases h
  · next hc =>
    refine ⟨fun hc' => (hc hc').elim, fun _ => ?_⟩
    simp only [Option.bind_eq_some_iff] at h
    obtain ⟨_, _, bound, _, h⟩ := h
    split at h
    · cases h
    · simp only [Option.bind_eq_some_iff] at h
      obtain ⟨maxMini, hmini, needed, hneeded, h⟩ := h
      obtain rfl := usizeAdd_eq_some hneeded
      refine ⟨maxMini, hmini, ?_⟩
      by_contra hlt
      rw [if_pos (by omega)] at h
      simp only [Option.bind_eq_some_iff] at h
      obtain ⟨_, _, _, _, h⟩ := h
      cases h

theorem validate_ok {c : Config} (h : c.validate = some (.ok ())) : c.Bounds := by
  unfold validate at h
  split at h
  · cases h
  · next hp =>
    split at h
    · cases h
    · cases h
    · next hr =>
      obtain ⟨hcache, hdisk⟩ := validateRecordSize_ok hr
      unfold validateParameters at hp
      split at hp
      · cases hp
      split at hp
      · cases hp
      split at hp
      · cases hp
      split at hp
      · cases hp
      split at hp
      · cases hp
      exact ⟨by omega, by omega, by omega, by omega, by omega, hcache, hdisk⟩

/-! ## Size classes -/

def roundUpToCacheLine (size : Nat) : Nat :=
  if size % cacheLineSize = 0 then size else (size / cacheLineSize + 1) * cacheLineSize

/-- Add a size class unless the list already ends in one at least as large. -/
def pushIfLarger (classes : List Nat) (size : Nat) : List Nat :=
  match classes.getLast? with
  | none => classes ++ [size]
  | some last => if last < size then classes ++ [size] else classes

/-- The size classes of `2 ^ exp` minimal records each, as long as they are mini
pages. `fuel` counts the exponents left for which `2 ^ exp` is an `i32`. -/
def miniSizeClasses (recordSize maxMini : Nat) : (fuel exp : Nat) → List Nat → Option (List Nat)
  | 0, _, _ => none
  | fuel + 1, exp, classes =>
    let sizeClass := roundUpToCacheLine (2 ^ exp * recordSize + leafHeaderSize)
    if sizeClass ≤ maxMini then
      miniSizeClasses recordSize maxMini fuel (exp + 1) (pushIfLarger classes sizeClass)
    else some classes

/-- `create_mem_page_size_classes`; `none` is one of its assertions failing. -/
def createMemPageSizeClasses (c : Config) : Option (List Nat) := do
  guard (1 < c.cbMinRecordSize ∧ c.cbMinRecordSize ≤ c.cbMaxRecordSize)
  guard (0 < c.maxFenceLen ∧ c.maxFenceLen / 2 < c.cbMaxRecordSize)
  guard (c.leafPageSize ≤ maxLeafPageSize ∧ c.maxFenceLen / 2 ≤ BfTree.maxKeyLen)
  guard (c.leafPageSize / c.cbMinRecordSize ≤ 4096)
  guard (c.leafPageSize % (if c.cacheOnly then cacheLineSize else diskPageSize) = 0)
  let maxMini ← c.maxMiniPageSize
  let maxRecordSizeWithMeta := c.cbMaxRecordSize + kvMetaSize
  guard (if c.cacheOnly then 2 * maxRecordSizeWithMeta + leafHeaderSize ≤ c.leafPageSize
    else maxRecordSizeWithMeta + leafHeaderSize ≤ maxMini)
  let classes ← miniSizeClasses (c.cbMinRecordSize + kvMetaSize) maxMini 31 0 []
  guard (c.cacheOnly ∨ classes ≠ [])
  let classes := pushIfLarger (pushIfLarger classes maxMini) c.leafPageSize
  guard (if c.cacheOnly then classes ≠ [] else 2 ≤ classes.length)
  return classes

theorem pushIfLarger_spec {classes : List Nat} (size : Nat)
    (h : classes.Pairwise (· < ·)) :
    (pushIfLarger classes size).Pairwise (· < ·) ∧ pushIfLarger classes size ≠ [] ∧
      ∀ c ∈ pushIfLarger classes size, c ∈ classes ∨ c = size := by
  rw [pushIfLarger]
  split
  · next hlast =>
    rw [List.getLast?_eq_none_iff.1 hlast]
    simp
  · next last hlast =>
    obtain ⟨front, rfl⟩ := List.getLast?_eq_some_iff.1 hlast
    split
    · next hlt =>
      refine ⟨List.pairwise_append.2 ⟨h, List.pairwise_singleton _ _, fun c hc d hd => ?_⟩, by simp,
        fun c hc => by simpa [or_assoc] using hc⟩
      obtain rfl := List.mem_singleton.1 hd
      rcases List.mem_append.1 hc with hc | hc
      · exact ((List.pairwise_append.1 h).2.2 c hc last (by simp)).trans hlt
      · exact List.mem_singleton.1 hc ▸ hlt
    · exact ⟨h, by simp, fun c hc => .inl hc⟩

theorem miniSizeClasses_spec {recordSize maxMini : Nat} {fuel : Nat} :
    ∀ {exp : Nat} {classes result : List Nat},
      miniSizeClasses recordSize maxMini fuel exp classes = some result →
      classes.Pairwise (· < ·) → (∀ c ∈ classes, c ≤ maxMini) →
      result.Pairwise (· < ·) ∧ ∀ c ∈ result, c ≤ maxMini := by
  induction fuel with
  | zero => intro exp classes result h; cases h
  | succ fuel ih =>
    intro exp classes result h hsorted hbounds
    rw [miniSizeClasses] at h
    split at h
    · next hle =>
      obtain ⟨hsorted', -, hmem⟩ := pushIfLarger_spec
        (roundUpToCacheLine (2 ^ exp * recordSize + leafHeaderSize)) hsorted
      refine ih h hsorted' fun c hc => ?_
      rcases hmem c hc with hc | rfl
      · exact hbounds c hc
      · exact hle
    · cases h
      exact ⟨hsorted, hbounds⟩

theorem maxMiniPageSize_le {c : Config} {maxMini : Nat} (h : c.maxMiniPageSize = some maxMini) :
    maxMini ≤ c.leafPageSize := by
  have hround : ∀ n, n / cacheLineSize * cacheLineSize ≤ n := fun n => Nat.div_mul_le_self n _
  simp only [maxMiniPageSize, Option.bind_eq_bind, Option.bind_eq_some_iff] at h
  obtain ⟨record, -, left, hleft, h⟩ := h
  obtain ⟨-, rfl⟩ := usizeSub_eq_some hleft
  split at h
  · cases h
    exact (hround _).trans (Nat.sub_le _ _)
  · simp only [Option.bind_eq_some_iff] at h
    obtain ⟨left, hleft, left', hleft', h⟩ := h
    obtain ⟨-, rfl⟩ := usizeSub_eq_some hleft
    obtain ⟨-, rfl⟩ := usizeSub_eq_some hleft'
    cases h
    exact (hround _).trans (by omega)

/-- The size classes are in ascending order, and none is larger than a leaf page. -/
theorem createMemPageSizeClasses_spec {c : Config} {classes : List Nat}
    (h : c.createMemPageSizeClasses = some classes) :
    classes.Pairwise (· < ·) ∧ classes ≠ [] ∧ c.leafPageSize ≤ maxLeafPageSize ∧
      ∀ s ∈ classes, s ≤ c.leafPageSize := by
  simp only [createMemPageSizeClasses, Option.bind_eq_bind, Option.bind_eq_some_iff,
    Option.guard_eq_some', exists_const] at h
  obtain ⟨-, -, hleaf, -, -, maxMini, hmini, -, mini, hclasses, -, -, heq⟩ := h
  obtain ⟨hsorted, hbounds⟩ := miniSizeClasses_spec hclasses .nil nofun
  obtain ⟨hsorted₁, -, hmem₁⟩ := pushIfLarger_spec maxMini hsorted
  obtain ⟨hsorted₂, hne, hmem₂⟩ := pushIfLarger_spec c.leafPageSize hsorted₁
  have hle := maxMiniPageSize_le hmini
  cases heq
  refine ⟨hsorted₂, hne, hleaf.1, fun s hs => ?_⟩
  rcases hmem₂ s hs with hs | rfl
  · rcases hmem₁ s hs with hs | rfl
    · exact (hbounds s hs).trans hle
    · exact hle
  · exact Nat.le_refl _

example : Config.default.validate = some (.ok ()) := by decide

example :
    Config.default.createMemPageSizeClasses =
      some [64, 128, 256, 448, 832, 1600, 2048, 4096] := by
  decide

end Config

end BfTree
