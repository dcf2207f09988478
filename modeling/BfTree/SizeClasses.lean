import BfTree.TreeSpec

/-!
# Size classes of a validated configuration

`validate` and `create_mem_page_size_classes` check the same parameters in two
places. The first part compares them: they differ in one bound, and apart from
it the classes of a validated configuration satisfy what page merges and splits
rely on. The second part is about the smallest class a record is given, which is
chosen by a strict comparison with classes that the largest record may reach.
-/

namespace BfTree

namespace Config

variable {c : Config}

/-- The checks of single parameters, as bounds. -/
structure Checked (c : Config) : Prop where
  minRecord : 1 < c.cbMinRecordSize
  minRecord_le : c.cbMinRecordSize ≤ c.cbMaxRecordSize
  fence_pos : 0 < c.maxFenceLen
  fence_le : c.maxFenceLen / 2 ≤ c.cbMaxRecordSize
  leaf_le : c.leafPageSize ≤ maxLeafPageSize
  key_le : c.maxFenceLen / 2 ≤ BfTree.maxKeyLen
  records : c.leafPageSize / c.cbMinRecordSize ≤ 4096
  aligned : c.leafPageSize % (if c.cacheOnly then cacheLineSize else diskPageSize) = 0

theorem validateAlignment_ok (h : c.validateAlignment = .ok ()) :
    c.leafPageSize % (if c.cacheOnly then cacheLineSize else diskPageSize) = 0 := by
  unfold validateAlignment at h
  cases hc : c.cacheOnly <;> simp_all

theorem validateParameters_ok (h : c.validateParameters = .ok ()) : c.Checked := by
  unfold validateParameters at h
  iterate 8
    split at h
    · cases h
  exact ⟨by omega, by omega, by omega, by omega, by omega, by omega, by omega,
    validateAlignment_ok h⟩

theorem validate_checked (h : c.validate = some (.ok ())) : c.Checked := by
  unfold validate at h
  split at h
  · cases h
  · exact validateParameters_ok ‹_›

/-! ## The largest mini page -/

/-- Bytes of a leaf page that its largest mini page leaves to a merge: one record,
and on disk the fences and their slots. -/
def reserved (c : Config) : Nat :=
  c.cbMaxRecordSize + kvMetaSize + if c.cacheOnly then 0 else c.maxFenceLen + 2 * kvMetaSize

theorem maxMiniPageSize_eq_some {maxMini : Nat} (h : c.maxMiniPageSize = some maxMini) :
    c.reserved ≤ c.leafPageSize ∧
      maxMini = (c.leafPageSize - c.reserved) / cacheLineSize * cacheLineSize := by
  simp only [maxMiniPageSize, Option.bind_eq_bind, Option.bind_eq_some_iff] at h
  obtain ⟨record, hrecord, left, hleft, h⟩ := h
  obtain rfl := usizeAdd_eq_some hrecord
  obtain ⟨hle, rfl⟩ := usizeSub_eq_some hleft
  split at h
  · next hc =>
    rw [reserved, if_pos hc]
    exact ⟨hle, (Option.some.inj h).symm⟩
  · next hc =>
    simp only [Option.bind_eq_some_iff] at h
    obtain ⟨left, hleft, left', hleft', h⟩ := h
    obtain ⟨hle₁, rfl⟩ := usizeSub_eq_some hleft
    obtain ⟨hle₂, rfl⟩ := usizeSub_eq_some hleft'
    rw [reserved, if_neg hc]
    refine ⟨by omega, ?_⟩
    rw [← Option.some.inj h]
    congr 2
    omega

theorem Checked.maxMiniPageSize_isSome (h : c.Checked) (hc : c.cacheOnly = true)
    (hle : c.cbMaxRecordSize + kvMetaSize ≤ c.leafPageSize) : c.maxMiniPageSize.isSome := by
  have hleaf : c.leafPageSize ≤ 32768 := h.leaf_le
  simp only [maxMiniPageSize, usizeAdd, usizeSub]
  rw [if_pos (by omega)]
  simp [hle, hc]

/-- The largest mini page of a validated configuration. On disk it holds every record. -/
theorem validate_maxMini (h : c.validate = some (.ok ())) :
    ∃ maxMini, c.maxMiniPageSize = some maxMini ∧ maxMini % cacheLineSize = 0 ∧
      maxMini + c.reserved ≤ c.leafPageSize ∧
      (c.cacheOnly = false → c.cbMaxRecordSize + kvMetaSize + leafHeaderSize ≤ maxMini) := by
  have hb := validate_ok h
  have hsome : ∃ maxMini, c.maxMiniPageSize = some maxMini ∧
      (c.cacheOnly = false → c.cbMaxRecordSize + kvMetaSize + leafHeaderSize ≤ maxMini) := by
    cases hc : c.cacheOnly with
    | true =>
      have hle := hb.cacheOnly hc
      obtain ⟨maxMini, hmini⟩ := Option.isSome_iff_exists.1
        ((validate_checked h).maxMiniPageSize_isSome hc (by omega))
      exact ⟨maxMini, hmini, nofun⟩
    | false =>
      obtain ⟨maxMini, hmini, hle⟩ := hb.disk hc
      exact ⟨maxMini, hmini, fun _ => hle⟩
  obtain ⟨maxMini, hmini, hdisk⟩ := hsome
  obtain ⟨hres, heq⟩ := maxMiniPageSize_eq_some hmini
  refine ⟨maxMini, hmini, ?_, ?_, hdisk⟩
  · rw [heq]
    exact Nat.mul_mod_left _ _
  · have := Nat.div_mul_le_self (c.leafPageSize - c.reserved) cacheLineSize
    omega

/-! ## The doubling loop -/

theorem le_roundUpToCacheLine (size : Nat) : size ≤ roundUpToCacheLine size := by
  unfold roundUpToCacheLine cacheLineSize
  split <;> omega

theorem roundUpToCacheLine_le {size bound : Nat} (h : size ≤ bound)
    (hb : bound % cacheLineSize = 0) : roundUpToCacheLine size ≤ bound := by
  unfold roundUpToCacheLine
  unfold cacheLineSize at *
  split <;> omega

/-- The exponents that an `i32` can hold suffice for the loop to end. -/
theorem miniSizeClasses_isSome {recordSize maxMini : Nat} (hpos : 0 < recordSize) :
    ∀ {fuel exp : Nat} (classes : List Nat), maxMini < 2 ^ (exp + fuel) →
      (miniSizeClasses recordSize maxMini (fuel + 1) exp classes).isSome
  | fuel, exp, classes, hlt => by
    have hround := le_roundUpToCacheLine (2 ^ exp * recordSize + leafHeaderSize)
    have hmul : 2 ^ exp ≤ 2 ^ exp * recordSize := Nat.le_mul_of_pos_right _ hpos
    rw [miniSizeClasses]
    split
    · next hle =>
      cases fuel with
      | zero => exact absurd hlt (by rw [Nat.add_zero]; omega)
      | succ fuel =>
        exact miniSizeClasses_isSome hpos _ (by rwa [Nat.add_right_comm])
    · rfl

theorem miniSizeClasses_ne_nil {recordSize maxMini : Nat} {fuel : Nat} :
    ∀ {exp : Nat} {classes result : List Nat},
      miniSizeClasses recordSize maxMini fuel exp classes = some result →
      classes ≠ [] ∨ roundUpToCacheLine (2 ^ exp * recordSize + leafHeaderSize) ≤ maxMini →
      result ≠ [] := by
  induction fuel with
  | zero => intro exp classes result h; cases h
  | succ fuel ih =>
    intro exp classes result h hne
    rw [miniSizeClasses] at h
    split at h
    · refine ih h (.inl ?_)
      rw [pushIfLarger]
      split
      · simp
      · next hlast =>
        split
        · simp
        · intro hnil
          rw [hnil] at hlast
          cases hlast
    · next hgt =>
      cases h
      exact hne.resolve_right hgt

theorem miniSizeClasses_pos {recordSize maxMini fuel exp : Nat} {classes result : List Nat}
    (h : miniSizeClasses recordSize maxMini fuel exp classes = some result)
    (hpos : ∀ s ∈ classes, 0 < s) : ∀ s ∈ result, 0 < s := by
  induction fuel generalizing exp classes with
  | zero => cases h
  | succ fuel ih =>
    have := le_roundUpToCacheLine (2 ^ exp * recordSize + leafHeaderSize)
    grind [miniSizeClasses, pushIfLarger, leafHeaderSize]

/-- After the push the list ends in the new size, if no class was larger. -/
theorem pushIfLarger_eq_append {classes : List Nat} {size : Nat} (h : ∀ s ∈ classes, s ≤ size) :
    ∃ front, pushIfLarger classes size = front ++ [size] := by
  rw [pushIfLarger]
  split
  · exact ⟨classes, rfl⟩
  · next last hlast =>
    split
    · exact ⟨classes, rfl⟩
    · next hge =>
      obtain ⟨front, rfl⟩ := List.getLast?_eq_some_iff.1 hlast
      have := h last (by simp)
      exact ⟨front, by rw [show last = size by omega]⟩

theorem pushIfLarger_of_lt {front : List Nat} {last size : Nat} (h : last < size) :
    pushIfLarger (front ++ [last]) size = front ++ [last, size] := by
  simp [pushIfLarger, h]

/-! ## What validation guarantees of the classes -/

/-- The conditions on the size classes under which a merge and a split of one page
always have room. -/
structure Suffices (c : Config) (classes : List Nat) : Prop where
  sorted : classes.Pairwise (· < ·)
  last : classes.getLast? = some c.leafPageSize
  disk : c.cacheOnly = false → ∃ front largest, classes = front ++ [largest, c.leafPageSize] ∧
    c.cbMaxRecordSize + kvMetaSize + largest + c.maxFenceLen + 2 * kvMetaSize ≤ c.leafPageSize
  cacheOnly : c.cacheOnly = true →
    c.cbMaxRecordSize + kvMetaSize ≤ (c.leafPageSize - leafHeaderSize) / 2 ∧
    ∀ front largest, classes = front ++ [largest, c.leafPageSize] →
      largest + c.cbMaxRecordSize + kvMetaSize ≤ c.leafPageSize

/-- The classes that a configuration with the stricter bound of the builder gets: they
end in the largest mini page and the leaf page. -/
theorem createMemPageSizeClasses_eq_some (h : c.validate = some (.ok ()))
    (hlt : c.maxFenceLen / 2 < c.cbMaxRecordSize) :
    ∃ maxMini front, c.maxMiniPageSize = some maxMini ∧
      c.createMemPageSizeClasses = some (front ++ [maxMini, c.leafPageSize]) := by
  have hk := validate_checked h
  have hb := validate_ok h
  obtain ⟨maxMini, hmini, hmod, hroom, hdisk⟩ := validate_maxMini h
  have hleaf : c.leafPageSize ≤ 32768 := hk.leaf_le
  have hres : 8 ≤ c.reserved := by
    unfold reserved kvMetaSize
    omega
  have hends : (miniSizeClasses (c.cbMinRecordSize + kvMetaSize) maxMini 31 0 []).isSome :=
    miniSizeClasses_isSome (by unfold kvMetaSize; omega) [] (by omega)
  obtain ⟨mini, hloop⟩ := Option.isSome_iff_exists.1 hends
  obtain ⟨-, hbound⟩ := miniSizeClasses_spec hloop .nil nofun
  obtain ⟨front, hpush⟩ := pushIfLarger_eq_append hbound
  refine ⟨maxMini, front, hmini, ?_⟩
  have hne : c.cacheOnly = true ∨ mini ≠ [] := by
    cases hc : c.cacheOnly with
    | true => exact .inl rfl
    | false =>
      refine .inr (miniSizeClasses_ne_nil hloop (.inr (roundUpToCacheLine_le ?_ hmod)))
      have := hdisk hc
      have := hk.minRecord_le
      omega
  have hmax : if c.cacheOnly then
        2 * (c.cbMaxRecordSize + kvMetaSize) + leafHeaderSize ≤ c.leafPageSize
      else c.cbMaxRecordSize + kvMetaSize + leafHeaderSize ≤ maxMini := by
    split
    · exact hb.cacheOnly ‹_›
    · exact hdisk (Bool.eq_false_iff.2 ‹_›)
  simp only [createMemPageSizeClasses, Option.bind_eq_bind, hmini, Option.bind_some, hloop, hpush,
    pushIfLarger_of_lt (show maxMini < c.leafPageSize by omega)]
  simp [hk.minRecord, hk.minRecord_le, hk.fence_pos, hlt, hk.leaf_le, hk.key_le, hk.records,
    hk.aligned, hmax, hne]

/-- The classes end with the largest mini page and the leaf page. -/
theorem classes_eq_append {classes : List Nat} (h : c.validate = some (.ok ()))
    (hclasses : c.createMemPageSizeClasses = some classes) :
    ∃ maxMini front, c.maxMiniPageSize = some maxMini ∧ classes = front ++ [maxMini, c.leafPageSize] := by
  have hlt : c.maxFenceLen / 2 < c.cbMaxRecordSize := by
    refine Nat.lt_of_le_of_ne (validate_checked h).fence_le fun heq => ?_
    simp [createMemPageSizeClasses, heq] at hclasses
  obtain ⟨maxMini, front, hmini, heq⟩ := createMemPageSizeClasses_eq_some h hlt
  exact ⟨maxMini, front, hmini, Option.some.inj (hclasses.symm.trans heq)⟩

theorem classes_pos (hd : c.cacheOnly = false) {classes : List Nat}
    (h : c.createMemPageSizeClasses = some classes) {s : Nat} (hs : s ∈ classes) : 0 < s := by
  simp only [createMemPageSizeClasses, Option.bind_eq_bind, Option.bind_eq_some_iff,
    Option.guard_eq_some', exists_const, hd] at h
  obtain ⟨-, -, -, -, -, maxMini, hmini, hmax, mini, hclasses, -, -, heq⟩ := h
  cases heq
  have := miniSizeClasses_pos hclasses
  have := maxMiniPageSize_le hmini
  grind [pushIfLarger, leafHeaderSize]

/-- A validated configuration gets classes as page merges and splits need them, unless
its keys may be as long as its records: the builder refuses what `validate` accepts. -/
theorem suffices_iff_shorter_keys (h : c.validate = some (.ok ())) :
    (∃ classes, c.createMemPageSizeClasses = some classes ∧ c.Suffices classes) ↔
      c.maxFenceLen / 2 ≠ c.cbMaxRecordSize := by
  constructor
  · rintro ⟨classes, hclasses, -⟩ heq
    simp [createMemPageSizeClasses, heq] at hclasses
  · intro hne
    have hk := validate_checked h
    have hlt : c.maxFenceLen / 2 < c.cbMaxRecordSize := by have := hk.fence_le; omega
    obtain ⟨maxMini, front, hmini, hclasses⟩ := createMemPageSizeClasses_eq_some h hlt
    obtain ⟨hsorted, -⟩ := createMemPageSizeClasses_spec hclasses
    obtain ⟨hres, heq⟩ := maxMiniPageSize_eq_some hmini
    have hround := Nat.div_mul_le_self (c.leafPageSize - c.reserved) cacheLineSize
    refine ⟨_, hclasses, hsorted, by simp, fun hc => ?_, fun hc => ⟨?_, ?_⟩⟩
    · refine ⟨front, maxMini, rfl, ?_⟩
      simp only [reserved, hc] at *
      simp only [Bool.false_eq_true, if_false] at *
      omega
    · have := (validate_ok h).cacheOnly hc
      unfold leafHeaderSize at *
      omega
    · intro front' largest hfront
      have hlargest : maxMini = largest := by
        have := congrArg (fun l => l.dropLast.getLast?) hfront
        simpa [List.dropLast_append_of_ne_nil] using this
      subst hlargest
      simp only [reserved, hc, if_true] at *
      omega

theorem suffices_iff_shorter_keys_default :
    Config.default.validate = some (.ok ()) ∧
      ∃ classes, Config.default.createMemPageSizeClasses = some classes ∧
        Config.default.Suffices classes :=
  ⟨by decide, (suffices_iff_shorter_keys (by decide)).2 (by decide)⟩

/-- Keys of up to 16 bytes and records of at most 16 bytes. -/
def keysAsLongAsRecords : Config :=
  { Config.default with cbMaxRecordSize := 16 }

theorem keysAsLongAsRecords_refused :
    keysAsLongAsRecords.validate = some (.ok ()) ∧
      keysAsLongAsRecords.createMemPageSizeClasses = none := by
  decide

/-! ## When `validate` answers

The bounds are taken from one another in an order in which the earlier checks do not bound
the later operands. -/

/-- What the arithmetic of `validate` relies on once the single parameters are accepted.
On disk, a leaf page with room for a record and the fences must have a cache line more. -/
def Representable (c : Config) : Prop :=
  c.leafPageSize ≠ 0 ∧
    if c.cacheOnly then 2 * (c.cbMaxRecordSize + kvMetaSize) + leafHeaderSize < 2 ^ 64
    else c.cbMaxRecordSize + kvMetaSize < 2 ^ 64 ∧
      (c.reserved ≤ c.leafPageSize → c.reserved + cacheLineSize ≤ c.leafPageSize)

theorem usizeAdd_lt {a b n : Nat} (h : usizeAdd a b = some n) : a + b < 2 ^ 64 := by
  unfold usizeAdd at h
  split at h
  · assumption
  · cases h

theorem usizeAdd_of_lt {a b : Nat} (h : a + b < 2 ^ 64) : usizeAdd a b = some (a + b) := if_pos h

theorem usizeMul_of_lt {a b : Nat} (h : a * b < 2 ^ 64) : usizeMul a b = some (a * b) := if_pos h

theorem usizeSub_of_le {a b : Nat} (h : b ≤ a) : usizeSub a b = some (a - b) := if_pos h

/-- In cache-only mode a leaf page of one cache line already holds its header and a slot. -/
theorem Checked.validateRecordSize_cacheOnly (h : c.Checked) (hc : c.cacheOnly = true) :
    c.validateRecordSize.isSome ↔ c.Representable := by
  have halign : c.leafPageSize % 64 = 0 := by simpa [hc, cacheLineSize] using h.aligned
  have hm : kvMetaSize = 8 := rfl
  have hl : leafHeaderSize = 32 := rfl
  rw [Representable, if_pos hc, validateRecordSize]
  constructor
  · intro hsome
    obtain ⟨r, hr⟩ := Option.isSome_iff_exists.1 hsome
    simp only [Option.bind_eq_bind, Option.bind_eq_some_iff, hc, if_true] at hr
    obtain ⟨record, hrecord, two, htwo, needed, hneeded, hr⟩ := hr
    obtain rfl := usizeAdd_eq_some hrecord
    obtain rfl := usizeMul_eq_some htwo
    have hlt := usizeAdd_lt hneeded
    obtain rfl := usizeAdd_eq_some hneeded
    refine ⟨fun hzero => ?_, hlt⟩
    rw [if_pos (by omega)] at hr
    simp only [Option.bind_eq_some_iff] at hr
    obtain ⟨room, hroom, -⟩ := hr
    have := (usizeSub_eq_some hroom).1
    omega
  · rintro ⟨hpos, hlt⟩
    simp only [Option.bind_eq_bind, hc, if_true]
    rw [usizeAdd_of_lt (by omega), Option.bind_some, usizeMul_of_lt (by omega), Option.bind_some,
      usizeAdd_of_lt hlt, Option.bind_some]
    split
    · rw [usizeSub_of_le (by omega), Option.bind_some, usizeSub_of_le (by omega)]
      rfl
    · rfl

/-- On disk the largest mini page is rounded down, possibly to nothing. -/
theorem Checked.validateRecordSize_disk (h : c.Checked) (hc : c.cacheOnly = false) :
    c.validateRecordSize.isSome ↔ c.Representable := by
  have halign : c.leafPageSize % 4096 = 0 := by simpa [hc, diskPageSize] using h.aligned
  have hm : kvMetaSize = 8 := rfl
  have hl : leafHeaderSize = 32 := rfl
  have hline : cacheLineSize = 64 := rfl
  have hfence : c.maxFenceLen ≤ 4041 := by have : c.maxFenceLen / 2 ≤ 2020 := h.key_le; omega
  have hpos := h.fence_pos
  have hleaf : c.leafPageSize ≤ 32768 := h.leaf_le
  have hres : c.reserved = c.cbMaxRecordSize + kvMetaSize + (c.maxFenceLen + 2 * kvMetaSize) := by
    rw [reserved, if_neg (by simp [hc])]
  rw [Representable, if_neg (by simp [hc]), hres, validateRecordSize]
  constructor
  · intro hsome
    obtain ⟨r, hr⟩ := Option.isSome_iff_exists.1 hsome
    simp only [Option.bind_eq_bind, Option.bind_eq_some_iff, hc, Bool.false_eq_true,
      if_false] at hr
    obtain ⟨record, hrecord, size, hsize, bound, hbound, hr⟩ := hr
    have hlt := usizeAdd_lt hrecord
    obtain rfl := usizeAdd_eq_some hrecord
    obtain ⟨hle, rfl⟩ := usizeSub_eq_some hsize
    obtain ⟨hle', rfl⟩ := usizeSub_eq_some hbound
    refine ⟨by omega, hlt, fun hroom => ?_⟩
    rw [if_neg (by omega)] at hr
    simp only [Option.bind_eq_some_iff] at hr
    obtain ⟨maxMini, hmini, needed, hneeded, hr⟩ := hr
    obtain rfl := usizeAdd_eq_some hneeded
    obtain ⟨-, heq⟩ := maxMiniPageSize_eq_some hmini
    rw [hres] at heq
    by_contra hshort
    have hzero : maxMini = 0 := by rw [heq, Nat.div_eq_of_lt (by omega), Nat.zero_mul]
    rw [if_pos (by omega)] at hr
    simp only [Option.bind_eq_some_iff] at hr
    obtain ⟨room, hroom', -⟩ := hr
    have := (usizeSub_eq_some hroom').1
    omega
  · rintro ⟨hne, hlt, hline'⟩
    simp only [Option.bind_eq_bind, hc, Bool.false_eq_true, if_false]
    rw [usizeAdd_of_lt hlt, Option.bind_some, usizeSub_of_le (by omega), Option.bind_some,
      usizeSub_of_le (by omega), Option.bind_some]
    split
    · rfl
    · next hfits =>
      have hmini : c.maxMiniPageSize = some ((c.leafPageSize - (c.cbMaxRecordSize + kvMetaSize) -
          c.maxFenceLen - 2 * kvMetaSize) / cacheLineSize * cacheLineSize) := by
        simp only [maxMiniPageSize, Option.bind_eq_bind, hc, Bool.false_eq_true, if_false]
        rw [usizeAdd_of_lt hlt, Option.bind_some, usizeSub_of_le (by omega), Option.bind_some,
          usizeSub_of_le (by omega), Option.bind_some, usizeSub_of_le (by omega), Option.bind_some]
        rfl
      have hmany : 64 ≤ (c.leafPageSize - (c.cbMaxRecordSize + kvMetaSize) -
          c.maxFenceLen - 2 * kvMetaSize) / cacheLineSize * cacheLineSize :=
        Nat.le_mul_of_pos_left 64 ((Nat.le_div_iff_mul_le (by decide)).2 (by omega))
      rw [hmini, Option.bind_some, usizeAdd_of_lt (by omega), Option.bind_some]
      split
      · rw [usizeSub_of_le (by omega), Option.bind_some, usizeSub_of_le (by omega)]
        rfl
      · rfl

/-- `validate` answers, unless all single parameters are accepted and the leaf page is
empty, two records overflow a machine word, or the part of a leaf page left for mini
pages is smaller than a cache line. -/
theorem validate_answers_iff (c : Config) :
    (∃ r, c.validate = some r) ↔ (∃ e, c.validateParameters = .error e) ∨ c.Representable := by
  rw [← Option.isSome_iff_exists, validate]
  cases hp : c.validateParameters with
  | error e => simp
  | ok u =>
    have hk := validateParameters_ok hp
    have hiff : c.validateRecordSize.isSome ↔ c.Representable := by
      cases hc : c.cacheOnly with
      | true => exact hk.validateRecordSize_cacheOnly hc
      | false => exact hk.validateRecordSize_disk hc
    rw [← hiff]
    cases hr : c.validateRecordSize with
    | none => simp
    | some r => cases r <;> simp

/-- A record of 4040 bytes leaves nothing of a leaf page to mini pages. -/
def nothingForMiniPages : Config :=
  { Config.default with cbMaxRecordSize := 4040 }

/-- The bound for the error message is taken from a largest mini page of no bytes. -/
theorem nothingForMiniPages_panics :
    nothingForMiniPages.validateParameters = .ok () ∧
      nothingForMiniPages.maxMiniPageSize = some 0 ∧ nothingForMiniPages.validate = none := by
  decide

end Config

/-! ## The page a record starts -/

namespace LeafNode

variable {keyLen valueLen size : Nat} {front : List Nat} {maxMini leaf : Nat} {cacheOnly : Bool}

theorem dropLast_classes (front : List Nat) (maxMini leaf : Nat) :
    (front ++ [maxMini, leaf]).dropLast = front ++ [maxMini] := by
  simp [List.dropLast_append_of_ne_nil]

theorem getLast?_classes (front : List Nat) (maxMini leaf : Nat) :
    (front ++ [maxMini, leaf]).getLast? = some leaf := by
  simp

/-- The hint is a class, and the record with its slot fits into it. -/
theorem getChainSizeHint_spec
    (h : getChainSizeHint keyLen valueLen (front ++ [maxMini, leaf]) cacheOnly = some size) :
    size ∈ front ++ [maxMini, leaf] ∧ keyLen + valueLen + kvMetaSize + leafHeaderSize ≤ size := by
  simp only [getChainSizeHint, dropLast_classes, getLast?_classes] at h
  split at h
  · next s hs =>
    cases h
    have hmem := List.mem_of_find?_eq_some hs
    have hlt := List.find?_some hs
    refine ⟨?_, Nat.le_of_lt (of_decide_eq_true hlt)⟩
    rw [show front ++ [maxMini, leaf] = (front ++ [maxMini]) ++ [leaf] by simp]
    exact List.mem_append_left _ hmem
  · split at h
    · next hle =>
      cases h
      exact ⟨by simp, hle.2⟩
    · cases h

/-- Among sorted classes the last one below the leaf page decides. -/
theorem getChainSizeHint_isSome (keyLen valueLen : Nat) (cacheOnly : Bool)
    (hsorted : (front ++ [maxMini, leaf]).Pairwise (· < ·)) :
    (getChainSizeHint keyLen valueLen (front ++ [maxMini, leaf]) cacheOnly).isSome ↔
      keyLen + valueLen + kvMetaSize + leafHeaderSize < maxMini ∨
        cacheOnly = true ∧ keyLen + valueLen + kvMetaSize + leafHeaderSize ≤ leaf := by
  have hfront : ∀ s ∈ front, s < maxMini := fun s hs =>
    (List.pairwise_append.1 hsorted).2.2 s hs maxMini (by simp)
  simp only [getChainSizeHint, dropLast_classes, getLast?_classes]
  split
  · next s hs =>
    have hfound := List.find?_some hs
    have hlt := of_decide_eq_true hfound
    refine iff_of_true rfl (.inl ?_)
    rcases List.mem_append.1 (List.mem_of_find?_eq_some hs) with hmem | hmem
    · exact hlt.trans (hfront s hmem)
    · exact List.mem_singleton.1 hmem ▸ hlt
  · next hnone =>
    have hge := List.find?_eq_none.1 hnone maxMini (by simp)
    simp only [decide_eq_true_eq] at hge
    split
    · exact iff_of_true rfl (.inr ‹_›)
    · next hno => exact iff_of_false (by simp) (by rintro (hlt | hle); exacts [hge hlt, hno hle])

/-- A page without records takes whatever fits behind its header. -/
theorem initializeMiniPage_insert {key : Key} {value : Value} {nextLevel : Option Nat}
    (op : OpType) (version : Nat)
    (hroom : key.length + value.length + kvMetaSize + leafHeaderSize ≤ size)
    (hbase : nextLevel.isSome ∨ cacheOnly = true) :
    ∃ page, (initializeMiniPage size nextLevel cacheOnly version).insert key value op 0 =
        some (true, page) ∧ page.metas = [LeafKVMeta.makePrefixedMeta value key 0 op] := by
  have hnotBase : (initializeMiniPage size nextLevel cacheOnly version).isBasePage = false := by
    rcases hbase with hnext | rfl
    · simp [isBasePage, initializeMiniPage, initializeNode, hnext]
    · simp [isBasePage, initializeMiniPage, initializeNode]
  have hfits : (initializeMiniPage size nextLevel cacheOnly version).fullWithFences
      (key.length + value.length + kvMetaSize) 0 = false := by
    have hfree : key.length + value.length + kvMetaSize ≤
        (initializeMiniPage size nextLevel cacheOnly version).remainingSize := by
      show _ ≤ size - leafHeaderSize
      omega
    rw [fullWithFences, if_neg (by omega)]
    rfl
  have hpos : (initializeMiniPage size nextLevel cacheOnly version).lowerBound key = some 0 := by
    simp [lowerBound, initializeMiniPage, initializeNode, Lib.binarySearch]
  refine ⟨{ initializeMiniPage size nextLevel cacheOnly version with
    metas := [LeafKVMeta.makePrefixedMeta value key 0 op]
    remainingSize := maxDataSize size - (key.length + value.length + kvMetaSize) }, ?_, rfl⟩
  have hmetas : (initializeMiniPage size nextLevel cacheOnly version).metas = [] := rfl
  have hcommon : (initializeMiniPage size nextLevel cacheOnly version).prefixLen = 0 := rfl
  simp only [insert, hpos, Option.bind_eq_bind, Option.bind_some, hmetas, hcommon, List.drop_zero,
    List.getElem?_nil, insertNew, hnotBase, hfits, Bool.false_eq_true, and_false, if_false]
  rfl

end LeafNode

namespace Tree

variable {c : Config} {classes : List Nat} {key : Key} {value : Value} {op : OpType}

/-- What the two writing operations pass on to the leaves. -/
def Accepted (c : Config) (key : Key) (value : Value) : OpType → Prop
  | .insert => validRecord c key value = true
  | .delete => validKey c key = true ∧ value = []
  | .cache | .phantom => False

instance : Decidable (Accepted c key value op) :=
  match op with
  | .insert => inferInstanceAs (Decidable (validRecord c key value = true))
  | .delete => inferInstanceAs (Decidable (validKey c key = true ∧ value = []))
  | .cache | .phantom => inferInstanceAs (Decidable False)

/-- The record can become the first one of a mini page: there is a class for it, and a
new page of that class takes it. -/
def StartsMiniPage (c : Config) (classes : List Nat) (key : Key) (value : Value) (op : OpType) :
    Prop :=
  ∃ size ∈ classes,
    LeafNode.getChainSizeHint key.length value.length classes c.cacheOnly = some size ∧
    ∀ offset version, ∃ page,
      (LeafNode.initializeMiniPage size (if c.cacheOnly then none else some offset) c.cacheOnly
        version).insert key value op 0 = some (true, page) ∧
      page.metas = [LeafKVMeta.makePrefixedMeta value key 0 op]

theorem Accepted.length_le (h : Accepted c key value op) (hcfg : c.Bounds) :
    key.length + value.length ≤ c.cbMaxRecordSize := by
  cases op with
  | insert => exact (writable_insert h).small
  | delete =>
    obtain ⟨hkey, rfl⟩ := h
    exact (writable_delete hcfg hkey).small
  | cache => exact h.elim
  | phantom => exact h.elim

/-- In cache-only mode every accepted record starts a mini page. On disk the one
exception is a record that with its headers is exactly as large as the largest mini
page: it has no size class, because a class has to be larger than what it starts with. -/
theorem startsMiniPage_iff (h : c.validate = some (.ok ()))
    (hclasses : c.createMemPageSizeClasses = some classes) (hrec : Accepted c key value op) :
    StartsMiniPage c classes key value op ↔
      c.cacheOnly = true ∨
        c.maxMiniPageSize ≠ some (key.length + value.length + kvMetaSize + leafHeaderSize) := by
  have hk := Config.validate_checked h
  have hb := Config.validate_ok h
  have hsize := hrec.length_le hb
  have hlt : c.maxFenceLen / 2 < c.cbMaxRecordSize := by
    refine Nat.lt_of_le_of_ne hk.fence_le fun heq => ?_
    simp [Config.createMemPageSizeClasses, heq] at hclasses
  obtain ⟨maxMini, front, hmini, heq⟩ := Config.createMemPageSizeClasses_eq_some h hlt
  obtain rfl : classes = front ++ [maxMini, c.leafPageSize] :=
    Option.some.inj (hclasses.symm.trans heq)
  obtain ⟨hsorted, -⟩ := Config.createMemPageSizeClasses_spec hclasses
  have hhint := LeafNode.getChainSizeHint_isSome key.length value.length c.cacheOnly hsorted
  have hstart : StartsMiniPage c (front ++ [maxMini, c.leafPageSize]) key value op ↔
      (LeafNode.getChainSizeHint key.length value.length (front ++ [maxMini, c.leafPageSize])
        c.cacheOnly).isSome := by
    constructor
    · rintro ⟨size, -, hsome, -⟩
      rw [hsome]
      rfl
    · intro hsome
      obtain ⟨size, hsome⟩ := Option.isSome_iff_exists.1 hsome
      obtain ⟨hmem, hroom⟩ := LeafNode.getChainSizeHint_spec hsome
      refine ⟨size, hmem, hsome, fun offset version =>
        LeafNode.initializeMiniPage_insert op version hroom ?_⟩
      cases c.cacheOnly <;> simp
  rw [hstart, hhint, hmini]
  cases hc : c.cacheOnly with
  | true =>
    have := hb.cacheOnly hc
    exact iff_of_true (.inr ⟨rfl, by omega⟩) (.inl rfl)
  | false =>
    obtain ⟨maxMini', hmini', hle⟩ := hb.disk hc
    obtain rfl := Option.some.inj (hmini.symm.trans hmini')
    simp only [Bool.false_eq_true, false_and, or_false, false_or, ne_eq, Option.some.injEq]
    omega

theorem startsMiniPage_iff_default :
    Accepted Config.default [1] [2, 3, 4] .insert ∧
      StartsMiniPage Config.default [64, 128, 256, 448, 832, 1600, 2048, 4096] [1] [2, 3, 4]
        .insert :=
  ⟨by decide, (startsMiniPage_iff (by decide) (by decide) (by decide)).2 (.inr (by decide))⟩

/-- The largest mini page, of 2048 bytes, is filled by a record of 2008 bytes. -/
def filledByOneRecord : Config :=
  { Config.default with cbMaxRecordSize := 2008, maxFenceLen := 16 }

theorem filledByOneRecord_no_class :
    filledByOneRecord.validate = some (.ok ()) ∧
      ∃ classes, filledByOneRecord.createMemPageSizeClasses = some classes ∧
        validRecord filledByOneRecord (List.replicate 8 1) (List.replicate 2000 1) = true ∧
        LeafNode.getChainSizeHint 8 2000 classes filledByOneRecord.cacheOnly = none := by
  refine ⟨by decide, [64, 128, 256, 448, 832, 1600, 2048, 4096], by decide, ?_, by decide⟩
  rw [validRecord_iff, validKey_iff]
  simp only [List.length_replicate]
  decide

end Tree

end BfTree
