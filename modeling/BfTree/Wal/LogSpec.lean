import BfTree.Wal.Log

/-!
# What the reader finds in the log

A segment image holds the entries of the segment one after the other, and then nothing
or a header of length zero. The file is a list of such images; reading it returns all
entries that have been flushed, in the order of their numbers.
-/

namespace BfTree

open Lib

/-! ## Entries -/

@[simp] theorem LogHeader.length_asSlice (h : LogHeader) : h.asSlice.length = LogHeader.size := by
  simp [asSlice, size]

theorem LogHeader.fromSlice_asSlice (h : LogHeader) (hl : h.logLen < 2 ^ 64) (hn : h.lsn < 2 ^ 64)
    (ho : h.pageOffset < 2 ^ 64) (rest : List UInt8) : fromSlice (h.asSlice ++ rest) = some h := by
  have h0 : slice (h.asSlice ++ rest) 0 8 = some (toLE 8 h.logLen) := by
    rw [asSlice, List.append_assoc]
    exact slice_append (A := []) (B := toLE 8 h.logLen) rfl (by simp)
  have h1 : slice (h.asSlice ++ rest) 8 16 = some (toLE 8 h.lsn) := by
    rw [asSlice, List.append_assoc, List.append_assoc]
    exact slice_append (by simp) (by simp)
  have h2 : slice (h.asSlice ++ rest) 16 24 = some (toLE 8 h.pageOffset) := by
    rw [asSlice, ← List.append_assoc, List.append_assoc]
    exact slice_append (by simp) (by simp)
  rw [fromSlice, h0, h1, h2]
  simp only [Option.bind_eq_bind, Option.bind_some]
  rw [ofLE_toLE_of_lt hl, ofLE_toLE_of_lt hn, ofLE_toLE_of_lt ho]

@[simp] theorem WriteOp.length_writeToBuffer (op : WriteOp) :
    op.writeToBuffer.length = op.logSize := by
  simp [writeToBuffer, logSize]
  omega

namespace WalEntry

@[simp] theorem length_bytes (e : WalEntry) (lsn : Nat) : (e.bytes lsn).length = e.requiredBytes := by
  simp [bytes, requiredBytes]

theorem size_lt (e : WalEntry) : LogHeader.size < e.requiredBytes := by
  simp only [requiredBytes, WriteOp.logSize]
  omega

/-- The bytes of entries with consecutive numbers. -/
def bytesFrom : (lsn : Nat) → List WalEntry → List UInt8
  | _, [] => []
  | lsn, e :: es => e.bytes lsn ++ bytesFrom (lsn + 1) es

/-- The same entries as the reader yields them. -/
def yieldFrom : (lsn : Nat) → List WalEntry → List (LogHeader × List UInt8)
  | _, [] => []
  | lsn, e :: es => (e.header lsn, e.op.writeToBuffer) :: yieldFrom (lsn + 1) es

theorem bytesFrom_append (lsn : Nat) (es es' : List WalEntry) :
    bytesFrom lsn (es ++ es') = bytesFrom lsn es ++ bytesFrom (lsn + es.length) es' := by
  induction es generalizing lsn with
  | nil => rfl
  | cons e es ih =>
    rw [List.cons_append, bytesFrom, bytesFrom, ih, List.append_assoc, List.length_cons,
      Nat.add_assoc, Nat.add_comm 1]

theorem yieldFrom_append (lsn : Nat) (es es' : List WalEntry) :
    yieldFrom lsn (es ++ es') = yieldFrom lsn es ++ yieldFrom (lsn + es.length) es' := by
  induction es generalizing lsn with
  | nil => rfl
  | cons e es ih =>
    rw [List.cons_append, yieldFrom, yieldFrom, ih, List.cons_append, List.length_cons,
      Nat.add_assoc, Nat.add_comm 1]

theorem mem_yieldFrom (lsn : Nat) {i : Nat} {es : List WalEntry} {e : WalEntry} (h : es[i]? = some e) :
    (e.header (lsn + i), e.op.writeToBuffer) ∈ yieldFrom lsn es := by
  induction es generalizing lsn i with
  | nil => cases h
  | cons e' es ih =>
    cases i with
    | zero =>
      obtain rfl : e' = e := Option.some.inj h
      exact List.mem_cons_self
    | succ i =>
      have := ih (lsn + 1) (i := i) h
      rw [Nat.add_assoc, Nat.add_comm 1] at this
      exact List.mem_cons_of_mem _ this

end WalEntry

open WalEntry

/-! ## Segments -/

/-- The bytes of a segment that holds the entries `es`, the first one with number `lsn`. -/
def SegmentImage (size lsn : Nat) (es : List WalEntry) (image : List UInt8) : Prop :=
  image.length = size ∧ ∃ rest, image = bytesFrom lsn es ++ rest ∧
    (8 ≤ rest.length → rest.take 8 = List.replicate 8 0)

/-- The file holds the entries `es` in whole segments. -/
inductive FileImage (size : Nat) : (lsn : Nat) → List WalEntry → List UInt8 → Prop
  | nil {lsn : Nat} : FileImage size lsn [] []
  | cons {lsn : Nat} {es es' : List WalEntry} {image file : List UInt8}
      (h : SegmentImage size lsn es image) (hne : es ≠ [])
      (h' : FileImage size (lsn + es.length) es' file) :
      FileImage size lsn (es ++ es') (image ++ file)

theorem FileImage.snoc {size lsn : Nat} {es es' : List WalEntry} {image file : List UInt8}
    (h : FileImage size lsn es file) (h' : SegmentImage size (lsn + es.length) es' image)
    (hne : es' ≠ []) : FileImage size lsn (es ++ es') (file ++ image) := by
  induction h with
  | nil => simpa using FileImage.cons h' hne .nil
  | @cons lsn es₁ es₂ image₁ file₁ h₁ hne₁ h₂ ih =>
    rw [List.append_assoc, List.append_assoc]
    refine .cons h₁ hne₁ (ih ?_)
    rwa [List.length_append, ← Nat.add_assoc] at h'

/-- The reader returns the entries of a segment. -/
theorem entryIter_spec {size : Nat} (hsize : size < 2 ^ 64) (es : List WalEntry) :
    ∀ (lsn fuel : Nat) (front rest : List UInt8),
      front.length + (bytesFrom lsn es).length + rest.length = size →
      (8 ≤ rest.length → rest.take 8 = List.replicate 8 0) → lsn + es.length < 2 ^ 64 →
      es.length < fuel →
      entryIter (front ++ (bytesFrom lsn es ++ rest)) fuel front.length = some (yieldFrom lsn es) := by
  induction es with
  | nil =>
    intro lsn fuel front rest hlen hrest _ hfuel
    obtain ⟨fuel, rfl⟩ : ∃ n, fuel = n + 1 := ⟨fuel - 1, by simp at hfuel; omega⟩
    rw [entryIter, bytesFrom, List.nil_append]
    split
    · rfl
    · next hge =>
      -- the next header has length zero
      rw [List.length_append, LogHeader.size] at hge
      have hz := hrest (by omega)
      have hslice : ∀ lo hi, lo ≤ hi → hi ≤ rest.length → ∃ s, slice rest lo hi = some s :=
        fun lo hi h1 h2 => ⟨_, if_pos ⟨h1, h2⟩⟩
      obtain ⟨s1, hs1⟩ := hslice 8 16 (by omega) (by omega)
      obtain ⟨s2, hs2⟩ := hslice 16 24 (by omega) (by omega)
      have hs0 : slice rest 0 8 = some (List.replicate 8 0) := by
        rw [slice, if_pos ⟨by omega, by omega⟩, List.drop_zero, hz]
      rw [List.drop_left, LogHeader.fromSlice, hs0, hs1, hs2]
      rfl
  | cons e es ih =>
    intro lsn fuel front rest hlen hrest hlsn hfuel
    obtain ⟨fuel, rfl⟩ : ∃ n, fuel = n + 1 := ⟨fuel - 1, by simp at hfuel; omega⟩
    have hreq := e.size_lt
    rw [bytesFrom, List.length_append, length_bytes] at hlen
    rw [List.length_cons] at hlsn hfuel
    have hheader : LogHeader.fromSlice
        ((front ++ (bytesFrom lsn (e :: es) ++ rest)).drop front.length) = some (e.header lsn) := by
      rw [List.drop_left, bytesFrom, bytes, List.append_assoc, List.append_assoc]
      exact LogHeader.fromSlice_asSlice _ (by simp only [header]; omega) (by simp only [header]; omega)
        (UInt64.toNat_lt _) _
    have hdata : slice (front ++ (bytesFrom lsn (e :: es) ++ rest)) (front.length + LogHeader.size)
        (front.length + (e.header lsn).logLen) = some e.op.writeToBuffer := by
      rw [bytesFrom, bytes, List.append_assoc, List.append_assoc, ← List.append_assoc front]
      refine slice_append (by simp) ?_
      simp [header, requiredBytes, Nat.add_assoc]
    have hnext : front ++ (bytesFrom lsn (e :: es) ++ rest) =
        (front ++ e.bytes lsn) ++ (bytesFrom (lsn + 1) es ++ rest) := by
      rw [bytesFrom, List.append_assoc, List.append_assoc]
    have hih : entryIter (front ++ (bytesFrom lsn (e :: es) ++ rest)) fuel
        (front.length + (e.header lsn).logLen) = some (yieldFrom (lsn + 1) es) := by
      have hlen' : (front ++ e.bytes lsn).length = front.length + (e.header lsn).logLen := by
        rw [List.length_append, length_bytes, header]
      rw [hnext, ← hlen']
      refine ih _ _ _ _ ?_ hrest (by omega) (by omega)
      rw [List.length_append, length_bytes]
      omega
    have hzero : (e.header lsn).logLen ≠ 0 := by
      simp only [header]
      omega
    rw [entryIter, if_neg, hheader]
    · simp only [Option.bind_eq_bind, Option.bind_some, hzero, if_false, hdata, hih]
      rfl
    · simp only [List.length_append, bytesFrom, length_bytes]
      omega

theorem length_le_bytesFrom (lsn : Nat) (es : List WalEntry) :
    es.length ≤ (bytesFrom lsn es).length := by
  induction es generalizing lsn with
  | nil => exact Nat.zero_le _
  | cons e es ih =>
    have := e.size_lt
    have := ih (lsn + 1)
    rw [bytesFrom, List.length_append, length_bytes, List.length_cons]
    omega

theorem SegmentImage.size_pos {size lsn : Nat} {es : List WalEntry} {image : List UInt8}
    (h : SegmentImage size lsn es image) (hne : es ≠ []) : 0 < size := by
  obtain ⟨hlen, rest, rfl, -⟩ := h
  have := length_le_bytesFrom lsn es
  have := List.length_pos_iff.2 hne
  rw [List.length_append] at hlen
  omega

theorem SegmentImage.read {size lsn : Nat} {es : List WalEntry} {image : List UInt8}
    (h : SegmentImage size lsn es image) (hsize : size < 2 ^ 64) (hlsn : lsn + es.length < 2 ^ 64) :
    entryIter image (image.length + 1) 0 = some (yieldFrom lsn es) := by
  obtain ⟨hlen, rest, rfl, hrest⟩ := h
  have hle := length_le_bytesFrom lsn es
  rw [List.length_append] at hlen ⊢
  exact entryIter_spec hsize es _ _ [] _ (by simpa using hlen) hrest hlsn (by omega)

/-! ## The file -/

/-- Reading `file` segment by segment yields `found`, wherever it stands in a larger file
that ends with it. -/
def Segments (size : Nat) (file : List UInt8) (found : List (LogHeader × List UInt8)) : Prop :=
  ∀ (front : List UInt8) (fuel : Nat), file.length < fuel →
    ∃ images, segmentIter (front ++ file) size fuel front.length = some images ∧
      ∃ read, images.mapM (fun segment => entryIter segment (segment.length + 1) 0) = some read ∧
        read.flatten = found

theorem Segments.nil {size : Nat} : Segments size [] [] := by
  intro front fuel hfuel
  obtain ⟨fuel, rfl⟩ : ∃ n, fuel = n + 1 := ⟨fuel - 1, by simp at hfuel; omega⟩
  refine ⟨[], ?_, [], rfl, rfl⟩
  rw [segmentIter, if_pos (by simp)]

theorem Segments.cons {size : Nat} {image file : List UInt8}
    {found later : List (LogHeader × List UInt8)} (hpos : 0 < size) (hlen : image.length = size)
    (hread : entryIter image (image.length + 1) 0 = some found) (h : Segments size file later) :
    Segments size (image ++ file) (found ++ later) := by
  intro front fuel hfuel
  obtain ⟨fuel, rfl⟩ : ∃ n, fuel = n + 1 := ⟨fuel - 1, by omega⟩
  rw [List.length_append, hlen] at hfuel
  obtain ⟨images, himages, read, hmap, hflat⟩ := h (front ++ image) fuel (by omega)
  refine ⟨image :: images, ?_, found :: read, ?_, by rw [List.flatten_cons, hflat]⟩
  · rw [List.append_assoc, List.length_append, hlen] at himages
    rw [segmentIter, if_neg (by simp [hlen]; omega), slice_append rfl (by rw [hlen]),
      Option.bind_eq_bind, Option.bind_some, himages]
    rfl
  · rw [List.mapM_cons, hread, hmap]
    rfl

theorem Segments.read {size : Nat} {file : List UInt8} {found : List (LogHeader × List UInt8)}
    (h : Segments size file found) : walReader file size = some found := by
  obtain ⟨images, himages, read, hmap, hflat⟩ := h [] _ (Nat.lt_succ_self _)
  rw [walReader, show segmentIter file size (file.length + 1) 0 = some images from himages]
  simp only [Option.bind_eq_bind, Option.bind_some, hmap, hflat]

/-- The reader goes through the segments of the file, and on through what follows them. -/
theorem FileImage.segments {size lsn : Nat} {es : List WalEntry} {file rest : List UInt8}
    {later : List (LogHeader × List UInt8)} (h : FileImage size lsn es file)
    (hsize : size < 2 ^ 64) (hlsn : lsn + es.length < 2 ^ 64) (hrest : Segments size rest later) :
    Segments size (file ++ rest) (yieldFrom lsn es ++ later) := by
  induction h with
  | nil => exact hrest
  | @cons lsn es es' image file h hne h' ih =>
    rw [List.length_append] at hlsn
    rw [List.append_assoc, yieldFrom_append, List.append_assoc]
    exact .cons (h.size_pos hne) h.1 (h.read hsize (by omega)) (ih (by omega))

theorem FileImage.read {size lsn : Nat} {es : List WalEntry} {file : List UInt8}
    (h : FileImage size lsn es file) (hsize : size < 2 ^ 64)
    (hlsn : lsn + es.length < 2 ^ 64) : walReader file size = some (yieldFrom lsn es) := by
  have := (h.segments hsize hlsn .nil).read
  rwa [List.append_nil, List.append_nil] at this

/-- A file that is not empty begins with the first entry. -/
theorem FileImage.head {size lsn : Nat} {es : List WalEntry} {file : List UInt8}
    (h : FileImage size lsn es file) (hfile : file ≠ []) :
    ∃ e es' rest, es = e :: es' ∧ file = e.bytes lsn ++ rest := by
  cases h with
  | nil => exact absurd rfl hfile
  | @cons _ es es' image file h hne h' =>
    obtain ⟨-, rest, rfl, -⟩ := h
    cases es with
    | nil => exact absurd rfl hne
    | cons e es =>
      refine ⟨e, es ++ es', bytesFrom (lsn + 1) es ++ rest ++ file, rfl, ?_⟩
      rw [bytesFrom, List.append_assoc, List.append_assoc, List.append_assoc]

theorem FileImage.eq_nil {size lsn : Nat} {file : List UInt8} (h : FileImage size lsn [] file) :
    file = [] := by
  by_contra hfile
  obtain ⟨_, _, _, h', -⟩ := h.head hfile
  cases h'

theorem walReader_nil (size : Nat) : walReader [] size = some [] := rfl

end BfTree
