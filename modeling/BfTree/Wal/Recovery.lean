import BfTree.Client
import BfTree.Wal.System

/-!
# Replay of the log

`write_inner` logs write operations without a tag, in segments of the configured size.
`recovery` expects tagged entries in segments of 4096 bytes, and inserts whatever it
finds. A log that holds anything ends in a panic.
-/

namespace BfTree

open Lib WalEntry Tree

/-- The operations that `write_inner` logs are accepted inserts and deletes. -/
def WriteOp.accepted (cfg : Config) (op : WriteOp) : Bool :=
  match op.opType with
  | .insert => validRecord cfg op.key op.value
  | .delete => validKey cfg op.key && op.value = []
  | _ => false

/-- What a logged operation did to the map. -/
def WriteOp.apply (cfg : Config) (S : Key → Option Value) (op : WriteOp) : Key → Option Value :=
  match op.opType with
  | .delete => (Call.delete [] op.key).apply cfg S
  | _ => (Call.insert [] op.key op.value).apply cfg S

/-- The recovery loop, on a tree that holds the map `S`; `none` is a panic. -/
def recovery (cfg : Config) (file : List UInt8) (S : Key → Option Value) :
    Option (Key → Option Value) :=
  (recoverOps file).map fun ops =>
    ops.foldl (fun S op => (Call.insert [] op.key op.value).apply cfg S) S

namespace WriteOp

variable {cfg : Config} {op : WriteOp}

theorem accepted_bounds (h : op.accepted cfg = true) :
    op.key ≠ [] ∧ op.key.length ≤ maxKeyLen ∧ op.value.length ≤ maxValueLen ∧
      op.opType.toByte.toNat ≤ 1 := by
  rw [accepted] at h
  split at h
  · next hop =>
    simp only [validRecord, validKey, Bool.and_eq_true, Bool.not_eq_true', Bool.or_eq_false_iff,
      decide_eq_false_iff_not, decide_eq_true_eq] at h
    exact ⟨h.1.1.2, by omega, by omega, by rw [hop]; decide⟩
  · next hop =>
    simp only [validKey, Bool.and_eq_true, Bool.not_eq_true', Bool.or_eq_false_iff,
      decide_eq_false_iff_not, decide_eq_true_eq] at h
    refine ⟨h.1.2, by omega, ?_, by rw [hop]; decide⟩
    rw [h.2]
    exact Nat.zero_le _
  · cases h

/-- Read one byte late, the lengths do not add up. -/
theorem readFromBuffer_shifted (h : op.accepted cfg = true)
    (htag : UInt8.ofNat op.key.length = 0) : readFromBuffer (op.writeToBuffer.drop 1) = none := by
  obtain ⟨hne, hkey, hvalue, hop⟩ := accepted_bounds h
  have hk : op.key.length % 256 = 0 := by
    have := congrArg UInt8.toNat htag
    simpa using this
  have hbuf : op.writeToBuffer.drop 1 = [UInt8.ofNat (op.key.length / 256),
      UInt8.ofNat op.value.length, UInt8.ofNat (op.value.length / 256), op.opType.toByte] ++
      (op.key ++ op.value) := rfl
  rw [hbuf, readFromBuffer]
  have h0 : slice ([UInt8.ofNat (op.key.length / 256), UInt8.ofNat op.value.length,
      UInt8.ofNat (op.value.length / 256), op.opType.toByte] ++ (op.key ++ op.value)) 0 2 =
      some [UInt8.ofNat (op.key.length / 256), UInt8.ofNat op.value.length] := by
    rw [slice, if_pos ⟨by omega, by simp⟩]
    rfl
  have h2 : slice ([UInt8.ofNat (op.key.length / 256), UInt8.ofNat op.value.length,
      UInt8.ofNat (op.value.length / 256), op.opType.toByte] ++ (op.key ++ op.value)) 2 4 =
      some [UInt8.ofNat (op.value.length / 256), op.opType.toByte] := by
    rw [slice, if_pos ⟨by omega, by simp⟩]
    rfl
  simp only [h0, h2, Option.bind_eq_bind, Option.bind_some, Option.bind_eq_none_iff]
  intro b _ opType _ key hkeySlice value hvalueSlice
  rw [if_neg]
  intro hlen
  obtain ⟨hle, -, hlen'⟩ := length_of_slice hvalueSlice
  rw [hlen'] at hlen
  simp only [ofLE, List.length_append, List.length_cons, List.length_nil,
    UInt8.toNat_ofNat'] at hlen hle
  simp only [maxKeyLen, maxValueLen] at hkey hvalue
  rw [Nat.mod_eq_of_lt (show op.key.length / 256 < 2 ^ 8 by omega)] at hlen hle
  rw [Nat.mod_eq_of_lt (show op.value.length / 256 < 2 ^ 8 by omega)] at hlen
  -- 255 would divide one more than 256 times the operation type
  have hdvd : 255 * (op.key.length / 256 + op.value.length / 256) =
      255 * (op.value.length % 2 ^ 8) + 256 * op.opType.toByte.toNat + 1 := by omega
  omega

/-- No logged operation can be read as a tagged entry. -/
theorem recoverEntry_writeToBuffer (h : op.accepted cfg = true) :
    recoverEntry op.writeToBuffer = none := by
  have htag : op.writeToBuffer[0]? = some (UInt8.ofNat op.key.length) := rfl
  rw [recoverEntry, LogEntry.readFromBuffer, htag]
  simp only [Option.bind_eq_bind, Option.bind_some]
  split
  · next h0 =>
    rw [readFromBuffer_shifted h h0]
    rfl
  · split <;> rfl

end WriteOp

/-- The first entry that a reader with another segment size finds is the first one. -/
theorem entryIter_head {e : WalEntry} {rest : List UInt8} {size fuel : Nat}
    {found : List (LogHeader × List UInt8)} (hreq : e.requiredBytes < 2 ^ 64)
    (hsize : LogHeader.size < size) (hlen : size ≤ (e.bytes 0 ++ rest).length)
    (h : entryIter ((e.bytes 0 ++ rest).take size) fuel 0 = some found) :
    ∃ more, found = (e.header 0, e.op.writeToBuffer) :: more := by
  cases fuel with
  | zero => cases h
  | succ fuel =>
    have hlen' : ((e.bytes 0 ++ rest).take size).length = size := by
      rw [List.length_take]
      omega
    have hheader : LogHeader.fromSlice (((e.bytes 0 ++ rest).take size).drop 0) =
        some (e.header 0) := by
      rw [List.drop_zero, bytes, List.append_assoc, List.take_append, List.take_of_length_le
        (by rw [LogHeader.length_asSlice]; omega)]
      exact LogHeader.fromSlice_asSlice _ hreq (Nat.two_pow_pos 64) (UInt64.toNat_lt _) _
    have hzero : (e.header 0).logLen ≠ 0 := by
      have := e.size_lt
      simp only [header]
      omega
    rw [entryIter, if_neg (by omega), hheader] at h
    simp only [Option.bind_eq_bind, Option.bind_some, hzero, if_false,
      Option.bind_eq_some_iff] at h
    obtain ⟨data, hdata, more, -, heq⟩ := h
    refine ⟨more, ?_⟩
    rw [← Option.some.inj heq]
    have hfits : (e.bytes 0).length ≤ size := by
      have := (length_of_slice hdata).2.1
      rw [hlen', Nat.zero_add] at this
      rwa [length_bytes]
    rw [List.take_append, List.take_of_length_le hfits, bytes, List.append_assoc,
      slice_append (by simp) (by simp [header, requiredBytes])] at hdata
    rw [← Option.some.inj hdata]

/-- Recovery from a log that begins with an accepted operation panics. -/
theorem recoverOps_eq_none {cfg : Config} {e : WalEntry} {rest : List UInt8}
    (h : e.op.accepted cfg = true) : recoverOps (e.bytes 0 ++ rest) = none := by
  rw [recoverOps, walReader]
  simp only [Option.bind_eq_bind, Option.bind_eq_none_iff]
  intro found hread
  have hreq : e.requiredBytes < 2 ^ 64 := by
    obtain ⟨-, hkey, hvalue, -⟩ := WriteOp.accepted_bounds h
    simp only [maxKeyLen, maxValueLen] at hkey hvalue
    simp only [requiredBytes, LogHeader.size, WriteOp.logSize]
    omega
  obtain ⟨segments, hsegments, hread⟩ := Option.bind_eq_some_iff.mp hread
  obtain ⟨entries, hentries, hfound⟩ := Option.bind_eq_some_iff.mp hread
  cases hfound
  have hne : ¬(e.bytes 0 ++ rest).length ≤ 0 := by
    have := e.size_lt
    rw [List.length_append, length_bytes]
    omega
  rw [segmentIter, if_neg hne, slice] at hsegments
  split at hsegments
  · next hlen =>
    simp only [Option.bind_eq_bind, Option.bind_some, Option.bind_eq_some_iff] at hsegments
    obtain ⟨later, -, hcons⟩ := hsegments
    cases hcons
    rw [List.mapM_cons] at hentries
    obtain ⟨first, hfirst, hentries⟩ := Option.bind_eq_some_iff.mp hentries
    obtain ⟨others, -, hentries⟩ := Option.bind_eq_some_iff.mp hentries
    cases hentries
    obtain ⟨more, rfl⟩ := entryIter_head hreq (by decide) (by simpa using hlen.2) hfirst
    rw [List.flatten_cons, List.cons_append, List.mapM_cons,
      WriteOp.recoverEntry_writeToBuffer h]
    rfl
  · cases hsegments

namespace WalSys

/-- Recovery agrees with what was logged only if nothing was. -/
theorem recovery_agrees_iff {cfg : Config} {s : WalSys} (h : Reachable s)
    (hacc : ∀ e ∈ s.entries, e.op.accepted cfg = true) :
    (recoverOps s.log.file = some (s.entries.map (·.op)) ∧
      ∀ S, recovery cfg s.log.file S = some ((s.entries.map (·.op)).foldl (WriteOp.apply cfg) S)) ↔
    s.entries = [] := by
  obtain ⟨n, hn, -, -, himage⟩ := h.inv.read
  constructor
  · rintro ⟨hops, -⟩
    by_cases hfile : s.log.file = []
    · rw [hfile] at hops
      exact List.map_eq_nil_iff.1 (Option.some.inj hops).symm
    · obtain ⟨e, es, rest, heq, hbytes⟩ := himage.head hfile
      have hmem : e ∈ s.entries := List.mem_of_mem_take (heq ▸ List.mem_cons_self)
      rw [hbytes, recoverOps_eq_none (hacc e hmem)] at hops
      cases hops
  · intro hnil
    rw [hnil, List.take_nil] at himage
    rw [hnil, himage.eq_nil]
    exact ⟨rfl, fun _ => rfl⟩

theorem recovery_agrees_nothing_logged : ∃ s, Reachable s ∧ s.entries = [] ∧
    ∀ S, recovery .default s.log.file S = some S := by
  have hsize : (List.replicate 4096 (0 : UInt8)).length < 2 ^ 64 := by
    rw [List.length_replicate]
    omega
  have hreach := Reachable.new hsize
  have hnone : ∀ e ∈ (new (List.replicate 4096 0)).entries, e.op.accepted .default = true := nofun
  exact ⟨_, hreach, rfl, ((recovery_agrees_iff hreach hnone).2 rfl).2⟩

/-- One insert, flushed into a segment of the size that recovery reads: recovery panics. -/
theorem recovery_panics_on_insert :
    WriteOp.accepted .default (.makeInsert [1, 2, 3] [4]) = true ∧
    (run [.call 0 ⟨.makeInsert [1, 2, 3] [4], 0⟩, .append 0, .flush]
      (new (List.replicate 4096 0))).map (fun r => (r.2.entries, recoverOps r.2.log.file)) =
      some ([⟨.makeInsert [1, 2, 3] [4], 0⟩], none) := by
  decide +kernel

end WalSys

end BfTree
