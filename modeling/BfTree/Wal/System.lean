import BfTree.Wal.LogSpec

/-!
# Callers and the flush job

Any number of callers run `append_and_wait` while the background job flushes. Each step
is taken under the mutex of the log.
-/

namespace BfTree

open Lib WalEntry

/-- Where a caller stands in `append_and_wait`. -/
inductive Caller where
  | idle
  | calling (e : WalEntry)
  | waiting (lsn : Nat) (e : WalEntry)
deriving DecidableEq

/-- `entries` is what has been appended so far; no step reads it. -/
structure WalSys where
  log : WriteAheadLogInner
  callers : Nat → Caller
  entries : List WalEntry

inductive WalAction where
  | call (i : Nat) (e : WalEntry)
  | append (i : Nat)
  | wake (i : Nat)
  | flush

namespace WalSys

def new (buffer : List UInt8) : WalSys := ⟨.new buffer, fun _ => .idle, []⟩

def setCaller (s : WalSys) (i : Nat) (c : Caller) : WalSys :=
  { s with callers := Function.update s.callers i c }

@[simp] theorem setCaller_self (s : WalSys) (i : Nat) (c : Caller) :
    (s.setCaller i c).callers i = c := Function.update_self ..

theorem setCaller_of_ne (s : WalSys) {i j : Nat} (c : Caller) (h : j ≠ i) :
    (s.setCaller i c).callers j = s.callers j := Function.update_of_ne h ..

/-- The loop at the end of `append_and_wait`: the number is returned as soon as it counts
as flushed. -/
def await (s : WalSys) (i lsn : Nat) (e : WalEntry) : Option (Nat × WalEntry) × WalSys :=
  if s.log.flushedLsn < lsn then (none, s.setCaller i (.waiting lsn e))
  else (some (lsn, e), s.setCaller i .idle)

/-- One step, with the number and the entry that a caller returns with. The job may be
due for a flush at any time, and a caller may wake up at any time. -/
def step : WalAction → WalSys → Option (Option (Nat × WalEntry) × WalSys)
  | .call i e, s =>
    match s.callers i with
    | .idle => some (none, s.setCaller i (.calling e))
    | _ => none
  | .append i, s =>
    match s.callers i with
    | .calling e => do
        let (lsn, log) ← s.log.append e
        match lsn with
        -- `need_flush` is set, so the wait ends at once and the caller tries again
        | none => some (none, { s with log := log })
        | some lsn => some (await { s with log := log, entries := s.entries ++ [e] } i lsn e)
    | _ => none
  | .wake i, s =>
    match s.callers i with
    | .waiting lsn e => some (await s i lsn e)
    | _ => none
  | .flush, s => some (none, { s with log := s.log.flush })

/-- The states of a log with a new file. -/
inductive Reachable : WalSys → Prop
  | new {buffer : List UInt8} (h : buffer.length < 2 ^ 64) : Reachable (new buffer)
  | step {s s' : WalSys} {a : WalAction} {returned : Option (Nat × WalEntry)} (h : Reachable s)
      (hs : step a s = some (returned, s')) : Reachable s'

end WalSys

/-! ## The log between steps -/

/-- The entries `done` are in closed segments and `cur` is in the buffer. Of the latter,
`written` is in the last segment of the file. -/
structure LogOk (w : WriteAheadLogInner) (done cur written : List WalEntry)
    (closed tail rest : List UInt8) : Prop where
  buffer : w.buffer = bytesFrom done.length cur ++ rest
  cursor : w.bufferCursor = (bytesFrom done.length cur).length
  segments : FileImage w.bufferSize 0 done closed
  offset : w.fileOffset = closed.length
  file : w.file = closed ++ tail
  last : written = [] ∧ tail = [] ∨ written ≠ [] ∧ SegmentImage w.bufferSize done.length written tail
  front : ∃ later, cur = written ++ later
  next : w.nextLsn = done.length + cur.length
  bound : w.nextLsn < 2 ^ 64
  flushed : w.flushedLsn = done.length + written.length - 1
  size : w.bufferSize < 2 ^ 64

/-- Only a flush writes to the file. -/
theorem WriteAheadLogInner.append_frame {w w' : WriteAheadLogInner} {e : WalEntry}
    {lsn : Option Nat} (h : w.append e = some (lsn, w')) :
    w'.file = w.file ∧ w'.flushedLsn = w.flushedLsn := by
  rw [append] at h
  split at h
  · cases h
    exact ⟨rfl, rfl⟩
  · split at h
    · cases h
      exact ⟨rfl, rfl⟩
    · cases h

namespace LogOk

variable {w : WriteAheadLogInner} {done cur written : List WalEntry} {closed tail rest : List UInt8}

theorem new {buffer : List UInt8} (h : buffer.length < 2 ^ 64) :
    LogOk (.new buffer) [] [] [] [] [] buffer where
  buffer := rfl
  cursor := rfl
  segments := .nil
  offset := rfl
  file := rfl
  last := .inl ⟨rfl, rfl⟩
  front := ⟨[], rfl⟩
  next := rfl
  bound := Nat.two_pow_pos 64
  flushed := rfl
  size := h

/-- The file holds the entries that have been written. -/
theorem fileImage (h : LogOk w done cur written closed tail rest) :
    FileImage w.bufferSize 0 (done ++ written) w.file := by
  rw [h.file]
  rcases h.last with ⟨hw, ht⟩ | ⟨hw, ht⟩
  · rw [hw, ht, List.append_nil, List.append_nil]
    exact h.segments
  · refine h.segments.snoc ?_ hw
    rwa [Nat.zero_add]

theorem append (h : LogOk w done cur written closed tail rest) {e : WalEntry} {lsn : Option Nat}
    {w' : WriteAheadLogInner} (hw : w.append e = some (lsn, w')) :
    (lsn = none ∧ LogOk w' done cur written closed tail rest) ∨
    (lsn = some (done.length + cur.length) ∧
      ∃ rest', LogOk w' done (cur ++ [e]) written closed tail rest') := by
  have hsize : w.bufferSize = (bytesFrom done.length cur).length + rest.length := by
    rw [WriteAheadLogInner.bufferSize, h.buffer, List.length_append]
  rw [WriteAheadLogInner.append] at hw
  split at hw
  · cases hw
    exact .inl ⟨rfl, { h with }⟩
  · next hroom =>
    split at hw
    · next hnext =>
      cases hw
      rw [hsize, h.cursor, Nat.add_sub_cancel_left, Nat.not_lt] at hroom
      obtain ⟨later, hlater⟩ := h.front
      refine .inr ⟨by rw [h.next], rest.drop e.requiredBytes, ?_⟩
      have hbuf : writeAt w.buffer w.bufferCursor (e.bytes w.nextLsn) =
          bytesFrom done.length (cur ++ [e]) ++ rest.drop e.requiredBytes := by
        rw [h.buffer, h.cursor, ← List.take_append_drop e.requiredBytes rest,
          writeAt_append rfl (by simp [hroom]), bytesFrom_append, h.next]
        simp [bytesFrom]
      have hlen : (writeAt w.buffer w.bufferCursor (e.bytes w.nextLsn)).length = w.bufferSize := by
        rw [hbuf, hsize, bytesFrom_append]
        simp only [List.length_append, bytesFrom, length_bytes, List.length_drop, List.length_nil]
        omega
      exact {
        buffer := hbuf
        cursor := by
          rw [bytesFrom_append, List.length_append, h.cursor]
          simp [bytesFrom]
        segments := by
          rw [WriteAheadLogInner.bufferSize, hlen]
          exact h.segments
        offset := h.offset
        file := h.file
        last := by
          rw [WriteAheadLogInner.bufferSize, hlen]
          exact h.last
        front := ⟨later ++ [e], by rw [hlater, List.append_assoc]⟩
        next := by
          rw [h.next, List.length_append, List.length_singleton, Nat.add_assoc]
        bound := hnext
        flushed := h.flushed
        size := by
          rw [WriteAheadLogInner.bufferSize, hlen]
          exact h.size }
    · cases hw

/-- The buffer is a segment once the header after its last entry is cleared. -/
theorem clearNextHeader (h : LogOk w done cur written closed tail rest) :
    ∃ rest', LogOk w.clearNextHeader done cur written closed tail rest' ∧
      SegmentImage w.bufferSize done.length cur w.clearNextHeader.buffer := by
  have hsize : w.bufferSize = (bytesFrom done.length cur).length + rest.length := by
    rw [WriteAheadLogInner.bufferSize, h.buffer, List.length_append]
  rw [WriteAheadLogInner.clearNextHeader]
  split
  · next hroom =>
    rw [h.cursor, hsize] at hroom
    have hbuf : writeAt w.buffer w.bufferCursor (List.replicate 8 0) =
        bytesFrom done.length cur ++ (List.replicate 8 0 ++ rest.drop 8) := by
      rw [h.buffer, h.cursor]
      conv_lhs => rw [← List.take_append_drop 8 rest]
      refine writeAt_append rfl ?_
      rw [List.length_replicate, List.length_take]
      omega
    have hlen : (writeAt w.buffer w.bufferCursor (List.replicate 8 0)).length = w.bufferSize := by
      rw [hbuf, hsize]
      simp only [List.length_append, List.length_replicate, List.length_drop]
      omega
    refine ⟨List.replicate 8 0 ++ rest.drop 8, ?_, hlen, _, hbuf, fun _ => rfl⟩
    exact { h with
      buffer := hbuf
      segments := by
        rw [WriteAheadLogInner.bufferSize, hlen]
        exact h.segments
      last := by
        rw [WriteAheadLogInner.bufferSize, hlen]
        exact h.last
      size := by
        rw [WriteAheadLogInner.bufferSize, hlen]
        exact h.size }
  · next hroom =>
    rw [h.cursor, hsize] at hroom
    exact ⟨rest, h, rfl, rest, h.buffer, fun h8 => absurd h8 (by omega)⟩

/-- The last segment of the file is there as a whole or not at all. -/
theorem length_tail (h : LogOk w done cur written closed tail rest) :
    tail = [] ∨ tail.length = w.buffer.length := by
  rcases h.last with ⟨-, ht⟩ | ⟨-, ht⟩
  · exact .inl ht
  · exact .inr ht.1

/-- A write at the offset of the log replaces the last segment. -/
theorem writeAt_file (h : LogOk w done cur written closed tail rest) :
    writeAt w.file w.fileOffset w.buffer = closed ++ w.buffer := by
  rw [h.file, h.offset, writeAt_front]
  rcases h.length_tail with ht | ht
  · rw [ht, List.drop_nil, List.append_nil]
  · rw [← ht, List.drop_length, List.append_nil]

/-- A flush writes everything that has been appended. -/
theorem flush (h : LogOk w done cur written closed tail rest) :
    ∃ done' cur' closed' tail' rest',
      LogOk w.flush done' cur' cur' closed' tail' rest' ∧ done' ++ cur' = done ++ cur := by
  rw [WriteAheadLogInner.flush]
  split
  · next hcur =>
    have hnil : cur = [] := by
      have hle := length_le_bytesFrom done.length cur
      rw [← h.cursor, hcur] at hle
      exact List.length_eq_zero_iff.1 (Nat.le_zero.1 hle)
    obtain ⟨later, hlater⟩ := h.front
    have hwritten : written = cur := by
      rw [hnil] at hlater ⊢
      exact (List.append_eq_nil_iff.1 hlater.symm).1
    exact ⟨done, cur, closed, tail, rest, hwritten ▸ h, rfl⟩
  · next hcur =>
    obtain ⟨rest', hok, himage⟩ := h.clearNextHeader
    have hsame : w.clearNextHeader.bufferCursor = w.bufferCursor ∧
        w.clearNextHeader.nextLsn = w.nextLsn := by
      rw [WriteAheadLogInner.clearNextHeader]
      split <;> exact ⟨rfl, rfl⟩
    have hne : cur ≠ [] := by
      rintro rfl
      exact hcur h.cursor
    generalize w.clearNextHeader = w' at hok himage hsame
    have hsize : w'.buffer.length = w.bufferSize := himage.1
    have hfile := hok.writeAt_file
    simp only [hfile, WriteAheadLogInner.advance]
    split
    · exact ⟨done, cur, closed, w'.buffer, rest', { hok with
        file := rfl
        last := by
          rw [← hsize] at himage
          exact .inr ⟨hne, himage⟩
        front := ⟨[], (List.append_nil _).symm⟩
        flushed := by
          show w'.nextLsn - 1 = _
          rw [hok.next] }, rfl⟩
    · refine ⟨done ++ cur, [], closed ++ w'.buffer, [], w'.buffer, ?_, List.append_nil _⟩
      have hlen : (done ++ cur).length = done.length + cur.length := List.length_append
      exact {
        buffer := rfl
        cursor := rfl
        segments := by
          refine hok.segments.snoc ?_ hne
          rw [Nat.zero_add]
          rwa [← hsize] at himage
        offset := by
          show w'.fileOffset + w'.buffer.length = _
          rw [hok.offset, List.length_append]
        file := by rw [List.append_nil]
        last := .inl ⟨rfl, rfl⟩
        front := ⟨[], rfl⟩
        next := by rw [hlen]; exact hok.next
        bound := hok.bound
        flushed := by
          show w'.nextLsn - 1 = _
          rw [hok.next, hlen]
          rfl
        size := hok.size }

end LogOk

/-! ## Runs -/

namespace WalSys

/-- Between steps the log is well formed, and a caller waits for its own entry. -/
def Inv (s : WalSys) : Prop :=
  (∃ done cur written closed tail rest, LogOk s.log done cur written closed tail rest ∧
    s.entries = done ++ cur) ∧
  ∀ i lsn e, s.callers i = .waiting lsn e → 0 < lsn ∧ s.entries[lsn]? = some e

theorem new_inv {buffer : List UInt8} (h : buffer.length < 2 ^ 64) : (new buffer).Inv :=
  ⟨⟨[], [], [], [], [], buffer, .new h, rfl⟩, fun _ _ _ hi => by cases hi⟩

theorem Inv.setCaller {s : WalSys} (h : s.Inv) (i : Nat) {c : Caller}
    (hc : ∀ lsn e, c = .waiting lsn e → 0 < lsn ∧ s.entries[lsn]? = some e) :
    (s.setCaller i c).Inv := by
  refine ⟨h.1, fun j lsn e hj => ?_⟩
  by_cases hji : j = i
  · subst hji
    rw [setCaller_self] at hj
    exact hc lsn e hj
  · rw [setCaller_of_ne s c hji] at hj
    exact h.2 j lsn e hj

theorem Inv.await {s : WalSys} (h : s.Inv) {i lsn : Nat} {e : WalEntry}
    (he : s.entries[lsn]? = some e) : (await s i lsn e).2.Inv := by
  rw [WalSys.await]
  split
  · next hlt =>
    refine h.setCaller i fun lsn' e' heq => ?_
    cases heq
    exact ⟨by omega, he⟩
  · exact h.setCaller i fun _ _ heq => by cases heq

theorem Inv.append {s : WalSys} (h : s.Inv) {e : WalEntry} {log : WriteAheadLogInner} {lsn : Nat}
    (hap : s.log.append e = some (some lsn, log)) :
    Inv { s with log := log, entries := s.entries ++ [e] } ∧ lsn = s.entries.length := by
  obtain ⟨⟨done, cur, written, closed, tail, rest, hlog, hent⟩, hwait⟩ := h
  have hlen : s.entries.length = done.length + cur.length := by rw [hent, List.length_append]
  rcases hlog.append hap with ⟨heq, -⟩ | ⟨heq, rest', hok⟩
  · cases heq
  · refine ⟨⟨⟨done, _, written, closed, tail, rest', hok, ?_⟩, fun j lsn' e' hj => ?_⟩, ?_⟩
    · rw [hent, List.append_assoc]
    · obtain ⟨hpos, hget⟩ := hwait j lsn' e' hj
      exact ⟨hpos, List.getElem?_append_left (List.getElem?_eq_some_iff.mp hget).1 ▸ hget⟩
    · rw [hlen]
      exact Option.some.inj heq

/-- One step keeps the log well formed. -/
theorem step_inv {s s' : WalSys} {a : WalAction} {returned : Option (Nat × WalEntry)} (h : s.Inv)
    (hs : step a s = some (returned, s')) : s'.Inv := by
  obtain ⟨⟨done, cur, written, closed, tail, rest, hlog, hent⟩, hwait⟩ := id h
  cases a with
  | call i e =>
    simp only [step] at hs
    split at hs
    · cases hs
      exact h.setCaller i fun _ _ heq => by cases heq
    · cases hs
  | append i =>
    simp only [step] at hs
    split at hs
    · next e he =>
      obtain ⟨⟨lsn, log⟩, hap, hs⟩ := Option.bind_eq_some_iff.mp hs
      cases lsn with
      | none =>
        cases hs
        rcases hlog.append hap with ⟨-, hok⟩ | ⟨heq, -⟩
        · exact ⟨⟨done, cur, written, closed, tail, rest, hok, hent⟩, hwait⟩
        · cases heq
      | some lsn =>
        obtain ⟨hinv, rfl⟩ := h.append hap
        have := hinv.await (i := i) List.getElem?_concat_length
        rwa [Option.some.inj hs] at this
    · cases hs
  | wake i =>
    simp only [step] at hs
    split at hs
    · next lsn e he =>
      have := h.await (i := i) (hwait i lsn e he).2
      rwa [Option.some.inj hs] at this
    · cases hs
  | flush =>
    cases hs
    obtain ⟨done', cur', closed', tail', rest', hok, heq⟩ := hlog.flush
    exact ⟨⟨done', cur', cur', closed', tail', rest', hok, hent.trans heq.symm⟩, hwait⟩

theorem Reachable.inv {s : WalSys} (h : Reachable s) : s.Inv := by
  induction h with
  | new hb => exact new_inv hb
  | step _ hs ih => exact step_inv ih hs

/-- The reader finds the entries up to the last one that counts as flushed. -/
theorem Inv.read {s : WalSys} (h : s.Inv) : ∃ n ≤ s.entries.length, s.log.flushedLsn = n - 1 ∧
    walReader s.log.file s.log.bufferSize = some (yieldFrom 0 (s.entries.take n)) ∧
    FileImage s.log.bufferSize 0 (s.entries.take n) s.log.file := by
  obtain ⟨⟨done, cur, written, closed, tail, rest, hlog, hent⟩, -⟩ := h
  obtain ⟨later, rfl⟩ := hlog.front
  have htake : s.entries.take (done.length + written.length) = done ++ written := by
    rw [hent, ← List.append_assoc, ← List.length_append, List.take_left]
  have himage := hlog.fileImage
  have hnext := hlog.next
  have hbound := hlog.bound
  rw [List.length_append] at hnext
  refine ⟨done.length + written.length, ?_, hlog.flushed, ?_, by rwa [htake]⟩
  · rw [hent, List.length_append, List.length_append]
    omega
  · rw [htake]
    refine himage.read hlog.size ?_
    rw [List.length_append]
    omega

/-- The steps of a run, with what the callers return. -/
def run : List WalAction → WalSys → Option (List (Nat × WalEntry) × WalSys)
  | [], s => some ([], s)
  | a :: as, s => do
      let (returned, s) ← step a s
      let (more, s) ← run as s
      some (returned.toList ++ more, s)

theorem Reachable.run {as : List WalAction} {s s' : WalSys} {returned : List (Nat × WalEntry)}
    (h : Reachable s) (hr : run as s = some (returned, s')) : Reachable s' := by
  induction as generalizing s returned with
  | nil =>
    cases hr
    exact h
  | cons a as ih =>
    simp only [WalSys.run, Option.bind_eq_bind, Option.bind_eq_some_iff] at hr
    obtain ⟨⟨r, s₁⟩, hs, ⟨rs, s₂⟩, hrun, heq⟩ := hr
    cases heq
    exact ih (h.step hs) hrun

theorem await_returns {s : WalSys} {i lsn : Nat} {e : WalEntry}
    {returned : Nat × WalEntry} {s' : WalSys} (hs : await s i lsn e = (some returned, s')) :
    returned = (lsn, e) ∧ s'.log = s.log ∧ lsn ≤ s.log.flushedLsn := by
  rw [await] at hs
  split at hs
  · cases (Prod.mk.inj hs).1
  · next hlt =>
    obtain ⟨h1, rfl⟩ := Prod.mk.inj hs
    exact ⟨(Option.some.inj h1).symm, rfl, Nat.not_lt.1 hlt⟩

end WalSys

end BfTree
