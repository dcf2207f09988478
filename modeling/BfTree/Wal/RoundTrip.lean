import BfTree.Wal.System

/-!
# Reading the log back

What a reader finds after the last flush: on a new file, the entries that were
appended; on a file that an earlier log has written, the new entries over the first
segments and the rest of the old file behind them, since a log starts at offset and
number zero whatever the file holds.
-/

namespace BfTree

open Lib WalEntry

/-! ## Operations -/

theorem OpType.ofByte_toByte (op : OpType) : ofByte op.toByte = some op := by
  cases op <;> rfl

/-- The lengths are stored in 16 bits. -/
def WriteOp.Storable (op : WriteOp) : Prop := op.key.length < 2 ^ 16 ∧ op.value.length < 2 ^ 16

instance (op : WriteOp) : Decidable op.Storable := inferInstanceAs (Decidable (_ ∧ _))

/-- What was written is read back if its lengths could be stored, else the check of the
value length fails. -/
theorem WriteOp.readFromBuffer_writeToBuffer (op : WriteOp) :
    readFromBuffer op.writeToBuffer = if op.Storable then some op else none := by
  obtain ⟨key, value, opType⟩ := op
  have h0 : slice (writeToBuffer ⟨key, value, opType⟩) 0 2 = some (toLE 2 key.length) :=
    slice_append (A := []) (B := toLE 2 key.length) rfl (by simp)
  have h2 : slice (writeToBuffer ⟨key, value, opType⟩) 2 4 = some (toLE 2 value.length) :=
    slice_append (by simp) (by simp)
  have h4 : (writeToBuffer ⟨key, value, opType⟩)[4]? = some opType.toByte := rfl
  have hlen : (writeToBuffer ⟨key, value, opType⟩).length = 5 + key.length + value.length := by
    rw [length_writeToBuffer, logSize]
  have hdrop : (writeToBuffer ⟨key, value, opType⟩).drop 5 = key ++ value := rfl
  have hkey : ofLE (toLE 2 key.length) = key.length % 2 ^ 16 := ofLE_toLE 2 _
  have hvalue : ofLE (toLE 2 value.length) = value.length % 2 ^ 16 := ofLE_toLE 2 _
  have hmod : key.length % 2 ^ 16 ≤ key.length := Nat.mod_le _ _
  rw [readFromBuffer, h0, h2, h4]
  simp only [Option.bind_eq_bind, Option.bind_some, OpType.ofByte_toByte, hkey, hvalue, hlen]
  rw [slice, if_pos ⟨Nat.le_add_right _ _, by omega⟩, slice, if_pos ⟨by omega, by omega⟩]
  simp only [Option.bind_some, ← List.drop_drop, hdrop]
  by_cases hs : Storable ⟨key, value, opType⟩
  · obtain ⟨hk, hv⟩ := id hs
    simp only at hk hv
    have hrest : 5 + key.length + value.length - (5 + key.length) = value.length := by omega
    rw [if_pos hs, Nat.mod_eq_of_lt hk, Nat.mod_eq_of_lt hv, hrest]
    simp
  · rw [if_neg hs, if_neg]
    intro hlen'
    rw [List.length_take, List.length_drop, List.length_append] at hlen'
    exact hs ⟨by simp only; omega, by simp only; omega⟩

/-! ## A new file -/

namespace WalEntry

theorem yieldFrom_headers (lsn : Nat) (es : List WalEntry) :
    (yieldFrom lsn es).map (·.1) = es.mapIdx fun i e => e.header (lsn + i) := by
  induction es generalizing lsn with
  | nil => rfl
  | cons e es ih =>
    rw [yieldFrom, List.map_cons, ih, List.mapIdx_cons]
    simp only [Nat.add_zero, Nat.add_assoc, Nat.add_comm 1]

theorem yieldFrom_payloads (lsn : Nat) (es : List WalEntry) :
    (yieldFrom lsn es).map (·.2) = es.map (·.op.writeToBuffer) := by
  induction es generalizing lsn with
  | nil => rfl
  | cons e es ih => rw [yieldFrom, List.map_cons, ih, List.map_cons]

theorem yieldFrom_ops (lsn : Nat) {es : List WalEntry} (h : ∀ e ∈ es, e.op.Storable) :
    (yieldFrom lsn es).mapM (fun entry => WriteOp.readFromBuffer entry.2) =
      some (es.map (·.op)) := by
  induction es generalizing lsn with
  | nil => rfl
  | cons e es ih =>
    rw [yieldFrom, List.mapM_cons, WriteOp.readFromBuffer_writeToBuffer,
      if_pos (h e List.mem_cons_self), ih (lsn + 1) fun e he => h e (List.mem_cons_of_mem _ he)]
    rfl

@[simp] theorem length_yieldFrom (lsn : Nat) (es : List WalEntry) :
    (yieldFrom lsn es).length = es.length := by
  have := congrArg List.length (yieldFrom_headers lsn es)
  simpa using this

end WalEntry

namespace WriteAheadLogInner

@[simp] theorem clearNextHeader_bufferSize (w : WriteAheadLogInner) :
    w.clearNextHeader.bufferSize = w.bufferSize := by
  rw [clearNextHeader]
  split
  · exact length_writeAt ‹_›
  · rfl

theorem flush_bufferSize (w : WriteAheadLogInner) : w.flush.bufferSize = w.bufferSize := by
  rw [flush]
  split
  · rfl
  · simp only [advance]
    split <;> exact w.clearNextHeader_bufferSize

theorem append_bufferSize {w w' : WriteAheadLogInner} {e : WalEntry} {lsn : Option Nat}
    (hcursor : w.bufferCursor ≤ w.bufferSize) (h : w.append e = some (lsn, w')) :
    w'.bufferSize = w.bufferSize := by
  rw [append] at h
  split at h
  · cases h
    rfl
  · next hroom =>
    split at h
    · cases h
      refine length_writeAt ?_
      rw [length_bytes]
      rw [bufferSize] at hroom hcursor
      omega
    · cases h

/-- An entry that fits gets the next number. -/
theorem append_of_room {w : WriteAheadLogInner} {e : WalEntry}
    (hroom : w.bufferCursor + e.requiredBytes ≤ w.bufferSize) (hlsn : w.nextLsn + 1 < 2 ^ 64) :
    ∃ w', w.append e = some (some w.nextLsn, w') ∧ w'.bufferSize = w.bufferSize := by
  rw [append, if_neg (by omega), if_pos hlsn]
  refine ⟨_, rfl, length_writeAt ?_⟩
  rw [length_bytes]
  exact hroom

end WriteAheadLogInner

namespace WalSys

variable {s s₀ : WalSys}

/-- After a flush the file holds all entries. -/
theorem Inv.fileImage_flush (h : s.Inv) :
    FileImage s.log.bufferSize 0 s.entries s.log.flush.file ∧
      s.log.bufferSize < 2 ^ 64 ∧ s.entries.length < 2 ^ 64 := by
  obtain ⟨⟨done, cur, written, closed, tail, rest, hlog, hent⟩, -⟩ := h
  obtain ⟨done', cur', closed', tail', rest', hok, heq⟩ := hlog.flush
  have hbound := hlog.bound
  rw [hlog.next, ← List.length_append, ← hent] at hbound
  refine ⟨?_, hlog.size, hbound⟩
  rw [hent, ← heq, ← s.log.flush_bufferSize]
  exact hok.fileImage

theorem await_frame (s : WalSys) (i lsn : Nat) (e : WalEntry) :
    (await s i lsn e).2.log = s.log ∧ (await s i lsn e).2.entries = s.entries := by
  rw [await]
  split <;> exact ⟨rfl, rfl⟩

/-- One caller appends an entry that fits. -/
theorem Reachable.call_append (h : Reachable s) {i : Nat} (hi : s.callers i = .idle) {e : WalEntry}
    (hroom : s.log.bufferCursor + e.requiredBytes ≤ s.log.bufferSize)
    (hlsn : s.log.nextLsn + 1 < 2 ^ 64) :
    ∃ s', Reachable s' ∧ s'.entries = s.entries ++ [e] ∧ s'.log.bufferSize = s.log.bufferSize := by
  obtain ⟨log, happ, hsize⟩ := WriteAheadLogInner.append_of_room hroom hlsn
  have hcall : WalSys.step (.call i e) s = some (none, s.setCaller i (.calling e)) := by
    simp only [WalSys.step, hi]
  obtain ⟨hlog, hent⟩ := await_frame { s.setCaller i (.calling e) with
    log := log, entries := s.entries ++ [e] } i s.log.nextLsn e
  rcases hres : await { s.setCaller i (.calling e) with
    log := log, entries := s.entries ++ [e] } i s.log.nextLsn e with ⟨returned, s'⟩
  rw [hres] at hlog hent
  have hstep : WalSys.step (.append i) (s.setCaller i (.calling e)) = some (returned, s') := by
    simp only [WalSys.step, setCaller, Function.update_self, happ, Option.bind_eq_bind,
      Option.bind_some]
    exact congrArg some hres
  refine ⟨s', (h.step hcall).step hstep, hent, ?_⟩
  rw [← hsize]
  exact congrArg _ hlog

end WalSys

namespace WriteAheadLogInner

variable {w : WriteAheadLogInner} {old : List UInt8}

/-- `WriteAheadLog::new` on a file that exists: it is not truncated, and everything else
is as for a new file. -/
def openOn (file buffer : List UInt8) : WriteAheadLogInner := { new buffer with file := file }

/-- The same log with its file over the front of an older one. -/
def overOld (old : List UInt8) (w : WriteAheadLogInner) : WriteAheadLogInner :=
  { w with file := w.file ++ old.drop w.file.length }

theorem append_over (e : WalEntry) :
    (w.overOld old).append e = (w.append e).map fun r => (r.1, r.2.overOld old) := by
  have hsame : (w.overOld old).bufferSize = w.bufferSize ∧
      (w.overOld old).bufferCursor = w.bufferCursor ∧ (w.overOld old).nextLsn = w.nextLsn :=
    ⟨rfl, rfl, rfl⟩
  simp only [append, hsame]
  by_cases hroom : w.bufferSize - w.bufferCursor < e.requiredBytes
  · simp only [if_pos hroom]
    rfl
  · simp only [if_neg hroom]
    by_cases hlsn : w.nextLsn + 1 < 2 ^ 64
    · simp only [if_pos hlsn]
      rfl
    · simp only [if_neg hlsn]
      rfl

theorem clearNextHeader_over : (w.overOld old).clearNextHeader = w.clearNextHeader.overOld old := by
  have hsame : (w.overOld old).bufferSize = w.bufferSize ∧
      (w.overOld old).bufferCursor = w.bufferCursor := ⟨rfl, rfl⟩
  simp only [clearNextHeader, hsame]
  split <;> rfl

theorem advance_over : (w.overOld old).advance = w.advance.overOld old := by
  have hsame : (w.overOld old).shouldInplaceFlush = w.shouldInplaceFlush := rfl
  simp only [advance, hsame]
  split <;> rfl

end WriteAheadLogInner

/-- Whole segments are written, so the older file shows behind the new one as before. -/
theorem LogOk.writeAt_over {w : WriteAheadLogInner} {done cur written : List WalEntry}
    {closed tail rest : List UInt8} (h : LogOk w done cur written closed tail rest)
    (old : List UInt8) :
    writeAt (w.overOld old).file w.fileOffset w.buffer =
      closed ++ w.buffer ++ old.drop (closed ++ w.buffer).length := by
  show writeAt (w.file ++ old.drop w.file.length) w.fileOffset w.buffer = _
  rw [h.file, h.offset, List.append_assoc, writeAt_front, List.length_append, List.length_append]
  rcases h.length_tail with ht | ht
  · rw [ht, List.nil_append, List.length_nil, Nat.add_zero, List.drop_drop]
  · rw [← ht, List.drop_left]

theorem LogOk.flush_over {w : WriteAheadLogInner} {done cur written : List WalEntry}
    {closed tail rest : List UInt8} (h : LogOk w done cur written closed tail rest)
    (old : List UInt8) : (w.overOld old).flush = w.flush.overOld old := by
  have hcursor : (w.overOld old).bufferCursor = w.bufferCursor := rfl
  simp only [WriteAheadLogInner.flush, hcursor, WriteAheadLogInner.clearNextHeader_over]
  split
  · rfl
  · obtain ⟨rest', hok, -⟩ := h.clearNextHeader
    have hnew := hok.writeAt_file
    have hover := hok.writeAt_over old
    generalize w.clearNextHeader = w' at hnew hover
    have hwrite : { w'.overOld old with
          file := writeAt (w'.overOld old).file (w'.overOld old).fileOffset (w'.overOld old).buffer } =
        WriteAheadLogInner.overOld old { w' with
          file := writeAt w'.file w'.fileOffset w'.buffer } := by
      show { w'.overOld old with file := writeAt (w'.overOld old).file w'.fileOffset w'.buffer } = _
      rw [hover, hnew]
      rfl
    rw [hwrite, WriteAheadLogInner.advance_over]
    rfl

namespace WalSys

variable {s s' : WalSys} {old : List UInt8}

def openOn (file buffer : List UInt8) : WalSys := ⟨.openOn file buffer, fun _ => .idle, []⟩

def overOld (old : List UInt8) (s : WalSys) : WalSys := { s with log := s.log.overOld old }

theorem await_over (i lsn : Nat) (e : WalEntry) :
    await (s.overOld old) i lsn e = ((await s i lsn e).1, (await s i lsn e).2.overOld old) := by
  have hsame : (s.overOld old).log.flushedLsn = s.log.flushedLsn := rfl
  simp only [await, hsame]
  split <;> rfl

/-- A log over an older file takes the same steps. -/
theorem Inv.step_over (h : s.Inv) (a : WalAction) :
    step a (s.overOld old) = (step a s).map fun r => (r.1, r.2.overOld old) := by
  have hsame : (s.overOld old).callers = s.callers ∧ (s.overOld old).log = s.log.overOld old ∧
      (s.overOld old).entries = s.entries := ⟨rfl, rfl, rfl⟩
  cases a with
  | call i e =>
    simp only [step, hsame]
    split <;> rfl
  | append i =>
    simp only [step, hsame]
    split
    · next e he =>
      rw [WriteAheadLogInner.append_over]
      cases happ : s.log.append e with
      | none => rfl
      | some r =>
        obtain ⟨lsn, log⟩ := r
        cases lsn with
        | none => rfl
        | some lsn =>
          exact congrArg some (await_over (s := { s with
            log := log, entries := s.entries ++ [e] }) i lsn e)
    · rfl
  | wake i =>
    simp only [step, hsame]
    split
    · exact congrArg some (await_over i _ _)
    · rfl
  | flush =>
    obtain ⟨⟨done, cur, written, closed, tail, rest, hlog, -⟩, -⟩ := h
    simp only [step, hsame, hlog.flush_over old]
    rfl

theorem Inv.step_bufferSize {a : WalAction} {returned : Option (Nat × WalEntry)} (h : s.Inv)
    (hs : step a s = some (returned, s')) : s'.log.bufferSize = s.log.bufferSize := by
  cases a with
  | call i e =>
    simp only [step] at hs
    split at hs
    · cases hs
      rfl
    · cases hs
  | append i =>
    simp only [step] at hs
    split at hs
    · next e he =>
      obtain ⟨⟨lsn, log⟩, happ, hs⟩ := Option.bind_eq_some_iff.mp hs
      obtain ⟨⟨done, cur, written, closed, tail, rest, hlog, -⟩, -⟩ := h
      have hcursor : s.log.bufferCursor ≤ s.log.bufferSize := by
        rw [hlog.cursor, WriteAheadLogInner.bufferSize, hlog.buffer, List.length_append]
        omega
      have hsize := WriteAheadLogInner.append_bufferSize hcursor happ
      cases lsn with
      | none =>
        cases hs
        exact hsize
      | some lsn =>
        have hlog := (await_frame { s with log := log, entries := s.entries ++ [e] } i lsn e).1
        rw [Option.some.inj hs] at hlog
        rw [hlog]
        exact hsize
    · cases hs
  | wake i =>
    simp only [step] at hs
    split at hs
    · next lsn e he =>
      have hlog := (await_frame s i lsn e).1
      rw [Option.some.inj hs] at hlog
      rw [hlog]
    · cases hs
  | flush =>
    cases hs
    exact s.log.flush_bufferSize

theorem Inv.run_over {as : List WalAction} {returned : List (Nat × WalEntry)} (h : s.Inv)
    (hr : run as (s.overOld old) = some (returned, s')) :
    ∃ s'', s' = overOld old s'' ∧ s''.Inv ∧ s''.log.bufferSize = s.log.bufferSize := by
  induction as generalizing s returned with
  | nil =>
    cases hr
    exact ⟨s, rfl, h, rfl⟩
  | cons a as ih =>
    simp only [run, h.step_over, Option.bind_eq_bind, Option.bind_eq_some_iff,
      Option.map_eq_some_iff] at hr
    obtain ⟨-, ⟨⟨r, s₁⟩, hs, rfl⟩, ⟨rs, s₂⟩, hrun, heq⟩ := hr
    cases heq
    obtain ⟨s'', heq, hinv, hsize⟩ := ih (step_inv h hs) hrun
    exact ⟨s'', heq, hinv, hsize.trans (h.step_bufferSize hs)⟩

end WalSys

/-! ## Old segments behind new ones -/

namespace FileImage

variable {size lsn : Nat} {es : List WalEntry} {file : List UInt8}

/-- A file of whole segments. -/
theorem length_eq (h : FileImage size lsn es file) :
    ∃ k, file.length = k * size ∧ (es ≠ [] → 0 < k) := by
  induction h with
  | nil => exact ⟨0, by simp, fun hne => absurd rfl hne⟩
  | cons h hne h' ih =>
    obtain ⟨k, hk, -⟩ := ih
    refine ⟨k + 1, ?_, fun _ => Nat.succ_pos k⟩
    rw [List.length_append, h.1, hk, Nat.add_mul, Nat.one_mul, Nat.add_comm]

/-- Without its first segments the file holds the later entries. -/
theorem drop (k : Nat) (h : FileImage size lsn es file) :
    ∃ m ≤ es.length, FileImage size (lsn + m) (es.drop m) (file.drop (k * size)) ∧
      (0 < k → es ≠ [] → 0 < m) := by
  induction k generalizing lsn es file with
  | zero => exact ⟨0, Nat.zero_le _, by simpa using h, fun hk => absurd hk (Nat.lt_irrefl 0)⟩
  | succ k ih =>
    cases h with
    | nil => exact ⟨0, Nat.le_refl _, by simpa using .nil, fun _ hne => absurd rfl hne⟩
    | @cons _ es es' image file h hne h' =>
      obtain ⟨m, hm, himage, -⟩ := ih h'
      refine ⟨es.length + m, by rw [List.length_append]; omega, ?_,
        fun _ _ => Nat.add_pos_left (List.length_pos_iff.2 hne) m⟩
      rw [← Nat.add_assoc, List.drop_length_add_append, Nat.add_mul, Nat.one_mul,
        Nat.add_comm _ size, ← h.1, List.drop_length_add_append, h.1]
      exact himage

end FileImage

namespace WalSys

variable {s s₀ : WalSys}

/-- The file of the earlier log still yields its entries, followed by the new ones, and
no number comes twice. -/
def KeepsDurable (file : List UInt8) (s : WalSys) : Prop :=
  ∃ old fresh, walReader file s.log.bufferSize = some old ∧
    walReader s.log.flush.file s.log.bufferSize = some (old ++ fresh) ∧
    fresh.map (·.2) = s.entries.map (·.op.writeToBuffer) ∧ ((old ++ fresh).map (·.1.lsn)).Nodup

theorem yieldFrom_lsns (lsn : Nat) (es : List WalEntry) :
    (yieldFrom lsn es).map (·.1.lsn) = List.range' lsn es.length := by
  induction es generalizing lsn with
  | nil => rfl
  | cons e es ih =>
    rw [yieldFrom, List.map_cons, ih, List.length_cons, List.range'_succ]
    rfl

/-- What a log that was opened on an older file leaves there. -/
theorem Inv.read_over (h : s.Inv) {old : List WalEntry} {file : List UInt8}
    (hold : FileImage s.log.bufferSize 0 old file) (hlen : old.length < 2 ^ 64) :
    ∃ m ≤ old.length, (s.entries ≠ [] → old ≠ [] → 0 < m) ∧ (s.entries = [] → m = 0) ∧
      walReader (s.overOld file).log.flush.file s.log.bufferSize =
        some (yieldFrom 0 s.entries ++ yieldFrom m (old.drop m)) := by
  obtain ⟨himage, hsize, hlsn⟩ := h.fileImage_flush
  obtain ⟨⟨done, cur, written, closed, tail, rest, hlog, -⟩, -⟩ := id h
  have hfile : (s.overOld file).log.flush.file =
      s.log.flush.file ++ file.drop s.log.flush.file.length := by
    show (s.log.overOld file).flush.file = _
    rw [hlog.flush_over file]
    rfl
  obtain ⟨k, hk, hpos⟩ := himage.length_eq
  by_cases hnil : s.entries = []
  · rw [hnil] at himage
    refine ⟨0, Nat.zero_le _, fun hne => absurd hnil hne, fun _ => rfl, ?_⟩
    rw [hfile, himage.eq_nil, hnil]
    exact hold.read hsize (by omega)
  · obtain ⟨m, hm, hrest, hmpos⟩ := hold.drop k
    refine ⟨m, hm, fun _ hne => hmpos (hpos hnil) hne, fun h => absurd h hnil, ?_⟩
    rw [hfile, hk]
    have hlater := hrest.segments hsize (by rw [List.length_drop]; omega) .nil
    rw [List.append_nil, List.append_nil, Nat.zero_add] at hlater
    exact (himage.segments hsize (by omega) hlater).read

/-- A reopened log keeps what was durable only if nothing was, or if nothing is appended:
the first new segment replaces the first old one, and the numbers start again. -/
theorem reopened_keeps_iff (h₀ : Reachable s₀) {buffer : List UInt8}
    (hb : buffer.length = s₀.log.bufferSize) {as : List WalAction}
    {returned : List (Nat × WalEntry)}
    (hr : run as (openOn s₀.log.file buffer) = some (returned, s)) :
    KeepsDurable s₀.log.file s ↔
      walReader s₀.log.file s₀.log.bufferSize = some [] ∨ s.entries = [] := by
  obtain ⟨n, hn, -, hread, himage⟩ := h₀.inv.read
  obtain ⟨-, hlt, hlen⟩ := h₀.inv.fileImage_flush
  have hopen : openOn s₀.log.file buffer = (new buffer).overOld s₀.log.file := rfl
  rw [hopen] at hr
  obtain ⟨s', rfl, hinv, hsize⟩ := (new_inv (hb ▸ hlt)).run_over hr
  have hsize : s'.log.bufferSize = s₀.log.bufferSize := hsize.trans hb
  obtain ⟨m, hm, hmpos, hm0, hreadNew⟩ := hinv.read_over (hsize ▸ himage)
    (by rw [List.length_take]; omega)
  generalize s₀.entries.take n = old at *
  have hsame : (s'.overOld s₀.log.file).entries = s'.entries ∧
      (s'.overOld s₀.log.file).log.bufferSize = s'.log.bufferSize := ⟨rfl, rfl⟩
  rw [hsize] at hreadNew
  simp only [KeepsDurable, hsame, hsize, hreadNew, hread, Option.some.injEq]
  constructor
  · rintro ⟨found, fresh, rfl, heq, hfresh, -⟩
    -- as many entries are found as were written in all, so none of the old ones is gone
    have hlenFresh := congrArg List.length hfresh
    have hlenAll := congrArg List.length heq
    simp only [List.length_map, List.length_append, length_yieldFrom, List.length_drop]
      at hlenFresh hlenAll
    by_contra hboth
    rw [not_or] at hboth
    have hold : old ≠ [] := by
      rintro rfl
      exact hboth.1 rfl
    have := hmpos hboth.2 hold
    omega
  · rintro (hnil | hnil)
    · have hold : old = [] := by
        have := congrArg List.length hnil
        rw [length_yieldFrom] at this
        exact List.length_eq_zero_iff.1 this
      subst hold
      refine ⟨[], yieldFrom 0 s'.entries, rfl, ?_, yieldFrom_payloads 0 _, ?_⟩
      · rw [List.drop_nil, yieldFrom, List.append_nil, List.nil_append]
      · rw [List.nil_append, yieldFrom_lsns]
        exact List.nodup_range'
    · rw [hnil, hm0 hnil]
      refine ⟨yieldFrom 0 old, [], rfl, ?_, rfl, ?_⟩
      · rw [yieldFrom, List.nil_append, List.drop_zero, List.append_nil]
      · rw [List.append_nil, yieldFrom_lsns]
        exact List.nodup_range'

/-- The earlier log has written nothing. -/
theorem reopened_keeps_empty_file : ∃ s, s.entries = [⟨.makeInsert [1] [2], 7⟩] ∧
    KeepsDurable (new (List.replicate 512 5)).log.file s := by
  have hrun : (run [.call 0 ⟨.makeInsert [1] [2], 7⟩, .append 0]
      (openOn (new (List.replicate 512 5)).log.file (List.replicate 512 0))).map (·.2.entries) =
      some [⟨.makeInsert [1] [2], 7⟩] := by decide +kernel
  obtain ⟨⟨returned, s⟩, hr, hent⟩ := Option.map_eq_some_iff.1 hrun
  have hbuf : (List.replicate 512 (5 : UInt8)).length < 2 ^ 64 := by
    rw [List.length_replicate]
    omega
  have hsize : (List.replicate 512 (0 : UInt8)).length =
      (new (List.replicate 512 5)).log.bufferSize := by
    rw [List.length_replicate, WriteAheadLogInner.bufferSize]
    exact List.length_replicate.symm
  exact ⟨s, hent, (reopened_keeps_iff (Reachable.new hbuf) hsize hr).2 (.inl rfl)⟩

/-- A key is inserted and the log flushed; after a restart it is deleted and the log
flushed. The insert is gone from the log, and its number is used again. -/
theorem reopened_log_loses_insert :
    ((run [.call 0 ⟨.makeInsert [1] [2], 7⟩, .append 0, .flush] (new (List.replicate 512 0))).bind
      fun before => (run [.call 0 ⟨.makeDelete [1], 7⟩, .append 0, .flush]
        (openOn before.2.log.file (List.replicate 512 0))).map fun after =>
          (walReader before.2.log.file 512, walReader after.2.log.file 512)) =
    some (some [(⟨31, 0, 7⟩, (WriteOp.makeInsert [1] [2]).writeToBuffer)],
      some [(⟨30, 0, 7⟩, (WriteOp.makeDelete [1]).writeToBuffer)]) := by
  decide +kernel

end WalSys

end BfTree
