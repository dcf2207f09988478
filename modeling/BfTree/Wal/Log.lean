import BfTree.Lib.Bytes
import BfTree.Nodes.LeafNode

/-!
# The write-ahead log

Entries are collected in a buffer of one segment. A flush writes the whole buffer to
the file; a buffer that is less than half full stays in place and is written to the
same offset again. The reader goes through the file segment by segment.
-/

namespace BfTree

open Lib

/-! ## Entries -/

namespace OpType

def toByte : OpType → UInt8
  | .insert => 0
  | .delete => 1
  | .cache => 2
  | .phantom => 3

/-- A `transmute` of any other byte is undefined. -/
def ofByte (b : UInt8) : Option OpType :=
  if b = 0 then some .insert
  else if b = 1 then some .delete
  else if b = 2 then some .cache
  else if b = 3 then some .phantom
  else none

end OpType

structure WriteOp where
  key : Key
  value : Value
  opType : OpType
deriving DecidableEq

namespace WriteOp

def makeInsert (key : Key) (value : Value) : WriteOp := ⟨key, value, .insert⟩

def makeDelete (key : Key) : WriteOp := ⟨key, [], .delete⟩

def logSize (op : WriteOp) : Nat := 2 + 2 + 1 + op.key.length + op.value.length

/-- `write_to_buffer`, for a buffer of `log_size` bytes. -/
def writeToBuffer (op : WriteOp) : List UInt8 :=
  toLE 2 op.key.length ++ (toLE 2 op.value.length ++ (op.opType.toByte :: (op.key ++ op.value)))

/-- `none` is a panic. -/
def readFromBuffer (buffer : List UInt8) : Option WriteOp := do
  let keySize := ofLE (← slice buffer 0 2)
  let valueSize := ofLE (← slice buffer 2 4)
  let opType ← (← buffer[4]?) |> OpType.ofByte
  let key ← slice buffer 5 (5 + keySize)
  let value ← slice buffer (5 + keySize) buffer.length
  if value.length = valueSize then some ⟨key, value, opType⟩ else none

end WriteOp

inductive LogEntry where
  | write (op : WriteOp)
  | split
deriving DecidableEq

/-- `none` is a panic: there are two tags only. -/
def LogEntry.readFromBuffer (buffer : List UInt8) : Option LogEntry := do
  let tag ← buffer[0]?
  if tag = 0 then (WriteOp.readFromBuffer (buffer.drop 1)).map .write
  else if tag = 1 then some .split
  else none

structure LogHeader where
  logLen : Nat
  lsn : Nat
  pageOffset : Nat
deriving DecidableEq

namespace LogHeader

def size : Nat := 24

def asSlice (h : LogHeader) : List UInt8 :=
  toLE 8 h.logLen ++ (toLE 8 h.lsn ++ toLE 8 h.pageOffset)

def fromSlice (buffer : List UInt8) : Option LogHeader := do
  let logLen ← slice buffer 0 8
  let lsn ← slice buffer 8 16
  let pageOffset ← slice buffer 16 24
  some ⟨ofLE logLen, ofLE lsn, ofLE pageOffset⟩

end LogHeader

/-- What `append_and_wait` is called with. -/
structure WalEntry where
  op : WriteOp
  pageOffset : UInt64
deriving DecidableEq

namespace WalEntry

def requiredBytes (e : WalEntry) : Nat := LogHeader.size + e.op.logSize

def header (e : WalEntry) (lsn : Nat) : LogHeader := ⟨e.requiredBytes, lsn, e.pageOffset.toNat⟩

/-- The bytes of an entry in the log. -/
def bytes (e : WalEntry) (lsn : Nat) : List UInt8 := (e.header lsn).asSlice ++ e.op.writeToBuffer

end WalEntry

/-! ## The log -/

/-- The buffer has the size of a segment, and the file is written as a whole number of
buffers. -/
structure WriteAheadLogInner where
  buffer : List UInt8
  file : List UInt8
  bufferCursor : Nat
  fileOffset : Nat
  nextLsn : Nat
  flushedLsn : Nat
  needFlush : Bool
deriving DecidableEq

namespace WriteAheadLogInner

/-- A new log; the buffer is not initialised. -/
def new (buffer : List UInt8) : WriteAheadLogInner := ⟨buffer, [], 0, 0, 0, 0, false⟩

def bufferSize (w : WriteAheadLogInner) : Nat := w.buffer.length

/-- The reader stops at a header of length zero. -/
def clearNextHeader (w : WriteAheadLogInner) : WriteAheadLogInner :=
  if w.bufferCursor + 8 ≤ w.bufferSize then
    { w with buffer := writeAt w.buffer w.bufferCursor (List.replicate 8 0) }
  else w

def shouldInplaceFlush (w : WriteAheadLogInner) : Bool := w.bufferCursor < w.bufferSize / 2

/-- Start the next segment, unless this one is to be written again. -/
def advance (w : WriteAheadLogInner) : WriteAheadLogInner :=
  if w.shouldInplaceFlush then w
  else { w with fileOffset := w.fileOffset + w.bufferSize, bufferCursor := 0 }

def flush (w : WriteAheadLogInner) : WriteAheadLogInner :=
  if w.bufferCursor = 0 then w
  else
    let w := w.clearNextHeader
    let w := { w with file := writeAt w.file w.fileOffset w.buffer }.advance
    { w with flushedLsn := w.nextLsn - 1, needFlush := false }

/-- The part of `append_and_wait` up to the wait. Without room a flush is requested, and
the caller tries again; otherwise the entry gets the next number. Running out of numbers
is a panic. -/
def append (w : WriteAheadLogInner) (e : WalEntry) : Option (Option Nat × WriteAheadLogInner) :=
  if w.bufferSize - w.bufferCursor < e.requiredBytes then some (none, { w with needFlush := true })
  else if w.nextLsn + 1 < 2 ^ 64 then
    some (some w.nextLsn, { w with
      buffer := writeAt w.buffer w.bufferCursor (e.bytes w.nextLsn)
      bufferCursor := w.bufferCursor + e.requiredBytes
      nextLsn := w.nextLsn + 1 })
  else none

end WriteAheadLogInner

/-! ## The reader -/

/-- `WalEntryIter` to its end. -/
def entryIter (segment : List UInt8) : (fuel curOffset : Nat) → Option (List (LogHeader × List UInt8))
  | 0, _ => none
  | fuel + 1, curOffset =>
    if segment.length ≤ curOffset + LogHeader.size then some []
    else do
      let header ← LogHeader.fromSlice (segment.drop curOffset)
      if header.logLen = 0 then some []
      else do
        let data ← slice segment (curOffset + LogHeader.size) (curOffset + header.logLen)
        let rest ← entryIter segment fuel (curOffset + header.logLen)
        some ((header, data) :: rest)

/-- `WalSegmentIter` to its end; a file that ends within a segment is a panic. -/
def segmentIter (file : List UInt8) (segmentSize : Nat) :
    (fuel cursor : Nat) → Option (List (List UInt8))
  | 0, _ => none
  | fuel + 1, cursor =>
    if file.length ≤ cursor then some []
    else do
      let segment ← slice file cursor (cursor + segmentSize)
      let rest ← segmentIter file segmentSize fuel (cursor + segmentSize)
      some (segment :: rest)

/-- All entries that a `WalReader` yields. -/
def walReader (file : List UInt8) (segmentSize : Nat) : Option (List (LogHeader × List UInt8)) := do
  let segments ← segmentIter file segmentSize (file.length + 1) 0
  let entries ← segments.mapM fun segment => entryIter segment (segment.length + 1) 0
  some entries.flatten

/-! ## Recovery -/

/-- The segment size that `recovery` reads with. -/
def recoverySegmentSize : Nat := 4096

/-- One turn of the recovery loop; there is no replay of splits. -/
def recoverEntry (data : List UInt8) : Option WriteOp := do
  match ← LogEntry.readFromBuffer data with
  | .write op => some op
  | .split => none

/-- The operations that `recovery` finds in a log. -/
def recoverOps (file : List UInt8) : Option (List WriteOp) := do
  let entries ← walReader file recoverySegmentSize
  entries.mapM fun entry => recoverEntry entry.2

end BfTree
