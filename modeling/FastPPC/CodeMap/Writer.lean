import FastPPC.CodeMap.Format
import FastPPC.Codec.Memory
import FastPPC.Machine.Basic

/-!
# The writer of the code map

`CodeMapWriter` collects records from all threads of the guest in one buffer.  A thread reserves its
bytes with an atomic addition to `BufferOffset`, under a shared lock, and copies them.  A thread
whose record does not fit lets go of the lock; the one whose offset is still inside the buffer
writes the buffer to the file under the exclusive lock, the others wait for it.

The state has a program counter for each thread.  The operations on the lock and on the atomic
offset are steps of their own; what a thread does in between is part of the step before the lock is
given back, since no other thread can see it earlier.

* `Writer.advance` : the next step of a thread, if it can take one;
* `Writer.call` : a thread enters one of the three calls;
* `machine` : the two as a state machine.
-/

namespace FastPPC.CodeMap

open Codec

def bufferSize : ℕ := 4096

/-- `ExecutableFileSectionInfo`: a file and where it is mapped. -/
structure Section where
  file : FileInfo
  fileStartVA : BitVec 64

inductive Call
  | appendLibraryLoad (file : FileInfo)
  | appendSetMainExecutable (file : FileInfo)
  | appendBlock (info : Section) (blockEntry : BitVec 64)

/-- Libraries of the pressure vessel are not recorded. -/
def pressureVessel : List Byte :=
  ['/', 'r', 'u', 'n', '/', 'p', 'r', 'e', 's', 's', 'u', 'r', 'e', '-', 'v', 'e', 's', 's', 'e',
    'l'].map fun c => BitVec.ofNat 8 c.toNat

/-- The offset of a block that can be recorded: the file is written, and the block lies in the 4 GiB
above its start. -/
def Section.offset? (info : Section) (blockEntry : BitVec 64) : Option (BitVec 32) :=
  if pressureVessel.isPrefixOf info.file.filename then none
  else if 0xffffffff < (blockEntry - info.fileStartVA).toNat then none
  else some ((blockEntry - info.fileStartVA).setWidth 32)

def Call.records : Call → List Record
  | .appendLibraryLoad file => [.library file]
  | .appendSetMainExecutable file => [.executable file.fileId]
  | .appendBlock info blockEntry =>
    match info.offset? blockEntry with
    | none => []
    | some offset => [.library info.file, .block info.file.fileId offset]

/-- Where a thread is.  `record` is what it appends, `next` what it will append after that. -/
inductive Pc
  | idle
  /-- `AppendBlock`, before it looks whether the file is known. -/
  | check (file : FileInfo) (offset : BitVec 32)
  /-- `AppendBlock`, before it registers the file. -/
  | register (file : FileInfo) (offset : BitVec 32)
  /-- `AppendData`, before it takes the shared lock. -/
  | append (record : Record) (next : List Record)
  /-- Under the shared lock, before the addition to `BufferOffset`. -/
  | locked (record : Record) (next : List Record)
  /-- Under the shared lock, after it. -/
  | reserved (record : Record) (next : List Record) (offset : ℕ)
  /-- The record did not fit, and the lock is given back. -/
  | overflowed (record : Record) (next : List Record) (offset : ℕ)
  /-- Under the exclusive lock. -/
  | exclusive (record : Record) (next : List Record) (offset : ℕ)
  /-- Under the exclusive lock, after the buffer was flushed. -/
  | flushed (record : Record) (next : List Record)
  /-- Waiting for the buffer to be flushed. -/
  | waiting (record : Record) (next : List Record)
  deriving DecidableEq

/-- What a thread does after a record. -/
def Pc.resume : List Record → Pc
  | [] => .idle
  | r :: next => .append r next

/-- The writer with `n` threads. -/
structure Writer (n : ℕ) where
  /-- The threads that hold the lock shared, and the one that holds it exclusively. -/
  shared : Finset (Fin n)
  owner : Option (Fin n)
  buffer : Memory
  bufferOffset : ℕ
  knownFileIds : Finset FileId
  file : List Byte
  pc : Fin n → Pc
  /-- The records in the buffer and in the file, in order, and the calls made.  No step reads
  them. -/
  pending : List Record
  committed : List Record
  calls : List Call

namespace Writer

variable {n : ℕ}

def start (n : ℕ) : Writer n where
  shared := ∅
  owner := none
  buffer _ := 0
  bufferOffset := 0
  knownFileIds := ∅
  file := []
  pc _ := .idle
  pending := []
  committed := []
  calls := []

variable (s : Writer n) (t : Fin n)

def goto (pc : Pc) : Writer n :=
  { s with pc := Function.update s.pc t pc }

def free : Bool := s.owner.isNone && decide (s.shared = ∅)

/-- `BufferOffset.fetch_add`; a record that fits is in the buffer from here on. -/
def fetchAdd (r : Record) (next : List Record) : Writer n :=
  { s.goto t (.reserved r next s.bufferOffset) with
    bufferOffset := s.bufferOffset + r.size
    pending := if s.bufferOffset + r.size ≤ bufferSize then s.pending ++ [r] else s.pending }

/-- `memcpy`, and the end of `AppendData`. -/
def copy (r : Record) (next : List Record) (offset : ℕ) : Writer n :=
  { s.goto t (.resume next) with
    buffer := write s.buffer offset r.encode
    shared := s.shared.erase t }

def flush (r : Record) (next : List Record) (offset : ℕ) : Writer n :=
  { s.goto t (.flushed r next) with
    file := s.file ++ readBytes s.buffer 0 offset
    bufferOffset := 0
    pending := []
    committed := s.committed ++ s.pending }

def advance : Option (Writer n) :=
  match s.pc t with
  | .idle => none
  | .check file offset =>
    if s.owner.isSome then none
    else if file.fileId ∈ s.knownFileIds then
      some (s.goto t (.append (.block file.fileId offset) []))
    else some (s.goto t (.register file offset))
  | .register file offset =>
    if !s.free then none
    else if file.fileId ∈ s.knownFileIds then
      some (s.goto t (.append (.block file.fileId offset) []))
    else
      some { s.goto t (.append (.library file) [.block file.fileId offset]) with
        knownFileIds := insert file.fileId s.knownFileIds }
  | .append r next =>
    if s.owner.isSome then none
    else some { s.goto t (.locked r next) with shared := insert t s.shared }
  | .locked r next => some (s.fetchAdd t r next)
  | .reserved r next offset =>
    if offset + r.size ≤ bufferSize then some (s.copy t r next offset)
    else some { s.goto t (.overflowed r next offset) with shared := s.shared.erase t }
  | .overflowed r next offset =>
    if !s.free then none else some { s.goto t (.exclusive r next offset) with owner := some t }
  | .exclusive r next offset =>
    -- only the thread whose offset is in the buffer flushes it
    if offset ≤ bufferSize then some (s.flush t r next offset)
    else some { s.goto t (.waiting r next) with owner := none }
  | .flushed r next => some { s.goto t (.append r next) with owner := none }
  | .waiting r next =>
    if s.bufferOffset ≤ bufferSize then some (s.goto t (.append r next)) else none

def entry : Call → Pc
  | .appendLibraryLoad file => .append (.library file) []
  | .appendSetMainExecutable file => .append (.executable file.fileId) []
  | .appendBlock info blockEntry =>
    match info.offset? blockEntry with
    | none => .idle
    | some offset => .check info.file offset

def call (c : Call) : Option (Writer n) :=
  match s.pc t with
  | .idle => some { s.goto t (entry c) with calls := s.calls ++ [c] }
  | _ => none

/-- The file after the last flush. -/
def close : List Byte := s.file ++ readBytes s.buffer 0 s.bufferOffset

/-- The records that were given a place, in order. -/
def log : List Record := s.committed ++ s.pending

end Writer

inductive Action (n : ℕ)
  | call (t : Fin n) (c : Call)
  | advance (t : Fin n)

def machine (n : ℕ) : Machine (Writer n) (Action n) where
  step s a s' :=
    match a with
    | .call t c => s.call t c = some s'
    | .advance t => s.advance t = some s'

end FastPPC.CodeMap
