import FastPPC.Seccomp.Emulator

/-!
# Filters across `execve`

`SerializeFilters` writes the chain of the calling thread to a `memfd`, and the new image reads it
back with `DeserializeFilters` before it runs.  Each read and write can fail or fall short.  This
module has the file format and both sides, and puts the calls of the emulator together to the
machine of one process.

* `readFilter_filterBytes` : what is written in full is read back, filter by filter.
-/

namespace FastPPC.Seccomp

open FastPPC.Codec List SeccompFilterInfo

/-! ### The file -/

/-- What the kernel does with a `read` or a `write`. -/
inductive Io
  /-- As many bytes as there are. -/
  | full
  /-- At most so many. -/
  | short (count : ℕ)
  | error

def SockFilter.bytes (inst : SockFilter) : List Byte :=
  leBytes 2 inst.code.toNat ++ (inst.jt :: inst.jf :: leBytes 4 inst.k.toNat)

/-- The `sock_filter` at the start of a byte string. -/
def SockFilter.ofBytes (bs : List Byte) : SockFilter where
  code := BitVec.ofNat 16 (leValue (bs.take 2))
  jt := BitVec.ofNat 8 (leValue ((bs.drop 2).take 1))
  jf := BitVec.ofNat 8 (leValue ((bs.drop 3).take 1))
  k := BitVec.ofNat 32 (leValue ((bs.drop 4).take 4))

/-- `sizeof(sock_filter)`. -/
def sockFilterSize : ℕ := 8

/-- `sizeof(SerializationHeader)` and `sizeof(SerializedFilter)`. -/
def headerSize : ℕ := 16

def programBytes (insts : List SockFilter) : List Byte := insts.flatMap SockFilter.bytes

/-- `n` instructions from a byte string. -/
def programOfBytes : ℕ → List Byte → List SockFilter
  | 0, _ => []
  | n + 1, bs => SockFilter.ofBytes bs :: programOfBytes n (bs.drop sockFilterSize)

@[simp]
theorem length_programOfBytes (n : ℕ) (bs : List Byte) : (programOfBytes n bs).length = n := by
  induction n generalizing bs with
  | zero => rfl
  | succ n ih => rw [programOfBytes, length_cons, ih]

/-- `SerializationHeader`, with its padding. -/
def headerBytes (numberOfFilters seccompMode : ℕ) : List Byte :=
  leBytes 8 numberOfFilters ++ (leBytes 4 seccompMode ++ leBytes 4 0)

/-- `SerializedFilter`, with its padding. -/
def filterHeaderBytes (f : SeccompFilterInfo) : List Byte :=
  leBytes 8 (f.program.insts.length * sockFilterSize) ++
    (leBytes 4 f.program.insts.length ++ (leBytes 1 f.shouldLog.toNat ++ leBytes 3 0))

/-- The buffers `SerializeFilters` writes, in order. -/
def chunks (seccompMode : ℕ) (chain : List SeccompFilterInfo) : List (List Byte) :=
  headerBytes chain.length seccompMode ::
    chain.flatMap fun f => [filterHeaderBytes f, programBytes f.program.insts]

/-- Writes one buffer after the other; a short write is not noticed. -/
def writeChunks (writes : ℕ → Io) : ℕ → List (List Byte) → Option (List Byte)
  | _, [] => some []
  | i, chunk :: rest =>
    match writes i with
    | .error => none
    | .full => (writeChunks writes (i + 1) rest).map (chunk ++ ·)
    | .short count => (writeChunks writes (i + 1) rest).map (chunk.take count ++ ·)

/-- What `SerializeFilters` returns. -/
inductive SerializedFD
  /-- `nullopt`. -/
  | disabled
  /-- `-1`. -/
  | failed
  /-- A file with these contents. -/
  | fd (contents : List Byte)

/-- `SerializeFilters`.  `memfd` is whether the kernel has created the file. -/
def State.serializeFilters (s : State) (t : Thread) (memfd : Bool) (writes : ℕ → Io) :
    Option SerializedFD :=
  if t.seccompMode = modeDisabled then some .disabled
  else if !memfd then some .failed
  else
    (s.chain t).map fun chain =>
      match writeChunks writes 0 (chunks t.seccompMode chain) with
      | none => .failed
      | some contents => .fd contents

/-- Reads exactly `n` bytes; `none` if the kernel gives another number of them. -/
def readExactly (io : Io) (n : ℕ) (file : List Byte) : Option (List Byte × List Byte) :=
  match io with
  | .error => none
  | .full => if n ≤ file.length then some (file.take n, file.drop n) else none
  | .short count =>
    if n ≤ count ∧ n ≤ file.length then some (file.take n, file.drop n) else none

/-- One iteration of the loop of `DeserializeFilters`, the reads `i` and `i + 1`: the filter and
the rest of the file. -/
def readFilter (reads : ℕ → Io) (i : ℕ) (file : List Byte) :
    Option (SeccompFilterInfo × List Byte) :=
  match readExactly (reads i) headerSize file with
  | none => none
  | some (header, file) =>
    let programSize := leValue (header.take 8)
    let filterInstructions := leValue ((header.drop 8).take 4)
    let shouldLog := leValue ((header.drop 12).take 1) != 0
    if h : filterInstructions ≠ 0 ∧ filterInstructions ≤ bpfMaxinsns ∧
        programSize = filterInstructions * sockFilterSize then
      match readExactly (reads (i + 1)) programSize file with
      | none => none
      | some (bytes, file) =>
        if hvalid : validateProgram (programOfBytes filterInstructions bytes) = true then
          some (.of ⟨_, (length_programOfBytes _ _).trans_le h.2.1, hvalid⟩ shouldLog, file)
        else none
    else none

/-- Appends a deserialised filter to a thread, at a new address. -/
def State.append (s : State) (t : ℕ) (f : SeccompFilterInfo) (addr : ℕ) : State :=
  { s with
    info := Function.update s.info addr (some f)
    refCount := Function.update s.refCount addr 1
    totalFilterInstructions := s.totalFilterInstructions + f.program.insts.length
    threads := s.threads.map fun u =>
      if u.id = t then { u with filters := u.filters ++ [addr] } else u }

/-- The loop of `DeserializeFilters`, from read `i` on with `n` filters to come; whether it came
to its end.  No successor: the allocator gave an address in use. -/
def State.deserializeLoop (reads : ℕ → Io) (alloc : ℕ → ℕ) (t : ℕ) :
    ℕ → ℕ → List Byte → State → Option (State × Bool)
  | 0, _, _, s => some (s, true)
  | n + 1, i, file, s =>
    match readFilter reads i file with
    | none => some (s, false)
    | some (f, file) =>
      if (s.info (alloc i)).isSome then none
      else deserializeLoop reads alloc t n (i + 2) file (s.append t f (alloc i))

/-- The end of `DeserializeFilters`. -/
def State.deserialized (s : State) (t seccompMode : ℕ) : State :=
  { s.modify t (fun u => { u with seccompMode := seccompMode }) with
    filterGeneration := s.filterGeneration + 1 }

/-- `DeserializeFilters`; whether it came to its end. -/
def State.deserializeFilters (s : State) (t : ℕ) (file : List Byte) (reads : ℕ → Io)
    (alloc : ℕ → ℕ) : Option (State × Bool) :=
  match readExactly (reads 0) headerSize file with
  | none => some (s, false)
  | some (header, file) =>
    (State.deserializeLoop reads alloc t (leValue (header.take 8)) 1 file s).map fun r =>
      if r.2 then (r.1.deserialized t (leValue ((header.drop 8).take 4)), true) else r

/-! ### Reading back -/

theorem SockFilter.length_bytes (inst : SockFilter) : inst.bytes.length = sockFilterSize := by
  simp [SockFilter.bytes, sockFilterSize]

theorem SockFilter.ofBytes_bytes (inst : SockFilter) (bs : List Byte) :
    SockFilter.ofBytes (inst.bytes ++ bs) = inst := by
  have hcd : inst.code.toNat < 256 ^ 2 := inst.code.isLt
  have hk : inst.k.toNat < 256 ^ 4 := inst.k.isLt
  have hdr : ∀ n, (inst.bytes ++ bs).drop (2 + n) =
      (inst.jt :: inst.jf :: (leBytes 4 inst.k.toNat ++ bs)).drop n := by
    intro n
    rw [← drop_drop, SockFilter.bytes, append_assoc, drop_leBytes_append]
    rfl
  have hcd' : leValue ((inst.bytes ++ bs).take 2) = inst.code.toNat := by
    rw [SockFilter.bytes, append_assoc, leValue_take_append hcd]
  have hjt : leValue (((inst.bytes ++ bs).drop 2).take 1) = inst.jt.toNat := by
    rw [hdr 0]
    rfl
  have hjf : leValue (((inst.bytes ++ bs).drop 3).take 1) = inst.jf.toNat := by
    rw [hdr 1]
    rfl
  have hk' : leValue (((inst.bytes ++ bs).drop 4).take 4) = inst.k.toNat := by
    rw [hdr 2]
    exact leValue_take_append hk bs
  rw [SockFilter.ofBytes, hcd', hjt, hjf, hk']
  simp

theorem programOfBytes_programBytes (insts : List SockFilter) (bs : List Byte) :
    programOfBytes insts.length (programBytes insts ++ bs) = insts := by
  induction insts with
  | nil => rfl
  | cons inst insts ih =>
    rw [length_cons, programOfBytes, programBytes, flatMap_cons, append_assoc,
      SockFilter.ofBytes_bytes, drop_left' inst.length_bytes]
    exact congrArg (inst :: ·) ih

theorem length_programBytes (insts : List SockFilter) :
    (programBytes insts).length = insts.length * sockFilterSize := by
  rw [programBytes, length_flatMap]
  simp [SockFilter.length_bytes]

theorem readExactly_append {bs : List Byte} {n : ℕ} (h : bs.length = n) (rest : List Byte) :
    readExactly .full n (bs ++ rest) = some (bs, rest) := by
  rw [readExactly, if_pos (by simp [h]), take_left' h, drop_left' h]

/-- A filter is its program, its flag and what the analysis finds. -/
theorem of_eq {f : SeccompFilterInfo} {program : Program} {shouldLog : Bool}
    (hins : program.insts = f.program.insts) (hlog : shouldLog = f.shouldLog) :
    of program shouldLog = f := by
  obtain ⟨⟨insts, hlen, hacc⟩, log, readsIP, readsArgs, hrea⟩ := f
  obtain ⟨insts', hlen', hacc'⟩ := program
  cases hins
  cases hlog
  obtain ⟨rfl, rfl⟩ := Prod.mk.inj hrea
  rfl

def filterBytes (f : SeccompFilterInfo) : List Byte :=
  filterHeaderBytes f ++ programBytes f.program.insts

/-- **Reading back a filter.** -/
theorem readFilter_filterBytes {reads : ℕ → Io} (hrea : ∀ i, reads i = .full) (i : ℕ)
    (f : SeccompFilterInfo) (rest : List Byte) :
    readFilter reads i (filterBytes f ++ rest) = some (f, rest) := by
  have hlen : f.program.insts.length ≤ 4096 := f.program.length_le
  have hpos := f.program.length_pos
  have hhea : (filterHeaderBytes f).length = headerSize := by
    simp [filterHeaderBytes, headerSize]
  have hsz : leValue ((filterHeaderBytes f).take 8) = f.program.insts.length * sockFilterSize :=
    leValue_take_append (by rw [sockFilterSize]; omega) _
  have hcou : leValue (((filterHeaderBytes f).drop 8).take 4) = f.program.insts.length := by
    rw [filterHeaderBytes, drop_leBytes_append]
    exact leValue_take_append (by omega) _
  have hlog : (leValue (((filterHeaderBytes f).drop 12).take 1) != 0) = f.shouldLog := by
    rw [filterHeaderBytes, show 12 = 8 + 4 from rfl, ← drop_drop, drop_leBytes_append,
      drop_leBytes_append, leValue_take_append (by cases f.shouldLog <;> decide)]
    cases f.shouldLog <;> rfl
  rw [filterBytes, append_assoc, readFilter, hrea, readExactly_append hhea]
  simp only [hsz, hcou, hlog]
  rw [dif_pos ⟨hpos.ne', hlen, trivial⟩, hrea,
    readExactly_append (length_programBytes f.program.insts)]
  have hins : programOfBytes f.program.insts.length (programBytes f.program.insts) =
      f.program.insts := by
    simpa using programOfBytes_programBytes f.program.insts []
  simp only
  rw [dif_pos (by rw [hins]; exact f.program.accepted)]
  exact congrArg (fun g => some (g, rest)) (of_eq hins rfl)

theorem writeChunks_full {writes : ℕ → Io} (hwri : ∀ i, writes i = .full) (i : ℕ)
    (cs : List (List Byte)) : writeChunks writes i cs = some cs.flatten := by
  induction cs generalizing i with
  | nil => rfl
  | cons c cs ih =>
    rw [writeChunks, hwri, ih]
    rfl

theorem flatten_chunks (seccompMode : ℕ) (chain : List SeccompFilterInfo) :
    (chunks seccompMode chain).flatten =
      headerBytes chain.length seccompMode ++ chain.flatMap filterBytes := by
  rw [chunks, flatten_cons]
  congr 1
  induction chain with
  | nil => rfl
  | cons f chain ih =>
    rw [flatMap_cons, flatten_append, ih, flatMap_cons, filterBytes]
    simp

/-! ### The process -/

/-- An `execve` and what the kernel does with it. -/
structure ExecArgs where
  memfd : Bool
  writes : ℕ → Io
  /-- `FEX_SECCOMPFD` in the environment the guest passes, which comes before the one that is
  appended: no file, or its contents. -/
  guestFD : Option (Option (List Byte))
  /-- Whether the kernel has started the new image. -/
  execs : Bool
  is64BitMode : Bool
  tid : ℕ
  reads : ℕ → Io
  alloc : ℕ → ℕ

/-- The file the new image gets. -/
def ExecArgs.file (q : ExecArgs) (fd : SerializedFD) : Option (List Byte) :=
  match q.guestFD with
  | some file => file
  | none =>
    match fd with
    | .fd contents => some contents
    | .disabled | .failed => none

/-- `execve`: the filters are written, and the new image starts with what it reads. -/
def State.execve (s : State) (t : Thread) (q : ExecArgs) : Option State :=
  match s.serializeFilters t q.memfd q.writes with
  | none => none
  | some fd =>
    if !q.execs then some s
    else
      match q.file fd with
      | none => some (.image q.is64BitMode t.id q.tid s.granted)
      | some file =>
        ((State.image q.is64BitMode t.id q.tid s.granted).deserializeFilters t.id file q.reads
          q.alloc).map (·.1)

inductive Op
  | syscall (t : ℕ) (call : Call)
  | setModeFilter (t : ℕ) (noNewPrivs : Bool) (flags : BitVec 32) (prog : Option (List SockFilter))
      (addr : ℕ)
  | setModeStrict (t : ℕ) (noNewPrivs : Bool) (flags : BitVec 32) (argIsNull : Bool) (addr : ℕ)
  | createThread (parent child tid : ℕ)
  | trackThread (t : ℕ)
  | exitThread (t : ℕ)
  | fork (t tid : ℕ)
  | execve (t : ℕ) (q : ExecArgs)
  | deserialize (t : ℕ) (file : List Byte) (reads : ℕ → Io) (alloc : ℕ → ℕ)

/-- One call.  The kernel gives positive thread numbers and the allocator new objects. -/
def State.step (s : State) : Op → Option (State × Answer)
  | .syscall t call =>
    (s.findThread t).bind fun u => (s.syscall u call).map fun r => (r.1, .verdict r.2.1 r.2.2)
  | .setModeFilter t noNewPrivs flags prog addr =>
    (s.findThread t).bind fun u => s.setModeFilter u noNewPrivs flags prog addr
  | .setModeStrict t noNewPrivs flags argIsNull addr =>
    (s.findThread t).bind fun u => s.setModeStrict u noNewPrivs flags argIsNull addr
  | .createThread parent child tid =>
    if tid = 0 ∨ (s.findThread child).isSome then none
    else (s.findThread parent).map fun u => (s.createThread u child tid, .ok)
  | .trackThread t => (s.findThread t).map fun u => (s.trackThread u, .ok)
  | .exitThread t => (s.findThread t).map fun u => (s.exitThread u, .ok)
  | .fork t tid => if tid = 0 then none else (s.findThread t).map fun u => (s.fork u tid, .ok)
  | .execve t q =>
    if q.tid = 0 then none
    else (s.findThread t).bind fun u => (s.execve u q).map fun s' => (s', .ok)
  | .deserialize t file reads alloc =>
    (s.findThread t).bind fun _ => (s.deserializeFilters t file reads alloc).map fun r => (r.1, .ok)

def machine : Machine State Op where
  step s op s' := ∃ answer, s.step op = some (s', answer)

/-- A process starts without filters. -/
def State.start (is64BitMode : Bool) (id tid : ℕ) : State := .image is64BitMode id tid fun _ => []

end FastPPC.Seccomp
