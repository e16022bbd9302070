import FastPPC.Lookup.Retention
import FastPPC.Codec.LittleEndian

/-!
# Compiling and relinking while the guest writes

A guest store to a page with translated code faults: the blocks of the page are retained without
being live (`softInvalidateRange`), the page becomes writable, and the store is tried again.  When
such a block is entered again, `TryRelinkSoftInvalidatedBlock` compares a hash of the guest bytes
with the one stored with the block, protects its pages, compares once more, and publishes the old
host code; `CompileBlock` decodes the guest bytes, protects the pages, hashes the bytes, and
publishes new code.

Both run under the shared side of `CodeInvalidationMutex`, the service of a fault under the
exclusive one, and stores under none; the steps of the threads interleave in every order that this
allows.  Two fields of the state are for the statements only: `source` tells what guest bytes host
code was translated from, and `hashed` which strings were hashed so far.

The arming of a page is assumed to succeed; mappings that the guest cannot write, demoted granules
and shared mappings are left out.
-/

namespace FastPPC.Smc

open Codec (Byte leBytes)
open Lookup (Alloc BlockEntry CodeGranuleBitmap GuestToHostMap JITCodeTail)

/-! ### The hash of a block -/

/-- First address and end of the part of `[start, start + length)` on a page. -/
def chunk (start length page : ℕ) : ℕ × ℕ :=
  (max page start, min (wadd page (2 ^ 12)) (wadd start length))

/-- The address lies in the part of the span on the page. -/
def InChunk (start length page a : ℕ) : Prop :=
  (chunk start length page).1 ≤ a ∧ a < (chunk start length page).2

instance (start length page a : ℕ) : Decidable (InChunk start length page a) :=
  inferInstanceAs (Decidable (_ ∧ _))

def guestBytes (mem : ℕ → Byte) (a n : ℕ) : List Byte := (List.range n).map fun i => mem (a + i)

section Hash

-- `xxh3 data seed` is `XXH3_64bits_withSeed`
variable (xxh3 : List Byte → BitVec 64 → BitVec 64) (mem : ℕ → Byte) (start length : ℕ)

/-- One page of `HashGuestBlock`. -/
def hashPage (hash : BitVec 64) (page : ℕ) : BitVec 64 :=
  let c := chunk start length page
  if c.2 ≤ c.1 then xxh3 (leBytes 8 page) hash
  else xxh3 (guestBytes mem c.1 (c.2 - c.1)) (xxh3 (leBytes 8 c.1) hash)

def hashGuestBlock (codePages : List ℕ) : BitVec 64 :=
  codePages.foldl (hashPage xxh3 mem start length) (BitVec.ofNat 64 length)

/-- A string and the seed it is hashed with. -/
abbrev HashCall := List Byte × BitVec 64

/-- The calls of the hash for one page. -/
def pageCalls (hash : BitVec 64) (page : ℕ) : List HashCall :=
  let c := chunk start length page
  if c.2 ≤ c.1 then [(leBytes 8 page, hash)]
  else [(leBytes 8 c.1, hash), (guestBytes mem c.1 (c.2 - c.1), xxh3 (leBytes 8 c.1) hash)]

/-- Those for the pages. -/
def pagesCalls : List ℕ → BitVec 64 → List HashCall
  | [], _ => []
  | page :: pages, hash => pageCalls xxh3 mem start length hash page ++
      pagesCalls pages (hashPage xxh3 mem start length hash page)

/-- Those of `HashGuestBlock`. -/
def hashCalls (codePages : List ℕ) : List HashCall :=
  pagesCalls xxh3 mem start length codePages (BitVec.ofNat 64 length)

end Hash

def maxHashableGuestSpan : ℕ := 64 * 1024

def isHashableBlock (guestSpan numCodePages : ℕ) : Bool :=
  guestSpan ≠ 0 ∧ numCodePages ≠ 0 ∧ guestSpan ≤ maxHashableGuestSpan

/-! ### Blocks under construction -/

/-- What `CompileCode` returns: the decoder's pages, entry points and span, and the host code of the
entry points.  `addresses` are those of the bytes that were decoded. -/
structure Decoded where
  entryPoints : List ℕ
  hostCode : List (ℕ × ℕ)
  tail : JITCodeTail
  codePages : List ℕ
  start : ℕ
  length : ℕ
  addresses : List ℕ
  /-- `CodePages` holds the addresses of pages. -/
  aligned : ∀ page ∈ codePages, page % 2 ^ 12 = 0 ∧ page < word
  /-- What was decoded lies in the span and on the pages. -/
  covered : ∀ a ∈ addresses, ∃ page ∈ codePages, InChunk start length page a
  /-- Host code is made for entry points. -/
  entered : ∀ p ∈ hostCode, p.1 ∈ entryPoints

namespace Decoded

variable (d : Decoded)

/-- The length and the hash that are stored with the block; both are zero if it is not hashable. -/
def hashed (xxh3 : List Byte → BitVec 64 → BitVec 64) (mem : ℕ → Byte) : ℕ × BitVec 64 :=
  if isHashableBlock d.length d.codePages.length then
    (d.length, hashGuestBlock xxh3 mem d.start d.length d.codePages)
  else (0, 0)

/-- The block that `AddBlockMapping` gets for an entry point. -/
def entry (hostCode : ℕ) (hashed : ℕ × BitVec 64) : BlockEntry where
  hostCode := hostCode
  tail := d.tail
  codePages := d.codePages
  guestRangeStart := d.start
  guestRangeLength := hashed.1
  guestHash := hashed.2

def bytes (mem : ℕ → Byte) : List (ℕ × Byte) := d.addresses.map fun a => (a, mem a)

end Decoded

/-- What a thread under the shared lock is about to publish. -/
inductive Task
  | compile (d : Decoded)
  | relink (rip : ℕ) (entry : BlockEntry)

namespace Task

def codePages : Task → List ℕ
  | compile d => d.codePages
  | relink _ entry => entry.codePages

/-- The entry points that are listed on the pages. -/
def entryPoints : Task → List ℕ
  | compile d => d.entryPoints
  | relink rip _ => [rip]

def span : Task → ℕ × ℕ
  | compile d => (d.start, d.length)
  | relink _ entry => (entry.guestRangeStart, entry.guestRangeLength)

end Task

/-- Where a thread is in `CompileBlock`. -/
inductive Pc
  /-- Outside, without the lock. -/
  | idle
  | lookup (rip : ℕ)
  | take (rip : ℕ)
  | retained (rip : ℕ) (entry : BlockEntry)
  /-- Nothing to relink. -/
  | fresh (rip : ℕ)
  /-- The loop over the code pages. -/
  | register (task : Task) (todo : List ℕ)
  /-- The page had no code: `MarkGuestExecutableRange` comes next. -/
  | mark (task : Task) (page : ℕ) (todo : List ℕ)
  /-- The hash under the protection. -/
  | verify (task : Task)
  /-- The loop of `AddBlockMapping`. -/
  | publish (task : Task) (todo : List (ℕ × BlockEntry))

/-- The block that was decoded and not hashed yet. -/
def Pc.compiling : Pc → Option Decoded
  | .register (.compile d) _ | .mark (.compile d) _ _ | .verify (.compile d) => some d
  | _ => none

/-- What is fixed: the hash, and the size `2 ^ (12 + shift)` of a host page. -/
structure RelinkConfig where
  xxh3 : List Byte → BitVec 64 → BitVec 64
  shift : ℕ
  small : shift ≤ 52

namespace RelinkConfig

variable (cfg : RelinkConfig)

def hostPage : ℕ := 2 ^ (12 + cfg.shift)

/-- The number of the host page of an address. -/
def granule (a : ℕ) : ℕ := a / cfg.hostPage

end RelinkConfig

/-- The memory, its protection, the blocks, and the threads `T`. -/
structure Relinking (T : Type) where
  map : GuestToHostMap
  mem : ℕ → Byte
  /-- By host page: the guest's stores fault. -/
  armed : ℕ → Bool
  /-- The guest bytes that host code was translated from. -/
  source : ℕ → Option (List (ℕ × Byte))
  /-- The calls of the hash so far. -/
  hashed : List HashCall
  pc : T → Pc

inductive Relinking.Action (T : Type)
  | store (addr : ℕ) (value : Byte)
  /-- The service of a store that faults. -/
  | fault (addr : ℕ)
  | enter (t : T) (rip : ℕ)
  | find (t : T)
  | take (t : T)
  | validate (t : T)
  /-- What is decoded, or nothing if there is no code or another thread was first. -/
  | decode (t : T) (d : Option Decoded)
  | register (t : T) (alloc : ℕ → Alloc)
  | mark (t : T)
  | verify (t : T)
  | publish (t : T)

namespace Relinking

variable {T : Type}

/-- Nothing is compiled, nothing is protected. -/
def start (g : CodeGranuleBitmap) (mem : ℕ → Byte) : Relinking T where
  map := .empty g
  mem := mem
  armed _ := false
  source _ := none
  hashed := []
  pc _ := .idle

variable [DecidableEq T] (cfg : RelinkConfig) (s : Relinking T)

/-- The thread goes on. -/
def goto (t : T) (pc : Pc) : Relinking T := { s with pc := Function.update s.pc t pc }

/-- New host code for the decoded bytes. -/
def translate (d : Decoded) : Relinking T :=
  { s with source := fun h =>
      if h ∈ d.hostCode.map Prod.snd then some (d.bytes s.mem) else s.source h }

/-- `AddBlockExecutableRange` for the next page. -/
def registerPage (alloc : ℕ → Alloc) (t : T) (task : Task) (page : ℕ) (todo : List ℕ) :
    Relinking T :=
  let r := s.map.addBlockExecutableRange alloc task.entryPoints page (2 ^ 12) task.span.1
    task.span.2
  { s with map := r.1 }.goto t (if r.2 then .mark task page todo else .register task todo)

/-- The hash of a retained block is that of its bytes. -/
def Agrees (e : BlockEntry) : Prop :=
  hashGuestBlock cfg.xxh3 s.mem e.guestRangeStart e.guestRangeLength e.codePages = e.guestHash

instance (e : BlockEntry) : Decidable (s.Agrees cfg e) := inferInstanceAs (Decidable (_ = _))

/-- The calls of the hash for what is published. -/
def taskCalls : Task → List HashCall
  | .compile d =>
    if isHashableBlock d.length d.codePages.length then
      hashCalls cfg.xxh3 s.mem d.start d.length d.codePages
    else []
  | .relink _ e => hashCalls cfg.xxh3 s.mem e.guestRangeStart e.guestRangeLength e.codePages

def record (calls : List HashCall) : Relinking T := { s with hashed := calls ++ s.hashed }

/-- The second hash of a relink, or the hash of a new block. -/
def verifyTask : Task → Pc
  | .compile d =>
    .publish (.compile d)
      (d.hostCode.map fun p => (p.1, d.entry p.2 (d.hashed cfg.xxh3 s.mem)))
  | .relink rip e =>
    if s.Agrees cfg e then .publish (.relink rip e) [(rip, e)] else .fresh rip

variable [Fintype T]

instance (pc : Pc) : Decidable (pc = .idle) :=
  match pc with
  | .idle => isTrue rfl
  | .lookup _ | .take _ | .retained _ _ | .fresh _ | .register _ _ | .mark _ _ _ | .verify _
  | .publish _ _ => isFalse nofun

/-- One step.  An action that is not possible changes nothing. -/
def step : Action T → Relinking T
  | .store addr value =>
    if s.armed (cfg.granule addr) then s else { s with mem := Function.update s.mem addr value }
  | .fault addr =>
    -- the exclusive lock: no thread is in `CompileBlock`
    if s.armed (cfg.granule addr) ∧ addr < word ∧ ∀ t, s.pc t = .idle then
      { s with
        map := s.map.softInvalidateRange (cfg.granule addr * cfg.hostPage) cfg.hostPage
        armed := Function.update s.armed (cfg.granule addr) false }
    else s
  | .enter t rip =>
    match s.pc t with
    | .idle => s.goto t (.lookup rip)
    | _ => s
  | .find t =>
    match s.pc t with
    | .lookup rip => s.goto t (if (s.map.findBlock rip).isSome then .idle else .take rip)
    | _ => s
  | .take t =>
    match s.pc t with
    | .take rip =>
      let r := s.map.takeRetainedBlock rip
      { s with map := r.1 }.goto t (match r.2 with
        | none => .fresh rip
        | some e => .retained rip e)
    | _ => s
  | .validate t =>
    match s.pc t with
    | .retained rip e =>
      (s.record (s.taskCalls cfg (.relink rip e))).goto t
        (if s.Agrees cfg e then .register (.relink rip e) e.codePages else .fresh rip)
    | _ => s
  | .decode t d =>
    match s.pc t, d with
    | .fresh _, none => s.goto t .idle
    | .fresh _, some d =>
      -- the code goes to free space of the code buffer
      if ∀ p ∈ d.hostCode, s.source p.2 = none then
        (s.translate d).goto t (.register (.compile d) d.codePages)
      else s
    | _, _ => s
  | .register t alloc =>
    match s.pc t with
    | .register task [] => s.goto t (.verify task)
    | .register task (page :: todo) => s.registerPage alloc t task page todo
    | _ => s
  | .mark t =>
    match s.pc t with
    | .mark task page todo =>
      { s with armed := Function.update s.armed (cfg.granule page) true }.goto t
        (.register task todo)
    | _ => s
  | .verify t =>
    match s.pc t with
    | .verify task => (s.record (s.taskCalls cfg task)).goto t (s.verifyTask cfg task)
    | _ => s
  | .publish t =>
    match s.pc t with
    | .publish _ [] => s.goto t .idle
    | .publish task ((a, e) :: todo) =>
      { s with map := s.map.addBlockMapping a e }.goto t (.publish task todo)
    | _ => s

def machine : Machine (Relinking T) (Action T) := .ofFun fun s => s.step cfg

/-- The host code of the block is a translation of what is in the memory. -/
def Matches (e : BlockEntry) : Prop :=
  ∃ bytes, s.source e.hostCode = some bytes ∧ ∀ p ∈ bytes, s.mem p.1 = p.2

/-- The condition of the main result, on the state before a step: a store does not change a byte
that was decoded for a block that has no hash yet, and no page is registered that another thread has
registered and not armed. -/
def Careful : Action T → Prop
  | .store addr value =>
    s.mem addr = value ∨ ∀ t d, (s.pc t).compiling = some d → addr ∉ d.addresses
  | .register t _ => ∀ task page todo, s.pc t = .register task (page :: todo) →
    (s.map.codePages (page / 2 ^ 12)).getD [] ≠ [] → s.armed (cfg.granule page) = true
  | _ => True

end Relinking

end FastPPC.Smc
