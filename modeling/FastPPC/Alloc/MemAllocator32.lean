import FastPPC.Arith.Word
import FastPPC.Machine.Basic

/-!
# The allocator of a 32-bit guest

`MemAllocator32Bit` serves the memory calls of a 32-bit guest.  It keeps one bit for each guest page
of the low 4 GiB and passes the calls on to the kernel, which maps whole host pages (granules).  The
state has a second part that the allocator cannot see: what the kernel has mapped on behalf of these
calls.  The kernel's answers are arguments of the calls.

* `State.mmap`, `State.munmap`, `State.mremap`, `State.shmat`, `State.shmdt` : the calls;
* `step`, `machine` : the allocator as a state machine.  A call that never returns (the kernel
  refuses for ever) or that indexes the bit set out of range (an exception) has no successor.
-/

namespace FastPPC.Alloc32

open Function

inductive HostPages
  | k4
  | k64
  deriving DecidableEq

/-- `GranulePages`: the guest pages of a host page. -/
def HostPages.granule : HostPages → ℕ
  | k4 => 1
  | k64 => 16

def guestPage : ℕ := 4096

/-- The number of guest pages below 4 GiB. -/
def pageCount : ℕ := 0x100000

def topKey : ℕ := 0xFFFFF

def topKey32Bit : ℕ := 0x7FFFF

def baseKey : ℕ := 16

/-- The number of guest pages of a length: `AlignUp` to the page size, then a shift. -/
def pagesOf (length : ℕ) : ℕ :=
  wadd length ((guestPage - length % guestPage) % guestPage) / guestPage

/-- What the kernel has mapped at a page: part of the segment attached at a page, or anything
else. -/
inductive Backing
  | plain
  | shm (attach : ℕ)
  deriving DecidableEq

/-- What a call to the kernel, or a write of the allocator, does to the pages it touches. -/
inductive Effect
  | map
  | unmap
  /-- `mremap` to a page. -/
  | move (page : ℕ)
  | write
  | protect
  deriving DecidableEq

/-- A call to the kernel that took effect.  A change of protection counts also when it fails: it may
have reached some of the pages. -/
structure HostCall where
  effect : Effect
  touches : ℕ → Bool

structure State where
  mappedPages : ℕ → Bool
  hostReservedPages : ℕ → Bool
  /-- The segment attached at a page. -/
  pageToShm : ℕ → Option ℕ
  /-- The protection of a granule, by its first page. -/
  granuleProt : ℕ → Option ℕ
  lastScanLocation : ℕ
  /-- What the kernel has mapped.  No call reads this or the next fields. -/
  kernel : ℕ → Option Backing
  /-- The pages that were found occupied by a mapping of someone else. -/
  occupied : ℕ → Bool
  /-- The calls to the kernel so far, the latest first. -/
  issued : List HostCall

inductive Errno
  | EINVAL
  | EOVERFLOW
  | ENOMEM
  | EEXIST
  /-- An error number of the kernel. -/
  | kernel (errno : ℕ)
  deriving DecidableEq

inductive Answer
  | error (e : Errno)
  | ok (ptr : ℕ)
  deriving DecidableEq

variable (h : HostPages)

def alignPagesUp (pages : ℕ) : ℕ := (pages + h.granule - 1) / h.granule * h.granule

def granuleFloor (page : ℕ) : ℕ := page / h.granule * h.granule

def granuleCeil (page : ℕ) : ℕ := (page + h.granule - 1) / h.granule * h.granule

def hostAligned (x : ℕ) : Bool := x % (h.granule * guestPage) == 0

/-- The pages `[first, first + n)`. -/
def inRange (first n p : ℕ) : Bool := decide (first ≤ p) && decide (p < first + n)

namespace State

/-! ### Bookkeeping -/

variable (s : State)

/-- `SetUsedPages`; an index out of range is an exception. -/
def setUsedPages (first n : ℕ) : Option State :=
  if n = 0 ∨ first + n ≤ pageCount then
    some { s with mappedPages := fun p => inRange first n p || s.mappedPages p }
  else none

def setFreePages (first n : ℕ) : Option State :=
  if n = 0 ∨ first + n ≤ pageCount then
    some { s with mappedPages := fun p => !inRange first n p && s.mappedPages p }
  else none

def overlapsHostReservation (first n : ℕ) : Bool :=
  (List.range n).any fun i => decide (first + i < pageCount) && s.hostReservedPages (first + i)

def granuleHasOtherLivePages (granule skipBegin skipEnd : ℕ) : Bool :=
  (List.range h.granule).any fun i =>
    !(decide (skipBegin ≤ granule + i) && decide (granule + i < skipEnd)) &&
      decide (granule + i < pageCount) && s.mappedPages (granule + i)

/-- `NoteGranuleProt` with `Reset`. -/
def noteGranuleProt (first n prot : ℕ) : State :=
  if h.granule = 1 then s
  else
    { s with granuleProt := fun p =>
        if p % h.granule = 0 ∧ granuleFloor h first ≤ p ∧ p < granuleCeil h (first + n) then
          some prot
        else s.granuleProt p }

def granuleUnionProt (granule prot : ℕ) : ℕ :=
  match s.granuleProt granule with
  | some p => p ||| prot
  | none => prot

/-! ### What the kernel does -/

def issue (effect : Effect) (touches : ℕ → Bool) : State :=
  { s with issued := ⟨effect, touches⟩ :: s.issued }

def kernelMap (first n : ℕ) (b : Backing) : State :=
  { s with kernel := fun p => if inRange first n p then some b else s.kernel p }

def kernelUnmap (first n : ℕ) : State :=
  { s with kernel := fun p => if inRange first n p then none else s.kernel p }

/-- A mapping that is there already, or has grown in place. -/
def kernelExtend (first n : ℕ) : State :=
  { s with kernel := fun p =>
      if inRange first n p then some ((s.kernel p).getD .plain) else s.kernel p }

/-- All that is left of a segment goes. -/
def kernelDetach (attach : ℕ) : State :=
  { s with kernel := fun p =>
      if s.kernel p = some (.shm attach) then none else s.kernel p }

/-! ### The scan -/

/-- The inner loop of the scan: the offset of the first used page, downwards from `start`.  An index
below the first page is an exception. -/
def firstUsedBelow (s : State) (start : ℕ) : ℕ → ℕ → Option (Option ℕ)
  | 0, _ => some none
  | n + 1, offset =>
    if start < offset then none
    else if s.mappedPages (start - offset) then some (some offset)
    else firstUsedBelow s start n (offset + 1)

def findPageRangeFrom (s : State) (pages : ℕ) : ℕ → ℕ → Option ℕ
  | 0, _ => some 0
  | fuel + 1, start =>
    if baseKey ≤ start ∧ start ≤ topKey then
      match s.firstUsedBelow start pages 0 with
      | none => none
      | some none => some (start + 1 - pages)
      | some (some offset) =>
        if granuleFloor h (start - offset) = 0 then some 0
        else findPageRangeFrom s pages fuel (granuleFloor h (start - offset) - 1)
    else some 0

/-- `FindPageRange_TopDown`: the lowest page of the range, or 0. -/
def findPageRangeTopDown (start pages : ℕ) : Option ℕ :=
  s.findPageRangeFrom h pages (granuleCeil h (start + 1)) (granuleCeil h (start + 1) - 1)

/-- The scan with its second chance from `lastKey`; the start is kept for the next try. -/
def findTwice (bottom lastKey pages : ℕ) : Option (ℕ × ℕ) :=
  s.findPageRangeTopDown h bottom pages >>= fun lower =>
  if lower = 0 then (s.findPageRangeTopDown h lastKey pages).map (·, lastKey)
  else some (lower, bottom)

end State

/-! ### `Mmap` -/

structure MmapArgs where
  addr : ℕ
  length : ℕ
  prot : ℕ
  fixed : Bool
  noreplace : Bool
  map32Bit : Bool
  shared : Bool
  anonymous : Bool
  /-- The offset, if there is a file descriptor. -/
  offset : Option ℕ

/-- The kernel's answers to one try of `AllocateNoHint`. -/
structure Attempt where
  /-- The error of `mmap`, `none` being success. -/
  mmap : Option Errno
  /-- The pages for which `mincore` succeeds. -/
  mincore : ℕ → Bool
  readFully : Option ℕ
  mprotect : Option ℕ
  /-- The mapping is removed after an error. -/
  munmap : Bool

/-- The kernel's answers for a granule of `MmapSubGranule`. -/
structure GranuleAnswer where
  mmap : Option ℕ
  readFully : Option ℕ
  mprotect : Option ℕ

structure MmapAnswers where
  attempts : List Attempt
  granule : ℕ → GranuleAnswer
  direct : Option ℕ

namespace State

variable (s : State)

/-- The pages that collide are marked, one of the range if there are none. -/
def markCollisions (lower pages : ℕ) (mincore : ℕ → Bool) : Option State :=
  if (List.range pages).any fun i => mincore (lower + i) then
    some { s with
      mappedPages := fun p => (inRange lower pages p && mincore p) || s.mappedPages p
      occupied := fun p => (inRange lower pages p && mincore p) || s.occupied p }
  else s.setUsedPages lower 1

variable (q : MmapArgs)

/-- The calls for a range that was found.  The fallback for file offsets writes the content and sets
the protection afterwards. -/
def mapCalls (lower pages : ℕ) : State :=
  if q.offset.any fun o => !hostAligned h o then
    ((s.issue .map (inRange lower pages)).issue .write (inRange lower pages)).issue .protect
      (inRange lower pages)
  else s.issue .map (inRange lower pages)

/-- The mapping of a range that was found; an error of the fallback for file offsets takes it
back. -/
def mapFound (lower pages : ℕ) (a : Attempt) :
    Option (State × Answer) :=
  match if (q.offset.any fun o => !hostAligned h o) = true then
      a.readFully <|> if q.prot = 3 then none else a.mprotect
    else none with
  | some e =>
    some (if a.munmap then (s.mapCalls h q lower pages).issue .unmap (inRange lower pages)
      else (s.mapCalls h q lower pages).kernelMap lower pages .plain, .error (.kernel e))
  | none =>
    (((s.mapCalls h q lower pages).kernelMap lower pages .plain).setUsedPages lower pages).map
      fun s =>
        (({ s with lastScanLocation := lower }).noteGranuleProt h lower pages q.prot,
          .ok (lower * guestPage))

/-- `AllocateNoHint`: a turn for each answer of the kernel. -/
def allocateNoHint (q : MmapArgs) (pages lastKey : ℕ) :
    List Attempt → State → ℕ → Option (State × Answer)
  | attempts, s, bottom =>
    match s.findTwice h bottom lastKey pages with
    | none => none
    | some (lower, bottom) =>
      if lower = 0 then some (s, .error .ENOMEM)
      else
        match attempts with
        | [] => none
        | a :: attempts =>
          match a.mmap with
          | none => s.mapFound h q lower pages a
          | some .EEXIST =>
            match s.markCollisions lower pages a.mincore with
            | none => none
            | some s => allocateNoHint q pages lastKey attempts s bottom
          | some e => some (s, .error e)

/-- The part of a granule that a request covers, in pages. -/
def coveredPages (addr length granule : ℕ) : ℕ × ℕ :=
  (max (granule * guestPage) addr / guestPage,
    pagesOf (min ((granule + h.granule) * guestPage) (wadd addr length)))

/-- Nothing else lives in the granule. -/
def replaces (granule : ℕ) : Bool :=
  !s.granuleHasOtherLivePages h granule (coveredPages h q.addr q.length granule).1
    (coveredPages h q.addr q.length granule).2

def granulePages (granule : ℕ) : ℕ → Bool := inRange granule h.granule

/-- `PROT_WRITE` is in the protection recorded for the granule. -/
def granuleWritable (granule : ℕ) : Bool := (s.granuleUnionProt granule 0).testBit 1

/-- The granule is mapped afresh unless it has to be preserved; then it is made writable. -/
def takeGranule (granule : ℕ) : State :=
  if s.replaces h q granule then
    { (s.issue .map (granulePages h granule)).kernelMap granule h.granule .plain with
      granuleProt := update s.granuleProt granule (some 0) }
  else if s.granuleWritable granule then s
  else s.issue .protect (granulePages h granule)

/-- The covered part of the granule is filled; an anonymous mapping that is fresh is zero
already. -/
def fillGranule (granule : ℕ) : State :=
  if q.anonymous && s.replaces h q granule then s
  else
    s.issue .write fun p => decide ((coveredPages h q.addr q.length granule).1 ≤ p) &&
      decide (p < (coveredPages h q.addr q.length granule).2)

def unionProt (prot granule : ℕ) : State :=
  { s with granuleProt :=
      update s.granuleProt granule (some (s.granuleUnionProt granule prot)) }

/-- One granule of `MmapSubGranule`. -/
def subGranuleOne (a : GranuleAnswer) (granule : ℕ) :
    State × Option ℕ :=
  match if s.replaces h q granule then a.mmap else none with
  | some e => (s, some e)
  | none =>
    match if q.anonymous then none else a.readFully with
    | some e => ((s.takeGranule h q granule).fillGranule h q granule, some e)
    | none =>
      ((((s.takeGranule h q granule).fillGranule h q granule).unionProt q.prot granule).issue
        .protect (granulePages h granule), a.mprotect)

def subGranuleLoop (q : MmapArgs) (answers : ℕ → GranuleAnswer) :
    List ℕ → State → State × Option ℕ
  | [], s => (s, none)
  | granule :: granules, s =>
    match s.subGranuleOne h q (answers granule) granule with
    | (s, some e) => (s, some e)
    | (s, none) => subGranuleLoop q answers granules s

/-- The first pages of the granules from `first` to `last`. -/
def granulesBetween (first last : ℕ) : List ℕ :=
  (List.range ((last - first) / h.granule)).map fun i => first + i * h.granule

/-- The granules a sub-granule request touches. -/
def touched : ℕ × ℕ :=
  (granuleFloor h (q.addr / guestPage), granuleCeil h (pagesOf (wadd q.addr q.length)))

def mmapSubGranule (answers : ℕ → GranuleAnswer) :
    Option (State × Answer) :=
  match subGranuleLoop h q answers (granulesBetween h (touched h q).1 (touched h q).2) s with
  | (s, some e) => some (s, .error (.kernel e))
  | (s, none) =>
    -- the number of pages wraps if the end of the range does
    if (touched h q).2 < (touched h q).1 then none
    else
      (s.setUsedPages (touched h q).1 ((touched h q).2 - (touched h q).1)).map fun s =>
        (s, .ok q.addr)

def mmapFixed (a : MmapAnswers) : Option (State × Answer) :=
  if s.overlapsHostReservation (q.addr / guestPage) (pagesOf q.length) then
    some (s, .error .ENOMEM)
  else if h.granule ≠ 1 ∧ (!hostAligned h q.addr ∨
      pagesOf q.length ≠ alignPagesUp h (pagesOf q.length) ∨
      q.offset.any (fun o => !hostAligned h o)) then
    if q.noreplace && !q.fixed &&
        (List.range (pagesOf q.length)).any fun i => s.mappedPages (q.addr / guestPage + i) then
      some (s, .error .EEXIST)
    else s.mmapSubGranule h q a.granule
  else
    match a.direct with
    | some e => some (s, .error (.kernel e))
    | none =>
      (((s.issue .map (inRange (q.addr / guestPage) (pagesOf q.length))).kernelMap
        (q.addr / guestPage) (pagesOf q.length) .plain).setUsedPages
        (q.addr / guestPage) (pagesOf q.length)).map fun s =>
        (s.noteGranuleProt h (q.addr / guestPage) (pagesOf q.length) q.prot, .ok q.addr)

def scanStart : ℕ :=
  if q.map32Bit && decide (topKey32Bit ≤ s.lastScanLocation) then topKey32Bit
  else s.lastScanLocation

def mmap (a : MmapAnswers) : Option (State × Answer) :=
  if q.addr % guestPage ≠ 0 then some (s, .error .EINVAL)
  else if q.offset.any fun o => o % guestPage != 0 then some (s, .error .EINVAL)
  else if 2 ^ 32 - 1 < wadd q.addr q.length then some (s, .error .EOVERFLOW)
  else if (q.fixed || q.noreplace) && decide (q.addr / guestPage < 16) then
    some (s, .error .EINVAL)
  else if q.shared && q.offset.any fun o => !hostAligned h o then some (s, .error .EINVAL)
  else if q.fixed || q.noreplace then s.mmapFixed h q a
  else
    allocateNoHint h q (alignPagesUp h (pagesOf q.length))
      (if q.map32Bit then topKey32Bit else topKey) a.attempts s (s.scanStart q)

/-! ### `Munmap` -/

/-- The granules of a range that became empty go back to the kernel. -/
def releaseGranules (answers : ℕ → Option ℕ) : List ℕ → State → State × Option ℕ
  | [], s => (s, none)
  | granule :: granules, s =>
    if s.granuleHasOtherLivePages h granule 0 0 then releaseGranules answers granules s
    else
      match answers granule with
      | some e => (s, some e)
      | none =>
        releaseGranules answers granules
          { (s.issue .unmap (granulePages h granule)).kernelUnmap granule h.granule with
            granuleProt := update s.granuleProt granule none }

def munmap (addr length : ℕ) (answers : ℕ → Option ℕ) : Option (State × Answer) :=
  if addr % guestPage ≠ 0 ∨ length = 0 then some (s, .error .EINVAL)
  else if 2 ^ 32 - 1 < wadd addr length then some (s, .error .EOVERFLOW)
  else if addr / guestPage < 16 then some (s, .ok 0)
  else if s.overlapsHostReservation (addr / guestPage) (pagesOf length) then some (s, .ok 0)
  else if h.granule ≠ 1 then
    (s.setFreePages (addr / guestPage) (pagesOf length)).map fun s =>
      match releaseGranules h answers (granulesBetween h (granuleFloor h (addr / guestPage))
          (granuleCeil h (addr / guestPage + pagesOf length))) s with
      | (s, some e) => (s, .error (.kernel e))
      | (s, none) => (s, .ok 0)
  else
    match answers (addr / guestPage) with
    | some e => some (s, .error (.kernel e))
    | none =>
      (((s.issue .unmap (inRange (addr / guestPage) (pagesOf length))).kernelUnmap
        (addr / guestPage) (pagesOf length)).setFreePages (addr / guestPage)
        (pagesOf length)).map fun s => (s, .ok 0)

end State

/-! ### `Mremap` -/

structure MremapArgs where
  oldAddress : ℕ
  oldSize : ℕ
  newSize : ℕ
  mayMove : Bool
  fixed : Bool
  dontUnmap : Bool
  newAddress : ℕ

structure MremapAnswers where
  /-- The answer to the first `mremap`. -/
  first : Option ℕ
  /-- The answers to the reservation of the new place. -/
  reserve : MmapAnswers
  /-- The answer to the `mremap` to the new place. -/
  move : Option ℕ

def MremapArgs.oldPages (q : MremapArgs) : ℕ := alignPagesUp h (pagesOf q.oldSize)

def MremapArgs.newPages (q : MremapArgs) : ℕ := alignPagesUp h (pagesOf q.newSize)

def MremapArgs.reservation (q : MremapArgs) : MmapArgs where
  addr := 0
  length := q.newSize
  prot := 0
  fixed := false
  noreplace := false
  map32Bit := false
  shared := false
  anonymous := true
  offset := none

namespace State

variable (s : State)

variable (q : MremapArgs) (a : MremapAnswers)

/-- The move of a mapping to the page `first`: the call. -/
def moveCall (first : ℕ) : State :=
  s.issue (.move first) fun p =>
    inRange (q.oldAddress / guestPage) (q.oldPages h) p || inRange first (q.newPages h) p

/-- The mapping has moved to the page `first`: the bookkeeping and the kernel. -/
def moved (keepOld : Bool) (first : ℕ) : Option State :=
  if keepOld then
    ((s.moveCall h q first).kernelMap first (q.newPages h) .plain).setUsedPages first (q.newPages h)
  else
    ((s.moveCall h q first).kernelUnmap (q.oldAddress / guestPage) (q.oldPages h)).setFreePages
      (q.oldAddress / guestPage) (q.oldPages h) >>= fun s =>
    (s.kernelMap first (q.newPages h) .plain).setUsedPages first (q.newPages h)

/-- The move of a mapping that could not grow in place.  Without an error the reservation is
replaced; with one it stays. -/
def mremapMove : Option (State × Answer) :=
  s.mmap h q.reservation a.reserve >>= fun r =>
  match r with
  | (s, .error e) => some (s, .error e)
  | (s, .ok ptr) =>
    match a.move with
    | some e => some (s, .error (.kernel e))
    | none =>
      (s.moved h q (q.dontUnmap || ptr == q.oldAddress) (ptr / guestPage)).map fun s => (s, .ok ptr)

/-- The pages behind the old range are free. -/
def canExtend : Bool :=
  (List.range (q.newPages h - q.oldPages h)).all fun i =>
    !s.mappedPages (q.oldAddress / guestPage + q.oldPages h + i)

def mremap : Option (State × Answer) :=
  if s.overlapsHostReservation (q.oldAddress / guestPage) (q.oldPages h) ||
      (q.fixed && s.overlapsHostReservation (q.newAddress / guestPage) (q.newPages h)) then
    some (s, .error .ENOMEM)
  else if q.fixed then
    match a.first with
    | some e => some (s, .error (.kernel e))
    -- the source does not return here but goes on to the move
    | none =>
      s.moved h q q.dontUnmap (q.newAddress / guestPage) >>= fun s => s.mremapMove h q a
  else if q.newPages h < q.oldPages h then
    match a.first with
    | some e => some (s, .error (.kernel e))
    | none =>
      (((s.issue .unmap (inRange (q.oldAddress / guestPage + q.newPages h)
        (q.oldPages h - q.newPages h))).kernelUnmap (q.oldAddress / guestPage + q.newPages h)
        (q.oldPages h - q.newPages h)).setFreePages (q.oldAddress / guestPage + q.newPages h)
        (q.oldPages h - q.newPages h)).map fun s => (s, .ok q.oldAddress)
  else if s.canExtend h q then
    match a.first with
    | none =>
      (((s.issue .map (inRange (q.oldAddress / guestPage + q.oldPages h)
        (q.newPages h - q.oldPages h))).kernelExtend (q.oldAddress / guestPage)
        (q.newPages h)).setUsedPages
        (q.oldAddress / guestPage) (q.newPages h)).map fun s => (s, .ok q.oldAddress)
    | some e => if q.mayMove then s.mremapMove h q a else some (s, .error (.kernel e))
  else s.mremapMove h q a

end State

/-! ### Shared memory segments -/

structure ShmatArgs where
  shmid : ℕ
  /-- The address, 0 for none. -/
  shmaddr : ℕ

structure ShmatAnswers where
  /-- The size of the segment. -/
  segsz : ℕ
  /-- `shmctl` succeeds. -/
  shmctl : Bool
  /-- The answer to `shmat` at the given address. -/
  fixed : Except ℕ ℕ
  /-- The answers to `shmat` at the addresses the allocator tries. -/
  attempts : List (Option ℕ)

structure ShmdtAnswers where
  segsz : ℕ
  shmctl : Bool
  shmdt : Option ℕ

namespace State

/-- The host pages of a segment, in guest pages. -/
def segmentPages (segsz : ℕ) : ℕ := alignPagesUp h (pagesOf segsz)

variable (s : State)

def attach (page shmid : ℕ) : State :=
  { s with pageToShm := update s.pageToShm page (some shmid) }

/-- The kernel has attached a segment at a page. -/
def kernelAttach (page pages : ℕ) : State :=
  (s.issue .map (inRange page pages)).kernelMap page pages (.shm page)

/-- `Shmat` at an address of the guest's choice.  The number of pages is rounded down. -/
def shmatFixed (q : ShmatArgs) (a : ShmatAnswers) : Option (State × Answer) :=
  match a.fixed with
  | .error e => some (s, .error (.kernel e))
  | .ok ptr =>
    if 2 ^ 32 ≤ ptr then some (s, .error .ENOMEM)
    else if a.shmctl then
      (((s.kernelAttach (ptr / guestPage) (segmentPages h a.segsz)).attach (ptr / guestPage)
        q.shmid).setUsedPages (ptr / guestPage) (a.segsz / guestPage)).map fun s => (s, .ok ptr)
    else
      some ((s.kernelAttach (ptr / guestPage) (segmentPages h a.segsz)).attach (ptr / guestPage)
        q.shmid, .ok ptr)

/-- `Shmat` at an address of the allocator's choice: a turn for each answer of the kernel. -/
def shmatSearch (shmid pages : ℕ) :
    List (Option ℕ) → State → ℕ → Bool → Option (State × Answer)
  | attempts, s, bottom, wrapped =>
    match s.findTwice h bottom topKey pages with
    | none => none
    | some (lower, bottom) =>
      if lower = 0 then some (s, .error .ENOMEM)
      else
        match attempts with
        | [] => none
        | none :: _ =>
          ((s.kernelAttach lower pages).setUsedPages lower pages).map fun s =>
            ({ s.attach lower shmid with lastScanLocation := lower }, .ok (lower * guestPage))
        | some e :: attempts =>
          if lower + pages = topKey then shmatSearch shmid pages attempts s topKey true
          else if wrapped && decide (s.lastScanLocation ≤ lower) then some (s, .error (.kernel e))
          else shmatSearch shmid pages attempts s (bottom + pages) wrapped

def shmat (q : ShmatArgs) (a : ShmatAnswers) : Option (State × Answer) :=
  if q.shmaddr ≠ 0 then s.shmatFixed h q a
  else if a.shmctl then
    shmatSearch h q.shmid (segmentPages h a.segsz) a.attempts s s.lastScanLocation false
  else some (s, .error .EINVAL)

/-- The marks of the segment go before the call. -/
def freeSegment (page : ℕ) (a : ShmdtAnswers) : Option State :=
  if a.shmctl then s.setFreePages page (pagesOf a.segsz) else some s

/-- What is left of a segment goes: the call. -/
def detachCall (attach : ℕ) : State :=
  s.issue .unmap fun p => decide (s.kernel p = some (.shm attach))

def shmdt (shmaddr : ℕ) (a : ShmdtAnswers) : Option (State × Answer) :=
  match s.pageToShm (shmaddr / guestPage % 2 ^ 32) with
  | none => some (s, .error .EINVAL)
  | some _ =>
    (s.freeSegment (shmaddr / guestPage % 2 ^ 32) a).map fun s =>
      match a.shmdt with
      | some e => (s, .error (.kernel e))
      | none =>
        ({ (s.detachCall (shmaddr / guestPage % 2 ^ 32)).kernelDetach
              (shmaddr / guestPage % 2 ^ 32) with
            pageToShm := update s.pageToShm (shmaddr / guestPage % 2 ^ 32) none }, .ok 0)

def reserveHostRange (base length : ℕ) : State :=
  { s with
    hostReservedPages := fun p =>
      (inRange (base / guestPage) (pagesOf length) p && decide (p < pageCount)) ||
        s.hostReservedPages p
    mappedPages := fun p =>
      (inRange (base / guestPage) (pagesOf length) p && decide (p < pageCount)) ||
        s.mappedPages p }

end State

/-! ### The allocator as a machine -/

/-- A call with the kernel's answers. -/
inductive Call
  | mmap (q : MmapArgs) (a : MmapAnswers)
  | munmap (addr length : ℕ) (answers : ℕ → Option ℕ)
  | mremap (q : MremapArgs) (a : MremapAnswers)
  | shmat (q : ShmatArgs) (a : ShmatAnswers)
  | shmdt (shmaddr : ℕ) (a : ShmdtAnswers)
  | reserveHostRange (base length : ℕ)

def step (s : State) : Call → Option (State × Answer)
  | .mmap q a => s.mmap h q a
  | .munmap addr length answers => s.munmap h addr length answers
  | .mremap q a => s.mremap h q a
  | .shmat q a => s.shmat h q a
  | .shmdt shmaddr a => s.shmdt shmaddr a
  | .reserveHostRange base length => some (s.reserveHostRange base length, .ok 0)

def machine : Machine State Call where
  step s c s' := ∃ a, step h s c = some (s', a)

/-- The pages that are never given out: the kernel's first 16 and the last one. -/
def permanent (p : ℕ) : Bool := decide (p < 16) || p == topKey

def initial : State where
  mappedPages := permanent
  hostReservedPages _ := false
  pageToShm _ := none
  granuleProt _ := none
  lastScanLocation := topKey
  kernel _ := none
  occupied _ := false
  issued := []

end FastPPC.Alloc32
