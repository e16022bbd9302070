import FastPPC.Alloc.Slab
import FastPPC.Machine.Basic

/-!
# The 64-bit allocator

`OSAllocator_64Bit` serves the emulator's own `mmap` and `munmap` calls from the regions it has
reserved.  A request with an address is tried there first, then in every region in use, then in a
reserved region that is made active for it.

* `State.mmap`, `State.munmap` : the two calls;
* `State.allocateMemoryRegions` : the regions the allocator starts with;
* `step`, `machine` : the allocator as a state machine.

The kernel answers are a parameter: `host addr length` is the error number of a `MAP_FIXED` mapping,
if it fails.
-/

namespace FastPPC.Alloc64

inductive Errno
  | EINVAL
  | EOVERFLOW
  | ENOMEM
  | EEXIST
  | host (errno : ℕ)
  deriving DecidableEq

/-- The flags of a request that concern its address. -/
inductive Placement
  | hint
  | fixed
  | fixedNoreplace
  deriving DecidableEq

structure Request where
  addr : ℕ
  length : ℕ
  placement : Placement
  /-- The offset, if a file descriptor is given. -/
  offset : Option ℕ

/-- What a call returns.  Addresses below the 64-bit space are handed to the kernel. -/
inductive Answer
  | kernel
  | error (e : Errno)
  | ok (ptr : ℕ)
  deriving DecidableEq

def lowerBound : ℕ := 0x100000000

structure State where
  reserved : List ReservedVMARegion
  live : List LiveVMARegion
  /-- The `MAP_FIXED` mappings made so far.  No step reads this or the next field. -/
  fixedMaps : List (ℕ × ℕ)
  /-- The addresses that were returned and not released since. -/
  allocated : ℕ → Bool

namespace State

variable (p : HostPage) (host : ℕ → ℕ → Option ℕ)

/-! ### Finding a place -/

variable (s : State)

def setRegion (i : ℕ) (r : LiveVMARegion) : State := { s with live := s.live.set i r }

def mapFixed (addr length : ℕ) : State :=
  { s with fixedMaps := (addr, length) :: s.fixedMaps }

def makeRegionActive (j : ℕ) : State :=
  match s.reserved[j]? with
  | some r => { s with reserved := s.reserved.eraseIdx j, live := s.live ++ [r.activate p] }
  | none => s

/-- The range lies in the region.  The end of the range may not be the end of the region. -/
def holdsRange (addr addrEnd : ℕ) (r : ReservedVMARegion) : Bool :=
  decide (r.base ≤ addr) && decide (addrEnd < wadd r.base r.regionSize)

/-- `FindLiveRegionForAddress`; live regions are referred to by their position. -/
def findLiveRegionForAddress (addr addrEnd : ℕ) : State × Option ℕ :=
  match s.live.findIdx? fun r => holdsRange addr addrEnd r.slabInfo with
  | some i => (s, some i)
  | none =>
    match s.reserved.findIdx? (holdsRange addr addrEnd) with
    | some j => (s.makeRegionActive p j, some s.live.length)
    | none => (s, none)

/-- Where `CheckIfRangeFits` starts to search. -/
def startPage (r : LiveVMARegion) (startingPosition : ℕ) : ℕ :=
  if startingPosition = 0 then r.lastPageAllocation else r.pageOf p startingPosition

/-- `CheckIfRangeFits`: the address that was found, and whether it could be mapped. -/
def checkIfRangeFits (i length startingPosition : ℕ) : State × Option (ℕ × Bool) :=
  match s.live[i]? with
  | none => (s, none)
  | some r =>
    if r.freeSpace < length then (s, none)
    else
      match r.findRange p (startPage p r startingPosition) (length / p.size) with
      | (r', none) => (s.setRegion i r', none)
      | (r', some c) =>
        ((s.setRegion i r').mapFixed (r.addrOf p c) length,
          some (r.addrOf p c, (host (r.addrOf p c) length).isNone))

/-- The loop over the live regions.  `allocatedOffset` keeps the last address that was found, also
if it was not mapped. -/
def searchLive (length : ℕ) : List ℕ → State → ℕ → State × ℕ × Option ℕ
  | [], s, allocatedOffset => (s, allocatedOffset, none)
  | i :: is, s, allocatedOffset =>
    match s.checkIfRangeFits p host i length 0 with
    | (s, none) => searchLive length is s allocatedOffset
    | (s, some (addr, true)) => (s, addr, some i)
    | (s, some (addr, false)) => searchLive length is s addr

/-- The part of `Mmap` from the label `again` on: a reserved region that is large enough is made
active and the live regions are searched again.  The fuel is one turn for each reserved region. -/
def search (length : ℕ) : ℕ → State → ℕ → State × ℕ × Option ℕ
  | 0, s, allocatedOffset => (s, allocatedOffset, none)
  | fuel + 1, s, allocatedOffset =>
    match searchLive p host length (List.range s.live.length) s allocatedOffset with
    | (s, addr, some i) => (s, addr, some i)
    | (s, addr, none) =>
      match s.reserved.findIdx? fun r =>
          decide (wadd length (p.alignUp (getFEXManagedVMARegionSize p length)) ≤ r.regionSize) with
      | some j => search length fuel (s.makeRegionActive p j) addr
      | none => (s, addr, none)

def searchAll (length allocatedOffset : ℕ) : State × ℕ × Option ℕ :=
  search p host length (s.reserved.length + 1) s allocatedOffset

/-- The placement of a request whose address is a hint. -/
def placeHint (addr addrEnd length : ℕ) : State × ℕ × Option ℕ :=
  if addr = 0 then s.searchAll p host length 0
  else
    match s.findLiveRegionForAddress p addr addrEnd with
    | (s, none) => s.searchAll p host length 0
    | (s, some i) =>
      match s.checkIfRangeFits p host i length addr with
      | (s, none) => s.searchAll p host length 0
      | (s, some (found, mapped)) =>
        if mapped && found == addr then (s, addr, some i) else s.searchAll p host length found

/-- The placement of a `MAP_FIXED` or `MAP_FIXED_NOREPLACE` request. -/
def placeFixed (noreplace : Bool) (addr addrEnd length : ℕ) :
    State × Except Errno (ℕ × Option ℕ) :=
  match s.findLiveRegionForAddress p addr addrEnd with
  | (s, none) => (s, .ok (0, none))
  | (s, some i) =>
    if noreplace then
      match s.checkIfRangeFits p host i length addr with
      | (s, some (found, true)) =>
        if found == addr then (s, .ok (addr, some i)) else (s, .error .EEXIST)
      | (s, _) => (s, .error .EEXIST)
    else
      match host addr length with
      | some errno => (s.mapFixed addr length, .error (.host errno))
      | none => (s.mapFixed addr length, .ok (addr, some i))

/-! ### The calls -/

def markUsed (addr length : ℕ) : Option ℕ → State
  | none => s
  | some i =>
    match s.live[i]? with
    | some r => s.setRegion i (r.mark p addr (length / p.size))
    | none => s

/-- The end of `Mmap`: the pages are marked as used, and no address means `ENOMEM`. -/
def finishMmap (length : ℕ) (placed : ℕ × Option ℕ) : State × Answer :=
  if placed.1 = 0 then (s.markUsed p placed.1 length placed.2, .error .ENOMEM)
  else
    ({ s.markUsed p placed.1 length placed.2 with
        allocated := fun a =>
          decide (placed.1 ≤ a ∧ a < placed.1 + length) || s.allocated a }, .ok placed.1)

/-- The address of a request, rounded down if it is a hint. -/
def requestAddr (q : Request) : ℕ :=
  if q.placement = .hint then p.alignDown q.addr else q.addr

def mmap (q : Request) : State × Answer :=
  if q.addr ≠ 0 ∧ q.addr < lowerBound then (s, .kernel)
  else if requestAddr p q % p.size ≠ 0 then (s, .error .EINVAL)
  else if q.offset.any fun o => o % p.size != 0 then (s, .error .EINVAL)
  else if wadd (requestAddr p q) q.length < requestAddr p q then (s, .error .EOVERFLOW)
  else
    match q.placement with
    | .hint =>
      let r := s.placeHint p host (requestAddr p q)
        (wadd (requestAddr p q) (p.alignUp q.length)) (p.alignUp q.length)
      r.1.finishMmap p (p.alignUp q.length) r.2
    | placement =>
      match s.placeFixed p host (placement == .fixedNoreplace) (requestAddr p q)
          (wadd (requestAddr p q) (p.alignUp q.length)) (p.alignUp q.length) with
      | (s, .error e) => (s, .error e)
      | (s, .ok placed) => s.finishMmap p (p.alignUp q.length) placed

/-- The release of pages of the live region `i`. -/
def releaseIn (i addr length : ℕ) : State :=
  match s.live[i]? with
  | none => s
  | some r =>
    if r.usedPages.count true (r.pageOf p addr % 2 ^ 32) (length / p.size) = 0 then
      s.setRegion i (r.release p addr (length / p.size))
    else (s.setRegion i (r.release p addr (length / p.size))).mapFixed addr length

def munmap (addr length : ℕ) : State × Answer :=
  if addr < lowerBound then (s, .kernel)
  else if addr % p.size ≠ 0 ∨ length % p.size ≠ 0 then (s, .error .EINVAL)
  else if wadd addr length < addr then (s, .error .EOVERFLOW)
  else
    let s' := { s with
      allocated := fun a => !decide (addr ≤ a ∧ a < addr + length) && s.allocated a }
    match s.live.findIdx? fun r => holdsRange addr (wadd addr length) r.slabInfo with
    | some i => (s'.releaseIn p i addr length, .ok 0)
    | none => (s', .ok 0)

end State

/-! ### The allocator as a machine -/

inductive Call
  | mmap (q : Request)
  | munmap (addr length : ℕ)

def step (p : HostPage) (host : ℕ → ℕ → Option ℕ) (s : State) : Call → State × Answer
  | .mmap q => s.mmap p host q
  | .munmap addr length => s.munmap p addr length

def machine (p : HostPage) (host : ℕ → ℕ → Option ℕ) : Machine State Call :=
  Machine.ofFun fun s c => (step p host s c).1

/-- The size of the arena for the allocator's own objects. -/
def objectAllocSize : ℕ := 64 * 1024 * 1024

/-- The start of the arena in a range: aligned for huge pages if there are any. -/
def arenaBase (thpAlign base : ℕ) : ℕ :=
  if thpAlign = 0 then base else (base + thpAlign - 1) / thpAlign * thpAlign

/-- The first range that can hold the arena gives it up. -/
def takeArena (thpAlign : ℕ) : List ReservedVMARegion → Option (List ReservedVMARegion)
  | [] => none
  | r :: rs =>
    if r.regionSize < objectAllocSize + (arenaBase thpAlign r.base - r.base) then
      (takeArena thpAlign rs).map (r :: ·)
    else
      some ({ base := arenaBase thpAlign r.base + objectAllocSize
              regionSize :=
                r.regionSize - (objectAllocSize + (arenaBase thpAlign r.base - r.base)) } :: rs)

/-- `AllocateMemoryRegions`: ranges of at most two pages are not used. -/
def allocateMemoryRegions (p : HostPage) (thpAlign : ℕ) (ranges : List ReservedVMARegion) :
    Option (List ReservedVMARegion) :=
  (takeArena thpAlign ranges).map fun rs => rs.filter fun r => decide (p.size * 2 < r.regionSize)

def initial (regions : List ReservedVMARegion) : State where
  reserved := regions
  live := []
  fixedMaps := []
  allocated _ := false

end FastPPC.Alloc64
