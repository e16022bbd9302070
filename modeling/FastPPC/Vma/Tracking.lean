import FastPPC.Arith.Word

/-!
# The VMA tracker

`VMATracking` mirrors the kernel's list of mappings of the guest (`SyscallsVMATracking.cpp`).
It holds

* `vmas` : the map from base addresses to `VMAEntry`s.  Map nodes have stable addresses in the
  source and are linked to one another, so a node is an identity (`NodeId`) and the map is the
  list of its nodes in ascending order of their keys; the key of a node is its `base`;
* `node` : the contents of the nodes;
* `resources`, `res` : the mapped resources and their contents.

Links are pointers.  A read through a pointer to an erased node is undefined behaviour in the
source and the failure `Fault.assertion` here, as is a violated `LOGMAN_THROW_A_FMT`; an
`ERROR_AND_DIE_FMT` is `Fault.die`.

The generation counter of the mark memo, which every operation bumps, is left out.
-/

namespace FastPPC.Vma

inductive Fault
  /-- A violated assertion, or a read through a stale pointer. -/
  | assertion
  /-- The process terminates itself. -/
  | die
  deriving DecidableEq

/-- The identity of a map node. -/
abbrev NodeId := ℕ

abbrev ResId := ℕ

structure VMAProt where
  readable : Bool
  writable : Bool
  executable : Bool
  deriving DecidableEq

structure VMAFlags where
  shared : Bool
  deriving DecidableEq

structure VMAEntry where
  /-- The mapped resource, `none` for plain anonymous memory. -/
  resource : Option ResId
  resourcePrevVMA : Option NodeId
  resourceNextVMA : Option NodeId
  base : ℕ
  offset : ℕ
  length : ℕ
  flags : VMAFlags
  prot : VMAProt
  deriving DecidableEq

instance : Inhabited VMAEntry := ⟨⟨none, none, none, 0, 0, 0, ⟨false⟩, ⟨false, false, false⟩⟩⟩

structure MRID where
  dev : ℕ
  id : ℕ
  deriving DecidableEq

/-- The device number of System V shared memory (`SpecialDev::SHM`). -/
def specialDevSHM : ℕ := 0x200000000

/-- One mapped resource; `mrid` is the key under which the source files it. -/
structure MappedResource where
  mrid : MRID
  firstVMA : Option NodeId
  /-- 0 if the resource has no fixed size. -/
  length : ℕ
  deriving DecidableEq

instance : Inhabited MappedResource := ⟨⟨⟨0, 0⟩, none, 0⟩⟩

structure VMATracking where
  vmas : List NodeId
  node : NodeId → VMAEntry
  resources : List ResId
  res : ResId → MappedResource
  /-- The next unused node identity. -/
  fresh : NodeId
  /-- The next unused resource identity. -/
  freshRes : ResId

def check (p : Prop) [Decidable p] : Except Fault Unit := if p then .ok () else .error .assertion

namespace VMATracking

def empty : VMATracking := ⟨[], fun _ => default, [], fun _ => default, 0, 0⟩

variable (s : VMATracking)

def deref (i : NodeId) : Except Fault VMAEntry :=
  if i ∈ s.vmas then .ok (s.node i) else .error .assertion

def derefRes (r : ResId) : Except Fault MappedResource :=
  if r ∈ s.resources then .ok (s.res r) else .error .assertion

def setNode (i : NodeId) (e : VMAEntry) : VMATracking :=
  { s with node := Function.update s.node i e }

/-- Write the backward link of a node, if the pointer is not null. -/
def setPrev (i p : Option NodeId) : VMATracking :=
  { s with node := fun j => if i = some j then { s.node j with resourcePrevVMA := p }
      else s.node j }

/-- Write the forward link of a node, if the pointer is not null. -/
def setNext (i n : Option NodeId) : VMATracking :=
  { s with node := fun j => if i = some j then { s.node j with resourceNextVMA := n }
      else s.node j }

def setLength (i : NodeId) (l : ℕ) : VMATracking := s.setNode i { s.node i with length := l }

def setProt (i : NodeId) (p : VMAProt) : VMATracking := s.setNode i { s.node i with prot := p }

def setFirst (r : ResId) (f : Option NodeId) : VMATracking :=
  { s with res := Function.update s.res r { s.res r with firstVMA := f } }

/-- `VMAs.erase(Iterator)`. -/
def eraseNode (i : NodeId) : VMATracking := { s with vmas := s.vmas.erase i }

/-- `MappedResources.erase(Iterator)`. -/
def eraseResource (r : ResId) : VMATracking := { s with resources := s.resources.erase r }

/-- Put the node `n` with key `k` at its place in the map order. -/
def insertByBase (node : NodeId → VMAEntry) (k : ℕ) (n : NodeId) : List NodeId → List NodeId
  | [] => [n]
  | i :: is => if (node i).base < k then i :: insertByBase node k n is else n :: i :: is

/-- `VMAs.emplace(e.base, e)`: the node with that key, and whether it was inserted. -/
def emplace (e : VMAEntry) : VMATracking × NodeId × Bool :=
  match s.vmas.find? fun i => (s.node i).base = e.base with
  | some i => (s, i, false)
  | none =>
    ({ s with
        vmas := insertByBase s.node e.base s.fresh s.vmas
        node := Function.update s.node s.fresh e
        fresh := s.fresh + 1 }, s.fresh, true)

/-- The nodes with a key below `top`, the last one first: the order in which the loops of
`deleteVMARange` and `changeProtectionFlags` walk down from `VMAs.lower_bound(top)`. -/
def below (top : ℕ) : List NodeId := (s.vmas.takeWhile fun i => (s.node i).base < top).reverse

/-! ### List operations -/

/-- A node is not linked to itself. -/
def listCheckVMALinks : Option NodeId → Except Fault Unit
  | none => .ok ()
  | some v => do
    let vma ← s.deref v
    check (vma.resourceNextVMA ≠ some v)
    check (vma.resourcePrevVMA ≠ some v)

/-- The node in front of `v`, if there is one, points to `v`. -/
def checkNext (p : Option NodeId) (v : NodeId) : Except Fault Unit :=
  match p with
  | some p => do check ((← s.deref p).resourceNextVMA = some v)
  | none => .ok ()

/-- The node behind `v`, if there is one, has the backward link `o`. -/
def checkPrev (n o : Option NodeId) : Except Fault Unit :=
  match n with
  | some n => do check ((← s.deref n).resourcePrevVMA = o)
  | none => .ok ()

/-- Remove a node from the list of its resource; the flag tells whether the list is empty now. -/
def listRemove (v : NodeId) : Except Fault (VMATracking × Bool) := do
  let vma ← s.deref v
  match vma.resource with
  | none => .error .assertion
  | some r =>
    let first := (← s.derefRes r).firstVMA
    -- if it has prev, make prev to next
    s.checkNext vma.resourcePrevVMA v
    check (vma.resourcePrevVMA = none → first = some v)
    let s := s.setNext vma.resourcePrevVMA vma.resourceNextVMA
    -- if it has next, make next to prev
    s.checkPrev vma.resourceNextVMA (some v)
    let s := s.setPrev vma.resourceNextVMA vma.resourcePrevVMA
    -- if it is the first in the list, make next the first in the list
    let s ← if first = some v then do
        s.checkPrev vma.resourceNextVMA none
        pure (s.setFirst r vma.resourceNextVMA)
      else pure s
    s.listCheckVMALinks (some v)
    s.listCheckVMALinks vma.resourceNextVMA
    s.listCheckVMALinks vma.resourcePrevVMA
    pure (s, decide ((s.res r).firstVMA = none))

/-- Replace the node `v` by `w`, whose resource and links are already set up. -/
def listReplace (v w : NodeId) : Except Fault VMATracking := do
  let vma ← s.deref v
  let new ← s.deref w
  match vma.resource with
  | none => .error .assertion
  | some r =>
    let first := (← s.derefRes r).firstVMA
    check (new.resource = vma.resource)
    check (new.resourcePrevVMA = vma.resourcePrevVMA)
    check (new.resourceNextVMA = vma.resourceNextVMA)
    check (vma.resourcePrevVMA = none ↔ first = some v)
    s.checkNext vma.resourcePrevVMA v
    let s := s.setNext vma.resourcePrevVMA (some w)
    let s := if vma.resourcePrevVMA = none then s.setFirst r (some w) else s
    s.checkPrev vma.resourceNextVMA (some v)
    let s := s.setPrev vma.resourceNextVMA (some w)
    s.listCheckVMALinks (some v)
    s.listCheckVMALinks (some w)
    s.listCheckVMALinks vma.resourceNextVMA
    s.listCheckVMALinks vma.resourcePrevVMA
    pure s

/-- Insert the node `w`, whose resource and links are already set up, behind `v`. -/
def listInsertAfter (v w : NodeId) : Except Fault VMATracking := do
  let vma ← s.deref v
  let new ← s.deref w
  check (new.resource ≠ none)
  check (vma.resource = new.resource)
  check (new.resourcePrevVMA = some v)
  check (new.resourceNextVMA = vma.resourceNextVMA)
  s.checkPrev vma.resourceNextVMA (some v)
  let s := s.setPrev vma.resourceNextVMA (some w)
  let s := s.setNext (some v) (some w)
  s.listCheckVMALinks (some v)
  s.listCheckVMALinks (some w)
  s.listCheckVMALinks (some w)
  s.listCheckVMALinks vma.resourcePrevVMA
  pure s

/-- Insert the node `w`, whose resource and links are already set up, at the front of the list
of `r`. -/
def listPrepend (r : ResId) (w : NodeId) : Except Fault VMATracking := do
  let first := (← s.derefRes r).firstVMA
  let new ← s.deref w
  check (new.resource = some r)
  check (new.resourcePrevVMA = none)
  check (new.resourceNextVMA = first)
  s.checkPrev first none
  let s := s.setPrev first (some w)
  let s := s.setFirst r (some w)
  s.listCheckVMALinks (some w)
  s.listCheckVMALinks new.resourceNextVMA
  s.listCheckVMALinks new.resourcePrevVMA
  pure s

/-! ### Deleting a range -/

/-- Case (3) of `deleteVMARange`: the mapping lies inside the range and goes, and with it its
resource if this was its last mapping and it is not the preserved one. -/
def deleteMapping (i : NodeId) (preserved : Option ResId) : Except Fault VMATracking := do
  match (← s.deref i).resource with
  | some r => do
    let (s, wasLast) ← s.listRemove i
    let s := if wasLast ∧ some r ≠ preserved then s.eraseResource r else s
    pure (s.eraseNode i)
  | none => pure (s.eraseNode i)

/-- Insert the part of the mapping `i` behind `top`, for cases (2) and (4).  In case (4) it
replaces the mapping, in case (2) it follows it. -/
def insertTrailing (i : NodeId) (top newOffset newLength : ℕ) (replaceAndErase : Bool) :
    Except Fault VMATracking := do
  let cur ← s.deref i
  let (s, t, inserted) := s.emplace
    { cur with
      resourcePrevVMA := if replaceAndErase then cur.resourcePrevVMA else some i
      base := top, offset := newOffset, length := newLength }
  check (inserted = true)
  match cur.resource with
  | some _ => if replaceAndErase then s.listReplace i t else s.listInsertAfter i t
  | none => pure s

/-- What the loop of `deleteVMARange` does with a mapping that reaches into the range. -/
def deleteOne (base top : ℕ) (preserved : Option ResId) (i : NodeId) :
    Except Fault VMATracking := do
  let cur ← s.deref i
  let mapBase := cur.base
  let mapTop := wadd mapBase cur.length
  let offsetDiff := wsub cur.offset mapBase
  let hasFirstPart := decide (mapBase < base)
  let hasTrailingPart := decide (top < mapTop)
  if !hasFirstPart && !hasTrailingPart then s.deleteMapping i preserved
  else do
    let s := if hasFirstPart then s.setLength i (wsub base mapBase) else s
    let replaceAndErase := !hasFirstPart
    let s ← if hasTrailingPart then
        s.insertTrailing i top (wadd offsetDiff top) (wsub mapTop top) replaceAndErase
      else pure s
    pure (if replaceAndErase then s.eraseNode i else s)

end VMATracking

open VMATracking

/-- The loop of `deleteVMARange` over the nodes below `top`, the last one first. -/
def deleteLoop (base top : ℕ) (preserved : Option ResId) :
    List NodeId → VMATracking → Except Fault VMATracking
  | [], s => .ok s
  | i :: is, s => do
    let cur ← s.deref i
    -- the mapping ends before the range starts: exit
    if wadd cur.base cur.length ≤ base then pure s
    else deleteLoop base top preserved is (← s.deleteOne base top preserved i)

variable (s : VMATracking)

/-- Remove the mappings in a range, splitting them where needed. -/
def VMATracking.deleteVMARange (base length : ℕ) (preserved : Option ResId) :
    Except Fault VMATracking :=
  let top := wadd base length
  deleteLoop base top preserved (s.below top) s

/-! ### Tracking a range -/

/-- The walk of `trackVMARange` along the list of the resource: the last node before `base`,
and the one behind it. -/
def findNeighbours (s : VMATracking) (base : ℕ) :
    ℕ → Option NodeId → Option NodeId → Except Fault (Option NodeId × Option NodeId)
  | 0, _, _ => .error .assertion
  | fuel + 1, p, n => do
    match n with
    | none => pure (p, none)
    | some j =>
      let e ← s.deref j
      if e.base < base then findNeighbours s base fuel (some j) e.resourceNextVMA
      else pure (p, some j)

/-- The neighbours of a new mapping at `base` in the list of its resource. -/
def VMATracking.neighbours (r : Option ResId) (base : ℕ) :
    Except Fault (Option NodeId × Option NodeId) := do
  match r with
  | none => pure (none, none)
  | some r =>
    match (← s.derefRes r).firstVMA with
    | none => pure (none, none)
    | some f =>
      let e ← s.deref f
      if base < e.base then findNeighbours s base (s.vmas.length + 1) none (some f)
      else findNeighbours s base (s.vmas.length + 1) (some f) e.resourceNextVMA

/-- Set or replace the mappings in a range with a new mapping. -/
def VMATracking.trackVMARange (r : Option ResId) (base offset length : ℕ)
    (flags : VMAFlags) (prot : VMAProt) : Except Fault VMATracking := do
  let s ← s.deleteVMARange base length r
  let (p, n) ← s.neighbours r base
  let (s, i, inserted) := s.emplace ⟨r, p, n, base, offset, length, flags, prot⟩
  check (inserted = true)
  match r, p with
  | some r, none => s.listPrepend r i
  | some _, some p => s.listInsertAfter p i
  | none, _ => pure s

/-! ### Changing protections -/

/-- Insert a node for a part of the mapping `i` behind it, as all merge strategies do. -/
def VMATracking.splitAfter (i : NodeId) (base offset length : ℕ)
    (flags : VMAFlags) (prot : VMAProt) : Except Fault VMATracking := do
  let cur ← s.deref i
  let (s, t, inserted) := s.emplace
    ⟨cur.resource, some i, cur.resourceNextVMA, base, offset, length, flags, prot⟩
  if inserted = true then
    match cur.resource with
    | some _ => s.listInsertAfter i t
    | none => pure s
  else .error .die

/-- Merge strategy 4: the mapping `i` starts inside the range and reaches its end. -/
def VMATracking.mergeTail (i : NodeId) (top : ℕ) (newProt : VMAProt) :
    Except Fault VMATracking := do
  let cur ← s.deref i
  let curTop := wadd cur.base cur.length
  let offsetDiff := wsub cur.offset cur.base
  let s ← if top < curTop then
      s.splitAfter i top (wadd offsetDiff cur.base) (wsub curTop top) cur.flags cur.prot
    else pure s
  pure ((s.setProt i newProt).setLength i (wsub top cur.base))

/-- The loop of `changeProtectionFlags`; it returns the node it stopped at and the remaining top.
Running out of nodes leaves the first mapping, which lies above `base` and which no merge strategy
covers, or a read through `VMAs.end()` if there is no mapping. -/
def changeLoop (base : ℕ) (newProt : VMAProt) :
    List NodeId → ℕ → VMATracking → Except Fault (VMATracking × NodeId × ℕ)
  | [], _, s => .error (if s.vmas = [] then .assertion else .die)
  | i :: is, top, s => do
    let cur ← s.deref i
    if cur.base ≤ base ∨ wadd cur.base cur.length < top then pure (s, i, top)
    else
      let s ← s.mergeTail i top newProt
      -- `Length = CurrentBase - Base`, `Top = Base + Length`
      changeLoop base newProt is (wadd base (wsub cur.base base)) s

/-- The merge strategies for the mapping the loop of `changeProtectionFlags` stopped at. -/
def VMATracking.mergeFirst (i : NodeId) (base top : ℕ) (newProt : VMAProt) :
    Except Fault VMATracking := do
  let cur ← s.deref i
  let curTop := wadd cur.base cur.length
  let offsetDiff := wsub cur.offset cur.base
  if curTop ≤ base then
    -- the mapping is below what we care about
    pure s
  else if cur.base = base ∧ curTop = top then
    -- merge strategy 1
    pure (s.setProt i newProt)
  else if cur.base = base ∧ top < curTop then
    -- merge strategy 2
    let s := (s.setProt i newProt).setLength i (wsub top cur.base)
    s.splitAfter i top (wadd offsetDiff top) (wsub curTop top) cur.flags cur.prot
  else if cur.base < base ∧ top ≤ curTop then
    -- merge strategy 3
    let s := s.setLength i (wsub base cur.base)
    let s ← s.splitAfter i base (wadd offsetDiff base) (wsub top base) cur.flags newProt
    if top < curTop then
      s.splitAfter i top (wadd offsetDiff top) (wsub curTop top) cur.flags cur.prot
    else pure s
  else .error .die

/-- Change the protection of the mappings in a range, splitting them where needed. -/
def VMATracking.changeProtectionFlags (base length : ℕ) (newProt : VMAProt) :
    Except Fault VMATracking := do
  if length = 0 then pure s
  else
    let top := wadd base length
    let (s, i, top) ← changeLoop base newProt (s.below top) top s
    s.mergeFirst i base top newProt

/-! ### Detaching shared memory -/

/-- The first node at or after `base` that can be the start of an attachment at `base`. -/
def findSHM (s : VMATracking) (base : ℕ) : List NodeId → Except Fault (Option (NodeId × ResId))
  | [] => .ok none
  | i :: is => do
    let e ← s.deref i
    check (base ≤ e.base)
    match e.resource with
    | some r =>
      if wsub e.base base = e.offset ∧ (← s.derefRes r).mrid.dev = specialDevSHM then
        pure (some (i, r))
      else findSHM s base is
    | none => findSHM s base is

/-- The removal loop of `deleteSHMRegion` over the nodes from the attachment on; `started` is
false at its first turn, which the source's `do ... while` performs unconditionally. -/
def removeSHM (base shmLength : ℕ) (r : ResId) :
    Bool → List NodeId → VMATracking → Except Fault VMATracking
  | _, [], s => .ok s
  | started, i :: is, s => do
    let e ← s.deref i
    if started ∧ shmLength < wsub (wadd e.base e.length) base then pure s
    else if e.resource = some r then removeSHM base shmLength r true is (← s.deleteMapping i none)
    else removeSHM base shmLength r true is s

/-- Remove the shared memory attached at `base`; also returns its size, or 0. -/
def VMATracking.deleteSHMRegion (base : ℕ) :
    Except Fault (VMATracking × ℕ) := do
  let from_ := s.vmas.dropWhile fun i => (s.node i).base < base
  match ← findSHM s base from_ with
  | none => pure (s, 0)
  | some (i, r) =>
    let shmLength := (s.res r).length
    let s ← removeSHM base shmLength r false (from_.dropWhile fun j => j ≠ i) s
    pure (s, shmLength)

/-- `InsertMappedResource`: a new resource without mappings. -/
def VMATracking.insertMappedResource (mrid : MRID) (length : ℕ) :
    VMATracking :=
  { s with
    resources := s.freshRes :: s.resources
    res := Function.update s.res s.freshRes ⟨mrid, none, length⟩
    freshRes := s.freshRes + 1 }

/-! ### The tracker as a machine -/

/-- The calls the emulator makes. -/
inductive Op
  | insertResource (mrid : MRID) (length : ℕ)
  | track (r : Option ResId) (base offset length : ℕ) (flags : VMAFlags) (prot : VMAProt)
  | delete (base length : ℕ) (preserved : Option ResId)
  | protect (base length : ℕ) (prot : VMAProt)
  | deleteSHM (base : ℕ)

def VMATracking.step : Op → Except Fault VMATracking
  | .insertResource mrid length => .ok (s.insertMappedResource mrid length)
  | .track r base offset length flags prot => s.trackVMARange r base offset length flags prot
  | .delete base length preserved => s.deleteVMARange base length preserved
  | .protect base length prot => s.changeProtectionFlags base length prot
  | .deleteSHM base => Prod.fst <$> s.deleteSHMRegion base

end FastPPC.Vma
