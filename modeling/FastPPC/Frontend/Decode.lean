import FastPPC.Arith.Word

/-!
# Multiblock decoding

`DecodeInstructionsAtEntry` discovers the blocks of a compilation unit.  It pops the lowest pending
address, decodes instructions from there until one ends the block, and collects the targets of the
last branch; a target inside a decoded block splits that block.  The x86 instruction decoder itself
is a parameter: an `Image` says for every address what `DecodeInstruction` finds there.

* `Scan`, `scanOne` : the inner loop, one instruction at a time;
* `addBranchTarget`, `branchTargetInMultiblockRange` : the targets of a branch;
* `decodeBlock` : one round of the outer loop;
* `decodeInstructionsAtEntry` : the whole loop.
-/

namespace FastPPC.Frontend

def maxInstSize : ℕ := 15

/-- `DefaultDecodedBufferSize`. -/
def decodedBufferSize : ℕ := 0x10000

def guestPageSize : ℕ := 4096

/-- The address with the bits below the guest page cleared. -/
def pageOf (a : ℕ) : ℕ := a / guestPageSize * guestPageSize

inductive DecodedBlockStatus
  | success
  | invalidInst
  | noexecInst
  | partialDecodeInst
  | badRelocation
  deriving DecidableEq

/-- What later stages read of a decoded instruction. -/
structure Inst where
  pc : ℕ
  instSize : ℕ
  op : ℕ
  opRaw : ℕ
  modRM : ℕ
  /-- `Src[0].Literal()`, sign-extended to 64 bits. -/
  literal : ℕ
  src0GPR : Option ℕ
  src1Literal : Option ℕ
  destGPR : Option ℕ
  rexPrefix : Bool
  rexWidening : Bool
  rexXGPRB : Bool
  rexXGPRX : Bool
  rexXGPRR : Bool
  /-- `FLAGS_CALL`, `FLAGS_SETS_RIP` and `FLAGS_BLOCK_END` of the table entry. -/
  call : Bool
  setsRIP : Bool
  blockEnd : Bool
  deriving DecidableEq

structure Decoded where
  status : DecodedBlockStatus
  hitBadRelocation : Bool
  inst : Inst

/-- The guest code with its executable ranges, as the decoder sees it. -/
structure Image where
  /-- `DecodeInstruction`. -/
  decode : ℕ → Decoded
  /-- `PeekByte(0)` and `PeekByte(1)` are zero or not executable. -/
  nullBytes : ℕ → Bool
  /-- `ExecutableRangeWritable` after the instruction at the address was decoded. -/
  writable : ℕ → Bool
  pc_eq : ∀ a, (decode a).inst.pc = a
  size_le : ∀ a, (decode a).inst.instSize ≤ maxInstSize
  size_pos : ∀ a, (decode a).status = .success → 0 < (decode a).inst.instSize
  hit_of_status : ∀ a, (decode a).status = .badRelocation → (decode a).hitBadRelocation = true

structure Options where
  multiblock : Bool
  monoHacksActive : Bool
  is64Bit : Bool
  maxInstPerBlock : ℕ
  shouldUseCheapTier : ℕ → Bool
  smcCheapTierMaxInst : ℕ
  sectionMaxAddress : ℕ
  section_lt : sectionMaxAddress < word

/-- `DecodedBlocks`.  The instructions are the entries `[first, first + numInstructions)` of the
decode buffer. -/
structure Block where
  entry : ℕ
  size : ℕ
  first : ℕ
  numInstructions : ℕ
  status : DecodedBlockStatus
  isEntryPoint : Bool
  forceFullSMCDetection : Bool
  deriving DecidableEq

/-! ### The inner loop -/

/-- What the inner loop changes. -/
structure Scan where
  block : Block
  buffer : ℕ → Inst
  decodedSize : ℕ
  totalInstructions : ℕ
  codePages : List ℕ
  currentCodePage : ℕ

/-- How the inner loop ends. -/
inductive Stop
  | erase
  | plain
  | final
  | branch
  | badRelocation
  deriving DecidableEq

/-- A 32-bit guest wraps its addresses. -/
def truncate32 (x : ℕ) : ℕ := x % 2 ^ 32

variable (o : Options)

def targetRIP (inst : Inst) : ℕ :=
  if o.is64Bit then wadd (wadd inst.pc inst.instSize) inst.literal
  else truncate32 (wadd (wadd inst.pc inst.instSize) inst.literal)

def instCanContinue (next : ℕ) (inst : Inst) : Bool :=
  if wadd inst.pc inst.instSize = next then false
  else if !(inst.blockEnd || inst.setsRIP) then true
  -- a call of the next instruction computes the GOT address
  else inst.op == 0xE8 && targetRIP o inst == wadd inst.pc inst.instSize

/-- `IsBranchMonoTailcall` for the instruction `k` of the buffer, the last of `numInstructions`. -/
def isBranchMonoTailcall (writable : Bool) (buffer : ℕ → Inst)
    (k numInstructions : ℕ) : Bool :=
  writable &&
    if !o.is64Bit then
      (buffer k).op == 0xE9 && decide (2 ≤ numInstructions) &&
        ((buffer (k - 1)).op == 0xC9 ||
          (decide (3 ≤ numInstructions) && (buffer (k - 2)).op == 0xC9 &&
            ((buffer (k - 1)).op == 0x90 ||
              ((buffer (k - 1)).op == 0x8B && (buffer (k - 1)).modRM == 0xC0) ||
              ((buffer (k - 1)).op == 0x8D && (buffer (k - 1)).modRM == 0x6D &&
                (buffer (k - 1)).src1Literal == some 0))))
    else
      (buffer k).opRaw == 0xFF && (buffer k).modRM / 8 % 8 == 4 &&
        match (buffer k).src0GPR with
        | some 0 =>
          (buffer k).rexPrefix && (buffer k).rexWidening && !(buffer k).rexXGPRB &&
            !(buffer k).rexXGPRX && !(buffer k).rexXGPRR
        | some 11 =>
          decide (1 < numInstructions) && (buffer (k - 1)).op == 0xBB &&
            (buffer (k - 1)).destGPR == some 11
        | _ => false

namespace Scan

/-- A page is recorded when the scan comes to it. -/
def touch (s : Scan) (page : ℕ) : Scan :=
  if page = s.currentCodePage then s
  else { s with currentCodePage := page, codePages := page :: s.codePages }

/-- The decoder writes its record behind the accepted ones. -/
def record (s : Scan) (d : Decoded) : Scan :=
  { s with
    buffer := Function.update s.buffer s.decodedSize d.inst
    block := { s.block with status := d.status } }

def append (s : Scan) (inst : Inst) : Scan :=
  { s with
    decodedSize := s.decodedSize + 1
    totalInstructions := s.totalInstructions + 1
    block := { s.block with
      numInstructions := s.block.numInstructions + 1
      size := wadd s.block.size inst.instSize } }

/-- A block other than the entry ends in an instruction that cannot be decoded. -/
def undo (s : Scan) (start : ℕ) : Scan :=
  { s with
    totalInstructions := s.totalInstructions - s.block.numInstructions
    decodedSize := start }

/-- A block without an instruction is erased. -/
def ending (s : Scan) : Stop := if s.block.numInstructions = 0 then .erase else .plain

def setForce (s : Scan) (force : Bool) : Scan :=
  { s with block := { s.block with forceFullSMCDetection := force } }

/-- The last instruction that was accepted. -/
def decodeInst (s : Scan) : Inst := s.buffer (s.decodedSize - 1)

end Scan

variable (img : Image)

/-- The end of an instruction that was added to the block. -/
def scanAdded (entryBlock : Bool) (limit next start : ℕ) (d : Decoded)
    (s : Scan) : Scan × Option Stop :=
  if d.status ≠ .success then
    if !entryBlock && d.status ≠ .badRelocation then (s.undo start, some .erase)
    else (s, some .plain)
  else if limit ≤ s.decodedSize ∨ decodedBufferSize ≤ s.decodedSize ∨
      limit ≤ s.totalInstructions then
    (s, some .final)
  else if instCanContinue o next d.inst then (s, none)
  else if d.inst.setsRIP then
    (s.setForce (o.monoHacksActive &&
      isBranchMonoTailcall o (img.writable d.inst.pc) s.buffer (s.decodedSize - 1)
        s.block.numInstructions), some .branch)
  else (s, some .plain)

/-- A decoded instruction is added to the block unless it overlaps the next one. -/
def scanDecoded (entryBlock : Bool) (limit next start : ℕ) (d : Decoded)
    (s : Scan) : Scan × Option Stop :=
  if d.hitBadRelocation then (s, some .badRelocation)
  else if next < wadd d.inst.pc d.inst.instSize then (s, some s.ending)
  else scanAdded o img entryBlock limit next start d (s.append d.inst)

/-- One turn of the inner loop: decode the instruction behind the block. -/
def scanOne (entryBlock : Bool) (limit next start : ℕ) (s : Scan) :
    Scan × Option Stop :=
  let a := wadd s.block.entry s.block.size
  if !entryBlock && pageOf a == pageOf (wadd a maxInstSize) && img.nullBytes a then
    (s, some s.ending)
  else
    scanDecoded o img entryBlock limit next start (img.decode a)
      (((s.touch (pageOf a)).touch (pageOf (wadd a maxInstSize))).record (img.decode a))

/-- The inner loop.  It ends at the instruction limit, so `limit` turns are enough. -/
def scan (o : Options) (img : Image) (entryBlock : Bool) (limit next start : ℕ) :
    ℕ → Scan → Scan × Stop
  | 0, s => (s, .final)
  | fuel + 1, s =>
    match scanOne o img entryBlock limit next start s with
    | (s, some stop) => (s, stop)
    | (s, none) => scan o img entryBlock limit next start fuel s

/-! ### Branch targets -/

/-- What happened so far.  No step reads it. -/
structure History where
  /-- The addresses popped as block starts. -/
  starts : List ℕ
  /-- The buffer indices of the jumps recognised as Mono tail calls. -/
  tailcalls : List ℕ

structure State where
  buffer : ℕ → Inst
  decodedSize : ℕ
  totalInstructions : ℕ
  /-- In the order of their entries. -/
  blocks : List Block
  visitedBlocks : List ℕ
  blocksToDecode : List ℕ
  currentBlockTargets : List ℕ
  nextBlockStartAddress : ℕ
  entryPoints : List ℕ
  codePages : List ℕ
  currentCodePage : ℕ
  /-- One of the assertions `"unexpected"` has failed. -/
  unexpected : Bool
  history : History

/-- Find the instruction boundary of a split: its index and its address. -/
def splitPoint (sizes : ℕ → ℕ) (target numInstructions : ℕ) : ℕ → ℕ → ℕ → ℕ × ℕ
  | 0, idx, addr => (idx, addr)
  | fuel + 1, idx, addr =>
    if idx < numInstructions ∧ addr < target then
      splitPoint sizes target numInstructions fuel (idx + 1) (wadd addr (sizes idx))
    else (idx, addr)

def Block.splitPoint (b : Block) (buffer : ℕ → Inst) (target : ℕ) : ℕ × ℕ :=
  Frontend.splitPoint (fun i => (buffer (b.first + i)).instSize) target b.numInstructions
    b.numInstructions 0 b.entry

/-- What stays of a split block. -/
def Block.front (b : Block) (idx addr : ℕ) : Block :=
  { b with size := wsub addr b.entry, numInstructions := idx }

/-- The `SplitBlock`: the fields that are not named have their defaults. -/
def Block.tail (b : Block) (idx addr : ℕ) : Block where
  entry := addr
  size := wsub b.size (wsub addr b.entry)
  first := b.first + idx
  numInstructions := b.numInstructions - idx
  status := b.status
  isEntryPoint := false
  forceFullSMCDetection := false

namespace State

variable (s : State)

/-- A target inside the block `b`, the last one of `before ++ [b]`, splits it or leaves the
multiblock. -/
def splitBlock (before : List Block) (b : Block) (after : List Block) (target : ℕ) :
    State :=
  let p := b.splitPoint s.buffer target
  { s with
    blocks := if p.2 = target then before ++ b.front p.1 p.2 :: b.tail p.1 p.2 :: after
      else s.blocks
    visitedBlocks := target :: s.visitedBlocks
    unexpected := s.unexpected || p.1 == 0 }

/-- A target outside every block is pending. -/
def addPending (inst : Inst) (target : ℕ) : State :=
  { s with
    currentBlockTargets := target :: s.currentBlockTargets.filter (· ≠ target)
    nextBlockStartAddress :=
      if wadd inst.pc inst.instSize ≤ target ∧ target < s.nextBlockStartAddress then target
      else s.nextBlockStartAddress }

def assertNot (b : Bool) : State := { s with unexpected := s.unexpected || b }

def addBranchTarget (inst : Inst) (target : ℕ) : State :=
  if target ∈ s.visitedBlocks then s
  else
    let before := s.blocks.takeWhile fun b => decide (b.entry < target)
    let after := s.blocks.dropWhile fun b => decide (b.entry < target)
    let s := s.assertNot (after.head?.any fun b => b.entry == target)
    match before.getLast? with
    | some b =>
      if target < wadd b.entry b.size then s.splitBlock before.dropLast b after target
      else s.addPending inst target
    | none => s.addPending inst target

def maxForwardBranchDist : ℕ := guestPageSize * 4

/-- The kind of a branch: a conditional jump, or a direct jump. -/
def branchKind (inst : Inst) : Option Bool :=
  if 0x70 ≤ inst.op ∧ inst.op ≤ 0x8F then some true
  else if inst.op = 0xE9 ∨ inst.op = 0xEB then some false
  else none

def validMultiblockMember (entryPoint : ℕ) (inst : Inst) : Bool :=
  decide (entryPoint ≤ targetRIP o inst) &&
    decide (targetRIP o inst <
      min (wadd (wadd inst.pc inst.instSize) maxForwardBranchDist) o.sectionMaxAddress)

def addValidTarget (o : Options) (entryPoint : ℕ) (inst : Inst) : State :=
  if validMultiblockMember o entryPoint inst then s.addBranchTarget inst (targetRIP o inst) else s

def branchTargetInMultiblockRange (o : Options) (cheapTier writable : Bool)
    (entryPoint : ℕ) (inst : Inst) : State :=
  if !o.multiblock || cheapTier then s
  else if inst.call then
    if writable && o.monoHacksActive then s
    else
      let s := s.addBranchTarget inst (wadd inst.pc inst.instSize)
      { s with entryPoints := wadd inst.pc inst.instSize :: s.entryPoints }
  else
    match branchKind inst with
    | none => s
    | some true =>
      (s.addBranchTarget inst (wadd inst.pc inst.instSize)).addValidTarget o entryPoint inst
    | some false => s.addValidTarget o entryPoint inst

/-! ### The outer loop -/

/-- `NextBlockStartAddress` at the start of a block: the next pending address or the next block. -/
def nextStart (toDecode : List ℕ) (after : List Block) : ℕ :=
  min ((toDecode.min?).getD (word - 1)) ((after.head?.map Block.entry).getD (word - 1))

/-- The block that is inserted for a popped address. -/
def newBlock (rip : ℕ) (entryBlock : Bool) : Block where
  entry := rip
  size := 0
  first := s.decodedSize
  numInstructions := 0
  status := .success
  isEntryPoint := entryBlock
  forceFullSMCDetection := false

/-- The state in which the inner loop leaves the decoder, with `blocks` in place. -/
def ofScan (t : Scan) (blocks : List Block) : State :=
  { s with
    buffer := t.buffer
    decodedSize := t.decodedSize
    totalInstructions := t.totalInstructions
    codePages := t.codePages
    currentCodePage := t.currentCodePage
    blocks := blocks }

def toScan (b : Block) : Scan where
  block := b
  buffer := s.buffer
  decodedSize := s.decodedSize
  totalInstructions := s.totalInstructions
  codePages := s.codePages
  currentCodePage := s.currentCodePage

/-- The pending set takes over the targets of a block. -/
def mergeTargets : State :=
  { s with
    blocksToDecode := s.blocksToDecode ++ s.currentBlockTargets.filter (· ∉ s.blocksToDecode)
    currentBlockTargets := [] }

/-- The block of the inner loop stands in front of the first one behind it. -/
def insertBlock (b : Block) : List Block :=
  s.blocks.takeWhile (fun a => decide (a.entry < b.entry)) ++
    b :: s.blocks.dropWhile fun a => decide (a.entry < b.entry)

def keepBlock (t : Scan) : State :=
  { s.ofScan t (s.insertBlock t.block) with
    history := { s.history with
      tailcalls := if t.block.forceFullSMCDetection then
          (t.decodedSize - 1) :: s.history.tailcalls
        else s.history.tailcalls } }

/-- What follows the inner loop. -/
def finishBlock (o : Options) (img : Image) (cheapTier : Bool) (entryPoint : ℕ) (t : Scan) :
    Stop → State
  | .erase => s.ofScan t s.blocks
  | .plain | .final | .badRelocation => (s.keepBlock t).mergeTargets
  | .branch =>
    ((s.keepBlock t).branchTargetInMultiblockRange o cheapTier (img.writable t.decodeInst.pc)
      entryPoint t.decodeInst).mergeTargets

def pop (rip : ℕ) : State :=
  { s with
    blocksToDecode := s.blocksToDecode.filter (· ≠ rip)
    visitedBlocks := rip :: s.visitedBlocks
    history := { s.history with starts := rip :: s.history.starts } }

/-- The start of a round for the popped address. -/
def enter (rip : ℕ) : State :=
  let s := s.pop rip
  let after := s.blocks.dropWhile fun b => decide (b.entry < rip)
  let next := nextStart s.blocksToDecode after
  { s.assertNot ((after.head?.any fun b => b.entry == rip) || decide (next ≤ rip)) with
    nextBlockStartAddress := next }

def scanBlock (o : Options) (img : Image) (limit : ℕ) (entryBlock : Bool) (rip : ℕ) :
    Scan × Stop :=
  scan o img entryBlock limit s.nextBlockStartAddress s.decodedSize
    (min limit decodedBufferSize + 1) (s.toScan (s.newBlock rip entryBlock))

/-- One round of the outer loop. -/
def decodeBlock (o : Options) (img : Image) (cheapTier : Bool) (limit entryPoint : ℕ)
    (entryBlock : Bool) (rip : ℕ) : State × Stop :=
  let s := s.enter rip
  let r := s.scanBlock o img limit entryBlock rip
  (s.finishBlock o img cheapTier entryPoint r.1 r.2, r.2)

/-- The last pass sets the entry points. -/
def markEntryPoints : State :=
  { s with blocks := s.blocks.map fun b =>
      { b with isEntryPoint := decide (b.entry ∈ s.entryPoints) } }

/-- Everything but the entry block is dropped when a relocation is bad. -/
def badRelocationResult (rip : ℕ) : State :=
  { s with
    totalInstructions := 0
    blocks := s.blocks.filter fun b => b.entry == rip
    entryPoints := []
    codePages := [] }

/-- The outer loop and the last pass; a bad relocation returns before that. -/
def loop (o : Options) (img : Image) (cheapTier : Bool) (limit entryPoint : ℕ) :
    ℕ → Bool → State → Option State
  | 0, _, _ => none
  | fuel + 1, entryBlock, s =>
    match s.blocksToDecode.min? with
    | none => some s.markEntryPoints
    | some rip =>
      match s.decodeBlock o img cheapTier limit entryPoint entryBlock rip with
      | (s, .final) => some s.markEntryPoints
      | (s, .badRelocation) => some (s.badRelocationResult rip)
      | (s, _) => loop o img cheapTier limit entryPoint fuel false s

def start (pc : ℕ) (buffer : ℕ → Inst) : State where
  buffer := buffer
  decodedSize := 0
  totalInstructions := 0
  blocks := []
  visitedBlocks := []
  blocksToDecode := [pc]
  currentBlockTargets := []
  nextBlockStartAddress := word - 1
  entryPoints := [pc]
  codePages := [pageOf pc]
  currentCodePage := pageOf pc
  unexpected := false
  history := ⟨[], []⟩

end State

/-- The tier of a block is cheap if its page is invalidated often. -/
def cheapTierBlock (pc maxInst : ℕ) : Bool :=
  (if maxInst = 0 then o.maxInstPerBlock else maxInst) ≠ 1 && o.shouldUseCheapTier pc

def instLimit (pc maxInst : ℕ) : ℕ :=
  if cheapTierBlock o pc maxInst then
    min (if maxInst = 0 then o.maxInstPerBlock else maxInst) (max o.smcCheapTierMaxInst 1)
  else if maxInst = 0 then o.maxInstPerBlock
  else maxInst

/-- `DecodeInstructionsAtEntry`; `none` means that the fuel ran out. -/
def decodeInstructionsAtEntry (buffer : ℕ → Inst) (pc maxInst fuel : ℕ) : Option State :=
  State.loop o img (cheapTierBlock o pc maxInst) (instLimit o pc maxInst) pc fuel true
    (State.start pc buffer)

end FastPPC.Frontend
