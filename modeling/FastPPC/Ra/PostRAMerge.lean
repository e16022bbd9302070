import FastPPC.Ppc.Storage
import FastPPC.Ra.Division

/-!
# Merging adjacent operations after register allocation

`ConstrainedRAPass::TryPostRAMerge` looks at an operation and the one before it, whose operands are
physical registers by then, and replaces the two by something shorter.  This file has the operations
concerned, what the host code of each does to the registers and the memory (`ALUOps.cpp` and
`MemoryOps.cpp`), and the decision.

An operation that only `StoreRegister` merges with is `Op.other`: it has a destination, reads its
arguments, and may do anything else to the memory and the rest of the state.
-/

namespace FastPPC.Ra

open Ppc (Storage load store)

/-- `PhysicalRegister` -/
abbrev Reg := ℕ

inductive OpSize
  | i8Bit
  | i16Bit
  | i32Bit
  | i64Bit
  deriving DecidableEq

namespace OpSize

def bytes : OpSize → ℕ
  | i8Bit => 1
  | i16Bit => 2
  | i32Bit => 4
  | i64Bit => 8

def bits (size : OpSize) : ℕ := 8 * size.bytes

/-- `Size >= OpSize::i32Bit` -/
def atLeast32 : OpSize → Bool
  | i32Bit | i64Bit => true
  | _ => false

end OpSize

/-- An argument after allocation: a register, or an inline constant. -/
inductive Arg
  | reg (r : Reg)
  | const (c : BitVec 64)
  deriving DecidableEq

inductive BinOp
  | and
  | or
  | xor
  | add
  | sub
  | lshl
  | lshr
  | ashr
  deriving DecidableEq

/-- A register holds up to 128 bits; a general register uses the lower half. -/
abbrev Value := BitVec 128

/-- The state: the registers, the memory, and everything else. -/
structure State (C : Type) where
  regs : Reg → Value
  mem : Storage
  ctx : C

/-- What the emitter checks of a bit-field extract. -/
structure Field where
  size : OpSize
  width : ℕ
  lsb : ℕ
  valid : (size = .i32Bit ∨ size = .i64Bit) ∧ width + lsb ≤ size.bits

/-- Operations after allocation.  The destination of a node comes first. -/
inductive Op (C : Type)
  | push (size valueSize : OpSize) (dst value addr : Reg)
  | pushTwo (size valueSize : OpSize) (value1 value2 addr : Reg)
  | pop (size : OpSize) (inoutAddr outValue : Reg)
  | popTwo (size : OpSize) (inoutAddr outValue1 outValue2 : Reg)
  | div (signed : Bool) (size : OpSize) (lower : Reg) (upper : Option Reg)
      (divisor outQuotient outRemainder : Reg)
  | bfe (field : Field) (dst src : Reg)
  | sbfe (field : Field) (dst src : Reg)
  | constant (dst : Reg) (value : BitVec 64) (patchSite : Bool)
  | bin (op : BinOp) (size : OpSize) (dst : Reg) (src1 src2 : Arg)
  | storeRegister (dst value : Reg)
  | xgetbv (function outEAX outEDX : Reg)
  | cpuid (function leaf outEAX outEBX outECX outEDX : Reg)
  | fence
  | other (dst : Option Reg) (args : List Arg)
      (run : List (Option Value) → Storage × C → Value × Storage × C)

/-- Results of `CPUIDEmu`.  Where a function reports constant data, it is the same in every state
and for every leaf. -/
structure CPUIDEmu (C : Type) where
  runFunction : C → BitVec 32 → BitVec 32 → BitVec 32 × BitVec 32 × BitVec 32 × BitVec 32
  constantFunction : BitVec 32 → Option (BitVec 32 × BitVec 32 × BitVec 32 × BitVec 32)
  runFunction_constant : ∀ f r, constantFunction f = some r → ∀ c leaf, runFunction c f leaf = r
  runXCRFunction : C → BitVec 32 → BitVec 32 × BitVec 32
  constantXCRFunction : BitVec 32 → Option (BitVec 32 × BitVec 32)
  runXCRFunction_constant : ∀ f r, constantXCRFunction f = some r → ∀ c, runXCRFunction c f = r

structure Config (C : Type) where
  is64BitMode : Bool
  /-- The static register of `REG_RSP`. -/
  rsp : Reg
  cpuid : CPUIDEmu C

variable {C : Type}

namespace State

def gpr (s : State C) (r : Reg) : BitVec 64 := (s.regs r).setWidth 64

def setGpr (s : State C) (r : Reg) (v : BitVec 64) : State C :=
  { s with regs := Function.update s.regs r (v.setWidth 128) }

end State

/-! ### What the operations do -/

/-- `MaybeClrUpper32` -/
def Config.clrUpper32 (cfg : Config C) (x : BitVec 64) : BitVec 64 :=
  if cfg.is64BitMode then x else low32 x

def Arg.value (s : State C) : Arg → BitVec 64
  | .reg r => s.gpr r
  | .const c => c

/-- What an operation of unknown kind reads. -/
def Arg.read (s : State C) : Arg → Option Value
  | .reg r => some (s.regs r)
  | .const _ => none

/-- The result on the operands as they are. -/
def BinOp.eval (op : BinOp) (size : OpSize) (a b : BitVec 64) : BitVec 64 :=
  let word := size != .i64Bit
  match op with
  | .and => a &&& b
  | .or => a ||| b
  | .xor => a ^^^ b
  | .add => a + b
  | .sub => a - b
  | .lshl => if word then low32 (a <<< (b.toNat % 32)) else a <<< (b.toNat % 64)
  | .lshr => if word then low32 a >>> (b.toNat % 32) else a >>> (b.toNat % 64)
  | .ashr =>
    if word then low32 (((a.setWidth 32).signExtend 64).ushiftRight (b.toNat % 32))
    else a.sshiftRight (b.toNat % 64)

/-- The result of a two-operand operation; a word is zero-extended. -/
def BinOp.result (op : BinOp) (size : OpSize) (a b : BitVec 64) : BitVec 64 :=
  if size = .i32Bit then low32 (op.eval size a b) else op.eval size a b

def Field.extract (f : Field) (x : BitVec 64) : BitVec f.width :=
  ((if f.size = .i64Bit then x else low32 x) >>> f.lsb).setWidth f.width

namespace State

variable (cfg : Config C) (u : Undefined) (s : State C)

def push (valueSize : OpSize) (dst value addr : Reg) : State C :=
  let v := s.gpr value
  let s := s.setGpr dst (cfg.clrUpper32 (s.gpr addr - BitVec.ofNat 64 valueSize.bytes))
  { s with mem := store s.mem (s.gpr dst) valueSize.bytes v.toNat }

/-- The base is the static register, whatever the address operand is. -/
def pushTwo (valueSize : OpSize) (value1 value2 : Reg) : State C :=
  let s := s.setGpr cfg.rsp
    (cfg.clrUpper32 (s.gpr cfg.rsp - BitVec.ofNat 64 (2 * valueSize.bytes)))
  if valueSize.atLeast32 then
    let base := s.gpr cfg.rsp
    let mem := store s.mem base valueSize.bytes (s.gpr value1).toNat
    let second := base + BitVec.ofNat 64 valueSize.bytes
    { s with mem := store mem second valueSize.bytes (s.gpr value2).toNat }
  else s

def pop (size : OpSize) (inoutAddr outValue : Reg) : State C :=
  let v := load s.mem (cfg.clrUpper32 (s.gpr inoutAddr)) size.bytes
  let s := s.setGpr inoutAddr (cfg.clrUpper32 (s.gpr inoutAddr + BitVec.ofNat 64 size.bytes))
  s.setGpr outValue (BitVec.ofNat 64 v)

def popTwo (size : OpSize) (inoutAddr outValue1 outValue2 : Reg) : State C :=
  let base := cfg.clrUpper32 (s.gpr inoutAddr)
  let v1 := load s.mem base size.bytes
  let v2 := load s.mem (base + BitVec.ofNat 64 size.bytes) size.bytes
  let s := s.setGpr inoutAddr (cfg.clrUpper32 (s.gpr inoutAddr + BitVec.ofNat 64 (2 * size.bytes)))
  (s.setGpr outValue1 (BitVec.ofNat 64 v1)).setGpr outValue2 (BitVec.ofNat 64 v2)

/-- The quotient is written before the remainder is computed; only the short division of 64 bits
reads its operands again after that. -/
def div (signed : Bool) (size : OpSize) (lower : Reg) (upper : Option Reg)
    (divisor outQuotient outRemainder : Reg) : State C :=
  match size, upper with
  | .i64Bit, some upper =>
    let result := u.long64 signed (s.gpr upper) (s.gpr lower) (s.gpr divisor)
    (s.setGpr outQuotient result.1).setGpr outRemainder result.2
  | .i64Bit, none =>
    let s := s.setGpr outQuotient (u.quotient64 signed (s.gpr lower) (s.gpr divisor))
    s.setGpr outRemainder (s.gpr lower - s.gpr outQuotient * s.gpr divisor)
  | size, upper =>
    let result := u.divide32 signed (size = .i16Bit) (upper.map s.gpr) (s.gpr lower)
      (s.gpr divisor)
    (s.setGpr outQuotient result.1).setGpr outRemainder result.2

def exec : Op C → State C
  | .push _ valueSize dst value addr => s.push cfg valueSize dst value addr
  | .pushTwo _ valueSize value1 value2 _ => s.pushTwo cfg valueSize value1 value2
  | .pop size inoutAddr outValue => s.pop cfg size inoutAddr outValue
  | .popTwo size inoutAddr outValue1 outValue2 => s.popTwo cfg size inoutAddr outValue1 outValue2
  | .div signed size lower upper divisor outQuotient outRemainder =>
    s.div u signed size lower upper divisor outQuotient outRemainder
  | .bfe field dst src => s.setGpr dst ((field.extract (s.gpr src)).setWidth 64)
  | .sbfe field dst src =>
    let v := (field.extract (s.gpr src)).signExtend 64
    s.setGpr dst (if field.size = .i64Bit then v else low32 v)
  | .constant dst value _ => s.setGpr dst value
  | .bin op size dst src1 src2 => s.setGpr dst (op.result size (src1.value s) (src2.value s))
  | .storeRegister dst value => { s with regs := Function.update s.regs dst (s.regs value) }
  | .xgetbv function outEAX outEDX =>
    let r := cfg.cpuid.runXCRFunction s.ctx ((s.gpr function).setWidth 32)
    (s.setGpr outEAX (r.1.setWidth 64)).setGpr outEDX (r.2.setWidth 64)
  | .cpuid function leaf outEAX outEBX outECX outEDX =>
    let r := cfg.cpuid.runFunction s.ctx ((s.gpr function).setWidth 32) ((s.gpr leaf).setWidth 32)
    (((s.setGpr outEAX (r.1.setWidth 64)).setGpr outEBX (r.2.1.setWidth 64)).setGpr outECX
      (r.2.2.1.setWidth 64)).setGpr outEDX (r.2.2.2.setWidth 64)
  | .fence => s
  | .other dst args run =>
    let r := run (args.map (Arg.read s)) (s.mem, s.ctx)
    { regs := match dst with
        | none => s.regs
        | some dst => Function.update s.regs dst r.1
      mem := r.2.1
      ctx := r.2.2 }

def execAll (ops : List (Op C)) : State C := ops.foldl (fun s op => s.exec cfg u op) s

end State

/-! ### The merge -/

namespace Op

/-- `PhysicalRegister(Node)` -/
def dest : Op C → Option Reg
  | .push _ _ dst _ _ | .bfe _ dst _ | .sbfe _ dst _ | .constant dst _ _
  | .bin _ _ dst _ _ | .storeRegister dst _ => some dst
  | .other dst _ _ => dst
  | _ => none

end Op

/-- One register in the place of another. -/
def substReg (a b r : Reg) : Reg := if r = a then b else r

def Arg.subst (a b : Reg) : Arg → Arg
  | .reg r => .reg (substReg a b r)
  | .const c => .const c

/-- The loop over the register arguments of an operation. -/
def Op.substArgs (a b : Reg) : Op C → Op C
  | .push size valueSize dst value addr =>
    .push size valueSize dst (substReg a b value) (substReg a b addr)
  | .pushTwo size valueSize value1 value2 addr =>
    .pushTwo size valueSize (substReg a b value1) (substReg a b value2) (substReg a b addr)
  | .pop size addr value => .pop size (substReg a b addr) (substReg a b value)
  | .popTwo size addr value1 value2 =>
    .popTwo size (substReg a b addr) (substReg a b value1) (substReg a b value2)
  | .div signed size lower upper divisor quotient remainder =>
    .div signed size (substReg a b lower) (upper.map (substReg a b)) (substReg a b divisor)
      (substReg a b quotient) (substReg a b remainder)
  | .bfe field dst src => .bfe field dst (substReg a b src)
  | .sbfe field dst src => .sbfe field dst (substReg a b src)
  | .constant dst value patchSite => .constant dst value patchSite
  | .bin op size dst src1 src2 => .bin op size dst (src1.subst a b) (src2.subst a b)
  | .storeRegister dst value => .storeRegister dst (substReg a b value)
  | .xgetbv f eax edx => .xgetbv (substReg a b f) (substReg a b eax) (substReg a b edx)
  | .cpuid f leaf eax ebx ecx edx =>
    .cpuid (substReg a b f) (substReg a b leaf) (substReg a b eax) (substReg a b ebx)
      (substReg a b ecx) (substReg a b edx)
  | .fence => .fence
  | .other dst args run => .other dst (args.map (Arg.subst a b)) run

/-- What became of the two operations. -/
inductive Fusion (C : Type)
  | pushTwo (size valueSize : OpSize) (value lastValue addr : Reg)
  | popTwo (size : OpSize) (addr lastValue value : Reg)
  /-- The division without its upper half; the earlier operation may go. -/
  | shortDiv (signed : Bool) (size : OpSize) (lower divisor quotient remainder : Reg)
      (dropLast : Bool)
  | constants (ops : List (Op C))
  /-- The earlier operation goes, the later one becomes `op`. -/
  | killMove (op : Op C)

def Fusion.apply (last : Op C) : Fusion C → List (Op C)
  | .pushTwo size valueSize value lastValue addr => [.pushTwo size valueSize value lastValue addr]
  | .popTwo size addr lastValue value => [.popTwo size addr lastValue value]
  | .shortDiv signed size lower divisor quotient remainder dropLast =>
    (if dropLast then [] else [last]) ++
      [.div signed size lower none divisor quotient remainder]
  | .constants ops => last :: ops
  | .killMove op => [op]

/-- `KillMove`: the later operation, if it can do without the move, and the source of the move. -/
def killMove (last code : Op C) : Option (Op C × Reg) :=
  match last, code with
  | .bfe field _ src, .bin op size dst src1 src2 =>
    if field.lsb = 0 ∧ field.width = 32 ∧ (op = .and ∨ size = .i32Bit) then
      some (.bin op .i32Bit dst src1 src2, src)
    else none
  | .storeRegister _ value, code => some (code, value)
  | _, _ => none

def isSignext (last : Op C) (src : Reg) (size : OpSize) : Bool :=
  match last with
  | .sbfe field _ src' => field.width = 1 ∧ field.lsb = size.bits - 1 ∧ src' = src
  | _ => false

def isZero : Op C → Bool
  | .constant _ value patchSite => value = 0 ∧ patchSite = false
  | _ => false

/-- The earlier operation extends the lower half of a dividend. -/
def isExtension (signed : Bool) (last : Op C) (lower : Reg) (size : OpSize) : Bool :=
  if signed then isSignext last lower size else isZero last

/-- The moves that are merged when nothing else applies. -/
def mergeMove (last code : Op C) : Option (Fusion C) :=
  match last.dest with
  | none => none
  | some dst =>
    if code.dest = some dst then
      (killMove last code).map fun (op, src) => .killMove (op.substArgs dst src)
    else none

def tryPostRAMerge (cfg : Config C) (last code : Op C) : Option (Fusion C) :=
  match code, last with
  | .push size valueSize dst value addr, .push size' valueSize' dst' value' addr' =>
    if size' = size ∧ valueSize' = valueSize ∧ dst = dst' ∧ dst = addr ∧ dst = addr' ∧
        dst ≠ value ∧ dst ≠ value' ∧ valueSize.atLeast32 then
      some (.pushTwo size valueSize value value' addr)
    else mergeMove last code
  | .pop size addr value, .pop size' addr' value' =>
    if size' = size ∧ size.atLeast32 ∧ addr = addr' then some (.popTwo size addr value' value)
    else mergeMove last code
  | .div signed size lower (some upper) divisor quotient remainder, last =>
    if size.atLeast32 ∧ last.dest = some upper ∧ isExtension signed last lower size then
      some (.shortDiv signed size lower divisor quotient remainder (upper = remainder))
    else mergeMove last code
  | .xgetbv function outEAX outEDX, .constant dst value false =>
    match decide (function = dst), cfg.cpuid.constantXCRFunction (value.setWidth 32) with
    | true, some r =>
      some (.constants [.constant outEAX (r.1.setWidth 64) false,
        .constant outEDX (r.2.setWidth 64) false])
    | _, _ => mergeMove last code
  | .cpuid function _ outEAX outEBX outECX outEDX, .constant dst value false =>
    match decide (function = dst), cfg.cpuid.constantFunction (value.setWidth 32) with
    | true, some r =>
      some (.constants [.fence, .constant outEAX (r.1.setWidth 64) false,
        .constant outEBX (r.2.1.setWidth 64) false, .constant outECX (r.2.2.1.setWidth 64) false,
        .constant outEDX (r.2.2.2.setWidth 64) false])
    | _, _ => mergeMove last code
  | _, _ => mergeMove last code

/-- The code in the place of the two operations. -/
def merged (cfg : Config C) (last code : Op C) : List (Op C) :=
  match tryPostRAMerge cfg last code with
  | none => [last, code]
  | some fusion => fusion.apply last

end FastPPC.Ra
