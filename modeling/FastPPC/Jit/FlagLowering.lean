import FastPPC.Jit.FlagArith
import FastPPC.Ppc.Imm

/-!
# Lowering of the integer operations that write flags

`ALUOps.cpp` of the PPC64LE back end, for the additions, subtractions, masks and conditional
compares that leave the packed flags.

* `Operand` : a source in a register, or an inline constant that has no register;
* `FlagOp` : the operations, with their meaning at the operand size (`FlagOp.value`,
  `FlagOp.flags`);
* `FlagOp.lower` : the instructions emitted for each of them.

The temporaries are r3 to r6; r0 holds zero in translated code; values are allocated to registers
above the temporaries.
-/

namespace FastPPC

/-- The conditions on integer flags; the others are about floating-point compares or single bits. -/
def Ir.CondClass.isInteger : Ir.CondClass → Bool
  | .flu | .fge | .fleu | .fgt | .tstz | .tstnz | .al => false
  | _ => true

namespace Jit

open Ppc
open Ir (Nzcv CondClass subFlags)

/-- What the code generator knows of the host and of the environment: `SupportsISA30`, and the
switches of the logical immediates, of the shifted constants and of the arithmetic `XER` writes. -/
structure Host where
  supportsISA30 : Bool
  logicalImm : Bool
  shiftedImm32 : Bool
  xerArithDisabled : Bool

inductive OpSize
  | i8Bit | i16Bit | i32Bit | i64Bit
  deriving DecidableEq

def OpSize.bits : OpSize → ℕ
  | i8Bit => 8
  | i16Bit => 16
  | i32Bit => 32
  | i64Bit => 64

/-- A source operand.  The node of an inline constant has no register of its own; `stale` is the
one that its register byte happens to name. -/
inductive Operand
  | reg (r : Reg)
  | inlineConstant (constant : BitVec 64) (stale : Reg)
  deriving DecidableEq

namespace Operand

/-- `GetReg`, which does not look at what the node is. -/
def getReg : Operand → Reg
  | reg r => r
  | inlineConstant _ stale => stale

def getZeroableReg : Operand → Reg
  | reg r => r
  | inlineConstant constant stale => if constant = 0 then 0 else stale

/-- The value the IR gives the operand. -/
def value (r : Regs) : Operand → BitVec 64
  | reg a => r.gpr a
  | inlineConstant constant _ => constant

@[simp] theorem value_reg (r : Regs) (a : Reg) : (reg a).value r = r.gpr a := rfl

@[simp]
theorem value_inlineConstant (r : Regs) (c : BitVec 64) (stale : Reg) :
    (inlineConstant c stale).value r = c := rfl

@[simp] theorem getReg_reg (a : Reg) : (reg a).getReg = a := rfl

@[simp]
theorem getReg_inlineConstant (c : BitVec 64) (stale : Reg) :
    (inlineConstant c stale).getReg = stale := rfl

end Operand

/-! ### The operations -/

inductive FlagOp
  | addWithFlags (size : OpSize) (dst : Reg) (src1 src2 : Operand)
  | subWithFlags (size : OpSize) (dst : Reg) (src1 src2 : Operand)
  | addNZCV (size : OpSize) (src1 src2 : Operand)
  | subNZCV (size : OpSize) (src1 src2 : Operand)
  | testNZ (size : OpSize) (src1 src2 : Operand)
  | andWithFlags (size : OpSize) (dst : Reg) (src1 src2 : Operand)
  | adc (size : OpSize) (dst : Reg) (src1 src2 : Operand)
  | sbb (size : OpSize) (dst : Reg) (src1 src2 : Operand)
  | adcWithFlags (size : OpSize) (dst : Reg) (src1 src2 : Operand)
  | sbbWithFlags (size : OpSize) (dst : Reg) (src1 src2 : Operand)
  | adcZero (size : OpSize) (dst : Reg) (src1 : Operand)
  | adcZeroWithFlags (size : OpSize) (dst : Reg) (src1 : Operand)
  | adcNZCV (size : OpSize) (src1 src2 : Operand)
  | sbbNZCV (size : OpSize) (src1 src2 : Operand)
  | condAddNZCV (size : OpSize) (src1 src2 : Operand) (cond : CondClass) (falseNZCV : BitVec 8)
  | condSubNZCV (size : OpSize) (src1 src2 : Operand) (cond : CondClass) (falseNZCV : BitVec 8)

/-- The flags that a four-bit literal stands for. -/
def nzcvOf (nzcv : BitVec 8) : Nzcv :=
  ⟨nzcv.getLsbD 3, nzcv.getLsbD 2, nzcv.getLsbD 1, nzcv.getLsbD 0⟩

/-- The flags of a logical operation. -/
def logicFlags {w : ℕ} (x : BitVec w) : Nzcv := ⟨x.msb, x == 0, false, false⟩

namespace FlagOp

def dst : FlagOp → Option Reg
  | addWithFlags _ d _ _ | subWithFlags _ d _ _ | andWithFlags _ d _ _ | adc _ d _ _
  | sbb _ d _ _ | adcWithFlags _ d _ _ | sbbWithFlags _ d _ _ | adcZero _ d _
  | adcZeroWithFlags _ d _ => some d
  | _ => none

section Meaning

variable (v : Operand → BitVec 64) (f : Nzcv)

/-- The result at the operand size, zero-extended.  The carry that `Adc` and `Sbb` take in is that
of the flags; `AdcZero` takes it inverted. -/
def value : FlagOp → BitVec 64
  | addWithFlags size _ s1 s2 =>
    ((v s1).setWidth size.bits + (v s2).setWidth size.bits).setWidth 64
  | subWithFlags size _ s1 s2 =>
    ((v s1).setWidth size.bits - (v s2).setWidth size.bits).setWidth 64
  | andWithFlags size _ s1 s2 =>
    ((v s1).setWidth size.bits &&& (v s2).setWidth size.bits).setWidth 64
  | adc size _ s1 s2 | adcWithFlags size _ s1 s2 =>
    (addCarry ((v s1).setWidth size.bits) ((v s2).setWidth size.bits) f.c).setWidth 64
  | sbb size _ s1 s2 | sbbWithFlags size _ s1 s2 =>
    (addCarry ((v s1).setWidth size.bits) (~~~ (v s2).setWidth size.bits) f.c).setWidth 64
  | adcZero size _ s1 | adcZeroWithFlags size _ s1 =>
    (addCarry ((v s1).setWidth size.bits) 0 (!f.c)).setWidth 64
  | _ => 0

/-- The flags after an operation, from those before it. -/
def flags : FlagOp → Nzcv
  | addWithFlags size _ s1 s2 | addNZCV size s1 s2 =>
    adcFlags ((v s1).setWidth size.bits) ((v s2).setWidth size.bits) false
  | subWithFlags size _ s1 s2 | subNZCV size s1 s2 =>
    subFlags ((v s1).setWidth size.bits) ((v s2).setWidth size.bits)
  | andWithFlags size _ s1 s2 | testNZ size s1 s2 =>
    logicFlags ((v s1).setWidth size.bits &&& (v s2).setWidth size.bits)
  | adcWithFlags size _ s1 s2 | adcNZCV size s1 s2 =>
    adcFlags ((v s1).setWidth size.bits) ((v s2).setWidth size.bits) f.c
  | sbbWithFlags size _ s1 s2 | sbbNZCV size s1 s2 =>
    adcFlags ((v s1).setWidth size.bits) (~~~ (v s2).setWidth size.bits) f.c
  | adcZeroWithFlags size _ s1 => adcFlags ((v s1).setWidth size.bits) 0 (!f.c)
  | condAddNZCV size s1 s2 cond falseNZCV =>
    if cond.holds f then adcFlags ((v s1).setWidth size.bits) ((v s2).setWidth size.bits) false
    else nzcvOf falseNZCV
  | condSubNZCV size s1 s2 cond falseNZCV =>
    if cond.holds f then subFlags ((v s1).setWidth size.bits) ((v s2).setWidth size.bits)
    else nzcvOf falseNZCV
  | adc .. | sbb .. | adcZero .. => f

end Meaning

/-- `Adc` and `Sbb` only stand where the flags are dead, and leave the carry undefined. -/
def definesCarry : FlagOp → Bool
  | adc .. | sbb .. => false
  | _ => true

end FlagOp

/-! ### Masks -/

inductive AndMaskForm
  | none
  | zero
  | move
  | clearLeft (mb : ℕ)
  | clearRight (me : ℕ)
  | word (mb me : ℕ)
  | insertZeroField (mb sh : ℕ)
  | clearBoth (mb me : ℕ)

/-- `IsRun64`, `IsRun32`: the ones form a single run. -/
def isRun {w : ℕ} (x : BitVec w) : Bool :=
  x != 0 && popcount x + x.clz.toNat + x.ctz.toNat == w

/-- `std::countr_one`. -/
def countrOne (x : BitVec 64) : ℕ := (~~~ x).ctz.toNat

def classifyAndMask64 (m : BitVec 64) (allowWord : Bool) : AndMaskForm :=
  if m = 0 then .zero
  else if m = BitVec.allOnes 64 then .move
  else if m &&& (m + 1) = 0 then .clearLeft (64 - countrOne m)
  else if ~~~ m &&& (~~~ m + 1) = 0 then .clearRight (63 - countrOne (~~~ m))
  else if allowWord ∧ m.toNat ≤ 0xffffffff ∧ isRun (m.setWidth 32) then
    .word (31 - (31 - (m.setWidth 32).clz.toNat)) (31 - (m.setWidth 32).ctz.toNat)
  else if isRun (~~~ m) then
    .insertZeroField (63 - (63 - (~~~ m).clz.toNat)) (~~~ m).ctz.toNat
  else if isRun m then .clearBoth (63 - (63 - m.clz.toNat)) (63 - m.ctz.toNat)
  else .none

def AndMaskForm.cost : AndMaskForm → ℕ
  | none => 99
  | zero | move | clearLeft _ | clearRight _ | word .. => 1
  | insertZeroField .. | clearBoth .. => 2

def classifyAndMask (m : BitVec 64) (is32Bit : Bool) : AndMaskForm :=
  if is32Bit then
    let clear := classifyAndMask64 (m &&& 0xffffffff) true
    let keep := classifyAndMask64 (m ||| 0xffffffff00000000) false
    if keep.cost < clear.cost then keep else clear
  else classifyAndMask64 m false

/-- `EmitAndMaskRc`: only two of the forms exist as record forms. -/
def emitAndMaskRc (host : Host) (dst s1 : Reg) (m : BitVec 64) (is32Bit : Bool) :
    Option (List Alu) :=
  if !host.logicalImm then none
  else match classifyAndMask m is32Bit with
    | .clearLeft mb => some [.rldicl true dst s1 0 mb]
    | .word mb me => some [.rlwinm true dst s1 0 mb me]
    | _ => none

/-! ### Emitters -/

@[simp] abbrev tmp1 : Reg := 3

@[simp] abbrev tmp2 : Reg := 4

@[simp] abbrev tmp3 : Reg := 5

@[simp] abbrev tmp4 : Reg := 6

variable (rt ra rb : Reg)

def add : Alu := .xo .add false false rt ra rb

def addo : Alu := .xo .add true false rt ra rb

def addco : Alu := .xo .addc true false rt ra rb

def addco_ : Alu := .xo .addc true true rt ra rb

def adde : Alu := .xo .adde false false rt ra rb

def addeo_ : Alu := .xo .adde true true rt ra rb

def subf : Alu := .xo .subf false false rt ra rb

def subfc : Alu := .xo .subfc false false rt ra rb

def subfco_ : Alu := .xo .subfc true true rt ra rb

def subfe : Alu := .xo .subfe false false rt ra rb

def subfeo_ : Alu := .xo .subfe true true rt ra rb

section Additions

variable (r : Regs) (rt ra rb : Reg)

attribute [simp] add addo addco adde addeo_ subf subfc subfe subfeo_ XoOp.first XoOp.complements
  XoOp.carryIn XoOp.writesCa

@[simp]
theorem gpr_addco_ (a : Reg) : ((addco_ rt ra rb).exec r).gpr a =
    if a = rt then r.gpr ra + r.gpr rb else r.gpr a := gpr_exec_xo ..

@[simp]
theorem flags_addco_ : ((addco_ rt ra rb).exec r).flags =
    adcFlags (r.gpr ra) (r.gpr rb) false := flags_exec_xo_record r _ rt ra rb rfl

@[simp]
theorem gpr_subfco_ (a : Reg) : ((subfco_ rt ra rb).exec r).gpr a =
    if a = rt then r.gpr rb - r.gpr ra else r.gpr a := gpr_exec_xo ..

@[simp]
theorem flags_subfco_ : ((subfco_ rt ra rb).exec r).flags = subFlags (r.gpr rb) (r.gpr ra) := by
  rw [subfco_, flags_exec_xo_record _ _ _ _ _ rfl, subFlags_eq (by decide)]
  rfl

end Additions

section Emit

variable (host : Host)

def loadConstant (rt : Reg) (constant : BitVec 64) : List Alu :=
  loadImm64 host.shiftedImm32 rt constant

def setCAFromBit (b scratch : Reg) : List Alu :=
  if host.xerArithDisabled then [.mfxer scratch, .rlwimi scratch b 29 2 2, .mtxer scratch]
  else [.addic false scratch b (-1)]

def setOVFromBit (b scratch : Reg) : List Alu :=
  if host.xerArithDisabled then [.mfxer scratch, .rlwimi scratch b 30 1 1, .mtxer scratch]
  else [sldi scratch b 62, addo scratch scratch scratch]

def setCAConstant (ca : Bool) (zero scratch : Reg) : List Alu :=
  if host.xerArithDisabled then
    [.mfxer scratch,
      if ca then .oris scratch scratch 0x2000 else .rlwinm false scratch scratch 0 3 1,
      .mtxer scratch]
  else if ca then [subfc scratch zero zero] else [.addic false scratch zero 0]

def setOVConstant (ov : Bool) (zero scratch : Reg) : List Alu :=
  if host.xerArithDisabled then
    [.mfxer scratch,
      if ov then .oris scratch scratch 0x4000 else .rlwinm false scratch scratch 0 2 0,
      .mtxer scratch]
  else if ov then loadConstant host scratch (1 <<< 62) ++ [addo scratch scratch scratch]
  else [addo scratch zero zero]

def emitTestNZSetCR (result : Reg) : OpSize → List Alu
  | .i8Bit => [.exts 8 true tmp1 result]
  | .i16Bit => [.exts 16 true tmp1 result]
  | .i32Bit => [.exts 32 true tmp1 result]
  | .i64Bit => [.cmpdi 0 result 0]

/-- An operand shifted to the top of a temporary; a constant is shifted at emission. -/
def shiftedOperand (tmp : Reg) (sh : ℕ) : Operand → List Alu
  | .reg r => [sldi tmp r sh]
  | .inlineConstant c _ => loadConstant host tmp (c <<< sh)

variable (size : OpSize) (dst : Reg) (src1 src2 : Operand)

def addWithFlags : List Alu :=
  let sh := 64 - size.bits
  if size ≠ .i64Bit then
    [sldi tmp1 src1.getReg sh] ++ shiftedOperand host tmp2 sh src2 ++
      [addco_ tmp1 tmp1 tmp2, srdi dst tmp1 sh]
  else match src2 with
    | .inlineConstant c _ => loadConstant host tmp4 c ++ [addco_ dst src1.getReg tmp4]
    | .reg s2 => [addco_ dst src1.getReg s2]

/-- A constant put into a temporary, and the register that then holds the operand. -/
def materialise (tmp : Reg) : Operand → List Alu × Reg
  | .reg r => ([], r)
  | .inlineConstant c _ => (loadConstant host tmp c, tmp)

def subWithFlags : List Alu :=
  let sh := 64 - size.bits
  if size ≠ .i64Bit then
    let s1 := materialise host tmp3 src1
    let s2 := materialise host tmp4 src2
    s1.1 ++ s2.1 ++
      [sldi tmp1 s1.2 sh, sldi tmp2 s2.2 sh, subfco_ tmp1 tmp2 tmp1, srdi dst tmp1 sh]
  else match src1, src2 with
    | _, .inlineConstant c2 _ => loadConstant host tmp4 c2 ++ [subfco_ dst tmp4 src1.getReg]
    | .inlineConstant c1 _, .reg s2 => loadConstant host tmp4 c1 ++ [subfco_ dst s2 tmp4]
    | .reg s1, .reg s2 => [subfco_ dst s2 s1]

def addNZCV : List Alu :=
  let sh := 64 - size.bits
  if size ≠ .i64Bit then
    [sldi tmp1 src1.getReg sh] ++ shiftedOperand host tmp2 sh src2 ++ [addco_ tmp3 tmp1 tmp2]
  else match src2 with
    | .inlineConstant c _ => loadConstant host tmp4 c ++ [addco_ tmp3 src1.getReg tmp4]
    | .reg s2 => [addco_ tmp3 src1.getReg s2]

def subNZCV : List Alu :=
  let sh := 64 - size.bits
  if size ≠ .i64Bit then
    shiftedOperand host tmp1 sh src1 ++ shiftedOperand host tmp2 sh src2 ++
      [subfco_ tmp3 tmp2 tmp1]
  else match src1, src2 with
    | _, .inlineConstant c2 _ => loadConstant host tmp4 c2 ++ [subfco_ tmp3 tmp4 src1.getReg]
    | .inlineConstant c1 _, .reg s2 => loadConstant host tmp4 c1 ++ [subfco_ tmp3 s2 tmp4]
    | .reg s1, .reg s2 => [subfco_ tmp3 s2 s1]

/-- The masking instruction of `TestNZ` and `AndWithFlags`, which leaves `CR0`. -/
def emitAndRc (size : OpSize) (dst s1 : Reg) : Operand → List Alu
  | .inlineConstant c _ =>
    if c &&& 0xffff = c then [.andi dst s1 (c.setWidth 16)]
    else if host.logicalImm ∧ c &&& 0xffff0000 = c then [.andis dst s1 ((c >>> 16).setWidth 16)]
    else match emitAndMaskRc host dst s1 c (size == .i32Bit) with
      | some is => is
      | none => loadConstant host tmp4 c ++ [.logic .and true dst s1 tmp4]
  | .reg s2 => [.logic .and true dst s1 s2]

def testNZ : List Alu :=
  emitAndRc host size tmp3 src1.getReg src2 ++ [addco tmp1 0 0] ++
    if size ≠ .i64Bit then emitTestNZSetCR tmp3 size else []

def andWithFlags : List Alu :=
  emitAndRc host size dst src1.getReg src2 ++ [addco tmp1 0 0] ++
    (if size ≠ .i64Bit then emitTestNZSetCR dst size else []) ++
    match size with
    | .i32Bit => [clrldi dst dst 32]
    | .i16Bit => [clrldi dst dst 48]
    | .i8Bit => [clrldi dst dst 56]
    | .i64Bit => []

/-- The zero extension of a 32-bit result. -/
def extend32 : List Alu :=
  if size = .i32Bit then [clrldi dst dst 32] else []

def adc : List Alu :=
  [adde dst src1.getReg src2.getReg] ++ extend32 size dst

def sbb : List Alu :=
  [subfe dst src2.getReg src1.getReg] ++ extend32 size dst

def adcZero : List Alu :=
  [subfe tmp2 0 0, subf dst tmp2 src1.getReg] ++ extend32 size dst

/-- The sum of the zero-extended words, its overflow in `TMP2` and its carry in `TMP4`. -/
def adcWord : List Alu :=
  [clrldi tmp1 src1.getReg 32, clrldi tmp2 src2.getReg 32, adde tmp3 tmp1 tmp2,
    .logic .xor false tmp2 tmp2 tmp1, .logic .xor false tmp1 tmp3 tmp1,
    .logic .andc false tmp1 tmp1 tmp2, .rldicl false tmp2 tmp1 33 63, .rldicl false tmp4 tmp3 32 63]

def adcWithFlags : List Alu :=
  if size = .i64Bit then [addeo_ dst src1.getReg src2.getReg]
  else adcWord src1 src2 ++ [clrldi dst tmp3 32] ++ emitTestNZSetCR dst .i32Bit ++
    setCAFromBit host tmp4 tmp1 ++ setOVFromBit host tmp2 tmp1

def sbbWithFlags : List Alu :=
  if size = .i64Bit then [subfeo_ dst src2.getReg src1.getReg]
  else
    [clrldi tmp1 src1.getReg 32, clrldi tmp2 src2.getReg 32, subfe tmp3 tmp2 tmp1,
      .logic .xor false tmp2 tmp2 tmp1, .logic .xor false tmp1 tmp3 tmp1,
      .logic .and false tmp1 tmp1 tmp2, .rldicl false tmp2 tmp1 33 63,
      .rldicl false tmp4 tmp3 32 63, .xori tmp4 tmp4 1, clrldi dst tmp3 32] ++
      emitTestNZSetCR dst .i32Bit ++ setCAFromBit host tmp4 tmp1 ++ setOVFromBit host tmp2 tmp1

def adcZeroWithFlags : List Alu :=
  [subfe tmp4 0 0, .neg tmp4 tmp4] ++
    if size = .i64Bit then [addco_ dst src1.getReg tmp4]
    else
      [clrldi tmp1 src1.getReg 32, add tmp3 tmp1 tmp4, .rldicl false tmp4 tmp3 33 63,
        .rldicl false tmp1 tmp1 33 63, .xori tmp1 tmp1 1, .logic .and false tmp4 tmp4 tmp1,
        .rldicl false tmp2 tmp3 32 63, clrldi dst tmp3 32] ++
        emitTestNZSetCR dst .i32Bit ++ setCAFromBit host tmp2 tmp1 ++ setOVFromBit host tmp4 tmp1

def adcNZCV : List Alu :=
  if size = .i64Bit then [addeo_ tmp3 src1.getReg src2.getReg]
  else adcWord src1 src2 ++ emitTestNZSetCR tmp3 .i32Bit ++
    setCAFromBit host tmp4 tmp1 ++ setOVFromBit host tmp2 tmp1

def sbbNZCV : List Alu :=
  if size = .i64Bit then [subfeo_ tmp3 src2.getReg src1.getReg]
  else
    [clrldi tmp1 src1.getReg 32, clrldi tmp2 src2.getReg 32, subfe tmp3 tmp2 tmp1,
      clrldi tmp4 tmp3 32] ++ emitTestNZSetCR tmp4 .i32Bit ++
    [.rldicl false tmp3 tmp3 32 63, .xori tmp3 tmp3 1,
      .rldicl false tmp1 src1.getReg 33 63, .rldicl false tmp2 src2.getReg 33 63,
      .rldicl false tmp4 tmp4 33 63, .logic .xor false tmp2 tmp2 tmp1,
      .logic .xor false tmp4 tmp4 tmp1, .logic .and false tmp4 tmp4 tmp2] ++
      setCAFromBit host tmp3 tmp1 ++ setOVFromBit host tmp4 tmp1

/-! ### Conditional compares -/

/-- A branch condition: the bit must be set (`BO` 12) or clear (`BO` 4). -/
structure Cond where
  set : Bool
  bi : ℕ
  deriving DecidableEq

def Cond.holds (r : Regs) (cc : Cond) : Bool := r.crBit cc.bi == cc.set

def Cond.invert (cc : Cond) : Cond := ⟨!cc.set, cc.bi⟩

def xerOVBitIndex : ℕ := if host.supportsISA30 then 4 else 5

/-- `ProjectXERToCR1`; nothing is emitted while the projection is known to be valid. -/
def projectXERToCR1 (xerProjectionValid : Bool) : List Alu :=
  if xerProjectionValid then []
  else if host.supportsISA30 then [.mcrxrx 1]
  else [.mfxer tmp1, .rlwinm false tmp2 tmp1 28 0 31, .mtocrf 1 tmp2]

def integerNZCVCond : CondClass → CondClass
  | .fu => .vs
  | .fnu => .vc
  | c => c

/-- `MapNZCVCC`; the bit tests and `AL` are not supported. -/
def mapNZCVCC (xerProjectionValid : Bool) : CondClass → Option (List Alu × Cond)
  | .eq => some ([], ⟨true, 2⟩)
  | .neq => some ([], ⟨false, 2⟩)
  | .mi => some ([], ⟨true, 0⟩)
  | .pl => some ([], ⟨false, 0⟩)
  | .uge => some (project, ⟨true, 6⟩)
  | .ult => some (project, ⟨false, 6⟩)
  | .vs | .fu => some (project, ⟨true, xerOVBitIndex host⟩)
  | .vc | .fnu => some (project, ⟨false, xerOVBitIndex host⟩)
  | .ugt => some (project ++ [.crlogic .crandc 12 6 2], ⟨true, 12⟩)
  | .ule => some (project ++ [.crlogic .crandc 12 6 2], ⟨false, 12⟩)
  | .slt => some (project ++ [.crlogic .crxor 12 0 (xerOVBitIndex host)], ⟨true, 12⟩)
  | .sge => some (project ++ [.crlogic .crxor 12 0 (xerOVBitIndex host)], ⟨false, 12⟩)
  | .sgt => some (project ++ [.crlogic .crxor 12 0 (xerOVBitIndex host), .crlogic .crnor 13 12 2],
      ⟨true, 13⟩)
  | .sle => some (project ++ [.crlogic .crxor 12 0 (xerOVBitIndex host), .crlogic .crnor 13 12 2],
      ⟨false, 13⟩)
  | .flu => some (project ++ [.crlogic .cror 12 0 (xerOVBitIndex host)], ⟨true, 12⟩)
  | .fge => some (project ++ [.crlogic .crnor 12 0 (xerOVBitIndex host)], ⟨true, 12⟩)
  | .fleu => some ([], ⟨false, 1⟩)
  | .fgt => some ([], ⟨true, 1⟩)
  | .tstz | .tstnz | .al => none
where project := projectXERToCR1 host xerProjectionValid

def setNZCVConstant (nzcv : BitVec 8) : List Alu :=
  let cr0Bits : BitVec 32 := (if nzcv.getLsbD 3 then 0x80000000 else 0) |||
    (if nzcv.getLsbD 2 then 0x20000000 else 0)
  [.mfocrf tmp1 0] ++ loadConstant host tmp2 0xa0000000 ++ [.logic .andc false tmp1 tmp1 tmp2] ++
    (if cr0Bits ≠ 0 then
      loadConstant host tmp2 (cr0Bits.setWidth 64) ++ [.logic .or false tmp1 tmp1 tmp2] else []) ++
    [.mtocrf 0 tmp1] ++ setCAConstant host (nzcv.getLsbD 1) 0 tmp1 ++
    setOVConstant host (nzcv.getLsbD 0) 0 tmp2

/-- The taken path of `CondAddNZCV`. -/
def condAddTaken : List Alu :=
  let s1 := src1.getZeroableReg
  if size = .i32Bit then
    [sldi tmp1 s1 32] ++ shiftedOperand host tmp2 32 src2 ++ [addco_ tmp3 tmp1 tmp2]
  else match src2 with
    | .inlineConstant c _ =>
      if -32768 ≤ c.toInt ∧ c.toInt ≤ 32767 then
        -- the record form sets the carry but not the overflow, which is then cleared
        [.addic true tmp3 s1 (c.setWidth 16)] ++ setOVConstant host false 0 tmp1
      else loadConstant host tmp4 c ++ [addco_ tmp3 s1 tmp4]
    | .reg s2 => [addco_ tmp3 s1 s2]

/-- The taken path of `CondSubNZCV`. -/
def condSubTaken : List Alu :=
  let s1 := src1.getZeroableReg
  if size = .i32Bit then
    [sldi tmp1 s1 32] ++ shiftedOperand host tmp2 32 src2 ++ [subfco_ tmp3 tmp2 tmp1]
  else match src2 with
    | .inlineConstant c _ => loadConstant host tmp4 c ++ [subfco_ tmp3 tmp4 s1]
    | .reg s2 => [subfco_ tmp3 s2 s1]

end Emit

/-- Emitted code: a straight line, or a branch over two paths that meet again. -/
inductive Code
  | line (is : List Alu)
  | diamond (head : List Alu) (cc : Cond) (target next : List Alu)

/-- Run the code.  The branch goes to `target` if its condition holds. -/
def Code.exec (r : Regs) : Code → Regs
  | line is => run r is
  | diamond head cc target next =>
    let r₁ := run r head
    if cc.holds r₁ then run r₁ target else run r₁ next

def FlagOp.lower (host : Host) (xerProjectionValid : Bool) : FlagOp → Option Code
  | .addWithFlags size dst s1 s2 => some (.line (Jit.addWithFlags host size dst s1 s2))
  | .subWithFlags size dst s1 s2 => some (.line (Jit.subWithFlags host size dst s1 s2))
  | .addNZCV size s1 s2 => some (.line (Jit.addNZCV host size s1 s2))
  | .subNZCV size s1 s2 => some (.line (Jit.subNZCV host size s1 s2))
  | .testNZ size s1 s2 => some (.line (Jit.testNZ host size s1 s2))
  | .andWithFlags size dst s1 s2 => some (.line (Jit.andWithFlags host size dst s1 s2))
  | .adc size dst s1 s2 => some (.line (Jit.adc size dst s1 s2))
  | .sbb size dst s1 s2 => some (.line (Jit.sbb size dst s1 s2))
  | .adcWithFlags size dst s1 s2 => some (.line (Jit.adcWithFlags host size dst s1 s2))
  | .sbbWithFlags size dst s1 s2 => some (.line (Jit.sbbWithFlags host size dst s1 s2))
  | .adcZero size dst s1 => some (.line (Jit.adcZero size dst s1))
  | .adcZeroWithFlags size dst s1 => some (.line (Jit.adcZeroWithFlags host size dst s1))
  | .adcNZCV size s1 s2 => some (.line (Jit.adcNZCV host size s1 s2))
  | .sbbNZCV size s1 s2 => some (.line (Jit.sbbNZCV host size s1 s2))
  | .condAddNZCV size s1 s2 cond falseNZCV =>
    (mapNZCVCC host xerProjectionValid (integerNZCVCond cond)).map fun p =>
      .diamond p.1 p.2.invert (setNZCVConstant host falseNZCV) (condAddTaken host size s1 s2)
  | .condSubNZCV size s1 s2 cond falseNZCV =>
    (mapNZCVCC host xerProjectionValid (integerNZCVCond cond)).map fun p =>
      .diamond p.1 p.2.invert (setNZCVConstant host falseNZCV) (condSubTaken host size s1 s2)

end Jit

end FastPPC
