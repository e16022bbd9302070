import FastPPC.Ir.Flags
import FastPPC.Ir.Ssa

/-!
# Blocks of flag operations

The integer part of an IR block that the flag passes look at: a list of nodes, each of which
defines one SSA value, may write some of the packed flags and may end in a conditional branch.
The operations that no flag pass inspects are uninterpreted functions (`Interp`) of their
arguments, the flags and the rest of the machine; `Opcode.writes` lists the flags that each of them
may write, as `ClassifyConst` and `Classify` do.

* `step` : one node, as the PPC64LE backend lowers it;
* `step_env_of_ne`, `step_flags_of_writes` : what a node leaves alone.
-/

namespace FastPPC.Ir

open BitVec

/-- The operations without a form of their own here, with what decides the flags they write. -/
inductive Opcode
  | andWithFlags | addWithFlags | adcWithFlags | adcZeroWithFlags | sbbWithFlags
  | shiftFlags | rotateFlags | rdRand
  | addNZCV | subNZCV | testNZ | fCmp | axFlag | fCmpX86
  | cmpPairZ | carryInvert | setSmallNZV
  | adcNZCV | sbbNZCV | condSubNZCV | condAddNZCV
  | rmifNZCV (mask : Nzcv)
  | invalidateFlags (flags : Nzcv)
  /-- Any operation that writes no flag. -/
  | plain (code : ℕ)
  deriving DecidableEq

def Nzcv.all : Nzcv := ⟨true, true, true, true⟩

def Nzcv.none : Nzcv := ⟨false, false, false, false⟩

/-- The set of flags has a member. -/
def Nzcv.any (w : Nzcv) : Bool := w.n || w.z || w.c || w.v

/-- The flags of `new` on the set `w`, those of `old` elsewhere. -/
def Nzcv.merge (w new old : Nzcv) : Nzcv where
  n := if w.n then new.n else old.n
  z := if w.z then new.z else old.z
  c := if w.c then new.c else old.c
  v := if w.v then new.v else old.v

/-- The write set of `ClassifyConst` and `Classify`. -/
def Opcode.writes : Opcode → Nzcv
  | .rotateFlags => ⟨false, false, true, true⟩
  | .cmpPairZ => ⟨false, true, false, false⟩
  | .carryInvert => ⟨false, false, true, false⟩
  | .setSmallNZV => ⟨true, true, false, true⟩
  | .rmifNZCV mask => mask
  | .invalidateFlags flags => flags
  | .plain _ => .none
  | _ => .all

/-- The operations of a block.  A conditional jump reads the flags (`FromNZCV`) or compares. -/
inductive Op
  | subWithFlags (size : CompareSize) (src1 src2 : Operand)
  | loadNZCV
  | storeNZCV (value : Operand)
  | bfi (width lsb : ℕ) (dest src : Operand)
  | nzcvSelect (size : CompareSize) (cond : CondClass) (trueVal falseVal : Operand)
  | select (size compareSize : CompareSize) (cond : CondClass)
      (cmp1 cmp2 trueVal falseVal : Operand)
  | condJumpNZCV (cond : CondClass)
  | condJump (compareSize : CompareSize) (cond : CondClass) (cmp1 cmp2 : Operand)
  | other (opcode : Opcode) (args : List Operand)
  deriving DecidableEq

abbrev Node := SsaNode Op

def Op.args : Op → List Operand
  | .subWithFlags _ src1 src2 => [src1, src2]
  | .loadNZCV => []
  | .storeNZCV value => [value]
  | .bfi _ _ dest src => [dest, src]
  | .nzcvSelect _ _ trueVal falseVal => [trueVal, falseVal]
  | .select _ _ _ cmp1 cmp2 trueVal falseVal => [cmp1, cmp2, trueVal, falseVal]
  | .condJumpNZCV _ => []
  | .condJump _ _ cmp1 cmp2 => [cmp1, cmp2]
  | .other _ args => args

def Op.writes : Op → Nzcv
  | .subWithFlags .. | .storeNZCV _ => .all
  | .other opcode _ => opcode.writes
  | _ => .none

/-- `IROpWritesNZCV`. -/
def Op.writesNZCV (op : Op) : Bool := op.writes.any

/-! ### Meaning -/

/-- The machine as a block sees it: its SSA values, the packed flags, everything else, and the
directions of the conditional branches so far. -/
structure State (σ : Type*) where
  env : ℕ → BitVec 64
  flags : Nzcv
  world : σ
  branches : List Bool

/-- The meaning of the operations that are not interpreted. -/
structure Interp (σ : Type*) where
  exec : Opcode → List (BitVec 64) → Nzcv → σ → BitVec 64 × Nzcv × σ

def Operand.value (env : ℕ → BitVec 64) : Operand → BitVec 64
  | .ssa id => env id
  | .inlineConstant constant => constant
  | .inlineEntrypointOffset offset => offset
  | .immediate value => value
  | .invalid => 0#64

/-- `DEF_OP(Select)` materialises a constant with a 16-bit `li`. -/
def Operand.selectValue (env : ℕ → BitVec 64) : Operand → BitVec 64
  | .inlineConstant constant => (constant.setWidth 16).signExtend 64
  | operand => operand.value env

/-- A 32-bit result clears the upper half of its register. -/
def CompareSize.result (size : CompareSize) (x : BitVec 64) : BitVec 64 :=
  (x.setWidth size.bits).setWidth 64

/-- The layout of the packed flags: N, Z, C and V are the bits 31 to 28. -/
def Nzcv.pack (f : Nzcv) : BitVec 64 :=
  (ofBool f.n ++ ofBool f.z ++ ofBool f.c ++ ofBool f.v ++
    0#28).setWidth 64

def Nzcv.unpack (x : BitVec 64) : Nzcv :=
  ⟨x.getLsbD 31, x.getLsbD 30, x.getLsbD 29, x.getLsbD 28⟩

/-- The bits `[lsb, lsb + width)` of `dest` replaced by the lowest bits of `src`. -/
def bfi (width lsb : ℕ) (dest src : BitVec 64) : BitVec 64 :=
  let mask := (allOnes 64 >>> (64 - width)) <<< lsb
  (dest &&& ~~~mask) ||| ((src <<< lsb) &&& mask)

/-- The flags of a subtraction of two operands. -/
def operandFlags (env : ℕ → BitVec 64) (size : CompareSize) (src1 src2 : Operand) : Nzcv :=
  subFlags ((src1.value env).setWidth size.bits) ((src2.value env).setWidth size.bits)

/-- `EmitCompare` into `cr7` and the bit that `MapCC` selects. -/
def compareHolds (env : ℕ → BitVec 64) (size : CompareSize) (cond : CondClass)
    (cmp1 cmp2 : Operand) : Bool :=
  match cmp2 with
  | .inlineConstant constant =>
    cond.test ((emitCompareConst cond constant).exec size (cmp1.value env))
  | _ => cond.test ((emitCompareReg cond (cmp2.value env)).exec size (cmp1.value env))

variable {σ : Type*} (I : Interp σ)

/-- The value of an interpreted operation. -/
def State.define (s : State σ) (id : ℕ) (x : BitVec 64) : State σ :=
  { s with env := Function.update s.env id x }

def step (s : State σ) (node : Node) : State σ :=
  match node.op with
  | .subWithFlags size src1 src2 =>
    { s.define node.id (size.result (src1.value s.env - src2.value s.env)) with
      flags := operandFlags s.env size src1 src2 }
  | .loadNZCV => s.define node.id s.flags.pack
  | .storeNZCV value => { s with flags := Nzcv.unpack (value.value s.env) }
  | .bfi width lsb dest src =>
    s.define node.id (bfi width lsb (dest.value s.env) (src.value s.env))
  | .nzcvSelect size cond trueVal falseVal =>
    s.define node.id (size.result
      (if cond.holds s.flags then trueVal.value s.env else falseVal.value s.env))
  | .select size compareSize cond cmp1 cmp2 trueVal falseVal =>
    s.define node.id (size.result
      (if compareHolds s.env compareSize cond cmp1 cmp2 then trueVal.selectValue s.env
        else falseVal.selectValue s.env))
  | .condJumpNZCV cond => { s with branches := s.branches ++ [cond.holds s.flags] }
  | .condJump compareSize cond cmp1 cmp2 =>
    { s with branches := s.branches ++ [compareHolds s.env compareSize cond cmp1 cmp2] }
  | .other opcode args =>
    let r := I.exec opcode (args.map (Operand.value s.env)) s.flags s.world
    { env := Function.update s.env node.id r.1
      flags := opcode.writes.merge r.2.1 s.flags
      world := r.2.2
      branches := s.branches }

def run (s : State σ) (nodes : List Node) : State σ := nodes.foldl (step I) s

/-! ### What a node leaves alone -/

theorem step_env_of_ne (s : State σ) {node : Node} {id : ℕ} (h : id ≠ node.id) :
    (step I s node).env id = s.env id := by
  unfold step
  split <;> simp [State.define, h]

theorem Operand.value_step {s : State σ} {node : Node} {ids : List ℕ} {o : Operand}
    (h : o.DefinedIn ids) (hid : node.id ∉ ids) : o.value (step I s node).env = o.value s.env := by
  cases o with
  | ssa i =>
    refine step_env_of_ne I s ?_
    rintro rfl
    exact hid h
  | _ => rfl

theorem operandFlags_step {s : State σ} {node : Node} {ids : List ℕ} {size : CompareSize}
    {src1 src2 : Operand} (h1 : src1.DefinedIn ids) (h2 : src2.DefinedIn ids)
    (hid : node.id ∉ ids) :
    operandFlags (step I s node).env size src1 src2 = operandFlags s.env size src1 src2 := by
  rw [operandFlags, operandFlags, Operand.value_step I h1 hid, Operand.value_step I h2 hid]

theorem Nzcv.merge_of_not_any {w : Nzcv} (h : w.any = false) (new old : Nzcv) :
    w.merge new old = old := by
  simp only [Nzcv.any, Bool.or_eq_false_iff] at h
  obtain ⟨⟨⟨hn, hz⟩, hc⟩, hv⟩ := h
  simp [Nzcv.merge, hn, hz, hc, hv]

/-- A node that writes no flag leaves all of them. -/
theorem step_flags_of_writes (s : State σ) {node : Node} (h : node.op.writesNZCV = false) :
    (step I s node).flags = s.flags := by
  unfold step
  split <;> rename_i hop <;> rw [hop] at h
  case h_1 => cases h
  case h_3 => cases h
  case h_9 opcode args => exact Nzcv.merge_of_not_any h _ _
  all_goals rfl

theorem Nzcv.unpack_pack (f : Nzcv) : Nzcv.unpack f.pack = f := by
  rcases f with ⟨n, z, c, v⟩
  cases n <;> cases z <;> cases c <;> cases v <;> rfl

/-- A carry splice keeps the other three flags. -/
theorem unpack_bfi_carry (dest src : BitVec 64) :
    (Nzcv.unpack (bfi 1 29 dest src)).n = (Nzcv.unpack dest).n ∧
      (Nzcv.unpack (bfi 1 29 dest src)).z = (Nzcv.unpack dest).z ∧
      (Nzcv.unpack (bfi 1 29 dest src)).v = (Nzcv.unpack dest).v := by
  have hms : (allOnes 64 >>> (64 - 1)) <<< 29 = 0x20000000#64 := by decide
  simp only [Nzcv.unpack, bfi]
  refine ⟨?_, ?_, ?_⟩ <;> simp

end FastPPC.Ir
