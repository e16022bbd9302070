import FastPPC.Ir.Ssa

/-!
# Scalar operations on vector registers

The scalar SSE operations work on element 0 of a 128-bit register and take the other elements from
one operand.  The PPC64LE backend lowers them by splatting element 0 of every operand over the
register, computing all lanes and merging lane 0 into the result; with `SplatResult` it leaves the
merge out, and an operand whose defining operation has `SplatResult` is not splatted again
(`IsSplatFormValue`).  What one lane computes is uninterpreted.

* `V128`, `Elem`, `V128.splat`, `V128.insert0`, `V128.map2`, `V128.map3` : lanes;
* `VectorOp` and `VState.step` : the operations as the backend lowers them;
* `VectorOp.view` : how much of an argument an operation reads.
-/

namespace FastPPC.Ir

/-- A vector register as four words, the lowest first. -/
structure V128 where
  w0 : BitVec 32
  w1 : BitVec 32
  w2 : BitVec 32
  w3 : BitVec 32
  deriving DecidableEq

inductive ElementSize
  | i32
  | i64
  deriving DecidableEq

def ElementSize.bytes : ElementSize → ℕ
  | .i32 => 4
  | .i64 => 8

/-- An element: a word, or a low and a high word. -/
def Elem : ElementSize → Type
  | .i32 => BitVec 32
  | .i64 => BitVec 32 × BitVec 32

namespace V128

def elem0 : (es : ElementSize) → V128 → Elem es
  | .i32, v => v.w0
  | .i64, v => (v.w0, v.w1)

/-- The vector with its element 0 replaced. -/
def insert0 : (es : ElementSize) → V128 → Elem es → V128
  | .i32, v, e => ⟨e, v.w1, v.w2, v.w3⟩
  | .i64, v, e => ⟨e.1, e.2, v.w2, v.w3⟩

def splat : (es : ElementSize) → Elem es → V128
  | .i32, e => ⟨e, e, e, e⟩
  | .i64, e => ⟨e.1, e.2, e.1, e.2⟩

/-- A vector instruction with two operands, lane by lane. -/
def map2 : (es : ElementSize) → (Elem es → Elem es → Elem es) → V128 → V128 → V128
  | .i32, f, a, b => ⟨f a.w0 b.w0, f a.w1 b.w1, f a.w2 b.w2, f a.w3 b.w3⟩
  | .i64, f, a, b =>
    ⟨(f (a.w0, a.w1) (b.w0, b.w1)).1, (f (a.w0, a.w1) (b.w0, b.w1)).2,
      (f (a.w2, a.w3) (b.w2, b.w3)).1, (f (a.w2, a.w3) (b.w2, b.w3)).2⟩

/-- A fused instruction with three operands, lane by lane. -/
def map3 : (es : ElementSize) → (Elem es → Elem es → Elem es → Elem es) → V128 → V128 → V128 → V128
  | .i32, f, a, b, c => ⟨f a.w0 b.w0 c.w0, f a.w1 b.w1 c.w1, f a.w2 b.w2 c.w2, f a.w3 b.w3 c.w3⟩
  | .i64, f, a, b, c =>
    ⟨(f (a.w0, a.w1) (b.w0, b.w1) (c.w0, c.w1)).1, (f (a.w0, a.w1) (b.w0, b.w1) (c.w0, c.w1)).2,
      (f (a.w2, a.w3) (b.w2, b.w3) (c.w2, c.w3)).1, (f (a.w2, a.w3) (b.w2, b.w3) (c.w2, c.w3)).2⟩

@[simp] theorem elem0_insert0 (es : ElementSize) (v : V128) (e : Elem es) :
    elem0 es (insert0 es v e) = e := by
  cases es <;> rfl

@[simp] theorem elem0_splat (es : ElementSize) (e : Elem es) : elem0 es (splat es e) = e := by
  cases es <;> rfl

@[simp] theorem map2_splat (es : ElementSize) (f : Elem es → Elem es → Elem es) (a b : Elem es) :
    map2 es f (splat es a) (splat es b) = splat es (f a b) := by
  cases es <;> rfl

@[simp] theorem map3_splat (es : ElementSize) (f : Elem es → Elem es → Elem es → Elem es)
    (a b c : Elem es) : map3 es f (splat es a) (splat es b) (splat es c) = splat es (f a b c) := by
  cases es <;> rfl

end V128

/-! ### Operations -/

inductive ArithOp
  | add | sub | mul | div
  deriving DecidableEq

inductive FmaOp
  | mla | mls | nmla | nmls
  deriving DecidableEq

inductive MinMaxOp
  | min | max
  deriving DecidableEq

inductive RegisterSize
  | i128
  | i256
  deriving DecidableEq

/-- The sizes of a memory store. -/
inductive StoreSize
  | i8 | i16 | i32 | i64 | i128
  deriving DecidableEq

def StoreSize.bytes : StoreSize → ℕ
  | .i8 => 1
  | .i16 => 2
  | .i32 => 4
  | .i64 => 8
  | .i128 => 16

/-- A guest register of the register cache. -/
inductive Reg
  | fpr (n : ℕ)
  | gpr (n : ℕ)
  deriving DecidableEq

/-- The operations that the pass knows, and the others. -/
inductive VectorOp
  /-- `VF{Add,Sub,Mul,Div}ScalarInsert`. -/
  | arith (op : ArithOp) (size : RegisterSize) (es : ElementSize) (zeroUpperBits splatResult : Bool)
      (vector1 vector2 : Operand)
  /-- `VF{,N}ML{A,S}ScalarInsert`. -/
  | fma (op : FmaOp) (size : RegisterSize) (es : ElementSize) (splatResult : Bool)
      (upper vector1 vector2 addend : Operand)
  /-- `VF{Min,Max}ScalarInsert`. -/
  | minMax (op : MinMaxOp) (es : ElementSize) (vector1 vector2 : Operand)
  /-- `VInsElement` with both indices 0. -/
  | vInsElement (es : ElementSize) (destVector srcVector : Operand)
  | storeMem (isFPR : Bool) (size : StoreSize) (value addr offset : Operand)
  | storeRegister (reg : Reg) (value : Operand)
  | loadRegister (reg : Reg)
  | other (code : ℕ) (args : List Operand)
  deriving DecidableEq

abbrev VNode := SsaNode VectorOp

namespace VectorOp

def args : VectorOp → List Operand
  | .arith _ _ _ _ _ vector1 vector2 => [vector1, vector2]
  | .fma _ _ _ _ upper vector1 vector2 addend => [upper, vector1, vector2, addend]
  | .minMax _ _ vector1 vector2 => [vector1, vector2]
  | .vInsElement _ destVector srcVector => [destVector, srcVector]
  | .storeMem _ _ value addr offset => [value, addr, offset]
  | .storeRegister _ value => [value]
  | .loadRegister _ => []
  | .other _ args => args

/-- The operation with each argument replaced by a function of its index. -/
def mapArgs (f : ℕ → Operand → Operand) : VectorOp → VectorOp
  | .arith op size es zeroUpperBits splatResult vector1 vector2 =>
    .arith op size es zeroUpperBits splatResult (f 0 vector1) (f 1 vector2)
  | .fma op size es splatResult upper vector1 vector2 addend =>
    .fma op size es splatResult (f 0 upper) (f 1 vector1) (f 2 vector2) (f 3 addend)
  | .minMax op es vector1 vector2 => .minMax op es (f 0 vector1) (f 1 vector2)
  | .vInsElement es destVector srcVector => .vInsElement es (f 0 destVector) (f 1 srcVector)
  | .storeMem isFPR size value addr offset =>
    .storeMem isFPR size (f 0 value) (f 1 addr) (f 2 offset)
  | .storeRegister reg value => .storeRegister reg (f 0 value)
  | .loadRegister reg => .loadRegister reg
  | .other code args => .other code (args.mapIdx f)

theorem args_mapArgs (f : ℕ → Operand → Operand) (op : VectorOp) :
    (op.mapArgs f).args = op.args.mapIdx f := by
  cases op <;> simp [mapArgs, args]

/-- The `SplatResult` bit. -/
def splatResult : VectorOp → Bool
  | .arith _ _ _ _ splatResult _ _ => splatResult
  | .fma _ _ _ splatResult _ _ _ _ => splatResult
  | _ => false

end VectorOp

/-! ### Meaning -/

/-- A block sees SSA values with the splat form of their defining operations, the guest registers
and everything else. -/
structure VState (σ : Type*) where
  env : ℕ → V128
  splatForm : ℕ → Option ElementSize
  regs : Reg → V128
  world : σ

/-- What one lane of an operation computes, and the meaning of the other operations. -/
structure VInterp (σ : Type*) where
  arith : ArithOp → (es : ElementSize) → Elem es → Elem es → Elem es
  fma : FmaOp → (es : ElementSize) → Elem es → Elem es → Elem es → Elem es
  minMax : MinMaxOp → (es : ElementSize) → Elem es → Elem es → Elem es
  store : List (BitVec 32) → V128 → V128 → σ → σ
  exec : ℕ → List V128 → σ → V128 × σ

/-- The value of an operand; a constant sits in a general register. -/
def Operand.vector (env : ℕ → V128) : Operand → V128
  | .ssa id => env id
  | .inlineConstant c | .inlineEntrypointOffset c | .immediate c =>
    ⟨c.setWidth 32, (c >>> 32).setWidth 32, 0#32, 0#32⟩
  | .invalid => ⟨0#32, 0#32, 0#32, 0#32⟩

/-- The lowest bytes of a vector, as a store of that size writes them. -/
def StoreSize.low : StoreSize → V128 → List (BitVec 32)
  | .i8, v => [v.w0 &&& 0xFF#32]
  | .i16, v => [v.w0 &&& 0xFFFF#32]
  | .i32, v => [v.w0]
  | .i64, v => [v.w0, v.w1]
  | .i128, v => [v.w0, v.w1, v.w2, v.w3]

namespace VState

variable {σ : Type*} (I : VInterp σ) (s : VState σ)

def isSplatFormValue : Operand → ElementSize → Bool
  | .ssa id, es => s.splatForm id == some es
  | _, _ => false

/-- An operand as the lanes read it: as it is in splat form, otherwise splatted from element 0. -/
def splatOperand (es : ElementSize) (o : Operand) : V128 :=
  if s.isSplatFormValue o es then o.vector s.env else V128.splat es (V128.elem0 es (o.vector s.env))

/-- The words a floating-point store writes.  A splat-form source is stored without its positioning
permute, straight from the upper doubleword. -/
def storedFPR (size : StoreSize) (o : Operand) : List (BitVec 32) :=
  match size with
  | .i32 =>
    if s.isSplatFormValue o .i32 || s.isSplatFormValue o .i64 then [(o.vector s.env).w2]
    else size.low (o.vector s.env)
  | .i64 =>
    if s.isSplatFormValue o .i64 then [(o.vector s.env).w2, (o.vector s.env).w3]
    else size.low (o.vector s.env)
  | _ => size.low (o.vector s.env)

def define (id : ℕ) (v : V128) (form : Option ElementSize) : VState σ :=
  { s with env := Function.update s.env id v, splatForm := Function.update s.splatForm id form }

/-- The result of a scalar operation whose lanes are `r`: `r` itself in splat form, or `upper` with
the element 0 of `r`. -/
def defineScalar (id : ℕ) (es : ElementSize) (splatResult : Bool) (upper r : V128) : VState σ :=
  if splatResult then s.define id r (some es)
  else s.define id (V128.insert0 es upper (V128.elem0 es r)) none

def step (node : VNode) : VState σ :=
  match node.op with
  | .arith op _ es _ splatResult vector1 vector2 =>
    s.defineScalar node.id es splatResult (vector1.vector s.env)
      (V128.map2 es (I.arith op es) (s.splatOperand es vector1) (s.splatOperand es vector2))
  | .fma op _ es splatResult upper vector1 vector2 addend =>
    s.defineScalar node.id es splatResult (upper.vector s.env)
      (V128.map3 es (I.fma op es) (s.splatOperand es vector1) (s.splatOperand es vector2)
        (s.splatOperand es addend))
  | .minMax op es vector1 vector2 =>
    s.define node.id (V128.insert0 es (vector1.vector s.env)
      (I.minMax op es (V128.elem0 es (vector1.vector s.env))
        (V128.elem0 es (vector2.vector s.env)))) none
  | .vInsElement es destVector srcVector =>
    s.define node.id (V128.insert0 es (destVector.vector s.env)
      (V128.elem0 es (srcVector.vector s.env))) none
  | .storeMem isFPR size value addr offset =>
    { s with
      world := I.store
        (if isFPR then s.storedFPR size value else size.low (value.vector s.env))
        (addr.vector s.env) (offset.vector s.env) s.world }
  | .storeRegister reg value =>
    { s with regs := Function.update s.regs reg (value.vector s.env) }
  | .loadRegister reg => s.define node.id (s.regs reg) none
  | .other code args =>
    let r := I.exec code (args.map (Operand.vector s.env)) s.world
    { s.define node.id r.1 none with world := r.2 }

def run (nodes : List VNode) : VState σ := nodes.foldl (VState.step I) s

end VState

/-- What an operation sees of an argument. -/
inductive View
  | full (v : V128)
  | element (es : ElementSize) (e : Elem es)
  | low (words : List (BitVec 32))
  | unread

/-- How much of its argument `i` an operation reads.  Without the merge of its result a scalar
operation reads only element 0 of its operands. -/
def VectorOp.view (op : VectorOp) (i : ℕ) (v : V128) : View :=
  match op, i with
  | .arith _ _ es _ splatResult _ _, 0 =>
    if splatResult then .element es (V128.elem0 es v) else .full v
  | .arith _ _ es _ _ _ _, _ => .element es (V128.elem0 es v)
  | .fma _ _ _ splatResult _ _ _ _, 0 => if splatResult then .unread else .full v
  | .fma _ _ es _ _ _ _ _, _ => .element es (V128.elem0 es v)
  | .minMax _ es _ _, 1 => .element es (V128.elem0 es v)
  | .vInsElement es _ _, 1 => .element es (V128.elem0 es v)
  | .storeMem true size _ _ _, 0 => .low (size.low v)
  | _, _ => .full v

end FastPPC.Ir
