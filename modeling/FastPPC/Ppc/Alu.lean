import Mathlib

/-!
# Fixed-point instructions of the Power ISA

The register state and the register-to-register instructions that the back end emits.

* `Regs` : general registers, condition register, `XER`, link and count register;
* `Alu` : the instructions, with `Alu.exec` and `run` for a straight line of them;
* `getLsbD_putBit`, `Regs.gpr_set` and the lemmas after them : what a write changes;
* `exec_sldi`, `exec_srdi`, `exec_clrldi` : the rotates the usual shifts are encoded with.

Bits are numbered from the least significant one; the ISA numbers them from the other end, so its
mask `MASK(mb, me)` is `mask mb me` here and its condition bit `i` is bit `31 - i`.
-/

namespace FastPPC.Ppc

open BitVec

variable {n : ℕ}

abbrev Reg := Fin 32

instance neZero_reg : NeZero 32 := ⟨by decide⟩

instance neZero_field : NeZero 8 := ⟨by decide⟩

/-- Replace one bit. -/
def putBit {n : ℕ} (x : BitVec n) (i : ℕ) (b : Bool) : BitVec n :=
  if b then x ||| twoPow n i else x &&& ~~~ twoPow n i

theorem getLsbD_putBit (x : BitVec n) (i : ℕ) (b : Bool) (j : ℕ) (hj : j < n) :
    (putBit x i b).getLsbD j = if j = i then b else x.getLsbD j := by
  unfold putBit
  by_cases h : j = i
  · subst h
    cases b <;> simp [hj]
  · cases b <;> simp [hj, h]

structure Regs where
  gpr : Reg → BitVec 64
  cr : BitVec 32
  xer : BitVec 64
  lr : BitVec 64
  ctr : BitVec 64

namespace Regs

variable (r : Regs)

def so : Bool := r.xer.getLsbD 31

def ov : Bool := r.xer.getLsbD 30

def ca : Bool := r.xer.getLsbD 29

/-- Condition bit `i` in the numbering of the ISA: four bits for each of the eight fields. -/
def crBit (i : ℕ) : Bool := r.cr.getLsbD (31 - i)

def set (rt : Reg) (v : BitVec 64) : Regs := { r with gpr := Function.update r.gpr rt v }

def setCa (b : Bool) : Regs := { r with xer := putBit r.xer 29 b }

/-- Record an overflow; the summary bit is only ever set. -/
def setOv (b : Bool) : Regs :=
  { r with xer := putBit (putBit r.xer 30 b) 31 (r.so || b) }

def setCrBit (i : ℕ) (b : Bool) : Regs := { r with cr := putBit r.cr (31 - i) b }

def setCrField (bf : Fin 8) (lt gt eq so : Bool) : Regs :=
  (((r.setCrBit (4 * bf) lt).setCrBit (4 * bf + 1) gt).setCrBit (4 * bf + 2) eq).setCrBit
    (4 * bf + 3) so

/-- The comparison of a result with zero that record forms leave in field 0. -/
def record (v : BitVec 64) : Regs :=
  r.setCrField 0 v.msb (!v.msb && v != 0) (v == 0) r.so

/-- The register operand of an address or immediate form, in which register 0 reads as zero. -/
def base (ra : Reg) : BitVec 64 := if ra = 0 then 0 else r.gpr ra

end Regs

/-! ### Instructions -/

/-- The additions: the first operand may be complemented, and what is carried in. -/
inductive XoOp
  | add | addc | adde | subf | subfc | subfe
  deriving DecidableEq

namespace XoOp

/-- The subtractions add the complement of their first operand. -/
def complements : XoOp → Bool
  | add | addc | adde => false
  | subf | subfc | subfe => true

def carryIn (r : Regs) : XoOp → Bool
  | add | addc => false
  | subf | subfc => true
  | adde | subfe => r.ca

def writesCa : XoOp → Bool
  | add | subf => false
  | addc | adde | subfc | subfe => true

end XoOp

inductive LogicOp
  | and | andc | or | xor
  deriving DecidableEq

inductive CrOp
  | crandc | crxor | crnor | cror
  deriving DecidableEq

/-- A sum with carry. -/
def addCarry {w : ℕ} (a b : BitVec w) (c : Bool) : BitVec w := a + b + BitVec.ofNat w c.toNat

/-- The carry out of the top bit. -/
def carryOut {w : ℕ} (a b : BitVec w) (c : Bool) : Bool :=
  decide (2 ^ w ≤ a.toNat + b.toNat + c.toNat)

/-- Signed overflow: the operands agree in sign and the sum does not. -/
def overflow {w : ℕ} (a b : BitVec w) (c : Bool) : Bool :=
  a.msb == b.msb && (addCarry a b c).msb != a.msb

/-- The bits from `mb` to `me` in the numbering of the ISA. -/
def mask (mb me : ℕ) : BitVec 64 :=
  if mb ≤ me then (allOnes 64 >>> mb) &&& (allOnes 64 <<< (63 - me))
  else (allOnes 64 >>> mb) ||| (allOnes 64 <<< (63 - me))

/-- The low word twice, rotated. -/
def rotl32 (x : BitVec 64) (sh : ℕ) : BitVec 64 :=
  let w := (x.setWidth 32).rotateLeft sh
  w.setWidth 64 ||| (w.setWidth 64 <<< 32)

inductive Alu
  | addi (rt ra : Reg) (si : BitVec 16)
  | addis (rt ra : Reg) (si : BitVec 16)
  | addic (rc : Bool) (rt ra : Reg) (si : BitVec 16)
  | xo (op : XoOp) (oe rc : Bool) (rt ra rb : Reg)
  | neg (rt ra : Reg)
  | logic (op : LogicOp) (rc : Bool) (ra rs rb : Reg)
  | ori (ra rs : Reg) (ui : BitVec 16)
  | oris (ra rs : Reg) (ui : BitVec 16)
  | xori (ra rs : Reg) (ui : BitVec 16)
  | andi (ra rs : Reg) (ui : BitVec 16)
  | andis (ra rs : Reg) (ui : BitVec 16)
  | exts (width : ℕ) (rc : Bool) (ra rs : Reg)
  | rldicl (rc : Bool) (ra rs : Reg) (sh mb : ℕ)
  | rldicr (ra rs : Reg) (sh me : ℕ)
  | rldic (ra rs : Reg) (sh mb : ℕ)
  | rlwinm (rc : Bool) (ra rs : Reg) (sh mb me : ℕ)
  | rlwimi (ra rs : Reg) (sh mb me : ℕ)
  | cmpdi (bf : Fin 8) (ra : Reg) (si : BitVec 16)
  | crlogic (op : CrOp) (bt ba bb : ℕ)
  | mcrxrx (bf : Fin 8)
  | mfocrf (rt : Reg) (bf : Fin 8)
  | mtocrf (bf : Fin 8) (rs : Reg)
  | mfxer (rt : Reg)
  | mtxer (rs : Reg)
  deriving DecidableEq

def LogicOp.eval : LogicOp → BitVec 64 → BitVec 64 → BitVec 64
  | and, a, b => a &&& b
  | andc, a, b => a &&& ~~~ b
  | or, a, b => a ||| b
  | xor, a, b => a ^^^ b

def CrOp.eval : CrOp → Bool → Bool → Bool
  | crandc, a, b => a && !b
  | crxor, a, b => a ^^ b
  | crnor, a, b => !(a || b)
  | cror, a, b => a || b

/-- The bits of a condition field within the 32 bits of the register. -/
def fieldMask (bf : Fin 8) : BitVec 32 := 0xf0000000 >>> (4 * bf.val)

namespace Regs

variable (r : Regs)

/-- Write a result, and field 0 if the instruction is a record form. -/
def result (rc : Bool) (rt : Reg) (v : BitVec 64) : Regs :=
  if rc then (r.set rt v).record v else r.set rt v

def compare (bf : Fin 8) (a b : ℤ) : Regs :=
  r.setCrField bf (decide (a < b)) (decide (b < a)) (decide (a = b)) r.so

end Regs

def Alu.exec (r : Regs) : Alu → Regs
  | addi rt ra si => r.set rt (r.base ra + si.signExtend 64)
  | addis rt ra si => r.set rt (r.base ra + si.signExtend 64 <<< 16)
  | addic rc rt ra si =>
    (r.setCa (carryOut (r.gpr ra) (si.signExtend 64) false)).result rc rt
      (r.gpr ra + si.signExtend 64)
  | xo op oe rc rt ra rb =>
    let a := if op.complements then ~~~ r.gpr ra else r.gpr ra
    let b := r.gpr rb
    let c := op.carryIn r
    let r₁ := if op.writesCa then r.setCa (carryOut a b c) else r
    let r₂ := if oe then r₁.setOv (overflow a b c) else r₁
    r₂.result rc rt (addCarry a b c)
  | neg rt ra => r.set rt (-r.gpr ra)
  | logic op rc ra rs rb => r.result rc ra (op.eval (r.gpr rs) (r.gpr rb))
  | ori ra rs ui => r.set ra (r.gpr rs ||| ui.setWidth 64)
  | oris ra rs ui => r.set ra (r.gpr rs ||| ui.setWidth 64 <<< 16)
  | xori ra rs ui => r.set ra (r.gpr rs ^^^ ui.setWidth 64)
  | andi ra rs ui => r.result true ra (r.gpr rs &&& ui.setWidth 64)
  | andis ra rs ui => r.result true ra (r.gpr rs &&& ui.setWidth 64 <<< 16)
  | exts width rc ra rs => r.result rc ra (((r.gpr rs).setWidth width).signExtend 64)
  | rldicl rc ra rs sh mb => r.result rc ra ((r.gpr rs).rotateLeft sh &&& mask mb 63)
  | rldicr ra rs sh me => r.set ra ((r.gpr rs).rotateLeft sh &&& mask 0 me)
  | rldic ra rs sh mb => r.set ra ((r.gpr rs).rotateLeft sh &&& mask mb (63 - sh))
  | rlwinm rc ra rs sh mb me =>
    r.result rc ra (rotl32 (r.gpr rs) sh &&& mask (mb + 32) (me + 32))
  | rlwimi ra rs sh mb me =>
    r.set ra ((rotl32 (r.gpr rs) sh &&& mask (mb + 32) (me + 32)) |||
      (r.gpr ra &&& ~~~ mask (mb + 32) (me + 32)))
  | cmpdi bf ra si => r.compare bf (r.gpr ra).toInt si.toInt
  | crlogic op bt ba bb => r.setCrBit bt (op.eval (r.crBit ba) (r.crBit bb))
  | mcrxrx bf => r.setCrField bf r.ov (r.xer.getLsbD 19) r.ca (r.xer.getLsbD 18)
  -- the bits outside the field are undefined
  | mfocrf rt bf => r.set rt ((r.cr &&& fieldMask bf).setWidth 64)
  | mtocrf bf rs =>
    { r with cr := (r.cr &&& ~~~ fieldMask bf) ||| ((r.gpr rs).setWidth 32 &&& fieldMask bf) }
  | mfxer rt => r.set rt r.xer
  | mtxer rs => { r with xer := r.gpr rs }

def run (r : Regs) (is : List Alu) : Regs := is.foldl Alu.exec r

@[simp]
theorem run_nil (r : Regs) : run r [] = r := rfl

@[simp]
theorem run_cons (r : Regs) (i : Alu) (is : List Alu) : run r (i :: is) = run (i.exec r) is := rfl

theorem run_append (r : Regs) (is js : List Alu) : run r (is ++ js) = run (run r is) js :=
  List.foldl_append

/-! ### Pseudo-instructions -/

def li (rt : Reg) (si : BitVec 16) : Alu := .addi rt 0 si

def lis (rt : Reg) (si : BitVec 16) : Alu := .addis rt 0 si

def sldi (ra rs : Reg) (n : ℕ) : Alu := .rldicr ra rs n (63 - n)

def srdi (ra rs : Reg) (n : ℕ) : Alu := .rldicl false ra rs (64 - n) n

def clrldi (ra rs : Reg) (n : ℕ) : Alu := .rldicl false ra rs 0 n

/-! ### What a write changes -/

namespace Regs

variable (r : Regs)

section

variable (rt : Reg) (v : BitVec 64)

@[simp]
theorem gpr_set (a : Reg) :
    (r.set rt v).gpr a = if a = rt then v else r.gpr a := Function.update_apply _ _ _ _

end

section

variable (b : Bool)

@[simp] theorem gpr_setCa : (r.setCa b).gpr = r.gpr := rfl

@[simp] theorem crBit_setCa (i : ℕ) : (r.setCa b).crBit i = r.crBit i := rfl

@[simp]
theorem ca_setCa : (r.setCa b).ca = b := by
  rw [ca, setCa, getLsbD_putBit _ _ _ _ (by decide), if_pos rfl]

@[simp]
theorem ov_setCa : (r.setCa b).ov = r.ov := by
  rw [ov, setCa, getLsbD_putBit _ _ _ _ (by decide), if_neg (by decide), ov]

@[simp] theorem crBit_setOv (i : ℕ) : (r.setOv b).crBit i = r.crBit i := rfl

@[simp]
theorem ov_setOv : (r.setOv b).ov = b := by
  rw [ov, setOv, getLsbD_putBit _ _ _ _ (by decide), if_neg (by decide),
    getLsbD_putBit _ _ _ _ (by decide), if_pos rfl]

@[simp]
theorem ca_setOv : (r.setOv b).ca = r.ca := by
  rw [ca, setOv, getLsbD_putBit _ _ _ _ (by decide), if_neg (by decide),
    getLsbD_putBit _ _ _ _ (by decide), if_neg (by decide), ca]

end

section

variable (i : ℕ) (b : Bool)

@[simp] theorem ca_setCrBit : (r.setCrBit i b).ca = r.ca := rfl

@[simp] theorem ov_setCrBit : (r.setCrBit i b).ov = r.ov := rfl

theorem crBit_setCrBit {j : ℕ} (hi : i < 32) (hj : j < 32) :
    (r.setCrBit i b).crBit j = if j = i then b else r.crBit j := by
  rw [crBit, setCrBit, getLsbD_putBit _ _ _ _ (by omega)]
  by_cases h : j = i
  · rw [if_pos (by omega), if_pos h]
  · rw [if_neg (by omega), if_neg h, crBit]

end

section

variable (v : BitVec 64)

@[simp] theorem ca_record : (r.record v).ca = r.ca := rfl

@[simp] theorem ov_record : (r.record v).ov = r.ov := rfl

/-- The sign after a record form. -/
@[simp]
theorem crBit_record_lt : (r.record v).crBit 0 = v.msb := by
  simp [record, setCrField, crBit_setCrBit]

@[simp]
theorem crBit_record_eq : (r.record v).crBit 2 = (v == 0) := by
  simp [record, setCrField, crBit_setCrBit]

end

end Regs

/-! ### Rotates that are shifts -/

/-- The bits of a mask that does not wrap around. -/
theorem getLsbD_mask {mb me i : ℕ} (h : mb ≤ me) (hi : i < 64) :
    (mask mb me).getLsbD i = decide (63 - me ≤ i ∧ i + mb < 64) := by
  simp only [mask, h, if_true, getLsbD_and, getLsbD_ushiftRight, getLsbD_shiftLeft, getLsbD_allOnes]
  grind

theorem getLsbD_rotateLeft (x : BitVec 64) {i : ℕ} (hn : n < 64) (hi : i < 64) :
    (x.rotateLeft n).getLsbD i = if i < n then x.getLsbD (64 - n + i) else x.getLsbD (i - n) := by
  rw [BitVec.getLsbD_rotateLeft, Nat.mod_eq_of_lt hn]
  by_cases h : i < n <;> simp [hi]

theorem rotateLeft_and_mask_right (x : BitVec 64) (hn : n < 64) :
    x.rotateLeft n &&& mask 0 (63 - n) = x <<< n := by
  apply eq_of_getLsbD_eq
  intro i hi
  rw [getLsbD_and, getLsbD_mask (Nat.zero_le _) hi, getLsbD_rotateLeft x hn hi, getLsbD_shiftLeft]
  by_cases h : i < n
  · simp [h, show ¬ 63 - (63 - n) ≤ i by omega]
  · simp [h, hi, show 63 - (63 - n) ≤ i by omega]

theorem rotateLeft_and_mask_left (x : BitVec 64) (hn : 0 < n) (hn' : n < 64) :
    x.rotateLeft (64 - n) &&& mask n 63 = x >>> n := by
  apply eq_of_getLsbD_eq
  intro i hi
  rw [getLsbD_and, getLsbD_mask (by omega) hi,
    getLsbD_rotateLeft x (by omega : 64 - n < 64) hi, getLsbD_ushiftRight]
  by_cases h : i < 64 - n
  · simp [h, show i + n < 64 by omega, show 64 - (64 - n) + i = n + i by omega]
  · simp [show ¬ i + n < 64 by omega, show 64 ≤ n + i by omega]

theorem exec_sldi (r : Regs) (ra rs : Reg) (hn : n < 64) :
    (sldi ra rs n).exec r = r.set ra (r.gpr rs <<< n) := by
  rw [sldi, Alu.exec, rotateLeft_and_mask_right _ hn]

theorem exec_srdi (r : Regs) (ra rs : Reg) (hn : 0 < n) (hn' : n < 64) :
    (srdi ra rs n).exec r = r.set ra (r.gpr rs >>> n) := by
  rw [srdi, Alu.exec, rotateLeft_and_mask_left _ hn hn', Regs.result, if_neg Bool.false_ne_true]

theorem exec_clrldi (r : Regs) (ra rs : Reg) (hn : n < 64) :
    (clrldi ra rs n).exec r = r.set ra (((r.gpr rs).setWidth (64 - n)).setWidth 64) := by
  rw [clrldi, Alu.exec, Regs.result, if_neg Bool.false_ne_true]
  congr 1
  apply eq_of_getLsbD_eq
  intro i hi
  rw [getLsbD_and, getLsbD_mask (by omega) hi, getLsbD_rotateLeft _ (by decide) hi]
  by_cases h : i + n < 64
  · simp [h, hi, show i < 64 - n by omega]
  · simp [h, show ¬ i < 64 - n by omega]

theorem exec_li (r : Regs) (rt : Reg) (si : BitVec 16) :
    (li rt si).exec r = r.set rt (si.signExtend 64) := by
  rw [li, Alu.exec, Regs.base, if_pos rfl]
  exact congrArg (r.set rt) (BitVec.zero_add _)

theorem exec_lis (r : Regs) (rt : Reg) (si : BitVec 16) :
    (lis rt si).exec r = r.set rt (si.signExtend 64 <<< 16) := by
  rw [lis, Alu.exec, Regs.base, if_pos rfl]
  exact congrArg (r.set rt) (BitVec.zero_add _)

end FastPPC.Ppc
