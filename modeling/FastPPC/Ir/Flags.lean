import Mathlib

/-!
# Packed flags, conditions and compares

The IR keeps the arithmetic flags in a packed NZCV register with the Arm meaning of the carry: after
a subtraction it is set iff no borrow occurred.  A conditional branch or select reads them through
a `CondClass` (`MapNZCVCC` of the PPC64LE backend), or compares two registers directly
(`EmitCompare` and `MapCC`).

* `subFlags` : the flags of a subtraction;
* `CondClass.holds` : a condition on the flags;
* `emitCompareConst`, `emitCompareReg` : the compare instruction that the backend chooses;
* `holds_subFlags` : on the flags of a subtraction the ten fusable conditions are the
  compares of its operands.
-/

namespace FastPPC.Ir

variable {w : ℕ}

open BitVec

/-- The packed flags. -/
structure Nzcv where
  n : Bool
  z : Bool
  c : Bool
  v : Bool
  deriving DecidableEq

inductive CondClass
  | eq | neq | uge | ult | mi | pl | vs | vc | ugt | ule | sge | slt | sgt | sle
  | tstz | tstnz
  | flu | fge | fleu | fgt | fu | fnu
  | al
  deriving DecidableEq

/-- The condition on the flags.  A bit test has no meaning on the flags. -/
def CondClass.holds (f : Nzcv) : CondClass → Bool
  | .eq => f.z
  | .neq => !f.z
  | .uge => f.c
  | .ult => !f.c
  | .mi => f.n
  | .pl => !f.n
  | .vs | .fu => f.v
  | .vc | .fnu => !f.v
  | .ugt => f.c && !f.z
  | .ule => !(f.c && !f.z)
  | .sge | .fge => !(f.n ^^ f.v)
  | .slt | .flu => f.n ^^ f.v
  | .sgt | .fgt => !((f.n ^^ f.v) || f.z)
  | .sle | .fleu => (f.n ^^ f.v) || f.z
  | .tstz | .tstnz => false
  | .al => true

/-- The flags of `a - b`, computed as `a + ~b + 1`. -/
def subFlags {w : ℕ} (a b : BitVec w) : Nzcv where
  n := (a - b).msb
  z := a - b == 0#w
  c := carry w a (~~~b) true
  v := (a.msb != b.msb) && (a.msb != (a - b).msb)

theorem sub_beq_zero (a b : BitVec w) : (a - b == 0#w) = (a == b) := by
  rw [Bool.eq_iff_iff, beq_iff_eq, beq_iff_eq]
  exact ⟨fun h => by simpa using BitVec.sub_eq_iff_eq_add.1 h, fun h => by simp [h]⟩

theorem subFlags_c (a b : BitVec w) : (subFlags a b).c = !a.ult b := by
  rw [ult_eq_not_carry, Bool.not_not]
  rfl

/-- The sign of the difference, corrected by the overflow, is the signed order. -/
theorem subFlags_n_xor_v (a b : BitVec w) : ((subFlags a b).n ^^ (subFlags a b).v) = a.slt b := by
  rcases Nat.eq_zero_or_pos w with rfl | hw
  · rw [eq_nil a, eq_nil b]
    rfl
  have hpow : 2 ^ w = 2 * 2 ^ (w - 1) := by
    rw [← Nat.pow_succ', Nat.succ_eq_add_one, Nat.sub_add_cancel hw]
  have hge : b.toNat ≤ a.toNat → (a - b).toNat = a.toNat - b.toNat := by
    intro h
    have hsum : 2 ^ w - b.toNat + a.toNat = a.toNat - b.toNat + 2 ^ w := by omega
    rw [toNat_sub, hsum, Nat.add_mod_right, Nat.mod_eq_of_lt (by omega)]
  have hlt : a.toNat < b.toNat → (a - b).toNat = 2 ^ w - b.toNat + a.toNat := by
    intro h
    rw [toNat_sub, Nat.mod_eq_of_lt (by omega)]
  rw [slt_eq_ult]
  simp only [subFlags, msb_eq_decide, ult_eq_decide]
  generalize (a - b).toNat = d at *
  -- eight cases: the two signs and the order of the operands
  by_cases c1 : 2 ^ (w - 1) ≤ a.toNat <;> by_cases c2 : 2 ^ (w - 1) ≤ b.toNat <;>
    by_cases c3 : a.toNat < b.toNat <;> simp [c1, c2] <;> omega

/-! ### Compares -/

/-- The four bits of a condition register field without the summary overflow. -/
structure CrField where
  lt : Bool
  gt : Bool
  eq : Bool

def compareSigned {w : ℕ} (a b : BitVec w) : CrField := ⟨a.slt b, b.slt a, a == b⟩

def compareUnsigned {w : ℕ} (a b : BitVec w) : CrField := ⟨a.ult b, b.ult a, a == b⟩

inductive CompareSize
  | i32
  | i64
  deriving DecidableEq

def CompareSize.bits : CompareSize → ℕ
  | .i32 => 32
  | .i64 => 64

/-- The compare instructions: with a signed or an unsigned 16-bit immediate, or of two registers. -/
inductive CompareInstr
  | cmpi (imm : BitVec 16)
  | cmpli (imm : BitVec 16)
  | cmp (value : BitVec 64)
  | cmpl (value : BitVec 64)

/-- The word forms compare the lower halves of the registers. -/
def CompareInstr.exec (size : CompareSize) (reg : BitVec 64) : CompareInstr → CrField
  | .cmpi imm => compareSigned (reg.setWidth size.bits) (imm.signExtend size.bits)
  | .cmpli imm => compareUnsigned (reg.setWidth size.bits) (imm.setWidth size.bits)
  | .cmp value => compareSigned (reg.setWidth size.bits) (value.setWidth size.bits)
  | .cmpl value => compareUnsigned (reg.setWidth size.bits) (value.setWidth size.bits)

def CondClass.isUnsigned : CondClass → Bool
  | .uge | .ult | .ugt | .ule => true
  | _ => false

/-- `EmitCompare` for a constant second operand: an immediate form if the constant fits. -/
def emitCompareConst (cond : CondClass) (const : BitVec 64) : CompareInstr :=
  if cond.isUnsigned then
    if const ≤ 0xFFFF#64 then .cmpli (const.setWidth 16) else .cmpl const
  else
    if -32768 ≤ const.toInt ∧ const.toInt ≤ 32767 then .cmpi (const.setWidth 16) else .cmp const

/-- `EmitCompare` for two registers. -/
def emitCompareReg (cond : CondClass) (value : BitVec 64) : CompareInstr :=
  if cond.isUnsigned then .cmpl value else .cmp value

/-- Truncation keeps a value that fits the narrower width. -/
theorem toInt_setWidth_of_fits {v : ℕ} (x : BitVec w) (hv : v ≤ w)
    (hlo : -((2 ^ v : ℕ) / 2 : ℤ) ≤ x.toInt) (hhi : x.toInt < ((2 ^ v : ℕ) + 1 : ℤ) / 2) :
    (x.setWidth v).toInt = x.toInt := by
  rw [toInt_setWidth, ← Int.bmod_bmod_of_dvd (Nat.pow_dvd_pow 2 hv),
    ← toInt_eq_toNat_bmod, Int.bmod_eq_of_le hlo hhi]

/-- The instruction for a constant compares with the constant, whichever form is chosen. -/
theorem emitCompareConst_exec (cond : CondClass) (size : CompareSize) (reg const : BitVec 64) :
    (emitCompareConst cond const).exec size reg =
      if cond.isUnsigned then
        compareUnsigned (reg.setWidth size.bits) (const.setWidth size.bits)
      else compareSigned (reg.setWidth size.bits) (const.setWidth size.bits) := by
  have hbt : 16 ≤ size.bits := by cases size <;> decide
  unfold emitCompareConst
  split
  · split
    · rename_i hle
      have hlt : const.toNat < 2 ^ 16 := by
        have := le_def.1 hle
        exact Nat.lt_succ_of_le this
      have hset : (const.setWidth 16).setWidth size.bits = const.setWidth size.bits := by
        apply eq_of_toNat_eq
        rw [toNat_setWidth, toNat_setWidth, toNat_setWidth, Nat.mod_eq_of_lt hlt]
      rw [CompareInstr.exec, hset]
    · rfl
  · split
    · rename_i hran
      have hset : (const.setWidth 16).signExtend size.bits = const.setWidth size.bits := by
        apply eq_of_toInt_eq
        rw [toInt_signExtend_of_le hbt, toInt_setWidth_of_fits _ (by decide) (by omega)
          (by omega), toInt_setWidth_of_fits _ (by cases size <;> decide)]
        · cases size <;> simp only [CompareSize.bits] <;> omega
        · cases size <;> simp only [CompareSize.bits] <;> omega
      rw [CompareInstr.exec, hset]
    · rfl

theorem emitCompareReg_exec (cond : CondClass) (size : CompareSize) (reg value : BitVec 64) :
    (emitCompareReg cond value).exec size reg =
      if cond.isUnsigned then
        compareUnsigned (reg.setWidth size.bits) (value.setWidth size.bits)
      else compareSigned (reg.setWidth size.bits) (value.setWidth size.bits) := by
  unfold emitCompareReg
  split <;> rfl

/-- `MapCC` for the conditions of an integer compare. -/
def CondClass.test (cr : CrField) : CondClass → Bool
  | .eq => cr.eq
  | .neq => !cr.eq
  | .sge | .uge | .pl => !cr.lt
  | .slt | .ult | .mi => cr.lt
  | .sgt | .ugt => cr.gt
  | .sle | .ule => !cr.gt
  | _ => cr.eq

/-- The condition is one of the ten that a compare can answer. -/
def CondClass.isFusable : CondClass → Bool
  | .eq | .neq | .uge | .ult | .ugt | .ule | .sge | .slt | .sgt | .sle => true
  | _ => false

/-- **The ten conditions**: on the flags of a subtraction each is a compare of the operands. -/
theorem holds_subFlags (a b : BitVec w) {cond : CondClass} (h : cond.isFusable = true) :
    cond.holds (subFlags a b) =
      cond.test (if cond.isUnsigned then compareUnsigned a b else compareSigned a b) := by
  have hz : (subFlags a b).z = (a == b) := sub_beq_zero a b
  have hc := subFlags_c a b
  have hs := subFlags_n_xor_v a b
  have hgtu : (!a.ult b && !(a == b)) = b.ult a := by
    rw [Bool.eq_iff_iff]
    simp only [BitVec.ult, Bool.and_eq_true, Bool.not_eq_true', decide_eq_false_iff_not,
      beq_eq_false_iff_ne, ne_eq, decide_eq_true_eq, toNat_eq]
    omega
  have hgts : (!(a.slt b || (a == b))) = b.slt a := by
    rw [Bool.eq_iff_iff]
    simp only [BitVec.slt, Bool.not_eq_true', Bool.or_eq_false_iff, decide_eq_false_iff_not,
      beq_eq_false_iff_ne, ne_eq, decide_eq_true_eq, ← toInt_inj]
    omega
  cases cond <;> simp only [CondClass.isFusable, Bool.false_eq_true] at h <;>
    simp [CondClass.holds, CondClass.test, CondClass.isUnsigned, compareUnsigned, compareSigned, hz,
      hc, hs, ← hgtu, ← hgts]

/-- The sign of `a - 0` is that of `a`: no overflow occurs. -/
theorem holds_subFlags_zero (a : BitVec w) :
    CondClass.mi.holds (subFlags a 0#w) = CondClass.slt.test (compareSigned a 0#w) ∧
      CondClass.pl.holds (subFlags a 0#w) = CondClass.sge.test (compareSigned a 0#w) := by
  have hs := subFlags_n_xor_v a 0#w
  have hv : (subFlags a 0#w).v = false := by
    simp [subFlags]
  rw [hv, Bool.xor_false] at hs
  simp [CondClass.holds, CondClass.test, compareSigned, hs]

end FastPPC.Ir
