import FastPPC.Ir.Flags
import FastPPC.Ppc.Alu

/-!
# Flags of a sum at the operand size

The host computes carry and overflow at 64 bits.  A narrower operation gets its flags from
operands shifted to the top of the register, or from the bits of a sum of zero-extended operands.

* `adcFlags` : the packed flags of a sum with carry, at any width;
* `adcFlags_shiftLeft`, `sbbFlags_shiftLeft` : shifted operands have the flags of the low bits;
* `getLsbD_zeroExtend_add`, `getLsbD_zeroExtend_sub` : bit 32 of a sum or difference of words;
* `Regs.flags` : where the code generator keeps the four flags.
-/

namespace FastPPC

open BitVec

namespace Jit

open Ppc
open Ir (Nzcv subFlags subFlags_c)

attribute [ext] Nzcv

/-- The flags of `a + b + c`. -/
def adcFlags {w : ℕ} (a b : BitVec w) (c : Bool) : Nzcv :=
  ⟨(addCarry a b c).msb, addCarry a b c == 0, carryOut a b c, overflow a b c⟩

section Width

variable {w : ℕ}

theorem addCarry_comm (a b : BitVec w) (c : Bool) : addCarry a b c = addCarry b a c := by
  rw [addCarry, addCarry, BitVec.add_comm a b]

theorem adcFlags_comm (a b : BitVec w) (c : Bool) : adcFlags a b c = adcFlags b a c := by
  have hc : carryOut a b c = carryOut b a c := by
    rw [carryOut, carryOut, Nat.add_comm a.toNat]
  have hv : overflow a b c = overflow b a c := by
    unfold overflow
    rw [addCarry_comm a b]
    cases a.msb <;> cases b.msb <;> rfl
  unfold adcFlags
  rw [hc, hv, addCarry_comm a b]

theorem addCarry_false (a b : BitVec w) : addCarry a b false = a + b := BitVec.add_zero _

/-- A subtraction adds the complement and one. -/
theorem addCarry_not (a b : BitVec w) : addCarry (~~~ b) a true = a - b := by
  rw [addCarry, BitVec.sub_eq_add_neg, BitVec.neg_eq_not_add, BitVec.add_comm _ a, BitVec.add_assoc]
  rfl

theorem setWidth_addCarry {n : ℕ} (h : n ≤ w) (a b : BitVec w) (c : Bool) :
    (addCarry a b c).setWidth n = addCarry (a.setWidth n) (b.setWidth n) c := by
  unfold addCarry
  rw [setWidth_add _ _ h, setWidth_add _ _ h, setWidth_ofNat_of_le h]

theorem subFlags_eq (hw : 0 < w) (a b : BitVec w) : subFlags a b = adcFlags (~~~ b) a true := by
  have hmsb : (~~~ b).msb = !b.msb := by simp [hw]
  unfold subFlags adcFlags
  rw [addCarry_not]
  congr 1
  · rw [carryOut, carry, Nat.mod_eq_of_lt a.isLt, Nat.mod_eq_of_lt (~~~ b).isLt,
      Nat.add_comm a.toNat]
  · rw [overflow, addCarry_not, hmsb]
    cases a.msb <;> cases b.msb <;> cases (a - b).msb <;> rfl

end Width

/-! ### Operands shifted to the top -/

section Shift

variable {n : ℕ} (x a b : BitVec 64)

theorem toNat_shiftLeft_top (hn : n ≤ 64) :
    (x <<< (64 - n)).toNat = (x.setWidth n).toNat * 2 ^ (64 - n) := by
  have hpow : 2 ^ n * 2 ^ (64 - n) = 2 ^ 64 := by rw [← Nat.pow_add, Nat.add_sub_cancel' hn]
  rw [toNat_shiftLeft, toNat_setWidth, Nat.shiftLeft_eq, ← hpow, Nat.mul_mod_mul_right]

theorem msb_shiftLeft_top (hn : 0 < n) (hn' : n ≤ 64) :
    (x <<< (64 - n)).msb = (x.setWidth n).msb := by
  rw [msb_eq_getLsbD_last, msb_eq_getLsbD_last, getLsbD_shiftLeft, getLsbD_setWidth]
  simp [show ¬ 63 < 64 - n by omega, show 63 - (64 - n) = n - 1 by omega,
    show n - 1 < n by omega]

theorem shiftLeft_top_beq_zero (hn : n ≤ 64) : (x <<< (64 - n) == 0) = (x.setWidth n == 0) := by
  have hpos : 2 ^ (64 - n) ≠ 0 := Nat.ne_of_gt (Nat.two_pow_pos _)
  rw [Bool.eq_iff_iff, beq_iff_eq, beq_iff_eq, ← toNat_inj, ← toNat_inj, toNat_shiftLeft_top x hn]
  change _ = 0 ↔ _ = 0
  exact ⟨fun h => (Nat.mul_eq_zero.1 h).resolve_right hpos, fun h => by rw [h, Nat.zero_mul]⟩

/-- What is shifted to the top and back is the low part. -/
theorem shiftLeft_top_ushiftRight (hn : n ≤ 64) :
    x <<< (64 - n) >>> (64 - n) = (x.setWidth n).setWidth 64 := by
  apply eq_of_toNat_eq
  rw [toNat_ushiftRight, toNat_shiftLeft_top x hn, Nat.shiftRight_eq_div_pow,
    Nat.mul_div_cancel _ (Nat.two_pow_pos _), toNat_setWidth_of_le hn]

/-- **The flags of operands shifted to the top are those of the low parts.** -/
theorem adcFlags_shiftLeft (hn : 0 < n) (hn' : n ≤ 64) :
    adcFlags (a <<< (64 - n)) (b <<< (64 - n)) false =
      adcFlags (a.setWidth n) (b.setWidth n) false := by
  have hpow : 2 ^ n * 2 ^ (64 - n) = 2 ^ 64 := by rw [← Nat.pow_add, Nat.add_sub_cancel' hn']
  have hsum : addCarry (a <<< (64 - n)) (b <<< (64 - n)) false = (a + b) <<< (64 - n) := by
    rw [addCarry_false, shiftLeft_add_distrib]
  have hlow : addCarry (a.setWidth n) (b.setWidth n) false = (a + b).setWidth n := by
    rw [← setWidth_addCarry hn', addCarry_false]
  have hc : carryOut (a <<< (64 - n)) (b <<< (64 - n)) false =
      carryOut (a.setWidth n) (b.setWidth n) false := by
    unfold carryOut
    rw [toNat_shiftLeft_top a hn', toNat_shiftLeft_top b hn', ← Nat.add_mul, ← hpow,
      decide_eq_decide]
    exact Nat.mul_le_mul_right_iff (Nat.two_pow_pos _)
  unfold adcFlags overflow
  rw [hc, hsum, hlow, msb_shiftLeft_top _ hn hn', shiftLeft_top_beq_zero _ hn',
    msb_shiftLeft_top _ hn hn', msb_shiftLeft_top _ hn hn']

theorem sub_shiftLeft (k : ℕ) : a <<< k - b <<< k = (a - b) <<< k := by
  rw [sub_eq_iff_eq_add, ← shiftLeft_add_distrib, sub_add_cancel]

theorem setWidth_sub (hn : n ≤ 64) : (a - b).setWidth n = a.setWidth n - b.setWidth n := by
  rw [← addCarry_not, setWidth_addCarry hn, setWidth_not hn, addCarry_not]

theorem subFlags_shiftLeft (hn : 0 < n) (hn' : n ≤ 64) :
    subFlags (a <<< (64 - n)) (b <<< (64 - n)) = subFlags (a.setWidth n) (b.setWidth n) := by
  have hmsb := msb_shiftLeft_top (a - b) hn hn'
  have hc : (subFlags (a <<< (64 - n)) (b <<< (64 - n))).c =
      (subFlags (a.setWidth n) (b.setWidth n)).c := by
    rw [subFlags_c, subFlags_c, ult_eq_decide, ult_eq_decide,
      toNat_shiftLeft_top a hn', toNat_shiftLeft_top b hn']
    congr 2
    exact propext (Nat.mul_lt_mul_right (Nat.two_pow_pos _))
  refine Nzcv.ext ?_ ?_ hc ?_ <;> simp only [subFlags, sub_shiftLeft, ← setWidth_sub _ _ hn']
  · exact hmsb
  · exact shiftLeft_top_beq_zero (a - b) hn'
  · rw [hmsb, msb_shiftLeft_top a hn hn', msb_shiftLeft_top b hn hn']

end Shift

/-! ### Sums of zero-extended words -/

section Words

variable (c : Bool)

theorem setWidth_setWidth_low {n : ℕ} (hn : n ≤ 64) (x : BitVec n) :
    (x.setWidth 64).setWidth n = x := by
  rw [setWidth_setWidth_of_le _ hn, setWidth_eq]

/-- Bit 32 of a sum of two words is the carry out of the lower one. -/
theorem getLsbD_zeroExtend_add (x y : BitVec 32) :
    (addCarry (x.setWidth 64) (y.setWidth 64) c).getLsbD 32 = carryOut x y c := by
  have hc := c.toNat_le
  have hsum : (addCarry (x.setWidth 64) (y.setWidth 64) c).toNat = x.toNat + y.toNat + c.toNat := by
    rw [addCarry, toNat_add, toNat_add, toNat_setWidth_of_le (by decide),
      toNat_setWidth_of_le (by decide), toNat_ofNat]
    omega
  rw [← testBit_toNat, hsum, carryOut, Nat.testBit_eq_decide_div_mod_eq, decide_eq_decide]
  omega

/-- Bit 32 of a difference of two words is the borrow. -/
theorem getLsbD_zeroExtend_sub (x y : BitVec 32) :
    (addCarry (~~~ y.setWidth 64) (x.setWidth 64) c).getLsbD 32 = !carryOut (~~~ y) x c := by
  have hc := c.toNat_le
  have hsum : (addCarry (~~~ y.setWidth 64) (x.setWidth 64) c).toNat =
      (2 ^ 64 - 1 - y.toNat + x.toNat + c.toNat) % 2 ^ 64 := by
    rw [addCarry, toNat_add, toNat_add, toNat_not,
      toNat_setWidth_of_le (by decide), toNat_setWidth_of_le (by decide), toNat_ofNat]
    omega
  rw [← testBit_toNat, hsum, carryOut, Nat.testBit_eq_decide_div_mod_eq, toNat_not,
    ← decide_not, decide_eq_decide]
  omega

theorem getLsbD_31 (x : BitVec 64) : x.getLsbD 31 = (x.setWidth 32).msb := by
  rw [msb_eq_getLsbD_last, getLsbD_setWidth]
  rfl

end Words

end Jit

/-! ### Where the flags are kept -/

namespace Ppc

open Jit
open Ir (Nzcv)

/-- A single bit as a word. -/
def bitWord (b : Bool) : BitVec 64 := BitVec.ofNat 64 b.toNat

namespace Regs

variable (r : Regs)

/-- `N` and `Z` are the first and third bit of condition field 0, `C` and `V` the carry and the
overflow of `XER`. -/
def flags : Nzcv := ⟨r.crBit 0, r.crBit 2, r.ca, r.ov⟩

@[simp] theorem flags_set (rt : Reg) (v : BitVec 64) : (r.set rt v).flags = r.flags := rfl

@[simp]
theorem flags_setCa (b : Bool) : (r.setCa b).flags = { r.flags with c := b } := by
  simp [flags]

@[simp]
theorem flags_setOv (b : Bool) : (r.setOv b).flags = { r.flags with v := b } := by
  simp [flags]

@[simp]
theorem flags_record (v : BitVec 64) :
    (r.record v).flags = { r.flags with n := v.msb, z := v == 0 } := by
  simp [flags]

@[simp]
theorem gpr_result (rc : Bool) (rt : Reg) (v : BitVec 64) (a : Reg) :
    (r.result rc rt v).gpr a = if a = rt then v else r.gpr a := by
  cases rc
  · exact gpr_set r rt v a
  · exact gpr_set r rt v a

@[simp]
theorem flags_result (rc : Bool) (rt : Reg) (v : BitVec 64) : (r.result rc rt v).flags =
      if rc then { r.flags with n := v.msb, z := v == 0 } else r.flags := by
  cases rc
  · exact flags_set r rt v
  · exact flags_record (r.set rt v) v

end Regs

section Exec

variable (r : Regs) (op : XoOp) (oe rc : Bool) (rt ra rb : Reg)

/-- The first operand of an addition, complemented for a subtraction. -/
def XoOp.first (x : BitVec 64) : BitVec 64 := if op.complements then ~~~ x else x

/-- What an addition leaves in its target; only the extended forms take the carry in. -/
@[simp]
def XoOp.sum (x y : BitVec 64) (c : Bool) : XoOp → BitVec 64
  | add | addc => x + y
  | subf | subfc => y - x
  | adde => addCarry x y c
  | subfe => addCarry (~~~ x) y c

@[simp]
theorem gpr_exec_xo (a : Reg) : ((Alu.xo op oe rc rt ra rb).exec r).gpr a =
      if a = rt then op.sum (r.gpr ra) (r.gpr rb) r.flags.c else r.gpr a := by
  have hsum : addCarry (op.first (r.gpr ra)) (r.gpr rb) (op.carryIn r) =
      op.sum (r.gpr ra) (r.gpr rb) r.flags.c := by
    cases op
    case add | addc => exact addCarry_false _ _
    case subf | subfc => exact addCarry_not _ _
    case adde | subfe => rfl
  simp only [Alu.exec, Regs.gpr_result, ← hsum]
  cases op.writesCa <;> cases oe <;> rfl

/-- The flags that an addition writes: the carry and the overflow by its kind, the others in the
record form. -/
@[simp]
theorem flags_exec_xo : ((Alu.xo op oe rc rt ra rb).exec r).flags =
      let f := adcFlags (op.first (r.gpr ra)) (r.gpr rb) (op.carryIn r)
      ⟨if rc then f.n else r.flags.n, if rc then f.z else r.flags.z,
        if op.writesCa then f.c else r.flags.c, if oe then f.v else r.flags.v⟩ := by
  simp only [Alu.exec, adcFlags, XoOp.first]
  cases op.writesCa <;> cases oe <;> cases rc <;> simp

theorem flags_exec_xo_record (h : op.writesCa) : ((Alu.xo op true true rt ra rb).exec r).flags =
      adcFlags (op.first (r.gpr ra)) (r.gpr rb) (op.carryIn r) := by
  rw [flags_exec_xo, h]
  rfl

theorem exec_logic (lop : LogicOp) :
    (Alu.logic lop false rt ra rb).exec r = r.set rt (lop.eval (r.gpr ra) (r.gpr rb)) := rfl

theorem exec_xori (ui : BitVec 16) :
    (Alu.xori rt ra ui).exec r = r.set rt (r.gpr ra ^^^ ui.setWidth 64) := rfl

theorem exec_neg : (Alu.neg rt ra).exec r = r.set rt (-r.gpr ra) := rfl

theorem getLsbD_bitWord (b : Bool) (j : ℕ) : (bitWord b).getLsbD j = (b && decide (j = 0)) := by
  cases b
  · exact getLsbD_zero
  · simp [bitWord]

theorem exec_rldicl_bit {i sh : ℕ} (hsh : sh < 64) (hi : i = 64 - sh) (hpos : 0 < sh) :
    (Alu.rldicl false rt ra sh 63).exec r = r.set rt (bitWord ((r.gpr ra).getLsbD i)) := by
  rw [Alu.exec, Regs.result, if_neg Bool.false_ne_true]
  congr 1
  apply eq_of_getLsbD_eq
  intro j hj
  rw [getLsbD_and, getLsbD_mask (by decide) hj, getLsbD_rotateLeft _ hsh hj, getLsbD_bitWord]
  rcases Nat.eq_zero_or_pos j with rfl | hj0
  · rw [if_pos hpos, Nat.add_zero, hi]
    simp
  · rw [decide_eq_false (by omega), decide_eq_false (by omega), Bool.and_false, Bool.and_false]

theorem bitWord_xor_one (b : Bool) : bitWord b ^^^ 1#64 = bitWord !b := by
  cases b <;> decide

theorem bitWord_xor (b c : Bool) : bitWord b ^^^ bitWord c = bitWord (b ^^ c) := by
  cases b <;> cases c <;> decide

theorem bitWord_and (b c : Bool) : bitWord b &&& bitWord c = bitWord (b && c) := by
  cases b <;> cases c <;> decide

end Exec

end Ppc

end FastPPC
