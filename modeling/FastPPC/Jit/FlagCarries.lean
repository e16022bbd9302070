import FastPPC.Jit.FlagWrites

/-!
# Operations with a carry

At 64 bits one instruction does the work.  At 32 bits the operands are zero-extended, the carry is
bit 32 of the sum and the overflow comes from the three signs; both are written to `XER` at the
end.  Sources are read before the destination is written, since they may share a register.
-/

namespace FastPPC.Jit

open BitVec Operand

variable {c : Bool} {x y : BitVec 64} {src2 : Operand}

open Ppc
open Ir (Nzcv)

/-- The sizes that the validation of the IR allows for operations with a carry. -/
def OpSize.IsWide (size : OpSize) : Prop := size = .i32Bit ∨ size = .i64Bit

section Carry

variable (host : Host) (r : Regs) {size : OpSize} {dst a b : Reg}

theorem run_extend32 (hs : size.IsWide) (dst : Reg) : (run r (extend32 size dst)).flags = r.flags ∧
      (run r (extend32 size dst)).gpr dst = ((r.gpr dst).setWidth size.bits).setWidth 64 := by
  rcases hs with rfl | rfl
  · simp [extend32, exec_clrldi, OpSize.bits]
  · refine ⟨rfl, ?_⟩
    exact (setWidth_eq (r.gpr dst)).symm

theorem run_adc (dst : Reg) (hs : size.IsWide) (src1 src2 : Operand) :
    (run r (adc size dst src1 src2)).flags =
        { r.flags with c := carryOut (r.gpr src1.getReg) (r.gpr src2.getReg) r.flags.c } ∧
      (run r (adc size dst src1 src2)).gpr dst =
        (addCarry ((r.gpr src1.getReg).setWidth size.bits) ((r.gpr src2.getReg).setWidth size.bits)
          r.flags.c).setWidth 64 := by
  obtain ⟨hfla, hval⟩ := run_extend32 (run r [adde dst src1.getReg src2.getReg]) hs dst
  rw [adc, run_append, hfla, hval]
  simp [setWidth_addCarry size.bits_le]
  rfl

theorem run_sbb (dst : Reg) (hs : size.IsWide) (src1 src2 : Operand) :
    (run r (sbb size dst src1 src2)).flags =
        { r.flags with c := carryOut (~~~ r.gpr src2.getReg) (r.gpr src1.getReg) r.flags.c } ∧
      (run r (sbb size dst src1 src2)).gpr dst = (addCarry ((r.gpr src1.getReg).setWidth size.bits)
          (~~~ (r.gpr src2.getReg).setWidth size.bits) r.flags.c).setWidth 64 := by
  obtain ⟨hfla, hval⟩ := run_extend32 (run r [subfe dst src2.getReg src1.getReg]) hs dst
  rw [sbb, run_append, hfla, hval]
  simp [setWidth_addCarry size.bits_le, addCarry_comm, setWidth_not size.bits_le]
  rfl

/-- `subfe` of a register with itself spreads the inverted carry and keeps the carry. -/
theorem subfe_zero (c : Bool) : addCarry (~~~ (0 : BitVec 64)) 0 c = -bitWord (!c) ∧
    carryOut (~~~ (0 : BitVec 64)) 0 c = c := by
  cases c <;> decide

theorem addCarry_zero {w : ℕ} (x : BitVec w) (c : Bool) :
    addCarry x 0 c = x + BitVec.ofNat w c.toNat := by
  rw [addCarry]
  exact congrArg (· + _) (BitVec.add_zero x)

/-- The inverted carry of the state, in a temporary. -/
theorem run_invertedCarry (h0 : r.gpr 0 = 0) (t : Reg) : ((subfe t 0 0).exec r).flags = r.flags ∧
      ∀ a, ((subfe t 0 0).exec r).gpr a = if a = t then -bitWord (!r.flags.c) else r.gpr a := by
  constructor
  · rw [subfe, flags_exec_xo, h0]
    exact Nzcv.ext rfl rfl (subfe_zero _).2 rfl
  · intro a
    rw [subfe, gpr_exec_xo, h0, XoOp.sum, (subfe_zero _).1]

theorem run_adcZero (dst : Reg) (hs : size.IsWide) (h0 : r.gpr 0 = 0) {src1 : Operand}
    (h1 : src1.Allocated) :
    (run r (adcZero size dst src1)).flags = r.flags ∧ (run r (adcZero size dst src1)).gpr dst =
        (addCarry ((r.gpr src1.getReg).setWidth size.bits) 0 (!r.flags.c)).setWidth 64 := by
  obtain ⟨hcf, hcv⟩ := run_invertedCarry r h0 tmp2
  obtain ⟨hfla, hval⟩ :=
    run_extend32 (run r [subfe tmp2 0 0, subf dst tmp2 src1.getReg]) hs dst
  have hsum : r.gpr src1.getReg - -bitWord (!r.flags.c) =
      addCarry (r.gpr src1.getReg) 0 (!r.flags.c) := by
    rw [addCarry_zero, sub_eq_add_neg, neg_neg]
    rfl
  rw [adcZero, run_append, hfla, hval, run_cons, run_cons, run_nil, subf, flags_exec_xo,
    gpr_exec_xo, XoOp.sum,
    if_pos rfl, hcf, hcv, hcv, if_pos rfl, if_neg (h1.getReg.ne (by decide)), hsum,
    setWidth_addCarry size.bits_le]
  refine ⟨rfl, ?_⟩
  congr 3
  exact setWidth_zero _ _

/-- The last steps of the 32-bit operations. -/
def wordFlags (result tc tv : Reg) : List Alu :=
  emitTestNZSetCR result .i32Bit ++ setCAFromBit host tc tmp1 ++ setOVFromBit host tv tmp1

/-- Sign and zero come from a word, carry and overflow from single bits. -/
theorem sets_wordFlags (result : Reg) {tc tv : Reg} {v : Bool} (hc : tc ≠ tmp1) (hv : tv ≠ tmp1)
    (hcv : r.gpr tc = bitWord c) (hvv : r.gpr tv = bitWord v) :
    Sets tmp1 ⟨((r.gpr result).setWidth 32).msb, (r.gpr result).setWidth 32 == 0, c, v⟩ r
      (run r (wordFlags host result tc tv)) := by
  have h1 := sets_emitTestNZSetCR r result (show OpSize.i32Bit ≠ .i64Bit by decide)
  rw [wordFlags, run_append, run_append]
  set r₁ := run r (emitTestNZSetCR result .i32Bit)
  have h2 := sets_setCAFromBit host r₁ ((h1.gpr tc hc).trans hcv) hc
  set r₂ := run r₁ (setCAFromBit host tc tmp1)
  have h3 := sets_setOVFromBit host r₂ ((h2.gpr tv hv).trans ((h1.gpr tv hv).trans hvv)) hv
  constructor
  · intro a ha
    rw [h3.gpr a ha, h2.gpr a ha, h1.gpr a ha]
  · rw [h3.flags, h2.flags, h1.flags]
    rfl

/-- The low word of a register, zero-extended. -/
def zx32 (x : BitVec 64) : BitVec 64 := (x.setWidth 32).setWidth 64

theorem setWidth_zx32 (x : BitVec 64) : (zx32 x).setWidth 32 = x.setWidth 32 :=
  setWidth_setWidth_low (by decide) _

/-- The same with the word put into the destination first. -/
theorem run_wordResult (hd : Allocated dst) {tc tv : Reg} {v : Bool} (htc : tc.val < 7)
    (htv : tv.val < 7) (hc : tc ≠ tmp1) (hv : tv ≠ tmp1) (hsum : r.gpr tmp3 = x)
    (hcv : r.gpr tc = bitWord c) (hvv : r.gpr tv = bitWord v) :
    let r' := run r ([clrldi dst tmp3 32] ++ wordFlags host dst tc tv)
    r'.flags = ⟨(x.setWidth 32).msb, x.setWidth 32 == 0, c, v⟩ ∧
      r'.gpr dst = (x.setWidth 32).setWidth 64 := by
  have hst : run r [clrldi dst tmp3 32] = r.set dst (zx32 x) := by
    rw [run_cons, run_nil, exec_clrldi r dst tmp3 (by decide), hsum]
    rfl
  have hset := sets_wordFlags host (r.set dst (zx32 x)) dst hc hv
    (by rw [Regs.gpr_set, if_neg (hd.ne htc).symm, hcv])
    (by rw [Regs.gpr_set, if_neg (hd.ne htv).symm, hvv])
  rw [run_append, hst]
  refine ⟨?_, ?_⟩
  · rw [hset.flags, Regs.gpr_set, if_pos rfl, setWidth_zx32]
  · rw [hset.gpr dst (hd.ne (by decide)), Regs.gpr_set, if_pos rfl, zx32]

/-- The overflow of a sum of words from the signs of the operands and the sum. -/
theorem overflow_word (x y : BitVec 64) (c : Bool) (s : BitVec 64)
    (hs : s.setWidth 32 = addCarry (x.setWidth 32) (y.setWidth 32) c) :
    ((s ^^^ x) &&& ~~~ (y ^^^ x)).getLsbD 31 = overflow (x.setWidth 32) (y.setWidth 32) c := by
  rw [getLsbD_and, getLsbD_not, getLsbD_xor, getLsbD_xor, getLsbD_31 s,
    getLsbD_31 x, getLsbD_31 y, hs, overflow]
  cases (x.setWidth 32).msb <;> cases (y.setWidth 32).msb <;>
    cases (addCarry (x.setWidth 32) (y.setWidth 32) c).msb <;> rfl

theorem exec_bit31 (rt ra : Reg) :
    (Alu.rldicl false rt ra 33 63).exec r = r.set rt (bitWord ((r.gpr ra).getLsbD 31)) :=
  exec_rldicl_bit r rt ra (by decide) rfl (by decide)

theorem exec_bit32 (rt ra : Reg) :
    (Alu.rldicl false rt ra 32 63).exec r = r.set rt (bitWord ((r.gpr ra).getLsbD 32)) :=
  exec_rldicl_bit r rt ra (by decide) rfl (by decide)

theorem exec_clrldi32 (rt ra : Reg) : (clrldi rt ra 32).exec r = r.set rt (zx32 (r.gpr ra)) :=
  exec_clrldi r rt ra (by decide)

attribute [local simp] exec_clrldi32 exec_bit31 exec_bit32 exec_logic exec_xori LogicOp.eval adde
  subfe add XoOp.sum bitWord_xor_one

theorem run_adcWord (src1 : Operand) (h2 : src2.Allocated) (hx : r.gpr src1.getReg = x)
    (hy : r.gpr src2.getReg = y) :
    (run r (adcWord src1 src2)).gpr tmp3 = addCarry (zx32 x) (zx32 y) r.flags.c ∧
      (run r (adcWord src1 src2)).gpr tmp2 =
        bitWord (overflow (x.setWidth 32) (y.setWidth 32) r.flags.c) ∧
      (run r (adcWord src1 src2)).gpr tmp4 =
        bitWord (carryOut (x.setWidth 32) (y.setWidth 32) r.flags.c) := by
  have hov : ((addCarry (zx32 x) (zx32 y) r.flags.c ^^^ zx32 x) &&&
      ~~~ (zx32 y ^^^ zx32 x)).getLsbD 31 = overflow (x.setWidth 32) (y.setWidth 32) r.flags.c := by
    rw [overflow_word _ _ r.flags.c, setWidth_zx32, setWidth_zx32]
    rw [setWidth_addCarry (by decide), setWidth_zx32, setWidth_zx32]
  have hca := getLsbD_zeroExtend_add r.flags.c (x.setWidth 32) (y.setWidth 32)
  have hb : src2.getReg ≠ 3 := h2.getReg.ne (by decide)
  simpa [adcWord, hb, hx, hy, -getLsbD_eq_getElem, -getLsbD_and] using
    ⟨congrArg bitWord hov, congrArg bitWord hca⟩

section

variable (x y : BitVec 64) (c : Bool)

/-- The low word of the sum of zero-extended words. -/
theorem setWidth_addCarry_zx32 :
    (addCarry (zx32 x) (zx32 y) c).setWidth 32 = addCarry (x.setWidth 32) (y.setWidth 32) c := by
  rw [setWidth_addCarry (by decide), setWidth_zx32, setWidth_zx32]

/-- At 64 bits the operand size is the register. -/
theorem adcFlags_i64 :
    adcFlags (x.setWidth OpSize.i64Bit.bits) (y.setWidth OpSize.i64Bit.bits) c =
      adcFlags x y c := by
  change adcFlags (x.setWidth 64) (y.setWidth 64) c = _
  rw [setWidth_eq, setWidth_eq]

theorem addCarry_i64 :
    (addCarry (x.setWidth OpSize.i64Bit.bits) (y.setWidth OpSize.i64Bit.bits) c).setWidth 64 =
      addCarry x y c := by
  change (addCarry (x.setWidth 64) (y.setWidth 64) c).setWidth 64 = _
  rw [setWidth_eq, setWidth_eq, setWidth_eq]

theorem overflow_word_sub (s : BitVec 64)
    (hs : s.setWidth 32 = addCarry (~~~ y.setWidth 32) (x.setWidth 32) c) :
    ((s ^^^ x) &&& (y ^^^ x)).getLsbD 31 = overflow (~~~ y.setWidth 32) (x.setWidth 32) c := by
  have hmsb : (~~~ y.setWidth 32).msb = !(y.setWidth 32).msb := by simp
  rw [getLsbD_and, getLsbD_xor, getLsbD_xor, getLsbD_31 s, getLsbD_31 x,
    getLsbD_31 y, hs, overflow, hmsb]
  cases (x.setWidth 32).msb <;> cases (y.setWidth 32).msb <;>
    cases (addCarry (~~~ y.setWidth 32) (x.setWidth 32) c).msb <;> rfl

theorem setWidth_subfe_zx32 : (addCarry (~~~ zx32 y) (zx32 x) c).setWidth 32 =
      addCarry (~~~ y.setWidth 32) (x.setWidth 32) c := by
  rw [setWidth_addCarry (by decide), setWidth_not (by decide), setWidth_zx32, setWidth_zx32]

end

theorem run_adcWithFlags (hs : size.IsWide) (hd : Allocated dst) (src1 : Operand)
    (h2 : src2.Allocated) (hx : r.gpr src1.getReg = x) (hy : r.gpr src2.getReg = y) :
    (run r (adcWithFlags host size dst src1 src2)).flags =
        adcFlags (x.setWidth size.bits) (y.setWidth size.bits) r.flags.c ∧
      (run r (adcWithFlags host size dst src1 src2)).gpr dst =
        (addCarry (x.setWidth size.bits) (y.setWidth size.bits) r.flags.c).setWidth 64 := by
  rcases hs with rfl | rfl
  · obtain ⟨hsum, hov, hca⟩ := run_adcWord r src1 h2 hx hy
    have hcd : adcWithFlags host .i32Bit dst src1 src2 = adcWord src1 src2 ++
        ([clrldi dst tmp3 32] ++ wordFlags host dst tmp4 tmp2) := by
      simp [adcWithFlags, wordFlags]
    obtain ⟨hfla, hval⟩ := run_wordResult host (run r (adcWord src1 src2)) hd (by decide)
      (by decide) (by decide) (by decide) hsum hca hov
    rw [hcd, run_append, hfla, hval, setWidth_addCarry_zx32]
    exact ⟨rfl, rfl⟩
  · rw [adcWithFlags, if_pos rfl, run_cons, run_nil, addeo_, flags_exec_xo_record _ _ _ _ _ rfl,
      gpr_exec_xo, if_pos rfl, hx, hy]
    exact ⟨(adcFlags_i64 x y _).symm, (addCarry_i64 x y _).symm⟩

theorem run_adcNZCV (hs : size.IsWide) (h2 : Allocated b) :
    (run r (adcNZCV host size (.reg a) (.reg b))).flags =
      adcFlags ((r.gpr a).setWidth size.bits) ((r.gpr b).setWidth size.bits) r.flags.c := by
  rcases hs with rfl | rfl
  · obtain ⟨hsum, hov, hca⟩ := run_adcWord r (.reg a) (show (reg b).Allocated from h2) rfl rfl
    have hcd : adcNZCV host .i32Bit (.reg a) (.reg b) = adcWord (.reg a) (.reg b) ++
        wordFlags host tmp3 tmp4 tmp2 := by
      simp [adcNZCV, wordFlags]
    rw [hcd, run_append, (sets_wordFlags host _ tmp3 (by decide) (by decide) hca hov).flags, hsum,
      setWidth_addCarry_zx32]
    rfl
  · rw [adcNZCV, if_pos rfl, run_cons, run_nil, addeo_, flags_exec_xo_record _ _ _ _ _ rfl]
    exact (adcFlags_i64 _ _ _).symm

/-- The first part of the 32-bit `SbbWithFlags`. -/
def sbbWord (src1 src2 : Operand) : List Alu :=
  [clrldi tmp1 src1.getReg 32, clrldi tmp2 src2.getReg 32, subfe tmp3 tmp2 tmp1,
    .logic .xor false tmp2 tmp2 tmp1, .logic .xor false tmp1 tmp3 tmp1,
    .logic .and false tmp1 tmp1 tmp2, .rldicl false tmp2 tmp1 33 63,
    .rldicl false tmp4 tmp3 32 63, .xori tmp4 tmp4 1]

theorem run_sbbWord (h2 : Allocated b) (hx : r.gpr a = x) (hy : r.gpr b = y) :
    (run r (sbbWord (.reg a) (.reg b))).gpr tmp3 = addCarry (~~~ zx32 y) (zx32 x) r.flags.c ∧
      (run r (sbbWord (.reg a) (.reg b))).gpr tmp2 =
        bitWord (overflow (~~~ y.setWidth 32) (x.setWidth 32) r.flags.c) ∧
      (run r (sbbWord (.reg a) (.reg b))).gpr tmp4 =
        bitWord (carryOut (~~~ y.setWidth 32) (x.setWidth 32) r.flags.c) := by
  have hov : ((addCarry (~~~ zx32 y) (zx32 x) r.flags.c ^^^ zx32 x) &&&
      (zx32 y ^^^ zx32 x)).getLsbD 31 = overflow (~~~ y.setWidth 32) (x.setWidth 32) r.flags.c := by
    rw [overflow_word_sub _ _ r.flags.c, setWidth_zx32, setWidth_zx32]
    rw [setWidth_subfe_zx32, setWidth_zx32, setWidth_zx32]
  have hca := getLsbD_zeroExtend_sub r.flags.c (x.setWidth 32) (y.setWidth 32)
  have hb : b ≠ 3 := h2.ne (by decide)
  rw [← Bool.not_eq_eq_eq_not] at hca
  simpa [sbbWord, hb, hx, hy, -getLsbD_eq_getElem, -getLsbD_and] using
    ⟨congrArg bitWord hov, congrArg bitWord hca⟩

theorem run_sbbWithFlags (hs : size.IsWide) (hd : Allocated dst) (h2 : Allocated b) :
    (run r (sbbWithFlags host size dst (.reg a) (.reg b))).flags =
        adcFlags ((r.gpr a).setWidth size.bits) (~~~ (r.gpr b).setWidth size.bits) r.flags.c ∧
      (run r (sbbWithFlags host size dst (.reg a) (.reg b))).gpr dst =
        (addCarry ((r.gpr a).setWidth size.bits) (~~~ (r.gpr b).setWidth size.bits)
          r.flags.c).setWidth 64 := by
  rw [adcFlags_comm, addCarry_comm]
  rcases hs with rfl | rfl
  · obtain ⟨hsum, hov, hca⟩ := run_sbbWord r (a := a) h2 rfl rfl
    have hcd : sbbWithFlags host .i32Bit dst (.reg a) (.reg b) = sbbWord (.reg a) (.reg b) ++
        ([clrldi dst tmp3 32] ++ wordFlags host dst tmp4 tmp2) := by
      simp [sbbWithFlags, sbbWord, wordFlags]
    obtain ⟨hfla, hval⟩ := run_wordResult host (run r (sbbWord (.reg a) (.reg b))) hd
      (by decide) (by decide) (by decide) (by decide) hsum hca hov
    rw [hcd, run_append, hfla, hval, setWidth_subfe_zx32]
    exact ⟨rfl, rfl⟩
  · rw [sbbWithFlags, if_pos rfl, run_cons, run_nil, subfeo_, flags_exec_xo_record _ _ _ _ _ rfl,
      gpr_exec_xo, if_pos rfl]
    change _ = adcFlags (~~~ (r.gpr b).setWidth 64) ((r.gpr a).setWidth 64) _ ∧
      _ = (addCarry (~~~ (r.gpr b).setWidth 64) ((r.gpr a).setWidth 64) _).setWidth 64
    rw [setWidth_eq, setWidth_eq, setWidth_eq]
    exact ⟨rfl, rfl⟩

/-- The middle of `SbbNZCV`: the borrow and the overflow as single bits. -/
def sbbBits (src1 src2 : Operand) : List Alu :=
  [.rldicl false tmp3 tmp3 32 63, .xori tmp3 tmp3 1,
    .rldicl false tmp1 src1.getReg 33 63, .rldicl false tmp2 src2.getReg 33 63,
    .rldicl false tmp4 tmp4 33 63, .logic .xor false tmp2 tmp2 tmp1,
    .logic .xor false tmp4 tmp4 tmp1, .logic .and false tmp4 tmp4 tmp2]

theorem run_sbbBits (h1 : Allocated a) (h2 : Allocated b) :
    let r' := run r (sbbBits (.reg a) (.reg b))
    r'.flags = r.flags ∧ r'.gpr tmp3 = bitWord (!(r.gpr tmp3).getLsbD 32) ∧
      r'.gpr tmp4 = bitWord (((r.gpr tmp4).getLsbD 31 ^^ (r.gpr a).getLsbD 31) &&
        ((r.gpr b).getLsbD 31 ^^ (r.gpr a).getLsbD 31)) := by
  have ha : a ≠ 5 := h1.ne (by decide)
  have hb : b ≠ 5 := h2.ne (by decide)
  have hb' : b ≠ 3 := h2.ne (by decide)
  simp [sbbBits, ha, hb, hb', bitWord_xor, bitWord_and]

/-- The start of `SbbNZCV`: the difference of the words, and its low word. -/
theorem run_sbbDifference (h2 : Allocated b) :
    let r' := run r [clrldi tmp1 a 32, clrldi tmp2 b 32, subfe tmp3 tmp2 tmp1, clrldi tmp4 tmp3 32]
    let s := addCarry (~~~ zx32 (r.gpr b)) (zx32 (r.gpr a)) r.flags.c
    r'.gpr tmp3 = s ∧ r'.gpr tmp4 = zx32 s ∧ ∀ c, Allocated c → r'.gpr c = r.gpr c := by
  have hb : b ≠ 3 := h2.ne (by decide)
  refine and_assoc.1 ⟨?_, fun c hc => ?_⟩
  · simp [hb]
  · simp [hc.ne]

/-- `SbbNZCV` takes the overflow from single sign bits. -/
theorem run_sbbNZCV (hs : size.IsWide) (h1 : Allocated a) (h2 : Allocated b) :
    (run r (sbbNZCV host size (.reg a) (.reg b))).flags =
      adcFlags ((r.gpr a).setWidth size.bits) (~~~ (r.gpr b).setWidth size.bits) r.flags.c := by
  rw [adcFlags_comm]
  rcases hs with rfl | rfl
  · have hcd : sbbNZCV host .i32Bit (.reg a) (.reg b) =
        [clrldi tmp1 a 32, clrldi tmp2 b 32, subfe tmp3 tmp2 tmp1, clrldi tmp4 tmp3 32] ++
          (emitTestNZSetCR tmp4 .i32Bit ++ (sbbBits (.reg a) (.reg b) ++
            (setCAFromBit host tmp3 tmp1 ++ setOVFromBit host tmp4 tmp1))) := by
      simp [sbbNZCV, sbbBits]
    rw [hcd, run_append, run_append, run_append, run_append]
    obtain ⟨h3₁, h4₁, hkp⟩ := run_sbbDifference r (a := a) h2
    set r₁ := run r [clrldi tmp1 a 32, clrldi tmp2 b 32, subfe tmp3 tmp2 tmp1, clrldi tmp4 tmp3 32]
    have hts := sets_emitTestNZSetCR r₁ tmp4 (show OpSize.i32Bit ≠ .i64Bit by decide)
    set r₂ := run r₁ (emitTestNZSetCR tmp4 .i32Bit)
    obtain ⟨hf₃, h3₃, h4₃⟩ := run_sbbBits r₂ h1 h2
    set r₃ := run r₂ (sbbBits (.reg a) (.reg b))
    have hca := sets_setCAFromBit host r₃ h3₃ (show tmp3 ≠ tmp1 by decide)
    set r₄ := run r₃ (setCAFromBit host tmp3 tmp1)
    have hov := sets_setOVFromBit host r₄ ((hca.gpr tmp4 (by decide)).trans h4₃)
      (show tmp4 ≠ tmp1 by decide)
    have hwr := setWidth_subfe_zx32 (r.gpr a) (r.gpr b) r.flags.c
    have hv := overflow_word_sub (r.gpr a) (r.gpr b) r.flags.c (r₁.gpr tmp4) (by
      rw [h4₁, setWidth_zx32, hwr])
    rw [BitVec.getLsbD_and, BitVec.getLsbD_xor, BitVec.getLsbD_xor] at hv
    have hc := getLsbD_zeroExtend_sub r.flags.c ((r.gpr a).setWidth 32) ((r.gpr b).setWidth 32)
    rw [hov.flags, hca.flags, hf₃, hts.flags, hts.gpr tmp3 (by decide),
      hts.gpr tmp4 (by decide), hts.gpr a (h1.ne (by decide)), hts.gpr b (h2.ne (by decide)),
      hkp a h1, hkp b h2, hv, h3₁, h4₁]
    have hlow := (setWidth_zx32 _).trans hwr
    refine Nzcv.ext ?_ ?_ ?_ rfl
    · exact congrArg BitVec.msb hlow
    · exact congrArg (· == 0) hlow
    · exact (congrArg not hc).trans (Bool.not_not _)
  · rw [sbbNZCV, if_pos rfl, run_cons, run_nil, subfeo_, flags_exec_xo_record _ _ _ _ _ rfl]
    change _ = adcFlags (~~~ (r.gpr b).setWidth 64) ((r.gpr a).setWidth 64) _
    rw [BitVec.setWidth_eq, BitVec.setWidth_eq]
    rfl

/-- The 32-bit part of `AdcZeroWithFlags` before the flags are written. -/
def adcZeroWord (src1 : Operand) : List Alu :=
  [clrldi tmp1 src1.getReg 32, add tmp3 tmp1 tmp4, .rldicl false tmp4 tmp3 33 63,
    .rldicl false tmp1 tmp1 33 63, .xori tmp1 tmp1 1, .logic .and false tmp4 tmp4 tmp1,
    .rldicl false tmp2 tmp3 32 63]

/-- A carry added to a word. -/
theorem zx32_add_bitWord (x : BitVec 64) (c : Bool) :
    zx32 x + bitWord c = addCarry (zx32 x) (zx32 0) c := by
  rw [addCarry, show zx32 0 = BitVec.ofNat 64 0 by decide, BitVec.add_zero]
  rfl

theorem run_adcZeroWord (hc : r.gpr tmp4 = bitWord c) (hx : r.gpr a = x) :
    let r' := run r (adcZeroWord (.reg a))
    r'.gpr tmp3 = addCarry (zx32 x) (zx32 0) c ∧
      r'.gpr tmp4 = bitWord (overflow (x.setWidth 32) 0 c) ∧
      r'.gpr tmp2 = bitWord (carryOut (x.setWidth 32) 0 c) := by
  have hca := getLsbD_zeroExtend_add c (x.setWidth 32) 0
  have hsum : zx32 x + bitWord c = addCarry (zx32 x) (zx32 0) c := zx32_add_bitWord x c
  have hov : ((addCarry (zx32 x) (zx32 0) c).getLsbD 31 && !(zx32 x).getLsbD 31) =
      overflow (x.setWidth 32) 0 c := by
    rw [getLsbD_31, getLsbD_31, setWidth_addCarry_zx32, setWidth_zx32, overflow]
    rw [show (0 : BitVec 32).msb = false by decide]
    change ((addCarry (x.setWidth 32) 0 c).msb && _) = _
    cases (x.setWidth 32).msb <;> cases (addCarry (x.setWidth 32) 0 c).msb <;> rfl
  simpa [adcZeroWord, hc, hx, bitWord_and, hsum] using ⟨congrArg bitWord hov, congrArg bitWord hca⟩

/-- A carry added as an operand. -/
theorem addCarry_bitWord (x : BitVec 64) (c : Bool) :
    addCarry x (bitWord c) false = addCarry x 0 c := by
  rw [addCarry_false, addCarry_zero]
  rfl

theorem adcFlags_bitWord (x : BitVec 64) (c : Bool) :
    adcFlags x (bitWord c) false = adcFlags x 0 c := by
  have hc : carryOut x (bitWord c) false = carryOut x 0 c := by
    cases c <;> rfl
  have hv : overflow x (bitWord c) false = overflow x 0 c := by
    unfold overflow
    rw [addCarry_bitWord]
    cases c <;> rfl
  unfold adcFlags
  rw [hc, hv, addCarry_bitWord]

theorem run_adcZeroWithFlags (hs : size.IsWide) (hd : Allocated dst) (h1 : Allocated a)
    (h0 : r.gpr 0 = 0) :
    (run r (adcZeroWithFlags host size dst (.reg a))).flags =
        adcFlags ((r.gpr a).setWidth size.bits) 0 (!r.flags.c) ∧
      (run r (adcZeroWithFlags host size dst (.reg a))).gpr dst =
        (addCarry ((r.gpr a).setWidth size.bits) 0 (!r.flags.c)).setWidth 64 := by
  obtain ⟨-, hcv⟩ := run_invertedCarry r h0 tmp4
  have hst : ∀ c, (run r [subfe tmp4 0 0, .neg tmp4 tmp4]).gpr c =
      if c = tmp4 then bitWord (!r.flags.c) else r.gpr c := by
    intro c
    rw [run_cons, run_cons, run_nil, exec_neg, Regs.gpr_set, hcv, hcv, if_pos rfl, neg_neg]
    split <;> rfl
  rw [adcZeroWithFlags, run_append]
  set r₁ := run r [subfe tmp4 0 0, .neg tmp4 tmp4]
  have hc₁ : r₁.gpr tmp4 = bitWord (!r.flags.c) := by rw [hst, if_pos rfl]
  have ha₁ : r₁.gpr a = r.gpr a := by rw [hst, if_neg (h1.ne (by decide))]
  rcases hs with rfl | rfl
  · obtain ⟨hsum, hov, hca⟩ := run_adcZeroWord r₁ hc₁ ha₁
    have hcd : (if OpSize.i32Bit = .i64Bit then [addco_ dst (reg a).getReg tmp4] else
        [clrldi tmp1 (reg a).getReg 32, add tmp3 tmp1 tmp4, .rldicl false tmp4 tmp3 33 63,
          .rldicl false tmp1 tmp1 33 63, .xori tmp1 tmp1 1, .logic .and false tmp4 tmp4 tmp1,
          .rldicl false tmp2 tmp3 32 63, clrldi dst tmp3 32] ++
          emitTestNZSetCR dst .i32Bit ++ setCAFromBit host tmp2 tmp1 ++
            setOVFromBit host tmp4 tmp1) =
        adcZeroWord (.reg a) ++ ([clrldi dst tmp3 32] ++ wordFlags host dst tmp2 tmp4) := by
      simp [adcZeroWord, wordFlags]
    obtain ⟨hfla, hval⟩ := run_wordResult host (run r₁ (adcZeroWord (.reg a))) hd (by decide)
      (by decide) (by decide) (by decide) hsum hca hov
    rw [hcd, run_append, hfla, hval, setWidth_addCarry_zx32]
    exact ⟨rfl, rfl⟩
  · rw [if_pos rfl, run_cons, run_nil, flags_addco_, gpr_addco_, if_pos rfl, hc₁,
      getReg_reg, ha₁, adcFlags_bitWord]
    refine ⟨(adcFlags_i64 (r.gpr a) 0 _).symm, ?_⟩
    rw [← addCarry_false, addCarry_bitWord]
    exact (addCarry_i64 (r.gpr a) 0 _).symm

end Carry

end FastPPC.Jit
