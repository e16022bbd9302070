import FastPPC.Arith.BitVec
import FastPPC.Ppc.Alu

/-!
# Loading constants

`LoadImm64` picks one of several short sequences for a 64-bit constant.

* `loadImm32`, `loadImm64` : the sequences, as the emitter chooses them;
* `run_loadImm64` : each of them sets the register to the constant and changes nothing else;
* `loadImm64_exact` : and none is longer than five instructions.
-/

namespace FastPPC.Ppc

open BitVec

/-- `LoadImm32`: the register gets the constant, sign-extended. -/
def loadImm32 (rt : Reg) (imm : BitVec 32) : List Alu :=
  if -32768 ≤ imm.toInt ∧ imm.toInt < 32768 then [li rt (imm.setWidth 16)]
  else lis rt ((imm >>> 16).setWidth 16) ::
    if imm.setWidth 16 ≠ (0 : BitVec 16) then [.ori rt rt (imm.setWidth 16)] else []

/-- The general sequence of `LoadImm64`, half by half. -/
def loadHalves (rt : Reg) (hi lo : BitVec 32) : List Alu :=
  (if hi.toNat ≤ 0x7fff then [li rt (hi.setWidth 16)]
    else lis rt ((hi >>> 16).setWidth 16) ::
      if hi.setWidth 16 ≠ (0 : BitVec 16) then [.ori rt rt (hi.setWidth 16)] else []) ++
  [sldi rt rt 32] ++
  (if (lo >>> 16).setWidth 16 ≠ (0 : BitVec 16) then [.oris rt rt ((lo >>> 16).setWidth 16)]
    else []) ++
  (if lo.setWidth 16 ≠ (0 : BitVec 16) then [.ori rt rt (lo.setWidth 16)] else [])

/-- `LoadImm64`; `shiftedImm32` is off where the environment disables that rule. -/
def loadImm64 (shiftedImm32 : Bool) (rt : Reg) (imm : BitVec 64) : List Alu :=
  let tz := imm.ctz.toNat
  let v := imm.sshiftRight tz
  if imm = 0 then [li rt 0]
  else if imm.toNat ≤ 0x7fffffff ∨ 0xffffffff80000000 ≤ imm.toNat then
    loadImm32 rt (imm.setWidth 32)
  else if imm.toNat ≤ 0xffffffff then loadImm32 rt (imm.setWidth 32) ++ [clrldi rt rt 32]
  else if (-32768 ≤ v.toInt ∧ v.toInt ≤ 32767) ∧ v <<< tz = imm then
    [li rt (v.setWidth 16), sldi rt rt tz]
  else if popcount imm + imm.clz.toNat + tz = 64 then
    [li rt (-1), .rldic rt rt tz (63 - (63 - imm.clz.toNat))]
  else if shiftedImm32 ∧ 0 < tz ∧ (imm >>> tz).toNat ≤ 0x7fffffff then
    loadImm32 rt ((imm >>> tz).setWidth 32) ++ [sldi rt rt tz]
  else loadHalves rt ((imm >>> 32).setWidth 32) (imm.setWidth 32)

/-! ### Their effect -/

variable {imm : BitVec 64}

@[simp]
theorem Regs.set_set (r : Regs) (rt : Reg) (u v : BitVec 64) :
    (r.set rt u).set rt v = r.set rt v := by
  unfold Regs.set
  rw [Function.update_idem]

/-- Two half-words put together. -/
theorem lis_ori (imm : BitVec 32) :
    ((imm >>> 16).setWidth 16).signExtend 64 <<< 16 |||
        ((imm.setWidth 16).setWidth 64 : BitVec 64) =
      imm.signExtend 64 := by
  apply eq_of_getLsbD_eq
  intro i hi
  simp only [getLsbD_or]
  grind

section

variable (r : Regs) (rt : Reg)

theorem run_lis_ori (h l : BitVec 16) : run r (lis rt h :: if l ≠ 0 then [.ori rt rt l] else []) =
      r.set rt (h.signExtend 64 <<< 16 ||| l.setWidth 64) := by
  rw [run_cons, exec_lis]
  split
  · rw [run_cons, run_nil, Alu.exec, Regs.gpr_set, if_pos rfl, Regs.set_set]
  next hl =>
    rw [not_not.1 hl, run_nil]
    exact congrArg (r.set rt) or_zero.symm

theorem run_loadImm32 (imm : BitVec 32) :
    run r (loadImm32 rt imm) = r.set rt (imm.signExtend 64) := by
  unfold loadImm32
  split
  next h =>
    rw [run_cons, run_nil, exec_li]
    congr 1
    have hwd : (imm.signExtend 64).setWidth 16 = imm.setWidth 16 := by
      apply eq_of_getLsbD_eq
      intro i hi
      simp only [getLsbD_setWidth]
      grind
    have hint : (imm.signExtend 64).toInt = imm.toInt := toInt_signExtend_of_le (by decide)
    rw [← hwd, signExtend_setWidth _ (by decide) (by decide) (by omega) (by omega)]
  · rw [run_lis_ori, lis_ori]

/-- The upper half, in the low word of the register. -/
theorem run_loadUpper (hi : BitVec 32) : ∃ x : BitVec 64, x.setWidth 32 = hi ∧
      run r (if hi.toNat ≤ 0x7fff then [li rt (hi.setWidth 16)]
        else lis rt ((hi >>> 16).setWidth 16) ::
          if hi.setWidth 16 ≠ (0 : BitVec 16) then [.ori rt rt (hi.setWidth 16)] else []) =
        r.set rt x := by
  split
  next h =>
    refine ⟨(hi.setWidth 16).signExtend 64, ?_, by rw [run_cons, run_nil, exec_li]⟩
    have hmsb : (hi.setWidth 16).msb = false := by
      rw [msb_eq_false_iff_two_mul_lt, toNat_setWidth]
      omega
    rw [signExtend_eq_setWidth_of_msb_false hmsb]
    apply eq_of_toNat_eq
    simp only [toNat_setWidth]
    omega
  · refine ⟨hi.signExtend 64, ?_, by rw [run_lis_ori, lis_ori]⟩
    apply eq_of_getLsbD_eq
    intro i hi
    simp only [getLsbD_setWidth]
    grind

/-- An `or` with an immediate that is left out where the immediate is zero. -/
theorem run_ori_opt (l : BitVec 16) :
    run r (if l ≠ 0 then [.ori rt rt l] else []) = r.set rt (r.gpr rt ||| l.setWidth 64) := by
  split
  · rfl
  next hl =>
    rw [not_not.1 hl, run_nil]
    simp [Regs.set]

theorem run_oris_opt (l : BitVec 16) : run r (if l ≠ 0 then [.oris rt rt l] else []) =
      r.set rt (r.gpr rt ||| l.setWidth 64 <<< 16) := by
  split
  · rfl
  next hl =>
    rw [not_not.1 hl, run_nil]
    simp [Regs.set]

theorem run_loadHalves (imm : BitVec 64) :
    run r (loadHalves rt ((imm >>> 32).setWidth 32) (imm.setWidth 32)) = r.set rt imm := by
  obtain ⟨x, hx, hrun⟩ := run_loadUpper r rt ((imm >>> 32).setWidth 32)
  have hbt : ∀ i, i < 32 → x.getLsbD i = imm.getLsbD (32 + i) := by
    intro i hi
    have := congrArg (·.getLsbD i) hx
    simpa [hi] using this
  rw [loadHalves, run_append, run_append, run_append, hrun, run_ori_opt, run_oris_opt, run_cons,
    run_nil, exec_sldi _ _ _ (by decide)]
  simp only [Regs.gpr_set, if_true, Regs.set_set]
  congr 1
  apply eq_of_getLsbD_eq
  intro i hi
  simp only [getLsbD_or, getLsbD_shiftLeft]
  by_cases h : i < 32
  · grind
  · rw [hbt (i - 32) (by omega), show 32 + (i - 32) = i by omega]
    grind

end

/-- A constant without the zeros at its end, shifted back. -/
theorem ushiftRight_ctz_shiftLeft (imm : BitVec 64) :
    (imm >>> imm.ctz.toNat) <<< imm.ctz.toNat = imm := by
  apply eq_of_getLsbD_eq
  intro i hi
  rw [getLsbD_shiftLeft, getLsbD_ushiftRight]
  by_cases h : i < imm.ctz.toNat
  · simp [h, getLsbD_false_of_lt_ctz h]
  · simp [h, hi, show imm.ctz.toNat + (i - imm.ctz.toNat) = i by omega]

theorem ctz_lt (h : imm ≠ 0) : imm.ctz.toNat < 64 := by
  by_contra hge
  have := getLsbD_true_ctz_of_ne_zero h
  rw [getLsbD_of_ge _ _ (Nat.le_of_not_lt hge)] at this
  exact Bool.false_ne_true this

/-- Ones that are rotated and masked at both ends. -/
theorem getLsbD_rotated_ones {lo c i : ℕ} (hc : c + lo < 64) (hi : i < 64) :
    ((BitVec.allOnes 64).rotateLeft lo &&& mask c (63 - lo)).getLsbD i =
      decide (lo ≤ i ∧ i < 64 - c) := by
  rw [getLsbD_and, getLsbD_rotateLeft _ (by omega) hi, getLsbD_mask (by omega) hi,
    getLsbD_allOnes, getLsbD_allOnes]
  grind

/-- The rotated mask is the run of ones. -/
theorem rldic_allOnes (h : imm ≠ 0) (hrun : popcount imm + imm.clz.toNat + imm.ctz.toNat = 64) :
    (BitVec.allOnes 64).rotateLeft imm.ctz.toNat &&&
      mask (63 - (63 - imm.clz.toNat)) (63 - imm.ctz.toNat) = imm := by
  have hctz := ctz_lt h
  have hbit := getLsbD_true_ctz_of_ne_zero h
  rw [getLsbD_of_popcount hrun hctz, decide_eq_true_eq] at hbit
  rw [show 63 - (63 - imm.clz.toNat) = imm.clz.toNat by omega]
  apply eq_of_getLsbD_eq
  intro i hi
  rw [getLsbD_of_popcount hrun hi]
  exact getLsbD_rotated_ones (by omega) hi

/-- **Every sequence loads its constant** and changes nothing else. -/
theorem run_loadImm64 (r : Regs) (shiftedImm32 : Bool) (rt : Reg) (imm : BitVec 64) :
    run r (loadImm64 shiftedImm32 rt imm) = r.set rt imm := by
  simp only [loadImm64]
  split
  next h0 =>
    rw [run_cons, run_nil, exec_li, h0]
    rfl
  next h0 =>
  split
  next h32 =>
    rw [run_loadImm32]
    congr 1
    have hint := toInt_eq_toNat_cond imm
    exact signExtend_setWidth imm (by decide) (by decide) (by omega) (by omega)
  split
  next hz32 =>
    rw [run_append, run_loadImm32, run_cons, run_nil, exec_clrldi _ _ _ (by decide),
      Regs.gpr_set, if_pos rfl, Regs.set_set]
    congr 1
    apply eq_of_toNat_eq
    simp only [toNat_setWidth]
    grind
  split
  next h16 =>
    rw [run_cons, run_cons, run_nil, exec_li, exec_sldi _ _ _ (ctz_lt h0), Regs.gpr_set,
      if_pos rfl, Regs.set_set, signExtend_setWidth _ (by decide) (by decide) (by omega) (by omega),
      h16.2]
  split
  next hrun =>
    rw [run_cons, run_cons, run_nil, exec_li, Alu.exec, Regs.gpr_set, if_pos rfl, Regs.set_set]
    congr 1
    exact rldic_allOnes h0 hrun
  split
  next hs =>
    rw [run_append, run_loadImm32, run_cons, run_nil, exec_sldi _ _ _ (ctz_lt h0), Regs.gpr_set,
      if_pos rfl, Regs.set_set]
    congr 1
    have hint := toInt_eq_toNat_cond (imm >>> imm.ctz.toNat)
    rw [signExtend_setWidth _ (by decide) (by decide) (by omega) (by omega),
      ushiftRight_ctz_shiftLeft]
  · exact run_loadHalves r rt imm

/-- **At most five instructions set the register to the constant**, and nothing else. -/
theorem loadImm64_exact (r : Regs) (shiftedImm32 : Bool) (rt : Reg) (imm : BitVec 64) :
    run r (loadImm64 shiftedImm32 rt imm) = r.set rt imm ∧
      (loadImm64 shiftedImm32 rt imm).length ≤ 5 := by
  refine ⟨run_loadImm64 r shiftedImm32 rt imm, ?_⟩
  simp only [loadImm64, loadImm32, loadHalves]
  split_ifs <;> simp

end FastPPC.Ppc
