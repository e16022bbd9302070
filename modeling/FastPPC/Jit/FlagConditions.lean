import FastPPC.Jit.FlagCarries

/-!
# Conditional compares

* `run_projectXERToCR1` : carry and overflow made testable in condition field 1;
* `mapNZCVCC_spec` : the branch condition is the condition of the IR;
* `run_setNZCVConstant` : the flags of the path not taken.
-/

namespace FastPPC.Jit

open Ppc Regs Operand
open Ir (Nzcv CondClass subFlags)

section Conditions

variable (host : Host) (r : Regs)

/-- The projection of `XER` that is known to be in condition field 1. -/
def Projected (r : Regs) : Prop := r.crBit 6 = r.ca ∧ r.crBit (xerOVBitIndex host) = r.ov

/-- Code that evaluates a condition: it changes neither the flags nor any register that a source
may be in. -/
structure Evaluates (r r' : Regs) : Prop where
  flags : r'.flags = r.flags
  gpr : ∀ a, a ≠ tmp1 → a ≠ tmp2 → r'.gpr a = r.gpr a

theorem crBit_mtocrf (bf : Fin 8) (rs : Reg) {i : ℕ} (hi : i < 32) :
    ((Alu.mtocrf bf rs).exec r).crBit i =
      if (fieldMask bf).getLsbD (31 - i) then (r.gpr rs).getLsbD (31 - i) else r.crBit i := by
  simp only [Alu.exec, crBit, BitVec.getLsbD_or, BitVec.getLsbD_and, BitVec.getLsbD_not]
  cases (fieldMask bf).getLsbD (31 - i)
  · simp [show 31 - i < 32 by omega]
  · simp [show 31 - i < 32 by omega]

theorem run_projectXERToCR1 {valid : Bool} (hv : valid = true → Projected host r) :
    Evaluates r (run r (projectXERToCR1 host valid)) ∧
      Projected host (run r (projectXERToCR1 host valid)) := by
  unfold projectXERToCR1
  split
  · next h => exact ⟨⟨rfl, fun _ _ _ => rfl⟩, hv h⟩
  · split
    · next h =>
      refine ⟨⟨?_, fun _ _ _ => rfl⟩, ?_⟩
      · simp [Alu.exec, setCrField, flags, crBit_setCrBit]
      · simp [Projected, xerOVBitIndex, h, Alu.exec, setCrField, crBit_setCrBit]
    · next h =>
      -- the word of `XER`, rotated so that the three bits stand in field 1
      set w := rotl32 r.xer 28 &&& mask (0 + 32) (31 + 32)
      set r₂ := (r.set tmp1 r.xer).set tmp2 w with hr₂
      have hrun : run r [.mfxer tmp1, .rlwinm false tmp2 tmp1 28 0 31, .mtocrf 1 tmp2] =
          (Alu.mtocrf 1 tmp2).exec r₂ := rfl
      have hw : r₂.gpr tmp2 = w := by rw [hr₂, gpr_set, if_pos rfl]
      have h25 : w.getLsbD 25 = r.ca := by
        rw [BitVec.getLsbD_and, getLsbD_mask (by decide) (by decide), decide_eq_true (by decide),
          Bool.and_true]
        simp [rotl32, ca]
      have h26 : w.getLsbD 26 = r.ov := by
        rw [BitVec.getLsbD_and, getLsbD_mask (by decide) (by decide), decide_eq_true (by decide),
          Bool.and_true]
        simp [rotl32, ov]
      have h0 := crBit_mtocrf r₂ 1 tmp2 (i := 0) (by decide)
      have h2 := crBit_mtocrf r₂ 1 tmp2 (i := 2) (by decide)
      have h5 := crBit_mtocrf r₂ 1 tmp2 (i := 5) (by decide)
      have h6 := crBit_mtocrf r₂ 1 tmp2 (i := 6) (by decide)
      rw [if_neg (by decide)] at h0 h2
      rw [if_pos (by decide), hw] at h5 h6
      rw [hrun]
      refine ⟨⟨?_, ?_⟩, ?_⟩
      · exact Nzcv.ext h0 h2 rfl rfl
      · intro a ha1 ha2
        exact (gpr_set _ _ _ _).trans ((if_neg ha2).trans ((gpr_set _ _ _ _).trans (if_neg ha1)))
      · refine ⟨h6.trans h25, ?_⟩
        rw [xerOVBitIndex, if_neg h]
        exact h5.trans h26

theorem flags_setCrBit {i : ℕ} (b : Bool) (hi : i < 32) (h0 : i ≠ 0) (h2 : i ≠ 2) :
    (r.setCrBit i b).flags = r.flags := by
  refine Nzcv.ext ?_ ?_ rfl rfl
  · exact (crBit_setCrBit r i b hi (by decide)).trans (if_neg h0.symm)
  · exact (crBit_setCrBit r i b hi (by decide)).trans (if_neg h2.symm)

/-- A condition computed into a scratch bit. -/
theorem evaluates_crlogic (op : CrOp) (bt ba bb : ℕ) (hbt : bt < 32) (h0 : bt ≠ 0) (h2 : bt ≠ 2) :
    Evaluates r ((Alu.crlogic op bt ba bb).exec r) ∧
      ((Alu.crlogic op bt ba bb).exec r).crBit bt = op.eval (r.crBit ba) (r.crBit bb) := by
  refine ⟨⟨flags_setCrBit r _ hbt h0 h2, fun _ _ _ => rfl⟩, ?_⟩
  exact (crBit_setCrBit r bt _ hbt hbt).trans (if_pos rfl)

theorem Evaluates.trans {r₁ r₂ : Regs} (h : Evaluates r r₁) (h' : Evaluates r₁ r₂) :
    Evaluates r r₂ :=
  ⟨h'.flags.trans h.flags, fun a h1 h2 => (h'.gpr a h1 h2).trans (h.gpr a h1 h2)⟩

/-- **The branch condition is the condition of the IR** on the flags, for every integer
condition. -/
theorem mapNZCVCC_spec {valid : Bool} (hv : valid = true → Projected host r) {cond : CondClass}
    {head : List Alu} {cc : Cond} (hint : cond.isInteger = true)
    (h : mapNZCVCC host valid (integerNZCVCond cond) = some (head, cc)) :
    Evaluates r (run r head) ∧ cc.holds (run r head) = cond.holds r.flags := by
  obtain ⟨hp, h6, hov⟩ := run_projectXERToCR1 host r hv
  -- the flags after the projection, bit by bit
  set p := run r (projectXERToCR1 host valid)
  have hN : p.crBit 0 = r.flags.n := congrArg Nzcv.n hp.flags
  have hZ : p.crBit 2 = r.flags.z := congrArg Nzcv.z hp.flags
  have hC : p.crBit 6 = r.flags.c := h6.trans (congrArg Nzcv.c hp.flags)
  have hV : p.crBit (xerOVBitIndex host) = r.flags.v := hov.trans (congrArg Nzcv.v hp.flags)
  obtain ⟨hugt, hugt'⟩ := evaluates_crlogic p .crandc 12 6 2 (by decide) (by decide) (by decide)
  obtain ⟨hslt, hslt'⟩ := evaluates_crlogic p .crxor 12 0 (xerOVBitIndex host) (by decide)
    (by decide) (by decide)
  set q := (Alu.crlogic .crxor 12 0 (xerOVBitIndex host)).exec p
  obtain ⟨hsgt, hsgt'⟩ := evaluates_crlogic q .crnor 13 12 2 (by decide) (by decide) (by decide)
  have hqZ : q.crBit 2 = r.flags.z := (congrArg Nzcv.z hslt.flags).trans hZ
  have hnil : Evaluates r r := ⟨rfl, fun _ _ _ => rfl⟩
  cases cond <;> simp only [CondClass.isInteger, Bool.false_eq_true] at hint <;>
    obtain ⟨rfl, rfl⟩ := Prod.mk.inj (Option.some.inj h)
  case eq => exact ⟨hnil, beq_true _⟩
  case neq => exact ⟨hnil, beq_false _⟩
  case mi => exact ⟨hnil, beq_true _⟩
  case pl => exact ⟨hnil, beq_false _⟩
  case uge => exact ⟨hp, (beq_true _).trans hC⟩
  case ult => exact ⟨hp, (beq_false _).trans (congrArg not hC)⟩
  case vs | fu => exact ⟨hp, (beq_true _).trans hV⟩
  case vc | fnu => exact ⟨hp, (beq_false _).trans (congrArg not hV)⟩
  all_goals rw [run_append]
  case ugt =>
    refine ⟨hp.trans r hugt, (beq_true _).trans (hugt'.trans ?_)⟩
    rw [hC, hZ]
    rfl
  case ule =>
    refine ⟨hp.trans r hugt, (beq_false _).trans (congrArg not (hugt'.trans ?_))⟩
    rw [hC, hZ]
    rfl
  case slt =>
    refine ⟨hp.trans r hslt, (beq_true _).trans (hslt'.trans ?_)⟩
    rw [hN, hV]
    rfl
  case sge =>
    refine ⟨hp.trans r hslt, (beq_false _).trans (congrArg not (hslt'.trans ?_))⟩
    rw [hN, hV]
    rfl
  case sgt =>
    refine ⟨hp.trans r (hslt.trans p hsgt), (beq_true _).trans (hsgt'.trans ?_)⟩
    rw [hslt', hqZ, hN, hV]
    rfl
  case sle =>
    refine ⟨hp.trans r (hslt.trans p hsgt), (beq_false _).trans ((congrArg not hsgt').trans ?_)⟩
    rw [hslt', hqZ, hN, hV]
    exact Bool.not_not _

/-- The word that `SetNZCVConstant` writes to field 0. -/
def cr0Word (nzcv : BitVec 8) : BitVec 32 :=
  (if nzcv.getLsbD 3 then 0x80000000 else 0) ||| (if nzcv.getLsbD 2 then 0x20000000 else 0)

theorem getLsbD_cr0Word (nzcv : BitVec 8) :
    ((cr0Word nzcv).setWidth 64).getLsbD 31 = nzcv.getLsbD 3 ∧
      ((cr0Word nzcv).setWidth 64).getLsbD 29 = nzcv.getLsbD 2 := by
  unfold cr0Word
  cases nzcv.getLsbD 3 <;> cases nzcv.getLsbD 2 <;> decide

theorem run_cr0Word (nzcv : BitVec 8) :
    let r' := run r ([.mfocrf tmp1 0] ++ loadConstant host tmp2 0xa0000000 ++
      [.logic .andc false tmp1 tmp1 tmp2] ++
      if cr0Word nzcv ≠ 0 then loadConstant host tmp2 ((cr0Word nzcv).setWidth 64) ++
        [.logic .or false tmp1 tmp1 tmp2] else [])
    r'.gpr tmp1 = ((r.cr &&& fieldMask 0).setWidth 64 &&& ~~~ 0xa0000000) |||
        (cr0Word nzcv).setWidth 64 ∧ r'.gpr 0 = r.gpr 0 := by
  have hmf : (Alu.mfocrf tmp1 0).exec r = r.set tmp1 ((r.cr &&& fieldMask 0).setWidth 64) := rfl
  by_cases hc : cr0Word nzcv = 0
  · rw [if_neg (not_not.2 hc), hc]
    simp only [run_append, run_cons, run_nil, loadConstant, run_loadImm64, hmf, exec_logic,
      gpr_set, tmp1, tmp2, Fin.reduceEq, reduceIte]
    exact ⟨(BitVec.or_zero).symm, trivial⟩
  · rw [if_pos hc]
    simp [run_append, loadConstant, run_loadImm64, hmf, exec_logic,
      LogicOp.eval, and_self]

/-- The flags of the path not taken. -/
theorem run_setNZCVConstant (h0 : r.gpr 0 = 0) (nzcv : BitVec 8) :
    (run r (setNZCVConstant host nzcv)).flags = nzcvOf nzcv := by
  have hcd : setNZCVConstant host nzcv = ([.mfocrf tmp1 0] ++
      loadConstant host tmp2 0xa0000000 ++ [.logic .andc false tmp1 tmp1 tmp2] ++
      if cr0Word nzcv ≠ 0 then loadConstant host tmp2 ((cr0Word nzcv).setWidth 64) ++
        [.logic .or false tmp1 tmp1 tmp2] else []) ++
      ([.mtocrf 0 tmp1] ++ (setCAConstant host (nzcv.getLsbD 1) 0 tmp1 ++
        setOVConstant host (nzcv.getLsbD 0) 0 tmp2)) := by
    simp only [setNZCVConstant, List.append_assoc]
    rfl
  obtain ⟨h1, hz⟩ := run_cr0Word host r nzcv
  rw [hcd, run_append, run_append, run_append, run_cons, run_nil]
  set r₁ := run r ([.mfocrf tmp1 0] ++ loadConstant host tmp2 0xa0000000 ++
    [.logic .andc false tmp1 tmp1 tmp2] ++
    if cr0Word nzcv ≠ 0 then loadConstant host tmp2 ((cr0Word nzcv).setWidth 64) ++
      [.logic .or false tmp1 tmp1 tmp2] else [])
  set r₂ := (Alu.mtocrf 0 tmp1).exec r₁
  have hz₂ : r₂.gpr 0 = 0 := hz.trans h0
  have hca := sets_setCAConstant host r₂ tmp1 (nzcv.getLsbD 1) hz₂
  set r₃ := run r₂ (setCAConstant host (nzcv.getLsbD 1) 0 tmp1)
  have hz₃ : r₃.gpr 0 = 0 := (hca.gpr 0 (by decide)).trans hz₂
  have hov := sets_setOVConstant host r₃ tmp2 (nzcv.getLsbD 0) hz₃
  have hn := crBit_mtocrf r₁ 0 tmp1 (i := 0) (by decide)
  have hZ := crBit_mtocrf r₁ 0 tmp1 (i := 2) (by decide)
  rw [if_pos (by decide), h1] at hn hZ
  rw [hov.flags, hca.flags]
  refine Nzcv.ext (hn.trans ?_) (hZ.trans ?_) rfl rfl
  · rw [BitVec.getLsbD_or, BitVec.getLsbD_and, BitVec.getLsbD_not,
      show (0xa0000000 : BitVec 64).getLsbD (31 - 0) = true by decide, Bool.not_true,
      Bool.and_false, Bool.and_false, Bool.false_or]
    exact (getLsbD_cr0Word nzcv).1
  · rw [BitVec.getLsbD_or, BitVec.getLsbD_and, BitVec.getLsbD_not,
      show (0xa0000000 : BitVec 64).getLsbD (31 - 2) = true by decide, Bool.not_true,
      Bool.and_false, Bool.and_false, Bool.false_or]
    exact (getLsbD_cr0Word nzcv).2

/-! ### The path taken -/

theorem value_getZeroableReg {src : Operand} (h0 : r.gpr 0 = 0)
    (hz : ∀ c stale, src = .inlineConstant c stale → c = 0) :
    r.gpr src.getZeroableReg = src.value r := by
  cases src with
  | reg a => rfl
  | inlineConstant c stale =>
    rw [getZeroableReg, hz c stale rfl, if_pos rfl, h0]
    rfl

section Taken

variable {size : OpSize} {src1 src2 : Operand}

theorem getZeroableReg_ne (h : src1.Allocated) {t : Reg} (ht : t.val < 7) (ht0 : 0 ≠ t) :
    src1.getZeroableReg ≠ t := by
  cases src1 with
  | reg a => exact Allocated.ne h ht
  | inlineConstant c stale =>
    rw [getZeroableReg]
    split
    · exact ht0
    · exact Allocated.ne h ht

theorem run_condSubTaken (hs : size.IsWide) (h1 : src1.Allocated) (h2 : src2.Allocated) :
    (run r (condSubTaken host size src1 src2)).flags =
      subFlags ((r.gpr src1.getZeroableReg).setWidth size.bits)
        ((src2.value r).setWidth size.bits) := by
  have h4 := getZeroableReg_ne h1 (t := tmp4) (by decide) (by decide)
  rcases hs with rfl | rfl
  · have hcd : condSubTaken host .i32Bit src1 src2 =
        (shiftedOperand host tmp1 32 (.reg src1.getZeroableReg) ++
          shiftedOperand host tmp2 32 src2) ++ [subfco_ tmp3 tmp2 tmp1] := rfl
    rw [hcd, run_append, run_shiftedOperands host r h2 (by decide), run_cons, run_nil,
      flags_subfco_]
    exact subFlags_shiftLeft (n := 32) _ _ (by decide) (by decide)
  · change _ = subFlags ((r.gpr src1.getZeroableReg).setWidth 64) ((src2.value r).setWidth 64)
    rw [BitVec.setWidth_eq, BitVec.setWidth_eq, condSubTaken.eq_def, if_neg (by decide)]
    cases src2 with
    | reg b => exact flags_subfco_ r tmp3 b src1.getZeroableReg
    | inlineConstant c stale =>
      rw [run_append, loadConstant, run_loadImm64, run_cons, run_nil, flags_subfco_, gpr_set,
        gpr_set, if_neg h4, if_pos rfl, value_inlineConstant]

/-- The constants that `CondAddNZCV` adds with `addic.`. -/
def Operand.IsShort : Operand → Prop
  | reg _ => False
  | inlineConstant c _ => -32768 ≤ c.toInt ∧ c.toInt ≤ 32767

instance (src : Operand) : Decidable src.IsShort := by
  cases src <;> unfold Operand.IsShort <;> infer_instance

/-- Without such a constant the path taken leaves the flags of the sum. -/
theorem run_condAddTaken (hs : size.IsWide) (h1 : src1.Allocated) (h2 : src2.Allocated)
    (hsho : size = .i64Bit → ¬ src2.IsShort) :
    (run r (condAddTaken host size src1 src2)).flags =
      adcFlags ((r.gpr src1.getZeroableReg).setWidth size.bits)
        ((src2.value r).setWidth size.bits) false := by
  have h4 := getZeroableReg_ne h1 (t := tmp4) (by decide) (by decide)
  rcases hs with rfl | rfl
  · have hcd : condAddTaken host .i32Bit src1 src2 =
        (shiftedOperand host tmp1 32 (.reg src1.getZeroableReg) ++
          shiftedOperand host tmp2 32 src2) ++ [addco_ tmp3 tmp1 tmp2] := rfl
    rw [hcd, run_append, run_shiftedOperands host r h2 (by decide), run_cons, run_nil, flags_addco_]
    exact adcFlags_shiftLeft (n := 32) _ _ (by decide) (by decide)
  · rw [adcFlags_i64, condAddTaken.eq_def, if_neg (by decide)]
    cases src2 with
    | reg b => exact flags_addco_ r tmp3 src1.getZeroableReg b
    | inlineConstant c stale =>
      have hln : ¬ (-32768 ≤ c.toInt ∧ c.toInt ≤ 32767) := hsho rfl
      dsimp only
      rw [if_neg hln, run_append, loadConstant, run_loadImm64, run_cons, run_nil, flags_addco_,
        gpr_set, gpr_set, if_neg h4, if_pos rfl, value_inlineConstant]

/-- With one it leaves the overflow clear. -/
theorem run_condAddTaken_short (h0 : r.gpr 0 = 0) (hsho : src2.IsShort) :
    (run r (condAddTaken host .i64Bit src1 src2)).flags =
      { adcFlags (r.gpr src1.getZeroableReg) (src2.value r) false with v := false } := by
  cases src2 with
  | reg b => exact hsho.elim
  | inlineConstant c stale =>
    have hc : (c.setWidth 16).signExtend 64 = c :=
      signExtend_setWidth c (by decide) (by decide) hsho.1 (by have := hsho.2; omega)
    set r₁ := (Alu.addic true tmp3 src1.getZeroableReg (c.setWidth 16)).exec r with hr₁
    have h0₁ : r₁.gpr 0 = 0 := by
      rw [hr₁, Alu.exec, gpr_result, if_neg (by decide), gpr_setCa, h0]
    have hf₁ : r₁.flags = { adcFlags (r.gpr src1.getZeroableReg) c false with v := r.flags.v } := by
      rw [hr₁, Alu.exec, flags_result, if_pos rfl, flags_setCa, hc, ← addCarry_false]
      rfl
    have hrun : run r (condAddTaken host .i64Bit src1 (.inlineConstant c stale)) =
        run r₁ (setOVConstant host false 0 tmp1) := by
      rw [condAddTaken.eq_def, if_neg (by decide)]
      exact congrArg (run r) (if_pos (show -32768 ≤ c.toInt ∧ c.toInt ≤ 32767 from hsho))
    rw [hrun, (sets_setOVConstant host r₁ tmp1 false h0₁).flags, hf₁]
    rfl

end Taken

end Conditions

end FastPPC.Jit
