import FastPPC.Jit.FlagConditions

/-!
# When the emitted code is exact

* `Exact` : the result and the flags are those of the operation at its size;
* `FlagOp.Allowed` : sizes, inline constants and registers as the IR and the allocator give them;
* `FlagOp.Holds` : the operands for which the emitted code is right;
* `lower_exact_iff` : it is exact precisely for them.

Three shapes go wrong.  `Adc` and `AdcWithFlags` may have an inline zero as first source, and
`SubNZCV` one next to an inline constant, but they read the register byte of the constant's node.
`CondAddNZCV` adds a short constant with `addic.` and then clears the overflow.
-/

namespace FastPPC.Jit

open Ppc Operand BitVec Option
open Ir (Nzcv CondClass subFlags sub_beq_zero subFlags_c)

/-- The code left the result and the flags of the operation. -/
structure Exact (op : FlagOp) (r r' : Regs) : Prop where
  value : ∀ d, op.dst = some d → r'.gpr d = op.value (value r) r.flags
  n : r'.flags.n = (op.flags (Operand.value r) r.flags).n
  z : r'.flags.z = (op.flags (Operand.value r) r.flags).z
  v : r'.flags.v = (op.flags (Operand.value r) r.flags).v
  c : op.definesCarry = true → r'.flags.c = (op.flags (Operand.value r) r.flags).c

def Operand.InReg : Operand → Prop
  | reg a => Jit.Allocated a
  | inlineConstant _ _ => False

/-- A slot that may hold an inline zero. -/
def Operand.ZeroOrReg : Operand → Prop
  | reg a => Jit.Allocated a
  | inlineConstant c stale => c = 0 ∧ Jit.Allocated stale

/-- Operands as `IR.json` allows them; the constants of its other inline kinds are not restricted
here. -/
def FlagOp.Allowed : FlagOp → Prop
  | addWithFlags _ d s1 s2 | andWithFlags _ d s1 s2 => Jit.Allocated d ∧ s1.InReg ∧ s2.Allocated
  | subWithFlags _ d s1 s2 =>
    Jit.Allocated d ∧ s1.ZeroOrReg ∧ s2.Allocated ∧ oneReg s1 s2
  | addNZCV _ s1 s2 | testNZ _ s1 s2 => s1.InReg ∧ s2.Allocated
  | subNZCV _ s1 s2 => s1.ZeroOrReg ∧ s2.Allocated
  | adc size d s1 s2 | adcWithFlags size d s1 s2 =>
    size.IsWide ∧ Jit.Allocated d ∧ s1.ZeroOrReg ∧ s2.InReg
  | sbb size d s1 s2 | sbbWithFlags size d s1 s2 =>
    size.IsWide ∧ Jit.Allocated d ∧ s1.InReg ∧ s2.InReg
  | adcZero size d s1 | adcZeroWithFlags size d s1 =>
    size.IsWide ∧ Jit.Allocated d ∧ s1.InReg
  | adcNZCV size s1 s2 | sbbNZCV size s1 s2 => size.IsWide ∧ s1.InReg ∧ s2.InReg
  | condAddNZCV size s1 s2 cond _ | condSubNZCV size s1 s2 cond _ =>
    size.IsWide ∧ s1.ZeroOrReg ∧ s2.Allocated ∧ cond.isInteger = true

/-- The numbers whose difference to a constant has the flags of the constant's negation. -/
def SameBorrow (g c : BitVec 64) : Prop :=
  if c = 0 then g = 0
  else if c.msb = true ∧ c ≠ intMin 64 then g.toNat + (-c).toNat < 2 ^ 63
  else g.toNat < c.toNat

instance (g c : BitVec 64) : Decidable (SameBorrow g c) := by
  unfold SameBorrow
  infer_instance

/-- The operands for which the emitted code is right. -/
def FlagOp.Holds (r : Regs) : FlagOp → Prop
  | adc size _ (.inlineConstant _ stale) _ | adcWithFlags size _ (.inlineConstant _ stale) _ =>
    (r.gpr stale).setWidth size.bits = 0
  | subNZCV .i64Bit (.inlineConstant _ stale) (.inlineConstant c _) => SameBorrow (r.gpr stale) c
  | condAddNZCV .i64Bit s1 (.inlineConstant c stale) cond _ =>
    (inlineConstant c stale).IsShort → cond.holds r.flags = true →
      -(2 ^ 63) ≤ (s1.value r).toInt + c.toInt ∧ (s1.value r).toInt + c.toInt < 2 ^ 63
  | _ => True

/-! ### The two flag conditions -/

variable {c : BitVec 64}

theorem overflow_eq_false_iff (x c : BitVec 64) : overflow x c false = false ↔
      -(2 ^ 63) ≤ x.toInt + c.toInt ∧ x.toInt + c.toInt < 2 ^ 63 := by
  have h : overflow x c false = saddOverflow x c := by
    rw [saddOverflow_eq, overflow, addCarry_false]
    cases x.msb <;> cases c.msb <;> cases (x + c).msb <;> rfl
  rw [h, saddOverflow]
  simp
  omega

theorem toNat_sub_of_lt {g : BitVec 64} (h : g.toNat < c.toNat) :
    (g - c).toNat = 2 ^ 64 - c.toNat + g.toNat := by
  rw [toNat_sub, Nat.mod_eq_of_lt (by omega)]

/-- With a borrow the flags of a difference are given by three comparisons. -/
theorem subFlags_of_lt {g : BitVec 64} (h : g.toNat < c.toNat) :
    subFlags g c = ⟨decide (2 ^ 63 ≤ 2 ^ 64 - c.toNat + g.toNat), false, false,
      (decide (2 ^ 63 ≤ g.toNat) != decide (2 ^ 63 ≤ c.toNat)) &&
        (decide (2 ^ 63 ≤ g.toNat) != decide (2 ^ 63 ≤ 2 ^ 64 - c.toNat + g.toNat))⟩ := by
  have hc : (subFlags g c).c = false := by
    rw [subFlags_c, ult_eq_decide, decide_eq_true h]
    rfl
  have hz : (subFlags g c).z = false := by
    refine (sub_beq_zero g c).trans (beq_eq_false_iff_ne.2 ?_)
    rintro rfl
    exact Nat.lt_irrefl _ h
  refine Nzcv.ext ?_ hz hc ?_
  · exact (msb_eq_decide _).trans (by rw [toNat_sub_of_lt h])
  · simp [subFlags, msb_eq_decide, toNat_sub_of_lt h]

theorem subFlags_eq_iff (g c : BitVec 64) : subFlags g c = subFlags 0 c ↔ SameBorrow g c := by
  unfold SameBorrow
  split
  · next h0 =>
    subst h0
    constructor
    · intro h
      have hz := congrArg Nzcv.z h
      simpa [subFlags] using hz
    · rintro rfl
      rfl
  · next h0 =>
    have hpos : (0 : BitVec 64).toNat < c.toNat := by
      have : c.toNat ≠ 0 := fun h => h0 (eq_of_toNat_eq h)
      change 0 < c.toNat
      omega
    have hzr := subFlags_of_lt hpos
    have hlt : subFlags g c = subFlags 0 c → g.toNat < c.toNat := by
      intro h
      have hcar := congrArg Nzcv.c h
      rw [hzr, subFlags_c, ult_eq_decide] at hcar
      simpa using hcar
    have hC : c.msb = true ∧ c ≠ intMin 64 ↔ 2 ^ 63 < c.toNat := by
      rw [msb_eq_decide, decide_eq_true_iff, Ne, ← toNat_inj,
        show (intMin 64).toNat = 2 ^ 63 by decide]
      omega
    have hneg : (-c).toNat = 2 ^ 64 - c.toNat := by
      rw [toNat_neg, Nat.mod_eq_of_lt]
      omega
    change subFlags 0 c = ⟨decide (2 ^ 63 ≤ 2 ^ 64 - c.toNat + 0), false, false,
      (decide (2 ^ 63 ≤ 0) != decide (2 ^ 63 ≤ c.toNat)) &&
        (decide (2 ^ 63 ≤ 0) != decide (2 ^ 63 ≤ 2 ^ 64 - c.toNat + 0))⟩ at hzr
    split
    · next hbig =>
      rw [hC] at hbig
      rw [hneg]
      constructor
      · intro h
        have hl := hlt h
        have hn := congrArg Nzcv.n h
        rw [hzr, subFlags_of_lt hl, decide_eq_decide] at hn
        omega
      · intro h
        have hl : g.toNat < c.toNat := by omega
        rw [hzr, subFlags_of_lt hl,
          decide_eq_false (show ¬ 2 ^ 63 ≤ 2 ^ 64 - c.toNat + g.toNat by omega),
          decide_eq_false (show ¬ 2 ^ 63 ≤ 2 ^ 64 - c.toNat + 0 by omega),
          decide_eq_false (show ¬ 2 ^ 63 ≤ g.toNat by omega),
          decide_eq_false (show ¬ 2 ^ 63 ≤ 0 by omega)]
    · next hsma =>
      rw [hC] at hsma
      constructor
      · exact hlt
      · intro h
        rw [hzr, subFlags_of_lt h,
          decide_eq_true (show 2 ^ 63 ≤ 2 ^ 64 - c.toNat + g.toNat by omega),
          decide_eq_true (show 2 ^ 63 ≤ 2 ^ 64 - c.toNat + 0 by omega),
          decide_eq_false (show ¬ 2 ^ 63 ≤ g.toNat by omega),
          decide_eq_false (show ¬ 2 ^ 63 ≤ 0 by omega)]

/-! ### Assembly -/

variable {src : Operand}

variable {op : FlagOp} {r' : Regs} {cond : CondClass} {head : List Alu} {cc : Cond}

theorem Exact.of_flags {r : Regs} (hdst : op.dst = none)
    (hf : r'.flags = op.flags (Operand.value r) r.flags) : Exact op r r' := by
  refine ⟨fun d hd => ?_, congrArg Nzcv.n hf, congrArg Nzcv.z hf, congrArg Nzcv.v hf,
    fun _ => congrArg Nzcv.c hf⟩
  rw [hdst] at hd
  cases hd

section

variable {r : Regs} {dst : Reg} (hdst : op.dst = some dst)
  (hv : r'.gpr dst = op.value (Operand.value r) r.flags)
include hdst hv

theorem forall_dst : ∀ d, op.dst = some d → r'.gpr d = op.value (Operand.value r) r.flags := by
  intro d hd
  obtain rfl := some.inj (hdst.symm.trans hd)
  exact hv

theorem Exact.of_dst (hf : r'.flags = op.flags (Operand.value r) r.flags) : Exact op r r' :=
  ⟨forall_dst hdst hv, congrArg Nzcv.n hf, congrArg Nzcv.z hf, congrArg Nzcv.v hf,
    fun _ => congrArg Nzcv.c hf⟩

/-- An operation that keeps the flags and leaves the carry undefined. -/
theorem Exact.of_value {c : Bool} (hf : r'.flags = { r.flags with c := c })
    (hop : op.flags (Operand.value r) r.flags = r.flags) (hc : op.definesCarry = false) :
    Exact op r r' := by
  refine ⟨forall_dst hdst hv, ?_, ?_, ?_, ?_⟩
  · rw [hf, hop]
  · rw [hf, hop]
  · rw [hf, hop]
  · intro h
    rw [hc] at h
    exact absurd h Bool.false_ne_true

end

theorem Exact.flags_eq {r : Regs} (h : Exact op r r') (hc : op.definesCarry = true) :
    r'.flags = op.flags (Operand.value r) r.flags :=
  Nzcv.ext h.n h.z (h.c hc) h.v

/-- What holds between operations: r0 is zero, and a valid projection is one. -/
structure Ready (host : Host) (xerProjectionValid : Bool) (r : Regs) : Prop where
  zero : r.gpr 0 = 0
  projected : xerProjectionValid = true → Projected host r

theorem Ready.gpr_zero {host : Host} {valid : Bool} {r : Regs} (h : Ready host valid r)
    (hev : Evaluates r r') : r'.gpr 0 = 0 :=
  (hev.gpr 0 (by decide) (by decide)).trans h.zero

theorem Operand.ZeroOrReg.allocated (h : src.ZeroOrReg) : src.Allocated := by
  cases src with
  | reg a => exact h
  | inlineConstant c stale => exact h.2

theorem Operand.InReg.eq_reg (h : src.InReg) : ∃ a, src = .reg a ∧ Jit.Allocated a := by
  cases src with
  | reg a => exact ⟨a, rfl, h⟩
  | inlineConstant c stale => exact h.elim

section Assembly

variable {valid : Bool}

variable (host : Host) (r : Regs) {size : OpSize} {dst : Reg} {src1 src2 : Operand}

theorem exact_addWithFlags (h1 : src1.InReg) (h2 : src2.Allocated) :
    Exact (.addWithFlags size dst src1 src2) r (run r (addWithFlags host size dst src1 src2)) := by
  obtain ⟨a, rfl, h1⟩ := h1.eq_reg
  obtain ⟨hf, hv⟩ := run_addWithFlags_top host r size dst h1 h2
  refine Exact.of_dst rfl ?_ ?_
  · rw [hv, shiftLeft_top_ushiftRight _ size.bits_le, setWidth_add _ _ size.bits_le]
    rfl
  · rw [hf, adcFlags_shiftLeft _ _ size.bits_pos size.bits_le]
    rfl

theorem exact_subWithFlags (h1 : src1.Allocated) (h2 : src2.Allocated) (hreg : oneReg src1 src2) :
    Exact (.subWithFlags size dst src1 src2) r (run r (subWithFlags host size dst src1 src2)) := by
  obtain ⟨hf, hv⟩ := run_subWithFlags_top host r size dst h1 h2 hreg
  refine Exact.of_dst rfl ?_ ?_
  · rw [hv, shiftLeft_top_ushiftRight _ size.bits_le, setWidth_sub _ _ size.bits_le]
    rfl
  · rw [hf, subFlags_shiftLeft _ _ size.bits_pos size.bits_le]
    rfl

theorem exact_addNZCV (h1 : src1.InReg) (h2 : src2.Allocated) :
    Exact (.addNZCV size src1 src2) r (run r (addNZCV host size src1 src2)) := by
  obtain ⟨a, rfl, h1⟩ := h1.eq_reg
  refine Exact.of_flags rfl ?_
  rw [run_addNZCV_top host r h1 h2, adcFlags_shiftLeft _ _ size.bits_pos size.bits_le]
  rfl

theorem exact_subNZCV (h1 : src1.Allocated) (h2 : src2.Allocated)
    (hreg : size = .i64Bit → oneReg src1 src2) :
    Exact (.subNZCV size src1 src2) r (run r (subNZCV host size src1 src2)) := by
  refine Exact.of_flags rfl ?_
  rw [run_subNZCV_top host r h1 h2 hreg, subFlags_shiftLeft _ _ size.bits_pos size.bits_le]
  rfl

/-- With two constants `SubNZCV` reads the register byte of the first. -/
theorem exact_subNZCV_stale_iff {stale stale' : Reg} (h : Allocated stale) :
    Exact (.subNZCV .i64Bit (.inlineConstant 0 stale) (.inlineConstant c stale')) r
        (run r (subNZCV host .i64Bit (.inlineConstant 0 stale) (.inlineConstant c stale'))) ↔
      SameBorrow (r.gpr stale) c := by
  have hf := run_subNZCV_stale host r 0 c stale' h
  have hsp : (FlagOp.subNZCV .i64Bit (.inlineConstant 0 stale) (.inlineConstant c stale')).flags
      (value r) r.flags = subFlags 0 c := by
    change subFlags ((0 : BitVec 64).setWidth 64) (c.setWidth 64) = _
    rw [setWidth_eq, setWidth_eq]
  rw [← subFlags_eq_iff]
  constructor
  · intro hex
    rw [← hf, ← hsp]
    exact hex.flags_eq rfl
  · intro heq
    exact .of_flags rfl (by rw [hf, heq, hsp])

theorem exact_subNZCV_iff (h1 : src1.ZeroOrReg) (h2 : src2.Allocated) :
    Exact (.subNZCV size src1 src2) r (run r (subNZCV host size src1 src2)) ↔
      (FlagOp.subNZCV size src1 src2).Holds r := by
  cases src1 with
  | reg a =>
    exact iff_of_true (exact_subNZCV host r h1 h2 (fun _ => trivial)) (by cases size <;> trivial)
  | inlineConstant c stale =>
    obtain ⟨rfl, hsta⟩ := h1
    cases src2 with
    | reg b =>
      exact iff_of_true (exact_subNZCV host r hsta h2 (fun _ => trivial))
        (by cases size <;> trivial)
    | inlineConstant c' stale' =>
      cases size
      case i64Bit => exact exact_subNZCV_stale_iff host r hsta
      all_goals exact iff_of_true (exact_subNZCV host r hsta h2 (fun h => nomatch h)) trivial

theorem exact_testNZ (h0 : r.gpr 0 = 0) (h1 : src1.InReg) :
    Exact (.testNZ size src1 src2) r (run r (testNZ host size src1 src2)) := by
  obtain ⟨a, rfl, h1⟩ := h1.eq_reg
  exact .of_flags rfl (run_testNZ host r size h1 h0 src2)

theorem exact_andWithFlags (h0 : r.gpr 0 = 0) (hd : Allocated dst) (h1 : src1.InReg) :
    Exact (.andWithFlags size dst src1 src2) r (run r (andWithFlags host size dst src1 src2)) := by
  obtain ⟨a, rfl, h1⟩ := h1.eq_reg
  obtain ⟨hf, hv⟩ := run_andWithFlags host r size hd h1 h0 src2
  exact .of_dst rfl hv hf

theorem addCarry_inj {w : ℕ} (x x' y : BitVec w) (c : Bool) :
    addCarry x y c = addCarry x' y c ↔ x = x' := by
  rw [addCarry, addCarry, BitVec.add_left_inj, BitVec.add_left_inj]

theorem setWidth_64_inj {w : ℕ} (hw : w ≤ 64) {x y : BitVec w} :
    x.setWidth 64 = y.setWidth 64 ↔ x = y := by
  constructor
  · intro h
    rw [← setWidth_setWidth_low hw x, h, setWidth_setWidth_low hw y]
  · rintro rfl
    rfl

/-- The first source of `Adc` and `AdcWithFlags`: the register that is read must hold it. -/
theorem staleZero_iff (hop : op = .adc size dst src1 src2 ∨
    op = .adcWithFlags size dst src1 src2) (h1 : src1.ZeroOrReg) :
    (r.gpr src1.getReg).setWidth size.bits = (src1.value r).setWidth size.bits ↔ op.Holds r := by
  cases src1 with
  | reg a => rcases hop with rfl | rfl <;> exact iff_of_true rfl trivial
  | inlineConstant c stale =>
    obtain ⟨rfl, -⟩ := h1
    have hzr : (0 : BitVec 64).setWidth size.bits = 0 := setWidth_zero _ _
    rw [getReg_inlineConstant, value_inlineConstant, hzr]
    rcases hop with rfl | rfl <;> rfl

theorem exact_adc_iff (hs : size.IsWide) (h1 : src1.ZeroOrReg) (h2 : src2.InReg) :
    Exact (.adc size dst src1 src2) r (run r (adc size dst src1 src2)) ↔
      (FlagOp.adc size dst src1 src2).Holds r := by
  obtain ⟨b, rfl, -⟩ := h2.eq_reg
  obtain ⟨hf, hv⟩ := run_adc r dst hs src1 (.reg b)
  rw [← staleZero_iff r (.inl rfl) h1, ← addCarry_inj _ _ ((r.gpr b).setWidth size.bits) r.flags.c,
    ← setWidth_64_inj size.bits_le]
  constructor
  · intro h
    exact hv.symm.trans (h.value dst rfl)
  · intro h
    exact .of_value rfl (hv.trans h) hf rfl rfl

theorem exact_adcWithFlags_iff (hs : size.IsWide) (hd : Allocated dst) (h1 : src1.ZeroOrReg)
    (h2 : src2.InReg) :
    Exact (.adcWithFlags size dst src1 src2) r (run r (adcWithFlags host size dst src1 src2)) ↔
      (FlagOp.adcWithFlags size dst src1 src2).Holds r := by
  obtain ⟨b, rfl, h2⟩ := h2.eq_reg
  obtain ⟨hf, hv⟩ := run_adcWithFlags host r hs hd src1 (show (reg b).Allocated from h2) rfl rfl
  rw [← staleZero_iff r (.inr rfl) h1]
  constructor
  · intro h
    rw [← addCarry_inj _ _ ((r.gpr b).setWidth size.bits) r.flags.c, ← setWidth_64_inj size.bits_le]
    exact hv.symm.trans (h.value dst rfl)
  · intro h
    rw [h] at hf hv
    exact .of_dst rfl hv hf

theorem exact_sbbWithFlags (hs : size.IsWide) (hd : Allocated dst) (h1 : src1.InReg)
    (h2 : src2.InReg) :
    Exact (.sbbWithFlags size dst src1 src2) r (run r (sbbWithFlags host size dst src1 src2)) := by
  obtain ⟨a, rfl, -⟩ := h1.eq_reg
  obtain ⟨b, rfl, h2⟩ := h2.eq_reg
  obtain ⟨hf, hv⟩ := run_sbbWithFlags host r (a := a) hs hd h2
  exact .of_dst rfl hv hf

theorem exact_adcZero (h0 : r.gpr 0 = 0) (hs : size.IsWide) (h1 : src1.InReg) :
    Exact (.adcZero size dst src1) r (run r (adcZero size dst src1)) := by
  obtain ⟨a, rfl, h1⟩ := h1.eq_reg
  obtain ⟨hf, hv⟩ := run_adcZero r dst hs h0 (show (reg a).Allocated from h1)
  exact .of_dst rfl hv hf

theorem exact_adcZeroWithFlags (h0 : r.gpr 0 = 0) (hs : size.IsWide) (hd : Allocated dst)
    (h1 : src1.InReg) :
    Exact (.adcZeroWithFlags size dst src1) r (run r (adcZeroWithFlags host size dst src1)) := by
  obtain ⟨a, rfl, h1⟩ := h1.eq_reg
  obtain ⟨hf, hv⟩ := run_adcZeroWithFlags host r hs hd h1 h0
  exact .of_dst rfl hv hf

section

variable (hs : size.IsWide) (h1 : src1.InReg) (h2 : src2.InReg)
include hs h1 h2

theorem exact_sbb : Exact (.sbb size dst src1 src2) r (run r (sbb size dst src1 src2)) := by
  obtain ⟨a, rfl, -⟩ := h1.eq_reg
  obtain ⟨b, rfl, -⟩ := h2.eq_reg
  obtain ⟨hf, hv⟩ := run_sbb r dst hs (.reg a) (.reg b)
  exact .of_value rfl hv hf rfl rfl

theorem exact_adcNZCV :
    Exact (.adcNZCV size src1 src2) r (run r (adcNZCV host size src1 src2)) := by
  obtain ⟨a, rfl, -⟩ := h1.eq_reg
  obtain ⟨b, rfl, h2⟩ := h2.eq_reg
  exact .of_flags rfl (run_adcNZCV host r hs h2)

theorem exact_sbbNZCV :
    Exact (.sbbNZCV size src1 src2) r (run r (sbbNZCV host size src1 src2)) := by
  obtain ⟨a, rfl, h1⟩ := h1.eq_reg
  obtain ⟨b, rfl, h2⟩ := h2.eq_reg
  exact .of_flags rfl (run_sbbNZCV host r hs h1 h2)

end

theorem Operand.ZeroOrReg.value_eq (h : src.ZeroOrReg) (h0 : r.gpr 0 = 0) :
    r.gpr src.getZeroableReg = src.value r := by
  refine value_getZeroableReg r h0 ?_
  rintro c stale rfl
  exact h.1

theorem mapNZCVCC_isSome (valid : Bool) (h : cond.isInteger = true) :
    ∃ head cc, mapNZCVCC host valid (integerNZCVCond cond) = some (head, cc) := by
  cases cond <;> first | exact ⟨_, _, rfl⟩ | cases h

/-- The two paths of a conditional compare.  The branch is on the inverted condition. -/
theorem exec_diamond (hr : Ready host valid r) (hc : cond.isInteger = true)
    (hmap : mapNZCVCC host valid (integerNZCVCond cond) = some (head, cc)) (nzcv : BitVec 8)
    (taken : List Alu) :
    ((Code.diamond head cc.invert (setNZCVConstant host nzcv) taken).exec r).flags =
      if cond.holds r.flags then (run (run r head) taken).flags else nzcvOf nzcv := by
  obtain ⟨hev, hcc⟩ := mapNZCVCC_spec host r hr.projected hc hmap
  have h0 := hr.gpr_zero hev
  have hinv : cc.invert.holds (run r head) = !cond.holds r.flags := by
    rw [← hcc]
    unfold Cond.holds Cond.invert
    cases (run r head).crBit cc.bi <;> cases cc.set <;> rfl
  rw [Code.exec, hinv]
  cases cond.holds r.flags
  · exact run_setNZCVConstant host (run r head) h0 nzcv
  · rfl

theorem value_eq_of_evaluates {r₁ : Regs} (h : Evaluates r r₁) (hs : src.Allocated) :
    src.value r₁ = src.value r := by
  cases src with
  | reg a => exact h.gpr a (Allocated.ne hs (by decide)) (Allocated.ne hs (by decide))
  | inlineConstant c stale => rfl

section

variable (hr : Ready host valid r) (hs : size.IsWide) (h1 : src1.ZeroOrReg) (h2 : src2.Allocated)
  (hc : cond.isInteger = true) (nzcv : BitVec 8)
  (hmap : mapNZCVCC host valid (integerNZCVCond cond) = some (head, cc))
include hr hs h1 h2 hc hmap

theorem exact_condSubNZCV : Exact (.condSubNZCV size src1 src2 cond nzcv) r
      ((Code.diamond head cc.invert (setNZCVConstant host nzcv)
        (condSubTaken host size src1 src2)).exec r) := by
  obtain ⟨hev, -⟩ := mapNZCVCC_spec host r hr.projected hc hmap
  have h0 := hr.gpr_zero hev
  refine Exact.of_flags rfl ?_
  rw [exec_diamond host r hr hc hmap, run_condSubTaken host _ hs h1.allocated h2,
    h1.value_eq _ h0, value_eq_of_evaluates r hev h1.allocated, value_eq_of_evaluates r hev h2]
  rfl

/-- `CondAddNZCV` is exact unless a short constant overflows. -/
theorem exact_condAddNZCV_iff : Exact (.condAddNZCV size src1 src2 cond nzcv) r
        ((Code.diamond head cc.invert (setNZCVConstant host nzcv)
          (condAddTaken host size src1 src2)).exec r) ↔
      (FlagOp.condAddNZCV size src1 src2 cond nzcv).Holds r := by
  obtain ⟨hev, -⟩ := mapNZCVCC_spec host r hr.projected hc hmap
  have h0 := hr.gpr_zero hev
  have hfla := exec_diamond host r hr hc hmap nzcv (condAddTaken host size src1 src2)
  have hv1 := (h1.value_eq _ h0).trans (value_eq_of_evaluates r hev h1.allocated)
  have hv2 := value_eq_of_evaluates r hev h2
  by_cases hsho : size = .i64Bit ∧ src2.IsShort
  · obtain ⟨rfl, hsho⟩ := hsho
    cases src2 with
    | reg b => exact hsho.elim
    | inlineConstant c stale =>
      rw [run_condAddTaken_short host _ h0 hsho, hv1] at hfla
      set x := src1.value r
      have hsp : (FlagOp.condAddNZCV .i64Bit src1 (.inlineConstant c stale) cond nzcv).flags
          (value r) r.flags =
            if cond.holds r.flags then adcFlags x c false else nzcvOf nzcv :=
        if_congr Iff.rfl (adcFlags_i64 x c false) rfl
      constructor
      · intro hex _ hhol
        have hv := hex.v
        rw [hfla, hsp, if_pos hhol, if_pos hhol] at hv
        exact (overflow_eq_false_iff x c).1 hv.symm
      · intro hno
        refine Exact.of_flags rfl ?_
        rw [hfla, hsp]
        cases hhol : cond.holds r.flags
        · rfl
        · have hv := (overflow_eq_false_iff x c).2 (hno hsho hhol)
          exact Nzcv.ext rfl rfl rfl hv.symm
  · have hln : size = .i64Bit → ¬ src2.IsShort := fun h1 h2 => hsho ⟨h1, h2⟩
    refine iff_of_true (.of_flags rfl ?_) ?_
    · rw [hfla, run_condAddTaken host _ hs h1.allocated h2 hln, hv1, hv2]
      rfl
    · cases src2 with
      | reg b => cases size <;> trivial
      | inlineConstant c stale =>
        cases size
        case i64Bit => exact fun h => absurd h (hln rfl)
        all_goals trivial

end

end Assembly

/-- **When the flags are exact.**  For every operation that the IR allows there is emitted code, and
running it from any register contents leaves the operand-size result and the four flags of the
operation if and only if `FlagOp.Holds`. -/
theorem lower_exact_iff (host : Host) (xerProjectionValid : Bool) (r : Regs) (op : FlagOp)
    (hr : Ready host xerProjectionValid r) (hop : op.Allowed) :
    ∃ code, op.lower host xerProjectionValid = some code ∧
      (Exact op r (code.exec r) ↔ op.Holds r) := by
  cases op with
  | addWithFlags size dst src1 src2 =>
    exact ⟨_, rfl, iff_of_true (exact_addWithFlags host r hop.2.1 hop.2.2) trivial⟩
  | subWithFlags size dst src1 src2 =>
    exact ⟨_, rfl, iff_of_true
      (exact_subWithFlags host r hop.2.1.allocated hop.2.2.1 hop.2.2.2) trivial⟩
  | addNZCV size src1 src2 =>
    exact ⟨_, rfl, iff_of_true (exact_addNZCV host r hop.1 hop.2) trivial⟩
  | subNZCV size src1 src2 => exact ⟨_, rfl, exact_subNZCV_iff host r hop.1 hop.2⟩
  | testNZ size src1 src2 =>
    exact ⟨_, rfl, iff_of_true (exact_testNZ host r hr.zero hop.1) trivial⟩
  | andWithFlags size dst src1 src2 =>
    exact ⟨_, rfl, iff_of_true (exact_andWithFlags host r hr.zero hop.1 hop.2.1) trivial⟩
  | adc size dst src1 src2 => exact ⟨_, rfl, exact_adc_iff r hop.1 hop.2.2.1 hop.2.2.2⟩
  | sbb size dst src1 src2 =>
    exact ⟨_, rfl, iff_of_true (exact_sbb r hop.1 hop.2.2.1 hop.2.2.2) trivial⟩
  | adcWithFlags size dst src1 src2 =>
    exact ⟨_, rfl, exact_adcWithFlags_iff host r hop.1 hop.2.1 hop.2.2.1 hop.2.2.2⟩
  | sbbWithFlags size dst src1 src2 =>
    exact ⟨_, rfl, iff_of_true
      (exact_sbbWithFlags host r hop.1 hop.2.1 hop.2.2.1 hop.2.2.2) trivial⟩
  | adcZero size dst src1 =>
    exact ⟨_, rfl, iff_of_true (exact_adcZero r hr.zero hop.1 hop.2.2) trivial⟩
  | adcZeroWithFlags size dst src1 =>
    exact ⟨_, rfl, iff_of_true
      (exact_adcZeroWithFlags host r hr.zero hop.1 hop.2.1 hop.2.2) trivial⟩
  | adcNZCV size src1 src2 =>
    exact ⟨_, rfl, iff_of_true (exact_adcNZCV host r hop.1 hop.2.1 hop.2.2) trivial⟩
  | sbbNZCV size src1 src2 =>
    exact ⟨_, rfl, iff_of_true (exact_sbbNZCV host r hop.1 hop.2.1 hop.2.2) trivial⟩
  | condAddNZCV size src1 src2 cond nzcv =>
    obtain ⟨hs, h1, h2, hc⟩ := hop
    obtain ⟨head, cc, hmap⟩ := mapNZCVCC_isSome host xerProjectionValid hc
    refine ⟨_, ?_, exact_condAddNZCV_iff host r hr hs h1 h2 hc nzcv hmap⟩
    rw [FlagOp.lower, hmap]
    rfl
  | condSubNZCV size src1 src2 cond nzcv =>
    obtain ⟨hs, h1, h2, hc⟩ := hop
    obtain ⟨head, cc, hmap⟩ := mapNZCVCC_isSome host xerProjectionValid hc
    refine ⟨_, ?_, iff_of_true (exact_condSubNZCV host r hr hs h1 h2 hc nzcv hmap) trivial⟩
    rw [FlagOp.lower, hmap]
    rfl

/-- A host with every shortcut enabled. -/
def sampleHost : Host := ⟨true, true, true, false⟩

/-- The largest signed number in r7, one in r9, and `Z` set. -/
def sampleRegs : Regs where
  gpr a := if a = 7 then 0x7fffffffffffffff else if a = 9 then 1 else 0
  cr := 0x20000000
  xer := 0
  lr := 0
  ctr := 0

theorem ready_sampleRegs : Ready sampleHost false sampleRegs := ⟨rfl, fun h => nomatch h⟩

/-- An addition with carry onto its own source. -/
theorem lower_exact_adcWithFlags :
    ∃ code, (FlagOp.adcWithFlags .i32Bit 7 (.reg 7) (.reg 9)).lower sampleHost false = some code ∧
      (Exact (.adcWithFlags .i32Bit 7 (.reg 7) (.reg 9)) sampleRegs (code.exec sampleRegs) ↔
        (FlagOp.adcWithFlags .i32Bit 7 (.reg 7) (.reg 9)).Holds sampleRegs) :=
  lower_exact_iff sampleHost false sampleRegs _ ready_sampleRegs
    ⟨.inl rfl, show 7 ≤ 7 by decide, show 7 ≤ 7 by decide, show 7 ≤ 9 by decide⟩

/-- Adding the constant one to the largest number with `CondAddNZCV` leaves `V` clear, and an inline
zero reads a stale register in `AdcWithFlags` and in `SubNZCV`: that of an inline constant is always
`GeneralRegisters[0]`, for which r9 stands here. -/
theorem lower_not_exact :
    (∃ code, (FlagOp.condAddNZCV .i64Bit (.reg 7) (.inlineConstant 1 8) .eq 0).lower sampleHost
        false = some code ∧
      ¬ Exact (.condAddNZCV .i64Bit (.reg 7) (.inlineConstant 1 8) .eq 0) sampleRegs
        (code.exec sampleRegs)) ∧
    (∃ code, (FlagOp.adcWithFlags .i64Bit 10 (.inlineConstant 0 9) (.reg 8)).lower sampleHost
        false = some code ∧
      ¬ Exact (.adcWithFlags .i64Bit 10 (.inlineConstant 0 9) (.reg 8)) sampleRegs
        (code.exec sampleRegs)) ∧
    ∃ code, (FlagOp.subNZCV .i64Bit (.inlineConstant 0 9) (.inlineConstant 1 8)).lower sampleHost
        false = some code ∧
      ¬ Exact (.subNZCV .i64Bit (.inlineConstant 0 9) (.inlineConstant 1 8)) sampleRegs
        (code.exec sampleRegs) := by
  refine ⟨⟨_, rfl, ?_⟩, ⟨_, rfl, ?_⟩, ⟨_, rfl, ?_⟩⟩
  · intro h
    exact absurd h.v (by decide)
  · intro h
    exact absurd (h.value 10 rfl) (by decide)
  · intro h
    exact absurd h.z (by decide)

end FastPPC.Jit
