import FastPPC.Jit.FlagLowering

/-!
# Additions, subtractions and masks leave their flags

* `sets_setCAFromBit` and the lemmas after it : writing a single flag of `XER`;
* `run_addWithFlags_top`, `run_subWithFlags_top` : the flags of the operands shifted to the top;
* `rldicl_of_and_succ`, `rlwinm_of_isRun` : the two mask instructions that have a record form;
* `run_andRefined` : the masked value and its flags at the operand size.
-/

namespace FastPPC.Jit

open Ppc Regs BitVec Operand
open Ir (Nzcv subFlags)

/-! ### Writing single flags -/

variable {b : Reg}

variable {scratch : Reg} {x : BitVec 64}

/-- The code changed no register but one, and left these flags. -/
structure Sets (scratch : Reg) (f : Nzcv) (r r' : Regs) : Prop where
  gpr : ∀ a, a ≠ scratch → r'.gpr a = r.gpr a
  flags : r'.flags = f

/-- A bit inserted into a word with `rlwimi`. -/
theorem getLsbD_rlwimi_bit (x : BitVec 64) (c : Bool) {k i : ℕ} (hk : k < 32) (hi : i < 64) :
    ((rotl32 (bitWord c) k &&& mask (31 - k + 32) (31 - k + 32)) |||
      (x &&& ~~~ mask (31 - k + 32) (31 - k + 32))).getLsbD i =
        if i = k then c else x.getLsbD i := by
  have hms : (mask (31 - k + 32) (31 - k + 32)).getLsbD i = decide (i = k) := by
    rw [getLsbD_mask le_rfl hi, decide_eq_decide]
    omega
  rw [getLsbD_or, getLsbD_and, getLsbD_and, getLsbD_not, hms]
  by_cases h : i = k
  · subst h
    have hbit : (bitWord c)[0] = c := by
      rw [← getLsbD_eq_getElem, getLsbD_bitWord]
      exact Bool.and_true c
    simp [rotl32, hk, hi, Nat.mod_eq_of_lt hk, hbit]
  · simp [h, hi]

theorem getLsbD_rotl32_zero (x : BitVec 64) {i : ℕ} (hi : i < 32) :
    (rotl32 x 0).getLsbD i = x.getLsbD i := by
  simp [rotl32, hi]
  omega

section Helpers

variable {c : Bool}

variable (host : Host) (r : Regs)

/-- `XER` read, changed by one instruction and written back. -/
theorem sets_xerPatch {i : Alu} {f : Nzcv}
    (h : i.exec (r.set scratch r.xer) = (r.set scratch r.xer).set scratch x)
    (hf : f = ⟨r.flags.n, r.flags.z, x.getLsbD 29, x.getLsbD 30⟩) :
    Sets scratch f r (run r [.mfxer scratch, i, .mtxer scratch]) := by
  have hrun : run r [.mfxer scratch, i, .mtxer scratch] = { r.set scratch x with xer := x } := by
    rw [run_cons, run_cons, run_cons, run_nil, Alu.exec, h, Alu.exec, gpr_set, if_pos rfl, set_set]
  rw [hrun]
  refine ⟨?_, hf.symm⟩
  intro a ha
  exact (gpr_set r scratch x a).trans (if_neg ha)

theorem sets_xerInsert (hb : r.gpr b = bitWord c) (hne : b ≠ scratch) {k : ℕ} (hk : k < 32) :
    Sets scratch ⟨r.flags.n, r.flags.z, if 29 = k then c else r.flags.c,
        if 30 = k then c else r.flags.v⟩ r
      (run r [.mfxer scratch, .rlwimi scratch b k (31 - k) (31 - k), .mtxer scratch]) := by
  refine sets_xerPatch r rfl ?_
  have hb' : (r.set scratch r.xer).gpr b = bitWord c := by rw [gpr_set, if_neg hne, hb]
  rw [hb', gpr_set, if_pos rfl, getLsbD_rlwimi_bit r.xer c hk (by decide),
    getLsbD_rlwimi_bit r.xer c hk (by decide)]
  rfl

theorem sets_setCAFromBit (hb : r.gpr b = bitWord c) (hne : b ≠ scratch) :
    Sets scratch { r.flags with c := c } r (run r (setCAFromBit host b scratch)) := by
  unfold setCAFromBit
  split
  · exact sets_xerInsert r hb hne (k := 29) (by decide)
  · constructor
    · intro a ha
      simp [Alu.exec, ha]
    · simp [Alu.exec, hb]
      cases c <;> decide

theorem sets_setOVFromBit (hb : r.gpr b = bitWord c) (hne : b ≠ scratch) :
    Sets scratch { r.flags with v := c } r (run r (setOVFromBit host b scratch)) := by
  unfold setOVFromBit
  split
  · exact sets_xerInsert r hb hne (k := 30) (by decide)
  · constructor
    · intro a ha
      simp [exec_sldi, ha]
    · simp [exec_sldi, hb]
      cases c <;> decide

/-- A bit of `XER` cleared, or set, through constant `m`. -/
theorem sets_xerClear (scratch : Reg) (mb me : ℕ) :
    Sets scratch ⟨r.flags.n, r.flags.z, r.flags.c && (mask (mb + 32) (me + 32)).getLsbD 29,
        r.flags.v && (mask (mb + 32) (me + 32)).getLsbD 30⟩ r
      (run r [.mfxer scratch, .rlwinm false scratch scratch 0 mb me, .mtxer scratch]) := by
  refine sets_xerPatch r rfl ?_
  rw [gpr_set, if_pos rfl, getLsbD_and, getLsbD_and, getLsbD_rotl32_zero _ (by decide),
    getLsbD_rotl32_zero _ (by decide)]
  rfl

theorem sets_xerOris (scratch : Reg) (m : BitVec 16) :
    Sets scratch ⟨r.flags.n, r.flags.z, r.flags.c || (m.setWidth 64 <<< 16).getLsbD 29,
        r.flags.v || (m.setWidth 64 <<< 16).getLsbD 30⟩ r
      (run r [.mfxer scratch, .oris scratch scratch m, .mtxer scratch]) := by
  refine sets_xerPatch r rfl ?_
  rw [gpr_set, if_pos rfl, getLsbD_or, getLsbD_or]
  rfl

theorem sets_setCAConstant {zero : Reg} (scratch : Reg) (ca : Bool) (hz : r.gpr zero = 0) :
    Sets scratch { r.flags with c := ca } r (run r (setCAConstant host ca zero scratch)) := by
  unfold setCAConstant
  split
  · cases ca
    · simpa [mask] using sets_xerClear r scratch 3 1
    · simpa using sets_xerOris r scratch 0x2000
  · cases ca
    · constructor
      · intro a ha
        simp [Alu.exec, ha]
      · simp [Alu.exec, hz]
        decide
    · constructor
      · intro a ha
        simp [ha]
      · simp [hz]
        decide

theorem sets_setOVConstant {zero : Reg} (scratch : Reg) (ov : Bool) (hz : r.gpr zero = 0) :
    Sets scratch { r.flags with v := ov } r (run r (setOVConstant host ov zero scratch)) := by
  unfold setOVConstant
  split
  · cases ov
    · simpa [mask] using sets_xerClear r scratch 2 0
    · simpa using sets_xerOris r scratch 0x4000
  · cases ov
    · constructor
      · intro a ha
        simp [ha]
      · simp [hz]
        decide
    · constructor
      · intro a ha
        simp [loadConstant, run_append, run_loadImm64, ha]
      · simp [loadConstant, run_append, run_loadImm64]
        decide

end Helpers

/-! ### Operands -/

variable {a : Reg}

/-- The registers of the allocator lie above the temporaries. -/
def Allocated (a : Reg) : Prop := 7 ≤ a.val

theorem Allocated.ne {t : Reg} (h : Allocated a) (ht : t.val < 7) : a ≠ t := by
  rintro rfl
  exact absurd h (Nat.not_le_of_lt ht)

def Operand.Allocated : Operand → Prop
  | reg r => Jit.Allocated r
  | inlineConstant _ stale => Jit.Allocated stale

theorem Operand.Allocated.getReg {src : Operand} (h : src.Allocated) :
    Jit.Allocated src.getReg := by
  cases src <;> exact h

theorem value_set {src : Operand} (h : src.Allocated) (r : Regs) {t : Reg}
    (ht : t.val < 7) (x : BitVec 64) : src.value (r.set t x) = src.value r := by
  cases src with
  | reg a => exact (gpr_set r t x a).trans (if_neg (Jit.Allocated.ne h ht))
  | inlineConstant c stale => rfl

theorem OpSize.bits_pos (size : OpSize) : 0 < size.bits := by cases size <;> decide

theorem OpSize.bits_le (size : OpSize) : size.bits ≤ 64 := by cases size <;> decide

theorem OpSize.bits_lt {size : OpSize} (h : size ≠ .i64Bit) : size.bits < 64 := by
  cases size
  · decide
  · decide
  · decide
  · exact absurd rfl h

section Shifted

variable (host : Host) (r : Regs)

theorem run_shiftedOperand (tmp : Reg) {sh : ℕ} (hsh : sh < 64) (src : Operand) :
    run r (shiftedOperand host tmp sh src) = r.set tmp (src.value r <<< sh) := by
  cases src with
  | reg a => exact exec_sldi r tmp a hsh
  | inlineConstant c stale => exact run_loadImm64 r _ tmp (c <<< sh)

/-- The state after both operands of a narrow operation are in place. -/
theorem run_shiftedOperands {src1 src2 : Operand} (h2 : src2.Allocated) {sh : ℕ} (hsh : sh < 64) :
    run r (shiftedOperand host tmp1 sh src1 ++ shiftedOperand host tmp2 sh src2) =
      (r.set tmp1 (src1.value r <<< sh)).set tmp2 (src2.value r <<< sh) := by
  rw [run_append, run_shiftedOperand host r tmp1 hsh, run_shiftedOperand host _ tmp2 hsh,
    value_set h2 r (by decide)]

end Shifted

/-! ### Additions and subtractions -/

section AddSub

variable (host : Host) (r : Regs) {size : OpSize} {src1 src2 : Operand}

/-- At any size the sum is that of the operands shifted to the top. -/
theorem run_addWithFlags_top (size : OpSize) (dst : Reg) (h1 : Allocated a) (h2 : src2.Allocated) :
    (run r (addWithFlags host size dst (.reg a) src2)).flags =
        adcFlags (r.gpr a <<< (64 - size.bits)) (src2.value r <<< (64 - size.bits)) false ∧
      (run r (addWithFlags host size dst (.reg a) src2)).gpr dst =
        (r.gpr a + src2.value r) <<< (64 - size.bits) >>> (64 - size.bits) := by
  by_cases hs : size = .i64Bit
  · subst hs
    cases src2 with
    | reg b => simp [addWithFlags, OpSize.bits]
    | inlineConstant c stale =>
      simp [addWithFlags, OpSize.bits, loadConstant, run_append, run_loadImm64, h1.ne]
  · have hlt := OpSize.bits_lt hs
    have hpos := size.bits_pos
    have hcd : addWithFlags host size dst (.reg a) src2 =
        (shiftedOperand host tmp1 (64 - size.bits) (.reg a) ++
          shiftedOperand host tmp2 (64 - size.bits) src2) ++
          [addco_ tmp1 tmp1 tmp2, srdi dst tmp1 (64 - size.bits)] := if_pos hs
    rw [hcd, run_append, run_shiftedOperands host r h2 (by omega)]
    simp [exec_srdi _ _ _ (show 0 < 64 - size.bits by omega) (show 64 - size.bits < 64 by omega)]

theorem run_addNZCV_top (h1 : Allocated a) (h2 : src2.Allocated) :
    (run r (addNZCV host size (.reg a) src2)).flags =
      adcFlags (r.gpr a <<< (64 - size.bits)) (src2.value r <<< (64 - size.bits)) false := by
  by_cases hs : size = .i64Bit
  · subst hs
    have hcd : addNZCV host .i64Bit (.reg a) src2 =
        addWithFlags host .i64Bit tmp3 (.reg a) src2 := by cases src2 <;> rfl
    rw [hcd]
    exact (run_addWithFlags_top host r .i64Bit tmp3 h1 h2).1
  · have hpos := size.bits_pos
    have hcd : addNZCV host size (.reg a) src2 =
        (shiftedOperand host tmp1 (64 - size.bits) (.reg a) ++
          shiftedOperand host tmp2 (64 - size.bits) src2) ++ [addco_ tmp3 tmp1 tmp2] := if_pos hs
    rw [hcd, run_append, run_shiftedOperands host r h2 (by omega)]
    simp

/-- One of two operands is in a register. -/
def oneReg : Operand → Operand → Prop
  | inlineConstant _ _, inlineConstant _ _ => False
  | _, _ => True

theorem run_subWithFlags_top (size : OpSize) (dst : Reg) (h1 : src1.Allocated)
    (h2 : src2.Allocated) (hreg : oneReg src1 src2) :
    (run r (subWithFlags host size dst src1 src2)).flags =
        subFlags (src1.value r <<< (64 - size.bits)) (src2.value r <<< (64 - size.bits)) ∧
      (run r (subWithFlags host size dst src1 src2)).gpr dst =
        (src1.value r - src2.value r) <<< (64 - size.bits) >>> (64 - size.bits) := by
  by_cases hs : size = .i64Bit
  · subst hs
    cases src1 with
    | reg a =>
      cases src2 with
      | reg b => simp [subWithFlags, OpSize.bits]
      | inlineConstant c stale =>
        simp [subWithFlags, OpSize.bits, loadConstant, run_append, run_loadImm64, Allocated.ne h1]
    | inlineConstant c stale =>
      cases src2 with
      | reg b =>
        simp [subWithFlags, OpSize.bits, loadConstant, run_append, run_loadImm64, Allocated.ne h2]
      | inlineConstant c' stale' => exact hreg.elim
  · have hlt := OpSize.bits_lt hs
    have hpos := size.bits_pos
    have hsh : 64 - size.bits < 64 := by omega
    rw [← sub_shiftLeft]
    unfold subWithFlags
    rw [if_pos hs]
    cases src1 <;> cases src2 <;>
      simp [materialise, loadConstant, run_append, run_loadImm64, exec_sldi, exec_srdi _ _ _
        (show 0 < 64 - size.bits by omega) hsh, hsh, Allocated.ne h1, Allocated.ne h2]

theorem run_subNZCV_top (h1 : src1.Allocated) (h2 : src2.Allocated)
    (hreg : size = .i64Bit → oneReg src1 src2) :
    (run r (subNZCV host size src1 src2)).flags =
      subFlags (src1.value r <<< (64 - size.bits)) (src2.value r <<< (64 - size.bits)) := by
  by_cases hs : size = .i64Bit
  · have hone := hreg hs
    subst hs
    have hcd : subNZCV host .i64Bit src1 src2 = subWithFlags host .i64Bit tmp3 src1 src2 := by
      cases src1 <;> cases src2 <;> simp [subNZCV, subWithFlags]
    rw [hcd]
    exact (run_subWithFlags_top host r .i64Bit tmp3 h1 h2 hone).1
  · have hpos := size.bits_pos
    have hcd : subNZCV host size src1 src2 = (shiftedOperand host tmp1 (64 - size.bits) src1 ++
          shiftedOperand host tmp2 (64 - size.bits) src2) ++ [subfco_ tmp3 tmp2 tmp1] := if_pos hs
    rw [hcd, run_append, run_shiftedOperands host r h2 (by omega)]
    simp

/-- With two constants at 64 bits the register byte of the first one is read. -/
theorem run_subNZCV_stale (c c' : BitVec 64) {stale : Reg} (stale' : Reg) (h : Allocated stale) :
    (run r (subNZCV host .i64Bit (.inlineConstant c stale) (.inlineConstant c' stale'))).flags =
      subFlags (r.gpr stale) c' := by
  simp [subNZCV, loadConstant, run_append, run_loadImm64, h.ne]

end AddSub

/-! ### Masks -/

section Masks

variable {m : BitVec 64}

/-- A low run keeps the bits that `rldicl` keeps. -/
theorem rldicl_of_and_succ (h0 : m ≠ 0) (hne : m ≠ allOnes 64) (hand : m &&& (m + 1) = 0)
    (x : BitVec 64) : x.rotateLeft 0 &&& mask (64 - countrOne m) 63 = x &&& m := by
  have hne' : ~~~ m ≠ 0 := by
    intro hz
    apply hne
    rw [← not_not (b := m), hz]
    rfl
  have hbt : ∀ i, i < 64 → m.getLsbD i = decide (i < countrOne m) := by
    intro i hi
    exact getLsbD_of_and_succ hand hne' hi
  have hpos : 0 < countrOne m := by
    apply Nat.pos_of_ne_zero
    intro hz
    apply h0
    apply eq_of_getLsbD_eq
    intro i hi
    rw [hbt i hi, hz, decide_eq_false (Nat.not_lt_zero i)]
    exact getLsbD_zero.symm
  apply eq_of_getLsbD_eq
  intro i hi
  rw [getLsbD_and, getLsbD_and, getLsbD_mask (by omega) hi,
    getLsbD_rotateLeft _ (by decide) hi, hbt i hi, if_neg (Nat.not_lt_zero i), Nat.sub_zero]
  congr 1
  rw [decide_eq_decide]
  omega

/-- A run within the word keeps the bits that `rlwinm` keeps. -/
theorem rlwinm_of_isRun (hle : m.toNat ≤ 0xffffffff) (hrun : isRun (m.setWidth 32))
    (x : BitVec 64) :
    rotl32 x 0 &&& mask (31 - (31 - (m.setWidth 32).clz.toNat) + 32)
      (31 - (m.setWidth 32).ctz.toNat + 32) = x &&& m := by
  obtain ⟨h0, hsum⟩ : m.setWidth 32 ≠ 0 ∧ popcount (m.setWidth 32) + (m.setWidth 32).clz.toNat +
      (m.setWidth 32).ctz.toNat = 32 := by
    simpa [isRun] using hrun
  have hhg : ∀ i, 32 ≤ i → m.getLsbD i = false := by
    intro i hi
    rw [← testBit_toNat]
    exact Nat.testBit_lt_two_pow (hle.trans_lt
      (show 0xffffffff < 2 ^ 32 by decide) |>.trans_le (Nat.pow_le_pow_right Nat.zero_lt_two hi))
  have hlow : ∀ i, i < 32 → m.getLsbD i =
      decide ((m.setWidth 32).ctz.toNat ≤ i ∧ i < 32 - (m.setWidth 32).clz.toNat) := by
    intro i hi
    rw [← getLsbD_of_popcount hsum hi, getLsbD_setWidth, decide_eq_true hi, Bool.true_and]
  have hpos : 0 < popcount (m.setWidth 32) := by
    have hbit := getLsbD_true_ctz_of_ne_zero h0
    have hlt : (m.setWidth 32).ctz.toNat < 32 := lt_of_getLsbD hbit
    exact Finset.card_pos.2 ⟨_, Finset.mem_filter.2 ⟨Finset.mem_range.2 hlt, hbit⟩⟩
  apply eq_of_getLsbD_eq
  intro i hi
  rw [getLsbD_and, getLsbD_and, getLsbD_mask (by omega) hi]
  by_cases h32 : i < 32
  · rw [getLsbD_rotl32_zero x h32, hlow i h32]
    congr 1
    rw [decide_eq_decide]
    omega
  · rw [hhg i (by omega), decide_eq_false (by omega), Bool.and_false, Bool.and_false]

/-- What the record form of a mask computes, if it has one. -/
def AndMaskForm.recordValue (x : BitVec 64) : AndMaskForm → Option (BitVec 64)
  | clearLeft mb => some (x.rotateLeft 0 &&& mask mb 63)
  | word mb me => some (rotl32 x 0 &&& mask (mb + 32) (me + 32))
  | _ => Option.none

theorem classifyAndMask64_recordValue {allowWord : Bool} {y : BitVec 64}
    (h : (classifyAndMask64 m allowWord).recordValue x = some y) : y = x &&& m := by
  unfold classifyAndMask64 at h
  split_ifs at h with h0 h1 h2 h3 h4
  case pos => cases h
  case pos => cases h
  case pos => rw [← Option.some.inj h, rldicl_of_and_succ h0 h1 h2 x]
  case pos => cases h
  case pos => rw [← Option.some.inj h, rlwinm_of_isRun h4.2.1 h4.2.2 x]
  all_goals cases h

/-- At 32 bits the upper half of the mask is chosen freely. -/
theorem classifyAndMask_recordValue {size : OpSize} {y : BitVec 64}
    (h : (classifyAndMask m (size == .i32Bit)).recordValue x = some y) :
    y.setWidth size.bits = (x &&& m).setWidth size.bits := by
  have hnar : ∀ m', (x &&& m').setWidth 32 = (x &&& m).setWidth 32 → y = x &&& m' →
      y.setWidth 32 = (x &&& m).setWidth 32 := by
    rintro m' hm rfl
    exact hm
  cases size with
  | i32Bit =>
    have hcle : (x &&& (m &&& 0xffffffff)).setWidth 32 = (x &&& m).setWidth 32 := by
      rw [setWidth_and, setWidth_and, setWidth_and,
        show (0xffffffff : BitVec 64).setWidth 32 = allOnes 32 by decide, and_allOnes]
    have hkp : (x &&& (m ||| 0xffffffff00000000)).setWidth 32 = (x &&& m).setWidth 32 := by
      rw [setWidth_and, setWidth_and, setWidth_or,
        show (0xffffffff00000000 : BitVec 64).setWidth 32 = BitVec.ofNat 32 0 by decide,
        or_zero]
    unfold classifyAndMask at h
    rw [if_pos (by decide)] at h
    dsimp only at h
    split at h
    · exact hnar _ hkp (classifyAndMask64_recordValue h)
    · exact hnar _ hcle (classifyAndMask64_recordValue h)
  | i8Bit | i16Bit | i64Bit =>
    unfold classifyAndMask at h
    rw [if_neg (by decide)] at h
    rw [classifyAndMask64_recordValue h]

end Masks

/-! ### Logical operations -/

variable {c : BitVec 64}

section Logic

variable (host : Host) (r : Regs)

/-- The code put a value into a register, compared it with zero and changed no other register but
one temporary. -/
structure Records (dst : Reg) (x : BitVec 64) (r r' : Regs) : Prop where
  value : r'.gpr dst = x
  gpr : ∀ a, a ≠ dst → a ≠ tmp4 → r'.gpr a = r.gpr a
  flags : r'.flags = { r.flags with n := x.msb, z := x == 0 }

theorem records_result (dst : Reg) (x : BitVec 64) : Records dst x r (r.result true dst x) := by
  constructor
  · rw [gpr_result, if_pos rfl]
  · intro a ha _
    rw [gpr_result, if_neg ha]
  · rw [flags_result, if_pos rfl]

/-- A constant within a mask has no bit outside it. -/
theorem getLsbD_of_and_mask {mb me : ℕ} (hle : mb ≤ me) (h : c &&& mask mb me = c) {i : ℕ}
    (hi : i < 64) (hout : ¬ (63 - me ≤ i ∧ i + mb < 64)) : c.getLsbD i = false := by
  rw [← h, getLsbD_and, getLsbD_mask hle hi, decide_eq_false hout, Bool.and_false]

theorem low_half_eq (h : c &&& 0xffff = c) : (c.setWidth 16).setWidth 64 = c := by
  rw [show (0xffff : BitVec 64) = mask 48 63 by decide] at h
  apply eq_of_getLsbD_eq
  intro i hi
  by_cases h16 : i < 16
  · simp [hi, h16]
  · rw [getLsbD_of_and_mask (by decide) h hi (by omega)]
    simp [h16]

theorem high_half_eq (h : c &&& 0xffff0000 = c) :
    ((c >>> 16).setWidth 16).setWidth 64 <<< 16 = c := by
  rw [show (0xffff0000 : BitVec 64) = mask 32 47 by decide] at h
  apply eq_of_getLsbD_eq
  intro i hi
  rw [getLsbD_shiftLeft, getLsbD_setWidth, getLsbD_setWidth, getLsbD_ushiftRight]
  by_cases hin : 16 ≤ i ∧ i < 32
  · simp [hi, show ¬ i < 16 by omega, show i - 16 < 64 by omega, show i - 16 < 16 by omega,
      show 16 + (i - 16) = i by omega]
  · rw [getLsbD_of_and_mask (by decide) h hi (by omega)]
    by_cases h16 : i < 16
    · simp [h16]
    · simp [show ¬ i - 16 < 16 by omega]

/-- The masking instruction leaves the masked value, at least in the bits of the operand size. -/
theorem records_emitAndRc (size : OpSize) (dst : Reg) {s1 : Reg} (h1 : Allocated s1)
    (src2 : Operand) :
    ∃ x, Records dst x r (run r (emitAndRc host size dst s1 src2)) ∧
      x.setWidth size.bits = (r.gpr s1 &&& src2.value r).setWidth size.bits := by
  cases src2 with
  | reg b => exact ⟨_, records_result r dst _, rfl⟩
  | inlineConstant c stale =>
    rw [emitAndRc, value_inlineConstant]
    split
    · next hc =>
      refine ⟨_, records_result r dst _, ?_⟩
      rw [low_half_eq hc]
    · split
      · next hc =>
        refine ⟨_, records_result r dst _, ?_⟩
        rw [high_half_eq hc.2]
      · split
        · next is hms =>
          unfold emitAndMaskRc at hms
          split at hms
          · cases hms
          · split at hms
            case h_3 => cases hms
            all_goals
              rename_i hfr
              obtain rfl := Option.some.inj hms
              refine ⟨_, records_result r dst _, ?_⟩
              exact classifyAndMask_recordValue (by rw [hfr]; rfl)
        · refine ⟨r.gpr s1 &&& c, ?_, rfl⟩
          rw [run_append, loadConstant, run_loadImm64]
          have hrec := records_result (r.set tmp4 c) dst (r.gpr s1 &&& c)
          have hex : run (r.set tmp4 c) [Alu.logic .and true dst s1 tmp4] =
              (r.set tmp4 c).result true dst (r.gpr s1 &&& c) := by
            simp [Alu.exec, LogicOp.eval, h1.ne]
          rw [hex]
          refine ⟨hrec.value, ?_, hrec.flags⟩
          intro a ha ha4
          rw [hrec.gpr a ha ha4, gpr_set, if_neg ha4]

theorem signExtend_beq_zero {w : ℕ} (hw : w ≤ 64) (x : BitVec w) :
    (x.signExtend 64 == 0) = (x == 0) := by
  rw [Bool.eq_iff_iff, beq_iff_eq, beq_iff_eq, ← toInt_inj, ← toInt_inj, toInt_signExtend_of_le hw]
  rw [show (0 : BitVec 64).toInt = 0 by decide, show (0 : BitVec w).toInt = 0 by
    exact toInt_zero]

theorem msb_signExtend {w : ℕ} (hw : w ≤ 64) (x : BitVec w) : (x.signExtend 64).msb = x.msb := by
  rw [msb_eq_toInt, msb_eq_toInt, toInt_signExtend_of_le hw]

/-- Below 64 bits the test looks at the operand size. -/
theorem sets_emitTestNZSetCR (result : Reg) {size : OpSize} (hs : size ≠ .i64Bit) :
    Sets tmp1 { r.flags with
        n := ((r.gpr result).setWidth size.bits).msb
        z := (r.gpr result).setWidth size.bits == 0 }
      r (run r (emitTestNZSetCR result size)) := by
  have hex : run r (emitTestNZSetCR result size) =
      (Alu.exts size.bits true tmp1 result).exec r := by
    cases size
    · rfl
    · rfl
    · rfl
    · exact absurd rfl hs
  rw [hex, Alu.exec]
  constructor
  · intro a ha
    rw [gpr_result, if_neg ha]
  · rw [flags_result, if_pos rfl, msb_signExtend size.bits_le, signExtend_beq_zero size.bits_le]

/-- The common part of `TestNZ` and `AndWithFlags`: the flags are those of the masked operand-size
value, and the register holds it in its low bits. -/
theorem run_andRefined (size : OpSize) {dst : Reg} (hd : dst ≠ tmp1) (hd0 : 0 ≠ dst)
    (h1 : Allocated a) (h0 : r.gpr 0 = 0) (src2 : Operand) :
    ∃ r', run r (emitAndRc host size dst a src2 ++ [addco tmp1 0 0] ++
        if size ≠ .i64Bit then emitTestNZSetCR dst size else []) = r' ∧
      r'.flags = logicFlags ((r.gpr a).setWidth size.bits &&& (src2.value r).setWidth size.bits) ∧
      (r'.gpr dst).setWidth size.bits =
        (r.gpr a).setWidth size.bits &&& (src2.value r).setWidth size.bits := by
  obtain ⟨x, hrec, hx⟩ := records_emitAndRc host r size dst h1 src2
  have hzr := (hrec.gpr 0 hd0 (by decide)).trans h0
  refine ⟨_, rfl, ?_⟩
  rw [run_append, run_append, ← setWidth_and, ← hx]
  set r₁ := run r (emitAndRc host size dst a src2)
  have hcle : (run r₁ [addco tmp1 0 0]).flags = logicFlags x := by
    simp [hrec.flags, hzr]
    rfl
  have hval : (run r₁ [addco tmp1 0 0]).gpr dst = x := by
    rw [run_cons, run_nil, addco, gpr_exec_xo, if_neg hd, hrec.value]
  by_cases hs : size = .i64Bit
  · subst hs
    rw [if_neg (not_not.2 rfl), run_nil, hcle, hval]
    change logicFlags x = logicFlags (x.setWidth 64) ∧ _
    rw [setWidth_eq]
    exact ⟨rfl, rfl⟩
  · have hset := sets_emitTestNZSetCR (run r₁ [addco tmp1 0 0]) dst hs
    rw [if_pos hs, hset.flags, hset.gpr dst hd, hcle, hval]
    exact ⟨rfl, rfl⟩

theorem run_testNZ (size : OpSize) (h1 : Allocated a) (h0 : r.gpr 0 = 0) (src2 : Operand) :
    (run r (testNZ host size (.reg a) src2)).flags =
      logicFlags ((r.gpr a).setWidth size.bits &&& (src2.value r).setWidth size.bits) := by
  obtain ⟨r', hrun, hfla, -⟩ := run_andRefined host r size (show tmp3 ≠ tmp1 by decide)
    (by decide) h1 h0 src2
  rw [testNZ, getReg_reg, hrun, hfla]

theorem run_andWithFlags (size : OpSize) {dst : Reg} (hd : Allocated dst) (h1 : Allocated a)
    (h0 : r.gpr 0 = 0) (src2 : Operand) :
    (run r (andWithFlags host size dst (.reg a) src2)).flags =
        logicFlags ((r.gpr a).setWidth size.bits &&& (src2.value r).setWidth size.bits) ∧
      (run r (andWithFlags host size dst (.reg a) src2)).gpr dst =
        ((r.gpr a).setWidth size.bits &&& (src2.value r).setWidth size.bits).setWidth 64 := by
  obtain ⟨r', hrun, hfla, hval⟩ := run_andRefined host r size
    (hd.ne (by decide)) (hd.ne (by decide)).symm h1 h0 src2
  rw [andWithFlags.eq_def, getReg_reg, run_append, hrun, ← hfla, ← hval]
  cases size
  case i64Bit =>
    refine ⟨rfl, ?_⟩
    exact (setWidth_eq (r'.gpr dst)).symm
  all_goals simp [exec_clrldi, OpSize.bits]

end Logic

end FastPPC.Jit
