import FastPPC.Jit.Vector

/-!
# From doubles to extended precision

`DEF_OP(F80CVTTo)` builds the 80-bit encoding of a double from its bits.

* `f80CVTTo` : the lowering, with its forward branches as cases;
* `f64Value`, `f80Value` : the numbers that the two formats encode;
* `f80CVTTo_exact` : **the conversion is exact** for every double.
-/

namespace FastPPC.Jit

open Ppc BitVec

/-! ### The lowering -/

/-- Take the double apart: its sign for the result, its exponent and its fraction. -/
def unpack (src : Fin 64) : List VecInstr :=
  [.vsldoi8 vtmp1 src src, .mfvsrd tmp1 vtmp1, .alu (srdi tmp2 tmp1 63),
    .alu (sldi tmp2 tmp2 15), rldicl tmp3 tmp1 12 53, .alu (clrldi tmp4 tmp1 12)]

/-- The cases of the exponent.  All branches go forward, on the equality bit of field 1. -/
def convert (s : VecState) : VecState :=
  let s := s.run [.alu (.cmpdi 1 tmp3 0)]
  if s.regs.crBit 6 then
    let s := s.run [.alu (.cmpdi 1 tmp4 0)]
    if s.regs.crBit 6 then s
    else s.run [.cntlzd tmp3 tmp4, .sld tmp4 tmp4 tmp3, .alu (li tmp1 15372),
      .alu (subf tmp3 tmp3 tmp1), or_ tmp2 tmp2 tmp3]
  else
    let s := s.run [.alu (.cmpdi 1 tmp3 0x7ff)]
    let s :=
      if s.regs.crBit 6 then s.run [.alu (li tmp3 0x7fff)]
      else s.run [.alu (.addi tmp3 tmp3 (16383 - 1023))]
    s.run [.alu (sldi tmp4 tmp4 11), .alu (li tmp1 1), .alu (sldi tmp1 tmp1 63),
      or_ tmp4 tmp4 tmp1, or_ tmp2 tmp2 tmp3]

/-- `DEF_OP(F80CVTTo)`, or nothing for what the fallback converts; `u` is what the machine leaves
undefined. -/
def f80CVTTo (srcSize : OpSize) (x87ReducedPrecision : Bool) (dst src : Fin 64) (u : ℕ → BitVec 64)
    (s : VecState) : Option VecState :=
  if srcSize ≠ .i64Bit ∨ !x87ReducedPrecision then none
  else (convert (s.run (unpack src))).run
    [.mtvsrd vtmp1 tmp2 (u 0), .mtvsrd vtmp2 tmp4 (u 1), .xxpermdi dst vtmp1 vtmp2 0b00]

/-! ### What they compute -/

def sign (x : BitVec 64) : BitVec 64 := x >>> 63 <<< 15

def exponent (x : BitVec 64) : BitVec 64 := x.rotateLeft 12 &&& mask 53 63

def fraction (x : BitVec 64) : BitVec 64 := (x.setWidth 52).setWidth 64

/-- The sign and exponent, and the mantissa. -/
def extended (sign e f : BitVec 64) : BitVec 64 × BitVec 64 :=
  if e = 0 then
    if f = 0 then (sign, f) else (sign ||| (15372 - f.clz), f <<< (f.clz.toNat % 128))
  else (sign ||| if e = 0x7ff then 0x7fff else e + 15360, f <<< 11 ||| 1#64 <<< 63)

/-- `XER` and condition field 0, where the flags of the guest live. -/
def hostFlags (r : Regs) : BitVec 64 × BitVec 32 := (r.xer, r.cr >>> 28)

section

variable (r : Regs) (rt ra rb : Reg) (si : BitVec 16)

@[simp] theorem hostFlags_set (v : BitVec 64) : hostFlags (r.set rt v) = hostFlags r := rfl

@[simp] theorem gpr_cmpdi : ((Alu.cmpdi 1 ra si).exec r).gpr = r.gpr := rfl

@[simp]
theorem crBit_cmpdi :
    ((Alu.cmpdi 1 ra si).exec r).crBit 6 = decide (r.gpr ra = si.signExtend 64) := by
  have hsi := toInt_signExtend_of_le (x := si) (show 16 ≤ 64 by decide)
  simp [Alu.exec, Regs.compare, Regs.setCrField, Regs.crBit_setCrBit, ← toInt_inj, hsi]

@[simp]
theorem hostFlags_cmpdi : hostFlags ((Alu.cmpdi 1 ra si).exec r) = hostFlags r := by
  refine Prod.ext rfl (eq_of_getLsbD_eq fun i hi => ?_)
  simp only [hostFlags, Alu.exec, Regs.compare, Regs.setCrField, Regs.setCrBit, getLsbD_ushiftRight]
  by_cases h : i < 4
  · repeat rw [getLsbD_putBit _ _ _ _ (by omega), if_neg (by simp; omega)]
  · rw [getLsbD_of_ge _ _ (by omega), getLsbD_of_ge _ _ (by omega)]

theorem exec_rldicl (sh mb : ℕ) : (Alu.rldicl false rt ra sh mb).exec r =
    r.set rt ((r.gpr ra).rotateLeft sh &&& mask mb 63) := rfl

theorem exec_addi (hra : ra ≠ 0) :
    (Alu.addi rt ra si).exec r = r.set rt (r.gpr ra + si.signExtend 64) := by
  rw [Alu.exec, Regs.base, if_neg hra]

theorem exec_subf :
    (Alu.xo .subf false false rt ra rb).exec r = r.set rt (r.gpr rb - r.gpr ra) := by
  rw [← addCarry_not]
  rfl

end

attribute [local simp] VecState.run VecState.exec VecState.set VecState.setVs rldicl or_ exec_rldicl
  exec_srdi exec_sldi exec_clrldi exec_li exec_addi exec_subf exec_logic LogicOp.eval

theorem unpack_spec (src : Fin 64) (s : VecState) :
    let r := (s.run (unpack src)).regs
    r.gpr tmp2 = sign (s.vs src).2 ∧ r.gpr tmp3 = exponent (s.vs src).2 ∧
      r.gpr tmp4 = fraction (s.vs src).2 ∧ hostFlags r = hostFlags s.regs := by
  simp [unpack, sign, exponent, fraction]

theorem convert_spec (s : VecState) : ((convert s).regs.gpr tmp2, (convert s).regs.gpr tmp4) =
      extended (s.regs.gpr tmp2) (s.regs.gpr tmp3) (s.regs.gpr tmp4) ∧
      hostFlags (convert s).regs = hostFlags s.regs := by
  by_cases he : s.regs.gpr 5 = 0#64
  · by_cases hf : s.regs.gpr 6 = 0#64 <;> simp [convert, extended, he, hf]
  · by_cases hm : s.regs.gpr 5 = 2047#64 <;> simp [convert, extended, he, hm]

/-! ### The numbers -/

inductive Magnitude
  /-- In units of `2 ^ -16445`, the least positive extended number. -/
  | finite (m : ℕ)
  | infinite
  /-- The fraction, in units of `2 ^ -63`. -/
  | nan (payload : ℕ)
  deriving DecidableEq

def f64Magnitude (e f : ℕ) : Magnitude :=
  if e < 2047 then .finite ((if e = 0 then f else 2 ^ 52 + f) * 2 ^ (max e 1 + 15370))
  else if f = 0 then .infinite else .nan (f * 2 ^ 11)

def f64Value (x : BitVec 64) : Bool × Magnitude :=
  (x.msb, f64Magnitude (x.toNat / 2 ^ 52 % 2 ^ 11) (x.toNat % 2 ^ 52))

/-- An exponent other than zero needs the integer bit. -/
def f80Magnitude (e m : ℕ) : Option Magnitude :=
  if m < 2 ^ 63 then if e = 0 then some (.finite m) else none
  else if e < 32767 then some (.finite (m * 2 ^ (e - 1)))
  else if m = 2 ^ 63 then some .infinite else some (.nan (m - 2 ^ 63))

def f80Value (y : BitVec 64 × BitVec 64) : Option (Bool × Magnitude) :=
  (f80Magnitude (y.1.toNat % 2 ^ 15) y.2.toNat).map (y.1.getLsbD 15, ·)

theorem exponent_toNat (x : BitVec 64) : (exponent x).toNat = x.toNat / 2 ^ 52 % 2 ^ 11 := by
  have h : exponent x = ((x >>> 52).setWidth 11).setWidth 64 := by
    apply eq_of_getLsbD_eq
    intro i hi
    rw [exponent, getLsbD_and, getLsbD_mask (by decide) hi, getLsbD_rotateLeft x (by decide) hi]
    by_cases h : i < 11
    · simp [h, hi, show i < 12 by omega, show i + 53 < 64 by omega]
    · simp [h, show ¬ i + 53 < 64 by omega]
  simp [h]
  omega

theorem fraction_toNat (x : BitVec 64) : (fraction x).toNat = x.toNat % 2 ^ 52 := by
  simp [fraction]
  omega

theorem toNat_sign_or {x y : BitVec 64} (hy : y.toNat < 2 ^ 15) :
    (sign x ||| y).toNat = 2 ^ 15 * (x.toNat / 2 ^ 63) + y.toNat := by
  have hs : (sign x).toNat = 2 ^ 15 * (x.toNat / 2 ^ 63) := by
    simp [sign]
    omega
  rw [toNat_or, hs, Nat.two_pow_add_eq_or_of_lt hy]

/-- The leading bit of a fraction moves to the top. -/
theorem shiftLeft_clz {f : BitVec 64} (hf : f ≠ 0) (hlt : f.toNat < 2 ^ 52) :
    12 ≤ f.clz.toNat ∧ f.clz.toNat < 64 ∧ f.toNat * 2 ^ f.clz.toNat < 2 ^ 64 ∧
      2 ^ 63 ≤ f.toNat * 2 ^ f.clz.toNat := by
  have h64 : f.clz.toNat < 64 := clz_lt_iff_ne_zero.mpr hf
  have hlow : 2 ^ (63 - f.clz.toNat) ≤ f.toNat :=
    two_pow_sub_clz_le_toNat_of_ne_zero (by decide) hf
  have hup : f.toNat < 2 ^ (64 - f.clz.toNat) := toNat_lt_two_pow_sub_clz
  have h12 : 63 - f.clz.toNat < 52 :=
    (Nat.pow_lt_pow_iff_right Nat.one_lt_two).mp (hlow.trans_lt hlt)
  refine ⟨by omega, h64, ?_, ?_⟩
  · calc f.toNat * 2 ^ f.clz.toNat < 2 ^ (64 - f.clz.toNat) * 2 ^ f.clz.toNat :=
          Nat.mul_lt_mul_of_pos_right hup (Nat.two_pow_pos _)
      _ = 2 ^ 64 := by rw [← Nat.pow_add, Nat.sub_add_cancel h64.le]
  · calc 2 ^ 63 = 2 ^ (63 - f.clz.toNat) * 2 ^ f.clz.toNat := by
          rw [← Nat.pow_add, Nat.sub_add_cancel (by omega)]
      _ ≤ f.toNat * 2 ^ f.clz.toNat := Nat.mul_le_mul_right _ hlow

section

variable (x : BitVec 64) {e f : BitVec 64}

/-- `y` has the sign of `x`, the magnitude of a double with these fields, and a leading bit. -/
def Encodes (e f : ℕ) (y : BitVec 64 × BitVec 64) : Prop :=
  ∃ k < 2 ^ 15, y.1.toNat = 2 ^ 15 * (x.toNat / 2 ^ 63) + k ∧
    f80Magnitude k y.2.toNat = some (f64Magnitude e f) ∧ (y.2 = 0 ∨ 2 ^ 63 ≤ y.2.toNat)

theorem encodes_zero : Encodes x 0 0 (sign x, 0) := by
  refine ⟨0, by decide, ?_, ?_, .inl rfl⟩
  · simpa using toNat_sign_or (x := x) (y := 0) (by decide)
  · rw [f64Magnitude, if_pos (by decide), if_pos rfl, Nat.zero_mul]
    rfl

theorem encodes_subnormal (hf : f ≠ 0) (hlt : f.toNat < 2 ^ 52) :
    Encodes x 0 f.toNat (sign x ||| (15372 - f.clz), f <<< (f.clz.toNat % 128)) := by
  obtain ⟨hge, h64, hm, hm'⟩ := shiftLeft_clz hf hlt
  have hk : (15372 - f.clz).toNat = 15372 - f.clz.toNat := by
    rw [toNat_sub_of_le (by rw [le_def]; simp; omega)]
    rfl
  have hy : (f <<< (f.clz.toNat % 128)).toNat = f.toNat * 2 ^ f.clz.toNat := by
    rw [Nat.mod_eq_of_lt (by omega), toNat_shiftLeft, Nat.shiftLeft_eq, Nat.mod_eq_of_lt hm]
  refine ⟨15372 - f.clz.toNat, by omega, ?_, ?_, .inr (hy ▸ hm')⟩
  · rw [toNat_sign_or (by omega), hk]
  · rw [hy, f80Magnitude, if_neg (by omega), if_pos (by omega), f64Magnitude, if_pos (by decide),
      if_pos rfl, Nat.mul_assoc, ← Nat.pow_add,
      show f.clz.toNat + (15372 - f.clz.toNat - 1) = max 0 1 + 15370 by omega]

/-- The integer bit beside the fraction. -/
theorem toNat_mantissa (hf : f.toNat < 2 ^ 52) :
    (f <<< 11 ||| 1#64 <<< 63).toNat = 2 ^ 63 + f.toNat * 2 ^ 11 := by
  have h11 : (f <<< 11).toNat = f.toNat * 2 ^ 11 := by
    rw [BitVec.toNat_shiftLeft, Nat.shiftLeft_eq, Nat.mod_eq_of_lt (by omega)]
  rw [BitVec.or_comm, BitVec.toNat_or, h11]
  exact (Nat.two_pow_add_eq_or_of_lt (i := 63) (by omega) 1).symm

theorem encodes_special (hf : f.toNat < 2 ^ 52) :
    Encodes x 2047 f.toNat (sign x ||| 0x7fff, f <<< 11 ||| 1#64 <<< 63) := by
  have hy := toNat_mantissa hf
  refine ⟨32767, by decide, toNat_sign_or (by decide), ?_, .inr (by rw [hy]; omega)⟩
  rw [f64Magnitude, if_neg (by decide), hy, f80Magnitude, if_neg (by omega), if_neg (by decide)]
  by_cases hf0 : f.toNat = 0
  · rw [if_pos (by omega), if_pos hf0]
  · rw [if_neg (by omega), if_neg hf0, Nat.add_sub_cancel_left]

theorem encodes_normal (he : e.toNat ≠ 0) (hlt : e.toNat < 2047) (hf : f.toNat < 2 ^ 52) :
    Encodes x e.toNat f.toNat (sign x ||| (e + 15360), f <<< 11 ||| 1#64 <<< 63) := by
  have hy := toNat_mantissa hf
  have hk : (e + 15360).toNat = e.toNat + 15360 := by
    rw [toNat_add_of_lt (by simp; omega)]
    rfl
  refine ⟨e.toNat + 15360, by omega, ?_, ?_, .inr (by rw [hy]; omega)⟩
  · rw [toNat_sign_or (by omega), hk]
  · rw [hy, f80Magnitude, if_neg (by omega), if_pos (by omega), f64Magnitude, if_pos hlt,
      if_neg he, show max e.toNat 1 + 15370 = 11 + (e.toNat + 15360 - 1) by omega, Nat.pow_add,
      ← Nat.mul_assoc, Nat.add_mul _ _ (2 ^ 11), ← Nat.pow_add 2 52 11]

theorem encodes_extended (hlt : e.toNat < 2 ^ 11) (hf : f.toNat < 2 ^ 52) :
    Encodes x e.toNat f.toNat (extended (sign x) e f) := by
  unfold extended
  split_ifs with he hf0 hinf
  · subst he hf0
    exact encodes_zero x
  · subst he
    exact encodes_subnormal x hf0 hf
  · subst hinf
    exact encodes_special x hf
  · rw [← toNat_inj] at he hinf
    exact encodes_normal x he (by simp at hinf; omega) hf

end

/-- Of two representations of a number the one with the greater exponent has its leading bit. -/
theorem scaled_inj {a b m n : ℕ} (hab : a ≤ b) (hm : m < 2 ^ 53) (hn : b = 1 ∨ 2 ^ 52 ≤ n)
    (ha : 1 ≤ a) (h : m * 2 ^ a = n * 2 ^ b) : a = b ∧ m = n := by
  obtain ⟨k, rfl⟩ := Nat.exists_eq_add_of_le hab
  rw [Nat.add_comm a k, Nat.pow_add, ← Nat.mul_assoc] at h
  have hmn : m = n * 2 ^ k := Nat.eq_of_mul_eq_mul_right (Nat.two_pow_pos a) h
  cases k with
  | zero => simpa using hmn
  | succ k =>
    have hk : n * 2 ≤ n * 2 ^ (k + 1) := Nat.mul_le_mul_left n (Nat.le_self_pow k.succ_ne_zero 2)
    omega

/-- The magnitude of a double determines its fields. -/
theorem f64Magnitude_inj {e f e' f' : ℕ} (he : e < 2 ^ 11) (he' : e' < 2 ^ 11) (hf : f < 2 ^ 52)
    (hf' : f' < 2 ^ 52) (h : f64Magnitude e f = f64Magnitude e' f') : e = e' ∧ f = f' := by
  unfold f64Magnitude at h
  by_cases hlt : e < 2047 <;> by_cases hlt' : e' < 2047
  · simp only [if_pos hlt, if_pos hlt', Magnitude.finite.injEq, Nat.pow_add, ← Nat.mul_assoc] at h
    have h := Nat.eq_of_mul_eq_mul_right (Nat.two_pow_pos _) h
    rcases Nat.le_total (max e 1) (max e' 1) with hle | hle
    · have := scaled_inj hle (by split_ifs <;> omega) (by split_ifs <;> omega) (by omega) h
      split_ifs at this <;> omega
    · have := scaled_inj hle (by split_ifs <;> omega) (by split_ifs <;> omega) (by omega) h.symm
      split_ifs at this <;> omega
  all_goals split_ifs at h <;> simp at h <;> omega

theorem f64Value_injective : Function.Injective f64Value := by
  intro x y h
  obtain ⟨hs, hm⟩ := Prod.mk.inj h
  have hef := f64Magnitude_inj (Nat.mod_lt _ (by decide)) (Nat.mod_lt _ (by decide))
    (Nat.mod_lt _ (by decide)) (Nat.mod_lt _ (by decide)) hm
  have hs' : 2 ^ 63 ≤ x.toNat ↔ 2 ^ 63 ≤ y.toNat := by
    simpa [msb_eq_decide] using hs
  exact eq_of_toNat_eq (by omega)

theorem Encodes.value {x : BitVec 64} {y : BitVec 64 × BitVec 64}
    (h : Encodes x (x.toNat / 2 ^ 52 % 2 ^ 11) (x.toNat % 2 ^ 52) y) :
    f80Value y = some (f64Value x) := by
  obtain ⟨k, hk, hy, hm, -⟩ := h
  have hs : y.1.getLsbD 15 = x.msb := by
    rw [msb_eq_decide, getLsbD, Nat.testBit_eq_decide_div_mod_eq, hy]
    simp
    omega
  rw [f80Value, hs, hy, Nat.mul_add_mod, Nat.mod_eq_of_lt hk, hm]
  rfl

theorem f80CVTTo_encodes (dst src : Fin 64) (u : ℕ → BitVec 64) (s : VecState) :
    ∃ s', f80CVTTo .i64Bit true dst src u s = some s' ∧
      Encodes (s.vs src).2 ((s.vs src).2.toNat / 2 ^ 52 % 2 ^ 11) ((s.vs src).2.toNat % 2 ^ 52)
        (s'.vs dst) ∧
      hostFlags s'.regs = hostFlags s.regs := by
  obtain ⟨hs, he, hf, hfl⟩ := unpack_spec src s
  obtain ⟨hc, hfl'⟩ := convert_spec (s.run (unpack src))
  refine ⟨_, if_neg (by decide), ?_, hfl'.trans hfl⟩
  rw [hs, he, hf] at hc
  rw [← exponent_toNat, ← fraction_toNat]
  have hy := encodes_extended (s.vs src).2 (e := exponent (s.vs src).2) (f := fraction (s.vs src).2)
    (by rw [exponent_toNat]; omega) (by rw [fraction_toNat]; omega)
  rw [← hc] at hy
  simpa using hy

/-- **The conversion is exact**: the value is the same, with every bit of the payload; the mantissa
has its leading bit, the upper bytes are zero and the flags are kept. -/
theorem f80CVTTo_exact (dst src : Fin 64) (u : ℕ → BitVec 64) (s : VecState) :
    ∃ s', f80CVTTo .i64Bit true dst src u s = some s' ∧
      f80Value (s'.vs dst) = some (f64Value (s.vs src).2) ∧
      ((s'.vs dst).2 = 0 ∨ (s'.vs dst).2.msb) ∧ (s'.vs dst).1.toNat < 2 ^ 16 ∧
      (∀ t t', f80CVTTo .i64Bit true dst src u t = some t' → t'.vs dst = s'.vs dst →
        (t.vs src).2 = (s.vs src).2) ∧
      hostFlags s'.regs = hostFlags s.regs := by
  obtain ⟨s', hs, hy, hfl⟩ := f80CVTTo_encodes dst src u s
  have hval := hy.value
  obtain ⟨k, hk, hhi, -, hmsb⟩ := hy
  refine ⟨s', hs, hval, ?_, by omega, ?_, hfl⟩
  · simpa [msb_eq_decide] using hmsb
  · intro t t' ht heq
    obtain ⟨_, ht', hy', -⟩ := f80CVTTo_encodes dst src u t
    obtain rfl := Option.some.inj (ht'.symm.trans ht)
    refine f64Value_injective (Option.some.inj ?_)
    rw [← hy'.value, ← hval, heq]

end FastPPC.Jit
