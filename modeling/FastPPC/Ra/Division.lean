import Mathlib

/-!
# Division on the host

The divide instructions of the host leave an undefined number for a zero divisor and for a quotient
that does not fit; `Undefined` supplies these numbers.  `DEF_OP(Div)` and `DEF_OP(UDiv)` of
`ALUOps.cpp` divide a dividend of two registers by a sequence of such instructions.

* `divide32_long`, `divide32_short` : **a dividend that is the extension of its lower half** is
  divided as the lower half alone would be, at 32 bits, where the long form is one 64-bit division;
* `long64_zero`, `divide32_long_zero` : a division by zero can leave any quotient, and leaves the
  lower half as remainder.
-/

namespace FastPPC.Ra

open BitVec hiding mul_zero sub_zero

/-- The results that the architecture leaves undefined. -/
structure Undefined where
  divd : BitVec 64 → BitVec 64 → BitVec 64
  divdu : BitVec 64 → BitVec 64 → BitVec 64
  divdeu : BitVec 64 → BitVec 64 → BitVec 64
  divw : BitVec 32 → BitVec 32 → BitVec 32
  divwu : BitVec 32 → BitVec 32 → BitVec 32

/-- The signed quotient does not fit. -/
def Overflows {w : ℕ} (a b : BitVec w) : Prop := a = BitVec.intMin w ∧ b = -1

instance {w : ℕ} (a b : BitVec w) : Decidable (Overflows a b) :=
  inferInstanceAs (Decidable (_ ∧ _))

namespace Undefined

variable (u : Undefined)

def divdOf (a b : BitVec 64) : BitVec 64 :=
  if b = 0 ∨ Overflows a b then u.divd a b else a.sdiv b

def divwOf (a b : BitVec 32) : BitVec 32 :=
  if b = 0 ∨ Overflows a b then u.divw a b else a.sdiv b

def divduOf (a b : BitVec 64) : BitVec 64 := if b = 0 then u.divdu a b else a / b

def divwuOf (a b : BitVec 32) : BitVec 32 := if b = 0 then u.divwu a b else a / b

/-- `divdeu` : the quotient of `a * 2 ^ 64`. -/
def divdeuOf (a b : BitVec 64) : BitVec 64 :=
  if b ≤ a then u.divdeu a b else BitVec.ofNat 64 (a.toNat * 2 ^ 64 / b.toNat)

/-- The signed division of `upper:lower`, as quotient and remainder. -/
def longSigned (upper lower divisor : BitVec 64) : BitVec 64 × BitVec 64 :=
  let dividendSign := upper.sshiftRight 63
  let divisorSign := divisor.sshiftRight 63
  let quotientSign := dividendSign ^^^ divisorSign
  let absDivisor := (divisor ^^^ divisorSign) - divisorSign
  -- two-word negation: the carry out of the lower word is set if that is zero
  let absUpper := if upper.slt 0 then -upper - 1 + (if lower = 0 then 1 else 0) else upper
  let absLower := if upper.slt 0 then -lower else lower
  let tentative := u.divdeuOf absUpper absDivisor + u.divduOf absLower absDivisor
  let rem := absLower - tentative * absDivisor
  let quotient := if rem < absDivisor then tentative else tentative + 1
  let rem := if rem < absDivisor then rem else rem - absDivisor
  ((quotient ^^^ quotientSign) - quotientSign, (rem ^^^ dividendSign) - dividendSign)

/-- The unsigned division of `upper:lower`, with the remainder as a 128-bit number. -/
def longUnsigned (upper lower divisor : BitVec 64) : BitVec 64 × BitVec 64 :=
  let tentative := u.divdeuOf upper divisor + u.divduOf lower divisor
  let prodLow := tentative * divisor
  let prodHigh := BitVec.ofNat 64 (tentative.toNat * divisor.toNat / 2 ^ 64)
  let remLow := lower - prodLow
  let remHigh := upper - prodHigh - (if lower < prodLow then 1 else 0)
  if remHigh ≠ 0 ∨ ¬remLow < divisor then (tentative + 1, remLow - divisor) else (tentative, remLow)

end Undefined

/-- Copies of the sign. -/
def signFill {w : ℕ} (x : BitVec w) : BitVec w := if x.msb then BitVec.allOnes w else 0

/-- What the upper half of an extended number is. -/
def extension {w : ℕ} (signed : Bool) (x : BitVec w) : BitVec w := if signed then signFill x else 0

/-- The quotient, where it is defined. -/
def exactQuotient {w : ℕ} (signed : Bool) (a b : BitVec w) : BitVec w :=
  if signed then a.sdiv b else a / b

def low32 (x : BitVec 64) : BitVec 64 := (x.setWidth 32).setWidth 64

namespace Undefined

variable (u : Undefined) (signed : Bool)

/-- 64 bits with an upper half. -/
def long64 (upper lower divisor : BitVec 64) : BitVec 64 × BitVec 64 :=
  if signed then u.longSigned upper lower divisor else u.longUnsigned upper lower divisor

/-- The divide instruction of 64 bits without an upper half. -/
def quotient64 (lower divisor : BitVec 64) : BitVec 64 :=
  if signed then u.divdOf lower divisor else u.divduOf lower divisor

/-- A field of 16 or 32 bits, extended. -/
def extend (is16 : Bool) (x : BitVec 64) : BitVec 64 :=
  match signed, is16 with
  | true, true => (x.setWidth 16).signExtend 64
  | true, false => (x.setWidth 32).signExtend 64
  | false, true => (x.setWidth 16).setWidth 64
  | false, false => low32 x

/-- The dividend of up to 32 bits. -/
def dividend32 (is16 : Bool) (upper : Option (BitVec 64)) (lower : BitVec 64) : BitVec 64 :=
  match upper with
  | none => extend signed is16 lower
  | some upper =>
    if is16 then
      let composed := (extend false true upper <<< 16) ||| extend false true lower
      if signed then (composed.setWidth 32).signExtend 64 else composed
    else (low32 upper <<< 32) ||| low32 lower

/-- Up to 32 bits: a doubleword divide if there is an upper half of 32 bits, else a word divide. -/
def divide32 (is16 : Bool) (upper : Option (BitVec 64)) (lower divisor : BitVec 64) :
    BitVec 64 × BitVec 64 :=
  let a := dividend32 signed is16 upper lower
  let b := extend signed is16 divisor
  if upper.isSome && !is16 then
    let q := u.quotient64 signed a b
    (low32 q, low32 (a - q * b))
  else
    let q := if signed then u.divwOf (a.setWidth 32) (b.setWidth 32)
      else u.divwuOf (a.setWidth 32) (b.setWidth 32)
    (q.setWidth 64, low32 (a - q.signExtend 64 * (b.setWidth 32).signExtend 64))

end Undefined

open Undefined

variable {u : Undefined} {lower divisor : BitVec 64}

/-! ### 64 bits -/

theorem sshiftRight_eq_signFill (x : BitVec 64) : x.sshiftRight 63 = signFill x := by
  apply eq_of_getLsbD_eq
  intro i hi
  have hbit : (x.sshiftRight 63).getLsbD i = x.msb := by
    rw [getLsbD_sshiftRight, msb_eq_getLsbD_last]
    split
    · obtain rfl : i = 0 := by omega
      simp
    · simp [hi]
  rw [hbit, signFill]
  cases x.msb
  · simp
  · exact (getLsbD_allOnes.trans (decide_eq_true hi)).symm

theorem sshiftRight_signFill (x : BitVec 64) : (signFill x).sshiftRight 63 = signFill x := by
  rw [sshiftRight_eq_signFill]
  unfold signFill
  cases x.msb <;> rfl

/-- Negation by xor and subtraction. -/
theorem xor_allOnes_sub (x : BitVec 64) : (x ^^^ BitVec.allOnes 64) - BitVec.allOnes 64 = -x := by
  rw [xor_allOnes, neg_eq_not_add, BitVec.sub_eq_add_neg]
  rfl

theorem xor_zero_sub (x : BitVec 64) : (x ^^^ 0) - 0 = x := by simp

theorem xor_signFill_sub (x y : BitVec 64) :
    (x ^^^ signFill y) - signFill y = if y.msb then -x else x := by
  unfold signFill
  split
  · exact xor_allOnes_sub x
  · simp

/-- The two absolute values of a sign-extended dividend. -/
theorem abs_of_signFill (lower : BitVec 64) :
    (if (signFill lower).slt 0 then -signFill lower - 1 + (if lower = 0 then 1 else 0)
      else signFill lower) = 0 ∧
    (if (signFill lower).slt 0 then -lower else lower) = if lower.msb then -lower else lower := by
  unfold signFill
  rcases hmsb : lower.msb
  · simp
  · have hne : lower ≠ 0 := fun h => by simp [h] at hmsb
    simp only [if_neg hne]
    exact ⟨by decide, rfl⟩

/-! ### Division by zero -/

/-- The undefined results of an implementation that always leaves the same numbers. -/
def Undefined.const (d du : BitVec 64) (w : BitVec 32) : Undefined :=
  ⟨fun _ _ => d, fun _ _ => du, fun _ _ => 0, fun _ _ => w, fun _ _ => w⟩

/-- A zero divisor leaves any quotient, and the lower half as remainder. -/
theorem longSigned_zero (lower q : BitVec 64) :
    ∃ u' : Undefined, u'.longSigned (signFill lower) lower 0 = (q, lower) := by
  obtain ⟨habu, habl⟩ := abs_of_signFill lower
  have hsg := sshiftRight_signFill lower
  refine ⟨.const 0 ((if lower.msb then -q else q) - 1) 0, ?_⟩
  have hzr : (0 : BitVec 64).sshiftRight 63 = 0 := by decide
  have hxor : ∀ x : BitVec 64, x ^^^ 0 = x := fun x => BitVec.xor_zero
  simp only [longSigned, habl, hsg, hzr, hxor, sub_zero,
    divdeuOf, divduOf, const, xor_signFill_sub]
  cases lower.msb <;> simp

theorem longUnsigned_zero (lower q : BitVec 64) :
    ∃ u' : Undefined, u'.longUnsigned 0 lower 0 = (q, lower) := by
  refine ⟨.const 0 (q - 1) 0, ?_⟩
  simp [longUnsigned, divdeuOf, divduOf, const]

/-- Whatever the quotient of a division by zero is. -/
theorem longSigned_zero_snd (lower : BitVec 64) :
    (u.longSigned (signFill lower) lower 0).2 = lower := by
  obtain ⟨habu, habl⟩ := abs_of_signFill lower
  have hsg := sshiftRight_signFill lower
  have hzr : (0 : BitVec 64).sshiftRight 63 = 0 := by decide
  have hxor : ∀ x : BitVec 64, x ^^^ 0 = x := fun x => BitVec.xor_zero
  simp only [longSigned, habl, hsg, xor_signFill_sub]
  cases lower.msb <;> simp

theorem longUnsigned_zero_snd (lower : BitVec 64) : (u.longUnsigned 0 lower 0).2 = lower := by
  simp [longUnsigned]

/-! ### 32 bits -/

theorem setWidth_sdiv (a b : BitVec 32) :
    ((a.signExtend 64).sdiv (b.signExtend 64)).setWidth 32 = a.sdiv b := by
  apply eq_of_toInt_eq
  have hext : ∀ x : BitVec 32, (x.signExtend 64).toInt = x.toInt := fun x =>
    toInt_signExtend_of_le (by decide)
  rw [toInt_setWidth, toInt_sdiv, ← Int.bmod_bmod_of_dvd (m := 2 ^ 64) (by decide),
    ← toInt_eq_toNat_bmod, toInt_sdiv, hext, hext, Int.bmod_bmod_of_dvd (by decide)]

theorem setWidth_udiv (a b : BitVec 32) :
    ((a.setWidth 64) / (b.setWidth 64)).setWidth 32 = a / b := by
  apply eq_of_toNat_eq
  have hext : ∀ x : BitVec 32, (x.setWidth 64).toNat = x.toNat := fun x =>
    toNat_setWidth_of_le (by decide)
  have hlt : a.toNat / b.toNat < 2 ^ 32 := (Nat.div_le_self _ _).trans_lt a.isLt
  rw [toNat_setWidth, toNat_udiv, toNat_udiv, hext, hext, Nat.mod_eq_of_lt hlt]

/-! ### With and without an upper half -/

variable {upper : BitVec 64}

section Extended

variable {signed : Bool}

theorem long64_zero (signed : Bool) (lower q : BitVec 64) :
    ∃ u' : Undefined, u'.long64 signed (extension signed lower) lower 0 = (q, lower) := by
  cases signed
  · exact longUnsigned_zero lower q
  · exact longSigned_zero lower q

theorem long64_zero_snd (u : Undefined) (signed : Bool) (lower : BitVec 64) :
    (u.long64 signed (extension signed lower) lower 0).2 = lower := by
  cases signed
  · exact longUnsigned_zero_snd lower
  · exact longSigned_zero_snd lower

theorem quotient64_eq (hd : divisor ≠ 0) (ho : ¬(signed = true ∧ Overflows lower divisor)) :
    u.quotient64 signed lower divisor = exactQuotient signed lower divisor := by
  cases signed
  · exact if_neg hd
  · exact if_neg (not_or.2 ⟨hd, fun h => ho ⟨rfl, h⟩⟩)

theorem setWidth_low32 (x : BitVec 64) : (low32 x).setWidth 32 = x.setWidth 32 := by
  simp [low32]

/-- The lower word of `a - q * b` depends on the lower words. -/
theorem low32_sub_mul (a q b : BitVec 64) :
    low32 (a - q * b) = (a.setWidth 32 - q.setWidth 32 * b.setWidth 32).setWidth 64 := by
  rw [low32, BitVec.sub_eq_add_neg, setWidth_add _ _ (by decide),
    setWidth_neg_of_le (by decide), setWidth_mul _ _ (by decide),
    ← BitVec.sub_eq_add_neg]

theorem setWidth_signExtend (x : BitVec 32) : (x.signExtend 64).setWidth 32 = x := by
  apply eq_of_getLsbD_eq
  intro i hi
  simp only [getLsbD_setWidth, getLsbD_signExtend, hi, decide_true, Bool.true_and,
    if_true, show i < 64 by omega]

theorem setWidth_extend (signed : Bool) (x : BitVec 64) :
    (extend signed false x).setWidth 32 = x.setWidth 32 := by
  cases signed
  · exact setWidth_low32 x
  · exact setWidth_signExtend _

/-- The doubleword quotient of extended words, cut to a word. -/
theorem setWidth_quotient64 (u : Undefined) (signed : Bool) (lower : BitVec 64)
    (hd : divisor.setWidth 32 ≠ 0) :
    (u.quotient64 signed (extend signed false lower) (extend signed false divisor)).setWidth 32 =
      exactQuotient signed (lower.setWidth 32) (divisor.setWidth 32) := by
  have hne : extend signed false divisor ≠ 0 := by
    intro h
    have := setWidth_extend signed divisor
    rw [h] at this
    exact hd this.symm
  have ho : ¬(signed = true ∧ Overflows (extend signed false lower)
      (extend signed false divisor)) := by
    rintro ⟨rfl, hmin, -⟩
    have hlow := congrArg BitVec.toInt hmin
    have hext : (extend true false lower).toInt = (lower.setWidth 32).toInt :=
      toInt_signExtend_of_le (by decide)
    have hle := le_two_mul_toInt (x := lower.setWidth 32)
    rw [hext, toInt_intMin] at hlow
    simp at hlow hle
    omega
  rw [quotient64_eq hne ho]
  cases signed
  · exact setWidth_udiv _ _
  · exact setWidth_sdiv _ _

theorem divideWord_eq {a b : BitVec 32} (hd : b ≠ 0) (ho : ¬(signed = true ∧ Overflows a b)) :
    (if signed then u.divwOf a b else u.divwuOf a b) = exactQuotient signed a b := by
  cases signed
  · exact if_neg hd
  · exact if_neg (not_or.2 ⟨hd, fun h => ho ⟨rfl, h⟩⟩)

theorem divide32_short (hd : divisor.setWidth 32 ≠ 0)
    (ho : ¬(signed = true ∧ Overflows (lower.setWidth 32) (divisor.setWidth 32))) :
    u.divide32 signed false none lower divisor =
      let q := exactQuotient signed (lower.setWidth 32) (divisor.setWidth 32)
      (q.setWidth 64, (lower.setWidth 32 - q * divisor.setWidth 32).setWidth 64) := by
  simp only [divide32, Option.isSome_none, Bool.false_and, Bool.false_eq_true, if_false,
    low32_sub_mul, dividend32, setWidth_extend, divideWord_eq hd ho, setWidth_signExtend]

section

variable (hu : upper.setWidth 32 = extension signed (lower.setWidth 32))
include hu

/-- The dividend composed of a number and its extension is the number. -/
theorem dividend32_of_extension : dividend32 signed false (some upper) lower =
      dividend32 signed false none lower := by
  have hbit : ∀ i < 32, upper.getLsbD i = (extension signed (lower.setWidth 32)).getLsbD i := by
    intro i hi
    simp [← hu, hi]
  apply eq_of_getLsbD_eq
  intro i hi
  rcases Nat.lt_or_ge i 32 with hlt | hge
  · cases signed <;>
      simp [dividend32, extend, low32, getElem_signExtend, hlt, hi]
  · have hup := hbit (i - 32) (by omega)
    cases signed
    · simp [extension] at hup
      simp [dividend32, extend, low32, hup]
    · have hfl : (signFill (lower.setWidth 32)).getLsbD (i - 32) = (lower.setWidth 32).msb := by
        unfold signFill
        cases (lower.setWidth 32).msb
        · simp
        · exact getLsbD_allOnes.trans (decide_eq_true (by omega))
      simp only [extension, if_true, hfl] at hup
      have hlt : i - 32 < 32 := by omega
      simp [dividend32, extend, low32, getElem_signExtend, hup, hi, hlt, Nat.not_lt.2 hge]

/-- **32 bits with an extended dividend.** -/
theorem divide32_long (hd : divisor.setWidth 32 ≠ 0) :
    u.divide32 signed false (some upper) lower divisor =
      let q := exactQuotient signed (lower.setWidth 32) (divisor.setWidth 32)
      (q.setWidth 64, (lower.setWidth 32 - q * divisor.setWidth 32).setWidth 64) := by
  have hq := setWidth_quotient64 u signed lower hd
  simp only [divide32, low32_sub_mul, dividend32_of_extension hu]
  simp [dividend32, hq, setWidth_extend, low32]

/-- A zero divisor leaves any quotient, and the lower half as remainder. -/
theorem divide32_long_zero (hd : divisor.setWidth 32 = 0) (q : BitVec 32) :
    ∃ u' : Undefined, u'.divide32 signed false (some upper) lower divisor =
      (q.setWidth 64, (lower.setWidth 32).setWidth 64) := by
  refine ⟨.const (q.setWidth 64) (q.setWidth 64) 0, ?_⟩
  have hzr : extend signed false divisor = 0 := by
    cases signed
    · simp [extend, low32, hd]
    · simp [extend, hd]
  simp only [divide32, Option.isSome_some, dividend32_of_extension hu]
  have hq : ∀ a, (const (q.setWidth 64) (q.setWidth 64) 0).quotient64 signed a 0 =
      q.setWidth 64 := by
    intro a
    cases signed <;> simp [quotient64, divdOf, divduOf, const]
  rw [hzr, hq, mul_zero, sub_zero]
  simp [dividend32, low32, setWidth_extend]

end

theorem divide32_zero_snd (u : Undefined)
    (hu : upper.setWidth 32 = extension signed (lower.setWidth 32)) (hd : divisor.setWidth 32 = 0) :
    (u.divide32 signed false (some upper) lower divisor).2 = (lower.setWidth 32).setWidth 64 := by
  simp only [divide32, low32_sub_mul, dividend32_of_extension hu, setWidth_extend, hd]
  simp [dividend32, setWidth_extend]

theorem divide32_short_zero (u : Undefined) (signed : Bool) (lower : BitVec 64)
    (hd : divisor.setWidth 32 = 0) :
    ∃ q : BitVec 32, u.divide32 signed false none lower divisor =
      (q.setWidth 64, (lower.setWidth 32).setWidth 64) := by
  refine ⟨_, Prod.ext rfl ?_⟩
  simp only [divide32, Option.isSome_none, Bool.false_and, Bool.false_eq_true, if_false,
    low32_sub_mul, setWidth_extend, hd, setWidth_signExtend, dividend32, mul_zero, sub_zero]

end Extended

end FastPPC.Ra
