import FastPPC.Ra.MergeExact

/-!
# Division is exact

`DEF_OP(Div)` and `DEF_OP(UDiv)` against the quotient and the remainder of x86.  The host has no
128-by-64 division: the quotient is estimated by two 64-bit divisions and corrected once.

* `estimate`, `tentative_spec` : the estimate is right or one too small, and what is left tells;
* `longUnsigned_eq`, `longSigned_eq`, `divide32_eq` : the three sequences;
* `div_exact` : **where x86 raises no divide error, the code computes its quotient and remainder.**
-/

namespace FastPPC.Ra

open Undefined BitVec State

variable {u : Undefined} {lower divisor : BitVec 64}

/-! ### Numbers in registers -/

variable {w v : ℕ} {signed : Bool}

/-- The number in a register. -/
def value (signed : Bool) {w : ℕ} (x : BitVec w) : ℤ := if signed then x.toInt else x.toNat

theorem ofInt_value (signed : Bool) (x : BitVec w) : BitVec.ofInt w (value signed x) = x := by
  cases signed
  · exact (ofInt_natCast w _).trans (ofNat_toNat ..|>.trans (setWidth_eq x))
  · exact ofInt_toInt

theorem exactQuotient_eq (signed : Bool) (a b : BitVec w) :
    exactQuotient signed a b = BitVec.ofInt w ((value signed a).tdiv (value signed b)) := by
  cases signed
  · have hdiv : ((a.toNat : ℤ).tdiv b.toNat) = ((a / b).toNat : ℤ) := by
      rw [toNat_udiv]
      rfl
    exact ((congrArg (BitVec.ofInt w) hdiv).trans (ofInt_value false (a / b))).symm
  · apply eq_of_toInt_eq
    rw [toInt_ofInt]
    exact toInt_sdiv a b

/-- The remainder that belongs to the quotient. -/
theorem sub_quotient_mul (n d : ℤ) :
    BitVec.ofInt w n - BitVec.ofInt w (n.tdiv d) * BitVec.ofInt w d =
      BitVec.ofInt w (n.tmod d) := by
  rw [← ofInt_mul, sub_eq_add_neg, ← ofInt_neg, ← ofInt_add,
    Int.tmod_def, Int.mul_comm, Int.sub_eq_add_neg]

theorem setWidth_ofInt (h : w ≤ v) (n : ℤ) : (BitVec.ofInt v n).setWidth w = BitVec.ofInt w n := by
  apply eq_of_toNat_eq
  rw [toNat_setWidth, toNat_ofInt, toNat_ofInt]
  have hdvd : ((2 ^ w : ℕ) : ℤ) ∣ ((2 ^ v : ℕ) : ℤ) :=
    Int.natCast_dvd_natCast.2 (Nat.pow_dvd_pow 2 h)
  rw [← Int.emod_emod_of_dvd n hdvd]
  have hpos : 0 ≤ n % ((2 ^ v : ℕ) : ℤ) :=
    Int.emod_nonneg _ (Int.natCast_ne_zero.2 (Nat.two_pow_pos v).ne')
  rw [Int.toNat_emod hpos (Int.natCast_nonneg _)]
  rfl

/-- The numbers of `w` bits. -/
def InRange (signed : Bool) (w : ℕ) (n : ℤ) : Prop :=
  if signed then -2 ^ w ≤ 2 * n ∧ 2 * n < 2 ^ w else 0 ≤ n ∧ n < 2 ^ w

theorem inRange_value (signed : Bool) (x : BitVec w) : InRange signed w (value signed x) := by
  cases signed
  · have hlt : (x.toNat : ℤ) < 2 ^ w := by exact_mod_cast x.isLt
    exact ⟨Int.natCast_nonneg _, hlt⟩
  · exact ⟨le_two_mul_toInt, two_mul_toInt_lt⟩

theorem natAbs_lt_of_inRange {n : ℤ} (h : InRange signed 64 n) : n.natAbs < 2 ^ 64 := by
  cases signed <;> simp only [InRange, if_true, Bool.false_eq_true, if_false] at h <;> omega

theorem InRange.mono {n : ℤ} (h : InRange signed w n) (hle : w ≤ v) : InRange signed v n := by
  have hpow : (2 : ℤ) ^ w ≤ 2 ^ v := by exact_mod_cast Nat.pow_le_pow_right (by decide) hle
  cases signed
  · exact ⟨h.1, h.2.trans_le hpow⟩
  · exact ⟨(Int.neg_le_neg hpow).trans h.1, h.2.trans_le hpow⟩

theorem value_ofInt {n : ℤ} (h : InRange signed w n) : value signed (BitVec.ofInt w n) = n := by
  cases signed
  · obtain ⟨h0, hlt⟩ := h
    have hcs : ((BitVec.ofInt w n).toNat : ℤ) = n % ((2 ^ w : ℕ) : ℤ) := by
      rw [toNat_ofInt]
      exact Int.toNat_of_nonneg (Int.emod_nonneg _ (Int.natCast_ne_zero.2 (Nat.two_pow_pos w).ne'))
    exact hcs.trans (Int.emod_eq_of_lt h0 (by exact_mod_cast hlt))
  · obtain ⟨hle, hlt⟩ := h
    have hbm : n.bmod (2 ^ w) = n := by
      refine Int.bmod_eq_of_le_mul_two ?_ ?_
      · rw [Int.mul_comm]
        exact_mod_cast hle
      · rw [Int.mul_comm]
        exact_mod_cast hlt
    exact (toInt_ofInt ..).trans hbm

/-- A number that fits a narrower field is the same there. -/
theorem value_setWidth (hle : w ≤ v) {x : BitVec v} (h : InRange signed w (value signed x)) :
    value signed (x.setWidth w) = value signed x := by
  have hcut := setWidth_ofInt hle (value signed x)
  rw [ofInt_value] at hcut
  rw [hcut, value_ofInt h]

/-! ### The estimate -/

variable {upper : BitVec 64}

/-- Two partial quotients miss the quotient of the sum by at most one. -/
theorem estimate (a b : ℕ) {d : ℕ} (hd : 0 < d) :
    ∃ r, a + b = (a / d + b / d) * d + r ∧ r < 2 * d ∧
      (a + b) / d = (if r < d then a / d + b / d else a / d + b / d + 1) ∧
      (a + b) % d = if r < d then r else r - d := by
  have ha := Nat.div_add_mod a d
  have hb := Nat.div_add_mod b d
  have hra := Nat.mod_lt a hd
  have hrb := Nat.mod_lt b hd
  have hsum : a + b = (a / d + b / d) * d + (a % d + b % d) := by
    rw [Nat.add_mul, Nat.mul_comm (a / d), Nat.mul_comm (b / d)]
    omega
  refine ⟨a % d + b % d, hsum, by omega, ?_⟩
  split
  next hlt => exact (Nat.div_mod_unique hd).2 ⟨by rw [hsum, Nat.mul_comm]; omega, hlt⟩
  next hge =>
    refine (Nat.div_mod_unique hd).2 ⟨?_, by omega⟩
    rw [hsum, Nat.mul_add, Nat.mul_comm d]
    omega

/-- **The estimate of the long divisions**: the sum of two 64-bit quotients is right or one too
small, which the remainder that is left tells. -/
theorem tentative_spec (u : Undefined) (lower : BitVec 64) (h : upper < divisor) :
    let n := upper.toNat * 2 ^ 64 + lower.toNat
    let tentative := u.divdeuOf upper divisor + u.divduOf lower divisor
    ∃ r, n = tentative.toNat * divisor.toNat + r ∧ r < 2 * divisor.toNat ∧
      lower - tentative * divisor = BitVec.ofNat 64 r ∧
      (if r < divisor.toNat then tentative else tentative + 1) =
        BitVec.ofNat 64 (n / divisor.toNat) ∧
      (if r < divisor.toNat then BitVec.ofNat 64 r else BitVec.ofNat 64 r - divisor) =
        BitVec.ofNat 64 (n % divisor.toNat) := by
  have hlt := lt_def.1 h
  have hd : 0 < divisor.toNat := Nat.zero_lt_of_lt hlt
  have hne : divisor ≠ 0 := fun h0 => by simp [h0] at hd
  obtain ⟨r, hn, hr, hq, hm⟩ := estimate (upper.toNat * 2 ^ 64) lower.toNat hd
  have hft : (upper.toNat * 2 ^ 64 + lower.toNat) / divisor.toNat < 2 ^ 64 := by
    rw [Nat.div_lt_iff_lt_mul hd]
    omega
  generalize ht : upper.toNat * 2 ^ 64 / divisor.toNat + lower.toNat / divisor.toNat = t at *
  have htlt : t < 2 ^ 64 := by split at hq <;> omega
  have htn : u.divdeuOf upper divisor + u.divduOf lower divisor = BitVec.ofNat 64 t := by
    rw [divdeuOf, if_neg (BitVec.not_le.2 h), divduOf, if_neg hne, ← ht,
      ofNat_add, ← toNat_udiv, ofNat_toNat, setWidth_eq]
  have hton : (BitVec.ofNat 64 t).toNat = t := by
    rw [toNat_ofNat, Nat.mod_eq_of_lt htlt]
  simp only [htn, hton, hq, hm]
  refine ⟨r, hn, hr, ?_, ?_, ?_⟩
  · apply eq_of_toNat_eq
    rw [toNat_sub, toNat_mul, hton, toNat_ofNat]
    generalize t * divisor.toNat = p at *
    omega
  · split
    · rfl
    · rw [ofNat_add]
      rfl
  · split
    next => rfl
    next hge =>
      apply eq_of_toNat_eq
      rw [toNat_sub, toNat_ofNat, toNat_ofNat]
      omega

/-- **The unsigned long division is exact.** -/
theorem longUnsigned_eq (h : upper < divisor) :
    let n := upper.toNat * 2 ^ 64 + lower.toNat
    u.longUnsigned upper lower divisor =
      (BitVec.ofNat 64 (n / divisor.toNat), BitVec.ofNat 64 (n % divisor.toNat)) := by
  obtain ⟨r, hn, hr, hlow, hq, hm⟩ := tentative_spec u lower h
  simp only [longUnsigned, ← hq, ← hm]
  generalize u.divdeuOf upper divisor + u.divduOf lower divisor = t at *
  have h0 : (0 : BitVec 64).toNat = 0 := rfl
  have h1 : (1 : BitVec 64).toNat = 1 := rfl
  have hbor : lower < t * divisor ↔ lower.toNat < t.toNat * divisor.toNat % 2 ^ 64 := by
    rw [BitVec.lt_def, toNat_mul]
  -- the upper word of what is left says whether it exceeds a word
  have hhg : (upper - BitVec.ofNat 64 (t.toNat * divisor.toNat / 2 ^ 64) -
      if lower < t * divisor then 1 else 0).toNat = r / 2 ^ 64 := by
    simp only [hbor]
    generalize t.toNat * divisor.toNat = p at *
    split <;> simp only [toNat_sub, toNat_ofNat] <;> omega
  have hcor : (upper - BitVec.ofNat 64 (t.toNat * divisor.toNat / 2 ^ 64) -
      if lower < t * divisor then 1 else 0) ≠ 0 ∨ ¬BitVec.ofNat 64 r < divisor ↔
      ¬r < divisor.toNat := by
    rw [ne_eq, ← toNat_inj, hhg, h0, BitVec.lt_def, toNat_ofNat]
    omega
  simp only [hlow, hcor]
  by_cases hlt : r < divisor.toNat
  · simp only [hlt, not_true_eq_false, if_false, if_true]
  · simp only [hlt, not_false_eq_true, if_false, if_true]

theorem toNat_abs (x : BitVec 64) : (if x.msb then -x else x).toNat = x.toInt.natAbs := by
  have hint := x.toInt_eq_msb_cond
  split
  next h =>
    have hge := msb_eq_true_iff_two_mul_ge.1 h
    rw [if_pos h] at hint
    rw [toNat_neg]
    omega
  next h =>
    rw [if_neg h] at hint
    omega

/-- The two-word absolute value, and the sign. -/
theorem abs_pair (upper lower : BitVec 64) :
    (if upper.slt 0 then -upper - 1 + (if lower = 0 then 1 else 0) else upper).toNat * 2 ^ 64 +
        (if upper.slt 0 then -lower else lower).toNat = (upper ++ lower).toInt.natAbs ∧
      (upper.msb = true ↔ (upper ++ lower).toInt < 0) := by
  have hint := upper.toInt_eq_msb_cond
  have h0 : (0 : BitVec 64).toNat = 0 := rfl
  have h1 : (1 : BitVec 64).toNat = 1 := rfl
  have hslt : upper.slt 0 = upper.msb := slt_zero_eq_msb
  rw [toInt_append, hslt]
  by_cases h : upper.msb = true
  · have hge := msb_eq_true_iff_two_mul_ge.1 h
    rw [if_pos h] at hint
    have hzr : lower = 0 ↔ lower.toNat = 0 := by rw [← toNat_inj, h0]
    simp only [h, if_true, hzr, Nat.reduceBEq, Bool.false_eq_true, if_false, true_iff]
    refine ⟨?_, by omega⟩
    split <;> simp only [toNat_add, toNat_sub, toNat_neg] <;> omega
  · rw [if_neg h] at hint
    simp only [h, Bool.false_eq_true, if_false, Nat.reduceBEq, false_iff]
    exact ⟨by omega, by omega⟩

theorem eq_signed_natAbs {z : ℤ} {b : Bool} (h : b = true ↔ z < 0) :
    z = if b then -(z.natAbs : ℤ) else z.natAbs := by
  by_cases hz : z < 0
  · rw [if_pos (h.2 hz)]
    omega
  · rw [if_neg (mt h.1 hz)]
    omega

/-- The quotient and the remainder of two numbers given by their absolute values. -/
theorem tdiv_signs (a b : ℕ) (s t : Bool) :
    (if s then -(a : ℤ) else a).tdiv (if t then -(b : ℤ) else b) =
      if s = t then ((a / b : ℕ) : ℤ) else -((a / b : ℕ) : ℤ) := by
  have hab : (a : ℤ).tdiv b = ((a / b : ℕ) : ℤ) := rfl
  cases s <;> cases t <;> simp

theorem tmod_signs (a b : ℕ) (s t : Bool) :
    (if s then -(a : ℤ) else a).tmod (if t then -(b : ℤ) else b) =
      if s then -((a % b : ℕ) : ℤ) else ((a % b : ℕ) : ℤ) := by
  have hab : (a : ℤ).tmod b = ((a % b : ℕ) : ℤ) := rfl
  cases s <;> cases t <;> simp [hab]

theorem xor_signs_sub (x y z : BitVec 64) :
    (x ^^^ (signFill y ^^^ signFill z)) - (signFill y ^^^ signFill z) =
      if y.msb = z.msb then x else -x := by
  have hxor : signFill y ^^^ signFill z = if y.msb = z.msb then 0 else allOnes 64 := by
    unfold signFill
    cases y.msb <;> cases z.msb <;> rfl
  rw [hxor]
  split
  · exact xor_zero_sub x
  · exact xor_allOnes_sub x

/-- **The signed long division is exact.** -/
theorem longSigned_eq (h : (upper ++ lower).toInt.natAbs < divisor.toInt.natAbs * 2 ^ 64) :
    u.longSigned upper lower divisor = (BitVec.ofInt 64 ((upper ++ lower).toInt.tdiv divisor.toInt),
        BitVec.ofInt 64 ((upper ++ lower).toInt.tmod divisor.toInt)) := by
  obtain ⟨hpr, hneg⟩ := abs_pair upper lower
  have habs := toNat_abs divisor
  have hle : divisor.toInt.natAbs ≤ 2 ^ 63 := by
    have := toInt_lt (x := divisor)
    have := le_toInt divisor
    omega
  have hdn : divisor.msb = true ↔ divisor.toInt < 0 := msb_eq_toInt ▸ decide_eq_true_iff
  simp only [longSigned, sshiftRight_eq_signFill, xor_signFill_sub, xor_signs_sub]
  generalize (if upper.slt 0 then -upper - 1 + (if lower = 0 then 1 else 0) else upper) = au at *
  generalize (if upper.slt 0 then -lower else lower) = al at *
  generalize (if divisor.msb then -divisor else divisor) = ad at *
  have hlt : au < ad := lt_def.2 (by omega)
  obtain ⟨r, hn, hr, hlow, hq, hm⟩ := tentative_spec u al hlt
  have hcor : BitVec.ofNat 64 r < ad ↔ r < ad.toNat := by
    rw [lt_def, toNat_ofNat]
    omega
  simp only [hlow, hcor]
  rw [hq, hm, hpr, habs]
  generalize (upper ++ lower).toInt = n at *
  generalize divisor.toInt = d at *
  have hn' := eq_signed_natAbs hneg
  have hd' := eq_signed_natAbs hdn
  generalize n.natAbs = a at *
  generalize d.natAbs = b at *
  rw [hn', hd', tdiv_signs, tmod_signs]
  generalize a / b = q
  generalize a % b = m
  cases upper.msb <;> cases divisor.msb <;>
    simp [ofInt_neg, ofInt_natCast]

/-! ### 64 bits -/

theorem toNat_append (upper lower : BitVec 64) :
    (upper ++ lower).toNat = upper.toNat * 2 ^ 64 + lower.toNat := by
  rw [BitVec.toNat_append, ← Nat.shiftLeft_add_eq_or_of_lt lower.isLt, Nat.shiftLeft_eq]

/-- **The long divisions are exact** if the quotient fits 64 bits and a sign. -/
theorem long64_exact
    (h : (value signed (upper ++ lower)).natAbs < (value signed divisor).natAbs * 2 ^ 64) :
    u.long64 signed upper lower divisor =
      (BitVec.ofInt 64 ((value signed (upper ++ lower)).tdiv (value signed divisor)),
        BitVec.ofInt 64 ((value signed (upper ++ lower)).tmod (value signed divisor))) := by
  cases signed
  · have hcs : ∀ a b : ℕ, (a : ℤ).tdiv b = ((a / b : ℕ) : ℤ) ∧
        (a : ℤ).tmod b = ((a % b : ℕ) : ℤ) := fun a b => ⟨rfl, rfl⟩
    simp only [value, Bool.false_eq_true, if_false, toNat_append] at h ⊢
    rw [(hcs _ _).1, (hcs _ _).2, ofInt_natCast, ofInt_natCast]
    exact longUnsigned_eq (lt_def.2 (by omega))
  · exact longSigned_eq h

theorem value_extension (signed : Bool) (lower : BitVec 64) :
    value signed (extension signed lower ++ lower) = value signed lower := by
  cases signed
  · simp [value, extension, toNat_append]
  · have hint := lower.toInt_eq_msb_cond
    simp only [value, extension, signFill, toInt_append, hint]
    cases lower.msb
    · simp
    · simp
      omega

/-- **A dividend that is the extension of its lower half** is divided as the lower half alone. -/
theorem long64_eq (hd : divisor ≠ 0) : u.long64 signed (extension signed lower) lower divisor =
      (exactQuotient signed lower divisor,
        lower - exactQuotient signed lower divisor * divisor) := by
  have hrem := sub_quotient_mul (w := 64) (value signed lower) (value signed divisor)
  have hne : value signed divisor ≠ 0 := by
    intro h0
    have hval := ofInt_value signed divisor
    rw [h0] at hval
    exact hd hval.symm
  have hft := natAbs_lt_of_inRange (inRange_value signed lower)
  rw [ofInt_value, ofInt_value] at hrem
  rw [exactQuotient_eq, hrem, long64_exact, value_extension]
  rw [value_extension]
  omega

/-! ### Operands of up to 32 bits -/

/-- The dividend: one operand, or two of them one above the other. -/
def dividend (signed : Bool) (w : ℕ) (upper : Option (BitVec 64)) (lower : BitVec 64) : ℤ :=
  match upper with
  | none => value signed (lower.setWidth w)
  | some upper => value signed (upper.setWidth w ++ lower.setWidth w)

/-- x86 raises no divide error: the divisor is not zero and the quotient fits. -/
structure Divides (signed : Bool) (w : ℕ) (n d : ℤ) : Prop where
  ne_zero : d ≠ 0
  fits : InRange signed w (n.tdiv d)

theorem value_extend (signed is16 : Bool) (x : BitVec 64) : value signed (extend signed is16 x) =
      value signed (x.setWidth (if is16 then 16 else 32)) := by
  cases signed <;> cases is16
  · exact congrArg Nat.cast (toNat_setWidth_of_le (by decide))
  · exact congrArg Nat.cast (toNat_setWidth_of_le (by decide))
  · exact toInt_signExtend_of_le (by decide)
  · exact toInt_signExtend_of_le (by decide)

theorem value_dividend32 (signed is16 : Bool) (upper : Option (BitVec 64)) (lower : BitVec 64) :
    value signed (dividend32 signed is16 upper lower) =
      dividend signed (if is16 then 16 else 32) upper lower := by
  cases upper with
  | none => exact value_extend signed is16 lower
  | some upper =>
    cases is16 with
    | false =>
      have hcom : (low32 upper <<< 32) ||| low32 lower =
          upper.setWidth 32 ++ lower.setWidth 32 := by
        rw [low32, low32, ← setWidth_append_eq_shiftLeft_setWidth_or]
        exact setWidth_eq _
      exact congrArg (value signed) hcom
    | true =>
      have hcom : (extend false true upper <<< 16) ||| extend false true lower =
          (upper.setWidth 16 ++ lower.setWidth 16).setWidth 64 :=
        setWidth_append_eq_shiftLeft_setWidth_or.symm
      simp only [dividend32, if_true, hcom]
      cases signed
      · exact congrArg Nat.cast (toNat_setWidth_of_le (by decide))
      · rw [if_pos rfl, setWidth_setWidth_of_le _ (by decide), setWidth_eq]
        exact toInt_signExtend_of_le (by decide)

/-- The divide instructions are defined where x86 raises no error. -/
theorem Divides.defined (hv : v = 32 ∨ v = 64) (hle : w ≤ v) {a b : BitVec v}
    (h : Divides signed w (value signed a) (value signed b)) :
    b ≠ 0 ∧ ¬(signed = true ∧ Overflows a b) := by
  obtain ⟨hd, hft⟩ := h
  refine ⟨?_, ?_⟩
  · rintro rfl
    cases signed <;> exact hd (by simp [value])
  · rintro ⟨rfl, rfl, rfl⟩
    have hlt := (hft.mono hle).2
    rcases hv with rfl | rfl <;> exact absurd hlt (by decide)

theorem divide32_eq (u : Undefined) (signed is16 : Bool) (upper : Option (BitVec 64))
    (lower divisor : BitVec 64) (hw : w = if is16 then 16 else 32)
    (h : Divides signed w (dividend signed w upper lower) (value signed (divisor.setWidth w))) :
    let n := dividend signed w upper lower
    let d := value signed (divisor.setWidth w)
    (u.divide32 signed is16 upper lower divisor).1.setWidth w = BitVec.ofInt w (n.tdiv d) ∧
      (u.divide32 signed is16 upper lower divisor).2.setWidth w = BitVec.ofInt w (n.tmod d) := by
  have ha := value_dividend32 signed is16 upper lower
  have hb := value_extend signed is16 divisor
  have hle : w ≤ 32 := by rw [hw]; split <;> decide
  have hlow : ∀ x : BitVec 64, (low32 x).setWidth w = x.setWidth w := fun x => by
    rw [low32, setWidth_setWidth_of_le _ (by omega), setWidth_setWidth_of_le _ hle]
  -- a dividend of words fits a word
  have hwr : ¬(upper.isSome && !is16) = true →
      InRange signed 32 (dividend signed w upper lower) := by
    intro hnot
    cases upper with
    | none => exact (inRange_value signed _).mono hle
    | some upper =>
      obtain rfl : is16 = true := by simpa using hnot
      subst hw
      exact inRange_value signed _
  have hft := (inRange_value signed (divisor.setWidth w)).mono hle
  rw [← hw] at ha hb
  rw [← ha, ← hb] at h ⊢
  rw [← ha] at hwr
  rw [← hb] at hft
  unfold divide32
  generalize dividend32 signed is16 upper lower = a at *
  generalize extend signed is16 divisor = b at *
  split
  · obtain ⟨hne, hno⟩ := h.defined (.inr rfl) (by omega)
    have hrem := sub_quotient_mul (w := 64) (value signed a) (value signed b)
    rw [ofInt_value, ofInt_value] at hrem
    simp only [hlow, quotient64_eq (u := u) hne hno, exactQuotient_eq, hrem]
    exact ⟨setWidth_ofInt (by omega) _, setWidth_ofInt (by omega) _⟩
  next hnot =>
    have ha' := value_setWidth (by decide) (hwr hnot)
    have hb' := value_setWidth (by decide) hft
    rw [← ha', ← hb'] at h ⊢
    obtain ⟨hne, hno⟩ := h.defined (.inl rfl) hle
    have hrem := sub_quotient_mul (w := 32) (value signed (a.setWidth 32))
      (value signed (b.setWidth 32))
    rw [ofInt_value, ofInt_value] at hrem
    simp only [divideWord_eq hne hno, low32_sub_mul, setWidth_signExtend, exactQuotient_eq, hrem]
    rw [setWidth_setWidth_of_le _ (by omega), setWidth_setWidth_of_le _ (by omega)]
    exact ⟨setWidth_ofInt hle _, setWidth_ofInt hle _⟩

theorem divide64_eq (u : Undefined) (signed : Bool) (upper : Option (BitVec 64))
    (lower divisor : BitVec 64)
    (h : Divides signed 64 (dividend signed 64 upper lower) (value signed (divisor.setWidth 64))) :
    let n := dividend signed 64 upper lower
    let d := value signed (divisor.setWidth 64)
    let result := match upper with
      | some upper => u.long64 signed upper lower divisor
      | none => (u.quotient64 signed lower divisor,
          lower - u.quotient64 signed lower divisor * divisor)
    result.1.setWidth 64 = BitVec.ofInt 64 (n.tdiv d) ∧
      result.2.setWidth 64 = BitVec.ofInt 64 (n.tmod d) := by
  cases upper with
  | none =>
    simp only [dividend, setWidth_eq] at h ⊢
    obtain ⟨hne, hno⟩ := h.defined (.inr rfl) le_rfl
    have hrem := sub_quotient_mul (w := 64) (value signed lower) (value signed divisor)
    rw [ofInt_value, ofInt_value] at hrem
    rw [quotient64_eq hne hno, exactQuotient_eq]
    exact ⟨rfl, hrem⟩
  | some upper =>
    simp only [setWidth_eq] at h ⊢
    have hft : (value signed (upper ++ lower)).natAbs < (value signed divisor).natAbs * 2 ^ 64 := by
      have hpos := Int.natAbs_pos.2 h.ne_zero
      have hran := natAbs_lt_of_inRange h.fits
      rw [Int.natAbs_tdiv] at hran
      rw [Nat.mul_comm]
      exact (Nat.div_lt_iff_lt_mul hpos).1 hran
    rw [long64_exact hft]
    exact ⟨rfl, rfl⟩

/-! ### The operation -/

/-- **Division is exact.**  The results have registers of their own; the short form at 64 bits also
needs that the quotient does not take that of an operand. -/
theorem div_exact {C : Type} (u : Undefined) (s : State C) (signed : Bool) {size : OpSize}
    (hsize : size ≠ .i8Bit) (upper : Option Reg) {lower divisor outQuotient outRemainder : Reg}
    (hout : outQuotient ≠ outRemainder)
    (hshort : size = .i64Bit → upper = none → outQuotient ≠ lower ∧ outQuotient ≠ divisor)
    (h : Divides signed size.bits (dividend signed size.bits (upper.map s.gpr) (s.gpr lower))
      (value signed ((s.gpr divisor).setWidth size.bits))) :
    let n := dividend signed size.bits (upper.map s.gpr) (s.gpr lower)
    let d := value signed ((s.gpr divisor).setWidth size.bits)
    let s' := s.div u signed size lower upper divisor outQuotient outRemainder
    (s'.gpr outQuotient).setWidth size.bits = BitVec.ofInt size.bits (n.tdiv d) ∧
      (s'.gpr outRemainder).setWidth size.bits = BitVec.ofInt size.bits (n.tmod d) := by
  have hquo : ∀ q r : BitVec 64, ((s.setGpr outQuotient q).setGpr outRemainder r).gpr
      outQuotient = q := fun q r => by
    rw [gpr_setGpr_of_ne _ _ hout, gpr_setGpr_self]
  cases size with
  | i8Bit => exact absurd rfl hsize
  | i16Bit =>
    simp only [div, gpr_setGpr_self, hquo]
    exact divide32_eq u signed true _ _ _ rfl h
  | i32Bit =>
    simp only [div, gpr_setGpr_self, hquo]
    exact divide32_eq u signed false _ _ _ rfl h
  | i64Bit =>
    obtain ⟨hq, hr⟩ := divide64_eq u signed (upper.map s.gpr) (s.gpr lower) (s.gpr divisor) h
    cases upper with
    | none =>
      obtain ⟨hlow, hdiv⟩ := hshort rfl rfl
      simp only [div, gpr_setGpr_self, hquo, gpr_setGpr_of_ne _ _ hlow.symm,
        gpr_setGpr_of_ne _ _ hdiv.symm]
      exact ⟨hq, hr⟩
    | some upper =>
      simp only [div, gpr_setGpr_self, hquo]
      exact ⟨hq, hr⟩

/-- Registers 0 to 2 hold a dividend and a divisor above `2 ^ 63`. -/
def largeOperands : State Unit :=
  ⟨fun r => if r = 0 then 0x8000000000000000 else if r = 1 then 0xffffffffffffffff
    else 0x8000000000000001, fun _ => 0, ()⟩

/-- What is left after the estimate does not fit a word. -/
theorem div_exact_large :
    let s' := largeOperands.div (.const 0 0 0) false .i64Bit 1 (some 0) 2 3 4
    (s'.gpr 3).setWidth 64 = 0xffffffffffffffff#64 ∧
      (s'.gpr 4).setWidth 64 = 0x8000000000000000#64 :=
  div_exact (.const 0 0 0) largeOperands false (by decide : OpSize.i64Bit ≠ .i8Bit) (some 0)
    (by decide) (by rintro - ⟨⟩) ⟨by decide, by decide, by decide⟩

end FastPPC.Ra
