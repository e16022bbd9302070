import Mathlib

/-!
# Words as bit vectors

Facts about machine words that the developments of encoders and instructions share: sign
extension, runs of ones, and functions that are linear over the field of two elements.
-/

namespace FastPPC

open BitVec

variable {w i : ℕ}

/-- A number that fits in `w` bits survives being cut to them and sign-extended. -/
theorem signExtend_setWidth (x : BitVec 64) (hw : 0 < w) (hw' : w ≤ 64)
    (hlo : -(2 ^ (w - 1) : ℤ) ≤ x.toInt) (hhi : x.toInt < 2 ^ (w - 1)) :
    (x.setWidth w).signExtend 64 = x := by
  apply eq_of_toInt_eq
  rw [toInt_signExtend_of_le hw', toInt_setWidth]
  have hdvd : 2 ^ w ∣ 2 ^ 64 := Nat.pow_dvd_pow 2 hw'
  have hpow : ((2 ^ w : ℕ) : ℤ) = 2 * 2 ^ (w - 1) := by
    obtain ⟨v, rfl⟩ : ∃ v, w = v + 1 := ⟨w - 1, by omega⟩
    rw [Nat.add_sub_cancel]
    exact_mod_cast Nat.pow_succ'
  rw [← Int.bmod_bmod_of_dvd hdvd, ← toInt_eq_toNat_bmod]
  generalize (2 : ℤ) ^ (w - 1) = b at hpow hlo hhi
  apply Int.bmod_eq_of_le <;> omega

/-- The number of ones, `std::popcount`. -/
def popcount {w : ℕ} (x : BitVec w) : ℕ := ((Finset.range w).filter (x.getLsbD ·)).card

variable {x : BitVec w}

/-- The bits above the leading zeros' end are zero. -/
theorem getLsbD_of_clz_le (h : w - x.clz.toNat ≤ i) : x.getLsbD i = false := by
  have hlt : x.toNat < 2 ^ (w - x.clz.toNat) := toNat_lt_two_pow_sub_clz
  have hpow := Nat.pow_le_pow_right (Nat.zero_lt_two) h
  rw [← testBit_toNat]
  exact Nat.testBit_lt_two_pow (hlt.trans_le hpow)

/-- **A run of ones.**  If the ones and the zeros at both ends are all the bits, the ones are the
bits between the zeros. -/
theorem getLsbD_of_popcount (h : popcount x + x.clz.toNat + x.ctz.toNat = w) (hi : i < w) :
    x.getLsbD i = decide (x.ctz.toNat ≤ i ∧ i < w - x.clz.toNat) := by
  have hsub : (Finset.range w).filter (x.getLsbD ·) ⊆ Finset.Ico x.ctz.toNat (w - x.clz.toNat) := by
    intro j hj
    have hbit := (Finset.mem_filter.1 hj).2
    rw [Finset.mem_Ico]
    constructor
    · by_contra hlt
      rw [BitVec.getLsbD_false_of_lt_ctz (Nat.lt_of_not_le hlt)] at hbit
      exact Bool.false_ne_true hbit
    · by_contra hge
      rw [getLsbD_of_clz_le (Nat.le_of_not_lt hge)] at hbit
      exact Bool.false_ne_true hbit
  have hcr : (Finset.Ico x.ctz.toNat (w - x.clz.toNat)).card ≤
      ((Finset.range w).filter (x.getLsbD ·)).card := by
    unfold popcount at h
    rw [Nat.card_Ico]
    omega
  have heq := Finset.eq_of_subset_of_card_le hsub hcr
  have hmem : x.getLsbD i = true ↔ x.ctz.toNat ≤ i ∧ i < w - x.clz.toNat := by
    rw [← Finset.mem_Ico, ← heq, Finset.mem_filter, Finset.mem_range]
    exact ⟨fun hb => ⟨hi, hb⟩, fun hb => hb.2⟩
  rw [Bool.eq_iff_iff, hmem, decide_eq_true_eq]

/-- Adding one does not change the bits above a zero. -/
theorem getLsbD_add_one {k : ℕ} (hx : x.getLsbD k = false) (hk : k < i) (hi : i < w) :
    (x + 1).getLsbD i = x.getLsbD i := by
  have hne : x.toNat % 2 ^ i ≠ 2 ^ i - 1 := by
    intro h
    have hbit : (x.toNat % 2 ^ i).testBit k = true := by
      rw [h, Nat.testBit_two_pow_sub_one, decide_eq_true hk]
    rw [Nat.testBit_mod_two_pow, BitVec.testBit_toNat, hx, Bool.and_false] at hbit
    exact Bool.false_ne_true hbit
  have hone : 1 % 2 ^ i = 1 := Nat.mod_eq_of_lt (Nat.one_lt_two_pow (by omega))
  have hone' : (1 : BitVec w).toNat = 1 := by
    rw [show (1 : BitVec w) = BitVec.ofNat w 1 from rfl, BitVec.toNat_ofNat]
    exact Nat.mod_eq_of_lt (Nat.one_lt_two_pow (by omega))
  have hcar : carry i x 1 false = false := by
    rw [carry, hone', hone, decide_eq_false]
    change ¬ 2 ^ i ≤ x.toNat % 2 ^ i + 1 + 0
    omega
  have hbit : (1 : BitVec w).getLsbD i = false := by
    rw [← testBit_toNat, hone']
    exact Nat.testBit_lt_two_pow (Nat.one_lt_two_pow (by omega))
  rw [getLsbD_add hi, hcar, hbit, Bool.xor_false, Bool.xor_false]

/-- The ones of a word that shares no bit with its successor are its lowest bits. -/
theorem getLsbD_of_and_succ (h : x &&& (x + 1) = 0) (hne : ~~~ x ≠ 0) (hi : i < w) :
    x.getLsbD i = decide (i < (~~~ x).ctz.toNat) := by
  have hnot : ∀ j, j < w → (~~~ x).getLsbD j = !x.getLsbD j := by
    intro j hj
    rw [BitVec.getLsbD_not, decide_eq_true hj, Bool.true_and]
  by_cases hlt : i < (~~~ x).ctz.toNat
  · have hz := hnot i hi
    rw [BitVec.getLsbD_false_of_lt_ctz hlt] at hz
    rw [decide_eq_true hlt]
    cases hx : x.getLsbD i
    · rw [hx] at hz
      exact hz
    · rfl
  · rw [decide_eq_false hlt]
    have htop : (~~~ x).getLsbD (~~~ x).ctz.toNat = true := BitVec.getLsbD_true_ctz_of_ne_zero hne
    rcases Nat.eq_or_lt_of_le (Nat.le_of_not_lt hlt) with heq | hgt
    · rw [heq, hnot i hi] at htop
      simpa using htop
    · have hz : x.getLsbD (~~~ x).ctz.toNat = false := by
        rw [hnot _ (by omega)] at htop
        simpa using htop
      have hand := congrArg (·.getLsbD i) h
      simp only [BitVec.getLsbD_and, getLsbD_add_one hz hgt hi, Bool.and_self] at hand
      rw [hand]
      exact BitVec.getLsbD_zero

/-! ### Linear functions of words -/

/-- Linear over the field of two elements. -/
def XorLinear {n m : ℕ} (f : BitVec n → BitVec m) : Prop := ∀ x y, f (x ^^^ y) = f x ^^^ f y

namespace XorLinear

variable {n m k : ℕ} {f g : BitVec n → BitVec m}

theorem map_zero (hf : XorLinear f) : f 0 = 0 := by
  have h := hf 0 0
  rwa [BitVec.xor_self, BitVec.xor_self] at h

/-- **Linear functions that agree on the words with one bit are equal.** -/
theorem ext (hf : XorLinear f) (hg : XorLinear g)
    (h : ∀ i, i < n → f (.twoPow n i) = g (.twoPow n i)) (x : BitVec n) : f x = g x := by
  -- for the words below bit `k`, by induction on `k`
  have hlow : ∀ k, k ≤ n → ∀ x : BitVec n, (∀ i, k ≤ i → x.getLsbD i = false) → f x = g x := by
    intro k
    induction k with
    | zero =>
      intro _ x hx
      obtain rfl : x = 0 := BitVec.eq_of_getLsbD_eq fun i _ =>
        (hx i (Nat.zero_le i)).trans BitVec.getLsbD_zero.symm
      rw [hf.map_zero, hg.map_zero]
    | succ k ih =>
      intro hk x hx
      cases hbit : x.getLsbD k with
      | false =>
        refine ih (by omega) x fun i hi => ?_
        rcases Nat.eq_or_lt_of_le hi with rfl | hi
        · exact hbit
        · exact hx i hi
      | true =>
        have hsplit : x = (x ^^^ .twoPow n k) ^^^ .twoPow n k := by
          rw [BitVec.xor_assoc, BitVec.xor_self, BitVec.xor_zero]
        rw [hsplit, hf, hg, h k hk, ih (by omega)]
        intro i hi
        rw [BitVec.getLsbD_xor, BitVec.getLsbD_twoPow]
        rcases Nat.eq_or_lt_of_le hi with rfl | hi
        · simp [hbit]; omega
        · simp [hx i hi]; omega
  exact hlow n le_rfl x fun i hi => BitVec.getLsbD_of_ge x i hi

end XorLinear

end FastPPC
