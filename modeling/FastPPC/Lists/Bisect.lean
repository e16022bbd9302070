import Mathlib

/-!
# Bisection

The loop `while (Lo < Hi) { Mid = Lo + (Hi - Lo) / 2; if (p(Mid)) Lo = Mid + 1; else Hi = Mid; }`
finds the boundary of a predicate that holds on an initial segment of the indices.
-/

namespace FastPPC

/-- The bisection loop; every iteration shortens `[lo, hi)`, so `hi - lo` rounds are enough. -/
def bisect (p : ℕ → Bool) : ℕ → ℕ → ℕ → ℕ
  | 0, lo, _ => lo
  | fuel + 1, lo, hi =>
    if lo < hi then
      let mid := lo + (hi - lo) / 2
      if p mid then bisect p fuel (mid + 1) hi else bisect p fuel lo mid
    else lo

variable {p : ℕ → Bool}

/-- **The boundary.**  If `p` holds below `lo`, fails from `hi` on and holds on an initial
segment, the loop returns the first index below which `p` holds and from which it fails. -/
theorem bisect_spec (fuel lo hi n : ℕ) (hmn : ∀ i j, i ≤ j → j < n → p j = true → p i = true)
    (hn : hi ≤ n) (hlo : ∀ i < lo, p i = true) (hhi : ∀ i, hi ≤ i → i < n → p i = false)
    (hle : lo ≤ hi) (hfl : hi - lo ≤ fuel) :
    bisect p fuel lo hi ≤ n ∧ (∀ i < bisect p fuel lo hi, p i = true) ∧
      ∀ i, bisect p fuel lo hi ≤ i → i < n → p i = false := by
  induction fuel generalizing lo hi with
  | zero =>
    have heq : lo = hi := by omega
    subst heq
    exact ⟨hn, hlo, hhi⟩
  | succ fuel ih =>
    rw [bisect]
    split
    next hlt =>
      have hmid : lo + (hi - lo) / 2 < hi := by omega
      generalize hm : lo + (hi - lo) / 2 = mid at hmid
      dsimp only
      split
      next hp =>
        refine ih (mid + 1) hi hn ?_ hhi (by omega) (by omega)
        intro i hi'
        exact hmn i mid (by omega) (by omega) hp
      next hp =>
        refine ih lo mid (by omega) hlo ?_ (by omega) (by omega)
        intro i hi' hin
        by_contra hpi
        exact hp (hmn mid i hi' hin (by simpa using hpi))
    next hge =>
      have heq : lo = hi := by omega
      subst heq
      exact ⟨hn, hlo, hhi⟩

end FastPPC
