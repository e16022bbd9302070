import Mathlib

/-!
# 64-bit unsigned arithmetic on natural numbers

Addresses, lengths and offsets are `uint64_t` in the source.  They are natural numbers here, and
the operations that can wrap say so.
-/

namespace FastPPC

/-- The number of values of a 64-bit word. -/
abbrev word : ℕ := 2 ^ 64

def wadd (a b : ℕ) : ℕ := (a + b) % word

def wsub (a b : ℕ) : ℕ := (a + (word - b % word)) % word

theorem wadd_eq {a b : ℕ} (h : a + b < word) : wadd a b = a + b := Nat.mod_eq_of_lt h

theorem wsub_eq {a b : ℕ} (ha : a < word) (h : b ≤ a) : wsub a b = a - b := by
  unfold wsub word at *; omega

theorem wadd_wadd (a b c : ℕ) : wadd (wadd a b) c = wadd a (b + c) := by
  unfold wadd word; omega

/-- Rebasing: the distance of `c` from `b` added to the value `a` of the base. -/
theorem wadd_wsub {a b c : ℕ} (hb : b ≤ c) : wadd (wsub a b) c = wadd a (c - b) := by
  unfold wadd wsub word at *; omega

end FastPPC
