import Mathlib

/-!
# Little-endian numbers in byte strings

* `leBytes n v` : the `n` bytes of the number `v`, least significant first;
* `leValue bs` : the number a byte string stands for;
* `leValue_leBytes`, `leValue_take_append` : reading back what was written, alone and in front of
  other bytes.
-/

namespace FastPPC.Codec

abbrev Byte := BitVec 8

/-- The `n` low bytes of a number, least significant first. -/
def leBytes : ℕ → ℕ → List Byte
  | 0, _ => []
  | n + 1, v => BitVec.ofNat 8 v :: leBytes n (v / 256)

/-- The number a byte string stands for. -/
def leValue : List Byte → ℕ
  | [] => 0
  | b :: bs => b.toNat + 256 * leValue bs

@[simp]
theorem length_leBytes (n v : ℕ) : (leBytes n v).length = n := by
  induction n generalizing v with
  | zero => rfl
  | succ n ih => rw [leBytes, List.length_cons, ih]

/-- **Reading back a number that fits.** -/
theorem leValue_leBytes {n v : ℕ} (h : v < 256 ^ n) : leValue (leBytes n v) = v := by
  induction n generalizing v with
  | zero =>
    rw [Nat.pow_zero] at h
    exact (Nat.lt_one_iff.1 h).symm
  | succ n ih =>
    have hdiv : v / 256 < 256 ^ n := by
      rw [Nat.pow_succ] at h
      exact (Nat.div_lt_iff_lt_mul (by decide)).2 h
    rw [leBytes, leValue, ih hdiv, BitVec.toNat_ofNat]
    exact Nat.mod_add_div v 256

/-- Reading back a number in front of other bytes. -/
theorem leValue_take_append {n v : ℕ} (h : v < 256 ^ n) (bs : List Byte) :
    leValue ((leBytes n v ++ bs).take n) = v := by
  rw [List.take_left' (length_leBytes n v), leValue_leBytes h]

theorem drop_leBytes_append (n v : ℕ) (bs : List Byte) : (leBytes n v ++ bs).drop n = bs :=
  List.drop_left' (length_leBytes n v)

end FastPPC.Codec
