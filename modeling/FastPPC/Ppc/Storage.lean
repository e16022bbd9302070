import FastPPC.Codec.LittleEndian

/-!
# Storage

Byte storage under 64-bit addresses, with the little-endian loads and stores of the processor.
Addresses wrap around; a field is given by its first byte and its length.

* `load m a n`, `store m a n v` : the number in the `n` bytes at `a`, and its replacement;
* `store_apart` : a store changes its own bytes only; `not_inField_slot` : two slots of one frame
  that do not overlap are apart;
* `blocked` : the first byte of a field that may not be written.
-/

namespace FastPPC.Ppc

open BitVec

variable {a x : BitVec 64} {n : ℕ}

open Codec (Byte leBytes leValue)

abbrev Storage := BitVec 64 → Byte

def bytesAt (m : Storage) : BitVec 64 → ℕ → List Byte
  | _, 0 => []
  | a, n + 1 => m a :: bytesAt m (a + 1) n

def load (m : Storage) (a : BitVec 64) (n : ℕ) : ℕ := leValue (bytesAt m a n)

/-- The address lies in the field of length `n` at `a`. -/
def InField (a : BitVec 64) (n : ℕ) (x : BitVec 64) : Prop := (x - a).toNat < n

instance (a : BitVec 64) (n : ℕ) (x : BitVec 64) : Decidable (InField a n x) :=
  inferInstanceAs (Decidable ((x - a).toNat < n))

def store (m : Storage) (a : BitVec 64) (n v : ℕ) : Storage := fun x =>
  if InField a n x then BitVec.ofNat 8 (v / 256 ^ (x - a).toNat) else m x

/-- The first byte of a field that may not be written. -/
def blocked (mayWrite : BitVec 64 → Bool) : BitVec 64 → ℕ → Option (BitVec 64)
  | _, 0 => none
  | a, n + 1 => if mayWrite a then blocked mayWrite (a + 1) n else some a

theorem store_apart (m : Storage) (v : ℕ) (h : ¬ InField a n x) : store m a n v x = m x := if_neg h

theorem store_congr {m m' : Storage} {v : ℕ} (h : m x = m' x) :
    store m a n v x = store m' a n v x := by
  unfold store
  rw [h]

/-! ### Fields of a frame -/

variable {k : ℕ}

theorem toNat_sub_add_ofNat (a : BitVec 64) (h : k < 2 ^ 64) :
    (a + BitVec.ofNat 64 k - a).toNat = k := by
  rw [BitVec.add_comm, BitVec.add_sub_cancel, toNat_ofNat, Nat.mod_eq_of_lt h]

theorem inField_offset (a : BitVec 64) (h : k < 2 ^ 64) :
    InField a n (a + BitVec.ofNat 64 k) ↔ k < n := by
  unfold InField
  rw [toNat_sub_add_ofNat a h]

theorem exists_offset (h : InField a n x) : ∃ k < n, x = a + BitVec.ofNat 64 k := by
  refine ⟨(x - a).toNat, h, ?_⟩
  rw [ofNat_toNat, setWidth_eq, BitVec.add_comm, BitVec.sub_add_cancel]

theorem toNat_sub_slots (sp : BitVec 64) {j : ℕ} (hk : k ≤ j) (hj : j < 2 ^ 64) :
    (sp + BitVec.ofNat 64 j - (sp + BitVec.ofNat 64 k)).toNat = j - k := by
  have hspl : BitVec.ofNat 64 j = BitVec.ofNat 64 k + BitVec.ofNat 64 (j - k) := by
    rw [← ofNat_add, Nat.add_sub_cancel' hk]
  rw [hspl, ← BitVec.add_assoc]
  exact toNat_sub_add_ofNat _ (by omega)

/-- The bytes of one slot of a frame lie outside another. -/
theorem not_inField_slot (sp : BitVec 64) {j : ℕ} (hj : j < 2 ^ 64) (hk : k < 2 ^ 64)
    (h : j < k ∧ n ≤ 2 ^ 64 - k ∨ k + n ≤ j) :
    ¬ InField (sp + BitVec.ofNat 64 k) n (sp + BitVec.ofNat 64 j) := by
  unfold InField
  rw [Nat.not_lt]
  obtain ⟨hlt, hn⟩ | hle := h
  · have hneg : sp + BitVec.ofNat 64 j - (sp + BitVec.ofNat 64 k) =
        -(sp + BitVec.ofNat 64 k - (sp + BitVec.ofNat 64 j)) := by
      rw [BitVec.neg_sub, BitVec.sub_eq_add_neg, BitVec.add_comm]
    have hd := toNat_sub_slots sp hlt.le hk
    rw [hneg, toNat_neg, hd]
    rw [Nat.mod_eq_of_lt (by omega)]
    omega
  · rw [toNat_sub_slots sp (by omega) hj]
    omega

/-! ### Fields that may be written -/

end FastPPC.Ppc
