import FastPPC.Arith.BitVec
import FastPPC.Codec.Memory

/-!
# Variable-length pairs

`vl64pair` stores a pair of 64-bit numbers, the distance of a record from the one before it in
host and in guest code, in one of four formats of 1, 2, 9 or 17 bytes; the first byte tells
which.

* `encode` and `decode` are the two directions, `decode` reading from a memory;
* `decode_encode` : what was encoded is decoded, for every pair of 64-bit numbers.
-/

namespace FastPPC.Rip

open Codec BitVec

/-- What `Decode` returns: the pair and the length of its encoding. -/
structure Decoded where
  integerARMPC : BitVec 64
  integerX86RIP : BitVec 64
  size : ℕ
  deriving DecidableEq

variable (dataArm dataRip : BitVec 64)

/-- Two small positive numbers, the first a multiple of four. -/
def canEncodeVl8 : Bool :=
  decide (1 ≤ dataRip.toNat ∧ dataRip.toNat ≤ 8) && dataArm &&& 3 == 0 &&
    decide (1 ≤ (dataArm >>> 2).toNat ∧ (dataArm >>> 2).toNat ≤ 16)

/-- Two small signed numbers, the first a multiple of four. -/
def canEncodeVl16 : Bool :=
  decide (-32 ≤ dataRip.toInt ∧ dataRip.toInt ≤ 31) && dataArm &&& 3 == 0 &&
    decide (-128 ≤ (dataArm.sshiftRight 2).toInt ∧ (dataArm.sshiftRight 2).toInt ≤ 127)

/-- Two numbers of 32 bits. -/
def canEncodeVl32 : Bool :=
  decide (-2147483648 ≤ dataRip.toInt ∧ dataRip.toInt ≤ 2147483647) &&
    decide (-2147483648 ≤ dataArm.toInt ∧ dataArm.toInt ≤ 2147483647)

-- The bit fields of one byte are allocated from its low end, so the first field of the struct is
-- the last part of the concatenation.
def vl8Enc (integerARMPC : BitVec 4) (integerX86RIP : BitVec 3) : Byte :=
  (0 : BitVec 1) ++ integerX86RIP ++ integerARMPC

def vl16HighBits (integerX86RIP : BitVec 6) : Byte := (2 : BitVec 2) ++ integerX86RIP

def encode : List Byte :=
  if canEncodeVl8 dataArm dataRip then
    [vl8Enc (((dataArm - 1) >>> 2).setWidth 4) ((dataRip - 1).setWidth 3)]
  else if canEncodeVl16 dataArm dataRip then
    [vl16HighBits (dataRip.setWidth 6), (dataArm.sshiftRight 2).setWidth 8]
  else if canEncodeVl32 dataArm dataRip then
    0xC0 :: (leBytes 4 (dataArm.setWidth 32).toNat ++ leBytes 4 (dataRip.setWidth 32).toNat)
  else
    0xE0 :: (leBytes 8 dataArm.toNat ++ leBytes 8 dataRip.toNat)

def decodeVl8 (enc : Byte) : Decoded where
  integerARMPC := ((enc.extractLsb' 0 4).setWidth 64 + 1) <<< 2
  integerX86RIP := (enc.extractLsb' 4 3).setWidth 64 + 1
  size := 1

def decodeVl16 (highBits integerARMPC : Byte) : Decoded where
  integerARMPC := ((integerARMPC.signExtend 32) <<< 2).signExtend 64
  integerX86RIP := (highBits.extractLsb' 0 6).signExtend 64
  size := 2

/-- The `int32_t` at an offset, as an `int64_t`. -/
def readInt32 (data : Memory) (off : ℕ) : BitVec 64 :=
  (BitVec.ofNat 32 (readLe data off 4)).signExtend 64

def decode (data : Memory) (off : ℕ) : Decoded :=
  if (data off).extractLsb' 7 1 == 0 then decodeVl8 (data off)
  else if (data off).extractLsb' 6 2 == 2 then decodeVl16 (data off) (data (off + 1))
  else if data off == 0xC0 then
    { integerARMPC := readInt32 data (off + 1), integerX86RIP := readInt32 data (off + 5),
      size := 9 }
  else
    { integerARMPC := BitVec.ofNat 64 (readLe data (off + 1) 8)
      integerX86RIP := BitVec.ofNat 64 (readLe data (off + 9) 8)
      size := 17 }

/-! ### The fields -/

/-- Shifting back a multiple of four. -/
theorem sshiftRight_shiftLeft {x : BitVec 64} (h : (x &&& 3 == 0) = true) :
    x.sshiftRight 2 <<< 2 = x := by
  have hbt : ∀ i, (x &&& 3).getLsbD i = false := by
    intro i
    rw [eq_of_beq h]
    exact getLsbD_zero
  ext i hi
  obtain _ | _ | i := i
  · have h0 : (x.getLsbD 0 && true) = false := by simpa using hbt 0
    simpa using h0.symm
  · have h1 : (x.getLsbD 1 && true) = false := by simpa using hbt 1
    simpa using h1.symm
  · have hlt : ¬ i + 1 + 1 < 2 := by omega
    have heq : 2 + (i + 1 + 1 - 2) = i + 1 + 1 := by omega
    rw [getElem_shiftLeft, getElem_sshiftRight, decide_eq_false hlt]
    simp only [heq, hi, dite_true, Bool.not_false, Bool.true_and]

/-- The product of a promoted byte by four fits. -/
theorem signExtend_shiftLeft (b : Byte) :
    ((b.signExtend 32) <<< 2).signExtend 64 = (b.signExtend 64) <<< 2 := by
  revert b
  decide

theorem readInt32_eq {data : Memory} {off : ℕ} {x : BitVec 64}
    (h : Holds data off (leBytes 4 (x.setWidth 32).toNat)) (hlo : -2147483648 ≤ x.toInt)
    (hhi : x.toInt ≤ 2147483647) : readInt32 data off = x := by
  rw [readInt32, h.readLe (x.setWidth 32).isLt, ofNat_toNat, setWidth_eq]
  exact signExtend_setWidth x (by decide) (by decide) (by omega) (by omega)

/-! ### The round trip -/

section

variable {data : Memory} {off : ℕ} {arm rip : BitVec 64}

theorem decodeVl8_vl8Enc (h : canEncodeVl8 arm rip = true) :
    decodeVl8 (vl8Enc (((arm - 1) >>> 2).setWidth 4) ((rip - 1).setWidth 3)) = ⟨arm, rip, 1⟩ := by
  -- both numbers are small: 16 host distances, 8 guest distances
  have hall : ∀ n : Fin 16, ∀ r : Fin 8,
      decodeVl8 (vl8Enc (((BitVec.ofNat 64 (4 * (n + 1)) - 1) >>> 2).setWidth 4)
        ((BitVec.ofNat 64 (r + 1) - 1).setWidth 3)) =
      ⟨BitVec.ofNat 64 (4 * (n + 1)), BitVec.ofNat 64 (r + 1), 1⟩ := by decide
  simp only [canEncodeVl8, Bool.and_eq_true, decide_eq_true_eq, toNat_ushiftRight] at h
  obtain ⟨⟨⟨hr1, hr8⟩, h3⟩, ha1, ha16⟩ := h
  have hmod : arm.toNat % 4 = 0 := by
    have h0 := congrArg BitVec.toNat (eq_of_beq h3)
    rw [toNat_and] at h0
    exact (Nat.and_two_pow_sub_one_eq_mod arm.toNat 2).symm.trans h0
  have harm : arm = BitVec.ofNat 64 (4 * (arm.toNat / 4 - 1 + 1)) := by
    apply eq_of_toNat_eq
    rw [toNat_ofNat]
    omega
  have hrip : rip = BitVec.ofNat 64 (rip.toNat - 1 + 1) := by
    apply eq_of_toNat_eq
    rw [toNat_ofNat]
    omega
  have := hall ⟨arm.toNat / 4 - 1, by omega⟩ ⟨rip.toNat - 1, by omega⟩
  rw [← harm, ← hrip] at this
  exact this

theorem decodeVl16_vl16HighBits (h : canEncodeVl16 arm rip = true) :
    decodeVl16 (vl16HighBits (rip.setWidth 6)) ((arm.sshiftRight 2).setWidth 8) =
      ⟨arm, rip, 2⟩ := by
  simp only [canEncodeVl16, Bool.and_eq_true, decide_eq_true_eq] at h
  obtain ⟨⟨⟨hrlo, hrhi⟩, h3⟩, halo, hahi⟩ := h
  have hrip : (rip.setWidth 6).signExtend 64 = rip :=
    signExtend_setWidth rip (by decide) (by decide) (by omega) (by omega)
  have harm : ((arm.sshiftRight 2).setWidth 8).signExtend 64 = arm.sshiftRight 2 :=
    signExtend_setWidth _ (by decide) (by decide) (by omega) (by omega)
  rw [decodeVl16, signExtend_shiftLeft, harm, sshiftRight_shiftLeft h3, vl16HighBits,
    extractLsb'_append_eq_right, hrip]

theorem vl8Enc_type (a : BitVec 4) (r : BitVec 3) : (vl8Enc a r).extractLsb' 7 1 = 0 := by
  revert a r
  decide

theorem vl16HighBits_type (r : BitVec 6) :
    (vl16HighBits r).extractLsb' 7 1 ≠ 0 ∧ (vl16HighBits r).extractLsb' 6 2 = 2 := by
  revert r
  decide

/-- **What was encoded is decoded**, whatever the two numbers are and whatever follows. -/
theorem decode_encode (h : Holds data off (encode arm rip)) :
    decode data off = ⟨arm, rip, (encode arm rip).length⟩ := by
  unfold encode at h ⊢
  split at h
  next h8 =>
    obtain ⟨h0, -⟩ := holds_cons.1 h
    rw [if_pos h8, decode, h0, vl8Enc_type, if_pos (by decide), decodeVl8_vl8Enc h8]
    rfl
  next h8 =>
    rw [if_neg h8]
    split at h
    next h16 =>
      obtain ⟨h0, h1⟩ := holds_cons.1 h
      obtain ⟨h1, -⟩ := holds_cons.1 h1
      obtain ⟨ht8, ht16⟩ := vl16HighBits_type (rip.setWidth 6)
      rw [if_pos h16, decode, h0, if_neg (by simpa using ht8), ht16, if_pos (by decide), h1,
        decodeVl16_vl16HighBits h16]
      rfl
    next h16 =>
      rw [if_neg h16]
      split at h
      next h32 =>
        obtain ⟨h0, h1⟩ := holds_cons.1 h
        obtain ⟨harm, hrip⟩ := holds_append.1 h1
        rw [length_leBytes] at hrip
        have hran := h32
        simp only [canEncodeVl32, Bool.and_eq_true, decide_eq_true_eq] at hran
        rw [if_pos h32, decode, h0, if_neg (by decide), if_neg (by decide), if_pos (by decide),
          readInt32_eq harm hran.2.1 hran.2.2, readInt32_eq hrip hran.1.1 hran.1.2]
        rfl
      next h32 =>
        obtain ⟨h0, h1⟩ := holds_cons.1 h
        obtain ⟨harm, hrip⟩ := holds_append.1 h1
        rw [length_leBytes] at hrip
        rw [if_neg h32, decode, h0, if_neg (by decide), if_neg (by decide), if_neg (by decide),
          harm.readLe arm.isLt, hrip.readLe rip.isLt, ofNat_toNat, ofNat_toNat,
          setWidth_eq, setWidth_eq]
        rfl

theorem encode_length_pos (arm rip : BitVec 64) : 0 < (encode arm rip).length := by
  unfold encode
  split
  · exact Nat.one_pos
  · split
    · exact Nat.two_pos
    · split <;> exact Nat.succ_pos _

end

end FastPPC.Rip
