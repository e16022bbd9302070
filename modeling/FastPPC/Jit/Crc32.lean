import FastPPC.Jit.FlagWrites
import FastPPC.Jit.Vector

/-!
# The checksum instruction

`DEF_OP(CRC32)` reduces the operand modulo the polynomial of CRC-32C with two carry-less products,
all in the reflected order of bits.

* `crc32` : the instructions;
* `barrett` : what they compute, which is linear in both operands;
* `crc32_eq` : **the lowering computes the checksum** of `crc32c`;
* `crc32Buffer_eq` : **a buffer may be cut into pieces of any sizes**.
-/

namespace FastPPC.Jit

open Ppc

theorem ite_xor {n : ℕ} (p q : Bool) (c : BitVec n) :
    (if p ^^ q then c else 0) = (if p then c else 0) ^^^ (if q then c else 0) := by
  cases p <;> cases q <;> simp

theorem clmul_xor (x y b : BitVec 64) : clmul (x ^^^ y) b = clmul x b ^^^ clmul y b := by
  simp only [clmul]
  generalize List.range 64 = l
  induction l with
  | nil => simp
  | cons i l ih =>
    rw [List.foldr_cons, ih, BitVec.getLsbD_xor, ite_xor]
    simp only [List.foldr_cons]
    ac_rfl

/-! ### The checksum -/

/-- The polynomial without its leading term. -/
def castagnoli : BitVec 32 := 0x1EDC6F41

/-- One bit, least significant first. -/
def crcStep (crc : BitVec 32) : BitVec 32 :=
  crc >>> 1 ^^^ if crc.getLsbD 0 then castagnoli.reverse else 0

/-- The checksum after `n` bytes of a number, least significant first. -/
def crc32c (n : ℕ) (crc : BitVec 32) (val : BitVec 64) : BitVec 32 :=
  (List.range n).foldl
    (fun crc i => crcStep^[8] (crc ^^^ ((val >>> (8 * i)).setWidth 8).setWidth 32)) crc

theorem crcStep_xor (x y : BitVec 32) : crcStep (x ^^^ y) = crcStep x ^^^ crcStep y := by
  simp only [crcStep, BitVec.getLsbD_xor, ite_xor, BitVec.ushiftRight_xor_distrib]
  ac_rfl

theorem crc32c_xor (n : ℕ) (x x' : BitVec 32) (y y' : BitVec 64) :
    crc32c n (x ^^^ x') (y ^^^ y') = crc32c n x y ^^^ crc32c n x' y' := by
  simp only [crc32c]
  generalize List.range n = l
  induction l generalizing x x' with
  | nil => rfl
  | cons i l ih =>
    simp only [List.foldl_cons]
    rw [← ih, ← Function.Semiconj₂.iterate crcStep_xor]
    simp only [BitVec.ushiftRight_xor_distrib, BitVec.setWidth_xor]
    congr 2
    ac_rfl

/-! ### The instructions -/

/-- The entries of the constant pool that are used. -/
inductive VConst
  | crc32cMu | crc32cP

/-- A constant in a register: its second entry is doubleword 0. -/
def VConst.value : VConst → BitVec 64 × BitVec 64
  | crc32cMu => (0xA434F61C6F5389F8, 0)
  | crc32cP => (0x105EC76F1, 0)

/-- `VZERO_VSX`, of which only doubleword 0 is kept at zero. -/
@[simp] abbrev vzero : Fin 64 := 14

/-- `DEF_OP(CRC32)`; `u` has what the machine leaves undefined and the addresses in the pool. -/
def crc32 (size : OpSize) (dst src1 src2 : Reg) (u : ℕ → BitVec 64) : List VecInstr :=
  let bits := size.bits
  (if size = .i64Bit then [rldicl tmp1 src1 0 32, xor_ tmp1 tmp1 src2]
    else [xor_ tmp1 src1 src2, rldicl tmp1 tmp1 0 (64 - bits)]) ++
  [.mtvsrd vtmp1 tmp1 (u 0), .xxpermdi vtmp1 vtmp1 vzero 0b00,
    .loadVConst vtmp2 VConst.crc32cMu.value tmp3 tmp4 (u 1) (u 2), .vpmsumd vtmp1 vtmp1 vtmp2,
    .xxpermdi vtmp1 vtmp1 vtmp1 0b10, .mfvsrd tmp2 vtmp1, .alu (sldi tmp2 tmp2 1)] ++
  (if bits < 64 then [rldicl tmp2 tmp2 0 (64 - bits)] else []) ++
  [xor_ tmp2 tmp2 tmp1, .mtvsrd vtmp1 tmp2 (u 3), .xxpermdi vtmp1 vtmp1 vzero 0b00,
    .loadVConst vtmp2 VConst.crc32cP.value tmp3 tmp4 (u 4) (u 5), .vpmsumd vtmp1 vtmp1 vtmp2] ++
  if size = .i64Bit then [.mfvsrd tmp1 vtmp1, rldicl dst tmp1 0 32]
  else [.xxpermdi vtmp1 vtmp1 vtmp1 0b10, .mfvsrd tmp1 vtmp1] ++
    -- `dst` may be `src1`, which is read before
    if bits < 32 then [rldicl tmp2 src1 (64 - bits) (32 + bits), rldicl dst tmp1 (64 - bits) 32,
      xor_ dst dst tmp2]
    else [rldicl dst tmp1 (64 - bits) 32]

/-! ### What they compute -/

/-- `rldicl` as a function. -/
def rotlMask (sh mb me : ℕ) (x : BitVec 64) : BitVec 64 := x.rotateLeft sh &&& mask mb me

theorem rotlMask_xor (sh mb me : ℕ) (x y : BitVec 64) :
    rotlMask sh mb me (x ^^^ y) = rotlMask sh mb me x ^^^ rotlMask sh mb me y := by
  apply BitVec.eq_of_getLsbD_eq
  intro i hi
  simp only [rotlMask, BitVec.getLsbD_xor, BitVec.getLsbD_and, BitVec.getLsbD_rotateLeft]
  cases decide (i < sh % 64)
  · simp only [cond_false, Bool.and_xor_distrib_left, Bool.and_xor_distrib_right]
  · simp only [cond_true, Bool.and_xor_distrib_right]

/-- The number in `dst`, from the accumulator and the value. -/
def barrett (size : OpSize) (acc val : BitVec 64) : BitVec 64 :=
  let bits := size.bits
  let q := if size = .i64Bit then rotlMask 0 32 63 acc ^^^ val
    else rotlMask 0 (64 - bits) 63 (acc ^^^ val)
  let t1 := rotlMask 1 0 62 ((clmul q 0xA434F61C6F5389F8).extractLsb' 0 64)
  let t2 := clmul ((if bits < 64 then rotlMask 0 (64 - bits) 63 t1 else t1) ^^^ q) 0x105EC76F1
  if size = .i64Bit then rotlMask 0 32 63 (t2.extractLsb' 64 64)
  else rotlMask (64 - bits) 32 63 (t2.extractLsb' 0 64) ^^^
    if bits < 32 then rotlMask (64 - bits) (32 + bits) 63 acc else 0

theorem barrett_xor (size : OpSize) (x x' y y' : BitVec 64) :
    barrett size (x ^^^ x') (y ^^^ y') = barrett size x y ^^^ barrett size x' y' := by
  cases size <;>
  · simp [barrett, OpSize.bits, rotlMask_xor, clmul_xor, BitVec.extractLsb'_xor]
    ac_rfl

/-- **The reduction is the checksum.** -/
theorem barrett_eq (size : OpSize) (acc val : BitVec 64) :
    barrett size acc val = (crc32c (size.bits / 8) (acc.setWidth 32) val).setWidth 64 := by
  -- both are linear in the 128 bits of the operands
  have hlinear : ∀ x : BitVec 128, barrett size (x.extractLsb' 64 64) (x.extractLsb' 0 64) =
      (crc32c (size.bits / 8) ((x.extractLsb' 64 64).setWidth 32) (x.extractLsb' 0 64)).setWidth
        64 := by
    apply XorLinear.ext
    · intro x y
      simp only [BitVec.extractLsb'_xor, barrett_xor]
    · intro x y
      simp only [BitVec.extractLsb'_xor, BitVec.setWidth_xor, crc32c_xor]
    · cases size <;> decide +kernel
  have h := hlinear (acc ++ val)
  rwa [BitVec.extractLsb'_append_eq_left, BitVec.extractLsb'_append_eq_right] at h

theorem run_crc32 (size : OpSize) {dst src1 src2 : Reg} (hd : Allocated dst) (hs1 : Allocated src1)
    (hs2 : Allocated src2) (u : ℕ → BitVec 64) {s : VecState} (hs : (s.vs vzero).1 = 0) :
    (s.run (crc32 size dst src1 src2 u)).regs.gpr dst =
        barrett size (s.regs.gpr src1) (s.regs.gpr src2) ∧
      ((s.run (crc32 size dst src1 src2 u)).vs vzero).1 = 0 := by
  have h0 := (hd.ne (t := tmp2) (by decide)).symm
  have h1 : ∀ t : Reg, t.val < 7 → src1 ≠ t := fun _ => hs1.ne
  have h2 := hs2.ne (t := tmp1) (by decide)
  have hzero : clmul 0#64 0#64 = 0#128 := by decide
  cases size <;>
    simp [crc32, VecState.run, VecState.exec, VecState.set, VecState.setVs, xor_, rldicl, sldi,
      Alu.exec, Regs.result, OpSize.bits, barrett, rotlMask, VConst.value, LogicOp.eval, hs, h0, h1,
      h2, hzero]

/-- **The lowering computes the checksum**, whatever registers the operands and the result are
in. -/
theorem crc32_eq (size : OpSize) (dst src1 src2 : {a : Reg // Allocated a}) (u : ℕ → BitVec 64)
    (s : {s : VecState // (s.vs vzero).1 = 0}) :
    (s.val.run (crc32 size dst src1 src2 u)).regs.gpr dst =
      (crc32c (size.bits / 8) ((s.val.regs.gpr src1).setWidth 32) (s.val.regs.gpr src2)).setWidth
        64 := by
  rw [← barrett_eq]
  exact (run_crc32 size dst.2 src1.2 src2.2 u s.2).1

/-! ### A buffer in pieces -/

/-- A piece as one instruction accumulates it, `u` as in `crc32`. -/
structure Piece where
  size : OpSize
  val : BitVec 64
  u : ℕ → BitVec 64

def Piece.bytes (p : Piece) : List (BitVec 8) :=
  (List.range (p.size.bits / 8)).map fun i => (p.val >>> (8 * i)).setWidth 8

/-- Each piece is loaded and then accumulated in `dst`. -/
def crc32Buffer (dst src : Reg) (s : VecState) (pieces : List Piece) : VecState :=
  pieces.foldl (fun s p => (s.set src p.val).run (crc32 p.size dst dst src p.u)) s

/-- The checksum of a buffer, byte by byte. -/
def crc32cBytes : BitVec 32 → List (BitVec 8) → BitVec 32 :=
  List.foldl fun crc b => crcStep^[8] (crc ^^^ b.setWidth 32)

theorem crc32c_eq_bytes (p : Piece) (crc : BitVec 32) :
    crc32c (p.size.bits / 8) crc p.val = crc32cBytes crc p.bytes := by
  rw [crc32cBytes, Piece.bytes, List.foldl_map, crc32c]

/-- **Any way to cut a buffer into pieces gives the checksum of its bytes**, and the zero that the
instructions rely on is left. -/
theorem crc32Buffer_eq (dst : {a : Reg // Allocated a}) (src : {a : Reg // Allocated a ∧ dst ≠ a})
    (s : {s : VecState // (s.vs vzero).1 = 0}) (pieces : List Piece) :
    ((crc32Buffer dst src s pieces).regs.gpr dst).setWidth 32 =
        crc32cBytes ((s.val.regs.gpr dst).setWidth 32) (pieces.flatMap Piece.bytes) ∧
      ((crc32Buffer dst src s pieces).vs vzero).1 = 0 := by
  obtain ⟨s, hs⟩ := s
  induction pieces generalizing s with
  | nil => exact ⟨rfl, hs⟩
  | cons p pieces ih =>
    obtain ⟨hval, hzero⟩ := run_crc32 p.size dst.2 dst.2 src.2.1 p.u (s := s.set src p.val) hs
    rw [crc32Buffer, List.foldl_cons]
    refine (ih _ hzero).imp_left fun hrs => hrs.trans ?_
    simp only [hval, barrett_eq]
    simp [VecState.set, src.2.2, crc32c_eq_bytes, crc32cBytes]

end FastPPC.Jit
