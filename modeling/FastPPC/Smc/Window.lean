import FastPPC.Arith.Word

/-!
# Host windows that materialise a constant

The PPC64LE backend bakes a guest address or a guest immediate into a block with a fixed window of
five instructions (`LoadImm64Fixed`).  `SMCSemanticPatch.h` reproduces the five words
(`SynthesizeRIPWindow`) to recognise a window and to patch it.

* `run_synthesizeRIPWindow` : executing the window leaves the constant in its register.
* `synthesizeRIPWindow_injective` : the words determine the register and the constant.

Words and registers are natural numbers; an instruction is the sum of its fields, which do not
overlap.
-/

namespace FastPPC.Smc

open Function

/-! ### The instructions of a window -/

/-- The instructions that occur in a window. -/
inductive Instr
  | addis (rt ra imm : ℕ)
  | ori (ra rs imm : ℕ)
  | oris (ra rs imm : ℕ)
  | rldicr (ra rs sh me : ℕ)
  | other
  deriving DecidableEq

/-- Decode a word; bits are numbered from the least significant one. -/
def decode (w : ℕ) : Instr :=
  let r1 := w / 2 ^ 21 % 32
  let r2 := w / 2 ^ 16 % 32
  match w / 2 ^ 26 with
  | 15 => .addis r1 r2 (w % 2 ^ 16)
  | 24 => .ori r2 r1 (w % 2 ^ 16)
  | 25 => .oris r2 r1 (w % 2 ^ 16)
  | 30 =>
    if w / 4 % 8 = 1 then
      .rldicr r2 r1 (w / 2 ^ 11 % 32 + 32 * (w / 2 % 2)) (w / 2 ^ 6 % 32 + 32 * (w / 2 ^ 5 % 2))
    else .other
  | _ => .other

/-- A 16-bit immediate as a 64-bit value. -/
def signExtend16 (imm : ℕ) : ℕ := if imm < 2 ^ 15 then imm else word - 2 ^ 16 + imm

def rotateLeft (x sh : ℕ) : ℕ := x * 2 ^ sh % word + x / 2 ^ (64 - sh)

def Instr.exec (regs : ℕ → ℕ) : Instr → ℕ → ℕ
  | .addis rt ra imm =>
    update regs rt (wadd (if ra = 0 then 0 else regs ra) (signExtend16 imm * 2 ^ 16))
  | .ori ra rs imm => update regs ra (regs rs ||| imm)
  | .oris ra rs imm => update regs ra (regs rs ||| imm * 2 ^ 16)
  | .rldicr ra rs sh me =>
    -- the bits from the most significant one down to bit `63 - me` are kept
    update regs ra (rotateLeft (regs rs) sh / 2 ^ (63 - me) * 2 ^ (63 - me))
  | .other => regs

def run (regs : ℕ → ℕ) (words : List ℕ) : ℕ → ℕ :=
  words.foldl (fun regs w => (decode w).exec regs) regs

theorem run_nil (regs : ℕ → ℕ) : run regs [] = regs := rfl

theorem run_cons (regs : ℕ → ℕ) (w : ℕ) (words : List ℕ) :
    run regs (w :: words) = run ((decode w).exec regs) words := rfl

/-! ### The window -/

variable {rt imm : ℕ} {regs : ℕ → ℕ}

def dForm (op rt ra imm : ℕ) : ℕ := op * 2 ^ 26 + rt * 2 ^ 21 + ra * 2 ^ 16 + imm

/-- `lis`, `ori`, `sldi 32`, `oris`, `ori` with the four half-words of a constant. -/
def windowWords (rt hh hl lh ll : ℕ) : List ℕ :=
  [dForm 15 rt 0 hh, dForm 24 rt rt hl, dForm 30 rt rt (31 * 2 ^ 6 + 1 * 2 ^ 2 + 1 * 2),
    dForm 25 rt rt lh, dForm 24 rt rt ll]

def synthesizeRIPWindow (regIdx rip : ℕ) : List ℕ :=
  windowWords (regIdx % 32) (rip / 2 ^ 32 % 2 ^ 32 / 2 ^ 16) (rip / 2 ^ 32 % 2 ^ 32 % 2 ^ 16)
    (rip % 2 ^ 32 / 2 ^ 16) (rip % 2 ^ 32 % 2 ^ 16)

def ripWindowRegIdx (word0 : ℕ) : ℕ := word0 / 2 ^ 21 % 32

/-- The fields of a D-form instruction are read back. -/
theorem dForm_fields (op : ℕ) {ra : ℕ} (hrt : rt < 32) (hra : ra < 32) (himm : imm < 2 ^ 16) :
    dForm op rt ra imm / 2 ^ 26 = op ∧ dForm op rt ra imm / 2 ^ 21 % 32 = rt ∧
      dForm op rt ra imm / 2 ^ 16 % 32 = ra ∧ dForm op rt ra imm % 2 ^ 16 = imm := by
  unfold dForm
  omega

theorem decode_sldi (hrt : rt < 32) :
    decode (dForm 30 rt rt (31 * 2 ^ 6 + 1 * 2 ^ 2 + 1 * 2)) = .rldicr rt rt 32 31 := by
  have himm : 31 * 2 ^ 6 + 1 * 2 ^ 2 + 1 * 2 < 2 ^ 16 := by decide
  obtain ⟨hop, h1, h2, h3⟩ := dForm_fields 30 hrt hrt himm
  generalize dForm 30 rt rt (31 * 2 ^ 6 + 1 * 2 ^ 2 + 1 * 2) = w at *
  have hxo : w / 4 % 8 = 1 := by omega
  have hsh : w / 2 ^ 11 % 32 + 32 * (w / 2 % 2) = 32 := by omega
  have hme : w / 2 ^ 6 % 32 + 32 * (w / 2 ^ 5 % 2) = 31 := by omega
  simp only [decode, hop, h1, h2, hxo, hsh, hme, if_true]

section

variable (hrt : rt < 32) (himm : imm < 2 ^ 16)
include hrt himm

theorem decode_addis : decode (dForm 15 rt 0 imm) = .addis rt 0 imm := by
  obtain ⟨hop, h1, h2, h3⟩ := dForm_fields 15 hrt (Nat.zero_lt_succ 31) himm
  simp only [decode, hop, h1, h2, h3]

theorem decode_ori : decode (dForm 24 rt rt imm) = .ori rt rt imm := by
  obtain ⟨hop, h1, h2, h3⟩ := dForm_fields 24 hrt hrt himm
  simp only [decode, hop, h1, h2, h3]

theorem decode_oris : decode (dForm 25 rt rt imm) = .oris rt rt imm := by
  obtain ⟨hop, h1, h2, h3⟩ := dForm_fields 25 hrt hrt himm
  simp only [decode, hop, h1, h2, h3]

theorem exec_ori {x : ℕ} (hx : regs rt = 2 ^ 16 * x) :
    (decode (dForm 24 rt rt imm)).exec regs rt = 2 ^ 16 * x + imm := by
  rw [decode_ori hrt himm, Instr.exec, update_self, hx, ← Nat.two_pow_add_eq_or_of_lt himm]

theorem exec_oris {x : ℕ} (hx : regs rt = 2 ^ 32 * x) :
    (decode (dForm 25 rt rt imm)).exec regs rt = 2 ^ 16 * (2 ^ 16 * x + imm) := by
  have hlt : imm * 2 ^ 16 < 2 ^ 32 := by omega
  rw [decode_oris hrt himm, Instr.exec, update_self, hx, ← Nat.two_pow_add_eq_or_of_lt hlt]
  omega

end

/-- `sldi 32` drops the upper half of the register. -/
theorem exec_sldi {y : ℕ} (hrt : rt < 32) (hy : regs rt = y) (hlt : y < 2 ^ 64) :
    (decode (dForm 30 rt rt (31 * 2 ^ 6 + 1 * 2 ^ 2 + 1 * 2))).exec regs rt =
      2 ^ 32 * (y % 2 ^ 32) := by
  rw [decode_sldi hrt, Instr.exec, update_self, hy]
  unfold rotateLeft word
  omega

section

variable (regs : ℕ → ℕ) (hrt : rt < 32)
include hrt

/-- `lis` leaves the immediate in the upper half-word of the lower word, and above it copies of
its sign. -/
theorem exec_lis {hh : ℕ} (hhh : hh < 2 ^ 16) :
    ∃ x, x % 2 ^ 16 = hh ∧ x < 2 ^ 48 ∧ (decode (dForm 15 rt 0 hh)).exec regs rt = 2 ^ 16 * x := by
  rw [decode_addis hrt hhh, Instr.exec, update_self, if_pos rfl]
  unfold wadd signExtend16 word
  split
  · exact ⟨hh, by omega, by omega, by omega⟩
  · exact ⟨2 ^ 48 - 2 ^ 16 + hh, by omega, by omega, by omega⟩

theorem run_windowWords {hh hl lh ll : ℕ} (hhh : hh < 2 ^ 16) (hhl : hl < 2 ^ 16)
    (hlh : lh < 2 ^ 16) (hll : ll < 2 ^ 16) :
    run regs (windowWords rt hh hl lh ll) rt =
      2 ^ 16 * (2 ^ 16 * (2 ^ 16 * hh + hl) + lh) + ll := by
  obtain ⟨x, hx, hx', h1⟩ := exec_lis regs hrt hhh
  have h2 := exec_ori hrt hhl h1
  have h3 := exec_sldi hrt h2 (by omega)
  have hmod : (2 ^ 16 * x + hl) % 2 ^ 32 = 2 ^ 16 * hh + hl := by omega
  rw [hmod] at h3
  rw [windowWords, run_cons, run_cons, run_cons, run_cons, run_cons, run_nil]
  exact exec_ori hrt hll (exec_oris hrt hlh h3)

/-- **Executing the window** leaves the constant in its register. -/
theorem run_synthesizeRIPWindow {v : ℕ} (hv : v < word) :
    run regs (synthesizeRIPWindow rt v) rt = v := by
  unfold word at hv
  unfold synthesizeRIPWindow
  rw [Nat.mod_eq_of_lt hrt, run_windowWords regs hrt (by omega) (by omega) (by omega) (by omega)]
  omega

end

theorem ripWindowRegIdx_synthesize (v : ℕ) (hrt : rt < 32) :
    ripWindowRegIdx ((synthesizeRIPWindow rt v).headD 0) = rt := by
  unfold synthesizeRIPWindow windowWords ripWindowRegIdx
  rw [Nat.mod_eq_of_lt hrt, List.headD_cons]
  exact (dForm_fields 15 hrt (Nat.zero_lt_succ 31) (by omega)).2.1

/-- **The words of a window determine its register and its constant.** -/
theorem synthesizeRIPWindow_injective :
    Function.Injective fun p : Fin 32 × Fin word => synthesizeRIPWindow p.1 p.2 := by
  rintro ⟨rt, v⟩ ⟨rt', v'⟩ (heq : synthesizeRIPWindow rt v = synthesizeRIPWindow rt' v')
  obtain rfl : rt = rt' := by
    apply Fin.ext
    rw [← ripWindowRegIdx_synthesize v rt.isLt, heq, ripWindowRegIdx_synthesize v' rt'.isLt]
  obtain rfl : v = v' := by
    apply Fin.ext
    rw [← run_synthesizeRIPWindow (fun _ => 0) rt.isLt v.isLt, heq,
      run_synthesizeRIPWindow _ rt.isLt v'.isLt]
  rfl

end FastPPC.Smc
