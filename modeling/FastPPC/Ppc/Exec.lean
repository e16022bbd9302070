import FastPPC.Ppc.Alu
import FastPPC.Ppc.Storage

/-!
# Executing code

Loads, stores and branches over the fixed-point instructions of `Alu`.

* `Store` : the stores of general registers, with their decoding from an instruction word;
* `Op` : the instructions that do not branch, over registers and storage;
* `Instr` : all instructions, with branches given by their displacement fields.
-/

namespace FastPPC.Ppc

/-- General registers, the vector registers (`v0`–`v31`), the low vector-scalar registers
(`vs0`–`vs31`) and storage. -/
structure Core where
  regs : Regs
  vr : Fin 32 → BitVec 128
  vsr : Fin 32 → BitVec 128
  mem : Storage

/-- An access that is not allowed: the first such byte, and storage at that moment. -/
structure Fault where
  address : BitVec 64
  mem : Storage

namespace Core

variable (mayWrite : BitVec 64 → Bool) (c : Core)

def set (rt : Reg) (v : BitVec 64) : Core := { c with regs := c.regs.set rt v }

def setLr (a : BitVec 64) : Core := { c with regs := { c.regs with lr := a } }

/-- Store the `n` low bytes of a number; nothing is stored if one of them may not be. -/
def write (a : BitVec 64) (n v : ℕ) : Except Fault Core :=
  match blocked mayWrite a n with
  | some x => .error ⟨x, c.mem⟩
  | none => .ok { c with mem := store c.mem a n v }

/-- The number in a field, as a register gets it. -/
def read (a : BitVec 64) (n : ℕ) : BitVec 64 := BitVec.ofNat 64 (load c.mem a n)

end Core

/-! ### Stores of general registers -/

/-- What a store adds to its base register. -/
inductive Offset
  | disp (d : BitVec 16)
  | index (rb : Reg)
  deriving DecidableEq

structure Store where
  width : ℕ
  update : Bool
  rs : Reg
  ra : Reg
  offset : Offset
  deriving DecidableEq

namespace Store

def address (st : Store) (r : Regs) : BitVec 64 :=
  match st.offset with
  | .disp d => r.base st.ra + d.signExtend 64
  | .index rb => r.base st.ra + r.gpr rb

/-- Store, and write the address to the base register in the update forms. -/
def exec (mayWrite : BitVec 64 → Bool) (st : Store) (c : Core) : Except Fault Core :=
  let a := st.address c.regs
  (c.write mayWrite a st.width (c.regs.gpr st.rs).toNat).map fun c' =>
    if st.update then c'.set st.ra a else c'

end Store

def swapDw (x : BitVec 128) : BitVec 128 := x.setWidth 64 ++ (x >>> 64).setWidth 64

/-- The instructions that do not branch. -/
inductive Op
  | alu (i : Alu)
  | store (st : Store)
  | ld (rt ra : Reg) (ds : BitVec 16)
  | lbzx (rt ra rb : Reg)
  | stvx (vrs : Fin 32) (ra rb : Reg)
  | lvx (vrt : Fin 32) (ra rb : Reg)
  | stxvd2x (xs : Fin 32) (ra rb : Reg)
  | lxvd2x (xt : Fin 32) (ra rb : Reg)
  deriving DecidableEq

def Op.exec (mayWrite : BitVec 64 → Bool) (c : Core) : Op → Except Fault Core
  | alu i => .ok { c with regs := i.exec c.regs }
  | store st => st.exec mayWrite c
  | ld rt ra ds => .ok (c.set rt (c.read (c.regs.base ra + ds.signExtend 64) 8))
  | lbzx rt ra rb => .ok (c.set rt (c.read (c.regs.base ra + c.regs.gpr rb) 1))
  -- the vector forms ignore the low bits of the address
  | stvx vrs ra rb =>
    c.write mayWrite ((c.regs.base ra + c.regs.gpr rb) &&& ~~~ 15) 16 (c.vr vrs).toNat
  | lvx vrt ra rb =>
    let x := BitVec.ofNat 128 (load c.mem ((c.regs.base ra + c.regs.gpr rb) &&& ~~~ 15) 16)
    .ok { c with vr := Function.update c.vr vrt x }
  -- doubleword 0 comes first in storage
  | stxvd2x xs ra rb =>
    c.write mayWrite (c.regs.base ra + c.regs.gpr rb) 16 (swapDw (c.vsr xs)).toNat
  | lxvd2x xt ra rb =>
    let x := BitVec.ofNat 128 (load c.mem (c.regs.base ra + c.regs.gpr rb) 16)
    .ok { c with vsr := Function.update c.vsr xt (swapDw x) }

/-! ### Branches -/

inductive Instr
  | op (o : Op)
  /-- `b` and `bl` -/
  | b (lk : Bool) (li : BitVec 24)
  /-- `bc` on a condition bit that is set -/
  | bt (bi : ℕ) (bd : BitVec 14)
  | bctrl
  | blr
  deriving DecidableEq

structure State where
  pc : BitVec 64
  core : Core

/-- A displacement field counts words. -/
def displacement {n : ℕ} (field : BitVec n) : BitVec 64 := (field ++ 0#2).signExtend 64

def Instr.exec (mayWrite : BitVec 64 → Bool) (s : State) : Instr → Except Fault State
  | op o => (o.exec mayWrite s.core).map (State.mk (s.pc + 4))
  | b lk li => .ok ⟨s.pc + displacement li, if lk then s.core.setLr (s.pc + 4) else s.core⟩
  | bt bi bd =>
    .ok ⟨if s.core.regs.crBit bi then s.pc + displacement bd else s.pc + 4, s.core⟩
  | bctrl => .ok ⟨s.core.regs.ctr &&& ~~~ 3, s.core.setLr (s.pc + 4)⟩
  | blr => .ok ⟨s.core.regs.lr &&& ~~~ 3, s.core⟩

end FastPPC.Ppc
