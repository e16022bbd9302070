import FastPPC.Jit.FlagLowering

/-!
# Lowerings that use vector registers

* `VecState`, `VecInstr` : the vector-scalar registers by doublewords, and the instructions;
* `VecState.exec`, `VecState.run` : what they do.
-/

namespace FastPPC.Jit

open Ppc

/-- The product of two polynomials over the field of two elements. -/
def clmul (a b : BitVec 64) : BitVec 128 :=
  (List.range 64).foldr (fun i r => (if a.getLsbD i then b.setWidth 128 <<< i else 0) ^^^ r) 0

instance neZero_vsr : NeZero 64 := ⟨by decide⟩

structure VecState where
  regs : Regs
  vs : Fin 64 → BitVec 64 × BitVec 64

inductive VecInstr
  | alu (i : Alu)
  | cntlzd (ra rs : Reg)
  | sld (ra rs rb : Reg)
  /-- Doubleword 1 is undefined. -/
  | mtvsrd (xt : Fin 64) (ra : Reg) (undefined : BitVec 64)
  | mfvsrd (rt : Reg) (xs : Fin 64)
  | xxpermdi (xt xa xb : Fin 64) (dm : BitVec 2)
  /-- By eight bytes. -/
  | vsldoi8 (xt xa xb : Fin 64)
  | vpmsumd (xt xa xb : Fin 64)
  /-- `EmitLoadPPC64VConst`, which leaves an address in two registers. -/
  | loadVConst (xt : Fin 64) (c : BitVec 64 × BitVec 64) (base off : Reg) (table offset : BitVec 64)

namespace VecState

variable (s : VecState)

def set (rt : Reg) (x : BitVec 64) : VecState := { s with regs := s.regs.set rt x }

def setVs (xt : Fin 64) (x : BitVec 64 × BitVec 64) : VecState :=
  { s with vs := Function.update s.vs xt x }

def exec : VecInstr → VecState
  | .alu i => { s with regs := i.exec s.regs }
  | .cntlzd ra rs => s.set ra (s.regs.gpr rs).clz
  | .sld ra rs rb => s.set ra (s.regs.gpr rs <<< ((s.regs.gpr rb).toNat % 128))
  | .mtvsrd xt ra u => s.setVs xt (s.regs.gpr ra, u)
  | .mfvsrd rt xs => s.set rt (s.vs xs).1
  | .xxpermdi xt xa xb dm =>
    s.setVs xt (if dm.getLsbD 1 then (s.vs xa).2 else (s.vs xa).1,
      if dm.getLsbD 0 then (s.vs xb).2 else (s.vs xb).1)
  | .vsldoi8 xt xa xb => s.setVs xt ((s.vs xa).2, (s.vs xb).1)
  | .vpmsumd xt xa xb =>
    let sum := clmul (s.vs xa).1 (s.vs xb).1 ^^^ clmul (s.vs xa).2 (s.vs xb).2
    s.setVs xt (sum.extractLsb' 64 64, sum.extractLsb' 0 64)
  | .loadVConst xt c base off table offset => ((s.setVs xt c).set base table).set off offset

def run (is : List VecInstr) : VecState := is.foldl exec s

end VecState

@[simp] abbrev vtmp1 : Fin 64 := 62

@[simp] abbrev vtmp2 : Fin 64 := 63

section

variable (ra rs rb : Reg)

def or_ : VecInstr := .alu (.logic .or false ra rs rb)

def xor_ : VecInstr := .alu (.logic .xor false ra rs rb)

def rldicl (sh mb : ℕ) : VecInstr := .alu (.rldicl false ra rs sh mb)

end

end FastPPC.Jit
