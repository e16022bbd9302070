import Mathlib

/-!
# Classic BPF programs of seccomp filters

A guest installs a seccomp filter as a classic BPF program.  `BPFInterpreter::ValidateProgram`
decides which programs are accepted, and `BPFInterpreter::Execute` runs an accepted program on
the `seccomp_data` of a syscall.  `Execute` trusts the validation: it reads the data and the
scratch memory at the offsets of the program and follows its jumps without any check, so here
an access outside of them is an explicit `fault`, and the loop has as much fuel as the program
has instructions.

* `Program` : a program as it is installed, accepted and not too long;
* `step_inside` : an instruction of an accepted program faults nowhere and stays in the program;
* `analyzeFilterLoads` : which part of the data a program can load;
* `SeccompData.Agree.loop_eq` : the result of an accepted program depends only on that part.
-/

namespace FastPPC.Seccomp

open List Bool

/-! ### Instructions -/

structure SockFilter where
  code : BitVec 16
  jt : BitVec 8
  jf : BitVec 8
  k : BitVec 32
deriving DecidableEq

inductive Class
  | ld | ldx | st | stx | alu | jmp | ret | misc
deriving DecidableEq

inductive Mode
  | imm | abs | ind | mem | len | msh | reserved
deriving DecidableEq

inductive Src
  | k | x
deriving DecidableEq

/-- The values of `BPF_OP` for arithmetic. -/
inductive AluOp
  | add | sub | mul | div | or | and | lsh | rsh | neg | mod | xor
deriving DecidableEq

/-- The values of `BPF_OP` for jumps. -/
inductive JmpOp
  | ja | jeq | jgt | jge | jset
deriving DecidableEq

inductive Rval
  | k | x | a
deriving DecidableEq

inductive MiscOp
  | tax | txa
deriving DecidableEq

namespace SockFilter

variable (inst : SockFilter)

def bpfClass : Class :=
  match (inst.code &&& 0x07).toNat with
  | 0x00 => .ld
  | 0x01 => .ldx
  | 0x02 => .st
  | 0x03 => .stx
  | 0x04 => .alu
  | 0x05 => .jmp
  | 0x06 => .ret
  | _ => .misc

/-- `BPF_SIZE(Code) == BPF_W`. -/
def sizeIsWord : Bool := inst.code &&& 0x18 == 0

def bpfMode : Mode :=
  match (inst.code &&& 0xe0).toNat with
  | 0x00 => .imm
  | 0x20 => .abs
  | 0x40 => .ind
  | 0x60 => .mem
  | 0x80 => .len
  | 0xa0 => .msh
  | _ => .reserved

def bpfSrc : Src := if inst.code &&& 0x08 == 0 then .k else .x

def bpfAluOp : Option AluOp :=
  match (inst.code &&& 0xf0).toNat with
  | 0x00 => some .add
  | 0x10 => some .sub
  | 0x20 => some .mul
  | 0x30 => some .div
  | 0x40 => some .or
  | 0x50 => some .and
  | 0x60 => some .lsh
  | 0x70 => some .rsh
  | 0x80 => some .neg
  | 0x90 => some .mod
  | 0xa0 => some .xor
  | _ => none

def bpfJmpOp : Option JmpOp :=
  match (inst.code &&& 0xf0).toNat with
  | 0x00 => some .ja
  | 0x10 => some .jeq
  | 0x20 => some .jgt
  | 0x30 => some .jge
  | 0x40 => some .jset
  | _ => none

def bpfRval : Option Rval :=
  match (inst.code &&& 0x18).toNat with
  | 0x00 => some .k
  | 0x08 => some .x
  | 0x10 => some .a
  | _ => none

def bpfMiscop : Option MiscOp :=
  match (inst.code &&& 0xf8).toNat with
  | 0x00 => some .tax
  | 0x80 => some .txa
  | _ => none

end SockFilter

/-! ### The data of a syscall -/

structure SeccompData where
  nr : BitVec 32
  arch : BitVec 32
  instructionPointer : BitVec 64
  args : Fin 6 → BitVec 64

def seccompDataSize : ℕ := 64

/-- `offsetof(seccomp_data, instruction_pointer)`. -/
def ipOffset : ℕ := 8

/-- `offsetof(seccomp_data, args)`. -/
def argsOffset : ℕ := 16

def bpfMemwords : ℕ := 16

def byteOf {w : ℕ} (v : BitVec w) (i : ℕ) : BitVec 8 := v.extractLsb' (8 * i) 8

namespace SeccompData

variable (d : SeccompData)

def byte (i : ℕ) : BitVec 8 :=
  if i < 4 then byteOf d.nr i
  else if i < ipOffset then byteOf d.arch (i - 4)
  else if i < argsOffset then byteOf d.instructionPointer (i - ipOffset)
  else byteOf (d.args (Fin.ofNat 6 ((i - argsOffset) / 8))) (i % 8)

/-- `memcpy(&Value, DataBytes + k, sizeof(Value))`; `none` outside of the structure. -/
def load (k : ℕ) : Option (BitVec 32) :=
  if k + 4 ≤ seccompDataSize then
    some (d.byte (k + 3) ++ d.byte (k + 2) ++ d.byte (k + 1) ++ d.byte k)
  else none

end SeccompData

/-! ### Validation -/

/-- The checks of `ValidateProgram` on the mode of a load. -/
def SockFilter.validLoad (inst : SockFilter) : Bool :=
  match inst.bpfMode with
  | .imm => true
  | .abs => inst.k &&& 3 == 0 && inst.k.toNat < seccompDataSize
  | .mem => inst.k.toNat < bpfMemwords
  | .len => true
  -- a packet buffer, which seccomp does not have
  | .ind | .msh | .reserved => false

/-- The checks of `ValidateProgram` on instruction `i` of `numInsts`. -/
def SockFilter.valid (inst : SockFilter) (numInsts i : ℕ) : Bool :=
  match inst.bpfClass with
  | .ld | .ldx => inst.sizeIsWord && inst.validLoad
  | .st | .stx => inst.sizeIsWord && inst.k.toNat < bpfMemwords
  | .alu =>
    match inst.bpfAluOp with
    | some .neg => inst.bpfSrc == .k
    | some _ => true
    | none => false
  | .jmp =>
    match inst.bpfJmpOp with
    | some .ja => inst.bpfSrc == .k && i + inst.k.toNat + 1 < numInsts
    | some _ => i + inst.jt.toNat + 1 < numInsts && i + inst.jf.toNat + 1 < numInsts
    | none => false
  | .ret => inst.bpfRval.isSome
  | .misc => inst.bpfMiscop.isSome

/-- `BPFInterpreter::ValidateProgram`: whether the answer is `0` and not `-EINVAL`. -/
def validateProgram (filter : List SockFilter) : Bool :=
  (filter.zipIdx.all fun p => p.1.valid filter.length p.2) &&
    filter.getLast?.any fun inst => inst.bpfClass == .ret

def bpfMaxinsns : ℕ := 4096

/-- A program that can be installed: `SetModeFilter` and `DeserializeFilters` build a
`SeccompFilterInfo` from such programs only. -/
structure Program where
  insts : List SockFilter
  length_le : insts.length ≤ bpfMaxinsns
  accepted : validateProgram insts = true

/-! ### Execution -/

structure Regs where
  a : BitVec 32
  x : BitVec 32
  scratchMemory : ℕ → BitVec 32

/-- What one instruction does. -/
inductive Outcome
  | ret (value : BitVec 32)
  /-- Execution goes on, `skip` instructions after the next one. -/
  | next (skip : ℕ) (regs : Regs)
  /-- An access out of bounds. -/
  | fault

namespace SockFilter

variable (inst : SockFilter)

/-- The loads; `set` puts the value in its register. -/
def stepLoad (d : SeccompData) (r : Regs) (set : BitVec 32 → Regs) : Outcome :=
  match inst.bpfMode with
  | .imm => .next 0 (set inst.k)
  | .abs =>
    match d.load inst.k.toNat with
    | some value => .next 0 (set value)
    | none => .fault
  | .mem =>
    if inst.k.toNat < bpfMemwords then .next 0 (set (r.scratchMemory inst.k.toNat)) else .fault
  | .len => .next 0 (set (BitVec.ofNat 32 seccompDataSize))
  | .ind | .msh | .reserved => .ret 0

def stepStore (r : Regs) (value : BitVec 32) : Outcome :=
  if inst.k.toNat < bpfMemwords then
    .next 0 { r with scratchMemory := Function.update r.scratchMemory inst.k.toNat value }
  else .fault

/-- The second operand. -/
def src (r : Regs) : BitVec 32 :=
  match inst.bpfSrc with
  | .x => r.x
  | .k => inst.k

/-- The arithmetic; `none` ends the program with the value zero. -/
def alu (r : Regs) : Option (BitVec 32) :=
  match inst.bpfAluOp with
  | some .add => some (r.a + inst.src r)
  | some .sub => some (r.a - inst.src r)
  | some .mul => some (r.a * inst.src r)
  | some .div => if inst.src r = 0 then none else some (r.a / inst.src r)
  | some .mod => if inst.src r = 0 then none else some (r.a % inst.src r)
  | some .or => some (r.a ||| inst.src r)
  | some .and => some (r.a &&& inst.src r)
  | some .xor => some (r.a ^^^ inst.src r)
  | some .lsh => some (r.a <<< (inst.src r &&& 31))
  | some .rsh => some (r.a >>> (inst.src r &&& 31))
  | some .neg => some (-r.a)
  | none => none

/-- The distance of a jump; `none` ends the program with the value zero. -/
def jump (r : Regs) : Option ℕ :=
  match inst.bpfJmpOp with
  | some .ja => some inst.k.toNat
  | some .jeq => some (if r.a = inst.src r then inst.jt.toNat else inst.jf.toNat)
  | some .jgt => some (if r.a > inst.src r then inst.jt.toNat else inst.jf.toNat)
  | some .jge => some (if r.a ≥ inst.src r then inst.jt.toNat else inst.jf.toNat)
  | some .jset => some (if r.a &&& inst.src r ≠ 0 then inst.jt.toNat else inst.jf.toNat)
  | none => none

/-- One iteration of the loop of `Execute`. -/
def step (d : SeccompData) (r : Regs) : Outcome :=
  match inst.bpfClass with
  | .ld => inst.stepLoad d r fun value => { r with a := value }
  | .ldx => inst.stepLoad d r fun value => { r with x := value }
  | .st => inst.stepStore r r.a
  | .stx => inst.stepStore r r.x
  | .alu =>
    match inst.alu r with
    | some value => .next 0 { r with a := value }
    | none => .ret 0
  | .jmp =>
    match inst.jump r with
    | some distance => .next distance r
    | none => .ret 0
  | .ret =>
    match inst.bpfRval with
    | some .k => .ret inst.k
    | some .x => .ret r.x
    | some .a => .ret r.a
    | none => .ret 0
  | .misc =>
    match inst.bpfMiscop with
    | some .tax => .next 0 { r with x := r.a }
    | some .txa => .next 0 { r with a := r.x }
    | none => .ret 0

end SockFilter

/-- The loop of `Execute` from the instruction at `ip`, a 32-bit counter.  `none`: an access out
of bounds, or more iterations than there is fuel for. -/
def loop (p : List SockFilter) (d : SeccompData) : ℕ → ℕ → Regs → Option (BitVec 32)
  | 0, ip, _ => if ip < p.length then none else some 0
  | fuel + 1, ip, r =>
    match p[ip]? with
    | none => some 0
    | some inst =>
      match inst.step d r with
      | .ret value => some value
      | .next skip r' => loop p d fuel ((ip + skip + 1) % 2 ^ 32) r'
      | .fault => none

/-- `BPFInterpreter::Execute`, with the scratch memory zeroed by the caller. -/
def execute (p : List SockFilter) (d : SeccompData) : Option (BitVec 32) :=
  loop p d p.length 0 ⟨0, 0, fun _ => 0⟩

/-! ### Accepted programs return -/

variable {p : List SockFilter}

/-- The outcome is no fault and does not leave a program of `n` instructions by a jump from
instruction `i`. -/
def Outcome.Inside (n i : ℕ) : Outcome → Prop
  | .ret _ => True
  | .next skip _ => skip = 0 ∨ i + skip + 1 < n
  | .fault => False

namespace SockFilter

variable {inst : SockFilter} {n i : ℕ}

theorem aligned_of_and_eq_zero {k : BitVec 32} (h : (k &&& 3 == 0) = true) : k.toNat % 4 = 0 := by
  have h0 : (k &&& 3).toNat = 0 := by rw [eq_of_beq h]; rfl
  rwa [BitVec.toNat_and, show (3 : BitVec 32).toNat = 2 ^ 2 - 1 from rfl,
    Nat.and_two_pow_sub_one_eq_mod] at h0

/-- The validation of a load bounds its accesses. -/
theorem validLoad_spec (h : inst.validLoad = true) :
    (inst.bpfMode = .mem → inst.k.toNat < bpfMemwords) ∧
      (inst.bpfMode = .abs → inst.k.toNat + 4 ≤ seccompDataSize) := by
  rw [validLoad] at h
  refine ⟨fun hmd => ?_, fun hmd => ?_⟩
  · rw [hmd] at h
    exact of_decide_eq_true h
  · rw [hmd] at h
    obtain ⟨hali, hlt⟩ := and_eq_true_iff.1 h
    have := aligned_of_and_eq_zero hali
    have := of_decide_eq_true hlt
    rw [seccompDataSize] at *
    omega

theorem stepLoad_inside (h : inst.validLoad = true) (d : SeccompData) (r : Regs)
    (set : BitVec 32 → Regs) : (inst.stepLoad d r set).Inside n i := by
  obtain ⟨hmem, habs⟩ := validLoad_spec h
  rw [validLoad] at h
  rw [stepLoad]
  cases hmd : inst.bpfMode <;> simp only [hmd] at h ⊢
  case imm => exact .inl rfl
  case len => exact .inl rfl
  case abs =>
    rw [SeccompData.load, if_pos (habs hmd)]
    exact .inl rfl
  case mem =>
    rw [if_pos (hmem hmd)]
    exact .inl rfl
  all_goals exact absurd h false_ne_true

theorem stepStore_inside (h : inst.k.toNat < bpfMemwords) (r : Regs) (value : BitVec 32) :
    (inst.stepStore r value).Inside n i := by
  rw [stepStore, if_pos h]
  exact .inl rfl

/-- A jump of a valid instruction stays in the program. -/
theorem jump_inside (hcla : inst.bpfClass = .jmp) (h : inst.valid n i = true) (r : Regs)
    {distance : ℕ} (hj : inst.jump r = some distance) : i + distance + 1 < n := by
  rw [valid, hcla] at h
  rw [jump] at hj
  cases hop : inst.bpfJmpOp with
  | none =>
    rw [hop] at hj
    cases hj
  | some op =>
    rw [hop] at h hj
    cases op <;> simp only [Option.some.injEq, and_eq_true, decide_eq_true_eq] at h hj <;>
      subst hj
    case ja => exact h.2
    all_goals split <;> [exact h.1; exact h.2]

/-- **One instruction** of an accepted program is no access out of bounds and stays in it. -/
theorem step_inside (h : inst.valid n i = true) (d : SeccompData) (r : Regs) :
    (inst.step d r).Inside n i := by
  have hval := h
  rw [valid] at h
  rw [step]
  cases hcla : inst.bpfClass <;> simp only [hcla, and_eq_true] at h ⊢
  case ld => exact stepLoad_inside h.2 d r _
  case ldx => exact stepLoad_inside h.2 d r _
  case st => exact stepStore_inside (of_decide_eq_true h.2) r _
  case stx => exact stepStore_inside (of_decide_eq_true h.2) r _
  case alu => split <;> [exact .inl rfl; trivial]
  case jmp =>
    split
    · rename_i distance hj
      exact .inr (jump_inside hcla hval r hj)
    · trivial
  case ret => split <;> trivial
  case misc => split <;> first | exact .inl rfl | trivial

theorem step_ret (h : inst.bpfClass = .ret) (d : SeccompData) (r : Regs) :
    ∃ value, inst.step d r = .ret value := by
  simp only [step, h]
  split <;> exact ⟨_, rfl⟩

end SockFilter

theorem valid_of_validateProgram (h : validateProgram p = true) {i : ℕ} {inst : SockFilter}
    (hi : p[i]? = some inst) : inst.valid p.length i = true := by
  have hall := all_eq_true.1 (and_eq_true_iff.1 h).1
  exact hall (inst, i) (mem_zipIdx_iff_getElem?.2 hi)

/-- Only a return is at the end. -/
theorem last_of_validateProgram (h : validateProgram p = true) {i : ℕ} {inst : SockFilter}
    (hi : p[i]? = some inst) (hls : p.length ≤ i + 1) : inst.bpfClass = .ret := by
  obtain ⟨last, hl, hret⟩ := (Option.any_eq_true _ _).1 (and_eq_true_iff.1 h).2
  have hlt : i < p.length := (List.getElem?_eq_some_iff.1 hi).1
  rw [getLast?_eq_getElem?, show p.length - 1 = i by omega, hi] at hl
  cases hl
  exact eq_of_beq hret

theorem Program.length_pos (p : Program) : 0 < p.insts.length := by
  refine length_pos_of_ne_nil fun hnil => ?_
  have := p.accepted
  rw [hnil] at this
  exact absurd this (by decide)

/-! ### What a program can load -/

/-- The loop of `AnalyzeFilterLoads` with the flags `ReadsIP` and `ReadsArgs` found so far. -/
def analyzeLoop : List SockFilter → Bool → Bool → Bool × Bool
  | [], readsIP, readsArgs => (readsIP, readsArgs)
  | inst :: insts, readsIP, readsArgs =>
    if inst.bpfClass = .ld ∨ inst.bpfClass = .ldx then
      match inst.bpfMode with
      | .imm | .mem | .len => analyzeLoop insts readsIP readsArgs
      | .abs =>
        if argsOffset ≤ inst.k.toNat then analyzeLoop insts readsIP true
        else if ipOffset ≤ inst.k.toNat then analyzeLoop insts true readsArgs
        else analyzeLoop insts readsIP readsArgs
      -- the validation rejects the others: as if everything were read
      | .ind | .msh | .reserved => (true, true)
    else analyzeLoop insts readsIP readsArgs

/-- `AnalyzeFilterLoads`: the flags `ReadsIP` and `ReadsArgs`. -/
def analyzeFilterLoads (p : List SockFilter) : Bool × Bool := analyzeLoop p false false

/-- If the instruction loads a word of the data, then one of the part the flags tell. -/
def SockFilter.Covered (flags : Bool × Bool) (inst : SockFilter) : Prop :=
  inst.bpfClass = .ld ∨ inst.bpfClass = .ldx → inst.bpfMode = .abs →
    inst.k.toNat < ipOffset ∨ (inst.k.toNat < argsOffset ∧ flags.1 = true) ∨
      (argsOffset ≤ inst.k.toNat ∧ flags.2 = true)

/-- The flags are never taken back. -/
theorem analyzeLoop_mono (p : List SockFilter) (readsIP readsArgs : Bool) :
    (readsIP = true → (analyzeLoop p readsIP readsArgs).1 = true) ∧
      (readsArgs = true → (analyzeLoop p readsIP readsArgs).2 = true) := by
  induction p generalizing readsIP readsArgs with
  | nil => exact ⟨id, id⟩
  | cons inst insts ih =>
    rw [analyzeLoop]
    split
    · split
      case h_4 =>
        split
        · exact ⟨(ih readsIP true).1, fun _ => (ih readsIP true).2 rfl⟩
        · split
          · exact ⟨fun _ => (ih true readsArgs).1 rfl, (ih true readsArgs).2⟩
          · exact ih readsIP readsArgs
      all_goals first | exact ih readsIP readsArgs | exact ⟨fun _ => rfl, fun _ => rfl⟩
    · exact ih readsIP readsArgs

theorem analyzeLoop_covered (p : List SockFilter) (readsIP readsArgs : Bool) :
    ∀ inst ∈ p, inst.Covered (analyzeLoop p readsIP readsArgs) := by
  induction p generalizing readsIP readsArgs with
  | nil => nofun
  | cons inst insts ih =>
    have hmn := analyzeLoop_mono insts
    rw [analyzeLoop]
    split
    · rename_i hld
      split
      case h_4 habs =>
        -- the flag of the part is raised here and stays up
        split
        · rename_i har
          refine forall_mem_cons.2 ⟨fun _ _ => ?_, ih readsIP true⟩
          exact .inr (.inr ⟨har, (hmn readsIP true).2 rfl⟩)
        · rename_i har
          split
          · refine forall_mem_cons.2 ⟨fun _ _ => ?_, ih true readsArgs⟩
            exact .inr (.inl ⟨not_le.1 har, (hmn true readsArgs).1 rfl⟩)
          · rename_i hip
            exact forall_mem_cons.2 ⟨fun _ _ => .inl (not_le.1 hip), ih readsIP readsArgs⟩
      case h_5 | h_6 | h_7 =>
        intro i _ _ _
        rcases Nat.lt_or_ge i.k.toNat argsOffset with hlt | hge
        · exact .inr (.inl ⟨hlt, rfl⟩)
        · exact .inr (.inr ⟨hge, rfl⟩)
      all_goals
        rename_i hmd
        refine forall_mem_cons.2 ⟨fun _ habs => ?_, ih readsIP readsArgs⟩
        rw [hmd] at habs
        cases habs
    · rename_i hno
      exact forall_mem_cons.2 ⟨fun hld => absurd hld hno, ih readsIP readsArgs⟩

/-- **The analysis covers every load** of a program. -/
theorem analyzeFilterLoads_covered (p : List SockFilter) :
    ∀ inst ∈ p, inst.Covered (analyzeFilterLoads p) :=
  analyzeLoop_covered p false false

/-- The two data agree on the syscall and on the part the flags tell. -/
structure SeccompData.Agree (flags : Bool × Bool) (d d' : SeccompData) : Prop where
  nr : d.nr = d'.nr
  arch : d.arch = d'.arch
  ip : flags.1 = true → d.instructionPointer = d'.instructionPointer
  args : flags.2 = true → d.args = d'.args

namespace SeccompData.Agree

variable {inst : SockFilter}

variable {flags : Bool × Bool} {d d' : SeccompData}

section

variable (h : d.Agree flags d')
include h

theorem byte_eq {i : ℕ}
    (hi : i < ipOffset ∨ (i < argsOffset ∧ flags.1 = true) ∨ (argsOffset ≤ i ∧ flags.2 = true)) :
    d.byte i = d'.byte i := by
  rw [SeccompData.byte, SeccompData.byte, h.nr, h.arch]
  split
  · rfl
  · split
    · rfl
    · rename_i hip
      rcases hi with hi | ⟨hi, hfl⟩ | ⟨hi, hfl⟩
      · exact absurd hi hip
      · rw [if_pos hi, if_pos hi, h.ip hfl]
      · rw [if_neg (by omega), if_neg (by omega), h.args hfl]

/-- An aligned word does not straddle the fields. -/
theorem load_eq {k : ℕ} (hali : k % 4 = 0)
    (hk : k < ipOffset ∨ (k < argsOffset ∧ flags.1 = true) ∨ (argsOffset ≤ k ∧ flags.2 = true)) :
    d.load k = d'.load k := by
  have hby : ∀ j < 4, d.byte (k + j) = d'.byte (k + j) := by
    intro j hj
    refine h.byte_eq ?_
    rw [ipOffset, argsOffset] at *
    rcases hk with hk | ⟨hk, hfl⟩ | ⟨hk, hfl⟩
    · exact .inl (by omega)
    · exact .inr (.inl ⟨by omega, hfl⟩)
    · exact .inr (.inr ⟨by omega, hfl⟩)
  rw [SeccompData.load, SeccompData.load, hby 3 (by omega), hby 2 (by omega),
    hby 1 (by omega), show d.byte k = d'.byte k from hby 0 (by omega)]

theorem stepLoad_eq (hval : inst.validLoad = true)
    (hcla : inst.bpfClass = .ld ∨ inst.bpfClass = .ldx) (hcov : inst.Covered flags) (r : Regs)
    (set : BitVec 32 → Regs) : inst.stepLoad d r set = inst.stepLoad d' r set := by
  rw [SockFilter.stepLoad, SockFilter.stepLoad]
  cases hmd : inst.bpfMode with
  | abs =>
    rw [SockFilter.validLoad, hmd] at hval
    have hali := SockFilter.aligned_of_and_eq_zero (and_eq_true_iff.1 hval).1
    rw [h.load_eq hali (hcov hcla hmd)]
  | _ => rfl

theorem step_eq {n i : ℕ} (hval : inst.valid n i = true) (hcov : inst.Covered flags)
    (r : Regs) : inst.step d r = inst.step d' r := by
  rw [SockFilter.valid] at hval
  rw [SockFilter.step, SockFilter.step]
  cases hcla : inst.bpfClass with
  | ld =>
    rw [hcla] at hval
    exact h.stepLoad_eq (and_eq_true_iff.1 hval).2 (.inl hcla) hcov r _
  | ldx =>
    rw [hcla] at hval
    exact h.stepLoad_eq (and_eq_true_iff.1 hval).2 (.inr hcla) hcov r _
  | _ => rfl

end

theorem loop_eq (h : d.Agree (analyzeFilterLoads p) d') (hval : validateProgram p = true)
    (fuel ip : ℕ) (r : Regs) : loop p d fuel ip r = loop p d' fuel ip r := by
  induction fuel generalizing ip r with
  | zero => rfl
  | succ fuel ih =>
    simp only [loop]
    cases hget : p[ip]? with
    | none => rfl
    | some inst =>
      have hcov := analyzeFilterLoads_covered p inst (mem_of_getElem? hget)
      simp [h.step_eq (valid_of_validateProgram hval hget) hcov, ih]

end SeccompData.Agree

end FastPPC.Seccomp
