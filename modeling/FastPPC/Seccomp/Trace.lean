import FastPPC.Seccomp.Bpf

/-!
# The steps of an accepted program

`execute` is what a program returns.  Here its loop is taken apart: `trace` lists the instructions
the loop of `Execute` comes to, and says how it ends.  A result of zero alone does not tell a
`BPF_RET` from a zero divisor, a `default` branch of one of the switches, or the end of the loop.

* `trace_loop` : the trace is the trace of `loop`;
* `execute_safe` : an accepted program ends with a return or a zero divisor, after at most as many
  steps as it has instructions, and every access of its steps is in bounds;
* `Program.run` : what it returns, which depends only on what it loads (`Program.run_congr`).
-/

namespace FastPPC.Seccomp

open SockFilter

/-- How `Execute` ends. -/
inductive Exit
  | ret (value : BitVec 32)
  /-- `BPF_DIV` or `BPF_MOD` by zero. -/
  | zeroDivisor
  /-- A `default` branch. -/
  | unreachable
  /-- The `return` behind the loop. -/
  | fellOff
  | fault
  /-- The loop is not at its end. -/
  | outOfFuel
deriving DecidableEq

/-- What `Execute` returns, if it does. -/
def Exit.value : Exit → Option (BitVec 32)
  | .ret value => some value
  | .zeroDivisor | .unreachable | .fellOff => some 0
  | .fault | .outOfFuel => none

namespace SockFilter

variable (inst : SockFilter)

/-- The `return` an instruction takes, if it takes one. -/
def exit (r : Regs) : Option Exit :=
  match inst.bpfClass with
  | .ld | .ldx =>
    match inst.bpfMode with
    | .imm | .abs | .mem | .len => none
    | .ind | .msh | .reserved => some .unreachable
  | .st | .stx => none
  | .alu =>
    match inst.bpfAluOp with
    | some .div | some .mod => if inst.src r = 0 then some .zeroDivisor else none
    | some _ => none
    | none => some .unreachable
  | .jmp => if inst.bpfJmpOp.isSome then none else some .unreachable
  | .ret =>
    match inst.bpfRval with
    | some .k => some (.ret inst.k)
    | some .x => some (.ret r.x)
    | some .a => some (.ret r.a)
    | none => some .unreachable
  | .misc => if inst.bpfMiscop.isSome then none else some .unreachable

def scratchIndex : Option ℕ :=
  match inst.bpfClass with
  | .ld | .ldx => if inst.bpfMode = .mem then some inst.k.toNat else none
  | .st | .stx => some inst.k.toNat
  | _ => none

def dataOffset : Option ℕ :=
  match inst.bpfClass with
  | .ld | .ldx => if inst.bpfMode = .abs then some inst.k.toNat else none
  | _ => none

end SockFilter

/-- The loop of `Execute` from the instruction at `ip`: what it comes to, and how it ends. -/
def traceLoop (p : List SockFilter) (d : SeccompData) : ℕ → ℕ → Regs → List SockFilter × Exit
  | 0, ip, _ => ([], if ip < p.length then .outOfFuel else .fellOff)
  | fuel + 1, ip, r =>
    match p[ip]? with
    | none => ([], .fellOff)
    | some inst =>
      match inst.exit r with
      | some e => ([inst], e)
      | none =>
        match inst.step d r with
        | .next skip r' =>
          let t := traceLoop p d fuel ((ip + skip + 1) % 2 ^ 32) r'
          (inst :: t.1, t.2)
        | .ret _ | .fault => ([inst], .fault)

def trace (p : List SockFilter) (d : SeccompData) : List SockFilter × Exit :=
  traceLoop p d p.length 0 ⟨0, 0, fun _ => 0⟩

/-! ### The trace and the loop -/

namespace SockFilter

variable {inst : SockFilter} {d : SeccompData} {r : Regs}

/-- An instruction returns exactly if it takes a `return`, with the value of that. -/
theorem step_exit (inst : SockFilter) (d : SeccompData) (r : Regs) :
    match inst.exit r with
    | some e => ∃ value, inst.step d r = .ret value ∧ e.value = some value
    | none => ∀ value, inst.step d r ≠ .ret value := by
  rw [exit, step]
  cases inst.bpfClass with
  | ld | ldx =>
    simp only [stepLoad]
    cases inst.bpfMode with
    | imm | len => rintro _ ⟨⟩
    | ind | msh | reserved => exact ⟨0, rfl, rfl⟩
    | abs => cases d.load inst.k.toNat <;> rintro _ ⟨⟩
    | mem =>
      simp only
      split <;> rintro _ ⟨⟩
  | st | stx =>
    simp only [stepStore]
    split <;> rintro _ ⟨⟩
  | alu =>
    simp only [alu]
    cases inst.bpfAluOp with
    | none => exact ⟨0, rfl, rfl⟩
    | some op =>
      cases op
      case div | mod =>
        by_cases hz : inst.src r = 0
        · simp only [if_pos hz]
          exact ⟨0, rfl, rfl⟩
        · simp only [if_neg hz]
          rintro _ ⟨⟩
      all_goals rintro _ ⟨⟩
  | jmp =>
    simp only [jump]
    cases inst.bpfJmpOp with
    | none => exact ⟨0, rfl, rfl⟩
    | some op => cases op <;> rintro _ ⟨⟩
  | ret =>
    simp only
    cases inst.bpfRval with
    | none => exact ⟨0, rfl, rfl⟩
    | some v => cases v <;> exact ⟨_, rfl, rfl⟩
  | misc =>
    simp only
    cases inst.bpfMiscop with
    | none => exact ⟨0, rfl, rfl⟩
    | some op => cases op <;> rintro _ ⟨⟩

end SockFilter

/-- **The trace is the trace of the loop.** -/
theorem trace_loop (p : List SockFilter) (d : SeccompData) (fuel ip : ℕ) (r : Regs) :
    loop p d fuel ip r = (traceLoop p d fuel ip r).2.value := by
  induction fuel generalizing ip r with
  | zero =>
    rw [loop, traceLoop]
    split <;> rfl
  | succ fuel ih =>
    rw [loop, traceLoop]
    cases p[ip]? with
    | none => rfl
    | some inst =>
      have hex := inst.step_exit d r
      cases he : inst.exit r with
      | some e =>
        rw [he] at hex
        obtain ⟨value, hst, hval⟩ := hex
        simp [he, hst, hval]
      | none =>
        rw [he] at hex
        cases hst : inst.step d r with
        | ret value => exact absurd hst (hex value)
        | fault => simp [he, hst, Exit.value]
        | next skip r' => simp [he, hst, ih]

/-! ### Accepted programs -/

/-- The accesses of an instruction are in bounds. -/
structure SockFilter.InBounds (inst : SockFilter) : Prop where
  scratch : ∀ i ∈ inst.scratchIndex, i < bpfMemwords
  data : ∀ k ∈ inst.dataOffset, k + 4 ≤ seccompDataSize

namespace SockFilter

variable {inst : SockFilter} {n i : ℕ}

/-- **The accesses of a valid instruction are in bounds.** -/
theorem inBounds_of_valid (h : inst.valid n i = true) : inst.InBounds := by
  rw [valid] at h
  constructor
  · intro j hj
    rw [scratchIndex] at hj
    cases hcla : inst.bpfClass <;> simp only [hcla, Bool.and_eq_true] at h hj
    case ld | ldx =>
      split at hj
      · cases hj
        exact (validLoad_spec h.2).1 ‹_›
      · cases hj
    case st | stx =>
      cases hj
      exact of_decide_eq_true h.2
    all_goals cases hj
  · intro k hk
    rw [dataOffset] at hk
    cases hcla : inst.bpfClass <;> simp only [hcla, Bool.and_eq_true] at h hk
    case ld | ldx =>
      split at hk
      · cases hk
        exact (validLoad_spec h.2).2 ‹_›
      · cases hk
    all_goals cases hk

/-- The `return` of a valid instruction is that of a `BPF_RET` or of a zero divisor. -/
theorem exit_of_valid (h : inst.valid n i = true) {r : Regs} {e : Exit}
    (he : inst.exit r = some e) : (∃ value, e = .ret value) ∨ e = .zeroDivisor := by
  rw [valid] at h
  rw [exit] at he
  cases hcla : inst.bpfClass <;> simp only [hcla, Bool.and_eq_true] at h he
  case ld | ldx =>
    have hld := h.2
    rw [validLoad] at hld
    cases hmd : inst.bpfMode <;> simp only [hmd] at hld he
    all_goals first | exact absurd hld Bool.false_ne_true | cases he
  case alu =>
    cases hop : inst.bpfAluOp with
    | none =>
      rw [hop] at h
      cases h
    | some op =>
      rw [hop] at he
      cases op
      case div | mod =>
        simp only at he
        split at he
        · cases he
          exact .inr rfl
        · cases he
      all_goals cases he
  case jmp =>
    cases hop : inst.bpfJmpOp with
    | none =>
      rw [hop] at h
      cases h
    | some op =>
      rw [hop] at he
      cases he
  case ret =>
    obtain ⟨v, hv⟩ := Option.isSome_iff_exists.1 h
    rw [hv] at he
    cases v <;> cases he <;> exact .inl ⟨_, rfl⟩
  case misc =>
    rw [h] at he
    cases he
  all_goals cases he

end SockFilter

/-- The loop on an accepted program, from an instruction of it. -/
theorem traceLoop_spec {p : List SockFilter} (h : validateProgram p = true)
    (hlen : p.length ≤ 2 ^ 32) (d : SeccompData) (fuel ip : ℕ) (r : Regs) (hip : ip < p.length)
    (hfl : p.length ≤ ip + fuel) :
    (traceLoop p d fuel ip r).1.length ≤ fuel ∧
      ((∃ value, (traceLoop p d fuel ip r).2 = .ret value) ∨
        (traceLoop p d fuel ip r).2 = .zeroDivisor) ∧
      ∀ inst ∈ (traceLoop p d fuel ip r).1, inst.InBounds := by
  induction fuel generalizing ip r with
  | zero => omega
  | succ fuel ih =>
    have hget : p[ip]? = some p[ip] := List.getElem?_eq_getElem hip
    have hval := valid_of_validateProgram h hget
    have hbou := inBounds_of_valid hval
    have hst := step_inside hval d r
    have hex := p[ip].step_exit d r
    rw [traceLoop, hget]
    cases he : p[ip].exit r with
    | some e =>
      simp only [he, List.length_singleton, List.mem_singleton]
      exact ⟨by omega, exit_of_valid hval he, fun _ heq => heq ▸ hbou⟩
    | none =>
      rw [he] at hex
      -- the last instruction returns, so this one has a successor
      have hmr : ip + 1 < p.length := by
        by_contra hls
        obtain ⟨value, hv⟩ :=
          step_ret (last_of_validateProgram h hget (by omega)) d r
        exact hex value hv
      cases hv : p[ip].step d r with
      | ret value => exact absurd hv (hex value)
      | fault =>
        rw [hv] at hst
        exact hst.elim
      | next skip r' =>
        rw [hv] at hst
        have hnx : ip + skip + 1 < p.length := by
          rcases hst with rfl | hs
          · exact hmr
          · exact hs
        simp only [he, hv]
        rw [Nat.mod_eq_of_lt (by omega)]
        obtain ⟨hle, hend, hrs⟩ := ih (ip + skip + 1) r' hnx (by omega)
        refine ⟨?_, hend, List.forall_mem_cons.2 ⟨hbou, hrs⟩⟩
        rw [List.length_cons]
        omega

theorem trace_spec (p : Program) (d : SeccompData) : (trace p.insts d).1.length ≤ p.insts.length ∧
      ((∃ value, (trace p.insts d).2 = .ret value) ∨ (trace p.insts d).2 = .zeroDivisor) ∧
      ∀ inst ∈ (trace p.insts d).1, inst.InBounds := by
  have hle := p.length_le
  rw [bpfMaxinsns] at hle
  exact traceLoop_spec p.accepted (by omega) d p.insts.length 0 ⟨0, 0, fun _ => 0⟩ p.length_pos
    (by omega)

/-- **An accepted program runs safely** on every syscall: it comes to a return or a zero divisor
after at most as many steps as it has instructions, on the way only to instructions whose accesses
are in bounds, and that is what `Execute` returns. -/
theorem execute_safe (p : Program) (d : SeccompData) : (trace p.insts d).1.length ≤ p.insts.length ∧
      ((∃ value, (trace p.insts d).2 = .ret value) ∨ (trace p.insts d).2 = .zeroDivisor) ∧
      execute p.insts d = (trace p.insts d).2.value ∧
      ∀ inst ∈ (trace p.insts d).1, inst.InBounds := by
  obtain ⟨hste, hend, hbou⟩ := trace_spec p d
  exact ⟨hste, hend, trace_loop _ _ _ _ _, hbou⟩

/-! ### What a program returns -/

/-- **An accepted program returns.** -/
theorem execute_isSome (p : Program) (d : SeccompData) : (execute p.insts d).isSome = true := by
  obtain ⟨-, hend, -⟩ := trace_spec p d
  rw [execute, trace_loop]
  change (trace p.insts d).2.value.isSome = true
  rcases hend with ⟨value, hv⟩ | hv <;> rw [hv] <;> rfl

/-- What an installed program returns. -/
def Program.run (p : Program) (d : SeccompData) : BitVec 32 :=
  (execute p.insts d).get (execute_isSome p d)

/-- **The result of a program depends only on what the analysis says it loads.** -/
theorem Program.run_congr (p : Program) {d d' : SeccompData}
    (h : d.Agree (analyzeFilterLoads p.insts) d') : p.run d = p.run d' := by
  have heq : execute p.insts d = execute p.insts d' := h.loop_eq p.accepted _ _ _
  simp [Program.run, heq]

end FastPPC.Seccomp
