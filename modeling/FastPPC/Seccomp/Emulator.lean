import FastPPC.Codec.LittleEndian
import FastPPC.Machine.Basic
import FastPPC.Seccomp.Trace

/-!
# The seccomp emulator

`SeccompEmulator` keeps the installed filters in a list and each thread a vector of pointers into
it, its chain.  A filter is shared by the threads that inherited it or got it by TSYNC, and it is
freed when its reference count is zero; here a pointer is an address, and following one that has
been freed has no result.  The calls:

* `setModeFilter`, `setModeStrict` install a filter, for all threads if `TSYNC` is asked for;
* `inheritSeccompFilters`, `freeSeccompFilters` at the creation and the end of a thread;
* `executeFilter` judges a syscall, from the thread's cache of verdicts or by interpreting the
  chain;
* `serializeFilters`, `deserializeFilters` hand the chain over an `execve`, through a file whose
  reads and writes can fail or fall short.

What the kernel and the allocator answer are arguments.  `granted` is a history variable that no
call reads: for each thread the filters whose installation has been reported as done, to the
thread or to one it descends from.
-/

namespace FastPPC.Seccomp

open FastPPC.Codec Function

/-! ### State -/

/-- `SeccompFilterInfo`, without the reference count. -/
structure SeccompFilterInfo where
  program : Program
  shouldLog : Bool
  readsIP : Bool
  readsArgs : Bool
  analyzed : (readsIP, readsArgs) = analyzeFilterLoads program.insts

def SeccompFilterInfo.of (program : Program) (shouldLog : Bool) : SeccompFilterInfo :=
  ⟨program, shouldLog, (analyzeFilterLoads program.insts).1, (analyzeFilterLoads program.insts).2,
    rfl⟩

/-- What was asked to be installed. -/
def SeccompFilterInfo.filter (f : SeccompFilterInfo) : Program × Bool := (f.program, f.shouldLog)

inductive CacheMode
  | none | nrOnly | nrRIP

structure RIPEntry where
  rip : BitVec 64
  /-- Zero in an empty entry. -/
  nrPlusOne : BitVec 64

/-- `SeccompVerdictCache`. -/
structure VerdictCache where
  generation : BitVec 64
  mode : CacheMode
  needsRIP : Bool
  /-- The bitmap `AllowedNrs`. -/
  allowedNrs : ℕ → Bool
  /-- The direct-mapped table `RIPAllowed`. -/
  ripAllowed : ℕ → RIPEntry

def maxCachedNr : ℕ := 512

def ripWays : ℕ := 64

def VerdictCache.initial : VerdictCache :=
  ⟨0, .none, false, fun _ => false, fun _ => ⟨0, 0⟩⟩

/-- `SECCOMP_MODE_DISABLED`, `SECCOMP_MODE_STRICT` and `SECCOMP_MODE_FILTER`. -/
def modeDisabled : ℕ := 0
def modeStrict : ℕ := 1
def modeFilter : ℕ := 2

/-- The parts of `ThreadStateObject` that seccomp uses. -/
structure Thread where
  id : ℕ
  tid : ℕ
  /-- Whether it has been added to the threads of the thread manager. -/
  tracked : Bool
  seccompMode : ℕ
  /-- The chain, oldest filter first. -/
  filters : List ℕ
  seccompCache : VerdictCache

/-- `SIGKILL` and `SIGSYS`. -/
def sigkill : ℕ := 9
def sigsys : ℕ := 31

structure State where
  is64BitMode : Bool
  filterGeneration : BitVec 64
  totalFilterInstructions : ℕ
  currentKillSignal : ℕ
  /-- The list `Filters`, by address. -/
  info : ℕ → Option SeccompFilterInfo
  refCount : ℕ → ℕ
  /-- The thread objects; the tracked ones in the order of `GetThreads`. -/
  threads : List Thread
  granted : ℕ → List (Program × Bool)

def State.image (is64BitMode : Bool) (id tid : ℕ) (granted : ℕ → List (Program × Bool)) :
    State where
  is64BitMode := is64BitMode
  filterGeneration := 1
  totalFilterInstructions := 0
  currentKillSignal := sigsys
  info _ := none
  refCount _ := 0
  threads := [⟨id, tid, true, modeDisabled, [], .initial⟩]
  granted := granted

namespace State

variable (s : State)

def findThread (t : ℕ) : Option Thread := s.threads.find? fun u => u.id == t

/-- Changes one thread object. -/
def modify (t : ℕ) (f : Thread → Thread) : State :=
  { s with threads := s.threads.map fun u => if u.id = t then f u else u }

/-- Follows the pointers of a thread. -/
def chain (t : Thread) : Option (List SeccompFilterInfo) := t.filters.mapM s.info

end State

/-! ### Verdicts -/

/-- The arguments of a syscall, and the guest address `RestoreRIPFromHostPC` finds for it. -/
structure Call where
  nr : BitVec 64
  args : Fin 6 → BitVec 64
  rip : BitVec 64

/-- `AUDIT_ARCH_X86_64` or `AUDIT_ARCH_I386`. -/
def auditArch (is64BitMode : Bool) : BitVec 32 := if is64BitMode then 0xC000003E else 0x40000003

/-- The data the filters see, with `rip` as the instruction pointer. -/
def Call.data (call : Call) (is64BitMode : Bool) (rip : BitVec 64) : SeccompData :=
  ⟨call.nr.setWidth 32, auditArch is64BitMode, rip, call.args⟩

/-- The action of a result as the signed number that is its precedence. -/
def precedence (result : BitVec 32) : ℤ := (result.extractLsb' 16 16).toInt

/-- One iteration of the loop over the chain; the result so far and whether its filter logs. -/
def chainStep (d : SeccompData) (acc : Option (BitVec 32 × Bool)) (f : SeccompFilterInfo) :
    Option (BitVec 32 × Bool) :=
  match acc with
  | none => some (f.program.run d, f.shouldLog)
  | some (result, shouldLog) =>
    if precedence (f.program.run d) < precedence result then some (f.program.run d, f.shouldLog)
    else some (result, shouldLog)

/-- The loop over the chain, from the latest filter to the oldest. -/
def runChain (chain : List SeccompFilterInfo) (d : SeccompData) : BitVec 32 × Bool :=
  (chain.reverse.foldl (chainStep d) none).getD (0, false)

/-- The actions of `SECCOMP_RET_ACTION_FULL`. -/
inductive RetAction
  | killProcess | killThread | trap | errno | userNotif | trace | log | allow | unknown
deriving DecidableEq

def retAction (result : BitVec 32) : RetAction :=
  match (result.extractLsb' 16 16).toNat with
  | 0x8000 => .killProcess
  | 0x0000 => .killThread
  | 0x0003 => .trap
  | 0x0005 => .errno
  | 0x7fc0 => .userNotif
  | 0x7ff0 => .trace
  | 0x7ffc => .log
  | 0x7fff => .allow
  | _ => .unknown

/-- What a verdict does beside the answer. -/
inductive Event
  /-- An audit message. -/
  | audit (signal : ℕ) (arch : BitVec 32) (syscall ip : BitVec 64) (code : BitVec 32)
  /-- The signal ends the process. -/
  | kill (signal : ℕ)
  /-- `SIGSYS` for a handler of the guest. -/
  | trap (errno : ℕ) (callAddr syscall : BitVec 64) (arch : BitVec 32)
deriving DecidableEq

structure ExecuteFilterResult where
  earlyReturn : Bool
  result : BitVec 64
deriving DecidableEq

def proceed : ExecuteFilterResult := ⟨false, 0⟩

/-- The end of `ExecuteFilterSlow`: what a verdict leads to. -/
def respond (killSignal : ℕ) (arch : BitVec 32) (call : Call) (rip : BitVec 64)
    (verdict : BitVec 32 × Bool) : ExecuteFilterResult × List Event :=
  let action := retAction verdict.1
  let data := (verdict.1.extractLsb' 0 16).toNat
  let signal :=
    match action with
    | .killProcess | .killThread => killSignal
    | .trap => sigsys
    | _ => 0
  let audit :=
    if (verdict.2 = true ∧ action ≠ .allow) ∨ action = .log then
      [Event.audit signal arch call.nr rip verdict.1]
    else []
  match action with
  | .unknown | .killProcess => (proceed, audit ++ [.kill killSignal])
  | .killThread => (proceed, audit ++ [.kill sigsys])
  | .trap => (proceed, audit ++ [.trap data rip call.nr arch])
  -- errno return is clamped
  | .errno => (⟨true, -BitVec.ofNat 64 (min data 4095)⟩, audit)
  -- without a tracer as if `ENOSYS` had been returned
  | .trace => (⟨true, -38⟩, audit)
  | .userNotif | .log | .allow => (proceed, audit)

/-! ### The cache of verdicts -/

namespace VerdictCache

variable (c : VerdictCache)

/-- The start of `ExecuteFilter`: the cache of another generation is rebuilt. -/
def revalidate (generation : BitVec 64) (chain : List SeccompFilterInfo) : VerdictCache :=
  if c.generation = generation then c
  else
    let anyArgs := chain.any (·.readsArgs)
    let anyIP := chain.any (·.readsIP)
    { generation := generation
      mode := if anyArgs then .none else if anyIP then .nrRIP else .nrOnly
      needsRIP := anyIP
      allowedNrs := fun _ => false
      ripAllowed := fun _ => ⟨0, 0⟩ }

/-- The entry of `RIPAllowed` for a syscall. -/
def slot (rip nr : BitVec 64) : ℕ :=
  ((rip ^^^ (rip >>> 7) ^^^ nr) &&& BitVec.ofNat 64 (ripWays - 1)).toNat

/-- The fast paths: whether the syscall is known to be allowed. -/
def hit (call : Call) : Bool :=
  match c.mode with
  | .nrOnly => call.nr.toNat < maxCachedNr && c.allowedNrs call.nr.toNat
  | .nrRIP =>
    (c.ripAllowed (slot call.rip call.nr)).rip == call.rip &&
      (c.ripAllowed (slot call.rip call.nr)).nrPlusOne == call.nr + 1
  | .none => false

def remember (call : Call) (rip : BitVec 64) : VerdictCache :=
  match c.mode with
  | .nrOnly =>
    if call.nr.toNat < maxCachedNr then
      { c with allowedNrs := update c.allowedNrs call.nr.toNat true }
    else c
  | .nrRIP =>
    { c with ripAllowed := update c.ripAllowed (slot rip call.nr) ⟨rip, call.nr + 1⟩ }
  | .none => c

end VerdictCache

def executeFilterSlow (is64BitMode : Bool) (killSignal : ℕ) (c : VerdictCache)
    (chain : List SeccompFilterInfo) (call : Call) (precomputedRIP : BitVec 64) (haveRIP : Bool) :
    VerdictCache × ExecuteFilterResult × List Event :=
  let ripValid := haveRIP || c.needsRIP
  let rip := if haveRIP then precomputedRIP else if c.needsRIP then call.rip else 0
  let verdict := runChain chain (call.data is64BitMode rip)
  -- `GetRIP` for the audit message and the signal
  let known := if ripValid then rip else call.rip
  (if retAction verdict.1 = .allow then c.remember call rip else c,
    respond killSignal (auditArch is64BitMode) call known verdict)

variable (s : State) (t : Thread)

/-- `ExecuteFilter`: the new cache, the result and what else happens. -/
def State.executeFilter (call : Call) :
    Option (VerdictCache × ExecuteFilterResult × List Event) :=
  if t.filters = [] then some (t.seccompCache, proceed, [])
  else
    (s.chain t).map fun chain =>
      let c := t.seccompCache.revalidate s.filterGeneration chain
      if c.hit call then (c, proceed, [])
      else
        match c.mode with
        | .nrRIP =>
          executeFilterSlow s.is64BitMode s.currentKillSignal c chain call call.rip true
        | .none | .nrOnly =>
          executeFilterSlow s.is64BitMode s.currentKillSignal c chain call 0 false

/-- A syscall of a thread.  A deadly signal ends the process. -/
def State.syscall (call : Call) :
    Option (State × ExecuteFilterResult × List Event) :=
  (s.executeFilter t call).map fun r =>
    (if r.2.2.any fun e => match e with | .kill _ => true | _ => false then { s with threads := [] }
      else s.modify t.id fun u => { u with seccompCache := r.1 },
    r.2)

/-! ### Threads -/

/-- `InheritSeccompFilters`, in `CreateThread`. -/
def State.createThread (parent : Thread) (child tid : ℕ) : State :=
  { s with
    refCount := fun p => s.refCount p + parent.filters.count p
    threads := s.threads ++ [⟨child, tid, false, parent.seccompMode, parent.filters, .initial⟩]
    granted := update s.granted child (s.granted parent.id) }

def State.trackThread : State :=
  { s with threads := s.threads.filter (fun u => u.id ≠ t.id) ++ [{ t with tracked := true }] }

/-- The loop of `FreeSeccompFilters`: the counts, and whether one of them was the last. -/
def releaseAll : List ℕ → (ℕ → ℕ) → Bool → (ℕ → ℕ) × Bool
  | [], refCount, last => (refCount, last)
  | p :: ps, refCount, last =>
    releaseAll ps (update refCount p (refCount p - 1)) (last || refCount p == 1)

/-- `FreeSeccompFilters`, in `DestroyThread`. -/
def State.exitThread : State :=
  let (refCount, hasFiltersToDelete) := releaseAll t.filters s.refCount false
  { s with
    refCount := refCount
    info := if hasFiltersToDelete then fun p => if refCount p = 0 then none else s.info p
      else s.info
    threads := s.threads.filter fun u => u.id ≠ t.id }

/-- The child process of a fork: the thread is the only one left, with a new number. -/
def State.fork (tid : ℕ) : State :=
  { s with threads := [{ t with tid := tid, tracked := true }] }

/-! ### Installing a filter -/

inductive Errno
  | einval | efault | eacces | enomem | esrch
deriving DecidableEq

inductive Answer
  | ok
  | error (e : Errno)
  /-- The thread that cannot be synchronised. -/
  | tid (tid : ℕ)
  | verdict (result : ExecuteFilterResult) (events : List Event)
deriving DecidableEq

def bpfMultifilterpenalty : ℕ := 4

def bpfMaxInsnsPerPath : ℕ := 32768

/-- The flags of `SetModeFilter`. -/
def flagTsync : BitVec 32 := 1
def flagLog : BitVec 32 := 2
def flagSpecAllow : BitVec 32 := 4
def flagNewListener : BitVec 32 := 8
def flagTsyncEsrch : BitVec 32 := 16

def supportedFlags : BitVec 32 := flagTsync ||| flagLog ||| flagSpecAllow ||| flagTsyncEsrch

def hasFlag (flags flag : BitVec 32) : Bool := flags &&& flag != 0

/-- A thread that keeps `parent` from synchronising. -/
def Thread.Blocks (parent u : Thread) : Prop :=
  u.tracked = true ∧ u.id ≠ parent.id ∧ u.seccompMode ≠ modeDisabled ∧
    (u.seccompMode ≠ parent.seccompMode ∨ u.filters ≠ parent.filters)

instance (parent u : Thread) : Decidable (parent.Blocks u) := inferInstanceAs (Decidable (_ ∧ _))

/-- `CanDoTSync`: zero, or the number of the first thread that cannot be synchronised. -/
def State.canDoTSync (parent : Thread) : ℕ :=
  match s.threads.find? fun u => parent.Blocks u with
  | some u => u.tid
  | none => 0

/-- The threads `TSyncFilters` overwrites. -/
def Thread.Synced (parent : ℕ) (u : Thread) : Bool := u.tracked && u.id != parent

def State.tSyncFilters (parent : Thread) : State :=
  { s with
    refCount := fun p =>
      s.refCount p + s.threads.countP (Thread.Synced parent.id) * parent.filters.count p
    threads := s.threads.map fun u =>
      if u.Synced parent.id then
        { u with filters := parent.filters, seccompMode := parent.seccompMode }
      else u }

/-- The end of `SetModeFilter`: the accepted program is installed at a new address. -/
def State.install (tsync : Bool) (f : SeccompFilterInfo) (addr : ℕ) :
    State :=
  let t' := { t with filters := t.filters ++ [addr], seccompMode := modeFilter }
  let s' :=
    { s with
      info := update s.info addr (some f)
      refCount := update s.refCount addr 1
      totalFilterInstructions := s.totalFilterInstructions + f.program.insts.length
      filterGeneration := s.filterGeneration + 1
      threads := s.threads.map fun u => if u.id = t.id then t' else u
      granted := fun i => if tsync = true ∨ i = t.id then f.filter :: s.granted i else s.granted i }
  if tsync then s'.tSyncFilters t' else s'

/-- `SetModeFilter`.  `noNewPrivs` is the kernel's answer to `PR_GET_NO_NEW_PRIVS`, `addr` the
address of the new node of the list.  No successor: `addr` is in use. -/
def State.setModeFilter (noNewPrivs : Bool) (flags : BitVec 32)
    (prog : Option (List SockFilter)) (addr : ℕ) : Option (State × Answer) :=
  if flags &&& ~~~supportedFlags ≠ 0 then some (s, .error .einval)
  else if hasFlag flags flagTsync && hasFlag flags flagNewListener &&
      !hasFlag flags flagTsyncEsrch then some (s, .error .einval)
  else
    match prog with
    | none => some (s, .error .efault)
    | some insts =>
      if !noNewPrivs then some (s, .error .eacces)
      else if hlen : bpfMaxinsns < insts.length ∨ insts.length = 0 then some (s, .error .einval)
      else if bpfMaxInsnsPerPath <
          s.totalFilterInstructions + insts.length + t.filters.length * bpfMultifilterpenalty then
        some (s, .error .enomem)
      else if hasFlag flags flagTsync && s.canDoTSync t != 0 then
        some (s, if hasFlag flags flagTsyncEsrch then .error .esrch else .tid (s.canDoTSync t))
      else if hvalid : validateProgram insts = true then
        if (s.info addr).isSome then none
        else
          let program : Program := ⟨insts, not_lt.1 fun h => hlen (.inl h), hvalid⟩
          some (s.install t (hasFlag flags flagTsync) (.of program (hasFlag flags flagLog)) addr,
            .ok)
      else some (s, .error .einval)

def bpfStmt (code : BitVec 16) (k : BitVec 32) : SockFilter := ⟨code, 0, 0, k⟩

def allowSyscall (nr : BitVec 32) : List SockFilter := [⟨0x15, 0, 1, nr⟩, bpfStmt 0x06 0x7fff0000]

/-- A filter that kills the process at every syscall but some. -/
def strictFilter (nrs : List (BitVec 32)) : List SockFilter :=
  bpfStmt 0x20 0 :: (nrs.flatMap allowSyscall ++ [bpfStmt 0x06 0x80000000])

/-- `strict_filter_x64`: `read`, `write`, `exit`, `exit_group`, `rt_sigreturn`. -/
def strictFilterX64 : Program :=
  ⟨strictFilter [0, 1, 60, 231, 15], by decide +kernel, by decide +kernel⟩

/-- `strict_filter_x32`: `read`, `write`, `exit`, `exit_group`, `rt_sigreturn`, `sigreturn`. -/
def strictFilterX32 : Program :=
  ⟨strictFilter [3, 4, 1, 252, 173, 119], by decide +kernel, by decide +kernel⟩

def State.strictProgram : Program :=
  if s.is64BitMode then strictFilterX64 else strictFilterX32

/-- The end of `SetModeStrict`, which answers that the filter is installed. -/
def State.strict (program : Program) : State :=
  { s.modify t.id (fun u => { u with seccompMode := modeStrict }) with
    granted := update s.granted t.id ((program, false) :: s.granted t.id) }

/-- `SetModeStrict`.  The answer of `SetModeFilter` is ignored. -/
def State.setModeStrict (noNewPrivs : Bool) (flags : BitVec 32)
    (argIsNull : Bool) (addr : ℕ) : Option (State × Answer) :=
  if !noNewPrivs then some (s, .error .eacces)
  else if flags ≠ 0 then some (s, .error .einval)
  else if !argIsNull then some (s, .error .einval)
  else if t.seccompMode = modeFilter then some (s, .error .einval)
  else
    (State.setModeFilter { s with currentKillSignal := sigkill } t noNewPrivs 0
      (some s.strictProgram.insts) addr).map fun r => (r.1.strict t s.strictProgram, .ok)

end FastPPC.Seccomp
