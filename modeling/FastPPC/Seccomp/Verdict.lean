import FastPPC.Seccomp.Sharing

/-!
# The cache of verdicts is invisible

The verdict on a syscall is the result of highest precedence among the results of all filters of
the chain, on the full data of the syscall.  `ExecuteFilter` skips the interpreter when the cache of
the thread has an entry for the syscall, and leaves the instruction pointer out of the data when no
filter reads it.

* `interpret` : the answer to a syscall, from the whole chain and the full data;
* `VerdictCache.Sound` : what the entries of a cache promise for a chain;
* `executeFilter_eq_interpret` : in every state of a run the answer is that of `interpret`.  An
  empty entry of `RIPAllowed` is the key of syscall number `2 ^ 64 - 1` at address zero, and a
  failed deserialisation leaves the generation as it was (`executeFilter_skips_filters`).
-/

namespace FastPPC.Seccomp

open State List Option Bool

/-! ### The meaning of a chain -/

variable {killSignal : ℕ} {rip : BitVec 64}

/-- The result of highest precedence, that of the latest filter among equals. -/
def highestPrecedence (chain : List SeccompFilterInfo) (d : SeccompData) :
    Option (BitVec 32 × Bool) :=
  @List.argmin _ ℤ Int.instLinearOrder.toPreorder Int.decLt (fun v => precedence v.1)
    (chain.reverse.map fun f => (f.program.run d, f.shouldLog))

/-- **The answer to a syscall**: every filter is interpreted on the full data. -/
def interpret (is64BitMode : Bool) (killSignal : ℕ) (chain : List SeccompFilterInfo) (call : Call) :
    ExecuteFilterResult × List Event :=
  match highestPrecedence chain (call.data is64BitMode call.rip) with
  | none => (proceed, [])
  | some verdict => respond killSignal (auditArch is64BitMode) call call.rip verdict

/-- The loop over the chain finds the result of highest precedence. -/
theorem foldl_chainStep (chain : List SeccompFilterInfo) (d : SeccompData) :
    chain.reverse.foldl (chainStep d) none = highestPrecedence chain d := by
  rw [highestPrecedence, List.argmin, foldl_map]
  refine foldl_ext _ _ _ fun acc f _ => ?_
  cases acc <;> rfl

theorem runChain_eq {chain : List SeccompFilterInfo} (h : chain ≠ []) (d : SeccompData) :
    highestPrecedence chain d = some (runChain chain d) := by
  rw [runChain, foldl_chainStep]
  cases hv : highestPrecedence chain d with
  | some v => rfl
  | none =>
    rw [highestPrecedence, argmin_eq_none, map_eq_nil_iff, reverse_eq_nil_iff] at hv
    exact absurd hv h

theorem interpret_eq {is64BitMode : Bool} {chain : List SeccompFilterInfo} (h : chain ≠ [])
    (call : Call) :
    interpret is64BitMode killSignal chain call =
      respond killSignal (auditArch is64BitMode) call call.rip
        (runChain chain (call.data is64BitMode call.rip)) := by
  rw [interpret, runChain_eq h]

/-- The verdict depends only on what the filters of the chain load. -/
theorem runChain_congr {chain : List SeccompFilterInfo} {d d' : SeccompData}
    (h : d.Agree (chain.any (·.readsIP), chain.any (·.readsArgs)) d') :
    runChain chain d = runChain chain d' := by
  have hrun : ∀ f ∈ chain, f.program.run d = f.program.run d' := by
    intro f hf
    refine f.program.run_congr ?_
    rw [← f.analyzed]
    exact ⟨h.nr, h.arch, fun hip => h.ip (any_eq_true.2 ⟨f, hf, hip⟩),
      fun har => h.args (any_eq_true.2 ⟨f, hf, har⟩)⟩
  rw [runChain, runChain]
  congr 1
  refine foldl_ext _ _ _ fun acc f hf => ?_
  have hf := hrun f (mem_reverse.1 hf)
  cases acc <;> simp [chainStep, hf]

/-- The data of two calls of one number agree where the filters look. -/
theorem Call.data_agree {call call' : Call} {is64BitMode : Bool} {rip' : BitVec 64}
    {flags : Bool × Bool} (hnr : call.nr = call'.nr) (hip : flags.1 = true → rip = rip')
    (har : flags.2 = true → call.args = call'.args) :
    (call.data is64BitMode rip).Agree flags (call'.data is64BitMode rip') :=
  ⟨congrArg (BitVec.setWidth 32) hnr, rfl, hip, har⟩

def Allowed (is64BitMode : Bool) (chain : List SeccompFilterInfo) (call : Call) : Prop :=
  retAction (runChain chain (call.data is64BitMode call.rip)).1 = .allow

/-- Allowing has no other effect. -/
theorem respond_of_allow {verdict : BitVec 32 × Bool} (h : retAction verdict.1 = .allow)
    (killSignal : ℕ) (arch : BitVec 32) (call : Call) (rip : BitVec 64) :
    respond killSignal arch call rip verdict = (proceed, []) := by
  simp [respond, h]

/-! ### Sound caches -/

def cacheMode (chain : List SeccompFilterInfo) : CacheMode :=
  if chain.any (·.readsArgs) then .none else if chain.any (·.readsIP) then .nrRIP else .nrOnly

/-- The syscall whose key is that of an empty entry. -/
def Call.Collides (call : Call) : Prop := call.nr.toNat = 2 ^ 64 - 1 ∧ call.rip = 0

/-- The cache knows what the filters of the chain read, and what it has recorded is allowed. -/
structure VerdictCache.Sound (c : VerdictCache) (is64BitMode : Bool)
    (chain : List SeccompFilterInfo) : Prop where
  mode : c.mode = cacheMode chain
  needsRIP : c.needsRIP = chain.any (·.readsIP)
  nrs : c.mode = .nrOnly → ∀ call : Call, c.allowedNrs call.nr.toNat = true →
    Allowed is64BitMode chain call
  rips : c.mode = .nrRIP → ∀ i, c.ripAllowed i = ⟨0, 0⟩ ∨
    ∀ call : Call, c.ripAllowed i = ⟨call.rip, call.nr + 1⟩ → Allowed is64BitMode chain call

namespace VerdictCache

variable {c : VerdictCache} {is64BitMode : Bool} {chain : List SeccompFilterInfo} {call : Call}

/-- The mode `NrOnly` is for chains that read neither the address nor the arguments. -/
theorem reads_of_nrOnly (h : cacheMode chain = .nrOnly) :
    chain.any (·.readsArgs) = false ∧ chain.any (·.readsIP) = false := by
  rw [cacheMode] at h
  split at h
  · cases h
  · split at h
    · cases h
    · rename_i har hip
      exact ⟨eq_false_iff.2 har, eq_false_iff.2 hip⟩

/-- The mode `NrRIP` is for chains that do not read the arguments. -/
theorem reads_of_nrRIP (h : cacheMode chain = .nrRIP) : chain.any (·.readsArgs) = false := by
  rw [cacheMode] at h
  split at h
  · cases h
  · rename_i har
    exact eq_false_iff.2 har

theorem revalidate_sound {generation : BitVec 64}
    (h : c.generation = generation → c.Sound is64BitMode chain) :
    (c.revalidate generation chain).Sound is64BitMode chain ∧
      (c.revalidate generation chain).generation = generation := by
  rw [revalidate]
  split
  · rename_i heq
    exact ⟨h heq, heq⟩
  · exact ⟨⟨rfl, rfl, fun _ _ h => absurd h false_ne_true, fun _ _ => .inl rfl⟩, rfl⟩

/-- **A hit is an allowed syscall**, but for the key of an empty entry. -/
theorem Sound.allowed_of_hit (h : c.Sound is64BitMode chain) (hcl : ¬call.Collides)
    (hhit : c.hit call = true) : Allowed is64BitMode chain call := by
  rw [hit] at hhit
  split at hhit
  · rename_i hmd
    exact h.nrs hmd call (and_eq_true_iff.1 hhit).2
  · rename_i hmd
    obtain ⟨hrip, hnr⟩ := and_eq_true_iff.1 hhit
    have hent : c.ripAllowed (slot call.rip call.nr) = ⟨call.rip, call.nr + 1⟩ :=
      congrArg₂ RIPEntry.mk (eq_of_beq hrip) (eq_of_beq hnr)
    rcases h.rips hmd (slot call.rip call.nr) with hemp | hall
    · rw [hemp] at hent
      injection hent with hrip0 hnr0
      refine absurd ⟨?_, hrip0.symm⟩ hcl
      bv_omega
    · exact hall call hent
  · cases hhit

/-- **Remembering an allowed syscall** keeps the cache sound. -/
theorem Sound.remember (h : c.Sound is64BitMode chain) (hall : Allowed is64BitMode chain call)
    (hrip : c.mode = .nrRIP → rip = call.rip) : (c.remember call rip).Sound is64BitMode chain := by
  rw [VerdictCache.remember]
  split
  · rename_i hmd
    split
    · refine ⟨h.mode, h.needsRIP, fun _ other hoth => ?_, h.rips⟩
      by_cases hnr : other.nr.toNat = call.nr.toNat
      · -- the number determines the verdict
        obtain ⟨har, hip⟩ := reads_of_nrOnly (h.mode.symm.trans hmd)
        rw [Allowed, runChain_congr (Call.data_agree (BitVec.eq_of_toNat_eq hnr)
          (fun hf => absurd (hip.symm.trans hf) false_ne_true)
          (fun hf => absurd (har.symm.trans hf) false_ne_true))]
        exact hall
      · simp only [Function.update_of_ne hnr] at hoth
        exact h.nrs hmd other hoth
    · exact h
  · rename_i hmd
    refine ⟨h.mode, h.needsRIP, h.nrs, fun _ i => ?_⟩
    by_cases hi : i = slot rip call.nr
    · refine .inr fun other hoth => ?_
      -- the number and the address determine the verdict
      simp only [hi, Function.update_self, hrip hmd] at hoth
      injection hoth with hrp hnrs
      have har := reads_of_nrRIP (h.mode.symm.trans hmd)
      rw [Allowed, ← runChain_congr (Call.data_agree ((BitVec.add_left_inj _).1 hnrs) (fun _ => hrp)
        (fun hf => absurd (har.symm.trans hf) false_ne_true))]
      exact hall
    · simp only [Function.update_of_ne hi]
      exact h.rips hmd i
  · exact h

end VerdictCache

/-- The slow path, with a sound cache and the instruction pointer where a filter reads it. -/
theorem executeFilterSlow_spec {is64BitMode : Bool} {c : VerdictCache}
    {chain : List SeccompFilterInfo} {call : Call} {haveRIP : Bool} (hne : chain ≠ [])
    (hsou : c.Sound is64BitMode chain) (hrip : haveRIP = true → rip = call.rip)
    (hmd : c.mode = .nrRIP → haveRIP = true) :
    (executeFilterSlow is64BitMode killSignal c chain call rip haveRIP).2 =
        interpret is64BitMode killSignal chain call ∧
      (executeFilterSlow is64BitMode killSignal c chain call rip haveRIP).1.Sound is64BitMode
        chain ∧
      (executeFilterSlow is64BitMode killSignal c chain call rip haveRIP).1.generation =
        c.generation := by
  simp only [executeFilterSlow]
  have hsn : ∀ seen, (seen = if haveRIP then rip else if c.needsRIP then call.rip else 0) →
      runChain chain (call.data is64BitMode seen) =
        runChain chain (call.data is64BitMode call.rip) ∧
      (if haveRIP || c.needsRIP then seen else call.rip) = call.rip ∧
      (c.mode = .nrRIP → seen = call.rip) := by
    rintro seen rfl
    cases haveRIP with
    | true => simp [hrip rfl]
    | false =>
      cases hnee : c.needsRIP with
      | true => simp
      | false =>
        refine ⟨?_, by simp, fun h => absurd (hmd h) false_ne_true⟩
        refine runChain_congr (Call.data_agree rfl (fun hip => ?_) fun _ => rfl)
        rw [← hsou.needsRIP, hnee] at hip
        cases hip
  obtain ⟨hrun, hkno, hserip⟩ := hsn _ rfl
  rw [hrun, hkno, interpret_eq hne]
  refine ⟨rfl, ?_, ?_⟩
  · split
    · rename_i hall
      exact hsou.remember hall hserip
    · exact hsou
  · split
    · rw [VerdictCache.remember]
      repeat' split
      all_goals rfl
    · rfl

theorem State.executeFilter_spec {s : State} {t : Thread} {chain : List SeccompFilterInfo}
    (hcha : s.chain t = some chain) (hsou : t.seccompCache.generation = s.filterGeneration →
      t.seccompCache.Sound s.is64BitMode chain) {call : Call} (hcl : ¬call.Collides) :
    ∃ c, s.executeFilter t call = some (c, interpret s.is64BitMode s.currentKillSignal chain call) ∧
      (c = t.seccompCache ∨ c.generation = s.filterGeneration ∧ c.Sound s.is64BitMode chain) := by
  rw [executeFilter]
  split
  · rename_i hnil
    rw [State.chain, hnil] at hcha
    cases hcha
    exact ⟨_, rfl, .inl rfl⟩
  · rename_i hfil
    have hne : chain ≠ [] := by
      rintro rfl
      exact hfil (length_eq_zero_iff.1 (length_chain hcha).symm)
    obtain ⟨hs, hgen⟩ := VerdictCache.revalidate_sound hsou
    rw [hcha]
    simp only [map_some]
    split
    · rename_i hhit
      refine ⟨_, ?_, .inr ⟨hgen, hs⟩⟩
      rw [interpret_eq hne, respond_of_allow (hs.allowed_of_hit hcl hhit)]
    · split
      · obtain ⟨heq, hs', hgen'⟩ := executeFilterSlow_spec hne hs (fun _ => rfl) (fun _ => rfl)
        exact ⟨_, by rw [← heq], .inr ⟨hgen'.trans hgen, hs'⟩⟩
      all_goals
        rename_i hmd
        obtain ⟨heq, hs', hgen'⟩ := executeFilterSlow_spec hne hs (absurd · false_ne_true)
          (fun h => by rw [hmd] at h; cases h)
        exact ⟨_, by rw [← heq], .inr ⟨hgen'.trans hgen, hs'⟩⟩

/-! ### Runs -/

variable {flags : BitVec 32}

variable {addr tid : ℕ} {noNewPrivs : Bool} {a : Answer}

/-- The cache of a thread is sound if it is of the current generation. -/
structure CacheOk (s : State) (u : Thread) : Prop where
  le : u.seccompCache.generation.toNat ≤ s.filterGeneration.toNat
  sound : u.seccompCache.generation = s.filterGeneration → ∀ chain, s.chain u = some chain →
    u.seccompCache.Sound s.is64BitMode chain

namespace CacheOk

variable {s s' : State} {u u' : Thread}

/-- A cache of an earlier generation is not used. -/
theorem of_lt (h : u.seccompCache.generation.toNat < s.filterGeneration.toNat) : CacheOk s u :=
  ⟨h.le, fun heq => absurd (congrArg BitVec.toNat heq) h.ne⟩

theorem congr (h : CacheOk s u) (hcac : u'.seccompCache = u.seccompCache)
    (hcha : s'.chain u' = s.chain u) (hgen : s'.filterGeneration = s.filterGeneration)
    (hmd : s'.is64BitMode = s.is64BitMode) : CacheOk s' u' := by
  refine ⟨?_, fun heq chain hc => ?_⟩
  · rw [hcac, hgen]
    exact h.le
  · rw [hcac, hgen] at heq
    rw [hcha] at hc
    rw [hcac, hmd]
    exact h.sound heq chain hc

end CacheOk

structure Inv (s : State) : Prop extends Shape s where
  generation : 0 < s.filterGeneration.toNat
  caches : ∀ u ∈ s.threads, CacheOk s u

/-- The reads from `i` on give the next `n` filters of a file. -/
def ReadsFilters (reads : ℕ → Io) : ℕ → ℕ → List Codec.Byte → Prop
  | 0, _, _ => True
  | n + 1, i, file =>
    ∃ f rest, readFilter reads i file = some (f, rest) ∧ ReadsFilters reads n (i + 2) rest

/-- The reads give the header of a file and the filters it announces. -/
def ReadsFile (reads : ℕ → Io) (file : List Codec.Byte) : Prop :=
  ∃ header rest, readExactly (reads 0) headerSize file = some (header, rest) ∧
    ReadsFilters reads (Codec.leValue (header.take 8)) 1 rest

/-- A syscall that is no key of an empty entry; fewer than `2 ^ 64` changes of the filters; a
deserialisation of a file that is read to its end, or for a thread that has made no syscall since
the last change. -/
def Careful (s : State) : Op → Prop
  | .syscall _ call => ¬call.Collides
  | .setModeFilter .. | .setModeStrict .. => s.filterGeneration.toNat + 1 < 2 ^ 64
  | .deserialize t file reads _ =>
    s.filterGeneration.toNat + 1 < 2 ^ 64 ∧ (ReadsFile reads file ∨
      ∀ u ∈ s.threads, u.id = t → u.seccompCache.generation ≠ s.filterGeneration)
  | _ => True

namespace Inv

variable {s s' : State} {t : Thread}

/-- A change of the filters makes all caches old. -/
theorem bumped (h : Inv s) (hsha : Shape s') (hgen : s'.filterGeneration = s.filterGeneration + 1)
    (hft : s.filterGeneration.toNat + 1 < 2 ^ 64)
    (hori : ∀ u' ∈ s'.threads, ∃ u ∈ s.threads, u'.seccompCache = u.seccompCache) : Inv s' := by
  have hnat : s'.filterGeneration.toNat = s.filterGeneration.toNat + 1 := by
    rw [hgen, BitVec.toNat_add]
    exact Nat.mod_eq_of_lt hft
  refine ⟨hsha, by omega, fun u' hu' => .of_lt ?_⟩
  obtain ⟨u, hu, hcac⟩ := hori u' hu'
  rw [hcac, hnat]
  exact Nat.lt_succ_of_le (h.caches u hu).le

theorem install (h : Inv s) (ht : t ∈ s.threads) (had : s.info addr = none)
    (hft : s.filterGeneration.toNat + 1 < 2 ^ 64) (tsync : Bool) (f : SeccompFilterInfo) :
    Inv (s.install t tsync f addr) := by
  refine h.bumped (h.toShape.install ht had tsync f) ?_ hft ?_
  · rw [State.install]
    split <;> rfl
  · have hmap : ∀ u' ∈ s.threads.map fun u => if u.id = t.id then
        { t with filters := t.filters ++ [addr], seccompMode := modeFilter } else u,
        ∃ u ∈ s.threads, u'.seccompCache = u.seccompCache := by
      intro u' hu'
      obtain ⟨u, hu, rfl⟩ := mem_map.1 hu'
      split
      · exact ⟨t, ht, rfl⟩
      · exact ⟨u, hu, rfl⟩
    rw [State.install]
    split
    · intro u' hu'
      obtain ⟨v, hv, rfl⟩ := mem_map.1 hu'
      obtain ⟨u, hu, hcac⟩ := hmap v hv
      exact ⟨u, hu, by split <;> exact hcac⟩
    · exact hmap

section

variable (h : Inv s) (ht : t ∈ s.threads) (hft : s.filterGeneration.toNat + 1 < 2 ^ 64)
include h ht hft

theorem setModeFilter {prog : Option (List SockFilter)}
    (hs : s.setModeFilter t noNewPrivs flags prog addr = some (s', a)) : Inv s' := by
  rcases setModeFilter_cases hs with ⟨rfl, -⟩ | ⟨program, -, -, hfr, -, -, rfl⟩
  · exact h
  · exact h.install ht hfr hft _ _

theorem setModeStrict {argIsNull : Bool}
    (hs : s.setModeStrict t noNewPrivs flags argIsNull addr = some (s', a)) : Inv s' := by
  have hsha := h.toShape.setModeStrict ht hs
  rcases setModeStrict_cases hs with ⟨rfl, -⟩ | ⟨-, -, r, hr, rfl⟩
  · exact h
  · have hkl : Inv { s with currentKillSignal := sigkill } :=
      ⟨⟨h.ids, h.tids, h.refs, h.live⟩, h.generation,
        fun u hu => (h.caches u hu).congr rfl rfl rfl rfl⟩
    have hinn := hkl.setModeFilter ht hft hr
    refine ⟨hsha, hinn.generation, fun u' hu' => ?_⟩
    obtain ⟨u, hu, rfl⟩ := mem_map.1 hu'
    split <;> exact (hinn.caches u hu).congr rfl rfl rfl rfl

end

theorem syscall (h : Inv s) (ht : t ∈ s.threads) {call : Call} (hcl : ¬call.Collides)
    {r : ExecuteFilterResult × List Event} (hs : s.syscall t call = some (s', r)) : Inv s' := by
  have hsha := h.toShape.syscall hs
  obtain ⟨c, hc, rfl | rfl⟩ := syscall_cases hs
  · exact ⟨hsha, h.generation, nofun⟩
  · refine ⟨hsha, h.generation, fun u' hu' => ?_⟩
    obtain ⟨u, hu, rfl⟩ := mem_map.1 hu'
    split
    · -- the thread of the syscall, with its new cache
      rename_i hid
      rw [h.eq_of_id ht hu hid]
      obtain ⟨chain, hcha⟩ := h.exists_chain ht
      obtain ⟨c', hc', hkee⟩ :=
        executeFilter_spec hcha (fun heq => (h.caches t ht).sound heq chain hcha) hcl
      rw [hc] at hc'
      cases hc'
      rcases hkee with rfl | ⟨hgen, hsou⟩
      · exact (h.caches t ht).congr rfl rfl rfl rfl
      · refine ⟨le_of_eq (congrArg BitVec.toNat hgen), fun _ chain' hcha' => ?_⟩
        have : s.chain t = some chain' := hcha'
        rw [hcha] at this
        cases this
        exact hsou
    · exact (h.caches u hu).congr rfl rfl rfl rfl

section

variable (h : Inv s) (ht : t ∈ s.threads)
include h ht

theorem createThread {child : ℕ} (htid : tid ≠ 0) (hchi : s.findThread child = none) :
    Inv (s.createThread t child tid) := by
  refine ⟨h.toShape.createThread ht htid hchi, h.generation, fun u hu => ?_⟩
  rcases mem_append.1 hu with hu | hu
  · exact (h.caches u hu).congr rfl rfl rfl rfl
  · -- no generation is zero, so the cache of a new thread is rebuilt
    rw [mem_singleton.1 hu]
    exact .of_lt h.generation

theorem trackThread : Inv (s.trackThread t) := by
  refine ⟨h.toShape.trackThread ht, h.generation, fun u hu => ?_⟩
  rcases mem_append.1 hu with hu | hu
  · exact (h.caches u (mem_filter.1 hu).1).congr rfl rfl rfl rfl
  · rw [mem_singleton.1 hu]
    exact (h.caches t ht).congr rfl rfl rfl rfl

theorem exitThread : Inv (s.exitThread t) := by
  refine ⟨h.toShape.exitThread ht, h.generation, fun u hu => ?_⟩
  exact (h.caches u (mem_filter.1 hu).1).congr rfl
    (chain_congr rfl fun p hp => h.toShape.exitThread_info ht hu hp) rfl rfl

theorem fork (htid : tid ≠ 0) : Inv (s.fork t tid) := by
  refine ⟨h.toShape.fork ht htid, h.generation, fun u hu => ?_⟩
  rw [mem_singleton.1 hu]
  exact (h.caches t ht).congr rfl rfl rfl rfl

end

theorem image (is64BitMode : Bool) (id : ℕ) (htid : tid ≠ 0) (granted : ℕ → List (Program × Bool)) :
    Inv (.image is64BitMode id tid granted) := by
  refine ⟨.image is64BitMode id htid granted, Nat.one_pos, fun u hu => ?_⟩
  rw [mem_singleton.1 hu]
  exact .of_lt Nat.one_pos

end Inv

/-- The state in the course of a deserialisation for thread `i`: the caches are as they were, and
so are the other chains. -/
structure Loading (i : ℕ) (s₀ s : State) : Prop where
  shape : Shape s
  generation : s.filterGeneration = s₀.filterGeneration
  mode : s.is64BitMode = s₀.is64BitMode
  origin : ∀ u ∈ s.threads, ∃ v ∈ s₀.threads, u.id = v.id ∧ u.seccompCache = v.seccompCache ∧
    (u.id ≠ i → s.chain u = s₀.chain v)

theorem Loading.append {i : ℕ} {s₀ s : State} (h : Loading i s₀ s) (f : SeccompFilterInfo)
    (had : s.info addr = none) : Loading i s₀ (s.append i f addr) := by
  refine ⟨h.shape.append i f had, h.generation, h.mode, fun u' hu' => ?_⟩
  obtain ⟨u, hu, rfl⟩ := mem_map.1 hu'
  obtain ⟨v, hv, hid, hcac, hcha⟩ := h.origin u hu
  split
  · rename_i hi
    exact ⟨v, hv, hid, hcac, fun hne => absurd hi hne⟩
  · refine ⟨v, hv, hid, hcac, fun hne => ?_⟩
    rw [← hcha hne]
    exact chain_congr rfl fun p hp => h.shape.update_info had hu hp

variable {s s' : State} {t : Thread} {i : ℕ} {file : List Codec.Byte} {reads : ℕ → Io}
  {alloc : ℕ → ℕ} {b : Bool}

theorem State.deserializeLoop_complete {r : State × Bool} : ∀ {n j : ℕ} {file : List Codec.Byte}
    {s : State}, ReadsFilters reads n j file →
    deserializeLoop reads alloc i n j file s = some r → r.2 = true
  | 0, _, _, _, _, hr => by
    cases hr
    rfl
  | n + 1, _, _, _, ⟨_, _, hf, hrs⟩, hr => by
    rw [deserializeLoop, hf] at hr
    obtain ⟨-, hr⟩ := ite_none_left_eq_some.1 hr
    exact deserializeLoop_complete hrs hr

/-- A file that is read to its end is deserialised. -/
theorem State.deserializeFilters_complete (hfile : ReadsFile reads file)
    (hs : s.deserializeFilters i file reads alloc = some (s', b)) : b = true := by
  obtain ⟨header, rest, hh, hrs⟩ := hfile
  rw [State.deserializeFilters, hh] at hs
  obtain ⟨r, hr, heq⟩ := map_eq_some_iff.1 hs
  rw [if_pos (deserializeLoop_complete hrs hr)] at heq
  cases heq
  rfl

namespace Inv

theorem deserializeFilters (h : Inv s) (hs : s.deserializeFilters i file reads alloc = some (s', b))
    (hft : s.filterGeneration.toNat + 1 < 2 ^ 64) (hold : b = true ∨ ∀ u ∈ s.threads, u.id = i →
      u.seccompCache.generation ≠ s.filterGeneration) : Inv s' := by
  have hsha := h.toShape.deserializeFilters hs
  rcases deserializeFilters_cases hs with ⟨-, rfl⟩ | ⟨n, file', mode, r, hr, hend⟩
  · exact h
  · have hlp : Loading i s r.1 :=
      deserializeLoop_induct (fun _ f _ hP hfr => hP.append f hfr)
        ⟨h.toShape, rfl, rfl, fun u hu => ⟨u, hu, rfl, rfl, fun _ => rfl⟩⟩ hr
    rcases hend with ⟨-, hb, rfl⟩ | ⟨-, -, rfl⟩
    · -- it has stopped: the generation is the same, but this thread has no cache of it
      have hold := hold.resolve_left (by rw [hb]; exact false_ne_true)
      refine ⟨hsha, by rw [hlp.generation]; exact h.generation, fun u hu => ?_⟩
      obtain ⟨v, hv, hid, hcac, hcha⟩ := hlp.origin u hu
      have hok := h.caches v hv
      by_cases hi : u.id = i
      · refine ⟨?_, fun heq => absurd ?_ (hold v hv (hid.symm.trans hi))⟩
        · rw [hcac, hlp.generation]
          exact hok.le
        · rw [← hcac, heq, hlp.generation]
      · exact hok.congr hcac (hcha hi) hlp.generation hlp.mode
    · refine h.bumped hsha (congrArg (· + 1) hlp.generation) hft fun u' hu' => ?_
      obtain ⟨u, hu, rfl⟩ := mem_map.1 hu'
      obtain ⟨v, hv, -, hcac, -⟩ := hlp.origin u hu
      exact ⟨v, hv, by split <;> exact hcac⟩

theorem execve (h : Inv s) {q : ExecArgs} (htid : q.tid ≠ 0) (hs : s.execve t q = some s') :
    Inv s' := by
  have hima := image q.is64BitMode t.id htid s.granted
  rcases execve_cases hs with rfl | ⟨fd, -, -, ⟨-, rfl⟩ | ⟨file, b, -, hr⟩⟩
  · exact h
  · exact hima
  · have hft : (1 : BitVec 64).toNat + 1 < 2 ^ 64 := by decide
    refine hima.deserializeFilters hr hft (.inr fun u hu _ => ?_)
    rw [mem_singleton.1 hu]
    exact (by decide : (0 : BitVec 64) ≠ 1)

theorem step (h : Inv s) {op : Op} (hc : Careful s op) (hs : s.step op = some (s', a)) :
    Inv s' := by
  cases effect_of_step hs with
  | syscall ht hr => exact h.syscall ht hc hr
  | setModeFilter ht hr => exact h.setModeFilter ht hc hr
  | setModeStrict ht hr => exact h.setModeStrict ht hc hr
  | createThread ht htid hchi => exact h.createThread ht htid hchi
  | trackThread ht => exact h.trackThread ht
  | exitThread ht => exact h.exitThread ht
  | fork ht htid => exact h.fork ht htid
  | execve ht htid hr => exact h.execve htid hr
  | deserialize ht hr =>
    exact h.deserializeFilters hr hc.1
      (hc.2.imp_left fun hall => deserializeFilters_complete hall hr)

end Inv

/-- **The cache of verdicts is invisible**: in every state of a run of careful calls, the answer to
a syscall is that of interpreting every filter of the chain of the thread on the full data. -/
theorem executeFilter_eq_interpret (is64BitMode : Bool) (id tid : ℕ) (ops : List Op) (s : State)
    (htid : tid ≠ 0) (hrun : machine.Run Careful (.start is64BitMode id tid) ops s) (t : Thread)
    (ht : t ∈ s.threads) (call : Call) (hcall : ¬call.Collides) :
    ∃ chain, s.chain t = some chain ∧ (s.executeFilter t call).map Prod.snd =
      some (interpret s.is64BitMode s.currentKillSignal chain call) := by
  have hinv : Inv s := by
    refine hrun.invariant (.image is64BitMode id htid _) fun s op s' hs hc hst => ?_
    obtain ⟨a, hst⟩ := hst
    exact hs.step hc hst
  obtain ⟨chain, hcha⟩ := hinv.exists_chain ht
  obtain ⟨c, hc, -⟩ :=
    executeFilter_spec hcha (fun heq => (hinv.caches t ht).sound heq chain hcha) hcall
  exact ⟨chain, hcha, by rw [hc]; rfl⟩

/-- Loads the address and refuses everything with `EPERM`. -/
def denyByAddress : List SockFilter := [bpfStmt 0x20 8, bpfStmt 0x06 0x00050001]

/-- The first thread installs `denyByAddress`. -/
def installDeny : Op := .setModeFilter 1 true 0 (some denyByAddress) 0

/-- The answer to a call of some thread, from the emulator and from the whole chain. -/
def State.Answers (s : State) (call : Call) (code spec : ExecuteFilterResult × List Event) : Prop :=
  ∃ t ∈ s.threads, ∃ chain, s.chain t = some chain ∧
    (s.executeFilter t call).map Prod.snd = some code ∧
    interpret s.is64BitMode s.currentKillSignal chain call = spec

/-- `Answers` by evaluation. -/
def State.answers (s : State) (call : Call) (code spec : ExecuteFilterResult × List Event) : Bool :=
  s.threads.any fun t => (s.chain t).any fun chain =>
    (s.executeFilter t call).map Prod.snd == some code &&
      interpret s.is64BitMode s.currentKillSignal chain call == spec

theorem State.answers_iff {call : Call} {code spec : ExecuteFilterResult × List Event}
    (h : s.answers call code spec = true) : s.Answers call code spec := by
  obtain ⟨t, ht, h⟩ := any_eq_true.1 h
  obtain ⟨chain, hcha, h⟩ := (any_eq_true _ _).1 h
  obtain ⟨hcd, hsp⟩ := and_eq_true_iff.1 h
  exact ⟨t, ht, chain, hcha, eq_of_beq hcd, eq_of_beq hsp⟩

theorem executeFilter_eq_interpret_deny :
    ∃ s t, machine.Run Careful (.start true 1 1) [installDeny] s ∧ t ∈ s.threads ∧
      ∃ chain, s.chain t = some chain ∧ (s.executeFilter t ⟨0, fun _ => 0, 0x401000⟩).map Prod.snd =
          some (interpret s.is64BitMode s.currentKillSignal chain ⟨0, fun _ => 0, 0x401000⟩) := by
  have hsm : (((start true 1 1).step installDeny).any fun r => r.1.threads.any fun _ => true) =
      true := by decide +kernel
  obtain ⟨r, hr, h⟩ := (any_eq_true _ _).1 hsm
  obtain ⟨t, ht, -⟩ := any_eq_true.1 h
  have hcar : Careful (.start true 1 1) installDeny :=
    (by decide : (1 : BitVec 64).toNat + 1 < 2 ^ 64)
  have hrun : machine.Run Careful (.start true 1 1) [installDeny] r.1 :=
    .cons hcar ⟨r.2, hr⟩ (.nil _)
  exact ⟨r.1, t, hrun, ht,
    executeFilter_eq_interpret true 1 1 _ _ (by decide) hrun t ht _
      fun hc => absurd hc.1 (by decide)⟩

def allowAll : List SockFilter := [bpfStmt 0x06 0x7fff0000]

/-- A file that announces two filters and has one. -/
def truncatedFile : List Codec.Byte :=
  headerBytes 2 modeFilter ++ filterHeaderBytes (.of ⟨denyByAddress, by decide, by decide⟩ false) ++
    programBytes denyByAddress

/-- **The filters are skipped** for syscall number `2 ^ 64 - 1` at address zero, the key of an empty
entry: the filter refuses it, and it is performed.  And **a deserialised filter is missed** when the
deserialisation fails after it: the generation is as before, and the syscall that was allowed is
still in the cache. -/
theorem executeFilter_skips_filters :
    (∃ s, machine.Run (fun _ _ => True) (.start true 1 1) [installDeny] s ∧
      s.Answers ⟨-1, fun _ => 0, 0⟩ (proceed, []) (⟨true, -1⟩, [])) ∧
    ∃ s, machine.Run (fun _ _ => True) (.start true 1 1)
        [.setModeFilter 1 true 0 (some allowAll) 0, .syscall 1 ⟨0, fun _ => 0, 0x401000⟩,
          .deserialize 1 truncatedFile (fun _ => .full) fun _ => 1] s ∧
      s.Answers ⟨0, fun _ => 0, 0x401000⟩ (proceed, []) (⟨true, -1⟩, []) := by
  constructor
  · have hsm : (((start true 1 1).step installDeny).any fun r =>
        r.1.answers ⟨-1, fun _ => 0, 0⟩ (proceed, []) (⟨true, -1⟩, [])) = true := by decide +kernel
    obtain ⟨r, hr, h⟩ := (any_eq_true _ _).1 hsm
    exact ⟨r.1, .cons trivial ⟨r.2, hr⟩ (.nil _), answers_iff h⟩
  · have hsm : (((start true 1 1).step (.setModeFilter 1 true 0 (some allowAll) 0)).any
        fun r₁ => (r₁.1.step (.syscall 1 ⟨0, fun _ => 0, 0x401000⟩)).any fun r₂ =>
          (r₂.1.step (.deserialize 1 truncatedFile (fun _ => .full) fun _ => 1)).any fun r₃ =>
            r₃.1.answers ⟨0, fun _ => 0, 0x401000⟩ (proceed, []) (⟨true, -1⟩, [])) = true := by
      decide +kernel
    obtain ⟨r₁, hr₁, h⟩ := (any_eq_true _ _).1 hsm
    obtain ⟨r₂, hr₂, h⟩ := (any_eq_true _ _).1 h
    obtain ⟨r₃, hr₃, h⟩ := (any_eq_true _ _).1 h
    exact ⟨r₃.1, .cons trivial ⟨r₁.2, hr₁⟩ (.cons trivial ⟨r₂.2, hr₂⟩
      (.cons trivial ⟨r₃.2, hr₃⟩ (.nil _))), answers_iff h⟩

end FastPPC.Seccomp
