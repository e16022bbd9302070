import FastPPC.Seccomp.Verdict

/-!
# Restrictions never loosen

Once a call has reported a filter as installed, every later syscall of the thread, of the threads
and processes it creates and of its image after `execve` is to be judged by it.  `granted` records
what has been reported.

* `Held` : the filters granted to a thread are in its chain;
* `restrictions_never_loosen` : so they are in every state of a run in which nothing fails open.
  `SetModeStrict` ignores that its filter could not be installed, a filter that is not written or
  read back is dropped by `execve`, and a thread that is created while TSYNC runs is passed over
  (`restrictions_loosen`);
* `executeFilter_isSome` : but in no run does a verdict follow a freed filter.
-/

namespace FastPPC.Seccomp

open FastPPC.Codec Function State List Option

/-! ### Granted filters -/

variable {call : Call}

variable {u : Thread} {f : SeccompFilterInfo} {g : Program × Bool} {addr tid : ℕ}
  {noNewPrivs argIsNull : Bool} {a : Answer}

/-- The longest chain: a filter is installed at the end of at most 8192 others. -/
def maxFilters : ℕ := 8193

/-- What was granted to a thread is in its chain, and then its mode says so. -/
structure Held (s : State) (u : Thread) : Prop where
  granted : ∀ g ∈ s.granted u.id, ∃ chain, s.chain u = some chain ∧
    g ∈ chain.map SeccompFilterInfo.filter
  enabled : u.seccompMode = modeDisabled → s.granted u.id = []
  mode : u.seccompMode < 2 ^ 32
  length : u.filters.length ≤ maxFilters

theorem Held.congr {s s' : State} {u' : Thread} (h : Held s u)
    (hgra : s'.granted u'.id = s.granted u.id) (hcha : s'.chain u' = s.chain u)
    (hmd : u'.seccompMode = u.seccompMode) (hfil : u'.filters = u.filters) : Held s' u' := by
  refine ⟨?_, ?_, ?_, ?_⟩
  · rw [hgra, hcha]
    exact h.granted
  · rw [hgra, hmd]
    exact h.enabled
  · rw [hmd]
    exact h.mode
  · rw [hfil]
    exact h.length

/-- A chain that has grown by a filter that is granted. -/
theorem Held.grow {s : State} {chain : List SeccompFilterInfo}
    (hcha : s.chain u = some (chain ++ [f]))
    (hgra : ∀ g ∈ s.granted u.id, g = f.filter ∨ g ∈ chain.map SeccompFilterInfo.filter)
    (hmd : u.seccompMode = modeFilter) (hlen : u.filters.length ≤ maxFilters) : Held s u := by
  refine ⟨fun g hg => ⟨_, hcha, ?_⟩, fun h => ?_, ?_, hlen⟩
  · rw [map_append, mem_append]
    rcases hgra g hg with rfl | hg
    · exact .inr (mem_singleton.2 rfl)
    · exact .inl hg
  · rw [hmd] at h
    cases h
  · rw [hmd]
    decide

structure Kept (s : State) : Prop extends Inv s where
  held : ∀ u ∈ s.threads, Held s u

/-- There is room for the strict filter; TSYNC meets no thread that is being created; and an image
is handed the whole chain, through the file of the emulator.  The calls are those of the guest: it
cannot deserialise. -/
def FailsClosed (s : State) (op : Op) : Prop :=
  Careful s op ∧
    match op with
    | .setModeFilter t _ flags _ _ =>
      hasFlag flags flagTsync = true → ∀ u ∈ s.threads, u.tracked = true ∨ u.id = t
    | .setModeStrict t .. =>
      ∀ u ∈ s.threads, u.id = t → s.totalFilterInstructions + s.strictProgram.insts.length +
        u.filters.length * bpfMultifilterpenalty ≤ bpfMaxInsnsPerPath
    | .execve _ q =>
      q.execs = true → q.guestFD = none ∧ q.memfd = true ∧ (∀ i, q.writes i = .full) ∧
        ∀ i, q.reads i = .full
    | .deserialize .. => False
    | _ => True

namespace Kept

variable {s s' : State} {t : Thread}

theorem mem_chain (h : Kept s) (ht : t ∈ s.threads) {chain : List SeccompFilterInfo}
    (hcha : s.chain t = some chain) (hg : g ∈ s.granted t.id) :
    g ∈ chain.map SeccompFilterInfo.filter := by
  obtain ⟨chain', hcha', hmem⟩ := (h.held t ht).granted g hg
  rw [hcha] at hcha'
  cases hcha'
  exact hmem

/-! ### Installing -/

/-- No thread blocks a TSYNC that is granted. -/
theorem canDoTSync_eq_zero (h : Kept s) (hzr : s.canDoTSync t = 0) (hu : u ∈ s.threads) :
    ¬t.Blocks u := by
  rw [canDoTSync] at hzr
  split at hzr
  · rename_i v hv
    exact absurd hzr (h.tids v (mem_of_find?_eq_some hv))
  · rename_i hnn
    simpa using List.find?_eq_none.1 hnn u hu

section

variable (h : Kept s) (ht : t ∈ s.threads)
include h ht

/-- A thread that gets the chain of the thread that installs a filter. -/
theorem install_held (had : s.info addr = none) {tsync : Bool} {u' : Thread}
    (hfil : u'.filters = t.filters ++ [addr]) (hmd : u'.seccompMode = modeFilter)
    (hrm : t.filters.length * bpfMultifilterpenalty ≤ bpfMaxInsnsPerPath)
    (hgra : ∀ chain, s.chain t = some chain → ∀ g ∈ (s.install t tsync f addr).granted u'.id,
      g = f.filter ∨ g ∈ chain.map SeccompFilterInfo.filter) :
    Held (s.install t tsync f addr) u' := by
  obtain ⟨chain, hcha⟩ := h.exists_chain ht
  refine .grow (chain_append hfil (fun p hp => ?_) ?_ hcha) (hgra chain hcha) hmd ?_
  · rw [info_install, h.update_info had ht hp]
  · rw [info_install, update_self]
  · rw [hfil, length_append, maxFilters]
    rw [bpfMultifilterpenalty, bpfMaxInsnsPerPath] at hrm
    simp only [length_singleton]
    omega

theorem install (had : s.info addr = none) (hft : s.filterGeneration.toNat + 1 < 2 ^ 64)
    {tsync : Bool} (hrm : t.filters.length * bpfMultifilterpenalty ≤ bpfMaxInsnsPerPath)
    (hzr : tsync = true → s.canDoTSync t = 0)
    (htra : tsync = true → ∀ u ∈ s.threads, u.tracked = true ∨ u.id = t.id) :
    Kept (s.install t tsync f addr) := by
  refine ⟨h.toInv.install ht had hft tsync f, ?_⟩
  cases tsync with
  | false =>
    intro u' hu'
    obtain ⟨u, hu, rfl⟩ := mem_map.1 hu'
    split
    · refine h.install_held ht had rfl rfl hrm fun chain hcha g hg => ?_
      have hg : g = f.filter ∨ g ∈ s.granted t.id := by simpa [State.install] using hg
      exact hg.imp_right (h.mem_chain ht hcha)
    · rename_i hne
      refine (h.held u hu).congr ?_ (chain_congr rfl fun p hp => ?_) rfl rfl
      · simp [State.install, hne]
      · exact h.update_info had hu hp
  | true =>
    intro u' hu'
    obtain ⟨v, hv, rfl⟩ := mem_map.1 hu'
    obtain ⟨u, hu, rfl⟩ := mem_map.1 hv
    by_cases hid : u.id = t.id
    · -- the thread itself is not overwritten
      have hsy : ¬Thread.Synced t.id
          { t with filters := t.filters ++ [addr], seccompMode := modeFilter } = true := by
        simp [Thread.Synced]
      simp only [if_pos hid, if_neg hsy]
      refine h.install_held ht had rfl rfl hrm fun chain hcha g hg => ?_
      have hg : g = f.filter ∨ g ∈ s.granted t.id := by
        simpa [State.install, tSyncFilters] using hg
      exact hg.imp_right (h.mem_chain ht hcha)
    · have htr := (htra rfl u hu).resolve_right hid
      have hsy : u.Synced t.id = true := by simp [Thread.Synced, htr, hid]
      simp only [if_neg hid, if_pos hsy]
      refine h.install_held ht had rfl rfl hrm fun chain hcha g hg => ?_
      have hg : g = f.filter ∨ g ∈ s.granted u.id := by
        simpa [State.install, tSyncFilters] using hg
      refine hg.imp_right fun hg => ?_
      -- it had nothing to lose, or the same chain
      have hena : u.seccompMode ≠ modeDisabled := by
        intro hmd
        rw [(h.held u hu).enabled hmd] at hg
        cases hg
      have hsm : u.filters = t.filters := by
        by_contra hne
        exact h.canDoTSync_eq_zero (hzr rfl) hu ⟨htr, hid, hena, .inr hne⟩
      exact h.mem_chain hu ((chain_congr hsm fun _ _ => rfl).trans hcha) hg

theorem setModeFilter {flags : BitVec 32} {prog : Option (List SockFilter)}
    (hc : FailsClosed s (.setModeFilter t.id noNewPrivs flags prog addr))
    (hs : s.setModeFilter t noNewPrivs flags prog addr = some (s', a)) : Kept s' := by
  rcases setModeFilter_cases hs with ⟨rfl, -⟩ | ⟨program, -, -, hfr, hrm, hzr, rfl⟩
  · exact h
  · exact h.install ht hfr hc.1 hrm hzr hc.2

end

end Kept

/-- With room for it a program is installed. -/
theorem State.setModeFilter_of_room {s : State} {t : Thread} {program : Program}
    {r : State × Answer} (hr : s.setModeFilter t true 0 (some program.insts) addr = some r)
    (hrm : s.totalFilterInstructions + program.insts.length +
      t.filters.length * bpfMultifilterpenalty ≤ bpfMaxInsnsPerPath) :
    s.info addr = none ∧ r = (s.install t false (.of program false) addr, .ok) := by
  have hlen : ¬(bpfMaxinsns < program.insts.length ∨ program.insts.length = 0) := by
    rintro (h | h)
    · exact absurd program.length_le (not_le.2 h)
    · exact program.length_pos.ne' h
  have htsy : hasFlag 0 flagTsync = false := by decide
  have hlog : hasFlag 0 flagLog = false := by decide
  have hfla : ¬((0 : BitVec 32) &&& ~~~supportedFlags ≠ 0) := by decide
  simp only [setModeFilter, if_neg hfla, htsy, Bool.false_and, Bool.false_eq_true,
    if_false, Bool.not_true, dif_neg hlen, if_neg (not_lt.2 hrm), dif_pos program.accepted] at hr
  split at hr
  · cases hr
  · rename_i hfr
    cases hr
    exact ⟨by simpa using hfr, rfl⟩

namespace Kept

variable {flags : BitVec 32}

variable {s s' : State} {t : Thread}

/-- **`SetModeStrict` with room**: the strict filter is installed and granted. -/
theorem setModeStrict_cases (h : Kept s) (ht : t ∈ s.threads)
    (hc : FailsClosed s (.setModeStrict t.id noNewPrivs flags argIsNull addr))
    (hs : s.setModeStrict t noNewPrivs flags argIsNull addr = some (s', a)) :
    (s' = s ∧ a ≠ .ok) ∨ ∃ r, Kept r ∧ (s.strictProgram, false) ∈ r.granted t.id ∧
      s' = r.strict t s.strictProgram := by
  refine (State.setModeStrict_cases hs).imp_right ?_
  rintro ⟨-, rfl, r, hr, rfl⟩
  obtain ⟨hfr, rfl⟩ := setModeFilter_of_room hr (hc.2 t ht rfl)
  have hkl : Kept { s with currentKillSignal := sigkill } :=
    ⟨⟨⟨h.ids, h.tids, h.refs, h.live⟩, h.generation,
      fun u hu => (h.caches u hu).congr rfl rfl rfl rfl⟩,
      fun u hu => (h.held u hu).congr rfl rfl rfl rfl⟩
  have hrm : t.filters.length * bpfMultifilterpenalty ≤ bpfMaxInsnsPerPath :=
    (Nat.le_add_left _ _).trans (hc.2 t ht rfl)
  have hins : Kept (State.install { s with currentKillSignal := sigkill } t false
      (.of s.strictProgram false) addr) :=
    hkl.install ht hfr hc.1 hrm (absurd · Bool.false_ne_true) (absurd · Bool.false_ne_true)
  refine ⟨_, hins, ?_, rfl⟩
  simp [State.install, SeccompFilterInfo.filter, SeccompFilterInfo.of]

theorem setModeStrict (h : Kept s) (ht : t ∈ s.threads)
    (hc : FailsClosed s (.setModeStrict t.id noNewPrivs flags argIsNull addr))
    (hs : s.setModeStrict t noNewPrivs flags argIsNull addr = some (s', a)) : Kept s' := by
  have hinv := h.toInv.setModeStrict ht hc.1 hs
  obtain ⟨rfl, -⟩ | ⟨r, hr, hmem, rfl⟩ := h.setModeStrict_cases ht hc hs
  · exact h
  · refine ⟨hinv, fun u' hu' => ?_⟩
    obtain ⟨u, hu, rfl⟩ := mem_map.1 hu'
    have hhl := hr.held u hu
    split
    · rename_i hid
      refine ⟨fun g hg => ?_, nofun, (by decide : modeStrict < 2 ^ 32), hhl.length⟩
      have hg : g = (s.strictProgram, false) ∨ g ∈ r.granted t.id := by
        simpa [strict, hid] using hg
      have hg : g ∈ r.granted u.id := by
        rw [hid]
        rcases hg with rfl | hg
        · exact hmem
        · exact hg
      exact hhl.granted g hg
    · rename_i hne
      exact hhl.congr (update_of_ne hne _ _) rfl rfl rfl

/-! ### Threads -/

section

variable (h : Kept s) (ht : t ∈ s.threads)
include h ht

theorem syscall (hcl : ¬call.Collides) {r : ExecuteFilterResult × List Event}
    (hs : s.syscall t call = some (s', r)) : Kept s' := by
  refine ⟨h.toInv.syscall ht hcl hs, ?_⟩
  obtain ⟨c, -, rfl | rfl⟩ := syscall_cases hs
  · exact nofun
  · intro u' hu'
    obtain ⟨u, hu, rfl⟩ := mem_map.1 hu'
    split <;> exact (h.held u hu).congr rfl rfl rfl rfl

theorem createThread {child : ℕ} (htid : tid ≠ 0) (hchi : s.findThread child = none) :
    Kept (s.createThread t child tid) := by
  refine ⟨h.toInv.createThread ht htid hchi, fun u hu => ?_⟩
  rcases mem_append.1 hu with hu | hu
  · refine (h.held u hu).congr (update_of_ne ?_ _ _) rfl rfl rfl
    simpa using List.find?_eq_none.1 hchi u hu
  · rw [mem_singleton.1 hu]
    exact (h.held t ht).congr (update_self ..) rfl rfl rfl

theorem trackThread : Kept (s.trackThread t) := by
  refine ⟨h.toInv.trackThread ht, fun u hu => ?_⟩
  rcases mem_append.1 hu with hu | hu
  · exact (h.held u (mem_filter.1 hu).1).congr rfl rfl rfl rfl
  · rw [mem_singleton.1 hu]
    exact (h.held t ht).congr rfl rfl rfl rfl

theorem exitThread : Kept (s.exitThread t) := by
  refine ⟨h.toInv.exitThread ht, fun u hu => ?_⟩
  exact (h.held u (mem_filter.1 hu).1).congr rfl
    (chain_congr rfl fun p hp => h.toShape.exitThread_info ht hu hp) rfl rfl

theorem fork (htid : tid ≠ 0) : Kept (s.fork t tid) := by
  refine ⟨h.toInv.fork ht htid, fun u hu => ?_⟩
  rw [mem_singleton.1 hu]
  exact (h.held t ht).congr rfl rfl rfl rfl

end

end Kept

/-! ### Across `execve` -/

variable {reads : ℕ → Io}

/-- The loop of `DeserializeFilters` on what was written appends the chain. -/
theorem State.deserializeLoop_filterBytes (hrea : ∀ i, reads i = .full) {alloc : ℕ → ℕ} {i : ℕ}
    (fs : List SeccompFilterInfo) {j : ℕ} {s : State} (hsha : Shape s) (hu : u ∈ s.threads)
    (hid : u.id = i) {chain : List SeccompFilterInfo} (hcha : s.chain u = some chain)
    {r : State × Bool}
    (hr : deserializeLoop reads alloc i fs.length j (fs.flatMap filterBytes) s = some r) :
    r.2 = true ∧ r.1.granted = s.granted ∧
      ∃ u' ∈ r.1.threads, u'.id = i ∧ r.1.chain u' = some (chain ++ fs) := by
  induction fs generalizing j s u chain with
  | nil =>
    cases hr
    exact ⟨rfl, rfl, u, hu, hid, by rw [hcha, append_nil]⟩
  | cons f fs ih =>
    rw [length_cons, deserializeLoop, flatMap_cons, readFilter_filterBytes hrea] at hr
    simp only at hr
    split at hr
    · cases hr
    · rename_i hfr
      have hfr : s.info (alloc j) = none := by simpa using hfr
      have hgro : (s.append i f (alloc j)).chain { u with filters := u.filters ++ [alloc j] } =
          some (chain ++ [f]) :=
        chain_append rfl (fun p hp => hsha.update_info hfr hu hp) (update_self ..) hcha
      obtain ⟨hall, hgra, u', hu', hid', hcha'⟩ :=
        ih (hsha.append i f hfr) (mem_map.2 ⟨u, hu, if_pos hid⟩) hid hgro hr
      refine ⟨hall, hgra, u', hu', hid', ?_⟩
      rw [hcha', append_assoc]
      rfl

/-- **A chain that is written and read in full is restored**, and the mode with it. -/
theorem State.deserializeFilters_chunks (hrea : ∀ i, reads i = .full) {alloc : ℕ → ℕ}
    {is64BitMode : Bool} {id mode : ℕ} (htid : tid ≠ 0) {granted : ℕ → List (Program × Bool)}
    {fs : List SeccompFilterInfo} (hmd : mode < 2 ^ 32) (hlen : fs.length ≤ maxFilters)
    {s' : State} {b : Bool}
    (h : (image is64BitMode id tid granted).deserializeFilters id (chunks mode fs).flatten reads
      alloc = some (s', b)) :
    s'.granted = granted ∧
      ∀ u ∈ s'.threads, u.id = id ∧ u.seccompMode = mode ∧ s'.chain u = some fs := by
  have hhea : (headerBytes fs.length mode).length = headerSize := by
    simp [headerBytes, headerSize]
  have hcou : leValue ((headerBytes fs.length mode).take 8) = fs.length := by
    rw [maxFilters] at hlen
    exact leValue_take_append (by omega) _
  have hmd' : leValue (((headerBytes fs.length mode).drop 8).take 4) = mode := by
    rw [headerBytes, drop_leBytes_append]
    exact leValue_take_append hmd _
  rw [flatten_chunks, deserializeFilters, hrea, readExactly_append hhea] at h
  simp only [hcou, hmd'] at h
  obtain ⟨r, hr, heq⟩ := map_eq_some_iff.1 h
  have hsha := Shape.image is64BitMode id htid granted
  obtain ⟨hall, hgra, u, hu, hid, hcha⟩ :=
    deserializeLoop_filterBytes hrea fs hsha (mem_singleton.2 rfl) rfl rfl hr
  rw [if_pos hall] at heq
  cases heq
  refine ⟨hgra, fun v' hv' => ?_⟩
  have hlp : Loading id (image is64BitMode id tid granted) r.1 :=
    deserializeLoop_induct (fun _ f _ hP hfr => hP.append f hfr)
      ⟨hsha, rfl, rfl, fun u hu => ⟨u, hu, rfl, rfl, fun _ => rfl⟩⟩ hr
  -- the image has one thread
  have hone : ∀ v ∈ r.1.threads, v = u := by
    intro v hv
    obtain ⟨w, hw, hvw, -⟩ := hlp.origin v hv
    rw [mem_singleton.1 hw] at hvw
    exact hlp.shape.eq_of_id hu hv (hvw.trans hid.symm)
  obtain ⟨v, hv, rfl⟩ := mem_map.1 hv'
  rw [hone v hv, if_pos hid]
  exact ⟨hid, rfl, hcha⟩

namespace Kept

variable {s s' : State} {t : Thread}

theorem execve (h : Kept s) (ht : t ∈ s.threads) {q : ExecArgs} (htid : q.tid ≠ 0)
    (hc : FailsClosed s (.execve t.id q)) (hs : s.execve t q = some s') : Kept s' := by
  have hinv := h.toInv.execve htid hs
  rcases execve_cases hs with rfl | ⟨fd, hfd, hexe, hend⟩
  · exact h
  · obtain ⟨hgue, hmem, hwri, hrea⟩ := hc.2 hexe
    obtain ⟨chain, hcha⟩ := h.exists_chain ht
    have hhl := h.held t ht
    refine ⟨hinv, ?_⟩
    rw [serializeFilters, hmem, hcha] at hfd
    simp only [writeChunks_full hwri] at hfd
    split at hfd
    · -- without seccomp there is nothing to hand over
      rename_i hdis
      cases hfd
      have hfl : q.file .disabled = none := by rw [ExecArgs.file, hgue]
      rcases hend with ⟨-, rfl⟩ | ⟨file, b, hsm, -⟩
      · intro u hu
        rw [mem_singleton.1 hu]
        have hnil : s.granted t.id = [] := hhl.enabled hdis
        refine ⟨fun g hg => ?_, fun _ => hnil, (by decide : modeDisabled < 2 ^ 32), Nat.zero_le _⟩
        have hg : g ∈ s.granted t.id := hg
        rw [hnil] at hg
        cases hg
      · rw [hfl] at hsm
        cases hsm
    · rename_i hena
      cases hfd
      have hfl : q.file (.fd (chunks t.seccompMode chain).flatten) =
          some (chunks t.seccompMode chain).flatten := by rw [ExecArgs.file, hgue]
      rcases hend with ⟨hnn, -⟩ | ⟨file, b, hsm, hr⟩
      · rw [hfl] at hnn
        cases hnn
      · rw [hfl] at hsm
        cases hsm
        have hlen : chain.length ≤ maxFilters := (length_chain hcha).trans_le hhl.length
        obtain ⟨hgra, hall⟩ :=
          deserializeFilters_chunks hrea htid hhl.mode hlen hr
        intro u hu
        obtain ⟨hid, hmd, hcha'⟩ := hall u hu
        refine ⟨fun g hg => ⟨chain, hcha', ?_⟩, fun hd => ?_, ?_, ?_⟩
        · rw [hgra, hid] at hg
          exact h.mem_chain ht hcha hg
        · exact absurd (hmd.symm.trans hd) hena
        · rw [hmd]
          exact hhl.mode
        · exact (length_chain hcha').symm.trans_le hlen

theorem step (h : Kept s) {op : Op} (hc : FailsClosed s op) (hs : s.step op = some (s', a)) :
    Kept s' := by
  cases effect_of_step hs with
  | syscall ht hr => exact h.syscall ht hc.1 hr
  | setModeFilter ht hr => exact h.setModeFilter ht hc hr
  | setModeStrict ht hr => exact h.setModeStrict ht hc hr
  | createThread ht htid hchi => exact h.createThread ht htid hchi
  | trackThread ht => exact h.trackThread ht
  | exitThread ht => exact h.exitThread ht
  | fork ht htid => exact h.fork ht htid
  | execve ht htid hr => exact h.execve ht htid hc hr
  | deserialize ht hr => exact hc.2.elim

theorem start (is64BitMode : Bool) (id : ℕ) (htid : tid ≠ 0) :
    Kept (.start is64BitMode id tid) := by
  refine ⟨.image is64BitMode id htid _, fun u hu => ?_⟩
  rw [mem_singleton.1 hu]
  exact ⟨nofun, fun _ => rfl, (by decide : modeDisabled < 2 ^ 32), Nat.zero_le _⟩

end Kept

/-- A syscall is judged by a filter: the answer is that to a verdict of the precedence of the
result of the filter, or of a higher one. -/
def State.JudgedBy (s : State) (t : Thread) (call : Call) (g : Program × Bool) : Prop :=
  ∃ verdict : BitVec 32 × Bool,
    precedence verdict.1 ≤ precedence (g.1.run (call.data s.is64BitMode call.rip)) ∧
      (s.executeFilter t call).map Prod.snd =
        some (respond s.currentKillSignal (auditArch s.is64BitMode) call call.rip verdict)

/-- The whole chain is no weaker than one of its filters. -/
theorem State.judgedBy_of_mem {s : State} {t : Thread} {chain : List SeccompFilterInfo}
    (hcd : (s.executeFilter t call).map Prod.snd =
      some (interpret s.is64BitMode s.currentKillSignal chain call))
    (hg : g ∈ chain.map SeccompFilterInfo.filter) : s.JudgedBy t call g := by
  obtain ⟨f, hf, rfl⟩ := mem_map.1 hg
  have hne : chain ≠ [] := ne_nil_of_mem hf
  refine ⟨runChain chain (call.data s.is64BitMode call.rip), ?_, ?_⟩
  · refine le_of_mem_argmin (f := fun v : BitVec 32 × Bool => precedence v.1)
      (a := (f.program.run _, f.shouldLog)) ?_ (runChain_eq hne _)
    exact mem_map_of_mem (mem_reverse.2 hf)
  · rw [hcd, interpret_eq hne]

/-- **Restrictions never loosen**: in every state of a run of calls that fail closed, a syscall of a
thread is judged by every filter granted to it, and `SetModeStrict` answers zero only if the strict
filter is in the chain. -/
theorem restrictions_never_loosen (is64BitMode : Bool) (id tid : ℕ) (ops : List Op) (s : State)
    (htid : tid ≠ 0) (hrun : machine.Run FailsClosed (.start is64BitMode id tid) ops s) :
    (∀ t ∈ s.threads, ∀ g ∈ s.granted t.id, ∀ call : Call, ¬call.Collides → s.JudgedBy t call g) ∧
    ∀ (t : ℕ) (noNewPrivs : Bool) (flags : BitVec 32) (argIsNull : Bool) (addr : ℕ) (s' : State),
      FailsClosed s (.setModeStrict t noNewPrivs flags argIsNull addr) →
      s.step (.setModeStrict t noNewPrivs flags argIsNull addr) = some (s', .ok) →
      ∀ u ∈ s'.threads, u.id = t → ∃ chain, s'.chain u = some chain ∧
        (s.strictProgram, false) ∈ chain.map SeccompFilterInfo.filter := by
  have hkp : Kept s := by
    refine hrun.invariant (.start is64BitMode id htid) fun s op s' hs hc hst => ?_
    obtain ⟨a, hst⟩ := hst
    exact hs.step hc hst
  constructor
  · intro t ht g hg call hcl
    obtain ⟨chain, hcha⟩ := hkp.exists_chain ht
    obtain ⟨c, hc, -⟩ :=
      executeFilter_spec hcha (fun heq => (hkp.caches t ht).sound heq chain hcha) hcl
    exact judgedBy_of_mem (by rw [hc]; rfl) (hkp.mem_chain ht hcha hg)
  · intro i noNewPrivs flags argIsNull addr s' hc hst u hu hid
    have hkp' := hkp.step hc hst
    cases effect_of_step hst with
    | setModeStrict ht hs =>
      obtain ⟨-, hne⟩ | ⟨r, -, -, rfl⟩ := hkp.setModeStrict_cases ht hc hs
      · exact absurd rfl hne
      · refine (hkp'.held u hu).granted _ ?_
        rw [hid]
        simp [strict]

theorem restrictions_never_loosen_deny :
    ∃ s t, machine.Run FailsClosed (.start true 1 1) [installDeny] s ∧ t ∈ s.threads ∧
      ∃ g ∈ s.granted t.id, s.JudgedBy t ⟨0, fun _ => 0, 0x401000⟩ g := by
  have hsm : (((start true 1 1).step installDeny).any fun r => r.1.threads.any fun t =>
      (r.1.granted t.id).any fun _ => true) = true := by decide +kernel
  obtain ⟨r, hr, h⟩ := (any_eq_true _ _).1 hsm
  obtain ⟨t, ht, h⟩ := any_eq_true.1 h
  obtain ⟨g, hg, -⟩ := any_eq_true.1 h
  have hcar : FailsClosed (.start true 1 1) installDeny :=
    ⟨(by decide : (1 : BitVec 64).toNat + 1 < 2 ^ 64),
      fun h => absurd h (by decide : ¬hasFlag 0 flagTsync = true)⟩
  have hrun : machine.Run FailsClosed (.start true 1 1) [installDeny] r.1 :=
    .cons hcar ⟨r.2, hr⟩ (.nil _)
  exact ⟨r.1, t, hrun, ht, g, hg,
    (restrictions_never_loosen true 1 1 _ _ (by decide) hrun).1 t ht g hg _
      fun hc => absurd hc.1 (by decide)⟩

/-- Some thread gets an answer to a syscall that a filter granted to it forbids. -/
def State.Loosened (s : State) : Prop :=
  ∃ t ∈ s.threads, ∃ g ∈ s.granted t.id, ∃ call : Call, ¬call.Collides ∧ ¬s.JudgedBy t call g

/-- A verdict that lets the syscall through without a trace is weaker than an error. -/
theorem lt_precedence_of_proceed {killSignal : ℕ} {arch : BitVec 32} {rip : BitVec 64}
    {verdict : BitVec 32 × Bool} (h : respond killSignal arch call rip verdict = (proceed, [])) :
    5 < precedence verdict.1 := by
  have hval : ∀ n : ℕ, n < 2 ^ 15 → (verdict.1.extractLsb' 16 16).toNat = n →
      precedence verdict.1 = n := by
    intro n hn heq
    rw [precedence, BitVec.toInt_eq_toNat_of_lt (by omega), heq]
  rw [respond] at h
  cases hact : retAction verdict.1 <;> simp only [hact] at h
  case allow =>
    rw [retAction] at hact
    split at hact <;> cases hact
    rw [hval 0x7fff (by decide) ‹_›]
    decide
  case userNotif =>
    rw [retAction] at hact
    split at hact <;> cases hact
    rw [hval 0x7fc0 (by decide) ‹_›]
    decide
  all_goals simp [proceed] at h

def openCall : Call := ⟨2, fun _ => 0, 0x401000⟩

/-- `Loosened` by evaluation, for `open`. -/
def State.loosened (s : State) : Bool :=
  s.threads.any fun t =>
    (s.executeFilter t openCall).map Prod.snd == some (proceed, []) &&
      (s.granted t.id).any fun g =>
        precedence (g.1.run (openCall.data s.is64BitMode openCall.rip)) ≤ 5

theorem State.loosened_of_eval {s : State} (h : s.loosened = true) : s.Loosened := by
  obtain ⟨t, ht, h⟩ := any_eq_true.1 h
  obtain ⟨hcd, h⟩ := Bool.and_eq_true_iff.1 h
  obtain ⟨g, hg, hle⟩ := any_eq_true.1 h
  refine ⟨t, ht, g, hg, openCall, fun hc => absurd hc.1 (by decide), ?_⟩
  rintro ⟨verdict, hver, hans⟩
  rw [eq_of_beq hcd] at hans
  have := lt_precedence_of_proceed (some.inj hans).symm
  have := of_decide_eq_true hle
  omega

def State.steps (s : State) : List Op → Option State
  | [] => some s
  | op :: ops => (s.step op).bind fun r => r.1.steps ops

theorem State.run_of_steps {C : State → Op → Prop} {s s' : State} {ops : List Op}
    (hC : ∀ op ∈ ops, ∀ s, C s op) (h : s.steps ops = some s') : machine.Run C s ops s' := by
  induction ops generalizing s with
  | nil =>
    cases h
    exact .nil _
  | cons op ops ih =>
    obtain ⟨r, hr, h⟩ := bind_eq_some_iff.1 h
    obtain ⟨hop, hops⟩ := forall_mem_cons.1 hC
    exact .cons (hop s) ⟨r.2, hr⟩ (ih hops h)

/-- **No verdict follows a freed filter**, whatever was called before and whatever failed. -/
theorem executeFilter_isSome (is64BitMode : Bool) (id tid : ℕ) (ops : List Op) (call : Call) :
    ((start is64BitMode id (tid + 1)).steps ops).all fun s =>
      s.threads.all fun t => (s.executeFilter t call).isSome := by
  refine (all_eq_true _ _).2 fun s hs => List.all_eq_true.2 fun t ht => ?_
  have hrun := run_of_steps (C := fun _ _ => True) (fun _ _ _ => trivial) hs
  have hsha : Shape s :=
    hrun.invariant (.image is64BitMode id tid.succ_ne_zero _) fun _ _ _ hs _ ⟨_, hst⟩ => hs.step hst
  obtain ⟨chain, hcha⟩ := hsha.exists_chain ht
  rw [State.executeFilter, hcha]
  split <;> rfl

theorem State.exists_loosened {ops : List Op}
    (h : ((start true 1 1).steps ops).any loosened = true) :
    ∃ s, machine.Run (fun _ _ => True) (.start true 1 1) ops s ∧ s.Loosened := by
  obtain ⟨s, hs, h⟩ := (any_eq_true _ _).1 h
  exact ⟨s, run_of_steps (fun _ _ _ => trivial) hs, loosened_of_eval h⟩

/-- The longest program. -/
def bulk : List SockFilter := List.replicate 4096 (bpfStmt 0x06 0x7fff0000)

/-- Three threads; two of them use up all instructions, the third asks for strict mode. -/
def strictWithoutRoom : List Op :=
  [.createThread 1 2 2, .createThread 1 3 3,
    .setModeFilter 1 true 0 (some bulk) 0, .setModeFilter 1 true 0 (some bulk) 1,
    .setModeFilter 1 true 0 (some bulk) 2, .setModeFilter 1 true 0 (some bulk) 3,
    .setModeFilter 1 true 0 (some bulk) 4, .setModeFilter 1 true 0 (some bulk) 5,
    .setModeFilter 1 true 0 (some bulk) 6, .setModeFilter 2 true 0 (some bulk) 7,
    .setModeStrict 3 true 0 true 8]

/-- An `execve` of the first thread. -/
def exec (writes reads : ℕ → Io) : Op := .execve 1 ⟨true, writes, none, true, true, 1, reads, id⟩

/-- **Restrictions loosen**: strict mode is reported without its filter when there is no room for
it; a failing write or read of an `execve` drops the chain; and while a thread creates another, the
TSYNC of a third passes over the new one, which has inherited its chain and is not tracked yet. -/
theorem restrictions_loosen :
    (∃ s, machine.Run (fun _ _ => True) (.start true 1 1) strictWithoutRoom s ∧ s.Loosened) ∧
    (∃ s, machine.Run (fun _ _ => True) (.start true 1 1)
      [installDeny, exec (fun _ => .error) fun _ => .full] s ∧ s.Loosened) ∧
    (∃ s, machine.Run (fun _ _ => True) (.start true 1 1)
      [installDeny, exec (fun _ => .full) fun _ => .short 0] s ∧ s.Loosened) ∧
    ∃ s, machine.Run (fun _ _ => True) (.start true 1 1)
      [.createThread 1 3 3, .trackThread 3, .createThread 1 2 2,
        .setModeFilter 3 true flagTsync (some denyByAddress) 0, .trackThread 2] s ∧
        s.Loosened :=
  ⟨exists_loosened (by decide +kernel), exists_loosened (by decide +kernel),
    exists_loosened (by decide +kernel), exists_loosened (by decide +kernel)⟩

end FastPPC.Seccomp
