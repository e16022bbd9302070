import FastPPC.CodeMap.Buffer

/-!
# The code map survives the round trip

The records of all calls reach the file, in an order in which the parser reads them.

* `LogStep` : what a step of a thread does to the records it has yet to write;
* `Logged` : every record that was asked for is in the log or on its way there;
* `Writer.progress` : as long as a call is not complete, some thread can take a step;
* `Writer.work` : a bound for the number of steps until all calls are complete;
* `code_map_round_trip` : every call completes, and the parser returns what was recorded.  A file
  name may not be too long for the buffer, no block may look like one of the other records, and a
  thread that finds a file known must find its record in the log.
-/

namespace FastPPC.CodeMap

open Codec Writer List Option

variable {n : ℕ} {s s' : Writer n} {t : Fin n}

/-! ### The records on their way -/

/-- The records a thread has decided to append, without those that were given a place. -/
def Pc.todo : Pc → List Record
  | .idle | .check .. | .register .. => []
  | .append r next | .locked r next | .overflowed r next _ | .exclusive r next _
  | .flushed r next | .waiting r next => r :: next
  | .reserved r next offset => if offset + r.size ≤ bufferSize then next else r :: next

/-- The records of a block whose file may be new. -/
def Pc.asking : Pc → List Record
  | .check file offset | .register file offset => [.library file, .block file.fileId offset]
  | _ => []

theorem Pc.todo_resume (next : List Record) : (Pc.resume next).todo = next := by
  cases next <;> rfl

theorem Pc.asking_resume (next : List Record) : (Pc.resume next).asking = [] := by
  cases next <;> rfl

/-- What a step does to the records of its thread. -/
inductive LogStep (s s' : Writer n) (t : Fin n) : Prop
  | keep (hlog : s'.log = s.log) (htodo : (s'.pc t).todo = (s.pc t).todo)
      (hasking : (s'.pc t).asking = (s.pc t).asking) (hknown : s'.knownFileIds = s.knownFileIds)
  /-- The next record is given a place. -/
  | place (r : Record) (hlog : s'.log = s.log ++ [r])
      (htodo : (s.pc t).todo = r :: (s'.pc t).todo)
      (hasking : (s'.pc t).asking = (s.pc t).asking) (hknown : s'.knownFileIds = s.knownFileIds)
  /-- The file is known, and only the block is appended. -/
  | drop (file : FileInfo) (offset : BitVec 32)
      (hpc : s.pc t = .check file offset ∨ s.pc t = .register file offset)
      (hmem : file.fileId ∈ s.knownFileIds) (hlog : s'.log = s.log)
      (hnew : s'.pc t = .append (.block file.fileId offset) [])
      (hknown : s'.knownFileIds = s.knownFileIds)
  | register (file : FileInfo) (offset : BitVec 32) (hpc : s.pc t = .register file offset)
      (hlog : s'.log = s.log)
      (hnew : s'.pc t = .append (.library file) [.block file.fileId offset])
      (hknown : s'.knownFileIds = insert file.fileId s.knownFileIds)

/-- The other threads and the calls stay. -/
theorem Moves.frame (hm : Moves s t s') :
    (∀ t', t' ≠ t → s'.pc t' = s.pc t') ∧ s'.calls = s.calls := by
  cases hm <;> exact ⟨fun t' hne => Function.update_of_ne hne .., rfl⟩

/-- A step that keeps the records of its thread. -/
theorem LogStep.stay {pc : Pc} (hnew : s'.pc t = pc) (hlog : s'.log = s.log)
    (htd : pc.todo = (s.pc t).todo) (hask : pc.asking = (s.pc t).asking)
    (hkno : s'.knownFileIds = s.knownFileIds) : LogStep s s' t :=
  .keep hlog (by rw [hnew, htd]) (by rw [hnew, hask]) hkno

theorem Moves.logStep (hm : Moves s t s') : LogStep s s' t := by
  cases hm with
  | known hpc _ hmem => exact .drop _ _ (.inl hpc) hmem rfl (s.goto_pc_self ..) rfl
  | late hpc _ _ hmem => exact .drop _ _ (.inr hpc) hmem rfl (s.goto_pc_self ..) rfl
  | registers hpc _ _ _ => exact .register _ _ hpc rfl (s.goto_pc_self ..) rfl
  | unknown hpc _ _ | locks hpc _ | acquires hpc _ _ | yields hpc _ | retries hpc | wakes hpc _ =>
    exact .stay (s.goto_pc_self ..) rfl (by rw [hpc]; rfl) (by rw [hpc]; rfl) rfl
  | @reserves r next hpc =>
    have hsl : (s.fetchAdd t r next).pc t = .reserved r next s.bufferOffset := s.goto_pc_self ..
    by_cases hft : s.bufferOffset + r.size ≤ bufferSize
    · refine .place r ?_ ?_ (by rw [hsl, hpc]; rfl) rfl
      · rw [log, log, append_assoc]
        exact congrArg (s.committed ++ ·) (if_pos hft)
      · rw [hsl, hpc, Pc.todo, Pc.todo, if_pos hft]
    · refine .keep ?_ ?_ (by rw [hsl, hpc]; rfl) rfl
      · exact congrArg (s.committed ++ ·) (if_neg hft)
      · rw [hsl, hpc, Pc.todo, Pc.todo, if_neg hft]
  | @copies r next offset hpc hft =>
    have hsl : (s.copy t r next offset).pc t = .resume next := s.goto_pc_self ..
    refine .keep rfl ?_ ?_ rfl
    · rw [hsl, hpc, Pc.todo_resume, Pc.todo, if_pos hft]
    · rw [hsl, hpc, Pc.asking_resume]
      rfl
  | @overflows r next offset hpc hov =>
    refine .stay (s.goto_pc_self ..) rfl ?_ (by rw [hpc]; rfl) rfl
    rw [hpc]
    exact (if_neg (Nat.not_le.2 hov)).symm
  | @flushes r next offset hpc _ =>
    exact .stay (s.goto_pc_self ..) (append_nil _) (by rw [hpc]; rfl) (by rw [hpc]; rfl) rfl

/-! ### The log -/

variable {r : Record}

def Writer.requested (s : Writer n) : List Record := s.calls.flatMap Call.records

structure Logged (s : Writer n) : Prop where
  asked : ∀ t r, r ∈ (s.pc t).asking ∨ r ∈ (s.pc t).todo → r ∈ s.requested
  logged : ∀ r ∈ s.log, r ∈ s.requested
  /-- A record that was asked for is in the log, or a thread is at it, or it is that of a file that
  is known already. -/
  covered : ∀ r ∈ s.requested, r ∈ s.log ∨
    (∃ t, r ∈ (s.pc t).asking ∨ r ∈ (s.pc t).todo) ∨
    ∃ file, r = .library file ∧ file.fileId ∈ s.knownFileIds
  known : ∀ id ∈ s.knownFileIds, (∃ file, .library file ∈ s.log ∧ file.fileId = id) ∨
    ∃ t file, .library file ∈ (s.pc t).todo ∧ file.fileId = id
  announced : Announced s.log ∧ ∀ t, Announced (s.log ++ (s.pc t).todo)

theorem Logged.start : Logged (Writer.start n) where
  asked _ _ h := h.elim nofun nofun
  logged := nofun
  covered := nofun
  known id h := absurd h (Finset.notMem_empty id)
  announced := by
    have hnil : Announced [] := fun before _ _ _ h => absurd h (by simp)
    exact ⟨hnil, fun _ => hnil⟩

/-- Records between others are announced if they are without those behind them. -/
theorem Announced.insert {as bs cs : List Record} (hc : Announced (as ++ cs))
    (hb : Announced (as ++ bs)) : Announced (as ++ bs ++ cs) := by
  intro before id offset after heq
  rcases append_eq_append_iff.1 heq with ⟨ds, rfl, hcs⟩ | ⟨ds, hab, hds⟩
  · -- the block is in the last part
    obtain ⟨r, hmem, hr⟩ := hc (as ++ ds) id offset after (by rw [hcs, append_assoc])
    refine ⟨r, ?_, hr⟩
    rcases mem_append.1 hmem with hmem | hmem
    · exact mem_append_left _ (mem_append_left _ hmem)
    · exact mem_append_right _ hmem
  · cases ds with
    | nil =>
      rw [nil_append] at hds
      obtain ⟨r, hmem, hr⟩ := hc as id offset after (by rw [← hds])
      exact ⟨r, by rw [← append_nil before, ← hab]; exact mem_append_left _ hmem, hr⟩
    | cons d ds =>
      rw [cons_append, cons.injEq] at hds
      exact hb before id offset ds (by rw [hab, hds.1])

/-- A thread that finds a file known finds its record in the log. -/
def Found (s : Writer n) (t : Fin n) : Prop :=
  ∀ file offset, s.pc t = .check file offset ∨ s.pc t = .register file offset →
    file.fileId ∈ s.knownFileIds → ∃ r ∈ s.log, r.Introduces file.fileId

/-- A record can follow if it is no block, or a block of a file that was introduced. -/
theorem Announced.append_one {records : List Record} (h : Announced records)
    (hr : ∀ id offset, r = .block id offset → ∃ r' ∈ records, r'.Introduces id) :
    Announced (records ++ [r]) := by
  intro before id offset after heq
  rcases eq_nil_or_concat after with rfl | ⟨after, r', rfl⟩
  · obtain ⟨rfl, hls⟩ := append_inj' heq rfl
    exact hr id offset (cons.inj hls).1
  · rw [concat_eq_append, ← cons_append, ← append_assoc] at heq
    exact h before id offset after (append_inj' heq rfl).1

theorem Announced.append_block {records : List Record} (h : Announced records) {id : FileId}
    (hid : ∃ r ∈ records, r.Introduces id) (offset : BitVec 32) :
    Announced (records ++ [.block id offset]) :=
  h.append_one fun _ _ heq => by cases heq; exact hid

/-- A library before the first block of its file. -/
theorem Announced.append_library {records : List Record} (h : Announced records) (file : FileInfo)
    (offset : BitVec 32) : Announced (records ++ [.library file, .block file.fileId offset]) := by
  have hlib : Announced (records ++ [.library file]) := h.append_one nofun
  have hin : ∃ r ∈ records ++ [.library file], r.Introduces file.fileId :=
    ⟨.library file, mem_append_right _ mem_cons_self, rfl⟩
  have hbt := hlib.append_block hin offset
  rwa [append_assoc] at hbt

/-- The records of a thread at a block whose file may be new. -/
theorem Pc.asking_eq {pc : Pc} {file : FileInfo} {offset : BitVec 32}
    (hpc : pc = .check file offset ∨ pc = .register file offset) :
    pc.asking = [.library file, .block file.fileId offset] ∧ pc.todo = [] := by
  rcases hpc with rfl | rfl <;> exact ⟨rfl, rfl⟩

/-- A thread that has nothing left to write takes over other records: those it was asking for,
without what is known already, and those of a new call. -/
theorem Logged.takeOver (h : Logged s) {extra : List Record}
    (hoth : ∀ t', t' ≠ t → s'.pc t' = s.pc t') (hlog : s'.log = s.log)
    (hreq : s'.requested = s.requested ++ extra) (htd : (s.pc t).todo = [])
    (hask : ∀ r, r ∈ (s'.pc t).asking ∨ r ∈ (s'.pc t).todo → r ∈ (s.pc t).asking ∨ r ∈ extra)
    (hcov : ∀ r, r ∈ (s.pc t).asking ∨ r ∈ extra → (r ∈ (s'.pc t).asking ∨ r ∈ (s'.pc t).todo) ∨
        ∃ file, r = .library file ∧ file.fileId ∈ s'.knownFileIds)
    (hsub : s.knownFileIds ⊆ s'.knownFileIds)
    (hkno : ∀ id ∈ s'.knownFileIds, id ∈ s.knownFileIds ∨
      ∃ file, .library file ∈ (s'.pc t).todo ∧ file.fileId = id)
    (hann : Announced (s.log ++ (s'.pc t).todo)) : Logged s' := by
  refine ⟨fun t' r hor => ?_, fun r hr => ?_, fun r hr => ?_, fun id hid => ?_, ?_, fun t' => ?_⟩
  · rw [hreq, mem_append]
    by_cases heq : t' = t
    · rw [heq] at hor
      exact (hask r hor).imp_left fun hr => h.asked t r (.inl hr)
    · rw [hoth t' heq] at hor
      exact .inl (h.asked t' r hor)
  · rw [hlog] at hr
    rw [hreq]
    exact mem_append_left _ (h.logged r hr)
  · have hmn : r ∈ (s.pc t).asking ∨ r ∈ extra → r ∈ s'.log ∨
        (∃ t', r ∈ (s'.pc t').asking ∨ r ∈ (s'.pc t').todo) ∨
        ∃ file, r = .library file ∧ file.fileId ∈ s'.knownFileIds :=
      fun hor => .inr ((hcov r hor).imp_left fun hnew => ⟨t, hnew⟩)
    rw [hreq, mem_append] at hr
    rcases hr with hr | hr
    · rcases h.covered r hr with hr | ⟨t', hor⟩ | ⟨file, hfl, hid⟩
      · exact .inl (by rwa [hlog])
      · by_cases heq : t' = t
        · rw [heq, htd] at hor
          exact hmn (.inl (hor.resolve_right nofun))
        · exact .inr (.inl ⟨t', by rwa [hoth t' heq]⟩)
      · exact .inr (.inr ⟨file, hfl, hsub hid⟩)
    · exact hmn (.inr hr)
  · rcases hkno id hid with hid | ⟨file, hfl, hid⟩
    · rw [hlog]
      refine (h.known id hid).imp_right ?_
      rintro ⟨t', file, hfl, hid⟩
      refine ⟨t', file, ?_, hid⟩
      by_cases heq : t' = t
      · rw [heq, htd] at hfl
        cases hfl
      · rwa [hoth t' heq]
    · exact .inr ⟨t, file, hfl, hid⟩
  · rw [hlog]
    exact h.announced.1
  · rw [hlog]
    by_cases heq : t' = t
    · rwa [heq]
    · rw [hoth t' heq]
      exact h.announced.2 t'

theorem forall_pc {β : Type*} {g : Pc → β} (hoth : ∀ t', t' ≠ t → s'.pc t' = s.pc t')
    (hsl : g (s'.pc t) = g (s.pc t)) (t' : Fin n) : g (s'.pc t') = g (s.pc t') := by
  by_cases heq : t' = t
  · rw [heq, hsl]
  · rw [hoth t' heq]

theorem Logged.step (h : Logged s) (hst : LogStep s s' t)
    (hoth : ∀ t', t' ≠ t → s'.pc t' = s.pc t') (hcal : s'.calls = s.calls)
    (hfou : Found s t) : Logged s' := by
  have hreq : s'.requested = s.requested := by rw [requested, hcal]; rfl
  have hnn : s'.requested = s.requested ++ [] := by rw [hreq, append_nil]
  obtain ⟨hann, hthr⟩ := h.announced
  cases hst with
  | keep hlog htd has hkno =>
    have htod := forall_pc hoth htd
    have hask := forall_pc hoth has
    refine ⟨?_, ?_, ?_, ?_, ?_, ?_⟩
    all_goals simp [hreq, hlog, htod, hask, hkno]
    · exact h.asked
    · exact h.logged
    · exact h.covered
    · exact h.known
    · exact hann
    · exact hthr
  | place r hlog htd has hkno =>
    have hask := forall_pc hoth has
    -- the record moves from the thread to the log
    have hmov : ∀ t' r', r' ∈ (s.pc t').todo → r' ∈ (s'.pc t').todo ∨ r' = r := by
      intro t' r' hmem
      by_cases heq : t' = t
      · rw [heq, htd] at hmem
        rw [heq]
        exact (mem_cons.1 hmem).symm
      · rw [hoth t' heq]
        exact .inl hmem
    have hbc : ∀ t' r', r' ∈ (s'.pc t').todo → r' ∈ (s.pc t').todo := by
      intro t' r' hmem
      by_cases heq : t' = t
      · rw [heq] at hmem ⊢
        rw [htd]
        exact mem_cons_of_mem _ hmem
      · rwa [hoth t' heq] at hmem
    have hr : r ∈ (s.pc t).todo := by rw [htd]; exact mem_cons_self
    have hlgg : ∀ {r'}, r' ∈ s.log → r' ∈ s'.log := fun hmem => by
      rw [hlog]
      exact mem_append_left _ hmem
    have hnew : r ∈ s'.log := by rw [hlog]; exact mem_append_right _ mem_cons_self
    have hsl : s'.log ++ (s'.pc t).todo = s.log ++ (s.pc t).todo := by
      rw [hlog, htd, append_assoc, singleton_append]
    have hann' : Announced s'.log := by
      have hwho := hthr t
      rw [← hsl] at hwho
      exact hwho.of_append
    refine ⟨?_, ?_, ?_, ?_, hann', fun t' => ?_⟩
    · intro t' r' hor
      rw [hreq]
      rw [hask] at hor
      exact h.asked t' r' (hor.imp id (hbc t' r'))
    · intro r' hmem
      rw [hreq]
      rw [hlog] at hmem
      rcases mem_append.1 hmem with hmem | hmem
      · exact h.logged r' hmem
      · rw [mem_singleton.1 hmem]
        exact h.asked t r (.inr hr)
    · intro r' hmem
      rw [hreq] at hmem
      rw [hkno]
      rcases h.covered r' hmem with hmem | ⟨t', hmem | hmem⟩ | hfl
      · exact .inl (hlgg hmem)
      · exact .inr (.inl ⟨t', .inl (by rwa [hask])⟩)
      · rcases hmov t' r' hmem with hmem | rfl
        · exact .inr (.inl ⟨t', .inr hmem⟩)
        · exact .inl hnew
      · exact .inr (.inr hfl)
    · intro id hid
      rw [hkno] at hid
      rcases h.known id hid with ⟨file, hmem, hfl⟩ | ⟨t', file, hmem, hfl⟩
      · exact .inl ⟨file, hlgg hmem, hfl⟩
      · rcases hmov t' _ hmem with hmem | heq
        · exact .inr ⟨t', file, hmem, hfl⟩
        · exact .inl ⟨file, by rw [heq]; exact hnew, hfl⟩
    · by_cases heq : t' = t
      · rw [heq, hsl]
        exact hthr t
      · rw [hoth t' heq, hlog]
        rw [hlog] at hann'
        exact (hthr t').insert hann'
  | drop file offset hpc hmem hlog hnew hkno =>
    obtain ⟨has, htd⟩ := Pc.asking_eq hpc
    have hin := hfou file offset hpc hmem
    refine h.takeOver hoth hlog hnn htd ?_ ?_ hkno.symm.subset ?_ ?_
    · intro r hor
      rw [hnew] at hor
      rw [has]
      exact .inl (mem_cons_of_mem _ (hor.resolve_left nofun))
    · intro r hor
      rw [has] at hor
      rcases mem_cons.1 (hor.resolve_right nofun) with rfl | hblo
      · exact .inr ⟨file, rfl, by rwa [hkno]⟩
      · exact .inl (.inr (by rw [hnew]; exact hblo))
    · intro id hid
      exact .inl (by rwa [hkno] at hid)
    · rw [hnew]
      exact hann.append_block hin offset
  | register file offset hpc hlog hnew hkno =>
    obtain ⟨has, htd⟩ := Pc.asking_eq (.inr hpc)
    refine h.takeOver hoth hlog hnn htd ?_ ?_ ?_ ?_ ?_
    · intro r hor
      rw [hnew] at hor
      rw [has]
      exact .inl (hor.resolve_left nofun)
    · intro r hor
      rw [has] at hor
      exact .inl (.inr (by rw [hnew]; exact hor.resolve_right nofun))
    · rw [hkno]
      exact Finset.subset_insert ..
    · intro id hid
      rw [hkno] at hid
      rcases Finset.mem_insert.1 hid with rfl | hid
      · exact .inr ⟨file, by rw [hnew]; exact mem_cons_self, rfl⟩
      · exact .inl hid
    · rw [hnew]
      exact hann.append_library file offset

/-! ### Calls -/

variable {c : Call}

/-- What a thread that is not in a call does not do. -/
theorem Pc.entry_spec (c : Call) : ((entry c).asking ++ (entry c).todo = c.records ∧
      ∀ r ∈ (entry c).todo, ∀ id offset, r ≠ .block id offset) ∧
      (entry c).todo.length ≤ 1 ∧ (entry c).aside = true ∧
      (entry c).holdsShared = false ∧ (entry c).holdsExclusive = false := by
  cases c with
  | appendLibraryLoad file | appendSetMainExecutable file =>
    exact ⟨⟨rfl, forall_mem_singleton.2 nofun⟩, le_rfl, rfl, rfl, rfl⟩
  | appendBlock info blockEntry =>
    cases hoff : info.offset? blockEntry with
    | none =>
      simp only [entry, Call.records, hoff]
      exact ⟨⟨rfl, nofun⟩, Nat.zero_le _, rfl, rfl, rfl⟩
    | some offset =>
      simp only [entry, Call.records, hoff]
      exact ⟨⟨rfl, nofun⟩, Nat.zero_le _, rfl, rfl, rfl⟩

theorem Writer.call_eq (h : s.call t c = some s') :
    s.pc t = .idle ∧ s' = { s.goto t (entry c) with calls := s.calls ++ [c] } := by
  rw [call] at h
  split at h
  · rename_i hpc
    cases h
    exact ⟨hpc, rfl⟩
  · cases h

theorem Locks.call (h : Locks s) (hcl : s.call t c = some s') : Locks s' := by
  obtain ⟨hpc, rfl⟩ := call_eq hcl
  obtain ⟨-, -, -, hsha, hexc⟩ := Pc.entry_spec c
  exact h.goto_same (by rw [hpc, hsha]; rfl) (by rw [hpc, hexc]; rfl) rfl rfl rfl

theorem Space.call (h : Space s) (hcl : s.call t c = some s') : Space s' := by
  obtain ⟨hpc, rfl⟩ := call_eq hcl
  obtain ⟨-, -, hasi, -⟩ := Pc.entry_spec c
  exact h.aside rfl (by rw [hpc]; rfl) hasi rfl rfl rfl rfl rfl

theorem Logged.call (h : Logged s) (hcl : s.call t c = some s') : Logged s' := by
  obtain ⟨hpc, rfl⟩ := call_eq hcl
  obtain ⟨⟨hrec, hnob⟩, hlen, -⟩ := Pc.entry_spec c
  have hreq : ({ s.goto t (entry c) with calls := s.calls ++ [c] } : Writer n).requested
      = s.requested ++ c.records := by
    rw [requested, flatMap_append, flatMap_singleton]
    rfl
  have hsl : (s.goto t (entry c)).pc t = entry c := s.goto_pc_self ..
  have hnew : ∀ r, r ∈ ((s.goto t (entry c)).pc t).asking ∨
      r ∈ ((s.goto t (entry c)).pc t).todo ↔ r ∈ c.records := fun r => by
    rw [hsl, ← mem_append, hrec]
  refine h.takeOver (t := t) (fun t' hne => s.goto_pc_of_ne hne _) rfl hreq (by rw [hpc]; rfl)
    (fun r hor => .inr ((hnew r).1 hor)) ?_ (Finset.Subset.refl _) (fun id hid => .inl hid) ?_
  · intro r hor
    rw [hpc] at hor
    exact .inl ((hnew r).2 (hor.resolve_left nofun))
  · change Announced (s.log ++ ((s.goto t (entry c)).pc t).todo)
    rw [hsl]
    -- a call starts with at most one record, which is no block
    match hent : (entry c).todo, hlen with
    | [], _ =>
      rw [append_nil]
      exact h.announced.1
    | [r], _ =>
      exact h.announced.1.append_one fun id offset heq =>
        absurd heq (hnob r (by rw [hent]; exact mem_cons_self) id offset)

/-! ### Progress -/

/-- Why a thread cannot take a step: it is in no call, it wants a lock that is not free, or it waits
for a flush. -/
theorem Writer.blocked (h : s.advance t = none) : s.pc t = .idle ∨
    (¬(s.owner = none ∧ s.shared = ∅) ∧ (s.pc t).holdsShared = false ∧
      (s.pc t).holdsExclusive = false) ∨
    ∃ r next, s.pc t = .waiting r next ∧ bufferSize < s.bufferOffset := by
  rw [advance] at h
  have hown : s.owner.isSome → ¬(s.owner = none ∧ s.shared = ∅) := by
    intro hsm hfr
    rw [hfr.1] at hsm
    cases hsm
  cases hpc : s.pc t with
  | idle => exact .inl rfl
  | check file offset =>
    simp only [hpc] at h
    split at h
    · rename_i hsm
      exact .inr (.inl ⟨hown hsm, rfl, rfl⟩)
    · split at h <;> cases h
  | register file offset =>
    simp only [hpc] at h
    split at h
    · rename_i hno
      exact .inr (.inl ⟨s.not_free_iff.1 hno, rfl, rfl⟩)
    · split at h <;> cases h
  | append r next =>
    simp only [hpc] at h
    split at h
    · rename_i hsm
      exact .inr (.inl ⟨hown hsm, rfl, rfl⟩)
    · cases h
  | locked r next | flushed r next =>
    simp only [hpc] at h
    cases h
  | reserved r next offset | exclusive r next offset =>
    simp only [hpc] at h
    split at h <;> cases h
  | overflowed r next offset =>
    simp only [hpc] at h
    split at h
    · rename_i hno
      exact .inr (.inl ⟨s.not_free_iff.1 hno, rfl, rfl⟩)
    · cases h
  | waiting r next =>
    simp only [hpc] at h
    split at h
    · cases h
    · rename_i hfl
      exact .inr (.inr ⟨r, next, rfl, Nat.not_le.1 hfl⟩)

/-- A thread that holds the lock can take a step. -/
theorem Writer.blocked_holds (h : s.advance t = none) :
    (s.pc t).holdsShared = false ∧ (s.pc t).holdsExclusive = false := by
  rcases blocked h with hpc | ⟨-, hno⟩ | ⟨r, next, hpc, -⟩
  · rw [hpc]
    exact ⟨rfl, rfl⟩
  · exact hno
  · rw [hpc]
    exact ⟨rfl, rfl⟩

/-- **Some thread can take a step** as long as a call is not complete. -/
theorem Writer.progress (hs : Space s) (hl : Locks s) (hbs : ∃ t, s.pc t ≠ .idle) :
    ∃ t s', s.advance t = some s' := by
  by_contra hnn
  have hblo : ∀ t, s.advance t = none := fun t =>
    eq_none_iff_forall_ne_some.2 fun s' hadv => hnn ⟨t, s', hadv⟩
  -- a thread that holds the lock is not blocked, so that the lock is free
  have hown : s.owner = none := by
    by_contra hsm
    obtain ⟨t, ht⟩ := ne_none_iff_exists'.1 hsm
    exact Bool.false_ne_true ((blocked_holds (hblo t)).2.symm.trans ((hl.owner t).1 ht))
  have hsha : s.shared = ∅ := by
    refine Finset.eq_empty_of_forall_notMem fun t hmem => ?_
    exact Bool.false_ne_true ((blocked_holds (hblo t)).1.symm.trans ((hl.shared t).1 hmem))
  have hwai : ∀ t, s.pc t = .idle ∨
      ∃ r next, s.pc t = .waiting r next ∧ bufferSize < s.bufferOffset := fun t =>
    (blocked (hblo t)).imp id fun hor =>
      hor.resolve_left fun hlc => hlc.1 ⟨hown, hsha⟩
  -- a thread that waits waits for another one that is to flush the buffer
  obtain ⟨t, hid⟩ := hbs
  obtain ⟨r, next, -, hfl⟩ := (hwai t).resolve_left hid
  obtain ⟨t₀, hcla, -⟩ := hs.full hfl
  rcases hwai t₀ with hpc | ⟨r, next, hpc, -⟩
  · rw [hpc] at hcla
    cases hcla
  · rw [hpc] at hcla
    cases hcla

/-- The records of a thread that have no place yet. -/
def Pc.count (pc : Pc) : ℕ := pc.asking.length + pc.todo.length

/-- How far a thread is from the end of its record, with or without room in the buffer. -/
def Pc.rank (room : Bool) : Pc → ℕ
  | .idle => 0
  | .check .. => 13
  | .register .. => 12
  | .append .. => 8
  | .locked .. => 7
  | .reserved r _ offset =>
    if offset + r.size ≤ bufferSize then 9 else if room then 12 else 6
  | .overflowed .. => if room then 11 else 5
  | .exclusive .. => if room then 10 else 4
  | .flushed .. => 9
  | .waiting .. => if room then 9 else 3

namespace Writer

def room (s : Writer n) : Bool := decide (s.bufferOffset ≤ bufferSize)

/-- The records that have no place yet, twice, and whether there is something to flush. -/
def weight (s : Writer n) : ℕ :=
  2 * ∑ t, (s.pc t).count + if s.pending = [] then 0 else 1

def ranks (s : Writer n) : ℕ := ∑ t, (s.pc t).rank s.room

/-- A bound for the steps until all calls are complete. -/
def work (s : Writer n) : ℕ := s.weight * (13 * n + 1) + s.ranks

theorem ranks_le (s : Writer n) : s.ranks ≤ 13 * n := by
  have hle : ∀ t ∈ Finset.univ, (s.pc t).rank s.room ≤ 13 := by
    intro t _
    cases s.pc t <;> cases s.room <;> simp only [Pc.rank] <;> first | omega | (split <;> simp)
  have hsum := Finset.sum_le_card_nsmul Finset.univ _ 13 hle
  rwa [Finset.card_univ, Fintype.card_fin, smul_eq_mul, Nat.mul_comm] at hsum

/-- Less weight, or the same with lower ranks, is less work. -/
theorem work_lt (h : s'.weight < s.weight ∨ s'.weight = s.weight ∧ s'.ranks < s.ranks) :
    s'.work < s.work := by
  rw [work, work]
  rcases h with hlt | ⟨heq, hlt⟩
  · have hmul := Nat.mul_le_mul_right (13 * n + 1) (Nat.succ_le_of_lt hlt)
    rw [Nat.succ_mul] at hmul
    have hle := s'.ranks_le
    omega
  · rw [heq]
    omega

/-- One thread changes in a sum over all of them. -/
theorem sum_lt {f g : Fin n → ℕ} (hoth : ∀ t', t' ≠ t → f t' ≤ g t') (hsl : f t < g t) :
    ∑ t', f t' < ∑ t', g t' := by
  refine Finset.sum_lt_sum (fun t' _ => ?_) ⟨t, Finset.mem_univ t, hsl⟩
  by_cases heq : t' = t
  · rw [heq]
    exact hsl.le
  · exact hoth t' heq

section

variable (hoth : ∀ t', t' ≠ t → s'.pc t' = s.pc t')
include hoth

theorem ranks_lt (hrm : s'.room = true → s.room = true)
    (hsl : (s'.pc t).rank s'.room < (s.pc t).rank s.room) : s'.ranks < s.ranks := by
  have hmn : ∀ pc : Pc, pc.rank s'.room ≤ pc.rank s.room := by
    intro pc
    cases hr' : s'.room with
    | true => rw [hrm hr']
    | false =>
      cases s.room with
      | false => exact le_rfl
      | true => cases pc <;> simp only [Pc.rank] <;> first | omega | (split <;> simp)
  exact sum_lt (fun t' hne => by rw [hoth t' hne]; exact hmn _) hsl

theorem sum_count_eq (hsl : (s'.pc t).count = (s.pc t).count) :
    ∑ t', (s'.pc t').count = ∑ t', (s.pc t').count :=
  Finset.sum_congr rfl fun t' _ => forall_pc hoth hsl t'

theorem weight_eq (hsl : (s'.pc t).count = (s.pc t).count) (hpen : s'.pending = s.pending) :
    s'.weight = s.weight := by
  rw [weight, weight, hpen, sum_count_eq hoth hsl]

/-- A thread has fewer records without a place. -/
theorem weight_lt (hsl : (s'.pc t).count < (s.pc t).count) : s'.weight < s.weight := by
  have hsum : ∑ t', (s'.pc t').count < ∑ t', (s.pc t').count :=
    sum_lt (fun t' hne => by rw [hoth t' hne]) hsl
  rw [weight, weight]
  have hle : (if s'.pending = [] then 0 else 1) ≤ 1 := by split <;> decide
  omega

end

/-- A step that changes neither the records nor the buffer brings its thread closer to the end. -/
theorem closer (hm : Moves s t s') (hlog : LogStep s s' t) {pc : Pc} (hpc : s'.pc t = pc)
    (hsm : s'.log = s.log) (hpen : s'.pending = s.pending)
    (hrm : s'.room = true → s.room = true) (hsl : pc.rank s'.room < (s.pc t).rank s.room) :
    s'.weight < s.weight ∨ s'.weight = s.weight ∧ s'.ranks < s.ranks := by
  have hoth := hm.frame.1
  have hran := ranks_lt hoth hrm (hpc ▸ hsl)
  cases hlog with
  | keep _ htd hask _ =>
    exact .inr ⟨weight_eq hoth (by rw [Pc.count, Pc.count, htd, hask]) hpen, hran⟩
  | place r hlog _ _ _ => exact absurd (hlog.symm.trans hsm) (by simp)
  | drop file offset hpc _ _ hnew _ =>
    obtain ⟨hask, htd⟩ := Pc.asking_eq hpc
    refine .inl (weight_lt hoth ?_)
    rw [Pc.count, Pc.count, hask, htd, hnew]
    exact Nat.one_lt_two
  | register file offset hpc _ hnew _ =>
    obtain ⟨hask, htd⟩ := Pc.asking_eq (.inr hpc)
    refine .inr ⟨weight_eq hoth ?_ hpen, hran⟩
    rw [Pc.count, Pc.count, hask, htd, hnew]
    rfl

/-- **Every step is progress**, if the records fit the buffer. -/
theorem work_lt_of_moves (hs : Space s) (hl : Locks s)
    (hsma : ∀ t, ∀ r ∈ (s.pc t).todo, r.size ≤ bufferSize) (hm : Moves s t s') :
    s'.work < s.work := by
  refine work_lt ?_
  have hlog := hm.logStep
  have hm' := hm
  cases hm with
  | known hpc _ _ | unknown hpc _ _ | late hpc _ _ _ | registers hpc _ _ _ | locks hpc _
  | retries hpc =>
    refine closer hm' hlog (s.goto_pc_self ..) rfl rfl id ?_
    simp [hpc, Pc.rank]
  | wakes hpc hrm =>
    refine closer hm' hlog (s.goto_pc_self ..) rfl rfl id ?_
    have hr : s.room = true := decide_eq_true hrm
    rw [hpc, hr]
    exact (by decide : 8 < 9)
  | @reserves r next hpc =>
    have hsl : (s.fetchAdd t r next).pc t = .reserved r next s.bufferOffset := s.goto_pc_self ..
    by_cases hft : s.bufferOffset + r.size ≤ bufferSize
    · refine .inl (weight_lt hm'.frame.1 ?_)
      rw [hsl, hpc]
      simp only [Pc.count, Pc.asking, Pc.todo, if_pos hft, length_cons]
      omega
    · have hfl : (s.fetchAdd t r next).room = false := decide_eq_false hft
      refine closer hm' hlog hsl (congrArg (s.committed ++ ·) (if_neg hft)) (if_neg hft)
        (by rw [hfl]; nofun) ?_
      rw [hpc, hfl, Pc.rank, Pc.rank, if_neg hft]
      exact (by decide : 6 < 7)
  | @copies r next offset hpc hft =>
    refine closer hm' hlog (s.goto_pc_self ..) rfl rfl id ?_
    rw [hpc, Pc.rank, if_pos hft]
    cases next
    · exact (by decide : 0 < 9)
    · exact (by decide : 8 < 9)
  | @overflows r next offset hpc hov =>
    refine closer hm' hlog (s.goto_pc_self ..) rfl rfl id ?_
    rw [hpc, Pc.rank, Pc.rank, if_neg (Nat.not_le.2 hov)]
    change (if s.room = true then 11 else 5) < _
    cases s.room <;> decide
  | acquires hpc _ _ =>
    refine closer hm' hlog (s.goto_pc_self ..) rfl rfl id ?_
    rw [hpc]
    change (if s.room = true then 10 else 4) < if s.room = true then 11 else 5
    cases s.room <;> decide
  | yields hpc _ =>
    refine closer hm' hlog (s.goto_pc_self ..) rfl rfl id ?_
    rw [hpc]
    change (if s.room = true then 9 else 3) < if s.room = true then 10 else 4
    cases s.room <;> decide
  | @flushes r next offset hpc hin =>
    -- a record that fits the empty buffer is not flushed for nothing
    have hsl : (s.flush t r next offset).pc t = .flushed r next := s.goto_pc_self ..
    obtain ⟨hoff, -, -⟩ := hs.flushes hl hpc hin
    have hov := hs.tooFar t r next offset (.inr hpc)
    have hsz := hsma t r (by rw [hpc]; exact mem_cons_self)
    have hpen : s.pending ≠ [] := by
      intro hnil
      rw [hnil, bytes_nil] at hoff
      omega
    refine .inl ?_
    have hsum := sum_count_eq hm'.frame.1 (by rw [hsl, hpc]; rfl)
    rw [weight, weight, hsum, if_neg hpen]
    exact Nat.lt_succ_self _

end Writer

/-! ### Runs -/

/-- What a call may ask for: the file name fits the buffer with the rest of its record, and a block
does not look like another record. -/
def Call.Recordable : Call → Prop
  | .appendLibraryLoad file => file.filename.length ≤ 4075
  | .appendSetMainExecutable _ => True
  | .appendBlock info blockEntry => ∀ offset, info.offset? blockEntry = some offset →
    info.file.filename.length ≤ 4075 ∧ (Record.block info.file.fileId offset).Plain

/-- Calls that can be recorded, and steps in which a file that is known is one whose record is in
the log. -/
def Careful (s : Writer n) : Action n → Prop
  | .call _ c => c.Recordable
  | .advance t => Found s t

def Action.Advances : Action n → Prop
  | .call .. => False
  | .advance _ => True

theorem Record.size_library (file : FileInfo) :
    (Record.library file).size = alignUp (21 + file.filename.length) 4 := by
  simp only [Record.size, Record.encode, entryBytes, length_append, length_leBytes,
    length_replicate, alignUp]
  omega

theorem Call.Recordable.records (h : c.Recordable) :
    ∀ r ∈ c.records, r.Plain ∧ r.size ≤ bufferSize := by
  have hlib : ∀ file : FileInfo, file.filename.length ≤ 4075 →
      (Record.library file).size ≤ bufferSize := by
    intro file hle
    rw [Record.size_library, alignUp, bufferSize]
    omega
  cases c with
  | appendLibraryLoad file => exact forall_mem_singleton.2 ⟨trivial, hlib file h⟩
  | appendSetMainExecutable file =>
    refine forall_mem_singleton.2 ⟨trivial, ?_⟩
    simp [Record.size, Record.encode, entryBytes, bufferSize]
  | appendBlock info blockEntry =>
    rw [Call.records]
    split
    · exact forall_mem_nil _
    · rename_i offset hoff
      obtain ⟨hle, hpla⟩ := h offset hoff
      refine forall_mem_cons.2 ⟨⟨trivial, hlib _ hle⟩, forall_mem_singleton.2 ⟨hpla, ?_⟩⟩
      simp [Record.size, Record.encode, entryBytes, bufferSize]

/-- What holds in every state, whatever the threads do next. -/
structure Inv (s : Writer n) : Prop where
  locks : Locks s
  space : Space s
  small : ∀ t r, r ∈ (s.pc t).asking ∨ r ∈ (s.pc t).todo → r.size ≤ bufferSize

/-- A thread works on the records it had. -/
theorem LogStep.mem (h : LogStep s s' t) (hoth : ∀ t', t' ≠ t → s'.pc t' = s.pc t') {t' : Fin n}
    (hr : r ∈ (s'.pc t').asking ∨ r ∈ (s'.pc t').todo) :
    r ∈ (s.pc t').asking ∨ r ∈ (s.pc t').todo := by
  by_cases heq : t' = t
  · subst heq
    cases h with
    | keep _ htd hask _ => rwa [htd, hask] at hr
    | place r' _ htd hask _ =>
      rw [hask] at hr
      rw [htd]
      exact hr.imp id (mem_cons_of_mem _)
    | drop file offset hpc _ _ hnew _ =>
      rw [hnew] at hr
      rw [(Pc.asking_eq hpc).1]
      exact .inl (mem_cons_of_mem _ (hr.resolve_left nofun))
    | register file offset hpc _ hnew _ =>
      rw [hnew] at hr
      rw [(Pc.asking_eq (.inr hpc)).1]
      exact .inl (hr.resolve_left nofun)
  · rwa [hoth t' heq] at hr

theorem Inv.step (h : Inv s) (hm : Moves s t s') : Inv s' :=
  ⟨h.locks.step hm, h.space.step h.locks hm, fun t' r hr =>
    h.small t' r (hm.logStep.mem hm.frame.1 hr)⟩

theorem Inv.call (h : Inv s) (hc : c.Recordable) (hcl : s.call t c = some s') : Inv s' := by
  refine ⟨h.locks.call hcl, h.space.call hcl, fun t' r hr => ?_⟩
  obtain ⟨-, rfl⟩ := call_eq hcl
  by_cases heq : t' = t
  · have hsl : (s.goto t (entry c)).pc t' = entry c := by
      rw [heq]
      exact s.goto_pc_self ..
    have hmem : r ∈ (entry c).asking ++ (entry c).todo := by
      rw [mem_append, ← hsl]
      exact hr
    rw [(Pc.entry_spec c).1.1] at hmem
    exact (hc.records r hmem).2
  · have hot : (s.goto t (entry c)).pc t' = s.pc t' := s.goto_pc_of_ne heq _
    refine h.small t' r ?_
    rw [← hot]
    exact hr

/-- What holds in the states of a run of careful steps. -/
structure Recorded (s : Writer n) : Prop where
  inv : Inv s
  logged : Logged s
  plain : ∀ r ∈ s.requested, r.Plain

theorem Recorded.start : Recorded (Writer.start n) :=
  ⟨⟨.start, .start, fun _ _ h => h.elim nofun nofun⟩, .start, nofun⟩

theorem Recorded.step (h : Recorded s) {a : Action n} (hc : Careful s a)
    (hst : (machine n).step s a s') : Recorded s' := by
  cases a with
  | call t c =>
    refine ⟨h.inv.call hc hst, h.logged.call hst, ?_⟩
    obtain ⟨-, rfl⟩ := call_eq hst
    intro r hr
    rw [requested, flatMap_append, flatMap_singleton] at hr
    rcases mem_append.1 hr with hr | hr
    · exact h.plain r hr
    · exact (Call.Recordable.records hc r hr).1
  | advance t =>
    have hm := Moves.of_advance hst
    obtain ⟨hoth, hcal⟩ := hm.frame
    refine ⟨h.inv.step hm, h.logged.step hm.logStep hoth hcal hc, ?_⟩
    rw [requested, hcal]
    exact h.plain

/-- More records of files that are in the log change nothing for the parser. -/
theorem Exact.mono {records requested : List Record} {ret : Parsed} (h : Exact records ret)
    (hsub : ∀ r ∈ records, r ∈ requested) (hcov : ∀ r ∈ requested, r ∈ records ∨
      ∃ file file', r = .library file ∧ .library file' ∈ records ∧ file'.fileId = file.fileId) :
    Exact requested ret := by
  have hot : ∀ r, (∀ file, r ≠ .library file) → (r ∈ requested ↔ r ∈ records) := by
    intro r hne
    refine ⟨fun hr => (hcov r hr).resolve_right ?_, hsub r⟩
    rintro ⟨file, -, heq, -⟩
    exact hne file heq
  refine ⟨fun id => ?_, fun id c hc => ?_, fun id c hc => ?_, fun id c hc offset => ?_⟩
  · rw [h.known]
    constructor
    · rintro ⟨r, hr, hid⟩
      exact ⟨r, hsub r hr, hid⟩
    · rintro ⟨r, hr, hid⟩
      rcases hcov r hr with hr | ⟨file, file', rfl, hr, hfl⟩
      · exact ⟨r, hr, hid⟩
      · exact ⟨.library file', hr, hfl.trans hid⟩
  · refine (h.filename id c hc).imp ?_ ?_
    · rintro ⟨file, hr, hfl⟩
      exact ⟨file, hsub _ hr, hfl⟩
    · rintro ⟨hemp, hno⟩
      refine ⟨hemp, fun file hr hid => ?_⟩
      rcases hcov _ hr with hr | ⟨file₁, file', heq, hr, hfl⟩
      · exact hno file hr hid
      · cases heq
        exact hno file' hr (hfl.trans hid)
  · rw [h.executable id c hc, hot (.executable id) nofun]
  · rw [h.blocks id c hc, hot (.block id offset) nofun]

/-- **When all calls are complete** the file holds what was recorded. -/
theorem Recorded.exact (h : Recorded s) (hil : ∀ t, s.pc t = .idle) :
    Exact s.requested (parseCodeMap s.close) := by
  have hrm : s.bufferOffset ≤ bufferSize := by
    by_contra hfl
    obtain ⟨t, hcla, -⟩ := h.inv.space.full (Nat.not_le.1 hfl)
    rw [hil t] at hcla
    cases hcla
  have hcp : ∀ t r next o, s.pc t ≠ .reserved r next o := by
    intro t r next o heq
    rw [hil t] at heq
    cases heq
  have hclo : s.close = s.log.flatMap Record.encode := by
    rw [close, (h.inv.space.room hrm).1, h.inv.space.flush_eq hcp, h.inv.space.file,
      log, flatMap_append]
  have hpla : ∀ r ∈ s.log, r.Plain := fun r hr => h.plain r (h.logged.logged r hr)
  have hnot : ∀ t r, ¬(r ∈ (s.pc t).asking ∨ r ∈ (s.pc t).todo) := by
    intro t r hor
    rw [hil t] at hor
    exact hor.elim nofun nofun
  rw [hclo, parseCodeMap_encode hpla]
  refine (exact_of_announced h.logged.announced.1).mono h.logged.logged fun r hr => ?_
  rcases h.logged.covered r hr with hr | ⟨t, hor⟩ | ⟨file, rfl, hid⟩
  · exact .inl hr
  · exact absurd hor (hnot t r)
  · rcases h.logged.known _ hid with ⟨file', hr', hid'⟩ | ⟨t, file', hr', -⟩
    · exact .inr ⟨file, file', rfl, hr', hid'⟩
    · exact absurd (.inr hr') (hnot t _)

/-- **The round trip of the code map.**  In every interleaving of careful steps: without new calls
the threads take at most `work` steps, and as long as a call is not complete one of them can take
one; and when all calls are complete, the parser returns what they recorded. -/
theorem code_map_round_trip {actions : List (Action n)}
    (hrun : (machine n).Run Careful (Writer.start n) actions s) :
    (∀ steps s', (machine n).Run (fun _ a => a.Advances) s steps s' →
      steps.length ≤ s.work ∧ ((∃ t, s'.pc t ≠ .idle) → ∃ t s'', s'.advance t = some s'')) ∧
      ((∀ t, s.pc t = .idle) → Exact s.requested (parseCodeMap s.close)) := by
  have hrec : Recorded s := hrun.invariant .start fun s a s' h hc hsp => h.step hc hsp
  refine ⟨fun steps s' hste => ?_, hrec.exact⟩
  have hone : ∀ (s : Writer n) a s', Inv s → a.Advances → (machine n).step s a s' →
      Inv s' ∧ s'.work < s.work := by
    intro s a s' hinv ha hsp
    cases a with
    | call t c => exact ha.elim
    | advance t =>
      have hm := Moves.of_advance hsp
      exact ⟨hinv.step hm, work_lt_of_moves hinv.space hinv.locks
        (fun t r hr => hinv.small t r (.inr hr)) hm⟩
  have hinv : Inv s' := hste.invariant hrec.inv fun s a s' h hc hst => (hone s a s' h hc hst).1
  have hlen := hste.length_add_le hrec.inv hone
  exact ⟨by omega, progress hinv.space hinv.locks⟩

/-! ### Runs on the machine -/

variable {C : Writer n → Action n → Prop} {actions : List (Action n)}

instance (id : FileId) : DecidablePred (Record.Introduces id)
  | .library file => inferInstanceAs (Decidable (file.fileId = id))
  | .executable id' => inferInstanceAs (Decidable (id' = id))
  | .block _ _ => inferInstanceAs (Decidable False)

/-- The file a thread is about to look up. -/
def Pc.file? : Pc → Option FileInfo
  | .check file _ | .register file _ => some file
  | _ => none

theorem found_iff : Found s t ↔ ∀ file ∈ (s.pc t).file?, file.fileId ∈ s.knownFileIds →
    ∃ r ∈ s.log, r.Introduces file.fileId := by
  constructor
  · intro h file hfl
    cases hpc : s.pc t with
    | check _ offset | register _ offset =>
      rw [hpc] at hfl
      cases hfl
      exact h file offset (by simp [hpc])
    | _ =>
      rw [hpc] at hfl
      cases hfl
  · intro h file offset hpc
    exact h file (by rcases hpc with hpc | hpc <;> rw [hpc] <;> rfl)

instance : Decidable (Found s t) := decidable_of_iff _ found_iff.symm

instance : (c : Call) → Decidable c.Recordable
  | .appendLibraryLoad file => inferInstanceAs (Decidable (file.filename.length ≤ 4075))
  | .appendSetMainExecutable _ => inferInstanceAs (Decidable True)
  | .appendBlock info blockEntry =>
    match hoffset : info.offset? blockEntry with
    | none => isTrue fun _ h => nomatch hoffset.symm.trans h
    | some offset =>
      decidable_of_iff (info.file.filename.length ≤ 4075 ∧
        (Record.block info.file.fileId offset).Plain)
        ⟨fun h _ heq => some.inj (hoffset.symm.trans heq) ▸ h, fun h => h offset hoffset⟩

instance : (a : Action n) → Decidable (Careful s a)
  | .call _ c => inferInstanceAs (Decidable c.Recordable)
  | .advance t => inferInstanceAs (Decidable (Found s t))

/-- The actions one after the other, each under the condition. -/
def Writer.play (C : Writer n → Action n → Prop) [∀ s a, Decidable (C s a)] (s : Writer n) :
    List (Action n) → Option (Writer n)
  | [] => some s
  | .call t c :: actions =>
    if C s (.call t c) then (s.call t c).bind (Writer.play C · actions) else none
  | .advance t :: actions =>
    if C s (.advance t) then (s.advance t).bind (Writer.play C · actions) else none

theorem Writer.run_of_play [∀ s a, Decidable (C s a)] (h : s.play C actions = some s') :
    (machine n).Run C s actions s' := by
  induction actions generalizing s with
  | nil =>
    cases h
    exact .nil _
  | cons a actions ih =>
    cases a <;>
    · obtain ⟨hC, h⟩ := ite_none_right_eq_some.1 h
      obtain ⟨s₁, hst, h⟩ := bind_eq_some_iff.1 h
      exact .cons hC hst (ih h)

/-- The state after actions that can be played. -/
def Writer.after (C : Writer n → Action n → Prop) [∀ s a, Decidable (C s a)]
    (actions : List (Action n)) : Writer n :=
  ((Writer.start n).play C actions).getD (Writer.start n)

theorem Writer.run_after [∀ s a, Decidable (C s a)] (h : ((start n).play C actions).isSome) :
    (machine n).Run C (start n) actions (after C actions) := by
  obtain ⟨s, hs⟩ := isSome_iff_exists.1 h
  rw [after, hs]
  exact run_of_play hs

/-- A file whose name is one letter. -/
def letter : FileInfo := ⟨5, [0x61], by decide⟩

def letterBlock (offset : BitVec 64) : Call := .appendBlock ⟨letter, 0x1000⟩ (0x1000 + offset)

def advances (t : Fin n) (k : ℕ) : List (Action n) := replicate k (.advance t)

/-- The second thread comes when the record of the file is in the log. -/
def oneAfterTheOther : List (Action 2) :=
  .call 0 (letterBlock 16) :: advances 0 8 ++ .call 1 (letterBlock 32) :: advances 1 4

theorem code_map_one_after_the_other :
    (machine 2).Run Careful (Writer.start 2) oneAfterTheOther (.after Careful oneAfterTheOther) ∧
      Exact [.library letter, .block 5 16, .library letter, .block 5 32]
        (parseCodeMap (Writer.after Careful oneAfterTheOther).close) := by
  have hrun := run_after (by decide +kernel : ((start 2).play Careful oneAfterTheOther).isSome)
  exact ⟨hrun, (code_map_round_trip hrun).2 (by decide +kernel)⟩

/-! ### Calls that are not careful -/

/-- The second thread comes between the registration of the file and its record. -/
def between : List (Action 2) :=
  .call 0 (letterBlock 16) :: advances 0 2 ++ .call 1 (letterBlock 32) :: advances 1 4 ++
    advances 0 6

/-- A block that looks like the mark of the executable. -/
def markedBlock : List (Action 1) :=
  .call 0 (.appendBlock ⟨⟨markerId, [0x61], by decide⟩, 0x1000⟩ 0x100000ffe) :: advances 0 8

/-- The state with a thread elsewhere, and with the lock and the offset as it leaves them. -/
def Writer.during (s : Writer n) (t : Fin n) (shared : Finset (Fin n)) (owner : Option (Fin n))
    (bufferOffset : ℕ) (pc : Pc) : Writer n :=
  { s with shared, owner, bufferOffset, pc := Function.update s.pc t pc }

/-- A record longer than the buffer is tried again from the same state.  Each try is a call of
`AppendData` inside the one before, so in the end the stack overflows. -/
theorem Writer.retries_forever {next : List Record} (hr : bufferSize < r.size)
    (hpc : s.pc t = .append r next) (hown : s.owner = none) (hsha : s.shared = ∅)
    (hoff : s.bufferOffset = 0) (hpen : s.pending = []) :
    (machine n).Run (fun _ a => a.Advances) s (advances t 6) s := by
  have hno : ¬r.size ≤ bufferSize := Nat.not_le.2 hr
  have hlc : s.advance t = some (s.during t {t} none 0 (.locked r next)) := by
    simp [advance, goto, during, hpc, hown, hsha, hoff]
  have hres : (s.during t {t} none 0 (.locked r next)).advance t =
      some (s.during t {t} none r.size (.reserved r next 0)) := by
    simp [advance, goto, fetchAdd, during, hno]
  have hov : (s.during t {t} none r.size (.reserved r next 0)).advance t =
      some (s.during t ∅ none r.size (.overflowed r next 0)) := by
    simp [advance, goto, during, hno]
  have hexc : (s.during t ∅ none r.size (.overflowed r next 0)).advance t =
      some (s.during t ∅ (some t) r.size (.exclusive r next 0)) := by
    simp [advance, goto, free, during]
  have hflu : (s.during t ∅ (some t) r.size (.exclusive r next 0)).advance t =
      some (s.during t ∅ (some t) 0 (.flushed r next)) := by
    simp [advance, goto, flush, during, Codec.readBytes, hpen]
  have haga : (s.during t ∅ (some t) 0 (.flushed r next)).advance t = some s := by
    have hbc : Function.update s.pc t (.append r next) = s.pc := by
      rw [← hpc, Function.update_eq_self]
    simp [advance, goto, during, hbc, ← hown, ← hsha, ← hoff]
  exact .cons trivial hlc <| .cons trivial hres <| .cons trivial hov <|
    .cons trivial hexc <| .cons trivial hflu <| .cons trivial haga (.nil s)

/-- A file whose record is one word longer than the buffer. -/
def longName : FileInfo :=
  ⟨5, replicate 4076 0x61, fun h => absurd (eq_of_mem_replicate h) (by decide)⟩

theorem Record.size_longName : (Record.library longName).size = 4100 := by
  rw [Record.size_library, longName, length_replicate]
  rfl

theorem code_map_not_exact : (∃ s, (machine 2).Run (fun _ _ => True) (Writer.start 2) between s ∧
      (∀ t, s.pc t = .idle) ∧ .block 5 32 ∈ s.requested ∧
      parseCodeMap s.close 5 = some ⟨[0x61], {16}, false⟩) ∧
    (∃ s, (machine 1).Run (fun _ _ => True) (Writer.start 1) markedBlock s ∧
      (∀ t, s.pc t = .idle) ∧ .block markerId 0xfffffffe ∈ s.requested ∧
      parseCodeMap s.close markerId = some ⟨[0x61], ∅, false⟩) ∧
    (∃ s, (machine 1).Run (fun _ _ => True) (Writer.start 1)
        [.call 0 (.appendLibraryLoad longName)] s ∧ s.pc 0 ≠ .idle ∧
      (machine 1).Run (fun _ a => a.Advances) s (advances 0 6) s) := by
  refine ⟨⟨_, run_after (by decide +kernel), ?_, ?_, ?_⟩,
    ⟨_, run_after (by decide +kernel), ?_, ?_, ?_⟩, ?_⟩
  -- the block comes first in the file, and its file is not known there
  · decide +kernel
  · decide +kernel
  · decide +kernel
  -- the block is taken for a mark, and the file ends before the mark does
  · decide +kernel
  · decide +kernel
  · decide +kernel
  · have hcl : (machine 1).step (start 1) (.call 0 (.appendLibraryLoad longName))
        { (start 1).goto 0 (.append (.library longName) []) with
          calls := [.appendLibraryLoad longName] } := rfl
    have hln : bufferSize < (Record.library longName).size := by
      rw [Record.size_longName, bufferSize]
      decide
    exact ⟨_, .cons trivial hcl (.nil _), nofun, retries_forever hln rfl rfl rfl rfl rfl⟩

end FastPPC.CodeMap
