import FastPPC.Seccomp.Transfer

/-!
# Shared filters

The threads share the nodes of the filter list, and a node is freed when its reference count is
zero.  The counts are never below the number of pointers to a node: TSYNC overwrites the chains of
the other threads without giving back what they held, so a count can only be too high.

* `Shape` : the invariant of the pointers;
* `Shape.step` : every call keeps it, whatever the kernel answers, so that no chain has a freed
  filter (`Shape.exists_chain`).
-/

namespace FastPPC.Seccomp

open Function List State

/-! ### Pointers -/

variable {threads : List Thread} {u : Thread} {g : Thread → Thread} {addr i : ℕ}
  {f : SeccompFilterInfo}

def refs (threads : List Thread) (p : ℕ) : ℕ := (threads.map fun u => u.filters.count p).sum

theorem refs_cons (u : Thread) (threads : List Thread) (p : ℕ) :
    refs (u :: threads) p = u.filters.count p + refs threads p := by
  rw [refs, map_cons, sum_cons, refs]

theorem refs_append (threads threads' : List Thread) (p : ℕ) :
    refs (threads ++ threads') p = refs threads p + refs threads' p := by
  rw [refs, map_append, sum_append, refs, refs]

theorem count_le_refs (hu : u ∈ threads) (p : ℕ) : u.filters.count p ≤ refs threads p :=
  single_le_sum (fun _ _ => Nat.zero_le _) _ (mem_map_of_mem hu)

/-- A change of the threads that adds `d u` pointers to each. -/
theorem refs_map_add {d : Thread → ℕ} {p : ℕ}
    (h : ∀ u ∈ threads, (g u).filters.count p = u.filters.count p + d u) :
    refs (threads.map g) p = refs threads p + (threads.map d).sum := by
  rw [refs, refs, map_map, ← sum_map_add]
  congr 1
  exact map_congr_left h

theorem refs_map_eq (h : ∀ u, (g u).filters = u.filters) (p : ℕ) :
    refs (threads.map g) p = refs threads p := by
  rw [refs, refs, map_map]
  congr 1
  exact map_congr_left fun u _ => congrArg (List.count p) (h u)

/-- A thread that goes takes its pointers with it. -/
theorem refs_filter_add (h : (threads.map Thread.id).Nodup) {t : Thread} (ht : t ∈ threads)
    (p : ℕ) :
    refs (threads.filter fun u => u.id ≠ t.id) p + t.filters.count p = refs threads p := by
  induction threads with
  | nil => cases ht
  | cons u threads ih =>
    rw [map_cons, nodup_cons] at h
    rw [refs_cons, filter_cons]
    by_cases hid : u.id = t.id
    · -- no thread behind it has its number
      have hrs : threads.filter (fun u => u.id ≠ t.id) = threads := by
        refine filter_eq_self.2 fun v hv => ?_
        have hne : v.id ≠ t.id := fun heq => h.1 (hid ▸ heq ▸ mem_map_of_mem hv)
        simpa using hne
      have hut : t = u := by
        rcases mem_cons.1 ht with heq | hmem
        · exact heq
        · exact absurd (hid ▸ mem_map_of_mem hmem) h.1
      rw [if_neg (by simp [hid]), hrs, hut]
      omega
    · have hmem : t ∈ threads := by
        rcases mem_cons.1 ht with rfl | hmem
        · exact absurd rfl hid
        · exact hmem
      rw [if_pos (by simpa using hid), refs_cons, Nat.add_assoc, ih h.2 hmem]

/-- A node at the end of the chains of one thread. -/
theorem refs_push {t : ℕ} (hg : ∀ u ∈ threads, u.id = t → (g u).filters = u.filters ++ [addr])
    (p : ℕ) : refs (threads.map fun u => if u.id = t then g u else u) p = refs threads p +
      (threads.map fun u => if u.id = t then if addr = p then 1 else 0 else 0).sum := by
  refine refs_map_add fun u hu => ?_
  split
  · rw [hg u hu ‹_›, count_append, count_singleton]
    simp
  · rfl

/-- What TSYNC does to the number of pointers: the overwritten chains lose theirs. -/
theorem refs_tSyncFilters (s : State) (t : Thread) (p : ℕ) : refs (s.tSyncFilters t).threads p +
        (s.threads.map fun u => if u.Synced t.id then u.filters.count p else 0).sum =
      refs s.threads p + s.threads.countP (Thread.Synced t.id) * t.filters.count p := by
  rw [tSyncFilters]
  induction s.threads with
  | nil => simp
  | cons u threads ih =>
    simp only at ih
    simp only [map_cons, refs_cons, sum_cons, countP_cons]
    split <;> simp only [Nat.add_mul] <;> omega

theorem sum_ite_id_le (h : (threads.map Thread.id).Nodup) (t d : ℕ) :
    (threads.map fun u => if u.id = t then d else 0).sum ≤ d := by
  induction threads with
  | nil => exact Nat.zero_le _
  | cons u threads ih =>
    rw [map_cons, nodup_cons] at h
    rw [map_cons, sum_cons]
    split
    · rename_i heq
      have hzr : (threads.map fun u => if u.id = t then d else 0).sum = 0 := by
        refine sum_eq_zero fun x hx => ?_
        obtain ⟨v, hv, rfl⟩ := mem_map.1 hx
        rw [if_neg]
        rintro rfl
        exact h.1 (heq ▸ mem_map_of_mem hv)
      omega
    · rw [Nat.zero_add]
      exact ih h.2

namespace State

variable {s s' : State} {t t' : Thread}

/-- A chain depends on the nodes it points to. -/
theorem chain_congr (hfil : t'.filters = t.filters)
    (hin : ∀ p ∈ t.filters, s'.info p = s.info p) : s'.chain t' = s.chain t := by
  rw [chain, chain, hfil]
  generalize t.filters = ps at hin
  induction ps with
  | nil => rfl
  | cons p ps ih =>
    rw [mapM_cons, mapM_cons, hin p mem_cons_self, ih fun q hq => hin q (mem_cons_of_mem _ hq)]

/-- A chain grows at its end. -/
theorem chain_append {chain : List SeccompFilterInfo} (hfil : t'.filters = t.filters ++ [addr])
    (hin : ∀ p ∈ t.filters, s'.info p = s.info p) (hf : s'.info addr = some f)
    (hcha : s.chain t = some chain) : s'.chain t' = some (chain ++ [f]) := by
  have hold : s'.chain t = some chain := (chain_congr rfl hin).trans hcha
  rw [State.chain] at hold ⊢
  rw [hfil, mapM_append, hold]
  simp [hf]

theorem length_chain {chain : List SeccompFilterInfo} (h : s.chain t = some chain) :
    chain.length = t.filters.length := by
  rw [State.chain] at h
  generalize t.filters = ps at h
  induction ps generalizing chain with
  | nil =>
    cases h
    rfl
  | cons p ps ih =>
    rw [mapM_cons] at h
    obtain ⟨f, -, h⟩ := Option.bind_eq_some_iff.1 h
    obtain ⟨fs, hfs, h⟩ := Option.bind_eq_some_iff.1 h
    cases h
    rw [length_cons, length_cons, ih hfs]

theorem info_install (tsync : Bool) :
    (s.install t tsync f addr).info = update s.info addr (some f) := by
  cases tsync <;> rfl

theorem mem_of_findThread (h : s.findThread i = some t) : t ∈ s.threads ∧ t.id = i :=
  ⟨mem_of_find?_eq_some h, by simpa using List.find?_some h⟩

end State

/-! ### The invariant -/

variable {tid : ℕ}

/-- The thread objects are distinct, their chains point to nodes of the list, and the counts are
not below the number of pointers. -/
structure Shape (s : State) : Prop where
  ids : (s.threads.map Thread.id).Nodup
  tids : ∀ t ∈ s.threads, t.tid ≠ 0
  refs : ∀ p, refs s.threads p ≤ s.refCount p
  live : ∀ t ∈ s.threads, ∀ p ∈ t.filters, (s.info p).isSome = true

namespace Shape

variable {t : Thread}

variable {s s' : State}

section

variable (h : Shape s)
include h

/-- A new address is in no chain. -/
theorem not_mem_of_free (had : s.info addr = none) (ht : t ∈ s.threads) : addr ∉ t.filters := by
  intro hmem
  have := h.live t ht addr hmem
  rw [had] at this
  cases this

/-- A node put there is seen by no thread. -/
theorem update_info (had : s.info addr = none) (ht : t ∈ s.threads) {p : ℕ} (hp : p ∈ t.filters) :
    update s.info addr (some f) p = s.info p := by
  refine update_of_ne ?_ _ _
  rintro rfl
  exact h.not_mem_of_free had ht hp

theorem map (hg : ∀ u, (g u).id = u.id ∧ (g u).tid = u.tid ∧
    (g u).filters = u.filters) (hthr : s'.threads = s.threads.map g) (hin : s'.info = s.info)
    (href : s'.refCount = s.refCount) : Shape s' where
  ids := by
    rw [hthr, map_map]
    exact (map_congr_left fun u _ => (hg u).1) ▸ h.ids
  tids u hu := by
    rw [hthr] at hu
    obtain ⟨v, hv, rfl⟩ := mem_map.1 hu
    rw [(hg v).2.1]
    exact h.tids v hv
  refs p := by
    rw [hthr, refs_map_eq (fun u => (hg u).2.2), href]
    exact h.refs p
  live u hu p hp := by
    rw [hthr] at hu
    obtain ⟨v, hv, rfl⟩ := mem_map.1 hu
    rw [(hg v).2.2] at hp
    rw [hin]
    exact h.live v hv p hp

theorem sublist (hsub : (s'.threads.map Thread.id).Nodup)
    (hmem : ∀ u ∈ s'.threads, u.tid ≠ 0 ∧ ∃ v ∈ s.threads, u.filters = v.filters)
    (hrf : ∀ p, Seccomp.refs s'.threads p ≤ Seccomp.refs s.threads p) (hin : s'.info = s.info)
    (href : s'.refCount = s.refCount) : Shape s' where
  ids := hsub
  tids u hu := (hmem u hu).1
  refs p := by
    rw [href]
    exact (hrf p).trans (h.refs p)
  live u hu p hp := by
    obtain ⟨-, v, hv, hfil⟩ := hmem u hu
    rw [hfil] at hp
    rw [hin]
    exact h.live v hv p hp

theorem push {t : ℕ} (had : s.info addr = none) (hg : ∀ u ∈ s.threads, u.id = t →
      (g u).id = u.id ∧ (g u).tid = u.tid ∧ (g u).filters = u.filters ++ [addr])
    (hthr : s'.threads = s.threads.map fun u => if u.id = t then g u else u)
    (hin : s'.info = update s.info addr (some f)) (href : s'.refCount = update s.refCount addr 1) :
    Shape s' where
  ids := by
    rw [hthr, map_map]
    refine (map_congr_left fun u hu => ?_) ▸ h.ids
    rw [comp_apply]
    split
    · exact (hg u hu ‹_›).1.symm
    · rfl
  tids u hu := by
    rw [hthr] at hu
    obtain ⟨v, hv, rfl⟩ := mem_map.1 hu
    split
    · rw [(hg v hv ‹_›).2.1]
      exact h.tids v hv
    · exact h.tids v hv
  refs p := by
    have hle : Seccomp.refs s'.threads p ≤
        Seccomp.refs s.threads p + if addr = p then 1 else 0 := by
      rw [hthr, refs_push fun u hu hid => (hg u hu hid).2.2]
      exact Nat.add_le_add_left (sum_ite_id_le h.ids _ _) _
    rw [href]
    by_cases hp : p = addr
    · -- nobody has pointed to the new node before
      have hzr : Seccomp.refs s.threads addr = 0 := by
        refine sum_eq_zero fun x hx => ?_
        obtain ⟨u, hu, rfl⟩ := mem_map.1 hx
        exact count_eq_zero.2 (h.not_mem_of_free had hu)
      subst hp
      rw [update_self]
      simpa only [hzr, if_pos] using hle
    · rw [update_of_ne hp]
      rw [if_neg (Ne.symm hp)] at hle
      exact hle.trans (h.refs p)
  live u hu p hp := by
    rw [hin]
    by_cases hpa : p = addr
    · rw [hpa, update_self]
      rfl
    · rw [update_of_ne hpa]
      rw [hthr] at hu
      obtain ⟨v, hv, rfl⟩ := mem_map.1 hu
      split at hp
      · rw [(hg v hv ‹_›).2.2] at hp
        rcases mem_append.1 hp with hp | hp
        · exact h.live v hv p hp
        · exact absurd (mem_singleton.1 hp) hpa
      · exact h.live v hv p hp

theorem createThread {parent : Thread} (hp : parent ∈ s.threads) {child : ℕ} (htid : tid ≠ 0)
    (hchi : s.findThread child = none) :
    Shape (s.createThread parent child tid) where
  ids := by
    rw [State.createThread, map_append, map_singleton]
    refine nodup_append.2 ⟨h.ids, nodup_singleton _, fun i hi j hj => ?_⟩
    obtain ⟨u, hu, rfl⟩ := mem_map.1 hi
    rw [mem_singleton.1 hj]
    simpa using List.find?_eq_none.1 hchi u hu
  tids u hu := by
    rcases mem_append.1 hu with hu | hu
    · exact h.tids u hu
    · rw [mem_singleton.1 hu]
      exact htid
  refs p := by
    have := h.refs p
    rw [State.createThread, refs_append, refs_cons]
    exact Nat.add_le_add this (le_refl _)
  live u hu p hmem := by
    rcases mem_append.1 hu with hu | hu
    · exact h.live u hu p hmem
    · rw [mem_singleton.1 hu] at hmem
      exact h.live parent hp p hmem

section

variable (ht : t ∈ s.threads)
include ht

theorem eq_of_id (hu : u ∈ s.threads) (hid : u.id = t.id) : u = t :=
  inj_on_of_nodup_map h.ids hu ht hid

/-- The thread with a longer chain, as the change of all threads with its number. -/
theorem grown (addr : ℕ) : ∀ u ∈ s.threads, u.id = t.id →
    t.id = u.id ∧ t.tid = u.tid ∧ t.filters ++ [addr] = u.filters ++ [addr] := by
  intro u hu hid
  rw [h.eq_of_id ht hu hid]
  exact ⟨rfl, rfl, rfl⟩

/-- **No thread has a freed filter.** -/
theorem exists_chain : ∃ chain, s.chain t = some chain := by
  have hlv := h.live t ht
  rw [chain]
  generalize t.filters = ps at hlv
  induction ps with
  | nil => exact ⟨[], rfl⟩
  | cons p ps ih =>
    obtain ⟨f, hf⟩ := Option.isSome_iff_exists.1 (hlv p mem_cons_self)
    obtain ⟨fs, hfs⟩ := ih fun q hq => hlv q (mem_cons_of_mem _ hq)
    exact ⟨f :: fs, by simp [hf, hfs]⟩

/-- TSYNC counts the new pointers and not the ones it overwrites. -/
theorem tSyncFilters : Shape (s.tSyncFilters t) where
  ids := by
    rw [State.tSyncFilters, map_map]
    refine (map_congr_left fun u _ => ?_) ▸ h.ids
    rw [comp_apply]
    split <;> rfl
  tids u hu := by
    obtain ⟨v, hv, rfl⟩ := mem_map.1 hu
    have := h.tids v hv
    split <;> exact this
  refs p := by
    have hle := (Nat.le_add_right _ _).trans_eq (refs_tSyncFilters s t p)
    exact hle.trans (Nat.add_le_add_right (h.refs p) _)
  live u hu p hp := by
    obtain ⟨v, hv, rfl⟩ := mem_map.1 hu
    split at hp
    · exact h.live t ht p hp
    · exact h.live v hv p hp

theorem install (had : s.info addr = none) (tsync : Bool) (f : SeccompFilterInfo) :
    Shape (s.install t tsync f addr) := by
  rw [State.install]
  have hgr := h.grown ht addr
  split
  · refine tSyncFilters (h.push had hgr rfl rfl rfl) ?_
    exact mem_map.2 ⟨t, ht, if_pos rfl⟩
  · exact h.push had hgr rfl rfl rfl

theorem trackThread : Shape (s.trackThread t) := by
  refine h.sublist ?_ (fun u hu => ?_) (fun p => ?_) rfl rfl
  · rw [State.trackThread, map_append, map_singleton]
    refine nodup_append.2
      ⟨h.ids.sublist (filter_sublist.map _), nodup_singleton _, fun i hi j hj => ?_⟩
    obtain ⟨u, hu, rfl⟩ := mem_map.1 hi
    rw [mem_singleton.1 hj]
    simpa using (mem_filter.1 hu).2
  · rcases mem_append.1 hu with hu | hu
    · have hu := (mem_filter.1 hu).1
      exact ⟨h.tids u hu, u, hu, rfl⟩
    · rw [mem_singleton.1 hu]
      exact ⟨h.tids t ht, t, ht, rfl⟩
  · rw [State.trackThread, refs_append]
    exact (refs_filter_add h.ids ht p).le

end

end

/-- The loop of `FreeSeccompFilters` takes one off for each pointer. -/
theorem releaseAll_fst (ps : List ℕ) (refCount : ℕ → ℕ) (last : Bool) (p : ℕ) :
    (releaseAll ps refCount last).1 p = refCount p - ps.count p := by
  induction ps generalizing refCount last with
  | nil => rfl
  | cons q ps ih =>
    rw [releaseAll, ih, count_cons]
    by_cases hp : p = q
    · subst hp
      simp only [update_self, beq_self_eq_true, if_pos]
      omega
    · rw [update_of_ne hp]
      simp [Ne.symm hp]

section

variable (h : Shape s) (ht : t ∈ s.threads)
include h ht

theorem exitThread_refs (p : ℕ) :
    Seccomp.refs (s.exitThread t).threads p ≤ (s.exitThread t).refCount p := by
  have hfil := refs_filter_add h.ids ht p
  have hrf := h.refs p
  have hcou := releaseAll_fst t.filters s.refCount false p
  simp only [exitThread]
  omega

/-- The nodes the other threads point to stay. -/
theorem exitThread_info (hu : u ∈ (s.exitThread t).threads) {p : ℕ} (hp : p ∈ u.filters) :
    (s.exitThread t).info p = s.info p := by
  have hpos : 0 < (s.exitThread t).refCount p :=
    (count_pos_iff.2 hp).trans_le ((count_le_refs hu p).trans (h.exitThread_refs ht p))
  simp only [exitThread] at hpos ⊢
  split
  · exact if_neg hpos.ne'
  · rfl

theorem exitThread : Shape (s.exitThread t) where
  ids := h.ids.sublist (filter_sublist.map _)
  tids u hu := h.tids u (mem_filter.1 hu).1
  refs := h.exitThread_refs ht
  live u hu p hp := by
    rw [h.exitThread_info ht hu hp]
    exact h.live u (mem_filter.1 hu).1 p hp

theorem fork (htid : tid ≠ 0) : Shape (s.fork t tid) := by
  refine h.sublist (nodup_singleton _) (fun u hu => ?_) (fun p => ?_) rfl rfl
  · rw [mem_singleton.1 hu]
    exact ⟨htid, t, ht, rfl⟩
  · exact count_le_refs ht p

end

theorem image (is64BitMode : Bool) (id : ℕ) (htid : tid ≠ 0) (granted : ℕ → List (Program × Bool)) :
    Shape (.image is64BitMode id tid granted) where
  ids := nodup_singleton _
  tids u hu := by
    rw [mem_singleton.1 hu]
    exact htid
  refs _ := le_refl 0
  live u hu p hp := by
    rw [mem_singleton.1 hu] at hp
    cases hp

theorem append (h : Shape s) (t : ℕ) (f : SeccompFilterInfo) (had : s.info addr = none) :
    Shape (s.append t f addr) :=
  h.push had (g := fun u => { u with filters := u.filters ++ [addr] })
    (fun _ _ _ => ⟨rfl, rfl, rfl⟩) rfl rfl rfl

theorem modify (h : Shape s) (t : ℕ) {f : Thread → Thread} (hf : ∀ u, (f u).id = u.id ∧
    (f u).tid = u.tid ∧ (f u).filters = u.filters) : Shape (s.modify t f) := by
  refine h.map (g := fun u => if u.id = t then f u else u) (fun u => ?_) rfl rfl rfl
  split
  · exact hf u
  · exact ⟨rfl, rfl, rfl⟩

end Shape

/-! ### What the calls do -/

variable {noNewPrivs argIsNull b : Bool} {prog : Option (List SockFilter)} {reads : ℕ → Io}
  {alloc : ℕ → ℕ} {r : ExecuteFilterResult × List Event}

namespace State

variable {a : Answer}

variable {s s' : State} {t : Thread}

/-- **`SetModeFilter`** refuses, or it installs an accepted program for which there is room. -/
theorem setModeFilter_cases {flags : BitVec 32}
    (h : s.setModeFilter t noNewPrivs flags prog addr = some (s', a)) :
    (s' = s ∧ a ≠ .ok) ∨
      ∃ program : Program, prog = some program.insts ∧ a = .ok ∧ s.info addr = none ∧
        t.filters.length * bpfMultifilterpenalty ≤ bpfMaxInsnsPerPath ∧
        (hasFlag flags flagTsync = true → s.canDoTSync t = 0) ∧
        s' = s.install t (hasFlag flags flagTsync) (.of program (hasFlag flags flagLog)) addr := by
  rw [setModeFilter.eq_def] at h
  iterate 6
    split at h
    · cases h
      exact .inl ⟨rfl, by rintro ⟨⟩⟩
  split at h
  · cases h
    refine .inl ⟨rfl, ?_⟩
    split <;> rintro ⟨⟩
  rename_i htsy
  split at h
  · split at h
    · cases h
    · rename_i hfr
      cases h
      refine .inr ⟨_, rfl, rfl, by simpa using hfr, by omega, fun ht => ?_, rfl⟩
      simpa [ht] using htsy
  · cases h
    exact .inl ⟨rfl, by rintro ⟨⟩⟩

/-- **`SetModeStrict`** refuses, or it reports success whatever `SetModeFilter` answers. -/
theorem setModeStrict_cases {flags : BitVec 32}
    (h : s.setModeStrict t noNewPrivs flags argIsNull addr = some (s', a)) :
    (s' = s ∧ a ≠ .ok) ∨
      (a = .ok ∧ noNewPrivs = true ∧ ∃ r, setModeFilter { s with currentKillSignal := sigkill } t
        noNewPrivs 0 (some s.strictProgram.insts) addr = some r ∧
        s' = r.1.strict t s.strictProgram) := by
  rw [setModeStrict] at h
  split at h
  · cases h
    exact .inl ⟨rfl, nofun⟩
  rename_i hnnp
  iterate 3
    split at h
    · cases h
      exact .inl ⟨rfl, nofun⟩
  obtain ⟨r, hr, heq⟩ := Option.map_eq_some_iff.1 h
  cases heq
  exact .inr ⟨rfl, by simpa using hnnp, r, hr, rfl⟩

/-- **Induction over deserialised filters.** -/
theorem deserializeLoop_induct {P : State → Prop}
    (happ : ∀ s f addr, P s → s.info addr = none → P (s.append i f addr)) {n j : ℕ}
    {file : List Codec.Byte} (hP : P s)
    (h : deserializeLoop reads alloc i n j file s = some (s', b)) : P s' := by
  induction n generalizing j file s with
  | zero =>
    cases h
    exact hP
  | succ n ih =>
    rw [deserializeLoop] at h
    split at h
    · cases h
      exact hP
    · split at h
      · cases h
      · rename_i hfr
        exact ih (happ _ _ _ hP (by simpa using hfr)) h

/-- `DeserializeFilters` comes to its end, or it stops after some filters. -/
theorem deserializeFilters_cases {file : List Codec.Byte}
    (h : s.deserializeFilters i file reads alloc = some (s', b)) :
    (b = false ∧ s' = s) ∨ ∃ n file' mode r, deserializeLoop reads alloc i n 1 file' s = some r ∧
      ((r.2 = false ∧ b = false ∧ s' = r.1) ∨
        (r.2 = true ∧ b = true ∧ s' = r.1.deserialized i mode)) := by
  rw [deserializeFilters] at h
  split at h
  · cases h
    exact .inl ⟨rfl, rfl⟩
  · rename_i header file' _
    obtain ⟨r, hr, heq⟩ := Option.map_eq_some_iff.1 h
    refine .inr ⟨_, file', Codec.leValue ((header.drop 8).take 4), r, hr, ?_⟩
    split at heq
    · rename_i htr
      cases heq
      exact .inr ⟨htr, rfl, rfl⟩
    · rename_i hfal
      cases heq
      exact .inl ⟨Bool.eq_false_iff.2 hfal, Bool.eq_false_iff.2 hfal, rfl⟩

/-- A syscall ends the process or changes the cache of the thread. -/
theorem syscall_cases {call : Call} (h : s.syscall t call = some (s', r)) :
    ∃ c, s.executeFilter t call = some (c, r) ∧ (s' = { s with threads := [] } ∨
      s' = s.modify t.id fun u => { u with seccompCache := c }) := by
  obtain ⟨⟨c, r'⟩, hr, heq⟩ := Option.map_eq_some_iff.1 h
  injection heq with hs hr'
  subst hr'
  refine ⟨c, hr, ?_⟩
  split at hs
  · exact .inl hs.symm
  · exact .inr hs.symm

/-- `execve` fails, or a new image starts, with or without a file to read. -/
theorem execve_cases {q : ExecArgs} (h : s.execve t q = some s') :
    s' = s ∨ ∃ fd, s.serializeFilters t q.memfd q.writes = some fd ∧ q.execs = true ∧
      ((q.file fd = none ∧ s' = image q.is64BitMode t.id q.tid s.granted) ∨
        ∃ file b, q.file fd = some file ∧
          (image q.is64BitMode t.id q.tid s.granted).deserializeFilters t.id file q.reads q.alloc =
            some (s', b)) := by
  rw [execve] at h
  split at h
  · cases h
  · rename_i fd hfd
    split at h
    · cases h
      exact .inl rfl
    · rename_i hexe
      refine .inr ⟨fd, hfd, by simpa using hexe, ?_⟩
      split at h
      · rename_i hfl
        cases h
        exact .inl ⟨hfl, rfl⟩
      · rename_i file hfl
        obtain ⟨⟨r, b⟩, hr, rfl⟩ := Option.map_eq_some_iff.1 h
        exact .inr ⟨file, b, hfl, hr⟩

/-- What a call of the machine can lead to. -/
inductive Effect (s : State) : Op → Answer → State → Prop
  | syscall {t : Thread} (ht : t ∈ s.threads) {call : Call} {r : ExecuteFilterResult × List Event}
      {s' : State} (h : s.syscall t call = some (s', r)) :
      Effect s (.syscall t.id call) (.verdict r.1 r.2) s'
  | setModeFilter {t : Thread} (ht : t ∈ s.threads) {noNewPrivs : Bool} {flags : BitVec 32}
      {prog : Option (List SockFilter)} {addr : ℕ} {a : Answer} {s' : State}
      (h : s.setModeFilter t noNewPrivs flags prog addr = some (s', a)) :
      Effect s (.setModeFilter t.id noNewPrivs flags prog addr) a s'
  | setModeStrict {t : Thread} (ht : t ∈ s.threads) {noNewPrivs : Bool} {flags : BitVec 32}
      {argIsNull : Bool} {addr : ℕ} {a : Answer} {s' : State}
      (h : s.setModeStrict t noNewPrivs flags argIsNull addr = some (s', a)) :
      Effect s (.setModeStrict t.id noNewPrivs flags argIsNull addr) a s'
  | createThread {t : Thread} (ht : t ∈ s.threads) {child tid : ℕ} (htid : tid ≠ 0)
      (hchild : s.findThread child = none) :
      Effect s (.createThread t.id child tid) .ok (s.createThread t child tid)
  | trackThread {t : Thread} (ht : t ∈ s.threads) :
      Effect s (.trackThread t.id) .ok (s.trackThread t)
  | exitThread {t : Thread} (ht : t ∈ s.threads) : Effect s (.exitThread t.id) .ok (s.exitThread t)
  | fork {t : Thread} (ht : t ∈ s.threads) {tid : ℕ} (htid : tid ≠ 0) :
      Effect s (.fork t.id tid) .ok (s.fork t tid)
  | execve {t : Thread} (ht : t ∈ s.threads) {q : ExecArgs} (htid : q.tid ≠ 0) {s' : State}
      (h : s.execve t q = some s') : Effect s (.execve t.id q) .ok s'
  | deserialize {t : Thread} (ht : t ∈ s.threads) {file : List Codec.Byte} {reads : ℕ → Io}
      {alloc : ℕ → ℕ} {s' : State} {b : Bool}
      (h : s.deserializeFilters t.id file reads alloc = some (s', b)) :
      Effect s (.deserialize t.id file reads alloc) .ok s'

theorem effect_of_step {op : Op} (h : s.step op = some (s', a)) : Effect s op a s' := by
  cases op with
  | syscall i call =>
    obtain ⟨t, hfn, hrs⟩ := Option.bind_eq_some_iff.1 h
    obtain ⟨ht, rfl⟩ := mem_of_findThread hfn
    obtain ⟨r, hr, heq⟩ := Option.map_eq_some_iff.1 hrs
    cases heq
    exact .syscall ht hr
  | setModeFilter i noNewPrivs flags prog addr =>
    obtain ⟨t, hfn, hrs⟩ := Option.bind_eq_some_iff.1 h
    obtain ⟨ht, rfl⟩ := mem_of_findThread hfn
    exact .setModeFilter ht hrs
  | setModeStrict i noNewPrivs flags argIsNull addr =>
    obtain ⟨t, hfn, hrs⟩ := Option.bind_eq_some_iff.1 h
    obtain ⟨ht, rfl⟩ := mem_of_findThread hfn
    exact .setModeStrict ht hrs
  | createThread parent child tid =>
    rw [step] at h
    split at h
    · cases h
    · rename_i hnew
      obtain ⟨htid, hchi⟩ := not_or.1 hnew
      obtain ⟨t, hfn, heq⟩ := Option.map_eq_some_iff.1 h
      obtain ⟨ht, rfl⟩ := mem_of_findThread hfn
      cases heq
      exact .createThread ht htid (by simpa using hchi)
  | trackThread i =>
    obtain ⟨t, hfn, heq⟩ := Option.map_eq_some_iff.1 h
    obtain ⟨ht, rfl⟩ := mem_of_findThread hfn
    cases heq
    exact .trackThread ht
  | exitThread i =>
    obtain ⟨t, hfn, heq⟩ := Option.map_eq_some_iff.1 h
    obtain ⟨ht, rfl⟩ := mem_of_findThread hfn
    cases heq
    exact .exitThread ht
  | fork i tid =>
    rw [step] at h
    split at h
    · cases h
    · rename_i htid
      obtain ⟨t, hfn, heq⟩ := Option.map_eq_some_iff.1 h
      obtain ⟨ht, rfl⟩ := mem_of_findThread hfn
      cases heq
      exact .fork ht htid
  | execve i q =>
    rw [step] at h
    split at h
    · cases h
    · rename_i htid
      obtain ⟨t, hfn, hrs⟩ := Option.bind_eq_some_iff.1 h
      obtain ⟨ht, rfl⟩ := mem_of_findThread hfn
      obtain ⟨s₁, hs₁, heq⟩ := Option.map_eq_some_iff.1 hrs
      cases heq
      exact .execve ht htid hs₁
  | deserialize i file reads alloc =>
    obtain ⟨t, hfn, hrs⟩ := Option.bind_eq_some_iff.1 h
    obtain ⟨ht, rfl⟩ := mem_of_findThread hfn
    obtain ⟨r, hr, heq⟩ := Option.map_eq_some_iff.1 hrs
    cases heq
    exact .deserialize ht hr

end State

/-! ### Every call keeps the invariant -/

namespace Shape

variable {flags : BitVec 32}

variable {s s' : State} {t : Thread} {a : Answer}

section

variable (h : Shape s)
include h

theorem setModeFilter (ht : t ∈ s.threads)
    (hs : s.setModeFilter t noNewPrivs flags prog addr = some (s', a)) : Shape s' := by
  rcases setModeFilter_cases hs with ⟨rfl, -⟩ | ⟨program, -, -, hfr, -, -, rfl⟩
  · exact h
  · exact h.install ht hfr _ _

theorem setModeStrict (ht : t ∈ s.threads)
    (hs : s.setModeStrict t noNewPrivs flags argIsNull addr = some (s', a)) : Shape s' := by
  rcases setModeStrict_cases hs with ⟨rfl, -⟩ | ⟨-, -, r, hr, rfl⟩
  · exact h
  · have hinn : Shape { s with currentKillSignal := sigkill } := ⟨h.ids, h.tids, h.refs, h.live⟩
    have hmod := (hinn.setModeFilter ht hr).modify t.id
      (f := fun u => { u with seccompMode := modeStrict }) fun _ => ⟨rfl, rfl, rfl⟩
    exact ⟨hmod.ids, hmod.tids, hmod.refs, hmod.live⟩

theorem deserializeFilters {file : List Codec.Byte}
    (hs : s.deserializeFilters i file reads alloc = some (s', b)) : Shape s' := by
  rcases deserializeFilters_cases hs with ⟨-, rfl⟩ | ⟨n, file', mode, r, hr, hend⟩
  · exact h
  · have hlp : Shape r.1 :=
      deserializeLoop_induct (fun _ f _ hP hfr => hP.append i f hfr) h hr
    rcases hend with ⟨-, -, rfl⟩ | ⟨-, -, rfl⟩
    · exact hlp
    · have hmod := hlp.modify i (f := fun u => { u with seccompMode := mode })
        fun _ => ⟨rfl, rfl, rfl⟩
      exact ⟨hmod.ids, hmod.tids, hmod.refs, hmod.live⟩

theorem execve {q : ExecArgs} (htid : q.tid ≠ 0) (hs : s.execve t q = some s') : Shape s' := by
  have hima := image q.is64BitMode t.id htid s.granted
  rcases execve_cases hs with rfl | ⟨fd, -, -, ⟨-, rfl⟩ | ⟨file, b, -, hr⟩⟩
  · exact h
  · exact hima
  · exact hima.deserializeFilters hr

theorem syscall {call : Call} (hs : s.syscall t call = some (s', r)) : Shape s' := by
  obtain ⟨c, -, rfl | rfl⟩ := syscall_cases hs
  · exact ⟨nodup_nil, nofun, fun _ => Nat.zero_le _, nofun⟩
  · exact h.modify _ fun _ => ⟨rfl, rfl, rfl⟩

/-- **Every call keeps the pointers valid.** -/
theorem step {op : Op} (hs : s.step op = some (s', a)) : Shape s' := by
  cases effect_of_step hs with
  | syscall ht hr => exact h.syscall hr
  | setModeFilter ht hr => exact h.setModeFilter ht hr
  | setModeStrict ht hr => exact h.setModeStrict ht hr
  | createThread ht htid hchi => exact h.createThread ht htid hchi
  | trackThread ht => exact h.trackThread ht
  | exitThread ht => exact h.exitThread ht
  | fork ht htid => exact h.fork ht htid
  | execve ht htid hr => exact h.execve htid hr
  | deserialize ht hr => exact h.deserializeFilters hr

end

end Shape

end FastPPC.Seccomp
