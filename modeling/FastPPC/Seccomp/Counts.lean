import FastPPC.Seccomp.Restrictions

/-!
# Reference counts and the instruction budget

A node of the filter list is shared by the chains that point to it, and its `RefCount` decides when
it is erased.  `Exact` says that the counts are the numbers of pointers, that the list holds the
nodes with a pointer to them and no others, and that `TotalFilterInstructions`, from which
`SetModeFilter` takes its budget, is what the caller's own chain amounts to.

TSYNC overwrites chains without giving back what they held, and the total is one number for all
threads that never shrinks.  So the calls keep the counts exact as long as a thread that installs a
filter is alone, or installs it by TSYNC for threads that have none (`KeepsCounts`).

* `install_exact_iff` : an installation in an exact state;
* `filter_counts_exact` : in a run of such calls every state is exact, and a further call keeps it
  so if and only if it is one of them;
* `filter_counts_drift` : a count that is too high for ever, and a budget used up by others.
-/

namespace FastPPC.Seccomp

open Function State List

/-! ### What is counted -/

/-- The instructions of the filters in the chain of a thread. -/
def State.chainInstructions (s : State) (t : Thread) : ℕ :=
  (t.filters.map fun p => ((s.info p).map fun f => f.program.insts.length).getD 0).sum

/-- The counts are the numbers of pointers, and a node is in the list while there are any. -/
structure Counted (s : State) : Prop where
  counts : ∀ p, (s.info p).isSome = true → s.refCount p = refs s.threads p
  erased : ∀ p, (s.info p).isSome = true ↔ 0 < refs s.threads p

/-- The counts are right, and the budget of each thread is that of its own chain. -/
structure Exact (s : State) : Prop extends Counted s where
  budget : ∀ t ∈ s.threads, s.totalFilterInstructions = s.chainInstructions t

/-- The calls that install, share and drop filters. -/
def Op.sharesFilters : Op → Bool
  | .setModeFilter .. | .setModeStrict .. | .createThread .. | .trackThread .. | .exitThread ..
  | .deserialize .. => true
  | .syscall .. | .fork .. | .execve .. => false

def Op.thread : Op → ℕ
  | .syscall t _ | .setModeFilter t .. | .setModeStrict t .. | .createThread t .. | .trackThread t
  | .exitThread t | .fork t _ | .execve t _ | .deserialize t .. => t

def Op.tsync : Op → Bool
  | .setModeFilter _ _ flags _ _ => hasFlag flags flagTsync
  | _ => false

/-- The call adds to the list. -/
def State.Installs (s : State) (op : Op) : Prop :=
  ∃ s' a, s.step op = some (s', a) ∧ s.totalFilterInstructions < s'.totalFilterInstructions

/-- Every other thread gets the filter with the caller, and has none to lose by that. -/
def State.Alone (s : State) (op : Op) : Prop :=
  ∀ u ∈ s.threads, u.id = op.thread ∨ op.tsync = true ∧ u.tracked = true ∧ u.filters = []

/-- A call that adds filters is made where the counts can stay right. -/
def KeepsCounts (s : State) (op : Op) : Prop :=
  op.sharesFilters = true ∧ (s.Installs op → s.Alone op)

/-! ### Pointers -/

variable {threads : List Thread} {g : Thread → Thread} {addr : ℕ} {f : SeccompFilterInfo}

theorem sum_ite_id_eq (h : (threads.map Thread.id).Nodup) {t : Thread} (ht : t ∈ threads) (d : ℕ) :
    (threads.map fun u => if u.id = t.id then d else 0).sum = d := by
  refine le_antisymm (sum_ite_id_le h t.id d) ?_
  refine single_le_sum (fun _ _ => Nat.zero_le _) d ?_
  exact mem_map.2 ⟨t, ht, if_pos rfl⟩

theorem refs_pos_iff {p : ℕ} : 0 < refs threads p ↔ ∃ u ∈ threads, p ∈ u.filters := by
  rw [refs, List.sum_pos_iff_exists_pos_nat]
  constructor
  · rintro ⟨n, hn, hpos⟩
    obtain ⟨u, hu, rfl⟩ := mem_map.1 hn
    exact ⟨u, hu, count_pos_iff.1 hpos⟩
  · rintro ⟨u, hu, hp⟩
    exact ⟨_, mem_map_of_mem hu, count_pos_iff.2 hp⟩

theorem State.chainInstructions_congr {s s' : State} {t t' : Thread}
    (hfil : t'.filters = t.filters) (hin : ∀ p ∈ t.filters, s'.info p = s.info p) :
    s'.chainInstructions t' = s.chainInstructions t := by
  rw [chainInstructions, chainInstructions, hfil]
  congr 1
  exact map_congr_left fun p hp => by rw [hin p hp]

theorem State.chainInstructions_append {s s' : State} {t t' : Thread}
    (hfil : t'.filters = t.filters ++ [addr]) (hin : ∀ p ∈ t.filters, s'.info p = s.info p)
    (hf : s'.info addr = some f) :
    s'.chainInstructions t' = s.chainInstructions t + f.program.insts.length := by
  rw [← chainInstructions_congr (rfl : t.filters = t.filters) hin]
  rw [chainInstructions, chainInstructions, hfil, map_append, sum_append]
  simp [hf]

/-! ### Calls that keep the counts -/

variable {op : Op} {a : Answer} {noNewPrivs : Bool}

section

variable {s s' : State} {t : Thread}

theorem exact_map_iff (hg : ∀ u, (g u).filters = u.filters)
    (hthr : s'.threads = s.threads.map g) (hin : s'.info = s.info)
    (href : s'.refCount = s.refCount)
    (htot : s'.totalFilterInstructions = s.totalFilterInstructions) : Exact s' ↔ Exact s := by
  have hrf : ∀ p, refs s'.threads p = refs s.threads p := by
    intro p
    rw [hthr, refs_map_eq hg]
  have hcha : ∀ u, s'.chainInstructions (g u) = s.chainInstructions u :=
    fun u => chainInstructions_congr (hg u) fun p _ => by rw [hin]
  constructor
  · refine fun h => ⟨⟨fun p hp => ?_, fun p => ?_⟩, fun u hu => ?_⟩
    · rw [← href, ← hrf, h.counts p (by rwa [hin])]
    · rw [← hin, ← hrf, h.erased p]
    · rw [← htot, ← hcha]
      exact h.budget (g u) (by rw [hthr]; exact mem_map_of_mem hu)
  · refine fun h => ⟨⟨fun p hp => ?_, fun p => ?_⟩, fun u hu => ?_⟩
    · rw [href, hrf, h.counts p (by rwa [← hin])]
    · rw [hin, hrf, h.erased p]
    · rw [hthr] at hu
      obtain ⟨v, hv, rfl⟩ := mem_map.1 hu
      rw [htot, hcha, h.budget v hv]

theorem Counted.push (h : Counted s) (hsha : Shape s) (ht : t ∈ s.threads)
    (had : s.info addr = none)
    (hg : ∀ u ∈ s.threads, u.id = t.id → (g u).filters = u.filters ++ [addr])
    (hthr : s'.threads = s.threads.map fun u => if u.id = t.id then g u else u)
    (hin : s'.info = update s.info addr (some f))
    (href : s'.refCount = update s.refCount addr 1) : Counted s' := by
  have hrf : ∀ p, refs s'.threads p = refs s.threads p + if addr = p then 1 else 0 := by
    intro p
    rw [hthr, refs_push hg, sum_ite_id_eq hsha.ids ht]
  have hnew : refs s.threads addr = 0 := by
    have := (h.erased addr).2.mt
    rw [had] at this
    simpa using this
  constructor
  · intro p hp
    rw [href, hrf]
    by_cases hpa : p = addr
    · rw [hpa, update_self, hnew, if_pos rfl]
    · rw [hin, update_of_ne hpa] at hp
      rw [update_of_ne hpa, if_neg (Ne.symm hpa), h.counts p hp, Nat.add_zero]
  · intro p
    rw [hin, hrf]
    by_cases hpa : p = addr
    · rw [hpa, update_self, if_pos rfl]
      simp
    · rw [update_of_ne hpa, if_neg (Ne.symm hpa), h.erased p, Nat.add_zero]

theorem Counted.createThread (h : Counted s) (ht : t ∈ s.threads) (child tid : ℕ) :
    Counted (s.createThread t child tid) := by
  have hrf : ∀ p, refs (s.createThread t child tid).threads p =
      refs s.threads p + t.filters.count p := by
    intro p
    rw [State.createThread, refs_append, refs_cons]
    rfl
  constructor
  · intro p hp
    rw [hrf, ← h.counts p hp]
    rfl
  · intro p
    have hle := count_le_refs ht p
    rw [hrf]
    refine (h.erased p).trans ?_
    omega

theorem Exact.createThread (h : Exact s) (ht : t ∈ s.threads) (child tid : ℕ) :
    Exact (s.createThread t child tid) where
  toCounted := h.toCounted.createThread ht child tid
  budget u hu := by
    rcases mem_append.1 hu with hu | hu
    · exact h.budget u hu
    · rw [mem_singleton.1 hu]
      exact h.budget t ht

theorem Exact.trackThread (h : Exact s) (hsha : Shape s) (ht : t ∈ s.threads) :
    Exact (s.trackThread t) := by
  have hrf : ∀ p, refs (s.trackThread t).threads p = refs s.threads p := by
    intro p
    rw [State.trackThread, refs_append, ← refs_filter_add hsha.ids ht p, refs_cons]
    rfl
  refine ⟨⟨fun p hp => ?_, fun p => ?_⟩, fun u hu => ?_⟩
  · rw [hrf]
    exact h.counts p hp
  · rw [hrf]
    exact h.erased p
  · rcases mem_append.1 hu with hu | hu
    · exact h.budget u (mem_filter.1 hu).1
    · rw [mem_singleton.1 hu]
      exact h.budget t ht

/-! ### The end of a thread -/

theorem releaseAll_true (ps : List ℕ) (refCount : ℕ → ℕ) :
    (releaseAll ps refCount true).2 = true := by
  induction ps generalizing refCount with
  | nil => rfl
  | cons p ps ih => exact ih _

/-- A count that comes to zero is noticed. -/
theorem releaseAll_last {ps : List ℕ} {p : ℕ} (hp : p ∈ ps) (refCount : ℕ → ℕ)
    (hcou : refCount p = ps.count p) (last : Bool) : (releaseAll ps refCount last).2 = true := by
  induction ps generalizing refCount last with
  | nil => cases hp
  | cons q ps ih =>
    rw [releaseAll]
    by_cases hq : q = p
    · subst hq
      rw [count_cons_self] at hcou
      by_cases hls : refCount q = 1
      · rw [hls]
        simp only [beq_self_eq_true, Bool.or_true]
        exact releaseAll_true _ _
      · refine ih (count_pos_iff.1 (by omega)) _ ?_ _
        rw [update_self]
        omega
    · refine ih ((mem_cons.1 hp).resolve_left (Ne.symm hq)) _ ?_ _
      rw [update_of_ne (Ne.symm hq), hcou, count_cons_of_ne hq]

/-- **The end of a thread** gives back what its chain held, and erases what nobody else holds. -/
theorem Counted.exitThread (h : Counted s) (hsha : Shape s) (ht : t ∈ s.threads) :
    Counted (s.exitThread t) := by
  have hcnt := Shape.releaseAll_fst t.filters s.refCount false
  have hrf : ∀ p, refs (s.exitThread t).threads p + t.filters.count p = refs s.threads p :=
    fun p => refs_filter_add hsha.ids ht p
  have hnew : ∀ p, (s.info p).isSome = true →
      (s.exitThread t).refCount p = refs (s.exitThread t).threads p := by
    intro p hp
    have h1 := h.counts p hp
    have h2 := hrf p
    have h3 := hcnt p
    change (releaseAll t.filters s.refCount false).1 p = _
    omega
  have hsub : ∀ p, ((s.exitThread t).info p).isSome = true → (s.info p).isSome = true := by
    intro p hp
    simp only [State.exitThread] at hp
    split at hp
    · simp only at hp
      split at hp
      · cases hp
      · exact hp
    · exact hp
  refine ⟨fun p hp => hnew p (hsub p hp), fun p => ⟨fun hp => ?_, fun hp => ?_⟩⟩
  · have hold := hsub p hp
    have hcou := h.counts p hold
    rw [← hnew p hold]
    by_contra hzr
    -- nobody else has it, so the thread has it, and its last pointer is the last one
    have hmem : p ∈ t.filters := by
      have h1 := hrf p
      have h2 := (h.erased p).1 hold
      have h3 := hnew p hold
      exact count_pos_iff.1 (by omega)
    have hls := releaseAll_last hmem s.refCount (by
      have h1 := hrf p
      have h3 := hnew p hold
      omega) false
    have hgn : (s.exitThread t).info p = none := by
      have hz : (releaseAll t.filters s.refCount false).1 p = 0 := Nat.eq_zero_of_not_pos hzr
      simp only [State.exitThread, hls, hz, if_true]
    rw [hgn] at hp
    cases hp
  · have hold : (s.info p).isSome = true := (h.erased p).2 (by have := hrf p; omega)
    obtain ⟨u, hu, hpu⟩ := refs_pos_iff.1 hp
    rw [hsha.exitThread_info ht hu hpu]
    exact hold

theorem Exact.exitThread (h : Exact s) (hsha : Shape s) (ht : t ∈ s.threads) :
    Exact (s.exitThread t) where
  toCounted := h.toCounted.exitThread hsha ht
  budget u hu := by
    have hold := h.budget u (mem_filter.1 hu).1
    exact hold.trans (chainInstructions_congr rfl fun p hp => hsha.exitThread_info ht hu hp).symm

/-! ### Installations -/

/-- TSYNC keeps the counts if no chain it overwrites holds anything. -/
theorem Counted.tSyncFilters (h : Counted s) (ht : t ∈ s.threads)
    (hemp : ∀ u ∈ s.threads, u.Synced t.id = true → u.filters = []) :
    Counted (s.tSyncFilters t) := by
  have hrf : ∀ p, refs (s.tSyncFilters t).threads p =
      refs s.threads p + s.threads.countP (Thread.Synced t.id) * t.filters.count p := by
    intro p
    have hzr : (s.threads.map fun u => if u.Synced t.id then u.filters.count p else 0).sum = 0 := by
      refine sum_eq_zero fun n hn => ?_
      obtain ⟨u, hu, rfl⟩ := mem_map.1 hn
      split
      · rw [hemp u hu ‹_›]
        rfl
      · rfl
    have hsum := refs_tSyncFilters s t p
    omega
  constructor
  · intro p hp
    rw [hrf, ← h.counts p hp]
    rfl
  · intro p
    rw [hrf]
    refine (h.erased p).trans ⟨fun hpos => by omega, fun hpos => ?_⟩
    by_contra hzr
    have hnn : t.filters.count p = 0 := by have := count_le_refs ht p; omega
    rw [hnn] at hpos
    omega

theorem Counted.filters_eq_nil (h : Counted s) (hsha : Shape s) (h' : Counted (s.tSyncFilters t))
    {u : Thread} (hu : u ∈ s.threads) (hsy : u.Synced t.id = true) : u.filters = [] := by
  refine eq_nil_iff_forall_not_mem.2 fun p hp => ?_
  have hlv := hsha.live u hu p hp
  have hcou : s.refCount p + s.threads.countP (Thread.Synced t.id) * t.filters.count p =
      refs (s.tSyncFilters t).threads p := h'.counts p hlv
  rw [h.counts p hlv, ← refs_tSyncFilters] at hcou
  have hpos : 0 < (s.threads.map fun u => if u.Synced t.id then u.filters.count p else 0).sum := by
    refine lt_of_lt_of_le (count_pos_iff.2 hp) ?_
    refine single_le_sum (fun _ _ => Nat.zero_le _) _ ?_
    exact mem_map.2 ⟨u, hu, if_pos hsy⟩
  omega

theorem total_install (tsync : Bool) : (s.install t tsync f addr).totalFilterInstructions =
      s.totalFilterInstructions + f.program.insts.length := by
  cases tsync <;> rfl

/-- The chains after an installation: the new one, or one that was passed over. -/
theorem filters_install {tsync : Bool} {v : Thread} (hv : v ∈ (s.install t tsync f addr).threads) :
    v.filters = t.filters ++ [addr] ∨
      ∃ u ∈ s.threads, u.id ≠ t.id ∧ ¬(tsync = true ∧ u.tracked = true) ∧
        v.filters = u.filters := by
  cases tsync with
  | false =>
    obtain ⟨u, hu, rfl⟩ := mem_map.1 hv
    by_cases hid : u.id = t.id
    · exact .inl (by rw [if_pos hid])
    · exact .inr ⟨u, hu, hid, fun h => Bool.false_ne_true h.1, by rw [if_neg hid]⟩
  | true =>
    obtain ⟨w, hw, rfl⟩ := mem_map.1 hv
    by_cases hsy : w.Synced t.id = true
    · exact .inl (by rw [if_pos hsy])
    · rw [if_neg hsy]
      obtain ⟨u, hu, rfl⟩ := mem_map.1 hw
      by_cases hid : u.id = t.id
      · exact .inl (by rw [if_pos hid])
      · rw [if_neg hid] at hsy ⊢
        refine .inr ⟨u, hu, hid, fun h => hsy ?_, rfl⟩
        simp [Thread.Synced, h.2, hid]

theorem mem_install {tsync : Bool} {u : Thread} (hu : u ∈ s.threads) (hid : u.id ≠ t.id)
    (hsy : ¬(tsync = true ∧ u.tracked = true)) : u ∈ (s.install t tsync f addr).threads := by
  cases tsync with
  | false => exact mem_map.2 ⟨u, hu, if_neg hid⟩
  | true =>
    refine mem_map.2 ⟨u, mem_map.2 ⟨u, hu, if_neg hid⟩, if_neg ?_⟩
    simp only [true_and] at hsy
    simp [Thread.Synced, hsy]

/-- TSYNC comes after the caller's own chain has grown. -/
theorem install_tsync (h : Counted s) (hsha : Shape s) (ht : t ∈ s.threads)
    (had : s.info addr = none) (f : SeccompFilterInfo) :
    ∃ (s₁ : State) (t₁ : Thread), s.install t true f addr = s₁.tSyncFilters t₁ ∧
      t₁ ∈ s₁.threads ∧ t₁.id = t.id ∧
      (∀ u, u ∈ s₁.threads ∧ u.id ≠ t.id ↔ u ∈ s.threads ∧ u.id ≠ t.id) ∧
      Counted s₁ ∧ Shape s₁ := by
  have hgr := hsha.grown ht addr
  refine ⟨_, _, rfl, mem_map.2 ⟨t, ht, if_pos rfl⟩, rfl, fun u => ⟨?_, ?_⟩,
    h.push hsha ht had (fun u hu hid => (hgr u hu hid).2.2) rfl rfl rfl,
    hsha.push had hgr rfl rfl rfl⟩
  · rintro ⟨hu, hid⟩
    obtain ⟨v, hv, rfl⟩ := mem_map.1 hu
    split at hid
    · exact absurd rfl hid
    · rw [if_neg ‹_›]
      exact ⟨hv, hid⟩
  · rintro ⟨hu, hid⟩
    exact ⟨mem_map.2 ⟨u, hu, if_neg hid⟩, hid⟩

/-- **An installation** keeps the counts and the budget right if and only if every other thread gets
the filter too and had none before. -/
theorem install_exact_iff (h : Exact s) (hsha : Shape s) (ht : t ∈ s.threads)
    (had : s.info addr = none) (tsync : Bool) (f : SeccompFilterInfo) :
    Exact (s.install t tsync f addr) ↔
      ∀ u ∈ s.threads, u.id = t.id ∨ tsync = true ∧ u.tracked = true ∧ u.filters = [] := by
  have hin : ∀ u ∈ s.threads, ∀ p ∈ u.filters, (s.install t tsync f addr).info p = s.info p := by
    intro u hu p hp
    rw [info_install, hsha.update_info had hu hp]
  have hpos := f.program.length_pos
  constructor
  · intro hexa u hu
    by_cases hid : u.id = t.id
    · exact .inl hid
    refine .inr ?_
    by_cases hsy : tsync = true ∧ u.tracked = true
    · obtain ⟨rfl, htra⟩ := hsy
      obtain ⟨s₁, t₁, heq, -, hid₁, hmem, hcou, hshape₁⟩ :=
        install_tsync h.toCounted hsha ht had f
      rw [heq] at hexa
      refine ⟨rfl, htra, hcou.filters_eq_nil hshape₁ hexa.toCounted ((hmem u).2 ⟨hu, hid⟩).1 ?_⟩
      simp [Thread.Synced, htra, hid₁, hid]
    · -- it is passed over, and the total has grown
      have hbud := hexa.budget u (mem_install hu hid hsy)
      rw [total_install, chainInstructions_congr rfl (hin u hu), ← h.budget u hu] at hbud
      omega
  · intro hall
    refine ⟨?_, fun v hv => ?_⟩
    · cases tsync with
      | false =>
        refine h.toCounted.push hsha ht had (fun u hu hid => ?_) rfl rfl rfl
        rw [hsha.eq_of_id ht hu hid]
      | true =>
        obtain ⟨s₁, t₁, heq, ht₁, hid₁, hmem, hcou, -⟩ :=
          install_tsync h.toCounted hsha ht had f
        rw [heq]
        refine hcou.tSyncFilters ht₁ fun u hu hsy => ?_
        have hid : u.id ≠ t.id := by
          rw [← hid₁]
          rintro heq
          simp [Thread.Synced, heq] at hsy
        exact ((hall u ((hmem u).1 ⟨hu, hid⟩).1).resolve_left hid).2.2
    · rw [total_install]
      rcases filters_install hv with hfil | ⟨u, hu, hid, hsy, -⟩
      · rw [chainInstructions_append hfil (hin t ht)
          (by rw [info_install, update_self]), h.budget t ht]
      · obtain ⟨h1, h2, -⟩ := (hall u hu).resolve_left hid
        exact absurd ⟨h1, h2⟩ hsy

/-! ### The calls -/

variable {flags : BitVec 32}

/-- A call that leaves the total alone, and the counts right. -/
theorem keepsCounts_of_total (hop : op.sharesFilters = true) (hs : s.step op = some (s', a))
    (htot : s'.totalFilterInstructions = s.totalFilterInstructions) : KeepsCounts s op := by
  refine ⟨hop, ?_⟩
  rintro ⟨s'', a', hs', hlt⟩
  cases hs.symm.trans hs'
  omega

theorem keepsCounts_iff_of_lt (hop : op.sharesFilters = true) (hs : s.step op = some (s', a))
    (hlt : s.totalFilterInstructions < s'.totalFilterInstructions) :
    KeepsCounts s op ↔ s.Alone op :=
  ⟨fun h => h.2 ⟨s', a, hs, hlt⟩, fun h => ⟨hop, fun _ => h⟩⟩

/-- What the filters of a file add to a state. -/
structure Loaded (i : ℕ) (s₀ s : State) : Prop where
  shape : Shape s
  le : s₀.totalFilterInstructions ≤ s.totalFilterInstructions
  /-- Nothing was added. -/
  same : s.totalFilterInstructions = s₀.totalFilterInstructions → Exact s
  /-- There is no other thread. -/
  only : (∀ u ∈ s₀.threads, u.id = i) →
    Exact s ∧ (∃ t ∈ s.threads, t.id = i) ∧ ∀ u ∈ s.threads, u.id = i
  /-- There is another thread. -/
  other : ∀ u ∈ s₀.threads, u.id ≠ i →
    u ∈ s.threads ∧ s.chainInstructions u = s₀.chainInstructions u

/-- One filter of the file. -/
theorem Loaded.append {i : ℕ} {s₀ : State} (h : Loaded i s₀ s) (f : SeccompFilterInfo)
    (had : s.info addr = none) : Loaded i s₀ (s.append i f addr) := by
  have hpos := f.program.length_pos
  have htot : (s.append i f addr).totalFilterInstructions =
      s.totalFilterInstructions + f.program.insts.length := rfl
  have hin : ∀ u ∈ s.threads, ∀ p ∈ u.filters, (s.append i f addr).info p = s.info p :=
    fun u hu p hp => h.shape.update_info had hu hp
  refine ⟨h.shape.append i f had, by have := h.le; omega, fun heq => ?_, fun hall => ?_,
    fun u hu hid => ?_⟩
  · have := h.le
    omega
  · obtain ⟨hexa, ⟨t, ht, hti⟩, hids⟩ := h.only hall
    subst hti
    refine ⟨⟨hexa.toCounted.push h.shape ht had (g := fun u =>
      { u with filters := u.filters ++ [addr] }) (fun _ _ _ => rfl) rfl rfl rfl, fun v hv => ?_⟩,
      ⟨_, mem_map_of_mem ht, by rw [if_pos rfl]⟩, fun v hv => ?_⟩
    · obtain ⟨u, hu, rfl⟩ := mem_map.1 hv
      rw [if_pos (hids u hu), htot, hexa.budget u hu]
      exact (chainInstructions_append rfl (hin u hu) (update_self ..)).symm
    · obtain ⟨u, hu, rfl⟩ := mem_map.1 hv
      rw [if_pos (hids u hu)]
      exact hids u hu
  · obtain ⟨hmem, hcha⟩ := h.other u hu hid
    refine ⟨mem_map.2 ⟨u, hmem, if_neg hid⟩, ?_⟩
    rw [chainInstructions_congr rfl (hin u hmem), hcha]

/-- **A file of filters**, read before the image has a second thread. -/
theorem Loaded.exact_iff {i : ℕ} {s₀ : State} (h : Loaded i s₀ s) (h₀ : Exact s₀) :
    Exact s ↔ (s₀.totalFilterInstructions < s.totalFilterInstructions →
      ∀ u ∈ s₀.threads, u.id = i) := by
  constructor
  · intro hexa hlt u hu
    by_contra hid
    obtain ⟨hmem, hcha⟩ := h.other u hu hid
    have := hexa.budget u hmem
    rw [hcha, ← h₀.budget u hu] at this
    omega
  · intro hall
    rcases Nat.lt_or_ge s₀.totalFilterInstructions s.totalFilterInstructions with hlt | hge
    · exact (h.only (hall hlt)).1
    · exact h.same (le_antisymm hge h.le)

section

variable (h : Exact s) (hsha : Shape s) (ht : t ∈ s.threads)
include h hsha ht

theorem loaded_of_deserializeLoop {reads : ℕ → Io} {alloc : ℕ → ℕ} {n j : ℕ}
    {file : List Codec.Byte} {b : Bool}
    (hs : deserializeLoop reads alloc t.id n j file s = some (s', b)) : Loaded t.id s s' := by
  refine deserializeLoop_induct (P := Loaded t.id s) (fun s₁ f addr hP had => hP.append f had) ?_ hs
  exact ⟨hsha, le_rfl, fun _ => h, fun hall => ⟨h, ⟨t, ht, rfl⟩, hall⟩, fun u hu _ => ⟨hu, rfl⟩⟩

theorem setModeFilter_exact_iff {prog : Option (List SockFilter)}
    (hs : s.setModeFilter t noNewPrivs flags prog addr = some (s', a)) :
    (s'.totalFilterInstructions = s.totalFilterInstructions ∧ Exact s') ∨
      (s.totalFilterInstructions < s'.totalFilterInstructions ∧
        (Exact s' ↔ ∀ u ∈ s.threads, u.id = t.id ∨
          hasFlag flags flagTsync = true ∧ u.tracked = true ∧ u.filters = [])) := by
  rcases setModeFilter_cases hs with ⟨rfl, -⟩ | ⟨program, -, -, hfr, -, -, rfl⟩
  · exact .inl ⟨rfl, h⟩
  · refine .inr ⟨?_, install_exact_iff h hsha ht hfr _ _⟩
    have := program.length_pos
    rw [total_install]
    exact Nat.lt_add_of_pos_right this

theorem setModeStrict_exact_iff {argIsNull : Bool}
    (hs : s.setModeStrict t noNewPrivs flags argIsNull addr = some (s', a)) :
    (s'.totalFilterInstructions = s.totalFilterInstructions ∧ Exact s') ∨
      (s.totalFilterInstructions < s'.totalFilterInstructions ∧
        (Exact s' ↔ ∀ u ∈ s.threads, u.id = t.id)) := by
  rcases setModeStrict_cases hs with ⟨rfl, -⟩ | ⟨-, -, r, hr, rfl⟩
  · exact .inl ⟨rfl, h⟩
  · have hmd : Exact (r.1.strict t s.strictProgram) ↔ Exact r.1 := by
      refine exact_map_iff (g := fun u => if u.id = t.id then { u with seccompMode := modeStrict }
        else u) (fun u => ?_) rfl rfl rfl rfl
      split <;> rfl
    have h₀ : Exact { s with currentKillSignal := sigkill } :=
      ⟨⟨h.counts, h.erased⟩, h.budget⟩
    have hshape₀ : Shape { s with currentKillSignal := sigkill } :=
      ⟨hsha.ids, hsha.tids, hsha.refs, hsha.live⟩
    rcases setModeFilter_exact_iff h₀ hshape₀ ht hr with ⟨htot, hexa⟩ | ⟨hlt, hiff⟩
    · exact .inl ⟨htot, hmd.2 hexa⟩
    · refine .inr ⟨hlt, hmd.trans (hiff.trans ?_)⟩
      have hfl : hasFlag 0 flagTsync = false := by decide
      simp only [hfl, Bool.false_eq_true, false_and, or_false]

end

theorem exact_step_iff (h : Exact s) (hsha : Shape s) (hop : op.sharesFilters = true)
    (hs : s.step op = some (s', a)) : Exact s' ↔ KeepsCounts s op := by
  have hkee : s'.totalFilterInstructions = s.totalFilterInstructions → Exact s' →
      (Exact s' ↔ KeepsCounts s op) := fun htot hexa =>
    iff_of_true hexa (keepsCounts_of_total hop hs htot)
  have hgro : s.totalFilterInstructions < s'.totalFilterInstructions →
      (Exact s' ↔ s.Alone op) → (Exact s' ↔ KeepsCounts s op) := fun hlt hiff =>
    hiff.trans (keepsCounts_iff_of_lt hop hs hlt).symm
  cases effect_of_step hs with
  | syscall | fork | execve => cases hop
  | createThread ht htid hchi => exact hkee rfl (h.createThread ht _ _)
  | trackThread ht => exact hkee rfl (h.trackThread hsha ht)
  | exitThread ht => exact hkee rfl (h.exitThread hsha ht)
  | setModeFilter ht hr =>
    rcases setModeFilter_exact_iff h hsha ht hr with ⟨htot, hexa⟩ | ⟨hlt, hiff⟩
    · exact hkee htot hexa
    · exact hgro hlt hiff
  | setModeStrict ht hr =>
    rcases setModeStrict_exact_iff h hsha ht hr with ⟨htot, hexa⟩ | ⟨hlt, hiff⟩
    · exact hkee htot hexa
    · refine hgro hlt (hiff.trans ?_)
      simp [Alone, Op.thread, Op.tsync]
  | deserialize ht hr =>
    rename_i t file reads alloc b
    rcases deserializeFilters_cases hr with ⟨-, rfl⟩ | ⟨n, file', mode, r, hlp, hend⟩
    · exact hkee rfl h
    · have hld := loaded_of_deserializeLoop h hsha ht hlp
      have hmd : Exact s' ↔ Exact r.1 := by
        rcases hend with ⟨-, -, rfl⟩ | ⟨-, -, rfl⟩
        · rfl
        · refine exact_map_iff (g := fun u => if u.id = t.id then { u with seccompMode := mode }
            else u) (fun u => ?_) rfl rfl rfl rfl
          split <;> rfl
      have htot : s'.totalFilterInstructions = r.1.totalFilterInstructions := by
        rcases hend with ⟨-, -, rfl⟩ | ⟨-, -, rfl⟩ <;> rfl
      have halo : s.Alone (.deserialize t.id file reads alloc) ↔ ∀ u ∈ s.threads, u.id = t.id := by
        simp [Alone, Op.thread, Op.tsync]
      rcases Nat.lt_or_ge s.totalFilterInstructions r.1.totalFilterInstructions with hlt | hge
      · refine hgro (htot ▸ hlt) ?_
        rw [hmd, hld.exact_iff h, halo]
        exact ⟨fun hall => hall hlt, fun hall _ => hall⟩
      · have heq := le_antisymm hge hld.le
        exact hkee (htot.trans heq) (hmd.2 (hld.same heq))

end

/-! ### Runs -/

theorem exact_image (is64BitMode : Bool) (id tid : ℕ) (granted : ℕ → List (Program × Bool)) :
    Exact (.image is64BitMode id tid granted) where
  counts p hp := by cases hp
  erased p := by simp [image, refs]
  budget t ht := by
    rw [mem_singleton.1 ht]
    rfl

/-- **Reference counts**: in every state of a run of calls that keep the counts, the count of a
filter is the number of pointers to it in the chains of the threads, the list holds the filters with
a pointer to them and no others, and the budget of a thread is that of its own chain.  A further
call keeps it so if and only if it meets the condition. -/
theorem filter_counts_exact (is64BitMode : Bool) (id tid : ℕ) (ops : List Op) (s : State)
    (htid : tid ≠ 0) (hrun : machine.Run KeepsCounts (.start is64BitMode id tid) ops s) :
    Exact s ∧ ∀ op s', op.sharesFilters = true → machine.step s op s' →
      (Exact s' ↔ KeepsCounts s op) := by
  have hinv : Exact s ∧ Shape s := by
    refine hrun.invariant (I := fun s => Exact s ∧ Shape s)
      ⟨exact_image is64BitMode id tid _, .image is64BitMode id htid _⟩ fun s op s' hs hc hst => ?_
    obtain ⟨a, hst⟩ := hst
    exact ⟨(exact_step_iff hs.1 hs.2 hc.1 hst).2 hc, hs.2.step hst⟩
  refine ⟨hinv.1, fun op s' hop hst => ?_⟩
  obtain ⟨a, hst⟩ := hst
  exact exact_step_iff hinv.1 hinv.2 hop hst

theorem filter_counts_exact_single :
    ∃ s, machine.Run KeepsCounts (.start true 1 1) [installDeny] s ∧ Exact s := by
  have hsm : ((start true 1 1).step installDeny).isSome = true := by decide +kernel
  obtain ⟨r, hr⟩ := Option.isSome_iff_exists.1 hsm
  have halo : (start true 1 1).Alone installDeny := by
    intro u hu
    rw [mem_singleton.1 hu]
    exact .inl rfl
  have hrun : machine.Run KeepsCounts (.start true 1 1) [installDeny] r.1 :=
    .cons ⟨rfl, fun _ => halo⟩ ⟨r.2, hr⟩ (.nil _)
  exact ⟨r.1, hrun, (filter_counts_exact true 1 1 _ _ (by decide) hrun).1⟩

/-- A filter, a thread that inherits it, and a second filter for both by TSYNC. -/
def overwriteChain : List Op :=
  [.setModeFilter 1 true 0 (some allowAll) 0, .createThread 1 2 2, .trackThread 2,
    .setModeFilter 1 true flagTsync (some allowAll) 1]

/-- Three threads; two of them use up all instructions. -/
def useUpBudget : List Op :=
  [.createThread 1 2 2, .createThread 1 3 3,
    .setModeFilter 1 true 0 (some bulk) 0, .setModeFilter 1 true 0 (some bulk) 1,
    .setModeFilter 1 true 0 (some bulk) 2, .setModeFilter 1 true 0 (some bulk) 3,
    .setModeFilter 1 true 0 (some bulk) 4, .setModeFilter 1 true 0 (some bulk) 5,
    .setModeFilter 1 true 0 (some bulk) 6, .setModeFilter 2 true 0 (some bulk) 7]

theorem exists_run_of_steps {ops : List Op} {c : State → Bool}
    (hops : (ops.all Op.sharesFilters) = true) (h : ((start true 1 1).steps ops).any c = true) :
    ∃ s, machine.Run (fun _ op => op.sharesFilters = true) (.start true 1 1) ops s ∧
      c s = true := by
  obtain ⟨s, hs, hc⟩ := (Option.any_eq_true _ _).1 h
  exact ⟨s, run_of_steps (fun op hop _ => all_eq_true.1 hops op hop) hs, hc⟩

/-- **The counts drift**: TSYNC counts three pointers where there are two, so the filter is still in
the list when both threads are gone; and a thread without a filter is refused its first one because
of the filters of the others. -/
theorem filter_counts_drift :
    (∃ s, machine.Run (fun _ op => op.sharesFilters = true) (.start true 1 1) overwriteChain s ∧
      (s.refCount 0 == 3 && refs s.threads 0 == 2) = true) ∧
    (∃ s, machine.Run (fun _ op => op.sharesFilters = true) (.start true 1 1)
        (overwriteChain ++ [.exitThread 1, .exitThread 2]) s ∧
      ((s.info 0).isSome && refs s.threads 0 == 0) = true) ∧
    ∃ s, machine.Run (fun _ op => op.sharesFilters = true) (.start true 1 1) useUpBudget s ∧
      (s.threads.any fun t => t.id == 3 && s.chainInstructions t == 0 &&
        (s.setModeFilter t true 0 (some allowAll) 8).map Prod.snd == some (.error .enomem)) =
        true :=
  ⟨exists_run_of_steps (by decide) (by decide +kernel),
    exists_run_of_steps (by decide) (by decide +kernel),
    exists_run_of_steps (by decide) (by decide +kernel)⟩

end FastPPC.Seccomp
