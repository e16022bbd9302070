import FastPPC.Alloc.MemAllocator32

/-!
# The bookkeeping of the 32-bit allocator

The bit of a page says whether the kernel has something mapped there.  `Careful` says which calls
and which answers of the kernel keep it so.

* `Inv` : the bits agree with the kernel but for exempt pages;
* `Inv.of_maps`, `Inv.of_unmaps` : mapping and unmapping a range on both sides;
* `Inv.mmap`, `Inv.munmap`, `Inv.mremap`, `Inv.shmat`, `Inv.shmdt` : the calls;
* `bookkeeping_matches_kernel` : the whole run;
* `bookkeeping_drifts` : calls that are not careful.
-/

namespace FastPPC.Alloc32

open State List

variable {g : HostPages} {s s' : State} {first n p : ℕ}

theorem inRange_iff : inRange first n p = true ↔ first ≤ p ∧ p < first + n := by
  simp [inRange]

/-- Pages whose bit need not agree with the kernel. -/
def State.Exempt (s : State) (p : ℕ) : Prop :=
  s.hostReservedPages p = true ∨ permanent p = true ∨ s.occupied p = true

/-- The bits agree with the kernel. -/
structure Inv (s : State) : Prop where
  marked : ∀ p, s.kernel p ≠ none → s.mappedPages p = true
  backed : ∀ p, s.mappedPages p = true → s.Exempt p ∨ s.kernel p ≠ none

/-- The bits that have changed belong to pages found occupied. -/
def Unchanged (s s' : State) : Prop :=
  ∀ p, s'.mappedPages p ≠ s.mappedPages p → s'.occupied p = true

/-! ### Ranges -/

/-- A range was mapped and marked. -/
structure Maps (first n : ℕ) (s s' : State) : Prop where
  kernel : ∀ p, s'.kernel p ≠ none ↔ inRange first n p = true ∨ s.kernel p ≠ none
  marks : ∀ p, s'.mappedPages p = (inRange first n p || s.mappedPages p)
  reserved : s'.hostReservedPages = s.hostReservedPages
  occupied : s'.occupied = s.occupied

/-- A range was unmapped and its marks removed. -/
structure Unmaps (first n : ℕ) (s s' : State) : Prop where
  kernel : ∀ p, s'.kernel p ≠ none ↔ inRange first n p = false ∧ s.kernel p ≠ none
  marks : ∀ p, s'.mappedPages p = (!inRange first n p && s.mappedPages p)
  reserved : s'.hostReservedPages = s.hostReservedPages
  occupied : s'.occupied = s.occupied

theorem State.Exempt.congr (h : s.Exempt p) (hr : s'.hostReservedPages = s.hostReservedPages)
    (ho : s'.occupied = s.occupied) : s'.Exempt p := by
  rw [Exempt, hr, ho]
  exact h

/-- The other fields are not part of the invariant. -/
theorem Inv.congr (h : Inv s) (hk : s'.kernel = s.kernel) (hm : s'.mappedPages = s.mappedPages)
    (hr : s'.hostReservedPages = s.hostReservedPages) (ho : s'.occupied = s.occupied) : Inv s' := by
  refine ⟨fun p hp => ?_, fun p hp => ?_⟩
  · rw [hk] at hp
    rw [hm]
    exact h.marked p hp
  · rw [hm] at hp
    rw [hk]
    exact (h.backed p hp).imp (fun he => he.congr hr ho) id

theorem Inv.of_maps (h : Inv s) (hm : Maps first n s s') : Inv s' := by
  refine ⟨fun p hp => ?_, fun p hp => ?_⟩
  · rw [hm.marks, Bool.or_eq_true]
    exact ((hm.kernel p).1 hp).imp id (h.marked p)
  · rw [hm.marks, Bool.or_eq_true] at hp
    rcases hp with hp | hp
    · exact .inr ((hm.kernel p).2 (.inl hp))
    · exact (h.backed p hp).imp (fun he => he.congr hm.reserved hm.occupied) fun hk =>
        (hm.kernel p).2 (.inr hk)

theorem Inv.of_unmaps (h : Inv s) (hm : Unmaps first n s s') : Inv s' := by
  refine ⟨fun p hp => ?_, fun p hp => ?_⟩
  · obtain ⟨hout, hk⟩ := (hm.kernel p).1 hp
    rw [hm.marks, hout, h.marked p hk]
    rfl
  · rw [hm.marks, Bool.and_eq_true, Bool.not_eq_true'] at hp
    exact (h.backed p hp.2).imp (fun he => he.congr hm.reserved hm.occupied) fun hk =>
      (hm.kernel p).2 ⟨hp.1, hk⟩

/-- The range is below 4 GiB. -/
def Inside (first n : ℕ) : Prop := n = 0 ∨ first + n ≤ pageCount

instance (first n : ℕ) : Decidable (Inside first n) := inferInstanceAs (Decidable (_ ∨ _))

theorem State.setUsedPages_eq_some_iff : s.setUsedPages first n = some s' ↔ Inside first n ∧
      { s with mappedPages := fun p => inRange first n p || s.mappedPages p } = s' := by
  rw [setUsedPages, Option.ite_none_right_eq_some, Option.some.injEq, Inside]

theorem State.setFreePages_eq_some_iff : s.setFreePages first n = some s' ↔ Inside first n ∧
      { s with mappedPages := fun p => !inRange first n p && s.mappedPages p } = s' := by
  rw [setFreePages, Option.ite_none_right_eq_some, Option.some.injEq, Inside]

/-- Marking a range that the kernel has mapped since. -/
theorem maps_setUsedPages {s₁ : State} (h : s₁.setUsedPages first n = some s')
    (hker : ∀ p, s₁.kernel p ≠ none ↔ inRange first n p = true ∨ s.kernel p ≠ none)
    (hmar : s₁.mappedPages = s.mappedPages)
    (hres : s₁.hostReservedPages = s.hostReservedPages)
    (hocc : s₁.occupied = s.occupied) : Maps first n s s' := by
  obtain ⟨-, rfl⟩ := setUsedPages_eq_some_iff.1 h
  exact ⟨hker, fun p => by rw [hmar], hres, hocc⟩

theorem kernel_ne_none_iff {k : Option Backing} {b : Backing} :
    (if inRange first n p then some b else k) ≠ none ↔ inRange first n p = true ∨ k ≠ none := by
  split
  · rename_i hp
    exact ⟨fun _ => .inl hp, nofun⟩
  · rename_i hp
    exact ⟨.inr, fun h => h.resolve_left hp⟩

theorem maps_kernelMap {b : Backing} (h : (s.kernelMap first n b).setUsedPages first n = some s') :
    Maps first n s s' :=
  maps_setUsedPages h (fun _ => kernel_ne_none_iff) rfl rfl rfl

theorem unmaps_kernelUnmap (h : (s.kernelUnmap first n).setFreePages first n = some s') :
    Unmaps first n s s' := by
  obtain ⟨-, rfl⟩ := setFreePages_eq_some_iff.1 h
  refine ⟨fun p => ?_, fun _ => rfl, rfl, rfl⟩
  simp only [kernelUnmap]
  split
  · rename_i hp
    exact ⟨fun h => absurd rfl h, fun h => absurd hp (by rw [h.1]; exact Bool.false_ne_true)⟩
  · rename_i hp
    exact ⟨fun hk => ⟨Bool.eq_false_iff.2 hp, hk⟩, fun h => h.2⟩

/-- The protection of granules is not part of the invariant. -/
theorem Maps.noteGranuleProt (h : Maps first n s s') (f m prot : ℕ) :
    Maps first n s (s'.noteGranuleProt g f m prot) := by
  rw [State.noteGranuleProt]
  split
  · exact h
  · exact { h with }

/-- A call keeps the invariant, and an error leaves the bits as they were. -/
structure Kept (s : State) (r : State × Answer) : Prop where
  inv : Inv r.1
  unchanged : ∀ e, r.2 = .error e → Unchanged s r.1
  occupied : ∀ p, s.occupied p = true → r.1.occupied p = true

/-- The list of calls is not part of the invariant either. -/
theorem Kept.issued_error (h : Inv s) (calls : List HostCall) (e : Errno) :
    Kept s ({ s with issued := calls }, .error e) :=
  ⟨h.congr rfl rfl rfl rfl, fun _ _ _ hp => absurd rfl hp, fun _ hp => hp⟩

theorem Kept.error (h : Inv s) (e : Errno) : Kept s (s, .error e) := .issued_error h s.issued e

theorem Kept.ok (h : Inv s') (hocc : s'.occupied = s.occupied) (ptr : ℕ) : Kept s (s', .ok ptr) :=
  ⟨h, nofun, fun p hp => by rw [hocc]; exact hp⟩

theorem Kept.of_maps (h : Inv s) (hm : Maps first n s s') (ptr : ℕ) : Kept s (s', .ok ptr) :=
  .ok (h.of_maps hm) hm.occupied ptr

theorem Kept.of_unmaps (h : Inv s) (hm : Unmaps first n s s') (ptr : ℕ) : Kept s (s', .ok ptr) :=
  .ok (h.of_unmaps hm) hm.occupied ptr

/-! ### How the searches end -/

variable {q : MmapArgs} {r : State × Answer}

/-- The ways out of `AllocateNoHint`, for the kernel's answers, a state and a start of the scan. -/
inductive Allocates (g : HostPages) (q : MmapArgs) (pages lastKey : ℕ) :
    List Attempt → State → ℕ → State × Answer → Prop
  | refused (attempts : List Attempt) (s : State) (bottom : ℕ) (e : Errno) :
      Allocates g q pages lastKey attempts s bottom (s, .error e)
  | mapped {a : Attempt} {attempts : List Attempt} {s : State} {bottom lower next : ℕ}
      {r : State × Answer} (hfind : s.findTwice g bottom lastKey pages = some (lower, next))
      (hlower : lower ≠ 0) (hmmap : a.mmap = none)
      (hfound : s.mapFound g q lower pages a = some r) :
      Allocates g q pages lastKey (a :: attempts) s bottom r
  /-- Pages are marked, and the search goes on. -/
  | collides {a : Attempt} {attempts : List Attempt} {s s' : State} {bottom lower next : ℕ}
      {r : State × Answer} (hfind : s.findTwice g bottom lastKey pages = some (lower, next))
      (hmmap : a.mmap = some .EEXIST) (hmark : s.markCollisions lower pages a.mincore = some s')
      (hrest : Allocates g q pages lastKey attempts s' next r) :
      Allocates g q pages lastKey (a :: attempts) s bottom r

/-- By induction on the kernel's answers. -/
theorem State.allocateNoHint_cases {pages lastKey : ℕ} :
    ∀ (attempts : List Attempt) (s : State) (bottom : ℕ),
      allocateNoHint g q pages lastKey attempts s bottom = some r →
        Allocates g q pages lastKey attempts s bottom r
  | [], s, bottom, hr => by
    rw [allocateNoHint] at hr
    split at hr
    · cases hr
    split at hr
    · cases hr
      exact .refused ..
    · cases hr
  | a :: attempts, s, bottom, hr => by
    rw [allocateNoHint] at hr
    split at hr
    · cases hr
    rename_i hfn
    split at hr
    · cases hr
      exact .refused ..
    rename_i hne
    dsimp only at hr
    split at hr
    · rename_i hmm
      exact .mapped hfn hne hmm hr
    · rename_i hmm
      split at hr
      · cases hr
      · rename_i hmr
        exact .collides hfn hmm hmr (allocateNoHint_cases attempts _ _ hr)
    · cases hr
      exact .refused ..

/-- The ways out of `Shmat` without an address: the state is as before, or a segment is attached at
a range the scan has found. -/
theorem State.shmatSearch_cases {shmid pages : ℕ} :
    ∀ (attempts : List (Option ℕ)) (bottom : ℕ) (wrapped : Bool),
      shmatSearch g shmid pages attempts s bottom wrapped = some r →
        (∃ e, r = (s, .error e)) ∨ ∃ bottom lower next s',
          s.findTwice g bottom topKey pages = some (lower, next) ∧ lower ≠ 0 ∧
          (s.kernelAttach lower pages).setUsedPages lower pages = some s' ∧
          r = ({ s'.attach lower shmid with lastScanLocation := lower }, .ok (lower * guestPage))
  | [], bottom, wrapped, hr => by
    rw [shmatSearch] at hr
    split at hr
    · cases hr
    split at hr
    · cases hr
      exact .inl ⟨_, rfl⟩
    · cases hr
  | a :: attempts, bottom, wrapped, hr => by
    rw [shmatSearch.eq_def] at hr
    dsimp only at hr
    split at hr
    · cases hr
    rename_i hfn
    split at hr
    · cases hr
      exact .inl ⟨_, rfl⟩
    rename_i hne
    cases a with
    | none =>
      obtain ⟨s', hs', rfl⟩ := Option.map_eq_some_iff.1 hr
      exact .inr ⟨_, _, _, s', hfn, hne, hs', rfl⟩
    | some e =>
      dsimp only at hr
      split at hr
      · exact shmatSearch_cases attempts _ _ hr
      split at hr
      · cases hr
        exact .inl ⟨_, rfl⟩
      · exact shmatSearch_cases attempts _ _ hr

/-! ### `Mmap` -/

/-- The kernel's answers to the tries of `AllocateNoHint`: a collision shows in some page, and a
mapping that has to be taken back is. -/
def AttemptsOk (g : HostPages) (pages lastKey : ℕ) : List Attempt → State → ℕ → Prop
  | [], _, _ => True
  | a :: attempts, s, bottom =>
    (a.mmap = none → a.munmap = true) ∧
      (a.mmap = some .EEXIST → ∀ lower next s',
        s.findTwice g bottom lastKey pages = some (lower, next) →
          s.markCollisions lower pages a.mincore = some s' →
            (∃ i < pages, a.mincore (lower + i) = true) ∧
              AttemptsOk g pages lastKey attempts s' next)

theorem Inv.markCollisions (h : Inv s) {lower pages : ℕ} {mincore : ℕ → Bool}
    (hany : ∃ i < pages, mincore (lower + i) = true)
    (hs' : s.markCollisions lower pages mincore = some s') :
    Inv s' ∧ Unchanged s s' ∧ ∀ p, s.occupied p = true → s'.occupied p = true := by
  obtain ⟨i, hi, hcr⟩ := hany
  have hif : ((range pages).any fun i => mincore (lower + i)) = true :=
    any_eq_true.2 ⟨i, mem_range.2 hi, hcr⟩
  rw [State.markCollisions, if_pos hif] at hs'
  cases hs'
  refine ⟨⟨fun p hp => ?_, fun p hp => ?_⟩, fun p hp => ?_, fun p hp => ?_⟩
  · simp [h.marked p hp]
  · simp only [Bool.or_eq_true] at hp
    rcases hp with hp | hp
    · exact .inl (.inr (.inr (by simp [hp])))
    · refine (h.backed p hp).imp ?_ id
      rintro (he | he | he)
      · exact .inl he
      · exact .inr (.inl he)
      · exact .inr (.inr (by simp [he]))
  · cases hc : inRange lower pages p && mincore p with
    | false => simp [hc] at hp
    | true => simp [hc]
  · simp [hp]

theorem Unchanged.trans {s₁ s₂ s₃ : State} (h : Unchanged s₁ s₂) (h' : Unchanged s₂ s₃)
    (hmn : ∀ p, s₂.occupied p = true → s₃.occupied p = true) : Unchanged s₁ s₃ := by
  intro p hp
  by_cases h2 : s₃.mappedPages p = s₂.mappedPages p
  · exact hmn p (h p (h2 ▸ hp))
  · exact h' p h2

theorem State.mapCalls_eq (s : State) (q : MmapArgs) (lower pages : ℕ) :
    ∃ calls, s.mapCalls g q lower pages = { s with issued := calls } := by
  rw [mapCalls]
  split
  · exact ⟨_, rfl⟩
  · exact ⟨_, rfl⟩

theorem Inv.mapFound (h : Inv s) {lower pages : ℕ} {a : Attempt} (ha : a.munmap = true)
    (hr : s.mapFound g q lower pages a = some r) : Kept s r := by
  obtain ⟨calls, hcal⟩ := s.mapCalls_eq (g := g) q lower pages
  rw [State.mapFound, hcal] at hr
  split at hr
  · cases hr
    rw [if_pos ha]
    exact .issued_error h _ _
  · obtain ⟨s', hs', rfl⟩ := Option.map_eq_some_iff.1 hr
    have hmp : Maps lower pages s { s' with lastScanLocation := lower } :=
      { maps_kernelMap hs' with }
    exact .of_maps h (hmp.noteGranuleProt _ _ _) _

/-- **A request without an address.** -/
theorem Inv.allocates {pages lastKey bottom : ℕ} {attempts : List Attempt}
    (hr : Allocates g q pages lastKey attempts s bottom r) (h : Inv s)
    (hok : AttemptsOk g pages lastKey attempts s bottom) : Kept s r := by
  induction hr with
  | refused => exact .error h _
  | mapped _ _ hmm hr => exact h.mapFound (hok.1 hmm) hr
  | collides hfn hmm hmr _ ih =>
    obtain ⟨hany, hrs⟩ := hok.2 hmm _ _ _ hfn hmr
    obtain ⟨hinv, hun, hmn⟩ := h.markCollisions hany hmr
    have hkp := ih hinv hrs
    exact ⟨hkp.inv, fun e he => hun.trans (hkp.unchanged e he) hkp.occupied,
      fun p hp => hkp.occupied p (hmn p hp)⟩

/-- What a sub-granule request needs: no call fails, and a granule that is kept is mapped. -/
def SubGranuleOk (g : HostPages) (s : State) (q : MmapArgs) (answers : ℕ → GranuleAnswer)
    (granules : List ℕ) : Prop :=
  ∀ granule ∈ granules, (answers granule).mmap = none ∧ (answers granule).readFully = none ∧
    (answers granule).mprotect = none ∧
    (s.replaces g q granule = false → ∀ p, inRange granule g.granule p = true → s.kernel p ≠ none)

/-- What the loop over granules has done. -/
structure Taken (granules : List ℕ) (g : HostPages) (s s' : State) : Prop where
  kernel : ∀ p, s'.kernel p ≠ none ↔
    (∃ granule ∈ granules, inRange granule g.granule p = true) ∨ s.kernel p ≠ none
  marks : s'.mappedPages = s.mappedPages
  reserved : s'.hostReservedPages = s.hostReservedPages
  occupied : s'.occupied = s.occupied

theorem State.takeGranule_taken {granule : ℕ} (hkp : s.replaces g q granule = false →
      ∀ p, inRange granule g.granule p = true → s.kernel p ≠ none) :
    Taken [granule] g s (s.takeGranule g q granule) := by
  rw [takeGranule]
  split
  · refine ⟨fun p => ?_, rfl, rfl, rfl⟩
    simp only [mem_singleton, exists_eq_left]
    exact kernel_ne_none_iff
  · rename_i hrep
    -- the granule stays as it is
    have hsm : Taken [granule] g s s := by
      refine ⟨fun p => ⟨.inr, ?_⟩, rfl, rfl, rfl⟩
      rintro (⟨granule', hmem, hp⟩ | hp)
      · rw [mem_singleton.1 hmem] at hp
        exact hkp (Bool.eq_false_iff.2 hrep) p hp
      · exact hp
    split
    · exact hsm
    · exact { hsm with }

/-- The state after a granule for which no call fails. -/
def State.granuleDone (s : State) (g : HostPages) (q : MmapArgs) (granule : ℕ) : State :=
  (((s.takeGranule g q granule).fillGranule g q granule).unionProt q.prot granule).issue .protect
    (granulePages g granule)

theorem State.granuleDone_taken {granule : ℕ} (hkp : s.replaces g q granule = false →
      ∀ p, inRange granule g.granule p = true → s.kernel p ≠ none) :
    Taken [granule] g s (s.granuleDone g q granule) := by
  have htak := takeGranule_taken hkp
  rw [granuleDone, fillGranule]
  split
  · exact { htak with }
  · exact { htak with }

/-- The marks of a granule decide whether it is replaced. -/
theorem State.replaces_congr (hmar : s'.mappedPages = s.mappedPages) (q : MmapArgs)
    (granule : ℕ) : s'.replaces g q granule = s.replaces g q granule := by
  simp [replaces, granuleHasOtherLivePages, hmar]

theorem State.subGranuleLoop_taken {answers : ℕ → GranuleAnswer} :
    ∀ (granules : List ℕ) (s : State), SubGranuleOk g s q answers granules →
      ∃ s', subGranuleLoop g q answers granules s = (s', none) ∧ Taken granules g s s'
  | [], s, _ => ⟨s, rfl, ⟨fun p => ⟨.inr, fun h => h.resolve_left nofun⟩, rfl, rfl, rfl⟩⟩
  | granule :: granules, s, hok => by
    obtain ⟨⟨h1, h2, h3, h4⟩, hrs⟩ := forall_mem_cons.1 hok
    have htak := granuleDone_taken h4
    have hone : s.subGranuleOne g q (answers granule) granule =
        (s.granuleDone g q granule, none) := by
      simp [subGranuleOne, granuleDone, h1, h2, h3]
    rw [subGranuleLoop, hone]
    -- the rest runs in a state with the same marks and more mappings
    obtain ⟨s', heq, hnx⟩ := subGranuleLoop_taken granules
      (s.granuleDone g q granule) fun granule' hmem => by
        obtain ⟨r1, r2, r3, r4⟩ := hrs granule' hmem
        refine ⟨r1, r2, r3, fun hrep p hp => ?_⟩
        have hsm : (s.granuleDone g q granule).replaces g q granule' =
            s.replaces g q granule' := replaces_congr htak.marks q granule'
        exact (htak.kernel p).2 (.inr (r4 (hsm ▸ hrep) p hp))
    refine ⟨s', heq, fun p => ?_, hnx.marks.trans htak.marks,
      hnx.reserved.trans htak.reserved, hnx.occupied.trans htak.occupied⟩
    refine (hnx.kernel p).trans ?_
    have hk := htak.kernel p
    simp only [mem_singleton, exists_eq_left] at hk
    simp only [mem_cons, exists_eq_or_imp]
    rw [or_assoc, or_left_comm]
    exact or_congr Iff.rfl hk

theorem HostPages.granule_pos (g : HostPages) : 0 < g.granule := by cases g <;> decide

/-- The granules between two boundaries hold the pages between them. -/
theorem exists_granule_iff (a b : ℕ) :
    (∃ granule ∈ granulesBetween g (a * g.granule) (b * g.granule),
      inRange granule g.granule p = true) ↔
      inRange (a * g.granule) (b * g.granule - a * g.granule) p = true := by
  have hpos := g.granule_pos
  simp only [granulesBetween, mem_map, mem_range, exists_exists_and_eq_and,
    inRange_iff, ← Nat.sub_mul, Nat.mul_div_cancel _ hpos]
  constructor
  · rintro ⟨i, hi, h1, h2⟩
    have hmul := Nat.mul_le_mul_right g.granule (Nat.succ_le_of_lt hi)
    rw [Nat.succ_mul] at hmul
    omega
  · rintro ⟨h1, h2⟩
    have hdiv := Nat.div_add_mod (p - a * g.granule) g.granule
    have hmod := Nat.mod_lt (p - a * g.granule) hpos
    rw [Nat.mul_comm] at hdiv
    refine ⟨(p - a * g.granule) / g.granule, ?_, by omega, by omega⟩
    exact (Nat.div_lt_iff_lt_mul hpos).2 (by omega)

/-- The granules of a range hold its pages. -/
theorem exists_granule_of_inRange (hp : inRange first n p = true) :
    ∃ granule ∈ granulesBetween g (granuleFloor g first) (granuleCeil g (first + n)),
      inRange granule g.granule p = true := by
  have hpos := g.granule_pos
  refine (exists_granule_iff _ _).2 (inRange_iff.2 ?_)
  obtain ⟨h1, h2⟩ := inRange_iff.1 hp
  have hflo := Nat.div_mul_le_self first g.granule
  have hdiv := Nat.div_add_mod (first + n + g.granule - 1) g.granule
  have hmod := Nat.mod_lt (first + n + g.granule - 1) hpos
  rw [Nat.mul_comm] at hdiv
  omega

theorem Inv.mmapSubGranule (h : Inv s) {answers : ℕ → GranuleAnswer}
    (hok : SubGranuleOk g s q answers (granulesBetween g (touched g q).1 (touched g q).2))
    (hr : s.mmapSubGranule g q answers = some r) : Kept s r := by
  obtain ⟨s₁, hlp, htak⟩ := subGranuleLoop_taken _ s hok
  rw [State.mmapSubGranule, hlp] at hr
  obtain ⟨-, hr⟩ := Option.ite_none_left_eq_some.1 hr
  obtain ⟨s', hs', rfl⟩ := Option.map_eq_some_iff.1 hr
  refine .of_maps h (maps_setUsedPages hs' (fun p => ?_) htak.marks htak.reserved htak.occupied) _
  rw [htak.kernel p]
  exact or_congr (exists_granule_iff _ _) Iff.rfl

/-- What a request needs of the kernel's answers. -/
structure MmapOk (g : HostPages) (s : State) (q : MmapArgs) (a : MmapAnswers) : Prop where
  attempts : AttemptsOk g (alignPagesUp g (pagesOf q.length))
    (if q.map32Bit then topKey32Bit else topKey) a.attempts s (s.scanStart q)
  subGranule : q.fixed = true ∨ q.noreplace = true → g = .k64 →
    SubGranuleOk g s q a.granule
      (granulesBetween g (touched g q).1 (touched g q).2)

theorem Inv.mmapFixed (h : Inv s) {a : MmapAnswers} (hok : g = .k64 → SubGranuleOk g s q a.granule
      (granulesBetween g (touched g q).1 (touched g q).2))
    (hr : s.mmapFixed g q a = some r) : Kept s r := by
  rw [State.mmapFixed] at hr
  split at hr
  · cases hr
    exact .error h _
  split at hr
  · rename_i hsub
    split at hr
    · cases hr
      exact .error h _
    · refine h.mmapSubGranule (hok ?_) hr
      cases g with
      | k4 => exact absurd rfl hsub.1
      | k64 => rfl
  · split at hr
    · cases hr
      exact .error h _
    · obtain ⟨s', hs', rfl⟩ := Option.map_eq_some_iff.1 hr
      have hmp : Maps (q.addr / guestPage) (pagesOf q.length) s s' :=
        { maps_kernelMap hs' with }
      exact .of_maps h (hmp.noteGranuleProt _ _ _) _

theorem Inv.mmap (h : Inv s) {a : MmapAnswers} (hok : MmapOk g s q a) (hr : s.mmap g q a = some r) :
    Kept s r := by
  rw [State.mmap] at hr
  iterate 5
    split at hr
    · cases hr
      exact .error h _
  split at hr
  · rename_i hfix
    exact h.mmapFixed (hok.subGranule (by simpa using hfix)) hr
  · exact Inv.allocates (allocateNoHint_cases _ _ _ hr) h hok.attempts

/-! ### `Munmap` -/

/-- What `Munmap` needs on a host with large pages: the kernel takes the granules back, and no
granule the range touches holds a marked page outside of it. -/
def MunmapOk (g : HostPages) (s : State) (addr length : ℕ) (answers : ℕ → Option ℕ) : Prop :=
  g = .k64 → ∀ granule ∈ granulesBetween g (granuleFloor g (addr / guestPage))
      (granuleCeil g (addr / guestPage + pagesOf length)),
    answers granule = none ∧ ∀ p, inRange granule g.granule p = true →
      inRange (addr / guestPage) (pagesOf length) p = false → s.mappedPages p = false

theorem State.releaseGranules_spec {answers : ℕ → Option ℕ} : ∀ (granules : List ℕ) (s : State),
      (∀ granule ∈ granules, answers granule = none ∧
        ∀ p, inRange granule g.granule p = true → s.mappedPages p = false) →
      ∃ s', releaseGranules g answers granules s = (s', none) ∧ (∀ p, s'.kernel p ≠ none ↔
          (¬∃ granule ∈ granules, inRange granule g.granule p = true) ∧ s.kernel p ≠ none) ∧
        s'.mappedPages = s.mappedPages ∧ s'.hostReservedPages = s.hostReservedPages ∧
        s'.occupied = s.occupied
  | [], s, _ => ⟨s, rfl, fun p => ⟨fun h => ⟨nofun, h⟩, fun h => h.2⟩, rfl, rfl, rfl⟩
  | granule :: granules, s, hok => by
    obtain ⟨⟨hans, hfr⟩, hrs⟩ := forall_mem_cons.1 hok
    have hlv : s.granuleHasOtherLivePages g granule 0 0 = false := by
      rw [granuleHasOtherLivePages, any_eq_false]
      intro i hi
      rw [hfr (granule + i) (inRange_iff.2 ⟨by omega, by have := mem_range.1 hi; omega⟩)]
      simp
    rw [releaseGranules, hlv, hans]
    obtain ⟨s', heq, hk, hm, hr, ho⟩ := releaseGranules_spec granules
      { (s.issue .unmap (granulePages g granule)).kernelUnmap granule g.granule with
        granuleProt := Function.update s.granuleProt granule none } hrs
    refine ⟨s', heq, fun p => ?_, hm, hr, ho⟩
    rw [hk p]
    simp only [kernelUnmap, issue]
    by_cases hp : inRange granule g.granule p = true
    · simp [hp]
    · simp [hp]

theorem Inv.munmap (h : Inv s) {addr length : ℕ} {answers : ℕ → Option ℕ}
    (hok : MunmapOk g s addr length answers) (hr : s.munmap g addr length answers = some r) :
    Kept s r := by
  rw [State.munmap] at hr
  iterate 2
    split at hr
    · cases hr
      exact .error h _
  iterate 2
    split at hr
    · cases hr
      exact .ok h rfl _
  split at hr
  · rename_i hg
    have hk64 : g = .k64 := by
      cases g with
      | k4 => exact absurd rfl hg
      | k64 => rfl
    obtain ⟨s₁, hs₁, rfl⟩ := Option.map_eq_some_iff.1 hr
    rw [setFreePages] at hs₁
    split at hs₁
    · cases hs₁
      obtain ⟨s', heq, hker, hmrk, hres, hocc⟩ := releaseGranules_spec _
        { s with mappedPages := fun p =>
            !inRange (addr / guestPage) (pagesOf length) p && s.mappedPages p }
        fun granule hmem => by
          obtain ⟨h1, h2⟩ := hok hk64 granule hmem
          refine ⟨h1, fun p hp => ?_⟩
          cases hin : inRange (addr / guestPage) (pagesOf length) p with
          | false => simp [h2 p hp hin]
          | true => simp [hin]
      rw [heq]
      -- a page of a touched granule outside the range was not mapped
      have hunm : Unmaps (addr / guestPage) (pagesOf length) s s' := by
        refine ⟨fun p => (hker p).trans (and_congr_left fun hp => ?_), fun p => ?_, hres, hocc⟩
        · constructor
          · intro hout
            cases hin : inRange (addr / guestPage) (pagesOf length) p with
            | false => rfl
            | true => exact absurd (exists_granule_of_inRange hin) hout
          · rintro hin ⟨granule, hmem, hgra⟩
            have hmar := h.marked p hp
            rw [(hok hk64 granule hmem).2 p hgra hin] at hmar
            cases hmar
        · rw [hmrk]
      exact .of_unmaps h hunm _
    · cases hs₁
  · split at hr
    · cases hr
      exact .error h _
    · obtain ⟨s', hs', rfl⟩ := Option.map_eq_some_iff.1 hr
      have hunm : Unmaps (addr / guestPage) (pagesOf length) s s' :=
        { unmaps_kernelUnmap hs' with }
      exact .of_unmaps h hunm _

/-! ### `Mremap` -/

variable {a : MremapAnswers}

/-- What `Mremap` needs: no `MREMAP_FIXED` call succeeds in the kernel, and a mapping that has to
move and for which a place was reserved does move there. -/
structure MremapOk (g : HostPages) (s : State) (q : MremapArgs) (a : MremapAnswers) : Prop where
  fixed : q.fixed = true → a.first ≠ none
  reserve : MmapOk g s q.reservation a.reserve
  move : a.move = none

theorem Inv.moved (h : Inv s) {q : MremapArgs} {keepOld : Bool}
    (hr : s.moved g q keepOld first = some s') : Inv s' ∧ s'.occupied = s.occupied := by
  rw [State.moved] at hr
  split at hr
  · have hm : Maps first (q.newPages g) s s' := { maps_kernelMap hr with }
    exact ⟨h.of_maps hm, hm.occupied⟩
  · obtain ⟨s₁, hs₁, hr⟩ := Option.bind_eq_some_iff.1 hr
    have hu : Unmaps (q.oldAddress / guestPage) (q.oldPages g) s s₁ :=
      { unmaps_kernelUnmap hs₁ with }
    have hm := maps_kernelMap hr
    exact ⟨(h.of_unmaps hu).of_maps hm, hm.occupied.trans hu.occupied⟩

theorem Inv.mremapMove (h : Inv s) {q : MremapArgs} (hok : MremapOk g s q a)
    (hr : s.mremapMove g q a = some r) : Kept s r := by
  obtain ⟨⟨s₁, ans⟩, hmm, hr⟩ := Option.bind_eq_some_iff.1 hr
  have hkp := h.mmap hok.reserve hmm
  cases ans with
  | error e =>
    cases hr
    exact hkp
  | ok ptr =>
    simp only [hok.move] at hr
    obtain ⟨s', hs', rfl⟩ := Option.map_eq_some_iff.1 hr
    obtain ⟨hinv, hocc⟩ := hkp.inv.moved hs'
    exact ⟨hinv, nofun, fun p hp => by rw [hocc]; exact hkp.occupied p hp⟩

theorem Inv.mremap (h : Inv s) {q : MremapArgs} (hok : MremapOk g s q a)
    (hr : s.mremap g q a = some r) : Kept s r := by
  rw [State.mremap] at hr
  split at hr
  · cases hr
    exact .error h _
  split at hr
  · rename_i hfix
    split at hr
    · cases hr
      exact .error h _
    · rename_i hfir
      exact absurd hfir (hok.fixed hfix)
  split at hr
  · split at hr
    · cases hr
      exact .error h _
    · obtain ⟨s', hs', rfl⟩ := Option.map_eq_some_iff.1 hr
      have hunm : Unmaps (q.oldAddress / guestPage + q.newPages g) (q.oldPages g - q.newPages g)
          s s' := { unmaps_kernelUnmap hs' with }
      exact .of_unmaps h hunm _
  split at hr
  · split at hr
    · obtain ⟨s', hs', rfl⟩ := Option.map_eq_some_iff.1 hr
      exact .of_maps h (maps_setUsedPages hs' (fun _ => kernel_ne_none_iff) rfl rfl rfl) _
    · split at hr
      · exact h.mremapMove hok hr
      · cases hr
        exact .error h _
  · exact h.mremapMove hok hr

/-! ### Shared memory segments -/

/-- What `Shmat` at a given address needs: the size is known and a multiple of the host's page. -/
def ShmatOk (g : HostPages) (q : ShmatArgs) (a : ShmatAnswers) : Prop :=
  q.shmaddr ≠ 0 → a.shmctl = true ∧ a.segsz / guestPage = segmentPages g a.segsz

/-- What `Shmdt` needs: it succeeds, the size is known and a multiple of the host's page, and the
pages of the segment are the mapped pages of its range. -/
structure ShmdtOk (g : HostPages) (s : State) (shmaddr : ℕ) (a : ShmdtAnswers) : Prop where
  answers : a.shmctl = true ∧ a.shmdt = none
  size : pagesOf a.segsz = segmentPages g a.segsz
  pages : ∀ p, s.kernel p = some (.shm (shmaddr / guestPage % 2 ^ 32)) ↔
    inRange (shmaddr / guestPage % 2 ^ 32) (pagesOf a.segsz) p = true ∧ s.kernel p ≠ none

theorem Inv.shmatSearch (h : Inv s) {shmid pages bottom : ℕ} {attempts : List (Option ℕ)}
    {wrapped : Bool} (hr : State.shmatSearch g shmid pages attempts s bottom wrapped = some r) :
    Kept s r := by
  obtain ⟨e, rfl⟩ | ⟨_, lower, _, s', -, -, hs', rfl⟩ := shmatSearch_cases _ _ _ hr
  · exact .error h e
  · have hm : Maps lower pages s s' := { maps_kernelMap hs' with }
    exact ⟨(h.of_maps hm).congr rfl rfl rfl rfl, by rintro _ ⟨⟩,
      fun p hp => (congrFun hm.occupied p).trans hp⟩

theorem Inv.shmat (h : Inv s) {q : ShmatArgs} {a : ShmatAnswers} (hok : ShmatOk g q a)
    (hr : s.shmat g q a = some r) : Kept s r := by
  rw [State.shmat] at hr
  split at hr
  · rename_i had
    obtain ⟨hctl, hsz⟩ := hok had
    rw [shmatFixed] at hr
    split at hr
    · cases hr
      exact .error h _
    split at hr
    · cases hr
      exact .error h _
    · rw [hsz] at hr
      obtain ⟨s', hs', rfl⟩ := Option.map_eq_some_iff.1 hr
      exact .of_maps h (maps_setUsedPages hs' (fun _ => kernel_ne_none_iff) rfl rfl rfl) _
  split at hr
  · exact h.shmatSearch hr
  · cases hr
    exact .error h _

theorem Inv.shmdt (h : Inv s) {shmaddr : ℕ} {a : ShmdtAnswers} (hok : ShmdtOk g s shmaddr a)
    (hr : s.shmdt shmaddr a = some r) : Kept s r := by
  rw [State.shmdt] at hr
  split at hr
  · cases hr
    exact .error h _
  · obtain ⟨s₁, hs₁, rfl⟩ := Option.map_eq_some_iff.1 hr
    rw [freeSegment, if_pos hok.answers.1, setFreePages] at hs₁
    split at hs₁
    · cases hs₁
      simp only [hok.answers.2]
      have hunm : Unmaps (shmaddr / guestPage % 2 ^ 32) (pagesOf a.segsz) s { s with
            mappedPages := fun p =>
              !inRange (shmaddr / guestPage % 2 ^ 32) (pagesOf a.segsz) p && s.mappedPages p
            kernel := (s.kernelDetach (shmaddr / guestPage % 2 ^ 32)).kernel } := by
        refine ⟨fun p => ?_, fun _ => rfl, rfl, rfl⟩
        have hp := hok.pages p
        simp only [kernelDetach]
        split
        · rename_i heq
          rw [(hp.1 heq).1]
          exact ⟨fun hk => absurd rfl hk, fun hk => absurd hk.1 Bool.noConfusion⟩
        · rename_i hne
          refine ⟨fun hk => ⟨Bool.eq_false_iff.2 fun hin => hne (hp.2 ⟨hin, hk⟩), hk⟩, fun h => h.2⟩
      exact ⟨(h.of_unmaps hunm).congr rfl rfl rfl rfl, nofun, fun _ hp => hp⟩
    · cases hs₁

/-! ### Runs -/

/-- Calls and answers that keep the bookkeeping. -/
inductive Careful (g : HostPages) (s : State) : Call → Prop
  | mmap {q : MmapArgs} {a : MmapAnswers} (h : MmapOk g s q a) : Careful g s (.mmap q a)
  | munmap {addr length : ℕ} {answers : ℕ → Option ℕ} (h : MunmapOk g s addr length answers) :
      Careful g s (.munmap addr length answers)
  | mremap {q : MremapArgs} {a : MremapAnswers} (h : MremapOk g s q a) : Careful g s (.mremap q a)
  | shmat {q : ShmatArgs} {a : ShmatAnswers} (h : ShmatOk g q a) : Careful g s (.shmat q a)
  | shmdt {shmaddr : ℕ} {a : ShmdtAnswers} (h : ShmdtOk g s shmaddr a) :
      Careful g s (.shmdt shmaddr a)
  | reserveHostRange (base length : ℕ) : Careful g s (.reserveHostRange base length)

theorem Inv.reserveHostRange (h : Inv s) (base length : ℕ) :
    Inv (s.reserveHostRange base length) := by
  refine ⟨fun p hp => ?_, fun p hp => ?_⟩
  · simp [State.reserveHostRange, h.marked p hp]
  · simp only [State.reserveHostRange, Bool.or_eq_true] at hp
    rcases hp with hp | hp
    · exact .inl (.inl (by simp [State.reserveHostRange, hp]))
    · refine (h.backed p hp).imp ?_ id
      rintro (he | he)
      · exact .inl (by simp [State.reserveHostRange, he])
      · exact .inr he

theorem Inv.step (h : Inv s) {c : Call} (hc : Careful g s c) (hr : step g s c = some r) :
    Kept s r := by
  cases hc with
  | mmap hok => exact h.mmap hok hr
  | munmap hok => exact h.munmap hok hr
  | mremap hok => exact h.mremap hok hr
  | shmat hok => exact h.shmat hok hr
  | shmdt hok => exact h.shmdt hok hr
  | reserveHostRange base length =>
    cases hr
    exact ⟨h.reserveHostRange base length, nofun, fun _ hp => hp⟩

theorem inv_initial : Inv initial := ⟨fun _ hp => absurd rfl hp, fun _ hp => .inl (.inr (.inl hp))⟩

/-- **The bookkeeping matches the kernel** in every state of a run of careful calls, and a careful
call that fails leaves it as it was. -/
theorem bookkeeping_matches_kernel (g : HostPages) (calls : List Call) (s : State)
    (hrun : (machine g).Run (Careful g) initial calls s) :
    (∀ p, s.kernel p ≠ none → s.mappedPages p = true) ∧
      (∀ p, s.kernel p = none → ¬s.Exempt p → s.mappedPages p = false) ∧
      ∀ c, Careful g s c → ∀ s' e, step g s c = some (s', .error e) →
        ∀ p, s'.mappedPages p ≠ s.mappedPages p → s'.occupied p = true := by
  have hinv : Inv s := by
    refine hrun.invariant inv_initial fun s c s' hs hc hst => ?_
    obtain ⟨a, hst⟩ := hst
    exact (hs.step hc hst).inv
  refine ⟨hinv.marked, fun p hk hexe => ?_, fun c hc s' e hst => ?_⟩
  · rw [Bool.eq_false_iff]
    intro hp
    exact (hinv.backed p hp).elim hexe fun hk' => hk' hk
  · exact (hinv.step hc hst).unchanged e rfl

/-- A request of some pages anywhere. -/
def anywhere (length : ℕ) : MmapArgs where
  addr := 0
  length := length
  prot := 3
  fixed := false
  noreplace := false
  map32Bit := false
  shared := false
  anonymous := true
  offset := none

/-- The kernel does what it is asked for. -/
def obliging : MmapAnswers where
  attempts := [⟨none, fun _ => false, none, none, true⟩]
  granule _ := ⟨none, none, none⟩
  direct := none

theorem obliging_ok (g : HostPages) (s : State) (length : ℕ) :
    MmapOk g s (anywhere length) obliging :=
  ⟨⟨fun _ => rfl, nofun⟩, fun h => h.elim nofun nofun⟩

theorem bookkeeping_matches_kernel_anywhere :
    ∃ s, (machine .k64).Run (Careful .k64) initial [.mmap (anywhere 4096) obliging] s ∧
      s.kernel 0xFFFE0 ≠ none ∧ s.mappedPages 0xFFFE0 = true ∧
      ∀ c, Careful .k64 s c → ∀ s' e, step .k64 s c = some (s', .error e) →
        ∀ p, s'.mappedPages p ≠ s.mappedPages p → s'.occupied p = true := by
  have hsm : ((step .k64 initial (.mmap (anywhere 4096) obliging)).any fun r =>
      (r.1.kernel 0xFFFE0).isSome) = true := by decide +kernel
  obtain ⟨r, hr, hk⟩ := (Option.any_eq_true _ _).1 hsm
  have hrun : (machine .k64).Run (Careful .k64) initial [.mmap (anywhere 4096) obliging] r.1 :=
    .cons (.mmap (obliging_ok _ _ _)) ⟨r.2, hr⟩ (.nil _)
  obtain ⟨hmar, -, hfl⟩ := bookkeeping_matches_kernel .k64 _ _ hrun
  have hk : r.1.kernel 0xFFFE0 ≠ none := Option.isSome_iff_ne_none.1 hk
  exact ⟨r.1, hrun, hk, hmar _ hk, hfl⟩

/-- Four ways in which the bookkeeping drifts from the kernel.  A mapping that could not be moved
leaves its reservation behind; a successful `MREMAP_FIXED` goes on to a second move, which fails;
a segment attached at a given address is marked without its last page; and on a host with 64K pages
an unmapped page of a granule stays mapped. -/
theorem bookkeeping_drifts :
    ((step .k4 initial (.mremap ⟨0x20000, 4096, 8192, true, false, false, 0⟩
        ⟨some 14, obliging, some 14⟩)).any fun r =>
      r.2 == .error (.kernel 14) && r.1.mappedPages 0xFFFFD && !initial.mappedPages 0xFFFFD &&
        !r.1.occupied 0xFFFFD) = true ∧
      ((step .k4 initial (.mremap ⟨0x20000, 4096, 4096, true, true, false, 0x30000⟩
        ⟨none, obliging, some 14⟩)).any fun r =>
      r.2 == .error (.kernel 14) && r.1.mappedPages 0x30 && !initial.mappedPages 0x30 &&
        !r.1.occupied 0x30) = true ∧
      ((step .k4 initial (.shmat ⟨0, 0x20000⟩ ⟨100, true, .ok 0x20000, []⟩)).any fun r =>
      r.2 == .ok 0x20000 && (r.1.kernel 0x20).isSome && !r.1.mappedPages 0x20) = true ∧
      ((step .k64 initial (.mmap (anywhere 4096) obliging)).any fun r =>
      (step .k64 r.1 (.munmap 0xFFFE0000 4096 fun _ => none)).any fun r' =>
        r'.2 == .ok 0 && (r'.1.kernel 0xFFFE0).isSome && !r'.1.mappedPages 0xFFFE0) = true := by
  decide +kernel

end FastPPC.Alloc32
