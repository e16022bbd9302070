import FastPPC.Alloc.Remap
import FastPPC.Alloc.Retry

/-!
# Pages reserved for the host

`ReserveHostRange` takes pages away from a 32-bit guest: they hold trampolines that the host runs.
The pages are marked, so that no search proposes them, and the calls that act on an address of the
guest's choice test the range for them.  The tests count guest pages, the kernel acts on host pages,
and the calls for shared memory have no test.

* `Respected` : what a part of a call may do to a set of marked pages: they stay marked, and the
  calls to the kernel do not touch them;
* `Respected.mmap`, `Respected.munmap`, `Respected.mremap`, `Respected.shmat` : the calls;
* `State.subGranuleLoop_spares_iff` : the requests that are emulated host page by host page;
* `lowMark_of_run` : the first pages, which the constructor marks for the kernel;
* `reserved_untouched_iff` : the calls that leave the reserved pages alone, in every run.
-/

namespace FastPPC.Alloc32

open State List Function

variable {h : HostPages} {s s₁ s' : State} {first n : ℕ}

/-! ### Reserved pages -/

variable {P touches : ℕ → Bool}

/-- A call does not touch the reserved pages. -/
def HostCall.Spares (c : HostCall) (reserved : ℕ → Bool) : Prop :=
  ∀ p, reserved p = true → c.touches p = false

/-- The pages of the set are marked. -/
def State.Guarded (s : State) (P : ℕ → Bool) : Prop :=
  ∀ p, P p = true → s.mappedPages p = true ∧ p < pageCount

/-- The calls between two states do not touch the pages reserved at the first. -/
def State.CallsSpare (s s' : State) : Prop :=
  ∃ calls, s'.issued = calls ++ s.issued ∧ ∀ c ∈ calls, c.Spares s.hostReservedPages

/-- What is asked of a call: no reserved page is unmarked and none is touched. -/
def State.Untouched (s s' : State) : Prop :=
  (∀ p, s'.hostReservedPages p = true → s'.mappedPages p = true) ∧ s.CallsSpare s'

/-- None of the pages is in the set. -/
def Clear (P touches : ℕ → Bool) : Prop := ∀ p, P p = true → touches p = false

theorem clear_inRange (h : ∀ p, P p = true → first ≤ p → ¬p < first + n) :
    Clear P (inRange first n) := by
  intro p hp
  rw [Bool.eq_false_iff]
  intro hin
  obtain ⟨h1, h2⟩ := inRange_iff.1 hin
  exact h p hp h1 h2

/-- What a part of a call may do to a set of marked pages. -/
structure Respected (P : ℕ → Bool) (s s' : State) : Prop where
  reserved : s'.hostReservedPages = s.hostReservedPages
  guarded : s'.Guarded P
  calls : ∃ calls, s'.issued = calls ++ s.issued ∧ ∀ c ∈ calls, c.Spares P

namespace Respected

theorem refl (hg : s.Guarded P) : Respected P s s := ⟨rfl, hg, [], rfl, forall_mem_nil _⟩

theorem trans (h₁ : Respected P s s₁) (h₂ : Respected P s₁ s') : Respected P s s' := by
  obtain ⟨calls, hiss, hcal⟩ := h₁.calls
  obtain ⟨calls', hiss', hcal'⟩ := h₂.calls
  refine ⟨h₂.reserved.trans h₁.reserved, h₂.guarded, calls' ++ calls, ?_, ?_⟩
  · rw [hiss', hiss, append_assoc]
  · exact forall_mem_append.2 ⟨hcal', hcal⟩

theorem untouched (hs : Respected s.hostReservedPages s s') : s.Untouched s' :=
  ⟨fun p hp => (hs.guarded p (hs.reserved ▸ hp)).1, hs.calls⟩

/-- The other fields do not matter. -/
theorem congr (hs : Respected P s s₁) (hr : s'.hostReservedPages = s₁.hostReservedPages)
    (hm : s'.mappedPages = s₁.mappedPages) (hi : s'.issued = s₁.issued) : Respected P s s' := by
  refine ⟨hr.trans hs.reserved, fun p hp => ?_, ?_⟩
  · rw [hm]
    exact hs.guarded p hp
  · rw [hi]
    exact hs.calls

section

variable (hs : Respected P s s') (first n : ℕ)
include hs

theorem kernelMap (b : Backing) : Respected P s (s'.kernelMap first n b) := hs.congr rfl rfl rfl

theorem kernelUnmap : Respected P s (s'.kernelUnmap first n) := hs.congr rfl rfl rfl

theorem kernelExtend : Respected P s (s'.kernelExtend first n) := hs.congr rfl rfl rfl

end

theorem issue (hs : Respected P s s') (effect : Effect) (hapa : Clear P touches) :
    Respected P s (s'.issue effect touches) := by
  obtain ⟨calls, hiss, hcal⟩ := hs.calls
  refine ⟨hs.reserved, hs.guarded, ⟨effect, touches⟩ :: calls, ?_, forall_mem_cons.2 ⟨hapa, hcal⟩⟩
  rw [State.issue, hiss, cons_append]

theorem setUsedPages (hs : Respected P s s₁) (hset : s₁.setUsedPages first n = some s') :
    Respected P s s' := by
  obtain ⟨-, rfl⟩ := setUsedPages_eq_some_iff.1 hset
  refine ⟨hs.reserved, fun p hp => ?_, hs.calls⟩
  obtain ⟨hmar, hlt⟩ := hs.guarded p hp
  exact ⟨by simp [hmar], hlt⟩

theorem setFreePages (hs : Respected P s s₁) (hset : s₁.setFreePages first n = some s')
    (hapa : Clear P (inRange first n)) : Respected P s s' := by
  obtain ⟨-, rfl⟩ := setFreePages_eq_some_iff.1 hset
  refine ⟨hs.reserved, fun p hp => ?_, hs.calls⟩
  obtain ⟨hmar, hlt⟩ := hs.guarded p hp
  exact ⟨by simp only [hmar, hapa p hp, Bool.not_false, Bool.and_true], hlt⟩

theorem noteGranuleProt (hs : Respected P s s') (first n prot : ℕ) :
    Respected P s (s'.noteGranuleProt h first n prot) := by
  rw [State.noteGranuleProt]
  split
  · exact hs
  · exact hs.congr rfl rfl rfl

end Respected

namespace State.Guarded

/-- The test at the entry points. -/
theorem apart_of_overlaps (hg : s.Guarded s.hostReservedPages)
    (hov : s.overlapsHostReservation first n = false) :
    Clear s.hostReservedPages (inRange first n) := by
  refine clear_inRange fun p hp h1 h2 => ?_
  rw [overlapsHostReservation, any_eq_false] at hov
  have hts := hov (p - first) (mem_range.2 (by omega))
  rw [Nat.add_sub_cancel' h1, hp, decide_eq_true (hg p hp).2] at hts
  exact hts rfl

/-- Pages that are not marked are not in the set. -/
theorem apart_of_free (hg : s.Guarded P) (hfr : ∀ p, touches p = true → s.mappedPages p = false) :
    Clear P touches := by
  intro p hp
  rw [Bool.eq_false_iff]
  intro hin
  exact absurd ((hg p hp).1.symm.trans (hfr p hin)) nofun

end State.Guarded

/-! ### Requests without an address -/

variable {bottom : ℕ}

variable {r : State × Answer}

namespace State

theorem findPageRangeFrom_free {pages : ℕ} : ∀ fuel start lower,
    s.findPageRangeFrom h pages fuel start = some lower → lower ≠ 0 →
      ∀ p, inRange lower pages p = true → s.mappedPages p = false
  | 0, _, _, hfn, hne => by
    cases hfn
    exact absurd rfl hne
  | fuel + 1, start, lower, hfn, hne => by
    rw [findPageRangeFrom] at hfn
    split at hfn
    · rcases firstUsedBelow_cases s start pages 0 (Nat.zero_le _) with
        ⟨heq, -⟩ | ⟨heq, hle, hfr⟩ | ⟨o, heq, -⟩
      · simp only [heq] at hfn
        cases hfn
      · simp only [heq, Option.some.injEq] at hfn
        intro p hp
        obtain ⟨h1, h2⟩ := inRange_iff.1 hp
        exact hfr p (by omega) (by omega)
      · simp only [heq] at hfn
        split at hfn
        · cases hfn
          exact absurd rfl hne
        · exact findPageRangeFrom_free fuel _ lower hfn hne
    · cases hfn
      exact absurd rfl hne

/-- The range a scan proposes is free. -/
theorem findTwice_unmarked {key pages lower next : ℕ}
    (hfn : s.findTwice h bottom key pages = some (lower, next)) (hne : lower ≠ 0) :
    ∀ p, inRange lower pages p = true → s.mappedPages p = false := by
  obtain ⟨lower', hfir, hfn⟩ := Option.bind_eq_some_iff.1 hfn
  split at hfn
  · obtain ⟨lower'', hsec, heq⟩ := Option.map_eq_some_iff.1 hfn
    cases heq
    exact findPageRangeFrom_free _ _ _ hsec hne
  · cases hfn
    exact findPageRangeFrom_free _ _ _ hfir hne

end State

namespace Respected

variable {pages : ℕ}

variable {q : MmapArgs}

theorem mapCalls (hg : s.Guarded P) {lower : ℕ}
    (hapa : Clear P (inRange lower pages)) : Respected P s (s.mapCalls h q lower pages) := by
  rw [State.mapCalls]
  split
  · exact (((refl hg).issue _ hapa).issue _ hapa).issue _ hapa
  · exact (refl hg).issue _ hapa

theorem mapFound (hg : s.Guarded P) {lower : ℕ} {a : Attempt}
    (hapa : Clear P (inRange lower pages)) (hr : s.mapFound h q lower pages a = some r) :
    Respected P s r.1 := by
  have hcal : Respected P s (s.mapCalls h q lower pages) := mapCalls hg hapa
  rw [State.mapFound] at hr
  split at hr
  · cases hr
    split
    · exact hcal.issue _ hapa
    · exact hcal.congr rfl rfl rfl
  · obtain ⟨s', hs', rfl⟩ := Option.map_eq_some_iff.1 hr
    have hset : Respected P s { s' with lastScanLocation := lower } :=
      ((hcal.kernelMap _ _ _).setUsedPages hs').congr rfl rfl rfl
    exact hset.noteGranuleProt _ _ _

theorem markCollisions (hg : s.Guarded P) {lower : ℕ} {mincore : ℕ → Bool}
    (hs : s.markCollisions lower pages mincore = some s') : Respected P s s' := by
  rw [State.markCollisions] at hs
  split at hs
  · cases hs
    refine ⟨rfl, fun p hp => ?_, [], rfl, forall_mem_nil _⟩
    obtain ⟨hmar, hlt⟩ := hg p hp
    exact ⟨by simp [hmar], hlt⟩
  · exact (refl hg).setUsedPages hs

theorem allocates {lastKey : ℕ} {attempts : List Attempt}
    (hr : Allocates h q pages lastKey attempts s bottom r) (hg : s.Guarded P) :
    Respected P s r.1 := by
  induction hr with
  | refused => exact refl hg
  | mapped hfn hne _ hfou => exact mapFound hg (hg.apart_of_free (findTwice_unmarked hfn hne)) hfou
  | collides _ _ hmr _ ih =>
    have hmar := markCollisions hg hmr
    exact hmar.trans (ih hmar.guarded)

theorem shmatSearch {shmid : ℕ} {attempts : List (Option ℕ)} {wrapped : Bool} (hg : s.Guarded P)
    (hr : shmatSearch h shmid pages attempts s bottom wrapped = some r) : Respected P s r.1 := by
  obtain ⟨e, rfl⟩ | ⟨_, lower, _, s', hfn, hne, hs', rfl⟩ := shmatSearch_cases _ _ _ hr
  · exact refl hg
  · have hcl := (refl hg).issue .map (hg.apart_of_free (findTwice_unmarked hfn hne))
    exact ((hcl.kernelMap _ _ _).setUsedPages hs').congr rfl rfl rfl

/-! ### `Munmap` -/

/-- A granule that goes back to the kernel has no marked page. -/
theorem releaseGranules (answers : ℕ → Option ℕ) : ∀ (granules : List ℕ) (s : State),
    s.Guarded P → Respected P s (releaseGranules h answers granules s).1
  | [], _, hg => refl hg
  | granule :: granules, s, hg => by
    rw [State.releaseGranules]
    split
    · exact releaseGranules answers granules s hg
    rename_i hlv
    split
    · exact refl hg
    have hapa : Clear P (granulePages h granule) := by
      refine clear_inRange fun p hp h1 h2 => ?_
      rw [Bool.not_eq_true, granuleHasOtherLivePages, any_eq_false] at hlv
      have hts := hlv (p - granule) (mem_range.2 (by omega))
      obtain ⟨hmar, hlt⟩ := hg p hp
      rw [Nat.add_sub_cancel' h1, hmar, decide_eq_true hlt] at hts
      simp at hts
    have hcl := (refl hg).issue .unmap hapa
    have hfre : Respected P s
        { (s.issue .unmap (granulePages h granule)).kernelUnmap granule h.granule with
          granuleProt := update s.granuleProt granule none } := hcl.congr rfl rfl rfl
    exact hfre.trans (releaseGranules answers granules _ hfre.guarded)

theorem munmap (hg : s.Guarded P) {addr length : ℕ} {answers : ℕ → Option ℕ}
    (hcl : 16 ≤ addr / guestPage →
      s.overlapsHostReservation (addr / guestPage) (pagesOf length) = false →
      Clear P (inRange (addr / guestPage) (pagesOf length)))
    (hr : s.munmap h addr length answers = some r) : Respected P s r.1 := by
  rw [State.munmap] at hr
  iterate 4
    split at hr
    · cases hr
      exact refl hg
  rename_i hlow hov
  have hapa := hcl (Nat.le_of_not_lt hlow) (Bool.eq_false_iff.2 hov)
  split at hr
  · obtain ⟨s₁, hs₁, rfl⟩ := Option.map_eq_some_iff.1 hr
    have hfr := (refl hg).setFreePages hs₁ hapa
    have hlp := hfr.trans (releaseGranules (h := h) answers
      (granulesBetween h (granuleFloor h (addr / guestPage))
        (granuleCeil h (addr / guestPage + pagesOf length))) s₁ hfr.guarded)
    split
    · rename_i heq
      rwa [heq] at hlp
    · rename_i heq
      rwa [heq] at hlp
  · split at hr
    · cases hr
      exact refl hg
    · obtain ⟨s', hs', rfl⟩ := Option.map_eq_some_iff.1 hr
      exact (((refl hg).issue .unmap hapa).kernelUnmap _ _).setFreePages hs' hapa

/-! ### `Mmap` and `Mremap` -/

end Respected

/-- A request at a fixed address that is emulated host page by host page: it passes the checks, and
it is not aligned to host pages. -/
structure State.Emulated (h : HostPages) (s : State) (q : MmapArgs) : Prop where
  aligned : q.addr % guestPage = 0
  offset : ¬(q.offset.any fun o => o % guestPage != 0) = true
  below : ¬2 ^ 32 - 1 < wadd q.addr q.length
  page : ¬((q.fixed || q.noreplace) && decide (q.addr / guestPage < 16)) = true
  copied : ¬(q.shared && q.offset.any fun o => !hostAligned h o) = true
  fixed : (q.fixed || q.noreplace) = true
  apart : ¬s.overlapsHostReservation (q.addr / guestPage) (pagesOf q.length) = true
  unaligned : h.granule ≠ 1 ∧ (!hostAligned h q.addr ∨
    pagesOf q.length ≠ alignPagesUp h (pagesOf q.length) ∨
    q.offset.any (fun o => !hostAligned h o))
  free : ¬(q.noreplace && !q.fixed &&
    (List.range (pagesOf q.length)).any fun i => s.mappedPages (q.addr / guestPage + i)) = true

theorem State.Emulated.mmap_eq {q : MmapArgs} (he : s.Emulated h q) (a : MmapAnswers) :
    s.mmap h q a = s.mmapSubGranule h q a.granule := by
  rw [mmap, if_neg (not_not.2 he.aligned), if_neg he.offset, if_neg he.below, if_neg he.page,
    if_neg he.copied, if_pos he.fixed, mmapFixed, if_neg he.apart, if_pos he.unaligned,
    if_neg he.free]

namespace Respected

/-- **The other requests.** -/
theorem mmap (hg : s.Guarded P) {q : MmapArgs} {a : MmapAnswers} (hnot : ¬s.Emulated h q)
    (hcl : q.fixed || q.noreplace → 16 ≤ q.addr / guestPage →
      s.overlapsHostReservation (q.addr / guestPage) (pagesOf q.length) = false →
      Clear P (inRange (q.addr / guestPage) (pagesOf q.length)))
    (hr : s.mmap h q a = some r) : Respected P s r.1 := by
  rw [State.mmap] at hr
  iterate 5
    split at hr
    · cases hr
      exact refl hg
  rename_i hali hoff hbel hpg hcop
  split at hr
  · rename_i hfix
    rw [mmapFixed] at hr
    split at hr
    · cases hr
      exact refl hg
    rename_i hov
    split at hr
    · rename_i huna
      split at hr
      · cases hr
        exact refl hg
      · rename_i hfr
        exact absurd ⟨not_not.1 hali, hoff, hbel, hpg, hcop, hfix, hov, huna, hfr⟩ hnot
    · split at hr
      · cases hr
        exact refl hg
      · obtain ⟨s', hs', rfl⟩ := Option.map_eq_some_iff.1 hr
        rw [hfix, Bool.true_and, decide_eq_true_iff] at hpg
        have hapa := hcl hfix (Nat.le_of_not_lt hpg) (Bool.eq_false_iff.2 hov)
        have hcal := (refl hg).issue .map hapa
        exact ((hcal.kernelMap _ _ _).setUsedPages hs').noteGranuleProt _ _ _
  · exact allocates (allocateNoHint_cases _ _ _ hr) hg

variable {q : MremapArgs} {a : MremapAnswers}

theorem moved (hs : Respected P s s₁) {keepOld : Bool}
    (hold : Clear P (inRange (q.oldAddress / guestPage) (q.oldPages h)))
    (hnew : Clear P (inRange first (q.newPages h))) (hmov : s₁.moved h q keepOld first = some s') :
    Respected P s s' := by
  have hcl : Respected P s (s₁.moveCall h q first) := hs.issue _ fun p hp => by
    rw [hold p hp, hnew p hp]
    rfl
  rw [State.moved] at hmov
  split at hmov
  · exact (hcl.kernelMap _ _ _).setUsedPages hmov
  · obtain ⟨s₂, hs₂, hmov⟩ := Option.bind_eq_some_iff.1 hmov
    have hfr := (hcl.kernelUnmap _ _).setFreePages hs₂ hold
    exact (hfr.kernelMap _ _ _).setUsedPages hmov

/-- The reservation for a move, and the range it gets. -/
theorem reservation (hg : s.Guarded P) {answer : Answer}
    (hr : s.mmap h q.reservation a.reserve = some (s', answer)) :
    Respected P s s' ∧
      ∀ ptr, answer = .ok ptr → Clear P (inRange (ptr / guestPage) (q.newPages h)) := by
  have hnot : ¬s.Emulated h q.reservation := fun he => Bool.false_ne_true he.fixed
  have hs : Respected P s s' := mmap hg hnot (fun hf => absurd hf Bool.false_ne_true) hr
  refine ⟨hs, fun ptr hptr p hp => ?_⟩
  rw [hptr] at hr
  obtain ⟨-, -, -, hiss⟩ := reservation_ptr hr
  obtain ⟨calls, hiss', hcal⟩ := hs.calls
  have heq : calls = [_] := append_right_unique hiss' hiss
  rw [heq] at hcal
  exact hcal _ mem_cons_self p hp

theorem mremapMove (hg : s.Guarded P)
    (hold : Clear P (inRange (q.oldAddress / guestPage) (q.oldPages h)))
    (hr : s.mremapMove h q a = some r) : Respected P s r.1 := by
  cases mremapMove_cases.1 hr with
  | refused hmm => exact (reservation hg hmm).1
  | stuck hmm _ => exact (reservation hg hmm).1
  | moved hmm _ hmov =>
    obtain ⟨hs, hnew⟩ := reservation hg hmm
    exact hs.moved hold (hnew _ rfl) hmov

theorem mremap (hg : s.Guarded P)
    (hold : s.overlapsHostReservation (q.oldAddress / guestPage) (q.oldPages h) = false →
      Clear P (inRange (q.oldAddress / guestPage) (q.oldPages h)))
    (hnew : q.fixed = true →
      s.overlapsHostReservation (q.newAddress / guestPage) (q.newPages h) = false →
      Clear P (inRange (q.newAddress / guestPage) (q.newPages h)))
    (hr : s.mremap h q a = some r) : Respected P s r.1 := by
  rw [State.mremap] at hr
  split at hr
  · cases hr
    exact refl hg
  rename_i hov
  rw [Bool.not_eq_true, Bool.or_eq_false_iff] at hov
  have hold := hold hov.1
  split at hr
  · rename_i hfix
    rw [hfix, Bool.true_and] at hov
    split at hr
    · cases hr
      exact refl hg
    · obtain ⟨s₁, hmov, hr⟩ := Option.bind_eq_some_iff.1 hr
      have hs₁ := (refl hg).moved hold (hnew hfix hov.2) hmov
      exact hs₁.trans (mremapMove hs₁.guarded hold hr)
  split at hr
  · -- the pages given up are pages of the old range
    have htl : Clear P (inRange (q.oldAddress / guestPage + q.newPages h)
        (q.oldPages h - q.newPages h)) := by
      refine clear_inRange fun p hp h1 h2 => ?_
      exact absurd (inRange_iff.2 ⟨by omega, by omega⟩) (Bool.eq_false_iff.1 (hold p hp))
    split at hr
    · cases hr
      exact refl hg
    · obtain ⟨s', hs', rfl⟩ := Option.map_eq_some_iff.1 hr
      exact (((refl hg).issue .unmap htl).kernelUnmap _ _).setFreePages hs' htl
  split at hr
  · rename_i hext
    split at hr
    · obtain ⟨s', hs', rfl⟩ := Option.map_eq_some_iff.1 hr
      -- the pages it grows into are not marked
      have hfr : ∀ p, inRange (q.oldAddress / guestPage + q.oldPages h)
          (q.newPages h - q.oldPages h) p = true → s.mappedPages p = false := by
        intro p hp
        obtain ⟨h1, h2⟩ := inRange_iff.1 hp
        rw [canExtend, all_eq_true] at hext
        have hbit := hext (p - (q.oldAddress / guestPage + q.oldPages h)) (mem_range.2 (by omega))
        rwa [Nat.add_sub_cancel' h1, Bool.not_eq_true'] at hbit
      have hcl := (refl hg).issue .map (hg.apart_of_free hfr)
      exact (hcl.kernelExtend _ _).setUsedPages hs'
    · split at hr
      · exact mremapMove hg hold hr
      · cases hr
        exact refl hg
  · exact mremapMove hg hold hr

end Respected

/-! ### Requests emulated host page by host page -/

variable {granules : List ℕ}

namespace State

variable {q : MmapArgs} {a : GranuleAnswer} {answers : ℕ → GranuleAnswer} {granule : ℕ}

/-- The granule holds a reserved page. -/
def HoldsReserved (h : HostPages) (s : State) (granule : ℕ) : Prop :=
  ∃ p, granulePages h granule p = true ∧ s.hostReservedPages p = true

/-- The pages of the granule that the request covers. -/
def covers (h : HostPages) (q : MmapArgs) (granule : ℕ) (p : ℕ) : Bool :=
  decide ((coveredPages h q.addr q.length granule).1 ≤ p) &&
    decide (p < (coveredPages h q.addr q.length granule).2)

/-- No call for the granule fails, so that the loop goes on. -/
def GranuleServed (h : HostPages) (s : State) (q : MmapArgs) (a : GranuleAnswer) (granule : ℕ) :
    Prop :=
  (s.replaces h q granule = true → a.mmap = none) ∧ (q.anonymous = false → a.readFully = none) ∧
    a.mprotect = none

/-- A granule that holds a reserved page is left alone: its protection need not be opened for the
write, and the file cannot be read, so that it is not set either. -/
def GranuleSpared (h : HostPages) (s : State) (q : MmapArgs) (a : GranuleAnswer) (granule : ℕ) :
    Prop :=
  s.HoldsReserved h granule →
    s.granuleWritable granule = true ∧ q.anonymous = false ∧ a.readFully ≠ none

/-- The granules that the loop reaches are left alone. -/
def GranulesSpared (h : HostPages) (s : State) (q : MmapArgs) (answers : ℕ → GranuleAnswer)
    (granules : List ℕ) : Prop :=
  ∀ before granule after, granules = before ++ granule :: after →
    (∀ g ∈ before, s.GranuleServed h q (answers g) g) →
      s.GranuleSpared h q (answers granule) granule

theorem granulesSpared_cons : s.GranulesSpared h q answers (granule :: granules) ↔
      s.GranuleSpared h q (answers granule) granule ∧
        (s.GranuleServed h q (answers granule) granule →
          s.GranulesSpared h q answers granules) := by
  constructor
  · intro hall
    refine ⟨hall [] granule granules rfl nofun, fun hser before g after heq hbef => ?_⟩
    exact hall (granule :: before) g after (by rw [heq, cons_append])
      (forall_mem_cons.2 ⟨hser, hbef⟩)
  · rintro ⟨hfir, hrs⟩ before g after heq hbef
    cases before with
    | nil =>
      cases heq
      exact hfir
    | cons b before =>
      cases heq
      obtain ⟨hser, hbef⟩ := forall_mem_cons.1 hbef
      exact hrs hser before g after rfl hbef

theorem spares_granule {effect : Effect} :
    (HostCall.mk effect (granulePages h granule)).Spares s.hostReservedPages ↔
      ¬s.HoldsReserved h granule := by
  refine ⟨fun hspa ⟨p, hp, hres⟩ => ?_, fun hnot p hres => ?_⟩
  · exact absurd ((hspa p hres).symm.trans hp) nofun
  · rw [Bool.eq_false_iff]
    exact fun hp => hnot ⟨p, hp, hres⟩

/-- A granule without other marked pages holds no reserved page. -/
theorem Guarded.not_holdsReserved (hg : s.Guarded s.hostReservedPages)
    (hcov : Clear s.hostReservedPages (covers h q granule))
    (hrep : s.replaces h q granule = true) : ¬s.HoldsReserved h granule := by
  rintro ⟨p, hp, hres⟩
  obtain ⟨h1, h2⟩ := inRange_iff.1 hp
  rw [replaces, Bool.not_eq_true', granuleHasOtherLivePages, any_eq_false] at hrep
  have hts := hrep (p - granule) (mem_range.2 (by omega))
  obtain ⟨hmar, hlt⟩ := hg p hres
  have hout := hcov p hres
  rw [covers] at hout
  rw [Nat.add_sub_cancel' h1, hmar, hout, decide_eq_true hlt] at hts
  exact hts rfl

section

variable (s : State) (q : MmapArgs) (a : GranuleAnswer) (granule : ℕ)

/-- What the turn of a granule leaves as it is. -/
theorem subGranuleOne_frame :
    (s.subGranuleOne h q a granule).1.hostReservedPages = s.hostReservedPages ∧
      (s.subGranuleOne h q a granule).1.mappedPages = s.mappedPages ∧
      ∀ g, g ≠ granule → (s.subGranuleOne h q a granule).1.granuleProt g = s.granuleProt g := by
  have htk : (s.takeGranule h q granule).hostReservedPages = s.hostReservedPages ∧
      (s.takeGranule h q granule).mappedPages = s.mappedPages ∧
      ∀ g, g ≠ granule → (s.takeGranule h q granule).granuleProt g = s.granuleProt g := by
    rw [takeGranule]
    split
    · exact ⟨rfl, rfl, fun g hg => update_of_ne hg _ _⟩
    split
    · exact ⟨rfl, rfl, fun _ _ => rfl⟩
    · exact ⟨rfl, rfl, fun _ _ => rfl⟩
  have hfl : ∃ calls, (s.takeGranule h q granule).fillGranule h q granule =
      { s.takeGranule h q granule with issued := calls } := by
    rw [fillGranule]
    split
    · exact ⟨_, rfl⟩
    · exact ⟨_, rfl⟩
  obtain ⟨calls, hcal⟩ := hfl
  rw [subGranuleOne, hcal]
  split
  · exact ⟨rfl, rfl, fun _ _ => rfl⟩
  split
  · exact htk
  · exact ⟨htk.1, htk.2.1, fun g hg => (update_of_ne hg _ _).trans (htk.2.2 g hg)⟩

theorem subGranuleOne_none_iff :
    (s.subGranuleOne h q a granule).2 = none ↔ s.GranuleServed h q a granule := by
  rw [subGranuleOne, GranuleServed]
  cases hrep : s.replaces h q granule <;> cases han : q.anonymous <;>
    cases hmm : a.mmap <;> cases hrd : a.readFully <;> simp

end

theorem takeGranule_calls (s : State) (q : MmapArgs) (granule : ℕ) : ∃ calls,
    (s.takeGranule h q granule).issued = calls ++ s.issued ∧
      ((∀ c ∈ calls, c.Spares s.hostReservedPages) ↔
        (s.HoldsReserved h granule → s.replaces h q granule = false →
          s.granuleWritable granule = true) ∧
        (s.HoldsReserved h granule → s.replaces h q granule = false)) := by
  rw [takeGranule]
  split
  · rename_i hrep
    refine ⟨[_], rfl, ?_⟩
    rw [forall_mem_singleton, spares_granule, hrep]
    simp
  rename_i hrep
  rw [Bool.not_eq_true] at hrep
  split
  · rename_i hwri
    refine ⟨[], rfl, ?_⟩
    simp [hrep, hwri]
  · rename_i hwri
    refine ⟨[_], rfl, ?_⟩
    rw [forall_mem_singleton, spares_granule, hrep]
    simp [hwri]

/-- The writes to a granule are to pages of the request. -/
theorem fillGranule_calls (s : State) (hcov : Clear s.hostReservedPages (covers h q granule)) :
    ∃ calls, (s.fillGranule h q granule).issued = calls ++ s.issued ∧
      ∀ c ∈ calls, c.Spares s.hostReservedPages := by
  rw [fillGranule]
  split
  · exact ⟨[], rfl, forall_mem_nil _⟩
  · exact ⟨[_], rfl, forall_mem_singleton.2 hcov⟩

theorem subGranuleOne_calls (hg : s.Guarded s.hostReservedPages)
    (hcov : Clear s.hostReservedPages (covers h q granule)) :
    ∃ calls, (s.subGranuleOne h q a granule).1.issued = calls ++ s.issued ∧
      ((∀ c ∈ calls, c.Spares s.hostReservedPages) ↔ s.GranuleSpared h q a granule) := by
  have hnot := hg.not_holdsReserved hcov
  have hres : (s.takeGranule h q granule).hostReservedPages = s.hostReservedPages := by
    rw [takeGranule]
    split
    · rfl
    split
    · rfl
    · rfl
  obtain ⟨taken, htak, htai⟩ := s.takeGranule_calls (h := h) q granule
  rw [Clear, ← hres] at hcov
  obtain ⟨filled, hfil, hfis⟩ := (s.takeGranule h q granule).fillGranule_calls hcov
  rw [hres] at hfis
  rw [subGranuleOne]
  split
  · -- the kernel refuses a fresh mapping
    rename_i hmm
    have hrep : s.replaces h q granule = true := by
      by_contra hno
      rw [if_neg hno] at hmm
      cases hmm
    exact ⟨[], rfl, iff_of_true (forall_mem_nil _) fun hhol => absurd hhol (hnot hrep)⟩
  have hwin : (∀ c ∈ filled ++ taken, c.Spares s.hostReservedPages) ↔
      (s.HoldsReserved h granule → s.granuleWritable granule = true) := by
    rw [forall_mem_append, htai]
    constructor
    · rintro ⟨-, h1, h2⟩ hhol
      exact h1 hhol (h2 hhol)
    · intro hw
      refine ⟨hfis, fun hhol _ => hw hhol, fun hhol => ?_⟩
      exact Bool.eq_false_iff.2 fun hrep => hnot hrep hhol
  split
  · rename_i hrd
    refine ⟨filled ++ taken, by rw [hfil, htak, append_assoc], ?_⟩
    have hpar : q.anonymous = false ∧ a.readFully ≠ none := by
      cases han : q.anonymous with
      | true =>
        rw [han, if_pos rfl] at hrd
        cases hrd
      | false =>
        rw [han, if_neg Bool.false_ne_true] at hrd
        exact ⟨rfl, by rw [hrd]; rintro ⟨⟩⟩
    rw [hwin, GranuleSpared]
    exact forall_congr' fun _ => ⟨fun hw => ⟨hw, hpar⟩, fun hall => hall.1⟩
  · rename_i hrd
    refine ⟨⟨.protect, granulePages h granule⟩ :: (filled ++ taken), ?_, ?_⟩
    · simp [issue, unionProt, hfil, htak]
    · rw [forall_mem_cons, spares_granule, hwin, GranuleSpared]
      constructor
      · rintro ⟨hno, -⟩ hhol
        exact absurd hhol hno
      · intro hspa
        -- the protection is set, so that the granule may not hold a reserved page
        have hno : ¬s.HoldsReserved h granule := by
          intro hhol
          obtain ⟨-, han, hfl⟩ := hspa hhol
          rw [han, if_neg Bool.false_ne_true] at hrd
          exact hfl hrd
        exact ⟨hno, fun hhol => absurd hhol hno⟩

/-- The conditions look at marks, reserved pages and the protection of the granules. -/
theorem granulesSpared_congr (hr : s'.hostReservedPages = s.hostReservedPages)
    (hm : s'.mappedPages = s.mappedPages)
    (hpr : ∀ g ∈ granules, s'.granuleProt g = s.granuleProt g) :
    s'.GranulesSpared h q answers granules ↔ s.GranulesSpared h q answers granules := by
  have hser : ∀ g, s'.GranuleServed h q (answers g) g ↔ s.GranuleServed h q (answers g) g := by
    intro g
    rw [GranuleServed, GranuleServed, replaces_congr hm]
  have hspa : ∀ g ∈ granules,
      (s'.GranuleSpared h q (answers g) g ↔ s.GranuleSpared h q (answers g) g) := by
    intro g hmem
    simp [GranuleSpared, HoldsReserved, granuleWritable, granuleUnionProt, hr, hpr g hmem]
  refine forall_congr' fun before => forall_congr' fun g => forall_congr' fun after =>
    forall_congr' fun heq => ?_
  have hmem : g ∈ granules := by
    rw [heq]
    exact mem_append_right _ mem_cons_self
  rw [hspa g hmem]
  exact imp_congr (forall_congr' fun b => forall_congr' fun _ => hser b) Iff.rfl

/-- The loop leaves the marks as they are. -/
theorem subGranuleLoop_frame (q : MmapArgs) (answers : ℕ → GranuleAnswer) :
    ∀ (granules : List ℕ) (s : State),
      (subGranuleLoop h q answers granules s).1.hostReservedPages = s.hostReservedPages ∧
        (subGranuleLoop h q answers granules s).1.mappedPages = s.mappedPages
  | [], _ => ⟨rfl, rfl⟩
  | granule :: granules, s => by
    obtain ⟨hr, hm, -⟩ := s.subGranuleOne_frame (h := h) q (answers granule) granule
    rw [subGranuleLoop]
    split
    · rename_i heq
      rw [heq] at hr hm
      exact ⟨hr, hm⟩
    · rename_i s₁ heq
      rw [heq] at hr hm
      obtain ⟨hr', hm'⟩ := subGranuleLoop_frame q answers granules s₁
      exact ⟨hr'.trans hr, hm'.trans hm⟩

/-- **The loop over the granules**, by induction on them. -/
theorem subGranuleLoop_spares_iff (q : MmapArgs) (answers : ℕ → GranuleAnswer) :
    ∀ (granules : List ℕ) (s : State), s.Guarded s.hostReservedPages → granules.Nodup →
      (∀ g ∈ granules, Clear s.hostReservedPages (covers h q g)) →
    ∃ calls, (subGranuleLoop h q answers granules s).1.issued = calls ++ s.issued ∧
      ((∀ c ∈ calls, c.Spares s.hostReservedPages) ↔ s.GranulesSpared h q answers granules)
  | [], s, _, _, _ => ⟨[], rfl, iff_of_true (forall_mem_nil _) fun before g after heq =>
      absurd heq (by simp)⟩
  | granule :: granules, s, hg, hnod, hcov => by
    obtain ⟨hcof, hcor⟩ := forall_mem_cons.1 hcov
    obtain ⟨hnew, hnod⟩ := nodup_cons.1 hnod
    obtain ⟨hr, hm, hpr⟩ := s.subGranuleOne_frame (h := h) q (answers granule) granule
    obtain ⟨calls, hiss, hiff⟩ := subGranuleOne_calls (a := answers granule) hg hcof
    have hser := s.subGranuleOne_none_iff (h := h) q (answers granule) granule
    rw [subGranuleLoop]
    rw [granulesSpared_cons, ← hser, ← hiff]
    split
    · rename_i s₁ e heq
      rw [heq] at hr hm hiss hser ⊢
      exact ⟨calls, hiss, fun hc => ⟨hc, by rintro ⟨⟩⟩, fun hc => hc.1⟩
    · rename_i s₁ heq
      rw [heq] at hr hm hpr hiss hser ⊢
      obtain ⟨calls', hiss', hiff'⟩ := subGranuleLoop_spares_iff q answers granules s₁
        (fun p hp => by rw [hm]; exact hg p (by rwa [← hr])) hnod (by rwa [hr])
      rw [granulesSpared_congr hr hm fun g hmem => hpr g fun h => hnew (h ▸ hmem), hr] at hiff'
      refine ⟨calls' ++ calls, ?_, ?_⟩
      · rw [hiss', hiss, append_assoc]
      · rw [forall_mem_append, hiff', and_comm]
        exact and_congr_right fun _ => ⟨fun h _ => h, fun h => h rfl⟩

/-- The pages a request covers in a granule are pages of the request. -/
theorem inRange_of_covers (hali : q.addr % guestPage = 0)
    (hbel : ¬2 ^ 32 - 1 < wadd q.addr q.length) {p : ℕ} (hp : covers h q granule p = true) :
    inRange (q.addr / guestPage) (pagesOf q.length) p = true := by
  rw [covers, Bool.and_eq_true, decide_eq_true_iff, decide_eq_true_iff] at hp
  obtain ⟨h1, h2⟩ := hp
  simp only [coveredPages, pagesOf, guestPage, wadd, word] at h1 h2 hbel hali ⊢
  have hmax := Nat.le_max_right (granule * 4096) q.addr
  have hmin := Nat.min_le_right ((granule + h.granule) * 4096) ((q.addr + q.length) % 2 ^ 64)
  generalize max (granule * 4096) q.addr = start at *
  generalize min ((granule + h.granule) * 4096) ((q.addr + q.length) % 2 ^ 64) = stop at *
  rw [inRange_iff]
  omega

theorem granulesBetween_nodup (first last : ℕ) : (granulesBetween h first last).Nodup := by
  refine List.Nodup.map (fun i j hij => ?_) nodup_range
  have hpos := h.granule_pos
  exact Nat.eq_of_mul_eq_mul_right hpos (Nat.add_left_cancel hij)

theorem callsSpare_iff {calls : List HostCall} (hiss : s'.issued = calls ++ s.issued) :
    s.CallsSpare s' ↔ ∀ c ∈ calls, c.Spares s.hostReservedPages := by
  refine ⟨fun ⟨calls', hiss', hcal⟩ => ?_, fun hcal => ⟨calls, hiss, hcal⟩⟩
  rwa [append_right_unique hiss hiss']

theorem mmapSubGranule_frame (hr : s.mmapSubGranule h q answers = some r) :
    r.1.hostReservedPages = s.hostReservedPages ∧
      (∀ p, s.mappedPages p = true → r.1.mappedPages p = true) ∧
      r.1.issued = (subGranuleLoop h q answers
        (granulesBetween h (touched h q).1 (touched h q).2) s).1.issued := by
  obtain ⟨hres, hmar⟩ := subGranuleLoop_frame (h := h) q answers
    (granulesBetween h (touched h q).1 (touched h q).2) s
  rw [mmapSubGranule] at hr
  split at hr
  · rename_i heq
    rw [heq] at hres hmar ⊢
    cases hr
    exact ⟨hres, fun p hp => (congrFun hmar p).trans hp, rfl⟩
  · rename_i heq
    rw [heq] at hres hmar ⊢
    obtain ⟨-, hr⟩ := Option.ite_none_left_eq_some.1 hr
    obtain ⟨s', hs', rfl⟩ := Option.map_eq_some_iff.1 hr
    obtain ⟨-, rfl⟩ := setUsedPages_eq_some_iff.1 hs'
    exact ⟨hres, fun p hp => Bool.or_eq_true_iff.2 (.inr ((congrFun hmar p).trans hp)), rfl⟩

theorem Emulated.untouched_iff (he : s.Emulated h q) (hg : s.Guarded s.hostReservedPages)
    (hr : s.mmapSubGranule h q answers = some r) :
    r.1.hostReservedPages = s.hostReservedPages ∧ (s.Untouched r.1 ↔ s.GranulesSpared h q answers
        (granulesBetween h (touched h q).1 (touched h q).2)) := by
  have hapa := hg.apart_of_overlaps (Bool.eq_false_iff.2 he.apart)
  have hcov : ∀ g, Clear s.hostReservedPages (covers h q g) := by
    intro g p hp
    rw [Bool.eq_false_iff]
    exact fun hin => absurd ((hapa p hp).symm.trans (inRange_of_covers he.aligned he.below hin))
      nofun
  obtain ⟨calls, hiss, hiff⟩ := subGranuleLoop_spares_iff q answers
    (granulesBetween h (touched h q).1 (touched h q).2) s hg (granulesBetween_nodup _ _)
    fun g _ => hcov g
  obtain ⟨hr1, hr2, hr3⟩ := mmapSubGranule_frame hr
  refine ⟨hr1, ?_⟩
  rw [Untouched, callsSpare_iff (hr3.trans hiss), hiff, hr1]
  exact and_iff_right fun p hp => hr2 p (hg p hp).1

/-! ### Segments -/

/-- `Shmat` at an address only marks pages. -/
theorem shmatFixed_marks {q : ShmatArgs} {a : ShmatAnswers} (hr : s.shmatFixed h q a = some r) :
    ∀ p, s.mappedPages p = true → r.1.mappedPages p = true := by
  intro p hp
  rw [shmatFixed] at hr
  split at hr
  · cases hr
    exact hp
  split at hr
  · cases hr
    exact hp
  split at hr
  · obtain ⟨s', hs', rfl⟩ := Option.map_eq_some_iff.1 hr
    obtain ⟨-, rfl⟩ := setUsedPages_eq_some_iff.1 hs'
    exact Bool.or_eq_true_iff.2 (.inr hp)
  · cases hr
    exact hp

/-- `Shmat` at an address: there is no test. -/
theorem shmatFixed_untouched_iff (hg : s.Guarded s.hostReservedPages) {q : ShmatArgs}
    {a : ShmatAnswers} (hr : s.shmatFixed h q a = some r) :
    r.1.hostReservedPages = s.hostReservedPages ∧
      (s.Untouched r.1 ↔ ∀ ptr, a.fixed = .ok ptr → ptr < 2 ^ 32 →
        ∀ p, s.hostReservedPages p = true →
          inRange (ptr / guestPage) (segmentPages h a.segsz) p = false) := by
  have hmar := shmatFixed_marks hr
  rw [shmatFixed] at hr
  split at hr
  · rename_i e hfix
    cases hr
    refine ⟨rfl, iff_of_true (Respected.refl hg).untouched fun ptr hptr => ?_⟩
    rw [hfix] at hptr
    cases hptr
  rename_i ptr hfix
  have hptr : (∀ ptr', a.fixed = .ok ptr' → ptr' < 2 ^ 32 → ∀ p, s.hostReservedPages p = true →
        inRange (ptr' / guestPage) (segmentPages h a.segsz) p = false) ↔
      (ptr < 2 ^ 32 → ∀ p, s.hostReservedPages p = true →
        inRange (ptr / guestPage) (segmentPages h a.segsz) p = false) := by
    refine ⟨fun hall => hall ptr hfix, fun hone ptr' heq => ?_⟩
    rw [hfix] at heq
    cases heq
    exact hone
  rw [hptr]
  split at hr
  · rename_i hhg
    cases hr
    exact ⟨rfl, iff_of_true (Respected.refl hg).untouched fun hlow =>
      absurd hlow (Nat.not_lt.2 hhg)⟩
  rename_i hlow
  have haft : r.1.hostReservedPages = s.hostReservedPages ∧
      r.1.issued = [⟨.map, inRange (ptr / guestPage) (segmentPages h a.segsz)⟩] ++ s.issued := by
    split at hr
    · obtain ⟨s', hs', rfl⟩ := Option.map_eq_some_iff.1 hr
      obtain ⟨-, rfl⟩ := setUsedPages_eq_some_iff.1 hs'
      exact ⟨rfl, rfl⟩
    · cases hr
      exact ⟨rfl, rfl⟩
  obtain ⟨hr1, hr2⟩ := haft
  refine ⟨hr1, ?_⟩
  rw [Untouched, callsSpare_iff hr2, hr1, forall_mem_singleton,
    and_iff_right fun p hp => hmar p (hg p hp).1]
  exact ⟨fun hspa _ => hspa, fun hall => hall (Nat.not_le.1 hlow)⟩

theorem freeSegment_eq {page : ℕ} {a : ShmdtAnswers} (hs : s.freeSegment page a = some s') :
    s' = { s with mappedPages := fun p =>
      !(a.shmctl && inRange page (pagesOf a.segsz) p) && s.mappedPages p } := by
  rw [freeSegment] at hs
  split at hs
  · rename_i hctl
    obtain ⟨-, rfl⟩ := setFreePages_eq_some_iff.1 hs
    simp [hctl]
  · rename_i hctl
    cases hs
    rw [Bool.not_eq_true] at hctl
    simp [hctl]

/-- `Shmdt` unmarks the pages of the segment and has the kernel unmap what is left of it. -/
theorem shmdt_untouched_iff (hg : s.Guarded s.hostReservedPages) {shmaddr : ℕ} {a : ShmdtAnswers}
    (hr : s.shmdt shmaddr a = some r) :
    r.1.hostReservedPages = s.hostReservedPages ∧
      (s.Untouched r.1 ↔ (s.pageToShm (shmaddr / guestPage % 2 ^ 32) ≠ none →
        ∀ p, s.hostReservedPages p = true → (a.shmctl = true →
            inRange (shmaddr / guestPage % 2 ^ 32) (pagesOf a.segsz) p = false) ∧
          (a.shmdt = none → s.kernel p ≠ some (.shm (shmaddr / guestPage % 2 ^ 32))))) := by
  rw [shmdt] at hr
  generalize shmaddr / guestPage % 2 ^ 32 = page at hr ⊢
  split at hr
  · rename_i hnn
    cases hr
    exact ⟨rfl, iff_of_true (Respected.refl hg).untouched fun hsm => absurd hnn hsm⟩
  rename_i shmid hsm
  have hpg : s.pageToShm page ≠ none := by rw [hsm]; rintro ⟨⟩
  rw [imp_iff_right hpg]
  obtain ⟨s₁, hs₁, rfl⟩ := Option.map_eq_some_iff.1 hr
  -- the marks go first
  have hmar := freeSegment_eq hs₁
  have hres : s₁.hostReservedPages = s.hostReservedPages := by rw [hmar]
  have hmai : (∀ p, s.hostReservedPages p = true → s₁.mappedPages p = true) ↔
      ∀ p, s.hostReservedPages p = true →
        (a.shmctl = true → inRange page (pagesOf a.segsz) p = false) := by
    rw [hmar]
    refine forall_congr' fun p => forall_congr' fun hp => ?_
    simp only [(hg p hp).1, Bool.and_true, Bool.not_eq_true', Bool.and_eq_false_imp]
  cases hans : a.shmdt with
  | some e =>
    have hiss : s₁.issued = [] ++ s.issued := by rw [hmar]; rfl
    refine ⟨hres, ?_⟩
    rw [Untouched, callsSpare_iff hiss, hres, hmai]
    exact ⟨fun hall p hp => ⟨hall.1 p hp, by rintro ⟨⟩⟩,
      fun hall => ⟨fun p hp => (hall p hp).1, forall_mem_nil _⟩⟩
  | none =>
    have hker : s₁.kernel = s.kernel := by rw [hmar]
    have hiss : ({ (s₁.detachCall page).kernelDetach page with
        pageToShm := update s₁.pageToShm page none } : State).issued =
        [⟨.unmap, fun p => decide (s₁.kernel p = some (.shm page))⟩] ++ s.issued := by
      rw [hmar]
      rfl
    refine ⟨hres, ?_⟩
    rw [Untouched, callsSpare_iff hiss, forall_mem_singleton]
    change ((∀ p, s₁.hostReservedPages p = true → s₁.mappedPages p = true) ∧ _) ↔ _
    rw [hres, hmai, hker]
    constructor
    · rintro ⟨hall, hspa⟩ p hp
      exact ⟨hall p hp, fun _ => of_decide_eq_false (hspa p hp)⟩
    · intro hall
      exact ⟨fun p hp => (hall p hp).1, fun p hp => decide_eq_false ((hall p hp).2 rfl)⟩

end State

/-! ### Runs -/

variable {c : Call}

/-- The calls that leave the reserved pages alone. -/
def Respects (h : HostPages) (s : State) : Call → Prop
  | .mmap q a =>
    s.Emulated h q → s.GranulesSpared h q a.granule
      (granulesBetween h (touched h q).1 (touched h q).2)
  | .shmat q a =>
    q.shmaddr ≠ 0 → ∀ ptr, a.fixed = .ok ptr → ptr < 2 ^ 32 →
      ∀ p, s.hostReservedPages p = true →
        inRange (ptr / guestPage) (segmentPages h a.segsz) p = false
  | .shmdt shmaddr a =>
    s.pageToShm (shmaddr / guestPage % 2 ^ 32) ≠ none →
      ∀ p, s.hostReservedPages p = true →
        (a.shmctl = true → inRange (shmaddr / guestPage % 2 ^ 32) (pagesOf a.segsz) p = false) ∧
        (a.shmdt = none → s.kernel p ≠ some (.shm (shmaddr / guestPage % 2 ^ 32)))
  | .munmap .. | .mremap .. | .reserveHostRange .. => True

theorem Respected.reserved_and_iff (hs : Respected s.hostReservedPages s s') (hc : Respects h s c) :
    (∀ p, s'.hostReservedPages p = true → p < pageCount) ∧ (s.Untouched s' ↔ Respects h s c) :=
  ⟨fun p hp => (hs.guarded p (hs.reserved ▸ hp)).2, iff_of_true hs.untouched hc⟩

theorem step_untouched_iff (hg : s.Guarded s.hostReservedPages) (hr : step h s c = some r) :
    (∀ p, r.1.hostReservedPages p = true → p < pageCount) ∧ (s.Untouched r.1 ↔ Respects h s c) := by
  have hsm : r.1.hostReservedPages = s.hostReservedPages →
      ∀ p, r.1.hostReservedPages p = true → p < pageCount := fun heq p hp =>
    (hg p (by rwa [heq] at hp)).2
  cases c with
  | mmap q a =>
    by_cases he : s.Emulated h q
    · have hr : s.mmapSubGranule h q a.granule = some r := (he.mmap_eq a).symm.trans hr
      obtain ⟨hres, hiff⟩ := he.untouched_iff hg hr
      exact ⟨hsm hres, hiff.trans ⟨fun hs _ => hs, fun hs => hs he⟩⟩
    · exact (Respected.mmap hg he (fun _ _ => hg.apart_of_overlaps) hr).reserved_and_iff fun he' =>
        absurd he' he
  | munmap addr length answers =>
    exact (Respected.munmap hg (fun _ => hg.apart_of_overlaps) hr).reserved_and_iff trivial
  | mremap q a =>
    exact (Respected.mremap hg hg.apart_of_overlaps (fun _ => hg.apart_of_overlaps)
      hr).reserved_and_iff trivial
  | shmat q a =>
    rw [step, shmat] at hr
    split at hr
    · rename_i had
      obtain ⟨hres, hiff⟩ := shmatFixed_untouched_iff hg hr
      exact ⟨hsm hres, hiff.trans ⟨fun hs _ => hs, fun hs => hs had⟩⟩
    rename_i had
    split at hr
    · exact (Respected.shmatSearch hg hr).reserved_and_iff fun hne => absurd hne had
    · cases hr
      exact (Respected.refl hg).reserved_and_iff fun hne => absurd hne had
  | shmdt shmaddr a =>
    obtain ⟨hres, hiff⟩ := shmdt_untouched_iff hg hr
    exact ⟨hsm hres, hiff⟩
  | reserveHostRange base length =>
    cases hr
    refine ⟨fun p hp => ?_, iff_of_true ⟨fun p hp => ?_, [], rfl, forall_mem_nil _⟩ trivial⟩
    · simp only [reserveHostRange, Bool.or_eq_true, Bool.and_eq_true, decide_eq_true_iff] at hp
      exact hp.elim (fun hp => hp.2) fun hp => (hg p hp).2
    · simp only [reserveHostRange, Bool.or_eq_true] at hp ⊢
      exact hp.imp id fun hp => (hg p hp).1

/-- **Pages reserved for the host.**  In every run of calls that leave them alone they stay marked;
and the calls of the next step leave them alone exactly if the step meets the condition: a request
emulated host page by host page reaches no host page with a reserved page in it whose protection it
changes, and a segment is not attached over, nor detached or unmarked at, a reserved page. -/
theorem reserved_untouched_iff (h : HostPages) {calls : List Call}
    (hrun : (machine h).Run (Respects h) initial calls s) :
    (∀ p, s.hostReservedPages p = true → s.mappedPages p = true) ∧
      ∀ c s' answer, step h s c = some (s', answer) → (s.Untouched s' ↔ Respects h s c) := by
  have hg : s.Guarded s.hostReservedPages := by
    refine hrun.invariant (I := fun s => s.Guarded s.hostReservedPages) nofun ?_
    intro s c s' hg hc hst
    obtain ⟨answer, hr⟩ := hst
    obtain ⟨hbou, hiff⟩ := step_untouched_iff hg hr
    exact fun p hp => ⟨(hiff.2 hc).1 p hp, hbou p hp⟩
  exact ⟨fun p hp => (hg p hp).1, fun c s' answer hr => (step_untouched_iff hg hr).2⟩

theorem reserved_untouched_munmap :
    ∃ s, (machine .k64).Run (Respects .k64) initial [.reserveHostRange 0x101000 4096] s ∧
      s.hostReservedPages 0x101 = true ∧ s.mappedPages 0x101 = true ∧
      ∀ s' answer, step .k64 s (.munmap 0x100000 4096 fun _ => none) = some (s', answer) →
        s.Untouched s' := by
  have hrun : (machine .k64).Run (Respects .k64) initial [.reserveHostRange 0x101000 4096]
      (initial.reserveHostRange 0x101000 4096) := .cons trivial ⟨_, rfl⟩ (.nil _)
  obtain ⟨hmar, hnx⟩ := reserved_untouched_iff .k64 hrun
  have hres : (initial.reserveHostRange 0x101000 4096).hostReservedPages 0x101 = true := by
    decide
  exact ⟨_, hrun, hres, hmar _ hres, fun s' answer hs' => (hnx _ s' answer hs').2
    trivial⟩

/-- A request of one anonymous page at an address. -/
def pageAt (addr : ℕ) : MmapArgs := { anywhere 4096 with addr := addr, fixed := true }

/-- **Three ways to reach a reserved page.**  On a host with 64K pages, a request for the page in
front of it changes its protection; a segment is attached over it; and a segment attached before the
reservation is detached from under it, and the page is unmarked. -/
theorem reserved_touched :
    ((step .k64 (initial.reserveHostRange 0x101000 4096) (.mmap (pageAt 0x100000) obliging)).any
      fun r => r.1.hostReservedPages 0x101 &&
        r.1.issued.any fun c => c.effect == .protect && c.touches 0x101) = true ∧
    ((step .k4 (initial.reserveHostRange 0x100000 4096)
        (.shmat ⟨7, 0x100000⟩ ⟨4096, true, .ok 0x100000, []⟩)).any
      fun r => r.1.hostReservedPages 0x100 &&
        r.1.issued.any fun c => c.effect == .map && c.touches 0x100) = true ∧
    ((step .k4 initial (.shmat ⟨7, 0x100000⟩ ⟨4096, true, .ok 0x100000, []⟩)).any fun r =>
      (step .k4 (r.1.reserveHostRange 0x100000 4096) (.shmdt 0x100000 ⟨4096, true, none⟩)).any
        fun r => r.1.hostReservedPages 0x100 && !r.1.mappedPages 0x100 &&
          r.1.issued.any fun c => c.effect == .unmap && c.touches 0x100) = true := by
  decide +kernel

/-! ### The first pages -/

/-- The pages that the constructor marks for the kernel. -/
def low (p : ℕ) : Bool := decide (p < 16)

theorem clear_low (hfir : 16 ≤ first) : Clear low (inRange first n) :=
  clear_inRange fun p hp h1 => absurd (of_decide_eq_true hp) (by omega)

/-- The mapping that is resized or moved, the place it is sent to and the segment that is detached
lie above the first pages. -/
def Call.Above : Call → Prop
  | .mremap q _ => 16 ≤ q.oldAddress / guestPage ∧ (q.fixed = true → 16 ≤ q.newAddress / guestPage)
  | .shmdt shmaddr _ => 16 ≤ shmaddr / guestPage % 2 ^ 32
  | .mmap .. | .munmap .. | .shmat .. | .reserveHostRange .. => True

theorem step_low (hg : s.Guarded low) (hc : c.Above) (hr : step h s c = some r) :
    r.1.Guarded low := by
  -- of the calls that may touch reserved pages only the marks are asked
  have hmn : (∀ p, s.mappedPages p = true → r.1.mappedPages p = true) → r.1.Guarded low :=
    fun hmar p hp => (hg p hp).imp_left (hmar p)
  cases c with
  | mmap q a =>
    by_cases he : s.Emulated h q
    · exact hmn (mmapSubGranule_frame ((he.mmap_eq a).symm.trans hr)).2.1
    · exact (Respected.mmap hg he (fun _ hfir _ => clear_low hfir) hr).guarded
  | munmap addr length answers =>
    exact (Respected.munmap hg (fun hfir _ => clear_low hfir) hr).guarded
  | mremap q a =>
    exact (Respected.mremap hg (fun _ => clear_low hc.1) (fun hf _ => clear_low (hc.2 hf))
      hr).guarded
  | shmat q a =>
    rw [step, shmat] at hr
    split at hr
    · exact hmn (shmatFixed_marks hr)
    split at hr
    · exact (Respected.shmatSearch hg hr).guarded
    · cases hr
      exact hg
  | shmdt shmaddr a =>
    rw [step, shmdt] at hr
    split at hr
    · cases hr
      exact hg
    obtain ⟨s₁, hs₁, rfl⟩ := Option.map_eq_some_iff.1 hr
    have hg₁ : s₁.Guarded low := by
      rw [freeSegment_eq hs₁]
      intro p hp
      obtain ⟨hmar, hlt⟩ := hg p hp
      have hout := clear_low (n := pagesOf a.segsz) hc p hp
      exact ⟨by simp only [hmar, hout, Bool.and_false, Bool.not_false, Bool.and_true], hlt⟩
    split
    · exact hg₁
    · exact hg₁
  | reserveHostRange base length =>
    cases hr
    exact hmn fun p hp => by simp [reserveHostRange, hp]

/-- **The marks of the constructor** stay in every run of such calls. -/
theorem lowMark_of_run (h : HostPages) {calls : List Call}
    (hrun : (machine h).Run (fun _ c => c.Above) initial calls s) : s.LowMark h := by
  have hg : s.Guarded low := by
    refine hrun.invariant (I := fun s => s.Guarded low) (fun p hp => ?_) ?_
    · have hlt := of_decide_eq_true hp
      exact ⟨by simp [initial, permanent, hlt], hlt.trans (by decide)⟩
    · rintro s c s' hg hc ⟨answer, hr⟩
      exact step_low hg hc hr
  exact ⟨0, by cases h <;> decide, (hg 0 rfl).1⟩

end FastPPC.Alloc32
