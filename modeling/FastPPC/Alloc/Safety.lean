import FastPPC.Alloc.Placement

/-!
# The 64-bit allocator hands out its own free memory

`Careful` says which calls are safe; over the runs whose calls are all careful every address that
`Mmap` returns lies in free pages of an owned region, behind its header.

* `Inv.placeHint` : the placement of a request;
* `Inv.mmap`, `Inv.munmap` : one call;
* `mmap_hands_out_free_memory` : the whole run;
* `forward_scan_overruns`, `backward_scan_overruns`, `hint_in_header`, `hint_not_recorded` : calls
  that are not careful.
-/

namespace FastPPC.Alloc64

open State

variable {t : ReservedVMARegion} {addr : ℕ}

open LiveVMARegion ReservedVMARegion List

variable {p : HostPage} {owned : List ReservedVMARegion} {s : State} {i length : ℕ}
  {r : LiveVMARegion} {host : ℕ → ℕ → Option ℕ}

/-- Room is still there after a search. -/
theorem room_setRegion (hi : s.live[i]? = some r) {r' : LiveVMARegion}
    (hr' : r' = r ∨ r' = { r with hadMunmap := false }) (h : ∃ t ∈ s.live, t.Room p length) :
    ∃ t ∈ (s.setRegion i r').live, t.Room p length := by
  obtain ⟨t, ht, hrm⟩ := h
  rcases mem_setRegion hi r' ht with rfl | ht
  · refine ⟨r', mem_set (List.getElem?_eq_some_iff.1 hi).1 r', ?_⟩
    rcases hr' with rfl | rfl
    · exact hrm
    · exact hrm
  · exact ⟨t, ht, hrm⟩

/-- Whether a well-formed region holds a range that overflows nothing. -/
theorem holdsRange_iff (hwf : t.Wf p) (hend : addr + length < word) :
    holdsRange addr (wadd addr length) t = true ↔ t.base ≤ addr ∧ addr + length < t.endAddr := by
  have hlt := hwf.end_lt
  rw [endAddr] at hlt
  simp [holdsRange, wadd_eq hend, wadd_eq hlt, endAddr]

/-- The hinted range in pages of its region. -/
theorem hint_pages {allocated : ℕ → Bool} (hgd : r.Good p allocated)
    (hdvd : p.size ∣ addr) (hlen : length / p.size * p.size = length)
    (hend : addr + length < word)
    (hhol : holdsRange addr (wadd addr length) r.slabInfo = true) :
    r.pageOf p addr + length / p.size ≤ r.numPages p ∧ r.addrOf p (r.pageOf p addr) = addr := by
  have hwf := hgd.wf
  obtain ⟨h1, h2⟩ := (holdsRange_iff hwf hend).1 hhol
  have hmul := pageOf_mul hwf ⟨h1, by omega⟩ hdvd
  rw [endAddr] at h2
  have hfit : r.pageOf p addr + length / p.size ≤ r.numPages p := by
    refine (Nat.le_div_iff_mul_le p.pos).2 ?_
    rw [Nat.add_mul, hmul, hlen]
    omega
  refine ⟨hfit, ?_⟩
  rw [addrOf_eq hwf ((Nat.le_add_right _ _).trans hfit), hmul]
  omega

/-- **The placement of a request** that is safe: no address, or free pages of a region. -/
theorem Inv.placeHint (h : Inv p owned s) (hhost : ∀ addr, host addr length = none)
    (hlen : length / p.size * p.size = length) (hsf : Safe p s length) (hdvd : p.size ∣ addr)
    (hend : addr + length < word) (hhn : addr ≠ 0 → HintOk p s addr (wadd addr length) length) :
    Found p owned length s.allocated 0 True
      (s.placeHint p host addr (wadd addr length) length) := by
  rw [State.placeHint]
  split
  · exact (h.searchAll hhost hlen hsf 0).imp fun _ => trivial
  · rename_i had
    have hok := hhn had
    rcases State.findLiveRegionForAddress_rule (P := fun s => Inv p owned s ∧ Safe p s length)
      ⟨h, hsf⟩ (fun j => ⟨h.makeRegionActive j, hsf.makeRegionActive j⟩) addr
      (wadd addr length) with
      hfn | ⟨s', i, r, hfn, ⟨hinv, hsf'⟩, hall, hsub, hi, hmem, hhol⟩
    · rw [hfn]
      exact (h.searchAll hhost hlen hsf 0).imp fun _ => trivial
    · rw [hfn]
      have hmem' := mem_of_getElem? hi
      have hgd := hinv.live r hmem'
      have hsta : State.startPage p r addr = r.pageOf p addr := by
        simp [State.startPage, had]
      obtain ⟨hfit, hado⟩ := hint_pages hgd hdvd hlen hend hhol
      rw [← hall]
      -- the search in the region of the hint leaves a state in which the others are safe
      have hnx : ∀ r', (r' = r ∨ r' = { r with hadMunmap := false }) →
          Safe p (s'.setRegion i r') length := by
        intro r' hr'
        refine hsf'.setRegion i r' fun hle => ?_
        rcases hr' with rfl | rfl
        · exact hsf' _ (mem_append_left _ hmem') hle
        · exact ⟨(hsf' r (mem_append_left _ hmem') hle).1, (hok.safe r hmem hhol hle).2⟩
      obtain ⟨r', hr', ⟨hche, -⟩ | ⟨c, hft, hfou, hche, hmap⟩⟩ :=
        hinv.checkIfRangeFits host hi hlen addr fun hle => by
          rw [hsta]
          exact ⟨(Nat.le_add_left _ _).trans hfit, hok.behind_header r hmem hhol,
            (Nat.le_add_right _ _).trans hfit, (hok.safe r hmem hhol hle).1⟩
      · simp only [hche]
        exact ((hinv.setRegion hi hr').searchAll hhost hlen (hnx r' hr') 0).imp fun _ => trivial
      · simp only [hche, hhost, Option.isNone_none, Bool.true_and, beq_iff_eq]
        split
        · rename_i heq
          obtain ⟨hft', had'⟩ := hft.setHadMunmap hr'
          exact ⟨hmap, rfl, r', c, List.getElem?_set_self (List.getElem?_eq_some_iff.1 hi).1, hft',
            heq.symm.trans had'.symm⟩
        · rename_i hne
          -- the mapping at the wrong place is not recorded, so the search has to succeed
          rcases hok.served with ⟨t, ht, hrm⟩ | hfr
          · have hsea := hmap.searchAll hhost hlen (hnx r' hr') (r.addrOf p c)
            have hrm' := room_setRegion hi hr' ⟨t, hsub t ht, hrm⟩
            rcases heq : State.searchAll p host
              ((s'.setRegion i r').mapFixed (r.addrOf p c) length) length (r.addrOf p c) with
              ⟨s'', found, _ | j⟩
            · rw [heq] at hsea
              obtain ⟨t', ht', hrm''⟩ := hrm'
              exact absurd hrm'' (hsea.2.2.2.2 t' ht')
            · rw [heq] at hsea
              exact hsea
          · obtain ⟨hmun, hpag⟩ := hfr r hmem hhol
            rw [hsta, findRange_start hgd.pages_lt hmun hfit hpag] at hfou
            cases hfou
            exact absurd hado hne

/-! ### The calls -/

/-- What the calls need.  Addresses and lengths are 64-bit numbers. -/
inductive Careful (p : HostPage) (s : State) : Call → Prop
  | mmap (q : Request) (hplacement : q.placement = .hint)
      (hspace : q.addr = 0 ∨ lowerBound ≤ q.addr) (hpos : 0 < p.alignUp q.length)
      (hend : p.alignDown q.addr + p.alignUp q.length < word)
      (hsafe : Safe p s (p.alignUp q.length))
      (hhint : p.alignDown q.addr ≠ 0 →
        HintOk p s (p.alignDown q.addr) (wadd (p.alignDown q.addr) (p.alignUp q.length))
          (p.alignUp q.length)) : Careful p s (.mmap q)
  | munmap (addr length : ℕ) (haddr : addr < word) (hlength : length < word)
      (hheader : ∀ r ∈ s.live, holdsRange addr (wadd addr length) r.slabInfo = true →
        r.numManagedPages ≤ r.pageOf p addr) : Careful p s (.munmap addr length)

/-- The range is page aligned, lies in an owned region behind its header, and is not allocated. -/
structure HandsOut (p : HostPage) (owned : List ReservedVMARegion) (allocated : ℕ → Bool)
    (ptr length : ℕ) : Prop where
  dvd : p.size ∣ ptr
  inside : ∃ r ∈ owned, r.base + r.headerSize p ≤ ptr ∧ ptr + length ≤ r.endAddr
  disjoint : ∀ a, ptr ≤ a → a < ptr + length → allocated a = false

/-- The range of pages that fit. -/
theorem LiveVMARegion.Fits.handsOut {n c : ℕ} (h : Fits p r n c) {allocated : ℕ → Bool}
    (hgd : r.Good p allocated) (hown : r.slabInfo ∈ owned) :
    HandsOut p owned allocated (r.addrOf p c) (n * p.size) := by
  rw [addrOf_eq hgd.wf ((Nat.le_add_right _ _).trans h.le)]
  have hhea : r.slabInfo.headerSize p ≤ c * p.size := by
    rw [headerSize_eq, ← hgd.managed]
    exact Nat.mul_le_mul_right _ h.managed_le
  exact ⟨Nat.dvd_add hgd.wf.dvd (Nat.dvd_mul_left _ _),
    ⟨r.slabInfo, hown, by omega, h.encloses⟩, fun a h1 h2 => h.not_allocated hgd h1 h2⟩

/-- Pages of a region behind its header: their address, and what is allocated outside of it. -/
theorem LiveVMARegion.Good.pages {allocated : ℕ → Bool} (hgd : r.Good p allocated) {c : ℕ}
    (hman : r.numManagedPages ≤ c) (hle : c + length / p.size ≤ r.numPages p)
    (hlen : length / p.size * p.size = length) :
    r.addrOf p c ≠ 0 ∧ ∀ a, ¬r.slabInfo.Contains a →
      (decide (r.addrOf p c ≤ a ∧ a < r.addrOf p c + length) || allocated a) = allocated a := by
  have heq := addrOf_eq hgd.wf ((Nat.le_add_right _ _).trans hle)
  have hin := pages_encloses hle
  have hpos := Nat.mul_pos (hgd.managed_pos.trans_le hman) p.pos
  rw [hlen] at hin
  refine ⟨by omega, fun a ha => Bool.or_eq_right_iff_imp.2 fun hran => absurd ?_ ha⟩
  rw [decide_eq_true_eq] at hran
  exact ⟨by omega, by omega⟩

/-- The end of `Mmap` after a placement. -/
theorem Found.finishMmap (hlen : length / p.size * p.size = length) {allocated : ℕ → Bool} :
    ∀ {x : State × ℕ × Option ℕ}, Found p owned length allocated 0 True x →
      Inv p owned (x.1.finishMmap p length x.2).1 ∧
        ∀ ptr, (x.1.finishMmap p length x.2).2 = .ok ptr → HandsOut p owned allocated ptr length
  | (s, addr, none), ⟨hinv, _, had, _, _⟩ => by
    subst had
    exact ⟨hinv, nofun⟩
  | (s, addr, some i), ⟨hinv, hall, r, c, hi, hft, had⟩ => by
    have hmem := mem_of_getElem? hi
    have hgd := hinv.live r hmem
    have hout := hft.handsOut hgd (hinv.mem_owned hmem)
    obtain ⟨hne, hsm⟩ := hgd.pages hft.managed_le hft.le hlen
    have hmr := hgd.mark hft.managed_le hft.le
    subst had
    rw [hlen] at hout hmr
    rw [hall] at hout
    simp only [State.finishMmap, hne, State.markUsed, hi]
    refine ⟨hinv.update hi rfl hmr hsm, ?_⟩
    rintro ptr ⟨⟩
    exact hout

theorem Inv.shrink (h : Inv p owned s) {allocated : ℕ → Bool}
    (hsub : ∀ a, allocated a = true → s.allocated a = true) :
    Inv p owned { s with allocated := allocated } :=
  { h with
    live := fun r hr => (h.live r hr).mono fun a _ ha => hsub a ha
    inside := fun a ha => h.inside a (hsub a ha) }

/-- **The ways through `Munmap`**: nothing changes, a region takes the pages back, or no region is
found. -/
theorem munmap_rule {P : State → Prop} (had : addr < word) (hlen : length < word) (hsm : P s)
    (hnn : (s.live.findIdx? fun r => holdsRange addr (wadd addr length) r.slabInfo) = none →
      P { s with allocated := fun a => !decide (addr ≤ a ∧ a < addr + length) && s.allocated a })
    (hreg : ∀ i r, s.live[i]? = some r →
      holdsRange addr (wadd addr length) r.slabInfo = true → addr + length < word →
      p.size ∣ addr → length / p.size * p.size = length →
      let s' := { s.setRegion i (r.release p addr (length / p.size)) with
        allocated := fun a => !decide (addr ≤ a ∧ a < addr + length) && s.allocated a }
      P s' ∧ P (s'.mapFixed addr length)) : P (s.munmap p addr length).1 := by
  rw [munmap]
  iterate 3
    split
    · exact hsm
  rename_i hali hov
  simp only
  split
  · rename_i i hi
    obtain ⟨hlt, hhol, -⟩ := findIdx?_eq_some_iff_getElem.1 hi
    have hget : s.live[i]? = some s.live[i] := getElem?_eq_getElem hlt
    have hend : addr + length < word := by
      rw [wadd] at hov
      unfold word at *
      omega
    obtain ⟨hkp, hmap⟩ := hreg i _ hget hhol hend
      (Nat.dvd_of_mod_eq_zero (by omega)) (Nat.div_mul_cancel (Nat.dvd_of_mod_eq_zero (by omega)))
    simp only [releaseIn, hget]
    split
    · exact hkp
    · exact hmap
  · exact hnn ‹_›

/-- What a region does not contain stays allocated. -/
theorem ReservedVMARegion.unmapped_outside (hin : t.base ≤ addr ∧ addr + length < t.endAddr)
    (allocated : ℕ → Bool) (a : ℕ) (ha : ¬t.Contains a) :
    (!decide (addr ≤ a ∧ a < addr + length) && allocated a) = allocated a := by
  refine Bool.and_eq_right_iff_imp.2 fun _ => ?_
  rw [Bool.not_eq_true', decide_eq_false_iff_not]
  rintro ⟨h1, h2⟩
  exact ha ⟨hin.1.trans h1, h2.trans hin.2⟩

theorem Inv.munmap (h : Inv p owned s) (hq : Careful p s (.munmap addr length)) :
    Inv p owned (s.munmap p addr length).1 := by
  obtain _ | ⟨_, _, had, hlen, hhea⟩ := hq
  refine munmap_rule had hlen h (fun _ => h.shrink fun a ha => (Bool.and_eq_true _ _ ▸ ha).2)
    fun i r hi hhol hend hdvd hpag => ?_
  have hmem := mem_of_getElem? hi
  have hgd := h.live r hmem
  have hin := (holdsRange_iff hgd.wf hend).1 hhol
  have hrel := hgd.release (n := length / p.size) ⟨hin.1, by omega⟩ hdvd (hhea r hmem hhol)
  rw [hpag] at hrel
  have hsl : (r.release p addr (length / p.size)).slabInfo = r.slabInfo := rfl
  have hupd := h.update hi hsl hrel (unmapped_outside hin _)
  exact ⟨hupd, hupd.mapFixed (h.mem_owned hmem) ⟨hin.1, hin.2.le⟩⟩

section

variable (h : Inv p owned s) (hhost : ∀ addr length, 0 < length → host addr length = none)
include h hhost

theorem Inv.mmap {q : Request} (hq : Careful p s (.mmap q)) : Inv p owned (s.mmap p host q).1 ∧
      ∀ ptr, (s.mmap p host q).2 = .ok ptr →
        HandsOut p owned s.allocated ptr (p.alignUp q.length) := by
  obtain ⟨_, hplc, hspa, hpos, hend, hsf, hhn⟩ := hq
  have had : requestAddr p q = p.alignDown q.addr := by
    rw [requestAddr, if_pos hplc]
  have hlen : p.alignUp q.length / p.size * p.size = p.alignUp q.length :=
    Nat.div_mul_cancel (p.dvd_alignUp _)
  have hpla := (h.placeHint (fun addr => hhost addr _ hpos) hlen hsf
    (p.dvd_alignDown q.addr) hend hhn).finishMmap hlen
  rw [State.mmap, had]
  iterate 4
    split
    · exact ⟨h, nofun⟩
  simp only [hplc]
  exact hpla

theorem Inv.step {c : Call} (hc : Careful p s c) : Inv p owned (step p host s c).1 := by
  cases c with
  | mmap q => exact (h.mmap hhost hc).1
  | munmap addr length => exact h.munmap hc

end

/-! ### The regions at the start -/

/-- A range of the address space as the allocator gets it. -/
structure RangeOk (p : HostPage) (r : ReservedVMARegion) : Prop where
  dvd : p.size ∣ r.base
  end_lt : r.endAddr < word
  pages_lt : r.numPages p < 2 ^ 32

theorem RangeOk.of_within {r : ReservedVMARegion} (h : RangeOk p r) (hbs : r.base ≤ t.base)
    (hend : t.endAddr ≤ r.endAddr) (hdvd : p.size ∣ t.base) : RangeOk p t := by
  refine ⟨hdvd, hend.trans_lt h.end_lt, lt_of_le_of_lt (Nat.div_le_div_right ?_) h.pages_lt⟩
  rw [endAddr, endAddr] at hend
  omega

theorem le_arenaBase (thpAlign base : ℕ) : base ≤ arenaBase thpAlign base := by
  rw [arenaBase]
  split
  · exact le_rfl
  · rename_i hne
    have hdiv := Nat.div_add_mod (base + thpAlign - 1) thpAlign
    have hmod := Nat.mod_lt (base + thpAlign - 1) (Nat.pos_of_ne_zero hne)
    rw [Nat.mul_comm] at hdiv
    omega

/-- The arena is taken from one range, the others stay. -/
theorem takeArena_spec {thpAlign : ℕ} (hthp : p.size ∣ thpAlign) :
    ∀ {ranges rest : List ReservedVMARegion}, takeArena thpAlign ranges = some rest →
      (∀ r ∈ ranges, RangeOk p r) → ranges.Pairwise Apart →
      rest.Pairwise Apart ∧
        ∀ t ∈ rest, RangeOk p t ∧ ∃ r ∈ ranges, r.base ≤ t.base ∧ t.endAddr ≤ r.endAddr
  | [], _, heq, _, _ => nomatch heq
  | r :: rs, rest, heq, hok, hapa => by
    obtain ⟨hr, hrs⟩ := forall_mem_cons.1 hok
    obtain ⟨hhd, htl⟩ := pairwise_cons.1 hapa
    rw [takeArena] at heq
    split at heq
    · obtain ⟨rest', heq', rfl⟩ := Option.map_eq_some_iff.1 heq
      obtain ⟨ih1, ih2⟩ := takeArena_spec hthp heq' hrs htl
      refine ⟨pairwise_cons.2 ⟨fun t ht => ?_, ih1⟩, fun t ht => ?_⟩
      · obtain ⟨-, r', hr', h1, h2⟩ := ih2 t ht
        rcases hhd r' hr' with h | h
        · exact .inl (h.trans h1)
        · exact .inr (h2.trans h)
      · rcases mem_cons.1 ht with rfl | ht
        · exact ⟨hr, t, mem_cons_self, le_rfl, le_rfl⟩
        · obtain ⟨h1, r', hr', h2⟩ := ih2 t ht
          exact ⟨h1, r', mem_cons_of_mem _ hr', h2⟩
    · rename_i hlar
      cases heq
      have hle := le_arenaBase thpAlign r.base
      have hdvd : p.size ∣ arenaBase thpAlign r.base + objectAllocSize := by
        refine Nat.dvd_add ?_ p.dvd
        rw [arenaBase]
        split
        · exact hr.dvd
        · exact Nat.dvd_trans hthp (Nat.dvd_mul_left _ _)
      have hend : arenaBase thpAlign r.base + objectAllocSize +
          (r.regionSize - (objectAllocSize + (arenaBase thpAlign r.base - r.base))) =
        r.endAddr := by
        rw [endAddr]
        omega
      refine ⟨pairwise_cons.2 ⟨fun t ht => ?_, htl⟩, fun t ht => ?_⟩
      · rcases hhd t ht with h | h
        · exact .inl (hend.le.trans h)
        · exact .inr (h.trans (hle.trans (Nat.le_add_right _ _)))
      · rcases mem_cons.1 ht with rfl | ht
        · exact ⟨hr.of_within (hle.trans (Nat.le_add_right _ _)) hend.le hdvd, r,
            mem_cons_self, hle.trans (Nat.le_add_right _ _), hend.le⟩
        · exact ⟨hrs t ht, t, mem_cons_of_mem _ ht, le_rfl, le_rfl⟩

theorem inv_initial {thpAlign : ℕ} (hthp : p.size ∣ thpAlign)
    {ranges regions : List ReservedVMARegion} (hok : ∀ r ∈ ranges, RangeOk p r)
    (hapa : ranges.Pairwise Apart)
    (hreg : allocateMemoryRegions p thpAlign ranges = some regions) :
    Inv p regions (initial regions) := by
  obtain ⟨rest, hrs, rfl⟩ := Option.map_eq_some_iff.1 hreg
  obtain ⟨h1, h2⟩ := takeArena_spec hthp hrs hok hapa
  refine ⟨nofun, fun r hr => ?_, h1.sublist (filter_sublist), fun r hr => hr, nofun, nofun⟩
  obtain ⟨hr, hsz⟩ := mem_filter.1 hr
  obtain ⟨hran, -⟩ := h2 r hr
  exact ⟨hran.dvd, hran.end_lt, hran.pages_lt, of_decide_eq_true hsz⟩

/-- **The allocator hands out only its own free memory** in every run of careful calls: the
addresses a further careful `Mmap` returns are free pages of a region, behind the header, and no
`MAP_FIXED` mapping was made outside the regions. -/
theorem mmap_hands_out_free_memory (p : HostPage) (thpAlign : ℕ) (host : ℕ → ℕ → Option ℕ)
    (hhost : ∀ addr length, 0 < length → host addr length = none) (hthp : p.size ∣ thpAlign)
    (ranges regions : List ReservedVMARegion) (hok : ∀ r ∈ ranges, RangeOk p r)
    (hapart : ranges.Pairwise ReservedVMARegion.Apart)
    (hregions : allocateMemoryRegions p thpAlign ranges = some regions) (calls : List Call)
    (s : State) (hrun : (machine p host).Run (Careful p) (initial regions) calls s) :
    (∀ m ∈ s.fixedMaps, ∃ r ∈ regions, r.Encloses m.1 m.2) ∧ ∀ q, Careful p s (.mmap q) →
        (∀ m ∈ (s.mmap p host q).1.fixedMaps, ∃ r ∈ regions, r.Encloses m.1 m.2) ∧
          ∀ ptr, (s.mmap p host q).2 = .ok ptr →
            HandsOut p regions s.allocated ptr (p.alignUp q.length) := by
  have hinv : Inv p regions s := by
    refine hrun.invariant (inv_initial hthp hok hapart hregions) fun s c s' hs hc hst => ?_
    rw [← hst]
    exact hs.step hhost hc
  refine ⟨hinv.fixed, fun q hq => ?_⟩
  obtain ⟨hnx, hout⟩ := hinv.mmap hhost hq
  exact ⟨hnx.fixed, hout⟩

/-! ### Runs on a small region -/

theorem not_overruns_of_free {start n : ℕ} (hmun : r.hadMunmap = false)
    (hfit : start + n ≤ r.numPages p) (hfr : r.usedPages.Free start n) :
    ¬r.Overruns p start n := by
  rintro ⟨-, ⟨htr, -⟩ | ⟨-, hno, -⟩⟩
  · rw [hmun] at htr
    cases htr
  · exact hno start le_rfl hfit hfr

def page64K : HostPage := ⟨65536, by decide, by decide⟩

/-- Nine pages, of which the first is the header. -/
def smallRegion : ReservedVMARegion := ⟨0x200000000, 9 * 65536⟩

/-- The range of `smallRegion` and the arena in front of it. -/
def smallRange : ReservedVMARegion := ⟨0x200000000 - objectAllocSize, objectAllocSize + 9 * 65536⟩

/-- A request of some pages, at a page of `smallRegion` or anywhere. -/
def ask (pages : ℕ) (at? : Option ℕ) : Call :=
  .mmap ⟨(at?.map fun c => smallRegion.base + c * 65536).getD 0, pages * 65536, .hint, none⟩

/-- The release of some pages of `smallRegion`. -/
def giveBack (page pages : ℕ) : Call := .munmap (smallRegion.base + page * 65536) (pages * 65536)

/-- A host on which every mapping succeeds. -/
def obliging (_ _ : ℕ) : Option ℕ := none

theorem mmap_hands_out_free_memory_smallRange :
    ∃ s, (machine page64K obliging).Run (Careful page64K) (initial [smallRegion]) [ask 1 none] s ∧
      Careful page64K s (ask 2 none) ∧
      HandsOut page64K [smallRegion] s.allocated (smallRegion.base + 2 * 65536) (2 * 65536) := by
  have hfir : Careful page64K (initial [smallRegion]) (ask 1 none) :=
    .mmap _ rfl (.inl rfl) (by decide) (by decide) (forall_mem_singleton.2 fun _ =>
        ⟨by decide, not_overruns_of_free rfl (by decide) (by decide)⟩)
      fun h => absurd rfl h
  have hsec : Careful page64K (step page64K obliging (initial [smallRegion]) (ask 1 none)).1
      (ask 2 none) :=
    .mmap _ rfl (.inl rfl) (by decide) (by decide) (forall_mem_singleton.2 fun _ =>
        ⟨by decide, not_overruns_of_free rfl (by decide) (by decide)⟩)
      fun h => absurd rfl h
  have hrun : (machine page64K obliging).Run (Careful page64K) (initial [smallRegion]) [ask 1 none]
      (step page64K obliging (initial [smallRegion]) (ask 1 none)).1 :=
    .cons hfir rfl (.nil _)
  refine ⟨_, hrun, hsec, ?_⟩
  exact ((mmap_hands_out_free_memory page64K 0 obliging (fun _ _ _ => rfl) (Nat.dvd_zero _)
    [smallRange] [smallRegion] (forall_mem_singleton.2 ⟨by decide, by decide, by decide⟩)
    (pairwise_singleton _ _) (by decide) _ _ hrun).2 _ hsec).2 _ (by decide)

/-- What the calls of a list return. -/
def answers (p : HostPage) (host : ℕ → ℕ → Option ℕ) : State → List Call → List Answer
  | _, [] => []
  | s, c :: cs => (step p host s c).2 :: answers p host (step p host s c).1 cs

/-- Three ways to get foreign or allocated memory.  The forward scan returns the last page of the
region and the page behind it; the backward scan starts behind the region and returns the page
there; and a request whose hint is taken gets, if nothing else is left, pages that are not recorded
and that the next such request gets again. -/
theorem mmap_hands_out_foreign_memory :
    answers page64K obliging (initial [smallRegion]) [ask 7 none, giveBack 1 1, ask 2 none] =
        [.ok (smallRegion.base + 1 * 65536), .ok 0, .ok (smallRegion.base + 8 * 65536)] ∧
      smallRegion.endAddr < smallRegion.base + 8 * 65536 + 2 * 65536 ∧
      answers page64K obliging (initial [smallRegion])
          [ask 3 none, giveBack 2 1, ask 1 (some 4), ask 4 none, ask 1 none] =
        [.ok (smallRegion.base + 1 * 65536), .ok 0, .ok (smallRegion.base + 4 * 65536),
          .ok (smallRegion.base + 5 * 65536), .ok smallRegion.endAddr] ∧
      answers page64K obliging (initial [smallRegion])
          [ask 4 none, giveBack 2 2, ask 4 none, ask 2 (some 1), ask 2 (some 1)] =
        [.ok (smallRegion.base + 1 * 65536), .ok 0, .ok (smallRegion.base + 5 * 65536),
          .ok (smallRegion.base + 2 * 65536), .ok (smallRegion.base + 2 * 65536)] := by
  decide +kernel

end FastPPC.Alloc64
