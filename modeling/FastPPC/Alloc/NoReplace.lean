import FastPPC.Alloc.Safety

/-!
# Exact placements of the 64-bit allocator

A request with `MAP_FIXED_NOREPLACE` is to be served at its address if the pages there are free, and
refused otherwise without touching anything.  `Mmap` serves it by the search of `CheckIfRangeFits`
that starts at the address: the search looks backwards first if the region has had a `Munmap`, takes
the next free range if the pages are in use, and maps what it finds before the address is compared.

* `Shaped` : what holds of the regions in every state, whatever the calls;
* `LiveVMARegion.ExactOk` : when the search does what the request asks for;
* `noreplace_exact_iff` : then, and only then, the request is answered as it should be;
* `noreplace_not_exact` : requests that are not.
-/

namespace FastPPC.Alloc64

open State List LiveVMARegion

variable {p : HostPage} {host : ℕ → ℕ → Option ℕ} {s : State} {i length : ℕ} {r : LiveVMARegion}

/-! ### The regions in every state -/

variable {s' : State}

/-- The regions are well-formed, above the 32-bit space and apart from each other, and the live ones
know how many pages their header has. -/
structure Shaped (p : HostPage) (s : State) : Prop where
  live : ∀ r ∈ s.live, r.slabInfo.Wf p ∧ r.numManagedPages = r.slabInfo.headerSize p / p.size
  reserved : ∀ r ∈ s.reserved, r.Wf p
  above : ∀ r ∈ s.live.map slabInfo ++ s.reserved, lowerBound ≤ r.base
  apart : (s.live.map slabInfo ++ s.reserved).Pairwise ReservedVMARegion.Apart

namespace Shaped

section

variable (h : Shaped p s)
include h

theorem congr (hlv : s'.live = s.live) (hres : s'.reserved = s.reserved) : Shaped p s' := by
  refine ⟨?_, ?_, ?_, ?_⟩
  · rw [hlv]
    exact h.live
  · rw [hres]
    exact h.reserved
  · rw [hlv, hres]
    exact h.above
  · rw [hlv, hres]
    exact h.apart

/-- A region keeps its place and its header. -/
theorem setRegion (hi : s.live[i]? = some r) {r' : LiveVMARegion} (hsl : r'.slabInfo = r.slabInfo)
    (hman : r'.numManagedPages = r.numManagedPages) : Shaped p (s.setRegion i r') := by
  have hmap := map_slabInfo_set hi hsl
  refine ⟨fun t ht => ?_, h.reserved, ?_, ?_⟩
  · rcases mem_or_eq_of_mem_set ht with ht | rfl
    · exact h.live t ht
    · rw [hsl, hman]
      exact h.live r (mem_of_getElem? hi)
  · rw [State.setRegion, hmap]
    exact h.above
  · rw [State.setRegion, hmap]
    exact h.apart

theorem makeRegionActive (j : ℕ) : Shaped p (s.makeRegionActive p j) := by
  rw [State.makeRegionActive]
  split
  · rename_i t hj
    have hmem : t ∈ s.reserved := mem_of_getElem? hj
    have hpr := activate_perm (p := p) hj
    refine ⟨fun r hr => ?_, fun r hr => h.reserved r (mem_of_mem_eraseIdx hr),
      fun r hr => h.above r (hpr.mem_iff.2 hr), hpr.pairwise h.apart fun h => h.symm⟩
    rcases mem_append.1 hr with hr | hr
    · exact h.live r hr
    · rw [mem_singleton.1 hr]
      exact ⟨h.reserved t hmem, rfl⟩
  · exact h

theorem searched (hs : s.Searched p s') : Shaped p s' := by
  induction hs with
  | refl => exact h
  | turn _ hi ih => exact ih.setRegion hi rfl rfl
  | map _ _ _ ih => exact ih.congr rfl rfl
  | activate j _ ih => exact ih.makeRegionActive j

theorem finishMmap (length : ℕ) (placed : ℕ × Option ℕ) :
    Shaped p (s.finishMmap p length placed).1 := by
  have hmr : Shaped p (s.markUsed p placed.1 length placed.2) := by
    rw [markUsed.eq_def]
    split
    · exact h
    · split
      · rename_i r hi
        exact h.setRegion hi rfl rfl
      · exact h
  rw [State.finishMmap]
  split
  · exact hmr
  · exact hmr.congr rfl rfl

theorem step (c : Call) : Shaped p (step p host s c).1 := by
  cases c with
  | mmap q =>
    rw [Alloc64.step, mmap]
    iterate 4
      split
      · exact h
    split
    · exact (h.searched (s.placeHint_searched _ _ _ _)).finishMmap _ _
    · have hpla := h.searched (s.placeFixed_searched host
        (q.placement == .fixedNoreplace) (requestAddr p q)
        (wadd (requestAddr p q) (p.alignUp q.length)) (p.alignUp q.length))
      split
      · rename_i heq
        rw [heq] at hpla
        exact hpla
      · rename_i heq
        rw [heq] at hpla
        exact hpla.finishMmap _ _
  | munmap addr length =>
    rw [Alloc64.step, munmap]
    iterate 3
      split
      · exact h
    simp only
    split
    · rename_i i _
      rw [releaseIn]
      split
      · exact h.congr rfl rfl
      · rename_i r hi
        have hset : Shaped p (s.setRegion i (r.release p addr (length / p.size))) :=
          h.setRegion hi rfl rfl
        split
        · exact hset.congr rfl rfl
        · exact hset.congr rfl rfl
    · exact h.congr rfl rfl

end

end Shaped

/-- The calls with any answers of the kernel. -/
def hostMachine (p : HostPage) : Machine State ((ℕ → ℕ → Option ℕ) × Call) :=
  Machine.ofFun fun s a => (step p a.1 s a.2).1

theorem shaped_initial {thpAlign : ℕ} (hthp : p.size ∣ thpAlign)
    {ranges regions : List ReservedVMARegion} (hok : ∀ r ∈ ranges, RangeOk p r)
    (habo : ∀ r ∈ ranges, lowerBound ≤ r.base) (hapa : ranges.Pairwise ReservedVMARegion.Apart)
    (hreg : allocateMemoryRegions p thpAlign ranges = some regions) :
    Shaped p (initial regions) := by
  have hinv := inv_initial hthp hok hapa hreg
  obtain ⟨rest, hrs, rfl⟩ := Option.map_eq_some_iff.1 hreg
  refine ⟨nofun, hinv.reserved, fun t ht => ?_, hinv.apart⟩
  obtain ⟨r, hr, hle, -⟩ := ((takeArena_spec hthp hrs hok hapa).2 t (mem_filter.1 ht).1).2
  exact (habo r hr).trans hle

/-! ### One request -/

variable {offset : Option ℕ}

/-- The range consists of pages of the region behind its header. -/
structure LiveVMARegion.Inside (p : HostPage) (r : LiveVMARegion) (addr length : ℕ) : Prop where
  dvd_addr : p.size ∣ addr
  dvd_length : p.size ∣ length
  pos : 0 < length
  header_le : r.slabInfo.base + r.slabInfo.headerSize p ≤ addr
  end_le : addr + length ≤ r.slabInfo.endAddr

/-- No page of the range is marked as used. -/
def LiveVMARegion.PagesFree (p : HostPage) (r : LiveVMARegion) (addr length : ℕ) : Prop :=
  r.usedPages.Free (r.pageOf p addr) (length / p.size)

instance (r : LiveVMARegion) (addr length : ℕ) : Decidable (r.PagesFree p addr length) :=
  inferInstanceAs (Decidable (r.usedPages.Free _ _))

/-- No range of `n` free pages starts behind the header and ends at the page `c` or below. -/
def LiveVMARegion.NoneBelow (r : LiveVMARegion) (n c : ℕ) : Prop :=
  ∀ d, r.numManagedPages ≤ d → d + n ≤ c + 1 → ¬r.usedPages.Free d n

/-- No range of `n` free pages starts at the page `c` or above, the page behind the region
included. -/
def LiveVMARegion.NoneAbove (p : HostPage) (r : LiveVMARegion) (n c : ℕ) : Prop :=
  ∀ d, c ≤ d → d + n ≤ r.numPages p + 1 → ¬r.usedPages.Free d n

/-- The request is served at its address if the pages are free, and refused without a mapping
otherwise. -/
def State.ServesExactly (p : HostPage) (host : ℕ → ℕ → Option ℕ) (s : State) (r : LiveVMARegion)
    (addr length : ℕ) (offset : Option ℕ) : Prop :=
  (r.PagesFree p addr length →
      (s.mmap p host ⟨addr, length, .fixedNoreplace, offset⟩).2 = .ok addr) ∧
    (¬r.PagesFree p addr length →
      (s.mmap p host ⟨addr, length, .fixedNoreplace, offset⟩).2 = .error .EEXIST ∧
        (s.mmap p host ⟨addr, length, .fixedNoreplace, offset⟩).1.fixedMaps = s.fixedMaps)

/-- What the request needs.  The range may not end where the region ends.  Free pages need a region
that counts them as free, a kernel that maps them, and, if the region has had a `Munmap`, a single
page or no room that ends at the first page.  Used pages need a region in which the search finds
nothing else. -/
structure LiveVMARegion.ExactOk (p : HostPage) (host : ℕ → ℕ → Option ℕ) (r : LiveVMARegion)
    (addr length : ℕ) (offset : Option ℕ) : Prop where
  offset : offset.all fun o => o % p.size == 0
  end_lt : addr + length < r.slabInfo.endAddr
  free : r.PagesFree p addr length → length ≤ r.freeSpace ∧ host addr length = none ∧
    (r.hadMunmap = true → length = p.size ∨ r.NoneBelow (length / p.size) (r.pageOf p addr))
  used : ¬r.PagesFree p addr length → length ≤ r.freeSpace →
    r.NoneAbove p (length / p.size) (r.pageOf p addr) ∧
      (r.hadMunmap = true → r.NoneBelow (length / p.size) (r.pageOf p addr))

namespace LiveVMARegion

variable {addr : ℕ}

theorem Inside.contains (h : r.Inside p addr length) : r.slabInfo.Contains addr :=
  ⟨(Nat.le_add_right _ _).trans h.header_le,
    lt_of_lt_of_le (Nat.lt_add_of_pos_right h.pos) h.end_le⟩

/-- The range in pages. -/
theorem Inside.pages (h : r.Inside p addr length) (hwf : r.slabInfo.Wf p) :
    r.slabInfo.base + r.pageOf p addr * p.size = addr ∧ length / p.size * p.size = length ∧
      r.slabInfo.headerSize p / p.size ≤ r.pageOf p addr ∧
      r.pageOf p addr + length / p.size ≤ r.numPages p := by
  have hin := h.contains
  have hpg := pageOf_mul hwf hin h.dvd_addr
  have hlen : length / p.size * p.size = length := Nat.div_mul_cancel h.dvd_length
  have hhea := h.header_le
  have hend := h.end_le
  rw [ReservedVMARegion.endAddr] at hend
  refine ⟨by omega, hlen, ?_, ?_⟩
  · rw [pageOf_eq hwf hin]
    exact Nat.div_le_div_right (by omega)
  · refine (Nat.le_div_iff_mul_le p.pos).2 ?_
    rw [Nat.add_mul, hpg, hlen]
    omega

theorem Inside.alignUp (h : r.Inside p addr length) (hwf : r.slabInfo.Wf p) :
    p.alignUp length = length := by
  obtain ⟨n, rfl⟩ := h.dvd_length
  have hpos := p.pos
  have hend := hwf.end_lt
  have hle := h.end_le
  have hhea := h.header_le
  have hdiv : (p.size * n + (p.size - 1)) / p.size = n := by
    rw [Nat.mul_add_div hpos, Nat.div_eq_of_lt (by omega), Nat.add_zero]
  rw [HostPage.alignUp, wadd_eq ?_, hdiv, Nat.mul_comm]
  -- the page the length could be rounded up by is a page of the header
  have hone := Nat.mul_le_mul_right p.size hwf.header_pos
  rw [← ReservedVMARegion.headerSize_eq] at hone
  omega

/-- **What the search from the first page of the range finds**: with free pages it is the range
itself, unless it looks backwards and there is room; with used pages it is nothing only if there is
no room in both directions. -/
theorem findRange_exact {start n : ℕ} (hman : 0 < r.numManagedPages)
    (hpag : r.numPages p < word - 1) (hsta : r.numManagedPages ≤ start)
    (hfit : start + n ≤ r.numPages p) (hn : 0 < n) :
    (r.usedPages.Free start n → ((r.findRange p start n).2 = some start ↔
        (r.hadMunmap = true → n = 1 ∨ r.NoneBelow n start))) ∧
    (¬r.usedPages.Free start n → ((r.findRange p start n).2 = none ↔
        r.NoneAbove p n start ∧ (r.hadMunmap = true → r.NoneBelow n start)) ∧
        (r.findRange p start n).2 ≠ some start) := by
  rcases findRange_cases hman hpag (by omega : n ≤ r.numPages p) start with
    ⟨c, heq, hmun, hhg⟩ | ⟨hlow, hbc⟩
  · rw [heq]
    refine ⟨fun hfr => ⟨fun hc _ => .inl ?_, fun hcn => ?_⟩, fun hus => ⟨⟨nofun, ?_⟩, ?_⟩⟩
    · have hle := hhg.le
      cases hc
      omega
    · rcases hcn hmun with rfl | hnn
      · -- a single free page is the highest room that ends at it
        have hle := hhg.le
        congr 1
        by_contra hne
        exact hhg.highest start (by omega) (by omega) hfr
      · exact absurd hhg.free (hnn c hhg.minimum_le hhg.le)
    · rintro ⟨-, hnn⟩
      exact absurd hhg.free (hnn hmun c hhg.minimum_le hhg.le)
    · rintro ⟨⟩
      exact hus hhg.free
  · refine ⟨fun hfr => iff_of_true ?_ fun hmun => .inr (hbc hmun), fun hus => ?_⟩
    · exact hlow.eq_some le_rfl (by omega) hfr fun d h1 h2 => absurd h1 (by omega)
    · cases hfou : (r.findRange p start n).2 with
      | none =>
        rw [hfou] at hlow
        exact ⟨iff_of_true rfl ⟨fun d h1 h2 => hlow d h1 (by omega), hbc⟩, nofun⟩
      | some c =>
        rw [hfou] at hlow
        have hle := hlow.le_final
        refine ⟨iff_of_false nofun ?_, ?_⟩
        · rintro ⟨hnn, -⟩
          exact hnn c hlow.le (by omega) hlow.free
        · rintro ⟨⟩
          exact hus hlow.free

theorem findRange_le {start n c : ℕ} (hman : 0 < r.numManagedPages)
    (hpag : r.numPages p < word - 1) (hfit : start + n ≤ r.numPages p) (hn : 0 < n)
    (hfou : (r.findRange p start n).2 = some c) : c ≤ r.numPages p := by
  rcases findRange_cases hman hpag (by omega : n ≤ r.numPages p) start with
    ⟨d, heq, -, hhg⟩ | ⟨hlow, -⟩
  · rw [hfou] at heq
    cases heq
    have hle := hhg.le
    omega
  · rw [hfou] at hlow
    have hle := hlow.le_final
    omega

end LiveVMARegion

namespace Shaped

variable {addr : ℕ}

/-- An answer that is neither the address nor `EEXIST` is wrong in both cases. -/
theorem not_servesExactly {e : Errno}
    (heq : s.mmap p host ⟨addr, length, .fixedNoreplace, offset⟩ = (s', .error e))
    (he : e ≠ .EEXIST) : ¬s.ServesExactly p host r addr length offset := by
  rintro ⟨hfr, hus⟩
  rw [heq] at hfr hus
  by_cases hpag : r.PagesFree p addr length
  · cases hfr hpag
  · exact he (Answer.error.inj (hus hpag).1)

section

variable (h : Shaped p s)
include h

/-- No other region holds a range inside a live region. -/
theorem holdsRange_other (hr : r ∈ s.live) (hin : r.Inside p addr length) {t : ReservedVMARegion}
    (hwf : t.Wf p) (hapa : r.slabInfo.Apart t) :
    holdsRange addr (wadd addr length) t = false := by
  have hend : addr + length < word := hin.end_le.trans_lt (h.live r hr).1.end_lt
  rw [Bool.eq_false_iff, ne_eq, holdsRange_iff hwf hend]
  exact fun hhol => hapa.not_contains hin.contains ⟨hhol.1, by omega⟩

/-- The live region of the range is found, unless the range ends where the region ends. -/
theorem findIdx_inside (hi : s.live[i]? = some r) (hin : r.Inside p addr length) :
    (s.live.findIdx? fun t => holdsRange addr (wadd addr length) t.slabInfo) =
      if addr + length < r.slabInfo.endAddr then some i else none := by
  have hmem := mem_of_getElem? hi
  have hwf := (h.live r hmem).1
  have hend : addr + length < word := hin.end_le.trans_lt hwf.end_lt
  obtain ⟨hlt, hget⟩ := List.getElem?_eq_some_iff.1 hi
  cases hfn : s.live.findIdx? fun t => holdsRange addr (wadd addr length) t.slabInfo with
  | some j =>
    obtain ⟨hjlt, hhol, -⟩ := findIdx?_eq_some_iff_getElem.1 hfn
    by_cases hne : i = j
    · subst hne
      rw [hget, holdsRange_iff hwf hend] at hhol
      rw [if_pos hhol.2]
    · have hj : s.live[j]? = some s.live[j] := getElem?_eq_getElem hjlt
      have hapa := apart_of_ne h.apart hi hj hne
      rw [h.holdsRange_other hmem hin (h.live _ (getElem_mem hjlt)).1 hapa] at hhol
      cases hhol
  | none =>
    have hr := findIdx?_eq_none_iff.1 hfn r hmem
    rw [Bool.eq_false_iff, ne_eq, holdsRange_iff hwf hend] at hr
    rw [if_neg fun hlt => hr ⟨hin.contains.1, hlt⟩]

/-- So no reserved region is made active for the range. -/
theorem find_inside (hi : s.live[i]? = some r) (hin : r.Inside p addr length) :
    s.findLiveRegionForAddress p addr (wadd addr length) =
      if addr + length < r.slabInfo.endAddr then (s, some i) else (s, none) := by
  have hmem := mem_of_getElem? hi
  obtain ⟨-, -, hcro⟩ := pairwise_append.1 h.apart
  have hres : s.reserved.findIdx? (holdsRange addr (wadd addr length)) = none :=
    findIdx?_eq_none_iff.2 fun t ht => h.holdsRange_other hmem hin (h.reserved t ht)
      (hcro r.slabInfo (mem_map_of_mem hmem) t ht)
  rw [findLiveRegionForAddress, h.findIdx_inside hi hin]
  by_cases hlt : addr + length < r.slabInfo.endAddr
  · rw [if_pos hlt, if_pos hlt]
  · rw [if_neg hlt, if_neg hlt]
    simp [hres]

/-- What the request does once its region is found. -/
theorem mmap_noreplace (host : ℕ → ℕ → Option ℕ) (hi : s.live[i]? = some r)
    (hin : r.Inside p addr length) (offset : Option ℕ) :
    s.mmap p host ⟨addr, length, .fixedNoreplace, offset⟩ =
      if offset.all fun o => o % p.size == 0 then
        if addr + length < r.slabInfo.endAddr then
          match s.checkIfRangeFits p host i length addr with
          | (s', some (found, true)) =>
            if found == addr then s'.finishMmap p length (addr, some i) else (s', .error .EEXIST)
          | (s', _) => (s', .error .EEXIST)
        else (s, .error .ENOMEM)
      else (s, .error .EINVAL) := by
  have hmem := mem_of_getElem? hi
  have hwf := (h.live r hmem).1
  have habo := h.above r.slabInfo (mem_append_left _ (mem_map_of_mem hmem))
  have hbs := hin.contains.1
  have hend : addr + length < word := hin.end_le.trans_lt hwf.end_lt
  have hspa : ¬(addr ≠ 0 ∧ addr < lowerBound) := by
    rintro ⟨-, hlt⟩
    omega
  have hali : ¬addr % p.size ≠ 0 := not_not.2 (Nat.mod_eq_zero_of_dvd hin.dvd_addr)
  have hov : ¬wadd addr length < addr := by
    rw [wadd_eq hend]
    omega
  have hpla : (Placement.fixedNoreplace == Placement.fixedNoreplace) = true := rfl
  have hany : (offset.any fun o => o % p.size != 0) = !offset.all fun o => o % p.size == 0 := by
    cases offset with
    | none => rfl
    | some o => rfl
  simp only [mmap, requestAddr, reduceCtorEq, ↓reduceIte, if_neg hspa,
    if_neg hali, if_neg hov, hin.alignUp hwf, placeFixed,
    h.find_inside hi hin, hany, Bool.not_eq_true', ← Bool.not_eq_true]
  by_cases hoff : (offset.all fun o => o % p.size == 0) = true
  · simp only [hoff]
    by_cases hlt : addr + length < r.slabInfo.endAddr
    · simp only [if_pos hlt]
      rcases s.checkIfRangeFits p host i length addr with ⟨s', _ | ⟨found, _ | _⟩⟩
      · rfl
      · rfl
      · cases hfou : found == addr with
        | false => simp [hfou]
        | true => simp [hfou]
    · simp only [if_neg hlt]
      rfl
  · simp [hoff]

/-- A request that gets to the search: what it answers and maps. -/
theorem mmap_searched (host : ℕ → ℕ → Option ℕ) (hi : s.live[i]? = some r)
    (hin : r.Inside p addr length) (hoff : offset.all fun o => o % p.size == 0)
    (hend : addr + length < r.slabInfo.endAddr) (hrm : length ≤ r.freeSpace) :
    ((r.findRange p (r.pageOf p addr) (length / p.size)).2 = none →
      (s.mmap p host ⟨addr, length, .fixedNoreplace, offset⟩).2 = .error .EEXIST ∧
        (s.mmap p host ⟨addr, length, .fixedNoreplace, offset⟩).1.fixedMaps = s.fixedMaps) ∧
    ∀ c, (r.findRange p (r.pageOf p addr) (length / p.size)).2 = some c →
      ((s.mmap p host ⟨addr, length, .fixedNoreplace, offset⟩).2 = .ok addr ↔
        c = r.pageOf p addr ∧ host addr length = none) ∧
      (s.mmap p host ⟨addr, length, .fixedNoreplace, offset⟩).1.fixedMaps ≠ s.fixedMaps := by
  have hmem := mem_of_getElem? hi
  obtain ⟨hwf, hman⟩ := h.live r hmem
  obtain ⟨hpg, hlen, -, hfit⟩ := hin.pages hwf
  have hne : addr ≠ 0 := by
    have habo := h.above r.slabInfo (mem_append_left _ (mem_map_of_mem hmem))
    unfold lowerBound at habo
    omega
  have hsta : startPage p r addr = r.pageOf p addr := if_neg hne
  rw [h.mmap_noreplace host hi hin offset, if_pos hoff, if_pos hend, checkIfRangeFits, hi]
  simp only [if_neg (not_lt.2 hrm), hsta]
  rcases hfn : r.findRange p (r.pageOf p addr) (length / p.size) with ⟨r', _ | c⟩
  · exact ⟨fun _ => ⟨rfl, rfl⟩, by rintro _ ⟨⟩⟩
  · refine ⟨by rintro ⟨⟩, fun d hd => ?_⟩
    obtain rfl : c = d := Option.some.inj hd
    have hle : c ≤ r.numPages p :=
      LiveVMARegion.findRange_le (hman ▸ hwf.header_pos) (hwf.pages_lt.trans (by decide)) hfit
        (Nat.div_pos (Nat.le_of_dvd hin.pos hin.dvd_length) p.pos) (congrArg Prod.snd hfn)
    have had := LiveVMARegion.addrOf_eq hwf hle
    have hsm : r.addrOf p c = addr ↔ c = r.pageOf p addr := by
      rw [had]
      refine ⟨fun heq => ?_, fun heq => heq ▸ hpg⟩
      exact Nat.eq_of_mul_eq_mul_right p.pos (by omega)
    have hgro : ∀ m : ℕ × ℕ, m :: s.fixedMaps ≠ s.fixedMaps :=
      fun m => cons_ne_self m _
    cases hhs : (host (r.addrOf p c) length).isNone with
    | false =>
      simp only [hhs]
      refine ⟨iff_of_false (by rintro ⟨⟩) ?_, hgro _⟩
      rintro ⟨hc, hnn⟩
      rw [hsm.2 hc, hnn] at hhs
      cases hhs
    | true =>
      simp only [hhs]
      rw [Option.isNone_iff_eq_none] at hhs
      by_cases hc : c = r.pageOf p addr
      · have heq := hsm.2 hc
        rw [heq] at hhs
        simp only [heq, beq_self_eq_true, ↓reduceIte, State.finishMmap, if_neg hne]
        refine ⟨iff_of_true trivial ⟨hc, hhs⟩, ?_⟩
        rw [markUsed.eq_def]
        simp only
        split <;> exact hgro _
      · have hneq : (r.addrOf p c == addr) = false := beq_false_of_ne (mt hsm.1 hc)
        simp only [hneq]
        exact ⟨iff_of_false (by rintro ⟨⟩) fun hbt => hc hbt.1, hgro _⟩

theorem servesExactly_iff (hi : s.live[i]? = some r) (hin : r.Inside p addr length)
    (offset : Option ℕ) :
    s.ServesExactly p host r addr length offset ↔ r.ExactOk p host addr length offset := by
  have hcl := h.mmap_noreplace host hi hin offset
  by_cases hoff : (offset.all fun o => o % p.size == 0) = true
  swap
  · rw [if_neg hoff] at hcl
    exact iff_of_false (not_servesExactly hcl (by rintro ⟨⟩)) fun hok => hoff hok.offset
  by_cases hend : addr + length < r.slabInfo.endAddr
  swap
  · rw [if_pos hoff, if_neg hend] at hcl
    exact iff_of_false (not_servesExactly hcl (by rintro ⟨⟩)) fun hok => hend hok.end_lt
  by_cases hrm : length ≤ r.freeSpace
  swap
  · -- a region without enough free space is not searched
    rw [if_pos hoff, if_pos hend, checkIfRangeFits, hi] at hcl
    simp only [if_pos (not_le.1 hrm)] at hcl
    rw [ServesExactly, hcl]
    refine ⟨fun hexa => ⟨hoff, hend, fun hfr => (by cases hexa.1 hfr),
      fun _ hle => absurd hle hrm⟩, fun hok => ⟨fun hfr => absurd (hok.free hfr).1 hrm,
      fun _ => ⟨rfl, rfl⟩⟩⟩
  obtain ⟨hwf, hman⟩ := h.live r (mem_of_getElem? hi)
  obtain ⟨-, hlen, hhea, hfit⟩ := hin.pages hwf
  obtain ⟨hwhf, hwhu⟩ := findRange_exact (hman ▸ hwf.header_pos)
    (hwf.pages_lt.trans (by decide)) (hman ▸ hhea) hfit
    (Nat.div_pos (Nat.le_of_dvd hin.pos hin.dvd_length) p.pos)
  obtain ⟨hnn, hsm⟩ := h.mmap_searched host hi hin hoff hend hrm
  have hone : length / p.size = 1 ↔ length = p.size := by
    rw [← hlen, Nat.mul_div_cancel _ p.pos]
    exact ⟨fun heq => by rw [heq, Nat.one_mul],
      fun heq => Nat.eq_of_mul_eq_mul_right p.pos (by rw [heq, Nat.one_mul])⟩
  by_cases hpag : r.PagesFree p addr length
  · have hsea := hwhf hpag
    rw [hone] at hsea
    refine ⟨fun hexa => ⟨hoff, hend, fun _ => ?_, fun hno => absurd hpag hno⟩,
      fun hok => ⟨fun _ => ?_, fun hno => absurd hpag hno⟩⟩
    · have hans := hexa.1 hpag
      cases hfou : (r.findRange p (r.pageOf p addr) (length / p.size)).2 with
      | none =>
        rw [(hnn hfou).1] at hans
        cases hans
      | some c =>
        obtain ⟨hc, hhs⟩ := (hsm c hfou).1.1 hans
        exact ⟨hrm, hhs, hsea.1 (hfou.trans (congrArg some hc))⟩
    · obtain ⟨-, hhs, hbc⟩ := hok.free hpag
      exact (hsm _ (hsea.2 hbc)).1.2 ⟨rfl, hhs⟩
  · obtain ⟨hsea, -⟩ := hwhu hpag
    refine ⟨fun hexa => ⟨hoff, hend, fun hfr => absurd hfr hpag, fun _ _ => ?_⟩,
      fun hok => ⟨fun hfr => absurd hfr hpag, fun _ => hnn (hsea.2 (hok.used hpag hrm))⟩⟩
    refine hsea.1 ?_
    cases hfou : (r.findRange p (r.pageOf p addr) (length / p.size)).2 with
    | none => rfl
    | some c => exact absurd (hexa.2 hpag).2 (hsm c hfou).2

end

end Shaped

/-- **Exact placements**: after any calls and any answers of the kernel, a request with
`MAP_FIXED_NOREPLACE` for pages of a live region is served at its address if the pages are free and
refused without a mapping otherwise, if and only if the search does what the request asks for. -/
theorem noreplace_exact_iff (p : HostPage) (thpAlign : ℕ) (hthp : p.size ∣ thpAlign)
    (ranges regions : List ReservedVMARegion) (hok : ∀ r ∈ ranges, RangeOk p r)
    (habove : ∀ r ∈ ranges, lowerBound ≤ r.base)
    (hapart : ranges.Pairwise ReservedVMARegion.Apart)
    (hregions : allocateMemoryRegions p thpAlign ranges = some regions)
    (calls : List ((ℕ → ℕ → Option ℕ) × Call)) (s : State)
    (hrun : (hostMachine p).Run (fun _ _ => True) (initial regions) calls s)
    (host : ℕ → ℕ → Option ℕ) (r : LiveVMARegion) (hr : r ∈ s.live) (addr length : ℕ)
    (hin : r.Inside p addr length) (offset : Option ℕ) :
    s.ServesExactly p host r addr length offset ↔ r.ExactOk p host addr length offset := by
  have hsha : Shaped p s := by
    refine hrun.invariant (shaped_initial hthp hok habove hapart hregions) ?_
    rintro s ⟨host, c⟩ s' hs - rfl
    exact hs.step c
  obtain ⟨i, hi⟩ := mem_iff_getElem?.1 hr
  exact hsha.servesExactly_iff hi hin offset

/-! ### Requests on a small region -/

/-- The exact request for some pages of `smallRegion`. -/
def exactly (page pages : ℕ) : Call :=
  .mmap ⟨smallRegion.base + page * 65536, pages * 65536, .fixedNoreplace, none⟩

theorem noreplace_exact_smallRegion :
    ∃ s r, (hostMachine page64K).Run (fun _ _ => True) (initial [smallRegion])
        [(obliging, ask 3 none)] s ∧ r ∈ s.live ∧
      r.ExactOk page64K obliging (smallRegion.base + 4 * 65536) (2 * 65536) none ∧
      s.ServesExactly page64K obliging r (smallRegion.base + 4 * 65536) (2 * 65536) none := by
  have hrun : (hostMachine page64K).Run (fun _ _ => True) (initial [smallRegion])
      [(obliging, ask 3 none)] (step page64K obliging (initial [smallRegion]) (ask 3 none)).1 :=
    .cons trivial rfl (.nil _)
  have hok : LiveVMARegion.ExactOk page64K obliging
      ((smallRegion.activate page64K).mark page64K (smallRegion.base + 1 * 65536) 3)
      (smallRegion.base + 4 * 65536) (2 * 65536) none :=
    ⟨rfl, by decide, fun _ => ⟨by decide, rfl, nofun⟩, fun h => absurd (by decide) h⟩
  refine ⟨_, _, hrun, mem_singleton.2 rfl, hok, ?_⟩
  exact (noreplace_exact_iff page64K 0 (Nat.dvd_zero _) [smallRange] [smallRegion]
    (forall_mem_singleton.2 ⟨by decide, by decide, by decide⟩)
    (forall_mem_singleton.2 (by decide)) (pairwise_singleton _ _) (by decide) _ _ hrun
    obliging _ (mem_singleton.2 rfl) _ _
    ⟨by decide, by decide, by decide, by decide, by decide⟩ none).2 hok

/-- The mappings made by the calls of a list. -/
def fixedMapsAfter (p : HostPage) (host : ℕ → ℕ → Option ℕ) (s : State) (cs : List Call) :
    List (ℕ × ℕ) :=
  (cs.foldl (fun s c => (step p host s c).1) s).fixedMaps

/-- Three requests that are not served exactly.  After a `Munmap` the search for the free pages 6
and 7 finds the pages 5 and 6, maps them and answers `EEXIST`; the request for the used page 2 maps
the free page 4; and the free pages up to the end of the region get `ENOMEM`. -/
theorem noreplace_not_exact :
    answers page64K obliging (initial [smallRegion]) [ask 3 none, giveBack 1 1, exactly 6 2] =
        [.ok (smallRegion.base + 1 * 65536), .ok 0, .error .EEXIST] ∧
      (fixedMapsAfter page64K obliging (initial [smallRegion])
          [ask 3 none, giveBack 1 1, exactly 6 2]).head? =
        some (smallRegion.base + 5 * 65536, 2 * 65536) ∧
      answers page64K obliging (initial [smallRegion]) [ask 3 none, exactly 2 1] =
        [.ok (smallRegion.base + 1 * 65536), .error .EEXIST] ∧
      (fixedMapsAfter page64K obliging (initial [smallRegion]) [ask 3 none, exactly 2 1]).head? =
        some (smallRegion.base + 4 * 65536, 1 * 65536) ∧
      answers page64K obliging (initial [smallRegion]) [ask 3 none, exactly 8 1] =
        [.ok (smallRegion.base + 1 * 65536), .error .ENOMEM] := by
  decide +kernel

end FastPPC.Alloc64
