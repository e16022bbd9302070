import FastPPC.Alloc.Search

/-!
# Where the 64-bit allocator places memory

The invariant of the allocator, and what it says about the calls.  Every allocated address belongs
to a used page of a live region, behind the header.  A search that does not overrun a region then
finds free pages only.

* `Inv` : the invariant;
* `Inv.update` : a live region and the allocated addresses in it change together;
* `Inv.searchAll`, `Inv.placeHint` : what the searches find.
-/

namespace FastPPC.Alloc64

open State LiveVMARegion ReservedVMARegion List

variable {t : ReservedVMARegion} {a : ℕ} {r' : LiveVMARegion}

variable {p : HostPage}

namespace ReservedVMARegion

variable {r : ReservedVMARegion}

def Contains (r : ReservedVMARegion) (a : ℕ) : Prop := r.base ≤ a ∧ a < r.endAddr

def Apart (r t : ReservedVMARegion) : Prop := r.endAddr ≤ t.base ∨ t.endAddr ≤ r.base

theorem Apart.symm (h : r.Apart t) : t.Apart r := Or.symm h

theorem Apart.not_contains (h : r.Apart t) (hr : r.Contains a) : ¬t.Contains a := by
  rintro ⟨h1, h2⟩
  obtain ⟨h3, h4⟩ := hr
  rcases h with h | h <;> omega

/-- The range lies inside the region. -/
def Encloses (r : ReservedVMARegion) (addr length : ℕ) : Prop :=
  r.base ≤ addr ∧ addr + length ≤ r.endAddr

end ReservedVMARegion

namespace LiveVMARegion

structure Good (p : HostPage) (allocated : ℕ → Bool) (r : LiveVMARegion) : Prop where
  wf : r.slabInfo.Wf p
  managed : r.numManagedPages = r.slabInfo.headerSize p / p.size
  le_last : r.numManagedPages ≤ r.lastPageAllocation
  last_le : r.lastPageAllocation ≤ r.numPages p
  beyond : ∀ i, r.numPages p ≤ i → r.usedPages i = false
  used : ∀ a, allocated a = true → r.slabInfo.Contains a →
    r.usedPages ((a - r.slabInfo.base) / p.size) = true

/-- The `n` pages from `c` on are free pages of the region, behind its header. -/
structure Fits (p : HostPage) (r : LiveVMARegion) (n c : ℕ) : Prop where
  managed_le : r.numManagedPages ≤ c
  le : c + n ≤ r.numPages p
  free : r.usedPages.Free c n

variable {r : LiveVMARegion} {allocated : ℕ → Bool} {n c : ℕ}

/-- Pages fit in a region that has been searched if they fitted before. -/
theorem Fits.setHadMunmap (h : Fits p r n c) (hr' : r' = r ∨ r' = { r with hadMunmap := false }) :
    Fits p r' n c ∧ r'.addrOf p c = r.addrOf p c := by
  rcases hr' with rfl | rfl
  · exact ⟨h, rfl⟩
  · exact ⟨⟨h.managed_le, h.le, h.free⟩, rfl⟩

theorem numPages_mul_le (p : HostPage) (r : LiveVMARegion) :
    r.numPages p * p.size ≤ r.slabInfo.regionSize := Nat.div_mul_le_self _ _

section

variable (h : r.Good p allocated)
include h

theorem Good.managed_pos : 0 < r.numManagedPages :=
  h.managed ▸ h.wf.header_pos

theorem Good.pages_lt : r.numPages p < word - 1 :=
  h.wf.pages_lt.trans (by decide)

theorem Good.mono {allocated' : ℕ → Bool}
    (hsub : ∀ a, r.slabInfo.Contains a → allocated' a = true → allocated a = true) :
    r.Good p allocated' :=
  { h with used := fun a ha hr => h.used a (hsub a hr ha) hr }

theorem Good.setHadMunmap (hr' : r' = r ∨ r' = { r with hadMunmap := false }) :
    r'.Good p allocated := by
  rcases hr' with rfl | rfl
  · exact h
  · exact { h with }

end

section

variable (hwf : r.slabInfo.Wf p)
include hwf

theorem addrOf_eq (hc : c ≤ r.numPages p) :
    r.addrOf p c = r.slabInfo.base + c * p.size := by
  have hmul := Nat.mul_le_mul_right p.size hc
  have hle := r.numPages_mul_le p
  have hend := hwf.end_lt
  rw [endAddr] at hend
  exact wadd_eq (by omega)

theorem pageOf_eq (ha : r.slabInfo.Contains a) :
    r.pageOf p a = (a - r.slabInfo.base) / p.size := by
  rw [pageOf, wsub_eq (ha.2.trans hwf.end_lt) ha.1]

theorem pageOf_mul (ha : r.slabInfo.Contains a) (hdvd : p.size ∣ a) :
    r.pageOf p a * p.size = a - r.slabInfo.base := by
  rw [pageOf_eq hwf ha, Nat.div_mul_cancel (Nat.dvd_sub hdvd hwf.dvd)]

theorem pageOf_mod (ha : r.slabInfo.Contains a) :
    r.pageOf p a % 2 ^ 32 = r.pageOf p a := by
  refine Nat.mod_eq_of_lt (lt_of_le_of_lt ?_ hwf.pages_lt)
  rw [pageOf_eq hwf ha]
  exact Nat.div_le_div_right (by have := ha.2; rw [endAddr] at this; omega)

end

/-- The addresses of the pages `[c, c + n)`. -/
theorem page_mem_iff (ha : r.slabInfo.base ≤ a) :
    (r.slabInfo.base + c * p.size ≤ a ∧ a < r.slabInfo.base + c * p.size + n * p.size) ↔
      c ≤ (a - r.slabInfo.base) / p.size ∧ (a - r.slabInfo.base) / p.size < c + n := by
  rw [Nat.le_div_iff_mul_le p.pos, Nat.div_lt_iff_lt_mul p.pos, Nat.add_mul]
  omega

theorem pages_encloses (hle : c + n ≤ r.numPages p) :
    r.slabInfo.base + c * p.size + n * p.size ≤ r.slabInfo.endAddr := by
  have hmul := Nat.mul_le_mul_right p.size hle
  have hsz := r.numPages_mul_le p
  rw [Nat.add_mul] at hmul
  rw [endAddr]
  omega

theorem Fits.encloses (h : Fits p r n c) :
    r.slabInfo.base + c * p.size + n * p.size ≤ r.slabInfo.endAddr := pages_encloses h.le

theorem Fits.not_allocated (h : Fits p r n c) (hgd : r.Good p allocated)
    (h1 : r.slabInfo.base + c * p.size ≤ a) (h2 : a < r.slabInfo.base + c * p.size + n * p.size) :
    allocated a = false := by
  have hbs : r.slabInfo.base ≤ a := by omega
  obtain ⟨h3, h4⟩ := page_mem_iff hbs |>.1 ⟨h1, h2⟩
  have hend := h.encloses
  cases hall : allocated a with
  | false => rfl
  | true =>
    have hus := hgd.used a hall ⟨hbs, by omega⟩
    exact absurd h.free (FlexBitSet.Free.not_of_set hus h3 h4)

theorem pageOf_addrOf (hwf : r.slabInfo.Wf p) (hc : c ≤ r.numPages p) :
    r.pageOf p (r.addrOf p c) = c := by
  have hend := hwf.end_lt
  have hin := pages_encloses (r := r) (n := 0) hc
  rw [addrOf_eq hwf hc, pageOf, wsub_eq (by omega) (by omega), Nat.add_sub_cancel_left,
    Nat.mul_div_cancel _ p.pos]

/-- Marking pages behind the header keeps the region good. -/
theorem Good.mark (hgd : r.Good p allocated) (hman : r.numManagedPages ≤ c)
    (hle : c + n ≤ r.numPages p) :
    (r.mark p (r.addrOf p c) n).Good p fun a =>
      decide (r.addrOf p c ≤ a ∧ a < r.addrOf p c + n * p.size) || allocated a := by
  have hc : c ≤ r.numPages p := (Nat.le_add_right _ _).trans hle
  have had := addrOf_eq hgd.wf hc
  have hpg := pageOf_addrOf hgd.wf hc
  have hls : (c + n) % 2 ^ 32 = c + n := Nat.mod_eq_of_lt (hle.trans_lt hgd.wf.pages_lt)
  refine ⟨hgd.wf, hgd.managed, ?_, ?_, fun i hi => ?_, fun a ha hr => ?_⟩
  · simp only [LiveVMARegion.mark, hpg, hls]
    exact hman.trans (Nat.le_add_right _ _)
  · simp only [LiveVMARegion.mark, hpg, hls]
    exact hle
  · have hi : r.numPages p ≤ i := hi
    simp only [LiveVMARegion.mark, FlexBitSet.setRange, hgd.beyond i hi, Bool.or_false,
      decide_eq_false_iff_not]
    omega
  · simp only [LiveVMARegion.mark, FlexBitSet.setRange, hpg, Bool.or_eq_true,
      decide_eq_true_eq] at ha ⊢
    rcases ha with ha | ha
    · rw [had] at ha
      exact .inl ((page_mem_iff hr.1).1 ha)
    · exact .inr (hgd.used a ha hr)

/-- So does releasing pages behind the header. -/
theorem Good.release (hgd : r.Good p allocated) {addr : ℕ} (hin : r.slabInfo.Contains addr)
    (hdvd : p.size ∣ addr) (hman : r.numManagedPages ≤ r.pageOf p addr) :
    (r.release p addr n).Good p fun a =>
      !decide (addr ≤ a ∧ a < addr + n * p.size) && allocated a := by
  have hmod := pageOf_mod hgd.wf hin
  have had : addr = r.slabInfo.base + r.pageOf p addr * p.size := by
    rw [pageOf_mul hgd.wf hin hdvd]
    have := hin.1
    omega
  refine ⟨hgd.wf, hgd.managed, ?_, ?_, fun i hi => ?_, fun a ha hr => ?_⟩
  · simp only [LiveVMARegion.release, hmod]
    exact le_min hgd.le_last hman
  · exact (Nat.min_le_left _ _).trans hgd.last_le
  · have hi : r.numPages p ≤ i := hi
    simp [LiveVMARegion.release, FlexBitSet.clearRange, hgd.beyond i hi]
  · simp only [LiveVMARegion.release, FlexBitSet.clearRange, hmod, Bool.and_eq_true,
      Bool.not_eq_true', decide_eq_false_iff_not] at ha ⊢
    refine ⟨fun hpag => ha.1 ?_, hgd.used a ha.2 hr⟩
    nth_rewrite 1 [had]
    nth_rewrite 2 [had]
    exact (page_mem_iff hr.1).2 hpag

end LiveVMARegion

/-! ### The invariant of the allocator -/

/-- The invariant of the allocator that owns the given regions. -/
structure Inv (p : HostPage) (owned : List ReservedVMARegion) (s : State) : Prop where
  live : ∀ r ∈ s.live, r.Good p s.allocated
  reserved : ∀ r ∈ s.reserved, r.Wf p
  apart : (s.live.map slabInfo ++ s.reserved).Pairwise ReservedVMARegion.Apart
  regions : ∀ r ∈ s.live.map slabInfo ++ s.reserved, r ∈ owned
  inside : ∀ a, s.allocated a = true → ∃ r ∈ s.live, r.slabInfo.Contains a
  fixed : ∀ m ∈ s.fixedMaps, ∃ r ∈ owned, r.Encloses m.1 m.2

variable {owned : List ReservedVMARegion} {s : State} {i : ℕ} {r : LiveVMARegion}

theorem Inv.mem_owned (h : Inv p owned s) (hr : r ∈ s.live) : r.slabInfo ∈ owned :=
  h.regions _ (mem_append_left _ (mem_map_of_mem hr))

/-- Two live regions are apart if all regions are. -/
theorem apart_of_ne (h : (s.live.map slabInfo ++ s.reserved).Pairwise Apart) {j : ℕ}
    {t : LiveVMARegion} (hi : s.live[i]? = some r) (hj : s.live[j]? = some t) (hne : i ≠ j) :
    r.slabInfo.Apart t.slabInfo := by
  have hpr := pairwise_map.1 (pairwise_append.1 h).1
  obtain ⟨hilt, rfl⟩ := List.getElem?_eq_some_iff.1 hi
  obtain ⟨hjlt, rfl⟩ := List.getElem?_eq_some_iff.1 hj
  rcases Nat.lt_or_gt_of_ne hne with hlt | hlt
  · exact pairwise_iff_getElem.1 hpr _ _ hilt hjlt hlt
  · exact (pairwise_iff_getElem.1 hpr _ _ hjlt hilt hlt).symm

section

variable (hi : s.live[i]? = some r)
include hi

theorem map_slabInfo_set (hsl : r'.slabInfo = r.slabInfo) :
    (s.live.set i r').map slabInfo = s.live.map slabInfo := by
  obtain ⟨hlt, rfl⟩ := List.getElem?_eq_some_iff.1 hi
  rw [map_set, hsl, ← map_set, set_getElem_self]

theorem mem_setRegion (r' : LiveVMARegion) {t : LiveVMARegion} (ht : t ∈ s.live) :
    t = r ∨ t ∈ (s.setRegion i r').live := by
  obtain ⟨j, hj⟩ := mem_iff_getElem?.1 ht
  by_cases hne : i = j
  · rw [← hne, hi] at hj
    cases hj
    exact .inl rfl
  · refine .inr (mem_of_getElem? (i := j) ?_)
    rw [setRegion, getElem?_set_ne hne, hj]

theorem cases_of_mem_setRegion {t : LiveVMARegion} (ht : t ∈ (s.setRegion i r').live) :
    t = r' ∨ ∃ j, i ≠ j ∧ s.live[j]? = some t := by
  obtain ⟨j, hj⟩ := mem_iff_getElem?.1 ht
  rw [setRegion] at hj
  by_cases hne : i = j
  · rw [← hne, List.getElem?_set_self (List.getElem?_eq_some_iff.1 hi).1] at hj
    cases hj
    exact .inl rfl
  · rw [getElem?_set_ne hne] at hj
    exact .inr ⟨j, hne, hj⟩

/-- The allocated addresses stay inside the regions if only those in one region change. -/
theorem inside_setRegion (hsl : r'.slabInfo = r.slabInfo) {allocated : ℕ → Bool}
    (hout : ∀ a, ¬r.slabInfo.Contains a → allocated a = s.allocated a)
    (h : ∀ a, s.allocated a = true → ∃ r ∈ s.live, r.slabInfo.Contains a)
    (ha : allocated a = true) :
    ∃ t ∈ (s.setRegion i r').live, t.slabInfo.Contains a := by
  by_cases hcon : r.slabInfo.Contains a
  · exact ⟨r', mem_set (List.getElem?_eq_some_iff.1 hi).1 r', hsl ▸ hcon⟩
  · obtain ⟨t, ht, hta⟩ := h a ((hout a hcon).symm.trans ha)
    rcases mem_setRegion hi r' ht with rfl | ht
    · exact absurd hta hcon
    · exact ⟨t, ht, hta⟩

end

/-- A region that becomes active only moves from one list to the other. -/
theorem activate_perm {j : ℕ} (hj : s.reserved[j]? = some t) :
    (s.live.map slabInfo ++ s.reserved).Perm
      ((s.live ++ [t.activate p]).map slabInfo ++ s.reserved.eraseIdx j) := by
  rw [map_append, append_assoc]
  refine List.Perm.append_left _ ?_
  obtain ⟨hlt, rfl⟩ := List.getElem?_eq_some_iff.1 hj
  exact (getElem_cons_eraseIdx_perm hlt).symm

/-- **A live region changes together with the allocated addresses in it.** -/
theorem Inv.update (h : Inv p owned s) (hi : s.live[i]? = some r) {allocated : ℕ → Bool}
    (hsl : r'.slabInfo = r.slabInfo) (hgd : r'.Good p allocated)
    (hout : ∀ a, ¬r.slabInfo.Contains a → allocated a = s.allocated a) :
    Inv p owned { s.setRegion i r' with allocated := allocated } := by
  have hmap := map_slabInfo_set hi hsl
  refine ⟨fun t ht => ?_, h.reserved, ?_, ?_, fun _ => inside_setRegion hi hsl hout h.inside,
    h.fixed⟩
  · rcases cases_of_mem_setRegion hi ht with rfl | ⟨j, hne, hj⟩
    · exact hgd
    · have hapa := apart_of_ne h.apart hi hj hne
      refine (h.live t (mem_of_getElem? hj)).mono fun a hcon ha => ?_
      rw [← hout a (hapa.symm.not_contains hcon)]
      exact ha
  · simp only [setRegion, hmap]
    exact h.apart
  · simp only [setRegion, hmap]
    exact h.regions

theorem Inv.setRegion (h : Inv p owned s) (hi : s.live[i]? = some r)
    (hr' : r' = r ∨ r' = { r with hadMunmap := false }) : Inv p owned (s.setRegion i r') :=
  h.update hi (by rcases hr' with rfl | rfl <;> rfl)
    ((h.live r (mem_of_getElem? hi)).setHadMunmap hr') fun _ _ => rfl

theorem Inv.mapFixed (h : Inv p owned s) (ht : t ∈ owned) {addr length : ℕ}
    (hin : t.Encloses addr length) : Inv p owned (s.mapFixed addr length) :=
  { h with fixed := forall_mem_cons.2 ⟨⟨t, ht, hin⟩, h.fixed⟩ }

/-- A region that becomes active has no allocated address yet. -/
theorem Inv.makeRegionActive (h : Inv p owned s) (j : ℕ) :
    Inv p owned (s.makeRegionActive p j) := by
  rw [State.makeRegionActive]
  split
  · rename_i t hj
    have hmem : t ∈ s.reserved := mem_of_getElem? hj
    have hwf := h.reserved t hmem
    have hpr := activate_perm (p := p) hj
    obtain ⟨-, -, hcro⟩ := pairwise_append.1 h.apart
    refine ⟨fun r hr => ?_, fun r hr => h.reserved r (mem_of_mem_eraseIdx hr), ?_,
      fun r hr => h.regions r (hpr.mem_iff.2 hr), fun a ha => ?_, h.fixed⟩
    · rcases mem_append.1 hr with hr | hr
      · exact h.live r hr
      · rw [mem_singleton.1 hr]
        have hls : t.headerSize p / p.size % 2 ^ 32 = t.headerSize p / p.size :=
          Nat.mod_eq_of_lt (hwf.header_le.trans_lt hwf.pages_lt)
        refine ⟨hwf, rfl, hls.ge, hls.le.trans hwf.header_le, fun i hi => ?_, fun a ha hta => ?_⟩
        · have hi : t.numPages p ≤ i := hi
          have hset := hwf.memSet_le
          simp only [activate, FlexBitSet.memSet, FlexBitSet.clear, Bool.or_false,
            decide_eq_false_iff_not]
          omega
        · obtain ⟨r, hr, hra⟩ := h.inside a ha
          exact absurd hta ((hcro _ (mem_map_of_mem hr) t hmem).not_contains hra)
    · exact hpr.pairwise h.apart fun h => h.symm
    · obtain ⟨r, hr, hra⟩ := h.inside a ha
      exact ⟨r, mem_append_left _ hr, hra⟩
  · exact h

/-! ### The searches -/

/-- No search for the length overruns a region. -/
def Safe (p : HostPage) (s : State) (length : ℕ) : Prop :=
  ∀ r ∈ s.live ++ s.reserved.map (activate p), length ≤ r.freeSpace →
    length / p.size ≤ r.numPages p ∧ ¬r.Overruns p r.lastPageAllocation (length / p.size)

/-- The live region has room for the length, from its last allocation on. -/
def LiveVMARegion.Room (p : HostPage) (r : LiveVMARegion) (length : ℕ) : Prop :=
  length ≤ r.freeSpace ∧ ∃ c, r.lastPageAllocation ≤ c ∧ c + length / p.size ≤ r.numPages p ∧
    r.usedPages.Free c (length / p.size)

theorem Safe.setRegion {length : ℕ} (h : Safe p s length) (i : ℕ) (r' : LiveVMARegion)
    (hr' : length ≤ r'.freeSpace → length / p.size ≤ r'.numPages p ∧
      ¬r'.Overruns p r'.lastPageAllocation (length / p.size)) :
    Safe p (s.setRegion i r') length := by
  intro t ht
  rcases mem_append.1 ht with ht | ht
  · rcases mem_or_eq_of_mem_set ht with ht | rfl
    · exact h t (mem_append_left _ ht)
    · exact hr'
  · exact h t (mem_append_right _ ht)

theorem Safe.makeRegionActive {length : ℕ} (h : Safe p s length) (j : ℕ) :
    Safe p (s.makeRegionActive p j) length := by
  rw [State.makeRegionActive]
  split
  · rename_i t hj
    intro r hr
    refine h r ?_
    simp only [mem_append, mem_singleton, mem_map] at hr ⊢
    rcases hr with (hr | rfl) | ⟨t', ht', rfl⟩
    · exact .inl hr
    · exact .inr ⟨t, mem_of_getElem? hj, rfl⟩
    · exact .inr ⟨t', mem_of_mem_eraseIdx ht', rfl⟩
  · exact h

/-- **What `CheckIfRangeFits` does** in a search that does not overrun: it finds nothing from its
start on, or free pages, which it maps. -/
theorem Inv.checkIfRangeFits (h : Inv p owned s) (host : ℕ → ℕ → Option ℕ) {length : ℕ}
    (hi : s.live[i]? = some r) (hlen : length / p.size * p.size = length) (start : ℕ)
    (hsta : length ≤ r.freeSpace → length / p.size ≤ r.numPages p ∧
      r.numManagedPages ≤ startPage p r start ∧ startPage p r start ≤ r.numPages p ∧
      ¬r.Overruns p (startPage p r start) (length / p.size)) :
    ∃ r', (r' = r ∨ r' = { r with hadMunmap := false }) ∧
      ((s.checkIfRangeFits p host i length start = (s.setRegion i r', none) ∧
          (length ≤ r.freeSpace →
            (∀ c, startPage p r start ≤ c → c + length / p.size ≤ r.numPages p →
              ¬r.usedPages.Free c (length / p.size)) ∧
            ¬r'.Overruns p (startPage p r start) (length / p.size))) ∨
        ∃ c, Fits p r (length / p.size) c ∧
          (r.findRange p (startPage p r start) (length / p.size)).2 = some c ∧
          s.checkIfRangeFits p host i length start =
            ((s.setRegion i r').mapFixed (r.addrOf p c) length,
              some (r.addrOf p c, (host (r.addrOf p c) length).isNone)) ∧
          Inv p owned ((s.setRegion i r').mapFixed (r.addrOf p c) length)) := by
  have hmem := mem_of_getElem? hi
  have hgd := h.live r hmem
  by_cases hfr : r.freeSpace < length
  · refine ⟨r, .inl rfl, .inl ⟨?_, fun hle => absurd hfr (by omega)⟩⟩
    obtain ⟨hlt, rfl⟩ := List.getElem?_eq_some_iff.1 hi
    rw [State.checkIfRangeFits, hi]
    simp [hfr, State.setRegion]
  · obtain ⟨hn, hmin, hmax, hsf⟩ := hsta (not_lt.1 hfr)
    have hfst := r.findRange_fst (p := p) (startPage p r start) (length / p.size)
    refine ⟨_, hfst, ?_⟩
    rw [State.checkIfRangeFits, hi]
    simp only [hfr]
    cases hfn : r.findRange p (startPage p r start) (length / p.size) with
    | mk r' found =>
      have hsnd := congrArg Prod.snd hfn
      rw [hfn] at hfst
      cases found with
      | none =>
        obtain ⟨hrm, haga⟩ :=
          findRange_none hgd.managed_pos hgd.pages_lt hn hsnd
        refine .inl ⟨rfl, fun _ => ⟨fun c h1 h2 => hrm c h1 (by omega), haga r' hfst⟩⟩
      | some c =>
        obtain ⟨h1, h2, h3⟩ := findRange_some hgd.managed_pos hgd.pages_lt hn hmin hmax hsf hsnd
        have hft : Fits p r (length / p.size) c := ⟨h1, h2, h3⟩
        refine .inr ⟨c, hft, rfl, rfl, ?_⟩
        refine (h.setRegion hi hfst).mapFixed (h.mem_owned hmem) ?_
        have hin := hft.encloses
        rw [hlen] at hin
        rw [addrOf_eq hgd.wf ((Nat.le_add_right _ _).trans h2)]
        exact ⟨Nat.le_add_right _ _, hin⟩

/-- The outcome of a search: the address that was found and mapped lies in free pages of the region
it names, and otherwise the address from before is kept. -/
def Found (p : HostPage) (owned : List ReservedVMARegion) (length : ℕ) (allocated : ℕ → Bool)
    (before : ℕ) (noRoom : Prop) : State × ℕ × Option ℕ → Prop
  | (s, addr, some i) => Inv p owned s ∧ s.allocated = allocated ∧
    ∃ r c, s.live[i]? = some r ∧ LiveVMARegion.Fits p r (length / p.size) c ∧ addr = r.addrOf p c
  | (s, addr, none) => Inv p owned s ∧ s.allocated = allocated ∧ addr = before ∧ Safe p s length ∧
    noRoom

theorem Found.imp {length before : ℕ} {allocated : ℕ → Bool} {P Q : Prop} (hPQ : P → Q) :
    ∀ {x : State × ℕ × Option ℕ}, Found p owned length allocated before P x →
      Found p owned length allocated before Q x
  | (_, _, some _), h => h
  | (_, _, none), ⟨h1, h2, h3, h4, h5⟩ => ⟨h1, h2, h3, h4, hPQ h5⟩

section Search

variable {host : ℕ → ℕ → Option ℕ} {length : ℕ}

section

variable (hhs : ∀ addr, host addr length = none) (hlen : length / p.size * p.size = length)
include hhs hlen

/-- The loop over live regions, by induction on the regions that are left. -/
theorem Inv.searchLive : ∀ (is : List ℕ) (s : State) (before : ℕ), Inv p owned s → Safe p s length →
      Found p owned length s.allocated before
        (∀ i ∈ is, ∀ r, s.live[i]? = some r → ¬r.Room p length)
        (searchLive p host length is s before) := by
  intro is
  induction is with
  | nil => exact fun s before h hsf => ⟨h, rfl, rfl, hsf, forall_mem_nil _⟩
  | cons i is ih =>
    intro s before h hsf
    rw [State.searchLive]
    cases hi : s.live[i]? with
    | none =>
      have hche : s.checkIfRangeFits p host i length 0 = (s, none) := by
        rw [State.checkIfRangeFits, hi]
      rw [hche]
      refine (ih s before h hsf).imp fun hno => forall_mem_cons.2 ⟨fun r hr => ?_, hno⟩
      rw [hi] at hr
      cases hr
    | some r =>
      have hmem := mem_of_getElem? hi
      have hgd := h.live r hmem
      have hsta : startPage p r 0 = r.lastPageAllocation := by simp [startPage]
      obtain ⟨r', hr', ⟨hche, hnn⟩ | ⟨c, hft, -, hche, hinv⟩⟩ :=
        h.checkIfRangeFits host hi hlen 0 fun hle => by
          rw [hsta]
          obtain ⟨hn, hno⟩ := hsf r (mem_append_left _ hmem) hle
          exact ⟨hn, hgd.le_last, hgd.last_le, hno⟩
      · rw [hche]
        rw [hsta] at hnn
        have hnx := hsf.setRegion i r' fun hle => by
          have hn := hsf r (mem_append_left _ hmem)
          rcases hr' with rfl | rfl
          · exact ⟨(hn hle).1, (hnn hle).2⟩
          · exact ⟨(hn hle).1, (hnn hle).2⟩
        refine (ih _ before (h.setRegion hi hr') hnx).imp fun hno => ?_
        have hrm : ¬r.Room p length := by
          rintro ⟨hle, c, h1, h2, h3⟩
          exact (hnn hle).1 c h1 h2 h3
        refine forall_mem_cons.2 ⟨fun t ht => ?_, fun j hj t ht => ?_⟩
        · rw [hi] at ht
          cases ht
          exact hrm
        · by_cases hne : i = j
          · rw [← hne, hi] at ht
            cases ht
            exact hrm
          · exact hno j hj t (by rw [State.setRegion, List.getElem?_set_ne hne, ht])
      · rw [hche, hhs]
        obtain ⟨hft', had⟩ := hft.setHadMunmap hr'
        exact ⟨hinv, rfl, r', c, List.getElem?_set_self (List.getElem?_eq_some_iff.1 hi).1, hft',
          had.symm⟩

/-- The whole search, by induction on the turns. -/
theorem Inv.search : ∀ (fuel : ℕ) (s : State) (before : ℕ), Inv p owned s → Safe p s length →
      Found p owned length s.allocated before (0 < fuel → ∀ r ∈ s.live, ¬r.Room p length)
        (search p host length fuel s before) := by
  intro fuel
  induction fuel with
  | zero => exact fun s before h hsf => ⟨h, rfl, rfl, hsf, fun hpos => absurd hpos (lt_irrefl 0)⟩
  | succ fuel ih =>
    intro s before h hsf
    rw [State.search]
    have hlv := Inv.searchLive hhs hlen (range s.live.length) s before h hsf
    rcases heq : State.searchLive p host length (List.range s.live.length) s before with
      ⟨s', addr, _ | i⟩
    · rw [heq] at hlv
      obtain ⟨hinv, hall, had, hsf', hno⟩ := hlv
      have hrm : ∀ r ∈ s.live, ¬r.Room p length := by
        intro r hr
        obtain ⟨j, hj⟩ := mem_iff_getElem?.1 hr
        exact hno j (mem_range.2 (List.getElem?_eq_some_iff.1 hj).1) r hj
      simp only
      split
      · rename_i j _
        have hnx := ih (s'.makeRegionActive p j) addr (hinv.makeRegionActive j)
          (hsf'.makeRegionActive j)
        rw [makeRegionActive_allocated, hall, had] at hnx
        rw [had]
        exact hnx.imp fun _ _ => hrm
      · exact ⟨hinv, hall, had, hsf', fun _ => hrm⟩
    · rw [heq] at hlv
      exact hlv

end

theorem Inv.searchAll (h : Inv p owned s) (hhs : ∀ addr, host addr length = none)
    (hlen : length / p.size * p.size = length) (hsf : Safe p s length) (before : ℕ) :
    Found p owned length s.allocated before (∀ r ∈ s.live, ¬r.Room p length)
      (s.searchAll p host length before) :=
  (Inv.search hhs hlen _ s before h hsf).imp fun hno => hno (Nat.succ_pos _)

/-! ### Requests with a hint -/

/-- What a hint needs: the region it lies in is not searched from its header on, no search from the
hint overruns it, and the request can be served at the hint or without it. -/
structure HintOk (p : HostPage) (s : State) (addr addrEnd length : ℕ) : Prop where
  behind_header : ∀ r ∈ s.live ++ s.reserved.map (activate p),
    holdsRange addr addrEnd r.slabInfo = true → r.numManagedPages ≤ r.pageOf p addr
  safe : ∀ r ∈ s.live ++ s.reserved.map (activate p),
    holdsRange addr addrEnd r.slabInfo = true → length ≤ r.freeSpace →
      ¬r.Overruns p (r.pageOf p addr) (length / p.size) ∧
      ¬{ r with hadMunmap := false }.Overruns p r.lastPageAllocation (length / p.size)
  served : (∃ r ∈ s.live, r.Room p length) ∨
    ∀ r ∈ s.live ++ s.reserved.map (activate p),
      holdsRange addr addrEnd r.slabInfo = true →
        r.hadMunmap = false ∧ r.usedPages.Free (r.pageOf p addr) (length / p.size)

end Search

end FastPPC.Alloc64
