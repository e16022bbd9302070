import FastPPC.Alloc.NoReplace

/-!
# The free space of the 64-bit allocator

Each live region counts its free bytes while `Mmap` and `Munmap` set and clear the bits of its
pages.  The count is right as long as the bits agree with what is allocated where a call changes
them: no bit may be set for a page that nobody has, no call may touch the header, and a `Munmap`
has to find its region.

* `LiveVMARegion.Accounted` : the count and the header's bits are right;
* `LiveVMARegion.Accounted.mark`, `.release` : the two changes of a region;
* `activate_header_iff` : the headers whose bits are all set at the start;
* `Tidy` : the calls that keep the accounts;
* `free_space_accounted` : the accounts after every run of them, and when a `Munmap` frees;
* `accounts_wrong` : a header without bits, and pages that are never freed.
-/

namespace FastPPC.Alloc64

variable {r' : LiveVMARegion}

open State LiveVMARegion ReservedVMARegion FlexBitSet List

variable {p : HostPage} {host : ℕ → ℕ → Option ℕ} {s : State} {i length : ℕ} {r : LiveVMARegion}
  {owned : List ReservedVMARegion}

namespace LiveVMARegion

variable {allocated allocated' : ℕ → Bool} {c n : ℕ}

/-- The pages of a region that are allocated.  Allocations are whole pages. -/
def allocatedPages (p : HostPage) (allocated : ℕ → Bool) (r : LiveVMARegion) : FlexBitSet :=
  fun i => allocated (r.slabInfo.base + i * p.size)

/-- How many pages of a region belong neither to its header nor to an allocation. -/
def unallocated (p : HostPage) (allocated : ℕ → Bool) (r : LiveVMARegion) : ℕ :=
  (r.allocatedPages p allocated).count false r.numManagedPages (r.numPages p - r.numManagedPages)

/-- The region's free space is what it should be and its header is marked. -/
structure Accounted (p : HostPage) (allocated : ℕ → Bool) (r : LiveVMARegion) : Prop where
  freeSpace : r.freeSpace = p.size * r.unallocated p allocated
  header : ∀ i, i < r.numManagedPages → r.usedPages i = true

/-- No page of the range is marked without being allocated. -/
def MarksAllocated (p : HostPage) (allocated : ℕ → Bool) (r : LiveVMARegion) (c n : ℕ) : Prop :=
  ∀ i, i < n → r.usedPages (c + i) = true → r.allocatedPages p allocated (c + i) = true

theorem Good.used_page (hgd : r.Good p allocated) {k : ℕ} (hk : k < r.numPages p)
    (h : r.allocatedPages p allocated k = true) : r.usedPages k = true := by
  have hin := pages_encloses (r := r) (p := p) (c := k) (n := 1) hk
  have hpos := p.pos
  have hus := hgd.used _ h ⟨Nat.le_add_right _ _, by omega⟩
  rwa [Nat.add_sub_cancel_left, Nat.mul_div_cancel _ p.pos] at hus

/-- In such a range the marks count what is allocated. -/
theorem MarksAllocated.count_eq (h : r.MarksAllocated p allocated c n)
    (hgd : r.Good p allocated) (hle : c + n ≤ r.numPages p) (v : Bool) :
    r.usedPages.count v c n = (r.allocatedPages p allocated).count v c n := by
  refine count_congr fun i hi => ?_
  have hbc := hgd.used_page (k := c + i) (by omega)
  exact Bool.eq_iff_iff.2 ⟨h i hi, hbc⟩

theorem Fits.marksAllocated (h : Fits p r n c) : r.MarksAllocated p allocated c n := by
  intro i hi hus
  rw [h.free i hi] at hus
  cases hus

theorem mul_unallocated_le (p : HostPage) (allocated : ℕ → Bool) (r : LiveVMARegion) :
    p.size * r.unallocated p allocated ≤ r.slabInfo.regionSize := by
  have hcou := (r.allocatedPages p allocated).count_true_add_count_false r.numManagedPages
    (r.numPages p - r.numManagedPages)
  have hle : r.unallocated p allocated ≤ r.numPages p := by
    rw [unallocated]
    omega
  calc p.size * r.unallocated p allocated ≤ p.size * r.numPages p := Nat.mul_le_mul_left _ hle
    _ = r.numPages p * p.size := Nat.mul_comm _ _
    _ ≤ r.slabInfo.regionSize := r.numPages_mul_le p

/-- The pages of a range by their addresses. -/
theorem page_range_iff {k : ℕ} : (r.slabInfo.base + c * p.size ≤ r.slabInfo.base + k * p.size ∧
      r.slabInfo.base + k * p.size < r.slabInfo.base + c * p.size + n * p.size) ↔
      c ≤ k ∧ k < c + n := by
  rw [page_mem_iff (Nat.le_add_right _ _), Nat.add_sub_cancel_left, Nat.mul_div_cancel _ p.pos]

/-- Outside the header the count changes by what the range counts. -/
theorem unallocated_frame (allocated allocated' : ℕ → Bool) (hman : r.numManagedPages ≤ c)
    (hle : c + n ≤ r.numPages p) (hout : ∀ k, k < c ∨ c + n ≤ k →
      r.allocatedPages p allocated' k = r.allocatedPages p allocated k) :
    r.unallocated p allocated' + (r.allocatedPages p allocated).count false c n =
      r.unallocated p allocated + (r.allocatedPages p allocated').count false c n :=
  count_frame hman hle fun k _ _ hk => hout k hk

theorem unallocated_congr (allocated : ℕ → Bool) (hsl : r'.slabInfo = r.slabInfo)
    (hman : r'.numManagedPages = r.numManagedPages) :
    r'.unallocated p allocated = r.unallocated p allocated := by
  rw [unallocated, unallocated, numPages, numPages, hman, hsl]
  refine count_congr fun k _ => ?_
  rw [allocatedPages, allocatedPages, hsl]

theorem Accounted.freeSpace_lt (h : r.Accounted p allocated) (hwf : r.slabInfo.Wf p) :
    r.freeSpace < word := by
  rw [h.freeSpace]
  refine (r.mul_unallocated_le p allocated).trans_lt (lt_of_le_of_lt ?_ hwf.end_lt)
  exact Nat.le_add_left _ _

section

variable (h : r.Accounted p allocated) (hgd : r.Good p allocated)
include h hgd

/-- The accounts after the pages `[c, c + n)` have been cleared and given back. -/
theorem Accounted.releasePages {addr : ℕ} (hpg : r.pageOf p addr = c)
    (hman : r.numManagedPages ≤ c) (hle : c + n ≤ r.numPages p)
    (hmar : r.MarksAllocated p allocated c n) (hpag : ∀ k, r.allocatedPages p allocated' k =
      (!decide (c ≤ k ∧ k < c + n) && r.allocatedPages p allocated k)) :
    (r.release p addr n).Accounted p allocated' := by
  have hmod : r.pageOf p addr % 2 ^ 32 = c := by
    rw [hpg]
    exact Nat.mod_eq_of_lt (lt_of_le_of_lt ((Nat.le_add_right _ _).trans hle) hgd.wf.pages_lt)
  have hfra := unallocated_frame allocated allocated' hman hle
    fun k hk => by rw [hpag, decide_eq_false (by omega), Bool.not_false, Bool.true_and]
  have hall : (r.allocatedPages p allocated').count false c n = n :=
    count_eq fun k hk =>
      (hpag (c + k)).trans (by rw [decide_eq_true (by omega), Bool.not_true, Bool.false_and])
  have hsum := (r.allocatedPages p allocated).count_true_add_count_false c n
  have hcou := hmar.count_eq hgd hle true
  have hsz : p.size * r.unallocated p allocated' =
      p.size * r.unallocated p allocated + r.usedPages.count true c n * p.size := by
    rw [hcou, Nat.mul_comm _ p.size, ← Nat.mul_add]
    congr 1
    omega
  refine ⟨?_, fun k hk => ?_⟩
  · have hend := hgd.wf.end_lt
    have hbou := r.mul_unallocated_le p allocated'
    rw [endAddr] at hend
    have hsm : (r.release p addr n).unallocated p allocated' = r.unallocated p allocated' :=
      unallocated_congr allocated' rfl rfl
    rw [hsm]
    simp only [LiveVMARegion.release, hmod]
    rw [wadd_eq (by rw [h.freeSpace]; omega), h.freeSpace]
    omega
  · have hk : k < r.numManagedPages := hk
    have hnot : ¬(c ≤ k ∧ k < c + n) := by omega
    simp only [LiveVMARegion.release, clearRange, hmod, decide_eq_false hnot,
      h.header k hk, Bool.not_false, Bool.and_true]

section

variable (hman : r.numManagedPages ≤ c) (hle : c + n ≤ r.numPages p)
  (hmar : r.MarksAllocated p allocated c n)
include hman hle hmar

/-- The accounts after the pages `[c, c + n)` have been marked and allocated. -/
theorem Accounted.markPages (hpag : ∀ k, r.allocatedPages p allocated' k =
      (decide (c ≤ k ∧ k < c + n) || r.allocatedPages p allocated k)) :
    (r.mark p (r.addrOf p c) n).Accounted p allocated' := by
  have hfra := unallocated_frame allocated allocated' hman hle
    fun k hk => by rw [hpag, decide_eq_false (by omega), Bool.false_or]
  have hall : (r.allocatedPages p allocated').count true c n = n :=
    count_eq fun k hk =>
      (hpag (c + k)).trans (by rw [decide_eq_true (by omega), Bool.true_or])
  have hsum := (r.allocatedPages p allocated').count_true_add_count_false c n
  have hcou := hmar.count_eq hgd hle false
  have hsz : p.size * r.unallocated p allocated =
      p.size * r.unallocated p allocated' + r.usedPages.count false c n * p.size := by
    rw [hcou, Nat.mul_comm _ p.size, ← Nat.mul_add]
    congr 1
    omega
  refine ⟨?_, fun k hk => ?_⟩
  · have hc : c ≤ r.numPages p := (Nat.le_add_right _ _).trans hle
    have hlt := h.freeSpace_lt hgd.wf
    have hsm : (r.mark p (r.addrOf p c) n).unallocated p allocated' = r.unallocated p allocated' :=
      unallocated_congr allocated' rfl rfl
    rw [hsm]
    simp only [LiveVMARegion.mark, pageOf_addrOf hgd.wf hc]
    rw [wsub_eq hlt (by rw [h.freeSpace]; omega), h.freeSpace]
    omega
  · have hk : k < r.numManagedPages := hk
    simp [LiveVMARegion.mark, setRange, h.header k hk]

/-- **Marking a range** whose marks are all of allocated pages keeps the accounts. -/
theorem Accounted.mark : (r.mark p (r.addrOf p c) n).Accounted p fun a =>
      decide (r.addrOf p c ≤ a ∧ a < r.addrOf p c + n * p.size) || allocated a := by
  refine h.markPages hgd hman hle hmar fun k => ?_
  simp only [allocatedPages, addrOf_eq hgd.wf ((Nat.le_add_right _ _).trans hle), page_range_iff]

end

/-- **Releasing a range** behind the header whose marks are all of allocated pages keeps the
accounts. -/
theorem Accounted.release {addr : ℕ} (hin : r.slabInfo.Contains addr) (hdvd : p.size ∣ addr)
    (hman : r.numManagedPages ≤ r.pageOf p addr) (hle : r.pageOf p addr + n ≤ r.numPages p)
    (hmar : r.MarksAllocated p allocated (r.pageOf p addr) n) :
    (r.release p addr n).Accounted p fun a =>
      !decide (addr ≤ a ∧ a < addr + n * p.size) && allocated a := by
  have had : addr = r.slabInfo.base + r.pageOf p addr * p.size := by
    rw [pageOf_mul hgd.wf hin hdvd]
    have := hin.1
    omega
  refine h.releasePages hgd rfl hman hle hmar fun k => ?_
  have hiff := page_range_iff (r := r) (p := p) (c := r.pageOf p addr) (n := n) (k := k)
  rw [← had] at hiff
  simp [allocatedPages, hiff]

end

end LiveVMARegion

/-! ### The accounts of the allocator -/

/-- A reserved region that starts with right accounts: whole pages, and a header that `MemSet` can
mark. -/
structure ReservedVMARegion.Tracked (p : HostPage) (t : ReservedVMARegion) : Prop where
  dvd : p.size ∣ t.regionSize
  le_header : 64 ≤ t.headerSize p / p.size
  header_le : t.headerSize p / p.size ≤ 512

/-- `MemSet` marks the header's pages only if there are at least 64 and at most 512 of them. -/
theorem activate_header_iff {t : ReservedVMARegion} (hwf : t.Wf p) :
    (∀ k, k < t.headerSize p / p.size → (t.activate p).usedPages k = true) ↔
      64 ≤ t.headerSize p / p.size ∧ t.headerSize p / p.size ≤ 512 := by
  have hpos := hwf.header_pos
  simp only [activate, memSet, clear, Bool.or_false, decide_eq_true_eq]
  constructor
  · intro h
    have hls := h (t.headerSize p / p.size - 1) (by omega)
    omega
  · intro h k hk
    omega

/-- The accounts of all regions, and what they rest on. -/
structure Ledger (p : HostPage) (s : State) : Prop where
  shaped : Shaped p s
  inside : ∀ a, s.allocated a = true → ∃ r ∈ s.live, r.slabInfo.Contains a
  accounts : ∀ r ∈ s.live, r.Accounted p s.allocated
  tracked : ∀ t ∈ s.reserved, t.Tracked p

namespace Ledger

variable {allocated : ℕ → Bool}

/-- The pages of a region do not depend on addresses outside of it. -/
theorem unallocated_outside {allocated' : ℕ → Bool}
    (h : ∀ a, r.slabInfo.Contains a → allocated' a = allocated a) :
    r.unallocated p allocated' = r.unallocated p allocated := by
  refine count_congr fun k hk => h _ ⟨Nat.le_add_right _ _, ?_⟩
  have hpos := p.pos
  have hin := pages_encloses (r := r) (p := p) (c := r.numManagedPages + k) (n := 1) (by omega)
  omega

/-- **A live region changes together with the allocated addresses in it.** -/
theorem update (h : Ledger p s) (hi : s.live[i]? = some r) (hsl : r'.slabInfo = r.slabInfo)
    (hman : r'.numManagedPages = r.numManagedPages) (hacc : r'.Accounted p allocated)
    (hout : ∀ a, ¬r.slabInfo.Contains a → allocated a = s.allocated a) :
    Ledger p { s.setRegion i r' with allocated := allocated } := by
  refine ⟨(h.shaped.setRegion hi hsl hman).congr rfl rfl,
    fun _ => inside_setRegion hi hsl hout h.inside, fun t ht => ?_, h.tracked⟩
  rcases cases_of_mem_setRegion hi ht with rfl | ⟨j, hne, hj⟩
  · exact hacc
  · have hapa := apart_of_ne h.shaped.apart hi hj hne
    have hold := h.accounts t (mem_of_getElem? hj)
    refine ⟨?_, hold.header⟩
    rw [hold.freeSpace, unallocated_outside fun a ha => hout a (hapa.symm.not_contains ha)]

/-- A region that becomes active has nothing but its header. -/
theorem makeRegionActive (h : Ledger p s) (j : ℕ) : Ledger p (s.makeRegionActive p j) := by
  have hsha := h.shaped.makeRegionActive j
  rw [State.makeRegionActive] at hsha ⊢
  split at hsha
  · rename_i t hj
    have hmem : t ∈ s.reserved := mem_of_getElem? hj
    have hwf := h.shaped.reserved t hmem
    obtain ⟨hdvd, hlow, hhg⟩ := h.tracked t hmem
    obtain ⟨-, -, hcro⟩ := pairwise_append.1 h.shaped.apart
    have hnn : ∀ a, t.Contains a → s.allocated a = false := by
      intro a ha
      refine Bool.eq_false_iff.2 fun htr => ?_
      obtain ⟨r, hr, hra⟩ := h.inside a htr
      exact (hcro _ (mem_map_of_mem hr) t hmem).not_contains hra ha
    refine ⟨hsha, fun a ha => ?_, fun r hr => ?_, fun r hr => h.tracked r (mem_of_mem_eraseIdx hr)⟩
    · obtain ⟨r, hr, hra⟩ := h.inside a ha
      exact ⟨r, mem_append_left _ hr, hra⟩
    · rcases mem_append.1 hr with hr | hr
      · exact h.accounts r hr
      · rw [mem_singleton.1 hr]
        refine ⟨?_, (activate_header_iff hwf).2 ⟨hlow, hhg⟩⟩
        have hcou : (t.activate p).unallocated p s.allocated =
            t.numPages p - t.headerSize p / p.size := by
          refine count_eq fun k hk => hnn _ ⟨Nat.le_add_right _ _, ?_⟩
          have hpos := p.pos
          have hk : k < t.numPages p - t.headerSize p / p.size := hk
          have hpg : t.headerSize p / p.size + k + 1 ≤ (t.activate p).numPages p :=
            show _ ≤ t.numPages p by omega
          refine lt_of_lt_of_le ?_ (pages_encloses (r := t.activate p) hpg)
          simp only [activate]
          omega
        have hlt : t.regionSize < word :=
          lt_of_le_of_lt (Nat.le_add_left _ _) hwf.end_lt
        have hpag : t.numPages p * p.size = t.regionSize := Nat.div_mul_cancel hdvd
        have hle : t.headerSize p ≤ t.regionSize := by
          rw [headerSize_eq, ← hpag]
          exact Nat.mul_le_mul_right _ hwf.header_le
        rw [hcou, Nat.mul_sub, Nat.mul_comm, hpag, Nat.mul_comm, ← headerSize_eq]
        exact wsub_eq hlt hle
  · exact h

/-- **Searches keep the accounts.** -/
theorem searched (h : Ledger p s) {s' : State} (hs : s.Searched p s') :
    Ledger p s' ∧ s'.allocated = s.allocated := by
  induction hs with
  | refl => exact ⟨h, rfl⟩
  | turn _ hi ih =>
    refine ⟨ih.1.update hi rfl rfl ?_ fun _ _ => rfl, ih.2⟩
    have hold := ih.1.accounts _ (mem_of_getElem? hi)
    exact ⟨hold.freeSpace, hold.header⟩
  | map _ _ _ ih =>
    obtain ⟨ih, hall⟩ := ih
    exact ⟨⟨ih.shaped.congr rfl rfl, ih.inside, ih.accounts, ih.tracked⟩, hall⟩
  | activate j _ ih =>
    exact ⟨ih.1.makeRegionActive j, (makeRegionActive_allocated _ j).trans ih.2⟩

end Ledger

/-! ### The calls -/

/-- The outcome of a placement that can be recorded: pages of a region behind its header that are
marked only if they are allocated, or no address. -/
def Recordable (p : HostPage) (owned : List ReservedVMARegion) (length : ℕ) :
    State × ℕ × Option ℕ → Prop
  | (s, addr, some i) => Inv p owned s ∧ Ledger p s ∧ ∃ r c, s.live[i]? = some r ∧
    r.numManagedPages ≤ c ∧ c + length / p.size ≤ r.numPages p ∧
    r.MarksAllocated p s.allocated c (length / p.size) ∧ addr = r.addrOf p c
  | (s, addr, none) => Inv p owned s ∧ Ledger p s ∧ addr = 0

/-- The end of `Mmap` after such a placement. -/
theorem Recordable.finishMmap (hlength : length / p.size * p.size = length) :
    ∀ {x : State × ℕ × Option ℕ}, Recordable p owned length x →
      Inv p owned (x.1.finishMmap p length x.2).1 ∧ Ledger p (x.1.finishMmap p length x.2).1
  | (s, addr, none), ⟨hinv, hled, had⟩ => by
    subst had
    exact ⟨hinv, hled⟩
  | (s, addr, some i), ⟨hinv, hled, r, c, hi, hman, hle, hmar, had⟩ => by
    have hmem := mem_of_getElem? hi
    have hgd := hinv.live r hmem
    obtain ⟨hne, hout⟩ := hgd.pages hman hle hlength
    have hmr := hgd.mark hman hle
    have hacc := (hled.accounts r hmem).mark hgd hman hle hmar
    subst had
    rw [hlength] at hmr hacc
    simp only [State.finishMmap, hne, markUsed, hi]
    exact ⟨hinv.update hi rfl hmr hout, hled.update hi rfl rfl hacc hout⟩

/-- The range of a request in the region that holds it: behind the header, with no page marked that
is not allocated. -/
def LiveVMARegion.RangeTidy (p : HostPage) (allocated : ℕ → Bool) (r : LiveVMARegion)
    (addr length : ℕ) : Prop :=
  r.numManagedPages ≤ r.pageOf p addr ∧
    r.MarksAllocated p allocated (r.pageOf p addr) (length / p.size)

/-- What a call needs to keep the accounts.  A hint is careful and the kernel maps what is found;
an exact request lies behind the header of its region, with `MAP_FIXED` over marked pages only if
they are allocated, with `MAP_FIXED_NOREPLACE` without a search that runs over the region's end; and
`Munmap` finds the region of what is allocated in its range. -/
inductive Tidy (p : HostPage) (s : State) : (ℕ → ℕ → Option ℕ) × Call → Prop
  | kernel (host : ℕ → ℕ → Option ℕ) (q : Request) (hspace : q.addr ≠ 0 ∧ q.addr < lowerBound) :
      Tidy p s (host, .mmap q)
  | hint (host : ℕ → ℕ → Option ℕ) (q : Request) (hcareful : Careful p s (.mmap q))
      (hhost : ∀ addr, host addr (p.alignUp q.length) = none) : Tidy p s (host, .mmap q)
  | fixed (host : ℕ → ℕ → Option ℕ) (q : Request) (hplacement : q.placement = .fixed)
      (hend : q.addr + p.alignUp q.length < word)
      (hregion : ∀ r ∈ s.live ++ s.reserved.map (activate p),
        holdsRange q.addr (wadd q.addr (p.alignUp q.length)) r.slabInfo = true →
          r.RangeTidy p s.allocated q.addr (p.alignUp q.length)) : Tidy p s (host, .mmap q)
  | noreplace (host : ℕ → ℕ → Option ℕ) (q : Request) (hplacement : q.placement = .fixedNoreplace)
      (hend : q.addr + p.alignUp q.length < word)
      (hregion : ∀ r ∈ s.live ++ s.reserved.map (activate p),
        holdsRange q.addr (wadd q.addr (p.alignUp q.length)) r.slabInfo = true →
          r.numManagedPages ≤ r.pageOf p q.addr ∧
            ¬r.Overruns p (r.pageOf p q.addr) (p.alignUp q.length / p.size)) :
      Tidy p s (host, .mmap q)
  | munmap (host : ℕ → ℕ → Option ℕ) (addr length : ℕ) (haddr : addr < word)
      (hlength : length < word)
      (hregion : ∀ r ∈ s.live, holdsRange addr (wadd addr length) r.slabInfo = true →
        r.RangeTidy p s.allocated addr length)
      (hfound : ∀ a, addr ≤ a → a < addr + length → s.allocated a = true →
        ∃ r ∈ s.live, holdsRange addr (wadd addr length) r.slabInfo = true) :
      Tidy p s (host, .munmap addr length)

/-- A hint that is careful can be recorded. -/
theorem Found.recordable {x : State × ℕ × Option ℕ} {allocated : ℕ → Bool}
    (h : Found p owned length allocated 0 True x) (hled : Ledger p x.1) :
    Recordable p owned length x := by
  rcases x with ⟨s', addr, _ | i⟩
  · exact ⟨h.1, hled, h.2.2.1⟩
  · obtain ⟨hinv, -, r, c, hi, hft, had⟩ := h
    exact ⟨hinv, hled, r, c, hi, hft.managed_le, hft.le, hft.marksAllocated, had⟩

/-- What an exact placement leaves: an error, or a placement that can be recorded. -/
def Settled (p : HostPage) (owned : List ReservedVMARegion) (length : ℕ) :
    State × Except Errno (ℕ × Option ℕ) → Prop
  | (s, .error _) => Inv p owned s ∧ Ledger p s
  | (s, .ok placed) => Recordable p owned length (s, placed)

section Exact

variable {addr : ℕ} (host) (hinv : Inv p owned s) (hled : Ledger p s)
  (hlength : length / p.size * p.size = length) (hdvd : p.size ∣ addr) (hend : addr + length < word)
include hinv hled hlength hdvd hend

theorem placeFixed_settled (hreg : ∀ r ∈ s.live ++ s.reserved.map (activate p),
      holdsRange addr (wadd addr length) r.slabInfo = true →
        r.RangeTidy p s.allocated addr length) :
    Settled p owned length (s.placeFixed p host false addr (wadd addr length) length) := by
  rw [placeFixed]
  rcases findLiveRegionForAddress_rule (P := fun s => Inv p owned s ∧ Ledger p s)
    ⟨hinv, hled⟩ (fun j => ⟨hinv.makeRegionActive j, hled.makeRegionActive j⟩) addr
    (wadd addr length) with
    hnn | ⟨s', i, r, hfn, ⟨hinv', hled'⟩, hall, -, hi, hmem, hhol⟩
  · rw [hnn]
    exact ⟨hinv, hled, rfl⟩
  · have hgd := hinv'.live r (mem_of_getElem? hi)
    obtain ⟨hfit, had⟩ := hint_pages hgd hdvd hlength hend hhol
    obtain ⟨hman, hmar⟩ := hreg r hmem hhol
    have hin := pages_encloses hfit
    have had' := addrOf_eq hgd.wf ((Nat.le_add_right _ _).trans hfit)
    rw [hlength, ← had', had] at hin
    have hmap : Inv p owned (s'.mapFixed addr length) :=
      hinv'.mapFixed (hinv'.mem_owned (mem_of_getElem? hi)) ⟨by omega, hin⟩
    have hled'' := (hled'.searched (.map addr length .refl)).1
    simp only [hfn]
    cases host addr length with
    | some errno => exact ⟨hmap, hled''⟩
    | none =>
      refine ⟨hmap, hled'', r, r.pageOf p addr, hi, hman, hfit, ?_, had.symm⟩
      rw [mapFixed, hall]
      exact hmar

theorem placeNoreplace_settled (hreg : ∀ r ∈ s.live ++ s.reserved.map (activate p),
      holdsRange addr (wadd addr length) r.slabInfo = true → r.numManagedPages ≤ r.pageOf p addr ∧
          ¬r.Overruns p (r.pageOf p addr) (length / p.size)) :
    Settled p owned length (s.placeFixed p host true addr (wadd addr length) length) := by
  rw [placeFixed]
  rcases findLiveRegionForAddress_rule (P := fun s => Inv p owned s ∧ Ledger p s)
    ⟨hinv, hled⟩ (fun j => ⟨hinv.makeRegionActive j, hled.makeRegionActive j⟩) addr
    (wadd addr length) with
    hnn | ⟨s', i, r, hfn, ⟨hinv', hled'⟩, hall, -, hi, hmem, hhol⟩
  · rw [hnn]
    exact ⟨hinv, hled, rfl⟩
  · have hmem' := mem_of_getElem? hi
    have hgd := hinv'.live r hmem'
    obtain ⟨hfit, had⟩ := hint_pages hgd hdvd hlength hend hhol
    obtain ⟨hman, hov⟩ := hreg r hmem hhol
    have hne : addr ≠ 0 := by
      have heq := addrOf_eq hgd.wf ((Nat.le_add_right _ _).trans hfit)
      have hpos := Nat.mul_pos (hgd.managed_pos.trans_le hman) p.pos
      omega
    have hsta : startPage p r addr = r.pageOf p addr := if_neg hne
    simp only [hfn, ↓reduceIte]
    obtain ⟨r', hr', ⟨hche, -⟩ | ⟨c, hft, -, hche, hmap⟩⟩ :=
      hinv'.checkIfRangeFits host hi hlength addr fun _ => by
        rw [hsta]
        exact ⟨(Nat.le_add_left _ _).trans hfit, hman, (Nat.le_add_right _ _).trans hfit, hov⟩
    · rw [hche]
      exact ⟨hinv'.setRegion hi hr', (hled'.searched (Searched.refl.setRegion hi hr')).1⟩
    · have hled'' := (hled'.searched ((Searched.refl.setRegion hi hr').map (r.addrOf p c) length)).1
      rw [hche]
      cases hhs : (host (r.addrOf p c) length).isNone with
      | false => exact ⟨hmap, hled''⟩
      | true =>
        simp only
        split
        · rename_i heq
          have hset : (s'.setRegion i r').live[i]? = some r' :=
            List.getElem?_set_self (List.getElem?_eq_some_iff.1 hi).1
          obtain ⟨hft', had'⟩ := hft.setHadMunmap hr'
          rw [← beq_iff_eq.1 heq]
          exact ⟨hmap, hled'', r', c, hset, hft'.managed_le, hft'.le,
            hft'.marksAllocated, had'.symm⟩
        · exact ⟨hmap, hled''⟩

end Exact

theorem mmap_tidy (hinv : Inv p owned s) (hled : Ledger p s) {q : Request}
    (hq : Tidy p s (host, .mmap q)) :
    Inv p owned (s.mmap p host q).1 ∧ Ledger p (s.mmap p host q).1 := by
  have hlength : p.alignUp q.length / p.size * p.size = p.alignUp q.length :=
    Nat.div_mul_cancel (p.dvd_alignUp _)
  rw [mmap]
  iterate 4
    split
    · exact ⟨hinv, hled⟩
  rename_i hspa hali _ _
  have hdvd : p.size ∣ requestAddr p q := Nat.dvd_of_mod_eq_zero (not_not.1 hali)
  cases hq with
  | kernel _ _ h => exact absurd h hspa
  | hint _ _ hcar hhs =>
    obtain ⟨_, hpl, -, -, hend, hsf, hhn⟩ := hcar
    have had : requestAddr p q = p.alignDown q.addr := if_pos hpl
    have hplc := hinv.placeHint hhs hlength hsf (p.dvd_alignDown q.addr) hend hhn
    have hsea := (hled.searched (s.placeHint_searched host (p.alignDown q.addr)
      (wadd (p.alignDown q.addr) (p.alignUp q.length)) (p.alignUp q.length))).1
    simp only [hpl, had]
    exact (hplc.recordable hsea).finishMmap hlength
  | fixed _ _ hpl hend hreg =>
    have had : requestAddr p q = q.addr := if_neg (by rw [hpl]; rintro ⟨⟩)
    rw [had] at hdvd
    have hset := placeFixed_settled host hinv hled hlength hdvd hend hreg
    have hfl : (Placement.fixed == Placement.fixedNoreplace) = false := rfl
    simp only [hpl, had, hfl]
    rcases hpla : s.placeFixed p host false q.addr (wadd q.addr (p.alignUp q.length))
      (p.alignUp q.length) with ⟨s', _ | placed⟩
    · rw [hpla] at hset
      exact hset
    · rw [hpla] at hset
      exact hset.finishMmap hlength
  | noreplace _ _ hpl hend hreg =>
    have had : requestAddr p q = q.addr := if_neg (by rw [hpl]; rintro ⟨⟩)
    rw [had] at hdvd
    have hset := placeNoreplace_settled host hinv hled hlength hdvd hend hreg
    have hfl : (Placement.fixedNoreplace == Placement.fixedNoreplace) = true := rfl
    simp only [hpl, had, hfl]
    rcases hpla : s.placeFixed p host true q.addr (wadd q.addr (p.alignUp q.length))
      (p.alignUp q.length) with ⟨s', _ | placed⟩
    · rw [hpla] at hset
      exact hset
    · rw [hpla] at hset
      exact hset.finishMmap hlength

theorem munmap_tidy (hinv : Inv p owned s) (hled : Ledger p s) {addr : ℕ}
    (hq : Tidy p s (host, .munmap addr length)) :
    Inv p owned (s.munmap p addr length).1 ∧ Ledger p (s.munmap p addr length).1 := by
  obtain _ | _ | _ | _ | ⟨_, _, _, had, hlength, hreg, hfou⟩ := hq
  refine ⟨hinv.munmap (.munmap addr length had hlength fun r hr hhol =>
    (hreg r hr hhol).1), munmap_rule had hlength hled (fun hnn => ?_)
      fun i r hi hhol hend hdvd hpag => ?_⟩
  · -- no region is found, so nothing in the range is allocated
    have hsm : (fun a => !decide (addr ≤ a ∧ a < addr + length) && s.allocated a) =
        s.allocated := by
      funext a
      refine Bool.and_eq_right_iff_imp.2 fun hall => ?_
      rw [Bool.not_eq_true', decide_eq_false_iff_not]
      rintro ⟨h1, h2⟩
      obtain ⟨r, hr, hhol⟩ := hfou a h1 h2 hall
      rw [findIdx?_eq_none_iff.1 hnn r hr] at hhol
      cases hhol
    rw [hsm]
    exact hled
  · have hmem := mem_of_getElem? hi
    have hgd := hinv.live r hmem
    obtain ⟨hman, hmar⟩ := hreg r hmem hhol
    obtain ⟨hfit, -⟩ := hint_pages hgd hdvd hpag hend hhol
    rw [holdsRange_iff hgd.wf hend] at hhol
    have hrel := (hled.accounts r hmem).release hgd ⟨hhol.1, by omega⟩ hdvd hman hfit hmar
    rw [hpag] at hrel
    have hsl : (r.release p addr (length / p.size)).slabInfo = r.slabInfo := rfl
    have hupd := hled.update hi hsl rfl hrel (unmapped_outside hhol _)
    exact ⟨hupd, (hupd.searched (.map addr length .refl)).1⟩

/-- After the call exactly the pages of the range are free that were not free before. -/
def State.Frees (p : HostPage) (s s' : State) (addr length : ℕ) : Prop :=
  ∀ (i : ℕ) (r : LiveVMARegion), s.live[i]? = some r → ∃ r', s'.live[i]? = some r' ∧
    ∀ k, k < r.numPages p → r'.usedPages k =
      (!decide (addr ≤ r.slabInfo.base + k * p.size ∧
          r.slabInfo.base + k * p.size < addr + length) &&
        r.usedPages k)

/-- **A `Munmap` of used pages** frees them, and nothing else, if and only if the range does not end
where its region ends. -/
theorem Shaped.frees_iff (h : Shaped p s) (hi : s.live[i]? = some r) {addr : ℕ}
    (hin : r.Inside p addr length)
    (hus : ∀ k, k < length / p.size → r.usedPages (r.pageOf p addr + k) = true) :
    s.Frees p (s.munmap p addr length).1 addr length ↔ addr + length < r.slabInfo.endAddr := by
  have hmem := mem_of_getElem? hi
  have hlt := (List.getElem?_eq_some_iff.1 hi).1
  obtain ⟨hwf, hman⟩ := h.live r hmem
  obtain ⟨hpg, hlength, hhea, hfit⟩ := hin.pages hwf
  have habo := h.above r.slabInfo (mem_append_left _ (mem_map_of_mem hmem))
  have hbs := hin.contains.1
  have hend : addr + length < word := hin.end_le.trans_lt hwf.end_lt
  have hspa : ¬addr < lowerBound := by omega
  have hali : ¬(addr % p.size ≠ 0 ∨ length % p.size ≠ 0) := by
    rw [Nat.mod_eq_zero_of_dvd hin.dvd_addr, Nat.mod_eq_zero_of_dvd hin.dvd_length]
    omega
  have hov : ¬wadd addr length < addr := by
    rw [wadd_eq hend]
    omega
  have hmod := pageOf_mod hwf hin.contains
  have hn : 0 < length / p.size := Nat.div_pos (Nat.le_of_dvd hin.pos hin.dvd_length) p.pos
  have hran : ∀ k, (addr ≤ r.slabInfo.base + k * p.size ∧
      r.slabInfo.base + k * p.size < addr + length) ↔
        r.pageOf p addr ≤ k ∧ k < r.pageOf p addr + length / p.size := by
    intro k
    have hiff := page_range_iff (r := r) (p := p) (c := r.pageOf p addr)
      (n := length / p.size) (k := k)
    rwa [hpg, hlength] at hiff
  simp only [munmap, if_neg hspa, if_neg hali, if_neg hov, h.findIdx_inside hi hin]
  by_cases hstr : addr + length < r.slabInfo.endAddr
  · simp only [if_pos hstr]
    refine iff_of_true (fun j t hj => ?_) hstr
    have hlv : ∃ s' : State, s'.live = s.live.set i (r.release p addr (length / p.size)) ∧
        s'.live = (releaseIn p { s with
          allocated := fun a => !decide (addr ≤ a ∧ a < addr + length) && s.allocated a }
            i addr length).live := by
      simp only [releaseIn, hi]
      split
      · exact ⟨_, rfl, rfl⟩
      · exact ⟨_, rfl, rfl⟩
    obtain ⟨s', hset, hsm⟩ := hlv
    rw [← hsm, hset]
    by_cases hne : i = j
    · subst hne
      rw [hi] at hj
      cases hj
      refine ⟨_, List.getElem?_set_self hlt, fun k _ => ?_⟩
      simp only [release, clearRange, hmod, hran]
    · refine ⟨t, (List.getElem?_set_ne hne).trans hj, fun k hk => ?_⟩
      -- the pages of another region are not in the range
      have hapa := apart_of_ne h.apart hi hj hne
      have hpos := p.pos
      have hpai := pages_encloses (r := t) (p := p) (c := k) (n := 1) hk
      have hnot : ¬(addr ≤ t.slabInfo.base + k * p.size ∧
          t.slabInfo.base + k * p.size < addr + length) := by
        rintro ⟨h1, h2⟩
        have hcon : t.slabInfo.Contains (t.slabInfo.base + k * p.size) :=
          ⟨Nat.le_add_right _ _, by omega⟩
        exact hapa.not_contains ⟨hbs.trans h1, by omega⟩ hcon
      rw [decide_eq_false hnot, Bool.not_false, Bool.true_and]
  · simp only [if_neg hstr]
    refine iff_of_false (fun hfre => ?_) hstr
    -- nothing is freed: the first page is still marked
    obtain ⟨r', hr', hbt⟩ := hfre i r hi
    have hr' : s.live[i]? = some r' := hr'
    rw [hi] at hr'
    cases hr'
    have hbit := hbt (r.pageOf p addr) (by omega)
    have hfir := hus 0 hn
    rw [Nat.add_zero] at hfir
    rw [hfir, decide_eq_true ((hran _).2 ⟨le_rfl, by omega⟩)] at hbit
    cases hbit

/-- **The free space is accounted for** in every run of tidy calls, from regions with whole pages
and a header of 64 to 512 pages: each region's free space is the size of its pages that are neither
header nor allocated, its header is marked, and a `Munmap` of allocated pages frees exactly these if
and only if they do not end where the region ends. -/
theorem free_space_accounted (p : HostPage) (thpAlign : ℕ) (hthp : p.size ∣ thpAlign)
    (ranges regions : List ReservedVMARegion) (hok : ∀ r ∈ ranges, RangeOk p r)
    (habove : ∀ r ∈ ranges, lowerBound ≤ r.base)
    (hapart : ranges.Pairwise ReservedVMARegion.Apart)
    (hregions : allocateMemoryRegions p thpAlign ranges = some regions)
    (htracked : ∀ t ∈ regions, t.Tracked p)
    (calls : List ((ℕ → ℕ → Option ℕ) × Call)) (s : State)
    (hrun : (hostMachine p).Run (Tidy p) (initial regions) calls s) :
    (∀ r ∈ s.live, r.Accounted p s.allocated) ∧
      ∀ r ∈ s.live, ∀ addr length, r.Inside p addr length →
        (∀ a, addr ≤ a → a < addr + length → s.allocated a = true) →
          (s.Frees p (s.munmap p addr length).1 addr length ↔
            addr + length < r.slabInfo.endAddr) := by
  have hbt : Inv p regions s ∧ Ledger p s := by
    refine hrun.invariant (I := fun s => Inv p regions s ∧ Ledger p s)
      ⟨inv_initial hthp hok hapart hregions,
        ⟨shaped_initial hthp hok habove hapart hregions, nofun, nofun, htracked⟩⟩ ?_
    rintro s ⟨host, c⟩ s' ⟨hinv, hled⟩ hc rfl
    cases c with
    | mmap q => exact mmap_tidy hinv hled hc
    | munmap addr length => exact munmap_tidy hinv hled hc
  obtain ⟨hinv, hled⟩ := hbt
  refine ⟨hled.accounts, fun r hr addr length hin hall => ?_⟩
  obtain ⟨i, hi⟩ := mem_iff_getElem?.1 hr
  have hgd := hinv.live r hr
  obtain ⟨hpg, hlength, -, hfit⟩ := hin.pages hgd.wf
  refine hled.shaped.frees_iff hi hin fun k hk => hgd.used_page (by omega) (hall _ ?_ ?_)
  · rw [Nat.add_mul]
    omega
  · have hmul := Nat.mul_le_mul_right p.size (show k + 1 ≤ length / p.size by omega)
    have hpos := p.pos
    rw [Nat.add_mul] at hmul ⊢
    omega

/-! ### Runs on a large and a small region -/

def page4K : HostPage := ⟨4096, by decide, by decide⟩

/-- A region with a header of 512 pages of 4 KiB. -/
def largeRegion : ReservedVMARegion := ⟨0x200000000, 511 * 4096 * 8 * 4096⟩

/-- The range of `largeRegion` and the arena in front of it. -/
def largeRange : ReservedVMARegion :=
  ⟨0x200000000 - objectAllocSize, objectAllocSize + 511 * 4096 * 8 * 4096⟩

theorem free_space_accounted_largeRegion :
    ∃ s, (hostMachine page4K).Run (Tidy page4K) (initial [largeRegion])
        [(obliging, .mmap ⟨0, 4096, .hint, none⟩)] s ∧
      (∀ r ∈ s.live, r.Accounted page4K s.allocated) ∧
      s.Frees page4K (s.munmap page4K (largeRegion.base + 512 * 4096) 4096).1
        (largeRegion.base + 512 * 4096) 4096 := by
  have htd : Tidy page4K (initial [largeRegion]) (obliging, .mmap ⟨0, 4096, .hint, none⟩) :=
    .hint _ _ (.mmap _ rfl (.inl rfl) (by decide) (by decide) (forall_mem_singleton.2 fun _ =>
        ⟨by decide, not_overruns_of_free rfl (by decide) (by decide)⟩)
      fun h => absurd rfl h) fun _ => rfl
  have hrun : (hostMachine page4K).Run (Tidy page4K) (initial [largeRegion])
      [(obliging, .mmap ⟨0, 4096, .hint, none⟩)]
      (step page4K obliging (initial [largeRegion]) (.mmap ⟨0, 4096, .hint, none⟩)).1 :=
    .cons htd rfl (.nil _)
  obtain ⟨hacc, hfre⟩ := free_space_accounted page4K 0 (Nat.dvd_zero _) [largeRange]
    [largeRegion] (forall_mem_singleton.2 ⟨by decide, by decide, by decide⟩)
    (forall_mem_singleton.2 (by decide)) (pairwise_singleton _ _) (by decide)
    (forall_mem_singleton.2 ⟨by decide, by decide, by decide⟩) _ _ hrun
  refine ⟨_, hrun, hacc, ?_⟩
  have hpla : (placeHint page4K obliging (initial [largeRegion]) 0 4096 4096).2.1 =
      largeRegion.base + 512 * 4096 := by decide
  refine (hfre ((largeRegion.activate page4K).mark page4K (largeRegion.base + 512 * 4096) 1)
    (mem_singleton.2 (congrArg (mark page4K _ · 1) hpla.symm)) _ _
    ⟨by decide, by decide, by decide, by decide, by decide⟩ fun a h1 h2 => ?_).2 (by decide)
  refine Bool.or_eq_true_iff.2 (.inl (decide_eq_true ?_))
  rw [← hpla] at h1 h2
  exact ⟨h1, h2⟩

/-- The allocator with `smallRegion` after some calls. -/
def smallAfter (calls : List Call) : State :=
  calls.foldl (fun s c => (step page64K obliging s c).1) (initial [smallRegion])

/-- Two ways to lose the accounts.  The header of a small region is not marked; and the pages up to
the end of the region stay marked after their `Munmap`, and none of them counts as free. -/
theorem accounts_wrong :
    ((smallAfter [ask 1 none]).live.map fun r => (r.numManagedPages, r.usedPages 0)) =
        [(1, false)] ∧
      answers page64K obliging (initial [smallRegion]) [ask 8 none, giveBack 1 8] =
        [.ok (smallRegion.base + 1 * 65536), .ok 0] ∧
      ((smallAfter [ask 8 none, giveBack 1 8]).live.map fun r =>
          (r.usedPages 1, r.freeSpace,
            r.unallocated page64K (smallAfter [ask 8 none, giveBack 1 8]).allocated)) =
        [(true, 0, 8)] := by
  decide +kernel

end FastPPC.Alloc64
