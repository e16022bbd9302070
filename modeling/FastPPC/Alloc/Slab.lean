import FastPPC.Alloc.FlexBitSet

/-!
# Slabs of the 64-bit allocator

The allocator owns a list of memory regions.  A region in use, a `LiveVMARegion`, begins with its
own header and the bit set of its used pages.  `findRange` is the search inside a region of
`CheckIfRangeFits`.

* `LiveVMARegion.Overruns` : the states of a region in which the search runs over its end;
* `LiveVMARegion.findRange_some` : in all other states a found range lies inside the region, behind
  the header, and is free;
* `LiveVMARegion.findRange_overruns` : in those states it does not.
-/

namespace FastPPC

structure HostPage where
  size : ℕ
  le_size : 4096 ≤ size
  dvd : size ∣ 2 ^ 26

namespace HostPage

variable (p : HostPage)

def alignDown (v : ℕ) : ℕ := v / p.size * p.size

def alignUp (v : ℕ) : ℕ := wadd v (p.size - 1) / p.size * p.size

theorem pos : 0 < p.size := Nat.lt_of_lt_of_le (by decide) p.le_size

theorem le_max : p.size ≤ 2 ^ 26 := Nat.le_of_dvd (by decide) p.dvd

theorem dvd_alignDown (v : ℕ) : p.size ∣ p.alignDown v := Nat.dvd_mul_left _ _

theorem dvd_alignUp (v : ℕ) : p.size ∣ p.alignUp v := Nat.dvd_mul_left _ _

end HostPage

namespace Alloc64

variable (p : HostPage)

structure ReservedVMARegion where
  base : ℕ
  regionSize : ℕ
  deriving DecidableEq

structure LiveVMARegion where
  slabInfo : ReservedVMARegion
  freeSpace : ℕ
  numManagedPages : ℕ
  /-- A 32-bit page index. -/
  lastPageAllocation : ℕ
  hadMunmap : Bool
  usedPages : FlexBitSet

/-- `GetFEXManagedVMARegionSize`: the header and one bit for each page. -/
def getFEXManagedVMARegionSize (size : ℕ) : ℕ := 4096 + (size / p.size + 63) / 64 * 64 / 8

namespace ReservedVMARegion

variable (r : ReservedVMARegion)

def endAddr : ℕ := r.base + r.regionSize

def numPages : ℕ := r.regionSize / p.size

/-- The bytes at the head of a region that hold the header and the bit set. -/
def headerSize : ℕ := p.alignUp (getFEXManagedVMARegionSize p r.regionSize)

/-- `MakeRegionActive` and `InitializeVMARegionUsed` without additional memory. -/
def activate : LiveVMARegion where
  slabInfo := r
  freeSpace := wsub r.regionSize (r.headerSize p)
  numManagedPages := r.headerSize p / p.size
  lastPageAllocation := r.headerSize p / p.size % 2 ^ 32
  hadMunmap := false
  usedPages := FlexBitSet.clear.memSet (r.headerSize p / p.size)

end ReservedVMARegion

namespace LiveVMARegion

variable (r : LiveVMARegion)

def numPages : ℕ := r.slabInfo.numPages p

/-- The page of the region an address lies in. -/
def pageOf (addr : ℕ) : ℕ := wsub addr r.slabInfo.base / p.size

def addrOf (page : ℕ) : ℕ := wadd r.slabInfo.base (page * p.size)

/-- Search for `n` pages: downwards after a `Munmap`, then upwards. -/
def findRange (start n : ℕ) : LiveVMARegion × Option ℕ :=
  if r.hadMunmap then
    match r.usedPages.backwardScanForRange start n r.numManagedPages with
    | ⟨some c, _, _⟩ => (r, some c)
    | ⟨none, hole, _⟩ =>
      ({ r with hadMunmap := hole }, (r.usedPages.forwardScanForRange start n (r.numPages p)).1)
  else (r, (r.usedPages.forwardScanForRange start n (r.numPages p)).1)

def mark (addr n : ℕ) : LiveVMARegion :=
  { r with
    usedPages := r.usedPages.setRange (r.pageOf p addr) n
    lastPageAllocation := (r.pageOf p addr + n) % 2 ^ 32
    freeSpace := wsub r.freeSpace (r.usedPages.count false (r.pageOf p addr) n * p.size) }

/-- The pages of a `Munmap`; the first one is a 32-bit index. -/
def release (addr n : ℕ) : LiveVMARegion :=
  { r with
    usedPages := r.usedPages.clearRange (r.pageOf p addr % 2 ^ 32) n
    freeSpace :=
      wadd r.freeSpace (r.usedPages.count true (r.pageOf p addr % 2 ^ 32) n * p.size)
    lastPageAllocation := min r.lastPageAllocation (r.pageOf p addr % 2 ^ 32)
    hadMunmap := true }

/-! ### The search -/

/-- The search for `n` pages from `start` runs over the end of the region: the last `n - 1` pages
are free (the bit behind the last page is always clear), and the backward scan starts behind the
last page, or the forward scan gets to the end without an earlier fit. -/
def Overruns (start n : ℕ) : Prop :=
  r.usedPages.Free (r.numPages p + 1 - n) n ∧
    (r.hadMunmap = true ∧ start = r.numPages p ∧ r.numManagedPages + n ≤ r.numPages p + 1 ∨
      start ≤ r.numPages p + 1 - n ∧
        (∀ c, start ≤ c → c + n ≤ r.numPages p → ¬r.usedPages.Free c n) ∧
        ¬(r.hadMunmap = true ∧
          ∃ c, r.numManagedPages ≤ c ∧ c + n ≤ start + 1 ∧ r.usedPages.Free c n))

variable {p} {r : LiveVMARegion} {start n : ℕ}

/-- The search changes nothing but `HadMunmap`, which it can only take back. -/
theorem findRange_fst (r : LiveVMARegion) (start n : ℕ) :
    (r.findRange p start n).1 = r ∨ (r.findRange p start n).1 = { r with hadMunmap := false } := by
  rw [findRange]
  split
  · split
    · exact .inl rfl
    · rename_i hmun _ hole _ _
      cases hole with
      | false => exact .inr rfl
      | true =>
        refine .inl ?_
        rw [← hmun]
  · exact .inl rfl

section

variable (hman : 0 < r.numManagedPages) (hpag : r.numPages p < word - 1)
  (hn : n ≤ r.numPages p)
include hman hpag hn

/-- What the search finds, by the scan that finds it. -/
theorem findRange_cases (start : ℕ) :
    (∃ c, (r.findRange p start n).2 = some c ∧ r.hadMunmap = true ∧
      FlexBitSet.IsHighest r.usedPages n start r.numManagedPages c) ∨
    (FlexBitSet.Lowest r.usedPages n start (r.numPages p + 1 - n) (r.findRange p start n).2 ∧
      (r.hadMunmap = true →
        ∀ c, r.numManagedPages ≤ c → c + n ≤ start + 1 → ¬r.usedPages.Free c n)) := by
  have hfwd := r.usedPages.forwardScanForRange_spec start hpag hn
  have hbwd := r.usedPages.backwardScanForRange_spec start n hman
  rw [findRange]
  split
  · rename_i hmun
    split
    · rename_i c hole reads heq
      rw [heq] at hbwd
      exact .inl ⟨c, rfl, hmun, hbwd⟩
    · rename_i hole reads heq
      rw [heq] at hbwd
      exact .inr ⟨hfwd, fun _ => hbwd⟩
  · rename_i hmun
    exact .inr ⟨hfwd, fun h => absurd h hmun⟩

/-- **A search that does not overrun** finds free pages of the region. -/
theorem findRange_some (hmin : r.numManagedPages ≤ start) (hsta : start ≤ r.numPages p)
    (hsf : ¬r.Overruns p start n) {c : ℕ} (hfou : (r.findRange p start n).2 = some c) :
    r.numManagedPages ≤ c ∧ c + n ≤ r.numPages p ∧ r.usedPages.Free c n := by
  rcases findRange_cases hman hpag hn start with ⟨c', heq, hmun, hhg⟩ | ⟨hlow, hbc⟩
  · rw [hfou] at heq
    cases heq
    refine ⟨hhg.minimum_le, ?_, hhg.free⟩
    by_contra hov
    have hle := hhg.le
    have hc : c = r.numPages p + 1 - n := by omega
    have hmin := hhg.minimum_le
    exact hsf ⟨hc ▸ hhg.free, .inl ⟨hmun, by omega, by omega⟩⟩
  · rw [hfou] at hlow
    refine ⟨hmin.trans hlow.le, ?_, hlow.free⟩
    by_contra hov
    have hle := hlow.le_final
    have hc : c = r.numPages p + 1 - n := by omega
    refine hsf ⟨hc ▸ hlow.free, .inr ⟨hc ▸ hlow.le, fun d h1 h2 => ?_, ?_⟩⟩
    · exact hlow.lowest d h1 (by omega)
    · rintro ⟨hmun, d, h1, h2, hfr⟩
      exact hbc hmun d h1 h2 hfr

/-- A search that overruns does find pages, the last of them behind the region. -/
theorem findRange_overruns (hov : r.Overruns p start n) :
    (r.findRange p start n).2 = some (r.numPages p + 1 - n) := by
  obtain ⟨hfr, hor⟩ := hov
  rcases findRange_cases hman hpag hn start with ⟨c, heq, hmun, hhg⟩ | ⟨hlow, hbc⟩
  · rw [heq]
    congr 1
    rcases hor with ⟨-, hsta, -⟩ | ⟨-, -, hno⟩
    · have hle := hhg.le
      by_contra hne
      exact hhg.highest (r.numPages p + 1 - n) (by omega) (by omega) hfr
    · exact absurd ⟨hmun, c, hhg.minimum_le, hhg.le, hhg.free⟩ hno
  · rcases hor with ⟨hmun, hsta, hfit⟩ | ⟨hsta, hno, -⟩
    · exact absurd hfr (hbc hmun _ (by omega) (by omega))
    · exact hlow.eq_some hsta le_rfl hfr fun c h1 h2 => hno c h1 (by omega)

end

/-- Free pages at the start of a forward search are found. -/
theorem findRange_start (hpag : r.numPages p < word - 1) (hmun : r.hadMunmap = false)
    (hfit : start + n ≤ r.numPages p) (hfr : r.usedPages.Free start n) :
    (r.findRange p start n).2 = some start := by
  have hn : n ≤ r.numPages p := by omega
  have hfwd := r.usedPages.forwardScanForRange_spec start hpag hn
  rw [findRange, hmun]
  exact hfwd.eq_some le_rfl (by omega) hfr fun c h1 h2 => absurd h1 (by omega)

/-- A search that finds nothing has left no room from its start on, and does not overrun when it is
repeated. -/
theorem findRange_none (hman : 0 < r.numManagedPages) (hpag : r.numPages p < word - 1)
    (hn : n ≤ r.numPages p) (hfou : (r.findRange p start n).2 = none) :
    (∀ c, start ≤ c → c + n ≤ r.numPages p + 1 → ¬r.usedPages.Free c n) ∧
      ∀ r', r' = r ∨ r' = { r with hadMunmap := false } → ¬r'.Overruns p start n := by
  rcases findRange_cases hman hpag hn start with ⟨c, heq, -, -⟩ | ⟨hlow, hbc⟩
  · rw [hfou] at heq
    cases heq
  · rw [hfou] at hlow
    have hrm : ∀ c, start ≤ c → c + n ≤ r.numPages p + 1 → ¬r.usedPages.Free c n :=
      fun c h1 h2 => hlow c h1 (by omega)
    refine ⟨hrm, ?_⟩
    rintro r' (rfl | rfl) ⟨hfr, hor⟩
    · rcases hor with ⟨hmun, heq, hfit⟩ | ⟨hle, -⟩
      · exact hbc hmun _ (by omega) (by omega) hfr
      · exact hrm _ hle (by omega) hfr
    · rcases hor with ⟨hmun, -⟩ | ⟨hle, -⟩
      · cases hmun
      · have hle : start ≤ r.numPages p + 1 - n := hle
        exact hrm _ hle (by omega) hfr

end LiveVMARegion

/-! ### Well-formed regions -/

/-- A region the allocator can use: page aligned, below the end of the address space, with page
indices of 32 bits and room for more than the header. -/
structure ReservedVMARegion.Wf (p : HostPage) (r : ReservedVMARegion) : Prop where
  dvd : p.size ∣ r.base
  end_lt : r.endAddr < word
  pages_lt : r.numPages p < 2 ^ 32
  size_gt : p.size * 2 < r.regionSize

namespace ReservedVMARegion

variable {p} {r : ReservedVMARegion}

theorem Wf.two_le (h : r.Wf p) : 2 ≤ r.numPages p :=
  (Nat.le_div_iff_mul_le p.pos).2 (by have := h.size_gt; omega)

theorem headerSize_eq (r : ReservedVMARegion) : r.headerSize p = r.headerSize p / p.size * p.size :=
  (Nat.div_mul_cancel (p.dvd_alignUp _)).symm

/-- The header fills its pages but for less than one. -/
theorem Wf.header (h : r.Wf p) : getFEXManagedVMARegionSize p r.regionSize ≤ r.headerSize p ∧
      r.headerSize p < getFEXManagedVMARegionSize p r.regionSize + p.size := by
  have hpag := h.pages_lt
  have hpos := p.pos
  have hmax := p.le_max
  have hman : getFEXManagedVMARegionSize p r.regionSize < 2 ^ 33 := by
    simp only [getFEXManagedVMARegionSize]
    simp only [numPages] at hpag
    omega
  rw [headerSize, HostPage.alignUp, wadd_eq (by unfold word; omega)]
  have hdiv := Nat.div_add_mod (getFEXManagedVMARegionSize p r.regionSize + (p.size - 1)) p.size
  have hmod := Nat.mod_lt (getFEXManagedVMARegionSize p r.regionSize + (p.size - 1)) hpos
  rw [Nat.mul_comm] at hdiv
  omega

theorem Wf.header_pos (h : r.Wf p) : 0 < r.headerSize p / p.size := by
  have hle := h.header.1
  have heq := headerSize_eq (p := p) r
  rcases Nat.eq_zero_or_pos (r.headerSize p / p.size) with h0 | h0
  · rw [h0] at heq
    simp only [getFEXManagedVMARegionSize] at hle
    omega
  · exact h0

theorem Wf.header_le (h : r.Wf p) : r.headerSize p / p.size ≤ r.numPages p := by
  have hlt := h.header.2
  have htwo := h.two_le
  have hmul : r.numPages p * 4096 ≤ r.numPages p * p.size := Nat.mul_le_mul_left _ p.le_size
  have hman : getFEXManagedVMARegionSize p r.regionSize ≤ r.numPages p * 4096 := by
    simp only [getFEXManagedVMARegionSize, numPages] at htwo ⊢
    omega
  have hbou : r.headerSize p / p.size * p.size < (r.numPages p + 1) * p.size := by
    rw [← headerSize_eq, Nat.add_mul, Nat.one_mul]
    omega
  exact Nat.le_of_lt_succ (Nat.lt_of_mul_lt_mul_right hbou)

theorem Wf.memSet_le (h : r.Wf p) :
    8 * ((r.headerSize p / p.size / 64 + 63) / 64 * 64) ≤ r.numPages p := by
  have hlt := h.header.2
  have heq := headerSize_eq (p := p) r
  rcases Nat.lt_or_ge (r.headerSize p / p.size) 64 with hsma | hlar
  · omega
  · -- a header of 64 pages tracks far more than 512 pages
    have hmul : (r.headerSize p / p.size - 1) * 4096 ≤ (r.headerSize p / p.size - 1) * p.size :=
      Nat.mul_le_mul_left _ p.le_size
    have hpr : (r.headerSize p / p.size - 1) * p.size = r.headerSize p - p.size := by
      rw [Nat.sub_mul, Nat.one_mul, ← heq]
    simp only [getFEXManagedVMARegionSize] at hlt
    simp only [numPages]
    omega

end ReservedVMARegion

end Alloc64

end FastPPC
