import FastPPC.Lookup.Granules

/-!
# The map from guest addresses to host code

`GuestToHostMap` of `LookupCache.h`: the blocks of one code buffer, shared by all threads that
run from it.  `BlockList` maps a guest address to its block, `CodePages` lists for every guest
page the addresses of the blocks that have code on it, and a soft invalidation moves blocks to
`RetainedBlocks`, from where they can be taken back.

A page vector may list an address that `BlockList` no longer has: a block is erased through one
of its pages and stays listed on the others.
-/

namespace FastPPC.Lookup

open List Function

/-- The part of the tail of a JIT block that describes its guest code. -/
structure JITCodeTail where
  rip : ℕ
  guestSize : ℕ
  deriving DecidableEq

/-- A block.  `tail` is what the header at `BlockBegin` leads to. -/
structure BlockEntry where
  hostCode : ℕ
  tail : JITCodeTail
  codePages : List ℕ
  guestRangeStart : ℕ := 0
  guestRangeLength : ℕ := 0
  guestHash : BitVec 64 := 0
  deriving DecidableEq

structure GuestToHostMap where
  blockList : ℕ → Option BlockEntry
  /-- Indexed by page number. -/
  codePages : ℕ → Option (List ℕ)
  retainedBlocks : ℕ → Option BlockEntry
  retainedCodePages : ℕ → Option (List ℕ)
  codeGranules : CodeGranuleBitmap

/-- `(start + length - 1) >> 12` in 64-bit arithmetic. -/
def lastPage (start length : ℕ) : ℕ :=
  (if wadd start length = 0 then word - 1 else wadd start length - 1) / 2 ^ 12

/-- The page numbers from `lower_bound(start >> 12)` to `upper_bound((start + length - 1) >>
12)`. -/
def pages (start length : ℕ) : List ℕ :=
  range' (start / 2 ^ 12) (lastPage start length + 1 - start / 2 ^ 12)

namespace GuestToHostMap

/-- A new map; granules are tracked if the feature is on. -/
def empty (codeGranules : CodeGranuleBitmap) : GuestToHostMap where
  blockList _ := none
  codePages _ := none
  retainedBlocks _ := none
  retainedCodePages _ := none
  codeGranules := codeGranules

variable (m : GuestToHostMap)

/-- `AddBlockMapping`: a previous block at the address is replaced. -/
def addBlockMapping (address : ℕ) (entry : BlockEntry) : GuestToHostMap :=
  { m with blockList := update m.blockList address (some entry) }

def findBlock (address : ℕ) : Option BlockEntry := m.blockList address

def erase (address : ℕ) : GuestToHostMap :=
  { m with blockList := update m.blockList address none }

/-- Take `address` out of the retained vector of a page, and the vector out if it is empty. -/
def dropRetainedPage (address : ℕ) (index : ℕ → Option (List ℕ)) (page : ℕ) :
    ℕ → Option (List ℕ) :=
  match index (page / 2 ^ 12) with
  | none => index
  | some as =>
    update index (page / 2 ^ 12)
      (if as.erase address = [] then none else some (as.erase address))

def dropRetainedBlockLocked (address : ℕ) : GuestToHostMap :=
  match m.retainedBlocks address with
  | none => m
  | some e =>
    { m with
      retainedCodePages := e.codePages.foldl (dropRetainedPage address) m.retainedCodePages
      retainedBlocks := update m.retainedBlocks address none }

/-- Add `address` to the retained vector of a page. -/
def retainPage (address : ℕ) (index : ℕ → Option (List ℕ)) (page : ℕ) : ℕ → Option (List ℕ) :=
  let as := (index (page / 2 ^ 12)).getD []
  update index (page / 2 ^ 12) (some (if address ∈ as then as else as ++ [address]))

/-- `SoftEraseBlock`: a block without a hash or without pages is dropped. -/
def softEraseBlock (address : ℕ) : GuestToHostMap :=
  match m.blockList address with
  | none => m
  | some e =>
    if e.guestRangeLength = 0 ∨ e.codePages = [] then m.erase address else
    let m := m.dropRetainedBlockLocked address
    { m with
      retainedCodePages := e.codePages.foldl (retainPage address) m.retainedCodePages
      retainedBlocks := update m.retainedBlocks address (some e)
      blockList := update m.blockList address none }

def dropRetainedRange (start length : ℕ) : GuestToHostMap :=
  let doomed := (pages start length).flatMap fun p => (m.retainedCodePages p).getD []
  doomed.foldl dropRetainedBlockLocked m

def takeRetainedBlock (address : ℕ) : GuestToHostMap × Option BlockEntry :=
  match m.retainedBlocks address with
  | none => (m, none)
  | some e =>
    ({ m with
        retainedBlocks := update m.retainedBlocks address none
        retainedCodePages := e.codePages.foldl (dropRetainedPage address) m.retainedCodePages },
      some e)

/-- One page of the loop that the two invalidations share: the blocks it lists are erased, and
the granules of the page are cleared. -/
def erasePage (erase : GuestToHostMap → ℕ → GuestToHostMap) (m : GuestToHostMap) (page : ℕ) :
    GuestToHostMap :=
  match m.codePages page with
  | none => m
  | some entries =>
    let m := entries.foldl erase m
    if m.codeGranules.enabled then
      { m with codeGranules := m.codeGranules.clearPage (page * 2 ^ 12) }
    else m

/-- The loop over the pages, and `CodePages.erase(lower, upper)`. -/
def erasePages (erase : GuestToHostMap → ℕ → GuestToHostMap) (m : GuestToHostMap)
    (ps : List ℕ) : GuestToHostMap :=
  let m := ps.foldl (erasePage erase) m
  { m with codePages := fun p => if p ∈ ps then none else m.codePages p }

def softInvalidateRange (start length : ℕ) : GuestToHostMap :=
  m.erasePages softEraseBlock (pages start length)

def invalidateRange (start length : ℕ) : GuestToHostMap :=
  (m.erasePages erase (pages start length)).dropRetainedRange start length

/-- One page of `AddBlockExecutableRange`; the flag says whether some page was new. -/
def addPage (mem : ℕ → Alloc) (addresses : List ℕ) (guestRangeStart guestRangeLength : ℕ)
    (s : GuestToHostMap × Bool) (page : ℕ) : GuestToHostMap × Bool :=
  let entries := (s.1.codePages page).getD []
  ({ s.1 with
      codePages := update s.1.codePages page (some (entries ++ addresses))
      codeGranules :=
        if s.1.codeGranules.enabled then
          s.1.codeGranules.setPageRange (mem page) (page * 2 ^ 12) guestRangeStart guestRangeLength
        else s.1.codeGranules },
    s.2 || entries.isEmpty)

/-- `AddBlockExecutableRange`; `mem` answers the allocations made for each page. -/
def addBlockExecutableRange (mem : ℕ → Alloc) (m : GuestToHostMap) (addresses : List ℕ)
    (start length guestRangeStart guestRangeLength : ℕ) : GuestToHostMap × Bool :=
  (pages start length).foldl (addPage mem addresses guestRangeStart guestRangeLength) (m, false)

/-- `ClearCache` keeps the page vectors. -/
def clearCache : GuestToHostMap :=
  { m with
    blockList := fun _ => none
    retainedBlocks := fun _ => none
    retainedCodePages := fun _ => none
    codeGranules := m.codeGranules.clearAll }

/-- The test of one listed address in `RangeOverlapsCompiledCode`. -/
def blockOverlaps (start «end» address : ℕ) : Bool :=
  match m.blockList address with
  | none => false
  | some e =>
    -- an unknown extent overlaps
    e.tail.guestSize = 0 ∨ e.tail.rip < «end» ∧ start < wadd e.tail.rip e.tail.guestSize

def rangeOverlapsCompiledCode (start length : ℕ) : Bool :=
  (pages start length).any fun p =>
    ((m.codePages p).getD []).any (m.blockOverlaps start (wadd start length))

/-! ### What the operations do -/

/-- The vector of the page lists the address. -/
def Listed (page address : ℕ) : Prop :=
  ∃ entries, m.codePages page = some entries ∧ address ∈ entries

/-- What the two erasures have in common. -/
structure Erasure (erase : GuestToHostMap → ℕ → GuestToHostMap) : Prop where
  blockList : ∀ m a, (erase m a).blockList = update m.blockList a none
  codePages : ∀ m a, (erase m a).codePages = m.codePages
  codeGranules : ∀ m a, (erase m a).codeGranules = m.codeGranules

theorem erase_erasure : Erasure erase := ⟨fun _ _ => rfl, fun _ _ => rfl, fun _ _ => rfl⟩

section

variable (m : GuestToHostMap)

theorem dropRetainedBlockLocked_frame (a : ℕ) :
    (m.dropRetainedBlockLocked a).blockList = m.blockList ∧
      (m.dropRetainedBlockLocked a).codePages = m.codePages ∧
      (m.dropRetainedBlockLocked a).codeGranules = m.codeGranules := by
  unfold dropRetainedBlockLocked
  split <;> exact ⟨rfl, rfl, rfl⟩

theorem softEraseBlock_frame (a : ℕ) : (m.softEraseBlock a).blockList = update m.blockList a none ∧
      (m.softEraseBlock a).codePages = m.codePages ∧
      (m.softEraseBlock a).codeGranules = m.codeGranules := by
  obtain ⟨hb, hc, hg⟩ := m.dropRetainedBlockLocked_frame a
  unfold softEraseBlock
  split
  · rename_i h
    exact ⟨by rw [← h, update_eq_self], rfl, rfl⟩
  · split
    · exact ⟨rfl, rfl, rfl⟩
    · exact ⟨by simp [hb], hc, hg⟩

theorem foldl_dropRetained_frame (doomed : List ℕ) :
    (doomed.foldl dropRetainedBlockLocked m).blockList = m.blockList ∧
      (doomed.foldl dropRetainedBlockLocked m).codePages = m.codePages ∧
      (doomed.foldl dropRetainedBlockLocked m).codeGranules = m.codeGranules := by
  induction doomed generalizing m with
  | nil => exact ⟨rfl, rfl, rfl⟩
  | cons a as ih =>
    obtain ⟨hb, hc, hg⟩ := m.dropRetainedBlockLocked_frame a
    obtain ⟨ihb, ihc, ihg⟩ := ih (m.dropRetainedBlockLocked a)
    exact ⟨ihb.trans hb, ihc.trans hc, ihg.trans hg⟩

theorem dropRetainedRange_frame (start length : ℕ) :
    (m.dropRetainedRange start length).blockList = m.blockList ∧
      (m.dropRetainedRange start length).codePages = m.codePages ∧
      (m.dropRetainedRange start length).codeGranules = m.codeGranules := by
  unfold dropRetainedRange
  exact m.foldl_dropRetained_frame _

theorem takeRetainedBlock_frame (a : ℕ) : (m.takeRetainedBlock a).1.blockList = m.blockList ∧
      (m.takeRetainedBlock a).1.codePages = m.codePages ∧
      (m.takeRetainedBlock a).1.codeGranules = m.codeGranules := by
  unfold takeRetainedBlock
  split <;> exact ⟨rfl, rfl, rfl⟩

end

theorem softEraseBlock_erasure : Erasure softEraseBlock :=
  ⟨fun m a => (m.softEraseBlock_frame a).1, fun m a => (m.softEraseBlock_frame a).2.1,
    fun m a => (m.softEraseBlock_frame a).2.2⟩

section Erase

variable {erase : GuestToHostMap → ℕ → GuestToHostMap} (he : Erasure erase)

include he

theorem foldl_erase (m : GuestToHostMap) (entries : List ℕ) :
    (∀ a, (entries.foldl erase m).blockList a = if a ∈ entries then none else m.blockList a) ∧
      (entries.foldl erase m).codePages = m.codePages ∧
      (entries.foldl erase m).codeGranules = m.codeGranules := by
  induction entries generalizing m with
  | nil => simp
  | cons b bs ih =>
    obtain ⟨hb, hc, hg⟩ := ih (erase m b)
    refine ⟨fun a => ?_, hc.trans (he.codePages m b), hg.trans (he.codeGranules m b)⟩
    rw [foldl_cons, hb, he.blockList]
    by_cases hab : a = b
    · simp [hab]
    · simp [hab]

theorem erasePage_spec (m : GuestToHostMap) (page : ℕ) :
    (∀ a, (m.erasePage erase page).blockList a =
      if a ∈ (m.codePages page).getD [] then none else m.blockList a) ∧
      (m.erasePage erase page).codePages = m.codePages := by
  unfold erasePage
  rcases m.codePages page with _ | entries
  · simp
  · obtain ⟨hb, hc, -⟩ := foldl_erase he m entries
    simp only [Option.getD_some]
    split <;> exact ⟨hb, hc⟩

/-- The loop over the pages erases exactly the blocks that a page lists. -/
theorem foldl_erasePage (m : GuestToHostMap) (ps : List ℕ) :
    (∀ a, (ps.foldl (erasePage erase) m).blockList a =
      if a ∈ ps.flatMap (fun p => (m.codePages p).getD []) then none else m.blockList a) ∧
      (ps.foldl (erasePage erase) m).codePages = m.codePages := by
  induction ps generalizing m with
  | nil => simp
  | cons p ps ih =>
    obtain ⟨hb, hc⟩ := erasePage_spec he m p
    obtain ⟨ihb, ihc⟩ := ih (m.erasePage erase p)
    refine ⟨fun a => ?_, ihc.trans hc⟩
    rw [foldl_cons, ihb, hc, hb, flatMap_cons]
    by_cases ha : a ∈ (m.codePages p).getD [] <;> simp [ha]

theorem erasePages_blockList {m : GuestToHostMap} {ps : List ℕ} {a : ℕ} {e : BlockEntry} :
    (m.erasePages erase ps).blockList a = some e ↔
      m.blockList a = some e ∧ ∀ p ∈ ps, ¬m.Listed p a := by
  have h := (foldl_erasePage he m ps).1 a
  simp only [erasePages, h]
  split
  · rename_i hmem
    obtain ⟨p, hp, ha⟩ := mem_flatMap.1 hmem
    rcases hc : m.codePages p with _ | es
    · simp [hc] at ha
    · simp only [hc] at ha
      simpa using fun _ => ⟨p, hp, es, hc, ha⟩
  · rename_i hmem
    refine ⟨fun h => ⟨h, ?_⟩, And.left⟩
    rintro p hp ⟨es, hes, ha⟩
    exact hmem (mem_flatMap.2 ⟨p, hp, by simpa [hes] using ha⟩)

theorem erasePages_codePages (m : GuestToHostMap) (ps : List ℕ) (p : ℕ) :
    (m.erasePages erase ps).codePages p = if p ∈ ps then none else m.codePages p := by
  simp [erasePages, (foldl_erasePage he m ps).2]

end Erase

/-! ### Registration -/

section AddPage

variable (mem : ℕ → Alloc) (addresses : List ℕ) (guestRangeStart guestRangeLength : ℕ)

theorem foldl_addPage (s : GuestToHostMap × Bool) (ps : List ℕ) :
    (ps.foldl (addPage mem addresses guestRangeStart guestRangeLength) s).1.blockList =
        s.1.blockList ∧
      ∀ p a, (ps.foldl (addPage mem addresses guestRangeStart guestRangeLength) s).1.Listed p a ↔
        s.1.Listed p a ∨ p ∈ ps ∧ a ∈ addresses := by
  induction ps generalizing s with
  | nil => simp
  | cons q ps ih =>
    obtain ⟨ihb, ihl⟩ := ih (addPage mem addresses guestRangeStart guestRangeLength s q)
    refine ⟨ihb, fun p a => ?_⟩
    rw [foldl_cons, ihl]
    -- one page: its vector gains the addresses
    have hone : (addPage mem addresses guestRangeStart guestRangeLength s q).1.Listed p a ↔
        s.1.Listed p a ∨ p = q ∧ a ∈ addresses := by
      unfold addPage Listed
      by_cases hpq : p = q
      · subst hpq
        cases h : s.1.codePages p <;> simp
      · simp [hpq]
    rw [hone, mem_cons]
    tauto

theorem addBlockExecutableRange_blockList (m : GuestToHostMap) (start length : ℕ) :
    (m.addBlockExecutableRange mem addresses start length guestRangeStart
      guestRangeLength).1.blockList = m.blockList :=
  (foldl_addPage mem addresses guestRangeStart guestRangeLength (m, false) _).1

theorem addBlockExecutableRange_listed {m : GuestToHostMap} {start length p a : ℕ} :
    (m.addBlockExecutableRange mem addresses start length guestRangeStart
      guestRangeLength).1.Listed p a ↔ m.Listed p a ∨ p ∈ pages start length ∧ a ∈ addresses :=
  (foldl_addPage mem addresses guestRangeStart guestRangeLength (m, false) _).2 p a

end AddPage

/-! ### The map as a machine -/

/-- The operations on the map. -/
inductive Op
  | addBlockExecutableRange (mem : ℕ → Alloc) (addresses : List ℕ)
      (start length guestRangeStart guestRangeLength : ℕ)
  | addBlockMapping (address : ℕ) (entry : BlockEntry)
  | erase (address : ℕ)
  | softInvalidateRange (start length : ℕ)
  | invalidateRange (start length : ℕ)
  | dropRetainedRange (start length : ℕ)
  | takeRetainedBlock (address : ℕ)
  | clearCache

def step : Op → GuestToHostMap
  | .addBlockExecutableRange mem addresses start length guestRangeStart guestRangeLength =>
    (m.addBlockExecutableRange mem addresses start length guestRangeStart guestRangeLength).1
  | .addBlockMapping address entry => m.addBlockMapping address entry
  | .erase address => m.erase address
  | .softInvalidateRange start length => m.softInvalidateRange start length
  | .invalidateRange start length => m.invalidateRange start length
  | .dropRetainedRange start length => m.dropRetainedRange start length
  | .takeRetainedBlock address => (m.takeRetainedBlock address).1
  | .clearCache => m.clearCache

end GuestToHostMap

end FastPPC.Lookup
