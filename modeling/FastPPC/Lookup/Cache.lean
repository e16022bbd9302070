import FastPPC.Lookup.Map

/-!
# The lookup cache of a thread

`LookupCache` of `LookupCache.h`: a direct-mapped L1 table, an L2 table of pages whose backing is
handed out from a fixed area, and behind both the shared map (L3).  `CachedCodePages` remembers
for every guest page which addresses this thread has cached for it, so that an invalidation can
find them.

An entry is empty if its guest address is zero.  `InvalidateCache` relies on that for L1: it
clears the guest address and leaves the host code.
-/

namespace FastPPC.Lookup

open Function

structure LookupCacheEntry where
  hostCode : ℕ
  guestCode : ℕ
  deriving DecidableEq

/-- The options a cache is created with. -/
structure CacheConfig where
  virtualMemSize : ℕ
  disableL2Cache : Bool
  dynamicL1Cache : Bool

abbrev minL1Entries : ℕ := 8 * 1024

abbrev maxL1Entries : ℕ := 1 * 1024 * 1024

/-- `CODE_SIZE`, the size of the area for L2 pages. -/
abbrev codeSize : ℕ := 128 * 1024 * 1024

/-- `SIZE_PER_PAGE`: one entry of 16 bytes for every byte of a page. -/
abbrev sizePerPage : ℕ := 4096 * 16

structure LookupCache where
  l1 : ℕ → LookupCacheEntry
  l1PointerMask : ℕ
  currentL1Entries : ℕ
  /-- The L2 table with the pages its pointers lead to. -/
  l2 : ℕ → Option (ℕ → LookupCacheEntry)
  allocateOffset : ℕ
  /-- Indexed by page number. -/
  cachedCodePages : ℕ → Option (List ℕ)

/-- What the sampled hit rate of `UpdateDynamicL1Stats` asks for. -/
inductive HitRate
  | sampling
  | high
  | low
  | moderate

variable {c' : LookupCache}

namespace LookupCache

def emptyL1 : ℕ → LookupCacheEntry := fun _ => ⟨0, 0⟩

variable (cfg : CacheConfig) (c : LookupCache)

def new : LookupCache where
  l1 := emptyL1
  l1PointerMask := (if cfg.dynamicL1Cache then minL1Entries else maxL1Entries) - 1
  currentL1Entries := minL1Entries
  l2 _ := none
  allocateOffset := 0
  cachedCodePages _ := none

def l2Index (address : ℕ) : ℕ :=
  (address &&& (cfg.virtualMemSize - 1)) / 2 ^ 12

def pageOffset (address : ℕ) : ℕ := address &&& 0xFFF

/-- `L1Entry.Publish` in the slot of the address. -/
def publishL1 (c : LookupCache) (hostCode address : ℕ) : LookupCache :=
  { c with l1 := update c.l1 (address &&& c.l1PointerMask) ⟨hostCode, address⟩ }

def clearL2Cache (c : LookupCache) : LookupCache :=
  { c with l2 := fun _ => none, allocateOffset := 0 }

/-- `ClearThreadLocalCaches` keeps the allocation mark. -/
def clearThreadLocalCaches (c : LookupCache) : LookupCache :=
  { c with l1 := emptyL1, l2 := fun _ => none, cachedCodePages := fun _ => none }

def allocateBackingForPage (c : LookupCache) : Option LookupCache :=
  if codeSize ≤ c.allocateOffset + sizePerPage then none
  else some { c with allocateOffset := c.allocateOffset + sizePerPage }

/-- Write an entry of an L2 page and hang the page into the table. -/
def publishL2 (page : ℕ → LookupCacheEntry)
    (hostCode address : ℕ) : LookupCache :=
  { c with
    l2 := update c.l2 (l2Index cfg address)
      (some (update page (pageOffset address) ⟨hostCode, address⟩)) }

/-- The L2 half of `CacheBlockMapping`.  When the backing runs out all of L2 is dropped and the
call is repeated: it then has the whole area. -/
def cacheL2 (hostCode address : ℕ) : LookupCache :=
  match c.l2 (l2Index cfg address) with
  | some page => c.publishL2 cfg page hostCode address
  | none =>
    match c.allocateBackingForPage with
    | some c => c.publishL2 cfg emptyL1 hostCode address
    | none =>
      match c.clearL2Cache.allocateBackingForPage with
      | some c => c.publishL2 cfg emptyL1 hostCode address
      | none => c.clearL2Cache

def cachePage (address : ℕ) (index : ℕ → Option (List ℕ)) (codePage : ℕ) : ℕ → Option (List ℕ) :=
  let as := (index (codePage / 2 ^ 12)).getD []
  update index (codePage / 2 ^ 12) (some (if address ∈ as then as else as ++ [address]))

def cacheBlockMapping (address : ℕ) (entry : BlockEntry)
    (l1Only : Bool) : LookupCache :=
  let c := { c with cachedCodePages := entry.codePages.foldl (cachePage address) c.cachedCodePages }
  let c := c.publishL1 entry.hostCode address
  if cfg.disableL2Cache ∨ l1Only then c else c.cacheL2 cfg entry.hostCode address

/-- `UpdateDynamicL1Stats`: a resize flushes all of L1. -/
def updateDynamicL1Stats (c : LookupCache) : HitRate → LookupCache
  | .high =>
    if c.currentL1Entries < maxL1Entries then
      { c with
        currentL1Entries := c.currentL1Entries * 2
        l1PointerMask := c.currentL1Entries * 2 - 1
        l1 := emptyL1 }
    else c
  | .low =>
    if minL1Entries < c.currentL1Entries then
      { c with
        currentL1Entries := c.currentL1Entries / 2
        l1PointerMask := c.currentL1Entries / 2 - 1
        l1 := emptyL1 }
    else c
  | .sampling | .moderate => c

/-- The L2 lookup of `FindBlock`; a hit is published in L1. -/
def findL2 (address : ℕ) : LookupCache × ℕ :=
  if cfg.disableL2Cache then (c, 0) else
  match c.l2 (l2Index cfg address) with
  | none => (c, 0)
  | some page =>
    let entry := page (pageOffset address)
    if entry.guestCode = address then (c.publishL1 entry.hostCode address, entry.hostCode)
    else (c, 0)

/-- The lookup in the shared map; a hit is cached in L1 and L2. -/
def findL3 (m : GuestToHostMap) (c : LookupCache) (address : ℕ) :
    LookupCache × ℕ :=
  match m.findBlock address with
  | none => (c, 0)
  | some entry => (c.cacheBlockMapping cfg address entry false, entry.hostCode)

/-- `FindBlock`: the cache afterwards and the host code, zero if there is none. -/
def findBlock (m : GuestToHostMap) (c : LookupCache) (rate : HitRate)
    (address : ℕ) : LookupCache × ℕ :=
  let l1Entry := c.l1 (address &&& c.l1PointerMask)
  if l1Entry.guestCode = address then (c, l1Entry.hostCode) else
  let r := c.findL2 cfg address
  let r := if r.2 = 0 then r.1.findL3 cfg m address else r
  if r.2 ≠ 0 ∧ cfg.dynamicL1Cache then (r.1.updateDynamicL1Stats rate, r.2) else r

/-- The L1 half of `InvalidateCache`; it leaves the host code of the slot. -/
def invalidateL1 (c : LookupCache) (address : ℕ) : LookupCache :=
  let slot := address &&& c.l1PointerMask
  if (c.l1 slot).guestCode = address then
    { c with l1 := update c.l1 slot ⟨(c.l1 slot).hostCode, 0⟩ }
  else c

/-- The L2 half of `InvalidateCache`. -/
def invalidateL2 (address : ℕ) : LookupCache :=
  if cfg.disableL2Cache then c else
  match c.l2 (l2Index cfg address) with
  | none => c
  | some page =>
    { c with
      l2 := update c.l2 (l2Index cfg address)
        (some (update page (pageOffset address) ⟨0, 0⟩)) }

def invalidateCache (address : ℕ) : LookupCache :=
  (c.invalidateL1 address).invalidateL2 cfg address

/-- `InvalidateCacheRange`; the flag says whether a page of the range was cached. -/
def invalidateCacheRange (start length : ℕ) :
    LookupCache × Bool :=
  let ps := pages start length
  let c' := (ps.flatMap fun p => (c.cachedCodePages p).getD []).foldl (invalidateCache cfg) c
  ({ c' with cachedCodePages := fun p => if p ∈ ps then none else c'.cachedCodePages p },
    ps.any fun p => (c.cachedCodePages p).isSome)

/-! ### What a lookup of an address can see -/

/-- L1 or L2 holds host code `h` in the slot of the address `g`. -/
def Holds (g h : ℕ) : Prop :=
  c.l1 (g &&& c.l1PointerMask) = ⟨h, g⟩ ∨
    cfg.disableL2Cache = false ∧
      ∃ page, c.l2 (l2Index cfg g) = some page ∧ page (pageOffset g) = ⟨h, g⟩

def CachedOn (c : LookupCache) (page address : ℕ) : Prop :=
  ∃ as, c.cachedCodePages page = some as ∧ address ∈ as

variable {cfg : CacheConfig} {c : LookupCache} {m : GuestToHostMap} {g h a hostCode : ℕ}

theorem Holds.publishL1 (hh : (c.publishL1 hostCode a).Holds cfg g h) :
    c.Holds cfg g h ∨ g = a ∧ h = hostCode := by
  rcases hh with hh | hh
  · simp only [LookupCache.publishL1, update_apply] at hh
    split at hh
    · obtain ⟨rfl, rfl⟩ := LookupCacheEntry.mk.inj hh
      exact .inr ⟨rfl, rfl⟩
    · exact .inl (.inl hh)
  · exact .inl (.inr hh)

theorem Holds.publishL2 {page : ℕ → LookupCacheEntry} (hg : g ≠ 0)
    (hpg : page = emptyL1 ∨ c.l2 (l2Index cfg a) = some page) (hen : cfg.disableL2Cache = false)
    (hh : (c.publishL2 cfg page hostCode a).Holds cfg g h) :
    c.Holds cfg g h ∨ g = a ∧ h = hostCode := by
  rcases hh with hh | ⟨-, page', hp, hh⟩
  · exact .inl (.inl hh)
  · simp only [LookupCache.publishL2, update_apply] at hp
    split at hp
    · rename_i hidx
      obtain rfl := Option.some.inj hp
      simp only [update_apply] at hh
      split at hh
      · obtain ⟨rfl, rfl⟩ := LookupCacheEntry.mk.inj hh
        exact .inr ⟨rfl, rfl⟩
      · rcases hpg with rfl | hpg
        · exact absurd (LookupCacheEntry.mk.inj hh).2.symm hg
        · exact .inl (.inr ⟨hen, page, hidx ▸ hpg, hh⟩)
    · exact .inl (.inr ⟨hen, page', hp, hh⟩)

/-- Clearing L2 takes nothing in. -/
theorem Holds.clearL2Cache (hh : c.clearL2Cache.Holds cfg g h) : c.Holds cfg g h := by
  rcases hh with hh | ⟨-, page, hp, -⟩
  · exact .inl hh
  · cases hp

theorem allocateBackingForPage_eq (hc : c.allocateBackingForPage = some c') :
    c'.l1 = c.l1 ∧ c'.l1PointerMask = c.l1PointerMask ∧ c'.l2 = c.l2 ∧
      c'.cachedCodePages = c.cachedCodePages := by
  unfold allocateBackingForPage at hc
  split at hc
  · cases hc
  · obtain rfl := Option.some.inj hc
    exact ⟨rfl, rfl, rfl, rfl⟩

theorem Holds.allocate (hc : c.allocateBackingForPage = some c') (hh : c'.Holds cfg g h) :
    c.Holds cfg g h := by
  obtain ⟨h1, h2, h3, -⟩ := allocateBackingForPage_eq hc
  unfold Holds at *
  rwa [h1, h2, h3] at hh

/-- Where the entry of `CacheBlockMapping` goes: into the page that is there, or into a new page
of a cache that may have been cleared for it. -/
theorem cacheL2_cases (cfg : CacheConfig) (c : LookupCache) (hostCode a : ℕ) :
    (∃ page, c.l2 (l2Index cfg a) = some page ∧
      c.cacheL2 cfg hostCode a = c.publishL2 cfg page hostCode a) ∨
    (∃ c', (c.allocateBackingForPage = some c' ∨ c.clearL2Cache.allocateBackingForPage = some c') ∧
      c.cacheL2 cfg hostCode a = c'.publishL2 cfg emptyL1 hostCode a) ∨
    c.cacheL2 cfg hostCode a = c.clearL2Cache := by
  unfold LookupCache.cacheL2
  rcases c.l2 (l2Index cfg a) with _ | page
  · rcases c.allocateBackingForPage with _ | c'
    · rcases c.clearL2Cache.allocateBackingForPage with _ | c'
      · exact .inr (.inr rfl)
      · exact .inr (.inl ⟨c', .inr rfl, rfl⟩)
    · exact .inr (.inl ⟨c', .inl rfl, rfl⟩)
  · exact .inl ⟨page, rfl, rfl⟩

theorem foldl_cachePage {index : ℕ → Option (List ℕ)} {codePages : List ℕ} {p : ℕ} :
    (∃ as, codePages.foldl (cachePage a) index p = some as ∧ g ∈ as) ↔
      (∃ as, index p = some as ∧ g ∈ as) ∨ g = a ∧ ∃ q ∈ codePages, q / 2 ^ 12 = p := by
  induction codePages generalizing index with
  | nil => simp
  | cons q qs ih =>
    rw [List.foldl_cons, ih]
    have hone : (∃ as, cachePage a index q p = some as ∧ g ∈ as) ↔
        (∃ as, index p = some as ∧ g ∈ as) ∨ g = a ∧ q / 2 ^ 12 = p := by
      unfold cachePage
      by_cases hp : p = q / 2 ^ 12
      · subst hp
        rcases index (q / 2 ^ 12) with _ | as
        · simp
        · by_cases ha : a ∈ as
          · simp only [Option.getD_some, ha, update_self]
            constructor
            · exact .inl
            · rintro (h | ⟨rfl, -⟩)
              · exact h
              · exact ⟨as, rfl, ha⟩
          · simp [ha]
      · rw [update_of_ne hp]
        exact ⟨.inl, fun h => h.resolve_right fun h => hp h.2.symm⟩
    rw [hone]
    simp only [List.mem_cons, exists_eq_or_imp]
    rw [or_assoc, ← and_or_left]

section

variable (hg : g ≠ 0)
include hg

/-- Caching in L2 adds the one mapping, also when L2 has to be dropped first. -/
theorem Holds.cacheL2 (hen : cfg.disableL2Cache = false)
    (hh : (c.cacheL2 cfg hostCode a).Holds cfg g h) : c.Holds cfg g h ∨ g = a ∧ h = hostCode := by
  rcases cacheL2_cases cfg c hostCode a with ⟨page, hpg, heq⟩ | ⟨c', hc, heq⟩ | heq
  · exact (heq ▸ hh).publishL2 hg (.inr hpg) hen
  · refine ((heq ▸ hh).publishL2 hg (.inl rfl) hen).imp_left fun hh => ?_
    exact hc.elim (fun hc => hh.allocate hc) fun hc => (hh.allocate hc).clearL2Cache
  · exact .inl (Holds.clearL2Cache (heq ▸ hh))

/-- **Caching a block adds the one mapping.** -/
theorem Holds.cacheBlockMapping {entry : BlockEntry} {l1Only : Bool}
    (hh : (c.cacheBlockMapping cfg a entry l1Only).Holds cfg g h) :
    c.Holds cfg g h ∨ g = a ∧ h = entry.hostCode := by
  unfold LookupCache.cacheBlockMapping at hh
  split at hh
  · exact hh.publishL1
  · rename_i hen
    have hen : cfg.disableL2Cache = false := by
      rw [← Bool.not_eq_true]; exact fun h => hen (.inl h)
    rcases hh.cacheL2 hg hen with hh | hh
    · exact hh.publishL1
    · exact .inr hh

/-- A resize flushes L1, so that it takes nothing in. -/
theorem Holds.updateDynamicL1Stats {rate : HitRate}
    (hh : (c.updateDynamicL1Stats rate).Holds cfg g h) : c.Holds cfg g h := by
  have hflu : (⟨0, 0⟩ : LookupCacheEntry) ≠ ⟨h, g⟩ := fun he =>
    hg (LookupCacheEntry.mk.inj he).2.symm
  cases rate with
  | sampling | moderate => exact hh
  | high | low =>
    unfold LookupCache.updateDynamicL1Stats at hh
    simp only at hh
    split at hh
    · rcases hh with hh | hh
      · exact absurd hh hflu
      · exact .inr hh
    · exact hh

theorem Holds.invalidateL1 (hh : (c.invalidateL1 a).Holds cfg g h) : c.Holds cfg g h := by
  unfold LookupCache.invalidateL1 at hh
  simp only at hh
  split at hh
  · rcases hh with hh | hh
    · simp only [update_apply] at hh
      split at hh
      · exact absurd (LookupCacheEntry.mk.inj hh).2.symm hg
      · exact .inl hh
    · exact .inr hh
  · exact hh

theorem Holds.invalidateL2 (hh : (c.invalidateL2 cfg a).Holds cfg g h) :
    c.Holds cfg g h ∧ (g = a → c.l1 (g &&& c.l1PointerMask) = ⟨h, g⟩) := by
  unfold LookupCache.invalidateL2 at hh
  split at hh
  · rename_i hdis
    exact ⟨hh, fun _ => hh.resolve_right fun h => Bool.false_ne_true (h.1.symm.trans hdis)⟩
  · split at hh
    · rename_i hnn
      refine ⟨hh, fun hga => hh.resolve_right ?_⟩
      rintro ⟨-, page, hpg, -⟩
      rw [hga, hnn] at hpg
      cases hpg
    · rename_i page hpg
      rcases hh with hh | ⟨hen, page', hp, hh⟩
      · exact ⟨.inl hh, fun _ => hh⟩
      · simp only [update_apply] at hp
        split at hp
        · rename_i hidx
          obtain rfl := Option.some.inj hp
          simp only [update_apply] at hh
          split at hh
          · exact absurd (LookupCacheEntry.mk.inj hh).2.symm hg
          · rename_i hoff
            exact ⟨.inr ⟨hen, page, hidx ▸ hpg, hh⟩, fun hga => absurd (by rw [hga]) hoff⟩
        · rename_i hidx
          exact ⟨.inr ⟨hen, page', hp, hh⟩, fun hga => absurd (by rw [hga]) hidx⟩

/-- **`InvalidateCache` removes the address** and takes nothing in. -/
theorem Holds.invalidateCache (hh : (c.invalidateCache cfg a).Holds cfg g h) :
    g ≠ a ∧ c.Holds cfg g h := by
  obtain ⟨hh₁, hl1⟩ := Holds.invalidateL2 hg hh
  refine ⟨?_, hh₁.invalidateL1 hg⟩
  rintro rfl
  -- both halves have cleared the slot of `a`
  have hsl := hl1 rfl
  unfold LookupCache.invalidateL1 at hsl
  simp only at hsl
  split at hsl
  · simp only [update_self, LookupCacheEntry.mk.injEq] at hsl
    exact hg hsl.2.symm
  · rename_i hne
    exact hne (by rw [hsl])

end

theorem cacheL2_cachedCodePages :
    (c.cacheL2 cfg hostCode a).cachedCodePages = c.cachedCodePages := by
  rcases cacheL2_cases cfg c hostCode a with ⟨page, -, heq⟩ | ⟨c', hc, heq⟩ | heq
  · rw [heq]; rfl
  · rw [heq]
    exact hc.elim (fun hc => (allocateBackingForPage_eq hc).2.2.2)
      fun hc => (allocateBackingForPage_eq hc).2.2.2
  · rw [heq]; rfl

theorem cacheBlockMapping_cachedOn {entry : BlockEntry} {l1Only : Bool} {p : ℕ} :
    (c.cacheBlockMapping cfg a entry l1Only).CachedOn p g ↔
      c.CachedOn p g ∨ g = a ∧ ∃ q ∈ entry.codePages, q / 2 ^ 12 = p := by
  unfold cacheBlockMapping CachedOn
  simp only
  split
  · exact foldl_cachePage
  · rw [cacheL2_cachedCodePages]; exact foldl_cachePage

theorem updateDynamicL1Stats_cachedCodePages (rate : HitRate) :
    (c.updateDynamicL1Stats rate).cachedCodePages = c.cachedCodePages := by
  cases rate <;> unfold LookupCache.updateDynamicL1Stats <;> simp only <;> split <;> rfl

theorem invalidateCache_cachedCodePages :
    (c.invalidateCache cfg a).cachedCodePages = c.cachedCodePages := by
  have h1 : (c.invalidateL1 a).cachedCodePages = c.cachedCodePages := by
    unfold LookupCache.invalidateL1
    simp only
    split <;> rfl
  rw [← h1]
  unfold LookupCache.invalidateCache LookupCache.invalidateL2
  split
  · rfl
  · split <;> rfl

theorem foldl_invalidateCache (hg : g ≠ 0) (entries : List ℕ) :
    ((entries.foldl (LookupCache.invalidateCache cfg) c).Holds cfg g h →
      g ∉ entries ∧ c.Holds cfg g h) ∧
    (entries.foldl (LookupCache.invalidateCache cfg) c).cachedCodePages = c.cachedCodePages := by
  induction entries generalizing c with
  | nil => simp
  | cons b bs ih =>
    obtain ⟨ihh, ihc⟩ := ih (c := c.invalidateCache cfg b)
    refine ⟨fun hh => ?_, ihc.trans invalidateCache_cachedCodePages⟩
    obtain ⟨hnot, hh⟩ := ihh hh
    obtain ⟨hne, hh⟩ := hh.invalidateCache hg
    exact ⟨by simp [hne, hnot], hh⟩

/-- **`InvalidateCacheRange` removes every address remembered for a page of the range.** -/
theorem Holds.invalidateCacheRange {start length : ℕ} (hg : g ≠ 0)
    (hh : (c.invalidateCacheRange cfg start length).1.Holds cfg g h) :
    c.Holds cfg g h ∧ ∀ p ∈ pages start length, ¬c.CachedOn p g := by
  obtain ⟨hnot, hh⟩ := (foldl_invalidateCache hg _).1 hh
  refine ⟨hh, ?_⟩
  rintro p hp ⟨as, has, hga⟩
  exact hnot (List.mem_flatMap.2 ⟨p, hp, by simpa [has] using hga⟩)

theorem invalidateCacheRange_cachedOn {start length p : ℕ} (hg : g ≠ 0)
    (hp : p ∉ pages start length) (hc : c.CachedOn p g) :
    (c.invalidateCacheRange cfg start length).1.CachedOn p g := by
  unfold LookupCache.invalidateCacheRange CachedOn
  simp only [hp, (foldl_invalidateCache (h := 0) hg _).2]
  exact hc

/-! ### Lookups -/

theorem entry_eq {e : LookupCacheEntry} (h : e.guestCode = a) : e = ⟨e.hostCode, a⟩ := by
  cases e; cases h; rfl

variable (cfg c a) in
theorem findL2_spec : ((c.findL2 cfg a).2 = 0 ∨ c.Holds cfg a (c.findL2 cfg a).2) ∧
      (∀ g h, (c.findL2 cfg a).1.Holds cfg g h → c.Holds cfg g h) ∧
      (c.findL2 cfg a).1.cachedCodePages = c.cachedCodePages := by
  unfold findL2
  split
  · exact ⟨.inl rfl, fun _ _ h => h, rfl⟩
  · rename_i hen
    split
    · exact ⟨.inl rfl, fun _ _ h => h, rfl⟩
    · rename_i page hpg
      simp only
      split
      · rename_i hgue
        have hold : c.Holds cfg a (page (pageOffset a)).hostCode :=
          .inr ⟨by simpa using hen, page, hpg, entry_eq hgue⟩
        refine ⟨.inr hold, fun g h hh => ?_, rfl⟩
        rcases hh.publishL1 with hh | ⟨rfl, rfl⟩
        · exact hh
        · exact hold
      · exact ⟨.inl rfl, fun _ _ h => h, rfl⟩

/-- The mapping is that of the block in the shared map, and remembered for all its pages. -/
def Current (m : GuestToHostMap) (c : LookupCache) (g h : ℕ) : Prop :=
  ∃ e, m.blockList g = some e ∧ e.hostCode = h ∧ ∀ q ∈ e.codePages, c.CachedOn (q / 2 ^ 12) g

theorem Current.congr (hc : c'.cachedCodePages = c.cachedCodePages) (h' : Current m c g h) :
    Current m c' g h := by
  unfold Current CachedOn at *
  rwa [hc]

variable (cfg c m a) in
theorem findL3_spec :
    ((c.findL3 cfg m a).2 = 0 ∨ ∃ e, m.blockList a = some e ∧ e.hostCode = (c.findL3 cfg m a).2) ∧
      (∀ g h, g ≠ 0 → (c.findL3 cfg m a).1.Holds cfg g h →
        c.Holds cfg g h ∨ Current m (c.findL3 cfg m a).1 g h) ∧
      ∀ p g, c.CachedOn p g → (c.findL3 cfg m a).1.CachedOn p g := by
  unfold findL3 GuestToHostMap.findBlock
  rcases hb : m.blockList a with _ | e
  · exact ⟨.inl rfl, fun _ _ _ h => .inl h, fun _ _ h => h⟩
  · refine ⟨.inr ⟨e, rfl, rfl⟩, fun g h hg hh => ?_, fun p g h => ?_⟩
    · rcases hh.cacheBlockMapping hg with hh | ⟨rfl, rfl⟩
      · exact .inl hh
      · exact .inr ⟨e, hb, rfl, fun q hq =>
          cacheBlockMapping_cachedOn.2 (.inr ⟨rfl, q, hq, rfl⟩)⟩
    · exact cacheBlockMapping_cachedOn.2 (.inl h)

/-- What a lookup that gives `r` does: it answers from L1, L2 or the shared map, and caches
nothing but current mappings. -/
structure LookedUp (cfg : CacheConfig) (m : GuestToHostMap) (c : LookupCache) (a : ℕ)
    (r : LookupCache × ℕ) : Prop where
  answer : r.2 = 0 ∨ c.Holds cfg a r.2 ∨ ∃ e, m.blockList a = some e ∧ e.hostCode = r.2
  holds : ∀ g h, g ≠ 0 → r.1.Holds cfg g h → c.Holds cfg g h ∨ Current m r.1 g h
  cachedOn : ∀ p g, c.CachedOn p g → r.1.CachedOn p g

variable (cfg c m a) in
theorem findL2L3_spec : LookedUp cfg m c a
      (if (c.findL2 cfg a).2 = 0 then (c.findL2 cfg a).1.findL3 cfg m a else c.findL2 cfg a) := by
  obtain ⟨hr₂, hh₂, hc₂⟩ := findL2_spec cfg c a
  have hmn : ∀ p g, c.CachedOn p g → (c.findL2 cfg a).1.CachedOn p g := by
    intro p g h
    unfold CachedOn; rwa [hc₂]
  split
  · obtain ⟨hr₃, hh₃, hc₃⟩ := findL3_spec cfg (c.findL2 cfg a).1 m a
    exact ⟨hr₃.imp_right .inr, fun g h hg hh => (hh₃ g h hg hh).imp_left (hh₂ g h),
      fun p g h => hc₃ p g (hmn p g h)⟩
  · rename_i hne
    exact ⟨.inr (.inl (hr₂.resolve_left hne)), fun g h _ hh => .inl (hh₂ g h hh), hmn⟩

/-- **A lookup** answers from L1, L2 or the shared map, and caches nothing else. -/
theorem findBlock_spec (rate : HitRate) : LookedUp cfg m c a (c.findBlock cfg m rate a) := by
  unfold findBlock
  simp only
  split
  · rename_i hgue
    exact ⟨.inr (.inl (.inl (entry_eq hgue))), fun _ _ _ h => .inl h, fun _ _ h => h⟩
  · have hr := findL2L3_spec cfg c m a
    revert hr
    generalize (if (c.findL2 cfg a).2 = 0 then (c.findL2 cfg a).1.findL3 cfg m a
      else c.findL2 cfg a) = r
    intro hr
    split
    · have hcac := updateDynamicL1Stats_cachedCodePages (c := r.1) rate
      refine ⟨hr.answer, fun g h hg hh => ?_, fun p g h => ?_⟩
      · exact (hr.holds g h hg (hh.updateDynamicL1Stats hg)).imp_right (Current.congr hcac)
      · have := hr.cachedOn p g h
        unfold CachedOn at *; rwa [hcac]
    · exact hr

end LookupCache

end FastPPC.Lookup
