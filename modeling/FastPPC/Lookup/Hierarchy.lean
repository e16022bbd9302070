import FastPPC.Lookup.Cache

/-!
# Invalidation of the lookup hierarchy

One shared map and the cache of one thread.  Blocks are published by the thread or by others that
share the map, looked up, invalidated, retained and linked again; an invalidation clears the
shared map and the cache of the thread.

* `lookup_complete` : what a lookup returns is the host code of the block in the shared map, and
  after an invalidation nothing is returned for a block with a page in the range until a block is
  published at its address again.

This needs three things that the callers do not guarantee (`lookup_stale`): the address is not
zero, a block is not published over another one, and the page vectors list the address of a block
only on the pages of the block.
-/

namespace FastPPC.Lookup

open GuestToHostMap

variable {a : ℕ} {e : BlockEntry}

/-- The shared map and the cache of a thread. -/
structure Hierarchy where
  map : GuestToHostMap
  cache : LookupCache

namespace Hierarchy

open GuestToHostMap LookupCache

inductive Action
  | addBlockExecutableRange (mem : ℕ → Alloc) (addresses : List ℕ)
      (start length guestRangeStart guestRangeLength : ℕ)
  /-- The thread publishes a block. -/
  | addBlockMapping (address : ℕ) (entry : BlockEntry)
  /-- Another thread, or the code cache, publishes a block. -/
  | addSharedMapping (address : ℕ) (entry : BlockEntry)
  | findBlock (rate : HitRate) (address : ℕ)
  | clearL2Cache
  | softInvalidate (start length : ℕ)
  | invalidate (start length : ℕ)
  | takeRetainedBlock (address : ℕ)
  | clearCache

/-- A new map and a new cache. -/
def new (cfg : CacheConfig) (codeGranules : CodeGranuleBitmap) : Hierarchy :=
  ⟨.empty codeGranules, .new cfg⟩

/-- One action.  The two halves of an invalidation run under the exclusive invalidation mutex. -/
def step (cfg : CacheConfig) (s : Hierarchy) : Action → Hierarchy
  | .addBlockExecutableRange mem addresses start length gs gl =>
    { s with map := (s.map.addBlockExecutableRange mem addresses start length gs gl).1 }
  | .addBlockMapping address entry =>
    ⟨s.map.addBlockMapping address entry, s.cache.cacheBlockMapping cfg address entry true⟩
  | .addSharedMapping address entry => { s with map := s.map.addBlockMapping address entry }
  | .findBlock rate address => { s with cache := (s.cache.findBlock cfg s.map rate address).1 }
  | .clearL2Cache => { s with cache := s.cache.clearL2Cache }
  | .softInvalidate start length =>
    ⟨s.map.softInvalidateRange start length, (s.cache.invalidateCacheRange cfg start length).1⟩
  | .invalidate start length =>
    ⟨s.map.invalidateRange start length, (s.cache.invalidateCacheRange cfg start length).1⟩
  | .takeRetainedBlock address => { s with map := (s.map.takeRetainedBlock address).1 }
  | .clearCache => ⟨s.map.clearCache, s.cache.clearThreadLocalCaches⟩

/-- The host code a lookup returns, zero for none. -/
def lookup (cfg : CacheConfig) (s : Hierarchy) (rate : HitRate) (address : ℕ) : ℕ :=
  (s.cache.findBlock cfg s.map rate address).2

/-- The block that an action publishes, with its address. -/
def Action.published : Action → Option (ℕ × BlockEntry)
  | .addBlockMapping address entry | .addSharedMapping address entry => some (address, entry)
  | _ => none

/-- The block has code on the page. -/
def OnPage (e : BlockEntry) (page : ℕ) : Prop := ∃ q ∈ e.codePages, q / 2 ^ 12 = page

/-- What the callers guarantee: a block is published after its pages were registered. -/
def Called (s : Hierarchy) (act : Action) : Prop :=
  ∀ a e, act.published = some (a, e) → ∀ p, OnPage e p → s.map.Listed p a

def called (s : Hierarchy) (act : Action) : Bool :=
  match act.published with
  | none => true
  | some (a, e) => e.codePages.all fun q => a ∈ (s.map.codePages (q / 2 ^ 12)).getD []

theorem called_iff {s : Hierarchy} {act : Action} : called s act = true ↔ Called s act := by
  unfold called Called
  rcases act.published with _ | ⟨a, e⟩
  · simp
  · simp only [List.all_eq_true, decide_eq_true_eq, Option.some.injEq, Prod.mk.injEq, and_imp]
    constructor
    · rintro h _ _ rfl rfl p ⟨q, hq, rfl⟩
      have := h q hq
      rcases hc : s.map.codePages (q / 2 ^ 12) with _ | es
      · rw [hc] at this
        exact absurd this List.not_mem_nil
      · rw [hc] at this
        exact ⟨es, hc, this⟩
    · intro h q hq
      obtain ⟨es, hc, ha⟩ := h a e rfl rfl _ ⟨q, hq, rfl⟩
      rw [hc]
      exact ha

/-- The action publishes no block over another one, and no address of a block is listed on a page
on which the block has no code. -/
structure Fresh (s : Hierarchy) (act : Action) : Prop where
  unmapped : ∀ a e, act.published = some (a, e) → s.map.blockList a = none
  onPage : ∀ a e, act.published = some (a, e) → ∀ p, s.map.Listed p a → OnPage e p
  range : ∀ mem addresses start length gs gl,
    act = .addBlockExecutableRange mem addresses start length gs gl →
    ∀ a ∈ addresses, ∀ e, s.map.blockList a = some e → ∀ p ∈ pages start length, OnPage e p

structure Inv (cfg : CacheConfig) (s : Hierarchy) : Prop where
  listed : ∀ a e, s.map.blockList a = some e → ∀ p, s.map.Listed p a ↔ OnPage e p
  current : ∀ g h, g ≠ 0 → s.cache.Holds cfg g h → Current s.map s.cache g h

variable {cfg : CacheConfig} {s : Hierarchy} {act : Action}

/-- What is looked up is what the map has. -/
theorem Inv.lookup (hs : s.Inv cfg) {rate : HitRate} (ha : a ≠ 0) (hne : s.lookup cfg rate a ≠ 0) :
    ∃ e, s.map.blockList a = some e ∧ e.hostCode = s.lookup cfg rate a := by
  rcases (findBlock_spec (m := s.map) (c := s.cache) (a := a) rate).answer with h | h | h
  · exact absurd h hne
  · obtain ⟨e, he, hh, -⟩ := hs.current a _ ha h
    exact ⟨e, he, hh⟩
  · exact h

/-- Publishing a block at an address that has none. -/
theorem Inv.listed_publish (hs : s.Inv cfg) (hc : Called s act) (hf : Fresh s act)
    (hp : act.published = some (a, e)) :
    ∀ b e', (s.map.addBlockMapping a e).blockList b = some e' →
      ∀ p, s.map.Listed p b ↔ OnPage e' p := by
  intro b e' hb p
  simp only [addBlockMapping, Function.update_apply] at hb
  split at hb
  · rename_i hba
    obtain rfl := Option.some.inj hb
    exact hba ▸ ⟨hf.onPage a e hp p, hc a e hp p⟩
  · exact hs.listed b e' hb p

theorem current_publish {m : GuestToHostMap} {c c' : LookupCache} {g h : ℕ} (hc : Current m c g h)
    (hne : m.blockList a = none) (hmn : ∀ p, c.CachedOn p g → c'.CachedOn p g) :
    Current (m.addBlockMapping a e) c' g h := by
  obtain ⟨e', he', hh, hp⟩ := hc
  refine ⟨e', ?_, hh, fun q hq => hmn _ (hp q hq)⟩
  have hga : g ≠ a := by
    rintro rfl
    exact nomatch hne.symm.trans he'
  simp [addBlockMapping, Function.update_of_ne hga, he']

theorem Inv.invalidate (hs : s.Inv cfg) {m' : GuestToHostMap} {start length : ℕ}
    (hb : ∀ a e, m'.blockList a = some e ↔
      s.map.blockList a = some e ∧ ∀ p ∈ pages start length, ¬s.map.Listed p a)
    (hl : ∀ p, m'.codePages p = if p ∈ pages start length then none else s.map.codePages p) :
    Inv cfg ⟨m', (s.cache.invalidateCacheRange cfg start length).1⟩ := by
  refine ⟨fun a e he p => ?_, fun g h hg hh => ?_⟩
  · obtain ⟨he, hnot⟩ := (hb a e).1 he
    rw [← hs.listed a e he]
    by_cases hp : p ∈ pages start length
    · exact ⟨fun ⟨_, h, _⟩ => by simp [hl, hp] at h, fun h => absurd h (hnot p hp)⟩
    · simp only [Listed, hl, hp, if_false]
  · obtain ⟨hold, hnot⟩ := hh.invalidateCacheRange hg
    obtain ⟨e, he, hhs, hcac⟩ := hs.current g h hg hold
    refine ⟨e, (hb g e).2 ⟨he, fun p hp hls => ?_⟩, hhs, fun q hq => ?_⟩
    -- a listed page of the range is a page of the block, so that the cache knows it
    · obtain ⟨q, hq, rfl⟩ := (hs.listed g e he p).1 hls
      exact hnot _ hp (hcac q hq)
    · exact invalidateCacheRange_cachedOn hg (fun hp => hnot _ hp (hcac q hq)) (hcac q hq)

theorem Inv.step (hs : s.Inv cfg) (hc : Called s act) (hf : Fresh s act) :
    (s.step cfg act).Inv cfg := by
  cases act with
  | addBlockExecutableRange mem addresses start length gs gl =>
    have hb := addBlockExecutableRange_blockList mem addresses gs gl s.map start length
    refine ⟨fun a e he p => ?_, fun g h hg hh => ?_⟩
    · simp only [Hierarchy.step, hb] at he
      simp only [Hierarchy.step, addBlockExecutableRange_listed]
      rw [hs.listed a e he]
      exact or_iff_left_of_imp fun ⟨hp, ha⟩ => hf.range _ _ _ _ _ _ rfl a ha e he p hp
    · obtain ⟨e, he, h⟩ := hs.current g h hg hh
      exact ⟨e, hb ▸ he, h⟩
  | addBlockMapping a e =>
    refine ⟨hs.listed_publish hc hf rfl, fun g h hg hh => ?_⟩
    rcases hh.cacheBlockMapping hg with hh | ⟨rfl, rfl⟩
    · exact current_publish (hs.current g h hg hh) (hf.unmapped a e rfl) fun p h =>
        cacheBlockMapping_cachedOn.2 (.inl h)
    · exact ⟨e, Function.update_self .., rfl, fun q hq =>
        cacheBlockMapping_cachedOn.2 (.inr ⟨rfl, q, hq, rfl⟩)⟩
  | addSharedMapping a e =>
    exact ⟨hs.listed_publish hc hf rfl, fun g h hg hh =>
      current_publish (hs.current g h hg hh) (hf.unmapped a e rfl) fun _ h => h⟩
  | findBlock rate a =>
    have hsp : LookedUp cfg s.map s.cache a _ := findBlock_spec rate
    refine ⟨hs.listed, fun g h hg hh => ?_⟩
    rcases hsp.holds g h hg hh with hh | hh
    · obtain ⟨e, he, hhs, hp⟩ := hs.current g h hg hh
      exact ⟨e, he, hhs, fun q hq => hsp.cachedOn _ _ (hp q hq)⟩
    · exact hh
  | clearL2Cache => exact ⟨hs.listed, fun g h hg hh => hs.current g h hg hh.clearL2Cache⟩
  | softInvalidate start length =>
    exact hs.invalidate (fun _ _ => erasePages_blockList softEraseBlock_erasure)
      (erasePages_codePages softEraseBlock_erasure s.map _)
  | invalidate start length =>
    obtain ⟨hfb, hfc, -⟩ := dropRetainedRange_frame
      (s.map.erasePages GuestToHostMap.erase (pages start length)) start length
    refine hs.invalidate (fun a e => ?_) fun p => ?_
    · simp only [invalidateRange, hfb]
      exact erasePages_blockList erase_erasure
    · simp only [invalidateRange, hfc]
      exact erasePages_codePages erase_erasure s.map _ p
  | takeRetainedBlock a =>
    obtain ⟨hfb, hfc, -⟩ := s.map.takeRetainedBlock_frame a
    refine ⟨fun b e he p => ?_, fun g h hg hh => ?_⟩
    · simp only [Hierarchy.step, Listed, hfb, hfc] at he ⊢
      exact hs.listed b e he p
    · obtain ⟨e, he, h⟩ := hs.current g h hg hh
      exact ⟨e, hfb ▸ he, h⟩
  | clearCache =>
    refine ⟨fun a e he => (by cases he), fun g h hg hh => ?_⟩
    rcases hh with hh | ⟨-, page, hp, -⟩
    · exact absurd (LookupCacheEntry.mk.inj hh).2.symm hg
    · cases hp

theorem inv_new (codeGranules : CodeGranuleBitmap) : Inv cfg (new cfg codeGranules) := by
  refine ⟨fun a e he => (by cases he), fun g h hg hh => ?_⟩
  rcases hh with hh | ⟨-, page, hp, -⟩
  · exact absurd (LookupCacheEntry.mk.inj hh).2.symm hg
  · cases hp

/-- Only a publication at the address maps an unmapped address. -/
theorem step_unmapped (hb : s.map.blockList a = none) (hp : ∀ e, act.published ≠ some (a, e)) :
    (s.step cfg act).map.blockList a = none := by
  cases act with
  | addBlockExecutableRange mem addresses start length gs gl =>
    simp [Hierarchy.step, addBlockExecutableRange_blockList, hb]
  | addBlockMapping b e | addSharedMapping b e =>
    have hab : a ≠ b := by
      rintro rfl
      exact hp e rfl
    simp [Hierarchy.step, addBlockMapping, Function.update_of_ne hab, hb]
  | softInvalidate start length =>
    refine Option.eq_none_iff_forall_ne_some.2 fun e he => ?_
    exact nomatch hb.symm.trans ((erasePages_blockList softEraseBlock_erasure).1 he).1
  | invalidate start length =>
    refine Option.eq_none_iff_forall_ne_some.2 fun e he => ?_
    simp only [Hierarchy.step, invalidateRange, dropRetainedRange_frame] at he
    exact nomatch hb.symm.trans ((erasePages_blockList erase_erasure).1 he).1
  | takeRetainedBlock b => simp [Hierarchy.step, takeRetainedBlock_frame, hb]
  | clearCache => rfl
  | findBlock | clearL2Cache => exact hb

end Hierarchy

open Hierarchy

def hierarchy (cfg : CacheConfig) : Machine Hierarchy Action := .ofFun (Hierarchy.step cfg)

variable {acts : List Action} {s' : Hierarchy}

/-- A run keeps the invariant. -/
theorem Hierarchy.Inv.run {cfg : CacheConfig} {s : Hierarchy} (hs : s.Inv cfg)
    (h : (hierarchy cfg).Run (fun s act => Called s act ∧ Fresh s act) s acts s') : s'.Inv cfg := by
  refine h.invariant hs ?_
  rintro s act _ hs ⟨hc, hf⟩ rfl
  exact hs.step hc hf

/-- An address stays unmapped until a block is published at it. -/
theorem run_unmapped {cfg : CacheConfig} {C : Hierarchy → Action → Prop} {s : Hierarchy}
    (h : (hierarchy cfg).Run C s acts s') (hb : s.map.blockList a = none)
    (hp : ∀ act ∈ acts, ∀ e, act.published ≠ some (a, e)) : s'.map.blockList a = none := by
  induction h with
  | nil => exact hb
  | snoc _ _ hst ih =>
    obtain rfl := hst
    exact step_unmapped (ih fun act h => hp act (List.mem_append_left _ h)) (hp _ (by simp))

/-- **Completeness of invalidation.**  In every state of every run a lookup returns the host code
of the block that the map has at the address, and after an invalidation it returns nothing for an
address whose block had code in the range, until a block is published there again. -/
theorem lookup_complete {cfg : CacheConfig} {codeGranules : CodeGranuleBitmap}
    {acts : List Action} {s : Hierarchy}
    (h : (hierarchy cfg).Run (fun s act => Called s act ∧ Fresh s act) (.new cfg codeGranules) acts
      s) {a : ℕ} (ha : a ≠ 0) :
    (∀ rate, s.lookup cfg rate a ≠ 0 →
      ∃ e, s.map.blockList a = some e ∧ e.hostCode = s.lookup cfg rate a) ∧
    ∀ start length e p, s.map.blockList a = some e → OnPage e p → p ∈ pages start length →
      ∀ acts' s', (hierarchy cfg).Run (fun s act => Called s act ∧ Fresh s act)
          (s.step cfg (.invalidate start length)) acts' s' →
        (∀ act ∈ acts', ∀ e, act.published ≠ some (a, e)) →
        ∀ rate, s'.lookup cfg rate a = 0 := by
  have hs := (inv_new codeGranules).run h
  refine ⟨fun rate hne => hs.lookup ha hne, ?_⟩
  intro start length e p he hp hmem acts' s' h' hpub rate
  have hs₁ : (s.step cfg (.invalidate start length)).Inv cfg :=
    hs.step nofun ⟨nofun, nofun, nofun⟩
  -- the page lists the address, so that the invalidation erases the block
  have hnn : (s.step cfg (.invalidate start length)).map.blockList a = none := by
    refine Option.eq_none_iff_forall_ne_some.2 fun e' he' => ?_
    simp only [Hierarchy.step, invalidateRange, dropRetainedRange_frame] at he'
    obtain ⟨-, hnot⟩ :=
      (erasePages_blockList erase_erasure).1 he'
    exact hnot p hmem ((hs.listed a e he p).2 hp)
  by_contra hne
  obtain ⟨e', he', -⟩ := (hs₁.run h').lookup ha hne
  exact nomatch (run_unmapped h' hnn hpub).symm.trans he'

/-- A 64-bit guest with L2, and an L1 of fixed size. -/
def cfg64 : CacheConfig := ⟨2 ^ 36, false, false⟩

/-- The compiler registers a page for the address. -/
def onPage (address page : ℕ) : Action :=
  .addBlockExecutableRange (fun _ => ⟨true, true⟩) [address] page 0x1000 0 0

/-- A block with the given host code and pages. -/
def block (address hostCode : ℕ) (codePages : List ℕ) : BlockEntry :=
  { hostCode := hostCode, tail := ⟨address, 4⟩, codePages := codePages, guestRangeStart := address,
    guestRangeLength := 4 }

/-- The state after the actions. -/
def after (acts : List Action) : Hierarchy :=
  acts.foldl (Hierarchy.step cfg64) (.new cfg64 ⟨none⟩)

def compiled : List Action :=
  [onPage 0x1000 0x1000, .addBlockMapping 0x1000 (block 0x1000 7 [0x1000])]

theorem compiled_run :
    (hierarchy cfg64).Run (fun s act => Called s act ∧ Fresh s act) (.new cfg64 ⟨none⟩) compiled
      (after compiled) := by
  refine .cons ⟨nofun, nofun, nofun, ?_⟩ rfl (.cons ⟨called_iff.1 (by decide), ?_, ?_, nofun⟩ rfl
    (.nil _))
  · intro mem addresses start length gs gl _ a _ e he
    cases he
  · rintro a e ⟨⟩
    rfl
  · rintro a e ⟨⟩ p hl
    rcases (addBlockExecutableRange_listed _ _ _ _).1 hl with ⟨_, h, -⟩ | ⟨hp, -⟩
    · cases h
    · rw [show pages 0x1000 0x1000 = [1] by decide, List.mem_singleton] at hp
      exact ⟨0x1000, by decide, hp.symm⟩

/-- The block is found, and no longer found after its page was invalidated. -/
theorem lookup_complete_compiled : (after compiled).lookup cfg64 .sampling 0x1000 = 7 ∧
      ((after compiled).step cfg64 (.invalidate 0x1800 8)).lookup cfg64 .sampling 0x1000 = 0 :=
  ⟨by decide, (lookup_complete compiled_run (by decide)).2 0x1800 8 (block 0x1000 7 [0x1000]) 1
    rfl ⟨0x1000, by decide, by decide⟩ (by decide) [] _ (.nil _) nofun _⟩

/-- The L1 slot of this address is the one of address zero. -/
def zeroSlot : List Action :=
  [onPage 0x100000 0x100000, .addBlockMapping 0x100000 (block 0x100000 7 [0x100000]),
    .invalidate 0x100000 0x1000]

/-- A second block is published at 0x1000 while L2 has the first one.  The two other lookups push
the address out of L1. -/
def replaced : List Action :=
  [onPage 0x1000 0x1000, .addBlockMapping 0x1000 (block 0x1000 7 [0x1000]),
    onPage 0x101000 0x101000, .addBlockMapping 0x101000 (block 0x101000 8 [0x101000]),
    .findBlock .sampling 0x1000, .addBlockMapping 0x1000 (block 0x1000 9 [0x1000]),
    .findBlock .sampling 0x101000]

/-- A retained block is registered again on its pages, but its bytes have changed; it is compiled
anew and no longer reaches the second page, which is then invalidated. -/
def relinkMiss : List Action :=
  [onPage 0x1000 0x1000, onPage 0x1000 0x2000,
    .addBlockMapping 0x1000 (block 0x1000 7 [0x1000, 0x2000]),
    .softInvalidate 0x2000 0x1000, .takeRetainedBlock 0x1000, onPage 0x1000 0x1000,
    onPage 0x1000 0x2000, onPage 0x1000 0x1000, .addBlockMapping 0x1000 (block 0x1000 9 [0x1000]),
    .invalidate 0x2000 0x1000]

/-- **Stale lookups.**  Address zero finds the host code of an invalidated block; an address finds
the replaced block; an address finds a block that the map no longer has. -/
theorem lookup_stale : ((hierarchy cfg64).Run Called (.new cfg64 ⟨none⟩) zeroSlot (after zeroSlot) ∧
      (after zeroSlot).lookup cfg64 .sampling 0 = 7 ∧ (after zeroSlot).map.blockList 0 = none) ∧
    ((hierarchy cfg64).Run Called (.new cfg64 ⟨none⟩) replaced (after replaced) ∧
      (after replaced).lookup cfg64 .sampling 0x1000 = 7 ∧
      (after replaced).map.blockList 0x1000 = some (block 0x1000 9 [0x1000])) ∧
    ((hierarchy cfg64).Run Called (.new cfg64 ⟨none⟩) relinkMiss (after relinkMiss) ∧
      (after relinkMiss).lookup cfg64 .sampling 0x1000 = 9 ∧
      (after relinkMiss).map.blockList 0x1000 = none) := by
  refine ⟨⟨.of_checked (fun _ _ => called_iff.1) ?_, ?_, ?_⟩,
    ⟨.of_checked (fun _ _ => called_iff.1) ?_, ?_, ?_⟩,
    ⟨.of_checked (fun _ _ => called_iff.1) ?_, ?_, ?_⟩⟩
  all_goals decide

end FastPPC.Lookup
