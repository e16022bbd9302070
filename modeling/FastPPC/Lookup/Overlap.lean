import FastPPC.Lookup.Map

/-!
# The granule fast path of the overlap query

`LookupCache::RangeOverlapsCompiledCode` first asks the granule bitmap and only then walks the
page vectors.  The fast path is right if it never answers "no overlap" where the walk would find
a block.

* `granules_sound` : no byte of a store that is provably clear is registered, and the fast path
  gives the answer of the walk, in every run in which no node allocation fails and every block is
  published with the extent that was registered for its pages.

Both conditions are needed (`granule_false_negatives`): a failed allocation drops the bits while
an absent leaf reads as clear, and a page vector may list the address of an earlier block, through
which the walk finds the extent of the present one.
-/

namespace FastPPC.Lookup

open CodeGranuleBitmap List

namespace GuestToHostMap

/-- `LookupCache::RangeOverlapsCompiledCode`. -/
def rangeOverlaps (m : GuestToHostMap) (start length : ℕ) : Bool :=
  if m.codeGranules.provablyClear start length then false
  else m.rangeOverlapsCompiledCode start length

/-- The calls that an operation makes on the granule bitmap. -/
def granuleOps (m : GuestToHostMap) : Op → List GranuleOp
  | .addBlockExecutableRange mem _ start length guestRangeStart guestRangeLength =>
    (pages start length).map fun p => .setPageRange (mem p) ⟨p, guestRangeStart, guestRangeLength⟩
  | .softInvalidateRange start length | .invalidateRange start length =>
    ((pages start length).filter fun p => (m.codePages p).isSome).map .clearPage
  | .clearCache => [.clearAll]
  | _ => []

end GuestToHostMap

namespace Tracked

theorem apply_enabled {t : Tracked} (h : t.bitmap.enabled) (op : GranuleOp) :
    (t.apply op).bitmap.enabled := by
  cases op with
  | setPageRange mem r => exact enabled_getOrCreateLeaf h
  | clearPage page =>
    simp only [Tracked.apply, clearPage_eq]
    exact enabled_getOrCreateLeaf h
  | clearAll => simpa [Tracked.apply, clearAll, enabled] using h

/-- All allocations of a list of calls succeed. -/
def AllAllocate (t : Tracked) : List GranuleOp → Prop
  | [] => True
  | op :: ops => t.Allocates op ∧ (t.apply op).AllAllocate ops

instance (t : Tracked) : (op : GranuleOp) → Decidable (t.Allocates op)
  | .setPageRange _ _ => inferInstanceAs (Decidable (_ ∧ _))
  | .clearPage _ | .clearAll => inferInstanceAs (Decidable True)

instance decidableAllAllocate (t : Tracked) : (ops : List GranuleOp) →
    Decidable (t.AllAllocate ops)
  | [] => inferInstanceAs (Decidable True)
  | op :: ops =>
    have := decidableAllAllocate (t.apply op) ops
    inferInstanceAs (Decidable (_ ∧ _))

theorem Sound.foldl {t : Tracked} {ops : List GranuleOp} (h : t.Sound) (hops : t.AllAllocate ops) :
    (ops.foldl Tracked.apply t).Sound := by
  induction ops generalizing t with
  | nil => exact h
  | cons op ops ih => exact ih (h.apply hops.1) hops.2

theorem foldl_setPageRange (t : Tracked) (ps : List ℕ) (mem : ℕ → Alloc) (start length : ℕ) :
    ((ps.map fun p => .setPageRange (mem p) ⟨p, start, length⟩).foldl apply t).registered =
      t.registered ++ ps.map fun p => ⟨p, start, length⟩ := by
  induction ps generalizing t with
  | nil => simp
  | cons p ps ih => rw [map_cons, foldl_cons, ih]; simp [apply]

theorem foldl_clearPage (t : Tracked) (ps : List ℕ) {r : CodeRange} :
    r ∈ ((ps.map .clearPage).foldl apply t).registered ↔ r ∈ t.registered ∧ r.page ∉ ps := by
  induction ps generalizing t with
  | nil => simp
  | cons p ps ih =>
    rw [map_cons, foldl_cons, ih]
    simp only [apply, mem_filter, decide_eq_true_eq, mem_cons]
    tauto

end Tracked

namespace GuestToHostMap

theorem foldl_erasePage_codeGranules {erase : GuestToHostMap → ℕ → GuestToHostMap}
    (he : Erasure erase) (m : GuestToHostMap) (ps : List ℕ) (registered : List CodeRange)
    (hen : m.codeGranules.enabled) :
    (ps.foldl (erasePage erase) m).codeGranules =
      (((ps.filter fun p => (m.codePages p).isSome).map .clearPage).foldl Tracked.apply
        ⟨m.codeGranules, registered⟩).bitmap := by
  induction ps generalizing m registered with
  | nil => rfl
  | cons p ps ih =>
    have hc := (erasePage_spec he m p).2
    rcases h : m.codePages p with _ | entries
    · have hm : m.erasePage erase p = m := by unfold erasePage; rw [h]
      rw [foldl_cons, hm, filter_cons_of_neg (by simp [h])]
      exact ih m registered hen
    · have hg : (m.erasePage erase p).codeGranules = m.codeGranules.clearPage (p * 2 ^ 12) := by
        obtain ⟨-, -, hg⟩ := foldl_erase he m entries
        unfold erasePage
        simp only [h, hg, hen, if_true]
      have hen' : (m.erasePage erase p).codeGranules.enabled := by
        rw [hg]
        exact Tracked.apply_enabled (t := ⟨m.codeGranules, registered⟩) hen (.clearPage p)
      rw [foldl_cons, filter_cons_of_pos (by simp [h]), map_cons, foldl_cons,
        ih _ (registered.filter fun r => r.page ≠ p) hen', hc, hg]
      rfl

theorem foldl_addPage_codeGranules (mem : ℕ → Alloc) (addresses : List ℕ) (start length : ℕ)
    (s : GuestToHostMap × Bool) (ps : List ℕ) (registered : List CodeRange)
    (hen : s.1.codeGranules.enabled) :
    (ps.foldl (addPage mem addresses start length) s).1.codeGranules =
      ((ps.map fun p => .setPageRange (mem p) ⟨p, start, length⟩).foldl Tracked.apply
        ⟨s.1.codeGranules, registered⟩).bitmap := by
  induction ps generalizing s registered with
  | nil => rfl
  | cons p ps ih =>
    have hg : (addPage mem addresses start length s p).1.codeGranules =
        s.1.codeGranules.setPageRange (mem p) (p * 2 ^ 12) start length := by
      unfold addPage
      simp only [hen, if_true]
    have hen' : (addPage mem addresses start length s p).1.codeGranules.enabled := by
      rw [hg]; exact enabled_getOrCreateLeaf hen
    rw [foldl_cons, map_cons, foldl_cons, ih _ (registered ++ [⟨p, start, length⟩]) hen', hg]
    rfl

/-- **The bitmap of the map is maintained by its granule calls.** -/
theorem step_codeGranules {m : GuestToHostMap} (op : Op) (registered : List CodeRange)
    (hen : m.codeGranules.enabled) :
    (m.step op).codeGranules =
      ((m.granuleOps op).foldl Tracked.apply ⟨m.codeGranules, registered⟩).bitmap := by
  cases op with
  | addBlockExecutableRange mem addresses start length gs gl =>
    simp only [step]
    exact foldl_addPage_codeGranules mem addresses gs gl (m, false) _ registered hen
  | softInvalidateRange start length =>
    simp only [step]
    exact foldl_erasePage_codeGranules softEraseBlock_erasure m _ registered hen
  | invalidateRange start length =>
    simp only [step, invalidateRange, dropRetainedRange_frame]
    exact foldl_erasePage_codeGranules erase_erasure m _ registered hen
  | dropRetainedRange start length => exact (m.dropRetainedRange_frame start length).2.2
  | takeRetainedBlock address => exact (m.takeRetainedBlock_frame address).2.2
  | addBlockMapping | erase | clearCache => rfl

end GuestToHostMap

/-! ### Extents -/

variable {t : JITCodeTail}

/-- The guest bytes the tail claims; a size of zero means that the extent is not known. -/
def JITCodeTail.Covers (t : JITCodeTail) (a : ℕ) : Prop :=
  t.guestSize = 0 ∨ t.rip ≤ a ∧ a < t.rip + t.guestSize

/-- The tail reaches the page, and all that it claims there is registered. -/
def JITCodeTail.RegisteredOn (t : JITCodeTail) (registered : List CodeRange) (page : ℕ) : Prop :=
  (∃ a, a / 2 ^ 12 = page ∧ t.Covers a) ∧
    ∀ a, a / 2 ^ 12 = page → t.Covers a → ∃ r ∈ registered, r.Covers a

theorem JITCodeTail.RegisteredOn.mono {reg reg' : List CodeRange} {page : ℕ}
    (h : t.RegisteredOn reg page) (hsub : ∀ r ∈ reg, r.page = page → r ∈ reg') :
    t.RegisteredOn reg' page := by
  refine ⟨h.1, fun a ha hcov => ?_⟩
  obtain ⟨r, hr, hra⟩ := h.2 a ha hcov
  exact ⟨r, hsub r hr (hra.1.symm.trans ha), hra⟩

/-- If the walk finds the tail through a page it reaches, some byte of the store on that page is
claimed by the tail. -/
theorem JITCodeTail.exists_overlap {start length page : ℕ} (hlen : 0 < length)
    (hrea : ∃ a, a / 2 ^ 12 = page ∧ t.Covers a) (hlo : start / 2 ^ 12 ≤ page)
    (hhi : page ≤ (start + length - 1) / 2 ^ 12)
    (hov : t.guestSize = 0 ∨ t.rip < start + length ∧ start < wadd t.rip t.guestSize) :
    ∃ a, (start ≤ a ∧ a < start + length) ∧ a / 2 ^ 12 = page ∧ t.Covers a := by
  -- the store meets the page in the bytes from `first` on
  have hfir : start ≤ max start (page * 2 ^ 12) ∧ max start (page * 2 ^ 12) < start + length ∧
      max start (page * 2 ^ 12) / 2 ^ 12 = page := by omega
  by_cases hsz : t.guestSize = 0
  · exact ⟨_, ⟨hfir.1, hfir.2.1⟩, hfir.2.2, .inl hsz⟩
  obtain ⟨hrip, hend⟩ := hov.resolve_left hsz
  obtain ⟨y, hy, hcov⟩ := hrea
  obtain ⟨hylo, hyhi⟩ := hcov.resolve_left hsz
  have hend' : start < t.rip + t.guestSize := Nat.lt_of_lt_of_le hend (Nat.mod_le _ _)
  -- the tail is an interval that holds a byte of the store and one of the page
  by_cases hcs : max t.rip start / 2 ^ 12 = page
  · exact ⟨max t.rip start, by omega, hcs, .inr (by omega)⟩
  · by_cases hlt : max t.rip start / 2 ^ 12 < page
    · exact ⟨page * 2 ^ 12, by omega, by omega, .inr (by omega)⟩
    · exact ⟨page * 2 ^ 12 + (2 ^ 12 - 1), by omega, by omega, .inr (by omega)⟩

/-- The map with the history of what is registered on its bitmap. -/
structure TrackedMap where
  map : GuestToHostMap
  registered : List CodeRange

variable {s : TrackedMap}

namespace TrackedMap

open GuestToHostMap

def empty : TrackedMap := ⟨.empty .enable, []⟩

/-- The bitmap of the map and its history. -/
def tracked (s : TrackedMap) : Tracked := ⟨s.map.codeGranules, s.registered⟩

def step (s : TrackedMap) (op : Op) : TrackedMap :=
  ⟨s.map.step op, ((s.map.granuleOps op).foldl Tracked.apply s.tracked).registered⟩

/-- The allocations of the step succeed, and an address that is both listed on a page and mapped
to a block has the extent of the block registered on that page. -/
structure Published (s : TrackedMap) (op : Op) : Prop where
  allocates : s.tracked.AllAllocate (s.map.granuleOps op)
  mapping : ∀ a e, op = .addBlockMapping a e → ∀ p, s.map.Listed p a →
    e.tail.RegisteredOn s.registered p
  range : ∀ mem addresses start length gs gl,
    op = .addBlockExecutableRange mem addresses start length gs gl →
    ∀ a ∈ addresses, ∀ e, s.map.blockList a = some e → ∀ p ∈ pages start length,
      e.tail.RegisteredOn (s.registered ++ (pages start length).map fun p => ⟨p, gs, gl⟩) p

structure Inv (s : TrackedMap) : Prop where
  sound : s.tracked.Sound
  registeredOn : ∀ a e p, s.map.blockList a = some e → s.map.Listed p a →
    e.tail.RegisteredOn s.registered p

theorem Inv.empty : Inv TrackedMap.empty :=
  ⟨Tracked.Sound.empty, fun _ _ _ h => by simp [TrackedMap.empty, GuestToHostMap.empty] at h⟩

/-- What an invalidation leaves is still registered. -/
theorem Inv.erasePages {erase : GuestToHostMap → ℕ → GuestToHostMap} (he : Erasure erase)
    (h : s.Inv) {ps : List ℕ} {a p : ℕ} {e : BlockEntry}
    (hb : (s.map.erasePages erase ps).blockList a = some e)
    (hl : (s.map.erasePages erase ps).Listed p a) :
    e.tail.RegisteredOn (((ps.filter fun p => (s.map.codePages p).isSome).map .clearPage).foldl
      Tracked.apply s.tracked).registered p := by
  obtain ⟨hb, -⟩ := (erasePages_blockList he).1 hb
  obtain ⟨es, hes, ha⟩ := hl
  rw [erasePages_codePages he] at hes
  split at hes
  · cases hes
  · rename_i hp
    refine (h.registeredOn a e p hb ⟨es, hes, ha⟩).mono fun r hr hrp => ?_
    exact (Tracked.foldl_clearPage _ _).2 ⟨hr, fun hmem => hp (hrp ▸ (mem_filter.1 hmem).1)⟩

theorem Inv.step {op : Op} (h : s.Inv) (hop : s.Published op) : (s.step op).Inv := by
  have hen := h.sound.enabled
  have hsou : (s.step op).tracked.Sound := by
    have hfl : (s.step op).tracked = (s.map.granuleOps op).foldl Tracked.apply s.tracked := by
      unfold TrackedMap.step tracked
      rw [step_codeGranules op s.registered hen]
    exact hfl ▸ h.sound.foldl hop.allocates
  refine ⟨hsou, fun a e p hb hl => ?_⟩
  cases op with
  | addBlockExecutableRange mem addresses start length gs gl =>
    have hreg : (s.step (.addBlockExecutableRange mem addresses start length gs gl)).registered =
        s.registered ++ (pages start length).map fun p => ⟨p, gs, gl⟩ :=
      Tracked.foldl_setPageRange _ _ _ _ _
    simp only [TrackedMap.step, GuestToHostMap.step, addBlockExecutableRange_blockList] at hb
    simp only [TrackedMap.step, GuestToHostMap.step, addBlockExecutableRange_listed] at hl
    rw [hreg]
    rcases hl with hl | ⟨hp, ha⟩
    · exact (h.registeredOn a e p hb hl).mono fun r hr _ => mem_append_left _ hr
    · exact hop.range _ _ _ _ _ _ rfl a ha e hb p hp
  | addBlockMapping address entry =>
    by_cases ha : a = address
    · subst ha
      have hent : entry = e := by
        simpa [TrackedMap.step, GuestToHostMap.step, GuestToHostMap.addBlockMapping] using hb
      exact hent ▸ hop.mapping a entry rfl p hl
    · refine h.registeredOn a e p ?_ hl
      simpa [TrackedMap.step, GuestToHostMap.step, GuestToHostMap.addBlockMapping, ha] using hb
  | erase address =>
    refine h.registeredOn a e p ?_ hl
    by_cases ha : a = address
    · simp [TrackedMap.step, GuestToHostMap.step, GuestToHostMap.erase, ha] at hb
    · simpa [TrackedMap.step, GuestToHostMap.step, GuestToHostMap.erase, ha] using hb
  | softInvalidateRange start length => exact h.erasePages softEraseBlock_erasure hb hl
  | invalidateRange start length =>
    obtain ⟨hfb, hfc, -⟩ := dropRetainedRange_frame
      (s.map.erasePages GuestToHostMap.erase (pages start length)) start length
    have hl' : (s.map.erasePages GuestToHostMap.erase (pages start length)).Listed p a := by
      unfold Listed; rw [← hfc]; exact hl
    exact h.erasePages erase_erasure (hfb ▸ hb) hl'
  | dropRetainedRange start length =>
    obtain ⟨hfb, hfc, -⟩ := s.map.dropRetainedRange_frame start length
    refine h.registeredOn a e p (hfb ▸ hb) ?_
    unfold Listed; rw [← hfc]; exact hl
  | takeRetainedBlock address =>
    obtain ⟨hfb, hfc, -⟩ := s.map.takeRetainedBlock_frame address
    refine h.registeredOn a e p (hfb ▸ hb) ?_
    unfold Listed; rw [← hfc]; exact hl
  | clearCache => cases hb

/-- **The fast path gives the answer of the walk.** -/
theorem Inv.rangeOverlaps_eq (h : s.Inv) {start length : ℕ} (hw : length < word) :
    s.map.rangeOverlaps start length = s.map.rangeOverlapsCompiledCode start length := by
  unfold rangeOverlaps
  split
  · rename_i hcle
    symm
    rw [Bool.eq_false_iff]
    intro hwl
    obtain ⟨hlen, -, hsum⟩ := provablyClear_bounds hw hcle
    obtain ⟨p, hp, hany⟩ := any_eq_true.1 hwl
    obtain ⟨a, ha, hov⟩ := any_eq_true.1 hany
    have hls : s.map.Listed p a := by
      rcases hc : s.map.codePages p with _ | es
      · simp [hc] at ha
      · exact ⟨es, hc, by simpa [hc] using ha⟩
    unfold blockOverlaps at hov
    rcases hb : s.map.blockList a with _ | e
    · simp [hb] at hov
    simp only [hb, decide_eq_true_eq, hsum] at hov
    have hpag : start / 2 ^ 12 ≤ p ∧ p ≤ (start + length - 1) / 2 ^ 12 := by
      unfold pages lastPage at hp
      rw [mem_range'_1, hsum, if_neg (by omega)] at hp
      omega
    have hreg := h.registeredOn a e p hb hls
    obtain ⟨x, hx, hxp, hcov⟩ :=
      JITCodeTail.exists_overlap hlen hreg.1 hpag.1 hpag.2 hov
    obtain ⟨r, hr, hrx⟩ := hreg.2 x hxp hcov
    exact h.sound.not_covers hw hcle hr hx hrx
  · rfl

end TrackedMap

def compiledCode : Machine TrackedMap GuestToHostMap.Op := .ofFun TrackedMap.step

/-- The invariant of all runs. -/
theorem run_published {ops : List GuestToHostMap.Op}
    (h : compiledCode.Run TrackedMap.Published .empty ops s) : s.Inv := by
  refine h.invariant TrackedMap.Inv.empty ?_
  rintro s op _ hs hop rfl
  exact hs.step hop

/-- **The granule bitmap has no false negatives**, and the fast path of the overlap query gives
the answer of the walk. -/
theorem granules_sound {ops : List GranuleOp} {t : Tracked} {mapOps : List GuestToHostMap.Op}
    {s : TrackedMap} (ht : granules.Run Tracked.Allocates .empty ops t)
    (hs : compiledCode.Run TrackedMap.Published .empty mapOps s) {start length : ℕ}
    (hw : length < word) :
    (t.bitmap.provablyClear start length = true →
      ∀ r ∈ t.registered, ∀ a, start ≤ a ∧ a < start + length → ¬r.Covers a) ∧
    s.map.rangeOverlaps start length = s.map.rangeOverlapsCompiledCode start length :=
  ⟨fun hcle _ hr _ ha => (run_sound ht).not_covers hw hcle hr ha,
    (run_published hs).rangeOverlaps_eq hw⟩

/-- A block of 0x30 bytes at 0x1000, compiled and published as the compiler does it. -/
def straightUnit : List GuestToHostMap.Op :=
  [.addBlockExecutableRange (fun _ => ⟨true, true⟩) [0x1000] 0x1000 0x1000 0x1000 0x30,
    .addBlockMapping 0x1000 { hostCode := 1, tail := ⟨0x1000, 0x30⟩, codePages := [0x1000] }]

theorem straightUnit_published : compiledCode.Run TrackedMap.Published .empty straightUnit
      (straightUnit.foldl TrackedMap.step .empty) := by
  have h₀ : compiledCode.Run TrackedMap.Published .empty [] .empty := .nil _
  have h₁ := h₀.snoc (a := straightUnit[0])
    ⟨⟨⟨by decide, fun _ => by decide⟩, trivial⟩, nofun, ?_⟩ rfl
  · refine h₁.snoc (a := straightUnit[1]) ⟨trivial, ?_, nofun⟩ rfl
    rintro a e hop p hl
    obtain ⟨rfl, rfl⟩ := GuestToHostMap.Op.addBlockMapping.inj hop
    rcases (GuestToHostMap.addBlockExecutableRange_listed _ _ _ _).1 hl with ⟨_, h, -⟩ | ⟨hp, -⟩
    · cases h
    · have hp : p = 1 := by
        rw [show pages 0x1000 0x1000 = [1] by decide] at hp
        exact mem_singleton.1 hp
      subst hp
      exact ⟨⟨0x1000, by decide, .inr (by decide)⟩, fun a ha hcov =>
        ⟨⟨1, 0x1000, 0x30⟩, by decide, ha, hcov⟩⟩
  · intro mem addresses start length gs gl _ a _ e hb
    cases hb

/-- A store to another granule of the page is not taken for a store to the block. -/
theorem granules_sound_straightUnit :
    (straightUnit.foldl TrackedMap.step .empty).map.rangeOverlaps 0x1800 8 = false := by
  have h₀ : granules.Run Tracked.Allocates .empty [] .empty := .nil _
  rw [(granules_sound h₀ straightUnit_published (by decide)).2]
  decide

/-- The allocation of the leaf of page 1 fails. -/
def failedLeaf : GranuleOp := .setPageRange ⟨true, false⟩ ⟨1, 0x1000, 0x30⟩

/-- A block at 0x1f00 reaches to 0x2100.  Its first page is invalidated, and the block is compiled
anew: it now jumps over page 2 to page 3.  The vector of page 2 still lists it. -/
def staleVector : List GuestToHostMap.Op :=
  [.addBlockExecutableRange (fun _ => ⟨true, true⟩) [0x1f00] 0x1000 0x1000 0x1f00 0x200,
    .addBlockExecutableRange (fun _ => ⟨true, true⟩) [0x1f00] 0x2000 0x1000 0x1f00 0x200,
    .addBlockMapping 0x1f00
      { hostCode := 1, tail := ⟨0x1f00, 0x200⟩, codePages := [0x1000, 0x2000] },
    .invalidateRange 0x1f00 8,
    .addBlockExecutableRange (fun _ => ⟨true, true⟩) [0x1f00] 0x1000 0x1000 0x1f00 0x1110,
    .addBlockExecutableRange (fun _ => ⟨true, true⟩) [0x1f00] 0x3000 0x1000 0x1f00 0x1110,
    .addBlockMapping 0x1f00
      { hostCode := 2, tail := ⟨0x1f00, 0x1110⟩, codePages := [0x1000, 0x3000] }]

/-- **False negatives.**  After a failed allocation a registered byte is provably clear.  With all
allocations successful, the fast path answers "no overlap" for a store to 0x2800 where the walk
finds the block through the stale vector of page 2. -/
theorem granule_false_negatives : (∃ t, granules.Run (fun _ _ => True) .empty [failedLeaf] t ∧
      t.bitmap.provablyClear 0x1000 8 = true ∧ ∃ r ∈ t.registered, r.Covers 0x1000) ∧
    ∃ s, compiledCode.Run (fun s op => s.tracked.AllAllocate (s.map.granuleOps op)) .empty
        staleVector s ∧
      s.map.rangeOverlaps 0x2800 8 = false ∧ s.map.rangeOverlapsCompiledCode 0x2800 8 = true := by
  constructor
  · have h₀ : granules.Run (fun _ _ => True) .empty [] .empty := .nil _
    exact ⟨_, h₀.snoc (a := failedLeaf) trivial rfl, by decide,
      ⟨1, 0x1000, 0x30⟩, by decide, by decide⟩
  · exact ⟨_, .of_checked (c := fun s op => decide (s.tracked.AllAllocate (s.map.granuleOps op)))
      (fun _ _ => of_decide_eq_true) (by decide), by decide, by decide⟩

end FastPPC.Lookup
