import FastPPC.Smc.HostGranule
import FastPPC.Machine.Basic

/-!
# Arming host granules

A block that does not validate its own instructions is safe only while a guest write to one of its
pages faults, that is, while the host granule of the page is armed.  This file puts the table of
`HostGranule` together with the parties that use it: the compiler and the relinker, which publish
blocks and arm their pages (`MarkGuestExecutableRange`), the service of a write fault
(`HandleSegfault`), and the retirement of a guest range (`NoteGranuleRangeGone` followed by the
invalidation of the range).

* `arming_safe` : in every run in which no retirement takes the record of a tracked page outside
  its range with it, an unguarded block lies only on pages of armed granules; a demoted granule
  stays unarmed until it is retired whole.
* `partial_forget_disarms` : the retirement of one page of a granule drops the record of its
  siblings, and an unguarded block stays live on a granule that is not recorded as armed.

A page of a mapping that the guest cannot write is never armed (`writable`).  Shared mappings,
whose mirrors are armed as well, and the opt-in deferral of invalidations (`FEX_SMCLAZYINVAL`) are
left out.
-/

namespace FastPPC.Smc

open Function GranuleTable List Bool

variable {page : ℕ}

/-- `FEX_SMCGRANULEPOLICY`: what a fault does to the other pages of the granule. -/
inductive SiblingPolicy
  | invalidate
  | rearm
  deriving DecidableEq

/-- What is fixed during a run. -/
structure ArmingConfig where
  host : HostPage
  policy : SiblingPolicy := .invalidate
  thresholds : Thresholds := {}
  /-- The page lies in a private mapping that the guest may write. -/
  writable : ℕ → Bool := fun _ => true

/-- A published block; `guarded` if it validates its own instructions. -/
structure Block where
  pages : List ℕ
  guarded : Bool
  deriving DecidableEq

structure Arming where
  table : GranuleTable
  /-- `CodePages`: the pages that had code since they were last invalidated. -/
  listed : ℕ → Bool
  blocks : List Block

/-- The page has a byte in `[start, top)`. -/
def touches (start top page : ℕ) : Bool := start < (page + 1) * 2 ^ 12 && page * 2 ^ 12 < top

variable {b : Block}

namespace Arming

def new : Arming := ⟨.empty, fun _ => false, []⟩

/-- Invalidate the blocks on `[start, top)` and take its pages out of `CodePages`. -/
def invalidate (s : Arming) (start top : ℕ) : Arming where
  table := s.table
  listed page := s.listed page && !touches start top page
  blocks := s.blocks.filter fun b => !b.pages.any (touches start top)

variable (cfg : ArmingConfig)

variable (failed : List ℕ) (s : Arming)

/-- `MarkGuestExecutableRange` for one page; `failed` holds the pages whose `mprotect` fails. -/
def mark (page : ℕ) : Arming :=
  if cfg.writable page = false then s
  else if s.table.validateOnly (cfg.host.granuleOf page) then s
  else if page ∈ failed then s.invalidate (page * 2 ^ 12) ((page + 1) * 2 ^ 12)
  else
    { s with
      table := s.table.noteArmed (cfg.host.granuleOf page) (2 ^ cfg.host.pageBit (page * 2 ^ 12)) }

/-- `AddBlockExecutableRange`, and the arming of the page if it had no code. -/
def addPage (page : ℕ) : Arming :=
  let s' := { s with listed := Function.update s.listed page true }
  if s.listed page then s' else s'.mark cfg failed page

def publish (b : Block) : Arming :=
  let s' := b.pages.foldl (addPage cfg failed) s
  { s' with blocks := s'.blocks ++ [b] }

/-- Some page of the block lies in a demoted granule. -/
def anyValidateOnly (s : Arming) (pages : List ℕ) : Bool :=
  pages.any fun page => s.table.validateOnly (cfg.host.granuleOf page)

/-- `CompileBlock`: the block is guarded if one of its pages is in a demoted granule. -/
def compile (pages : List ℕ) : Arming :=
  s.publish cfg failed ⟨pages, s.anyValidateOnly cfg pages⟩

/-- `TryRelinkSoftInvalidatedBlock`: a block on a demoted granule is refused. -/
def relink (b : Block) : Arming :=
  if s.anyValidateOnly cfg b.pages then s else s.publish cfg failed b

/-- The service of a write fault.  A demoting fault invalidates the granule under either policy. -/
def fault (s : Arming) (addr now : ℕ) : Arming :=
  let g := cfg.host.base addr
  let r := s.table.noteFault cfg.thresholds g now
  let s' := { s with table := r.1 }
  if r.2 ∨ cfg.policy = .invalidate then s'.invalidate g (g + cfg.host.size)
  else s'.invalidate (addr / 2 ^ 12 * 2 ^ 12) ((addr / 2 ^ 12 + 1) * 2 ^ 12)

/-- `NoteGranuleRangeGone`.  An `munmap` or `mmap` invalidates the range as well; an `mremap` that
leaves the mapping in place does not. -/
def forget (s : Arming) (start top : ℕ) (invalidates : Bool) : Arming :=
  let s' := { s with table := s.table.forget cfg.host start top }
  if invalidates then s'.invalidate start top else s'

/-- The actions, with what the kernel answers. -/
inductive Action
  | noteArmed (granule pageMask : ℕ)
  | fault (addr now : ℕ)
  | compile (pages failed : List ℕ)
  | relink (block : Block) (failed : List ℕ)
  | validateOnly (granule : ℕ)
  | invalidate (start top : ℕ)
  | forget (start top : ℕ) (invalidates : Bool)

def step (s : Arming) : Action → Arming
  | .noteArmed g mask => { s with table := s.table.noteArmed g mask }
  | .fault addr now => s.fault cfg addr now
  | .compile pages failed => s.compile cfg failed pages
  | .relink b failed => s.relink cfg failed b
  | .validateOnly _ => s
  | .invalidate start top => s.invalidate start top
  | .forget start top inv => s.forget cfg start top inv

/-- The condition under which the arming is safe.  A retirement that erases the entry of a granule
invalidates its range, and the range holds every tracked page of the granule. -/
def Careful (cfg : ArmingConfig) (s : Arming) : Action → Prop
  | .fault _ _ => cfg.policy = .invalidate ∧ s.table.demotedCount + 1 < 2 ^ 32
  | .compile _ failed => failed = []
  | .relink _ failed => failed = []
  | .forget start top inv =>
    ∀ g ∈ GranuleTable.forgotten cfg.host start top,
      (s.table.Demoted g ∧ ¬ GranuleTable.Whole cfg.host start top g) ∨
        inv = true ∧ ∀ page, cfg.host.granuleOf page = g → s.table.Tracked cfg.host page →
          touches start top page = true
  | _ => True

/-! ### The invariant -/

/-- What every state of a careful run satisfies. -/
structure Inv (cfg : ArmingConfig) (s : Arming) : Prop where
  wf : s.table.Wf
  /-- Pages with code are tracked, unless their granule is demoted. -/
  tracked : ∀ page, s.listed page = true → cfg.writable page = true →
    s.table.Tracked cfg.host page ∨ s.table.Demoted (cfg.host.granuleOf page)
  listed : ∀ b ∈ s.blocks, ∀ page ∈ b.pages, s.listed page = true
  unguarded : ∀ b ∈ s.blocks, b.guarded = false → ∀ page ∈ b.pages,
    ¬ s.table.Demoted (cfg.host.granuleOf page)

variable {cfg : ArmingConfig} {s : Arming} {a : Action} {as : List Action}

theorem inv_new (cfg : ArmingConfig) : new.Inv cfg :=
  ⟨.empty, nofun, nofun, nofun⟩

/-- The blocks that an invalidation leaves. -/
theorem mem_invalidate {start top : ℕ} (hb : b ∈ (s.invalidate start top).blocks) :
    b ∈ s.blocks ∧ ∀ page ∈ b.pages, touches start top page = false := by
  obtain ⟨hb, ht⟩ := mem_filter.1 hb
  refine ⟨hb, fun page hp => ?_⟩
  simp only [not_eq_true', any_eq_false] at ht
  exact eq_false_iff.2 (ht page hp)

section

variable (hi : s.Inv cfg)
include hi

/-- **An unguarded block lies on armed granules.** -/
theorem Inv.armed (hb : b ∈ s.blocks) (hg : b.guarded = false) (hp : page ∈ b.pages)
    (hw : cfg.writable page = true) : s.table.armed (cfg.host.granuleOf page) = true :=
  ((hi.tracked page (hi.listed b hb page hp) hw).resolve_right (hi.unguarded b hb hg page hp)).armed

theorem Inv.anyValidateOnly_eq_false {pages : List ℕ} (h : s.anyValidateOnly cfg pages = false)
    (hp : page ∈ pages) : ¬ s.table.Demoted (cfg.host.granuleOf page) := by
  rw [← hi.wf.validateOnly_iff]
  simp only [anyValidateOnly, any_eq_false] at h
  exact h page hp

/-- An invalidation after which every remaining page is still described by the table. -/
theorem Inv.invalidate_of {t : GranuleTable} {start top : ℕ} (hwf : t.Wf)
    (htr : ∀ page, s.listed page = true → cfg.writable page = true →
      touches start top page = false →
      t.Tracked cfg.host page ∨ t.Demoted (cfg.host.granuleOf page))
    (hun : ∀ page, s.listed page = true → touches start top page = false →
      t.Demoted (cfg.host.granuleOf page) → s.table.Demoted (cfg.host.granuleOf page)) :
    ({ s with table := t }.invalidate start top).Inv cfg where
  wf := hwf
  tracked page hl hw := by
    simp only [invalidate, and_eq_true, not_eq_true'] at hl
    exact htr page hl.1 hw hl.2
  listed b hb page hp := by
    obtain ⟨hb, ht⟩ := mem_invalidate hb
    simp only [invalidate, and_eq_true, not_eq_true']
    exact ⟨hi.listed b hb page hp, ht page hp⟩
  unguarded b hb hg page hp hd := by
    obtain ⟨hb, ht⟩ := mem_invalidate hb
    exact hi.unguarded b hb hg page hp (hun page (hi.listed b hb page hp) (ht page hp) hd)

theorem Inv.invalidate (start top : ℕ) : (s.invalidate start top).Inv cfg :=
  hi.invalidate_of hi.wf (fun page hl hw _ => hi.tracked page hl hw) fun _ _ _ hd => hd

theorem Inv.noteArmed (g mask : ℕ) : { s with table := s.table.noteArmed g mask }.Inv cfg where
  wf := hi.wf.noteArmed g mask
  tracked page hl hw := by
    rw [noteArmed_demoted]
    exact (hi.tracked page hl hw).imp_left (·.noteArmed g mask)
  listed := hi.listed
  unguarded b hb hg page hp hd :=
    hi.unguarded b hb hg page hp (noteArmed_demoted.1 hd)

end

/-! ### Publishing a block -/

/-- Pages were listed and armed, and nothing else happened. -/
structure Marked (cfg : ArmingConfig) (s s' : Arming) : Prop where
  inv : s'.Inv cfg
  blocks : s'.blocks = s.blocks
  demoted_iff : ∀ g, s'.table.Demoted g ↔ s.table.Demoted g
  listed : ∀ page, s.listed page = true → s'.listed page = true

section

variable (hi : s.Inv cfg)
include hi

theorem addPage_marked (page : ℕ) :
    Marked cfg s (s.addPage cfg [] page) ∧ (s.addPage cfg [] page).listed page = true := by
  -- the state in which the page is listed, with a table that describes it
  have key : ∀ t : GranuleTable, t.Wf → (∀ g, t.Demoted g ↔ s.table.Demoted g) →
      (∀ p, s.table.Tracked cfg.host p → t.Tracked cfg.host p) →
      (cfg.writable page = true → t.Tracked cfg.host page ∨ t.Demoted (cfg.host.granuleOf page)) →
      Marked cfg s ⟨t, update s.listed page true, s.blocks⟩ ∧
        update s.listed page true page = true := by
    intro t hwf hd htr hpg
    have hmn : ∀ p, s.listed p = true → update s.listed page true p = true := by
      intro p hp
      by_cases h : p = page
      · rw [h, update_self]
      · rwa [update_of_ne h]
    refine ⟨⟨⟨hwf, fun p hl hw => ?_, fun b hb p hp => hmn p (hi.listed b hb p hp),
      fun b hb hg p hp hdp => hi.unguarded b hb hg p hp ((hd _).1 hdp)⟩, rfl, hd, hmn⟩,
      update_self ..⟩
    by_cases h : p = page
    · subst h
      exact hpg hw
    · dsimp only at hl ⊢
      rw [update_of_ne h] at hl
      rw [hd]
      exact (hi.tracked p hl hw).imp_left (htr p)
  unfold addPage
  by_cases hl : s.listed page = true
  · rw [if_pos hl]
    exact key s.table hi.wf (fun _ => Iff.rfl) (fun _ h => h) (hi.tracked page hl)
  · rw [if_neg hl]
    unfold mark
    split
    · rename_i hw
      exact key s.table hi.wf (fun _ => Iff.rfl) (fun _ h => h) fun h => by simp [h] at hw
    split
    · rename_i hv
      exact key s.table hi.wf (fun _ => Iff.rfl) (fun _ h => h)
        fun _ => .inr (hi.wf.validateOnly_iff.1 hv)
    · rename_i hv
      rw [if_neg not_mem_nil]
      have hd : ¬ s.table.Demoted (cfg.host.granuleOf page) :=
        fun hd => hv (hi.wf.validateOnly_iff.2 hd)
      exact key _ (hi.wf.noteArmed ..) (fun _ => noteArmed_demoted)
        (fun _ h => h.noteArmed ..) fun _ => .inl (tracked_noteArmed hd)

/-- The loop over the pages of a block. -/
theorem foldl_addPage (pages : List ℕ) : Marked cfg s (pages.foldl (addPage cfg []) s) ∧
      ∀ page ∈ pages, (pages.foldl (addPage cfg []) s).listed page = true := by
  induction pages generalizing s with
  | nil => exact ⟨⟨hi, rfl, fun _ => Iff.rfl, fun _ h => h⟩, nofun⟩
  | cons page pages ih =>
    obtain ⟨h₁, hl⟩ := addPage_marked hi page
    obtain ⟨h₂, hls⟩ := ih h₁.inv
    refine ⟨⟨h₂.inv, h₂.blocks.trans h₁.blocks,
      fun g => (h₂.demoted_iff g).trans (h₁.demoted_iff g),
      fun p hp => h₂.listed p (h₁.listed p hp)⟩, fun p hp => ?_⟩
    rcases mem_cons.1 hp with rfl | hp
    · exact h₂.listed _ hl
    · exact hls p hp

/-- A block that is guarded if one of its granules is demoted can be published. -/
theorem Inv.publish
    (hb : b.guarded = false → ∀ page ∈ b.pages, ¬ s.table.Demoted (cfg.host.granuleOf page)) :
    (s.publish cfg [] b).Inv cfg := by
  obtain ⟨hm, hl⟩ := foldl_addPage hi b.pages
  refine ⟨hm.inv.wf, hm.inv.tracked, fun b' hb' => ?_, fun b' hb' => ?_⟩
  · rcases mem_append.1 hb' with hb' | hb'
    · exact hm.inv.listed b' hb'
    · rw [mem_singleton.1 hb']
      exact hl
  · rcases mem_append.1 hb' with hb' | hb'
    · exact hm.inv.unguarded b' hb'
    · rw [mem_singleton.1 hb']
      intro hg page hp hd
      exact hb hg page hp ((hm.demoted_iff _).1 hd)

theorem Inv.compile (pages : List ℕ) : (s.compile cfg [] pages).Inv cfg :=
  hi.publish fun hg _ hp => hi.anyValidateOnly_eq_false hg hp

theorem Inv.relink (b : Block) : (s.relink cfg [] b).Inv cfg := by
  unfold Arming.relink
  split
  · exact hi
  · rename_i hv
    exact hi.publish fun _ _ hp => hi.anyValidateOnly_eq_false (eq_false_iff.2 hv) hp

end

/-! ### Faults and retirements -/

theorem touches_granule (h : HostPage) {g : ℕ} (hg : h.granuleOf page = g) {start top : ℕ}
    (hs : start ≤ g) (ht : g + h.size ≤ top) : touches start top page = true := by
  have h₁ := h.granuleOf_le page
  have h₂ := h.page_le_granule page
  simp only [touches, and_eq_true, decide_eq_true_eq]
  omega

theorem Inv.fault (hi : s.Inv cfg) (hpol : cfg.policy = .invalidate)
    (hc : s.table.demotedCount + 1 < 2 ^ 32) (addr now : ℕ) : (s.fault cfg addr now).Inv cfg := by
  have ho := s.table.noteFault_opened cfg.thresholds (cfg.host.base addr) now
  have hne : ∀ page,
      touches (cfg.host.base addr) (cfg.host.base addr + cfg.host.size) page = false →
      cfg.host.granuleOf page ≠ cfg.host.base addr := by
    intro page ht hg
    rw [touches_granule cfg.host hg (Nat.le_refl _) (Nat.le_refl _)] at ht
    cases ht
  unfold Arming.fault
  rw [if_pos (.inr hpol)]
  refine hi.invalidate_of (hi.wf.opened ho hc) (fun page hl hw ht => ?_) fun page _ ht hd => ?_
  · -- other granules are as before
    have he := ho.other _ (hne page ht)
    unfold Tracked Demoted
    rw [he]
    exact hi.tracked page hl hw
  · unfold Demoted at hd ⊢
    rwa [ho.other _ (hne page ht)] at hd

theorem Inv.forget (hi : s.Inv cfg) {start top : ℕ} {inv : Bool}
    (hc : Careful cfg s (.forget start top inv)) : (s.forget cfg start top inv).Inv cfg := by
  have hwf := hi.wf.forget cfg.host start top
  -- a listed page whose entry is erased lies in the invalidated range
  have hkp : ∀ page, s.listed page = true → cfg.writable page = true →
      (inv = true → touches start top page = false) →
      (s.table.forget cfg.host start top).entry (cfg.host.granuleOf page) =
        s.table.entry (cfg.host.granuleOf page) := by
    intro page hl hw ht
    obtain he | ⟨hg, hera, -⟩ := forget_entry_cases hi.wf start top
      (cfg.host.granuleOf page) (h := cfg.host)
    · exact he
    · exfalso
      obtain ⟨hd, hp⟩ | ⟨hinv, hall⟩ := hc _ hg
      · exact hera.elim (· hd) hp
      · have hout := ht hinv
        have hin : touches start top page = true := by
          rcases hera with hd | ⟨hs, ht'⟩
          · exact hall page rfl ((hi.tracked page hl hw).resolve_right hd)
          · exact touches_granule cfg.host rfl hs ht'
        rw [hin] at hout
        cases hout
  have htr : ∀ page, s.listed page = true → cfg.writable page = true →
      (inv = true → touches start top page = false) →
      (s.table.forget cfg.host start top).Tracked cfg.host page ∨
        (s.table.forget cfg.host start top).Demoted (cfg.host.granuleOf page) := by
    intro page hl hw ht
    unfold Tracked Demoted
    rw [hkp page hl hw ht]
    exact hi.tracked page hl hw
  unfold Arming.forget
  cases inv with
  | true =>
    exact hi.invalidate_of hwf (fun page hl hw ht => htr page hl hw fun _ => ht)
      fun _ _ _ hd => hd.of_forget hi.wf
  | false =>
    exact ⟨hwf, fun page hl hw => htr page hl hw nofun, hi.listed,
      fun b hb hg page hp hd => hi.unguarded b hb hg page hp (hd.of_forget hi.wf)⟩

theorem Inv.step (hi : s.Inv cfg) (hc : Careful cfg s a) : (s.step cfg a).Inv cfg := by
  cases a with
  | noteArmed g mask => exact hi.noteArmed g mask
  | fault addr now => exact hi.fault hc.1 hc.2 addr now
  | compile pages failed =>
    obtain rfl : failed = [] := hc
    exact hi.compile pages
  | relink b failed =>
    obtain rfl : failed = [] := hc
    exact hi.relink b
  | validateOnly g => exact hi
  | invalidate start top => exact hi.invalidate start top
  | forget start top inv => exact hi.forget hc

/-! ### Demoted granules -/

def Retires (cfg : ArmingConfig) (g : ℕ) : Action → Prop
  | .forget start top _ => GranuleTable.Whole cfg.host start top g
  | _ => False

theorem publish_demoted (hi : s.Inv cfg) (b : Block) (g : ℕ) :
    (s.publish cfg [] b).table.Demoted g ↔ s.table.Demoted g :=
  (foldl_addPage hi b.pages).1.demoted_iff g

/-- A granule stays demoted until it is retired whole. -/
theorem Inv.step_demoted (hi : s.Inv cfg) (hc : Careful cfg s a) {g : ℕ} (hr : ¬ Retires cfg g a)
    (hd : s.table.Demoted g) : (s.step cfg a).table.Demoted g := by
  cases a with
  | noteArmed g' mask => exact noteArmed_demoted.2 hd
  | fault addr now =>
    have ho := s.table.noteFault_opened cfg.thresholds (cfg.host.base addr) now
    have hd' : (s.table.noteFault cfg.thresholds (cfg.host.base addr) now).1.Demoted g := by
      by_cases hg : g = cfg.host.base addr
      · rw [hg] at hd ⊢
        exact ho.demoted_iff.2 (.inl hd)
      · unfold Demoted at hd ⊢
        rwa [ho.other g hg]
    unfold Arming.step Arming.fault
    dsimp only
    split <;> exact hd'
  | compile pages failed =>
    obtain rfl : failed = [] := hc
    exact (publish_demoted hi _ g).2 hd
  | relink b failed =>
    obtain rfl : failed = [] := hc
    unfold Arming.step Arming.relink
    dsimp only
    split
    · exact hd
    · exact (publish_demoted hi b g).2 hd
  | validateOnly g' => exact hd
  | invalidate start top => exact hd
  | forget start top inv =>
    have hd' : (s.table.forget cfg.host start top).Demoted g := by
      unfold Demoted at hd ⊢
      rwa [forget_entry_demoted hi.wf hd hr]
    unfold Arming.step Arming.forget
    dsimp only
    split <;> exact hd'

/-! ### Runs -/

def machine (cfg : ArmingConfig) : Machine Arming Action := .ofFun (step cfg)

theorem Inv.run (hi : s.Inv cfg) {s' : Arming} (h : (machine cfg).Run (Careful cfg) s as s') :
    s'.Inv cfg :=
  h.invariant hi fun _ _ _ hi hc hst => hst ▸ hi.step hc

theorem Inv.run_demoted (hi : s.Inv cfg) {s' : Arming} (h : (machine cfg).Run (Careful cfg) s as s')
    {g : ℕ} (hr : ∀ a ∈ as, ¬ Retires cfg g a) (hd : s.table.Demoted g) : s'.table.Demoted g := by
  induction h with
  | nil => exact hd
  | snoc hrun hc hst ih =>
    have hd' := ih (fun a ha => hr a (mem_append_left _ ha))
    exact hst ▸ (hi.run hrun).step_demoted hc (hr _ (by simp)) hd'

/-- **Arming safety.**  In every state of a careful run

* an unguarded block lies only on pages whose granule is recorded as armed;
* a demoted granule is not armed again before a retirement covers it whole;
* a retirement keeps the record of every tracked page outside its range. -/
theorem arming_safe {as : List Action} (h : (machine cfg).Run (Careful cfg) new as s) :
    (∀ b ∈ s.blocks, b.guarded = false → ∀ page ∈ b.pages, cfg.writable page = true →
      s.table.armed (cfg.host.granuleOf page) = true) ∧
    (∀ g, s.table.Demoted g → ∀ as' s', (machine cfg).Run (Careful cfg) s as' s' →
      (∀ a ∈ as', ¬ Retires cfg g a) → s'.table.armed g = false) ∧
    ∀ start top inv, Careful cfg s (.forget start top inv) → ∀ page,
      touches start top page = false → s.table.Tracked cfg.host page →
      (s.step cfg (.forget start top inv)).table.Tracked cfg.host page := by
  have hi : s.Inv cfg := (inv_new cfg).run h
  refine ⟨fun b hb hg page hp hw => hi.armed hb hg hp hw, fun g hd as' s' h' hr => ?_,
    fun start top inv hc page hout ht => ?_⟩
  · exact (hi.run h').wf.armed_eq_false (hi.run_demoted h' hr hd)
  · have he : (s.table.forget cfg.host start top).entry (cfg.host.granuleOf page) =
        s.table.entry (cfg.host.granuleOf page) := by
      by_cases hg : cfg.host.granuleOf page ∈ forgotten cfg.host start top
      · obtain ⟨hd, -⟩ | ⟨-, hall⟩ := hc _ hg
        · exact absurd hd (hi.wf.not_demoted ht)
        · rw [hall page rfl ht] at hout
          cases hout
      · exact forget_entry_of_not_mem hg
    have ht' : (s.table.forget cfg.host start top).Tracked cfg.host page := by
      unfold Tracked at ht ⊢
      rwa [he]
    unfold step forget
    dsimp only
    split <;> exact ht'

/-- A check that implies the condition: ranges of whole granules are retired. -/
def carefulCheck (cfg : ArmingConfig) (s : Arming) : Action → Bool
  | .fault _ _ => cfg.policy = .invalidate ∧ s.table.demotedCount + 1 < 2 ^ 32
  | .compile _ failed => failed.isEmpty
  | .relink _ failed => failed.isEmpty
  | .forget start top inv =>
    inv && (GranuleTable.forgotten cfg.host start top).all fun g =>
      start ≤ g ∧ g + cfg.host.size ≤ top
  | _ => true

theorem careful_of_check (h : carefulCheck cfg s a = true) : Careful cfg s a := by
  cases a with
  | fault addr now =>
    simp only [carefulCheck, decide_eq_true_eq] at h
    exact h
  | compile pages failed => exact isEmpty_iff.1 h
  | relink b failed => exact isEmpty_iff.1 h
  | forget start top inv =>
    simp only [carefulCheck, and_eq_true, all_eq_true, decide_eq_true_eq] at h
    intro g hg
    obtain ⟨hs, ht⟩ := h.2 g hg
    exact .inr ⟨h.1, fun page hp _ => touches_granule cfg.host hp hs ht⟩
  | _ => trivial

/-- A host with 64 KiB pages that demotes a granule at its second fault within a second. -/
def largePages : ArmingConfig where
  host := ⟨16, by decide, by decide⟩
  thresholds := { mixedFlip := 2 }

/-- Code on page 1, writes to page 0 of the same granule until it is demoted, a guarded block, the
retirement of the granule and code on page 3. -/
def thrashing : List Action :=
  [.compile [1] [], .fault 0 7, .compile [1] [], .fault 8 7, .compile [1] [], .forget 0 65536 true,
    .compile [3] []]

theorem arming_safe_thrashing : (thrashing.foldl (step largePages) new).blocks = [⟨[3], false⟩] ∧
      (thrashing.foldl (step largePages) new).table.armed 0 = true :=
  ⟨by decide, (arming_safe (Machine.Run.of_checked (fun _ _ => careful_of_check)
    (by decide :
      Machine.checked (step largePages) (carefulCheck largePages) new thrashing = true))).1
    ⟨[3], false⟩ (by decide) rfl 3 (by decide) rfl⟩

/-- **A partial retirement disarms the granule.**  A block is compiled from page 0, and page 1 of
the same granule is mapped anew.  The block is live and unguarded, but its granule is not recorded
as armed, and page 0 is no longer recorded as tracked. -/
theorem partial_forget_disarms :
    ∃ s, (machine largePages).Run (fun _ _ => True) new [.compile [0] []] s ∧
      s.table.Tracked largePages.host 0 ∧ touches 4096 8192 0 = false ∧
      (⟨[0], false⟩ : Block) ∈ (s.step largePages (.forget 4096 8192 true)).blocks ∧
      (s.step largePages (.forget 4096 8192 true)).table.armed (largePages.host.granuleOf 0) =
        false ∧
      ¬ (s.step largePages (.forget 4096 8192 true)).table.Tracked largePages.host 0 := by
  refine ⟨_, (Machine.Run.nil new).snoc trivial rfl, ?_⟩
  unfold Tracked
  decide

end Arming

end FastPPC.Smc
