import FastPPC.Arith.Word

/-!
# The table of armed host granules

On a host whose pages are larger than the guest's 4 KiB pages, write protection for the detection of
self-modifying code is installed for a whole *granule*, one host page of up to 32 guest pages.
`GranuleTable` of `SMCHostGranule.h` records for every granule which of its guest pages are
tracked, how often it was opened by a write fault, and whether it was *demoted*: a granule that is
opened too often while it holds little code is not armed any more, and the blocks compiled from it
validate their own instructions.

This file models the table and says what each operation does to the two facts that matter, "the
page is tracked" and "the granule is demoted".  The mailbox of the flip report is left out.
-/

namespace FastPPC.Smc

open List

/-- A host page that is larger than a guest page; the mask of a granule has 32 bits. -/
structure HostPage where
  pages : ℕ
  large : 1 < pages
  fits : pages ≤ 32

namespace HostPage

variable (h : HostPage)

def size : ℕ := h.pages * 2 ^ 12

/-- `Base`: the granule of an address. -/
def base (addr : ℕ) : ℕ := addr / h.size * h.size

/-- `PageBit`: the number of a guest page in its granule. -/
def pageBit (addr : ℕ) : ℕ := (addr - h.base addr) / 2 ^ 12

/-- The granule of a guest page, given by its number. -/
def granuleOf (page : ℕ) : ℕ := h.base (page * 2 ^ 12)

theorem size_pos : 0 < h.size := Nat.mul_pos (Nat.zero_lt_of_lt h.large) (by decide)

theorem base_le (addr : ℕ) : h.base addr ≤ addr := Nat.div_mul_le_self addr h.size

theorem lt_base_add (addr : ℕ) : addr < h.base addr + h.size := Nat.lt_div_mul_add h.size_pos

theorem granuleOf_le (page : ℕ) : h.granuleOf page ≤ page * 2 ^ 12 := h.base_le _

/-- A guest page lies wholly in its granule. -/
theorem page_le_granule (page : ℕ) : (page + 1) * 2 ^ 12 ≤ h.granuleOf page + h.size := by
  have hlt := h.lt_base_add (page * 2 ^ 12)
  have hbs : h.granuleOf page = page * 2 ^ 12 / h.size * h.pages * 2 ^ 12 := by
    rw [granuleOf, base, Nat.mul_assoc]
    rfl
  unfold granuleOf at *
  unfold size at *
  omega

end HostPage

/-! ### The table -/

variable {start top : ℕ}

variable {page g : ℕ}

/-- `GranuleTable::Entry` -/
structure Entry where
  /-- Bit `i`: guest page `i` of the granule is armed. -/
  trackedMask : ℕ := 0
  /-- Faults in the window that started at `windowStart`. -/
  flips : ℕ := 0
  windowStart : ℕ := 0
  validateOnly : Bool := false
  deriving DecidableEq

structure GranuleTable where
  granules : ℕ → Option Entry
  /-- A 32-bit counter. -/
  demotedCount : ℕ

/-- The environment variables that the table reads. -/
structure Thresholds where
  flipLog : ℕ := 64
  mixedFlip : ℕ := 0
  mixedMaxTracked : ℕ := 4

def popcount (mask : ℕ) : ℕ := (range 32).countP fun i => mask.testBit i

namespace GranuleTable

def empty : GranuleTable := ⟨fun _ => none, 0⟩

/-- The entry of a granule; a granule without one reads like the entry that arming inserts. -/
def entry (t : GranuleTable) (g : ℕ) : Entry := (t.granules g).getD {}

def setEntry (t : GranuleTable) (g : ℕ) (e : Option Entry) : GranuleTable :=
  { t with granules := Function.update t.granules g e }

def noteArmed (t : GranuleTable) (g pageMask : ℕ) : GranuleTable :=
  if pageMask = 0 ∨ (t.entry g).validateOnly = true then t
  else t.setEntry g (some { t.entry g with trackedMask := (t.entry g).trackedMask ||| pageMask })

/-- The flip counter of an entry at a fault at time `now`. -/
def countFlip (e : Entry) (now : ℕ) : Entry :=
  if wsub now e.windowStart ≥ 1000000000 then { e with windowStart := now, flips := 1 }
  else { e with flips := (e.flips + 1) % 2 ^ 32 }

/-- The demotion rule, for the tracked mask that the fault found. -/
def demotes (th : Thresholds) (e : Entry) (mask : ℕ) : Bool :=
  th.mixedFlip != 0 && !e.validateOnly && th.mixedFlip ≤ e.flips && mask != 0 &&
    popcount mask ≤ th.mixedMaxTracked

/-- `NoteFault`: the table after the fault and whether the fault demoted the granule. -/
def noteFault (th : Thresholds) (t : GranuleTable) (g now : ℕ) : GranuleTable × Bool :=
  match t.granules g with
  | none => (t, false)
  | some e =>
    let opened := { e with trackedMask := 0 }
    if th.flipLog = 0 ∧ th.mixedFlip = 0 then (t.setEntry g (some opened), false)
    else if demotes th (countFlip opened now) e.trackedMask then
      ({ t.setEntry g (some { countFlip opened now with validateOnly := true }) with
          demotedCount := (t.demotedCount + 1) % 2 ^ 32 }, true)
    else (t.setEntry g (some (countFlip opened now)), false)

/-- `ValidateOnly`: without a demotion the table is not looked at. -/
def validateOnly (t : GranuleTable) (g : ℕ) : Bool :=
  t.demotedCount != 0 && (t.entry g).validateOnly

def armed (t : GranuleTable) (g : ℕ) : Bool := (t.entry g).trackedMask != 0

/-- The guest pages of the loop over `[first, last)`, taken out of a mask. -/
def dropPages (h : HostPage) (first last mask : ℕ) : ℕ :=
  (range' first ((last - first + (2 ^ 12 - 1)) / 2 ^ 12) (2 ^ 12)).foldl
    (fun m page => m ^^^ (m &&& 2 ^ h.pageBit page)) mask

/-- The body of the loop of `Forget`: what is left of the entry of granule `g`. -/
def forgetEntry (h : HostPage) (start top g : ℕ) (e : Entry) : Option Entry :=
  if (start ≤ g ∧ g + h.size ≤ top) ∨ e.validateOnly = false then none
  else
    some { e with
      trackedMask := dropPages h (max start g) (min top (g + h.size)) e.trackedMask }

def forgetOne (h : HostPage) (start top : ℕ) (t : GranuleTable) (g : ℕ) : GranuleTable :=
  t.setEntry g ((t.granules g).bind (forgetEntry h start top g))

/-- The granules that the loop of `Forget` visits. -/
def forgotten (h : HostPage) (start top : ℕ) : List ℕ :=
  range' (h.base start) ((top - h.base start + (h.size - 1)) / h.size) h.size

def forget (h : HostPage) (t : GranuleTable) (start top : ℕ) : GranuleTable :=
  (forgotten h start top).foldl (forgetOne h start top) t

/-! ### What the operations do -/

variable {h : HostPage}

def Demoted (t : GranuleTable) (g : ℕ) : Prop := (t.entry g).validateOnly = true

instance (t : GranuleTable) (g : ℕ) : Decidable (t.Demoted g) :=
  inferInstanceAs (Decidable ((t.entry g).validateOnly = true))

def Tracked (h : HostPage) (t : GranuleTable) (page : ℕ) : Prop :=
  (t.entry (h.granuleOf page)).trackedMask.testBit (h.pageBit (page * 2 ^ 12)) = true

/-- Demoted granules have an empty mask, and the counter shows that there is one. -/
structure Wf (t : GranuleTable) : Prop where
  quiet : ∀ g, t.Demoted g → (t.entry g).trackedMask = 0
  counted : ∀ g, t.Demoted g → t.demotedCount ≠ 0

theorem Tracked.armed {t : GranuleTable} (ht : t.Tracked h page) :
    t.armed (h.granuleOf page) = true := by
  have hne : (t.entry (h.granuleOf page)).trackedMask ≠ 0 := by
    intro h0
    rw [Tracked, h0, Nat.zero_testBit] at ht
    cases ht
  simpa [GranuleTable.armed] using hne

namespace Wf

variable {t : GranuleTable} (hw : t.Wf)
include hw

theorem armed_eq_false (hd : t.Demoted g) : t.armed g = false := by
  simp [GranuleTable.armed, hw.quiet g hd]

theorem validateOnly_iff : t.validateOnly g = true ↔ t.Demoted g := by
  simp only [GranuleTable.validateOnly, Bool.and_eq_true, bne_iff_ne]
  exact ⟨fun h => h.2, fun h => ⟨hw.counted g h, h⟩⟩

theorem not_demoted (ht : t.Tracked h page) : ¬ t.Demoted (h.granuleOf page) := by
  intro hd
  have := hw.armed_eq_false hd
  rw [ht.armed] at this
  cases this

end Wf

theorem Wf.empty : empty.Wf := ⟨fun _ _ => rfl, nofun⟩

@[simp] theorem setEntry_entry (t : GranuleTable) (g : ℕ) (e : Option Entry) (g' : ℕ) :
    (t.setEntry g e).entry g' = if g' = g then e.getD {} else t.entry g' := by
  unfold setEntry entry
  by_cases h : g' = g
  · simp [h]
  · simp [h]

/-! #### `NoteArmed` -/

theorem noteArmed_entry (t : GranuleTable) (g mask g' : ℕ) : (t.noteArmed g mask).entry g' =
      if g' = g ∧ ¬ t.Demoted g then
        { t.entry g with trackedMask := (t.entry g).trackedMask ||| mask }
      else t.entry g' := by
  unfold noteArmed Demoted
  by_cases hd : (t.entry g).validateOnly = true
  · simp [hd]
  · by_cases hm : mask = 0
    · by_cases hg : g' = g <;> simp [hm, hg]
    · by_cases hg : g' = g <;> simp [hm, hd]

theorem noteArmed_demotedCount (t : GranuleTable) (g mask : ℕ) :
    (t.noteArmed g mask).demotedCount = t.demotedCount := by
  unfold noteArmed
  split <;> rfl

theorem noteArmed_demoted {t : GranuleTable} {mask g' : ℕ} :
    (t.noteArmed g mask).Demoted g' ↔ t.Demoted g' := by
  unfold Demoted
  rw [noteArmed_entry]
  split
  · rename_i h
    rw [h.1]
  · rfl

theorem Tracked.noteArmed {t : GranuleTable} (ht : t.Tracked h page) (g mask : ℕ) :
    (t.noteArmed g mask).Tracked h page := by
  unfold Tracked at ht ⊢
  rw [noteArmed_entry]
  split
  · rename_i hg
    rw [hg.1] at ht
    rw [Nat.testBit_lor, ht, Bool.true_or]
  · exact ht

/-- Arming a page of a granule that is not demoted tracks it. -/
theorem tracked_noteArmed {t : GranuleTable} (hd : ¬ t.Demoted (h.granuleOf page)) :
    (t.noteArmed (h.granuleOf page) (2 ^ h.pageBit (page * 2 ^ 12))).Tracked h page := by
  unfold Tracked
  rw [noteArmed_entry, if_pos ⟨rfl, hd⟩, Nat.testBit_lor, Nat.testBit_two_pow_self, Bool.or_true]

theorem Wf.noteArmed {t : GranuleTable} (hw : t.Wf) (g mask : ℕ) : (t.noteArmed g mask).Wf where
  quiet g' hd := by
    rw [noteArmed_demoted] at hd
    rw [noteArmed_entry, if_neg]
    · exact hw.quiet g' hd
    · rintro ⟨rfl, hnd⟩
      exact hnd hd
  counted g' hd := by
    rw [noteArmed_demotedCount]
    exact hw.counted g' (noteArmed_demoted.1 hd)

/-! #### `NoteFault` -/

@[simp] theorem countFlip_trackedMask (e : Entry) (now : ℕ) :
    (countFlip e now).trackedMask = e.trackedMask := by
  unfold countFlip
  split <;> rfl

@[simp] theorem countFlip_validateOnly (e : Entry) (now : ℕ) :
    (countFlip e now).validateOnly = e.validateOnly := by
  unfold countFlip
  split <;> rfl

/-- What a fault does: the granule's mask is empty, other granules are as before, and the granule
may have been demoted. -/
structure Opened (t : GranuleTable) (g : ℕ) (t' : GranuleTable) (demoted : Bool) : Prop where
  other : ∀ g', g' ≠ g → t'.entry g' = t.entry g'
  mask : (t'.entry g).trackedMask = 0
  demoted_iff : t'.Demoted g ↔ t.Demoted g ∨ demoted = true
  count : t'.demotedCount = if demoted = true then (t.demotedCount + 1) % 2 ^ 32
    else t.demotedCount

theorem noteFault_opened (th : Thresholds) (t : GranuleTable) (g now : ℕ) :
    t.Opened g (t.noteFault th g now).1 (t.noteFault th g now).2 := by
  unfold noteFault
  cases he : t.granules g with
  | none =>
    have hent : t.entry g = {} := by rw [entry, he]; rfl
    exact ⟨fun _ _ => rfl, by rw [hent], by simp, rfl⟩
  | some e =>
    have hent : t.entry g = e := by rw [entry, he]; rfl
    have hoth : ∀ (e' : Entry) g', g' ≠ g → (t.setEntry g (some e')).entry g' = t.entry g' := by
      intro e' g' hg
      rw [setEntry_entry, if_neg hg]
    dsimp only
    split
    · exact ⟨hoth _, by simp, by simp [Demoted, hent], rfl⟩
    · split
      · exact ⟨hoth _, by simp [entry, setEntry], by simp [Demoted, entry, setEntry], rfl⟩
      · exact ⟨hoth _, by simp, by simp [Demoted, hent], rfl⟩

theorem Wf.opened {t t' : GranuleTable} (hw : t.Wf) {demoted : Bool} (ho : t.Opened g t' demoted)
    (hc : t.demotedCount + 1 < 2 ^ 32) : t'.Wf where
  quiet g' hd := by
    by_cases hg : g' = g
    · rw [hg]
      exact ho.mask
    · rw [ho.other g' hg]
      rw [Demoted, ho.other g' hg] at hd
      exact hw.quiet g' hd
  counted g' hd := by
    rw [ho.count]
    split
    · omega
    · rename_i hnd
      by_cases hg : g' = g
      · rw [hg, ho.demoted_iff] at hd
        exact hw.counted g (hd.resolve_right hnd)
      · rw [Demoted, ho.other g' hg] at hd
        exact hw.counted g' hd

/-! #### `Forget` -/

def Whole (h : HostPage) (start top g : ℕ) : Prop := start ≤ g ∧ g + h.size ≤ top

theorem foldl_forgetOne (h : HostPage) (start top : ℕ) (gs : List ℕ) (hgs : gs.Nodup)
    (t : GranuleTable) (g : ℕ) :
    (gs.foldl (forgetOne h start top) t).granules g =
      if g ∈ gs then (t.granules g).bind (forgetEntry h start top g) else t.granules g := by
  induction gs generalizing t with
  | nil => simp
  | cons g' gs ih =>
    obtain ⟨hg', hgs⟩ := nodup_cons.1 hgs
    rw [foldl_cons, ih hgs]
    have hset : (forgetOne h start top t g').granules g =
        if g = g' then (t.granules g).bind (forgetEntry h start top g) else t.granules g := by
      unfold forgetOne setEntry
      by_cases hg : g = g'
      · rw [if_pos hg, hg]
        exact Function.update_self ..
      · rw [if_neg hg]
        exact Function.update_of_ne hg ..
    by_cases hg : g = g'
    · rw [hset, if_pos hg, if_neg (hg ▸ hg'), if_pos (hg ▸ mem_cons_self ..)]
    · rw [hset, if_neg hg]
      simp [hg]

theorem forget_granules (h : HostPage) (t : GranuleTable) (start top g : ℕ) :
    (t.forget h start top).granules g =
      if g ∈ forgotten h start top then (t.granules g).bind (forgetEntry h start top g)
      else t.granules g :=
  foldl_forgetOne h start top _ (nodup_range' h.size h.size_pos) t g

theorem forget_demotedCount (h : HostPage) (t : GranuleTable) (start top : ℕ) :
    (t.forget h start top).demotedCount = t.demotedCount := by
  unfold forget
  induction forgotten h start top generalizing t with
  | nil => rfl
  | cons g gs ih => exact (ih _).trans rfl

theorem forget_entry_of_not_mem {t : GranuleTable} (hg : g ∉ forgotten h start top) :
    (t.forget h start top).entry g = t.entry g := by
  unfold entry
  rw [forget_granules, if_neg hg]

theorem dropPages_zero (h : HostPage) (first last : ℕ) : dropPages h first last 0 = 0 := by
  unfold dropPages
  generalize range' first _ _ = pages
  induction pages with
  | nil => rfl
  | cons p ps ih => simpa using ih

/-- A demoted granule that the range does not cover whole keeps its entry. -/
theorem forget_entry_demoted {t : GranuleTable} (hw : t.Wf) (hd : t.Demoted g)
    (hp : ¬ Whole h start top g) : (t.forget h start top).entry g = t.entry g := by
  by_cases hg : g ∈ forgotten h start top
  · have h0 := hw.quiet g hd
    unfold Demoted at hd
    unfold entry at hd h0 ⊢
    rw [forget_granules, if_pos hg]
    cases he : t.granules g with
    | none => rfl
    | some e =>
      obtain ⟨mask, flips, windowStart, v⟩ := e
      rw [he, Option.getD_some] at hd h0
      subst hd h0
      have hcn : ¬ ((start ≤ g ∧ g + h.size ≤ top) ∨ true = false) := by simpa [Whole] using hp
      rw [Option.bind_some, forgetEntry, if_neg hcn, dropPages_zero]
  · exact forget_entry_of_not_mem hg

/-- What the range erases: the entry is gone, and the granule was not demoted or is covered. -/
theorem forget_entry_cases {t : GranuleTable} (hw : t.Wf) (start top g : ℕ) :
    (t.forget h start top).entry g = t.entry g ∨
      g ∈ forgotten h start top ∧ (¬ t.Demoted g ∨ Whole h start top g) ∧
        (t.forget h start top).entry g = {} := by
  by_cases hg : g ∈ forgotten h start top
  · by_cases hp : t.Demoted g ∧ ¬ Whole h start top g
    · exact .inl (forget_entry_demoted hw hp.1 hp.2)
    · have hp' : ¬ t.Demoted g ∨ Whole h start top g := by
        by_cases hd : t.Demoted g
        · exact .inr (not_not.1 fun hn => hp ⟨hd, hn⟩)
        · exact .inl hd
      refine .inr ⟨hg, hp', ?_⟩
      unfold entry
      rw [forget_granules, if_pos hg]
      cases he : t.granules g with
      | none => rfl
      | some e =>
        have hcn : (start ≤ g ∧ g + h.size ≤ top) ∨ e.validateOnly = false := by
          refine hp'.symm.imp id fun hd => ?_
          simpa [Demoted, entry, he] using hd
        rw [Option.bind_some, forgetEntry, if_pos hcn, Option.getD_none]
  · exact .inl (forget_entry_of_not_mem hg)

theorem Demoted.of_forget {t : GranuleTable} (hw : t.Wf) (hd : (t.forget h start top).Demoted g) :
    t.Demoted g := by
  unfold Demoted at hd ⊢
  obtain he | ⟨-, -, he⟩ := forget_entry_cases hw start top g (h := h)
  · rwa [he] at hd
  · rw [he] at hd
    cases hd

theorem Wf.forget {t : GranuleTable} (hw : t.Wf) (h : HostPage) (start top : ℕ) :
    (t.forget h start top).Wf where
  quiet g hd := by
    obtain he | ⟨-, -, he⟩ := forget_entry_cases hw start top g (h := h)
    · rw [he]
      exact hw.quiet g (hd.of_forget hw)
    · rw [he]
  counted g hd := by
    rw [forget_demotedCount]
    exact hw.counted g (hd.of_forget hw)

end GranuleTable

end FastPPC.Smc
