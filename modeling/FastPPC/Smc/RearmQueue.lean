import FastPPC.Lists.OrderedSet
import FastPPC.Machine.Basic
import FastPPC.Smc.HostGranule

/-!
# Granules that wait to be armed again

Under the `rearm` policy a write fault opens a whole granule and invalidates only the faulting guest
page.  The live code on the other pages of the granule is then unprotected until the next drain
point, and `RearmQueue` of `SMCHostGranule.h` remembers the granule.  A debt is settled when `Take`
hands the granule to the drain, or when all of its bytes are unmapped and `Drop` forgets it.

`Drop` erases the keys from the granule of the start up to the end of the range, so it also forgets
a granule that the range covers only in part.

* `keeps_iff_whole` : a step loses no debt exactly if the two granules in which a dropped range
  starts and ends are not queued, or not cut;
* `debts_kept_iff` : **the same over whole runs**;
* `Run.accounted` : what such runs do with a debt.
-/

namespace FastPPC.Smc

variable {g : ℕ}

/-- `Cover`: the granules of a range, by first address and length. -/
def HostPage.cover (h : HostPage) (start length : ℕ) : ℕ × ℕ :=
  (h.base start, wsub (h.base (wadd (wadd start length) (h.size - 1))) (h.base start))

theorem HostPage.base_base (h : HostPage) (a : ℕ) : h.base (h.base a) = h.base a := by
  rw [base, base, Nat.mul_div_cancel _ h.size_pos]

theorem HostPage.base_mono (h : HostPage) {a b : ℕ} (hab : a ≤ b) : h.base a ≤ h.base b :=
  Nat.mul_le_mul_right _ (Nat.div_le_div_right hab)

/-- Two granules are equal or apart. -/
theorem HostPage.base_eq_of_lt (h : HostPage) {a : ℕ} (hg : h.base g = g) (hle : h.base a ≤ g)
    (hlt : g < h.base a + h.size) : g = h.base a := by
  have hdiv : g / h.size = a / h.size := by
    refine Nat.le_antisymm ?_ ?_
    · rw [base] at hlt
      exact Nat.le_of_lt_succ (Nat.div_lt_of_lt_mul (by rwa [Nat.mul_comm, Nat.succ_mul]))
    · rw [base] at hle
      exact (Nat.le_div_iff_mul_le h.size_pos).2 hle
  rw [← hg, base, base, hdiv]

/-- The guest addresses from `start` up to `top`. -/
structure GuestRange where
  start : ℕ
  top : ℕ
  le : start ≤ top

structure RearmQueue (h : HostPage) where
  pending : OrderedSet ℕ
  /-- The size of `Pending`, read without the lock. -/
  count : ℕ
  counted : count = pending.keys.length
  /-- The keys are the bases of granules. -/
  granules : ∀ g ∈ pending, h.base g = g

variable {r : GuestRange}

namespace RearmQueue

variable {h : HostPage}

instance : EmptyCollection (RearmQueue h) :=
  ⟨∅, 0, rfl, fun g hg => absurd hg (OrderedSet.notMem_empty g)⟩

variable (q : RearmQueue h)

/-- `Add`, with the start of the region that the write fault at `fault` opens. -/
def add (fault : ℕ) : RearmQueue h where
  pending := q.pending.insert (h.cover fault (2 ^ 12)).1
  count := (q.pending.insert (h.cover fault (2 ^ 12)).1).keys.length
  counted := rfl
  granules g hg := by
    rcases OrderedSet.mem_insert.1 hg with rfl | hg
    · exact h.base_base fault
    · exact q.granules g hg

def isEmpty : Bool := q.count = 0

/-- `Take`: the queue afterwards and `Out`. -/
def take : RearmQueue h × List ℕ := (∅, q.pending.keys)

def drop (r : GuestRange) : RearmQueue h :=
  if q.isEmpty then q else
  let pending := q.pending.eraseBetween (h.base r.start) r.top ((h.base_le _).trans r.le)
  { pending := pending
    count := pending.keys.length
    counted := rfl
    granules := fun g hg => q.granules g (OrderedSet.mem_eraseBetween _ |>.1 hg).1 }

theorem mem_drop : g ∈ (q.drop r).pending ↔ g ∈ q.pending ∧ ¬(h.base r.start ≤ g ∧ g < r.top) := by
  unfold drop
  split
  · rename_i hemp
    -- there is nothing to forget
    have hnil : q.pending.keys = [] :=
      List.length_eq_zero_iff.1 (q.counted ▸ of_decide_eq_true hemp)
    simp [OrderedSet.mem_def, hnil]
  · exact OrderedSet.mem_eraseBetween ((h.base_le _).trans r.le)

/-! ### Runs -/

inductive Action
  | add (fault : ℕ)
  | take
  | drop (r : GuestRange)

/-- One call, and the granules that it hands out. -/
def step : Action → RearmQueue h × List ℕ
  | .add fault => (q.add fault, [])
  | .take => q.take
  | .drop r => (q.drop r, [])

variable (h) in
def machine : Machine (RearmQueue h) Action := .ofFun fun q a => (q.step a).1

/-- The call may end the debt of the granule: it hands the granule out or covers all of it. -/
def Settles (g : ℕ) : Action → Prop
  | .drop r => r.start ≤ g ∧ g + h.size ≤ r.top
  | a => g ∈ (q.step a).2

/-- A debt disappears only if the call may end it. -/
def Keeps (a : Action) : Prop :=
  ∀ g ∈ q.pending, g ∉ (q.step a).1.pending → q.Settles g a

/-- A range that is dropped does not start or end inside a queued granule. -/
def Whole : Action → Prop
  | .drop r => (h.base r.start = r.start ∨ h.base r.start ∉ q.pending) ∧
    (h.base r.top = r.top ∨ h.base r.top ∉ q.pending)
  | _ => True

/-- A granule of a dropped range that is not cut by its ends lies in it. -/
theorem Whole.covers {q : RearmQueue h} (hw : q.Whole (.drop r)) (hg : g ∈ q.pending)
    (hle : h.base r.start ≤ g) (hlt : g < r.top) : r.start ≤ g ∧ g + h.size ≤ r.top := by
  have hbs := q.granules g hg
  constructor
  · by_contra hcut
    have hfir : g = h.base r.start :=
      h.base_eq_of_lt hbs hle ((Nat.lt_of_not_le hcut).trans (h.lt_base_add _))
    rcases hw.1 with hali | hfr
    · omega
    · exact hfr (hfir ▸ hg)
  · by_contra hcut
    have hls : h.base r.top = g := by
      have hle : h.base g ≤ h.base r.top := h.base_mono hlt.le
      have hnr : h.base r.top < h.base g + h.size := by
        rw [hbs]
        exact (h.base_le _).trans_lt (Nat.lt_of_not_le hcut)
      rw [h.base_eq_of_lt (h.base_base _) hle hnr, hbs]
    rcases hw.2 with hali | hfr
    · omega
    · exact hfr (hls ▸ hg)

/-- **A call keeps the debts that it may not end exactly if no queued granule is cut.** -/
theorem keeps_iff_whole (a : Action) : q.Keeps a ↔ q.Whole a := by
  cases a with
  | add fault =>
    refine ⟨fun _ => trivial, fun _ g hg hgn => ?_⟩
    exact absurd (OrderedSet.mem_insert.2 (.inr hg)) hgn
  | take => exact ⟨fun _ => trivial, fun _ g hg _ => hg⟩
  | drop r =>
    constructor
    · intro hkee
      refine ⟨or_iff_not_imp_left.2 fun hcut hmem => ?_, or_iff_not_imp_left.2 fun hcut hmem => ?_⟩
      · have hlt := Nat.lt_of_le_of_ne (h.base_le r.start) hcut
        have hset := hkee _ hmem fun hlf =>
          (q.mem_drop.1 hlf).2 ⟨le_rfl, hlt.trans_le r.le⟩
        exact absurd hset.1 (Nat.not_le.2 hlt)
      · have hlt := Nat.lt_of_le_of_ne (h.base_le r.top) hcut
        have hset := hkee _ hmem fun hlf =>
          (q.mem_drop.1 hlf).2 ⟨h.base_mono r.le, hlt⟩
        exact absurd hset.2 (Nat.not_le.2 (h.lt_base_add _))
    · intro hwho g hg hgn
      have hdro : h.base r.start ≤ g ∧ g < r.top := by
        by_contra hkp
        exact hgn (q.mem_drop.2 ⟨hg, hkp⟩)
      exact hwho.covers hg hdro.1 hdro.2

/-- **In a run no debt is lost exactly if no call drops a range that starts or ends inside a queued
granule.** -/
theorem debts_kept_iff {as : List Action} {q' : RearmQueue h} :
    (machine h).Run Keeps ∅ as q' ↔ (machine h).Run Whole ∅ as q' :=
  ⟨fun hrun => hrun.mono fun q a => (q.keeps_iff_whole a).1,
    fun hrun => hrun.mono fun q a => (q.keeps_iff_whole a).2⟩

/-- In such a run a debt is still queued, or some call could end it. -/
theorem Run.accounted {as : List Action} {q q' : RearmQueue h}
    (hrun : (machine h).Run Whole q as q') (hg : g ∈ q.pending) :
    g ∈ q'.pending ∨ ∃ bs a cs q₁, as = bs ++ a :: cs ∧ (machine h).Run Whole q bs q₁ ∧
      q₁.Settles g a := by
  induction hrun with
  | nil => exact .inl hg
  | @snoc s s' a as hrun hwho hst ih =>
    rcases ih with hmem | ⟨bs, b, cs, q₁, rfl, hbef, hset⟩
    · by_cases hlf : g ∈ s'.pending
      · exact .inl hlf
      · obtain rfl : (s.step a).1 = s' := hst
        exact .inr ⟨as, a, [], s, rfl, hrun, (s.keeps_iff_whole a).2 hwho g hmem hlf⟩
    · exact .inr ⟨bs, b, cs ++ [a], q₁, by simp, hbef, hset⟩

/-- A host with 64 KiB pages. -/
def sampleHost : HostPage := ⟨16, Nat.le_add_left 2 14, Nat.le_add_left 16 16⟩

/-- The drain point that settles a debt. -/
theorem Run.accounted_take :
    let q := (∅ : RearmQueue sampleHost).add 0x13000
    0x10000 ∈ q.take.1.pending ∨ ∃ bs a cs q₁, [Action.take] = bs ++ a :: cs ∧
      (machine sampleHost).Run Whole q bs q₁ ∧ q₁.Settles 0x10000 a :=
  Run.accounted ((Machine.Run.nil _).snoc trivial rfl) (by decide +kernel)

/-- One guest page of a granule with a debt, mapped anew. -/
def cutRange : GuestRange := ⟨0x11000, 0x12000, by decide⟩

/-- **The debt of the other pages is lost.** -/
theorem debt_lost : 0x10000 ∈ ((∅ : RearmQueue sampleHost).add 0x13000).pending ∧
      0x10000 ∉ (((∅ : RearmQueue sampleHost).add 0x13000).drop cutRange).pending ∧
      ¬((∅ : RearmQueue sampleHost).add 0x13000).Settles 0x10000 (.drop cutRange) := by
  refine ⟨by decide +kernel, by decide +kernel, fun hset => ?_⟩
  exact absurd hset.1 (by decide)

end RearmQueue

end FastPPC.Smc
