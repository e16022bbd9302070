import FastPPC.Arith.Word
import FastPPC.Lists.Partition
import FastPPC.Machine.Basic

/-!
# The guard of host-owned ranges

A 64-bit guest shares its address space with the emulator.  `HostOwnedRanges` records the mappings
of the emulator and refuses requests of the guest that would replace one.  The ranges are kept
sorted; those that overlap are merged, those that touch only if both or neither may be written.

* `coalesce` : the loop of `SortAndCoalesceLocked` over the sorted ranges;
* `findOverlap` : the query, in 64-bit arithmetic;
* `Represents` : what the table keeps of the recorded ranges;
* `host_guard_iff` : for which requests the answer is exact.
-/

namespace FastPPC.HostOwned

open List

/-- `HostOwnedRanges::Range`; `stop` is `End`. -/
structure Range where
  base : ℕ
  stop : ℕ
  mayWrite : Bool
  deriving DecidableEq

namespace Range

def Holds (r : Range) (a : ℕ) : Prop := r.base ≤ a ∧ a < r.stop

/-- The range has an address from `start` up to `stop`. -/
def Meets (r : Range) (start stop : ℕ) : Prop := r.base < stop ∧ start < r.stop

end Range

/-! ### Recording -/

/-- The page size of the host, a power of two. -/
structure HostPage where
  size : ℕ
  pos : 0 < size
  dvd : size ∣ word

variable (page : HostPage)

def HostPage.alignDown (x : ℕ) : ℕ := x / page.size * page.size

def HostPage.alignUp (x : ℕ) : ℕ := page.alignDown (wadd x (page.size - 1))

def addLocked (ranges : List Range) (r : Range) : List Range :=
  if r.stop ≤ r.base then ranges else ranges ++ [r]

/-- One round of the loop; the output so far has its last range first. -/
def coalesceStep (out : List Range) (r : Range) : List Range :=
  match out with
  | [] => [r]
  | last :: rest =>
    if r.base < last.stop ∨ (r.base = last.stop ∧ r.mayWrite = last.mayWrite) then
      { last with
        stop := max last.stop r.stop
        mayWrite := last.mayWrite && r.mayWrite } :: rest
    else r :: last :: rest

/-- The loop of `SortAndCoalesceLocked`. -/
def coalesce (sorted : List Range) : List Range := (sorted.foldl coalesceStep []).reverse

/-! ### The query -/

/-- The two candidates of the search: the last range that starts at or before `start`, and the one
behind it. -/
def search (ranges : List Range) (start stop : ℕ) : Range :=
  let it := partitionPoint (fun r => !decide (start < r.base)) ranges
  match (ranges.take it).getLast?.filter fun r => decide (start < r.stop ∧ r.base < stop) with
  | some r => r
  | none =>
    match (ranges.drop it).head?.filter fun r => decide (r.base < stop) with
    | some r => r
    | none => ⟨0, 0, true⟩

/-- `FindOverlap`; an answer with `stop = 0` is no hit. -/
def findOverlap (ranges : List Range) (base size : ℕ) : Range :=
  if ranges.length = 0 ∨ size = 0 then ⟨0, 0, true⟩
  else
    let start := page.alignDown base
    let stop := page.alignUp (wadd base size)
    if stop ≤ start then ⟨start, word - 1, true⟩ else search ranges start stop

/-! ### What the table keeps -/

/-- The table is sorted and disjoint, has the addresses of the recorded ranges, and no range that
may not be written is in one that may. -/
structure Represents (table recorded : List Range) : Prop where
  nonempty : ∀ o ∈ table, o.base < o.stop
  sorted : table.Pairwise fun a b => a.stop ≤ b.base
  kept : ∀ r ∈ recorded, ∃ o ∈ table, o.base ≤ r.base ∧ r.stop ≤ o.stop ∧
    (r.mayWrite = false → o.mayWrite = false)
  covered : ∀ o ∈ table, ∀ a, o.Holds a → ∃ r ∈ recorded, r.Holds a

/-- The same for the output of the loop, whose last range comes first. -/
structure Coalesced (out done : List Range) : Prop where
  nonempty : ∀ o ∈ out, o.base < o.stop
  sorted : out.Pairwise fun b a => a.stop ≤ b.base
  kept : ∀ r ∈ done, ∃ o ∈ out, o.base ≤ r.base ∧ r.stop ≤ o.stop ∧
    (r.mayWrite = false → o.mayWrite = false)
  covered : ∀ o ∈ out, ∀ a, o.Holds a → ∃ r ∈ done, r.Holds a
  base : ∀ o ∈ out, ∃ r ∈ done, r.base = o.base

namespace Coalesced

variable {out done : List Range} {r : Range}

theorem nil : Coalesced [] [] := ⟨nofun, .nil, nofun, nofun, nofun⟩

/-- A range apart from the last one. -/
theorem push (h : Coalesced out done) (hr : r.base < r.stop) (hout : ∀ o ∈ out, o.stop ≤ r.base) :
    Coalesced (r :: out) (done ++ [r]) where
  nonempty := forall_mem_cons.2 ⟨hr, h.nonempty⟩
  sorted := pairwise_cons.2 ⟨hout, h.sorted⟩
  kept := by
    intro p hp
    rcases mem_append.1 hp with hp | hp
    · obtain ⟨o, ho, hin⟩ := h.kept p hp
      exact ⟨o, mem_cons_of_mem _ ho, hin⟩
    · exact ⟨r, mem_cons_self, by rw [mem_singleton.1 hp]; exact ⟨le_rfl, le_rfl, id⟩⟩
  covered := by
    intro o ho a ha
    rcases mem_cons.1 ho with rfl | ho
    · exact ⟨o, mem_append_right _ (mem_singleton_self o), ha⟩
    · obtain ⟨p, hp, hpa⟩ := h.covered o ho a ha
      exact ⟨p, mem_append_left _ hp, hpa⟩
  base := by
    intro o ho
    rcases mem_cons.1 ho with rfl | ho
    · exact ⟨o, mem_append_right _ (mem_singleton_self o), rfl⟩
    · obtain ⟨p, hp, hpo⟩ := h.base o ho
      exact ⟨p, mem_append_left _ hp, hpo⟩

/-- A range that overlaps the last one, or touches it. -/
theorem merge {last : Range} {rest : List Range} (h : Coalesced (last :: rest) done)
    (hbs : last.base ≤ r.base) (htou : r.base ≤ last.stop) :
    Coalesced ({ last with
      stop := max last.stop r.stop
      mayWrite := last.mayWrite && r.mayWrite } :: rest) (done ++ [r]) where
  nonempty := by
    obtain ⟨hls, hrs⟩ := forall_mem_cons.1 h.nonempty
    exact forall_mem_cons.2 ⟨hls.trans_le (le_max_left _ _), hrs⟩
  sorted := by
    obtain ⟨hls, hrs⟩ := pairwise_cons.1 h.sorted
    exact pairwise_cons.2 ⟨hls, hrs⟩
  kept := by
    intro p hp
    rcases mem_append.1 hp with hp | hp
    · obtain ⟨o, ho, hlo, hhi, hw⟩ := h.kept p hp
      rcases mem_cons.1 ho with rfl | ho
      · refine ⟨_, mem_cons_self, hlo, hhi.trans (le_max_left _ _), fun hpw => ?_⟩
        exact Bool.and_eq_false_iff.2 (.inl (hw hpw))
      · exact ⟨o, mem_cons_of_mem _ ho, hlo, hhi, hw⟩
    · rw [mem_singleton.1 hp]
      exact ⟨_, mem_cons_self, hbs, le_max_right _ _, fun hw =>
        Bool.and_eq_false_iff.2 (.inr hw)⟩
  covered := by
    intro o ho a ha
    rcases mem_cons.1 ho with rfl | ho
    · obtain ⟨hlo, hhi⟩ := ha
      rcases lt_or_ge a last.stop with hlt | hge
      · obtain ⟨p, hp, hpa⟩ := h.covered last mem_cons_self a ⟨hlo, hlt⟩
        exact ⟨p, mem_append_left _ hp, hpa⟩
      · have hlt : a < r.stop := (lt_max_iff.1 hhi).resolve_left (not_lt.2 hge)
        exact ⟨r, mem_append_right _ (mem_singleton_self r), htou.trans hge, hlt⟩
    · obtain ⟨p, hp, hpa⟩ := h.covered o (mem_cons_of_mem _ ho) a ha
      exact ⟨p, mem_append_left _ hp, hpa⟩
  base := by
    intro o ho
    rcases mem_cons.1 ho with rfl | ho
    · obtain ⟨p, hp, hpo⟩ := h.base last mem_cons_self
      exact ⟨p, mem_append_left _ hp, hpo⟩
    · obtain ⟨p, hp, hpo⟩ := h.base o (mem_cons_of_mem _ ho)
      exact ⟨p, mem_append_left _ hp, hpo⟩

theorem step (h : Coalesced out done) (hr : r.base < r.stop) (hdn : ∀ p ∈ done, p.base ≤ r.base) :
    Coalesced (coalesceStep out r) (done ++ [r]) := by
  cases out with
  | nil => exact h.push hr nofun
  | cons last rest =>
    obtain ⟨p, hp, hpba⟩ := h.base last mem_cons_self
    have hbs : last.base ≤ r.base := hpba ▸ hdn p hp
    rw [coalesceStep]
    split
    next hmer =>
      refine h.merge hbs ?_
      rcases hmer with hlt | ⟨heq, -⟩
      · exact hlt.le
      · exact heq.le
    next hapa =>
      have hls : last.stop ≤ r.base := not_lt.1 fun hlt => hapa (.inl hlt)
      obtain ⟨hrs, -⟩ := pairwise_cons.1 h.sorted
      refine h.push hr (forall_mem_cons.2 ⟨hls, fun o ho => ?_⟩)
      exact (hrs o ho).trans ((h.nonempty last mem_cons_self).le.trans hls)

theorem foldl {l : List Range} (h : Coalesced out done) (hne : ∀ r ∈ l, r.base < r.stop)
    (hsor : l.Pairwise fun a b => a.base ≤ b.base) (hdn : ∀ p ∈ done, ∀ r ∈ l, p.base ≤ r.base) :
    Coalesced (l.foldl coalesceStep out) (done ++ l) := by
  induction l generalizing out done with
  | nil => rwa [append_nil]
  | cons r l ih =>
    obtain ⟨hr, hl⟩ := forall_mem_cons.1 hne
    obtain ⟨hrl, hs⟩ := pairwise_cons.1 hsor
    rw [← singleton_append, ← append_assoc]
    refine ih (h.step hr fun p hp => hdn p hp r mem_cons_self) hl hs fun p hp q hq => ?_
    rcases mem_append.1 hp with hp | hp
    · exact hdn p hp q (mem_cons_of_mem _ hq)
    · rw [mem_singleton.1 hp]
      exact hrl q hq

end Coalesced

/-- **Coalescing** keeps what the sorted ranges say. -/
theorem represents_coalesce {sorted : List Range} (hne : ∀ r ∈ sorted, r.base < r.stop)
    (hsor : sorted.Pairwise fun a b => a.base ≤ b.base) :
    Represents (coalesce sorted) sorted := by
  have h : Coalesced (sorted.foldl coalesceStep []) sorted :=
    Coalesced.nil.foldl hne hsor nofun
  refine ⟨fun o ho => h.nonempty o (mem_reverse.1 ho), pairwise_reverse.2 h.sorted, ?_,
    fun o ho => h.covered o (mem_reverse.1 ho)⟩
  intro r hr
  obtain ⟨o, ho, hin⟩ := h.kept r hr
  exact ⟨o, mem_reverse.2 ho, hin⟩

theorem mem_foldl_addLocked {ranges batch : List Range} {r : Range} :
    r ∈ batch.foldl addLocked ranges ↔ r ∈ ranges ∨ r ∈ batch ∧ r.base < r.stop := by
  induction batch generalizing ranges with
  | nil => simp
  | cons b batch ih =>
    rw [foldl_cons, ih, addLocked]
    split
    next hle =>
      rw [mem_cons]
      constructor
      · exact Or.imp id fun ⟨hb, hlt⟩ => ⟨.inr hb, hlt⟩
      · rintro (hr | ⟨rfl | hb, hlt⟩)
        · exact .inl hr
        · exact absurd hlt (not_lt.2 hle)
        · exact .inr ⟨hb, hlt⟩
    next hgt =>
      rw [mem_append, mem_singleton, mem_cons]
      constructor
      · rintro ((hr | rfl) | ⟨hb, hlt⟩)
        · exact .inl hr
        · exact .inr ⟨.inl rfl, not_le.1 hgt⟩
        · exact .inr ⟨.inr hb, hlt⟩
      · rintro (hr | ⟨rfl | hb, hlt⟩)
        · exact .inl (.inl hr)
        · exact .inl (.inr rfl)
        · exact .inr ⟨hb, hlt⟩

theorem Represents.update {table recorded batch sorted : List Range}
    (h : Represents table recorded) (hpr : sorted.Perm (batch.foldl addLocked table))
    (hsor : sorted.Pairwise fun a b => a.base ≤ b.base) :
    Represents (coalesce sorted) (recorded ++ batch.filter fun r => r.base < r.stop) := by
  have hmem : ∀ {r}, r ∈ sorted ↔ r ∈ table ∨ r ∈ batch ∧ r.base < r.stop :=
    hpr.mem_iff.trans mem_foldl_addLocked
  have hbat : ∀ {r}, r ∈ batch.filter (fun r => r.base < r.stop) ↔ r ∈ batch ∧ r.base < r.stop := by
    intro r
    rw [mem_filter, decide_eq_true_eq]
  have hne : ∀ r ∈ sorted, r.base < r.stop := fun r hr =>
    (hmem.1 hr).elim (h.nonempty r) And.right
  have hnew := represents_coalesce hne hsor
  refine ⟨hnew.nonempty, hnew.sorted, fun r hr => ?_, fun o ho a ha => ?_⟩
  · rcases mem_append.1 hr with hr | hr
    · obtain ⟨o, ho, hlo, hhi, hw⟩ := h.kept r hr
      obtain ⟨o', ho', hlo', hhi', hw'⟩ := hnew.kept o (hmem.2 (.inl ho))
      exact ⟨o', ho', hlo'.trans hlo, hhi.trans hhi', hw' ∘ hw⟩
    · exact hnew.kept r (hmem.2 (.inr (hbat.1 hr)))
  · obtain ⟨r, hr, hra⟩ := hnew.covered o ho a ha
    rcases hmem.1 hr with hr | hr
    · obtain ⟨p, hp, hpa⟩ := h.covered r hr a hra
      exact ⟨p, mem_append_left _ hp, hpa⟩
    · exact ⟨r, mem_append_right _ (hbat.2 hr), hra⟩

/-! ### The search -/

namespace Represents

variable {table recorded : List Range} {start stop : ℕ}

/-- **The search** finds a range of the table that meets the query if there is one. -/
theorem search_spec (h : Represents table recorded) (hlt : start < stop) :
    (search table start stop ∈ table ∧ (search table start stop).Meets start stop) ∨
      (search table start stop = ⟨0, 0, true⟩ ∧ ∀ o ∈ table, ¬o.Meets start stop) := by
  have hpr : PartitionedBy (fun r : Range => !decide (start < r.base)) table := by
    refine h.sorted.imp_of_mem fun {a b} ha _ hle hp => ?_
    rw [Bool.not_eq_true', decide_eq_false_iff_not, not_lt] at hp ⊢
    exact ((h.nonempty a ha).le.trans hle).trans hp
  have hbel := fun o ho => mem_take_partitionPoint hpr (x := o) ho
  have habo := fun o ho => mem_drop_partitionPoint hpr (x := o) ho
  simp only [Bool.not_eq_true', Bool.not_eq_false', decide_eq_true_eq, decide_eq_false_iff_not,
    not_lt] at hbel habo
  rw [search]
  generalize partitionPoint (fun r : Range => !decide (start < r.base)) table = it at *
  have hsor := h.sorted
  rw [← take_append_drop it table] at hsor
  obtain ⟨hs₁, hs₂, -⟩ := pairwise_append.1 hsor
  split
  next r hr =>
    obtain ⟨hls, hmee⟩ := Option.filter_eq_some_iff.1 hr
    obtain ⟨hst, hbs⟩ := of_decide_eq_true hmee
    exact .inl ⟨mem_of_mem_take (mem_of_mem_getLast? hls), hbs, hst⟩
  next hnn =>
    -- no range that starts at or before `start` reaches beyond it
    have hfir : ∀ o ∈ table.take it, o.stop ≤ start := by
      intro o ho
      cases hls : (table.take it).getLast? with
      | none => rw [List.getLast?_eq_none_iff.1 hls] at ho; cases ho
      | some r =>
        obtain ⟨init, hin⟩ := List.getLast?_eq_some_iff.1 hls
        have hr : r ∈ table.take it := mem_of_mem_getLast? hls
        have hrst : r.stop ≤ start := by
          rw [hls, Option.filter_some, ite_eq_right_iff] at hnn
          by_contra hgt
          exact absurd (hnn (decide_eq_true ⟨not_le.1 hgt, (hbel r hr).trans_lt hlt⟩)) nofun
        rw [hin] at ho hs₁
        rcases mem_append.1 ho with ho | ho
        · have hle := (pairwise_append.1 hs₁).2.2 o ho r (mem_singleton_self r)
          exact hle.trans ((h.nonempty r (mem_of_mem_take hr)).le.trans hrst)
        · rw [mem_singleton.1 ho]
          exact hrst
    split
    next r hr =>
      obtain ⟨hhd, hbs⟩ := Option.filter_eq_some_iff.1 hr
      have hr : r ∈ table.drop it := mem_of_mem_head? hhd
      have hrt := mem_of_mem_drop hr
      exact .inl ⟨hrt, of_decide_eq_true hbs, (habo r hr).trans (h.nonempty r hrt)⟩
    next hnn' =>
      refine .inr ⟨rfl, fun o ho hmee => ?_⟩
      rw [← take_append_drop it table] at ho
      rcases mem_append.1 ho with ho | ho
      · exact absurd hmee.2 (not_lt.2 (hfir o ho))
      · cases hhd : (table.drop it).head? with
        | none => rw [List.head?_eq_none_iff.1 hhd] at ho; cases ho
        | some r =>
          obtain ⟨rest, hrs⟩ := List.head?_eq_some_iff.1 hhd
          have hrba : stop ≤ r.base := by
            rw [hhd, Option.filter_some, ite_eq_right_iff] at hnn'
            by_contra hgt
            exact absurd (hnn' (decide_eq_true (not_le.1 hgt))) nofun
          have hr : r ∈ table := mem_of_mem_drop (mem_of_mem_head? hhd)
          rw [hrs] at ho hs₂
          rcases mem_cons.1 ho with rfl | ho
          · exact absurd hmee.1 (not_lt.2 hrba)
          · have hle := (pairwise_cons.1 hs₂).1 o ho
            exact absurd hmee.1 (not_lt.2 (hrba.trans ((h.nonempty r hr).le.trans hle)))

/-- The table meets the same queries as the recorded ranges. -/
theorem meets_iff (h : Represents table recorded) (hlt : start < stop) :
    (∃ o ∈ table, o.Meets start stop) ↔ ∃ r ∈ recorded, r.Meets start stop := by
  constructor
  · rintro ⟨o, ho, hlo, hhi⟩
    obtain ⟨r, hr, hra⟩ := h.covered o ho (max o.base start)
      ⟨le_max_left _ _, max_lt (h.nonempty o ho) hhi⟩
    exact ⟨r, hr, hra.1.trans_lt (max_lt hlo hlt), (le_max_right _ _).trans_lt hra.2⟩
  · rintro ⟨r, hr, hlo, hhi⟩
    obtain ⟨o, ho, hbs, hst, -⟩ := h.kept r hr
    exact ⟨o, ho, hbs.trans_lt hlo, hhi.trans_le hst⟩

end Represents

/-! ### Rounding -/

namespace HostPage

variable (page : HostPage)

theorem alignDown_le (x : ℕ) : page.alignDown x ≤ x := Nat.div_mul_le_self _ _

theorem lt_alignDown_add (x : ℕ) : x < page.alignDown x + page.size :=
  Nat.lt_div_mul_add page.pos

theorem dvd_alignDown (x : ℕ) : page.size ∣ page.alignDown x := Nat.dvd_mul_left _ _

variable {page}

/-- Multiples of the page size are a page apart. -/
theorem add_le_of_dvd {m n : ℕ} (hm : page.size ∣ m) (hn : page.size ∣ n) (hlt : m < n) :
    m + page.size ≤ n := by
  have hle := Nat.le_of_dvd (Nat.sub_pos_of_lt hlt) (Nat.dvd_sub hn hm)
  omega

theorem alignDown_eq {m x : ℕ} (hm : page.size ∣ m) (hle : m ≤ x) (hlt : x < m + page.size) :
    page.alignDown x = m := by
  have hge := page.lt_alignDown_add x
  have hle' := page.alignDown_le x
  rcases Nat.lt_trichotomy (page.alignDown x) m with h | h | h
  · have := add_le_of_dvd (page.dvd_alignDown x) hm h
    omega
  · exact h
  · have := add_le_of_dvd hm (page.dvd_alignDown x) h
    omega

variable (page)

/-- The start and the end of a request, rounded to host pages without wrapping. -/
def start (base : ℕ) : ℕ := page.alignDown base

def roundUp (x : ℕ) : ℕ := page.alignDown (x + (page.size - 1))

theorem le_roundUp (x : ℕ) : x ≤ page.roundUp x := by
  have := page.lt_alignDown_add (x + (page.size - 1))
  rw [roundUp]
  omega

theorem roundUp_lt (x : ℕ) : page.roundUp x < x + page.size := by
  have := page.alignDown_le (x + (page.size - 1))
  have := page.pos
  rw [roundUp]
  omega

variable {page} {base size : ℕ}

/-- Below the top of the address space nothing wraps. -/
theorem alignUp_of_lt (h : page.roundUp (base + size) < word) :
    page.alignUp (wadd base size) = page.roundUp (base + size) := by
  have hle := page.le_roundUp (base + size)
  have hnx := add_le_of_dvd (page.dvd_alignDown _) page.dvd h
  have hlt := page.lt_alignDown_add (base + size + (page.size - 1))
  have hsum : base + size + (page.size - 1) < word := hlt.trans_le hnx
  rw [alignUp, wadd_eq (hle.trans_lt h), wadd_eq hsum, roundUp]

/-- A request that ends in the last page wraps to zero. -/
theorem alignUp_of_eq (h : page.roundUp (base + size) = word) :
    page.alignUp (wadd base size) = 0 := by
  have hle := page.le_roundUp (base + size)
  have hlt := page.roundUp_lt (base + size)
  refine alignDown_eq (Nat.dvd_zero page.size) (Nat.zero_le _) ?_
  unfold wadd
  rcases Nat.lt_or_ge (base + size) word with hsum | hsum
  · rw [Nat.mod_eq_of_lt hsum]
    have hsub : (base + size + (page.size - 1)) % word = base + size + (page.size - 1) - word := by
      have hpg := Nat.le_of_dvd (by decide) page.dvd
      rw [Nat.mod_eq_sub_mod (by omega), Nat.mod_eq_of_lt (by omega)]
    omega
  · have hsum' : base + size = word := by omega
    have hpg := Nat.le_of_dvd (by decide) page.dvd
    rw [hsum', Nat.mod_self, Nat.zero_add, Nat.mod_eq_of_lt (by omega)]
    omega

/-- A request that runs past the top: what is left of its end lies at or below its start, or its
start is in the last page, or both are in one page. -/
theorem alignUp_of_gt (hbs : base < word) (hsz : size < word)
    (h : word < page.roundUp (base + size)) :
    word < base + size ∧
      ((base + size - word ≤ page.start base ∨ page.start base + page.size = word) ∧
          page.alignUp (wadd base size) ≤ page.start base ∨
        ¬(base + size - word ≤ page.start base ∨ page.start base + page.size = word) ∧
          page.alignUp (wadd base size) = page.start base + page.size) := by
  have hnx := add_le_of_dvd page.dvd (page.dvd_alignDown _) h
  have hrou := page.roundUp_lt (base + size)
  have hsum : word < base + size := by
    rw [roundUp] at hrou
    omega
  have hsta := page.alignDown_le base
  have hsta' := page.lt_alignDown_add base
  have hdvd := page.dvd_alignDown base
  have hls := add_le_of_dvd hdvd page.dvd (hsta.trans_lt hbs)
  have hwd : wadd base size = base + size - word := by
    unfold wadd
    rw [Nat.mod_eq_sub_mod hsum.le, Nat.mod_eq_of_lt (by omega)]
  refine ⟨hsum, ?_⟩
  rw [start, alignUp, hwd]
  generalize hrs : base + size - word = rest
  generalize page.alignDown base = start at *
  by_cases hle : rest ≤ start
  · refine .inl ⟨.inl hle, ?_⟩
    rw [wadd_eq (by omega)]
    by_contra hgt
    have := add_le_of_dvd hdvd (page.dvd_alignDown _) (Nat.not_le.1 hgt)
    have := page.alignDown_le (rest + (page.size - 1))
    omega
  · by_cases htop : start + page.size = word
    · refine .inl ⟨.inr htop, ?_⟩
      have hsub : wadd rest (page.size - 1) = rest + (page.size - 1) - word := by
        unfold wadd
        rw [Nat.mod_eq_sub_mod (by omega), Nat.mod_eq_of_lt (by omega)]
      rw [hsub, alignDown_eq (Nat.dvd_zero page.size) (Nat.zero_le _) (by omega)]
      exact Nat.zero_le _
    · refine .inr ⟨not_or.2 ⟨hle, htop⟩, ?_⟩
      have htop' := add_le_of_dvd ((Nat.dvd_add_right hdvd).2 (Nat.dvd_refl _)) page.dvd
        (lt_of_le_of_ne hls htop)
      rw [wadd_eq (by omega)]
      exact alignDown_eq ((Nat.dvd_add_right hdvd).2 (Nat.dvd_refl _)) (by omega) (by omega)

end HostPage

/-! ### The guard -/

/-- The recorded ranges and the table. -/
structure Guard where
  ranges : List Range
  /-- Everything that was recorded.  No function reads it. -/
  recorded : List Range

inductive Action
  /-- `SnapshotSelf` records these mappings. -/
  | snapshot (batch : List Range)
  /-- `HostOwnedRanges::Add` -/
  | add (base size : ℕ)

/-- The ranges an action gives to `AddLocked`. -/
def Action.batch (page : HostPage) : Action → List Range
  | .snapshot batch => batch
  | .add base size =>
    if size = 0 then [] else [⟨page.alignDown base, page.alignUp (wadd base size), true⟩]

/-- `std::sort` may leave ranges with one base in any order. -/
def machine : Machine Guard Action where
  step s a s' := ∃ sorted : List Range, sorted.Perm ((a.batch page).foldl addLocked s.ranges) ∧
    sorted.Pairwise (fun r r' => r.base ≤ r'.base) ∧
    s' = ⟨coalesce sorted, s.recorded ++ (a.batch page).filter fun r => r.base < r.stop⟩

def Guard.start : Guard := ⟨[], []⟩

/-- Every recorded address of a request is recorded as not writable. -/
def OnlyReadable (recorded : List Range) (start stop : ℕ) : Prop :=
  ∀ a, start ≤ a → a < stop → (∃ r ∈ recorded, r.Holds a) →
    ∃ r ∈ recorded, r.mayWrite = false ∧ r.Holds a

/-- The answer to a request: a hit exactly if the rounded request meets a recorded range or runs
past the top of the address space, and `mayWrite = false` if it hits nothing that may be written. -/
structure ExactAnswer (page : HostPage) (recorded : List Range) (base size : ℕ) (hit : Range) :
    Prop where
  hit_iff : hit.stop ≠ 0 ↔
    (∃ r ∈ recorded, r.Meets (page.start base) (page.roundUp (base + size))) ∨
      word < page.roundUp (base + size)
  mayWrite : (∃ r ∈ recorded, r.Meets (page.start base) (page.roundUp (base + size))) →
    page.roundUp (base + size) ≤ word →
    OnlyReadable recorded (page.start base) (page.roundUp (base + size)) → hit.mayWrite = false

/-- The requests that are answered exactly.  In the last page of the address space every request is
refused as if it ran past the top.  One that does so is not noticed if nothing is recorded, or if
what is left of its end lies in the page of its start, above that page's first byte. -/
def AnsweredExactly (recorded : List Range) (base size : ℕ) : Prop :=
  page.roundUp (base + size) < word ∨
    (page.roundUp (base + size) = word ∧ (recorded = [] ∨
      (∃ r ∈ recorded, r.Meets (page.start base) word) ∧
        ¬OnlyReadable recorded (page.start base) word)) ∨
    (word < page.roundUp (base + size) ∧ recorded ≠ [] ∧
      (base + size - word ≤ page.start base ∨ page.start base + page.size = word ∨
        ∃ r ∈ recorded, r.Meets (page.start base) (page.start base + page.size)))

theorem Represents.start : Represents Guard.start.ranges Guard.start.recorded :=
  ⟨nofun, .nil, nofun, nofun⟩

section Answer

variable {table recorded : List Range} {page : HostPage} {base size start stop : ℕ}

section

variable (h : Represents table recorded)
include h

/-- Two ranges of the table with a common address are one. -/
theorem Represents.eq_of_holds {o o' : Range} (ho : o ∈ table) (ho' : o' ∈ table) {a : ℕ}
    (ha : o.Holds a) (ha' : o'.Holds a) : o = o' := by
  by_contra hne
  have hsy : Std.Symm fun r r' : Range => r.stop ≤ r'.base ∨ r'.stop ≤ r.base :=
    ⟨fun _ _ => Or.symm⟩
  have hpr : table.Pairwise fun r r' => r.stop ≤ r'.base ∨ r'.stop ≤ r.base :=
    h.sorted.imp fun hle => .inl hle
  obtain ⟨hlo, hhi⟩ := ha
  obtain ⟨hlo', hhi'⟩ := ha'
  rcases hpr.forall ho ho' hne with hle | hle <;> omega

/-- A range of the table that meets a request for addresses none of which may be written. -/
theorem Represents.mayWrite_eq_false {o : Range} (ho : o ∈ table) (hlt : start < stop)
    (hmee : o.Meets start stop) (hrd : OnlyReadable recorded start stop) :
    o.mayWrite = false := by
  have ha : o.Holds (max o.base start) := ⟨le_max_left _ _, max_lt (h.nonempty o ho) hmee.2⟩
  obtain ⟨r, hr, hw, hra⟩ := hrd _ (le_max_right _ _) (max_lt hmee.1 hlt) (h.covered o ho _ ha)
  obtain ⟨o', ho', hlo, hhi, hw'⟩ := h.kept r hr
  rw [h.eq_of_holds ho ho' ha ⟨hlo.trans hra.1, hra.2.trans_le hhi⟩]
  exact hw' hw

theorem Represents.eq_nil_iff : table = [] ↔ recorded = [] := by
  constructor
  · rintro rfl
    refine eq_nil_iff_forall_not_mem.2 fun r hr => ?_
    obtain ⟨o, ho, -⟩ := h.kept r hr
    cases ho
  · rintro rfl
    refine eq_nil_iff_forall_not_mem.2 fun o ho => ?_
    obtain ⟨r, hr, -⟩ := h.covered o ho o.base ⟨le_rfl, h.nonempty o ho⟩
    cases hr

theorem Represents.search_hit_iff (hlt : start < stop) :
    (search table start stop).stop ≠ 0 ↔ ∃ r ∈ recorded, r.Meets start stop := by
  rw [← h.meets_iff hlt]
  rcases h.search_spec hlt with ⟨hmem, hmee⟩ | ⟨heq, hnn⟩
  · have hpos := h.nonempty _ hmem
    exact ⟨fun _ => ⟨_, hmem, hmee⟩, fun _ => by omega⟩
  · rw [heq]
    exact ⟨fun hne => absurd rfl hne, fun ⟨o, ho, hmee⟩ => absurd hmee (hnn o ho)⟩

end

theorem start_lt_roundUp (page : HostPage) (base : ℕ) (hpos : size ≠ 0) :
    page.start base < page.roundUp (base + size) := by
  have hle := page.alignDown_le base
  have hge := page.le_roundUp (base + size)
  rw [HostPage.start]
  omega

theorem exactAnswer_iff (h : Represents table recorded) (hbs : base < word) (hsz : size < word)
    (hpos : size ≠ 0) :
    ExactAnswer page recorded base size (findOverlap page table base size) ↔
      AnsweredExactly page recorded base size := by
  have hlt := start_lt_roundUp page base hpos
  by_cases hnil : recorded = []
  · -- nothing is recorded, and there is never a hit
    have hfn : findOverlap page table base size = ⟨0, 0, true⟩ := by
      rw [h.eq_nil_iff.2 hnil]
      exact if_pos (.inl rfl)
    have hno : ¬∃ r ∈ recorded, r.Meets (page.start base) (page.roundUp (base + size)) := by
      rintro ⟨r, hr, -⟩
      rw [hnil] at hr
      cases hr
    rw [hfn]
    constructor
    · intro hexa
      have hle : ¬word < page.roundUp (base + size) := fun hgt => hexa.hit_iff.2 (.inr hgt) rfl
      rcases Nat.lt_or_eq_of_le (Nat.not_lt.1 hle) with hE | hE
      · exact .inl hE
      · exact .inr (.inl ⟨hE, .inl hnil⟩)
    · intro hans
      have hle : ¬word < page.roundUp (base + size) := by
        rcases hans with hE | ⟨hE, -⟩ | ⟨-, hne, -⟩
        · exact Nat.not_lt.2 hE.le
        · exact Nat.not_lt.2 hE.le
        · exact absurd hnil hne
      exact ⟨⟨fun hne => absurd rfl hne, fun hor => absurd hor (not_or.2 ⟨hno, hle⟩)⟩,
        fun hmee => absurd hmee hno⟩
  · have htab : ¬(table.length = 0 ∨ size = 0) := by
      rintro (hzr | hzr)
      · exact hnil (h.eq_nil_iff.1 (length_eq_zero_iff.1 hzr))
      · exact hpos hzr
    have hfn : findOverlap page table base size =
        if page.alignUp (wadd base size) ≤ page.start base then
          ⟨page.start base, word - 1, true⟩
        else search table (page.start base) (page.alignUp (wadd base size)) := if_neg htab
    have htop : word - 1 ≠ 0 := by decide
    rw [hfn]
    rcases Nat.lt_trichotomy (page.roundUp (base + size)) word with hE | hE | hE
    · rw [HostPage.alignUp_of_lt hE, if_neg (Nat.not_le.2 hlt)]
      refine ⟨fun _ => .inl hE, fun _ => ⟨?_, fun hmee _ hrd => ?_⟩⟩
      · rw [h.search_hit_iff hlt, or_iff_left (Nat.not_lt.2 hE.le)]
      · rcases h.search_spec hlt with ⟨hmem, hmee⟩ | ⟨-, hnn⟩
        · exact h.mayWrite_eq_false hmem hlt hmee hrd
        · obtain ⟨o, ho, hmee⟩ := (h.meets_iff hlt).2 hmee
          exact absurd hmee (hnn o ho)
    · -- the end wraps to zero, and the request counts as one that runs past the top
      rw [HostPage.alignUp_of_eq hE, if_pos (Nat.zero_le _)]
      constructor
      · intro hexa
        have hmee := (hexa.hit_iff.1 htop).resolve_right (Nat.not_lt.2 hE.le)
        refine .inr (.inl ⟨hE, .inr ⟨hE ▸ hmee, fun hrd => ?_⟩⟩)
        exact absurd (hexa.mayWrite hmee hE.le (hE ▸ hrd)) nofun
      · intro hans
        rcases hans with hlt' | ⟨-, hnil' | ⟨hmee, hrd⟩⟩ | ⟨hgt, -⟩
        · exact absurd hE hlt'.ne
        · exact absurd hnil' hnil
        · rw [← hE] at hmee hrd
          exact ⟨⟨fun _ => .inl hmee, fun _ => htop⟩, fun _ _ hrd' => absurd hrd' hrd⟩
        · exact absurd hE hgt.ne'
    · have hvac : ∀ (hit : Range), (hit.stop ≠ 0 → ExactAnswer page recorded base size hit) :=
        fun hit hne => ⟨⟨fun _ => .inr hE, fun _ => hne⟩, fun _ hle => absurd hle (Nat.not_le.2 hE)⟩
      obtain ⟨-, ⟨hcn, hle⟩ | ⟨hcn, heq⟩⟩ := HostPage.alignUp_of_gt hbs hsz hE
      · rw [if_pos hle]
        refine ⟨fun _ => .inr (.inr ⟨hE, hnil, ?_⟩), fun _ => hvac _ htop⟩
        exact hcn.imp id .inl
      · have hpg : page.start base < page.start base + page.size :=
          Nat.lt_add_of_pos_right page.pos
        rw [heq, if_neg (Nat.not_le.2 hpg)]
        constructor
        · intro hexa
          exact .inr (.inr ⟨hE, hnil, .inr (.inr
            ((h.search_hit_iff hpg).1 (hexa.hit_iff.2 (.inr hE))))⟩)
        · intro hans
          rcases hans with hlt' | ⟨heq', -⟩ | ⟨-, -, hor⟩
          · exact absurd hE (Nat.not_lt.2 hlt'.le)
          · exact absurd heq' hE.ne'
          · rw [← or_assoc] at hor
            exact hvac _ ((h.search_hit_iff hpg).2 (hor.resolve_left hcn))

end Answer

/-- **The guard.**  Whatever was recorded, in whatever order, a request is answered exactly if and
only if it is one of `AnsweredExactly`. -/
theorem host_guard_iff (page : HostPage) {actions : List Action} {s : Guard}
    (hrun : (machine page).Run (fun _ _ => True) .start actions s) {base size : ℕ}
    (hbase : base < word) (hsize : size < word) (hpos : size ≠ 0) :
    ExactAnswer page s.recorded base size (findOverlap page s.ranges base size) ↔
      AnsweredExactly page s.recorded base size := by
  have hrep : Represents s.ranges s.recorded := by
    refine hrun.invariant (I := fun s => Represents s.ranges s.recorded) .start ?_
    rintro s a _ h - ⟨sorted, hpr, hsor, rfl⟩
    exact h.update hpr hsor
  exact exactAnswer_iff hrep hbase hsize hpos

/-- Host pages of 64 KiB. -/
def page64K : HostPage := ⟨0x10000, by decide, ⟨0x1000000000000, by decide⟩⟩

/-- Recording one range. -/
theorem run_snapshot (page : HostPage) (r : Range) (hr : r.base < r.stop) :
    (machine page).Run (fun _ _ => True) .start [.snapshot [r]] ⟨[r], [r]⟩ := by
  refine .cons trivial ⟨[r], ?_, pairwise_singleton _ _, ?_⟩ (.nil _)
  · rw [Action.batch, foldl_cons, foldl_nil, addLocked, if_neg (Nat.not_le.2 hr)]
    exact List.Perm.refl _
  · have hfil : [r].filter (fun r => r.base < r.stop) = [r] :=
      filter_eq_self.2 fun q hq => by rw [mem_singleton.1 hq]; exact decide_eq_true hr
    rw [Action.batch, hfil]
    rfl

/-- A request for the page of a recorded range that may not be written. -/
theorem host_guard_vvar :
    (machine page64K).Run (fun _ _ => True) .start [.snapshot [⟨0x10000, 0x20000, false⟩]]
        ⟨[⟨0x10000, 0x20000, false⟩], [⟨0x10000, 0x20000, false⟩]⟩ ∧
      ExactAnswer page64K [⟨0x10000, 0x20000, false⟩] 0x18000 4
        (findOverlap page64K [⟨0x10000, 0x20000, false⟩] 0x18000 4) := by
  have hrun := run_snapshot page64K ⟨0x10000, 0x20000, false⟩ (by decide)
  exact ⟨hrun, (host_guard_iff page64K hrun (by decide) (by decide) (by decide)).2
    (.inl (by decide))⟩

/-- Four answers that are not exact: a request past the top when nothing is recorded; one whose end
comes round to the page of its start; one in the last page, where nothing is recorded; and one up to
the top that hits only addresses that may not be written. -/
theorem host_guard_wrong : (machine page64K).Run (fun _ _ => True) .start [] .start ∧
      ¬ExactAnswer page64K [] 0x10000 (word - 1) (findOverlap page64K [] 0x10000 (word - 1)) ∧
    (machine page64K).Run (fun _ _ => True) .start [.snapshot [⟨0x100000, 0x110000, true⟩]]
        ⟨[⟨0x100000, 0x110000, true⟩], [⟨0x100000, 0x110000, true⟩]⟩ ∧
      ¬ExactAnswer page64K [⟨0x100000, 0x110000, true⟩] 0x10008 (word - 4)
        (findOverlap page64K [⟨0x100000, 0x110000, true⟩] 0x10008 (word - 4)) ∧
      ¬ExactAnswer page64K [⟨0x100000, 0x110000, true⟩] (word - 0x10000) 0x1000
        (findOverlap page64K [⟨0x100000, 0x110000, true⟩] (word - 0x10000) 0x1000) ∧
    (machine page64K).Run (fun _ _ => True) .start
        [.snapshot [⟨word - 0x20000, word - 0x10000, false⟩]]
        ⟨[⟨word - 0x20000, word - 0x10000, false⟩], [⟨word - 0x20000, word - 0x10000, false⟩]⟩ ∧
      ¬ExactAnswer page64K [⟨word - 0x20000, word - 0x10000, false⟩] (word - 0x20000) 0x20000
        (findOverlap page64K [⟨word - 0x20000, word - 0x10000, false⟩] (word - 0x20000)
          0x20000) := by
  refine ⟨.nil _, fun h => ?_, run_snapshot _ _ (by decide), fun h => ?_, fun h => ?_,
    run_snapshot _ _ (by decide), fun h => ?_⟩
  · exact absurd rfl (h.hit_iff.2 (.inr (by decide)))
  · have hms : (findOverlap page64K [⟨0x100000, 0x110000, true⟩] 0x10008 (word - 4)).stop = 0 := by
      decide
    exact absurd hms (h.hit_iff.2 (.inr (by decide)))
  · have hhit : (findOverlap page64K [⟨0x100000, 0x110000, true⟩] (word - 0x10000) 0x1000).stop ≠
        0 := by decide
    rcases h.hit_iff.1 hhit with ⟨r, hr, hmee⟩ | hps
    · rw [mem_singleton.1 hr] at hmee
      exact absurd hmee.2 (by decide)
    · exact absurd hps (by decide)
  · have hmee : (⟨word - 0x20000, word - 0x10000, false⟩ : Range).Meets
        (page64K.start (word - 0x20000)) (page64K.roundUp (word - 0x20000 + 0x20000)) :=
      ⟨by decide, by decide⟩
    have hrd : OnlyReadable [⟨word - 0x20000, word - 0x10000, false⟩]
        (page64K.start (word - 0x20000)) (page64K.roundUp (word - 0x20000 + 0x20000)) := by
      rintro a - - ⟨r, hr, ha⟩
      exact ⟨r, hr, by rw [mem_singleton.1 hr], ha⟩
    exact absurd (h.mayWrite ⟨_, mem_singleton_self _, hmee⟩ (by decide) hrd) (by decide)

end FastPPC.HostOwned
