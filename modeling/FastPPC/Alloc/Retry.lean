import FastPPC.Alloc.Bookkeeping

/-!
# The retry loops of the 32-bit allocator

`Mmap` without a fixed address and `Shmat` without an address look for free pages from the top down
and offer them to the kernel until it accepts.  `Mmap` makes progress by marking a page whenever the
kernel finds the range occupied.  `Shmat` marks nothing: it moves the page it searches from, and
comes back to the top.

* `State.findPageRangeTopDown_spec` : the scan finds the topmost free range;
* `State.allocateNoHint_returns` : `Mmap` returns, if it asks for at least one page;
* `shmatSearch_stuck` : the loop of `Shmat` in a set of starts it does not leave;
* `search_returns_iff` : when the two calls return, for all answers of the kernel;
* `search_stuck` : calls that do not.
-/

namespace FastPPC.Alloc32

variable {c : ℕ}

open List State

variable {h : HostPages} {s : State} {pages start : ℕ}

theorem HostPages.granule_cases (h : HostPages) : h.granule = 1 ∨ h.granule = 16 := by
  cases h
  · exact .inl rfl
  · exact .inr rfl

namespace State

/-! ### The scan -/

variable {bottom : ℕ}

/-- A page is marked so low that no scan runs below it.  The constructor marks the first 16, and the
calls leave them marked. -/
def LowMark (h : HostPages) (s : State) : Prop :=
  ∃ p, p < granuleCeil h (baseKey + 1) ∧ s.mappedPages p = true

/-- The pages `[c, c + pages)` are a free range the scan from `start` can find. -/
structure Fits (h : HostPages) (s : State) (pages start c : ℕ) : Prop where
  aligned : c % h.granule = 0
  pos : 0 < c
  base : baseKey < c + pages
  le : c + pages ≤ start + 1
  free : ∀ p, c ≤ p → p < c + pages → s.mappedPages p = false

/-- What the scan finds: the topmost free range, or 0. -/
def Topmost (h : HostPages) (s : State) (pages start c : ℕ) : Prop :=
  (c = 0 ∧ ∀ d, ¬s.Fits h pages start d) ∨
    (s.Fits h pages start c ∧ ∀ d, s.Fits h pages start d → d ≤ c)

theorem Fits.mono {start' : ℕ} (hc : s.Fits h pages start c) (hle : start ≤ start') :
    s.Fits h pages start' c :=
  { hc with le := hc.le.trans (Nat.succ_le_succ hle) }

theorem Topmost.ne_zero {d : ℕ} (hc : s.Topmost h pages start c) (hd : s.Fits h pages start d) :
    s.Fits h pages start c ∧ d ≤ c := by
  rcases hc with ⟨-, hno⟩ | ⟨hft, hmax⟩
  · exact absurd hd (hno d)
  · exact ⟨hft, hmax d hd⟩

theorem Topmost.fits (hc : s.Topmost h pages start c) (hne : c ≠ 0) : s.Fits h pages start c := by
  rcases hc with ⟨h0, -⟩ | ⟨hft, -⟩
  · exact absurd h0 hne
  · exact hft

/-- The inner loop: it runs below the first page, finds the range free, or stops at a marked
page. -/
theorem firstUsedBelow_cases (s : State) (start : ℕ) : ∀ n offset, offset ≤ start + 1 →
    (s.firstUsedBelow start n offset = none ∧ ∀ p, p + offset ≤ start → s.mappedPages p = false) ∨
      (s.firstUsedBelow start n offset = some none ∧ offset + n ≤ start + 1 ∧
        ∀ p, start < p + (offset + n) → p + offset ≤ start → s.mappedPages p = false) ∨
      ∃ o, s.firstUsedBelow start n offset = some (some o) ∧ o < offset + n ∧ o ≤ start ∧
        s.mappedPages (start - o) = true
  | 0, offset, hoff => .inr (.inl ⟨rfl, hoff, fun p h1 h2 => absurd h1 (by omega)⟩)
  | n + 1, offset, hoff => by
    rw [firstUsedBelow]
    by_cases hlt : start < offset
    · rw [if_pos hlt]
      exact .inl ⟨rfl, fun p hp => absurd hp (by omega)⟩
    rw [if_neg hlt]
    cases hbit : s.mappedPages (start - offset) with
    | true =>
      rw [if_pos rfl]
      exact .inr (.inr ⟨offset, rfl, by omega, by omega, hbit⟩)
    | false =>
      rw [if_neg Bool.false_ne_true]
      -- the page at the offset is free, the others are those of the shorter loop
      have hpg : ∀ p, p + offset ≤ start → (p + (offset + 1) ≤ start → s.mappedPages p = false) →
          s.mappedPages p = false := by
        intro p hp hrs
        by_cases heq : p = start - offset
        · rw [heq, hbit]
        · exact hrs (by omega)
      rcases firstUsedBelow_cases s start n (offset + 1) (by omega) with
        ⟨heq, hfr⟩ | ⟨heq, hle, hfr⟩ | ⟨o, heq, h1, h2, h3⟩
      · exact .inl ⟨heq, fun p hp => hpg p hp (hfr p)⟩
      · refine .inr (.inl ⟨heq, by omega, fun p h1 h2 => hpg p h2 (hfr p (by omega))⟩)
      · exact .inr (.inr ⟨o, heq, by omega, h2, h3⟩)

theorem granuleFloor_spec (h : HostPages) (p : ℕ) :
    granuleFloor h p % h.granule = 0 ∧ granuleFloor h p ≤ p ∧ p < granuleFloor h p + h.granule := by
  have hdiv := Nat.div_add_mod p h.granule
  have hmod : p % h.granule < h.granule := Nat.mod_lt _ h.granule_pos
  rw [Nat.mul_comm] at hdiv
  exact ⟨Nat.mul_mod_left _ _, by rw [granuleFloor]; omega, by rw [granuleFloor]; omega⟩

/-- The page the scan starts at: the last one of its granule. -/
def scanEnd (h : HostPages) (start : ℕ) : ℕ := granuleCeil h (start + 1) - 1

theorem scanEnd_spec (h : HostPages) (start : ℕ) :
    (scanEnd h start + 1) % h.granule = 0 ∧ start ≤ scanEnd h start ∧
      scanEnd h start + 1 = granuleCeil h (start + 1) := by
  simp only [scanEnd, granuleCeil]
  rcases h.granule_cases with hg | hg <;> rw [hg] <;> omega

/-- A start of the second scan: the last page of a granule. -/
def IsKey (h : HostPages) (key : ℕ) : Prop := scanEnd h key = key ∧ key ≤ topKey

theorem IsKey.inRange {key : ℕ} (hkey : IsKey h key) (hbs : baseKey ≤ key) :
    baseKey ≤ scanEnd h key ∧ scanEnd h key ≤ topKey := by
  rw [hkey.1]
  exact ⟨hbs, hkey.2⟩

theorem isKey_topKey (h : HostPages) : IsKey h topKey := by
  cases h <;> exact ⟨rfl, le_rfl⟩

theorem isKey_topKey32Bit (h : HostPages) : IsKey h topKey32Bit := by
  cases h <;> exact ⟨rfl, by decide⟩

section

variable (hlow : s.LowMark h) (hali : pages % h.granule = 0)
include hlow hali

/-- **The scan**, by induction on its turns. -/
theorem findPageRangeFrom_spec :
    ∀ fuel start, start < fuel → (start + 1) % h.granule = 0 → start ≤ topKey →
      ∃ c, s.findPageRangeFrom h pages fuel start = some c ∧ s.Topmost h pages start c := by
  intro fuel
  induction fuel with
  | zero => exact fun start hlt => absurd hlt (Nat.not_lt_zero _)
  | succ fuel ih =>
    intro start hfl hsta htop
    rw [findPageRangeFrom]
    by_cases hbs : baseKey ≤ start
    swap
    · rw [if_neg fun hbt => hbs hbt.1]
      refine ⟨0, rfl, .inl ⟨rfl, fun d hd => hbs ?_⟩⟩
      have h1 := hd.base
      have h2 := hd.le
      omega
    rw [if_pos ⟨hbs, htop⟩]
    rcases s.firstUsedBelow_cases start pages 0 (Nat.zero_le _) with
      ⟨heq, hfr⟩ | ⟨heq, hle, hfr⟩ | ⟨o, heq, ho, hos, hmar⟩
    · -- the marked low page is one of those the loop has seen
      obtain ⟨p, hp, hmr⟩ := hlow
      have hlt : p ≤ start := by
        simp only [granuleCeil] at hp hbs
        rcases h.granule_cases with hg | hg <;> rw [hg] at hp hsta <;> omega
      rw [hfr p (by omega)] at hmr
      cases hmr
    · rw [heq]
      refine ⟨start + 1 - pages, rfl, ?_⟩
      rcases Nat.eq_zero_or_pos (start + 1 - pages) with h0 | hpos
      · refine .inl ⟨h0, fun d hd => ?_⟩
        have h1 := hd.pos
        have h2 := hd.le
        omega
      · refine .inr ⟨⟨?_, hpos, by omega, by omega, fun p h1 h2 => hfr p (by omega) (by omega)⟩,
          fun d hd => ?_⟩
        · rcases h.granule_cases with hg | hg <;> rw [hg] at hsta hali ⊢ <;> omega
        · have h2 := hd.le
          omega
    · rw [heq]
      simp only
      obtain ⟨hflr, hflo, hfll⟩ := granuleFloor_spec h (start - o)
      -- every range that fits lies below the granule of the marked page
      have hbel : ∀ d, s.Fits h pages start d → d + pages ≤ granuleFloor h (start - o) := by
        intro d hd
        have h1 := hd.le
        have hin : ¬(start - o < d + pages) := by
          intro hlt
          rw [hd.free (start - o) (by omega) hlt] at hmar
          cases hmar
        have h2 := hd.aligned
        rcases h.granule_cases with hg | hg <;>
          rw [hg] at hflr hfll h2 hali <;> omega
      split
      · rename_i hzr
        refine ⟨0, rfl, .inl ⟨rfl, fun d hd => ?_⟩⟩
        have h1 := hbel d hd
        omega
      · rename_i hne
        obtain ⟨c, hc, htpm⟩ := ih (granuleFloor h (start - o) - 1) (by omega)
          (by rw [Nat.sub_add_cancel (by omega)]; exact hflr) (by omega)
        refine ⟨c, hc, ?_⟩
        rcases htpm with ⟨h0, hno⟩ | ⟨hft, hmax⟩
        · refine .inl ⟨h0, fun d hd => hno d { hd with le := ?_ }⟩
          have h1 := hbel d hd
          omega
        · refine .inr ⟨hft.mono (by omega), fun d hd => hmax d { hd with le := ?_ }⟩
          have h1 := hbel d hd
          omega

/-- **`FindPageRange_TopDown`** finds the topmost free range that ends at its start or below. -/
theorem findPageRangeTopDown_spec (start : ℕ) : ∃ c, s.findPageRangeTopDown h start pages = some c ∧
      (scanEnd h start ≤ topKey → s.Topmost h pages (scanEnd h start) c) ∧
      (topKey < scanEnd h start → c = 0) := by
  obtain ⟨hend, -, hcl⟩ := scanEnd_spec h start
  rw [findPageRangeTopDown, ← hcl, Nat.add_sub_cancel]
  rcases Nat.lt_or_ge topKey (scanEnd h start) with hout | hin
  · rw [findPageRangeFrom, if_neg fun hbt => absurd hbt.2 (by omega)]
    exact ⟨0, rfl, fun hle => absurd hle (by omega), fun _ => rfl⟩
  · obtain ⟨c, hc, htpm⟩ :=
      findPageRangeFrom_spec hlow hali _ _ (Nat.lt_succ_self _) hend hin
    exact ⟨c, hc, fun _ => htpm, fun hlt => absurd hlt (by omega)⟩

/-- **The two scans**: the first one finds something, or the second one decides. -/
theorem findTwice_spec (bottom : ℕ) {key : ℕ} (hkey : IsKey h key) :
    ∃ lower next, s.findTwice h bottom key pages = some (lower, next) ∧
      ((next = bottom ∧ lower ≠ 0 ∧ scanEnd h bottom ≤ topKey ∧
          s.Topmost h pages (scanEnd h bottom) lower) ∨
        (next = key ∧ s.Topmost h pages key lower ∧
          ∀ d, scanEnd h bottom ≤ topKey → ¬s.Fits h pages (scanEnd h bottom) d)) := by
  obtain ⟨c, hc, hin, hout⟩ := findPageRangeTopDown_spec hlow hali bottom
  obtain ⟨c', hc', hin', -⟩ := findPageRangeTopDown_spec hlow hali key
  rw [hkey.1] at hin'
  by_cases hzr : c = 0
  · refine ⟨c', key, ?_, .inr ⟨rfl, hin' hkey.2, fun d hle hd => ?_⟩⟩
    · rw [findTwice, hc, Option.bind_eq_bind, Option.bind_some, if_pos hzr, hc']
      rfl
    · have hpos := ((hin hle).ne_zero hd).1.pos
      omega
  · have hle : scanEnd h bottom ≤ topKey := by
      by_contra hlt
      exact hzr (hout (by omega))
    refine ⟨c, bottom, ?_, .inl ⟨rfl, hzr, hle, hin hle⟩⟩
    rw [findTwice, hc, Option.bind_eq_bind, Option.bind_some, if_neg hzr]

theorem findTwice_fits {key : ℕ} (hkey : IsKey h key) {lower next : ℕ}
    (hfn : s.findTwice h bottom key pages = some (lower, next)) (hne : lower ≠ 0) :
    ∃ start, start ≤ topKey ∧ s.Fits h pages start lower := by
  obtain ⟨lower', next', hfn', hor⟩ := findTwice_spec hlow hali bottom hkey
  rw [hfn] at hfn'
  cases hfn'
  rcases hor with ⟨-, -, hle, htpm⟩ | ⟨-, htpm, -⟩
  · exact ⟨_, hle, htpm.fits hne⟩
  · exact ⟨_, hkey.2, htpm.fits hne⟩

end

theorem Fits.le_pageCount (hc : s.Fits h pages start c) (hle : start ≤ topKey) :
    c + pages ≤ pageCount :=
  hc.le.trans (Nat.succ_le_succ hle)

/-! ### `Mmap` -/

def freePages (s : State) : Finset ℕ :=
  (Finset.range pageCount).filter fun p => s.mappedPages p = false

/-- A page of a free range is marked. -/
theorem markCollisions_spec {lower : ℕ} (hpag : 0 < pages) (hle : lower + pages ≤ pageCount)
    (hfr : ∀ p, lower ≤ p → p < lower + pages → s.mappedPages p = false) (mincore : ℕ → Bool) :
    ∃ s', s.markCollisions lower pages mincore = some s' ∧
      (∀ p, s.mappedPages p = true → s'.mappedPages p = true) ∧
      s'.freePages.card < s.freePages.card := by
  have hca : ∀ s' : State, (∀ p, s.mappedPages p = true → s'.mappedPages p = true) →
      (∃ p, lower ≤ p ∧ p < lower + pages ∧ s'.mappedPages p = true) →
      s'.freePages.card < s.freePages.card := by
    rintro s' hmn ⟨p, h1, h2, hmr⟩
    refine Finset.card_lt_card (Finset.ssubset_iff_of_subset ?_ |>.2 ⟨p, ?_, ?_⟩)
    · intro x hx
      obtain ⟨hx1, hx2⟩ := Finset.mem_filter.1 hx
      refine Finset.mem_filter.2 ⟨hx1, Bool.eq_false_iff.2 fun htr => ?_⟩
      rw [hmn x htr] at hx2
      cases hx2
    · exact Finset.mem_filter.2 ⟨Finset.mem_range.2 (by omega), hfr p h1 h2⟩
    · intro hp
      rw [(Finset.mem_filter.1 hp).2] at hmr
      cases hmr
  rw [markCollisions]
  by_cases hany : ((range pages).any fun i => mincore (lower + i)) = true
  · rw [if_pos hany]
    obtain ⟨i, hi, hcr⟩ := any_eq_true.1 hany
    have hi : i < pages := mem_range.1 hi
    refine ⟨_, rfl, fun p hp => by simp [hp], hca _ ?_ ?_⟩
    · exact fun p hp => by simp [hp]
    · refine ⟨lower + i, by omega, by omega, ?_⟩
      have hin : inRange lower pages (lower + i) = true := by
        simp only [inRange, Bool.and_eq_true, decide_eq_true_eq]
        omega
      simp [hin, hcr]
  · rw [if_neg hany, setUsedPages, if_pos (.inr (by omega))]
    refine ⟨_, rfl, fun p hp => by simp [hp], hca _ ?_ ?_⟩
    · exact fun p hp => by simp [hp]
    · refine ⟨lower, le_rfl, by omega, ?_⟩
      have hin : inRange lower 1 lower = true := by
        simp only [inRange, Bool.and_eq_true, decide_eq_true_eq]
        omega
      simp [hin]

theorem mapFound_isSome (s : State) (q : MmapArgs) {lower : ℕ}
    (hle : pages = 0 ∨ lower + pages ≤ pageCount) (a : Attempt) :
    ∃ r, s.mapFound h q lower pages a = some r ∧
      ∀ ptr, r.2 = .ok ptr → ptr = lower * guestPage := by
  rw [mapFound]
  split
  · exact ⟨_, rfl, by rintro _ ⟨⟩⟩
  · rw [setUsedPages, if_pos hle]
    exact ⟨_, rfl, fun ptr hptr => (Answer.ok.inj hptr).symm⟩

/-- The answer is an error or the address of a range that was free. -/
def AnswersFree (s : State) (pages : ℕ) (r : State × Answer) : Prop :=
  ∀ ptr, r.2 = .ok ptr → ∃ lower, ptr = lower * guestPage ∧
    ∀ p, lower ≤ p → p < lower + pages → s.mappedPages p = false

/-- One turn with the first of the kernel's answers. -/
theorem allocateNoHint_turn {q : MmapArgs} {key lower next : ℕ} (attempts : ℕ → Attempt)
    (hfn : s.findTwice h bottom key pages = some (lower, next)) (hne : lower ≠ 0) (n : ℕ) :
    allocateNoHint h q pages key ((range (n + 1)).map attempts) s bottom =
      match (attempts 0).mmap with
      | none => s.mapFound h q lower pages (attempts 0)
      | some .EEXIST =>
        match s.markCollisions lower pages (attempts 0).mincore with
        | none => none
        | some s => allocateNoHint h q pages key ((range n).map fun i => attempts (i + 1)) s next
      | some e => some (s, .error e) := by
  rw [range_succ_eq_map, map_cons, map_map, allocateNoHint, hfn]
  simp only [if_neg hne]
  rfl

/-- A turn that ends the loop: the kernel does not answer `EEXIST`. -/
theorem allocateNoHint_ends {q : MmapArgs} {key lower next : ℕ} (attempts : ℕ → Attempt)
    (hfn : s.findTwice h bottom key pages = some (lower, next)) (hne : lower ≠ 0)
    (hle : pages = 0 ∨ lower + pages ≤ pageCount)
    (hfr : ∀ p, lower ≤ p → p < lower + pages → s.mappedPages p = false)
    (hoth : (attempts 0).mmap ≠ some .EEXIST) :
    ∃ r, allocateNoHint h q pages key ((range 1).map attempts) s bottom = some r ∧
      s.AnswersFree pages r := by
  have htr := allocateNoHint_turn (q := q) attempts hfn hne 0
  cases hmm : (attempts 0).mmap with
  | none =>
    obtain ⟨r, hr, hptr⟩ := s.mapFound_isSome (h := h) q hle (attempts 0)
    refine ⟨r, ?_, fun ptr hok => ⟨lower, hptr ptr hok, hfr⟩⟩
    rw [htr, hmm]
    exact hr
  | some e =>
    refine ⟨(s, .error e), ?_, nofun⟩
    rw [htr, hmm]
    rw [hmm] at hoth
    cases e <;> first | rfl | exact absurd rfl hoth

/-- **`AllocateNoHint` returns** if it asks for a page, by induction on the number of free pages. -/
theorem allocateNoHint_returns {q : MmapArgs} (hpag : 0 < pages)
    (hali : pages % h.granule = 0) {key : ℕ} (hkey : IsKey h key) :
    ∀ (free : ℕ) (s : State) (bottom : ℕ) (attempts : ℕ → Attempt), s.LowMark h →
      s.freePages.card ≤ free →
      ∃ n r, allocateNoHint h q pages key ((range n).map attempts) s bottom = some r ∧
        s.AnswersFree pages r := by
  intro free
  induction free using Nat.strong_induction_on with
  | _ free ih =>
    intro s bottom attempts hlow hcr
    obtain ⟨lower, next, hfn, -⟩ := findTwice_spec hlow hali bottom hkey
    by_cases hzr : lower = 0
    · refine ⟨0, (s, .error .ENOMEM), ?_, nofun⟩
      rw [range_zero, map_nil, allocateNoHint, hfn]
      simp [if_pos hzr]
    obtain ⟨start, hsta, hft⟩ := findTwice_fits hlow hali hkey hfn hzr
    have hle := hft.le_pageCount hsta
    have htu := allocateNoHint_turn (q := q) attempts hfn hzr
    by_cases hexi : (attempts 0).mmap = some .EEXIST
    · obtain ⟨s', hs', hmn, hls⟩ :=
        markCollisions_spec hpag hle hft.free (attempts 0).mincore
      obtain ⟨p, hp, hmr⟩ := hlow
      obtain ⟨n, r, hr, hans⟩ := ih _ (hls.trans_le hcr) s' next
        (fun i => attempts (i + 1)) ⟨p, hp, hmn p hmr⟩ le_rfl
      refine ⟨n + 1, r, ?_, fun ptr hptr => ?_⟩
      · rw [htu, hexi, hs']
        exact hr
      · obtain ⟨c, hc, hc'⟩ := hans ptr hptr
        refine ⟨c, hc, fun x h1 h2 => Bool.eq_false_iff.2 fun htr => ?_⟩
        have hx := hc' x h1 h2
        rw [hmn x htr] at hx
        cases hx
    · exact ⟨1, allocateNoHint_ends attempts hfn hzr (.inr hle) hft.free hexi⟩

/-- A scan for no pages takes the page behind its start. -/
theorem findPageRangeTopDown_zero (s : State) (start : ℕ) : s.findPageRangeTopDown h start 0 =
      some (if baseKey ≤ scanEnd h start ∧ scanEnd h start ≤ topKey then scanEnd h start + 1
        else 0) := by
  obtain ⟨-, -, hcl⟩ := scanEnd_spec h start
  rw [findPageRangeTopDown, ← hcl, Nat.add_sub_cancel, findPageRangeFrom]
  split
  · rfl
  · rfl

/-- Where the scans for no pages start in the end. -/
def zeroStart (h : HostPages) (bottom key : ℕ) : ℕ :=
  if baseKey ≤ scanEnd h bottom ∧ scanEnd h bottom ≤ topKey then bottom else key

theorem findTwice_zero (s : State) (bottom : ℕ) {key : ℕ} (hkey : IsKey h key)
    (hbs : baseKey ≤ key) :
    s.findTwice h bottom key 0 =
      some (scanEnd h (zeroStart h bottom key) + 1, zeroStart h bottom key) := by
  rw [findTwice, findPageRangeTopDown_zero, findPageRangeTopDown_zero, zeroStart]
  by_cases hin : baseKey ≤ scanEnd h bottom ∧ scanEnd h bottom ≤ topKey
  · rw [if_pos hin, if_pos hin]
    rfl
  · rw [if_neg hin, if_neg hin, if_pos (hkey.inRange hbs)]
    rfl

theorem zeroStart_idem {key : ℕ} (hkey : IsKey h key) (hbs : baseKey ≤ key) :
    zeroStart h (zeroStart h bottom key) key = zeroStart h bottom key := by
  by_cases hin : baseKey ≤ scanEnd h bottom ∧ scanEnd h bottom ≤ topKey
  · simp [zeroStart, if_pos hin]
  · simp only [zeroStart, if_neg hin, if_pos (hkey.inRange hbs)]

theorem zeroStart_le (bottom : ℕ) {key : ℕ} (hkey : IsKey h key) :
    scanEnd h (zeroStart h bottom key) ≤ topKey := by
  rw [zeroStart]
  split
  · rename_i hin
    exact hin.2
  · rw [hkey.1]
    exact hkey.2

/-- A collision on a request for no pages marks the page behind the start, if there is one. -/
theorem markCollisions_zero (s : State) (lower : ℕ) (mincore : ℕ → Bool) :
    s.markCollisions lower 0 mincore = s.setUsedPages lower 1 := rfl

section ZeroPages

variable {q : MmapArgs} {key : ℕ}

section

variable (hkey : IsKey h key) (hbs : baseKey ≤ key)
include hkey hbs

theorem allocateNoHint_nil_zero (s : State) (bottom : ℕ) :
    allocateNoHint h q 0 key [] s bottom = none := by
  rw [allocateNoHint, findTwice_zero s bottom hkey hbs]
  simp

/-- Every answer is `EEXIST`: the page behind the start is offered again and again. -/
theorem allocateNoHint_zero_stuck : ∀ n (s : State) (bottom : ℕ) (attempts : ℕ → Attempt),
      (∀ i, (attempts i).mmap = some .EEXIST) →
      allocateNoHint h q 0 key ((range n).map attempts) s bottom = none := by
  intro n
  induction n with
  | zero => exact fun s bottom attempts _ => allocateNoHint_nil_zero hkey hbs s bottom
  | succ n ih =>
    intro s bottom attempts hall
    rw [allocateNoHint_turn _ (findTwice_zero s bottom hkey hbs) (Nat.succ_ne_zero _), hall 0,
      markCollisions_zero]
    cases s.setUsedPages (scanEnd h (zeroStart h bottom key) + 1) 1 with
    | none => rfl
    | some s' => exact ih s' _ _ fun i => hall (i + 1)

/-- Some answer is not: the loop ends there. -/
theorem allocateNoHint_zero_returns : ∀ n (s : State) (bottom : ℕ) (attempts : ℕ → Attempt),
      scanEnd h (zeroStart h bottom key) ≠ topKey → (attempts n).mmap ≠ some .EEXIST →
      ∃ n r, allocateNoHint h q 0 key ((range n).map attempts) s bottom = some r ∧
        ∀ ptr, r.2 = .ok ptr → ∃ lower, ptr = lower * guestPage := by
  intro n
  induction n using Nat.strong_induction_on with
  | _ n ih =>
    intro s bottom attempts htop hoth
    by_cases hexi : (attempts 0).mmap = some .EEXIST
    · obtain ⟨k, rfl⟩ : ∃ k, n = k + 1 := Nat.exists_eq_add_one_of_ne_zero fun h0 =>
        hoth (h0 ▸ hexi)
      have hle := zeroStart_le bottom hkey
      have hcou : topKey + 1 = pageCount := rfl
      have hmr : ∃ s', s.setUsedPages (scanEnd h (zeroStart h bottom key) + 1) 1 = some s' := by
        rw [setUsedPages, if_pos (.inr (by omega))]
        exact ⟨_, rfl⟩
      obtain ⟨s', hs'⟩ := hmr
      obtain ⟨m, r, hr, hans⟩ := ih k (Nat.lt_succ_self k) s' (zeroStart h bottom key)
        (fun i => attempts (i + 1)) (by rw [zeroStart_idem hkey hbs]; exact htop) hoth
      refine ⟨m + 1, r, ?_, hans⟩
      rw [allocateNoHint_turn _ (findTwice_zero s bottom hkey hbs) (Nat.succ_ne_zero _), hexi,
        markCollisions_zero, hs']
      exact hr
    · obtain ⟨r, hr, hans⟩ := allocateNoHint_ends (q := q) attempts
        (findTwice_zero s bottom hkey hbs) (Nat.succ_ne_zero _) (.inl rfl)
        (fun p h1 h2 => absurd h2 (by omega)) hexi
      exact ⟨1, r, hr, fun ptr hptr => (hans ptr hptr).imp fun _ hc => hc.1⟩

/-- **A request for no pages** returns if and only if the kernel answers something else than
`EEXIST`: at once, or at all if there is a page behind the start of the scan that can be marked. -/
theorem allocateNoHint_zero_iff (s : State) (bottom : ℕ) (attempts : ℕ → Attempt) :
    (∃ n r, allocateNoHint h q 0 key ((range n).map attempts) s bottom = some r ∧
        s.AnswersFree 0 r) ↔
      (attempts 0).mmap ≠ some .EEXIST ∨
        scanEnd h (zeroStart h bottom key) ≠ topKey ∧ ∃ n, (attempts n).mmap ≠ some .EEXIST := by
  constructor
  · rintro ⟨n, r, hr, -⟩
    by_contra hno
    obtain ⟨hexi, hrs⟩ := not_or.1 hno
    rw [ne_eq, not_not] at hexi
    by_cases htop : scanEnd h (zeroStart h bottom key) = topKey
    · -- the page behind the start is not a page of the bit set
      cases n with
      | zero =>
        rw [range_zero, map_nil, allocateNoHint_nil_zero hkey hbs] at hr
        cases hr
      | succ n =>
        rw [allocateNoHint_turn _ (findTwice_zero s bottom hkey hbs) (Nat.succ_ne_zero _), hexi,
          markCollisions_zero, htop, setUsedPages, if_neg (by decide)] at hr
        cases hr
    · have hall : ∀ i, (attempts i).mmap = some .EEXIST := by
        intro i
        by_contra hoth
        exact hrs ⟨htop, i, hoth⟩
      rw [allocateNoHint_zero_stuck hkey hbs n s bottom attempts hall] at hr
      cases hr
  · rintro (hoth | ⟨htop, n, hoth⟩)
    · exact ⟨1, allocateNoHint_ends attempts (findTwice_zero s bottom hkey hbs) (Nat.succ_ne_zero _)
        (.inl rfl) (fun p h1 h2 => absurd h2 (by omega)) hoth⟩
    · obtain ⟨m, r, hr, hans⟩ :=
        allocateNoHint_zero_returns (q := q) hkey hbs n s bottom attempts htop hoth
      refine ⟨m, r, hr, fun ptr hptr => ?_⟩
      obtain ⟨lower, hlwr⟩ := hans ptr hptr
      exact ⟨lower, hlwr, fun p h1 h2 => absurd h2 (by omega)⟩

end

end ZeroPages

end State

/-- The request is refused before any search. -/
def MmapArgs.Refused (h : HostPages) (q : MmapArgs) : Prop :=
  q.addr % guestPage ≠ 0 ∨ (q.offset.any fun o => o % guestPage != 0) = true ∨
    2 ^ 32 - 1 < wadd q.addr q.length ∨
    (q.shared && q.offset.any fun o => !hostAligned h o) = true

/-- The scan's second start for a request. -/
def MmapArgs.lastKey (q : MmapArgs) : ℕ := if q.map32Bit then topKey32Bit else topKey

/-- `Mmap` returns after finitely many of the kernel's answers, with an error or a free range. -/
def State.MmapReturns (h : HostPages) (s : State) (q : MmapArgs) (attempts : ℕ → Attempt) : Prop :=
  ∃ n r, (∀ granule direct, s.mmap h q ⟨(range n).map attempts, granule, direct⟩ = some r) ∧
    s.AnswersFree (alignPagesUp h (pagesOf q.length)) r

/-- A request without a fixed address is refused, or it is a search. -/
theorem State.mmap_noHint {q : MmapArgs} (hfix : q.fixed = false) (hnor : q.noreplace = false) :
    (q.Refused h ∧ ∃ e, ∀ a, s.mmap h q a = some (s, .error e)) ∨
      (¬q.Refused h ∧ ∀ a, s.mmap h q a =
        allocateNoHint h q (alignPagesUp h (pagesOf q.length)) q.lastKey a.attempts s
          (s.scanStart q)) := by
  by_cases h1 : q.addr % guestPage ≠ 0
  · exact .inl ⟨.inl h1, .EINVAL, fun a => by rw [mmap, if_pos h1]⟩
  by_cases h2 : (q.offset.any fun o => o % guestPage != 0) = true
  · exact .inl ⟨.inr (.inl h2), .EINVAL, fun a => by rw [mmap, if_neg h1, if_pos h2]⟩
  by_cases h3 : 2 ^ 32 - 1 < wadd q.addr q.length
  · exact .inl ⟨.inr (.inr (.inl h3)), .EOVERFLOW,
      fun a => by rw [mmap, if_neg h1, if_neg h2, if_pos h3]⟩
  have hlow : ¬((q.fixed || q.noreplace) && decide (q.addr / guestPage < 16)) = true := by
    rw [hfix, hnor]
    rintro ⟨⟩
  by_cases h4 : (q.shared && q.offset.any fun o => !hostAligned h o) = true
  · exact .inl ⟨.inr (.inr (.inr h4)), .EINVAL,
      fun a => by rw [mmap, if_neg h1, if_neg h2, if_neg h3, if_neg hlow, if_pos h4]⟩
  have hsea : ¬(q.fixed || q.noreplace) = true := by
    rw [hfix, hnor]
    rintro ⟨⟩
  refine .inr ⟨?_, fun a => ?_⟩
  · rintro (h | h | h | h)
    · exact h1 h
    · exact h2 h
    · exact h3 h
    · exact h4 h
  · rw [mmap, if_neg h1, if_neg h2, if_neg h3, if_neg hlow, if_neg h4, if_neg hsea]
    rfl

theorem MmapArgs.isKey_lastKey (h : HostPages) (q : MmapArgs) :
    State.IsKey h q.lastKey ∧ baseKey ≤ q.lastKey := by
  rw [MmapArgs.lastKey]
  split
  · exact ⟨isKey_topKey32Bit h, by decide⟩
  · exact ⟨isKey_topKey h, by decide⟩

theorem alignPagesUp_eq_zero_iff (h : HostPages) (n : ℕ) : alignPagesUp h n = 0 ↔ n = 0 := by
  rw [alignPagesUp]
  rcases h.granule_cases with hg | hg <;> rw [hg] <;> omega

theorem State.mmapReturns_iff (hlow : s.LowMark h) {q : MmapArgs} (hfix : q.fixed = false)
    (hnor : q.noreplace = false) (attempts : ℕ → Attempt) :
    s.MmapReturns h q attempts ↔ q.Refused h ∨ pagesOf q.length ≠ 0 ∨
      (attempts 0).mmap ≠ some .EEXIST ∨
      scanEnd h (zeroStart h (s.scanStart q) q.lastKey) ≠ topKey ∧
        ∃ n, (attempts n).mmap ≠ some .EEXIST := by
  obtain ⟨hkey, hbs⟩ := q.isKey_lastKey h
  rcases s.mmap_noHint (h := h) hfix hnor with ⟨href, e, he⟩ | ⟨hnot, hcl⟩
  · exact iff_of_true ⟨0, _, fun _ _ => he _, nofun⟩ (.inl href)
  have hsm : s.MmapReturns h q attempts ↔
      ∃ n r, allocateNoHint h q (alignPagesUp h (pagesOf q.length)) q.lastKey
          ((range n).map attempts) s (s.scanStart q) = some r ∧
        s.AnswersFree (alignPagesUp h (pagesOf q.length)) r := by
    refine exists_congr fun n => exists_congr fun r => and_congr_left fun _ => ?_
    exact ⟨fun hall => (hcl _).symm.trans (hall (fun _ => ⟨none, none, none⟩) none),
      fun hr granule direct => (hcl _).trans hr⟩
  rw [hsm]
  by_cases hzr : pagesOf q.length = 0
  · rw [hzr, (alignPagesUp_eq_zero_iff h 0).2 rfl, allocateNoHint_zero_iff hkey hbs]
    exact ⟨fun hcn => .inr (.inr hcn), fun hcn => hcn.elim (absurd · hnot)
      fun hcn => hcn.elim (absurd rfl ·) id⟩
  · refine iff_of_true ?_ (.inr (.inl hzr))
    exact allocateNoHint_returns
      (Nat.pos_of_ne_zero (mt (alignPagesUp_eq_zero_iff h _).1 hzr)) (Nat.mul_mod_left _ _) hkey
      _ s _ attempts hlow le_rfl

/-! ### `Shmat` -/

namespace State

section Shmat

variable {shmid bottom lower next : ℕ} {wrapped : Bool} {attempts : ℕ → Option ℕ}

theorem shmatSearch_noRoom (hfn : s.findTwice h bottom topKey pages = some (0, next))
    (attempts : List (Option ℕ)) :
    shmatSearch h shmid pages attempts s bottom wrapped = some (s, .error .ENOMEM) := by
  rw [shmatSearch.eq_def]
  simp only [hfn, if_true]

section

variable (hfn : s.findTwice h bottom topKey pages = some (lower, next)) (hne : lower ≠ 0)
include hfn hne

theorem shmatSearch_turn (n : ℕ) :
    shmatSearch h shmid pages ((range (n + 1)).map attempts) s bottom wrapped =
      match attempts 0 with
      | none =>
        ((s.kernelAttach lower pages).setUsedPages lower pages).map fun s =>
          ({ s.attach lower shmid with lastScanLocation := lower }, .ok (lower * guestPage))
      | some e =>
        if lower + pages = topKey then
          shmatSearch h shmid pages ((range n).map fun i => attempts (i + 1)) s topKey true
        else if wrapped && decide (s.lastScanLocation ≤ lower) then some (s, .error (.kernel e))
        else shmatSearch h shmid pages ((range n).map fun i => attempts (i + 1)) s
          (next + pages) wrapped := by
  rw [range_succ_eq_map, map_cons, map_map, shmatSearch.eq_def]
  simp only [hfn, if_neg hne]
  cases attempts 0 <;> rfl

theorem shmatSearch_accepts (hle : lower + pages ≤ pageCount)
    (hfr : ∀ p, lower ≤ p → p < lower + pages → s.mappedPages p = false) (hok : attempts 0 = none) :
    ∃ r, shmatSearch h shmid pages ((range 1).map attempts) s bottom wrapped = some r ∧
      s.AnswersFree pages r := by
  rw [shmatSearch_turn hfn hne, hok, setUsedPages, if_pos (.inr hle)]
  exact ⟨_, rfl, fun ptr hptr => ⟨lower, (Answer.ok.inj hptr).symm, hfr⟩⟩

end

/-- **The loop of `Shmat` is stuck** in a set of starts that it does not leave. -/
theorem shmatSearch_stuck {J : ℕ → Bool → Prop}
    (hJ : ∀ b w, J b w → ∃ lower next, s.findTwice h b topKey pages = some (lower, next) ∧
      lower ≠ 0 ∧ (lower + pages = topKey → J topKey true) ∧
      (lower + pages ≠ topKey → (w = true → lower < s.lastScanLocation) ∧ J (next + pages) w)) :
    ∀ n (attempts : ℕ → Option ℕ) b w, (∀ i, attempts i ≠ none) → J b w →
      shmatSearch h shmid pages ((range n).map attempts) s b w = none := by
  intro n
  induction n with
  | zero =>
    intro attempts b w _ hb
    obtain ⟨lower, next, hfn, hne, -⟩ := hJ b w hb
    rw [range_zero, map_nil, shmatSearch, hfn]
    simp [if_neg hne]
  | succ n ih =>
    intro attempts b w hfl hb
    obtain ⟨lower, next, hfn, hne, htop, hoth⟩ := hJ b w hb
    obtain ⟨e, he⟩ := Option.ne_none_iff_exists'.1 (hfl 0)
    rw [shmatSearch_turn hfn hne, he]
    by_cases heq : lower + pages = topKey
    · simp only [if_pos heq]
      exact ih _ _ _ (fun i => hfl (i + 1)) (htop heq)
    · obtain ⟨hls, hnx⟩ := hoth heq
      have hgo : ¬(w && decide (s.lastScanLocation ≤ lower)) = true := by
        rw [Bool.and_eq_true, decide_eq_true_eq]
        rintro ⟨hw, hle⟩
        have hlt := hls hw
        omega
      simp only [if_neg heq, if_neg hgo]
      exact ih _ _ _ (fun i => hfl (i + 1)) hnx

/-- **A kernel that accepts in the end**: the loop ends there or before. -/
theorem shmatSearch_accepted (shmid : ℕ) (hlow : s.LowMark h) (hali : pages % h.granule = 0) :
    ∀ n (attempts : ℕ → Option ℕ) bottom wrapped, attempts n = none →
      ∃ m r, shmatSearch h shmid pages ((range m).map attempts) s bottom wrapped = some r ∧
        s.AnswersFree pages r := by
  intro n
  induction n using Nat.strong_induction_on with
  | _ n ih =>
    intro attempts bottom wrapped hok
    obtain ⟨lower, next, hfn, -⟩ := findTwice_spec hlow hali bottom (isKey_topKey h)
    by_cases hzr : lower = 0
    · rw [hzr] at hfn
      exact ⟨0, _, shmatSearch_noRoom hfn _, nofun⟩
    cases hfir : attempts 0 with
    | none =>
      obtain ⟨start, hsta, hft⟩ := findTwice_fits hlow hali (isKey_topKey h) hfn hzr
      exact ⟨1, shmatSearch_accepts hfn hzr (hft.le_pageCount hsta) hft.free hfir⟩
    | some e =>
      obtain ⟨k, rfl⟩ : ∃ k, n = k + 1 := by
        refine Nat.exists_eq_add_one_of_ne_zero ?_
        rintro rfl
        rw [hok] at hfir
        cases hfir
      have hrs := ih k (Nat.lt_succ_self k) fun i => attempts (i + 1)
      by_cases heq : lower + pages = topKey
      · obtain ⟨m, r, hr, hans⟩ := hrs topKey true hok
        refine ⟨m + 1, r, ?_, hans⟩
        rw [shmatSearch_turn hfn hzr, hfir]
        simp only [if_pos heq]
        exact hr
      by_cases hgo : (wrapped && decide (s.lastScanLocation ≤ lower)) = true
      · refine ⟨1, (s, .error (.kernel e)), ?_, nofun⟩
        rw [shmatSearch_turn hfn hzr, hfir]
        simp only [if_neg heq, if_pos hgo]
      · obtain ⟨m, r, hr, hans⟩ := hrs (next + pages) wrapped hok
        refine ⟨m + 1, r, ?_, hans⟩
        rw [shmatSearch_turn hfn hzr, hfir]
        simp only [if_neg heq, if_neg hgo]
        exact hr

/-! #### The starts of the loop -/

/-- The loop gives up, on a host with 4K pages: it comes to the range that ends in front of the last
page, with the last page free as well, and the range from the last page on is not below the page the
search began at. -/
structure GivesUp (h : HostPages) (s : State) (pages : ℕ) : Prop where
  host : h = .k4
  lt_top : s.lastScanLocation < topKey
  dvd : pages ∣ topKey - 1 - s.lastScanLocation
  small : s.lastScanLocation = topKey - 1 → pages ≤ 2
  free : 0 < pages → ∀ i, i ≤ pages → s.mappedPages (topKey - i) = false
  room : 0 < pages → ∃ c, s.Fits h pages s.lastScanLocation c

theorem scanEnd_k4 (start : ℕ) : scanEnd .k4 start = start := by
  simp only [scanEnd, granuleCeil, HostPages.granule]
  omega

/-- On a host with 64K pages no range ends in front of the last page. -/
theorem Fits.k4_of_eq_topKey (hc : s.Fits h pages start c) (hali : pages % h.granule = 0)
    (heq : c + pages = topKey) : h = .k4 := by
  cases h with
  | k4 => rfl
  | k64 =>
    have hmod := hc.aligned
    simp only [HostPages.granule, topKey] at hmod hali heq
    omega

/-- If there is room at all, the two scans find some. -/
theorem findTwice_room (hlow : s.LowMark h) (hali : pages % h.granule = 0) {d : ℕ}
    (hrm : s.Fits h pages topKey d) (bottom : ℕ) :
    ∃ lower next, s.findTwice h bottom topKey pages = some (lower, next) ∧ lower ≠ 0 ∧
      ((next = bottom ∧ scanEnd h bottom ≤ topKey ∧ s.Topmost h pages (scanEnd h bottom) lower) ∨
        (next = topKey ∧ s.Topmost h pages topKey lower ∧
          ∀ d, scanEnd h bottom ≤ topKey → ¬s.Fits h pages (scanEnd h bottom) d)) := by
  obtain ⟨lower, next, hfn, ⟨h1, h2, h3, h4⟩ | ⟨h1, h2, h3⟩⟩ :=
    findTwice_spec hlow hali bottom (isKey_topKey h)
  · exact ⟨lower, next, hfn, h2, .inl ⟨h1, h3, h4⟩⟩
  · exact ⟨lower, next, hfn, (h2.ne_zero hrm).1.pos.ne', .inr ⟨h1, h2, h3⟩⟩

/-- The last page is marked, or a page of the range in front of it: once the loop has come to that
range, it stays there, and otherwise it comes back to the top for ever. -/
theorem stuck_of_top_used (hlow : s.LowMark h) (hpag : 0 < pages)
    (hali : pages % h.granule = 0) {d : ℕ} (hrm : s.Fits h pages topKey d)
    (hus : h = .k4 → ∃ i, i ≤ pages ∧ s.mappedPages (topKey - i) = true) (n : ℕ)
    (hfl : ∀ i, attempts i ≠ none) (bottom : ℕ) :
    shmatSearch h shmid pages ((range n).map attempts) s bottom false = none := by
  refine shmatSearch_stuck (J := fun b w => w = true → b = topKey ∧
    s.mappedPages topKey = true ∧ s.Fits h pages topKey (topKey - pages)) ?_ n attempts _ _ hfl
    nofun
  intro b w hw
  obtain ⟨lower, next, hfn, hne, hor⟩ := findTwice_room hlow hali hrm b
  obtain ⟨start, hsta, hft⟩ := findTwice_fits hlow hali (isKey_topKey h) hfn hne
  -- from the last page the range in front of it is found again
  have haga : w = true → lower + pages = topKey := by
    intro htr
    obtain ⟨rfl, hmr, htof⟩ := hw htr
    have hend : scanEnd h topKey = topKey := (isKey_topKey h).1
    have htop : s.Topmost h pages topKey lower := by
      rcases hor with ⟨-, -, htop⟩ | ⟨-, htop, -⟩
      · rwa [hend] at htop
      · exact htop
    obtain ⟨hfou, hmax⟩ := htop.ne_zero htof
    have h1 := hfou.le
    by_contra hneq
    rw [hfou.free topKey (by omega) (by omega)] at hmr
    cases hmr
  refine ⟨lower, next, hfn, hne, fun heq _ => ⟨rfl, ?_, ?_⟩,
    fun hneq => ⟨fun htr => absurd (haga htr) hneq, fun htr => absurd (haga htr) hneq⟩⟩
  · -- the marked page is not in the range, so it is the last one
    obtain ⟨i, hi, hmr⟩ := hus (hft.k4_of_eq_topKey hali heq)
    rcases Nat.eq_zero_or_pos i with rfl | hpos
    · exact hmr
    · rw [hft.free (topKey - i) (by omega) (by omega)] at hmr
      cases hmr
  · rw [← heq, Nat.add_sub_cancel]
    exact hft.mono (by omega)

section

variable (hlow : s.LowMark .k4) (hfr : ∀ i, i ≤ pages → s.mappedPages (topKey - i) = false)
include hlow hfr

/-- With the last `pages + 1` pages free, the scans from the last two pages. -/
theorem top_fits : pages < topKey ∧ s.Fits .k4 pages (topKey - 1) (topKey - pages) ∧
      s.Fits .k4 pages topKey (topKey + 1 - pages) := by
  obtain ⟨p, hp, hmr⟩ := hlow
  have hp : p < 17 := hp
  have htop : topKey = 0xFFFFF := rfl
  have hbs : baseKey = 16 := rfl
  have hlt : pages < topKey := by
    by_contra hge
    have hfr' := hfr (topKey - p) (by omega)
    rw [Nat.sub_sub_self (by omega), hmr] at hfr'
    cases hfr'
  have hpg : ∀ x, topKey ≤ x + pages → x ≤ topKey → s.mappedPages x = false := by
    intro x h1 h2
    have hx := hfr (topKey - x) (by omega)
    rwa [Nat.sub_sub_self h2] at hx
  refine ⟨hlt, ⟨Nat.mod_one _, by omega, by omega, by omega, fun x h1 h2 => ?_⟩,
    ⟨Nat.mod_one _, by omega, by omega, by omega, fun x h1 h2 => ?_⟩⟩
  · exact hpg x (by omega) (by omega)
  · exact hpg x (by omega) (by omega)

/-- The last `pages + 1` pages are free: the range the loop finds from a start. -/
theorem findTwice_top_free (b : ℕ) :
    ∃ lower next, s.findTwice .k4 b topKey pages = some (lower, next) ∧ lower ≠ 0 ∧
      ((next = b ∧ b ≤ topKey ∧ s.Topmost .k4 pages b lower) ∨
        (next = topKey ∧ lower = topKey + 1 - pages ∧
          ∀ d, b ≤ topKey → ¬s.Fits .k4 pages b d)) := by
  obtain ⟨hlt, hbel, htop⟩ := top_fits hlow hfr
  obtain ⟨lower, next, hfn, hne, ⟨h1, h2, h3⟩ | ⟨h1, h2, h3⟩⟩ :=
    findTwice_room hlow (Nat.mod_one _) htop b
  · rw [scanEnd_k4] at h2 h3
    exact ⟨lower, next, hfn, hne, .inl ⟨h1, h2, h3⟩⟩
  · rw [scanEnd_k4] at h3
    obtain ⟨hft, hmax⟩ := h2.ne_zero htop
    have hle := hft.le
    exact ⟨lower, next, hfn, hne, .inr ⟨h1, by omega, h3⟩⟩

end

section

variable (hlow : s.LowMark .k4) (hpag : 0 < pages)
  (hfr : ∀ i, i ≤ pages → s.mappedPages (topKey - i) = false)
include hlow hpag hfr

omit hpag in
/-- From the page in front of the last one the range that ends there is found. -/
theorem findTwice_front : ∃ lower next,
    s.findTwice .k4 (topKey - 1) topKey pages = some (lower, next) ∧ lower ≠ 0 ∧
      lower + pages = topKey := by
  obtain ⟨hlt, hbel, -⟩ := top_fits hlow hfr
  obtain ⟨lower, next, hfn, hne, ⟨-, -, htpm⟩ | ⟨-, -, hno⟩⟩ :=
    findTwice_top_free hlow hfr (topKey - 1)
  · obtain ⟨hft, hmax⟩ := htpm.ne_zero hbel
    have hle := hft.le
    exact ⟨lower, next, hfn, hne, by omega⟩
  · exact absurd hbel (hno _ (by omega))

omit hpag in
/-- From the last page, or from behind it, the range at the end is found. -/
theorem findTwice_last {b : ℕ} (hb : topKey ≤ b) :
    s.findTwice .k4 b topKey pages = some (topKey + 1 - pages, topKey) := by
  obtain ⟨hlt, -, htop⟩ := top_fits hlow hfr
  obtain ⟨lower, next, hfn, -, ⟨rfl, hle, htpm⟩ | ⟨rfl, rfl, -⟩⟩ :=
    findTwice_top_free hlow hfr b
  · obtain rfl : next = topKey := by omega
    obtain ⟨hft, hmax⟩ := htpm.ne_zero htop
    have hle := hft.le
    rw [hfn, show lower = topKey + 1 - pages by omega]
  · exact hfn

/-- The last `pages + 1` pages are free, and the loop does not get to the range in front of the last
page, or it begins there and is too long to give up. -/
theorem stuck_of_top_free (hnot : ¬s.GivesUp .k4 pages) (n : ℕ) (hfl : ∀ i, attempts i ≠ none) :
    shmatSearch .k4 shmid pages ((range n).map attempts) s s.lastScanLocation false = none := by
  obtain ⟨hlt, hbel, htop⟩ := top_fits hlow hfr
  by_cases hfir : s.lastScanLocation = topKey - 1
  · have hlar : 2 < pages := by
      by_contra hsma
      refine hnot ⟨rfl, by omega, ⟨0, by omega⟩, fun _ => by omega, fun _ => hfr, fun _ => ?_⟩
      rw [hfir]
      exact ⟨_, hbel⟩
    refine shmatSearch_stuck (J := fun b w => (b = topKey - 1 ∧ w = false) ∨
      (topKey ≤ b ∧ w = true)) ?_ n attempts _ _ hfl (.inl ⟨hfir, rfl⟩)
    rintro b w (⟨rfl, rfl⟩ | ⟨hb, rfl⟩)
    · obtain ⟨lower, next, hfn, hne, heq⟩ := findTwice_front hlow hfr
      exact ⟨lower, next, hfn, hne, fun _ => .inr ⟨le_rfl, rfl⟩, fun hneq => absurd heq hneq⟩
    · exact ⟨_, _, findTwice_last hlow hfr hb, by omega, fun heq => absurd heq (by omega),
        fun _ => ⟨fun _ => by omega, .inr ⟨by omega, rfl⟩⟩⟩
  · -- the starts never are the page in front of the last one
    refine shmatSearch_stuck (J := fun b w => w = false ∧ ((∀ j, b + j * pages ≠ topKey - 1) ∨
      b ≠ topKey - 1 ∧ ∀ d, ¬s.Fits .k4 pages b d)) ?_ n attempts _ _ hfl ⟨rfl, ?_⟩
    · rintro b w ⟨rfl, hb⟩
      have hbne : b ≠ topKey - 1 := by
        rcases hb with hb | hb
        · have hb0 := hb 0
          omega
        · exact hb.1
      obtain ⟨lower, next, hfn, hne, ⟨rfl, hle, htpm⟩ | ⟨rfl, rfl, -⟩⟩ :=
        findTwice_top_free hlow hfr b
      · have hft := htpm.fits hne
        refine ⟨lower, next, hfn, hne, fun heq => ?_, fun _ => ⟨nofun, rfl, ?_⟩⟩
        · -- only from the last page could the range be reached, and there it is not the topmost
          have h1 := hft.le
          obtain rfl : next = topKey := by omega
          have hmax := (htpm.ne_zero htop).2
          omega
        · rcases hb with hb | hb
          · left
            intro j
            have hj := hb (j + 1)
            rw [Nat.add_mul] at hj
            omega
          · exact absurd hft (hb.2 lower)
      · refine ⟨_, _, hfn, hne, fun heq => absurd heq (by omega), fun _ => ⟨nofun, rfl, .inl ?_⟩⟩
        intro j
        omega
    · by_cases hrea : ∃ j, s.lastScanLocation + j * pages = topKey - 1
      · right
        refine ⟨hfir, fun d hd => hnot ?_⟩
        obtain ⟨j, hj⟩ := hrea
        refine ⟨rfl, by omega, ⟨j, ?_⟩, fun heq => absurd heq hfir, fun _ => hfr, fun _ => ⟨d, hd⟩⟩
        rw [Nat.mul_comm]
        omega
      · left
        exact not_exists.1 hrea

/-- The loop gets to the range in front of the last page in `k` turns, and gives up. -/
theorem gives_up_of_reach (hex : s.lastScanLocation ≤ topKey + 1 - pages) :
    ∀ k b d (attempts : ℕ → Option ℕ), b + k * pages = topKey - 1 → s.Fits .k4 pages b d →
      (∀ i, attempts i ≠ none) →
      ∃ n e, shmatSearch .k4 shmid pages ((range n).map attempts) s b false =
        some (s, .error e) := by
  obtain ⟨hlt, hbel, htop⟩ := top_fits hlow hfr
  intro k
  induction k with
  | zero =>
    intro b d attempts hb _ hfl
    obtain rfl : b = topKey - 1 := by omega
    obtain ⟨e, he⟩ := Option.ne_none_iff_exists'.1 (hfl 0)
    obtain ⟨e', he'⟩ := Option.ne_none_iff_exists'.1 (hfl 1)
    obtain ⟨lower, next, hfn, hne, heq⟩ := findTwice_front hlow hfr
    have hgo : (true && decide (s.lastScanLocation ≤ topKey + 1 - pages)) = true := by
      rw [Bool.true_and, decide_eq_true_eq]
      exact hex
    refine ⟨2, .kernel e', ?_⟩
    rw [shmatSearch_turn hfn hne, he]
    simp only [if_pos heq]
    rw [shmatSearch_turn (findTwice_last hlow hfr le_rfl) (by omega), he']
    simp only [if_neg (show ¬topKey + 1 - pages + pages = topKey by omega), if_pos hgo]
  | succ k ih =>
    intro b d attempts hb hd hfl
    rw [Nat.add_mul] at hb
    obtain ⟨e, he⟩ := Option.ne_none_iff_exists'.1 (hfl 0)
    obtain ⟨lower, next, hfn, hne, ⟨rfl, -, htpm⟩ | ⟨-, -, hno⟩⟩ :=
      findTwice_top_free hlow hfr b
    swap
    · exact absurd hd (hno _ (by omega))
    have hle := (htpm.fits hne).le
    obtain ⟨n, e', hr⟩ := ih (next + pages) d (fun i => attempts (i + 1)) (by omega)
      (hd.mono (by omega)) fun i => hfl (i + 1)
    refine ⟨n + 1, e', ?_⟩
    rw [shmatSearch_turn hfn hne, he]
    simp only [if_neg (show ¬lower + pages = topKey by omega)]
    exact hr

end

theorem GivesUp.returns (hg : s.GivesUp h pages) (shmid : ℕ) (hlow : s.LowMark h)
    (hfl : ∀ i, attempts i ≠ none) :
    ∃ n e, shmatSearch h shmid pages ((range n).map attempts) s s.lastScanLocation false =
      some (s, .error e) := by
  obtain ⟨rfl, hlt, ⟨k, hk⟩, hsma, hfr, hrm⟩ := hg
  rw [Nat.mul_comm] at hk
  rcases Nat.eq_zero_or_pos pages with rfl | hpag
  · -- no pages: the page behind the start is the last one, then the one behind that
    have hls : s.lastScanLocation = topKey - 1 := by omega
    obtain ⟨e, he⟩ := Option.ne_none_iff_exists'.1 (hfl 0)
    obtain ⟨e', he'⟩ := Option.ne_none_iff_exists'.1 (hfl 1)
    have hkey := isKey_topKey .k4
    refine ⟨2, .kernel e', ?_⟩
    rw [hls, shmatSearch_turn (findTwice_zero s _ hkey (by decide)) (Nat.succ_ne_zero _), he]
    simp only [if_pos (show scanEnd .k4 (zeroStart .k4 (topKey - 1) topKey) + 1 + 0 = topKey by
      decide)]
    rw [shmatSearch_turn (findTwice_zero s _ hkey (by decide)) (Nat.succ_ne_zero _), he']
    have hgo : (true && decide (s.lastScanLocation ≤
        scanEnd .k4 (zeroStart .k4 topKey topKey) + 1)) = true := by
      rw [hls]
      decide
    simp only [if_neg (show ¬scanEnd .k4 (zeroStart .k4 topKey topKey) + 1 + 0 = topKey by decide),
      if_pos hgo]
  · obtain ⟨d, hd⟩ := hrm hpag
    refine gives_up_of_reach hlow hpag (hfr hpag) ?_ k _ d attempts (by omega) hd hfl
    rcases Nat.eq_zero_or_pos k with rfl | hkp
    · have := hsma (by omega)
      omega
    · have hmul := Nat.mul_le_mul_right pages hkp
      omega

/-- A loop for no pages that does not give up. -/
theorem stuck_of_zero (hnot : ¬s.GivesUp h 0) (n : ℕ) (hfl : ∀ i, attempts i ≠ none) :
    shmatSearch h shmid 0 ((range n).map attempts) s s.lastScanLocation false = none := by
  have hkey := isKey_topKey h
  have hbs : baseKey ≤ topKey := by decide
  refine shmatSearch_stuck
    (J := fun b w => w = false ∧ scanEnd h (zeroStart h b topKey) + 1 ≠ topKey) ?_ n attempts _ _
    hfl ⟨rfl, fun heq => ?_⟩
  · rintro b w ⟨rfl, hb⟩
    refine ⟨_, _, findTwice_zero s b hkey hbs, Nat.succ_ne_zero _, fun heq => absurd heq hb,
      fun _ => ⟨nofun, rfl, ?_⟩⟩
    simpa only [Nat.add_zero, zeroStart_idem hkey hbs] using hb
  · have htok : topKey = 0xFFFFF := rfl
    cases h with
    | k64 =>
      have hmod := (scanEnd_spec .k64 (zeroStart .k64 s.lastScanLocation topKey)).1
      rw [heq] at hmod
      exact absurd hmod (by decide)
    | k4 =>
      rw [scanEnd_k4, zeroStart, scanEnd_k4] at heq
      split at heq
      · exact hnot ⟨rfl, by omega, ⟨0, by omega⟩, fun _ => by omega, fun h0 => absurd h0 (by omega),
          fun h0 => absurd h0 (by omega)⟩
      · omega

end Shmat

/-- `Shmat` without an address returns after finitely many of the kernel's answers, with an error or
a free range. -/
def ShmatReturns (h : HostPages) (s : State) (shmid segsz : ℕ) (shmctl : Bool)
    (attempts : ℕ → Option ℕ) : Prop :=
  ∃ n r, (∀ fixed, s.shmat h ⟨shmid, 0⟩ ⟨segsz, shmctl, fixed, (range n).map attempts⟩ =
    some r) ∧ s.AnswersFree (segmentPages h segsz) r

/-- **`Shmat` without an address.** -/
theorem shmatReturns_iff (hlow : s.LowMark h) (shmid segsz : ℕ) (shmctl : Bool)
    (attempts : ℕ → Option ℕ) :
    s.ShmatReturns h shmid segsz shmctl attempts ↔ shmctl = false ∨ (∃ n, attempts n = none) ∨
        (∀ c, ¬s.Fits h (segmentPages h segsz) topKey c) ∨ s.GivesUp h (segmentPages h segsz) := by
  cases shmctl with
  | false => exact iff_of_true ⟨0, _, fun _ => rfl, nofun⟩ (.inl rfl)
  | true =>
    have hali : segmentPages h segsz % h.granule = 0 := Nat.mul_mod_left _ _
    have hcl : ∀ n fixed, s.shmat h ⟨shmid, 0⟩ ⟨segsz, true, fixed, (range n).map attempts⟩ =
        shmatSearch h shmid (segmentPages h segsz) ((range n).map attempts) s
          s.lastScanLocation false := fun _ _ => rfl
    by_cases hacc : ∃ n, attempts n = none
    · obtain ⟨n, hn⟩ := hacc
      obtain ⟨m, r, hr, hans⟩ := shmatSearch_accepted shmid hlow hali n attempts
        s.lastScanLocation false hn
      exact iff_of_true ⟨m, r, fun fixed => (hcl m fixed).trans hr, hans⟩ (.inr (.inl ⟨n, hn⟩))
    have hfl : ∀ i, attempts i ≠ none := not_exists.1 hacc
    by_cases hrm : ∃ c, s.Fits h (segmentPages h segsz) topKey c
    swap
    · refine iff_of_true ⟨0, (s, .error .ENOMEM), fun fixed => ?_, nofun⟩
        (.inr (.inr (.inl (not_exists.1 hrm))))
      obtain ⟨lower, next, hfn, ⟨-, h2, h3, h4⟩ | ⟨-, h2, -⟩⟩ :=
        findTwice_spec hlow hali s.lastScanLocation (isKey_topKey h)
      · exact absurd ⟨lower, (h4.fits h2).mono h3⟩ hrm
      · rcases h2 with ⟨rfl, -⟩ | ⟨hft, -⟩
        · exact (hcl 0 fixed).trans (shmatSearch_noRoom hfn _)
        · exact absurd ⟨lower, hft⟩ hrm
    by_cases hgiv : s.GivesUp h (segmentPages h segsz)
    · obtain ⟨n, e, hr⟩ := hgiv.returns shmid hlow hfl
      exact iff_of_true ⟨n, _, fun fixed => (hcl n fixed).trans hr, nofun⟩ (.inr (.inr (.inr hgiv)))
    obtain ⟨d, hd⟩ := hrm
    -- the kernel refuses for ever, there is room, and the loop does not give up
    have hstu : ∀ n, shmatSearch h shmid (segmentPages h segsz) ((range n).map attempts) s
        s.lastScanLocation false = none := by
      intro n
      rcases Nat.eq_zero_or_pos (segmentPages h segsz) with hzr | hpos
      · rw [hzr] at hgiv ⊢
        exact stuck_of_zero hgiv n hfl
      by_cases hus : h = .k4 → ∃ i, i ≤ segmentPages h segsz ∧ s.mappedPages (topKey - i) = true
      · exact stuck_of_top_used hlow hpos hali hd hus n hfl _
      · obtain ⟨rfl, hfr⟩ := Classical.not_imp.1 hus
        refine stuck_of_top_free hlow hpos (fun i hi => ?_) hgiv n hfl
        exact Bool.eq_false_iff.2 fun htr => hfr ⟨i, hi, htr⟩
    refine iff_of_false ?_ ?_
    · rintro ⟨n, r, hr, -⟩
      have hr' := (hcl n (.ok 0)).symm.trans (hr (.ok 0))
      rw [hstu n] at hr'
      cases hr'
    · rintro (h0 | h0 | h0 | h0)
      · cases h0
      · exact hacc h0
      · exact h0 d hd
      · exact hgiv h0

end State

/-- **When the searches return.**  In every state with a mark on a low page, for all answers of the
kernel: `Mmap` without a fixed address returns, with an error or a free range, if and only if it is
refused, asks for a page, or is not answered `EEXIST` (at once if the scan starts at the last page);
`Shmat` without an address does if and only if the segment's size is not known, some attempt
succeeds, there is no room, or the loop gives up. -/
theorem search_returns_iff (h : HostPages) (s : State) (hlow : s.LowMark h) :
    (∀ (q : MmapArgs) (attempts : ℕ → Attempt), q.fixed = false → q.noreplace = false →
      (s.MmapReturns h q attempts ↔ q.Refused h ∨ pagesOf q.length ≠ 0 ∨
        (attempts 0).mmap ≠ some .EEXIST ∨
        scanEnd h (zeroStart h (s.scanStart q) q.lastKey) ≠ topKey ∧
          ∃ n, (attempts n).mmap ≠ some .EEXIST)) ∧
    ∀ (shmid segsz : ℕ) (shmctl : Bool) (attempts : ℕ → Option ℕ),
      (s.ShmatReturns h shmid segsz shmctl attempts ↔ shmctl = false ∨ (∃ n, attempts n = none) ∨
          (∀ c, ¬s.Fits h (segmentPages h segsz) topKey c) ∨
          s.GivesUp h (segmentPages h segsz)) :=
  ⟨fun _ attempts hfix hnor => s.mmapReturns_iff hlow hfix hnor attempts,
    fun shmid segsz shmctl attempts => s.shmatReturns_iff hlow shmid segsz shmctl attempts⟩

/-- A kernel that finds every range occupied. -/
def occupiedAttempt : Attempt := ⟨some .EEXIST, fun _ => false, none, none, true⟩

theorem search_returns_initial :
    initial.MmapReturns .k4 (anywhere 4096) (fun _ => occupiedAttempt) ∧
      initial.ShmatReturns .k64 0 4096 true fun n => if n < 3 then some 12 else none := by
  refine ⟨((search_returns_iff .k4 initial ⟨0, by decide, rfl⟩).1 (anywhere 4096) _ rfl rfl).2
    (.inr (.inl (by decide))), ?_⟩
  exact ((search_returns_iff .k64 initial ⟨0, by decide, rfl⟩).2 0 4096 true _).2
    (.inr (.inl ⟨3, rfl⟩))

/-- Three calls that do not return.  `Shmat` offers the same page to a kernel that refuses it, for
ever; so does `Mmap` with a length of zero to a kernel that finds it occupied; and a scan in a bit
set without low marks runs below the first page, an exception. -/
theorem search_stuck : (∀ n fixed, initial.shmat .k4 ⟨0, 0⟩
        ⟨4096, true, fixed, (range n).map fun _ => some 12⟩ = none) ∧
      (∀ n granule direct, ({ initial with lastScanLocation := 0x1000 } : State).mmap .k4
        (anywhere 0)
        ⟨(range n).map fun _ => occupiedAttempt, granule, direct⟩ = none) ∧
      (({ initial with
          mappedPages := fun p => decide (20 < p)
          lastScanLocation := 20 } : State).mmap .k4 (anywhere (30 * 4096))
          obliging).isNone = true := by
  refine ⟨fun n fixed => ?_, fun n granule direct => ?_, by decide +kernel⟩
  · have hrm : initial.Fits .k4 1 topKey (topKey - 1) := by
      refine ⟨Nat.mod_one _, by decide, by decide, by decide, fun p h1 h2 => ?_⟩
      obtain rfl : p = topKey - 1 := by omega
      rfl
    have hstu : shmatSearch .k4 0 1 ((range n).map fun _ => some 12) initial topKey
        false = none :=
      stuck_of_top_used ⟨0, by decide, rfl⟩ Nat.one_pos (Nat.mod_one _) hrm
        (fun _ => ⟨0, Nat.zero_le _, rfl⟩) n (fun _ => Option.some_ne_none _) topKey
    have hpag : segmentPages .k4 4096 = 1 := by decide
    rw [shmat, if_neg (by decide), if_pos rfl, hpag]
    exact hstu
  · exact allocateNoHint_zero_stuck (isKey_topKey .k4) (by decide) n _ _ _ fun _ => rfl

end FastPPC.Alloc32
