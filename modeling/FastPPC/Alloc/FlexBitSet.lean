import FastPPC.Arith.Word

/-!
# Bit sets with range scans

`FlexBitSet` keeps one bit for each page of a memory region.  The allocator asks it for a run of
`ElementCount` bits that are all clear: downwards from its last allocation to fill holes, upwards
otherwise.  Both scans test the candidate range bit by bit and skip behind the last bit that is in
the way.

* `forwardScanForRange_spec` : the forward scan finds the lowest run, one element more than the set
  has included;
* `backwardScanForRange_spec` : the backward scan finds the highest run that ends at or below its
  start.
-/

namespace FastPPC

open List

def FlexBitSet := ℕ → Bool

namespace FlexBitSet

def clear : FlexBitSet := fun _ => false

variable (s : FlexBitSet)

/-- `MemSet`: the number of bytes is the number of words, rounded up to 64. -/
def memSet (elements : ℕ) : FlexBitSet :=
  fun i => decide (i < 8 * ((elements / 64 + 63) / 64 * 64)) || s i

/-- `TestAndSet` of `n` elements. -/
def setRange (first n : ℕ) : FlexBitSet :=
  fun i => decide (first ≤ i ∧ i < first + n) || s i

/-- `TestAndClear` of `n` elements. -/
def clearRange (first n : ℕ) : FlexBitSet :=
  fun i => !decide (first ≤ i ∧ i < first + n) && s i

/-- How many of the `n` elements have the value `v`. -/
def count (v : Bool) (first n : ℕ) : ℕ :=
  ((range n).filter fun i => s (first + i) == v).length

/-- No bit of the range is set. -/
def Free (first n : ℕ) : Prop := ∀ i, i < n → s (first + i) = false

instance (s : FlexBitSet) (first n : ℕ) : Decidable (s.Free first n) :=
  inferInstanceAs (Decidable (∀ i, i < n → s (first + i) = false))

variable {s : FlexBitSet} {first count : ℕ}

theorem Free.not_of_set {i : ℕ} (h : s i = true) (h1 : first ≤ i) (h2 : i < first + count) :
    ¬s.Free first count := by
  intro hfr
  have hi := hfr (i - first) (by omega)
  rw [Nat.add_sub_cancel' h1, h] at hi
  cases hi

/-! ### Counting -/

section Count

variable {t : FlexBitSet} {v : Bool} {first n : ℕ}

theorem count_add (s : FlexBitSet) (v : Bool) (first a b : ℕ) :
    s.count v first (a + b) = s.count v first a + s.count v (first + a) b := by
  simp only [FlexBitSet.count, range_add, filter_append, length_append, filter_map, length_map]
  congr 3
  funext i
  simp [Nat.add_assoc]

theorem count_congr (h : ∀ i, i < n → s (first + i) = t (first + i)) :
    s.count v first n = t.count v first n := by
  rw [FlexBitSet.count, FlexBitSet.count]
  congr 1
  exact filter_congr fun i hi => by rw [h i (mem_range.1 hi)]

theorem count_eq (h : ∀ i, i < n → s (first + i) = v) : s.count v first n = n := by
  rw [FlexBitSet.count, filter_eq_self.2 fun i hi => beq_iff_eq.2 (h i (mem_range.1 hi)),
    length_range]

theorem count_true_add_count_false (s : FlexBitSet) (first n : ℕ) :
    s.count true first n + s.count false first n = n := by
  induction n with
  | zero => rfl
  | succ n ih =>
    rw [count_add, count_add]
    have hls : s.count true (first + n) 1 + s.count false (first + n) 1 = 1 := by
      cases h : s (first + n) <;> simp [FlexBitSet.count, h]
    omega

/-- **Frame rule for counts**: sets that differ only inside the range `[c, c + n)` differ in their
counts by what the range counts. -/
theorem count_frame {m N c : ℕ} (hm : m ≤ c) (hN : c + n ≤ N)
    (h : ∀ i, m ≤ i → i < N → i < c ∨ c + n ≤ i → t i = s i) :
    t.count v m (N - m) + s.count v c n = s.count v m (N - m) + t.count v c n := by
  have hspl : ∀ u : FlexBitSet, u.count v m (N - m) =
      u.count v m (c - m) + u.count v c n + u.count v (c + n) (N - (c + n)) := by
    intro u
    have h1 := u.count_add v m (c - m) (n + (N - (c + n)))
    have h2 := u.count_add v c n (N - (c + n))
    rw [show c - m + (n + (N - (c + n))) = N - m by omega, show m + (c - m) = c by omega] at h1
    omega
  have hbel : t.count v m (c - m) = s.count v m (c - m) :=
    count_congr fun i hi => h _ (by omega) (by omega) (.inl (by omega))
  have habo : t.count v (c + n) (N - (c + n)) = s.count v (c + n) (N - (c + n)) :=
    count_congr fun i hi => h _ (by omega) (by omega) (.inr (by omega))
  rw [hspl s, hspl t, hbel, habo]
  omega

end Count

/-! ### The forward scan -/

variable {found : Option ℕ}

/-- `BitsetScanResults`, and as history which elements were read. -/
structure ScanResults where
  foundElement : Option ℕ
  foundHole : Bool
  reads : List ℕ

/-- The results of a loop whose first turn has read these elements. -/
def ScanResults.after (reads : List ℕ) (r : ScanResults) : ScanResults :=
  { r with reads := reads ++ r.reads }

/-- The inner loop of `ForwardScanForRange`: what remains when it meets a set bit, and what it has
read. -/
def forwardTest (s : FlexBitSet) (cur : ℕ) : ℕ → ℕ × List ℕ
  | 0 => (0, [])
  | r + 1 =>
    if s (cur + r) then (r + 1, [cur + r])
    else ((forwardTest s cur r).1, (cur + r) :: (forwardTest s cur r).2)

/-- The outer loop, from `cur` up to `final`. -/
def forwardScan (s : FlexBitSet) (count final : ℕ) : ℕ → ℕ → Bool → ScanResults
  | 0, _, hole => ⟨none, hole, []⟩
  | fuel + 1, cur, hole =>
    if cur ≤ final then
      match forwardTest s cur count with
      | (0, reads) => ⟨some cur, hole, reads⟩
      | (r + 1, reads) =>
        (forwardScan s count final fuel (cur + (r + 1)) (hole || r + 1 != count)).after reads
    else ⟨none, hole, []⟩

/-- `ForwardScanForRange<true>`: the found element, and whether there was a hole that is too small.
The loop moves by at least one element in each turn. -/
def forwardScanForRange (beginning count elementsInSet : ℕ) : ScanResults :=
  forwardScan s count (wadd (wsub elementsInSet count) 1)
    (wadd (wsub elementsInSet count) 1 + 1 - beginning) beginning false

/-- `e` is the last set element of the `n` from `first` on. -/
structure LastSet (s : FlexBitSet) (first n e : ℕ) : Prop where
  set : s e = true
  le : first ≤ e
  lt : e < first + n
  last : ∀ i, e < i → i < first + n → s i = false

theorem forwardTest_spec (s : FlexBitSet) (cur : ℕ) : ∀ n,
    ((forwardTest s cur n).1 = 0 ∧ s.Free cur n ∨
      ∃ r, (forwardTest s cur n).1 = r + 1 ∧ LastSet s cur n (cur + r)) ∧
      ∀ i ∈ (forwardTest s cur n).2, i < cur + n
  | 0 => ⟨.inl ⟨rfl, fun _ hi => absurd hi (Nat.not_lt_zero _)⟩, forall_mem_nil _⟩
  | n + 1 => by
    rw [forwardTest]
    split
    · rename_i hset
      refine ⟨.inr ⟨n, rfl, hset, by omega, by omega, fun i h1 h2 => ?_⟩, ?_⟩
      · omega
      · exact forall_mem_singleton.2 (by omega)
    · rename_i hset
      have hset := Bool.eq_false_iff.2 hset
      obtain ⟨hrem, hrd⟩ := forwardTest_spec s cur n
      refine ⟨?_, forall_mem_cons.2 ⟨by omega, fun i hi => (hrd i hi).trans (by omega)⟩⟩
      rcases hrem with ⟨hzr, hfr⟩ | ⟨r, hr, hls⟩
      · refine .inl ⟨hzr, fun i hi => ?_⟩
        rcases Nat.lt_succ_iff_lt_or_eq.1 hi with hlt | rfl
        · exact hfr i hlt
        · exact hset
      · refine .inr ⟨r, hr, hls.set, hls.le, hls.lt.trans (by omega), fun i h1 h2 => ?_⟩
        rcases Nat.lt_or_ge i (cur + n) with hlt | hge
        · exact hls.last i h1 hlt
        · rwa [show i = cur + n by omega]

/-- The lowest run from `beginning` on that starts at `final` or below. -/
structure IsLowest (s : FlexBitSet) (count beginning final c : ℕ) : Prop where
  le : beginning ≤ c
  le_final : c ≤ final
  free : s.Free c count
  lowest : ∀ d, beginning ≤ d → d < c → ¬s.Free d count

/-- What a forward scan finds. -/
def Lowest (s : FlexBitSet) (count beginning final : ℕ) : Option ℕ → Prop
  | some c => IsLowest s count beginning final c
  | none => ∀ d, beginning ≤ d → d ≤ final → ¬s.Free d count

/-- A free run is what is found if there is none before it. -/
theorem Lowest.eq_some {beginning final d : ℕ} (h : Lowest s count beginning final found)
    (hle : beginning ≤ d) (hfinal : d ≤ final) (hfr : s.Free d count)
    (hno : ∀ c, beginning ≤ c → c < d → ¬s.Free c count) : found = some d := by
  cases found with
  | none => exact absurd hfr (h d hle hfinal)
  | some c =>
    rcases Nat.lt_trichotomy c d with hlt | rfl | hgt
    · exact absurd h.free (hno c h.le hlt)
    · rfl
    · exact absurd hfr (h.lowest d hle hgt)

theorem Lowest.of_skip {cur next final : ℕ} (hle : cur ≤ next)
    (hsk : ∀ d, cur ≤ d → d < next → ¬s.Free d count) (h : Lowest s count next final found) :
    Lowest s count cur final found := by
  have hno : ∀ d, cur ≤ d → (next ≤ d → ¬s.Free d count) → ¬s.Free d count := by
    intro d h1 h2
    by_cases hd : d < next
    · exact hsk d h1 hd
    · exact h2 (by omega)
  cases found with
  | none => exact fun d h1 h2 => hno d h1 fun hd => h d hd h2
  | some c =>
    exact ⟨hle.trans h.le, h.le_final, h.free, fun d h1 h2 => hno d h1 fun hd => h.lowest d hd h2⟩

theorem forwardScan_spec (s : FlexBitSet) (count final : ℕ) :
    ∀ fuel cur hole, final + 1 ≤ fuel + cur →
      Lowest s count cur final (forwardScan s count final fuel cur hole).1 := by
  intro fuel
  induction fuel with
  | zero =>
    intro cur hole hfl d hcur hd
    omega
  | succ fuel ih =>
    intro cur hole hfl
    rw [forwardScan]
    by_cases hle : cur ≤ final
    · rw [if_pos hle]
      obtain ⟨hrem, -⟩ := forwardTest_spec s cur count
      generalize forwardTest s cur count = t at hrem
      obtain ⟨rem, reads⟩ := t
      rcases hrem with ⟨rfl, hfr⟩ | ⟨r, rfl, hls⟩
      · exact ⟨le_rfl, hle, hfr, fun d h1 h2 => absurd h2 (by omega)⟩
      · have hlt := hls.lt
        refine (ih (cur + (r + 1)) (hole || r + 1 != count) (by omega)).of_skip (by omega) ?_
        -- every run that starts in the skipped part holds the set bit
        intro d h1 h2
        exact Free.not_of_set hls.set (by omega) (by omega)
    · rw [if_neg hle]
      intro d h1 h2
      omega

/-- **The forward scan** also accepts the run that ends one element behind the set. -/
theorem forwardScanForRange_spec (s : FlexBitSet) (beginning : ℕ) {elementsInSet : ℕ}
    (hset : elementsInSet < word - 1) (hcou : count ≤ elementsInSet) :
    Lowest s count beginning (elementsInSet + 1 - count)
      (s.forwardScanForRange beginning count elementsInSet).1 := by
  have hfin : wadd (wsub elementsInSet count) 1 = elementsInSet + 1 - count := by
    rw [wsub_eq (by omega) hcou, wadd_eq (by omega)]
    omega
  rw [forwardScanForRange, hfin]
  exact forwardScan_spec s count _ _ beginning false (by omega)

/-! ### The backward scan -/

variable {minimum : ℕ}

/-- The inner loop of `BackwardScanForRange`. -/
def backwardTest (s : FlexBitSet) (cur : ℕ) : ℕ → ℕ × List ℕ
  | 0 => (0, [])
  | r + 1 =>
    if s (cur - r) then (r + 1, [cur - r])
    else ((backwardTest s cur r).1, (cur - r) :: (backwardTest s cur r).2)

/-- `CurrentPage` after the removal of `r + 1` elements; below element 0 it wraps around. -/
def backwardNext (cur r : ℕ) : ℕ := if cur ≤ r then word - 1 else cur - (r + 1)

/-- The outer loop, from `cur` down to `final`. -/
def backwardScan (s : FlexBitSet) (count final : ℕ) : ℕ → ℕ → Bool → ScanResults
  | 0, _, hole => ⟨none, hole, []⟩
  | fuel + 1, cur, hole =>
    if final ≤ cur then
      match backwardTest s cur count with
      | (0, reads) => ⟨some (cur + 1 - count), hole, reads⟩
      | (r + 1, reads) =>
        (backwardScan s count final fuel (backwardNext cur r) (hole || r + 1 != count)).after reads
    else ⟨none, hole, []⟩

/-- `BackwardScanForRange<true>`. -/
def backwardScanForRange (beginning count minimum : ℕ) : ScanResults :=
  backwardScan s count (minimum + count - 1) (beginning + 1) beginning false

/-- `e` is the first set element of the `n` up to `last`. -/
structure FirstSet (s : FlexBitSet) (last n e : ℕ) : Prop where
  set : s e = true
  le : e ≤ last
  lt : last < e + n
  first : ∀ i, i < e → last < i + n → s i = false

theorem backwardTest_spec (s : FlexBitSet) (cur : ℕ) : ∀ n, n ≤ cur + 1 →
    ((backwardTest s cur n).1 = 0 ∧ s.Free (cur + 1 - n) n ∨
      ∃ r, (backwardTest s cur n).1 = r + 1 ∧ r ≤ cur ∧ FirstSet s cur n (cur - r)) ∧
      ∀ i ∈ (backwardTest s cur n).2, i ≤ cur
  | 0, _ => ⟨.inl ⟨rfl, fun _ hi => absurd hi (Nat.not_lt_zero _)⟩, forall_mem_nil _⟩
  | n + 1, hn => by
    rw [backwardTest]
    split
    · rename_i hset
      refine ⟨.inr ⟨n, rfl, by omega, hset, by omega, by omega, fun i h1 h2 => ?_⟩, ?_⟩
      · omega
      · exact forall_mem_singleton.2 (by omega)
    · rename_i hset
      have hset := Bool.eq_false_iff.2 hset
      obtain ⟨hrem, hrd⟩ := backwardTest_spec s cur n (by omega)
      refine ⟨?_, forall_mem_cons.2 ⟨by omega, hrd⟩⟩
      rcases hrem with ⟨hzr, hfr⟩ | ⟨r, hr, hrc, hfs⟩
      · refine .inl ⟨hzr, fun i hi => ?_⟩
        rcases Nat.eq_zero_or_pos i with rfl | hpos
        · rwa [Nat.add_zero, Nat.add_sub_add_right]
        · have hbit := hfr (i - 1) (by omega)
          rwa [show cur + 1 - n + (i - 1) = cur + 1 - (n + 1) + i by omega] at hbit
      · refine .inr ⟨r, hr, hrc, hfs.set, hfs.le, hfs.lt.trans (by omega), fun i h1 h2 => ?_⟩
        rcases Nat.lt_or_ge cur (i + n) with hlt | hge
        · exact hfs.first i h1 hlt
        · rwa [show i = cur - n by omega]

/-- The highest run from `minimum` on that ends at `beginning` or below. -/
structure IsHighest (s : FlexBitSet) (count beginning minimum c : ℕ) : Prop where
  minimum_le : minimum ≤ c
  le : c + count ≤ beginning + 1
  free : s.Free c count
  highest : ∀ d, c < d → d + count ≤ beginning + 1 → ¬s.Free d count

/-- What a backward scan finds. -/
def Highest (s : FlexBitSet) (count beginning minimum : ℕ) : Option ℕ → Prop
  | some c => IsHighest s count beginning minimum c
  | none => ∀ d, minimum ≤ d → d + count ≤ beginning + 1 → ¬s.Free d count

theorem Highest.of_skip {cur next : ℕ} (hle : next ≤ cur)
    (hsk : ∀ d, d + count ≤ cur + 1 → ¬d + count ≤ next + 1 → ¬s.Free d count)
    (h : Highest s count next minimum found) : Highest s count cur minimum found := by
  have hno : ∀ d, d + count ≤ cur + 1 → (d + count ≤ next + 1 → ¬s.Free d count) →
      ¬s.Free d count := by
    intro d h1 h2
    by_cases hd : d + count ≤ next + 1
    · exact h2 hd
    · exact hsk d h1 hd
  cases found with
  | none => exact fun d h1 h2 => hno d h2 fun hd => h d h1 hd
  | some c =>
    exact ⟨h.minimum_le, h.le.trans (by omega), h.free,
      fun d h1 h2 => hno d h2 fun hd => h.highest d h1 hd⟩

/-- A chain of set elements leads down from `a` to `c`: each is the first one within the `count`
elements up to the one below the element before it, at first up to `a`. -/
inductive DownChain (s : FlexBitSet) (count : ℕ) : ℕ → ℕ → Prop
  | nil (a : ℕ) : DownChain s count a a
  | cons {a e c : ℕ} : FirstSet s a count (e + 1) → DownChain s count e c → DownChain s count a c

/-- The scan wraps around below element 0. -/
def Wraps (s : FlexBitSet) (beginning count minimum : ℕ) : Prop :=
  minimum = 0 ∧ s 0 = true ∧ DownChain s count beginning (count - 1)

/-- A backward scan that does not wrap around finds the highest run and reads below its start. -/
theorem backwardScan_spec (s : FlexBitSet) (count minimum : ℕ) :
    ∀ fuel cur hole, cur < fuel → ¬Wraps s cur count minimum →
      Highest s count cur minimum (backwardScan s count (minimum + count - 1) fuel cur hole).1 ∧
        ∀ i ∈ (backwardScan s count (minimum + count - 1) fuel cur hole).reads, i ≤ cur := by
  intro fuel
  induction fuel with
  | zero =>
    intro cur hole hfl
    omega
  | succ fuel ih =>
    intro cur hole hfl hwr
    rw [backwardScan]
    by_cases hle : minimum + count - 1 ≤ cur
    · rw [if_pos hle]
      obtain ⟨hrem, hrd⟩ := backwardTest_spec s cur count (by omega)
      generalize backwardTest s cur count = t at hrem hrd
      obtain ⟨rem, reads⟩ := t
      rcases hrem with ⟨rfl, hfr⟩ | ⟨r, rfl, hrc, hfs⟩
      · exact ⟨⟨by omega, by omega, hfr, fun d h1 h2 => absurd h2 (by omega)⟩, hrd⟩
      · have hlt := hfs.lt
        -- the element in the way is not element 0
        have hpos : r < cur := by
          by_contra hge
          obtain rfl : r = cur := by omega
          have hbit := hfs.set
          rw [Nat.sub_self] at hbit
          obtain rfl : r = count - 1 := by omega
          exact hwr ⟨by omega, hbit, .nil _⟩
        have hnx : backwardNext cur r = cur - (r + 1) := if_neg (by omega)
        rw [show cur - r = cur - (r + 1) + 1 by omega] at hfs
        obtain ⟨hhg, hrd'⟩ := ih (cur - (r + 1)) (hole || r + 1 != count) (by omega)
          fun h => hwr ⟨h.1, h.2.1, .cons hfs h.2.2⟩
        dsimp only
        rw [hnx]
        refine ⟨hhg.of_skip (by omega) fun d h1 h2 => ?_, ?_⟩
        · exact Free.not_of_set hfs.set (by omega) (by omega)
        · exact forall_mem_append.2 ⟨hrd, fun i hi => (hrd' i hi).trans (by omega)⟩
    · rw [if_neg hle]
      refine ⟨fun d h1 h2 => ?_, forall_mem_nil _⟩
      omega

/-- **The backward scan** above a positive minimum. -/
theorem backwardScanForRange_spec (s : FlexBitSet) (beginning count : ℕ) (hmin : 0 < minimum) :
    Highest s count beginning minimum (s.backwardScanForRange beginning count minimum).1 :=
  (backwardScan_spec s count minimum _ beginning false (Nat.lt_succ_self _)
    fun h => hmin.ne h.1.symm).1

end FlexBitSet

end FastPPC
