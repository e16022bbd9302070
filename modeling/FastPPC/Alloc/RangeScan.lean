import FastPPC.Alloc.FlexBitSet

/-!
# Where the range scans are exact

The scans of a bit set with `size` elements: which elements they read, and what they find.  The
forward scan also tests the range that ends one element behind the set, and a backward scan whose
range starts at element 0 wraps around if this element is in its way.

* `UpChain`, with `DownChain` : chains of set elements that a scan has to skip;
* `ForwardExact`, `BackwardExact` : what is asked of a scan, of its reads and of its result;
* `scans_exact_iff` : **the scans that are exact**, by the set and the arguments alone, and the
  sizes that `MemSet` and `MemClear` get right.
-/

namespace FastPPC.FlexBitSet

/-- `MemClear`, of as many bytes as `MemSet`. -/
def memClear (s : FlexBitSet) (elements : ℕ) : FlexBitSet :=
  fun i => !decide (i < 8 * ((elements / 64 + 63) / 64 * 64)) && s i

/-- A chain of set elements leads up from `a` to `c`: each is the last one within the `count`
elements from the one above the element before it, at first from `a`. -/
inductive UpChain (s : FlexBitSet) (count : ℕ) : ℕ → ℕ → Prop
  | nil (a : ℕ) : UpChain s count a a
  | cons {a e c : ℕ} : LastSet s a count e → UpChain s count (e + 1) c → UpChain s count a c

variable (s : FlexBitSet) (size beginning count minimum : ℕ)

/-- `FinalElement` of the forward scan. -/
def forwardFinal : ℕ := wadd (wsub size count) 1

/-- With every number of turns that is enough, the forward scan reads only elements of the set and
ends at the lowest run in the set. -/
structure ForwardExact : Prop where
  reads : ∀ fuel, forwardFinal size count < fuel + beginning →
    ∀ i ∈ (forwardScan s count (forwardFinal size count) fuel beginning false).reads, i < size
  found : ∀ fuel, forwardFinal size count < fuel + beginning →
    Lowest s count beginning (size - count)
      (forwardScan s count (forwardFinal size count) fuel beginning false).foundElement

/-- The same for the backward scan and the highest run. -/
structure BackwardExact : Prop where
  reads : ∀ fuel, beginning < fuel →
    ∀ i ∈ (backwardScan s count (minimum + count - 1) fuel beginning false).reads, i < size
  found : ∀ fuel, beginning < fuel → Highest s count beginning minimum
    (backwardScan s count (minimum + count - 1) fuel beginning false).foundElement

variable {s : FlexBitSet} {size beginning count minimum final : ℕ}

/-! ### The forward scan -/

variable {cur a c : ℕ}

theorem LastSet.forwardTest {e : ℕ} (h : LastSet s cur count e) :
    ∃ r, (forwardTest s cur count).1 = r + 1 ∧ cur + (r + 1) = e + 1 := by
  obtain ⟨⟨-, hfr⟩ | ⟨r, hr, hls⟩, -⟩ := forwardTest_spec s cur count
  · exact absurd hfr (Free.not_of_set h.set h.le h.lt)
  · refine ⟨r, hr, ?_⟩
    rcases Nat.lt_trichotomy (cur + r) e with hlt | heq | hgt
    · exact absurd h.set (by rw [hls.last e hlt h.lt]; decide)
    · omega
    · exact absurd hls.set (by rw [h.last _ hgt hls.lt]; decide)

theorem mem_forwardScan_reads (hle : cur ≤ final) (hcount : 0 < count) (fuel : ℕ) (hole : Bool) :
    cur + count - 1 ∈ (forwardScan s count final (fuel + 1) cur hole).reads := by
  have hrd : cur + count - 1 ∈ (FlexBitSet.forwardTest s cur count).2 := by
    obtain ⟨n, rfl⟩ : ∃ n, count = n + 1 := ⟨count - 1, by omega⟩
    rw [FlexBitSet.forwardTest]
    split <;> exact List.mem_cons_self
  rw [forwardScan, if_pos hle]
  split
  · rename_i heq
    rwa [heq] at hrd
  · rename_i heq
    rw [heq] at hrd
    exact List.mem_append_left _ hrd

theorem UpChain.le (h : UpChain s count a c) : a ≤ c := by
  induction h with
  | nil => exact le_rfl
  | cons hls _ ih => exact (hls.le.trans (Nat.le_succ _)).trans ih

/-- The scan follows a chain, so it tests the range at its end. -/
theorem UpChain.mem_reads (h : UpChain s count a c) (hcount : 0 < count) (hc : c ≤ final) :
    ∀ fuel hole, final < fuel + a →
      c + count - 1 ∈ (forwardScan s count final fuel a hole).reads := by
  induction h with
  | nil a =>
    intro fuel hole hfl
    obtain ⟨fuel, rfl⟩ : ∃ n, fuel = n + 1 := ⟨fuel - 1, by omega⟩
    exact mem_forwardScan_reads hc hcount fuel hole
  | @cons a e c hls htl ih =>
    intro fuel hole hfl
    have hle := htl.le
    have hae := hls.le
    obtain ⟨fuel, rfl⟩ : ∃ n, fuel = n + 1 := ⟨fuel - 1, by omega⟩
    obtain ⟨r, hr, hnx⟩ := hls.forwardTest
    rw [forwardScan, if_pos (by omega)]
    split
    · rename_i heq
      rw [heq] at hr
      cases hr
    · rename_i r' reads heq
      rw [heq] at hr
      cases hr
      rw [hnx]
      exact List.mem_append_right _ (ih hc fuel _ (by omega))

/-- Every range that the scan tests is at the end of a chain. -/
theorem forwardScan_chain (s : FlexBitSet) (count final : ℕ) : ∀ fuel cur hole,
    (∀ i ∈ (forwardScan s count final fuel cur hole).reads,
      ∃ c, UpChain s count cur c ∧ c ≤ final ∧ i < c + count) ∧
    ∀ c, (forwardScan s count final fuel cur hole).foundElement = some c →
      UpChain s count cur c := by
  intro fuel
  induction fuel with
  | zero => exact fun _ _ => ⟨List.forall_mem_nil _, by rintro _ ⟨⟩⟩
  | succ fuel ih =>
    intro cur hole
    rw [forwardScan]
    by_cases hle : cur ≤ final
    · rw [if_pos hle]
      obtain ⟨hrem, hrd⟩ := forwardTest_spec s cur count
      generalize FlexBitSet.forwardTest s cur count = t at hrem hrd
      obtain ⟨rem, reads⟩ := t
      have hrd := fun i hi => (⟨cur, .nil cur, hle, hrd i hi⟩ :
        ∃ c, UpChain s count cur c ∧ c ≤ final ∧ i < c + count)
      rcases hrem with ⟨rfl, hfr⟩ | ⟨r, rfl, hls⟩
      · refine ⟨hrd, fun c hc => ?_⟩
        obtain rfl := Option.some.inj hc
        exact .nil cur
      · obtain ⟨hrd', hfou⟩ := ih (cur + (r + 1)) (hole || r + 1 != count)
        refine ⟨List.forall_mem_append.2 ⟨hrd, fun i hi => ?_⟩, fun c hc => .cons hls (hfou c hc)⟩
        obtain ⟨c, hch, hc, hlt⟩ := hrd' i hi
        exact ⟨c, .cons hls hch, hc, hlt⟩
    · rw [if_neg hle]
      exact ⟨List.forall_mem_nil _, by rintro _ ⟨⟩⟩

/-- **The forward scan** is exact unless a chain leads to the element from which a range ends behind
the set. -/
theorem forwardExact_iff (hsz : size < word) (hcount : 0 < count) (hle : count ≤ size) :
    ForwardExact s size beginning count ↔ ¬UpChain s count beginning (size + 1 - count) := by
  have hfinal : forwardFinal size count = size + 1 - count := by
    rw [forwardFinal, wsub_eq hsz hle, wadd_eq (by omega)]
    omega
  rw [← hfinal]
  constructor
  · intro h hch
    have hfl : forwardFinal size count < forwardFinal size count + 1 + beginning := by omega
    have hrd := h.reads _ hfl _ (hch.mem_reads hcount le_rfl _ false hfl)
    omega
  · intro h
    refine ⟨fun fuel hfl i hi => ?_, fun fuel hfl => ?_⟩
    · obtain ⟨c, hch, hc, hlt⟩ := (forwardScan_chain s count _ fuel beginning false).1 i hi
      have hne : c ≠ forwardFinal size count := fun heq => h (heq ▸ hch)
      omega
    · have hsp := forwardScan_spec s count (forwardFinal size count) fuel beginning false hfl
      cases hc : (forwardScan s count (forwardFinal size count) fuel beginning false).1 with
      | none =>
        rw [hc] at hsp
        exact fun d h1 h2 => hsp d h1 (by omega)
      | some c =>
        rw [hc] at hsp
        have hch := (forwardScan_chain s count _ fuel beginning false).2 c hc
        have hls := hsp.le_final
        have hne : c ≠ forwardFinal size count := fun heq => h (heq ▸ hch)
        exact ⟨hsp.le, by omega, hsp.free, hsp.lowest⟩

/-! ### The backward scan -/

theorem FirstSet.backwardTest {e : ℕ} (hn : count ≤ cur + 1) (h : FirstSet s cur count e) :
    (backwardTest s cur count).1 = cur - e + 1 := by
  obtain ⟨⟨-, hfr⟩ | ⟨r, hr, hrc, hfs⟩, -⟩ := backwardTest_spec s cur count hn
  · have hle := h.le
    have hlt := h.lt
    exact absurd hfr (Free.not_of_set h.set (by omega) (by omega))
  · rw [hr]
    have hle := h.le
    rcases Nat.lt_trichotomy (cur - r) e with hlt | heq | hgt
    · exact absurd hfs.set (by rw [h.first _ hlt hfs.lt]; decide)
    · omega
    · exact absurd h.set (by rw [hfs.first e hgt h.lt]; decide)

variable (s final cur) in
theorem mem_backwardScan_reads (hle : final ≤ cur) (hcount : 0 < count) (fuel : ℕ) (hole : Bool) :
    cur - (count - 1) ∈ (backwardScan s count final (fuel + 1) cur hole).reads := by
  have hrd : cur - (count - 1) ∈ (FlexBitSet.backwardTest s cur count).2 := by
    obtain ⟨n, rfl⟩ : ∃ n, count = n + 1 := ⟨count - 1, by omega⟩
    rw [FlexBitSet.backwardTest]
    split <;> exact List.mem_cons_self
  rw [backwardScan, if_pos hle]
  split
  · rename_i heq
    rwa [heq] at hrd
  · rename_i heq
    rw [heq] at hrd
    exact List.mem_append_left _ hrd

variable (final) in
theorem backwardScan_skip {e : ℕ} (hn : count ≤ cur + 1) (hle : final ≤ cur)
    (h : FirstSet s cur count e) (fuel : ℕ) (hole : Bool) : ∃ hole' reads,
      backwardScan s count final (fuel + 1) cur hole =
        (backwardScan s count final fuel (backwardNext cur (cur - e)) hole').after reads := by
  have hr := h.backwardTest hn
  rw [backwardScan, if_pos hle]
  split
  · rename_i heq
    rw [heq] at hr
    cases hr
  · rename_i heq
    rw [heq] at hr
    obtain rfl := Nat.succ.inj hr
    exact ⟨_, _, rfl⟩

theorem DownChain.le (h : DownChain s count a c) : c ≤ a := by
  induction h with
  | nil => exact le_rfl
  | cons hfs _ ih => exact ih.trans ((Nat.le_succ _).trans hfs.le)

/-- The scan follows a chain to the range from element 0 and, if this is set, wraps around. -/
theorem DownChain.mem_reads (h : DownChain s count a c) (hc : c = count - 1) (hcount : 0 < count)
    (hle : count ≤ word) (hset : s 0 = true) : ∀ fuel hole, a + 1 < fuel →
      word - count ∈ (backwardScan s count (count - 1) fuel a hole).reads := by
  induction h with
  | nil a =>
    intro fuel hole hfl
    obtain ⟨fuel, rfl⟩ : ∃ n, fuel = n + 2 := ⟨fuel - 2, by omega⟩
    have hfs : FirstSet s a count 0 :=
      ⟨hset, Nat.zero_le _, by omega, fun _ h => absurd h (Nat.not_lt_zero _)⟩
    obtain ⟨hole', reads, heq⟩ := backwardScan_skip (count - 1) (by omega) hc.ge hfs (fuel + 1) hole
    rw [heq, Nat.sub_zero, backwardNext, if_pos le_rfl]
    have hrd := mem_backwardScan_reads s (count - 1) (word - 1) (by omega) hcount fuel hole'
    rw [show word - 1 - (count - 1) = word - count by omega] at hrd
    exact List.mem_append_right _ hrd
  | @cons a e c hfs htl ih =>
    intro fuel hole hfl
    have hae := hfs.le
    have hec := htl.le
    obtain ⟨fuel, rfl⟩ : ∃ n, fuel = n + 1 := ⟨fuel - 1, by omega⟩
    obtain ⟨hole', reads, heq⟩ := backwardScan_skip (count - 1) (by omega) (by omega) hfs fuel hole
    rw [heq, backwardNext, if_neg (by omega), show a - (a - (e + 1) + 1) = e by omega]
    exact List.mem_append_right _ (ih hc fuel hole' (by omega))

/-- **The backward scan** is exact unless element 0 is set and a chain leads to the range from
there. -/
theorem backwardExact_iff (hsz : 2 * size ≤ word) (hbegin : beginning < size)
    (hcount : 0 < count) (hle : count ≤ size) :
    BackwardExact s size beginning count minimum ↔ ¬Wraps s beginning count minimum := by
  constructor
  · rintro h ⟨rfl, hset, hch⟩
    have hrd := h.reads (beginning + 2) (by omega) (word - count) (by
      rw [Nat.zero_add]
      exact hch.mem_reads rfl hcount (by omega) hset _ false (by omega))
    omega
  · intro h
    refine ⟨fun fuel hfl i hi => ?_, fun fuel hfl => (backwardScan_spec s count minimum fuel
      beginning false hfl h).1⟩
    exact ((backwardScan_spec s count minimum fuel beginning false hfl h).2 i hi).trans_lt hbegin

/-- **The scans of a bit set and its first elements.**  The forward scan is exact if and only if no
chain of set elements leads to the element from which a range ends behind the set; the backward scan
is, unless it may go down to element 0, this is set, and a chain leads to the range from there; and
`MemSet` and `MemClear` change as many elements as asked for only if there are none or 512.  The
sets are those that fit in memory. -/
theorem scans_exact_iff (s : FlexBitSet) :
    (∀ size beginning count, 2 * size ≤ word → 0 < count → count ≤ size →
      (ForwardExact s size beginning count ↔ ¬UpChain s count beginning (size + 1 - count))) ∧
    (∀ size beginning count minimum, 2 * size ≤ word → beginning < size → minimum ≤ size →
      0 < count → count ≤ size → (BackwardExact s size beginning count minimum ↔
        ¬(minimum = 0 ∧ s 0 = true ∧ DownChain s count beginning (count - 1)))) ∧
    ∀ n, 64 ∣ n → ((∀ t : FlexBitSet, t.memSet n = t.setRange 0 n ∧
      t.memClear n = t.clearRange 0 n) ↔ n = 0 ∨ n = 512) := by
  refine ⟨fun _ _ _ hsz => forwardExact_iff (by unfold word at *; omega),
    fun _ _ _ _ hsz hbegin _ => backwardExact_iff hsz hbegin, ?_⟩
  rintro _ ⟨k, rfl⟩
  constructor
  · intro h
    have hset := fun i => congrFun (h clear).1 i
    simp only [memSet, setRange, clear, Bool.or_false, decide_eq_decide] at hset
    have hbehind := hset (64 * k)
    have hls := hset (64 * k - 1)
    omega
  · intro h t
    have hbytes : ∀ i, i < 8 * ((64 * k / 64 + 63) / 64 * 64) ↔ 0 ≤ i ∧ i < 0 + 64 * k := by omega
    constructor
    · funext i
      simp only [memSet, setRange, hbytes]
    · funext i
      simp only [memClear, clearRange, hbytes]

def firstFour : FlexBitSet := fun i => decide (i < 4)

/-- A forward scan over four set elements reads and finds the element behind them, a backward scan
from a set element 0 goes on at the other end of the index range, and `MemSet` of 64 elements sets
another. -/
theorem scans_wrong : (firstFour.forwardScanForRange 0 1 4).foundElement = some 4 ∧
      (firstFour.forwardScanForRange 0 1 4).reads = [0, 1, 2, 3, 4] ∧
      ¬ForwardExact firstFour 4 0 1 ∧
      (backwardScan firstFour 1 0 2 0 false).reads = [0, word - 1] ∧
      ¬BackwardExact firstFour 4 0 1 0 ∧ clear.memSet 64 64 = true := by
  have hwr : (backwardScan firstFour 1 0 2 0 false).reads = [0, word - 1] := by decide
  refine ⟨by decide, by decide, fun h => ?_, hwr, fun h => ?_, by decide⟩
  · have hfound : IsLowest _ 1 0 3 4 := h.found 6 (by decide)
    exact absurd hfound.le_final (by decide)
  · have hrd := h.reads 2 (by decide) (word - 1) (hwr ▸ by decide)
    exact absurd hrd (by decide)

end FastPPC.FlexBitSet
