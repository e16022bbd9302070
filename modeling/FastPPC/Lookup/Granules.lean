import FastPPC.Arith.Word
import FastPPC.Machine.Basic

/-!
# The code granule bitmap

`SMCCodeGranules.h` keeps one bit per 64-byte granule of guest memory, in a three-level radix
tree that is allocated as it is needed.  A set bit says that translated code may live in the
granule.  A store is emulated without asking the lookup cache when `ProvablyClear` says that all
its granules are clear, so a clear bit over live code is an error.

* `bit_of_provablyClear` : what the query answers, in terms of the bit of each address.
* `setPageRange_bit`, `clearPage_bit` : what the writers do to a bit.
* `run_sound` : in every run in which no node allocation of a tracked page fails, the bits of
  all registered bytes are set.
-/

namespace FastPPC.Lookup

open Option Function

variable {a page length addr : ℕ}

/-- Everything at or above this address is untracked. -/
abbrev kMaxAddress : ℕ := 2 ^ 48

/-- `Leaf::Words`: one word per page. -/
abbrev Leaf := ℕ → BitVec 64

abbrev L1Node := ℕ → Option Leaf

abbrev L0Node := ℕ → Option L1Node

/-- The tree.  `AllLeaves` holds exactly the leaves that hang from it. -/
structure CodeGranuleBitmap where
  root : Option L0Node

/-- Whether the two node allocations a writer may make succeed (`AllocZeroed`). -/
structure Alloc where
  l1 : Bool
  leaf : Bool

/-- Address bits 47:35. -/
def l0Index (addr : ℕ) : ℕ := addr / 2 ^ 35 % 2 ^ 13

/-- Address bits 34:22. -/
def l1Index (addr : ℕ) : ℕ := addr / 2 ^ 22 % 2 ^ 13

/-- Address bits 21:12. -/
def wordIndex (addr : ℕ) : ℕ := addr / 2 ^ 12 % 2 ^ 10

/-- The inclusive range of bits, both below 64. -/
def bitRangeMask (firstBit lastBit : ℕ) : BitVec 64 :=
  let count := lastBit - firstBit + 1
  let base := if 64 ≤ count then BitVec.allOnes 64 else (1#64 <<< count) - 1#64
  base <<< firstBit

namespace CodeGranuleBitmap

/-- `Enable` when the root can be allocated. -/
def enable : CodeGranuleBitmap := ⟨some fun _ => none⟩

variable (b : CodeGranuleBitmap)

def enabled : Bool := b.root.isSome

def findLeafFrom (r : L0Node) (addr : ℕ) : Option Leaf :=
  match r (l0Index addr) with
  | none => none
  | some n => n (l1Index addr)

def findLeaf (addr : ℕ) : Option Leaf :=
  match b.root with
  | none => none
  | some r => if kMaxAddress ≤ addr then none else findLeafFrom r addr

/-- Install a leaf at the place of `addr` in a node `n` that hangs from `r`. -/
def withLeaf (r : L0Node) (n : L1Node) (addr : ℕ) (l : Leaf) : CodeGranuleBitmap :=
  ⟨some (update r (l0Index addr) (some (update n (l1Index addr) (some l))))⟩

/-- `GetOrCreateLeaf` followed by `update` of the leaf.  A new L1 node stays in the tree when the
allocation of the leaf fails. -/
def getOrCreateLeaf (mem : Alloc) (b : CodeGranuleBitmap) (addr : ℕ) (update : Leaf → Leaf) :
    CodeGranuleBitmap :=
  match b.root with
  | none => b
  | some r =>
    if kMaxAddress ≤ addr then b else
    match (r (l0Index addr)).or (if mem.l1 then some fun _ => none else none) with
    | none => b
    | some n =>
      match (n (l1Index addr)).or (if mem.leaf then some fun _ => 0#64 else none) with
      | none => ⟨some (Function.update r (l0Index addr) (some n))⟩
      | some l => withLeaf r n addr (update l)

/-- The granules of `[start, start + length)` inside the page, or the whole page. -/
def pageMask (pageBase start length : ℕ) : BitVec 64 :=
  if length = 0 then BitVec.allOnes 64 else
  let pageEnd := wadd pageBase (2 ^ 12)
  let lo := max start pageBase
  let hiExcl := min (wadd start length) pageEnd
  if lo < hiExcl then
    bitRangeMask ((lo - pageBase) / 2 ^ 6) ((hiExcl - 1 - pageBase) / 2 ^ 6)
  else BitVec.allOnes 64

def setPageRange (mem : Alloc) (b : CodeGranuleBitmap) (pageBase start length : ℕ) :
    CodeGranuleBitmap :=
  b.getOrCreateLeaf mem pageBase fun l =>
    update l (wordIndex pageBase)
      (l (wordIndex pageBase) ||| pageMask pageBase start length)

def clearPage (pageBase : ℕ) : CodeGranuleBitmap :=
  match b.root with
  | none => b
  | some r =>
    if kMaxAddress ≤ pageBase then b else
    match r (l0Index pageBase) with
    | none => b
    | some n =>
      match n (l1Index pageBase) with
      | none => b
      | some l => withLeaf r n pageBase (update l (wordIndex pageBase) 0#64)

/-- Zero every word of every leaf. -/
def clearAll : CodeGranuleBitmap :=
  ⟨b.root.map fun r i => (r i).map fun n j => (n j).map fun _ _ => 0#64⟩

/-- The body of the loop of `ProvablyClear`: the page does not stop it. -/
def pageClear (r : L0Node) (start «end» page : ℕ) : Bool :=
  let pageBase := page * 2 ^ 12
  match findLeafFrom r pageBase with
  -- no leaf: the source takes it that no code page was ever registered here
  | none => true
  | some l =>
    let word := l (wordIndex pageBase)
    let pageEnd := pageBase + 2 ^ 12
    let lo := max start pageBase
    let hiExcl := min «end» pageEnd
    word = 0#64 ∨ word &&& bitRangeMask ((lo - pageBase) / 2 ^ 6)
      ((hiExcl - 1 - pageBase) / 2 ^ 6) = 0#64

def provablyClear (start length : ℕ) : Bool :=
  match b.root with
  | none => false
  | some r =>
    if length = 0 then false else
    let «end» := wadd start length
    if «end» < start ∨ kMaxAddress < «end» then false else
    let firstPage := start / 2 ^ 12
    let lastPage := («end» - 1) / 2 ^ 12
    if 3 < lastPage - firstPage then false else
    (List.range' firstPage (lastPage + 1 - firstPage)).all (pageClear r start «end»)

/-! ### The bit of an address -/

/-- The word of the page of `a`; a page without a leaf reads as clear. -/
def pageWord (a : ℕ) : BitVec 64 :=
  match b.findLeaf a with
  | none => 0#64
  | some l => l (wordIndex a)

/-- The bit of the granule of `a`. -/
def bit (a : ℕ) : Bool := (b.pageWord a).getLsbD (a / 2 ^ 6 % 64)

/-- Every node on the path of `addr` is there or can be allocated. -/
def nodesAvailable (mem : Alloc) (b : CodeGranuleBitmap) (addr : ℕ) : Bool :=
  match b.root with
  | none => true
  | some r =>
    match r (l0Index addr) with
    | none => mem.l1 && mem.leaf
    | some n => (n (l1Index addr)).isSome || mem.leaf

end CodeGranuleBitmap

/-- Two tracked addresses share a word exactly if they share a page. -/
theorem index_eq_iff {a' : ℕ} (ha : a < kMaxAddress) (ha' : a' < kMaxAddress) :
    (l0Index a = l0Index a' ∧ l1Index a = l1Index a' ∧ wordIndex a = wordIndex a') ↔
      a / 2 ^ 12 = a' / 2 ^ 12 := by
  unfold l0Index l1Index wordIndex
  unfold kMaxAddress at ha ha'
  omega

theorem getLsbD_ones (count i : ℕ) (hc : count < 64) (hi : i < 64) :
    ((1#64 <<< count) - 1#64).getLsbD i = decide (i < count) := by
  have hone : 1 ≤ 2 ^ count := Nat.one_le_two_pow
  have hlt : 2 ^ count < 2 ^ 64 := Nat.pow_lt_pow_right (by decide) hc
  have hval : (1#64 <<< count) - 1#64 = BitVec.ofNat 64 (2 ^ count - 1) := by
    apply BitVec.eq_of_toNat_eq
    simp only [BitVec.toNat_sub, BitVec.toNat_shiftLeft, BitVec.toNat_ofNat]
    omega
  rw [hval, BitVec.getLsbD_ofNat, Nat.testBit_two_pow_sub_one]
  simp [hi]

theorem getLsbD_bitRangeMask {first last i : ℕ} (hle : first ≤ last) (hl : last < 64)
    (hi : i < 64) : (bitRangeMask first last).getLsbD i = decide (first ≤ i ∧ i ≤ last) := by
  unfold bitRangeMask
  simp only [BitVec.getLsbD_shiftLeft, hi, decide_true]
  by_cases hf : i < first
  · simp [hf]
  by_cases hc : 64 ≤ last - first + 1
  · simp only [hc, if_true, BitVec.getLsbD_allOnes, hf]
    apply decide_eq_decide.2; omega
  · rw [if_neg hc, getLsbD_ones _ _ (by omega) (by omega)]
    simp only [hf]
    apply decide_eq_decide.2; omega

variable {r : L0Node} {f : Leaf → Leaf} {b : CodeGranuleBitmap}

namespace CodeGranuleBitmap

variable {mem : Alloc}

/-- The mask of a page has the bit of every byte of the range on the page. -/
theorem getLsbD_pageMask {start : ℕ} (hmax : page * 2 ^ 12 < kMaxAddress) (hw : length < word)
    (hpg : a / 2 ^ 12 = page) (hin : length = 0 ∨ start ≤ a ∧ a < start + length) :
    (pageMask (page * 2 ^ 12) start length).getLsbD (a / 2 ^ 6 % 64) = true := by
  have hon : (BitVec.allOnes 64).getLsbD (a / 2 ^ 6 % 64) = true := by
    rw [BitVec.getLsbD_allOnes]; exact decide_eq_true (Nat.mod_lt _ (by decide))
  unfold kMaxAddress at hmax
  have hend : wadd (page * 2 ^ 12) (2 ^ 12) = page * 2 ^ 12 + 2 ^ 12 := by
    unfold wadd word; omega
  -- a range that wraps ends below its start, so that it has no part on the page
  have hsum : wadd start length = start + length ∨ wadd start length < start := by
    unfold wadd word at *; omega
  unfold pageMask
  split
  · exact hon
  · rename_i hlen
    simp only [hend]
    split
    · rename_i hlt
      rw [getLsbD_bitRangeMask (by omega) (by omega) (by omega), decide_eq_true_eq]
      omega
    · exact hon

/-- The node of `addr`, zeroed if it is not there. -/
def node (r : L0Node) (addr : ℕ) : L1Node := (r (l0Index addr)).getD fun _ => none

/-- The leaf of `addr`, zeroed if it is not there. -/
def leaf (r : L0Node) (addr : ℕ) : Leaf := (node r addr (l1Index addr)).getD fun _ => 0#64

theorem pageWord_eq (ha : a < kMaxAddress) :
    (CodeGranuleBitmap.mk (some r)).pageWord a = leaf r a (wordIndex a) := by
  unfold pageWord findLeaf findLeafFrom leaf node
  simp only [Nat.not_le.2 ha]
  cases r (l0Index a) with
  | none => rfl
  | some n => cases h : n (l1Index a) <;> simp [h]

theorem leaf_withLeaf {r' : L0Node} {l : Leaf}
    (h : (withLeaf r (node r addr) addr l).root = some r') :
    leaf r' a = if l0Index a = l0Index addr ∧ l1Index a = l1Index addr then l else leaf r a := by
  obtain rfl := some.inj h
  unfold leaf node
  by_cases h0 : l0Index a = l0Index addr
  · by_cases h1 : l1Index a = l1Index addr <;> simp [h0, h1]
  · simp [h0]

theorem getOrCreateLeaf_eq (had : addr < kMaxAddress) (hn : nodesAvailable mem ⟨some r⟩ addr) :
    getOrCreateLeaf mem ⟨some r⟩ addr f = withLeaf r (node r addr) addr (f (leaf r addr)) := by
  unfold getOrCreateLeaf leaf node
  unfold nodesAvailable at hn
  simp only [Nat.not_le.2 had]
  rcases h : r (l0Index addr) with _ | n
  · simp only [h, Bool.and_eq_true] at hn
    simp [hn.1, hn.2]
  · simp only [h, Bool.or_eq_true] at hn
    rcases h' : n (l1Index addr) with _ | l
    · simp only [h', isSome_none, Bool.false_eq_true, false_or] at hn
      simp [hn]
    · simp [h']

/-- A writer whose allocations fail changes no word: at most an empty node is added. -/
theorem getOrCreateLeaf_unavailable (ha : a < kMaxAddress)
    (hn : nodesAvailable mem ⟨some r⟩ addr = false) :
    (getOrCreateLeaf mem ⟨some r⟩ addr f).pageWord a =
      (CodeGranuleBitmap.mk (some r)).pageWord a := by
  unfold getOrCreateLeaf
  unfold nodesAvailable at hn
  simp only
  split
  · rfl
  · rcases h : r (l0Index addr) with _ | n
    · simp only [h, Bool.and_eq_false_iff] at hn
      rcases hl1 : mem.l1 with _ | _
      · simp
      · have hlf : mem.leaf = false := hn.resolve_left (by simp [hl1])
        simp only [none_or, if_true, hlf, Bool.false_eq_true, if_false, pageWord_eq ha]
        unfold leaf node
        by_cases h0 : l0Index a = l0Index addr <;> simp [h0, h]
    · simp only [h, Bool.or_eq_false_iff, isSome_eq_false_iff, isNone_iff_eq_none] at hn
      simp only [some_or, hn.1, hn.2, Bool.false_eq_true, if_false, none_or]
      rw [← h, Function.update_eq_self]

/-- **A writer that rewrites one word changes the word of its page and no other.** -/
theorem getOrCreateLeaf_pageWord (f : BitVec 64 → BitVec 64) (hb : b.enabled)
    (had : addr < kMaxAddress) (ha : a < kMaxAddress) :
    (b.getOrCreateLeaf mem addr fun l =>
      update l (wordIndex addr) (f (l (wordIndex addr)))).pageWord a =
    if b.nodesAvailable mem addr ∧ a / 2 ^ 12 = addr / 2 ^ 12 then f (b.pageWord a)
      else b.pageWord a := by
  obtain ⟨r, hr⟩ := isSome_iff_exists.1 hb
  obtain ⟨_⟩ := b
  obtain rfl := hr
  rcases hn : nodesAvailable mem ⟨some r⟩ addr with _ | _
  · rw [getOrCreateLeaf_unavailable ha hn, if_neg (by simp)]
  · rw [getOrCreateLeaf_eq had hn, withLeaf, pageWord_eq ha, pageWord_eq ha, leaf_withLeaf rfl]
    simp only [true_and, ← index_eq_iff ha had]
    by_cases h01 : l0Index a = l0Index addr ∧ l1Index a = l1Index addr
    · have hlf : leaf r a = leaf r addr := by unfold leaf node; rw [h01.1, h01.2]
      by_cases h2 : wordIndex a = wordIndex addr <;> simp [h01, h2, hlf]
    · rw [if_neg h01, if_neg fun h => h01 ⟨h.1, h.2.1⟩]

theorem clearPage_eq (b : CodeGranuleBitmap) (addr : ℕ) :
    b.clearPage addr = b.getOrCreateLeaf ⟨false, false⟩ addr fun l =>
      update l (wordIndex addr) 0#64 := by
  obtain ⟨_ | r⟩ := b
  · rfl
  · unfold clearPage getOrCreateLeaf
    simp only [Bool.false_eq_true, if_false, or_none]
    split
    · rfl
    · rcases hn : r (l0Index addr) with _ | n
      · rfl
      · rcases hl : n (l1Index addr) with _ | l
        · simp only [hl]
          rw [← hn, update_eq_self]
        · simp [hl]

theorem enabled_getOrCreateLeaf (hb : b.enabled) : (b.getOrCreateLeaf mem addr f).enabled := by
  obtain ⟨_ | r⟩ := b
  · exact hb
  · unfold getOrCreateLeaf
    simp only
    split
    · exact hb
    · split
      · exact hb
      · split <;> rfl

section

variable (hb : b.enabled) (ha : a < kMaxAddress)
include hb ha

theorem setPageRange_mono {start : ℕ} (h : b.bit a = true) :
    (b.setPageRange mem (page * 2 ^ 12) start length).bit a = true := by
  by_cases hmax : page * 2 ^ 12 < kMaxAddress
  · unfold bit setPageRange at *
    rw [getOrCreateLeaf_pageWord (· ||| pageMask (page * 2 ^ 12) start length) hb hmax ha]
    split
    · rw [BitVec.getLsbD_or, h, Bool.true_or]
    · exact h
  · obtain ⟨_ | r⟩ := b
    · exact h
    · unfold setPageRange getOrCreateLeaf
      simpa only [Nat.not_lt.1 hmax, if_true] using h

/-- `SetPageRange` sets the bit of every byte of the range on the page, if the nodes of the page
are there or can be allocated. -/
theorem setPageRange_bit {start : ℕ} (hn : b.nodesAvailable mem (page * 2 ^ 12))
    (hw : length < word) (hpg : a / 2 ^ 12 = page)
    (hin : length = 0 ∨ start ≤ a ∧ a < start + length) :
    (b.setPageRange mem (page * 2 ^ 12) start length).bit a = true := by
  have hmax : page * 2 ^ 12 < kMaxAddress := by unfold kMaxAddress at *; omega
  unfold bit setPageRange
  rw [getOrCreateLeaf_pageWord (· ||| pageMask (page * 2 ^ 12) start length) hb hmax ha,
    if_pos ⟨hn, by omega⟩, BitVec.getLsbD_or, getLsbD_pageMask hmax hw hpg hin, Bool.or_true]

/-- `ClearPage` leaves the other pages alone. -/
theorem clearPage_bit (hpg : a / 2 ^ 12 ≠ page) :
    (b.clearPage (page * 2 ^ 12)).bit a = b.bit a := by
  by_cases hmax : page * 2 ^ 12 < kMaxAddress
  · unfold bit
    rw [clearPage_eq, getOrCreateLeaf_pageWord (fun _ => 0#64) hb hmax ha,
      if_neg (by rintro ⟨-, h⟩; omega)]
  · obtain ⟨_ | r⟩ := b
    · rfl
    · unfold clearPage
      simp only [Nat.not_lt.1 hmax, if_true]

end

theorem pageWord_page (b : CodeGranuleBitmap) (ha : a < kMaxAddress) :
    b.pageWord (a / 2 ^ 12 * 2 ^ 12) = b.pageWord a := by
  obtain ⟨_ | r⟩ := b
  · rfl
  · have hp : a / 2 ^ 12 * 2 ^ 12 < kMaxAddress := by unfold kMaxAddress at *; omega
    obtain ⟨h0, h1, h2⟩ := (index_eq_iff hp ha).2 (by omega)
    rw [pageWord_eq hp, pageWord_eq ha]
    unfold leaf node
    rw [h0, h1, h2]

theorem pageClear_iff {start «end» : ℕ} (hp : page * 2 ^ 12 < kMaxAddress) :
    pageClear r start «end» page ↔ (CodeGranuleBitmap.mk (some r)).pageWord (page * 2 ^ 12) &&&
        bitRangeMask ((max start (page * 2 ^ 12) - page * 2 ^ 12) / 2 ^ 6)
          ((min «end» (page * 2 ^ 12 + 2 ^ 12) - 1 - page * 2 ^ 12) / 2 ^ 6) = 0#64 := by
  unfold pageClear pageWord findLeaf
  simp only [Nat.not_le.2 hp, if_false]
  rcases findLeafFrom r (page * 2 ^ 12) with _ | l
  · simp
  · simp only [decide_eq_true_eq, or_iff_right_iff_imp]
    intro h; rw [h]; simp

/-- A store that is provably clear is not empty, does not wrap and lies in the tracked range. -/
theorem provablyClear_bounds {start : ℕ} (hw : length < word)
    (h : b.provablyClear start length = true) :
    0 < length ∧ start + length ≤ kMaxAddress ∧ wadd start length = start + length := by
  obtain ⟨_ | r⟩ := b
  · simp [provablyClear] at h
  unfold provablyClear at h
  simp only [Bool.if_false_left, Bool.and_eq_true, Bool.not_eq_true', decide_eq_false_iff_not,
    not_or, Nat.not_lt] at h
  obtain ⟨hlen, ⟨hwr, hend⟩, -⟩ := h
  have hsum : wadd start length = start + length := by unfold wadd word at *; omega
  exact ⟨Nat.pos_of_ne_zero hlen, hsum ▸ hend, hsum⟩

/-- **What `ProvablyClear` answers is true of the bits**: every granule of the store is tracked
and clear. -/
theorem bit_of_provablyClear {start : ℕ} (hw : length < word)
    (h : b.provablyClear start length = true) (ha : start ≤ a ∧ a < start + length) :
    a < kMaxAddress ∧ b.bit a = false := by
  obtain ⟨-, hend, hsum⟩ := provablyClear_bounds hw h
  obtain ⟨_ | r⟩ := b
  · simp [provablyClear] at h
  unfold provablyClear at h
  simp only [Bool.if_false_left, Bool.and_eq_true, List.all_eq_true] at h
  have hall := h.2.2.2
  unfold kMaxAddress at hend
  have hmax : a < kMaxAddress := by unfold kMaxAddress; omega
  have hpg : a / 2 ^ 12 * 2 ^ 12 < kMaxAddress := by unfold kMaxAddress; omega
  have hcle := (pageClear_iff hpg).1 (hall (a / 2 ^ 12) (List.mem_range'_1.2 ⟨by omega, by omega⟩))
  refine ⟨hmax, ?_⟩
  -- the bit of the address is one of the bits the mask selects
  have hbit := congrArg (fun w => BitVec.getLsbD w (a / 2 ^ 6 % 64)) hcle
  simp only [BitVec.getLsbD_and, BitVec.getLsbD_zero, Bool.and_eq_false_iff] at hbit
  rw [getLsbD_bitRangeMask (by omega) (by omega) (by omega), decide_eq_false_iff_not,
    pageWord_page _ hmax] at hbit
  exact hbit.resolve_right (by omega)

end CodeGranuleBitmap

open CodeGranuleBitmap

/-! ### Registered ranges -/

/-- A range that was registered for one page: the part of `[start, start + length)` on the page,
or the whole page if no extent was given. -/
structure CodeRange where
  page : ℕ
  start : ℕ
  length : ℕ
  deriving DecidableEq

def CodeRange.Covers (r : CodeRange) (a : ℕ) : Prop :=
  a / 2 ^ 12 = r.page ∧ (r.length = 0 ∨ r.start ≤ a ∧ a < r.start + r.length)

instance (r : CodeRange) (a : ℕ) : Decidable (r.Covers a) := inferInstanceAs (Decidable (_ ∧ _))

/-- The calls of the writers.  All callers pass the base of a page. -/
inductive GranuleOp
  | setPageRange (mem : Alloc) (range : CodeRange)
  | clearPage (page : ℕ)
  | clearAll

/-- The bitmap with the history of what is registered on it. -/
structure Tracked where
  bitmap : CodeGranuleBitmap
  registered : List CodeRange

variable {t : Tracked}

namespace Tracked

/-- An enabled bitmap on which nothing is registered. -/
def empty : Tracked := ⟨.enable, []⟩

def apply (t : Tracked) : GranuleOp → Tracked
  | .setPageRange mem r =>
    ⟨t.bitmap.setPageRange mem (r.page * 2 ^ 12) r.start r.length, t.registered ++ [r]⟩
  | .clearPage page =>
    ⟨t.bitmap.clearPage (page * 2 ^ 12), t.registered.filter fun r => r.page ≠ page⟩
  | .clearAll => ⟨t.bitmap.clearAll, []⟩

/-- Lengths are 64-bit words, and the nodes of a tracked page are there or can be allocated. -/
def Allocates (t : Tracked) : GranuleOp → Prop
  | .setPageRange mem r => r.length < word ∧
    (r.page * 2 ^ 12 < kMaxAddress → t.bitmap.nodesAvailable mem (r.page * 2 ^ 12))
  | _ => True

/-- The bit of every tracked registered byte is set. -/
structure Sound (t : Tracked) : Prop where
  enabled : t.bitmap.enabled
  bit : ∀ r ∈ t.registered, ∀ a, r.Covers a → a < kMaxAddress → t.bitmap.bit a = true

theorem Sound.empty : Sound Tracked.empty := ⟨rfl, by simp [Tracked.empty]⟩

/-- Every call keeps the bits of the registered bytes. -/
theorem Sound.apply {op : GranuleOp} (h : t.Sound) (hop : t.Allocates op) : (t.apply op).Sound := by
  cases op with
  | setPageRange mem r =>
    refine ⟨enabled_getOrCreateLeaf h.enabled, fun q hq a hqa ha => ?_⟩
    rcases List.mem_append.1 hq with hq | hq
    · exact setPageRange_mono h.enabled ha (h.bit q hq a hqa ha)
    · obtain rfl := List.mem_singleton.1 hq
      have hmax : q.page * 2 ^ 12 < kMaxAddress := by
        have := hqa.1
        unfold kMaxAddress at *; omega
      exact setPageRange_bit h.enabled ha (hop.2 hmax) hop.1 hqa.1 hqa.2
  | clearPage page =>
    refine ⟨?_, fun q hq a hqa ha => ?_⟩
    · simp only [Tracked.apply, clearPage_eq]
      exact enabled_getOrCreateLeaf h.enabled
    · obtain ⟨hq, hne⟩ := List.mem_filter.1 hq
      have hpg : a / 2 ^ 12 ≠ page := hqa.1 ▸ of_decide_eq_true hne
      exact (clearPage_bit h.enabled ha hpg).trans (h.bit q hq a hqa ha)
  | clearAll =>
    refine ⟨?_, fun q hq => absurd hq (List.not_mem_nil)⟩
    simpa [Tracked.apply, clearAll, CodeGranuleBitmap.enabled] using h.enabled

/-- **No false negatives.** -/
theorem Sound.not_covers {start : ℕ} (h : t.Sound) (hw : length < word)
    (hcle : t.bitmap.provablyClear start length = true) {r : CodeRange} (hr : r ∈ t.registered)
    (ha : start ≤ a ∧ a < start + length) : ¬r.Covers a := by
  intro hcov
  obtain ⟨hmax, hbit⟩ := bit_of_provablyClear hw hcle ha
  exact Bool.false_ne_true (hbit.symm.trans (h.bit r hr a hcov hmax))

end Tracked

def granules : Machine Tracked GranuleOp := .ofFun Tracked.apply

/-- The bits of all registered bytes are set in every run whose allocations succeed. -/
theorem run_sound {ops : List GranuleOp} (h : granules.Run Tracked.Allocates .empty ops t) :
    t.Sound := by
  refine h.invariant Tracked.Sound.empty ?_
  rintro t op _ ht hop rfl
  exact ht.apply hop

end FastPPC.Lookup
