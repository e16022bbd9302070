import FastPPC.Lists.Bisect
import FastPPC.Rip.Block

/-!
# Code buffers and their block index

A code buffer is a mapping that blocks are placed in one behind the other, and a sorted list of
the offsets they start at.

* `CodeBuffer` holds the bytes and the index, and as history which blocks and which auxiliary
  chunks were placed where; no operation reads the history;
* `appendBlock`, `findBlockHeader` and `rebuildBlockIndexByWalk` are the operations on the index;
* `CodeBuffer.Filled b limit` : `b` has at most 4 GiB, and everything placed in it so far lies below
  `limit`, apart, and is indexed; `Filled.extend` places a packed chain of blocks, `Filled.reserve`
  a chunk;
* `Filled.findBlockHeader_eq` and `Filled.findBlockHeader_eq_none` : the index answers exactly
  for the addresses inside blocks.
-/

namespace FastPPC.Rip

open List

variable {off : ℕ} {ks : List Block} {p : ℕ × Block}

open Codec

/-- A mapping for a code buffer: its address and the bytes before its guard page.  Its size is
configured and has no upper bound, though offsets in a buffer are `uint32_t`. -/
structure Mapping where
  ptr : ℕ
  usableSize : ℕ
  fits : ptr + usableSize ≤ 2 ^ 64

structure CodeBuffer extends Mapping where
  mem : Memory
  /-- the first `BlockCount` entries of `BlockOffsets` -/
  blockOffsets : List ℕ
  /-- history: the blocks placed in the buffer -/
  blocks : List (ℕ × Block)
  /-- history: offset and length of the auxiliary chunks -/
  aux : List (ℕ × ℕ)

/-- A new code buffer. -/
def Mapping.codeBuffer (m : Mapping) : CodeBuffer :=
  { m with mem := fun _ => 0, blockOffsets := [], blocks := [], aux := [] }

namespace CodeBuffer

variable (b : CodeBuffer)

def blockCapacity : ℕ := (b.usableSize / 64 + 1) % 2 ^ 32

/-- `AppendBlock`; nothing is returned where the process is stopped. -/
def appendBlock (blockOffset : ℕ) : Option CodeBuffer :=
  if b.blockOffsets.getLast?.any (fun last => blockOffset ≤ last) then none
  else if b.blockCapacity ≤ b.blockOffsets.length then none
  else some { b with blockOffsets := b.blockOffsets ++ [blockOffset] }

/-- `FindBlockHeader`: the offset of the block that holds an address. -/
def findBlockHeader (hostPC : ℕ) : Option ℕ :=
  if hostPC < b.ptr then none
  else if b.usableSize ≤ hostPC - b.ptr then none
  else if b.blockOffsets.length = 0 then none
  else
    let target := (hostPC - b.ptr) % 2 ^ 32
    let lo := bisect (fun mid => b.blockOffsets.getD mid 0 ≤ target) b.blockOffsets.length 0
      b.blockOffsets.length
    if lo = 0 then none
    else
      let blockOffset := b.blockOffsets.getD (lo - 1) 0
      let tail := blockOffset + readLe b.mem blockOffset 4
      if readLe b.mem tail 8 ≤ target - blockOffset then none else some blockOffset

/-- The loop of `RebuildBlockIndexByWalk`: index the blocks from `offset` up to `last`.  A block
has at least 64 bytes, so `last - offset` rounds are enough. -/
def walkBlocks (last : ℕ) : ℕ → ℕ → CodeBuffer → Option CodeBuffer
  | 0, _, b => some b
  | fuel + 1, offset, b =>
    if offset < last then
      let remaining := last - offset
      if remaining < 64 ∨ 2 ^ 32 - 1 < offset then some b
      else
        let offsetToBlockTail := readLe b.mem offset 4
        if offsetToBlockTail < 4 ∨ remaining - 40 < offsetToBlockTail then some b
        else
          let size := readLe b.mem (offset + offsetToBlockTail) 8
          if size < 64 ∨ size % 16 ≠ 0 ∨ remaining < size then some b
          else (b.appendBlock offset).bind (walkBlocks last fuel (offset + size))
    else some b

def rebuildBlockIndexByWalk (bytes startOffset : ℕ) : Option CodeBuffer :=
  let b := if startOffset = 0 then { b with blockOffsets := [] } else b
  if bytes = 0 then some b
  else if b.usableSize < startOffset ∨ b.usableSize - startOffset < bytes then some b
  else walkBlocks (startOffset + bytes) bytes startOffset b

/-! ### Chains of blocks -/

/-- The places of blocks that are packed from an offset on. -/
def layout : ℕ → List Block → List (ℕ × Block)
  | _, [] => []
  | off, k :: ks => (off, k) :: layout (off + k.size) ks

/-- The bytes of packed blocks. -/
def imageBytes (ks : List Block) : List Byte := ks.flatMap Block.bytes

/-- The place of a block ends where the next one may start. -/
def Before (p q : ℕ × Block) : Prop := p.1 + p.2.size ≤ q.1

variable {b}

theorem le_of_mem_layout (h : p ∈ layout off ks) : off ≤ p.1 := by
  induction ks generalizing off with
  | nil => exact absurd h not_mem_nil
  | cons k ks ih =>
    obtain rfl | h := mem_cons.1 h
    · exact le_rfl
    · exact (Nat.le_add_right ..).trans (ih h)

theorem layout_le (h : p ∈ layout off ks) : p.1 + p.2.size ≤ off + (imageBytes ks).length := by
  induction ks generalizing off with
  | nil => exact absurd h not_mem_nil
  | cons k ks ih =>
    rw [imageBytes, flatMap_cons, length_append, k.length_bytes]
    obtain rfl | h := mem_cons.1 h
    · dsimp only
      omega
    · have hle := ih h
      rw [imageBytes] at hle
      omega

theorem pairwise_layout (off : ℕ) (ks : List Block) : (layout off ks).Pairwise Before := by
  induction ks generalizing off with
  | nil => exact List.Pairwise.nil
  | cons k ks ih =>
    refine pairwise_cons.2 ⟨?_, ih _⟩
    intro p hp
    exact le_of_mem_layout hp

theorem holds_layout {m : Memory} (h : Holds m off (imageBytes ks)) (hp : p ∈ layout off ks) :
    Holds m p.1 p.2.bytes := by
  induction ks generalizing off with
  | nil => exact absurd hp not_mem_nil
  | cons k ks ih =>
    obtain ⟨hk, hks⟩ := holds_append.1 h
    rw [k.length_bytes] at hks
    obtain rfl | hp := mem_cons.1 hp
    · exact hk
    · exact ih hks hp

theorem length_layout (off : ℕ) (ks : List Block) :
    64 * (layout off ks).length ≤ (imageBytes ks).length := by
  induction ks generalizing off with
  | nil => exact le_rfl
  | cons k ks ih =>
    have hk := k.le_size
    have hks := ih (off + k.size)
    rw [imageBytes] at hks ⊢
    rw [layout, length_cons, flatMap_cons, length_append, k.length_bytes]
    omega

/-! ### The invariant -/

/-- Offsets reach the whole buffer, and everything placed in it lies below `limit`, apart, and is
indexed. -/
structure Filled (b : CodeBuffer) (limit : ℕ) : Prop where
  small : b.usableSize ≤ 2 ^ 32
  limit_le : limit ≤ b.usableSize
  index : b.blockOffsets = b.blocks.map Prod.fst
  held : ∀ p ∈ b.blocks, Holds b.mem p.1 p.2.bytes
  chain : b.blocks.Pairwise Before
  below : ∀ p ∈ b.blocks, p.1 + p.2.size ≤ limit
  count : 64 * b.blocks.length ≤ limit
  auxBelow : ∀ a ∈ b.aux, a.1 + a.2 ≤ limit
  apart : ∀ p ∈ b.blocks, ∀ a ∈ b.aux, p.1 + p.2.size ≤ a.1 ∨ a.1 + a.2 ≤ p.1

theorem filled_codeBuffer {m : Mapping} (hm : m.usableSize ≤ 2 ^ 32) : m.codeBuffer.Filled 0 where
  small := hm
  limit_le := Nat.zero_le _
  index := rfl
  held _ hp := absurd hp not_mem_nil
  chain := List.Pairwise.nil
  below _ hp := absurd hp not_mem_nil
  count := le_rfl
  auxBelow _ ha := absurd ha not_mem_nil
  apart _ hp := absurd hp not_mem_nil

namespace Filled

variable {limit : ℕ} (h : b.Filled limit)
include h

theorem mono {limit' : ℕ} (hle : limit ≤ limit')
    (hlim : limit' ≤ b.usableSize) : b.Filled limit' :=
  { h with
    limit_le := hlim
    below := fun p hp => (h.below p hp).trans hle
    count := h.count.trans hle
    auxBelow := fun a ha => (h.auxBelow a ha).trans hle }

/-- Bytes above the limit are free to change. -/
theorem write (hoff : limit ≤ off) (bs : List Byte) :
    ({ b with mem := Codec.write b.mem off bs } : CodeBuffer).Filled limit :=
  { h with
    held := by
      intro p hp
      apply (h.held p hp).write
      left
      rw [p.2.length_bytes]
      exact (h.below p hp).trans hoff }

/-- **Placing a packed chain of blocks** above everything placed before. -/
theorem extend (hoff : limit ≤ off) (ks : List Block)
    (hfit : off + (imageBytes ks).length ≤ b.usableSize) :
    ({ b with
        mem := Codec.write b.mem off (imageBytes ks)
        blockOffsets := b.blockOffsets ++ (layout off ks).map Prod.fst
        blocks := b.blocks ++ layout off ks } : CodeBuffer).Filled
      (off + (imageBytes ks).length) where
  small := h.small
  limit_le := hfit
  index := by
    rw [map_append, h.index]
  held p hp := by
    obtain hp | hp := mem_append.1 hp
    · exact (h.write hoff (imageBytes ks)).held p hp
    · exact holds_layout (holds_write ..) hp
  chain := by
    refine pairwise_append.2 ⟨h.chain, pairwise_layout off ks, ?_⟩
    intro p hp q hq
    exact (h.below p hp).trans (hoff.trans (le_of_mem_layout hq))
  below p hp := by
    obtain hp | hp := mem_append.1 hp
    · have := h.below p hp
      omega
    · exact layout_le hp
  count := by
    have hnew := length_layout off ks
    have hold := h.count
    rw [length_append]
    omega
  auxBelow a ha := by
    have := h.auxBelow a ha
    omega
  apart p hp a ha := by
    obtain hp | hp := mem_append.1 hp
    · exact h.apart p hp a ha
    · right
      exact (h.auxBelow a ha).trans (hoff.trans (le_of_mem_layout hp))

/-- **Carving a chunk** above everything placed before. -/
theorem reserve {start bytes : ℕ} (hsta : limit ≤ start)
    (hfit : start + bytes ≤ b.usableSize) :
    ({ b with aux := b.aux ++ [(start, bytes)] } : CodeBuffer).Filled (start + bytes) where
  small := h.small
  limit_le := hfit
  index := h.index
  held := h.held
  chain := h.chain
  below p hp := by
    have := h.below p hp
    omega
  count := by
    have := h.count
    show 64 * b.blocks.length ≤ _
    omega
  auxBelow a ha := by
    obtain ha | ha := mem_append.1 ha
    · have := h.auxBelow a ha
      omega
    · rw [mem_singleton.1 ha]
  apart p hp a ha := by
    obtain ha | ha := mem_append.1 ha
    · exact h.apart p hp a ha
    · left
      rw [mem_singleton.1 ha]
      exact (h.below p hp).trans hsta

/-! ### The index -/

theorem offset_lt (hoff : limit ≤ off) : ∀ o ∈ b.blockOffsets, o < off := by
  intro o ho
  rw [h.index] at ho
  obtain ⟨p, hp, rfl⟩ := mem_map.1 ho
  have hbel := h.below p hp
  have hsz := p.2.le_size
  omega

theorem length_blockOffsets : 64 * b.blockOffsets.length ≤ limit := by
  rw [h.index, length_map]
  exact h.count

end Filled

/-- A block above everything indexed is appended: neither check stops the process. -/
theorem appendBlock_eq (hls : ∀ o ∈ b.blockOffsets, o < off)
    (hcou : 64 * b.blockOffsets.length ≤ off) (hoff : off ≤ b.usableSize)
    (hsma : b.usableSize ≤ 2 ^ 32) :
    b.appendBlock off = some { b with blockOffsets := b.blockOffsets ++ [off] } := by
  rw [appendBlock, if_neg, if_neg]
  · unfold blockCapacity
    omega
  · rw [Option.any_eq_true]
    rintro ⟨o, ho, hle⟩
    have := hls o (mem_of_getLast? ho)
    have := of_decide_eq_true hle
    omega

/-- **The walk over a packed chain of blocks indexes each of them.** -/
theorem walkBlocks_eq {fuel : ℕ} (hhol : Holds b.mem off (imageBytes ks))
    (hfit : off + (imageBytes ks).length ≤ b.usableSize) (hfl : (imageBytes ks).length ≤ fuel)
    (hls : ∀ o ∈ b.blockOffsets, o < off) (hcou : 64 * b.blockOffsets.length ≤ off)
    (hsma : b.usableSize ≤ 2 ^ 32) :
    walkBlocks (off + (imageBytes ks).length) fuel off b =
      some { b with blockOffsets := b.blockOffsets ++ (layout off ks).map Prod.fst } := by
  induction ks generalizing off fuel b with
  | nil =>
    rw [layout, map_nil, append_nil]
    cases fuel with
    | zero => rfl
    | succ fuel => exact if_neg (lt_irrefl off)
  | cons k ks ih =>
    have hlen : (imageBytes (k :: ks)).length = k.size + (imageBytes ks).length := by
      rw [imageBytes, flatMap_cons, length_append, k.length_bytes, imageBytes]
    obtain ⟨hk, hks⟩ := holds_append.1 hhol
    rw [k.length_bytes] at hks
    rw [hlen] at hfit hfl ⊢
    have hmin := k.le_size
    have hmod := k.size_mod
    have htl := k.codeSize_add_le
    have hhd : 4 ≤ k.codeSize := by
      unfold Block.codeSize
      omega
    have hpla := Block.placed_of_holds hk (by omega)
    obtain ⟨fuel, rfl⟩ : ∃ n, fuel = n + 1 := ⟨fuel - 1, by omega⟩
    rw [walkBlocks, if_pos (by omega)]
    dsimp only
    rw [hpla.offsetToBlockTail, hpla.size, if_neg (by omega), if_neg (by omega),
      if_neg (by omega), appendBlock_eq hls hcou (by omega) hsma, Option.bind_some, ← Nat.add_assoc]
    let b' : CodeBuffer := { b with blockOffsets := b.blockOffsets ++ [off] }
    refine (ih (b := b') hks ?_ ?_ ?_ ?_ hsma).trans ?_
    · show off + k.size + _ ≤ b.usableSize
      omega
    · omega
    · intro o ho
      obtain ho | ho := mem_append.1 ho
      · have := hls o ho
        omega
      · rw [mem_singleton.1 ho]
        omega
    · show 64 * (b.blockOffsets ++ [off]).length ≤ _
      rw [length_append, length_singleton]
      omega
    · simp only [b', layout, map_cons, append_assoc, singleton_append]

namespace Filled

variable {limit : ℕ} (h : b.Filled limit)
include h

/-- The loop of `findBlockHeader` ends behind the last block that starts at or below `target`. -/
theorem bisect_blocks (target : ℕ) :
    ∃ lo, bisect (fun mid => b.blockOffsets.getD mid 0 ≤ target) b.blockOffsets.length 0
        b.blockOffsets.length = lo ∧ lo ≤ b.blocks.length ∧
      (∀ i (hi : i < b.blocks.length), i < lo → b.blocks[i].1 ≤ target) ∧
      ∀ i (hi : i < b.blocks.length), lo ≤ i → target < b.blocks[i].1 := by
  have hget : ∀ i (hi : i < b.blocks.length), b.blockOffsets.getD i 0 = b.blocks[i].1 := by
    intro i hi
    simp [h.index, hi]
  have hlen : b.blockOffsets.length = b.blocks.length := by rw [h.index, length_map]
  have hsp := bisect_spec (p := fun mid => b.blockOffsets.getD mid 0 ≤ target)
    b.blockOffsets.length 0 b.blockOffsets.length b.blockOffsets.length ?_ le_rfl
    (fun i hi => absurd hi (Nat.not_lt_zero i)) (fun i hi hlt => absurd hlt (Nat.not_lt.2 hi))
    (Nat.zero_le _) (Nat.sub_le _ _)
  · obtain ⟨hle, htr, hfal⟩ := hsp
    rw [hlen] at hle
    refine ⟨_, rfl, ?_, ?_, ?_⟩
    · rw [hlen]
      exact hle
    · intro i hi hlt
      rw [← hget i hi]
      exact of_decide_eq_true (htr i hlt)
    · intro i hi hge
      rw [← hget i hi]
      exact Nat.lt_of_not_le (of_decide_eq_false (hfal i hge (hlen ▸ hi)))
  · intro i j hij hj hp
    rw [hlen] at hj
    have hp := of_decide_eq_true hp
    rw [hget j hj] at hp
    apply decide_eq_true
    rw [hget i (hij.trans_lt hj)]
    obtain rfl | hlt := hij.eq_or_lt
    · exact hp
    · have hbef : Before b.blocks[i] b.blocks[j] := pairwise_iff_getElem.1 h.chain i j _ hj hlt
      unfold Before at hbef
      omega

theorem placed (hp : p ∈ b.blocks) : p.2.Placed b.mem p.1 := by
  have hbel := h.below p hp
  have hlim := h.limit_le
  have hsma := h.small
  exact Block.placed_of_holds (h.held p hp) (by omega)

/-- **An address inside a block finds the block.** -/
theorem findBlockHeader_eq (hp : p ∈ b.blocks) {k : ℕ} (hk : k < p.2.size) :
    b.findBlockHeader (b.ptr + p.1 + k) = some p.1 := by
  have hbel := h.below p hp
  have hlim := h.limit_le
  have hsma := h.small
  obtain ⟨lo, hlo, hle, hbef, haft⟩ := h.bisect_blocks (p.1 + k)
  obtain ⟨j, hj, rfl⟩ := getElem_of_mem hp
  have hjlo : j < lo := by
    by_contra hge
    have := haft j hj (Nat.le_of_not_lt hge)
    omega
  -- the blocks behind this one start above its end
  have hlo' : lo = j + 1 := by
    by_contra hne
    have hlt : j + 1 < b.blocks.length := by omega
    have hsta := hbef (j + 1) hlt (by omega)
    have hcha : Before b.blocks[j] b.blocks[j + 1] :=
      pairwise_iff_getElem.1 h.chain j (j + 1) hj hlt (Nat.lt_succ_self j)
    unfold Before at hcha
    omega
  subst hlo'
  have hoff : b.blockOffsets.getD j 0 = b.blocks[j].1 := by simp [h.index, hj]
  have hlen : b.blockOffsets.length ≠ 0 := by
    rw [h.index, length_map]
    omega
  have htar : (b.ptr + b.blocks[j].1 + k - b.ptr) % 2 ^ 32 = b.blocks[j].1 + k := by
    rw [Nat.mod_eq_of_lt] <;> omega
  have hpla := h.placed hp
  rw [findBlockHeader, if_neg (by omega), if_neg (by omega), if_neg hlen]
  dsimp only
  rw [htar, hlo, if_neg (Nat.succ_ne_zero j), Nat.add_sub_cancel, hoff,
    hpla.offsetToBlockTail, hpla.size, if_neg (by omega)]

/-- **An address in no block finds nothing.** -/
theorem findBlockHeader_eq_none {hostPC : ℕ}
    (hpc : ∀ p ∈ b.blocks, ¬ (b.ptr + p.1 ≤ hostPC ∧ hostPC < b.ptr + p.1 + p.2.size)) :
    b.findBlockHeader hostPC = none := by
  rw [findBlockHeader]
  split
  · rfl
  split
  · rfl
  split
  · rfl
  next hptr huse _ =>
    obtain ⟨lo, hlo, hle, hbef, -⟩ := h.bisect_blocks ((hostPC - b.ptr) % 2 ^ 32)
    dsimp only
    rw [hlo]
    split
    · rfl
    next hpos =>
      have hj : lo - 1 < b.blocks.length := by omega
      have hoff : b.blockOffsets.getD (lo - 1) 0 = b.blocks[lo - 1].1 := by simp [h.index, hj]
      have hpla := h.placed (getElem_mem hj)
      have hsma := h.small
      have hsta := hbef (lo - 1) hj (by omega)
      have hout := hpc _ (getElem_mem hj)
      rw [hoff, hpla.offsetToBlockTail, hpla.size, if_pos (by omega)]

end Filled

end CodeBuffer

end FastPPC.Rip
