import FastPPC.Rip.VlPair

/-!
# Compiled blocks and their RIP tables

A compiled block is a header, the host code, a tail and the table of its opcode records, padded
to 16 bytes.

* `Emitter` is the emission of a block as the back end performs it: words go to the cursor, and
  every guest instruction records the cursor;
* `Block` is the result, with what the emission guarantees of it as fields;
* `Block.bytes` is its layout in a code buffer, and the lemmas after it read the fields back;
* `walkBlockRIPTable` finds the guest RIP of a host PC from the bytes of a block, `Block.ripAt` is
  what it is to find, and `walkBlockRIPTable_eq` says that it does.
-/

namespace FastPPC.Rip

open Codec List BitVec

/-- A record of the start of a guest instruction: its guest offset from the entry of the block
and its host offset from the begin of the block. -/
structure GuestOpcode where
  guestEntryOffset : BitVec 64
  hostEntryOffset : ℕ

/-! ### Emission -/

/-- What the emission of a block does one after the other. -/
inductive Emit
  /-- `Emit32` -/
  | word (w : BitVec 32)
  /-- a guest instruction starts (`GuestOpcode`, or the entry of a code block) -/
  | guestOpcode (guestEntryOffset : BitVec 64)

/-- The words behind the block header, and the records so far. -/
structure Emitter where
  code : List (BitVec 32)
  guestOpcodes : List GuestOpcode

namespace Emitter

/-- The cursor relative to the begin of the block; the header takes one word. -/
def offset (e : Emitter) : ℕ := 4 * (e.code.length + 1)

def emit (e : Emitter) : Emit → Emitter
  | .word w => { e with code := e.code ++ [w] }
  | .guestOpcode g => { e with guestOpcodes := e.guestOpcodes ++ [⟨g, e.offset⟩] }

/-- The emission of a whole block. -/
def run (es : List Emit) : Emitter := es.foldl emit ⟨[], []⟩

/-- `Align16B`: fill up to 16 bytes with `nop`s. -/
def align16B (e : Emitter) : Emitter :=
  { e with code := e.code ++ List.replicate ((4 - (e.code.length + 1) % 4) % 4) 0x60000000 }

/-- The records are in ascending host order and none is past the cursor. -/
structure Ordered (e : Emitter) : Prop where
  ascending : e.guestOpcodes.Pairwise (·.hostEntryOffset ≤ ·.hostEntryOffset)
  inside : ∀ g ∈ e.guestOpcodes, g.hostEntryOffset ≤ e.offset

theorem Ordered.emit {e : Emitter} (h : e.Ordered) (x : Emit) : (e.emit x).Ordered := by
  cases x with
  | word w =>
    refine ⟨h.ascending, ?_⟩
    intro g hg
    refine (h.inside g hg).trans ?_
    simp only [offset, Emitter.emit, length_append]
    omega
  | guestOpcode o =>
    refine ⟨?_, ?_⟩
    · refine pairwise_append.2 ⟨h.ascending, pairwise_singleton _ _, ?_⟩
      intro g hg g' hg'
      rw [mem_singleton.1 hg']
      exact h.inside g hg
    · intro g hg
      obtain hg | hg := mem_append.1 hg
      · exact h.inside g hg
      · rw [mem_singleton.1 hg]
        exact le_rfl

theorem ordered_run (es : List Emit) : (run es).Ordered := by
  have hall : ∀ e : Emitter, e.Ordered → (es.foldl Emitter.emit e).Ordered := by
    induction es with
    | nil => exact fun e h => h
    | cons x es ih => exact fun e h => ih _ (h.emit x)
  exact hall _ ⟨List.Pairwise.nil, by intro g hg; exact absurd hg not_mem_nil⟩

theorem Ordered.align16B {e : Emitter} (h : e.Ordered) : e.align16B.Ordered := by
  refine ⟨h.ascending, ?_⟩
  intro g hg
  refine (h.inside g hg).trans ?_
  simp only [offset, Emitter.align16B, length_append]
  omega

end Emitter

/-! ### Blocks -/

variable {m : Memory}

structure Block where
  /-- the words behind the header, alignment included -/
  code : List (BitVec 32)
  rip : BitVec 64
  guestSize : BitVec 64
  singleInst : Bool
  guestOpcodes : List GuestOpcode
  aligned : (code.length + 1) % 4 = 0
  ascending : guestOpcodes.Pairwise (·.hostEntryOffset ≤ ·.hostEntryOffset)
  inside : ∀ g ∈ guestOpcodes, g.hostEntryOffset ≤ 4 * (code.length + 1)

def Block.ofEmission (entry guestSize : BitVec 64) (singleInst : Bool) (es : List Emit) :
    Block where
  code := (Emitter.run es).align16B.code
  rip := entry
  guestSize := guestSize
  singleInst := singleInst
  guestOpcodes := (Emitter.run es).align16B.guestOpcodes
  aligned := by
    rw [Emitter.align16B, length_append, length_replicate]
    omega
  ascending := (Emitter.ordered_run es).align16B.ascending
  inside := (Emitter.ordered_run es).align16B.inside

/-- The RIP entries: the distances of the records from one to the next. -/
def ripEntries (prevPCOffset prevRIPOffset : BitVec 64) : List GuestOpcode → List Byte
  | [] => []
  | g :: gs =>
    encode (BitVec.ofNat 64 g.hostEntryOffset - prevPCOffset)
        (g.guestEntryOffset - prevRIPOffset) ++
      ripEntries (BitVec.ofNat 64 g.hostEntryOffset) g.guestEntryOffset gs

namespace Block

variable (b : Block)

/-- The header and the code. -/
def codeSize : ℕ := 4 * (b.code.length + 1)

def entries : List Byte := ripEntries 0 0 b.guestOpcodes

/-- The size of the tail and the entries, `TailAndEntriesAligned`. -/
def tailAndEntriesAligned : ℕ := (40 + b.entries.length + 15) / 16 * 16

/-- `Tail->Size` -/
def size : ℕ := b.codeSize + b.tailAndEntriesAligned

/-- The fields of `JITCodeTail` from `RIP` on. -/
def tailFields : List Byte :=
  leBytes 8 b.rip.toNat ++ (leBytes 8 b.guestSize.toNat ++
    (leBytes 4 b.guestOpcodes.length ++ (leBytes 4 40 ++
      (leBytes 4 0 ++ [if b.singleInst then 1 else 0, 0, 0, 0]))))

def bytes : List Byte :=
  leBytes 4 b.codeSize ++ (b.code.flatMap (fun w => leBytes 4 w.toNat) ++
    (leBytes 8 b.size ++ (b.tailFields ++
      (b.entries ++ List.replicate (b.tailAndEntriesAligned - (40 + b.entries.length)) 0))))

theorem length_tailFields : b.tailFields.length = 32 := by
  simp only [tailFields, length_append, length_leBytes, length_cons, length_nil]

theorem length_words (ws : List (BitVec 32)) :
    (ws.flatMap (fun w => leBytes 4 w.toNat)).length = 4 * ws.length := by
  induction ws with
  | nil => rfl
  | cons w ws ih =>
    rw [flatMap_cons, length_append, length_leBytes, ih, length_cons]
    omega

@[simp]
theorem length_bytes : b.bytes.length = b.size := by
  have hpad : 40 + b.entries.length ≤ b.tailAndEntriesAligned := by
    unfold tailAndEntriesAligned
    omega
  simp only [bytes, length_append, length_leBytes, length_words, length_tailFields,
    length_replicate, size, codeSize]
  omega

theorem size_mod : b.size % 16 = 0 := by
  have := b.aligned
  unfold size codeSize tailAndEntriesAligned
  omega

theorem le_size : 64 ≤ b.size := by
  have := b.aligned
  unfold size codeSize tailAndEntriesAligned
  omega

theorem codeSize_add_le : b.codeSize + 40 + b.entries.length ≤ b.size := by
  unfold size tailAndEntriesAligned
  omega

/-! ### Reading the bytes of a block -/

/-- A memory holds a block at an offset: what a reader of its header, tail and entries finds. -/
structure Placed (m : Memory) (off : ℕ) : Prop where
  offsetToBlockTail : readLe m off 4 = b.codeSize
  size : readLe m (off + b.codeSize) 8 = b.size
  rip : BitVec.ofNat 64 (readLe m (off + b.codeSize + 8) 8) = b.rip
  numberOfRIPEntries : readLe m (off + b.codeSize + 24) 4 = b.guestOpcodes.length
  offsetToRIPEntries : readLe m (off + b.codeSize + 28) 4 = 40
  entries : Holds m (off + b.codeSize + 40) b.entries

theorem length_le_ripEntries (p r : BitVec 64) (gs : List GuestOpcode) :
    gs.length ≤ (ripEntries p r gs).length := by
  induction gs generalizing p r with
  | nil => exact Nat.zero_le _
  | cons g gs ih =>
    have hpos := encode_length_pos (BitVec.ofNat 64 g.hostEntryOffset - p) (g.guestEntryOffset - r)
    have := ih (BitVec.ofNat 64 g.hostEntryOffset) g.guestEntryOffset
    rw [ripEntries, length_append, length_cons]
    omega

/-- **The fields of a block that was written are read back.**  A block of less than 4 GiB fits
its 32-bit fields. -/
theorem placed_of_holds {b : Block} {off : ℕ} (h : Holds m off b.bytes) (hsma : b.size ≤ 2 ^ 32) :
    b.Placed m off := by
  have hsi := b.codeSize_add_le
  have hcou : b.guestOpcodes.length ≤ b.entries.length := length_le_ripEntries 0 0 b.guestOpcodes
  have htl : off + 4 + 4 * b.code.length = off + b.codeSize := by
    unfold codeSize
    omega
  obtain ⟨hhd, h⟩ := holds_append.1 h
  obtain ⟨-, h⟩ := holds_append.1 h
  obtain ⟨hsz, h⟩ := holds_append.1 h
  obtain ⟨hfie, h⟩ := holds_append.1 h
  obtain ⟨hent, -⟩ := holds_append.1 h
  obtain ⟨hrip, hfie⟩ := holds_append.1 hfie
  obtain ⟨-, hfie⟩ := holds_append.1 hfie
  obtain ⟨hnum, hfie⟩ := holds_append.1 hfie
  obtain ⟨hoff, -⟩ := holds_append.1 hfie
  simp only [length_leBytes, length_words, htl] at hsz hrip hnum hoff hent
  refine ⟨hhd.readLe ?_, hsz.readLe ?_, ?_, hnum.readLe ?_, hoff.readLe (by decide), hent⟩
  · exact lt_of_lt_of_le (by omega) hsma
  · exact lt_of_le_of_lt hsma (by decide)
  · rw [hrip.readLe b.rip.isLt, BitVec.ofNat_toNat, BitVec.setWidth_eq]
  · exact lt_of_lt_of_le (by omega) hsma

end Block

/-! ### Walking the entries -/

variable {base : BitVec 64}

variable {gs : List GuestOpcode} {k : ℕ}

/-- The loop over the RIP entries, `n` of which are left at `ripEntry`. -/
def walkRIPEntries (m : Memory) (hostPC : BitVec 64) :
    ℕ → ℕ → BitVec 64 → BitVec 64 → BitVec 64
  | 0, _, _, startingGuestRIP => startingGuestRIP
  | n + 1, ripEntry, startingHostPC, startingGuestRIP =>
    if startingHostPC + (decode m ripEntry).integerARMPC ≤ hostPC then
      walkRIPEntries m hostPC n (ripEntry + (decode m ripEntry).size)
        (startingHostPC + (decode m ripEntry).integerARMPC)
        (startingGuestRIP + (decode m ripEntry).integerX86RIP)
    else startingGuestRIP

/-- `WalkBlockRIPTable` for the block at offset `off` of a buffer, at the address `blockBegin`. -/
def walkBlockRIPTable (m : Memory) (off : ℕ) (blockBegin hostPC : BitVec 64) : BitVec 64 :=
  let tail := off + readLe m off 4
  walkRIPEntries m hostPC (readLe m (tail + 24) 4) (tail + readLe m (tail + 28) 4) blockBegin
    (BitVec.ofNat 64 (readLe m (tail + 8) 8))

/-- The guest offset of the last record not above host offset `k`. -/
def lastGuestOffset (gs : List GuestOpcode) (k : ℕ) : Option (BitVec 64) :=
  ((gs.filter (·.hostEntryOffset ≤ k)).getLast?).map (·.guestEntryOffset)

/-- The guest RIP at host offset `k` of a block: that of the last record not above it, the entry
before the first record. -/
def Block.ripAt (b : Block) (k : ℕ) : BitVec 64 :=
  b.rip + (lastGuestOffset b.guestOpcodes k).getD 0

theorem lastGuestOffset_cons_le {g : GuestOpcode} (h : g.hostEntryOffset ≤ k) (r : BitVec 64) :
    (lastGuestOffset (g :: gs) k).getD r = (lastGuestOffset gs k).getD g.guestEntryOffset := by
  unfold lastGuestOffset
  rw [filter_cons_of_pos (by simpa using h), getLast?_cons]
  cases (gs.filter (·.hostEntryOffset ≤ k)).getLast? <;> rfl

theorem lastGuestOffset_eq_none (h : ∀ g ∈ gs, k < g.hostEntryOffset) :
    lastGuestOffset gs k = none := by
  unfold lastGuestOffset
  rw [filter_eq_nil_iff.2]
  · rfl
  · intro g hg
    simpa using h g hg

/-- Comparing two addresses of one block. -/
theorem add_le_add_ofNat {a n : ℕ} (hbs : base.toNat + n ≤ 2 ^ 64) (ha : a < n) (hk : k < n) :
    base + BitVec.ofNat 64 a ≤ base + BitVec.ofNat 64 k ↔ a ≤ k := by
  rw [le_def, toNat_add, toNat_add, toNat_ofNat, toNat_ofNat]
  omega

/-- The loop from a record at host offset `p` and guest offset `r` on. -/
theorem walkRIPEntries_eq (rip : BitVec 64) {n : ℕ} (hbs : base.toNat + n ≤ 2 ^ 64) (hk : k < n)
    (gs : List GuestOpcode) (p : BitVec 64) (r : BitVec 64) (entry : ℕ)
    (hhol : Holds m entry (ripEntries p r gs))
    (hasc : gs.Pairwise (·.hostEntryOffset ≤ ·.hostEntryOffset))
    (hin : ∀ g ∈ gs, g.hostEntryOffset < n) :
    walkRIPEntries m (base + BitVec.ofNat 64 k) gs.length entry (base + p) (rip + r) =
      rip + (lastGuestOffset gs k).getD r := by
  induction gs generalizing p r entry with
  | nil => rfl
  | cons g gs ih =>
    obtain ⟨hfir, hrs⟩ := holds_append.1 hhol
    obtain ⟨habo, hasc⟩ := pairwise_cons.1 hasc
    have hpc : base + p + (BitVec.ofNat 64 g.hostEntryOffset - p) =
        base + BitVec.ofNat 64 g.hostEntryOffset := by
      rw [BitVec.add_assoc, BitVec.add_comm p, BitVec.sub_add_cancel]
    have hrip : rip + r + (g.guestEntryOffset - r) = rip + g.guestEntryOffset := by
      rw [BitVec.add_assoc, BitVec.add_comm r, BitVec.sub_add_cancel]
    have hcmp := add_le_add_ofNat hbs (hin g mem_cons_self) hk
    rw [length_cons, walkRIPEntries, decode_encode hfir]
    rw [hpc, hrip]
    split
    next hle =>
      rw [lastGuestOffset_cons_le (hcmp.1 hle)]
      apply ih _ _ _ hrs hasc
      intro g' hg'
      exact hin g' (mem_cons_of_mem _ hg')
    next hgt =>
      -- the records after this one are not below it, so the walk may stop
      rw [lastGuestOffset_eq_none, Option.getD_none]
      have hlt : k < g.hostEntryOffset := Nat.lt_of_not_le (fun h => hgt (hcmp.2 h))
      intro g' hg'
      obtain rfl | hg' := mem_cons.1 hg'
      · exact hlt
      · exact hlt.trans_le (habo g' hg')

/-- **The walk finds the guest RIP** of every host PC inside a block that memory holds. -/
theorem walkBlockRIPTable_eq {b : Block} {off : ℕ} (h : b.Placed m off)
    (hbs : base.toNat + b.size ≤ 2 ^ 64) (hk : k < b.size) :
    walkBlockRIPTable m off base (base + BitVec.ofNat 64 k) = b.ripAt k := by
  have hin : ∀ g ∈ b.guestOpcodes, g.hostEntryOffset < b.size := by
    intro g hg
    have hcd : g.hostEntryOffset ≤ b.codeSize := b.inside g hg
    have := b.codeSize_add_le
    omega
  have hzr : ∀ x : BitVec 64, x + 0 = x := BitVec.add_zero
  have hwl := walkRIPEntries_eq b.rip hbs hk b.guestOpcodes 0 0 _ h.entries b.ascending hin
  rw [hzr, hzr] at hwl
  rw [walkBlockRIPTable, h.offsetToBlockTail, h.numberOfRIPEntries, h.offsetToRIPEntries, h.rip]
  exact hwl

end FastPPC.Rip
