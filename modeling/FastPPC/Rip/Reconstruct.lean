import FastPPC.Machine.Basic
import FastPPC.Rip.CodeBuffer

/-!
# Guest RIP reconstruction

The code buffer manager places compiled blocks, auxiliary chunks and cached images in its latest
buffer and replaces that buffer when it is full.  A signal handler finds the block of a host PC
through the index of the buffers its thread holds, and the guest RIP through the RIP table of the
block.

* `State`, `Action` and `step` are the manager;
* `findBlockHeader` and `restoreRIPFromHostPC` are the lookups of a thread;
* `Inv` is what every run keeps, and `restoreRIPFromHostPC_correct` the result: **the lookups are
  right if every buffer has at most 4 GiB.**

The index keeps offsets of 32 bits and nothing bounds the size of a buffer, so in a larger one an
address in no block can find one (`restoreRIPFromHostPC_wrong`).
-/

namespace FastPPC.Rip

open Codec CodeBuffer List Option

/-- The code buffer manager; `older` are the replaced buffers that some thread still holds. -/
structure State where
  latest : CodeBuffer
  latestOffset : ℕ
  older : List CodeBuffer
  enableCodeCaching : Bool

inductive Action
  /-- `CompileCode`: emit a block and its tail -/
  | compileCode (entry guestSize : BitVec 64) (singleInst : Bool) (es : List Emit)
  /-- `TryAllocateAuxMemory`; `locked` when the write mutex is taken -/
  | tryAllocateAuxMemory (locked : Bool) (bytes alignment : ℕ) (nearHostPC maxDelta : BitVec 64)
  /-- `LoadData` of an image of packed blocks that passes every check -/
  | loadData (image : List Block)
  /-- `LoadData` of an image that is rejected after it was copied -/
  | rejectData (image : List Byte)
  | startLargerCodeBuffer (m : Mapping)
  /-- the last thread that held an older buffer lets go of it -/
  | release (i : ℕ)

def alignUp (x a : ℕ) : ℕ := (x + (a - 1)) / a * a

def Mapping.Apart (m n : Mapping) : Prop :=
  m.ptr + m.usableSize ≤ n.ptr ∨ n.ptr + n.usableSize ≤ m.ptr

instance (m n : Mapping) : Decidable (m.Apart n) := inferInstanceAs (Decidable (_ ∨ _))

namespace State

variable (s : State)

def buffers : List CodeBuffer := s.latest :: s.older

/-- `CompileCode`; nothing is returned where the emission runs into the guard page. -/
def compileCode (entry guestSize : BitVec 64) (singleInst : Bool) (es : List Emit) :
    Option State :=
  let k := Block.ofEmission entry guestSize singleInst es
  if s.latest.usableSize < s.latestOffset + k.size then none
  else
    let b := { s.latest with mem := write s.latest.mem s.latestOffset k.bytes }
    (b.appendBlock (s.latestOffset % 2 ^ 32)).map fun b =>
      { s with
        latest := { b with blocks := b.blocks ++ [(s.latestOffset, k)] }
        latestOffset := s.latestOffset + k.size }

/-- The chunk is further from the patched code than a branch reaches. -/
def outOfReach (addr bytes : ℕ) (nearHostPC maxDelta : BitVec 64) : Bool :=
  decide ((BitVec.ofNat 64 addr).toInt - nearHostPC.toInt < -maxDelta.toInt ∨
    maxDelta.toInt < (BitVec.ofNat 64 (addr + bytes)).toInt - nearHostPC.toInt)

/-- `TryAllocateAuxMemory`; a refusal leaves everything as it is. -/
def tryAllocateAuxMemory (locked : Bool) (bytes alignment : ℕ) (nearHostPC maxDelta : BitVec 64) :
    State :=
  let start := alignUp s.latestOffset alignment
  if bytes = 0 ∨ alignment = 0 ∨ alignment &&& (alignment - 1) ≠ 0 then s
  else if s.enableCodeCaching then s
  else if locked then s
  else if s.latest.usableSize < start + bytes then s
  else if maxDelta ≠ 0 ∧ outOfReach (s.latest.ptr + start) bytes nearHostPC maxDelta then s
  else
    { s with
      latest := { s.latest with aux := s.latest.aux ++ [(start, bytes)] }
      latestOffset := start + bytes }

/-- `LoadData` of an image that passes every check, into a buffer that has room for it. -/
def loadData (image : List Block) : Option State :=
  let start := alignUp s.latestOffset 4096
  let bytes := imageBytes image
  if s.latest.usableSize < start + bytes.length then none
  else
    let b := { s.latest with mem := write s.latest.mem start bytes }
    (b.rebuildBlockIndexByWalk bytes.length start).map fun b =>
      { s with
        latest := { b with blocks := b.blocks ++ layout start image }
        latestOffset := start + bytes.length }

/-- `LoadData` of an image that is rejected: its bytes are given back, the alignment is not. -/
def rejectData (image : List Byte) : Option State :=
  let start := alignUp s.latestOffset 4096
  if s.latest.usableSize < start + image.length then none
  else some { s with
    latest := { s.latest with mem := write s.latest.mem start image }
    latestOffset := start }

/-- `StartLargerCodeBuffer`, at an address where nothing is mapped. -/
def startLargerCodeBuffer (m : Mapping) : Option State :=
  if ∀ b ∈ s.buffers, m.Apart b.toMapping then
    some { s with latest := m.codeBuffer, latestOffset := 0, older := s.buffers }
  else none

def step : Action → Option State
  | .compileCode entry guestSize singleInst es => s.compileCode entry guestSize singleInst es
  | .tryAllocateAuxMemory locked bytes alignment near maxDelta =>
    some (s.tryAllocateAuxMemory locked bytes alignment near maxDelta)
  | .loadData image => s.loadData image
  | .rejectData image => s.rejectData image
  | .startLargerCodeBuffer m => s.startLargerCodeBuffer m
  | .release i => some { s with older := s.older.eraseIdx i }

def init (m : Mapping) (enableCodeCaching : Bool) : State where
  latest := m.codeBuffer
  latestOffset := 0
  older := []
  enableCodeCaching := enableCodeCaching

end State

/-- A new buffer has at most 4 GiB. -/
def Action.Small : Action → Prop
  | .startLargerCodeBuffer m => m.usableSize ≤ 2 ^ 32
  | _ => True

def manager : Machine State Action where
  step s a s' := s.step a = some s'

/-! ### What a thread looks up -/

/-- `CPUBackend::FindBlockHeader` over the buffers a thread holds: the buffer and the offset. -/
def findBlockHeader (held : List CodeBuffer) (hostPC : BitVec 64) : Option (CodeBuffer × ℕ) :=
  held.findSome? fun b => (b.findBlockHeader hostPC.toNat).map fun off => (b, off)

/-- `RestoreRIPFromHostPC`; `rip` is `Frame->State.rip`. -/
def restoreRIPFromHostPC (held : List CodeBuffer) (rip hostPC : BitVec 64) : BitVec 64 :=
  match findBlockHeader held hostPC with
  | none => rip
  | some (b, off) =>
    if readLe b.mem (off + readLe b.mem off 4 + 24) 4 = 0 then rip
    else walkBlockRIPTable b.mem off (BitVec.ofNat 64 (b.ptr + off)) hostPC

/-! ### The invariant -/

variable {m : Mapping}

variable {b c : CodeBuffer} {guestSize pc : BitVec 64} {singleInst : Bool} {es : List Emit}

/-- Everything in the buffers is below the offset of the next block, and the buffers are apart. -/
structure Inv (s : State) : Prop where
  latest : s.latest.Filled s.latestOffset
  older : ∀ b ∈ s.older, b.Filled b.usableSize
  apart : s.buffers.Pairwise fun b c => b.Apart c.toMapping

theorem le_alignUp {x a : ℕ} (ha : 0 < a) : x ≤ alignUp x a := by
  have hdiv := Nat.div_add_mod (x + (a - 1)) a
  have hmod := Nat.mod_lt (x + (a - 1)) ha
  rw [Nat.mul_comm] at hdiv
  unfold alignUp
  omega

instance : Std.Symm fun b c : CodeBuffer => b.Apart c.toMapping where
  symm _ _ h := Or.symm h

namespace Inv

variable {s s' : State}

theorem init (hm : m.usableSize ≤ 2 ^ 32) (caching : Bool) :
    Inv (State.init m caching) where
  latest := filled_codeBuffer hm
  older _ hb := absurd hb not_mem_nil
  apart := pairwise_singleton _ _

/-- The image lands in a buffer with an empty index if it lands at its begin. -/
theorem rebuildBlockIndexByWalk_eq {limit off : ℕ} (h : b.Filled limit) (hoff : limit ≤ off)
    {image : List Block} (hfit : off + (imageBytes image).length ≤ b.usableSize) :
    ({ b with mem := write b.mem off (imageBytes image) } : CodeBuffer).rebuildBlockIndexByWalk
        (imageBytes image).length off =
      some { b with
        mem := write b.mem off (imageBytes image)
        blockOffsets := b.blockOffsets ++ (layout off image).map Prod.fst } := by
  have hres : (if off = 0 then
        { b with mem := write b.mem off (imageBytes image), blockOffsets := [] }
      else { b with mem := write b.mem off (imageBytes image) } : CodeBuffer) =
      { b with mem := write b.mem off (imageBytes image) } := by
    split
    next h0 =>
      have hcou := h.length_blockOffsets
      have hnil : b.blockOffsets = [] := eq_nil_of_length_eq_zero (by omega)
      rw [hnil]
    · rfl
  rw [rebuildBlockIndexByWalk]
  rw [hres]
  split
  next hzr =>
    have hlen := length_layout off image
    rw [hzr] at hlen
    rw [eq_nil_of_length_eq_zero (by omega : (layout off image).length = 0), map_nil, append_nil]
  · have hwri := h.write hoff (imageBytes image)
    rw [if_neg]
    · exact walkBlocks_eq (holds_write ..) hfit le_rfl (hwri.offset_lt hoff)
        (hwri.length_blockOffsets.trans hoff) h.small
    · show ¬ (b.usableSize < off ∨ b.usableSize - off < _)
      omega

section

variable (h : Inv s)
include h

theorem ofLatest {off : ℕ} (hb : b.toMapping = s.latest.toMapping) (hfl : b.Filled off) :
    Inv { s with latest := b, latestOffset := off } where
  latest := hfl
  older := h.older
  apart := by
    obtain ⟨hlat, holder⟩ := pairwise_cons.1 h.apart
    refine pairwise_cons.2 ⟨?_, holder⟩
    intro c hc
    rw [hb]
    exact hlat c hc

theorem compileCode {entry : BitVec 64}
    (hst : s.compileCode entry guestSize singleInst es = some s') : Inv s' := by
  simp only [State.compileCode] at hst
  generalize Block.ofEmission entry guestSize singleInst es = k at hst
  split at hst
  · exact absurd hst (some_ne_none s').symm
  next hfit =>
    have hlen : (imageBytes [k]).length = k.size := by
      rw [imageBytes, flatMap_singleton, k.length_bytes]
    have hsz := k.le_size
    have hsma := h.latest.small
    have hoff : s.latestOffset % 2 ^ 32 = s.latestOffset := Nat.mod_eq_of_lt (by omega)
    have hfil := h.latest.extend le_rfl [k] (by omega)
    have hwri := h.latest.write le_rfl k.bytes
    rw [hoff, appendBlock_eq (hwri.offset_lt le_rfl) hwri.length_blockOffsets
      hwri.limit_le hsma, map_some] at hst
    obtain rfl := some.inj hst
    rw [hlen, imageBytes, flatMap_singleton] at hfil
    exact h.ofLatest rfl hfil

theorem tryAllocateAuxMemory (locked : Bool) (bytes alignment : ℕ) (near maxDelta : BitVec 64) :
    Inv (s.tryAllocateAuxMemory locked bytes alignment near maxDelta) := by
  simp only [State.tryAllocateAuxMemory]
  iterate 5
    split
    · exact h
  next har _ _ hfit _ =>
    push Not at har
    have hsta := le_alignUp (Nat.pos_of_ne_zero har.2.1) (x := s.latestOffset)
    exact h.ofLatest rfl (h.latest.reserve hsta (by omega))

theorem loadData {image : List Block} (hst : s.loadData image = some s') : Inv s' := by
  simp only [State.loadData] at hst
  split at hst
  · exact absurd hst (some_ne_none s').symm
  next hfit =>
    have hsta := le_alignUp (by decide : 0 < 4096) (x := s.latestOffset)
    have hfit := Nat.le_of_not_lt hfit
    rw [rebuildBlockIndexByWalk_eq h.latest hsta hfit, map_some] at hst
    obtain rfl := some.inj hst
    exact h.ofLatest rfl (h.latest.extend hsta image hfit)

theorem rejectData {image : List Byte} (hst : s.rejectData image = some s') : Inv s' := by
  simp only [State.rejectData] at hst
  split at hst
  · exact absurd hst (some_ne_none s').symm
  next hfit =>
    obtain rfl := some.inj hst
    have hsta := le_alignUp (by decide : 0 < 4096) (x := s.latestOffset)
    have hlim : alignUp s.latestOffset 4096 ≤ s.latest.usableSize := by omega
    exact h.ofLatest rfl ((h.latest.write hsta image).mono hsta hlim)

theorem startLargerCodeBuffer (hm : m.usableSize ≤ 2 ^ 32)
    (hst : s.startLargerCodeBuffer m = some s') : Inv s' := by
  rw [State.startLargerCodeBuffer] at hst
  split at hst
  next hfr =>
    obtain rfl := some.inj hst
    refine ⟨filled_codeBuffer hm, ?_, pairwise_cons.2 ⟨hfr, h.apart⟩⟩
    intro b hb
    obtain rfl | hb := mem_cons.1 hb
    · exact h.latest.mono h.latest.limit_le le_rfl
    · exact h.older b hb
  · exact absurd hst (some_ne_none s').symm

theorem step {a : Action} (ha : a.Small) (hst : s.step a = some s') : Inv s' := by
  cases a with
  | compileCode entry guestSize singleInst es => exact h.compileCode hst
  | tryAllocateAuxMemory locked bytes alignment near maxDelta =>
    obtain rfl := Option.some.inj hst
    exact h.tryAllocateAuxMemory locked bytes alignment near maxDelta
  | loadData image => exact h.loadData hst
  | rejectData image => exact h.rejectData hst
  | startLargerCodeBuffer m => exact h.startLargerCodeBuffer ha hst
  | release i =>
    obtain rfl := Option.some.inj hst
    refine ⟨h.latest, ?_, ?_⟩
    · intro b hb
      exact h.older b (mem_of_mem_eraseIdx hb)
    · exact h.apart.sublist ((eraseIdx_sublist s.older i).cons_cons s.latest)

theorem filled (hb : b ∈ s.buffers) : ∃ limit, b.Filled limit := by
  obtain rfl | hb := mem_cons.1 hb
  · exact ⟨_, h.latest⟩
  · exact ⟨_, h.older b hb⟩

/-- A compile that fits never stops the process. -/
theorem compileCode_isSome {entry : BitVec 64}
    (hfit : s.latestOffset + (Block.ofEmission entry guestSize singleInst es).size ≤
      s.latest.usableSize) : (s.compileCode entry guestSize singleInst es).isSome := by
  simp only [State.compileCode]
  generalize Block.ofEmission entry guestSize singleInst es = k at hfit
  have hsz := k.le_size
  have hsma := h.latest.small
  have hoff : s.latestOffset % 2 ^ 32 = s.latestOffset := Nat.mod_eq_of_lt (by omega)
  have hwri := h.latest.write le_rfl k.bytes
  rw [if_neg (Nat.not_lt.2 hfit), hoff, appendBlock_eq (hwri.offset_lt le_rfl)
    hwri.length_blockOffsets hwri.limit_le hsma]
  rfl

end

theorem run {caching : Bool} {as : List Action} (hm : m.usableSize ≤ 2 ^ 32)
    (hrun : manager.Run (fun _ a => a.Small) (State.init m caching) as s) : Inv s :=
  hrun.invariant (init hm caching) fun _ _ _ h ha hst => h.step ha hst

/-! ### Lookups -/

theorem eq_of_address (h : Inv s) (hb : b ∈ s.buffers) (hc : c ∈ s.buffers) {pc : ℕ}
    (hpb : b.ptr ≤ pc ∧ pc < b.ptr + b.usableSize) (hpc : c.ptr ≤ pc ∧ pc < c.ptr + c.usableSize) :
    b = c := by
  by_contra hne
  have hapa := h.apart.forall hb hc hne
  unfold Mapping.Apart at hapa
  omega

/-- An address that is in one buffer only is in no block of another. -/
theorem not_in_block (h : Inv s) (hb : b ∈ s.buffers) (hc : c ∈ s.buffers) (hne : c ≠ b) {pc : ℕ}
    (hpb : b.ptr ≤ pc ∧ pc < b.ptr + b.usableSize) : c.findBlockHeader pc = none := by
  obtain ⟨limit, hfl⟩ := h.filled hc
  apply hfl.findBlockHeader_eq_none
  rintro p hp ⟨hlo, hhi⟩
  have hbel := hfl.below p hp
  have hlim := hfl.limit_le
  exact hne (h.eq_of_address hc hb ⟨by omega, by omega⟩ hpb)

end Inv

theorem findSome?_eq_of_forall {α β : Type} {f : α → Option β} {l : List α} {v : β}
    (hall : ∀ x ∈ l, f x = none ∨ f x = some v) (hex : ∃ x ∈ l, f x = some v) :
    l.findSome? f = some v := by
  induction l with
  | nil =>
    obtain ⟨x, hx, -⟩ := hex
    exact absurd hx not_mem_nil
  | cons a l ih =>
    rw [List.findSome?_cons]
    obtain hnn | hsm := hall a mem_cons_self
    · rw [hnn]
      apply ih
      · intro x hx
        exact hall x (mem_cons_of_mem a hx)
      · obtain ⟨x, hx, hfx⟩ := hex
        obtain rfl | hx := mem_cons.1 hx
        · exact absurd (hnn.symm.trans hfx) (Option.some_ne_none v).symm
        · exact ⟨x, hx, hfx⟩
    · rw [hsm]

section

variable {s : State} {held : List CodeBuffer}

section

variable (h : Inv s) (hheld : ∀ b ∈ held, b ∈ s.buffers)
include h hheld

/-- The lookup of an address inside a block of a buffer the thread holds. -/
theorem findBlockHeader_block (hb : b ∈ held) {p : ℕ × Block} (hp : p ∈ b.blocks) {k : ℕ}
    (hk : k < p.2.size) (hpc : pc.toNat = b.ptr + p.1 + k) :
    findBlockHeader held pc = some (b, p.1) := by
  obtain ⟨limit, hfl⟩ := h.filled (hheld b hb)
  have hfn := hfl.findBlockHeader_eq hp hk
  have hbel := hfl.below p hp
  have hlim := hfl.limit_le
  unfold findBlockHeader
  rw [hpc]
  apply findSome?_eq_of_forall
  · intro c hc
    by_cases hcb : c = b
    · right
      rw [hcb, hfn]
      rfl
    · left
      rw [h.not_in_block (hheld b hb) (hheld c hc) hcb ⟨by omega, by omega⟩]
      rfl
  · refine ⟨b, hb, ?_⟩
    rw [hfn]
    rfl

theorem findBlockHeader_none (hpc : ∀ b ∈ held, ∀ p ∈ b.blocks,
      ¬ (b.ptr + p.1 ≤ pc.toNat ∧ pc.toNat < b.ptr + p.1 + p.2.size)) :
    findBlockHeader held pc = none := by
  refine List.findSome?_eq_none_iff.2 ?_
  intro b hb
  obtain ⟨limit, hfl⟩ := h.filled (hheld b hb)
  rw [hfl.findBlockHeader_eq_none (hpc b hb)]
  rfl

/-- An address inside an auxiliary chunk is in no block. -/
theorem findBlockHeader_aux (hb : b ∈ held) {a : ℕ × ℕ} (ha : a ∈ b.aux)
    (hpc : b.ptr + a.1 ≤ pc.toNat ∧ pc.toNat < b.ptr + a.1 + a.2) :
    findBlockHeader held pc = none := by
  obtain ⟨limit, hfl⟩ := h.filled (hheld b hb)
  have haub := hfl.auxBelow a ha
  have hlim := hfl.limit_le
  refine List.findSome?_eq_none_iff.2 ?_
  intro c hc
  by_cases hcb : c = b
  · subst hcb
    rw [hfl.findBlockHeader_eq_none]
    · rfl
    · rintro p hp ⟨hlo, hhi⟩
      have := hfl.apart p hp a ha
      omega
  · rw [h.not_in_block (hheld b hb) (hheld c hc) hcb ⟨by omega, by omega⟩]
    rfl

/-- The guest RIP of an address inside a block with RIP entries. -/
theorem restoreRIPFromHostPC_block (hb : b ∈ held) {p : ℕ × Block} (hp : p ∈ b.blocks)
    (hent : p.2.guestOpcodes ≠ []) {k : ℕ} (hk : k < p.2.size)
    (hpc : pc.toNat = b.ptr + p.1 + k) (rip : BitVec 64) :
    restoreRIPFromHostPC held rip pc = p.2.ripAt k := by
  obtain ⟨limit, hfl⟩ := h.filled (hheld b hb)
  have hpla := hfl.placed hp
  have hbel := hfl.below p hp
  have hlim := hfl.limit_le
  have hft := b.fits
  have hbs : (BitVec.ofNat 64 (b.ptr + p.1)).toNat = b.ptr + p.1 := by
    rw [BitVec.toNat_ofNat, Nat.mod_eq_of_lt (by omega)]
  have hpc' : pc = BitVec.ofNat 64 (b.ptr + p.1) + BitVec.ofNat 64 k := by
    rw [← BitVec.ofNat_add, ← hpc, BitVec.ofNat_toNat, BitVec.setWidth_eq]
  rw [restoreRIPFromHostPC, findBlockHeader_block h hheld hb hp hk hpc]
  dsimp only
  rw [hpla.offsetToBlockTail, hpla.numberOfRIPEntries,
    if_neg (mt eq_nil_of_length_eq_zero hent), hpc']
  exact walkBlockRIPTable_eq hpla (by omega) hk

end

end

/-- **Guest RIP reconstruction.**  In every state of every run with buffers of at most 4 GiB, for a
thread that holds any of the buffers: an address inside the code of a block with RIP entries is
mapped to the entry of the block plus the guest offset of the last record not above it, and an
address in no block, such as one inside an auxiliary chunk, to no block. -/
theorem restoreRIPFromHostPC_correct {m : Mapping} {caching : Bool} {as : List Action} {s : State}
    (hm : m.usableSize ≤ 2 ^ 32)
    (hrun : manager.Run (fun _ a => a.Small) (State.init m caching) as s)
    {held : List CodeBuffer} (hheld : ∀ b ∈ held, b ∈ s.buffers) :
    (∀ b ∈ held, ∀ p ∈ b.blocks, p.2.guestOpcodes ≠ [] → ∀ k < p.2.codeSize, ∀ pc : BitVec 64,
      pc.toNat = b.ptr + p.1 + k → ∀ rip, restoreRIPFromHostPC held rip pc = p.2.ripAt k) ∧
    (∀ pc : BitVec 64, (∀ b ∈ held, ∀ p ∈ b.blocks,
      ¬ (b.ptr + p.1 ≤ pc.toNat ∧ pc.toNat < b.ptr + p.1 + p.2.size)) →
      findBlockHeader held pc = none) ∧
    ∀ b ∈ held, ∀ a ∈ b.aux, ∀ pc : BitVec 64,
      b.ptr + a.1 ≤ pc.toNat ∧ pc.toNat < b.ptr + a.1 + a.2 → findBlockHeader held pc = none := by
  have h := Inv.run hm hrun
  refine ⟨?_, ?_, ?_⟩
  · intro b hb p hp hent k hk pc hpc rip
    have hsz := p.2.codeSize_add_le
    exact restoreRIPFromHostPC_block h hheld hb hp hent (by omega) hpc rip
  · intro pc hpc
    exact findBlockHeader_none h hheld hpc
  · intro b hb a ha pc hpc
    exact findBlockHeader_aux h hheld hb ha hpc

def exampleMapping : Mapping where
  ptr := 0x10000000
  usableSize := 0x10000
  fits := by decide

/-- Two instructions, of which the second goes back by two bytes. -/
def exampleEmission : List Emit :=
  [.guestOpcode 2, .word 0x38630001, .guestOpcode 0, .word 0x38840001, .word 0x4e800020]

theorem exampleCompile_isSome :
    ((State.init exampleMapping false).compileCode 0x400000 8 false exampleEmission).isSome :=
  (Inv.init (m := exampleMapping) (by decide) false).compileCode_isSome (by decide)

/-- A buffer with the block and a chunk behind it. -/
def exampleState : State :=
  (Option.get _ exampleCompile_isSome).tryAllocateAuxMemory false 256 16 0 0

theorem exampleRun : manager.Run (fun _ a => a.Small) (State.init exampleMapping false)
      [.compileCode 0x400000 8 false exampleEmission, .tryAllocateAuxMemory false 256 16 0 0]
      exampleState := by
  refine .cons trivial (Option.some_get exampleCompile_isSome).symm ?_
  exact .cons trivial rfl (.nil _)

theorem restoreRIPFromHostPC_example :
    (∀ rip, restoreRIPFromHostPC exampleState.buffers rip 0x10000004 = 0x400002) ∧
    (∀ rip, restoreRIPFromHostPC exampleState.buffers rip 0x10000009 = 0x400000) ∧
    findBlockHeader exampleState.buffers 0x10000050 = none := by
  obtain ⟨hblo, -, haux⟩ := restoreRIPFromHostPC_correct (by decide) exampleRun (fun b hb => hb)
  refine ⟨?_, ?_, ?_⟩
  · intro rip
    exact hblo _ mem_cons_self _ mem_cons_self (by decide) 4 (by decide) _ rfl rip
  · intro rip
    exact hblo _ mem_cons_self _ mem_cons_self (by decide) 9 (by decide) _ rfl rip
  · exact haux _ mem_cons_self _ mem_cons_self _ (by decide)

/-- A buffer of 8192 MiB, of which a host page is the guard page. -/
def largeMapping : Mapping where
  ptr := 0x100000000
  usableSize := 2 ^ 33 - 2 ^ 16
  fits := by decide

theorem largeCompile_isSome :
    ((State.init largeMapping false).compileCode 0x400000 8 false exampleEmission).isSome := by
  decide +kernel

/-- **In a larger buffer an address 4 GiB behind a block, in no block, finds the block.** -/
theorem restoreRIPFromHostPC_wrong : ∃ s, manager.Run (fun _ _ => True)
      (State.init largeMapping false) [.compileCode 0x400000 8 false exampleEmission] s ∧
    (∀ b ∈ s.buffers, ∀ p ∈ b.blocks, b.ptr + p.1 + p.2.size ≤ 0x200000004) ∧
    (findBlockHeader s.buffers 0x200000004).map Prod.snd = some 0 ∧
    restoreRIPFromHostPC s.buffers 0 0x200000004 = 0x400000 := by
  refine ⟨_, .cons trivial (Option.some_get largeCompile_isSome).symm (.nil _), ?_, ?_, ?_⟩
  all_goals decide +kernel

end FastPPC.Rip
