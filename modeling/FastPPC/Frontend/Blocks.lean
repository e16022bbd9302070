import FastPPC.Frontend.Decode

/-!
# Blocks of decoded instructions

The invariant of the decoder between two steps, and the proof that a branch target keeps it.  The
instructions of a block lie one behind the other in the decode buffer and in the guest's memory;
the blocks are sorted and disjoint, and no pending target lies in a block.

* `WfBlock`, `Inv` : well-formed blocks and states;
* `Block.splitPoint_spec` : where a block is split;
* `Inv.addBranchTarget` : a branch target keeps the invariant, and `ForceFullSMCDetection` unless it
  splits a block that has it.
-/

namespace FastPPC.Frontend

open List

/-- The distance of the instruction `i` of a block from its entry. -/
def instOffset (buffer : ℕ → Inst) (first : ℕ) : ℕ → ℕ
  | 0 => 0
  | i + 1 => instOffset buffer first i + (buffer (first + i)).instSize

theorem instOffset_add (buffer : ℕ → Inst) (first i j : ℕ) : instOffset buffer first (i + j) =
      instOffset buffer first i + instOffset buffer (first + i) j := by
  induction j with
  | zero => rfl
  | succ j ih =>
    rw [← Nat.add_assoc, instOffset, instOffset, ih, Nat.add_assoc, Nat.add_assoc first]

theorem instOffset_mono (buffer : ℕ → Inst) (first : ℕ) {i j : ℕ} (h : i ≤ j) :
    instOffset buffer first i ≤ instOffset buffer first j := by
  obtain ⟨k, rfl⟩ := Nat.exists_eq_add_of_le h
  rw [instOffset_add]
  exact Nat.le_add_right _ _

theorem instOffset_congr {buffer buffer' : ℕ → Inst} {first n : ℕ}
    (h : ∀ i, i < n → buffer' (first + i) = buffer (first + i)) :
    instOffset buffer' first n = instOffset buffer first n := by
  induction n with
  | zero => rfl
  | succ n ih =>
    rw [instOffset, instOffset, ih fun i hi => h i (Nat.lt_succ_of_lt hi), h n (Nat.lt_succ_self n)]

/-- The buffer entry belongs to the block. -/
def Block.Holds (b : Block) (k : ℕ) : Prop := b.first ≤ k ∧ k < b.first + b.numInstructions

/-- The instructions of a block tile it, each decoded at its own address, and their pages are
recorded. -/
structure WfBlock (img : Image) (buffer : ℕ → Inst) (pages : List ℕ) (b : Block) : Prop where
  decoded : ∀ i, i < b.numInstructions →
    buffer (b.first + i) = (img.decode (b.entry + instOffset buffer b.first i)).inst
  size : b.size = instOffset buffer b.first b.numInstructions
  top : b.entry + b.size < word - 1
  pages : ∀ i, i < b.numInstructions → ∀ k, k < (buffer (b.first + i)).instSize →
    pageOf (b.entry + instOffset buffer b.first i + k) ∈ pages

/-- The first block ends before the second begins. -/
def Block.Before (a b : Block) : Prop := a.entry < b.entry ∧ a.entry + a.size ≤ b.entry

namespace State

/-- The address waits to be decoded. -/
def Pending (s : State) (t : ℕ) : Prop := t ∈ s.blocksToDecode ∨ t ∈ s.currentBlockTargets

/-- The block that holds a Mono tail-call jump has `ForceFullSMCDetection`. -/
def KeepsForce (s : State) : Prop :=
  ∀ k ∈ s.history.tailcalls, ∀ b ∈ s.blocks, b.Holds k → b.forceFullSMCDetection = true

/-- The target is new, and the address of an instruction inside a block with
`ForceFullSMCDetection`. -/
def SplitsFlagged (s : State) (target : ℕ) : Prop :=
  target ∉ s.visitedBlocks ∧ ∃ b ∈ s.blocks, b.forceFullSMCDetection = true ∧ b.entry < target ∧
    target < b.entry + b.size ∧
    ∃ i < b.numInstructions, b.entry + instOffset s.buffer b.first i = target

end State

/-- The invariant of the decoder. -/
structure Inv (img : Image) (limit : ℕ) (s : State) : Prop where
  wf : ∀ b ∈ s.blocks, WfBlock img s.buffer s.codePages b
  num_pos : ∀ b ∈ s.blocks, 0 < b.numInstructions
  bound : ∀ b ∈ s.blocks, b.first + b.numInstructions ≤ s.decodedSize
  sorted : s.blocks.Pairwise Block.Before
  entries : ∀ b ∈ s.blocks, b.entry ∈ s.visitedBlocks
  pending : ∀ t, s.Pending t → t ∉ s.visitedBlocks ∧ t < word - 1
  outside : ∀ t, s.Pending t → ∀ b ∈ s.blocks, t ≤ b.entry ∨ b.entry + b.size ≤ t
  count : s.decodedSize = (s.blocks.map Block.numInstructions).sum
  total : s.totalInstructions = s.decodedSize
  limit : s.decodedSize ≤ min limit decodedBufferSize
  page : s.currentCodePage ∈ s.codePages
  expected : s.unexpected = false
  starts : s.history.starts.Nodup
  starts_visited : ∀ a ∈ s.history.starts, a ∈ s.visitedBlocks
  tailcalls : ∀ k ∈ s.history.tailcalls, k < s.decodedSize
  force_last : s.KeepsForce → ∀ b ∈ s.blocks, b.forceFullSMCDetection = true →
    b.first + b.numInstructions - 1 ∈ s.history.tailcalls

/-! ### Where a block is split -/

variable {target : ℕ}

theorem splitPoint_spec (buffer : ℕ → Inst) (first target num entry : ℕ)
    (htop : entry + instOffset buffer first num < word) :
    ∀ fuel idx, num ≤ fuel + idx → idx ≤ num →
      (idx = 0 ∨ entry + instOffset buffer first (idx - 1) < target) →
      ∃ i, splitPoint (fun i => (buffer (first + i)).instSize) target num fuel idx
          (entry + instOffset buffer first idx) = (i, entry + instOffset buffer first i) ∧
        idx ≤ i ∧ i ≤ num ∧ (i = num ∨ target ≤ entry + instOffset buffer first i) ∧
        (i = 0 ∨ entry + instOffset buffer first (i - 1) < target) := by
  intro fuel
  induction fuel with
  | zero =>
    intro idx hfl hle hpr
    exact ⟨idx, rfl, le_rfl, hle, .inl (by omega), hpr⟩
  | succ fuel ih =>
    intro idx hfl hle hpr
    unfold splitPoint
    split
    · rename_i hcn
      have hmn := instOffset_mono buffer first (Nat.succ_le_of_lt hcn.1)
      have hadd : wadd (entry + instOffset buffer first idx) (buffer (first + idx)).instSize =
          entry + instOffset buffer first (idx + 1) := by
        rw [instOffset] at hmn ⊢
        rw [wadd_eq (by omega)]
        omega
      rw [hadd]
      obtain ⟨i, heq, hi, hrs⟩ := ih (idx + 1) (by omega) hcn.1 (.inr (by simpa using hcn.2))
      exact ⟨i, heq, by omega, hrs⟩
    · rename_i hcn
      refine ⟨idx, rfl, le_rfl, hle, ?_, hpr⟩
      by_cases h : idx < num
      · exact .inr (not_lt.1 fun hlt => hcn ⟨h, hlt⟩)
      · exact .inl (by omega)

/-- A target strictly inside a block: the scan stops at the first boundary that is not below it. -/
theorem Block.splitPoint_spec {img : Image} {buffer : ℕ → Inst} {pages : List ℕ} {b : Block}
    (hwf : WfBlock img buffer pages b) (hlo : b.entry < target) (hhi : target < b.entry + b.size) :
    ∃ i, b.splitPoint buffer target = (i, b.entry + instOffset buffer b.first i) ∧ 0 < i ∧
      i ≤ b.numInstructions ∧
      (b.entry + instOffset buffer b.first i = target → i < b.numInstructions) ∧
      ∀ j < b.numInstructions, b.entry + instOffset buffer b.first j = target →
        b.entry + instOffset buffer b.first i = target := by
  have htop := hwf.top
  have hsz := hwf.size
  obtain ⟨i, heq, -, hle, hst, hpr⟩ := Frontend.splitPoint_spec buffer b.first target
    b.numInstructions b.entry (by omega) b.numInstructions 0 (by omega) (Nat.zero_le _) (.inl rfl)
  refine ⟨i, heq, ?_, hle, fun h => ?_, fun j hj h => ?_⟩
  · -- at index 0 the address is the entry, which is below the target
    rcases Nat.eq_zero_or_pos i with rfl | hpos
    · rcases hst with h0 | h0
      · rw [← h0] at hsz
        rw [hsz] at hhi
        simp only [instOffset] at hhi
        omega
      · simp only [instOffset] at h0
        omega
    · exact hpos
  · rcases Nat.lt_or_eq_of_le hle with hlt | rfl
    · exact hlt
    · omega
  · -- the scan does not pass a boundary at the target
    have hij : i ≤ j := by
      by_contra hji
      have := instOffset_mono buffer b.first (show j ≤ i - 1 by omega)
      omega
    have := instOffset_mono buffer b.first hij
    omega

section Split

variable {img : Image} {buffer : ℕ → Inst} {pages : List ℕ} {b : Block} {i : ℕ}

section

variable (hwf : WfBlock img buffer pages b) (hi : i ≤ b.numInstructions)
include hwf hi

theorem Block.front_eq : b.front i (b.entry + instOffset buffer b.first i) =
      { b with size := instOffset buffer b.first i, numInstructions := i } := by
  have hmn := instOffset_mono buffer b.first hi
  have htop := hwf.top
  have hsz := hwf.size
  unfold Block.front
  rw [wsub_eq (by unfold word at *; omega) (by omega), Nat.add_sub_cancel_left]

theorem Block.tail_size : (b.tail i (b.entry + instOffset buffer b.first i)).size =
      instOffset buffer (b.first + i) (b.numInstructions - i) := by
  have htop := hwf.top
  have hsz := hwf.size
  have hadd := instOffset_add buffer b.first i (b.numInstructions - i)
  rw [Nat.add_sub_cancel' hi] at hadd
  have h1 : wsub (b.entry + instOffset buffer b.first i) b.entry = instOffset buffer b.first i := by
    rw [wsub_eq (by unfold word at *; omega) (by omega), Nat.add_sub_cancel_left]
  have h2 : wsub b.size (instOffset buffer b.first i) = b.size - instOffset buffer b.first i :=
    wsub_eq (by unfold word at *; omega) (by omega)
  simp only [Block.tail, h1]
  omega

theorem WfBlock.front :
    WfBlock img buffer pages (b.front i (b.entry + instOffset buffer b.first i)) := by
  have hmn := instOffset_mono buffer b.first hi
  have htop := hwf.top
  have hsz := hwf.size
  rw [Block.front_eq hwf hi]
  exact ⟨fun j hj => hwf.decoded j (by simp only at hj; omega), rfl, by simp only; omega,
    fun j hj => hwf.pages j (by simp only at hj; omega)⟩

theorem WfBlock.tail :
    WfBlock img buffer pages (b.tail i (b.entry + instOffset buffer b.first i)) := by
  have htop := hwf.top
  have hsz := hwf.size
  have hadd := instOffset_add buffer b.first i (b.numInstructions - i)
  rw [Nat.add_sub_cancel' hi] at hadd
  have htl := Block.tail_size hwf hi
  -- the instruction `j` of the tail is the instruction `i + j` of the block
  have hoff : ∀ j, b.entry + instOffset buffer b.first i + instOffset buffer (b.first + i) j =
      b.entry + instOffset buffer b.first (i + j) := by
    intro j
    rw [instOffset_add, Nat.add_assoc]
  refine ⟨fun j hj => ?_, htl, ?_, fun j hj k hk => ?_⟩
  · have hd := hwf.decoded (i + j) (by simp only [Block.tail] at hj; omega)
    simp only [Block.tail]
    rw [hoff, Nat.add_assoc, hd]
  · rw [htl]
    simp only [Block.tail]
    omega
  · have hp := hwf.pages (i + j) (by simp only [Block.tail] at hj; omega) k
      (by simpa only [Block.tail, Nat.add_assoc] using hk)
    simp only [Block.tail]
    rw [hoff]
    exact hp

end

theorem Block.holds_split (hi : i ≤ b.numInstructions) (addr k : ℕ) :
    b.Holds k ↔ (b.front i addr).Holds k ∨ (b.tail i addr).Holds k := by
  simp only [Block.Holds, Block.front, Block.tail]
  omega

end Split

/-! ### The blocks below and above an address -/

variable {blocks : List Block}

theorem entry_lt_of_mem_takeWhile {t : ℕ} {b : Block}
    (h : b ∈ blocks.takeWhile fun b => decide (b.entry < t)) : b.entry < t := by
  simpa using mem_takeWhile_imp h

theorem le_entry_of_mem_dropWhile {t : ℕ} (hsor : blocks.Pairwise Block.Before) {b : Block}
    (h : b ∈ blocks.dropWhile fun b => decide (b.entry < t)) : t ≤ b.entry := by
  induction blocks with
  | nil => simp at h
  | cons a blocks ih =>
    rw [pairwise_cons] at hsor
    by_cases ha : a.entry < t
    · rw [dropWhile_cons_of_pos (by simpa using ha)] at h
      exact ih hsor.2 h
    · rw [dropWhile_cons_of_neg (by simpa using ha)] at h
      rcases mem_cons.1 h with rfl | h
      · omega
      · have := (hsor.1 b h).1
        omega

theorem head_ne_of_forall_ne {a : ℕ} (h : ∀ b ∈ blocks, b.entry ≠ a) :
    (blocks.head?.any fun b => b.entry == a) = false := by
  cases blocks with
  | nil => rfl
  | cons b blocks => simpa using h b mem_cons_self

/-- The block before an address is the only one that can contain it. -/
theorem outside_of_last {t : ℕ} (hsor : blocks.Pairwise Block.Before)
    (hls : ∀ b, (blocks.takeWhile fun b => decide (b.entry < t)).getLast? = some b →
      b.entry + b.size ≤ t) : ∀ b ∈ blocks, t ≤ b.entry ∨ b.entry + b.size ≤ t := by
  intro b hb
  have hall := hsor
  rw [← takeWhile_append_dropWhile (p := (·.entry < t)) (l := blocks)] at hb hsor
  rcases mem_append.1 hb with hb | hb
  · right
    rw [pairwise_append] at hsor
    obtain ⟨l, a, hla⟩ : ∃ l a, (blocks.takeWhile fun b => decide (b.entry < t)) = l ++ [a] :=
      ⟨_, _, (dropLast_append_getLast (ne_nil_of_mem hb)).symm⟩
    have hend := hls a (by rw [hla]; simp)
    rw [hla] at hb hsor
    rcases mem_append.1 hb with hb | hb
    · have hba := (pairwise_append.1 hsor.1).2.2 b hb a (by simp)
      have ha : a.entry < t := entry_lt_of_mem_takeWhile (by rw [hla]; simp)
      exact hba.2.trans ha.le
    · obtain rfl : b = a := by simpa using hb
      exact hend
  · left
    exact le_entry_of_mem_dropWhile hall hb

/-! ### Branch targets -/

variable {after : List Block}

variable {before : List Block}

section Targets

variable {b : Block}

variable {img : Image} {limit : ℕ} {s : State}

/-- A target outside every block waits to be decoded. -/
theorem Inv.addPending (h : Inv img limit s) (inst : Inst) (hv : target ∉ s.visitedBlocks)
    (htop : target < word - 1)
    (hout : ∀ b ∈ s.blocks, target ≤ b.entry ∨ b.entry + b.size ≤ target) :
    Inv img limit (s.addPending inst target) ∧
      ((s.addPending inst target).KeepsForce ↔ s.KeepsForce ∧ ¬s.SplitsFlagged target) := by
  have hpn : ∀ t, (s.addPending inst target).Pending t → t = target ∨ s.Pending t := by
    intro t ht
    simp only [State.Pending, State.addPending, mem_cons, mem_filter] at ht
    unfold State.Pending
    tauto
  refine ⟨{ h with pending := fun t ht => ?_, outside := fun t ht => ?_ }, ?_⟩
  · rcases hpn t ht with rfl | ht
    · exact ⟨hv, htop⟩
    · exact h.pending t ht
  · rcases hpn t ht with rfl | ht
    · exact hout
    · exact h.outside t ht
  · refine (and_iff_left ?_).symm
    rintro ⟨-, b, hb, -, hlo, hhi, -⟩
    have := hout b hb
    omega

/-- The blocks around a split one. -/
theorem sorted_split {front tail : Block} (h : (before ++ b :: after).Pairwise Block.Before)
    (hf : front.entry = b.entry) (hft : front.Before tail) (htb : tail.entry < b.entry + b.size)
    (ht : tail.entry + tail.size = b.entry + b.size) :
    (before ++ front :: tail :: after).Pairwise Block.Before := by
  rw [pairwise_append, pairwise_cons] at h ⊢
  obtain ⟨hbef, ⟨hb, haft⟩, hcro⟩ := h
  obtain ⟨hft1, hft2⟩ := hft
  refine ⟨hbef, ⟨fun x hx => ?_, pairwise_cons.2 ⟨fun x hx => ?_, haft⟩⟩, fun x hx y hy => ?_⟩
  · rcases mem_cons.1 hx with rfl | hx
    · exact ⟨hft1, hft2⟩
    · have := hb x hx
      unfold Block.Before at *
      omega
  · have := hb x hx
    unfold Block.Before at *
    omega
  · have hxb := hcro x hx b mem_cons_self
    rcases mem_cons.1 hy with rfl | hy
    · unfold Block.Before at *
      omega
    · rcases mem_cons.1 hy with rfl | hy
      · unfold Block.Before at *
        omega
      · exact hcro x hx y (mem_cons_of_mem _ hy)

theorem forall_mem_split {P : Block → Prop} {front tail : Block}
    (h : ∀ x ∈ before ++ b :: after, P x) (hf : P front) (ht : P tail) :
    ∀ x ∈ before ++ front :: tail :: after, P x := by
  simp only [forall_mem_append, forall_mem_cons] at h ⊢
  exact ⟨h.1, hf, ht, h.2.2⟩

section

variable (h : Inv img limit s) (hblo : s.blocks = before ++ b :: after)
include h hblo

/-- No other block contains an address inside a block. -/
theorem Inv.eq_of_inside (hlo : b.entry < target) (hhi : target < b.entry + b.size) {x : Block}
    (hx : x ∈ s.blocks) (hxlo : x.entry < target) (hxhi : target < x.entry + x.size) : x = b := by
  have hsor := h.sorted
  rw [hblo, pairwise_append, pairwise_cons] at hsor
  rw [hblo] at hx
  rcases mem_append.1 hx with hx | hx
  · have := (hsor.2.2 x hx b mem_cons_self).2
    omega
  · rcases mem_cons.1 hx with hx | hx
    · exact hx
    · have := (hsor.2.1.1 x hx).2
      omega

/-- If the flags are right after a split, they were before, and the block had none: its jump is in
the tail now. -/
theorem Inv.force_of_split {i : ℕ} (hi : i < b.numInstructions) (hkee : ∀ k ∈ s.history.tailcalls,
      ∀ x ∈ before ++ b.front i target :: b.tail i target :: after,
        x.Holds k → x.forceFullSMCDetection = true) :
    s.KeepsForce ∧ b.forceFullSMCDetection = false := by
  have hb : b ∈ s.blocks := by simp [hblo]
  have hkp : s.KeepsForce := by
    intro k hk x hx hxk
    have hx' : x = b ∨ x ∈ before ++ b.front i target :: b.tail i target :: after := by
      rw [hblo] at hx
      simp only [mem_append, mem_cons] at hx ⊢
      tauto
    rcases hx' with rfl | hx
    · rcases (Block.holds_split hi.le target k).1 hxk with hf | ht
      · exact hkee k hk (x.front i target) (by simp) hf
      · exact absurd (hkee k hk (x.tail i target) (by simp) ht) Bool.false_ne_true
    · exact hkee k hk x hx hxk
  refine ⟨hkp, Bool.eq_false_iff.2 fun hfor => ?_⟩
  have hin : (b.tail i target).Holds (b.first + b.numInstructions - 1) := by
    simp only [Block.Holds, Block.tail]
    omega
  exact absurd (hkee _ (h.force_last hkp b hb hfor) (b.tail i target) (by simp) hin)
    Bool.false_ne_true

/-- A target inside a block splits it at an instruction boundary, or is left alone. -/
theorem Inv.splitBlock (hv : target ∉ s.visitedBlocks) (hlo : b.entry < target)
    (hhi : target < b.entry + b.size) :
    Inv img limit (s.splitBlock before b after target) ∧
      ((s.splitBlock before b after target).KeepsForce ↔
        s.KeepsForce ∧ ¬s.SplitsFlagged target) := by
  have hb : b ∈ s.blocks := by simp [hblo]
  have hwf := h.wf b hb
  obtain ⟨i, hpoi, hpos, hle, hlt, hbdy⟩ := Block.splitPoint_spec hwf hlo hhi
  have hne : (i == 0) = false := by simpa using hpos.ne'
  -- a pending target is not the one inside the block
  have hpn : ∀ t, s.Pending t → t ∉ target :: s.visitedBlocks ∧ t < word - 1 := by
    intro t ht
    refine ⟨fun hmem => ?_, (h.pending t ht).2⟩
    rcases mem_cons.1 hmem with rfl | hmem
    · have := h.outside t ht b hb
      omega
    · exact (h.pending t ht).1 hmem
  have hfla : s.SplitsFlagged target ↔ b.forceFullSMCDetection = true ∧
      b.entry + instOffset s.buffer b.first i = target := by
    constructor
    · rintro ⟨-, x, hx, hfor, hxlo, hxhi, j, hj, hjt⟩
      obtain rfl := h.eq_of_inside hblo hlo hhi hx hxlo hxhi
      exact ⟨hfor, hbdy j hj hjt⟩
    · rintro ⟨hfor, hspl⟩
      exact ⟨hv, b, hb, hfor, hlo, hhi, i, hlt hspl, hspl⟩
  rw [hfla]
  unfold State.splitBlock
  rw [hpoi]
  simp only
  by_cases hspl : b.entry + instOffset s.buffer b.first i = target
  · have hi := hlt hspl
    have hfwf := hwf.front hle
    have htwf := hwf.tail hle
    have hfeq := Block.front_eq hwf hle
    have hsz := hwf.size
    have htsi := Block.tail_size hwf hle
    have hadd := instOffset_add s.buffer b.first i (b.numInstructions - i)
    rw [Nat.add_sub_cancel' hle] at hadd
    have hhol := Block.holds_split hle target
    have hend := h.bound b hb
    have hfs : (b.front i target).size = instOffset s.buffer b.first i := by
      rw [hspl] at hfeq
      rw [hfeq]
    rw [hspl] at hfwf htwf htsi
    have hbef : (b.front i target).Before (b.tail i target) := by
      refine ⟨hlo, ?_⟩
      rw [hfs]
      exact hspl.le
    have hsor : (before ++ b.front i target :: b.tail i target :: after).Pairwise
        Block.Before := by
      have hold := h.sorted
      rw [hblo] at hold
      refine sorted_split hold rfl hbef hhi ?_
      rw [htsi]
      simp only [Block.tail]
      omega
    have hall : ∀ {P : Block → Prop}, (∀ x ∈ s.blocks, P x) → P (b.front i target) →
        P (b.tail i target) →
        ∀ x ∈ before ++ b.front i target :: b.tail i target :: after, P x := by
      rw [hblo]
      exact forall_mem_split
    rw [if_pos hspl, hne, Bool.or_false, hspl]
    refine
      ⟨{ wf := hall h.wf hfwf htwf
         num_pos := hall h.num_pos hpos (Nat.sub_pos_of_lt hi)
         bound := hall h.bound ?_ ?_
         sorted := hsor
         entries := hall (fun x hx => mem_cons_of_mem _ (h.entries x hx))
           (mem_cons_of_mem _ (h.entries b hb)) mem_cons_self
         pending := hpn
         outside := fun t ht => hall (h.outside t ht) ?_ ?_
         count := ?_
         total := h.total
         limit := h.limit
         page := h.page
         expected := h.expected
         starts := h.starts
         starts_visited := fun a ha => mem_cons_of_mem _ (h.starts_visited a ha)
         tailcalls := h.tailcalls
         force_last := fun hkee => ?_ }, fun hkee => ?_, fun ⟨hkp, hnot⟩ k hk => ?_⟩
    · simp only [Block.front]
      omega
    · simp only [Block.tail]
      omega
    · have hbt := h.outside t ht b hb
      rw [hfs]
      simp only [Block.front]
      omega
    · have hbt := h.outside t ht b hb
      rw [htsi]
      simp only [Block.tail]
      omega
    · have hcou := h.count
      rw [hblo] at hcou
      simp only [map_append, map_cons, sum_append, sum_cons] at hcou ⊢
      simp only [Block.front, Block.tail]
      omega
    · obtain ⟨hkp, hfor⟩ := h.force_of_split hblo hi hkee
      exact hall (h.force_last hkp) (fun hx => absurd hx (Bool.eq_false_iff.1 hfor)) nofun
    · obtain ⟨hkp, hfor⟩ := h.force_of_split hblo hi hkee
      exact ⟨hkp, fun hx => Bool.eq_false_iff.1 hfor hx.1⟩
    · refine hall (hkp k hk) (fun hx => hkp k hk b hb ((hhol k).2 (.inl hx))) fun hx => ?_
      exact absurd ⟨hkp k hk b hb ((hhol k).2 (.inr hx)), rfl⟩ hnot
  · rw [if_neg hspl, hne, Bool.or_false]
    exact ⟨{ h with
      entries := fun x hx => mem_cons_of_mem _ (h.entries x hx)
      pending := hpn
      starts_visited := fun a ha => mem_cons_of_mem _ (h.starts_visited a ha) },
      (and_iff_left fun hx => hspl hx.2).symm⟩

end

theorem Inv.addBranchTarget (h : Inv img limit s) (inst : Inst) (htop : target < word - 1) :
    Inv img limit (s.addBranchTarget inst target) ∧
      ((s.addBranchTarget inst target).KeepsForce ↔
        s.KeepsForce ∧ ¬s.SplitsFlagged target) := by
  unfold State.addBranchTarget
  split
  · rename_i hv
    exact ⟨h, (and_iff_left fun hx => hx.1 hv).symm⟩
  · rename_i hv
    set before := s.blocks.takeWhile fun b => decide (b.entry < target)
    set after := s.blocks.dropWhile fun b => decide (b.entry < target)
    have hspl : before ++ after = s.blocks := takeWhile_append_dropWhile
    -- a block that starts at the target would have been visited
    have hass : (after.head?.any fun b => b.entry == target) = false := by
      refine head_ne_of_forall_ne fun b hb heq => ?_
      have hmem : b ∈ s.blocks := by
        rw [← hspl]
        exact mem_append_right _ hb
      exact hv (heq ▸ h.entries b hmem)
    have hs : s.assertNot (after.head?.any fun b => b.entry == target) = s := by
      rw [hass]
      simp [State.assertNot]
    simp only [hs]
    split
    · rename_i b hls
      have hb : b ∈ before := mem_of_getLast? hls
      have hmem : b ∈ s.blocks := by
        rw [← hspl]
        exact mem_append_left _ hb
      have hwd : wadd b.entry b.size = b.entry + b.size := by
        have := (h.wf b hmem).top
        exact wadd_eq (by unfold word at *; omega)
      rw [hwd]
      split
      · rename_i hin
        refine h.splitBlock ?_ hv (entry_lt_of_mem_takeWhile hb) hin
        have hinit : before.dropLast ++ [b] = before := dropLast_append_getLast? b hls
        calc s.blocks = before ++ after := hspl.symm
          _ = (before.dropLast ++ [b]) ++ after := by rw [hinit]
          _ = before.dropLast ++ b :: after := by rw [append_assoc]; rfl
      · rename_i hout
        refine h.addPending inst hv htop (outside_of_last h.sorted fun b' hb' => ?_)
        obtain rfl : b = b' := Option.some.inj (hls.symm.trans hb')
        exact not_lt.1 hout
    · rename_i hnn
      refine h.addPending inst hv htop (outside_of_last h.sorted fun b' hb' => ?_)
      rw [hnn] at hb'
      cases hb'

end Targets

end FastPPC.Frontend
