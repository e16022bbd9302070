import FastPPC.Frontend.Blocks

/-!
# Whole multiblocks

The inner loop builds one block behind the blocks and targets that are already known, the outer loop
takes the pending targets in the order of their addresses.  Both keep the invariant of
`FastPPC.Frontend.Blocks`, and both end: a block that is kept uses up part of the instruction limit
and adds at most two targets.

* `Kept` : what the inner loop leaves of a block;
* `LoopInv.decodeBlock` : one round of the outer loop;
* `branchCalls` : the calls of `AddBranchTarget` in a run;
* `decodeInstructionsAtEntry_wellFormed` : the result of decoding.
-/

namespace FastPPC.Frontend

variable {buffer : ℕ → Inst}

open State List

variable {entryBlock : Bool} {stop : Stop} {o : Options} {img : Image} {pc limit rip : ℕ}
  {s : State} {t : Scan}

/-- The addresses that decoding from `pc` can come to: what follows an instruction, and the target
of a branch. -/
inductive Image.Reached (img : Image) (o : Options) (pc : ℕ) : ℕ → Prop
  | entry : Reached img o pc pc
  | next {a : ℕ} (h : Reached img o pc a) :
      Reached img o pc (wadd a (img.decode a).inst.instSize)
  | target {a : ℕ} (h : Reached img o pc a)
      (hvalid : validMultiblockMember o pc (img.decode a).inst = true) :
      Reached img o pc (targetRIP o (img.decode a).inst)

/-- No relocation is bad, and no code reaches the end of the address space. -/
structure Image.Plain (img : Image) (o : Options) (pc : ℕ) : Prop where
  relocations : ∀ a, img.Reached o pc a → (img.decode a).hitBadRelocation = false
  top : ∀ a, img.Reached o pc a → 0 < (img.decode a).inst.instSize →
    a + (img.decode a).inst.instSize < word - 1

/-- What a block under construction leaves of the state before it. -/
structure Frame (s : State) (t : Scan) : Prop where
  below : ∀ k, k < s.decodedSize → t.buffer k = s.buffer k
  pages : ∀ p ∈ s.codePages, p ∈ t.codePages
  page : t.currentCodePage ∈ t.codePages

/-- The block under construction at `rip`. -/
structure Kept (o : Options) (img : Image) (pc limit : ℕ) (s : State) (rip : ℕ) (t : Scan) : Prop
    extends Frame s t where
  wf : WfBlock img t.buffer t.codePages t.block
  entry : t.block.entry = rip
  first : t.block.first = s.decodedSize
  size : t.decodedSize = s.decodedSize + t.block.numInstructions
  total : t.totalInstructions = t.decodedSize
  next : rip + t.block.size ≤ s.nextBlockStartAddress
  limit : t.decodedSize ≤ min limit decodedBufferSize
  reached : ∀ i, i ≤ t.block.numInstructions →
    img.Reached o pc (rip + instOffset t.buffer t.block.first i)

/-- What an erased block leaves. -/
structure Erased (s : State) (t : Scan) : Prop extends Frame s t where
  size : t.decodedSize = s.decodedSize
  total : t.totalInstructions = s.decodedSize

theorem WfBlock.congr {buffer' : ℕ → Inst} {pages pages' : List ℕ} {b : Block}
    (h : WfBlock img buffer pages b)
    (hbuf : ∀ i, i < b.numInstructions → buffer' (b.first + i) = buffer (b.first + i))
    (hpag : ∀ p ∈ pages, p ∈ pages') : WfBlock img buffer' pages' b := by
  have hoff : ∀ i, i ≤ b.numInstructions →
      instOffset buffer' b.first i = instOffset buffer b.first i := by
    intro i hi
    exact instOffset_congr fun j hj => hbuf j (by omega)
  refine ⟨fun i hi => ?_, ?_, h.top, fun i hi k hk => ?_⟩
  · rw [hbuf i hi, hoff i hi.le]
    exact h.decoded i hi
  · rw [hoff _ le_rfl]
    exact h.size
  · rw [hoff i hi.le]
    rw [hbuf i hi] at hk
    exact hpag _ (h.pages i hi k hk)

section Scan

section

variable (h : Kept o img pc limit s rip t)
include h

theorem Kept.erased (h0 : t.block.numInstructions = 0) : Erased s t := by
  have hsz := h.size
  rw [h0] at hsz
  exact ⟨h.toFrame, hsz, h.total.trans hsz⟩

theorem Kept.touch (p : ℕ) :
    Kept o img pc limit s rip (t.touch p) ∧ p ∈ (t.touch p).codePages := by
  unfold Scan.touch
  split
  · rename_i heq
    exact ⟨h, heq ▸ h.page⟩
  · exact ⟨{ h with
      wf := h.wf.congr (fun _ _ => rfl) fun q hq => mem_cons_of_mem _ hq
      pages := fun q hq => mem_cons_of_mem _ (h.pages q hq)
      page := mem_cons_self }, mem_cons_self⟩

theorem Kept.record (d : Decoded) : Kept o img pc limit s rip (t.record d) := by
  have hsz := h.size
  have hfir := h.first
  have hbuf : ∀ i, i < t.block.numInstructions →
      (t.record d).buffer (t.block.first + i) = t.buffer (t.block.first + i) := by
    intro i hi
    exact Function.update_of_ne (by omega) _ _
  have hwf : WfBlock img (t.record d).buffer t.codePages t.block :=
    h.wf.congr hbuf fun _ hp => hp
  exact { h with
    wf := ⟨hwf.decoded, hwf.size, hwf.top, hwf.pages⟩
    below := fun k hk => by
      rw [← h.below k hk]
      exact Function.update_of_ne (by omega) _ _
    reached := fun i hi => by
      have hoff := instOffset_congr fun j (hj : j < i) => hbuf j (hj.trans_le hi)
      exact hoff ▸ h.reached i hi }

/-- The address behind the block. -/
theorem Kept.reached_next : img.Reached o pc (rip + t.block.size) := by
  rw [h.wf.size]
  exact h.reached _ le_rfl

/-- The last instruction of a block ends where the block does. -/
theorem Kept.last (hpos : 0 < t.block.numInstructions) :
    ∃ a, img.Reached o pc a ∧ t.decodeInst = (img.decode a).inst ∧
      a + t.decodeInst.instSize = rip + t.block.size := by
  obtain ⟨n, hn⟩ := Nat.exists_eq_add_of_lt hpos
  have hidx : t.decodedSize - 1 = t.block.first + n := by
    have := h.size
    have := h.first
    omega
  have hsz := h.wf.size
  rw [show t.block.numInstructions = n + 1 by omega, instOffset] at hsz
  refine ⟨rip + instOffset t.buffer t.block.first n, h.reached n (by omega), ?_, ?_⟩
  · rw [Scan.decodeInst, hidx, h.wf.decoded n (by omega), h.entry]
  · rw [Scan.decodeInst, hidx, hsz, Nat.add_assoc]

end

/-- The instruction behind the block is added to it. -/
theorem Kept.append (hpla : img.Plain o pc) (h : Kept o img pc limit s rip t)
    (hlt : t.decodedSize < min limit decodedBufferSize) {a : ℕ} (ha : a = rip + t.block.size)
    (hbuf : t.buffer t.decodedSize = (img.decode a).inst)
    (hnx : a + (img.decode a).inst.instSize ≤ s.nextBlockStartAddress)
    (hpag : ∀ k, k < (img.decode a).inst.instSize → pageOf (a + k) ∈ t.codePages) :
    Kept o img pc limit s rip (t.append (img.decode a).inst) := by
  have htop := h.wf.top
  have hsz := h.size
  have hfir := h.first
  have hent := h.entry
  have hre : img.Reached o pc a := ha ▸ h.reached_next
  have hoff : instOffset t.buffer t.block.first (t.block.numInstructions + 1) =
      t.block.size + (img.decode a).inst.instSize := by
    rw [instOffset, ← h.wf.size, hfir, ← hsz, hbuf]
  have hrm : rip + t.block.size + (img.decode a).inst.instSize < word - 1 := by
    rcases Nat.eq_zero_or_pos (img.decode a).inst.instSize with h0 | hpos
    · rw [h0, ← hent]
      exact htop
    · have := hpla.top a hre hpos
      omega
  have hwd : wadd t.block.size (img.decode a).inst.instSize =
      t.block.size + (img.decode a).inst.instSize := by
    refine wadd_eq ?_
    omega
  unfold Scan.append
  rw [hwd]
  refine
    { wf := ⟨fun i hi => ?_, hoff.symm, by simp only [hent]; omega, fun i hi k hk => ?_⟩
      entry := hent
      first := hfir
      size := by simp only; omega
      total := by simp [h.total]
      next := by simp only; omega
      toFrame := { h with }
      limit := by simp only; omega
      reached := fun i hi => ?_ }
  · simp only at hi ⊢
    rcases Nat.lt_succ_iff_lt_or_eq.1 hi with hi | rfl
    · exact h.wf.decoded i hi
    · rw [← h.wf.size, hent, ← ha, hfir, ← hsz, hbuf]
  · simp only at hi hk ⊢
    rcases Nat.lt_succ_iff_lt_or_eq.1 hi with hi | rfl
    · exact h.wf.pages i hi k hk
    · rw [hfir, ← hsz, hbuf] at hk
      rw [← h.wf.size, hent, ← ha]
      exact hpag k hk
  · simp only at hi ⊢
    rcases Nat.le_succ_iff.1 hi with hi | rfl
    · exact h.reached i hi
    · rw [hoff, ← Nat.add_assoc, ← ha, ← wadd_eq (by unfold word at *; omega)]
      exact hre.next

/-- How the inner loop can end. -/
inductive Ends (o : Options) (img : Image) (pc limit : ℕ) (s : State) (rip : ℕ)
    (entryBlock : Bool) (t : Scan) : Stop → Prop
  | erase (h : Erased s t) : Ends o img pc limit s rip entryBlock t .erase
  | plain (h : Kept o img pc limit s rip t) (hpos : 0 < t.block.numInstructions)
      (hroom : t.decodedSize < min limit decodedBufferSize ∨ entryBlock = true) :
      Ends o img pc limit s rip entryBlock t .plain
  | final (h : Kept o img pc limit s rip t) (hpos : 0 < t.block.numInstructions) :
      Ends o img pc limit s rip entryBlock t .final
  | branch (h : Kept o img pc limit s rip t) (hpos : 0 < t.block.numInstructions)
      (hroom : t.decodedSize < min limit decodedBufferSize) :
      Ends o img pc limit s rip entryBlock t .branch

theorem Ends.ne_badRelocation (h : Ends o img pc limit s rip entryBlock t stop) :
    stop ≠ .badRelocation := by
  cases h <;> exact nofun

/-- A block that ends before the next instruction is erased if it is empty. -/
theorem Kept.ending (h : Kept o img pc limit s rip t)
    (hlt : t.decodedSize < min limit decodedBufferSize) (entryBlock : Bool) :
    Ends o img pc limit s rip entryBlock t t.ending := by
  unfold Scan.ending
  split
  · rename_i h0
    exact .erase (h.erased h0)
  · rename_i h0
    exact .plain h (Nat.pos_of_ne_zero h0) (.inl hlt)

/-- What a turn of the inner loop does to the block: it goes on one instruction longer, or ends. -/
def Turn (o : Options) (img : Image) (pc limit : ℕ) (s : State) (rip : ℕ) (entryBlock : Bool)
    (size : ℕ) : Scan × Option Stop → Prop
  | (t, some stop) => Ends o img pc limit s rip entryBlock t stop
  | (t, none) => Kept o img pc limit s rip t ∧ t.decodedSize = size + 1 ∧
    t.decodedSize < min limit decodedBufferSize

theorem scanAdded_spec (entryBlock : Bool) {d : Decoded} {size : ℕ}
    (hd : d.status ≠ .badRelocation) (h : Kept o img pc limit s rip t)
    (hpos : 0 < t.block.numInstructions) (hsz : t.decodedSize = size + 1) :
    Turn o img pc limit s rip entryBlock size
      (scanAdded o img entryBlock limit s.nextBlockStartAddress s.decodedSize d t) := by
  unfold scanAdded
  split
  · split
    · have hsz := h.size
      have htot := h.total
      exact .erase ⟨{ h with }, rfl, by simp only [Scan.undo]; omega⟩
    · rename_i hent
      have hent : entryBlock = true := by simpa [hd] using hent
      exact .plain h hpos (.inr hent)
  · split
    · exact .final h hpos
    · rename_i hrm
      have hlt : t.decodedSize < min limit decodedBufferSize := by
        simp only [not_or, not_le] at hrm
        exact lt_min hrm.1 hrm.2.1
      split
      · exact ⟨h, hsz, hlt⟩
      · split
        · exact .branch { h with wf := ⟨h.wf.decoded, h.wf.size, h.wf.top, h.wf.pages⟩ } hpos hlt
        · exact .plain h hpos (.inl hlt)

/-- The bytes of an instruction lie in the page of the first and the page of the longest possible
last one. -/
theorem pageOf_mem {a k : ℕ} (hk : k < maxInstSize) (htop : a + k < word) :
    pageOf (a + k) = pageOf a ∨ pageOf (a + k) = pageOf (wadd a maxInstSize) := by
  unfold pageOf wadd maxInstSize guestPageSize word at *
  omega

theorem scanOne_spec (hpla : img.Plain o pc) (entryBlock : Bool) (h : Kept o img pc limit s rip t)
    (hlt : t.decodedSize < min limit decodedBufferSize) :
    Turn o img pc limit s rip entryBlock t.decodedSize
      (scanOne o img entryBlock limit s.nextBlockStartAddress s.decodedSize t) := by
  have htop := h.wf.top
  have ha : wadd t.block.entry t.block.size = rip + t.block.size := by
    rw [h.entry] at htop ⊢
    exact wadd_eq (by unfold word at *; omega)
  have hre := h.reached_next
  unfold scanOne
  rw [ha]
  simp only
  split
  · exact h.ending hlt entryBlock
  · generalize hdef : rip + t.block.size = a at hre
    obtain ⟨h1, hp1⟩ := h.touch (pageOf a)
    obtain ⟨h2, hp2⟩ := h1.touch (pageOf (wadd a maxInstSize))
    have h3 := h2.record (img.decode a)
    -- the page recorded first is still there
    have hp1' :
        pageOf a ∈ ((t.touch (pageOf a)).touch (pageOf (wadd a maxInstSize))).codePages := by
      generalize t.touch (pageOf a) = u at *
      unfold Scan.touch
      split
      · exact hp1
      · exact mem_cons_of_mem _ hp1
    have hds : ((t.touch (pageOf a)).touch (pageOf (wadd a maxInstSize))).decodedSize =
        t.decodedSize := by
      unfold Scan.touch
      split <;> split <;> rfl
    have hblo : ((t.touch (pageOf a)).touch (pageOf (wadd a maxInstSize))).block = t.block := by
      unfold Scan.touch
      split <;> split <;> rfl
    generalize (t.touch (pageOf a)).touch (pageOf (wadd a maxInstSize)) = u at *
    have hlt' : (u.record (img.decode a)).decodedSize < min limit decodedBufferSize := by
      simp [Scan.record, hds, hlt]
    unfold scanDecoded
    rw [hpla.relocations a hre]
    simp only [Bool.false_eq_true, if_false, img.pc_eq]
    split
    · exact h3.ending hlt' entryBlock
    · rename_i hnx
      have hsta : (img.decode a).status ≠ .badRelocation := by
        intro hbad
        have := img.hit_of_status a hbad
        rw [hpla.relocations a hre] at this
        cases this
      have hend : wadd a (img.decode a).inst.instSize = a + (img.decode a).inst.instSize := by
        refine wadd_eq ?_
        rcases Nat.eq_zero_or_pos (img.decode a).inst.instSize with h0 | hpos
        · rw [h.entry] at htop
          omega
        · have := hpla.top a hre hpos
          unfold word at *
          omega
      rw [hend] at hnx
      have h4 := h3.append hpla hlt' (a := a) (by simp [Scan.record, hblo, hdef])
        (by simp [Scan.record]) (not_lt.1 hnx) fun k hk => ?_
      · refine scanAdded_spec entryBlock hsta h4 (Nat.succ_pos _) ?_
        simp [Scan.append, Scan.record, hds]
      · have hle := img.size_le a
        have hpos : 0 < (img.decode a).inst.instSize := by omega
        have htop := hpla.top a hre hpos
        rcases pageOf_mem (a := a) (lt_of_lt_of_le hk hle) (by unfold word at *; omega) with
          heq | heq
        · rw [heq]
          exact hp1'
        · rw [heq]
          exact hp2

theorem scan_spec (hpla : img.Plain o pc) (entryBlock : Bool) (fuel : ℕ)
    (h : Kept o img pc limit s rip t) (hlt : t.decodedSize < min limit decodedBufferSize)
    (hfl : min limit decodedBufferSize ≤ fuel + t.decodedSize) :
    Ends o img pc limit s rip entryBlock
      (scan o img entryBlock limit s.nextBlockStartAddress s.decodedSize fuel t).1
      (scan o img entryBlock limit s.nextBlockStartAddress s.decodedSize fuel t).2 := by
  induction fuel generalizing t with
  | zero => omega
  | succ fuel ih =>
    have htr := scanOne_spec hpla entryBlock h hlt
    unfold scan
    split
    · rename_i t' stop heq
      rw [heq] at htr
      exact htr
    · rename_i t' heq
      rw [heq] at htr
      obtain ⟨h', hsz, hlt'⟩ := htr
      exact ih h' hlt' (by omega)

end Scan

/-! ### The targets of a branch -/

/-- The targets a branch hands to `AddBranchTarget`. -/
def branchTargets (o : Options) (cheapTier writable : Bool) (entryPoint : ℕ) (inst : Inst) :
    List ℕ :=
  let valid := if validMultiblockMember o entryPoint inst then [targetRIP o inst] else []
  if !o.multiblock || cheapTier then []
  else if inst.call then
    if writable && o.monoHacksActive then [] else [wadd inst.pc inst.instSize]
  else
    match branchKind inst with
    | none => []
    | some true => wadd inst.pc inst.instSize :: valid
    | some false => valid

def State.addBranchTargets (inst : Inst) : State → List ℕ → State :=
  foldl fun s target => s.addBranchTarget inst target

/-- The calls of `AddBranchTarget` for the targets: the state before each, and its target. -/
def State.targetCalls (inst : Inst) : State → List ℕ → List (State × ℕ)
  | _, [] => []
  | s, target :: targets => (s, target) :: targetCalls inst (s.addBranchTarget inst target) targets

section

variable (cheapTier writable : Bool) (inst : Inst)

theorem branchTarget_eq (s : State) (o : Options) (entryPoint : ℕ) :
    s.branchTargetInMultiblockRange o cheapTier writable entryPoint inst =
      { s.addBranchTargets inst (branchTargets o cheapTier writable entryPoint inst) with
        entryPoints :=
          (s.branchTargetInMultiblockRange o cheapTier writable entryPoint inst).entryPoints } := by
  unfold branchTargetInMultiblockRange branchTargets
  split
  · rfl
  · split
    · split <;> rfl
    · unfold addValidTarget
      cases validMultiblockMember o entryPoint inst <;>
        rcases branchKind inst with _ | _ | _ <;> rfl

theorem mem_branchTargets {target entryPoint : ℕ}
    (h : target ∈ branchTargets o cheapTier writable entryPoint inst) :
    target = wadd inst.pc inst.instSize ∨
      (validMultiblockMember o entryPoint inst = true ∧ target = targetRIP o inst) := by
  unfold branchTargets at h
  grind

theorem length_branchTargets (o : Options) (entryPoint : ℕ) :
    (branchTargets o cheapTier writable entryPoint inst).length ≤ 2 := by
  unfold branchTargets
  grind

end

/-- What branch targets leave alone, and what they add. -/
structure Adds (targets : List ℕ) (s s' : State) : Prop where
  toDecode : s'.blocksToDecode = s.blocksToDecode
  decodedSize : s'.decodedSize = s.decodedSize
  starts : s'.history.starts = s.history.starts
  length : s'.currentBlockTargets.length ≤ s.currentBlockTargets.length + targets.length
  mem : ∀ t ∈ s'.currentBlockTargets, t ∈ s.currentBlockTargets ∨ t ∈ targets

theorem addBranchTarget_adds (s : State) (inst : Inst) (target : ℕ) :
    Adds [target] s (s.addBranchTarget inst target) := by
  have hrf : Adds [target] s s := ⟨rfl, rfl, rfl, Nat.le_add_right _ _, fun _ ht => .inl ht⟩
  have hpn : ∀ b, Adds [target] s ((s.assertNot b).addPending inst target) := by
    intro b
    have hlen := length_filter_le (· ≠ target) s.currentBlockTargets
    refine ⟨rfl, rfl, rfl, by simpa [addPending, assertNot] using hlen, fun t ht => ?_⟩
    rcases mem_cons.1 ht with rfl | ht
    · exact .inr mem_cons_self
    · exact .inl (mem_of_mem_filter ht)
  unfold addBranchTarget
  split
  · exact hrf
  · simp only
    split
    · split
      · exact { hrf with }
      · exact hpn _
    · exact hpn _

theorem addBranchTargets_adds (inst : Inst) : ∀ (targets : List ℕ) (s : State),
    Adds targets s (s.addBranchTargets inst targets)
  | [], _ => ⟨rfl, rfl, rfl, le_rfl, fun _ ht => .inl ht⟩
  | target :: targets, s => by
    have h₁ := addBranchTarget_adds s inst target
    have h₂ := addBranchTargets_adds inst targets (s.addBranchTarget inst target)
    refine ⟨h₂.toDecode.trans h₁.toDecode, h₂.decodedSize.trans h₁.decodedSize,
      h₂.starts.trans h₁.starts, ?_, fun t ht => ?_⟩
    · have hle := h₁.length
      have hle' := h₂.length
      rw [length_singleton] at hle
      rw [length_cons]
      exact hle'.trans (by omega)
    · rcases h₂.mem t ht with ht | ht
      · exact (h₁.mem t ht).imp id fun ht => mem_cons.2 (.inl (mem_singleton.1 ht))
      · exact .inr (mem_cons_of_mem _ ht)

theorem Inv.addBranchTargets (inst : Inst) : ∀ (targets : List ℕ) {s : State}, Inv img limit s →
    (∀ target ∈ targets, target < word - 1) →
    Inv img limit (s.addBranchTargets inst targets) ∧
      ((s.addBranchTargets inst targets).KeepsForce ↔
        s.KeepsForce ∧ ∀ c ∈ s.targetCalls inst targets, ¬c.1.SplitsFlagged c.2)
  | [], _, h, _ => ⟨h, (and_iff_left (forall_mem_nil _)).symm⟩
  | target :: targets, s, h, htop => by
    obtain ⟨htar, hrs⟩ := forall_mem_cons.1 htop
    obtain ⟨h₁, hkp₁⟩ := h.addBranchTarget inst htar
    obtain ⟨h₂, hkp₂⟩ := Inv.addBranchTargets inst targets h₁ hrs
    refine ⟨h₂, hkp₂.trans ?_⟩
    rw [hkp₁, targetCalls, forall_mem_cons, and_assoc]

/-! ### One round of the outer loop -/

section Round

variable {after : List Block}

structure LoopInv (o : Options) (img : Image) (pc limit : ℕ) (entryBlock : Bool) (s : State) :
    Prop where
  inv : Inv img limit s
  targets : s.currentBlockTargets = []
  room : s.blocksToDecode ≠ [] → s.decodedSize < min limit decodedBufferSize
  entry : entryBlock = true → s.blocksToDecode.length ≤ 1
  reached : ∀ t ∈ s.blocksToDecode, img.Reached o pc t
  /-- A kept block adds at most two targets and at least one instruction. -/
  rounds : s.history.starts.length + s.blocksToDecode.length ≤ 1 + 2 * s.decodedSize

theorem le_nextStart (toDecode : List ℕ) (haft : after.Pairwise Block.Before) :
    (∀ t ∈ toDecode, nextStart toDecode after ≤ t) ∧
      ∀ b ∈ after, nextStart toDecode after ≤ b.entry := by
  unfold nextStart
  refine ⟨fun t ht => ?_, fun b hb => ?_⟩
  · obtain ⟨m, hm⟩ : ∃ m, toDecode.min? = some m :=
      Option.ne_none_iff_exists'.1 fun h => ne_nil_of_mem ht (min?_eq_none_iff.1 h)
    rw [hm]
    exact (min_le_left _ _).trans ((min?_eq_some_iff.1 hm).2 t ht)
  · cases after with
    | nil => cases hb
    | cons a after =>
      refine (min_le_right _ _).trans ?_
      simp only [head?_cons, Option.map_some]
      rcases mem_cons.1 hb with rfl | hb
      · exact le_rfl
      · exact ((pairwise_cons.1 haft).1 b hb).1.le

theorem lt_nextStart {toDecode : List ℕ} (htop : rip < word - 1) (hpn : ∀ t ∈ toDecode, rip < t)
    (haft : ∀ b ∈ after, rip < b.entry) : rip < nextStart toDecode after := by
  unfold nextStart
  refine lt_min ?_ ?_
  · cases hm : toDecode.min? with
    | none => exact htop
    | some m => exact hpn m (min?_eq_some_iff.1 hm).1
  · cases after with
    | nil => exact htop
    | cons a after => exact haft a mem_cons_self

structure Entered (img : Image) (limit : ℕ) (s : State) (rip : ℕ) : Prop where
  inv : Inv img limit s
  targets : s.currentBlockTargets = []
  visited : rip ∈ s.visitedBlocks
  room : s.decodedSize < min limit decodedBufferSize
  top : rip < word - 1
  lt_next : rip < s.nextBlockStartAddress
  below : ∀ b ∈ s.blocks, b.entry < rip → b.entry + b.size ≤ rip
  above : ∀ b ∈ s.blocks, rip ≤ b.entry → rip < b.entry ∧ s.nextBlockStartAddress ≤ b.entry
  pending : ∀ a ∈ s.blocksToDecode, s.nextBlockStartAddress ≤ a

theorem Inv.pop (h : Inv img limit s) (hcur : s.currentBlockTargets = [])
    (hrip : rip ∈ s.blocksToDecode) : Inv img limit (s.pop rip) := by
  have hnot := (h.pending rip (.inl hrip)).1
  have hpn : ∀ t, (s.pop rip).Pending t → s.Pending t ∧ t ≠ rip := by
    intro t ht
    rcases ht with ht | ht
    · obtain ⟨hmem, hne⟩ := mem_filter.1 ht
      exact ⟨.inl hmem, by simpa using hne⟩
    · have : t ∈ s.currentBlockTargets := ht
      rw [hcur] at this
      cases this
  exact { h with
    entries := fun b hb => mem_cons_of_mem _ (h.entries b hb)
    pending := fun t ht => by
      obtain ⟨ht, hne⟩ := hpn t ht
      obtain ⟨hv, htop⟩ := h.pending t ht
      exact ⟨fun hmem => (mem_cons.1 hmem).elim hne hv, htop⟩
    outside := fun t ht => h.outside t (hpn t ht).1
    starts := nodup_cons.2 ⟨fun hmem => hnot (h.starts_visited rip hmem), h.starts⟩
    starts_visited := fun a ha => by
      rcases mem_cons.1 ha with rfl | ha
      · exact mem_cons_self
      · exact mem_cons_of_mem _ (h.starts_visited a ha) }

/-- The lowest pending address is popped, and no assertion fails. -/
theorem LoopInv.enter (h : LoopInv o img pc limit entryBlock s)
    (hmin : s.blocksToDecode.min? = some rip) : Entered img limit (s.enter rip) rip := by
  obtain ⟨hmem, hle⟩ := min?_eq_some_iff.1 hmin
  obtain ⟨hnv, htop⟩ := h.inv.pending rip (.inl hmem)
  have hots := h.inv.outside rip (.inl hmem)
  set after := s.blocks.dropWhile fun b => decide (b.entry < rip)
  set rest := s.blocksToDecode.filter (· ≠ rip)
  have hpn : ∀ t ∈ rest, rip < t := by
    intro t ht
    obtain ⟨ht, hne⟩ := mem_filter.1 ht
    exact lt_of_le_of_ne (hle t ht) (by simpa using Ne.symm (by simpa using hne))
  have hgt : ∀ b ∈ s.blocks, rip ≤ b.entry → rip < b.entry := by
    intro b hb hle
    refine lt_of_le_of_ne hle ?_
    rintro rfl
    exact hnv (h.inv.entries b hb)
  have hsub : after <:+ s.blocks := dropWhile_suffix _
  have haft : ∀ b ∈ after, rip < b.entry := fun b hb =>
    hgt b (hsub.subset hb) (le_entry_of_mem_dropWhile h.inv.sorted hb)
  have hlt := lt_nextStart htop hpn haft
  obtain ⟨hnxt, hnex⟩ := le_nextStart rest (h.inv.sorted.sublist hsub.sublist)
  have hass : s.enter rip = { s.pop rip with nextBlockStartAddress := nextStart rest after } := by
    have hfa : ((after.head?.any fun b => b.entry == rip) ||
        decide (nextStart rest after ≤ rip)) = false := by
      rw [head_ne_of_forall_ne fun b hb => (haft b hb).ne', Bool.false_or,
        decide_eq_false (not_le.2 hlt)]
    change { (s.pop rip).assertNot ((after.head?.any fun b => b.entry == rip) ||
      decide (nextStart rest after ≤ rip)) with nextBlockStartAddress := nextStart rest after } = _
    rw [hfa, assertNot, Bool.or_false]
  rw [hass]
  refine ⟨{ h.inv.pop h.targets hmem with }, h.targets, mem_cons_self,
    h.room (ne_nil_of_mem hmem), htop, hlt, fun b hb hbr => ?_, fun b hb hbr => ⟨hgt b hb hbr, ?_⟩,
    hnxt⟩
  · exact (hots b hb).resolve_left (by omega)
  · refine hnex b ?_
    have hspl := takeWhile_append_dropWhile (p := (·.entry < rip)) (l := s.blocks)
    have hb' : b ∈ s.blocks := hb
    rw [← hspl] at hb'
    refine (mem_append.1 hb').resolve_left fun hbt => ?_
    have := entry_lt_of_mem_takeWhile hbt
    omega

section

variable (h : Inv img limit s)
include h

/-- A well-formed block stays so when only later entries of the buffer change. -/
theorem Inv.wf_below {pages : List ℕ} (hbel : ∀ k, k < s.decodedSize → buffer k = s.buffer k)
    (hpag : ∀ p ∈ s.codePages, p ∈ pages) {b : Block} (hb : b ∈ s.blocks) :
    WfBlock img buffer pages b := by
  have hbou := h.bound b hb
  exact (h.wf b hb).congr (fun i hi => hbel _ (by omega)) hpag

/-- A block that the inner loop erases. -/
theorem Inv.erase (ht : Erased s t) : Inv img limit (s.ofScan t s.blocks) := by
  have hsz := ht.size
  exact { h with
    wf := fun b hb => h.wf_below ht.below ht.pages hb
    bound := fun b hb => (h.bound b hb).trans hsz.ge
    count := hsz.trans h.count
    total := ht.total.trans hsz.symm
    limit := hsz.trans_le h.limit
    page := ht.page
    tailcalls := fun k hk => (h.tailcalls k hk).trans_le hsz.ge }

theorem Inv.mergeTargets : Inv img limit s.mergeTargets := by
  have hpn : ∀ t, s.mergeTargets.Pending t → s.Pending t := by
    intro t ht
    simp only [Pending, State.mergeTargets, mem_append, mem_filter] at ht
    unfold Pending
    tauto
  exact { h with
    pending := fun t ht => h.pending t (hpn t ht)
    outside := fun t ht => h.outside t (hpn t ht) }

/-- The targets of the last instruction of a block. -/
theorem Inv.branchTarget (o : Options) (cheapTier writable : Bool) (entryPoint : ℕ) (inst : Inst)
    (hend : inst.pc + inst.instSize < word - 1) :
    Inv img limit (s.branchTargetInMultiblockRange o cheapTier writable entryPoint inst) ∧
      ((s.branchTargetInMultiblockRange o cheapTier writable entryPoint inst).KeepsForce ↔
        s.KeepsForce ∧ ∀ c ∈ s.targetCalls inst
          (branchTargets o cheapTier writable entryPoint inst), ¬c.1.SplitsFlagged c.2) := by
  have hwd : wadd inst.pc inst.instSize = inst.pc + inst.instSize :=
    wadd_eq (by unfold word at *; omega)
  have htop : ∀ target ∈ branchTargets o cheapTier writable entryPoint inst, target < word - 1 := by
    intro target ht
    rcases mem_branchTargets _ _ _ ht with rfl | ⟨hval, rfl⟩
    · rw [hwd]
      exact hend
    · simp only [validMultiblockMember, Bool.and_eq_true, decide_eq_true_eq] at hval
      have := o.section_lt
      omega
  obtain ⟨hinv, hkp⟩ := Inv.addBranchTargets inst _ h htop
  rw [branchTarget_eq]
  exact ⟨{ hinv with }, hkp⟩

end

theorem mem_keepBlock {x : Block} : x ∈ (s.keepBlock t).blocks ↔ x = t.block ∨ x ∈ s.blocks := by
  conv_rhs => rw [← takeWhile_append_dropWhile (p := (·.entry < t.block.entry)) (l := s.blocks)]
  simp only [keepBlock, ofScan, insertBlock, mem_append, mem_cons]
  tauto

theorem mem_tailcalls_keepBlock {k : ℕ} : k ∈ (s.keepBlock t).history.tailcalls ↔
      (t.block.forceFullSMCDetection = true ∧ k = t.decodedSize - 1) ∨
        k ∈ s.history.tailcalls := by
  simp only [keepBlock]
  split
  · rename_i hf
    simp [hf]
  · rename_i hf
    simp [hf]

theorem Inv.keepsForce_keepBlock (h : Inv img limit s) (ht : Kept o img pc limit s rip t)
    (hpos : 0 < t.block.numInstructions) : (s.keepBlock t).KeepsForce ↔ s.KeepsForce := by
  have hsz := ht.size
  have hfir := ht.first
  simp only [KeepsForce, mem_tailcalls_keepBlock, mem_keepBlock]
  constructor
  · intro hkee k hk x hx hxk
    exact hkee k (.inr hk) x (.inr hx) hxk
  · rintro hkee k (⟨hfor, rfl⟩ | hk) x (rfl | hx) hxk
    · exact hfor
    · have := h.bound x hx
      have := hxk.2
      omega
    · have := hxk.1
      have := h.tailcalls k hk
      omega
    · exact hkee k hk x hx hxk

/-- A block that the inner loop keeps stands between the blocks before and behind it. -/
theorem Entered.keep (h : Entered img limit s rip) (ht : Kept o img pc limit s rip t)
    (hpos : 0 < t.block.numInstructions) :
    Inv img limit (s.keepBlock t) ∧ ((s.keepBlock t).KeepsForce ↔ s.KeepsForce) := by
  have hsz := ht.size
  have hfir := ht.first
  have hent := ht.entry
  have hnx := ht.next
  have hinv := h.inv
  obtain ⟨before, after, hblo, heq, hbef, haft⟩ : ∃ before after, s.blocks = before ++ after ∧
      (s.keepBlock t).blocks = before ++ t.block :: after ∧ (∀ b ∈ before, b.entry < rip) ∧
      ∀ b ∈ after, rip ≤ b.entry := by
    refine ⟨_, _, takeWhile_append_dropWhile.symm, rfl, fun b hb => ?_, fun b hb => ?_⟩
    · exact hent ▸ entry_lt_of_mem_takeWhile hb
    · exact hent ▸ le_entry_of_mem_dropWhile hinv.sorted hb
  have hall : ∀ {p : Block → Prop}, p t.block → (∀ x ∈ s.blocks, p x) →
      ∀ x ∈ (s.keepBlock t).blocks, p x := by
    intro p hp hrs x hx
    rcases mem_keepBlock.1 hx with rfl | hx
    · exact hp
    · exact hrs x hx
  have hkp := hinv.keepsForce_keepBlock ht hpos
  refine ⟨?_, hkp⟩
  refine
    { wf := hall ht.wf fun x hx => hinv.wf_below ht.below ht.pages hx
      num_pos := hall hpos hinv.num_pos
      bound := hall ?_ fun x hx => ?_
      sorted := ?_
      entries := hall (hent ▸ h.visited) hinv.entries
      pending := hinv.pending
      outside := fun a ha => hall ?_ (hinv.outside a ha)
      count := ?_
      total := ht.total
      limit := ht.limit
      page := ht.page
      expected := hinv.expected
      starts := hinv.starts
      starts_visited := hinv.starts_visited
      tailcalls := fun k hk => ?_
      force_last := fun hkee x hx hfor => ?_ }
  · simp only [keepBlock, ofScan]
    omega
  · have := hinv.bound x hx
    simp only [keepBlock, ofScan]
    omega
  · have hsor := hinv.sorted
    rw [hblo, pairwise_append] at hsor
    rw [heq, pairwise_append, pairwise_cons]
    refine ⟨hsor.1, ⟨fun x hx => ?_, hsor.2.1⟩, fun x hx y hy => ?_⟩
    · obtain ⟨h1, h2⟩ := h.above x (by simp [hblo, hx]) (haft x hx)
      unfold Block.Before
      omega
    · rcases mem_cons.1 hy with rfl | hy
      · have h1 := hbef x hx
        have h2 := h.below x (by simp [hblo, hx]) h1
        unfold Block.Before
        omega
      · exact hsor.2.2 x hx y hy
  · rcases ha with ha | ha
    · have := h.pending a ha
      omega
    · have : a ∈ s.currentBlockTargets := ha
      rw [h.targets] at this
      cases this
  · have hcou := hinv.count
    rw [hblo] at hcou
    rw [heq]
    simp only [keepBlock, ofScan, map_append, map_cons, sum_append, sum_cons] at hcou ⊢
    omega
  · simp only [keepBlock, ofScan]
    rcases mem_tailcalls_keepBlock.1 hk with ⟨-, rfl⟩ | hk
    · omega
    · have := hinv.tailcalls k hk
      omega
  · refine mem_tailcalls_keepBlock.2 ?_
    rcases mem_keepBlock.1 hx with rfl | hx
    · exact .inl ⟨hfor, by omega⟩
    · exact .inr (hinv.force_last (hkp.1 hkee) x hx hfor)

/-- The empty block at a popped address. -/
theorem Entered.new (h : Entered img limit s rip) (entryBlock : Bool)
    (hre : img.Reached o pc rip) :
    Kept o img pc limit s rip (s.toScan (s.newBlock rip entryBlock)) where
  wf := ⟨fun i hi => absurd hi (Nat.not_lt_zero i), rfl, h.top,
    fun i hi => absurd hi (Nat.not_lt_zero i)⟩
  entry := rfl
  first := rfl
  size := rfl
  total := h.inv.total
  next := h.lt_next.le
  below _ _ := rfl
  pages _ hp := hp
  page := h.inv.page
  limit := h.inv.limit
  reached i hi := by
    rw [Nat.le_zero.1 hi]
    exact hre

theorem mergeTargets_length (s : State) : s.mergeTargets.blocksToDecode.length ≤
      s.blocksToDecode.length + s.currentBlockTargets.length := by
  simp only [mergeTargets, length_append]
  exact Nat.add_le_add_left (length_filter_le _ _) _

/-- The calls of `AddBranchTarget` after the inner loop. -/
def State.finishCalls (s : State) (o : Options) (img : Image) (cheapTier : Bool)
    (entryPoint : ℕ) (t : Scan) : Stop → List (State × ℕ)
  | .branch =>
    (s.keepBlock t).targetCalls t.decodeInst
      (branchTargets o cheapTier (img.writable t.decodeInst.pc) entryPoint t.decodeInst)
  | _ => []

/-- What a round of the outer loop has done once the inner loop has stopped. -/
structure Finished (o : Options) (img : Image) (pc limit : ℕ) (s s' : State)
    (calls : List (State × ℕ)) (stop : Stop) : Prop where
  inv : Inv img limit s'
  targets : s'.currentBlockTargets = []
  starts : s'.history.starts = s.history.starts
  /-- A kept block adds at most two pending addresses. -/
  pending : s'.blocksToDecode.length + 2 * s.decodedSize ≤
    s.blocksToDecode.length + 2 * s'.decodedSize
  room : stop ≠ .final → s'.blocksToDecode ≠ [] → s'.decodedSize < min limit decodedBufferSize
  reached : ∀ t ∈ s'.blocksToDecode, t ∈ s.blocksToDecode ∨ img.Reached o pc t
  force : s'.KeepsForce ↔ s.KeepsForce ∧ ∀ c ∈ calls, ¬c.1.SplitsFlagged c.2

/-- The state after the inner loop, for each way it can end. -/
theorem Entered.finishBlock (h : Entered img limit s rip) (cheapTier : Bool)
    (hen : entryBlock = true → s.blocksToDecode = [])
    (ht : Ends o img pc limit s rip entryBlock t stop) :
    Finished o img pc limit s (s.finishBlock o img cheapTier pc t stop)
      (s.finishCalls o img cheapTier pc t stop) stop := by
  have hmer : (s.keepBlock t).mergeTargets.blocksToDecode = s.blocksToDecode := by
    simp [State.mergeTargets, keepBlock, ofScan, h.targets]
  -- a kept block without branch targets
  have hkp : Kept o img pc limit s rip t → 0 < t.block.numInstructions →
      (stop ≠ .final → s.blocksToDecode ≠ [] → t.decodedSize < min limit decodedBufferSize) →
      Finished o img pc limit s (s.keepBlock t).mergeTargets [] stop := by
    intro hk hpos hrm
    obtain ⟨hinv, hfor⟩ := h.keep hk hpos
    refine ⟨hinv.mergeTargets, rfl, rfl, ?_, fun hne hnil => hrm hne (hmer ▸ hnil),
      fun a ha => .inl (hmer ▸ ha), ?_⟩
    · have hsz := hk.size
      rw [hmer]
      simp only [State.mergeTargets, keepBlock, ofScan]
      omega
    · exact hfor.trans (and_iff_left (forall_mem_nil _)).symm
  cases ht with
  | erase ht =>
    refine ⟨h.inv.erase ht, h.targets, rfl, ?_, fun _ _ => ?_, fun a ha => .inl ha,
      (and_iff_left (forall_mem_nil _)).symm⟩
    · simp only [State.finishBlock, ofScan, ht.size]
      omega
    · simp only [State.finishBlock, ofScan, ht.size]
      exact h.room
  | plain hk hpos hor =>
    refine hkp hk hpos fun _ hne => hor.resolve_right fun hent => ?_
    exact hne (hen hent)
  | final hk hpos => exact hkp hk hpos fun hne => absurd rfl hne
  | branch hk hpos hlt =>
    have hsz := hk.size
    obtain ⟨a, hre, hins, hend⟩ := hk.last hpos
    have hpc : t.decodeInst.pc = a := by rw [hins, img.pc_eq]
    have htop := hk.wf.top
    rw [hk.entry] at htop
    obtain ⟨hinv, hfor⟩ := h.keep hk hpos
    simp only [State.finishBlock, finishCalls]
    -- the targets of the branch, after the block is in place
    have had := addBranchTargets_adds t.decodeInst
      (branchTargets o cheapTier (img.writable t.decodeInst.pc) pc t.decodeInst) (s.keepBlock t)
    have hlen := length_branchTargets cheapTier (img.writable t.decodeInst.pc) t.decodeInst o pc
    have hmem : ∀ b ∈ branchTargets o cheapTier (img.writable t.decodeInst.pc) pc t.decodeInst,
        img.Reached o pc b := by
      intro b hb
      rcases mem_branchTargets _ _ _ hb with rfl | ⟨hval, rfl⟩
      · rw [hpc, hins]
        exact hre.next
      · rw [hins] at hval ⊢
        exact hre.target hval
    obtain ⟨hnew, hcal⟩ := hinv.branchTarget o cheapTier (img.writable t.decodeInst.pc) pc
      t.decodeInst (by rw [hpc, hend]; exact htop)
    rw [branchTarget_eq] at hnew hcal ⊢
    generalize (s.keepBlock t).addBranchTargets t.decodeInst
      (branchTargets o cheapTier (img.writable t.decodeInst.pc) pc t.decodeInst) = u at *
    have hle := had.length
    have htd := had.toDecode
    have hml := mergeTargets_length u
    have hdec : u.decodedSize = t.decodedSize := had.decodedSize
    simp only [keepBlock, ofScan, h.targets, length_nil] at hle htd
    rw [htd] at hml
    refine ⟨hnew.mergeTargets, rfl, had.starts, ?_, fun _ _ => hdec.trans_lt hlt, fun b hb => ?_,
      hcal.trans (and_congr_left fun _ => hfor)⟩
    · change u.mergeTargets.blocksToDecode.length + _ ≤ _ + 2 * u.decodedSize
      omega
    · rcases mem_append.1 hb with hb | hb
      · exact .inl (htd ▸ hb)
      · refine .inr ?_
        rcases had.mem b (mem_of_mem_filter hb) with hb | hb
        · simp only [keepBlock, ofScan, h.targets] at hb
          cases hb
        · exact hmem b hb

/-- The calls of `AddBranchTarget` in a round of the outer loop. -/
def State.blockCalls (s : State) (o : Options) (img : Image) (cheapTier : Bool)
    (limit entryPoint : ℕ) (entryBlock : Bool) (rip : ℕ) : List (State × ℕ) :=
  let s := s.enter rip
  let r := s.scanBlock o img limit entryBlock rip
  s.finishCalls o img cheapTier entryPoint r.1 r.2

/-- **One round of the outer loop.** -/
theorem LoopInv.decodeBlock (hpla : img.Plain o pc) (h : LoopInv o img pc limit entryBlock s)
    (cheapTier : Bool) (hmin : s.blocksToDecode.min? = some rip) {s' : State}
    (hrou : s.decodeBlock o img cheapTier limit pc entryBlock rip = (s', stop)) :
    Inv img limit s' ∧ stop ≠ .badRelocation ∧
      (stop ≠ .final → LoopInv o img pc limit false s') ∧
      s'.history.starts.length = s.history.starts.length + 1 ∧
      (s'.KeepsForce ↔ s.KeepsForce ∧
        ∀ c ∈ s.blockCalls o img cheapTier limit pc entryBlock rip, ¬c.1.SplitsFlagged c.2) := by
  have hmem := (min?_eq_some_iff.1 hmin).1
  have hlen : (s.enter rip).blocksToDecode.length + 1 ≤ s.blocksToDecode.length :=
    length_filter_lt_length_iff_exists.2 ⟨rip, hmem, by simp⟩
  have hent : entryBlock = true → (s.enter rip).blocksToDecode = [] := by
    intro he
    have := h.entry he
    exact eq_nil_of_length_eq_zero (by omega)
  have hetr := h.enter hmin
  have hen := scan_spec hpla entryBlock (min limit decodedBufferSize + 1)
    (hetr.new entryBlock (h.reached rip hmem)) hetr.room (by omega)
  have hdn := hetr.finishBlock cheapTier hent hen
  cases hrou
  refine ⟨hdn.inv, hen.ne_badRelocation, fun hst => ?_, congrArg length hdn.starts, hdn.force⟩
  refine ⟨hdn.inv, hdn.targets, hdn.room hst, nofun, fun a ha => ?_, ?_⟩
  · exact (hdn.reached a ha).elim (fun ha => h.reached a (mem_of_mem_filter ha)) id
  · have hrd := h.rounds
    have hpn := hdn.pending
    have hst := congrArg length hdn.starts
    have hsz : (s.enter rip).decodedSize = s.decodedSize := rfl
    have hln : (s.enter rip).history.starts.length = s.history.starts.length + 1 := rfl
    simp only [scanBlock] at *
    omega

/-- The calls of `AddBranchTarget` in the outer loop. -/
def State.loopCalls (o : Options) (img : Image) (cheapTier : Bool) (limit entryPoint : ℕ) :
    ℕ → Bool → State → List (State × ℕ)
  | 0, _, _ => []
  | fuel + 1, entryBlock, s =>
    match s.blocksToDecode.min? with
    | none => []
    | some rip =>
      s.blockCalls o img cheapTier limit entryPoint entryBlock rip ++
        match s.decodeBlock o img cheapTier limit entryPoint entryBlock rip with
        | (_, .final) | (_, .badRelocation) => []
        | (s, _) => loopCalls o img cheapTier limit entryPoint fuel false s

theorem keepsForce_markEntryPoints (s : State) : s.markEntryPoints.KeepsForce ↔ s.KeepsForce :=
  forall₂_congr fun _ _ => forall_mem_map

/-- **The outer loop ends.**  Every round pops an address, and the popped and pending addresses are
bounded by the instructions. -/
theorem LoopInv.loop (hpla : img.Plain o pc) (cheapTier : Bool) :
    ∀ (fuel : ℕ) (entryBlock : Bool) (s : State), LoopInv o img pc limit entryBlock s →
      2 * min limit decodedBufferSize + 2 ≤ fuel + s.history.starts.length →
      ∃ s', loop o img cheapTier limit pc fuel entryBlock s = some s'.markEntryPoints ∧
        Inv img limit s' ∧ (s'.KeepsForce ↔ s.KeepsForce ∧
          ∀ c ∈ loopCalls o img cheapTier limit pc fuel entryBlock s, ¬c.1.SplitsFlagged c.2) := by
  intro fuel
  induction fuel with
  | zero =>
    intro entryBlock s h hfl
    have hrou := h.rounds
    have hlim := h.inv.limit
    omega
  | succ fuel ih =>
    intro entryBlock s h hfl
    unfold State.loop loopCalls
    cases hmin : s.blocksToDecode.min? with
    | none => exact ⟨s, rfl, h.inv, (and_iff_left (forall_mem_nil _)).symm⟩
    | some rip =>
      simp only
      cases hrou : s.decodeBlock o img cheapTier limit pc entryBlock rip with
      | mk s₁ stop =>
        obtain ⟨hinv, hbad, hnx, hsta, hkp⟩ := h.decodeBlock hpla cheapTier hmin hrou
        by_cases hfin : stop = .final
        · subst hfin
          exact ⟨s₁, rfl, hinv, by simpa using hkp⟩
        · obtain ⟨s', heq, hinv', hkp'⟩ := ih false s₁ (hnx hfin) (by omega)
          refine ⟨s', ?_, hinv', ?_⟩
          · cases stop <;> first | exact heq | exact absurd rfl hfin | exact absurd rfl hbad
          · rw [hkp', hkp, forall_mem_append, and_assoc]
            cases stop <;> first | rfl | exact absurd rfl hfin | exact absurd rfl hbad

theorem LoopInv.start (hpc : pc < word - 1) (hlim : 0 < limit) (buffer : ℕ → Inst) :
    LoopInv o img pc limit true (start pc buffer) where
  inv :=
    { wf := nofun
      num_pos := nofun
      bound := nofun
      sorted := List.Pairwise.nil
      entries := nofun
      pending := by
        rintro t (ht | ht)
        · rw [mem_singleton.1 ht]
          exact ⟨nofun, hpc⟩
        · cases ht
      outside := nofun
      count := rfl
      total := rfl
      limit := Nat.zero_le _
      page := mem_singleton_self _
      expected := rfl
      starts := nodup_nil
      starts_visited := nofun
      tailcalls := nofun
      force_last := nofun }
  targets := rfl
  room _ := lt_min hlim (show 0 < decodedBufferSize by decide)
  entry _ := le_rfl
  reached := forall_mem_singleton.2 .entry
  rounds := by simp [State.start]

/-! ### The decoded unit -/

/-- A well-formed compilation unit of at most `limit` instructions. -/
structure WellFormed (img : Image) (limit : ℕ) (s : State) : Prop where
  sorted : s.blocks.Pairwise Block.Before
  num_pos : ∀ b ∈ s.blocks, 0 < b.numInstructions
  tiled : ∀ b ∈ s.blocks, WfBlock img s.buffer s.codePages b
  starts : s.history.starts.Nodup
  expected : s.unexpected = false
  total : s.totalInstructions = (s.blocks.map Block.numInstructions).sum
  le_limit : s.totalInstructions ≤ limit
  le_buffer : s.totalInstructions ≤ decodedBufferSize

theorem Inv.wellFormed_markEntryPoints (h : Inv img limit s) :
    WellFormed img limit s.markEntryPoints where
  sorted := pairwise_map.2 h.sorted
  num_pos := forall_mem_map.2 h.num_pos
  tiled := forall_mem_map.2 fun b hb =>
    ⟨(h.wf b hb).decoded, (h.wf b hb).size, (h.wf b hb).top, (h.wf b hb).pages⟩
  starts := h.starts
  expected := h.expected
  total := by
    rw [markEntryPoints, map_map]
    exact h.total.trans h.count
  le_limit := h.total.trans_le (h.limit.trans (min_le_left _ _))
  le_buffer := h.total.trans_le (h.limit.trans (min_le_right _ _))

theorem instLimit_le (o : Options) (pc maxInst : ℕ) :
    instLimit o pc maxInst ≤ if maxInst = 0 then o.maxInstPerBlock else maxInst := by
  unfold instLimit
  split
  · exact min_le_left _ _
  · exact le_rfl

/-- The calls of `AddBranchTarget` in `DecodeInstructionsAtEntry`. -/
def branchCalls (o : Options) (img : Image) (buffer : ℕ → Inst) (pc maxInst fuel : ℕ) :
    List (State × ℕ) :=
  loopCalls o img (cheapTierBlock o pc maxInst) (instLimit o pc maxInst) pc fuel true
    (start pc buffer)

/-- **The decoder returns a well-formed unit.**  A block that holds a Mono tail-call jump keeps
`ForceFullSMCDetection` exactly if no branch target splits a block that has it: the tail of a split
block gets the default. -/
theorem decodeInstructionsAtEntry_wellFormed (o : Options) (img : Image) (buffer : ℕ → Inst)
    (pc maxInst fuel : ℕ) (hplain : img.Plain o pc) (hpc : pc < word - 1)
    (hlimit : 0 < instLimit o pc maxInst)
    (hfuel : 2 * min (instLimit o pc maxInst) decodedBufferSize + 2 ≤ fuel) :
    ∃ s, decodeInstructionsAtEntry o img buffer pc maxInst fuel = some s ∧
      WellFormed img (if maxInst = 0 then o.maxInstPerBlock else maxInst) s ∧
      (s.KeepsForce ↔
        ∀ c ∈ branchCalls o img buffer pc maxInst fuel, ¬c.1.SplitsFlagged c.2) := by
  have hsta : LoopInv o img pc (instLimit o pc maxInst) true (start pc buffer) :=
    LoopInv.start hpc hlimit buffer
  obtain ⟨s, heq, hinv, hkp⟩ := hsta.loop hplain (cheapTierBlock o pc maxInst) fuel true _
    (by simpa [start] using hfuel)
  have hwf := hinv.wellFormed_markEntryPoints
  refine ⟨s.markEntryPoints, heq, { hwf with le_limit := ?_ }, ?_⟩
  · exact hwf.le_limit.trans (instLimit_le o pc maxInst)
  · rw [keepsForce_markEntryPoints, hkp]
    exact and_iff_right nofun

/-! ### A tail call that is split off -/

/-- An instruction without operands, or a relative jump. -/
def plainInst (pc instSize op literal : ℕ) (setsRIP : Bool) : Inst where
  pc := pc
  instSize := instSize
  op := op
  opRaw := op
  modRM := 0
  literal := literal
  src0GPR := none
  src1Literal := none
  destGPR := none
  rexPrefix := false
  rexWidening := false
  rexXGPRB := false
  rexXGPRX := false
  rexXGPRR := false
  call := false
  setsRIP := setsRIP
  blockEnd := false

/-- `leave; jmp 0x1010` at `0x1000`, and at `0x1010` a jump back to the `jmp`. -/
def tailcallCode (a : ℕ) : Decoded :=
  if a = 0x1000 then ⟨.success, false, plainInst a 1 0xC9 0 false⟩
  else if a = 0x1001 then ⟨.success, false, plainInst a 5 0xE9 0xA true⟩
  else if a = 0x1010 then ⟨.success, false, plainInst a 2 0xEB (word - 0x11) true⟩
  else ⟨.invalidInst, false, plainInst a 0 0 0 false⟩

/-- What holds of the four cases of `tailcallCode` holds of it. -/
theorem tailcallCode_cases {P : ℕ → Decoded → Prop} (h1 : P 0x1000 (tailcallCode 0x1000))
    (h2 : P 0x1001 (tailcallCode 0x1001)) (h3 : P 0x1010 (tailcallCode 0x1010))
    (h4 : ∀ a, P a ⟨.invalidInst, false, plainInst a 0 0 0 false⟩) (a : ℕ) :
    P a (tailcallCode a) := by
  by_cases e1 : a = 0x1000
  · exact e1 ▸ h1
  by_cases e2 : a = 0x1001
  · exact e2 ▸ h2
  by_cases e3 : a = 0x1010
  · exact e3 ▸ h3
  have heq : tailcallCode a = ⟨.invalidInst, false, plainInst a 0 0 0 false⟩ := by
    simp [tailcallCode, e1, e2, e3]
  exact heq ▸ h4 a

def tailcallImage : Image where
  decode := tailcallCode
  nullBytes _ := false
  writable _ := true
  pc_eq := tailcallCode_cases (P := fun a d => d.inst.pc = a) rfl rfl rfl fun _ => rfl
  size_le := tailcallCode_cases (P := fun _ d => d.inst.instSize ≤ maxInstSize)
    (by decide) (by decide) (by decide) fun _ => Nat.zero_le _
  size_pos := tailcallCode_cases (P := fun _ d => d.status = .success → 0 < d.inst.instSize)
    (by decide) (by decide) (by decide) fun _ => nofun
  hit_of_status := tailcallCode_cases
    (P := fun _ d => d.status = .badRelocation → d.hitBadRelocation = true)
    (by decide) (by decide) (by decide) fun _ => nofun

theorem tailcallImage_plain (o : Options) (pc : ℕ) : tailcallImage.Plain o pc where
  relocations a _ := tailcallCode_cases (P := fun _ d => d.hitBadRelocation = false) rfl rfl rfl
    (fun _ => rfl) a
  top a _ := tailcallCode_cases
    (P := fun a d => 0 < d.inst.instSize → a + d.inst.instSize < word - 1)
    (by decide) (by decide) (by decide) (fun _ => nofun) a

/-- A 32-bit guest that runs Mono. -/
def monoOptions : Options where
  multiblock := true
  monoHacksActive := true
  is64Bit := false
  maxInstPerBlock := 10
  shouldUseCheapTier _ := false
  smcCheapTierMaxInst := 0
  sectionMaxAddress := 0x2000
  section_lt := by decide

theorem decodeInstructionsAtEntry_wellFormed_tailcallImage :
    ∃ s, decodeInstructionsAtEntry monoOptions tailcallImage (fun a => plainInst a 0 0 0 false)
        0x1000 0 22 = some s ∧
      WellFormed tailcallImage 10 s ∧ (s.KeepsForce ↔ ∀ c ∈ branchCalls monoOptions tailcallImage
        (fun a => plainInst a 0 0 0 false) 0x1000 0 22, ¬c.1.SplitsFlagged c.2) :=
  decodeInstructionsAtEntry_wellFormed monoOptions tailcallImage _ 0x1000 0 22
    (tailcallImage_plain _ _) (by decide) (by decide) (by decide)

/-- The jump at `0x1010` splits the block of the tail call between `leave` and `jmp`, and the block
that now holds the tail call has lost `ForceFullSMCDetection`. -/
theorem decodeInstructionsAtEntry_loses_force :
    ∃ s, decodeInstructionsAtEntry monoOptions tailcallImage (fun a => plainInst a 0 0 0 false)
        0x1000 0 22 = some s ∧
      s.blocks.map (fun b => (b.entry, b.size, b.forceFullSMCDetection)) =
        [(0x1000, 1, true), (0x1001, 5, false), (0x1010, 2, false)] ∧
      s.history.tailcalls = [1] ∧ ¬s.KeepsForce := by
  have hrun : ((decodeInstructionsAtEntry monoOptions tailcallImage
      (fun a => plainInst a 0 0 0 false) 0x1000 0 22).any fun s =>
      decide (s.blocks.map (fun b => (b.entry, b.size, b.forceFullSMCDetection)) =
        [(0x1000, 1, true), (0x1001, 5, false), (0x1010, 2, false)]) &&
      decide (s.history.tailcalls = [1]) &&
      s.blocks.any fun b => decide (b.first = 1) && decide (b.numInstructions = 1) &&
        !b.forceFullSMCDetection) = true := by
    decide +kernel
  obtain ⟨s, hs, hpr⟩ := (Option.any_eq_true _ _).1 hrun
  simp only [Bool.and_eq_true, decide_eq_true_eq, any_eq_true, Bool.not_eq_true'] at hpr
  obtain ⟨⟨hblo, htl⟩, b, hb, ⟨hfir, hnum⟩, hfor⟩ := hpr
  refine ⟨s, hs, hblo, htl, fun hkee => ?_⟩
  have hhol : b.Holds 1 := ⟨by omega, by omega⟩
  have hkp := hkee 1 (by rw [htl]; exact mem_singleton_self 1) b hb hhol
  rw [hfor] at hkp
  cases hkp

end Round

end FastPPC.Frontend
