import FastPPC.Ra.MergeDiv
import FastPPC.Ra.MergeStack

/-!
# What a merge preserves

The code that `TryPostRAMerge` leaves is compared with the two operations it was given, in a state
of the registers and with any memory.

* `Aligned` : what a merge asks of the registers that the two operations name;
* `Regular` : what it asks of the numbers in them;
* `Fused.same`, `Fused.not_same`, `Fused.misaligned` : the kinds of merge, one by one;
* `merge_meaning` : **both conditions are necessary and sufficient.**
-/

namespace FastPPC.Ra

open State List

open Ppc (Storage)

variable {C : Type}

/-! ### The conditions -/

variable (cfg : Config C) (last code : Op C)

/-- The code of a merge leaves every register and the memory as the two operations do.  Where a
division leaves a number undefined, the two operations may leave the same one. -/
def Fusion.Same (s : State C) (f : Fusion C) : Prop :=
  ∀ u, ∃ u', s.execAll cfg u (f.apply last) = s.execAll cfg u' [last, code]

/-- What a merge asks of the registers that are named. -/
def Fusion.Aligned : Fusion C → Prop
  | .pushTwo _ _ _ _ addr => addr = cfg.rsp
  | .popTwo _ addr lastValue _ => lastValue ≠ addr
  | .shortDiv _ size lower divisor quotient remainder dropLast =>
    (dropLast = true → (lower = remainder ↔ divisor = remainder)) ∧
      (size = .i64Bit → quotient ≠ lower ∧ quotient ≠ divisor)
  | .constants _ => True
  | .killMove _ =>
    match last, code with
    | .bfe _ _ _, .bin _ size dst src1 src2 =>
      -- no bit above the word can be set in the result
      size = .i32Bit ∨ low32 (src1.bits dst &&& src2.bits dst) = src1.bits dst &&& src2.bits dst
    | _, _ => True

/-- What a merge asks of the numbers in the registers. -/
def Fusion.Regular (last : Op C) (s : State C) : Fusion C → Prop
  | .pushTwo _ valueSize _ _ addr => PushesAdjacent cfg valueSize (s.gpr addr)
  | .popTwo size addr _ _ => PopsAdjacent cfg size (s.gpr addr)
  | .shortDiv signed size lower divisor _ _ _ => DivFits cfg last signed size lower divisor s
  | .constants _ => True
  | .killMove _ => True

/-- What `TryPostRAMerge` leaves does what the two operations do. -/
def Same (s : State C) : Prop :=
  ∀ u, ∃ u', s.execAll cfg u (merged cfg last code) = s.execAll cfg u' [last, code]

def Aligned : Prop :=
  ∀ f, tryPostRAMerge cfg last code = some f → f.Aligned cfg last code

def Regular (s : State C) : Prop :=
  ∀ f, tryPostRAMerge cfg last code = some f → f.Regular cfg last s

/-! ### The merges -/

section Merges

variable {cfg : Config C} {last code : Op C} {f : Fusion C} {s : State C}

/-- Constants in the place of a function with constant results. -/
theorem exec_xgetbv (u : Undefined) {function outEAX outEDX : Reg} {value : BitVec 64}
    {r : BitVec 32 × BitVec 32} (hr : cfg.cpuid.constantXCRFunction (value.setWidth 32) = some r) :
    s.execAll cfg u [.constant function value false, .constant outEAX (r.1.setWidth 64) false,
        .constant outEDX (r.2.setWidth 64) false] =
      s.execAll cfg u [.constant function value false, .xgetbv function outEAX outEDX] := by
  have hrun := cfg.cpuid.runXCRFunction_constant _ r hr s.ctx
  simp only [execAll, foldl_cons, exec, gpr_setGpr_self]
  rw [show (s.setGpr function value).ctx = s.ctx from rfl, hrun]

theorem exec_cpuid (u : Undefined) {function leaf outEAX outEBX outECX outEDX : Reg}
    {value : BitVec 64} {r : BitVec 32 × BitVec 32 × BitVec 32 × BitVec 32}
    (hr : cfg.cpuid.constantFunction (value.setWidth 32) = some r) :
    s.execAll cfg u [.constant function value false, .fence,
        .constant outEAX (r.1.setWidth 64) false, .constant outEBX (r.2.1.setWidth 64) false,
        .constant outECX (r.2.2.1.setWidth 64) false,
        .constant outEDX (r.2.2.2.setWidth 64) false] =
      s.execAll cfg u [.constant function value false,
        .cpuid function leaf outEAX outEBX outECX outEDX] := by
  have hrun := cfg.cpuid.runFunction_constant _ r hr s.ctx
  simp only [execAll, foldl_cons, exec, gpr_setGpr_self]
  rw [show (s.setGpr function value).ctx = s.ctx from rfl, hrun]

section

variable (h : Fused cfg last code f)
include h

/-- **A merge with both conditions.** -/
theorem Fused.same (ha : f.Aligned cfg last code) (hr : f.Regular cfg last s) :
    f.Same cfg last code s := by
  intro u
  cases h with
  | pushTwo hval hval' hsz => exact ⟨u, push_push ha hval hval' hsz hr⟩
  | popTwo hsz => exact ⟨u, pop_pop ha hr⟩
  | shortDiv hsz hds hls =>
    obtain ⟨hdr, hq⟩ := ha
    rename_i upper divisor quotient remainder
    by_cases hupp : upper = remainder
    · subst hupp
      simp only [decide_true]
      exact div_dropped hsz hds hls hq (hdr (by simp)) hr u
    · simp only [hupp]
      exact div_kept hsz hds hls hq hr u
  | xgetbv hcon => exact ⟨u, exec_xgetbv u hcon⟩
  | cpuid hcon => exact ⟨u, exec_cpuid u hcon⟩
  | store hds => exact ⟨u, exec_substArgs hds⟩
  | word hlsb hwid hop =>
    refine ⟨u, ?_⟩
    obtain rfl | hbt := ha
    · exact exec_word _ hlsb hwid _ _
    · obtain rfl | rfl := hop
      · exact exec_and_of_bits _ hlsb hwid hbt
      · exact exec_word _ hlsb hwid _ _

/-- **A merge in a state that is not regular** shows in some memory. -/
theorem Fused.not_same (ha : f.Aligned cfg last code) (hr : ¬f.Regular cfg last s) :
    ∃ mem, ¬f.Same cfg last code { s with mem := mem } := by
  cases h with
  | pushTwo hval hval' hsz =>
    obtain ⟨mem, hne⟩ := push_push_apart ha hval hval' hsz hr
    refine ⟨mem, fun hsm => ?_⟩
    obtain ⟨u', hu'⟩ := hsm (.const 0 0 0)
    exact hne _ u' hu'
  | popTwo hsz =>
    obtain ⟨mem, hne⟩ := pop_pop_apart ha hr
    refine ⟨mem, fun hsm => ?_⟩
    obtain ⟨u', hu'⟩ := hsm (.const 0 0 0)
    exact hne _ u' hu'
  | shortDiv hsz hds hls =>
    refine ⟨s.mem, fun hsm => ?_⟩
    obtain ⟨u', hu'⟩ := hsm (.const 0 0 0)
    exact div_overflow hsz hds hls ha.2 (fun h => ha.1 (decide_eq_true h)) hr u' hu'
  | _ => exact absurd trivial hr

/-- **A merge of operations that are not aligned** goes wrong in a regular state. -/
theorem Fused.misaligned [Inhabited C] (ha : ¬f.Aligned cfg last code) :
    ∃ s, f.Regular cfg last s ∧ ¬f.Same cfg last code s := by
  cases h with
  | pushTwo hval hval' hsz =>
    refine ⟨⟨fun _ => 0, fun _ => 0, default⟩, pushesAdjacent_zero _, fun hsm => ?_⟩
    obtain ⟨u', hu'⟩ := hsm (.const 0 0 0)
    exact push_push_other ha hval hu'
  | @popTwo size addr value value' hsz =>
    obtain rfl : value' = addr := not_not.1 ha
    refine ⟨⟨fun _ => 0, fun x => if x = BitVec.ofNat 64 size.bytes then 1 else 0, default⟩,
      popsAdjacent_zero _, fun hsm => ?_⟩
    obtain ⟨u', hu'⟩ := hsm (.const 0 0 0)
    exact pop_pop_alias default _ u' hu'
  | @shortDiv last signed size lower upper divisor quotient remainder hsz hds hls =>
    by_cases hq : size = .i64Bit → quotient ≠ lower ∧ quotient ≠ divisor
    · -- the extension is dropped, and one operand was to be read from its register
      obtain ⟨hdr, hr⟩ := Classical.not_imp.1 fun hr => ha ⟨hr, hq⟩
      obtain rfl := of_decide_eq_true hdr
      obtain ⟨s, hft, hne⟩ := div_operand_alias hsz hds hls hq hr (fun _ => 0) default
      refine ⟨s, hft, fun hsm => ?_⟩
      obtain ⟨u', hu'⟩ := hsm (.const 0 0 0)
      simp only [decide_true] at hu'
      exact hne _ u' hu'
    · obtain ⟨rfl, hnot⟩ := Classical.not_imp.1 hq
      have hali : quotient = lower ∨ quotient = divisor := by
        rwa [not_and_or, not_not, not_not] at hnot
      obtain ⟨hft, hne⟩ := div_quotient_alias hds hls hali (fun _ => 0) default
        (decide (upper = remainder))
      refine ⟨_, hft, fun hsm => ?_⟩
      obtain ⟨u', hu'⟩ := hsm (.const 2 2 2)
      exact hne u' hu'
  | word hlsb hwid hop =>
    obtain ⟨hsz, hbt⟩ := not_or.1 ha
    obtain rfl := hop.resolve_right hsz
    refine ⟨⟨fun _ => BitVec.allOnes 128, fun _ => 0, default⟩, trivial, fun hsm => ?_⟩
    obtain ⟨u', hu'⟩ := hsm (.const 0 0 0)
    exact exec_and_ne hsz hlsb hwid hbt _ _ (.const 0 0 0) u' hu'
  | _ => exact absurd trivial ha

/-- The memory does not matter to the second condition. -/
theorem Fused.regular_mem (mem : Storage) (hr : f.Regular cfg last s) :
    f.Regular cfg last { s with mem := mem } := by
  cases h with
  | shortDiv hsz hds hls =>
    obtain ⟨g, hex, -⟩ := exec_isExtension cfg hsz hds hls
    intro u
    have hft := hr u
    rw [hex] at hft ⊢
    exact hft
  | _ => exact hr

end

end Merges

/-! ### All pairs -/

section

variable {cfg : Config C} {last code : Op C} {f : Fusion C}

theorem same_of_none (h : tryPostRAMerge cfg last code = none) (s : State C) :
    Same cfg last code s := fun u => ⟨u, by rw [merged, h]⟩

variable (h : tryPostRAMerge cfg last code = some f)
include h

theorem same_iff (s : State C) : Same cfg last code s ↔ f.Same cfg last code s := by
  unfold Same Fusion.Same merged
  rw [h]

theorem aligned_iff : Aligned cfg last code ↔ f.Aligned cfg last code := by
  unfold Aligned
  rw [h]
  simp

theorem regular_iff (s : State C) : Regular cfg last code s ↔ f.Regular cfg last s := by
  unfold Regular
  rw [h]
  simp

end

/-- **What a merge preserves.**  For every pair of operations, the code left by the merge does what
the two operations do in every regular state if and only if they are aligned; and aligned operations
are merged rightly in a state of the registers, whatever is in the memory, if and only if the state
is regular. -/
theorem merge_meaning [Inhabited C] (cfg : Config C) (last code : Op C) :
    ((∀ s, Regular cfg last code s → Same cfg last code s) ↔ Aligned cfg last code) ∧
      (Aligned cfg last code → ∀ s : State C,
        (∀ mem, Same cfg last code { s with mem := mem }) ↔ Regular cfg last code s) := by
  rcases h : tryPostRAMerge cfg last code with - | f
  · -- nothing was merged
    have hali : Aligned cfg last code := fun f hf => by rw [h] at hf; cases hf
    have hreg : ∀ s, Regular cfg last code s := fun s f hf => by rw [h] at hf; cases hf
    exact ⟨iff_of_true (fun s _ => same_of_none h s) hali,
      fun _ s => iff_of_true (fun mem => same_of_none h _) (hreg s)⟩
  · have hfus := fused_of_tryPostRAMerge h
    rw [aligned_iff h]
    simp only [same_iff h, regular_iff h]
    refine ⟨⟨fun hall => ?_, fun ha s hr => hfus.same ha hr⟩, fun ha s => ⟨fun hall => ?_, ?_⟩⟩
    · by_contra ha
      obtain ⟨s, hr, hne⟩ := hfus.misaligned ha
      exact hne (hall s hr)
    · by_contra hr
      obtain ⟨mem, hne⟩ := hfus.not_same ha hr
      exact hne (hall mem)
    · intro hr mem
      exact hfus.same ha (hfus.regular_mem mem hr)

/-- A configuration without constant functions. -/
def plainConfig (is64BitMode : Bool) : Config Unit where
  is64BitMode := is64BitMode
  rsp := 4
  cpuid :=
    { runFunction := fun _ _ _ => (0, 0, 0, 0)
      constantFunction := fun _ => none
      runFunction_constant := nofun
      runXCRFunction := fun _ _ => (0, 0)
      constantXCRFunction := fun _ => none
      runXCRFunction_constant := nofun }

/-- Two pushes in 32-bit mode with the stack pointer at 4, and a 32-bit move before a 64-bit `And`
of two other registers. -/
theorem merge_changes_meaning :
    ¬Same (plainConfig false) (.push .i32Bit .i32Bit 4 0 4) (.push .i32Bit .i32Bit 4 1 4)
        ⟨fun r => if r = 4 then 4 else 1, fun _ => 0, ()⟩ ∧
      ¬Same (plainConfig true) (.bfe ⟨.i64Bit, 32, 0, by decide⟩ 0 1)
        (.bin .and .i64Bit 0 (.reg 2) (.reg 3)) ⟨fun _ => BitVec.allOnes 128, fun _ => 0, ()⟩ := by
  refine ⟨fun hsm => ?_, fun hsm => ?_⟩
  · -- the first push writes address 0, the pair writes `2 ^ 32` in its place
    obtain ⟨u', hu'⟩ := hsm (.const 0 0 0)
    rw [show merged (plainConfig false) (.push .i32Bit .i32Bit 4 0 4)
      (.push .i32Bit .i32Bit 4 1 4) = [.pushTwo .i32Bit .i32Bit 1 0 4] by
        simp [merged, tryPostRAMerge, Fusion.apply, OpSize.atLeast32],
      exec_push_push (by decide)] at hu'
    have hby := congrFun (congrArg mem hu') 0
    exact absurd hby (by decide)
  · obtain ⟨u', hu'⟩ := hsm (.const 0 0 0)
    rw [show merged (plainConfig true) (.bfe ⟨.i64Bit, 32, 0, by decide⟩ 0 1)
      (.bin .and .i64Bit 0 (.reg 2) (.reg 3)) = [.bin .and .i32Bit 0 (.reg 2) (.reg 3)] by
        simp [merged, tryPostRAMerge, mergeMove, Op.dest, killMove, Op.substArgs, Arg.subst,
          substReg,
          Fusion.apply]] at hu'
    have hwr := congrArg (fun t : State Unit => t.gpr 0) hu'
    simp only [execAll, foldl_cons, foldl_nil, exec] at hwr
    exact absurd hwr (by decide)

end FastPPC.Ra
