import FastPPC.Ra.PostRAMerge

/-!
# Which merges there are, and those of moves

* `Fused` : the merges that `TryPostRAMerge` makes, each with the pair of operations it is made for
  and what was checked of them; `fused_of_tryPostRAMerge` : there are no others;
* `exec_substArgs` : **a move whose target is overwritten** can be left out if the operation reads
  its source;
* `exec_word` : the same for a 32-bit move and an operation on words;
* `exec_and_of_bits`, `exec_and_ne` : the 64-bit `And` that becomes one on words, with and without
  the difference showing.
-/

namespace FastPPC.Ra

open Option BitVec

open Ppc (Storage load store InField)
open State

variable {C : Type}

namespace State

variable {s : State C} {r r' : Reg} {v w : BitVec 64}

@[simp] theorem gpr_setGpr_self (s : State C) (r : Reg) (v : BitVec 64) :
    (s.setGpr r v).gpr r = v := by
  simp [gpr, setGpr]

theorem gpr_setGpr_of_ne (s : State C) (v : BitVec 64) (h : r' ≠ r) :
    (s.setGpr r v).gpr r' = s.gpr r' := by
  simp [gpr, setGpr, h]

@[simp] theorem setGpr_setGpr (s : State C) (r : Reg) (v w : BitVec 64) :
    (s.setGpr r v).setGpr r w = s.setGpr r w := by
  simp [setGpr]

@[simp] theorem setGpr_mem (s : State C) (r : Reg) (v : BitVec 64) : (s.setGpr r v).mem = s.mem :=
  rfl

@[simp] theorem gpr_mk (regs : Reg → Value) (mem : Storage) (ctx : C) (r : Reg) :
    (mk regs mem ctx).gpr r = (regs r).setWidth 64 := rfl

theorem execAll_cons (s : State C) (cfg : Config C) (u : Undefined) (op : Op C)
    (ops : List (Op C)) : s.execAll cfg u (op :: ops) = (s.exec cfg u op).execAll cfg u ops := rfl

end State

/-! ### Which merge was made -/

variable {code : Op C}

/-- The merges, with the pairs of operations they are made for. -/
inductive Fused (cfg : Config C) : Op C → Op C → Fusion C → Prop
  | pushTwo {size valueSize : OpSize} {value value' addr : Reg} (hvalue : addr ≠ value)
      (hvalue' : addr ≠ value') (hsize : valueSize.atLeast32 = true) :
      Fused cfg (.push size valueSize addr value' addr) (.push size valueSize addr value addr)
        (.pushTwo size valueSize value value' addr)
  | popTwo {size : OpSize} {addr value value' : Reg} (hsize : size.atLeast32 = true) :
      Fused cfg (.pop size addr value') (.pop size addr value) (.popTwo size addr value' value)
  | shortDiv {last : Op C} {signed : Bool} {size : OpSize}
      {lower upper divisor quotient remainder : Reg} (hsize : size.atLeast32 = true)
      (hdest : last.dest = some upper)
      (hlast : isExtension signed last lower size = true) :
      Fused cfg last (.div signed size lower (some upper) divisor quotient remainder)
        (.shortDiv signed size lower divisor quotient remainder (upper = remainder))
  | xgetbv {function outEAX outEDX : Reg} {value : BitVec 64} {r : BitVec 32 × BitVec 32}
      (hr : cfg.cpuid.constantXCRFunction (value.setWidth 32) = some r) :
      Fused cfg (.constant function value false) (.xgetbv function outEAX outEDX)
        (.constants [.constant outEAX (r.1.setWidth 64) false,
          .constant outEDX (r.2.setWidth 64) false])
  | cpuid {function leaf outEAX outEBX outECX outEDX : Reg} {value : BitVec 64}
      {r : BitVec 32 × BitVec 32 × BitVec 32 × BitVec 32}
      (hr : cfg.cpuid.constantFunction (value.setWidth 32) = some r) :
      Fused cfg (.constant function value false)
        (.cpuid function leaf outEAX outEBX outECX outEDX)
        (.constants [.fence, .constant outEAX (r.1.setWidth 64) false,
          .constant outEBX (r.2.1.setWidth 64) false, .constant outECX (r.2.2.1.setWidth 64) false,
          .constant outEDX (r.2.2.2.setWidth 64) false])
  | store {dst value : Reg} {code : Op C} (hdest : code.dest = some dst) :
      Fused cfg (.storeRegister dst value) code (.killMove (code.substArgs dst value))
  | word {field : Field} {op : BinOp} {size : OpSize} {dst src : Reg} {src1 src2 : Arg}
      (hlsb : field.lsb = 0) (hwidth : field.width = 32) (hop : op = .and ∨ size = .i32Bit) :
      Fused cfg (.bfe field dst src) (.bin op size dst src1 src2)
        (.killMove (.bin op .i32Bit dst (src1.subst dst src) (src2.subst dst src)))

theorem fused_of_mergeMove {cfg : Config C} {last : Op C} {f : Fusion C}
    (h : mergeMove last code = some f) : Fused cfg last code f := by
  unfold mergeMove at h
  split at h
  · cases h
  rename_i dst hls
  split at h
  · rename_i hcd
    obtain ⟨⟨op, src⟩, hkl, rfl⟩ := map_eq_some_iff.1 h
    unfold killMove at hkl
    split at hkl
    · split at hkl
      · rename_i hcn
        obtain ⟨hlsb, hwid, hop⟩ := hcn
        cases hkl
        obtain rfl := some.inj hls
        obtain rfl := some.inj hcd
        exact .word hlsb hwid hop
      · cases hkl
    · cases hkl
      obtain rfl := some.inj hls
      exact .store hcd
    · cases hkl
  · cases h

theorem fused_of_tryPostRAMerge {cfg : Config C} {last : Op C} {f : Fusion C}
    (h : tryPostRAMerge cfg last code = some f) : Fused cfg last code f := by
  unfold tryPostRAMerge at h
  split at h
  · split at h
    · rename_i hcn
      obtain ⟨rfl, rfl, rfl, rfl, rfl, hval, hval', hsz⟩ := hcn
      cases h
      exact .pushTwo hval hval' hsz
    · exact fused_of_mergeMove h
  · split at h
    · rename_i hcn
      obtain ⟨rfl, hsz, rfl⟩ := hcn
      cases h
      exact .popTwo hsz
    · exact fused_of_mergeMove h
  · split at h
    · rename_i hcn
      obtain ⟨hsz, hds, hls⟩ := hcn
      cases h
      exact .shortDiv hsz hds hls
    · exact fused_of_mergeMove h
  · split at h
    · rename_i hfun hr
      cases h
      obtain rfl := of_decide_eq_true hfun
      exact .xgetbv hr
    · exact fused_of_mergeMove h
  · split at h
    · rename_i hfun hr
      cases h
      obtain rfl := of_decide_eq_true hfun
      exact .cpuid hr
    · exact fused_of_mergeMove h
  · exact fused_of_mergeMove h

/-! ### Moves -/

variable {field : Field}

section Moves

variable {cfg : Config C} {u : Undefined} {s : State C} {dst src : Reg}

theorem regs_substReg (s : State C) (dst src r : Reg) :
    Function.update s.regs dst (s.regs src) r = s.regs (substReg dst src r) := by
  unfold substReg
  rw [Function.update_apply]
  split <;> rfl

/-- An operation that overwrites the target of a move does without the move. -/
theorem exec_substArgs (hds : code.dest = some dst) : s.exec cfg u (code.substArgs dst src) =
      (s.exec cfg u (.storeRegister dst src)).exec cfg u code := by
  have hset : ∀ v, setGpr (s.exec cfg u (.storeRegister dst src)) dst v = s.setGpr dst v := by
    intro v
    simp [exec, setGpr]
  have hgpr : ∀ r, (s.exec cfg u (.storeRegister dst src)).gpr r = s.gpr (substReg dst src r) :=
    fun r => congrArg (setWidth 64) (regs_substReg s dst src r)
  have hval : ∀ arg : Arg, arg.value (s.exec cfg u (.storeRegister dst src)) =
      (arg.subst dst src).value s := by
    rintro (r | c)
    · exact hgpr r
    · rfl
  generalize ht : s.exec cfg u (.storeRegister dst src) = t at hset hgpr hval
  cases code with
  | push size valueSize d value addr =>
    obtain rfl := some.inj hds
    simp [Op.substArgs, exec, push, hset, hgpr]
  | bfe field d r | sbfe field d r =>
    obtain rfl := some.inj hds
    simp [Op.substArgs, exec, hset, hgpr]
  | constant d value patchSite =>
    obtain rfl := some.inj hds
    simp [Op.substArgs, exec, hset]
  | bin op size d src1 src2 =>
    obtain rfl := some.inj hds
    simp [Op.substArgs, exec, hset, hval]
  | storeRegister d value =>
    obtain rfl := some.inj hds
    subst ht
    simp [Op.substArgs, exec, regs_substReg]
  | other d args run =>
    obtain rfl : d = some dst := hds
    subst ht
    have hrd : (args.map (Arg.subst dst src)).map (Arg.read s) =
        args.map (Arg.read (s.exec cfg u (.storeRegister dst src))) := by
      rw [List.map_map]
      refine List.map_congr_left fun arg _ => ?_
      rcases arg with r | c
      · exact congrArg some (regs_substReg s dst src r).symm
      · rfl
    simp only [Op.substArgs, exec] at hrd ⊢
    simp [hrd]
  | _ => cases hds

theorem low32_low32 (x : BitVec 64) : low32 (low32 x) = low32 x := by
  simp [low32]

theorem and_low32 (x y : BitVec 64) : x &&& low32 y = low32 (x &&& y) := by
  apply eq_of_getLsbD_eq
  intro i hi
  by_cases h : i < 32 <;> simp [low32, h, hi]

theorem low32_eq_iff {x y : BitVec 64} : low32 x = low32 y ↔ x.setWidth 32 = y.setWidth 32 := by
  refine ⟨fun h => ?_, fun h => by rw [low32, low32, h]⟩
  rw [← setWidth_low32 x, h, setWidth_low32]

/-- A word of the result depends on the words of the operands. -/
theorem BinOp.result_congr (op : BinOp) {a a' b b' : BitVec 64} (ha : low32 a = low32 a')
    (hb : low32 b = low32 b') : op.result .i32Bit a b = op.result .i32Bit a' b' := by
  have ha' := low32_eq_iff.1 ha
  have hb' := low32_eq_iff.1 hb
  have hcou : b.toNat % 32 = b'.toNat % 32 := by
    have h := congrArg (fun x => x.toNat % 32) hb'
    simp only [toNat_setWidth] at h
    omega
  have hwr : (OpSize.i32Bit != OpSize.i64Bit) = true := rfl
  cases op with
  | and => exact low32_eq_iff.2 (by simp [eval, ha', hb'])
  | or => exact low32_eq_iff.2 (by simp [eval, ha', hb'])
  | xor => exact low32_eq_iff.2 (by simp [eval, ha', hb'])
  | add => exact low32_eq_iff.2 (by simp [eval, setWidth_add, ha', hb'])
  | sub =>
    have h := low32_sub_mul a b 1
    have h' := low32_sub_mul a' b' 1
    rw [mul_one] at h h'
    simp only [result, eval, if_true]
    rw [h, h', ha', hb']
  | lshl =>
    have hshi : ∀ x : BitVec 64, (x <<< (b'.toNat % 32)).setWidth 32 =
        x.setWidth 32 <<< (b'.toNat % 32) := fun x => by
      simp
    simp only [result, eval, hcou, hwr, if_true, low32_low32]
    exact low32_eq_iff.2 (by rw [hshi, hshi, ha'])
  | lshr => simp only [result, eval, hcou, ha, hwr, if_true]
  | ashr => simp only [result, eval, hcou, ha', hwr, if_true]

/-- What a 32-bit move leaves: the lower word of its source. -/
theorem exec_bfe32 (hlsb : field.lsb = 0) (hwid : field.width = 32) :
    s.exec cfg u (.bfe field dst src) = s.setGpr dst (low32 (s.gpr src)) := by
  obtain ⟨size, width, lsb, valid⟩ := field
  subst hlsb hwid
  have hwr : (if size = .i64Bit then s.gpr src else low32 (s.gpr src)).setWidth 32 =
      (s.gpr src).setWidth 32 := by
    split
    · rfl
    · exact setWidth_low32 _
  simp only [exec, Field.extract, ushiftRight_zero]
  rw [hwr, low32]

/-- After a 32-bit move an argument has the word that it has with the source in its place. -/
theorem low32_value_subst (arg : Arg) :
    low32 (arg.value (s.setGpr dst (low32 (s.gpr src)))) = low32 ((arg.subst dst src).value s) := by
  rcases arg with r | c
  · simp only [Arg.value, Arg.subst, substReg]
    split
    · rename_i h
      rw [h, gpr_setGpr_self, low32_low32]
    · rename_i h
      rw [gpr_setGpr_of_ne _ _ h]
  · rfl

theorem exec_word (op : BinOp) (hlsb : field.lsb = 0) (hwid : field.width = 32) (src1 src2 : Arg) :
    s.exec cfg u (.bin op .i32Bit dst (src1.subst dst src) (src2.subst dst src)) =
      (s.exec cfg u (.bfe field dst src)).exec cfg u (.bin op .i32Bit dst src1 src2) := by
  rw [exec_bfe32 hlsb hwid]
  simp only [exec, setGpr_setGpr]
  rw [op.result_congr (low32_value_subst src1) (low32_value_subst src2)]

/-- The bits that an argument can have after a 32-bit move to `dst`. -/
def Arg.bits (dst : Reg) : Arg → BitVec 64
  | .reg r => if r = dst then low32 (allOnes 64) else allOnes 64
  | .const c => c

theorem value_and_bits (arg : Arg) : arg.value (s.setGpr dst (low32 (s.gpr src))) &&& arg.bits dst =
      arg.value (s.setGpr dst (low32 (s.gpr src))) := by
  rcases arg with r | c
  · simp only [Arg.value, Arg.bits]
    split
    · rename_i h
      subst h
      rw [gpr_setGpr_self, and_low32, and_allOnes, low32_low32]
    · exact and_allOnes
  · exact and_self

/-- Where no bit above the word can be set, the word is the result. -/
theorem exec_and_of_bits (size : OpSize) (hlsb : field.lsb = 0) (hwid : field.width = 32)
    {src1 src2 : Arg}
    (h : low32 (src1.bits dst &&& src2.bits dst) = src1.bits dst &&& src2.bits dst) :
    s.exec cfg u (.bin .and .i32Bit dst (src1.subst dst src) (src2.subst dst src)) =
      (s.exec cfg u (.bfe field dst src)).exec cfg u (.bin .and size dst src1 src2) := by
  rw [exec_word .and hlsb hwid, exec_bfe32 hlsb hwid]
  simp only [exec]
  have hres : ∀ a b, BinOp.and.result .i32Bit a b = low32 (a &&& b) := fun _ _ => rfl
  generalize hv1 : src1.value (s.setGpr dst (low32 (s.gpr src))) = v1
  generalize hv2 : src2.value (s.setGpr dst (low32 (s.gpr src))) = v2
  have h1 : v1 &&& src1.bits dst = v1 := hv1 ▸ value_and_bits src1
  have h2 : v2 &&& src2.bits dst = v2 := hv2 ▸ value_and_bits src2
  have hlow : low32 (v1 &&& v2) = v1 &&& v2 := by
    have hand : v1 &&& v2 = (v1 &&& v2) &&& (src1.bits dst &&& src2.bits dst) := by
      conv_lhs => rw [← h1, ← h2]
      ac_rfl
    rw [hand, ← h, and_low32, low32_low32]
  have hany : BinOp.and.result size v1 v2 = v1 &&& v2 := by
    unfold BinOp.result
    split
    · exact hlow
    · rfl
  rw [hres, hlow, hany]

/-- With all bits set everywhere, the word is not the result. -/
theorem exec_and_ne {size : OpSize} (hsz : size ≠ .i32Bit) (hlsb : field.lsb = 0)
    (hwid : field.width = 32) {src1 src2 : Arg}
    (h : low32 (src1.bits dst &&& src2.bits dst) ≠ src1.bits dst &&& src2.bits dst) (mem : Storage)
    (ctx : C) (u u' : Undefined) :
    exec cfg u ⟨fun _ => allOnes 128, mem, ctx⟩
        (.bin .and .i32Bit dst (src1.subst dst src) (src2.subst dst src)) ≠
      (exec cfg u' ⟨fun _ => allOnes 128, mem, ctx⟩ (.bfe field dst src)).exec cfg u'
        (.bin .and size dst src1 src2) := by
  let s : State C := ⟨fun _ => allOnes 128, mem, ctx⟩
  have hcut : (allOnes 128).setWidth 64 = allOnes 64 := by decide
  have hon : ∀ r, s.gpr r = allOnes 64 := fun _ => hcut
  have hval : ∀ arg : Arg, arg.value (s.setGpr dst (low32 (s.gpr src))) = arg.bits dst := by
    rintro (r | c)
    · simp only [Arg.value, Arg.bits]
      split
      · rename_i hr
        rw [hr, gpr_setGpr_self, hon]
      · rename_i hr
        rw [gpr_setGpr_of_ne _ _ hr, hon]
    · rfl
  intro heq
  rw [exec_word .and hlsb hwid, exec_bfe32 hlsb hwid, exec_bfe32 hlsb hwid] at heq
  have hdst := congrArg (fun t : State C => t.gpr dst) heq
  simp only [exec, gpr_setGpr_self] at hdst
  rw [hval, hval, BinOp.result, if_pos rfl, BinOp.result, if_neg hsz] at hdst
  exact h hdst

end Moves

end FastPPC.Ra
