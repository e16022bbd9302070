import FastPPC.Ra.MergeExact

/-!
# Pushes and pops in pairs

`PushTwo` and `PopTwo` move the stack pointer once and take the second slot at a fixed distance from
the first.  In 32-bit mode two pushes or pops may be on the two sides of the end of the address
space, and then the second slot is somewhere else.

* `push_push`, `pop_pop` : **two operations with adjacent slots** are the paired one;
* `push_push_apart`, `pop_pop_apart` : otherwise some memory shows the difference.
-/

namespace FastPPC

open BitVec

namespace Ppc

theorem store_comm (m : Storage) {a b : BitVec 64} {n k : ℕ} (v w : ℕ)
    (h : ∀ x, InField a n x → ¬InField b k x) :
    store (store m a n v) b k w = store (store m b k w) a n v := by
  funext x
  by_cases ha : InField a n x
  · rw [store_apart _ w (h x ha)]
    simp [store, if_pos ha]
  · rw [store_apart _ v ha]
    exact store_congr (store_apart m v ha)

theorem setWidth_load (m : Storage) (a : BitVec 64) {n : ℕ} (hn : 0 < n) :
    (BitVec.ofNat 64 (load m a n)).setWidth 8 = m a := by
  obtain ⟨k, rfl⟩ := Nat.exists_eq_succ_of_ne_zero hn.ne'
  apply eq_of_toNat_eq
  simp only [load, bytesAt, Codec.leValue, toNat_setWidth, toNat_ofNat]
  omega

end Ppc

namespace Ra

open Ppc (Storage load store InField)
open State

variable {C : Type}

theorem OpSize.bytes_pos (size : OpSize) : 0 < size.bytes := by
  cases size <;> decide

theorem OpSize.bytes_le (size : OpSize) : size.bytes ≤ 8 := by
  cases size <;> decide

/-! ### The address space -/

variable {sp : BitVec 64}

section Addresses

variable {cfg : Config C}

variable (x : BitVec 64)

theorem toNat_low32 : (low32 x).toNat = x.toNat % 2 ^ 32 := by
  simp only [low32, toNat_setWidth]
  omega

theorem Config.setWidth_clrUpper32 : (cfg.clrUpper32 x).setWidth 32 = x.setWidth 32 := by
  unfold clrUpper32
  split
  · rfl
  · exact setWidth_low32 x

theorem Config.clrUpper32_congr (h : cfg.is64BitMode = false) {x y : BitVec 64}
    (hxy : x.setWidth 32 = y.setWidth 32) : cfg.clrUpper32 x = cfg.clrUpper32 y := by
  simp only [clrUpper32, h]
  exact low32_eq_iff.2 hxy

/-- Only the last cut matters. -/
theorem Config.clrUpper32_add (x y : BitVec 64) :
    cfg.clrUpper32 (cfg.clrUpper32 x + y) = cfg.clrUpper32 (x + y) := by
  cases hmd : cfg.is64BitMode
  · refine clrUpper32_congr hmd ?_
    rw [setWidth_add _ _ (by decide), setWidth_add _ _ (by decide), setWidth_clrUpper32]
  · simp only [clrUpper32, hmd, if_true]

theorem Config.clrUpper32_clrUpper32 : cfg.clrUpper32 (cfg.clrUpper32 x) = cfg.clrUpper32 x := by
  simpa using cfg.clrUpper32_add x 0

theorem sub_two_mul (n : ℕ) :
    x - BitVec.ofNat 64 n - BitVec.ofNat 64 n = x - BitVec.ofNat 64 (2 * n) := by
  rw [Nat.two_mul, ofNat_add]
  ring

theorem add_two_mul (n : ℕ) :
    x + BitVec.ofNat 64 n + BitVec.ofNat 64 n = x + BitVec.ofNat 64 (2 * n) := by
  rw [Nat.two_mul, ofNat_add]
  ring

theorem Config.clrUpper32_sub_sub (n : ℕ) :
    cfg.clrUpper32 (cfg.clrUpper32 (x - BitVec.ofNat 64 n) - BitVec.ofNat 64 n) =
      cfg.clrUpper32 (x - BitVec.ofNat 64 (2 * n)) := by
  rw [BitVec.sub_eq_add_neg (cfg.clrUpper32 _), clrUpper32_add, ← BitVec.sub_eq_add_neg,
    sub_two_mul]

theorem Config.clrUpper32_add_add (n : ℕ) :
    cfg.clrUpper32 (cfg.clrUpper32 (x + BitVec.ofNat 64 n) + BitVec.ofNat 64 n) =
      cfg.clrUpper32 (x + BitVec.ofNat 64 (2 * n)) := by
  rw [clrUpper32_add, add_two_mul]

/-- The slots of two pushes are adjacent: the address space does not end between them. -/
def PushesAdjacent (cfg : Config C) (size : OpSize) (sp : BitVec 64) : Prop :=
  cfg.is64BitMode = true ∨
    ¬(size.bytes ≤ (low32 sp).toNat ∧ (low32 sp).toNat < 2 * size.bytes)

/-- The slots of two pops are adjacent. -/
def PopsAdjacent (cfg : Config C) (size : OpSize) (sp : BitVec 64) : Prop :=
  cfg.is64BitMode = true ∨ (low32 sp).toNat + size.bytes < 2 ^ 32

theorem pushesAdjacent_zero (size : OpSize) : PushesAdjacent cfg size 0 := by
  refine .inr fun h => ?_
  cases size <;> exact absurd h.1 (by decide)

theorem popsAdjacent_zero (size : OpSize) : PopsAdjacent cfg size 0 := by
  refine .inr ?_
  cases size <;> decide

theorem pushesAdjacent_iff {size : OpSize} : PushesAdjacent cfg size sp ↔
      cfg.clrUpper32 (sp - BitVec.ofNat 64 (2 * size.bytes)) + BitVec.ofNat 64 size.bytes =
        cfg.clrUpper32 (sp - BitVec.ofNat 64 size.bytes) := by
  have hle := size.bytes_le
  unfold PushesAdjacent
  generalize size.bytes = n at *
  cases hmd : cfg.is64BitMode
  · simp only [Config.clrUpper32, hmd, Bool.false_eq_true, if_false, false_or]
    rw [← toNat_inj]
    simp only [toNat_add, toNat_sub, toNat_low32, toNat_ofNat]
    omega
  · simp only [Config.clrUpper32, hmd, if_true, true_or, true_iff]
    rw [← sub_two_mul, BitVec.sub_add_cancel]

theorem popsAdjacent_iff {size : OpSize} : PopsAdjacent cfg size sp ↔
      cfg.clrUpper32 sp + BitVec.ofNat 64 size.bytes =
        cfg.clrUpper32 (sp + BitVec.ofNat 64 size.bytes) := by
  have hle := size.bytes_le
  unfold PopsAdjacent
  generalize size.bytes = n at *
  cases hmd : cfg.is64BitMode
  · simp only [Config.clrUpper32, hmd, Bool.false_eq_true, if_false, false_or]
    rw [← toNat_inj]
    simp only [toNat_add, toNat_low32, toNat_ofNat]
    omega
  · simp only [Config.clrUpper32, hmd, if_true, true_or]

end Addresses

/-! ### Pushes -/

section Push

variable {cfg : Config C} {u : Undefined} {s : State C} {size valueSize : OpSize}
  {value value' addr : Reg}

theorem exec_push_push (hval : addr ≠ value) :
    s.execAll cfg u [.push size valueSize addr value' addr, .push size valueSize addr value addr] =
      let base := cfg.clrUpper32 (s.gpr addr - BitVec.ofNat 64 (2 * valueSize.bytes))
      let first := cfg.clrUpper32 (s.gpr addr - BitVec.ofNat 64 valueSize.bytes)
      { s.setGpr addr base with
        mem := store (store s.mem first valueSize.bytes (s.gpr value').toNat) base valueSize.bytes
          (s.gpr value).toNat } := by
  have hgpr : ∀ v mem r, gpr { s.setGpr addr v with mem := mem } r = (s.setGpr addr v).gpr r :=
    fun _ _ _ => rfl
  simp only [execAll, List.foldl_cons, exec, push,
    gpr_setGpr_self, hgpr, gpr_setGpr_of_ne _ _ hval.symm, cfg.clrUpper32_sub_sub]
  simp [setGpr]

section

variable (hrsp : addr = cfg.rsp) (hval : addr ≠ value) (hval' : addr ≠ value')
  (hsz : valueSize.atLeast32 = true)
include hrsp hval hval' hsz

theorem exec_pushTwo : s.execAll cfg u [.pushTwo size valueSize value value' addr] =
      let base := cfg.clrUpper32 (s.gpr addr - BitVec.ofNat 64 (2 * valueSize.bytes))
      { s.setGpr addr base with
        mem := store (store s.mem base valueSize.bytes (s.gpr value).toNat)
          (base + BitVec.ofNat 64 valueSize.bytes) valueSize.bytes (s.gpr value').toNat } := by
  subst hrsp
  simp only [execAll, List.foldl_cons, List.foldl_nil, exec, pushTwo, hsz,
    if_true, gpr_setGpr_self, gpr_setGpr_of_ne _ _ hval.symm,
    gpr_setGpr_of_ne _ _ hval'.symm, setGpr_mem]

/-- **Two pushes to adjacent slots.** -/
theorem push_push (h : PushesAdjacent cfg valueSize (s.gpr addr)) :
    s.execAll cfg u [.pushTwo size valueSize value value' addr] = s.execAll cfg u
        [.push size valueSize addr value' addr, .push size valueSize addr value addr] := by
  have hle := valueSize.bytes_le
  rw [exec_push_push hval, exec_pushTwo hrsp hval hval' hsz]
  simp only
  rw [← pushesAdjacent_iff.1 h, Ppc.store_comm]
  -- the upper slot begins where the lower one ends
  intro x hx hx'
  obtain ⟨k, hk, rfl⟩ := Ppc.exists_offset hx
  refine Ppc.not_inField_slot _ (j := k) (k := valueSize.bytes) (by omega) (by omega) ?_ hx'
  exact .inl ⟨hk, by omega⟩

end

/-- The first slot of two pushes that are not adjacent is not written by the pair. -/
theorem not_inField_pushTwo (h : ¬PushesAdjacent cfg valueSize sp) {n : ℕ}
    (hn : n ≤ 2 * valueSize.bytes) :
    ¬InField (cfg.clrUpper32 (sp - BitVec.ofNat 64 (2 * valueSize.bytes))) n
      (cfg.clrUpper32 (sp - BitVec.ofNat 64 valueSize.bytes)) := by
  intro hx
  have hle := valueSize.bytes_le
  refine h (pushesAdjacent_iff.2 ?_)
  obtain ⟨k, hk, hx⟩ := Ppc.exists_offset hx
  -- both addresses have the word of `sp - n`, so the distance is `n`
  have hwr := congrArg (BitVec.setWidth 32) hx
  rw [setWidth_add _ _ (by decide), cfg.setWidth_clrUpper32, cfg.setWidth_clrUpper32,
    ← sub_two_mul, BitVec.sub_eq_add_neg (sp - _), setWidth_add _ _ (by decide)] at hwr
  have hds : (BitVec.ofNat 64 k).setWidth 32 = (BitVec.ofNat 64 valueSize.bytes).setWidth 32 := by
    rw [setWidth_neg_of_le (by decide)] at hwr
    linear_combination -hwr
  have hkn : k = valueSize.bytes := by
    have := congrArg BitVec.toNat hds
    simp only [toNat_setWidth, toNat_ofNat] at this
    omega
  rw [hx, hkn]

/-- **Two pushes around the end of the address space.** -/
theorem push_push_apart (hrsp : addr = cfg.rsp) (hval : addr ≠ value) (hval' : addr ≠ value')
    (hsz : valueSize.atLeast32 = true) (h : ¬PushesAdjacent cfg valueSize (s.gpr addr)) :
    ∃ mem, ∀ u u', execAll cfg u { s with mem := mem } [.pushTwo size valueSize value value' addr] ≠
      execAll cfg u' { s with mem := mem }
        [.push size valueSize addr value' addr, .push size valueSize addr value addr] := by
  -- the byte of the first slot is another one before
  refine ⟨fun _ => BitVec.ofNat 8 (s.gpr value').toNat + 1, fun u u' heq => ?_⟩
  have hle := valueSize.bytes_le
  have hpos := valueSize.bytes_pos
  rw [exec_push_push hval, exec_pushTwo hrsp hval hval' hsz] at heq
  have hby := congrFun (congrArg mem heq)
    (cfg.clrUpper32 (s.gpr addr - BitVec.ofNat 64 valueSize.bytes))
  have hlow := not_inField_pushTwo h (n := valueSize.bytes) (by omega)
  have hhg : ¬InField (cfg.clrUpper32 (s.gpr addr - BitVec.ofNat 64 (2 * valueSize.bytes)) +
      BitVec.ofNat 64 valueSize.bytes) valueSize.bytes
      (cfg.clrUpper32 (s.gpr addr - BitVec.ofNat 64 valueSize.bytes)) := by
    intro hx
    refine not_inField_pushTwo h le_rfl ?_
    obtain ⟨k, hk, hx⟩ := Ppc.exists_offset hx
    rw [hx, BitVec.add_assoc, ← BitVec.ofNat_add, Ppc.inField_offset _ (by omega)]
    omega
  have hsl : InField (cfg.clrUpper32 (s.gpr addr - BitVec.ofNat 64 valueSize.bytes))
      valueSize.bytes (cfg.clrUpper32 (s.gpr addr - BitVec.ofNat 64 valueSize.bytes)) := by
    simpa [InField] using hpos
  have hgpr : ∀ r mem, gpr { s with mem := mem } r = s.gpr r := fun _ _ => rfl
  simp only [hgpr, Ppc.store_apart _ _ hlow, Ppc.store_apart _ _ hhg] at hby
  rw [store, if_pos hsl, BitVec.sub_self] at hby
  simp at hby

/-- A pair that moves another register than the stack pointer. -/
theorem push_push_other (hrsp : addr ≠ cfg.rsp) (hval : addr ≠ value) {u' : Undefined} :
    s.execAll cfg u [.pushTwo size valueSize value value' addr] ≠ s.execAll cfg u'
        [.push size valueSize addr value' addr, .push size valueSize addr value addr] := by
  intro heq
  have hle := valueSize.bytes_le
  have hpos := valueSize.bytes_pos
  have hpr : (s.execAll cfg u [.pushTwo size valueSize value value' addr]).gpr cfg.rsp =
      cfg.clrUpper32 (s.gpr cfg.rsp - BitVec.ofNat 64 (2 * valueSize.bytes)) := by
    simp only [execAll, List.foldl_cons, exec, pushTwo]
    split
    · exact gpr_setGpr_self _ _ _
    · exact gpr_setGpr_self _ _ _
  rw [heq, exec_push_push hval] at hpr
  have hwr := congrArg (BitVec.setWidth 32) ((gpr_setGpr_of_ne s _ (Ne.symm hrsp)).symm.trans hpr)
  have hnat := congrArg BitVec.toNat (hwr.trans (cfg.setWidth_clrUpper32 _))
  simp only [toNat_setWidth, toNat_sub, toNat_ofNat] at hnat
  omega

end Push

/-! ### Pops -/

section Pop

variable {cfg : Config C} {u : Undefined} {s : State C} {size : OpSize} {value value' addr : Reg}

theorem gpr_pop (s : State C) : (s.pop cfg size addr value).gpr value =
    BitVec.ofNat 64 (load s.mem (cfg.clrUpper32 (s.gpr addr)) size.bytes) :=
  gpr_setGpr_self _ _ _

theorem State.setGpr_comm (s : State C) {r r' : Reg} (v w : BitVec 64) (h : r ≠ r') :
    (s.setGpr r v).setGpr r' w = (s.setGpr r' w).setGpr r v := by
  simp [setGpr, Function.update_comm h]

theorem exec_pop_pop (hali : value' ≠ addr) :
    s.execAll cfg u [.pop size addr value', .pop size addr value] =
      ((s.setGpr addr (cfg.clrUpper32 (s.gpr addr + BitVec.ofNat 64 (2 * size.bytes)))).setGpr
        value' (BitVec.ofNat 64 (load s.mem (cfg.clrUpper32 (s.gpr addr)) size.bytes))).setGpr
        value (BitVec.ofNat 64 (load s.mem
          (cfg.clrUpper32 (s.gpr addr + BitVec.ofNat 64 size.bytes)) size.bytes)) := by
  simp only [execAll, List.foldl_cons, List.foldl_nil, exec, pop,
    setGpr_mem, gpr_setGpr_of_ne _ _ hali.symm, gpr_setGpr_self,
    cfg.clrUpper32_clrUpper32, cfg.clrUpper32_add_add]
  rw [setGpr_comm _ _ _ hali, setGpr_setGpr]

theorem exec_popTwo : s.execAll cfg u [.popTwo size addr value' value] =
      ((s.setGpr addr (cfg.clrUpper32 (s.gpr addr + BitVec.ofNat 64 (2 * size.bytes)))).setGpr
        value' (BitVec.ofNat 64 (load s.mem (cfg.clrUpper32 (s.gpr addr)) size.bytes))).setGpr
        value (BitVec.ofNat 64 (load s.mem
          (cfg.clrUpper32 (s.gpr addr) + BitVec.ofNat 64 size.bytes) size.bytes)) := rfl

theorem pop_pop (hali : value' ≠ addr) (h : PopsAdjacent cfg size (s.gpr addr)) :
    s.execAll cfg u [.popTwo size addr value' value] =
      s.execAll cfg u [.pop size addr value', .pop size addr value] := by
  rw [exec_pop_pop hali, exec_popTwo, popsAdjacent_iff.1 h]

/-- **Two pops around the end of the address space.** -/
theorem pop_pop_apart (hali : value' ≠ addr) (h : ¬PopsAdjacent cfg size (s.gpr addr)) :
    ∃ mem, ∀ u u', execAll cfg u { s with mem := mem } [.popTwo size addr value' value] ≠
      execAll cfg u' { s with mem := mem } [.pop size addr value', .pop size addr value] := by
  -- one byte, where the pair finds its second slot
  refine ⟨fun x => if x = cfg.clrUpper32 (s.gpr addr) + BitVec.ofNat 64 size.bytes then 1 else 0,
    fun u u' heq => ?_⟩
  rw [exec_pop_pop hali, exec_popTwo] at heq
  have hby := congrArg (fun t : State C => (t.gpr value).setWidth 8) heq
  have hgpr : ∀ mem, gpr { s with mem := mem } addr = s.gpr addr := fun _ => rfl
  simp only [gpr_setGpr_self, Ppc.setWidth_load _ _ size.bytes_pos, hgpr] at hby
  rw [if_pos trivial, if_neg (fun h' => h (popsAdjacent_iff.2 h'.symm))] at hby
  exact absurd hby (by decide)

/-- A pair of pops of which the first loads the stack pointer. -/
theorem pop_pop_alias (ctx : C) (u u' : Undefined) : execAll cfg u
        ⟨fun _ => 0, fun x => if x = BitVec.ofNat 64 size.bytes then 1 else 0, ctx⟩
        [.popTwo size addr addr value] ≠
      execAll cfg u' ⟨fun _ => 0, fun x => if x = BitVec.ofNat 64 size.bytes then 1 else 0, ctx⟩
        [.pop size addr addr, .pop size addr value] := by
  intro heq
  have hclr : cfg.clrUpper32 0 = 0 := by
    unfold Config.clrUpper32
    split <;> rfl
  have hzr : (0 : BitVec 64) ≠ BitVec.ofNat 64 size.bytes := by cases size <;> decide
  generalize hm : (fun x : BitVec 64 =>
    if x = BitVec.ofNat 64 size.bytes then (1 : BitVec 8) else 0)
    = m at heq
  have hone : m (BitVec.ofNat 64 size.bytes) = 1 := hm ▸ if_pos rfl
  have hnn : ∀ x, x ≠ BitVec.ofNat 64 size.bytes → m x = 0 := fun x hx => hm ▸ if_neg hx
  -- the second slot of the two pops is at a multiple of 256
  have hsl : cfg.clrUpper32 (BitVec.ofNat 64 (load m 0 size.bytes)) ≠
      BitVec.ofNat 64 size.bytes := by
    intro h
    have hlow := congrArg (fun x : BitVec 64 => (x.setWidth 32).setWidth 8) h
    simp only [cfg.setWidth_clrUpper32] at hlow
    rw [setWidth_setWidth_of_le _ (by decide), Ppc.setWidth_load m 0 size.bytes_pos,
      hnn 0 hzr] at hlow
    cases size <;> exact absurd hlow (by decide)
  have hpr := congrArg (fun t : State C => (t.gpr value).setWidth 8) heq
  simp only [execAll, List.foldl_cons, List.foldl_nil, exec, popTwo, gpr_pop,
    gpr_setGpr_self, Ppc.setWidth_load _ _ size.bytes_pos] at hpr
  have hrg : ∀ r, gpr (⟨fun _ => 0, m, ctx⟩ : State C) r = 0 := fun _ => rfl
  have hmem : (pop cfg ⟨fun _ => 0, m, ctx⟩ size addr addr).mem = m := rfl
  rw [hrg, hclr, zero_add, hmem, hone, hnn _ hsl] at hpr
  exact absurd hpr (by decide)

end Pop

end Ra

end FastPPC
