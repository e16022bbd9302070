import FastPPC.Ir.SplatChain

/-!
# The splat form does not leak

Two facts are carried along a block.  `Follows` says that the walk is right about the original
block: a tracked value is the value of its candidate, and so is the register that the cache model
gives to a candidate.  `Rel` says how the block after the pass differs: a marked candidate holds
its element 0 in all lanes, and its merge holds the architectural value.

* `Follows.visit`, `Before.apply` : one node;
* `splatChain_sound` : every operation sees of its arguments what it saw before the pass.
-/

namespace FastPPC.Ir

open Option Operand Bool

open Function VectorOp VState V128 Walk List

/-! ### Frames -/

variable {t : Tracked} {es : ElementSize}

namespace VState

variable {node : VNode}

variable {σ : Type*} (I : VInterp σ) (s : VState σ)

@[simp] theorem defineScalar_regs (id : ℕ) (es : ElementSize) (b : Bool) (u r : V128) :
    (s.defineScalar id es b u r).regs = s.regs := by
  unfold defineScalar
  split <;> rfl

theorem step_env_of_ne {id : ℕ} (h : id ≠ node.id) : (s.step I node).env id = s.env id := by
  unfold step
  split <;> simp [defineScalar, define, h] <;> split <;> simp [h]

theorem step_splatForm_of_ne {id : ℕ} (h : id ≠ node.id) :
    (s.step I node).splatForm id = s.splatForm id := by
  unfold step
  split <;> simp [defineScalar, define, h] <;> split <;> simp [h]

theorem step_regs (h : ∀ reg value, node.op ≠ .storeRegister reg value) :
    (s.step I node).regs = s.regs := by
  unfold step
  split
  case h_6 reg value hop => exact absurd hop (h reg value)
  all_goals simp [define]

end VState

namespace Walk

variable {id : ℕ}

variable {node : VNode}

theorem foldl_countUse_trackedOf (args : List Operand) (w : Walk) :
    (args.foldl countUse w).trackedOf = w.trackedOf := by
  induction args generalizing w with
  | nil => rfl
  | cons a args ih =>
    rw [foldl_cons, ih]
    unfold countUse
    split <;> rfl

theorem foldl_countUse_curSRA (args : List Operand) (w : Walk) :
    (args.foldl countUse w).curSRA = w.curSRA := by
  induction args generalizing w with
  | nil => rfl
  | cons a args ih =>
    rw [foldl_cons, ih]
    unfold countUse
    split <;> rfl

theorem register_trackedOf_of_ne (w : Walk) (h : id ≠ node.id) :
    (w.register node).trackedOf id = w.trackedOf id := by
  unfold register
  split
  · exact update_of_ne h _ _
  · rfl

theorem updateCache_trackedOf_of_ne (w : Walk) (h : id ≠ node.id) :
    (w.updateCache node).trackedOf id = w.trackedOf id := by
  unfold updateCache
  split
  · split <;> rfl
  · split
    · split
      · exact update_of_ne h _ _
      · rfl
    · rfl

theorem visit_trackedOf_of_ne (w : Walk) (h : id ≠ node.id) :
    (w.visit node).trackedOf id = w.trackedOf id := by
  rw [visit, updateCache_trackedOf_of_ne _ h, foldl_countUse_trackedOf,
    register_trackedOf_of_ne w h]

theorem visit_trackedOf_self (w : Walk) (hfre : w.trackedOf node.id = none)
    (h : (w.visit node).trackedOf node.id = some t) :
    (∃ es, node.op.eligible = some es ∧ t = ⟨node.id, es, false⟩) ∨
      ∃ n cand es, node.op = .loadRegister (.fpr n) ∧ w.curSRA n = some (cand, es) ∧
        t = ⟨cand, es, true⟩ := by
  have hreg : ∀ t, (w.register node).trackedOf node.id = some t →
      ∃ es, node.op.eligible = some es ∧ t = ⟨node.id, es, false⟩ := by
    intro t ht
    unfold register at ht
    split at ht
    · rename_i es hes
      exact ⟨es, hes, by simpa [track] using ht.symm⟩
    · rw [hfre] at ht
      cases ht
  have hsra : (w.register node).curSRA = w.curSRA := by
    unfold register
    split <;> rfl
  unfold visit updateCache at h
  split at h
  · left
    split at h <;> simp only [foldl_countUse_trackedOf] at h <;> exact hreg t h
  · split at h
    · rename_i n hld
      split at h
      · rename_i cand es hcur
        right
        rw [foldl_countUse_curSRA, hsra] at hcur
        refine ⟨n, cand, es, ?_, hcur, by simpa [track] using h.symm⟩
        revert hld
        cases node.op with
        | loadRegister reg =>
          cases reg <;> simp [fprLoadSource]
        | _ => simp [fprLoadSource]
      · left
        simp only [foldl_countUse_trackedOf] at h
        exact hreg t h
    · left
      simp only [foldl_countUse_trackedOf] at h
      exact hreg t h

theorem visit_trackedOf_eligible (w : Walk) (h : node.op.eligible = some es) :
    (w.visit node).trackedOf node.id = some ⟨node.id, es, false⟩ := by
  have hreg : (w.register node).trackedOf node.id = some ⟨node.id, es, false⟩ := by
    simp [register, h, track]
  rw [← hreg, ← foldl_countUse_trackedOf node.op.args (w.register node)]
  unfold visit updateCache
  -- a candidate is neither a store nor a load of a register
  cases hop : node.op <;> simp [eligible, hop] at h <;> simp [fprLoadSource]

/-- A store sets the alias of its register; nothing else changes the cache model. -/
theorem visit_curSRA (w : Walk) (node : VNode) :
    (∃ n value, node.op = .storeRegister (.fpr n) value ∧ n < kNumSRAFPRs ∧
        (w.visit node).curSRA = update w.curSRA n
          ((w.trackedOfArg value).map fun t => (t.cand, t.es))) ∨
      (∀ n value, node.op = .storeRegister (.fpr n) value → ¬n < kNumSRAFPRs) ∧
        (w.visit node).curSRA = w.curSRA := by
  have hsra : (w.register node).curSRA = w.curSRA := by
    unfold register
    split <;> rfl
  unfold visit updateCache
  split
  · rename_i reg value hop
    have hreg : (w.register node).trackedOfArg value = w.trackedOfArg value := by
      unfold register
      rw [hop]
      rfl
    cases reg with
    | gpr n =>
      right
      rw [hop]
      refine ⟨fun n value h => (nomatch h), ?_⟩
      simp [fprStoreTarget, foldl_countUse_curSRA, hsra]
    | fpr n =>
      by_cases hn : n < kNumSRAFPRs
      · left
        refine ⟨n, value, hop, hn, ?_⟩
        have harg : (List.foldl countUse (w.register node) node.op.args).trackedOfArg value =
            w.trackedOfArg value := by
          rw [← hreg]
          cases value <;> simp [trackedOfArg, foldl_countUse_trackedOf]
        simp only [hop, fprStoreTarget, if_pos hn]
        rw [hop] at harg
        rw [foldl_countUse_curSRA, hsra, harg]
      · right
        refine ⟨fun m v h => ?_, ?_⟩
        · rw [hop] at h
          cases h
          exact hn
        · simp [hop, fprStoreTarget, hn, foldl_countUse_curSRA, hsra]
  · rename_i hno
    right
    refine ⟨fun n value h => absurd h (hno _ _), ?_⟩
    split
    · split <;> simp [track, foldl_countUse_curSRA, hsra]
    · simp [foldl_countUse_curSRA, hsra]

end Walk

/-! ### The walk is right about the original block -/

variable {a : Operand}

structure Follows {σ : Type*} (ids : List ℕ) (w : Walk) (s : VState σ) : Prop where
  orig : ∀ id, s.splatForm id = none
  tracked : ∀ id t, w.trackedOf id = some t →
    id ∈ ids ∧ s.env id = s.env t.cand ∧ w.trackedOf t.cand = some ⟨t.cand, t.es, false⟩ ∧
      (t.isAlias = false → t.cand = id)
  sra : ∀ n cand es, w.curSRA n = some (cand, es) →
    n < kNumSRAFPRs ∧ s.regs (.fpr n) = s.env cand ∧ w.trackedOf cand = some ⟨cand, es, false⟩

section Step

variable {σ : Type*} (I : VInterp σ) {ids : List ℕ} {w : Walk} {s s' : VState σ} {node : VNode}
  {P : Plan}

theorem Follows.not_mem (h : Follows ids w s) {id : ℕ} (hid : id ∉ ids) :
    w.trackedOf id = none := by
  rw [eq_none_iff_forall_ne_some]
  intro t ht
  exact hid (h.tracked id t ht).1

theorem Follows.ne_of_tracked (h : Follows ids w s) (hid : node.id ∉ ids) {id : ℕ}
    (ht : w.trackedOf id = some t) : id ≠ node.id :=
  fun e => hid (e ▸ (h.tracked id t ht).1)

theorem Follows.visit (h : Follows ids w s) (hid : node.id ∉ ids)
    (hpla : node.op.splatResult = false) :
    Follows (node.id :: ids) (w.visit node) (s.step I node) := by
  refine ⟨?_, ?_, ?_⟩
  · intro id
    have hor := h.orig id
    unfold VState.step
    split <;> rename_i hop <;> rw [hop] at hpla <;>
      simp only [splatResult] at hpla <;>
      simp [defineScalar, define, hpla, update_apply, hor]
  · intro id t ht
    by_cases hne : id = node.id
    · subst hne
      rcases w.visit_trackedOf_self (h.not_mem hid) ht with
        ⟨es, -, rfl⟩ | ⟨n, cand, es, hop, hcur, rfl⟩
      · exact ⟨mem_cons_self, rfl, ht, fun _ => rfl⟩
      · obtain ⟨-, hrg, hcn⟩ := h.sra n cand es hcur
        have hcne := h.ne_of_tracked hid hcn
        refine ⟨mem_cons_self, ?_, ?_, fun hf => by cases hf⟩
        · rw [VState.step_env_of_ne I s hcne, ← hrg]
          simp [VState.step, hop, define]
        · rw [w.visit_trackedOf_of_ne hcne]
          exact hcn
    · rw [w.visit_trackedOf_of_ne hne] at ht
      obtain ⟨hmem, henv, hcn, hali⟩ := h.tracked id t ht
      have hcne := h.ne_of_tracked hid hcn
      rw [VState.step_env_of_ne I s hne, VState.step_env_of_ne I s hcne,
        w.visit_trackedOf_of_ne hcne]
      exact ⟨mem_cons_of_mem _ hmem, henv, hcn, hali⟩
  · intro n cand es hcur
    rcases w.visit_curSRA node with ⟨m, value, hop, hm, hsra⟩ | ⟨hno, hsra⟩
    · rw [hsra] at hcur
      have hrg : (s.step I node).regs = update s.regs (.fpr m) (value.vector s.env) := by
        simp [VState.step, hop]
      by_cases hnm : n = m
      · subst hnm
        rw [update_self] at hcur
        obtain ⟨t, ht, hpr⟩ := map_eq_some_iff.1 hcur
        obtain ⟨rfl, rfl⟩ : t.cand = cand ∧ t.es = es := by simpa using hpr
        -- the stored operand is the tracked value itself
        obtain ⟨id, rfl⟩ : ∃ id, value = .ssa id := by
          cases value <;> simp [trackedOfArg] at ht ⊢
        obtain ⟨-, henv, hcn, -⟩ := h.tracked id t ht
        have hcne := h.ne_of_tracked hid hcn
        rw [hrg, update_self, VState.step_env_of_ne I s hcne, w.visit_trackedOf_of_ne hcne]
        exact ⟨hm, henv, hcn⟩
      · rw [update_of_ne hnm] at hcur
        obtain ⟨hlt, hreg, hcn⟩ := h.sra n cand es hcur
        have hcne := h.ne_of_tracked hid hcn
        rw [hrg, update_of_ne (by simpa using hnm), VState.step_env_of_ne I s hcne,
          w.visit_trackedOf_of_ne hcne]
        exact ⟨hlt, hreg, hcn⟩
    · rw [hsra] at hcur
      obtain ⟨hlt, hreg, hcn⟩ := h.sra n cand es hcur
      have hcne := h.ne_of_tracked hid hcn
      have hrg : (s.step I node).regs (.fpr n) = s.regs (.fpr n) := by
        by_cases hst : ∃ reg value, node.op = .storeRegister reg value
        · obtain ⟨reg, value, hop⟩ := hst
          have hne : Reg.fpr n ≠ reg := by
            rintro rfl
            exact hno n value hop hlt
          simp [VState.step, hop, update_of_ne hne]
        · rw [step_regs I s fun reg value hop => hst ⟨reg, value, hop⟩]
      rw [hrg, VState.step_env_of_ne I s hcne, w.visit_trackedOf_of_ne hcne]
      exact ⟨hlt, hreg, hcn⟩

/-! ### The block after the pass -/

/-- The value is in splat form after the pass. -/
def Walk.Splat (w : Walk) (P : Plan) (id : ℕ) : Prop :=
  ∃ es, w.trackedOf id = some ⟨id, es, false⟩ ∧ P.marked id = true

structure Rel (P : Plan) (w : Walk) (s s' : VState σ) : Prop where
  regs : s'.regs = s.regs
  world : s'.world = s.world
  plain : ∀ id, id < P.ssaCount → ¬w.Splat P id → s'.env id = s.env id ∧ s'.splatForm id = none
  splat : ∀ id es, w.trackedOf id = some ⟨id, es, false⟩ → P.marked id = true →
    s'.env id = V128.splat es (V128.elem0 es (s.env id)) ∧ s'.splatForm id = some es ∧
      s'.env (P.mergeId id) = s.env id ∧ s'.splatForm (P.mergeId id) = none

/-- The new operand `a'` holds the value of `a`. -/
structure Full (s s' : VState σ) (a a' : Operand) : Prop where
  vector : a'.vector s'.env = a.vector s.env
  form : ∀ es, s'.isSplatFormValue a' es = false

/-- The new operand `a'` holds the element 0 of `a` in all lanes. -/
structure Splatted (es : ElementSize) (s s' : VState σ) (a a' : Operand) : Prop where
  vector : a'.vector s'.env = V128.splat es (V128.elem0 es (a.vector s.env))
  form : ∀ es', s'.isSplatFormValue a' es' = decide (es' = es)

/-- The walk has come to a node that is new and uses earlier values. -/
structure Before (P : Plan) (ids : List ℕ) (w : Walk) (node : VNode) (s s' : VState σ) : Prop where
  rel : Rel P w s s'
  follows : Follows ids w s
  bound : ∀ id ∈ ids, id < P.ssaCount
  args : ∀ a ∈ node.op.args, a.DefinedIn ids
  fresh : node.id ∉ ids
  lt : node.id < P.ssaCount
  plain : node.op.splatResult = false

theorem Rel.full_of_not_splat (h : Rel P w s s') (hb : ∀ id ∈ ids, id < P.ssaCount)
    (ha : a.DefinedIn ids) (hn : ∀ id, a = .ssa id → ¬w.Splat P id) : Full s s' a a := by
  cases a with
  | ssa id =>
    obtain ⟨henv, hfr⟩ := h.plain id (hb id ha) (hn id rfl)
    exact ⟨henv, fun es => by simp [isSplatFormValue, hfr]⟩
  | _ => exact ⟨rfl, fun _ => rfl⟩

theorem Rel.full_merge (h : Rel P w s s') (hf : Follows ids w s) {id : ℕ}
    (ht : w.trackedOf id = some t) (hm : P.marked t.cand = true) :
    Full s s' (.ssa id) (.ssa (P.mergeId t.cand)) := by
  obtain ⟨-, henv, hcn, -⟩ := hf.tracked id t ht
  obtain ⟨-, -, hmer, hfr⟩ := h.splat t.cand t.es hcn hm
  exact ⟨hmer.trans henv.symm, fun es => by simp [isSplatFormValue, hfr]⟩

/-- The argument `i` of a node after the pass. -/
def Plan.newArg (P : Plan) (w : Walk) (node : VNode) (i : ℕ) (a : Operand) : Operand :=
  P.retarget node i a ((w.register node).classify node.op i a)

/-- A retargeted argument holds the old value, or the use is an element-0 read whose consumer does
not merge it inline. -/
theorem Before.newArg_cases (h : Before P ids w node s s') {i : ℕ}
    (harg : node.op.args[i]? = some a) :
    Full s s' a (P.newArg w node i a) ∨ ∃ es, node.op.forwards i es = true ∧
        ¬(i = 0 ∧ node.op.isArith = true ∧ ¬P.isMarked node = true) ∧
        Splatted es s s' a (P.newArg w node i a) := by
  have ha := h.args a (mem_of_getElem? harg)
  have htr : (w.register node).trackedOfArg a = w.trackedOfArg a := by
    cases a with
    | ssa id => exact w.register_trackedOf_of_ne fun e => h.fresh (e ▸ ha)
    | _ => rfl
  unfold Plan.newArg classify
  rw [htr]
  split
  case h_1 hnn =>
    refine .inl (h.rel.full_of_not_splat h.bound ha ?_)
    rintro id rfl ⟨es, hs, -⟩
    exact some_ne_none _ (hs.symm.trans hnn)
  case h_2 t hsm =>
    obtain ⟨id, rfl⟩ : ∃ id, a = .ssa id := by
      cases a <;> simp [trackedOfArg] at hsm ⊢
    have ht : w.trackedOf id = some t := hsm
    obtain ⟨-, henv, hcn, hali⟩ := h.follows.tracked id t ht
    -- an unmarked candidate or an alias is not in splat form
    have hkp : (P.marked t.cand = false ∨ t.cand ≠ id ∨ t.isAlias = true) →
        Full s s' (.ssa id) (.ssa id) := by
      intro hor
      refine h.rel.full_of_not_splat h.bound ha ?_
      rintro id' he ⟨es, hs, hm⟩
      obtain rfl : id = id' := ssa.inj he
      obtain rfl : t = ⟨id, es, false⟩ := some.inj (ht.symm.trans hs)
      rcases hor with hor | hor | hor
      · exact false_ne_true (hor.symm.trans hm)
      · exact hor rfl
      · cases hor
    by_cases hfwd : node.op.forwards i t.es = true
    · rw [if_pos hfwd]
      unfold Plan.retarget
      by_cases hm : P.marked t.cand = true
      · simp only [hm, if_true]
        by_cases hdr : i = 0 ∧ node.op.isArith = true ∧ ¬P.isMarked node = true
        · rw [if_pos hdr]
          left
          split
          · exact h.rel.full_merge h.follows ht hm
          · rename_i hne
            exact hkp (.inr (.inl fun e => hne (by rw [e])))
        · rw [if_neg hdr]
          obtain ⟨hvec, hfr, -⟩ := h.rel.splat t.cand t.es hcn hm
          refine .inr ⟨t.es, hfwd, hdr, ?_, fun es' => ?_⟩
          · rw [vector, vector, hvec, henv]
          · simp only [isSplatFormValue, hfr]
            rw [Bool.eq_iff_iff, beq_iff_eq, decide_eq_true_eq, Option.some_inj, eq_comm]
      · simp only [hm]
        exact .inl (hkp (.inl (eq_false_iff.2 hm)))
    · rw [if_neg hfwd]
      left
      by_cases hal : t.isAlias = true
      · rw [if_pos hal]
        exact hkp (.inr (.inr hal))
      · rw [if_neg hal]
        unfold Plan.retarget
        by_cases hm : P.marked t.cand = true
        · simp only [hm]
          exact h.rel.full_merge h.follows ht hm
        · simp only [hm]
          exact hkp (.inl (eq_false_iff.2 hm))

theorem Follows.splatOperand (h : Follows ids w s) (es : ElementSize) (a : Operand) :
    s.splatOperand es a = splat es (elem0 es (a.vector s.env)) := by
  cases a <;> simp [VState.splatOperand, isSplatFormValue, h.orig]

theorem Full.splatOperand {a' : Operand} (h : Full s s' a a') (es : ElementSize) :
    s'.splatOperand es a' = splat es (elem0 es (a.vector s.env)) := by
  rw [VState.splatOperand, h.form, h.vector]
  rfl

theorem Splatted.splatOperand {a' : Operand} (h : Splatted es s s' a a') :
    s'.splatOperand es a' = splat es (elem0 es (a.vector s.env)) := by
  rw [VState.splatOperand, h.form, h.vector]
  simp

section

variable (h : Before P ids w node s s')
include h

/-- The element 0 of a retargeted operand that the lanes read. -/
theorem Before.lanes (i : ℕ) (es : ElementSize) (ha : node.op.args[i]? = some a)
    (hes : ∀ c, node.op.forwards i c = true → c = es) :
    s'.splatOperand es (P.newArg w node i a) = splat es (elem0 es (a.vector s.env)) := by
  rcases h.newArg_cases ha with hfl | ⟨c, hc, -, hspl⟩
  · exact hfl.splatOperand es
  · obtain rfl := hes c hc
    exact hspl.splatOperand

/-- An argument that no forward reaches keeps its value. -/
theorem Before.full_of_not_forwards (i : ℕ) (ha : node.op.args[i]? = some a)
    (hno : ∀ c, node.op.forwards i c = true → i = 0 ∧ node.op.isArith = true ∧
      ¬P.isMarked node = true) : Full s s' a (P.newArg w node i a) := by
  rcases h.newArg_cases ha with hfl | ⟨c, hc, hkp, -⟩
  · exact hfl
  · exact absurd (hno c hc) hkp

/-- A store of at most an element writes the same words from a retargeted value. -/
theorem Before.storedFPR {size : StoreSize} {value addr offset : Operand}
    (hop : node.op = .storeMem true size value addr offset) :
    s'.storedFPR size (P.newArg w node 0 value) = s.storedFPR size value := by
  have hor : ∀ es, s.isSplatFormValue value es = false := by
    intro es
    cases value <;> simp [isSplatFormValue, h.follows.orig]
  have harg : node.op.args[0]? = some value := by rw [hop]; rfl
  rcases h.newArg_cases harg with hfl | ⟨c, hc, -, hspl⟩
  · cases size <;> simp [VState.storedFPR, hfl.form, hfl.vector, hor]
  · have hle : size.bytes ≤ c.bytes := by
      simpa [hop, forwards] using hc
    cases size <;> cases c <;>
      simp [VState.storedFPR, hspl.vector, hor, StoreSize.low, splat,
        elem0, StoreSize.bytes, ElementSize.bytes] at hle ⊢

/-- The step of an unmarked node has the same effect before and after the pass. -/
theorem Before.step_same (hm : P.isMarked node = false) :
    let t := s.step I node
    let t' := s'.step I ⟨node.id, node.op.mapArgs (P.newArg w node)⟩
    t'.regs = t.regs ∧ t'.world = t.world ∧ t'.env node.id = t.env node.id ∧
      t'.splatForm node.id = none := by
  obtain ⟨henv, hfr⟩ : s'.env node.id = s.env node.id ∧ s'.splatForm node.id = none := by
    refine h.rel.plain node.id h.lt ?_
    rintro ⟨es, hs, -⟩
    rw [h.follows.not_mem h.fresh] at hs
    cases hs
  obtain ⟨id, op⟩ := node
  have hor := fun es a => h.follows.splatOperand es a
  cases op with
  | arith op size es zeroUpperBits splatResult vector1 vector2 =>
    obtain rfl : splatResult = false := h.plain
    have h1 := h.lanes 0 es rfl fun c hc => by simp [forwards] at hc; simp [hc]
    have h2 := h.lanes 1 es rfl fun c hc => by simp [forwards] at hc; simp [hc]
    have hu := h.full_of_not_forwards 0 rfl fun c hc => ⟨rfl, rfl, by simp [hm]⟩
    simp [VState.step, mapArgs, defineScalar, define, h1, h2, hu.vector,
      hor, h.rel.regs, h.rel.world]
  | fma op size es splatResult upper vector1 vector2 addend =>
    obtain rfl : splatResult = false := h.plain
    have h1 := h.lanes 1 es rfl fun c hc => by simp [forwards] at hc; simp [hc]
    have h2 := h.lanes 2 es rfl fun c hc => by simp [forwards] at hc; simp [hc]
    have h3 := h.lanes 3 es rfl fun c hc => by simp [forwards] at hc; simp [hc]
    have hu := h.full_of_not_forwards 0 rfl fun c hc => by simp [forwards] at hc
    simp [VState.step, mapArgs, defineScalar, define, h1, h2, h3, hu.vector,
      hor, h.rel.regs, h.rel.world]
  | minMax op es vector1 vector2 =>
    have hu := h.full_of_not_forwards 0 rfl fun c hc => by simp [forwards] at hc
    have h2 : elem0 es ((P.newArg w ⟨id, .minMax op es vector1 vector2⟩ 1 vector2).vector
        s'.env) = elem0 es (vector2.vector s.env) := by
      rcases h.newArg_cases (i := 1) rfl with hfl | ⟨c, hc, -, hspl⟩
      · rw [hfl.vector]
      · obtain rfl : es = c := by simpa [forwards] using hc
        rw [hspl.vector, elem0_splat]
    simp [VState.step, mapArgs, define, hu.vector, h2, h.rel.regs, h.rel.world]
  | vInsElement es destVector srcVector =>
    have hd := h.full_of_not_forwards 0 rfl fun c hc => by simp [forwards] at hc
    have hs := h.full_of_not_forwards 1 rfl fun c hc => by simp [forwards] at hc
    simp [VState.step, mapArgs, define, hd.vector, hs.vector, h.rel.regs, h.rel.world]
  | storeMem isFPR size value addr offset =>
    have ha := h.full_of_not_forwards 1 rfl fun c hc => by simp [forwards] at hc
    have ho := h.full_of_not_forwards 2 rfl fun c hc => by simp [forwards] at hc
    cases isFPR with
    | true =>
      have hv := h.storedFPR rfl
      simp [VState.step, mapArgs, hv, ha.vector, ho.vector, h.rel.regs, h.rel.world, henv, hfr]
    | false =>
      have hv := h.full_of_not_forwards 0 rfl fun c hc => by simp [forwards] at hc
      simp [VState.step, mapArgs, hv.vector, ha.vector, ho.vector, h.rel.regs, h.rel.world, henv,
        hfr]
  | storeRegister reg value =>
    have hv := h.full_of_not_forwards 0 rfl fun c hc => by simp [forwards] at hc
    simp [VState.step, mapArgs, hv.vector, h.rel.regs, h.rel.world, henv, hfr]
  | loadRegister reg =>
    simp [VState.step, mapArgs, define, h.rel.regs, h.rel.world]
  | other code args =>
    have hmap : (args.mapIdx (P.newArg w ⟨id, .other code args⟩)).map (Operand.vector s'.env) =
        args.map (Operand.vector s.env) := by
      refine ext_getElem (by simp) fun i h1 h2 => ?_
      have hi : i < args.length := by simpa using h2
      have hv := h.full_of_not_forwards i (a := args[i]) (by simp [VectorOp.args]) fun c hc => by
        simp [forwards] at hc
      simpa using hv.vector
    simp [VState.step, mapArgs, define, hmap, h.rel.regs, h.rel.world]

end

theorem Walk.splat_visit_iff (w : Walk) {id : ℕ} (hne : id ≠ node.id) :
    (w.visit node).Splat P id ↔ w.Splat P id := by
  unfold Splat
  rw [w.visit_trackedOf_of_ne hne]

section

variable (h : Before P ids w node s s')
include h

theorem Before.visit_unmarked (hm : P.isMarked node = false) : Rel P (w.visit node) (s.step I node)
      (s'.step I ⟨node.id, node.op.mapArgs (P.newArg w node)⟩) := by
  obtain ⟨hrg, hwor, henv, hfr⟩ := h.step_same I hm
  have hnot : ¬(w.visit node).Splat P node.id := by
    rintro ⟨es, hs, hmr⟩
    rcases w.visit_trackedOf_self (h.follows.not_mem h.fresh) hs with
      ⟨es', hel, -⟩ | ⟨n, c, es', -, -, ht⟩
    · simp [Plan.isMarked, hel, hmr] at hm
    · cases ht
  have hfra : ∀ i, i ≠ node.id →
      (s'.step I ⟨node.id, node.op.mapArgs (P.newArg w node)⟩).env i = s'.env i :=
    fun i hi => VState.step_env_of_ne I s' hi
  have hfra' : ∀ i, i ≠ node.id →
      (s'.step I ⟨node.id, node.op.mapArgs (P.newArg w node)⟩).splatForm i = s'.splatForm i :=
    fun i hi => step_splatForm_of_ne I s' hi
  refine ⟨hrg, hwor, fun i hi hn => ?_, fun i es hs hmr => ?_⟩
  · by_cases hne : i = node.id
    · rw [hne]
      exact ⟨henv, hfr⟩
    · rw [hfra i hne, VState.step_env_of_ne I s hne, hfra' i hne]
      exact h.rel.plain i hi fun hs => hn ((w.splat_visit_iff hne).2 hs)
  · have hne : i ≠ node.id := by
      rintro rfl
      exact hnot ⟨es, hs, hmr⟩
    rw [w.visit_trackedOf_of_ne hne] at hs
    have hlt := h.lt
    have hmne : P.mergeId i ≠ node.id := by
      unfold Plan.mergeId
      omega
    rw [hfra i hne, VState.step_env_of_ne I s hne, hfra' i hne, hfra _ hmne, hfra' _ hmne]
    exact h.rel.splat i es hs hmr

/-- A candidate computes one element, and leaves it inserted in its lineage or in all lanes. -/
theorem Before.step_candidate (hel : node.op.eligible = some es) : ∃ e : Elem es,
      s.step I node = s.define node.id (insert0 es (node.op.lineage.vector s.env) e) none ∧
      s'.step I ⟨node.id, (node.op.mapArgs (P.newArg w node)).setSplatResult⟩ =
        s'.define node.id (splat es e) (some es) := by
  obtain ⟨id, op⟩ := node
  have hor := fun es a => h.follows.splatOperand es a
  cases op with
  | arith op size es' zeroUpperBits splatResult vector1 vector2 =>
    obtain rfl : splatResult = false := h.plain
    obtain rfl : es' = es := by
      cases size <;> cases zeroUpperBits <;> simp [eligible] at hel
      exact hel
    have h1 := h.lanes 0 es' rfl fun c hc => by simp [forwards] at hc; simp [hc]
    have h2 := h.lanes 1 es' rfl fun c hc => by simp [forwards] at hc; simp [hc]
    refine ⟨I.arith op es' (elem0 es' (vector1.vector s.env))
      (elem0 es' (vector2.vector s.env)), ?_, ?_⟩
    · simp [VState.step, defineScalar, lineage, hor]
    · simp [VState.step, defineScalar, mapArgs, setSplatResult, h1, h2]
  | fma op size es' splatResult upper vector1 vector2 addend =>
    obtain rfl : splatResult = false := h.plain
    obtain rfl : es' = es := by
      cases size <;> simp [eligible] at hel
      exact hel
    have h1 := h.lanes 1 es' rfl fun c hc => by simp [forwards] at hc; simp [hc]
    have h2 := h.lanes 2 es' rfl fun c hc => by simp [forwards] at hc; simp [hc]
    have h3 := h.lanes 3 es' rfl fun c hc => by simp [forwards] at hc; simp [hc]
    refine ⟨I.fma op es' (elem0 es' (vector1.vector s.env))
      (elem0 es' (vector2.vector s.env)) (elem0 es' (addend.vector s.env)), ?_, ?_⟩
    · simp [VState.step, defineScalar, lineage, hor]
    · simp [VState.step, defineScalar, mapArgs, setSplatResult, h1, h2, h3]
  | _ => simp [eligible] at hel

/-- The merge takes its upper elements from the architectural value of the lineage. -/
theorem Before.lineageOperand (ha : node.op.lineage.DefinedIn ids)
    (hfin : P.trackedOf node.op.lineage = w.trackedOfArg node.op.lineage) (v : V128)
    (form : Option ElementSize) :
    (P.lineageOperand node.op).vector (s'.define node.id v form).env =
      node.op.lineage.vector s.env := by
  have hfra : ∀ a : Operand, a ≠ .ssa node.id →
      a.vector (s'.define node.id v form).env = a.vector s'.env := by
    intro a hne
    cases a with
    | ssa i =>
      have hi : i ≠ node.id := fun e => hne (by rw [e])
      simp [vector, define, hi]
    | _ => rfl
  have hsl : node.op.lineage ≠ .ssa node.id := by
    intro e
    rw [e] at ha
    exact h.fresh ha
  unfold Plan.lineageOperand
  rw [hfin]
  split
  case h_1 cand es hsm =>
    obtain ⟨id, hl⟩ : ∃ id, node.op.lineage = .ssa id := by
      revert hsm
      cases node.op.lineage <;> simp [trackedOfArg]
    rw [hl] at hsm ha hsl ⊢
    obtain ⟨-, -, hcn, hali⟩ := h.follows.tracked id _ hsm
    obtain rfl : cand = id := hali rfl
    split
    · rename_i hm
      have hlt := h.lt
      have hne : ssa (P.mergeId cand) ≠ .ssa node.id := by
        simp only [ne_eq, ssa.injEq, Plan.mergeId]
        omega
      rw [hfra _ hne]
      exact (h.rel.full_merge h.follows hsm hm).vector
    · rename_i hm
      rw [hfra _ hsl]
      refine (h.rel.full_of_not_splat h.bound ha ?_).vector
      rintro i he ⟨es', -, hm'⟩
      obtain rfl : cand = i := ssa.inj he
      exact hm hm'
  case h_2 hno =>
    rw [hfra _ hsl]
    refine (h.rel.full_of_not_splat h.bound ha ?_).vector
    rintro i he ⟨es', hs, -⟩
    rw [he] at hno
    exact hno i es' hs

theorem Before.lineage_definedIn : node.op.lineage.DefinedIn ids := by
  cases hop : node.op with
  | arith => exact h.args _ (by simp [VectorOp.args, lineage, hop])
  | fma => exact h.args _ (by simp [VectorOp.args, lineage, hop])
  | _ => trivial

theorem Before.visit_marked (hel : node.op.eligible = some es) (hmr : P.marked node.id = true)
    (hfin : P.trackedOf node.op.lineage = w.trackedOfArg node.op.lineage) :
    Rel P (w.visit node) (s.step I node)
      ((s'.step I ⟨node.id, (node.op.mapArgs (P.newArg w node)).setSplatResult⟩).step I
        ⟨P.mergeId node.id, .vInsElement es (P.lineageOperand node.op) (.ssa node.id)⟩) := by
  obtain ⟨e, hst, hst'⟩ := h.step_candidate I hel
  have hmer := h.lineageOperand h.lineage_definedIn hfin (splat es e) (some es)
  have hlt := h.lt
  have hsma : ∀ i, i < P.ssaCount → i ≠ P.mergeId node.id := by
    intro i hi
    unfold Plan.mergeId
    omega
  -- the two states, written out
  have hval : (s'.define node.id (splat es e) (some es)).step I
      ⟨P.mergeId node.id, .vInsElement es (P.lineageOperand node.op) (.ssa node.id)⟩ =
      (s'.define node.id (splat es e) (some es)).define (P.mergeId node.id)
        (insert0 es (node.op.lineage.vector s.env) e) none := by
    simp only [VState.step, hmer]
    simp [vector, define]
  rw [hst, hst', hval]
  refine ⟨h.rel.regs, h.rel.world, fun i hi hn => ?_, fun i es' hs hm => ?_⟩
  · have hne : i ≠ node.id := by
      rintro rfl
      exact hn ⟨es, w.visit_trackedOf_eligible hel, hmr⟩
    have hpl := h.rel.plain i hi fun hs => hn ((w.splat_visit_iff hne).2 hs)
    simpa [define, hne, hsma i hi] using hpl
  · by_cases hne : i = node.id
    · subst hne
      rw [w.visit_trackedOf_eligible hel] at hs
      obtain rfl : es = es' := by simpa using hs
      simp [define, hsma _ hlt]
    · rw [w.visit_trackedOf_of_ne hne] at hs
      have hi := h.bound i (h.follows.tracked i _ hs).1
      have hmi : P.mergeId i ≠ node.id := by
        unfold Plan.mergeId
        omega
      have hmm : P.mergeId i ≠ P.mergeId node.id := by
        unfold Plan.mergeId
        omega
      simpa [define, hne, hsma i hi, hmi, hmm] using h.rel.splat i es' hs hm

end

def Plan.newOp (P : Plan) (w : Walk) (node : VNode) : VectorOp :=
  if P.isMarked node then (node.op.mapArgs (P.newArg w node)).setSplatResult
  else node.op.mapArgs (P.newArg w node)

/-- An operation sees of a retargeted argument what it would see of the old one. -/
theorem Before.view (h : Before P ids w node s s') {i : ℕ} (ha : node.op.args[i]? = some a) :
    (P.newOp w node).view i ((P.newArg w node i a).vector s'.env) =
      (P.newOp w node).view i (a.vector s.env) := by
  rcases h.newArg_cases ha with hfl | ⟨es, hfwd, hkp, hspl⟩
  · rw [hfl.vector]
  · obtain ⟨id, op⟩ := node
    rw [hspl.vector]
    unfold Plan.newOp
    cases op with
    | arith op size es' zeroUpperBits splatResult vector1 vector2 =>
      simp only [forwards, and_eq_true, beq_iff_eq, or_eq_true] at hfwd
      obtain ⟨rfl, ⟨rfl, -⟩ | rfl⟩ := hfwd
      · -- the use was kept, so this consumer has no inline merge
        have hm : P.isMarked ⟨id, .arith op size es' zeroUpperBits splatResult vector1 vector2⟩ =
            true := by
          by_contra hm
          exact hkp ⟨rfl, rfl, hm⟩
        simp [hm, mapArgs, setSplatResult, view]
      · split <;> simp [mapArgs, setSplatResult, view]
    | fma op size es' splatResult upper vector1 vector2 addend =>
      simp only [forwards, and_eq_true, beq_iff_eq, or_eq_true] at hfwd
      obtain ⟨rfl, (rfl | rfl) | rfl⟩ := hfwd <;> split <;>
        simp [mapArgs, setSplatResult, view]
    | minMax op es' vector1 vector2 =>
      simp only [forwards, and_eq_true, beq_iff_eq] at hfwd
      obtain ⟨rfl, rfl⟩ := hfwd
      split <;> simp [mapArgs, setSplatResult, view]
    | storeMem isFPR size value addr offset =>
      simp only [forwards, and_eq_true, beq_iff_eq] at hfwd
      obtain ⟨⟨rfl, rfl⟩, hle⟩ := hfwd
      have hlow : size.low (splat es (elem0 es (a.vector s.env))) = size.low (a.vector s.env) := by
        cases size <;> cases es <;>
          simp [StoreSize.low, splat, elem0, StoreSize.bytes, ElementSize.bytes] at hle ⊢
      split <;> simp [mapArgs, setSplatResult, view, hlow]
    | _ => simp [forwards] at hfwd

end Step

/-! ### Whole blocks -/

variable {nodes : List VNode}

theorem mapArgs_congr {f g : ℕ → Operand → Operand} {op : VectorOp}
    (h : ∀ i a, op.args[i]? = some a → f i a = g i a) : op.mapArgs f = op.mapArgs g := by
  cases op with
  | other code args =>
    have hmap : args.mapIdx f = args.mapIdx g := by
      refine ext_getElem (by simp) fun i h1 h2 => ?_
      have hi : i < args.length := by simpa using h1
      simpa using h i args[i] (by simp [VectorOp.args])
    rw [mapArgs, mapArgs, hmap]
  | fma =>
    simp [mapArgs, h 0 _ rfl, h 1 _ rfl, h 2 _ rfl, h 3 _ rfl]
  | storeMem => simp [mapArgs, h 0 _ rfl, h 1 _ rfl, h 2 _ rfl]
  | storeRegister => simp [mapArgs, h 0 _ rfl]
  | loadRegister => rfl
  | _ => simp [mapArgs, h 0 _ rfl, h 1 _ rfl]

/-- The recorded uses of a node retarget its arguments one by one. -/
theorem Plan.rewrite_eq (P : Plan) (w : Walk) (node : VNode) :
    P.rewrite node (node.op.args.mapIdx ((w.register node).classify node.op)) =
      ⟨node.id, P.newOp w node⟩ := by
  have hmap : (node.op.mapArgs fun i a => P.retarget node i a
      ((node.op.args.mapIdx ((w.register node).classify node.op)).getD i .keep)) =
      node.op.mapArgs (P.newArg w node) := by
    refine mapArgs_congr fun i a ha => ?_
    rw [getD_eq_getElem?_getD, List.getElem?_mapIdx, ha]
    rfl
  unfold Plan.rewrite Plan.newOp
  rw [hmap]

theorem Walk.analyse_trackedOf {ids : List ℕ} {w : Walk} (hssa : Ssa args ids nodes)
    {id : ℕ} (hid : id ∈ ids) : (w.analyse nodes).2.trackedOf id = w.trackedOf id := by
  induction nodes generalizing ids w with
  | nil => rfl
  | cons node nodes ih =>
    obtain ⟨-, hfre, hrs⟩ := hssa
    have hne : id ≠ node.id := fun e => hfre (e ▸ hid)
    exact (ih hrs (mem_cons_of_mem _ hid)).trans (w.visit_trackedOf_of_ne hne)

theorem Walk.analyse_trackedOfArg {ids : List ℕ} {w : Walk} (hssa : Ssa args ids nodes)
    (ha : a.DefinedIn ids) : (w.analyse nodes).2.trackedOfArg a = w.trackedOfArg a := by
  cases a with
  | ssa id => exact analyse_trackedOf hssa ha
  | _ => rfl

/-- What a node sees before and after the pass. -/
structure Sees {σ : Type*} (node node' : VNode) (s s' : VState σ) : Prop where
  id : node'.id = node.id
  /-- Only the arguments and the `SplatResult` bit differ. -/
  op : ∃ f, node'.op = node.op.mapArgs f ∨ node'.op = (node.op.mapArgs f).setSplatResult
  regs : s'.regs = s.regs
  world : s'.world = s.world
  view : ∀ (i : ℕ) (a a' : Operand), node.op.args[i]? = some a → node'.op.args[i]? = some a' →
    node'.op.view i (a'.vector s'.env) = node'.op.view i (a.vector s.env)

theorem Before.sees {σ : Type*} {ids : List ℕ} {w : Walk} {s s' : VState σ} {node : VNode}
    {P : Plan} (h : Before P ids w node s s') : Sees node ⟨node.id, P.newOp w node⟩ s s' := by
  have har' : (P.newOp w node).args = node.op.args.mapIdx (P.newArg w node) := by
    rw [← args_mapArgs]
    unfold Plan.newOp
    split
    · cases node.op <;> rfl
    · rfl
  refine ⟨rfl, ⟨P.newArg w node, ?_⟩, h.rel.regs, h.rel.world, fun i a a' ha ha' => ?_⟩
  · simp only [Plan.newOp]
    split
    · exact .inr rfl
    · exact .inl rfl
  · simp only [har', List.getElem?_mapIdx, ha, map_some, some.injEq] at ha'
    rw [← ha']
    exact h.view ha

section Blocks

variable {w : Walk}

variable {σ : Type*} (I : VInterp σ)

/-- One node and what stands for it. -/
theorem Before.apply {ids : List ℕ} {s s' : VState σ} {node : VNode} {P : Plan}
    (h : Before P ids w node s s')
    (hfin : ∀ a : Operand, a.DefinedIn ids → P.trackedOf a = w.trackedOfArg a) :
    ∃ post, P.apply node (node.op.args.mapIdx ((w.register node).classify node.op)) =
        ⟨node.id, P.newOp w node⟩ :: post ∧
      Rel P (w.visit node) (s.step I node) (s'.run I (⟨node.id, P.newOp w node⟩ :: post)) := by
  have hunm : P.isMarked node = false →
      Rel P (w.visit node) (s.step I node) (s'.run I [⟨node.id, P.newOp w node⟩]) := by
    intro hm
    have hop : P.newOp w node = node.op.mapArgs (P.newArg w node) := by
      simp [Plan.newOp, hm]
    rw [hop]
    exact h.visit_unmarked I hm
  unfold Plan.apply
  rw [P.rewrite_eq w node]
  split
  case h_1 es hel =>
    split
    · rename_i hmr
      have hop : P.newOp w node = (node.op.mapArgs (P.newArg w node)).setSplatResult := by
        simp [Plan.newOp, Plan.isMarked, hel, hmr]
      refine ⟨_, rfl, ?_⟩
      rw [hop]
      exact h.visit_marked I hel hmr (hfin _ h.lineage_definedIn)
    · rename_i hmr
      exact ⟨[], rfl, hunm (by simp [Plan.isMarked, hmr])⟩
  case h_2 hel => exact ⟨[], rfl, hunm (by simp [Plan.isMarked, hel])⟩

/-- The two blocks stay related, and every node sees the same. -/
theorem Rel.run {P : Plan} {ids : List ℕ} {s s' : VState σ} (h : Rel P w s s')
    (hf : Follows ids w s) (hb : ∀ id ∈ ids, id < P.ssaCount) (hssa : Ssa args ids nodes)
    (hlt : ∀ node ∈ nodes, node.id < P.ssaCount)
    (hpla : ∀ node ∈ nodes, node.op.splatResult = false)
    (hfin : P.trackedOf = (w.analyse nodes).2.trackedOfArg) :
    Rel P (w.analyse nodes).2 (s.run I nodes)
        (s'.run I ((w.analyse nodes).1.flatMap fun r => P.apply r.1 r.2)) ∧
      ∀ (k : ℕ) (node : VNode), nodes[k]? = some node → ∃ pre node' post,
        ((w.analyse nodes).1.flatMap fun r => P.apply r.1 r.2) = pre ++ node' :: post ∧
          Sees node node' (s.run I (nodes.take k)) (s'.run I pre) := by
  induction nodes generalizing ids w s s' with
  | nil => exact ⟨h, fun k node hk => by simp at hk⟩
  | cons node nodes ih =>
    have hall := hssa
    obtain ⟨har, hid, hrs⟩ := hssa
    have hnlt := hlt node mem_cons_self
    have hnpl := hpla node mem_cons_self
    have hbef : Before P ids w node s s' := ⟨h, hf, hb, har, hid, hnlt, hnpl⟩
    obtain ⟨post, happ, hrel⟩ := hbef.apply I fun a ha => by
      rw [hfin]
      exact analyse_trackedOfArg hall ha
    obtain ⟨hend, hnod⟩ := ih hrel (hf.visit I hid hnpl) (by
        intro i hi
        rcases mem_cons.1 hi with rfl | hi
        · exact hnlt
        · exact hb i hi)
      hrs (fun n hn => hlt n (mem_cons_of_mem _ hn))
      (fun n hn => hpla n (mem_cons_of_mem _ hn)) hfin
    have hout : ((w.analyse (node :: nodes)).1.flatMap fun r => P.apply r.1 r.2) =
        (⟨node.id, P.newOp w node⟩ :: post) ++
          (((w.visit node).analyse nodes).1.flatMap fun r => P.apply r.1 r.2) := by
      rw [← happ]
      rfl
    have hrun : ∀ l, s'.run I ((⟨node.id, P.newOp w node⟩ :: post) ++ l) =
        (s'.run I (⟨node.id, P.newOp w node⟩ :: post)).run I l := by
      intro l
      exact foldl_append
    rw [hout]
    refine ⟨?_, fun k n hk => ?_⟩
    · rw [hrun]
      exact hend
    · cases k with
      | zero =>
        obtain rfl : node = n := by simpa using hk
        exact ⟨[], _, _, rfl, hbef.sees⟩
      | succ k =>
        obtain ⟨pre, node', post', heq, hs⟩ := hnod k n (by simpa using hk)
        refine ⟨(⟨node.id, P.newOp w node⟩ :: post) ++ pre, node', post', ?_, ?_⟩
        · rw [heq, append_assoc]
        · rw [hrun]
          exact hs

/-- A value that is tracked without an alias is its own candidate. -/
def Walk.Direct (w : Walk) : Prop :=
  ∀ id t, w.trackedOf id = some t → t.isAlias = false → t.cand = id

theorem Walk.Direct.track (h : w.Direct) {id : ℕ} (ht : t.isAlias = false → t.cand = id) :
    (w.track id t).Direct := by
  intro i u hu hali
  by_cases hi : i = id
  · subst hi
    obtain rfl : t = u := by simpa [Walk.track] using hu
    exact ht hali
  · exact h i u (by simpa [Walk.track, hi] using hu) hali

theorem Walk.Direct.register (h : w.Direct) (node : VNode) : (w.register node).Direct := by
  unfold Walk.register
  split
  · exact h.track fun _ => rfl
  · exact h

theorem Walk.Direct.visit (h : w.Direct) (node : VNode) : (w.visit node).Direct := by
  have hfl : (node.op.args.foldl countUse (w.register node)).Direct := by
    unfold Direct
    rw [foldl_countUse_trackedOf]
    exact h.register node
  unfold Walk.visit updateCache
  split
  · split <;> exact hfl
  · split
    · split
      · exact hfl.track fun hf => Bool.noConfusion hf
      · exact hfl
    · exact hfl

/-- The walk counts no use that is not there. -/
theorem Walk.foldl_countUse_le (args : List Operand) (h : w.Direct) (id : ℕ) :
    (args.foldl countUse w).candUsesSeen id ≤ w.candUsesSeen id + args.count (.ssa id) := by
  induction args generalizing w with
  | nil => simp
  | cons a args ih =>
    have hnx : (w.countUse a).Direct := by
      unfold countUse
      split <;> exact h
    have hone : (w.countUse a).candUsesSeen id ≤
        w.candUsesSeen id + if a = .ssa id then 1 else 0 := by
      unfold countUse
      split
      · rename_i cand es heq
        obtain ⟨i, rfl⟩ : ∃ i, a = .ssa i := by
          cases a <;> simp [trackedOfArg] at heq ⊢
        obtain rfl : cand = i := h i _ heq rfl
        by_cases hid : id = cand
        · simp [hid]
        · simp [hid]
      · exact Nat.le_add_right _ _
    have hrs := ih hnx
    rw [foldl_cons, count_cons]
    simp only [beq_iff_eq]
    omega

theorem Walk.analyse_candUsesSeen_le (h : w.Direct) (nodes : List VNode) (id : ℕ) :
    (w.analyse nodes).2.candUsesSeen id ≤ w.candUsesSeen id + usesIn nodes id := by
  induction nodes generalizing w with
  | nil => simp [analyse]
  | cons node nodes ih =>
    have hvis : (w.visit node).candUsesSeen id ≤
        w.candUsesSeen id + node.op.args.count (.ssa id) := by
      have hreg : (w.register node).candUsesSeen = w.candUsesSeen := by
        unfold register
        split <;> rfl
      have hcac : (w.visit node).candUsesSeen =
          (node.op.args.foldl countUse (w.register node)).candUsesSeen := by
        unfold visit updateCache
        split
        · split <;> rfl
        · split
          · split <;> rfl
          · rfl
      rw [hcac, ← hreg]
      exact foldl_countUse_le _ (h.register node) id
    have hrs := ih (h.visit node)
    have hus : usesIn (node :: nodes) id = node.op.args.count (.ssa id) + usesIn nodes id := by
      simp [usesIn]
    have hend : (w.analyse (node :: nodes)).2 = ((w.visit node).analyse nodes).2 := rfl
    rw [hend, hus]
    omega

/-- **Scalar splat chains never leak the splat form.**  For every block, from every state and for
every meaning of the lanes: each node of the block stands in the new block with the same registers
and memory before it, and sees of each of its arguments exactly what it saw before the pass.  At the
end of the block the registers, the memory and the values that other blocks use are the same. -/
theorem splatChain_sound {ssaCount : ℕ} {ids : List ℕ} {nodes : List VNode} (ext : ℕ → ℕ)
    (hssa : Ssa args ids nodes) (hids : ∀ id ∈ ids, id < ssaCount)
    (hlt : ∀ node ∈ nodes, node.id < ssaCount)
    (hplain : ∀ node ∈ nodes, node.op.splatResult = false) (s : VState σ)
    (hs : ∀ id, s.splatForm id = none) :
    (∀ (k : ℕ) (node : VNode), nodes[k]? = some node → ∃ pre node' post,
      splatChain ssaCount ext nodes = pre ++ node' :: post ∧
        Sees node node' (s.run I (nodes.take k)) (s.run I pre)) ∧
      (s.run I (splatChain ssaCount ext nodes)).regs = (s.run I nodes).regs ∧
      (s.run I (splatChain ssaCount ext nodes)).world = (s.run I nodes).world ∧
      (∀ id, id < ssaCount → ext id ≠ 0 →
        (s.run I (splatChain ssaCount ext nodes)).env id = (s.run I nodes).env id) := by
  have hrel : Rel (splatPlan ssaCount ext nodes) start s s :=
    ⟨rfl, rfl, fun id _ _ => ⟨rfl, hs id⟩, fun id es h => (nomatch h)⟩
  have hf : Follows ids start s :=
    ⟨hs, fun id t h => (nomatch h), fun n c es h => (nomatch h)⟩
  obtain ⟨hend, hss⟩ := hrel.run I hf hids hssa hlt hplain rfl
  refine ⟨hss, hend.regs, hend.world, fun id hid hext => (hend.plain id hid ?_).1⟩
  -- a marked candidate has all its uses in the block
  rintro ⟨es, -, hm⟩
  have hsn := of_decide_eq_true hm
  have hdir : start.Direct := fun id t h => (nomatch h)
  have hle := analyse_candUsesSeen_le hdir nodes id
  have hzr : start.candUsesSeen id = 0 := rfl
  omega

/-- `mulss xmm0, xmm2; addss xmm1, xmm0; movss [mem], xmm1` with the flush after each
instruction. -/
def mulAddBlock : List VNode :=
  [⟨3, .arith .mul .i128 .i32 false false (.ssa 0) (.ssa 2)⟩, ⟨4, .storeRegister (.fpr 0) (.ssa 3)⟩,
    ⟨5, .loadRegister (.fpr 0)⟩, ⟨6, .arith .add .i128 .i32 false false (.ssa 1) (.ssa 5)⟩,
    ⟨7, .storeRegister (.fpr 1) (.ssa 6)⟩, ⟨8, .loadRegister (.fpr 1)⟩,
    ⟨9, .storeMem true .i32 (.ssa 8) (.inlineConstant 0#64) .invalid⟩]

-- the sum reads the splat form of the product, the register gets the merge
example : (splatChain 10 (fun _ => 0) mulAddBlock).take 5 =
    [⟨3, .arith .mul .i128 .i32 false true (.ssa 0) (.ssa 2)⟩,
      ⟨13, .vInsElement .i32 (.ssa 0) (.ssa 3)⟩, ⟨4, .storeRegister (.fpr 0) (.ssa 13)⟩,
      ⟨5, .loadRegister (.fpr 0)⟩,
      ⟨6, .arith .add .i128 .i32 false true (.ssa 1) (.ssa 3)⟩] := by decide

/-- Lanes that return their first operand, over a memory that is the last store. -/
def firstLanes : VInterp (List (BitVec 32)) where
  arith _ _ a _ := a
  fma _ _ a _ _ := a
  minMax _ _ a _ := a
  store words _ _ _ := words
  exec _ _ m := (⟨0#32, 0#32, 0#32, 0#32⟩, m)

def mulAddState : VState (List (BitVec 32)) where
  env id := ⟨BitVec.ofNat 32 id, 7#32, 8#32, 9#32⟩
  splatForm _ := none
  regs _ := ⟨0#32, 0#32, 0#32, 0#32⟩
  world := []

theorem splatChain_sound_mulAddBlock :
    (mulAddState.run firstLanes (splatChain 10 (fun _ => 0) mulAddBlock)).regs =
        (mulAddState.run firstLanes mulAddBlock).regs ∧
      (mulAddState.run firstLanes mulAddBlock).world = [1#32] :=
  ⟨(splatChain_sound firstLanes (fun _ => 0)
      (by decide : Ssa args [0, 1, 2] mulAddBlock) (by decide) (by decide) (by decide)
      mulAddState (fun _ => rfl)).2.1, by decide⟩

end Blocks

end FastPPC.Ir
