import FastPPC.Ir.Block

/-!
# Compare-branch fusion

`CompareBranchFusion` turns a branch or a select on the packed flags into a direct compare when the
flags come from a `SubWithFlags` of the same block.  It scans the block forwards and remembers the
last node that wrote flags.  A carry splice (the load of that node's flags, a `Bfi` of bit 29 and a
store) keeps the writer for the conditions that do not read the carry.

* `Scan.rewrite`, `Scan.visit` : what the scan does at one node;
* `Inv` : the flags of the state are those of the remembered subtraction;
* `fuse_run` : the block does the same before and after the pass.
-/

namespace FastPPC.Ir

open List Option

def CondClass.readsCarry : CondClass → Bool
  | .uge | .ult | .ugt | .ule => true
  | _ => false

def Operand.isRegisterOperand : Operand → Bool
  | .ssa _ => true
  | _ => false

def Operand.isUsableOperand : Operand → Bool
  | .ssa _ | .inlineConstant _ => true
  | _ => false

/-- Whether a select can materialise the operand with `li`. -/
def Operand.fitsLi : Operand → Bool
  | .invalid | .inlineEntrypointOffset _ => false
  | .inlineConstant constant => decide (-32768 ≤ constant.toInt ∧ constant.toInt ≤ 32767)
  | _ => true

/-- `ResolveFusedCond`: a sign test becomes a signed compare only against a literal zero. -/
def resolveFusedCond (src2 : Operand) (cond : CondClass) : Option CondClass :=
  if cond = .mi ∨ cond = .pl then
    if src2 = .inlineConstant 0#64 then
      some (if cond = .mi then .slt else .sge)
    else none
  else if cond.isFusable then some cond
  else none

/-- What the scan remembers at a node of the block. -/
structure Scan where
  /-- The nodes so far, the newest first. -/
  defs : List Node
  producer : Option Node
  carryValid : Bool
  lastLoadNZCV : Option ℕ
  lastLoadNZCVProducer : Option Node

def Scan.start : Scan := ⟨[], none, true, none, none⟩

/-- The compare that answers a condition on the flags, if the remembered writer allows it. -/
def Scan.fused (st : Scan) (cond : CondClass) :
    Option (CompareSize × CondClass × Operand × Operand) :=
  match st.producer with
  | some ⟨_, .subWithFlags size src1 src2⟩ =>
    if src1.isRegisterOperand && src2.isUsableOperand then
      match resolveFusedCond src2 cond with
      | some fused =>
        if st.carryValid || !fused.readsCarry then some (size, fused, src1, src2) else none
      | none => none
    else none
  | _ => none

/-- The operation that replaces the one under the scan. -/
def Scan.rewrite (st : Scan) : Op → Op
  | .nzcvSelect size cond trueVal falseVal =>
    match st.fused cond with
    | some (compareSize, fused, cmp1, cmp2) =>
      if trueVal.fitsLi && falseVal.fitsLi then
        .select size compareSize fused cmp1 cmp2 trueVal falseVal
      else .nzcvSelect size cond trueVal falseVal
    | none => .nzcvSelect size cond trueVal falseVal
  | .condJumpNZCV cond =>
    match st.fused cond with
    | some (compareSize, fused, cmp1, cmp2) => .condJump compareSize fused cmp1 cmp2
    | none => .condJumpNZCV cond
  | op => op

/-- The operation that defines an operand. -/
def Scan.definition (st : Scan) : Operand → Option Op
  | .ssa id => (st.defs.find? fun node => node.id == id).map SsaNode.op
  | _ => none

/-- The stored value is the last load of the flags with its bit 29 replaced, and the flags were the
current producer's when they were loaded. -/
def Scan.isCarrySplice (st : Scan) (value : Operand) : Bool :=
  match st.definition value with
  | some (.bfi width lsb dest _) =>
    width == 1 && lsb == 29 && st.lastLoadNZCV.map Operand.ssa == some dest &&
      st.lastLoadNZCVProducer == st.producer && st.producer.isSome
  | _ => false

/-- The scan moves over a node. -/
def Scan.visit (st : Scan) (node : Node) : Scan :=
  match node.op with
  | .loadNZCV =>
    { st with
      defs := node :: st.defs
      lastLoadNZCV := some node.id
      lastLoadNZCVProducer := st.producer }
  | .storeNZCV value =>
    if st.isCarrySplice value then { st with defs := node :: st.defs, carryValid := false }
    else { st with defs := node :: st.defs, producer := some node, carryValid := true }
  | op =>
    if op.writesNZCV then
      { st with defs := node :: st.defs, producer := some node, carryValid := true }
    else { st with defs := node :: st.defs }

def Scan.fuseFrom (st : Scan) : List Node → List Node
  | [] => []
  | node :: nodes => ⟨node.id, st.rewrite node.op⟩ :: (st.visit node).fuseFrom nodes

/-- `CompareBranchFusion::Run` on one block. -/
def fuse (nodes : List Node) : List Node := Scan.start.fuseFrom nodes

/-! ### The flags of the remembered subtraction -/

variable {carry : Bool} {f : Nzcv} {cond : CondClass} {p : Node} {src2 src1 : Operand}

/-- The two flag words agree, on the carry only if it is asked for. -/
structure Agrees (carry : Bool) (f g : Nzcv) : Prop where
  n : f.n = g.n
  z : f.z = g.z
  v : f.v = g.v
  c : carry = true → f.c = g.c

theorem Agrees.refl (carry : Bool) (f : Nzcv) : Agrees carry f f := ⟨rfl, rfl, rfl, fun _ => rfl⟩

theorem Agrees.forget {g : Nzcv} (h : Agrees carry f g) : Agrees false f g :=
  ⟨h.n, h.z, h.v, fun h => Bool.noConfusion h⟩

/-- A condition that does not read a carry which may differ is the same on both flag words. -/
theorem Agrees.holds {g : Nzcv} (h : Agrees carry f g) (hc : (carry || !cond.readsCarry) = true) :
    cond.holds f = cond.holds g := by
  obtain ⟨hn, hz, hv, hcar⟩ := h
  cases carry with
  | true => cases cond <;> simp [CondClass.holds, hn, hz, hv, hcar rfl]
  | false =>
    -- with a stale carry the unsigned conditions are excluded by `hc`
    cases cond <;> simp [CondClass.readsCarry] at hc <;> simp [CondClass.holds, hn, hz, hv]

/-- If the node is a subtraction then its operands are defined and its flags are `f`. -/
def FlagsOf (ids : List ℕ) (env : ℕ → BitVec 64) (carry : Bool) (f : Nzcv) (node : Node) : Prop :=
  ∀ size src1 src2, node.op = .subWithFlags size src1 src2 →
    src1.DefinedIn ids ∧ src2.DefinedIn ids ∧ Agrees carry f (operandFlags env size src1 src2)

/-- If the node is a `Bfi` then its operands are defined and the environment holds its value. -/
def BfiOf (ids : List ℕ) (env : ℕ → BitVec 64) (node : Node) : Prop :=
  ∀ width lsb dest src, node.op = .bfi width lsb dest src →
    dest.DefinedIn ids ∧ src.DefinedIn ids ∧
      env node.id = bfi width lsb (dest.value env) (src.value env)

/-- What the scan remembers is true of the state. -/
structure Inv {σ : Type*} (ids : List ℕ) (st : Scan) (s : State σ) : Prop where
  defs : ∀ node ∈ st.defs, node.id ∈ ids ∧ BfiOf ids s.env node
  producer : ∀ node, st.producer = some node → FlagsOf ids s.env st.carryValid s.flags node
  lastLoad : ∀ l, st.lastLoadNZCV = some l →
    l ∈ ids ∧ ∀ node, st.lastLoadNZCVProducer = some node →
      FlagsOf ids s.env false (Nzcv.unpack (s.env l)) node

theorem Inv.start {σ : Type*} (ids : List ℕ) (s : State σ) : Inv ids Scan.start s :=
  ⟨fun _ h => absurd h not_mem_nil, fun _ h => (nomatch h), fun _ h => (nomatch h)⟩

section Step

variable {σ : Type*} (I : Interp σ) {ids : List ℕ} {st : Scan} {s : State σ} {node : Node}

theorem FlagsOf.step (h : FlagsOf ids s.env carry f p) (hid : node.id ∉ ids) :
    FlagsOf (node.id :: ids) (step I s node).env carry f p := by
  intro size src1 src2 hop
  obtain ⟨h1, h2, hagr⟩ := h size src1 src2 hop
  rw [operandFlags_step I h1 h2 hid]
  exact ⟨h1.cons _, h2.cons _, hagr⟩

theorem BfiOf.step (h : BfiOf ids s.env p) (hp : p.id ∈ ids) (hid : node.id ∉ ids) :
    BfiOf (node.id :: ids) (step I s node).env p := by
  intro width lsb dest src hop
  obtain ⟨hds, hsrc, henv⟩ := h width lsb dest src hop
  have hne : p.id ≠ node.id := fun h => hid (h ▸ hp)
  rw [step_env_of_ne I s hne, Operand.value_step I hds hid, Operand.value_step I hsrc hid]
  exact ⟨hds.cons _, hsrc.cons _, henv⟩

section

variable (har : ∀ a ∈ node.op.args, a.DefinedIn ids) (hid : node.id ∉ ids)
include har hid

/-- A node that has just run is a `Bfi` with its value, or no `Bfi`. -/
theorem BfiOf.self : BfiOf (node.id :: ids) (Ir.step I s node).env node := by
  intro width lsb dest src hop
  rw [hop] at har
  have hds : dest.DefinedIn ids := har dest (by simp [Op.args])
  have hsrc : src.DefinedIn ids := har src (by simp [Op.args])
  rw [Operand.value_step I hds hid, Operand.value_step I hsrc hid]
  refine ⟨hds.cons _, hsrc.cons _, ?_⟩
  simp [Ir.step, hop, State.define]

theorem FlagsOf.self :
    FlagsOf (node.id :: ids) (Ir.step I s node).env true (Ir.step I s node).flags node := by
  intro size src1 src2 hop
  rw [hop] at har
  have h1 : src1.DefinedIn ids := har src1 (by simp [Op.args])
  have h2 : src2.DefinedIn ids := har src2 (by simp [Op.args])
  rw [operandFlags_step I h1 h2 hid]
  refine ⟨h1.cons _, h2.cons _, ?_⟩
  have hfla : (Ir.step I s node).flags = operandFlags s.env size src1 src2 := by
    simp [Ir.step, hop]
  rw [hfla]
  exact Agrees.refl _ _

end

/-- A carry splice leaves the other flags of the producer. -/
theorem Inv.splice (h : Inv ids st s) {value : Operand} (hs : st.isCarrySplice value = true)
    (hp : st.producer = some p) : FlagsOf ids s.env false (Nzcv.unpack (value.value s.env)) p := by
  unfold Scan.isCarrySplice at hs
  split at hs
  case h_2 => exact absurd hs Bool.false_ne_true
  case h_1 width lsb dest src hdef =>
    simp only [Bool.and_eq_true, beq_iff_eq] at hs
    obtain ⟨⟨⟨⟨rfl, rfl⟩, hds⟩, hsm⟩, -⟩ := hs
    obtain ⟨l, hl, rfl⟩ := map_eq_some_iff.1 hds
    -- the stored value is the `Bfi` over the last load
    obtain ⟨id, rfl⟩ : ∃ id, value = .ssa id := by
      cases value <;> simp_all [Scan.definition]
    obtain ⟨d, hd, hop⟩ := map_eq_some_iff.1 hdef
    have hdid : d.id = id := by simpa using find?_some hd
    obtain ⟨-, -, henv⟩ := (h.defs d (mem_of_find?_eq_some hd)).2 _ _ _ _ hop
    have hval : Operand.value s.env (.ssa id) = bfi 1 29 (s.env l) (src.value s.env) := by
      rw [← hdid]
      exact henv
    intro size src1 src2 hsub
    obtain ⟨h1, h2, hagr⟩ := (h.lastLoad l hl).2 p (hsm.trans hp) size src1 src2 hsub
    obtain ⟨hn, hz, hv⟩ := unpack_bfi_carry (s.env l) (src.value s.env)
    rw [hval]
    exact ⟨h1, h2, hn.trans hagr.n, hz.trans hagr.z, hv.trans hagr.v, fun h => Bool.noConfusion h⟩

theorem Inv.visit_lastLoad (h : Inv ids st s) (hid : node.id ∉ ids) :
    ∀ l, st.lastLoadNZCV = some l → l ∈ node.id :: ids ∧ ∀ p, st.lastLoadNZCVProducer = some p →
        FlagsOf (node.id :: ids) (step I s node).env false
          (Nzcv.unpack ((step I s node).env l)) p := by
  intro l hl
  obtain ⟨hmem, hfla⟩ := h.lastLoad l hl
  have hne : l ≠ node.id := fun h => hid (h ▸ hmem)
  refine ⟨mem_cons_of_mem _ hmem, fun p hp => ?_⟩
  rw [step_env_of_ne I s hne]
  exact (hfla p hp).step I hid

section

variable (h : Inv ids st s) (har : ∀ a ∈ node.op.args, a.DefinedIn ids) (hid : node.id ∉ ids)
include h har hid

theorem Inv.visit_defs :
    ∀ d ∈ node :: st.defs,
      d.id ∈ node.id :: ids ∧ BfiOf (node.id :: ids) (step I s node).env d := by
  intro d hd
  rcases mem_cons.1 hd with rfl | hd
  · exact ⟨mem_cons_self, BfiOf.self I har hid⟩
  · obtain ⟨hmem, hbfi⟩ := h.defs d hd
    exact ⟨mem_cons_of_mem _ hmem, hbfi.step I hmem hid⟩

theorem Inv.visit : Inv (node.id :: ids) (st.visit node) (step I s node) := by
  have hdf := h.visit_defs I har hid
  have hls := h.visit_lastLoad I hid
  have hsl := FlagsOf.self I (s := s) har hid
  unfold Scan.visit
  split
  case h_1 hop =>
    have hst : step I s node = s.define node.id s.flags.pack := by simp [step, hop]
    refine ⟨hdf, fun p hp => ?_, ?_⟩
    · have hfla : (step I s node).flags = s.flags := by rw [hst]; rfl
      rw [hfla]
      exact (h.producer p hp).step I hid
    · rintro l hl
      obtain rfl : node.id = l := some.inj hl
      refine ⟨mem_cons_self, fun p hp => ?_⟩
      have hld : (step I s node).env node.id = s.flags.pack := by
        rw [hst]
        exact Function.update_self _ _ _
      rw [hld, Nzcv.unpack_pack]
      intro size src1 src2 hsub
      obtain ⟨h1, h2, hagr⟩ := (h.producer p hp).step I hid size src1 src2 hsub
      exact ⟨h1, h2, hagr.forget⟩
  case h_2 value hop =>
    have hfla : (step I s node).flags = Nzcv.unpack (value.value s.env) := by simp [step, hop]
    split
    · rename_i hs
      refine ⟨hdf, fun p hp => ?_, hls⟩
      rw [hfla]
      exact (h.splice hs hp).step I hid
    · refine ⟨hdf, fun p hp => ?_, hls⟩
      obtain rfl : node = p := some.inj hp
      exact hsl
  case h_3 =>
    split
    · refine ⟨hdf, fun p hp => ?_, hls⟩
      obtain rfl : node = p := some.inj hp
      exact hsl
    · rename_i hw
      refine ⟨hdf, fun p hp => ?_, hls⟩
      rw [step_flags_of_writes I s (Bool.eq_false_iff.2 hw)]
      exact (h.producer p hp).step I hid

end

/-! ### The rewritten node -/

/-- A fusable compare answers the condition on the flags of the subtraction. -/
theorem compareHolds_eq_holds (env : ℕ → BitVec 64) (size : CompareSize)
    (hc : cond.isFusable = true) (cmp1 cmp2 : Operand) :
    compareHolds env size cond cmp1 cmp2 = cond.holds (operandFlags env size cmp1 cmp2) := by
  rw [operandFlags, holds_subFlags _ _ hc]
  unfold compareHolds
  split
  · rw [emitCompareConst_exec]
    rfl
  · rw [emitCompareReg_exec]

/-- The resolved condition is fusable, and means the original one on the flags of the
subtraction. -/
theorem resolveFusedCond_holds (src1 : Operand) {fused : CondClass}
    (h : resolveFusedCond src2 cond = some fused) (env : ℕ → BitVec 64) (size : CompareSize) :
    fused.isFusable = true ∧ fused.holds (operandFlags env size src1 src2) =
        cond.holds (operandFlags env size src1 src2) := by
  unfold resolveFusedCond at h
  split at h
  · rename_i hsg
    split at h
    case isFalse => cases h
    case isTrue hzr =>
      subst hzr
      have hfla : operandFlags env size src1 (.inlineConstant 0#64) =
          subFlags ((src1.value env).setWidth size.bits) (BitVec.ofNat size.bits 0) := by
        simp [operandFlags, Operand.value]
      have hsig := holds_subFlags_zero ((src1.value env).setWidth size.bits)
      obtain rfl := some.inj h
      rw [hfla]
      rcases hsg with rfl | rfl
      · refine ⟨rfl, ?_⟩
        rw [hsig.1]
        exact holds_subFlags _ _ rfl
      · refine ⟨rfl, ?_⟩
        rw [hsig.2]
        exact holds_subFlags _ _ rfl
  · split at h
    case isFalse => cases h
    case isTrue hc =>
      obtain rfl := some.inj h
      exact ⟨hc, rfl⟩

/-- Everything a fused compare rests on. -/
theorem Scan.fused_eq_some {fused : CondClass} {size : CompareSize}
    (h : st.fused cond = some (size, fused, src1, src2)) :
    ∃ p, st.producer = some p ∧ p.op = .subWithFlags size src1 src2 ∧
      resolveFusedCond src2 cond = some fused ∧ (st.carryValid || !fused.readsCarry) = true := by
  unfold Scan.fused at h
  split at h
  case h_2 => cases h
  case h_1 id size' src1' src2' hp =>
    split at h
    case isFalse => cases h
    case isTrue =>
      split at h
      case h_2 => cases h
      case h_1 fused' hres =>
        split at h
        case isFalse => cases h
        case isTrue hcar =>
          obtain ⟨rfl, rfl, rfl, rfl⟩ : size' = size ∧ fused' = fused ∧ src1' = src1 ∧
              src2' = src2 := by simpa using h
          exact ⟨_, hp, rfl, hres, hcar⟩

/-- The sign tests are resolved to signed compares, so no carry is read before or after. -/
theorem resolveFusedCond_readsCarry {fused : CondClass}
    (h : resolveFusedCond src2 cond = some fused) : fused.readsCarry = cond.readsCarry := by
  unfold resolveFusedCond at h
  split at h
  · rename_i hsg
    split at h
    case isFalse => cases h
    case isTrue =>
      obtain rfl := some.inj h
      rcases hsg with rfl | rfl <;> rfl
  · split at h
    case isFalse => cases h
    case isTrue => rw [some.inj h]

/-- The compare takes the direction of the original condition on the flags of the state. -/
theorem Inv.compareHolds_of_fused (h : Inv ids st s) {fused : CondClass} {size : CompareSize}
    (hf : st.fused cond = some (size, fused, src1, src2)) :
    compareHolds s.env size fused src1 src2 = cond.holds s.flags := by
  obtain ⟨p, hp, hop, hres, hcar⟩ := Scan.fused_eq_some hf
  obtain ⟨-, -, hagr⟩ := h.producer p hp size src1 src2 hop
  obtain ⟨hfus, hsm⟩ := resolveFusedCond_holds src1 hres s.env size
  rw [resolveFusedCond_readsCarry hres] at hcar
  calc compareHolds s.env size fused src1 src2 = fused.holds (operandFlags s.env size src1 src2) :=
        compareHolds_eq_holds s.env size hfus src1 src2
    _ = cond.holds (operandFlags s.env size src1 src2) := hsm
    _ = cond.holds s.flags := (hagr.holds hcar).symm

/-- A constant that fits `li` is materialised exactly. -/
theorem Operand.selectValue_of_fitsLi {o : Operand} (h : o.fitsLi = true) (env : ℕ → BitVec 64) :
    o.selectValue env = o.value env := by
  cases o with
  | inlineConstant constant =>
    have hran : -32768 ≤ constant.toInt ∧ constant.toInt ≤ 32767 := of_decide_eq_true h
    apply BitVec.eq_of_toInt_eq
    rw [Operand.selectValue, BitVec.toInt_signExtend_of_le (by decide),
      toInt_setWidth_of_fits _ (by decide) (by omega) (by omega)]
    rfl
  | _ => rfl

/-- The rewritten node does what the original one does. -/
theorem Inv.step_rewrite (h : Inv ids st s) (id : ℕ) (op : Op) :
    step I s ⟨id, st.rewrite op⟩ = step I s ⟨id, op⟩ := by
  unfold Scan.rewrite
  split
  case h_1 size cond trueVal falseVal =>
    split
    case h_2 => rfl
    case h_1 compareSize fused cmp1 cmp2 hf =>
      split
      case isFalse => rfl
      case isTrue hft =>
        obtain ⟨htr, hfal⟩ := Bool.and_eq_true_iff.1 hft
        simp [step, h.compareHolds_of_fused hf, Operand.selectValue_of_fitsLi htr,
          Operand.selectValue_of_fitsLi hfal]
  case h_2 cond =>
    split
    case h_2 => rfl
    case h_1 compareSize fused cmp1 cmp2 hf =>
      simp [step, h.compareHolds_of_fused hf]
  case h_3 => rfl

end Step

/-! ### Whole blocks -/

theorem Scan.run_fuseFrom {σ : Type*} (I : Interp σ) {ids : List ℕ} {st : Scan} {s : State σ}
    {nodes : List Node} (h : Inv ids st s) (hssa : Ssa Op.args ids nodes) :
    run I s (st.fuseFrom nodes) = run I s nodes := by
  -- the scan and the run move over the block together
  induction nodes generalizing ids st s with
  | nil => rfl
  | cons node nodes ih =>
    obtain ⟨har, hid, hrs⟩ := hssa
    have hhd := h.step_rewrite I node.id node.op
    calc run I s (st.fuseFrom (node :: nodes))
        = run I (step I s ⟨node.id, st.rewrite node.op⟩) ((st.visit node).fuseFrom nodes) := rfl
      _ = run I (step I s node) ((st.visit node).fuseFrom nodes) := by rw [hhd]
      _ = run I (step I s node) nodes := ih (h.visit I har hid) hrs

theorem Scan.fuseFrom_getElem? (st : Scan) (nodes : List Node) (k : ℕ) :
    (st.fuseFrom nodes)[k]? = nodes[k]?.map fun node =>
      ⟨node.id, ((nodes.take k).foldl Scan.visit st).rewrite node.op⟩ := by
  induction nodes generalizing st k with
  | nil => simp [fuseFrom]
  | cons node nodes ih =>
    cases k with
    | zero => simp [fuseFrom]
    | succ k => simpa [fuseFrom] using ih (st.visit node) k

theorem Scan.fuseFrom_take (st : Scan) (nodes : List Node) (k : ℕ) :
    (st.fuseFrom nodes).take k = st.fuseFrom (nodes.take k) := by
  induction nodes generalizing st k with
  | nil => simp [fuseFrom]
  | cons node nodes ih =>
    cases k with
    | zero => rfl
    | succ k => simpa [fuseFrom] using ih (st.visit node) k

/-- The producer of a scan, with a carry that is still its own, is the last node that wrote
flags. -/
theorem Scan.producer_last (pre : List Node)
    (hp : (pre.foldl Scan.visit Scan.start).producer = some p)
    (hcar : (pre.foldl Scan.visit Scan.start).carryValid = true) :
    ∃ j : ℕ, pre[j]? = some p ∧
      ∀ (i : ℕ) (q : Node), j < i → pre[i]? = some q → q.op.writesNZCV = false := by
  induction pre using reverseRecOn with
  | nil => cases hp
  | append_singleton pre node ih =>
    rw [foldl_append] at hp hcar
    simp only [foldl_cons] at hp hcar
    generalize pre.foldl Scan.visit Scan.start = st at *
    -- the node is the producer itself
    have hnew : some node = some p → ∃ j : ℕ, (pre ++ [node])[j]? = some p ∧
        ∀ (i : ℕ) (q : Node), j < i → (pre ++ [node])[i]? = some q → q.op.writesNZCV = false := by
      intro h
      refine ⟨pre.length, by simpa using h, fun i q hi hq => ?_⟩
      have hlen : (pre ++ [node]).length ≤ i := by
        rw [length_append, length_singleton]
        exact hi
      rw [getElem?_eq_none hlen] at hq
      cases hq
    -- the producer is older, and the node writes nothing
    have hold : node.op.writesNZCV = false → st.producer = some p → st.carryValid = true →
        ∃ j : ℕ, (pre ++ [node])[j]? = some p ∧
          ∀ (i : ℕ) (q : Node), j < i → (pre ++ [node])[i]? = some q → q.op.writesNZCV = false := by
      intro hw hp hc
      obtain ⟨j, hj, hls⟩ := ih hp hc
      have hjl : j < pre.length := (List.getElem?_eq_some_iff.1 hj).1
      refine ⟨j, by rw [getElem?_append_left hjl, hj], fun i q hi hq => ?_⟩
      by_cases hil : i < pre.length
      · rw [getElem?_append_left hil] at hq
        exact hls i q hi hq
      · rw [getElem?_append_right (by omega)] at hq
        obtain ⟨-, rfl⟩ : i - pre.length = 0 ∧ node = q := by
          simpa [getElem?_singleton] using hq
        exact hw
    unfold Scan.visit at hp hcar
    split at hp
    case h_1 hop =>
      simp only [hop] at hcar
      exact hold (by rw [hop]; rfl) hp hcar
    case h_2 value hop =>
      simp only [hop] at hcar
      split at hp
      · rename_i hs
        rw [if_pos hs] at hcar
        cases hcar
      · exact hnew hp
    case h_3 hld hsto =>
      split at hp
      · exact hnew hp
      · rename_i hw
        refine hold (Bool.eq_false_iff.2 hw) hp ?_
        split at hcar
        case h_1 hop => exact absurd hop hld
        case h_2 value hop => exact absurd hop (hsto value)
        case h_3 =>
          rw [if_neg hw] at hcar
          exact hcar

/-- The condition of a branch or a select. -/
def Op.cond? : Op → Option CondClass
  | .nzcvSelect _ cond _ _ | .select _ _ cond _ _ _ _ | .condJumpNZCV cond
  | .condJump _ cond _ _ => some cond
  | _ => none

/-- A node that the scan changes is a branch or a select with a fused compare. -/
theorem Scan.rewrite_ne {st : Scan} {op : Op} (h : st.rewrite op ≠ op)
    (hc : (st.rewrite op).cond? = some cond) :
    ∃ orig size src1 src2, st.fused orig = some (size, cond, src1, src2) := by
  unfold Scan.rewrite at h hc
  split at h
  case h_1 size orig trueVal falseVal =>
    split at h
    case h_2 => exact absurd rfl h
    case h_1 compareSize fused cmp1 cmp2 hf =>
      simp only [hf] at hc
      split at h
      case isFalse => exact absurd rfl h
      case isTrue hft =>
        rw [if_pos hft] at hc
        obtain rfl : fused = cond := some.inj hc
        exact ⟨orig, _, _, _, hf⟩
  case h_2 orig =>
    split at h
    case h_2 => exact absurd rfl h
    case h_1 compareSize fused cmp1 cmp2 hf =>
      simp only [hf] at hc
      obtain rfl : fused = cond := some.inj hc
      exact ⟨orig, _, _, _, hf⟩
  case h_3 => exact absurd rfl h

/-- **Compare-branch fusion preserves every branch and every select.**  From any state, after any
number of nodes, the block that the pass leaves has the same values, the same flags and the same
branch directions as the original one.  A compare that reads a carry stands for the
subtraction that was the last node before it to write any flag. -/
theorem fuse_run {σ : Type*} (I : Interp σ) {ids : List ℕ} {nodes : List Node}
    (hssa : Ssa Op.args ids nodes) (s : State σ) :
    (∀ k, run I s ((fuse nodes).take k) = run I s (nodes.take k)) ∧
      ∀ (k : ℕ) (node node' : Node) (cond : CondClass),
        nodes[k]? = some node → (fuse nodes)[k]? = some node' → node' ≠ node →
        node'.op.cond? = some cond → cond.readsCarry = true →
        ∃ (j : ℕ) (p : Node) (size : CompareSize) (src1 src2 : Operand),
          j < k ∧ nodes[j]? = some p ∧ p.op = .subWithFlags size src1 src2 ∧
            ∀ (i : ℕ) (q : Node), j < i → i < k → nodes[i]? = some q → q.op.writesNZCV = false := by
  refine ⟨fun k => ?_, ?_⟩
  · rw [fuse, Scan.fuseFrom_take]
    exact Scan.run_fuseFrom I (Inv.start ids s) (hssa.take k)
  · intro k node node' cond hnd hnd' hne hcn hrea
    rw [fuse, Scan.fuseFrom_getElem?, hnd] at hnd'
    obtain rfl := some.inj hnd'
    have hop : ((nodes.take k).foldl Scan.visit Scan.start).rewrite node.op ≠ node.op :=
      fun h => hne (by simp [h])
    obtain ⟨orig, size, src1, src2, hf⟩ := Scan.rewrite_ne hop hcn
    obtain ⟨p, hp, hsub, -, hcar⟩ := Scan.fused_eq_some hf
    have hval : ((nodes.take k).foldl Scan.visit Scan.start).carryValid = true := by
      simpa [hrea] using hcar
    obtain ⟨j, hj, hls⟩ := Scan.producer_last (nodes.take k) hp hval
    have hjk : j < k := by
      have := (List.getElem?_eq_some_iff.1 hj).1
      rw [length_take] at this
      omega
    rw [getElem?_take_of_lt hjk] at hj
    refine ⟨j, p, size, src1, src2, hjk, hj, hsub, fun i q hi hik hq => ?_⟩
    exact hls i q hi (by rw [getElem?_take_of_lt hik, hq])

/-- `cmp eax, ecx; dec eax; setz; jae; jl` as the frontend lowers it: the decrement keeps the carry
of the compare by a splice. -/
def decBlock : List Node :=
  [⟨2, .subWithFlags .i32 (.ssa 0) (.ssa 1)⟩,
    ⟨3, .nzcvSelect .i64 .uge (.inlineConstant 1#64) (.inlineConstant 0#64)⟩,
    ⟨4, .subWithFlags .i32 (.ssa 0) (.inlineConstant 1#64)⟩, ⟨5, .loadNZCV⟩,
    ⟨6, .bfi 1 29 (.ssa 5) (.ssa 3)⟩, ⟨7, .storeNZCV (.ssa 6)⟩,
    ⟨8, .nzcvSelect .i64 .eq (.inlineConstant 1#64) (.inlineConstant 0#64)⟩,
    ⟨9, .condJumpNZCV .uge⟩, ⟨10, .condJumpNZCV .slt⟩]

-- the test of the result is fused, the test of the spliced carry is not
example : (fuse decBlock).drop 7 = [⟨9, .condJumpNZCV .uge⟩,
    ⟨10, .condJump .i32 .slt (.ssa 0) (.inlineConstant 1#64)⟩] := by decide

/-- The state before `decBlock` with 1 in `eax` and 2 in `ecx`. -/
def decState : State Unit where
  env id := if id = 0 then 1#64 else 2#64
  flags := .none
  world := ()
  branches := []

theorem fuse_run_decBlock :
    (∀ k, run ⟨fun _ _ f w => (0#64, f, w)⟩ decState ((fuse decBlock).take k) =
        run ⟨fun _ _ f w => (0#64, f, w)⟩ decState (decBlock.take k)) ∧
      (run ⟨fun _ _ f w => (0#64, f, w)⟩ decState decBlock).branches = [false, false] :=
  ⟨(fuse_run _ (by decide : Ssa Op.args [0, 1] decBlock) decState).1, by decide⟩

end FastPPC.Ir
