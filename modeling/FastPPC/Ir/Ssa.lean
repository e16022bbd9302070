import Mathlib

/-!
# SSA blocks

A block is a list of nodes.  Each node defines one value, named by its id, and its operation reads
operands: values, constants, or nothing.  The passes differ in the operations that they look at, so
everything here is over an arbitrary type `α` of operations with its arguments.

* `Operand`, `SsaNode` : operands and nodes;
* `Ssa` : every operand is defined before its use, and no value is defined twice.
-/

namespace FastPPC.Ir

/-- The argument of an operation. -/
inductive Operand
  | ssa (id : ℕ)
  | inlineConstant (constant : BitVec 64)
  | inlineEntrypointOffset (offset : BitVec 64)
  | immediate (value : BitVec 64)
  | invalid
  deriving DecidableEq

structure SsaNode (α : Type*) where
  id : ℕ
  op : α
  deriving DecidableEq

/-- The operand is a constant or a value of the list. -/
def Operand.DefinedIn (ids : List ℕ) : Operand → Prop
  | .ssa id => id ∈ ids
  | _ => True

theorem Operand.DefinedIn.cons {ids : List ℕ} {o : Operand} (h : o.DefinedIn ids) (id : ℕ) :
    o.DefinedIn (id :: ids) := by
  cases o with
  | ssa i => exact List.mem_cons_of_mem id h
  | _ => trivial

instance (ids : List ℕ) : (o : Operand) → Decidable (o.DefinedIn ids)
  | .ssa id => inferInstanceAs (Decidable (id ∈ ids))
  | .inlineConstant _ | .inlineEntrypointOffset _ | .immediate _ | .invalid =>
    inferInstanceAs (Decidable True)

variable {α : Type*} {args : α → List Operand}

/-- SSA form over the values that are defined before the block. -/
def Ssa (args : α → List Operand) (ids : List ℕ) : List (SsaNode α) → Prop
  | [] => True
  | node :: nodes =>
    (∀ a ∈ args node.op, a.DefinedIn ids) ∧ node.id ∉ ids ∧ Ssa args (node.id :: ids) nodes

instance decidableSsa : (ids : List ℕ) → (nodes : List (SsaNode α)) → Decidable (Ssa args ids nodes)
  | _, [] => inferInstanceAs (Decidable True)
  | ids, node :: nodes =>
    have := decidableSsa (node.id :: ids) nodes
    inferInstanceAs (Decidable (_ ∧ _ ∧ _))

theorem Ssa.take {ids : List ℕ} {nodes : List (SsaNode α)} (h : Ssa args ids nodes) (k : ℕ) :
    Ssa args ids (nodes.take k) := by
  induction nodes generalizing ids k with
  | nil => simpa using h
  | cons node nodes ih =>
    cases k with
    | zero => trivial
    | succ k => exact ⟨h.1, h.2.1, ih h.2.2 k⟩

end FastPPC.Ir
