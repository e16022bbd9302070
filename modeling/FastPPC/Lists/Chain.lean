import Mathlib

/-!
# Singly linked chains

Cells hold a value and the index of the next cell.  `Chain cell head l` says that following the
links from `head` visits the cells of `l`, in that order, and ends; the values are those of `l`.

* `Chain.congr` : cells that are not visited do not matter;
* `Chain.cons` : a cell in front;
* `Chain.splice` : the last cell is linked to another chain.

That a chain exists says that the links are not cyclic, so a loop along it needs at most as many
turns as there are cells (`length_le_of_nodup`).
-/

namespace FastPPC.Lists

variable {ι α : Type*} {cell cell' : ι → Option (α × Option ι)}

/-- The links from `head` visit `l` and end. -/
def Chain (cell : ι → Option (α × Option ι)) : Option ι → List (ι × α) → Prop
  | head, [] => head = none
  | head, (i, a) :: l => head = some i ∧ ∃ next, cell i = some (a, next) ∧ Chain cell next l

/-- The indices of the visited cells. -/
def indices (l : List (ι × α)) : List ι := l.map Prod.fst

@[simp] theorem indices_nil : indices ([] : List (ι × α)) = [] := rfl

@[simp] theorem indices_cons (x : ι × α) (l : List (ι × α)) :
    indices (x :: l) = x.1 :: indices l := rfl

@[simp] theorem indices_append (l m : List (ι × α)) :
    indices (l ++ m) = indices l ++ indices m := List.map_append

variable {head : Option ι} {l : List (ι × α)}

namespace Chain

theorem nil : Chain cell none [] := rfl

theorem head_eq_none_iff (h : Chain cell head l) : head = none ↔ l = [] := by
  cases l with
  | nil => exact iff_of_true h rfl
  | cons x l => simp [h.1]

theorem cons {i : ι} {a : α} {next : Option ι} (hi : cell i = some (a, next))
    (h : Chain cell next l) : Chain cell (some i) ((i, a) :: l) :=
  ⟨rfl, next, hi, h⟩

/-- A chain depends on the visited cells only. -/
theorem congr (h : Chain cell head l) (heq : ∀ i ∈ indices l, cell' i = cell i) :
    Chain cell' head l := by
  induction l generalizing head with
  | nil => exact h
  | cons x l ih =>
    obtain ⟨rfl, next, hx, hl⟩ := h
    refine .cons ((heq x.1 List.mem_cons_self).trans hx) (ih hl fun i hi => ?_)
    exact heq i (List.mem_cons_of_mem _ hi)

theorem last {t : ι} {a : α} (h : Chain cell head (l ++ [(t, a)])) :
    ∃ next, cell t = some (a, next) := by
  induction l generalizing head with
  | nil =>
    obtain ⟨-, next, ht, -⟩ := h
    exact ⟨next, ht⟩
  | cons x l ih =>
    obtain ⟨-, next, -, hl⟩ := h
    exact ih hl

/-- **Splicing**: the last cell of a chain is linked to the head of another one. -/
theorem splice [DecidableEq ι] {head' : Option ι} {m : List (ι × α)} {t : ι} {a : α}
    (hl : Chain cell head (l ++ [(t, a)])) (hm : Chain cell head' m) (htl : t ∉ indices l)
    (htm : t ∉ indices m) :
    Chain (Function.update cell t (some (a, head'))) head (l ++ (t, a) :: m) := by
  induction l generalizing head with
  | nil =>
    obtain ⟨rfl, -⟩ := hl
    refine .cons (Function.update_self ..) (hm.congr fun i hi => ?_)
    exact Function.update_of_ne (ne_of_mem_of_not_mem hi htm) _ _
  | cons x l ih =>
    obtain ⟨rfl, next, hx, hl⟩ := hl
    rw [indices_cons, List.mem_cons, not_or] at htl
    refine .cons ?_ (ih hl htl.2)
    rw [Function.update_of_ne fun hxt => htl.1 hxt.symm, hx]

end Chain

/-- Distinct numbers below a bound are at most as many as the bound. -/
theorem length_le_of_nodup {l : List (ℕ × α)} {n : ℕ} (hnd : (indices l).Nodup)
    (hlt : ∀ i ∈ indices l, i < n) : l.length ≤ n := by
  have hsub : indices l ⊆ List.range n := fun i hi => List.mem_range.2 (hlt i hi)
  simpa [indices] using (List.subperm_of_subset hnd hsub).length_le

end FastPPC.Lists
