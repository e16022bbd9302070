import Mathlib

/-!
# Runs of a state machine

The components of the emulator are modelled as machines: a state, a set of actions, and a
relation saying which state an action leads to.  A claim about a component is a claim about
every run of its machine.

* `Machine.Run C s as s'` : performing the actions `as` in order leads from `s` to `s'`, and
  every action was performed in a state that satisfies the condition `C`;
* `Machine.Run.invariant` : what holds initially and is preserved by every step that meets the
  condition holds at the end of every run;
* `Machine.Run.length_add_le` : what every step makes smaller bounds the length of a run;
* `Machine.Run.simulation` : the same for a relation to the state of a second machine, the
  specification, that performs the same actions.
-/

namespace FastPPC

/-- A machine with states `S` and actions `A`. -/
structure Machine (S : Type*) (A : Type*) where
  /-- `step s a s'` : performing `a` in `s` can lead to `s'`. -/
  step : S → A → S → Prop

namespace Machine

variable {S A T : Type*} (M : Machine S A)

/-- Runs whose every step meets the condition `C`. -/
inductive Run (C : S → A → Prop) : S → List A → S → Prop
  | nil (s : S) : Run C s [] s
  | snoc {s s' s'' : S} {a : A} {as : List A} :
      Run C s as s' → C s' a → M.step s' a s'' → Run C s (as ++ [a]) s''

/-- The machine of a function that can fail: a failing action has no successor. -/
def ofExcept {ε : Type*} (f : S → A → Except ε S) : Machine S A where
  step s a s' := f s a = .ok s'

/-- The machine of a function: every action has exactly one successor. -/
def ofFun (f : S → A → S) : Machine S A where
  step s a s' := f s a = s'

variable {M} {C : S → A → Prop}

variable {s s' : S} {as : List A}

namespace Run

/-- **Invariant rule.** -/
theorem invariant {I : S → Prop} (h : M.Run C s as s') (h₀ : I s)
    (hsp : ∀ s a s', I s → C s a → M.step s a s' → I s') : I s' := by
  induction h with
  | nil => exact h₀
  | snoc _ hc hst ih => exact hsp _ _ _ ih hc hst

/-- **Simulation rule**: a specification that performs the same actions stays related. -/
theorem simulation {R : S → T → Prop} (spec : T → A → T) {t : T} (h : M.Run C s as s') (h₀ : R s t)
    (hsp : ∀ s a s' t, R s t → C s a → M.step s a s' → R s' (spec t a)) :
    R s' (as.foldl spec t) := by
  induction h with
  | nil => exact h₀
  | snoc _ hc hst ih =>
    rw [List.foldl_append]
    exact hsp _ _ _ _ ih hc hst

/-- A run under a condition is a run under every weaker one. -/
theorem mono {C' : S → A → Prop} (h : M.Run C s as s') (hC : ∀ s a, C s a → C' s a) :
    M.Run C' s as s' := by
  induction h with
  | nil => exact .nil _
  | snoc _ hc hst ih => exact .snoc ih (hC _ _ hc) hst

/-- **Ranking rule**: a number that every step makes smaller bounds the length of a run. -/
theorem length_add_le {I : S → Prop} {μ : S → ℕ} (h : M.Run C s as s') (h₀ : I s)
    (hsp : ∀ s a s', I s → C s a → M.step s a s' → I s' ∧ μ s' < μ s) :
    as.length + μ s' ≤ μ s := by
  induction h with
  | nil => exact Nat.le_of_eq (Nat.zero_add _)
  | snoc hr hc hst ih =>
    have hI := hr.invariant h₀ fun s a s' hI hc hst => (hsp s a s' hI hc hst).1
    have hlt := (hsp _ _ _ hI hc hst).2
    rw [List.length_append, List.length_singleton]
    omega

theorem cons {s'' : S} {a : A} (hc : C s a) (hst : M.step s a s') (h : M.Run C s' as s'') :
    M.Run C s (a :: as) s'' := by
  induction h with
  | nil => exact (Run.nil s).snoc hc hst
  | snoc _ hc' hst' ih => exact ih.snoc hc' hst'

end Run

/-- The condition `c` holds at every action of the list. -/
def checked (f : S → A → S) (c : S → A → Bool) : S → List A → Bool
  | _, [] => true
  | s, a :: as => c s a && checked f c (f s a) as

/-- A list of actions of a function that passes the check is a run. -/
theorem Run.of_checked {f : S → A → S} {c : S → A → Bool} (hc : ∀ s a, c s a = true → C s a)
    (h : checked f c s as = true) : (ofFun f).Run C s as (as.foldl f s) := by
  induction as generalizing s with
  | nil => exact .nil s
  | cons a as ih =>
    simp only [checked, Bool.and_eq_true] at h
    exact .cons (hc s a h.1) rfl (ih h.2)

end Machine

end FastPPC
