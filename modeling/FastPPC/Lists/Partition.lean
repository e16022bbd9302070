import FastPPC.Lists.Bisect

/-!
# Partition points

`std::lower_bound` and `std::upper_bound` bisect a list for the end of the initial segment on which
a predicate holds.

* `partitionPoint` : the bisection;
* `partitionPoint_eq` : on a list that is partitioned by the predicate it is the length of the
  initial segment;
* `mem_take_partitionPoint`, `mem_drop_partitionPoint` : the elements on its two sides.
-/

namespace FastPPC

open List

variable {α : Type*} {p q : α → Bool} {l : List α}

/-- The end of the initial segment on which `p` holds, by bisection. -/
def partitionPoint (p : α → Bool) (l : List α) : ℕ :=
  bisect (fun i => l[i]?.any p) l.length 0 l.length

/-- `p` holds on an initial segment. -/
def PartitionedBy (p : α → Bool) (l : List α) : Prop :=
  l.Pairwise fun a b => p b = true → p a = true

section

variable (h : PartitionedBy p l)
include h

theorem PartitionedBy.getElem? {i j : ℕ} (hij : i ≤ j) (hj : j < l.length)
    (hp : l[j]?.any p = true) :
    l[i]?.any p = true := by
  rcases Nat.eq_or_lt_of_le hij with rfl | hlt
  · exact hp
  · rw [getElem?_eq_getElem hj, Option.any_some] at hp
    rw [getElem?_eq_getElem (hlt.trans hj), Option.any_some]
    exact pairwise_iff_getElem.1 h i j (hlt.trans hj) hj hlt hp

/-- What bisection finds. -/
theorem partitionPoint_spec :
    partitionPoint p l ≤ l.length ∧ (∀ i < partitionPoint p l, l[i]?.any p = true) ∧
      ∀ i, partitionPoint p l ≤ i → i < l.length → l[i]?.any p = false :=
  bisect_spec l.length 0 l.length l.length (fun _ _ hij hj hp => h.getElem? hij hj hp) le_rfl
    (fun i hi => absurd hi (Nat.not_lt_zero i)) (fun _ hle hlt => absurd hlt (Nat.not_lt.2 hle))
    (Nat.zero_le _) le_rfl

theorem mem_take_partitionPoint {x : α} (hx : x ∈ l.take (partitionPoint p l)) : p x = true := by
  obtain ⟨i, hi, rfl⟩ := mem_iff_getElem.1 hx
  rw [length_take] at hi
  have hlt : i < l.length := by omega
  have hp := (partitionPoint_spec h).2.1 i (by omega)
  rwa [getElem?_eq_getElem hlt, Option.any_some, ← getElem_take] at hp

theorem mem_drop_partitionPoint {x : α} (hx : x ∈ l.drop (partitionPoint p l)) : p x = false := by
  obtain ⟨i, hi, rfl⟩ := mem_iff_getElem.1 hx
  rw [length_drop] at hi
  have hlt : partitionPoint p l + i < l.length := by omega
  have hp := (partitionPoint_spec h).2.2 _ (Nat.le_add_right _ i) hlt
  rwa [getElem?_eq_getElem hlt, Option.any_some, ← getElem_drop] at hp

theorem mem_take_partitionPoint_iff {x : α} :
    x ∈ l.take (partitionPoint p l) ↔ x ∈ l ∧ p x = true := by
  refine ⟨fun hx => ⟨mem_of_mem_take hx, mem_take_partitionPoint h hx⟩, fun ⟨hx, hp⟩ => ?_⟩
  rw [← take_append_drop (partitionPoint p l) l, mem_append] at hx
  refine hx.resolve_right fun hdr => ?_
  rw [mem_drop_partitionPoint h hdr] at hp
  cases hp

theorem mem_drop_partitionPoint_iff {x : α} :
    x ∈ l.drop (partitionPoint p l) ↔ x ∈ l ∧ p x = false := by
  refine ⟨fun hx => ⟨mem_of_mem_drop hx, mem_drop_partitionPoint h hx⟩, fun ⟨hx, hp⟩ => ?_⟩
  rw [← take_append_drop (partitionPoint p l) l, mem_append] at hx
  refine hx.resolve_left fun htk => ?_
  rw [mem_take_partitionPoint h htk] at hp
  cases hp

end

/-- A weaker predicate holds on a longer segment. -/
theorem partitionPoint_mono (hp : PartitionedBy p l) (hq : PartitionedBy q l)
    (h : ∀ x, p x = true → q x = true) : partitionPoint p l ≤ partitionPoint q l := by
  by_contra hlt
  have hlt := Nat.lt_of_not_le hlt
  obtain ⟨hle, hbel, -⟩ := partitionPoint_spec hp
  have htr := hbel _ hlt
  have hfal := (partitionPoint_spec hq).2.2 _ le_rfl (hlt.trans_le hle)
  rw [getElem?_eq_getElem (hlt.trans_le hle), Option.any_some] at htr hfal
  rw [h _ htr] at hfal
  cases hfal

theorem take_append_drop_sublist (l : List α) {i j : ℕ} (h : i ≤ j) :
    (l.take i ++ l.drop j).Sublist l := by
  conv_rhs => rw [← take_append_drop i l]
  exact (List.Sublist.refl _).append (drop_sublist_drop_left l h)

end FastPPC
