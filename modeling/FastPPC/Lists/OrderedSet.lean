import FastPPC.Lists.Partition

/-!
# Ordered sets

`std::set` as the ascending list of its keys.

* `OrderedSet.insert`, `OrderedSet.lowerBound`, `OrderedSet.erase` : the operations, the last one
  between two iterators;
* `mem_insert`, `mem_eraseBetween` : the keys they leave.
-/

namespace FastPPC

open List

/-- The keys in ascending order. -/
structure OrderedSet (α : Type*) [LT α] where
  keys : List α
  sorted : keys.Pairwise (· < ·)

namespace OrderedSet

variable {α : Type*} [LinearOrder α]

instance : Membership α (OrderedSet α) := ⟨fun s x => x ∈ s.keys⟩

variable {s : OrderedSet α} {x : α}

theorem mem_def : x ∈ s ↔ x ∈ s.keys := Iff.rfl

instance (s : OrderedSet α) (x : α) : Decidable (x ∈ s) := inferInstanceAs (Decidable (x ∈ s.keys))

instance : EmptyCollection (OrderedSet α) := ⟨⟨[], .nil⟩⟩

theorem notMem_empty (x : α) : x ∉ (∅ : OrderedSet α) := not_mem_nil

/-! ### Insertion -/

variable {y : α}

/-- A key that is there is not inserted again. -/
def insertKey (x : α) : List α → List α
  | [] => [x]
  | y :: ys => if x < y then x :: y :: ys else if y < x then y :: insertKey x ys else y :: ys

theorem mem_insertKey {ys : List α} : y ∈ insertKey x ys ↔ y = x ∨ y ∈ ys := by
  induction ys with
  | nil => simp [insertKey]
  | cons z zs ih =>
    rw [insertKey]
    split_ifs with hlt hgt
    · exact mem_cons
    · rw [mem_cons, ih, mem_cons]
      exact or_left_comm
    · have hxz : x = z := le_antisymm (not_lt.1 hgt) (not_lt.1 hlt)
      simp [hxz]

theorem sorted_insertKey (x : α) {ys : List α} (h : ys.Pairwise (· < ·)) :
    (insertKey x ys).Pairwise (· < ·) := by
  induction ys with
  | nil => exact pairwise_singleton _ _
  | cons y ys ih =>
    obtain ⟨hy, hys⟩ := pairwise_cons.1 h
    rw [insertKey]
    split_ifs with hlt hgt
    · refine pairwise_cons.2 ⟨fun z hz => ?_, h⟩
      rcases mem_cons.1 hz with rfl | hz
      · exact hlt
      · exact hlt.trans (hy z hz)
    · refine pairwise_cons.2 ⟨fun z hz => ?_, ih hys⟩
      rcases mem_insertKey.1 hz with rfl | hz
      · exact hgt
      · exact hy z hz
    · exact h

protected def insert (s : OrderedSet α) (x : α) : OrderedSet α :=
  ⟨insertKey x s.keys, sorted_insertKey x s.sorted⟩

theorem mem_insert : y ∈ s.insert x ↔ y = x ∨ y ∈ s := mem_insertKey

/-! ### Erasing a range of iterators -/

/-- `lower_bound`: the position of the first key that is not less. -/
def lowerBound (s : OrderedSet α) (x : α) : ℕ := partitionPoint (fun y => decide (y < x)) s.keys

theorem partitionedBy_lt (s : OrderedSet α) (x : α) :
    PartitionedBy (fun y => decide (y < x)) s.keys :=
  s.sorted.imp fun hab hb => decide_eq_true (hab.trans (of_decide_eq_true hb))

theorem lowerBound_mono (s : OrderedSet α) (h : x ≤ y) : s.lowerBound x ≤ s.lowerBound y :=
  partitionPoint_mono (s.partitionedBy_lt x) (s.partitionedBy_lt y) fun _ hz =>
    decide_eq_true ((of_decide_eq_true hz).trans_le h)

/-- `erase(first, last)`. -/
def erase (s : OrderedSet α) (first last : ℕ) (h : first ≤ last) : OrderedSet α :=
  ⟨s.keys.take first ++ s.keys.drop last, s.sorted.sublist (take_append_drop_sublist _ h)⟩

/-- The keys between two bounds go. -/
def eraseBetween (s : OrderedSet α) (x y : α) (h : x ≤ y) : OrderedSet α :=
  s.erase (s.lowerBound x) (s.lowerBound y) (s.lowerBound_mono h)

theorem mem_eraseBetween {z : α} (h : x ≤ y) :
    z ∈ s.eraseBetween x y h ↔ z ∈ s ∧ ¬(x ≤ z ∧ z < y) := by
  have hz : z ∈ s.eraseBetween x y h ↔ z ∈ s ∧ z < x ∨ z ∈ s ∧ ¬z < y := by
    refine mem_append.trans (or_congr ?_ ?_)
    · exact (mem_take_partitionPoint_iff (s.partitionedBy_lt x)).trans
        (and_congr_right fun _ => decide_eq_true_iff)
    · exact (mem_drop_partitionPoint_iff (s.partitionedBy_lt y)).trans
        (and_congr_right fun _ => decide_eq_false_iff_not)
  rw [hz, ← and_or_left]
  refine and_congr_right fun _ => ?_
  rw [not_and_or, not_le]

end OrderedSet

end FastPPC
