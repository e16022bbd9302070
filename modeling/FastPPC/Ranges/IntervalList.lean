import FastPPC.Lists.Partition
import FastPPC.Machine.Basic

/-!
# Lists of intervals

`IntervalList` keeps a set of offsets as a sorted vector of half-open intervals.  `Insert` and
`Remove` find the intervals that overlap the new one with one search and patch both ends; intervals
that only touch stay apart.

* `insert`, `remove`, `query`, `intersect`, `contains` : the operations, on lists;
* `WellFormed` : the intervals are not empty, disjoint and sorted;
* `points` : the set a list stands for;
* `interval_list_iff` : after any sequence of insertions and removals the list is well formed and
  stands for the right set, and which queries answer for that set.
-/

namespace FastPPC.Ranges

open List Set

/-- `IntervalList::Interval`: the offsets from `offset` up to `stop`, which is `End`. -/
@[ext]
structure Interval (α : Type*) where
  offset : α
  stop : α
  deriving DecidableEq

variable {α : Type*} [LinearOrder α]

namespace Interval

/-- The offsets of an interval. -/
def points (e : Interval α) : Set α := Set.Ico e.offset e.stop

theorem mem_points {e : Interval α} {x : α} : x ∈ e.points ↔ e.offset ≤ x ∧ x < e.stop := Iff.rfl

end Interval

/-! ### The operations -/

variable (l : List (Interval α))

/-- `std::equal_range` with `LHS.End <= RHS.Offset`: the intervals below an interval, those that
overlap it, and those above it. -/
def equalRange (e : Interval α) :
    List (Interval α) × List (Interval α) × List (Interval α) :=
  let first := partitionPoint (fun i => decide (i.stop ≤ e.offset)) l
  let last := partitionPoint (fun i => !decide (e.stop ≤ i.offset)) l
  (l.take first, (l.drop first).take (last - first), l.drop last)

def insert (e : Interval α) : List (Interval α) :=
  if e.offset = e.stop then l
  else
    let (before, overlap, after) := equalRange l e
    match overlap.head?, overlap.getLast? with
    | some first, some last =>
      before ++ ⟨min e.offset first.offset, max last.stop e.stop⟩ :: after
    | _, _ => before ++ e :: after

/-- The end of `Remove`: what stays of the overlaps when none straddles the start of the
interval. -/
def removeRest (overlap : List (Interval α)) (e : Interval α) : List (Interval α) :=
  match overlap.getLast? with
  | some last => if e.stop < last.stop then [⟨e.stop, last.stop⟩] else []
  | none => []

def remove (e : Interval α) : List (Interval α) :=
  if e.offset = e.stop then l
  else
    let (before, overlap, after) := equalRange l e
    match overlap with
    | [] => l
    | first :: rest =>
      if first.offset < e.offset ∧ e.stop < first.stop then
        before ++ ⟨first.offset, e.offset⟩ :: ⟨e.stop, first.stop⟩ :: (rest ++ after)
      else if first.offset < e.offset then
        before ++ ⟨first.offset, e.offset⟩ :: (removeRest rest e ++ after)
      else before ++ (removeRest (first :: rest) e ++ after)

/-- The first interval that ends above an offset. -/
def upperBound (x : α) : Option (Interval α) :=
  (l.drop (partitionPoint (fun i => !decide (x < i.stop)) l)).head?

structure QueryResult (α : Type*) where
  enclosed : Bool
  size : α
  interval : Interval α
  deriving DecidableEq

def query [Sub α] [Zero α] (l : List (Interval α)) (x : α) : QueryResult α :=
  match upperBound l x with
  | none => ⟨false, 0, ⟨0, 0⟩⟩
  | some i => if x < i.offset then ⟨false, i.offset - x, i⟩ else ⟨true, i.stop - x, i⟩

def intersect (e : Interval α) : Bool :=
  match upperBound l e.offset with
  | none => false
  | some i => decide (i.offset < e.stop)

def contains (e : Interval α) : Bool :=
  match upperBound l e.offset with
  | none => false
  | some i => decide (i.offset ≤ e.offset) && decide (e.stop ≤ i.stop)

/-! ### Well-formed lists -/

/-- The intervals are not empty, disjoint and sorted. -/
structure WellFormed (l : List (Interval α)) : Prop where
  nonempty : ∀ i ∈ l, i.offset < i.stop
  sorted : l.Pairwise fun i j => i.stop ≤ j.offset

/-- The set a list stands for. -/
def points : Set α := {x | ∃ i ∈ l, x ∈ i.points}

theorem points_append (as bs : List (Interval α)) : points (as ++ bs) = points as ∪ points bs := by
  ext x
  simp only [points, mem_append]
  constructor
  · rintro ⟨i, hi | hi, hx⟩
    · exact .inl ⟨i, hi, hx⟩
    · exact .inr ⟨i, hi, hx⟩
  · rintro (⟨i, hi, hx⟩ | ⟨i, hi, hx⟩)
    · exact ⟨i, .inl hi, hx⟩
    · exact ⟨i, .inr hi, hx⟩

theorem points_singleton (i : Interval α) : points [i] = i.points := by
  ext x
  exact ⟨fun ⟨j, hj, hx⟩ => mem_singleton.1 hj ▸ hx, fun hx => ⟨i, mem_singleton_self i, hx⟩⟩

theorem points_nil : points ([] : List (Interval α)) = ∅ :=
  eq_empty_of_forall_notMem fun _ ⟨_, hi, _⟩ => absurd hi not_mem_nil

namespace WellFormed

variable {l as bs : List (Interval α)} {e i : Interval α} {x : α}

theorem nil : WellFormed ([] : List (Interval α)) := ⟨nofun, .nil⟩

theorem append (ha : WellFormed as) (hb : WellFormed bs)
    (h : ∀ i ∈ as, ∀ j ∈ bs, i.stop ≤ j.offset) : WellFormed (as ++ bs) :=
  ⟨fun i hi => (mem_append.1 hi).elim (ha.nonempty i) (hb.nonempty i),
    pairwise_append.2 ⟨ha.sorted, hb.sorted, h⟩⟩

theorem cons (h : WellFormed l) (he : e.offset < e.stop) (hl : ∀ i ∈ l, e.stop ≤ i.offset) :
    WellFormed (e :: l) :=
  ⟨forall_mem_cons.2 ⟨he, h.nonempty⟩, pairwise_cons.2 ⟨hl, h.sorted⟩⟩

theorem of_append (h : WellFormed (as ++ bs)) :
    WellFormed as ∧ WellFormed bs ∧ ∀ i ∈ as, ∀ j ∈ bs, i.stop ≤ j.offset := by
  obtain ⟨ha, hb, hab⟩ := pairwise_append.1 h.sorted
  exact ⟨⟨fun i hi => h.nonempty i (mem_append_left _ hi), ha⟩,
    ⟨fun i hi => h.nonempty i (mem_append_right _ hi), hb⟩, hab⟩

theorem of_cons (h : WellFormed (e :: l)) :
    e.offset < e.stop ∧ WellFormed l ∧ ∀ i ∈ l, e.stop ≤ i.offset := by
  obtain ⟨hlt, hl⟩ := forall_mem_cons.1 h.nonempty
  obtain ⟨hle, hs⟩ := pairwise_cons.1 h.sorted
  exact ⟨hlt, ⟨hl, hs⟩, hle⟩

/-- Two intervals do not overlap. -/
theorem disjoint (h : WellFormed l) {j : Interval α} (hi : i ∈ l) (hj : j ∈ l) (hne : i ≠ j) :
    i.stop ≤ j.offset ∨ j.stop ≤ i.offset := by
  have hsy : Std.Symm fun i j : Interval α => i.stop ≤ j.offset ∨ j.stop ≤ i.offset :=
    ⟨fun _ _ => Or.symm⟩
  have hpr : l.Pairwise fun i j => i.stop ≤ j.offset ∨ j.stop ≤ i.offset :=
    h.sorted.imp fun hle => .inl hle
  exact hpr.forall hi hj hne

theorem partitioned_stop (h : WellFormed l) (x : α) :
    PartitionedBy (fun i => decide (i.stop ≤ x)) l := by
  refine h.sorted.imp_of_mem fun hi hj hle hp => ?_
  exact decide_eq_true (hle.trans ((h.nonempty _ hj).le.trans (of_decide_eq_true hp)))

theorem partitioned_offset (h : WellFormed l) (x : α) :
    PartitionedBy (fun i => !decide (x ≤ i.offset)) l := by
  refine h.sorted.imp_of_mem fun hi hj hle hp => ?_
  rw [Bool.not_eq_true', decide_eq_false_iff_not, not_le] at hp ⊢
  exact ((h.nonempty _ hi).trans_le hle).trans hp

end WellFormed

/-! ### What the searches find -/

/-- The three parts of a list around an interval. -/
structure Split (l : List (Interval α)) (e : Interval α)
    (before overlap after : List (Interval α)) : Prop where
  eq : l = before ++ overlap ++ after
  below : ∀ i ∈ before, i.stop ≤ e.offset
  meets : ∀ i ∈ overlap, e.offset < i.stop ∧ i.offset < e.stop
  above : ∀ i ∈ after, e.stop ≤ i.offset

theorem equalRange_split {l : List (Interval α)} {e : Interval α} (h : WellFormed l)
    (he : e.offset < e.stop) :
    Split l e (equalRange l e).1 (equalRange l e).2.1 (equalRange l e).2.2 := by
  have hfir := h.partitioned_stop e.offset
  have hls := h.partitioned_offset e.stop
  have hbel := fun i hi => of_decide_eq_true (mem_take_partitionPoint hfir (x := i) hi)
  have hnob := fun i hi => of_decide_eq_false (mem_drop_partitionPoint hfir (x := i) hi)
  have hnoa := fun i hi => mem_take_partitionPoint hls (x := i) hi
  have habo := fun i hi => mem_drop_partitionPoint hls (x := i) hi
  unfold equalRange
  generalize hf : partitionPoint (fun i => decide (i.stop ≤ e.offset)) l = first at *
  generalize hl : partitionPoint (fun i => !decide (e.stop ≤ i.offset)) l = last at *
  simp only [Bool.not_eq_true', Bool.not_eq_false', decide_eq_true_eq, decide_eq_false_iff_not,
    not_le] at hnoa habo hnob
  -- an interval that ends below `e` does not start above it
  have hle : first ≤ last := by
    by_contra hgt
    have hlen : first ≤ l.length := hf ▸ (partitionPoint_spec hfir).1
    have hlt : last < l.length := by omega
    have hmem : l[last] ∈ l.take first := by
      rw [mem_take_iff_getElem]
      exact ⟨last, by omega, rfl⟩
    have hmem' : l[last] ∈ l.drop last := by
      rw [drop_eq_getElem_cons hlt]
      exact mem_cons_self
    exact absurd ((hbel _ hmem).trans (he.le.trans (habo _ hmem')))
      (not_le.2 (h.nonempty _ (getElem_mem hlt)))
  have heq : l.take last = l.take first ++ (l.drop first).take (last - first) := by
    rw [← Nat.add_sub_of_le hle, take_add, Nat.add_sub_cancel_left]
  refine ⟨?_, hbel, fun i hi => ⟨hnob i (mem_of_mem_take hi), hnoa i ?_⟩, habo⟩
  · rw [← heq, take_append_drop]
  · rw [heq]
    exact mem_append_right _ hi

namespace Split

variable {l before overlap after : List (Interval α)} {e : Interval α}

section

variable (h : Split l e before overlap after)
include h

theorem points_eq : points l = points before ∪ points overlap ∪ points after := by
  rw [h.eq, points_append, points_append]

theorem notMem_before {x : α} (hx : x ∈ points before) : x < e.offset := by
  obtain ⟨i, hi, hx⟩ := hx
  exact hx.2.trans_le (h.below i hi)

theorem notMem_after {x : α} (hx : x ∈ points after) : e.stop ≤ x := by
  obtain ⟨i, hi, hx⟩ := hx
  exact (h.above i hi).trans hx.1

end

/-- A part between the two others keeps the list well formed if it lies between them. -/
theorem wellFormed_middle (hl : WellFormed l) (h : Split l e before overlap after)
    {middle : List (Interval α)} (hm : WellFormed middle)
    (hbef : ∀ i ∈ before, ∀ j ∈ middle, i.stop ≤ j.offset)
    (haft : ∀ i ∈ middle, ∀ j ∈ after, i.stop ≤ j.offset) :
    WellFormed (before ++ middle ++ after) := by
  rw [h.eq] at hl
  obtain ⟨hbo, ha, hboa⟩ := hl.of_append
  obtain ⟨hb, -, -⟩ := hbo.of_append
  refine (hb.append hm hbef).append ha fun i hi j hj => ?_
  rcases mem_append.1 hi with hi | hi
  · exact hboa i (mem_append_left _ hi) j hj
  · exact haft i hi j hj

theorem overlap_between (hl : WellFormed l) (h : Split l e before overlap after) :
    WellFormed overlap ∧ (∀ i ∈ before, ∀ j ∈ overlap, i.stop ≤ j.offset) ∧
      ∀ i ∈ overlap, ∀ j ∈ after, i.stop ≤ j.offset := by
  rw [h.eq] at hl
  obtain ⟨hbo, -, hboa⟩ := hl.of_append
  obtain ⟨-, ho, hbo'⟩ := hbo.of_append
  exact ⟨ho, hbo', fun i hi => hboa i (mem_append_right _ hi)⟩

theorem replace (hl : WellFormed l) (h : Split l e before overlap after) {m : Interval α}
    (hm : m.offset < m.stop) (hbef : ∀ i ∈ before, i.stop ≤ m.offset)
    (haft : ∀ j ∈ after, m.stop ≤ j.offset) (hp : m.points = points overlap ∪ e.points) :
    WellFormed (before ++ m :: after) ∧ points (before ++ m :: after) = points l ∪ e.points := by
  rw [← singleton_append, ← append_assoc]
  refine ⟨h.wellFormed_middle hl (.cons .nil hm nofun) ?_ ?_, ?_⟩
  · intro i hi j hj
    rw [mem_singleton.1 hj]
    exact hbef i hi
  · intro i hi j hj
    rw [mem_singleton.1 hi]
    exact haft j hj
  · rw [points_append, points_append, points_singleton, hp, h.points_eq]
    ac_rfl

end Split

section Step

variable {i : Interval α}

variable {l before overlap after : List (Interval α)} {e first last : Interval α}

theorem WellFormed.offset_first_le (h : WellFormed overlap) (hfir : overlap.head? = some first) :
    ∀ i ∈ overlap, first.offset ≤ i.offset := by
  obtain ⟨rest, rfl⟩ := head?_eq_some_iff.1 hfir
  obtain ⟨hlt, -, hle⟩ := h.of_cons
  intro i hi
  rcases mem_cons.1 hi with rfl | hi
  · exact le_rfl
  · exact hlt.le.trans (hle i hi)

theorem WellFormed.stop_le_last (h : WellFormed overlap) (hls : overlap.getLast? = some last) :
    ∀ i ∈ overlap, i.stop ≤ last.stop := by
  obtain ⟨init, rfl⟩ := getLast?_eq_some_iff.1 hls
  obtain ⟨-, hl, hle⟩ := h.of_append
  have hlt := hl.nonempty last (mem_singleton_self last)
  intro i hi
  rcases mem_append.1 hi with hi | hi
  · exact (hle i hi last (mem_singleton_self last)).trans hlt.le
  · rw [mem_singleton.1 hi]

/-- The overlaps and the new interval together are one interval. -/
theorem points_merge (ho : WellFormed overlap)
    (hmee : ∀ i ∈ overlap, e.offset < i.stop ∧ i.offset < e.stop)
    (hfir : overlap.head? = some first) (hls : overlap.getLast? = some last) :
    (⟨min e.offset first.offset, max last.stop e.stop⟩ : Interval α).points =
      points overlap ∪ e.points := by
  have hf := mem_of_mem_head? hfir
  have hl := mem_of_mem_getLast? hls
  ext x
  simp only [Interval.mem_points, min_le_iff, lt_max_iff]
  constructor
  · rintro ⟨hlo, hhi⟩
    rcases lt_or_ge x e.offset with hx | hx
    · have hin : first.offset ≤ x := hlo.resolve_left (not_le.2 hx)
      exact .inl ⟨first, hf, hin, hx.trans (hmee first hf).1⟩
    · rcases lt_or_ge x e.stop with hx' | hx'
      · exact .inr ⟨hx, hx'⟩
      · have hin : x < last.stop := hhi.resolve_right (not_lt.2 hx')
        exact .inl ⟨last, hl, (hmee last hl).2.le.trans hx', hin⟩
  · rintro (⟨i, hi, hx⟩ | hx)
    · exact ⟨.inr ((ho.offset_first_le hfir i hi).trans hx.1),
        .inl (hx.2.trans_le (ho.stop_le_last hls i hi))⟩
    · exact ⟨.inl hx.1, .inr hx.2⟩

/-- **`Insert`** adds the points of the interval. -/
theorem insert_spec (hl : WellFormed l) (he : e.offset ≤ e.stop) :
    WellFormed (insert l e) ∧ points (insert l e) = points l ∪ e.points := by
  rw [insert]
  split
  next heq =>
    refine ⟨hl, ?_⟩
    rw [Interval.points, heq, Set.Ico_self, union_empty]
  next hne =>
    have hlt := lt_of_le_of_ne he hne
    have hs := equalRange_split hl hlt
    generalize equalRange l e = parts at hs
    obtain ⟨before, overlap, after⟩ := parts
    dsimp only at hs ⊢
    obtain ⟨ho, hbo, hoa⟩ := hs.overlap_between hl
    split
    next first last hfir hls =>
      refine hs.replace hl ?_ ?_ ?_ (points_merge ho hs.meets hfir hls)
      · exact (min_le_left _ _).trans_lt (hlt.trans_le (le_max_right _ _))
      · exact fun i hi => le_min (hs.below i hi) (hbo i hi first (mem_of_mem_head? hfir))
      · exact fun j hj => max_le (hoa last (mem_of_mem_getLast? hls) j hj) (hs.above j hj)
    next hnn =>
      have hnil : overlap = [] := by
        cases overlap with
        | nil => rfl
        | cons i rest =>
          exact (hnn i _ rfl (getLast?_eq_some_getLast (cons_ne_nil i rest))).elim
      subst hnil
      exact hs.replace hl hlt hs.below hs.above (by rw [points_nil, empty_union])

/-- What stays of the first overlap below the interval. -/
def leftRest (overlap : List (Interval α)) (e : Interval α) : List (Interval α) :=
  match overlap.head? with
  | some first => if first.offset < e.offset then [⟨first.offset, e.offset⟩] else []
  | none => []

/-- `Remove` leaves the ends of the overlaps that stick out. -/
theorem remove_eq (hl : WellFormed l) (he : e.offset < e.stop) (hs : Split l e before overlap after)
    (heq : equalRange l e = (before, overlap, after)) :
    remove l e = before ++ (leftRest overlap e ++ removeRest overlap e) ++ after := by
  rw [remove, if_neg he.ne, heq]
  cases overlap with
  | nil =>
    rw [hs.eq]
    rfl
  | cons first rest =>
    obtain ⟨-, -, hfir⟩ := (hs.overlap_between hl).1.of_cons
    have hlf : first.offset < e.offset →
        leftRest (first :: rest) e = [⟨first.offset, e.offset⟩] := fun h => if_pos h
    have hnol : ¬first.offset < e.offset → leftRest (first :: rest) e = [] := fun h => if_neg h
    have hls : rest ≠ [] → removeRest (first :: rest) e = removeRest rest e := by
      intro hne
      obtain ⟨i, rest', rfl⟩ := exists_cons_of_ne_nil hne
      rw [removeRest, removeRest, getLast?_cons_cons]
    have hsin : removeRest [first] e =
        if e.stop < first.stop then [⟨e.stop, first.stop⟩] else [] := rfl
    dsimp only
    split
    next hin =>
      -- an interval that reaches beyond both ends is the only overlap
      have hnil : rest = [] := by
        by_contra hne
        obtain ⟨i, hi⟩ := exists_mem_of_ne_nil rest hne
        have hi' := (hs.meets i (mem_cons_of_mem _ hi)).2
        exact lt_irrefl _ (((hfir i hi).trans_lt hi').trans hin.2)
      subst hnil
      rw [hlf hin.1, hsin, if_pos hin.2]
      simp
    next hout =>
      split
      next hlt =>
        rw [hlf hlt]
        by_cases hnil : rest = []
        · subst hnil
          rw [hsin, if_neg fun h => hout ⟨hlt, h⟩]
          simp [removeRest]
        · rw [hls hnil]
          simp
      next hge =>
        rw [hnol hge]
        simp

section

variable (ho : WellFormed overlap) (hmee : ∀ i ∈ overlap, e.offset < i.stop ∧ i.offset < e.stop)
include ho hmee

theorem points_leftRest : points (leftRest overlap e) = points overlap ∩ Set.Iio e.offset := by
  rw [leftRest]
  split
  next first hfir =>
    have hf := mem_of_mem_head? hfir
    have hle := ho.offset_first_le hfir
    split
    next hlt =>
      ext x
      rw [points_singleton, Interval.mem_points]
      constructor
      · intro hx
        exact ⟨⟨first, hf, hx.1, hx.2.trans (hmee first hf).1⟩, hx.2⟩
      · rintro ⟨⟨i, hi, hx⟩, hlt⟩
        exact ⟨(hle i hi).trans hx.1, hlt⟩
    next hge =>
      rw [points_nil]
      refine (eq_empty_of_forall_notMem ?_).symm
      rintro x ⟨⟨i, hi, hx⟩, hlt⟩
      exact hge (((hle i hi).trans hx.1).trans_lt hlt)
  next hnn =>
    rw [head?_eq_none_iff.1 hnn, points_nil, empty_inter]

theorem points_removeRest : points (removeRest overlap e) = points overlap ∩ Set.Ici e.stop := by
  rw [removeRest]
  split
  next last hls =>
    have hg := mem_of_mem_getLast? hls
    have hle := ho.stop_le_last hls
    split
    next hlt =>
      ext x
      rw [points_singleton, Interval.mem_points]
      constructor
      · intro hx
        exact ⟨⟨last, hg, (hmee last hg).2.le.trans hx.1, hx.2⟩, hx.1⟩
      · rintro ⟨⟨i, hi, hx⟩, hge⟩
        exact ⟨hge, hx.2.trans_le (hle i hi)⟩
    next hge =>
      rw [points_nil]
      refine (eq_empty_of_forall_notMem ?_).symm
      rintro x ⟨⟨i, hi, hx⟩, hge'⟩
      exact hge ((mem_Ici.1 hge').trans_lt (hx.2.trans_le (hle i hi)))
  next hnn =>
    rw [getLast?_eq_none_iff.1 hnn, points_nil, empty_inter]

end

/-- The ends that stay lie on the two sides of the interval, inside the overlaps. -/
theorem mem_leftRest (hi : i ∈ leftRest overlap e) :
    i.offset < i.stop ∧ i.stop = e.offset ∧ ∃ j ∈ overlap, j.offset = i.offset := by
  rw [leftRest] at hi
  split at hi
  next first hfir =>
    split at hi
    next hlt =>
      rw [mem_singleton.1 hi]
      exact ⟨hlt, rfl, first, mem_of_mem_head? hfir, rfl⟩
    next => cases hi
  next => cases hi

theorem mem_removeRest (hi : i ∈ removeRest overlap e) :
    i.offset < i.stop ∧ i.offset = e.stop ∧ ∃ j ∈ overlap, j.stop = i.stop := by
  rw [removeRest] at hi
  split at hi
  next last hls =>
    split at hi
    next hlt =>
      rw [mem_singleton.1 hi]
      exact ⟨hlt, rfl, last, mem_of_mem_getLast? hls, rfl⟩
    next => cases hi
  next => cases hi

/-- A list of at most one interval that is not empty. -/
theorem WellFormed.of_length_le_one (hne : ∀ i ∈ l, i.offset < i.stop) (hlen : l.length ≤ 1) :
    WellFormed l := by
  cases l with
  | nil => exact .nil
  | cons i rest =>
    have hnil : rest = [] := length_eq_zero_iff.1 (Nat.le_zero.1 (Nat.le_of_succ_le_succ hlen))
    subst hnil
    exact .cons .nil (hne i mem_cons_self) nofun

/-- **`Remove`** takes the points of the interval away. -/
theorem remove_spec (hl : WellFormed l) (he : e.offset ≤ e.stop) :
    WellFormed (remove l e) ∧ points (remove l e) = points l \ e.points := by
  rcases he.eq_or_lt with heq | hlt
  · rw [remove, if_pos heq, Interval.points, heq, Set.Ico_self, sdiff_empty]
    exact ⟨hl, rfl⟩
  rcases hpar : equalRange l e with ⟨before, overlap, after⟩
  have hs := equalRange_split hl hlt
  rw [hpar] at hs
  obtain ⟨ho, hbo, hoa⟩ := hs.overlap_between hl
  have hlf : WellFormed (leftRest overlap e) := by
    refine .of_length_le_one (fun i hi => (mem_leftRest hi).1) ?_
    rw [leftRest]
    split
    · split <;> simp
    · exact Nat.zero_le _
  have hrig : WellFormed (removeRest overlap e) := by
    refine .of_length_le_one (fun i hi => (mem_removeRest hi).1) ?_
    rw [removeRest]
    split
    · split <;> simp
    · exact Nat.zero_le _
  rw [remove_eq hl hlt hs hpar]
  constructor
  · refine hs.wellFormed_middle hl (hlf.append hrig fun i hi j hj => ?_) ?_ ?_
    · rw [(mem_leftRest hi).2.1, (mem_removeRest hj).2.1]
      exact hlt.le
    · intro i hi j hj
      rcases mem_append.1 hj with hj | hj
      · obtain ⟨-, -, k, hk, hkj⟩ := mem_leftRest hj
        exact hkj ▸ hbo i hi k hk
      · rw [(mem_removeRest hj).2.1]
        exact (hs.below i hi).trans hlt.le
    · intro i hi j hj
      rcases mem_append.1 hi with hi | hi
      · rw [(mem_leftRest hi).2.1]
        exact hlt.le.trans (hs.above j hj)
      · obtain ⟨-, -, k, hk, hki⟩ := mem_removeRest hi
        exact hki ▸ hoa k hk j hj
  · rw [points_append, points_append, points_append, points_leftRest ho hs.meets,
      points_removeRest ho hs.meets, hs.points_eq]
    ext x
    have hb : x ∈ points before → x < e.offset := hs.notMem_before
    have ha : x ∈ points after → e.stop ≤ x := hs.notMem_after
    simp only [mem_sdiff,
      Interval.mem_points, not_and_or, not_le, not_lt]
    constructor
    · rintro ((hx | ⟨hx, hlo⟩ | ⟨hx, hhi⟩) | hx)
      · exact ⟨.inl (.inl hx), .inl (hb hx)⟩
      · exact ⟨.inl (.inr hx), .inl hlo⟩
      · exact ⟨.inl (.inr hx), .inr hhi⟩
      · exact ⟨.inr hx, .inr (ha hx)⟩
    · rintro ⟨(hx | hx) | hx, hout⟩
      · exact .inl (.inl hx)
      · exact .inl (.inr (hout.imp (⟨hx, ·⟩) (⟨hx, ·⟩)))
      · exact .inr hx

end Step

/-! ### Queries -/

section Query

variable {l : List (Interval α)} {e i : Interval α} {x : α}

/-- What `Query` promises: whether `x` is in the set, and else how far the next point is. -/
def QueryExact [Sub α] [Zero α] (l : List (Interval α)) (x : α) : Prop :=
  ((query l x).enclosed = true ↔ x ∈ points l) ∧
    (x ∉ points l → (∃ y, IsLeast (points l ∩ Set.Ioi x) y ∧ (query l x).size = y - x) ∨
      (points l ∩ Set.Ioi x = ∅ ∧ (query l x).size = 0))

/-- An interval with a point meets the set exactly if it overlaps one of the intervals. -/
theorem meets_iff (he : e.offset < e.stop) (hl : WellFormed l) :
    (∃ i ∈ l, i.offset < e.stop ∧ e.offset < i.stop) ↔ ∃ x ∈ e.points, x ∈ points l := by
  constructor
  · rintro ⟨i, hi, hlo, hhi⟩
    refine ⟨max i.offset e.offset, ⟨le_max_right _ _, max_lt hlo he⟩, i, hi, le_max_left _ _, ?_⟩
    exact max_lt (hl.nonempty i hi) hhi
  · rintro ⟨x, hx, i, hi, hxi⟩
    exact ⟨i, hi, hxi.1.trans_lt hx.2, hx.1.trans_lt hxi.2⟩

section

variable (hl : WellFormed l)
include hl

/-- The two sides of the search for the first interval that ends above `x`. -/
theorem upperBound_sides (x : α) :
    ∃ as bs, l = as ++ bs ∧ upperBound l x = bs.head? ∧ (∀ j ∈ as, j.stop ≤ x) ∧
      ∀ j ∈ bs, x < j.stop := by
  have hpr : PartitionedBy (fun i => !decide (x < i.stop)) l := by
    have hcongr : (fun i : Interval α => !decide (x < i.stop)) = fun i => decide (i.stop ≤ x) := by
      funext i
      rw [← decide_not, decide_eq_decide, not_lt]
    rw [hcongr]
    exact hl.partitioned_stop x
  refine ⟨_, _, (take_append_drop _ l).symm, rfl, fun j hj => ?_, fun j hj => ?_⟩
  · have hp := mem_take_partitionPoint hpr hj
    rwa [Bool.not_eq_true', decide_eq_false_iff_not, not_lt] at hp
  · have hp := mem_drop_partitionPoint hpr hj
    rwa [Bool.not_eq_false', decide_eq_true_eq] at hp

/-- **The search**: it finds the first interval that ends above `x`. -/
theorem upperBound_eq_some (h : upperBound l x = some i) :
    i ∈ l ∧ x < i.stop ∧ ∀ j ∈ l, x < j.stop → j = i ∨ i.stop ≤ j.offset := by
  obtain ⟨as, bs, rfl, hub, has, hbs⟩ := upperBound_sides hl x
  rw [hub] at h
  obtain ⟨rest, rfl⟩ := head?_eq_some_iff.1 h
  obtain ⟨-, -, habo⟩ := hl.of_append.2.1.of_cons
  refine ⟨mem_append_right _ mem_cons_self, hbs i mem_cons_self, fun j hj hx => ?_⟩
  rcases mem_append.1 hj with hj | hj
  · exact absurd hx (not_lt.2 (has j hj))
  · exact (mem_cons.1 hj).imp id (habo j)

/-- It finds nothing if there is none. -/
theorem upperBound_eq_none (h : upperBound l x = none) : ∀ j ∈ l, j.stop ≤ x := by
  obtain ⟨as, bs, rfl, hub, has, -⟩ := upperBound_sides hl x
  rw [hub, head?_eq_none_iff] at h
  subst h
  rwa [append_nil]

theorem query_exact [Sub α] [Zero α] (x : α) : QueryExact l x := by
  rw [QueryExact, query]
  split
  next hnn =>
    have hle := upperBound_eq_none hl hnn
    have hout : ∀ y, x ≤ y → y ∉ points l := by
      rintro y hxy ⟨j, hj, hy⟩
      exact absurd (hxy.trans_lt hy.2) (not_lt.2 (hle j hj))
    refine ⟨⟨nofun, fun hx => absurd hx (hout x le_rfl)⟩, fun _ => .inr ⟨?_, rfl⟩⟩
    exact eq_empty_of_forall_notMem fun y hy => hout y (mem_Ioi.1 hy.2).le hy.1
  next i hsm =>
    obtain ⟨hi, hxi, hfir⟩ := upperBound_eq_some hl hsm
    have hlt := hl.nonempty i hi
    split
    next hx =>
      -- every point above `x` is in this interval or in a later one
      have hnx : ∀ y ∈ points l, x ≤ y → i.offset ≤ y := by
        rintro y ⟨j, hj, hy⟩ hxy
        rcases hfir j hj (hxy.trans_lt hy.2) with rfl | hle
        · exact hy.1
        · exact hlt.le.trans (hle.trans hy.1)
      refine ⟨⟨nofun, fun hmem => absurd (hnx x hmem le_rfl) (not_le.2 hx)⟩,
        fun _ => .inl ⟨i.offset, ⟨⟨⟨i, hi, le_rfl, hlt⟩, hx⟩, ?_⟩, rfl⟩⟩
      exact fun y hy => hnx y hy.1 (mem_Ioi.1 hy.2).le
    next hx =>
      have hin : x ∈ points l := ⟨i, hi, not_lt.1 hx, hxi⟩
      exact ⟨⟨fun _ => hin, fun _ => rfl⟩, fun hout => absurd hin hout⟩

/-- **`Intersect`** asks whether some interval starts before the end and ends after the start. -/
theorem intersect_iff : intersect l e = true ↔ ∃ i ∈ l, i.offset < e.stop ∧ e.offset < i.stop := by
  rw [intersect]
  split
  next hnn =>
    refine ⟨nofun, ?_⟩
    rintro ⟨j, hj, -, hlt⟩
    exact absurd hlt (not_lt.2 (upperBound_eq_none hl hnn j hj))
  next i hsm =>
    obtain ⟨hi, hxi, hfir⟩ := upperBound_eq_some hl hsm
    rw [decide_eq_true_eq]
    constructor
    · intro hlt
      exact ⟨i, hi, hlt, hxi⟩
    · rintro ⟨j, hj, hlt, hxj⟩
      rcases hfir j hj hxj with rfl | hle
      · exact hlt
      · exact ((hl.nonempty i hi).trans_le hle).trans hlt

/-- **`Contains`** asks whether one interval holds it all. -/
theorem contains_iff (he : e.offset < e.stop) :
    contains l e = true ↔ ∃ i ∈ l, i.offset ≤ e.offset ∧ e.stop ≤ i.stop := by
  rw [contains]
  split
  next hnn =>
    refine ⟨nofun, ?_⟩
    rintro ⟨j, hj, -, hle⟩
    exact absurd (he.trans_le hle) (not_lt.2 (upperBound_eq_none hl hnn j hj))
  next i hsm =>
    obtain ⟨hi, hxi, hfir⟩ := upperBound_eq_some hl hsm
    rw [Bool.and_eq_true, decide_eq_true_eq, decide_eq_true_eq]
    constructor
    · rintro ⟨hlo, hhi⟩
      exact ⟨i, hi, hlo, hhi⟩
    · rintro ⟨j, hj, hlo, hhi⟩
      rcases hfir j hj (he.trans_le hhi) with rfl | hle
      · exact ⟨hlo, hhi⟩
      · exact absurd (hle.trans hlo) (not_le.2 hxi)

/-- An interval inside the set lies in one of the intervals unless one of them ends inside it. -/
theorem covered_iff (he : e.offset < e.stop) (hcov : e.points ⊆ points l) :
    (∃ i ∈ l, i.offset ≤ e.offset ∧ e.stop ≤ i.stop) ↔
      ∀ i ∈ l, ¬(e.offset < i.stop ∧ i.stop < e.stop) := by
  obtain ⟨i, hi, hei⟩ := hcov ⟨le_rfl, he⟩
  constructor
  · rintro ⟨k, hk, hklo, hkhi⟩ j hj ⟨hjlo, hjhi⟩
    -- the interval that ends inside would overlap the one around it
    have hjlt := hl.nonempty j hj
    have hne : j ≠ k := fun heq => absurd hkhi (not_le.2 (heq ▸ hjhi))
    rcases hl.disjoint hj hk hne with hle | hle
    · exact absurd (hle.trans hklo) (not_le.2 hjlo)
    · exact absurd (hjlt.trans hjhi) (not_lt.2 (hkhi.trans hle))
  · intro hno
    exact ⟨i, hi, hei.1, not_lt.1 fun hlt => hno i hi ⟨hei.2, hlt⟩⟩

end

end Query

/-! ### Sequences of calls -/

/-- `Insert` and `Remove`. -/
inductive Op (α : Type*)
  | insert (e : Interval α)
  | remove (e : Interval α)

/-- The interval of a call does not end before it starts. -/
def Op.Valid : Op α → Prop
  | .insert e | .remove e => e.offset ≤ e.stop

def apply : Op α → List (Interval α)
  | .insert e => insert l e
  | .remove e => remove l e

/-- What a call does to the set. -/
def specApply (s : Set α) : Op α → Set α
  | .insert e => s ∪ e.points
  | .remove e => s \ e.points

def machine (α : Type*) [LinearOrder α] : Machine (List (Interval α)) (Op α) := .ofFun apply

/-- One call keeps the list in step with the set. -/
theorem apply_spec {l : List (Interval α)} {op : Op α} (hop : op.Valid) (hl : WellFormed l) :
    WellFormed (apply l op) ∧ points (apply l op) = specApply (points l) op := by
  cases op with
  | insert e => exact insert_spec hl hop
  | remove e => exact remove_spec hl hop

/-- **The list stands for a set.**  After any calls it is well formed, its points are those inserted
and not removed since, and `Query` is exact.  `Intersect` is exact except on an interval without
points that lies inside one of the list; `Contains` is exact except on an interval inside the set in
which one of the list ends. -/
theorem interval_list_iff [Sub α] [Zero α] {ops : List (Op α)} {l : List (Interval α)}
    (hrun : (machine α).Run (fun _ op => op.Valid) [] ops l) :
    WellFormed l ∧ points l = ops.foldl specApply ∅ ∧ (∀ x, QueryExact l x) ∧
      (∀ e, ((intersect l e = true ↔ ∃ x ∈ e.points, x ∈ points l) ↔
        e.offset < e.stop ∨ ∀ i ∈ l, ¬(i.offset < e.stop ∧ e.offset < i.stop))) ∧
      ∀ e, e.offset < e.stop → ((contains l e = true ↔ e.points ⊆ points l) ↔
        (e.points ⊆ points l → ∀ i ∈ l, ¬(e.offset < i.stop ∧ i.stop < e.stop))) := by
  have hsim : WellFormed l ∧ points l = ops.foldl specApply ∅ := by
    refine hrun.simulation (R := fun l s => WellFormed l ∧ points l = s) specApply
      ⟨.nil, points_nil⟩ ?_
    rintro l s op l' ⟨hl, rfl⟩ hop rfl
    exact apply_spec hop hl
  obtain ⟨hl, hpoi⟩ := hsim
  refine ⟨hl, hpoi, query_exact hl, fun e => ?_, fun e he => ?_⟩
  · rw [intersect_iff hl]
    rcases lt_or_ge e.offset e.stop with he | he
    · exact ⟨fun _ => .inl he, fun _ => meets_iff he hl⟩
    · have hemp : ¬∃ x ∈ e.points, x ∈ points l := by
        rintro ⟨x, hx, -⟩
        exact absurd (hx.1.trans_lt hx.2) (not_lt.2 he)
      rw [iff_false_right hemp, or_iff_right (not_lt.2 he)]
      simp
  · rw [contains_iff hl he]
    constructor
    · intro hexa hcov
      exact (covered_iff hl he hcov).1 (hexa.2 hcov)
    · intro hno
      refine ⟨?_, fun hcov => (covered_iff hl he hcov).2 (hno hcov)⟩
      rintro ⟨i, hi, hlo, hhi⟩ x hx
      exact ⟨i, hi, hlo.trans hx.1, hx.2.trans_le hhi⟩

/-- Two intervals that touch, and a hole in the first. -/
def touching : List (Op ℕ) := [.insert ⟨0, 5⟩, .insert ⟨5, 10⟩, .remove ⟨2, 3⟩]

theorem run_touching :
    (machine ℕ).Run (fun _ op => op.Valid) [] touching [⟨0, 2⟩, ⟨3, 5⟩, ⟨5, 10⟩] := by
  have hins : (machine ℕ).step [] (.insert ⟨0, 5⟩) [⟨0, 5⟩] := by rfl
  have hins' : (machine ℕ).step [⟨0, 5⟩] (.insert ⟨5, 10⟩) [⟨0, 5⟩, ⟨5, 10⟩] := by rfl
  have hrem : (machine ℕ).step [⟨0, 5⟩, ⟨5, 10⟩] (.remove ⟨2, 3⟩) [⟨0, 2⟩, ⟨3, 5⟩, ⟨5, 10⟩] := by
    rfl
  exact .cons (Nat.zero_le 5) hins (.cons (Nat.le_of_ble_eq_true rfl) hins'
    (.cons (Nat.le_of_ble_eq_true rfl) hrem (.nil _)))

/-- The list after these calls, with the distance from the hole to the next point. -/
theorem interval_list_touching : WellFormed ([⟨0, 2⟩, ⟨3, 5⟩, ⟨5, 10⟩] : List (Interval ℕ)) ∧
      QueryExact ([⟨0, 2⟩, ⟨3, 5⟩, ⟨5, 10⟩] : List (Interval ℕ)) 2 ∧
      query ([⟨0, 2⟩, ⟨3, 5⟩, ⟨5, 10⟩] : List (Interval ℕ)) 2 = ⟨false, 1, ⟨3, 5⟩⟩ := by
  have h := interval_list_iff run_touching
  exact ⟨h.1, h.2.2.1 2, by decide⟩

/-- All points from 4 up to 7 are in the set, and none of the empty interval at 7 is. -/
theorem interval_list_wrong :
    (machine ℕ).Run (fun _ op => op.Valid) [] touching [⟨0, 2⟩, ⟨3, 5⟩, ⟨5, 10⟩] ∧
      (contains ([⟨0, 2⟩, ⟨3, 5⟩, ⟨5, 10⟩] : List (Interval ℕ)) ⟨4, 7⟩ = false ∧
        (⟨4, 7⟩ : Interval ℕ).points ⊆ points [⟨0, 2⟩, ⟨3, 5⟩, ⟨5, 10⟩]) ∧
      intersect ([⟨0, 2⟩, ⟨3, 5⟩, ⟨5, 10⟩] : List (Interval ℕ)) ⟨7, 7⟩ = true ∧
        (⟨7, 7⟩ : Interval ℕ).points = ∅ := by
  refine ⟨run_touching, ⟨by decide, fun x hx => ?_⟩, by decide, Set.Ico_self 7⟩
  have hx' : 4 ≤ x ∧ x < 7 := hx
  rcases lt_or_ge x 5 with hlt | hge
  · exact ⟨⟨3, 5⟩, by simp, (by omega : 3 ≤ x), hlt⟩
  · exact ⟨⟨5, 10⟩, by simp, hge, (by omega : x < 10)⟩

end FastPPC.Ranges
