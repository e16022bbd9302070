import Mathlib

/-!
# Coalescing

A loop visits the positions `k`, `k + d`, `k + 2 * d`, ... and merges neighbours that show the same
value into segments.  `f` says what a position shows, `none` being a hole.

* `coalesce` : the loop, with the segment that is open;
* `Tiles` : **what the loop produces**: the positions fall into holes and segments of one value, and
  a segment is not preceded by its own value;
* `Tiles.sorted`, `Tiles.exists_covers_iff`, `Tiles.shows`, `Tiles.maximal_right`,
  `Tiles.maximal_left` : the segments are disjoint and in order, cover the positions that show
  something, show its value, and cannot be extended.
-/

namespace FastPPC.Lists

open List

variable {α : Type*}

/-- The positions of `[start, stop)` show `value`. -/
structure Segment (α : Type*) where
  start : ℕ
  stop : ℕ
  value : α
  deriving DecidableEq

/-- The loop over `n` positions from `k` on; the first argument is the open segment. -/
def coalesce [DecidableEq α] (d : ℕ) (f : ℕ → Option α) :
    Option (Segment α) → ℕ → ℕ → List (Segment α)
  | cur, _, 0 => cur.toList
  | cur, k, n + 1 =>
    match f k with
    | none => cur.toList ++ coalesce d f none (k + d) n
    | some v =>
      match cur with
      | none => coalesce d f (some ⟨k, k + d, v⟩) (k + d) n
      | some g =>
        if v = g.value ∧ k = g.stop then
          coalesce d f (some { g with stop := g.stop + d }) (k + d) n
        else g :: coalesce d f (some ⟨k, k + d, v⟩) (k + d) n

/-- The `n` positions from `k` on fall into holes and these segments; `before` is what the position
before `k` shows. -/
inductive Tiles (d : ℕ) (f : ℕ → Option α) : Option α → ℕ → ℕ → List (Segment α) → Prop
  | nil (before : Option α) (k : ℕ) : Tiles d f before k 0 []
  | hole {before : Option α} {k n : ℕ} {gs : List (Segment α)} :
    f k = none → Tiles d f none (k + d) n gs → Tiles d f before k (n + 1) gs
  | segment {before : Option α} {k n : ℕ} {gs : List (Segment α)} (m : ℕ) (v : α) :
    0 < m → (∀ i < m, f (k + i * d) = some v) → before ≠ some v →
    Tiles d f (some v) (k + m * d) n gs → Tiles d f before k (m + n) (⟨k, k + m * d, v⟩ :: gs)

variable {d : ℕ} {f : ℕ → Option α} {before : Option α} {k n : ℕ} {gs : List (Segment α)}

/-- The loop closes a segment that is open: it tiles the positions from the start of that
segment. -/
theorem coalesce_tiles_aux [DecidableEq α] (d : ℕ) (f : ℕ → Option α) (n : ℕ) :
    (∀ k, Tiles d f none k n (coalesce d f none k n)) ∧
      ∀ before start m v, 0 < m → (∀ i < m, f (start + i * d) = some v) → before ≠ some v →
        Tiles d f before start (m + n)
          (coalesce d f (some ⟨start, start + m * d, v⟩) (start + m * d) n) := by
  induction n with
  | zero =>
    refine ⟨fun k => .nil none k, fun before start m v hm hsh hbef => ?_⟩
    exact .segment m v hm hsh hbef (.nil _ _)
  | succ n ih =>
    obtain ⟨ihnone, ihsome⟩ := ih
    -- a segment of one position is opened
    have hop : ∀ before k v, f k = some v → before ≠ some v → Tiles d f before k (n + 1)
        (coalesce d f (some ⟨k, k + d, v⟩) (k + d) n) := by
      intro before k v hk hbef
      have := ihsome before k 1 v Nat.one_pos
        (fun i hi => by simpa [Nat.lt_one_iff.1 hi] using hk) hbef
      rwa [Nat.one_mul, Nat.add_comm 1 n] at this
    refine ⟨fun k => ?_, fun before start m v hm hsh hbef => ?_⟩
    · rw [coalesce]
      cases hk : f k with
      | none => exact .hole hk (ihnone _)
      | some v => exact hop none k v hk (by simp)
    · rw [coalesce]
      cases hk : f (start + m * d) with
      | none => exact .segment m v hm hsh hbef (.hole hk (ihnone _))
      | some w =>
        dsimp only
        by_cases hw : w = v
        · -- the position joins the open segment
          rw [if_pos ⟨hw, rfl⟩]
          have := ihsome before start (m + 1) v (Nat.succ_pos m) (fun i hi => ?_) hbef
          · rw [Nat.succ_mul, ← Nat.add_assoc, Nat.add_right_comm m 1 n] at this
            exact this
          · rcases Nat.lt_succ_iff_lt_or_eq.1 hi with hi | rfl
            · exact hsh i hi
            · rw [hk, hw]
        · rw [if_neg fun h => hw h.1]
          exact .segment m v hm hsh hbef (hop _ _ w hk fun h => hw (Option.some.inj h).symm)

theorem coalesce_tiles [DecidableEq α] (d : ℕ) (f : ℕ → Option α) (k n : ℕ) :
    Tiles d f none k n (coalesce d f none k n) := (coalesce_tiles_aux d f n).1 k

namespace Tiles

section

variable (h : Tiles d f before k n gs)
include h

theorem bounds : ∀ g ∈ gs, k ≤ g.start ∧ g.stop ≤ k + n * d := by
  induction h with
  | nil => exact fun _ h => absurd h not_mem_nil
  | @hole _ k n _ _ _ ih =>
    intro g hg
    have := ih g hg
    rw [Nat.succ_mul]
    omega
  | @segment _ k n _ m v _ _ _ _ ih =>
    intro g hg
    rw [Nat.add_mul]
    rcases mem_cons.1 hg with rfl | hg
    · exact ⟨Nat.le_refl k, by dsimp only; omega⟩
    · have := ih g hg
      omega

theorem sorted : gs.Pairwise fun g g' => g.stop ≤ g'.start := by
  induction h with
  | nil => exact .nil
  | hole _ _ ih => exact ih
  | segment m v _ _ _ h ih => exact .cons (fun g hg => (h.bounds g hg).1) ih

theorem shows :
    ∀ g ∈ gs, ∃ i m, 0 < m ∧ i + m ≤ n ∧ g.start = k + i * d ∧ g.stop = g.start + m * d ∧
      ∀ j < m, f (g.start + j * d) = some g.value := by
  induction h with
  | nil => exact fun _ h => absurd h not_mem_nil
  | hole _ _ ih =>
    intro g hg
    obtain ⟨i, m, hm, him, hsta, hst, hsh⟩ := ih g hg
    exact ⟨i + 1, m, hm, by omega, by rw [hsta, Nat.succ_mul]; omega, hst, hsh⟩
  | segment m v hm hsh _ _ ih =>
    intro g hg
    rcases mem_cons.1 hg with rfl | hg
    · exact ⟨0, m, hm, by omega, by simp, rfl, hsh⟩
    · obtain ⟨i, m', hm', him, hsta, hst, hsh⟩ := ih g hg
      exact ⟨m + i, m', hm', by omega, by rw [hsta, Nat.add_mul]; omega, hst, hsh⟩

/-- The first position does not go on with the value before it. -/
theorem ne_before (hn : 0 < n) {v : α} (hv : before = some v) : f k ≠ some v := by
  cases h with
  | nil => omega
  | hole hk _ => simp [hk]
  | segment m w hm hsh hbef _ =>
    have hk : f k = some w := by simpa using hsh 0 hm
    rw [hk, ← hv]
    exact hbef.symm

theorem maximal_right : ∀ g ∈ gs, g.stop < k + n * d → f g.stop ≠ some g.value := by
  induction h with
  | nil => exact fun _ h => absurd h not_mem_nil
  | hole _ _ ih =>
    intro g hg hlt
    rw [Nat.succ_mul] at hlt
    exact ih g hg (by omega)
  | @segment _ k n gs m v hm _ _ h ih =>
    intro g hg hlt
    rw [Nat.add_mul] at hlt
    rcases mem_cons.1 hg with rfl | hg
    · refine h.ne_before (Nat.pos_of_ne_zero fun hn => ?_) rfl
      simp [hn] at hlt
    · exact ih g hg (by omega)

theorem maximal_left : ∀ g ∈ gs, (g.start = k ∧ before ≠ some g.value) ∨
      ∃ p, k ≤ p ∧ g.start = p + d ∧ f p ≠ some g.value := by
  induction h with
  | nil => exact fun _ h => absurd h not_mem_nil
  | @hole _ k n gs hk _ ih =>
    intro g hg
    rcases ih g hg with ⟨hsta, -⟩ | ⟨p, hp, hsta, hne⟩
    · exact .inr ⟨k, Nat.le_refl k, hsta, by simp [hk]⟩
    · exact .inr ⟨p, by omega, hsta, hne⟩
  | @segment _ k n gs m v hm hsh hbef _ ih =>
    intro g hg
    rcases mem_cons.1 hg with rfl | hg
    · exact .inl ⟨rfl, hbef⟩
    · rcases ih g hg with ⟨hsta, hne⟩ | ⟨p, hp, hsta, hne⟩
      · -- the position before is the last of this segment
        obtain ⟨l, rfl⟩ := Nat.exists_eq_succ_of_ne_zero (Nat.ne_of_gt hm)
        refine .inr ⟨k + l * d, Nat.le_add_right _ _, ?_, ?_⟩
        · rw [hsta, Nat.succ_mul, Nat.add_assoc]
        · rw [hsh l (Nat.lt_succ_self l)]
          exact hne
      · exact .inr ⟨p, by omega, hsta, hne⟩

end

/-- **The positions in segments are those that show something.** -/
theorem exists_covers_iff (hd : 0 < d) (h : Tiles d f before k n gs) {i : ℕ} (hi : i < n) :
    (∃ g ∈ gs, g.start ≤ k + i * d ∧ k + i * d < g.stop) ↔ f (k + i * d) ≠ none := by
  induction h generalizing i with
  | nil => omega
  | @hole _ k n gs hk h ih =>
    cases i with
    | zero =>
      refine iff_of_false ?_ (by simpa using hk)
      rintro ⟨g, hg, hle, -⟩
      have := (h.bounds g hg).1
      omega
    | succ i =>
      have := ih (i := i) (by omega)
      rwa [Nat.add_assoc, Nat.add_comm d, ← Nat.succ_mul] at this
  | @segment _ k n gs m v hm hsh _ h ih =>
    by_cases him : i < m
    · refine iff_of_true ⟨_, mem_cons_self, Nat.le_add_right _ _, ?_⟩ (by simp [hsh i him])
      exact Nat.add_lt_add_left (Nat.mul_lt_mul_of_pos_right him hd) _
    · obtain ⟨j, rfl⟩ := Nat.exists_eq_add_of_le (Nat.le_of_not_lt him)
      have := ih (i := j) (by omega)
      rw [Nat.add_assoc, ← Nat.add_mul] at this
      rw [← this]
      constructor
      · rintro ⟨g, hg, hle, hlt⟩
        rcases mem_cons.1 hg with rfl | hg
        · dsimp only at hlt
          rw [Nat.add_mul] at hlt
          omega
        · exact ⟨g, hg, hle, hlt⟩
      · rintro ⟨g, hg, hle, hlt⟩
        exact ⟨g, mem_cons_of_mem _ hg, hle, hlt⟩

end Tiles

end FastPPC.Lists
