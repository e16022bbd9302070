import Mathlib

/-!
# Intrusive doubly linked lists

A family of nodes carries two link fields, `prev` and `next`, and a head pointer `first` names
the first node.  `IsDList prev next first l` says that following the links from `first`
visits exactly the nodes of `l`, in that order and once each, and that the backward links agree.

The four operations an intrusive list offers are described by what they do to the link
fields, and each is proved to change the represented list in the expected way:

* `IsDList.remove` : unlinking a node;
* `IsDList.replace` : putting a fresh node in the place of another one;
* `IsDList.insertAfter` : linking a fresh node behind a given one;
* `IsDList.prepend` : linking a fresh node in front.

The represented list changes by `substNode`, which puts a segment in the place of one node.
-/

namespace FastPPC.DList

open List

variable {ι : Type*} {seg : List ι} {y : ι}

/-! ### Putting a segment in the place of a node -/

section

variable {x : ι} {l : List ι}

variable [DecidableEq ι]

/-- Put the segment `seg` in the place of the node `x`. -/
def substNode (x : ι) (seg l : List ι) : List ι := l.flatMap fun y => if y = x then seg else [y]

theorem substNode_of_not_mem (seg : List ι) (h : x ∉ l) : substNode x seg l = l := by
  induction l with
  | nil => rfl
  | cons y l ih =>
    have hy : y ≠ x := fun e => h (e ▸ mem_cons_self)
    have ih' := ih fun hx => h (mem_cons_of_mem _ hx)
    simp only [substNode, flatMap_cons, hy] at ih' ⊢
    rw [ih']; rfl

theorem substNode_append {l₁ l₂ : List ι} (h₁ : x ∉ l₁) (h₂ : x ∉ l₂) :
    substNode x seg (l₁ ++ x :: l₂) = l₁ ++ seg ++ l₂ := by
  have e₁ := substNode_of_not_mem seg h₁
  have e₂ := substNode_of_not_mem seg h₂
  simp only [substNode] at e₁ e₂ ⊢
  simp [e₁, e₂]

theorem mem_substNode : y ∈ substNode x seg l ↔ (y ∈ l ∧ y ≠ x) ∨ (x ∈ l ∧ y ∈ seg) := by
  simp only [substNode, mem_flatMap]
  constructor
  · rintro ⟨z, hz, hy⟩
    split_ifs at hy with hzx
    · exact .inr ⟨hzx ▸ hz, hy⟩
    · obtain rfl := mem_singleton.1 hy
      exact .inl ⟨hz, hzx⟩
  · rintro (⟨hy, hne⟩ | ⟨hx, hy⟩)
    · exact ⟨y, hy, by simp [hne]⟩
    · exact ⟨x, hx, by simpa using hy⟩

theorem substNode_self : substNode x [x] l = l := by
  induction l with
  | nil => rfl
  | cons y l ih =>
    have hy : (if y = x then [x] else [y]) = [y] := by split_ifs with h <;> simp [h]
    simp only [substNode, flatMap_cons, hy] at ih ⊢
    rw [ih]; rfl

theorem substNode_nil_of_nodup (h : l.Nodup) : substNode x [] l = l.erase x := by
  by_cases hx : x ∈ l
  · obtain ⟨l₁, l₂, rfl⟩ := append_of_mem hx
    have hd := nodup_append.1 h
    have x₁ : x ∉ l₁ := fun h₁ => hd.2.2 x h₁ x mem_cons_self rfl
    rw [substNode_append x₁ (nodup_cons.1 hd.2.1).1, erase_append_right _ x₁]
    simp
  · rw [substNode_of_not_mem _ hx, erase_of_not_mem hx]

/-- Substituting for a node of the segment that was substituted itself. -/
theorem substNode_substNode {seg' : List ι} (hy : y ∉ l ∨ y = x) :
    substNode y seg' (substNode x seg l) = substNode x (substNode y seg' seg) l := by
  induction l with
  | nil => rfl
  | cons z l ih =>
    have hy' : y ∉ l ∨ y = x := hy.imp_left fun h h' => h (mem_cons_of_mem _ h')
    have ih' := ih hy'
    simp only [substNode, flatMap_cons, flatMap_append] at ih' ⊢
    rw [ih']
    congr 1
    by_cases hz : z = x
    · simp [hz]
    · have hzy : z ≠ y := by
        rintro rfl
        exact hy.elim (fun h => h mem_cons_self) hz
      simp [hz, hzy]

/-- Filtering commutes with a substitution whose segment is kept or dropped with the node. -/
theorem filter_substNode (p : ι → Bool) (h : ∀ y ∈ seg, p y = p x) :
    (substNode x seg l).filter p = substNode x (if p x then seg else []) (l.filter p) := by
  induction l with
  | nil => rfl
  | cons y l ih =>
    simp only [substNode, flatMap_cons, filter_append] at ih ⊢
    rw [ih]
    by_cases hy : y = x
    · subst hy
      cases hp : p y
      · have : seg.filter p = [] := filter_eq_nil_iff.2 fun z hz => by simp [h z hz, hp]
        simp [hp, this]
      · have : seg.filter p = seg := filter_eq_self.2 fun z hz => by simp [h z hz, hp]
        simp [hp, this]
    · cases hp : p y <;> simp [hy, hp]

end

/-! ### Linked segments -/

variable {b a : Option ι}

/-- The links inside the segment `l`, whose neighbours are `b` on the left and `a` on the
right. -/
def Seg (prev next : ι → Option ι) : Option ι → List ι → Option ι → Prop
  | _, [], _ => True
  | b, x :: xs, a => prev x = b ∧ next x = xs.head?.or a ∧ Seg prev next (some x) xs a

/-- `first` heads a doubly linked list of the nodes `l`. -/
structure IsDList (prev next : ι → Option ι) (first : Option ι) (l : List ι) : Prop where
  /-- Every node is linked once. -/
  nodup : l.Nodup
  /-- The head pointer names the first node. -/
  first_eq : first = l.head?
  /-- The link fields agree with the order of `l`. -/
  seg : Seg prev next none l none

variable {prev next prev' next' : ι → Option ι} {first first' : Option ι}

theorem seg_append {l₁ l₂ : List ι} : Seg prev next b (l₁ ++ l₂) a ↔
      Seg prev next b l₁ (l₂.head?.or a) ∧ Seg prev next (l₁.getLast?.or b) l₂ a := by
  induction l₁ generalizing b with
  | nil => simp [Seg]
  | cons x xs ih =>
    have hl : (x :: xs).getLast?.or b = xs.getLast?.or (some x) := by
      cases xs with
      | nil => simp
      | cons y ys =>
        rw [getLast?_cons_cons]
        cases h : (y :: ys).getLast? with
        | none => simp at h
        | some z => simp
    have hh : (xs ++ l₂).head?.or a = xs.head?.or (l₂.head?.or a) := by
      cases xs <;> simp
    simp only [cons_append, Seg, ih, hl, hh, and_assoc]

theorem Seg.congr {l : List ι} (h : Seg prev next b l a) (hp : ∀ x ∈ l, prev' x = prev x)
    (hn : ∀ x ∈ l, next' x = next x) : Seg prev' next' b l a := by
  induction l generalizing b with
  | nil => trivial
  | cons x xs ih =>
    obtain ⟨h₁, h₂, h₃⟩ := h
    refine ⟨(hp x mem_cons_self).trans h₁, (hn x mem_cons_self).trans h₂, ?_⟩
    exact ih h₃ (fun y hy => hp y (mem_cons_of_mem _ hy)) fun y hy => hn y (mem_cons_of_mem _ hy)

namespace IsDList

variable {l l₁ l₂ : List ι} {x : ι}

theorem congr (h : IsDList prev next first l) (hp : ∀ x ∈ l, prev' x = prev x)
    (hn : ∀ x ∈ l, next' x = next x) : IsDList prev' next' first l :=
  ⟨h.nodup, h.first_eq, h.seg.congr hp hn⟩

section

variable (h : IsDList prev next first (l₁ ++ x :: l₂))
include h

/-- The links of a node are its neighbours in the list. -/
theorem links : prev x = l₁.getLast? ∧ next x = l₂.head? := by
  have hs := (seg_append.1 h.seg).2
  simp only [Seg, Option.or_none] at hs
  exact ⟨hs.1, hs.2.1⟩

theorem segs : Seg prev next none l₁ (some x) ∧ Seg prev next (some x) l₂ none := by
  have hs := seg_append.1 h.seg
  exact ⟨by simpa using hs.1, hs.2.2.2⟩

theorem nodups : l₁.Nodup ∧ l₂.Nodup ∧ x ∉ l₁ ∧ x ∉ l₂ ∧ ∀ a ∈ l₁, ∀ b ∈ l₂, a ≠ b := by
  have hd := nodup_append.1 h.nodup
  have hd₂ := nodup_cons.1 hd.2.1
  exact ⟨hd.1, hd₂.2, fun hx => hd.2.2 x hx x mem_cons_self rfl, hd₂.1,
    fun a ha b hb => hd.2.2 a ha b (mem_cons_of_mem _ hb)⟩

/-- The head pointer names `x` exactly when `x` has no predecessor. -/
theorem first_iff :
    first = some x ↔ prev x = none := by
  rw [h.links.1, h.first_eq]
  cases l₁ with
  | nil => simp
  | cons y ys =>
    have hne : y ≠ x := fun e => h.nodups.2.2.1 (e ▸ mem_cons_self)
    simp [hne]

/-- The nodes of a list that hold the neighbours of `x`. -/
theorem prev_eq_some : prev x = some y ↔ l₁.getLast? = some y := by rw [h.links.1]

theorem next_eq_some :
    next x = some y ↔ l₂.head? = some y := by rw [h.links.2]

end

end IsDList

variable [DecidableEq ι]

/-- A segment keeps its links when its right neighbour changes and its last node is relinked. -/
theorem Seg.relinkRight {a' : Option ι} {l : List ι} (h : Seg prev next b l a) (hd : l.Nodup)
    (hp : ∀ x ∈ l, prev' x = prev x)
    (hn : ∀ x ∈ l, next' x = if l.getLast? = some x then a' else next x) :
    Seg prev' next' b l a' := by
  induction l generalizing b with
  | nil => trivial
  | cons x xs ih =>
    obtain ⟨h₁, h₂, h₃⟩ := h
    rw [nodup_cons] at hd
    refine ⟨(hp x mem_cons_self).trans h₁, ?_, ih h₃ hd.2
      (fun y hy => hp y (mem_cons_of_mem _ hy)) fun y hy => ?_⟩
    · rw [hn x mem_cons_self]
      cases xs with
      | nil => simp
      | cons y ys =>
        have hne : (x :: y :: ys).getLast? ≠ some x := by
          rw [getLast?_cons_cons]
          exact fun e => hd.1 (mem_of_getLast? e)
        rw [if_neg hne, h₂]; simp
    · rw [hn y (mem_cons_of_mem _ hy)]
      have hl : (x :: xs).getLast? = xs.getLast? := by
        cases xs with
        | nil => cases hy
        | cons z zs => rw [getLast?_cons_cons]
      rw [hl]

/-- A segment keeps its links when its left neighbour changes and its first node is relinked. -/
theorem Seg.relinkLeft {b' : Option ι} {l : List ι} (h : Seg prev next b l a) (hd : l.Nodup)
    (hp : ∀ x ∈ l, prev' x = if l.head? = some x then b' else prev x)
    (hn : ∀ x ∈ l, next' x = next x) : Seg prev' next' b' l a := by
  cases l with
  | nil => trivial
  | cons x xs =>
    obtain ⟨h₁, h₂, h₃⟩ := h
    rw [nodup_cons] at hd
    refine ⟨by rw [hp x mem_cons_self]; simp, (hn x mem_cons_self).trans h₂, ?_⟩
    refine h₃.congr (fun y hy => ?_) fun y hy => hn y (mem_cons_of_mem _ hy)
    rw [hp y (mem_cons_of_mem _ hy), if_neg]
    intro e
    have : x = y := by simpa using e
    exact hd.1 (this ▸ hy)

namespace IsDList

variable {l l₁ l₂ : List ι} {x n : ι}

section

variable (h : IsDList prev next first (l₁ ++ x :: l₂))
include h

/-- The list around `x` with the segment `seg` in its place. -/
theorem glue (hd : (l₁ ++ seg ++ l₂).Nodup) (hf : first' = (l₁ ++ seg ++ l₂).head?)
    (hp : ∀ y ∈ l₁ ++ l₂, prev' y = if next x = some y then seg.getLast?.or (prev x) else prev y)
    (hn : ∀ y ∈ l₁ ++ l₂, next' y = if prev x = some y then seg.head?.or (next x) else next y)
    (hs : Seg prev' next' (prev x) seg (next x)) :
    IsDList prev' next' first' (l₁ ++ seg ++ l₂) := by
  obtain ⟨s₁, s₂⟩ := h.segs
  obtain ⟨d₁, d₂, -, -, d₁₂⟩ := h.nodups
  obtain ⟨e₁, e₂⟩ := h.links
  have hp₁ : ∀ y ∈ l₁, prev' y = prev y := fun y hy => by
    rw [hp y (mem_append_left _ hy), if_neg fun e =>
      d₁₂ y hy y (mem_of_head? (h.next_eq_some.1 e)) rfl]
  have hn₂ : ∀ y ∈ l₂, next' y = next y := fun y hy => by
    rw [hn y (mem_append_right _ hy), if_neg fun e =>
      d₁₂ y (mem_of_getLast? (h.prev_eq_some.1 e)) y hy rfl]
  rw [e₁, e₂] at hs hp hn
  refine ⟨hd, hf, seg_append.2 ⟨seg_append.2 ⟨?_, ?_⟩, ?_⟩⟩
  · rw [Option.or_none]
    exact s₁.relinkRight d₁ hp₁ fun y hy => hn y (mem_append_left _ hy)
  · rw [Option.or_none, Option.or_none]; exact hs
  · have hl : (l₁ ++ seg).getLast?.or none = seg.getLast?.or l₁.getLast? := by
      rw [Option.or_none]
      exact getLast?_append
    rw [hl]
    exact s₂.relinkLeft d₂ (fun y hy => hp y (mem_append_right _ hy)) hn₂

theorem remove (hp : ∀ y ∈ l₁ ++ l₂, prev' y = if next x = some y then prev x else prev y)
    (hn : ∀ y ∈ l₁ ++ l₂, next' y = if prev x = some y then next x else next y)
    (hf : first' = if first = some x then next x else first) :
    IsDList prev' next' first' (l₁ ++ l₂) := by
  obtain ⟨d₁, d₂, -, -, d₁₂⟩ := h.nodups
  have hg : IsDList prev' next' first' (l₁ ++ [] ++ l₂) := h.glue
    (by simpa using nodup_append.2 ⟨d₁, d₂, d₁₂⟩) ?_ hp hn trivial
  · simpa using hg
  · rw [hf]
    by_cases hx : first = some x
    · rw [if_pos hx, h.links.2]
      have hn₁ := h.first_iff.1 hx
      rw [h.links.1, getLast?_eq_none_iff] at hn₁
      simp [hn₁]
    · rw [if_neg hx, h.first_eq]
      cases l₁ with
      | nil => exact absurd (by simp [h.first_eq]) hx
      | cons y ys => simp

/-- **Putting a fresh node in the place of another one.** -/
theorem replace (hnew : n ∉ l₁ ++ x :: l₂)
    (hp : ∀ y ∈ l₁ ++ l₂, prev' y = if next x = some y then some n else prev y)
    (hn : ∀ y ∈ l₁ ++ l₂, next' y = if prev x = some y then some n else next y)
    (hpn : prev' n = prev x) (hnn : next' n = next x)
    (hf : first' = if prev x = none then some n else first) :
    IsDList prev' next' first' (l₁ ++ [n] ++ l₂) := by
  obtain ⟨d₁, d₂, -, -, d₁₂⟩ := h.nodups
  simp only [mem_append, mem_cons, not_or] at hnew
  refine h.glue ?_ ?_ hp hn ⟨hpn, by simpa using hnn, trivial⟩
  · rw [append_assoc, singleton_append]
    refine nodup_append.2 ⟨d₁, nodup_cons.2 ⟨hnew.2.2, d₂⟩, fun a ha b hb => ?_⟩
    rcases mem_cons.1 hb with rfl | hb
    · exact fun e => hnew.1 (e ▸ ha)
    · exact d₁₂ a ha b hb
  · rw [hf, h.links.1]
    cases l₁ with
    | nil => simp
    | cons y ys => simp [h.first_eq]

/-- **Linking a fresh node behind another one.** -/
theorem insertAfter (hnew : n ∉ l₁ ++ x :: l₂)
    (hp : ∀ y ∈ l₁ ++ x :: l₂, prev' y = if next x = some y then some n else prev y)
    (hn : ∀ y ∈ l₁ ++ x :: l₂, next' y = if y = x then some n else next y) (hpn : prev' n = some x)
    (hnn : next' n = next x) : IsDList prev' next' first (l₁ ++ [x, n] ++ l₂) := by
  obtain ⟨d₁, d₂, x₁, x₂, d₁₂⟩ := h.nodups
  have hxn : next x ≠ some x := fun e => x₂ (mem_of_head? (h.next_eq_some.1 e))
  have hm : ∀ y ∈ l₁ ++ l₂, y ∈ l₁ ++ x :: l₂ ∧ y ≠ x := fun y hy => by
    rcases mem_append.1 hy with hy | hy
    · exact ⟨mem_append_left _ hy, fun e => x₁ (e ▸ hy)⟩
    · exact ⟨mem_append_right _ (mem_cons_of_mem _ hy), fun e => x₂ (e ▸ hy)⟩
  have hmx : x ∈ l₁ ++ x :: l₂ := by simp
  simp only [mem_append, mem_cons, not_or] at hnew
  refine h.glue ?_ ?_ (fun y hy => hp y (hm y hy).1) (fun y hy => ?_) ⟨?_, ?_, ?_⟩
  · rw [append_assoc]
    refine nodup_append.2 ⟨d₁, ?_, fun a ha b hb => ?_⟩
    · simp only [cons_append, nodup_cons, mem_cons, not_or]
      exact ⟨⟨fun e => hnew.2.1 e.symm, x₂⟩, hnew.2.2, d₂⟩
    · simp only [cons_append, mem_cons] at hb
      rcases hb with rfl | rfl | hb
      · exact fun e => x₁ (e ▸ ha)
      · exact fun e => hnew.1 (e ▸ ha)
      · exact d₁₂ a ha b hb
  · rw [h.first_eq]; cases l₁ <;> simp
  · rw [hn y (hm y hy).1, if_neg (hm y hy).2]
    by_cases hy' : prev x = some y
    · -- the last node of `l₁` already points to `x`
      obtain ⟨s₁, -⟩ := h.segs
      have hls := h.prev_eq_some.1 hy'
      obtain ⟨l', rfl⟩ : ∃ l', l₁ = l' ++ [y] :=
        ⟨l₁.dropLast, (dropLast_append_getLast? y hls).symm⟩
      have := (seg_append.1 s₁).2
      simp [this.2.1]
    · simp [hy']
  · rw [hp x hmx, if_neg hxn]
  · rw [hn x hmx]; simp
  · exact ⟨hpn, by simpa using hnn, trivial⟩

end

/-- **Linking a fresh node in front.** -/
theorem prepend (h : IsDList prev next first l) (hnew : n ∉ l)
    (hp : ∀ y ∈ l, prev' y = if first = some y then some n else prev y)
    (hn : ∀ y ∈ l, next' y = next y) (hpn : prev' n = none) (hnn : next' n = first) :
    IsDList prev' next' (some n) (n :: l) := by
  refine ⟨nodup_cons.2 ⟨hnew, h.nodup⟩, by simp, hpn, by simp [hnn, h.first_eq], ?_⟩
  refine h.seg.relinkLeft h.nodup (fun y hy => ?_) hn
  rw [hp y hy, h.first_eq]

end IsDList

end FastPPC.DList
