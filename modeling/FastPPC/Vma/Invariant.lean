import FastPPC.Vma.Links

/-!
# The invariant of the VMA tracker

`Wf` says that the map holds disjoint non-empty mappings in ascending order, and
`Linked s chain` that the list of every resource `r` consists of the nodes `chain r`, which are
exactly the mapped nodes of `r`, not necessarily in address order.

Every edit of the map is one of three: a new node is put at its place (`emplace_spec`),
linked behind a node of its resource (`splitAfter_spec`) or unlinked and erased
(`deleteMapping_spec`).  Each keeps `Wf` and `Linked` and no assertion of the source fails.
-/

namespace FastPPC.Vma

open Function List VMATracking

variable {q : ResId} {l l' : List NodeId} {j : NodeId} {s'' : VMATracking}
  {chain' chain'' : ResId → List NodeId}

open DList

namespace VMATracking

def top (s : VMATracking) (i : NodeId) : ℕ := (s.node i).base + (s.node i).length

structure Wf (s : VMATracking) : Prop where
  nodup : s.vmas.Nodup
  fresh : ∀ i ∈ s.vmas, i < s.fresh
  /-- The mappings are disjoint and in ascending order. -/
  sorted : s.vmas.Pairwise fun i j => s.top i ≤ (s.node j).base
  pos : ∀ i ∈ s.vmas, 0 < (s.node i).length
  /-- No mapping reaches the end of the 64-bit address space. -/
  bound : ∀ i ∈ s.vmas, s.top i < word
  resNodup : s.resources.Nodup
  resFresh : ∀ r ∈ s.resources, r < s.freshRes

/-- The list of the resource `r` has the nodes `chain r`, the mapped nodes of `r`. -/
structure Linked (s : VMATracking) (chain : ResId → List NodeId) : Prop where
  list : ∀ r ∈ s.resources, s.IsList r (chain r)
  mem : ∀ r i, i ∈ chain r ↔ i ∈ s.vmas ∧ (s.node i).resource = some r
  res : ∀ i ∈ s.vmas, ∀ r, (s.node i).resource = some r → r ∈ s.resources

/-- The mapped nodes of a resource, in address order. -/
def nodesOf (s : VMATracking) (r : ResId) : List NodeId :=
  s.vmas.filter fun i => (s.node i).resource = some r

variable {s s' : VMATracking} {chain : ResId → List NodeId} {i : NodeId} {r : ResId}
  {seg : List NodeId}

theorem unlinked_inj {e e' : VMAEntry} (h : e.unlinked = e'.unlinked) :
    e.resource = e'.resource ∧ e.base = e'.base ∧ e.offset = e'.offset ∧ e.length = e'.length ∧
      e.flags = e'.flags ∧ e.prot = e'.prot := by
  simp only [VMAEntry.unlinked, VMAEntry.mk.injEq] at h
  tauto

theorem unlinked_eq {e : VMAEntry} {q : Option ResId} {b o l : ℕ} {f : VMAFlags} {p : VMAProt}
    (h : e.unlinked = ⟨q, none, none, b, o, l, f, p⟩) :
    e.resource = q ∧ e.base = b ∧ e.offset = o ∧ e.length = l ∧ e.flags = f ∧ e.prot = p := by
  simp only [VMAEntry.unlinked, VMAEntry.mk.injEq] at h
  tauto

theorem IsList.frame (h : s.IsList q l) (hn : ∀ j ∈ l, s'.node j = s.node j)
    (hr : s'.res q = s.res q) : s'.IsList q l := by
  rw [IsList, hr]
  exact IsDList.congr h (fun j hj => by simp [prev, hn j hj])
    fun j hj => by simp [next, hn j hj]

/-- Nodes of different resources are different. -/
theorem Linked.disjoint (h : s.Linked chain) (hq : q ≠ r) (hj : j ∈ chain q) : j ∉ chain r := by
  intro hj'
  have h₁ := ((h.mem _ _).1 hj).2
  rw [((h.mem _ _).1 hj').2] at h₁
  exact hq (Option.some.inj h₁).symm

theorem Linked.mem_vmas (h : s.Linked chain) (hj : j ∈ chain r) : j ∈ s.vmas :=
  ((h.mem _ _).1 hj).1

theorem Linked.chain_eq_nil (h : s.Linked chain) (hr : r ∉ s.resources) : chain r = [] := by
  refine eq_nil_iff_forall_not_mem.2 fun j hj => ?_
  obtain ⟨hv, hj'⟩ := (h.mem _ _).1 hj
  exact hr (h.res j hv r hj')

/-! ### Order in the map -/

theorem Wf.disjoint (hw : s.Wf) (hi : i ∈ s.vmas) (hj : j ∈ s.vmas) (hne : i ≠ j) :
    s.top i ≤ (s.node j).base ∨ s.top j ≤ (s.node i).base := by
  refine List.Pairwise.forall_of_forall_of_flip
    (R := fun i j => i ≠ j → s.top i ≤ (s.node j).base ∨ s.top j ≤ (s.node i).base)
    (fun _ _ h => absurd rfl h) ?_ ?_ hi hj hne
  · exact hw.sorted.imp fun h _ => .inl h
  · exact hw.sorted.imp fun h _ => .inr h

/-- No other mapping has its key inside a mapping. -/
theorem Wf.base_ne (hw : s.Wf) {k : ℕ} (hi : i ∈ s.vmas) (h₁ : (s.node i).base < k)
    (h₂ : k < s.top i) : ∀ j ∈ s.vmas, (s.node j).base ≠ k := by
  intro j hj
  by_cases hne : j = i
  · rw [hne]; omega
  · have := hw.disjoint hj hi hne
    simp only [top] at *
    omega

theorem Wf.wadd_top (hw : s.Wf) (hi : i ∈ s.vmas) :
    wadd (s.node i).base (s.node i).length = s.top i := wadd_eq (hw.bound i hi)

/-- The nodes from the first key at `k` on have keys at or above `k`. -/
theorem Wf.le_of_mem_dropWhile (hw : s.Wf) {k : ℕ}
    (hj : j ∈ s.vmas.dropWhile fun i => (s.node i).base < k) : k ≤ (s.node j).base := by
  have hsor := hw.sorted.sublist (dropWhile_sublist fun i => (s.node i).base < k)
  have hhd := List.head?_dropWhile_not (fun i => decide ((s.node i).base < k)) s.vmas
  cases hd : s.vmas.dropWhile fun i => (s.node i).base < k with
  | nil => simp [hd] at hj
  | cons x l =>
    rw [hd] at hj hsor hhd
    have hx : k ≤ (s.node x).base := by simpa using hhd
    rcases mem_cons.1 hj with rfl | hj'
    · exact hx
    · have := (pairwise_cons.1 hsor).1 j hj'
      simp only [top] at this
      omega

theorem lt_of_mem_takeWhile {k : ℕ} (hj : j ∈ s.vmas.takeWhile fun i => (s.node i).base < k) :
    (s.node j).base < k := by
  simpa using all_eq_true.1 all_takeWhile j hj

theorem insertByBase_eq (node : NodeId → VMAEntry) (k : ℕ) (n : NodeId) (l : List NodeId) :
    insertByBase node k n l = (l.takeWhile fun i => (node i).base < k) ++ n ::
        l.dropWhile fun i => (node i).base < k := by
  induction l with
  | nil => rfl
  | cons x l ih =>
    simp only [insertByBase, takeWhile_cons, dropWhile_cons, decide_eq_true_eq]
    split_ifs
    · rw [ih]; rfl
    · rfl

theorem insertByBase_congr {node node' : NodeId → VMAEntry}
    (h : ∀ j, (node' j).base = (node j).base) (k : ℕ) (n : NodeId) (l : List NodeId) :
    insertByBase node' k n l = insertByBase node k n l := by
  simp [insertByBase_eq, h]

/-- The range meets no mapping. -/
def Fits (s : VMATracking) (base length : ℕ) : Prop :=
  ∀ j ∈ s.vmas, s.top j ≤ base ∨ base + length ≤ (s.node j).base

/-- The state after `emplace` put `e` in the map. -/
def plus (s : VMATracking) (e : VMAEntry) : VMATracking :=
  { s with
    vmas := insertByBase s.node e.base s.fresh s.vmas
    node := Function.update s.node s.fresh e
    fresh := s.fresh + 1 }

variable {e : VMAEntry}

theorem emplace_eq (h : ∀ j ∈ s.vmas, (s.node j).base ≠ e.base) :
    s.emplace e = (s.plus e, s.fresh, true) := by
  have : s.vmas.find? (fun i => (s.node i).base = e.base) = none :=
    List.find?_eq_none.2 fun j hj => by simpa using h j hj
  simp [emplace, this, plus]

theorem Fits.ne_base (hw : s.Wf) {base length : ℕ} (hf : s.Fits base length) (hpos : 0 < length) :
    ∀ j ∈ s.vmas, (s.node j).base ≠ base := by
  intro j hj
  have h₁ := hf j hj
  have h₂ := hw.pos j hj
  simp only [top] at h₁
  omega

theorem mem_plus_vmas : j ∈ (s.plus e).vmas ↔ j = s.fresh ∨ j ∈ s.vmas := by
  conv_rhs => rw [← takeWhile_append_dropWhile (p := fun i => (s.node i).base < e.base)
    (l := s.vmas)]
  simp only [plus, insertByBase_eq, mem_append, mem_cons]
  tauto

@[simp] theorem plus_node_fresh : (s.plus e).node s.fresh = e := by simp [plus]

theorem plus_node_of_ne (h : j ≠ s.fresh) : (s.plus e).node j = s.node j := by
  simp [plus, h]

theorem Wf.ne_fresh (hw : s.Wf) (hi : i ∈ s.vmas) : i ≠ s.fresh :=
  Nat.ne_of_lt (hw.fresh i hi)

theorem Wf.plus_node (hw : s.Wf) (hi : i ∈ s.vmas) : (s.plus e).node i = s.node i :=
  plus_node_of_ne (hw.ne_fresh hi)

/-- **A new mapping that meets no other keeps the map well formed.** -/
theorem Wf.plus (hw : s.Wf) (hf : s.Fits e.base e.length) (hpos : 0 < e.length)
    (hb : e.base + e.length < word) : (s.plus e).Wf := by
  have hspl := takeWhile_append_dropWhile (p := fun i => (s.node i).base < e.base) (l := s.vmas)
  have hsor := hw.sorted
  have hnod := hw.nodup
  rw [← hspl] at hsor hnod
  have hmem : ∀ j, j ∈ (s.plus e).vmas → j = s.fresh ∨ j ∈ s.vmas := fun j => mem_plus_vmas.1
  have hlo : ∀ j ∈ s.vmas.takeWhile fun i => (s.node i).base < e.base, j ∈ s.vmas ∧
      s.top j ≤ e.base := fun j hj => by
    have hj' := (takeWhile_sublist _).mem hj
    have h₁ := lt_of_mem_takeWhile hj
    refine ⟨hj', ?_⟩
    rcases hf j hj' with h | h <;> omega
  have hhi : ∀ j ∈ s.vmas.dropWhile fun i => (s.node i).base < e.base, j ∈ s.vmas ∧
      e.base + e.length ≤ (s.node j).base := fun j hj => by
    have hj' := (dropWhile_sublist _).mem hj
    have h₁ := hw.le_of_mem_dropWhile hj
    have h₂ := hw.pos j hj'
    refine ⟨hj', ?_⟩
    rcases hf j hj' with h | h
    · simp only [top] at h; omega
    · exact h
  refine ⟨?_, ?_, ?_, ?_, ?_, hw.resNodup, hw.resFresh⟩
  · show (insertByBase _ _ _ _).Nodup
    rw [insertByBase_eq]
    rw [nodup_append] at hnod ⊢
    refine ⟨hnod.1, nodup_cons.2 ⟨fun h => ?_, hnod.2.1⟩, ?_⟩
    · exact hw.ne_fresh (hhi _ h).1 rfl
    · intro x hx y hy
      rcases mem_cons.1 hy with rfl | hy
      · exact hw.ne_fresh (hlo x hx).1
      · exact hnod.2.2 x hx y hy
  · intro j hj
    rcases hmem j hj with rfl | hj
    · exact Nat.lt_succ_self _
    · exact Nat.lt_succ_of_lt (hw.fresh j hj)
  · show (insertByBase _ _ _ _).Pairwise _
    rw [insertByBase_eq]
    rw [pairwise_append] at hsor ⊢
    have htop : ∀ j ∈ s.vmas, (s.plus e).top j = s.top j := fun j hj => by
      simp [top, hw.plus_node hj]
    have htp : (s.plus e).top s.fresh = e.base + e.length := by simp [top]
    refine ⟨?_, pairwise_cons.2 ⟨fun j hj => ?_, ?_⟩, ?_⟩
    · refine hsor.1.imp_of_mem fun hx hy h => ?_
      rwa [htop _ (hlo _ hx).1, hw.plus_node (hlo _ hy).1]
    · rw [htp, hw.plus_node (hhi j hj).1]
      exact (hhi j hj).2
    · refine hsor.2.1.imp_of_mem fun hx hy h => ?_
      rwa [htop _ (hhi _ hx).1, hw.plus_node (hhi _ hy).1]
    · intro x hx y hy
      rw [htop _ (hlo _ hx).1]
      rcases mem_cons.1 hy with rfl | hy
      · rw [plus_node_fresh]; exact (hlo x hx).2
      · rw [hw.plus_node (hhi _ hy).1]; exact hsor.2.2 x hx y hy
  · intro j hj
    rcases hmem j hj with rfl | hj
    · rwa [plus_node_fresh]
    · rw [hw.plus_node hj]; exact hw.pos j hj
  · intro j hj
    rcases hmem j hj with rfl | hj
    · simpa [top] using hb
    · simp only [top, hw.plus_node hj]; exact hw.bound j hj

/-- A mapping put right behind `i` follows `i` in the map. -/
theorem Wf.plus_vmas (hw : s.Wf) (hi : i ∈ s.vmas) (h₁ : (s.node i).base < e.base)
    (h₂ : ∀ j ∈ s.vmas, (s.node i).base < (s.node j).base → e.base ≤ (s.node j).base) :
    (s.plus e).vmas = substNode i [i, s.fresh] s.vmas := by
  obtain ⟨l₁, l₂, hl⟩ := append_of_mem hi
  have hsor := hw.sorted
  have hnod := hw.nodup
  rw [hl, pairwise_append, pairwise_cons] at hsor
  rw [hl, nodup_append, nodup_cons] at hnod
  have hlo : ∀ j ∈ l₁, (s.node j).base < e.base := fun j hj => by
    have := hsor.2.2 j hj i mem_cons_self
    simp only [top] at this
    omega
  have hhi : ∀ j ∈ l₂, e.base ≤ (s.node j).base := fun j hj => by
    have h₃ := hsor.2.1.1 j hj
    have h₄ := hw.pos i hi
    simp only [top] at h₃
    exact h₂ j (by simp [hl, hj]) (by omega)
  have x₁ : i ∉ l₁ := fun h => hnod.2.2 i h i mem_cons_self rfl
  rw [hl, substNode_append x₁ hnod.2.1.1]
  show insertByBase _ _ _ _ = _
  have hlo' : ∀ j ∈ l₁ ++ [i], decide ((s.node j).base < e.base) = true := by
    intro j hj
    rcases mem_append.1 hj with h | h
    · simpa using hlo j h
    · simpa [mem_singleton.1 h] using h₁
  have hl₂ : (l₂.takeWhile fun j => (s.node j).base < e.base) = [] ∧
      (l₂.dropWhile fun j => (s.node j).base < e.base) = l₂ := by
    cases l₂ with
    | nil => simp
    | cons y l => have := hhi y mem_cons_self; simp [this]
  rw [insertByBase_eq, hl, append_cons l₁ i l₂, takeWhile_append_of_pos hlo',
    dropWhile_append_of_pos hlo', hl₂.1, hl₂.2]
  simp

/-! ### Relinking -/

theorem SameData.resource (h : s.SameData s') (j : NodeId) :
    (s'.node j).resource = (s.node j).resource := (unlinked_inj (h.data j)).1

/-- Whether the map is well formed depends on the mapped nodes only. -/
theorem Wf.congr (hw : s.Wf) (hv : s'.vmas = s.vmas) (hf : s'.fresh = s.fresh)
    (hr : s'.resources = s.resources) (hfr : s'.freshRes = s.freshRes)
    (hd : ∀ j ∈ s.vmas, (s'.node j).unlinked = (s.node j).unlinked) : s'.Wf := by
  have hbs : ∀ j ∈ s.vmas, (s'.node j).base = (s.node j).base :=
    fun j hj => (unlinked_inj (hd j hj)).2.1
  have hlen : ∀ j ∈ s.vmas, (s'.node j).length = (s.node j).length :=
    fun j hj => (unlinked_inj (hd j hj)).2.2.2.1
  have htop : ∀ j ∈ s.vmas, s'.top j = s.top j := fun j hj => by
    rw [top, hbs j hj, hlen j hj]; rfl
  refine ⟨hv ▸ hw.nodup, ?_, ?_, ?_, ?_, hr ▸ hw.resNodup, ?_⟩
  · rw [hv, hf]; exact hw.fresh
  · rw [hv]
    exact hw.sorted.imp_of_mem fun hx hy h => by rwa [htop _ hx, hbs _ hy]
  · rw [hv]; exact fun j hj => hlen j hj ▸ hw.pos j hj
  · rw [hv]; exact fun j hj => htop j hj ▸ hw.bound j hj
  · rw [hr, hfr]; exact hw.resFresh

theorem SameData.wf (h : s.SameData s') (hw : s.Wf) : s'.Wf :=
  hw.congr h.vmas h.fresh h.resources h.freshRes fun j _ => h.data j

theorem SameData.nodesOf (h : s.SameData s') : s'.nodesOf = s.nodesOf := by
  funext r
  simp [VMATracking.nodesOf, h.vmas, h.resource]

/-- The lists with `seg` in the place of `i`. -/
def edit (chain : ResId → List NodeId) (i : NodeId) (seg : List NodeId) : ResId → List NodeId :=
  fun q => substNode i seg (chain q)

theorem edit_self : edit chain i [i] = chain := funext fun _ => substNode_self

/-- After the list of `r` was relinked, the others are as they were. -/
theorem Relinked.lists (chain : ResId → List NodeId) (h : s.Relinked s' r l)
    (hls : ∀ q ∈ s.resources, q ≠ r → s.IsList q (chain q))
    (hdis : ∀ q, q ≠ r → ∀ j ∈ chain q, j ∉ l) (hl' : s'.IsList r l') :
    ∀ q ∈ s.resources, s'.IsList q (update chain r l' q) := by
  intro q hq
  by_cases hqr : q = r
  · subst hqr; rwa [update_self]
  · rw [update_of_ne hqr]
    exact (hls q hq hqr).frame (fun j hj => h.frame j (hdis q hqr j hj)) (h.frameRes q hqr)

section

variable (hl : s.Linked chain)
include hl

theorem Linked.edit_none (h : (s.node i).resource = none) (seg : List NodeId) :
    edit chain i seg = chain := by
  funext q
  refine substNode_of_not_mem _ fun hi => ?_
  have := ((hl.mem q i).1 hi).2
  simp [h] at this

theorem Linked.edit_some (h : (s.node i).resource = some r) (hr : r ∈ s.resources)
    {l₁ l₂ : List NodeId} (hc : chain r = l₁ ++ i :: l₂) (seg : List NodeId) :
    edit chain i seg = update chain r (l₁ ++ seg ++ l₂) := by
  funext q
  by_cases hq : q = r
  · subst hq
    have hls := hl.list q hr
    rw [hc] at hls
    obtain ⟨-, -, x₁, x₂, -⟩ := hls.nodups
    rw [update_self, edit, hc, substNode_append x₁ x₂]
  · rw [update_of_ne hq]
    refine substNode_of_not_mem _ fun hi => ?_
    have := ((hl.mem q i).1 hi).2
    rw [h] at this
    exact hq (Option.some.inj this).symm

theorem Linked.plus_isList (hw : s.Wf) (e : VMAEntry) (hq : q ∈ s.resources) :
    (s.plus e).IsList q (chain q) :=
  (hl.list q hq).frame (fun _ hj => hw.plus_node (hl.mem_vmas hj)) rfl

theorem Linked.plus_none (hw : s.Wf) (he : e.resource = none) : (s.plus e).Linked chain := by
  refine ⟨fun q hq => hl.plus_isList hw e hq, fun q j => ?_, fun j hj q => ?_⟩
  · rw [hl.mem, mem_plus_vmas]
    by_cases hj : j = s.fresh
    · subst hj
      have : s.fresh ∉ s.vmas := fun h => hw.ne_fresh h rfl
      simp [this, he]
    · simp [plus_node_of_ne hj, hj]
  · rcases mem_plus_vmas.1 hj with rfl | hj
    · simp [he]
    · rw [hw.plus_node hj]; exact hl.res j hj q

/-- A new mapping of `r` that was linked into the list of `r`. -/
theorem Linked.plus_some (hw : s.Wf) (he : e.resource = some r) (hr : r ∈ s.resources)
    (h : (s.plus e).Relinked s' r (chain r)) (hl' : s'.IsList r l')
    (hmem : ∀ j, j ∈ l' ↔ j = s.fresh ∨ j ∈ chain r) : s'.Linked (update chain r l') := by
  have hlis := h.lists chain (fun q hq _ => hl.plus_isList hw e hq)
    (fun q hq j hj => hl.disjoint hq hj) hl'
  refine ⟨fun q hq => hlis q (h.resources ▸ hq), fun q j => ?_, fun j hj q hq => ?_⟩
  · rw [h.vmas, h.toSameData.resource, mem_plus_vmas]
    by_cases hj : j = s.fresh
    · subst hj
      have hnew : s.fresh ∉ s.vmas := fun h => hw.ne_fresh h rfl
      by_cases hq : q = r
      · simp [hq, hmem, he]
      · have : s.fresh ∉ chain q := fun h => hnew (hl.mem_vmas h)
        simp [hq, he, this, Ne.symm hq]
    · by_cases hq : q = r
      · simp [hq, hmem, hj, hl.mem, plus_node_of_ne hj]
      · simp [hq, hj, hl.mem, plus_node_of_ne hj]
  · rw [h.toSameData.resource] at hq
    rw [h.vmas] at hj
    rw [h.resources]
    rcases mem_plus_vmas.1 hj with rfl | hj
    · rw [plus_node_fresh, he] at hq
      exact Option.some.inj hq ▸ hr
    · rw [hw.plus_node hj] at hq
      exact hl.res j hj q hq

end

/-- **A part of a mapping, put in the map and linked behind it.** -/
theorem splitAfter_spec (hw : s.Wf) (hl : s.Linked chain) (hi : i ∈ s.vmas) (base offset length : ℕ)
    (flags : VMAFlags) (prot : VMAProt) (hkey : ∀ j ∈ s.vmas, (s.node j).base ≠ base) :
    ∃ s', s.splitAfter i base offset length flags prot = .ok s' ∧
      (s.plus ⟨(s.node i).resource, some i, s.next i, base, offset, length, flags, prot⟩).SameData
        s' ∧ s'.Linked (edit chain i [i, s.fresh]) := by
  let e : VMAEntry := ⟨(s.node i).resource, some i, s.next i, base, offset, length, flags, prot⟩
  have hem : s.emplace ⟨(s.node i).resource, some i, (s.node i).resourceNextVMA, base, offset,
      length, flags, prot⟩ = (s.plus e, s.fresh, true) := emplace_eq hkey
  have hev : s.splitAfter i base offset length flags prot =
      (s.node i).resource.elim (.ok (s.plus e)) fun _ => (s.plus e).listInsertAfter i s.fresh := by
    simp only [splitAfter, deref_ok hi, bind, Except.bind, hem]
    cases (s.node i).resource <;> rfl
  rcases Option.eq_none_or_eq_some (s.node i).resource with hr | ⟨r, hr⟩
  · refine ⟨s.plus e, by rw [hev, hr]; rfl, SameData.refl _, ?_⟩
    rw [hl.edit_none hr]
    exact hl.plus_none hw hr
  · have hrr := hl.res i hi r hr
    obtain ⟨l₁, l₂, hc⟩ := append_of_mem ((hl.mem r i).2 ⟨hi, hr⟩)
    have hls := hl.plus_isList hw e hrr
    rw [hc] at hls
    have hnew : s.fresh ∉ l₁ ++ i :: l₂ := fun h =>
      hw.ne_fresh (hl.mem_vmas (hc ▸ h)) rfl
    obtain ⟨s', hok, hrel, hl'⟩ := listInsertAfter_spec hls hnew
      (fun j hj => mem_plus_vmas.2 (.inr (hl.mem_vmas (hc ▸ hj))))
      (mem_plus_vmas.2 (.inl rfl)) (by rw [hw.plus_node hi, hr])
      (by rw [plus_node_fresh]; exact hr) (by simp [prev, e]) (by simp [next, e, hw.plus_node hi])
    refine ⟨s', by rw [hev, hr]; exact hok, hrel.toSameData, ?_⟩
    rw [hl.edit_some hr hrr hc]
    exact hl.plus_some (e := e) hw hr hrr (hc ▸ hrel) hl' fun j => by simp [hc]; tauto

/-! ### Edits of one mapping -/

/-- `s'` is `s` with the mapping `i` replaced by the mappings `seg` of the same resource. -/
structure Edit (s s' : VMATracking) (i : NodeId) (seg : List NodeId) : Prop where
  vmas : s'.vmas = substNode i seg s.vmas
  frame : ∀ j ∈ s.vmas, j ≠ i → (s'.node j).unlinked = (s.node j).unlinked
  new : ∀ j ∈ seg, j ≠ i → j ∉ s.vmas
  resource : ∀ j ∈ seg, (s'.node j).resource = (s.node i).resource

theorem Edit.mem (h : s.Edit s' i seg) (hi : i ∈ s.vmas) :
    j ∈ s'.vmas ↔ (j ∈ s.vmas ∧ j ≠ i) ∨ j ∈ seg := by
  rw [h.vmas, mem_substNode]
  simp [hi]

/-- An edit changes the mappings of a resource, taken in address order, as it changes the
map. -/
theorem Edit.nodesOf (h : s.Edit s' i seg) : s'.nodesOf = edit s.nodesOf i seg := by
  funext r
  -- the resource of a node after the edit, in terms of the state before it
  let p : NodeId → Bool := fun j =>
    decide ((if j ∈ seg then (s.node i).resource else (s.node j).resource) = some r)
  have hp : ∀ j ∈ s'.vmas, decide ((s'.node j).resource = some r) = p j := by
    intro j hj
    by_cases hs : j ∈ seg
    · simp only [p, hs, if_true, h.resource j hs]
    · rw [h.vmas, mem_substNode] at hj
      obtain ⟨hj, hne⟩ := hj.resolve_right fun h' => hs h'.2
      simp only [p, hs, if_false, (unlinked_inj (h.frame j hj hne)).1]
  have hpi : p i = decide ((s.node i).resource = some r) := by simp [p]
  have hold : ∀ j ∈ s.vmas, p j = decide ((s.node j).resource = some r) := by
    intro j hj
    by_cases hne : j = i
    · rw [hne, hpi]
    · have : j ∉ seg := fun hs => h.new j hs hne hj
      simp only [p, this, if_false]
  have hseg : ∀ j ∈ seg, p j = p i := fun j hj => by simp [p, hj]
  calc s'.nodesOf r = (substNode i seg s.vmas).filter p := by
        rw [VMATracking.nodesOf, filter_congr hp, h.vmas]
    _ = substNode i (if p i then seg else []) (s.vmas.filter p) := filter_substNode p hseg
    _ = substNode i (if p i then seg else []) (s.nodesOf r) := by
        rw [VMATracking.nodesOf, filter_congr hold]
    _ = edit s.nodesOf i seg r := by
        by_cases hr : (s.node i).resource = some r
        · simp [hpi, hr, edit]
        · have : i ∉ s.nodesOf r := by simp [VMATracking.nodesOf, hr]
          rw [edit, substNode_of_not_mem _ this, substNode_of_not_mem _ this]

/-- What every operation keeps.  `preserved` is the resource that survives the loss of its
last mapping. -/
structure Keeps (preserved : Option ResId) (s s' : VMATracking)
    (chain chain' : ResId → List NodeId) : Prop where
  wf : s'.Wf
  linked : s'.Linked chain'
  freshRes : s'.freshRes = s.freshRes
  mrid : ∀ r, (s'.res r).mrid = (s.res r).mrid
  length : ∀ r, (s'.res r).length = (s.res r).length
  /-- A resource goes exactly when its last mapping does. -/
  resources : ∀ r, r ∈ s'.resources ↔
    r ∈ s.resources ∧ (some r = preserved ∨ chain r = [] ∨ chain' r ≠ [])

/-- What every operation keeps that maps nothing new. -/
structure Shrinks (preserved : Option ResId) (s s' : VMATracking)
    (chain chain' : ResId → List NodeId) : Prop extends Keeps preserved s s' chain chain' where
  nil : ∀ r, chain r = [] → chain' r = []

/-- What every operation keeps that treats the lists as it treats the map. -/
structure Evolves (preserved : Option ResId) (s s' : VMATracking)
    (chain chain' : ResId → List NodeId) : Prop extends Shrinks preserved s s' chain chain' where
  /-- Lists in address order stay in address order. -/
  ordered : chain = s.nodesOf → chain' = s'.nodesOf

variable {preserved : Option ResId}

theorem Evolves.refl (hw : s.Wf) (hl : s.Linked chain) : Evolves preserved s s chain chain :=
  ⟨⟨⟨hw, hl, rfl, fun _ => rfl, fun _ => rfl, fun r => by tauto⟩, fun _ => id⟩, id⟩

theorem Shrinks.trans (h₁ : Shrinks preserved s s' chain chain')
    (h₂ : Shrinks preserved s' s'' chain' chain'') : Shrinks preserved s s'' chain chain'' := by
  refine ⟨⟨h₂.wf, h₂.linked, h₂.freshRes.trans h₁.freshRes,
    fun r => (h₂.mrid r).trans (h₁.mrid r), fun r => (h₂.length r).trans (h₁.length r),
    fun r => ?_⟩, fun r h => h₂.nil r (h₁.nil r h)⟩
  rw [h₂.resources, h₁.resources]
  have n₁ := h₁.nil r
  have n₂ := h₂.nil r
  tauto

theorem Evolves.trans (h₁ : Evolves preserved s s' chain chain')
    (h₂ : Evolves preserved s' s'' chain' chain'') : Evolves preserved s s'' chain chain'' :=
  ⟨h₁.toShrinks.trans h₂.toShrinks, fun h => h₂.ordered (h₁.ordered h)⟩

/-- Putting something non-empty in the place of a node empties no list. -/
theorem edit_eq_nil (hne : seg ≠ []) : edit chain i seg r = [] ↔ chain r = [] := by
  refine ⟨fun he => ?_, fun h => by simp [edit, h, substNode]⟩
  rw [eq_nil_iff_forall_not_mem] at he ⊢
  obtain ⟨y, hy⟩ := exists_mem_of_ne_nil _ hne
  intro x hx
  by_cases hxi : x = i
  · exact he y (mem_substNode.2 (.inr ⟨hxi ▸ hx, hy⟩))
  · exact he x (mem_substNode.2 (.inl ⟨hx, hxi⟩))

/-- An edit that leaves something of the mapping keeps all resources. -/
theorem SameData.shrinks {s₁ : VMATracking} (h : s₁.SameData s') (hw : s'.Wf)
    (hl : s'.Linked (edit chain i seg)) (hne : seg ≠ []) (hfrr : s₁.freshRes = s.freshRes)
    (hres : s₁.resources = s.resources) (hmr : ∀ r, (s₁.res r).mrid = (s.res r).mrid)
    (hlen : ∀ r, (s₁.res r).length = (s.res r).length) :
    Shrinks preserved s s' chain (edit chain i seg) := by
  refine ⟨⟨hw, hl, h.freshRes.trans hfrr, fun r => (h.mrid r).trans (hmr r),
    fun r => (h.length r).trans (hlen r), fun r => ?_⟩, fun r => (edit_eq_nil hne).2⟩
  rw [h.resources, hres, ne_eq, edit_eq_nil hne]
  tauto

theorem Edit.evolves (h : s.Edit s' i seg) (hs : Shrinks preserved s s' chain (edit chain i seg)) :
    Evolves preserved s s' chain (edit chain i seg) :=
  ⟨hs, fun hc => by rw [hc, h.nodesOf]⟩

/-- Writing the length or the protection of a mapping keeps the lists. -/
theorem Linked.setNode (hl : s.Linked chain) (hr : e.resource = (s.node i).resource)
    (hp : e.resourcePrevVMA = s.prev i) (hn : e.resourceNextVMA = s.next i) :
    (s.setNode i e).Linked chain := by
  have hres : ∀ j, ((s.setNode i e).node j).resource = (s.node j).resource := fun j => by
    rw [setNode_node]; split_ifs with h
    · rw [hr, h]
    · rfl
  have hpr : (s.setNode i e).prev = s.prev := by
    funext j; simp only [prev, setNode_node]; split_ifs with h
    · rw [hp, h]; rfl
    · rfl
  have hnx : (s.setNode i e).next = s.next := by
    funext j; simp only [next, setNode_node]; split_ifs with h
    · rw [hn, h]; rfl
    · rfl
  refine ⟨fun q hq => ?_, fun q j => ?_, fun j hj q h => ?_⟩
  · rw [IsList, hpr, hnx]; exact hl.list q hq
  · rw [hres]; exact hl.mem q j
  · rw [hres] at h; exact hl.res j hj q h

theorem setNode_base (hb : e.base = (s.node i).base) (j : NodeId) :
    ((s.setNode i e).node j).base = (s.node j).base := by
  rw [setNode_node]; split_ifs with h
  · rw [hb, h]
  · rfl

/-- A mapping can be trimmed at its end. -/
theorem Wf.setNode (hw : s.Wf) (hb : e.base = (s.node i).base) (hpos : 0 < e.length)
    (hle : e.length ≤ (s.node i).length) : (s.setNode i e).Wf := by
  have htop : ∀ j, (s.setNode i e).top j ≤ s.top j := fun j => by
    simp only [top, setNode_node]; split_ifs with h
    · subst h; omega
    · exact Nat.le_refl _
  refine ⟨hw.nodup, hw.fresh, ?_, fun j hj => ?_, fun j hj => ?_, hw.resNodup, hw.resFresh⟩
  · exact hw.sorted.imp fun {x y} h => by rw [setNode_base hb]; exact Nat.le_trans (htop x) h
  · rw [setNode_node]; split_ifs
    · exact hpos
    · exact hw.pos j hj
  · exact Nat.lt_of_le_of_lt (htop j) (hw.bound j hj)

variable (preserved) in
theorem setNode_edit (hw : s.Wf) (hl : s.Linked chain) (hr : e.resource = (s.node i).resource)
    (hp : e.resourcePrevVMA = s.prev i) (hn : e.resourceNextVMA = s.next i)
    (hb : e.base = (s.node i).base) (hpos : 0 < e.length) (hle : e.length ≤ (s.node i).length) :
    s.Edit (s.setNode i e) i [i] ∧ Evolves preserved s (s.setNode i e) chain chain := by
  have hed : s.Edit (s.setNode i e) i [i] := by
    refine ⟨by rw [setNode_vmas, substNode_self], fun j _ hj => by simp [hj], fun j hj hne => ?_,
      fun j hj => ?_⟩
    · exact absurd (mem_singleton.1 hj) hne
    · simp [mem_singleton.1 hj, hr]
  have hlin : (s.setNode i e).Linked (edit chain i [i]) := by
    rw [edit_self]; exact hl.setNode hr hp hn
  have hs : Shrinks preserved s (s.setNode i e) chain (edit chain i [i]) :=
    (SameData.refl _).shrinks (hw.setNode hb hpos hle) hlin (by simp) rfl rfl (fun _ => rfl)
      fun _ => rfl
  exact ⟨hed, by simpa only [edit_self] using hed.evolves hs⟩

variable (preserved) in
/-- The mapping `i` trimmed to `e`, and a new mapping `n` for a part of what was cut off. -/
theorem split_edit {n : VMAEntry} (hw : s.Wf) (hi : i ∈ s.vmas) (hb : e.base = (s.node i).base)
    (hr : e.resource = (s.node i).resource) (hpos : 0 < e.length) (hlt : e.base + e.length ≤ n.base)
    (hnr : n.resource = (s.node i).resource) (hnp : 0 < n.length)
    (hn : n.base + n.length ≤ s.top i) (hsm : ((s.setNode i e).plus n).SameData s')
    (hl : s'.Linked (edit chain i [i, s.fresh])) :
    s.Edit s' i [i, s.fresh] ∧ Evolves preserved s s' chain (edit chain i [i, s.fresh]) ∧
      (s'.node i).unlinked = e.unlinked ∧ (s'.node s.fresh).unlinked = n.unlinked := by
  have hw₁ : (s.setNode i e).Wf := hw.setNode hb hpos (by simp only [top] at hn; omega)
  have hnd : ∀ j ∈ s.vmas, j ≠ i → (s.setNode i e).node j = s.node j ∧
      (s.top j ≤ (s.node i).base ∨ s.top i ≤ (s.node j).base) := fun j hj hne =>
    ⟨by simp [hne], hw.disjoint hj hi hne⟩
  have hfit : (s.setNode i e).Fits n.base n.length := by
    intro j hj
    by_cases hne : j = i
    · left; simpa [top, hne] using hlt
    · obtain ⟨h, hd⟩ := hnd j hj hne
      simp only [top, h] at *
      omega
  have hwf : s'.Wf := hsm.wf (hw₁.plus hfit hnp (Nat.lt_of_le_of_lt hn (hw.bound i hi)))
  have hi' : i ∈ (s.setNode i e).vmas := hi
  have hvm : s'.vmas = substNode i [i, s.fresh] s.vmas := by
    rw [hsm.vmas]
    refine hw₁.plus_vmas hi' (by simp only [setNode_node, if_true]; omega) fun j hj hlt' => ?_
    by_cases hne : j = i
    · rw [hne] at hlt'; omega
    · obtain ⟨h, hd⟩ := hnd j hj hne
      rw [h] at hlt' ⊢
      simp only [setNode_node, if_true, top] at *
      omega
  have hdt : ∀ j ∈ s.vmas, (s'.node j).unlinked = ((s.setNode i e).node j).unlinked :=
    fun j hj => by rw [hsm.data, hw₁.plus_node hj]
  have hdi : (s'.node i).unlinked = e.unlinked := by rw [hdt i hi]; simp
  have hdn : (s'.node s.fresh).unlinked = n.unlinked := by
    rw [hsm.data]
    show ((plus _ n).node (s.setNode i e).fresh).unlinked = _
    rw [plus_node_fresh]
  have hed : s.Edit s' i [i, s.fresh] := by
    refine ⟨hvm, fun j hj hne => by rw [hdt j hj, (hnd j hj hne).1], fun j hj hne => ?_,
      fun j hj => ?_⟩
    · obtain rfl : j = s.fresh := by simpa [hne] using hj
      exact fun h => hw.ne_fresh h rfl
    · simp only [mem_cons, not_mem_nil, or_false] at hj
      rcases hj with rfl | rfl
      · exact (unlinked_inj hdi).1.trans hr
      · exact (unlinked_inj hdn).1.trans hnr
  exact ⟨hed, hed.evolves (hsm.shrinks hwf hl (by simp) rfl rfl (fun _ => rfl)
    fun _ => rfl), hdi, hdn⟩

theorem Wf.eraseNode (hw : s.Wf) (i : NodeId) : (s.eraseNode i).Wf := by
  have hsub : (s.eraseNode i).vmas.Sublist s.vmas := erase_sublist
  exact ⟨hw.nodup.sublist hsub, fun j hj => hw.fresh j (hsub.mem hj), hw.sorted.sublist hsub,
    fun j hj => hw.pos j (hsub.mem hj), fun j hj => hw.bound j (hsub.mem hj), hw.resNodup,
    hw.resFresh⟩

theorem Wf.eraseResource (hw : s.Wf) (r : ResId) : (s.eraseResource r).Wf :=
  ⟨hw.nodup, hw.fresh, hw.sorted, hw.pos, hw.bound, hw.resNodup.sublist erase_sublist,
    fun q hq => hw.resFresh q (mem_of_mem_erase hq)⟩

variable (preserved) in
/-- **A mapping is removed, and its resource with its last mapping.** -/
theorem deleteMapping_spec (hw : s.Wf) (hl : s.Linked chain) (hi : i ∈ s.vmas) :
    ∃ s', s.deleteMapping i preserved = .ok s' ∧ s.Edit s' i [] ∧
      Evolves preserved s s' chain (edit chain i []) := by
  have hera : s.vmas.erase i = substNode i [] s.vmas := (substNode_nil_of_nodup hw.nodup).symm
  have hmem : ∀ j, j ∈ s.vmas.erase i ↔ j ∈ s.vmas ∧ j ≠ i := fun j => by
    rw [hw.nodup.mem_erase_iff]; tauto
  rcases Option.eq_none_or_eq_some (s.node i).resource with hr | ⟨r, hr⟩
  · have hed : s.Edit (s.eraseNode i) i [] :=
      ⟨hera, fun _ _ _ => rfl, by simp, by simp⟩
    have hc := hl.edit_none hr []
    have hlin : (s.eraseNode i).Linked chain := by
      refine ⟨hl.list, fun q j => ?_, fun j hj => hl.res j (hmem j |>.1 hj).1⟩
      rw [hl.mem]
      show _ ↔ j ∈ s.vmas.erase i ∧ (s.node j).resource = some q
      rw [hmem]
      refine ⟨fun h => ⟨⟨h.1, ?_⟩, h.2⟩, fun h => ⟨h.1.1, h.2⟩⟩
      rintro rfl
      simp [hr] at h
    refine ⟨s.eraseNode i, ?_, hed, ?_⟩
    · simp only [deleteMapping, deref_ok hi, bind, Except.bind, hr]; rfl
    · rw [hc]
      exact ⟨⟨⟨hw.eraseNode i, hlin, rfl, fun _ => rfl, fun _ => rfl,
        fun q => by simp only [eraseNode]; tauto⟩, fun _ => id⟩,
        fun h => by rw [hed.nodesOf, ← h, hc]⟩
  · have hrr := hl.res i hi r hr
    obtain ⟨l₁, l₂, hc⟩ := append_of_mem ((hl.mem r i).2 ⟨hi, hr⟩)
    have hls := hl.list r hrr
    rw [hc] at hls
    obtain ⟨s₁, hok, hrel, hl'⟩ := listRemove_spec hls (fun j hj => hl.mem_vmas (hc ▸ hj)) hr hrr
    have hlis := hrel.lists chain (fun q hq _ => hl.list q hq)
      (fun q hq j hj => hc ▸ hl.disjoint hq hj) hl'
    have hed' := hl.edit_some hr hrr hc []
    rw [append_nil] at hed'
    -- the resource goes if its list is empty now and it is not preserved
    let s₂ := if decide (l₁ ++ l₂ = []) = true ∧ some r ≠ preserved then s₁.eraseResource r else s₁
    have hs₂ : s₂.vmas = s₁.vmas ∧ s₂.node = s₁.node ∧ s₂.res = s₁.res ∧
        s₂.freshRes = s₁.freshRes := by
      simp only [s₂]; split_ifs <;> exact ⟨rfl, rfl, rfl, rfl⟩
    obtain ⟨e₁, e₂, e₃, e₄⟩ := hs₂
    have hres₂ : ∀ q, q ∈ s₂.resources ↔ q ∈ s.resources ∧
        ¬(q = r ∧ l₁ ++ l₂ = [] ∧ some r ≠ preserved) := by
      intro q
      simp only [s₂, decide_eq_true_eq]
      split_ifs with h
      · simp only [eraseResource, hrel.resources]
        rw [hw.resNodup.mem_erase_iff]
        tauto
      · rw [hrel.resources]; tauto
    have hwf : (s₂.eraseNode i).Wf := by
      refine Wf.eraseNode ?_ i
      have h₁ := hrel.toSameData.wf hw
      simp only [s₂]
      split_ifs
      · exact h₁.eraseResource r
      · exact h₁
    have hvm : (s₂.eraseNode i).vmas = s.vmas.erase i := by
      simp [eraseNode, e₁, hrel.vmas]
    have hnd : ∀ j, ((s₂.eraseNode i).node j).unlinked = (s.node j).unlinked := fun j => by
      simp [eraseNode, e₂, hrel.data]
    have hed : s.Edit (s₂.eraseNode i) i [] :=
      ⟨hvm.trans hera, fun j _ _ => hnd j, by simp, by simp⟩
    refine ⟨s₂.eraseNode i, ?_, hed, hed.evolves ⟨⟨hwf, ?_, ?_, ?_, ?_, ?_⟩, ?_⟩⟩
    · simp only [deleteMapping, deref_ok hi, bind, Except.bind, hr, hok]
      rfl
    · refine ⟨fun q hq => ?_, fun q j => ?_, fun j hj q h => ?_⟩
      · have hq' := (hres₂ q).1 hq
        rw [hed']
        refine (hlis q hq'.1).frame (fun j _ => ?_) ?_ <;>
          simp [eraseNode, e₂, e₃]
      · rw [hvm, (unlinked_inj (hnd j)).1, hmem, edit, mem_substNode, hl.mem]
        simp only [not_mem_nil]
        tauto
      · rw [(unlinked_inj (hnd j)).1] at h
        rw [hvm, hmem] at hj
        refine (hres₂ q).2 ⟨hl.res j hj.1 q h, ?_⟩
        rintro ⟨rfl, hnil, -⟩
        have hj' := (hl.mem q j).2 ⟨hj.1, h⟩
        have : j ∈ l₁ ++ l₂ := by rw [hc] at hj'; simpa [hj.2] using hj'
        simp [hnil] at this
    · exact e₄.trans hrel.freshRes
    · intro q
      show (s₂.res q).mrid = _
      rw [e₃, hrel.toSameData.mrid]
    · intro q
      show (s₂.res q).length = _
      rw [e₃, hrel.toSameData.length]
    · intro q
      refine (hres₂ q).trans (and_congr_right fun hq => ?_)
      rw [hed']
      by_cases hqr : q = r
      · subst hqr
        have : chain q ≠ [] := by simp [hc]
        simp only [update_self]
        tauto
      · rw [update_of_ne hqr]; tauto
    · intro q hq
      simp [edit, hq, substNode]

end VMATracking

end FastPPC.Vma
