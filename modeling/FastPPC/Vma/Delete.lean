import FastPPC.Vma.View

/-!
# Removing mappings

`deleteVMARange` walks down over the mappings that reach into the range and removes, trims or
splits each; `deleteOne_spec` describes one turn of its loop, `deleteVMARange_spec` the whole
call.  `deleteSHMRegion_spec` does the same for the removal of an attached shared memory.
-/

namespace FastPPC.Vma

variable {is rest : List NodeId}

open DList List

namespace VMATracking

variable {s s' : VMATracking} {chain : ResId → List NodeId} {i : NodeId} {r : ResId}
  {seg : List NodeId} {preserved : Option ResId} {base top : ℕ}

/-- The file offset that the mapping `i` gives to the address. -/
abbrev offsetAt (s : VMATracking) (i : NodeId) (a : ℕ) : ℕ :=
  wadd (wsub (s.node i).offset (s.node i).base) a

/-- The part of the mapping `i` behind `top`, with the links of `i`. -/
def trailing (s : VMATracking) (i : NodeId) (top offset : ℕ) : VMAEntry :=
  { s.node i with base := top, offset := offset, length := s.top i - top }

/-- In case (2) the trailing part follows the mapping, as in the merge strategies. -/
theorem insertTrailing_false (hi : i ∈ s.vmas) {offset length : ℕ}
    (hkey : ∀ j ∈ s.vmas, (s.node j).base ≠ top) :
    s.insertTrailing i top offset length false =
      s.splitAfter i top offset length (s.node i).flags (s.node i).prot := by
  have hem := emplace_eq (e := ⟨(s.node i).resource, some i, (s.node i).resourceNextVMA, top,
    offset, length, (s.node i).flags, (s.node i).prot⟩) hkey
  simp only [insertTrailing, splitAfter, deref_ok hi, bind, Except.bind, Bool.false_eq_true,
    if_false, hem]
  rfl

/-- The pieces of an edit that removes the range from one mapping. -/
theorem Edit.view_delete (h : s.Edit s' i seg) (hw : s.Wf) (hw' : s'.Wf) (hi : i ∈ s.vmas)
    (hin : ∀ j ∈ seg, (s.node i).base ≤ (s'.node j).base ∧ s'.top j ≤ s.top i)
    (hcut : ∀ j ∈ seg, ∀ a, (s'.node j).Covers a → ¬(base ≤ a ∧ a < top) ∧
      (s'.node j).mappedAt a = (s.node i).mappedAt a)
    (hkp : ∀ a, (s.node i).Covers a → ¬(base ≤ a ∧ a < top) → ∃ j ∈ seg, (s'.node j).Covers a)
    (a : ℕ) : s'.view a = if (s.node i).Covers a ∧ base ≤ a ∧ a < top then none else s.view a := by
  rw [h.view hw hw' hi hin
    (m := fun a => if base ≤ a ∧ a < top then none else some ((s.node i).mappedAt a))]
  · by_cases hc : (s.node i).Covers a
    · simp [hc, hw.view_eq hi hc]
    · simp [hc]
  · intro a hc
    by_cases ha : base ≤ a ∧ a < top
    · exact .inl ⟨if_pos ha, fun j hj hcj => (hcut j hj a hcj).1 ha⟩
    · obtain ⟨j, hj, hcj⟩ := hkp a hc ha
      exact .inr ⟨j, hj, hcj, by rw [(hcut j hj a hcj).2]; exact if_neg ha⟩

/-- The part of a mapping behind `top` has the file offsets it had before. -/
theorem offset_trailing {e : VMAEntry} {a : ℕ} (h₁ : e.base ≤ top) (h₂ : top ≤ a) :
    wadd (wadd (wsub e.offset e.base) top) (a - top) = wadd e.offset (a - e.base) := by
  rw [wadd_wsub h₁, wadd_wadd]
  congr 1
  omega

section

variable (hw : s.Wf) (hl : s.Linked chain) (hi : i ∈ s.vmas)
include hw hl hi

variable (preserved base) in
/-- Trimming a mapping to `e` and then splitting off a part of what was cut off. -/
theorem trimSplit_edit (offset length : ℕ) (flags : VMAFlags) (prot : VMAProt) {e : VMAEntry}
    (hr : e.resource = (s.node i).resource)
    (hp : e.resourcePrevVMA = s.prev i) (hn : e.resourceNextVMA = s.next i)
    (hb : e.base = (s.node i).base) (hpos : 0 < e.length) (hlt : e.base + e.length ≤ base)
    (hlen : 0 < length) (htop : base + length ≤ s.top i) :
    ∃ s', (s.setNode i e).splitAfter i base offset length flags prot = .ok s' ∧
      s.Edit s' i [i, s.fresh] ∧ Evolves preserved s s' chain (edit chain i [i, s.fresh]) ∧
      (s'.node i).unlinked = e.unlinked ∧
      (s'.node s.fresh).unlinked =
        ⟨(s.node i).resource, none, none, base, offset, length, flags, prot⟩ := by
  have hw₁ : (s.setNode i e).Wf := hw.setNode hb hpos (by simp only [top] at htop; omega)
  have hkey : ∀ j ∈ s.vmas, ((s.setNode i e).node j).base ≠ base := fun j hj => by
    rw [setNode_base hb]
    exact hw.base_ne hi (by omega) (by omega) j hj
  obtain ⟨s', hok, hsm, hl'⟩ := splitAfter_spec hw₁ (hl.setNode hr hp hn) hi base offset
    length flags prot hkey
  obtain ⟨hed, hev, hdi, hdn⟩ := split_edit preserved hw hi hb hr hpos hlt
    (by simp [hr]) hlen htop hsm hl'
  exact ⟨s', hok, hed, hev, hdi, by rw [hdn]; simp [VMAEntry.unlinked, hr]⟩

/-- The map with the mapping `i` replaced by its part behind `top`.  While both are in the map
they overlap; well formed is the map with the old mapping trimmed, and without it. -/
theorem Wf.replaceTrailing (offset : ℕ)
    (h₁ : (s.node i).base < top) (h₂ : top < s.top i) :
    s.emplace (s.trailing i top offset) = (s.plus (s.trailing i top offset), s.fresh, true) ∧
      ((s.plus (s.trailing i top offset)).eraseNode i).Wf ∧
      ((s.plus (s.trailing i top offset)).eraseNode i).vmas = substNode i [s.fresh] s.vmas := by
  set e := s.trailing i top offset
  have hdis : ∀ j ∈ s.vmas, j ≠ i → s.top j ≤ (s.node i).base ∨ s.top i ≤ (s.node j).base :=
    fun j hj hne => hw.disjoint hj hi hne
  -- the map with the old mapping trimmed
  let s₀ := s.setNode i { s.node i with length := top - (s.node i).base }
  obtain ⟨-, hev₀⟩ := setNode_edit none (i := i)
    (e := { s.node i with length := top - (s.node i).base }) hw hl rfl rfl rfl rfl
    (by show 0 < top - (s.node i).base; omega)
    (by show top - (s.node i).base ≤ _; simp only [VMATracking.top] at h₂; omega)
  have hbase₀ : ∀ j, (s₀.node j).base = (s.node j).base := setNode_base rfl
  have hfit₀ : s₀.Fits e.base e.length := by
    intro j hj
    show s₀.top j ≤ top ∨ top + (s.top i - top) ≤ (s₀.node j).base
    rw [hbase₀]
    by_cases hne : j = i
    · left; simp only [VMATracking.top, s₀, setNode_node, hne, if_true]; omega
    · have := hdis j hj hne
      simp only [VMATracking.top, s₀, setNode_node, hne, if_false] at *
      omega
  have hpos : 0 < e.length := by show 0 < s.top i - top; omega
  have hwf₀ : (s₀.plus e).Wf := hev₀.wf.plus hfit₀ hpos
    (by show top + (s.top i - top) < word; have := hw.bound i hi; omega)
  have hvm₀ : (s₀.plus e).vmas = substNode i [i, s.fresh] s.vmas := by
    refine hev₀.wf.plus_vmas hi (by rw [hbase₀]; exact h₁) fun j hj hlt => ?_
    rw [hbase₀, hbase₀] at hlt
    rw [hbase₀]
    have := hdis j hj (by rintro rfl; omega)
    simp only [VMATracking.top] at *
    show top ≤ _
    omega
  have hvm : (s.plus e).vmas = (s₀.plus e).vmas := (insertByBase_congr hbase₀ _ _ _).symm
  refine ⟨emplace_eq (hw.base_ne hi h₁ h₂), ?_, ?_⟩
  · refine (hwf₀.eraseNode i).congr (by simp [VMATracking.eraseNode, hvm]) rfl rfl rfl
      fun j hj => ?_
    have hne : j ≠ i := ((hwf₀.nodup.mem_erase_iff).1 hj).1
    show ((s.plus e).node j).unlinked = ((s₀.plus e).node j).unlinked
    simp only [VMATracking.plus, Function.update_apply, s₀, setNode_node, setNode_fresh, hne,
      if_false]
  · show (s.plus e).vmas.erase i = _
    rw [hvm, ← substNode_nil_of_nodup hwf₀.nodup, hvm₀, substNode_substNode (.inr rfl)]
    simp [substNode, (hw.ne_fresh hi).symm]

variable (preserved) in
/-- Replacing a mapping by its part behind `top`. -/
theorem replaceTrailing_edit (offset : ℕ) (h₁ : (s.node i).base < top) (h₂ : top < s.top i) :
    ∃ s', s.insertTrailing i top offset (s.top i - top) true = .ok s' ∧
      s.Edit (s'.eraseNode i) i [s.fresh] ∧
      Evolves preserved s (s'.eraseNode i) chain (edit chain i [s.fresh]) ∧
      ((s'.eraseNode i).node s.fresh).unlinked = (s.trailing i top offset).unlinked := by
  obtain ⟨hem, hwf, hvm⟩ := hw.replaceTrailing hl hi offset h₁ h₂
  set e := s.trailing i top offset
  -- what holds once the lists are relinked
  have hmn : ∀ s', (s.plus e).SameData s' →
      (∀ q ∈ s.resources, s'.IsList q (edit chain i [s.fresh] q)) →
      s.Edit (s'.eraseNode i) i [s.fresh] ∧
      Evolves preserved s (s'.eraseNode i) chain (edit chain i [s.fresh]) ∧
      ((s'.eraseNode i).node s.fresh).unlinked = e.unlinked := by
    intro s' hsm hlis
    have hvm' : (s'.eraseNode i).vmas = substNode i [s.fresh] s.vmas := by
      rw [← hvm]; simp [eraseNode, hsm.vmas]
    have hdt : ∀ j ∈ s.vmas, (s'.node j).unlinked = (s.node j).unlinked := fun j hj => by
      rw [hsm.data, hw.plus_node hj]
    have hnew : (s'.node s.fresh).unlinked = e.unlinked := by rw [hsm.data, plus_node_fresh]
    have hres : (s'.node s.fresh).resource = (s.node i).resource := (unlinked_inj hnew).1
    have hed : s.Edit (s'.eraseNode i) i [s.fresh] := by
      refine ⟨hvm', fun j hj _ => hdt j hj, fun j hj _ => ?_, fun j hj => ?_⟩
      · rw [mem_singleton.1 hj]; exact fun h => hw.ne_fresh h rfl
      · rw [mem_singleton.1 hj]; exact hres
    have hwf' : (s'.eraseNode i).Wf := hwf.congr (by rw [hvm', hvm]) hsm.fresh hsm.resources
      hsm.freshRes fun j _ => hsm.data j
    have hlin : (s'.eraseNode i).Linked (edit chain i [s.fresh]) := by
      refine ⟨fun q hq => hlis q (hsm.resources ▸ hq), fun q j => ?_, fun j hj q h => ?_⟩
      · rw [hed.mem hi, edit, mem_substNode]
        show _ ↔ _ ∧ (s'.node j).resource = _
        by_cases hj : j = s.fresh
        · subst hj
          have hnew : s.fresh ∉ s.vmas := fun h => hw.ne_fresh h rfl
          have hnew' : s.fresh ∉ chain q := fun h => hnew (hl.mem_vmas h)
          simp [hnew', hl.mem, hres, hi]
        · by_cases hv : j ∈ s.vmas
          · rw [(unlinked_inj (hdt j hv)).1]; simp [hl.mem]; tauto
          · simp [hj, hl.mem, hv]
      · have h' : (s'.node j).resource = some q := h
        show q ∈ s'.resources
        rw [hsm.resources]
        rcases (hed.mem hi).1 hj with ⟨hj, -⟩ | hj
        · exact hl.res j hj q ((unlinked_inj (hdt j hj)).1 ▸ h')
        · rw [mem_singleton.1 hj, hres] at h'
          exact hl.res i hi q h'
    have hs : Shrinks preserved s (s'.eraseNode i) chain (edit chain i [s.fresh]) :=
      (SameData.refl (s'.eraseNode i)).shrinks hwf' hlin (by simp)
        hsm.freshRes hsm.resources hsm.mrid hsm.length
    exact ⟨hed, hed.evolves hs, hnew⟩
  have hel : s.insertTrailing i top offset (s.top i - top) true =
      (s.node i).resource.elim (.ok (s.plus e)) fun _ => (s.plus e).listReplace i s.fresh := by
    have hem' := hem
    simp only [e, trailing] at hem'
    simp only [insertTrailing, deref_ok hi, bind, Except.bind, if_true, hem']
    rcases hr : (s.node i).resource with _ | r <;> simp only [e, trailing, hr] <;> rfl
  rcases Option.eq_none_or_eq_some (s.node i).resource with hr | ⟨r, hr⟩
  · refine ⟨s.plus e, by rw [hel, hr]; rfl, hmn _ (SameData.refl _) fun q hq => ?_⟩
    rw [hl.edit_none hr]
    exact hl.plus_isList hw e hq
  · have hrr := hl.res i hi r hr
    obtain ⟨l₁, l₂, hc⟩ := append_of_mem ((hl.mem r i).2 ⟨hi, hr⟩)
    have hls := hl.plus_isList hw e hrr
    rw [hc] at hls
    have hnew : s.fresh ∉ l₁ ++ i :: l₂ := fun h => hw.ne_fresh (hl.mem_vmas (hc ▸ h)) rfl
    obtain ⟨s', hok, hrel, hl'⟩ := listReplace_spec hls hnew
      (fun j hj => mem_plus_vmas.2 (.inr (hl.mem_vmas (hc ▸ hj))))
      (mem_plus_vmas.2 (.inl rfl)) (by rw [hw.plus_node hi, hr]) hrr
      (by rw [plus_node_fresh]; exact hr) (by simp [prev, hw.plus_node hi]; rfl)
      (by simp [next, hw.plus_node hi]; rfl)
    refine ⟨s', by rw [hel, hr]; exact hok, hmn _ hrel.toSameData fun q hq => ?_⟩
    rw [hl.edit_some hr hrr hc]
    exact hrel.lists chain (fun q hq _ => hl.plus_isList hw e hq)
      (fun q hq j hj => hc ▸ hl.disjoint hq hj) hl' q hq

variable (preserved) in
/-- Case (2): the range lies inside the mapping, which is split. -/
theorem deleteOne_split (h₁ : (s.node i).base < base) (h₂ : top < s.top i) (hbt : base ≤ top) :
    ∃ s', (s.setLength i (base - (s.node i).base)).insertTrailing i top
        (s.offsetAt i top) (s.top i - top) false = .ok s' ∧
      s.Edit s' i [i, s.fresh] ∧ Evolves preserved s s' chain (edit chain i [i, s.fresh]) ∧
      ∀ a, s'.view a = if (s.node i).Covers a ∧ base ≤ a ∧ a < top then none else s.view a := by
  let e : VMAEntry := { s.node i with length := base - (s.node i).base }
  obtain ⟨s', hok, hed, hev, hdi, hdn⟩ := trimSplit_edit preserved top hw hl hi
    (s.offsetAt i top) (s.top i - top) (s.node i).flags (s.node i).prot (e := e) rfl rfl rfl rfl
    (by show 0 < base - (s.node i).base; omega)
    (by show (s.node i).base + (base - (s.node i).base) ≤ top; omega) (by omega) (by omega)
  have hkey : ∀ j ∈ s.vmas, ((s.setNode i e).node j).base ≠ top := fun j hj => by
    rw [setNode_base (e := e) rfl]
    exact hw.base_ne hi (by omega) h₂ j hj
  refine ⟨s', ?_, hed, hev, ?_⟩
  · rw [← hok, setLength, insertTrailing_false (s := s.setNode i e) hi hkey]
    simp [e]
  · obtain ⟨r₁, b₁, o₁, l₁, f₁, p₁⟩ := unlinked_inj hdi
    obtain ⟨r₂, b₂, o₂, l₂, f₂, p₂⟩ := unlinked_eq hdn
    simp only [e] at r₁ b₁ o₁ l₁ f₁ p₁
    refine hed.view_delete hw hev.wf hi ?_ ?_ ?_
    all_goals
      simp only [mem_cons, not_mem_nil, or_false, forall_eq_or_imp, forall_eq,
        exists_eq_or_imp, exists_eq_left, VMAEntry.Covers, VMATracking.top, VMAEntry.mappedAt,
        r₁, b₁, o₁, f₁, p₁, r₂, b₂, o₂, f₂, p₂, true_and, Mapped.mk.injEq] at *
    · omega
    · exact ⟨fun a ha => ⟨by omega, trivial⟩,
        fun a ha => ⟨by omega, offset_trailing (by omega) ha.1⟩⟩
    · intro a ha hna; omega

variable (preserved) in
/-- Case (4): the range covers the start of the mapping, which is replaced. -/
theorem deleteOne_replace (h₁ : base ≤ (s.node i).base) (h₂ : (s.node i).base < top)
    (h₃ : top < s.top i) :
    ∃ s', s.insertTrailing i top (s.offsetAt i top) (s.top i - top) true = .ok s' ∧
      s.Edit (s'.eraseNode i) i [s.fresh] ∧
      Evolves preserved s (s'.eraseNode i) chain (edit chain i [s.fresh]) ∧
      ∀ a, (s'.eraseNode i).view a =
        if (s.node i).Covers a ∧ base ≤ a ∧ a < top then none else s.view a := by
  obtain ⟨s', hok, hed, hev, hdn⟩ := replaceTrailing_edit preserved hw hl hi
    (s.offsetAt i top) h₂ h₃
  refine ⟨s', hok, hed, hev, ?_⟩
  obtain ⟨r₂, b₂, o₂, l₂, f₂, p₂⟩ := unlinked_inj hdn
  simp only [trailing] at r₂ b₂ o₂ l₂ f₂ p₂
  refine hed.view_delete hw hev.wf hi ?_ ?_ ?_
  all_goals
    simp only [mem_singleton, forall_eq, exists_eq_left, VMAEntry.Covers, VMATracking.top,
      VMAEntry.mappedAt, r₂, b₂, o₂, f₂, p₂, true_and, Mapped.mk.injEq] at *
  · omega
  · exact fun a ha => ⟨by omega, offset_trailing (by omega) ha.1⟩
  · intro a ha hna; omega

variable (preserved) in
/-- **One turn of the loop removes the range from one mapping.** -/
theorem deleteOne_spec (h₁ : (s.node i).base < top) (h₂ : base < s.top i) (hbt : base ≤ top) :
    ∃ s' seg, s.deleteOne base top preserved i = .ok s' ∧ s.Edit s' i seg ∧
      Evolves preserved s s' chain (edit chain i seg) ∧
      ∀ a, s'.view a = if (s.node i).Covers a ∧ base ≤ a ∧ a < top then none else s.view a := by
  have hbou := hw.bound i hi
  have hfil : (s.node i).base < base → wsub base (s.node i).base = base - (s.node i).base :=
    fun h => wsub_eq (Nat.lt_trans h₂ hbou) (Nat.le_of_lt h)
  have htrl : top < s.top i → wsub (s.top i) top = s.top i - top :=
    fun h => wsub_eq hbou (Nat.le_of_lt h)
  simp only [deleteOne, deref_ok hi, bind, Except.bind, hw.wadd_top hi]
  by_cases hfir : (s.node i).base < base <;> by_cases htra : top < s.top i
  · obtain ⟨s', hok, hed, hev, hvw⟩ :=
      deleteOne_split preserved hw hl hi hfir htra hbt
    refine ⟨s', _, ?_, hed, hev, hvw⟩
    simp [hfir, htra, hfil hfir, htrl htra, hok, pure, Except.pure]
  · -- the mapping ends in the range and is trimmed
    obtain ⟨hed, hev⟩ := setNode_edit preserved (i := i)
      (e := { s.node i with length := base - (s.node i).base }) hw hl rfl rfl rfl rfl
      (by show 0 < base - (s.node i).base; omega)
      (by show base - (s.node i).base ≤ _; simp only [VMATracking.top] at h₂; omega)
    refine ⟨_, [i], ?_, hed, ?_, ?_⟩
    · simp [hfir, htra, hfil hfir, pure, Except.pure, setLength]
    · rwa [edit_self]
    · refine hed.view_delete hw hev.wf hi ?_ ?_ ?_
      all_goals
        simp only [mem_singleton, forall_eq, exists_eq_left, VMAEntry.Covers,
          VMATracking.top, VMAEntry.mappedAt, setNode_node, if_true, Mapped.mk.injEq] at *
      · omega
      · exact fun a ha => ⟨by omega, trivial, trivial, trivial, trivial⟩
      · intro a ha hna; omega
  · obtain ⟨s', hok, hed, hev, hvw⟩ :=
      deleteOne_replace preserved hw hl hi (Nat.le_of_not_lt hfir) h₁ htra
    refine ⟨_, _, ?_, hed, hev, hvw⟩
    simp [hfir, htra, htrl htra, hok, pure, Except.pure]
  · obtain ⟨s', hok, hed, hev⟩ := deleteMapping_spec preserved hw hl hi
    refine ⟨s', [], by simpa [hfir, htra] using hok, hed, hev, ?_⟩
    refine hed.view_delete hw hev.wf hi (by simp) (by simp) fun a hc ha => ?_
    simp only [VMAEntry.Covers, VMATracking.top] at *
    omega

end

/-- The mapping `i` a loop has come to, behind those it has yet to visit. -/
theorem Wf.visit (hw : s.Wf) (hv : s.vmas = (i :: is).reverse ++ rest) :
    i ∈ s.vmas ∧ (∀ j ∈ is, j ∈ s.vmas ∧ j ≠ i ∧ s.top j ≤ (s.node i).base) ∧
      ∀ {s' seg}, s.Edit s' i seg → s'.vmas = is.reverse ++ (seg ++ rest) := by
  have hv' : s.vmas = is.reverse ++ i :: rest := by simp [hv]
  have hsor := hw.sorted
  have hnod := hw.nodup
  rw [hv', pairwise_append] at hsor
  rw [hv', nodup_append, nodup_cons] at hnod
  have hne : ∀ j ∈ is, j ≠ i := fun j hj =>
    hnod.2.2 j (by simpa using hj) i mem_cons_self
  refine ⟨by simp [hv'], fun j hj => ⟨by simp [hv', hj], hne j hj, ?_⟩, fun hed => ?_⟩
  · exact hsor.2.2 j (by simpa using hj) i mem_cons_self
  · rw [hed.vmas, hv', substNode_append (fun h => hne i (by simpa using h) rfl) hnod.2.1.1,
      append_assoc]

theorem vmas_eq_below (s : VMATracking) (top : ℕ) : s.vmas = (s.below top).reverse ++
    s.vmas.dropWhile fun i => (s.node i).base < top := by
  rw [below, reverse_reverse, takeWhile_append_dropWhile]

/-- The mapping of an address below `top` is one that the loops visit. -/
theorem Wf.mem_below (hw : s.Wf) {a : ℕ} (hi : i ∈ s.vmas) (hc : (s.node i).Covers a)
    (ha : a < top) : i ∈ s.below top := by
  rw [vmas_eq_below s top, mem_append, mem_reverse] at hi
  refine hi.resolve_right fun h => ?_
  have := hw.le_of_mem_dropWhile h
  simp only [VMAEntry.Covers] at hc
  omega

end VMATracking

open VMATracking

section Loop

variable {s : VMATracking} {chain : ResId → List NodeId} {preserved : Option ResId}
  {base top : ℕ}

variable (preserved) in
/-- **The loop of `deleteVMARange`.**  What is left to visit is the front part of the map, and
only mappings in it still reach into the range. -/
theorem deleteLoop_spec (hbt : base ≤ top) (hw : s.Wf) (hl : s.Linked chain)
    (hv : s.vmas = is.reverse ++ rest) (hlow : ∀ j ∈ is, (s.node j).base < top)
    (hrs : ∀ a, base ≤ a ∧ a < top → s.view a = none ∨ ∃ j ∈ is, (s.node j).Covers a) :
    ∃ s' chain', deleteLoop base top preserved is s = .ok s' ∧
      Evolves preserved s s' chain chain' ∧
      ∀ a, s'.view a = if base ≤ a ∧ a < top then none else s.view a := by
  induction is generalizing s chain rest with
  | nil =>
    refine ⟨s, chain, rfl, .refl hw hl, fun a => ?_⟩
    split_ifs with ha
    · simpa using hrs a ha
    · rfl
  | cons i is ih =>
    obtain ⟨hi, hfro, hvs⟩ := hw.visit hv
    simp only [deleteLoop, deref_ok hi, bind, Except.bind, hw.wadd_top hi]
    by_cases hex : s.top i ≤ base
    · refine ⟨s, chain, by simp [hex, pure, Except.pure], .refl hw hl, fun a => ?_⟩
      split_ifs with ha
      · refine (hrs a ha).resolve_right ?_
        rintro ⟨j, hj, hc⟩
        have hj' : s.top j ≤ s.top i := by
          rcases mem_cons.1 hj with rfl | hj
          · exact Nat.le_refl _
          · have := (hfro j hj).2.2
            simp only [VMATracking.top] at *
            omega
        simp only [VMAEntry.Covers, VMATracking.top] at *
        omega
      · rfl
    · obtain ⟨s₁, seg, hok, hed, hev, hvw⟩ := deleteOne_spec preserved hw hl hi
        (hlow i mem_cons_self) (Nat.lt_of_not_le hex) hbt
      have hfra : ∀ j ∈ is, (s₁.node j).unlinked = (s.node j).unlinked := fun j hj =>
        hed.frame j (hfro j hj).1 (hfro j hj).2.1
      obtain ⟨s', chain', hok', hev', hvw'⟩ := ih hev.wf hev.linked (hvs hed)
        (fun j hj => by
          rw [(unlinked_inj (hfra j hj)).2.1]
          exact hlow j (mem_cons_of_mem _ hj))
        (fun a ha => by
          rw [hvw]
          split_ifs with hc
          · exact .inl rfl
          · refine (hrs a ha).imp_right ?_
            rintro ⟨j, hj, hcj⟩
            rcases mem_cons.1 hj with rfl | hj
            · exact absurd ⟨hcj, ha⟩ hc
            · exact ⟨j, hj, (VMAEntry.covers_congr (hfra j hj)).2 hcj⟩)
      refine ⟨s', chain', ?_, hev.trans hev', fun a => ?_⟩
      · simp only [hex, hok]
        exact hok'
      · rw [hvw' a, hvw a]
        split_ifs with h₁ h₂
        · rfl
        · exact absurd h₂.2 h₁
        · rfl

variable (preserved) in
/-- **`deleteVMARange` removes the range from the map.** -/
theorem deleteVMARange_spec (hw : s.Wf) (hl : s.Linked chain) {length : ℕ}
    (hb : base + length < word) :
    ∃ s' chain', s.deleteVMARange base length preserved = .ok s' ∧
      Evolves preserved s s' chain chain' ∧ s'.view = s.view.delete base length := by
  have htop : wadd base length = base + length := wadd_eq hb
  obtain ⟨s', chain', hok, hev, hvw⟩ := deleteLoop_spec preserved
    (Nat.le_add_right base length) hw hl (s.vmas_eq_below _)
    (fun j hj => lt_of_mem_takeWhile (mem_reverse.1 hj)) (fun a ha => by
      by_cases hc : ∃ j ∈ s.vmas, (s.node j).Covers a
      · obtain ⟨j, hj, hc⟩ := hc
        exact .inr ⟨j, hw.mem_below hj hc ha.2, hc⟩
      · push Not at hc
        exact .inl (view_eq_none hc))
  refine ⟨s', chain', ?_, hev, funext hvw⟩
  simp only [deleteVMARange, htop]
  exact hok

/-! ### Detaching shared memory -/

theorem findSHM_ok (hl : s.Linked chain) (is : List NodeId)
    (his : ∀ j ∈ is, j ∈ s.vmas ∧ base ≤ (s.node j).base) : ∃ o, findSHM s base is = .ok o := by
  induction is with
  | nil => exact ⟨none, rfl⟩
  | cons i is ih =>
    obtain ⟨o, ho⟩ := ih fun j hj => his j (mem_cons_of_mem _ hj)
    obtain ⟨hi, hb⟩ := his i mem_cons_self
    simp only [findSHM, deref_ok hi, bind, Except.bind, check_ok hb]
    rcases Option.eq_none_or_eq_some (s.node i).resource with hr | ⟨r, hr⟩
    · exact ⟨o, by simp [hr, ho]⟩
    · simp only [hr, derefRes_ok (hl.res i hi r hr)]
      split_ifs
      · exact ⟨_, rfl⟩
      · exact ⟨o, ho⟩

/-- The removal loop, over any mappings. -/
theorem removeSHM_spec (base shmLength : ℕ) (r : ResId) (started : Bool) (hw : s.Wf)
    (hl : s.Linked chain) (hd : is.Nodup) (his : ∀ j ∈ is, j ∈ s.vmas) :
    ∃ s' chain', removeSHM base shmLength r started is s = .ok s' ∧
      Evolves none s s' chain chain' := by
  induction is generalizing s chain started with
  | nil => exact ⟨s, chain, rfl, .refl hw hl⟩
  | cons i is ih =>
    have hi := his i mem_cons_self
    have his' : ∀ j ∈ is, j ∈ s.vmas := fun j hj => his j (mem_cons_of_mem _ hj)
    rw [nodup_cons] at hd
    simp only [removeSHM, deref_ok hi, bind, Except.bind]
    split_ifs
    · exact ⟨s, chain, rfl, .refl hw hl⟩
    · obtain ⟨s₁, hok, hed, hev⟩ := deleteMapping_spec none hw hl hi
      obtain ⟨s', chain', hok', hev'⟩ := ih true hev.wf hev.linked hd.2
        fun j hj => (hed.mem hi).2 (.inl ⟨his' j hj, fun e => hd.1 (e ▸ hj)⟩)
      exact ⟨s', chain', by simpa only [hok] using hok', hev.trans hev'⟩
    · exact ih true hw hl hd.2 his'

theorem deleteSHMRegion_spec (base : ℕ) (hw : s.Wf) (hl : s.Linked chain) :
    ∃ s' n chain', s.deleteSHMRegion base = .ok (s', n) ∧ Evolves none s s' chain chain' := by
  have hsub : (s.vmas.dropWhile fun i => (s.node i).base < base).Sublist s.vmas :=
    dropWhile_sublist _
  obtain ⟨o, ho⟩ := findSHM_ok hl (s.vmas.dropWhile fun i => (s.node i).base < base)
    fun j hj => ⟨hsub.mem hj, hw.le_of_mem_dropWhile hj⟩
  simp only [VMATracking.deleteSHMRegion, bind, Except.bind, ho]
  rcases o with _ | ⟨i, r⟩
  · exact ⟨s, 0, chain, rfl, .refl hw hl⟩
  · have hsub' := (dropWhile_sublist fun j => decide (j ≠ i)).trans hsub
    obtain ⟨s', chain', hok, hev⟩ := removeSHM_spec base (s.res r).length r false
      hw hl (hw.nodup.sublist hsub')
      fun j hj => hsub'.mem hj
    exact ⟨s', (s.res r).length, chain', by simp only [hok]; rfl, hev⟩

end Loop

end FastPPC.Vma
