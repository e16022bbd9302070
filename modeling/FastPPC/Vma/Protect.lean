import FastPPC.Vma.Track

/-!
# Changing protections

`changeProtectionFlags` walks down over the mappings of the range.  A mapping that starts inside
the range is handled by the loop (merge strategy 4), the one the loop stops at by merge
strategies 1 to 3.  Two things go wrong when a mapping reaches beyond the end of the range:

* in the loop, the part behind the range gets the file offset of the start of the mapping
  instead of its own;
* in merge strategy 3, the part behind the range is linked in front of the part inside it.

`changeProtectionFlags_spec` says what holds in every case, and what holds when no mapping does
that.
-/

namespace FastPPC.Vma

open DList List

namespace VMATracking

variable {s s' : VMATracking} {chain : ResId → List NodeId} {i : NodeId} {r : ResId}
  {seg : List NodeId} {preserved : Option ResId} {base top : ℕ} {newProt : VMAProt}

theorem setProt_setLength (l : ℕ) : (s.setProt i newProt).setLength i l =
    s.setNode i { s.node i with prot := newProt, length := l } := by
  simp [setProt, setLength, setNode]

/-- The pieces of an edit that changes the protection in a range inside one mapping. -/
theorem Edit.view_protect (h : s.Edit s' i seg) (hw : s.Wf) (hw' : s'.Wf) (hi : i ∈ s.vmas)
    (hbs : (s.node i).base ≤ base) (htop : top ≤ s.top i)
    (hin : ∀ j ∈ seg, (s.node i).base ≤ (s'.node j).base ∧ s'.top j ≤ s.top i)
    (hpr : ∀ j ∈ seg, ∀ a, (s'.node j).Covers a → (s'.node j).mappedAt a =
      if base ≤ a ∧ a < top then { (s.node i).mappedAt a with prot := newProt }
      else (s.node i).mappedAt a)
    (hall : ∀ a, (s.node i).Covers a → ∃ j ∈ seg, (s'.node j).Covers a) (a : ℕ) :
    s'.view a = if base ≤ a ∧ a < top then (s.view a).map fun x => { x with prot := newProt }
      else s.view a := by
  rw [h.view hw hw' hi hin (m := fun a => some (if base ≤ a ∧ a < top then
    { (s.node i).mappedAt a with prot := newProt } else (s.node i).mappedAt a))]
  · by_cases hc : (s.node i).Covers a
    · simp only [hw.view_eq hi hc]
      split_ifs <;> rfl
    · have : ¬(base ≤ a ∧ a < top) := fun ha => hc (by
        simp only [VMAEntry.Covers, VMATracking.top] at *; omega)
      simp [hc, this]
  · intro a hc
    obtain ⟨j, hj, hcj⟩ := hall a hc
    exact .inr ⟨j, hj, hcj, by rw [hpr j hj a hcj]⟩

/-- What the merge strategies for one mapping do: they keep everything but the order of a list
that a mapping reaching over both ends of the range is in. -/
structure Merged (s s' : VMATracking) (chain chain' : ResId → List NodeId) (i : NodeId)
    (base top : ℕ) (newProt : VMAProt) : Prop where
  shrinks : Shrinks none s s' chain chain'
  ordered : ¬((s.node i).resource ≠ none ∧ (s.node i).base < base ∧ top < s.top i) →
    chain = s.nodesOf → chain' = s'.nodesOf
  view : (s.node i).base ≤ base → top ≤ s.top i → ∀ a, s'.view a =
    if base ≤ a ∧ a < top then (s.view a).map fun x => { x with prot := newProt } else s.view a

section

variable (hw : s.Wf) (hl : s.Linked chain) (hi : i ∈ s.vmas)
include hw hl hi

variable (preserved newProt) in
/-- The tail of merge strategy 4 is split off before the mapping is trimmed. -/
theorem splitTrim_edit (offset : ℕ) (flags : VMAFlags) (prot : VMAProt)
    (h₁ : (s.node i).base < top) (h₂ : top < s.top i) :
    ∃ s₁, s.splitAfter i top offset (s.top i - top) flags prot = .ok s₁ ∧
      ∃ s', s' = (s₁.setProt i newProt).setLength i (top - (s.node i).base) ∧
      s.Edit s' i [i, s.fresh] ∧ Evolves preserved s s' chain (edit chain i [i, s.fresh]) := by
  obtain ⟨s₁, hok, hsm, hl₁⟩ := splitAfter_spec hw hl hi top offset (s.top i - top) flags prot
    (hw.base_ne hi h₁ h₂)
  set n : VMAEntry :=
    ⟨(s.node i).resource, some i, s.next i, top, offset, s.top i - top, flags, prot⟩
  let e : VMAEntry := { s.node i with prot := newProt, length := top - (s.node i).base }
  let e₁ : VMAEntry := { s₁.node i with prot := newProt, length := top - (s.node i).base }
  have hfi : i ≠ s.fresh := hw.ne_fresh hi
  have hdi : (s₁.node i).unlinked = (s.node i).unlinked := by
    rw [hsm.data, hw.plus_node hi]
  have he : e₁.unlinked = e.unlinked := by
    obtain ⟨a₁, a₂, a₃, -, a₅, -⟩ := unlinked_inj hdi
    simp [VMAEntry.unlinked, e₁, e, a₁, a₂, a₃, a₅]
  have hsm' : ((s.setNode i e).plus n).SameData (s₁.setNode i e₁) := by
    refine ⟨?_, hsm.resources, hsm.fresh, hsm.freshRes, fun j => ?_, hsm.mrid, hsm.length⟩
    · exact hsm.vmas.trans (insertByBase_congr (setNode_base (e := e) rfl) _ _ _).symm
    · simp only [setNode_node, plus, Function.update_apply, setNode_fresh]
      by_cases hj : j = i
      · simp only [hj, hfi, if_true, if_false, he]
      · simp only [hj, if_false]
        rw [hsm.data]
        simp [plus, Function.update_apply]
  obtain ⟨hed, hev, -⟩ := split_edit preserved (e := e) (n := n) hw hi rfl rfl
    (by show 0 < top - (s.node i).base; omega)
    (by show (s.node i).base + (top - (s.node i).base) ≤ top; omega) rfl
    (by show 0 < s.top i - top; omega) (by show top + (s.top i - top) ≤ s.top i; omega) hsm'
    (hl₁.setNode rfl rfl rfl)
  exact ⟨s₁, hok, _, (setProt_setLength _).symm, hed, hev⟩

variable (preserved newProt) in
theorem setProt_edit :
    s.Edit (s.setProt i newProt) i [i] ∧ Evolves preserved s (s.setProt i newProt) chain chain ∧
      ∀ a, (s.setProt i newProt).view a =
        if (s.node i).Covers a then (s.view a).map fun x => { x with prot := newProt }
        else s.view a := by
  obtain ⟨hed, hev⟩ := setNode_edit preserved (i := i)
    (e := { s.node i with prot := newProt }) hw hl rfl rfl rfl rfl (hw.pos i hi) (Nat.le_refl _)
  refine ⟨hed, hev, fun a => ?_⟩
  have := hed.view hw hev.wf hi (m := fun a => some { (s.node i).mappedAt a with prot := newProt })
    (by simp [top]) (fun a ha => .inr ⟨i, by simp, by
      simpa [VMAEntry.Covers] using ha, by simp [VMAEntry.mappedAt]⟩) a
  refine this.trans ?_
  by_cases hc : (s.node i).Covers a
  · simp [hw.view_eq hi hc]
  · simp [hc]

variable (preserved newProt) in
/-- **Merge strategy 4**, on a mapping that reaches the end of the range. -/
theorem mergeTail_spec (h₁ : (s.node i).base < top) (h₂ : top ≤ s.top i) :
    ∃ s' seg, s.mergeTail i top newProt = .ok s' ∧ s.Edit s' i seg ∧
      Evolves preserved s s' chain (edit chain i seg) ∧
      (top = s.top i → ∀ a, s'.view a =
        if (s.node i).Covers a then (s.view a).map fun x => { x with prot := newProt }
        else s.view a) := by
  have hbou := hw.bound i hi
  have hlen : wsub top (s.node i).base = top - (s.node i).base :=
    wsub_eq (Nat.lt_of_le_of_lt h₂ hbou) (Nat.le_of_lt h₁)
  simp only [mergeTail, deref_ok hi, bind, Except.bind, hw.wadd_top hi, hlen]
  by_cases htl : top < s.top i
  · obtain ⟨s₁, hok, s', rfl, hed, hev⟩ := splitTrim_edit preserved newProt hw hl hi
      (s.offsetAt i (s.node i).base) (s.node i).flags (s.node i).prot h₁ htl
    refine ⟨_, _, ?_, hed, hev, fun h => by omega⟩
    simp only [htl, wsub_eq hbou (Nat.le_of_lt htl), hok]
    rfl
  · obtain rfl : top = s.top i := by omega
    obtain ⟨hed, hev, hvw⟩ := setProt_edit preserved newProt hw hl hi
    have hsl : (s.setProt i newProt).setLength i (s.top i - (s.node i).base) =
        s.setProt i newProt := by
      have : s.top i - (s.node i).base = (s.node i).length := Nat.add_sub_cancel_left _ _
      rw [setProt_setLength, this, setProt]
    refine ⟨_, [i], ?_, hed, ?_, fun _ => hvw⟩
    · simp only [Nat.lt_irrefl, if_false, pure, Except.pure, hsl]
    · rwa [edit_self]

variable (newProt) in
/-- Merge strategy 2: the range ends inside the mapping. -/
theorem merge_start (h₁ : (s.node i).base < top) (h₂ : top < s.top i) :
    ∃ s' chain', ((s.setProt i newProt).setLength i (top - (s.node i).base)).splitAfter i top
        (s.offsetAt i top) (s.top i - top) (s.node i).flags
        (s.node i).prot = .ok s' ∧
      Merged s s' chain chain' i (s.node i).base top newProt := by
  obtain ⟨s', hok, hed, hev, hdi, hdn⟩ := trimSplit_edit none top hw hl hi (s.offsetAt i top)
    (s.top i - top) (s.node i).flags (s.node i).prot
    (e := { s.node i with prot := newProt, length := top - (s.node i).base }) rfl rfl rfl rfl
    (by show 0 < top - (s.node i).base; omega)
    (by show (s.node i).base + (top - (s.node i).base) ≤ top; omega) (by omega) (by omega)
  refine ⟨s', _, by rw [setProt_setLength]; exact hok, hev.toShrinks, fun _ => hev.ordered,
    fun hb ht => ?_⟩
  obtain ⟨r₁, b₁, o₁, l₁, f₁, p₁⟩ := unlinked_inj hdi
  obtain ⟨r₂, b₂, o₂, l₂, f₂, p₂⟩ := unlinked_eq hdn
  refine hed.view_protect hw hev.wf hi hb ht ?_ ?_ ?_
  all_goals
    simp only [mem_cons, not_mem_nil, or_false, forall_eq_or_imp, forall_eq,
      exists_eq_or_imp, exists_eq_left, VMAEntry.Covers, VMATracking.top, VMAEntry.mappedAt,
      r₁, b₁, o₁, f₁, p₁, r₂, b₂, o₂, f₂, p₂] at *
  · omega
  · refine ⟨fun a ha => ?_, fun a ha => ?_⟩
    · rw [if_pos (by omega)]
    · rw [if_neg (by omega), offset_trailing (by omega) ha.1]
  · intro a ha; omega

variable (newProt) in
/-- Merge strategy 3 up to the part inside the range. -/
theorem splitMiddle_edit (h₁ : (s.node i).base < base) (hbt : base < top) (h₂ : top ≤ s.top i) :
    ∃ s', (s.setLength i (base - (s.node i).base)).splitAfter i base
        (s.offsetAt i base) (top - base) (s.node i).flags
        newProt = .ok s' ∧
      s.Edit s' i [i, s.fresh] ∧ Evolves none s s' chain (edit chain i [i, s.fresh]) ∧
      (s'.node i).unlinked = { (s.node i).unlinked with length := base - (s.node i).base } ∧
      (s'.node s.fresh).unlinked = ⟨(s.node i).resource, none, none, base,
        s.offsetAt i base, top - base, (s.node i).flags,
        newProt⟩ :=
  trimSplit_edit none base hw hl hi (s.offsetAt i base) (top - base) (s.node i).flags newProt
    (e := { s.node i with length := base - (s.node i).base }) rfl rfl rfl rfl
    (by show 0 < base - (s.node i).base; omega)
    (by show (s.node i).base + (base - (s.node i).base) ≤ base; omega) (by omega) (by omega)

variable (newProt) in
/-- Merge strategy 3 on a mapping that ends with the range. -/
theorem merge_end (h₁ : (s.node i).base < base) (hbt : base < top) (h₂ : top = s.top i) :
    ∃ s' chain', (s.setLength i (base - (s.node i).base)).splitAfter i base
        (s.offsetAt i base) (top - base) (s.node i).flags
        newProt = .ok s' ∧ Merged s s' chain chain' i base top newProt := by
  obtain ⟨s', hok, hed, hev, hdi, hdn⟩ := splitMiddle_edit newProt hw hl hi h₁ hbt (Nat.le_of_eq h₂)
  refine ⟨s', _, hok, hev.toShrinks, fun _ => hev.ordered, fun hb ht => ?_⟩
  obtain ⟨r₁, b₁, o₁, l₁, f₁, p₁⟩ := unlinked_eq hdi
  obtain ⟨r₂, b₂, o₂, l₂, f₂, p₂⟩ := unlinked_eq hdn
  refine hed.view_protect hw hev.wf hi hb ht ?_ ?_ ?_
  all_goals
    simp only [mem_cons, not_mem_nil, or_false, forall_eq_or_imp, forall_eq,
      exists_eq_or_imp, exists_eq_left, VMAEntry.Covers, VMATracking.top, VMAEntry.mappedAt,
      VMAEntry.unlinked, r₁, b₁, o₁, f₁, p₁, r₂, b₂, o₂, f₂, p₂] at *
  · omega
  · refine ⟨fun a ha => ?_, fun a ha => ?_⟩
    · rw [if_neg (by omega)]
    · rw [if_pos (by omega), offset_trailing (by omega) ha.1]
  · intro a ha; omega

variable (newProt) in
/-- Merge strategy 3 on a mapping that reaches over both ends of the range.  The map gets the
parts in address order; the list gets the part behind the range before the part inside it,
because both are linked right behind the mapping. -/
theorem merge_inside (h₁ : (s.node i).base < base) (hbt : base < top) (h₂ : top < s.top i) :
    ∃ s₁ s', (s.setLength i (base - (s.node i).base)).splitAfter i base
        (s.offsetAt i base) (top - base) (s.node i).flags
        newProt = .ok s₁ ∧
      s₁.splitAfter i top (s.offsetAt i top) (s.top i - top)
        (s.node i).flags (s.node i).prot = .ok s' ∧
      s.Edit s' i [i, s.fresh, s₁.fresh] ∧
      Merged s s' chain (edit chain i [i, s₁.fresh, s.fresh]) i base top newProt := by
  obtain ⟨s₁, hok₁, hedit₁, hev₁, hdi, hdm⟩ := splitMiddle_edit newProt hw hl hi h₁
    hbt (Nat.le_of_lt h₂)
  obtain ⟨r₁, b₁, o₁, l₁, f₁, p₁⟩ := unlinked_eq hdi
  obtain ⟨r₂, b₂, o₂, l₂, f₂, p₂⟩ := unlinked_eq hdm
  have hi₁ : i ∈ s₁.vmas := (hedit₁.mem hi).2 (.inr (by simp))
  have hm₁ : s.fresh ∈ s₁.vmas := (hedit₁.mem hi).2 (.inr (by simp))
  have hfi : s.fresh ≠ i := (hw.ne_fresh hi).symm
  -- the other mappings lie on one side of the whole mapping
  have hoth : ∀ j ∈ s₁.vmas, j ≠ i → j ≠ s.fresh → j ∈ s.vmas ∧
      (s₁.node j).base = (s.node j).base ∧ s₁.top j = s.top j ∧ 0 < (s.node j).length ∧
      (s.top j ≤ (s.node i).base ∨ s.top i ≤ (s.node j).base) := by
    intro j hj hji hjm
    have hj' : j ∈ s.vmas := (((hedit₁.mem hi).1 hj).resolve_right (by simp [hji, hjm])).1
    obtain ⟨-, hb, -, hlen, -⟩ := unlinked_inj (hedit₁.frame j hj' hji)
    exact ⟨hj', hb, by simp [VMATracking.top, hb, hlen], hw.pos j hj', hw.disjoint hj' hi hji⟩
  have hfit : s₁.Fits top (s.top i - top) := by
    intro j hj
    by_cases hji : j = i
    · left; simp only [hji, VMATracking.top, b₁, VMAEntry.unlinked]; omega
    by_cases hjm : j = s.fresh
    · left; simp only [hjm, VMATracking.top]; omega
    obtain ⟨-, hb, ht, -, hd⟩ := hoth j hj hji hjm
    omega
  obtain ⟨s', hok, hsm, hl'⟩ := splitAfter_spec hev₁.wf hev₁.linked hi₁ top
    (s.offsetAt i top) (s.top i - top) (s.node i).flags
    (s.node i).prot (hfit.ne_base hev₁.wf (by omega))
  set n : VMAEntry := ⟨(s₁.node i).resource, some i, s₁.next i, top,
    s.offsetAt i top, s.top i - top, (s.node i).flags,
    (s.node i).prot⟩
  have hwf : s'.Wf := hsm.wf (hev₁.wf.plus hfit (by show 0 < s.top i - top; omega)
    (by show top + (s.top i - top) < word; have := hw.bound i hi; omega))
  have hvm : s'.vmas = substNode i [i, s.fresh, s₁.fresh] s.vmas := by
    have hnx : ∀ j ∈ s₁.vmas, (s₁.node s.fresh).base < (s₁.node j).base →
        top ≤ (s₁.node j).base := by
      intro j hj hlt
      rw [b₂] at hlt
      by_cases hji : j = i
      · rw [hji, b₁] at hlt; simp only [VMAEntry.unlinked] at hlt; omega
      by_cases hjm : j = s.fresh
      · rw [hjm, b₂] at hlt; omega
      obtain ⟨-, hb, ht, hp, hd⟩ := hoth j hj hji hjm
      simp only [VMATracking.top] at *
      omega
    rw [hsm.vmas, hev₁.wf.plus_vmas hm₁ (by rw [b₂]; exact hbt) hnx, hedit₁.vmas,
      substNode_substNode (.inl fun h => hw.ne_fresh h rfl)]
    simp [substNode, hfi.symm]
  have hcha : edit (edit chain i [i, s.fresh]) i [i, s₁.fresh] =
      edit chain i [i, s₁.fresh, s.fresh] := by
    funext q
    rw [edit, edit, substNode_substNode (.inr rfl)]
    simp [substNode, edit, hfi]
  have hda : ∀ j ∈ s₁.vmas, (s'.node j).unlinked = (s₁.node j).unlinked := fun j hj => by
    rw [hsm.data, hev₁.wf.plus_node hj]
  have hdt : (s'.node s₁.fresh).unlinked = n.unlinked := by rw [hsm.data, plus_node_fresh]
  have hed : s.Edit s' i [i, s.fresh, s₁.fresh] := by
    refine ⟨hvm, fun j hj hne => ?_, fun j hj hne hj' => ?_, fun j hj => ?_⟩
    · rw [hda j ((hedit₁.mem hi).2 (.inl ⟨hj, hne⟩)), hedit₁.frame j hj hne]
    · simp only [mem_cons, not_mem_nil, or_false, hne, false_or] at hj
      rcases hj with rfl | rfl
      · exact hw.ne_fresh hj' rfl
      · exact hev₁.wf.ne_fresh ((hedit₁.mem hi).2 (.inl ⟨hj', hne⟩)) rfl
    · simp only [mem_cons, not_mem_nil, or_false] at hj
      rcases hj with rfl | rfl | rfl
      · exact (unlinked_inj (hda j hi₁)).1.trans r₁
      · exact (unlinked_inj (hda _ hm₁)).1.trans r₂
      · exact (unlinked_inj hdt).1.trans r₁
  have hs : Shrinks none s s' chain (edit chain i [i, s₁.fresh, s.fresh]) := by
    rw [← hcha]
    exact hev₁.toShrinks.trans (hsm.shrinks (s := s₁) hwf hl' (by simp) rfl rfl (fun _ => rfl)
      fun _ => rfl)
  refine ⟨s₁, s', hok₁, hok, hed, hs, fun hno hc => ?_, fun hb ht => ?_⟩
  · -- a mapping without a resource is in no list
    have hr : (s.node i).resource = none := by
      by_contra hr; exact hno ⟨hr, h₁, h₂⟩
    rw [hl.edit_none hr, hed.nodesOf, ← hc, hl.edit_none hr]
  · obtain ⟨r₁', b₁', o₁', l₁', f₁', p₁'⟩ := unlinked_eq ((hda i hi₁).trans hdi)
    obtain ⟨r₂', b₂', o₂', l₂', f₂', p₂'⟩ := unlinked_eq ((hda _ hm₁).trans hdm)
    obtain ⟨r₃, b₃, o₃, l₃, f₃, p₃⟩ := unlinked_inj hdt
    refine hed.view_protect hw hwf hi hb ht ?_ ?_ ?_
    all_goals
      simp only [mem_cons, not_mem_nil, or_false, forall_eq_or_imp, forall_eq,
        exists_eq_or_imp, exists_eq_left, VMAEntry.Covers, VMATracking.top, VMAEntry.mappedAt,
        VMAEntry.unlinked, n, r₁, r₁', b₁', o₁', f₁', p₁', r₂', b₂', o₂', l₂', f₂', p₂', r₃, b₃,
        o₃, l₃, f₃, p₃] at h₁ h₂ hb ht ⊢
    · omega
    · refine ⟨fun a ha => ?_, fun a ha => ?_, fun a ha => ?_⟩
      · rw [if_neg (by omega)]
      · rw [if_pos (by omega), offset_trailing (by omega) ha.1]
      · rw [if_neg (by omega), offset_trailing (by omega) ha.1]
    · intro a ha; omega

variable (newProt) in
/-- **Merge strategies 1 to 3.**  They fail only on a mapping that does not contain the range. -/
theorem mergeFirst_spec (hbt : base < top) :
    (s.mergeFirst i base top newProt = .error .die ∧ ¬((s.node i).base ≤ base ∧ top ≤ s.top i)) ∨
      ∃ s' chain', s.mergeFirst i base top newProt = .ok s' ∧
        Merged s s' chain chain' i base top newProt := by
  have hbou := hw.bound i hi
  simp only [mergeFirst, deref_ok hi, bind, Except.bind, hw.wadd_top hi]
  by_cases hbel : s.top i ≤ base
  · have hev : Evolves none s s chain chain := .refl hw hl
    exact .inr ⟨s, chain, by simp [hbel, pure, Except.pure], hev.toShrinks, fun _ => id,
      fun _ ht => by omega⟩
  simp only [hbel]
  by_cases hs₁ : (s.node i).base = base ∧ s.top i = top
  · obtain ⟨rfl, rfl⟩ := hs₁
    obtain ⟨-, hev, hvw⟩ := setProt_edit none newProt hw hl hi
    exact .inr ⟨s.setProt i newProt, chain, by simp [pure, Except.pure], hev.toShrinks,
      fun _ => hev.ordered, fun _ _ => hvw⟩
  simp only [hs₁, if_false]
  by_cases hs₂ : (s.node i).base = base ∧ top < s.top i
  · obtain ⟨rfl, hlt⟩ := hs₂
    obtain ⟨s', chain', hok, hm⟩ := merge_start newProt hw hl hi hbt hlt
    refine .inr ⟨s', chain', ?_, hm⟩
    simp only [hlt, and_self, if_true, wsub_eq (Nat.lt_trans hlt hbou) (Nat.le_of_lt hbt),
      wsub_eq hbou (Nat.le_of_lt hlt), hok]
  simp only [hs₂, if_false]
  by_cases hs₃ : (s.node i).base < base ∧ top ≤ s.top i
  · obtain ⟨hlt, hle⟩ := hs₃
    have e₁ : wsub base (s.node i).base = base - (s.node i).base :=
      wsub_eq (Nat.lt_of_le_of_lt (Nat.le_of_lt (Nat.lt_of_lt_of_le hbt hle)) hbou)
        (Nat.le_of_lt hlt)
    have e₂ : wsub top base = top - base :=
      wsub_eq (Nat.lt_of_le_of_lt hle hbou) (Nat.le_of_lt hbt)
    simp only [hlt, hle, and_self, e₁, e₂]
    by_cases htl : top < s.top i
    · obtain ⟨s₁, s', hok₁, hok, -, hm⟩ := merge_inside newProt hw hl hi hlt hbt htl
      exact .inr ⟨s', _, by simp only [hok₁, htl, if_true, wsub_eq hbou hle, hok], hm⟩
    · obtain ⟨s', chain', hok, hm⟩ := merge_end newProt hw hl hi hlt hbt (by omega)
      exact .inr ⟨s', chain', by simp only [hok, htl]; rfl, hm⟩
  · simp only [hs₃, if_false]
    exact .inl ⟨trivial, by omega⟩

end

end VMATracking

open VMATracking

section Loop

variable {s : VMATracking} {chain : ResId → List NodeId} {base top : ℕ} {newProt : VMAProt}

/-- What the loop of `changeProtectionFlags` leaves: it has dealt with the mappings from the
remaining top on and stopped at the mapping `i`. -/
structure Stopped (s s' : VMATracking) (chain chain' : ResId → List NodeId) (is : List NodeId)
    (base top : ℕ) (newProt : VMAProt) (i : NodeId) (top' : ℕ) : Prop where
  evolves : Evolves none s s' chain chain'
  mem : i ∈ s'.vmas
  memIs : i ∈ is
  lt : base < top'
  /-- Only a mapping the loop starts with can reach beyond the remaining top. -/
  reach : (s' = s ∧ top' = top) ∨ s'.top i ≤ top'
  covered : (∀ a, base ≤ a ∧ a < top → ∃ j ∈ is, (s.node j).Covers a) →
    (s'.node i).base ≤ base ∧ top' ≤ s'.top i
  view : (∀ j ∈ is, base < (s.node j).base → s.top j ≤ top) → top' ≤ top ∧
    ∀ a, s'.view a = if top' ≤ a ∧ a < top then (s.view a).map fun x => { x with prot := newProt }
      else s.view a

variable (newProt) in
/-- **The loop of `changeProtectionFlags`** fails only if part of the range is not mapped. -/
theorem changeLoop_spec {is rest : List NodeId} (hw : s.Wf) (hl : s.Linked chain)
    (hv : s.vmas = is.reverse ++ rest) (hlow : ∀ j ∈ is, (s.node j).base < top) (hbt : base < top) :
    ((∃ f, changeLoop base newProt is top s = .error f) ∧
        ¬∀ a, base ≤ a ∧ a < top → ∃ j ∈ is, (s.node j).Covers a) ∨
      ∃ s' chain' i top', changeLoop base newProt is top s = .ok (s', i, top') ∧
        Stopped s s' chain chain' is base top newProt i top' := by
  induction is generalizing s chain top rest with
  | nil =>
    refine .inl ⟨⟨_, rfl⟩, fun h => ?_⟩
    obtain ⟨j, hj, -⟩ := h base ⟨Nat.le_refl _, hbt⟩
    simp at hj
  | cons i is ih =>
    obtain ⟨hi, hfro, hvs⟩ := hw.visit hv
    have hbou := hw.bound i hi
    have htop := hw.wadd_top hi
    have hbef : ∀ j ∈ is, s.top j ≤ (s.node i).base := fun j hj => (hfro j hj).2.2
    have hil := hlow i mem_cons_self
    by_cases hsp : (s.node i).base ≤ base ∨ s.top i < top
    · have hel : changeLoop base newProt (i :: is) top s = .ok (s, i, top) := by
        simp only [changeLoop, deref_ok hi, bind, Except.bind, htop, hsp]; rfl
      refine .inr ⟨s, chain, i, top, hel, .refl hw hl, hi, mem_cons_self, hbt,
        .inl ⟨rfl, rfl⟩, fun hcov => ?_, fun _ => ⟨Nat.le_refl _, fun a => ?_⟩⟩
      · -- the last address of the range can only be in the last mapping
        obtain ⟨j, hj, hc⟩ := hcov (top - 1) (by omega)
        have : top ≤ s.top i := by
          rcases mem_cons.1 hj with rfl | hj
          · simp only [VMAEntry.Covers, VMATracking.top] at hc ⊢; omega
          · have := hbef j hj
            simp only [VMAEntry.Covers, VMATracking.top] at hc this; omega
        omega
      · rw [if_neg (by omega)]
    · rw [not_or, Nat.not_le, Nat.not_lt] at hsp
      obtain ⟨s₁, seg, hok, hed, hev, hvw⟩ := mergeTail_spec none newProt hw hl hi hil hsp.2
      have hnew : wadd base (wsub (s.node i).base base) = (s.node i).base := by
        have hlt : (s.node i).base < word := by simp only [VMATracking.top] at hbou; omega
        rw [wsub_eq hlt (Nat.le_of_lt hsp.1), wadd_eq (by omega)]; omega
      have hfra : ∀ j ∈ is, (s₁.node j).unlinked = (s.node j).unlinked := fun j hj =>
        hed.frame j (hfro j hj).1 (hfro j hj).2.1
      have hbase₁ : ∀ j ∈ is, (s₁.node j).base = (s.node j).base := fun j hj =>
        (unlinked_inj (hfra j hj)).2.1
      have htop₁ : ∀ j ∈ is, s₁.top j = s.top j := fun j hj => by
        simp [VMATracking.top, hbase₁ j hj, (unlinked_inj (hfra j hj)).2.2.2.1]
      have hcov₁ : (∀ a, base ≤ a ∧ a < top → ∃ j ∈ i :: is, (s.node j).Covers a) →
          ∀ a, base ≤ a ∧ a < (s.node i).base → ∃ j ∈ is, (s₁.node j).Covers a := by
        intro hcov a ha
        obtain ⟨j, hj, hc⟩ := hcov a (by omega)
        rcases mem_cons.1 hj with rfl | hj
        · simp only [VMAEntry.Covers] at hc; omega
        · exact ⟨j, hj, (VMAEntry.covers_congr (hfra j hj)).2 hc⟩
      have hel : changeLoop base newProt (i :: is) top s =
          changeLoop base newProt is (s.node i).base s₁ := by
        simp only [changeLoop, deref_ok hi, bind, Except.bind, hok, hnew]
        rw [if_neg (by omega)]
      rw [hel]
      rcases ih hev.wf hev.linked (hvs hed) (fun j hj => by
        have := hbef j hj
        have := hw.pos j (hfro j hj).1
        rw [hbase₁ j hj]
        simp only [VMATracking.top] at *
        omega) hsp.1 with ⟨hdie, hno⟩ | ⟨s', chain', i', top', hok', hst⟩
      · exact .inl ⟨hdie, fun hcov => hno (hcov₁ hcov)⟩
      · refine .inr ⟨s', chain', i', top', hok', hev.trans hst.evolves, hst.mem,
          mem_cons_of_mem _ hst.memIs, hst.lt, .inr ?_, fun hcov => hst.covered (hcov₁ hcov),
          fun hno => ?_⟩
        · rcases hst.reach with ⟨rfl, rfl⟩ | h
          · rw [htop₁ i' hst.memIs]; exact hbef i' hst.memIs
          · exact h
        · have heq : top = s.top i := Nat.le_antisymm hsp.2 (hno i mem_cons_self hsp.1)
          obtain ⟨hle, hv'⟩ := hst.view fun j hj _ => by rw [htop₁ j hj]; exact hbef j hj
          refine ⟨by omega, fun a => ?_⟩
          rw [hv' a, hvw heq a]
          have hc : (s.node i).Covers a ↔ (s.node i).base ≤ a ∧ a < top := by rw [heq]; rfl
          simp only [hc]
          split_ifs <;> first | rfl | omega

/-- The mapping `i` is cut by the end of the range but not by its start. -/
def Straddles (s : VMATracking) (base top : ℕ) : Prop :=
  ∃ i ∈ s.vmas, base < (s.node i).base ∧ (s.node i).base < top ∧ top < s.top i

instance : Decidable (Straddles s base top) :=
  inferInstanceAs (Decidable (∃ i ∈ s.vmas, _ ∧ _ ∧ _))

/-- A mapping of some resource is cut by both ends of the range. -/
def Encloses (s : VMATracking) (base top : ℕ) : Prop :=
  ∃ i ∈ s.vmas, (s.node i).resource ≠ none ∧ (s.node i).base < base ∧ top < s.top i

instance : Decidable (Encloses s base top) :=
  inferInstanceAs (Decidable (∃ i ∈ s.vmas, _ ∧ _ ∧ _))

variable (newProt) in
/-- **`changeProtectionFlags`** fails only if part of the range is not mapped.  It keeps the lists
in address order unless a mapping encloses the range, and changes the protection of the range and
nothing else unless a mapping straddles its end. -/
theorem changeProtectionFlags_spec {length : ℕ} (hw : s.Wf) (hl : s.Linked chain)
    (hb : base + length < word) :
    ((∃ f, s.changeProtectionFlags base length newProt = .error f) ∧
        ¬∀ a, base ≤ a ∧ a < base + length → ∃ j ∈ s.vmas, (s.node j).Covers a) ∨
      ∃ s' chain', s.changeProtectionFlags base length newProt = .ok s' ∧
        Shrinks none s s' chain chain' ∧
        (¬Encloses s base (base + length) → chain = s.nodesOf → chain' = s'.nodesOf) ∧
        ((∀ a, base ≤ a ∧ a < base + length → ∃ j ∈ s.vmas, (s.node j).Covers a) →
          ¬Straddles s base (base + length) →
          s'.view = s.view.protect base length newProt) := by
  simp only [changeProtectionFlags]
  by_cases hlen : length = 0
  · refine .inr ⟨s, chain, by simp [hlen, pure, Except.pure],
      (Evolves.refl hw hl).toShrinks, fun _ => id, fun _ _ => funext fun a => ?_⟩
    rw [AddressMap.protect, if_neg (by omega)]
  have htop : wadd base length = base + length := wadd_eq hb
  set top := base + length
  have hsub : ∀ j ∈ s.below top, j ∈ s.vmas := fun j hj => by
    rw [s.vmas_eq_below top]; simp [hj]
  have hbel : ∀ j ∈ s.below top, (s.node j).base < top := fun j hj =>
    lt_of_mem_takeWhile (mem_reverse.1 hj)
  -- the mappings that contain an address of the range are among those the loop visits
  have hcov : (∀ a, base ≤ a ∧ a < top → ∃ j ∈ s.vmas, (s.node j).Covers a) →
      ∀ a, base ≤ a ∧ a < top → ∃ j ∈ s.below top, (s.node j).Covers a := by
    intro h a ha
    obtain ⟨j, hj, hc⟩ := h a ha
    exact ⟨j, hw.mem_below hj hc ha.2, hc⟩
  rcases changeLoop_spec newProt hw hl (s.vmas_eq_below top) hbel (show base < top by omega) with
    ⟨⟨f, hdie⟩, hno⟩ | ⟨s₁, chain₁, i, top', hok, hst⟩
  · exact .inl ⟨⟨f, by simp only [hlen, if_false, htop, hdie, bind, Except.bind]⟩,
      fun h => hno (hcov h)⟩
  · rcases mergeFirst_spec newProt hst.evolves.wf hst.evolves.linked hst.mem hst.lt with
      ⟨hdie, hno⟩ | ⟨s', chain', hok', hm⟩
    · refine .inl ⟨⟨.die, by simp only [hlen, if_false, htop, hok, hdie, bind, Except.bind]⟩,
        fun h => ?_⟩
      exact hno (hst.covered (hcov h))
    · refine .inr ⟨s', chain', by simp only [hlen, if_false, htop, hok, hok', bind, Except.bind],
        hst.evolves.toShrinks.trans hm.shrinks, fun hno hc => ?_, fun h hno => ?_⟩
      · refine hm.ordered (fun hbad => hno ?_) (hst.evolves.ordered hc)
        rcases hst.reach with ⟨rfl, rfl⟩ | hrea
        · exact ⟨i, hst.mem, hbad⟩
        · omega
      · obtain ⟨h₁, h₂⟩ := hst.covered (hcov h)
        obtain ⟨hle, hv⟩ := hst.view fun j hj hlt => by
          by_contra hgt
          exact hno ⟨j, hsub j hj, hlt, hbel j hj, by omega⟩
        funext a
        have := hst.lt
        rw [hm.view h₁ h₂ a, hv a, AddressMap.protect]
        split_ifs <;> first | rfl | omega

end Loop

end FastPPC.Vma
