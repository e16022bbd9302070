import FastPPC.Vma.Tracking
import FastPPC.Lists.DList

/-!
# The list operations of the VMA tracker

The nodes of one resource form an intrusive doubly linked list.  Each list operation of the
tracker is specified here once: started on a well-formed list it violates no assertion,
changes link fields only, and leaves the list with the node removed, replaced or inserted.
-/

namespace FastPPC.Vma

open DList List VMATracking

def VMAEntry.unlinked (e : VMAEntry) : VMAEntry :=
  { e with resourcePrevVMA := none, resourceNextVMA := none }

namespace VMATracking

def prev (s : VMATracking) (i : NodeId) : Option NodeId := (s.node i).resourcePrevVMA

def next (s : VMATracking) (i : NodeId) : Option NodeId := (s.node i).resourceNextVMA

/-- `l` is the list of the resource `r`. -/
def IsList (s : VMATracking) (r : ResId) (l : List NodeId) : Prop :=
  IsDList s.prev s.next (s.res r).firstVMA l

/-- The two states differ in links and head pointers only. -/
structure SameData (s s' : VMATracking) : Prop where
  vmas : s'.vmas = s.vmas
  resources : s'.resources = s.resources
  fresh : s'.fresh = s.fresh
  freshRes : s'.freshRes = s.freshRes
  data : ∀ i, (s'.node i).unlinked = (s.node i).unlinked
  mrid : ∀ r, (s'.res r).mrid = (s.res r).mrid
  length : ∀ r, (s'.res r).length = (s.res r).length

theorem SameData.refl (s : VMATracking) : s.SameData s :=
  ⟨rfl, rfl, rfl, rfl, fun _ => rfl, fun _ => rfl, fun _ => rfl⟩

/-- `s'` is `s` with other links in the nodes of `l` and another head pointer of `r`. -/
structure Relinked (s s' : VMATracking) (r : ResId) (l : List NodeId) : Prop
    extends SameData s s' where
  frame : ∀ i, i ∉ l → s'.node i = s.node i
  frameRes : ∀ q, q ≠ r → s'.res q = s.res q

variable {s s' : VMATracking} {r : ResId} {v w : NodeId} {l l₁ l₂ : List NodeId}

section Updates

variable (s) (i j : NodeId) (e : VMAEntry) (o : Option NodeId) (q : ResId)

@[simp] theorem setNode_vmas : (s.setNode i e).vmas = s.vmas := rfl
@[simp] theorem setNode_res : (s.setNode i e).res = s.res := rfl
@[simp] theorem setNode_fresh : (s.setNode i e).fresh = s.fresh := rfl

@[simp] theorem setNode_node : (s.setNode i e).node j = if j = i then e else s.node j := by
  simp [setNode, Function.update_apply]

@[simp] theorem setFirst_res (r : ResId) : (s.setFirst q o).res r =
    if r = q then { s.res q with firstVMA := o } else s.res r := by
  simp only [setFirst, Function.update_apply]

@[simp] theorem setPrev_prev (p : Option NodeId) :
    (s.setPrev o p).prev i = if o = some i then p else s.prev i := by
  simp only [prev, setPrev]; split_ifs <;> rfl

@[simp] theorem setPrev_next (p : Option NodeId) : (s.setPrev o p).next i = s.next i := by
  simp only [next, setPrev]; split_ifs <;> rfl

@[simp] theorem setNext_next (n : Option NodeId) :
    (s.setNext o n).next i = if o = some i then n else s.next i := by
  simp only [next, setNext]; split_ifs <;> rfl

@[simp] theorem setNext_prev (n : Option NodeId) : (s.setNext o n).prev i = s.prev i := by
  simp only [prev, setNext]; split_ifs <;> rfl

@[simp] theorem setFirst_prev : (s.setFirst q o).prev = s.prev := rfl
@[simp] theorem setFirst_next : (s.setFirst q o).next = s.next := rfl

end Updates

namespace Relinked

theorem refl (s : VMATracking) (r : ResId) (l : List NodeId) : s.Relinked s r l :=
  ⟨.refl s, fun _ _ => rfl, fun _ _ => rfl⟩

/-- Writing a link of a node of the list. -/
theorem setPrev (h : s.Relinked s' r l) {o p : Option NodeId} (ho : ∀ y, o = some y → y ∈ l) :
    s.Relinked (s'.setPrev o p) r l := by
  refine { h with data := fun i => ?_, frame := fun i hi => ?_ }
  · rw [← h.data i]
    simp only [VMATracking.setPrev]
    split_ifs <;> rfl
  · rw [← h.frame i hi]
    exact if_neg fun e => hi (ho i e)

@[inherit_doc setPrev]
theorem setNext (h : s.Relinked s' r l) {o n : Option NodeId} (ho : ∀ y, o = some y → y ∈ l) :
    s.Relinked (s'.setNext o n) r l := by
  refine { h with data := fun i => ?_, frame := fun i hi => ?_ }
  · rw [← h.data i]
    simp only [VMATracking.setNext]
    split_ifs <;> rfl
  · rw [← h.frame i hi]
    exact if_neg fun e => hi (ho i e)

theorem setFirst (h : s.Relinked s' r l) (f : Option NodeId) :
    s.Relinked (s'.setFirst r f) r l := by
  refine { h with mrid := fun q => ?_, length := fun q => ?_, frameRes := fun q hq => ?_ }
  · rw [setFirst_res, ← h.mrid]
    split_ifs with hq <;> simp [hq]
  · rw [setFirst_res, ← h.length]
    split_ifs with hq <;> simp [hq]
  · rw [setFirst_res, if_neg hq, h.frameRes q hq]

end Relinked

theorem check_ok {p : Prop} [Decidable p] (h : p) : check p = .ok () := if_pos h

theorem deref_ok {i : NodeId} (h : i ∈ s.vmas) : s.deref i = .ok (s.node i) := if_pos h

theorem derefRes_ok (h : r ∈ s.resources) : s.derefRes r = .ok (s.res r) := if_pos h

theorem checkNext_ok {o : Option NodeId}
    (h : ∀ p, o = some p → p ∈ s.vmas ∧ s.next p = some v) : s.checkNext o v = .ok () := by
  cases o with
  | none => rfl
  | some p =>
    obtain ⟨hp, hn⟩ := h p rfl
    simp only [checkNext, deref_ok hp]
    exact check_ok hn

theorem checkPrev_ok {o o' : Option NodeId}
    (h : ∀ n, o = some n → n ∈ s.vmas ∧ s.prev n = o') : s.checkPrev o o' = .ok () := by
  cases o with
  | none => rfl
  | some n =>
    obtain ⟨hn, hp⟩ := h n rfl
    simp only [checkPrev, deref_ok hn]
    exact check_ok hp

theorem listCheckVMALinks_ok {o : Option NodeId}
    (h : ∀ v, o = some v → v ∈ s.vmas ∧ s.next v ≠ some v ∧ s.prev v ≠ some v) :
    s.listCheckVMALinks o = .ok () := by
  cases o with
  | none => rfl
  | some v =>
    obtain ⟨hv, hn, hp⟩ := h v rfl
    simp only [listCheckVMALinks, deref_ok hv]
    simp only [next, prev] at hn hp
    simp [check, hn, hp, bind, Except.bind]

section

variable (h : s.IsList r (l₁ ++ v :: l₂))
include h

theorem IsList.pred {p : NodeId} (hp : s.prev v = some p) : p ∈ l₁ ∧ s.next p = some v := by
  have hls := h.prev_eq_some.1 hp
  obtain ⟨l', rfl⟩ : ∃ l', l₁ = l' ++ [p] :=
    ⟨l₁.dropLast, (dropLast_append_getLast? p hls).symm⟩
  have h' : IsDList s.prev s.next (s.res r).firstVMA (l' ++ p :: (v :: l₂)) := by
    simpa [IsList] using h
  exact ⟨by simp, by simpa using h'.links.2⟩

theorem IsList.succ {n : NodeId} (hn : s.next v = some n) : n ∈ l₂ ∧ s.prev n = some v := by
  have hhd := h.next_eq_some.1 hn
  obtain ⟨l', rfl⟩ : ∃ l', l₂ = n :: l' := by
    cases l₂ with
    | nil => simp at hhd
    | cons m l' => exact ⟨l', by simpa using hhd⟩
  have h' : IsDList s.prev s.next (s.res r).firstVMA ((l₁ ++ [v]) ++ n :: l') := by
    simpa [IsList] using h
  exact ⟨by simp, by simpa using h'.links.1⟩

theorem IsList.neighbours :
    (∀ y, s.prev v = some y → y ∈ l₁ ++ l₂) ∧ ∀ y, s.next v = some y → y ∈ l₁ ++ l₂ :=
  ⟨fun _ e => mem_append_left _ (h.pred e).1, fun _ e => mem_append_right _ (h.succ e).1⟩

end

theorem IsList.noSelf (h : s.IsList r l) (hv : v ∈ l) : s.next v ≠ some v ∧ s.prev v ≠ some v := by
  obtain ⟨l₁, l₂, rfl⟩ := append_of_mem hv
  obtain ⟨-, -, x₁, x₂, -⟩ := h.nodups
  exact ⟨fun e => x₂ (h.succ e).1, fun e => x₁ (h.pred e).1⟩

/-- The links of a list pass the check. -/
theorem IsList.links_ok (h : s.IsList r l) (hm : ∀ i ∈ l, i ∈ s.vmas) {o : Option NodeId}
    (ho : ∀ y, o = some y → y ∈ l) : s.listCheckVMALinks o = .ok () :=
  listCheckVMALinks_ok fun y hy => ⟨hm y (ho y hy), h.noSelf (ho y hy)⟩

section

variable (h : s.IsList r (l₁ ++ v :: l₂)) (hm : ∀ i ∈ l₁ ++ v :: l₂, i ∈ s.vmas)
include h hm

/-- The neighbours of a node point to it. -/
theorem IsList.neighbours_ok (hvm : s'.vmas = s.vmas) :
    ((∀ i, s'.next i = s.next i) → s'.checkNext (s.node v).resourcePrevVMA v = .ok ()) ∧
      ((∀ i, s'.prev i = s.prev i) →
        s'.checkPrev (s.node v).resourceNextVMA (some v) = .ok ()) := by
  refine ⟨fun hnx => checkNext_ok fun p hp => ?_, fun hpr => checkPrev_ok fun n hn => ?_⟩
  · rw [hvm, hnx]
    exact ⟨hm p (by simp [(h.pred hp).1]), (h.pred hp).2⟩
  · rw [hvm, hpr]
    exact ⟨hm n (by simp [(h.succ hn).1]), (h.succ hn).2⟩

/-- **`listRemove` unlinks the node.** -/
theorem listRemove_spec (hv : (s.node v).resource = some r) (hr : r ∈ s.resources) :
    ∃ s', s.listRemove v = .ok (s', decide (l₁ ++ l₂ = [])) ∧
      s.Relinked s' r (l₁ ++ v :: l₂) ∧ s'.IsList r (l₁ ++ l₂) := by
  have hvm : v ∈ s.vmas := hm v (by simp)
  have hin : ∀ y ∈ l₁ ++ l₂, y ∈ l₁ ++ v :: l₂ := fun y hy => by
    simp only [mem_append] at hy ⊢
    tauto
  obtain ⟨hp, hn⟩ := h.neighbours
  -- the state the code computes
  let s₂ := (s.setNext (s.prev v) (s.next v)).setPrev (s.next v) (s.prev v)
  let s₃ := if (s.res r).firstVMA = some v then s₂.setFirst r (s.next v) else s₂
  have hrel : s.Relinked s₃ r (l₁ ++ v :: l₂) := by
    have h₂ : s.Relinked s₂ r (l₁ ++ v :: l₂) :=
      ((Relinked.refl s r _).setNext fun y e => hin y (hp y e)).setPrev fun y e => hin y (hn y e)
    simp only [s₃]
    split_ifs
    · exact h₂.setFirst _
    · exact h₂
  have hpr : ∀ y, s₃.prev y = if s.next v = some y then s.prev v else s.prev y := by
    intro y; simp only [s₃, s₂]; split_ifs <;> simp_all
  have hnx : ∀ y, s₃.next y = if s.prev v = some y then s.next v else s.next y := by
    intro y; simp only [s₃, s₂]; split_ifs <;> simp_all
  have hfir : (s₃.res r).firstVMA =
      if (s.res r).firstVMA = some v then s.next v else (s.res r).firstVMA := by
    simp only [s₃, s₂]; split_ifs <;> simp [setPrev, setNext]
  have hl : s₃.IsList r (l₁ ++ l₂) := h.remove (fun y _ => hpr y) (fun y _ => hnx y) hfir
  refine ⟨s₃, ?_, hrel, hl⟩
  have e₁ := (h.neighbours_ok hm rfl).1 fun _ => rfl
  have e₂ : check ((s.node v).resourcePrevVMA = none → (s.res r).firstVMA = some v) =
      .ok () := check_ok h.first_iff.2
  have hvs : (s.setNext (s.prev v) (s.next v)).vmas = s.vmas := rfl
  have e₃ := (h.neighbours_ok hm hvs).2 fun i => setNext_prev s i _ _
  have e₄ : (s.res r).firstVMA = some v → s₂.checkPrev (s.node v).resourceNextVMA none =
      .ok () := by
    intro hf
    refine checkPrev_ok fun n e => ⟨hm n (hin n (hn n e)), ?_⟩
    have hn' : s.next v = some n := e
    simp [s₂, hn', h.first_iff.1 hf]
  have hm₃ : ∀ i ∈ l₁ ++ l₂, i ∈ s₃.vmas := fun i hi => hrel.vmas ▸ hm i (hin i hi)
  have e₅ : s₃.listCheckVMALinks (some v) = .ok () := by
    refine listCheckVMALinks_ok fun y hy => ?_
    obtain rfl : v = y := by simpa using hy
    have hs := h.noSelf (v := v) (by simp)
    rw [hrel.vmas, hnx, hpr, if_neg hs.2, if_neg hs.1]
    exact ⟨hvm, hs⟩
  have e₆ := hl.links_ok hm₃ (o := (s.node v).resourceNextVMA) hn
  have e₇ := hl.links_ok hm₃ (o := (s.node v).resourcePrevVMA) hp
  have hls : decide ((s₃.res r).firstVMA = none) = decide (l₁ ++ l₂ = []) :=
    decide_eq_decide.2 (by rw [hl.first_eq, List.head?_eq_none_iff])
  have hs₁ : s.setNext (s.node v).resourcePrevVMA (s.node v).resourceNextVMA =
      s.setNext (s.prev v) (s.next v) := rfl
  have hs₂ : (s.setNext (s.prev v) (s.next v)).setPrev
      (s.node v).resourceNextVMA (s.node v).resourcePrevVMA = s₂ := rfl
  simp only [listRemove, deref_ok hvm, derefRes_ok hr, hv, e₁, e₂, hs₁, e₃, hs₂, bind, Except.bind,
    pure, Except.pure]
  by_cases hf : (s.res r).firstVMA = some v
  · have hs₃ : s₂.setFirst r (s.node v).resourceNextVMA = s₃ := by simp only [s₃, if_pos hf]; rfl
    simp only [hf, if_true, e₄ hf, hs₃, e₅, e₆, e₇, hls]
  · have hs₃ : s₂ = s₃ := by simp only [s₃, if_neg hf]
    simp only [hf, if_false, hs₃, e₅, e₆, e₇, hls]

end

section

variable (h : s.IsList r (l₁ ++ v :: l₂)) (hw : w ∉ l₁ ++ v :: l₂)
  (hm : ∀ i ∈ l₁ ++ v :: l₂, i ∈ s.vmas) (hwm : w ∈ s.vmas) (hv : (s.node v).resource = some r)
include h hw hm hwm hv

/-- **`listReplace` puts the node `w` in the place of `v`.** -/
theorem listReplace_spec (hr : r ∈ s.resources) (hwr : (s.node w).resource = some r)
    (hwp : s.prev w = s.prev v) (hwn : s.next w = s.next v) :
    ∃ s', s.listReplace v w = .ok s' ∧ s.Relinked s' r (l₁ ++ v :: l₂) ∧
      s'.IsList r (l₁ ++ [w] ++ l₂) := by
  have hvm : v ∈ s.vmas := hm v (by simp)
  have hin : ∀ y ∈ l₁ ++ l₂, y ∈ l₁ ++ v :: l₂ ∧ y ∈ l₁ ++ [w] ++ l₂ := fun y hy => by
    simp only [mem_append] at hy ⊢
    tauto
  obtain ⟨hp, hn⟩ := h.neighbours
  let s₁ := s.setNext (s.prev v) (some w)
  let s₂ := if s.prev v = none then s₁.setFirst r (some w) else s₁
  let s₃ := s₂.setPrev (s.next v) (some w)
  have hrel₂ : s.Relinked s₂ r (l₁ ++ v :: l₂) := by
    have h₁ : s.Relinked s₁ r (l₁ ++ v :: l₂) :=
      (Relinked.refl s r _).setNext fun y e => (hin y (hp y e)).1
    simp only [s₂]
    split_ifs
    · exact h₁.setFirst _
    · exact h₁
  have hrel : s.Relinked s₃ r (l₁ ++ v :: l₂) := hrel₂.setPrev fun y e => (hin y (hn y e)).1
  have hpw : s.prev v ≠ some w := fun e => hw (hin w (hp w e)).1
  have hnw : s.next v ≠ some w := fun e => hw (hin w (hn w e)).1
  have hprev₂ : ∀ y, s₂.prev y = s.prev y := by
    intro y; simp only [s₂, s₁]; split_ifs <;> simp
  have hpr : ∀ y, s₃.prev y = if s.next v = some y then some w else s.prev y := by
    intro y; simp only [s₃, setPrev_prev, hprev₂]
  have hnx : ∀ y, s₃.next y = if s.prev v = some y then some w else s.next y := by
    intro y; simp only [s₃, s₂, s₁]; split_ifs <;> simp_all
  have hfir : (s₃.res r).firstVMA =
      if s.prev v = none then some w else (s.res r).firstVMA := by
    simp only [s₃, s₂, s₁, setPrev]; split_ifs <;> simp [setNext]
  have hl : s₃.IsList r (l₁ ++ [w] ++ l₂) :=
    h.replace hw (fun y _ => hpr y) (fun y _ => hnx y)
      (by rw [hpr, if_neg hnw, hwp]) (by rw [hnx, if_neg hpw, hwn]) hfir
  refine ⟨s₃, ?_, hrel, hl⟩
  have e₁ : check ((s.node v).resourcePrevVMA = none ↔ (s.res r).firstVMA = some v) =
      .ok () := check_ok h.first_iff.symm
  have e₂ := (h.neighbours_ok hm rfl).1 fun _ => rfl
  have e₃ := (h.neighbours_ok hm hrel₂.vmas).2 hprev₂
  have hm₃ : ∀ i ∈ l₁ ++ [w] ++ l₂, i ∈ s₃.vmas := by
    simp only [forall_mem_append, forall_mem_cons] at hm
    simp only [forall_mem_append, forall_mem_singleton, hrel.vmas]
    exact ⟨⟨hm.1, hwm⟩, hm.2.2⟩
  have e₄ : s₃.listCheckVMALinks (some v) = .ok () := by
    refine listCheckVMALinks_ok fun y hy => ?_
    obtain rfl : v = y := by simpa using hy
    have hs := h.noSelf (v := v) (by simp)
    rw [hrel.vmas, hnx, hpr, if_neg hs.2, if_neg hs.1]
    exact ⟨hvm, hs⟩
  have e₅ := hl.links_ok hm₃ (o := some w) (by simp)
  have e₆ := hl.links_ok hm₃ (o := (s.node v).resourceNextVMA) fun y e => (hin y (hn y e)).2
  have e₇ := hl.links_ok hm₃ (o := (s.node v).resourcePrevVMA) fun y e => (hin y (hp y e)).2
  have c₁ : check ((s.node w).resource = some r) = .ok () := check_ok hwr
  have c₂ : check ((s.node w).resourcePrevVMA = (s.node v).resourcePrevVMA) = .ok () :=
    check_ok hwp
  have c₃ : check ((s.node w).resourceNextVMA = (s.node v).resourceNextVMA) = .ok () :=
    check_ok hwn
  have hs₂ : (if (s.node v).resourcePrevVMA = none then
      (s.setNext (s.node v).resourcePrevVMA (some w)).setFirst r (some w)
      else s.setNext (s.node v).resourcePrevVMA (some w)) = s₂ := rfl
  have hs₃ : s₂.setPrev (s.node v).resourceNextVMA (some w) = s₃ := rfl
  simp only [listReplace, deref_ok hvm, deref_ok hwm, derefRes_ok hr, hv, c₁, c₂, c₃, e₁, e₂,
    hs₂, e₃, hs₃, e₄, e₅, e₆, e₇, bind, Except.bind, pure, Except.pure]

/-- **`listInsertAfter` links the node `w` behind `v`.** -/
theorem listInsertAfter_spec (hwr : (s.node w).resource = some r) (hwp : s.prev w = some v)
    (hwn : s.next w = s.next v) :
    ∃ s', s.listInsertAfter v w = .ok s' ∧ s.Relinked s' r (l₁ ++ v :: l₂) ∧
      s'.IsList r (l₁ ++ [v, w] ++ l₂) := by
  have hvm : v ∈ s.vmas := hm v (by simp)
  have hin : ∀ y ∈ l₁ ++ l₂, y ∈ l₁ ++ v :: l₂ ∧ y ∈ l₁ ++ [v, w] ++ l₂ := fun y hy => by
    simp only [mem_append] at hy ⊢
    tauto
  obtain ⟨hp, hn⟩ := h.neighbours
  let s₃ := (s.setPrev (s.next v) (some w)).setNext (some v) (some w)
  have hrel : s.Relinked s₃ r (l₁ ++ v :: l₂) :=
    ((Relinked.refl s r _).setPrev fun y e => (hin y (hn y e)).1).setNext fun y e => by
      simp [← Option.some.inj e]
  have hnw : s.next v ≠ some w := fun e => hw (hin w (hn w e)).1
  have hwv : w ≠ v := fun e => hw (by simp [e])
  have hpr : ∀ y, s₃.prev y = if s.next v = some y then some w else s.prev y := by
    intro y; simp [s₃]
  have hnx : ∀ y, s₃.next y = if y = v then some w else s.next y := by
    intro y; simp [s₃, eq_comm]
  have hl : s₃.IsList r (l₁ ++ [v, w] ++ l₂) :=
    h.insertAfter hw (fun y _ => hpr y) (fun y _ => hnx y)
      (by rw [hpr, if_neg hnw, hwp]) (by rw [hnx, if_neg hwv, hwn])
  refine ⟨s₃, ?_, hrel, hl⟩
  have e₁ := (h.neighbours_ok hm rfl).2 fun _ => rfl
  have hm₃ : ∀ i ∈ l₁ ++ [v, w] ++ l₂, i ∈ s₃.vmas := by
    simp only [forall_mem_append, forall_mem_cons] at hm
    simp only [forall_mem_append, forall_mem_cons]
    exact ⟨⟨hm.1, hvm, hwm, fun _ h => absurd h not_mem_nil⟩, hm.2.2⟩
  have e₂ := hl.links_ok hm₃ (o := some v) (by simp)
  have e₃ := hl.links_ok hm₃ (o := some w) (by simp)
  have e₄ := hl.links_ok hm₃ (o := (s.node v).resourcePrevVMA) fun y e => (hin y (hp y e)).2
  have c₁ : check ((s.node w).resource ≠ none) = .ok () := check_ok (by simp [hwr])
  have c₂ : check ((s.node v).resource = (s.node w).resource) = .ok () :=
    check_ok (by rw [hv, hwr])
  have c₃ : check ((s.node w).resourcePrevVMA = some v) = .ok () := check_ok hwp
  have c₄ : check ((s.node w).resourceNextVMA = (s.node v).resourceNextVMA) = .ok () :=
    check_ok hwn
  have hs₃ : (s.setPrev (s.node v).resourceNextVMA (some w)).setNext (some v) (some w) = s₃ := rfl
  simp only [listInsertAfter, deref_ok hvm, deref_ok hwm, c₁, c₂, c₃, c₄, e₁, hs₃, e₂, e₃, e₄,
    bind, Except.bind, pure, Except.pure]

end

/-- **`listPrepend` links the node `w` in front.** -/
theorem listPrepend_spec (h : s.IsList r l) (hw : w ∉ l) (hm : ∀ i ∈ l, i ∈ s.vmas)
    (hwm : w ∈ s.vmas) (hr : r ∈ s.resources) (hwr : (s.node w).resource = some r)
    (hwp : s.prev w = none) (hwn : s.next w = (s.res r).firstVMA) :
    ∃ s', s.listPrepend r w = .ok s' ∧ s.Relinked s' r l ∧ s'.IsList r (w :: l) := by
  let s₃ := (s.setPrev (s.res r).firstVMA (some w)).setFirst r (some w)
  have hmem : ∀ y, (s.res r).firstVMA = some y → y ∈ l := fun y hy =>
    mem_of_head? (h.first_eq ▸ hy)
  have hrel : s.Relinked s₃ r l := ((Relinked.refl s r l).setPrev hmem).setFirst _
  have hfw : (s.res r).firstVMA ≠ some w := fun e => hw (hmem w e)
  have hpr : ∀ y, s₃.prev y = if (s.res r).firstVMA = some y then some w else s.prev y := by
    intro y; simp [s₃]
  have hnx : ∀ y, s₃.next y = s.next y := by intro y; simp [s₃]
  have hl : s₃.IsList r (w :: l) := by
    have hf : (s₃.res r).firstVMA = some w := by simp [s₃]
    rw [IsList, hf]
    exact h.prepend hw (fun y _ => hpr y) (fun y _ => hnx y)
      (by rw [hpr, if_neg hfw, hwp]) (by rw [hnx, hwn])
  refine ⟨s₃, ?_, hrel, hl⟩
  have e₁ : s.checkPrev (s.res r).firstVMA none = .ok () := by
    refine checkPrev_ok fun f hf => ⟨hm f (hmem f hf), ?_⟩
    obtain ⟨l₁, l₂, rfl⟩ := append_of_mem (hmem f hf)
    exact h.first_iff.1 hf
  have hm₃ : ∀ i ∈ w :: l, i ∈ s₃.vmas := forall_mem_cons.2 ⟨hwm, hm⟩
  have e₂ := hl.links_ok hm₃ (o := some w) (by simp)
  have e₃ := hl.links_ok hm₃ (o := (s.node w).resourceNextVMA) fun y hy =>
    mem_cons_of_mem _ (hmem y (hwn ▸ hy))
  have e₄ := hl.links_ok hm₃ (o := (s.node w).resourcePrevVMA) fun y hy =>
    absurd (hwp.symm.trans hy) (by simp)
  have c₁ : check ((s.node w).resource = some r) = .ok () := check_ok hwr
  have c₂ : check ((s.node w).resourcePrevVMA = none) = .ok () := check_ok hwp
  have c₃ : check ((s.node w).resourceNextVMA = (s.res r).firstVMA) = .ok () := check_ok hwn
  have hs₃ : (s.setPrev (s.res r).firstVMA (some w)).setFirst r (some w) = s₃ := rfl
  simp only [listPrepend, deref_ok hwm, derefRes_ok hr, c₁, c₂, c₃, e₁, hs₃, e₂, e₃, e₄,
    bind, Except.bind, pure, Except.pure]

end VMATracking

end FastPPC.Vma
