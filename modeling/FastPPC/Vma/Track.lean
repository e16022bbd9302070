import FastPPC.Vma.Delete

/-!
# Tracking a new mapping

`trackVMARange` clears the range, looks for the neighbours of the new mapping in the list of its
resource, and puts it in the map and in the list.
-/

namespace FastPPC.Vma

variable {e : VMAEntry} {l₁ l₂ m₁ m₂ : List NodeId}

open DList VMATracking

variable {s s' : VMATracking} {chain : ResId → List NodeId} {r : ResId} {base : ℕ}

namespace VMATracking

/-- A range in which nothing is mapped has room for a mapping. -/
theorem fits_of_view {length : ℕ} (hw : s.Wf) (hpos : 0 < length)
    (h : ∀ a, base ≤ a ∧ a < base + length → s.view a = none) : s.Fits base length := by
  intro j hj
  by_contra hne
  have hp := hw.pos j hj
  have := (view_eq_none_iff hw).1 (h (max base (s.node j).base) (by
    simp only [top] at hne; omega)) j hj
  simp only [VMAEntry.Covers, top] at this hne
  omega

theorem Wf.view_plus (hw : s.Wf) (hf : s.Fits e.base e.length) (hpos : 0 < e.length)
    (hb : e.base + e.length < word) (a : ℕ) :
    (s.plus e).view a = if e.Covers a then some (e.mappedAt a) else s.view a := by
  have hw' := hw.plus hf hpos hb
  split_ifs with hc
  · rw [hw'.view_eq (i := s.fresh) (mem_plus_vmas.2 (.inl rfl)) (by rwa [plus_node_fresh]),
      plus_node_fresh]
  · by_cases hex : ∃ j ∈ s.vmas, (s.node j).Covers a
    · obtain ⟨j, hj, hcj⟩ := hex
      rw [hw.view_eq hj hcj, hw'.view_eq (mem_plus_vmas.2 (.inr hj)) (by rwa [hw.plus_node hj]),
        hw.plus_node hj]
    · push Not at hex
      rw [view_eq_none hex, view_eq_none]
      intro j hj
      rcases mem_plus_vmas.1 hj with rfl | hj
      · rwa [plus_node_fresh]
      · rw [hw.plus_node hj]; exact hex j hj

/-- The mappings of `q` with keys below `k`, and the others. -/
def nodesBelow (s : VMATracking) (k : ℕ) (q : ResId) : List NodeId :=
  (s.vmas.takeWhile fun i => (s.node i).base < k).filter fun j => (s.node j).resource = some q

@[inherit_doc nodesBelow]
def nodesFrom (s : VMATracking) (k : ℕ) (q : ResId) : List NodeId :=
  (s.vmas.dropWhile fun i => (s.node i).base < k).filter fun j => (s.node j).resource = some q

theorem nodesOf_eq_append (k : ℕ) (q : ResId) :
    s.nodesOf q = s.nodesBelow k q ++ s.nodesFrom k q := by
  rw [nodesBelow, nodesFrom, ← List.filter_append, List.takeWhile_append_dropWhile]; rfl

/-- A new mapping stands between the mappings with smaller keys and the others. -/
theorem Wf.nodesOf_plus (hw : s.Wf) (q : ResId) : (s.plus e).nodesOf q =
      s.nodesBelow e.base q ++ (if e.resource = some q then [s.fresh] else []) ++
        s.nodesFrom e.base q := by
  let p : NodeId → Bool := fun j => ((s.plus e).node j).resource = some q
  have hold : ∀ l : List NodeId, (∀ j ∈ l, j ∈ s.vmas) →
      l.filter p = l.filter fun j => (s.node j).resource = some q := fun l hl =>
    List.filter_congr fun j hj => by simp only [p, hw.plus_node (hl j hj)]
  calc (s.plus e).nodesOf q = (insertByBase s.node e.base s.fresh s.vmas).filter p := rfl
    _ = _ := by
      rw [insertByBase_eq, List.filter_append, List.filter_cons,
        hold _ fun j hj => (List.takeWhile_sublist _).mem hj,
        hold _ fun j hj => (List.dropWhile_sublist _).mem hj]
      simp only [p, plus_node_fresh, decide_eq_true_eq, nodesBelow, nodesFrom]
      split_ifs <;> simp

/-- Where the keys of a list reach `k`, it is split in one way only. -/
theorem split_unique {k : ℕ} (h : l₁ ++ l₂ = m₁ ++ m₂) (hl₁ : ∀ j ∈ l₁, (s.node j).base < k)
    (hl₂ : ∀ j ∈ l₂.head?, k ≤ (s.node j).base) (hm₁ : ∀ j ∈ m₁, (s.node j).base < k)
    (hm₂ : ∀ j ∈ m₂.head?, k ≤ (s.node j).base) : l₁ = m₁ ∧ l₂ = m₂ := by
  have hcut : ∀ {n₁ n₂ : List NodeId}, (∀ j ∈ n₁, (s.node j).base < k) →
      (∀ j ∈ n₂.head?, k ≤ (s.node j).base) →
      ((n₁ ++ n₂).takeWhile fun j => (s.node j).base < k) = n₁ := by
    intro n₁ n₂ hn₁ hn₂
    rw [List.takeWhile_append_of_pos (by simpa using hn₁)]
    cases n₂ with
    | nil => simp
    | cons y m => have := hn₂ y (by simp); simp [this]
  have heq : l₁ = m₁ := by rw [← hcut hl₁ hl₂, h, hcut hm₁ hm₂]
  subst heq
  exact ⟨rfl, List.append_cancel_left h⟩

/-- A new mapping takes its place among the mappings of its resource. -/
theorem Wf.nodesOf_plus_some (hw : s.Wf) (he : e.resource = some r) (hc : s.nodesOf r = l₁ ++ l₂)
    (h₁ : ∀ j ∈ l₁, (s.node j).base < e.base) (h₂ : ∀ j ∈ l₂.head?, e.base ≤ (s.node j).base) :
    (s.plus e).nodesOf = Function.update s.nodesOf r (l₁ ++ s.fresh :: l₂) := by
  funext q
  rw [hw.nodesOf_plus, he]
  by_cases hq : q = r
  · subst hq
    obtain ⟨rfl, rfl⟩ := split_unique ((nodesOf_eq_append e.base q).symm.trans hc)
      (fun j hj => lt_of_mem_takeWhile (List.mem_of_mem_filter hj))
      (fun j hj => hw.le_of_mem_dropWhile (List.mem_of_mem_filter (List.mem_of_head? hj))) h₁ h₂
    simp
  · rw [Function.update_of_ne hq, nodesOf_eq_append e.base q]
    simp [Ne.symm hq]

end VMATracking

variable (base) in
/-- **The walk along the list** ends at a place where the new mapping can be linked. -/
theorem findNeighbours_spec {l : List NodeId} (hl : s.IsList r l) (hm : ∀ j ∈ l, j ∈ s.vmas)
    {fuel : ℕ} (l₁ l₂ : List NodeId) (hspl : l = l₁ ++ l₂) (hfl : l₂.length < fuel) :
    ∃ m₁ m₂, l = m₁ ++ m₂ ∧
      findNeighbours s base fuel l₁.getLast? l₂.head? = .ok (m₁.getLast?, m₂.head?) ∧
      ((∀ j ∈ l₁, (s.node j).base < base) → ∀ j ∈ m₁, (s.node j).base < base) ∧
      ∀ j ∈ m₂.head?, base ≤ (s.node j).base := by
  induction fuel generalizing l₁ l₂ with
  | zero => omega
  | succ fuel ih =>
    cases l₂ with
    | nil => exact ⟨l₁, [], hspl, rfl, id, by simp⟩
    | cons x l₂ =>
      have hx : x ∈ s.vmas := hm x (by simp [hspl])
      simp only [List.head?_cons, findNeighbours, deref_ok hx, bind, Except.bind]
      split_ifs with hlt
      · have hnx : (s.node x).resourceNextVMA = l₂.head? := by
          rw [hspl] at hl; exact hl.links.2
        obtain ⟨m₁, m₂, h₁, h₂, h₃, h₄⟩ := ih (l₁ ++ [x]) l₂ (by simp [hspl]) (by simpa using hfl)
        refine ⟨m₁, m₂, h₁, ?_, fun hlo => h₃ fun j hj => ?_, h₄⟩
        · rw [hnx]; simpa using h₂
        · rcases List.mem_append.1 hj with hj | hj
          · exact hlo j hj
          · rwa [List.mem_singleton.1 hj]
      · exact ⟨l₁, x :: l₂, hspl, rfl, id, by simpa using hlt⟩

theorem neighbours_spec (hl : s.Linked chain) (hr : r ∈ s.resources)
    (hkey : ∀ j ∈ s.vmas, (s.node j).base ≠ base) :
    ∃ m₁ m₂, chain r = m₁ ++ m₂ ∧ s.neighbours (some r) base = .ok (m₁.getLast?, m₂.head?) ∧
      (∀ j ∈ m₁, (s.node j).base < base) ∧ ∀ j ∈ m₂.head?, base ≤ (s.node j).base := by
  have hls := hl.list r hr
  have hm : ∀ j ∈ chain r, j ∈ s.vmas := fun j => hl.mem_vmas
  have hfl : (chain r).length < s.vmas.length + 1 :=
    Nat.lt_succ_of_le (hls.nodup.length_le_of_subset hm)
  have hfir : (s.res r).firstVMA = (chain r).head? := hls.first_eq
  simp only [neighbours, derefRes_ok hr, bind, Except.bind, hfir]
  cases hc : chain r with
  | nil => exact ⟨[], [], rfl, rfl, by simp, by simp⟩
  | cons f l =>
    have hf : f ∈ s.vmas := hm f (by simp [hc])
    rw [hc] at hls hm hfl
    simp only [List.head?_cons, deref_ok hf]
    split_ifs with hlt
    · obtain ⟨m₁, m₂, h₁, h₂, h₃, h₄⟩ := findNeighbours_spec base hls hm [] (f :: l) rfl hfl
      exact ⟨m₁, m₂, h₁, h₂, h₃ (by simp), h₄⟩
    · have hlt' : (s.node f).base < base := by have := hkey f hf; omega
      have hnx : (s.node f).resourceNextVMA = l.head? := by
        rw [← List.nil_append (f :: l)] at hls; exact hls.links.2
      obtain ⟨m₁, m₂, h₁, h₂, h₃, h₄⟩ := findNeighbours_spec base hls hm
        [f] l rfl (Nat.lt_of_succ_lt hfl)
      exact ⟨m₁, m₂, h₁, by rw [hnx]; exact h₂, h₃ (by simpa using hlt'), h₄⟩

/-- Linking a new mapping of `r` at the place the walk found. -/
theorem link_spec (base offset length : ℕ) (flags : VMAFlags) (prot : VMAProt) (hw : s.Wf)
    (hl : s.Linked chain) (hr : r ∈ s.resources) (hc : chain r = m₁ ++ m₂) :
    ∃ s', (match m₁.getLast? with
        | none => (s.plus ⟨some r, m₁.getLast?, m₂.head?, base, offset, length, flags,
            prot⟩).listPrepend r s.fresh
        | some p => (s.plus ⟨some r, m₁.getLast?, m₂.head?, base, offset, length, flags,
            prot⟩).listInsertAfter p s.fresh) = .ok s' ∧
      (s.plus ⟨some r, m₁.getLast?, m₂.head?, base, offset, length, flags, prot⟩).SameData s' ∧
      s'.Linked (Function.update chain r (m₁ ++ s.fresh :: m₂)) := by
  have hnew : s.fresh ∉ m₁ ++ m₂ := fun h => hw.ne_fresh (hl.mem_vmas (hc ▸ h)) rfl
  have hm : ∀ e, ∀ j ∈ m₁ ++ m₂, j ∈ (s.plus e).vmas := fun e j hj =>
    mem_plus_vmas.2 (.inr (hl.mem_vmas (hc ▸ hj)))
  have hfm : ∀ e, s.fresh ∈ (s.plus e).vmas := fun e => mem_plus_vmas.2 (.inl rfl)
  have hli := fun e => hl.plus_isList hw e hr
  simp only [hc] at hli
  rcases List.eq_nil_or_concat m₁ with rfl | ⟨l, p, rfl⟩
  · obtain ⟨s', hok, hrel, hl'⟩ := listPrepend_spec
      (hli ⟨some r, none, m₂.head?, base, offset, length, flags, prot⟩) hnew (hm _) (hfm _) hr
      (by rw [plus_node_fresh]) (by simp [prev])
      (by simp only [next, plus_node_fresh]; exact (hli _).first_eq.symm)
    exact ⟨s', hok, hrel.toSameData, hl.plus_some hw rfl hr (hc ▸ hrel) hl' fun j => by simp [hc]⟩
  · have hls : (l.concat p).getLast? = some p := by simp
    have hcn : l.concat p ++ m₂ = l ++ p :: m₂ := by simp
    rw [hls]
    rw [hcn] at hc hnew
    simp only [hcn] at hm hli
    have hp : p ∈ s.vmas ∧ (s.node p).resource = some r := (hl.mem r p).1 (by simp [hc])
    obtain ⟨s', hok, hrel, hl'⟩ := listInsertAfter_spec
      (hli ⟨some r, some p, m₂.head?, base, offset, length, flags, prot⟩) hnew (hm _) (hfm _)
      (by rw [hw.plus_node hp.1]; exact hp.2) (by rw [plus_node_fresh]) (by simp [prev])
      (by rw [(hli _).links.2]; simp [next])
    refine ⟨s', hok, hrel.toSameData, ?_⟩
    exact hl.plus_some hw rfl hr (hc ▸ hrel) (by simpa using hl') fun j => by simp [hc]; tauto

/-- **`trackVMARange` maps the range.** -/
theorem trackVMARange_spec {r : Option ResId} {length : ℕ} (offset : ℕ) (flags : VMAFlags)
    (prot : VMAProt) (hw : s.Wf) (hl : s.Linked chain) (hr : ∀ q, r = some q → q ∈ s.resources)
    (hpos : 0 < length) (hb : base + length < word) :
    ∃ s' chain', s.trackVMARange r base offset length flags prot = .ok s' ∧
      Keeps r s s' chain chain' ∧ (chain = s.nodesOf → chain' = s'.nodesOf) ∧
      s'.view = s.view.track base length r offset flags prot := by
  obtain ⟨s₁, chain₁, hdel, hev, hvw⟩ := deleteVMARange_spec r hw hl hb
  have hfit : s₁.Fits base length := by
    refine fits_of_view hev.wf hpos fun a ha => ?_
    rw [hvw]; exact if_pos ha
  have hkey := hfit.ne_base hev.wf hpos
  -- the map after a mapping was put in the range
  have hmap : ∀ (e : VMAEntry) s', e.unlinked = ⟨r, none, none, base, offset, length, flags, prot⟩ →
      (s₁.plus e).SameData s' → s'.Wf ∧
      s'.view = s.view.track base length r offset flags prot := by
    intro e s' he hsm
    obtain ⟨e₁, e₂, e₃, e₄, e₅, e₆⟩ := unlinked_eq he
    have hfit' : s₁.Fits e.base e.length := by rwa [e₂, e₄]
    refine ⟨hsm.wf (hev.wf.plus hfit' (by rwa [e₄]) (by rwa [e₂, e₄])), ?_⟩
    rw [hsm.view]
    funext a
    rw [hev.wf.view_plus hfit' (by rwa [e₄]) (by rwa [e₂, e₄]), hvw]
    simp only [VMAEntry.Covers, VMAEntry.mappedAt, AddressMap.track, AddressMap.delete, e₁, e₂, e₃,
      e₄, e₅, e₆]
    split_ifs <;> rfl
  simp only [trackVMARange, hdel, bind, Except.bind]
  cases r with
  | none =>
    let e : VMAEntry := ⟨none, none, none, base, offset, length, flags, prot⟩
    have hem : s₁.emplace e = (s₁.plus e, s₁.fresh, true) := emplace_eq hkey
    obtain ⟨hwf, hv⟩ := hmap e _ rfl (SameData.refl _)
    refine ⟨s₁.plus e, chain₁, ?_, ⟨hwf, hev.linked.plus_none hev.wf rfl, hev.freshRes, hev.mrid,
      hev.length, hev.resources⟩, fun h => ?_, hv⟩
    · simp only [e] at hem
      simp only [neighbours, pure, Except.pure, hem, check_ok]
      rfl
    · rw [hev.ordered h]
      funext q
      rw [hev.wf.nodesOf_plus, nodesOf_eq_append e.base q]
      simp [e]
  | some r =>
    have hrr : r ∈ s₁.resources := (hev.resources r).2 ⟨hr r rfl, .inl rfl⟩
    obtain ⟨m₁, m₂, hc, hnb, hlo, hhi⟩ := neighbours_spec hev.linked hrr hkey
    obtain ⟨s', hok, hsm, hl'⟩ := link_spec base offset length flags prot hev.wf hev.linked hrr hc
    set e : VMAEntry := ⟨some r, m₁.getLast?, m₂.head?, base, offset, length, flags, prot⟩
    have hem : s₁.emplace e = (s₁.plus e, s₁.fresh, true) := emplace_eq hkey
    obtain ⟨hwf, hv⟩ := hmap e _ rfl hsm
    refine ⟨s', _, ?_, ⟨hwf, hl', hsm.freshRes.trans hev.freshRes, fun q => ?_, fun q => ?_,
      fun q => ?_⟩, fun h => ?_, hv⟩
    · simp only [hnb]
      rw [show s₁.emplace _ = _ from hem]
      cases hg : m₁.getLast? <;> simpa [hg, check] using hok
    · rw [hsm.mrid]; exact hev.mrid q
    · rw [hsm.length]; exact hev.length q
    · rw [hsm.resources]
      refine (hev.resources q).trans (and_congr_right fun _ => ?_)
      by_cases hq : q = r
      · simp [hq]
      · rw [Function.update_of_ne hq]
    · have hc' := hev.ordered h
      rw [hsm.nodesOf, hev.wf.nodesOf_plus_some rfl (by rw [← hc', hc]) hlo hhi, hc']

end FastPPC.Vma
