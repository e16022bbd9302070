import FastPPC.Vma.Protect
import FastPPC.Machine.Basic

/-!
# Runs of the VMA tracker

The tracker is a machine whose actions are the calls of the emulator.  `Called` is what the
callers promise: a mapping is not empty, ranges end below the end of the address space, and a
resource that is mapped exists.

* `tracker_refines` : the mappings are disjoint in every state of every run, no call fails, and
  the map the tracker stands for is the one the calls describe, as long as no protection change
  ends inside a mapping that starts inside its range.
* `resource_lists` : in every state of every run the list of a resource holds exactly its
  mappings, once each and with consistent links, and a resource goes with its last mapping; the
  lists are in address order as long as no protection change lies strictly inside a mapping of a
  resource.

The two exceptions are real: `tail_offset_diverges` and `tail_order_diverges`.
-/

namespace FastPPC.Vma

variable {C : VMATracking → Op → Prop}

open DList VMATracking List

def tracker : Machine VMATracking Op := Machine.ofExcept VMATracking.step

def Mapped.All (s : VMATracking) (base length : ℕ) : Prop :=
  ∀ a, base ≤ a ∧ a < base + length → ∃ j ∈ s.vmas, (s.node j).Covers a

/-- What the callers promise. -/
def Called (s : VMATracking) : Op → Prop
  | .insertResource _ _ => True
  | .track r base _ length _ _ =>
    0 < length ∧ base + length < word ∧ ∀ q, r = some q → q ∈ s.resources
  | .delete base length _ => base + length < word
  | .protect base length _ => base + length < word
  | .deleteSHM _ => True

def Op.preserved : Op → Option ResId
  | .track r _ _ _ _ _ => r
  | .delete _ _ p => p
  | _ => none

/-- The call changes the protection of a range that is not wholly mapped. -/
def Unmapped (s : VMATracking) : Op → Prop
  | .protect base length _ => ¬Mapped.All s base length
  | _ => False

/-- A protection change ends inside a mapping that starts inside its range. -/
def CutsTail (s : VMATracking) : Op → Prop
  | .protect base length _ => Straddles s base (base + length)
  | _ => False

/-- A protection change lies strictly inside a mapping of a resource. -/
def CutsMiddle (s : VMATracking) : Op → Prop
  | .protect base length _ => Encloses s base (base + length)
  | _ => False

/-- What a call does to a state with the lists `chain`. -/
structure Stepped (s s' : VMATracking) (chain chain' : ResId → List NodeId) (op : Op) : Prop where
  wf : s'.Wf
  linked : s'.Linked chain'
  resources : ∀ r ∈ s.resources, r ∈ s'.resources ↔
    some r = op.preserved ∨ chain r = [] ∨ chain' r ≠ []
  ordered : ¬CutsMiddle s op → chain = s.nodesOf → chain' = s'.nodesOf
  view : (∀ base, op ≠ .deleteSHM base) → ¬Unmapped s op → ¬CutsTail s op →
    s'.view = s.view.apply op

variable {s s' : VMATracking} {chain : ResId → List NodeId} {op : Op} {ops : List Op}

/-- A new resource has no mappings. -/
theorem insertMappedResource_spec (hw : s.Wf) (hl : s.Linked chain) (mrid : MRID) (length : ℕ) :
    (s.insertMappedResource mrid length).Wf ∧
      (s.insertMappedResource mrid length).Linked chain := by
  have hnew : s.freshRes ∉ s.resources := fun h => Nat.lt_irrefl _ (hw.resFresh _ h)
  refine ⟨⟨hw.nodup, hw.fresh, hw.sorted, hw.pos, hw.bound,
    nodup_cons.2 ⟨hnew, hw.resNodup⟩, fun r hr => ?_⟩, fun r hr => ?_, hl.mem,
    fun i hi r h => mem_cons_of_mem _ (hl.res i hi r h)⟩
  · rcases mem_cons.1 hr with rfl | hr
    · exact Nat.lt_succ_self _
    · exact Nat.lt_succ_of_lt (hw.resFresh r hr)
  · rcases mem_cons.1 hr with rfl | hr
    · rw [hl.chain_eq_nil hnew]
      exact ⟨nodup_nil, by simp [insertMappedResource], trivial⟩
    · have hne : r ≠ s.freshRes := fun h => hnew (h ▸ hr)
      exact (hl.list r hr).frame (fun _ _ => rfl)
        (by simp [insertMappedResource, Function.update_of_ne hne])

/-- **One call.**  It fails only if it changes the protection of a range that is not wholly
mapped. -/
theorem step_spec (hw : s.Wf) (hl : s.Linked chain) (hc : Called s op) :
    ((∃ f, s.step op = .error f) ∧ Unmapped s op) ∨
      ∃ s' chain', s.step op = .ok s' ∧ Stepped s s' chain chain' op := by
  have hkp : ∀ {p : Option ResId} {s' chain'}, Keeps p s s' chain chain' → ∀ r ∈ s.resources,
      (r ∈ s'.resources ↔ some r = p ∨ chain r = [] ∨ chain' r ≠ []) := fun h r hr =>
    (h.resources r).trans (and_iff_right hr)
  cases op with
  | insertResource mrid length =>
    obtain ⟨hw', hl'⟩ := insertMappedResource_spec hw hl mrid length
    refine .inr ⟨_, chain, rfl, hw', hl', fun r hr => ?_, fun _ => id, fun _ _ _ => rfl⟩
    tauto
  | track r base offset length flags prot =>
    obtain ⟨s', chain', hok, hk, hord, hvw⟩ :=
      trackVMARange_spec offset flags prot hw hl hc.2.2 hc.1 hc.2.1
    exact .inr ⟨s', chain', hok, hk.wf, hk.linked, hkp hk, fun _ => hord, fun _ _ _ => hvw⟩
  | delete base length preserved =>
    obtain ⟨s', chain', hok, hev, hvw⟩ := deleteVMARange_spec preserved hw hl hc
    exact .inr ⟨s', chain', hok, hev.wf, hev.linked, hkp hev.toKeeps, fun _ => hev.ordered,
      fun _ _ _ => hvw⟩
  | protect base length prot =>
    rcases changeProtectionFlags_spec prot hw hl hc with h | ⟨s', chain', hok, hs, ho, hv⟩
    · exact .inl h
    · exact .inr ⟨s', chain', hok, hs.wf, hs.linked, hkp hs.toKeeps, ho,
        fun _ hm ht => hv (Classical.not_not.1 hm) ht⟩
  | deleteSHM base =>
    obtain ⟨s', n, chain', hok, hev⟩ := deleteSHMRegion_spec base hw hl
    refine .inr ⟨s', chain', ?_, hev.wf, hev.linked, hkp hev.toKeeps, fun _ => hev.ordered,
      fun h => absurd rfl (h base)⟩
    simp only [step, hok]; rfl

theorem empty_wf : empty.Wf := by
  constructor <;> simp [empty]

theorem empty_linked : empty.Linked fun _ => [] := by
  constructor <;> simp [empty]

theorem stepped_of_ok (hw : s.Wf) (hl : s.Linked chain) (hc : Called s op)
    (hst : s.step op = .ok s') : ∃ chain', Stepped s s' chain chain' op := by
  rcases step_spec hw hl hc with ⟨⟨f, hf⟩, -⟩ | ⟨s'', chain', hok, hs⟩
  · exact absurd (hf.symm.trans hst) (by simp)
  · obtain rfl : s'' = s' := Except.ok.inj (hok.symm.trans hst)
    exact ⟨chain', hs⟩

theorem run_inv (hC : ∀ s op, C s op → Called s op) (h : tracker.Run C .empty ops s) :
    s.Wf ∧ ∃ chain, s.Linked chain := by
  refine h.invariant (I := fun s => s.Wf ∧ ∃ chain, s.Linked chain) ⟨empty_wf, _, empty_linked⟩ ?_
  rintro s op s' ⟨hw, chain, hl⟩ hc hst
  obtain ⟨chain', hs⟩ := stepped_of_ok hw hl (hC s op hc) hst
  exact ⟨hs.wf, chain', hs.linked⟩

theorem run_call (op : Op) (h : tracker.Run C .empty ops s) (hc : C s op)
    (hok : s.step op = .ok s') :
    tracker.Run C .empty (ops ++ [op]) s' :=
  .snoc h hc hok

/-- A range that two adjoining mappings contain is wholly mapped. -/
theorem mappedAll_of_adjoining {i j base length : ℕ} (hi : i ∈ s.vmas) (hj : j ∈ s.vmas)
    (h₁ : (s.node i).base ≤ base) (h₂ : (s.node j).base ≤ s.top i)
    (h₃ : base + length ≤ s.top j) : Mapped.All s base length := by
  intro a ha
  by_cases h : a < s.top i
  · exact ⟨i, hi, by omega, h⟩
  · exact ⟨j, hj, by omega, by simp only [top] at h₃; omega⟩

/-- The calls the refinement is about: every protection change is on a wholly mapped range. -/
def MapCall (s : VMATracking) (op : Op) : Prop :=
  Called s op ∧ (∀ base, op ≠ .deleteSHM base) ∧ ¬Unmapped s op

/-- **The tracker refines the address map.**  In every run the mappings are disjoint and no call
fails; if no protection change ends inside a mapping that starts inside its range, the tracker
says about every address what the calls say. -/
theorem tracker_refines (h : tracker.Run MapCall .empty ops s) :
    (∀ i ∈ s.vmas, ∀ j ∈ s.vmas, i ≠ j → ∀ a, ¬((s.node i).Covers a ∧ (s.node j).Covers a)) ∧
      (∀ op, MapCall s op → ∃ s', s.step op = .ok s') ∧
      (tracker.Run (fun s op => MapCall s op ∧ ¬CutsTail s op) .empty ops s →
        s.view = ops.foldl AddressMap.apply fun _ => none) := by
  obtain ⟨hw, chain, hl⟩ := run_inv (fun _ _ hc => hc.1) h
  refine ⟨fun i hi j hj hne a hc => hne (hw.eq_of_covers hi hj hc.1 hc.2), fun op hc => ?_,
    fun h' => ?_⟩
  · rcases step_spec hw hl hc.1 with ⟨-, hun⟩ | ⟨s', -, hok, -⟩
    · exact absurd hun hc.2.2
    · exact ⟨s', hok⟩
  · refine (h'.simulation (R := fun s m => (s.Wf ∧ ∃ chain, s.Linked chain) ∧ s.view = m)
      AddressMap.apply (t := fun _ => none) ⟨⟨empty_wf, _, empty_linked⟩, rfl⟩ ?_).2
    rintro s op s' m ⟨⟨hw, chain, hl⟩, rfl⟩ ⟨hc, hcut⟩ hst
    obtain ⟨chain', hs⟩ := stepped_of_ok hw hl hc.1 hst
    exact ⟨⟨hs.wf, chain', hs.linked⟩, hs.view hc.2.1 hc.2.2 hcut⟩

/-- A mapping of a file is split by a protection change of its second half. -/
theorem tracker_refines_split : ∃ s, tracker.Run (fun s op => MapCall s op ∧ ¬CutsTail s op) .empty
      [.insertResource ⟨1, 1⟩ 0, .track (some 0) 0x1000 0 0x2000 ⟨false⟩ ⟨true, false, false⟩,
        .protect 0x2000 0x1000 ⟨true, true, false⟩] s ∧
    s.view 0x2000 = some ⟨some 0, ⟨false⟩, ⟨true, true, false⟩, 0x1000⟩ := by
  have h₀ : tracker.Run (fun s op => MapCall s op ∧ ¬CutsTail s op) .empty [] .empty := .nil _
  have h₁ := run_call (.insertResource ⟨1, 1⟩ 0) h₀ ⟨⟨trivial, by simp, id⟩, id⟩ rfl
  have h₂ := run_call (.track (some 0) 0x1000 0 0x2000 ⟨false⟩ ⟨true, false, false⟩) h₁
    ⟨⟨⟨by decide, by decide, by decide⟩, by simp, id⟩, id⟩ rfl
  have h₃ := run_call (.protect 0x2000 0x1000 ⟨true, true, false⟩) h₂
    ⟨⟨show 0x2000 + 0x1000 < word by decide, by simp, not_not_intro <|
      mappedAll_of_adjoining (i := 0) (j := 0) (by decide) (by decide) (by decide) (by decide)
        (by decide)⟩, show ¬Straddles _ 0x2000 0x3000 by decide⟩ rfl
  refine ⟨_, h₃, ?_⟩
  rw [(tracker_refines (h₃.mono fun _ _ h => h.1)).2.2 h₃]
  decide

/-- Two neighbouring mappings of one file, and a protection change that covers the first and half
of the second. -/
def cutTailCalls : List Op :=
  [.insertResource ⟨1, 1⟩ 0, .track (some 0) 0x1000 0 0x1000 ⟨false⟩ ⟨true, false, false⟩,
    .track (some 0) 0x2000 0x1000 0x2000 ⟨false⟩ ⟨true, false, false⟩,
    .protect 0x1000 0x2000 ⟨true, true, false⟩]

/-- After these calls the address 0x3000 is at offset 0x1000 of the file in the tracker, and at
offset 0x2000 according to the calls. -/
theorem tail_offset_diverges : ∃ s, tracker.Run MapCall .empty cutTailCalls s ∧
    s.view 0x3000 = some ⟨some 0, ⟨false⟩, ⟨true, false, false⟩, 0x1000⟩ ∧
    (cutTailCalls.foldl AddressMap.apply fun _ => none) 0x3000 =
      some ⟨some 0, ⟨false⟩, ⟨true, false, false⟩, 0x2000⟩ := by
  have h₀ : tracker.Run MapCall .empty [] .empty := .nil _
  have h₁ := run_call (.insertResource ⟨1, 1⟩ 0) h₀ ⟨trivial, by simp, id⟩ rfl
  have h₂ := run_call (.track (some 0) 0x1000 0 0x1000 ⟨false⟩ ⟨true, false, false⟩) h₁
    ⟨⟨by decide, by decide, by decide⟩, by simp, id⟩ rfl
  have h₃ := run_call (.track (some 0) 0x2000 0x1000 0x2000 ⟨false⟩ ⟨true, false, false⟩) h₂
    ⟨⟨by decide, by decide, by decide⟩, by simp, id⟩ rfl
  have h₄ := run_call (.protect 0x1000 0x2000 ⟨true, true, false⟩) h₃
    ⟨show 0x1000 + 0x2000 < word by decide, by simp, not_not_intro <|
      mappedAll_of_adjoining (i := 0) (j := 1) (by decide) (by decide) (by decide) (by decide)
        (by decide)⟩ rfl
  exact ⟨_, h₄, by decide, by decide⟩

/-! ### The lists of the resources -/

/-- The list of `r` holds exactly the mappings of `r`, once each. -/
def ListsMappings (s : VMATracking) (r : ResId) (l : List NodeId) : Prop :=
  s.IsList r l ∧ ∀ i, i ∈ l ↔ i ∈ s.vmas ∧ (s.node i).resource = some r

def Ascending (s : VMATracking) (l : List NodeId) : Prop :=
  l.Pairwise fun i j => (s.node i).base < (s.node j).base

theorem VMATracking.Wf.nodesOf_ascending (hw : s.Wf) (r : ResId) : Ascending s (s.nodesOf r) := by
  refine (hw.sorted.sublist filter_sublist).imp_of_mem fun {i j} hi _ h => ?_
  have := hw.pos i (mem_of_mem_filter hi)
  simp only [top] at h
  omega

/-- In an ascending list every link leads to a higher address. -/
theorem Ascending.next_lt {r : ResId} {l : List NodeId} {i j : NodeId} (ha : Ascending s l)
    (h : s.IsList r l) (hi : i ∈ l) (hn : s.next i = some j) :
    j ∈ l ∧ (s.node i).base < (s.node j).base := by
  obtain ⟨l₁, l₂, rfl⟩ := append_of_mem hi
  have hj := (h.succ hn).1
  rw [Ascending, pairwise_append, pairwise_cons] at ha
  exact ⟨by simp [hj], ha.2.1.1 j hj⟩

theorem VMATracking.Linked.nil_iff (hl : s.Linked chain) (r : ResId) :
    chain r = [] ↔ s.nodesOf r = [] := by
  have : ∀ i, i ∈ chain r ↔ i ∈ s.nodesOf r := fun i => by
    rw [hl.mem, nodesOf, mem_filter, decide_eq_true_eq]
  simp only [eq_nil_iff_forall_not_mem, this]

/-- **The lists of the resources.**  In every run every resource lists exactly its mappings and
goes exactly with the last of them, unless it is preserved, and no call but a protection change of
a range that is not wholly mapped fails.  If no protection change lies strictly inside a mapping of
a resource, the lists are in ascending address order. -/
theorem resource_lists (h : tracker.Run Called .empty ops s) :
    (∀ r ∈ s.resources, ∃ l, ListsMappings s r l) ∧
      (∀ i ∈ s.vmas, ∀ r, (s.node i).resource = some r → r ∈ s.resources) ∧
      (∀ op, Called s op → ¬Unmapped s op → ∃ s', s.step op = .ok s') ∧
      (∀ op s', Called s op → s.step op = .ok s' → ∀ r ∈ s.resources,
        (r ∉ s'.resources ↔ some r ≠ op.preserved ∧ s.nodesOf r ≠ [] ∧ s'.nodesOf r = [])) ∧
      (tracker.Run (fun s op => Called s op ∧ ¬CutsMiddle s op) .empty ops s →
        ∀ r ∈ s.resources, ∃ l, ListsMappings s r l ∧ Ascending s l) := by
  obtain ⟨hw, chain, hl⟩ := run_inv (fun _ _ hc => hc) h
  refine ⟨fun r hr => ⟨chain r, hl.list r hr, hl.mem r⟩, hl.res, fun op hc hm => ?_,
    fun op s' hc hok r hr => ?_, fun h' r hr => ?_⟩
  · rcases step_spec hw hl hc with ⟨-, hun⟩ | ⟨s', -, hok, -⟩
    · exact absurd hun hm
    · exact ⟨s', hok⟩
  · obtain ⟨chain', hs⟩ := stepped_of_ok hw hl hc hok
    rw [hs.resources r hr, hl.nil_iff, ne_eq, hs.linked.nil_iff]
    tauto
  · -- the lists start in order and every step keeps them so
    have hord : s.Wf ∧ s.Linked s.nodesOf := by
      refine h'.invariant (I := fun s => s.Wf ∧ s.Linked s.nodesOf) ⟨empty_wf, empty_linked⟩ ?_
      rintro s op s' ⟨hw, hl⟩ ⟨hc, hcut⟩ hst
      obtain ⟨chain', hs⟩ := stepped_of_ok hw hl hc hst
      exact ⟨hs.wf, hs.ordered hcut rfl ▸ hs.linked⟩
    exact ⟨s.nodesOf r, ⟨hord.2.list r hr, hord.2.mem r⟩, hord.1.nodesOf_ascending r⟩

/-- A mapping split by a protection change of its second half: the list is in order. -/
theorem resource_lists_split : ∃ s,
    tracker.Run (fun s op => Called s op ∧ ¬CutsMiddle s op) .empty
      [.insertResource ⟨1, 1⟩ 0, .track (some 0) 0x1000 0 0x2000 ⟨false⟩ ⟨true, false, false⟩,
        .protect 0x2000 0x1000 ⟨true, true, false⟩] s ∧
    ∃ l, ListsMappings s 0 l ∧ Ascending s l := by
  have h₀ : tracker.Run (fun s op => Called s op ∧ ¬CutsMiddle s op) .empty [] .empty := .nil _
  have h₁ := run_call (.insertResource ⟨1, 1⟩ 0) h₀ ⟨trivial, id⟩ rfl
  have h₂ := run_call (.track (some 0) 0x1000 0 0x2000 ⟨false⟩ ⟨true, false, false⟩) h₁
    ⟨⟨by decide, by decide, by decide⟩, id⟩ rfl
  have h₃ := run_call (.protect 0x2000 0x1000 ⟨true, true, false⟩) h₂
    ⟨show 0x2000 + 0x1000 < word by decide, show ¬Encloses _ 0x2000 0x3000 by decide⟩ rfl
  exact ⟨_, h₃, (resource_lists (h₃.mono fun _ _ h => h.1)).2.2.2.2 h₃ 0 (by decide)⟩

/-- A protection change strictly inside a mapping of a file: the part behind the range comes before
the part inside it. -/
theorem tail_order_diverges : ∃ s,
    tracker.Run Called .empty
      [.insertResource ⟨1, 1⟩ 0, .track (some 0) 0x1000 0 0x3000 ⟨false⟩ ⟨true, false, false⟩,
        .protect 0x2000 0x1000 ⟨true, true, false⟩] s ∧
    0 ∈ s.resources ∧ ¬∃ l, ListsMappings s 0 l ∧ Ascending s l := by
  have h₀ : tracker.Run Called .empty [] .empty := .nil _
  have h₁ := run_call (.insertResource ⟨1, 1⟩ 0) h₀ trivial rfl
  have h₂ := run_call (.track (some 0) 0x1000 0 0x3000 ⟨false⟩ ⟨true, false, false⟩) h₁
    ⟨by decide, by decide, by decide⟩ rfl
  have h₃ := run_call (.protect 0x2000 0x1000 ⟨true, true, false⟩) h₂
    (show 0x2000 + 0x1000 < word by decide) rfl
  refine ⟨_, h₃, by decide, ?_⟩
  rintro ⟨l, ⟨hl, hmem⟩, ha⟩
  -- the mapping links to the part behind the range, and that to the part inside it
  have h2 : 2 ∈ l := (ha.next_lt hl ((hmem 0).2 (by decide)) (by decide)).1
  have h12 := (ha.next_lt hl h2 (j := 1) (by decide)).2
  revert h12
  decide

end FastPPC.Vma
