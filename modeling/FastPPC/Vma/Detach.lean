import FastPPC.Vma.Runs

/-!
# Detaching shared memory

`shmdt(base)` detaches one attachment of a segment: the mappings of the segment that are where the
attachment at `base` put them, however it was split or partly replaced since.  `DeleteSHMRegion`
looks for the first mapping of a segment that is at its place, and then removes *every* mapping of
that segment up to the end of the attachment.

* `removeSHM_removes` : what the second loop removes;
* `detaches_iff` : **the call removes exactly the attachment, and returns the size of the segment,
  exactly if between the first mapping that matches and the end of the attachment all mappings of
  the segment are at their place.**

A remnant of another attachment of the same segment in between goes too (`detach_takes_other`).
-/

namespace FastPPC.Vma

open List

variable {is : List NodeId} {r : ResId} {j i : NodeId}

open VMATracking

namespace VMATracking

variable (s : VMATracking) (base : ℕ)

/-- The mapping is where an attachment of a shared memory segment at `base` put it. -/
def Matches (j : NodeId) : Prop :=
  ∃ r, (s.node j).resource = some r ∧ (s.res r).mrid.dev = specialDevSHM ∧
    base ≤ (s.node j).base ∧ (s.node j).base - base = (s.node j).offset

/-- The first mapping that matches, and its segment. -/
structure First (i : NodeId) (r : ResId) : Prop where
  mem : i ∈ s.vmas
  found : s.Matches base i
  resource : (s.node i).resource = some r
  first : ∀ j ∈ s.vmas, s.Matches base j → (s.node i).base ≤ (s.node j).base

/-- The mapping belongs to the attachment of the segment `r` at `base`. -/
structure Belongs (r : ResId) (j : NodeId) : Prop where
  resource : (s.node j).resource = some r
  le : base ≤ (s.node j).base
  offset : (s.node j).base - base = (s.node j).offset
  within : s.top j ≤ base + (s.res r).length

/-- The call removes the attachment at `base` and nothing else, and returns the size of its
segment; if there is none it returns 0. -/
def Detaches : Prop :=
  ∃ s' n, s.deleteSHMRegion base = .ok (s', n) ∧
    (∀ j ∈ s'.vmas, j ∈ s.vmas ∧ (s'.node j).unlinked = (s.node j).unlinked) ∧
    (((∀ j ∈ s.vmas, ¬s.Matches base j) ∧ n = 0 ∧ ∀ j ∈ s.vmas, j ∈ s'.vmas) ∨
      ∃ i r, s.First base i r ∧ n = (s.res r).length ∧
        ∀ j ∈ s.vmas, j ∉ s'.vmas ↔ s.Belongs base r j)

/-- The first mapping that matches ends in the segment, and from there on every mapping of the
segment up to the end of the attachment is at its place. -/
def InPlace : Prop :=
  ∀ i r, s.First base i r → s.top i ≤ base + (s.res r).length ∧
    ∀ j ∈ s.vmas, (s.node j).resource = some r → (s.node i).base ≤ (s.node j).base →
      s.top j ≤ base + (s.res r).length → (s.node j).base - base = (s.node j).offset

variable {s base} {chain : ResId → List NodeId}

/-! ### The search -/

/-- The search stops at the first mapping that matches. -/
theorem findSHM_spec (hw : s.Wf) (hl : s.Linked chain)
    (his : ∀ j ∈ is, j ∈ s.vmas ∧ base ≤ (s.node j).base) :
    (findSHM s base is = .ok none ∧ ∀ j ∈ is, ¬s.Matches base j) ∨
      ∃ i r l₁ l₂, findSHM s base is = .ok (some (i, r)) ∧ is = l₁ ++ i :: l₂ ∧
        (∀ j ∈ l₁, ¬s.Matches base j) ∧ s.Matches base i ∧ (s.node i).resource = some r := by
  induction is with
  | nil => exact .inl ⟨rfl, fun _ h => absurd h not_mem_nil⟩
  | cons i is ih =>
    obtain ⟨hi, hb⟩ := his i mem_cons_self
    have hsub : wsub (s.node i).base base = (s.node i).base - base := by
      have hbou := hw.bound i hi
      unfold top at hbou
      exact wsub_eq (by omega) hb
    have hps : ¬s.Matches base i → findSHM s base (i :: is) = findSHM s base is := by
      intro hno
      simp only [findSHM, deref_ok hi, bind, Except.bind, check_ok hb, hsub]
      cases hr : (s.node i).resource with
      | none => rfl
      | some r =>
        simp only [derefRes_ok (hl.res i hi r hr)]
        rw [if_neg fun h => hno ⟨r, hr, h.2, hb, h.1⟩]
    by_cases hmat : s.Matches base i
    · obtain ⟨r, hr, hdev, -, hoff⟩ := hmat
      refine .inr ⟨i, r, [], is, ?_, rfl, fun _ h => absurd h not_mem_nil,
        ⟨r, hr, hdev, hb, hoff⟩, hr⟩
      simp only [findSHM, deref_ok hi, bind, Except.bind, check_ok hb, hsub, hr,
        derefRes_ok (hl.res i hi r hr)]
      rw [if_pos ⟨hoff, hdev⟩]
      rfl
    · rw [hps hmat]
      rcases ih fun j hj => his j (mem_cons_of_mem _ hj) with
        ⟨hok, hnn⟩ | ⟨i', r, l₁, l₂, hok, rfl, hpre, hm, hr⟩
      · exact .inl ⟨hok, forall_mem_cons.2 ⟨hmat, hnn⟩⟩
      · exact .inr ⟨i', r, i :: l₁, l₂, hok, rfl, forall_mem_cons.2 ⟨hmat, hpre⟩, hm, hr⟩

/-! ### The removal -/

/-- The nodes that the loop removes. -/
def doomed (s : VMATracking) (base shmLength : ℕ) (r : ResId) : Bool → List NodeId → List NodeId
  | _, [] => []
  | started, i :: is =>
    if started ∧ shmLength < wsub (wadd (s.node i).base (s.node i).length) base then []
    else if (s.node i).resource = some r then i :: doomed s base shmLength r true is
    else doomed s base shmLength r true is

theorem doomed_congr {s' : VMATracking} {shmLength : ℕ} {started : Bool}
    (h : ∀ j ∈ is, (s'.node j).unlinked = (s.node j).unlinked) :
    doomed s' base shmLength r started is = doomed s base shmLength r started is := by
  induction is generalizing started with
  | nil => rfl
  | cons i is ih =>
    obtain ⟨hres, hbs, -, hlen, -⟩ := unlinked_inj (h i mem_cons_self)
    rw [doomed, doomed, hres, hbs, hlen, ih fun j hj => h j (mem_cons_of_mem _ hj)]

/-- **The loop removes the nodes it meets of the resource, and nothing else.** -/
theorem removeSHM_removes (base shmLength : ℕ) (r : ResId) (started : Bool) (hw : s.Wf)
    (hl : s.Linked chain) (hd : is.Nodup) (his : ∀ j ∈ is, j ∈ s.vmas) :
    ∃ s', removeSHM base shmLength r started is s = .ok s' ∧
      (∀ j, j ∈ s'.vmas ↔ j ∈ s.vmas ∧ j ∉ doomed s base shmLength r started is) ∧
      ∀ j ∈ s'.vmas, (s'.node j).unlinked = (s.node j).unlinked := by
  induction is generalizing s chain started with
  | nil => exact ⟨s, rfl, fun j => by simp [doomed], fun _ _ => rfl⟩
  | cons i is ih =>
    have hi := his i mem_cons_self
    have his' : ∀ j ∈ is, j ∈ s.vmas := fun j hj => his j (mem_cons_of_mem _ hj)
    obtain ⟨hni, hd⟩ := nodup_cons.1 hd
    simp only [removeSHM, deref_ok hi, bind, Except.bind, doomed]
    split_ifs with hst hres
    · exact ⟨s, rfl, fun j => by simp, fun _ _ => rfl⟩
    · obtain ⟨s₁, hok, hed, hev⟩ := deleteMapping_spec none hw hl hi
      have hmem : ∀ j, j ∈ s₁.vmas ↔ j ∈ s.vmas ∧ j ≠ i := fun j => by
        rw [hed.mem hi]
        simp
      obtain ⟨s', hok', hmem', hfra'⟩ := ih true hev.wf hev.linked hd fun j hj =>
        (hmem j).2 ⟨his' j hj, fun e => hni (e ▸ hj)⟩
      have hsm : doomed s₁ base shmLength r true is = doomed s base shmLength r true is :=
        doomed_congr fun j hj => hed.frame j (his' j hj) fun e => hni (e ▸ hj)
      refine ⟨s', by simpa only [hok] using hok', fun j => ?_, fun j hj => ?_⟩
      · rw [hmem', hmem, hsm, mem_cons, not_or, and_assoc]
      · obtain ⟨hj₁, hne⟩ := (hmem j).1 ((hmem' j).1 hj).1
        exact (hfra' j hj).trans (hed.frame j hj₁ hne)
    · exact ih true hw hl hd his'

/-- After the first node, these are the mappings of the resource that end in the segment. -/
theorem mem_doomed (hw : s.Wf) {shmLength : ℕ} (his : ∀ j ∈ is, j ∈ s.vmas ∧ base ≤ (s.node j).base)
    (hsor : is.Pairwise fun i j => s.top i ≤ (s.node j).base) :
    j ∈ doomed s base shmLength r true is ↔
      j ∈ is ∧ (s.node j).resource = some r ∧ s.top j ≤ base + shmLength := by
  induction is with
  | nil => simp [doomed]
  | cons i is ih =>
    obtain ⟨hi, hb⟩ := his i mem_cons_self
    obtain ⟨haft, hsor⟩ := pairwise_cons.1 hsor
    have ih := ih (fun j hj => his j (mem_cons_of_mem _ hj)) hsor
    have hend : wsub (wadd (s.node i).base (s.node i).length) base = s.top i - base := by
      have hbou := hw.bound i hi
      rw [wadd_eq hbou]
      exact wsub_eq hbou (Nat.le_trans hb (Nat.le_add_right _ _))
    rw [doomed, hend]
    split_ifs with hst hres
    · -- the later mappings end even higher
      refine ⟨fun h => absurd h not_mem_nil, fun ⟨hj, _, hin⟩ => ?_⟩
      have hhg : s.top i ≤ s.top j := by
        rcases mem_cons.1 hj with rfl | hj
        · exact Nat.le_refl _
        · exact Nat.le_trans (haft j hj) (Nat.le_add_right _ _)
      omega
    · have hin : s.top i ≤ base + shmLength := by
        have : ¬shmLength < s.top i - base := fun h => hst ⟨rfl, h⟩
        omega
      rw [mem_cons, ih, mem_cons]
      constructor
      · rintro (rfl | ⟨hj, hr, ht⟩)
        · exact ⟨.inl rfl, hres, hin⟩
        · exact ⟨.inr hj, hr, ht⟩
      · rintro ⟨rfl | hj, hr, ht⟩
        · exact .inl rfl
        · exact .inr ⟨hj, hr, ht⟩
    · rw [ih, mem_cons]
      constructor
      · rintro ⟨hj, hr, ht⟩
        exact ⟨.inr hj, hr, ht⟩
      · rintro ⟨rfl | hj, hr, ht⟩
        · exact absurd hr hres
        · exact ⟨hj, hr, ht⟩

theorem dropWhile_ne {l₁ l₂ : List NodeId} (h : i ∉ l₁) :
    (l₁ ++ i :: l₂).dropWhile (fun j => decide (j ≠ i)) = i :: l₂ := by
  induction l₁ with
  | nil => simp
  | cons j l₁ ih =>
    have hne : j ≠ i := fun e => h (e ▸ mem_cons_self)
    rw [cons_append, dropWhile_cons, if_pos (by simpa using hne)]
    exact ih fun hi => h (mem_cons_of_mem _ hi)

/-- **What the call does**: it removes the first mapping that matches and every later mapping of
its segment that ends in the segment. -/
theorem deleteSHMRegion_removes (hw : s.Wf) (hl : s.Linked chain) :
    (s.deleteSHMRegion base = .ok (s, 0) ∧ ∀ j ∈ s.vmas, ¬s.Matches base j) ∨
      ∃ s' i r, s.deleteSHMRegion base = .ok (s', (s.res r).length) ∧ s.First base i r ∧
        (∀ j ∈ s'.vmas, j ∈ s.vmas ∧ (s'.node j).unlinked = (s.node j).unlinked) ∧
        ∀ j ∈ s.vmas, j ∉ s'.vmas ↔ j = i ∨ ((s.node j).resource = some r ∧
          s.top i ≤ (s.node j).base ∧ s.top j ≤ base + (s.res r).length) := by
  have hsub := dropWhile_sublist (l := s.vmas) fun i => decide ((s.node i).base < base)
  have his : ∀ j ∈ s.vmas.dropWhile fun i => (s.node i).base < base,
      j ∈ s.vmas ∧ base ≤ (s.node j).base :=
    fun j hj => ⟨hsub.mem hj, hw.le_of_mem_dropWhile hj⟩
  -- a mapping that the search skips starts below the attachment
  have hsk : ∀ j ∈ s.vmas, base ≤ (s.node j).base →
      j ∈ s.vmas.dropWhile fun i => (s.node i).base < base := by
    intro j hj hb
    rw [← takeWhile_append_dropWhile (l := s.vmas)
      (p := fun i => decide ((s.node i).base < base)), mem_append] at hj
    rcases hj with hj | hj
    · have := lt_of_mem_takeWhile hj
      omega
    · exact hj
  simp only [deleteSHMRegion, bind, Except.bind]
  rcases findSHM_spec hw hl his with ⟨hok, hnn⟩ | ⟨i, r, l₁, l₂, hok, hfr, hpre, hm, hr⟩
  · refine .inl ⟨by rw [hok]; rfl, fun j hj hmat => ?_⟩
    obtain ⟨r, -, -, hb, -⟩ := id hmat
    exact hnn j (hsk j hj hb) hmat
  · have hmem : ∀ j ∈ l₁ ++ i :: l₂, j ∈ s.vmas ∧ base ≤ (s.node j).base := hfr ▸ his
    have hsor : (l₁ ++ i :: l₂).Pairwise fun i j => s.top i ≤ (s.node j).base :=
      hfr ▸ hw.sorted.sublist hsub
    have hnod : (l₁ ++ i :: l₂).Nodup := hfr ▸ hw.nodup.sublist hsub
    have hi := hmem i (by simp)
    obtain ⟨-, hrs, hl₁⟩ := pairwise_append.1 hsor
    obtain ⟨haft, hl₂⟩ := pairwise_cons.1 hrs
    have hni : i ∉ l₁ := fun h => (nodup_append.1 hnod).2.2 i h i mem_cons_self rfl
    obtain ⟨s', hok', hmem', hfra⟩ := removeSHM_removes base (s.res r).length r false
      hw hl (nodup_append.1 hnod).2.1 fun j hj => (hmem j (by simp [mem_cons.1 hj])).1
    refine .inr ⟨s', i, r, ?_, ⟨hi.1, hm, hr, fun j hj hmat => ?_⟩, fun j hj => ⟨?_, ?_⟩,
      fun j hj => ?_⟩
    · rw [hok, hfr]
      dsimp only
      rw [dropWhile_ne hni, hok']
      rfl
    · obtain ⟨-, -, -, hb, -⟩ := id hmat
      have hj' := hfr ▸ hsk j hj hb
      rcases mem_append.1 hj' with h | h
      · exact absurd hmat (hpre j h)
      · rcases mem_cons.1 h with rfl | h
        · exact Nat.le_refl _
        · exact Nat.le_trans (Nat.le_add_right _ _) (haft j h)
    · exact ((hmem' j).1 hj).1
    · exact hfra j hj
    · rw [hmem', not_and, Classical.not_not, imp_iff_right hj, doomed, if_neg (by simp), if_pos hr,
        mem_cons, mem_doomed hw (fun k hk => hmem k (by simp [hk])) hl₂]
      refine or_congr_right ⟨fun h => ⟨h.2.1, haft j h.1, h.2.2⟩, ?_⟩
      rintro ⟨hres, hle, htop⟩
      refine ⟨?_, hres, htop⟩
      have hpos' := hw.pos j hj
      unfold top at hle
      have hj' := hfr ▸ hsk j hj (by omega)
      rcases mem_append.1 hj' with h | h
      · have := hl₁ j h i mem_cons_self
        unfold top at this
        omega
      · rcases mem_cons.1 h with rfl | h
        · omega
        · exact h

theorem First.unique {i' : NodeId} {r' : ResId} (hw : s.Wf) (h : s.First base i r)
    (h' : s.First base i' r') : i = i' ∧ r = r' := by
  have heq : i = i' := by
    by_contra hne
    have h₁ := h.first i' h'.mem h'.found
    have h₂ := h'.first i h.mem h.found
    have hp := hw.pos i h.mem
    have hp' := hw.pos i' h'.mem
    rcases hw.disjoint h.mem h'.mem hne with hd | hd <;>
    · unfold top at hd
      omega
  subst heq
  exact ⟨rfl, Option.some.inj (h.resource.symm.trans h'.resource)⟩

theorem Wf.eq_or_after (hw : s.Wf) (hi : i ∈ s.vmas) (hj : j ∈ s.vmas)
    (hle : (s.node i).base ≤ (s.node j).base) : j = i ∨ s.top i ≤ (s.node j).base := by
  refine or_iff_not_imp_left.2 fun hne => (hw.disjoint hi hj (Ne.symm hne)).resolve_right ?_
  have hpos := hw.pos j hj
  unfold top
  omega

/-- A mapping of the attachment is the first that matches or comes after it. -/
theorem First.after (hw : s.Wf) (h : s.First base i r) (hj : j ∈ s.vmas) (hb : s.Belongs base r j) :
    j = i ∨ s.top i ≤ (s.node j).base := by
  obtain ⟨r', hr', hdev, -⟩ := h.found
  obtain rfl : r' = r := Option.some.inj (hr'.symm.trans h.resource)
  exact hw.eq_or_after h.mem hj (h.first j hj ⟨r', hb.resource, hdev, hb.le, hb.offset⟩)

end VMATracking

/-- **One attachment.**  In every state of every run the call removes exactly the attachment at
`base`, leaves all else as it is and returns the size of the segment, exactly if from the first
mapping that matches up to the end of the attachment every mapping of the segment is at its
place. -/
theorem detaches_iff {ops : List Op} {s : VMATracking} (hrun : tracker.Run Called .empty ops s)
    (base : ℕ) : s.Detaches base ↔ s.InPlace base := by
  obtain ⟨hw, chain, hl⟩ := run_inv (fun _ _ hc => hc) hrun
  rcases deleteSHMRegion_removes hw hl with ⟨hok, hnn⟩ | ⟨s', i, r, hok, hf, hfra, hgn⟩
  · refine iff_of_true ⟨s, 0, hok, fun j hj => ⟨hj, rfl⟩, .inl ⟨hnn, rfl, fun j hj => hj⟩⟩ ?_
    intro i r hf
    exact absurd hf.found (hnn i hf.mem)
  · have hle : base ≤ (s.node i).base := by
      obtain ⟨-, -, -, hb, -⟩ := hf.found
      exact hb
    constructor
    · rintro ⟨s'', n, hok', -, hcs⟩
      obtain ⟨rfl, rfl⟩ : s' = s'' ∧ (s.res r).length = n :=
        Prod.mk.inj (Except.ok.inj (hok.symm.trans hok'))
      rcases hcs with ⟨hno, -⟩ | ⟨i', r', hf', -, hbel⟩
      · exact absurd hf.found (hno i hf.mem)
      obtain ⟨rfl, rfl⟩ := hf.unique hw hf'
      intro i' r' hf'
      obtain ⟨rfl, rfl⟩ := hf.unique hw hf'
      refine ⟨((hbel i hf.mem).1 ((hgn i hf.mem).2 (.inl rfl))).within,
        fun j hj hres hij htop => ((hbel j hj).1 ((hgn j hj).2 ?_)).offset⟩
      exact (hw.eq_or_after hf.mem hj hij).imp_right fun h => ⟨hres, h, htop⟩
    · intro hin
      obtain ⟨hend, hpla⟩ := hin i r hf
      refine ⟨s', _, hok, hfra, .inr ⟨i, r, hf, rfl, fun j hj => (hgn j hj).trans ⟨?_, ?_⟩⟩⟩
      · rintro (rfl | ⟨hres, hij, htop⟩)
        · exact ⟨hf.resource, hle, hpla j hj hf.resource (Nat.le_refl _) hend, hend⟩
        · have hij' : (s.node i).base ≤ (s.node j).base :=
            Nat.le_trans (Nat.le_add_right _ _) hij
          exact ⟨hres, Nat.le_trans hle hij', hpla j hj hres hij' htop, htop⟩
      · intro hb
        rcases hf.after hw hj hb with h | h
        · exact .inl h
        · exact .inr ⟨hb.resource, h, hb.within⟩

/-- Two attachments of one segment: of the first the last three pages are unmapped, the second is
attached one page on and loses its last three pages too. -/
def twoAttachments : List Op :=
  [.insertResource ⟨specialDevSHM, 7⟩ 0x4000,
    .track (some 0) 0x10000 0 0x4000 ⟨true⟩ ⟨true, true, false⟩, .delete 0x11000 0x3000 none,
    .track (some 0) 0x11000 0 0x4000 ⟨true⟩ ⟨true, true, false⟩, .delete 0x12000 0x3000 none]

/-- An attachment whose third page was replaced by a private mapping is detached. -/
theorem detaches_iff_replaced : ∃ s, tracker.Run Called .empty
      [.insertResource ⟨specialDevSHM, 7⟩ 0x4000,
        .track (some 0) 0x10000 0 0x4000 ⟨true⟩ ⟨true, true, false⟩,
        .track none 0x12000 0 0x1000 ⟨false⟩ ⟨true, true, false⟩] s ∧
    (s.Detaches 0x10000 ↔ s.InPlace 0x10000) := by
  have h₀ : tracker.Run Called .empty [] .empty := .nil _
  have h₁ := run_call (.insertResource ⟨specialDevSHM, 7⟩ 0x4000) h₀ trivial rfl
  have h₂ := run_call (.track (some 0) 0x10000 0 0x4000 ⟨true⟩ ⟨true, true, false⟩) h₁
    ⟨by decide, by decide, by decide⟩ rfl
  have h₃ := run_call (.track none 0x12000 0 0x1000 ⟨false⟩ ⟨true, true, false⟩) h₂
    ⟨by decide, by decide, by decide⟩ rfl
  exact ⟨_, h₃, detaches_iff h₃ 0x10000⟩

/-- The page at 0x11000 is the first page of the second attachment; detaching the first removes
it. -/
theorem detach_takes_other : ∃ s, tracker.Run Called .empty twoAttachments s ∧
    (∃ j ∈ s.vmas, (s.node j).base = 0x11000 ∧ (s.node j).offset = 0) ∧
    (s.deleteSHMRegion 0x10000).toOption.map (fun p => p.1.vmas) = some [] ∧
    ¬s.Detaches 0x10000 := by
  have h₀ : tracker.Run Called .empty [] .empty := .nil _
  have h₁ := run_call (.insertResource ⟨specialDevSHM, 7⟩ 0x4000) h₀ trivial rfl
  have h₂ := run_call (.track (some 0) 0x10000 0 0x4000 ⟨true⟩ ⟨true, true, false⟩) h₁
    ⟨by decide, by decide, by decide⟩ rfl
  have h₃ := run_call (.delete 0x11000 0x3000 none) h₂ (show 0x11000 + 0x3000 < word by decide) rfl
  have h₄ := run_call (.track (some 0) 0x11000 0 0x4000 ⟨true⟩ ⟨true, true, false⟩) h₃
    ⟨by decide, by decide, by decide⟩ rfl
  have h₅ := run_call (.delete 0x12000 0x3000 none) h₄ (show 0x12000 + 0x3000 < word by decide) rfl
  refine ⟨_, h₅, by decide, by decide, ?_⟩
  rintro ⟨s', n, hok, -, hcs⟩
  have hnn : s'.vmas = [] := by
    have := congrArg (fun x => x.toOption.map fun p => p.1.vmas) hok
    exact (Option.some.inj this).symm
  rcases hcs with ⟨hno, -⟩ | ⟨i, r, -, -, hbel⟩
  · exact hno 0 (by decide) ⟨0, by decide⟩
  · have := ((hbel 1 (by decide)).1 (by simp [hnn])).offset
    revert this
    decide

end FastPPC.Vma
