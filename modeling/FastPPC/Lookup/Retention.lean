import FastPPC.Lookup.Hierarchy

/-!
# Soft invalidation and the retained blocks

A soft invalidation takes a block out of `BlockList` and keeps it in `RetainedBlocks`, where
`TakeRetainedBlock` finds it when the address is executed again.  `RetainedCodePages` lists the
retained addresses by page, so that a hard invalidation can drop the ones that have code on an
invalidated page.

Every operation but the publication of a block only moves blocks from the live table to the
retained one, or drops them (`Kept`).  From this:

* `retention_iff` : **the two tables stay apart and the page index stays exact** in every run in
  which a block is published only at an address that is not retained, and a step of such a run
  keeps this exactly if it is no publication at a retained address; a hard invalidation leaves
  no retained block with code in its range, and a retained block was never hit by one since it
  was retained.

`AddBlockMapping` itself does not look at the retained table (`live_and_retained`).
-/

namespace FastPPC.Lookup

open Function List

variable {length : ℕ} {e : BlockEntry} {C : GuestToHostMap → Op → Prop} {g : CodeGranuleBitmap}

open Hierarchy (OnPage)

/-- The vector of the page in an index. -/
def entriesOn (index : ℕ → Option (List ℕ)) (page : ℕ) : List ℕ := (index page).getD []

/-- The vectors of the index are sets. -/
def Sets (index : ℕ → Option (List ℕ)) : Prop := ∀ page, (entriesOn index page).Nodup

/-- Some byte of the range is on the page. -/
def InRange (start length page : ℕ) : Prop :=
  ∃ x, start ≤ x ∧ x < start + length ∧ x / 2 ^ 12 = page

theorem InRange.mem_pages {start page : ℕ} (h : InRange start length page)
    (hw : start + length ≤ word) : page ∈ pages start length := by
  obtain ⟨x, hx, hlt, rfl⟩ := h
  have hls : lastPage start length = (start + length - 1) / 2 ^ 12 := by
    unfold lastPage wadd
    rcases hw.eq_or_lt with heq | hw
    · simp [heq]
    · rw [Nat.mod_eq_of_lt hw, if_neg (by omega)]
  rw [pages, mem_range'_1]
  omega

namespace GuestToHostMap

/-! ### The page index -/

section Index

variable {index : ℕ → Option (List ℕ)} {a : ℕ}

theorem entriesOn_update (i p : ℕ) (v : Option (List ℕ)) :
    entriesOn (update index i v) p = if p = i then v.getD [] else entriesOn index p := by
  unfold entriesOn
  rw [update_apply]
  split <;> rfl

theorem entriesOn_dropRetainedPage (q p : ℕ) : entriesOn (dropRetainedPage a index q) p =
      if p = q / 2 ^ 12 then (entriesOn index p).erase a else entriesOn index p := by
  unfold dropRetainedPage
  generalize q / 2 ^ 12 = i
  rcases hi : index i with _ | as
  · by_cases hp : p = i
    · simp [entriesOn, hp, hi]
    · simp [hp]
  · rw [entriesOn_update]
    by_cases hp : p = i
    · rw [if_pos hp, if_pos hp, hp, entriesOn, hi]
      split
      · rename_i hnil
        exact hnil.symm
      · rfl
    · rw [if_neg hp, if_neg hp]

theorem entriesOn_retainPage (q p : ℕ) : entriesOn (retainPage a index q) p =
      if p = q / 2 ^ 12 ∧ a ∉ entriesOn index p then entriesOn index p ++ [a]
      else entriesOn index p := by
  unfold retainPage
  generalize q / 2 ^ 12 = i
  rw [entriesOn_update, ← entriesOn]
  by_cases hp : p = i
  · subst hp
    by_cases ha : a ∈ entriesOn index p <;> simp
  · simp [hp]

theorem foldl_dropRetainedPage (h : Sets index) (qs : List ℕ) :
    Sets (qs.foldl (dropRetainedPage a) index) ∧
      ∀ p b, b ∈ entriesOn (qs.foldl (dropRetainedPage a) index) p ↔
        b ∈ entriesOn index p ∧ ¬(b = a ∧ ∃ q ∈ qs, q / 2 ^ 12 = p) := by
  induction qs generalizing index with
  | nil => simpa using h
  | cons q qs ih =>
    have hst : Sets (dropRetainedPage a index q) := by
      intro p
      rw [entriesOn_dropRetainedPage]
      split
      · exact (h p).erase a
      · exact h p
    have hone : ∀ p b, b ∈ entriesOn (dropRetainedPage a index q) p ↔
        b ∈ entriesOn index p ∧ ¬(b = a ∧ q / 2 ^ 12 = p) := by
      intro p b
      rw [entriesOn_dropRetainedPage]
      split
      · rw [(h p).mem_erase_iff]
        tauto
      · tauto
    obtain ⟨hst', hrs⟩ := ih hst
    refine ⟨hst', fun p b => ?_⟩
    rw [foldl_cons, hrs, hone, and_assoc, ← not_or, ← and_or_left]
    simp

theorem foldl_retainPage (h : Sets index) (qs : List ℕ) : Sets (qs.foldl (retainPage a) index) ∧
      ∀ p b, b ∈ entriesOn (qs.foldl (retainPage a) index) p ↔
        b ∈ entriesOn index p ∨ b = a ∧ ∃ q ∈ qs, q / 2 ^ 12 = p := by
  induction qs generalizing index with
  | nil => simpa using h
  | cons q qs ih =>
    have hst : Sets (retainPage a index q) := by
      intro p
      rw [entriesOn_retainPage]
      split
      · rename_i ha
        refine nodup_append.2 ⟨h p, by simp, ?_⟩
        simpa using fun x hx => ne_of_mem_of_not_mem hx ha.2
      · exact h p
    have hone : ∀ p b, b ∈ entriesOn (retainPage a index q) p ↔
        b ∈ entriesOn index p ∨ b = a ∧ q / 2 ^ 12 = p := by
      intro p b
      rw [entriesOn_retainPage]
      split
      · rename_i ha
        simp only [mem_append, mem_singleton, ← ha.1, and_true]
      · rename_i ha
        refine ⟨Or.inl, fun hb => hb.elim id fun ⟨hb, hq⟩ => ?_⟩
        by_contra hn
        exact ha ⟨hq.symm, hb ▸ hn⟩
    obtain ⟨hst', hrs⟩ := ih hst
    refine ⟨hst', fun p b => ?_⟩
    rw [foldl_cons, hrs, hone, or_assoc, ← and_or_left]
    simp

end Index

/-! ### What the operations keep -/

/-- The live and the retained blocks are apart, and the index lists a retained address under
exactly the pages of its entry. -/
structure Consistent (m : GuestToHostMap) : Prop where
  exclusive : ∀ a, m.blockList a = none ∨ m.retainedBlocks a = none
  indexed : ∀ p a, a ∈ entriesOn m.retainedCodePages p ↔
    ∃ e, m.retainedBlocks a = some e ∧ OnPage e p

structure ExactIndex (m : GuestToHostMap) : Prop where
  sets : Sets m.retainedCodePages
  indexed : ∀ p a, a ∈ entriesOn m.retainedCodePages p ↔
    ∃ e, m.retainedBlocks a = some e ∧ OnPage e p

/-- `m'` has only blocks of `m`, and retains only what `m` retained or what it took out of the
live blocks. -/
structure Kept (m m' : GuestToHostMap) : Prop where
  live : ∀ a e, m'.blockList a = some e → m.blockList a = some e
  retained : ∀ a e, m'.retainedBlocks a = some e →
    m.retainedBlocks a = some e ∨ m.blockList a = some e ∧ m'.blockList a = none
  exact : m.ExactIndex → m'.ExactIndex

variable {m m' m'' : GuestToHostMap}

theorem Kept.refl (m : GuestToHostMap) : Kept m m := ⟨fun _ _ => id, fun _ _ => .inl, id⟩

theorem Kept.trans (h : Kept m m') (h' : Kept m' m'') : Kept m m'' where
  live a e he := h.live a e (h'.live a e he)
  retained a e he := by
    rcases h'.retained a e he with hr | ⟨hb, hn⟩
    · rcases h.retained a e hr with hr | ⟨hb, hn⟩
      · exact .inl hr
      · refine .inr ⟨hb, ?_⟩
        -- what is no longer live does not come back
        rw [Option.eq_none_iff_forall_not_mem] at hn ⊢
        exact fun e' he' => hn e' (h'.live a e' he')
    · exact .inr ⟨h.live a e hb, hn⟩
  exact := h'.exact ∘ h.exact

theorem Kept.foldl {α : Type} {f : GuestToHostMap → α → GuestToHostMap}
    (hf : ∀ m x, Kept m (f m x)) (m : GuestToHostMap) (xs : List α) : Kept m (xs.foldl f m) := by
  induction xs generalizing m with
  | nil => exact .refl m
  | cons x xs ih => exact (hf m x).trans (ih (f m x))

/-- A change that leaves the three tables alone. -/
theorem Kept.of_eq (hb : m'.blockList = m.blockList) (hr : m'.retainedBlocks = m.retainedBlocks)
    (hi : m'.retainedCodePages = m.retainedCodePages) : Kept m m' where
  live a e he := hb ▸ he
  retained a e he := .inl (hr ▸ he)
  exact h := ⟨hi ▸ h.sets, by rw [hi, hr]; exact h.indexed⟩

theorem Kept.erase (m : GuestToHostMap) (a : ℕ) : Kept m (m.erase a) where
  live b e he := by
    simp only [GuestToHostMap.erase, update_apply] at he
    split at he
    · cases he
    · exact he
  retained _ _ he := .inl he
  exact h := ⟨h.sets, h.indexed⟩

theorem dropRetainedBlockLocked_retainedBlocks (m : GuestToHostMap) (a : ℕ) :
    (m.dropRetainedBlockLocked a).retainedBlocks = update m.retainedBlocks a none := by
  unfold dropRetainedBlockLocked
  split
  · rename_i h
    rw [← h, update_eq_self]
  · rfl

theorem ExactIndex.dropRetainedBlockLocked (h : m.ExactIndex) (a : ℕ) :
    (m.dropRetainedBlockLocked a).ExactIndex := by
  unfold GuestToHostMap.dropRetainedBlockLocked
  split
  · exact h
  · rename_i e he
    obtain ⟨hst, hmem⟩ := foldl_dropRetainedPage (a := a) h.sets e.codePages
    refine ⟨hst, fun p b => ?_⟩
    rw [hmem, h.indexed]
    by_cases hba : b = a
    · subst hba
      simp [he, OnPage]
    · simp [hba]

section

variable (m : GuestToHostMap) (a : ℕ)

theorem Kept.dropRetainedBlockLocked : Kept m (m.dropRetainedBlockLocked a) where
  live b e he := (m.dropRetainedBlockLocked_frame a).1 ▸ he
  retained b e he := by
    rw [dropRetainedBlockLocked_retainedBlocks, update_apply] at he
    split at he
    · cases he
    · exact .inl he
  exact h := h.dropRetainedBlockLocked a

theorem takeRetainedBlock_fst : (m.takeRetainedBlock a).1 = m.dropRetainedBlockLocked a := by
  unfold takeRetainedBlock dropRetainedBlockLocked
  split <;> rfl

theorem Kept.softEraseBlock : Kept m (m.softEraseBlock a) := by
  unfold GuestToHostMap.softEraseBlock
  split
  · exact .refl m
  rename_i e he
  split
  · exact .erase m a
  -- the older retained copy is dropped before the block takes its place
  have hdr := m.dropRetainedBlockLocked_retainedBlocks a
  have hfra := (m.dropRetainedBlockLocked_frame a).1
  refine ⟨fun b e' he' => ?_, fun b e' he' => ?_, fun h => ?_⟩
  · simp only [hfra, update_apply] at he'
    split at he'
    · cases he'
    · exact he'
  · simp only [hdr, update_apply] at he'
    split at he'
    · rename_i hba
      obtain rfl := Option.some.inj he'
      exact .inr ⟨hba ▸ he, by simp [hba]⟩
    · exact .inl he'
  · have h' := h.dropRetainedBlockLocked a
    obtain ⟨hst, hmem⟩ := foldl_retainPage (a := a) h'.sets e.codePages
    refine ⟨hst, fun p b => ?_⟩
    simp only [hmem, h'.indexed, hdr]
    by_cases hba : b = a
    · simp [hba, OnPage]
    · simp [hba]

end

theorem Kept.erasePages {erase : GuestToHostMap → ℕ → GuestToHostMap}
    (he : ∀ m a, Kept m (erase m a)) (m : GuestToHostMap) (ps : List ℕ) :
    Kept m (m.erasePages erase ps) := by
  have hpg : ∀ m p, Kept m (m.erasePage erase p) := by
    intro m p
    unfold erasePage
    split
    · exact .refl m
    · rename_i entries _
      dsimp only
      split
      · exact (Kept.foldl he m entries).trans (.of_eq rfl rfl rfl)
      · exact Kept.foldl he m entries
  exact (Kept.foldl hpg m ps).trans (.of_eq rfl rfl rfl)

theorem Kept.dropRetainedRange (m : GuestToHostMap) (start length : ℕ) :
    Kept m (m.dropRetainedRange start length) :=
  Kept.foldl .dropRetainedBlockLocked m _

theorem Kept.addBlockExecutableRange (mem : ℕ → Alloc) (m : GuestToHostMap) (addresses : List ℕ)
    (start length gs gl : ℕ) :
    Kept m (m.addBlockExecutableRange mem addresses start length gs gl).1 := by
  have hfl : ∀ (ps : List ℕ) (s : GuestToHostMap × Bool),
      Kept s.1 (ps.foldl (addPage mem addresses gs gl) s).1 := by
    intro ps
    induction ps with
    | nil => exact fun s => .refl s.1
    | cons p ps ih =>
      intro s
      have hpg : Kept s.1 (addPage mem addresses gs gl s p).1 := .of_eq rfl rfl rfl
      exact hpg.trans (ih _)
  exact hfl _ (m, false)

/-- **Every operation but a publication only retains or drops.** -/
theorem Kept.step (m : GuestToHostMap) {op : Op} (hop : ∀ a e, op ≠ .addBlockMapping a e) :
    Kept m (m.step op) := by
  cases op with
  | addBlockExecutableRange mem addresses start length gs gl =>
    exact .addBlockExecutableRange mem m addresses start length gs gl
  | addBlockMapping a e => exact absurd rfl (hop a e)
  | erase a => exact .erase m a
  | softInvalidateRange start length => exact .erasePages .softEraseBlock m _
  | invalidateRange start length =>
    exact (Kept.erasePages .erase m _).trans (.dropRetainedRange _ start length)
  | dropRetainedRange start length => exact .dropRetainedRange m start length
  | takeRetainedBlock a =>
    simp only [GuestToHostMap.step, takeRetainedBlock_fst]
    exact .dropRetainedBlockLocked m a
  | clearCache =>
    refine ⟨fun a e h => ?_, fun a e h => ?_, fun _ => ⟨fun _ => nodup_nil, fun p a => ?_⟩⟩
    · cases h
    · cases h
    · simp [GuestToHostMap.step, GuestToHostMap.clearCache, entriesOn]

/-! ### Hard invalidations -/

theorem foldl_dropRetained_retainedBlocks (m : GuestToHostMap) (doomed : List ℕ) (a : ℕ) :
    (doomed.foldl dropRetainedBlockLocked m).retainedBlocks a =
      if a ∈ doomed then none else m.retainedBlocks a := by
  induction doomed generalizing m with
  | nil => simp
  | cons d ds ih =>
    rw [foldl_cons, ih, dropRetainedBlockLocked_retainedBlocks, update_apply]
    by_cases had : a = d <;> simp [had]

/-- Nothing with code on a page of the range stays retained. -/
theorem dropRetainedRange_onPage (h : m.ExactIndex) {start a p : ℕ}
    (he : (m.dropRetainedRange start length).retainedBlocks a = some e)
    (hp : p ∈ pages start length) : ¬OnPage e p := by
  intro hon
  unfold dropRetainedRange at he
  rw [foldl_dropRetained_retainedBlocks] at he
  split at he
  · cases he
  · rename_i hdoo
    exact hdoo (mem_flatMap.2 ⟨p, hp, (h.indexed p a).2 ⟨e, he, hon⟩⟩)

theorem invalidateRange_onPage (h : m.ExactIndex) {start a p : ℕ} (hw : start + length ≤ word)
    (he : (m.invalidateRange start length).retainedBlocks a = some e)
    (hp : InRange start length p) :
    ¬OnPage e p :=
  dropRetainedRange_onPage ((Kept.erasePages .erase m _).exact h) he (hp.mem_pages hw)

/-- The operation is a hard invalidation of a range with code of the block. -/
def Op.HardInvalidates (op : Op) (e : BlockEntry) : Prop :=
  ∃ start length p, op = .invalidateRange start length ∧ start + length ≤ word ∧
    InRange start length p ∧ OnPage e p

/-! ### Runs -/

def machine : Machine GuestToHostMap Op := .ofFun step

/-- A block is published at an address that is not retained. -/
def NotRetained (m : GuestToHostMap) (op : Op) : Prop :=
  ∀ a e, op = .addBlockMapping a e → m.retainedBlocks a = none

theorem ExactIndex.step (h : m.ExactIndex) (op : Op) : (m.step op).ExactIndex := by
  by_cases hop : ∃ a e, op = .addBlockMapping a e
  · obtain ⟨a, e, rfl⟩ := hop
    exact ⟨h.sets, h.indexed⟩
  · exact (Kept.step m fun a e he => hop ⟨a, e, he⟩).exact h

theorem ExactIndex.empty (g : CodeGranuleBitmap) : (GuestToHostMap.empty g).ExactIndex :=
  ⟨fun _ => List.nodup_nil, fun p a => by simp [GuestToHostMap.empty, entriesOn]⟩

theorem ExactIndex.run {ops : List Op} (h : machine.Run C (GuestToHostMap.empty g) ops m) :
    m.ExactIndex :=
  h.invariant (I := ExactIndex) (.empty g) fun _ op _ hI _ hst => hst ▸ hI.step op

/-- **One step keeps the tables apart exactly if it does not publish at a retained address.** -/
theorem step_exclusive_iff (h : ∀ a, m.blockList a = none ∨ m.retainedBlocks a = none) (op : Op) :
    (∀ a, (m.step op).blockList a = none ∨ (m.step op).retainedBlocks a = none) ↔
      m.NotRetained op := by
  by_cases hop : ∃ a e, op = .addBlockMapping a e
  · obtain ⟨a, e, rfl⟩ := hop
    constructor
    · rintro h' b e' hb
      obtain ⟨rfl, -⟩ := Op.addBlockMapping.inj hb
      simpa [step, addBlockMapping] using h' a
    · intro hn b
      by_cases hba : b = a
      · exact .inr (hba ▸ hn a e rfl)
      · simpa [step, addBlockMapping, hba] using h b
  · have hk := Kept.step m fun a e he => hop ⟨a, e, he⟩
    refine ⟨fun _ a e he => (hop ⟨a, e, he⟩).elim, fun _ a => ?_⟩
    rcases hb : (m.step op).blockList a with _ | e
    · exact .inl rfl
    · right
      rw [Option.eq_none_iff_forall_not_mem]
      intro e' he'
      -- a block that is still live was not taken out, so it was retained before
      rcases hk.retained a e' he' with hr | ⟨-, hn⟩
      · rcases h a with hn | hn
        · cases hn.symm.trans (hk.live a e hb)
        · cases hn.symm.trans hr
      · cases hn.symm.trans hb

/-- **A retained block was live when it was retained, and no hard invalidation since has met one
of its pages.** -/
theorem retained_since {ops : List Op} (hrun : machine.Run C (empty g) ops m) {a : ℕ}
    (he : m.retainedBlocks a = some e) :
    ∃ before op after m₀, ops = before ++ op :: after ∧ machine.Run C (empty g) before m₀ ∧
      m₀.blockList a = some e ∧ (m₀.step op).retainedBlocks a = some e ∧
      machine.Run C (m₀.step op) after m ∧ ∀ op' ∈ after, ¬op'.HardInvalidates e := by
  -- by induction on the run: the last step either retained the block or found it retained
  generalize hinit : empty g = init at hrun
  induction hrun with
  | nil =>
    subst hinit
    cases he
  | @snoc s₁ s₂ op ops hr hc hst ih =>
    subst hinit
    obtain rfl : s₁.step op = s₂ := hst
    have hcas : s₁.retainedBlocks a = some e ∨ s₁.blockList a = some e := by
      by_cases hop : ∃ a e, op = .addBlockMapping a e
      · obtain ⟨b, e', rfl⟩ := hop
        exact .inl he
      · rcases (Kept.step s₁ fun a e he => hop ⟨a, e, he⟩).retained a e he with hr | ⟨hb, -⟩
        · exact .inl hr
        · exact .inr hb
    rcases hcas with hret | hlv
    · obtain ⟨before, op', after, m₀, rfl, hbef, hlv, hret', haft, hno⟩ := ih hret
      refine ⟨before, op', after ++ [op], m₀, by simp, hbef, hlv, hret', haft.snoc hc rfl,
        fun op'' hmem => ?_⟩
      rcases mem_append.1 hmem with hmem | hmem
      · exact hno op'' hmem
      · obtain rfl := mem_singleton.1 hmem
        rintro ⟨start, length, p, rfl, hw, hin, hon⟩
        exact invalidateRange_onPage (ExactIndex.run hr) hw he hin hon
    · exact ⟨ops, op, [], s₁, rfl, hr, hlv, he, .nil _, by simp⟩

/-- **The retained blocks stay consistent.**  In every run in which no block is published at a
retained address, the live and the retained table are apart and the page index is exact; a hard
invalidation leaves no retained block with a page in its range; what `TakeRetainedBlock` returns
has met no hard invalidation since it was retained; and the next step keeps the consistency
exactly if it does not publish at a retained address. -/
theorem retention_iff {g : CodeGranuleBitmap} {ops : List Op} {m : GuestToHostMap}
    (hrun : machine.Run NotRetained (empty g) ops m) :
    m.Consistent ∧ (∀ start length, start + length ≤ word → ∀ a e p,
        (m.invalidateRange start length).retainedBlocks a = some e →
          InRange start length p → ¬OnPage e p) ∧
      (∀ a e, (m.takeRetainedBlock a).2 = some e →
        ∃ before op after m₀, ops = before ++ op :: after ∧
          machine.Run NotRetained (empty g) before m₀ ∧
          m₀.blockList a = some e ∧ (m₀.step op).retainedBlocks a = some e ∧
          machine.Run NotRetained (m₀.step op) after m ∧
          ∀ op' ∈ after, ¬op'.HardInvalidates e) ∧
      ∀ op, (m.step op).Consistent ↔ m.NotRetained op := by
  have hexa := ExactIndex.run hrun
  have hex : ∀ a, m.blockList a = none ∨ m.retainedBlocks a = none :=
    hrun.invariant (I := fun m => ∀ a, m.blockList a = none ∨ m.retainedBlocks a = none)
      (fun _ => .inl rfl) fun _ op _ hI hc hst => hst ▸ (step_exclusive_iff hI op).2 hc
  refine ⟨⟨hex, hexa.indexed⟩, ?_, ?_, fun op => ?_⟩
  · intro start length hw a e p he hp
    exact invalidateRange_onPage hexa hw he hp
  · intro a e he
    refine retained_since hrun ?_
    unfold takeRetainedBlock at he
    split at he
    · cases he
    · rename_i hret
      exact hret.trans he
  · rw [← step_exclusive_iff hex]
    exact ⟨Consistent.exclusive, fun h => ⟨h, (hexa.step op).indexed⟩⟩

/-- A block of one page, with a hash. -/
def sampleEntry : BlockEntry where
  hostCode := 0x7000
  tail := ⟨0x1000, 16⟩
  codePages := [0x1000]
  guestRangeStart := 0x1000
  guestRangeLength := 16

/-- The block is compiled, its page is written, and it is retained. -/
def sampleOps : List Op :=
  [.addBlockExecutableRange (fun _ => ⟨true, true⟩) [0x1000] 0x1000 16 0x1000 16,
    .addBlockMapping 0x1000 sampleEntry, .softInvalidateRange 0x1000 1]

theorem sampleOps_run :
    machine.Run NotRetained (empty ⟨none⟩) sampleOps (sampleOps.foldl step (empty ⟨none⟩)) := by
  refine .cons ?_ rfl (.cons ?_ rfl (.cons ?_ rfl (.nil _)))
  · intro a e h
    cases h
  · intro a e h
    obtain ⟨rfl, rfl⟩ := Op.addBlockMapping.inj h
    decide
  · intro a e h
    cases h

theorem retention_sample :
    (sampleOps.foldl step (empty ⟨none⟩)).retainedBlocks 0x1000 = some sampleEntry ∧
      (sampleOps.foldl step (empty ⟨none⟩)).Consistent :=
  ⟨by decide, (retention_iff sampleOps_run).1⟩

/-- The block is compiled again without the retained one being taken: it is live and retained. -/
theorem live_and_retained :
    ¬((sampleOps ++ [Op.addBlockMapping 0x1000 sampleEntry]).foldl step
      (empty ⟨none⟩)).Consistent :=
  fun h => absurd (h.exclusive 0x1000) (by decide)

end GuestToHostMap

end FastPPC.Lookup
