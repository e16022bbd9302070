import FastPPC.Smc.Window

/-!
# Patching a window

When guest code that was baked into a window changes, the window can be patched in place if only one
of its five words changes: a store of one word is atomic, so another thread executes the window as
it was or as it will be.

* `classifyRIPSite`, `applyWordPatch` : the test and the store of `SMCSemanticPatch.h`;
* `classifyRIPSite_patchable` : what the test has established;
* `rip_window_patch_exact` : a window computes its constant, and a patched window computes the new
  one; a thread that fetches some words before the store and some after it computes one of the two.
-/

namespace FastPPC.Smc

open Function

/-! ### The window of a register -/

theorem run_windowWords_of_ne (regs : ℕ → ℕ) {rt hh hl lh ll r : ℕ} (hrt : rt < 32)
    (hhh : hh < 2 ^ 16) (hhl : hl < 2 ^ 16) (hlh : lh < 2 ^ 16) (hll : ll < 2 ^ 16) (hr : r ≠ rt) :
    run regs (windowWords rt hh hl lh ll) r = regs r := by
  have hlis : ∀ regs, (decode (dForm 15 rt 0 hh)).exec regs r = regs r := fun regs => by
    rw [decode_addis hrt hhh, Instr.exec, update_of_ne hr]
  have hori : ∀ {imm}, imm < 2 ^ 16 → ∀ regs, (decode (dForm 24 rt rt imm)).exec regs r = regs r :=
    fun himm regs => by rw [decode_ori hrt himm, Instr.exec, update_of_ne hr]
  have hsl : ∀ regs, (decode (dForm 30 rt rt (31 * 2 ^ 6 + 1 * 2 ^ 2 + 1 * 2))).exec regs r =
      regs r := fun regs => by rw [decode_sldi hrt, Instr.exec, update_of_ne hr]
  have hor : ∀ regs, (decode (dForm 25 rt rt lh)).exec regs r = regs r := fun regs => by
    rw [decode_oris hrt hlh, Instr.exec, update_of_ne hr]
  rw [windowWords, run_cons, run_cons, run_cons, run_cons, run_cons, run_nil, hori hll, hor,
    hsl, hori hhl, hlis]

/-- **The window of any register number.** -/
theorem run_window (regs : ℕ → ℕ) (regIdx : ℕ) {v : ℕ} (hv : v < word) :
    run regs (synthesizeRIPWindow regIdx v) = update regs (regIdx % 32) v := by
  have hrt : regIdx % 32 < 32 := Nat.mod_lt _ (by decide)
  have hmod : synthesizeRIPWindow regIdx v = synthesizeRIPWindow (regIdx % 32) v := by
    rw [synthesizeRIPWindow, synthesizeRIPWindow, Nat.mod_mod]
  funext r
  by_cases hr : r = regIdx % 32
  · rw [hr, update_self, hmod, run_synthesizeRIPWindow regs hrt hv]
  · unfold word at hv
    rw [update_of_ne hr, synthesizeRIPWindow,
      run_windowWords_of_ne regs hrt (by omega) (by omega) (by omega) (by omega) hr]

/-! ### The test -/

/-- The words of the host code, by their index. -/
abbrev HostCode := ℕ → ℕ

/-- The five words at an address. -/
def windowAt (code : HostCode) (host : ℕ) : List ℕ := (List.range 5).map fun i => code (host + i)

structure WordPatch where
  address : ℕ
  value : ℕ
  deriving DecidableEq

/-- `SiteMatch`; a patchable site comes with the word to write, if there is one. -/
inductive SiteMatch
  | noMatch
  | patchable (patch : Option WordPatch)
  | multiWord
  deriving DecidableEq

/-- The loop over the words: the last index at which they differ, and how many there are. -/
def countDiffs (expected wanted : List ℕ) : ℕ → ℕ × ℕ
  | 0 => (5, 0)
  | i + 1 =>
    let (diffIndex, diffCount) := countDiffs expected wanted i
    if expected.getD i 0 ≠ wanted.getD i 0 then (i, diffCount + 1) else (diffIndex, diffCount)

def classifyRIPSite (code : HostCode) (host oldRIP newRIP : ℕ) : SiteMatch :=
  let expected := synthesizeRIPWindow (ripWindowRegIdx (code host)) oldRIP
  if windowAt code host ≠ expected then .noMatch
  else
    let wanted := synthesizeRIPWindow (ripWindowRegIdx (code host)) newRIP
    let (diffIndex, diffCount) := countDiffs expected wanted 5
    if diffCount = 0 then .patchable none
    else if 1 < diffCount then .multiWord
    else .patchable (some ⟨host + diffIndex, wanted.getD diffIndex 0⟩)

def applyWordPatch (code : HostCode) (patch : WordPatch) : HostCode :=
  update code patch.address patch.value

/-- The code after the site was handled. -/
def patched (code : HostCode) : Option WordPatch → HostCode
  | none => code
  | some patch => applyWordPatch code patch

/-! ### What the test establishes -/

variable {code : HostCode} {host : ℕ} {words : List ℕ}

theorem countDiffs_spec (expected wanted : List ℕ) (k : ℕ) :
    ((countDiffs expected wanted k).2 = 0 → ∀ i < k, expected.getD i 0 = wanted.getD i 0) ∧
      ((countDiffs expected wanted k).2 = 1 → (countDiffs expected wanted k).1 < k ∧
        ∀ i < k, i ≠ (countDiffs expected wanted k).1 → expected.getD i 0 = wanted.getD i 0) := by
  induction k with
  | zero => exact ⟨fun _ i hi => absurd hi (Nat.not_lt_zero i), nofun⟩
  | succ k ih =>
    obtain ⟨hzr, hone⟩ := ih
    rw [countDiffs]
    generalize countDiffs expected wanted k = found at hzr hone
    dsimp only
    split
    next hne =>
      refine ⟨nofun, fun hcou => ⟨Nat.lt_succ_self k, fun i hi hik => ?_⟩⟩
      exact hzr (Nat.succ.inj hcou) i (Nat.lt_of_le_of_ne (Nat.le_of_lt_succ hi) hik)
    next heq =>
      have hk : expected.getD k 0 = wanted.getD k 0 := not_not.1 heq
      refine ⟨fun hcou i hi => ?_, fun hcou => ⟨Nat.lt_succ_of_lt (hone hcou).1, ?_⟩⟩
      · rcases Nat.lt_succ_iff_lt_or_eq.1 hi with hi | rfl
        · exact hzr hcou i hi
        · exact hk
      · intro i hi hne
        rcases Nat.lt_succ_iff_lt_or_eq.1 hi with hi | rfl
        · exact (hone hcou).2 i hi hne
        · exact hk

theorem getD_windowAt (code : HostCode) (host : ℕ) {i : ℕ} (hi : i < 5) :
    (windowAt code host).getD i 0 = code (host + i) := by
  simp [windowAt, hi]

theorem length_windowAt (code : HostCode) (host : ℕ) : (windowAt code host).length = 5 := by
  simp [windowAt]

/-- Five words are a window if they agree with it one by one. -/
theorem windowAt_eq_of_getD (hlen : words.length = 5)
    (h : ∀ i < 5, code (host + i) = words.getD i 0) : windowAt code host = words := by
  refine List.ext_getElem ((length_windowAt code host).trans hlen.symm) fun i hi hi' => ?_
  have heq := h i (hlen ▸ hi')
  rw [List.getD_eq_getElem _ _ hi'] at heq
  rw [← heq]
  simp [windowAt]

theorem length_synthesizeRIPWindow (regIdx rip : ℕ) :
    (synthesizeRIPWindow regIdx rip).length = 5 := rfl

/-- **A patchable site**: the code holds the window of the old constant, afterwards it holds that of
the new one, and at most one word changes. -/
theorem classifyRIPSite_patchable {oldRIP newRIP : ℕ} {patch : Option WordPatch}
    (h : classifyRIPSite code host oldRIP newRIP = .patchable patch) :
    windowAt code host = synthesizeRIPWindow (ripWindowRegIdx (code host)) oldRIP ∧
      windowAt (patched code patch) host =
        synthesizeRIPWindow (ripWindowRegIdx (code host)) newRIP ∧
      ∃ a, host ≤ a ∧ a < host + 5 ∧ ∀ b, b ≠ a → patched code patch b = code b := by
  unfold classifyRIPSite at h
  generalize hold : synthesizeRIPWindow (ripWindowRegIdx (code host)) oldRIP = expected at h ⊢
  generalize hnew : synthesizeRIPWindow (ripWindowRegIdx (code host)) newRIP = wanted at h ⊢
  have hlen : wanted.length = 5 := hnew ▸ length_synthesizeRIPWindow _ _
  obtain ⟨hzr, hone⟩ := countDiffs_spec expected wanted 5
  rcases hfou : countDiffs expected wanted 5 with ⟨k, count⟩
  -- the pair is substituted before anything unfolds its loop
  change (if windowAt code host ≠ expected then SiteMatch.noMatch
    else match countDiffs expected wanted 5 with
      | (diffIndex, diffCount) =>
        if diffCount = 0 then .patchable none
        else if 1 < diffCount then .multiWord
        else .patchable (some ⟨host + diffIndex, wanted.getD diffIndex 0⟩)) = .patchable patch at h
  rw [hfou] at h hzr hone
  dsimp only at h hzr hone
  split at h
  next => cases h
  next hmat =>
    have hold : windowAt code host = expected := not_not.1 hmat
    have hcd : ∀ i < 5, code (host + i) = expected.getD i 0 := fun i hi => by
      rw [← hold, getD_windowAt code host hi]
    refine ⟨hold, ?_⟩
    split at h
    next hcou =>
      cases h
      refine ⟨windowAt_eq_of_getD hlen fun i hi => ?_, host, le_rfl, by omega, fun _ _ => rfl⟩
      exact (hcd i hi).trans (hzr hcou i hi)
    next hne =>
      split at h
      next => cases h
      next hle =>
        cases h
        obtain ⟨hlt, hoth⟩ := hone (by omega)
        refine ⟨windowAt_eq_of_getD hlen fun i hi => ?_, host + k, by omega, by omega,
          fun b hb => update_of_ne hb _ _⟩
        rw [patched, applyWordPatch]
        by_cases hik : i = k
        · rw [hik, update_self]
        · rw [update_of_ne (show host + i ≠ host + k by omega), hcd i hi, hoth i hi hik]

/-! ### A thread that executes the window meanwhile -/

/-- Words fetched one by one, each from the code before or after the store. -/
def Fetched (before after : HostCode) (host : ℕ) (words : List ℕ) : Prop :=
  words.length = 5 ∧
    ∀ i < 5, words.getD i 0 = before (host + i) ∨ words.getD i 0 = after (host + i)

/-- If one word changes, a thread fetches the code before the store or the code after it. -/
theorem Fetched.eq_or_eq {before after : HostCode} {a : ℕ} (h : Fetched before after host words)
    (hone : ∀ b, b ≠ a → after b = before b) :
    words = windowAt before host ∨ words = windowAt after host := by
  obtain ⟨hlen, hwr⟩ := h
  have hoth : ∀ i < 5, host + i ≠ a →
      words.getD i 0 = before (host + i) ∧ words.getD i 0 = after (host + i) := by
    intro i hi hne
    rcases hwr i hi with heq | heq
    · exact ⟨heq, heq.trans (hone _ hne).symm⟩
    · exact ⟨heq.trans (hone _ hne), heq⟩
  by_cases hold : ∀ i < 5, words.getD i 0 = before (host + i)
  · exact .inl (windowAt_eq_of_getD hlen fun i hi => (hold i hi).symm).symm
  · -- some word is new, and it is the only one that can be
    push Not at hold
    obtain ⟨k, hk, hnew⟩ := hold
    have hka : host + k = a := by
      by_contra hne
      exact hnew (hoth k hk hne).1
    refine .inr (windowAt_eq_of_getD hlen fun i hi => ?_).symm
    by_cases hik : i = k
    · rw [hik]
      exact ((hwr k hk).resolve_left hnew).symm
    · exact (hoth i hi (by omega)).2.symm

/-- **Patching is exact.**  A window leaves its constant in its register and changes no other.  A
site that is called patchable holds the window of the old constant; with its word written it holds
the window of the new one, and nothing else changes.  A thread that executes the window meanwhile
computes the old constant or the new one. -/
theorem rip_window_patch_exact : (∀ regs regIdx rip, rip < word →
      run regs (synthesizeRIPWindow regIdx rip) = update regs (regIdx % 32) rip) ∧
    ∀ (code : HostCode) (host oldRIP newRIP : ℕ) (patch : Option WordPatch), oldRIP < word →
      newRIP < word → classifyRIPSite code host oldRIP newRIP = .patchable patch →
      let reg := ripWindowRegIdx (code host)
      windowAt (patched code patch) host = synthesizeRIPWindow reg newRIP ∧
        (∃ a, host ≤ a ∧ a < host + 5 ∧ ∀ b, b ≠ a → patched code patch b = code b) ∧
        (∀ regs, run regs (windowAt code host) = update regs reg oldRIP) ∧
        (∀ regs, run regs (windowAt (patched code patch) host) = update regs reg newRIP) ∧
        ∀ regs words, Fetched code (patched code patch) host words →
          run regs words = update regs reg oldRIP ∨ run regs words = update regs reg newRIP := by
  refine ⟨fun regs regIdx rip hrip => run_window regs regIdx hrip, ?_⟩
  intro code host oldRIP newRIP patch hold hnew hst reg
  obtain ⟨hbef, haft, a, ha, ha', hone⟩ := classifyRIPSite_patchable hst
  have hreg : reg % 32 = reg := Nat.mod_eq_of_lt (Nat.mod_lt _ (by decide))
  have hruo : ∀ regs, run regs (windowAt code host) = update regs reg oldRIP := by
    intro regs
    rw [hbef, run_window regs _ hold, hreg]
  have hrun : ∀ regs,
      run regs (windowAt (patched code patch) host) = update regs reg newRIP := by
    intro regs
    rw [haft, run_window regs _ hnew, hreg]
  refine ⟨haft, ⟨a, ha, ha', hone⟩, hruo, hrun, fun regs words hwor => ?_⟩
  rcases hwor.eq_or_eq hone with rfl | rfl
  · exact .inl (hruo regs)
  · exact .inr (hrun regs)

/-- A window of register 5. -/
def sampleCode : HostCode := fun i => (synthesizeRIPWindow 5 0x400000).getD i 0

theorem rip_window_patch_sample : classifyRIPSite sampleCode 0 0x400000 0x400010 =
        .patchable (some ⟨4, dForm 24 5 5 0x10⟩) ∧
      ∀ regs, run regs (windowAt (applyWordPatch sampleCode ⟨4, dForm 24 5 5 0x10⟩) 0) =
        update regs 5 0x400010 := by
  have hreg : ripWindowRegIdx (sampleCode 0) = 5 := by decide
  have hst : classifyRIPSite sampleCode 0 0x400000 0x400010 =
      .patchable (some ⟨4, dForm 24 5 5 0x10⟩) := by
    have hwin : windowAt sampleCode 0 = synthesizeRIPWindow 5 0x400000 := by decide
    have hdif : countDiffs (synthesizeRIPWindow 5 0x400000) (synthesizeRIPWindow 5 0x400010) 5 =
        (4, 1) := by decide
    rw [classifyRIPSite, hreg, if_neg (not_not.2 hwin)]
    simp only [hdif]
    rfl
  refine ⟨hst, fun regs => ?_⟩
  have hrun := (rip_window_patch_exact.2 sampleCode 0 0x400000 0x400010 _ (by decide) (by decide)
    hst).2.2.2.1 regs
  rwa [hreg] at hrun

end FastPPC.Smc
