import FastPPC.Machine.Basic

/-!
# The memo of `MarkGuestExecutableRange`

Most pages that get compiled code are in private mappings that cannot be written, and there is
nothing to protect.  `VMATracking` remembers this verdict in a table that is read without the lock.
A word of the table holds the page and the low half of the *generation* of the VMA map, which every
mutation raises before it changes the map; when the low half becomes zero the generation is raised
once more and the table is cleared.

A reader loads the generation, asks the table, and if the answer is no inspects the map under the
shared lock and may record its verdict; writers raise the generation and change the map under the
exclusive lock.  The steps interleave in every order that the lock allows.

* `isMarkNoOp_current` : **a positive answer is a verdict on the current map, in every run in which
  the generation does not change between the load and the answer, no wrap happens between the load
  and the record, and no load happens during a wrap.**

The generation is a number here; the code has its remainder modulo `2 ^ 64`, of which only the low
half is used.  `verdict` is the map that the verdict of a slot is about.
-/

namespace FastPPC

namespace Vma.MarkMemo

open Function List

/-! ### The words of the table -/

/-- The slots of the table; there are `2 ^ MarkNoOpIndexBits`. -/
abbrev Slot := Fin 512

def markNoOpIndex (pageBase : ℕ) : Slot := Fin.ofNat 512 (pageBase / 2 ^ 12)

/-- The word for a page and a generation; zero is an empty slot. -/
def encodeMarkNoOp (pageBase gen : ℕ) : Option ℕ :=
  let tag := pageBase / 2 ^ 12 / 2 ^ 9
  if tag / 2 ^ 32 ≠ 0 then none
  else if tag * 2 ^ 32 + gen % 2 ^ 32 = 0 then none else some (tag * 2 ^ 32 + gen % 2 ^ 32)

theorem encodeMarkNoOp_eq_some {base gen e : ℕ} (h : encodeMarkNoOp base gen = some e) :
    e = base / 2 ^ 12 / 2 ^ 9 * 2 ^ 32 + gen % 2 ^ 32 ∧ e ≠ 0 := by
  unfold encodeMarkNoOp at h
  dsimp only at h
  split at h
  · cases h
  split at h
  · cases h
  · rename_i hne
    obtain rfl := Option.some.inj h
    exact ⟨rfl, hne⟩

/-- A word of a slot tells its page and the low half of its generation. -/
theorem encodeMarkNoOp_inj {base base' gen gen' e : ℕ} (h : encodeMarkNoOp base gen = some e)
    (h' : encodeMarkNoOp base' gen' = some e) (hind : markNoOpIndex base = markNoOpIndex base')
    (hbs : base % 2 ^ 12 = 0) (hbs' : base' % 2 ^ 12 = 0) :
    base = base' ∧ gen % 2 ^ 32 = gen' % 2 ^ 32 := by
  have he := (encodeMarkNoOp_eq_some h).1
  have he' := (encodeMarkNoOp_eq_some h').1
  have hlow : base / 2 ^ 12 % 512 = base' / 2 ^ 12 % 512 := congrArg Fin.val hind
  omega

/-! ### Readers and writers -/

/-- Where the writer is. -/
inductive Phase
  | locked
  /-- The generation was raised; the map may change. -/
  | bumped
  /-- The low half became zero. -/
  | wrapped
  /-- The slots from this one on are still to be cleared. -/
  | clearing (slot : Slot)

/-- In the middle of a wrap. -/
def Phase.wrapping : Phase → Bool
  | .wrapped | .clearing _ => true
  | .locked | .bumped => false

/-- Where a reader is. -/
inductive Pc (M : Type)
  | idle
  /-- The generation was loaded. -/
  | sampled (base gen : ℕ)
  /-- The table did not help. -/
  | missed (base gen : ℕ)
  /-- The map was inspected, and the shared lock is held. -/
  | holding (base gen : ℕ) (map : M)

def Pc.isHolding {M : Type} : Pc M → Bool
  | .holding _ _ _ => true
  | _ => false

structure State (M T : Type) where
  map : M
  generation : ℕ
  markNoOpCache : Slot → ℕ
  /-- The map that the verdict in a slot is about. -/
  verdict : Slot → Option M
  writer : Option Phase
  pc : T → Pc M

inductive Action (M T : Type)
  | lock
  | bump
  /-- The second addition of a wrap. -/
  | skip
  | clear
  | mutate (map : M)
  | unlock
  | sample (t : T) (start : ℕ)
  | answer (t : T)
  | inspect (t : T)
  | record (t : T)

namespace State

variable {M T : Type}

def start (map : M) : State M T where
  map := map
  generation := 1
  markNoOpCache _ := 0
  verdict _ := none
  writer := none
  pc _ := .idle

section Step

variable (s : State M T)

def isMarkNoOp (pageBase gen : ℕ) : Bool :=
  match encodeMarkNoOp pageBase gen with
  | none => false
  | some entry => s.markNoOpCache (markNoOpIndex pageBase) = entry

/-- `RecordMarkNoOp` for a verdict on `map`. -/
def recordMarkNoOp (pageBase gen : ℕ) (map : M) : State M T :=
  match encodeMarkNoOp pageBase gen with
  | none => s
  | some entry =>
    { s with
      markNoOpCache := update s.markNoOpCache (markNoOpIndex pageBase) entry
      verdict := update s.verdict (markNoOpIndex pageBase) (some map) }

variable [DecidableEq T]

def goto (t : T) (pc : Pc M) : State M T := { s with pc := update s.pc t pc }

/-- The first addition of `BumpGeneration`. -/
def bump : State M T :=
  { s with
    generation := s.generation + 1
    writer := some (if (s.generation + 1) % 2 ^ 32 = 0 then .wrapped else .bumped) }

/-- One round of the loop that drops the table. -/
def clearSlot (i : Slot) : State M T :=
  { s with
    markNoOpCache := update s.markNoOpCache i 0
    writer := some (if h : i.val + 1 < 512 then .clearing ⟨i.val + 1, h⟩ else .bumped) }

variable [Fintype T] (nothing : M → ℕ → Bool)

/-- One step; `nothing map page` is the verdict of the walk.  An action that is not possible changes
nothing. -/
def step : Action M T → State M T
  | .lock =>
    if s.writer = none ∧ ∀ t, (s.pc t).isHolding = false then { s with writer := some .locked }
    else s
  | .bump =>
    match s.writer with
    | some .locked | some .bumped => s.bump
    | _ => s
  | .skip =>
    match s.writer with
    | some .wrapped => { s with generation := s.generation + 1, writer := some (.clearing 0) }
    | _ => s
  | .clear =>
    match s.writer with
    | some (.clearing i) => s.clearSlot i
    | _ => s
  | .mutate map =>
    match s.writer with
    | some .bumped => { s with map := map }
    | _ => s
  | .unlock =>
    match s.writer with
    | some .locked | some .bumped => { s with writer := none }
    | _ => s
  | .sample t start =>
    match s.pc t with
    | .idle => s.goto t (.sampled (start / 2 ^ 12 * 2 ^ 12) s.generation)
    | _ => s
  | .answer t =>
    match s.pc t with
    | .sampled base gen => s.goto t (if s.isMarkNoOp base gen then .idle else .missed base gen)
    | _ => s
  | .inspect t =>
    match s.pc t, s.writer with
    | .missed base gen, none => s.goto t (.holding base gen s.map)
    | _, _ => s
  | .record t =>
    match s.pc t with
    | .holding base gen map =>
      (if nothing map base then s.recordMarkNoOp base gen map else s).goto t .idle
    | _ => s

def machine : Machine (State M T) (Action M T) := .ofFun fun s => s.step nothing

/-- The condition of the main result, on the state before a step: the generation is not loaded
during a wrap, not raised between the load and the answer, and did not wrap between the load and the
record. -/
def Careful : Action M T → Prop
  | .sample _ _ => ∀ p, s.writer = some p → p.wrapping = false
  | .answer t => ∀ base gen, s.pc t = .sampled base gen → gen = s.generation
  | .record t => ∀ base gen map, s.pc t = .holding base gen map →
    gen / 2 ^ 32 = s.generation / 2 ^ 32
  | _ => True

end Step

/-! ### The invariant -/

variable {s : State M T} {nothing : M → ℕ → Bool}

def Raised (s : State M T) : Prop := s.writer ≠ none ∧ s.writer ≠ some .locked

/-- The slot waits to be cleared. -/
def Doomed (s : State M T) (i : Slot) : Prop :=
  s.writer = some .wrapped ∨ ∃ j ≤ i, s.writer = some (.clearing j)

/-- What holds of a slot with a word: it was recorded for a page and a generation. -/
def Recorded (nothing : M → ℕ → Bool) (s : State M T) (i : Slot) : Prop :=
  ∃ base gen map, base % 2 ^ 12 = 0 ∧ markNoOpIndex base = i ∧
    encodeMarkNoOp base gen = some (s.markNoOpCache i) ∧ s.verdict i = some map ∧
    nothing map base = true ∧ gen ≤ s.generation ∧
    (gen / 2 ^ 32 = s.generation / 2 ^ 32 ∨ s.Doomed i) ∧
    (gen = s.generation → map = s.map ∧ ¬s.Raised)

/-- What holds of the page and the generation that a reader goes on with. -/
structure Sampled (s : State M T) (base gen : ℕ) : Prop where
  aligned : base % 2 ^ 12 = 0
  low : gen % 2 ^ 32 ≠ 0
  le : gen ≤ s.generation
  steady : gen = s.generation → ∀ p, s.writer = some p → p.wrapping = false

/-- What holds of a reader. -/
def Good (s : State M T) : Pc M → Prop
  | .idle => True
  | .sampled base gen | .missed base gen => s.Sampled base gen
  | .holding base gen map => s.Sampled base gen ∧ map = s.map ∧ s.writer = none

/-- The low half of the generation is zero only in the middle of a wrap. -/
def Stamped (s : State M T) : Prop :=
  (s.writer ≠ some .wrapped → s.generation % 2 ^ 32 ≠ 0) ∧
    (s.writer = some .wrapped → s.generation % 2 ^ 32 = 0)

structure Inv (nothing : M → ℕ → Bool) (s : State M T) : Prop where
  slots : ∀ i, s.markNoOpCache i ≠ 0 → Recorded nothing s i
  readers : ∀ t, s.Good (s.pc t)
  stamped : s.Stamped

/-! ### The steps of the writer -/

/-- A reader without the lock depends on the generation and the writer only. -/
theorem Good.mono {s' : State M T} {pc : Pc M} (hg : s.Good pc)
    (hsam : ∀ {base gen}, s.Sampled base gen → s'.Sampled base gen)
    (hfr : ∀ base gen map, pc ≠ .holding base gen map) : s'.Good pc := by
  cases pc with
  | idle => trivial
  | sampled base gen | missed base gen => exact hsam hg
  | holding base gen map => exact absurd rfl (hfr base gen map)

theorem Doomed.wrapping {i : Slot} (h : s.Doomed i) :
    ∃ p, s.writer = some p ∧ p.wrapping = true := by
  rcases h with h | ⟨j, -, h⟩
  · exact ⟨_, h, rfl⟩
  · exact ⟨_, h, rfl⟩

section

variable (hI : Inv nothing s)
include hI

theorem not_holding (hw : s.writer ≠ none) (t : T) {base gen : ℕ} {map : M} :
    s.pc t ≠ .holding base gen map := by
  intro hpc
  have hg := hI.readers t
  rw [hpc] at hg
  exact hw hg.2.2

/-- The generation is raised: no slot and no reader has the new one. -/
theorem Inv.raise {p : Phase} (hw : s.writer ≠ none)
    (hdoo : (s.generation + 1) / 2 ^ 32 = s.generation / 2 ^ 32 ∧ (∀ i, ¬s.Doomed i) ∨
      p = .wrapped ∨ p = .clearing 0)
    (hsta : ({ s with generation := s.generation + 1, writer := some p } : State M T).Stamped) :
    Inv nothing { s with generation := s.generation + 1, writer := some p } := by
  refine ⟨fun i hi => ?_, fun t => ?_, hsta⟩
  · obtain ⟨base, gen, map, hbs, hind, hwr, hver, hnot, hle, hepo, -⟩ :=
      hI.slots i hi
    refine ⟨base, gen, map, hbs, hind, hwr, hver, hnot, Nat.le_succ_of_le hle, ?_,
      fun hgen => absurd hle (by dsimp only at hgen; omega)⟩
    rcases hdoo with ⟨hsm, hfr⟩ | rfl | rfl
    · exact .inl ((hepo.resolve_right (hfr i)).trans hsm.symm)
    · exact .inr (.inl rfl)
    · exact .inr (.inr ⟨0, Fin.zero_le i, rfl⟩)
  · refine (hI.readers t).mono ?_ fun _ _ _ => not_holding hI hw t
    rintro base gen ⟨hbs, hlow, hle, -⟩
    refine ⟨hbs, hlow, Nat.le_succ_of_le hle, fun hgen => absurd hle ?_⟩
    dsimp only at hgen
    omega

theorem Inv.setWriter {w : Option Phase} (hfr : ∀ t base gen map, s.pc t ≠ .holding base gen map)
    (hold : ∀ p, s.writer = some p → p.wrapping = false) (hnew : w = none ∨ w = some .locked) :
    Inv nothing { s with writer := w } := by
  have hste : ∀ p, w = some p → p.wrapping = false := by
    rintro p rfl
    rcases hnew with h | h <;> cases h
    rfl
  refine ⟨fun i hi => ?_, fun t => ?_, ?_, ?_⟩
  · obtain ⟨base, gen, map, hbs, hind, hwo, hver, hnot, hle, hepo, hcur⟩ :=
      hI.slots i hi
    refine ⟨base, gen, map, hbs, hind, hwo, hver, hnot, hle, .inl ?_, fun hgen => ?_⟩
    · refine hepo.resolve_right fun hdoo => ?_
      obtain ⟨p, hp, hwr⟩ := hdoo.wrapping
      rw [hold p hp] at hwr
      cases hwr
    · exact ⟨(hcur hgen).1, fun hrai => hnew.elim hrai.1 hrai.2⟩
  · exact (hI.readers t).mono (fun h => ⟨h.aligned, h.low, h.le, fun _ => hste⟩) (hfr t)
  · intro _
    exact hI.stamped.1 fun h => absurd (hold _ h) (by decide)
  · intro h
    exact absurd (hste _ h) (by decide)

theorem Inv.clearSlot {i : Slot} (hw : s.writer = some (.clearing i)) :
    Inv nothing (s.clearSlot i) := by
  have hrai : s.Raised := by
    rw [Raised, hw]
    exact ⟨nofun, nofun⟩
  refine ⟨fun j hj => ?_, fun t => ?_, ?_, ?_⟩
  · have hji : j ≠ i := by
      rintro rfl
      exact hj (update_self _ _ _)
    have hcac : (s.clearSlot i).markNoOpCache j = s.markNoOpCache j := update_of_ne hji _ _
    rw [hcac] at hj
    obtain ⟨base, gen, map, hbs, hind, hwr, hver, hnot, hle, hepo, hcur⟩ :=
      hI.slots j hj
    refine ⟨base, gen, map, hbs, hind, hcac ▸ hwr, hver, hnot, hle,
      hepo.imp_right fun hdoo => ?_, fun hgen => absurd hrai (hcur hgen).2⟩
    -- the slots after this one still wait
    have hij : i < j := by
      rcases hdoo with h | ⟨k, hk, h⟩
      · cases hw.symm.trans h
      · obtain rfl : i = k := by simpa using hw.symm.trans h
        exact lt_of_le_of_ne hk hji.symm
    have hnx : i.val + 1 < 512 := lt_of_le_of_lt hij j.isLt
    exact .inr ⟨⟨i.val + 1, hnx⟩, hij, congrArg some (dif_pos hnx)⟩
  · refine (hI.readers t).mono (fun h => ⟨h.aligned, h.low, h.le, fun hgen => ?_⟩) fun _ _ _ => ?_
    · exact absurd (h.steady hgen _ hw) (by simp [Phase.wrapping])
    · exact not_holding hI hrai.1 t
  · intro _
    exact hI.stamped.1 (by rw [hw]; nofun)
  · intro h
    unfold State.clearSlot at h
    split at h <;> cases h

theorem Inv.mutate (hw : s.writer = some .bumped) (map : M) :
    Inv nothing { s with map := map } := by
  refine ⟨fun i hi => ?_, fun t => ?_, hI.stamped⟩
  · obtain ⟨base, gen, map, hbs, hind, hwr, hver, hnot, hle, hepo, hcur⟩ :=
      hI.slots i hi
    refine ⟨base, gen, map, hbs, hind, hwr, hver, hnot, hle, hepo, fun hgen => ?_⟩
    refine absurd ?_ (hcur hgen).2
    rw [Raised, hw]
    exact ⟨nofun, nofun⟩
  · refine (hI.readers t).mono (fun h => ⟨h.aligned, h.low, h.le, h.steady⟩) fun _ _ _ => ?_
    exact not_holding hI (by rw [hw]; nofun) t

theorem Inv.bump [DecidableEq T] (hw : s.writer ≠ none)
    (hste : ∀ p, s.writer = some p → p.wrapping = false) : Inv nothing s.bump := by
  have hfr : ∀ i, ¬s.Doomed i := by
    intro i hdoo
    obtain ⟨p, hp, hwr⟩ := hdoo.wrapping
    rw [hste p hp] at hwr
    cases hwr
  refine hI.raise hw ?_ ⟨fun h => ?_, fun h => ?_⟩
  · by_cases hzr : (s.generation + 1) % 2 ^ 32 = 0
    · rw [if_pos hzr]
      exact .inr (.inl rfl)
    · exact .inl ⟨by omega, hfr⟩
  · intro hzr
    exact h (congrArg some (if_pos hzr))
  · by_contra hzr
    cases (congrArg some (if_neg hzr)).symm.trans h

end

/-! ### The steps of a reader -/

theorem Good.congr {s' : State M T} {pc : Pc M} (hg : s.Good pc) (hmap : s'.map = s.map)
    (hgen : s'.generation = s.generation) (hw : s'.writer = s.writer) : s'.Good pc := by
  have hsam : ∀ {base gen}, s.Sampled base gen → s'.Sampled base gen := fun h =>
    ⟨h.aligned, h.low, hgen ▸ h.le, fun hg p hp => h.steady (hgen ▸ hg) p (hw ▸ hp)⟩
  cases pc with
  | idle => trivial
  | sampled base gen | missed base gen => exact hsam hg
  | holding base gen map => exact ⟨hsam hg.1, hg.2.1.trans hmap.symm, hw.trans hg.2.2⟩

theorem Inv.goto [DecidableEq T] (hI : Inv nothing s) {t : T} {pc : Pc M} (hg : s.Good pc) :
    Inv nothing (s.goto t pc) := by
  refine ⟨hI.slots, fun t' => ?_, hI.stamped⟩
  have hgd : s.Good (update s.pc t pc t') := by
    rw [update_apply]
    split
    · exact hg
    · exact hI.readers t'
  exact hgd.congr rfl rfl rfl

theorem Inv.recordMarkNoOp (hI : Inv nothing s) {base gen : ℕ} {map : M}
    (hg : s.Good (.holding base gen map)) (hepo : gen / 2 ^ 32 = s.generation / 2 ^ 32)
    (hnot : nothing map base = true) : Inv nothing (s.recordMarkNoOp base gen map) := by
  obtain ⟨hsam, rfl, hw⟩ := hg
  unfold State.recordMarkNoOp
  split
  · exact hI
  · rename_i entry hent
    refine ⟨fun i hi => ?_, fun t => (hI.readers t).congr rfl rfl rfl, hI.stamped⟩
    by_cases hind : i = markNoOpIndex base
    · subst hind
      refine ⟨base, gen, s.map, hsam.aligned, rfl, ?_, update_self _ _ _, hnot,
        hsam.le, .inl hepo, fun _ => ⟨rfl, fun hrai => hrai.1 hw⟩⟩
      rw [hent]
      exact congrArg some (update_self (markNoOpIndex base) entry s.markNoOpCache).symm
    · have hcac : update s.markNoOpCache (markNoOpIndex base) entry i =
          s.markNoOpCache i := update_of_ne hind _ _
      obtain ⟨base', gen', map', hbs, hind', hwr, hver, hrs⟩ :=
        hI.slots i (hcac ▸ hi)
      exact ⟨base', gen', map', hbs, hind', hwr.trans (congrArg some hcac.symm),
        (update_of_ne hind _ _).trans hver, hrs⟩

variable [DecidableEq T] [Fintype T]

theorem Inv.step (hI : Inv nothing s) {a : Action M T} (ha : s.Careful a) :
    Inv nothing (s.step nothing a) := by
  unfold State.step
  cases a with
  | lock =>
    dsimp only
    split
    · rename_i h
      refine hI.setWriter (fun t base gen map hpc => ?_) (fun p hp => ?_) (.inr rfl)
      · have hfr := h.2 t
        rw [hpc] at hfr
        cases hfr
      · cases h.1.symm.trans hp
    · exact hI
  | bump =>
    dsimp only
    split
    case h_3 => exact hI
    all_goals
      rename_i hw
      exact hI.bump (by rw [hw]; nofun) (fun p hp => by cases hw.symm.trans hp; rfl)
  | skip =>
    dsimp only
    split
    · rename_i hw
      have hzr := hI.stamped.2 hw
      refine hI.raise (by rw [hw]; nofun) (.inr (.inr rfl)) ⟨fun _ => ?_, fun h => ?_⟩
      · dsimp only
        omega
      · cases h
    · exact hI
  | clear =>
    dsimp only
    split
    · rename_i i hw
      exact hI.clearSlot hw
    · exact hI
  | mutate map =>
    dsimp only
    split
    · rename_i hw
      exact hI.mutate hw map
    · exact hI
  | unlock =>
    dsimp only
    split
    case h_3 => exact hI
    all_goals
      rename_i hw
      exact hI.setWriter (fun t _ _ _ => not_holding hI (by rw [hw]; nofun) t)
        (fun p hp => by cases hw.symm.trans hp; rfl) (.inl rfl)
  | sample t start =>
    dsimp only
    split
    · refine hI.goto ⟨Nat.mul_mod_left _ _, hI.stamped.1 fun hw => ?_, le_rfl, fun _ => ha⟩
      exact absurd (ha _ hw) (by decide)
    · exact hI
  | answer t =>
    dsimp only
    split
    · rename_i base gen hpc
      have hg : s.Good (.sampled base gen) := hpc ▸ hI.readers t
      refine hI.goto ?_
      split
      · trivial
      · exact hg
    · exact hI
  | inspect t =>
    dsimp only
    split
    · rename_i base gen hpc hw
      have hg : s.Good (.missed base gen) := hpc ▸ hI.readers t
      exact hI.goto ⟨hg, rfl, hw⟩
    · exact hI
  | record t =>
    dsimp only
    split
    · rename_i base gen map hpc
      have hg : s.Good (.holding base gen map) := hpc ▸ hI.readers t
      split
      · rename_i hnot
        exact (hI.recordMarkNoOp hg (ha base gen map hpc) hnot).goto trivial
      · exact hI.goto trivial
    · exact hI

omit [DecidableEq T] [Fintype T] in
theorem Inv.start (map : M) : Inv nothing (start (T := T) map) where
  slots _ hi := absurd rfl hi
  readers _ := trivial
  stamped := ⟨fun _ => (by decide : 1 % 2 ^ 32 ≠ 0), nofun⟩

/-- **A positive answer is a verdict on the current map**, in every run with careful steps. -/
theorem isMarkNoOp_current {map₀ : M} {as : List (Action M T)}
    (hrun : (machine nothing).Run Careful (start map₀) as s) {t : T} {base gen : ℕ}
    (hpc : s.pc t = .sampled base gen) (hcareful : s.Careful (.answer t))
    (hyes : s.isMarkNoOp base gen = true) :
    s.verdict (markNoOpIndex base) = some s.map ∧ nothing s.map base = true := by
  have hI : Inv nothing s := by
    refine hrun.invariant (I := Inv nothing) (.start map₀) ?_
    rintro s a s' hI ha rfl
    exact hI.step ha
  obtain ⟨hbs, hlow, -, hste⟩ : s.Good (.sampled base gen) := hpc ▸ hI.readers t
  have hgen := hcareful base gen hpc
  unfold isMarkNoOp at hyes
  split at hyes
  · cases hyes
  rename_i entry hent
  have hcac : s.markNoOpCache (markNoOpIndex base) = entry := of_decide_eq_true hyes
  obtain ⟨base', gen', map, hbs', hind, hwo, hver, hnot, -, hepo, hcur⟩ :=
    hI.slots (markNoOpIndex base) (hcac ▸ (encodeMarkNoOp_eq_some hent).2)
  rw [hcac] at hwo
  obtain ⟨rfl, hhl⟩ := encodeMarkNoOp_inj hwo hent hind hbs' hbs
  -- no wrap is under way, so the slot has the generation of the reader
  have hsm : gen' = s.generation := by
    have hhg := hepo.resolve_right fun hdoo => by
      obtain ⟨p, hp, hwr⟩ := hdoo.wrapping
      rw [hste hgen p hp] at hwr
      cases hwr
    omega
  obtain ⟨rfl, -⟩ := hcur hsm
  exact ⟨hver, hnot⟩

/-! ### Runs with two readers, over a map that is one writable bit -/

section Samples

/-- There is nothing to mark as long as the bit is off. -/
abbrev bitVerdict (bit : Bool) (_ : ℕ) : Bool := !bit

abbrev BitAction := Action Bool (Fin 2)

local instance neZero_reader : NeZero 2 := ⟨by decide⟩

abbrev BitState := State Bool (Fin 2)

def runs (s : BitState) (as : List BitAction) : BitState :=
  as.foldl (fun s => s.step bitVerdict) s

/-- A reader records its verdict on the first page. -/
def records (t : Fin 2) : List BitAction := [.sample t 0, .answer t, .inspect t, .record t]

def mutation (bit : Bool) : List BitAction := [.lock, .bump, .mutate bit, .unlock]

/-- A verdict is recorded and asked for. -/
def sampleActions : List BitAction := records 0 ++ [.sample 1 0]

/-- `Careful` as a test. -/
def carefulCheck (s : BitState) : BitAction → Bool
  | .sample _ _ => (s.writer.all fun p => !p.wrapping)
  | .answer t =>
    match s.pc t with
    | .sampled _ gen => gen = s.generation
    | _ => true
  | .record t =>
    match s.pc t with
    | .holding _ gen _ => gen / 2 ^ 32 = s.generation / 2 ^ 32
    | _ => true
  | _ => true

theorem careful_of_check (s : BitState) (a : BitAction) (h : carefulCheck s a = true) :
    s.Careful a := by
  cases a with
  | sample t start =>
    intro p hp
    simpa [carefulCheck, hp] using h
  | answer t =>
    intro base gen hpc
    simpa [carefulCheck, hpc] using h
  | record t =>
    intro base gen map hpc
    simpa [carefulCheck, hpc] using h
  | _ => trivial

theorem isMarkNoOp_current_sample : (runs (start false) sampleActions).isMarkNoOp 0 1 = true ∧
      (runs (start false) sampleActions).verdict 0 = some false := by
  have hrun : (machine bitVerdict).Run Careful (start false) sampleActions
      (runs (start false) sampleActions) :=
    Machine.Run.of_checked careful_of_check (by decide)
  have hyes : (runs (start false) sampleActions).isMarkNoOp 0 1 = true := by decide
  have hpc : (runs (start false) sampleActions).pc 1 = .sampled 0 1 := rfl
  have hcar : (runs (start false) sampleActions).Careful (.answer 1) :=
    careful_of_check _ _ (by decide)
  exact ⟨hyes, (isMarkNoOp_current hrun hpc hcar hyes).1⟩

/-! Mutations one after another only raise the generation. -/

theorem runs_append (s : BitState) (as bs : List BitAction) :
    runs s (as ++ bs) = runs (runs s as) bs := foldl_append

theorem runs_mutation {s : BitState} (hw : s.writer = none)
    (hfr : ∀ t, (s.pc t).isHolding = false) (hlow : (s.generation + 1) % 2 ^ 32 ≠ 0) (bit : Bool) :
    runs s (mutation bit) = { s with generation := s.generation + 1, map := bit } := by
  simp only [runs, mutation, foldl_cons, foldl_nil, State.step, hw, hfr, State.bump,
    if_neg hlow, implies_true, and_self, if_true]

def mutations (n : ℕ) (bit : Bool) : List BitAction := (replicate n (mutation bit)).flatten

theorem runs_mutations (n : ℕ) (bit : Bool) {s : BitState} (hw : s.writer = none)
    (hfr : ∀ t, (s.pc t).isHolding = false) (hlow : s.generation % 2 ^ 32 + n < 2 ^ 32) :
    runs s (mutations n bit) =
      { s with generation := s.generation + n, map := if n = 0 then s.map else bit } := by
  induction n generalizing s with
  | zero => rfl
  | succ n ih =>
    have hrs := ih (s := { s with generation := s.generation + 1, map := bit }) hw hfr
      (by dsimp only; omega)
    rw [mutations, replicate_succ, flatten_cons, runs_append,
      runs_mutation hw hfr (by omega)]
    refine hrs.trans ?_
    rw [if_neg n.succ_ne_zero, ite_self, Nat.add_assoc, Nat.add_comm 1]

/-- Clearing an empty table only moves the writer on. -/
theorem step_clear {s : BitState} {i : Slot} (hw : s.writer = some (.clearing i))
    (hemp : s.markNoOpCache = fun _ => 0) :
    s.step bitVerdict .clear = { s with
      writer := some (if h : i.val + 1 < 512 then .clearing ⟨i.val + 1, h⟩ else .bumped) } := by
  rw [State.step, hw]
  dsimp only [clearSlot]
  rw [hemp, update_eq_self i fun _ => 0]

theorem runs_clear (k : ℕ) {s : BitState} {i : Slot} (hk : i.val + k + 1 = 512)
    (hw : s.writer = some (.clearing i)) (hemp : s.markNoOpCache = fun _ => 0) :
    runs s (replicate (k + 1) .clear) = { s with writer := some .bumped } := by
  induction k generalizing s i with
  | zero =>
    rw [replicate_one, runs, foldl_cons, foldl_nil, step_clear hw hemp,
      dif_neg (by omega)]
  | succ k ih =>
    have hnx : i.val + 1 < 512 := by omega
    rw [replicate_succ, runs, foldl_cons, step_clear hw hemp, dif_pos hnx]
    exact ih (i := ⟨i.val + 1, hnx⟩) (by dsimp only; omega) rfl hemp

def wrap : List BitAction := [.lock, .bump, .skip] ++ replicate 512 .clear ++ [.unlock]

theorem runs_wrap {s : BitState} (hw : s.writer = none) (hfr : ∀ t, (s.pc t).isHolding = false)
    (hlow : (s.generation + 1) % 2 ^ 32 = 0) (hemp : s.markNoOpCache = fun _ => 0) :
    runs s wrap = { s with generation := s.generation + 2 } := by
  have hbm : runs s [.lock, .bump, .skip] =
      { s with generation := s.generation + 2, writer := some (.clearing 0) } := by
    simp only [runs, foldl_cons, foldl_nil, State.step, hw, hfr, State.bump,
      if_pos hlow, implies_true, and_self, if_true]
  have hcle : runs { s with generation := s.generation + 2, writer := some (.clearing 0) }
      (replicate 512 .clear) =
      { s with generation := s.generation + 2, writer := some .bumped } :=
    runs_clear 511 rfl rfl hemp
  rw [wrap, runs_append, runs_append, hbm, hcle]
  simp [runs, State.step, hw]

/-- The generation is raised between the load of the second reader and its answer. -/
def staleSample : List BitAction := records 0 ++ [.sample 1 0] ++ mutation true

/-- The first reader loads the last generation before a wrap and records its verdict after it; the
second one asks when the low half has come round to that generation, `n` mutations later. -/
def staleWrap (n : ℕ) : List BitAction :=
  mutations n false ++ [.sample 0 0, .answer 0] ++ wrap ++ [.inspect 0, .record 0] ++
    mutations n true ++ [.sample 1 0]

/-- The state before the wrap: the first reader has loaded the generation. -/
def beforeWrap : BitState :=
  runs { start false with generation := 2 ^ 32 - 1 } [.sample 0 0, .answer 0]

/-- The state in which the verdict is recorded. -/
def afterWrap : BitState :=
  runs { beforeWrap with generation := 2 ^ 32 + 1 } [.inspect 0, .record 0]

theorem runs_staleWrap {n : ℕ} (hn : n + 2 = 2 ^ 32) : runs (start false) (staleWrap n) =
      runs { afterWrap with generation := 2 ^ 33 - 1, map := true } [.sample 1 0] := by
  have hfir : runs (start false) (mutations n false) =
      { start (T := Fin 2) false with generation := 2 ^ 32 - 1 } := by
    rw [runs_mutations n false rfl (fun _ => rfl) (by simp only [start]; omega)]
    have hgen : 1 + n = 2 ^ 32 - 1 := by omega
    simp [start, hgen]
  have hwr : runs beforeWrap wrap = { beforeWrap with generation := 2 ^ 32 + 1 } :=
    runs_wrap rfl (by decide) (by decide) rfl
  have hsec : runs afterWrap (mutations n true) =
      { afterWrap with generation := 2 ^ 33 - 1, map := true } := by
    have hgen : afterWrap.generation = 2 ^ 32 + 1 := rfl
    rw [runs_mutations n true rfl (by decide) (by rw [hgen]; omega), hgen]
    have hsum : 2 ^ 32 + 1 + n = 2 ^ 33 - 1 := by omega
    rw [hsum, if_neg (by omega)]
  simp only [staleWrap, runs_append]
  rw [hfir]
  change runs (runs (runs (runs beforeWrap wrap) _) _) _ = _
  rw [hwr]
  change runs (runs afterWrap _) _ = _
  rw [hsec]

/-- **A positive answer on a map that has changed**: after a mutation between the load and the
answer, and after a wrap between the load and the record. -/
theorem stale_answers : ((runs (start false) staleSample).pc 1 = .sampled 0 1 ∧
      (runs (start false) staleSample).isMarkNoOp 0 1 = true ∧
      (runs (start false) staleSample).map = true) ∧
    (runs (start false) (staleWrap 4294967294)).pc 1 = .sampled 0 (2 ^ 33 - 1) ∧
      (runs (start false) (staleWrap 4294967294)).generation = 2 ^ 33 - 1 ∧
      (runs (start false) (staleWrap 4294967294)).isMarkNoOp 0 (2 ^ 33 - 1) = true ∧
      (runs (start false) (staleWrap 4294967294)).map = true := by
  refine ⟨⟨rfl, by decide, by decide⟩, ?_⟩
  rw [runs_staleWrap (by omega)]
  exact ⟨rfl, rfl, by decide, rfl⟩

end Samples

end State

end Vma.MarkMemo

end FastPPC
