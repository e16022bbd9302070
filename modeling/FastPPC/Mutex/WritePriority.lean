import FastPPC.Machine.Basic

/-!
# The write-priority mutex

`WritePriorityMutex::Mutex` (`FEXCore/Utils/WritePriorityMutex.h`) keeps a reader-writer lock in
one 32-bit word: bit 31 says that a writer owns it, bit 30 that readers wait, bits 29 to 16 count
the writers that wait and bits 15 to 0 the readers that own it.  A thread that must wait sleeps
in a futex wait on the word, and who changes the word wakes it with a second call, after the
change.

`moves` lists what one thread can do next: one atomic access to the word, a futex wait (which
sleeps only if the word still has the value the thread passes), a spurious wake-up or a timeout.
`Mutex.next` adds the two calls that wake other threads.  The argument counts threads by what
they do for the lock (`Role`):

* `Inv` : the word is made of the counts, and whoever sleeps on a lock that is free is owed a
  wake-up by a thread that is awake;
* `Inv.moves` : every move of a thread keeps it;
* `excludes_and_wakes` : so do all runs of fewer threads than the waiter count can hold.
-/

namespace FastPPC

open Multiset

namespace Mutex

/-! ## The word -/

section Word

variable (w i k : ℕ)

/-- The bit `WRITE_OWNED_BIT`. -/
def writeOwned : ℕ := w / 2 ^ 31 % 2

/-- The bit `READ_WAITER_BIT`. -/
def readWaiter : ℕ := w / 2 ^ 30 % 2

/-- The field under `WRITE_WAITER_COUNT_MASK`. -/
def writeWaiters : ℕ := w / 2 ^ 16 % 2 ^ 14

/-- The field under `READ_OWNER_COUNT_MASK`. -/
def readOwners : ℕ := w % 2 ^ 16

/-- `w | (1 << i)`. -/
def setBit : ℕ := w + 2 ^ i * (1 - w / 2 ^ i % 2)

/-- `w & ~(1 << i)`. -/
def clearBit : ℕ := w - 2 ^ i * (w / 2 ^ i % 2)

/-- `w + k` on 32 bits. -/
def add : ℕ := (w + k) % 2 ^ 32

/-- `w - k` on 32 bits. -/
def sub : ℕ := (w + 2 ^ 32 - k) % 2 ^ 32

end Word

/-- The word with owner bit `o`, read-waiter bit `b`, `k` waiting writers and `r` readers. -/
def Packed (w o b k r : ℕ) : Prop :=
  w = 2 ^ 31 * o + 2 ^ 30 * b + 2 ^ 16 * k + r ∧ o ≤ 1 ∧ b ≤ 1 ∧ k < 2 ^ 14 ∧ r < 2 ^ 16

namespace Packed

variable {w o b k r : ℕ} (h : Packed w o b k r)

include h

theorem fields : writeOwned w = o ∧ readWaiter w = b ∧ writeWaiters w = k ∧ readOwners w = r ∧
    o ≤ 1 ∧ b ≤ 1 := by
  unfold Packed writeOwned readWaiter writeWaiters readOwners at *
  omega

theorem add_waiter (hk : k + 1 < 2 ^ 14) : Packed (add w (2 ^ 16)) o b (k + 1) r := by
  unfold Packed add at *
  omega

theorem sub_waiter (hk : 0 < k) : Packed (sub w (2 ^ 16)) o b (k - 1) r := by
  unfold Packed sub at *
  omega

theorem add_reader (hr : r + 1 < 2 ^ 16) : Packed (add w 1) o b k (r + 1) := by
  unfold Packed add at *
  omega

theorem sub_reader (hr : 0 < r) : Packed (sub w 1) o b k (r - 1) := by
  unfold Packed sub at *
  omega

theorem set_owned : Packed (setBit w 31) 1 b k r := by
  unfold Packed setBit at *
  omega

theorem clear_owned : Packed (clearBit w 31) 0 b k r := by
  unfold Packed clearBit at *
  omega

theorem set_waiter : Packed (setBit w 30) o 1 k r := by
  unfold Packed setBit at *
  omega

theorem clear_waiter : Packed (clearBit w 30) o 0 k r := by
  unfold Packed clearBit at *
  omega

end Packed

theorem readWaiter_setBit (w : ℕ) : readWaiter (setBit w 30) = 1 := by
  unfold readWaiter setBit
  omega

/-! ## The threads -/

/-- Where a thread is.  `expected` is the local variable `Expected` of the call, and a call is
`timed` if it is `try_lock_for`. -/
inductive Pc
  /-- Outside of every call, without the lock. -/
  | idle
  /-- `try_lock` failed inside of `lock` or `try_lock_for`. -/
  | register (timed : Bool)
  /-- In the inner loop of `lock`. -/
  | acquire (timed : Bool) (expected : ℕ)
  | writerAsleep (timed : Bool)
  /-- Back from the futex wait, before the load. -/
  | writerAwake (timed : Bool)
  | timedOut
  /-- In the loop that takes back the registration. -/
  | withdraw (expected : ℕ)
  | writeOwner
  /-- In the loop of `unlock`; the lock is still held. -/
  | unlock (expected : ℕ)
  /-- Before `FutexWakeWriter`. -/
  | wakeWriter
  /-- Before `FutexWakeReaders`. -/
  | wakeReaders
  /-- `try_lock_shared` after its load, `blocking` if `lock_shared` called it. -/
  | tryShared (blocking : Bool) (expected : ℕ)
  /-- In the inner loop of `lock_shared`. -/
  | acquireShared (expected : ℕ)
  /-- Before the futex wait of `lock_shared`. -/
  | waitShared (expected : ℕ)
  | readerAsleep
  | readerAwake
  | readOwner

/-- What a thread can do next with the word `w`, calls that wake others apart. -/
def moves (w : ℕ) : Pc → List (ℕ × Pc)
  | .idle =>
    -- `try_lock`, alone or at the start of `lock` and `try_lock_for`
    (if w = 0 then [(2 ^ 31, .writeOwner)] else [(w, .register false), (w, .register true)]) ++
      [(w, .tryShared false w), (w, .tryShared true w)]
  | .register timed => [(add w (2 ^ 16), .acquire timed (add w (2 ^ 16)))]
  | .acquire timed e =>
    if writeOwned e = 0 ∧ readOwners e = 0 then
      if w = e then [(sub (setBit e 31) (2 ^ 16), .writeOwner)] else [(w, .acquire timed w)]
    else [(w, if w = e then .writerAsleep timed else .writerAwake timed)]
  | .writerAsleep timed => (w, .writerAwake timed) :: if timed then [(w, .timedOut)] else []
  | .writerAwake timed => [(w, .acquire timed w)]
  | .timedOut => [(w, .withdraw w)]
  | .withdraw e =>
    let d := sub e (2 ^ 16)
    if w ≠ e then [(w, .withdraw w)]
    else if writeWaiters d = 0 ∧ readWaiter d = 1 ∧ writeOwned d = 0 then
      [(clearBit d 30, .wakeReaders)]
    else if writeWaiters d ≠ 0 ∧ writeOwned d = 0 ∧ readOwners d = 0 then [(d, .wakeWriter)]
    else [(d, .idle)]
  | .writeOwner => [(w, .unlock w)]
  | .unlock e =>
    let d := clearBit e 31
    if w ≠ e then [(w, .unlock w)]
    else [(if writeWaiters d = 0 then clearBit d 30 else d,
      if writeWaiters e ≠ 0 then .wakeWriter else if readWaiter e = 1 then .wakeReaders else .idle)]
  | .wakeWriter | .wakeReaders => []
  | .tryShared blocking e =>
    if writeOwned e = 0 ∧ writeWaiters e = 0 ∧ w = e then [(add e 1, .readOwner)]
    else [(w, if blocking then .readerAwake else .idle)]
  | .acquireShared e =>
    if w ≠ e then [(w, .acquireShared w)]
    else if writeOwned e = 0 ∧ writeWaiters e = 0 then [(add e 1, .readOwner)]
    else [(setBit e 30, .waitShared e)]
  | .waitShared e => [(w, if w = setBit e 30 then .readerAsleep else .readerAwake)]
  | .readerAsleep => [(w, .readerAwake)]
  | .readerAwake => [(w, .acquireShared w)]
  | .readOwner =>
    let d := sub w 1
    [(d, if writeWaiters d ≠ 0 ∧ readOwners d = 0 then .wakeWriter else .idle)]

/-- What a thread does for the lock; a `registered` writer is one that is awake. -/
inductive Role
  | writer | reader | asleep | registered | wakesWriter | asleepShared | wakesReaders | other
  deriving DecidableEq

/-- One thread in the role `r`, counted for the role `x`. -/
def Role.one (r x : Role) : ℕ := if r = x then 1 else 0

def Pc.role : Pc → Role
  | .writeOwner | .unlock _ => .writer
  | .readOwner => .reader
  | .writerAsleep _ => .asleep
  | .acquire .. | .writerAwake _ | .timedOut | .withdraw _ => .registered
  | .wakeWriter => .wakesWriter
  | .readerAsleep => .asleepShared
  | .wakeReaders => .wakesReaders
  | _ => .other

/-- A reader that sleeps is woken. -/
def Pc.wokenReader : Pc → Pc
  | .readerAsleep => .readerAwake
  | pc => pc

end Mutex

open Mutex

/-- The mutex and the threads that use it.  The threads are interchangeable: what counts is where
they are. -/
structure Mutex where
  word : ℕ
  threads : Multiset Pc

namespace Mutex

/-- The steps of the threads: a move of one of them, and the calls that wake others. -/
inductive Step : Mutex → Mutex → Prop
  | move {w : ℕ} {pc : Pc} {rest : Multiset Pc} {m : ℕ × Pc} (h : m ∈ moves w pc) :
      Step ⟨w, pc ::ₘ rest⟩ ⟨m.1, m.2 ::ₘ rest⟩
  | wakeWriter {w : ℕ} {timed : Bool} {rest : Multiset Pc} :
      Step ⟨w, .wakeWriter ::ₘ .writerAsleep timed ::ₘ rest⟩
        ⟨w, .idle ::ₘ .writerAwake timed ::ₘ rest⟩
  | wakeNobody {w : ℕ} {rest : Multiset Pc} (h : ∀ pc ∈ rest, pc.role ≠ .asleep) :
      Step ⟨w, .wakeWriter ::ₘ rest⟩ ⟨w, .idle ::ₘ rest⟩
  | wakeReaders {w : ℕ} {rest : Multiset Pc} :
      Step ⟨w, .wakeReaders ::ₘ rest⟩ ⟨w, .idle ::ₘ rest.map Pc.wokenReader⟩

/-- Any interleaving of the steps. -/
def machine : Machine Mutex Unit where
  step s _ s' := Step s s'

/-- The mutex before its first use, and `n` threads. -/
def init (n : ℕ) : Mutex := ⟨0, .replicate n .idle⟩

/-! ## The invariant, over the word and the number of threads in each role -/

/-- The word is made of the counts, and who sleeps on a free lock is owed a wake-up. -/
inductive Inv (w : ℕ) (c : Role → ℕ) : Prop
  | mk {o b k r : ℕ} (word : Packed w o b k r)
    (counts : c .writer = o ∧ c .asleep + c .registered = k ∧ c .reader = r)
    (exclusive : o = 0 ∨ r = 0) (waiter : b = 1 → 0 < o + k)
    (writers : o = 0 → r = 0 → 0 < c .asleep → 0 < c .registered + c .wakesWriter)
    (readers : b = 0 → 0 < c .asleepShared → 0 < c .wakesReaders)

theorem Role.forall {p : Role → Prop} : (∀ r, p r) ↔ p .writer ∧ p .reader ∧ p .asleep ∧
    p .registered ∧ p .wakesWriter ∧ p .asleepShared ∧ p .wakesReaders ∧ p .other :=
  ⟨fun h => by simp only [h, and_self], fun h r => by cases r <;> simp only [h]⟩

/-- A move of one thread keeps the invariant. -/
theorem Inv.moves {w : ℕ} {c c' : Role → ℕ} {pc : Pc} (h : Inv w c)
    (hft : c' .asleep + c' .registered + c' .reader < 2 ^ 14) :
    ∀ m ∈ moves w pc, (∀ r, c' r + pc.role.one r = c r + m.2.role.one r) → Inv m.1 c' := by
  have hsm (hc : ∀ r, c' r = c r) : Inv w c' := (funext hc : c' = c) ▸ h
  obtain ⟨hp, hcou, h₁, h₂, h₃, h₄⟩ := h
  have hf := hp.fields
  cases pc
  all_goals simp only [Mutex.moves, ne_eq, ite_not]
  all_goals try split_ifs
  all_goals
    simp only [List.cons_append, List.nil_append, List.forall_mem_cons, List.not_mem_nil,
      false_implies, implies_true, and_true, Pc.role, Nat.add_right_cancel_iff]
  all_goals and_intros
  all_goals try exact hsm
  all_goals simp only [Role.forall, Role.one, reduceCtorEq, if_true, if_false, Nat.add_zero]
  all_goals intro hc
  all_goals try subst w
  -- `try_lock`
  · have hw := hp.1
    apply Inv.mk hp.set_owned <;> omega
  -- `lock`
  · apply Inv.mk (hp.add_waiter (by omega)) <;> omega
  · apply Inv.mk (hp.set_owned.sub_waiter (by omega)) <;> omega
  iterate 4
    · apply Inv.mk hp <;> omega
  -- the timeout of `try_lock_for`
  · have hd := (hp.sub_waiter (by omega)).fields
    apply Inv.mk (hp.sub_waiter (by omega)).clear_waiter <;> omega
  iterate 2
    · have hd := (hp.sub_waiter (by omega)).fields
      apply Inv.mk (hp.sub_waiter (by omega)) <;> omega
  -- `unlock`
  iterate 3
    · have hd := hp.clear_owned.fields
      apply Inv.mk hp.clear_owned.clear_waiter <;> omega
  iterate 3
    · have hd := hp.clear_owned.fields
      apply Inv.mk hp.clear_owned <;> omega
  -- `try_lock_shared` and `lock_shared`
  · obtain ⟨_, _, rfl⟩ := ‹_ ∧ _ ∧ w = _›
    apply Inv.mk (hp.add_reader (by omega)) <;> omega
  · apply Inv.mk (hp.add_reader (by omega)) <;> omega
  · apply Inv.mk hp.set_waiter <;> omega
  · have hb := readWaiter_setBit ‹ℕ›
    apply Inv.mk hp <;> omega
  · apply Inv.mk hp <;> omega
  -- `unlock_shared`
  iterate 2
    · have hd := (hp.sub_reader (by omega)).fields
      apply Inv.mk (hp.sub_reader (by omega)) <;> omega

/-! ## Runs -/

/-- The number of threads in each role. -/
def count (threads : Multiset Pc) (r : Role) : ℕ := threads.countP fun pc => pc.role = r

theorem count_cons (pc : Pc) (rest : Multiset Pc) (r : Role) :
    count (pc ::ₘ rest) r = count rest r + pc.role.one r :=
  countP_cons ..

theorem count_pos {threads : Multiset Pc} {r : Role} :
    0 < count threads r ↔ ∃ pc ∈ threads, pc.role = r :=
  countP_pos

theorem count_le (threads : Multiset Pc) :
    count threads .asleep + count threads .registered + count threads .reader ≤ threads.card := by
  induction threads using Multiset.induction with
  | empty => exact Nat.le_refl 0
  | cons pc rest ih =>
    have hone : ∀ r : Role, r.one .asleep + r.one .registered + r.one .reader ≤ 1 := by
      intro r
      cases r <;> decide
    have := hone pc.role
    simp only [count_cons, card_cons]
    omega

theorem count_wokenReader (rest : Multiset Pc) {r : Role} (hr : r ≠ .other) :
    count (rest.map Pc.wokenReader) r = if r = .asleepShared then 0 else count rest r := by
  induction rest using Multiset.induction with
  | empty => exact (ite_self 0).symm
  | cons pc rest ih =>
    rw [map_cons, count_cons, count_cons, ih]
    cases pc <;> cases r <;> first | rfl | exact absurd rfl hr

theorem Step.card {s s' : Mutex} (h : Step s s') : s'.threads.card = s.threads.card := by
  cases h <;> simp only [card_cons, card_map]

theorem Inv.step {s s' : Mutex} (h : Inv s.word (count s.threads)) (hcr : s.threads.card < 2 ^ 14)
    (hst : Step s s') : Inv s'.word (count s'.threads) := by
  have hft := (count_le s'.threads).trans_lt (hst.card ▸ hcr)
  cases hst
  case move hm =>
    refine h.moves hft _ hm fun r => ?_
    rw [count_cons, count_cons]
    omega
  case' wakeNobody w rest hno =>
    have hzr : count rest .asleep = 0 := countP_eq_zero.2 hno
  all_goals
    obtain ⟨hp, hcou, h₁, h₂, h₃, h₄⟩ := h
    apply Inv.mk hp
  all_goals
    simp only [count_cons, count_wokenReader, ne_eq, not_false_eq_true, Pc.role, Role.one,
      reduceCtorEq, if_true, if_false] at *
    omega

theorem Inv.init (n : ℕ) : Inv (init n).word (count (init n).threads) := by
  have hp : Packed 0 0 0 0 0 := by simp [Packed]
  have hzr (r : Role) (hr : Role.other ≠ r) : count (Mutex.init n).threads r = 0 := by
    refine countP_eq_zero.2 fun pc hpc => ?_
    rwa [eq_of_mem_replicate hpc]
  apply Inv.mk hp <;> simp [hzr]

/-- A thread that sleeps in a futex wait. -/
def Pc.asleep (pc : Pc) : Prop := pc.role = .asleep ∨ pc.role = .asleepShared

/-- In every run of fewer threads than the waiter count can hold, a writer excludes all others,
readers are marked as waiting only behind a writer, and when threads sleep and nobody owns the
lock another thread is awake in a call. -/
theorem excludes_and_wakes {n : ℕ} {steps : List Unit} {s : Mutex} (hn : n < 2 ^ 14)
    (h : machine.Run (fun _ _ => True) (init n) steps s) :
    (∀ pc rest, s.threads = pc ::ₘ rest → pc.role = .writer →
      ∀ other ∈ rest, other.role ≠ .writer ∧ other.role ≠ .reader) ∧
    (readWaiter s.word = 1 → ∃ pc ∈ s.threads,
      pc.role = .writer ∨ pc.role = .asleep ∨ pc.role = .registered) ∧
    (writeOwned s.word = 0 → readOwners s.word = 0 → (∃ pc ∈ s.threads, pc.asleep) →
      ∃ pc ∈ s.threads, pc ≠ .idle ∧ ¬pc.asleep) := by
  obtain ⟨-, hp, hcou, h₁, h₂, h₃, h₄⟩ :=
    h.invariant (I := fun s => s.threads.card = n ∧ Inv s.word (count s.threads))
      ⟨card_replicate .., .init n⟩
      fun s _ s' hI _ hst => ⟨hst.card.trans hI.1, hI.2.step (hI.1 ▸ hn) hst⟩
  have hf := hp.fields
  refine ⟨?_, ?_, ?_⟩
  · intro pc rest hs hpc other hoth
    have hrs (r : Role) : count s.threads r = count rest r + Role.one .writer r := by
      rw [hs, count_cons, hpc]
    have hw := hrs .writer
    have hr := hrs .reader
    simp only [Role.one, reduceCtorEq, if_true, if_false] at hw hr
    refine ⟨fun ho => ?_, fun ho => ?_⟩
    all_goals
      have := count_pos.2 ⟨other, hoth, ho⟩
      omega
  · intro hb
    have hsm : 0 < count s.threads .writer ∨ 0 < count s.threads .asleep ∨
        0 < count s.threads .registered := by omega
    simpa only [count_pos, ← exists_or, ← and_or_left] using hsm
  · intro ho hr hasl
    have hawa (pc : Pc) (h : pc.role = .registered ∨ pc.role = .wakesWriter ∨
        pc.role = .wakesReaders) : pc ≠ .idle ∧ ¬pc.asleep := by
      cases pc <;> simp [Pc.role, Pc.asleep] at h ⊢
    simp only [Pc.asleep, and_or_left, exists_or, ← count_pos] at hasl
    have hsm : 0 < count s.threads .registered ∨ 0 < count s.threads .wakesWriter ∨
        0 < count s.threads .wakesReaders := by omega
    simp only [count_pos, ← exists_or, ← and_or_left] at hsm
    obtain ⟨pc, hmem, hpc⟩ := hsm
    exact ⟨pc, hmem, hawa pc hpc⟩

/-- A writer sleeps while the owner unlocks: the wake-up is in flight. -/
theorem excludes_and_wakes_handoff :
    ∃ pc ∈ (.wakeWriter ::ₘ .writerAsleep false ::ₘ 0 : Multiset Pc),
      pc ≠ .idle ∧ ¬pc.asleep := by
  have hmv {w : ℕ} {pc : Pc} {rest : Multiset Pc} {m : ℕ × Pc} (h : m ∈ moves w pc) :
      machine.step ⟨w, pc ::ₘ rest⟩ () ⟨m.1, m.2 ::ₘ rest⟩ := .move h
  have hin : machine.Run (fun _ _ => True) (init 2) [] ⟨0, .idle ::ₘ .idle ::ₘ 0⟩ := .nil _
  have hlc := hin.snoc trivial (hmv (.head _))
  rw [cons_swap] at hlc
  have hsle := ((hlc.snoc trivial (hmv (.head _))).snoc trivial (hmv (.head _))).snoc
    trivial (hmv (.head _))
  rw [cons_swap] at hsle
  have hunl := (hsle.snoc trivial (hmv (.head _))).snoc trivial (hmv (.head _))
  exact (excludes_and_wakes (by decide) hunl).2.2 rfl rfl ⟨.writerAsleep false, by simp, .inl rfl⟩

end Mutex

end FastPPC
