import FastPPC.CodeMap.Writer

/-!
# The buffer of the code map writer

What holds of the lock, the buffer and the file in every interleaving of the threads.

* `Moves` : the steps of a thread, one constructor for each;
* `Locks` : who holds the lock;
* `Space` : the records that were given a place are in the buffer or are being copied, and at most
  one thread is to flush it;
* `Space.flush_eq` : what a flush writes.
-/

namespace FastPPC.CodeMap

open Codec Function List Option Finset

variable {n : ℕ} {s s' : Writer n} {t : Fin n}

/-! ### The steps -/

inductive Moves (s : Writer n) (t : Fin n) : Writer n → Prop
  | known {file : FileInfo} {offset : BitVec 32} (hpc : s.pc t = .check file offset)
      (howner : s.owner = none) (hmem : file.fileId ∈ s.knownFileIds) :
      Moves s t (s.goto t (.append (.block file.fileId offset) []))
  | unknown {file : FileInfo} {offset : BitVec 32} (hpc : s.pc t = .check file offset)
      (howner : s.owner = none) (hmem : file.fileId ∉ s.knownFileIds) :
      Moves s t (s.goto t (.register file offset))
  /-- Another thread has registered the file in between. -/
  | late {file : FileInfo} {offset : BitVec 32} (hpc : s.pc t = .register file offset)
      (howner : s.owner = none) (hshared : s.shared = ∅) (hmem : file.fileId ∈ s.knownFileIds) :
      Moves s t (s.goto t (.append (.block file.fileId offset) []))
  | registers {file : FileInfo} {offset : BitVec 32} (hpc : s.pc t = .register file offset)
      (howner : s.owner = none) (hshared : s.shared = ∅) (hmem : file.fileId ∉ s.knownFileIds) :
      Moves s t { s.goto t (.append (.library file) [.block file.fileId offset]) with
        knownFileIds := insert file.fileId s.knownFileIds }
  | locks {r : Record} {next : List Record} (hpc : s.pc t = .append r next)
      (howner : s.owner = none) :
      Moves s t { s.goto t (.locked r next) with shared := insert t s.shared }
  | reserves {r : Record} {next : List Record} (hpc : s.pc t = .locked r next) :
      Moves s t (s.fetchAdd t r next)
  | copies {r : Record} {next : List Record} {offset : ℕ} (hpc : s.pc t = .reserved r next offset)
      (hfits : offset + r.size ≤ bufferSize) : Moves s t (s.copy t r next offset)
  | overflows {r : Record} {next : List Record} {offset : ℕ}
      (hpc : s.pc t = .reserved r next offset) (hover : bufferSize < offset + r.size) :
      Moves s t { s.goto t (.overflowed r next offset) with shared := s.shared.erase t }
  | acquires {r : Record} {next : List Record} {offset : ℕ}
      (hpc : s.pc t = .overflowed r next offset) (howner : s.owner = none)
      (hshared : s.shared = ∅) :
      Moves s t { s.goto t (.exclusive r next offset) with owner := some t }
  | flushes {r : Record} {next : List Record} {offset : ℕ}
      (hpc : s.pc t = .exclusive r next offset) (hin : offset ≤ bufferSize) :
      Moves s t (s.flush t r next offset)
  | yields {r : Record} {next : List Record} {offset : ℕ}
      (hpc : s.pc t = .exclusive r next offset) (hout : bufferSize < offset) :
      Moves s t { s.goto t (.waiting r next) with owner := none }
  | retries {r : Record} {next : List Record} (hpc : s.pc t = .flushed r next) :
      Moves s t { s.goto t (.append r next) with owner := none }
  | wakes {r : Record} {next : List Record} (hpc : s.pc t = .waiting r next)
      (hroom : s.bufferOffset ≤ bufferSize) : Moves s t (s.goto t (.append r next))

theorem Writer.not_free_iff (s : Writer n) :
    ((!s.free) = true) ↔ ¬(s.owner = none ∧ s.shared = ∅) := by
  rw [Writer.free, Bool.not_eq_true', Bool.and_eq_false_iff, isNone_eq_false_iff,
    decide_eq_false_iff_not, isSome_iff_ne_none]
  tauto

/-- A step of a thread is one of these. -/
theorem Moves.of_advance (h : s.advance t = some s') : Moves s t s' := by
  rw [Writer.advance] at h
  cases hpc : s.pc t with
  | idle =>
    simp only [hpc] at h
    cases h
  | check file offset =>
    simp only [hpc, ite_none_left_eq_some, not_isSome_iff_eq_none] at h
    obtain ⟨hown, h⟩ := h
    split at h
    · rename_i hmem
      cases h
      exact .known hpc hown hmem
    · rename_i hmem
      cases h
      exact .unknown hpc hown hmem
  | register file offset =>
    simp only [hpc, ite_none_left_eq_some, Writer.not_free_iff, not_not] at h
    obtain ⟨⟨hown, hsha⟩, h⟩ := h
    split at h
    · rename_i hmem
      cases h
      exact .late hpc hown hsha hmem
    · rename_i hmem
      cases h
      exact .registers hpc hown hsha hmem
  | append r next =>
    simp only [hpc, ite_none_left_eq_some, not_isSome_iff_eq_none] at h
    obtain ⟨hown, h⟩ := h
    cases h
    exact .locks hpc hown
  | locked r next =>
    simp only [hpc] at h
    cases h
    exact .reserves hpc
  | reserved r next offset =>
    simp only [hpc] at h
    split at h
    · rename_i hft
      cases h
      exact .copies hpc hft
    · rename_i hov
      cases h
      exact .overflows hpc (Nat.not_le.1 hov)
  | overflowed r next offset =>
    simp only [hpc, ite_none_left_eq_some, Writer.not_free_iff, not_not] at h
    obtain ⟨⟨hown, hsha⟩, h⟩ := h
    cases h
    exact .acquires hpc hown hsha
  | exclusive r next offset =>
    simp only [hpc] at h
    split at h
    · rename_i hin
      cases h
      exact .flushes hpc hin
    · rename_i hout
      cases h
      exact .yields hpc (Nat.not_le.1 hout)
  | flushed r next =>
    simp only [hpc] at h
    cases h
    exact .retries hpc
  | waiting r next =>
    simp only [hpc, ite_none_right_eq_some] at h
    obtain ⟨hrm, h⟩ := h
    cases h
    exact .wakes hpc hrm

theorem Writer.goto_pc_self (s : Writer n) (t : Fin n) (pc : Pc) : (s.goto t pc).pc t = pc :=
  update_self ..

theorem Writer.goto_pc_of_ne (s : Writer n) {t' : Fin n} (h : t' ≠ t) (pc : Pc) :
    (s.goto t pc).pc t' = s.pc t' :=
  update_of_ne h ..

/-! ### The lock -/

variable {pc : Pc}

def Pc.holdsShared : Pc → Bool
  | .locked .. | .reserved .. => true
  | _ => false

def Pc.holdsExclusive : Pc → Bool
  | .exclusive .. | .flushed .. => true
  | _ => false

/-- The lock is held by the threads that are in its sections, and exclusively by one alone. -/
structure Locks (s : Writer n) : Prop where
  shared : ∀ t, t ∈ s.shared ↔ (s.pc t).holdsShared = true
  owner : ∀ t, s.owner = some t ↔ (s.pc t).holdsExclusive = true
  alone : s.owner ≠ none → s.shared = ∅

/-- A thread moves, and the lock follows. -/
theorem Locks.goto (h : Locks s) {shared : Finset (Fin n)} {owner : Option (Fin n)}
    (hsl : (t ∈ shared ↔ pc.holdsShared = true) ∧ (owner = some t ↔ pc.holdsExclusive = true))
    (hoth : ∀ t', t' ≠ t → (t' ∈ shared ↔ t' ∈ s.shared) ∧
      (owner = some t' ↔ s.owner = some t')) (halo : owner ≠ none → shared = ∅)
    (hpc : s'.pc = update s.pc t pc) (hsha : s'.shared = shared)
    (hown : s'.owner = owner) : Locks s' := by
  refine ⟨fun t' => ?_, fun t' => ?_, by rwa [hown, hsha]⟩
  · rw [hpc, hsha]
    by_cases heq : t' = t
    · rw [heq, update_self]
      exact hsl.1
    · rw [update_of_ne heq, (hoth t' heq).1]
      exact h.shared t'
  · rw [hpc, hown]
    by_cases heq : t' = t
    · rw [heq, update_self]
      exact hsl.2
    · rw [update_of_ne heq, (hoth t' heq).2]
      exact h.owner t'

/-- A thread moves without the lock. -/
theorem Locks.goto_same (h : Locks s) (hs : pc.holdsShared = (s.pc t).holdsShared)
    (ho : pc.holdsExclusive = (s.pc t).holdsExclusive) (hpc : s'.pc = update s.pc t pc)
    (hsha : s'.shared = s.shared) (hown : s'.owner = s.owner) : Locks s' :=
  h.goto ⟨by rw [hs]; exact h.shared t, by rw [ho]; exact h.owner t⟩
    (fun _ _ => ⟨Iff.rfl, Iff.rfl⟩) h.alone hpc hsha hown

/-- A thread gives the shared lock back. -/
theorem Locks.unlock (h : Locks s) (hhl : (s.pc t).holdsShared = true)
    (hs : pc.holdsShared = false) (ho : pc.holdsExclusive = false) (hpc : s'.pc = update s.pc t pc)
    (hsha : s'.shared = s.shared.erase t) (hown : s'.owner = s.owner) : Locks s' := by
  have hnn : s.owner = none := by
    by_contra hsm
    exact absurd ((h.shared t).2 hhl) (by rw [h.alone hsm]; exact notMem_empty t)
  refine h.goto ⟨?_, ?_⟩ (fun t' hne => ⟨?_, Iff.rfl⟩) (fun hsm => absurd hnn hsm) hpc hsha hown
  · exact iff_of_false (notMem_erase t _) (by rw [hs]; nofun)
  · exact iff_of_false (by rw [hnn]; nofun) (by rw [ho]; nofun)
  · exact ⟨mem_of_mem_erase, mem_erase_of_ne_of_mem hne⟩

/-- A thread gives the exclusive lock back. -/
theorem Locks.release (h : Locks s) (hhl : (s.pc t).holdsExclusive = true)
    (hs : pc.holdsShared = false) (ho : pc.holdsExclusive = false) (hpc : s'.pc = update s.pc t pc)
    (hsha : s'.shared = s.shared) (hown : s'.owner = none) : Locks s' := by
  have hsm : s.owner = some t := (h.owner t).2 hhl
  have hemp : s.shared = ∅ := h.alone (by rw [hsm]; nofun)
  refine h.goto ⟨?_, ?_⟩ (fun t' hne => ⟨Iff.rfl, ?_⟩) (fun hsm => absurd rfl hsm) hpc hsha hown
  · exact iff_of_false (by rw [hemp]; exact notMem_empty t) (by rw [hs]; nofun)
  · exact iff_of_false nofun (by rw [ho]; nofun)
  · rw [hsm]
    exact iff_of_false nofun fun heq => hne (some.inj heq).symm

theorem Locks.start : Locks (Writer.start n) :=
  ⟨fun t => iff_of_false (notMem_empty t) nofun, fun _ => iff_of_false nofun nofun, fun _ => rfl⟩

theorem Pc.resume_free (next : List Record) :
    (Pc.resume next).holdsShared = false ∧ (Pc.resume next).holdsExclusive = false := by
  cases next <;> exact ⟨rfl, rfl⟩

theorem Locks.step (h : Locks s) (hm : Moves s t s') : Locks s' := by
  cases hm with
  | known hpc _ _ | unknown hpc _ _ | late hpc _ _ _ | registers hpc _ _ _ | wakes hpc _
  | reserves hpc | flushes hpc _ =>
    exact h.goto_same (by rw [hpc]; rfl) (by rw [hpc]; rfl) rfl rfl rfl
  | copies hpc _ =>
    exact h.unlock (by rw [hpc]; rfl) (Pc.resume_free _).1 (Pc.resume_free _).2 rfl rfl rfl
  | overflows hpc _ => exact h.unlock (by rw [hpc]; rfl) rfl rfl rfl rfl rfl
  | yields hpc _ | retries hpc => exact h.release (by rw [hpc]; rfl) rfl rfl rfl rfl rfl
  | locks hpc hown =>
    refine h.goto ⟨?_, ?_⟩ (fun t' hne => ⟨?_, Iff.rfl⟩) (fun hsm => absurd hown hsm) rfl rfl
      rfl
    · exact iff_of_true (mem_insert_self t _) rfl
    · exact iff_of_false (by rw [hown]; nofun) nofun
    · rw [mem_insert, or_iff_right hne]
  | acquires hpc hown hsha =>
    refine h.goto ⟨?_, ?_⟩ (fun t' hne => ⟨Iff.rfl, ?_⟩) (fun _ => hsha) rfl rfl rfl
    · exact iff_of_false (by rw [hsha]; exact notMem_empty t) nofun
    · exact iff_of_true rfl rfl
    · rw [hown]
      exact iff_of_false (fun heq => hne (some.inj heq).symm) nofun

/-! ### The buffer -/

variable {r : Record}

def bytes (records : List Record) : ℕ := (records.flatMap Record.encode).length

theorem bytes_nil : bytes [] = 0 := rfl

theorem bytes_append (as bs : List Record) : bytes (as ++ bs) = bytes as + bytes bs := by
  rw [bytes, flatMap_append, length_append]
  rfl

theorem bytes_cons (r : Record) (bs : List Record) : bytes (r :: bs) = r.size + bytes bs := by
  rw [bytes, flatMap_cons, length_append]
  rfl

/-- Two places in a list of records are the same or apart. -/
theorem place_cases {as bs as' bs' : List Record} {r' : Record}
    (h : as ++ r :: bs = as' ++ r' :: bs') :
    (as = as' ∧ r = r') ∨ bytes as + r.size ≤ bytes as' ∨ bytes as' + r'.size ≤ bytes as := by
  rcases append_eq_append_iff.1 h with ⟨cs, has, hr⟩ | ⟨cs, has, hr⟩
  · cases cs with
    | nil =>
      rw [nil_append, List.cons.injEq] at hr
      exact .inl ⟨by rw [has, append_nil], hr.1⟩
    | cons c cs =>
      rw [cons_append, List.cons.injEq] at hr
      rw [has, bytes_append, bytes_cons, ← hr.1]
      exact .inr (.inl (by omega))
  · cases cs with
    | nil =>
      rw [nil_append, List.cons.injEq] at hr
      exact .inl ⟨by rw [has, append_nil], hr.1.symm⟩
    | cons c cs =>
      rw [cons_append, List.cons.injEq] at hr
      rw [has, bytes_append, bytes_cons, ← hr.1]
      exact .inr (.inr (by omega))

/-- The offset of a thread that has to flush the buffer. -/
def Pc.claim : Pc → Option ℕ
  | .reserved r _ o | .overflowed r _ o | .exclusive r _ o =>
    if o ≤ bufferSize ∧ bufferSize < o + r.size then some o else none
  | _ => none

/-- The buffer and the file. -/
structure Space (s : Writer n) : Prop where
  /-- While there is room, the offset counts the bytes of the records and nobody has to flush. -/
  room : s.bufferOffset ≤ bufferSize →
    s.bufferOffset = bytes s.pending ∧ ∀ t, (s.pc t).claim = none
  /-- When there is none, one thread has to flush them. -/
  full : bufferSize < s.bufferOffset → ∃ t, (s.pc t).claim = some (bytes s.pending) ∧
    ∀ t', (s.pc t').claim ≠ none → t' = t
  tooFar : ∀ t r next offset,
    s.pc t = .overflowed r next offset ∨ s.pc t = .exclusive r next offset →
      bufferSize < offset + r.size
  /-- A thread copies its record to the place it was given. -/
  placed : ∀ t r next offset, s.pc t = .reserved r next offset → offset + r.size ≤ bufferSize →
    ∃ as bs, s.pending = as ++ r :: bs ∧ offset = bytes as
  /-- A record that was given a place is there, or is being copied. -/
  written : ∀ as r bs, s.pending = as ++ r :: bs → Holds s.buffer (bytes as) r.encode ∨
    ∃ t next, s.pc t = .reserved r next (bytes as)
  file : s.file = s.committed.flatMap Record.encode

theorem Space.start : Space (Writer.start n) where
  room _ := ⟨rfl, fun _ => rfl⟩
  full h := absurd h (Nat.not_lt_zero _)
  tooFar := nofun
  placed := nofun
  written as r bs h := absurd h (by simp [Writer.start])
  file := rfl

/-- With nobody copying, all records that were given a place are in the buffer. -/
theorem holds_of_written {m : Memory} : ∀ (records as : List Record),
    (∀ as' r bs, as ++ records = as' ++ r :: bs → bytes as ≤ bytes as' →
      Holds m (bytes as') r.encode) →
      Holds m (bytes as) (records.flatMap Record.encode)
  | [], _, _ => holds_nil _ _
  | r :: records, as, h => by
    rw [flatMap_cons, holds_append]
    refine ⟨h as r records rfl le_rfl, ?_⟩
    have hnx : bytes as + r.encode.length = bytes (as ++ [r]) := by
      rw [bytes_append, bytes_cons, bytes_nil]
      rfl
    rw [hnx]
    refine holds_of_written records (as ++ [r]) fun as' r' bs heq hle => ?_
    exact h as' r' bs (by rw [← heq, append_assoc, singleton_append])
      (by rw [bytes_append] at hle; omega)

/-- **What a flush writes**, if no thread is copying. -/
theorem Space.flush_eq (h : Space s) (hsha : ∀ t r next o, s.pc t ≠ .reserved r next o) :
    readBytes s.buffer 0 (bytes s.pending) = s.pending.flatMap Record.encode :=
  holds_of_written s.pending [] fun as r bs heq _ =>
    (h.written as r bs heq).resolve_right fun ⟨t, next, hpc⟩ => hsha t r next _ hpc

theorem Space.pending_le (h : Space s) : bytes s.pending ≤ bufferSize := by
  by_cases hrm : s.bufferOffset ≤ bufferSize
  · rw [← (h.room hrm).1]
    exact hrm
  · obtain ⟨t, hcla, -⟩ := h.full (Nat.not_le.1 hrm)
    cases hpc : s.pc t <;> rw [hpc] at hcla <;>
      first
      | cases hcla
      | rw [Pc.claim, ite_none_right_eq_some, some.injEq] at hcla
        rw [← hcla.2]
        exact hcla.1.1

/-! One thread moves, and the records keep their places. -/

section

variable (h : Space s) (hpc : s'.pc = update s.pc t pc)
include h hpc

theorem Space.tooFar_goto (hnew : ∀ r next o, pc = .overflowed r next o ∨ pc = .exclusive r next o →
      bufferSize < o + r.size) (t' : Fin n) (r : Record) (next : List Record) (o : ℕ)
    (hor : s'.pc t' = .overflowed r next o ∨ s'.pc t' = .exclusive r next o) :
    bufferSize < o + r.size := by
  rw [hpc] at hor
  by_cases heq : t' = t
  · rw [heq, update_self] at hor
    exact hnew r next o hor
  · rw [update_of_ne heq] at hor
    exact h.tooFar t' r next o hor

theorem Space.placed_goto {records : List Record}
    (hnew : ∀ r next o, pc = .reserved r next o → o + r.size ≤ bufferSize →
      ∃ as bs, s'.pending = as ++ r :: bs ∧ o = bytes as)
    (hpen : s'.pending = s.pending ++ records) (t' : Fin n) (r : Record) (next : List Record)
    (o : ℕ) (hr : s'.pc t' = .reserved r next o) (hle : o + r.size ≤ bufferSize) :
    ∃ as bs, s'.pending = as ++ r :: bs ∧ o = bytes as := by
  rw [hpc] at hr
  by_cases heq : t' = t
  · rw [heq, update_self] at hr
    exact hnew r next o hr hle
  · rw [update_of_ne heq] at hr
    obtain ⟨as, bs, hspl, ho⟩ := h.placed t' r next o hr hle
    exact ⟨as, bs ++ records, by rw [hpen, hspl, append_assoc, cons_append], ho⟩

theorem Space.written_goto
    (hold : ∀ r next as bs, s.pending = as ++ r :: bs → s.pc t = .reserved r next (bytes as) →
      Holds s'.buffer (bytes as) r.encode)
    (hbuf : ∀ as r bs, s.pending = as ++ r :: bs → Holds s.buffer (bytes as) r.encode →
      Holds s'.buffer (bytes as) r.encode) (as : List Record) (r : Record) (bs : List Record)
    (heq : s.pending = as ++ r :: bs) : Holds s'.buffer (bytes as) r.encode ∨
      ∃ t next, s'.pc t = .reserved r next (bytes as) := by
  rcases h.written as r bs heq with hhol | ⟨t', next, hr⟩
  · exact .inl (hbuf as r bs heq hhol)
  by_cases hsm : t' = t
  · exact .inl (hold r next as bs heq (hsm ▸ hr))
  · exact .inr ⟨t', next, by rw [hpc, update_of_ne hsm, hr]⟩

theorem Space.goto (hclm : pc.claim = (s.pc t).claim)
    (hold : ∀ r next as bs, s.pending = as ++ r :: bs → s.pc t = .reserved r next (bytes as) →
      Holds s'.buffer (bytes as) r.encode)
    (hnew : ∀ r next o, pc ≠ .reserved r next o)
    (hov : ∀ r next o, pc = .overflowed r next o ∨ pc = .exclusive r next o →
      bufferSize < o + r.size) (hoff : s'.bufferOffset = s.bufferOffset)
    (hpen : s'.pending = s.pending)
    (hbuf : ∀ as r bs, s.pending = as ++ r :: bs → Holds s.buffer (bytes as) r.encode →
      Holds s'.buffer (bytes as) r.encode)
    (hfl : s'.file = s.file) (hcom : s'.committed = s.committed) : Space s' := by
  have hcla : ∀ t', (s'.pc t').claim = (s.pc t').claim := by
    intro t'
    rw [hpc]
    by_cases heq : t' = t
    · rw [heq, update_self, hclm]
    · rw [update_of_ne heq]
  refine ⟨?_, ?_, h.tooFar_goto hpc hov, ?_, fun as r bs heq => ?_, ?_⟩
  · rw [hoff, hpen]
    simpa only [hcla] using h.room
  · rw [hoff, hpen]
    simpa only [hcla] using h.full
  · exact h.placed_goto hpc (fun r next o heq => absurd heq (hnew r next o))
      (by rw [hpen, append_nil])
  · exact h.written_goto hpc hold hbuf as r bs (hpen ▸ heq)
  · rw [hfl, hcom]
    exact h.file

end

/-- The thread has no part in the buffer. -/
def Pc.aside : Pc → Bool
  | .reserved .. | .overflowed .. | .exclusive .. => false
  | _ => true

/-- A thread that has no part in the buffer moves on. -/
theorem Space.aside (h : Space s) (hpc : s'.pc = update s.pc t pc) (hold : (s.pc t).aside = true)
    (hnew : pc.aside = true) (hoff : s'.bufferOffset = s.bufferOffset)
    (hpen : s'.pending = s.pending) (hbuf : s'.buffer = s.buffer) (hfl : s'.file = s.file)
    (hcom : s'.committed = s.committed) : Space s' := by
  have hcla : ∀ {pc : Pc}, pc.aside = true → pc.claim = none := by
    intro pc hasi
    cases pc <;> first | rfl | cases hasi
  refine h.goto hpc ((hcla hnew).trans (hcla hold).symm) (fun r next as bs _ heq => ?_)
    (fun r next o heq => ?_) (fun r next o hor => ?_) hoff hpen
    (fun _ _ _ _ hhol => hbuf ▸ hhol) hfl hcom
  · rw [heq] at hold
    cases hold
  · rw [heq] at hnew
    cases hnew
  · rcases hor with heq | heq <;> rw [heq] at hnew <;> cases hnew

theorem Space.reserves (h : Space s) {next : List Record} (hpc : s.pc t = .locked r next) :
    Space (s.fetchAdd t r next) := by
  have hnn : (s.pc t).claim = none := by rw [hpc]; rfl
  have hoth : ∀ t', t' ≠ t → (s.fetchAdd t r next).pc t' = s.pc t' := fun t' hne =>
    update_of_ne hne ..
  have hsl : (s.fetchAdd t r next).pc t = .reserved r next s.bufferOffset :=
    update_self ..
  have hmv : (s.fetchAdd t r next).pc = update s.pc t (.reserved r next s.bufferOffset) := rfl
  have hov := h.tooFar_goto hmv fun _ _ _ hor => hor.elim nofun nofun
  have hwri := h.written_goto hmv
    (fun r' next' as bs _ hr => by rw [hpc] at hr; cases hr) fun _ _ _ _ hhol => hhol
  by_cases hft : s.bufferOffset + r.size ≤ bufferSize
  · -- the record is put behind the others
    obtain ⟨hoff, hcla⟩ := h.room (by omega)
    have hpen : (s.fetchAdd t r next).pending = s.pending ++ [r] := if_pos hft
    have hbyt : bytes (s.pending ++ [r]) = s.bufferOffset + r.size := by
      rw [bytes_append, bytes_cons, bytes_nil, hoff, Nat.add_zero]
    refine ⟨fun _ => ⟨?_, fun t' => ?_⟩, fun hfl => ?_, hov,
      h.placed_goto rfl (fun r' next' o heq _ => ?_) hpen, fun as r' bs heq => ?_, h.file⟩
    · rw [hpen, hbyt]
      rfl
    · by_cases heq : t' = t
      · rw [heq, hsl]
        exact if_neg fun hno => absurd hft (Nat.not_le.2 hno.2)
      · rw [hoth t' heq]
        exact hcla t'
    · exact absurd hft (Nat.not_le.2 hfl)
    · cases heq
      exact ⟨s.pending, [], hpen, hoff⟩
    · rw [hpen] at heq
      rcases eq_nil_or_concat bs with rfl | ⟨bs, r'', rfl⟩
      · obtain ⟨rfl, hr⟩ := append_inj' heq rfl
        cases hr
        exact .inr ⟨t, next, by rw [hsl, hoff]⟩
      · rw [concat_eq_append, ← cons_append, ← append_assoc] at heq
        obtain ⟨hspl, -⟩ := append_inj' heq rfl
        exact hwri as r' bs hspl
  · have hpen : (s.fetchAdd t r next).pending = s.pending := if_neg hft
    refine ⟨fun hrm => absurd hrm hft, fun _ => ?_, hov,
      h.placed_goto rfl (fun r' next' o heq hle => ?_) (hpen.trans (append_nil _).symm),
      fun as r' bs heq => hwri as r' bs (hpen ▸ heq), h.file⟩
    · rw [hpen]
      by_cases hbef : s.bufferOffset ≤ bufferSize
      · -- this thread is the first one whose record does not fit
        obtain ⟨hoff, hcla⟩ := h.room hbef
        refine ⟨t, ?_, fun t' hsm => ?_⟩
        · rw [hsl, ← hoff]
          exact if_pos ⟨hbef, Nat.not_le.1 hft⟩
        · by_contra hne
          rw [hoth t' hne] at hsm
          exact hsm (hcla t')
      · obtain ⟨t₀, hclm, huni⟩ := h.full (Nat.not_le.1 hbef)
        refine ⟨t₀, ?_, fun t' hsm => ?_⟩
        · rw [hoth t₀ fun heq => ?_]
          · exact hclm
          · rw [heq, hnn] at hclm
            cases hclm
        · by_cases heq : t' = t
          · rw [heq, hsl] at hsm
            exact absurd (if_neg fun hin => hbef hin.1) hsm
          · rw [hoth t' heq] at hsm
            exact huni t' hsm
    · cases heq
      exact absurd hle hft

/-- `memcpy`: the bytes go to the record's place and to no other. -/
theorem Space.copies (h : Space s) {next : List Record} {offset : ℕ}
    (hpc : s.pc t = .reserved r next offset) (hft : offset + r.size ≤ bufferSize) :
    Space (s.copy t r next offset) := by
  obtain ⟨as, bs, hspl, rfl⟩ := h.placed t r next offset hpc hft
  refine h.goto rfl ?_ (fun r' next' as' bs' _ heq => ?_) ?_
    (fun r' next' o hor => ?_) rfl rfl (fun as' r' bs' heq hold => ?_) rfl rfl
  · have hcla : (s.pc t).claim = none := by
      rw [hpc]
      exact if_neg fun hno => absurd hft (Nat.not_le.2 hno.2)
    rw [hcla]
    cases next <;> rfl
  · rw [hpc] at heq
    injection heq with hr _ hbyt
    rw [← hr, ← hbyt]
    exact holds_write _ _ _
  · cases next <;> exact nofun
  · cases next <;> exact hor.elim nofun nofun
  · -- the record itself, or one whose place is apart
    rcases place_cases (hspl.symm.trans heq) with ⟨rfl, rfl⟩ | hapa
    · exact holds_write _ _ _
    · exact hold.write hapa.symm

/-- `Flush`: the thread that has to flush the buffer writes all records in it. -/
theorem Space.flushes (h : Space s) (hl : Locks s) {next : List Record} {offset : ℕ}
    (hpc : s.pc t = .exclusive r next offset) (hin : offset ≤ bufferSize) :
    offset = bytes s.pending ∧ bufferSize < s.bufferOffset ∧ Space (s.flush t r next offset) := by
  have hov := h.tooFar t r next offset (.inr hpc)
  have hcla : (s.pc t).claim = some offset := by
    rw [hpc]
    exact if_pos ⟨hin, hov⟩
  have hfl : bufferSize < s.bufferOffset := by
    by_contra hrm
    have hnn := (h.room (Nat.not_lt.1 hrm)).2 t
    rw [hcla] at hnn
    cases hnn
  obtain ⟨t₀, hclaim₀, huni⟩ := h.full hfl
  have ht : t = t₀ := huni t (by rw [hcla]; nofun)
  have hoff : offset = bytes s.pending := by
    rw [← ht, hcla] at hclaim₀
    exact some.inj hclaim₀
  -- the exclusive lock: nobody is copying
  have hcp : ∀ t' r' next' o, s.pc t' ≠ .reserved r' next' o := by
    intro t' r' next' o hr'
    have hsha := hl.alone (by rw [(hl.owner t).2 (by rw [hpc]; rfl)]; nofun)
    have hmem := (hl.shared t').2 (by rw [hr']; rfl)
    rw [hsha] at hmem
    exact notMem_empty t' hmem
  have hoth : ∀ t', t' ≠ t → (s.flush t r next offset).pc t' = s.pc t' := fun t' hne =>
    update_of_ne hne ..
  have hsl : (s.flush t r next offset).pc t = .flushed r next := update_self ..
  refine ⟨hoff, hfl, fun _ => ⟨rfl, fun t' => ?_⟩, fun hno => absurd hno (Nat.not_lt_zero _),
    h.tooFar_goto rfl fun _ _ _ hor => hor.elim nofun nofun, fun t' r' next' o hr => ?_,
    fun as r' bs heq => ?_, ?_⟩
  · by_cases heq : t' = t
    · rw [heq, hsl]
      rfl
    · rw [hoth t' heq]
      by_contra hsm
      exact heq ((huni t' hsm).trans ht.symm)
  · by_cases heq : t' = t
    · rw [heq, hsl] at hr
      cases hr
    · rw [hoth t' heq] at hr
      exact absurd hr (hcp t' r' next' o)
  · exact absurd heq (by simp [Writer.flush])
  · change s.file ++ readBytes s.buffer 0 offset = (s.committed ++ s.pending).flatMap Record.encode
    rw [hoff, h.flush_eq hcp, h.file, flatMap_append]

theorem Space.step (h : Space s) (hl : Locks s) (hm : Moves s t s') : Space s' := by
  cases hm with
  | known hpc _ _ | unknown hpc _ _ | late hpc _ _ _ | registers hpc _ _ _ | locks hpc _
  | retries hpc | wakes hpc _ => exact h.aside rfl (by rw [hpc]; rfl) rfl rfl rfl rfl rfl rfl
  | reserves hpc => exact h.reserves hpc
  | copies hpc hft => exact h.copies hpc hft
  | flushes hpc hin => exact (h.flushes hl hpc hin).2.2
  | @overflows r next offset hpc hov =>
    refine h.goto rfl (by rw [hpc]; rfl) (fun r' next' as bs heq heq' => ?_) nofun
      (fun r' next' o hor => ?_) rfl rfl (fun _ _ _ _ hhol => hhol) rfl rfl
    · -- a record in the buffer is one that fits
      rw [hpc] at heq'
      cases heq'
      have hle := h.pending_le
      rw [heq, bytes_append, bytes_cons] at hle
      omega
    · rcases hor with hor | hor <;> cases hor
      exact hov
  | @acquires r next offset hpc _ _ =>
    refine h.goto rfl (by rw [hpc]; rfl) (fun r' next' as bs _ heq => ?_) nofun
      (fun r' next' o hor => ?_) rfl rfl (fun _ _ _ _ hhol => hhol) rfl rfl
    · rw [hpc] at heq
      cases heq
    · rcases hor with hor | hor <;> cases hor
      exact h.tooFar t _ _ _ (.inl hpc)
  | @yields r next offset hpc hout =>
    refine h.goto rfl ?_ (fun r' next' as bs _ heq => ?_) nofun
      (fun _ _ _ hor => hor.elim nofun nofun) rfl rfl (fun _ _ _ _ hhol => hhol) rfl rfl
    · rw [hpc]
      exact (if_neg fun hin => absurd hin.1 (Nat.not_le.2 hout)).symm
    · rw [hpc] at heq
      cases heq

end FastPPC.CodeMap
