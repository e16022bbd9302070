import FastPPC.Codec.LittleEndian

/-!
# Byte memories

A memory is a function from offsets to bytes; a byte string is written at an offset and read back.

* `readBytes m off n` : the `n` bytes at `off`;
* `write m off bs` : the memory after `bs` was stored at `off`;
* `Holds m off bs` : the memory holds `bs` at `off`; a string is held exactly if its parts are
  (`holds_append`), it is held after it was written (`holds_write`), and a write elsewhere leaves
  it alone (`Holds.write`);
* `readLe m off n` : the `n`-byte little-endian number at `off`.
-/

namespace FastPPC.Codec

open List

variable {off : ℕ} {bs : List Byte}

/-- A byte for every offset. -/
abbrev Memory := ℕ → Byte

/-- The `n` bytes at an offset. -/
def readBytes (m : Memory) : ℕ → ℕ → List Byte
  | _, 0 => []
  | off, n + 1 => m off :: readBytes m (off + 1) n

def write (m : Memory) (off : ℕ) (bs : List Byte) : Memory :=
  fun a => if off ≤ a then (bs[a - off]?).getD (m a) else m a

def Holds (m : Memory) (off : ℕ) (bs : List Byte) : Prop := readBytes m off bs.length = bs

/-- The little-endian number of `n` bytes at an offset. -/
def readLe (m : Memory) (off n : ℕ) : ℕ := leValue (readBytes m off n)

@[simp]
theorem length_readBytes (m : Memory) (off n : ℕ) : (readBytes m off n).length = n := by
  induction n generalizing off with
  | zero => rfl
  | succ n ih => rw [readBytes, length_cons, ih]

theorem readBytes_add (m : Memory) (off a b : ℕ) :
    readBytes m off (a + b) = readBytes m off a ++ readBytes m (off + a) b := by
  induction a generalizing off with
  | zero => rw [Nat.zero_add, Nat.add_zero, readBytes, nil_append]
  | succ a ih =>
    rw [Nat.succ_add, readBytes, readBytes, cons_append, ih, Nat.succ_add_eq_add_succ]

variable {m : Memory}

theorem readBytes_congr {m' : Memory} {n : ℕ} (h : ∀ a, off ≤ a → a < off + n → m a = m' a) :
    readBytes m off n = readBytes m' off n := by
  induction n generalizing off with
  | zero => rfl
  | succ n ih =>
    rw [readBytes, readBytes, h off le_rfl (by omega)]
    congr 1
    apply ih
    intro a ha hlt
    exact h a (by omega) (by omega)

theorem write_outside {a : ℕ} (h : a < off ∨ off + bs.length ≤ a) : write m off bs a = m a := by
  unfold write
  split
  · rw [getElem?_eq_none (by omega), Option.getD_none]
  · rfl

/-- The parts of a held string are held one after the other. -/
theorem holds_append {as : List Byte} :
    Holds m off (as ++ bs) ↔ Holds m off as ∧ Holds m (off + as.length) bs := by
  unfold Holds
  rw [length_append, readBytes_add]
  constructor
  · intro h
    exact append_inj h (length_readBytes ..)
  · rintro ⟨ha, hb⟩
    rw [ha, hb]

theorem holds_cons {b : Byte} : Holds m off (b :: bs) ↔ m off = b ∧ Holds m (off + 1) bs := by
  unfold Holds
  rw [length_cons, readBytes, cons_eq_cons]

theorem holds_nil (m : Memory) (off : ℕ) : Holds m off [] := rfl

theorem write_cons_at (m : Memory) (off : ℕ) (b : Byte) (bs : List Byte) :
    write m off (b :: bs) off = b := by
  unfold write
  rw [if_pos le_rfl, Nat.sub_self, getElem?_cons_zero, Option.getD_some]

theorem write_cons_after (m : Memory) {a : ℕ} (b : Byte) (bs : List Byte) (h : off + 1 ≤ a) :
    write m off (b :: bs) a = write m (off + 1) bs a := by
  unfold write
  rw [if_pos h, if_pos (by omega), show a - off = (a - (off + 1)) + 1 by omega, getElem?_cons_succ]

theorem holds_write (m : Memory) (off : ℕ) (bs : List Byte) : Holds (write m off bs) off bs := by
  induction bs generalizing off with
  | nil => exact holds_nil _ _
  | cons b bs ih =>
    refine holds_cons.2 ⟨write_cons_at m off b bs, ?_⟩
    refine Eq.trans (readBytes_congr ?_) (ih (off + 1))
    intro a ha _
    exact write_cons_after m b bs ha

/-- A write elsewhere leaves a held string alone. -/
theorem Holds.write (h : Holds m off bs) {off' : ℕ} {bs' : List Byte}
    (hd : off + bs.length ≤ off' ∨ off' + bs'.length ≤ off) : Holds (write m off' bs') off bs := by
  refine Eq.trans (readBytes_congr ?_) h
  intro a ha hlt
  exact write_outside (by omega)

theorem Holds.readLe {n v : ℕ} (h : Holds m off (leBytes n v)) (hv : v < 256 ^ n) :
    readLe m off n = v := by
  unfold Holds at h
  rw [length_leBytes] at h
  rw [Codec.readLe, h, leValue_leBytes hv]

end FastPPC.Codec
