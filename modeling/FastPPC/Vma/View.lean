import FastPPC.Vma.Invariant

/-!
# The address space a tracker stands for

`AddressMap` says, for every address, what is mapped there: the resource, the flags, the
protection and the offset in the resource.  It is what the tracker is for, and has no
intervals, no nodes and no links.  `VMATracking.view` reads the map off a tracker state.
-/

namespace FastPPC.Vma

open DList VMAEntry

structure Mapped where
  resource : Option ResId
  flags : VMAFlags
  prot : VMAProt
  /-- The file offset of the address. -/
  offset : ℕ
  deriving DecidableEq

abbrev AddressMap := ℕ → Option Mapped

namespace AddressMap

variable (m : AddressMap) (base length : ℕ)

def track (r : Option ResId) (offset : ℕ) (flags : VMAFlags) (prot : VMAProt) : AddressMap :=
  fun a => if base ≤ a ∧ a < base + length then some ⟨r, flags, prot, wadd offset (a - base)⟩
    else m a

def delete : AddressMap := fun a => if base ≤ a ∧ a < base + length then none else m a

/-- Change the protection of a range, and nothing else. -/
def protect (prot : VMAProt) : AddressMap :=
  fun a => if base ≤ a ∧ a < base + length then (m a).map fun x => { x with prot := prot }
    else m a

/-- The effect of a call; the resources of the tracker are not part of the map. -/
def apply : Op → AddressMap
  | .insertResource _ _ => m
  | .track r base offset length flags prot => m.track base length r offset flags prot
  | .delete base length _ => m.delete base length
  | .protect base length prot => m.protect base length prot
  | .deleteSHM _ => m

end AddressMap

namespace VMAEntry

def Covers (e : VMAEntry) (a : ℕ) : Prop := e.base ≤ a ∧ a < e.base + e.length

instance (e : VMAEntry) (a : ℕ) : Decidable (e.Covers a) := inferInstanceAs (Decidable (_ ∧ _))

/-- What the mapping says about an address it contains. -/
def mappedAt (e : VMAEntry) (a : ℕ) : Mapped :=
  ⟨e.resource, e.flags, e.prot, wadd e.offset (a - e.base)⟩

theorem covers_congr {e e' : VMAEntry} (h : e.unlinked = e'.unlinked) {a : ℕ} :
    e.Covers a ↔ e'.Covers a := by
  obtain ⟨-, hb, -, hl, -⟩ := VMATracking.unlinked_inj h
  rw [Covers, Covers, hb, hl]

theorem mappedAt_congr {e e' : VMAEntry} (h : e.unlinked = e'.unlinked) (a : ℕ) :
    e.mappedAt a = e'.mappedAt a := by
  obtain ⟨h₁, h₂, h₃, -, h₅, h₆⟩ := VMATracking.unlinked_inj h
  rw [mappedAt, mappedAt, h₁, h₂, h₃, h₅, h₆]

end VMAEntry

namespace VMATracking

/-- The map a tracker state stands for. -/
def view (s : VMATracking) : AddressMap := fun a =>
  (s.vmas.find? fun i => (s.node i).Covers a).map fun i => (s.node i).mappedAt a

variable {s s' : VMATracking} {chain : ResId → List NodeId} {i : NodeId} {r : ResId}
  {seg : List NodeId} {a : ℕ}

theorem Wf.eq_of_covers (hw : s.Wf) {j : NodeId} (hi : i ∈ s.vmas) (hj : j ∈ s.vmas)
    (hia : (s.node i).Covers a) (hja : (s.node j).Covers a) : i = j := by
  by_contra hne
  have := hw.disjoint hi hj hne
  simp only [VMAEntry.Covers, top] at hia hja this
  omega

theorem view_eq_none (h : ∀ j ∈ s.vmas, ¬(s.node j).Covers a) : s.view a = none := by
  rw [view, List.find?_eq_none.2 fun j hj => by simpa using h j hj]; rfl

theorem Wf.view_eq (hw : s.Wf) (hi : i ∈ s.vmas) (ha : (s.node i).Covers a) :
    s.view a = some ((s.node i).mappedAt a) := by
  cases hf : s.vmas.find? fun i => (s.node i).Covers a with
  | none => simpa [ha] using List.find?_eq_none.1 hf i hi
  | some j =>
    have hj : (s.node j).Covers a := by simpa using List.find?_some hf
    rw [view, hf, hw.eq_of_covers hi (List.mem_of_find?_eq_some hf) ha hj]; rfl

theorem view_eq_none_iff (hw : s.Wf) : s.view a = none ↔ ∀ j ∈ s.vmas, ¬(s.node j).Covers a :=
  ⟨fun h j hj hc => by simp [hw.view_eq hj hc] at h, view_eq_none⟩

theorem SameData.view (h : s.SameData s') : s'.view = s.view := by
  funext a
  have : ∀ j, decide ((s'.node j).Covers a) = decide ((s.node j).Covers a) := fun j =>
    decide_eq_decide.2 (covers_congr (h.data j))
  simp only [VMATracking.view, h.vmas, this, mappedAt_congr (h.data _)]

/-- **An edit of one mapping changes the map inside that mapping only**, and there it is read off
the new pieces. -/
theorem Edit.view (h : s.Edit s' i seg) (hw : s.Wf) (hw' : s'.Wf) (hi : i ∈ s.vmas)
    (hin : ∀ j ∈ seg, (s.node i).base ≤ (s'.node j).base ∧ s'.top j ≤ s.top i) {m : AddressMap}
    (hm : ∀ a, (s.node i).Covers a → (m a = none ∧ ∀ j ∈ seg, ¬(s'.node j).Covers a) ∨
      ∃ j ∈ seg, (s'.node j).Covers a ∧ m a = some ((s'.node j).mappedAt a)) (a : ℕ) :
    s'.view a = if (s.node i).Covers a then m a else s.view a := by
  have hout : ∀ j ∈ seg, (s'.node j).Covers a → (s.node i).Covers a := fun j hj hc => by
    have := hin j hj
    simp only [VMAEntry.Covers, top] at hc this ⊢
    omega
  split_ifs with ha
  · rcases hm a ha with ⟨hnn, hno⟩ | ⟨j, hj, hc, hsm⟩
    · rw [hnn, view_eq_none]
      intro j hj
      rcases (h.mem hi).1 hj with ⟨hj, hne⟩ | hj
      · rw [covers_congr (h.frame j hj hne)]
        exact fun hc => hne (hw.eq_of_covers hj hi hc ha)
      · exact hno j hj
    · rw [hsm, hw'.view_eq ((h.mem hi).2 (.inr hj)) hc]
  · by_cases hex : ∃ j ∈ s.vmas, (s.node j).Covers a
    · obtain ⟨j, hj, hc⟩ := hex
      have hne : j ≠ i := fun e => ha (e ▸ hc)
      have hf := h.frame j hj hne
      rw [hw.view_eq hj hc, hw'.view_eq ((h.mem hi).2 (.inl ⟨hj, hne⟩))
        ((covers_congr hf).2 hc), mappedAt_congr hf]
    · push Not at hex
      rw [view_eq_none hex, view_eq_none]
      intro j hj
      rcases (h.mem hi).1 hj with ⟨hj, hne⟩ | hj
      · rw [covers_congr (h.frame j hj hne)]
        exact hex j hj
      · exact fun hc => ha (hout j hj hc)

end VMATracking

end FastPPC.Vma
