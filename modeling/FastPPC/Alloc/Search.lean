import FastPPC.Alloc.OSAllocator64

/-!
# What a search of the 64-bit allocator can do

The searches of `Mmap` change little: they take back `HadMunmap` of a region, map memory, and make
reserved regions active.  `Searched` says this once for all of them, so that a property of the
allocator is shown to survive a search by three cases.

* `State.Searched` : the states a search can lead to;
* `State.placeHint_searched`, `State.placeFixed_searched` : every placement is a search.
-/

namespace FastPPC.Alloc64

open List State

namespace State

variable {p : HostPage} (host : ℕ → ℕ → Option ℕ) {s s' : State}

/-- The states that searches from `s` lead to. -/
inductive Searched (p : HostPage) (s : State) : State → Prop
  | refl : Searched p s s
  | turn {s' : State} {i : ℕ} {r : LiveVMARegion} : Searched p s s' → s'.live[i]? = some r →
      Searched p s (s'.setRegion i { r with hadMunmap := false })
  | map {s' : State} (addr length : ℕ) : Searched p s s' → Searched p s (s'.mapFixed addr length)
  | activate {s' : State} (j : ℕ) : Searched p s s' → Searched p s (s'.makeRegionActive p j)

namespace Searched

/-- The search inside a region. -/
theorem setRegion (h : Searched p s s') {i : ℕ} {r r' : LiveVMARegion} (hi : s'.live[i]? = some r)
    (hr' : r' = r ∨ r' = { r with hadMunmap := false }) : Searched p s (s'.setRegion i r') := by
  rcases hr' with rfl | rfl
  · obtain ⟨hlt, rfl⟩ := List.getElem?_eq_some_iff.1 hi
    rw [State.setRegion, List.set_getElem_self]
    exact h
  · exact h.turn hi

theorem findLiveRegionForAddress (h : Searched p s s') (addr addrEnd : ℕ) :
    Searched p s (s'.findLiveRegionForAddress p addr addrEnd).1 := by
  rw [State.findLiveRegionForAddress]
  split
  · exact h
  · split
    · exact h.activate _
    · exact h

theorem checkIfRangeFits (h : Searched p s s') (i length start : ℕ) :
    Searched p s (s'.checkIfRangeFits p host i length start).1 := by
  rw [State.checkIfRangeFits]
  split
  · exact h
  · rename_i r hi
    split
    · exact h
    · have hset := h.setRegion hi (r.findRange_fst (p := p) (startPage p r start) (length / p.size))
      split
      · rename_i r' heq
        rw [heq] at hset
        exact hset
      · rename_i r' c heq
        rw [heq] at hset
        exact hset.map _ _

theorem searchLive (is : List ℕ) (h : Searched p s s') (length before : ℕ) :
    Searched p s (searchLive p host length is s' before).1 := by
  induction is generalizing s' before with
  | nil => exact h
  | cons i is ih =>
    have hche := h.checkIfRangeFits host i length 0
    rw [searchLive]
    split
    · rename_i t heq
      rw [heq] at hche
      exact ih hche before
    · rename_i t addr heq
      rw [heq] at hche
      exact hche
    · rename_i t addr heq
      rw [heq] at hche
      exact ih hche addr

theorem search (fuel : ℕ) (h : Searched p s s') (length before : ℕ) :
    Searched p s (search p host length fuel s' before).1 := by
  induction fuel generalizing s' before with
  | zero => exact h
  | succ fuel ih =>
    have hlv := h.searchLive host (range s'.live.length) length before
    rw [search]
    split
    · rename_i t addr j heq
      rw [heq] at hlv
      exact hlv
    · rename_i t addr heq
      rw [heq] at hlv
      split
      · exact ih (hlv.activate _) addr
      · exact hlv

end Searched

/-- **The placement of a hint** is a search. -/
theorem placeHint_searched (s : State) (addr addrEnd length : ℕ) :
    Searched p s (s.placeHint p host addr addrEnd length).1 := by
  rw [placeHint]
  split
  · exact Searched.refl.search host _ _ _
  · have hfn := (Searched.refl (p := p) (s := s)).findLiveRegionForAddress addr addrEnd
    split
    · rename_i s' heq
      rw [heq] at hfn
      exact hfn.search host _ _ _
    · rename_i s' j heq
      rw [heq] at hfn
      have hche := hfn.checkIfRangeFits host j length addr
      split
      · rename_i s'' heq'
        rw [heq'] at hche
        exact hche.search host _ _ _
      · rename_i s'' found mapped heq'
        rw [heq'] at hche
        split
        · exact hche
        · exact hche.search host _ _ _

/-- **The placement of an exact address** is a search. -/
theorem placeFixed_searched (s : State) (noreplace : Bool) (addr addrEnd length : ℕ) :
    Searched p s (s.placeFixed p host noreplace addr addrEnd length).1 := by
  have hfn := (Searched.refl (p := p) (s := s)).findLiveRegionForAddress addr addrEnd
  rw [placeFixed]
  split
  · rename_i s' heq
    rw [heq] at hfn
    exact hfn
  · rename_i s' j heq
    rw [heq] at hfn
    have hche := hfn.checkIfRangeFits host j length addr
    split
    · split
      · rename_i s'' found heq'
        rw [heq'] at hche
        split <;> exact hche
      · rename_i s'' found _ heq'
        rw [heq'] at hche
        exact hche
    · split <;> exact hfn.map _ _

theorem makeRegionActive_allocated (s : State) (j : ℕ) :
    (s.makeRegionActive p j).allocated = s.allocated := by
  rw [makeRegionActive]
  split <;> rfl

/-- **What `FindLiveRegionForAddress` returns**, in a state that has a property which active regions
do not take away. -/
theorem findLiveRegionForAddress_rule {P : State → Prop} (hP : P s)
    (hactive : ∀ j, P (s.makeRegionActive p j)) (addr addrEnd : ℕ) :
    s.findLiveRegionForAddress p addr addrEnd = (s, none) ∨
      ∃ s' i r, s.findLiveRegionForAddress p addr addrEnd = (s', some i) ∧ P s' ∧
        s'.allocated = s.allocated ∧ (∀ t ∈ s.live, t ∈ s'.live) ∧ s'.live[i]? = some r ∧
        r ∈ s.live ++ s.reserved.map (ReservedVMARegion.activate p) ∧
        holdsRange addr addrEnd r.slabInfo = true := by
  rw [findLiveRegionForAddress]
  split
  · rename_i i hi
    obtain ⟨hlt, hhol, -⟩ := findIdx?_eq_some_iff_getElem.1 hi
    exact .inr ⟨s, i, s.live[i], rfl, hP, rfl, fun _ ht => ht, getElem?_eq_getElem hlt,
      mem_append_left _ (getElem_mem hlt), hhol⟩
  · split
    · rename_i j hj
      obtain ⟨hlt, hhol, -⟩ := findIdx?_eq_some_iff_getElem.1 hj
      have hget : s.reserved[j]? = some s.reserved[j] := getElem?_eq_getElem hlt
      refine .inr ⟨s.makeRegionActive p j, s.live.length, s.reserved[j].activate p, rfl,
        hactive j, s.makeRegionActive_allocated j, ?_, ?_, ?_, hhol⟩
      · intro t ht
        rw [makeRegionActive, hget]
        exact mem_append_left _ ht
      · rw [makeRegionActive, hget]
        exact getElem?_concat_length
      · exact mem_append_right _ (mem_map_of_mem (getElem_mem hlt))
    · exact .inl rfl

end State

end FastPPC.Alloc64
