import FastPPC.Alloc.Bookkeeping

/-!
# `Mremap` of the 32-bit allocator

`Mremap` tries a move to a fixed address, a shrink, a growth in place and a move to a reserved
range, in one function.  `mremap` promises its caller that a mapping moves at most once and that the
answer is the place where it is, that it does not move unless the caller allows it, and that an
error leaves everything where it was.

* `Contract` : that promise, for one call and its answer;
* `KernelObeys` : what the kernel keeps to;
* `State.mremapMove_cases` : the ways out of the move to a reserved range;
* `mremap_follows_iff` : the calls that keep the promise.
-/

namespace FastPPC.Alloc32

open State Option

variable {h : HostPages} {s s' : State} {q : MremapArgs} {a : MremapAnswers} {first n : ℕ}

/-! ### The promise -/

/-- The pages to which mappings were moved. -/
def movesTo (calls : List HostCall) : List ℕ :=
  calls.filterMap fun c =>
    match c.effect with
    | .move page => some page
    | _ => none

/-- The kernel reported a collision while a range was being reserved. -/
def MmapAnswers.Collides (a : MmapAnswers) : Prop := ∃ x ∈ a.attempts, x.mmap = some .EEXIST

/-- What `mremap` promises of an answer, given the moves that were made. -/
structure Contract (s : State) (q : MremapArgs) (a : MremapAnswers) (s' : State) (answer : Answer)
    (moves : List ℕ) : Prop where
  /-- At most one move, and the answer is where the mapping is. -/
  once : (moves = [] ∧ ∀ ptr, answer = .ok ptr → ptr = q.oldAddress) ∨
    ∃ page, moves = [page] ∧ answer = .ok (page * guestPage)
  fixed : q.fixed = true → ∀ ptr, answer = .ok ptr → ptr = q.newAddress
  stays : q.mayMove = false → moves = []
  /-- After an error nothing has changed, apart from marks for mappings of someone else. -/
  error : ∀ e, answer = .error e →
    s'.kernel = s.kernel ∧ (s'.mappedPages = s.mappedPages ∨ a.reserve.Collides)

/-- `Mremap` returns and keeps the promise. -/
def State.FollowsMremap (h : HostPages) (s : State) (q : MremapArgs) (a : MremapAnswers) : Prop :=
  ∃ s' answer calls, s.mremap h q a = some (s', answer) ∧ s'.issued = calls ++ s.issued ∧
    Contract s q a s' answer (movesTo calls)

/-- The kernel keeps to the rules of `mmap` and `mremap`. -/
structure KernelObeys (h : HostPages) (s : State) (q : MremapArgs) (a : MremapAnswers) : Prop where
  /-- `MREMAP_FIXED` needs `MREMAP_MAYMOVE`. -/
  fixed : q.fixed = true → a.first = none → q.mayMove = true
  /-- A reservation is not empty, and it replaces nothing. -/
  fresh : ∀ s' ptr, s.mmap h q.reservation a.reserve = some (s', .ok ptr) →
    0 < q.newPages h ∧ ∀ p, inRange (ptr / guestPage) (q.newPages h) p = true → s.kernel p = none
  /-- A mapping does not move onto itself. -/
  apart : ∀ s' ptr, s.mmap h q.reservation a.reserve = some (s', .ok ptr) → a.move = none →
    ptr ≠ q.oldAddress

/-! ### The bookkeeping -/

variable {keepOld : Bool} {x : State × Answer}

namespace State

/-- A move is one call. -/
theorem moved_issued (hs : s.moved h q keepOld first = some s') :
    ∃ touches, s'.issued = ⟨.move first, touches⟩ :: s.issued := by
  rw [moved] at hs
  split at hs
  · obtain ⟨-, rfl⟩ := setUsedPages_eq_some_iff.1 hs
    exact ⟨_, rfl⟩
  · obtain ⟨s₁, hs₁, hs⟩ := bind_eq_some_iff.1 hs
    obtain ⟨-, rfl⟩ := setFreePages_eq_some_iff.1 hs₁
    obtain ⟨-, rfl⟩ := setUsedPages_eq_some_iff.1 hs
    exact ⟨_, rfl⟩

/-- A move is recorded if the ranges are below 4 GiB. -/
theorem moved_isSome_iff (hnew : Inside first (q.newPages h)) :
    (∃ s', s.moved h q keepOld first = some s') ↔
      keepOld = true ∨ Inside (q.oldAddress / guestPage) (q.oldPages h) := by
  rw [moved]
  constructor
  · rintro ⟨s', hs⟩
    split at hs
    · rename_i hkp
      exact .inl hkp
    · obtain ⟨s₁, hs₁, -⟩ := bind_eq_some_iff.1 hs
      exact .inr (setFreePages_eq_some_iff.1 hs₁).1
  · intro hor
    split
    · exact ⟨_, setUsedPages_eq_some_iff.2 ⟨hnew, rfl⟩⟩
    · rename_i hkp
      have hold := hor.resolve_left hkp
      exact ⟨_, bind_eq_some_iff.2
        ⟨_, setFreePages_eq_some_iff.2 ⟨hold, rfl⟩, setUsedPages_eq_some_iff.2 ⟨hnew, rfl⟩⟩⟩

/-! ### The reservation -/

/-- What a request for an anonymous mapping without an address leaves behind. -/
inductive Reserves (s : State) (pages : ℕ) (attempts : List Attempt) : State × Answer → Prop
  | refused {s' : State} {e : Errno} (hkernel : s'.kernel = s.kernel)
      (hissued : s'.issued = s.issued)
      (hmarks : s'.mappedPages = s.mappedPages ∨ ∃ x ∈ attempts, x.mmap = some .EEXIST) :
      Reserves s pages attempts (s', .error e)
  | placed {s' : State} {lower : ℕ} (hinside : Inside lower pages)
      (hkernel : s'.kernel = (s.kernelMap lower pages .plain).kernel)
      (hissued : s'.issued = ⟨.map, inRange lower pages⟩ :: s.issued) :
      Reserves s pages attempts (s', .ok (lower * guestPage))

theorem markCollisions_frame {lower pages : ℕ} {mincore : ℕ → Bool}
    (hs : s.markCollisions lower pages mincore = some s') :
    s'.kernel = s.kernel ∧ s'.issued = s.issued := by
  rw [markCollisions] at hs
  split at hs
  · cases hs
    exact ⟨rfl, rfl⟩
  · obtain ⟨-, rfl⟩ := setUsedPages_eq_some_iff.1 hs
    exact ⟨rfl, rfl⟩

theorem noteGranuleProt_frame (s : State) (first n prot : ℕ) :
    (s.noteGranuleProt h first n prot).kernel = s.kernel ∧
      (s.noteGranuleProt h first n prot).issued = s.issued := by
  rw [noteGranuleProt]
  split
  · exact ⟨rfl, rfl⟩
  · exact ⟨rfl, rfl⟩

/-- By induction on the ways out of the search: a collision marks pages and tries again. -/
theorem allocates_reserves {r : MmapArgs} (hoff : r.offset = none) {pages lastKey bottom : ℕ}
    {attempts : List Attempt} (hx : Allocates h r pages lastKey attempts s bottom x) :
    Reserves s pages attempts x := by
  induction hx with
  | refused => exact .refused rfl rfl (.inl rfl)
  | mapped _ _ _ hfou =>
    simp only [mapFound, mapCalls, hoff] at hfou
    obtain ⟨s', hs', rfl⟩ := map_eq_some_iff.1 hfou
    obtain ⟨hins, rfl⟩ := setUsedPages_eq_some_iff.1 hs'
    obtain ⟨hker, hiss⟩ := noteGranuleProt_frame (h := h) _ _ pages r.prot
    exact .placed hins (hker.trans rfl) (hiss.trans rfl)
  | collides _ hexi hmr _ ih =>
    obtain ⟨hker, hiss⟩ := markCollisions_frame hmr
    -- whatever the rest does to the marks, this answer was a collision
    cases ih with
    | refused hk hi hm =>
      exact .refused (hk.trans hker) (hi.trans hiss) (.inr ⟨_, List.mem_cons_self, hexi⟩)
    | placed hin hk hi =>
      refine .placed hin (hk.trans ?_) (hi.trans (by rw [hiss]))
      simp [kernelMap, hker]

theorem mmap_reservation (hx : s.mmap h q.reservation a.reserve = some x) :
    Reserves s (q.newPages h) a.reserve.attempts x := by
  rw [mmap] at hx
  iterate 5
    split at hx
    · cases hx
      exact .refused rfl rfl (.inl rfl)
  split at hx
  · rename_i hfix
    cases hfix
  · exact allocates_reserves rfl (allocateNoHint_cases _ _ _ hx)

/-! ### The move to a reserved range -/

/-- The ways out of the move. -/
inductive Relocates (h : HostPages) (s : State) (q : MremapArgs) (a : MremapAnswers) :
    State × Answer → Prop
  | refused {s' : State} {e : Errno}
      (hmmap : s.mmap h q.reservation a.reserve = some (s', .error e)) :
      Relocates h s q a (s', .error e)
  /-- The range that was reserved stays. -/
  | stuck {s' : State} {ptr e : ℕ}
      (hmmap : s.mmap h q.reservation a.reserve = some (s', .ok ptr)) (hmove : a.move = some e) :
      Relocates h s q a (s', .error (.kernel e))
  | moved {s₁ s' : State} {ptr : ℕ}
      (hmmap : s.mmap h q.reservation a.reserve = some (s₁, .ok ptr)) (hmove : a.move = none)
      (hmoved : s₁.moved h q (q.dontUnmap || ptr == q.oldAddress) (ptr / guestPage) = some s') :
      Relocates h s q a (s', .ok ptr)

theorem mremapMove_cases : s.mremapMove h q a = some x ↔ Relocates h s q a x := by
  constructor
  · intro hx
    obtain ⟨⟨s₁, answer⟩, hmm, hx⟩ := bind_eq_some_iff.1 hx
    cases answer with
    | error e =>
      cases hx
      exact .refused hmm
    | ok ptr =>
      cases hmv : a.move with
      | some e =>
        simp only [hmv] at hx
        cases hx
        exact .stuck hmm hmv
      | none =>
        simp only [hmv] at hx
        obtain ⟨s', hs', rfl⟩ := map_eq_some_iff.1 hx
        exact .moved hmm hmv hs'
  · intro hx
    cases hx with
    | refused hmm => exact bind_eq_some_iff.2 ⟨_, hmm, rfl⟩
    | stuck hmm hmv => exact bind_eq_some_iff.2 ⟨_, hmm, by simp [hmv]⟩
    | moved hmm hmv hmov =>
      exact bind_eq_some_iff.2 ⟨_, hmm, by simp [hmv, hmov]⟩

/-- An address the reservation returns is that of a page. -/
theorem reservation_ptr {ptr : ℕ} (hx : s.mmap h q.reservation a.reserve = some (s', .ok ptr)) :
    ptr / guestPage * guestPage = ptr ∧ Inside (ptr / guestPage) (q.newPages h) ∧
      s'.kernel = (s.kernelMap (ptr / guestPage) (q.newPages h) .plain).kernel ∧
      s'.issued = ⟨.map, inRange (ptr / guestPage) (q.newPages h)⟩ :: s.issued := by
  cases mmap_reservation hx with
  | placed hins hker hiss =>
    rw [Nat.mul_div_cancel _ (by decide : 0 < guestPage)]
    exact ⟨rfl, hins, hker, hiss⟩

/-- A way out moves the mapping exactly if it succeeds. -/
theorem Relocates.moves {answer : Answer} (hx : Relocates h s q a (s', answer)) :
    ∃ calls, s'.issued = calls ++ s.issued ∧ ((∃ e, answer = .error e) ∧ movesTo calls = [] ∨
        ∃ page, answer = .ok (page * guestPage) ∧ movesTo calls = [page]) := by
  cases hx with
  | refused hmm =>
    cases mmap_reservation hmm with
    | refused _ hiss _ => exact ⟨[], hiss, .inl ⟨⟨_, rfl⟩, rfl⟩⟩
  | stuck hmm _ =>
    obtain ⟨-, -, -, hiss⟩ := reservation_ptr hmm
    exact ⟨[_], hiss, .inl ⟨⟨_, rfl⟩, rfl⟩⟩
  | moved hmm _ hmov =>
    obtain ⟨hptr, -, -, hiss⟩ := reservation_ptr hmm
    obtain ⟨touches, hcl⟩ := moved_issued hmov
    rw [hiss] at hcl
    exact ⟨[_, _], hcl, .inr ⟨_, by rw [hptr], rfl⟩⟩

/-- The move to a reserved range is as promised: no range can be had, or the mapping goes to the
range, is allowed to, and its old place is below 4 GiB. -/
def MovesPlainly (h : HostPages) (s : State) (q : MremapArgs) (a : MremapAnswers) : Prop :=
  (∃ s' e, s.mmap h q.reservation a.reserve = some (s', .error e)) ∨
    ((∃ s' ptr, s.mmap h q.reservation a.reserve = some (s', .ok ptr)) ∧ a.move = none ∧
      q.mayMove = true ∧
      (q.dontUnmap = true ∨ Inside (q.oldAddress / guestPage) (q.oldPages h)))

theorem append_right_unique {calls calls' : List HostCall} (h₁ : s'.issued = calls ++ s.issued)
    (h₂ : s'.issued = calls' ++ s.issued) : calls = calls' :=
  List.append_cancel_right (h₁.symm.trans h₂)

/-- A reservation that stays is a mapping that was not there. -/
theorem reservation_leaks (hk : KernelObeys h s q a) {ptr : ℕ}
    (hx : s.mmap h q.reservation a.reserve = some (s', .ok ptr)) : s'.kernel ≠ s.kernel := by
  obtain ⟨-, -, hker, -⟩ := reservation_ptr hx
  obtain ⟨hpos, hfre⟩ := hk.fresh s' ptr hx
  have hin : inRange (ptr / guestPage) (q.newPages h) (ptr / guestPage) = true :=
    inRange_iff.2 ⟨Nat.le_refl _, Nat.lt_add_of_pos_right hpos⟩
  intro heq
  have hpg := congrFun (heq.symm.trans hker) (ptr / guestPage)
  rw [hfre _ hin] at hpg
  simp only [kernelMap, hin, if_true, reduceCtorEq] at hpg

theorem followsMove_iff (hfix : q.fixed = false) (hk : KernelObeys h s q a) :
    (∃ s' answer calls, s.mremapMove h q a = some (s', answer) ∧ s'.issued = calls ++ s.issued ∧
      Contract s q a s' answer (movesTo calls)) ↔ MovesPlainly h s q a := by
  have hnot : ∀ {P : Prop}, q.fixed = true → P := fun hf => absurd (hfix.symm.trans hf) nofun
  constructor
  · rintro ⟨s', answer, calls, hx, hiss, hc⟩
    cases mremapMove_cases.1 hx with
    | refused hmm => exact .inl ⟨_, _, hmm⟩
    | stuck hmm hmv => exact absurd (hc.error _ rfl).1 (reservation_leaks hk hmm)
    | moved hmm hmv hmvd =>
      obtain ⟨calls', hiss', hor⟩ := (mremapMove_cases.1 hx).moves
      obtain rfl := append_right_unique hiss hiss'
      obtain ⟨⟨e, he⟩, -⟩ | ⟨page, -, hmov⟩ := hor
      · cases he
      refine .inr ⟨⟨_, _, hmm⟩, hmv, ?_, ?_⟩
      · cases hmay : q.mayMove with
        | true => rfl
        | false => exact absurd ((hc.stays hmay).symm.trans hmov) nofun
      · obtain ⟨-, hins, -⟩ := reservation_ptr hmm
        have hor := (moved_isSome_iff hins).1 ⟨_, hmvd⟩
        have hne : (_ == q.oldAddress) = false := beq_false_of_ne (hk.apart _ _ hmm hmv)
        rwa [hne, Bool.or_false] at hor
  · rintro (⟨s', e, hmm⟩ | ⟨⟨s₁, ptr, hmm⟩, hmv, hmay, hold⟩)
    · cases mmap_reservation hmm with
      | refused hker hiss hmar =>
        exact ⟨s', _, [], mremapMove_cases.2 (.refused hmm), hiss,
          ⟨.inl ⟨rfl, nofun⟩, fun hf => hnot hf, fun _ => rfl, fun _ _ => ⟨hker, hmar⟩⟩⟩
    · obtain ⟨-, hins, -⟩ := reservation_ptr hmm
      have hkp : (q.dontUnmap || ptr == q.oldAddress) = true ∨
          Inside (q.oldAddress / guestPage) (q.oldPages h) :=
        hold.imp (fun hd => by rw [hd, Bool.true_or]) id
      obtain ⟨s', hmvd⟩ := (moved_isSome_iff (s := s₁) hins).2 hkp
      have hx : Relocates h s q a (s', .ok ptr) := .moved hmm hmv hmvd
      obtain ⟨calls, hiss, ⟨⟨e, he⟩, -⟩ | ⟨page, hpg, hmov⟩⟩ := hx.moves
      · cases he
      · refine ⟨s', _, calls, mremapMove_cases.2 hx, hiss,
          ⟨.inr ⟨page, hmov, hpg⟩, fun hf => hnot hf, fun hst => ?_, nofun⟩⟩
        exact absurd (hmay.symm.trans hst) nofun

/-! ### `Mremap` -/

/-- An error with nothing done is as promised. -/
theorem followsMremap_of_error {e : Errno} (hx : s.mremap h q a = some (s, .error e)) :
    s.FollowsMremap h q a :=
  ⟨s, _, [], hx, rfl, ⟨.inl ⟨rfl, nofun⟩, nofun, fun _ => rfl, fun _ _ => ⟨rfl, .inl rfl⟩⟩⟩

/-- So is a mapping that stays in its place. -/
theorem followsMremap_of_inPlace (hfix : q.fixed = false) {c : HostCall}
    (hx : s.mremap h q a = some (s', .ok q.oldAddress)) (hiss : s'.issued = c :: s.issued)
    (hmov : movesTo [c] = []) : s.FollowsMremap h q a := by
  refine ⟨s', _, [c], hx, hiss, ⟨.inl ⟨hmov, fun ptr hptr => ?_⟩, fun hf => ?_, fun _ => hmov,
    nofun⟩⟩
  · cases hptr
    rfl
  · exact absurd (hfix.symm.trans hf) nofun

/-- After a move to a fixed address the function goes on to the next move, so that it answers with
an error or with another place. -/
theorem not_followsMremap_of_fixed {page : ℕ}
    (hx : s.mremap h q a = s.moved h q keepOld page >>= fun s => s.mremapMove h q a) :
    ¬s.FollowsMremap h q a := by
  rintro ⟨s', answer, calls, hs', hiss, hc⟩
  rw [hx] at hs'
  obtain ⟨s₁, hmov, hmv⟩ := bind_eq_some_iff.1 hs'
  obtain ⟨touches, hfir⟩ := moved_issued hmov
  obtain ⟨calls', hiss', hor⟩ := (mremapMove_cases.1 hmv).moves
  have hcal : calls = calls' ++ [⟨.move page, touches⟩] := by
    refine append_right_unique hiss ?_
    rw [hiss', hfir, List.append_assoc, List.singleton_append]
  have hmvs : movesTo calls = movesTo calls' ++ [page] := by
    rw [hcal, movesTo, List.filterMap_append]
    rfl
  rw [hmvs] at hc
  rcases hor with ⟨⟨e, rfl⟩, hnn⟩ | ⟨page', -, hone⟩
  · rw [hnn] at hc
    rcases hc.once with ⟨hnil, -⟩ | ⟨_, -, hok⟩
    · cases hnil
    · cases hok
  · rw [hone] at hc
    rcases hc.once with ⟨hnil, -⟩ | ⟨page'', htwo, -⟩
    · cases hnil
    · cases htwo

/-- The calls of `Mremap` that are as promised. -/
def RemapsPlainly (h : HostPages) (s : State) (q : MremapArgs) (a : MremapAnswers) : Prop :=
  (s.overlapsHostReservation (q.oldAddress / guestPage) (q.oldPages h) ||
      (q.fixed && s.overlapsHostReservation (q.newAddress / guestPage) (q.newPages h))) = false →
    if q.fixed then a.first ≠ none
    else if q.newPages h < q.oldPages h then
      a.first ≠ none ∨
        Inside (q.oldAddress / guestPage + q.newPages h) (q.oldPages h - q.newPages h)
    else if s.canExtend h q then
      match a.first with
      | none => Inside (q.oldAddress / guestPage) (q.newPages h)
      | some _ => q.mayMove = false ∨ MovesPlainly h s q a
    else MovesPlainly h s q a

end State

/-- **The calls of `Mremap` that keep the promise of `mremap`** are those in which `MREMAP_FIXED` is
refused, a shrink or a growth in place is below 4 GiB, and a mapping that is to move to a reserved
range may move and does. -/
theorem mremap_follows_iff (h : HostPages) (s : State) (q : MremapArgs) (a : MremapAnswers)
    (hk : KernelObeys h s q a) : s.FollowsMremap h q a ↔ s.RemapsPlainly h q a := by
  rw [RemapsPlainly]
  have hdef := mremap.eq_1 h s q a
  split at hdef
  · rename_i hov
    rw [hov]
    exact iff_of_true (followsMremap_of_error hdef) (by rintro ⟨⟩)
  rename_i hov
  rw [Bool.not_eq_true] at hov
  simp only [hov, true_imp_iff]
  split at hdef
  · rename_i hfix
    rw [if_pos hfix]
    cases hfir : a.first with
    | none =>
      simp only [hfir] at hdef
      exact iff_of_false (not_followsMremap_of_fixed hdef) fun hne => hne rfl
    | some e =>
      simp only [hfir] at hdef
      exact iff_of_true (followsMremap_of_error hdef) (by rintro ⟨⟩)
  rename_i hfix
  rw [if_neg hfix]
  rw [Bool.not_eq_true] at hfix
  split at hdef
  · rename_i hls
    rw [if_pos hls]
    cases hfir : a.first with
    | some e =>
      simp only [hfir] at hdef
      exact iff_of_true (followsMremap_of_error hdef) (.inl (by rintro ⟨⟩))
    | none =>
      simp only [hfir] at hdef
      constructor
      · rintro ⟨s', answer, -, hx, -⟩
        rw [hdef] at hx
        obtain ⟨s₁, hs₁, -⟩ := map_eq_some_iff.1 hx
        exact .inr (setFreePages_eq_some_iff.1 hs₁).1
      · intro hor
        have hins := hor.resolve_left fun hne => hne rfl
        rw [map_eq_some_iff.2 ⟨_, setFreePages_eq_some_iff.2 ⟨hins, rfl⟩, rfl⟩] at hdef
        exact followsMremap_of_inPlace hfix hdef rfl rfl
  rename_i hls
  rw [if_neg hls]
  -- the ways that end in a move to a reserved range
  have hmv : s.mremap h q a = s.mremapMove h q a →
      (s.FollowsMremap h q a ↔ s.MovesPlainly h q a) := fun heq => by
    rw [FollowsMremap, heq]
    exact followsMove_iff hfix hk
  split at hdef
  · rename_i hext
    rw [if_pos hext]
    cases hfir : a.first with
    | none =>
      simp only [hfir] at hdef ⊢
      constructor
      · rintro ⟨s', answer, -, hx, -⟩
        rw [hdef] at hx
        obtain ⟨s₁, hs₁, -⟩ := map_eq_some_iff.1 hx
        exact (setUsedPages_eq_some_iff.1 hs₁).1
      · intro hins
        rw [map_eq_some_iff.2 ⟨_, setUsedPages_eq_some_iff.2 ⟨hins, rfl⟩, rfl⟩] at hdef
        exact followsMremap_of_inPlace hfix hdef rfl rfl
    | some e =>
      simp only [hfir] at hdef ⊢
      cases hmay : q.mayMove with
      | true =>
        rw [hmay, if_pos rfl] at hdef
        rw [hmv hdef]
        exact ⟨.inr, fun hor => hor.resolve_left (by rintro ⟨⟩)⟩
      | false =>
        rw [hmay] at hdef
        exact iff_of_true (followsMremap_of_error hdef) (.inl rfl)
  · rename_i hext
    rw [if_neg hext]
    exact hmv hdef

/-! ### Two neighbours -/

/-- Two pages are mapped next to each other. -/
def neighbours : State :=
  { initial with
    mappedPages := fun p => permanent p || p == 100 || p == 101
    kernel := fun p => if p = 100 ∨ p = 101 then some .plain else none }

/-- The first of them is to become two pages. -/
def growing (mayMove fixed : Bool) : MremapArgs :=
  ⟨100 * guestPage, guestPage, 2 * guestPage, mayMove, fixed, false, 200 * guestPage⟩

theorem neighbours_obeys {mayMove fixed : Bool} {move first : Option ℕ}
    (hfix : fixed = true → mayMove = true) :
    KernelObeys .k4 neighbours (growing mayMove fixed) ⟨first, obliging, move⟩ := by
  have hans : (neighbours.mmap .k4 (growing mayMove fixed).reservation obliging).map (·.2) =
      some (.ok (0xFFFFD * guestPage)) := by
    change (neighbours.mmap .k4 (growing true true).reservation obliging).map (·.2) = _
    decide +kernel
  have hptr : ∀ s' ptr, neighbours.mmap .k4 (growing mayMove fixed).reservation obliging =
      some (s', .ok ptr) → ptr = 0xFFFFD * guestPage := by
    intro s' ptr hx
    rw [hx] at hans
    cases hans
    rfl
  refine ⟨fun hf _ => hfix hf, fun s' ptr hx => ?_, fun s' ptr hx _ => ?_⟩
  · obtain rfl := hptr s' ptr hx
    have hpag : (growing mayMove fixed).newPages .k4 = 2 := by
      cases mayMove <;> cases fixed <;> decide
    refine ⟨by rw [hpag]; decide, fun p hp => if_neg ?_⟩
    have hle := (inRange_iff.1 hp).1
    have hpg : 0xFFFFD * guestPage / guestPage = 0xFFFFD := by decide
    omega
  · obtain rfl := hptr s' ptr hx
    have hold : (growing mayMove fixed).oldAddress = 100 * guestPage := rfl
    rw [hold]
    decide

/-- The neighbour is in the way, so that the mapping has to move. -/
theorem neighbours_mremap (mayMove : Bool) (a : MremapAnswers) :
    neighbours.mremap .k4 (growing mayMove false) a =
      neighbours.mremapMove .k4 (growing mayMove false) a := by
  have hext : neighbours.canExtend .k4 (growing mayMove false) = false := by
    cases mayMove <;> decide
  rw [mremap, if_neg (by cases mayMove <;> decide), if_neg (by cases mayMove <;> decide),
    if_neg (by cases mayMove <;> decide), hext, if_neg Bool.false_ne_true]

theorem mremap_follows_neighbours :
    neighbours.FollowsMremap .k4 (growing true false) ⟨none, obliging, none⟩ := by
  have hobe : KernelObeys .k4 neighbours (growing true false) ⟨none, obliging, none⟩ :=
    neighbours_obeys fun _ => rfl
  refine (mremap_follows_iff .k4 neighbours _ _ hobe).2 fun _ => ?_
  have hext : neighbours.canExtend .k4 (growing true false) = false := by decide
  have hls : ¬(growing true false).newPages .k4 < (growing true false).oldPages .k4 := by decide
  rw [if_neg (by decide), if_neg hls, hext, if_neg (by decide)]
  have hsm : ((neighbours.mmap .k4 (growing true false).reservation obliging).any fun r =>
      r.2 == .ok (0xFFFFD * guestPage)) = true := by decide +kernel
  obtain ⟨⟨s', answer⟩, hx, hr⟩ := any_eq_true _ _ |>.1 hsm
  exact .inr ⟨⟨s', _, by rw [hx, ← beq_iff_eq.1 hr]⟩, rfl, rfl, .inr (by decide)⟩

/-- **Three ways to break the promise**, each under a kernel that keeps to the rules.  After a move
to a fixed address the second move fails, and the error hides that the mapping has moved; a mapping
that may not move moves; and a move that fails leaves its reservation behind. -/
theorem mremap_breaks_promise :
    (KernelObeys .k4 neighbours (growing true true) ⟨none, obliging, some 14⟩ ∧
        ¬neighbours.FollowsMremap .k4 (growing true true) ⟨none, obliging, some 14⟩) ∧
      (KernelObeys .k4 neighbours (growing false false) ⟨none, obliging, none⟩ ∧
        ¬neighbours.FollowsMremap .k4 (growing false false) ⟨none, obliging, none⟩) ∧
      KernelObeys .k4 neighbours (growing true false) ⟨none, obliging, some 12⟩ ∧
        ¬neighbours.FollowsMremap .k4 (growing true false) ⟨none, obliging, some 12⟩ := by
  refine ⟨⟨neighbours_obeys fun _ => rfl, not_followsMremap_of_fixed rfl⟩,
    ⟨neighbours_obeys nofun, ?_⟩, neighbours_obeys nofun, ?_⟩
  · rw [FollowsMremap, neighbours_mremap, followsMove_iff rfl (neighbours_obeys nofun)]
    rintro (⟨s', e, hx⟩ | ⟨-, -, hmay, -⟩)
    · have hok : ((neighbours.mmap .k4 (growing false false).reservation obliging).any fun r =>
          r.2 == .ok (0xFFFFD * guestPage)) = true := by decide +kernel
      rw [hx] at hok
      cases hok
    · cases hmay
  · rw [FollowsMremap, neighbours_mremap, followsMove_iff rfl (neighbours_obeys nofun)]
    rintro (⟨s', e, hx⟩ | ⟨-, hno, -⟩)
    · have hok : ((neighbours.mmap .k4 (growing true false).reservation obliging).any fun r =>
          r.2 == .ok (0xFFFFD * guestPage)) = true := by decide +kernel
      rw [hx] at hok
      cases hok
    · cases hno

end FastPPC.Alloc32
