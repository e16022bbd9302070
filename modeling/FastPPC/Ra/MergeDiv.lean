import FastPPC.Ra.DivideExact

/-!
# Division of an extended number

A division whose upper half was just made by extending the lower one loses the upper half, and the
extension goes too if the remainder is to be in its register.

* `short_eq_long` : **the short division is the long one**, for some numbers in the place of those
  the architecture leaves undefined, unless the quotient does not fit;
* `div_kept`, `div_dropped` : the same for the code, with the extension kept and dropped;
* `div_overflow`, `div_quotient_alias`, `div_lower_alias`, `div_divisor_alias` : where it is not.
-/

namespace FastPPC.Ra

open State Undefined

/-- `upper:lower` is an extension of `lower`, at the size of a division. -/
def Extended (signed : Bool) (size : OpSize) (upper lower : BitVec 64) : Prop :=
  if size = .i64Bit then upper = extension signed lower
  else upper.setWidth 32 = extension signed (lower.setWidth 32)

/-- The quotient of two numbers does not fit. -/
def DivOverflows (signed : Bool) (size : OpSize) (lower divisor : BitVec 64) : Prop :=
  signed = true ∧ if size = .i64Bit then Overflows lower divisor
    else Overflows (lower.setWidth 32) (divisor.setWidth 32)

namespace Undefined

variable (u : Undefined) (signed : Bool) (size : OpSize)

/-- A division of 32 or 64 bits with an upper half. -/
def long (upper lower divisor : BitVec 64) : BitVec 64 × BitVec 64 :=
  if size = .i64Bit then u.long64 signed upper lower divisor
  else u.divide32 signed false (some upper) lower divisor

/-- A division of 32 or 64 bits without an upper half. -/
def short (lower divisor : BitVec 64) : BitVec 64 × BitVec 64 :=
  if size = .i64Bit then
    (u.quotient64 signed lower divisor, lower - u.quotient64 signed lower divisor * divisor)
  else u.divide32 signed false none lower divisor

end Undefined

variable {C : Type} {signed : Bool} {size : OpSize} {x y lower upper divisor : BitVec 64}

/-! ### The numbers -/

theorem extension_extension {w : ℕ} (z : BitVec w) :
    extension signed (extension signed z) = extension signed z := by
  cases signed
  · rfl
  · simp only [extension, signFill]
    rcases hz : z.msb
    · simp
    · have hw : 0 < w := by
        rcases w with - | w
        · simp [BitVec.of_length_zero] at hz
        · exact w.succ_pos
      simp [BitVec.msb_allOnes hw]

theorem Extended.self (h : Extended signed size x y) : Extended signed size x x := by
  unfold Extended at h ⊢
  split at h
  · rename_i hsz
    rw [if_pos hsz, h, extension_extension]
  · rename_i hsz
    rw [if_neg hsz, h, extension_extension]

variable (u : Undefined)

/-- **The short division is the long one.** -/
theorem short_eq_long (h : Extended signed size upper lower)
    (ho : ¬DivOverflows signed size lower divisor) :
    ∃ u' : Undefined, u.short signed size lower divisor =
      u'.long signed size upper lower divisor := by
  unfold Extended at h
  unfold DivOverflows at ho
  unfold short long
  split at h
  · rename_i hsz
    subst h
    simp only [if_pos hsz] at ho ⊢
    by_cases hd : divisor = 0
    · subst hd
      obtain ⟨u', hu'⟩ := long64_zero signed lower (u.quotient64 signed lower 0)
      exact ⟨u', by rw [hu', mul_zero, sub_zero]⟩
    · exact ⟨u, by rw [long64_eq hd, quotient64_eq hd ho]⟩
  · rename_i hsz
    simp only [if_neg hsz] at ho ⊢
    by_cases hd : divisor.setWidth 32 = 0
    · obtain ⟨q, hq⟩ := divide32_short_zero u signed lower hd
      obtain ⟨u', hu'⟩ := divide32_long_zero h hd q
      exact ⟨u', by rw [hq, hu']⟩
    · exact ⟨u, by rw [divide32_long h hd, divide32_short hd ho]⟩

theorem exactQuotient_self {w : ℕ} {z : BitVec w} (hz : z ≠ 0) : exactQuotient signed z z = 1 := by
  have hbeq : (z == 0#w) = false := beq_eq_false_iff_ne.2 hz
  cases signed
  · exact BitVec.udiv_self.trans (by rw [hbeq]; rfl)
  · exact BitVec.sdiv_self.trans (by rw [hbeq]; rfl)

theorem extension_zero (w : ℕ) : extension signed (0 : BitVec w) = 0 := by
  cases signed <;> simp [extension, signFill]

theorem not_overflows_self (signed : Bool) (size : OpSize) (z : BitVec 64) :
    ¬DivOverflows signed size z z := by
  rintro ⟨-, h⟩
  split at h
  · exact absurd (h.1.symm.trans h.2) (by decide)
  · exact absurd (h.1.symm.trans h.2) (by decide)

/-- **Two equal numbers** leave no remainder, and neither do their extensions. -/
theorem short_eq_long_self (h : Extended signed size x y) :
    ∃ u' : Undefined, u.short signed size y y = u'.long signed size x x x := by
  have hno := not_overflows_self signed size y
  have hsl := h.self
  unfold Extended at h hsl
  unfold DivOverflows at hno
  unfold short long
  by_cases hsz : size = .i64Bit
  · simp only [if_pos hsz] at h hsl hno ⊢
    have hrem : y - u.quotient64 signed y y * y = 0 := by
      by_cases hy : y = 0
      · rw [hy, mul_zero, sub_zero]
      · rw [quotient64_eq hy hno, exactQuotient_self hy, one_mul, sub_self]
    by_cases hx : x = 0
    · -- the long division is by zero and leaves any quotient
      obtain ⟨u', hu'⟩ := long64_zero signed 0 (u.quotient64 signed y y)
      rw [extension_zero] at hu'
      exact ⟨u', by rw [hrem, hx, hu']⟩
    · have hy : y ≠ 0 := fun hy => hx (by rw [h, hy, extension_zero])
      have hln : u.long64 signed (extension signed x) x x = (1, 0) := by
        rw [long64_eq hx, exactQuotient_self hx, one_mul, sub_self]
      rw [← hsl] at hln
      exact ⟨u, by rw [hrem, hln, quotient64_eq hy hno, exactQuotient_self hy]⟩
  · simp only [if_neg hsz] at h hsl hno ⊢
    by_cases hx : x.setWidth 32 = 0
    · obtain ⟨q, hq⟩ : ∃ q : BitVec 32, u.divide32 signed false none y y = (q.setWidth 64, 0) := by
        by_cases hy : y.setWidth 32 = 0
        · obtain ⟨q, hq⟩ := divide32_short_zero u signed y hy
          exact ⟨q, by rw [hq, hy]; rfl⟩
        · refine ⟨1, ?_⟩
          rw [divide32_short hy hno, exactQuotient_self hy]
          simp only [one_mul, sub_self]
          rfl
      obtain ⟨u', hu'⟩ := divide32_long_zero hsl hx q
      exact ⟨u', by rw [hq, hu', hx]; rfl⟩
    · have hy : y.setWidth 32 ≠ 0 := fun hy => hx (by rw [h, hy, extension_zero])
      refine ⟨u, ?_⟩
      rw [divide32_short hy hno, divide32_long hsl hx, exactQuotient_self hx, exactQuotient_self hy]
      simp only [one_mul, sub_self]

/-- **A quotient that does not fit.** -/
theorem short_ne_long_of_overflows (u' : Undefined) (h : Extended signed size upper lower)
    (ho : DivOverflows signed size lower divisor) :
    ((const 0 0 0).short signed size lower divisor).2 ≠
      (u'.long signed size upper lower divisor).2 := by
  obtain ⟨rfl, ho⟩ := ho
  unfold Extended at h
  unfold short long
  split at ho
  · rename_i hsz
    obtain ⟨rfl, rfl⟩ := ho
    rw [if_pos hsz] at h
    subst h
    rw [if_pos hsz, if_pos hsz, long64_eq (by decide)]
    decide
  · rename_i hsz
    obtain ⟨hlow, hdiv⟩ := ho
    rw [if_neg hsz] at h
    rw [if_neg hsz, if_neg hsz, divide32_long h (by rw [hdiv]; decide), hlow, hdiv]
    simp only [divide32, dividend32, extend, hlow, hdiv]
    decide

/-- The divisor is zero, at the size of a division. -/
def DivisorZero (size : OpSize) (divisor : BitVec 64) : Prop :=
  if size = .i64Bit then divisor = 0 else divisor.setWidth 32 = 0

/-- The remainder, where it is defined. -/
def exactRemainder (signed : Bool) (size : OpSize) (lower divisor : BitVec 64) : BitVec 64 :=
  if size = .i64Bit then lower - exactQuotient signed lower divisor * divisor
  else (lower.setWidth 32 - exactQuotient signed (lower.setWidth 32) (divisor.setWidth 32) *
    divisor.setWidth 32).setWidth 64

theorem short_snd (hd : ¬DivisorZero size divisor) (ho : ¬DivOverflows signed size lower divisor) :
    (u.short signed size lower divisor).2 = exactRemainder signed size lower divisor := by
  unfold DivOverflows at ho
  unfold DivisorZero at hd
  unfold short exactRemainder
  split at ho
  · rename_i hsz
    simp only [if_pos hsz] at hd ⊢
    rw [quotient64_eq hd ho]
  · rename_i hsz
    simp only [if_neg hsz] at hd ⊢
    rw [divide32_short hd ho]

theorem long_snd (h : Extended signed size upper lower) (hd : ¬DivisorZero size divisor) :
    (u.long signed size upper lower divisor).2 = exactRemainder signed size lower divisor := by
  unfold Extended at h
  unfold DivisorZero at hd
  unfold long exactRemainder
  split at h
  · rename_i hsz
    subst h
    simp only [if_pos hsz] at hd ⊢
    rw [long64_eq hd]
  · rename_i hsz
    simp only [if_neg hsz] at hd ⊢
    rw [divide32_long h hd]

/-- Divided by zero, a number is its own remainder. -/
theorem long_snd_zero (h : Extended signed size upper lower) (hd : DivisorZero size divisor) :
    (u.long signed size upper lower divisor).2 =
      if size = .i64Bit then lower else (lower.setWidth 32).setWidth 64 := by
  unfold Extended at h
  unfold DivisorZero at hd
  unfold long
  split at h
  · rename_i hsz
    simp only [if_pos hsz] at hd ⊢
    rw [h, hd, long64_zero_snd]
  · rename_i hsz
    simp only [if_neg hsz] at hd ⊢
    rw [divide32_zero_snd u h hd]

theorem not_divisorZero_three : ¬DivisorZero size 3 := by
  unfold DivisorZero
  split <;> decide

/-- Five divided by three, and its extension divided by three. -/
theorem five_div_three (u u' : Undefined) (h : Extended signed size x 5) :
    ¬DivOverflows signed size x 3 ∧
      (u.short signed size 5 3).2 ≠ (u'.long signed size x x 3).2 := by
  have hno : ∀ y : BitVec 64, ¬DivOverflows signed size y 3 := by
    rintro y ⟨-, ho⟩
    split at ho
    · exact absurd ho.2 (by decide)
    · exact absurd ho.2 (by decide)
  refine ⟨hno x, ?_⟩
  rw [short_snd u not_divisorZero_three (hno 5), long_snd u' h.self not_divisorZero_three]
  unfold Extended at h
  unfold exactRemainder
  by_cases hsz : size = .i64Bit
  · simp only [if_pos hsz] at h ⊢
    rw [h]
    cases signed <;> decide
  · simp only [if_neg hsz] at h ⊢
    rw [h]
    cases signed <;> decide

/-- Five or its negative, divided by three and divided by its extension. -/
theorem five_div_extension (u u' : Undefined)
    (h : Extended signed size x (if signed then -5 else 5)) :
    ¬DivOverflows signed size (if signed then -5 else 5) x ∧
      (u.short signed size (if signed then -5 else 5) 3).2 ≠
        (u'.long signed size x (if signed then -5 else 5) x).2 := by
  have hno : ∀ y : BitVec 64, ¬DivOverflows signed size (if signed then -5 else 5) y := by
    rintro y ⟨rfl, ho⟩
    split at ho
    · exact absurd ho.1 (by decide)
    · exact absurd ho.1 (by decide)
  refine ⟨hno x, ?_⟩
  rw [short_snd u not_divisorZero_three (hno 3)]
  cases signed
  · -- the extension is zero, and the dividend remains
    have hzr : DivisorZero size x := h
    rw [long_snd_zero u' h hzr]
    unfold exactRemainder
    split <;> decide
  · -- the extension is minus one, and nothing remains
    have hone : ¬DivisorZero size x := by
      unfold Extended at h
      unfold DivisorZero
      split at h
      · rename_i hsz
        rw [if_pos hsz, h]
        decide
      · rename_i hsz
        rw [if_neg hsz, h]
        decide
    rw [long_snd u' h hone]
    unfold Extended at h
    unfold exactRemainder
    by_cases hsz : size = .i64Bit
    · simp only [if_pos hsz] at h ⊢
      rw [h]
      decide
    · simp only [if_neg hsz] at h ⊢
      rw [h]
      decide

/-! ### The code -/

variable {f : BitVec 64 → BitVec 64}

section Code

variable {cfg : Config C} {s : State C} {last : Op C} {rl ru rd rq rr : Reg}

theorem signExtend_one (b : BitVec 1) :
    b.signExtend 64 = if b.msb then BitVec.allOnes 64 else 0 := by
  revert b
  decide

theorem signExtend_extract {field : Field} (hwid : field.width = 1) {n : ℕ} (hpos : 0 < n)
    (hlsb : field.lsb = n - 1) (hsz : field.size = .i64Bit ∨ n ≤ 32) (y : BitVec 64) :
    (field.extract y).signExtend 64 = if (y.setWidth n).msb then BitVec.allOnes 64 else 0 := by
  obtain ⟨fsize, width, lsb, valid⟩ := field
  subst hwid hlsb
  have hbit : (if fsize = .i64Bit then y else low32 y).getLsbD (n - 1) = y.getLsbD (n - 1) := by
    split
    · rfl
    · rename_i hne
      have hlt : n - 1 < 32 := by
        have := hsz.resolve_left hne
        omega
      simp [low32, hlt, show n - 1 < 64 by omega]
  rw [signExtend_one]
  simp only [Field.extract, BitVec.msb_setWidth, BitVec.getLsbD_ushiftRight, hpos, Nat.lt_one_iff,
    Nat.sub_self, Nat.add_zero, hbit]

theorem exec_isExtension (cfg : Config C) (hsz : size.atLeast32 = true)
    (hds : last.dest = some ru) (hls : isExtension signed last rl size = true) :
    ∃ f : BitVec 64 → BitVec 64,
      (∀ (s : State C) (u : Undefined), s.exec cfg u last = s.setGpr ru (f (s.gpr rl))) ∧
      ∀ y, Extended signed size (f y) y := by
  cases signed
  · -- a zero
    cases last with
    | constant dst value patchSite =>
      obtain rfl := Option.some.inj hds
      obtain ⟨rfl, -⟩ : value = 0 ∧ patchSite = false := by simpa [isExtension, isZero] using hls
      refine ⟨fun _ => 0, fun _ _ => rfl, fun y => ?_⟩
      unfold Extended
      split <;> rfl
    | _ => cases hls
  · cases last with
    | sbfe field dst src =>
      obtain rfl := Option.some.inj hds
      obtain ⟨hwid, hlsb, rfl⟩ : field.width = 1 ∧ field.lsb = size.bits - 1 ∧ src = rl := by
        simpa [isExtension, isSignext] using hls
      refine ⟨fun y => if field.size = .i64Bit then (field.extract y).signExtend 64
        else low32 ((field.extract y).signExtend 64), fun _ _ => rfl, fun y => ?_⟩
      obtain ⟨hfie, hft⟩ := field.valid
      have hbt : 0 < size.bits := by cases size <;> decide
      rw [hwid, hlsb] at hft
      cases size with
      | i64Bit =>
        -- the field fits 64 bits only
        have h64 : field.size = .i64Bit := hfie.resolve_left fun h32 => by
          rw [h32] at hft
          exact absurd hft (by decide)
        have hfl := signExtend_extract hwid hbt hlsb (.inl h64) y
        rw [show OpSize.i64Bit.bits = 64 from rfl, BitVec.setWidth_eq] at hfl
        simp only [h64, hfl]
        rfl
      | i32Bit =>
        have hfl := signExtend_extract hwid hbt hlsb (.inr le_rfl) y
        have hcut : (if field.size = .i64Bit then (field.extract y).signExtend 64
            else low32 ((field.extract y).signExtend 64)).setWidth 32 =
            ((field.extract y).signExtend 64).setWidth 32 := by
          split
          · rfl
          · exact setWidth_low32 _
        refine (if_neg (by decide)).mpr (hcut.trans ?_)
        rw [hfl, show OpSize.i32Bit.bits = 32 from rfl]
        simp only [extension, signFill]
        cases (y.setWidth 32).msb <;> rfl
      | _ => cases hsz
    | _ => cases hls

/-- After the extension the two halves are a number and its extension. -/
theorem extended_setGpr (hf : ∀ y, Extended signed size (f y) y) (s : State C) (rl ru : Reg) :
    Extended signed size ((s.setGpr ru (f (s.gpr rl))).gpr ru)
      ((s.setGpr ru (f (s.gpr rl))).gpr rl) := by
  rw [gpr_setGpr_self]
  by_cases h : rl = ru
  · rw [h, gpr_setGpr_self]
    exact (hf _).self
  · rw [gpr_setGpr_of_ne _ _ h]
    exact hf _

/-- The quotient of the division after the extension fits. -/
def DivFits (cfg : Config C) (last : Op C) (signed : Bool) (size : OpSize) (rl rd : Reg)
    (s : State C) : Prop :=
  ∀ u, ¬DivOverflows signed size ((s.exec cfg u last).gpr rl) ((s.exec cfg u last).gpr rd)

theorem State.setGpr_setGpr_setGpr (s : State C) (r q : Reg) (v a b : BitVec 64) :
    ((s.setGpr r v).setGpr q a).setGpr r b = (s.setGpr q a).setGpr r b := by
  by_cases h : q = r
  · rw [h, setGpr_setGpr, setGpr_setGpr, setGpr_setGpr]
  · simp [setGpr, Function.update_comm h]

section

variable (hsz : size.atLeast32 = true)
include hsz

theorem exec_short (hq : size = .i64Bit → rq ≠ rl ∧ rq ≠ rd) :
    s.execAll cfg u [.div signed size rl none rd rq rr] =
      (s.setGpr rq (u.short signed size (s.gpr rl) (s.gpr rd)).1).setGpr rr
        (u.short signed size (s.gpr rl) (s.gpr rd)).2 := by
  cases size with
  | i32Bit => rfl
  | i64Bit =>
    obtain ⟨hrl, hrd⟩ := hq rfl
    simp only [execAll, List.foldl_cons, List.foldl_nil, exec, div,
      gpr_setGpr_self, gpr_setGpr_of_ne _ _ hrl.symm, gpr_setGpr_of_ne _ _ hrd.symm, short, if_true]
  | _ => cases hsz

theorem exec_long
    (hex : ∀ (s : State C) (u : Undefined), s.exec cfg u last = s.setGpr ru (f (s.gpr rl)))
    (u : Undefined) :
    s.execAll cfg u [last, .div signed size rl (some ru) rd rq rr] =
      let t := s.setGpr ru (f (s.gpr rl))
      (t.setGpr rq (u.long signed size (t.gpr ru) (t.gpr rl) (t.gpr rd)).1).setGpr rr
        (u.long signed size (t.gpr ru) (t.gpr rl) (t.gpr rd)).2 := by
  rw [execAll_cons, hex]
  cases size with
  | i32Bit => rfl
  | i64Bit => rfl
  | _ => cases hsz

theorem div_kept (hds : last.dest = some ru) (hls : isExtension signed last rl size = true)
    (hq : size = .i64Bit → rq ≠ rl ∧ rq ≠ rd) (hft : DivFits cfg last signed size rl rd s)
    (u : Undefined) :
    ∃ u' : Undefined, s.execAll cfg u [last, .div signed size rl none rd rq rr] =
      s.execAll cfg u' [last, .div signed size rl (some ru) rd rq rr] := by
  obtain ⟨f, hex, hf⟩ := exec_isExtension cfg hsz hds hls
  have hft := hft u
  rw [hex] at hft
  obtain ⟨u', hu'⟩ := short_eq_long u (extended_setGpr hf s rl ru) hft
  refine ⟨u', ?_⟩
  rw [exec_long hsz hex, execAll_cons, hex, exec_short u hsz hq, hu']

/-- **The short division in the place of both**, where the register of the remainder is read by
neither operand or by both. -/
theorem div_dropped (hds : last.dest = some rr) (hls : isExtension signed last rl size = true)
    (hq : size = .i64Bit → rq ≠ rl ∧ rq ≠ rd) (hr : rl = rr ↔ rd = rr)
    (hft : DivFits cfg last signed size rl rd s) (u : Undefined) :
    ∃ u' : Undefined, s.execAll cfg u [.div signed size rl none rd rq rr] =
      s.execAll cfg u' [last, .div signed size rl (some rr) rd rq rr] := by
  obtain ⟨f, hex, hf⟩ := exec_isExtension cfg hsz hds hls
  rw [exec_short u hsz hq]
  by_cases hrl : rl = rr
  · obtain rfl : rd = rr := hr.1 hrl
    subst hrl
    obtain ⟨u', hu'⟩ := short_eq_long_self u (hf (s.gpr rl))
    refine ⟨u', ?_⟩
    rw [exec_long hsz hex]
    simp [setGpr_setGpr_setGpr, hu']
  · have hrd : rd ≠ rr := fun h => hrl (hr.2 h)
    have hft := hft u
    rw [hex, gpr_setGpr_of_ne _ _ hrl, gpr_setGpr_of_ne _ _ hrd] at hft
    obtain ⟨u', hu'⟩ := short_eq_long u (hf (s.gpr rl)) hft
    refine ⟨u', ?_⟩
    rw [exec_long hsz hex]
    simp [gpr_setGpr_of_ne _ _ hrl,
      gpr_setGpr_of_ne _ _ hrd, setGpr_setGpr_setGpr, hu']

end

/-! ### Where the short division differs -/

/-- **A quotient that does not fit** leaves another remainder. -/
theorem div_overflow (hsz : size.atLeast32 = true) (hds : last.dest = some ru)
    (hls : isExtension signed last rl size = true)
    (hq : size = .i64Bit → rq ≠ rl ∧ rq ≠ rd) (hr : ru = rr → (rl = rr ↔ rd = rr))
    (hft : ¬DivFits cfg last signed size rl rd s) (u' : Undefined) :
    s.execAll cfg (.const 0 0 0) (Fusion.apply last (.shortDiv signed size rl rd rq rr (ru = rr))) ≠
      s.execAll cfg u' [last, .div signed size rl (some ru) rd rq rr] := by
  obtain ⟨f, hex, hf⟩ := exec_isExtension cfg hsz hds hls
  obtain ⟨u, ho⟩ := not_forall_not.1 hft
  rw [hex] at ho
  have hne := short_ne_long_of_overflows u' (extended_setGpr hf s rl ru) ho
  intro heq
  refine hne ?_
  have hrem := congrArg (fun t : State C => t.gpr rr) heq
  rw [exec_long hsz hex] at hrem
  by_cases hdr : ru = rr
  · subst hdr
    simp only [Fusion.apply, decide_true, if_true, List.nil_append] at hrem
    rw [exec_short _ hsz hq] at hrem
    have hr := hr rfl
    have hrl : rl ≠ ru := by
      intro hrl
      rw [hr.1 hrl, hrl] at ho
      exact not_overflows_self _ _ _ ho
    have hrd : rd ≠ ru := fun h => hrl (hr.2 h)
    simpa only [gpr_setGpr_self, gpr_setGpr_of_ne _ _ hrl, gpr_setGpr_of_ne _ _ hrd] using hrem
  · simp only [Fusion.apply, hdr, decide_false, Bool.false_eq_true, if_false,
      List.singleton_append] at hrem
    rw [execAll_cons, hex, exec_short _ hsz hq] at hrem
    simpa only [gpr_setGpr_self] using hrem

/-- A quotient that overwrites an operand before the remainder is computed. -/
theorem div_quotient_alias (hds : last.dest = some ru)
    (hls : isExtension signed last rl .i64Bit = true) (hq : rq = rl ∨ rq = rd) (mem : Ppc.Storage)
    (ctx : C) (dropLast : Bool) :
    DivFits cfg last signed .i64Bit rl rd ⟨fun _ => 0, mem, ctx⟩ ∧ ∀ u',
      execAll cfg (.const 2 2 2) ⟨fun _ => 0, mem, ctx⟩
          (Fusion.apply last (.shortDiv signed .i64Bit rl rd rq rr dropLast)) ≠
        execAll cfg u' ⟨fun _ => 0, mem, ctx⟩
          [last, .div signed .i64Bit rl (some ru) rd rq rr] := by
  obtain ⟨f, hex, hf⟩ := exec_isExtension cfg rfl hds hls
  have hzr : f 0 = 0 := (hf 0).trans (extension_zero 64)
  -- the extension changes nothing
  have hlaz : ∀ u, exec cfg u ⟨fun _ => 0, mem, ctx⟩ last = ⟨fun _ => 0, mem, ctx⟩ := by
    intro u
    rw [hex]
    have hgpr : gpr (⟨fun _ => 0, mem, ctx⟩ : State C) rl = 0 := rfl
    rw [hgpr, hzr]
    exact congrArg (mk · mem ctx) (Function.update_eq_self ru fun _ => (0 : Value))
  have happ : ∀ u, execAll cfg u ⟨fun _ => 0, mem, ctx⟩
      (Fusion.apply last (.shortDiv signed .i64Bit rl rd rq rr dropLast)) =
      execAll cfg u ⟨fun _ => 0, mem, ctx⟩ [.div signed .i64Bit rl none rd rq rr] := by
    intro u
    cases dropLast
    · simp only [Fusion.apply, Bool.false_eq_true, if_false, List.singleton_append,
        execAll_cons, hlaz]
    · rfl
  refine ⟨fun u => ?_, fun u' => ?_⟩
  · rw [hlaz]
    exact not_overflows_self _ _ _
  -- the long division of zeros leaves a zero, whatever the quotient is
  have hln : (execAll cfg u' ⟨fun _ => 0, mem, ctx⟩
      [last, .div signed .i64Bit rl (some ru) rd rq rr]).gpr rr = 0 := by
    have hsnd := long64_zero_snd u' signed 0
    rw [extension_zero] at hsnd
    rw [execAll_cons, hlaz]
    exact (gpr_setGpr_self _ _ _).trans hsnd
  have hquo : (const 2 2 2).quotient64 signed 0 0 = 2 := by cases signed <;> rfl
  -- the short one takes the quotient for an operand
  have hsho : (execAll cfg (.const 2 2 2) ⟨fun _ => 0, mem, ctx⟩
      [.div signed .i64Bit rl none rd rq rr]).gpr rr =
      (if rl = rq then 2 else 0) - 2 * (if rd = rq then 2 else 0) := by
    have hrd : ∀ r, gpr (setGpr ⟨fun _ => 0, mem, ctx⟩ rq 2 : State C) r =
        if r = rq then 2 else 0 := by
      intro r
      split
      · rename_i h
        rw [h, gpr_setGpr_self]
      · rename_i h
        rw [gpr_setGpr_of_ne _ _ h]
        rfl
    have hgpr : ∀ r, gpr (⟨fun _ => 0, mem, ctx⟩ : State C) r = 0 := fun _ => rfl
    simp only [execAll, List.foldl_cons, List.foldl_nil, exec, div, hgpr,
      hquo, gpr_setGpr_self, hrd]
  intro heq
  have hrem := congrArg (fun t : State C => t.gpr rr) heq
  simp only [happ, hln, hsho] at hrem
  obtain rfl | rfl := hq
  all_goals
    rw [if_pos (rfl : rq = rq)] at hrem
    split at hrem <;> exact absurd hrem (by decide)

section

variable (hsz : size.atLeast32 = true) (hds : last.dest = some rr)
include hsz hds

/-- The extension is in the register of the lower half. -/
theorem div_lower_alias (hls : isExtension signed last rr size = true)
    (hq : size = .i64Bit → rq ≠ rr ∧ rq ≠ rd) (hrd : rd ≠ rr) (mem : Ppc.Storage) (ctx : C) :
    ∃ s : State C, DivFits cfg last signed size rr rd s ∧ ∀ u u',
      s.execAll cfg u [.div signed size rr none rd rq rr] ≠
        s.execAll cfg u' [last, .div signed size rr (some rr) rd rq rr] := by
  obtain ⟨f, hex, hf⟩ := exec_isExtension cfg hsz hds hls
  let s : State C := ⟨fun r => if r = rr then 5 else 3, mem, ctx⟩
  have hlow : s.gpr rr = 5 := by simp [s]
  have hdiv : s.gpr rd = 3 := by simp [s, hrd]
  refine ⟨s, fun u => ?_, fun u u' heq => ?_⟩
  · rw [hex, gpr_setGpr_self, gpr_setGpr_of_ne _ _ hrd, hlow, hdiv]
    exact (five_div_three u u (hf 5)).1
  · have hrem := congrArg (fun t : State C => t.gpr rr) heq
    rw [exec_short u hsz hq, exec_long hsz hex] at hrem
    simp only [gpr_setGpr_self, gpr_setGpr_of_ne _ _ hrd, hlow, hdiv] at hrem
    exact (five_div_three u u' (hf 5)).2 hrem

/-- The extension is in the register of the divisor. -/
theorem div_divisor_alias (hls : isExtension signed last rl size = true)
    (hq : size = .i64Bit → rq ≠ rl ∧ rq ≠ rr) (hrl : rl ≠ rr) (mem : Ppc.Storage) (ctx : C) :
    ∃ s : State C, DivFits cfg last signed size rl rr s ∧ ∀ u u',
      s.execAll cfg u [.div signed size rl none rr rq rr] ≠
        s.execAll cfg u' [last, .div signed size rl (some rr) rr rq rr] := by
  obtain ⟨f, hex, hf⟩ := exec_isExtension cfg hsz hds hls
  let five : BitVec 64 := if signed then -5 else 5
  let s : State C := ⟨fun r => if r = rl then five.setWidth 128 else 3, mem, ctx⟩
  have hlow : s.gpr rl = five := by simp [s]
  have hdiv : s.gpr rr = 3 := by simp [s, hrl.symm]
  refine ⟨s, fun u => ?_, fun u u' heq => ?_⟩
  · rw [hex, gpr_setGpr_self, gpr_setGpr_of_ne _ _ hrl, hlow]
    exact (five_div_extension u u (hf five)).1
  · have hrem := congrArg (fun t : State C => t.gpr rr) heq
    rw [exec_short u hsz hq, exec_long hsz hex] at hrem
    simp only [gpr_setGpr_self, gpr_setGpr_of_ne _ _ hrl, hlow, hdiv] at hrem
    exact (five_div_extension u u' (hf five)).2 hrem

/-- **An operand in the register of a dropped extension.** -/
theorem div_operand_alias (hls : isExtension signed last rl size = true)
    (hq : size = .i64Bit → rq ≠ rl ∧ rq ≠ rd) (hr : ¬(rl = rr ↔ rd = rr)) (mem : Ppc.Storage)
    (ctx : C) :
    ∃ s : State C, DivFits cfg last signed size rl rd s ∧ ∀ u u',
      s.execAll cfg u [.div signed size rl none rd rq rr] ≠
        s.execAll cfg u' [last, .div signed size rl (some rr) rd rq rr] := by
  by_cases hrl : rl = rr
  · subst hrl
    exact div_lower_alias hsz hds hls hq (fun h => hr ⟨fun _ => h, fun _ => rfl⟩) mem ctx
  · have hrd : rd = rr := by
      by_contra hrd
      exact hr ⟨fun h => absurd h hrl, fun h => absurd h hrd⟩
    subst hrd
    exact div_divisor_alias hsz hds hls hq hrl mem ctx

end

end Code

end FastPPC.Ra
