import FastPPC.Smc.SoftRelink

/-!
# Relinked code matches the memory

`Careful` names the two ways in which a store can slip in unnoticed: between the decoding of a new
block and its hash, and on a page that a thread has registered and not armed yet, so that another
thread that registers it does not arm it either.  Without them:

* `Published` : a block that is live, or about to be, is a translation of what is in the memory, is
  listed on all of its pages, and these are armed;
* `Known` : a block that is retained carries the hash of the bytes it was translated from;
* `relink_matches` : **if no two of the strings hashed in the run collide, what a relink publishes
  matches the memory, and goes on to match it as long as it is live.**

With one of them a relink publishes code for bytes that are no longer there (`stale_relink`).
-/

namespace FastPPC

open Function List

/-! ### What a soft invalidation retains -/

namespace Lookup.GuestToHostMap

variable {m m' m'' : GuestToHostMap}

/-- `m'` has only blocks of `m`, and newly retains only blocks with a hash. -/
structure Softened (m m' : GuestToHostMap) : Prop where
  live : ∀ a e, m'.blockList a = some e → m.blockList a = some e
  retained : ∀ a e, m'.retainedBlocks a = some e →
    m.retainedBlocks a = some e ∨ m.blockList a = some e ∧ e.guestRangeLength ≠ 0

theorem Softened.refl (m : GuestToHostMap) : Softened m m := ⟨fun _ _ => id, fun _ _ => .inl⟩

theorem Softened.trans (h : Softened m m') (h' : Softened m' m'') : Softened m m'' where
  live a e he := h.live a e (h'.live a e he)
  retained a e he := by
    rcases h'.retained a e he with hr | ⟨hb, hlen⟩
    · exact h.retained a e hr
    · exact .inr ⟨h.live a e hb, hlen⟩

theorem Softened.foldl {α : Type} {f : GuestToHostMap → α → GuestToHostMap}
    (hf : ∀ m x, Softened m (f m x)) (m : GuestToHostMap) (xs : List α) :
    Softened m (xs.foldl f m) := by
  induction xs generalizing m with
  | nil => exact .refl m
  | cons x xs ih => exact (hf m x).trans (ih (f m x))

theorem Softened.softEraseBlock (m : GuestToHostMap) (a : ℕ) : Softened m (m.softEraseBlock a) where
  live := (Kept.softEraseBlock m a).live
  retained b e he := by
    unfold GuestToHostMap.softEraseBlock at he
    split at he
    · exact .inl he
    rename_i e' he'
    split at he
    · exact .inl he
    · rename_i hkp
      simp only [dropRetainedBlockLocked_retainedBlocks, update_apply] at he
      split at he
      · rename_i hba
        obtain rfl := Option.some.inj he
        exact .inr ⟨hba ▸ he', fun hlen => hkp (.inl hlen)⟩
      · exact .inl he

theorem softInvalidateRange_softened (m : GuestToHostMap) (start length : ℕ) :
    Softened m (m.softInvalidateRange start length) := by
  have hpg : ∀ m p, Softened m (m.erasePage GuestToHostMap.softEraseBlock p) := by
    intro m p
    unfold erasePage
    split
    · exact .refl m
    · rename_i entries _
      have hent := Softened.foldl .softEraseBlock m entries
      dsimp only
      split
      · exact ⟨hent.live, hent.retained⟩
      · exact hent
  have hpag := Softened.foldl hpg m (pages start length)
  exact ⟨hpag.live, hpag.retained⟩

end Lookup.GuestToHostMap

namespace Smc

open Codec (Byte leBytes leValue)
open Lookup (Alloc BlockEntry CodeGranuleBitmap GuestToHostMap)
open Lookup.GuestToHostMap

/-! ### The hash -/

variable {a page : ℕ}

/-- No two of the strings have the same hash. -/
def CollisionFree (xxh3 : List Byte → BitVec 64 → BitVec 64) (calls : List HashCall) : Prop :=
  ∀ c ∈ calls, ∀ c' ∈ calls, c.1.length = c'.1.length → xxh3 c.1 c.2 = xxh3 c'.1 c'.2 → c = c'

instance (xxh3 : List Byte → BitVec 64 → BitVec 64) (calls : List HashCall) :
    Decidable (CollisionFree xxh3 calls) :=
  inferInstanceAs (Decidable (∀ c ∈ calls, ∀ c' ∈ calls, _))

theorem guestBytes_inj {mem mem' : ℕ → Byte} {n : ℕ} (h : guestBytes mem a n = guestBytes mem' a n)
    {x : ℕ} (hx : a ≤ x) (hlt : x < a + n) : mem x = mem' x := by
  have hget := map_inj_left.1 h (x - a) (mem_range.2 (by omega))
  rwa [Nat.add_sub_cancel' hx] at hget

theorem length_guestBytes (mem : ℕ → Byte) (a n : ℕ) : (guestBytes mem a n).length = n := by
  simp [guestBytes]

section Hash

variable {xxh3 : List Byte → BitVec 64 → BitVec 64} {calls : List HashCall}
  (hx : CollisionFree xxh3 calls) {mem mem' : ℕ → Byte} {start length : ℕ}

include hx

theorem hashPage_inj {hash hash' : BitVec 64}
    (hin : pageCalls xxh3 mem start length hash page ⊆ calls)
    (hin' : pageCalls xxh3 mem' start length hash' page ⊆ calls)
    (h : hashPage xxh3 mem start length hash page = hashPage xxh3 mem' start length hash' page) :
    hash = hash' ∧ ∀ a, InChunk start length page a → mem a = mem' a := by
  unfold hashPage at h
  unfold pageCalls at hin hin'
  dsimp only at h hin hin'
  split at h
  · rename_i hemp
    rw [if_pos hemp, cons_subset] at hin hin'
    refine ⟨congrArg Prod.snd (hx _ hin.1 _ hin'.1 rfl h), fun a ha => ?_⟩
    exact absurd (ha.1.trans_lt ha.2) (Nat.not_lt.2 hemp)
  · rename_i hchu
    rw [if_neg hchu, cons_subset, cons_subset] at hin hin'
    obtain ⟨hbyt, hsd⟩ := Prod.mk.inj (hx _ hin.2.1 _ hin'.2.1 (by simp [length_guestBytes]) h)
    refine ⟨congrArg Prod.snd (hx _ hin.1 _ hin'.1 rfl hsd),
      fun a ha => guestBytes_inj hbyt ha.1 ?_⟩
    have := ha.2
    omega

/-- **Equal hashes, equal bytes.** -/
theorem hashGuestBlock_inj {codePages : List ℕ}
    (hin : hashCalls xxh3 mem start length codePages ⊆ calls)
    (hin' : hashCalls xxh3 mem' start length codePages ⊆ calls)
    (h : hashGuestBlock xxh3 mem start length codePages =
      hashGuestBlock xxh3 mem' start length codePages) :
    ∀ page ∈ codePages, ∀ a, InChunk start length page a → mem a = mem' a := by
  -- the seeds of the rest are equal, so those of the first page are
  have hfl : ∀ (pages : List ℕ) (hash hash' : BitVec 64),
      pagesCalls xxh3 mem start length pages hash ⊆ calls →
      pagesCalls xxh3 mem' start length pages hash' ⊆ calls →
      pages.foldl (hashPage xxh3 mem start length) hash =
        pages.foldl (hashPage xxh3 mem' start length) hash' →
      hash = hash' ∧ ∀ page ∈ pages, ∀ a, InChunk start length page a → mem a = mem' a := by
    intro pages
    induction pages with
    | nil =>
      intro hash hash' _ _ h
      exact ⟨h, forall_mem_nil _⟩
    | cons page pages ih =>
      intro hash hash' hin hin' h
      obtain ⟨hfir, hrs⟩ := append_subset.1 hin
      obtain ⟨hfir', hrs'⟩ := append_subset.1 hin'
      rw [foldl_cons, foldl_cons] at h
      obtain ⟨hsd, hbyt⟩ := ih _ _ hrs hrs' h
      obtain ⟨hhs, hpg⟩ := hashPage_inj hx hfir hfir' hsd
      exact ⟨hhs, forall_mem_cons.2 ⟨hpg, hbyt⟩⟩
  exact (hfl codePages _ _ hin hin' h).2

end Hash

/-! ### Pages -/

variable {addr : ℕ} {e : BlockEntry} {task : Task}

theorem page_le_of_inChunk {start length : ℕ} (h : InChunk start length page a) :
    page ≤ a ∧ a < page + 2 ^ 12 := by
  have hle : wadd page (2 ^ 12) ≤ page + 2 ^ 12 := Nat.mod_le _ _
  obtain ⟨h₁, h₂⟩ := h
  simp only [chunk] at h₁ h₂
  omega

namespace RelinkConfig

variable (cfg : RelinkConfig)

theorem granule_eq (a : ℕ) : cfg.granule a = a / 2 ^ 12 / 2 ^ cfg.shift := by
  rw [granule, hostPage, Nat.pow_add, Nat.div_div_eq_div_mul]

/-- A decoded byte is on the host page of its page. -/
theorem granule_of_inChunk {start length : ℕ} (hpg : page % 2 ^ 12 = 0)
    (h : InChunk start length page a) : cfg.granule a = cfg.granule page := by
  have hle := page_le_of_inChunk h
  have hsm : a / 2 ^ 12 = page / 2 ^ 12 := by omega
  rw [granule_eq, granule_eq, hsm]

/-- An invalidated host page covers the pages on it. -/
theorem mem_pages_of_granule (had : addr < word) (h : cfg.granule page = cfg.granule addr) :
    page / 2 ^ 12 ∈ Lookup.pages (cfg.granule addr * cfg.hostPage) cfg.hostPage := by
  have hpos : 0 < cfg.hostPage := Nat.two_pow_pos _
  have hwr : cfg.granule addr * cfg.hostPage + cfg.hostPage ≤ word := by
    have hdvd : cfg.hostPage ∣ word := Nat.pow_dvd_pow 2 (by have := cfg.small; omega)
    obtain ⟨k, hk⟩ := hdvd
    have hlt : cfg.granule addr < k := Nat.div_lt_of_lt_mul (hk ▸ had)
    calc cfg.granule addr * cfg.hostPage + cfg.hostPage
        = cfg.hostPage * (cfg.granule addr + 1) := by rw [Nat.mul_comm, Nat.mul_succ]
      _ ≤ cfg.hostPage * k := Nat.mul_le_mul_left _ hlt
      _ = word := hk.symm
  refine Lookup.InRange.mem_pages ⟨page, ?_, ?_, rfl⟩ hwr
  · rw [← h]
    exact Nat.div_mul_le_self _ _
  · rw [← h]
    exact Nat.lt_div_mul_add hpos

end RelinkConfig

theorem pages_of_aligned (hpg : page % 2 ^ 12 = 0) (hlt : page < word) :
    Lookup.pages page (2 ^ 12) = [page / 2 ^ 12] := by
  have hls : Lookup.lastPage page (2 ^ 12) = page / 2 ^ 12 := by
    unfold Lookup.lastPage wadd word at *
    split <;> omega
  rw [Lookup.pages, hls]
  simp

namespace Relinking

variable {T : Type} {cfg : RelinkConfig} {s s' : Relinking T}

/-! ### The invariant -/

/-- The page is armed and lists the addresses. -/
def Registered (cfg : RelinkConfig) (s : Relinking T) (addresses : List ℕ) (page : ℕ) : Prop :=
  s.armed (cfg.granule page) = true ∧ ∀ a ∈ addresses, s.map.Listed (page / 2 ^ 12) a

/-- The block was translated from bytes that were hashed and have its hash, if it has one. -/
def Known (cfg : RelinkConfig) (s : Relinking T) (e : BlockEntry) : Prop :=
  ∃ (d : Decoded) (mem : ℕ → Byte), e.codePages = d.codePages ∧
    s.source e.hostCode = some (d.bytes mem) ∧
    (e.guestRangeLength ≠ 0 → d.start = e.guestRangeStart ∧ d.length = e.guestRangeLength ∧
      hashCalls cfg.xxh3 mem e.guestRangeStart e.guestRangeLength e.codePages ⊆ s.hashed ∧
      hashGuestBlock cfg.xxh3 mem e.guestRangeStart e.guestRangeLength e.codePages = e.guestHash)

/-- What holds of a block that is live at an address, or about to be. -/
structure Published (cfg : RelinkConfig) (s : Relinking T) (a : ℕ) (e : BlockEntry) : Prop where
  known : Known cfg s e
  current : s.Matches e
  registered : ∀ page ∈ e.codePages, Registered cfg s [a] page

/-- What holds of a block before it is hashed under the protection. -/
def Ready (cfg : RelinkConfig) (s : Relinking T) : Task → Prop
  | .compile d => ∀ p ∈ d.hostCode, s.source p.2 = some (d.bytes s.mem)
  | .relink _ e => Known cfg s e ∧ e.guestRangeLength ≠ 0

/-- What holds of a thread. -/
def Good (cfg : RelinkConfig) (s : Relinking T) : Pc → Prop
  | .retained _ e => Known cfg s e ∧ e.guestRangeLength ≠ 0
  | .register task todo => Ready cfg s task ∧ todo ⊆ task.codePages ∧
    ∀ page ∈ task.codePages, page ∈ todo ∨ Registered cfg s task.entryPoints page
  | .mark task page todo => Ready cfg s task ∧ todo ⊆ task.codePages ∧
    (∀ a ∈ task.entryPoints, s.map.Listed (page / 2 ^ 12) a) ∧
    ∀ q ∈ task.codePages, q ∈ page :: todo ∨ Registered cfg s task.entryPoints q
  | .verify task => Ready cfg s task ∧
    ∀ page ∈ task.codePages, Registered cfg s task.entryPoints page
  | .publish _ todo => ∀ p ∈ todo, Published cfg s p.1 p.2
  | _ => True

structure Inv (cfg : RelinkConfig) (s : Relinking T) : Prop where
  live : ∀ a e, s.map.blockList a = some e → Published cfg s a e
  retained : ∀ a e, s.map.retainedBlocks a = some e → Known cfg s e ∧ e.guestRangeLength ≠ 0
  threads : ∀ t, Good cfg s (s.pc t)

/-! ### Steps that only add -/

/-- The memory is the same, and nothing is taken off the pages or the code buffer. -/
structure Grown (s s' : Relinking T) : Prop where
  mem : s'.mem = s.mem
  armed : ∀ g, s.armed g = true → s'.armed g = true
  listed : ∀ p a, s.map.Listed p a → s'.map.Listed p a
  source : ∀ h bytes, s.source h = some bytes → s'.source h = some bytes
  hashed : s.hashed ⊆ s'.hashed

section Grown

variable (h : Grown s s')

include h

theorem Registered.grow {as : List ℕ} (hr : Registered cfg s as page) : Registered cfg s' as page :=
  ⟨h.armed _ hr.1, fun a ha => h.listed _ a (hr.2 a ha)⟩

theorem Known.grow (hk : Known cfg s e) : Known cfg s' e := by
  obtain ⟨d, mem, hpag, hsou, hhs⟩ := hk
  refine ⟨d, mem, hpag, h.source _ _ hsou, fun hlen => ?_⟩
  obtain ⟨hsta, hlng, hin, heq⟩ := hhs hlen
  exact ⟨hsta, hlng, List.Subset.trans hin h.hashed, heq⟩

theorem Matches.grow (hm : s.Matches e) : s'.Matches e := by
  obtain ⟨bytes, hsou, hbyt⟩ := hm
  exact ⟨bytes, h.source _ _ hsou, h.mem ▸ hbyt⟩

theorem Published.grow (hp : Published cfg s a e) : Published cfg s' a e :=
  ⟨hp.known.grow h, hp.current.grow h, fun page hpg => (hp.registered page hpg).grow h⟩

theorem Ready.grow (hr : Ready cfg s task) : Ready cfg s' task := by
  cases task with
  | compile d => exact fun p hp => h.mem ▸ h.source _ _ (hr p hp)
  | relink rip e => exact ⟨hr.1.grow h, hr.2⟩

theorem Good.grow {pc : Pc} (hg : Good cfg s pc) : Good cfg s' pc := by
  cases pc with
  | retained rip e => exact ⟨hg.1.grow h, hg.2⟩
  | register task todo =>
    obtain ⟨hrea, hsub, htd⟩ := hg
    exact ⟨hrea.grow h, hsub, fun page hpg => (htd page hpg).imp_right (·.grow h)⟩
  | mark task page todo =>
    obtain ⟨hrea, hsub, hlis, htd⟩ := hg
    exact ⟨hrea.grow h, hsub, fun a ha => h.listed _ a (hlis a ha),
      fun q hq => (htd q hq).imp_right (·.grow h)⟩
  | verify task => exact ⟨hg.1.grow h, fun page hpg => (hg.2 page hpg).grow h⟩
  | publish task todo => exact fun p hp => (hg p hp).grow h
  | _ => trivial

/-- **One thread goes on.** -/
theorem Inv.advance (hI : Inv cfg s)
    (hlv : ∀ a e, s'.map.blockList a = some e → s.map.blockList a = some e ∨ Published cfg s a e)
    (hret : ∀ a e, s'.map.retainedBlocks a = some e → s.map.retainedBlocks a = some e)
    {t : T} (hpc : ∀ t', t' ≠ t → s'.pc t' = s.pc t') (hgd : Good cfg s' (s'.pc t)) :
    Inv cfg s' where
  live a e he := ((hlv a e he).elim (hI.live a e) id).grow h
  retained a e he := ⟨(hI.retained a e (hret a e he)).1.grow h, (hI.retained a e (hret a e he)).2⟩
  threads t' := by
    by_cases ht : t' = t
    · exact ht ▸ hgd
    · exact hpc t' ht ▸ (hI.threads t').grow h

end Grown

/-! ### The steps of a thread -/

section Steps

variable [DecidableEq T] {t : T}

theorem goto_pc_of_ne (s : Relinking T) (pc : Pc) {t' : T} (h : t' ≠ t) :
    (s.goto t pc).pc t' = s.pc t' := update_of_ne h _ _

@[simp] theorem goto_pc (s : Relinking T) (t : T) (pc : Pc) : (s.goto t pc).pc t = pc :=
  update_self _ _ _

theorem Grown.goto (s : Relinking T) (t : T) (pc : Pc) : Grown s (s.goto t pc) :=
  ⟨rfl, fun _ => id, fun _ _ => id, fun _ _ => id, List.Subset.refl _⟩

theorem Inv.goto (hI : Inv cfg s) {pc : Pc} (h : Good cfg s pc) : Inv cfg (s.goto t pc) := by
  refine hI.advance (.goto s t pc) (fun _ _ => .inl) (fun _ _ => id)
    (fun t' ht => s.goto_pc_of_ne pc ht) ?_
  rw [goto_pc]
  exact h.grow (.goto s t pc)

omit [DecidableEq T] in
theorem Inv.record (hI : Inv cfg s) (calls : List HashCall) : Inv cfg (s.record calls) := by
  have hgro : Grown s (s.record calls) :=
    ⟨rfl, fun _ => id, fun _ _ => id, fun _ _ => id, subset_append_right _ _⟩
  exact ⟨fun a e he => (hI.live a e he).grow hgro,
    fun a e he => (hI.retained a e he).imp_left (·.grow hgro), fun t => (hI.threads t).grow hgro⟩

theorem Inv.take (hI : Inv cfg s) (rip : ℕ) :
    Inv cfg ({ s with map := (s.map.takeRetainedBlock rip).1 }.goto t
      (match (s.map.takeRetainedBlock rip).2 with
        | none => .fresh rip
        | some e => .retained rip e)) := by
  obtain ⟨hb, hc, -⟩ := s.map.takeRetainedBlock_frame rip
  have hgro : Grown s { s with map := (s.map.takeRetainedBlock rip).1 } :=
    ⟨rfl, fun _ => id, fun p a h => by simpa only [Listed, hc] using h, fun _ _ => id,
      List.Subset.refl _⟩
  have hret : ∀ a e, (s.map.takeRetainedBlock rip).1.retainedBlocks a = some e →
      s.map.retainedBlocks a = some e := by
    intro a e he
    rw [takeRetainedBlock_fst, dropRetainedBlockLocked_retainedBlocks, update_apply] at he
    split at he
    · cases he
    · exact he
  have hI' : Inv cfg { s with map := (s.map.takeRetainedBlock rip).1 } :=
    hI.advance hgro (fun a e he => .inl (hb ▸ he)) hret (fun t' _ => rfl) ((hI.threads t).grow hgro)
  refine hI'.goto ?_
  unfold takeRetainedBlock
  split
  · trivial
  · rename_i e he
    obtain ⟨hkno, hlen⟩ := hI.retained rip e he
    exact ⟨hkno, hlen⟩

theorem Inv.decode (hI : Inv cfg s) {d : Decoded} (hfr : ∀ p ∈ d.hostCode, s.source p.2 = none) :
    Inv cfg ((s.translate d).goto t (.register (.compile d) d.codePages)) := by
  have hgro : Grown s (s.translate d) := by
    refine ⟨rfl, fun _ => id, fun _ _ => id, fun h bytes hbyt => ?_, List.Subset.refl _⟩
    refine (if_neg fun hmem => ?_).trans hbyt
    obtain ⟨p, hp, rfl⟩ := mem_map.1 hmem
    cases (hfr p hp).symm.trans hbyt
  have hI' : Inv cfg (s.translate d) :=
    hI.advance hgro (fun _ _ => .inl) (fun _ _ => id) (fun t' _ => rfl) ((hI.threads t).grow hgro)
  refine hI'.goto ⟨fun p hp => if_pos (mem_map_of_mem hp), List.Subset.refl _,
    fun page hpg => .inl hpg⟩

omit [DecidableEq T] in
/-- The pages of a task are those of a decoded block. -/
theorem Ready.aligned (h : Ready cfg s task) (hpg : page ∈ task.codePages) :
    page % 2 ^ 12 = 0 ∧ page < word := by
  cases task with
  | compile d => exact d.aligned page hpg
  | relink rip e =>
    obtain ⟨⟨d, mem, hpag, -⟩, -⟩ := h
    have hmem : page ∈ e.codePages := hpg
    exact d.aligned page (hpag ▸ hmem)

theorem Inv.registerPage (hI : Inv cfg s) {alloc : ℕ → Alloc} {todo : List ℕ}
    (hpc : s.pc t = .register task (page :: todo))
    (harm : (s.map.codePages (page / 2 ^ 12)).getD [] ≠ [] → s.armed (cfg.granule page) = true) :
    Inv cfg (s.registerPage alloc t task page todo) := by
  obtain ⟨hrea, hsub, htd⟩ : Good cfg s (.register task (page :: todo)) := hpc ▸ hI.threads t
  obtain ⟨hpg, hsub⟩ := cons_subset.1 hsub
  obtain ⟨hali, hlt⟩ := hrea.aligned hpg
  unfold Relinking.registerPage
  set r := s.map.addBlockExecutableRange alloc task.entryPoints page (2 ^ 12) task.span.1
    task.span.2 with hr
  have hlis : ∀ p a, r.1.Listed p a ↔ s.map.Listed p a ∨
      p = page / 2 ^ 12 ∧ a ∈ task.entryPoints := by
    intro p a
    rw [hr, addBlockExecutableRange_listed, pages_of_aligned hali hlt, mem_singleton]
  -- the one page is new if its vector was empty
  have hnew : r.2 = ((s.map.codePages (page / 2 ^ 12)).getD []).isEmpty := by
    rw [hr, addBlockExecutableRange, pages_of_aligned hali hlt]
    rfl
  have hret : r.1.retainedBlocks = s.map.retainedBlocks := by
    rw [hr, addBlockExecutableRange, pages_of_aligned hali hlt]
    rfl
  have hgro : Grown s { s with map := r.1 } :=
    ⟨rfl, fun _ => id, fun p a h => (hlis p a).2 (.inl h), fun _ _ => id, List.Subset.refl _⟩
  have hI' : Inv cfg { s with map := r.1 } := by
    refine hI.advance hgro (fun a e he => .inl ?_) (fun a e he => hret ▸ he)
      (fun t' _ => rfl) ((hI.threads t).grow hgro)
    rwa [hr, addBlockExecutableRange_blockList] at he
  refine hI'.goto ?_
  have hall : ∀ a ∈ task.entryPoints, r.1.Listed (page / 2 ^ 12) a :=
    fun a ha => (hlis _ a).2 (.inr ⟨rfl, ha⟩)
  split
  · exact ⟨hrea.grow hgro, hsub, hall, fun q hq => (htd q hq).imp_right (·.grow hgro)⟩
  · rename_i hold
    refine ⟨hrea.grow hgro, hsub, fun q hq => ?_⟩
    rcases htd q hq with hmem | hreg
    · rcases mem_cons.1 hmem with rfl | hmem
      · exact .inr ⟨harm fun h => hold (by rw [hnew, h, isEmpty_nil]), hall⟩
      · exact .inl hmem
    · exact .inr (hreg.grow hgro)

theorem Inv.mark (hI : Inv cfg s) {todo : List ℕ} (hpc : s.pc t = .mark task page todo) :
    Inv cfg ({ s with armed := update s.armed (cfg.granule page) true }.goto t
      (.register task todo)) := by
  obtain ⟨hrea, hsub, hlis, htd⟩ : Good cfg s (.mark task page todo) := hpc ▸ hI.threads t
  have hgro : Grown s { s with armed := update s.armed (cfg.granule page) true } := by
    refine ⟨rfl, fun g hg => ?_, fun _ _ => id, fun _ _ => id, List.Subset.refl _⟩
    dsimp only
    rw [update_apply]
    split
    · rfl
    · exact hg
  have hI' := hI.advance hgro (fun _ _ => .inl) (fun _ _ => id) (fun t' _ => rfl)
    ((hI.threads t).grow hgro)
  refine hI'.goto ⟨hrea.grow hgro, hsub, fun q hq => ?_⟩
  rcases htd q hq with hmem | hreg
  · rcases mem_cons.1 hmem with rfl | hmem
    · exact .inr ⟨update_self _ _ _, hlis⟩
    · exact .inl hmem
  · exact .inr (hreg.grow hgro)

omit [DecidableEq T] in
/-- The hash under the protection is that of the decoded bytes, or agrees with it. -/
theorem Good.verifyTask (hx : CollisionFree cfg.xxh3 s.hashed)
    (hin : s.taskCalls cfg task ⊆ s.hashed) (hg : Good cfg s (.verify task)) :
    Good cfg s (s.verifyTask cfg task) := by
  obtain ⟨hrea, hrgs⟩ := hg
  cases task with
  | compile d =>
    intro q hq
    obtain ⟨p, hp, rfl⟩ := mem_map.1 hq
    have hsou := hrea p hp
    refine ⟨⟨d, s.mem, rfl, hsou, fun hlen => ?_⟩, ⟨_, hsou, ?_⟩, fun page hpg => ?_⟩
    · change (d.hashed cfg.xxh3 s.mem).1 ≠ 0 at hlen
      unfold Decoded.hashed at hlen ⊢
      split at hlen
      · rename_i hhs
        rw [Relinking.taskCalls, if_pos hhs] at hin
        rw [if_pos hhs]
        exact ⟨rfl, rfl, hin, rfl⟩
      · exact absurd rfl hlen
    · intro b hb
      obtain ⟨a, -, rfl⟩ := mem_map.1 hb
      rfl
    · obtain ⟨harm, hlis⟩ := hrgs page hpg
      exact ⟨harm, forall_mem_singleton.2 (hlis p.1 (d.entered p hp))⟩
  | relink rip e =>
    unfold Relinking.verifyTask
    dsimp only
    split
    · rename_i hhs
      obtain ⟨⟨d, mem, hpag, hsou, hkno⟩, hlen⟩ := hrea
      obtain ⟨hsta, hlng, hold, hmem⟩ := hkno hlen
      have hsm := hashGuestBlock_inj hx hin hold (hhs.trans hmem.symm)
      refine forall_mem_singleton.2 ⟨⟨d, mem, hpag, hsou, hkno⟩, ⟨_, hsou, ?_⟩, hrgs⟩
      intro b hb
      obtain ⟨a, ha, rfl⟩ := mem_map.1 hb
      obtain ⟨page, hpg, hchu⟩ := d.covered a ha
      exact hsm page (hpag ▸ hpg) a (hsta ▸ hlng ▸ hchu)
    · trivial

theorem Inv.publish (hI : Inv cfg s) {todo : List (ℕ × BlockEntry)}
    (hpc : s.pc t = .publish task ((a, e) :: todo)) :
    Inv cfg ({ s with map := s.map.addBlockMapping a e }.goto t (.publish task todo)) := by
  have hg : Good cfg s (.publish task ((a, e) :: todo)) := hpc ▸ hI.threads t
  obtain ⟨hfir, hrs⟩ := forall_mem_cons.1 hg
  have hgro : Grown s { s with map := s.map.addBlockMapping a e } :=
    ⟨rfl, fun _ => id, fun _ _ => id, fun _ _ => id, List.Subset.refl _⟩
  have hI' : Inv cfg { s with map := s.map.addBlockMapping a e } := by
    refine hI.advance hgro (fun b e' he => ?_) (fun _ _ => id) (fun t' _ => rfl)
      ((hI.threads t).grow hgro)
    simp only [addBlockMapping, update_apply] at he
    split at he
    · rename_i hba
      obtain rfl := Option.some.inj he
      exact .inr (hba ▸ hfir)
    · exact .inl he
  exact hI'.goto fun p hp => (hrs p hp).grow hgro

/-! ### Stores and their faults -/

omit [DecidableEq T] in
/-- What host code was translated from lies on the pages of its block. -/
theorem Known.mem_page (hk : Known cfg s e) {bytes : List (ℕ × Byte)}
    (hsou : s.source e.hostCode = some bytes) {p : ℕ × Byte} (hp : p ∈ bytes) :
    ∃ page ∈ e.codePages, cfg.granule p.1 = cfg.granule page := by
  obtain ⟨d, mem, hpag, hsou', -⟩ := hk
  obtain rfl := Option.some.inj (hsou.symm.trans hsou')
  obtain ⟨a, ha, rfl⟩ := mem_map.1 hp
  obtain ⟨page, hpg, hchu⟩ := d.covered a ha
  exact ⟨page, hpag ▸ hpg, cfg.granule_of_inChunk (d.aligned page hpg).1 hchu⟩

omit [DecidableEq T] in
theorem Inv.store (hI : Inv cfg s) {value : Byte} (hop : s.armed (cfg.granule addr) ≠ true)
    (hcar : ∀ t d, (s.pc t).compiling = some d → addr ∉ d.addresses) :
    Inv cfg { s with mem := update s.mem addr value } := by
  set s' : Relinking T := { s with mem := update s.mem addr value }
  have hoth : ∀ a, a ≠ addr → s'.mem a = s.mem a := fun a ha => update_of_ne ha _ _
  -- the pages of a published block are armed, so the address is on none of them
  have hpub : ∀ a e, Published cfg s a e → Published cfg s' a e := by
    rintro a e ⟨hkno, ⟨bytes, hsou, hbyt⟩, hrgs⟩
    refine ⟨hkno, ⟨bytes, hsou, fun p hp => ?_⟩, hrgs⟩
    obtain ⟨page, hpg, hgra⟩ := hkno.mem_page hsou hp
    have hne : p.1 ≠ addr := fun h => hop (h ▸ hgra ▸ (hrgs page hpg).1)
    exact (hoth p.1 hne).trans (hbyt p hp)
  have hrea : ∀ t task, (∀ d, task = .compile d → (s.pc t).compiling = some d) →
      Ready cfg s task → Ready cfg s' task := by
    intro t task hcom hrea
    cases task with
    | compile d =>
      have hsm : d.bytes s'.mem = d.bytes s.mem := by
        refine map_congr_left fun a ha => ?_
        have hne : a ≠ addr := fun h => hcar t d (hcom d rfl) (h ▸ ha)
        rw [hoth a hne]
      exact fun p hp => hsm ▸ hrea p hp
    | relink rip e => exact hrea
  refine ⟨fun a e he => hpub a e (hI.live a e he), hI.retained, fun t => ?_⟩
  have hg := hI.threads t
  cases hpc : s.pc t with
  | register task todo | mark task page todo | verify task =>
    rw [hpc] at hg
    refine ⟨hrea t task ?_ hg.1, hg.2⟩
    rintro d rfl
    rw [hpc, Pc.compiling]
  | publish task todo =>
    rw [hpc] at hg
    exact fun p hp => hpub p.1 p.2 (hg p hp)
  | retained rip e =>
    rw [hpc] at hg
    exact hg
  | _ => trivial

omit [DecidableEq T] in
theorem Inv.fault (hI : Inv cfg s) (had : addr < word) (hid : ∀ t, s.pc t = .idle) :
    Inv cfg { s with
      map := s.map.softInvalidateRange (cfg.granule addr * cfg.hostPage) cfg.hostPage
      armed := update s.armed (cfg.granule addr) false } := by
  have hsf := s.map.softInvalidateRange_softened (cfg.granule addr * cfg.hostPage) cfg.hostPage
  refine ⟨fun a e he => ?_, fun a e he => ?_, fun t => ?_⟩
  · obtain ⟨hbef, hunl⟩ :=
      (erasePages_blockList softEraseBlock_erasure).1 he
    obtain ⟨hkno, hcur, hrgs⟩ := hI.live a e hbef
    refine ⟨hkno, hcur, fun page hpg => ?_⟩
    obtain ⟨harm, hlis⟩ := hrgs page hpg
    have hlis := forall_mem_singleton.1 hlis
    -- a block of the host page would have been erased
    have hoth : cfg.granule page ≠ cfg.granule addr := fun h =>
      hunl _ (cfg.mem_pages_of_granule had h) hlis
    refine ⟨(update_of_ne hoth _ _).trans harm, forall_mem_singleton.2 ?_⟩
    obtain ⟨entries, hent, ha⟩ := hlis
    refine ⟨entries, ?_, ha⟩
    refine (erasePages_codePages softEraseBlock_erasure _ _ _).trans ?_
    rw [if_neg fun hp => hunl _ hp ⟨entries, hent, ha⟩, hent]
  · rcases hsf.retained a e he with hr | ⟨hb, hlen⟩
    · exact hI.retained a e hr
    · exact ⟨(hI.live a e hb).known, hlen⟩
  · change Good cfg _ (s.pc t)
    rw [hid t]
    trivial

variable [Fintype T]

variable (cfg) in
theorem hashed_subset_step (s : Relinking T) (a : Action T) : s.hashed ⊆ (s.step cfg a).hashed := by
  cases a with
  | validate t | verify t =>
    rw [step]
    split
    · exact subset_append_right _ _
    · exact List.Subset.refl _
  | _ =>
    unfold step
    dsimp only
    repeat' split
    all_goals exact List.Subset.refl _

theorem Inv.step (hI : Inv cfg s) {a : Action T} (ha : Careful cfg s a)
    (hx : CollisionFree cfg.xxh3 (s.step cfg a).hashed) : Inv cfg (s.step cfg a) := by
  cases a with
  | store addr value =>
    rw [Relinking.step]
    split
    · exact hI
    · rename_i hop
      rcases ha with hsm | hcar
      · rw [← hsm, update_eq_self]
        exact hI
      · exact hI.store hop hcar
  | fault addr =>
    rw [Relinking.step]
    split
    · rename_i h
      exact hI.fault h.2.1 h.2.2
    · exact hI
  | enter t rip =>
    rw [Relinking.step]
    split
    · exact hI.goto trivial
    · exact hI
  | find t =>
    rw [Relinking.step]
    split
    · refine hI.goto ?_
      split <;> trivial
    · exact hI
  | take t =>
    rw [Relinking.step]
    split
    · exact hI.take _
    · exact hI
  | validate t =>
    rw [Relinking.step]
    split
    · rename_i rip e hpc
      have hI' := hI.record (s.taskCalls cfg (.relink rip e))
      have hg : Good cfg (s.record _) (.retained rip e) := hpc ▸ hI'.threads t
      refine hI'.goto ?_
      split
      · exact ⟨hg, List.Subset.refl _, fun page hpg => .inl hpg⟩
      · trivial
    · exact hI
  | decode t d =>
    unfold Relinking.step
    dsimp only
    split
    · exact hI.goto trivial
    · split
      · rename_i hfr
        exact hI.decode hfr
      · exact hI
    · exact hI
  | register t alloc =>
    rw [Relinking.step]
    split
    · rename_i task hpc
      obtain ⟨hrea, -, htd⟩ : Good cfg s (.register task []) := hpc ▸ hI.threads t
      exact hI.goto ⟨hrea, fun page hpg =>
        (htd page hpg).resolve_left not_mem_nil⟩
    · rename_i task page todo hpc
      exact hI.registerPage hpc (ha task page todo hpc)
    · exact hI
  | mark t =>
    rw [Relinking.step]
    split
    · rename_i task page todo hpc
      exact hI.mark hpc
    · exact hI
  | verify t =>
    rw [Relinking.step] at hx ⊢
    split at hx
    · rename_i task hpc
      have hI' := hI.record (s.taskCalls cfg task)
      have hg : Good cfg (s.record _) (.verify task) := hpc ▸ hI'.threads t
      exact hI'.goto (hg.verifyTask hx (subset_append_left _ _))
    · exact hI
  | publish t =>
    rw [Relinking.step]
    split
    · exact hI.goto trivial
    · rename_i task a e todo hpc
      exact hI.publish hpc
    · exact hI

omit [DecidableEq T] [Fintype T] in
theorem Inv.start (g : CodeGranuleBitmap) (mem : ℕ → Byte) : Inv cfg (start (T := T) g mem) where
  live _ _ he := nomatch he
  retained _ _ he := nomatch he
  threads _ := trivial

/-- **In every run with careful steps, if no two strings that it hashes collide, what a relink
publishes is a translation of the guest bytes in the memory, when it is published and as long as it
is live, and its pages are armed, so that no store to them is admitted without invalidating it.** -/
theorem relink_matches {g : CodeGranuleBitmap} {mem : ℕ → Byte} {as : List (Action T)}
    {s : Relinking T} (hrun : (machine cfg).Run (Careful cfg) (.start g mem) as s)
    (hx : CollisionFree cfg.xxh3 s.hashed) :
    (∀ t rip e todo, s.pc t = .publish (.relink rip e) todo →
      ∀ p ∈ todo, s.Matches p.2 ∧ ∀ page ∈ p.2.codePages, s.armed (cfg.granule page) = true) ∧
    ∀ a e, s.map.blockList a = some e →
      s.Matches e ∧ ∀ page ∈ e.codePages, s.armed (cfg.granule page) = true := by
  have hI : Inv cfg s := by
    -- a string that is hashed stays in the list, so there was no collision before either
    refine hrun.invariant (I := fun s => CollisionFree cfg.xxh3 s.hashed → Inv cfg s)
      (fun _ => .start g mem) ?_ hx
    rintro s a s' hI ha rfl hx
    have hsub := s.hashed_subset_step cfg a
    exact (hI fun c hc c' hc' => hx c (hsub hc) c' (hsub hc')).step ha hx
  have hpub : ∀ a e, Published cfg s a e →
      s.Matches e ∧ ∀ page ∈ e.codePages, s.armed (cfg.granule page) = true :=
    fun a e h => ⟨h.current, fun page hpg => (h.registered page hpg).1⟩
  refine ⟨fun t rip e todo hpc p hp => ?_, fun a e he => hpub a e (hI.live a e he)⟩
  have hg : Good cfg s (.publish (.relink rip e) todo) := hpc ▸ hI.threads t
  exact hpub p.1 p.2 (hg p hp)

end Steps

/-! ### Runs -/

section Samples

/-- Any hash of 64 bits will do, since few strings are hashed. -/
def sampleHash (data : List Byte) (seed : BitVec 64) : BitVec 64 :=
  BitVec.ofNat 64 (leValue data) + 257 * seed

/-- Host pages of 64 KiB. -/
def sampleConfig : RelinkConfig := ⟨sampleHash, 4, by decide⟩

/-- A block of one byte at `0x1000 + i`. -/
def sampleBlock (i : Fin 2) (host : ℕ) : Decoded where
  entryPoints := [0x1000 + i]
  hostCode := [(0x1000 + i, host)]
  tail := ⟨0x1000 + i, 1⟩
  codePages := [0x1000]
  start := 0x1000 + i
  length := 1
  addresses := [0x1000 + i]
  aligned := by decide
  covered := by revert i; decide
  entered := by simp

abbrev SampleAction := Action (Fin 2)

local instance neZero_thread : NeZero 2 := ⟨by decide⟩

/-- The thread finds no live block. -/
def enters (t : Fin 2) (rip : ℕ) : List SampleAction := [.enter t rip, .find t, .take t]

/-- The one page is registered and armed, and the block is hashed. -/
def protects (t : Fin 2) : List SampleAction :=
  [.register t fun _ => ⟨true, true⟩, .mark t, .register t fun _ => ⟨true, true⟩, .verify t]

def compiles (t : Fin 2) (d : Decoded) : List SampleAction :=
  enters t d.start ++ [.decode t (some d)] ++ protects t ++ [.publish t, .publish t]

def samples (as : List SampleAction) : Relinking (Fin 2) :=
  as.foldl (fun s => s.step sampleConfig) (start ⟨none⟩ fun _ => 0)

/-- `Careful` as a test. -/
def carefulCheck (s : Relinking (Fin 2)) : SampleAction → Bool
  | .store addr value => s.mem addr = value ∨
      ∀ t, ∀ d ∈ (s.pc t).compiling, addr ∉ d.addresses
  | .register t _ =>
    match s.pc t with
    | .register _ (page :: _) => (s.map.codePages (page / 2 ^ 12)).getD [] ≠ [] →
        s.armed (sampleConfig.granule page) = true
    | _ => true
  | _ => true

theorem careful_of_check (s : Relinking (Fin 2)) (a : SampleAction)
    (h : carefulCheck s a = true) : Careful sampleConfig s a := by
  cases a with
  | store addr value =>
    have hsto : s.mem addr = value ∨ ∀ t, ∀ d ∈ (s.pc t).compiling, addr ∉ d.addresses :=
      of_decide_eq_true h
    exact hsto
  | register t alloc =>
    intro task page todo hpc
    rw [carefulCheck, hpc] at h
    exact of_decide_eq_true h
  | _ => trivial

/-- A block is compiled, its page is written back and forth, and it is relinked. -/
def relinkActions : List SampleAction :=
  compiles 0 (sampleBlock 0 7) ++ [.fault 0x1000, .store 0x1000 1, .store 0x1000 0] ++
    enters 0 0x1000 ++ [.validate 0] ++ protects 0

/-- The guest writes the byte after it was decoded: the hash is that of the new byte. -/
def staleHash : List SampleAction :=
  enters 0 0x1000 ++ [.decode 0 (some (sampleBlock 0 7)), .store 0x1000 1] ++ protects 0 ++
    [.publish 0, .publish 0, .fault 0x1000] ++ enters 0 0x1000 ++ [.validate 0] ++ protects 0

/-- The page of two retained blocks is registered by one thread and not armed yet; the other does
not arm it, and the guest writes after the second hash. -/
def staleArm : List SampleAction :=
  compiles 0 (sampleBlock 0 7) ++ compiles 1 (sampleBlock 1 8) ++ [.fault 0x1000] ++
    enters 0 0x1000 ++ [.validate 0, .register 0 fun _ => ⟨true, true⟩] ++
    enters 1 0x1001 ++ [.validate 1] ++ protects 1 ++ [.store 0x1001 1]

theorem relink_matches_sample :
    (∃ e, (samples relinkActions).pc 0 = .publish (.relink 0x1000 e) [(0x1000, e)] ∧
      (samples relinkActions).Matches e) ∧
    ∀ a e, (samples relinkActions).map.blockList a = some e →
      (samples relinkActions).Matches e := by
  have hrun : (machine sampleConfig).Run (Careful sampleConfig) (start ⟨none⟩ fun _ => 0)
      relinkActions (samples relinkActions) :=
    Machine.Run.of_checked careful_of_check (by decide +kernel)
  have hmat := relink_matches hrun (by decide +kernel)
  refine ⟨⟨_, rfl, ?_⟩, fun a e he => (hmat.2 a e he).1⟩
  exact (hmat.1 0 _ _ _ rfl _ (mem_singleton_self _)).1

theorem not_matches {s : Relinking (Fin 2)} {b : Byte}
    (hsou : s.source e.hostCode = some [(a, b)]) (hmem : s.mem a ≠ b) : ¬s.Matches e := by
  rintro ⟨bytes, hbyt, hall⟩
  obtain rfl := Option.some.inj (hsou.symm.trans hbyt)
  exact hmem (hall (a, b) (mem_singleton_self _))

/-- **A relink publishes host code of bytes that are not in the memory, without a collision**: after
a store between the decoding and the hash, and after a store to a page that is not armed yet. -/
theorem stale_relink : (CollisionFree sampleHash (samples staleHash).hashed ∧
      ∃ e, (samples staleHash).pc 0 = .publish (.relink 0x1000 e) [(0x1000, e)] ∧
        ¬(samples staleHash).Matches e) ∧
    CollisionFree sampleHash (samples staleArm).hashed ∧
      ∃ e, (samples staleArm).pc 1 = .publish (.relink 0x1001 e) [(0x1001, e)] ∧
        ¬(samples staleArm).Matches e := by
  refine ⟨⟨by decide +kernel, _, rfl, ?_⟩, by decide +kernel, _, rfl, ?_⟩
  · exact not_matches (a := 0x1000) (b := 0) rfl (by decide +kernel)
  · exact not_matches (a := 0x1001) (b := 0) rfl (by decide +kernel)

end Samples

end Relinking

end Smc

end FastPPC
