import FastPPC.Granule.Table
import FastPPC.Lists.Coalesce
import FastPPC.Vma.Runs

/-!
# The synthesised `/proc/self/maps`

On a host with larger pages the emulator writes the guest's maps file itself (`GenerateMaps`): it
walks every tracked mapping page by page, asks the granule table about each page and merges
neighbours of one protection into a line.

* `mapRuns` : the loop over the pages of one mapping, with the run that is open;
* `generateRuns` : all runs, in the order in which they are written;
* `generateMaps` : the text.

**`generateRuns_exact`: the runs are disjoint and ascending, each is a maximal stretch of live pages
of one mapping with its intended protection and file offset, and every live page of a mapping is in
one of them.**  The loop is an instance of `Lists.coalesce`.
-/

namespace FastPPC.Granule

open Vma FastPPC.Lists List

/-- One line of the file. -/
structure MapRun where
  base : ℕ
  stop : ℕ
  prot : VMAProt
  shared : Bool
  offset : ℕ
  vma : NodeId
  deriving DecidableEq

variable (h : HostPage) (t : GranuleTable) (s : VMATracking)

/-- What the file says about a page of a mapping: its protection, `none` for a hole.  Where the
granule table has an entry it decides, elsewhere the page is live with the mapping's protection. -/
def pageView (e : VMAEntry) (page : ℕ) : Option VMAProt :=
  match t.nibble h page with
  | some n => if n.live then some (protFromNibble n) else none
  | none => some e.prot

/-- A run of one page. -/
def MapRun.new (i : NodeId) (e : VMAEntry) (page : ℕ) (prot : VMAProt) : MapRun :=
  ⟨page, wadd page guestPageSize, prot, e.flags.shared, wadd e.offset (wsub page e.base), i⟩

/-- The loop over the pages of the mapping `i`; the first argument is `Run` if it is `Open`. -/
def mapRuns (i : NodeId) (e : VMAEntry) : Option MapRun → List ℕ → List MapRun
  | run, [] => run.toList
  | run, page :: pages =>
    match pageView h t e page with
    | none => run.toList ++ mapRuns i e none pages
    | some prot =>
      match run with
      | none => mapRuns i e (some (.new i e page prot)) pages
      | some r =>
        if prot = r.prot ∧ page = r.stop then
          mapRuns i e (some { r with stop := wadd r.stop guestPageSize }) pages
        else r :: mapRuns i e (some (.new i e page prot)) pages

/-- The runs in the order in which `EmitRun` gets them. -/
def generateRuns : List MapRun :=
  s.vmas.flatMap fun i =>
    mapRuns h t i (s.node i) none (guestPages (s.node i).base (s.node i).length)

/-! ### The text -/

/-- `n` in base `b` with at least `width` digits. -/
def padded (b width n : ℕ) : String :=
  String.ofList (leftpad width '0' (Nat.toDigits b n))

/-- `n` in decimal, right-aligned in eight columns. -/
def column (n : ℕ) : String := String.ofList (leftpad 8 ' ' (Nat.toDigits 10 n))

def specialDevAnon : ℕ := 0x100000000

/-- Device and inode of a run; those of special resources are not shown. -/
def MapRun.device (r : MapRun) : ℕ × ℕ :=
  match (s.node r.vma).resource with
  | none => (0, 0)
  | some q =>
    if (s.res q).mrid.dev < specialDevAnon then ((s.res q).mrid.dev, (s.res q).mrid.id) else (0, 0)

/-- The text of a run; `filename` is the name of the mapped file of a resource, if it has one. -/
def emitRun (filename : ResId → Option String) (smaps : Bool) (r : MapRun) : String :=
  let path := ((s.node r.vma).resource.bind filename).getD ""
  let letter (c : Bool) (x : String) : String := if c then x else "-"
  let line := padded 16 12 r.base ++ "-" ++ padded 16 12 r.stop ++ " " ++
    letter r.prot.readable "r" ++ letter r.prot.writable "w" ++ letter r.prot.executable "x" ++
    (if r.shared then "s" else "p") ++ " " ++ padded 16 8 r.offset ++ " " ++
    padded 16 2 ((r.device s).1 / 2 ^ 8 % 2 ^ 8) ++ ":" ++ padded 16 2 ((r.device s).1 % 2 ^ 8) ++
    " " ++ padded 10 1 (r.device s).2 ++
    (if path = "" then "" else "                    " ++ path) ++ "\n"
  let sizeKB := (r.stop - r.base) / 2 ^ 10
  let flag (c : Bool) (x : String) : String := if c then x else ""
  if smaps then
    line ++ "Size:           " ++ column sizeKB ++ " kB\n" ++
      "KernelPageSize: " ++ column (guestPageSize / 2 ^ 10) ++ " kB\n" ++
      "MMUPageSize:    " ++ column (guestPageSize / 2 ^ 10) ++ " kB\n" ++
      "Rss:            " ++ column sizeKB ++ " kB\n" ++
      "Pss:            " ++ column sizeKB ++ " kB\n" ++
      "Private_Dirty:  " ++ column (if r.shared then 0 else sizeKB) ++ " kB\n" ++
      "Swap:           " ++ column 0 ++ " kB\n" ++
      "VmFlags:" ++ flag r.prot.readable " rd" ++ flag r.prot.writable " wr" ++
      flag r.prot.executable " ex" ++ (if r.shared then " sh" else " mr mw me") ++ "\n"
  else line

def generateMaps (filename : ResId → Option String) (smaps : Bool) : String :=
  (generateRuns h t s).foldl (fun out r => out ++ emitRun s filename smaps r) ""

/-! ### What the runs say -/

/-- The map of the guest's mappings: disjoint, in order, starting at pages and ending below the last
page of the address space. -/
structure PageMap : Prop where
  wf : s.Wf
  aligned : ∀ i ∈ s.vmas, guestPageSize ∣ (s.node i).base
  fits : ∀ i ∈ s.vmas, s.top i + guestPageSize ≤ word

/-- The page is a live page of the mapping `i` with this protection. -/
structure Shows (i : NodeId) (page : ℕ) (prot : VMAProt) : Prop where
  aligned : guestPageSize ∣ page
  covers : (s.node i).Covers page
  live : pageView h t (s.node i) page = some prot

/-- The run is a maximal stretch of pages of one mapping with one protection. -/
structure MapRun.Exact (r : MapRun) : Prop where
  mem : r.vma ∈ s.vmas
  shared : r.shared = (s.node r.vma).flags.shared
  aligned : guestPageSize ∣ r.base ∧ guestPageSize ∣ r.stop
  nonempty : r.base < r.stop
  /-- Every page of it is live with the protection and at the offset that the line says. -/
  pages : ∀ page, guestPageSize ∣ page → r.base ≤ page → page < r.stop →
    Shows h t s r.vma page r.prot ∧ wadd r.offset (page - r.base) =
      wadd (s.node r.vma).offset (page - (s.node r.vma).base)
  /-- The page after it is not, -/
  above : ¬Shows h t s r.vma r.stop r.prot
  /-- nor is the page before it. -/
  below : ∀ page, page + guestPageSize = r.base → ¬Shows h t s r.vma page r.prot

variable {h t s}

/-- The run of a segment of the mapping. -/
def MapRun.ofSegment (i : NodeId) (e : VMAEntry) (g : Segment VMAProt) : MapRun :=
  ⟨g.start, g.stop, g.value, e.flags.shared, wadd e.offset (wsub g.start e.base), i⟩

/-- The number of pages the loop visits. -/
def pageCount (length : ℕ) : ℕ := (length + guestPageSize - 1) / guestPageSize

theorem guestPages_cons (base n : ℕ) : (range (n + 1)).map (fun i => base + i * guestPageSize) =
      base :: (range n).map fun i => base + guestPageSize + i * guestPageSize := by
  rw [range_succ_eq_map, map_cons, map_map, Nat.zero_mul, Nat.add_zero]
  congr 1
  refine map_congr_left fun i _ => ?_
  simp only [Function.comp_apply, Nat.succ_mul]
  omega

/-- **The loop coalesces.** -/
theorem mapRuns_eq (i : NodeId) (e : VMAEntry) (cur : Option (Segment VMAProt)) (k n : ℕ)
    (hft : k + n * guestPageSize < word) :
    mapRuns h t i e (cur.map (.ofSegment i e)) ((range n).map fun j => k + j * guestPageSize) =
      (coalesce guestPageSize (pageView h t e) cur k n).map (.ofSegment i e) := by
  induction n generalizing cur k with
  | zero => cases cur <;> rfl
  | succ n ih =>
    rw [Nat.succ_mul] at hft
    have ih := fun cur => ih cur (k + guestPageSize) (by omega)
    rw [guestPages_cons, mapRuns, coalesce]
    cases hv : pageView h t e k with
    | none =>
      rw [map_append, ← ih none]
      cases cur <;> rfl
    | some prot =>
      dsimp only
      have hst : wadd k guestPageSize = k + guestPageSize := wadd_eq (by omega)
      have hnew : MapRun.new i e k prot = .ofSegment i e ⟨k, k + guestPageSize, prot⟩ := by
        rw [MapRun.new, hst]
        rfl
      cases cur with
      | none =>
        rw [← ih (some ⟨k, k + guestPageSize, prot⟩), Option.map_some, ← hnew]
        rfl
      | some g =>
        simp only [Option.map_some, MapRun.ofSegment]
        split_ifs with hjn
        · obtain ⟨-, rfl⟩ := hjn
          rw [← ih, hst]
          rfl
        · rw [map_cons, ← ih, Option.map_some, ← hnew]
          rfl

theorem le_pageCount (length : ℕ) : length ≤ pageCount length * guestPageSize := by
  unfold pageCount guestPageSize
  omega

theorem mul_lt_of_lt_pageCount {j length : ℕ} (hj : j < pageCount length) :
    j * guestPageSize < length := by
  unfold pageCount guestPageSize at *
  omega

/-- A page from `a` on is a number of pages further. -/
theorem exists_page {a page : ℕ} (ha : guestPageSize ∣ a) (hp : guestPageSize ∣ page)
    (hle : a ≤ page) : ∃ j, page = a + j * guestPageSize := by
  obtain ⟨j, hj⟩ := Nat.dvd_sub hp ha
  exact ⟨j, by rw [Nat.mul_comm, ← hj]; omega⟩

variable (h t) in
/-- The runs of a mapping tile its pages. -/
theorem mapRuns_tiles (hm : PageMap s) {i : NodeId} (hi : i ∈ s.vmas) :
    ∃ gs, Tiles guestPageSize (pageView h t (s.node i)) none (s.node i).base
        (pageCount (s.node i).length) gs ∧
      mapRuns h t i (s.node i) none (guestPages (s.node i).base (s.node i).length) =
        gs.map (.ofSegment i (s.node i)) := by
  refine ⟨_, coalesce_tiles _ _ _ _, mapRuns_eq i (s.node i) none _ _ ?_⟩
  have hft := hm.fits i hi
  unfold VMATracking.top at hft
  unfold guestPageSize at *
  omega

/-- A segment of the tiling is a maximal run. -/
theorem exact_ofSegment (hm : PageMap s) {i : NodeId} (hi : i ∈ s.vmas)
    {gs : List (Segment VMAProt)} (htil : Tiles guestPageSize (pageView h t (s.node i)) none
      (s.node i).base (pageCount (s.node i).length) gs) {g : Segment VMAProt} (hg : g ∈ gs) :
    (MapRun.ofSegment i (s.node i) g).Exact h t s := by
  have hbs := hm.aligned i hi
  obtain ⟨k, m, hpos, hkm, hsta, hst, hsh⟩ := htil.shows g hg
  have hle : (s.node i).base ≤ g.start := (htil.bounds g hg).1
  have hgs : guestPageSize ∣ g.start := hsta ▸ Nat.dvd_add hbs (Nat.dvd_mul_left _ _)
  have hge : guestPageSize ∣ g.stop := hst ▸ Nat.dvd_add hgs (Nat.dvd_mul_left _ _)
  have hlt : g.start < g.stop :=
    hst ▸ Nat.lt_add_of_pos_right (Nat.mul_pos hpos (by decide))
  refine ⟨hi, rfl, ⟨hgs, hge⟩, hlt, ?_, ?_, ?_⟩
  · intro page hp hge hlt
    simp only [MapRun.ofSegment] at hge hlt ⊢
    obtain ⟨j, rfl⟩ := exists_page hgs hp hge
    have hjm : j < m := by
      rw [hst] at hlt
      exact Nat.lt_of_mul_lt_mul_right (Nat.lt_of_add_lt_add_left hlt)
    have hcov : (k + j) * guestPageSize < (s.node i).length :=
      mul_lt_of_lt_pageCount (Nat.lt_of_lt_of_le (Nat.add_lt_add_left hjm k) hkm)
    rw [Nat.add_mul] at hcov
    refine ⟨⟨hp, ⟨by omega, by omega⟩, hsh j hjm⟩, ?_⟩
    have hwr : g.start < word := by
      have hft := hm.fits i hi
      unfold VMATracking.top at hft
      omega
    rw [wsub_eq hwr hle, wadd_wadd]
    congr 1
    omega
  · rintro ⟨-, ⟨-, hlt⟩, hlv⟩
    simp only [MapRun.ofSegment] at hlt hlv
    have := le_pageCount (s.node i).length
    exact htil.maximal_right g hg (by omega) hlv
  · rintro page hp ⟨-, ⟨hge, -⟩, hlv⟩
    simp only [MapRun.ofSegment] at hp hge hlv
    have hpos : 0 < guestPageSize := by decide
    rcases htil.maximal_left g hg with ⟨h₁, -⟩ | ⟨p, -, h₁, hne⟩
    · omega
    · obtain rfl : p = page := by omega
      exact hne hlv

/-- **The maps file is the guest's view.** -/
theorem generateRuns_exact (h : HostPage) (t : GranuleTable) (hm : PageMap s) :
    ((generateRuns h t s).Pairwise fun r r' => r.stop ≤ r'.base) ∧
      (∀ r ∈ generateRuns h t s, r.Exact h t s) ∧
      ∀ page, guestPageSize ∣ page → ((∃ r ∈ generateRuns h t s, r.base ≤ page ∧ page < r.stop) ↔
          ∃ i ∈ s.vmas, ∃ prot, Shows h t s i page prot) := by
  have hex : ∀ r ∈ generateRuns h t s, r.Exact h t s := by
    intro r hr
    obtain ⟨i, hi, hr⟩ := mem_flatMap.1 hr
    obtain ⟨gs, htil, heq⟩ := mapRuns_tiles h t hm hi
    rw [heq] at hr
    obtain ⟨g, hg, rfl⟩ := mem_map.1 hr
    exact exact_ofSegment hm hi htil hg
  refine ⟨pairwise_flatMap.2 ⟨fun i hi => ?_, ?_⟩, hex, fun page hp => ⟨?_, ?_⟩⟩
  · obtain ⟨gs, htil, heq⟩ := mapRuns_tiles h t hm hi
    rw [heq]
    exact pairwise_map.2 htil.sorted
  · -- a mapping ends before the page where the next begins
    refine hm.wf.sorted.imp_of_mem fun {i j} hi hj hij r hr r' hr' => ?_
    obtain ⟨gs, htil, heq⟩ := mapRuns_tiles h t hm hi
    obtain ⟨gs', htil', heq'⟩ := mapRuns_tiles h t hm hj
    rw [heq] at hr
    rw [heq'] at hr'
    obtain ⟨g, hg, rfl⟩ := mem_map.1 hr
    obtain ⟨g', hg', rfl⟩ := mem_map.1 hr'
    have h₁ := (htil.bounds g hg).2
    have h₂ := (htil'.bounds g' hg').1
    have hi' := hm.aligned i hi
    have hj' := hm.aligned j hj
    simp only [MapRun.ofSegment, VMATracking.top] at hij ⊢
    unfold pageCount guestPageSize at *
    omega
  · rintro ⟨r, hr, hge, hlt⟩
    exact ⟨r.vma, (hex r hr).mem, _, ((hex r hr).pages page hp hge hlt).1⟩
  · rintro ⟨i, hi, prot, hsho⟩
    obtain ⟨gs, htil, heq⟩ := mapRuns_tiles h t hm hi
    obtain ⟨j, hj⟩ := exists_page (hm.aligned i hi) hp hsho.covers.1
    have hcou : j < pageCount (s.node i).length := by
      have hlt := hsho.covers.2
      unfold pageCount guestPageSize at *
      omega
    obtain ⟨g, hg, hge, hlt⟩ := (htil.exists_covers_iff (by decide) hcou).2
      (by rw [← hj, hsho.live]; simp)
    rw [← hj] at hge hlt
    exact ⟨_, mem_flatMap.2 ⟨i, hi, heq ▸ mem_map_of_mem hg⟩, hge, hlt⟩

/-- The 64 KiB host. -/
def page64K : HostPage := ⟨16, Nat.le_add_right 2 14, le_rfl⟩

/-- A mapping of twenty pages from 0x10000 on of whose first granule only the third page is left. -/
theorem generateRuns_exact_sample : ∃ s, tracker.Run Called .empty
      [.track none 0x10000 0 0x14000 ⟨false⟩ ⟨true, true, false⟩] s ∧
    (generateRuns page64K (GranuleTable.setIntended page64K (fun _ => none) 0x12000 0x1000
        ⟨true, false, false⟩) s).map (fun r => (r.base, r.stop, r.offset)) =
      [(0x12000, 0x13000, 0x2000), (0x20000, 0x24000, 0x10000)] ∧
    ∀ r ∈ generateRuns page64K (GranuleTable.setIntended page64K (fun _ => none) 0x12000 0x1000
        ⟨true, false, false⟩) s, r.Exact page64K (GranuleTable.setIntended page64K (fun _ => none)
        0x12000 0x1000 ⟨true, false, false⟩) s := by
  have h₀ : tracker.Run Called .empty [] .empty := .nil _
  have h₁ := run_call (.track none 0x10000 0 0x14000 ⟨false⟩ ⟨true, true, false⟩) h₀
    ⟨by decide, by decide, by decide⟩ rfl
  refine ⟨_, h₁, by decide, (generateRuns_exact page64K _ ⟨?_, by decide, by decide⟩).2.1⟩
  exact (run_inv (fun _ _ hc => hc) h₁).1

end FastPPC.Granule
