import FastPPC.Codec.LittleEndian

/-!
# The code map file

A code map lists the blocks of guest code that were compiled, for an offline compiler.  It is a
sequence of records: a library with its file name, the mark of the main executable, or a block.  The
first two start with an entry whose file id and offset no block has.

* `Record.encode` : the bytes of a record, as the writer lays them out;
* `parseCodeMap` : `CodeMap::ParseCodeMap`;
* `parseCodeMap_encode` : parsing a sequence of records reads them in order;
* `parseCodeMap_torn` : and so does parsing what a crash has left of it;
* `exact_of_announced` : what the parser makes of them.  A block whose file it does not know yet is
  dropped.
-/

namespace FastPPC.CodeMap

open Codec List Function

/-- `CodeMapFileId`. -/
abbrev FileId := BitVec 64

/-- `ExecutableFileInfo`; a file name holds no null character. -/
structure FileInfo where
  fileId : FileId
  filename : List Byte
  noNull : (0 : Byte) ∉ filename
  deriving DecidableEq

inductive Record
  | library (file : FileInfo)
  | executable (id : FileId)
  | block (id : FileId) (offset : BitVec 32)
  deriving DecidableEq

/-! ### Writing -/

/-- The file id of an entry that is no block. -/
def markerId : FileId := 0xffffffffffffffff

/-- `LoadExternalLibrary.BlockOffset`. -/
def loadExternalLibrary : BitVec 32 := 0xffffffff

/-- `SetExecutableFileId::Marker.BlockOffset`. -/
def setExecutable : BitVec 32 := 0xfffffffe

def entryBytes (id : FileId) (offset : BitVec 32) : List Byte :=
  leBytes 8 id.toNat ++ leBytes 4 offset.toNat

def alignUp (n k : ℕ) : ℕ := (n + k - 1) / k * k

/-- The bytes of a record.  A file name ends with a null character and is padded with more. -/
def Record.encode : Record → List Byte
  | .library file =>
    entryBytes markerId loadExternalLibrary ++ leBytes 8 file.fileId.toNat ++ file.filename ++
      List.replicate (alignUp (12 + 8 + file.filename.length + 1) 4 - (20 + file.filename.length)) 0
  | .executable id => entryBytes markerId setExecutable ++ leBytes 8 id.toNat
  | .block id offset => entryBytes id offset

def Record.size (r : Record) : ℕ := r.encode.length

/-! ### Parsing -/

/-- `CodeMap::ParsedContents`. -/
structure Contents where
  filename : List Byte
  blocks : Finset (BitVec 32)
  isExecutable : Bool
  deriving DecidableEq

def Contents.empty : Contents := ⟨[], ∅, false⟩

/-- The parsed files, by their ids. -/
abbrev Parsed := FileId → Option Contents

/-- A number of `n` bytes, and the bytes behind it. -/
def readNumber (n : ℕ) (bytes : List Byte) : Option (ℕ × List Byte) :=
  if bytes.length < n then none else some (leValue (bytes.take n), bytes.drop n)

/-- `std::getline` up to a null character, which has to be there. -/
def getline : List Byte → Option (List Byte × List Byte)
  | [] => none
  | b :: bytes =>
    if b = 0 then some ([], bytes)
    else (getline bytes).map fun r => (b :: r.1, r.2)

def skip (n : ℕ) (bytes : List Byte) : Option (List Byte) :=
  if bytes.length < n then none else some (bytes.drop n)

/-- What a record does to the files known so far. -/
def Parsed.add (ret : Parsed) : Record → Parsed
  | .library file =>
    update ret file.fileId
      (some { (ret file.fileId).getD .empty with filename := file.filename })
  | .executable id =>
    update ret id (some { (ret id).getD .empty with isExecutable := true })
  | .block id offset =>
    match ret id with
    -- a message says that the file id is unknown
    | none => ret
    | some c => update ret id (some { c with blocks := insert offset c.blocks })

/-- One record off the front of the file; `none` at its end. -/
def readRecord (bytes : List Byte) : Option ((Parsed → Parsed) × List Byte) :=
  readNumber 8 bytes >>= fun (id, bytes) =>
  readNumber 4 bytes >>= fun (offset, bytes) =>
  if BitVec.ofNat 64 id = markerId ∧ BitVec.ofNat 32 offset = loadExternalLibrary then
    readNumber 8 bytes >>= fun (ext, bytes) =>
    getline bytes >>= fun (filename, bytes) =>
    (skip (alignUp (filename.length + 1) 4 - filename.length - 1) bytes).map fun bytes =>
      (fun ret => Function.update ret (BitVec.ofNat 64 ext)
        (some { (ret (BitVec.ofNat 64 ext)).getD .empty with filename := filename }), bytes)
  else if BitVec.ofNat 64 id = markerId ∧ BitVec.ofNat 32 offset = setExecutable then
    (readNumber 8 bytes).map fun (ext, bytes) =>
      ((Parsed.add · (.executable (BitVec.ofNat 64 ext))), bytes)
  else some ((Parsed.add · (.block (BitVec.ofNat 64 id) (BitVec.ofNat 32 offset))), bytes)

/-- The loop of the parser; every record takes some bytes. -/
def parseFrom : ℕ → List Byte → Parsed → Parsed
  | 0, _, ret => ret
  | fuel + 1, bytes, ret =>
    match readRecord bytes with
    | none => ret
    | some (f, bytes) => parseFrom fuel bytes (f ret)

def parseCodeMap (bytes : List Byte) : Parsed := parseFrom bytes.length bytes fun _ => none

/-! ### The round trip -/

variable {r : Record}

/-- A block that does not look like one of the other records. -/
def Record.Plain : Record → Prop
  | .block id offset => ¬(id = markerId ∧ (offset = loadExternalLibrary ∨ offset = setExecutable))
  | .library _ | .executable _ => True

instance : DecidablePred Record.Plain
  | .block _ _ => inferInstanceAs (Decidable (¬_))
  | .library _ | .executable _ => inferInstanceAs (Decidable True)

theorem readNumber_append {n v : ℕ} (hv : v < 256 ^ n) (bytes : List Byte) :
    readNumber n (leBytes n v ++ bytes) = some (v, bytes) := by
  rw [readNumber, if_neg (by simp), leValue_take_append hv, drop_leBytes_append]

theorem readNumber_id (id : FileId) (bytes : List Byte) :
    readNumber 8 (leBytes 8 id.toNat ++ bytes) = some (id.toNat, bytes) :=
  readNumber_append id.isLt bytes

theorem readNumber_offset (offset : BitVec 32) (bytes : List Byte) :
    readNumber 4 (leBytes 4 offset.toNat ++ bytes) = some (offset.toNat, bytes) :=
  readNumber_append offset.isLt bytes

theorem getline_append : ∀ {name : List Byte}, (0 : Byte) ∉ name → ∀ bytes,
    getline (name ++ 0 :: bytes) = some (name, bytes)
  | [], _, _ => rfl
  | b :: name, hnl, bytes => by
    obtain ⟨hne, hnl⟩ := not_or.1 (mt mem_cons.2 hnl)
    rw [cons_append, getline, if_neg (Ne.symm hne), getline_append hnl]
    rfl

/-- The null characters behind a file name: one that ends it, and those the parser skips. -/
theorem padding_eq (n : ℕ) : alignUp (12 + 8 + n + 1) 4 - (20 + n) =
    (alignUp (n + 1) 4 - n - 1) + 1 := by
  simp only [alignUp]
  omega

theorem skip_replicate (n : ℕ) (bytes : List Byte) :
    skip n (List.replicate n 0 ++ bytes) = some bytes := by
  rw [skip, if_neg (by simp), drop_left' (length_replicate)]

theorem readRecord_encode (hr : r.Plain) (bytes : List Byte) :
    ∃ f, readRecord (r.encode ++ bytes) = some (f, bytes) ∧ ∀ ret, f ret = ret.add r := by
  cases r with
  | library file =>
    refine ⟨fun ret => ret.add (.library file), ?_, fun _ => rfl⟩
    have hln := getline_append file.noNull
      (List.replicate (alignUp (file.filename.length + 1) 4 - file.filename.length - 1) 0 ++ bytes)
    simp only [readRecord, Record.encode, entryBytes, append_assoc, padding_eq,
      replicate_succ, cons_append, readNumber_id, readNumber_offset, hln, skip_replicate,
      Option.bind_eq_bind, Option.bind_some, BitVec.ofNat_toNat]
    rfl
  | executable id =>
    refine ⟨fun ret => ret.add (.executable id), ?_, fun _ => rfl⟩
    have hne : ¬setExecutable = loadExternalLibrary := by decide
    simp only [readRecord, Record.encode, entryBytes, append_assoc, readNumber_id,
      readNumber_offset,
      Option.bind_eq_bind, Option.bind_some, BitVec.ofNat_toNat, BitVec.setWidth_eq, hne, and_false,
      and_self, if_true, if_false, Option.map_some]
  | block id offset =>
    refine ⟨fun ret => ret.add (.block id offset), ?_, fun _ => rfl⟩
    have h1 : ¬(id = markerId ∧ offset = loadExternalLibrary) := fun h => hr ⟨h.1, .inl h.2⟩
    have h2 : ¬(id = markerId ∧ offset = setExecutable) := fun h => hr ⟨h.1, .inr h.2⟩
    simp only [readRecord, Record.encode, entryBytes, append_assoc, readNumber_id,
      readNumber_offset,
      Option.bind_eq_bind, Option.bind_some, BitVec.ofNat_toNat, BitVec.setWidth_eq, h1, h2,
      if_false]

theorem Record.size_pos (r : Record) : 0 < r.size := by
  cases r <;> simp [size, encode, entryBytes]

/-- By induction on the records; the number of bytes is fuel enough. -/
theorem parseFrom_encode {rest : List Byte} (hrest : readRecord rest = none) :
    ∀ (records : List Record) (fuel : ℕ) (ret : Parsed), (∀ r ∈ records, r.Plain) →
      (records.flatMap Record.encode ++ rest).length ≤ fuel →
      parseFrom fuel (records.flatMap Record.encode ++ rest) ret = records.foldl Parsed.add ret
  | [], 0, _, _, _ => rfl
  | [], fuel + 1, ret, _, _ => by
    rw [flatMap_nil, nil_append, parseFrom, hrest]
    rfl
  | r :: records, fuel, ret, hpla, hfl => by
    obtain ⟨hr, hpla⟩ := forall_mem_cons.1 hpla
    have hpos : 0 < r.encode.length := r.size_pos
    rw [flatMap_cons, append_assoc, length_append] at hfl
    obtain ⟨fuel, rfl⟩ : ∃ k, fuel = k + 1 := ⟨fuel - 1, by omega⟩
    obtain ⟨f, hrd, hf⟩ := readRecord_encode hr (records.flatMap Record.encode ++ rest)
    rw [flatMap_cons, append_assoc, parseFrom, hrd, foldl_cons, ← hf]
    exact parseFrom_encode hrest records fuel (f ret) hpla (by omega)

/-- **The round trip**: parsing a sequence of records reads them in order. -/
theorem parseCodeMap_encode {records : List Record} (hpla : ∀ r ∈ records, r.Plain) :
    parseCodeMap (records.flatMap Record.encode) = records.foldl Parsed.add fun _ => none := by
  rw [← append_nil (records.flatMap Record.encode)]
  exact parseFrom_encode rfl records _ _ hpla le_rfl

/-! ### A file that ends inside a record -/

section

variable {bytes : List Byte} (more : List Byte)

theorem readNumber_extend {n : ℕ} {x : ℕ × List Byte} (h : readNumber n bytes = some x) :
    readNumber n (bytes ++ more) = some (x.1, x.2 ++ more) := by
  unfold readNumber at h ⊢
  grind

theorem getline_extend {x : List Byte × List Byte} (h : getline bytes = some x) :
    getline (bytes ++ more) = some (x.1, x.2 ++ more) := by
  induction bytes generalizing x with
  | nil => cases h
  | cons b bytes ih =>
    rw [getline] at h
    rw [cons_append, getline]
    split at h
    · cases h
      exact if_pos ‹_›
    · obtain ⟨y, hy, rfl⟩ := Option.map_eq_some_iff.1 h
      rw [if_neg ‹_›, ih hy]
      rfl

/-- What is read does not depend on the bytes behind it. -/
theorem readRecord_extend {x : (Parsed → Parsed) × List Byte} (h : readRecord bytes = some x) :
    readRecord (bytes ++ more) = some (x.1, x.2 ++ more) := by
  unfold readRecord at h ⊢
  obtain ⟨⟨id, _⟩, hid, h⟩ := Option.bind_eq_some_iff.1 h
  obtain ⟨⟨offset, _⟩, hoff, h⟩ := Option.bind_eq_some_iff.1 h
  simp only [readNumber_extend more hid, readNumber_extend more hoff, Option.bind_eq_bind,
    Option.bind_some] at h ⊢
  split_ifs at h ⊢
  · obtain ⟨⟨ext, _⟩, hext, h⟩ := Option.bind_eq_some_iff.1 h
    obtain ⟨⟨filename, _⟩, hln, h⟩ := Option.bind_eq_some_iff.1 h
    obtain ⟨_, hsk, rfl⟩ := Option.map_eq_some_iff.1 h
    simp only [readNumber_extend more hext, getline_extend more hln, Option.bind_some]
    unfold skip at hsk ⊢
    grind
  · obtain ⟨_, hext, rfl⟩ := Option.map_eq_some_iff.1 h
    rw [readNumber_extend more hext]
    rfl
  · cases h
    rfl

end

/-- **A file that ends inside a record is read up to that record**, since no proper beginning of a
record is read. -/
theorem parseCodeMap_torn {records : List Record} (hpla : ∀ r ∈ records, r.Plain) (hr : r.Plain)
    {p q : List Byte} (hpq : r.encode = p ++ q) (hq : q ≠ []) :
    parseCodeMap (records.flatMap Record.encode ++ p) = records.foldl Parsed.add fun _ => none := by
  refine parseFrom_encode ?_ records _ _ hpla le_rfl
  obtain ⟨f, hf, -⟩ := readRecord_encode hr []
  rw [append_nil, hpq] at hf
  cases hp : readRecord p with
  | none => rfl
  | some x =>
    rw [readRecord_extend q hp, Option.some.injEq, Prod.mk.injEq, append_eq_nil_iff] at hf
    exact absurd hf.2.2 hq

theorem parseCodeMap_torn_block :
    parseCodeMap ([.executable 1].flatMap Record.encode ++ (Record.block 1 2).encode.take 9) =
      [Record.executable 1].foldl Parsed.add fun _ => none :=
  parseCodeMap_torn (by decide) (r := .block 1 2) (by decide) (take_append_drop 9 _).symm
    (by decide)

/-! ### What the parser makes of the records -/

variable {ret : Parsed}

/-- The file of a record. -/
def Record.id : Record → FileId
  | .library file => file.fileId
  | .executable id => id
  | .block id _ => id

/-- A library or the main executable: blocks of the file are read from here on. -/
def Record.Introduces (id : FileId) : Record → Prop
  | .library file => file.fileId = id
  | .executable id' => id' = id
  | .block _ _ => False

/-- The parsed files are those of the records. -/
structure Exact (records : List Record) (ret : Parsed) : Prop where
  known : ∀ id, ret id ≠ none ↔ ∃ r ∈ records, r.id = id
  filename : ∀ id c, ret id = some c →
    (∃ file, .library file ∈ records ∧ file.fileId = id ∧ file.filename = c.filename) ∨
      (c.filename = [] ∧ ∀ file, .library file ∈ records → file.fileId ≠ id)
  executable : ∀ id c, ret id = some c → (c.isExecutable = true ↔ .executable id ∈ records)
  blocks : ∀ id c, ret id = some c → ∀ offset, offset ∈ c.blocks ↔ .block id offset ∈ records

/-- Every block comes after a record that introduces its file. -/
def Announced (records : List Record) : Prop :=
  ∀ before id offset after, records = before ++ .block id offset :: after →
    ∃ r ∈ before, r.Introduces id

theorem Announced.of_append {as bs : List Record} (h : Announced (as ++ bs)) : Announced as :=
  fun before id offset after heq =>
    h before id offset (after ++ bs) (by rw [heq, append_assoc, cons_append])

theorem Record.Introduces.id_eq {id : FileId} (h : r.Introduces id) : r.id = id := by
  cases r with
  | library file => exact h
  | executable id' => exact h
  | block id' offset => exact h.elim

theorem Exact.nil : Exact [] fun _ => none :=
  ⟨fun _ => ⟨fun h => absurd rfl h, nofun⟩, nofun, nofun, nofun⟩

/-- The contents of a file that is met for the first time. -/
theorem Exact.getD {records : List Record} (h : Exact records ret) (id : FileId) :
    ∃ c, (ret id).getD .empty = c ∧
      ((∃ file, .library file ∈ records ∧ file.fileId = id ∧ file.filename = c.filename) ∨
        (c.filename = [] ∧ ∀ file, .library file ∈ records → file.fileId ≠ id)) ∧
      (c.isExecutable = true ↔ .executable id ∈ records) ∧
      ∀ offset, offset ∈ c.blocks ↔ .block id offset ∈ records := by
  cases hc : ret id with
  | some c => exact ⟨c, rfl, h.filename id c hc, h.executable id c hc, h.blocks id c hc⟩
  | none =>
    have hno : ∀ r ∈ records, r.id ≠ id := fun r hr heq =>
      absurd hc ((h.known id).2 ⟨r, hr, heq⟩)
    refine ⟨.empty, rfl, .inr ⟨rfl, fun file hfl => hno _ hfl⟩, ?_, fun offset => ?_⟩
    · exact iff_of_false nofun fun hmem => hno _ hmem rfl
    · exact iff_of_false (Finset.notMem_empty _) fun hmem => hno _ hmem rfl

/-- The files other than that of the new record are as before. -/
theorem Exact.frame {records : List Record} (h : Exact records ret) {id : FileId} {c : Contents}
    (hne : r.id ≠ id) (hc : ret id = some c) :
    ((∃ file, .library file ∈ records ++ [r] ∧ file.fileId = id ∧ file.filename = c.filename) ∨
        (c.filename = [] ∧ ∀ file, .library file ∈ records ++ [r] → file.fileId ≠ id)) ∧
      (c.isExecutable = true ↔ .executable id ∈ records ++ [r]) ∧
      ∀ offset, offset ∈ c.blocks ↔ .block id offset ∈ records ++ [r] := by
  have hold : ∀ r' : Record, r'.id = id → (r' ∈ records ++ [r] ↔ r' ∈ records) := by
    intro r' hid
    rw [mem_append, mem_singleton]
    exact or_iff_left fun heq => hne (heq ▸ hid)
  refine ⟨(h.filename id c hc).imp ?_ ?_, ?_, fun offset => ?_⟩
  · rintro ⟨file, hmem, hid, hnm⟩
    exact ⟨file, mem_append_left _ hmem, hid, hnm⟩
  · rintro ⟨hnm, hno⟩
    exact ⟨hnm, fun file hmem hid => hno file ((hold (.library file) hid).1 hmem) hid⟩
  · rw [h.executable id c hc]
    exact (hold (.executable id) rfl).symm
  · rw [h.blocks id c hc]
    exact (hold (.block id offset) rfl).symm

/-- A new record changes the contents of its file, and what it says is added to them. -/
theorem Exact.add_eq {records : List Record} (h : Exact records ret)
    (hin : ∀ id offset, r = .block id offset → ∃ r' ∈ records, r'.Introduces id) :
    ∃ c, ret.add r = Function.update ret r.id (some c) ∧
      ((∃ file, .library file ∈ records ++ [r] ∧ file.fileId = r.id ∧ file.filename = c.filename) ∨
        (c.filename = [] ∧ ∀ file, .library file ∈ records ++ [r] → file.fileId ≠ r.id)) ∧
      (c.isExecutable = true ↔ .executable r.id ∈ records ++ [r]) ∧
      ∀ offset, offset ∈ c.blocks ↔ .block r.id offset ∈ records ++ [r] := by
  obtain ⟨c, hc, hnm, hex, hblo⟩ := h.getD r.id
  have hnew : ∀ r', r' ∈ records ++ [r] ↔ r' ∈ records ∨ r' = r := fun r' => by
    rw [mem_append, mem_singleton]
  simp only [hnew]
  cases r with
  | library file =>
    refine ⟨{ c with filename := file.filename }, by rw [← hc]; rfl,
      .inl ⟨file, .inr rfl, rfl, rfl⟩,
      ?_, fun offset => ?_⟩
    · exact hex.trans ⟨.inl, fun hor => hor.resolve_right nofun⟩
    · exact (hblo offset).trans ⟨.inl, fun hor => hor.resolve_right nofun⟩
  | executable id =>
    refine ⟨{ c with isExecutable := true }, by rw [← hc]; rfl, hnm.imp ?_ ?_, ?_, fun offset => ?_⟩
    · rintro ⟨file, hmem, hid⟩
      exact ⟨file, .inl hmem, hid⟩
    · rintro ⟨hemp, hno⟩
      exact ⟨hemp, fun file hmem => hno file (hmem.resolve_right nofun)⟩
    · exact iff_of_true rfl (.inr rfl)
    · exact (hblo offset).trans ⟨.inl, fun hor => hor.resolve_right nofun⟩
  | block id offset =>
    obtain ⟨r', hmem, hr'⟩ := hin id offset rfl
    have hsm : ret id = some c := by
      obtain ⟨c', hc'⟩ := Option.ne_none_iff_exists'.1 ((h.known id).2 ⟨r', hmem, hr'.id_eq⟩)
      rw [← hc, Record.id, hc']
      rfl
    refine ⟨{ c with blocks := insert offset c.blocks }, ?_, hnm.imp ?_ ?_, ?_, fun offset' => ?_⟩
    · simp [Parsed.add, hsm, Record.id]
    · rintro ⟨file, hfl, hid⟩
      exact ⟨file, .inl hfl, hid⟩
    · rintro ⟨hemp, hno⟩
      exact ⟨hemp, fun file hfl => hno file (hfl.resolve_right nofun)⟩
    · exact hex.trans ⟨.inl, fun hor => hor.resolve_right nofun⟩
    · rw [Finset.mem_insert, hblo offset', or_comm]
      refine or_congr Iff.rfl ⟨fun heq => by rw [heq]; rfl, fun heq => ?_⟩
      cases heq
      rfl

theorem Exact.add {records : List Record} (h : Exact records ret)
    (hin : ∀ id offset, r = .block id offset → ∃ r' ∈ records, r'.Introduces id) :
    Exact (records ++ [r]) (ret.add r) := by
  obtain ⟨c, hadd, hnm, hex, hblo⟩ := h.add_eq hin
  have hcas : ∀ id c', (ret.add r) id = some c' → (id = r.id ∧ c' = c) ∨
      (r.id ≠ id ∧ ret id = some c') := by
    intro id c' hc'
    rw [hadd] at hc'
    by_cases hid : id = r.id
    · rw [hid, update_self, Option.some.injEq] at hc'
      exact .inl ⟨hid, hc'.symm⟩
    · rw [update_of_ne hid] at hc'
      exact .inr ⟨Ne.symm hid, hc'⟩
  refine ⟨fun id => ?_, fun id c' hc' => ?_, fun id c' hc' => ?_, fun id c' hc' => ?_⟩
  · rw [hadd]
    by_cases hid : id = r.id
    · rw [hid, update_self]
      exact iff_of_true nofun ⟨r, mem_append_right _ mem_cons_self, rfl⟩
    · rw [update_of_ne hid, h.known]
      constructor
      · rintro ⟨r', hmem, hr'⟩
        exact ⟨r', mem_append_left _ hmem, hr'⟩
      · rintro ⟨r', hmem, hr'⟩
        rcases mem_append.1 hmem with hmem | hmem
        · exact ⟨r', hmem, hr'⟩
        · rw [mem_singleton.1 hmem] at hr'
          exact absurd hr'.symm hid
  · rcases hcas id c' hc' with ⟨rfl, rfl⟩ | ⟨hne, hc'⟩
    · exact hnm
    · exact (h.frame hne hc').1
  · rcases hcas id c' hc' with ⟨rfl, rfl⟩ | ⟨hne, hc'⟩
    · exact hex
    · exact (h.frame hne hc').2.1
  · rcases hcas id c' hc' with ⟨rfl, rfl⟩ | ⟨hne, hc'⟩
    · exact hblo
    · exact (h.frame hne hc').2.2

/-- **What the parser makes of records that are announced**, by induction on the records from the
first to the last. -/
theorem exact_of_announced {records : List Record} (h : Announced records) :
    Exact records (records.foldl Parsed.add fun _ => none) := by
  induction records using List.reverseRecOn with
  | nil => exact .nil
  | append_singleton records r ih =>
    rw [foldl_append]
    refine (ih h.of_append).add fun id offset hr => ?_
    exact h records id offset [] (by rw [hr])

end FastPPC.CodeMap
