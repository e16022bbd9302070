import FastPPC.Vma.Tracking

/-!
# The granule table

A guest page is 4096 bytes.  On a host with larger pages one host page, a *granule*, holds several
guest pages and has one protection.  `GranuleTable` records for each guest page of a granule that
was taken apart whether it is live and which protection the guest intended, four bits a page
(`GranuleTable.h`, `GranuleTable.cpp`).

A map from granules to entries is a function here; `FindMutable` and `Find` are applications of it.

* `setIntended` : the loop that marks the pages of a range live;
* `nibble` : the four bits of a page.

What the kernel has of a granule and the file of a shared one are left out.
-/

namespace FastPPC.Granule

open Vma (VMAProt)

def guestPageSize : ℕ := 4096

/-- A host page that is larger than a guest page (`Active`) and that the table can represent
(`HostPageRepresentable`). -/
structure HostPage where
  /-- `PagesPerGranule`. -/
  pages : ℕ
  active : 1 < pages
  representable : pages ≤ 16

namespace HostPage

variable (h : HostPage)

def size : ℕ := h.pages * guestPageSize

def granuleOf (addr : ℕ) : ℕ := addr / h.size * h.size

def indexOf (addr : ℕ) : ℕ := (addr - h.granuleOf addr) / guestPageSize

end HostPage

/-! ### Nibbles -/

/-- Four bits a page: live, readable, writable, executable. -/
abbrev Nibble := BitVec 4

/-- `PageLive`. -/
def Nibble.live (n : Nibble) : Bool := n.getLsbD 0

def nibbleFromProt (prot : VMAProt) : Nibble :=
  BitVec.ofBool prot.executable ++ BitVec.ofBool prot.writable ++ BitVec.ofBool prot.readable ++ 1#1

def protFromNibble (n : Nibble) : VMAProt := ⟨n.getLsbD 1, n.getLsbD 2, n.getLsbD 3⟩

/-- What the table keeps of one granule. -/
structure GranuleEntry where
  /-- Page `i` at the bits `[4 * i, 4 * i + 4)`. -/
  nibbles : BitVec 64

namespace GranuleEntry

/-- A default-constructed entry. -/
def empty : GranuleEntry := ⟨0⟩

def nibbleAt (e : GranuleEntry) (index : ℕ) : Nibble := (e.nibbles >>> (index * 4)).setWidth 4

def setNibbleAt (e : GranuleEntry) (index : ℕ) (n : Nibble) : GranuleEntry :=
  ⟨(e.nibbles &&& ~~~(0xF#64 <<< (index * 4))) ||| (n.setWidth 64 <<< (index * 4))⟩

end GranuleEntry

/-! ### The table -/

/-- The addresses that a loop over the guest pages of a range visits. -/
def guestPages (base length : ℕ) : List ℕ :=
  (List.range ((length + guestPageSize - 1) / guestPageSize)).map fun i => base + i * guestPageSize

/-- The entries of the granules. -/
abbrev GranuleTable := ℕ → Option GranuleEntry

namespace GranuleTable

variable (h : HostPage) (t : GranuleTable)

/-- Write the entry that `FindOrCreate` returns. -/
def modify (granule : ℕ) (f : GranuleEntry → GranuleEntry) : GranuleTable :=
  Function.update t granule (some (f ((t granule).getD .empty)))

/-- Mark a page live with this protection. -/
def setPage (prot : VMAProt) (page : ℕ) : GranuleTable :=
  t.modify (h.granuleOf page) fun e => e.setNibbleAt (h.indexOf page) (nibbleFromProt prot)

def setIntended (base length : ℕ) (prot : VMAProt) : GranuleTable :=
  (guestPages base length).foldl (fun t page => setPage h t prot page) t

/-- The nibble of a page, if its granule has an entry. -/
def nibble (page : ℕ) : Option Nibble :=
  (t (h.granuleOf page)).map fun e => e.nibbleAt (h.indexOf page)

end GranuleTable

end FastPPC.Granule
