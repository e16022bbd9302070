import FastPPC.Lists.Chain
import FastPPC.Lookup.Map

/-!
# The pool of inbound block links

Every branch that was patched to jump into a block is registered under the guest address of the
block, so that it can be restored when the block goes.  `GuestToHostMap` keeps the registrations
as chains of nodes in one vector: `BlockLinks` maps a destination to the head of its chain, and
the nodes of a severed chain go to a free list, from where `AddBlockLink` takes them again.

The specification is a map from destinations to the registered links, `LinkMap`.  The state of
the pool represents it by chains that share no node (`Threaded`):

* `LinkedMap.step_refines` : an operation returns, and does to the chains what it does to the map;
* `block_links_refine` : **the pool refines the map of links** along every sequence of operations.

An operation of the model fails where the source would read outside the vector or follow the links
of a chain for ever; that it returns is part of the results.
-/

namespace FastPPC.Lookup

open FastPPC.Lists Function List

/-- A registered link.  `BlockLinkInvalid` as the next index is `none`. -/
structure BlockLinkNode (D : Type) where
  hostLink : ℕ
  delinker : D
  next : Option ℕ

/-- The three members that hold the links. -/
structure BlockLinks (D : Type) where
  pool : List (BlockLinkNode D)
  freeHead : Option ℕ
  /-- `BlockLinks` : the head of the chain of a destination. -/
  heads : ℕ → Option (Option ℕ)

namespace BlockLinks

variable {D : Type}

def empty : BlockLinks D := ⟨[], none, fun _ => none⟩

/-- The loop of `AddBlockLink` that looks for a link. -/
def hasLink (s : BlockLinks D) (hostLink : ℕ) : ℕ → Option ℕ → Option Bool
  | _, none => some false
  | 0, some _ => none
  | fuel + 1, some index => do
    let node ← s.pool[index]?
    if node.hostLink = hostLink then some true else s.hasLink hostLink fuel node.next

/-- A node is taken from the free list, or the vector grows. -/
def allocate (s : BlockLinks D) (dest hostLink : ℕ) (delinker : D) (head : Option ℕ) :
    Option (BlockLinks D) :=
  match s.freeHead with
  | some index => do
    let node ← s.pool[index]?
    some {
      pool := s.pool.set index ⟨hostLink, delinker, head⟩
      freeHead := node.next
      heads := update s.heads dest (some (some index)) }
  | none =>
    some { s with
      pool := s.pool ++ [⟨hostLink, delinker, head⟩]
      heads := update s.heads dest (some (some s.pool.length)) }

def addBlockLink (s : BlockLinks D) (dest hostLink : ℕ) (delinker : D) : Option (BlockLinks D) :=
  match s.heads dest with
  | none => s.allocate dest hostLink delinker none
  | some head => do
    if ← s.hasLink hostLink s.pool.length head then some s
    else s.allocate dest hostLink delinker head

/-- The loop of `SeverLinks`: the calls of the delinkers, and the last node. -/
def delink (s : BlockLinks D) : ℕ → Option ℕ → Option ℕ → Option (List (D × ℕ) × Option ℕ)
  | _, none, tail => some ([], tail)
  | 0, some _, _ => none
  | fuel + 1, some index, _ => do
    let node ← s.pool[index]?
    let (calls, tail) ← s.delink fuel node.next (some index)
    some ((node.delinker, node.hostLink) :: calls, tail)

/-- `SeverLinks`, with the calls of the delinkers it makes. -/
def severLinks (s : BlockLinks D) (address : ℕ) : Option (BlockLinks D × List (D × ℕ)) :=
  match s.heads address with
  | none => some (s, [])
  | some head => do
    let (calls, tail) ← s.delink s.pool.length head none
    let spliced : BlockLinks D := match tail with
      | none => s
      | some tail => { s with
          pool := s.pool.modify tail fun node => { node with next := s.freeHead }
          freeHead := head }
    some ({ spliced with heads := update s.heads address none }, calls)

end BlockLinks

/-- The map with its links, and the calls of delinkers made so far. -/
structure LinkedMap (D : Type) where
  map : GuestToHostMap
  links : BlockLinks D
  delinked : List (D × ℕ)

/-- The operations that concern the links.  The two range invalidations are loops over `erase`
and `softEraseBlock`. -/
inductive LinkOp (D : Type)
  | addBlockLink (dest hostLink : ℕ) (delinker : D)
  | addBlockMapping (address : ℕ) (entry : BlockEntry)
  | erase (address : ℕ)
  | softEraseBlock (address : ℕ)
  | clearCache

namespace LinkedMap

variable {D : Type}

def empty (g : CodeGranuleBitmap) : LinkedMap D := ⟨.empty g, .empty, []⟩

def sever (s : LinkedMap D) (address : ℕ) : Option (LinkedMap D) := do
  let (links, calls) ← s.links.severLinks address
  some { s with links := links, delinked := s.delinked ++ calls }

def step (s : LinkedMap D) : LinkOp D → Option (LinkedMap D)
  | .addBlockLink dest hostLink delinker => do
    let links ← s.links.addBlockLink dest hostLink delinker
    some { s with links := links }
  | .addBlockMapping address entry => some { s with map := s.map.addBlockMapping address entry }
  | .erase address => do
    let s ← s.sever address
    some { s with map := s.map.erase address }
  | .softEraseBlock address =>
    match s.map.blockList address with
    | none => some s
    | some _ => do
      let s ← s.sever address
      some { s with map := s.map.softEraseBlock address }
  | .clearCache => some { s with map := s.map.clearCache, links := .empty }

end LinkedMap

/-! ### The specification -/

/-- A map from destinations to the registered links, each with its delinker; the newest comes
first. -/
structure LinkMap (D : Type) where
  map : GuestToHostMap
  links : ℕ → List (ℕ × D)
  delinked : List (D × ℕ)

namespace LinkMap

variable {D : Type}

def empty (g : CodeGranuleBitmap) : LinkMap D := ⟨.empty g, fun _ => [], []⟩

/-- The host sites registered for a destination. -/
def sites (t : LinkMap D) (dest : ℕ) : List ℕ := (t.links dest).map Prod.fst

/-- A link that is present stays as it is. -/
def add (t : LinkMap D) (dest hostLink : ℕ) (delinker : D) : LinkMap D :=
  if hostLink ∈ t.sites dest then t
  else { t with links := update t.links dest ((hostLink, delinker) :: t.links dest) }

/-- The delinker of every link of the destination is called. -/
def sever (t : LinkMap D) (address : ℕ) : LinkMap D :=
  { t with
    links := update t.links address []
    delinked := t.delinked ++ (t.links address).map Prod.swap }

def step (t : LinkMap D) : LinkOp D → LinkMap D
  | .addBlockLink dest hostLink delinker => t.add dest hostLink delinker
  | .addBlockMapping address entry => { t with map := t.map.addBlockMapping address entry }
  | .erase address => { t.sever address with map := t.map.erase address }
  | .softEraseBlock address =>
    if (t.map.blockList address).isSome then
      { t.sever address with map := t.map.softEraseBlock address }
    else t
  | .clearCache => { t with map := t.map.clearCache, links := fun _ => [] }

end LinkMap

/-! ### How the pool represents the map -/

namespace BlockLinks

variable {D : Type} {s s' : BlockLinks D}

/-- The link of a node and the index of the next one. -/
def cell (s : BlockLinks D) (i : ℕ) : Option ((ℕ × D) × Option ℕ) :=
  s.pool[i]?.map fun node => ((node.hostLink, node.delinker), node.next)

/-- Every node has one owner: the destination on whose chain it is, or none if it is free.  The
chains and the free list follow the links of the nodes, visit each of their nodes once, and end. -/
structure Threaded (s : BlockLinks D) (owner : ℕ → Option ℕ) (chain : ℕ → List (ℕ × ℕ × D))
    (free : List (ℕ × ℕ × D)) : Prop where
  chains : ∀ d, Chain s.cell ((s.heads d).getD none) (chain d)
  present : ∀ d, (s.heads d).isSome ↔ chain d ≠ []
  freeChain : Chain s.cell s.freeHead free
  nodup : ∀ d, (indices (chain d)).Nodup
  nodup_free : (indices free).Nodup
  mem_chain : ∀ d i, i ∈ indices (chain d) ↔ i < s.pool.length ∧ owner i = some d
  mem_free : ∀ i, i ∈ indices free ↔ i < s.pool.length ∧ owner i = none

theorem Threaded.empty : Threaded (.empty : BlockLinks D) (fun _ => none) (fun _ => []) [] where
  chains _ := Chain.nil
  present _ := by simp [BlockLinks.empty]
  freeChain := Chain.nil
  nodup _ := nodup_nil
  nodup_free := nodup_nil
  mem_chain _ _ := by simp
  mem_free _ := by simp [BlockLinks.empty]

theorem getElem?_of_cell {i : ℕ} {a : ℕ × D} {next : Option ℕ} (h : s.cell i = some (a, next)) :
    s.pool[i]? = some ⟨a.1, a.2, next⟩ := by
  obtain ⟨node, hnd, heq⟩ := Option.map_eq_some_iff.1 h
  obtain ⟨rfl, rfl⟩ := Prod.mk.inj heq
  exact hnd

theorem cell_eq_none {i : ℕ} (h : s.pool.length ≤ i) : s.cell i = none := by
  rw [cell, getElem?_eq_none h]
  rfl

/-! ### The loops -/

theorem hasLink_eq (hostLink : ℕ) {fuel : ℕ} {head : Option ℕ} {l : List (ℕ × ℕ × D)}
    (h : Chain s.cell head l) (hf : l.length ≤ fuel) :
    s.hasLink hostLink fuel head = some (decide (hostLink ∈ l.map (·.2.1))) := by
  induction l generalizing fuel head with
  | nil =>
    obtain rfl : head = none := h
    cases fuel <;> rfl
  | cons x l ih =>
    obtain ⟨rfl, next, hx, hl⟩ := h
    obtain ⟨fuel, rfl⟩ : ∃ n, fuel = n + 1 := ⟨fuel - 1, by rw [length_cons] at hf; omega⟩
    have hrs := ih hl (Nat.le_of_succ_le_succ hf)
    rw [hasLink, getElem?_of_cell hx]
    simp only [Option.bind_eq_bind, Option.bind_some, hrs]
    by_cases heq : x.2.1 = hostLink
    · simp [heq]
    · simp [heq, Ne.symm heq]

theorem delink_eq {fuel : ℕ} {head : Option ℕ} {l : List (ℕ × ℕ × D)} (tail : Option ℕ)
    (h : Chain s.cell head l) (hf : l.length ≤ fuel) :
    s.delink fuel head tail =
      some (l.map fun x => x.2.swap, (l.getLast?.map Prod.fst).or tail) := by
  induction l generalizing fuel head tail with
  | nil =>
    obtain rfl : head = none := h
    cases fuel <;> rfl
  | cons x l ih =>
    obtain ⟨rfl, next, hx, hl⟩ := h
    obtain ⟨fuel, rfl⟩ : ∃ n, fuel = n + 1 := ⟨fuel - 1, by rw [length_cons] at hf; omega⟩
    have hrs := ih (some x.1) hl (Nat.le_of_succ_le_succ hf)
    rw [delink, getElem?_of_cell hx]
    simp only [Option.bind_eq_bind, Option.bind_some, hrs]
    cases l using reverseRecOn with
    | nil => rfl
    | append_singleton l y => simp [Prod.swap, getLast?_cons]

theorem cell_modify {t : ℕ} {a : ℕ × D} {next next' : Option ℕ} (ht : s.cell t = some (a, next))
    (i : ℕ) :
    ((s.pool.modify t fun node => { node with next := next' })[i]?.map fun node =>
      ((node.hostLink, node.delinker), node.next)) =
      update s.cell t (some (a, next')) i := by
  rw [getElem?_modify]
  by_cases hi : i = t
  · subst hi
    simp [getElem?_of_cell ht]
  · simp [cell, hi, Ne.symm hi]

namespace Threaded

variable {owner : ℕ → Option ℕ} {chain : ℕ → List (ℕ × ℕ × D)} {free : List (ℕ × ℕ × D)}
  (h : s.Threaded owner chain free)
include h

theorem length_le (d : ℕ) : (chain d).length ≤ s.pool.length :=
  length_le_of_nodup (h.nodup d) fun i hi => ((h.mem_chain d i).1 hi).1

/-! ### Adding a link -/

/-- A node that was on no chain goes to the front of one. -/
theorem link {i dest : ℕ} {a : ℕ × D} {free' : List (ℕ × ℕ × D)}
    (hcl : s'.cell = update s.cell i (some (a, (s.heads dest).getD none)))
    (hhea : s'.heads = update s.heads dest (some (some i)))
    (hlen : ∀ j, j < s'.pool.length ↔ j < s.pool.length ∨ j = i)
    (hfre : ∀ d, i ∉ indices (chain d)) (hfr : Chain s.cell s'.freeHead free')
    (hnd : (indices free').Nodup) (hmem : ∀ j, j ∈ indices free' ↔ j ∈ indices free ∧ j ≠ i) :
    s'.Threaded (update owner i (some dest)) (update chain dest ((i, a) :: chain dest)) free' := by
  have hoth : ∀ {head l}, Chain s.cell head l → i ∉ indices l → Chain s'.cell head l := by
    intro head l hl hi
    refine hl.congr fun j hj => ?_
    rw [hcl, update_of_ne (ne_of_mem_of_not_mem hj hi)]
  refine ⟨fun d => ?_, fun d => ?_, ?_, fun d => ?_, hnd, fun d j => ?_, fun j => ?_⟩
  · rw [hhea]
    by_cases hd : d = dest
    · subst hd
      rw [update_self, update_self]
      exact .cons (by rw [hcl, update_self]) (hoth (h.chains d) (hfre d))
    · rw [update_of_ne hd, update_of_ne hd]
      exact hoth (h.chains d) (hfre d)
  · rw [hhea]
    by_cases hd : d = dest
    · simp [hd]
    · simpa [hd] using h.present d
  · exact hoth hfr fun hi => ((hmem i).1 hi).2 rfl
  · by_cases hd : d = dest
    · subst hd
      rw [update_self]
      exact nodup_cons.2 ⟨hfre d, h.nodup d⟩
    · rw [update_of_ne hd]
      exact h.nodup d
  · rw [hlen]
    by_cases hd : d = dest
    · subst hd
      by_cases hj : j = i
      · simp [hj]
      · simp [hj, h.mem_chain]
    · rw [update_of_ne hd]
      by_cases hj : j = i
      · subst hj
        simpa [Ne.symm hd] using hfre d
      · simp [hj, h.mem_chain]
  · rw [hmem, hlen, h.mem_free]
    by_cases hj : j = i <;> simp [hj]

/-- **`AddBlockLink` of a new link** puts a node in front of the chain. -/
theorem allocate (dest hostLink : ℕ) (delinker : D) :
    ∃ s' owner' free' i, s.allocate dest hostLink delinker ((s.heads dest).getD none) = some s' ∧
      s'.Threaded owner' (update chain dest ((i, hostLink, delinker) :: chain dest)) free' := by
  unfold BlockLinks.allocate
  rcases hhd : s.freeHead with _ | i
  · -- the free list is empty: the new node is the last one
    have hnil : free = [] := (h.freeChain.head_eq_none_iff).1 hhd
    refine ⟨_, _, [], s.pool.length, rfl, h.link (i := s.pool.length) ?_ rfl ?_ ?_ ?_ nodup_nil ?_⟩
    · funext j
      by_cases hj : j = s.pool.length
      · simp [cell, hj]
      · rw [update_of_ne hj]
        rcases Nat.lt_or_ge j s.pool.length with hlt | hge
        · simp [cell, getElem?_append_left hlt]
        · rw [cell_eq_none hge, cell_eq_none]
          simp only [length_append, length_singleton]
          omega
    · intro j
      simp only [length_append, length_singleton]
      omega
    · exact fun d hd => Nat.lt_irrefl _ ((h.mem_chain d _).1 hd).1
    · exact Chain.nil
    · simp [hnil]
  · obtain ⟨a, free', hfr⟩ : ∃ a free', free = (i, a) :: free' := by
      rcases free with _ | ⟨⟨j, a⟩, free'⟩
      · cases hhd.symm.trans h.freeChain
      · obtain ⟨hj, -⟩ := h.freeChain
        obtain rfl := Option.some.inj (hhd.symm.trans hj)
        exact ⟨a, free', rfl⟩
    subst hfr
    obtain ⟨-, next, hi, hrs⟩ := h.freeChain
    obtain ⟨hlt, hown⟩ := (h.mem_free i).1 mem_cons_self
    obtain ⟨hni, hnd⟩ := nodup_cons.1 h.nodup_free
    dsimp only
    rw [getElem?_of_cell hi]
    refine ⟨_, _, _, i, rfl, h.link (i := i) ?_ rfl ?_ ?_ hrs hnd ?_⟩
    · funext j
      by_cases hj : j = i
      · subst hj
        simp [cell, hlt]
      · simp [cell, hj, getElem?_set_ne (Ne.symm hj)]
    · intro j
      simp only [length_set]
      exact ⟨.inl, fun hj => hj.elim id fun hj => hj ▸ hlt⟩
    · intro d hd
      cases hown.symm.trans ((h.mem_chain d i).1 hd).2
    · intro j
      rw [indices_cons, mem_cons]
      refine ⟨fun hj => ⟨.inr hj, ne_of_mem_of_not_mem hj hni⟩, fun hj => ?_⟩
      exact hj.1.resolve_left hj.2

/-! ### Severing a destination -/

/-- The chain of a destination becomes the front of the free list. -/
theorem giveBack {address t : ℕ} {head : Option ℕ}
    {l : List (ℕ × ℕ × D)} {a : ℕ × D} (hhd : s.heads address = some head)
    (hl : chain address = l ++ [(t, a)]) :
    Threaded ⟨s.pool.modify t fun node => { node with next := s.freeHead }, head,
        update s.heads address none⟩
      (fun i => if owner i = some address then none else owner i)
      (update chain address []) (chain address ++ free) := by
  have hcha := h.chains address
  rw [hhd, Option.getD_some, hl] at hcha
  obtain ⟨next, ht⟩ := hcha.last
  have hnod := h.nodup address
  rw [hl, indices_append, nodup_append] at hnod
  have htl : t ∉ indices l := fun ht => hnod.2.2 t ht t (by simp) rfl
  have hown : owner t = some address := ((h.mem_chain address t).1 (by simp [hl])).2
  have htf : t ∉ indices free := fun ht => by
    cases hown.symm.trans ((h.mem_free t).1 ht).2
  refine ⟨fun d => ?_, fun d => ?_, ?_, fun d => ?_, ?_, fun d i => ?_, fun i => ?_⟩
  · dsimp only
    by_cases hd : d = address
    · subst hd
      rw [update_self, update_self]
      exact Chain.nil
    · rw [update_of_ne hd, update_of_ne hd]
      refine (h.chains d).congr fun i hi => ?_
      refine (cell_modify ht i).trans (update_of_ne ?_ _ _)
      rintro rfl
      exact hd (Option.some.inj (((h.mem_chain d i).1 hi).2.symm.trans hown))
  · by_cases hd : d = address
    · simp [hd]
    · simpa [hd] using h.present d
  · -- the last node is linked to the old free list
    have hspl := Chain.splice hcha h.freeChain htl htf
    rw [hl, append_assoc]
    exact hspl.congr fun i _ => cell_modify ht i
  · by_cases hd : d = address
    · simp [hd]
    · rw [update_of_ne hd]
      exact h.nodup d
  · rw [indices_append, nodup_append]
    refine ⟨h.nodup address, h.nodup_free, ?_⟩
    rintro i hi j hj rfl
    cases ((h.mem_chain address i).1 hi).2.symm.trans ((h.mem_free i).1 hj).2
  · simp only [length_modify]
    by_cases hd : d = address
    · subst hd
      rw [update_self]
      split <;> simp_all
    · rw [update_of_ne hd, h.mem_chain]
      split
      · rename_i hi
        simp [hi, Ne.symm hd]
      · rfl
  · simp only [length_modify]
    rw [indices_append, mem_append, h.mem_chain, h.mem_free, ← and_or_left]
    split <;> rename_i hi <;> simp [hi]

/-- **`SeverLinks`** calls the delinkers of the chain and gives its nodes to the free list. -/
theorem severLinks (address : ℕ) :
    ∃ s' owner' free', s.severLinks address = some (s', (chain address).map fun x => x.2.swap) ∧
      s'.Threaded owner' (update chain address []) free' := by
  unfold BlockLinks.severLinks
  rcases hhd : s.heads address with _ | head
  · have hnil : chain address = [] := by simpa [hhd] using h.present address
    refine ⟨s, owner, free, by simp [hnil], ?_⟩
    rw [← hnil, update_eq_self]
    exact h
  · have hcha := h.chains address
    rw [hhd, Option.getD_some] at hcha
    obtain ⟨l, ⟨t, a⟩, hl⟩ : ∃ l x, chain address = l ++ [x] := by
      have hne : chain address ≠ [] := (h.present address).1 (by simp [hhd])
      exact ⟨_, _, (dropLast_append_getLast hne).symm⟩
    have htl : (chain address).getLast?.map Prod.fst = some t := by simp [hl]
    dsimp only
    rw [delink_eq none hcha (h.length_le address), htl]
    exact ⟨_, _, _, rfl, h.giveBack hhd hl⟩

end Threaded

end BlockLinks

/-! ### Refinement -/

/-- The pool represents the map of links. -/
structure Refines {D : Type} (s : LinkedMap D) (t : LinkMap D) : Prop where
  map : s.map = t.map
  delinked : s.delinked = t.delinked
  links : ∃ owner chain free, s.links.Threaded owner chain free ∧
    ∀ d, (chain d).map Prod.snd = t.links d

namespace LinkedMap

variable {D : Type} {s : LinkedMap D} {t : LinkMap D}

/-- The scan of a chain finds the registered sites. -/
theorem hasLink_iff {owner : ℕ → Option ℕ} {chain : ℕ → List (ℕ × ℕ × D)}
    {free : List (ℕ × ℕ × D)} (h : s.links.Threaded owner chain free) {dest : ℕ}
    (hlin : (chain dest).map Prod.snd = t.links dest) {head : Option ℕ}
    (hhd : s.links.heads dest = some head) (hostLink : ℕ) :
    s.links.hasLink hostLink s.links.pool.length head =
      some (decide (hostLink ∈ t.sites dest)) := by
  have hcha := h.chains dest
  rw [hhd, Option.getD_some] at hcha
  rw [BlockLinks.hasLink_eq hostLink hcha (h.length_le dest), LinkMap.sites, ← hlin, map_map]
  rfl

def run (s : LinkedMap D) (ops : List (LinkOp D)) : Option (LinkedMap D) := ops.foldlM step s

section

variable (h : Refines s t)
include h

/-- A link that is present changes nothing. -/
theorem addBlockLink_present {dest hostLink : ℕ} (delinker : D) (hmem : hostLink ∈ t.sites dest) :
    s.step (.addBlockLink dest hostLink delinker) = some s := by
  obtain ⟨owner, chain, free, hth, hlin⟩ := h.links
  rcases hhd : s.links.heads dest with _ | head
  · have hnil : chain dest = [] := by simpa [hhd] using hth.present dest
    rw [LinkMap.sites, ← hlin, hnil] at hmem
    cases hmem
  · simp [step, BlockLinks.addBlockLink, hhd, hasLink_iff hth (hlin dest) hhd, hmem]

theorem addBlockLink_new {dest hostLink : ℕ} (delinker : D) (hmem : hostLink ∉ t.sites dest) :
    ∃ s', s.step (.addBlockLink dest hostLink delinker) = some s' ∧
      Refines s' (t.add dest hostLink delinker) := by
  obtain ⟨owner, chain, free, hth, hlin⟩ := h.links
  have hadd : s.links.addBlockLink dest hostLink delinker =
      s.links.allocate dest hostLink delinker ((s.links.heads dest).getD none) := by
    rw [BlockLinks.addBlockLink]
    rcases hhd : s.links.heads dest with _ | head
    · rfl
    · simp [hasLink_iff hth (hlin dest) hhd, hmem]
  obtain ⟨links, owner', free', i, heq, hth'⟩ := hth.allocate dest hostLink delinker
  refine ⟨{ s with links := links }, by simp [step, hadd, heq], ?_⟩
  rw [LinkMap.add, if_neg hmem]
  refine ⟨h.map, h.delinked, owner', _, free', hth', fun d => ?_⟩
  by_cases hd : d = dest
  · simp [hd, hlin]
  · simp [hd, hlin]

theorem sever_refines (address : ℕ) :
    ∃ s', s.sever address = some s' ∧ Refines s' (t.sever address) := by
  obtain ⟨owner, chain, free, hth, hlin⟩ := h.links
  obtain ⟨links, owner', free', heq, hth'⟩ := hth.severLinks address
  refine ⟨⟨s.map, links, s.delinked ++ (chain address).map fun x => x.2.swap⟩,
    by simp [sever, heq], h.map, ?_, owner', _, free', hth', fun d => ?_⟩
  · simp only [LinkMap.sever, h.delinked, ← hlin, map_map]
    rfl
  · by_cases hd : d = address
    · simp [LinkMap.sever, hd]
    · simp [LinkMap.sever, hd, hlin]

/-- **One operation** returns, and does to the chains what the specification does to the map. -/
theorem step_refines (op : LinkOp D) : ∃ s', s.step op = some s' ∧ Refines s' (t.step op) := by
  cases op with
  | addBlockLink dest hostLink delinker =>
    by_cases hmem : hostLink ∈ t.sites dest
    · refine ⟨s, addBlockLink_present h delinker hmem, ?_⟩
      rwa [LinkMap.step, LinkMap.add, if_pos hmem]
    · exact addBlockLink_new h delinker hmem
  | addBlockMapping address entry =>
    exact ⟨_, rfl, congrArg (·.addBlockMapping address entry) h.map, h.delinked, h.links⟩
  | erase address =>
    obtain ⟨s', heq, h'⟩ := sever_refines h address
    refine ⟨{ s' with map := s'.map.erase address }, by simp [step, heq], ?_, h'.delinked, h'.links⟩
    exact congrArg (·.erase address) h'.map
  | softEraseBlock address =>
    rw [step, LinkMap.step, ← h.map]
    rcases s.map.blockList address with _ | e
    · exact ⟨s, rfl, h⟩
    · obtain ⟨s', heq, h'⟩ := sever_refines h address
      refine ⟨{ s' with map := s'.map.softEraseBlock address }, by simp [heq], ?_, h'.delinked,
        h'.links⟩
      exact congrArg (·.softEraseBlock address) (h'.map.trans h.map.symm)
  | clearCache =>
    exact ⟨_, rfl, congrArg (·.clearCache) h.map, h.delinked, _, _, _, .empty, fun _ => rfl⟩

theorem run_refines (ops : List (LinkOp D)) :
    ∃ s', s.run ops = some s' ∧ Refines s' (ops.foldl LinkMap.step t) := by
  induction ops generalizing s t with
  | nil => exact ⟨s, rfl, h⟩
  | cons op ops ih =>
    obtain ⟨s₁, hs₁, h₁⟩ := step_refines h op
    obtain ⟨s', hs', h'⟩ := ih h₁
    exact ⟨s', by rw [run, foldlM_cons, hs₁]; exact hs', h'⟩

end

end LinkedMap

namespace LinkMap

variable {D : Type} {t : LinkMap D}

theorem step_sites_nodup (h : ∀ d, (t.sites d).Nodup) (op : LinkOp D) (d : ℕ) :
    ((t.step op).sites d).Nodup := by
  have hsev : ∀ a, ((t.sever a).sites d).Nodup := by
    intro a
    by_cases hd : d = a
    · simp [sever, sites, hd]
    · simpa [sever, sites, hd] using h d
  cases op with
  | addBlockLink dest hostLink delinker =>
    rw [step, add]
    split
    · exact h d
    · rename_i hmem
      by_cases hd : d = dest
      · subst hd
        simpa [sites] using And.intro (by simpa [sites] using hmem) (h d)
      · simpa [sites, hd] using h d
  | addBlockMapping address entry => exact h d
  | erase address => exact hsev address
  | softEraseBlock address =>
    rw [step]
    split
    · exact hsev address
    · exact h d
  | clearCache => exact nodup_nil

theorem run_sites_nodup (h : ∀ d, (t.sites d).Nodup) (ops : List (LinkOp D)) (d : ℕ) :
    ((ops.foldl step t).sites d).Nodup := by
  induction ops generalizing t with
  | nil => exact h d
  | cons op ops ih => exact ih (step_sites_nodup h op)

end LinkMap

/-- **The pool refines the map of links.**  Every sequence of operations returns.  Afterwards every
node is on the free list or on the chain of exactly one destination, the chains hold the links of
the specification, each site once, and the delinkers that were called are those the specification
calls; to add a link that is present changes nothing. -/
theorem block_links_refine {D : Type} (g : CodeGranuleBitmap) (ops : List (LinkOp D)) :
    ∃ s : LinkedMap D, (LinkedMap.empty g).run ops = some s ∧
      Refines s (ops.foldl LinkMap.step (.empty g)) ∧
      (∀ d, ((ops.foldl LinkMap.step (.empty g)).sites d).Nodup) ∧
      ∀ dest hostLink (delinker : D),
        hostLink ∈ (ops.foldl LinkMap.step (.empty g)).sites dest →
          s.step (.addBlockLink dest hostLink delinker) = some s := by
  have h₀ : Refines (LinkedMap.empty g : LinkedMap D) (.empty g) :=
    ⟨rfl, rfl, _, _, _, .empty, fun _ => rfl⟩
  obtain ⟨s, hrun, h⟩ := LinkedMap.run_refines h₀ ops
  have hemp : ∀ d, ((LinkMap.empty g : LinkMap D).sites d).Nodup := fun _ => nodup_nil
  refine ⟨s, hrun, h, LinkMap.run_sites_nodup hemp ops, ?_⟩
  intro dest hostLink delinker hmem
  exact LinkedMap.addBlockLink_present h delinker hmem

end FastPPC.Lookup
