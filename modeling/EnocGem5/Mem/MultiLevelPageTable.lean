import EnocGem5.Lib.RadixTree
import EnocGem5.Mem.PageTable

/-!
# MultiLevelPageTable — the architectural page table

The page table of x86 in simulated memory: four levels with 512 entries each, whose inner pages are
allocated while they are walked, see `Lib.RadixTree`. An entry holds a page number of 40 bits, and
an entry with the page number 0 is free.

The table and the lookup cache agree as long as the addresses are canonical, the physical pages that
are mapped fit into an entry, and no page is moved: `remap` takes the page number of the old entry
for an address.
-/

namespace EnocGem5.Mem

open Lib Cache List Function Option

/-! ## Entries -/

structure PageTableEntry where
  base : ℕ := 0
  pcd : Bool := false
  u : Bool := false
  w : Bool := false
  p : Bool := false
  deriving DecidableEq, Repr

namespace PageTableEntry

variable (e : PageTableEntry)

/-- `PageTableOps::setPTEFields`; the flag `PTE_Supervisor` is never set. -/
def setPTEFields (flags : MappingFlags) : PageTableEntry :=
  { e with p := !flags.notPresent, pcd := flags.uncacheable, w := !flags.readOnly, u := true }

def getPnum : ℕ := e.base

/-- `setPnum`; the field has 40 bits. -/
def setPnum (pnum : ℕ) : PageTableEntry := { e with base := pnum % 2 ^ 40 }

def isUncacheable : Bool := e.pcd

def isReadOnly : Bool := !e.w

def translation : Option Translation :=
  if e.base = 0 then none else some ⟨e.base * 2 ^ 12, e.w, e.pcd⟩

end PageTableEntry

open PageTableEntry

/-- `getOffsets`: the indices of the inner levels, from the top, and of the last level. -/
def offsets (vaddr : ℕ) : List ℕ :=
  [vaddr / 2 ^ 39 % 512, vaddr / 2 ^ 30 % 512, vaddr / 2 ^ 21 % 512]

def lastOffset (vaddr : ℕ) : ℕ := vaddr / 2 ^ 12 % 512

/-- An address whose upper bits are equal. -/
def Canonical (v : ℕ) : Prop := v < 2 ^ 47 ∨ (2 ^ 64 - 2 ^ 47 ≤ v ∧ v < 2 ^ 64)

instance (v : ℕ) : Decidable (Canonical v) := inferInstanceAs (Decidable (_ ∨ _))

theorem offsets_inj {v v' : ℕ} (hv : Canonical v) (hv' : Canonical v') (hpage : v % 2 ^ 12 = 0)
    (hpage' : v' % 2 ^ 12 = 0) (h : offsets v = offsets v') (hlast : lastOffset v = lastOffset v') :
    v = v' := by
  unfold Canonical at hv hv'
  simp only [offsets, lastOffset, List.cons.injEq, and_true] at h hlast
  omega

/-! ## The table -/

/-- The pages that `System::allocPhysPages` gives out until the memory is full: all different, not
0, and page numbers of an entry. -/
structure Allocator where
  basePage : ℕ
  pages : List ℕ
  nodup : (basePage :: pages).Nodup
  ne_zero : ∀ p ∈ basePage :: pages, p ≠ 0
  lt : ∀ p ∈ basePage :: pages, p < 2 ^ 40

/-- The memory of the table, by page and index, the number of pages that have been allocated after
the first, and the cache. -/
structure MultiLevelPageTable where
  mem : ℕ → ℕ → PageTableEntry := fun _ _ => {}
  allocated : ℕ := 0
  pTableCache : Cache := Cache.empty

namespace MultiLevelPageTable

variable (A : Allocator) {e : PageTableEntry} {r : MultiLevelPageTable × Option ℕ}

/-- `basePtr`; the first page that is allocated. -/
def basePtr : ℕ := A.basePage

/-- The loop of `walk`: the page of the last level, if there is one; `none` when memory is full. -/
def descend (allocate : Bool) :
    List ℕ → ℕ → MultiLevelPageTable → Option (MultiLevelPageTable × Option ℕ)
  | [], levelBase, P => some (P, some levelBase)
  | o :: os, levelBase, P =>
    let entry := P.mem levelBase o
    if entry.getPnum = 0 then
      if allocate then
        match A.pages[P.allocated]? with
        | none => none
        | some pnum =>
          let entry := (entry.setPnum pnum).setPTEFields {}
          descend allocate os pnum
            { P with
              mem := setEntry (clearPage P.mem pnum {}) levelBase o entry
              allocated := P.allocated + 1 }
      else some (P, none)
    else descend allocate os entry.getPnum P

/-- `walk`: the page of the entry; its index is `lastOffset`. -/
def walk (allocate : Bool) (P : MultiLevelPageTable) (vaddr : ℕ) :
    Option (MultiLevelPageTable × Option ℕ) :=
  descend A allocate (offsets vaddr) (basePtr A) P

variable (P : MultiLevelPageTable)

def write (page vaddr : ℕ) (e : PageTableEntry) : MultiLevelPageTable :=
  { P with mem := setEntry P.mem page (lastOffset vaddr) e }

/-- An iteration of `map`. -/
def mapPage (flags : MappingFlags) (P : MultiLevelPageTable) (vaddr paddr : ℕ) :
    Option MultiLevelPageTable :=
  match P.walk A true vaddr with
  | none => none
  | some (P, none) => some P
  | some (P, some page) =>
    let pte := P.mem page (lastOffset vaddr)
    if !flags.clobber && pte.getPnum ≠ 0 then none
    else
      let P := P.write page vaddr ((pte.setPnum (paddr / 2 ^ 12)).setPTEFields flags)
      some { P with
        pTableCache := (P.pTableCache.eraseCacheEntry vaddr).updateCache vaddr
          (TlbEntry.make 12 vaddr paddr flags.uncacheable flags.readOnly) }

def map (vaddr paddr : ℕ) (size : ℤ) (flags : MappingFlags) : Option MultiLevelPageTable :=
  if pageOffset 12 vaddr = 0 then
    (List.range (numPages 12 size)).foldlM (fun P k =>
      P.mapPage A flags (nthPage 12 vaddr k) (nthPage 12 paddr k)) P
  else none

/-- An iteration of `remap`. What is called `paddr` in the source is a page number. -/
def remapPage (vaddr newVaddr : ℕ) : Option MultiLevelPageTable :=
  match P.walk A false vaddr with
  | none => none
  | some (_, none) => none
  | some (P, some page) =>
    let pte := P.mem page (lastOffset vaddr)
    let paddr := pte.getPnum
    if paddr = 0 then none
    else
      let P := P.write page vaddr (pte.setPnum 0)
      match P.walk A true newVaddr with
      | none => none
      | some (_, none) => none
      | some (P, some newPage) =>
        let newPte := P.mem newPage (lastOffset newVaddr)
        let P := P.write newPage newVaddr ((newPte.setPnum (paddr / 2 ^ 12)).setPTEFields {})
        some { P with
          pTableCache := (P.pTableCache.eraseCacheEntry vaddr).updateCache newVaddr
            (TlbEntry.make 12 newVaddr paddr pte.isUncacheable pte.isReadOnly) }

def remap (vaddr : ℕ) (size : ℤ) (newVaddr : ℕ) : Option MultiLevelPageTable :=
  if pageOffset 12 vaddr = 0 ∧ pageOffset 12 newVaddr = 0 then
    (List.range (numPages 12 size)).foldlM (fun P k =>
      P.remapPage A (nthPage 12 vaddr k) (nthPage 12 newVaddr k)) P
  else none

/-- An iteration of `unmap`. -/
def unmapPage (vaddr : ℕ) : Option MultiLevelPageTable :=
  match P.walk A false vaddr with
  | none => none
  | some (_, none) => none
  | some (P, some page) =>
    let pte := P.mem page (lastOffset vaddr)
    if pte.getPnum = 0 then none
    else
      let P := P.write page vaddr (pte.setPnum 0)
      some { P with pTableCache := P.pTableCache.eraseCacheEntry vaddr }

def unmap (vaddr : ℕ) (size : ℤ) : Option MultiLevelPageTable :=
  if pageOffset 12 vaddr = 0 then
    (List.range (numPages 12 size)).foldlM (fun P k => P.unmapPage A (nthPage 12 vaddr k)) P
  else none

def lookup (vaddr : ℕ) : MultiLevelPageTable × Option TlbEntry :=
  let pageAddr := pageAlign 12 vaddr
  match P.pTableCache.find pageAddr with
  | some e => (P, some e)
  | none =>
    match P.walk A false pageAddr with
    | none => (P, none)
    | some (P, none) => (P, none)
    | some (P, some page) =>
      let pte := P.mem page (lastOffset pageAddr)
      if pte.getPnum = 0 then (P, none)
      else
        let e := TlbEntry.make 12 vaddr (pte.getPnum * 2 ^ 12) pte.isUncacheable pte.isReadOnly
        ({ P with pTableCache := P.pTableCache.updateCache pageAddr e }, some e)

def translate (vaddr : ℕ) : Option ℕ :=
  (P.lookup A vaddr).2.map fun e => pageOffset 12 vaddr + e.paddr

def step : PageCall → Option MultiLevelPageTable
  | .map vaddr paddr size flags => P.map A vaddr paddr size flags
  | .remap vaddr size newVaddr => P.remap A vaddr size newVaddr
  | .unmap vaddr size => P.unmap A vaddr size
  | .lookup vaddr => some (P.lookup A vaddr).1

/-- The entry of the table for a page; an entry that cannot be reached is a free one. -/
def entry (v : ℕ) : PageTableEntry :=
  leaf getPnum {} P.mem (basePtr A) (offsets v) (lastOffset v)

/-- The translations of the table itself. -/
def table (v : ℕ) : Option Translation := (P.entry A v).translation

/-- A lookup answers from the table, whatever the cache holds. -/
def Coherent : Prop :=
  ∀ v, (P.lookup A v).2.map TlbEntry.translation = P.table A (pageAlign 12 v)

/-! ## Walks -/

variable {A P} {P' : MultiLevelPageTable} {v v' p a n : ℕ} {flags : MappingFlags}

def InUse (A : Allocator) (allocated n : ℕ) : Prop :=
  n = A.basePage ∨ ∃ k < allocated, A.pages[k]? = some n

theorem not_inUse {k pnum : ℕ} (h : A.pages[k]? = some pnum) : ¬ InUse A k pnum := by
  have hnodup := nodup_cons.1 A.nodup
  rintro (rfl | ⟨j, hj, hpage⟩)
  · exact hnodup.1 (mem_of_getElem? h)
  · have hlt := (List.getElem?_eq_some_iff.1 h).1
    have heq := (getElem?_inj (Nat.lt_trans hj hlt) hnodup.2).1 (hpage.trans h.symm)
    omega

/-- The pages of the table form a tree of allocated pages. -/
def Wellformed (A : Allocator) (P : MultiLevelPageTable) : Prop :=
  Tree getPnum P.mem (basePtr A) 3 (InUse A P.allocated)

theorem descend_false (os : List ℕ) (n : ℕ) :
    descend A false os n P = some (P, node getPnum P.mem n os) := by
  induction os generalizing n with
  | nil => rfl
  | cons o os ih =>
    rw [descend, node]
    split
    · rfl
    · exact ih _

/-- A walk that allocates reaches the page, and changes no entry of the last level. -/
theorem descend_true {os p : List ℕ} (hP : Wellformed A P)
    (hlen : p.length + os.length = 3) (hn : node getPnum P.mem (basePtr A) p = some n)
    (h : descend A true os n P = some r) : Wellformed A r.1 ∧ (∃ m, r.2 = some m ∧
      node getPnum r.1.mem (basePtr A) (p ++ os) = some m) ∧ r.1.pTableCache = P.pTableCache ∧
      ∀ v, r.1.entry A v = P.entry A v := by
  induction os generalizing p n P with
  | nil =>
    cases h
    exact ⟨hP, ⟨n, rfl, by rw [append_nil]; exact hn⟩, rfl, fun _ => rfl⟩
  | cons o os ih =>
    rw [length_cons] at hlen
    have happ : p ++ o :: os = (p ++ [o]) ++ os := by simp
    have hlen' : (p ++ [o]).length + os.length = 3 := by
      rw [length_append, length_singleton]
      omega
    rw [descend] at h
    rw [happ]
    split at h
    case isFalse hused =>
      have hnext : node getPnum P.mem (basePtr A) (p ++ [o]) = some (P.mem n o).getPnum := by
        rw [node_concat, hn]
        simp [child, hused]
      exact ih hP hlen' hnext h
    case isTrue hfree =>
      rw [if_pos rfl] at h
      split at h
      case h_1 => cases h
      case h_2 pnum hpage =>
        have hplen : p.length < 3 := by omega
        have hfresh := not_inUse hpage
        have hmem : pnum ∈ A.basePage :: A.pages := mem_cons_of_mem _ (mem_of_getElem? hpage)
        have hpnum : getPnum (((P.mem n o).setPnum pnum).setPTEFields {}) = pnum :=
          Nat.mod_eq_of_lt (A.lt pnum hmem)
        have hzero := A.ne_zero pnum hmem
        have hclear : getPnum {} = 0 := rfl
        -- the new page is installed below the node, then the walk goes on from there
        have hwell : Wellformed A { P with
            mem := setEntry (clearPage P.mem pnum {}) n o
              (((P.mem n o).setPnum pnum).setPTEFields {})
            allocated := P.allocated + 1 } := by
          refine (Tree.install hP hplen hn hfree hzero hfresh hpnum hclear).mono ?_
          rintro m ((rfl | ⟨k, hk, hm⟩) | rfl)
          · exact .inl rfl
          · exact .inr ⟨k, Nat.lt_succ_of_lt hk, hm⟩
          · exact .inr ⟨P.allocated, Nat.lt_succ_self _, hpage⟩
        have hnode := node_install hP hplen hn hfree hzero hfresh hpnum hclear (q := p ++ [o]) (by
          omega)
        rw [if_pos rfl] at hnode
        rcases ih hwell hlen' hnode h with ⟨hr, hm, hcache, hentry⟩
        refine ⟨hr, hm, hcache, ?_⟩
        intro v
        rw [hentry v]
        exact leaf_install hP hplen hn hfree hzero hfresh hpnum hclear rfl (lastOffset v)

theorem walk_true (hP : Wellformed A P)
    (h : P.walk A true v = some r) : ∃ P' m, r = (P', some m) ∧ Wellformed A P' ∧
    node getPnum P'.mem (basePtr A) (offsets v) = some m ∧ P'.pTableCache = P.pTableCache ∧
    ∀ v, P'.entry A v = P.entry A v := by
  rcases descend_true (p := []) hP rfl rfl h with ⟨hwell, ⟨m, hm, hnode⟩, hcache, hentry⟩
  exact ⟨r.1, m, Prod.ext rfl hm, hwell, hnode, hcache, hentry⟩

theorem walk_false (v : ℕ) : P.walk A false v =
    some (P, node getPnum P.mem (basePtr A) (offsets v)) :=
  descend_false (offsets v) (basePtr A)

theorem entry_of_node (hn : node getPnum P.mem (basePtr A) (offsets v) = some n) :
    P.entry A v = P.mem n (lastOffset v) := by
  rw [entry, leaf, hn]

/-- An entry of the last level is written: the entries of the other pages stay. -/
theorem entry_write (hP : Wellformed A P)
    (hn : node getPnum P.mem (basePtr A) (offsets v) = some n) :
    Wellformed A (P.write n v e) ∧ ∀ a, (P.write n v e).entry A a =
      if offsets a = offsets v ∧ lastOffset a = lastOffset v then e else P.entry A a :=
  ⟨Tree.setEntry hP rfl hn, fun a => leaf_setEntry hP rfl hn rfl (lastOffset a)⟩

/-! ## What the operations do to the table -/

section Table

/-- A page of the table: its address is canonical. -/
def IsPage (v : ℕ) : Prop := Canonical v ∧ v % 2 ^ 12 = 0

/-- A physical page that an entry can hold. -/
def IsFrame (p : ℕ) : Prop := p % 2 ^ 12 = 0 ∧ p ≠ 0 ∧ p < 2 ^ 52

instance (p : ℕ) : Decidable (IsFrame p) := inferInstanceAs (Decidable (_ ∧ _))

theorem update_congr {f g : ℕ → Option Translation} {t : Option Translation} (h : f a = g a) :
    update f v t a = update g v t a := by
  simp only [update_apply, h]

variable (hP : Wellformed A P)
include hP

theorem table_write (hv : IsPage v)
    (hn : node getPnum P.mem (basePtr A) (offsets v) = some n) (ha : IsPage a) :
    (P.write n v e).table A a = update (P.table A) v e.translation a := by
  rw [table, (entry_write hP hn).2 a]
  by_cases hav : a = v
  · subst hav
    rw [if_pos ⟨rfl, rfl⟩, update_self]
  · have hne : ¬ (offsets a = offsets v ∧ lastOffset a = lastOffset v) := fun h =>
      hav (offsets_inj ha.1 hv.1 ha.2 hv.2 h.1 h.2)
    rw [if_neg hne, update_of_ne hav, table]

/-- A page that is mapped: the walk reaches a page of the last level, and one entry is written
there. -/
theorem mapPage_write (h : P.mapPage A flags v p = some P') : ∃ P1 n,
    Wellformed A P1 ∧ node getPnum P1.mem (basePtr A) (offsets v) = some n ∧
      P1.pTableCache = P.pTableCache ∧ (∀ a, P1.entry A a = P.entry A a) ∧
      (flags.clobber = false → (P1.mem n (lastOffset v)).base = 0) ∧
      P' = { P1.write n v (((P1.mem n (lastOffset v)).setPnum (p / 2 ^ 12)).setPTEFields flags) with
        pTableCache := (P1.pTableCache.eraseCacheEntry v).updateCache v
          (TlbEntry.make 12 v p flags.uncacheable flags.readOnly) } := by
  unfold mapPage at h
  split at h
  case h_1 => cases h
  case h_2 P1 hwalk =>
    rcases walk_true hP hwalk with ⟨P2, n, heq, -⟩
    cases heq
  case h_3 P1 n hwalk =>
    rcases walk_true hP hwalk with ⟨P2, m, heq, hP2, hm, hcache, hentry⟩
    cases heq
    rcases ite_none_left_eq_some.1 h with ⟨hfree, h⟩
    cases h
    refine ⟨P1, n, hP2, hm, hcache, hentry, ?_, rfl⟩
    intro hclobber
    by_contra hne
    exact hfree (by simp [hclobber, getPnum, hne])

theorem mapPage_spec (hv : IsPage v) (hp : IsFrame p)
    (h : P.mapPage A flags v p = some P') : Wellformed A P' ∧
      (∀ a, IsPage a →
        P'.table A a = update (P.table A) v (some ⟨p, !flags.readOnly, flags.uncacheable⟩) a) ∧
      P'.pTableCache = (P.pTableCache.eraseCacheEntry v).updateCache v
        (TlbEntry.make 12 v p flags.uncacheable flags.readOnly) := by
  rcases mapPage_write hP h with ⟨P1, n, hP1, hn, hcache, hentry, -, rfl⟩
  refine ⟨(entry_write hP1 hn).1, ?_, by rw [← hcache]⟩
  intro a ha
  have htable : P1.table A = P.table A := by
    funext b
    rw [table, table, hentry b]
  have hframe := hp
  unfold IsFrame at hframe
  have hbase : p / 2 ^ 12 % 2 ^ 40 = p / 2 ^ 12 := by omega
  have hne : p / 2 ^ 12 ≠ 0 := by omega
  have hmul : p / 2 ^ 12 * 2 ^ 12 = p := by omega
  have htrans : (((P1.mem n (lastOffset v)).setPnum (p / 2 ^ 12)).setPTEFields flags).translation =
      some ⟨p, !flags.readOnly, flags.uncacheable⟩ := by
    simp only [translation, setPTEFields, setPnum, hbase]
    rw [if_neg hne, hmul]
  rw [← htable, ← htrans]
  exact table_write hP1 hv hn ha

theorem unmapPage_spec (hv : IsPage v) (h : P.unmapPage A v = some P') :
    Wellformed A P' ∧ (∀ a, IsPage a → P'.table A a = update (P.table A) v none a) ∧
      P'.pTableCache = P.pTableCache.eraseCacheEntry v := by
  unfold unmapPage at h
  rw [walk_false] at h
  cases hn : node getPnum P.mem (basePtr A) (offsets v) with
  | none =>
    rw [hn] at h
    cases h
  | some n =>
    rw [hn] at h
    rcases ite_none_left_eq_some.1 h with ⟨-, h⟩
    cases h
    exact ⟨(entry_write hP hn).1, fun a ha => table_write hP hv hn ha, rfl⟩

/-- The page that a moved entry leads to, and what is left of its attributes. -/
theorem remapPage_spec (hv : IsPage v) (hv' : IsPage v')
    (h : P.remapPage A v v' = some P') : Wellformed A P' ∧
      (∀ a, IsPage a → P'.table A a = update (update (P.table A) v none) v'
        (if (P.entry A v).base / 2 ^ 12 % 2 ^ 40 = 0 then none
          else some ⟨(P.entry A v).base / 2 ^ 12 % 2 ^ 40 * 2 ^ 12, true, false⟩) a) ∧
      P'.pTableCache = (P.pTableCache.eraseCacheEntry v).updateCache v'
        (TlbEntry.make 12 v' (P.entry A v).base (P.entry A v).pcd (!(P.entry A v).w)) := by
  unfold remapPage at h
  rw [walk_false] at h
  cases hn : node getPnum P.mem (basePtr A) (offsets v) with
  | none =>
    rw [hn] at h
    cases h
  | some n =>
    rw [hn] at h
    dsimp only at h
    rw [← entry_of_node hn] at h
    rcases ite_none_left_eq_some.1 h with ⟨-, h⟩
    have hwrite := entry_write (e := (P.entry A v).setPnum 0) hP hn
    split at h
    case h_1 => cases h
    case h_2 => cases h
    case h_3 P1 n' hwalk =>
      rcases walk_true hwrite.1 hwalk with ⟨P2, m, heq, hP1, hn', hcache, hentry⟩
      cases heq
      cases h
      have hcache : P1.pTableCache = P.pTableCache := hcache
      refine ⟨(entry_write hP1 hn').1, ?_, by rw [← hcache]; rfl⟩
      intro a ha
      have htable : ∀ b, IsPage b → P1.table A b = update (P.table A) v none b := by
        intro b hb
        rw [table, hentry b]
        exact table_write hP hv hn hb
      exact (table_write hP1 hv' hn' ha).trans (update_congr (htable a ha))

end Table

/-! ## The cache agrees with the table -/

structure Cached (A : Allocator) (P : MultiLevelPageTable) : Prop where
  wellformed : Wellformed A P
  cache : CacheInv IsPage (P.table A) P.pTableCache

theorem Cached.initial : Cached A {} where
  wellformed := Tree.empty (fun _ => rfl) (.inl rfl)
  cache := CacheInv.empty

theorem Cached.mapPage (hP : Cached A P) (hv : IsPage v) (hp : IsFrame p)
    (h : P.mapPage A flags v p = some P') : Cached A P' := by
  rcases mapPage_spec hP.wellformed hv hp h with ⟨hwell, htable, hcache⟩
  refine ⟨hwell, ?_⟩
  rw [hcache]
  refine CacheInv.update (hP.cache.erase ?_) hv ?_ (not_has_erase hP.cache.unique)
  · intro a ha hne
    rw [htable a ha, update_of_ne hne]
  · rw [htable v hv, update_self]
    rfl

theorem Cached.unmapPage (hP : Cached A P) (hv : IsPage v) (h : P.unmapPage A v = some P') :
    Cached A P' := by
  rcases unmapPage_spec hP.wellformed hv h with ⟨hwell, htable, hcache⟩
  refine ⟨hwell, ?_⟩
  rw [hcache]
  refine hP.cache.erase ?_
  intro a ha hne
  rw [htable a ha, update_of_ne hne]

/-- A page may be moved if the new one is free and the entry survives the shift of its page number
and the loss of its attributes. -/
def Movable (A : Allocator) (P : MultiLevelPageTable) (v v' : ℕ) : Prop :=
  Canonical v ∧ Canonical v' ∧ P.table A v' = none ∧ P.table A v ≠ none ∧
    (P.entry A v).base % 2 ^ 12 = 0 ∧ (P.entry A v).base < 2 ^ 40 ∧ (P.entry A v).w = true ∧
    (P.entry A v).pcd = false

instance (A : Allocator) (P : MultiLevelPageTable) (v v' : ℕ) : Decidable (Movable A P v v') :=
  inferInstanceAs (Decidable (_ ∧ _))

theorem Cached.remapPage (hP : Cached A P) (hpage : v % 2 ^ 12 = 0) (hpage' : v' % 2 ^ 12 = 0)
    (hmove : Movable A P v v') (h : P.remapPage A v v' = some P') : Cached A P' := by
  rcases hmove with ⟨hv, hv', hfree, hmapped, halign, hlt, hw, hpcd⟩
  have hbase : (P.entry A v).base ≠ 0 := by
    intro hzero
    exact hmapped (by rw [table, translation, if_pos hzero])
  have hne : v' ≠ v := fun heq => hmapped (heq ▸ hfree)
  rcases remapPage_spec hP.wellformed ⟨hv, hpage⟩ ⟨hv', hpage'⟩ h with ⟨hwell, htable, hcache⟩
  have hpnum : (P.entry A v).base / 2 ^ 12 % 2 ^ 40 * 2 ^ 12 = (P.entry A v).base := by omega
  have hpnum' : (P.entry A v).base / 2 ^ 12 % 2 ^ 40 ≠ 0 := by omega
  rw [if_neg hpnum', hpnum] at htable
  -- the old page goes before the new one comes
  have herased : CacheInv IsPage (update (P.table A) v none) (P.pTableCache.eraseCacheEntry v) :=
    hP.cache.erase fun a _ ha => update_of_ne ha _ _
  have hnone : update (P.table A) v none v' = none := by
    rw [update_of_ne hne, hfree]
  refine ⟨hwell, ?_⟩
  rw [hcache]
  refine CacheInv.update (herased.extend ?_ hnone) ⟨hv', hpage'⟩ ?_ (herased.not_has hnone)
  · intro a ha hav
    rw [htable a ha, update_of_ne hav]
  · rw [htable v' ⟨hv', hpage'⟩, update_self, hw, hpcd]
    rfl

theorem pageAlign_mod (v : ℕ) : pageAlign 12 v % 2 ^ 12 = 0 := by
  unfold pageAlign
  omega

theorem nthPage_mod (h : pageOffset 12 v = 0) (k : ℕ) : nthPage 12 v k % 2 ^ 12 = 0 := by
  unfold nthPage
  unfold pageOffset at h
  omega

theorem Cached.lookup (hP : Cached A P) (v : ℕ) :
    (Canonical (pageAlign 12 v) → Cached A (P.lookup A v).1) ∧
      (P.lookup A v).2.map TlbEntry.translation = P.table A (pageAlign 12 v) := by
  unfold MultiLevelPageTable.lookup
  dsimp only
  rw [walk_false]
  split
  case h_1 e hfind => exact ⟨fun _ => hP, (hP.cache.find hfind).symm⟩
  case h_2 hfind =>
    cases hn : node getPnum P.mem (basePtr A) (offsets (pageAlign 12 v)) with
    | none =>
      refine ⟨fun _ => hP, ?_⟩
      rw [table, entry, leaf, hn]
      rfl
    | some n =>
      dsimp only
      rw [← entry_of_node hn]
      split
      case isTrue hzero =>
        have hzero : (P.entry A (pageAlign 12 v)).base = 0 := hzero
        refine ⟨fun _ => hP, ?_⟩
        rw [table, translation, if_pos hzero]
        rfl
      case isFalse hbase =>
        have hbase : ¬ (P.entry A (pageAlign 12 v)).base = 0 := hbase
        have htable : P.table A (pageAlign 12 v) = some (TlbEntry.translation
            (TlbEntry.make 12 v ((P.entry A (pageAlign 12 v)).getPnum * 2 ^ 12)
              (P.entry A (pageAlign 12 v)).isUncacheable
              (P.entry A (pageAlign 12 v)).isReadOnly)) := by
          rw [table, translation, if_neg hbase]
          simp [TlbEntry.translation, TlbEntry.make, getPnum, isUncacheable, isReadOnly]
        refine ⟨fun hcanon => ⟨hP.wellformed, ?_⟩, htable.symm⟩
        refine CacheInv.update hP.cache ⟨hcanon, pageAlign_mod v⟩ htable ?_
        rintro ⟨e', hmem⟩
        exact find_none hfind hmem

theorem Cached.coherent (hP : Cached A P) : Coherent A P := fun v => (hP.lookup v).2

/-- The addresses of a call are canonical, the physical pages fit into entries, and pages that are
moved may be. -/
def Fitting (A : Allocator) (P : MultiLevelPageTable) : PageCall → Prop
  | .map vaddr paddr size _ =>
    ∀ k < numPages 12 size, Canonical (nthPage 12 vaddr k) ∧ IsFrame (nthPage 12 paddr k)
  | .remap vaddr size newVaddr =>
    Throughout (fun (P : MultiLevelPageTable) k =>
        P.remapPage A (nthPage 12 vaddr k) (nthPage 12 newVaddr k))
      (fun P k => Movable A P (nthPage 12 vaddr k) (nthPage 12 newVaddr k)) P
      (List.range (numPages 12 size))
  | .unmap vaddr size => ∀ k < numPages 12 size, Canonical (nthPage 12 vaddr k)
  | .lookup vaddr => Canonical (pageAlign 12 vaddr)

instance (A : Allocator) (P : MultiLevelPageTable) (call : PageCall) :
    Decidable (Fitting A P call) :=
  match call with
  | .map _ _ size _ | .unmap _ size => inferInstanceAs (Decidable (∀ k < numPages 12 size, _))
  | .remap _ _ _ => inferInstanceAs (Decidable (Throughout _ _ _ _))
  | .lookup _ => inferInstanceAs (Decidable (Canonical _))

theorem Cached.step (hP : Cached A P) {call : PageCall} (hG : Fitting A P call)
    (h : P.step A call = some P') : Cached A P' := by
  cases call with
  | map vaddr paddr size flags =>
    rcases ite_none_right_eq_some.1 h with ⟨halign, h⟩
    refine foldlM_invariant (fun k hk Q Q' hQ hstep => ?_) hP h
    have hfit := hG k (mem_range.1 hk)
    exact hQ.mapPage ⟨hfit.1, nthPage_mod halign k⟩ hfit.2 hstep
  | remap vaddr size newVaddr =>
    rcases ite_none_right_eq_some.1 h with ⟨halign, h⟩
    refine foldlM_invariant_of_throughout (fun k _ Q Q' hQ hmove hstep => ?_) hP hG h
    exact hQ.remapPage (nthPage_mod halign.1 k) (nthPage_mod halign.2 k) hmove hstep
  | unmap vaddr size =>
    rcases ite_none_right_eq_some.1 h with ⟨halign, h⟩
    refine foldlM_invariant (fun k hk Q Q' hQ hstep => ?_) hP h
    exact hQ.unmapPage ⟨hG k (mem_range.1 hk), nthPage_mod halign k⟩ hstep
  | lookup vaddr =>
    cases h
    exact (hP.lookup vaddr).1 hG

end MultiLevelPageTable

end EnocGem5.Mem
