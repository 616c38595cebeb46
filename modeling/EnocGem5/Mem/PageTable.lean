import EnocGem5.Lib.Run

/-!
# PageTable — the functional page table and the lookup cache

A page table of a process maps virtual pages to entries. `PageTableBase` keeps the three entries
that were used last in front of it, in a shift register whose elements are invalidated one at a
time. A lookup is right as long as the register agrees with the table and has no page twice
(`CacheInv`), and the one operation that may put a page into it twice is `remap`, if it moves a page
to one that is mapped.

Addresses are 64-bit numbers; the loops over the pages of a region wrap around.
-/

namespace EnocGem5.Mem

open Lib List Function Option

/-! ## Entries -/

structure MappingFlags where
  clobber : Bool := false
  notPresent : Bool := false
  uncacheable : Bool := false
  readOnly : Bool := false
  deriving DecidableEq, Repr

/-- `TlbEntry` of x86, with the fields that differ between entries. -/
structure TlbEntry where
  paddr : ℕ := 0
  vaddr : ℕ := 0
  logBytes : ℕ := 0
  writable : Bool := false
  uncacheable : Bool := false
  deriving DecidableEq, Repr

/-- What an entry says about its page. -/
structure Translation where
  pageStart : ℕ
  writable : Bool
  uncacheable : Bool
  deriving DecidableEq, Repr

namespace TlbEntry

def translation (e : TlbEntry) : Translation := ⟨e.paddr, e.writable, e.uncacheable⟩

/-- The constructor with arguments. -/
def make (pageShift vaddr paddr : ℕ) (uncacheable readOnly : Bool) : TlbEntry :=
  ⟨paddr, vaddr, pageShift, !readOnly, uncacheable⟩

def updateVaddr (e : TlbEntry) (newVaddr : ℕ) : TlbEntry := { e with vaddr := newVaddr }

end TlbEntry

open TlbEntry

/-! ## Regions -/

/-- `pageAlign` and `pageOffset`; the page size is a power of two. -/
def pageAlign (pageShift a : ℕ) : ℕ := a - a % 2 ^ pageShift

def pageOffset (pageShift a : ℕ) : ℕ := a % 2 ^ pageShift

/-- The number of iterations of `for (; size > 0; size -= pageSize)`. -/
def numPages (pageShift : ℕ) (size : ℤ) : ℕ := ((size + 2 ^ pageShift - 1) / 2 ^ pageShift).toNat

/-- The address in the `k`-th iteration. -/
def nthPage (pageShift a k : ℕ) : ℕ := (a + k * 2 ^ pageShift) % 2 ^ 64

inductive PageCall
  | map (vaddr paddr : ℕ) (size : ℤ) (flags : MappingFlags)
  | remap (vaddr : ℕ) (size : ℤ) (newVaddr : ℕ)
  | unmap (vaddr : ℕ) (size : ℤ)
  | lookup (vaddr : ℕ)

/-! ## The lookup cache -/

/-- `pTableCache`: an element that is not valid is `none`. -/
abbrev Cache := List (Option (ℕ × TlbEntry))

namespace Cache

def empty : Cache := [none, none, none]

def updateCache (c : Cache) (vaddr : ℕ) (e : TlbEntry) : Cache := some (vaddr, e) :: c.take 2

/-- The first element for the page is invalidated. -/
def eraseCacheEntry (vaddr : ℕ) : Cache → Cache
  | [] => []
  | none :: c => none :: eraseCacheEntry vaddr c
  | some (a, e) :: c => if a = vaddr then none :: c else some (a, e) :: eraseCacheEntry vaddr c

def find : Cache → ℕ → Option TlbEntry
  | [], _ => none
  | none :: c, v => find c v
  | some (a, e) :: c, v => if a = v then some e else find c v

def Has (c : Cache) (v : ℕ) : Prop := ∃ e, some (v, e) ∈ c

/-- The cache agrees with a table, has no page twice, and only pages with `D`. -/
structure CacheInv (D : ℕ → Prop) (T : ℕ → Option Translation) (c : Cache) : Prop where
  agrees : ∀ {v e}, some (v, e) ∈ c → T v = some e.translation
  domain : ∀ {v e}, some (v, e) ∈ c → D v
  unique : c.Pairwise fun s t => ∀ v e e', s = some (v, e) → t ≠ some (v, e')

variable {D : ℕ → Prop} {T T' : ℕ → Option Translation} {c : Cache} {v : ℕ} {e : TlbEntry}

theorem CacheInv.empty : CacheInv D T Cache.empty where
  agrees := by simp [Cache.empty]
  domain := by simp [Cache.empty]
  unique := by simp [Cache.empty]

theorem find_mem (h : c.find v = some e) : some (v, e) ∈ c := by
  fun_induction c.find v with
  | case1 => cases h
  | case2 v c ih => exact mem_cons_of_mem _ (ih h)
  | case3 v e' c =>
    cases h
    exact mem_cons_self
  | case4 v a e' c _ ih => exact mem_cons_of_mem _ (ih h)

theorem find_none (h : c.find v = none) (hmem : some (v, e) ∈ c) : False := by
  fun_induction c.find v with
  | case1 => cases hmem
  | case2 v c ih => exact ih h (mem_of_ne_of_mem (some_ne_none _) hmem)
  | case3 => cases h
  | case4 v a e' c hne ih =>
    rcases mem_cons.1 hmem with heq | hmem
    · cases heq
      exact hne rfl
    · exact ih h hmem

theorem CacheInv.find (h : CacheInv D T c) (hfind : c.find v = some e) : T v = some e.translation :=
  h.agrees (find_mem hfind)

theorem CacheInv.update (h : CacheInv D T c) (hD : D v) (hT : T v = some e.translation)
    (hnew : ¬ c.Has v) : CacheInv D T (c.updateCache v e) where
  agrees := by
    intro v' e' hmem
    rcases mem_cons.1 hmem with heq | hmem
    · cases heq
      exact hT
    · exact h.agrees (mem_of_mem_take hmem)
  domain := by
    intro v' e' hmem
    rcases mem_cons.1 hmem with heq | hmem
    · cases heq
      exact hD
    · exact h.domain (mem_of_mem_take hmem)
  unique := by
    refine pairwise_cons.2 ⟨?_, h.unique.sublist (take_sublist 2 c)⟩
    intro t ht v' e1 e2 heq ht'
    cases heq
    exact hnew ⟨e2, ht' ▸ mem_of_mem_take ht⟩

theorem mem_of_mem_erase {s : ℕ × TlbEntry} (h : some s ∈ c.eraseCacheEntry v) : some s ∈ c := by
  fun_induction c.eraseCacheEntry v with
  | case1 => cases h
  | case2 c ih => exact mem_cons_of_mem _ (ih (mem_of_ne_of_mem (some_ne_none _) h))
  | case3 e c => exact mem_cons_of_mem _ (mem_of_ne_of_mem (some_ne_none _) h)
  | case4 a e c _ ih =>
    rcases mem_cons.1 h with heq | hmem
    · rw [heq]
      exact mem_cons_self
    · exact mem_cons_of_mem _ (ih hmem)

/-- In a cache that has no page twice, one element is all there is to erase. -/
theorem not_has_erase (hunique : c.Pairwise fun s t =>
    ∀ v e e', s = some (v, e) → t ≠ some (v, e')) : ¬ (c.eraseCacheEntry v).Has v := by
  rintro ⟨e, h⟩
  fun_induction c.eraseCacheEntry v with
  | case1 => cases h
  | case2 c ih => exact ih (pairwise_cons.1 hunique).2 (mem_of_ne_of_mem (some_ne_none _) h)
  | case3 e' c =>
    exact (pairwise_cons.1 hunique).1 _ (mem_of_ne_of_mem (some_ne_none _) h) v e' e rfl rfl
  | case4 a e' c hne ih =>
    rcases mem_cons.1 h with hx | hmem
    · cases hx
      exact hne rfl
    · exact ih (pairwise_cons.1 hunique).2 hmem

theorem pairwise_erase (hunique : c.Pairwise fun s t =>
    ∀ v e e', s = some (v, e) → t ≠ some (v, e')) :
    (c.eraseCacheEntry v).Pairwise fun s t => ∀ v e e', s = some (v, e) → t ≠ some (v, e') := by
  fun_induction c.eraseCacheEntry v with
  | case1 => exact hunique
  | case2 c ih =>
    exact pairwise_cons.2 ⟨fun _ _ _ _ _ h => (nomatch h), ih (pairwise_cons.1 hunique).2⟩
  | case3 e c => exact pairwise_cons.2 ⟨fun _ _ _ _ _ h => (nomatch h), (pairwise_cons.1 hunique).2⟩
  | case4 a e c _ ih =>
    rw [pairwise_cons] at hunique
    refine pairwise_cons.2 ⟨?_, ih hunique.2⟩
    intro t ht v' e e' heq ht'
    exact hunique.1 t (ht' ▸ mem_of_mem_erase (ht' ▸ ht)) v' e e' heq ht'

theorem CacheInv.erase (h : CacheInv D T c) (hT : ∀ a, D a → a ≠ v → T' a = T a) :
    CacheInv D T' (c.eraseCacheEntry v) where
  agrees := by
    intro a e hmem
    have hold := mem_of_mem_erase hmem
    have hne : a ≠ v := fun heq => not_has_erase h.unique ⟨e, heq ▸ hmem⟩
    rw [hT a (h.domain hold) hne]
    exact h.agrees hold
  domain := fun hmem => h.domain (mem_of_mem_erase hmem)
  unique := pairwise_erase h.unique

theorem CacheInv.extend (h : CacheInv D T c) (hT : ∀ a, D a → a ≠ v → T' a = T a)
    (hnone : T v = none) : CacheInv D T' c where
  agrees := by
    intro a e hmem
    have hne : a ≠ v := by
      rintro rfl
      cases hnone.symm.trans (h.agrees hmem)
    rw [hT a (h.domain hmem) hne]
    exact h.agrees hmem
  __ := h

theorem CacheInv.not_has (h : CacheInv D T c) (hnone : T v = none) : ¬ c.Has v := by
  rintro ⟨e, hmem⟩
  cases hnone.symm.trans (h.agrees hmem)

end Cache

/-! ## The functional page table -/

open Cache

structure FuncPageTable where
  pTable : ℕ → Option TlbEntry := fun _ => none
  pTableCache : Cache := Cache.empty

namespace FuncPageTable

variable (pageShift : ℕ)

/-- An iteration of `map`. -/
def mapPage (flags : MappingFlags) (P : FuncPageTable) (vaddr paddr : ℕ) : Option FuncPageTable :=
  if !flags.clobber && (P.pTable vaddr).isSome then none
  else
    let e := make pageShift vaddr paddr flags.uncacheable flags.readOnly
    some
      { pTable := Function.update P.pTable vaddr (some e)
        pTableCache := (P.pTableCache.eraseCacheEntry vaddr).updateCache vaddr e }

variable (P : FuncPageTable)

def map (vaddr paddr : ℕ) (size : ℤ) (flags : MappingFlags) : Option FuncPageTable :=
  if pageOffset pageShift vaddr = 0 then
    (List.range (numPages pageShift size)).foldlM (fun P k =>
      P.mapPage pageShift flags (nthPage pageShift vaddr k) (nthPage pageShift paddr k)) P
  else none

/-- An iteration of `remap`. The entry is looked up again after the old page has been erased, which
makes a new one if the two pages are the same. -/
def remapPage (vaddr newVaddr : ℕ) : Option FuncPageTable :=
  (P.pTable vaddr).map fun e =>
    let table := Function.update (Function.update P.pTable newVaddr (some e)) vaddr none
    let e' := ((table newVaddr).getD {}).updateVaddr newVaddr
    { pTable := Function.update table newVaddr (some e')
      pTableCache := (P.pTableCache.eraseCacheEntry vaddr).updateCache newVaddr e' }

def remap (vaddr : ℕ) (size : ℤ) (newVaddr : ℕ) : Option FuncPageTable :=
  if pageOffset pageShift vaddr = 0 ∧ pageOffset pageShift newVaddr = 0 then
    (List.range (numPages pageShift size)).foldlM (fun P k =>
      P.remapPage (nthPage pageShift vaddr k) (nthPage pageShift newVaddr k)) P
  else none

/-- An iteration of `unmap`. -/
def unmapPage (vaddr : ℕ) : Option FuncPageTable :=
  if (P.pTable vaddr).isSome then
    some
      { pTable := Function.update P.pTable vaddr none
        pTableCache := P.pTableCache.eraseCacheEntry vaddr }
  else none

def unmap (vaddr : ℕ) (size : ℤ) : Option FuncPageTable :=
  if pageOffset pageShift vaddr = 0 then
    (List.range (numPages pageShift size)).foldlM
      (fun P k => P.unmapPage (nthPage pageShift vaddr k)) P
  else none

def lookup (vaddr : ℕ) : FuncPageTable × Option TlbEntry :=
  let page := pageAlign pageShift vaddr
  match P.pTableCache.find page with
  | some e => (P, some e)
  | none =>
    match P.pTable page with
    | none => (P, none)
    | some e => ({ P with pTableCache := P.pTableCache.updateCache page e }, some e)

def translate (vaddr : ℕ) : Option ℕ :=
  (P.lookup pageShift vaddr).2.map fun e => pageOffset pageShift vaddr + e.paddr

def step : PageCall → Option FuncPageTable
  | .map vaddr paddr size flags => P.map pageShift vaddr paddr size flags
  | .remap vaddr size newVaddr => P.remap pageShift vaddr size newVaddr
  | .unmap vaddr size => P.unmap pageShift vaddr size
  | .lookup vaddr => some (P.lookup pageShift vaddr).1

/-- The translations of the table itself. -/
def table (v : ℕ) : Option Translation := (P.pTable v).map translation

/-- A lookup answers from the table, whatever the cache holds. -/
def Coherent : Prop :=
  ∀ v, (P.lookup pageShift v).2.map translation = P.table (pageAlign pageShift v)

/-- Every page that a `remap` moves goes to a page that is not mapped at that time. -/
def MovesToUnmapped : PageCall → Prop
  | .remap vaddr size newVaddr =>
    Throughout (fun (P : FuncPageTable) k =>
        P.remapPage (nthPage pageShift vaddr k) (nthPage pageShift newVaddr k))
      (fun P k => P.pTable (nthPage pageShift newVaddr k) = none) P
        (List.range (numPages pageShift size))
  | _ => True

instance (call : PageCall) : Decidable (P.MovesToUnmapped pageShift call) :=
  match call with
  | .remap _ _ _ => inferInstanceAs (Decidable (Throughout _ _ _ _))
  | .map _ _ _ _ | .unmap _ _ | .lookup _ => isTrue trivial

/-! ## What the operations do to the table -/

variable {pageShift P} {P' : FuncPageTable} {v v' p : ℕ} {flags : MappingFlags}

theorem table_mapPage (h : P.mapPage pageShift flags v p = some P') :
    P'.table = update P.table v (some ⟨p, !flags.readOnly, flags.uncacheable⟩) ∧
      (flags.clobber = false → P.table v = none) := by
  rcases ite_none_left_eq_some.1 h with ⟨hfree, h⟩
  cases h
  constructor
  · funext a
    by_cases ha : a = v
    · subst ha
      simp [table, make, translation]
    · simp [table, ha]
  · intro hclobber
    simpa [hclobber, table] using hfree

theorem table_unmapPage (h : P.unmapPage v = some P') :
    P'.table = update P.table v none ∧ P.table v ≠ none := by
  rcases ite_none_right_eq_some.1 h with ⟨hsome, h⟩
  cases h
  constructor
  · funext a
    by_cases ha : a = v
    · subst ha
      simp [table]
    · simp [table, ha]
  · intro hnone
    rw [table, map_eq_none_iff] at hnone
    rw [hnone] at hsome
    cases hsome

theorem table_remapPage (h : P.remapPage v v' = some P') (hfree : P.pTable v' = none) : ∃ t,
    P.table v = some t ∧ v' ≠ v ∧
      P'.table = update (update P.table v none) v' (some t) := by
  rcases map_eq_some_iff.1 h with ⟨e, he, rfl⟩
  have hne : v' ≠ v := by
    rintro rfl
    cases he.symm.trans hfree
  refine ⟨e.translation, by rw [table, he]; rfl, hne, ?_⟩
  funext a
  by_cases ha : a = v'
  · subst ha
    simp [table, hne, updateVaddr, translation]
  · by_cases hav : a = v
    · subst hav
      simp [table, ha]
    · simp [table, ha, hav]

/-! ## The cache agrees with the table -/

def Cached (P : FuncPageTable) : Prop := CacheInv (fun _ => True) P.table P.pTableCache

section

variable (hP : Cached P)

include hP

theorem Cached.mapPage (h : P.mapPage pageShift flags v p = some P') : Cached P' := by
  have htable := (table_mapPage h).1
  have hcache : P'.pTableCache = (P.pTableCache.eraseCacheEntry v).updateCache v
      (make pageShift v p flags.uncacheable flags.readOnly) := by
    unfold FuncPageTable.mapPage at h
    split at h
    · cases h
    · cases h
      rfl
  unfold Cached
  rw [htable, hcache]
  refine CacheInv.update (hP.erase ?_) trivial ?_ (not_has_erase hP.unique)
  · intro a _ hne
    exact update_of_ne hne _ _
  · exact update_self ..

theorem Cached.unmapPage (h : P.unmapPage v = some P') : Cached P' := by
  have htable := (table_unmapPage h).1
  have hcache : P'.pTableCache = P.pTableCache.eraseCacheEntry v := by
    unfold FuncPageTable.unmapPage at h
    split at h
    · cases h
      rfl
    · cases h
  unfold Cached
  rw [htable, hcache]
  exact hP.erase fun a _ hne => update_of_ne hne _ _

theorem Cached.remapPage (h : P.remapPage v v' = some P') (hfree : P.pTable v' = none) :
    Cached P' := by
  rcases table_remapPage h hfree with ⟨t, ht, hne, htable⟩
  have hcache : ∃ e, e.translation = t ∧
      P'.pTableCache = (P.pTableCache.eraseCacheEntry v).updateCache v' e := by
    rcases map_eq_some_iff.1 h with ⟨e, he, rfl⟩
    refine ⟨_, ?_, rfl⟩
    have ht' : e.translation = t := by simpa [table, he] using ht
    simpa [hne, updateVaddr, translation] using ht'
  rcases hcache with ⟨e, het, hcache⟩
  -- the old page goes before the new one comes
  have herased : CacheInv (fun _ => True) (update P.table v none)
      (P.pTableCache.eraseCacheEntry v) :=
    hP.erase fun a _ ha => update_of_ne ha _ _
  have hnone : update P.table v none v' = none := by
    rw [update_of_ne hne, table, hfree]
    rfl
  unfold Cached
  rw [htable, hcache]
  refine CacheInv.update (herased.extend ?_ hnone) trivial ?_ (herased.not_has hnone)
  · intro a _ ha
    exact update_of_ne ha _ _
  · rw [update_self, het]

theorem Cached.lookup (v : ℕ) : Cached (P.lookup pageShift v).1 ∧
    (P.lookup pageShift v).2.map translation = P.table (pageAlign pageShift v) := by
  unfold FuncPageTable.lookup
  dsimp only
  split
  case h_1 e hfind => exact ⟨hP, (hP.find hfind).symm⟩
  case h_2 hfind =>
    split
    case h_1 hnone => exact ⟨hP, by rw [table, hnone]⟩
    case h_2 e hsome =>
      have htable : P.table (pageAlign pageShift v) = some e.translation := by
        rw [table, hsome]; rfl
      refine ⟨CacheInv.update hP trivial htable ?_, htable.symm⟩
      rintro ⟨e', hmem⟩
      exact find_none hfind hmem

theorem Cached.coherent : Coherent pageShift P := fun v => (hP.lookup v).2

theorem Cached.step {call : PageCall} (hG : MovesToUnmapped pageShift P call)
    (h : P.step pageShift call = some P') : Cached P' := by
  cases call with
  | map vaddr paddr size flags =>
    rcases ite_none_right_eq_some.1 h with ⟨-, h⟩
    exact foldlM_invariant (fun k _ Q Q' hQ hstep => hQ.mapPage hstep) hP h
  | remap vaddr size newVaddr =>
    rcases ite_none_right_eq_some.1 h with ⟨-, h⟩
    exact foldlM_invariant_of_throughout (fun k _ Q Q' hQ hfree hstep => hQ.remapPage hstep hfree)
      hP hG h
  | unmap vaddr size =>
    rcases ite_none_right_eq_some.1 h with ⟨-, h⟩
    exact foldlM_invariant (fun k _ Q Q' hQ hstep => hQ.unmapPage hstep) hP h
  | lookup vaddr =>
    cases h
    exact (hP.lookup vaddr).1

end

theorem Cached.initial : Cached {} := CacheInv.empty

end FuncPageTable

end EnocGem5.Mem
