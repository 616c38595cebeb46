import EnocGem5.Lib.Run

/-!
# CacheMemory — the tag index of a Ruby cache

`CacheMemory` keeps its entries in an array of sets and ways, and a hash `m_tag_index` from
addresses to ways. A lookup trusts the hash together with the permission of the entry that is in the
way now. This is right as long as every entry of the array is indexed, and every index leads to its
entry (`Indexed`).

`allocate` may put an entry into a way whose old entry is `NotPresent`. It leaves the old address in
the hash, so that a lookup of the old address finds the new entry: `lookup_finds_other`.
-/

namespace EnocGem5.Ruby

open Lib Function

inductive AccessPermission
  | Read_Only
  | Read_Write
  | Maybe_Stale
  | Backing_Store
  | Invalid
  | NotPresent
  | Busy
  deriving DecidableEq, Repr

/-- `AbstractCacheEntry`, with the address, lock and place that `allocate` gives it. -/
structure CacheEntry where
  address : ℕ := 0
  permission : AccessPermission := .NotPresent
  locked : ℤ := -1
  setIndex : ℕ := 0
  wayIndex : ℕ := 0
  deriving DecidableEq, Repr

namespace CacheEntry

def changePermission (entry : CacheEntry) (newPerm : AccessPermission) : CacheEntry :=
  { entry with
    permission := newPerm
    locked := if newPerm = .Invalid ∨ newPerm = .NotPresent then -1 else entry.locked }

def isPresent (entry : CacheEntry) : Bool := entry.permission ≠ .NotPresent

end CacheEntry

/-- `bitSelect` on addresses of 64 bits. -/
def bitSelect (addr small big : ℕ) : ℕ :=
  if 63 ≤ big then addr / 2 ^ small else addr % 2 ^ (big + 1) / 2 ^ small

/-- What `CacheMemory::init` computes, and the block size of the Ruby system. -/
structure CacheGeometry where
  cacheAssoc : ℕ
  cacheNumSets : ℕ
  startIndexBit : ℕ
  blockSizeBits : ℕ
  numSets_gt : 1 < cacheNumSets

namespace CacheGeometry

variable (G : CacheGeometry)

def cacheNumSetBits : ℕ := Nat.log2 G.cacheNumSets

def makeLineAddress (addr : ℕ) : ℕ := addr / 2 ^ G.blockSizeBits * 2 ^ G.blockSizeBits

/-- The set of an address, without the assertion of `addressToCacheSet`. -/
def cacheSet (address : ℕ) : ℕ :=
  bitSelect address G.startIndexBit (G.startIndexBit + G.cacheNumSetBits - 1)

/-- What `assert(address == makeLineAddress(address))` asks for. -/
def IsLine (address : ℕ) : Prop := address = G.makeLineAddress address

instance (address : ℕ) : Decidable (G.IsLine address) := inferInstanceAs (Decidable (_ = _))

end CacheGeometry

/-- How a call may end early: an assertion fails, a null entry is dereferenced, or `allocate` finds
no way. -/
inductive CacheMemory.Halt
  | assertion
  | null
  | panic
  deriving DecidableEq, Repr

/-- The array `m_cache` and the hash `m_tag_index`. -/
structure CacheMemory where
  cache : ℕ → ℕ → Option CacheEntry := fun _ _ => none
  tagIndex : ℕ → Option ℕ := fun _ => none

namespace CacheMemory

variable (G : CacheGeometry) (M : CacheMemory) {α : Type}

abbrev Result (α : Type) := Except Halt α

def require (p : Prop) [Decidable p] : Result Unit := if p then .ok () else .error .assertion

def addressToCacheSet (address : ℕ) : Result ℕ := do
  require (G.IsLine address)
  pure (G.cacheSet address)

/-- `m_cache[cacheSet][way]`, dereferenced. -/
def entryAt (cacheSet way : ℕ) : Result CacheEntry :=
  match M.cache cacheSet way with
  | none => .error .null
  | some entry => .ok entry

/-- `none` is the result -1. -/
def findTagInSet (cacheSet tag : ℕ) : Result (Option ℕ) := do
  require (G.IsLine tag)
  match M.tagIndex tag with
  | none => pure none
  | some way => do
    let entry ← M.entryAt cacheSet way
    pure (if entry.permission ≠ .NotPresent then some way else none)

def isTagPresent (address : ℕ) : Result Bool := do
  let cacheSet ← addressToCacheSet G address
  let loc ← M.findTagInSet G cacheSet address
  pure loc.isSome

/-- The body of the loop of `cacheAvail`. -/
def isAvail (address : ℕ) : Option CacheEntry → Bool
  | none => true
  | some entry => entry.address = address || entry.permission = .NotPresent

def cacheAvail (address : ℕ) : Result Bool := do
  let cacheSet ← addressToCacheSet G address
  pure ((List.range G.cacheAssoc).any fun i => isAvail address (M.cache cacheSet i))

/-- A way that `allocate` may take. -/
def isOpen : Option CacheEntry → Bool
  | none => true
  | some entry => entry.permission = .NotPresent

def openWay (cacheSet : ℕ) : Option ℕ :=
  (List.range G.cacheAssoc).find? fun i => isOpen (M.cache cacheSet i)

def setEntry (cacheSet way : ℕ) (entry : Option CacheEntry) : ℕ → ℕ → Option CacheEntry :=
  Function.update M.cache cacheSet (Function.update (M.cache cacheSet) way entry)

/-- The entry as `allocate` leaves it in its way. -/
def placed (cacheSet way address : ℕ) (entry : CacheEntry) : CacheEntry :=
  { entry with
    address := address
    permission := .Invalid
    locked := -1
    setIndex := cacheSet
    wayIndex := way }

def allocate (address : ℕ) (entry : CacheEntry) : Result CacheMemory := do
  require (G.IsLine address)
  let present ← M.isTagPresent G address
  require (present = false)
  let avail ← M.cacheAvail G address
  require (avail = true)
  let cacheSet ← addressToCacheSet G address
  match M.openWay G cacheSet with
  | none => .error .panic
  | some i =>
    pure
      { cache := M.setEntry cacheSet i (some (placed cacheSet i address entry))
        tagIndex := Function.update M.tagIndex address (some i) }

def deallocate (address : ℕ) : Result CacheMemory := do
  require (G.IsLine address)
  let present ← M.isTagPresent G address
  require (present = true)
  let cacheSet ← addressToCacheSet G address
  match ← M.findTagInSet G cacheSet address with
  | none => pure M
  | some loc =>
    pure
      { cache := M.setEntry cacheSet loc none
        tagIndex := Function.update M.tagIndex address none }

def lookup (address : ℕ) : Result (Option CacheEntry) := do
  require (G.IsLine address)
  let cacheSet ← addressToCacheSet G address
  match ← M.findTagInSet G cacheSet address with
  | none => pure none
  | some loc => pure (M.cache cacheSet loc)

/-! ## Calls -/

/-- The calls of a protocol. It changes the permission of an entry that is in the array. -/
inductive Call
  | allocate (address : ℕ) (entry : CacheEntry)
  | deallocate (address : ℕ)
  | changePermission (set way : ℕ) (newPerm : AccessPermission)
  deriving DecidableEq, Repr

def call : Call → Result CacheMemory
  | .allocate address entry => M.allocate G address entry
  | .deallocate address => M.deallocate G address
  | .changePermission set way newPerm => do
    let entry ← M.entryAt set way
    pure { M with cache := M.setEntry set way (some (entry.changePermission newPerm)) }

/-- A call whose preconditions hold; `none` when it ends early. -/
def step (c : Call) : Option CacheMemory := (M.call G c).toOption

/-- What is expected of the cache: a lookup finds nothing or the entry of its address, an entry that
is present is found, no address is present twice, and `allocate` finds a way whenever its assertions
hold. -/
structure Consistent : Prop where
  sound : ∀ address, G.IsLine address →
    ∃ entry, M.lookup G address = .ok entry ∧ ∀ e ∈ entry, e.address = address
  found : ∀ set way entry, M.cache set way = some entry → entry.isPresent = true →
    M.lookup G entry.address = .ok (some entry)
  unique : ∀ set way way' entry entry', M.cache set way = some entry →
    M.cache set way' = some entry' → entry.isPresent = true → entry'.isPresent = true →
    entry.address = entry'.address → way = way'
  noPanic : ∀ address entry, M.allocate G address entry ≠ .error .panic

/-- What a protocol has to see to: `allocate` takes an empty way, or the way in which the address
still has its own old entry. -/
def Clean : Call → Prop
  | .allocate address _ =>
    ∀ i ∈ List.range G.cacheAssoc, ∀ entry ∈ M.cache (G.cacheSet address) i,
      (M.openWay G (G.cacheSet address) = some i ∨ entry.address = address) →
        M.openWay G (G.cacheSet address) = some i ∧ entry.address = address
  | _ => True

instance Clean.decidable : ∀ c, Decidable (M.Clean G c)
  | .allocate address _ =>
    inferInstanceAs
      (Decidable (∀ i ∈ List.range G.cacheAssoc, ∀ entry ∈ M.cache (G.cacheSet address) i, _ → _))
  | .deallocate _ | .changePermission _ _ _ => isTrue trivial

/-! ## The index -/

/-- Every index leads to its entry, and every entry is indexed. -/
structure Indexed : Prop where
  entry_of_index : ∀ address way, M.tagIndex address = some way →
    ∃ entry, M.cache (G.cacheSet address) way = some entry ∧ entry.address = address
  index_of_entry : ∀ set way entry, M.cache set way = some entry →
    way < G.cacheAssoc ∧ set = G.cacheSet entry.address ∧ G.IsLine entry.address
      ∧ M.tagIndex entry.address = some way

variable {G M} {M' : CacheMemory} {address : ℕ}

section Lookup

theorem require_bind {p : Prop} [Decidable p] (hp : p) (f : Unit → Result α) :
    (require p >>= f) = f () := by
  rw [require, if_pos hp]
  rfl

theorem addressToCacheSet_bind (ha : G.IsLine address) (f : ℕ → Result α) :
    (addressToCacheSet G address >>= f) = f (G.cacheSet address) := by
  rw [addressToCacheSet, require_bind ha]
  rfl

variable (h : M.Indexed G)
include h

/-- The two answers of `findTagInSet`, and what they say about the set. -/
theorem Indexed.findTagInSet (ha : G.IsLine address) :
    (M.findTagInSet G (G.cacheSet address) address = .ok none
        ∧ ∀ set way entry, M.cache set way = some entry → entry.address = address →
        entry.isPresent = false)
      ∨ ∃ way entry, M.findTagInSet G (G.cacheSet address) address = .ok (some way)
        ∧ M.cache (G.cacheSet address) way = some entry ∧ entry.address = address
        ∧ entry.isPresent = true := by
  unfold CacheMemory.findTagInSet
  rw [require_bind ha]
  cases hway : M.tagIndex address with
  | none =>
    refine .inl ⟨rfl, fun set way entry hentry haddress => ?_⟩
    have hindex := (h.index_of_entry set way entry hentry).2.2.2
    rw [haddress, hway] at hindex
    cases hindex
  | some way =>
    rcases h.entry_of_index address way hway with ⟨entry, hentry, haddress⟩
    dsimp only
    rw [entryAt, hentry]
    by_cases hpresent : entry.permission = .NotPresent
    · refine .inl ⟨by simp [hpresent, bind, Except.bind, pure, Except.pure], ?_⟩
      intro set' way' entry' hentry' haddress'
      -- the other entry of the address has the same index, so it is the same entry
      rcases h.index_of_entry set' way' entry' hentry' with ⟨-, hset, -, hindex⟩
      rw [haddress'] at hset hindex
      have hsame : way = way' := Option.some.inj (hway.symm.trans hindex)
      subst hset hsame
      rw [hentry] at hentry'
      cases hentry'
      simp [CacheEntry.isPresent, hpresent]
    · exact .inr ⟨way, entry, by simp [hpresent, bind, Except.bind, pure, Except.pure], hentry,
        haddress, by simp [CacheEntry.isPresent, hpresent]⟩

theorem Indexed.lookup (ha : G.IsLine address) :
    (M.lookup G address = .ok none
        ∧ ∀ set way entry, M.cache set way = some entry → entry.address = address →
        entry.isPresent = false)
      ∨ ∃ way entry, M.lookup G address = .ok (some entry)
        ∧ M.cache (G.cacheSet address) way = some entry ∧ entry.address = address
        ∧ entry.isPresent = true := by
  unfold CacheMemory.lookup
  rw [require_bind ha, addressToCacheSet_bind ha]
  rcases h.findTagInSet ha with ⟨hfind, hnone⟩ | ⟨way, entry, hfind, hentry, hrest⟩
  · rw [hfind]
    exact .inl ⟨rfl, hnone⟩
  · rw [hfind]
    refine .inr ⟨way, entry, ?_, hentry, hrest⟩
    change Except.ok (M.cache (G.cacheSet address) way) = _
    rw [hentry]

theorem Indexed.isTagPresent (ha : G.IsLine address) :
    (M.isTagPresent G address = .ok false
        ∧ ∀ set way entry, M.cache set way = some entry → entry.address = address →
        entry.isPresent = false)
      ∨ M.isTagPresent G address = .ok true := by
  unfold CacheMemory.isTagPresent
  rw [addressToCacheSet_bind ha]
  rcases h.findTagInSet ha with ⟨hfind, hnone⟩ | ⟨way, entry, hfind, -⟩
  · rw [hfind]
    exact .inl ⟨rfl, hnone⟩
  · rw [hfind]
    exact .inr rfl

/-- The way that `allocate` takes: there is one when its assertions hold. -/
theorem Indexed.openWay (ha : G.IsLine address) (hpresent : M.isTagPresent G address = .ok false)
    (havail : M.cacheAvail G address = .ok true) :
    ∃ i, M.openWay G (G.cacheSet address) = some i := by
  unfold CacheMemory.cacheAvail at havail
  rw [addressToCacheSet_bind ha] at havail
  have hany := Except.ok.inj havail
  rcases List.any_eq_true.1 hany with ⟨i, hi, hentry⟩
  have hopen : isOpen (M.cache (G.cacheSet address) i) = true := by
    cases hcase : M.cache (G.cacheSet address) i with
    | none => rfl
    | some entry =>
      rw [hcase] at hentry
      rcases Bool.or_eq_true _ _ ▸ hentry with haddress | hpermission
      · -- an entry of the address that is present would have been found
        rcases h.isTagPresent ha with ⟨-, hnone⟩ | htrue
        · simpa [CacheEntry.isPresent, isOpen] using hnone _ i entry hcase (by simpa using haddress)
        · rw [hpresent] at htrue
          cases htrue
      · exact hpermission
  cases hfind : M.openWay G (G.cacheSet address) with
  | some i => exact ⟨i, rfl⟩
  | none => exact absurd hopen (List.find?_eq_none.1 hfind i hi)

theorem Indexed.allocate (address : ℕ) (entry : CacheEntry) :
    M.allocate G address entry = .error .assertion
      ∨ G.IsLine address ∧ ∃ i, M.openWay G (G.cacheSet address) = some i
        ∧ M.allocate G address entry = .ok
          { cache := M.setEntry (G.cacheSet address) i
              (some (placed (G.cacheSet address) i address entry))
            tagIndex := Function.update M.tagIndex address (some i) } := by
  unfold CacheMemory.allocate
  by_cases ha : G.IsLine address
  · rw [require_bind ha]
    rcases h.isTagPresent ha with ⟨hpresent, -⟩ | hpresent
    · rw [hpresent]
      cases havail : M.cacheAvail G address with
      | error e =>
        unfold CacheMemory.cacheAvail at havail
        rw [addressToCacheSet_bind ha] at havail
        cases havail
      | ok avail =>
        cases avail with
        | false => exact .inl rfl
        | true =>
          rcases h.openWay ha hpresent havail with ⟨i, hi⟩
          refine .inr ⟨ha, i, hi, ?_⟩
          rw [addressToCacheSet_bind ha, hi]
          rfl
    · rw [hpresent]
      exact .inl rfl
  · refine .inl ?_
    rw [require, if_neg ha]
    rfl

theorem Indexed.deallocate (hM : M.deallocate G address = .ok M') :
    ∃ way entry, M.cache (G.cacheSet address) way = some entry ∧ entry.address = address ∧ M' =
      { cache := M.setEntry (G.cacheSet address) way none
        tagIndex := Function.update M.tagIndex address none } := by
  unfold CacheMemory.deallocate at hM
  by_cases ha : G.IsLine address
  · rw [require_bind ha] at hM
    rcases h.findTagInSet ha with ⟨hfind, -⟩ | ⟨way, entry, hfind, hentry, haddress, -⟩
    · -- the assertion that the tag is present fails
      have hpresent : M.isTagPresent G address = .ok false := by
        unfold CacheMemory.isTagPresent
        rw [addressToCacheSet_bind ha, hfind]
        rfl
      rw [hpresent] at hM
      cases hM
    · have hpresent : M.isTagPresent G address = .ok true := by
        unfold CacheMemory.isTagPresent
        rw [addressToCacheSet_bind ha, hfind]
        rfl
      rw [hpresent] at hM
      rw [addressToCacheSet_bind ha, hfind] at hM
      exact ⟨way, entry, hentry, haddress, (Except.ok.inj hM).symm⟩
  · rw [require, if_neg ha] at hM
    cases hM

end Lookup

/-! ## Runs -/

theorem setEntry_apply (M : CacheMemory) (set way : ℕ) (entry : Option CacheEntry) (set' way' : ℕ) :
    M.setEntry set way entry set' way' = if set' = set ∧ way' = way then entry
    else M.cache set' way' := by
  unfold setEntry
  by_cases hset : set' = set
  · subst hset
    by_cases hway : way' = way
    · simp [hway]
    · simp [hway]
  · simp [hset]

theorem indexed_start : ({} : CacheMemory).Indexed G := by
  refine ⟨fun address way h => ?_, fun set way entry h => ?_⟩
  · cases h
  · cases h

theorem Indexed.consistent (h : M.Indexed G) : M.Consistent G := by
  refine ⟨fun address ha => ?_, fun set way entry hentry hpresent => ?_, ?_,
    fun address entry => ?_⟩
  · rcases h.lookup ha with ⟨hlookup, -⟩ | ⟨way, entry, hlookup, -, haddress, -⟩
    · exact ⟨none, hlookup, fun e he => by cases he⟩
    · refine ⟨some entry, hlookup, fun e he => ?_⟩
      cases he
      exact haddress
  · rcases h.index_of_entry set way entry hentry with ⟨-, hset, ha, hindex⟩
    rcases h.lookup ha with ⟨-, hnone⟩ | ⟨way', entry', hlookup, hentry', haddress', -⟩
    · have hfalse := hnone set way entry hentry rfl
      rw [hpresent] at hfalse
      cases hfalse
    · -- both entries have the index of the address
      have hindex' := (h.index_of_entry _ way' entry' hentry').2.2.2
      rw [haddress', hindex] at hindex'
      cases hindex'
      rw [← hset, hentry] at hentry'
      cases hentry'
      exact hlookup
  · intro set way way' entry entry' hentry hentry' _ _ hsame
    have hindex := (h.index_of_entry set way entry hentry).2.2.2
    have hindex' := (h.index_of_entry set way' entry' hentry').2.2.2
    rw [hsame, hindex'] at hindex
    exact (Option.some.inj hindex).symm
  · rcases h.allocate address entry with herror | ⟨-, i, -, hok⟩
    · rw [herror]
      exact fun hcontra => by cases hcontra
    · rw [hok]
      exact fun hcontra => by cases hcontra

/-- One place is replaced, together with the index of its address: the other entries keep theirs if
the place holds no entry but the one of the address. -/
theorem Indexed.replace (h : M.Indexed G) {i : ℕ} {x : Option CacheEntry}
    (hx : ∀ e ∈ x, e.address = address ∧ i < G.cacheAssoc ∧ G.IsLine address)
    (hold : ∀ way e, M.cache (G.cacheSet address) way = some e → (way = i ↔ e.address = address)) :
    Indexed G { M with
      cache := M.setEntry (G.cacheSet address) i x
      tagIndex := update M.tagIndex address (x.map fun _ => i) } := by
  refine ⟨fun a way hindex => ?_, fun set way e he => ?_⟩
  · dsimp only at hindex ⊢
    by_cases hsame : a = address
    · subst hsame
      rw [update_self] at hindex
      rcases Option.map_eq_some_iff.1 hindex with ⟨e, he, rfl⟩
      exact ⟨e, by rw [setEntry_apply, if_pos ⟨rfl, rfl⟩, he], (hx e he).1⟩
    · rw [update_of_ne hsame] at hindex
      rcases h.entry_of_index a way hindex with ⟨e, he, haddress⟩
      refine ⟨e, ?_, haddress⟩
      rw [setEntry_apply, if_neg ?_]
      · exact he
      · rintro ⟨hset, hway⟩
        rw [hset] at he
        exact hsame (haddress.symm.trans ((hold way e he).1 hway))
  · dsimp only at he ⊢
    rw [setEntry_apply] at he
    split at he
    case isTrue hplace =>
      rcases hx e he with ⟨haddress, hi, hline⟩
      rcases hplace with ⟨rfl, rfl⟩
      rw [haddress, update_self, he]
      exact ⟨hi, rfl, hline, rfl⟩
    case isFalse hplace =>
      rcases h.index_of_entry set way e he with ⟨hway, hset, hline, hindex⟩
      refine ⟨hway, hset, hline, ?_⟩
      rw [update_of_ne ?_]
      · exact hindex
      · intro haddress
        rw [haddress] at hset
        subst hset
        exact hplace ⟨rfl, (hold way e he).2 haddress⟩

/-- A new entry is indexed; an old index survives because its entry does. -/
theorem Indexed.allocate_step (h : M.Indexed G) {entry : CacheEntry}
    (hclean : M.Clean G (.allocate address entry)) (hM : M.allocate G address entry = .ok M') :
    M'.Indexed G := by
  rcases h.allocate address entry with herror | ⟨ha, i, hopen, hok⟩
  · rw [herror] at hM
    cases hM
  · rw [hok] at hM
    cases hM
    have hi : i < G.cacheAssoc := List.mem_range.1 (List.mem_of_find?_eq_some hopen)
    refine h.replace ?_ ?_
    · rintro _ ⟨⟩
      exact ⟨rfl, hi, ha⟩
    · intro way e he
      have hway := List.mem_range.2 (h.index_of_entry _ way e he).1
      constructor
      · rintro rfl
        exact (hclean way hway e he (.inl hopen)).2
      · intro haddress
        have hfirst := (hclean way hway e he (.inr haddress)).1
        exact Option.some.inj (hfirst.symm.trans hopen)

theorem Indexed.deallocate_step (h : M.Indexed G) (hM : M.deallocate G address = .ok M') :
    M'.Indexed G := by
  rcases h.deallocate hM with ⟨loc, old, hloc, hold, rfl⟩
  have hindex_loc := (h.index_of_entry _ loc old hloc).2.2.2
  rw [hold] at hindex_loc
  refine h.replace (fun _ he => by cases he) ?_
  intro way e he
  constructor
  · rintro rfl
    rw [hloc] at he
    cases he
    exact hold
  · intro haddress
    have hindex := (h.index_of_entry _ way e he).2.2.2
    rw [haddress, hindex_loc] at hindex
    exact (Option.some.inj hindex).symm

theorem Indexed.changePermission_step (h : M.Indexed G) {set way : ℕ} {old : CacheEntry}
    (hold : M.cache set way = some old) (newPerm : AccessPermission) :
    Indexed G { M with cache := M.setEntry set way (some (old.changePermission newPerm)) } := by
  refine ⟨fun a way' hindex => ?_, fun set' way' e he => ?_⟩
  · rcases h.entry_of_index a way' hindex with ⟨e, he, haddress⟩
    dsimp only
    rw [setEntry_apply]
    split
    case isTrue hplace =>
      rw [hplace.1, hplace.2, hold] at he
      cases he
      exact ⟨_, rfl, haddress⟩
    case isFalse => exact ⟨e, he, haddress⟩
  · dsimp only at he
    rw [setEntry_apply] at he
    split at he
    case isTrue hplace =>
      rcases hplace with ⟨rfl, rfl⟩
      cases he
      exact h.index_of_entry set' way' old hold
    case isFalse => exact h.index_of_entry set' way' e he

theorem Indexed.step {c : Call} (h : M.Indexed G) (hclean : M.Clean G c)
    (hM : M.step G c = some M') : M'.Indexed G := by
  have hcall : M.call G c = .ok M' := by
    unfold CacheMemory.step at hM
    cases hresult : M.call G c with
    | error e =>
      rw [hresult] at hM
      cases hM
    | ok M'' =>
      rw [hresult] at hM
      cases hM
      rfl
  cases c with
  | allocate address entry => exact h.allocate_step hclean hcall
  | deallocate address => exact h.deallocate_step hcall
  | changePermission set way newPerm =>
    change (M.entryAt set way >>= _) = _ at hcall
    cases hold : M.cache set way with
    | none =>
      rw [entryAt, hold] at hcall
      cases hcall
    | some old =>
      rw [entryAt, hold] at hcall
      cases hcall
      exact h.changePermission_step hold newPerm

/-- In every run in which each `allocate` takes an empty way, or the way of the old entry of its own
address, the index and the array agree. -/
theorem tagIndex_consistent (G : CacheGeometry) (calls : List Call)
    (hclean : Throughout (CacheMemory.step G) (CacheMemory.Clean G) {} calls) :
    Always (CacheMemory.step G) (Consistent G) {} calls := by
  exact Always.of_throughout (fun _ => Indexed.consistent) (fun _ _ _ => Indexed.step) indexed_start
    hclean

/-- Four sets of two ways, with lines of 64 bytes. -/
def smallCache : CacheGeometry where
  cacheAssoc := 2
  cacheNumSets := 4
  startIndexBit := 6
  blockSizeBits := 6
  numSets_gt := by decide

/-- An address that becomes `NotPresent` and is allocated again, beside another address of its
set. -/
theorem tagIndex_consistent_reallocated :
    Throughout (CacheMemory.step smallCache) (CacheMemory.Clean smallCache) {}
        [.allocate 0 {}, .allocate 256 {}, .changePermission 0 0 .NotPresent, .allocate 0 {},
          .changePermission 0 1 .Read_Write, .deallocate 256]
      ∧ Always (CacheMemory.step smallCache) (Consistent smallCache) {}
        [.allocate 0 {}, .allocate 256 {}, .changePermission 0 0 .NotPresent, .allocate 0 {},
          .changePermission 0 1 .Read_Write, .deallocate 256] :=
  ⟨by decide, tagIndex_consistent smallCache _ (by decide)⟩

/-- The entry of address 0 becomes `NotPresent`, and its way is given to address 256. A lookup of
address 0 then returns the entry of address 256. -/
theorem lookup_finds_other :
    (([.allocate 0 {}, .changePermission 0 0 .NotPresent, .allocate 256 {}] : List Call).foldlM
        (CacheMemory.step smallCache) {}).map (fun M => (M.lookup smallCache 0).toOption)
      = some (some (some { address := 256, permission := .Invalid })) := by
  decide

end CacheMemory
end EnocGem5.Ruby
