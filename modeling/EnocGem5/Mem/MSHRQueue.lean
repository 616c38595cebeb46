import EnocGem5.Lib.NodeList
import EnocGem5.Lib.Run

/-!
# MSHRQueue — the lists and counters of the miss queue

`MSHRQueue` keeps its entries on three lists: the free ones, the allocated ones, and the allocated
ones that were not sent downstream yet, ordered by their ready time. An entry keeps iterators to its
nodes on the last two. Entries are numbers; a call is `none` where an assertion fails or an iterator
does not denote a node.
-/

namespace EnocGem5.Mem

open Lib List Option Function NodeList

/-! ## The queue -/

/-- The part of `MSHR` that the queue reads and writes; `numTargets` is `getNumTargets()`. -/
structure QueueEntry where
  readyTime : ℕ := 0
  inService : Bool := false
  numTargets : ℕ := 0
  readyIter : Option ℕ := none
  allocIter : Option ℕ := none
  deriving DecidableEq, Repr

structure MSHRQueue where
  numEntries : ℕ
  entries : ℕ → QueueEntry := fun _ => {}
  allocatedList : NodeList ℕ := {}
  readyList : NodeList ℕ := {}
  freeList : List ℕ
  numInService : ℤ := 0
  allocated : ℤ := 0

namespace MSHRQueue

def create (numEntries reserve : ℕ) : MSHRQueue :=
  { numEntries := numEntries + reserve, freeList := List.range (numEntries + reserve) }

variable (Q : MSHRQueue) {n : ℤ} {β : Type}

def put (mshr : ℕ) (entry : QueueEntry) : MSHRQueue :=
  { Q with entries := Function.update Q.entries mshr entry }

/-- The nodes of the ready list that `addToReadyList` passes over. -/
def passed (readyTime : ℕ) : List (ℕ × ℕ) :=
  Q.readyList.nodes.takeWhile fun i => !(readyTime < (Q.entries i.2).readyTime)

/-- Where `addToReadyList` inserts an entry with the given ready time. -/
def readyPosition (readyTime : ℕ) : Option ℕ :=
  match Q.readyList.nodes.getLast? with
  | none => some 0
  | some back =>
    if (Q.entries back.2).readyTime ≤ readyTime then some Q.readyList.nodes.length
    -- the search reaches the end only if the last assertion fails
    else if (Q.passed readyTime).length < Q.readyList.nodes.length then
      some (Q.passed readyTime).length
    else none

/-- `addToReadyList`, with the assignment of its result to `readyIter`. -/
def addToReadyList (mshr : ℕ) : Option MSHRQueue :=
  (Q.readyPosition (Q.entries mshr).readyTime).map fun position =>
    { Q with readyList := Q.readyList.insertAt position mshr }.put mshr
      { Q.entries mshr with readyIter := some Q.readyList.next }

/-- `readyList.erase(mshr->readyIter)`. -/
def eraseReady (mshr : ℕ) : Option MSHRQueue :=
  (Q.entries mshr).readyIter.bind fun it =>
    (Q.readyList.erase it).map fun L => { Q with readyList := L }

def allocate (whenReady : ℕ) : Option MSHRQueue :=
  match Q.freeList with
  | [] => none
  | mshr :: rest =>
    if (Q.entries mshr).numTargets = 0 then
      let entry := { Q.entries mshr with
        readyTime := whenReady
        inService := false
        numTargets := 1
        allocIter := some Q.allocatedList.next }
      let Q := { Q with
        freeList := rest
        allocatedList := Q.allocatedList.insertAt Q.allocatedList.values.length mshr }.put mshr
          entry
      (Q.addToReadyList mshr).map fun Q => { Q with allocated := Q.allocated + 1 }
    else none

def moveToFront (mshr : ℕ) : Option MSHRQueue :=
  if (Q.entries mshr).inService then some Q
  else if (Q.entries mshr).readyIter.bind Q.readyList.get? = some mshr then
    (Q.eraseReady mshr).map fun Q =>
      { Q with readyList := Q.readyList.insertAt 0 mshr }.put mshr
        { Q.entries mshr with readyIter := some Q.readyList.next }
  else none

def markInService (mshr : ℕ) : Option MSHRQueue :=
  if (Q.entries mshr).inService then none
  else
    ((Q.put mshr { Q.entries mshr with inService := true }).eraseReady mshr).map fun Q =>
      { Q with numInService := Q.numInService + 1 }

def markPending (mshr : ℕ) : Option MSHRQueue :=
  if (Q.entries mshr).inService then
    let Q := Q.put mshr { Q.entries mshr with inService := false }
    { Q with numInService := Q.numInService - 1 }.addToReadyList mshr
  else none

def deallocate (mshr : ℕ) : Option MSHRQueue :=
  (Q.entries mshr).allocIter.bind fun it =>
    (Q.allocatedList.erase it).bind fun L =>
      let Q := { Q with
        allocatedList := L
        freeList := mshr :: Q.freeList
        allocated := Q.allocated - 1 }
      let removed := if (Q.entries mshr).inService then
        some { Q with numInService := Q.numInService - 1 } else Q.eraseReady mshr
      removed.bind fun Q =>
        -- `MSHR::deallocate` asserts that no target is left
        if (Q.entries mshr).numTargets = 0 then
          some (Q.put mshr { Q.entries mshr with inService := false })
        else none

/-! ## Calls -/

/-- A call to the queue, or what the cache does to an entry in between: it adds and removes targets,
and the promotion of deferred targets sets the ready time of an entry in service. -/
inductive Call
  | allocate (whenReady : ℕ)
  | markInService (mshr : ℕ)
  | markPending (mshr : ℕ)
  | moveToFront (mshr : ℕ)
  | deallocate (mshr : ℕ)
  | setTargets (mshr numTargets : ℕ)
  | promote (mshr readyTime : ℕ)
  deriving DecidableEq, Repr

def step : Call → Option MSHRQueue
  | .allocate whenReady => Q.allocate whenReady
  | .markInService mshr => Q.markInService mshr
  | .markPending mshr => Q.markPending mshr
  | .moveToFront mshr => Q.moveToFront mshr
  | .deallocate mshr => Q.deallocate mshr
  | .setTargets mshr n => some (Q.put mshr { Q.entries mshr with numTargets := n })
  | .promote mshr readyTime =>
    if (Q.entries mshr).inService then
      some (Q.put mshr { Q.entries mshr with readyTime := readyTime })
    else none

/-! ## The invariant -/

structure Inv (Q : MSHRQueue) : Prop where
  perm : (Q.freeList ++ Q.allocatedList.values).Perm (List.range Q.numEntries)
  allocTracks : Q.allocatedList.Tracks fun e => (Q.entries e).allocIter
  readyTracks : Q.readyList.Tracks fun e => (Q.entries e).readyIter
  ready_iff : ∀ e, e ∈ Q.readyList.values ↔
    e ∈ Q.allocatedList.values ∧ (Q.entries e).inService = false
  service_mem : ∀ e, (Q.entries e).inService = true → e ∈ Q.allocatedList.values
  allocated_eq : Q.allocated = Q.allocatedList.values.length
  inService_eq : Q.numInService = Q.allocatedList.values.length - Q.readyList.values.length

theorem inv_create (numEntries reserve : ℕ) : (create numEntries reserve).Inv where
  perm := by simp [create, values]
  allocTracks := tracks_empty
  readyTracks := tracks_empty
  ready_iff := by simp [create, values]
  service_mem := by simp [create]
  allocated_eq := by simp [create, values]
  inService_eq := by simp [create, values]

variable {L : NodeList ℕ} {Q Q' : MSHRQueue} {mshr e k it : ℕ} {entry : QueueEntry} {c : Call}

theorem put_self (Q : MSHRQueue) (mshr : ℕ) (entry : QueueEntry) :
    (Q.put mshr entry).entries mshr = entry :=
  update_self ..

theorem put_of_ne (h : e ≠ mshr) : (Q.put mshr entry).entries e = Q.entries e :=
  update_of_ne h ..

/-- Reading one field of the entries after a write of one entry. -/
theorem put_field (f : QueueEntry → β) (e : ℕ) :
    f ((Q.put mshr entry).entries e) =
      update (fun e => f (Q.entries e)) mshr (f entry) e :=
  apply_update (fun _ => f) Q.entries mshr entry e

theorem put_field_same (f : QueueEntry → β) (hf : f entry = f (Q.entries mshr)) (e : ℕ) :
    f ((Q.put mshr entry).entries e) = f (Q.entries e) := by
  by_cases h : e = mshr
  · subst h
    rw [put_self, hf]
  · rw [put_of_ne h]

theorem Inv.not_mem_free (hQ : Q.Inv) (he : e ∈ Q.freeList) : e ∉ Q.allocatedList.values := by
  have hnodup : (Q.freeList ++ Q.allocatedList.values).Nodup :=
    hQ.perm.nodup_iff.2 nodup_range
  exact fun hmem => (nodup_append.1 hnodup).2.2 e he e hmem rfl

/-- A write that keeps the iterators and the service flag keeps the invariant. -/
theorem Inv.put (hQ : Q.Inv) (halloc : entry.allocIter = (Q.entries mshr).allocIter)
    (hready : entry.readyIter = (Q.entries mshr).readyIter)
    (hservice : entry.inService = (Q.entries mshr).inService) : (Q.put mshr entry).Inv where
  __ := hQ
  allocTracks := hQ.allocTracks.congr (put_field_same _ halloc)
  readyTracks := hQ.readyTracks.congr (put_field_same _ hready)
  ready_iff := by
    intro e
    rw [put_field_same QueueEntry.inService hservice]
    exact hQ.ready_iff e
  service_mem := by
    intro e he
    rw [put_field_same QueueEntry.inService hservice] at he
    exact hQ.service_mem e he

theorem length_insertAt : (L.insertAt k e).values.length = L.values.length + 1 :=
  (values_insertAt_perm L k e).length_eq

theorem mem_values_insertAt {x : ℕ} : x ∈ (L.insertAt k e).values ↔ x = e ∨ x ∈ L.values := by
  rw [(values_insertAt_perm L k e).mem_iff, mem_cons]

/-! ## One call -/

/-- The invariant up to the ready list, on which the allocated entry `e` is missing. -/
structure Unlisted (Q : MSHRQueue) (e : ℕ) : Prop where
  perm : (Q.freeList ++ Q.allocatedList.values).Perm (List.range Q.numEntries)
  allocTracks : Q.allocatedList.Tracks fun e => (Q.entries e).allocIter
  readyTracks : Q.readyList.Tracks fun e => (Q.entries e).readyIter
  mem : e ∈ Q.allocatedList.values
  idle : (Q.entries e).inService = false
  ready_iff : ∀ x, x ∈ Q.readyList.values ↔
    x ∈ Q.allocatedList.values ∧ (Q.entries x).inService = false ∧ x ≠ e
  service_mem : ∀ x, (Q.entries x).inService = true → x ∈ Q.allocatedList.values
  inService_eq : Q.numInService = Q.allocatedList.values.length - Q.readyList.values.length - 1

variable (Q) in
/-- The entry is put on the ready list, at position `k`. -/
def list (k e : ℕ) : MSHRQueue :=
  { Q with readyList := Q.readyList.insertAt k e }.put e
    { Q.entries e with readyIter := some Q.readyList.next }

section Calls

theorem list_field (f : QueueEntry → β)
    (hf : f { Q.entries e with readyIter := some Q.readyList.next } = f (Q.entries e)) (x : ℕ) :
    f ((Q.list k e).entries x) = f (Q.entries x) :=
  put_field_same (Q := { Q with readyList := Q.readyList.insertAt k e }) f hf x

theorem Unlisted.list (hQ : Q.Unlisted e) (k : ℕ)
    (hn : n = Q.allocatedList.values.length) : Inv { Q.list k e with allocated := n } where
  perm := hQ.perm
  allocTracks := hQ.allocTracks.congr (list_field _ rfl)
  readyTracks := by
    have hnot : e ∉ Q.readyList.values := fun hmem => ((hQ.ready_iff e).1 hmem).2.2 rfl
    exact (hQ.readyTracks.insertAt k hnot).congr
      (put_field (Q := { Q with readyList := Q.readyList.insertAt k e }) QueueEntry.readyIter)
  ready_iff := by
    intro x
    show x ∈ (Q.readyList.insertAt k e).values ↔
      x ∈ Q.allocatedList.values ∧ ((Q.list k e).entries x).inService = false
    rw [list_field QueueEntry.inService rfl, mem_values_insertAt, hQ.ready_iff]
    constructor
    · rintro (rfl | ⟨hmem, hidle, _⟩)
      · exact ⟨hQ.mem, hQ.idle⟩
      · exact ⟨hmem, hidle⟩
    · rintro ⟨hmem, hidle⟩
      by_cases hx : x = e
      · exact .inl hx
      · exact .inr ⟨hmem, hidle, hx⟩
  service_mem := by
    intro x hx
    rw [list_field QueueEntry.inService rfl] at hx
    exact hQ.service_mem x hx
  allocated_eq := hn
  inService_eq := by
    have hlength : (Q.list k e).readyList.values.length = Q.readyList.values.length + 1 :=
      length_insertAt
    have hcount := hQ.inService_eq
    show Q.numInService = (Q.allocatedList.values.length : ℤ) - (Q.list k e).readyList.values.length
    linarith

theorem addToReadyList_some (h : Q.addToReadyList e = some Q') :
    ∃ k, Q.readyPosition (Q.entries e).readyTime = some k ∧ Q' = Q.list k e := by
  rcases map_eq_some_iff.1 h with ⟨k, hk, rfl⟩
  exact ⟨k, hk, rfl⟩

theorem eraseReady_some (h : Q.eraseReady e = some Q') :
    ∃ it L, (Q.entries e).readyIter = some it ∧ Q.readyList.erase it = some L ∧
      Q' = { Q with readyList := L } := by
  rcases bind_eq_some_iff.1 h with ⟨it, hit, hmap⟩
  rcases map_eq_some_iff.1 hmap with ⟨L, hL, rfl⟩
  exact ⟨it, L, hit, hL, rfl⟩

/-- What the removal of an entry from the ready list does to the list. -/
theorem ready_erased (htracks : Q.readyList.Tracks fun e => (Q.entries e).readyIter)
    (hit : (Q.entries e).readyIter = some it) (hL : Q.readyList.erase it = some L) :
    e ∈ Q.readyList.values ∧ (∀ x, x ∈ L.values ↔ x ∈ Q.readyList.values ∧ x ≠ e) ∧
      Q.readyList.values.length = L.values.length + 1 := by
  have hnode := htracks.mem_of_erase hL hit
  refine ⟨mem_values.2 ⟨it, hnode⟩, fun x => htracks.mem_erase hL hit, ?_⟩
  exact (values_erase_perm hL hnode).length_eq

variable (hQ : Q.Inv)
include hQ

theorem inv_allocate {whenReady : ℕ} (h : Q.allocate whenReady = some Q') : Q'.Inv := by
  unfold allocate at h
  split at h
  case h_1 => cases h
  case h_2 mshr rest hfree =>
    rcases ite_none_right_eq_some.1 h with ⟨-, h⟩
    rcases map_eq_some_iff.1 h with ⟨Q'', hadd, rfl⟩
    rcases addToReadyList_some hadd with ⟨k, _, rfl⟩
    have hmem : mshr ∈ Q.freeList := hfree ▸ mem_cons_self
    have hnot := hQ.not_mem_free hmem
    have hnotReady : mshr ∉ Q.readyList.values := fun hr => hnot ((hQ.ready_iff _).1 hr).1
    refine Unlisted.list ?_ k ?_
    · refine ⟨?_, ?_, ?_, ?_, ?_, ?_, ?_, ?_⟩
      · -- the entry changes from one list to the other
        have hperm := values_insertAt_perm Q.allocatedList Q.allocatedList.values.length mshr
        refine ((Perm.append_left rest hperm).trans ?_).trans hQ.perm
        rw [hfree]
        exact perm_middle
      · exact (hQ.allocTracks.insertAt _ hnot).congr (put_field QueueEntry.allocIter)
      · exact hQ.readyTracks.congr (put_field_same QueueEntry.readyIter rfl)
      · exact mem_values_insertAt.2 (.inl rfl)
      · rw [put_self]
      · intro x
        by_cases hx : x = mshr
        · subst hx
          exact iff_of_false hnotReady (by simp)
        · rw [put_of_ne hx]
          refine (hQ.ready_iff x).trans ?_
          show _ ↔ x ∈ (Q.allocatedList.insertAt _ mshr).values ∧ _
          rw [mem_values_insertAt]
          simp [hx]
      · intro x hx
        refine mem_values_insertAt.2 ?_
        by_cases hxm : x = mshr
        · exact .inl hxm
        · rw [put_of_ne hxm] at hx
          exact .inr (hQ.service_mem x hx)
      · have hcount := hQ.inService_eq
        show Q.numInService = ((Q.allocatedList.insertAt _ mshr).values.length : ℤ) -
          Q.readyList.values.length - 1
        rw [length_insertAt]
        push_cast
        linarith
    · show Q.allocated + 1 = ((Q.allocatedList.insertAt _ mshr).values.length : ℤ)
      rw [length_insertAt, hQ.allocated_eq]
      rfl

theorem inv_markPending (h : Q.markPending e = some Q') : Q'.Inv := by
  rcases ite_none_right_eq_some.1 h with ⟨hservice, h⟩
  rcases addToReadyList_some h with ⟨k, _, rfl⟩
  have hmem := hQ.service_mem e hservice
  refine Unlisted.list (Q := { Q.put e { Q.entries e with inService := false } with
    numInService := Q.numInService - 1 }) ?_ k hQ.allocated_eq
  refine ⟨hQ.perm, hQ.allocTracks.congr (put_field_same QueueEntry.allocIter rfl),
    hQ.readyTracks.congr (put_field_same QueueEntry.readyIter rfl), hmem, ?_, ?_, ?_, ?_⟩
  · rw [put_self]
  · intro x
    show x ∈ Q.readyList.values ↔
      x ∈ Q.allocatedList.values ∧ ((Q.put e _).entries x).inService = false ∧ x ≠ e
    rw [hQ.ready_iff]
    by_cases hx : x = e
    · subst hx
      simp [hservice]
    · rw [put_of_ne hx]
      simp [hx]
  · intro x hx
    by_cases hxe : x = e
    · exact hxe ▸ hmem
    · rw [put_of_ne hxe] at hx
      exact hQ.service_mem x hx
  · have hcount := hQ.inService_eq
    show Q.numInService - 1 = (Q.allocatedList.values.length : ℤ) -
      Q.readyList.values.length - 1
    linarith

theorem inv_moveToFront (h : Q.moveToFront e = some Q') : Q'.Inv := by
  unfold moveToFront at h
  split at h
  case isTrue =>
    cases h
    exact hQ
  case isFalse hidle =>
    rcases ite_none_right_eq_some.1 h with ⟨-, h⟩
    rcases map_eq_some_iff.1 h with ⟨Q'', herase, rfl⟩
    rcases eraseReady_some herase with ⟨it, L, hit, hL, rfl⟩
    rcases ready_erased hQ.readyTracks hit hL with ⟨hready, hrest, hlength⟩
    refine Unlisted.list (Q := { Q with readyList := L }) ?_ 0 hQ.allocated_eq
    refine ⟨hQ.perm, hQ.allocTracks, hQ.readyTracks.erase hL, ((hQ.ready_iff e).1 hready).1,
      by simpa using hidle, ?_, hQ.service_mem, ?_⟩
    · intro x
      rw [hrest, hQ.ready_iff, and_assoc]
    · have hcount := hQ.inService_eq
      linarith

theorem inv_markInService (h : Q.markInService e = some Q') : Q'.Inv := by
  rcases ite_none_left_eq_some.1 h with ⟨-, h⟩
  rcases map_eq_some_iff.1 h with ⟨Q'', herase, rfl⟩
  rcases eraseReady_some herase with ⟨it, L, hit, hL, rfl⟩
  have hit : (Q.entries e).readyIter = some it := by rwa [put_self] at hit
  rcases ready_erased hQ.readyTracks hit hL with ⟨hready, hrest, hlength⟩
  refine ⟨hQ.perm, hQ.allocTracks.congr (put_field_same QueueEntry.allocIter rfl),
    (hQ.readyTracks.erase hL).congr (put_field_same QueueEntry.readyIter rfl), ?_, ?_,
    hQ.allocated_eq, ?_⟩
  · -- the entry leaves the list as it is marked
    intro x
    show x ∈ L.values ↔
      x ∈ Q.allocatedList.values ∧ ((Q.put e _).entries x).inService = false
    rw [hrest, hQ.ready_iff]
    by_cases hx : x = e
    · subst hx
      rw [put_self]
      simp
    · rw [put_of_ne hx]
      simp [hx]
  · intro x hx
    by_cases hxe : x = e
    · exact hxe ▸ ((hQ.ready_iff e).1 hready).1
    · rw [put_of_ne hxe] at hx
      exact hQ.service_mem x hx
  · have hcount := hQ.inService_eq
    show Q.numInService + 1 = (Q.allocatedList.values.length : ℤ) - L.values.length
    linarith

theorem inv_free {LA LR : NodeList ℕ}
    (hit : (Q.entries e).allocIter = some it) (hLA : Q.allocatedList.erase it = some LA)
    (hLR : LR.Tracks fun e => (Q.entries e).readyIter)
    (hmem : ∀ x, x ∈ LR.values ↔ x ∈ Q.readyList.values ∧ x ≠ e)
    (hn : n = LA.values.length - LR.values.length) :
    Inv ({ Q with
      allocatedList := LA
      readyList := LR
      freeList := e :: Q.freeList
      allocated := Q.allocated - 1
      numInService := n }.put e { Q.entries e with inService := false }) := by
  have hperm := values_erase_perm hLA (hQ.allocTracks.mem_of_erase hLA hit)
  have hrest : ∀ x, x ∈ LA.values ↔ x ∈ Q.allocatedList.values ∧ x ≠ e :=
    fun x => hQ.allocTracks.mem_erase hLA hit
  refine ⟨?_, (hQ.allocTracks.erase hLA).congr (put_field_same QueueEntry.allocIter rfl),
    hLR.congr (put_field_same QueueEntry.readyIter rfl), ?_, ?_, ?_, hn⟩
  · refine Perm.trans ?_ hQ.perm
    exact perm_middle.symm.trans (Perm.append_left Q.freeList hperm.symm)
  · intro x
    show x ∈ LR.values ↔ x ∈ LA.values ∧ ((MSHRQueue.put _ e _).entries x).inService = false
    rw [hmem, hrest, hQ.ready_iff]
    by_cases hx : x = e
    · simp [hx]
    · rw [put_of_ne hx]
      tauto
  · intro x hx
    by_cases hxe : x = e
    · subst hxe
      rw [put_self] at hx
      cases hx
    · rw [put_of_ne hxe] at hx
      exact (hrest x).2 ⟨hQ.service_mem x hx, hxe⟩
  · have hlength := hperm.length_eq
    show Q.allocated - 1 = (LA.values.length : ℤ)
    rw [hQ.allocated_eq, hlength, length_cons]
    push_cast
    linarith

theorem inv_deallocate (h : Q.deallocate e = some Q') : Q'.Inv := by
  rcases bind_eq_some_iff.1 h with ⟨it, hit, h⟩
  rcases bind_eq_some_iff.1 h with ⟨LA, hLA, h⟩
  rcases bind_eq_some_iff.1 h with ⟨Q'', hremoved, h⟩
  have hlengthA := (values_erase_perm hLA (hQ.allocTracks.mem_of_erase hLA hit)).length_eq
  rw [length_cons] at hlengthA
  have hcount := hQ.inService_eq
  split at hremoved
  case isTrue hservice =>
    -- an entry in service is not on the ready list
    cases hremoved
    rcases ite_none_right_eq_some.1 h with ⟨-, h⟩
    cases h
    refine inv_free hQ hit hLA hQ.readyTracks ?_ (by linarith)
    intro x
    refine ⟨fun hx => ⟨hx, ?_⟩, fun hx => hx.1⟩
    rintro rfl
    rw [((hQ.ready_iff x).1 hx).2] at hservice
    cases hservice
  case isFalse hidle =>
    rcases eraseReady_some hremoved with ⟨itR, LR, hitR, hLR, rfl⟩
    rcases ite_none_right_eq_some.1 h with ⟨-, h⟩
    cases h
    rcases ready_erased hQ.readyTracks hitR hLR with ⟨_, hrest, hlengthR⟩
    refine inv_free hQ hit hLA (hQ.readyTracks.erase hLR) hrest ?_
    linarith

theorem inv_step (h : Q.step c = some Q') : Q'.Inv := by
  cases c with
  | allocate whenReady => exact inv_allocate hQ h
  | markInService mshr => exact inv_markInService hQ h
  | markPending mshr => exact inv_markPending hQ h
  | moveToFront mshr => exact inv_moveToFront hQ h
  | deallocate mshr => exact inv_deallocate hQ h
  | setTargets mshr n =>
    cases h
    exact hQ.put rfl rfl rfl
  | promote mshr readyTime =>
    simp only [step] at h
    split at h
    · cases h
      exact hQ.put rfl rfl rfl
    · cases h

end Calls

/-! ## The order of the ready list -/

variable (Q) in
/-- The ready list is sorted by ready time; nodes with equal times are in the order of their
insertion, which is that of their identities. -/
def ReadySorted : Prop :=
  Q.readyList.nodes.Pairwise fun x y =>
    (Q.entries x.2).readyTime < (Q.entries y.2).readyTime ∨
      ((Q.entries x.2).readyTime = (Q.entries y.2).readyTime ∧ x.1 < y.1)

/-- Removing nodes, and changing the times of entries that are not on the list, keeps the order. -/
theorem ReadySorted.congr (hQ : Q.ReadySorted) (hsub : Q'.readyList.nodes.Sublist Q.readyList.nodes)
    (htime : ∀ x ∈ Q'.readyList.values, (Q'.entries x).readyTime = (Q.entries x).readyTime) :
    Q'.ReadySorted := by
  apply (List.Pairwise.sublist hsub hQ).imp_of_mem
  intro x y hx hy hxy
  rw [htime x.2 (mem_values.2 ⟨x.1, hx⟩), htime y.2 (mem_values.2 ⟨y.1, hy⟩)]
  exact hxy

theorem ReadySorted.le_last (hQ : Q.ReadySorted) {back x : ℕ × ℕ}
    (hback : Q.readyList.nodes.getLast? = some back) (hx : x ∈ Q.readyList.nodes) :
    (Q.entries x.2).readyTime ≤ (Q.entries back.2).readyTime := by
  rcases List.getLast?_eq_some_iff.1 hback with ⟨front, hsplit⟩
  unfold ReadySorted at hQ
  rw [hsplit] at hx hQ
  rcases mem_append.1 hx with hfront | hlast
  · have hbefore := (pairwise_append.1 hQ).2.2 x hfront back mem_cons_self
    omega
  · rw [mem_singleton.1 hlast]

section Search

variable {t : ℕ}

theorem passed_append : Q.passed t ++
    Q.readyList.nodes.dropWhile (fun i => !(t < (Q.entries i.2).readyTime)) = Q.readyList.nodes :=
  takeWhile_append_dropWhile

theorem take_passed : Q.readyList.nodes.take (Q.passed t).length = Q.passed t := by
  conv_lhs => rw [← passed_append (t := t)]
  exact take_left

theorem drop_passed : Q.readyList.nodes.drop (Q.passed t).length =
    Q.readyList.nodes.dropWhile fun i => !(t < (Q.entries i.2).readyTime) := by
  conv_lhs => rw [← passed_append (t := t)]
  exact drop_left

theorem le_of_mem_passed {x : ℕ × ℕ} (hx : x ∈ Q.passed t) : (Q.entries x.2).readyTime ≤ t := by
  simpa using mem_takeWhile_imp hx

/-- The node at which the search stops is later, and so are the ones after it. -/
theorem ReadySorted.lt_of_not_passed (hQ : Q.ReadySorted) {y : ℕ × ℕ}
    (hy : y ∈ Q.readyList.nodes.drop (Q.passed t).length) : t < (Q.entries y.2).readyTime := by
  have hsorted : (Q.readyList.nodes.drop (Q.passed t).length).Pairwise _ :=
    List.Pairwise.sublist (drop_sublist ..) hQ
  have hstop := head?_dropWhile_not
    (fun i : ℕ × ℕ => !(t < (Q.entries i.2).readyTime)) Q.readyList.nodes
  rw [← drop_passed] at hstop
  cases hrest : Q.readyList.nodes.drop (Q.passed t).length with
  | nil =>
    rw [hrest] at hy
    cases hy
  | cons z zs =>
    rw [hrest] at hy hsorted hstop
    have hz : t < (Q.entries z.2).readyTime := by simpa using hstop
    rcases mem_cons.1 hy with rfl | hy
    · exact hz
    · have hafter := (pairwise_cons.1 hsorted).1 y hy
      omega

/-- The search of `addToReadyList` ends between the entries that are not later and the later
ones. -/
theorem readyPosition_spec (hQ : Q.ReadySorted) (hk : Q.readyPosition t = some k) :
    (∀ x ∈ Q.readyList.nodes.take k, (Q.entries x.2).readyTime ≤ t) ∧
      ∀ y ∈ Q.readyList.nodes.drop k, t < (Q.entries y.2).readyTime := by
  unfold readyPosition at hk
  split at hk
  case h_1 hnone =>
    rw [getLast?_eq_none_iff] at hnone
    simp [hnone]
  case h_2 back hback =>
    split at hk
    case isTrue hle =>
      cases hk
      rw [take_length, drop_length]
      exact ⟨fun x hx => (hQ.le_last hback hx).trans hle, by simp⟩
    case isFalse =>
      rcases ite_none_right_eq_some.1 hk with ⟨-, hk⟩
      cases hk
      rw [take_passed]
      exact ⟨fun x hx => le_of_mem_passed hx, fun y hy => hQ.lt_of_not_passed hy⟩

end Search

theorem ReadySorted.list (hQ : Q.ReadySorted)
    (hk : Q.readyPosition (Q.entries e).readyTime = some k) : (Q.list k e).ReadySorted := by
  rcases readyPosition_spec hQ hk with ⟨hbefore, hafter⟩
  have htime : ∀ x, ((Q.list k e).entries x).readyTime = (Q.entries x).readyTime :=
    list_field QueueEntry.readyTime rfl
  unfold ReadySorted
  simp only [htime]
  have hsorted := hQ
  unfold ReadySorted at hsorted
  rw [← take_append_drop k Q.readyList.nodes] at hsorted
  rcases pairwise_append.1 hsorted with ⟨htake, hdrop, hcross⟩
  refine pairwise_append.2 ⟨htake, pairwise_cons.2 ⟨?_, hdrop⟩, ?_⟩
  · intro y hy
    exact .inl (hafter y hy)
  · intro x hx y hy
    rcases mem_cons.1 hy with rfl | hy
    · -- the new node has the greatest identity
      have hid := Q.readyList.below x (mem_of_mem_take hx)
      have hle := hbefore x hx
      simp only
      omega
    · exact hcross x hx y hy

theorem ReadySorted.same (hQ : Q.ReadySorted) (hready : Q'.readyList = Q.readyList)
    (htime : ∀ x, (Q'.entries x).readyTime = (Q.entries x).readyTime) : Q'.ReadySorted := by
  refine hQ.congr ?_ fun x _ => htime x
  rw [hready]

theorem ReadySorted.erase (hQ : Q.ReadySorted)
    (hL : Q.readyList.erase it = some L) (hready : Q'.readyList = L)
    (htime : ∀ x, (Q'.entries x).readyTime = (Q.entries x).readyTime) : Q'.ReadySorted := by
  refine hQ.congr ?_ fun x _ => htime x
  rw [hready, erase_nodes hL]
  exact filter_sublist

/-- Every call but `moveToFront` keeps the order. -/
theorem sorted_step (hQ : Q.Inv) (hs : Q.ReadySorted) (hc : ∀ mshr, c ≠ .moveToFront mshr)
    (h : Q.step c = some Q') : Q'.ReadySorted := by
  cases c with
  | allocate whenReady =>
    simp only [step, MSHRQueue.allocate] at h
    split at h
    case h_1 => cases h
    case h_2 mshr rest hfree =>
      rcases ite_none_right_eq_some.1 h with ⟨-, h⟩
      rcases map_eq_some_iff.1 h with ⟨Q'', hadd, rfl⟩
      rcases addToReadyList_some hadd with ⟨k, hk, rfl⟩
      refine ReadySorted.list (hs.congr (Sublist.refl _) ?_) hk
      -- the entry whose time is set was free
      intro x hx
      have hne : x ≠ mshr := by
        rintro rfl
        exact hQ.not_mem_free (hfree ▸ mem_cons_self) ((hQ.ready_iff x).1 hx).1
      rw [put_of_ne hne]
  | markInService mshr =>
    rcases ite_none_left_eq_some.1 h with ⟨-, h⟩
    rcases map_eq_some_iff.1 h with ⟨Q'', herase, rfl⟩
    rcases eraseReady_some herase with ⟨it, L, _, hL, rfl⟩
    exact hs.erase hL rfl (put_field_same QueueEntry.readyTime rfl)
  | markPending mshr =>
    rcases ite_none_right_eq_some.1 h with ⟨-, h⟩
    rcases addToReadyList_some h with ⟨k, hk, rfl⟩
    exact ReadySorted.list (hs.same rfl (put_field_same QueueEntry.readyTime rfl)) hk
  | moveToFront mshr => exact absurd rfl (hc mshr)
  | deallocate mshr =>
    rcases bind_eq_some_iff.1 h with ⟨itA, _, h⟩
    rcases bind_eq_some_iff.1 h with ⟨LA, _, h⟩
    rcases bind_eq_some_iff.1 h with ⟨Q'', hremoved, h⟩
    rcases ite_none_right_eq_some.1 h with ⟨-, h⟩
    cases h
    split at hremoved
    case isTrue =>
      cases hremoved
      exact hs.same rfl (put_field_same QueueEntry.readyTime rfl)
    case isFalse =>
      rcases eraseReady_some hremoved with ⟨it, L, _, hL, rfl⟩
      exact hs.erase hL rfl (put_field_same QueueEntry.readyTime rfl)
  | setTargets mshr n =>
    cases h
    exact hs.same rfl (put_field_same QueueEntry.readyTime rfl)
  | promote mshr readyTime =>
    rcases ite_none_right_eq_some.1 h with ⟨hservice, h⟩
    cases h
    refine hs.congr (Sublist.refl _) ?_
    -- an entry in service is not on the list
    intro x hx
    have hne : x ≠ mshr := by
      rintro rfl
      rw [((hQ.ready_iff x).1 hx).2] at hservice
      cases hservice
    rw [put_of_ne hne]

/-! ## Calls under their preconditions -/

variable (Q) in
/-- What a call asserts, and that it is about an allocated entry. -/
def Asserted : Call → Prop
  | .allocate _ => ∃ mshr ∈ Q.freeList.head?, (Q.entries mshr).numTargets = 0
  | .markInService mshr => mshr ∈ Q.allocatedList.values ∧ (Q.entries mshr).inService = false
  | .markPending mshr => (Q.entries mshr).inService = true
  | .moveToFront mshr => mshr ∈ Q.allocatedList.values
  | .deallocate mshr => mshr ∈ Q.allocatedList.values ∧ (Q.entries mshr).numTargets = 0
  | .setTargets .. => True
  | .promote mshr _ => (Q.entries mshr).inService = true

theorem readyPosition_isSome (Q : MSHRQueue) (t : ℕ) : ∃ k, Q.readyPosition t = some k := by
  unfold readyPosition
  split
  case h_1 => exact ⟨_, rfl⟩
  case h_2 back hback =>
    split
    case isTrue => exact ⟨_, rfl⟩
    case isFalse hgt =>
      have hlt : (Q.passed t).length < Q.readyList.nodes.length := by
        by_contra hge
        -- a search that passes over all nodes passes over the last one
        have hall : Q.passed t = Q.readyList.nodes :=
          Sublist.eq_of_length_le (takeWhile_sublist _) (not_lt.1 hge)
        have hmem : back ∈ Q.passed t := hall ▸ mem_of_getLast? hback
        exact hgt (le_of_mem_passed hmem)
      rw [if_pos hlt]
      exact ⟨_, rfl⟩

theorem addToReadyList_isSome (Q : MSHRQueue) (e : ℕ) : (Q.addToReadyList e).isSome = true := by
  rcases Q.readyPosition_isSome (Q.entries e).readyTime with ⟨k, hk⟩
  simp [addToReadyList, hk]

theorem eraseReady_isSome (h : Q.readyList.Tracks fun e => (Q.entries e).readyIter)
    (he : e ∈ Q.readyList.values) : (Q.eraseReady e).isSome = true := by
  rcases h.erase_some he with ⟨it, L, hit, hL⟩
  simp [eraseReady, hit, hL]

theorem step_isSome (hQ : Q.Inv) (hc : Q.Asserted c) : (Q.step c).isSome = true := by
  cases c with
  | allocate whenReady =>
    rcases hc with ⟨mshr, hhead, htargets⟩
    rcases List.head?_eq_some_iff.1 hhead with ⟨rest, hfree⟩
    simp [step, MSHRQueue.allocate, hfree, htargets, addToReadyList_isSome]
  | markInService mshr =>
    have hready := (hQ.ready_iff mshr).2 hc
    have htracks : Q.readyList.Tracks fun e =>
        ((Q.put mshr { Q.entries mshr with inService := true }).entries e).readyIter :=
      hQ.readyTracks.congr (put_field_same QueueEntry.readyIter rfl)
    have herase := eraseReady_isSome
      (Q := Q.put mshr { Q.entries mshr with inService := true }) htracks hready
    simpa [step, MSHRQueue.markInService, hc.2] using herase
  | markPending mshr =>
    have hc : (Q.entries mshr).inService = true := hc
    simp [step, MSHRQueue.markPending, hc, addToReadyList_isSome]
  | moveToFront mshr =>
    by_cases hservice : (Q.entries mshr).inService = true
    · simp [step, MSHRQueue.moveToFront, hservice]
    · have hready := (hQ.ready_iff mshr).2 ⟨hc, by simpa using hservice⟩
      rcases hQ.readyTracks.get? hready with ⟨it, hit, hget⟩
      have herase := eraseReady_isSome hQ.readyTracks hready
      simp [step, MSHRQueue.moveToFront, hservice, hit, hget, herase]
  | deallocate mshr =>
    rcases hQ.allocTracks.erase_some hc.1 with ⟨it, LA, hit, hLA⟩
    by_cases hservice : (Q.entries mshr).inService = true
    · simp [step, MSHRQueue.deallocate, hit, hLA, hservice, hc.2]
    · have hready := (hQ.ready_iff mshr).2 ⟨hc.1, by simpa using hservice⟩
      rcases hQ.readyTracks.erase_some hready with ⟨itR, LR, hitR, hLR⟩
      simp [step, MSHRQueue.deallocate, eraseReady, hit, hLA, hservice, hitR, hLR, hc.2]
  | setTargets mshr n => rfl
  | promote mshr readyTime =>
    have hc : (Q.entries mshr).inService = true := hc
    simp [step, hc]

/-! ## The bookkeeping over whole runs -/

/-- The lists, the iterators and the counters agree. -/
structure Sound (Q : MSHRQueue) : Prop where
  /-- Every entry is on one of the two lists, once. -/
  perm : (Q.freeList ++ Q.allocatedList.values).Perm (List.range Q.numEntries)
  ready_nodup : Q.readyList.values.Nodup
  ready_iff : ∀ e, e ∈ Q.readyList.values ↔
    e ∈ Q.allocatedList.values ∧ (Q.entries e).inService = false
  readyIter : ∀ e ∈ Q.readyList.values, (Q.entries e).readyIter.bind Q.readyList.get? = some e
  allocIter : ∀ e ∈ Q.allocatedList.values,
    (Q.entries e).allocIter.bind Q.allocatedList.get? = some e
  allocated_eq : Q.allocated = Q.allocatedList.values.length
  inService_eq : Q.numInService = (Q.allocatedList.values.filter (Q.entries · |>.inService)).length
  /-- A call whose precondition holds has a result. -/
  progress : ∀ c, Q.Asserted c → (Q.step c).isSome = true

/-- The ready list and the entries in service make up the allocated ones. -/
theorem Inv.length_eq (hQ : Q.Inv) : Q.allocatedList.values.length =
    Q.readyList.values.length + (Q.allocatedList.values.filter
    (Q.entries · |>.inService)).length := by
  have hready : Q.readyList.values.Perm
      (Q.allocatedList.values.filter fun e => !(Q.entries e).inService) := by
    apply (perm_ext_iff_of_nodup hQ.readyTracks.nodup (hQ.allocTracks.nodup.filter _)).2
    intro e
    rw [hQ.ready_iff, mem_filter]
    simp
  have hsplit := filter_append_perm (Q.entries · |>.inService) Q.allocatedList.values
  calc Q.allocatedList.values.length
      = (Q.allocatedList.values.filter (Q.entries · |>.inService)).length +
          (Q.allocatedList.values.filter fun e => !(Q.entries e).inService).length := by
        rw [← hsplit.length_eq, length_append]
    _ = (Q.allocatedList.values.filter (Q.entries · |>.inService)).length +
          Q.readyList.values.length := by rw [hready.length_eq]
    _ = _ := Nat.add_comm ..

theorem Inv.sound (hQ : Q.Inv) : Q.Sound where
  __ := hQ
  ready_nodup := hQ.readyTracks.nodup
  readyIter := by
    intro e he
    rcases hQ.readyTracks.get? he with ⟨it, hit, hget⟩
    rw [hit, bind_some, hget]
  allocIter := by
    intro e he
    rcases hQ.allocTracks.get? he with ⟨it, hit, hget⟩
    rw [hit, bind_some, hget]
  inService_eq := by
    rw [hQ.inService_eq, hQ.length_eq]
    push_cast
    linarith
  progress := fun _ hc => step_isSome hQ hc

/-- The order needs the invariant: a call may change the time of an entry that is on no ready
list. -/
structure Ordered (Q : MSHRQueue) : Prop where
  inv : Q.Inv
  sorted : Q.ReadySorted

/-- The lists, iterators and counters agree in every state that a sequence of calls reaches, and
without `moveToFront` the ready list is sorted in every one of them. -/
theorem queue_bookkeeping (numEntries reserve : ℕ) (calls : List Call) :
    Always step Sound (create numEntries reserve) calls ∧
      ((∀ mshr, .moveToFront mshr ∉ calls) →
        Always step ReadySorted (create numEntries reserve) calls) := by
  constructor
  · exact Always.of_invariant (fun _ hQ => hQ.sound) (fun _ _ _ hQ h => inv_step hQ h)
      (inv_create numEntries reserve)
  · intro hcalls
    have hstart : (create numEntries reserve).Ordered :=
      ⟨inv_create numEntries reserve, List.Pairwise.nil⟩
    have hguard : Throughout step (fun _ c => ∀ mshr, c ≠ .moveToFront mshr)
        (create numEntries reserve) calls := by
      apply Throughout.of_forall_mem
      intro c hc _ mshr heq
      exact hcalls mshr (heq ▸ hc)
    refine Always.of_throughout (fun _ hQ => hQ.sorted) ?_ hstart hguard
    intro Q c Q' hQ hc h
    exact ⟨inv_step hQ.inv h, sorted_step hQ.inv hQ.sorted hc h⟩

/-- Three misses, of which the second is ready first and is sent. -/
theorem queue_bookkeeping_threeMisses :
    ([.allocate 5, .allocate 3, .allocate 5, .markInService 1].foldlM step (create 2 1)).map
        (·.readyList.values) = some [0, 2] ∧
      Always step ReadySorted (create 2 1)
        [.allocate 5, .allocate 3, .allocate 5, .markInService 1] :=
  ⟨by decide, (queue_bookkeeping 2 1 _).2 (by simp)⟩

end MSHRQueue

end EnocGem5.Mem
