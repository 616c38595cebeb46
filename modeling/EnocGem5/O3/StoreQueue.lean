import EnocGem5.Lib.Run
import EnocGem5.O3.LSQUnit

/-!
# StoreQueue — every committed store is written back once, in program order

The store side of `LSQUnit` as an unbounded queue. A session keeps, beside the unit, the stores in
program order: those in the queue and those that have left it. Store `p` of the program lives in the
slot `p % SQEntries`, see `Lib.Ring`; the head, the write-back index and the tail are positions
`h ≤ w ≤ t` of the program.

* `Ring` is what the array, its three indices and the two counters say about the program.
* `Sending` is what the four fields for packets that wait say about the store at `w`: nothing waits,
  a packet waits for the retry, or the second half waits for a port.
-/

namespace EnocGem5.O3.LSQ

open Lib List Option Function Bool Nat

/-! ## Stores and sessions -/

/-- A store of the program: its instruction as `insertStore` left it, what it wrote when it
executed, and whether it may be written back. -/
structure Store where
  inst : DynInst
  access : Option Write := none
  canWB : Bool := false
  deriving DecidableEq, Repr

namespace Store

variable (cfg : Config) (s : Store)

/-- The store after `executeStore`; a store conditional may be written back at once. -/
def execute : LSQUnit.StoreAcc → Store
  | .write w =>
    { s with
      access := some w
      canWB := s.canWB || (s.inst.isStoreConditional && w.req.size % 256 ≠ 0) }
  | _ => s

def commit (youngest : ℕ) (s : Store) : Store :=
  if s.inst.seqNum ≤ youngest then { s with canWB := true } else s

/-- Squashed by a squash of what is younger than `n`. -/
def isSquashed (n : ℕ) (s : Store) : Bool := s.inst.seqNum > n && !s.canWB

def slot : ℕ := s.inst.sqIdx.getD 0

/-- The bytes that a write leaves in memory. -/
def bytes (w : Write) : List UInt8 := (LSQUnit.written cfg {} w).bytes 0 w.req.size

/-- The packets of a write, two for a split one; an internal register is not in memory. -/
def writePackets (w : Write) : List Packet :=
  let bytes := bytes cfg w
  match cfg.hasUnalignedMemAcc, w.sreqLow, w.sreqHigh with
  | true, some low, some high =>
    if low.isMmappedIpr then []
    else [LSQUnit.lowPacket s.inst s.slot low bytes,
      LSQUnit.highPacket s.inst s.slot low high bytes]
  | _, _, _ => if w.req.isMmappedIpr then [] else [LSQUnit.wholePacket s.inst s.slot w.req bytes]

/-- The packets that a store has for memory: none if it has written nothing, is a prefetch or a
store conditional that fails. -/
def packets : List Packet :=
  match s.access with
  | none => []
  | some w =>
    if w.req.size % 256 = 0 || s.inst.isDataPrefetch ||
        (s.inst.isStoreConditional && !s.inst.lockedWrite) then
      []
    else s.writePackets cfg w

end Store

open Store

/-- A write as instructions make it: it fits into an entry or clears a block (of 64 bytes), it has
both halves or none, and a store conditional is neither split nor a write to an internal
register. -/
structure Write.Valid (cfg : Config) (inst : DynInst) (w : Write) : Prop where
  fits : w.req.size ≤ 16 ∨ (w.req.cacheBlockZero = true ∧ w.req.size < 256)
  halves : w.sreqLow.isSome = w.sreqHigh.isSome
  aligned : cfg.hasUnalignedMemAcc = false → w.sreqLow = none
  ipr : w.sreqLow.any (·.isMmappedIpr) = true → w.sreqHigh.any (·.isMmappedIpr) = true
  conditional : inst.isStoreConditional = true → w.sreqLow = none ∧ w.req.isMmappedIpr = false

instance (cfg : Config) (inst : DynInst) (w : Write) : Decidable (w.Valid cfg inst) :=
  decidable_of_iff (_ ∧ _ ∧ _ ∧ _ ∧ _)
    ⟨fun h => ⟨h.1, h.2.1, h.2.2.1, h.2.2.2.1, h.2.2.2.2⟩,
      fun h => ⟨h.fits, h.halves, h.aligned, h.ipr, h.conditional⟩⟩

inductive StoreCall
  | insertStore (inst : DynInst)
  | executeStore (p : ℕ) (acc : LSQUnit.StoreAcc)
  | commitStores (youngest : ℕ)
  | writebackStores (answers : List Bool)
  | recvRetry (answers : List Bool)
  | completeStore (k : ℕ)
  | squash (n : ℕ)
  deriving DecidableEq, Repr

/-- The unit with its history: the stores in program order, those that were squashed, and the
sequence numbers of those that have been completed by a response. -/
structure Session where
  unit : LSQUnit := {}
  program : List Store := []
  squashed : List Store := []
  answered : List ℕ := []

namespace Session

variable (cfg : Config)

/-- `executeStore` is called for a store of the program, `completeStore` for the response to a
packet. The port gives the answers of the call and refuses what comes after them. -/
def step (S : Session) : StoreCall → Option Session
  | .insertStore inst =>
    (S.unit.insertStore cfg inst).map fun U =>
      { S with unit := U, program := S.program ++ [{ inst := S.unit.placed inst }] }
  | .executeStore p acc =>
    S.program[p]?.bind fun s =>
      (S.unit.executeStore cfg s.slot acc).map fun U =>
        { S with unit := U, program := S.program.set p (s.execute acc) }
  | .commitStores youngest =>
    (S.unit.commitStores cfg youngest).map fun U =>
      { S with unit := U, program := S.program.map (commit youngest) }
  | .writebackStores answers =>
    ({ S.unit with answers := answers }.writebackStores cfg).map fun U => { S with unit := U }
  | .recvRetry answers =>
    ({ S.unit with answers := answers }.recvRetry cfg).map fun U => { S with unit := U }
  | .completeStore k =>
    S.unit.sent[k]?.bind fun pkt =>
      (S.unit.completeStore cfg pkt.idx).map fun U =>
        { S with unit := U, answered := pkt.seqNum :: S.answered }
  | .squash n =>
    (S.unit.squash cfg n).map fun U =>
      { S with
        unit := U
        program := S.program.rdropWhile (isSquashed n)
        squashed := S.squashed ++ S.program.rtakeWhile (isSquashed n) }

/-- What the callers promise: a store is inserted if the queue is not full, in the order of sequence
numbers; it executes once and before it commits; `completeStore` is called once for a store, after
its last packet was accepted. -/
def Allowed (S : Session) : StoreCall → Prop
  | .insertStore inst =>
    S.unit.stores < cfg.sqEntries - 1 ∧ inst.memData = none
      ∧ ∀ s ∈ S.program, s.inst.seqNum < inst.seqNum
  | .executeStore p acc =>
    ∃ s ∈ S.program[p]?, s.access = none ∧ s.canWB = false ∧ ∀ w ∈ acc.write?, w.Valid cfg s.inst
  | .completeStore k => ∃ pkt ∈ S.unit.sent[k]?, pkt.part ≠ .low ∧ pkt.seqNum ∉ S.answered
  | _ => True

instance (S : Session) : ∀ c : StoreCall, Decidable (S.Allowed cfg c)
  | .insertStore _ => inferInstanceAs (Decidable (_ ∧ _ ∧ ∀ s ∈ S.program, _))
  | .executeStore p acc => inferInstanceAs
    (Decidable (∃ s ∈ S.program[p]?, _ ∧ _ ∧ ∀ w ∈ acc.write?, _))
  | .completeStore k => inferInstanceAs (Decidable (∃ pkt ∈ S.unit.sent[k]?, _ ∧ _))
  | .commitStores _ | .writebackStores _ | .recvRetry _ | .squash _ => isTrue trivial

end Session

/-! ## The array and the program -/

/-- What `Ring` reads of a unit. -/
structure StoreRing where
  queue : ℕ → SQEntry
  head : ℕ
  tail : ℕ
  stores : ℤ
  storesToWB : ℤ

def LSQUnit.ring (U : LSQUnit) : StoreRing where
  queue := U.storeQueue
  head := U.storeHead
  tail := U.storeTail
  stores := U.stores
  storesToWB := U.storesToWB

/-- Able to be written back and not completed. -/
def SQEntry.waiting (e : SQEntry) : Bool := e.canWB && !e.completed

namespace Store

variable (cfg : Config)

def dynInst (s : Store) (committed : Bool) : DynInst :=
  match s.access with
  | none => s.inst
  | some w => { s.inst.access w.req with memData := if committed then some (bytes cfg w) else none }

def entry (s : Store) (committed completed : Bool) : SQEntry :=
  { (match s.access with
      | none => ({} : SQEntry)
      | some w => LSQUnit.written cfg {} w) with
    inst := some (s.dynInst cfg committed)
    canWB := s.canWB
    committed := committed
    completed := completed }

end Store

namespace Store

variable {cfg : Config} {s : Store} {w : Write} {c d : Bool}

theorem dynInst_eq (h : s.access = some w) :
    s.dynInst cfg c =
    { s.inst.access w.req with memData := if c then some (bytes cfg w) else none } := by
  rw [dynInst, h]

theorem dynInst_seqNum (s : Store) (cfg : Config) (c : Bool) :
    (s.dynInst cfg c).seqNum = s.inst.seqNum := by
  unfold dynInst
  split <;> rfl

theorem entry_eq (h : s.access = some w) :
    s.entry cfg c d
      = { LSQUnit.written cfg {} w with
          inst := some (s.dynInst cfg c)
          canWB := s.canWB
          committed := c
          completed := d } := by
  rw [entry, h]

theorem entry_size_of_none (h : s.access = none) : (s.entry cfg c d).size = 0 := by
  rw [entry, h]

theorem entry_isSplit (h : s.access = some w) :
    (s.entry cfg c d).isSplit = (cfg.hasUnalignedMemAcc && w.sreqLow.isSome) := by
  rw [entry_eq h]
  exact or_false _

theorem commit_of_canWB (h : s.canWB = true) (youngest : ℕ) : s.commit youngest = s := by
  rcases s with ⟨inst, access, canWB⟩
  cases h
  unfold commit
  split <;> rfl

theorem packets_of_none (h : s.access = none) : s.packets cfg = [] := by
  rw [packets, h]

theorem packets_of_write (h : s.access = some w) (hsize : w.req.size % 256 ≠ 0)
    (hprefetch : s.inst.isDataPrefetch = false)
    (hlocked : s.inst.isStoreConditional = true → s.inst.lockedWrite = true) :
    s.packets cfg = s.writePackets cfg w := by
  have hcond : (s.inst.isStoreConditional && !s.inst.lockedWrite) = false := by
    cases hsc : s.inst.isStoreConditional with
    | false => rfl
    | true => simp [hlocked hsc]
  simp [packets, h, hsize, hprefetch, hcond]

end Store

/-- The array holds the program from position `h` on. Stores before `w` have been handed over; the
one at `w` is being handed over if `busy`. -/
structure Ring (cfg : Config) (program : List Store) (answered : List ℕ) (h w : ℕ) (busy : Bool)
    (R : StoreRing) : Prop where
  head : R.head = h % cfg.sqEntries
  tail : R.tail = program.length % cfg.sqEntries
  head_le : h ≤ w
  le_tail : w ≤ program.length
  fits : program.length < h + cfg.sqEntries
  stores : R.stores = (program.length : ℤ) - h
  storesToWB : R.storesToWB = countSlots cfg.sqEntries SQEntry.waiting R.queue
  entries : ∀ p s, h ≤ p → program[p]? = some s → ∃ committed completed,
    R.queue (p % cfg.sqEntries) = s.entry cfg committed completed
      ∧ (completed = true → p < w) ∧ (w < p → committed = false) ∧ (p = w → committed = busy)
  free : ∀ p, program.length ≤ p → p < h + cfg.sqEntries →
    (R.queue (p % cfg.sqEntries)).waiting = false
  canWB : ∀ p s, program[p]? = some s → p < w → s.canWB = true
  current : busy = true → ∃ s, program[w]? = some s ∧ s.canWB = true
  unanswered : ∀ p s, program[p]? = some s → p < w → s.packets cfg ≠ [] → s.inst.seqNum ∉ answered →
    h ≤ p ∧ (R.queue (p % cfg.sqEntries)).completed = false
  sorted : (program.map fun s => s.inst.seqNum).Pairwise (· < ·)
  placed : ∀ p s, program[p]? = some s → s.inst.sqIdx = some (p % cfg.sqEntries)
  fresh : ∀ s ∈ program, s.inst.memData = none
  valid : ∀ s ∈ program, ∀ w, s.access = some w → w.Valid cfg s.inst

variable {cfg : Config} {program : List Store} {answered answered' : List ℕ}
  {h h' w p i fuel youngest : ℕ} {busy : Bool} {s s' : Store} {inst : DynInst} {U U' : LSQUnit}
  {pkt highPkt lowPkt : Packet} {front : List Packet} {e : SQEntry} {state : SenderState}

namespace Ring

variable {R : StoreRing}

theorem lt_length (hs : program[p]? = some s) : p < program.length :=
  (List.getElem?_eq_some_iff.1 hs).1

theorem set_same {α : Type*} {l : List α} {a : α} (ha : l[p]? = some a) : l.set p a = l := by
  rcases List.getElem?_eq_some_iff.1 ha with ⟨hlt, rfl⟩
  exact set_getElem_self hlt

section Steps

variable (hR : Ring cfg program answered h w busy R)
include hR

theorem seqNum_lt {q : ℕ} {t : Store} (hpq : p < q)
    (hs : program[p]? = some s) (ht : program[q]? = some t) : s.inst.seqNum < t.inst.seqNum := by
  rcases List.getElem?_eq_some_iff.1 hs with ⟨hp, rfl⟩
  rcases List.getElem?_eq_some_iff.1 ht with ⟨hq, rfl⟩
  have := pairwise_iff_getElem.1 hR.sorted p q (by simpa using hp) (by simpa using hq) hpq
  simpa using this

/-- A store that has not been handed over is not completed. -/
theorem entry_of_le (hwp : w ≤ p) (hs : program[p]? = some s) :
    ∃ committed, R.queue (p % cfg.sqEntries) = s.entry cfg committed false
      ∧ (w < p → committed = false) ∧ (p = w → committed = busy) := by
  rcases hR.entries p s (le_trans hR.head_le hwp) hs with ⟨c, d, he, hd, hc, hb⟩
  cases d with
  | false => exact ⟨c, he, hc, hb⟩
  | true => exact absurd (hd rfl) (not_lt.2 hwp)

/-- The store at `w` may count as handed over. -/
theorem pass (hs : program[w]? = some s) (hcan : s.canWB = true) :
    Ring cfg program answered h (w + 1) false R := by
  rcases hR.entry_of_le (le_refl w) hs with ⟨c, he, -, -⟩
  refine { hR with
    head_le := le_succ_of_le hR.head_le
    le_tail := lt_length hs
    entries := ?_
    canWB := ?_
    current := fun hbusy => absurd hbusy false_ne_true
    unanswered := ?_ }
  · intro p t hp ht
    rcases hR.entries p t hp ht with ⟨c', d', he', hd', hc', -⟩
    refine ⟨c', d', he', fun hd => lt_succ_of_lt (hd' hd), fun hlt => hc' (by omega), ?_⟩
    rintro rfl
    exact hc' (lt_succ_self w)
  · intro p t ht hp
    rcases Nat.lt_succ_iff_lt_or_eq.1 hp with hlt | rfl
    · exact hR.canWB p t ht hlt
    · have hst : s = t := some.inj (hs.symm.trans ht)
      exact hst ▸ hcan
  · intro p t ht hp hpackets hans
    rcases Nat.lt_succ_iff_lt_or_eq.1 hp with hlt | rfl
    · exact hR.unanswered p t ht hlt hpackets hans
    · exact ⟨hR.head_le, by rw [he]; rfl⟩

/-- A store that has not been handed over is written into, marked or begun. -/
theorem set (hs : program[p]? = some s) (hwp : w ≤ p)
    {c busy' : Bool} (hc : w < p → c = false) (hcw : p = w → c = busy')
    (hbusy : p ≠ w → busy' = busy) (hcan : p = w → busy' = true → s'.canWB = true)
    (hseq : s'.inst = s.inst) (hvalid : ∀ a, s'.access = some a → a.Valid cfg s.inst) :
    Ring cfg (program.set p s') answered h w busy'
      { R with
        queue := update R.queue (p % cfg.sqEntries) (s'.entry cfg c false)
        storesToWB := R.storesToWB + (s'.canWB.toNat - s.canWB.toNat) } := by
  have hlt := lt_length hs
  have hhp := le_trans hR.head_le hwp
  have hfits := hR.fits
  have hp : p < h + cfg.sqEntries := lt_trans hlt hfits
  rcases hR.entry_of_le hwp hs with ⟨c₀, he, -, -⟩
  have hkeep : ∀ {q : ℕ} {t : Store}, (program.set p s')[q]? = some t → q ≠ p →
      program[q]? = some t := by
    intro q t ht hne
    rwa [getElem?_set_ne (Ne.symm hne)] at ht
  have hnew : ∀ {t : Store}, (program.set p s')[p]? = some t → t = s' := by
    intro t ht
    rw [getElem?_set_self hlt] at ht
    exact (some.inj ht).symm
  refine {
    __ := hR
    tail := by rw [length_set]; exact hR.tail
    le_tail := by rw [length_set]; exact hR.le_tail
    fits := by rw [length_set]; exact hfits
    stores := by rw [length_set]; exact hR.stores
    storesToWB := ?_
    entries := ?_
    free := ?_
    canWB := ?_
    current := ?_
    unanswered := ?_
    sorted := ?_
    placed := ?_
    fresh := ?_
    valid := ?_ }
  · -- only the entry of the store can change the count
    have hcount := countSlots_update (P := SQEntry.waiting) (f := R.queue)
      (a := s'.entry cfg c false) (mod_lt p cfg.sq_pos)
    have hold : (R.queue (p % cfg.sqEntries)).waiting = s.canWB := by
      rw [he]
      exact and_true _
    have hnow : (s'.entry cfg c false).waiting = s'.canWB := and_true _
    rw [hold, hnow] at hcount
    have := hR.storesToWB
    dsimp only
    omega
  · intro q t hq ht
    by_cases hqp : q = p
    · subst hqp
      rw [hnew ht]
      exact ⟨c, false, update_slot_self, fun hd => absurd hd false_ne_true, hc, hcw⟩
    · have hqt := hkeep ht hqp
      rcases hR.entries q t hq hqt with ⟨c', d', he', hd', hc', hb'⟩
      have hq' := lt_trans (lt_length hqt) hfits
      refine ⟨c', d', (update_slot_of_ne hhp hp hq hq' hqp).trans he', hd', hc', ?_⟩
      rintro rfl
      rw [hb' rfl, hbusy (Ne.symm hqp)]
  · intro q hq hq'
    rw [length_set] at hq
    exact (congrArg SQEntry.waiting (update_slot_of_ne hhp hp (by omega) hq' (by omega))).trans
      (hR.free q hq hq')
  · intro q t ht hq
    exact hR.canWB q t (hkeep ht (by omega)) hq
  · intro hb
    by_cases hpw : p = w
    · subst hpw
      exact ⟨s', getElem?_set_self hlt, hcan rfl hb⟩
    · rw [getElem?_set_ne hpw]
      exact hR.current (hbusy hpw ▸ hb)
  · intro q t ht hq hpackets hans
    have hqt := hkeep ht (by omega)
    rcases hR.unanswered q t hqt hq hpackets hans with ⟨hhq, hcompleted⟩
    have hq' := lt_trans (lt_length hqt) hfits
    exact ⟨hhq,
      (congrArg SQEntry.completed (update_slot_of_ne hhp hp hhq hq' (by omega))).trans hcompleted⟩
  · rw [map_set, hseq, set_same (by rw [getElem?_map, hs]; rfl)]
    exact hR.sorted
  · intro q t ht
    by_cases hqp : q = p
    · subst hqp
      rw [hnew ht, hseq]
      exact hR.placed q s hs
    · exact hR.placed q t (hkeep ht hqp)
  · intro t ht
    rcases mem_or_eq_of_mem_set ht with hmem | rfl
    · exact hR.fresh t hmem
    · rw [hseq]
      exact hR.fresh s (mem_of_getElem? hs)
  · intro t ht a ha
    rcases mem_or_eq_of_mem_set ht with hmem | rfl
    · exact hR.valid t hmem a ha
    · rw [hseq]
      exact hvalid a ha

theorem begin (hs : program[w]? = some s) (hcan : s.canWB = true) :
    Ring cfg program answered h w true
      { R with queue := update R.queue (w % cfg.sqEntries) (s.entry cfg true false) } := by
  have hset : Ring cfg (program.set w s) answered h w true _ :=
    hR.set (c := true) hs (le_refl w) (fun hlt => absurd hlt (lt_irrefl w)) (fun _ => rfl)
      (fun hne => absurd rfl hne) (fun _ _ => hcan) rfl (hR.valid s (mem_of_getElem? hs))
  rw [set_same hs] at hset
  simpa using hset

theorem insert (hfits : program.length + 1 < h + cfg.sqEntries)
    (hidx : inst.sqIdx = some (program.length % cfg.sqEntries)) (hmem : inst.memData = none)
    (hseq : ∀ s ∈ program, s.inst.seqNum < inst.seqNum) :
    Ring cfg (program ++ [{ inst := inst }]) answered h w busy
      { R with
        queue := update R.queue (program.length % cfg.sqEntries) { inst := some inst }
        tail := (program.length + 1) % cfg.sqEntries
        stores := R.stores + 1 } := by
  have hhead : h ≤ program.length := le_trans hR.head_le hR.le_tail
  -- a position of the longer program is one of the old program or the new one
  have hcases : ∀ {q : ℕ} {t : Store}, (program ++ [{ inst := inst }])[q]? = some t →
      (program[q]? = some t ∧ q < program.length)
      ∨ (q = program.length ∧ t = { inst := inst }) := by
    intro q t ht
    rcases lt_or_ge q program.length with hlt | hge
    · rw [getElem?_append_left hlt] at ht
      exact .inl ⟨ht, hlt⟩
    · rw [getElem?_append_right hge] at ht
      rcases List.getElem?_eq_some_iff.1 ht with ⟨hq, hget⟩
      have hzero : q - program.length = 0 := by simpa using hq
      refine .inr ⟨by omega, ?_⟩
      simpa [hzero] using hget.symm
  have hold : ∀ {q : ℕ} {t : Store}, (program ++ [{ inst := inst }])[q]? = some t →
      q < program.length → program[q]? = some t := by
    intro q t ht hq
    rwa [getElem?_append_left hq] at ht
  have hle := hR.le_tail
  refine {
    __ := hR
    tail := by rw [length_append]; rfl
    le_tail := by rw [length_append]; exact le_add_right_of_le hle
    fits := by rw [length_append]; exact hfits
    stores := by have := hR.stores; simp only [length_append, length_singleton]; omega
    storesToWB := ?_
    entries := ?_
    free := ?_
    canWB := fun q t ht hq => hR.canWB q t (hold ht (by omega)) hq
    current := ?_
    unanswered := ?_
    sorted := ?_
    placed := ?_
    fresh := ?_
    valid := ?_ }
  · have hsame : SQEntry.waiting { inst := some inst }
        = SQEntry.waiting (R.queue (program.length % cfg.sqEntries)) :=
      (hR.free program.length (le_refl _) (by omega)).symm
    exact hR.storesToWB.trans
      (congrArg Nat.cast (countSlots_update_same (mod_lt _ cfg.sq_pos) hsame).symm)
  · intro q t hq ht
    rcases hcases ht with ⟨htq, hlt⟩ | ⟨rfl, rfl⟩
    · rcases hR.entries q t hq htq with ⟨c, d, he, hrest⟩
      exact ⟨c, d, (update_slot_of_ne hhead hR.fits hq (by omega) (by omega)).trans he, hrest⟩
    · refine ⟨false, false, update_slot_self, fun hd => absurd hd false_ne_true, fun _ => rfl, ?_⟩
      intro hw
      cases hb : busy with
      | false => rfl
      | true =>
        rcases hR.current hb with ⟨s, hs, -⟩
        exact absurd (lt_length hs) (by omega)
  · intro q hq hq'
    rw [length_append, length_singleton] at hq
    exact (congrArg SQEntry.waiting
      (update_slot_of_ne hhead hR.fits (by omega) hq' (by omega))).trans (hR.free q (by omega) hq')
  · intro hb
    rcases hR.current hb with ⟨s, hs, hcan⟩
    exact ⟨s, by rw [getElem?_append_left (lt_length hs)]; exact hs, hcan⟩
  · intro q t ht hq hpackets hans
    rcases hR.unanswered q t (hold ht (by omega)) hq hpackets hans with ⟨hhq, hcompleted⟩
    exact ⟨hhq, (congrArg SQEntry.completed
      (update_slot_of_ne hhead hR.fits hhq (by omega) (by omega))).trans hcompleted⟩
  · rw [map_append]
    refine pairwise_append.2 ⟨hR.sorted, pairwise_singleton _ _, ?_⟩
    intro a ha b hb
    rcases mem_map.1 ha with ⟨s, hs, rfl⟩
    rw [map_singleton, mem_singleton] at hb
    exact hb ▸ hseq s hs
  · intro q t ht
    rcases hcases ht with ⟨htq, -⟩ | ⟨rfl, rfl⟩
    · exact hR.placed q t htq
    · exact hidx
  · exact forall_mem_append.2 ⟨hR.fresh, forall_mem_singleton.2 hmem⟩
  · exact forall_mem_append.2 ⟨hR.valid, forall_mem_singleton.2 (by simp)⟩

theorem complete (hs : program[p]? = some s) (hp : h ≤ p)
    (hpw : p < w) (hopen : (R.queue (p % cfg.sqEntries)).completed = false)
    (hsub : answered ⊆ answered') (hans : s.packets cfg = [] ∨ s.inst.seqNum ∈ answered') :
    Ring cfg program answered' h w busy
      { R with
        queue := update R.queue (p % cfg.sqEntries)
          { R.queue (p % cfg.sqEntries) with completed := true }
        storesToWB := R.storesToWB - 1 } := by
  have hlt := lt_length hs
  have hfits := hR.fits
  have hp' : p < h + cfg.sqEntries := lt_trans hlt hfits
  rcases hR.entries p s hp hs with ⟨c, d, he, -, hc, hb⟩
  refine { hR with
    storesToWB := ?_
    entries := ?_
    free := ?_
    unanswered := ?_ }
  · have hcount := countSlots_update (P := SQEntry.waiting) (f := R.queue)
      (a := { R.queue (p % cfg.sqEntries) with completed := true }) (mod_lt p cfg.sq_pos)
    have hold : (R.queue (p % cfg.sqEntries)).waiting = true := by
      have hcan : (R.queue (p % cfg.sqEntries)).canWB = true := by
        rw [he]
        exact hR.canWB p s hs hpw
      simp [SQEntry.waiting, hcan, hopen]
    have hnow : SQEntry.waiting { R.queue (p % cfg.sqEntries) with completed := true } = false := by
      simp [SQEntry.waiting]
    rw [hold, hnow] at hcount
    have := hR.storesToWB
    simp only [toNat_true, toNat_false] at hcount
    dsimp only
    omega
  · intro q t hq ht
    by_cases hqp : q = p
    · subst hqp
      obtain rfl := some.inj (hs.symm.trans ht)
      refine ⟨c, true, update_slot_self.trans ?_, fun _ => hpw, hc, hb⟩
      rw [he]
      rfl
    · rcases hR.entries q t hq ht with ⟨c', d', he', hrest⟩
      have hq' := lt_trans (lt_length ht) hfits
      exact ⟨c', d', (update_slot_of_ne hp hp' hq hq' hqp).trans he', hrest⟩
  · intro q hq hq'
    exact (congrArg SQEntry.waiting (update_slot_of_ne hp hp' (by omega) hq' (by omega))).trans
      (hR.free q hq hq')
  · intro q t ht hq hpackets hnot
    rcases hR.unanswered q t ht hq hpackets (fun hmem => hnot (hsub hmem)) with ⟨hhq, hcompleted⟩
    have hqp : q ≠ p := by
      rintro rfl
      obtain rfl := some.inj (hs.symm.trans ht)
      rcases hans with hnone | hmem
      · exact hpackets hnone
      · exact hnot hmem
    have hq' := lt_trans (lt_length ht) hfits
    exact ⟨hhq,
      (congrArg SQEntry.completed (update_slot_of_ne hp hp' hhq hq' hqp)).trans hcompleted⟩

theorem advance (hle : h ≤ h') (hw : h' ≤ w)
    (hdone : ∀ p, h ≤ p → p < h' → (R.queue (p % cfg.sqEntries)).completed = true) :
    Ring cfg program answered h' w busy
      { R with head := h' % cfg.sqEntries, stores := R.stores - ((h' : ℤ) - h) } := by
  have hfits := hR.fits
  refine { hR with
    head := rfl
    head_le := hw
    fits := by omega
    stores := by have := hR.stores; dsimp only; omega
    entries := fun p s hp hs => hR.entries p s (le_trans hle hp) hs
    free := ?_
    unanswered := ?_ }
  · intro p hp hp'
    rcases lt_or_ge p (h + cfg.sqEntries) with hlt | hge
    · exact hR.free p hp hlt
    · -- the slot of a store that leaves
      have hslot : p % cfg.sqEntries = (p - cfg.sqEntries) % cfg.sqEntries := by
        rw [← mod_eq_sub_mod (by omega)]
      have hcompleted := hdone (p - cfg.sqEntries) (by omega) (by omega)
      rw [hslot]
      simp [SQEntry.waiting, hcompleted]
  · intro p s hs hp hpackets hans
    rcases hR.unanswered p s hs hp hpackets hans with ⟨hhp, hopen⟩
    refine ⟨?_, hopen⟩
    rcases lt_or_ge p h' with hlt | hge
    · exact absurd (hdone p hhp hlt) (by simp [hopen])
    · exact hge

end Steps

theorem dropLast {front : List Store} (hR : Ring cfg (front ++ [s]) answered h w busy R)
    (hcan : s.canWB = false) (he : e.canWB = false) :
    Ring cfg front answered h w busy
      { R with
        queue := update R.queue (front.length % cfg.sqEntries) e
        tail := front.length % cfg.sqEntries
        stores := R.stores - 1 } := by
  have hlength : (front ++ [s]).length = front.length + 1 := by simp
  have hlast : (front ++ [s])[front.length]? = some s := by simp
  have hfits := hR.fits
  have hle := hR.le_tail
  have hhead := hR.head_le
  rw [hlength] at hfits hle
  have hw : w ≤ front.length := by
    -- a store that has been handed over may be written back
    by_contra hlt
    have := hR.canWB front.length s hlast (by omega)
    rw [hcan] at this
    exact false_ne_true this
  have hup : ∀ {q : ℕ} {t : Store}, front[q]? = some t → (front ++ [s])[q]? = some t := by
    intro q t ht
    rw [getElem?_append_left (lt_length ht)]
    exact ht
  have hlo : h ≤ front.length := le_trans hhead hw
  have hhi : front.length < h + cfg.sqEntries := lt_of_succ_lt hfits
  refine {
    head := hR.head
    tail := rfl
    head_le := hhead
    le_tail := hw
    fits := by omega
    stores := by have := hR.stores; rw [hlength] at this; dsimp only; omega
    storesToWB := ?_
    entries := ?_
    free := ?_
    canWB := fun q t ht hq => hR.canWB q t (hup ht) hq
    current := ?_
    unanswered := ?_
    sorted := ?_
    placed := fun q t ht => hR.placed q t (hup ht)
    fresh := fun t ht => hR.fresh t (mem_append_left _ ht)
    valid := fun t ht => hR.valid t (mem_append_left _ ht) }
  · rcases hR.entry_of_le hw hlast with ⟨c, hentry, -, -⟩
    have hsame : e.waiting = (R.queue (front.length % cfg.sqEntries)).waiting := by
      rw [hentry]
      simp [SQEntry.waiting, he, entry, hcan]
    exact hR.storesToWB.trans
      (congrArg Nat.cast (countSlots_update_same (mod_lt _ cfg.sq_pos) hsame).symm)
  · intro q t hq ht
    rcases hR.entries q t hq (hup ht) with ⟨c, d, hentry, hrest⟩
    have := lt_length ht
    exact ⟨c, d, (update_slot_of_ne hlo hhi hq (by omega) (by omega)).trans hentry, hrest⟩
  · intro q hq hq'
    rcases eq_or_lt_of_le hq with rfl | hlt
    · exact (congrArg SQEntry.waiting update_slot_self).trans (by simp [SQEntry.waiting, he])
    · exact (congrArg SQEntry.waiting (update_slot_of_ne hlo hhi (by omega) hq' (by omega))).trans
        (hR.free q (by omega) hq')
  · intro hb
    rcases hR.current hb with ⟨t, ht, htcan⟩
    rcases eq_or_lt_of_le hw with rfl | hlt
    · rw [hlast] at ht
      cases ht
      exact absurd htcan (by simp [hcan])
    · rw [getElem?_append_left hlt] at ht
      exact ⟨t, ht, htcan⟩
  · intro q t ht hq hpackets hans
    rcases hR.unanswered q t (hup ht) hq hpackets hans with ⟨hhq, hcompleted⟩
    exact ⟨hhq, (congrArg SQEntry.completed
      (update_slot_of_ne hlo hhi hhq (by omega) (by omega))).trans hcompleted⟩
  · have := hR.sorted
    rw [map_append] at this
    exact (pairwise_append.1 this).1

end Ring

/-! ## What waits for the port -/

structure Port where
  retryPkt : Option (Packet × SenderState) := none
  isStoreBlocked : Bool := false
  hasPendingPkt : Bool := false
  pendingPkt : Option Packet := none

def LSQUnit.port (U : LSQUnit) : Port where
  retryPkt := U.retryPkt
  isStoreBlocked := U.isStoreBlocked
  hasPendingPkt := U.hasPendingPkt
  pendingPkt := U.pendingPkt

/-- Of the packets `pkts` of a store the port has accepted `front`, and the rest waits: the last
packet for the retry, both packets for the retry, or the last packet for a free port. -/
inductive Sending (cfg : Config) (pkts : List Packet) : Bool → List Packet → Port → Prop
  | idle : Sending cfg pkts false [] {}
  | retry (front : List Packet) (pkt : Packet) (state : SenderState) (hpkts : pkts = front ++ [pkt])
      (hstate : state.pktToSend = false ∨ state.pendingPacket = some pkt) :
      Sending cfg pkts true front { retryPkt := some (pkt, state), isStoreBlocked := true }
  | retryBoth (low high : Packet) (hpkts : pkts = [low, high]) (hne : high ≠ low)
      (hcfg : cfg.hasUnalignedMemAcc = true) :
      Sending cfg pkts true [] { retryPkt := some (low, ⟨true, some high⟩), isStoreBlocked := true }
  | pending (front : List Packet) (pkt : Packet) (hpkts : pkts = front ++ [pkt])
      (hcfg : cfg.hasUnalignedMemAcc = true) :
      Sending cfg pkts true front { hasPendingPkt := true, pendingPkt := some pkt }

def packetsAt (cfg : Config) (program : List Store) (p : ℕ) : List Packet :=
  (program[p]?.map (packets cfg)).getD []

/-- The store side of a unit: the array, and the packets accepted so far, all those of the stores
before `w` and `front` of the store at `w`. -/
structure StoreInv (cfg : Config) (program : List Store) (answered : List ℕ) (h w : ℕ) (busy : Bool)
    (front : List Packet) (U : LSQUnit) : Prop where
  ring : Ring cfg program answered h w busy U.ring
  wb : U.storeWBIdx = w % cfg.sqEntries
  sent : U.sent = (program.take w).flatMap (packets cfg) ++ front
  sending : Sending cfg (packetsAt cfg program w) busy front U.port

/-- A function of the store side leaves the loads alone and stalls nothing. -/
structure Frame (U U' : LSQUnit) : Prop where
  loads : U'.loads = U.loads
  loadTail : U'.loadTail = U.loadTail
  stalled : U.stalled = false → U'.stalled = false

theorem Frame.refl (U : LSQUnit) : Frame U U := ⟨rfl, rfl, id⟩

theorem Frame.trans {V W : LSQUnit} (h₁ : Frame U V) (h₂ : Frame V W) : Frame U W :=
  ⟨h₂.loads.trans h₁.loads, h₂.loadTail.trans h₁.loadTail, fun h => h₂.stalled (h₁.stalled h)⟩

/-- Beside the write-back, a function uses no store port either. -/
structure Apart (U U' : LSQUnit) : Prop extends Frame U U' where
  ports : U'.usedStorePorts = U.usedStorePorts

theorem Apart.refl (U : LSQUnit) : Apart U U := ⟨Frame.refl U, rfl⟩

theorem Apart.trans {V W : LSQUnit} (h₁ : Apart U V) (h₂ : Apart V W) : Apart U W :=
  ⟨h₁.toFrame.trans h₂.toFrame, h₂.ports.trans h₁.ports⟩

/-- Nothing is sent, and the same packets wait. -/
structure SamePort (U U' : LSQUnit) : Prop extends Apart U U' where
  port : U'.port = U.port
  sent : U'.sent = U.sent

/-- The store at `w` is handed over with these packets. -/
structure HandedOver (cfg : Config) (program : List Store) (answered : List ℕ) (h w : ℕ)
    (pkts : List Packet) (U U' : LSQUnit) : Prop extends Frame U U' where
  port : U'.port = U.port
  sent : U'.sent = U.sent ++ pkts
  wb : U'.storeWBIdx = (w + 1) % cfg.sqEntries
  ring : Ring cfg program answered h (w + 1) false U'.ring

namespace LSQUnit

/-- What the functions read of the entry of a store. -/
theorem entry_fields {c d : Bool} (he : U.storeQueue i = s.entry cfg c d) :
    (U.storeQueue i).inst = some (s.dynInst cfg c) ∧ (U.storeQueue i).canWB = s.canWB
      ∧ (U.storeQueue i).completed = d := by
  rw [he]
  exact ⟨rfl, rfl, rfl⟩

theorem unstall_frame (seqNum : ℕ) :
    SamePort U (U.unstall seqNum) ∧ (U.unstall seqNum).ring = U.ring
      ∧ (U.unstall seqNum).storeWBIdx = U.storeWBIdx := by
  unfold unstall
  split
  case isTrue => exact ⟨⟨⟨⟨rfl, rfl, fun _ => rfl⟩, rfl⟩, rfl, rfl⟩, rfl, rfl⟩
  case isFalse => exact ⟨⟨Apart.refl U, rfl, rfl⟩, rfl, rfl⟩

theorem advanceHead_eq {t : ℕ} (hhead : U.storeHead = h % cfg.sqEntries)
    (htail : U.storeTail = t % cfg.sqEntries) (hlt : h < t) (hfits : t < h + cfg.sqEntries)
    (hfuel : t - h ≤ fuel) :
    ∃ h', h < h' ∧ h' ≤ t
      ∧ (∀ p, h < p → p < h' → (U.storeQueue (p % cfg.sqEntries)).completed = true)
      ∧ advanceHead cfg fuel U
        = some { U with storeHead := h' % cfg.sqEntries, stores := U.stores - ((h' : ℤ) - h) } := by
  induction fuel generalizing U h with
  | zero => omega
  | succ fuel ih =>
    have hnext : incrStIdx cfg U.storeHead = (h + 1) % cfg.sqEntries := by
      rw [hhead]
      exact nextSlot_mod cfg.sq_pos h
    unfold advanceHead
    rw [hnext]
    dsimp only
    split
    case isTrue hmore =>
      simp only [ne_eq, decide_not, and_eq_true, not_eq_eq_eq_not, Bool.not_true,
        decide_eq_false_iff_not] at hmore
      have hne : h + 1 ≠ t := by
        rintro rfl
        exact hmore.2 htail.symm
      rcases ih (U := { U with storeHead := (h + 1) % cfg.sqEntries, stores := U.stores - 1 }) rfl
        htail (by omega) (by omega) (by omega) with ⟨h', hlt', hle', hdone, heq⟩
      refine ⟨h', by omega, hle', ?_, ?_⟩
      · intro p hp hp'
        rcases Nat.eq_or_lt_of_le hp with rfl | hp
        · exact hmore.1
        · exact hdone p hp hp'
      · rw [heq]
        congr 2
        push_cast
        omega
    case isFalse =>
      refine ⟨h + 1, lt_succ_self h, hlt, fun p hp hp' => absurd hp' (by omega), ?_⟩
      congr 2
      push_cast
      omega

section Handed

variable (hR : Ring cfg program answered h w busy U.ring)
include hR

/-- The head moves over completed stores, which have all been handed over. -/
theorem passCompleted_spec (hs : program[p]? = some s)
    (hp : h ≤ p) (hdone : (U.storeQueue (p % cfg.sqEntries)).completed = true) :
    ∃ U' h', U.passCompleted cfg (p % cfg.sqEntries) = some U' ∧ SamePort U U'
      ∧ U'.storeWBIdx = U.storeWBIdx ∧ Ring cfg program answered h' w busy U'.ring := by
  have hlt := Ring.lt_length hs
  have hfits := hR.fits
  unfold passCompleted
  split
  case isTrue hat =>
    have hph : p = h := eq_of_slot_eq hp (by omega) (le_refl h) (by omega) (hat.trans hR.head)
    subst hph
    have hfuel : program.length - p ≤ cfg.sqEntries := by omega
    rcases advanceHead_eq (U := U) hR.head hR.tail hlt hfits hfuel with
      ⟨h', hlt', hle', hcompleted, heq⟩
    have hall : ∀ q, p ≤ q → q < h' → (U.ring.queue (q % cfg.sqEntries)).completed = true := by
      intro q hq hq'
      rcases eq_or_lt_of_le hq with rfl | hq
      · exact hdone
      · exact hcompleted q hq hq'
    -- the last store that leaves has been handed over
    have hlast : h' ≤ w := by
      have hget := getElem?_eq_getElem (by omega : h' - 1 < program.length)
      rcases hR.entries (h' - 1) _ (by omega) hget with ⟨c', d', he', hd', -⟩
      have hd : d' = true := by
        have := hall (h' - 1) (by omega) (by omega)
        rw [he'] at this
        exact this
      have := hd' hd
      omega
    refine ⟨_, h', heq, ⟨⟨⟨rfl, rfl, id⟩, rfl⟩, rfl, rfl⟩, rfl, ?_⟩
    exact hR.advance (le_of_lt hlt') hlast hall
  case isFalse => exact ⟨U, h, rfl, ⟨Apart.refl U, rfl, rfl⟩, rfl, hR⟩

theorem completeStore_spec (hs : program[p]? = some s)
    (hp : h ≤ p) (hpw : p < w) (hopen : (U.storeQueue (p % cfg.sqEntries)).completed = false)
    (hsub : answered ⊆ answered') (hans : s.packets cfg = [] ∨ s.inst.seqNum ∈ answered') :
    ∃ U' h', U.completeStore cfg (p % cfg.sqEntries) = some U' ∧ SamePort U U'
      ∧ U'.storeWBIdx = U.storeWBIdx ∧ Ring cfg program answered' h' w busy U'.ring := by
  rcases hR.entries p s hp hs with ⟨c, d, he, -⟩
  rcases entry_fields (U := U) he with ⟨hinst, -⟩
  have hring : Ring cfg program answered' h w busy (U.markCompleted (p % cfg.sqEntries)).ring :=
    hR.complete hs hp hpw hopen hsub hans
  rcases passCompleted_spec hring hs hp (congrArg SQEntry.completed update_slot_self) with
    ⟨V, h', hV, hsame, hwb, hringV⟩
  rcases unstall_frame (U := V) (s.dynInst cfg c).seqNum with ⟨hsame', hring', hwb'⟩
  refine ⟨V.afterComplete cfg (s.dynInst cfg c).seqNum, h', ?_,
    ⟨{ hsame.toApart.trans hsame'.toApart with }, hsame'.port.trans hsame.port,
      hsame'.sent.trans hsame.sent⟩,
    hwb'.trans hwb, ?_⟩
  · unfold completeStore
    rw [hinst]
    exact congrArg (Option.map _) hV
  · change Ring cfg program answered' h' w busy (V.unstall (s.dynInst cfg c).seqNum).ring
    rw [hring']
    exact hringV

theorem inst_at (hwb : U.storeWBIdx = w % cfg.sqEntries) (hs : program[w]? = some s) :
    (U.storeQueue U.storeWBIdx).inst = some (s.dynInst cfg busy) := by
  rcases hR.entry_of_le (le_refl w) hs with ⟨c, he, -, hc⟩
  rw [hwb, ← hc rfl]
  exact (entry_fields he).1

end Handed

theorem next_wb (hwb : U.storeWBIdx = w % cfg.sqEntries) :
    incrStIdx cfg U.storeWBIdx = (w + 1) % cfg.sqEntries := by
  rw [hwb]
  exact nextSlot_mod cfg.sq_pos w

theorem storePostSend_spec (hR : Ring cfg program answered h w busy U.ring)
    (hwb : U.storeWBIdx = w % cfg.sqEntries) (hs : program[w]? = some s) (hcan : s.canWB = true) :
    ∃ U', U.storePostSend cfg = some U' ∧ HandedOver cfg program answered h w [] U U' := by
  rcases unstall_frame (U := U) (s.dynInst cfg busy).seqNum with ⟨hsame, hring, hidx⟩
  refine ⟨{ U.unstall (s.dynInst cfg busy).seqNum with
      storeInFlight := (U.unstall (s.dynInst cfg busy).seqNum).storeInFlight || cfg.needsTSO
      storeWBIdx := incrStIdx cfg (U.unstall (s.dynInst cfg busy).seqNum).storeWBIdx },
    ?_, { hsame.toFrame with }, hsame.port, hsame.sent.trans (append_nil _).symm, ?_, ?_⟩
  · unfold storePostSend
    rw [inst_at hR hwb hs]
  · exact (congrArg (incrStIdx cfg) hidx).trans (next_wb hwb)
  · change Ring cfg program answered h (w + 1) false (U.unstall (s.dynInst cfg busy).seqNum).ring
    rw [hring]
    exact hR.pass hs hcan

/-- A store that needs nothing from the cache. -/
theorem finishStore_spec (hR : Ring cfg program answered h w busy U.ring)
    (hwb : U.storeWBIdx = w % cfg.sqEntries) (hs : program[w]? = some s) (hcan : s.canWB = true)
    (hnone : s.packets cfg = []) :
    ∃ U' h', U.finishStore cfg = some U' ∧ HandedOver cfg program answered h' w [] U U' := by
  rcases hR.entry_of_le (le_refl w) hs with ⟨c, he, -, -⟩
  rcases entry_fields (U := U) he with ⟨-, -, hopen⟩
  rcases completeStore_spec (hR.pass hs hcan) hs hR.head_le (lt_succ_self w) hopen
    (List.Subset.refl answered) (.inl hnone) with ⟨V, h', hV, hsame, hidx, hring⟩
  refine ⟨{ V with storeWBIdx := incrStIdx cfg V.storeWBIdx }, h', ?_, { hsame.toFrame with },
    hsame.port, hsame.sent.trans (append_nil _).symm, ?_, hring⟩
  · unfold finishStore
    rw [hwb, hV]
    rfl
  · exact (congrArg (incrStIdx cfg) hidx).trans (next_wb hwb)

/-! ## Sending -/

/-- What the port answers next. -/
def accepts (U : LSQUnit) : Bool := U.answers.headD false

/-- The port accepts a packet, or it refuses it and the packet is kept. -/
theorem sendStore_cases (pkt : Packet) (state : SenderState) (hretry : U.retryPkt = none) :
    (∃ U', U.sendStore pkt state = some (true, U') ∧ Frame U U' ∧ U'.ring = U.ring
      ∧ U'.port = U.port ∧ U'.storeWBIdx = U.storeWBIdx ∧ U'.sent = U.sent ++ [pkt])
    ∨ ∃ U', U.sendStore pkt state = some (false, U') ∧ Frame U U' ∧ U'.ring = U.ring
      ∧ U'.port = { U.port with retryPkt := some (pkt, state), isStoreBlocked := true }
      ∧ U'.storeWBIdx = U.storeWBIdx ∧ U'.sent = U.sent ∧ U.accepts = false := by
  have hrefused : ∀ V : LSQUnit, V.retryPkt = none →
      (if V.retryPkt.isSome then none
        else some (false, { V with isStoreBlocked := true, retryPkt := some (pkt, state) }))
      = some (false, { V with isStoreBlocked := true, retryPkt := some (pkt, state) }) := by
    intro V hV
    rw [hV]
    rfl
  unfold sendStore sendTimingReq accepts
  rcases hanswers : U.answers with _ | ⟨_ | _, answers⟩
  · exact .inr ⟨_, hrefused U hretry, ⟨rfl, rfl, id⟩, rfl, rfl, rfl, rfl, rfl⟩
  · exact .inr ⟨_, hrefused { U with answers := answers } hretry, ⟨rfl, rfl, id⟩, rfl, rfl, rfl,
      rfl, rfl⟩
  · exact .inl ⟨_, rfl, ⟨rfl, rfl, id⟩, rfl, rfl, rfl, rfl⟩

/-- The last packet of the store at `w`: the store is handed over, or the packet is kept. -/
theorem sendLast_cases (hR : Ring cfg program answered h w true U.ring)
    (hwb : U.storeWBIdx = w % cfg.sqEntries) (pkt : Packet) (state : SenderState)
    (hretry : U.retryPkt = none) :
    (∃ U', U.sendLast cfg pkt state = some U' ∧ HandedOver cfg program answered h w [pkt] U U')
    ∨ ∃ U', U.sendLast cfg pkt state = some U' ∧ Frame U U'
      ∧ U'.port = { U.port with retryPkt := some (pkt, state), isStoreBlocked := true }
      ∧ U'.sent = U.sent ∧ U'.storeWBIdx = w % cfg.sqEntries
      ∧ Ring cfg program answered h w true U'.ring ∧ U.accepts = false := by
  rcases hR.current rfl with ⟨s, hs, hcan⟩
  rcases sendStore_cases pkt state hretry with ⟨V, hV, hframe, hring, hport, hidx, hsent⟩
    | ⟨V, hV, hframe, hring, hport, hidx, hsent, hrefused⟩
  · rcases storePostSend_spec (U := V) (hring ▸ hR) (hidx.trans hwb) hs hcan with
      ⟨W, hW, hover⟩
    refine .inl ⟨W, ?_, { hover with
      toFrame := hframe.trans hover.toFrame
      port := hover.port.trans hport
      sent := by rw [hover.sent, hsent, append_nil] }⟩
    unfold sendLast
    rw [hV]
    exact hW
  · refine .inr ⟨V, ?_, hframe, hport, hsent, hidx.trans hwb, hring ▸ hR, hrefused⟩
    unfold sendLast
    rw [hV]
    rfl

end LSQUnit

namespace StoreInv

theorem of_idle (hring : Ring cfg program answered h w false U.ring)
    (hwb : U.storeWBIdx = w % cfg.sqEntries)
    (hsent : U.sent = (program.take w).flatMap (packets cfg)) (hport : U.port = {}) :
    StoreInv cfg program answered h w false [] U where
  ring := hring
  wb := hwb
  sent := by rw [append_nil]; exact hsent
  sending := by rw [hport]; exact .idle

theorem packetsAt_eq (hs : program[w]? = some s) : packetsAt cfg program w = s.packets cfg := by
  rw [packetsAt, hs]
  rfl

theorem change (hinv : StoreInv cfg program answered h w busy front U) {program' : List Store}
    (hring : Ring cfg program' answered' h' w busy U'.ring)
    (hport : U'.port = U.port) (hsent : U'.sent = U.sent) (hwb : U'.storeWBIdx = U.storeWBIdx)
    (htake : (program'.take w).flatMap (packets cfg) = (program.take w).flatMap (packets cfg))
    (hat : busy = true → packetsAt cfg program' w = packetsAt cfg program w) :
    StoreInv cfg program' answered' h' w busy front U' := by
  refine ⟨hring, hwb.trans hinv.wb, by rw [hsent, hinv.sent, htake], ?_⟩
  rw [hport]
  have hsending := hinv.sending
  cases hbusy : busy with
  | true =>
    rw [hat hbusy]
    exact hbusy ▸ hsending
  | false =>
    -- no packet of the store at `w` waits
    subst hbusy
    generalize U.port = P at hsending
    cases hsending
    exact .idle

/-- The packets of the stores up to and with the one at `w`. -/
theorem packets_take_succ (hs : program[w]? = some s) :
    (program.take (w + 1)).flatMap (packets cfg)
      = (program.take w).flatMap (packets cfg) ++ s.packets cfg := by
  rw [take_add_one, hs, flatMap_append]
  simp

theorem packets_sent (hinv : StoreInv cfg program answered h w busy front U)
    (hs : program[w]? = some s) (hpkts : packetsAt cfg program w = front ++ [pkt])
    {sent : List Packet} (hsent : sent = U.sent ++ [pkt]) :
    sent = (program.take (w + 1)).flatMap (packets cfg) := by
  rw [hsent, hinv.sent, append_assoc, ← hpkts, packetsAt_eq hs, packets_take_succ hs]

end StoreInv

/-- The store `s` at `w` may be written back, nothing waits, and the port has accepted `front` of
its packets. -/
structure Current (cfg : Config) (program : List Store) (answered : List ℕ) (h w : ℕ) (busy : Bool)
    (front : List Packet) (s : Store) (U : LSQUnit) : Prop where
  ring : Ring cfg program answered h w busy U.ring
  wb : U.storeWBIdx = w % cfg.sqEntries
  store : program[w]? = some s
  canWB : s.canWB = true
  sent : U.sent = (program.take w).flatMap (packets cfg) ++ front
  port : U.port = {}

/-- The outcome of writing back the store at `w`: it is handed over, or the loop of
`writebackStores` will stop, because the port is blocked or no port is left; then the port has
accepted a packet if it was willing to. -/
def WritesBack (cfg : Config) (program : List Store) (answered : List ℕ) (w : ℕ) (U : LSQUnit)
    (outcome : Option LSQUnit) : Prop :=
  ∃ U' h' w' busy' front', outcome = some U' ∧ Frame U U'
    ∧ StoreInv cfg program answered h' w' busy' front' U'
    ∧ (w' = w + 1 ∨ (w' = w ∧ (U'.isStoreBlocked = true ∨ cfg.cacheStorePorts ≤ U'.usedStorePorts)
      ∧ U.sent.length + U.accepts.toNat ≤ U'.sent.length))
    ∧ (U'.hasPendingPkt = true → cfg.cacheStorePorts ≤ U'.usedStorePorts)

namespace WritesBack

variable {outcome : Option LSQUnit}

theorem frame {U₀ : LSQUnit} (hout : WritesBack cfg program answered w U outcome)
    (hframe : Frame U₀ U)
    (hsent : U₀.sent.length + U₀.accepts.toNat ≤ U.sent.length + U.accepts.toNat) :
    WritesBack cfg program answered w U₀ outcome := by
  rcases hout with ⟨U', h', w', busy', front', heq, hframe', hinv, hmore, hpending⟩
  refine ⟨U', h', w', busy', front', heq, hframe.trans hframe', hinv, hmore.imp_right ?_, hpending⟩
  rintro ⟨hw, hstop, hlength⟩
  exact ⟨hw, hstop, le_trans hsent hlength⟩

/-- The store is handed over, and nothing waits. -/
theorem of_handedOver {pkts : List Packet}
    (hc : Current cfg program answered h w busy front s U) (hU : outcome = some U')
    (hover : HandedOver cfg program answered h' w pkts U U')
    (hpkts : s.packets cfg = front ++ pkts) : WritesBack cfg program answered w U outcome := by
  have hport := hover.port.trans hc.port
  have hpending : U'.hasPendingPkt = false := congrArg Port.hasPendingPkt hport
  refine ⟨U', h', w + 1, false, [], hU, hover.toFrame,
    StoreInv.of_idle hover.ring hover.wb ?_ hport, .inl rfl,
    fun hp => absurd (hpending.symm.trans hp) false_ne_true⟩
  rw [hover.sent, hc.sent, append_assoc, ← hpkts, StoreInv.packets_take_succ hc.store]

end WritesBack

namespace LSQUnit

/-- The last packet of the store at `w` when nothing waits. -/
theorem sendLast_writesBack (hc : Current cfg program answered h w true front s U)
    (hpkts : s.packets cfg = front ++ [pkt])
    (hstate : state.pktToSend = false ∨ state.pendingPacket = some pkt) :
    WritesBack cfg program answered w U (U.sendLast cfg pkt state) := by
  have hretry : U.retryPkt = none := congrArg Port.retryPkt hc.port
  rcases sendLast_cases hc.ring hc.wb pkt state hretry with ⟨V, hV, hover⟩
    | ⟨V, hV, hframe, hportV, hsentV, hidxV, hringV, hrefused⟩
  · exact .of_handedOver hc hV hover hpkts
  · rw [hc.port] at hportV
    have hpending : V.hasPendingPkt = false := congrArg Port.hasPendingPkt hportV
    refine ⟨V, h, w, true, front, hV, hframe, ⟨hringV, hidxV, hsentV.trans hc.sent, ?_⟩,
      .inr ⟨rfl, .inl (congrArg Port.isStoreBlocked hportV), by simp [hrefused, hsentV]⟩,
      fun hp => absurd (hpending.symm.trans hp) false_ne_true⟩
    rw [hportV, StoreInv.packetsAt_eq hc.store]
    exact .retry front pkt state hpkts hstate

theorem finishStore_writesBack (hc : Current cfg program answered h w busy [] s U)
    (hnone : s.packets cfg = []) : WritesBack cfg program answered w U (U.finishStore cfg) := by
  rcases finishStore_spec hc.ring hc.wb hc.store hc.canWB hnone with ⟨V, h', hV, hover⟩
  exact .of_handedOver hc hV hover hnone

/-- Both packets of a split store when nothing waits. -/
theorem sendHalves_writesBack (hc : Current cfg program answered h w true [] s U)
    {low high : Request} (hcfg : cfg.hasUnalignedMemAcc = true)
    (hipr : low.isMmappedIpr = false) (hpkts : s.packets cfg = [lowPkt, highPkt])
    (hne : highPkt ≠ lowPkt) :
    WritesBack cfg program answered w U (U.sendSplit cfg inst low high lowPkt highPkt) := by
  have hretry : U.retryPkt = none := congrArg Port.retryPkt hc.port
  unfold sendSplit
  rw [hipr]
  rcases sendStore_cases lowPkt {} hretry with ⟨V, hV, hframe, hring, hportV, hidx, hsentV⟩
    | ⟨V, hV, hframe, hring, hportV, hidx, hsentV, hrefused⟩
  · -- the first packet is accepted
    have hsent₁ : V.sent = (program.take w).flatMap (packets cfg) ++ [lowPkt] := by
      rw [hsentV, hc.sent, append_nil]
    have hgrown : U.sent.length + U.accepts.toNat ≤ V.sent.length := by
      rw [hsentV, length_append]
      exact Nat.add_le_add_left (toNat_le _) _
    simp only [false_eq_true, ↓reduceIte, hV, bind_eq_bind, bind_some, Bool.not_true]
    split
    case isTrue =>
      refine WritesBack.frame (U := { V with usedStorePorts := V.usedStorePorts + 1 }) ?_
        { hframe with } (le_add_right_of_le hgrown)
      refine sendLast_writesBack (U := { V with usedStorePorts := V.usedStorePorts + 1 }) (h := h)
        ⟨?_, hidx.trans hc.wb, hc.store, hc.canWB, hsent₁, hportV.trans hc.port⟩ hpkts ?_
      · exact hring ▸ hc.ring
      · exact .inl rfl
    case isFalse hports =>
      have hnone : V.pendingPkt = none := congrArg Port.pendingPkt (hportV.trans hc.port)
      rw [hnone]
      have hportW : ({ V with pendingPkt := some highPkt, hasPendingPkt := true } : LSQUnit).port
          = { hasPendingPkt := true, pendingPkt := some highPkt } :=
        congrArg (fun P : Port => { P with pendingPkt := some highPkt, hasPendingPkt := true })
          (hportV.trans hc.port)
      refine ⟨_, h, w, true, [lowPkt], rfl, { hframe with },
        ⟨hring ▸ hc.ring, hidx.trans hc.wb, hsent₁, ?_⟩,
        .inr ⟨rfl, .inr (Nat.le_of_not_lt hports), hgrown⟩,
        fun _ => Nat.le_of_not_lt hports⟩
      rw [hportW, StoreInv.packetsAt_eq hc.store]
      exact .pending [lowPkt] highPkt hpkts hcfg
  · -- the first packet is refused, and both wait
    simp only [false_eq_true, ↓reduceIte, hV, bind_eq_bind, bind_some, Bool.not_false]
    rw [hc.port] at hportV
    have hportW : ({ V with
        retryPkt := V.retryPkt.map fun r => (r.1, ⟨true, some highPkt⟩) } : LSQUnit).port
        = { retryPkt := some (lowPkt, ⟨true, some highPkt⟩), isStoreBlocked := true } := by
      have hretryV : V.retryPkt = some (lowPkt, {}) := congrArg Port.retryPkt hportV
      rw [hretryV]
      exact congrArg (fun P : Port => { P with retryPkt := some (lowPkt, ⟨true, some highPkt⟩) })
        hportV
    have hpending : V.hasPendingPkt = false := congrArg Port.hasPendingPkt hportV
    refine ⟨_, h, w, true, [], rfl, { hframe with },
      ⟨hring ▸ hc.ring, hidx.trans hc.wb, hsentV.trans hc.sent, ?_⟩,
      .inr ⟨rfl, .inl ?_, by simp [hrefused, hsentV]⟩,
      fun hp => absurd (hpending.symm.trans hp) false_ne_true⟩
    · rw [hportW, StoreInv.packetsAt_eq hc.store]
      exact .retryBoth lowPkt highPkt hpkts hne hcfg
    · exact congrArg Port.isStoreBlocked hportW

variable {a : Write}

theorem packets_made (ha : s.access = some a) (hslot : U.storeWBIdx = s.slot)
    (req low high : Request) (bytes : List UInt8) :
    wholePacket (s.dynInst cfg false) U.storeWBIdx req bytes = wholePacket s.inst s.slot req bytes
      ∧ lowPacket (s.dynInst cfg false) U.storeWBIdx low bytes = lowPacket s.inst s.slot low bytes
      ∧ highPacket (s.dynInst cfg false) U.storeWBIdx low high bytes =
      highPacket s.inst s.slot low high bytes := by
  rw [dynInst_eq ha, hslot]
  exact ⟨rfl, rfl, rfl⟩

section Sending

variable (hc : Current cfg program answered h w true [] s U)
include hc

/-- A store in one packet, or in none if it writes an internal register. -/
theorem sendWhole_writesBack
    {req : Request} (hipr : req.isMmappedIpr = true → inst.isStoreConditional = false)
    (hpkts : s.packets cfg = if req.isMmappedIpr then [] else [pkt]) :
    WritesBack cfg program answered w U (U.sendWhole cfg inst req pkt) := by
  unfold sendWhole
  cases h : req.isMmappedIpr with
  | true =>
    rw [hipr h]
    rw [h] at hpkts
    exact finishStore_writesBack hc hpkts
  | false =>
    rw [h] at hpkts
    exact sendLast_writesBack hc hpkts (.inl rfl)

/-- A split store, whose halves both write memory or both write internal registers. -/
theorem sendSplit_writesBack {low high : Request} (hcfg : cfg.hasUnalignedMemAcc = true)
    (hsc : inst.isStoreConditional = false)
    (hipr : low.isMmappedIpr = true → high.isMmappedIpr = true)
    (hpkts : s.packets cfg = if low.isMmappedIpr then [] else [lowPkt, highPkt])
    (hne : highPkt ≠ lowPkt) :
    WritesBack cfg program answered w U (U.sendSplit cfg inst low high lowPkt highPkt) := by
  cases h : low.isMmappedIpr with
  | true =>
    rw [h] at hpkts
    unfold sendSplit
    rw [h, hsc, hipr h]
    exact finishStore_writesBack hc hpkts
  | false =>
    rw [h] at hpkts
    exact sendHalves_writesBack hc hcfg h hpkts hne

/-- The store at `w` has data for memory, and its entry is marked. -/
theorem sendData_writesBack (ha : s.access = some a) (hsize : a.req.size % 256 ≠ 0)
    (hprefetch : s.inst.isDataPrefetch = false) : WritesBack cfg program answered w U
      (U.sendData cfg (s.entry cfg true false) (s.dynInst cfg false) a.req (bytes cfg a)) := by
  have hvalid := hc.ring.valid s (mem_of_getElem? hc.store) a ha
  have hsc : (s.dynInst cfg false).isStoreConditional = s.inst.isStoreConditional := by
    rw [dynInst_eq ha]
    rfl
  have hlocked : (s.dynInst cfg false).lockedWrite = s.inst.lockedWrite := by
    rw [dynInst_eq ha]
    rfl
  have hslot : U.storeWBIdx = s.slot := by
    rw [slot, hc.ring.placed w s hc.store, hc.wb]
    rfl
  unfold sendData
  rw [hsc, hlocked, entry_isSplit ha]
  cases hcond : s.inst.isStoreConditional with
  | true =>
    rcases hvalid.conditional hcond with ⟨hlow, hipr⟩
    rw [hlow]
    simp only [isSome_none, Bool.and_false, false_eq_true, ↓reduceIte, Bool.true_and]
    cases hwrite : s.inst.lockedWrite with
    | false =>
      have hnone : s.packets cfg = [] := by simp [packets, ha, hcond, hwrite]
      exact finishStore_writesBack hc hnone
    | true =>
      have hpkts : s.packets cfg = if a.req.isMmappedIpr then []
          else [wholePacket (s.dynInst cfg false) U.storeWBIdx a.req (bytes cfg a)] := by
        rw [packets_of_write ha hsize hprefetch (fun _ => hwrite),
          (packets_made ha hslot a.req a.req a.req (bytes cfg a)).1]
        simp [writePackets, hlow]
      exact sendWhole_writesBack hc (fun h => absurd h (by simp [hipr])) hpkts
  | false =>
    have hpkts : s.packets cfg = s.writePackets cfg a :=
      packets_of_write ha hsize hprefetch (by simp [hcond])
    simp only [Bool.false_and, false_eq_true, ↓reduceIte, Bool.and_self_left]
    cases hcfg : cfg.hasUnalignedMemAcc && a.sreqLow.isSome with
    | true =>
      simp only [and_eq_true] at hcfg
      rcases isSome_iff_exists.1 hcfg.2 with ⟨low, hlow⟩
      rcases isSome_iff_exists.1 (hvalid.halves ▸ hcfg.2) with ⟨high, hhigh⟩
      have hentry : (s.entry cfg true false).sreqLow = some low
          ∧ (s.entry cfg true false).sreqHigh = some high := by
        rw [entry_eq ha]
        exact ⟨hlow, hhigh⟩
      rw [hentry.1, hentry.2]
      simp only [↓reduceIte]
      have hmade : lowPacket (s.dynInst cfg false) U.storeWBIdx low (bytes cfg a) = _
          ∧ highPacket (s.dynInst cfg false) U.storeWBIdx low high (bytes cfg a) = _ :=
        (packets_made ha hslot a.req low high (bytes cfg a)).2
      have hipr : low.isMmappedIpr = true → high.isMmappedIpr = true := by
        intro h
        have := hvalid.ipr
        rw [hlow, hhigh] at this
        exact this h
      refine sendSplit_writesBack hc hcfg.1 (hsc.trans hcond) hipr ?_ ?_
      · rw [hpkts, hmade.1, hmade.2, writePackets, hcfg.1, hlow, hhigh]
      · intro heq
        exact absurd (congrArg Packet.part heq) (by simp [highPacket, lowPacket])
    | false =>
      have hone : s.writePackets cfg a = if a.req.isMmappedIpr then []
          else [wholePacket s.inst s.slot a.req (bytes cfg a)] := by
        unfold writePackets
        cases hacc : cfg.hasUnalignedMemAcc with
        | false => rfl
        | true =>
          rw [hacc, Bool.true_and] at hcfg
          rw [isSome_eq_false_iff, isNone_iff_eq_none] at hcfg
          rw [hcfg]
      simp only [false_eq_true, ↓reduceIte]
      refine sendWhole_writesBack hc (fun _ => hsc.trans hcond) ?_
      rw [hpkts, hone, (packets_made ha hslot a.req a.req a.req (bytes cfg a)).1]

end Sending

/-- The entry of the store is marked, and its packets are sent. -/
theorem writebackData_eq (ha : s.access = some a) :
    U.writebackData cfg (s.entry cfg false false) (s.dynInst cfg false)
      = (U.setStore U.storeWBIdx (s.entry cfg true false)).sendData cfg (s.entry cfg true false)
          (s.dynInst cfg false) a.req (bytes cfg a) := by
  rcases s with ⟨inst, access, canWB⟩
  cases ha
  rfl

theorem writebackData_writesBack (hc : Current cfg program answered h w false [] s U)
    (ha : s.access = some a) (hsize : a.req.size % 256 ≠ 0)
    (hprefetch : s.inst.isDataPrefetch = false) : WritesBack cfg program answered w U
      (U.writebackData cfg (s.entry cfg false false) (s.dynInst cfg false)) := by
  have hbegin := hc.ring.begin hc.store hc.canWB
  rw [← hc.wb] at hbegin
  rw [writebackData_eq ha]
  exact (sendData_writesBack (U := U.setStore U.storeWBIdx (s.entry cfg true false))
    { hc with ring := hbegin } ha hsize hprefetch).frame ⟨rfl, rfl, id⟩ (le_refl _)

/-- One iteration of the loop of `writebackStores`. -/
theorem writebackStore_writesBack (hc : Current cfg program answered h w false [] s U) :
    WritesBack cfg program answered w U (U.writebackStore cfg) := by
  have hentry : U.storeQueue U.storeWBIdx = s.entry cfg false false := by
    rcases hc.ring.entry_of_le (le_refl w) hc.store with ⟨c, he, -, hcommitted⟩
    rw [hc.wb]
    exact he.trans (by rw [hcommitted rfl])
  unfold writebackStore
  rw [hentry]
  change WritesBack cfg program answered w U (if (s.entry cfg false false).size = 0 then _ else _)
  cases ha : s.access with
  | none =>
    rw [if_pos (entry_size_of_none ha)]
    exact finishStore_writesBack hc (packets_of_none ha)
  | some a =>
    have hsize : (s.entry cfg false false).size = a.req.size % 256 := by
      rw [entry_eq ha]
      rfl
    rw [hsize]
    by_cases hzero : a.req.size % 256 = 0
    · rw [if_pos hzero]
      have hnone : s.packets cfg = [] := by simp [packets, ha, hzero]
      exact finishStore_writesBack hc hnone
    · rw [if_neg hzero]
      have hprefetch : (s.dynInst cfg false).isDataPrefetch = s.inst.isDataPrefetch := by
        rw [dynInst_eq ha]
        rfl
      rw [hprefetch]
      cases hpre : s.inst.isDataPrefetch with
      | true =>
        -- passed over without a packet
        have hnone : s.packets cfg = [] := by simp [packets, ha, hpre]
        exact .of_handedOver hc rfl ⟨⟨rfl, rfl, id⟩, rfl, (append_nil _).symm, next_wb hc.wb,
          hc.ring.pass hc.store hc.canWB⟩ hnone
      | false =>
        exact (writebackData_writesBack (U := { U with usedStorePorts := U.usedStorePorts + 1 })
          { hc with } ha hzero hpre).frame ⟨rfl, rfl, id⟩ (le_refl _)

/-- A function returns, leaves the store side in order and takes no store back. If it asks the port,
and the port accepts a packet, it hands over a store or at least a packet. -/
def Returns (cfg : Config) (program : List Store) (answered : List ℕ) (w : ℕ) (asks : Prop)
    (U : LSQUnit) (outcome : Option LSQUnit) : Prop :=
  ∃ U' h' w' busy' front', outcome = some U' ∧ Frame U U'
    ∧ StoreInv cfg program answered h' w' busy' front' U' ∧ w ≤ w'
    ∧ (asks → U.accepts = true → w < w' ∨ U.sent.length < U'.sent.length)

theorem Returns.self (hinv : StoreInv cfg program answered h w busy front U) {asks : Prop}
    (hnot : ¬ asks) : Returns cfg program answered w asks U (some U) :=
  ⟨U, h, w, busy, front, rfl, Frame.refl U, hinv, le_refl w, fun hasks => absurd hasks hnot⟩

/-! ## The loops over the queue -/

section Writeback

variable (hinv : StoreInv cfg program answered h w busy front U)
include hinv

/-- The condition of the loop of `writebackStores` when the port is not blocked. -/
theorem current_of_mayWriteback
    (hmay : U.mayWriteback cfg = true) : ∃ s, program[w]? = some s ∧ s.canWB = true := by
  simp only [mayWriteback, ne_eq, decide_not, and_eq_true, decide_eq_true_eq, not_eq_eq_eq_not,
    Bool.not_true, decide_eq_false_iff_not] at hmay
  rcases hmay with ⟨⟨⟨⟨⟨-, htail⟩, -⟩, hcan⟩, -⟩, -⟩
  have hlt : w < program.length := by
    rcases eq_or_lt_of_le hinv.ring.le_tail with heq | hlt
    · refine absurd (hinv.wb.trans ?_) htail
      rw [heq]
      exact hinv.ring.tail.symm
    · exact hlt
  have hs := getElem?_eq_getElem hlt
  rcases hinv.ring.entry_of_le (le_refl w) hs with ⟨c, he, -, -⟩
  rw [hinv.wb, (entry_fields (U := U) he).2.1] at hcan
  exact ⟨_, hs, hcan⟩

/-- Nothing waits if the port is not blocked and no packet is pending. -/
theorem idle_of_not_blocked
    (hblocked : U.isStoreBlocked = false) (hpending : U.hasPendingPkt = false) :
    busy = false ∧ front = [] ∧ U.port = {} := by
  have hsending := hinv.sending
  have hb : U.port.isStoreBlocked = false := hblocked
  have hp : U.port.hasPendingPkt = false := hpending
  generalize U.port = P at hsending hb hp
  cases hsending with
  | idle => exact ⟨rfl, rfl, rfl⟩
  | retry => cases hb
  | retryBoth => cases hb
  | pending => cases hp

omit hinv in
theorem writebackLoop_of_stop (fuel : ℕ)
    (hstop : (U.mayWriteback cfg && !U.isStoreBlocked) = false) :
    writebackLoop cfg fuel U = some U := by
  cases fuel <;> simp [writebackLoop, hstop]

/-- The loop of `writebackStores`: at most one iteration for each store from `w` on does not end
it. -/
theorem writebackLoop_spec
    (hpending : U.hasPendingPkt = true → cfg.cacheStorePorts ≤ U.usedStorePorts)
    (hfuel : program.length - w ≤ fuel) :
    Returns cfg program answered w ((U.mayWriteback cfg && !U.isStoreBlocked) = true) U
      (writebackLoop cfg fuel U) := by
  induction fuel generalizing U h w busy front with
  | zero =>
    have hstop : ¬ (U.mayWriteback cfg && !U.isStoreBlocked) = true := by
      intro hgo
      rw [and_eq_true] at hgo
      rcases current_of_mayWriteback hinv hgo.1 with ⟨s, hs, -⟩
      have := Ring.lt_length hs
      omega
    rw [writebackLoop_of_stop 0 (eq_false_iff.2 hstop)]
    exact .self hinv hstop
  | succ fuel ih =>
    unfold writebackLoop
    split
    case isFalse hstop => exact .self hinv hstop
    case isTrue hgo =>
      simp only [and_eq_true, not_eq_eq_eq_not, Bool.not_true] at hgo
      rcases hgo with ⟨hmay, hblocked⟩
      rcases current_of_mayWriteback hinv hmay with ⟨s, hs, hcan⟩
      have hports : U.usedStorePorts < cfg.cacheStorePorts := by
        simp only [mayWriteback, and_eq_true, decide_eq_true_eq] at hmay
        exact hmay.2
      have hnot : U.hasPendingPkt = false := by
        cases hp : U.hasPendingPkt with
        | false => rfl
        | true => exact absurd (hpending hp) (not_le.2 hports)
      rcases idle_of_not_blocked hinv hblocked hnot with ⟨rfl, rfl, hport⟩
      rcases writebackStore_writesBack ⟨hinv.ring, hinv.wb, hs, hcan, hinv.sent, hport⟩ with
        ⟨V, h', w', busy', front', hV, hframe, hinv', hmore, hpending'⟩
      rw [hV]
      change Returns cfg program answered w _ U (writebackLoop cfg fuel V)
      rcases hmore with rfl | ⟨rfl, hstop, hlength⟩
      · rcases ih hinv' hpending' (by omega) with
          ⟨W, h'', w'', busy'', front'', hW, hframe', hinv'', hle, -⟩
        exact ⟨W, h'', w'', busy'', front'', hW, hframe.trans hframe', hinv'', by omega,
          fun _ _ => .inl hle⟩
      · -- the loop stops at its condition
        refine ⟨V, h', w', busy', front', writebackLoop_of_stop fuel ?_, hframe, hinv',
          le_refl w', ?_⟩
        case refine_2 =>
          intro _ haccepts
          rw [haccepts] at hlength
          exact .inr hlength
        rcases hstop with hstop | hstop
        · rw [hstop]
          exact and_false _
        · have : decide (V.usedStorePorts < cfg.cacheStorePorts) = false :=
            decide_eq_false (not_lt.2 hstop)
          simp [mayWriteback, this]

/-- The second half that waits for a port is sent, or it waits for the retry. -/
theorem writebackPendingStore_spec :
    ∃ U' w' busy' front', U.writebackPendingStore cfg = some U' ∧ Frame U U'
      ∧ StoreInv cfg program answered h w' busy' front' U' ∧ U'.hasPendingPkt = false
      ∧ w ≤ w' ∧ (U' = U ∨ (U.accepts = true → w < w')) := by
  have hsending := hinv.sending
  have hport : ∀ {P : Port}, U.port = P → U.hasPendingPkt = P.hasPendingPkt := fun heq =>
    congrArg Port.hasPendingPkt heq
  unfold writebackPendingStore
  generalize hP : U.port = P at hsending
  have hnone : P.hasPendingPkt = false →
      ∃ U' w' busy' front', some U = some U' ∧ Frame U U'
        ∧ StoreInv cfg program answered h w' busy' front' U' ∧ U'.hasPendingPkt = false
        ∧ w ≤ w' ∧ (U' = U ∨ (U.accepts = true → w < w')) := fun hp =>
    ⟨U, w, busy, front, rfl, Frame.refl U, hinv, (hport hP).trans hp, le_refl w, .inl rfl⟩
  cases hsending with
  | idle | retry | retryBoth =>
    rw [hport hP, Bool.and_false]
    exact hnone rfl
  | pending front pkt hpkts hcfg =>
    have hpkt : U.pendingPkt = some pkt := congrArg Port.pendingPkt hP
    have hretry : U.retryPkt = none := congrArg Port.retryPkt hP
    rcases hinv.ring.current rfl with ⟨s, hs, -⟩
    rw [hport hP, hcfg, hpkt]
    rcases sendLast_cases hinv.ring hinv.wb pkt {} hretry with ⟨V, hV, hover⟩
      | ⟨V, hV, hframe, hportV, hsentV, hidxV, hringV, hrefused⟩
    · refine ⟨{ V with pendingPkt := none, hasPendingPkt := false }, w + 1, false, [], by simp [hV],
        { hover.toFrame with }, StoreInv.of_idle hover.ring hover.wb ?_ ?_, rfl, le_succ w,
        .inr fun _ => lt_succ_self w⟩
      · exact hinv.packets_sent hs hpkts hover.sent
      · exact congrArg (fun P : Port => { P with pendingPkt := none, hasPendingPkt := false })
          (hover.port.trans hP)
    · rw [hP] at hportV
      refine ⟨{ V with pendingPkt := none, hasPendingPkt := false }, w, true, front, by simp [hV],
        { hframe with }, ⟨hringV, hidxV, hsentV.trans hinv.sent, ?_⟩, rfl, le_refl w,
        .inr fun haccepts => absurd (hrefused.symm.trans haccepts) false_ne_true⟩
      have hportW : ({ V with pendingPkt := none, hasPendingPkt := false } : LSQUnit).port
          = { retryPkt := some (pkt, {}), isStoreBlocked := true } :=
        congrArg (fun P : Port => { P with pendingPkt := none, hasPendingPkt := false }) hportV
      rw [hportW]
      exact .retry front pkt {} hpkts (.inl rfl)

/-- Only the data port decides whether `writebackStores` goes on with the store at `w`: it is not
blocked, the store may be written back, there is a store port, and no earlier store has to be
completed first. -/
structure Asks (cfg : Config) (program : List Store) (w : ℕ) (U : LSQUnit) : Prop where
  unblocked : U.isStoreBlocked = false
  canWB : ∃ s ∈ program[w]?, s.canWB = true
  ports : U.usedStorePorts < cfg.cacheStorePorts
  inFlight : cfg.needsTSO = true → U.storeInFlight = false

theorem Asks.mayWriteback (hasks : Asks cfg program w U) : U.mayWriteback cfg = true := by
  rcases hasks.canWB with ⟨s, hs, hcan⟩
  have hlt := Ring.lt_length hs
  rcases hinv.ring.entry_of_le (le_refl w) hs with ⟨c, he, -, -⟩
  rcases entry_fields (U := U) he with ⟨hinst, hflag, hopen⟩
  have hwaits : 0 < U.storesToWB := by
    have hcount : U.storesToWB = countSlots cfg.sqEntries SQEntry.waiting U.storeQueue :=
      hinv.ring.storesToWB
    have hne : countSlots cfg.sqEntries SQEntry.waiting U.storeQueue ≠ 0 := by
      intro hzero
      have := countSlots_eq_zero.1 hzero (w % cfg.sqEntries) (mod_lt w cfg.sq_pos)
      simp [SQEntry.waiting, hflag, hopen, hcan] at this
    omega
  have htail : U.storeWBIdx ≠ U.storeTail := by
    intro heq
    have hfits := hinv.ring.fits
    have := hinv.ring.head_le
    have := eq_of_slot_eq (le_refl w) (by omega) (le_of_lt hlt) (by omega)
      (hinv.wb.symm.trans (heq.trans hinv.ring.tail))
    omega
  have hfree : (!cfg.needsTSO || !U.storeInFlight) = true := by
    cases htso : cfg.needsTSO with
    | false => rfl
    | true => simp [hasks.inFlight htso]
  rw [← hinv.wb] at hinst hflag
  simp [LSQUnit.mayWriteback, hwaits, htail, hinst, hflag, hcan, hfree, hasks.ports]

/-- `writebackStores` returns, and its last assertion holds. -/
theorem writebackStores_spec :
    Returns cfg program answered w (Asks cfg program w U) U (U.writebackStores cfg) := by
  rcases writebackPendingStore_spec hinv with
    ⟨V, w₁, busy₁, front₁, hV, hframe, hinv₁, hpending, hle₁, hmore⟩
  have hfits := hinv₁.ring.fits
  have hhead := hinv₁.ring.head_le
  have hfuel : program.length - w₁ ≤ cfg.sqEntries + 1 := by omega
  rcases writebackLoop_spec hinv₁ (fun hp => absurd (hpending.symm.trans hp) false_ne_true)
      hfuel with
    ⟨W, h₂, w₂, busy₂, front₂, hW, hframe', hinv₂, hle₂, hfurther⟩
  refine ⟨{ W with usedStorePorts := 0 }, h₂, w₂, busy₂, front₂, ?_, ?_, ?_, le_trans hle₁ hle₂, ?_⟩
  · have hstores : 0 ≤ W.stores := by
      have hR := hinv₂.ring
      have h₁ := hR.stores
      have h₂ := hR.head_le
      have h₃ := hR.le_tail
      change W.stores = _ at h₁
      omega
    have hcount : 0 ≤ W.storesToWB := by
      have := hinv₂.ring.storesToWB
      change W.storesToWB = _ at this
      omega
    simp [writebackStores, hV, hW, hstores, hcount]
  · exact { hframe.trans hframe' with }
  · exact { hinv₂ with }
  · intro hasks haccepts
    rcases hmore with rfl | hmore
    · have hgo : (V.mayWriteback cfg && !V.isStoreBlocked) = true := by
        simp [hasks.mayWriteback hinv, hasks.unblocked]
      exact (hfurther hgo haccepts).imp_left (lt_of_le_of_lt hle₁)
    · exact .inl (lt_of_lt_of_le (hmore haccepts) hle₂)

/-- The packet kept for the retry has been accepted. -/
theorem retried_spec (hretry : U.retryPkt = some (pkt, state)) :
    ∃ U' h' w' busy' front', U.retried cfg pkt state = some U' ∧ Frame U U'
      ∧ StoreInv cfg program answered h' w' busy' front' U' ∧ w ≤ w'
      ∧ (w < w' ∨ U.sent.length < U'.sent.length) := by
  have hsending := hinv.sending
  have hP : U.port.retryPkt = some (pkt, state) := hretry
  generalize hport : U.port = P at hsending
  rw [hport] at hP
  cases hsending with
  | idle => cases hP
  | pending => cases hP
  | retry front pkt state hpkts hstate =>
    cases hP
    rcases hinv.ring.current rfl with ⟨s, hs, hcan⟩
    rcases storePostSend_spec (U := { U with sent := U.sent ++ [pkt] }) hinv.ring hinv.wb
        hs hcan with
      ⟨V, hV, hover⟩
    refine ⟨{ V with retryPkt := none, isStoreBlocked := false }, h, w + 1, false, [], ?_,
      { hover.toFrame with }, StoreInv.of_idle hover.ring hover.wb ?_ ?_, le_succ w,
      .inl (lt_succ_self w)⟩
    · have hlast : (!cfg.hasUnalignedMemAcc || !state.pktToSend ||
          decide (state.pendingPacket = some pkt)) = true := by
        rcases hstate with hstate | hstate <;> simp [hstate]
      unfold retried
      rw [if_pos hlast, hV]
      rfl
    · exact hinv.packets_sent hs hpkts (hover.sent.trans (append_nil _))
    · exact congrArg (fun P : Port => { P with retryPkt := none, isStoreBlocked := false })
        (hover.port.trans hport)
  | retryBoth _ high hpkts hne hcfg =>
    cases hP
    rcases hinv.ring.current rfl with ⟨s, hs, hcan⟩
    rw [StoreInv.packetsAt_eq hs] at hpkts
    have hsent := hinv.sent
    rw [append_nil] at hsent
    have hport' :
        ({ U with sent := U.sent ++ [pkt], retryPkt := none, isStoreBlocked := false } :
        LSQUnit).port = {} :=
      congrArg (fun P : Port => { P with retryPkt := none, isStoreBlocked := false }) hport
    have hmore : ¬ (!cfg.hasUnalignedMemAcc || !true || decide (some high = some pkt)) = true := by
      simp [hcfg, hne]
    have hlast : WritesBack cfg program answered w
        { U with sent := U.sent ++ [pkt], retryPkt := none, isStoreBlocked := false } _ :=
      sendLast_writesBack
        (U := { U with sent := U.sent ++ [pkt], retryPkt := none, isStoreBlocked := false })
        ⟨hinv.ring, hinv.wb, hs, hcan, congrArg (· ++ [pkt]) hsent, hport'⟩ hpkts
        (.inr (rfl : (⟨true, some high⟩ : SenderState).pendingPacket = _))
    rcases hlast with ⟨V, h', w', busy', front', hV, hframe, hinv', hnext, -⟩
    refine ⟨V, h', w', busy', front', ?_, { hframe with }, hinv', by omega, ?_⟩
    · unfold retried
      rw [if_neg hmore]
      exact hV
    · rcases hnext with rfl | ⟨-, -, hlength⟩
      · exact .inl (lt_succ_self w)
      · rw [length_append, length_singleton] at hlength
        exact .inr (by omega)

theorem recvRetry_spec :
    Returns cfg program answered w (U.isStoreBlocked = true) U (U.recvRetry cfg) := by
  unfold recvRetry
  split
  case isFalse hfree => exact .self hinv hfree
  case isTrue hblocked =>
    have hretry : ∃ pkt state, U.retryPkt = some (pkt, state) := by
      have hsending := hinv.sending
      have hb : U.port.isStoreBlocked = true := hblocked
      generalize hport : U.port = P at hsending hb
      cases hsending with
      | idle => cases hb
      | retry front pkt state => exact ⟨pkt, state, congrArg Port.retryPkt hport⟩
      | retryBoth low high => exact ⟨low, _, congrArg Port.retryPkt hport⟩
      | pending => cases hb
    rcases hretry with ⟨pkt, state, hretry⟩
    rw [hretry]
    unfold Returns sendTimingReq accepts
    rcases hanswers : U.answers with _ | ⟨_ | _, answers⟩
    · exact ⟨U, h, w, busy, front, rfl, Frame.refl U, hinv, le_refl w, fun _ => nofun⟩
    · exact ⟨_, h, w, busy, front, rfl, ⟨rfl, rfl, id⟩, { hinv with }, le_refl w, fun _ => nofun⟩
    · rcases retried_spec (U := { U with answers := answers }) { hinv with }
        hretry with ⟨V, h', w', busy', front', hV, hframe, hinv', hle, hfurther⟩
      exact ⟨V, h', w', busy', front', hV, { hframe with }, hinv', hle, fun _ _ => hfurther⟩

end Writeback

/-! ## Store ports -/

theorem storePostSend_ports (h : U.storePostSend cfg = some U') :
    U'.usedStorePorts = U.usedStorePorts := by
  grind [storePostSend, unstall]

variable {state : SenderState}

theorem sendLast_ports (h : U.sendLast cfg pkt state = some U') :
    U'.usedStorePorts = U.usedStorePorts := by
  rcases bind_eq_some_iff.1 h with ⟨⟨accepted, V⟩, hV, h⟩
  have hsend : V.usedStorePorts = U.usedStorePorts := by
    grind [sendStore, sendTimingReq]
  grind [storePostSend_ports]

theorem retried_ports (h : U.retried cfg pkt state = some U') :
    U'.usedStorePorts = U.usedStorePorts := by
  unfold retried at h
  split at h
  case isTrue =>
    rcases bind_eq_some_iff.1 h with ⟨V, hV, h⟩
    have hports := storePostSend_ports hV
    exact some.inj h ▸ hports
  case isFalse =>
    split at h
    · cases h
    · have hports := sendLast_ports h
      exact hports

theorem recvRetry_ports (h : U.recvRetry cfg = some U') (hports : U.usedStorePorts = 0) :
    U'.usedStorePorts = 0 := by
  unfold recvRetry sendTimingReq at h
  split at h
  case isTrue =>
    split at h
    · cases h
    · rcases hanswers : U.answers with _ | ⟨_ | _, answers⟩
      all_goals rw [hanswers] at h
      · exact some.inj h ▸ hports
      · exact some.inj h ▸ hports
      · exact (retried_ports h).trans hports
  case isFalse => exact some.inj h ▸ hports

theorem writebackStores_ports (h : U.writebackStores cfg = some U') (_ : U.usedStorePorts = 0) :
    U'.usedStorePorts = 0 := by
  rcases bind_eq_some_iff.1 h with ⟨V, -, h⟩
  rcases bind_eq_some_iff.1 h with ⟨W, -, h⟩
  split at h
  case isTrue => exact some.inj h ▸ rfl
  case isFalse => cases h

/-! ## Insertion, execution and commit -/

variable (hinv : StoreInv cfg program answered h w busy front U)

include hinv in
theorem insertStore_spec (hfree : U.stores < cfg.sqEntries - 1) (hmem : inst.memData = none)
    (hseq : ∀ s ∈ program, s.inst.seqNum < inst.seqNum) :
    ∃ U', U.insertStore cfg inst = some U' ∧ Apart U U'
      ∧ StoreInv cfg (program ++ [{ inst := U.placed inst }]) answered h w busy front U' := by
  have hR := hinv.ring
  have hstores : U.stores = (program.length : ℤ) - h := hR.stores
  have htail : U.storeTail = program.length % cfg.sqEntries := hR.tail
  have hhead : U.storeHead = h % cfg.sqEntries := hR.head
  have hle := hR.le_tail
  have hle' := hR.head_le
  have hfits : program.length + 1 < h + cfg.sqEntries := by omega
  have hnext : (U.storeTail + 1) % cfg.sqEntries = (program.length + 1) % cfg.sqEntries := by
    rw [htail, mod_add_mod]
  have hroom : ¬ (U.storeTail + 1) % cfg.sqEntries = U.storeHead := by
    rw [hnext, hhead]
    intro heq
    have hlo : h ≤ program.length + 1 := by omega
    have := eq_of_slot_eq hlo hfits (le_refl h) (by omega) heq
    omega
  have hidx : incrStIdx cfg U.storeTail = (program.length + 1) % cfg.sqEntries := by
    rw [htail]
    exact nextSlot_mod cfg.sq_pos _
  refine ⟨{ U.setStore U.storeTail { inst := some (U.placed inst) } with
      storeTail := incrStIdx cfg U.storeTail
      stores := U.stores + 1 }, ?_, ⟨⟨rfl, rfl, id⟩, rfl⟩, hinv.change ?_ rfl rfl rfl ?_ ?_⟩
  · unfold insertStore
    rw [if_neg hroom, if_pos (by omega)]
  · have hplaced : (U.placed inst).sqIdx = some (program.length % cfg.sqEntries) :=
      congrArg some htail
    have hring : Ring cfg (program ++ [{ inst := U.placed inst }]) answered h w busy _ :=
      hR.insert hfits hplaced hmem hseq
    rw [← hidx, ← htail] at hring
    exact hring
  · rw [take_append_of_le_length hle]
  · intro hbusy
    rcases hR.current hbusy with ⟨s, hs, -⟩
    rw [packetsAt, packetsAt, getElem?_append_left (Ring.lt_length hs)]

theorem checkViolationsFrom_storeSide {isLoad : Bool}
    (hU : checkViolationsFrom cfg isLoad inst fuel i U = some U') :
    U'.ring = U.ring ∧ U'.port = U.port ∧ U'.sent = U.sent ∧ U'.storeWBIdx = U.storeWBIdx
      ∧ U'.stalled = U.stalled := by
  fun_induction checkViolationsFrom cfg isLoad inst fuel i U with
  | case4 _ _ _ _ _ _ _ ih | case6 _ _ _ _ _ _ _ _ _ ih => exact ih hU
  | _ => cases hU <;> exact ⟨rfl, rfl, rfl, rfl, rfl⟩

/-- The unit after the write of an executing store, before the check for violations. -/
def storeWritten (cfg : Config) (U : LSQUnit) (i : ℕ) (s : Store) : LSQUnit :=
  { U.setStore i (s.entry cfg false false) with storesToWB := U.storesToWB + s.canWB.toNat }

theorem storeWritten_of_not (h : s.canWB = false) :
    storeWritten cfg U i s = U.setStore i (s.entry cfg false false) := by
  unfold storeWritten
  rw [h]
  simp only [toNat_false, cast_zero, add_zero]
  rfl

theorem setStore_idem (i : ℕ) (e e' : SQEntry) :
    (U.setStore i e).setStore i e' = U.setStore i e' := by
  simp [setStore]

theorem setStore_self (i : ℕ) (e : SQEntry) : (U.setStore i e).storeQueue i = e := by
  simp [setStore]

theorem executeStore_write (hentry : U.storeQueue p = s.entry cfg false false)
    (hstores : U.stores ≠ 0) (ha : s.access = none) (hcan : s.canWB = false)
    (hmem : s.inst.memData = none) (hvalid : a.Valid cfg s.inst) :
    U.executeStore cfg p (.write a)
      = if a.req.size % 256 = 0 then some (storeWritten cfg U p (s.execute (.write a)))
        else checkViolations cfg false s.inst.lqIdx (s.inst.access a.req)
          (storeWritten cfg U p (s.execute (.write a))) := by
  rcases s with ⟨inst, access, canWB⟩
  subst ha hcan
  have hfits : (decide (a.req.size ≤ 16) || a.req.cacheBlockZero) = true := by
    rcases hvalid.fits with hfits | ⟨hzero, -⟩
    · simp [hfits]
    · simp [hzero]
  -- the entry behind `write`
  have hmade : written cfg { U.storeQueue p with inst := some (inst.access a.req) } a
      = entry cfg ⟨inst, some a, false⟩ false false := by
    rw [hentry]
    have hkeep : { inst.access a.req with memData := none } = inst.access a.req := by
      rw [← hmem]
      rfl
    simp only [entry, dynInst, false_eq_true, ↓reduceIte, hkeep]
    rfl
  have hwrite : (U.setStore p { U.storeQueue p with inst := some (inst.access a.req) }).write
      cfg a p = some (U.setStore p (entry cfg ⟨inst, some a, false⟩ false false)) := by
    unfold write
    rw [setStore_self, setStore_idem, hmade]
    exact if_pos hfits
  have hinst : (U.storeQueue p).inst = some inst := by
    rw [hentry]
    rfl
  unfold executeStore
  rw [if_neg hstores]
  rw [hinst]
  dsimp only
  rw [hwrite]
  change finishExecuteStore cfg p (inst.access a.req) _ = _
  unfold finishExecuteStore
  rw [setStore_self]
  change (if a.req.size % 256 = 0 then _ else _) = _
  have hsc : (inst.access a.req).isStoreConditional = inst.isStoreConditional := rfl
  have hlq : (inst.access a.req).lqIdx = inst.lqIdx := rfl
  have hidem : ∀ e : SQEntry,
      (U.setStore p (entry cfg ⟨inst, some a, false⟩ false false)).setStore p e = U.setStore p e :=
    fun e => setStore_idem p _ e
  have hexecute : execute ⟨inst, none, false⟩ (.write a)
      = ⟨inst, some a, inst.isStoreConditional && decide (a.req.size % 256 ≠ 0)⟩ := rfl
  rw [hexecute]
  by_cases hzero : a.req.size % 256 = 0
  · have hnot : (inst.isStoreConditional && decide (a.req.size % 256 ≠ 0)) = false := by
      simp [hzero]
    rw [if_pos hzero, if_pos hzero, hnot, storeWritten_of_not rfl]
  · rw [if_neg hzero, if_neg hzero, hsc, hlq]
    cases hcond : inst.isStoreConditional with
    | false =>
      rw [Bool.false_and, storeWritten_of_not rfl]
      rfl
    | true =>
      have hyes : (true && decide (a.req.size % 256 ≠ 0)) = true := by simp [hzero]
      rw [if_pos rfl, hyes, hidem]
      rfl

variable (hR : Ring cfg program answered h w busy U.ring)

include hR in
/-- A store that may not be written back has not been handed over, and it is not being handed
over. -/
theorem entry_of_not_canWB (hs : program[p]? = some s) (hcan : s.canWB = false) :
    w ≤ p ∧ U.storeQueue (p % cfg.sqEntries) = s.entry cfg false false
    ∧ (p = w → busy = false) := by
  have hwp : w ≤ p := by
    rcases lt_or_ge p w with hlt | hge
    · exact absurd (hR.canWB p s hs hlt) (by simp [hcan])
    · exact hge
  have hidle : p = w → busy = false := by
    rintro rfl
    cases hbusy : busy with
    | false => rfl
    | true =>
      rcases hR.current hbusy with ⟨t, ht, htcan⟩
      obtain rfl := some.inj (hs.symm.trans ht)
      exact absurd htcan (by simp [hcan])
  rcases hR.entry_of_le hwp hs with ⟨c, he, hlater, hnow⟩
  have hc : c = false := by
    rcases eq_or_lt_of_le hwp with rfl | hlt
    · exact (hnow rfl).trans (hidle rfl)
    · exact hlater hlt
  exact ⟨hwp, hc ▸ he, hidle⟩

include hinv in
/-- A store of the queue is rewritten behind the stores that have been handed over. -/
theorem storeWritten_spec (hs : program[p]? = some s)
    (hcan : s.canWB = false) (hinst : s'.inst = s.inst)
    (hvalid : ∀ a, s'.access = some a → a.Valid cfg s.inst) :
    StoreInv cfg (program.set p s') answered h w busy front
    (storeWritten cfg U (p % cfg.sqEntries) s') := by
  rcases entry_of_not_canWB hinv.ring hs hcan with ⟨hwp, -, hidle⟩
  refine hinv.change ?_ rfl rfl rfl ?_ ?_
  · have hset : Ring cfg (program.set p s') answered h w busy _ :=
      hinv.ring.set hs hwp (fun _ => rfl) (fun hpw => (hidle hpw).symm) (fun _ => rfl)
        (fun hpw hbusy => absurd (hidle hpw) (by simp [hbusy])) hinst hvalid
    rw [hcan] at hset
    simp only [toNat_false, cast_zero, sub_zero] at hset
    exact hset
  · rw [take_set_of_le hwp]
  · intro hbusy
    have hne : p ≠ w := fun hpw => absurd (hidle hpw) (by simp [hbusy])
    rw [packetsAt, packetsAt, getElem?_set_ne hne]

include hR in
theorem stores_ne_zero (hs : program[p]? = some s) (hwp : w ≤ p) : U.stores ≠ 0 := by
  have hstores : U.stores = (program.length : ℤ) - h := hR.stores
  have := Ring.lt_length hs
  have := hR.head_le
  omega

include hinv in
/-- `executeStore`: the store side is that of the program with the executed store. -/
theorem executeStore_spec (hs : program[p]? = some s)
    (ha : s.access = none) (hcan : s.canWB = false) {acc : StoreAcc}
    (hvalid : ∀ a, acc = .write a → a.Valid cfg s.inst)
    (hU : U.executeStore cfg (p % cfg.sqEntries) acc = some U') :
    StoreInv cfg (program.set p (s.execute acc)) answered h w busy front U' := by
  rcases entry_of_not_canWB hinv.ring hs hcan with ⟨hwp, hentry, -⟩
  have hstores := stores_ne_zero hinv.ring hs hwp
  have hkeep : some U = some U' → StoreInv cfg (program.set p s) answered h w busy front U' := by
    intro hsame
    rw [Ring.set_same hs]
    exact some.inj hsame ▸ hinv
  cases acc with
  | delayed | predicatedFalse =>
    unfold executeStore at hU
    rw [if_neg hstores] at hU
    exact hkeep hU
  | fault =>
    unfold executeStore at hU
    rw [if_neg hstores] at hU
    exact hkeep (ite_none_right_eq_some.1 hU).2
  | write a =>
    have hmem := hinv.ring.fresh s (mem_of_getElem? hs)
    rw [executeStore_write hentry hstores ha hcan hmem (hvalid a rfl)] at hU
    have hwritten : StoreInv cfg (program.set p (s.execute (.write a))) answered h w busy front
        (storeWritten cfg U (p % cfg.sqEntries) (s.execute (.write a))) := by
      refine storeWritten_spec hinv hs hcan rfl ?_
      intro b hb
      cases hb
      exact hvalid a rfl
    split at hU
    case isTrue =>
      cases hU
      exact hwritten
    case isFalse =>
      rcases checkViolationsFrom_storeSide hU with ⟨hring, hport, hsent, hwb, -⟩
      refine hwritten.change ?_ hport hsent hwb rfl (fun _ => rfl)
      rw [hring]
      exact hwritten.ring

theorem map_commit_eq_self (hfix : ∀ (q : ℕ) (s : Store), program[q]? = some s →
    s.commit youngest = s) : program.map (commit youngest) = program := by
  have hid : program.map (commit youngest) = program.map id := by
    apply map_congr_left
    intro s hs
    rcases mem_iff_getElem?.1 hs with ⟨q, hq⟩
    exact hfix q s hq
  exact hid.trans (map_id program)

/-- Marking a store before the others does not change what is marked in the end. -/
theorem map_commit_set (hs : program[p]? = some s) (hold : s.inst.seqNum ≤ youngest) :
    (program.set p { s with canWB := true }).map (commit youngest) =
    program.map (commit youngest) := by
  have hsame : commit youngest { s with canWB := true } = s.commit youngest := by
    rw [commit, commit, if_pos hold, if_pos hold]
  rw [map_set, hsame]
  exact Ring.set_same (by rw [getElem?_map, hs]; rfl)

include hinv in
/-- The loop of `commitStores` from position `i` on marks the stores up to a sequence number. -/
theorem commitStoresFrom_spec (hhi : h ≤ i) (hi : i ≤ program.length)
    (hmarked : ∀ q s, q < i → program[q]? = some s → s.commit youngest = s)
    (hfuel : program.length - i < fuel) :
    ∃ U', commitStoresFrom cfg youngest fuel (i % cfg.sqEntries) U = some U' ∧ Apart U U'
      ∧ StoreInv cfg (program.map (commit youngest)) answered h w busy front U' := by
  induction fuel generalizing U program i with
  | zero => omega
  | succ fuel ih =>
    have hR := hinv.ring
    have hfits := hR.fits
    have htail : U.storeTail = program.length % cfg.sqEntries := hR.tail
    unfold commitStoresFrom
    rcases eq_or_lt_of_le hi with rfl | hlt
    · rw [if_pos htail.symm, map_commit_eq_self fun q s hq => hmarked q s (Ring.lt_length hq) hq]
      exact ⟨U, rfl, Apart.refl U, hinv⟩
    · have hne : ¬ i % cfg.sqEntries = U.storeTail := by
        rw [htail]
        intro heq
        have := eq_of_slot_eq hhi (by omega) (by omega) hfits heq
        omega
      have hs := getElem?_eq_getElem hlt
      generalize program[i] = s at hs
      rcases hR.entries i s hhi hs with ⟨c, d, he, -⟩
      rcases entry_fields (U := U) he with ⟨hinst, hflag, -⟩
      have hnext : incrStIdx cfg (i % cfg.sqEntries) = (i + 1) % cfg.sqEntries :=
        nextSlot_mod cfg.sq_pos i
      have hseq := s.dynInst_seqNum cfg c
      rw [if_neg hne, hinst]
      dsimp only
      rw [hflag, hseq, hnext]
      -- the stores before `i + 1` are marked once the one at `i` is
      have hmarked' : s.commit youngest = s →
          ∀ q t, q < i + 1 → program[q]? = some t → t.commit youngest = t := by
        intro hfix q t hq ht
        rcases Nat.lt_succ_iff_lt_or_eq.1 hq with hlt' | rfl
        · exact hmarked q t hlt' ht
        · have hst : s = t := some.inj (hs.symm.trans ht)
          exact hst ▸ hfix
      cases hcan : s.canWB with
      | true =>
        exact ih hinv (by omega) hlt (hmarked' (commit_of_canWB hcan youngest)) (by omega)
      | false =>
        rcases lt_or_ge youngest s.inst.seqNum with hyoung | hold
        · -- the stores from here on are younger
          rw [if_neg Bool.false_ne_true, if_pos hyoung]
          refine ⟨U, rfl, Apart.refl U, ?_⟩
          rw [map_commit_eq_self]
          · exact hinv
          · intro q t ht
            rcases lt_or_ge q i with hlt' | hge
            · exact hmarked q t hlt' ht
            · have hle : s.inst.seqNum ≤ t.inst.seqNum := by
                rcases eq_or_lt_of_le hge with rfl | hlt'
                · have hst : s = t := some.inj (hs.symm.trans ht)
                  exact le_of_eq (congrArg (fun s : Store => s.inst.seqNum) hst)
                · exact le_of_lt (hR.seqNum_lt hlt' hs ht)
              exact if_neg (not_le.2 (lt_of_lt_of_le hyoung hle))
        · rw [if_neg Bool.false_ne_true, if_neg (not_lt.2 hold)]
          rcases entry_of_not_canWB hR hs hcan with ⟨-, hentry', -⟩
          have hmark : { U.setStore (i % cfg.sqEntries)
              { U.storeQueue (i % cfg.sqEntries) with canWB := true } with
                storesToWB := U.storesToWB + 1 }
              = storeWritten cfg U (i % cfg.sqEntries) { s with canWB := true } := by
            rw [hentry']
            rfl
          have hwritten : StoreInv cfg (program.set i { s with canWB := true }) answered h w busy
              front _ :=
            storeWritten_spec hinv hs hcan rfl (hR.valid s (mem_of_getElem? hs))
          rw [hmark, ← map_commit_set hs hold]
          have hlength : (program.set i { s with canWB := true }).length = program.length :=
            length_set
          have hmore := ih (i := i + 1) hwritten (by omega) (by omega) ?_ (by omega)
          · rcases hmore with ⟨U', hU', hframe, hinv'⟩
            exact ⟨U', hU', { hframe with }, hinv'⟩
          · intro q t hq ht
            rcases Nat.lt_succ_iff_lt_or_eq.1 hq with hlt' | rfl
            · rw [getElem?_set_ne (ne_of_gt hlt')] at ht
              exact hmarked q t hlt' ht
            · rw [getElem?_set_self hlt] at ht
              cases ht
              exact commit_of_canWB rfl youngest

include hinv in
theorem commitStores_spec (youngest : ℕ) :
    ∃ U', U.commitStores cfg youngest = some U' ∧ Apart U U'
      ∧ StoreInv cfg (program.map (commit youngest)) answered h w busy front U' := by
  have hR := hinv.ring
  have hle := le_trans hR.head_le hR.le_tail
  have hfits := hR.fits
  have hstart : (decide (U.stores = 0) || (U.storeQueue U.storeHead).inst.isSome) = true := by
    rcases eq_or_lt_of_le hle with heq | hlt
    · have hstores : U.stores = (program.length : ℤ) - h := hR.stores
      have hzero : U.stores = 0 := by omega
      simp [hzero]
    · rcases hR.entries h _ (le_refl h) (getElem?_eq_getElem hlt) with ⟨c, d, he, -⟩
      have hhead : U.storeHead = h % cfg.sqEntries := hR.head
      have hentry : U.storeQueue U.storeHead = entry cfg program[h] c d := by
        rw [hhead]
        exact he
      rw [hentry]
      exact or_true _
  have hmarked : ∀ q s, q < h → program[q]? = some s → s.commit youngest = s := fun q s hq hs =>
    commit_of_canWB (hR.canWB q s hs (lt_of_lt_of_le hq hR.head_le)) youngest
  unfold commitStores
  rw [if_pos hstart]
  have hhead : U.storeHead = h % cfg.sqEntries := hR.head
  rw [hhead]
  exact commitStoresFrom_spec hinv (le_refl h) hle hmarked (by omega)

/-! ## Squash -/

include hR in
theorem exists_last (hstores : U.stores ≠ 0) :
    ∃ older s, program = older ++ [s] ∧ decrStIdx cfg U.storeTail = older.length % cfg.sqEntries
      ∧ ∃ c d, U.storeQueue (older.length % cfg.sqEntries) = s.entry cfg c d := by
  have hcount : U.stores = (program.length : ℤ) - h := hR.stores
  have htail : U.storeTail = program.length % cfg.sqEntries := hR.tail
  have hle := le_trans hR.head_le hR.le_tail
  rcases eq_nil_or_concat program with rfl | ⟨older, s, rfl⟩
  · simp at hcount hle
    omega
  · rw [concat_eq_append] at *
    have hlength : (older ++ [s]).length = older.length + 1 := by simp
    rw [hlength] at htail hcount
    refine ⟨older, s, rfl, ?_, ?_⟩
    · rw [htail]
      exact prevSlot_mod cfg.sq_pos older.length
    · rcases hR.entries older.length s (by omega) (by simp) with ⟨c, d, he, -⟩
      exact ⟨c, d, he⟩

include hR in
/-- A queue that is empty keeps its program: all its stores may be written back. -/
theorem squashed_of_empty (hzero : U.stores = 0) (n : ℕ) :
    program.rdropWhile (isSquashed n) = program := by
  have hcount : U.stores = (program.length : ℤ) - h := hR.stores
  have hle := hR.head_le
  apply rdropWhile_eq_self_iff.2
  intro hne
  have hpos := length_pos_iff.2 hne
  have hlast : program[program.length - 1]? = some (program.getLast hne) := by
    rw [getLast_eq_getElem]
    exact getElem?_eq_getElem (by omega)
  have hcan := hR.canWB _ _ hlast (by omega)
  simp [isSquashed, hcan]

theorem dropLast_spec {older : List Store}
    (hinv : StoreInv cfg (older ++ [s]) answered h w busy front U) (hcan : s.canWB = false)
    (he : e.canWB = false) : StoreInv cfg older answered h w busy front
      { U.setStore (older.length % cfg.sqEntries) e with
        stores := U.stores - 1
        storeTail := older.length % cfg.sqEntries } := by
  have hring := hinv.ring.dropLast hcan he
  refine hinv.change hring rfl rfl rfl ?_ ?_
  · rw [take_append_of_le_length hring.le_tail]
  · intro hbusy
    rcases hring.current hbusy with ⟨t, ht, -⟩
    rw [packetsAt, packetsAt, getElem?_append_left (Ring.lt_length ht)]

include hinv in
/-- The loop over the stores drops the youngest ones, up to one that may be written back. -/
theorem squashStores_spec {n : ℕ} (hfuel : U.stores.toNat ≤ fuel) :
    (U.stalled = false → (squashStores cfg n fuel U).isSome = true)
      ∧ ∀ U', squashStores cfg n fuel U = some U' → Apart U U'
        ∧ StoreInv cfg (program.rdropWhile (isSquashed n)) answered h w busy front U' := by
  induction fuel generalizing U program with
  | zero =>
    have hzero : U.stores = 0 := by
      have hcount : U.stores = (program.length : ℤ) - h := hinv.ring.stores
      have hle := hinv.ring.head_le
      have hle' := hinv.ring.le_tail
      omega
    unfold squashStores
    rw [if_pos hzero]
    refine ⟨fun _ => rfl, fun U' hU' => ?_⟩
    cases hU'
    rw [squashed_of_empty hinv.ring hzero]
    exact ⟨Apart.refl U, hinv⟩
  | succ fuel ih =>
    unfold squashStores
    split
    case isTrue hzero =>
      refine ⟨fun _ => rfl, fun U' hU' => ?_⟩
      cases hU'
      rw [squashed_of_empty hinv.ring hzero]
      exact ⟨Apart.refl U, hinv⟩
    case isFalse hstores =>
      rcases exists_last hinv.ring hstores with ⟨older, s, rfl, hidx, c, d, hentry⟩
      rcases entry_fields hentry with ⟨hinst, hflag, -⟩
      have hseq := s.dynInst_seqNum cfg c
      dsimp only
      rw [hidx, hinst]
      dsimp only
      rw [hseq, hflag]
      change (U.stalled = false → (if s.isSquashed n = true then _ else _ : Option LSQUnit).isSome =
        true) ∧ ∀ U', (if s.isSquashed n = true then _ else _) = some U' → _
      split
      case isFalse hkeep =>
        refine ⟨fun _ => rfl, fun U' hU' => ?_⟩
        cases hU'
        rw [rdropWhile_concat_neg _ _ _ hkeep]
        exact ⟨Apart.refl U, hinv⟩
      case isTrue hdrop =>
        have hcan : s.canWB = false := by
          simp only [isSquashed, and_eq_true, not_eq_eq_eq_not, Bool.not_true] at hdrop
          exact hdrop.2
        have hdropped := dropLast_spec hinv hcan
          (rfl : (squashedEntry cfg (U.storeQueue (older.length % cfg.sqEntries))).canWB = false)
        rw [rdropWhile_concat_pos _ _ _ hdrop]
        rcases ih hdropped (by dsimp only; omega) with ⟨hsome, hspec⟩
        split
        case isTrue hpanic =>
          refine ⟨fun hnot => ?_, fun U' hU' => by cases hU'⟩
          simp [hnot] at hpanic
        case isFalse =>
          refine ⟨hsome, fun U' hU' => ?_⟩
          rcases hspec U' hU' with ⟨hframe, hinv'⟩
          exact ⟨{ hframe with }, hinv'⟩

end LSQUnit

/-! ## Packets of a program -/

namespace Store

/-- A store has no packet, one, or a low and a high one; they carry its sequence number and its
slot. -/
theorem packets_cases (s : Store) (cfg : Config) :
    s.packets cfg = []
      ∨ (∃ pkt, s.packets cfg = [pkt] ∧ pkt.part = .whole ∧ pkt.seqNum = s.inst.seqNum
      ∧ pkt.idx = s.slot) ∨ ∃ low high, s.packets cfg = [low, high] ∧ low.part = .low
        ∧ high.part = .high ∧ low.seqNum = s.inst.seqNum ∧ high.seqNum = s.inst.seqNum
        ∧ low.idx = s.slot ∧ high.idx = s.slot := by
  unfold packets
  split
  case h_1 => exact .inl rfl
  case h_2 w hw =>
    split
    case isTrue => exact .inl rfl
    case isFalse =>
      unfold writePackets
      split
      case h_1 =>
        split
        case isTrue => exact .inl rfl
        case isFalse => exact .inr (.inr ⟨_, _, rfl, rfl, rfl, rfl, rfl, rfl, rfl⟩)
      case h_2 =>
        split
        case isTrue => exact .inl rfl
        case isFalse => exact .inr (.inl ⟨_, rfl, rfl, rfl, rfl⟩)

theorem seqNum_of_mem_packets (h : pkt ∈ s.packets cfg) :
    pkt.seqNum = s.inst.seqNum ∧ pkt.idx = s.slot := by
  rcases packets_cases s cfg with hnone | ⟨one, hone, -, hseq, hidx⟩
    | ⟨low, high, htwo, -, -, hlow, hhigh, hlow', hhigh'⟩
  · rw [hnone] at h
    exact absurd h not_mem_nil
  · rw [hone, mem_singleton] at h
    exact h ▸ ⟨hseq, hidx⟩
  · rw [htwo, mem_cons, mem_singleton] at h
    rcases h with rfl | rfl
    · exact ⟨hlow, hlow'⟩
    · exact ⟨hhigh, hhigh'⟩

/-- What is sent of a store before its last packet is its low packet. -/
theorem part_of_front {last : Packet} (h : s.packets cfg = front ++ [last])
    (hmem : pkt ∈ front) : pkt.part = .low := by
  rcases packets_cases s cfg with hnone | ⟨one, hone, -⟩ | ⟨low, high, htwo, hlow, -⟩
  · rw [hnone] at h
    exact absurd h (by simp)
  · rw [hone] at h
    have hlength := congrArg length h
    have hnil : front = [] := length_eq_zero_iff.1 (by simpa using hlength)
    rw [hnil] at hmem
    exact absurd hmem not_mem_nil
  · rw [htwo] at h
    rcases front with _ | ⟨a, _ | ⟨b, front⟩⟩
    · exact absurd hmem not_mem_nil
    · rw [mem_singleton] at hmem
      have : low = a := (cons.inj h).1
      rw [hmem, ← this]
      exact hlow
    · have hlength := congrArg length h
      simp at hlength

end Store

/-- No packet of a program has the sequence number and the part of another. -/
theorem nodup_packets (hsorted : (program.map fun s => s.inst.seqNum).Pairwise (· < ·)) :
    ((program.flatMap (packets cfg)).map fun pkt => (pkt.seqNum, pkt.part)).Nodup := by
  rw [map_flatMap, nodup_flatMap]
  refine ⟨?_, ?_⟩
  · intro s _
    rcases packets_cases s cfg with hnone | ⟨one, hone, -⟩ | ⟨low, high, htwo, hlow, hhigh, -⟩
    · simp [hnone]
    · simp [hone]
    · simp [htwo, hlow, hhigh]
  · refine (pairwise_map.1 hsorted).imp ?_
    intro s t hlt
    -- packets of different stores have different sequence numbers
    rw [onFun, disjoint_left]
    intro key hs ht
    rcases mem_map.1 hs with ⟨a, ha, rfl⟩
    rcases mem_map.1 ht with ⟨b, hb, heq⟩
    have hab : b.seqNum = a.seqNum := congrArg Prod.fst heq
    rw [(seqNum_of_mem_packets ha).1, (seqNum_of_mem_packets hb).1] at hab
    omega

end EnocGem5.O3.LSQ
