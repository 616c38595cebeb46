import EnocGem5.Lib.Run
import EnocGem5.Base.AddrRange
import EnocGem5.Mem.Packet

/-!
# AbstractMem — memory accesses and load-locked reservations

`AbstractMemory::access` performs a packet on the memory. A load-locked read leaves a record of its
context and of the 16-byte granule that it read; a conditional write goes through if the record is
still there. Which reservations ought to be there is said by the history of the accesses
(`Reserved`), and `llsc_atomic` says for which accesses the records agree with it: a swap takes no
record away, and a write only those of the granule in which its request starts.
-/

namespace EnocGem5.Mem

open Lib Base List

/-! ## Packets with data -/

/-- A packet with its buffer, whose length is `getSize`, and the part of its request that a memory
reads. An `AtomicOpFunctor` works on the bytes of the packet. -/
structure DataPacket extends Packet where
  data : List UInt8
  paddr : ℕ
  contextId : ℕ
  extraData : ℕ := 0
  isCondSwap : Bool := false
  atomicOp : Option (List UInt8 → List UInt8) := none

namespace DataPacket

variable (pkt : DataPacket)

def getSize : ℕ := pkt.data.length

/-- A memory does nothing for these packets. -/
def ignored : Bool :=
  pkt.cacheResponding || pkt.cmd = .CleanEvict || pkt.cmd = .WritebackClean

/-- The packets of the last but one branch of `AbstractMemory::access`. -/
def isPlainWrite : Bool :=
  !pkt.ignored && pkt.cmd ≠ .SwapReq && !pkt.cmd.isRead && !pkt.cmd.isInvalidate && pkt.cmd.isWrite

def isLoadLocked : Bool :=
  !pkt.ignored && pkt.cmd ≠ .SwapReq && pkt.cmd.isRead && pkt.cmd.isLLSC

def isConditional : Bool := pkt.isPlainWrite && pkt.cmd.isLLSC

end DataPacket

open DataPacket

/-! ## Memory -/

structure LockedAddr where
  addr : ℕ
  contextId : ℕ
  deriving DecidableEq, Repr

namespace LockedAddr

def mask (paddr : ℕ) : ℕ := paddr - paddr % 16

theorem mask_mod (paddr : ℕ) : mask paddr % 16 = 0 := by
  unfold mask
  omega

theorem mask_of_mod {g : ℕ} (h : g % 16 = 0) : mask g = g := by
  unfold mask
  omega

end LockedAddr

open LockedAddr

/-- `AbstractMemory`; without host memory (`pmemAddr` is null) there are no bytes. -/
structure AbstractMemory where
  range : AddrRange
  range_valid : range.valid = true
  pmem : Option (ℕ → UInt8)
  lockedAddrList : List LockedAddr := []

/-- The bytes `a`, …, `a + n - 1` of the host memory. -/
def readBytes (mem : ℕ → UInt8) (a n : ℕ) : List UInt8 := (List.range n).map fun k => mem (a + k)

def writeBytes (mem : ℕ → UInt8) (a : ℕ) (bytes : List UInt8) : ℕ → UInt8 := fun b =>
  if a ≤ b then bytes[b - a]?.getD (mem b) else mem b

/-- The bytes of an integer of `n` bytes in the host's order. -/
def intBytes (n v : ℕ) : List UInt8 := (List.range n).map fun k => UInt8.ofNat (v / 256 ^ k)

namespace AbstractMemory

variable (M : AbstractMemory) (pkt : DataPacket) {l : LockedAddr}

def hostAddr : ℕ := pkt.addr - M.range._start

/-- The loop of `trackLoadLocked`: the first record of the context gets the new address. -/
def moveLock (paddr contextId : ℕ) : List LockedAddr → List LockedAddr
  | [] => []
  | l :: ls => if l.contextId = contextId then { l with addr := paddr } :: ls
    else l :: moveLock paddr contextId ls

def trackLoadLocked (locks : List LockedAddr) (pkt : DataPacket) : List LockedAddr :=
  if locks.any fun l => l.contextId = pkt.contextId
    then moveLock (mask pkt.paddr) pkt.contextId locks
  else ⟨mask pkt.paddr, pkt.contextId⟩ :: locks

/-- There is a record of the packet's context for its address. -/
def holdsLock (locks : List LockedAddr) (pkt : DataPacket) : Bool :=
  locks.any fun l => l.addr = mask pkt.paddr && l.contextId = pkt.contextId

/-- `checkLockedAddrList`: whether the store may be performed, and the records that stay. -/
def checkLockedAddrList (locks : List LockedAddr) (pkt : DataPacket) : Bool × List LockedAddr :=
  let allowStore := !pkt.cmd.isLLSC || holdsLock locks pkt
  (allowStore, if allowStore then locks.filter fun l => l.addr ≠ mask pkt.paddr else locks)

def writeOK (locks : List LockedAddr) (pkt : DataPacket) : Bool × List LockedAddr :=
  if locks = [] then (!pkt.cmd.isLLSC, locks) else checkLockedAddrList locks pkt

/-- The swap overwrites memory; `none` for a size that a conditional swap does not support. -/
def overwriteMem (mem : ℕ → UInt8) (a : ℕ) (pkt : DataPacket) : Option Bool :=
  if pkt.isCondSwap then
    if pkt.getSize = 8 ∨ pkt.getSize = 4 then
      some (intBytes pkt.getSize pkt.extraData = readBytes mem a pkt.getSize)
    else none
  else some true

/-- The first branch of `access`. -/
def swap : Option (AbstractMemory × DataPacket) :=
  let a := M.hostAddr pkt
  match pkt.atomicOp, M.pmem with
  | some _, none => some (M, pkt)
  | some op, some mem =>
    let old := readBytes mem a pkt.getSize
    some ({ M with pmem := some (writeBytes mem a ((op old).take pkt.getSize)) },
      { pkt with data := old })
  | none, none => none
  | none, some mem =>
    (overwriteMem mem a pkt).bind fun overwrite =>
      if pkt.req.isInstFetch then none
      else some ({ M with pmem := some (if overwrite then writeBytes mem a pkt.data else mem) },
        { pkt with data := readBytes mem a pkt.getSize })

def read : Option (AbstractMemory × DataPacket) :=
  if pkt.cmd.isWrite then none
  else
    let locks := if pkt.cmd.isLLSC then trackLoadLocked M.lockedAddrList pkt else M.lockedAddrList
    let data := (M.pmem.map fun mem => readBytes mem (M.hostAddr pkt) pkt.getSize).getD pkt.data
    some ({ M with lockedAddrList := locks }, { pkt with data := data })

def write : Option (AbstractMemory × DataPacket) :=
  let (allowStore, locks) := writeOK M.lockedAddrList pkt
  let pkt := if pkt.cmd.isLLSC then { pkt with extraData := if allowStore then 1 else 0 } else pkt
  if allowStore then
    if pkt.req.isInstFetch then none
    else some ({ M with
        lockedAddrList := locks
        pmem := M.pmem.map fun mem => writeBytes mem (M.hostAddr pkt) pkt.data }, pkt)
  else some ({ M with lockedAddrList := locks }, pkt)

/-- The packet is turned into a response if one is needed. -/
def respond : DataPacket :=
  if pkt.cmd.needsResponse then { pkt with cmd := pkt.cmd.responseCommand } else pkt

/-- `AbstractMemory::access`; `none` if it panics or an assertion fails. -/
def access : Option (AbstractMemory × DataPacket) :=
  if pkt.ignored then some (M, pkt)
  -- the size is a 32-bit number, and `getSize() - 1` wraps for an empty packet
  else if M.range._start ≤ pkt.addr ∧
      pkt.addr + (pkt.getSize + 2 ^ 32 - 1) % 2 ^ 32 ≤ M.range._end then
    let performed :=
      if pkt.cmd = .SwapReq then M.swap pkt
      else if pkt.cmd.isRead then M.read pkt
      else if pkt.cmd.isInvalidate then some (M, pkt)
      else if pkt.cmd.isWrite then M.write pkt
      else none
    performed.map fun r => (r.1, respond r.2)
  else none

/-! ## What the parts of an access do -/

section Parts

variable {M M' : AbstractMemory} {pkt pkt' : DataPacket}

/-- The empty list needs no case of its own. -/
theorem writeOK_eq (locks : List LockedAddr) (pkt : DataPacket) :
    writeOK locks pkt = checkLockedAddrList locks pkt := by
  unfold writeOK checkLockedAddrList
  split
  case isTrue hnil =>
    subst hnil
    simp [holdsLock]
  case isFalse => rfl

theorem swap_locks (h : M.swap pkt = some (M', pkt')) : M'.lockedAddrList = M.lockedAddrList := by
  unfold swap at h
  split at h
  case h_1 | h_2 =>
    cases h
    rfl
  case h_3 => cases h
  case h_4 =>
    rcases Option.bind_eq_some_iff.1 h with ⟨overwrite, _, h⟩
    rcases Option.ite_none_left_eq_some.1 h with ⟨-, h⟩
    cases h
    rfl

theorem write_spec (h : M.write pkt = some (M', pkt')) :
    M'.lockedAddrList = (checkLockedAddrList M.lockedAddrList pkt).2 ∧
      (pkt.cmd.isLLSC = true → (pkt'.extraData = 1 ↔ holdsLock M.lockedAddrList pkt = true)) ∧
      M'.pmem = if (checkLockedAddrList M.lockedAddrList pkt).1 then
        M.pmem.map fun mem => writeBytes mem (M.hostAddr pkt) pkt.data else M.pmem := by
  unfold write at h
  rw [writeOK_eq] at h
  have hallow : (checkLockedAddrList M.lockedAddrList pkt).1 =
      (!pkt.cmd.isLLSC || holdsLock M.lockedAddrList pkt) := rfl
  dsimp only at h
  rw [hallow] at h ⊢
  cases hllsc : pkt.cmd.isLLSC with
  | false =>
    rw [hllsc] at h
    simp only [Bool.not_false, Bool.true_or, Bool.false_eq_true, ↓reduceIte] at h
    split at h
    · cases h
    · cases h
      exact ⟨rfl, nofun, rfl⟩
  | true =>
    rw [hllsc] at h
    cases hholds : holdsLock M.lockedAddrList pkt with
    | true =>
      rw [hholds] at h
      simp only [Bool.or_true, ↓reduceIte] at h
      split at h
      · cases h
      · cases h
        exact ⟨rfl, fun _ => by simp, rfl⟩
    | false =>
      rw [hholds] at h
      cases h
      exact ⟨rfl, fun _ => by simp, rfl⟩

theorem respond_extraData (pkt : DataPacket) : (respond pkt).extraData = pkt.extraData := by
  unfold respond
  split <;> rfl

theorem access_cases (h : M.access pkt = some (M', pkt')) :
    (pkt.ignored = true ∧ M' = M ∧ pkt' = pkt) ∨
    (pkt.ignored = false ∧ ∃ q, pkt' = respond q ∧
      ((pkt.cmd = .SwapReq ∧ M.swap pkt = some (M', q)) ∨
       (pkt.cmd ≠ .SwapReq ∧ pkt.cmd.isRead = true ∧ M.read pkt = some (M', q)) ∨
       (pkt.cmd ≠ .SwapReq ∧ pkt.cmd.isRead = false ∧ pkt.cmd.isInvalidate = true ∧ M' = M) ∨
       (pkt.cmd ≠ .SwapReq ∧ pkt.isPlainWrite = true ∧ M.write pkt = some (M', q)))) := by
  unfold access at h
  split at h
  case isTrue hignored =>
    cases h
    exact .inl ⟨hignored, rfl, rfl⟩
  case isFalse hignored =>
    have hignored : pkt.ignored = false := by simpa using hignored
    rcases Option.ite_none_right_eq_some.1 h with ⟨-, h⟩
    rcases Option.map_eq_some_iff.1 h with ⟨⟨M1, q⟩, hq, heq⟩
    cases heq
    refine .inr ⟨hignored, q, rfl, ?_⟩
    split at hq
    case isTrue hswap => exact .inl ⟨hswap, hq⟩
    case isFalse hswap =>
      split at hq
      case isTrue hread => exact .inr (.inl ⟨hswap, hread, hq⟩)
      case isFalse hread =>
        have hread : pkt.cmd.isRead = false := by simpa using hread
        split at hq
        case isTrue hinv =>
          cases hq
          exact .inr (.inr (.inl ⟨hswap, hread, hinv, rfl⟩))
        case isFalse hinv =>
          rcases Option.ite_none_right_eq_some.1 hq with ⟨hwrite, hq⟩
          refine .inr (.inr (.inr ⟨hswap, ?_, hq⟩))
          simp [isPlainWrite, hignored, hswap, hread, hinv, hwrite]

end Parts

/-! ## The records -/

variable {locks : List LockedAddr} {pkt : DataPacket}

theorem map_contextId_moveLock (a c : ℕ) :
    (moveLock a c locks).map LockedAddr.contextId = locks.map LockedAddr.contextId := by
  fun_induction moveLock a c locks with
  | case1 => rfl
  | case2 => rfl
  | case3 l ls _ ih => rw [map_cons, map_cons, ih]

/-- A record whose context no other one has is put first. -/
theorem mem_cons_record {m : LockedAddr} {ls : List LockedAddr}
    (hother : ∀ x ∈ ls, x.contextId ≠ m.contextId) :
    l ∈ m :: ls ↔ if l.contextId = m.contextId then l.addr = m.addr else l ∈ ls := by
  rw [mem_cons]
  split
  case isTrue hl =>
    refine ⟨fun h => ?_, fun h => .inl ?_⟩
    · rcases h with rfl | hmem
      · rfl
      · exact absurd hl (hother l hmem)
    · cases l
      simp only at hl h
      rw [h, hl]
  case isFalse hl =>
    have hne : l ≠ m := fun heq => hl (by rw [heq])
    simp [hne]

section

variable (hnodup : (locks.map LockedAddr.contextId).Nodup)

include hnodup

theorem mem_moveLock {a c : ℕ} (hc : ∃ l ∈ locks, l.contextId = c) :
    l ∈ moveLock a c locks ↔ if l.contextId = c then l.addr = a else l ∈ locks := by
  fun_induction moveLock a c locks with
  | case1 =>
    rcases hc with ⟨_, hl, _⟩
    cases hl
  | case2 l0 ls h0 =>
    subst h0
    rw [map_cons, nodup_cons] at hnodup
    have hother : ∀ x ∈ ls, x.contextId ≠ l0.contextId :=
      fun x hx hxc => hnodup.1 (mem_map.2 ⟨x, hx, hxc⟩)
    rw [mem_cons_record (m := { l0 with addr := a }) hother]
    split
    case isTrue => exact Iff.rfl
    case isFalse hl =>
      have hne : l ≠ l0 := fun heq => hl (by rw [heq])
      simp [hne]
  | case3 l0 ls h0 ih =>
    have hc' : ∃ l ∈ ls, l.contextId = c := by
      rcases hc with ⟨x, hx, hxc⟩
      rcases mem_cons.1 hx with rfl | hx
      · exact absurd hxc h0
      · exact ⟨x, hx, hxc⟩
    rw [mem_cons, mem_cons, ih (nodup_cons.1 hnodup).2 hc']
    split
    case isTrue hl =>
      have hne : l ≠ l0 := fun heq => h0 (heq ▸ hl)
      simp [hne]
    case isFalse => exact Iff.rfl

theorem mem_trackLoadLocked :
    l ∈ trackLoadLocked locks pkt ↔
      if l.contextId = pkt.contextId then l.addr = mask pkt.paddr else l ∈ locks := by
  unfold trackLoadLocked
  split
  case isTrue hany => exact mem_moveLock hnodup (by simpa using hany)
  case isFalse hany =>
    have hother : ∀ x ∈ locks, x.contextId ≠ pkt.contextId := by simpa using hany
    exact mem_cons_record hother

theorem nodup_trackLoadLocked : ((trackLoadLocked locks pkt).map LockedAddr.contextId).Nodup := by
  unfold trackLoadLocked
  split
  case isTrue =>
    rw [map_contextId_moveLock]
    exact hnodup
  case isFalse hany =>
    rw [map_cons, nodup_cons]
    refine ⟨?_, hnodup⟩
    simpa using hany

end

theorem holdsLock_iff : holdsLock locks pkt = true ↔ ⟨mask pkt.paddr, pkt.contextId⟩ ∈ locks := by
  simp only [holdsLock, any_eq_true, Bool.and_eq_true, decide_eq_true_eq]
  constructor
  · rintro ⟨⟨a, c⟩, hl, ha, hc⟩
    simp only at ha hc
    rwa [ha, hc] at hl
  · intro h
    exact ⟨_, h, rfl, rfl⟩

end AbstractMemory

/-! ## The history -/

open AbstractMemory

/-- The access writes the bytes of its packet. -/
def AbstractMemory.overwrites (M : AbstractMemory) (pkt : DataPacket) : Bool :=
  if pkt.ignored then false
  else if pkt.cmd = .SwapReq then
    M.pmem.any fun mem => pkt.atomicOp.isSome || overwriteMem mem (M.hostAddr pkt) pkt = some true
  else pkt.isPlainWrite && (!pkt.cmd.isLLSC || holdsLock M.lockedAddrList pkt)

/-- A byte of the packet lies in the granule. -/
def DataPacket.touches (pkt : DataPacket) (g : ℕ) : Prop :=
  ∃ k < pkt.getSize, mask (pkt.addr + k) = g

instance (pkt : DataPacket) (g : ℕ) : Decidable (pkt.touches g) :=
  inferInstanceAs (Decidable (∃ k < pkt.getSize, _))

/-- An access that has been performed, and whether it wrote. -/
structure Performed where
  pkt : DataPacket
  wrote : Bool

namespace Performed

variable (e : Performed)

def Locks (c : ℕ) : Prop := e.pkt.isLoadLocked = true ∧ e.pkt.contextId = c

/-- The access ends a reservation that the context has for the granule. -/
def Ends (c g : ℕ) : Prop :=
  e.wrote = true ∧ (e.pkt.touches g ∨
    (e.pkt.isConditional = true ∧ e.pkt.contextId = c ∧ mask e.pkt.paddr = g))

instance (c : ℕ) : Decidable (e.Locks c) :=
  inferInstanceAs (Decidable (_ ∧ _))

instance (c g : ℕ) : Decidable (e.Ends c g) :=
  inferInstanceAs (Decidable (_ ∧ (_ ∨ _)))

end Performed

/-- The last load-locked read of the context was to the granule, and nothing since has ended the
reservation. The newest access comes first. -/
def Reserved (history : List Performed) (c g : ℕ) : Prop :=
  ∃ later e earlier, history = later ++ e :: earlier ∧ e.Locks c ∧ mask e.pkt.paddr = g ∧
    ∀ e' ∈ later, ¬ e'.Locks c ∧ ¬ e'.Ends c g

theorem reserved_cons {e : Performed} {history : List Performed} {c g : ℕ} :
    Reserved (e :: history) c g ↔
      if e.Locks c then mask e.pkt.paddr = g else ¬ e.Ends c g ∧ Reserved history c g := by
  constructor
  · rintro ⟨later, e', earlier, hsplit, hlocks, hg, hnone⟩
    cases later with
    | nil =>
      cases hsplit
      rw [if_pos hlocks]
      exact hg
    | cons d later =>
      cases hsplit
      have hd := hnone e mem_cons_self
      rw [if_neg hd.1]
      exact ⟨hd.2, later, e', earlier, rfl, hlocks, hg, fun x hx => hnone x (mem_cons_of_mem e hx)⟩
  · intro h
    split at h
    case isTrue hlocks => exact ⟨[], e, history, rfl, hlocks, h, forall_mem_nil _⟩
    case isFalse hlocks =>
      rcases h with ⟨hends, later, e', earlier, rfl, hlocks', hg, hnone⟩
      refine ⟨e :: later, e', earlier, rfl, hlocks', hg, ?_⟩
      exact forall_mem_cons.2 ⟨⟨hlocks, hends⟩, hnone⟩

theorem not_reserved_nil {c g : ℕ} : ¬ Reserved [] c g := by
  rintro ⟨later, e, earlier, hsplit, _⟩
  cases later <;> cases hsplit

structure Session where
  mem : AbstractMemory
  history : List Performed

namespace Session

def start (M : AbstractMemory) : Session := ⟨{ M with lockedAddrList := [] }, []⟩

def step (X : Session) (pkt : DataPacket) : Option Session :=
  (X.mem.access pkt).map fun r => ⟨r.1, ⟨pkt, X.mem.overwrites pkt⟩ :: X.history⟩

/-- A conditional write that is accepted now succeeds exactly when its context has a reservation. -/
def Atomic (X : Session) : Prop :=
  ∀ pkt M' pkt', pkt.isConditional = true → X.mem.access pkt = some (M', pkt') →
    (pkt'.extraData = 1 ↔ Reserved X.history pkt.contextId (mask pkt.paddr))

/-- If the packet writes, the recorded reservations that it ends are those of the granule in which
its request starts, and none if it is a swap. -/
def WritesOneGranule (X : Session) (pkt : DataPacket) : Prop :=
  X.mem.overwrites pkt = true → ∀ l ∈ X.mem.lockedAddrList,
    Performed.Ends ⟨pkt, true⟩ l.contextId l.addr ↔ pkt.cmd ≠ .SwapReq ∧ mask pkt.paddr = l.addr

/-! ## What an access does -/

variable {X X' : Session} {pkt pkt' : DataPacket} {M' : AbstractMemory}

/-- The records after an access: a load-locked read moves or adds one, a write that is performed
takes those of its granule away, everything else leaves them. -/
theorem access_locks (h : X.mem.access pkt = some (M', pkt')) : M'.lockedAddrList =
    if pkt.isLoadLocked then trackLoadLocked X.mem.lockedAddrList pkt
    else if pkt.cmd ≠ .SwapReq ∧ X.mem.overwrites pkt = true then
      X.mem.lockedAddrList.filter fun l => l.addr ≠ mask pkt.paddr
    else X.mem.lockedAddrList := by
  rcases access_cases h with ⟨hignored, rfl, rfl⟩ | ⟨hignored, q, _, hcase⟩
  · simp [isLoadLocked, overwrites, hignored]
  · rcases hcase with ⟨hswap, hq⟩ | ⟨hswap, hread, hq⟩ | ⟨hswap, hread, hinv, rfl⟩ |
      ⟨hswap, hplain, hq⟩
    · rw [swap_locks hq]
      simp [isLoadLocked, hswap]
    · rcases Option.ite_none_left_eq_some.1 hq with ⟨-, hq⟩
      cases hq
      simp [isLoadLocked, overwrites, isPlainWrite, hignored, hswap, hread]
    · simp [isLoadLocked, overwrites, isPlainWrite, hignored, hswap, hread, hinv]
    · have hread : pkt.cmd.isRead = false := by
        simp only [isPlainWrite, Bool.and_eq_true, Bool.not_eq_true'] at hplain
        exact hplain.1.1.2
      rw [(write_spec hq).1]
      simp [isLoadLocked, overwrites, checkLockedAddrList, hignored, hswap, hread, hplain]

theorem access_conditional (h : X.mem.access pkt = some (M', pkt'))
    (hcond : pkt.isConditional = true) :
    pkt'.extraData = 1 ↔ holdsLock X.mem.lockedAddrList pkt = true := by
  have hcond' : pkt.isPlainWrite = true ∧ pkt.cmd.isLLSC = true := by
    simpa [isConditional] using hcond
  have hplain := hcond'.1
  simp only [isPlainWrite, Bool.and_eq_true, Bool.not_eq_true', decide_eq_true_eq] at hplain
  rcases hplain with ⟨⟨⟨⟨hignored, hswap⟩, hread⟩, hinv⟩, _⟩
  rcases access_cases h with ⟨hig, _⟩ | ⟨_, q, rfl, hcase⟩
  · cases hignored.symm.trans hig
  · rcases hcase with ⟨hs, _⟩ | ⟨_, hr, _⟩ | ⟨_, _, hi, _⟩ | ⟨_, _, hq⟩
    · exact absurd hs hswap
    · cases hread.symm.trans hr
    · cases hinv.symm.trans hi
    · rw [respond_extraData]
      exact (write_spec hq).2.1 hcond'.2

/-! ## Runs -/

/-- A context has one record at most, and records are of granules. -/
structure Inv (X : Session) : Prop where
  nodup : (X.mem.lockedAddrList.map LockedAddr.contextId).Nodup
  granule : ∀ l ∈ X.mem.lockedAddrList, l.addr % 16 = 0

/-- The records are the reservations. -/
def Consistent (X : Session) : Prop :=
  ∀ c g, g % 16 = 0 → (⟨g, c⟩ ∈ X.mem.lockedAddrList ↔ Reserved X.history c g)

variable (M : AbstractMemory)

/-- A conditional write of a byte. -/
def storeCond (c g : ℕ) : DataPacket where
  cmd := .StoreCondReq
  req := { masterId := 0 }
  addr := M.range._start
  data := [0]
  paddr := g
  contextId := c

theorem access_storeCond (c g : ℕ) : ∃ r, M.access (storeCond M c g) = some r := by
  have hrange : M.range._start ≤ M.range._end := by simpa [AddrRange.valid] using M.range_valid
  have hin : M.range._start ≤ (storeCond M c g).addr ∧
      (storeCond M c g).addr + ((storeCond M c g).getSize + 2 ^ 32 - 1) % 2 ^ 32 ≤
      M.range._end := by
    simpa [storeCond, getSize] using hrange
  have hwrite : ∃ r, M.write (storeCond M c g) = some r := by
    unfold write
    dsimp only
    split <;> exact ⟨_, rfl⟩
  rcases hwrite with ⟨r, hr⟩
  refine ⟨(r.1, respond r.2), ?_⟩
  have hkept : ¬ (storeCond M c g).ignored = true := Bool.false_ne_true
  unfold access
  rw [if_neg hkept, if_pos hin]
  rw [hr]
  rfl

theorem atomic_iff_consistent : Atomic X ↔ Consistent X := by
  constructor
  · intro h c g hg
    rcases access_storeCond X.mem c g with ⟨⟨M', pkt'⟩, hr⟩
    have hcond : (storeCond X.mem c g).isConditional = true := rfl
    have hmask : mask (storeCond X.mem c g).paddr = g := mask_of_mod hg
    have hiff := h _ M' pkt' hcond hr
    rw [access_conditional hr hcond, holdsLock_iff, hmask] at hiff
    exact hiff
  · intro h pkt M' pkt' hcond hr
    rw [access_conditional hr hcond, holdsLock_iff]
    exact h pkt.contextId (mask pkt.paddr) (mask_mod _)

theorem step_cases (h : X.step pkt = some X') : ∃ M' pkt', X.mem.access pkt = some (M', pkt') ∧
    X' = ⟨M', ⟨pkt, X.mem.overwrites pkt⟩ :: X.history⟩ := by
  rcases Option.map_eq_some_iff.1 h with ⟨⟨M', pkt'⟩, hr, rfl⟩
  exact ⟨M', pkt', hr, rfl⟩

theorem Inv.step (hinv : Inv X) (h : X.step pkt = some X') : Inv X' := by
  rcases step_cases h with ⟨M', pkt', hr, rfl⟩
  have hlocks := access_locks hr
  constructor
  · rw [hlocks]
    split
    · exact nodup_trackLoadLocked hinv.nodup
    · split
      · exact hinv.nodup.sublist ((filter_sublist).map _)
      · exact hinv.nodup
  · intro l hl
    rw [hlocks] at hl
    split at hl
    · rw [mem_trackLoadLocked hinv.nodup] at hl
      split at hl
      · rw [hl]
        exact mask_mod _
      · exact hinv.granule l hl
    · split at hl
      · exact hinv.granule l (mem_of_mem_filter hl)
      · exact hinv.granule l hl

/-- Only a load-locked read locks, and it writes nothing. -/
theorem not_overwrites_of_isLoadLocked (h : pkt.isLoadLocked = true) :
    M.overwrites pkt = false := by
  simp only [isLoadLocked, Bool.and_eq_true, Bool.not_eq_true', decide_eq_true_eq] at h
  rcases h with ⟨⟨⟨hignored, hswap⟩, hread⟩, _⟩
  simp [overwrites, isPlainWrite, hignored, hswap, hread]

/-- An access keeps the records in step with the history exactly when it writes one granule. -/
theorem consistent_step (hinv : Inv X) (hX : Consistent X) (h : X.step pkt = some X') :
    Consistent X' ↔ WritesOneGranule X pkt := by
  rcases step_cases h with ⟨M', pkt', hr, rfl⟩
  have hlocks := access_locks hr
  by_cases hll : pkt.isLoadLocked = true
  · -- the record of the context is the new reservation, the others have not changed
    have hwrote := not_overwrites_of_isLoadLocked X.mem hll
    refine iff_of_true ?_ fun hover => absurd (hwrote.symm.trans hover) (by decide)
    intro c g hg
    rw [if_pos hll] at hlocks
    rw [reserved_cons]
    rw [hlocks, mem_trackLoadLocked hinv.nodup]
    by_cases hc : c = pkt.contextId
    · have hlk : Performed.Locks ⟨pkt, X.mem.overwrites pkt⟩ c := ⟨hll, hc.symm⟩
      rw [if_pos hc, if_pos hlk]
      exact eq_comm
    · have hlk : ¬ Performed.Locks ⟨pkt, X.mem.overwrites pkt⟩ c := fun hl => hc hl.2.symm
      have hends : ¬ Performed.Ends ⟨pkt, X.mem.overwrites pkt⟩ c g := fun he =>
        absurd (hwrote.symm.trans he.1) (by decide)
      rw [if_neg hc, if_neg hlk]
      exact (hX c g hg).trans ⟨fun hres => ⟨hends, hres⟩, fun hres => hres.2⟩
  · have hlk : ∀ c, ¬ Performed.Locks ⟨pkt, X.mem.overwrites pkt⟩ c := fun c hl => hll hl.1
    rw [if_neg hll] at hlocks
    -- the history loses the reservations that the access ends
    have hiff : Consistent ⟨M', ⟨pkt, X.mem.overwrites pkt⟩ :: X.history⟩ ↔
        ∀ l ∈ X.mem.lockedAddrList,
          (l ∈ M'.lockedAddrList ↔
          ¬ Performed.Ends ⟨pkt, X.mem.overwrites pkt⟩ l.contextId l.addr) := by
      have hsub : ∀ l ∈ M'.lockedAddrList, l ∈ X.mem.lockedAddrList := by
        intro l hl
        rw [hlocks] at hl
        split at hl
        · exact mem_of_mem_filter hl
        · exact hl
      constructor
      · intro hcons l hl
        have hres := (hX l.contextId l.addr (hinv.granule l hl)).1 hl
        have hiff := hcons l.contextId l.addr (hinv.granule l hl)
        rw [reserved_cons, if_neg (hlk _)] at hiff
        exact hiff.trans ⟨fun he => he.1, fun he => ⟨he, hres⟩⟩
      · intro hall c g hg
        rw [reserved_cons, if_neg (hlk _), ← hX c g hg]
        constructor
        · intro hl
          exact ⟨(hall _ (hsub _ hl)).1 hl, hsub _ hl⟩
        · rintro ⟨hends, hl⟩
          exact (hall _ hl).2 hends
    rw [hiff]
    cases hover : X.mem.overwrites pkt with
    | false =>
      rw [hover] at hlocks
      simp only [Bool.false_eq_true, and_false, ↓reduceIte] at hlocks
      refine iff_of_true ?_ fun hover' => absurd (hover.symm.trans hover') (by decide)
      intro l hl
      rw [hlocks]
      exact iff_of_true hl fun he => absurd he.1 Bool.false_ne_true
    | true =>
      have hguard : WritesOneGranule X pkt ↔ ∀ l ∈ X.mem.lockedAddrList,
          (Performed.Ends ⟨pkt, true⟩ l.contextId l.addr ↔
            pkt.cmd ≠ .SwapReq ∧ mask pkt.paddr = l.addr) := ⟨fun hG => hG hover, fun hG _ => hG⟩
      rw [hguard]
      refine forall₂_congr fun l hl => ?_
      have hmem : l ∈ M'.lockedAddrList ↔ ¬ (pkt.cmd ≠ .SwapReq ∧ mask pkt.paddr = l.addr) := by
        rw [hlocks, hover]
        by_cases hswap : pkt.cmd = .SwapReq
        · rw [if_neg fun hc => hc.1 hswap]
          exact iff_of_true hl fun hc => hc.1 hswap
        · rw [if_pos ⟨hswap, rfl⟩, mem_filter]
          simp only [ne_eq, decide_not, Bool.not_eq_true', decide_eq_false_iff_not, hl, hswap,
            not_false_eq_true, true_and]
          exact not_congr eq_comm
      rw [hmem, not_iff_not]
      exact iff_comm

theorem consistent_start : Consistent (start M) := fun _ _ _ =>
  iff_of_false not_mem_nil not_reserved_nil

/-- In every run a context has one record at most, and records are of granules. -/
theorem locks_run (pkts : List DataPacket) : Always step Inv (start M) pkts :=
  Always.of_invariant (fun _ => id) (fun _ _ _ hX => hX.step) ⟨nodup_nil, forall_mem_nil _⟩

/-- **Load-locked and store-conditional.** Along a run a conditional write would succeed exactly
when its context has a reservation, in every state, if and only if every access that writes ends the
recorded reservations of its own granule and no others, or none if it is a swap. -/
theorem llsc_atomic (pkts : List DataPacket) :
    Always step Atomic (start M) pkts ↔ Throughout step WritesOneGranule (start M) pkts := by
  have hinv : Inv (start M) := ⟨nodup_nil, forall_mem_nil _⟩
  refine always_iff_throughout (fun X pkt X' hX h => hX.step h) ?_ hinv
    (atomic_iff_consistent.2 (consistent_start M))
  intro X pkt X' hX hatomic h
  rw [atomic_iff_consistent]
  exact consistent_step hX (atomic_iff_consistent.1 hatomic) h

/-- A load-locked read, a swap of another context at the same address, and a conditional write that
succeeds without a reservation. -/
theorem swap_keepsLock :
    let M : AbstractMemory := ⟨⟨0, 63, 0, 0, 0, 0⟩, rfl, some fun _ => 0, []⟩
    let packet (cmd : MemCmd) (c : ℕ) : DataPacket :=
      { cmd := cmd, req := { masterId := 0 }, addr := 0, data := [1], paddr := 0, contextId := c }
    ∃ X r, [packet .LoadLockedReq 0, packet .SwapReq 1].foldlM step (start M) = some X ∧
      X.mem.access (packet .StoreCondReq 0) = some r ∧ r.2.extraData = 1 ∧
      ¬ Reserved X.history 0 0 := by
  refine ⟨_, _, rfl, rfl, rfl, ?_⟩
  rw [reserved_cons, if_neg (by decide)]
  exact fun h => h.1 (by decide)

end Session

end EnocGem5.Mem
