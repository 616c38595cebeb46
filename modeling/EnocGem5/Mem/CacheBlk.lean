import EnocGem5.Mem.AbstractMem

/-!
# CacheBlk — load locks on a cache block

A block of the classic cache keeps a list of locks (`blk.hh`): a load-locked read leaves the range
it has read, and a conditional write succeeds if its context has a lock that covers the write.
`Cache::satisfyRequest` is the access to a block that the cache has; in between, snoops invalidate
the block and fills bring it back.

`intact` are the load-locked reads that a conditional write may rely on: the block has not been
invalidated since, and no other context has written to the range. Every lock is backed by one of
them, as long as no swap writes to the range of another context's lock: `cmpAndSwap` never looks at
the locks.
-/

namespace EnocGem5.Mem

open Lib List Bool Option

/-- A packet with the size of its request. -/
structure BlkPacket extends DataPacket where
  reqSize : ℕ

namespace BlkPacket

variable (pkt : BlkPacket)

def getOffset (blkSize : ℕ) : ℕ := pkt.addr % blkSize

/-- `req_low + req->getSize() - 1`, on 64-bit addresses. -/
def reqHigh : ℕ := (pkt.paddr + pkt.reqSize + (2 ^ 64 - 1)) % 2 ^ 64

def hasRespData : Bool := pkt.cmd.responseCommand.hasData

def isConditionalWrite : Bool := pkt.cmd.isWrite && pkt.cmd.isLLSC

def isLoadLockedRead : Bool := !pkt.cmd.isWrite && pkt.cmd.isRead && pkt.cmd.isLLSC

/-- The block is invalidated when such a packet is satisfied. -/
def drops : Bool := !pkt.cmd.isWrite && !pkt.cmd.isRead && !pkt.cmd.isUpgrade

end BlkPacket

/-! ## Blocks -/

structure BlkLock where
  contextId : ℕ
  lowAddr : ℕ
  highAddr : ℕ
  deriving DecidableEq, Repr

namespace BlkLock

def ofRequest (pkt : BlkPacket) : BlkLock := ⟨pkt.contextId, pkt.paddr, pkt.reqHigh⟩

/-- `matches`. -/
def matchesRequest (l : BlkLock) (pkt : BlkPacket) : Bool :=
  l.contextId = pkt.contextId && l.lowAddr ≤ pkt.paddr && pkt.reqHigh ≤ l.highAddr

def intersects (l : BlkLock) (pkt : BlkPacket) : Bool :=
  pkt.paddr ≤ l.highAddr && l.lowAddr ≤ pkt.reqHigh

def Apart (l m : BlkLock) : Prop := l.highAddr < m.lowAddr ∨ m.highAddr < l.lowAddr

end BlkLock

structure CacheBlk where
  valid : Bool := false
  writable : Bool := false
  readable : Bool := false
  dirty : Bool := false
  /-- The bytes of the block, by their offset. -/
  data : ℕ → UInt8 := fun _ => 0
  lockList : List BlkLock := []

namespace CacheBlk

variable (B : CacheBlk) (blkSize : ℕ) (pkt : BlkPacket)

def isWritable : Bool := B.writable && B.valid

def invalidate : CacheBlk :=
  { B with valid := false, writable := false, readable := false, dirty := false, lockList := [] }

def trackLoadLocked : CacheBlk :=
  { B with lockList := BlkLock.ofRequest pkt :: B.lockList.filter fun l => !l.intersects pkt }

def clearLoadLocks : CacheBlk :=
  { B with
    lockList := B.lockList.filter fun l => !(l.intersects pkt && l.contextId ≠ pkt.contextId) }

/-- Whether a write may proceed, the block, and the packet with the result of a store
conditional. -/
def checkWrite : Bool × CacheBlk × BlkPacket :=
  if !pkt.cmd.isLLSC && B.lockList = [] then (true, B, pkt)
  else if pkt.cmd.isLLSC then
    let success := B.lockList.any fun l => l.matchesRequest pkt
    let B := { B with lockList := B.lockList.eraseP fun l => l.matchesRequest pkt }
    (success, B.clearLoadLocks pkt, { pkt with extraData := if success then 1 else 0 })
  else (true, B.clearLoadLocks pkt, pkt)

def cmpAndSwap : Option (CacheBlk × BlkPacket) :=
  let offset := pkt.getOffset blkSize
  if 8 < pkt.getSize then none
  else
    (AbstractMemory.overwriteMem B.data offset pkt.toDataPacket).map fun overwrite =>
      (if overwrite then { B with data := writeBytes B.data offset pkt.data, dirty := true } else B,
        { pkt with data := readBytes B.data offset pkt.getSize })

/-- The block is dirty in the cache that receives it. -/
def passDirty : Option (CacheBlk × BlkPacket) :=
  if B.dirty then
    if pkt.cacheResponding then none
      else some ({ B with dirty := false }, { pkt with cacheResponding := true })
  else some (B, pkt)

def satisfyWrite : Option (CacheBlk × BlkPacket) :=
  if B.isWritable then
    let (proceed, C, pkt) := B.checkWrite pkt
    let data := if proceed then writeBytes C.data (pkt.getOffset blkSize) pkt.data else C.data
    some ({ C with data := data, dirty := true }, pkt)
  else none

/-- A read by another cache. -/
def satisfyCacheRead (deferredResponse pendingDowngrade : Bool) : Option (CacheBlk × BlkPacket) :=
  if pkt.getSize ≠ blkSize then none
  else if pkt.cmd.needsWritable then
    if (pkt.cmd = .ReadExReq ∨ pkt.cmd = .SCUpgradeFailReq) ∧ pkt.hasSharers = false
      then B.passDirty pkt else none
  else if B.isWritable && !pendingDowngrade && !pkt.hasSharers && pkt.cmd ≠ .ReadCleanReq then
    if B.dirty && deferredResponse then some (B, { pkt with hasSharers := true })
      else B.passDirty pkt
  else some (B, { pkt with hasSharers := true })

def satisfyRead (deferredResponse pendingDowngrade : Bool) : Option (CacheBlk × BlkPacket) :=
  let B := if pkt.cmd.isLLSC then B.trackLoadLocked pkt else B
  if pkt.hasRespData then
    let pkt := { pkt with data := readBytes B.data (pkt.getOffset blkSize) pkt.getSize }
    if pkt.cmd.fromCache then B.satisfyCacheRead blkSize pkt deferredResponse pendingDowngrade
      else some (B, pkt)
  else none

/-- `Cache::satisfyRequest`; `none` if it panics or an assertion fails. -/
def satisfyRequest (deferredResponse pendingDowngrade : Bool) : Option (CacheBlk × BlkPacket) :=
  if pkt.cmd.isRequest ∧ B.valid ∧ pkt.getOffset blkSize + pkt.getSize ≤ blkSize then
    if pkt.cmd = .SwapReq then B.cmpAndSwap blkSize pkt
    else if pkt.cmd.isWrite then B.satisfyWrite blkSize pkt
    else if pkt.cmd.isRead then B.satisfyRead blkSize pkt deferredResponse pendingDowngrade
    else if pkt.cmd.isUpgrade then
      if pkt.hasSharers then none else B.passDirty pkt
    else if pkt.cmd.isInvalidate then some (B.invalidate, pkt)
    else none
  else none

/-- A block is taken for another address (`allocateBlock`, `insertBlock`). -/
def insertBlock : CacheBlk := if B.valid then B.invalidate else B

/-- The rest of `handleFill`, for the block that was found or allocated. -/
def fillBlock : Option CacheBlk :=
  let B := { B with valid := true, readable := true }
  let B :=
    if pkt.hasSharers then B
      else { B with writable := true, dirty := B.dirty || pkt.cacheResponding }
  if pkt.cmd = .WriteLineReq ∧ pkt.hasSharers = true then none
  else if pkt.cmd.isRead then
    if pkt.cmd.hasData ∧ pkt.getSize = blkSize
      then some { B with data := writeBytes B.data 0 pkt.data } else none
  else some B

def handleFill (allocated : Bool) : Option CacheBlk :=
  if (pkt.cmd.isResponse ∨ pkt.cmd = .WriteLineReq) ∧ pkt.getOffset blkSize = 0 then
    if allocated then
      if pkt.cmd.hasData ∧ (pkt.cmd.isRead ∨ pkt.cmd = .WriteLineReq)
        then B.insertBlock.fillBlock blkSize pkt
      else none
    else if pkt.cmd.hasData ∨ B.valid then B.fillBlock blkSize pkt
    else none
  else none

end CacheBlk

/-! ## Locks -/

namespace BlkPacket

/-- A request for some bytes of the address space. A packet that writes has the address and the size
of its request. -/
structure WellFormed (pkt : BlkPacket) : Prop where
  size_pos : 0 < pkt.reqSize
  fits : pkt.paddr + pkt.reqSize ≤ 2 ^ 64
  write : pkt.cmd.isWrite = true → pkt.addr = pkt.paddr ∧ pkt.getSize = pkt.reqSize

instance (pkt : BlkPacket) : Decidable pkt.WellFormed :=
  decidable_of_iff (_ ∧ _ ∧ _) ⟨fun h => ⟨h.1, h.2.1, h.2.2⟩,
    fun h => ⟨h.size_pos, h.fits, h.write⟩⟩

theorem WellFormed.reqHigh_succ {pkt : BlkPacket} (h : pkt.WellFormed) :
    pkt.reqHigh + 1 = pkt.paddr + pkt.reqSize := by
  have hpos := h.size_pos
  have hfits := h.fits
  unfold reqHigh
  omega

end BlkPacket

structure Reservation where
  contextId : ℕ
  low : ℕ
  size : ℕ
  deriving DecidableEq, Repr

namespace Reservation

def ofRequest (pkt : BlkPacket) : Reservation := ⟨pkt.contextId, pkt.paddr, pkt.reqSize⟩

/-- The read covers all bytes of a packet of its context. -/
def Covers (r : Reservation) (pkt : BlkPacket) : Prop :=
  r.contextId = pkt.contextId ∧ r.low ≤ pkt.addr ∧ pkt.addr + pkt.getSize ≤ r.low + r.size

/-- A packet of another context has a byte of the range. -/
def endedBy (r : Reservation) (pkt : BlkPacket) : Bool :=
  r.contextId ≠ pkt.contextId && r.low < pkt.addr + pkt.getSize && pkt.addr < r.low + r.size

/-- A lock with the context and the range of a read. -/
structure Backs (r : Reservation) (l : BlkLock) : Prop where
  contextId : r.contextId = l.contextId
  low : r.low = l.lowAddr
  high : r.low + r.size = l.highAddr + 1

variable {r : Reservation} {l : BlkLock} {pkt : BlkPacket}

theorem backs_ofRequest (h : pkt.WellFormed) : (ofRequest pkt).Backs (BlkLock.ofRequest pkt) :=
  ⟨rfl, rfl, h.reqHigh_succ.symm⟩

/-- A conditional write that matches a lock is covered by the read behind it. -/
theorem Backs.covers (h : r.Backs l) (hpkt : pkt.WellFormed) (hwrite : pkt.cmd.isWrite = true)
    (hmatch : l.matchesRequest pkt = true) : r.Covers pkt := by
  have hhigh := hpkt.reqHigh_succ
  have hrange := h.high
  have hlow := h.low
  rcases hpkt.write hwrite with ⟨haddr, hsize⟩
  simp only [BlkLock.matchesRequest, and_eq_true, decide_eq_true_eq] at hmatch
  rcases hmatch with ⟨⟨hctx, hlo⟩, hhi⟩
  refine ⟨h.contextId.trans hctx, ?_, ?_⟩
  · omega
  · omega

/-- A write ends the reads of the locks that it intersects, but for those of its own context. -/
theorem Backs.endedBy_iff (h : r.Backs l) (hpkt : pkt.WellFormed)
    (hwrite : pkt.cmd.isWrite = true) :
    r.endedBy pkt = true ↔ l.intersects pkt = true ∧ l.contextId ≠ pkt.contextId := by
  have hhigh := hpkt.reqHigh_succ
  have hrange := h.high
  have hlow := h.low
  rcases hpkt.write hwrite with ⟨haddr, hsize⟩
  simp only [endedBy, BlkLock.intersects, and_eq_true, decide_eq_true_eq, h.contextId]
  constructor
  · rintro ⟨⟨hctx, hbefore⟩, hafter⟩
    refine ⟨⟨?_, ?_⟩, hctx⟩
    · omega
    · omega
  · rintro ⟨⟨hlo, hhi⟩, hctx⟩
    refine ⟨⟨hctx, ?_⟩, ?_⟩
    · omega
    · omega

end Reservation

namespace CacheBlk

variable {B C : CacheBlk} {blkSize : ℕ} {pkt pkt' : BlkPacket}
  {deferredResponse pendingDowngrade : Bool}

theorem checkWrite_spec :
    ((B.checkWrite pkt).2.1.lockList.Sublist B.lockList) ∧
      (∀ l ∈ (B.checkWrite pkt).2.1.lockList, l.intersects pkt = true →
      l.contextId = pkt.contextId) ∧
      (pkt.cmd.isLLSC = true → (B.checkWrite pkt).2.2.extraData = 1 →
      ∃ l ∈ B.lockList, l.matchesRequest pkt = true) := by
  have hclear : ∀ (D : CacheBlk), ∀ l ∈ (D.clearLoadLocks pkt).lockList, l.intersects pkt = true →
      l.contextId = pkt.contextId := by
    intro D l hl hinter
    have hkept := (mem_filter.1 hl).2
    rw [hinter, Bool.true_and] at hkept
    by_contra hne
    rw [decide_eq_true hne] at hkept
    exact Bool.noConfusion hkept
  unfold checkWrite
  split
  case isTrue hnone =>
    rw [and_eq_true, not_eq_true', decide_eq_true_eq] at hnone
    refine ⟨Sublist.refl _, fun l hl => ?_, fun hllsc => ?_⟩
    · rw [show B.lockList = [] from hnone.2] at hl
      exact absurd hl not_mem_nil
    · exact absurd (hnone.1.symm.trans hllsc) false_ne_true
  case isFalse =>
    split
    case isTrue hllsc =>
      refine ⟨filter_sublist.trans eraseP_sublist, hclear _, fun _ hone => ?_⟩
      cases hany : B.lockList.any fun l => l.matchesRequest pkt with
      | true => exact any_eq_true.1 hany
      | false =>
        dsimp only at hone
        rw [hany, if_neg Bool.false_ne_true] at hone
        exact absurd hone Nat.zero_ne_one
    case isFalse hllsc => exact ⟨filter_sublist, hclear B, fun h => absurd h hllsc⟩

theorem passDirty_lockList (h : B.passDirty pkt = some (C, pkt')) : C.lockList = B.lockList := by
  unfold passDirty at h
  split_ifs at h <;> (cases h; rfl)

theorem satisfyCacheRead_lockList
    (h : B.satisfyCacheRead blkSize pkt deferredResponse pendingDowngrade = some (C, pkt')) :
    C.lockList = B.lockList := by
  unfold satisfyCacheRead at h
  split_ifs at h
  · exact passDirty_lockList h
  · cases h
    rfl
  · exact passDirty_lockList h
  · cases h
    rfl

theorem satisfyRead_lockList (h : B.satisfyRead blkSize pkt deferredResponse pendingDowngrade =
    some (C, pkt')) :
    C.lockList = if pkt.cmd.isLLSC then (B.trackLoadLocked pkt).lockList else B.lockList := by
  have hlocks : (if pkt.cmd.isLLSC then B.trackLoadLocked pkt else B).lockList =
      if pkt.cmd.isLLSC then (B.trackLoadLocked pkt).lockList else B.lockList :=
        apply_ite CacheBlk.lockList ..
  unfold satisfyRead at h
  dsimp only at h
  split at h
  · split at h
    · rw [satisfyCacheRead_lockList h, hlocks]
    · cases h
      exact hlocks
  · cases h

/-- A packet that is satisfied writes its data to the block. -/
def writes (B : CacheBlk) (blkSize : ℕ) (pkt : BlkPacket) : Bool :=
  if pkt.cmd = .SwapReq then
    AbstractMemory.overwriteMem B.data (pkt.getOffset blkSize) pkt.toDataPacket = some true
  else pkt.cmd.isWrite && (B.checkWrite pkt).1

theorem writes_of_not_isWrite (h : pkt.cmd.isWrite = false) : B.writes blkSize pkt = false := by
  have hswap : pkt.cmd ≠ .SwapReq := by
    intro hswap
    rw [hswap] at h
    exact absurd h (by decide)
  unfold writes
  rw [if_neg hswap, h, Bool.false_and]

/-- What each branch of `satisfyRequest` does to the locks. -/
theorem satisfyRequest_cases (h : B.satisfyRequest blkSize pkt deferredResponse pendingDowngrade =
    some (C, pkt')) : (pkt.cmd = .SwapReq ∧ C.lockList = B.lockList) ∨
    (pkt.cmd ≠ .SwapReq ∧ pkt.cmd.isWrite = true ∧ C.lockList = (B.checkWrite pkt).2.1.lockList ∧
      pkt'.extraData = (B.checkWrite pkt).2.2.extraData) ∨
    (pkt.isLoadLockedRead = true ∧ C.lockList = (B.trackLoadLocked pkt).lockList) ∨
    (pkt.cmd.isWrite = false ∧ pkt.isLoadLockedRead = false ∧ pkt.drops = false ∧
    C.lockList = B.lockList) ∨ (pkt.cmd.isWrite = false ∧ pkt.isLoadLockedRead = false ∧
    pkt.drops = true ∧ C.lockList = []) := by
  rcases Option.ite_none_right_eq_some.1 h with ⟨-, h⟩
  split at h
  case isTrue hswap =>
    -- the locks are not looked at
    refine .inl ⟨hswap, ?_⟩
    rcases Option.ite_none_left_eq_some.1 h with ⟨-, h⟩
    rcases Option.map_eq_some_iff.1 h with ⟨overwrite, -, heq⟩
    cases heq
    cases overwrite with
    | true => rfl
    | false => rfl
  case isFalse hswap =>
    split at h
    case isTrue hwrite =>
      refine .inr (.inl ⟨hswap, hwrite, ?_⟩)
      rcases Option.ite_none_right_eq_some.1 h with ⟨-, h⟩
      cases h
      exact ⟨rfl, rfl⟩
    case isFalse hwrite =>
      have hwrite : pkt.cmd.isWrite = false := eq_false_iff.2 hwrite
      split at h
      case isTrue hread =>
        have hlocks := satisfyRead_lockList h
        cases hllsc : pkt.cmd.isLLSC with
        | true =>
          rw [hllsc, if_pos rfl] at hlocks
          refine .inr (.inr (.inl ⟨?_, hlocks⟩))
          simp [BlkPacket.isLoadLockedRead, hwrite, hread, hllsc]
        | false =>
          rw [hllsc, if_neg Bool.false_ne_true] at hlocks
          refine .inr (.inr (.inr (.inl ⟨hwrite, ?_, ?_, hlocks⟩)))
          · simp [BlkPacket.isLoadLockedRead, hllsc]
          · simp [BlkPacket.drops, hread]
      case isFalse hread =>
        have hplain : pkt.isLoadLockedRead = false := by simp [BlkPacket.isLoadLockedRead, hread]
        split at h
        case isTrue hupgrade =>
          split at h
          · cases h
          · refine .inr (.inr (.inr (.inl ⟨hwrite, hplain, ?_, passDirty_lockList h⟩)))
            simp [BlkPacket.drops, hupgrade]
        case isFalse hupgrade =>
          split at h
          · cases h
            refine .inr (.inr (.inr (.inr ⟨hwrite, hplain, ?_, rfl⟩)))
            simp [BlkPacket.drops, hwrite, hread, hupgrade]
          · cases h

/-- A fill takes locks away only with the block. -/
theorem handleFill_lockList {allocated : Bool} (h : B.handleFill blkSize pkt allocated = some C) :
    C.lockList = if allocated then B.insertBlock.lockList else B.lockList := by
  have hfill : ∀ {D : CacheBlk}, D.fillBlock blkSize pkt = some C → C.lockList = D.lockList := by
    intro D hD
    unfold fillBlock at hD
    dsimp only at hD
    split_ifs at hD <;> (cases hD; rfl)
  unfold handleFill at h
  split_ifs at h with _ hallocated
  · rw [hallocated]
    exact hfill h
  · rw [if_neg hallocated]
    exact hfill h

end CacheBlk

/-! ## Sessions -/

/-- What happens to a block: packets are satisfied, snoops invalidate it or take away the permission
to write, and fills bring it in (again). -/
inductive BlkCall
  | satisfyRequest (pkt : BlkPacket) (deferredResponse pendingDowngrade : Bool)
  | invalidate
  | downgrade
  | handleFill (pkt : BlkPacket) (allocated : Bool)

structure BlkSession where
  blk : CacheBlk := {}
  intact : List Reservation := []

namespace BlkSession

variable (blkSize : ℕ) (S : BlkSession)

/-- The reads that are still intact after a packet was satisfied. -/
def intactAfter (pkt : BlkPacket) : List Reservation :=
  if pkt.drops then []
  else
    let kept := if S.blk.writes blkSize pkt then S.intact.filter fun r => !r.endedBy pkt
      else S.intact
    if pkt.isLoadLockedRead then Reservation.ofRequest pkt :: kept else kept

def step : BlkCall → Option BlkSession
  | .satisfyRequest pkt deferredResponse pendingDowngrade =>
    (S.blk.satisfyRequest blkSize pkt deferredResponse pendingDowngrade).map fun r =>
      ⟨r.1, S.intactAfter blkSize pkt⟩
  | .invalidate => some ⟨S.blk.invalidate, []⟩
  | .downgrade => some { S with blk := { S.blk with writable := false } }
  | .handleFill pkt allocated =>
    (S.blk.handleFill blkSize pkt allocated).map fun B =>
      ⟨B, if allocated && S.blk.valid then [] else S.intact⟩

/-- Every conditional write that would succeed now is covered by an intact read of its context. -/
def StoresCovered : Prop :=
  ∀ (pkt : BlkPacket) (deferredResponse pendingDowngrade : Bool)
    (r : CacheBlk × BlkPacket), pkt.WellFormed → pkt.isConditionalWrite = true →
      S.blk.satisfyRequest blkSize pkt deferredResponse pendingDowngrade = some r →
      r.2.extraData = 1 → ∃ read ∈ S.intact, read.Covers pkt

def LocksApart : Prop := S.blk.lockList.Pairwise BlkLock.Apart

def WellFormed (_ : BlkSession) : BlkCall → Prop
  | .satisfyRequest pkt _ _ => pkt.WellFormed
  | _ => True

/-- A swap that writes does not intersect a lock of another context. -/
def SwapsApart : BlkCall → Prop
  | .satisfyRequest pkt _ _ => pkt.cmd = .SwapReq → S.blk.writes blkSize pkt = true →
      ∀ l ∈ S.blk.lockList, l.intersects pkt = true → l.contextId = pkt.contextId
  | _ => True

instance (c : BlkCall) : Decidable (S.WellFormed c) :=
  match c with
  | .satisfyRequest pkt _ _ => inferInstanceAs (Decidable pkt.WellFormed)
  | .invalidate | .downgrade | .handleFill .. => isTrue trivial

instance (c : BlkCall) : Decidable (S.SwapsApart blkSize c) :=
  match c with
  | .satisfyRequest _ _ _ => inferInstanceAs (Decidable (_ → _ → ∀ l ∈ S.blk.lockList, _))
  | .invalidate | .downgrade | .handleFill .. => isTrue trivial

/-- Every lock is backed by an intact read, and the locks are apart. -/
structure Backed : Prop where
  backed : ∀ l ∈ S.blk.lockList, ∃ r ∈ S.intact, r.Backs l
  apart : S.LocksApart

variable {blkSize S} {S' : BlkSession} {c : BlkCall} {B : CacheBlk} {reads : List Reservation}
  {pkt : BlkPacket}

theorem Backed.of_no_locks (h : B.lockList = []) : Backed ⟨B, reads⟩ where
  backed := by
    change ∀ l ∈ B.lockList, _
    rw [h]
    exact forall_mem_nil _
  apart := by
    change B.lockList.Pairwise _
    rw [h]
    exact List.Pairwise.nil

section

variable (h : S.Backed)

include h

theorem Backed.of_lockList_eq (heq : B.lockList = S.blk.lockList) : Backed ⟨B, S.intact⟩ where
  backed := by
    change ∀ l ∈ B.lockList, _
    rw [heq]
    exact h.backed
  apart := by
    change B.lockList.Pairwise _
    rw [heq]
    exact h.apart

/-- A write, or a swap: the locks that are left are those that it does not intersect, and those of
its context. -/
theorem Backed.write (hpkt : pkt.WellFormed) (hwrite : pkt.cmd.isWrite = true)
    (hsub : B.lockList.Sublist S.blk.lockList) (hown : S.blk.writes blkSize pkt = true →
    ∀ l ∈ B.lockList, l.intersects pkt = true → l.contextId = pkt.contextId) :
    Backed ⟨B, S.intactAfter blkSize pkt⟩ := by
  refine ⟨fun l hl => ?_, h.apart.sublist hsub⟩
  rcases h.backed l (hsub.subset hl) with ⟨r, hr, hback⟩
  refine ⟨r, ?_, hback⟩
  have hkeep : pkt.drops = false := by simp [BlkPacket.drops, hwrite]
  have hplain : pkt.isLoadLockedRead = false := by simp [BlkPacket.isLoadLockedRead, hwrite]
  unfold intactAfter
  rw [hkeep, hplain, if_neg Bool.false_ne_true]
  cases hw : S.blk.writes blkSize pkt with
  | false => exact hr
  | true =>
    refine mem_filter.2 ⟨hr, ?_⟩
    -- the read is ended only if its lock is taken away
    rw [not_eq_true']
    by_contra hended
    rcases (hback.endedBy_iff hpkt hwrite).1 (not_eq_false _ ▸ hended) with ⟨hinter, hctx⟩
    exact hctx (hown hw l hl hinter)

theorem Backed.loadLocked (hpkt : pkt.WellFormed) (hll : pkt.isLoadLockedRead = true)
    (hlocks : B.lockList = (S.blk.trackLoadLocked pkt).lockList) :
    Backed ⟨B, S.intactAfter blkSize pkt⟩ := by
  have hread : pkt.cmd.isWrite = false ∧ pkt.cmd.isRead = true := by
    simp only [BlkPacket.isLoadLockedRead, and_eq_true, not_eq_true'] at hll
    exact hll.1
  have hintact : S.intactAfter blkSize pkt = Reservation.ofRequest pkt :: S.intact := by
    have hkeep : pkt.drops = false := by simp [BlkPacket.drops, hread.2]
    unfold intactAfter
    rw [hkeep, hll, CacheBlk.writes_of_not_isWrite hread.1]
    rfl
  rw [hintact]
  constructor
  · intro l hl
    rw [show (⟨B, _⟩ : BlkSession).blk.lockList = _ from hlocks] at hl
    rcases mem_cons.1 hl with rfl | hl
    · exact ⟨_, mem_cons_self, Reservation.backs_ofRequest hpkt⟩
    · rcases h.backed l (filter_sublist.subset hl) with ⟨r, hr, hback⟩
      exact ⟨r, mem_cons_of_mem _ hr, hback⟩
  · unfold LocksApart
    rw [show (⟨B, _⟩ : BlkSession).blk.lockList = _ from hlocks]
    refine pairwise_cons.2 ⟨fun l hl => ?_, h.apart.sublist filter_sublist⟩
    -- a lock that stays does not intersect the new one
    have hout := (mem_filter.1 hl).2
    simp only [BlkLock.intersects, Bool.not_and, or_eq_true, not_eq_true', decide_eq_false_iff_not,
      Nat.not_le] at hout
    rcases hout with hout | hout
    · exact .inr hout
    · exact .inl hout

theorem Backed.satisfyRequest {deferredResponse pendingDowngrade : Bool} {pkt' : BlkPacket}
    (hpkt : pkt.WellFormed)
    (hswap : S.SwapsApart blkSize (.satisfyRequest pkt deferredResponse pendingDowngrade))
    (hB : S.blk.satisfyRequest blkSize pkt deferredResponse pendingDowngrade = some (B, pkt')) :
    Backed ⟨B, S.intactAfter blkSize pkt⟩ := by
  rcases CacheBlk.satisfyRequest_cases hB with ⟨hcmd, hlocks⟩ | ⟨_, hwrite, hlocks, -⟩ |
    ⟨hll, hlocks⟩ | ⟨hwrite, hplain, hkeep, hlocks⟩ | ⟨-, -, -, hlocks⟩
  · have hwrite : pkt.cmd.isWrite = true := by
      rw [hcmd]
      rfl
    refine h.write hpkt hwrite (hlocks ▸ Sublist.refl _) ?_
    rw [hlocks]
    exact hswap hcmd
  · refine h.write hpkt hwrite (hlocks ▸ CacheBlk.checkWrite_spec.1) ?_
    rw [hlocks]
    exact fun _ => CacheBlk.checkWrite_spec.2.1
  · exact h.loadLocked hpkt hll hlocks
  · have hintact : S.intactAfter blkSize pkt = S.intact := by
      unfold intactAfter
      rw [hkeep, hplain, CacheBlk.writes_of_not_isWrite hwrite]
      rfl
    rw [hintact]
    exact h.of_lockList_eq hlocks
  · exact Backed.of_no_locks hlocks

theorem Backed.step (hwf : S.WellFormed c) (hswap : S.SwapsApart blkSize c)
    (hS : S.step blkSize c = some S') : S'.Backed := by
  cases c with
  | satisfyRequest pkt deferredResponse pendingDowngrade =>
    rcases Option.map_eq_some_iff.1 hS with ⟨⟨B, pkt'⟩, hB, rfl⟩
    exact h.satisfyRequest hwf hswap hB
  | invalidate =>
    cases hS
    exact Backed.of_no_locks rfl
  | downgrade =>
    cases hS
    exact h.of_lockList_eq rfl
  | handleFill pkt allocated =>
    rcases Option.map_eq_some_iff.1 hS with ⟨B, hB, rfl⟩
    have hlocks := CacheBlk.handleFill_lockList hB
    unfold CacheBlk.insertBlock at hlocks
    cases allocated with
    | false => exact h.of_lockList_eq hlocks
    | true =>
      cases hvalid : S.blk.valid with
      | true =>
        rw [hvalid, if_pos rfl] at hlocks
        exact Backed.of_no_locks hlocks
      | false =>
        rw [hvalid, if_neg Bool.false_ne_true] at hlocks
        exact h.of_lockList_eq hlocks

theorem Backed.storesCovered : S.StoresCovered blkSize := by
  intro pkt deferredResponse pendingDowngrade r hpkt hcond hr hone
  have hkind : pkt.cmd.isWrite = true ∧ pkt.cmd.isLLSC = true := by
    simpa only [BlkPacket.isConditionalWrite, and_eq_true] using hcond
  have hextra : r.2.extraData = (S.blk.checkWrite pkt).2.2.extraData := by
    rcases CacheBlk.satisfyRequest_cases hr with ⟨hcmd, -⟩ | ⟨-, -, -, hextra⟩ | ⟨hll, -⟩ |
      ⟨hwrite, -⟩ | ⟨hwrite, -⟩
    · rw [hcmd] at hkind
      exact absurd hkind.2 (by decide)
    · exact hextra
    · simp [BlkPacket.isLoadLockedRead, hkind.1] at hll
    · exact absurd (hkind.1.symm.trans hwrite) Bool.noConfusion
    · exact absurd (hkind.1.symm.trans hwrite) Bool.noConfusion
  rcases CacheBlk.checkWrite_spec.2.2 hkind.2 (hextra.symm.trans hone) with ⟨l, hl, hmatch⟩
  rcases h.backed l hl with ⟨read, hread, hback⟩
  exact ⟨read, hread, hback.covers hpkt hkind.1 hmatch⟩

end

/-- In every run in which no swap writes to the range of another context's lock, a conditional write
succeeds only if an intact load-locked read of its context covers it, and the locks are apart. -/
theorem storeCond_atomic (blkSize : ℕ) (B : CacheBlk) (hB : B.lockList = []) (calls : List BlkCall)
    (hwf : Throughout (step blkSize) WellFormed { blk := B } calls)
    (hswap : Throughout (step blkSize) (SwapsApart blkSize) { blk := B } calls) :
    Always (step blkSize) (fun S => S.StoresCovered blkSize ∧ S.LocksApart) { blk := B } calls := by
  exact Always.of_throughout (fun _ hS => ⟨Backed.storesCovered hS, Backed.apart hS⟩)
    (fun _ _ _ hS hc => Backed.step hS hc.1 hc.2) (Backed.of_no_locks hB) (hwf.and hswap)

/-- A packet as a processor makes it. -/
def cpuPacket (cmd : MemCmd) (contextId addr : ℕ) (data : List UInt8) : BlkPacket :=
  { cmd := cmd, req := { masterId := 0 }, addr := addr, data := data, paddr := addr,
    contextId := contextId, reqSize := data.length }

def swapElsewhere : List BlkCall :=
  [.handleFill (cpuPacket .ReadResp 0 0 (replicate 8 0)) true,
    .satisfyRequest (cpuPacket .LoadLockedReq 0 0 [0]) false false,
    .satisfyRequest (cpuPacket .LoadLockedReq 1 4 [0]) false false,
    .satisfyRequest (cpuPacket .SwapReq 1 4 [1]) false false,
    .satisfyRequest (cpuPacket .StoreCondReq 0 0 [1]) false false, .invalidate]

theorem storeCond_atomic_swapElsewhere :
    Throughout (step 8) (SwapsApart 8) {} swapElsewhere ∧
      Always (step 8) (fun S => S.StoresCovered 8 ∧ S.LocksApart) {} swapElsewhere :=
  ⟨by decide, storeCond_atomic 8 {} rfl swapElsewhere (by decide) (by decide)⟩

/-- Context 0 reads a byte with a lock, and context 1 changes it with a swap. -/
def swapUnderLock : List BlkCall :=
  [.handleFill (cpuPacket .ReadResp 0 0 (replicate 8 0)) true,
    .satisfyRequest (cpuPacket .LoadLockedReq 0 0 [0]) false false,
    .satisfyRequest (cpuPacket .SwapReq 1 0 [1]) false false]

/-- A conditional write of context 0 still succeeds. -/
theorem storeCond_after_swap :
    Throughout (step 8) WellFormed {} swapUnderLock ∧
      ¬ Always (step 8) (fun S => S.StoresCovered 8 ∧ S.LocksApart) {} swapUnderLock := by
  refine ⟨by decide, fun h => ?_⟩
  have hcovered := (h.last rfl).1 (cpuPacket .StoreCondReq 0 0 [2]) false false _ (by decide) rfl
    rfl rfl
  rcases hcovered with ⟨read, hread, -⟩
  exact absurd hread not_mem_nil

end BlkSession

end EnocGem5.Mem
