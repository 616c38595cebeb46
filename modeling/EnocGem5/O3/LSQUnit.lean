import EnocGem5.Lib.Ring

/-!
# LSQUnit — the load/store queue of one thread

`cpu/o3/lsq_unit.hh` and `lsq_unit_impl.hh`. Loads and stores wait in two circular queues. A store
is written into its entry when it executes, may be written back once it has committed, and is sent
to the data cache in program order, in two packets if it crosses a cache block. A load takes its
data from an older store of the queue, waits if a store has a part of it only, or reads the cache:
here only its search of the queue. A store that executes afterwards looks for younger loads that
should have seen it.

A call is `none` where an assertion fails, the source panics or a null pointer is followed. The data
port is its answers to the requests that are about to come; `sent` are the writes it has accepted.
What the ISA decides (`initiateAcc`, `handleLockedWrite`) comes with the call or with the
instruction.
-/

namespace EnocGem5.O3.LSQ

open Lib Nat

/-! ## Instructions, requests and packets -/

/-- `LQEntries` and `SQEntries` count the sentinel entry. -/
structure Config where
  lqEntries : ℕ
  sqEntries : ℕ
  cacheStorePorts : ℕ
  depCheckShift : ℕ
  needsTSO : Bool
  hasUnalignedMemAcc : Bool
  lq_pos : 0 < lqEntries
  sq_pos : 0 < sqEntries

def addr (a : ℕ) : ℕ := a % 2 ^ 64

structure Request where
  vaddr : ℕ
  paddr : ℕ
  size : ℕ
  isStrictlyOrdered : Bool := false
  isLLSC : Bool := false
  isMmappedIpr : Bool := false
  cacheBlockZero : Bool := false
  deriving DecidableEq, Repr

/-- What the queue reads of an instruction. `lockedWrite` is the answer of `handleLockedWrite` to a
store conditional. -/
structure DynInst where
  seqNum : ℕ
  isStoreConditional : Bool := false
  isDataPrefetch : Bool := false
  lockedWrite : Bool := true
  lqIdx : ℕ := 0
  sqIdx : Option ℕ := none
  effAddr : ℕ := 0
  effSize : ℕ := 0
  effAddrValid : Bool := false
  strictlyOrdered : Bool := false
  hitExternalSnoop : Bool := false
  possibleLoadViolation : Bool := false
  memData : Option (List UInt8) := none
  deriving DecidableEq, Repr

/-- `readMem` and `writeMem` note the access before they hand it over. -/
def DynInst.access (inst : DynInst) (req : Request) : DynInst :=
  { inst with
    effAddr := req.vaddr
    effSize := req.size
    effAddrValid := true
    strictlyOrdered := req.isStrictlyOrdered }

structure Write where
  req : Request
  sreqLow : Option Request := none
  sreqHigh : Option Request := none
  data : List UInt8
  deriving DecidableEq, Repr

structure SQEntry where
  data : List UInt8 := List.replicate 16 0
  inst : Option DynInst := none
  req : Option Request := none
  sreqLow : Option Request := none
  sreqHigh : Option Request := none
  size : ℕ := 0
  isSplit : Bool := false
  canWB : Bool := false
  committed : Bool := false
  completed : Bool := false
  isAllZeros : Bool := false
  deriving DecidableEq, Repr

/-- The bytes of a store, `size` of them from byte `shift` on. -/
def SQEntry.bytes (e : SQEntry) (shift size : ℕ) : List UInt8 :=
  if e.isAllZeros then List.replicate size 0 else (e.data.drop shift).take size

/-- Which packet of a store: the only one or a half of a split one. -/
inductive Part
  | whole
  | low
  | high
  deriving DecidableEq, Repr

/-- A write packet. `seqNum` and `idx` stand in its sender state. -/
structure Packet where
  seqNum : ℕ
  idx : ℕ
  part : Part
  req : Request
  data : List UInt8
  deriving DecidableEq, Repr

/-- The rest of `LSQSenderState` that decides what is sent. -/
structure SenderState where
  pktToSend : Bool := false
  pendingPacket : Option Packet := none
  deriving DecidableEq, Repr

/-- A violator is known by its sequence number. -/
structure LSQUnit where
  storeQueue : ℕ → SQEntry := fun _ => {}
  loadQueue : ℕ → Option DynInst := fun _ => none
  loads : ℕ := 0
  stores : ℤ := 0
  storesToWB : ℤ := 0
  loadTail : ℕ := 0
  storeHead : ℕ := 0
  storeWBIdx : ℕ := 0
  storeTail : ℕ := 0
  usedStorePorts : ℕ := 0
  stalled : Bool := false
  stallingStoreIsn : ℕ := 0
  stallingLoadIdx : ℕ := 0
  retryPkt : Option (Packet × SenderState) := none
  isStoreBlocked : Bool := false
  storeInFlight : Bool := false
  memDepViolator : Option ℕ := none
  hasPendingPkt : Bool := false
  pendingPkt : Option Packet := none
  answers : List Bool := []
  sent : List Packet := []

namespace LSQUnit

/-! ## Indices and the data port -/

variable (cfg : Config) {req : Request}

def incrStIdx (i : ℕ) : ℕ := nextSlot cfg.sqEntries i

def decrStIdx (i : ℕ) : ℕ := prevSlot cfg.sqEntries i

def incrLdIdx (i : ℕ) : ℕ := nextSlot cfg.lqEntries i

def decrLdIdx (i : ℕ) : ℕ := prevSlot cfg.lqEntries i

variable (U : LSQUnit)

def setStore (i : ℕ) (e : SQEntry) : LSQUnit :=
  { U with storeQueue := Function.update U.storeQueue i e }

def setLoad (i : ℕ) (inst : Option DynInst) : LSQUnit :=
  { U with loadQueue := Function.update U.loadQueue i inst }

/-- The data port answers; without an answer it refuses. -/
def sendTimingReq : Bool × LSQUnit :=
  match U.answers with
  | [] => (false, U)
  | answer :: answers => (answer, { U with answers := answers })

/-- The store that stalls a load has been sent or completed. -/
def unstall (seqNum : ℕ) : LSQUnit :=
  if U.stalled && seqNum = U.stallingStoreIsn
    then { U with stalled := false, stallingStoreIsn := 0 } else U

/-! ## Insertion -/

variable (inst : DynInst)

/-- The instruction of a store as `insertStore` leaves it. -/
def placed (U : LSQUnit) : DynInst :=
  { inst with sqIdx := some U.storeTail, lqIdx := U.loadTail }

def insertStore (U : LSQUnit) : Option LSQUnit :=
  if (U.storeTail + 1) % cfg.sqEntries = U.storeHead then none
  else if U.stores < cfg.sqEntries then
    some { U.setStore U.storeTail { inst := some (U.placed inst) } with
      storeTail := incrStIdx cfg U.storeTail
      stores := U.stores + 1 }
  else none

/-! ## Execution of stores -/

/-- The last byte of an access in units of the dependence check. -/
def checkedEnd (effAddr effSize : ℕ) : ℕ :=
  addr (effAddr + effSize + (2 ^ 64 - 1)) >>> cfg.depCheckShift

def overlapping (inst ld : DynInst) : Bool :=
  checkedEnd cfg inst.effAddr inst.effSize ≥ ld.effAddr >>> cfg.depCheckShift
    && inst.effAddr >>> cfg.depCheckShift ≤ checkedEnd cfg ld.effAddr ld.effSize

/-- `checkViolations` from the load at `i` on, for at most `fuel` loads. -/
def checkViolationsFrom (isLoad : Bool) (inst : DynInst) : ℕ → ℕ → LSQUnit → Option LSQUnit
  | 0, _, U => some U
  | fuel + 1, i, U =>
    if i = U.loadTail then some U
    else
      match U.loadQueue i with
      | none => none
      | some ld =>
        if !ld.effAddrValid || ld.strictlyOrdered || !overlapping cfg inst ld then
          checkViolationsFrom isLoad inst fuel (incrLdIdx cfg i) U
        else if isLoad then
          -- a snoop between the two loads: the younger one may have newer data
          if ld.hitExternalSnoop && U.memDepViolator.all (ld.seqNum < ·) then
            some { U with memDepViolator := some ld.seqNum }
          else
            checkViolationsFrom isLoad inst fuel (incrLdIdx cfg i)
              (U.setLoad i (some { ld with possibleLoadViolation := true }))
        else if U.memDepViolator.any (· < ld.seqNum) then some U
        else some { U with memDepViolator := some ld.seqNum }

def checkViolations (isLoad : Bool) (loadIdx : ℕ) (inst : DynInst) (U : LSQUnit) : Option LSQUnit :=
  checkViolationsFrom cfg isLoad inst cfg.lqEntries loadIdx U

/-- `memcpy` into the entry's buffer. -/
def copied (buffer data : List UInt8) (size : ℕ) : List UInt8 := data.take size ++ buffer.drop size

variable (e : SQEntry)

/-- The entry of a store after `write`; its size is kept in eight bits. -/
def written (w : Write) : SQEntry :=
  { e with
    req := some w.req
    sreqLow := w.sreqLow
    sreqHigh := w.sreqHigh
    size := w.req.size % 256
    isAllZeros := w.req.cacheBlockZero
    isSplit := (cfg.hasUnalignedMemAcc && w.sreqLow.isSome) || e.isSplit
    data := if w.req.cacheBlockZero then e.data else copied e.data w.data w.req.size }

def write (w : Write) (storeIdx : ℕ) (U : LSQUnit) : Option LSQUnit :=
  if (U.storeQueue storeIdx).inst.isNone then none
  else if w.req.size ≤ 16 || w.req.cacheBlockZero then
    some (U.setStore storeIdx (written cfg (U.storeQueue storeIdx) w))
  else none

/-- What `initiateAcc` does for a store: the translation is delayed, there is a fault or the
predicate is false, or the store writes. -/
inductive StoreAcc
  | delayed
  | fault
  | predicatedFalse
  | write (w : Write)
  deriving DecidableEq, Repr

def StoreAcc.write? : StoreAcc → Option Write
  | .write w => some w
  | _ => none

/-- The end of `executeStore`: a store conditional needs no commit to be written back. -/
def finishExecuteStore (storeIdx : ℕ) (inst : DynInst) (U : LSQUnit) : Option LSQUnit :=
  let e := U.storeQueue storeIdx
  if e.size = 0 then some U
  else if inst.isStoreConditional then
    checkViolations cfg false inst.lqIdx inst
      { U.setStore storeIdx { e with canWB := true } with storesToWB := U.storesToWB + 1 }
  else checkViolations cfg false inst.lqIdx inst U

/-- `executeStore` of the instruction in the entry `storeIdx`. -/
def executeStore (storeIdx : ℕ) (acc : StoreAcc) (U : LSQUnit) : Option LSQUnit :=
  if U.stores = 0 then none
  else
    match acc with
    | .delayed => some U
    | .predicatedFalse => some U
    | .fault => if (U.storeQueue storeIdx).size = 0 then some U else none
    | .write w =>
      match (U.storeQueue storeIdx).inst with
      | none => none
      | some inst => do
        let e := { U.storeQueue storeIdx with inst := some (inst.access w.req) }
        let U ← (U.setStore storeIdx e).write cfg w storeIdx
        U.finishExecuteStore cfg storeIdx (inst.access w.req)

/-! ## Commit -/

/-- The loop of `commitStores` from the store at `i` on. -/
def commitStoresFrom (youngest : ℕ) : ℕ → ℕ → LSQUnit → Option LSQUnit
  | 0, _, _ => none
  | fuel + 1, i, U =>
    if i = U.storeTail then some U
    else
      match (U.storeQueue i).inst with
      | none => none
      | some inst =>
        if (U.storeQueue i).canWB then commitStoresFrom youngest fuel (incrStIdx cfg i) U
        else if inst.seqNum > youngest then some U
        else
          commitStoresFrom youngest fuel (incrStIdx cfg i)
            { U.setStore i { U.storeQueue i with canWB := true } with
            storesToWB := U.storesToWB + 1 }

def commitStores (youngest : ℕ) (U : LSQUnit) : Option LSQUnit :=
  if U.stores = 0 || (U.storeQueue U.storeHead).inst.isSome then
    commitStoresFrom cfg youngest cfg.sqEntries U.storeHead U
  else none

/-! ## Write-back -/

/-- The do-while loop of `completeStore`. -/
def advanceHead : ℕ → LSQUnit → Option LSQUnit
  | 0, _ => none
  | fuel + 1, U =>
    let U := { U with storeHead := incrStIdx cfg U.storeHead, stores := U.stores - 1 }
    if (U.storeQueue U.storeHead).completed && U.storeHead ≠ U.storeTail then advanceHead fuel U
      else some U

/-- The first assignments of `completeStore`. -/
def markCompleted (storeIdx : ℕ) (U : LSQUnit) : LSQUnit :=
  { U.setStore storeIdx { U.storeQueue storeIdx with completed := true } with
    storesToWB := U.storesToWB - 1 }

/-- The head moves if it stands at the completed store. -/
def passCompleted (storeIdx : ℕ) (U : LSQUnit) : Option LSQUnit :=
  if storeIdx = U.storeHead then advanceHead cfg cfg.sqEntries U else some U

/-- The end of `completeStore`. -/
def afterComplete (seqNum : ℕ) (U : LSQUnit) : LSQUnit :=
  let U := U.unstall seqNum
  { U with storeInFlight := U.storeInFlight && !cfg.needsTSO }

def completeStore (storeIdx : ℕ) (U : LSQUnit) : Option LSQUnit :=
  match (U.storeQueue storeIdx).inst with
  | none => none
  | some inst => (passCompleted cfg storeIdx (U.markCompleted storeIdx)).map
    (afterComplete cfg inst.seqNum)

def storePostSend : Option LSQUnit :=
  match (U.storeQueue U.storeWBIdx).inst with
  | none => none
  | some inst =>
    let U := U.unstall inst.seqNum
    some { U with
      storeInFlight := U.storeInFlight || cfg.needsTSO
      storeWBIdx := incrStIdx cfg U.storeWBIdx }

variable (pkt : Packet) (state : SenderState)

/-- A refused packet is kept for the retry. -/
def sendStore (U : LSQUnit) : Option (Bool × LSQUnit) :=
  match U.sendTimingReq with
  | (true, U) => some (true, { U with sent := U.sent ++ [pkt] })
  | (false, U) =>
    if U.retryPkt.isSome then none
    else some (false, { U with isStoreBlocked := true, retryPkt := some (pkt, state) })

/-- The store at `storeWBIdx` needs nothing from the cache. -/
def finishStore : Option LSQUnit := do
  let U ← U.completeStore cfg U.storeWBIdx
  some { U with storeWBIdx := incrStIdx cfg U.storeWBIdx }

/-- `sendStore` of the last packet of a store, and `storePostSend`. -/
def sendLast (U : LSQUnit) : Option LSQUnit := do
  let (accepted, U) ← U.sendStore pkt state
  if accepted then U.storePostSend cfg else some U

/-- Write-back of a store in one packet; an internal register is written at once. -/
def sendWhole (req : Request) (pkt : Packet) (U : LSQUnit) : Option LSQUnit :=
  if req.isMmappedIpr then if inst.isStoreConditional then none else U.finishStore cfg
  else U.sendLast cfg pkt {}

/-- Write-back of a split store. -/
def sendSplit (low high : Request) (lowPkt highPkt : Packet) (U : LSQUnit) : Option LSQUnit :=
  if low.isMmappedIpr then
    if inst.isStoreConditional || !high.isMmappedIpr then none else U.finishStore cfg
  else do
    let (accepted, U) ← U.sendStore lowPkt {}
    if !accepted then
      -- the sender state, shared by both packets, keeps the second one
      some { U with retryPkt := U.retryPkt.map fun r => (r.1, ⟨true, some highPkt⟩) }
    else if U.usedStorePorts < cfg.cacheStorePorts then
      sendLast cfg highPkt {} { U with usedStorePorts := U.usedStorePorts + 1 }
    else if U.pendingPkt.isSome then none
    else some { U with pendingPkt := some highPkt, hasPendingPkt := true }

def wholePacket (idx : ℕ) (req : Request) (bytes : List UInt8) : Packet where
  seqNum := inst.seqNum
  idx := idx
  part := .whole
  req := req
  data := bytes

def lowPacket (idx : ℕ) (low : Request) (bytes : List UInt8) : Packet where
  seqNum := inst.seqNum
  idx := idx
  part := .low
  req := low
  data := bytes.take low.size

def highPacket (idx : ℕ) (low high : Request) (bytes : List UInt8) : Packet where
  seqNum := inst.seqNum
  idx := idx
  part := .high
  req := high
  data := (bytes.drop low.size).take high.size

/-- The packets of a store are made and the first one is sent; a store conditional that fails is
complete. -/
def sendData (inst : DynInst) (req : Request) (bytes : List UInt8) (U : LSQUnit) : Option LSQUnit :=
  if inst.isStoreConditional && e.isSplit then none
  else if inst.isStoreConditional && !inst.lockedWrite then U.finishStore cfg
  else if cfg.hasUnalignedMemAcc && e.isSplit then
    match e.sreqLow, e.sreqHigh with
    | some low, some high =>
      U.sendSplit cfg inst low high (lowPacket inst U.storeWBIdx low bytes)
        (highPacket inst U.storeWBIdx low high bytes)
    | _, _ => none
  else U.sendWhole cfg inst req (wholePacket inst U.storeWBIdx req bytes)

/-- A store whose data go to memory. -/
def writebackData (inst : DynInst) (U : LSQUnit) : Option LSQUnit :=
  match e.req with
  | none => none
  | some req =>
    if e.committed || inst.memData.isSome then none
    else
      let bytes := e.bytes 0 req.size
      let e := { e with committed := true, inst := some { inst with memData := some bytes } }
      (U.setStore U.storeWBIdx e).sendData cfg e inst req bytes

/-- One iteration of `writebackStores`. -/
def writebackStore : Option LSQUnit :=
  let e := U.storeQueue U.storeWBIdx
  match e.inst with
  | none => none
  | some inst =>
    if e.size = 0 then U.finishStore cfg
    else
      let U := { U with usedStorePorts := U.usedStorePorts + 1 }
      -- a prefetch is passed over, and stays in the queue
      if inst.isDataPrefetch then some { U with storeWBIdx := incrStIdx cfg U.storeWBIdx }
      else U.writebackData cfg e inst

/-- The condition of the loop of `writebackStores`. -/
def mayWriteback : Bool :=
  0 < U.storesToWB
    && U.storeWBIdx ≠ U.storeTail
    && (U.storeQueue U.storeWBIdx).inst.isSome
    && (U.storeQueue U.storeWBIdx).canWB
    && (!cfg.needsTSO || !U.storeInFlight)
    && U.usedStorePorts < cfg.cacheStorePorts

def writebackLoop : ℕ → LSQUnit → Option LSQUnit
  | 0, U => if U.mayWriteback cfg && !U.isStoreBlocked then none else some U
  | fuel + 1, U =>
    if U.mayWriteback cfg && !U.isStoreBlocked then do
      let U ← U.writebackStore cfg
      writebackLoop fuel U
    else some U

/-- The second packet of a split store goes first; only some ISAs have such stores. -/
def writebackPendingStore : Option LSQUnit :=
  if cfg.hasUnalignedMemAcc && U.hasPendingPkt then
    match U.pendingPkt with
    | none => none
    | some pkt => do
      let U ← U.sendLast cfg pkt {}
      some { U with pendingPkt := none, hasPendingPkt := false }
  else some U

def writebackStores : Option LSQUnit := do
  let U ← U.writebackPendingStore cfg
  let U ← writebackLoop cfg (cfg.sqEntries + 1) U
  if 0 ≤ U.stores ∧ 0 ≤ U.storesToWB then some { U with usedStorePorts := 0 } else none

/-- `recvRetry` after the packet kept for the retry has been accepted. -/
def retried (U : LSQUnit) : Option LSQUnit :=
  let U := { U with sent := U.sent ++ [pkt] }
  if !cfg.hasUnalignedMemAcc || !state.pktToSend || state.pendingPacket = some pkt then do
    let U ← U.storePostSend cfg
    some { U with retryPkt := none, isStoreBlocked := false }
  else
    match state.pendingPacket with
    | none => none
    | some pending => sendLast cfg pending state
      { U with retryPkt := none, isStoreBlocked := false }

def recvRetry : Option LSQUnit :=
  if U.isStoreBlocked then
    match U.retryPkt with
    | none => none
    | some (pkt, state) =>
      match U.sendTimingReq with
      | (true, U) => U.retried cfg pkt state
      | (false, U) => some U
  else some U

/-! ## Squash -/

/-- The first loop of `squash`; `load_idx` is the slot before the tail. -/
def squashLoads (squashedNum : ℕ) : ℕ → LSQUnit → Option LSQUnit
  | 0, U => some U
  | fuel + 1, U =>
    let i := decrLdIdx cfg U.loadTail
    match U.loadQueue i with
    | none => none
    | some inst =>
      if inst.seqNum > squashedNum then
        let stalling := U.stalled && i = U.stallingLoadIdx
        squashLoads squashedNum fuel
          { U.setLoad i none with
            loads := U.loads - 1
            loadTail := i
            stalled := U.stalled && !stalling
            stallingStoreIsn := if stalling then 0 else U.stallingStoreIsn
            stallingLoadIdx := if stalling then 0 else U.stallingLoadIdx }
      else some U

/-- The entry of a squashed store. -/
def squashedEntry : SQEntry :=
  { e with
    inst := none
    canWB := false
    req := none
    sreqLow := if cfg.hasUnalignedMemAcc && e.isSplit then none else e.sreqLow
    sreqHigh := if cfg.hasUnalignedMemAcc && e.isSplit then none else e.sreqHigh }

/-- The second loop of `squash`; `store_idx` is the slot before the tail. -/
def squashStores (squashedNum : ℕ) : ℕ → LSQUnit → Option LSQUnit
  | 0, U => if U.stores = 0 then some U else none
  | fuel + 1, U =>
    if U.stores = 0 then some U
    else
      let i := decrStIdx cfg U.storeTail
      match (U.storeQueue i).inst with
      | none => none
      | some inst =>
        if inst.seqNum > squashedNum && !(U.storeQueue i).canWB then
          if U.stalled && inst.seqNum = U.stallingStoreIsn then none
          else
            squashStores squashedNum fuel
              { U.setStore i (squashedEntry cfg (U.storeQueue i)) with
                stores := U.stores - 1
                storeTail := i }
        else some U

def squash (squashedNum : ℕ) (U : LSQUnit) : Option LSQUnit := do
  let U ← squashLoads cfg squashedNum U.loads U
  let U := { U with memDepViolator := U.memDepViolator.filter (· ≤ squashedNum) }
  squashStores cfg squashedNum U.stores.toNat U

/-! ## The search of `read` -/

/-- What the search of `read` finds: nothing, a store with all bytes of the load, or one with
some. -/
inductive Found
  | nothing
  | covering (storeIdx : ℕ)
  | partly (storeIdx : ℕ)
  deriving DecidableEq, Repr

def hasLowerLimit (req : Request) (st : DynInst) : Bool := req.vaddr ≥ st.effAddr

def hasUpperLimit (req : Request) (st : DynInst) (size : ℕ) : Bool :=
  addr (req.vaddr + req.size) ≤ addr (st.effAddr + size)

def lowerHasPart (req : Request) (st : DynInst) (size : ℕ) : Bool :=
  req.vaddr < addr (st.effAddr + size)

def upperHasPart (req : Request) (st : DynInst) : Bool := addr (req.vaddr + req.size) > st.effAddr

def covers (req : Request) (st : DynInst) (size : ℕ) : Bool :=
  hasLowerLimit req st && hasUpperLimit req st size && !req.isLLSC

def hasPart (req : Request) (st : DynInst) (size : ℕ) : Bool :=
  (!req.isLLSC
      && ((hasLowerLimit req st && lowerHasPart req st size)
        || (hasUpperLimit req st size && upperHasPart req st)
        || (lowerHasPart req st size && upperHasPart req st)))
    || (req.isLLSC
      && ((hasLowerLimit req st || upperHasPart req st)
        && (hasUpperLimit req st size || lowerHasPart req st size)))

/-- The search of `read` below the store index `i`, for at most `fuel` stores. -/
def findStore (req : Request) (U : LSQUnit) : ℕ → ℕ → Option Found
  | 0, _ => some .nothing
  | fuel + 1, i =>
    if i = U.storeWBIdx then some .nothing
    else
      let i := decrStIdx cfg i
      let e := U.storeQueue i
      match e.inst with
      | none => none
      | some st =>
        if e.size = 0 || st.strictlyOrdered then findStore req U fuel i
        else if !st.effAddrValid then none
        else if covers req st e.size then some (.covering i)
        else if hasPart req st e.size then if e.completed then none else some (.partly i)
        else findStore req U fuel i

/-- The loop of `read`; a load without stores in the queue before it has the index -1. -/
def searchStores (req : Request) (inst : DynInst) (U : LSQUnit) : Option Found :=
  match inst.sqIdx with
  | none => some .nothing
  | some i => U.findStore cfg req cfg.sqEntries i

/-- A search that starts `k` stores above the write-back index visits no more than these. -/
theorem findStore_of_le {b k fuel : ℕ} (hwb : U.storeWBIdx = b % cfg.sqEntries) (hk : k ≤ fuel) :
    U.findStore cfg req fuel ((b + k) % cfg.sqEntries) =
    U.findStore cfg req k ((b + k) % cfg.sqEntries) := by
  induction k generalizing fuel with
  | zero =>
    cases fuel with
    | zero => rfl
    | succ fuel => simp [findStore, hwb]
  | succ k ih =>
    cases fuel with
    | zero => omega
    | succ fuel =>
      have hprev : decrStIdx cfg ((b + (k + 1)) % cfg.sqEntries) = (b + k) % cfg.sqEntries :=
        prevSlot_mod cfg.sq_pos (b + k)
      simp only [findStore, hprev, ih (le_of_succ_le_succ hk)]

/-- `sqEntries` steps reach the write-back index: the search never ends for want of fuel. -/
theorem searchStores_eq {inst : DynInst} {i fuel : ℕ} (hload : inst.sqIdx = some i)
    (hi : i < cfg.sqEntries) (hwb : U.storeWBIdx < cfg.sqEntries) (hfuel : cfg.sqEntries ≤ fuel) :
    U.searchStores cfg req inst = U.findStore cfg req fuel i := by
  let k := (i + (cfg.sqEntries - U.storeWBIdx)) % cfg.sqEntries
  have hk : k < cfg.sqEntries := mod_lt _ cfg.sq_pos
  have hslot : (U.storeWBIdx + k) % cfg.sqEntries = i := by
    have hround : U.storeWBIdx + (i + (cfg.sqEntries - U.storeWBIdx)) = i + cfg.sqEntries := by
      omega
    rw [add_mod_mod, hround, add_mod_right, mod_eq_of_lt hi]
  have henough : ∀ fuel, k ≤ fuel → U.findStore cfg req fuel i = U.findStore cfg req k i := by
    intro fuel hle
    rw [← hslot]
    exact findStore_of_le cfg U (mod_eq_of_lt hwb).symm hle
  simp only [searchStores, hload]
  rw [henough cfg.sqEntries (le_of_lt hk), henough fuel (by omega)]

/-! ## Loads and older stores -/

def Found.store (U : LSQUnit) : Found → Option SQEntry
  | .nothing => none
  | .covering i | .partly i => some (U.storeQueue i)

/-- The entries that the search may visit, the youngest first. -/
def older (U : LSQUnit) : ℕ → ℕ → List SQEntry
  | 0, _ => []
  | fuel + 1, i =>
    if i = U.storeWBIdx then []
      else U.storeQueue (decrStIdx cfg i) :: U.older fuel (decrStIdx cfg i)

/-- A store without data yet, a strictly ordered one, or one that ends before the load or starts
behind it. -/
def Passes (req : Request) (e : SQEntry) : Prop :=
  ∀ st ∈ e.inst, e.size = 0 ∨ st.strictlyOrdered ∨ addr (st.effAddr + e.size) ≤ req.vaddr ∨
    addr (req.vaddr + req.size) ≤ st.effAddr

/-- The load may pass all stores younger than the one found, and all visited ones if nothing is
found. -/
theorem findStore_youngest (req : Request) (U : LSQUnit) (fuel i : ℕ) :
    ∃ passed rest, U.older cfg fuel i = passed ++ rest ∧ (∀ e ∈ passed, Passes req e) ∧
      ∀ found ∈ U.findStore cfg req fuel i, rest.head? = found.store U := by
  induction fuel generalizing i with
  | zero => exact ⟨[], [], rfl, by simp, by simp [findStore, Found.store]⟩
  | succ fuel ih =>
    rw [findStore, older]
    split_ifs
    · exact ⟨[], [], rfl, by simp, by simp [Found.store]⟩
    obtain ⟨passed, rest, hl, hpassed, hfound⟩ := ih (decrStIdx cfg i)
    generalize decrStIdx cfg i = i at hl hfound
    rw [hl]
    dsimp only
    split
    · exact ⟨[], _, rfl, by simp, by simp⟩
    case h_2 st hst =>
      have hpass (he : Passes req (U.storeQueue i)) := List.forall_mem_cons.2 ⟨he, hpassed⟩
      split_ifs with hskip hvalid hcovers hpart hdone
      · refine ⟨_ :: passed, rest, rfl, hpass ?_, hfound⟩
        grind [Passes]
      · exact ⟨[], _, rfl, by simp, by simp⟩
      · exact ⟨[], _, rfl, by simp, by simp [Found.store]⟩
      · exact ⟨[], _, rfl, by simp, by simp⟩
      · exact ⟨[], _, rfl, by simp, by simp [Found.store]⟩
      · refine ⟨_ :: passed, rest, rfl, hpass ?_, hfound⟩
        grind [Passes, hasPart, lowerHasPart, upperHasPart]

end LSQUnit

end EnocGem5.O3.LSQ
