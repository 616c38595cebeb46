import EnocGem5.Lib.Overlay

/-!
# LSQ — the load/store queue of the in-order CPU

`cpu/minor/lsq.cc` for the cacheable loads and stores of one thread: no faults, barriers, locked or
strictly ordered accesses, and no instruction of a wrong stream. Requests wait for their translation
in `requests`, then pass through `transfers`, where the pipeline picks them up in order; it moves
stores on to the store buffer, from which they go to memory. Loads go to memory from the front of
`requests`, unless the store buffer has their data.

A request that crosses a line is split into fragments, and each fragment has a packet and a
translation of its own. A request that does not cross a line has one fragment here.
`SingleDataRequest` and `SplitDataRequest` do the same in that case. The page table is fixed, so the
physical addresses are there from the start; they are used after translation only. Virtual addresses
and sizes are numbers that do not wrap.

Memory performs a packet when it accepts it. A read packet carries the data from then on.
-/

namespace EnocGem5.Minor

open Lib

abbrev Byte := BitVec 8

/-! ## Requests -/

inductive AddrRangeCoverage
  | PartialAddrRangeCoverage
  | FullAddrRangeCoverage
  | NoAddrRangeCoverage
deriving DecidableEq, Repr

inductive LSQRequestState
  | InTranslation
  | Translated
  | RequestIssuing
  | StoreToStoreBuffer
  | RequestNeedsRetry
  | StoreInStoreBuffer
  | StoreBufferIssuing
  | StoreBufferNeedsRetry
  | Complete
deriving DecidableEq, Repr

structure Fragment where
  vaddr : ℕ
  size : ℕ
  paddr : ℕ
deriving DecidableEq, Repr

/-- `data` is what a store writes, or what a load has got so far, by the offset from `vaddr`. -/
structure LSQRequest where
  seqNum : ℕ
  isLoad : Bool
  vaddr : ℕ
  size : ℕ
  data : ℕ → Byte
  fragments : List Fragment
  state : LSQRequestState := .InTranslation
  numIssuedFragments : ℕ := 0
  numRetiredFragments : ℕ := 0

/-- The parameters of the queue, and the page table. -/
structure Config where
  lineBits : ℕ
  pageBits : ℕ
  physicalPage : ℕ → ℕ
  inMemorySystemLimit : ℕ
  transfersSize : ℕ
  numSlots : ℕ
  storeLimitPerCycle : ℕ

namespace Config

def lineWidth (cfg : Config) : ℕ := 2 ^ cfg.lineBits

def translate (cfg : Config) (vaddr : ℕ) : ℕ :=
  cfg.physicalPage (vaddr / 2 ^ cfg.pageBits) * 2 ^ cfg.pageBits + vaddr % 2 ^ cfg.pageBits

end Config

def addrBlockOffset (addr blockSize : ℕ) : ℕ := addr &&& (blockSize - 1)

def transferNeedsBurst (addr size blockSize : ℕ) : Bool :=
  addrBlockOffset addr blockSize + size > blockSize

/-- The loop of `makeFragmentRequests`. -/
def fragmentsFrom (lineWidth baseAddr endAddr firstSize : ℕ) : ℕ → ℕ → List (ℕ × ℕ)
  | 0, _ => []
  | n + 1, fragmentAddr =>
    let fragmentSize :=
      if fragmentAddr = baseAddr then firstSize
      else if fragmentAddr + lineWidth > endAddr then endAddr - fragmentAddr
      else lineWidth
    (fragmentAddr, fragmentSize) ::
      fragmentsFrom lineWidth baseAddr endAddr firstSize n (fragmentAddr + fragmentSize)

/-- `makeFragmentRequests`: the addresses and sizes. -/
def makeFragmentRequests (lineWidth baseAddr wholeSize : ℕ) : List (ℕ × ℕ) :=
  let lastSize := addrBlockOffset (baseAddr + wholeSize) lineWidth
  let firstSize := lineWidth - addrBlockOffset baseAddr lineWidth
  let middleCount := (wholeSize - (firstSize + lastSize)) / lineWidth
  let numFragments := 1 + middleCount + (if lastSize = 0 then 0 else 1)
  fragmentsFrom lineWidth baseAddr (baseAddr + wholeSize) firstSize numFragments baseAddr

namespace Config

def fragments (cfg : Config) (vaddr size : ℕ) : List Fragment :=
  (if transferNeedsBurst vaddr size cfg.lineWidth then makeFragmentRequests cfg.lineWidth vaddr size
    else [(vaddr, size)]).map fun part => ⟨part.1, part.2, cfg.translate part.1⟩

/-- The request that `pushRequest` makes. -/
def request (cfg : Config) (seqNum : ℕ) (isLoad : Bool) (vaddr size : ℕ) (data : ℕ → Byte) :
    LSQRequest :=
  { seqNum, isLoad, vaddr, size, data, fragments := cfg.fragments vaddr size }

end Config

/-- The 64-bit ends of two ranges decide. -/
def containsAddrRangeOf (addr₁ size₁ addr₂ size₂ : ℕ) : AddrRangeCoverage :=
  let end₁ := (addr₁ + size₁) % 2 ^ 64
  let end₂ := (addr₂ + size₂) % 2 ^ 64
  if addr₁ > end₂ ∨ end₁ < addr₂ then .NoAddrRangeCoverage
  else if addr₁ ≤ addr₂ ∧ end₁ ≥ end₂ then .FullAddrRangeCoverage
  else .PartialAddrRangeCoverage

namespace LSQRequest

variable (r : LSQRequest)

/-- The physical address of the first fragment is that of the whole request. -/
def paddr : ℕ := (r.fragments.head?.map Fragment.paddr).getD 0

def containsAddrRangeOf (r other : LSQRequest) : AddrRangeCoverage :=
  Minor.containsAddrRangeOf r.paddr r.size other.paddr other.size

def sentAllPackets : Bool := r.numIssuedFragments == r.fragments.length

/-- `stepToNextPacket`, with the state that follows. -/
def stepToNextPacket (state : LSQRequestState) : LSQRequest :=
  { r with numIssuedFragments := r.numIssuedFragments + 1, state }

/-- What the packet of a fragment writes. -/
def piece (f : Fragment) : ℕ → Option Byte := fun a =>
  if f.paddr ≤ a ∧ a < f.paddr + f.size then some (r.data (f.vaddr - r.vaddr + (a - f.paddr)))
    else none

/-- `retireResponse`, for the packet of the fragment `f`. -/
def retireResponse (f : Fragment) (response : ℕ → Byte) : LSQRequest :=
  let offset := f.vaddr - r.vaddr
  { r with
    numRetiredFragments := r.numRetiredFragments + 1
    data := fun k =>
      if r.isLoad ∧ offset ≤ k ∧ k < offset + f.size then response (k - offset) else r.data k
    state := if r.numRetiredFragments + 1 = r.fragments.length then .Complete else r.state }

end LSQRequest

/-! ## The memory port -/

/-- A packet that memory has performed, with the data that was read. -/
structure InFlight where
  seqNum : ℕ
  index : ℕ
  data : ℕ → Byte

structure Port where
  memoryNeedsRetry : Bool
  retryRequest : Option ℕ
  numAccessesInMemorySystem : ℕ
  mem : ℕ → Byte
  inFlight : List InFlight

namespace Port

variable (P : Port)

def canSendToMemorySystem (cfg : Config) : Bool :=
  !P.memoryNeedsRetry && P.numAccessesInMemorySystem < cfg.inMemorySystemLimit

/-- `sendTimingReq` of the fragment `f`, if it is accepted. -/
def performed (r : LSQRequest) (f : Fragment) : Port :=
  { P with
    memoryNeedsRetry := false
    numAccessesInMemorySystem := P.numAccessesInMemorySystem + 1
    mem := if r.isLoad then P.mem else overlay P.mem (r.piece f)
    inFlight := P.inFlight ++ [⟨r.seqNum, r.numIssuedFragments, fun k => P.mem (f.paddr + k)⟩] }

def running : Port := { P with memoryNeedsRetry := false }

/-- The response to the packet in the position `k` of those in flight. -/
def answered (k : ℕ) : Port :=
  { P with
    numAccessesInMemorySystem := P.numAccessesInMemorySystem - 1
    inFlight := P.inFlight.eraseIdx k }

end Port

/-- The states of a request whose packet was sent, and was refused. -/
def LSQRequestState.sent : LSQRequestState → Option LSQRequestState
  | .Translated | .RequestIssuing => some .RequestIssuing
  | .StoreInStoreBuffer | .StoreBufferIssuing => some .StoreBufferIssuing
  | _ => none

def LSQRequestState.refused : LSQRequestState → Option LSQRequestState
  | .Translated | .RequestIssuing => some .RequestNeedsRetry
  | .StoreInStoreBuffer | .StoreBufferIssuing => some .StoreBufferNeedsRetry
  | _ => none

/-- `tryToSend`, for a port that accepts the packet or not. The result says that all packets are
sent. -/
def tryToSend (cfg : Config) (accept : Bool) (P : Port) (r : LSQRequest) :
    Option (Port × LSQRequest × Bool) :=
  if P.canSendToMemorySystem cfg then do
    let f ← r.fragments[r.numIssuedFragments]?
    if accept then
      let state ← r.state.sent
      let r' := r.stepToNextPacket state
      pure (P.performed r f, r', r'.sentAllPackets)
    else
      let state ← r.state.refused
      pure ({ P with memoryNeedsRetry := true, retryRequest := some r.seqNum }, { r with state },
        false)
  else pure (P, r, false)

/-! ## The queues -/

structure LSQ where
  requests : List LSQRequest
  transfers : List LSQRequest
  slots : List LSQRequest
  port : Port
  numStoresInTransfers : ℕ
  numUnissuedAccesses : ℕ

/-- `canForwardDataToLoad`: the first slot with coverage, from the most recent one on. -/
def canForwardDataToLoad (load : LSQRequest) :
    List LSQRequest → AddrRangeCoverage × Option LSQRequest
  | [] => (.NoAddrRangeCoverage, none)
  | slot :: older =>
    match slot.containsAddrRangeOf load with
    | .NoAddrRangeCoverage => canForwardDataToLoad load older
    | coverage => (coverage, some slot)

/-- `forwardStoreData`. The load is complete then. -/
def forwardStoreData (load store : LSQRequest) : LSQRequest :=
  { load with data := fun k => store.data (load.paddr - store.paddr + k), state := .Complete }

/-- A request is changed in the queue that holds it. -/
def updateIn (r : LSQRequest) : List LSQRequest → List LSQRequest :=
  List.map fun s => if s.seqNum = r.seqNum then r else s

namespace LSQ

/-- The queue at the start, over a memory. -/
def start (mem : ℕ → Byte) : LSQ where
  requests := []
  transfers := []
  slots := []
  port :=
    { memoryNeedsRetry := false, retryRequest := none, numAccessesInMemorySystem := 0,
      mem := mem, inFlight := [] }
  numStoresInTransfers := 0
  numUnissuedAccesses := 0

variable (L : LSQ)

def pushRequest (r : LSQRequest) : LSQ := { L with requests := L.requests ++ [r] }

def moveFromRequestsToTransfers (r : LSQRequest) : LSQ :=
  { L with
    requests := L.requests.tail
    transfers := L.transfers ++ [r]
    numStoresInTransfers := if r.isLoad then L.numStoresInTransfers
      else L.numStoresInTransfers + 1 }

/-- The access of a load at the front of `requests`. -/
def sendLoad (cfg : Config) (accept : Bool) (L : LSQ) (r : LSQRequest)
    (rest : List LSQRequest) : Option LSQ := do
  let (P, r', sent) ← tryToSend cfg accept L.port r
  let L := { L with port := P, requests := r' :: rest }
  pure (if sent then L.moveFromRequestsToTransfers r' else L)

/-- `tryToSendToTransfers`, for a request that is translated and at the front of `requests`. -/
def sendFront (cfg : Config) (accept : Bool) (L : LSQ) (r : LSQRequest) (rest : List LSQRequest) :
    Option LSQ :=
  if r.isLoad then
    if L.numStoresInTransfers ≠ 0 then some L
    else
      match canForwardDataToLoad r L.slots.reverse with
      | (.FullAddrRangeCoverage, some store) =>
        some (L.moveFromRequestsToTransfers (forwardStoreData r store))
      | (.NoAddrRangeCoverage, _) =>
        if L.port.canSendToMemorySystem cfg then L.sendLoad cfg accept r rest else some L
      | _ => some L
  else some (L.moveFromRequestsToTransfers { r with state := .StoreToStoreBuffer })

/-- `tryToSendToTransfers`. Only the request at the front of `requests` gets past the first
checks. -/
def tryToSendToTransfers (cfg : Config) (accept : Bool) (L : LSQ) (seqNum : ℕ) : Option LSQ :=
  if L.port.memoryNeedsRetry then some L
  else
    match L.requests with
    | [] => some L
    | r :: rest =>
      if r.seqNum ≠ seqNum then some L
      else
        match r.state with
        | .InTranslation => some L
        | .Translated | .RequestIssuing =>
          if L.transfers.length < cfg.transfersSize then L.sendFront cfg accept r rest else some L
        | .Complete =>
          if L.transfers.length < cfg.transfersSize then some (L.moveFromRequestsToTransfers r)
            else some L
        | _ => none

/-- The loop of the store buffer's `step`: the slots, the port, and how many stores were issued. -/
def issueStores (cfg : Config) : List Bool → ℕ → Port → List LSQRequest →
    Option (List LSQRequest × Port × ℕ)
  | _, _, P, [] => some ([], P, 0)
  | accepts, issueCount, P, r :: rest =>
    if issueCount < cfg.storeLimitPerCycle ∧ P.canSendToMemorySystem cfg = true then
      if r.state = .StoreBufferIssuing ∧ r.sentAllPackets = true then do
        let (rest, P, issued) ← issueStores cfg accepts issueCount P rest
        pure (r :: rest, P, issued)
      else do
        let (P, r, sent) ← tryToSend cfg (accepts.headD true) P r
        if sent then
          let (rest, P, issued) ← issueStores cfg accepts.tail (issueCount + 1) P rest
          pure (r :: rest, P, issued + 1)
        else pure (r :: rest, P, 0)
    else some (r :: rest, P, 0)

def stepStoreBuffer (cfg : Config) (accepts : List Bool) (L : LSQ) : Option LSQ :=
  if L.numUnissuedAccesses ≠ 0 ∧ L.port.memoryNeedsRetry = false then do
    let (slots, port, issued) ← issueStores cfg accepts 0 L.port L.slots
    pure { L with slots, port, numUnissuedAccesses := L.numUnissuedAccesses - issued }
  else some L

/-- `step`. The first packet may be that of a load. -/
def step (cfg : Config) (accepts : List Bool) (L : LSQ) : Option LSQ :=
  match L.requests with
  | [] => L.stepStoreBuffer cfg accepts.tail
  | r :: _ => (L.tryToSendToTransfers cfg (accepts.headD true) r.seqNum).bind
    (stepStoreBuffer cfg accepts.tail)

/-- `finish` of the translation, of the last fragment. -/
def finish (cfg : Config) (accept : Bool) (L : LSQ) (seqNum : ℕ) : Option LSQ := do
  let r ← L.requests.find? (·.seqNum = seqNum)
  if r.state = .InTranslation then
    tryToSendToTransfers cfg accept
      { L with requests := updateIn { r with state := .Translated } L.requests } seqNum
  else none

/-- What the pipeline does with the front of `transfers`: a store is sent to the store buffer, if
there is a free slot, a load that is complete is returned. -/
def commit (cfg : Config) (L : LSQ) : LSQ × Option LSQRequest :=
  match L.transfers with
  | [] => (L, none)
  | r :: rest =>
    let popped := { L with
      transfers := rest
      numStoresInTransfers := if r.isLoad then L.numStoresInTransfers
        else L.numStoresInTransfers - 1 }
    match r.state with
    | .StoreToStoreBuffer =>
      if L.slots.length < cfg.numSlots then
        ({ popped with
          slots := L.slots ++ [{ r with state := .StoreInStoreBuffer }]
          numUnissuedAccesses := L.numUnissuedAccesses + 1 }, none)
      else (L, none)
    | .Complete => (popped, some r)
    | _ => (L, none)

/-- The retry of a store in the store buffer. -/
def retryStore (cfg : Config) (accept : Bool) (L : LSQ) (r : LSQRequest) : Option LSQ :=
  if r.state = .StoreBufferNeedsRetry then do
    let (port, r', sent) ← tryToSend cfg accept L.port { r with state := .StoreInStoreBuffer }
    pure { L with
      port
      slots := updateIn r' L.slots
      numUnissuedAccesses := if sent then L.numUnissuedAccesses - 1 else L.numUnissuedAccesses }
  else none

/-- The retry of a request. A load that waits for it is at the front of `requests`. -/
def retry (cfg : Config) (accept : Bool) (L : LSQ) (seqNum : ℕ) : Option LSQ :=
  match L.requests with
  | [] => (L.slots.find? (·.seqNum = seqNum)).bind (L.retryStore cfg accept)
  | r :: rest =>
    if r.seqNum = seqNum then
      if r.state = .RequestNeedsRetry
        then L.sendLoad cfg accept { r with state := .Translated } rest else none
    else (L.slots.find? (·.seqNum = seqNum)).bind (L.retryStore cfg accept)

def recvReqRetry (cfg : Config) (accept : Bool) (L : LSQ) : Option LSQ :=
  if L.port.memoryNeedsRetry then
    L.port.retryRequest.bind (retry cfg accept { L with port := L.port.running })
  else none

def all : List LSQRequest := L.slots ++ (L.transfers ++ L.requests)

/-- What the response to a packet of `r` changes, `r'` being `r` after it. -/
def retired (r r' : LSQRequest) : Option LSQ :=
  match r.state with
  | .RequestIssuing | .RequestNeedsRetry =>
    some { L with requests := updateIn r' L.requests, transfers := updateIn r' L.transfers }
  | .StoreBufferIssuing | .StoreBufferNeedsRetry =>
    some { L with slots :=
      if r'.state = .Complete then L.slots.filter (·.seqNum ≠ r.seqNum) else updateIn r' L.slots }
  | _ => none

def recvTimingResp (k : ℕ) : Option LSQ := do
  let p ← L.port.inFlight[k]?
  let r ← L.all.find? (·.seqNum = p.seqNum)
  let f ← r.fragments[p.index]?
  retired { L with port := L.port.answered k } r (r.retireResponse f p.data)

end LSQ

end EnocGem5.Minor
