import EnocGem5.Noc.Flit
import EnocGem5.Noc.Allocator

/-!
# Router — `ENoCRouter` as steps on the network state

One call of `ENoCRouter::clk` queues the arrived flits, allocates output VCs to waiting heads and
moves flits through the switch. Every loop of the source is a fold of one step function here:
`queueFlit`, `requestVC`, `grantVC`, `requestSwitch`, `switchFlit`.

The state is that of all routers, because a router reads and writes the VC states of its neighbours.
Each member of `ENoCRouter` is one field of `NetworkNoC`, indexed by the router (and its port). A
step is `none` where the source dereferences `NULL`, indexes with `-1` or fails an assertion.
-/

namespace EnocGem5.Noc

open Function

/-! ## State -/

inductive Diagnostic
  | flitBufferOverflow (vc occup : ℕ) (state : VCState)
  | headFlit (globalClk : ℤ) (src dst : ℤ) (router : ℕ)
  deriving DecidableEq, Repr

/-- An entry of `_vc_alloc_vcs`: the output VC found for it in this cycle (`none` for `-1`) and the
input VC that waits. -/
structure VCRequest where
  outVc : Option ℕ := none
  input : ℕ
  vc : ℕ
  deriving DecidableEq, Repr

/-- The members of all routers and all channels. -/
structure NetworkNoC where
  channel : ChanId → Channel := fun _ => {}
  buf : ℕ × ℕ → Buffer := fun _ => {}
  inQueueFlits : ℕ × ℕ → Option Flit := fun _ => none
  outputBuffer : ℕ × ℕ → List Flit := fun _ => []
  vcAllocator : ℕ → ISLIPSparse :=
    fun _ => { inputs := numVcs * numPorts, outputs := numVcs * numPorts }
  swAllocator : ℕ → ISLIPSparse := fun _ => { inputs := numPorts, outputs := numPorts }
  vcAllocVcs : ℕ → List VCRequest := fun _ => []
  vcAllocVcsTmp : ℕ → List VCRequest := fun _ => []
  swAllocVcs : ℕ → List (ℕ × ℕ) := fun _ => []
  swAllocVcsTmp : ℕ → List (ℕ × ℕ) := fun _ => []
  /-- The flits passed to `stats.receivedFlit`, in order. -/
  received : ℕ → List Flit := fun _ => []
  cout : List Diagnostic := []

namespace NetworkNoC

/-! ## Accesses to one virtual channel -/

variable (N : NetworkNoC)

def frontFlit (r input v : ℕ) : Option Flit := (N.buf (r, input)).frontFlit v

def getState (r input v : ℕ) : VCState := (N.buf (r, input)).getState v

def getOccupancy (r input v : ℕ) : ℕ := (N.buf (r, input)).getOccupancy v

@[simps]
def setState (r input v : ℕ) (s : VCState) : NetworkNoC :=
  { N with buf := update N.buf (r, input) ((N.buf (r, input)).setState v s) }

@[simps]
def setOutput (r input v port vc : ℕ) : NetworkNoC :=
  { N with buf := update N.buf (r, input) ((N.buf (r, input)).setOutput v port vc) }

@[simps]
def removeFlit (r input v : ℕ) : NetworkNoC :=
  { N with buf := update N.buf (r, input) ((N.buf (r, input)).removeFlit v) }

/-- `Buffer::AddFlit`, with the message it prints when the buffer is full already. -/
@[simps]
def addFlit (r input v : ℕ) (f : Flit) : NetworkNoC :=
  let b := N.buf (r, input)
  { N with
    cout := N.cout ++
      if b.full v then [.flitBufferOverflow v (b.occupancy v) (b.getState v)] else []
    buf := update N.buf (r, input) (b.addFlit v f) }

@[simps]
def pushOutput (r port : ℕ) (f : Flit) : NetworkNoC :=
  { N with outputBuffer := update N.outputBuffer (r, port) (N.outputBuffer (r, port) ++ [f]) }

@[simps]
def receivedFlit (r : ℕ) (f : Flit) : NetworkNoC :=
  { N with received := update N.received r (N.received r ++ [f]) }

@[simps]
def setVcAllocVcs (r : ℕ) (l : List VCRequest) : NetworkNoC :=
  { N with vcAllocVcs := update N.vcAllocVcs r l }

@[simps]
def pushVcAllocVcsTmp (r : ℕ) (e : VCRequest) : NetworkNoC :=
  { N with vcAllocVcsTmp := update N.vcAllocVcsTmp r (N.vcAllocVcsTmp r ++ [e]) }

@[simps]
def setSwAllocVcs (r : ℕ) (l : List (ℕ × ℕ)) : NetworkNoC :=
  { N with swAllocVcs := update N.swAllocVcs r l }

@[simps]
def pushSwAllocVcsTmp (r : ℕ) (e : ℕ × ℕ) : NetworkNoC :=
  { N with swAllocVcsTmp := update N.swAllocVcsTmp r (N.swAllocVcsTmp r ++ [e]) }

@[simps]
def setVcAllocator (r : ℕ) (a : ISLIPSparse) : NetworkNoC :=
  { N with vcAllocator := update N.vcAllocator r a }

@[simps]
def setSwAllocator (r : ℕ) (a : ISLIPSparse) : NetworkNoC :=
  { N with swAllocator := update N.swAllocator r a }

/-! ## Input queuing -/

/-- The message of `_InputQueuing` about a head that joins other flits in a reserved VC. -/
@[simps]
def reportHead (r input v : ℕ) (globalClk : ℤ) (f : Flit) : NetworkNoC :=
  { N with
    cout := N.cout ++
      if f.flitType = .head ∧ N.getState r input v = .routing ∧ 1 < N.getOccupancy r input v then
        [.headFlit globalClk f.srcId f.dstId r]
      else [] }

/-- A head in VC `v` enters VC allocation. -/
def startVCAlloc (r input v : ℕ) : NetworkNoC :=
  (N.setVcAllocVcs r (N.vcAllocVcs r ++ [{ input := input, vc := v }])).setState r input v .vcAlloc

/-- The flit is buffered and asks for the switch. -/
def bufferFlit (r input v : ℕ) (globalClk : ℤ) (f : Flit) : NetworkNoC :=
  let N := (N.addFlit r input v f).reportHead r input v globalClk f
  let N := if f.flitType = .head then N.startVCAlloc r input v else N
  N.setSwAllocVcs r (N.swAllocVcs r ++ [(input, v)])

/-- The flit has arrived: it is counted and sent towards the eject channel. -/
def ejectFlit (r : ℕ) (f : Flit) : NetworkNoC :=
  (N.pushOutput r 4 f).receivedFlit r f

/-- The body of the loop of `_InputQueuing`. -/
def queueFlit (k r : ℕ) (globalClk : ℤ) (N : NetworkNoC) (input : ℕ) : Option NetworkNoC :=
  match N.inQueueFlits (r, input) with
  | none => some N
  | some f =>
    if f.vc < numVcs then
      if (f.route k r).outputPort = 4 then some (N.ejectFlit r (f.route k r))
      else some (N.bufferFlit r input f.vc globalClk (f.route k r))
    else none

/-- `_InputQueuing`: the arrived flits in the order of their inputs; then the map is cleared. -/
def inputQueuing (k r : ℕ) (globalClk : ℤ) (N : NetworkNoC) : Option NetworkNoC :=
  ((List.range numPorts).foldlM (queueFlit k r globalClk) N).map fun N =>
    { N with inQueueFlits := fun x => if x.1 = r then none else N.inQueueFlits x }

/-! ## VC allocation -/

/-- `FindIdleVC`: the first idle VC of the sink's input port. It is reserved unless the sink is the
flit's destination, where the flit will not be buffered. -/
def findIdleVC (k r out_port : ℕ) (dst : ℤ) (N : NetworkNoC) : Option (NetworkNoC × Option ℕ) :=
  if out_port < 4 then
    let sink := neighbour k r out_port
    let in_port := inPort out_port
    match (List.range numVcs).find? fun v => N.getState sink in_port v = .idle with
    | some v =>
      if (sink : ℤ) ≠ dst then some (N.setState sink in_port v .routing, some v)
      else some (N, some v)
    | none => some (N, none)
  else none

def setIdleVC (k r out_port v : ℕ) (N : NetworkNoC) : NetworkNoC :=
  N.setState (neighbour k r out_port) (inPort out_port) v .idle

/-- An entry that was granted nothing gives its output VC back. -/
def giveBack (k r out_port : ℕ) (outVc : Option ℕ) (N : NetworkNoC) : NetworkNoC :=
  match outVc with
  | some v => setIdleVC k r out_port v N
  | none => N

/-- The body of the first loop of `_VCAllocEvaluate`, for the entry at position `pos`. -/
def requestVC (k r : ℕ) (N : NetworkNoC) (pos : ℕ) : Option NetworkNoC := do
  let item ← (N.vcAllocVcs r)[pos]?
  let f ← N.frontFlit r item.input item.vc
  let out_port := f.outputPort
  let (N, out_vc) ← findIdleVC k r out_port f.dstId N
  let N := N.setVcAllocVcs r ((N.vcAllocVcs r).set pos { item with outVc := out_vc })
  match out_vc with
  | none => some N
  | some out_vc =>
    some (N.setVcAllocator r ((N.vcAllocator r).addRequest
      (item.input * numVcs + item.vc) (out_port * numVcs + out_vc)))

/-- The body of the second loop of `_VCAllocEvaluate`. An entry whose VC left the state
`vc_alloc` is dropped. -/
def grantVC (k r : ℕ) (N : NetworkNoC) : Option NetworkNoC :=
  match N.vcAllocVcs r with
  | [] => some N
  | item :: rest => do
    let N := N.setVcAllocVcs r rest
    let f ← N.frontFlit r item.input item.vc
    let out_port := f.outputPort
    if N.getState r item.input item.vc = .vcAlloc then
      match (N.vcAllocator r).outputAssigned (item.input * numVcs + item.vc) with
      | some output_and_vc =>
        let match_output := output_and_vc / numVcs
        let match_vc := output_and_vc % numVcs
        let N := N.setState r item.input item.vc .active
        let N := N.setOutput r item.input item.vc match_output match_vc
        if match_output = out_port then some N else none
      | none =>
        let N := giveBack k r out_port item.outVc N
        let N := N.pushVcAllocVcsTmp r { input := item.input, vc := item.vc }
        some (N.setState r item.input item.vc .vcAlloc)
    else some N

/-- The first loop of `_VCAllocEvaluate` and the allocation. -/
def vcRequests (k r : ℕ) (N : NetworkNoC) : Option NetworkNoC := do
  let N ← (List.range (N.vcAllocVcs r).length).foldlM (requestVC k r) N
  some (N.setVcAllocator r (N.vcAllocator r).allocate)

/-- The entries that still wait become the queue of the next cycle. -/
def requeueVC (r : ℕ) (N : NetworkNoC) : NetworkNoC :=
  { N with
    vcAllocVcs := update N.vcAllocVcs r (N.vcAllocVcsTmp r ++ N.vcAllocVcs r)
    vcAllocVcsTmp := update N.vcAllocVcsTmp r [] }

def vcAllocEvaluate (k r : ℕ) (N : NetworkNoC) : Option NetworkNoC := do
  let N ← vcRequests k r N
  let N ← (List.range (N.vcAllocVcs r).length).foldlM (fun N _ => grantVC k r N) N
  some (requeueVC r N)

/-! ## Switch allocation -/

/-- `FindFreeSpace`; `none` at the port whose channel has no sink. -/
def findFreeSpace (k r out_port v : ℕ) (N : NetworkNoC) : Option Bool :=
  if out_port < 4 then
    some (N.getOccupancy (neighbour k r out_port) (inPort out_port) v < vcsSize)
  else none

/-- The body of the first loop of `_SWAllocEvaluate`. -/
def requestSwitch (r : ℕ) (N : NetworkNoC) (pos : ℕ) : Option NetworkNoC := do
  let (input, vc) ← (N.swAllocVcs r)[pos]?
  if N.getState r input vc = .active then
    let dest_output ← (N.buf (r, input)).getOutputPort vc
    -- the flit's energy is updated here, so an empty VC is a NULL dereference
    let _ ← N.frontFlit r input vc
    some (N.setSwAllocator r ((N.swAllocator r).addRequest input dest_output))
  else some N

/-- The flit leaves its VC for the output queue with the VC it was allocated; a tail frees the
VC. -/
def moveFlit (r input v dest_vc out_vc : ℕ) (f : Flit) : NetworkNoC :=
  let N := N.removeFlit r input v
  let N := if f.flitType = .tail then
      (N.setState r input v .idle).setVcAllocator r ((N.vcAllocator r).removeRequest
        (input * numVcs + v) (f.outputPort * numVcs + dest_vc))
    else N
  N.pushOutput r f.outputPort { f with vc := out_vc }

/-- The body of the second loop of `_SWAllocEvaluate`. A flit moves when its input was granted any
output and the sink's VC has space; an entry whose VC is not active is dropped. -/
def switchFlit (k r : ℕ) (N : NetworkNoC) : Option NetworkNoC :=
  match N.swAllocVcs r with
  | [] => some N
  | (input, vc) :: rest => do
    let N := N.setSwAllocVcs r rest
    if N.getState r input vc = .active then
      let f ← N.frontFlit r input vc
      let out_port := f.outputPort
      let dest_vc ← (N.buf (r, input)).getOutputVC vc
      let output_and_vc := (N.swAllocator r).outputAssigned input
      let freespace ← findFreeSpace k r out_port dest_vc N
      if output_and_vc.isSome ∧ freespace = true then
        let out_vc ← (N.buf (r, input)).getOutputVC f.vc
        some (N.moveFlit r input vc dest_vc out_vc f)
      else
        some ((N.pushSwAllocVcsTmp r (input, vc)).setState r input vc .active)
    else some N

/-- The first loop of `_SWAllocEvaluate` and the allocation. -/
def swRequests (r : ℕ) (N : NetworkNoC) : Option NetworkNoC := do
  let N ← (List.range (N.swAllocVcs r).length).foldlM (requestSwitch r) N
  some (N.setSwAllocator r (N.swAllocator r).allocate)

/-- The entries that still wait become the queue of the next cycle. -/
def requeueSwitch (r : ℕ) (N : NetworkNoC) : NetworkNoC :=
  { N with
    swAllocVcs := update N.swAllocVcs r (N.swAllocVcsTmp r ++ N.swAllocVcs r)
    swAllocVcsTmp := update N.swAllocVcsTmp r [] }

def swAllocEvaluate (k r : ℕ) (N : NetworkNoC) : Option NetworkNoC := do
  let N ← swRequests r N
  let N ← (List.range (N.swAllocVcs r).length).foldlM (fun N _ => switchFlit k r N) N
  some (requeueSwitch r N)

/-- `ENoCRouter::clk` of router `r`. -/
def routerClk (k : ℕ) (globalClk : ℤ) (N : NetworkNoC) (r : ℕ) : Option NetworkNoC := do
  let N ← inputQueuing k r globalClk N
  let N ← vcAllocEvaluate k r (N.setVcAllocator r (N.vcAllocator r).clear)
  swAllocEvaluate k r (N.setSwAllocator r (N.swAllocator r).clear)

end NetworkNoC

end EnocGem5.Noc
