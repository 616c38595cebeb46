import EnocGem5.Noc.Network

/-!
# TrafficManager — injecting packets into the network

`TrafficManager::clk` runs the network for a cycle and then, for every node and each of the three
packet types, takes a due packet from the node's table and sends one flit of the packet at the front
of the node's queue. `load_traffic` and the cache model put packets into the tables.

A packet gets its identity when it is read from the table, a flit when `nextFlit` makes it.
-/

namespace EnocGem5.Noc

abbrev meshDimX : ℕ := 8

/-- `NUMBER_OF_NODES`, the square of the mesh dimension. -/
abbrev numNodes : ℕ := 64

abbrev numTypes : ℕ := 3

/-- The network side of `TrafficManager`. Tables and queues are indexed by node and packet type;
`in_use_vc` holds 0 at first and `-1` (`none`) after a tail. -/
structure TrafficManager where
  net : NetworkNoC := {}
  packetTable : ℕ × ℕ → List PacketNoC := fun _ => []
  packetQueue : ℕ × ℕ → List PacketNoC := fun _ => []
  inUseVc : ℕ × ℕ → Option ℕ := fun _ => some 0
  /-- The `static int seq` of `nextFlit`. -/
  seq : ℕ := 0
  flitCount : ℕ := 0
  packetCount : ℕ := 0

namespace TrafficManager

variable (T : TrafficManager)

/-- `load_traffic`; outside of the table the source writes out of bounds. -/
def loadTraffic (pk : PacketNoC) (src type : ℕ) : Option TrafficManager :=
  if src < numNodes ∧ type < numTypes then
    some { T with packetTable :=
      Function.update T.packetTable (src, type) (T.packetTable (src, type) ++ [pk]) }
  else none

/-- `ReadPacket` followed by the push to `packet_queue` in `clk`: a due packet of this node moves to
the queue, with 2 flits when its payload has one byte and 18 otherwise. -/
def readPacket (globalClk : ℤ) (T : TrafficManager) (node type : ℕ) : TrafficManager :=
  match T.packetTable (node, type) with
  | [] => T
  | pk :: rest =>
    if pk.time ≤ globalClk ∧ pk.srcId = node then
      let size := if pk.dataLength = 1 then 2 else 18
      let pk := { pk with size := size, flitLeft := size, uid := T.packetCount }
      { T with
        packetTable := Function.update T.packetTable (node, type) rest
        packetQueue := Function.update T.packetQueue (node, type)
          (T.packetQueue (node, type) ++ [pk])
        packetCount := T.packetCount + 1 }
    else T

/-- The type that `nextFlit` gives to the next flit of a packet. -/
def flitTypeOf (packet : PacketNoC) : FlitType :=
  if packet.size = packet.flitLeft then .head
  else if packet.flitLeft = 1 then .tail
  else .body

/-- `nextFlit`, for the packet at the front of the queue. -/
def nextFlit (globalClk : ℤ) (T : TrafficManager) (src type : ℕ) : Option (TrafficManager × Flit) :=
  match T.packetQueue (src, type) with
  | [] => none
  | packet :: rest =>
    let seq := if flitTypeOf packet = .head then 0 else T.seq + 1
    let flit : Flit :=
      { uid := T.flitCount
        pkt := packet.uid
        idx := packet.size - packet.flitLeft
        srcId := packet.srcId
        dstId := packet.dstId
        flitType := flitTypeOf packet
        sequenceNo := seq
        timestamp := globalClk
        packetType := packet.packetType
        vc := 0
        outputPort := 0 }
    let packet := { packet with flitLeft := packet.flitLeft - 1 }
    let queue := if packet.flitLeft = 0 then rest else packet :: rest
    some ({ T with
      packetQueue := Function.update T.packetQueue (src, type) queue
      seq := seq
      flitCount := T.flitCount + 1 }, flit)

def isNextFlitHead (node type : ℕ) : Bool :=
  match T.packetQueue (node, type) with
  | [] => false
  | packet :: _ => packet.size = packet.flitLeft

def findFreeSpace (node : ℕ) : Option ℕ → Bool
  | none => false
  | some v => T.net.getOccupancy node 4 v < vcsSize

/-- `TrafficManager::FindIdleVC`: the first idle VC from 2 on, which it reserves. -/
def findIdleVC (node : ℕ) : TrafficManager × Option ℕ :=
  match ((List.range numVcs).drop 2).find? fun v => T.net.getState node 4 v = .idle with
  | some v => ({ T with net := T.net.setState node 4 v .routing }, some v)
  | none => (T, none)

/-- The VC for the head of a packet of this type: 0 and 1 are fixed, the others are searched. -/
def headVC (node type : ℕ) : TrafficManager × Option ℕ :=
  match type with
  | 0 => (T, some 0)
  | 1 => (T, some 1)
  | 2 => T.findIdleVC node
  | _ => (T, none)

def sendFlit (globalClk : ℤ) (T : TrafficManager) (node type : ℕ) : Option TrafficManager :=
  if T.isNextFlitHead node type then
    match T.headVC node type with
    | (T, none) => some T
    | (T, some out_vc) => do
      let (T, f) ← T.nextFlit globalClk node type
      let net := T.net.writeFlit node { f with vc := out_vc }
      some { T with
        net := net.setState node 4 out_vc .routing
        inUseVc := Function.update T.inUseVc (node, type) (some out_vc) }
  else if T.findFreeSpace node (T.inUseVc (node, type)) then do
    let v ← T.inUseVc (node, type)
    let (T, f) ← T.nextFlit globalClk node type
    let inUseVc := if f.flitType = .tail then Function.update T.inUseVc (node, type) none
      else T.inUseVc
    some { T with net := T.net.writeFlit node { f with vc := v }, inUseVc := inUseVc }
  else some T

/-- The body of the loops over nodes and types in `clk`. -/
def serveNode (globalClk : ℤ) (T : TrafficManager) (x : ℕ × ℕ) : Option TrafficManager :=
  let T := T.readPacket globalClk x.1 x.2
  if T.packetQueue x = [] then some T else T.sendFlit globalClk x.1 x.2

/-- The order of the loops over nodes and types in `clk`. -/
def nodeTypes : List (ℕ × ℕ) :=
  (List.range numNodes).flatMap fun node => (List.range numTypes).map fun type => (node, type)

def clk (globalClk : ℤ) (T : TrafficManager) : Option TrafficManager := do
  let net ← T.net.clk meshDimX globalClk
  nodeTypes.foldlM (serveNode globalClk) { T with net := net }

end TrafficManager
end EnocGem5.Noc
