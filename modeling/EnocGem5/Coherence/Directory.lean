import EnocGem5.Coherence.Cache
import EnocGem5.Mem.Packet
import EnocGem5.Noc.TrafficManager

/-!
# Directory — `ENoCDir` and the caches it writes

The state is that of `TrafficManager`: the network side, three caches for each node and the rows of
the directory. A row has the address in column 0 and a state in each column from 1 on. The source
reads column `i + 1` as the state of node `i` and writes the requesting node's state to column
`node`; both are kept as they stand.

A call is `none` where the source writes out of bounds (no way has LRU bits 0, the memory node is
not in the mesh) or where `getPtr` fails its assertion.
-/

namespace EnocGem5.Coherence

open Mem Noc

/-- A row of the directory, by column. -/
abbrev Row := ℕ → ℤ

/-- `TrafficManager` with its caches and its directory. -/
structure ENoC where
  tm : TrafficManager := {}
  cache : Level × ℕ × ℕ → CacheSet := fun x => CacheSet.setLRUbitsToWay x.1.WAYS
  lines : List Row := List.replicate numNodes fun _ => 0

namespace ENoC

/-! ## Accesses to the caches -/

variable (pkt : Packet)

def nodeOf : ℕ := pkt.req.masterId % 6

variable (S : ENoC) (l : Level)

/-- The set of a node's cache in which an address is looked up. -/
def set (node addr : ℕ) : CacheSet := S.cache (l, node, l.index addr)

/-- The way that holds the tag of an address, as `checkTag` returns it. -/
def way (node addr : ℕ) : ℕ := (S.set l node addr).checkTag (tagOf addr)

def present (node addr : ℕ) : Bool :=
  S.way l node addr < (S.set l node addr).length

def mesi (node addr : ℕ) : MESI := (S.set l node addr).copy (tagOf addr)

def setSet (node addr : ℕ) (set : CacheSet) : ENoC :=
  { S with cache := Function.update S.cache (l, node, l.index addr) set }

/-- Writes a state if the tag exists. -/
def putMESI (node addr : ℕ) (x : MESI) : ENoC :=
  if S.present l node addr then
    S.setSet l node addr ((S.set l node addr).setMESI (S.way l node addr) x)
  else S

def updateLRU (node addr ourway : ℕ) : Option ENoC :=
  ((S.set l node addr).updateLRU ourway).map (S.setSet l node addr)

/-- The least recently used way gets the tag and the state. -/
def fill (node addr : ℕ) (x : MESI) : Option ENoC := do
  let way := (S.set l node addr).checkLRU
  let S ← S.updateLRU l node addr way
  some (S.setSet l node addr (((S.set l node addr).setTag way (tagOf addr)).setMESI way x))

/-- A cache that has the tag gets the state, and its way becomes the most recently used one. -/
def refresh (node addr : ℕ) (x : MESI) : Option ENoC :=
  if S.present l node addr then
    (S.putMESI l node addr x).updateLRU l node addr (S.way l node addr)
  else some S

/-- The cache gets the line in any case, in the way that has the tag or in one that is filled. -/
def refreshOrFill (node addr : ℕ) (x : MESI) : Option ENoC :=
  if S.present l node addr then S.refresh l node addr x else S.fill l node addr x

/-- A push to `packet_table[src][type]`. -/
def push (src type : ℕ) (pk : PacketNoC) : Option ENoC :=
  (S.tm.loadTraffic pk src type).map fun tm => { S with tm := tm }

/-! ## Rows -/

/-- `DIRECTORY_ADDRESS_0` to `DIRECTORY_ADDRESS_3`. -/
def directoryAddress : ℕ → ℕ
  | 0 => 8
  | 1 => 24
  | 2 => 40
  | _ => 56

def findLine (lines : List Row) (addr : ℤ) : Option ℕ :=
  lines.findIdx? fun row => row 0 = addr

/-- The row appended for an address that has none. -/
def newLine (addr : ℤ) (node : ℕ) : Row :=
  Function.update (Function.update (fun _ => 0) 0 addr) node MESI.E.bits

def setColumn (lines : List Row) (index column : ℕ) (x : MESI) : List Row :=
  lines.modify index fun row => Function.update row column x.bits

/-- The value of `lines[index][column]`; every row has all columns. -/
def column (lines : List Row) (index column : ℕ) : ℤ :=
  match lines[index]? with
  | some row => row column
  | none => 0

def newRow (pkt : Packet) : ENoC :=
  { S with lines := S.lines ++ [newLine (toInt pkt.addr) (nodeOf pkt)] }

def setState (index column : ℕ) (x : MESI) : ENoC :=
  { S with lines := setColumn S.lines index column x }

/-! ## `invalidatePacket` -/

/-- The body of the loop of `invalidatePacket`: node `i` loses its copies if its column is not
`I`. -/
def invalidateNode (time : ℤ) (dir_index index : ℕ) (S : ENoC) (i : ℕ) : Option ENoC :=
  if column S.lines index (i + 1) ≠ MESI.I.bits then do
    let S := S.putMESI .L1D i pkt.addr .I
    let S := S.putMESI .L1I i pkt.addr .I
    let S := S.putMESI .L2 i pkt.addr .I
    let S ← S.push (directoryAddress dir_index) 2
      { srcId := directoryAddress dir_index, dstId := i, packetType := 4, dataLength := 0,
        time := time + 5 }
    some (S.setState index (i + 1) .I)
  else some S

def invalidatePacket (time : ℤ) (dir_index : ℕ) (S : ENoC) : Option ENoC :=
  match findLine S.lines (toInt pkt.addr) with
  | some index => do
    let S ← (List.range numNodes).foldlM (invalidateNode pkt time dir_index index) S
    some (S.setState index (nodeOf pkt) .E)
  | none => some (S.newRow pkt)

/-! ## `receivePacket` -/

/-- `ENoCCache::sendSharedData` of the L2 cache of node `src`. -/
def sendSharedData (src node : ℕ) (pkt : Packet) (time : ℤ) (S : ENoC) : Option ENoC :=
  if pkt.hasPtr then do
    let S ← S.refreshOrFill .L2 src pkt.addr .S
    S.push src 2 { srcId := src, dstId := node, packetType := 8, dataLength := 1, time := time + 5 }
  else none

def isHolder (x : ℤ) : Bool := x = MESI.S.bits || x = MESI.M.bits || x = MESI.E.bits

/-- The first part of `receivePacket`: the row is updated or appended, and the first column from 1
on that names a holder is returned. -/
def lookupLine : ENoC × Option ℕ :=
  match findLine S.lines (toInt pkt.addr) with
  | some index =>
    match ((List.range (numNodes + 1)).drop 1).find? fun i => isHolder (column S.lines index i) with
    | some i =>
      if column S.lines index i = MESI.S.bits then
        (S.setState index (nodeOf pkt) .S, some i)
      else ((S.setState index (nodeOf pkt) .S).setState index i .S, some i)
    | none => (S, none)
  | none => (S.newRow pkt, none)

def requestLevel : Level := if pkt.req.isInstFetch then .L1I else .L1D

/-- "Nobody has the data, asking memory": the caches of the requesting node get the line in state
`E`, the L1 only if it has the tag. -/
def askMemory (time : ℤ) (dir_index : ℕ) (S : ENoC) : Option ENoC := do
  let S ← S.refresh (requestLevel pkt) (nodeOf pkt) pkt.addr .E
  let S ← S.refreshOrFill .L2 (nodeOf pkt) pkt.addr .E
  let S ← S.push (directoryAddress dir_index) 1
    { srcId := directoryAddress dir_index, dstId := toInt (pkt.addr >>> 26), packetType := 6,
      dataLength := 0, time := time + 5 }
  if pkt.hasPtr then
    S.push (pkt.addr >>> 26) 2
      { srcId := toInt (pkt.addr >>> 26), dstId := nodeOf pkt, packetType := 7, dataLength := 1,
        time := time + 10 }
  else none

/-- The L1 copies of the node that the row names are set to `S`, if they exist. -/
def shareL1 (i : ℕ) (S : ENoC) : ENoC :=
  (S.putMESI .L1D i pkt.addr .S).putMESI .L1I i pkt.addr .S

/-- The part of `receivePacket` for a line whose L2 copy is found at node `i`. -/
def shareL2 (time : ℤ) (dir_index i : ℕ) (S : ENoC) : Option ENoC := do
  let S := S.putMESI .L2 i pkt.addr .S
  let S ← S.sendSharedData i (nodeOf pkt) pkt (time + 5)
  S.push (directoryAddress dir_index) 2
    { srcId := directoryAddress dir_index, dstId := i, packetType := 5, dataLength := 0,
      time := time + 5 }

def receivePacket (time : ℤ) (dir_index : ℕ) (S : ENoC) : Option ENoC :=
  match S.lookupLine pkt with
  | (S, some i) =>
    -- column `i` is taken for node `i - 1`
    let S := S.shareL1 pkt (i - 1)
    if S.present .L2 (i - 1) pkt.addr then S.shareL2 pkt time dir_index (i - 1)
    else S.askMemory pkt time dir_index
  | (S, none) => S.askMemory pkt time dir_index

/-! ## `evictPacket` -/

def evictPacket : ENoC :=
  match findLine S.lines (toInt pkt.addr) with
  | some index => S.setState index (nodeOf pkt) .I
  | none => S.newRow pkt

/-! ## `TrafficManager::process` -/

def cmdOf : ℕ :=
  if pkt.req.isInstFetch then 0
  else if pkt.cmd.isRead then 1
  else if pkt.cmd.isWrite then 2
  else if pkt.cmd.isUpgrade then 3
  else if pkt.cmd.isInvalidate then 4
  else if pkt.cmd.isEviction then 5
  else if pkt.cmd.isRequest then 6
  else if pkt.cmd.isResponse then 7
  else if pkt.cmd.needsResponse then 8
  else 1

def tellDirectory (packetType : ℕ) (S : ENoC) : Option ENoC :=
  S.push (nodeOf pkt) 0
    { srcId := nodeOf pkt, dstId := directoryAddress (nodeOf pkt / 16), packetType := packetType,
      dataLength := 0, time := toInt pkt.req.time }

def askDirectory : Option ENoC := do
  let S ← S.receivePacket pkt (toInt pkt.req.time) (nodeOf pkt / 16)
  S.tellDirectory pkt 0

/-- Cases 0 and 1 of `process`, for the instruction and the data cache. -/
def read (l1 : Level) (pkt : Packet) (S : ENoC) : Option ENoC :=
  let node := nodeOf pkt
  if S.present l1 node pkt.addr then
    if S.mesi l1 node pkt.addr ≠ .I then S.updateLRU l1 node pkt.addr (S.way l1 node pkt.addr)
    else if S.present .L2 node pkt.addr ∧ S.mesi .L2 node pkt.addr ≠ .I then do
      -- the L1 copy was invalidated, the L2 copy is valid
      let S ← S.updateLRU .L2 node pkt.addr (S.way .L2 node pkt.addr)
      let S ← S.updateLRU l1 node pkt.addr (S.way l1 node pkt.addr)
      some (S.putMESI l1 node pkt.addr (S.mesi .L2 node pkt.addr))
    else S.askDirectory pkt
  else S.askDirectory pkt

/-- The way in which a write puts its line: the one with the tag, or else the least recently used
one, which gets the tag. -/
def allocate (node addr : ℕ) : Option (ENoC × ℕ) :=
  if S.present l node addr then some (S, S.way l node addr)
  else
    let way := (S.set l node addr).checkLRU
    if way < (S.set l node addr).length then
      some (S.setSet l node addr ((S.set l node addr).setTag way (tagOf addr)), way)
    else none

/-- The written line becomes the most recently used one, in state `x`. -/
def finishWrite (node addr way : ℕ) (x : MESI) : Option ENoC := do
  let S ← S.updateLRU l node addr way
  some (S.setSet l node addr ((S.set l node addr).setMESI way x))

/-- Cases 2 and 3 of `process` (`x` is `M`) and case 4 (`x` is `E`). -/
def write (x : MESI) (pkt : Packet) (S : ENoC) : Option ENoC := do
  let node := nodeOf pkt
  let (S, L1Dway) ← S.allocate .L1D node pkt.addr
  let S ← S.invalidatePacket pkt (toInt pkt.req.time) (node / 16)
  let S ← S.tellDirectory pkt 1
  let S ← S.finishWrite .L1D node pkt.addr L1Dway x
  let (S, L2way) ← S.allocate .L2 node pkt.addr
  S.finishWrite .L2 node pkt.addr L2way x

/-- Case 5 of `process`. -/
def evict : Option ENoC := do
  let node := nodeOf pkt
  let S := S.putMESI .L1D node pkt.addr .I
  let S := S.evictPacket pkt
  let S ← S.tellDirectory pkt 2
  let S ← S.push node 1
    { srcId := node, dstId := toInt (pkt.addr >>> 26), packetType := 3, dataLength := 1,
      time := toInt pkt.req.time + 2 }
  some (S.putMESI .L2 node pkt.addr .I)

def process (pkt : Packet) : Option ENoC :=
  if pkt.hasPtr then
    match cmdOf pkt with
    | 0 => S.read .L1I pkt
    | 1 => S.read .L1D pkt
    | 2 => S.write .M pkt
    | 3 => S.write .M pkt
    | 4 => S.write .E pkt
    | 5 => S.evict pkt
    | _ => some S
  else none

end ENoC
end EnocGem5.Coherence
