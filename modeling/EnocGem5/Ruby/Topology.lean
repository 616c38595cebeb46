import Mathlib

/-!
# Topology — routing tables of `mem/ruby/network/Topology.cc`

The topology of a Ruby network numbers its switches as follows: with `m` nodes, the switches
`0 .. m-1` are the links into the network, `m .. 2m-1` the links out of it, and `2m + r` is the
router `r`. All-pairs shortest paths over the links give, for each link, the set of nodes that are
reached by it.

Matrices are functions of two indices, their entries integers without overflow. The loop of
`extend_shortest_path` has a bound on its rounds; `none` stands for a bound that is too small, and
for an assertion that fails.
-/

namespace EnocGem5.Ruby

def infiniteLatency : ℤ := 10000

/-! ## Machines -/

/-- The generated type `MachineType`, by the number of controllers of each machine. -/
structure MachineTypes where
  counts : List ℕ
  deriving DecidableEq, Repr

structure MachineID where
  type : ℕ
  num : ℕ
  deriving DecidableEq, Repr

namespace MachineTypes

variable (M : MachineTypes)

def num : ℕ := M.counts.length

def baseCount (m : ℕ) : ℕ := M.counts.getD m 0

/-- The number of controllers of all machines before `m`. -/
def baseNumber (m : ℕ) : ℕ := (M.counts.take m).sum

/-- All controllers, in the order of their numbers. -/
def machines : List MachineID :=
  (List.range M.num).flatMap fun m => (List.range (M.baseCount m)).map fun i => ⟨m, i⟩

end MachineTypes

/-! ## Links -/

structure BasicLink where
  latency : ℤ := 1
  weight : ℤ := 1
  deriving DecidableEq, Repr

structure BasicExtLink where
  extNode : MachineID
  intNode : ℕ
  link : BasicLink
  deriving DecidableEq, Repr

structure BasicIntLink where
  srcNode : ℕ
  dstNode : ℕ
  link : BasicLink
  srcOutport : String := ""
  dstInport : String := ""
  deriving DecidableEq, Repr

structure LinkEntry where
  link : BasicLink
  srcOutportDirn : String
  dstInportDirn : String
  deriving DecidableEq, Repr

structure Topology where
  nodes : ℕ
  numberOfSwitches : ℕ
  linkMap : List ((ℕ × ℕ) × LinkEntry) := []
  deriving DecidableEq, Repr

namespace Topology

/-- A link replaces an earlier one between the same switches. -/
def addLink (T : Topology) (src dest : ℕ) (entry : LinkEntry) : Option Topology :=
  if src ≤ T.numberOfSwitches + T.nodes + T.nodes &&
      dest ≤ T.numberOfSwitches + T.nodes + T.nodes then
    some { T with
      linkMap := T.linkMap.filter (fun l => l.1 ≠ (src, dest)) ++ [((src, dest), entry)] }
  else none

def addExtLink (M : MachineTypes) (T : Topology) (l : BasicExtLink) : Option Topology := do
  let extIdx1 := M.baseNumber l.extNode.type + l.extNode.num
  let extIdx2 := extIdx1 + T.nodes
  let intIdx := l.intNode + 2 * T.nodes
  let entry : LinkEntry := { link := l.link, srcOutportDirn := "", dstInportDirn := "" }
  let T ← T.addLink extIdx1 intIdx entry
  T.addLink intIdx extIdx2 entry

def addIntLink (T : Topology) (l : BasicIntLink) : Option Topology :=
  T.addLink (l.srcNode + 2 * T.nodes) (l.dstNode + 2 * T.nodes)
    { link := l.link, srcOutportDirn := l.srcOutport, dstInportDirn := l.dstInport }

def make (M : MachineTypes) (numRouters : ℕ) (extLinks : List BasicExtLink)
    (intLinks : List BasicIntLink) : Option Topology := do
  let T : Topology := { nodes := extLinks.length, numberOfSwitches := numRouters }
  if 1 < T.nodes then do
    let T ← extLinks.foldlM (addExtLink M) T
    intLinks.foldlM addIntLink T
  else none

end Topology

/-! ## Shortest paths -/

abbrev Matrix := ℕ → ℕ → ℤ

def Matrix.set (m : Matrix) (i j : ℕ) (a : ℤ) : Matrix :=
  fun i' j' => if i' = i ∧ j' = j then a else m i' j'

/-- The indices of two nested loops. -/
def pairs (n : ℕ) : List (ℕ × ℕ) :=
  (List.range n).flatMap fun i => (List.range n).map fun j => (i, j)

structure Tables where
  dist : Matrix
  latencies : Matrix
  interSwitches : Matrix

/-- The variables of the loop over `k`; no intermediate switch is -1 in the source. -/
structure Minimum where
  minimum : ℤ
  previousMinimum : ℤ
  intermediateSwitch : Option ℕ := none
  interSwitches : Matrix

def tryIntermediate (dist : Matrix) (i j : ℕ) (S : Minimum) (k : ℕ) : Minimum :=
  let minimum := min S.minimum (dist i k + dist k j)
  if S.previousMinimum ≠ minimum then
    { minimum := minimum
      previousMinimum := minimum
      intermediateSwitch := some k
      interSwitches := S.interSwitches.set i j (S.interSwitches i k + S.interSwitches k j + 1) }
  else { S with minimum := minimum, previousMinimum := minimum }

def findMinimum (nodes : ℕ) (T : Tables) (i j : ℕ) : Minimum :=
  (List.range nodes).foldl (tryIntermediate T.dist i j)
    { minimum := T.dist i j, previousMinimum := T.dist i j, interSwitches := T.interSwitches }

structure Round where
  tables : Tables
  change : Bool

def extendEntry (nodes : ℕ) (R : Round) (p : ℕ × ℕ) : Option Round :=
  let S := findMinimum nodes R.tables p.1 p.2
  if R.tables.dist p.1 p.2 ≠ S.minimum then
    match S.intermediateSwitch with
    | none => none
    | some k =>
      if k < nodes then
        some
          { change := true
            tables :=
              { dist := R.tables.dist.set p.1 p.2 S.minimum
                latencies := R.tables.latencies.set p.1 p.2
                  (R.tables.latencies p.1 k + R.tables.latencies k p.2)
                interSwitches := S.interSwitches } }
      else none
  else some { R with tables := { R.tables with interSwitches := S.interSwitches } }

def extendShortestPath (nodes : ℕ) : ℕ → Tables → Option Tables
  | 0, _ => none
  | fuel + 1, T => do
    let R ← (pairs nodes).foldlM (extendEntry nodes) { tables := T, change := false }
    if R.change then extendShortestPath nodes fuel R.tables else pure R.tables

def shortestPath (nodes fuel : ℕ) (weights latencies interSwitches : Matrix) : Option Matrix :=
  (extendShortestPath nodes fuel
    { dist := weights, latencies := latencies, interSwitches := interSwitches }).map Tables.dist

def linkIsShortestPathToNode (src next final : ℕ) (weights dist : Matrix) : Bool :=
  weights src next + dist next final = dist src final

/-- The nodes are counted by `d` while the machines are gone through. -/
def shortestPathToNode (M : MachineTypes) (src next : ℕ) (weights dist : Matrix) : List MachineID :=
  let maxMachines := M.baseNumber M.num
  (M.machines.zipIdx.filter fun p =>
    linkIsShortestPathToNode src next (p.2 + maxMachines) weights dist).map Prod.fst

/-! ## Links of the network -/

/-- What `makeLink` asks the network to make. -/
inductive NetworkLink
  | extIn (src router : ℕ)
  | extOut (router node : ℕ)
  | internal (src dest : ℕ)
  deriving DecidableEq, Repr

structure MadeLink where
  src : ℕ
  dest : ℕ
  kind : NetworkLink
  entry : Option LinkEntry
  routingTableEntry : List MachineID
  deriving DecidableEq, Repr

namespace Topology

variable (T : Topology)

def makeLink (src dest : ℕ) (routingTableEntry : List MachineID) : Option MadeLink :=
  let made := fun kind : NetworkLink =>
    { src := src, dest := dest, kind := kind, entry := T.linkMap.lookup (src, dest)
      routingTableEntry := routingTableEntry }
  if 2 * T.nodes ≤ src || 2 * T.nodes ≤ dest then
    if src < T.nodes then some (made (.extIn src (dest - 2 * T.nodes)))
    else if dest < 2 * T.nodes then
      if T.nodes ≤ dest then some (made (.extOut (src - 2 * T.nodes) (dest - T.nodes))) else none
    else if 2 * T.nodes ≤ src && 2 * T.nodes ≤ dest then
      some (made (.internal (src - 2 * T.nodes) (dest - 2 * T.nodes)))
    else none
  else none

def maxSwitchId : ℕ := T.linkMap.foldl (fun m l => max (max m l.1.1) l.1.2) 0

def topologyWeights : Matrix :=
  T.linkMap.foldl (fun m l => m.set l.1.1 l.1.2 l.2.link.weight) fun i j =>
    if i = j then 0 else infiniteLatency

def componentLatencies : Matrix :=
  T.linkMap.foldl (fun m l => m.set l.1.1 l.1.2 l.2.link.latency) fun _ _ => -1

def dist (fuel : ℕ) : Option Matrix :=
  shortestPath (T.maxSwitchId + 1) fuel T.topologyWeights T.componentLatencies fun _ _ => 0

def createLinks (M : MachineTypes) (T : Topology) (fuel : ℕ) : Option (List MadeLink) := do
  let weights := T.topologyWeights
  let dist ← T.dist fuel
  (pairs (T.maxSwitchId + 1)).foldlM (fun made p =>
    if 0 < weights p.1 p.2 && weights p.1 p.2 ≠ infiniteLatency then
      (T.makeLink p.1 p.2 (shortestPathToNode M p.1 p.2 weights dist)).map fun l => made ++ [l]
    else some made) []

end Topology

end EnocGem5.Ruby
