import EnocGem5.Noc.Router

/-!
# Network — `NetworkNoC::clk`

A cycle has three passes over the modules: every module reads its inputs, every router runs `clk` in
the order of its number (the channels' `clk` is empty), every module writes its outputs. In the
first and the third pass the modules do not read what another one writes in the same pass, except
that a router's `_SendFlits` follows `WriteOutputs` of all channels; so these passes are given
pointwise.

Ports are looked up through the closed forms of `Noc.Mesh`, which `built_buildMesh` derives from the
construction.
-/

namespace EnocGem5.Noc.NetworkNoC

/-- `ReadInputs` of all channels and routers. A router inserts the flit offered at each input into
its map, which keeps an entry that is already there. -/
def readInputs (k : ℕ) (globalClk : ℤ) (N : NetworkNoC) : NetworkNoC :=
  { N with
    channel := fun c => (N.channel c).readInputs globalClk
    inQueueFlits := fun x =>
      if x.1 < k * k ∧ x.2 < numPorts then
        (N.inQueueFlits x).or (N.channel (inChan k x.1 x.2)).output
      else N.inQueueFlits x }

/-- `_SendFlits` at one port, as the channel of this port sees it: the front flit of the output
buffer is sent. -/
def sendFront (c : Channel) : List Flit → Channel
  | [] => c
  | f :: _ => c.send f

/-- `WriteOutputs` of all channels and then of all routers. -/
def writeOutputs (k : ℕ) (globalClk : ℤ) (N : NetworkNoC) : NetworkNoC :=
  { N with
    channel := fun c =>
      let c' := (N.channel c).writeOutputs globalClk
      match sourceOf c with
      | some (r, port) => if r < k * k then sendFront c' (N.outputBuffer (r, port)) else c'
      | none => c'
    outputBuffer := fun x =>
      if x.1 < k * k ∧ x.2 < numPorts then (N.outputBuffer x).tail else N.outputBuffer x }

/-- The second pass of `NetworkNoC::clk`. -/
def clkRouters (k : ℕ) (globalClk : ℤ) (N : NetworkNoC) : Option NetworkNoC :=
  (List.range (k * k)).foldlM (routerClk k globalClk) N

def clk (k : ℕ) (globalClk : ℤ) (N : NetworkNoC) : Option NetworkNoC :=
  (clkRouters k globalClk (N.readInputs k globalClk)).map (writeOutputs k globalClk)

/-- `WriteFlit`: the flit is put on the inject channel of `source`. -/
def writeFlit (N : NetworkNoC) (source : ℕ) (f : Flit) : NetworkNoC :=
  { N with
    channel := Function.update N.channel (.inject source) ((N.channel (.inject source)).send f) }

end EnocGem5.Noc.NetworkNoC
