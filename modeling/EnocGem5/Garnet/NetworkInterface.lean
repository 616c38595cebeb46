import Mathlib

/-!
# NetworkInterface — messages into a garnet network

The part of `mem/ruby/network/garnet2.0` that makes packets: flits, the state of a virtual channel
at its sender (`OutVcState`), how `NetworkInterface` finds an idle virtual channel, and how it makes
the flits of a message for one destination.

What the sending half of an interface keeps about its virtual channels is indexed by the link that
it feeds, what belongs to an interface by its number. A function that asserts returns a `Result`.
-/

namespace EnocGem5.Garnet

/-! ## Results -/

/-- How the simulation stops: an assertion fails or an index is out of range, or the program ends
with a message. -/
inductive Halt
  | assertion
  | fatal
  deriving DecidableEq, Repr

abbrev Result := Except Halt

/-- A value that the code takes to be there. -/
def present {α : Type} : Option α → Result α
  | some a => .ok a
  | none => .error .assertion

/-- A table with two indices after one entry is set. -/
def put {α : Type} (f : ℕ → ℕ → α) (i j : ℕ) (a : α) : ℕ → ℕ → α :=
  fun i' j' => if i' = i ∧ j' = j then a else f i' j'

def infinite : ℕ := 10000

/-! ## Flits and virtual channels -/

inductive FlitType
  | HEAD
  | BODY
  | TAIL
  | HEAD_TAIL
  deriving DecidableEq, Repr

/-- `flit`. `msg` numbers the packet, `src` and `dest` are the interfaces of its route. -/
structure Flit where
  id : ℕ
  vc : ℕ
  vnet : ℕ
  size : ℕ
  msg : ℕ
  src : ℕ
  dest : ℕ
  time : ℕ
  deriving DecidableEq, Repr

def Flit.type (f : Flit) : FlitType :=
  if f.size = 1 then .HEAD_TAIL
  else if f.id = 0 then .HEAD
  else if f.id = f.size - 1 then .TAIL
  else .BODY

/-- `VC_state_type`; the state `VC_AB_` is never used. -/
inductive VcState
  | IDLE
  | ACTIVE
  deriving DecidableEq, Repr

structure OutVcState where
  state : VcState := .IDLE
  time : ℕ := 0
  creditCount : ℕ
  maxCreditCount : ℕ
  deriving DecidableEq, Repr

namespace OutVcState

def isInState (O : OutVcState) (state : VcState) (time : ℕ) : Bool :=
  O.state = state && O.time ≤ time

def setState (O : OutVcState) (state : VcState) (time : ℕ) : OutVcState :=
  { O with state := state, time := time }

end OutVcState

/-! ## Configuration and state -/

/-- `VNET_type`; the type `NULL_VNET_` is never used. -/
inductive VnetType
  | CTRL
  | DATA
  deriving DecidableEq, Repr

/-- What `GarnetNetwork` says about virtual channels. -/
structure Config where
  vcPerVnet : ℕ
  vnetType : ℕ → VnetType
  buffersPerDataVC : ℕ
  buffersPerCtrlVC : ℕ
  deadlockThreshold : ℕ
  /-- The constructor of `OutVcState` asserts that a virtual channel has a buffer. -/
  buffers_pos : 0 < buffersPerDataVC ∧ 0 < buffersPerCtrlVC

/-- The constructor of `OutVcState`. -/
def Config.maxCredits (C : Config) (vc : ℕ) : ℕ :=
  match C.vnetType (vc / C.vcPerVnet) with
  | .DATA => C.buffersPerDataVC
  | .CTRL => C.buffersPerCtrlVC

/-- The interfaces of the network; `injected` counts the packets that they have made. -/
structure State where
  cycle : ℕ := 0
  outVcState : ℕ → ℕ → OutVcState
  niOutVcs : ℕ → ℕ → List Flit := fun _ _ => []
  niOutVcsEnqueueTime : ℕ → ℕ → ℕ := fun _ _ => infinite
  vcAllocator : ℕ → ℕ → ℕ := fun _ _ => 0
  vcBusyCounter : ℕ → ℕ → ℕ := fun _ _ => 0
  injected : ℕ := 0

namespace State

def initial (C : Config) : State where
  outVcState := fun _ vc => { creditCount := C.maxCredits vc, maxCreditCount := C.maxCredits vc }

/-! ## Packets -/

def isVcIdle (S : State) (l vc : ℕ) : Bool := (S.outVcState l vc).isInState .IDLE S.cycle

/-- The loop of `NetworkInterface::calculateVC`. -/
def findVc (C : Config) (i l vnet : ℕ) : ℕ → State → State × Option ℕ
  | 0, S => (S, none)
  | n + 1, S =>
    let delta := S.vcAllocator i vnet
    let next := if delta + 1 = C.vcPerVnet then 0 else delta + 1
    let S := { S with vcAllocator := put S.vcAllocator i vnet next }
    let vc := vnet * C.vcPerVnet + delta
    if S.isVcIdle l vc then ({ S with vcBusyCounter := put S.vcBusyCounter i vnet 0 }, some vc)
    else findVc C i l vnet n S

def calculateVc (C : Config) (i l vnet : ℕ) (S : State) : Result (State × Option ℕ) :=
  match findVc C i l vnet C.vcPerVnet S with
  | (S, some vc) => pure (S, some vc)
  | (S, none) =>
    let busy := S.vcBusyCounter i vnet + 1
    if C.deadlockThreshold < busy then .error .fatal
    else pure ({ S with vcBusyCounter := put S.vcBusyCounter i vnet busy }, none)

def packetFlits (S : State) (i vc vnet dest numFlits : ℕ) : List Flit :=
  (List.range numFlits).map fun id =>
    { id := id
      vc := vc
      vnet := vnet
      size := numFlits
      msg := S.injected
      src := i
      dest := dest
      time := S.cycle }

/-- A copy of the message for one destination goes into an output channel. -/
def inject (S : State) (i l vc vnet dest numFlits : ℕ) : State :=
  { S with
    niOutVcs := put S.niOutVcs i vc (S.niOutVcs i vc ++ S.packetFlits i vc vnet dest numFlits)
    niOutVcsEnqueueTime := put S.niOutVcsEnqueueTime i vc S.cycle
    outVcState := put S.outVcState l vc ((S.outVcState l vc).setState .ACTIVE S.cycle)
    injected := S.injected + 1 }

end State

end EnocGem5.Garnet
