import EnocGem5.Noc.Routing

/-!
# Flit — flits, packets, channels and input buffers

The containers a flit passes through. A flit is a heap object of the source; here it is a value, and
`uid` is the identity of the object: the number of `nextFlit` calls before the one that made it.
`pkt` and `idx` name the packet and the flit's place in it in the same way. The three are never read
by the modelled code.

Payload, bit flips and energy are left out: no control flow depends on them.
-/

namespace EnocGem5.Noc

open Function

/-! ## Flits and packets -/

inductive FlitType
  | head
  | body
  | tail
  deriving DecidableEq, Repr

structure Flit where
  uid : ℕ
  pkt : ℕ
  idx : ℕ
  srcId : ℤ
  dstId : ℤ
  flitType : FlitType
  sequenceNo : ℕ
  timestamp : ℤ
  packetType : ℕ
  vc : ℕ
  outputPort : ℕ
  deriving DecidableEq, Repr

/-- `VirtualChannel::Route`: the output port at router `id` is written into the flit. -/
@[simps]
def Flit.route (k id : ℕ) (f : Flit) : Flit := { f with outputPort := xyYxMesh k id f.dstId }

/-- `PacketNoC`; of the payload string only the length is read. -/
structure PacketNoC where
  srcId : ℤ
  dstId : ℤ
  packetType : ℕ
  dataLength : ℕ
  time : ℤ
  size : ℕ := 0
  flitLeft : ℕ := 0
  uid : ℕ := 0
  deriving DecidableEq, Repr

abbrev numVcs : ℕ := 8

abbrev vcsSize : ℕ := 8

/-- `2 * _n + 1`, the number of input and of output ports of a router. -/
abbrev numPorts : ℕ := 5

/-! ## Channels -/

/-- `Channel<Flit>` with the delay of 1 that `buildMesh` sets. -/
structure Channel where
  input : Option Flit := none
  waitQueue : List (ℤ × Flit) := []
  output : Option Flit := none

namespace Channel

variable (c : Channel) (f : Flit) {t : ℤ}

def send : Channel := { c with input := some f }

def readInputs (globalClk : ℤ) (c : Channel) : Channel :=
  match c.input with
  | none => c
  | some f => { c with waitQueue := c.waitQueue ++ [(globalClk + 1 - 1, f)], input := none }

/-- `Channel::WriteOutputs`. Its assertion `global_clk == time` is `readInputs_time` below. -/
def writeOutputs (globalClk : ℤ) (c : Channel) : Channel :=
  match c.waitQueue with
  | [] => { c with output := none }
  | (time, f) :: rest =>
    if globalClk < time then { c with output := none }
    else { c with output := some f, waitQueue := rest }

/-- The flits of a channel in the order in which they leave it, without the one already offered to
the sink. -/
def queued : List Flit := c.waitQueue.map Prod.snd ++ c.input.toList

/-- Between two calls of `clk` nothing waits. -/
def Settled : Prop := c.waitQueue = []

@[simp] theorem send_output : (c.send f).output = c.output := rfl
@[simp] theorem send_waitQueue : (c.send f).waitQueue = c.waitQueue := rfl
@[simp] theorem send_input : (c.send f).input = some f := rfl

@[simp] theorem readInputs_input (t : ℤ) (c : Channel) : (c.readInputs t).input = none := by
  unfold readInputs
  split <;> simp_all

@[simp] theorem queued_readInputs (t : ℤ) (c : Channel) : (c.readInputs t).queued = c.queued := by
  unfold readInputs queued
  split <;> simp_all

/-- After `readInputs` on a settled channel the only waiting flit is due now, so the assertion of
`writeOutputs` in the same cycle holds. -/
theorem readInputs_time {c : Channel} (h : c.Settled) :
    ∀ x ∈ (c.readInputs t).waitQueue, x.1 = t := by
  intro x hx
  unfold readInputs at hx
  rw [Settled] at h
  split at hx <;> simp_all

@[simp] theorem writeOutputs_input (t : ℤ) (c : Channel) : (c.writeOutputs t).input = c.input := by
  unfold writeOutputs
  split
  · rfl
  · split <;> rfl

theorem settled_writeOutputs_readInputs {c : Channel} (h : c.Settled) :
    ((c.readInputs t).writeOutputs t).Settled := by
  rw [Settled] at h
  unfold readInputs
  split <;> simp [Settled, writeOutputs, h]

/-- The waiting flits move to the output in order. -/
theorem toList_output_append_queued (t : ℤ) (c : Channel) :
    (c.writeOutputs t).output.toList ++ (c.writeOutputs t).queued = c.queued := by
  unfold writeOutputs queued
  split
  · next h => simp [h]
  · next time f rest h =>
      split <;> simp [h]

end Channel

/-! ## Virtual channels and buffers -/

inductive VCState
  | idle
  | routing
  | vcAlloc
  | active
  deriving DecidableEq, Repr

/-- `VirtualChannel`. `outPort` and `outVc` are `none` for the source's `-1`; the flit counter is
kept beside the queue, as in the source, and always agrees with it. -/
structure VirtualChannel where
  buffer : List Flit := []
  state : VCState := .idle
  outPort : Option ℕ := none
  outVc : Option ℕ := none
  occupancy : ℕ := 0
  occupancy_eq : occupancy = buffer.length := by rfl

namespace VirtualChannel

variable (c : VirtualChannel)

def addFlit (f : Flit) : VirtualChannel :=
  { c with
    buffer := c.buffer ++ [f]
    occupancy := c.occupancy + 1
    occupancy_eq := by simp [c.occupancy_eq] }

def removeFlit : VirtualChannel :=
  { c with
    buffer := c.buffer.tail
    occupancy := c.occupancy - 1
    occupancy_eq := by simp [c.occupancy_eq] }

def frontFlit : Option Flit := c.buffer.head?

def setState (s : VCState) : VirtualChannel := { c with state := s }

def setOutput (port vc : ℕ) : VirtualChannel :=
  { c with outPort := some port, outVc := some vc }

end VirtualChannel

/-- `Buffer`: the virtual channels of one input port. The buffer keeps its own flit counters, and
`AddFlit` stamps the flit with the VC it is put in. -/
structure Buffer where
  vc : ℕ → VirtualChannel := fun _ => {}
  occupancy : ℕ → ℕ := fun _ => 0
  occupancy_eq : ∀ v, occupancy v = (vc v).buffer.length := by intro; rfl
  stamped : ∀ v, ∀ f ∈ (vc v).buffer, f.vc = v := by simp

namespace Buffer

/-- Replaces a virtual channel by one with the same flits. -/
def setVc (b : Buffer) (v : ℕ) (c : VirtualChannel) (h : c.buffer = (b.vc v).buffer) : Buffer :=
  { b with
    vc := update b.vc v c
    occupancy_eq := by
      apply (forall_update_iff b.vc fun w c => b.occupancy w = c.buffer.length).2
      exact ⟨h ▸ b.occupancy_eq v, fun w _ => b.occupancy_eq w⟩
    stamped := by
      apply (forall_update_iff b.vc fun w c => ∀ f ∈ c.buffer, f.vc = w).2
      exact ⟨h ▸ b.stamped v, fun w _ => b.stamped w⟩ }

def addFlit (b : Buffer) (v : ℕ) (f : Flit) : Buffer where
  vc := update b.vc v ((b.vc v).addFlit { f with vc := v })
  occupancy := update b.occupancy v (b.occupancy v + 1)
  occupancy_eq := by
    intro w
    by_cases hw : w = v
    · subst hw
      simp [VirtualChannel.addFlit, b.occupancy_eq]
    · simp [hw, b.occupancy_eq]
  stamped := by
    refine (forall_update_iff b.vc fun w c => ∀ g ∈ c.buffer, g.vc = w).2 ⟨?_,
      fun w _ => b.stamped w⟩
    exact List.forall_mem_append.2 ⟨b.stamped v, List.forall_mem_singleton.2 rfl⟩

/-- `Buffer::RemoveFlit`. Its only caller has the front flit in hand, so the counters do not meet
the empty queue. -/
def removeFlit (b : Buffer) (v : ℕ) : Buffer where
  vc := update b.vc v (b.vc v).removeFlit
  occupancy := update b.occupancy v (b.occupancy v - 1)
  occupancy_eq := by
    intro w
    by_cases hw : w = v
    · subst hw
      simp [VirtualChannel.removeFlit, b.occupancy_eq]
    · simp [hw, b.occupancy_eq]
  stamped := by
    apply (forall_update_iff b.vc fun w c => ∀ g ∈ c.buffer, g.vc = w).2
    exact ⟨fun g hg => b.stamped v g (List.mem_of_mem_tail hg), fun w _ => b.stamped w⟩

def frontFlit (b : Buffer) (v : ℕ) : Option Flit := (b.vc v).frontFlit

def getState (b : Buffer) (v : ℕ) : VCState := (b.vc v).state

def getOccupancy (b : Buffer) (v : ℕ) : ℕ := (b.vc v).occupancy

def getOutputPort (b : Buffer) (v : ℕ) : Option ℕ := (b.vc v).outPort

def getOutputVC (b : Buffer) (v : ℕ) : Option ℕ := (b.vc v).outVc

def setState (b : Buffer) (v : ℕ) (s : VCState) : Buffer := b.setVc v ((b.vc v).setState s) rfl

def setOutput (b : Buffer) (v port vc : ℕ) : Buffer := b.setVc v ((b.vc v).setOutput port vc) rfl

/-- `occupancy >= _size`, the test that `AddFlit` reports as an overflow. -/
def full (b : Buffer) (v : ℕ) : Bool := vcsSize ≤ b.occupancy v

def flits (b : Buffer) (v : ℕ) : List Flit := (b.vc v).buffer

variable (b : Buffer)
include b

@[simp] theorem getOccupancy_eq (v : ℕ) : b.getOccupancy v = (b.flits v).length :=
  (b.vc v).occupancy_eq

theorem full_iff (v : ℕ) : b.full v = true ↔ 8 ≤ (b.flits v).length := by
  simp [full, b.occupancy_eq, flits]

/-- A write to a virtual channel does not change a view that agrees on the old and the new one. -/
theorem view_update_vc {α : Type*} (φ : VirtualChannel → α) {v : ℕ} {c : VirtualChannel}
    (h : φ c = φ (b.vc v)) : (fun w => φ (update b.vc v c w)) = fun w => φ (b.vc w) := by
  funext w
  rw [apply_update fun _ => φ, h]
  exact congrFun (update_eq_self v fun w => φ (b.vc w)) w

@[simp] theorem flits_setState (v : ℕ) (s : VCState) : (b.setState v s).flits = b.flits :=
  b.view_update_vc VirtualChannel.buffer rfl

@[simp] theorem flits_setOutput (v p q : ℕ) : (b.setOutput v p q).flits = b.flits :=
  b.view_update_vc VirtualChannel.buffer rfl

@[simp] theorem flits_addFlit (v : ℕ) (f : Flit) :
    (b.addFlit v f).flits = update b.flits v (b.flits v ++ [{ f with vc := v }]) :=
  funext (apply_update (fun _ => VirtualChannel.buffer) b.vc v _)

@[simp] theorem flits_removeFlit (v : ℕ) :
    (b.removeFlit v).flits = update b.flits v (b.flits v).tail :=
  funext (apply_update (fun _ => VirtualChannel.buffer) b.vc v _)

theorem getOutput_setState (v : ℕ) (s : VCState) :
    (b.setState v s).getOutputPort = b.getOutputPort ∧
      (b.setState v s).getOutputVC = b.getOutputVC :=
  ⟨b.view_update_vc VirtualChannel.outPort rfl, b.view_update_vc VirtualChannel.outVc rfl⟩

theorem getOutput_addFlit (v : ℕ) (f : Flit) :
    (b.addFlit v f).getOutputPort = b.getOutputPort ∧
      (b.addFlit v f).getOutputVC = b.getOutputVC :=
  ⟨b.view_update_vc VirtualChannel.outPort rfl, b.view_update_vc VirtualChannel.outVc rfl⟩

theorem getOutput_removeFlit (v : ℕ) :
    (b.removeFlit v).getOutputPort = b.getOutputPort ∧
      (b.removeFlit v).getOutputVC = b.getOutputVC :=
  ⟨b.view_update_vc VirtualChannel.outPort rfl, b.view_update_vc VirtualChannel.outVc rfl⟩

end Buffer

end EnocGem5.Noc
