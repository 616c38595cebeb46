import EnocGem5.Ruby.MessageBuffer

/-!
# BufferSession — runs of a message buffer

The calls that the users of a message buffer make, with the history that its capacity and its order
of messages refer to: the messages that have entered and left, the tick of the last call, and
whether a slot was found available in this tick.
-/

namespace EnocGem5.Ruby

open Lib

inductive BufferCall
  | areNSlotsAvailable (t : ℕ)
  | enqueue (warmup : Bool) (m : MsgPtr) (t delta random : ℕ)
  | dequeue (t : ℕ)
  | recycle (t latency : ℕ)
  | stallMessage (addr t : ℕ)
  | reanalyzeMessages (addr t : ℕ)
  | reanalyzeAllMessages (t : ℕ)
  deriving DecidableEq, Repr

namespace BufferCall

def tick : BufferCall → ℕ
  | .areNSlotsAvailable t => t
  | .enqueue _ _ t _ _ => t
  | .dequeue t => t
  | .recycle t _ => t
  | .stallMessage _ t => t
  | .reanalyzeMessages _ t => t
  | .reanalyzeAllMessages t => t

def enters : BufferCall → List MsgPtr
  | .enqueue _ m _ _ _ => [m]
  | _ => []

end BufferCall

/-- A buffer with its history. `granted` says that `areNSlotsAvailable(1)` has succeeded in this
tick, since the last enqueue. -/
structure BufferSession where
  buffer : MessageBuffer
  now : ℕ := 0
  granted : Bool := false
  enqueued : List MsgPtr := []
  dequeued : List MsgPtr := []

namespace BufferSession

variable (H : HeapOps MsgPtr (ℕ ×ₗ ℕ)) (cfg : BufferConfig) (S : BufferSession)

def start (msgs : MsgPtr → Message) : BufferSession := { buffer := { msgs := msgs } }

def call : BufferCall → Option MessageBuffer
  | .areNSlotsAvailable _ => some S.buffer
  | .enqueue warmup m t delta random => S.buffer.enqueue H cfg warmup m t delta random
  | .dequeue t => (S.buffer.dequeue H t).map (·.2)
  | .recycle t latency => S.buffer.recycle H t latency
  | .stallMessage addr t => S.buffer.stallMessage H cfg addr t
  | .reanalyzeMessages addr t => S.buffer.reanalyzeMessages H addr t
  | .reanalyzeAllMessages t => S.buffer.reanalyzeAllMessages H t

/-- A slot was found available at tick `t`. -/
def grantedAt (t : ℕ) : Bool := S.granted && S.now = t

def grantedAfter : BufferCall → Bool
  | .areNSlotsAvailable t => S.buffer.areNSlotsAvailable cfg 1 t || S.grantedAt t
  | .enqueue .. => false
  | c => S.grantedAt c.tick

def leaves : BufferCall → List MsgPtr
  | .dequeue _ => S.buffer.prioHeap.take 1
  | _ => []

variable (c : BufferCall)

def after (B : MessageBuffer) : BufferSession where
  buffer := B
  now := c.tick
  granted := S.grantedAfter cfg c
  enqueued := S.enqueued ++ c.enters
  dequeued := S.dequeued ++ S.leaves c

def step : Option BufferSession := (S.call H cfg c).map (S.after cfg c)

/-- A message object is enqueued only while it is not in the buffer. -/
def Fresh : Prop := ∀ m ∈ c.enters, m ∉ S.buffer.prioHeap ++ S.buffer.stallMsgMap.all

instance : Decidable (S.Fresh c) :=
  inferInstanceAs (Decidable (∀ m ∈ c.enters, _ ∉ _))

variable {H : HeapOps MsgPtr (ℕ ×ₗ ℕ)} {cfg : BufferConfig} {S S' : BufferSession} {c : BufferCall}
  {B : MessageBuffer}

theorem Fresh.not_mem {warmup : Bool} {m : MsgPtr} {t delta random : ℕ}
    (h : S.Fresh (.enqueue warmup m t delta random)) : m ∉ S.buffer.prioHeap :=
  fun hmem => h m List.mem_cons_self (List.mem_append_left _ hmem)

theorem reanalyzeMessages_sound (h : S.buffer.Sound) {addr t : ℕ}
    (hB : S.buffer.reanalyzeMessages H addr t = some B) : B.Sound := by
  rw [MessageBuffer.reanalyzeMessages_eq_some hB]
  exact (h.putBack (StallMap.all_erase _ addr) h.sorted.erase).1

theorem reanalyzeAllMessages_sound (h : S.buffer.Sound) {t : ℕ}
    (hB : S.buffer.reanalyzeAllMessages H t = some B) : B.Sound := by
  rw [MessageBuffer.reanalyzeAllMessages_eq_some hB]
  exact (h.putBack (StallMap.all_perm_nil _) StallMap.sorted_nil).1

theorem call_sound (h : S.buffer.Sound) (hfresh : S.Fresh c) (hB : S.call H cfg c = some B) :
    B.Sound := by
  cases c with
  | areNSlotsAvailable t =>
    cases hB
    exact h
  | enqueue warmup m t delta random => exact h.enqueue (hfresh m List.mem_cons_self) hB
  | dequeue t =>
    rcases Option.map_eq_some_iff.1 hB with ⟨⟨delay, C⟩, hC, rfl⟩
    exact h.dequeue hC
  | recycle t latency => exact h.recycle hB
  | stallMessage addr t =>
    rcases h.stallMessage hB with ⟨_, _, _, -, hsound, -⟩
    exact hsound
  | reanalyzeMessages addr t => exact reanalyzeMessages_sound h hB
  | reanalyzeAllMessages t => exact reanalyzeAllMessages_sound h hB

theorem step_eq_some (hS : S.step H cfg c = some S') :
    ∃ B, S.call H cfg c = some B ∧ S' = S.after cfg c B := by
  rcases Option.map_eq_some_iff.1 hS with ⟨B, hB, rfl⟩
  exact ⟨B, hB, rfl⟩

end BufferSession
end EnocGem5.Ruby
