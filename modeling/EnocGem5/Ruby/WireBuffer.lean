import EnocGem5.Ruby.MessageBuffer

/-!
# WireBuffer — the wire buffers of Ruby

A wire buffer is a queue between two controllers. Messages are taken from its front with `pop_heap`,
which needs an array in heap order, but `enqueue` appends a message and leaves it where it is. So
the array is a heap only if each new message arrives no earlier than its parent in the array;
otherwise the front need not be the message with the least arrival time (`peek_not_least`).

The keys of the heap are the arrival time and a counter that the buffer never sets. Messages that
arrive at the same time may therefore leave in any order that `pop_heap` gives. Ticks and counters
have no upper bound, as in `MessageBuffer`.
-/

namespace EnocGem5.Ruby

open Lib List Option
open scoped List

structure WireBuffer where
  msgs : MsgPtr → Message
  messageQueue : List MsgPtr := []
  msgCounter : ℕ := 0

namespace WireBuffer

variable (H : HeapOps MsgPtr (ℕ ×ₗ ℕ)) (B : WireBuffer) (m : MsgPtr)

def key : ℕ ×ₗ ℕ := (B.msgs m).key

def time : ℕ := (B.msgs m).lastEnqueueTime

def setTime (time : ℕ) : MsgPtr → Message :=
  Function.update B.msgs m { B.msgs m with lastEnqueueTime := time }

def isReady (currentTime : ℕ) : Bool :=
  match B.messageQueue with
  | [] => false
  | m :: _ => B.time m ≤ currentTime

/-- The message is appended; the heap is not restored. -/
def enqueue (currentTime delta : ℕ) : Option WireBuffer :=
  if currentTime < currentTime + delta then
    some
      { msgs := B.setTime m (currentTime + delta)
        messageQueue := B.messageQueue ++ [m]
        msgCounter := B.msgCounter + 1 }
  else none

def peek : Option MsgPtr := B.messageQueue.head?

def dequeue (currentTime : ℕ) : Option WireBuffer :=
  if B.isReady currentTime
    then some { B with messageQueue := (H.pop B.key B.messageQueue).dropLast } else none

def recycle (currentTime recycleLatency : ℕ) : Option WireBuffer :=
  match B.messageQueue with
  | [] => none
  | m :: _ =>
    if B.isReady currentTime then
      let msgs := B.setTime m (currentTime + recycleLatency)
      some { B with
        msgs := msgs
        messageQueue :=
          H.push (fun m => (msgs m).key) ((H.pop B.key B.messageQueue).dropLast ++ [m]) }
    else none

/-! ## Operations on heaps -/

variable {H B m} {B' : WireBuffer} {t latency : ℕ} {rest : List MsgPtr}

theorem setTime_self (time : ℕ) : (B.setTime m time m).lastEnqueueTime = time := by
  unfold setTime
  rw [Function.update_self]

theorem setTime_of_ne (time : ℕ) {x : MsgPtr} (hne : x ≠ m) : B.setTime m time x = B.msgs x :=
  Function.update_of_ne hne _ _

theorem time_le_of_key_le {x y : MsgPtr} (h : B.key x ≤ B.key y) : B.time x ≤ B.time y := by
  rcases Prod.Lex.toLex_le_toLex.1 h with hlt | ⟨heq, -⟩
  · exact hlt.le
  · exact heq.le

theorem enqueue_eq_some {delta : ℕ} (hB : B.enqueue m t delta = some B') :
    B' = { msgs := B.setTime m (t + delta), messageQueue := B.messageQueue ++ [m],
           msgCounter := B.msgCounter + 1 } := by
  unfold enqueue at hB
  split at hB
  · exact (some.inj hB).symm
  · cases hB

theorem front_of_isReady (h : B.isReady t = true) : ∃ m rest, B.messageQueue = m :: rest := by
  unfold isReady at h
  cases hqueue : B.messageQueue with
  | nil =>
    rw [hqueue] at h
    cases h
  | cons m rest => exact ⟨m, rest, rfl⟩

/-- The front leaves, and the others stay in heap order. -/
theorem dequeue_spec (hheap : IsHeap B.key B.messageQueue) (hB : B.dequeue H t = some B') :
    ∃ m rest, B.messageQueue = m :: rest ∧ B'.msgs = B.msgs ∧ B'.messageQueue ~ rest
      ∧ IsHeap B'.key B'.messageQueue := by
  rcases ite_none_right_eq_some.1 hB with ⟨hready, hB⟩
  rcases front_of_isReady hready with ⟨m, rest, hqueue⟩
  rw [hqueue] at hheap
  rcases H.pop_front B.key m rest hheap with ⟨ys, hpop, hperm, hys⟩
  cases hB
  rw [hqueue, hpop, dropLast_concat]
  exact ⟨m, rest, rfl, rfl, hperm, hys⟩

/-- The front gets a new time and goes back to its place in heap order. -/
theorem recycle_spec (hheap : IsHeap B.key B.messageQueue) (hnodup : B.messageQueue.Nodup)
    (hB : B.recycle H t latency = some B') :
    ∃ m rest, B.messageQueue = m :: rest ∧ B'.msgs = B.setTime m (t + latency)
      ∧ B'.messageQueue ~ B.messageQueue ∧ IsHeap B'.key B'.messageQueue := by
  unfold recycle at hB
  cases hqueue : B.messageQueue with
  | nil =>
    rw [hqueue] at hB
    cases hB
  | cons m rest =>
    rw [hqueue] at hheap hnodup hB
    rcases ite_none_right_eq_some.1 hB with ⟨-, hB⟩
    rcases H.pop_front B.key m rest hheap with ⟨ys, hpop, hperm, hys⟩
    rw [hpop, dropLast_concat] at hB
    cases hB
    -- the keys of the others have not changed
    have hother : ∀ x ∈ ys, (B.setTime m (t + latency) x).key = B.key x := by
      intro x hx
      have hne : x ≠ m := by
        rintro rfl
        exact (nodup_cons.1 hnodup).1 (hperm.mem_iff.1 hx)
      exact congrArg Message.key (setTime_of_ne _ hne)
    have hys' := hys.congr hother
    have hpush := H.push_perm _ ys m hys'
    refine ⟨m, rest, rfl, rfl, ?_, H.push_heap _ ys m hys'⟩
    exact hpush.trans ((perm_append_singleton m ys).trans (hperm.cons m))

end WireBuffer

open WireBuffer

/-! ## Runs -/

inductive WireCall
  | enqueue (m : MsgPtr) (t delta : ℕ)
  | dequeue (t : ℕ)
  | recycle (t latency : ℕ)
  deriving DecidableEq, Repr

/-- A wire buffer with the messages that have come and gone. -/
structure WireSession where
  buffer : WireBuffer
  enqueued : List MsgPtr := []
  dequeued : List MsgPtr := []

namespace WireSession

variable (H : HeapOps MsgPtr (ℕ ×ₗ ℕ)) (S : WireSession) {m : MsgPtr}

def start (msgs : MsgPtr → Message) : WireSession := { buffer := { msgs := msgs } }

def step : WireCall → Option WireSession
  | .enqueue m t delta =>
    (S.buffer.enqueue m t delta).map fun B => { S with buffer := B, enqueued := S.enqueued ++ [m] }
  | .dequeue t =>
    (S.buffer.dequeue H t).map fun B =>
      { S with buffer := B, dequeued := S.dequeued ++ S.buffer.messageQueue.take 1 }
  | .recycle t latency => (S.buffer.recycle H t latency).map fun B => { S with buffer := B }

/-- `peek` returns a message with the least arrival time. -/
def PeekLeast : Prop :=
  ∀ m ∈ S.buffer.peek, ∀ x ∈ S.buffer.messageQueue, S.buffer.time m ≤ S.buffer.time x

instance : Decidable S.PeekLeast :=
  inferInstanceAs (Decidable (∀ m ∈ S.buffer.peek, ∀ x ∈ S.buffer.messageQueue, _))

/-- A message object is enqueued only while it is not in the buffer. -/
def Fresh : WireCall → Prop
  | .enqueue m _ _ => m ∉ S.buffer.messageQueue
  | _ => True

instance : ∀ c, Decidable (S.Fresh c)
  | .enqueue m _ _ => inferInstanceAs (Decidable (m ∉ S.buffer.messageQueue))
  | .dequeue _ | .recycle .. => isTrue trivial

/-- The new message has no smaller key than its parent in the array. -/
def AboveParent : WireCall → Prop
  | .enqueue m t delta =>
    ∀ x ∈ S.buffer.messageQueue[(S.buffer.messageQueue.length - 1) / 2]?,
      S.buffer.key x ≤ ({ S.buffer.msgs m with lastEnqueueTime := t + delta } : Message).key
  | _ => True

instance : ∀ c, Decidable (S.AboveParent c)
  | .enqueue _ _ _ =>
    inferInstanceAs
      (Decidable (∀ x ∈ S.buffer.messageQueue[(S.buffer.messageQueue.length - 1) / 2]?, _ ≤ _))
  | .dequeue _ | .recycle .. => isTrue trivial

/-- Arrival times do not go down along the queue: a new message arrives last, a recycled one
first. -/
def NonDecreasing : WireCall → Prop
  | .enqueue _ t delta => ∀ x ∈ S.buffer.messageQueue, S.buffer.time x ≤ t + delta
  | .dequeue _ => True
  | .recycle t latency => ∀ x ∈ S.buffer.messageQueue.tail, t + latency ≤ S.buffer.time x

instance : ∀ c, Decidable (S.NonDecreasing c)
  | .enqueue _ _ _ => inferInstanceAs (Decidable (∀ x ∈ S.buffer.messageQueue, _ ≤ _))
  | .dequeue _ => isTrue trivial
  | .recycle _ _ => inferInstanceAs (Decidable (∀ x ∈ S.buffer.messageQueue.tail, _ ≤ _))

/-- No other message that is queued has the new arrival time. -/
def Untied : WireCall → Prop
  | .enqueue _ t delta => ∀ x ∈ S.buffer.messageQueue, S.buffer.time x ≠ t + delta
  | .dequeue _ => True
  | .recycle t latency => ∀ x ∈ S.buffer.messageQueue.tail, S.buffer.time x ≠ t + latency

instance : ∀ c, Decidable (S.Untied c)
  | .enqueue _ _ _ => inferInstanceAs (Decidable (∀ x ∈ S.buffer.messageQueue, _ ≠ _))
  | .dequeue _ => isTrue trivial
  | .recycle _ _ => inferInstanceAs (Decidable (∀ x ∈ S.buffer.messageQueue.tail, _ ≠ _))

variable {H S} {S' : WireSession} {c : WireCall}

/-- The array is a heap of different messages. -/
structure Heaped (S : WireSession) : Prop where
  heap : IsHeap S.buffer.key S.buffer.messageQueue
  nodup : S.buffer.messageQueue.Nodup

theorem heaped_start (msgs : MsgPtr → Message) : (start msgs).Heaped := ⟨isHeap_nil _, nodup_nil⟩

theorem Heaped.peekLeast (h : S.Heaped) : S.PeekLeast := by
  intro m hm x hx
  have hheap := h.heap
  cases hqueue : S.buffer.messageQueue with
  | nil =>
    rw [hqueue] at hx
    cases hx
  | cons front rest =>
    have hfront : front = m := by
      unfold peek at hm
      rw [hqueue] at hm
      exact some.inj hm
    rw [hqueue] at hheap hx
    exact hfront ▸ time_le_of_key_le (hheap.front_le hx)

theorem Heaped.enqueue (h : S.Heaped) {t delta : ℕ} {B : WireBuffer}
    (hfresh : m ∉ S.buffer.messageQueue) (hparent : S.AboveParent (.enqueue m t delta))
    (hB : S.buffer.enqueue m t delta = some B) :
    IsHeap B.key B.messageQueue ∧ B.messageQueue.Nodup := by
  rw [enqueue_eq_some hB]
  have hkey : ∀ x ∈ S.buffer.messageQueue, (S.buffer.setTime m (t + delta) x).key =
      S.buffer.key x := by
    intro x hx
    have hne : x ≠ m := fun heq => hfresh (heq ▸ hx)
    exact congrArg Message.key (setTime_of_ne _ hne)
  refine ⟨(h.heap.congr hkey).append fun x hx => ?_, ?_⟩
  · have hself : S.buffer.setTime m (t + delta) m =
        { S.buffer.msgs m with lastEnqueueTime := t + delta } :=
      Function.update_self ..
    rw [hkey x (mem_of_getElem? hx), hself]
    exact hparent x hx
  · exact (perm_append_singleton m _).nodup_iff.2 (nodup_cons.2 ⟨hfresh, h.nodup⟩)

theorem Heaped.step (h : S.Heaped) (hfresh : S.Fresh c) (hparent : S.AboveParent c)
    (hS : S.step H c = some S') : S'.Heaped := by
  cases c with
  | enqueue m t delta =>
    rcases map_eq_some_iff.1 hS with ⟨B, hB, rfl⟩
    rcases h.enqueue hfresh hparent hB with ⟨hheap, hnodup⟩
    exact ⟨hheap, hnodup⟩
  | dequeue t =>
    rcases map_eq_some_iff.1 hS with ⟨B, hB, rfl⟩
    rcases dequeue_spec h.heap hB with ⟨m, rest, hqueue, -, hperm, hheap⟩
    have hnodup := h.nodup
    rw [hqueue] at hnodup
    exact ⟨hheap, hperm.nodup_iff.2 (nodup_cons.1 hnodup).2⟩
  | recycle t latency =>
    rcases map_eq_some_iff.1 hS with ⟨B, hB, rfl⟩
    rcases recycle_spec h.heap h.nodup hB with ⟨m, rest, -, -, hperm, hheap⟩
    exact ⟨hheap, hperm.nodup_iff.2 h.nodup⟩

/-- The queue in the order of arrival times is what has come and not gone. -/
structure Lined (S : WireSession) (W : List MsgPtr) : Prop where
  heaped : S.Heaped
  perm : W ~ S.buffer.messageQueue
  sorted : W.Pairwise fun x y => S.buffer.time x < S.buffer.time y
  history : S.enqueued = S.dequeued ++ W

/-- The front of the array is the first message of the queue. -/
theorem Lined.front {W rest : List MsgPtr} (h : S.Lined W)
    (hqueue : S.buffer.messageQueue = m :: rest) : ∃ W', W = m :: W' ∧ W' ~ rest := by
  have hm : m ∈ W := h.perm.mem_iff.2 (hqueue ▸ mem_cons_self)
  cases W with
  | nil => cases hm
  | cons x W' =>
    have hx : x = m := by
      by_contra hne
      have hlt : S.buffer.time x < S.buffer.time m :=
        rel_of_pairwise_cons h.sorted ((mem_cons.1 hm).resolve_left (Ne.symm hne))
      have hle : S.buffer.time m ≤ S.buffer.time x := by
        refine h.heaped.peekLeast m ?_ x (h.perm.mem_iff.1 mem_cons_self)
        unfold peek
        rw [hqueue]
        rfl
      exact absurd hlt hle.not_gt
    subst hx
    have hperm := h.perm
    rw [hqueue] at hperm
    exact ⟨W', rfl, hperm.cons_inv⟩

theorem Lined.step {W : List MsgPtr} (h : S.Lined W) (hfresh : S.Fresh c)
    (horder : S.NonDecreasing c) (huntied : S.Untied c) (hS : S.step H c = some S') :
    ∃ W', S'.Lined W' := by
  have hqueue_of_mem : ∀ x ∈ W, x ∈ S.buffer.messageQueue := fun x hx => h.perm.mem_iff.1 hx
  cases c with
  | enqueue m t delta =>
    -- the new message arrives after all the others
    have hlt : ∀ x ∈ S.buffer.messageQueue, S.buffer.time x < t + delta :=
      fun x hx => lt_of_le_of_ne (horder x hx) (huntied x hx)
    have hparent : S.AboveParent (.enqueue m t delta) := fun x hx =>
      Prod.Lex.toLex_le_toLex.2 (.inl (hlt x (mem_of_getElem? hx)))
    have hheaped := h.heaped.step hfresh hparent hS
    rcases map_eq_some_iff.1 hS with ⟨B, hB, rfl⟩
    have hBeq := enqueue_eq_some hB
    have htime : ∀ x ∈ W, B.time x = S.buffer.time x := by
      intro x hx
      have hne : x ≠ m := fun heq => hfresh (heq ▸ hqueue_of_mem x hx)
      rw [hBeq]
      exact congrArg Message.lastEnqueueTime (setTime_of_ne _ hne)
    have hnew : B.time m = t + delta := by
      rw [hBeq]
      exact setTime_self _
    refine ⟨W ++ [m], hheaped, ?_, ?_, ?_⟩
    · rw [hBeq]
      exact h.perm.append_right [m]
    · refine pairwise_append.2 ⟨?_, pairwise_singleton _ _, fun x hx y hy => ?_⟩
      · refine List.Pairwise.imp_of_mem (fun {x y} hx hy hxy => ?_) h.sorted
        rw [htime x hx, htime y hy]
        exact hxy
      · rw [mem_singleton.1 hy, htime x hx, hnew]
        exact hlt x (hqueue_of_mem x hx)
    · rw [h.history, append_assoc]
  | dequeue t =>
    have hheaped := h.heaped.step hfresh trivial hS
    rcases map_eq_some_iff.1 hS with ⟨B, hB, rfl⟩
    rcases dequeue_spec h.heaped.heap hB with ⟨m, rest, hqueue, hmsgs, hperm, -⟩
    rcases h.front hqueue with ⟨W', rfl, hW'⟩
    refine ⟨W', hheaped, hW'.trans hperm.symm, ?_, ?_⟩
    · unfold time
      rw [hmsgs]
      exact (pairwise_cons.1 h.sorted).2
    · rw [h.history, hqueue, append_assoc]
      rfl
  | recycle t latency =>
    have hheaped := h.heaped.step hfresh trivial hS
    rcases map_eq_some_iff.1 hS with ⟨B, hB, rfl⟩
    rcases recycle_spec h.heaped.heap h.heaped.nodup hB with ⟨m, rest, hqueue, hmsgs, hperm, -⟩
    rcases h.front hqueue with ⟨W', rfl, hW'⟩
    have hnodup := h.heaped.nodup
    rw [hqueue] at hnodup
    have htime : ∀ x ∈ W', B.time x = S.buffer.time x := by
      intro x hx
      have hne : x ≠ m := by
        rintro rfl
        exact (nodup_cons.1 hnodup).1 (hW'.mem_iff.1 hx)
      unfold time
      rw [hmsgs, setTime_of_ne _ hne]
    have hnew : B.time m = t + latency := by
      unfold time
      rw [hmsgs]
      exact setTime_self _
    -- the recycled message is still the first to arrive
    refine ⟨m :: W', hheaped, h.perm.trans hperm.symm, pairwise_cons.2 ⟨fun x hx => ?_, ?_⟩,
      h.history⟩
    · have hx' : x ∈ S.buffer.messageQueue.tail := by
        rw [hqueue]
        exact hW'.mem_iff.1 hx
      rw [hnew, htime x hx]
      exact lt_of_le_of_ne (horder x hx') (Ne.symm (huntied x hx'))
    · refine List.Pairwise.imp_of_mem (fun {x y} hx hy hxy => ?_) (pairwise_cons.1 h.sorted).2
      rw [htime x hx, htime y hy]
      exact hxy

/-- `peek` returns the least arrival time in every run in which new messages are not smaller than
their parents in the array. Messages whose arrival times do not go down leave in the order in which
they came, if no two that are queued have the same time. -/
theorem wire_order (H : HeapOps MsgPtr (ℕ ×ₗ ℕ)) (msgs : MsgPtr → Message) (calls : List WireCall)
    (hfresh : Throughout (step H) Fresh (start msgs) calls) :
    (Throughout (step H) AboveParent (start msgs) calls →
      Always (step H) PeekLeast (start msgs) calls)
        ∧ (Throughout (step H) (fun S c => S.NonDecreasing c ∧ S.Untied c) (start msgs) calls →
        Always (step H) (fun S => S.dequeued <+: S.enqueued) (start msgs) calls) := by
  constructor
  · intro hparent
    exact Always.of_throughout (fun _ => Heaped.peekLeast)
      (fun _ _ _ h hc => Heaped.step h hc.1 hc.2) (heaped_start msgs) (hfresh.and hparent)
  · intro horder
    have hstep : ∀ (S : WireSession) (c : WireCall) (S' : WireSession), (∃ W, S.Lined W) →
        S.Fresh c ∧ S.NonDecreasing c ∧ S.Untied c → S.step H c = some S' → ∃ W, S'.Lined W :=
      fun S c S' ⟨W, h⟩ hc hS => h.step hc.1 hc.2.1 hc.2.2 hS
    have hprefix : ∀ S : WireSession, (∃ W, S.Lined W) → S.dequeued <+: S.enqueued :=
      fun S ⟨W, h⟩ => ⟨W, h.history.symm⟩
    have hinv : ∃ W, (start msgs).Lined W :=
      ⟨[], heaped_start msgs, List.Perm.refl _, List.Pairwise.nil, rfl⟩
    exact Always.of_throughout hprefix hstep hinv (hfresh.and horder)

/-- Three messages that arrive one after the other; the first is recycled before it leaves. -/
def recycling : List WireCall :=
  [.enqueue 0 0 2, .enqueue 1 0 5, .enqueue 2 1 6, .recycle 2 1, .dequeue 3, .dequeue 5,
    .enqueue 3 6 4]

theorem wire_order_recycling :
    Always (step (HeapOps.sorting MsgPtr (ℕ ×ₗ ℕ))) PeekLeast
      (start fun _ => { lastEnqueueTime := 0 }) recycling
        ∧ Always (step (HeapOps.sorting MsgPtr (ℕ ×ₗ ℕ))) (fun S => S.dequeued <+: S.enqueued)
        (start fun _ => { lastEnqueueTime := 0 }) recycling :=
  ⟨(wire_order _ _ recycling (by decide)).1 (by decide),
    (wire_order _ _ recycling (by decide)).2 (by decide)⟩

/-- A message with a smaller latency stays behind one with a larger latency: `peek` returns message
0, which arrives at tick 10, although message 1 arrives at tick 5. -/
theorem peek_not_least :
    (([.enqueue 0 0 10, .enqueue 1 0 5] : List WireCall).foldlM
        (step (HeapOps.sorting MsgPtr (ℕ ×ₗ ℕ))) (start fun _ => { lastEnqueueTime := 0 })).map
          (fun S => (S.buffer.peek, S.buffer.time 0, S.buffer.time 1, decide S.PeekLeast))
      = some (some 0, 10, 5, false) := by
  decide

end WireSession
end EnocGem5.Ruby
