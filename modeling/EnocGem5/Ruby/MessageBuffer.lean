import EnocGem5.Lib.Heap
import EnocGem5.Lib.Run

/-!
# MessageBuffer — the message buffers of Ruby

A message buffer holds messages in a heap (`m_prio_heap`), ordered by the time at which they may be
dequeued and, among equal times, by a counter. A message that cannot be handled is moved to the
stall map, from which `reanalyzeMessages` puts it back.

Time and counter are stored in the message objects, which the buffer shares with its users. So the
heap is an array of references, and the objects are part of the state. The heap operations of the
standard library are a parameter (`Lib.HeapOps`). `none` stands for an assertion that fails, or for
the panic of `enqueue`. Ticks and `m_msg_counter`, 64 bits wide in the source, are natural numbers
that never wrap.
-/

namespace EnocGem5.Ruby

open Lib List Function Option

/-! ## Messages -/

/-- `Message`: the part that buffers read and write. -/
structure Message where
  lastEnqueueTime : ℕ
  delayedTicks : ℕ := 0
  msgCounter : ℕ := 0
  deriving DecidableEq, Repr

namespace Message

/-- `operator>` compares times, and counters of equal times. -/
def key (m : Message) : ℕ ×ₗ ℕ := toLex (m.lastEnqueueTime, m.msgCounter)

/-- `updateDelayedTicks`, after its assertion. -/
def updateDelayedTicks (m : Message) (curTime : ℕ) : Message :=
  { m with delayedTicks := m.delayedTicks + (curTime - m.lastEnqueueTime) }

end Message

abbrev MsgPtr := ℕ

/-! ## The stall map -/

/-- `std::map<Addr, std::list<MsgPtr>>`, in the order of its addresses. -/
abbrev StallMap := List (ℕ × List MsgPtr)

namespace StallMap

/-- `m_stall_msg_map[addr].push_back(message)`. -/
def pushBack : StallMap → ℕ → MsgPtr → StallMap
  | [], addr, message => [(addr, [message])]
  | (a, ms) :: rest, addr, message =>
    if addr < a then (addr, [message]) :: (a, ms) :: rest
    else if addr = a then (a, ms ++ [message]) :: rest
    else (a, ms) :: pushBack rest addr message

variable (map : StallMap)

def messages (addr : ℕ) : List MsgPtr := (map.filter (·.1 = addr)).flatMap (·.2)

def erase (addr : ℕ) : StallMap := map.filter (·.1 ≠ addr)

def all : List MsgPtr := map.flatMap (·.2)

def Sorted : Prop := (map.map (·.1)).Pairwise (· < ·)

variable {map : StallMap} {addr other : ℕ} {m : MsgPtr}

theorem all_pushBack (map : StallMap) (addr : ℕ) (m : MsgPtr) :
    (map.pushBack addr m).all.Perm (m :: map.all) := by
  fun_induction map.pushBack addr m with
  | case1 => exact List.Perm.refl _
  | case2 => exact List.Perm.refl _
  | case3 ms rest a m =>
    -- the message goes behind those of its address
    change ((ms ++ [m]) ++ StallMap.all rest).Perm (m :: (ms ++ StallMap.all rest))
    rw [append_assoc]
    exact perm_middle
  | case4 a ms rest addr m _ _ ih => exact (Perm.append_left ms ih).trans perm_middle

theorem all_erase (map : StallMap) (addr : ℕ) :
    map.all.Perm (map.messages addr ++ (map.erase addr).all) := by
  have hsplit := filter_append_perm (fun entry : ℕ × List MsgPtr => decide (entry.1 = addr)) map
  have hflat := hsplit.symm.flatMap_right (·.2)
  rw [flatMap_append] at hflat
  have herase : map.erase addr = map.filter fun entry => !decide (entry.1 = addr) := by
    unfold erase
    congr 1
    funext entry
    exact decide_not
  rw [all, all, herase]
  exact hflat

theorem messages_cons (entry : ℕ × List MsgPtr) (rest : StallMap) :
    StallMap.messages (entry :: rest) addr
      = (if entry.1 = addr then entry.2 else []) ++ StallMap.messages rest addr := by
  unfold messages
  by_cases h : entry.1 = addr
  · simp [h]
  · simp [h]

theorem messages_eq_nil (h : ∀ entry ∈ map, entry.1 ≠ addr) : map.messages addr = [] := by
  unfold messages
  rw [filter_eq_nil_iff.2 fun entry hentry => by simpa using h entry hentry]
  rfl

theorem lt_of_mem_pushBack {bound : ℕ} (h : ∀ entry ∈ map, bound < entry.1) (haddr : bound < addr) :
    ∀ entry ∈ map.pushBack addr m, bound < entry.1 := by
  fun_induction map.pushBack addr m with
  | case1 => exact forall_mem_singleton.2 haddr
  | case2 => exact forall_mem_cons.2 ⟨haddr, h⟩
  | case3 => exact forall_mem_cons.2 (forall_mem_cons.1 h)
  | case4 a ms rest addr m _ _ ih =>
    rcases forall_mem_cons.1 h with ⟨hfirst, hrest⟩
    exact forall_mem_cons.2 ⟨hfirst, ih hrest haddr⟩

theorem sorted_nil : StallMap.Sorted [] := List.Pairwise.nil

theorem all_perm_nil (map : StallMap) : map.all.Perm (map.all ++ StallMap.all []) :=
  .of_eq (append_nil _).symm

theorem sorted_cons {entry : ℕ × List MsgPtr} {rest : StallMap} :
    StallMap.Sorted (entry :: rest) ↔ (∀ other ∈ rest, entry.1 < other.1)
    ∧ StallMap.Sorted rest := by
  unfold Sorted
  rw [map_cons, pairwise_cons]
  exact and_congr_left' forall_mem_map

theorem Sorted.pushBack (h : map.Sorted) : (map.pushBack addr m).Sorted := by
  fun_induction map.pushBack addr m with
  | case1 => exact pairwise_singleton _ _
  | case2 a ms rest addr m hlt =>
    have hfirst := (sorted_cons.1 h).1
    exact sorted_cons.2 ⟨forall_mem_cons.2 ⟨hlt,
      fun other hother => hlt.trans (hfirst other hother)⟩, h⟩
  | case3 => exact sorted_cons.2 (sorted_cons.1 h)
  | case4 a ms rest addr m hge hne ih =>
    rcases sorted_cons.1 h with ⟨hfirst, hrest⟩
    exact sorted_cons.2 ⟨lt_of_mem_pushBack hfirst (by omega), ih hrest⟩

theorem Sorted.erase (h : map.Sorted) : (map.erase addr).Sorted :=
  List.Pairwise.sublist (List.Sublist.map _ filter_sublist) h

/-- The message is the last one of its address. -/
theorem Sorted.messages_pushBack (h : map.Sorted) :
    (map.pushBack addr m).messages addr = map.messages addr ++ [m] := by
  fun_induction map.pushBack addr m with
  | case1 => simp [messages]
  | case2 a ms rest addr m hlt =>
    -- nothing was stalled for the address
    have hnil : StallMap.messages ((a, ms) :: rest) addr = [] := by
      have hfirst := (sorted_cons.1 h).1
      exact messages_eq_nil (forall_mem_cons.2
        ⟨hlt.ne', fun other hother => (hlt.trans (hfirst other hother)).ne'⟩)
    rw [messages_cons, hnil, if_pos rfl]
    rfl
  | case3 ms rest a m =>
    have hnil : StallMap.messages rest a = [] :=
      messages_eq_nil fun other hother => ((sorted_cons.1 h).1 other hother).ne'
    rw [messages_cons, messages_cons, hnil, if_pos rfl, if_pos rfl, append_nil, append_nil]
  | case4 a ms rest addr m _ _ ih =>
    rw [messages_cons, messages_cons, ih (sorted_cons.1 h).2, append_assoc]

theorem messages_pushBack_of_ne (hne : other ≠ addr) :
    (map.pushBack addr m).messages other = map.messages other := by
  fun_induction map.pushBack addr m with
  | case1 => simp [messages, hne.symm]
  | case2 =>
    rw [messages_cons, if_neg hne.symm]
    rfl
  | case3 => rw [messages_cons, messages_cons, if_neg hne.symm, if_neg hne.symm]
  | case4 a ms rest addr m _ _ ih => rw [messages_cons, messages_cons, ih hne]

theorem messages_erase_self : (map.erase addr).messages addr = [] :=
  messages_eq_nil fun _ hentry => of_decide_eq_true (mem_filter.1 hentry).2

theorem messages_erase_of_ne (hne : other ≠ addr) :
    (map.erase addr).messages other = map.messages other := by
  unfold messages erase
  rw [List.filter_filter]
  congr 2
  funext entry
  rw [← Bool.decide_and]
  exact decide_eq_decide.2 ⟨fun h => h.1, fun h => ⟨h, h ▸ hne⟩⟩

end StallMap

/-! ## Buffers -/

/-- The constants of a buffer. Times are randomized if both the Ruby system and the buffer ask for
it. -/
structure BufferConfig where
  maxSize : ℕ
  strictFifo : Bool
  randomization : Bool
  blockSizeBits : ℕ

structure MessageBuffer where
  msgs : MsgPtr → Message
  prioHeap : List MsgPtr := []
  stallMsgMap : StallMap := []
  stallMapSize : ℤ := 0
  timeLastTimeEnqueue : ℕ := 0
  timeLastTimePop : ℕ := 0
  lastArrivalTime : ℕ := 0
  sizeAtCycleStart : ℕ := 0
  msgsThisCycle : ℕ := 0
  msgCounter : ℕ := 0

namespace MessageBuffer

variable (H : HeapOps MsgPtr (ℕ ×ₗ ℕ)) (cfg : BufferConfig) (B : MessageBuffer)
  {ms rest : List MsgPtr}

def key (m : MsgPtr) : ℕ ×ₗ ℕ := (B.msgs m).key

def isReady (currentTime : ℕ) : Bool :=
  match B.prioHeap with
  | [] => false
  | m :: _ => (B.msgs m).lastEnqueueTime ≤ currentTime

/-- The size that enqueues of this cycle see. -/
def visibleSize (currentTime : ℕ) : ℕ :=
  if B.timeLastTimePop < currentTime then B.prioHeap.length % 2 ^ 32
  else if B.timeLastTimeEnqueue < currentTime then B.sizeAtCycleStart
  else (B.sizeAtCycleStart + B.msgsThisCycle) % 2 ^ 32

/-- The sum and the comparison are those of `unsigned int`. -/
def areNSlotsAvailable (n currentTime : ℕ) : Bool :=
  cfg.maxSize = 0 || ((B.visibleSize currentTime : ℤ) + B.stallMapSize + n) % 2 ^ 32 ≤ cfg.maxSize

def setMsg (m : MsgPtr) (message : Message) : MsgPtr → Message := Function.update B.msgs m message

def pushHeap (m : MsgPtr) (message : Message) : MessageBuffer :=
  let msgs := B.setMsg m message
  { B with
    msgs := msgs
    prioHeap := H.push (fun m => (msgs m).key) (B.prioHeap ++ [m]) }

def popHeap : MessageBuffer := { B with prioHeap := (H.pop B.key B.prioHeap).dropLast }

/-- `random` is what `random_time` adds to 1. -/
def arrivalTime (currentTime delta random : ℕ) : ℕ :=
  if cfg.randomization then
    if cfg.strictFifo then max B.lastArrivalTime currentTime + (1 + random)
    else currentTime + (1 + random)
  else currentTime + delta

/-- The value of `m_last_arrival_time` when the arrival time is checked. -/
def lastArrival (currentTime : ℕ) : ℕ :=
  if cfg.randomization && cfg.strictFifo then max B.lastArrivalTime currentTime
    else B.lastArrivalTime

/-- The counters of a cycle, at its first enqueue and later. -/
def countEnqueue (currentTime : ℕ) : MessageBuffer :=
  { B with
    msgsThisCycle :=
      ((if B.timeLastTimeEnqueue < currentTime then 0 else B.msgsThisCycle) + 1) % 2 ^ 32
    timeLastTimeEnqueue := max B.timeLastTimeEnqueue currentTime
    msgCounter := B.msgCounter + 1 }

/-- `warmup` is `RubySystem::getWarmupEnabled()`. -/
def enqueue (warmup : Bool) (m : MsgPtr) (currentTime delta random : ℕ) : Option MessageBuffer :=
  let arrival := B.arrivalTime cfg currentTime delta random
  let last := B.lastArrival cfg currentTime
  if 0 < delta ∧ currentTime < arrival ∧ (cfg.strictFifo = true → last ≤ arrival)
      ∧ (B.msgs m).lastEnqueueTime ≤ currentTime then
    let message :=
      { (B.msgs m).updateDelayedTicks currentTime with
        lastEnqueueTime := arrival
        msgCounter := B.msgCounter + 1 }
    some { (B.countEnqueue currentTime).pushHeap H m message with
      lastArrivalTime := if warmup then last else arrival }
  else none

/-- What `dequeue` records at the first pop of a cycle. -/
def countPop (currentTime : ℕ) : MessageBuffer :=
  { B with
    sizeAtCycleStart :=
      if B.timeLastTimePop < currentTime then B.prioHeap.length % 2 ^ 32 else B.sizeAtCycleStart
    timeLastTimePop := max B.timeLastTimePop currentTime }

/-- The buffer and the delay of the message. -/
def dequeue (currentTime : ℕ) : Option (ℕ × MessageBuffer) :=
  match B.prioHeap with
  | [] => none
  | m :: _ =>
    if B.isReady currentTime then
      let message := (B.msgs m).updateDelayedTicks currentTime
      let B := { B with msgs := B.setMsg m message }
      some (message.delayedTicks, (B.countPop currentTime).popHeap H)
    else none

def recycle (currentTime recycleLatency : ℕ) : Option MessageBuffer :=
  match B.prioHeap with
  | [] => none
  | m :: _ =>
    if B.isReady currentTime then
      let message := { B.msgs m with lastEnqueueTime := currentTime + recycleLatency }
      some ((B.popHeap H).pushHeap H m message)
    else none

/-- `reanalyzeList` on one message. -/
def reanalyze (schdTick : ℕ) (B : MessageBuffer) (m : MsgPtr) : MessageBuffer :=
  let message := { B.msgs m with lastEnqueueTime := schdTick, msgCounter := B.msgCounter + 1 }
  { B with msgCounter := B.msgCounter + 1 }.pushHeap H m message

def reanalyzeList (ms : List MsgPtr) (schdTick : ℕ) : MessageBuffer :=
  ms.foldl (reanalyze H schdTick) B

def reanalyzeMessages (addr currentTime : ℕ) : Option MessageBuffer :=
  if B.stallMsgMap.any (·.1 = addr) then
    let ms := B.stallMsgMap.messages addr
    let size := B.stallMapSize - ms.length
    if 0 ≤ size then
      some { { B with stallMapSize := size }.reanalyzeList H ms currentTime with
        stallMsgMap := B.stallMsgMap.erase addr }
    else none
  else none

/-- The loop of `reanalyzeAllMessages` on one entry of the stall map. -/
def reanalyzeEntry (currentTime : ℕ) (B : MessageBuffer) (entry : ℕ × List MsgPtr) :
    Option MessageBuffer :=
  let size := B.stallMapSize - entry.2.length
  if 0 ≤ size then some ({ B with stallMapSize := size }.reanalyzeList H entry.2 currentTime)
    else none

def reanalyzeAllMessages (currentTime : ℕ) : Option MessageBuffer :=
  (B.stallMsgMap.foldlM (reanalyzeEntry H currentTime) B).map fun B => { B with stallMsgMap := [] }

def stallMessage (addr currentTime : ℕ) : Option MessageBuffer :=
  match B.prioHeap with
  | [] => none
  | m :: _ =>
    if addr % 2 ^ cfg.blockSizeBits = 0 then
      (B.dequeue H currentTime).map fun (_, B) =>
        { B with
          stallMsgMap := B.stallMsgMap.pushBack addr m
          stallMapSize := B.stallMapSize + 1 }
    else none

/-! ## The heap -/

/-- The heap is in order, and its messages are different ones with different counters. -/
structure Heaped : Prop where
  heap : IsHeap B.key B.prioHeap
  nodup : B.prioHeap.Nodup
  bounded : ∀ m ∈ B.prioHeap, (B.msgs m).msgCounter ≤ B.msgCounter
  distinct : (B.prioHeap.map fun m => (B.msgs m).msgCounter).Nodup

variable {H cfg B} {B' : MessageBuffer} {m m' : MsgPtr} {warmup : Bool}
  {delta random delay addr t latency : ℕ}

theorem key_lt_of_ne (h : B.Heaped) (hm : m ∈ B.prioHeap) (hm' : m' ∈ B.prioHeap) (hne : m ≠ m')
    (hle : B.key m ≤ B.key m') : B.key m < B.key m' := by
  refine lt_of_le_of_ne hle fun heq => hne ?_
  have hcounter : (B.msgs m).msgCounter = (B.msgs m').msgCounter :=
    congrArg (fun k => (ofLex k).2) heq
  exact inj_on_of_nodup_map h.distinct hm hm' hcounter

/-- The front is the one message with the least key. -/
theorem Heaped.front_lt (h : B.Heaped) (hheap : B.prioHeap = m :: rest)
    (hm' : m' ∈ rest) : B.key m < B.key m' := by
  have hfront : m ∈ B.prioHeap := hheap ▸ mem_cons_self
  have hother : m' ∈ B.prioHeap := hheap ▸ mem_cons_of_mem m hm'
  have hne : m ≠ m' := by
    rintro rfl
    exact (nodup_cons.1 (hheap ▸ h.nodup)).1 hm'
  refine key_lt_of_ne h hfront hother hne ?_
  have hheap' := h.heap
  rw [hheap] at hheap'
  exact hheap'.front_le (mem_cons_of_mem m hm')

/-- The messages of the buffer are the old ones and `m`, whose counter is new or was its own
before. -/
theorem Heaped.pushHeap (h : B.Heaped) (message : Message) (hm : m ∉ B.prioHeap)
    (hbound : message.msgCounter ≤ B.msgCounter)
    (hnew : ∀ m' ∈ B.prioHeap, (B.msgs m').msgCounter ≠ message.msgCounter) :
    (B.pushHeap H m message).Heaped ∧ (B.pushHeap H m message).prioHeap.Perm (m :: B.prioHeap) := by
  have hother : ∀ m' ∈ B.prioHeap, B.setMsg m message m' = B.msgs m' := by
    intro m' hm'
    exact update_of_ne (fun (heq : m' = m) => hm (heq ▸ hm')) _ _
  have hself : B.setMsg m message m = message := update_self ..
  have hheap : IsHeap (fun m' => (B.setMsg m message m').key) B.prioHeap :=
    h.heap.congr fun m' hm' => congrArg Message.key (hother m' hm')
  have hperm : (B.pushHeap H m message).prioHeap.Perm (m :: B.prioHeap) :=
    (H.push_perm _ B.prioHeap m hheap).trans (perm_append_singleton m B.prioHeap)
  have hmap : ((m :: B.prioHeap).map fun m' => (B.setMsg m message m').msgCounter)
      = message.msgCounter :: B.prioHeap.map fun m' => (B.msgs m').msgCounter := by
    rw [map_cons, hself]
    congr 1
    exact map_congr_left fun m' hm' => congrArg Message.msgCounter (hother m' hm')
  refine ⟨⟨H.push_heap _ B.prioHeap m hheap, ?_, ?_, ?_⟩, hperm⟩
  · exact hperm.nodup_iff.2 (nodup_cons.2 ⟨hm, h.nodup⟩)
  · intro m' hm'
    change (B.setMsg m message m').msgCounter ≤ B.msgCounter
    rcases mem_cons.1 (hperm.mem_iff.1 hm') with rfl | hm'
    · rw [hself]
      exact hbound
    · rw [hother m' hm']
      exact h.bounded m' hm'
  · refine (hperm.map _).nodup_iff.2 ?_
    change ((m :: B.prioHeap).map fun m' => (B.setMsg m message m').msgCounter).Nodup
    rw [hmap]
    refine nodup_cons.2 ⟨fun hmem => ?_, h.distinct⟩
    rcases mem_map.1 hmem with ⟨m', hm', heq⟩
    exact hnew m' hm' heq

/-- A change of the front's other fields and the removal of the front. -/
theorem Heaped.popHeap (h : B.Heaped) (hheap : B.prioHeap = m :: rest) :
    (B.popHeap H).Heaped ∧ (B.popHeap H).prioHeap.Perm rest := by
  have hheap' := h.heap
  rw [hheap] at hheap'
  rcases H.pop_front B.key m rest hheap' with ⟨ys, hpop, hperm, hys⟩
  have hprio : (B.popHeap H).prioHeap = ys := by
    change (H.pop B.key B.prioHeap).dropLast = ys
    rw [hheap, hpop, dropLast_concat]
  have hsub : ∀ m' ∈ ys, m' ∈ B.prioHeap := by
    intro m' hm'
    rw [hheap]
    exact mem_cons_of_mem m (hperm.mem_iff.1 hm')
  have hnodup := h.nodup
  have hdistinct := h.distinct
  rw [hheap] at hnodup hdistinct
  rw [hprio]
  refine ⟨⟨?_, ?_, ?_, ?_⟩, hperm⟩
  · rw [hprio]
    exact hys
  · rw [hprio]
    exact hperm.nodup_iff.2 (nodup_cons.1 hnodup).2
  · rw [hprio]
    exact fun m' hm' => h.bounded m' (hsub m' hm')
  · rw [hprio]
    exact (hperm.map _).nodup_iff.2 (nodup_cons.1 hdistinct).2

/-- Nothing depends on the delay of a message. -/
theorem Heaped.of_delay (h : B.Heaped) (message : Message) (hkey : message.key = (B.msgs m).key) :
    ({ B with msgs := B.setMsg m message } : MessageBuffer).Heaped := by
  have hsame : ∀ m', (B.setMsg m message m').key = (B.msgs m').key := by
    intro m'
    rw [setMsg, apply_update fun _ => Message.key, hkey, update_eq_self]
  have hcounter : ∀ m', (B.setMsg m message m').msgCounter = (B.msgs m').msgCounter :=
    fun m' => congrArg (fun k => (ofLex k).2) (hsame m')
  refine ⟨h.heap.congr fun m' _ => hsame m', h.nodup, fun m' hm' => ?_, ?_⟩
  · rw [hcounter]
    exact h.bounded m' hm'
  · simp only [hcounter]
    exact h.distinct

/-! ## Operations -/

theorem setMsg_self (message : Message) : B.setMsg m message m = message := update_self ..

theorem setMsg_of_ne (message : Message) (hne : m' ≠ m) : B.setMsg m message m' = B.msgs m' :=
  update_of_ne hne _ _

/-- The message as `enqueue` leaves it. -/
def stamped (B : MessageBuffer) (m : MsgPtr) (t arrival : ℕ) : Message :=
  { (B.msgs m).updateDelayedTicks t with
    lastEnqueueTime := arrival, msgCounter := B.msgCounter + 1 }

theorem enqueue_eq_some (hB : B.enqueue H cfg warmup m t delta random = some B') :
    t < B.arrivalTime cfg t delta random
      ∧ (cfg.strictFifo = true → B.lastArrival cfg t ≤ B.arrivalTime cfg t delta random)
      ∧ B' = { (B.countEnqueue t).pushHeap H m
            (B.stamped m t (B.arrivalTime cfg t delta random)) with
          lastArrivalTime := if warmup then B.lastArrival cfg t
              else B.arrivalTime cfg t delta random } := by
  unfold enqueue at hB
  dsimp only at hB
  split at hB
  case isTrue hcond => exact ⟨hcond.2.1, hcond.2.2.1, (some.inj hB).symm⟩
  case isFalse => cases hB

theorem Heaped.pushNext (h : B.Heaped) (message : Message) (hm : m ∉ B.prioHeap)
    (hcounter : message.msgCounter = B.msgCounter + 1) {C : MessageBuffer} (hmsgs : C.msgs = B.msgs)
    (hheap : C.prioHeap = B.prioHeap) (hnext : C.msgCounter = B.msgCounter + 1) :
    (C.pushHeap H m message).Heaped ∧ (C.pushHeap H m message).prioHeap.Perm (m :: B.prioHeap) := by
  have hC : C.Heaped := by
    refine ⟨?_, hheap ▸ h.nodup, fun m' hm' => ?_, ?_⟩
    · unfold MessageBuffer.key
      rw [hheap, hmsgs]
      exact h.heap
    · rw [hmsgs, hnext]
      exact (h.bounded m' (hheap ▸ hm')).trans (Nat.le_succ _)
    · rw [hheap, hmsgs]
      exact h.distinct
  have hbound : message.msgCounter ≤ C.msgCounter := (hcounter.trans hnext.symm).le
  have hnew : ∀ m' ∈ C.prioHeap, (C.msgs m').msgCounter ≠ message.msgCounter := by
    intro m' hm'
    have hle := h.bounded m' (hheap ▸ hm')
    rw [hmsgs, hcounter]
    omega
  have hpush := hC.pushHeap (H := H) message (hheap ▸ hm) hbound hnew
  rwa [hheap] at hpush

theorem Heaped.enqueue (h : B.Heaped) (hm : m ∉ B.prioHeap)
    (hB : B.enqueue H cfg warmup m t delta random = some B') :
    B'.Heaped ∧ B'.prioHeap.Perm (m :: B.prioHeap) := by
  rcases enqueue_eq_some hB with ⟨-, -, rfl⟩
  rcases h.pushNext (B.stamped m t (B.arrivalTime cfg t delta random)) hm rfl
    (C := B.countEnqueue t) rfl rfl rfl with ⟨hheaped, hperm⟩
  exact ⟨{ hheaped with }, hperm⟩

theorem isReady_of_cons (hheap : B.prioHeap = m :: rest) :
    B.isReady t = decide ((B.msgs m).lastEnqueueTime ≤ t) := by
  unfold isReady
  rw [hheap]

theorem dequeue_eq_some (hB : B.dequeue H t = some (delay, B')) :
    ∃ m rest, B.prioHeap = m :: rest ∧ (B.msgs m).lastEnqueueTime ≤ t
      ∧ B' = (({ B with msgs := B.setMsg m ((B.msgs m).updateDelayedTicks t) } :
      MessageBuffer).countPop t).popHeap H := by
  unfold dequeue at hB
  cases hheap : B.prioHeap with
  | nil =>
    rw [hheap] at hB
    cases hB
  | cons m rest =>
    rw [isReady_of_cons hheap, hheap] at hB
    dsimp only at hB
    split at hB
    case isTrue hle =>
      exact ⟨m, rest, rfl, of_decide_eq_true hle, (Prod.mk.inj (some.inj hB)).2.symm⟩
    case isFalse => cases hB

/-- What a pop leaves: the heap without its front, the keys, and the size at the first pop of the
cycle. -/
structure Dequeued (B : MessageBuffer) (t : ℕ) (m : MsgPtr) (rest : List MsgPtr)
    (B' : MessageBuffer) : Prop where
  heap : B.prioHeap = m :: rest
  ready : (B.msgs m).lastEnqueueTime ≤ t
  heaped : B'.Heaped
  perm : B'.prioHeap.Perm rest
  key : ∀ m', B'.key m' = B.key m'
  stallMsgMap : B'.stallMsgMap = B.stallMsgMap
  stallMapSize : B'.stallMapSize = B.stallMapSize
  lastArrivalTime : B'.lastArrivalTime = B.lastArrivalTime
  timeLastTimeEnqueue : B'.timeLastTimeEnqueue = B.timeLastTimeEnqueue
  msgsThisCycle : B'.msgsThisCycle = B.msgsThisCycle
  timeLastTimePop : B'.timeLastTimePop = max B.timeLastTimePop t
  sizeAtCycleStart : B'.sizeAtCycleStart
    = if B.timeLastTimePop < t then B.prioHeap.length % 2 ^ 32 else B.sizeAtCycleStart

theorem Heaped.dequeue (h : B.Heaped) (hB : B.dequeue H t = some (delay, B')) :
    ∃ m rest, B.Dequeued t m rest B' := by
  rcases dequeue_eq_some hB with ⟨m, rest, hheap, htime, rfl⟩
  have hdelayed := h.of_delay ((B.msgs m).updateDelayedTicks t) rfl
  have hcounted :
      (({ B with msgs := B.setMsg m ((B.msgs m).updateDelayedTicks t) } : MessageBuffer).countPop
      t).Heaped := { hdelayed with }
  rcases hcounted.popHeap hheap with ⟨hheaped, hperm⟩
  refine ⟨m, rest, hheap, htime, hheaped, hperm, fun m' => ?_, rfl, rfl, rfl, rfl, rfl, rfl, rfl⟩
  change (B.setMsg m ((B.msgs m).updateDelayedTicks t) m').key = (B.msgs m').key
  by_cases heq : m' = m
  · subst heq
    rw [setMsg_self]
    rfl
  · rw [setMsg_of_ne _ heq]

theorem Heaped.recycle (h : B.Heaped) (hB : B.recycle H t latency = some B') :
    ∃ m rest, B.prioHeap = m :: rest ∧ (B.msgs m).lastEnqueueTime ≤ t ∧ B'.Heaped
      ∧ B'.prioHeap.Perm B.prioHeap
      ∧ B' = (B.popHeap H).pushHeap H m { B.msgs m with lastEnqueueTime := t + latency } := by
  unfold MessageBuffer.recycle at hB
  cases hheap : B.prioHeap with
  | nil =>
    rw [hheap] at hB
    cases hB
  | cons m rest =>
    rw [isReady_of_cons hheap, hheap] at hB
    rcases ite_none_right_eq_some.1 hB with ⟨hle, hB⟩
    cases hB
    have hnodup := h.nodup
    rw [hheap] at hnodup
    have hdistinct := h.distinct
    rw [hheap, map_cons] at hdistinct
    rcases h.popHeap hheap with ⟨hpop, hperm⟩
    have hm : m ∉ (B.popHeap H).prioHeap :=
      fun hmem => (nodup_cons.1 hnodup).1 (hperm.mem_iff.1 hmem)
    have hnew : ∀ m' ∈ (B.popHeap H).prioHeap, (B.msgs m').msgCounter ≠ (B.msgs m).msgCounter := by
      intro m' hm' heq
      refine (nodup_cons.1 hdistinct).1 ?_
      rw [← heq]
      exact mem_map_of_mem (hperm.mem_iff.1 hm')
    have hbound : (B.msgs m).msgCounter ≤ B.msgCounter := h.bounded m (hheap ▸ mem_cons_self)
    rcases hpop.pushHeap { B.msgs m with lastEnqueueTime := t + latency } hm hbound
      hnew with ⟨hpush, hpush_perm⟩
    exact ⟨m, rest, rfl, of_decide_eq_true hle, hpush, hpush_perm.trans (hperm.cons m), rfl⟩

/-- The fields that only `enqueue` and `dequeue` touch, and the stall map. -/
def SameCounts (B B' : MessageBuffer) : Prop :=
  B'.timeLastTimeEnqueue = B.timeLastTimeEnqueue ∧ B'.timeLastTimePop = B.timeLastTimePop
    ∧ B'.sizeAtCycleStart = B.sizeAtCycleStart ∧ B'.msgsThisCycle = B.msgsThisCycle
    ∧ B'.lastArrivalTime = B.lastArrivalTime

theorem SameCounts.refl (B : MessageBuffer) : B.SameCounts B := ⟨rfl, rfl, rfl, rfl, rfl⟩

/-- Messages that go back to the heap get the time of the call, and counters in the order of the
list. -/
structure Reanalyzed (B : MessageBuffer) (ms : List MsgPtr) (t : ℕ) (B' : MessageBuffer) :
    Prop where
  heaped : B'.Heaped
  perm : B'.prioHeap.Perm (B.prioHeap ++ ms)
  frame : ∀ m ∉ ms, B'.msgs m = B.msgs m
  time : ∀ m ∈ ms, (B'.msgs m).lastEnqueueTime = t
  sorted : ms.Pairwise fun m m' => B'.key m < B'.key m'
  newer : ∀ m ∈ ms, B.msgCounter < (B'.msgs m).msgCounter
  counter : B.msgCounter ≤ B'.msgCounter
  stallMsgMap : B'.stallMsgMap = B.stallMsgMap
  stallMapSize : B'.stallMapSize = B.stallMapSize
  counts : B.SameCounts B'

theorem Heaped.reanalyzeList (h : B.Heaped) (hnodup : (B.prioHeap ++ ms).Nodup) (t : ℕ) :
    B.Reanalyzed ms t (B.reanalyzeList H ms t) := by
  induction ms generalizing B with
  | nil =>
    have hperm : B.prioHeap.Perm (B.prioHeap ++ []) := by rw [append_nil]
    exact ⟨h, hperm, fun m _ => rfl, forall_mem_nil _, List.Pairwise.nil,
      forall_mem_nil _, Nat.le_refl _, rfl, rfl, SameCounts.refl B⟩
  | cons m ms ih =>
    have hparts := nodup_append.1 hnodup
    have hm : m ∉ B.prioHeap := fun hmem => hparts.2.2 m hmem m mem_cons_self rfl
    have hms : m ∉ ms := (nodup_cons.1 hparts.2.1).1
    rcases h.pushNext { B.msgs m with lastEnqueueTime := t, msgCounter := B.msgCounter + 1 } hm rfl
      (C := { B with msgCounter := B.msgCounter + 1 }) rfl rfl rfl with ⟨hheaped, hperm⟩
    have hnext : (B.reanalyze H t m).prioHeap.Perm (m :: B.prioHeap) := hperm
    have hnodup' : ((B.reanalyze H t m).prioHeap ++ ms).Nodup := by
      have hmove : ((B.reanalyze H t m).prioHeap ++ ms).Perm (B.prioHeap ++ m :: ms) :=
        (hnext.append_right ms).trans perm_middle.symm
      exact hmove.nodup_iff.2 hnodup
    -- the rest of the list, from the buffer with the first message
    have hrest := ih (B := B.reanalyze H t m) hheaped hnodup'
    have hself : (B.reanalyze H t m).msgs m
        = { B.msgs m with lastEnqueueTime := t, msgCounter := B.msgCounter + 1 } := update_self ..
    have hother : ∀ m' ≠ m, (B.reanalyze H t m).msgs m' = B.msgs m' :=
      fun m' hne => update_of_ne hne _ _
    have hfirst : ((B.reanalyze H t m).reanalyzeList H ms t).msgs m
        = { B.msgs m with lastEnqueueTime := t, msgCounter := B.msgCounter + 1 } :=
      (hrest.frame m hms).trans hself
    change B.Reanalyzed (m :: ms) t ((B.reanalyze H t m).reanalyzeList H ms t)
    refine { hrest with
      perm := ?_, frame := fun m' hm' => ?_, time := fun m' hm' => ?_, sorted := ?_,
        newer := fun m' hm' => ?_, counter := ?_ }
    · exact (hrest.perm.trans (hnext.append_right ms)).trans perm_middle.symm
    · have hne : m' ≠ m := fun heq => hm' (heq ▸ mem_cons_self)
      exact (hrest.frame m' fun hmem => hm' (mem_cons_of_mem m hmem)).trans (hother m' hne)
    · rcases mem_cons.1 hm' with rfl | hm'
      · rw [hfirst]
      · exact hrest.time m' hm'
    · refine pairwise_cons.2 ⟨fun m' hm' => ?_, hrest.sorted⟩
      -- equal times, and the counters grow along the list
      unfold MessageBuffer.key Message.key
      rw [hfirst, hrest.time m' hm']
      exact Prod.Lex.toLex_lt_toLex.2 (.inr ⟨rfl, hrest.newer m' hm'⟩)
    · rcases mem_cons.1 hm' with rfl | hm'
      · rw [hfirst]
        exact Nat.lt_succ_self _
      · exact (Nat.lt_succ_self _).trans (hrest.newer m' hm')
    · exact (Nat.le_succ _).trans hrest.counter

/-- Messages of the stall map go back to the heap, and `map` stays. -/
def putBack (H : HeapOps MsgPtr (ℕ ×ₗ ℕ)) (B : MessageBuffer) (ms : List MsgPtr) (t : ℕ)
    (map : StallMap) : MessageBuffer :=
  { { B with stallMapSize := B.stallMapSize - ms.length }.reanalyzeList H ms t with
    stallMsgMap := map }

theorem reanalyzeMessages_eq_some (hB : B.reanalyzeMessages H addr t = some B') :
    B' = putBack H B (B.stallMsgMap.messages addr) t (B.stallMsgMap.erase addr) := by
  unfold reanalyzeMessages at hB
  dsimp only at hB
  split at hB
  · split at hB
    · exact (some.inj hB).symm
    · cases hB
  · cases hB

theorem reanalyzeList_stallMapSize (ms : List MsgPtr) (t : ℕ) (size : ℤ) :
    ({ B with stallMapSize := size } : MessageBuffer).reanalyzeList H ms t
      = { B.reanalyzeList H ms t with stallMapSize := size } := by
  induction ms generalizing B with
  | nil => rfl
  | cons m _ ih => exact ih (B := B.reanalyze H t m)

/-- The loop over the stall map puts back one list after the other. -/
theorem foldlM_reanalyzeEntry {entries : StallMap}
    (hB : entries.foldlM (reanalyzeEntry H t) B = some B') :
    B' = ({ B with stallMapSize := B.stallMapSize - (StallMap.all entries).length } :
      MessageBuffer).reanalyzeList H (StallMap.all entries) t := by
  induction entries generalizing B with
  | nil =>
    have hsame : B = B' := by simpa using hB
    subst hsame
    simp [StallMap.all, reanalyzeList]
  | cons entry entries ih =>
    rcases foldlM_cons_some hB with ⟨C, hC, hrest⟩
    rcases ite_none_right_eq_some.1 hC with ⟨-, hC⟩
    cases hC
    have hall : StallMap.all (entry :: entries) = entry.2 ++ StallMap.all entries := rfl
    have hsize : B.stallMapSize - (StallMap.all (entry :: entries)).length
        = B.stallMapSize - entry.2.length - (StallMap.all entries).length := by
      rw [hall, length_append]
      omega
    rw [ih hrest, hsize, hall]
    simp only [reanalyzeList_stallMapSize]
    unfold reanalyzeList
    rw [foldl_append]

theorem reanalyzeAllMessages_eq_some (hB : B.reanalyzeAllMessages H t = some B') :
    B' = putBack H B B.stallMsgMap.all t [] := by
  rcases map_eq_some_iff.1 hB with ⟨C, hC, rfl⟩
  rw [foldlM_reanalyzeEntry hC]
  rfl

theorem stallMessage_eq_some (hB : B.stallMessage H cfg addr t = some B') :
    ∃ m rest delay C, B.prioHeap = m :: rest ∧ B.dequeue H t = some (delay, C)
      ∧ B' = { C with
      stallMsgMap := C.stallMsgMap.pushBack addr m, stallMapSize := C.stallMapSize + 1 } := by
  unfold stallMessage at hB
  cases hheap : B.prioHeap with
  | nil =>
    rw [hheap] at hB
    cases hB
  | cons m rest =>
    rw [hheap] at hB
    rcases ite_none_right_eq_some.1 hB with ⟨-, hB⟩
    rcases map_eq_some_iff.1 hB with ⟨⟨delay, C⟩, hC, rfl⟩
    exact ⟨m, rest, delay, C, rfl, hC, rfl⟩

/-! ## Well-formed buffers -/

variable (B) in
/-- No message is in two places, and the stall map is counted. -/
structure Sound : Prop where
  heaped : B.Heaped
  nodup : (B.prioHeap ++ B.stallMsgMap.all).Nodup
  size : B.stallMapSize = B.stallMsgMap.all.length
  sorted : B.stallMsgMap.Sorted

theorem sound_empty (msgs : MsgPtr → Message) : ({ msgs := msgs } : MessageBuffer).Sound :=
  ⟨⟨isHeap_nil _, nodup_nil, forall_mem_nil _, nodup_nil⟩, nodup_nil, rfl,
    StallMap.sorted_nil⟩

theorem Sound.enqueue (h : B.Sound) (hm : m ∉ B.prioHeap ++ B.stallMsgMap.all)
    (hB : B.enqueue H cfg warmup m t delta random = some B') : B'.Sound := by
  have hheap : m ∉ B.prioHeap := fun hmem => hm (mem_append_left _ hmem)
  rcases h.heaped.enqueue hheap hB with ⟨hheaped, hperm⟩
  rcases enqueue_eq_some hB with ⟨-, -, rfl⟩
  refine ⟨hheaped, ?_, h.size, h.sorted⟩
  exact (hperm.append_right _).nodup_iff.2 (nodup_cons.2 ⟨hm, h.nodup⟩)

theorem Sound.dequeue (h : B.Sound) (hB : B.dequeue H t = some (delay, B')) : B'.Sound := by
  rcases h.heaped.dequeue hB with ⟨m, rest, hd⟩
  have hnodup := h.nodup
  rw [hd.heap, cons_append] at hnodup
  refine ⟨hd.heaped, ?_, ?_, ?_⟩
  · rw [hd.stallMsgMap]
    exact (hd.perm.append_right _).nodup_iff.2 (nodup_cons.1 hnodup).2
  · rw [hd.stallMsgMap, hd.stallMapSize]
    exact h.size
  · rw [hd.stallMsgMap]
    exact h.sorted

theorem Sound.recycle (h : B.Sound) (hB : B.recycle H t latency = some B') : B'.Sound := by
  rcases h.heaped.recycle hB with ⟨_, _, -, -, hheaped, hperm, rfl⟩
  exact ⟨hheaped, (hperm.append_right _).nodup_iff.2 h.nodup, h.size, h.sorted⟩

theorem Sound.stallMessage (h : B.Sound) (hB : B.stallMessage H cfg addr t = some B') :
    ∃ m rest C, B.Dequeued t m rest C ∧ B'.Sound
      ∧ B' = { C with
      stallMsgMap := C.stallMsgMap.pushBack addr m, stallMapSize := C.stallMapSize + 1 } := by
  rcases stallMessage_eq_some hB with ⟨m, rest, delay, C, hheap, hC, rfl⟩
  rcases h.heaped.dequeue hC with ⟨m', rest', hd⟩
  have hsame : m :: rest = m' :: rest' := hheap.symm.trans hd.heap
  cases hsame
  have hall := StallMap.all_pushBack C.stallMsgMap addr m
  refine ⟨m, rest, C, hd, ⟨{ hd.heaped with }, ?_, ?_, ?_⟩, rfl⟩
  · -- the front has moved from the heap to the stall map
    have hnodup := h.nodup
    rw [hheap, ← hd.stallMsgMap] at hnodup
    exact ((hd.perm.append hall).trans perm_middle).nodup_iff.2 hnodup
  · have hlength := hall.length_eq
    have hsize := h.size
    rw [← hd.stallMapSize, ← hd.stallMsgMap] at hsize
    rw [length_cons] at hlength
    dsimp only
    omega
  · have hsorted := h.sorted
    rw [← hd.stallMsgMap] at hsorted
    exact hsorted.pushBack

theorem Sound.putBack (h : B.Sound) {map : StallMap} (hall : B.stallMsgMap.all.Perm (ms ++ map.all))
    (hmap : map.Sorted) : (MessageBuffer.putBack H B ms t map).Sound
      ∧ B.Reanalyzed ms t (B.reanalyzeList H ms t)
      ∧ (MessageBuffer.putBack H B ms t map).msgs = (B.reanalyzeList H ms t).msgs
      ∧ (MessageBuffer.putBack H B ms t map).prioHeap = (B.reanalyzeList H ms t).prioHeap
      ∧ B.SameCounts (MessageBuffer.putBack H B ms t map) := by
  have hnodup : (B.prioHeap ++ ms ++ map.all).Nodup := by
    rw [append_assoc]
    exact (Perm.append_left _ hall).nodup_iff.1 h.nodup
  have hre := h.heaped.reanalyzeList (H := H) (nodup_append.1 hnodup).1 t
  have hput : MessageBuffer.putBack H B ms t map
      = { B.reanalyzeList H ms t with
          stallMapSize := B.stallMapSize - ms.length
          stallMsgMap := map } := by
    unfold MessageBuffer.putBack
    rw [reanalyzeList_stallMapSize]
  rw [hput]
  refine ⟨⟨{ hre.heaped with }, ?_, ?_, hmap⟩, hre, rfl,
    rfl, hre.counts⟩
  · exact (hre.perm.append_right _).nodup_iff.2 hnodup
  · have hlength := hall.length_eq
    rw [length_append] at hlength
    have hsize := h.size
    dsimp only
    omega

end MessageBuffer
end EnocGem5.Ruby
