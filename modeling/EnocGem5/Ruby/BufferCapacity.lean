import EnocGem5.Ruby.BufferSession

/-!
# BufferCapacity — the size of a bounded message buffer

`areNSlotsAvailable` does not look at the heap in a cycle in which a message was popped: it adds the
enqueues of the cycle to the size that the heap had at the first pop, so that pops become visible in
the next cycle only. The capacity is kept as long as the heap is not larger than this visible size.

`reanalyzeMessages` puts messages back into the heap without making them visible, while it takes
them off the count of stalled messages. In a cycle with a pop the buffer then has more messages than
it shows, and enqueues that were granted a slot exceed the capacity: `overflow_after_reanalyze`.
-/

namespace EnocGem5.Ruby.BufferSession

open Lib Nat List

variable (cfg : BufferConfig) (S : BufferSession) (c : BufferCall) {m : MsgPtr}

/-- What the users of the buffer promise: time does not run backwards, messages are different
objects, and each enqueue was granted a slot in its tick. -/
def Granted : Prop :=
  S.now ≤ c.tick ∧ S.Fresh c ∧ (c.enters ≠ [] → S.grantedAt c.tick = true)

instance : Decidable (S.Granted c) :=
  inferInstanceAs (Decidable (_ ∧ _ ∧ _))

/-- The messages that a call puts back into the heap. -/
def returned : BufferCall → List MsgPtr
  | .reanalyzeMessages addr _ => S.buffer.stallMsgMap.messages addr
  | .reanalyzeAllMessages _ => S.buffer.stallMsgMap.all
  | _ => []

/-- Messages that go back in a cycle with a pop do not make the heap larger than the visible
size. -/
def Fits : Prop :=
  S.returned c ≠ [] → S.buffer.timeLastTimePop < c.tick
    ∨ S.buffer.prioHeap.length + (S.returned c).length ≤ S.buffer.visibleSize c.tick

instance : Decidable (S.Fits c) := inferInstanceAs (Decidable (_ → _))

/-- The buffer does not hold more messages than it may, and counts those that are stalled. -/
def Within : Prop :=
  S.buffer.prioHeap.length + S.buffer.stallMsgMap.all.length ≤ cfg.maxSize
    ∧ S.buffer.stallMapSize = S.buffer.stallMsgMap.all.length

/-- The enqueues of this tick that `areNSlotsAvailable` sees. -/
def recent : ℕ := if S.buffer.timeLastTimeEnqueue = S.now then S.buffer.msgsThisCycle else 0

/-- The counters describe this tick; in a tick with a pop they show at least the messages that are
in the heap. -/
structure Counted (S : BufferSession) : Prop where
  sound : S.buffer.Sound
  within : S.buffer.prioHeap.length + S.buffer.stallMsgMap.all.length ≤ cfg.maxSize
  pop_le : S.buffer.timeLastTimePop ≤ S.now
  enqueue_le : S.buffer.timeLastTimeEnqueue ≤ S.now
  start_le : S.buffer.sizeAtCycleStart ≤ cfg.maxSize
  recent_le : S.recent ≤ cfg.maxSize
  visible : S.buffer.timeLastTimePop = S.now →
    S.buffer.prioHeap.length ≤ S.buffer.sizeAtCycleStart + S.recent
  exact : S.buffer.timeLastTimePop < S.now → S.recent ≤ S.buffer.prioHeap.length
  granted : S.granted = true → S.buffer.prioHeap.length + S.buffer.stallMsgMap.all.length + 1 ≤
    cfg.maxSize ∧ S.recent + 1 ≤ cfg.maxSize

section Steps

variable {cfg : BufferConfig} {S S' : BufferSession} {t : ℕ}

theorem counted_start (msgs : MsgPtr → Message) : Counted cfg (start msgs) :=
  ⟨MessageBuffer.sound_empty msgs, zero_le _, le_refl _, le_refl _, zero_le _, zero_le _,
    fun _ => zero_le _, fun h => absurd h (lt_irrefl 0), nofun⟩

/-- The session at the tick of the next call. -/
def advance (S : BufferSession) (t : ℕ) : BufferSession :=
  { S with now := t, granted := S.grantedAt t }

theorem Counted.advance (h : Counted cfg S) (ht : S.now ≤ t) : Counted cfg (S.advance t) := by
  rcases eq_or_lt_of_le ht with rfl | hlt
  · refine { h with granted := fun hg => ?_ }
    exact h.granted (Bool.and_eq_true _ _ ▸ hg : S.granted = true ∧ _).1
  · -- a new tick: nothing has happened in it
    have hpop : S.buffer.timeLastTimePop < t := h.pop_le.trans_lt hlt
    have henqueue : S.buffer.timeLastTimeEnqueue < t := h.enqueue_le.trans_lt hlt
    have hrecent : (S.advance t).recent = 0 := if_neg henqueue.ne
    refine ⟨h.sound, h.within, hpop.le, henqueue.le, h.start_le, ?_, fun heq => absurd heq hpop.ne,
      fun _ => ?_, fun hg => ?_⟩
    · rw [hrecent]
      exact zero_le _
    · rw [hrecent]
      exact zero_le _
    · have hnow : S.now = t :=
        of_decide_eq_true (Bool.and_eq_true _ _ ▸ hg : _ ∧ decide (S.now = t) = true).2
      exact absurd hnow hlt.ne

/-- Two sessions that differ in their history only. -/
theorem Counted.of_buffer (h : Counted cfg S) (hbuffer : S'.buffer = S.buffer)
    (hnow : S'.now = S.now) (hgranted : S'.granted = true → S.granted = true) : Counted cfg S' := by
  have hrecent : S'.recent = S.recent := by
    unfold BufferSession.recent
    rw [hbuffer, hnow]
  refine ⟨?_, ?_, ?_, ?_, ?_, ?_, ?_, ?_, fun hg => ?_⟩
  · exact hbuffer ▸ h.sound
  · exact hbuffer ▸ h.within
  · rw [hbuffer, hnow]
    exact h.pop_le
  · rw [hbuffer, hnow]
    exact h.enqueue_le
  · exact hbuffer ▸ h.start_le
  · exact hrecent ▸ h.recent_le
  · rw [hbuffer, hnow, hrecent]
    exact h.visible
  · rw [hbuffer, hnow, hrecent]
    exact h.exact
  · rw [hbuffer, hrecent]
    exact h.granted (hgranted hg)

section Small

variable (h : Counted cfg S) (hsmall : 3 * cfg.maxSize + 1 < 2 ^ 32)
include h hsmall

/-- The visible size is what the invariant says about it; nothing overflows. -/
theorem Counted.visibleSize :
    S.buffer.visibleSize S.now
      = if S.buffer.timeLastTimePop < S.now then S.buffer.prioHeap.length
        else S.buffer.sizeAtCycleStart + S.recent := by
  have hheap : S.buffer.prioHeap.length ≤ cfg.maxSize := (le_add_right _ _).trans h.within
  have hstart := h.start_le
  have hrecent := h.recent_le
  have hle := h.enqueue_le
  unfold MessageBuffer.visibleSize
  unfold BufferSession.recent at hrecent ⊢
  split
  · exact mod_eq_of_lt (by omega)
  · split
    case isTrue henqueue => rw [if_neg (Nat.ne_of_lt henqueue), Nat.add_zero]
    case isFalse henqueue =>
      have heq : S.buffer.timeLastTimeEnqueue = S.now := by omega
      rw [if_pos heq] at hrecent ⊢
      exact mod_eq_of_lt (by omega)

/-- A slot that is granted is there. -/
theorem Counted.available (hpos : 0 < cfg.maxSize)
    (havail : S.buffer.areNSlotsAvailable cfg 1 S.now = true) :
    S.buffer.prioHeap.length + S.buffer.stallMsgMap.all.length + 1 ≤ cfg.maxSize
    ∧ S.recent + 1 ≤ cfg.maxSize := by
  have hheap : S.buffer.prioHeap.length ≤ cfg.maxSize := (le_add_right _ _).trans h.within
  have hstalled : S.buffer.stallMsgMap.all.length ≤ cfg.maxSize := (le_add_left _ _).trans h.within
  have hstart := h.start_le
  have hrecent := h.recent_le
  have hpop := h.pop_le
  unfold MessageBuffer.areNSlotsAvailable at havail
  rw [h.visibleSize hsmall, h.sound.size] at havail
  have hsum := (Bool.or_eq_true _ _ ▸ havail).resolve_left (by simpa using hpos.ne')
  have hsum := of_decide_eq_true hsum
  split at hsum
  case isTrue hlt =>
    have hexact := h.exact hlt
    omega
  case isFalse hnot =>
    have hvisible := h.visible (by omega)
    omega

theorem Counted.check (hpos : 0 < cfg.maxSize) {granted : Bool} (hgranted : granted = true →
    S.buffer.areNSlotsAvailable cfg 1 S.now = true ∨ S.granted = true) :
    Counted cfg { S with granted := granted } := by
  refine { h with granted := fun hg => ?_ }
  rcases hgranted hg with havail | hold
  · exact h.available hsmall hpos havail
  · exact h.granted hold

variable {H : HeapOps MsgPtr (ℕ ×ₗ ℕ)} {B : MessageBuffer}

theorem Counted.enqueue (hgranted : S.granted = true)
    {warmup : Bool} {delta random : ℕ} (hm : m ∉ S.buffer.prioHeap ++ S.buffer.stallMsgMap.all)
    (hB : S.buffer.enqueue H cfg warmup m S.now delta random = some B) :
    Counted cfg { S with buffer := B, granted := false } := by
  have hsound : B.Sound := h.sound.enqueue hm hB
  have hheap : m ∉ S.buffer.prioHeap := fun hmem => hm (mem_append_left _ hmem)
  have hlength : B.prioHeap.length = S.buffer.prioHeap.length + 1 :=
    (h.sound.heaped.enqueue hheap hB).2.length_eq
  rcases h.granted hgranted with ⟨hroom, hroom'⟩
  have hvisible := h.visible
  have hexact := h.exact
  have hle := h.enqueue_le
  rcases MessageBuffer.enqueue_eq_some hB with ⟨-, -, hBeq⟩
  have hmap : B.stallMsgMap = S.buffer.stallMsgMap := by rw [hBeq]; rfl
  have hpop : B.timeLastTimePop = S.buffer.timeLastTimePop := by rw [hBeq]; rfl
  have hstart : B.sizeAtCycleStart = S.buffer.sizeAtCycleStart := by rw [hBeq]; rfl
  have htime : B.timeLastTimeEnqueue = S.now := by
    rw [hBeq]
    exact max_eq_right hle
  have hcount : B.msgsThisCycle = S.recent + 1 := by
    rw [hBeq]
    change ((if S.buffer.timeLastTimeEnqueue < S.now then 0 else S.buffer.msgsThisCycle) + 1)
      % 2 ^ 32 = _
    have hsame : (if S.buffer.timeLastTimeEnqueue < S.now then 0 else S.buffer.msgsThisCycle) =
        S.recent := by
      unfold BufferSession.recent
      rcases eq_or_lt_of_le hle with heq | hlt
      · rw [if_neg (not_lt.2 heq.ge), if_pos heq]
      · rw [if_pos hlt, if_neg hlt.ne]
    rw [hsame]
    exact mod_eq_of_lt (by omega)
  have hrecent : BufferSession.recent { S with buffer := B, granted := false } = S.recent + 1 := by
    unfold BufferSession.recent
    rw [if_pos htime]
    exact hcount
  refine ⟨hsound, ?_, ?_, htime.le, ?_, ?_, fun heq => ?_, fun hlt => ?_, nofun⟩
  · rw [hlength, hmap]
    omega
  · exact hpop ▸ h.pop_le
  · exact hstart ▸ h.start_le
  · rw [hrecent]
    exact hroom'
  · have := hvisible (hpop.symm.trans heq)
    rw [hlength, hstart]
    omega
  · have := hexact (hpop ▸ hlt)
    rw [hlength]
    omega

/-- A pop in this tick, after which `stalled` messages are stalled. -/
theorem Counted.pop {rest : List MsgPtr}
    {C : MessageBuffer} (hd : S.buffer.Dequeued S.now m rest C) (hsound : B.Sound)
    (hheap : B.prioHeap = C.prioHeap)
    (hstalled : B.stallMsgMap.all.length ≤ S.buffer.stallMsgMap.all.length + 1)
    (henqueue : B.timeLastTimeEnqueue = C.timeLastTimeEnqueue)
    (hcount : B.msgsThisCycle = C.msgsThisCycle) (hpop : B.timeLastTimePop = C.timeLastTimePop)
    (hstart : B.sizeAtCycleStart = C.sizeAtCycleStart) : Counted cfg { S with buffer := B } := by
  have hwithin := h.within
  have hvisible := h.visible
  have hle := h.pop_le
  have hlength : B.prioHeap.length + 1 = S.buffer.prioHeap.length := by
    rw [hheap, hd.perm.length_eq, hd.heap]
    rfl
  have hrecent : BufferSession.recent { S with buffer := B } = S.recent := by
    unfold BufferSession.recent
    rw [henqueue, hcount, hd.timeLastTimeEnqueue, hd.msgsThisCycle]
  have hnow : B.timeLastTimePop = S.now := by
    rw [hpop, hd.timeLastTimePop]
    exact max_eq_right hle
  have hsize : B.sizeAtCycleStart
      = if S.buffer.timeLastTimePop < S.now then S.buffer.prioHeap.length
      else S.buffer.sizeAtCycleStart := by
    rw [hstart, hd.sizeAtCycleStart]
    split
    · exact mod_eq_of_lt (by omega)
    · rfl
  refine ⟨hsound, ?_, hnow.le, ?_, ?_, ?_, fun _ => ?_, fun hlt => absurd hlt hnow.not_lt,
    fun hg => ?_⟩
  · dsimp only
    omega
  · rw [henqueue, hd.timeLastTimeEnqueue]
    exact h.enqueue_le
  · rw [hsize]
    split
    · omega
    · exact h.start_le
  · rw [hrecent]
    exact h.recent_le
  · dsimp only
    rw [hsize]
    split
    · omega
    case isFalse hnot =>
      omega
  · have := h.granted hg
    dsimp only
    omega

/-- `k` messages go back to the heap, within the visible size if there was a pop in this tick. -/
theorem Counted.back (hsound : B.Sound) (hcounts : S.buffer.SameCounts B) {k : ℕ}
    (hlength : B.prioHeap.length = S.buffer.prioHeap.length + k)
    (hstalled : S.buffer.stallMsgMap.all.length = k + B.stallMsgMap.all.length)
    (hfits : k ≠ 0 → S.buffer.timeLastTimePop < S.now
      ∨ S.buffer.prioHeap.length + k ≤ S.buffer.visibleSize S.now) :
    Counted cfg { S with buffer := B } := by
  rcases hcounts with ⟨henqueue, hpop, hstart, hcount, -⟩
  have hwithin := h.within
  have hrecent : BufferSession.recent { S with buffer := B } = S.recent := by
    unfold BufferSession.recent
    rw [henqueue, hcount]
  refine ⟨hsound, ?_, ?_, ?_, ?_, ?_, fun heq => ?_, fun hlt => ?_, fun hg => ?_⟩
  · dsimp only
    omega
  · exact hpop ▸ h.pop_le
  · exact henqueue ▸ h.enqueue_le
  · exact hstart ▸ h.start_le
  · exact hrecent ▸ h.recent_le
  · rw [hpop] at heq
    rw [hlength, hstart, hrecent]
    rcases Nat.eq_zero_or_pos k with rfl | hk
    · exact h.visible heq
    · have hroom := (hfits hk.ne').resolve_left heq.not_lt
      rwa [h.visibleSize hsmall, if_neg heq.not_lt] at hroom
  · rw [hpop] at hlt
    rw [hlength, hrecent]
    exact (h.exact hlt).trans (le_add_right _ _)
  · have := h.granted hg
    dsimp only
    omega

theorem Counted.recycle {latency : ℕ}
    (hB : S.buffer.recycle H S.now latency = some B) : Counted cfg { S with buffer := B } := by
  rcases h.sound.heaped.recycle hB with ⟨m, _, -, -, -, hperm, hBeq⟩
  have hcounts : S.buffer.SameCounts B := by
    rw [hBeq]
    exact ⟨rfl, rfl, rfl, rfl, rfl⟩
  have hmap : B.stallMsgMap = S.buffer.stallMsgMap := by
    rw [hBeq]
    rfl
  exact h.back hsmall (h.sound.recycle hB) hcounts hperm.length_eq (by rw [hmap, Nat.zero_add])
    (fun hk => absurd rfl hk)

theorem Counted.putBack {ms : List MsgPtr}
    {map : StallMap} (hall : S.buffer.stallMsgMap.all.Perm (ms ++ map.all)) (hmap : map.Sorted)
    (hfits : ms ≠ [] → S.buffer.timeLastTimePop < S.now
      ∨ S.buffer.prioHeap.length + ms.length ≤ S.buffer.visibleSize S.now) :
    Counted cfg { S with buffer := MessageBuffer.putBack H S.buffer ms S.now map } := by
  rcases h.sound.putBack hall hmap with ⟨hsound, hre, -, hheap, hcounts⟩
  refine h.back hsmall hsound hcounts ?_ ?_ fun hk => hfits fun hnil => hk (by rw [hnil]; rfl)
  · rw [hheap, hre.perm.length_eq, length_append]
  · rw [hall.length_eq, length_append]
    rfl

end Small

theorem Counted.step {c : BufferCall} (h : Counted cfg S)
    (hsmall : 3 * cfg.maxSize + 1 < 2 ^ 32) (hpos : 0 < cfg.maxSize) (hgranted : S.Granted c)
    (hfits : S.Fits c) (hS : S.step H cfg c = some S') : Counted cfg S' := by
  rcases step_eq_some hS with ⟨B, hB, rfl⟩
  rcases hgranted with ⟨htick, hfresh, hslot⟩
  have hadvanced : Counted cfg (S.advance c.tick) := h.advance htick
  -- the history does not matter, and time has moved on to the tick of the call
  have hfinish : Counted cfg { S.advance c.tick with
      buffer := B, granted := S.grantedAfter cfg c } → Counted cfg (S.after cfg c B) :=
        fun hnext => hnext.of_buffer rfl rfl id
  apply hfinish
  cases c with
  | areNSlotsAvailable t =>
    cases hB
    exact hadvanced.check hsmall hpos fun hg => Bool.or_eq_true _ _ ▸ hg
  | enqueue warmup m t delta random =>
    exact hadvanced.enqueue hsmall (hslot (cons_ne_nil m [])) (hfresh m mem_cons_self) hB
  | dequeue t =>
    rcases Option.map_eq_some_iff.1 hB with ⟨⟨delay, C⟩, hC, rfl⟩
    rcases h.sound.heaped.dequeue hC with ⟨m, rest, hd⟩
    have hstalled : C.stallMsgMap.all.length ≤ S.buffer.stallMsgMap.all.length + 1 := by
      rw [hd.stallMsgMap]
      exact le_succ _
    exact hadvanced.pop hsmall hd (h.sound.dequeue hC) rfl hstalled rfl rfl rfl rfl
  | recycle t latency => exact hadvanced.recycle hsmall hB
  | stallMessage addr t =>
    rcases h.sound.stallMessage hB with ⟨m, rest, C, hd, hsound, rfl⟩
    have hstalled : (C.stallMsgMap.pushBack addr m).all.length ≤
        S.buffer.stallMsgMap.all.length + 1 := by
      rw [(StallMap.all_pushBack C.stallMsgMap addr m).length_eq, hd.stallMsgMap]
      exact le_refl _
    exact hadvanced.pop hsmall hd hsound rfl hstalled rfl rfl rfl rfl
  | reanalyzeMessages addr t =>
    rw [MessageBuffer.reanalyzeMessages_eq_some hB]
    exact hadvanced.putBack hsmall (StallMap.all_erase _ addr) h.sound.sorted.erase hfits
  | reanalyzeAllMessages t =>
    rw [MessageBuffer.reanalyzeAllMessages_eq_some hB]
    exact hadvanced.putBack hsmall (StallMap.all_perm_nil _) StallMap.sorted_nil hfits

/-- A bounded buffer keeps to its capacity in every run in which each enqueue was granted a slot in
its tick and no message goes back to the heap beyond the visible size. -/
theorem capacity_kept (H : HeapOps MsgPtr (ℕ ×ₗ ℕ)) (cfg : BufferConfig) (hpos : 0 < cfg.maxSize)
    (hsmall : 3 * cfg.maxSize + 1 < 2 ^ 32) (msgs : MsgPtr → Message) (calls : List BufferCall)
    (hcalls : Throughout (step H cfg) (fun S c => S.Granted c ∧ S.Fits c) (start msgs) calls) :
    Always (step H cfg) (Within cfg) (start msgs) calls := by
  exact Always.of_throughout (fun _ h => ⟨Counted.within h, (Counted.sound h).size⟩)
    (fun _ _ _ h hc => Counted.step h hsmall hpos hc.1 hc.2) (counted_start msgs) hcalls

end Steps

/-! ## Runs -/

def threeSlots : BufferConfig where
  maxSize := 3
  strictFifo := true
  randomization := false
  blockSizeBits := 6

/-- Three messages fill the buffer. Two of them are stalled for line 0, and the third leaves. -/
def filling : List BufferCall :=
  [.areNSlotsAvailable 0, .enqueue false 0 0 1 0, .areNSlotsAvailable 0, .enqueue false 1 0 1 0,
    .areNSlotsAvailable 0, .enqueue false 2 0 1 0, .stallMessage 0 1, .stallMessage 0 1, .dequeue 2]

/-- The stalled messages go back in the next cycle. -/
def returning : List BufferCall :=
  filling ++ [.reanalyzeMessages 0 3, .areNSlotsAvailable 3, .enqueue false 3 3 1 0]

theorem capacity_kept_returning :
    Throughout (step (HeapOps.sorting MsgPtr (ℕ ×ₗ ℕ)) threeSlots)
        (fun S c => S.Granted c ∧ S.Fits c) (start fun _ => { lastEnqueueTime := 0 }) returning
      ∧ Always (step (HeapOps.sorting MsgPtr (ℕ ×ₗ ℕ)) threeSlots) (Within threeSlots)
        (start fun _ => { lastEnqueueTime := 0 }) returning :=
  ⟨by decide, capacity_kept _ threeSlots (by decide) (by decide) _ _ (by decide)⟩

/-- They go back in the cycle of the pop. -/
def returningEarly : List BufferCall :=
  filling ++ [.reanalyzeMessages 0 2, .areNSlotsAvailable 2, .enqueue false 3 2 1 0,
    .areNSlotsAvailable 2, .enqueue false 4 2 1 0]

/-- Both enqueues are granted a slot, and the buffer has four messages. -/
theorem overflow_after_reanalyze :
    Throughout (step (HeapOps.sorting MsgPtr (ℕ ×ₗ ℕ)) threeSlots) Granted
        (start fun _ => { lastEnqueueTime := 0 }) returningEarly
      ∧ (returningEarly.foldlM (step (HeapOps.sorting MsgPtr (ℕ ×ₗ ℕ)) threeSlots)
        (start fun _ => { lastEnqueueTime := 0 })).map
          (fun S => S.buffer.prioHeap.length + S.buffer.stallMsgMap.all.length) = some 4 := by
  decide

end EnocGem5.Ruby.BufferSession
