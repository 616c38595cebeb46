import EnocGem5.Lib.Run

/-!
# PacketQueue — deferred packets, send events and retries

A `PacketQueue` keeps the packets that wait for their tick in `transmitList`. The head is sent when
the send event fires; if the peer refuses it, it returns to the front and the queue waits for a
retry.

Sending can enqueue further packets, so `sendDeferredPacket` is modelled up to the call of
`sendTiming`, and what follows the call is a step of its own. A call is `none` where an assertion
fails or the sanity check panics.
-/

namespace EnocGem5.Mem

open Lib Option List

/-! ## The queue -/

def maxTick : ℕ := 2 ^ 64 - 1

structure DeferredPacket (P : Type*) where
  tick : ℕ
  pkt : P
  deriving DecidableEq, Repr

/-- `PacketQueue`. The send event is the tick it is scheduled for. -/
structure PacketQueue (P : Type*) where
  transmitList : List (DeferredPacket P) := []
  sendEvent : Option ℕ := none
  disableSanityCheck : Bool := false
  waitingOnRetry : Bool := false

namespace PacketQueue

variable {P : Type*} (Q : PacketQueue P) {forceOrder : Bool} {front : DeferredPacket P} {pkt : P}
  {rest : List (DeferredPacket P)}

def deferredPacketReady (now : ℕ) : Bool :=
  match Q.transmitList with
  | [] => false
  | front :: _ => front.tick ≤ now

def deferredPacketReadyTime : ℕ :=
  match Q.transmitList with
  | [] => maxTick
  | front :: _ => front.tick

def schedSendEvent (now when_ : ℕ) : Option (PacketQueue P) :=
  -- if we are waiting on a retry just hold off
  if Q.waitingOnRetry then if Q.sendEvent = none then some Q else none
  else if when_ ≠ maxTick then
    let when_ := max when_ (now + 1)
    match Q.sendEvent with
    | none => some { Q with sendEvent := some when_ }
    -- if the new time is earlier than the scheduled one, move the event forward
    | some scheduled => if when_ < scheduled then some { Q with sendEvent := some when_ }
      else some Q
  else some Q

/-- The search of `schedSendTiming` from the end of the list, on the packets after the first one in
reverse order: `dp` goes behind the last packet at which the search stops. -/
def emplace (stops : DeferredPacket P → Bool) (dp : DeferredPacket P) :
    List (DeferredPacket P) → List (DeferredPacket P)
  | [] => [dp]
  | i :: before => if stops i then dp :: i :: before else i :: emplace stops dp before

section Send

variable (getAddr : P → ℕ) (isExpressSnoop : P → Bool)

def schedSendTiming (Q : PacketQueue P) (now : ℕ) (pkt : P) (when_ : ℕ) (forceOrder : Bool) :
    Option (PacketQueue P) :=
  if now ≤ when_ ∧ isExpressSnoop pkt = false ∧
      (Q.disableSanityCheck = true ∨ Q.transmitList.length ≤ 100) then
    match Q.transmitList with
    -- nothing on the list
    | [] => { Q with transmitList := [⟨when_, pkt⟩] }.schedSendEvent now when_
    | front :: rest =>
      -- order by tick, and do not overtake a packet for the same address if the order is forced
      let stops := fun i : DeferredPacket P =>
        !(when_ < i.tick && !(forceOrder && getAddr i.pkt = getAddr pkt))
      some { Q with
        transmitList := front :: (emplace stops ⟨when_, pkt⟩ rest.reverse).reverse }
  else none

end Send

/-- `sendDeferredPacket` up to the call of `sendTiming`, with the packet that is sent. -/
def sendDeferredPacket (now : ℕ) : Option (PacketQueue P × DeferredPacket P) :=
  if Q.waitingOnRetry = false ∧ Q.deferredPacketReady now = true then
    match Q.transmitList with
    | [] => none
    | dp :: rest => some ({ Q with transmitList := rest }, dp)
  else none

/-- What `sendDeferredPacket` does after `sendTiming`. -/
def sendTimingReturns (now : ℕ) (dp : DeferredPacket P) (accepted : Bool) :
    Option (PacketQueue P) :=
  let Q := { Q with waitingOnRetry := !accepted }
  if accepted then Q.schedSendEvent now Q.deferredPacketReadyTime
  else some { Q with transmitList := dp :: Q.transmitList }

def retry (now : ℕ) : Option (PacketQueue P × DeferredPacket P) :=
  if Q.waitingOnRetry then { Q with waitingOnRetry := false }.sendDeferredPacket now else none

def processSendEvent (now : ℕ) : Option (PacketQueue P × DeferredPacket P) :=
  if Q.waitingOnRetry then none else Q.sendDeferredPacket now

/-! ## The callers -/

/-- A call to the queue, the return of the `sendTiming` under way, or the passing of time. -/
inductive Call (P : Type*)
  | schedSendTiming (pkt : P) (when_ : ℕ) (forceOrder : Bool)
  | retry
  | processSendEvent
  | sendTimingReturns (accepted : Bool)
  | advance (tick : ℕ)

/-- A queue at tick `curTick`, with the packet whose `sendTiming` is under way, and whether packets
were enqueued since that call began. -/
structure Session (P : Type*) where
  queue : PacketQueue P := {}
  curTick : ℕ := 0
  sending : Option (DeferredPacket P) := none
  enqueued : Bool := false

namespace Session

variable (s : Session P)

/-- The calls that the peer and the event queue may make. -/
def Allowed : Call P → Prop
  | .schedSendTiming _ _ _ => True
  -- the peer sends a retry after it has refused a packet
  | .retry => s.queue.waitingOnRetry = true ∧ s.sending.isNone = true
  | .processSendEvent => s.queue.sendEvent = some s.curTick ∧ s.sending.isNone = true
  -- only an accepted send enqueues packets
  | .sendTimingReturns accepted =>
    s.sending.isSome = true ∧ (s.enqueued = true → accepted = true)
  | .advance tick => s.sending.isNone = true ∧ s.curTick ≤ tick

instance (c : Call P) : Decidable (s.Allowed c) :=
  match c with
  | .schedSendTiming .. => isTrue trivial
  | .retry | .processSendEvent | .sendTimingReturns _ | .advance _ =>
    inferInstanceAs (Decidable (_ ∧ _))

def send (r : PacketQueue P × DeferredPacket P) : Session P :=
  { s with queue := r.1, sending := some r.2, enqueued := false }

variable (getAddr : P → ℕ) (isExpressSnoop : P → Bool)

def run (s : Session P) : Call P → Option (Session P)
  | .schedSendTiming pkt when_ forceOrder =>
    (s.queue.schedSendTiming getAddr isExpressSnoop s.curTick pkt when_ forceOrder).map fun Q =>
      { s with queue := Q, enqueued := true }
  | .retry => (s.queue.retry s.curTick).map s.send
  -- the event is descheduled when it is serviced
  | .processSendEvent => ({ s.queue with sendEvent := none }.processSendEvent s.curTick).map s.send
  | .sendTimingReturns accepted =>
    match s.sending with
    | none => none
    | some dp =>
      (s.queue.sendTimingReturns s.curTick dp accepted).map fun Q =>
        { s with queue := Q, sending := none, enqueued := false }
  | .advance tick => some { s with curTick := tick }

def step (s : Session P) (c : Call P) : Option (Session P) :=
  if s.Allowed c then s.run getAddr isExpressSnoop c else none

end Session

/-! ## The front of the list -/

variable {Q} {Q' : PacketQueue P} {now t when_ : ℕ} {r : PacketQueue P × DeferredPacket P}

theorem ready_iff : Q.deferredPacketReady t = true ↔
    ∃ front rest, Q.transmitList = front :: rest ∧ front.tick ≤ t := by
  unfold deferredPacketReady
  cases h : Q.transmitList with
  | nil => simp
  | cons front rest => simp

theorem ready_cons
    (hlist : Q.transmitList = front :: rest) : Q.deferredPacketReady t = true ↔ front.tick ≤ t := by
  simp [deferredPacketReady, hlist]

theorem ne_nil_of_ready (h : Q.deferredPacketReady t = true) : Q.transmitList ≠ [] := by
  rcases ready_iff.1 h with ⟨front, rest, hlist, _⟩
  simp [hlist]

theorem ready_mono {t' : ℕ} (h : Q.deferredPacketReady t = true) (ht : t ≤ t') :
    Q.deferredPacketReady t' = true := by
  rcases ready_iff.1 h with ⟨front, rest, hlist, htick⟩
  exact ready_iff.2 ⟨front, rest, hlist, Nat.le_trans htick ht⟩

/-- A send event for `when_` is scheduled then, or was scheduled before. -/
theorem schedSendEvent_some (h : Q.schedSendEvent now when_ = some Q')
    (hwait : Q.waitingOnRetry = false) :
    Q'.transmitList = Q.transmitList ∧ Q'.waitingOnRetry = false ∧
      (when_ = maxTick → Q'.sendEvent = Q.sendEvent) ∧
      (when_ ≠ maxTick →
        ∃ t, Q'.sendEvent = some t ∧ (t = max when_ (now + 1) ∨ Q.sendEvent = some t)) := by
  simp only [schedSendEvent] at h
  rw [if_neg (by simp [hwait])] at h
  split at h
  case isTrue hmax =>
    split at h
    case h_1 =>
      cases h
      exact ⟨rfl, hwait, fun heq => absurd heq hmax, fun _ => ⟨_, rfl, .inl rfl⟩⟩
    case h_2 scheduled hscheduled =>
      split at h
      · cases h
        exact ⟨rfl, hwait, fun heq => absurd heq hmax, fun _ => ⟨_, rfl, .inl rfl⟩⟩
      · cases h
        exact ⟨rfl, hwait, fun _ => rfl, fun _ => ⟨scheduled, hscheduled, .inr hscheduled⟩⟩
  case isFalse hmax =>
    cases h
    exact ⟨rfl, hwait, fun _ => rfl, fun heq => absurd heq hmax⟩

theorem mem_emplace {stops : DeferredPacket P → Bool} {dp d : DeferredPacket P}
    {before : List (DeferredPacket P)} (h : d ∈ emplace stops dp before) : d = dp ∨ d ∈ before := by
  fun_induction emplace stops dp before with
  | case1 => simpa using h
  | case2 => simpa using h
  | case3 i before hgo ih =>
    rcases mem_cons.1 h with rfl | hmem
    · exact .inr mem_cons_self
    · exact (ih hmem).imp_right (mem_cons_of_mem i)

/-- A packet is enqueued behind the first one, or alone with a send event. -/
theorem schedSendTiming_cases {getAddr : P → ℕ} {isExpressSnoop : P → Bool}
    (h : Q.schedSendTiming getAddr isExpressSnoop now pkt when_ forceOrder = some Q') :
    (Q.transmitList = [] ∧
        { Q with transmitList := [⟨when_, pkt⟩] }.schedSendEvent now when_ = some Q') ∨
      ∃ front rest rest', Q.transmitList = front :: rest ∧
        Q' = { Q with transmitList := front :: rest' } ∧
        ∀ d ∈ rest', d = ⟨when_, pkt⟩ ∨ d ∈ rest := by
  rcases ite_none_right_eq_some.1 h with ⟨-, h⟩
  split at h
  case h_1 hnil => exact .inl ⟨hnil, h⟩
  case h_2 front rest hcons =>
    cases h
    refine .inr ⟨front, rest, _, hcons, rfl, ?_⟩
    intro d hd
    simpa using mem_emplace (mem_reverse.1 hd)

theorem sendDeferredPacket_some (h : Q.sendDeferredPacket now = some r) :
    Q.waitingOnRetry = false ∧ ∃ rest, Q.transmitList = r.2 :: rest ∧
      r.1 = { Q with transmitList := rest } ∧ r.2.tick ≤ now := by
  rcases ite_none_right_eq_some.1 h with ⟨hready, h⟩
  split at h
  case h_1 => cases h
  case h_2 dp rest hcons =>
    cases h
    exact ⟨hready.1, rest, hcons, rfl, (ready_cons hcons).1 hready.2⟩

theorem sendDeferredPacket_isSome (hwait : Q.waitingOnRetry = false)
    (hready : Q.deferredPacketReady now = true) : (Q.sendDeferredPacket now).isSome = true := by
  rcases ready_iff.1 hready with ⟨front, rest, hlist, _⟩
  simp [sendDeferredPacket, hwait, hready, hlist]

/-! ## What holds during and between the calls -/

namespace Session

/-- The invariant of the queue, also in the middle of a send. -/
structure Inv (s : Session P) : Prop where
  ticks : ∀ dp ∈ s.queue.transmitList, dp.tick ≠ maxTick
  event : ∀ t, s.queue.sendEvent = some t → s.queue.deferredPacketReady t = true
  waiting : s.queue.waitingOnRetry = true →
    s.sending = none ∧ s.queue.sendEvent = none ∧
      s.queue.deferredPacketReady s.curTick = true
  scheduled : s.sending = none → s.queue.waitingOnRetry = false → s.queue.transmitList ≠ [] →
    s.queue.sendEvent ≠ none
  sent : ∀ dp, s.sending = some dp → dp.tick ≠ maxTick ∧ dp.tick ≤ s.curTick ∧
    (s.enqueued = false → s.queue.sendEvent = none)

theorem inv_initial : Inv ({} : Session P) := by
  constructor <;> simp

section Steps

variable {getAddr : P → ℕ} {isExpressSnoop : P → Bool} {s s' : Session P}

theorem Inv.sendEvent_of_nil (hs : s.Inv) (hnil : s.queue.transmitList = []) :
    s.queue.sendEvent = none := by
  by_contra hsome
  rcases ne_none_iff_exists'.1 hsome with ⟨t, ht⟩
  exact ne_nil_of_ready (hs.event t ht) hnil

/-- The send event is scheduled for the first packet. -/
theorem inv_of_scheduled (hlist : s.queue.transmitList = front :: rest)
    (hticks : ∀ dp ∈ front :: rest, dp.tick ≠ maxTick) (hwait : s.queue.waitingOnRetry = false)
    (ht : s.queue.sendEvent = some t) (hfront : front.tick ≤ t)
    (hsent : ∀ dp, s.sending = some dp → dp.tick ≠ maxTick ∧ dp.tick ≤ s.curTick ∧
    s.enqueued = true) : s.Inv where
  ticks := by
    rw [hlist]
    exact hticks
  event := by
    intro t' ht'
    cases ht.symm.trans ht'
    exact (ready_cons hlist).2 hfront
  waiting := fun hwaiting => nomatch hwait.symm.trans hwaiting
  scheduled := fun _ _ _ hnone => nomatch ht.symm.trans hnone
  sent := by
    intro dp hdp
    rcases hsent dp hdp with ⟨hmax, htick, henqueued⟩
    exact ⟨hmax, htick, by simp [henqueued]⟩

theorem inv_schedSendTiming (hs : s.Inv) (hwhen : when_ ≠ maxTick)
    (h : s.run getAddr isExpressSnoop (.schedSendTiming pkt when_ forceOrder) = some s') :
    s'.Inv := by
  rcases map_eq_some_iff.1 h with ⟨Q, hQ, rfl⟩
  rcases schedSendTiming_cases hQ with ⟨hnil, hevent⟩ | ⟨front, rest, rest', hlist, rfl, hrest⟩
  · -- the list was empty, so nobody waits and the event is scheduled for the new packet
    have hwait : s.queue.waitingOnRetry = false := by
      by_contra hwait
      exact ne_nil_of_ready (hs.waiting (by simpa using hwait)).2.2 hnil
    rcases schedSendEvent_some hevent hwait with ⟨hlist, hwait', _, hscheduled⟩
    rcases hscheduled hwhen with ⟨t, ht, hcase⟩
    have htime : when_ ≤ t := by
      rcases hcase with rfl | hbefore
      · exact Nat.le_max_left _ _
      · exact absurd ((hs.sendEvent_of_nil hnil).symm.trans hbefore) (by simp)
    refine inv_of_scheduled hlist (forall_mem_singleton.2 hwhen) hwait' ht htime fun dp hdp => ?_
    exact ⟨(hs.sent dp hdp).1, (hs.sent dp hdp).2.1, rfl⟩
  · -- the first packet stays, and with it whatever the queue waits for
    have hready : ∀ t, s.queue.deferredPacketReady t = true →
        { s.queue with transmitList := front :: rest' }.deferredPacketReady t = true := by
      intro t ht
      exact (ready_cons rfl).2 ((ready_cons hlist).1 ht)
    refine ⟨?_, fun t ht => hready t (hs.event t ht), ?_, ?_, ?_⟩
    · intro dp hdp
      rcases mem_cons.1 hdp with rfl | hdp
      · exact hs.ticks dp (hlist ▸ mem_cons_self)
      · rcases hrest dp hdp with rfl | hdp
        · exact hwhen
        · exact hs.ticks dp (hlist ▸ mem_cons_of_mem front hdp)
    · intro hwaiting
      rcases hs.waiting hwaiting with ⟨hsending, hevent, hfront⟩
      exact ⟨hsending, hevent, hready _ hfront⟩
    · intro hsending hwait _
      exact hs.scheduled hsending hwait (by simp [hlist])
    · intro dp hdp
      exact ⟨(hs.sent dp hdp).1, (hs.sent dp hdp).2.1, by simp⟩

theorem inv_send {Q : PacketQueue P} (h : Q.sendDeferredPacket s.curTick = some r)
    (hticks : ∀ dp ∈ Q.transmitList, dp.tick ≠ maxTick) (hevent : Q.sendEvent = none) :
    (s.send r).Inv := by
  rcases sendDeferredPacket_some h with ⟨hwait, rest, hlist, hr, htick⟩
  have hqueue : (s.send r).queue = { Q with transmitList := rest } := hr
  refine ⟨?_, ?_, ?_, ?_, ?_⟩
  · intro dp hdp
    rw [hqueue] at hdp
    exact hticks dp (hlist ▸ mem_cons_of_mem _ hdp)
  · intro t ht
    rw [hqueue] at ht
    exact absurd (hevent.symm.trans ht) (by simp)
  · intro hwaiting
    rw [hqueue] at hwaiting
    exact absurd (hwait.symm.trans hwaiting) (by simp)
  · intro hsending
    cases hsending
  · intro dp hdp
    cases hdp
    refine ⟨hticks r.2 (hlist ▸ mem_cons_self), htick, fun _ => ?_⟩
    rw [hqueue]
    exact hevent

theorem inv_sendTimingReturns {accepted : Bool} (hs : s.Inv)
    (hallowed : s.Allowed (.sendTimingReturns accepted))
    (h : s.run getAddr isExpressSnoop (.sendTimingReturns accepted) = some s') : s'.Inv := by
  rcases isSome_iff_exists.1 hallowed.1 with ⟨dp, hdp⟩
  rcases hs.sent dp hdp with ⟨hmax, htick, hnone⟩
  simp only [run, hdp] at h
  rcases map_eq_some_iff.1 h with ⟨Q, hQ, rfl⟩
  cases accepted with
  | true =>
    simp only [sendTimingReturns, if_true, Bool.not_true] at hQ
    rcases schedSendEvent_some hQ rfl with ⟨hlist, hwait, hidle, hscheduled⟩
    cases hcase : s.queue.transmitList with
    | nil =>
      -- there is nothing left to send
      have hevent : Q.sendEvent = none := by
        rw [hidle (by simp [deferredPacketReadyTime, hcase])]
        exact hs.sendEvent_of_nil hcase
      have hempty : Q.transmitList = [] := hlist.trans hcase
      constructor <;> simp [hempty, hevent, hwait]
    | cons front rest =>
      have hfront : front.tick ≠ maxTick := hs.ticks front (hcase ▸ mem_cons_self)
      rcases hscheduled (by simpa [deferredPacketReadyTime, hcase] using hfront) with
        ⟨t, ht, htime⟩
      have hby : front.tick ≤ t := by
        rcases htime with rfl | hbefore
        · simp only [deferredPacketReadyTime, hcase]
          exact Nat.le_max_left _ _
        · exact (ready_cons hcase).1 (hs.event t hbefore)
      exact inv_of_scheduled (hlist.trans hcase) (hcase ▸ hs.ticks) hwait ht hby nofun
  | false =>
    -- the refused packet returns to the front; nothing was enqueued, so no event is scheduled
    have henqueued : s.enqueued = false := by
      by_contra htrue
      exact absurd (hallowed.2 (by simpa using htrue)) (by simp)
    cases hQ
    have hevent := hnone henqueued
    refine ⟨?_, ?_, ?_, ?_, ?_⟩
    · exact forall_mem_cons.2 ⟨hmax, hs.ticks⟩
    · intro t ht
      exact absurd (hevent.symm.trans ht) (by simp)
    · intro _
      exact ⟨rfl, hevent, (ready_cons rfl).2 htick⟩
    · intro _ hwait
      cases hwait
    · intro d hd
      cases hd

theorem inv_advance {tick : ℕ} (hs : s.Inv) (hallowed : s.Allowed (.advance tick)) :
    Inv { s with curTick := tick } where
  __ := hs
  waiting := by
    intro hwaiting
    rcases hs.waiting hwaiting with ⟨hsending, hevent, hready⟩
    exact ⟨hsending, hevent, ready_mono hready hallowed.2⟩
  sent := by
    intro dp hdp
    have hnone : s.sending = none := isNone_iff_eq_none.1 hallowed.1
    exact absurd (hnone.symm.trans hdp) (by simp)

/-- No packet is enqueued for the tick that stands for "never". -/
def Timed : Call P → Prop
  | .schedSendTiming _ when_ _ => when_ ≠ maxTick
  | _ => True

theorem inv_step {c : Call P} (hs : s.Inv) (htimed : Timed c)
    (h : s.step getAddr isExpressSnoop c = some s') : s'.Inv := by
  rcases ite_none_right_eq_some.1 h with ⟨hallowed, h⟩
  cases c with
  | schedSendTiming pkt when_ forceOrder => exact inv_schedSendTiming hs htimed h
  | retry =>
    rcases map_eq_some_iff.1 h with ⟨r, hr, rfl⟩
    rw [PacketQueue.retry, if_pos hallowed.1] at hr
    exact inv_send hr hs.ticks (hs.waiting hallowed.1).2.1
  | processSendEvent =>
    rcases map_eq_some_iff.1 h with ⟨r, hr, rfl⟩
    unfold PacketQueue.processSendEvent at hr
    split at hr
    · cases hr
    · exact inv_send hr hs.ticks rfl
  | sendTimingReturns accepted => exact inv_sendTimingReturns hs hallowed h
  | advance tick =>
    cases h
    exact inv_advance hs hallowed

theorem retry_isSome (hs : s.Inv) (hallowed : s.Allowed .retry) :
    (s.run getAddr isExpressSnoop .retry).isSome = true := by
  have hready := (hs.waiting hallowed.1).2.2
  simp only [run, PacketQueue.retry, if_pos hallowed.1, isSome_map]
  exact sendDeferredPacket_isSome rfl hready

theorem processSendEvent_isSome (hs : s.Inv) (hallowed : s.Allowed .processSendEvent) :
    (s.run getAddr isExpressSnoop .processSendEvent).isSome = true := by
  have hwait : s.queue.waitingOnRetry = false := by
    by_contra hwaiting
    have hnone := (hs.waiting (by simpa using hwaiting)).2.1
    exact absurd (hnone.symm.trans hallowed.1) (by simp)
  have hready : s.queue.deferredPacketReady s.curTick = true := hs.event _ hallowed.1
  simp only [run, PacketQueue.processSendEvent, hwait, isSome_map]
  exact sendDeferredPacket_isSome rfl hready

end Steps

/-! ## Whole runs -/

/-- Between calls a packet that waits will be sent: by a retry or by the send event, never by
both. -/
structure Live (s : Session P) : Prop where
  waiting : s.queue.waitingOnRetry = true → s.queue.sendEvent = none
  served : s.queue.transmitList ≠ [] →
    s.queue.waitingOnRetry = true ∨ s.queue.sendEvent ≠ none

theorem Inv.live {s : Session P} (hs : s.Inv) (hsending : s.sending = none) : s.Live where
  waiting := fun hwaiting => (hs.waiting hwaiting).2.1
  served := by
    intro hlist
    cases hwait : s.queue.waitingOnRetry with
    | true => exact .inl rfl
    | false => exact .inr (hs.scheduled hsending hwait hlist)

/-- In every run that enqueues no packet for `MaxTick` the queue never stalls, and the assertions of
`sendDeferredPacket` hold at every retry and every send event. -/
theorem queue_neverStalls (getAddr : P → ℕ) (isExpressSnoop : P → Bool) (calls : List (Call P))
    (hcalls : ∀ c ∈ calls, Timed c) :
    Always (step getAddr isExpressSnoop)
      (fun s => (s.sending = none → s.Live) ∧
        (s.Allowed .retry → (s.run getAddr isExpressSnoop .retry).isSome = true) ∧
        (s.Allowed .processSendEvent →
          (s.run getAddr isExpressSnoop .processSendEvent).isSome = true))
      {} calls := by
  exact Always.of_throughout (fun _ hs =>
    ⟨Inv.live hs, retry_isSome hs, processSendEvent_isSome hs⟩) (fun _ _ _ => inv_step) inv_initial
      (Throughout.of_forall_mem fun c hc _ => hcalls c hc)

/-- A packet is refused, sent again after a retry, and enqueues another one while it is accepted. -/
theorem queue_refusedThenServed :
    (∀ c ∈ [Call.schedSendTiming 0 5 false, .advance 5, .processSendEvent,
        .sendTimingReturns false, .advance 8, .retry, .schedSendTiming 1 9 false,
        .sendTimingReturns true], Timed c) ∧
      Always (step id fun _ => false)
        (fun s => (s.sending = none → s.Live) ∧
          (s.Allowed .retry → (s.run id (fun _ => false) .retry).isSome = true) ∧
          (s.Allowed .processSendEvent →
            (s.run id (fun _ => false) .processSendEvent).isSome = true))
        {} [.schedSendTiming 0 5 false, .advance 5, .processSendEvent, .sendTimingReturns false,
          .advance 8, .retry, .schedSendTiming 1 9 false, .sendTimingReturns true] := by
  refine ⟨?_, queue_neverStalls id (fun _ => false) _ ?_⟩ <;> simp [Timed, maxTick]

/-- A packet for `MaxTick` stays on the list without a send event. -/
theorem maxTick_stalls :
    ∃ s, [Call.schedSendTiming 0 maxTick false].foldlM (step id fun _ => false)
        ({} : Session ℕ) = some s ∧
      s.sending = none ∧ s.queue.transmitList ≠ [] ∧ ¬ s.Live := by
  refine ⟨{ queue := { transmitList := [⟨maxTick, 0⟩] }, enqueued := true }, by rfl,
    rfl, by simp, ?_⟩
  intro hlive
  rcases hlive.served (by simp) with hwait | hevent
  · cases hwait
  · exact hevent rfl

end Session

end PacketQueue

end EnocGem5.Mem
