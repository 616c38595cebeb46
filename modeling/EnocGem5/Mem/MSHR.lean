import EnocGem5.Lib.Run
import EnocGem5.Lib.StagedQueue
import EnocGem5.Mem.Packet

/-!
# MSHR — the targets of one outstanding miss

An MSHR keeps the requests that wait for one block on two lists: the targets that the outstanding
request will answer, and the deferred targets, for which another request has to be sent. Snoops that
arrive while the request is outstanding are saved among the targets and replayed after the response.

A call is `none` where an assertion fails. The `downstreamPending` flags of the MSHRs of the caches
above are part of the state; the flags further up, which the same loops clear, are not.
-/

namespace EnocGem5.Mem

open Lib List Option StagedQueue

/-! ## Packets -/

/-- `Packet` with the flags and the sender state that an MSHR reads. -/
structure MissPacket extends Packet where
  isExpressSnoop : Bool := false
  /-- `STATIC_DATA`, one of the two flags behind `hasPtr`. -/
  isStatic : Bool := false
  /-- `findNextSenderState<MSHR>()`: the MSHR of the cache above. -/
  senderMSHR : Option ℕ := none
  deriving DecidableEq, Repr

namespace MissPacket

variable (pkt : MissPacket)

/-- `Packet::needsWritable` asserts that the packet is a request. -/
def needsWritable : Option Bool :=
  if pkt.cmd.isRequest then some pkt.cmd.needsWritable else none

def hasRespData : Bool := pkt.cmd.responseCommand.hasData

def allocate : Option MissPacket :=
  if pkt.cmd.hasData || pkt.hasRespData then
    if pkt.hasPtr then none else some { pkt with hasPtr := true }
  else some pkt

/-- `Packet(pkt, true, true)`: the flags are cleared, the data are allocated. -/
def copy : MissPacket where
  cmd := pkt.cmd
  req := pkt.req
  addr := pkt.addr
  isSecure := pkt.isSecure
  hasPtr := pkt.isStatic || pkt.cmd.hasData || pkt.hasRespData
  isStatic := pkt.isStatic
  senderMSHR := pkt.senderMSHR

/-- `Packet(req, cmd, blkSize)` for the request and the command of a packet. -/
def blockCopy (blkSize : ℕ) : MissPacket where
  cmd := pkt.cmd
  req := pkt.req
  addr := pkt.getBlockAddr blkSize
  isSecure := pkt.isSecure
  hasPtr := false

def setCacheResponding : Option MissPacket :=
  if pkt.cmd.isRequest && !pkt.cacheResponding then some { pkt with cacheResponding := true }
  else none

def setResponderHadWritable : Option MissPacket :=
  if pkt.cacheResponding && !pkt.responderHadWritable then
    some { pkt with responderHadWritable := true }
  else none

end MissPacket

/-- The command that replaces an upgrade of a block that is gone. -/
def upgradeReplacement : MemCmd → MemCmd
  | .UpgradeReq => .ReadExReq
  | .SCUpgradeReq => .SCUpgradeFailReq
  | .StoreCondReq => .StoreCondFailReq
  | cmd => cmd

def replaceUpgrade (pkt : MissPacket) : Option MissPacket :=
  let hasData := pkt.cmd.hasData || pkt.hasRespData
  let pkt := { pkt with cmd := upgradeReplacement pkt.cmd }
  if hasData then some pkt
  else if pkt.cmd.hasData then none
  else if pkt.hasRespData then pkt.allocate
  else some pkt

/-! ## Target lists -/

inductive Source
  | FromCPU
  | FromSnoop
  | FromPrefetcher
  deriving DecidableEq, Repr

structure Target where
  readyTime : ℕ
  order : ℕ
  pkt : MissPacket
  source : Source
  markedPending : Bool
  allocOnFill : Bool
  deriving DecidableEq, Repr

structure TargetList where
  list : List Target := []
  needsWritable : Bool := false
  hasUpgrade : Bool := false
  allocOnFill : Bool := false
  deriving DecidableEq, Repr

namespace TargetList

variable (L : TargetList)

def resetFlags : TargetList :=
  { L with needsWritable := false, hasUpgrade := false, allocOnFill := false }

def isReset : Bool := !L.needsWritable && !L.hasUpgrade && !L.allocOnFill

def updateFlags (pkt : MissPacket) (source : Source) (allocOnFill : Bool) : Option TargetList :=
  if source = .FromSnoop then some L
  else pkt.needsWritable.map fun writable =>
    { L with
      needsWritable := L.needsWritable || writable
      hasUpgrade := L.hasUpgrade || pkt.cmd.isUpgrade || pkt.cmd = .StoreCondReq
      allocOnFill := L.allocOnFill || allocOnFill }

def populateFlags : Option TargetList :=
  L.list.foldlM (fun L t => L.updateFlags t.pkt t.source t.allocOnFill) L.resetFlags

/-- `add`; `above` are the `downstreamPending` flags of the MSHRs of the caches above. -/
def add (above : ℕ → Bool) (pkt : MissPacket) (readyTime order : ℕ)
    (source : Source) (markPending allocOnFill : Bool) : Option (TargetList × (ℕ → Bool)) :=
  (L.updateFlags pkt source allocOnFill).bind fun L =>
    let target := fun markedPending =>
      { readyTime, order, pkt, source, markedPending, allocOnFill : Target }
    match if markPending then pkt.senderMSHR else none with
    | none => some ({ L with list := L.list ++ [target false] }, above)
    | some mshr =>
      if above mshr then none
      else some ({ L with list := L.list ++ [target true] }, Function.update above mshr true)

def replaceUpgrades : Option TargetList :=
  if L.hasUpgrade then
    (L.list.mapM fun t => (replaceUpgrade t.pkt).map fun pkt => { t with pkt := pkt }).map
        fun list =>
      { L with list := list, hasUpgrade := false }
  else some L

/-- What the loop of `clearDownstreamPending` does to the caches above for one target. -/
def clearAbove (above : ℕ → Bool) (t : Target) : Option (ℕ → Bool) :=
  match if t.markedPending then t.pkt.senderMSHR else none with
  | none => some above
  | some mshr => if above mshr then some (Function.update above mshr false) else none

def clearTargets : List Target → (ℕ → Bool) → Option (List Target × (ℕ → Bool))
  | [], above => some ([], above)
  | t :: ts, above =>
    (clearAbove above t).bind fun above =>
      (clearTargets ts above).map fun r => ({ t with markedPending := false } :: r.1, r.2)

def clearDownstreamPending (above : ℕ → Bool) : Option (TargetList × (ℕ → Bool)) :=
  (clearTargets L.list above).map fun r => ({ L with list := r.1 }, r.2)

end TargetList

open TargetList

/-! ## The MSHR -/

/-- `MSHR`, with the flags of the MSHRs of the caches above. -/
structure MSHR where
  readyTime : ℕ := 0
  order : ℕ := 0
  blkSize : ℕ := 0
  isUncacheable : Bool := false
  inService : Bool := false
  downstreamPending : Bool := false
  pendingModified : Bool := false
  postInvalidate : Bool := false
  postDowngrade : Bool := false
  isForward : Bool := false
  targets : TargetList := {}
  deferredTargets : TargetList := {}
  above : ℕ → Bool := fun _ => false

namespace MSHR

variable (M : MSHR)

def allocate (blkSize : ℕ) (target : MissPacket) (whenReady order : ℕ)
    (allocOnFill : Bool) : Option MSHR :=
  let M := { M with
    blkSize := blkSize
    readyTime := whenReady
    order := order
    isForward := false
    isUncacheable := target.req.isUncacheable
    inService := false
    downstreamPending := false }
  if M.targets.isReset then
    let source := if target.cmd = .HardPFReq then Source.FromPrefetcher else Source.FromCPU
    (M.targets.add M.above target whenReady order source true allocOnFill).bind fun r =>
      if M.deferredTargets.isReset then some { M with targets := r.1, above := r.2 } else none
  else none

def clearDownstreamPending : Option MSHR :=
  if M.downstreamPending then
    (M.targets.clearDownstreamPending M.above).map fun r =>
      { M with downstreamPending := false, targets := r.1, above := r.2 }
  else none

def markInService (pendingModifiedResp : Bool) : Option MSHR :=
  if M.inService then none
  else
    let M := { M with
      inService := true
      pendingModified := M.targets.needsWritable || pendingModifiedResp
      postInvalidate := false
      postDowngrade := false }
    if M.downstreamPending then some M
    else (M.targets.clearDownstreamPending M.above).map fun r =>
      { M with targets := r.1, above := r.2 }

def deallocate : Option MSHR :=
  if M.targets.list.isEmpty && M.deferredTargets.isReset then
    some { M with targets := M.targets.resetFlags, inService := false }
  else none

variable (pkt : MissPacket)

/-- When `allocateTarget` defers a target; that the packet is a request is asserted in `add`,
too. -/
def defers : Bool :=
  M.inService &&
    (!M.deferredTargets.list.isEmpty || M.postInvalidate ||
      (pkt.cmd.needsWritable && (!M.pendingModified || M.postDowngrade || M.isForward)))

def allocateTarget (whenReady order : ℕ) (allocOnFill : Bool) : Option MSHR :=
  if pkt.cmd = .HardPFReq || M.isUncacheable then none
  else if M.defers pkt then
    (if M.postInvalidate then replaceUpgrade pkt else some pkt).bind fun pkt =>
      (M.deferredTargets.add M.above pkt whenReady order .FromCPU true allocOnFill).map fun r =>
        { M with deferredTargets := r.1, above := r.2 }
  else
    (M.targets.add M.above pkt whenReady order .FromCPU (!M.inService) allocOnFill).map fun r =>
      { M with targets := r.1, above := r.2 }

/-- The part of `handleSnoop` that saves a copy of the packet; also the packet with its new
flags. -/
def saveSnoop (curTick order : ℕ) : Option (MSHR × MissPacket) :=
  if M.pendingModified || pkt.cmd.isInvalidate then
    let willRespond := M.pendingModified && pkt.cmd.needsResponse
    let cpPkt := if willRespond then pkt.copy else pkt.blockCopy M.blkSize
    (if willRespond then pkt.setCacheResponding.bind (·.setResponderHadWritable)
      else some pkt).bind fun pkt =>
      (M.targets.add M.above cpPkt curTick order .FromSnoop
          (M.downstreamPending && M.targets.needsWritable) false).map fun r =>
        ({ M with
          targets := r.1
          above := r.2
          postInvalidate := M.postInvalidate || cpPkt.cmd.needsWritable }, pkt)
  else some (M, pkt)

def handleSnoop (curTick order : ℕ) : Option (MSHR × MissPacket × Bool) :=
  pkt.needsWritable.bind fun writable =>
    if writable ≠ pkt.cmd.isInvalidate then none
    else if !M.inService || (pkt.isExpressSnoop && M.downstreamPending) then
      -- the snooped packet precedes the request
      if writable then
        M.targets.replaceUpgrades.bind fun T =>
          M.deferredTargets.replaceUpgrades.map fun D =>
            ({ M with targets := T, deferredTargets := D }, pkt, false)
      else some (M, pkt, false)
    else
      (if writable then M.deferredTargets.replaceUpgrades else some M.deferredTargets).bind fun D =>
        let M := { M with deferredTargets := D }
        if M.postInvalidate then some (M, pkt, true)
        else (M.saveSnoop pkt curTick order).map fun r =>
          if !writable && !pkt.req.isUncacheable then
            ({ r.1 with postDowngrade := true }, { r.2 with hasSharers := true }, true)
          else (r.1, r.2, true)

/-- The loop of `extractServiceableTargets`: the targets that are ready and those that stay. -/
def splitSnoops : List Target → Option (List Target × List Target)
  | [] => some ([], [])
  | t :: ts =>
    match t.source with
    | .FromCPU => (splitSnoops ts).map fun r => (r.1, t :: r.2)
    | .FromSnoop => (splitSnoops ts).map fun r => (t :: r.1, r.2)
    | .FromPrefetcher => none

/-- `extractServiceableTargets`, given the command of the response. -/
def extractServiceableTargets (cmd : MemCmd) : Option (MSHR × TargetList) :=
  if cmd = .ReadRespWithInvalidate then
    match M.targets.list with
    | [] => none
    | first :: rest =>
      if first.source = .FromSnoop then none
      else (splitSnoops rest).bind fun r =>
        ({ list := first :: r.1 : TargetList }).populateFlags.bind fun ready =>
          { M.targets with list := r.2 }.populateFlags.map fun left =>
            ({ M with targets := left }, ready)
  else some ({ M with targets := {} }, M.targets)

/-- The order and the ready time of the next request are those of its first target. -/
def takeFront (curTick : ℕ) : MSHR :=
  match M.targets.list with
  | [] => M
  | t :: _ => { M with order := t.order, readyTime := max curTick t.readyTime }

def promoteDeferredTargets (curTick : ℕ) : Option (MSHR × Bool) :=
  if M.targets.list.isEmpty then
    if M.deferredTargets.list.isEmpty then some (M, false)
    else
      some ({ M with
        targets := M.deferredTargets
        deferredTargets := M.targets.resetFlags }.takeFront curTick, true)
  else
    { M.targets with list := M.targets.list ++ M.deferredTargets.list }.populateFlags.map fun T =>
      ({ M with targets := T, deferredTargets := {} }.takeFront curTick, true)

def promoteWritable : Option MSHR :=
  if M.deferredTargets.needsWritable then
    if !M.inService then none
    else if M.postInvalidate || M.postDowngrade then some M
    else if M.targets.needsWritable || M.downstreamPending then none
    else (M.deferredTargets.clearDownstreamPending M.above).map fun r =>
      { M with
        targets := { M.targets with list := M.targets.list ++ r.1.list, needsWritable := true }
        deferredTargets := {}
        above := r.2 }
  else some M

/-! ## Sessions

What the cache does with one MSHR. A request is sent from the pending MSHR; its response is answered
by an extraction, after which the deferred targets are promoted and the MSHR is pending again, or it
is free. The counter of the cache numbers the packets it hands over. -/

inductive Phase
  | free
  | pending
  | inService
  | extracted
  | promoted
  | drained
  deriving DecidableEq, Repr

/-- What does not change about a packet while it waits in the MSHR. -/
structure Arrival where
  order : ℕ
  source : Source
  req : Request
  needsWritable : Bool
  deriving DecidableEq, Repr

end MSHR

def Target.arrival (t : Target) : MSHR.Arrival :=
  ⟨t.order, t.source, t.pkt.req, t.pkt.cmd.needsWritable⟩

def TargetList.arrivals (L : TargetList) : List MSHR.Arrival := L.list.map Target.arrival

namespace MSHR

structure Session where
  mshr : MSHR := {}
  phase : Phase := .free
  /-- The counter of the cache. -/
  nextOrder : ℕ := 0
  /-- The packets added, in the order of their arrival. -/
  added : List Arrival := []
  /-- What the extractions returned, in their order. -/
  returned : List (List Arrival) := []

inductive Call
  | allocate (blkSize : ℕ) (target : MissPacket) (whenReady order : ℕ) (allocOnFill : Bool)
  | allocateTarget (pkt : MissPacket) (whenReady order : ℕ) (allocOnFill : Bool)
  | handleSnoop (pkt : MissPacket) (curTick order : ℕ)
  | setForward (isForward : Bool)
  | markInService (pendingModifiedResp : Bool)
  | promoteWritable
  | extractServiceableTargets (cmd : MemCmd)
  | promoteDeferredTargets (curTick : ℕ)
  | markPending
  | deallocate
  /-- The caches below set and clear the flag of this MSHR. -/
  | setDownstreamPending
  | clearDownstreamPending
  /-- The caches above change the flags of their own MSHRs. -/
  | setAbove (mshr : ℕ) (flag : Bool)

/-- Whether `handleSnoop` saves a copy of the packet. -/
def saves (M : MSHR) (pkt : MissPacket) : Bool :=
  M.inService && !(pkt.isExpressSnoop && M.downstreamPending) && !M.postInvalidate &&
    (M.pendingModified || pkt.cmd.isInvalidate)

namespace Session

variable (S : Session)

/-- The calls that the cache makes in each phase. -/
def Allowed : Call → Bool
  | .allocate _ _ _ order _ => S.phase = .free && S.nextOrder ≤ order
  | .allocateTarget _ _ order _ =>
    (S.phase = .pending || S.phase = .inService) && S.nextOrder ≤ order
  | .handleSnoop _ _ order => (S.phase = .pending || S.phase = .inService) && S.nextOrder ≤ order
  | .setForward _ => S.phase = .pending
  | .markInService _ => S.phase = .pending
  | .promoteWritable => S.phase = .inService || S.phase = .extracted
  | .extractServiceableTargets _ => S.phase = .inService
  | .promoteDeferredTargets _ => S.phase = .extracted
  | .markPending => S.phase = .promoted
  | .deallocate => S.phase = .drained
  | .setDownstreamPending => true
  | .clearDownstreamPending => true
  | .setAbove .. => true

def arrive (order : ℕ) (source : Source) (pkt : MissPacket) : Session :=
  { S with
    nextOrder := order + 1
    added := S.added ++ [⟨order, source, pkt.req, pkt.cmd.needsWritable⟩] }

def run : Call → Option Session
  | .allocate blkSize target whenReady order allocOnFill =>
    (S.mshr.allocate blkSize target whenReady order allocOnFill).map fun M =>
      { S.arrive order (if target.cmd = .HardPFReq then .FromPrefetcher else .FromCPU) target with
        mshr := M, phase := .pending }
  | .allocateTarget pkt whenReady order allocOnFill =>
    (S.mshr.allocateTarget pkt whenReady order allocOnFill).map fun M =>
      { S.arrive order .FromCPU pkt with mshr := M }
  | .handleSnoop pkt curTick order =>
    (S.mshr.handleSnoop pkt curTick order).map fun r =>
      { if S.mshr.saves pkt then S.arrive order .FromSnoop pkt else S with mshr := r.1 }
  | .setForward isForward => some { S with mshr := { S.mshr with isForward := isForward } }
  | .markInService pendingModifiedResp =>
    (S.mshr.markInService pendingModifiedResp).map fun M =>
      { S with mshr := M, phase := .inService }
  | .promoteWritable => S.mshr.promoteWritable.map fun M => { S with mshr := M }
  | .extractServiceableTargets cmd =>
    (S.mshr.extractServiceableTargets cmd).map fun r =>
      { S with mshr := r.1, phase := .extracted, returned := S.returned ++ [r.2.arrivals] }
  | .promoteDeferredTargets curTick =>
    (S.mshr.promoteDeferredTargets curTick).map fun r =>
      { S with mshr := r.1, phase := if r.2 then .promoted else .drained }
  | .markPending =>
    some { S with mshr := { S.mshr with inService := false }, phase := .pending }
  | .deallocate => S.mshr.deallocate.map fun M => { S with mshr := M, phase := .free }
  | .setDownstreamPending =>
    if S.mshr.downstreamPending then none
    else some { S with mshr := { S.mshr with downstreamPending := true } }
  | .clearDownstreamPending => S.mshr.clearDownstreamPending.map fun M => { S with mshr := M }
  | .setAbove mshr flag =>
    some { S with mshr := { S.mshr with above := Function.update S.mshr.above mshr flag } }

def step (c : Call) : Option Session := if S.Allowed c then S.run c else none

/-- Every packet added was returned once or still waits, the packets of the CPU are returned in the
order of their arrival, and none of them overtakes an invalidating snoop. -/
structure Sound (S : Session) : Prop where
  increasing : S.added.Pairwise (·.order < ·.order)
  kept : S.added.Perm
    (S.returned.flatten ++ S.mshr.targets.arrivals ++ S.mshr.deferredTargets.arrivals)
  inOrder : S.returned.flatten.filter (·.source = .FromCPU) <+:
    S.added.filter (·.source = .FromCPU)
  barrier : ∀ i batch, S.returned[i]? = some batch → ∀ c ∈ batch, c.source = .FromCPU →
    ∀ s ∈ S.added, s.source = .FromSnoop → s.needsWritable = true → s.order < c.order →
      s ∈ (S.returned.take i).flatten
  /-- Nothing waits in a free MSHR. -/
  answered : S.phase = .free → S.added.Perm S.returned.flatten

end Session

end MSHR

/-! ## What the list operations keep -/

theorem replaceUpgrade_same {pkt pkt' : MissPacket} (h : replaceUpgrade pkt = some pkt') :
    pkt'.req = pkt.req ∧ pkt'.cmd.needsWritable = pkt.cmd.needsWritable := by
  have hcmd : (upgradeReplacement pkt.cmd).needsWritable = pkt.cmd.needsWritable := by
    cases pkt.cmd <;> rfl
  simp only [replaceUpgrade, MissPacket.allocate] at h
  repeat' split at h
  all_goals
    cases h
    try exact ⟨rfl, hcmd⟩

variable {pkt target : MissPacket} {source : Source} {allocOnFill : Bool} {c : Call} {cmd : MemCmd}

namespace TargetList

variable {L L' : TargetList} {above above' : ℕ → Bool}

theorem updateFlags_list
    (h : L.updateFlags pkt source allocOnFill = some L') : L'.list = L.list := by
  unfold updateFlags at h
  split at h
  · cases h
    rfl
  · rcases map_eq_some_iff.1 h with ⟨writable, _, rfl⟩
    rfl

theorem populateFlags_arrivals (h : L.populateFlags = some L') : L'.arrivals = L.arrivals := by
  have hstep : ∀ t ∈ L.list, ∀ K K' : TargetList, K.list = L.list →
      K.updateFlags t.pkt t.source t.allocOnFill = some K' → K'.list = L.list :=
    fun t _ K K' hK hupdate => (updateFlags_list hupdate).trans hK
  have hreset : L.resetFlags.list = L.list := rfl
  have hlist := @foldlM_invariant _ _ _ _ _ _ (fun K : TargetList => K.list = L.list) hstep hreset h
  rw [arrivals, arrivals, hlist]

theorem add_arrivals {readyTime order : ℕ} {markPending : Bool}
    (h : L.add above pkt readyTime order source markPending allocOnFill = some (L', above')) :
    L'.arrivals = L.arrivals ++ [⟨order, source, pkt.req, pkt.cmd.needsWritable⟩] := by
  rcases bind_eq_some_iff.1 h with ⟨K, hK, h⟩
  have hlist := updateFlags_list hK
  split at h
  · cases h
    simp [arrivals, hlist, Target.arrival]
  · split at h
    · cases h
    · cases h
      simp [arrivals, hlist, Target.arrival]

theorem mapM_arrivals {f : Target → Option Target}
    (hf : ∀ t t', f t = some t' → t'.arrival = t.arrival) {ts ts' : List Target}
    (h : ts.mapM f = some ts') : ts'.map Target.arrival = ts.map Target.arrival := by
  induction ts generalizing ts' with
  | nil =>
    cases h
    rfl
  | cons t ts ih =>
    rw [mapM_cons] at h
    rcases bind_eq_some_iff.1 h with ⟨t', ht', h⟩
    rcases bind_eq_some_iff.1 h with ⟨rest, hrest, h⟩
    cases h
    rw [map_cons, map_cons, hf t t' ht', ih hrest]

theorem replaceUpgrades_arrivals (h : L.replaceUpgrades = some L') : L'.arrivals = L.arrivals := by
  unfold replaceUpgrades at h
  split at h
  · rcases map_eq_some_iff.1 h with ⟨ts, hts, rfl⟩
    apply mapM_arrivals _ hts
    intro t t' ht'
    rcases map_eq_some_iff.1 ht' with ⟨pkt, hpkt, rfl⟩
    rcases replaceUpgrade_same hpkt with ⟨hreq, hcmd⟩
    rw [Target.arrival, Target.arrival, hreq, hcmd]
  · cases h
    rfl

theorem clearTargets_arrivals {ts ts' : List Target}
    (h : clearTargets ts above = some (ts', above')) :
    ts'.map Target.arrival = ts.map Target.arrival := by
  induction ts generalizing ts' above above' with
  | nil =>
    cases h
    rfl
  | cons t ts ih =>
    rcases bind_eq_some_iff.1 h with ⟨between, _, h⟩
    rcases map_eq_some_iff.1 h with ⟨r, hr, heq⟩
    cases heq
    rw [map_cons, map_cons, ih hr]
    rfl

theorem clearDownstreamPending_arrivals (h : L.clearDownstreamPending above = some (L', above')) :
    L'.arrivals = L.arrivals := by
  rcases map_eq_some_iff.1 h with ⟨r, hr, heq⟩
  cases heq
  exact clearTargets_arrivals hr

end TargetList

namespace MSHR

/-! ## What the calls do to the two stages -/

/-- The part of the state on which the order of the answers depends. -/
structure View where
  current : List Arrival
  deferred : List Arrival
  inService : Bool
  postInvalidate : Bool

def view (M : MSHR) : View :=
  ⟨M.targets.arrivals, M.deferredTargets.arrivals, M.inService, M.postInvalidate⟩

def Arrival.isFence (a : Arrival) : Bool := a.source = .FromSnoop && a.needsWritable

def Arrival.isClient (a : Arrival) : Bool := a.source = .FromCPU

variable {curTick order blkSize whenReady : ℕ}

section Calls

variable {M M' : MSHR}

theorem allocate_view (h : M.allocate blkSize target whenReady order allocOnFill = some M') :
    M'.view = { M.view with
      current := M.view.current ++ [⟨order, if target.cmd = .HardPFReq then .FromPrefetcher
        else .FromCPU, target.req, target.cmd.needsWritable⟩]
      inService := false } := by
  simp only [allocate] at h
  split at h
  · rcases bind_eq_some_iff.1 h with ⟨r, hr, h⟩
    split at h
    · cases h
      simp only [view]
      rw [add_arrivals hr]
    · cases h
  · cases h

theorem markInService_view {pendingModifiedResp : Bool}
    (h : M.markInService pendingModifiedResp = some M') :
    M'.view = { M.view with inService := true, postInvalidate := false } := by
  simp only [markInService] at h
  split at h
  · cases h
  · split at h
    · cases h
      rfl
    · rcases map_eq_some_iff.1 h with ⟨r, hr, rfl⟩
      simp only [view]
      rw [clearDownstreamPending_arrivals hr]

theorem clearDownstreamPending_view (h : M.clearDownstreamPending = some M') :
    M'.view = M.view := by
  simp only [clearDownstreamPending] at h
  split at h
  · rcases map_eq_some_iff.1 h with ⟨r, hr, rfl⟩
    simp only [view]
    rw [clearDownstreamPending_arrivals hr]
  · cases h

theorem deallocate_view (h : M.deallocate = some M') :
    M'.view = { M.view with inService := false } := by
  simp only [deallocate] at h
  split at h
  · cases h
    rfl
  · cases h

/-- A target of the CPU is deferred, or it joins the current ones; in service it does so only if no
other is deferred and no invalidation is pending. -/
theorem allocateTarget_view (h : M.allocateTarget pkt whenReady order allocOnFill = some M') :
    (M.view.inService = true ∧
      M'.view = { M.view with deferred := M.view.deferred ++
        [⟨order, .FromCPU, pkt.req, pkt.cmd.needsWritable⟩] }) ∨
    ((M.view.inService = true → M.view.deferred = [] ∧ M.view.postInvalidate = false) ∧
      M'.view = { M.view with current := M.view.current ++
        [⟨order, .FromCPU, pkt.req, pkt.cmd.needsWritable⟩] }) := by
  rcases ite_none_left_eq_some.1 h with ⟨-, h⟩
  split at h
  case isTrue hdefers =>
    rcases bind_eq_some_iff.1 h with ⟨pkt', hpkt', h⟩
    rcases map_eq_some_iff.1 h with ⟨r, hr, rfl⟩
    have hsame : pkt'.req = pkt.req ∧ pkt'.cmd.needsWritable = pkt.cmd.needsWritable := by
      split at hpkt'
      · exact replaceUpgrade_same hpkt'
      · cases hpkt'
        exact ⟨rfl, rfl⟩
    have hservice : M.inService = true := by
      simp only [defers, Bool.and_eq_true] at hdefers
      exact hdefers.1
    refine .inl ⟨hservice, ?_⟩
    simp only [view]
    rw [add_arrivals hr, hsame.1, hsame.2]
  case isFalse hdefers =>
    rcases map_eq_some_iff.1 h with ⟨r, hr, rfl⟩
    refine .inr ⟨?_, ?_⟩
    · intro hservice
      have hservice : M.inService = true := hservice
      simp only [defers, hservice, Bool.true_and, Bool.or_eq_true, not_or, Bool.not_eq_true,
        Bool.not_eq_false', List.isEmpty_iff] at hdefers
      simp [view, arrivals, hdefers.1.1, hdefers.1.2]
    · simp only [view]
      rw [add_arrivals hr]

theorem saveSnoop_view {r : MSHR × MissPacket} (h : M.saveSnoop pkt curTick order = some r) :
    r.1.view = if M.pendingModified || pkt.cmd.isInvalidate then
      { M.view with
        current := M.view.current ++ [⟨order, .FromSnoop, pkt.req, pkt.cmd.needsWritable⟩]
        postInvalidate := M.postInvalidate || pkt.cmd.needsWritable }
    else M.view := by
  simp only [saveSnoop] at h
  split at h
  case isTrue hsaves =>
    rcases bind_eq_some_iff.1 h with ⟨pkt', _, h⟩
    rcases map_eq_some_iff.1 h with ⟨q, hq, rfl⟩
    have harrivals := add_arrivals hq
    -- both copies keep the command and the request
    split at harrivals
    · simp only [view, harrivals]
      simp [MissPacket.copy, *]
    · simp only [view, harrivals]
      simp [MissPacket.blockCopy, *]
  case isFalse hsaves =>
    rw [if_neg hsaves]
    cases h
    rfl

theorem handleSnoop_view {r : MSHR × MissPacket × Bool}
    (h : M.handleSnoop pkt curTick order = some r) :
    r.1.view = if M.saves pkt then
      { M.view with
        current := M.view.current ++ [⟨order, .FromSnoop, pkt.req, pkt.cmd.needsWritable⟩]
        postInvalidate := pkt.cmd.needsWritable }
    else M.view := by
  rcases bind_eq_some_iff.1 h with ⟨writable, _, h⟩
  rcases ite_none_left_eq_some.1 h with ⟨-, h⟩
  split at h
  case isTrue hbefore =>
    have hsaves : M.saves pkt = false := by
      rcases Bool.or_eq_true_iff.1 hbefore with hidle | hexpress
      · have hidle : M.inService = false := by simpa using hidle
        simp [saves, hidle]
      · simp [saves, hexpress]
    rw [hsaves]
    split at h
    · rcases bind_eq_some_iff.1 h with ⟨T, hT, h⟩
      rcases map_eq_some_iff.1 h with ⟨D, hD, rfl⟩
      simp [view, replaceUpgrades_arrivals hT, replaceUpgrades_arrivals hD]
    · cases h
      simp
  case isFalse hafter =>
    rcases bind_eq_some_iff.1 h with ⟨D, hD, h⟩
    have hview : ({ M with deferredTargets := D } : MSHR).view = M.view := by
      split at hD
      · simp [view, replaceUpgrades_arrivals hD]
      · cases hD
        rfl
    have hservice : M.inService = true ∧ (pkt.isExpressSnoop && M.downstreamPending) = false := by
      simpa using hafter
    simp only at h
    split at h
    case isTrue hpost =>
      cases h
      simpa [saves, hpost] using hview
    case isFalse hpost =>
      rcases map_eq_some_iff.1 h with ⟨q, hq, hr⟩
      have hq := saveSnoop_view hq
      rw [hview] at hq
      have hr : r.1.view = q.1.view := by
        split at hr
        · rw [← hr]
          rfl
        · rw [← hr]
      rw [hr, hq]
      simp [saves, hservice.1, hservice.2, hpost]

theorem splitSnoops_arrivals {ts ready left : List Target}
    (h : splitSnoops ts = some (ready, left)) :
    StagedQueue.Split Arrival.isClient Arrival.isFence (ts.map Target.arrival)
        (ready.map Target.arrival) (left.map Target.arrival) ∧
      ∀ a ∈ ready.map Target.arrival, a.isClient = false := by
  induction ts generalizing ready left with
  | nil =>
    cases h
    exact ⟨split_all [], by simp⟩
  | cons t ts ih =>
    cases hsource : t.source with
    | FromCPU =>
      simp only [splitSnoops, hsource] at h
      rcases map_eq_some_iff.1 h with ⟨r, hr, heq⟩
      cases heq
      rcases ih hr with ⟨hsplit, hready⟩
      refine ⟨hsplit.cons_left hready ?_, hready⟩
      simp [Arrival.isFence, Target.arrival, hsource]
    | FromSnoop =>
      simp only [splitSnoops, hsource] at h
      rcases map_eq_some_iff.1 h with ⟨r, hr, heq⟩
      cases heq
      rcases ih hr with ⟨hsplit, hready⟩
      refine ⟨hsplit.cons_ready t.arrival, forall_mem_cons.2 ⟨?_, hready⟩⟩
      simp [Arrival.isClient, Target.arrival, hsource]
    | FromPrefetcher => simp [splitSnoops, hsource] at h

theorem extractServiceableTargets_view {r : MSHR × TargetList}
    (h : M.extractServiceableTargets cmd = some r) :
    ∃ left, r.1.view = { M.view with current := left } ∧
      StagedQueue.Split Arrival.isClient Arrival.isFence M.view.current r.2.arrivals left := by
  simp only [extractServiceableTargets] at h
  split at h
  case isTrue =>
    split at h
    case h_1 => cases h
    case h_2 first rest hlist =>
      rcases ite_none_left_eq_some.1 h with ⟨-, h⟩
      rcases bind_eq_some_iff.1 h with ⟨q, hq, h⟩
      rcases bind_eq_some_iff.1 h with ⟨ready, hready, h⟩
      rcases map_eq_some_iff.1 h with ⟨left, hleft, rfl⟩
      refine ⟨q.2.map Target.arrival, ?_, ?_⟩
      · simp only [view]
        rw [populateFlags_arrivals hleft]
        rfl
      · rw [populateFlags_arrivals hready]
        have hcurrent : M.view.current = first.arrival :: rest.map Target.arrival := by
          simp [view, arrivals, hlist]
        rw [hcurrent]
        exact (splitSnoops_arrivals hq).1.cons_ready first.arrival
  case isFalse =>
    cases h
    exact ⟨[], rfl, split_all _⟩

theorem takeFront_view (M : MSHR) (curTick : ℕ) : (M.takeFront curTick).view = M.view := by
  unfold takeFront
  split
  · rfl
  · rfl

theorem promoteDeferredTargets_view {r : MSHR × Bool}
    (h : M.promoteDeferredTargets curTick = some r) :
    r.1.view = { M.view with current := M.view.current ++ M.view.deferred, deferred := [] } ∧
      (r.2 = false → r.1.view.current = []) := by
  simp only [promoteDeferredTargets] at h
  split at h
  case isTrue hempty =>
    have hcurrent : M.targets.arrivals = [] := by
      rw [arrivals, isEmpty_iff.1 hempty, map_nil]
    split at h
    case isTrue hdeferred =>
      cases h
      have hdeferred : M.deferredTargets.arrivals = [] := by
        rw [arrivals, isEmpty_iff.1 hdeferred, map_nil]
      simp [view, hcurrent, hdeferred]
    case isFalse =>
      cases h
      refine ⟨?_, nofun⟩
      rw [takeFront_view]
      simp only [view, hcurrent, nil_append]
      rw [show M.targets.resetFlags.arrivals = M.targets.arrivals from rfl, hcurrent]
  case isFalse =>
    rcases map_eq_some_iff.1 h with ⟨T, hT, rfl⟩
    refine ⟨?_, nofun⟩
    rw [takeFront_view]
    simp only [view]
    rw [populateFlags_arrivals hT]
    simp [arrivals]

/-- The deferred targets are promoted only while no invalidation is pending. -/
theorem promoteWritable_view (h : M.promoteWritable = some M') :
    M'.view = M.view ∨ (M.view.postInvalidate = false ∧
      M'.view = { M.view with current := M.view.current ++ M.view.deferred, deferred := [] }) := by
  simp only [promoteWritable] at h
  split at h
  case isFalse =>
    cases h
    exact .inl rfl
  case isTrue =>
    rcases ite_none_left_eq_some.1 h with ⟨-, h⟩
    split at h
    case isTrue =>
      cases h
      exact .inl rfl
    case isFalse hpost =>
      rcases ite_none_left_eq_some.1 h with ⟨-, h⟩
      rcases map_eq_some_iff.1 h with ⟨r, hr, rfl⟩
      have hpost : M.postInvalidate = false := by
        simp only [Bool.or_eq_true, not_or, Bool.not_eq_true] at hpost
        exact hpost.1
      refine .inr ⟨hpost, ?_⟩
      have harrivals := clearDownstreamPending_arrivals hr
      simp only [arrivals] at harrivals
      simp [view, arrivals, harrivals]

end Calls

/-! ## The order of the answers -/

namespace Session

/-- The MSHR as a queue in two stages. -/
def queue (S : Session) : StagedQueue Arrival where
  added := S.added
  returned := S.returned
  current := S.mshr.view.current
  deferred := S.mshr.view.deferred

structure Inv (S : Session) : Prop where
  orderly : S.queue.Orderly Arrival.order Arrival.isClient Arrival.isFence
  below : ∀ a ∈ S.added, a.order < S.nextOrder
  fence : ∀ f ∈ S.mshr.view.current, f.isFence = true →
    S.phase = .inService ∧ S.mshr.view.postInvalidate = true
  idle : S.phase = .pending → S.mshr.view.inService = false
  busy : S.phase = .inService → S.mshr.view.inService = true
  promoted : S.phase ≠ .inService → S.phase ≠ .extracted → S.mshr.view.deferred = []
  drained : S.phase = .free ∨ S.phase = .drained → S.mshr.view.current = []

theorem fence_not_client (a : Arrival) (h : a.isFence = true) : a.isClient = false := by
  simp only [Arrival.isFence, Bool.and_eq_true, decide_eq_true_eq] at h
  simp [Arrival.isClient, h.1]

theorem of_unfenced {P : Prop} {as : List Arrival} (h : ∀ f ∈ as, f.isFence = false) :
    ∀ f ∈ as, f.isFence = true → P := by
  intro f hf hfence
  rw [h f hf] at hfence
  cases hfence

section Steps

variable {S S' : Session} {M : MSHR}

theorem inv_initial : ({} : Session).Inv where
  orderly := orderly_empty
  below := by simp
  fence := by simp [view, arrivals]
  idle := nofun
  busy := nofun
  promoted := fun _ _ => rfl
  drained := fun _ => rfl

variable (hS : S.Inv)
include hS

theorem Inv.unfenced (hphase : S.phase ≠ .inService) :
    ∀ f ∈ S.mshr.view.current, f.isFence = false := by
  intro f hf
  by_contra hfence
  exact hphase (hS.fence f hf (by simpa using hfence)).1

theorem Inv.unfenced_of_not_post (hpost : S.mshr.view.postInvalidate = false) :
    ∀ f ∈ S.mshr.view.current, f.isFence = false := by
  intro f hf
  by_contra hfence
  have htrue := (hS.fence f hf (by simpa using hfence)).2
  rw [hpost] at htrue
  cases htrue

theorem Inv.later (horder : S.nextOrder ≤ order) : ∀ b ∈ S.added, b.order < order :=
  fun b hb => Nat.lt_of_lt_of_le (hS.below b hb) horder

theorem below_arrive (horder : S.nextOrder ≤ order) :
    ∀ a ∈ (S.arrive order source pkt).added, a.order < order + 1 :=
  forall_mem_append.2 ⟨fun a ha => Nat.lt_succ_of_lt (hS.later horder a ha),
    forall_mem_singleton.2 (Nat.lt_succ_self _)⟩

theorem Inv.same (hM : M.view = S.mshr.view) : Inv { S with mshr := M } := by
  refine ⟨?_, hS.below, ?_, ?_, ?_, ?_, ?_⟩
  · have hqueue : queue { S with mshr := M } = S.queue := by simp [queue, hM]
    rw [hqueue]
    exact hS.orderly
  · simp only [hM]
    exact hS.fence
  · simp only [hM]
    exact hS.idle
  · simp only [hM]
    exact hS.busy
  · simp only [hM]
    exact hS.promoted
  · simp only [hM]
    exact hS.drained

theorem Inv.merge {phase : Phase} (hM : M.view = { S.mshr.view with
      current := S.mshr.view.current ++ S.mshr.view.deferred, deferred := [] })
    (hunfenced : ∀ f ∈ S.mshr.view.current, f.isFence = false)
    (hidle : phase = .pending → S.mshr.view.inService = false)
    (hbusy : phase = .inService → S.mshr.view.inService = true)
    (hdrained : phase = .free ∨ phase = .drained → M.view.current = []) :
    Inv { S with mshr := M, phase := phase } := by
  refine ⟨?_, hS.below, ?_, ?_, ?_, ?_, hdrained⟩
  · have hqueue : queue { S with mshr := M, phase := phase } = S.queue.merge := by
      simp [queue, hM, StagedQueue.merge]
    rw [hqueue]
    exact hS.orderly.merge fence_not_client fun _ => hunfenced
  · intro f hf hfence
    simp only [hM] at hf
    rcases mem_append.1 hf with hcurrent | hdeferred
    · exact of_unfenced hunfenced f hcurrent hfence
    · -- only targets of the CPU are deferred
      have hclient := hS.orderly.deferred_client f hdeferred
      rw [fence_not_client f hfence] at hclient
      cases hclient
  · simp only [hM]
    exact hidle
  · simp only [hM]
    exact hbusy
  · intro _ _
    simp only [hM]

theorem inv_allocate (hphase : S.phase = .free) (horder : S.nextOrder ≤ order)
    (h : S.run (.allocate blkSize target whenReady order allocOnFill) = some S') : S'.Inv := by
  rcases map_eq_some_iff.1 h with ⟨M, hM, rfl⟩
  have hview := allocate_view hM
  have hdeferred := hS.promoted (by simp [hphase]) (by simp [hphase])
  have hunfenced := hS.unfenced (by simp [hphase])
  have hsource :
      ∀ r w, (⟨order, if target.cmd = .HardPFReq then .FromPrefetcher else .FromCPU, r, w⟩ :
      Arrival).isFence = false := by
    intro r w
    by_cases hcmd : target.cmd = .HardPFReq
    · simp [Arrival.isFence, hcmd]
    · simp [Arrival.isFence, hcmd]
  refine ⟨?_, below_arrive hS horder, ?_, ?_, nofun, ?_, by simp⟩
  · have hpush := hS.orderly.push (a := ⟨order, if target.cmd = .HardPFReq then .FromPrefetcher
      else .FromCPU, target.req, target.cmd.needsWritable⟩) (hS.later horder) (fence_not_client _)
      (fun _ => hdeferred) (fun _ => hunfenced)
    simpa [queue, hview, push, arrive] using hpush
  · simp only [hview]
    exact of_unfenced (forall_mem_append.2 ⟨hunfenced, forall_mem_singleton.2 (hsource _ _)⟩)
  · intro _
    simp only [hview]
  · simp only [hview]
    exact fun _ _ => hdeferred

theorem inv_allocateTarget (hphase : S.phase = .pending ∨ S.phase = .inService)
    (horder : S.nextOrder ≤ order)
    (h : S.run (.allocateTarget pkt whenReady order allocOnFill) = some S') : S'.Inv := by
  rcases map_eq_some_iff.1 h with ⟨M, hM, rfl⟩
  have hneither : ¬(S.phase = .free ∨ S.phase = .drained) := by
    rcases hphase with hphase | hphase
    · simp [hphase]
    · simp [hphase]
  rcases allocateTarget_view hM with ⟨hservice, hview⟩ | ⟨hclear, hview⟩
  · have hbusy : S.phase = .inService := by
      rcases hphase with hpending | hbusy
      · rw [hS.idle hpending] at hservice
        cases hservice
      · exact hbusy
    refine ⟨?_, below_arrive hS horder, ?_, ?_, ?_, ?_, fun hphase => absurd hphase hneither⟩
    · have hdefer := hS.orderly.defer (a := ⟨order, .FromCPU, pkt.req, pkt.cmd.needsWritable⟩)
        (hS.later horder) (by simp [Arrival.isClient])
      simpa [queue, hview, defer, arrive] using hdefer
    · simp only [hview]
      exact hS.fence
    · simp only [hview]
      exact hS.idle
    · simp only [hview]
      exact hS.busy
    · exact fun hne => absurd hbusy hne
  · -- without a request in service nothing is deferred and no snoop is saved
    have hstage : S.mshr.view.deferred = [] ∧ ∀ f ∈ S.mshr.view.current, f.isFence = false := by
      rcases hphase with hpending | hbusy
      · exact ⟨hS.promoted (by simp [hpending]) (by simp [hpending]),
          hS.unfenced (by simp [hpending])⟩
      · rcases hclear (hS.busy hbusy) with ⟨hdeferred, hpost⟩
        exact ⟨hdeferred, hS.unfenced_of_not_post hpost⟩
    refine ⟨?_, below_arrive hS horder, ?_, ?_, ?_, ?_, fun hphase => absurd hphase hneither⟩
    · have hpush := hS.orderly.push (a := ⟨order, .FromCPU, pkt.req, pkt.cmd.needsWritable⟩)
        (hS.later horder) (fence_not_client _) (fun _ => hstage.1) (fun _ => hstage.2)
      simpa [queue, hview, push, arrive] using hpush
    · simp only [hview]
      exact of_unfenced (forall_mem_append.2 ⟨hstage.2,
        forall_mem_singleton.2 (by simp [Arrival.isFence])⟩)
    · simp only [hview]
      exact hS.idle
    · simp only [hview]
      exact hS.busy
    · simp only [hview]
      exact fun _ _ => hstage.1

theorem inv_handleSnoop
    (hphase : S.phase = .pending ∨ S.phase = .inService) (horder : S.nextOrder ≤ order)
    (h : S.run (.handleSnoop pkt curTick order) = some S') : S'.Inv := by
  rcases map_eq_some_iff.1 h with ⟨r, hr, rfl⟩
  have hview := handleSnoop_view hr
  cases hsaves : S.mshr.saves pkt with
  | false =>
    simp only [hsaves, Bool.false_eq_true, if_false] at hview ⊢
    exact hS.same hview
  | true =>
    simp only [hsaves, if_true] at hview ⊢
    have hservice : S.mshr.view.inService = true ∧ S.mshr.view.postInvalidate = false := by
      simp only [saves, Bool.and_eq_true, Bool.not_eq_true'] at hsaves
      exact ⟨hsaves.1.1.1, hsaves.1.2⟩
    have hbusy : S.phase = .inService := by
      rcases hphase with hpending | hbusy
      · rw [hS.idle hpending] at hservice
        cases hservice.1
      · exact hbusy
    have hunfenced := hS.unfenced_of_not_post hservice.2
    refine ⟨?_, below_arrive hS horder, ?_, ?_, ?_, ?_, by simp [hbusy, arrive]⟩
    · have hclient : ∀ b, (⟨order, .FromSnoop, pkt.req, b⟩ : Arrival).isClient = true → False :=
        fun _ => by simp [Arrival.isClient]
      have hpush := hS.orderly.push (a := ⟨order, .FromSnoop, pkt.req, pkt.cmd.needsWritable⟩)
        (hS.later horder) (fence_not_client _) (fun hc => (hclient _ hc).elim)
        (fun hc => (hclient _ hc).elim)
      simpa [queue, hview, push, arrive] using hpush
    · intro f hf hfence
      simp only [hview] at hf ⊢
      refine ⟨hbusy, ?_⟩
      rcases mem_append.1 hf with hold | hlast
      · exact of_unfenced hunfenced f hold hfence
      · -- an invalidating snoop leaves its mark
        rw [mem_singleton.1 hlast] at hfence
        simpa [Arrival.isFence] using hfence
    · simp only [hview]
      exact hS.idle
    · simp only [hview]
      exact hS.busy
    · exact fun hne => absurd hbusy hne

theorem inv_extract (h : S.run (.extractServiceableTargets cmd) = some S') : S'.Inv := by
  rcases map_eq_some_iff.1 h with ⟨r, hr, rfl⟩
  rcases extractServiceableTargets_view hr with ⟨left, hview, hsplit⟩
  refine ⟨?_, hS.below, ?_, nofun, nofun, fun _ hne => absurd rfl hne, by simp⟩
  · have hextract := hS.orderly.extract fence_not_client hsplit
    simpa [queue, hview, StagedQueue.extract] using hextract
  · simp only [hview]
    exact of_unfenced hsplit.unfenced

theorem inv_run (hallowed : S.Allowed c = true) (h : S.run c = some S') : S'.Inv := by
  cases c with
  | allocate blkSize target whenReady order allocOnFill =>
    simp only [Allowed, Bool.and_eq_true, decide_eq_true_eq] at hallowed
    exact inv_allocate hS hallowed.1 hallowed.2 h
  | allocateTarget pkt whenReady order allocOnFill =>
    simp only [Allowed, Bool.and_eq_true, Bool.or_eq_true, decide_eq_true_eq] at hallowed
    exact inv_allocateTarget hS hallowed.1 hallowed.2 h
  | handleSnoop pkt curTick order =>
    simp only [Allowed, Bool.and_eq_true, Bool.or_eq_true, decide_eq_true_eq] at hallowed
    exact inv_handleSnoop hS hallowed.1 hallowed.2 h
  | setForward isForward =>
    cases h
    exact hS.same rfl
  | markInService pendingModifiedResp =>
    rcases map_eq_some_iff.1 h with ⟨M, hM, rfl⟩
    have hview := markInService_view hM
    have hphase : S.phase = .pending := by simpa [Allowed] using hallowed
    refine ⟨?_, hS.below, ?_, nofun, ?_, fun hne => absurd rfl hne, by simp⟩
    · simpa [queue, hview] using hS.orderly
    · simp only [hview]
      exact of_unfenced (hS.unfenced (by simp [hphase]))
    · intro _
      simp only [hview]
  | promoteWritable =>
    rcases map_eq_some_iff.1 h with ⟨M, hM, rfl⟩
    rcases promoteWritable_view hM with hview | ⟨hpost, hview⟩
    · exact hS.same hview
    · have hneither : ¬(S.phase = .free ∨ S.phase = .drained) := by
        simp only [Allowed, Bool.or_eq_true, decide_eq_true_eq] at hallowed
        rcases hallowed with hphase | hphase
        · simp [hphase]
        · simp [hphase]
      exact hS.merge hview (hS.unfenced_of_not_post hpost) hS.idle hS.busy
        fun hphase => absurd hphase hneither
  | extractServiceableTargets cmd => exact inv_extract hS h
  | promoteDeferredTargets curTick =>
    rcases map_eq_some_iff.1 h with ⟨r, hr, rfl⟩
    have hphase : S.phase = .extracted := by simpa [Allowed] using hallowed
    rcases promoteDeferredTargets_view hr with ⟨hview, hnone⟩
    refine hS.merge hview (hS.unfenced (by simp [hphase])) ?_ ?_ ?_
    · split
      · nofun
      · nofun
    · split
      · nofun
      · nofun
    · intro hdrained
      apply hnone
      cases hpromoted : r.2 with
      | false => rfl
      | true => simp [hpromoted] at hdrained
  | markPending =>
    cases h
    have hphase : S.phase = .promoted := by simpa [Allowed] using hallowed
    refine ⟨hS.orderly, hS.below, ?_, fun _ => rfl, nofun, ?_, by simp⟩
    · exact of_unfenced (hS.unfenced (by simp [hphase]))
    · exact fun _ _ => hS.promoted (by simp [hphase]) (by simp [hphase])
  | deallocate =>
    rcases map_eq_some_iff.1 h with ⟨M, hM, rfl⟩
    have hview := deallocate_view hM
    have hphase : S.phase = .drained := by simpa [Allowed] using hallowed
    refine ⟨?_, hS.below, ?_, nofun, nofun, ?_, ?_⟩
    · simpa [queue, hview] using hS.orderly
    · simp only [hview]
      exact of_unfenced (hS.unfenced (by simp [hphase]))
    · simp only [hview]
      exact fun _ _ => hS.promoted (by simp [hphase]) (by simp [hphase])
    · simp only [hview]
      exact fun _ => hS.drained (.inr hphase)
  | setDownstreamPending =>
    simp only [run] at h
    split at h
    · cases h
    · cases h
      exact hS.same rfl
  | clearDownstreamPending =>
    rcases map_eq_some_iff.1 h with ⟨M, hM, rfl⟩
    exact hS.same (clearDownstreamPending_view hM)
  | setAbove mshr flag =>
    cases h
    exact hS.same rfl

theorem inv_step (h : S.step c = some S') : S'.Inv := by
  unfold step at h
  split at h
  case isTrue hallowed => exact inv_run hS hallowed h
  case isFalse => cases h

theorem Inv.sound : S.Sound where
  __ := hS.orderly
  inOrder := by
    have hall := hS.orderly.inOrder
    rw [StagedQueue.all, append_assoc, filter_append] at hall
    exact ⟨_, hall.symm⟩
  barrier := by
    intro i batch hi c hc hclient f hf hsnoop hwritable hlt
    exact hS.orderly.barrier i batch hi c hc (by simp [Arrival.isClient, hclient]) f hf
      (by simp [Arrival.isFence, hsnoop, hwritable]) hlt
  answered := by
    intro hphase
    have hkept := hS.orderly.kept
    have hcurrent : S.queue.current = [] := hS.drained (.inl hphase)
    have hdeferred : S.queue.deferred = [] := hS.promoted (by simp [hphase]) (by simp [hphase])
    rw [StagedQueue.all, hcurrent, hdeferred, append_nil, append_nil] at hkept
    exact hkept

end Steps

/-- Whatever the cache does with an MSHR, no packet is lost or returned twice, the packets of the
CPU are returned in the order of their arrival, and none of them before, or together with, an
invalidating snoop that was saved before it arrived. -/
theorem mshr_keepsOrder (calls : List Call) : Always step Sound {} calls :=
  Always.of_invariant (fun _ hS => hS.sound) (fun _ _ _ hS h => inv_step hS h) inv_initial

end Session

end MSHR

end EnocGem5.Mem
