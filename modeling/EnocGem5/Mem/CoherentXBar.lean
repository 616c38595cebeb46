import EnocGem5.Mem.SnoopEntry

/-!
# CoherentXBar — atomic accesses through a crossbar with a snoop filter

`recvAtomic` looks the request up in the snoop filter, snoops the caches it names, sends the request
on and tells the filter about the response; `recvAtomicSnoop` does the first two for a snoop from
below. While `sendAtomic` runs, the level below may snoop: `recvAtomic` is cut at that call, and its
rest is a step of its own.

The caches above are not part of the crossbar. What they do with a snoop is an argument of the
calls, and next to the crossbar the model keeps what they hold and whether they have kept the rules
of the protocol. The system does not bypass its caches; the port to which a request is sent on,
latencies, statistics and the network model do not touch the filter and are left out.
-/

namespace EnocGem5.Mem

open Lib List SnoopFilter Option

/-! ## The other components -/

/-- What a component does with a packet that is sent to it. -/
structure Reply where
  answers : Bool := false
  hasSharers : Bool := false
  cacheResponding : Bool := false
  responderHadWritable : Bool := false
  blockCached : Bool := false
  /-- A cache that is not told to drop its copy may still do so. -/
  keeps : Bool := true
  deriving DecidableEq, Repr

/-- `sendAtomic` or `sendAtomicSnoop`: the packet after the component has set its flags and, if it
answers, made it a response. -/
def Packet.send (pkt : Packet) (r : Reply) : Option Packet :=
  if pkt.cmd.isRequest then
    let pkt := { pkt with
      hasSharers := pkt.hasSharers || r.hasSharers
      cacheResponding := pkt.cacheResponding || r.cacheResponding
      responderHadWritable := pkt.responderHadWritable || r.responderHadWritable
      blockCached := pkt.blockCached || r.blockCached }
    if r.answers then pkt.makeResponse else some pkt
  else none

/-! ## The crossbar -/

/-- The parameters of `CoherentXBar` and its snoop filter; `isSnooping` says which of the master
ports that are connected to its slave ports snoop. -/
structure CoherentXBar where
  isSnooping : List Bool
  pointOfCoherency : Bool
  cacheLineSize : ℕ
  maxCapacity : ℕ
  deriving DecidableEq, Repr

namespace CoherentXBar

/-- Who sent the request that is forwarded. -/
structure Requester where
  port : SlavePort
  /-- The filter waits for an answer to the request. -/
  tracked : Bool
  /-- The cache keeps the line once it is answered. -/
  fills : Bool
  deriving DecidableEq, Repr

/-- A request for which `sendAtomic` has not returned yet. -/
structure Frame where
  pkt : Packet
  requester : Requester
  line : ℕ
  snoopResponseCmd : MemCmd
  deriving DecidableEq, Repr

/-- The filter of a crossbar, its open requests, and what is known of the caches: which lines they
hold, and whether they have kept the rules. -/
structure Session where
  filter : SnoopFilter
  frames : List Frame := []
  holds : SlavePort → ℕ → Bool := fun _ _ => false
  obeys : Bool := true

def Session.setHolds (S : Session) (p : SlavePort) (line : ℕ) (b : Bool) : Session :=
  { S with holds := fun q l => if q = p ∧ l = line then b else S.holds q l }

/-- The variables of `forwardAtomic`. -/
structure Forward where
  session : Session
  pkt : Packet
  snoopResponseCmd : MemCmd := .InvalidCmd

variable (sh : WordShift) (X : CoherentXBar) {pkt₀ : Packet}

/-- The constructor enumerates the ports from zero. -/
def slavePorts : List SlavePort := X.isSnooping.zipIdx.map fun r => ⟨r.2, r.1⟩

/-- `init`. -/
def start : Option Session :=
  ((create X.cacheLineSize X.maxCapacity).setSlavePorts X.slavePorts).map
    fun F => { filter := F }

def sinkPacket (pkt : Packet) : Bool :=
  (X.pointOfCoherency && pkt.cacheResponding) ||
    (X.pointOfCoherency && !(pkt.cmd.isRead || pkt.cmd.isWrite) && !pkt.cmd.needsResponse) ||
    (pkt.isCleanEviction && pkt.blockCached) ||
    (pkt.cacheResponding && (!pkt.cmd.needsWritable || pkt.responderHadWritable))

/-- A snoop is not sent back to where the request came from. -/
def excluded (requester : Option Requester) (p : SlavePort) : Bool :=
  requester.any fun r => r.port.id = p.id

variable (S : Session)

/-- A cache's copy after a snoop; an invalidating one takes it away. -/
def keepsCopy (replies : SlavePort → Reply) (st : Forward) (p : SlavePort) : Bool :=
  st.session.holds p (st.session.filter.lineAddr st.pkt) && (replies p).keeps &&
    !st.pkt.cmd.isInvalidate

/-- The snooped cache has taken notice. -/
def noticed (replies : SlavePort → Reply) (st : Forward) (p : SlavePort) : Session :=
  let line := st.session.filter.lineAddr st.pkt
  { st.session.setHolds p line (keepsCopy replies st p) with
    -- a cache does not drop its copy unless the snoop invalidates it
    obeys := st.session.obeys &&
      (st.pkt.cmd.isInvalidate || !st.session.holds p line || keepsCopy replies st p) }

/-- A cache has answered a snoop with `pkt`; `keeps` says whether it has kept a copy. -/
def answered (invalidate keeps : Bool) (pkt : Packet) : Session :=
  -- it has a copy to answer with, and sets `hasSharers` if the copy is not invalidated
  { S with obeys := S.obeys && (invalidate || (keeps && pkt.hasSharers)) }

/-- The filter is told about the answer to a snoop; a request is answered with it. -/
def settle (requester : Option Requester) (p : SlavePort) (line : ℕ) (pkt : Packet) :
    Option Session :=
  match requester with
  | none => (S.filter.updateSnoopForward pkt).map fun F => { S with filter := F }
  | some r => (S.filter.updateSnoopResponse sh pkt p r.port).map fun F =>
    if r.tracked && r.fills then { S with filter := F }.setHolds r.port line true
    else { S with filter := F }

/-- An iteration of `forwardAtomic`. A snoop from below has no requester. -/
def snoop (origCmd : MemCmd) (requester : Option Requester) (replies : SlavePort → Reply)
    (st : Forward) (p : SlavePort) : Option Forward :=
  if excluded requester p then some st
  else
    let line := st.session.filter.lineAddr st.pkt
    let S := noticed replies st p
    (st.pkt.send (replies p)).bind fun pkt =>
      if !pkt.cmd.isResponse then some { st with session := S, pkt := pkt }
      else if pkt.cmd ≠ origCmd && pkt.cacheResponding && st.snoopResponseCmd = .InvalidCmd then
        let S := answered S st.pkt.cmd.isInvalidate (keepsCopy replies st p) pkt
        (settle sh S requester p line pkt).map fun S =>
          -- restore the original command for the remaining snoopers
          { session := S, pkt := { pkt with cmd := origCmd }, snoopResponseCmd := pkt.cmd }
      else none

def forwardAtomic (st : Forward) (requester : Option Requester) (replies : SlavePort → Reply)
    (dests : List SlavePort) : Option Forward :=
  dests.foldlM (snoop sh st.pkt.cmd requester replies) st

/-- The rest of `recvAtomic` once the packet is back from below, with the packet that the requester
gets. -/
def finish (f : Frame) (pkt : Packet) : Option (Session × Packet) :=
  (if pkt.cmd.isResponse then S.filter.updateResponse sh pkt f.requester.port
    else some S.filter).bind fun F =>
      if f.snoopResponseCmd = .InvalidCmd then
        if pkt.cmd.isResponse && f.requester.tracked && f.requester.fills then
          some ({ S with filter := F }.setHolds f.requester.port f.line true, pkt)
        else some ({ S with filter := F }, pkt)
      else if pkt.cmd.isResponse then none
      else some ({ S with filter := F }, { pkt with cmd := f.snoopResponseCmd })

variable (pkt : Packet)

/-- The requester, for a request that the filter may have to track. -/
def requester (port : SlavePort) (fills : Bool) : Requester where
  port := port
  tracked := allocates pkt port && pkt.cmd.needsResponse && !pkt.cacheResponding
  fills := fills

/-- What a request says about the cache that sends it: an eviction gives the line up, and there is
at most one outstanding request for a line. -/
def sends (port : SlavePort) : Session :=
  let line := S.filter.lineAddr pkt
  let S := { S with
    obeys := S.obeys && !(port.isSnooping && pkt.cmd.needsResponse &&
      S.frames.any fun f => f.requester.port = port && f.line = line) }
  if pkt.cmd.isEviction && !pkt.blockCached then S.setHolds port line false else S

/-- `recvAtomic` up to `sendAtomic`, or to its end if nothing is sent on. -/
def recvAtomic (slavePortId : ℕ) (replies : SlavePort → Reply) (fills : Bool) : Option Session :=
  -- `sendAtomic` of the requester asserts that the packet is a request
  (X.slavePorts[slavePortId]?.filter fun _ => pkt.cmd.isRequest).bind fun port =>
    let line := S.filter.lineAddr pkt
    let S := sends S pkt port
    (S.filter.lookupRequest sh pkt port).bind fun r =>
      (r.1.finishRequest false pkt.addr pkt.isSecure).bind fun F =>
        (forwardAtomic sh ⟨{ S with filter := F }, pkt, .InvalidCmd⟩
          (some (requester pkt port fills)) replies r.2).bind fun st =>
            let f : Frame := ⟨st.pkt, requester pkt port fills, line, st.snoopResponseCmd⟩
            if X.sinkPacket st.pkt then (finish sh st.session f st.pkt).map Prod.fst
            else if !X.pointOfCoherency || st.pkt.cmd.isRead || st.pkt.cmd.isWrite then
              some { st.session with frames := f :: st.session.frames }
            else st.pkt.makeResponse.bind fun pkt => (finish sh st.session f pkt).map Prod.fst

def sendAtomicReturns (reply : Reply) : Option Session :=
  match S.frames with
  | [] => none
  | f :: frames =>
    (f.pkt.send reply).bind fun pkt => (finish sh { S with frames := frames } f pkt).map Prod.fst

/-- The session after `recvAtomicSnoop`, with the packet it returns. -/
def recvAtomicSnoop (replies : SlavePort → Reply) : Option (Session × Packet) :=
  (S.filter.lookupSnoop sh pkt).bind fun r =>
    (forwardAtomic sh ⟨{ S with filter := r.1 }, pkt, .InvalidCmd⟩ none replies r.2).map fun st =>
      (st.session, if st.snoopResponseCmd = .InvalidCmd then st.pkt
        else { st.pkt with cmd := st.snoopResponseCmd })

inductive Call
  | recvAtomic (pkt : Packet) (slavePortId : ℕ) (replies : SlavePort → Reply) (fills : Bool)
  | sendAtomicReturns (reply : Reply)
  | recvAtomicSnoop (pkt : Packet) (replies : SlavePort → Reply)

def step : Call → Option Session
  | .recvAtomic pkt slavePortId replies fills => X.recvAtomic sh S pkt slavePortId replies fills
  | .sendAtomicReturns reply => sendAtomicReturns sh S reply
  | .recvAtomicSnoop pkt replies => (recvAtomicSnoop sh S pkt replies).map Prod.fst

/-- Every copy is known to the filter, so a lookup names every other cache that has one. -/
structure Sound (S : Session) : Prop where
  holder : ∀ p ∈ X.slavePorts, ∀ line, S.holds p line = true →
    ∃ item, S.filter.cachedLocations.lookup line = some item ∧
      item.holder &&& S.filter.portToMask sh p ≠ 0
  request : ∀ pkt, ∀ port ∈ X.slavePorts, ∀ F dests,
    S.filter.lookupRequest sh pkt port = some (F, dests) → ∀ p ∈ X.slavePorts, p ≠ port →
      S.holds p (S.filter.lineAddr pkt) = true → p ∈ dests
  snoop : ∀ pkt F dests, S.filter.lookupSnoop sh pkt = some (F, dests) → ∀ p ∈ X.slavePorts,
    S.holds p (S.filter.lineAddr pkt) = true → p ∈ dests

/-! ## Ports and packets -/

variable {pkt} {F G : SnoopFilter} {p q : SlavePort} {r : Option Requester}
  {ds dests : List SlavePort} {line l : ℕ} {st : Forward} {frames : List Frame}

section Packets

variable {sh X} {pkt' : Packet} {q : SlavePort}

theorem map_id_slavePorts : X.slavePorts.map (·.id) = List.range X.isSnooping.length := by
  rw [slavePorts, List.map_map]
  exact (zipIdx_map_snd 0 X.isSnooping).trans range_eq_range'.symm

theorem eq_of_id (hp : p ∈ X.slavePorts) (hq : q ∈ X.slavePorts) (h : p.id = q.id) : p = q := by
  have hnodup : (X.slavePorts.map (·.id)).Nodup := by
    rw [map_id_slavePorts]
    exact nodup_range
  exact inj_on_of_nodup_map hnodup hp hq h

theorem properIds : SnoopFilter.ProperIds X.slavePorts where
  nodup := by
    have hsub : ((X.slavePorts.filter (·.isSnooping)).map (·.id)).Sublist
        (X.slavePorts.map (·.id)) := filter_sublist.map _
    refine hsub.nodup ?_
    rw [map_id_slavePorts]
    exact nodup_range
  lt_length := by
    intro p hp _
    have hmem : p.id ∈ X.slavePorts.map (·.id) := mem_map_of_mem hp
    rw [map_id_slavePorts, mem_range] at hmem
    simpa [slavePorts] using hmem

/-- What a component leaves of a packet. -/
structure Replied (pkt pkt' : Packet) : Prop where
  addr : pkt'.addr = pkt.addr
  isSecure : pkt'.isSecure = pkt.isSecure
  req : pkt'.req = pkt.req
  needs : pkt'.cmd.isResponse = true → pkt.cmd.needsResponse = true
  same : pkt'.cmd.isResponse = false → pkt'.cmd = pkt.cmd

theorem isResponse_of_isRequest {cmd : MemCmd} (h : cmd.isRequest = true) :
    cmd.isResponse = false := by
  cases cmd <;> first | rfl | exact absurd h (by decide)

theorem replied_makeResponse (h : pkt.makeResponse = some pkt') : Replied pkt pkt' := by
  rcases ite_none_right_eq_some.1 h with ⟨hcond, h⟩
  cases h
  rw [Bool.and_eq_true] at hcond
  have hresponse := MemCmd.responseCommand_isResponse hcond.1
  exact ⟨rfl, rfl, rfl, fun _ => hcond.1, fun h => absurd (hresponse.symm.trans h) (by decide)⟩

theorem replied_self (h : pkt.cmd.isRequest = true) : Replied pkt pkt :=
  ⟨rfl, rfl, rfl, fun hresponse =>
    absurd ((isResponse_of_isRequest h).symm.trans hresponse) (by decide), fun _ => rfl⟩

theorem replied_send {r : Reply} (h : pkt.send r = some pkt') : Replied pkt pkt' := by
  rcases ite_none_right_eq_some.1 h with ⟨hrequest, h⟩
  split at h
  case isTrue =>
    have hreplied := replied_makeResponse h
    exact { hreplied with }
  case isFalse =>
    cases h
    have hreplied := replied_self hrequest
    exact ⟨rfl, rfl, rfl, hreplied.needs, hreplied.same⟩

/-- The line of a packet, in the filter of the crossbar. -/
def lineAddr (X : CoherentXBar) (pkt : Packet) : ℕ :=
  lineKey (pkt.getBlockAddr X.cacheLineSize) pkt.isSecure

theorem lineAddr_eq (h : F.linesize = X.cacheLineSize) (pkt : Packet) :
    F.lineAddr pkt = X.lineAddr pkt := by
  rw [SnoopFilter.lineAddr, lineAddr, h]

theorem Replied.lineAddr (h : Replied pkt pkt') : X.lineAddr pkt' = X.lineAddr pkt := by
  simp only [CoherentXBar.lineAddr, Packet.getBlockAddr, h.addr, h.isSecure]

theorem excluded_self (r : Requester) : excluded (some r) r.port = true := by
  simp [excluded]

end Packets

/-! ## The invariant -/

/-- The filter waits for the answer to the request. -/
def Frame.waits (f : Frame) : Bool := f.requester.tracked && f.snoopResponseCmd = .InvalidCmd

/-- The caches that still have a copy while the snoops of a request for `line` are sent to `ds`. The
request is `open` until one of them has answered. -/
structure Snooping (invalidate : Bool) (r : Option Requester) (line : ℕ) (ds : List SlavePort)
    (waits : Bool) (S : Session) : Prop where
  linesize : S.filter.linesize = X.cacheLineSize
  faithful : S.filter.Faithful sh X.slavePorts
  mem : ∀ q l, S.holds q l = true → q ∈ X.slavePorts ∧ q.isSnooping = true
  /-- A copy that is to be invalidated may be unknown to the filter by now. -/
  doomed : ∀ q, invalidate = true → excluded r q = false → S.holds q line = true → q ∈ ds
  kept : ∀ q l, S.holds q l = true → (l = line → invalidate = true → excluded r q = true) →
    S.filter.Marked sh (S.filter.entry l).holder q
  ports : ∀ f ∈ S.frames, f.requester.port ∈ X.slavePorts
  waiting : ∀ f ∈ S.frames, f.waits = true →
    S.filter.Marked sh (S.filter.entry f.line).requested f.requester.port
  own : ∀ q, r = some q → q.tracked = true → waits = true →
    S.filter.Marked sh (S.filter.entry line).requested q.port

/-- The requester of a request for `line`, against the open requests. -/
structure Sender (pkt : Packet) (r : Requester) (line : ℕ) (frames : List Frame) : Prop where
  mem : r.port ∈ X.slavePorts
  tracked : r.tracked = true → r.port.isSnooping = true ∧ pkt.req.isUncacheable = false
  apart : r.port.isSnooping = true → pkt.cmd.needsResponse = true →
    ∀ f ∈ frames, f.waits = true → ¬ (f.requester.port = r.port ∧ f.line = line)

/-- Between the calls every copy is marked, and every open request whose answer is still to come. -/
structure Inv (S : Session) : Prop where
  linesize : S.filter.linesize = X.cacheLineSize
  faithful : S.filter.Faithful sh X.slavePorts
  mem : ∀ q l, S.holds q l = true → q ∈ X.slavePorts ∧ q.isSnooping = true
  kept : ∀ q l, S.holds q l = true → S.filter.Marked sh (S.filter.entry l).holder q
  waiting : ∀ f ∈ S.frames, f.waits = true →
    S.filter.Marked sh (S.filter.entry f.line).requested f.requester.port
  line : ∀ f ∈ S.frames, f.line = X.lineAddr f.pkt
  senders : ∀ f frames, f :: frames <:+ S.frames → Sender X f.pkt f.requester f.line frames

/-- A request that is not among the open ones of `S`, as it comes back from below. -/
structure Returns (S : Session) (f : Frame) : Prop where
  sender : Sender X f.pkt f.requester f.line S.frames
  own : f.waits = true → S.filter.Marked sh (S.filter.entry f.line).requested f.requester.port
  line : f.line = X.lineAddr f.pkt

section Loop

variable {sh X S} {invalidate waits waits' keeps : Bool} {item : SnoopItem}

theorem Snooping.skip (h : Snooping sh X invalidate r line (p :: ds) waits S)
    (hp : excluded r p = true) : Snooping sh X invalidate r line ds waits S := by
  refine { h with doomed := ?_ }
  intro q hinv hq hholds
  rcases mem_cons.1 (h.doomed q hinv hq hholds) with rfl | hmem
  · exact absurd (hq.symm.trans hp) (by decide)
  · exact hmem

theorem Snooping.setHolds (h : Snooping sh X invalidate r line (p :: ds) waits S)
    (hkeeps : keeps = true → S.holds p line = true ∧ invalidate = false) :
    Snooping sh X invalidate r line ds waits (S.setHolds p line keeps) := by
  have hholds : ∀ q l, (S.setHolds p line keeps).holds q l = true → S.holds q l = true := by
    intro q l hq
    simp only [Session.setHolds] at hq
    split at hq
    case isTrue heq =>
      rcases heq with ⟨rfl, rfl⟩
      exact (hkeeps hq).1
    case isFalse => exact hq
  refine { h with
    mem := fun q l hq => h.mem q l (hholds q l hq), doomed := ?_,
      kept := fun q l hq => h.kept q l (hholds q l hq) }
  intro q hinv hq hq'
  rcases mem_cons.1 (h.doomed q hinv hq (hholds q line hq')) with rfl | hmem
  · -- the snooped cache has no copy any more
    simp only [Session.setHolds, and_self, if_true] at hq'
    exact absurd ((hkeeps hq').2.symm.trans hinv) (by decide)
  · exact hmem

variable (h : Snooping sh X invalidate r line ds waits S)

include h in
theorem Snooping.write (hwrites : SnoopFilter.Writes line item S.filter F)
    (hholder : ∀ q, S.holds q line = true → (invalidate = true → excluded r q = true) →
      S.filter.Marked sh item.holder q)
    (hrequested : ∀ f ∈ S.frames, f.waits = true → f.line = line →
      S.filter.Marked sh item.requested f.requester.port)
    (hown : ∀ q, r = some q → q.tracked = true → waits' = true →
    S.filter.Marked sh item.requested q.port) :
    Snooping sh X invalidate r line ds waits' { S with filter := F } := by
  refine ⟨hwrites.ports.linesize.trans h.linesize, hwrites.ports.faithful h.faithful, h.mem,
    h.doomed, ?_, h.ports, ?_, ?_⟩
  · intro q l hq hl
    rw [hwrites.ports.marked, hwrites.entry]
    split
    case isTrue heq =>
      subst heq
      exact hholder q hq (hl rfl)
    case isFalse => exact h.kept q l hq hl
  · intro f hf hwaits
    rw [hwrites.ports.marked, hwrites.entry]
    split
    case isTrue heq => exact hrequested f hf hwaits heq
    case isFalse => exact h.waiting f hf hwaits
  · intro q hq htracked hwaits
    rw [hwrites.ports.marked, hwrites.entry, if_pos rfl]
    exact hown q hq htracked hwaits

variable {q : Requester}

theorem Snooping.fill (h : Snooping sh X invalidate (some q) line ds waits S)
    (hmem : q.port ∈ X.slavePorts ∧ q.port.isSnooping = true)
    (hmarked : S.filter.Marked sh (S.filter.entry line).holder q.port) :
    Snooping sh X invalidate (some q) line ds waits (S.setHolds q.port line true) := by
  have hholds : ∀ p l, (S.setHolds q.port line true).holds p l = true →
      (p = q.port ∧ l = line) ∨ S.holds p l = true := by
    intro p l hp
    simp only [Session.setHolds] at hp
    split at hp
    case isTrue heq => exact .inl heq
    case isFalse => exact .inr hp
  refine { h with mem := ?_, doomed := ?_, kept := ?_ }
  · intro p l hp
    rcases hholds p l hp with ⟨rfl, _⟩ | hp
    · exact hmem
    · exact h.mem p l hp
  · intro p hinv hp hheld
    rcases hholds p line hheld with ⟨rfl, _⟩ | hheld
    · exact absurd (hp.symm.trans (excluded_self q)) (by decide)
    · exact h.doomed p hinv hp hheld
  · intro p l hp hl
    rcases hholds p l hp with ⟨rfl, rfl⟩ | hp
    · exact hmarked
    · exact h.kept p l hp hl

/-- What the rules say about an answer: other copies are dropped or announced. -/
def Announced (invalidate : Bool) (pkt : Packet) : Prop :=
  invalidate = true ∨ pkt.hasSharers = true

include h in
/-- The holders that stay marked when the filter is told about an answer. -/
theorem Snooping.dropped (hannounced : Announced invalidate pkt) {q : SlavePort}
    (hq : S.holds q line = true) (hdoomed : invalidate = true → excluded r q = true)
    (hnot : excluded r q = false) :
    S.filter.Marked sh (SnoopFilter.dropped pkt (S.filter.entry line)).holder q := by
  rcases hannounced with hinv | hsharers
  · exact absurd (hnot.symm.trans (hdoomed hinv)) (by decide)
  · rw [SnoopFilter.dropped, if_pos hsharers]
    exact h.kept q line hq fun _ => hdoomed

theorem dropped_requested (pkt : Packet) (item : SnoopItem) :
    (SnoopFilter.dropped pkt item).requested = item.requested := by
  unfold SnoopFilter.dropped
  split <;> rfl

theorem Snooping.settle_below (h : Snooping sh X invalidate none line ds waits S)
    (hF : S.filter.updateSnoopForward pkt = some F) (hline : X.lineAddr pkt = line)
    (hannounced : Announced invalidate pkt) :
    Snooping sh X invalidate none line ds waits { S with filter := F } := by
  have hwrites := (updateSnoopForward_entry hF).1
  rw [lineAddr_eq h.linesize, hline] at hwrites
  refine h.write hwrites ?_ ?_ nofun
  · intro q hq hdoomed
    exact h.dropped hannounced hq hdoomed rfl
  · intro f hf hwaits hline
    rw [dropped_requested, ← hline]
    exact h.waiting f hf hwaits

theorem port_ne_of_not_excluded (hp : excluded (some q) p = false) : p ≠ q.port := by
  rintro rfl
  exact absurd (hp.symm.trans (excluded_self q)) (by decide)

include h in
/-- An answer takes the requester's mark from the requests, and leaves those of the others. -/
theorem Snooping.answer_requested (hsender : Sender X pkt q line S.frames)
    (hneeds : pkt.cmd.needsResponse = true) (hsnoop : q.port.isSnooping = true) {f : Frame}
    (hf : f ∈ S.frames) (hwaits : f.waits = true) (hline : f.line = line) :
    S.filter.Marked sh ((S.filter.entry line).requested &&& ~~~S.filter.portToMask sh q.port)
      f.requester.port := by
  have hne : f.requester.port ≠ q.port := fun heq =>
    hsender.apart hsnoop hneeds f hf hwaits ⟨heq, hline⟩
  have hmarked := h.waiting f hf hwaits
  rw [h.faithful.marked_and_not (h.ports f hf) hsender.mem hmarked.isSnooping hne, ← hline]
  exact hmarked

theorem Snooping.settle_above (h : Snooping sh X invalidate (some q) line ds waits S)
    (hsender : Sender X pkt₀ q line S.frames) (hneeds : pkt₀.cmd.needsResponse = true)
    (hreq : pkt.req = pkt₀.req) (hF : S.filter.updateSnoopResponse sh pkt p q.port = some F)
    (hline : X.lineAddr pkt = line) (hannounced : Announced invalidate pkt) :
    Snooping sh X invalidate (some q) line ds false { S with filter := F } ∧
      (q.tracked = true → F.Marked sh (F.entry line).holder q.port) := by
  have hcases := updateSnoopResponse_entry hF
  rw [lineAddr_eq h.linesize, hline] at hcases
  rcases hcases with ⟨huntracked, rfl⟩ | ⟨hrequested, hwrites, -⟩
  · -- the filter does not follow the request
    refine ⟨{ h with own := nofun }, ?_⟩
    intro htracked
    have htracked := hsender.tracked htracked
    rw [hreq, htracked.2, htracked.1] at huntracked
    simp at huntracked
  · have hsnoop : q.port.isSnooping = true := SnoopFilter.Marked.isSnooping hrequested
    have hself : S.filter.Marked sh
        ((SnoopFilter.dropped pkt (S.filter.entry line)).answer
        (S.filter.portToMask sh q.port)).holder
        q.port :=
      marked_or.2 (.inr (h.faithful.marked_self hsender.mem hsnoop))
    constructor
    · refine h.write hwrites ?_ ?_ nofun
      · intro p hp hdoomed
        cases hexcluded : excluded (some q) p with
        | false => exact marked_or.2 (.inl (h.dropped hannounced hp hdoomed hexcluded))
        | true =>
          have hid : q.port.id = p.id := by simpa [excluded] using hexcluded
          rw [← eq_of_id hsender.mem (h.mem p line hp).1 hid]
          exact hself
      · intro f hf hwaits hline
        show S.filter.Marked sh (_ &&& ~~~_) _
        rw [dropped_requested]
        exact h.answer_requested hsender hneeds hsnoop hf hwaits hline
    · intro _
      rw [hwrites.ports.marked, hwrites.entry, if_pos rfl]
      exact hself

include h in
theorem Snooping.settle (hsender : ∀ q, r = some q → Sender X pkt₀ q line S.frames)
    (hneeds : pkt₀.cmd.needsResponse = true) (hreq : pkt.req = pkt₀.req)
    (hline : X.lineAddr pkt = line) (hannounced : Announced invalidate pkt) {S' : Session}
    (hS' : settle sh S r p line pkt = some S') : Snooping sh X invalidate r line ds false S' := by
  cases r with
  | none =>
    rcases map_eq_some_iff.1 hS' with ⟨F, hF, rfl⟩
    have hsettled := h.settle_below hF hline hannounced
    exact { hsettled with own := nofun }
  | some q =>
    rcases map_eq_some_iff.1 hS' with ⟨F, hF, rfl⟩
    have hsender := hsender q rfl
    rcases h.settle_above hsender hneeds hreq hF hline hannounced with ⟨hsettled, hmarked⟩
    split
    case isTrue hfills =>
      rw [Bool.and_eq_true] at hfills
      exact hsettled.fill ⟨hsender.mem, (hsender.tracked hfills.1).1⟩ (hmarked hfills.1)
    case isFalse => exact hsettled

end Loop

/-! ## The loop of `forwardAtomic` -/

/-- The variables of the loop of `forwardAtomic` for `pkt₀`, when the snoops to `ds` are left. -/
structure Forwarding (pkt₀ : Packet) (r : Option Requester) (frames : List Frame)
    (ds : List SlavePort) (st : Forward) : Prop where
  frames : st.session.frames = frames
  cmd : st.pkt.cmd = pkt₀.cmd
  req : st.pkt.req = pkt₀.req
  line : X.lineAddr st.pkt = X.lineAddr pkt₀
  snooping : Snooping sh X pkt₀.cmd.isInvalidate r (X.lineAddr pkt₀) ds
    (decide (st.snoopResponseCmd = .InvalidCmd)) st.session

section Iteration

variable {sh X} {origCmd : MemCmd} {replies : SlavePort → Reply} {st' : Forward} {pkt₀ pkt : Packet}

/-- What an iteration can do: nothing for the requester, otherwise a snoop without or with an
answer. -/
theorem snoop_cases (h : snoop sh origCmd r replies st p = some st') :
    (excluded r p = true ∧ st' = st) ∨
      ∃ pkt, Replied st.pkt pkt ∧
        ((pkt.cmd.isResponse = false ∧
          st' = { st with session := noticed replies st p, pkt := pkt }) ∨
            (pkt.cmd.isResponse = true ∧
                ∃ S, settle sh
                (answered (noticed replies st p) st.pkt.cmd.isInvalidate (keepsCopy replies st p)
                pkt) r p (st.session.filter.lineAddr st.pkt) pkt = some S ∧
              st' = ⟨S, { pkt with cmd := origCmd }, pkt.cmd⟩)) := by
  unfold snoop at h
  split at h
  case isTrue hexcluded =>
    cases h
    exact .inl ⟨hexcluded, rfl⟩
  case isFalse =>
    rcases bind_eq_some_iff.1 h with ⟨pkt, hpkt, h⟩
    refine .inr ⟨pkt, replied_send hpkt, ?_⟩
    split at h
    case isTrue hresponse =>
      cases h
      exact .inl ⟨by simpa using hresponse, rfl⟩
    case isFalse hresponse =>
      rcases ite_none_right_eq_some.1 h with ⟨-, h⟩
      rcases map_eq_some_iff.1 h with ⟨S, hS, rfl⟩
      exact .inr ⟨by simpa using hresponse, S, hS, rfl⟩

/-- Telling the filter about an answer changes neither the open requests nor what is said about the
caches' rules. -/
theorem settle_same {S S' : Session} (h : settle sh S r p line pkt = some S') :
    S'.frames = S.frames ∧ S'.obeys = S.obeys := by
  cases r with
  | none =>
    rcases map_eq_some_iff.1 h with ⟨F, _, rfl⟩
    exact ⟨rfl, rfl⟩
  | some q =>
    rcases map_eq_some_iff.1 h with ⟨F, _, rfl⟩
    split <;> exact ⟨rfl, rfl⟩

theorem obeys_of_noticed (h : (noticed replies st p).obeys = true) : st.session.obeys = true :=
  (Bool.and_eq_true _ _ ▸ h).1

/-- What the rules say when a cache answers. -/
theorem announced_of_answered {S : Session} {invalidate keeps : Bool}
    (h : (answered S invalidate keeps pkt).obeys = true) :
    S.obeys = true ∧ Announced invalidate pkt := by
  simp only [answered, Bool.and_eq_true, Bool.or_eq_true] at h
  exact ⟨h.1, h.2.imp_right And.right⟩

/-- Rules once broken stay broken. -/
theorem obeys_of_snoop (h : snoop sh origCmd r replies st p = some st')
    (hobeys : st'.session.obeys = true) : st.session.obeys = true := by
  rcases snoop_cases h with ⟨_, rfl⟩ | ⟨pkt, _, ⟨_, rfl⟩ | ⟨_, S, hS, rfl⟩⟩
  · exact hobeys
  · exact obeys_of_noticed hobeys
  · have hanswered := (settle_same hS).2.symm.trans hobeys
    exact obeys_of_noticed (announced_of_answered hanswered).1

theorem Forwarding.snoop (hst : Forwarding sh X pkt₀ r frames (p :: ds) st)
    (hsender : ∀ q, r = some q → Sender X pkt₀ q (X.lineAddr pkt₀) frames)
    (h : snoop sh pkt₀.cmd r replies st p = some st') (hobeys : st'.session.obeys = true) :
    Forwarding sh X pkt₀ r frames ds st' := by
  have hline : st.session.filter.lineAddr st.pkt = X.lineAddr pkt₀ :=
    (lineAddr_eq hst.snooping.linesize st.pkt).trans hst.line
  rcases snoop_cases h with ⟨hexcluded, rfl⟩ | ⟨pkt, hpkt, hcases⟩
  · exact { hst with snooping := hst.snooping.skip hexcluded }
  have hnoticed : Snooping sh X pkt₀.cmd.isInvalidate r (X.lineAddr pkt₀) ds
      (decide (st.snoopResponseCmd = .InvalidCmd)) (noticed replies st p) := by
    have hset : Snooping sh X pkt₀.cmd.isInvalidate r (X.lineAddr pkt₀) ds
        (decide (st.snoopResponseCmd = .InvalidCmd))
        (st.session.setHolds p (X.lineAddr pkt₀) (keepsCopy replies st p)) := by
      refine hst.snooping.setHolds ?_
      intro hkeeps
      simp only [keepsCopy, Bool.and_eq_true, Bool.not_eq_true', hline, hst.cmd] at hkeeps
      exact ⟨hkeeps.1.1, hkeeps.2⟩
    rw [noticed, hline]
    exact { hset with }
  have hpktLine : X.lineAddr pkt = X.lineAddr pkt₀ := hpkt.lineAddr.trans hst.line
  rcases hcases with ⟨hresponse, rfl⟩ | ⟨hresponse, S, hS, rfl⟩
  · exact ⟨hst.frames, (hpkt.same hresponse).trans hst.cmd, hpkt.req.trans hst.req, hpktLine,
      hnoticed⟩
  · -- an answer: the packet needed one
    have hneeds : pkt₀.cmd.needsResponse = true := hst.cmd ▸ hpkt.needs hresponse
    have hvalid : pkt.cmd ≠ .InvalidCmd := by
      intro hinvalid
      rw [hinvalid] at hresponse
      exact absurd hresponse (by decide)
    rcases settle_same hS with ⟨hframes, hsame⟩
    have hannounced : Announced pkt₀.cmd.isInvalidate pkt := by
      rw [← hst.cmd]
      exact (announced_of_answered (hsame.symm.trans hobeys)).2
    have hanswered : Snooping sh X pkt₀.cmd.isInvalidate r (X.lineAddr pkt₀) ds
        (decide (st.snoopResponseCmd = .InvalidCmd))
        (answered (noticed replies st p) st.pkt.cmd.isInvalidate (keepsCopy replies st p) pkt) :=
      { hnoticed with }
    refine ⟨hframes.trans hst.frames, rfl, hpkt.req.trans hst.req, hpktLine, ?_⟩
    have hsender : ∀ q, r = some q → Sender X pkt₀ q (X.lineAddr pkt₀) st.session.frames := by
      rw [hst.frames]
      exact hsender
    rw [hline] at hS
    have hsettled := hanswered.settle hsender hneeds (hpkt.req.trans hst.req) hpktLine hannounced hS
    simpa [hvalid] using hsettled

theorem obeys_of_forward (h : dests.foldlM (snoop sh origCmd r replies) st = some st')
    (hobeys : st'.session.obeys = true) : st.session.obeys = true := by
  induction dests generalizing st with
  | nil =>
    cases h
    exact hobeys
  | cons p dests ih =>
    rcases foldlM_cons_some h with ⟨st₁, hp, hrest⟩
    exact obeys_of_snoop hp (ih hrest)

theorem Forwarding.all (hst : Forwarding sh X pkt₀ r frames dests st)
    (hsender : ∀ q, r = some q → Sender X pkt₀ q (X.lineAddr pkt₀) frames)
    (h : dests.foldlM (CoherentXBar.snoop sh pkt₀.cmd r replies) st = some st')
    (hobeys : st'.session.obeys = true) : Forwarding sh X pkt₀ r frames [] st' := by
  induction dests generalizing st with
  | nil =>
    cases h
    exact hst
  | cons p dests ih =>
    rcases foldlM_cons_some h with ⟨st₁, hp, hrest⟩
    exact ih (hst.snoop hsender hp (obeys_of_forward hrest hobeys)) hrest

end Iteration

/-! ## Between the calls -/

section Calls

variable {sh X S} {S' : Session} {out : Packet} {port : SlavePort} {dests : List SlavePort}
  {fills : Bool} {f : Frame}

/-- After the loop no doomed copy is left. -/
theorem Forwarding.kept (h : Forwarding sh X pkt r frames [] st)
    (hq : st.session.holds q l = true) :
    st.session.filter.Marked sh (st.session.filter.entry l).holder q := by
  refine h.snooping.kept q l hq ?_
  intro hl hinvalidate
  subst hl
  cases hexcluded : excluded r q with
  | true => rfl
  | false => exact absurd (h.snooping.doomed q hinvalidate hexcluded hq) not_mem_nil

theorem Forwarding.inv (h : Forwarding sh X pkt r S.frames [] st) (hS : Inv sh X S) :
    Inv sh X st.session where
  __ := h.snooping
  kept := fun _ _ hq => h.kept hq
  line := by
    rw [h.frames]
    exact hS.line
  senders := by
    rw [h.frames]
    exact hS.senders

theorem Inv.port_mem (hS : Inv sh X S) (hf : f ∈ S.frames) : f.requester.port ∈ X.slavePorts := by
  rcases append_of_mem hf with ⟨newer, older, heq⟩
  exact (hS.senders f older (heq ▸ suffix_append newer _)).mem

theorem sends_filter : (sends S pkt port).filter = S.filter := by
  unfold sends
  split <;> rfl

theorem sends_frames : (sends S pkt port).frames = S.frames := by
  unfold sends
  split <;> rfl

theorem sends_holds (h : (sends S pkt port).holds q l = true) :
    S.holds q l = true ∧ ((pkt.cmd.isEviction && !pkt.blockCached) = true →
      ¬ (q = port ∧ l = S.filter.lineAddr pkt)) := by
  unfold sends at h
  split at h
  case isTrue hevict =>
    simp only [Session.setHolds] at h
    split at h
    case isTrue => cases h
    case isFalse hne => exact ⟨h, fun _ => hne⟩
  case isFalse hkeep => exact ⟨h, fun hevict => absurd hevict hkeep⟩

/-- What the rules say about a request. -/
theorem obeys_of_sends (h : (sends S pkt port).obeys = true) :
    S.obeys = true ∧ (port.isSnooping = true → pkt.cmd.needsResponse = true →
      ∀ f ∈ S.frames, ¬ (f.requester.port = port ∧ f.line = S.filter.lineAddr pkt)) := by
  have hobeys : (S.obeys && !(port.isSnooping && pkt.cmd.needsResponse &&
      S.frames.any fun f => f.requester.port = port && f.line = S.filter.lineAddr pkt)) = true := by
    unfold sends at h
    split at h <;> exact h
  rw [Bool.and_eq_true, Bool.not_eq_true'] at hobeys
  refine ⟨hobeys.1, ?_⟩
  intro hsnoop hneeds f hf hsame
  have hany := hobeys.2
  rw [hsnoop, hneeds, Bool.true_and, Bool.true_and, List.any_eq_false] at hany
  exact hany f hf (by simp [hsame])

section Frames

variable (hS : Inv sh X S)
include hS

theorem requester_sender (hport : port ∈ X.slavePorts) (hobeys : (sends S pkt port).obeys = true) :
    Sender X pkt (requester pkt port fills) (X.lineAddr pkt) S.frames where
  mem := hport
  tracked := by
    intro htracked
    simp only [requester, allocates, Bool.and_eq_true, Bool.not_eq_true'] at htracked
    exact ⟨htracked.1.1.1.2, htracked.1.1.1.1⟩
  apart := by
    intro hsnoop hneeds f hf _
    have hapart := (obeys_of_sends hobeys).2 hsnoop hneeds f hf
    rw [lineAddr_eq hS.linesize] at hapart
    exact hapart

/-- The ports that a request is forwarded to include every other cache that has a copy. -/
theorem Inv.mem_lookupRequest (hport : port ∈ X.slavePorts)
    (h : S.filter.lookupRequest sh pkt port = some (G, dests)) (hne : p ≠ port)
    (hp : S.holds p (S.filter.lineAddr pkt) = true) : p ∈ dests := by
  rcases hS.mem p _ hp with ⟨hmem, hsnoop⟩
  rw [(lookupRequest_entry h).1]
  refine hS.faithful.mem_of_marked hmem hsnoop ?_
  rw [hS.faithful.marked_and_not hmem hport hsnoop hne]
  exact marked_or.2 (.inl (hS.kept p _ hp))

theorem Inv.mem_lookupSnoop (h : S.filter.lookupSnoop sh pkt = some (G, dests))
    (hp : S.holds p (S.filter.lineAddr pkt) = true) : p ∈ dests := by
  rcases hS.mem p _ hp with ⟨hmem, hsnoop⟩
  rw [(lookupSnoop_entry h).1]
  exact hS.faithful.mem_of_marked hmem hsnoop (marked_or.2 (.inl (hS.kept p _ hp)))

/-- The loop starts for a request that has been looked up. -/
theorem Inv.request (hport : port ∈ X.slavePorts)
    (hlookup : S.filter.lookupRequest sh pkt port = some (G, dests))
    (hfinish : G.finishRequest false pkt.addr pkt.isSecure = some F) :
    Forwarding sh X pkt (some (requester pkt port fills)) S.frames dests
      ⟨{ sends S pkt port with filter := F }, pkt, .InvalidCmd⟩ := by
  refine ⟨sends_frames, rfl, rfl, rfl, ?_⟩
  rcases lookupRequest_entry hlookup with ⟨_, item, hitem, hwrites⟩
  rcases finishRequest_entry hfinish with ⟨hports, hentries⟩
  have htracked := requested_tracked hitem
  have hsame := hwrites.ports.trans hports
  have hline := lineAddr_eq hS.linesize pkt
  have hentry : ∀ l, F.entry l = if l = X.lineAddr pkt then item else S.filter.entry l := by
    intro l
    rw [hentries, hwrites.entry, hline]
  refine ⟨hsame.linesize.trans hS.linesize, hsame.faithful hS.faithful, ?_, ?_, ?_, ?_, ?_, ?_⟩
  · intro q l hq
    exact hS.mem q l (sends_holds hq).1
  · -- a copy that has to go is snooped
    intro q _ hexcluded hq
    refine hS.mem_lookupRequest hport hlookup ?_ (hline.symm ▸ (sends_holds hq).1)
    exact port_ne_of_not_excluded hexcluded
  · intro q l hq _
    rcases sends_holds hq with ⟨hheld, hgone⟩
    have hmarked := hS.kept q l hheld
    rw [hsame.marked, hentry]
    split
    case isFalse => exact hmarked
    case isTrue hl =>
      subst hl
      rw [hline] at htracked hgone
      rcases htracked.holder with hsame | ⟨hevict, hdrop⟩
      · exact hsame ▸ hmarked
      · -- the requester gives its copy up, the others keep theirs
        have hne : q ≠ port := fun heq => hgone hevict ⟨heq, rfl⟩
        rcases hS.mem q _ hheld with ⟨hmem, hsnoop⟩
        rw [hdrop, hS.faithful.marked_and_not hmem hport hsnoop hne]
        exact hmarked
  · rw [sends_frames]
    exact fun f hf => hS.port_mem hf
  · rw [sends_frames]
    intro f hf hwaits
    have hmarked := hS.waiting f hf hwaits
    rw [hsame.marked, hentry]
    split
    case isFalse => exact hmarked
    case isTrue hl =>
      rw [hl] at hmarked
      rw [hline] at htracked
      rcases htracked.requested with hsame | hmore
      · exact hsame ▸ hmarked
      · rw [hmore]
        exact marked_or.2 (.inl hmarked)
  · intro q hq hqtracked _
    cases hq
    have hsnoop : port.isSnooping = true := by
      simp only [requester, allocates, Bool.and_eq_true] at hqtracked
      exact hqtracked.1.1.1.2
    rw [hsame.marked, hentry, if_pos rfl, htracked.marks hqtracked]
    exact marked_or.2 (.inr (hS.faithful.marked_self hport hsnoop))

/-- The loop starts for a snoop from below. -/
theorem Inv.snoop (hlookup : S.filter.lookupSnoop sh pkt = some (F, dests)) :
    Forwarding sh X pkt none S.frames dests ⟨{ S with filter := F }, pkt, .InvalidCmd⟩ := by
  refine ⟨rfl, rfl, rfl, rfl, ?_⟩
  have hwrites := (lookupSnoop_entry hlookup).2.1
  have hline := lineAddr_eq hS.linesize pkt
  rw [hline] at hwrites
  refine ⟨hwrites.ports.linesize.trans hS.linesize, hwrites.ports.faithful hS.faithful, hS.mem,
    ?_, ?_, fun f hf => hS.port_mem hf, ?_, nofun⟩
  · intro q _ _ hq
    exact hS.mem_lookupSnoop hlookup (hline.symm ▸ hq)
  · intro q l hq hdoomed
    have hmarked := hS.kept q l hq
    rw [hwrites.ports.marked, hwrites.entry]
    split
    case isFalse => exact hmarked
    case isTrue hl =>
      subst hl
      -- the holders are cleared early for an invalidating snoop only
      have hinvalidate : pkt.cmd.isInvalidate = false := by
        cases hinv : pkt.cmd.isInvalidate with
        | false => rfl
        | true => exact absurd (hdoomed rfl hinv) (by simp [excluded])
      simpa [snooped, hinvalidate] using hmarked
  · intro f hf hwaits
    have hmarked := hS.waiting f hf hwaits
    rw [hwrites.ports.marked, hwrites.entry]
    split
    case isFalse => exact hmarked
    case isTrue hl =>
      rw [hl] at hmarked
      unfold snooped
      split <;> exact hmarked

theorem Inv.fill (hmem : p ∈ X.slavePorts ∧ p.isSnooping = true)
    (hmarked : S.filter.Marked sh (S.filter.entry line).holder p) :
    Inv sh X (S.setHolds p line true) := by
  have hholds : ∀ q l, (S.setHolds p line true).holds q l = true →
      (q = p ∧ l = line) ∨ S.holds q l = true := by
    intro q l hq
    simp only [Session.setHolds] at hq
    split at hq
    case isTrue heq => exact .inl heq
    case isFalse => exact .inr hq
  refine { hS with mem := ?_, kept := ?_ }
  · intro q l hq
    rcases hholds q l hq with ⟨rfl, _⟩ | hq
    · exact hmem
    · exact hS.mem q l hq
  · intro q l hq
    rcases hholds q l hq with ⟨rfl, rfl⟩ | hq
    · exact hmarked
    · exact hS.kept q l hq

theorem Inv.updateResponse (hf : Returns sh X S f) (hpkt : Replied f.pkt pkt)
    (hresponse : pkt.cmd.isResponse = true)
    (hF : S.filter.updateResponse sh pkt f.requester.port = some F) :
    Inv sh X { S with filter := F } ∧
      (f.waits = true → F.Marked sh (F.entry f.line).holder f.requester.port) := by
  have hcases := updateResponse_entry hF
  rw [lineAddr_eq hS.linesize, hpkt.lineAddr, ← hf.line] at hcases
  rcases hcases with ⟨huntracked, rfl⟩ | ⟨hrequested, hwrites, -⟩
  · refine ⟨hS, ?_⟩
    intro hwaits
    have hmarked := hf.own hwaits
    simp only [Frame.waits, Bool.and_eq_true] at hwaits
    have htracked := hf.sender.tracked hwaits.1
    rcases huntracked with huncacheable | hnot | hempty
    · rw [hpkt.req, htracked.2] at huncacheable
      cases huncacheable
    · rw [htracked.1] at hnot
      cases hnot
    · rw [hempty] at hmarked
      exact absurd hmarked not_marked_zero
  · have hsnoop : f.requester.port.isSnooping = true := SnoopFilter.Marked.isSnooping hrequested
    have hself : S.filter.Marked sh
        ((S.filter.entry f.line).answer (S.filter.portToMask sh f.requester.port)).holder
        f.requester.port :=
      marked_or.2 (.inr (hS.faithful.marked_self hf.sender.mem hsnoop))
    refine ⟨⟨hwrites.ports.linesize.trans hS.linesize, hwrites.ports.faithful hS.faithful,
      hS.mem, ?_, ?_, hS.line, hS.senders⟩, ?_⟩
    · intro q l hq
      rw [hwrites.ports.marked, hwrites.entry]
      split
      case isFalse => exact hS.kept q l hq
      case isTrue hl =>
        subst hl
        exact marked_or.2 (.inl (hS.kept q _ hq))
    · intro g hg hwaits
      have hmarked := hS.waiting g hg hwaits
      rw [hwrites.ports.marked, hwrites.entry]
      split
      case isFalse => exact hmarked
      case isTrue hl =>
        -- another cache's request, since each has one outstanding request for the line
        have hne : g.requester.port ≠ f.requester.port := fun heq =>
          hf.sender.apart hsnoop (hpkt.needs hresponse) g hg hwaits ⟨heq, hl⟩
        rw [hl] at hmarked
        exact (hS.faithful.marked_and_not (hS.port_mem hg) hf.sender.mem hmarked.isSnooping hne).2
          hmarked
    · intro _
      rw [hwrites.ports.marked, hwrites.entry, if_pos rfl]
      exact hself

theorem Inv.finish (hf : Returns sh X S f) (hpkt : Replied f.pkt pkt)
    (h : finish sh S f pkt = some (S', out)) : Inv sh X S' := by
  rcases bind_eq_some_iff.1 h with ⟨F, hF, h⟩
  cases hresponse : pkt.cmd.isResponse with
  | false =>
    simp only [hresponse, Bool.false_eq_true, if_false, Bool.false_and] at hF h
    cases hF
    split at h <;> (cases h; exact hS)
  | true =>
    simp only [hresponse, if_true, Bool.true_and] at hF h
    rcases hS.updateResponse hf hpkt hresponse hF with ⟨hinv, hmarked⟩
    rcases ite_none_right_eq_some.1 h with ⟨hopen, h⟩
    split at h
    case isFalse =>
      cases h
      exact hinv
    case isTrue hfills =>
      cases h
      rw [Bool.and_eq_true] at hfills
      have hwaits : f.waits = true := by simp [Frame.waits, hfills.1, hopen]
      exact hinv.fill ⟨hf.sender.mem, (hf.sender.tracked hfills.1).1⟩ (hmarked hwaits)

end Frames

theorem finish_obeys (h : finish sh S f pkt = some (S', out)) : S'.obeys = S.obeys := by
  rcases bind_eq_some_iff.1 h with ⟨F, _, h⟩
  split at h
  case isTrue =>
    split at h <;> (cases h; rfl)
  case isFalse =>
    rcases ite_none_left_eq_some.1 h with ⟨-, h⟩
    cases h
    rfl

theorem Inv.push (hS : Inv sh X S) (hf : Returns sh X S f) :
    Inv sh X { S with frames := f :: S.frames } := by
  refine { hS with waiting := ?_, line := ?_, senders := ?_ }
  · exact forall_mem_cons.2 ⟨hf.own, hS.waiting⟩
  · exact forall_mem_cons.2 ⟨hf.line, hS.line⟩
  · intro g frames hsuffix
    rcases suffix_cons_iff.1 hsuffix with heq | hsuffix
    · cases heq
      exact hf.sender
    · exact hS.senders g frames hsuffix

theorem Inv.pop (hS : Inv sh X S) (hframes : S.frames = f :: frames) :
    Inv sh X { S with frames := frames } ∧ Returns sh X { S with frames := frames } f := by
  have hmem : f ∈ S.frames := hframes ▸ mem_cons_self
  have hsub : ∀ g ∈ frames, g ∈ S.frames := fun g hg => hframes ▸ mem_cons_of_mem f hg
  have hsuffix : frames <:+ S.frames := hframes ▸ suffix_cons f frames
  refine ⟨{ hS with
    waiting := fun g hg => hS.waiting g (hsub g hg), line := fun g hg => hS.line g (hsub g hg),
      senders := fun g older h => hS.senders g older (h.trans hsuffix) }, ?_⟩
  exact ⟨hS.senders f frames (hframes ▸ suffix_rfl), hS.waiting f hmem, hS.line f hmem⟩

theorem recvAtomic_inv {slavePortId : ℕ} {replies : SlavePort → Reply}
    (hS : S.obeys = true → Inv sh X S)
    (h : X.recvAtomic sh S pkt slavePortId replies fills = some S')
    (hobeys : S'.obeys = true) : Inv sh X S' := by
  rcases bind_eq_some_iff.1 h with ⟨port, hport, h⟩
  rcases filter_eq_some_iff.1 hport with ⟨hport, hrequest⟩
  have hport := mem_of_getElem? hport
  rcases bind_eq_some_iff.1 h with ⟨⟨G, dests⟩, hlookup, h⟩
  rcases bind_eq_some_iff.1 h with ⟨F, hfinish, h⟩
  rcases bind_eq_some_iff.1 h with ⟨st, hforward, h⟩
  rw [sends_filter] at hlookup
  generalize hf : (⟨st.pkt, requester pkt port fills, S.filter.lineAddr pkt,
    st.snoopResponseCmd⟩ : Frame) = f at h
  -- the rules are not broken later on, so they have not been broken in the loop
  have hend : st.session.obeys = true := by
    split at h
    case isTrue =>
      rcases map_eq_some_iff.1 h with ⟨⟨S₁, out⟩, hdone, rfl⟩
      exact (finish_obeys hdone).symm.trans hobeys
    case isFalse =>
      split at h
      case isTrue =>
        cases h
        exact hobeys
      case isFalse =>
        rcases bind_eq_some_iff.1 h with ⟨pkt', _, h⟩
        rcases map_eq_some_iff.1 h with ⟨⟨S₁, out⟩, hdone, rfl⟩
        exact (finish_obeys hdone).symm.trans hobeys
  have hsends : (sends S pkt port).obeys = true := obeys_of_forward hforward hend
  have hS := hS (obeys_of_sends hsends).1
  have hsender : Sender X pkt (requester pkt port fills) (X.lineAddr pkt) S.frames :=
    requester_sender hS hport hsends
  have hforwarded := (hS.request hport hlookup hfinish).all (fun q hq => by cases hq; exact hsender)
    hforward hend
  have hinv := hforwarded.inv hS
  have hline : f.line = X.lineAddr f.pkt := by
    rw [← hf]
    exact (lineAddr_eq hS.linesize pkt).trans hforwarded.line.symm
  have hreturns : Returns sh X st.session f := by
    refine ⟨?_, ?_, hline⟩
    · rw [hforwarded.frames, hline, ← hf]
      refine ⟨hsender.mem, ?_, ?_⟩
      · rw [hforwarded.req]
        exact hsender.tracked
      · rw [hforwarded.cmd, hforwarded.line]
        exact hsender.apart
    · rw [hline, ← hf, hforwarded.line]
      intro hwaits
      rw [Frame.waits, Bool.and_eq_true] at hwaits
      exact hforwarded.snooping.own _ rfl hwaits.1 hwaits.2
  have hpkt : f.pkt = st.pkt := by rw [← hf]
  split at h
  case isTrue =>
    rcases map_eq_some_iff.1 h with ⟨⟨S₁, out⟩, hdone, rfl⟩
    refine hinv.finish hreturns ?_ hdone
    rw [hpkt]
    exact replied_self (hforwarded.cmd ▸ hrequest)
  case isFalse =>
    split at h
    case isTrue =>
      cases h
      exact hinv.push hreturns
    case isFalse =>
      rcases bind_eq_some_iff.1 h with ⟨pkt', hpkt', h⟩
      rcases map_eq_some_iff.1 h with ⟨⟨S₁, out⟩, hdone, rfl⟩
      exact hinv.finish hreturns (hpkt ▸ replied_makeResponse hpkt') hdone

theorem step_inv {c : Call} (hS : S.obeys = true → Inv sh X S) (h : X.step sh S c = some S')
    (hobeys : S'.obeys = true) : Inv sh X S' := by
  cases c with
  | recvAtomic pkt slavePortId replies fills => exact recvAtomic_inv hS h hobeys
  | sendAtomicReturns reply =>
    simp only [step, sendAtomicReturns] at h
    split at h
    case h_1 => cases h
    case h_2 f frames hframes =>
      rcases bind_eq_some_iff.1 h with ⟨pkt, hpkt, h⟩
      rcases map_eq_some_iff.1 h with ⟨⟨S₁, out⟩, hdone, rfl⟩
      rcases (hS ((finish_obeys hdone).symm.trans hobeys)).pop hframes with ⟨hinv, hreturns⟩
      exact hinv.finish hreturns (replied_send hpkt) hdone
  | recvAtomicSnoop pkt replies =>
    rcases map_eq_some_iff.1 h with ⟨⟨S₁, out⟩, hsnoop, rfl⟩
    rcases bind_eq_some_iff.1 hsnoop with ⟨⟨F, dests⟩, hlookup, hsnoop⟩
    rcases map_eq_some_iff.1 hsnoop with ⟨st, hforward, hst⟩
    cases hst
    have hS := hS (obeys_of_forward hforward hobeys)
    exact ((hS.snoop hlookup).all nofun hforward hobeys).inv hS

theorem Inv.sound (hS : Inv sh X S) : Sound sh X S where
  holder := by
    intro p _ line hp
    have hmarked := hS.kept p line hp
    cases hlookup : S.filter.cachedLocations.lookup line with
    | none =>
      rw [entry_of_lookup_none hlookup] at hmarked
      exact absurd hmarked not_marked_zero
    | some item =>
      rw [entry_of_lookup hlookup] at hmarked
      exact ⟨item, rfl, hmarked⟩
  request := by
    intro pkt port hport F dests hlookup p _ hne hp
    exact hS.mem_lookupRequest hport hlookup hne hp
  snoop := by
    intro pkt F dests hlookup p _ hp
    exact hS.mem_lookupSnoop hlookup hp

/-- A new crossbar with at most 64 snooping ports. -/
theorem start_inv (hcount : (X.slavePorts.filter (·.isSnooping)).length ≤ 64) :
    ∃ S, X.start = some S ∧ Inv sh X S := by
  have hset : ∃ F, (create X.cacheLineSize X.maxCapacity).setSlavePorts X.slavePorts = some F :=
    setSlavePorts_eq_some properIds.lt_length
  rcases hset with ⟨F, hF⟩
  have hsize : F.linesize = X.cacheLineSize := addSlavePorts_linesize hF
  have hfaithful : F.Faithful sh X.slavePorts :=
    faithful_of_properIds hF properIds hcount
  refine ⟨{ filter := F }, by simp [start, hF], ?_⟩
  exact ⟨hsize, hfaithful, by simp, by simp, by simp, by simp, by simp⟩

end Calls

/-- In every run, as long as the caches keep the rules, the filter knows every copy. -/
theorem atomic_filterSound (hcount : (X.slavePorts.filter (·.isSnooping)).length ≤ 64)
    (calls : List Call) :
    ∃ S, X.start = some S ∧
      Always (X.step sh) (fun S => S.obeys = true → X.Sound sh S) S calls := by
  rcases start_inv hcount with ⟨S, hstart, hS⟩
  refine ⟨S, hstart, ?_⟩
  have hinv : S.obeys = true → Inv sh X S := fun _ => hS
  exact Always.of_invariant (fun _ hS hobeys => (hS hobeys).sound) (fun _ _ _ => step_inv) hinv

/-- Three caches below which the crossbar is the point of coherency. -/
def threeCaches : CoherentXBar where
  isSnooping := [true, true, true]
  pointOfCoherency := true
  cacheLineSize := 64
  maxCapacity := 4096

/-- The caches at the ports 0 and 1 read a line from memory, and port 2 gets it from port 0. Then
port 1 asks to write, and the other copies are invalidated. -/
def sharedLine : List Call :=
  let read : Packet := { cmd := .ReadSharedReq, req := { masterId := 0 }, addr := 64 }
  let shares : Reply := { hasSharers := true }
  [.recvAtomic read 0 (fun _ => {}) true, .sendAtomicReturns { answers := true },
    .recvAtomic read 1 (fun _ => shares) true, .sendAtomicReturns { answers := true },
    .recvAtomic read 2
      (fun p => { shares with answers := p.id = 0, cacheResponding := p.id = 0 }) true,
    .recvAtomic { read with cmd := .UpgradeReq } 1 (fun _ => {}) true]

/-- The caches keep the rules to the end of the run, where only the one at port 1 has the line. -/
theorem atomic_filterSound_sharedLine :
    ∃ S S', threeCaches.start = some S ∧
      sharedLine.foldlM (threeCaches.step .wrapping) S = some S' ∧ S'.obeys = true ∧
      (threeCaches.slavePorts.map (S'.holds · 64)) = [false, true, false] ∧
      threeCaches.Sound .wrapping S' := by
  have hrun : (threeCaches.start.bind fun S => sharedLine.foldlM (threeCaches.step .wrapping) S).map
      (fun S => (S.obeys, threeCaches.slavePorts.map (S.holds · 64))) =
      some (true, [false, true, false]) := by
    decide +kernel
  rcases map_eq_some_iff.1 hrun with ⟨S', hS', hvalues⟩
  rcases bind_eq_some_iff.1 hS' with ⟨S, hstart, hcalls⟩
  rcases Prod.mk.inj hvalues with ⟨hobeys, hholds⟩
  rcases atomic_filterSound .wrapping threeCaches (by decide) sharedLine with ⟨T, hT, halways⟩
  obtain rfl : T = S := Option.some.inj (hT.symm.trans hstart)
  exact ⟨T, S', hstart, hcalls, hobeys, hholds, halways.last hcalls hobeys⟩

end CoherentXBar

end EnocGem5.Mem
