import EnocGem5.Lib.Run
import EnocGem5.Noc.TrafficManager
import EnocGem5.Noc.RouterSpec

/-!
# TrafficSpec — what serving a node can do

The inversion lemma for `sendFlit`: it leaves the state, hands the head of a packet to the inject
channel and reserves the VC, or hands over a later flit of the packet on the VC in use. `handOver`
is the state after a flit was handed over.
-/

namespace EnocGem5.Noc

open Lib Option List

namespace NetworkNoC

theorem setState_setState (N : NetworkNoC) (r i v : ℕ) (s s' : VCState) :
    (N.setState r i v s).setState r i v s' = N.setState r i v s' := by
  simp [setState, Buffer.setState, Buffer.setVc, VirtualChannel.setState]

end NetworkNoC

namespace TrafficManager

variable {t : ℤ} {T T' : TrafficManager} {node type : ℕ} {x : ℕ × ℕ}

/-- The flit that `nextFlit` makes of the packet at the front of a queue, sent on VC `v`. -/
def outFlit (t : ℤ) (T : TrafficManager) (packet : PacketNoC) (v : ℕ) : Flit where
  uid := T.flitCount
  pkt := packet.uid
  idx := packet.size - packet.flitLeft
  srcId := packet.srcId
  dstId := packet.dstId
  flitType := flitTypeOf packet
  sequenceNo := if flitTypeOf packet = .head then 0 else T.seq + 1
  timestamp := t
  packetType := packet.packetType
  vc := v
  outputPort := 0

/-- The queue after `nextFlit` took a flit of its front packet. -/
def popFlit (packet : PacketNoC) (rest : List PacketNoC) : List PacketNoC :=
  if packet.flitLeft - 1 = 0 then rest
  else { packet with flitLeft := packet.flitLeft - 1 } :: rest

/-- The next flit of `packet` is on the inject channel of `node`, marked for VC `v`. -/
@[simps]
def handOver (t : ℤ) (T : TrafficManager) (node type : ℕ) (packet : PacketNoC)
    (rest : List PacketNoC) (v : ℕ) (inUse : Option ℕ) : TrafficManager :=
  { T with
    net := T.net.writeFlit node (outFlit t T packet v)
    packetQueue := Function.update T.packetQueue (node, type) (popFlit packet rest)
    inUseVc := Function.update T.inUseVc (node, type) inUse
    seq := if flitTypeOf packet = .head then 0 else T.seq + 1
    flitCount := T.flitCount + 1 }

/-- VC `v` of the node's own input port is reserved. -/
@[simps]
def reserve (T : TrafficManager) (node v : ℕ) : TrafficManager :=
  { T with net := T.net.setState node 4 v .routing }

/-- The VCs on which `sendFlit` may send the head of a packet of this type. -/
def HeadVC (T : TrafficManager) (node type v : ℕ) : Prop :=
  (type = 0 ∧ v = 0) ∨ (type = 1 ∧ v = 1) ∨
    (type = 2 ∧ 2 ≤ v ∧ v < 8 ∧ T.net.state (node, 4, v) = .idle)

theorem mem_searched {v : ℕ} : v ∈ (List.range numVcs).drop 2 ↔ 2 ≤ v ∧ v < 8 := by
  have hdrop : (range numVcs).drop 2 = [2, 3, 4, 5, 6, 7] := by decide
  rw [hdrop]
  simp only [mem_cons, not_mem_nil, or_false]
  omega

theorem headVC_cases {R : TrafficManager} {out : Option ℕ} (h : T.headVC node type = (R, out)) :
    (out = none ∧ R = T) ∨
    ∃ v, out = some v ∧ HeadVC T node type v ∧ (R = T ∨ R = T.reserve node v) := by
  unfold headVC at h
  split at h
  · cases h
    exact .inr ⟨0, rfl, .inl ⟨rfl, rfl⟩, .inl rfl⟩
  · cases h
    exact .inr ⟨1, rfl, .inr (.inl ⟨rfl, rfl⟩), .inl rfl⟩
  · unfold findIdleVC at h
    cases hfind : ((range numVcs).drop 2).find? fun v => T.net.getState node 4 v = .idle with
    | none =>
      rw [hfind] at h
      cases h
      exact .inl ⟨rfl, rfl⟩
    | some v =>
      have hmem : v ∈ (range numVcs).drop 2 := mem_of_find?_eq_some hfind
      have hv : 2 ≤ v ∧ v < 8 := mem_searched.1 hmem
      have hdecide := find?_some hfind
      have hidle : T.net.state (node, 4, v) = .idle := of_decide_eq_true hdecide
      rw [hfind] at h
      cases h
      exact .inr ⟨v, rfl, .inr (.inr ⟨rfl, hv.1, hv.2, hidle⟩), .inr rfl⟩
  · cases h
    exact .inl ⟨rfl, rfl⟩

theorem sendFlit_cases {packet : PacketNoC} {rest : List PacketNoC}
    (hq : T.packetQueue (node, type) = packet :: rest) (h : T.sendFlit t node type = some T') :
    (T' = T ∧ (packet.size = packet.flitLeft → (T.headVC node type).2 = none) ∧
      (packet.size ≠ packet.flitLeft → T.findFreeSpace node (T.inUseVc (node, type)) = false)) ∨
    (∃ v, packet.size = packet.flitLeft ∧ (T.headVC node type).2 = some v ∧
      HeadVC T node type v ∧
      T' = (T.handOver t node type packet rest v (some v)).reserve node v) ∨
    (∃ v, packet.size ≠ packet.flitLeft ∧ T.inUseVc (node, type) = some v ∧
      (T.net.flits (node, 4, v)).length < 8 ∧
      T' = T.handOver t node type packet rest v
        (if flitTypeOf packet = .tail then none else some v)) := by
  unfold sendFlit at h
  have hhead : T.isNextFlitHead node type = decide (packet.size = packet.flitLeft) := by
    rw [isNextFlitHead, hq]
  by_cases hsize : packet.size = packet.flitLeft
  · rw [hhead, decide_eq_true hsize, if_pos rfl] at h
    rcases hvc : T.headVC node type with ⟨R, out⟩
    rw [hvc] at h
    rcases headVC_cases hvc with ⟨rfl, rfl⟩ | ⟨v, rfl, hv, hR⟩
    · cases h
      exact .inl ⟨rfl, fun _ => rfl, fun hne => absurd hsize hne⟩
    · refine .inr (.inl ⟨v, hsize, rfl, hv, ?_⟩)
      rcases hR with rfl | rfl
      · simp only [nextFlit, hq] at h
        exact (some.inj h).symm
      · simp only [nextFlit, reserve_packetQueue, hq] at h
        rw [← some.inj h]
        simp only [reserve, handOver, TrafficManager.mk.injEq, and_true, true_and]
        refine ⟨?_, rfl⟩
        -- the search has reserved the VC already
        exact NetworkNoC.setState_setState (T.net.writeFlit node (outFlit t T packet v)) node 4
          v _ _
  · rw [hhead, decide_eq_false hsize, if_neg (by simp)] at h
    split_ifs at h with hfree
    · obtain ⟨v, hv, hrest⟩ := bind_eq_some_iff.1 h
      refine .inr (.inr ⟨v, hsize, hv, ?_, ?_⟩)
      · rw [hv] at hfree
        simpa [findFreeSpace] using hfree
      · simp only [nextFlit, hq] at hrest
        rw [← some.inj hrest]
        simp only [handOver, TrafficManager.mk.injEq, and_true, true_and]
        refine ⟨rfl, rfl, ?_⟩
        split_ifs
        · rfl
        · rw [← hv, Function.update_eq_self]
    · cases h
      exact .inl ⟨rfl, fun he => absurd he hsize, fun _ => by simpa using hfree⟩

/-! ## Serving a node -/

/-- The packet of which serving this queue hands a flit over, and the VC the flit is sent on. -/
def outgoing (t : ℤ) (T : TrafficManager) (x : ℕ × ℕ) : Option (PacketNoC × ℕ) :=
  let T := T.readPacket t x.1 x.2
  match T.packetQueue x with
  | [] => none
  | packet :: _ =>
    if packet.size = packet.flitLeft then (T.headVC x.1 x.2).2.map (packet, ·)
    else if T.findFreeSpace x.1 (T.inUseVc x) then (T.inUseVc x).map (packet, ·)
    else none

/-- Serving this queue hands a flit over. -/
def handsOver (t : ℤ) (T : TrafficManager) (x : ℕ × ℕ) : Bool := (outgoing t T x).isSome

/-- All steps of the loops over nodes and types in `clk` meet the guard `G`. -/
def ServeGuarded (t : ℤ) (G : TrafficManager → ℕ × ℕ → Prop) (T : TrafficManager) : Prop :=
  ∀ net, T.net.clk meshDimX t = some net →
    Throughout (serveNode t) G { T with net := net } nodeTypes

theorem mem_nodeTypes : x ∈ nodeTypes ↔ x.1 < 64 ∧ x.2 < 3 := by
  obtain ⟨node, type⟩ := x
  simp [nodeTypes]

theorem readPacket_frame (t : ℤ) (T : TrafficManager) (node type : ℕ) :
    (T.readPacket t node type).net = T.net ∧
    (T.readPacket t node type).seq = T.seq ∧
    (T.readPacket t node type).flitCount = T.flitCount := by
  unfold readPacket
  split
  · exact ⟨rfl, rfl, rfl⟩
  · split_ifs <;> exact ⟨rfl, rfl, rfl⟩

/-- Reading a packet moves it within its own table and queue. -/
theorem readPacket_others {y : ℕ × ℕ} (t : ℤ) (T : TrafficManager) (hne : y ≠ (node, type)) :
    (T.readPacket t node type).packetTable y = T.packetTable y ∧
    (T.readPacket t node type).packetQueue y = T.packetQueue y := by
  unfold readPacket
  split
  · exact ⟨rfl, rfl⟩
  · split
    · simp [hne]
    · exact ⟨rfl, rfl⟩

theorem clk_some (h : T.clk t = some T') :
    ∃ net, T.net.clk meshDimX t = some net ∧
      nodeTypes.foldlM (serveNode t) { T with net := net } = some T' := by
  simpa [clk, bind_eq_some_iff] using h

/-- A queue is served without effect on the network, by a head on a VC it may use, or by a later
flit on the VC in use. -/
theorem serveNode_cases (h : T.serveNode t x = some T') :
    (outgoing t T x = none ∧ T' = T.readPacket t x.1 x.2) ∨
    ∃ R packet rest v, R = T.readPacket t x.1 x.2 ∧ R.packetQueue x = packet :: rest ∧
      outgoing t T x = some (packet, v) ∧
      ((packet.size = packet.flitLeft ∧ HeadVC R x.1 x.2 v ∧
          T' = (R.handOver t x.1 x.2 packet rest v (some v)).reserve x.1 v) ∨
        (packet.size ≠ packet.flitLeft ∧ R.inUseVc x = some v ∧
          (R.net.flits (x.1, 4, v)).length < 8 ∧
          T' = R.handOver t x.1 x.2 packet rest v
            (if flitTypeOf packet = .tail then none else some v))) := by
  rcases x with ⟨node, type⟩
  simp only [serveNode] at h
  cases hq : (T.readPacket t node type).packetQueue (node, type) with
  | nil =>
    rw [hq, if_pos rfl] at h
    refine .inl ⟨?_, (some.inj h).symm⟩
    simp [outgoing, hq]
  | cons packet rest =>
    rw [hq, if_neg (by simp)] at h
    rcases sendFlit_cases hq h with
      ⟨rfl, hnone, hfull⟩ | ⟨v, hsize, hvc, hv, rfl⟩ | ⟨v, hsize, hv, hspace, rfl⟩
    · refine .inl ⟨?_, rfl⟩
      simp only [outgoing, hq]
      split_ifs with hsize hfree
      · rw [hnone hsize]
        rfl
      · exact absurd ((hfull hsize).symm.trans hfree) Bool.false_ne_true
      · rfl
    · refine .inr ⟨_, packet, rest, v, rfl, hq, ?_, .inl ⟨hsize, hv, rfl⟩⟩
      simp [outgoing, hq, hsize, hvc]
    · refine .inr ⟨_, packet, rest, v, rfl, hq, ?_, .inr ⟨hsize, hv, hspace, rfl⟩⟩
      have hfree : (T.readPacket t node type).findFreeSpace node (some v) = true := by
        simpa [findFreeSpace] using hspace
      simp [outgoing, hq, hsize, hv, hfree]

/-! ## Sequence numbers -/

/-- A traffic manager with the flit that `nextFlit` made last. -/
structure Emission where
  tm : TrafficManager
  flit : Option Flit := none

inductive QueueCall
  | readPacket (globalClk : ℤ) (node type : ℕ)
  | nextFlit (globalClk : ℤ) (src type : ℕ)

namespace Emission

def step (E : Emission) : QueueCall → Option Emission
  | .readPacket t node type => some { E with tm := E.tm.readPacket t node type }
  | .nextFlit t src type => (E.tm.nextFlit t src type).map fun r => ⟨r.1, some r.2⟩

/-- The flit carries its number in its packet. -/
def Numbered (E : Emission) : Prop := ∀ f ∈ E.flit, f.sequenceNo = f.idx

/-- The next flit is the first one of its packet, or has the number after that of the flit made
last. -/
def Continues (E : Emission) : QueueCall → Prop
  | .readPacket .. => True
  | .nextFlit _ src type => ∀ packet ∈ (E.tm.packetQueue (src, type)).head?,
    packet.size = packet.flitLeft ∨ packet.size - packet.flitLeft = E.flit.elim 0 Flit.idx + 1

/-- The `static int seq` has the number that the last flit carries. -/
def Counted (E : Emission) : Prop := E.tm.seq = E.flit.elim 0 Flit.sequenceNo

variable {E E' : Emission} {c : QueueCall}

theorem counted_step (hE : E.Counted) (h : E.step c = some E') : E'.Counted := by
  cases c with
  | readPacket t node type =>
    cases h
    exact (readPacket_frame t E.tm node type).2.1.trans hE
  | nextFlit t src type =>
    rcases map_eq_some_iff.1 h with ⟨r, hr, rfl⟩
    unfold nextFlit at hr
    split at hr <;> cases hr
    rfl

theorem numbered_step_iff (hE : E.Counted) (hnum : E.Numbered) (h : E.step c = some E') :
    E'.Numbered ↔ E.Continues c := by
  cases c with
  | readPacket t node type =>
    cases h
    exact iff_of_true hnum trivial
  | nextFlit t src type =>
    rcases map_eq_some_iff.1 h with ⟨r, hr, rfl⟩
    unfold nextFlit at hr
    split at hr
    case h_1 => cases hr
    case h_2 packet rest hq =>
      cases hr
      have hlast : E.tm.seq = E.flit.elim 0 Flit.idx := by
        rw [hE]
        cases hf : E.flit with
        | none => rfl
        | some f => exact hnum f hf
      by_cases hhead : packet.size = packet.flitLeft
      · simp [Numbered, Continues, hq, flitTypeOf, hhead]
      · have hbody : flitTypeOf packet ≠ .head := by
          unfold flitTypeOf
          split_ifs <;> simp
        simp [Numbered, Continues, hq, hhead, hbody, hlast, eq_comm]

/-- In a run over any packet tables all flits carry their numbers exactly when each later flit of a
packet follows a flit with the number before its own. -/
theorem numbered_iff_continues (tables : ℕ × ℕ → List PacketNoC) (calls : List QueueCall) :
    Always step Numbered ⟨{ packetTable := tables }, none⟩ calls ↔
      Throughout step Continues ⟨{ packetTable := tables }, none⟩ calls :=
  always_iff_throughout (fun _ _ _ hE h => counted_step hE h) (fun _ _ _ hE hnum h =>
    numbered_step_iff hE hnum h)
    rfl (by simp [Numbered])

/-- Nodes 0 and 1 send packets of two flits in turn: the second tail is flit 1 and carries number
2. -/
theorem interleaved_numbers :
    ([.readPacket 0 0 0, .readPacket 0 1 0, .nextFlit 0 0 0, .nextFlit 0 1 0, .nextFlit 0 0 0,
      .nextFlit 0 1 0].foldlM step
      ⟨{ packetTable := fun x =>
          [{ srcId := x.1, dstId := 2, packetType := 2, dataLength := 1, time := 0 }] }, none⟩).map
      (fun E => E.flit.map fun f => (f.idx, f.sequenceNo)) = some (some (1, 2)) := by
  decide +kernel

end Emission

end TrafficManager
end EnocGem5.Noc
