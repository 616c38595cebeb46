import EnocGem5.Noc.Pipes
import EnocGem5.System.Calls

/-!
# Overflow — occupancy of the virtual channels

The sender of a flit tests the occupancy of the VC, which does not count the flits that are under
way to it. `load` counts both. As long as every flit is sent to a VC with a load below
`DEFAULT_VCS_SIZE`, no load exceeds it; without this condition a blocked VC fills up beyond its
size.
-/

namespace EnocGem5
namespace Noc

open Lib List

/-- The flits in VC `l` and on their way to it. -/
def load (k : ℕ) (L : ChanId → List Flit) (N : NetworkNoC) (l : Loc) : ℕ :=
  (N.flits l).length + (coming k L l).length

namespace NetworkNoC

/-- No VC has a load beyond its size, and `AddFlit` has reported no overflow. -/
structure Fits (k : ℕ) (L : ChanId → List Flit) (N : NetworkNoC) : Prop where
  load : ∀ l, IsPort k l → load k L N l ≤ vcsSize
  silent : ∀ v occup s, Diagnostic.flitBufferOverflow v occup s ∉ N.cout

/-- A flit that the switch moves to a VC in which it will be buffered finds its load below the size.
Only the front flit of the first switch entry can move. -/
def SwitchRoom (k r : ℕ) (N : NetworkNoC) : Prop :=
  ∀ N' ∈ switchFlit k r N, ∀ x ∈ (N.swAllocVcs r).head?, N'.flits (r, x) ≠ N.flits (r, x) →
    ∀ f ∈ (N.flits (r, x)).head?, ∀ w ∈ N.outVc (r, x),
      f.dstId ≠ (neighbour k r f.outputPort : ℤ) →
      Noc.load k (N.midLink k) N (nextLoc k r f.outputPort w) < vcsSize

instance (k r : ℕ) (N : NetworkNoC) : Decidable (SwitchRoom k r N) :=
  inferInstanceAs (Decidable (∀ N' ∈ _, ∀ x ∈ _, _ → ∀ f ∈ _, ∀ w ∈ _, _ → _))

variable {k r i occup : ℕ} {t : ℤ} {N N' : NetworkNoC} {s : VCState}

theorem fits_initial (k : ℕ) : Fits k (link {}) {} := by
  have hlink : link {} = fun _ => [] := by
    funext c
    cases c <;> rfl
  refine ⟨fun l _ => ?_, fun v occup s hmem => ?_⟩
  · rw [Noc.load, hlink]
    exact Nat.zero_le _
  · cases hmem

theorem Fits.congr {L L' : ChanId → List Flit} (h : Fits k L N) (hf : N'.flits = N.flits)
    (hc : N'.cout = N.cout) (hL : ∀ c, IsChan k c → L' c = L c) : Fits k L' N' := by
  refine ⟨fun l hl => ?_, hc ▸ h.silent⟩
  have hlink := hL (inChan k l.1 l.2.1) (isChan_inChan hl.1)
  simpa [Noc.load, coming, hf, hlink] using h.load l hl

theorem overflow_bufferFlit {v v' : ℕ} {f : Flit}
    (h : Diagnostic.flitBufferOverflow v' occup s ∈ (N.bufferFlit r i v t f).cout) :
    Diagnostic.flitBufferOverflow v' occup s ∈ N.cout ∨ 8 ≤ (N.flits (r, i, v)).length := by
  have hcout : (N.bufferFlit r i v t f).cout = ((N.addFlit r i v f).reportHead r i v t f).cout := by
    by_cases hhead : f.flitType = .head <;> simp only [bufferFlit, hhead, if_true, if_false] <;> rfl
  rw [hcout] at h
  simp only [reportHead, addFlit, mem_append] at h
  rcases h with (h | h) | h
  · exact .inl h
  · split_ifs at h with hfull
    · exact .inr ((Buffer.full_iff _ _).1 hfull)
    · cases h
  · split_ifs at h <;> simp at h

theorem overflow_takeFlit {v : ℕ} (h : takeFlit k r t N i = some N')
    (hmem : Diagnostic.flitBufferOverflow v occup s ∈ N'.cout) :
    Diagnostic.flitBufferOverflow v occup s ∈ N.cout ∨
      ∃ f, N.inQueueFlits (r, i) = some f ∧ xyYxMesh k r f.dstId ≠ 4 ∧
        8 ≤ (N.flits (r, i, f.vc)).length := by
  rcases takeFlit_cases h with ⟨_, rfl⟩ | ⟨f, hf, _, ⟨_, rfl⟩ | ⟨hport, rfl⟩⟩
  · exact .inl hmem
  · exact .inl hmem
  · rcases overflow_bufferFlit hmem with hold | hfull
    · exact .inl hold
    · exact .inr ⟨f, hf, hport, hfull⟩

/-- A flit that is buffered was counted before it arrived. -/
theorem load_takeFlit {l : Loc} (hr : r < k * k) (hi : i < 5) (hl : IsPort k l)
    (h : takeFlit k r t N i = some N') :
    Noc.load k (N'.midLink k) N' l = Noc.load k (N.midLink k) N l := by
  rcases takeFlit_link hr hi h with rfl | ⟨f, htaken, ⟨hport, hflits, _⟩ | ⟨hport, _, hflits⟩⟩
  · rfl
  · have hdst : f.dstId = (r : ℤ) := (xyYxMesh_eq_four hr).1 hport
    simp [Noc.load, hflits, htaken.coming hr hi hl, hdst]
  · have hdst : f.dstId ≠ (r : ℤ) := fun he => hport ((xyYxMesh_eq_four hr).2 he)
    simp only [Noc.load, hflits, htaken.coming hr hi hl]
    by_cases he : l = (r, i, f.vc)
    · subst he
      simp [hdst]
      omega
    · simp [he]

theorem fits_takeFlit (hr : r < k * k) (hi : i < 5) (hN : Fits k (N.midLink k) N)
    (h : takeFlit k r t N i = some N') : Fits k (N'.midLink k) N' := by
  refine ⟨fun l hl => ?_, fun v occup s hmem => ?_⟩
  · rw [load_takeFlit hr hi hl h]
    exact hN.load l hl
  · rcases overflow_takeFlit h hmem with hold | ⟨f, hf, hport, hfull⟩
    · exact hN.silent v occup s hold
    · -- a full VC and the arriving flit would be a load of 9
      have hdst : f.dstId ≠ (r : ℤ) := fun he => hport ((xyYxMesh_eq_four hr).2 he)
      have hland : f.landsIn (r, i, f.vc) = true := Flit.landsIn_iff.2 ⟨rfl, hdst⟩
      have hcoming : 0 < (coming k (N.midLink k) (r, i, f.vc)).length := by
        rw [coming, midLink, arrived_inChan N hr hi, hf]
        simp [hland]
      have hload : Noc.load k (N.midLink k) N (r, i, f.vc) ≤ 8 := hN.load _ ⟨hr, hi⟩
      rw [Noc.load] at hload
      omega

theorem cout_switchFlit (h : switchFlit k r N = some N') : N'.cout = N.cout := by
  rcases switchFlit_cases h with ⟨_, rfl⟩ | ⟨i, v, rest, _, ⟨_, rfl⟩ | ⟨_, f, w, _, _, _, hcases⟩⟩
  · rfl
  · rfl
  · rcases hcases with ⟨_, rfl⟩ | rfl
    · by_cases htail : f.flitType = .tail <;> simp only [moveFlit, htail, if_true, if_false] <;> rfl
    · rfl

theorem fits_switchFlit (hr : r < k * k) (hN : Fits k (N.midLink k) N) (hroom : SwitchRoom k r N)
    (h : switchFlit k r N = some N') : Fits k (N'.midLink k) N' := by
  have hcout := cout_switchFlit h
  rcases switchFlit_link h with ⟨hflits, hlink, _⟩ | ⟨i, v, w, f, ⟨rest, hq⟩, hmoved⟩
  · exact hN.congr hflits hcout fun c _ => congrFun hlink c
  · refine ⟨fun l hl => ?_, hcout ▸ hN.silent⟩
    have hload := hN.load l hl
    have hleaves : N'.flits (r, i, v) ≠ N.flits (r, i, v) := by
      obtain ⟨fs, hfront⟩ := head?_eq_some_iff.1 hmoved.front
      rw [hmoved.flits, Function.update_self, hfront]
      exact (cons_ne_self f fs).symm
    have hroom := hroom N' h (i, v) (by rw [hq]; rfl) hleaves f hmoved.front w hmoved.outVc
    have hheld : (N'.flits l).length ≤ (N.flits l).length := by
      rw [hmoved.flits]
      by_cases he : l = (r, i, v)
      · simp [he]
      · simp [he]
    simp only [Noc.load, hmoved.coming hr hl, length_append] at hload ⊢
    split_ifs with hnext
    · rcases hnext with ⟨rfl, hdst⟩
      have hlt := hroom hdst
      rw [Noc.load] at hlt
      simp only [length_singleton]
      omega
    · simp only [length_nil]
      omega

/-- A cycle in which every moved flit has room keeps all loads within the size. -/
theorem fits_clk (hN : N.Settled) (hfits : Fits k N.link N)
    (hG : CycleGuarded (SwitchRoom k) k t N) (h : clk k t N = some N') : Fits k N'.link N' := by
  rcases clk_some hN h with ⟨M, hM, rfl, hlink, _⟩
  have hstart : Fits k ((N.readInputs k t).midLink k) (N.readInputs k t) :=
    hfits.congr rfl rfl fun c hc => midLink_readInputs hN hc
  have hI : ∀ r < k * k, DataInvariant (SwitchRoom k) k r t (fun M => Fits k (M.midLink k) M) := by
    intro r hr
    constructor
    · intro P P' hsame hP
      exact hP.congr hsame.flits hsame.cout fun c _ => congrFun (sameData_midLink hsame) c
    · intro P P' i hi hP hstep
      exact fits_takeFlit hr hi hP hstep
    · intro P hnone hP
      exact hP.congr rfl rfl fun c hc => midLink_clearQueue hnone hc
    · intro P P' hP hroom hstep
      exact fits_switchFlit hr hP hroom hstep
    · intro P hP
      exact hP.congr rfl rfl fun c _ => rfl
  have hfinal := DataInvariant.clkRouters hI hstart hG hM
  exact hfinal.congr rfl rfl hlink

end NetworkNoC

namespace TrafficManager

open NetworkNoC

/-- A flit handed over to a VC in which it will be buffered finds its load below the size. -/
def SendRoom (t : ℤ) (T : TrafficManager) (x : ℕ × ℕ) : Prop :=
  ∀ sent ∈ outgoing t T x, sent.1.dstId ≠ (x.1 : ℤ) →
    load meshDimX T.net.link T.net (x.1, 4, sent.2) < vcsSize

instance (t : ℤ) (T : TrafficManager) (x : ℕ × ℕ) : Decidable (SendRoom t T x) :=
  inferInstanceAs (Decidable (∀ sent ∈ _, _))

/-- All flits sent in a cycle find room. -/
structure RoomAhead (t : ℤ) (T : TrafficManager) : Prop where
  cycle : CycleGuarded (SwitchRoom meshDimX) meshDimX t T.net
  serve : ServeGuarded t (SendRoom t) T

/-- `RoomAhead` as far as the routers `A` and the queues `B` are concerned. -/
def RoomOn (A : List ℕ) (B : List (ℕ × ℕ)) (T : TrafficManager) (t : ℤ) : Prop :=
  Throughout (routerClk meshDimX t) (RouterGuarded (SwitchRoom meshDimX) meshDimX t)
      (T.net.readInputs meshDimX t) A ∧
    ∃ net ∈ T.net.clkOn A meshDimX t,
      Throughout (serveNode t) (SendRoom t) { T with net := net } B

instance (A : List ℕ) (B : List (ℕ × ℕ)) (T : TrafficManager) (t : ℤ) :
    Decidable (RoomOn A B T t) :=
  inferInstanceAs (Decidable (_ ∧ ∃ net ∈ T.net.clkOn A meshDimX t, _))

theorem RoomOn.roomAhead {A : List ℕ} {B : List (ℕ × ℕ)} {T : TrafficManager} {t : ℤ}
    (hreg : Region A B) (hT : T.Confined A B) (h : RoomOn A B T t) : RoomAhead t T := by
  rcases h with ⟨hcycle, net, hnet, hserve⟩
  refine ⟨(clkRouters_region hT.net.readInputs).2 (hreg.routers.symm ▸ hcycle),
    serveGuarded_of_region hreg hT hnet (fun R x hnone sent hsent => ?_) hserve⟩
  cases hnone.symm.trans hsent

/-- The network is settled and no load exceeds the size. -/
structure Bounded (T : TrafficManager) : Prop where
  settled : T.net.Settled
  fits : Fits meshDimX T.net.link T.net

/-- No VC of a router's input port holds more flits than its size, and `AddFlit` never found one
full. -/
structure NoOverflow (T : TrafficManager) : Prop where
  occupancy : ∀ r < numNodes, ∀ i < numPorts, ∀ v < numVcs, T.net.getOccupancy r i v ≤ vcsSize
  silent : ∀ v occup s, Diagnostic.flitBufferOverflow v occup s ∉ T.net.cout

variable {t : ℤ} {T T' : TrafficManager} {x : ℕ × ℕ}

theorem Bounded.noOverflow (hT : T.Bounded) : T.NoOverflow := by
  refine ⟨fun r hr i hi v _ => ?_, hT.fits.silent⟩
  have hload := hT.fits.load (r, i, v) ⟨hr, hi⟩
  rw [getOccupancy_eq]
  exact (Nat.le_add_right _ _).trans hload

theorem fits_writeFlit {k s : ℕ} {f : Flit} {N N' : NetworkNoC} (hs : s < k * k)
    (hN : Fits k N.link N) (hsame : SameData (N.writeFlit s f) N')
    (hroom : f.dstId ≠ (s : ℤ) → load k N.link N (s, 4, f.vc) < vcsSize) : Fits k N'.link N' := by
  refine ⟨fun l hl => ?_, hsame.cout ▸ hN.silent⟩
  have hload := hN.load l hl
  rcases coming_writeFlit (N := N) hs f hl with ⟨kept, hkept, hcoming, _⟩
  have hflits : N'.flits = N.flits := hsame.flits
  have hle := hkept.length_le
  rw [load] at hload
  rw [load, sameData_link hsame, hcoming, hflits, length_append]
  split_ifs with hnew
  · rcases hnew with ⟨rfl, hdst⟩
    have hlt := hroom hdst
    rw [load] at hlt
    simp only [length_singleton]
    omega
  · simp only [length_nil]
    omega

theorem bounded_serveNode (hx : x.1 < 64) (hT : T.Bounded) (hroom : SendRoom t T x)
    (h : T.serveNode t x = some T') : T'.Bounded := by
  rcases serveNode_flits h with ⟨_, hnet, _⟩ | ⟨f, _, _, _, hdata, packet, v, hout, hvc, hdst⟩
  · exact ⟨hnet ▸ hT.settled, hnet ▸ hT.fits⟩
  · refine ⟨settled_writeFlit hT.settled hdata, fits_writeFlit hx hT.fits hdata fun hne => ?_⟩
    rw [hvc]
    exact hroom (packet, v) hout (hdst ▸ hne)

theorem bounded_clk (hT : T.Bounded) (hroom : RoomAhead t T) (h : T.clk t = some T') :
    T'.Bounded := by
  rcases clk_some h with ⟨net, hnet, hloop⟩
  rcases NetworkNoC.clk_some hT.settled hnet with ⟨_, _, _, _, hsettled⟩
  have hfits := fits_clk hT.settled hT.fits hroom.cycle hnet
  have hstart : Bounded { T with net := net } := ⟨hsettled, hfits⟩
  refine foldlM_invariant_of_throughout ?_ hstart (hroom.serve net hnet) hloop
  intro x hx R R' hR hRoom hstep
  exact bounded_serveNode (mem_nodeTypes.1 hx).1 hR hRoom hstep

end TrafficManager
end Noc

namespace System

open Lib Mem Noc Coherence

theorem tableFree_bounded : TableFree TrafficManager.Bounded :=
  fun _ _ => ⟨fun h => ⟨h.1, h.2⟩, fun h => ⟨h.1, h.2⟩⟩

theorem bounded_initial : ({} : TrafficManager).Bounded :=
  ⟨⟨fun _ => rfl, fun _ => rfl⟩, NetworkNoC.fits_initial meshDimX⟩

/-- In a run in which every flit is sent to a VC with room for it, counting what is under way, no VC
ever overflows. -/
theorem noOverflow_of_roomAhead (calls : List Call)
    (hroom : Throughout step (ClkGuarded TrafficManager.RoomAhead) {} calls) :
    Always step (fun S => S.tm.NoOverflow) {} calls := by
  refine Always.of_throughout (fun S hS => TrafficManager.Bounded.noOverflow hS) ?_ bounded_initial
    hroom
  intro S c S' hS hG h
  exact inv_step tableFree_bounded (fun t T T' => TrafficManager.bounded_clk) hS hG h

/-- Node 1 evicts a line whose directory is at node 8. The third and the fourth `clk` move two flits
of its message to router 0, where they will be buffered. -/
theorem noOverflow_firstHop :
    (∃ S : ENoC, (.process (cleanEvict 1 0 0) :: [0, 1, 2, 3].map .clk).foldlM step {} = some S ∧
      (S.tm.net.link (.chan 5)).length = 2) ∧
    Always step (fun S => S.tm.NoOverflow) {}
      (.process (cleanEvict 1 0 0) :: [0, 1, 2, 3].map .clk) := by
  have hreg : TrafficManager.Region [0, 1] [(1, 0), (1, 1)] := by
    constructor <;> decide +kernel
  have heval : (do
      let T₀ ← evaluate {} [0, 1] [(1, 0), (1, 1)] [cleanEvict 1 0 0] []
      let T ← [0, 1, 2, 3].foldlM (TrafficManager.clkOn [0, 1] [(1, 0), (1, 1)]) T₀
      some ((T.net.link (.chan 5)).length,
        decide (Throughout (TrafficManager.clkOn [0, 1] [(1, 0), (1, 1)])
          (TrafficManager.RoomOn [0, 1] [(1, 0), (1, 1)]) T₀ [0, 1, 2, 3]))) = some (2, true) := by
    decide +kernel
  simp only [Option.bind_eq_bind, Option.bind_eq_some_iff, Option.some.injEq, Prod.mk.injEq,
    decide_eq_true_eq] at heval
  rcases heval with ⟨T₀, hT₀, T, hT, hlink, hroom⟩
  rcases run_of_evaluate hreg hT₀ with ⟨S, hS, rfl, hconf⟩
  have hstep : step {} (.process (cleanEvict 1 0 0)) = some S := by simpa using hS
  refine ⟨⟨{ S with tm := T }, ?_, hlink⟩, noOverflow_of_roomAhead _ fun S' hS' => ⟨trivial, ?_⟩⟩
  · rw [List.foldlM_cons, hstep]
    exact (run_clk hreg hconf hT).1
  · obtain rfl : S = S' := Option.some.inj (hstep.symm.trans hS')
    exact throughout_clk hreg (fun T t hT => TrafficManager.RoomOn.roomAhead hreg hT) hconf hT hroom

/-- The head of node 0's first message is lost, so the flits that follow it stay in VC 0 of its
input port. The ninth of them is sent while the VC has 7 flits and an eighth is under way. -/
theorem evict_overflows :
    ∃ S : ENoC,
      (.process (cleanEvict 0 0 0) :: (List.range 13).map fun n : ℕ => .clk (n + 2)).foldlM
        step {} = some S ∧
      S.tm.net.getOccupancy 0 4 0 = 9 ∧ .flitBufferOverflow 0 8 .routing ∈ S.tm.net.cout := by
  have heval : (evaluate {} [0] [(0, 0), (0, 1)] [cleanEvict 0 0 0]
      ((List.range 13).map fun n : ℕ => (n + 2 : ℤ))).map
        (fun T => (T.net.getOccupancy 0 4 0, T.net.cout)) =
      some (9, [.flitBufferOverflow 0 8 .routing]) := by
    decide +kernel
  rcases Option.map_eq_some_iff.1 heval with ⟨T, hT, hvalue⟩
  rcases run_of_evaluate region_nodeZero hT with ⟨S, hS, rfl, _⟩
  rcases Prod.mk.inj hvalue with ⟨hoccupancy, hcout⟩
  rw [List.map_map] at hS
  exact ⟨S, hS, hoccupancy, by simp [hcout]⟩

end System
end EnocGem5
