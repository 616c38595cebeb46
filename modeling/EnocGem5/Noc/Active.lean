import EnocGem5.Noc.Links
import EnocGem5.Noc.TrafficSpec

/-!
# Active — runs in which few routers take part

In a router in which nothing waits `clk` does nothing. So a run that starts with packets at a few
nodes is decided by the few routers that their flits reach: `clkOn` is `TrafficManager::clk` over a
list of routers and a list of packet queues, and checks that no flit leaves them. `clk_of_clkOn`
says that it is the whole `clk` then. This is how concrete runs are evaluated.
-/

namespace EnocGem5.Noc

open Lib List Option Function

/-! ## Quiet allocators -/

namespace ISLIPSparse

/-- No request was added since the last `Clear`. -/
structure Fresh (a : ISLIPSparse) : Prop where
  dirty : a.dirty = false
  outReq : a.outReq = fun _ => []

theorem Fresh.clear {a : ISLIPSparse} (h : a.Fresh) : a.clear = a := by
  have hin : a.inReq = fun _ => [] := funext fun i => (a.quiet h.dirty i).1
  have hout : a.outReq = fun _ => [] := h.outReq
  have hdirty : a.dirty = false := h.dirty
  cases a
  simp_all [ISLIPSparse.clear]

theorem Fresh.allocate {a : ISLIPSparse} (h : a.Fresh) : a.allocate = a := by
  have hacc : ∀ i, a.accepts i = none := fun i => by simp [accepts, (a.quiet h.dirty i).1]
  have hgrant : ∀ o, a.accepted o = none := fun o => by simp [accepted, grants, h.outReq]
  simp_all [ISLIPSparse.allocate]

end ISLIPSparse

namespace NetworkNoC

/-! ## Quiet routers -/

/-- Nothing waits in router `r`. -/
structure Quiet (N : NetworkNoC) (r : ℕ) : Prop where
  queue : ∀ i, N.inQueueFlits (r, i) = none
  output : ∀ p, N.outputBuffer (r, p) = []
  vcAllocVcs : N.vcAllocVcs r = []
  vcAllocVcsTmp : N.vcAllocVcsTmp r = []
  swAllocVcs : N.swAllocVcs r = []
  swAllocVcsTmp : N.swAllocVcsTmp r = []
  vcAllocator : (N.vcAllocator r).Fresh
  swAllocator : (N.swAllocator r).Fresh

variable {k r s i : ℕ} {t : ℤ} {A : List ℕ} {N N' M : NetworkNoC} {G : ℕ → NetworkNoC → Prop}

section Quiet

variable (h : Quiet N r)
include h

theorem inputQueuing_quiet : inputQueuing k r t N = some N := by
  have hstep : ∀ i ∈ List.range numPorts, queueFlit k r t N i = some N :=
    fun i _ => by simp [queueFlit, h.queue i]
  have hclear : (fun x : ℕ × ℕ => if x.1 = r then none else N.inQueueFlits x) = N.inQueueFlits := by
    funext x
    rcases x with ⟨r', i⟩
    by_cases hr : r' = r
    · rw [hr, h.queue i]
      simp
    · simp [hr]
  rw [inputQueuing, foldlM_idle hstep, map_some, hclear]

theorem vcRequests_quiet : vcRequests k r (N.clearVcAllocator r) = some N := by
  have hclear : N.clearVcAllocator r = N := by
    rw [clearVcAllocator, h.vcAllocator.clear, setVcAllocator, update_eq_self]
  have halloc : N.setVcAllocator r (N.vcAllocator r).allocate = N := by
    rw [h.vcAllocator.allocate, setVcAllocator, update_eq_self]
  simp [hclear, vcRequests, h.vcAllocVcs, halloc]

theorem vcAllocEvaluate_quiet : vcAllocEvaluate k r (N.clearVcAllocator r) = some N := by
  have hrequeue : requeueVC r N = N := by
    have hq : update N.vcAllocVcs r [] = N.vcAllocVcs :=
      update_eq_self_iff.2 h.vcAllocVcs.symm
    have htmp : update N.vcAllocVcsTmp r [] = N.vcAllocVcsTmp :=
      update_eq_self_iff.2 h.vcAllocVcsTmp.symm
    rw [requeueVC, h.vcAllocVcs, h.vcAllocVcsTmp, append_nil, hq, htmp]
  rw [vcAllocEvaluate, vcRequests_quiet h]
  simp [h.vcAllocVcs, hrequeue]

theorem swRequests_quiet : swRequests r (N.clearSwAllocator r) = some N := by
  have hclear : N.clearSwAllocator r = N := by
    rw [clearSwAllocator, h.swAllocator.clear, setSwAllocator, update_eq_self]
  have halloc : N.setSwAllocator r (N.swAllocator r).allocate = N := by
    rw [h.swAllocator.allocate, setSwAllocator, update_eq_self]
  simp [hclear, swRequests, h.swAllocVcs, halloc]

theorem swAllocEvaluate_quiet : swAllocEvaluate k r (N.clearSwAllocator r) = some N := by
  have hrequeue : requeueSwitch r N = N := by
    have hq : update N.swAllocVcs r [] = N.swAllocVcs :=
      update_eq_self_iff.2 h.swAllocVcs.symm
    have htmp : update N.swAllocVcsTmp r [] = N.swAllocVcsTmp :=
      update_eq_self_iff.2 h.swAllocVcsTmp.symm
    rw [requeueSwitch, h.swAllocVcs, h.swAllocVcsTmp, append_nil, hq, htmp]
  rw [swAllocEvaluate, swRequests_quiet h]
  simp [h.swAllocVcs, hrequeue]

theorem routerClk_quiet : routerClk k t N r = some N := by
  rw [routerClk, inputQueuing_quiet h]
  have hvc := vcAllocEvaluate_quiet (k := k) h
  rw [clearVcAllocator] at hvc
  simp only [bind_eq_bind, bind_some, hvc]
  exact swAllocEvaluate_quiet h

/-- Such a router serves no switch entry. -/
theorem routerGuarded_quiet : RouterGuarded G k t N r := by
  intro N₁ h₁ N₂ h₂ M hM
  have hN₁ : N = N₁ := some.inj ((inputQueuing_quiet h).symm.trans h₁)
  cases hN₁
  have hN₂ : N = N₂ := some.inj ((vcAllocEvaluate_quiet h).symm.trans h₂)
  cases hN₂
  have hNM : N = M := some.inj ((swRequests_quiet h).symm.trans hM)
  rw [← hNM, h.swAllocVcs]
  trivial

end Quiet

/-! ## Other routers

A router writes VC states of its neighbours, and nothing else of another router. -/

/-- Router `r` has the same queues and allocators in both states. -/
structure SameRouter (r : ℕ) (N N' : NetworkNoC) : Prop where
  inQueueFlits : ∀ i, N'.inQueueFlits (r, i) = N.inQueueFlits (r, i)
  outputBuffer : ∀ p, N'.outputBuffer (r, p) = N.outputBuffer (r, p)
  vcAllocator : N'.vcAllocator r = N.vcAllocator r
  swAllocator : N'.swAllocator r = N.swAllocator r
  vcAllocVcs : N'.vcAllocVcs r = N.vcAllocVcs r
  vcAllocVcsTmp : N'.vcAllocVcsTmp r = N.vcAllocVcsTmp r
  swAllocVcs : N'.swAllocVcs r = N.swAllocVcs r
  swAllocVcsTmp : N'.swAllocVcsTmp r = N.swAllocVcsTmp r

section SameRouter

theorem SameRouter.refl (r : ℕ) (N : NetworkNoC) : SameRouter r N N := by
  constructor <;> intros <;> rfl

theorem SameRouter.trans (h : SameRouter r N M) (h' : SameRouter r M N') : SameRouter r N N' where
  inQueueFlits i := (h'.inQueueFlits i).trans (h.inQueueFlits i)
  outputBuffer p := (h'.outputBuffer p).trans (h.outputBuffer p)
  vcAllocator := h'.vcAllocator.trans h.vcAllocator
  swAllocator := h'.swAllocator.trans h.swAllocator
  vcAllocVcs := h'.vcAllocVcs.trans h.vcAllocVcs
  vcAllocVcsTmp := h'.vcAllocVcsTmp.trans h.vcAllocVcsTmp
  swAllocVcs := h'.swAllocVcs.trans h.swAllocVcs
  swAllocVcsTmp := h'.swAllocVcsTmp.trans h.swAllocVcsTmp

theorem SameRouter.foldlM {ι : Type} {f : NetworkNoC → ι → Option NetworkNoC} {l : List ι}
    (hf : ∀ i P P', f P i = some P' → SameRouter r P P') (h : l.foldlM f N = some M) :
    SameRouter r N M :=
  foldlM_invariant (fun i _ P P' hP hstep => hP.trans (hf i P P' hstep)) (SameRouter.refl r N) h

theorem SameRouter.quiet (h : SameRouter r N N') (hN : Quiet N r) : Quiet N' r where
  queue i := (h.inQueueFlits i).trans (hN.queue i)
  output p := (h.outputBuffer p).trans (hN.output p)
  vcAllocVcs := h.vcAllocVcs.trans hN.vcAllocVcs
  vcAllocVcsTmp := h.vcAllocVcsTmp.trans hN.vcAllocVcsTmp
  swAllocVcs := h.swAllocVcs.trans hN.swAllocVcs
  swAllocVcsTmp := h.swAllocVcsTmp.trans hN.swAllocVcsTmp
  vcAllocator := h.vcAllocator ▸ hN.vcAllocator
  swAllocator := h.swAllocator ▸ hN.swAllocator

theorem sameRouter_takeFlit (hne : r ≠ s) (h : takeFlit k s t N i = some N') :
    SameRouter r N N' := by
  rcases takeFlit_cases h with ⟨_, rfl⟩ | ⟨f, _, _, ⟨_, rfl⟩ | ⟨_, rfl⟩⟩
  · exact SameRouter.refl r _
  · constructor <;> intros <;> simp [ejectFlit, hne]
  · constructor <;> intros <;> simp [hne]
    split_ifs <;> simp [hne]

theorem sameRouter_inputQueuing (hne : r ≠ s) (h : inputQueuing k s t N = some N') :
    SameRouter r N N' := by
  rcases inputQueuing_some h with ⟨M, hM, _, rfl⟩
  have hloop : SameRouter r N M := .foldlM (fun _ _ _ => sameRouter_takeFlit hne) hM
  apply hloop.trans
  constructor <;> intros <;> simp [clearQueue, hne]

theorem sameRouter_setState (i v : ℕ) (x : VCState) : SameRouter r N (N.setState s i v x) := by
  constructor <;> intros <;> rfl

variable (hne : r ≠ s)
include hne

theorem sameRouter_requestVC {pos : ℕ} (h : requestVC k s N pos = some N') : SameRouter r N N' := by
  rcases requestVC_cases h with ⟨item, f, _, _, _, rfl | ⟨v, M, _, _, hM, rfl⟩⟩
  · constructor <;> intros <;> simp [hne]
  · have hreserve : SameRouter r N M := by
      rcases hM with ⟨_, rfl⟩ | ⟨_, rfl⟩
      · exact sameRouter_setState _ _ _
      · exact SameRouter.refl r _
    apply hreserve.trans
    constructor <;> intros <;> simp [hne]

theorem sameRouter_grantVC (h : grantVC k s N = some N') : SameRouter r N N' := by
  rcases grantVC_cases h with ⟨_, rfl⟩ | ⟨item, rest, f, _, _, ⟨_, rfl⟩ | ⟨_, hgrant⟩⟩
  · exact SameRouter.refl r _
  · constructor <;> intros <;> simp [hne]
  · rcases hgrant with ⟨o, _, _, rfl⟩ | ⟨_, rfl⟩
    · constructor <;> intros <;> simp [hne]
    · -- giving back writes a VC state of the neighbour only
      cases item.outVc with
      | none => constructor <;> intros <;> simp [giveBack, hne]
      | some v => constructor <;> intros <;> simp [giveBack, setIdleVC, hne]

theorem sameRouter_vcAllocEvaluate (h : vcAllocEvaluate k s N = some N') : SameRouter r N N' := by
  simp only [vcAllocEvaluate, vcRequests, bind_eq_bind, bind_eq_some_iff] at h
  rcases h with ⟨M, ⟨P, hP, hM⟩, M', hM', hN'⟩
  have hrequest : SameRouter r N P := .foldlM (fun _ _ _ => sameRouter_requestVC hne) hP
  have halloc : SameRouter r N M := by
    cases hM
    apply hrequest.trans
    constructor <;> intros <;> simp [hne]
  have hgrant : SameRouter r M M' := .foldlM (fun _ _ _ => sameRouter_grantVC hne) hM'
  cases hN'
  apply (halloc.trans hgrant).trans
  constructor <;> intros <;> simp [requeueVC, hne]

theorem sameRouter_switchFlit (h : switchFlit k s N = some N') : SameRouter r N N' := by
  rcases switchFlit_cases h with ⟨_, rfl⟩ | ⟨i, v, rest, _, ⟨_, rfl⟩ | ⟨_, f, w, _, _, _, hcases⟩⟩
  · exact SameRouter.refl r _
  · constructor <;> intros <;> simp [hne]
  · rcases hcases with ⟨_, rfl⟩ | rfl
    · -- a tail withdraws its request at its own router
      have hwithdraw : ((N.setSwAllocVcs s rest).moveFlit s i v w w f).vcAllocator r =
          N.vcAllocator r := by
        by_cases htail : f.flitType = .tail <;> simp [moveFlit, htail, hne]
      constructor <;> intros <;> first | exact hwithdraw | simp [hne]
    · constructor <;> intros <;> simp [hne]

theorem sameRouter_swAllocEvaluate (h : swAllocEvaluate k s N = some N') : SameRouter r N N' := by
  simp only [swAllocEvaluate, swRequests, bind_eq_bind, bind_eq_some_iff] at h
  rcases h with ⟨M, ⟨P, hP, hM⟩, M', hM', hN'⟩
  have hrequest : SameRouter r N P := by
    refine .foldlM (fun _ Q Q' hstep => ?_) hP
    rcases requestSwitch_cases hstep with ⟨a, rfl⟩
    constructor <;> intros <;> simp [hne]
  have halloc : SameRouter r N M := by
    cases hM
    apply hrequest.trans
    constructor <;> intros <;> simp [hne]
  have hswitch : SameRouter r M M' := .foldlM (fun _ _ _ => sameRouter_switchFlit hne) hM'
  cases hN'
  apply (halloc.trans hswitch).trans
  constructor <;> intros <;> simp [requeueSwitch, hne]

theorem sameRouter_routerClk (h : routerClk k t N s = some N') : SameRouter r N N' := by
  rcases routerClk_some h with ⟨N₁, N₂, h₁, h₂, h₃⟩
  have hvc : SameRouter r N₁ (N₁.clearVcAllocator s) := by
    constructor <;> intros <;> simp [clearVcAllocator, hne]
  have hsw : SameRouter r N₂ (N₂.clearSwAllocator s) := by
    constructor <;> intros <;> simp [clearSwAllocator, hne]
  have hmid : SameRouter r N N₂ :=
    ((sameRouter_inputQueuing hne h₁).trans hvc).trans (sameRouter_vcAllocEvaluate hne h₂)
  exact (hmid.trans hsw).trans (sameRouter_swAllocEvaluate hne h₃)

end SameRouter

/-! ## Cycles of a region -/

/-- Outside the routers `A` nothing waits and nothing is under way. -/
structure Confined (k : ℕ) (A : List ℕ) (N : NetworkNoC) : Prop where
  settled : N.Settled
  quiet : ∀ r, r ∉ A → Quiet N r
  empty : ∀ r < k * k, r ∉ A → ∀ i < 5, N.link (inChan k r i) = []

/-- No flit in an output queue of the routers `A` leaves them. -/
def stays (k : ℕ) (A : List ℕ) (N : NetworkNoC) : Bool :=
  A.all fun s => (List.range 4).all fun p =>
    decide (neighbour k s p ∈ A) || (N.outputBuffer (s, p)).isEmpty

/-- `NetworkNoC::clk` over the routers `A`; `none` also when a flit leaves them. -/
def clkOn (A : List ℕ) (k : ℕ) (t : ℤ) (N : NetworkNoC) : Option NetworkNoC := do
  let M ← A.foldlM (routerClk k t) (N.readInputs k t)
  if M.stays k A then some (M.writeOutputs k t) else none

theorem quiet_routerClk (hN : ∀ r, r ∉ A → Quiet N r) (h : routerClk k t N s = some N') :
    ∀ r, r ∉ A → Quiet N' r := by
  intro r hr
  rcases eq_or_ne r s with rfl | hne
  · have hsame : N = N' := some.inj ((routerClk_quiet (hN r hr)).symm.trans h)
    exact hsame ▸ hN r hr
  · exact (sameRouter_routerClk hne h).quiet (hN r hr)

/-- Only the routers of the region run, and guards on the switch steps have to be looked at there
only. -/
theorem clkRouters_region (hN : ∀ r, r ∉ A → Quiet N r) :
    clkRouters k t N = ((List.range (k * k)).filter (· ∈ A)).foldlM (routerClk k t) N ∧
      (Throughout (routerClk k t) (RouterGuarded G k t) N ((List.range (k * k)).filter (· ∈ A)) →
        Throughout (routerClk k t) (RouterGuarded G k t) N (List.range (k * k))) := by
  refine foldlM_filter (· ∈ A) _ N ?_ (fun P P' s _ hP _ hstep => quiet_routerClk hP hstep) hN
  intro P r _ hP hr
  have hquiet := hP r (by simpa using hr)
  exact ⟨routerClk_quiet hquiet, routerGuarded_quiet hquiet⟩

theorem Confined.readInputs (hN : Confined k A N) : ∀ r, r ∉ A → Quiet (N.readInputs k t) r := by
  intro r hr
  have hquiet := hN.quiet r hr
  refine { hquiet with queue := fun i => ?_ }
  -- no channel offers a flit to a router outside the region
  by_cases hx : r < k * k ∧ i < 5
  · have hlink := hN.empty r hx.1 hr i hx.2
    have hout : (N.channel (inChan k r i)).output = none := by
      cases hc : (N.channel (inChan k r i)).output with
      | none => rfl
      | some f => simp [link, hc] at hlink
    simp [NetworkNoC.readInputs, hx, hN.settled.queue, hout]
  · simp [NetworkNoC.readInputs, hx, hN.settled.queue]

/-- The output queue that leads to a router outside the region is empty. -/
theorem upstream_eq_nil (hM : ∀ r, r ∉ A → Quiet M r) (hstays : M.stays k A = true)
    (hr : r < k * k) (hi : i < 5) (hrA : r ∉ A) : M.upstream (inChan k r i) = [] := by
  have hsink := sinkOf_inChan hr hi
  cases hc : inChan k r i with
  | inject s => rfl
  | eject d => rfl
  | chan c =>
    rw [hc] at hsink
    have hto : neighbour k (c / 4) (c % 4) = r := (Prod.mk.inj (some.inj hsink)).1
    by_cases hfrom : c / 4 ∈ A
    · have hall := all_eq_true.1 (all_eq_true.1 hstays _ hfrom) (c % 4)
        (mem_range.2 (Nat.mod_lt _ (by omega)))
      simpa [hto, hrA, upstream] using hall
    · exact (hM _ hfrom).output _

/-- A cycle of the region is the cycle of the whole network, and leaves the rest quiet. -/
theorem clk_of_clkOn (hA : (List.range (k * k)).filter (· ∈ A) = A) (hN : Confined k A N)
    (h : clkOn A k t N = some N') : clk k t N = some N' ∧ Confined k A N' := by
  simp only [clkOn, bind_eq_bind, bind_eq_some_iff] at h
  rcases h with ⟨M, hM, hN'⟩
  split_ifs at hN' with hstays
  have hquiet := foldlM_invariant (fun _ _ _ _ => quiet_routerClk) hN.readInputs hM
  have hrouters : clkRouters k t (N.readInputs k t) = some M := by
    rw [(clkRouters_region (G := fun _ _ => True) hN.readInputs).1, hA, hM]
  have hclk : clk k t N = some N' := by rw [clk, hrouters, map_some, hN']
  refine ⟨hclk, ?_⟩
  rcases clk_some hN.settled hclk with ⟨M', hM', _, hlink, hsettled⟩
  have hMM' : M' = M := some.inj (hM'.symm.trans hrouters)
  cases hMM'
  cases hN'
  refine ⟨hsettled, fun r hr => ?_, fun r hr hrA i hi => ?_⟩
  · have hq := hquiet r hr
    refine { hq with queue := fun i => hsettled.queue (r, i), output := fun p => ?_ }
    simp [writeOutputs, hq.output]
  · have hqueued : (M.channel (inChan k r i)).queued = [] := by
      rw [channel_clkRouters hrouters]
      have hempty := hN.empty r hr hrA i hi
      simp only [link, transit, append_eq_nil_iff] at hempty
      simpa [readInputs] using hempty.2.1
    rw [hlink _ (isChan_inChan hr), midLink, arrived_inChan M hr hi, (hquiet r hrA).queue i,
      transit, hqueued, upstream_eq_nil hquiet hstays hr hi hrA]
    rfl

end NetworkNoC

namespace TrafficManager

/-- Outside the queues `B` there is no packet, and outside the routers `A` no flit. -/
structure Confined (A : List ℕ) (B : List (ℕ × ℕ)) (T : TrafficManager) : Prop where
  net : T.net.Confined meshDimX A
  table : ∀ x ∈ nodeTypes, x ∉ B → T.packetTable x = []
  queue : ∀ x ∈ nodeTypes, x ∉ B → T.packetQueue x = []

/-- The routers and the queues are listed in the order of the loops, and the queues are those of
routers of the list. -/
structure Region (A : List ℕ) (B : List (ℕ × ℕ)) : Prop where
  routers : (List.range (meshDimX * meshDimX)).filter (· ∈ A) = A
  queues : nodeTypes.filter (· ∈ B) = B
  nodes : ∀ x ∈ B, x.1 ∈ A

/-- `TrafficManager::clk` over the routers `A` and the queues `B`; `none` also when a flit leaves
the routers. -/
def clkOn (A : List ℕ) (B : List (ℕ × ℕ)) (T : TrafficManager) (t : ℤ) : Option TrafficManager := do
  let net ← T.net.clkOn A meshDimX t
  B.foldlM (serveNode t) { T with net := net }

variable {A : List ℕ} {B : List (ℕ × ℕ)} {T T' : TrafficManager} {t : ℤ} {N : NetworkNoC}
  {x : ℕ × ℕ} {G : TrafficManager → ℕ × ℕ → Prop}

theorem readPacket_idle (htable : T.packetTable x = []) : T.readPacket t x.1 x.2 = T := by
  simp [readPacket, htable]

theorem serveNode_idle (htable : T.packetTable x = []) (hqueue : T.packetQueue x = []) :
    T.serveNode t x = some T := by
  rw [serveNode, readPacket_idle htable]
  exact if_pos hqueue

theorem confined_writeFlit {s : ℕ} (hs : s ∈ A) (hN : N.Confined meshDimX A)
    (f : Flit) : (N.writeFlit s f).Confined meshDimX A := by
  refine ⟨⟨hN.settled.queue, fun c => ?_⟩, fun r hr => ?_, fun r hr hrA i hi => ?_⟩
  · rcases eq_or_ne c (.inject s) with rfl | hne
    · simpa [NetworkNoC.writeFlit, Channel.Settled] using hN.settled.channel (.inject s)
    · simpa [NetworkNoC.writeFlit, hne] using hN.settled.channel c
  · have hq := hN.quiet r hr
    exact { hq with }
  · -- the inject channel of `s` ends at `s`, which is in the region
    have hne : inChan meshDimX r i ≠ .inject s := by
      intro he
      have hsink := sinkOf_inChan hr hi
      rw [he] at hsink
      have hrs : s = r := (Prod.mk.inj (some.inj hsink)).1
      exact hrA (hrs ▸ hs)
    have hup : ∀ c, (N.writeFlit s f).upstream c = N.upstream c := by
      intro c
      cases c <;> rfl
    have hchan : (N.writeFlit s f).channel (inChan meshDimX r i) =
        N.channel (inChan meshDimX r i) :=
      update_of_ne hne _ _
    rw [NetworkNoC.link, NetworkNoC.transit, hchan, hup]
    exact hN.empty r hr hrA i hi

theorem confined_setState (hN : N.Confined meshDimX A) (r i v : ℕ) (s : VCState) :
    (N.setState r i v s).Confined meshDimX A := by
  refine ⟨{ hN.settled with }, fun r' hr' => ?_, hN.empty⟩
  exact (NetworkNoC.sameRouter_setState _ _ _).quiet (hN.quiet r' hr')

theorem confined_serveNode (hreg : Region A B) (hT : Confined A B T) (hx : x ∈ B)
    (h : T.serveNode t x = some T') : Confined A B T' := by
  rcases x with ⟨node, type⟩
  have hread : Confined A B (T.readPacket t node type) := by
    refine ⟨(readPacket_frame t T node type).1 ▸ hT.net, fun y hy hyB => ?_, fun y hy hyB => ?_⟩
    all_goals
      have hne : y ≠ (node, type) := fun he => hyB (he ▸ hx)
      have hothers := readPacket_others t T hne
    · exact hothers.1.trans (hT.table y hy hyB)
    · exact hothers.2.trans (hT.queue y hy hyB)
  have hhand : ∀ packet rest v inUse,
      Confined A B ((T.readPacket t node type).handOver t node type packet rest v inUse) := by
    intro packet rest v inUse
    refine ⟨confined_writeFlit (hreg.nodes _ hx) hread.net _, hread.table, fun y hy hyB => ?_⟩
    have hne : y ≠ (node, type) := fun he => hyB (he ▸ hx)
    simpa [hne] using hread.queue y hy hyB
  rcases serveNode_cases h with
    ⟨_, rfl⟩ | ⟨R, packet, rest, v, rfl, _, _, ⟨_, _, rfl⟩ | ⟨_, _, _, rfl⟩⟩
  · exact hread
  · have hover := hhand packet rest v (some v)
    exact { hover with net := confined_setState hover.net _ _ _ _ }
  · exact hhand packet rest v _

theorem outgoing_idle (htable : T.packetTable x = []) (hqueue : T.packetQueue x = []) :
    outgoing t T x = none := by
  simp [outgoing, readPacket_idle htable, hqueue]

/-- Only the queues of the region need be served. -/
theorem serveNodes_region (hreg : Region A B) (hT : Confined A B T)
    (hidle : ∀ R x, outgoing t R x = none → G R x) :
    nodeTypes.foldlM (serveNode t) T = B.foldlM (serveNode t) T ∧
      (Throughout (serveNode t) G T B → Throughout (serveNode t) G T nodeTypes) := by
  rw [← hreg.queues]
  refine foldlM_filter (· ∈ B) _ _ (fun R x hx hR hxB => ?_) (fun R R' x hx hR hxB hstep => ?_) hT
  · have hxB' : x ∉ B := by simpa using hxB
    exact ⟨serveNode_idle (hR.table x hx hxB') (hR.queue x hx hxB'),
      hidle R x (outgoing_idle (hR.table x hx hxB') (hR.queue x hx hxB'))⟩
  · exact confined_serveNode hreg hR (of_decide_eq_true hxB) hstep

/-- A cycle of the region is a cycle of the whole system. -/
theorem clk_of_clkOn (hreg : Region A B) (hT : Confined A B T) (h : T.clkOn A B t = some T') :
    T.clk t = some T' ∧ Confined A B T' := by
  simp only [clkOn, bind_eq_bind, bind_eq_some_iff] at h
  rcases h with ⟨net, hnet, hserve⟩
  rcases NetworkNoC.clk_of_clkOn hreg.routers hT.net hnet with ⟨hclk, hconf⟩
  have hstart : Confined A B { T with net := net } := { hT with net := hconf }
  refine ⟨?_, ?_⟩
  · rw [clk, hclk]
    exact (serveNodes_region (G := fun _ _ => True) hreg hstart fun _ _ _ => trivial).1.trans hserve
  · exact foldlM_invariant (fun x hx R R' hR hstep => confined_serveNode hreg hR hx hstep) hstart
      hserve

/-- A guard that only concerns queues that send has to be looked at in the queues of the region
only. -/
theorem serveGuarded_of_region {net : NetworkNoC}
    (hreg : Region A B) (hT : Confined A B T) (hnet : T.net.clkOn A meshDimX t = some net)
    (hidle : ∀ R x, outgoing t R x = none → G R x)
    (hG : Throughout (serveNode t) G { T with net := net } B) : ServeGuarded t G T := by
  rcases NetworkNoC.clk_of_clkOn hreg.routers hT.net hnet with ⟨hclk, hconf⟩
  intro net' hnet'
  have hsame : net = net' := some.inj (hclk.symm.trans hnet')
  have hstart : Confined A B { T with net := net' } := { hT with net := hsame ▸ hconf }
  exact (serveNodes_region hreg hstart hidle).2 (hsame ▸ hG)

end TrafficManager
end EnocGem5.Noc
