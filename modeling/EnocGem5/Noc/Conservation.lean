import EnocGem5.Lib.Tally
import EnocGem5.Noc.Links
import EnocGem5.Noc.TrafficSpec

/-!
# Conservation — where the flits are

`occurrences` counts the places that hold a given flit: the three places of a channel, the maps of
arrived flits, the virtual channels, the output queues towards other routers and the flits counted
as received. A cycle of the network changes no count. Serving a node adds the flit that it hands
over and removes the flit whose place on the inject channel it takes, if there is one; this is the
only way in which a flit is lost.
-/

namespace EnocGem5.Noc

open Lib List Function Option Finset

namespace NetworkNoC

variable {k r i s : ℕ} {t : ℤ} {N N' : NetworkNoC} {f g : Flit}

/-! ## Places -/

def chans (k : ℕ) : Finset ChanId :=
  (Finset.range (k * k)).image .inject ∪ (Finset.range (4 * (k * k))).image .chan

def locs (k : ℕ) : Finset Loc := Finset.range (k * k) ×ˢ Finset.range 5 ×ˢ Finset.range 8

theorem mem_chans {c : ChanId} : c ∈ chans k ↔ IsChan k c := by
  cases c <;> simp [chans, IsChan]

theorem mem_locs {v : ℕ} : (r, i, v) ∈ locs k ↔ r < k * k ∧ i < 5 ∧ v < 8 := by
  simp [locs]

def isFlit (u : ℕ) (f : Flit) : Bool := f.uid = u

/-- The number of places in which flit `u` is. Output port 4 and the eject channels are left out: a
flit that is received is also put there. -/
def occurrences (k : ℕ) (N : NetworkNoC) (u : ℕ) : ℕ :=
  tally (chans k) (isFlit u) (fun c => (N.channel c).input.toList) +
  tally (chans k) (isFlit u) (fun c => (N.channel c).waitQueue.map Prod.snd) +
  tally (chans k) (isFlit u) (fun c => (N.channel c).output.toList) +
  tally (Finset.range (k * k) ×ˢ Finset.range 5) (isFlit u) (fun x => (N.inQueueFlits x).toList) +
  tally (locs k) (isFlit u) N.flits +
  tally (Finset.range (k * k) ×ˢ Finset.range 4) (isFlit u) N.outputBuffer +
  tally (Finset.range (k * k)) (isFlit u) N.received

/-- The same count over links instead of their parts. -/
def tracked (k u : ℕ) (L : ChanId → List Flit) (N : NetworkNoC) : ℕ :=
  tally (chans k) (isFlit u) L + tally (locs k) (isFlit u) N.flits +
    tally (Finset.range (k * k)) (isFlit u) N.received

/-- Every output queue towards a router feeds one channel. -/
theorem tally_upstream (k u : ℕ) (N : NetworkNoC) :
    tally (chans k) (isFlit u) N.upstream =
      tally (Finset.range (k * k) ×ˢ Finset.range 4) (isFlit u) N.outputBuffer := by
  have hdisj : Disjoint ((Finset.range (k * k)).image ChanId.inject)
      ((Finset.range (4 * (k * k))).image ChanId.chan) := by
    rw [Finset.disjoint_left]
    intro c hc hc'
    obtain ⟨s, _, rfl⟩ := Finset.mem_image.1 hc
    obtain ⟨d, _, hd⟩ := mem_image.1 hc'
    cases hd
  have hinject : ∑ c ∈ (Finset.range (k * k)).image ChanId.inject,
      (N.upstream c).countP (isFlit u) = 0 := by
    refine Finset.sum_eq_zero fun c hc => ?_
    obtain ⟨s, _, rfl⟩ := Finset.mem_image.1 hc
    rfl
  have hchan : ∑ c ∈ (Finset.range (4 * (k * k))).image ChanId.chan,
      (N.upstream c).countP (isFlit u) =
      ∑ c ∈ range (4 * (k * k)), (N.outputBuffer (c / 4, c % 4)).countP (isFlit u) :=
    sum_image fun _ _ _ _ h => ChanId.chan.inj h
  rw [tally, tally, chans, sum_union hdisj, hinject, hchan, zero_add]
  refine sum_nbij' (fun c => (c / 4, c % 4)) (fun x => 4 * x.1 + x.2) ?_ ?_ ?_ ?_ ?_
  · intro c hc
    simp only [Finset.mem_range] at hc
    simp only [Finset.mem_product, Finset.mem_range]
    omega
  · intro x hx
    simp only [Finset.mem_product, Finset.mem_range] at hx ⊢
    omega
  · intro c _
    exact Nat.div_add_mod c 4
  · intro x hx
    simp only [Finset.mem_product, Finset.mem_range] at hx
    ext <;> simp only <;> omega
  · intro c _
    rfl

theorem occurrences_eq (hN : ∀ x, N.inQueueFlits x = none) (u : ℕ) :
    occurrences k N u = tracked k u N.link N := by
  have hlink : tally (chans k) (isFlit u) N.link =
      tally (chans k) (isFlit u) (fun c => (N.channel c).output.toList) +
      (tally (chans k) (isFlit u) (fun c => (N.channel c).waitQueue.map Prod.snd) +
        tally (chans k) (isFlit u) (fun c => (N.channel c).input.toList) +
        tally (chans k) (isFlit u) N.upstream) := by
    rw [← tally_append, ← tally_append, ← tally_append]
    rfl
  have hqueue : tally (Finset.range (k * k) ×ˢ Finset.range 5) (isFlit u)
      (fun x => (N.inQueueFlits x).toList) = 0 := by
    simp [tally, hN]
  rw [occurrences, tracked, hlink, hqueue, tally_upstream]
  omega

theorem occurrences_initial (k u : ℕ) : occurrences k {} u = 0 := by
  have hflits : ({} : NetworkNoC).flits = fun _ => [] := rfl
  simp [occurrences, tally, hflits]

/-! ## A cycle of the network -/

/-- Flits are held in existing virtual channels only, and counted as received at their destination
only. -/
structure Placed (k : ℕ) (N : NetworkNoC) : Prop where
  loc : ∀ l, N.flits l ≠ [] → l ∈ locs k
  received : ∀ r, ∀ f ∈ N.received r, f.dstId = r

theorem placed_initial (k : ℕ) : Placed k {} := by
  constructor
  · intro l hl
    exact absurd rfl hl
  · intro r f hf
    cases hf

theorem Placed.congr (hN : Placed k N) (hf : N'.flits = N.flits)
    (hr : N'.received = N.received) : Placed k N' :=
  ⟨hf ▸ hN.loc, hr ▸ hN.received⟩

theorem isFlit_congr (h : g.uid = f.uid) (u : ℕ) : isFlit u g = isFlit u f := by
  rw [isFlit, isFlit, h]

theorem placed_takeFlit (hr : r < k * k) (hi : i < 5) (hN : Placed k N)
    (h : takeFlit k r t N i = some N') : Placed k N' := by
  rcases takeFlit_link hr hi h with rfl | ⟨f, htake, ⟨hport, hflits, hrec⟩ | ⟨_, hrec, hflits⟩⟩
  · exact hN
  · refine ⟨hflits ▸ hN.loc, ?_⟩
    rw [hrec]
    refine (forall_update_iff _ fun (r : ℕ) (fs : List Flit) => ∀ f ∈ fs, f.dstId = r).2
      ⟨fun g hg => ?_, fun r' _ => hN.received r'⟩
    rw [mem_append, List.mem_singleton] at hg
    rcases hg with hg | rfl
    · exact hN.received _ g hg
    · exact (xyYxMesh_eq_four hr).1 hport
  · refine ⟨?_, hrec ▸ hN.received⟩
    rw [hflits]
    apply (forall_update_iff _ fun l fs => fs ≠ [] → l ∈ locs k).2
    exact ⟨fun _ => mem_locs.2 ⟨hr, hi, htake.vc_lt⟩, fun l _ => hN.loc l⟩

/-- Queuing moves a flit from its link to a virtual channel or to the received ones. -/
theorem tracked_takeFlit (hr : r < k * k) (hi : i < 5) (u : ℕ) (h : takeFlit k r t N i = some N') :
    tracked k u (N'.midLink k) N' = tracked k u (N.midLink k) N := by
  rcases takeFlit_link hr hi h with rfl | ⟨f, htake, hdest⟩
  · rfl
  have hchan : inChan k r i ∈ chans k := mem_chans.2 (isChan_inChan hr)
  have hlink := tally_change (p := isFlit u) hchan
    (fun c hc hne => htake.others c (mem_chans.1 hc) hne)
  rw [htake.front, countP_cons] at hlink
  rcases hdest with ⟨_, hflits, hrec⟩ | ⟨_, hrec, hflits⟩
  · have hmem : r ∈ Finset.range (k * k) := Finset.mem_range.2 hr
    have hcount := tally_change (p := isFlit u) (G := N'.received) hmem
      (fun r' _ hne => by rw [hrec, update_of_ne hne])
    rw [hrec, update_self, countP_append, countP_singleton, ← hrec,
      isFlit_congr (Flit.route_uid k r f) u] at hcount
    simp only [tracked, hflits]
    omega
  · have hmem : (r, i, f.vc) ∈ locs k := mem_locs.2 ⟨hr, hi, htake.vc_lt⟩
    have hcount := tally_change (p := isFlit u) (G := N'.flits) hmem
      (fun l _ hne => by rw [hflits, update_of_ne hne])
    rw [hflits, update_self, countP_append, countP_singleton, ← hflits] at hcount
    have huid : isFlit u { f.route k r with vc := f.vc } = isFlit u f := rfl
    rw [huid] at hcount
    simp only [tracked, hrec]
    omega

theorem placed_switchFlit (hN : Placed k N) (h : switchFlit k r N = some N') : Placed k N' := by
  rcases switchFlit_link h with ⟨hflits, _, hrec⟩ | ⟨i, v, w, f, _, hmove⟩
  · exact hN.congr hflits hrec
  · refine ⟨?_, hmove.received ▸ hN.received⟩
    rw [hmove.flits]
    refine (forall_update_iff _ fun l fs => fs ≠ [] → l ∈ locs k).2 ⟨fun hl => ?_,
      fun l _ => hN.loc l⟩
    refine hN.loc _ fun hnil => ?_
    simp [hnil] at hl

/-- Switching moves a flit from its virtual channel to the link of its output port. -/
theorem tracked_switchFlit (hr : r < k * k) (hN : Placed k N) (u : ℕ)
    (h : switchFlit k r N = some N') :
    tracked k u (N'.midLink k) N' = tracked k u (N.midLink k) N := by
  rcases switchFlit_link h with ⟨hflits, hlink, hrec⟩ | ⟨i, v, w, f, _, hmove⟩
  · rw [tracked, tracked, hflits, hlink, hrec]
  obtain ⟨rest, hfront⟩ := List.head?_eq_some_iff.1 hmove.front
  have hmem : (r, i, v) ∈ locs k := hN.loc _ (by simp [hfront])
  have hcount := tally_change (p := isFlit u) (G := N'.flits) hmem
    (fun l _ hne => by rw [hmove.flits, update_of_ne hne])
  rw [hmove.flits, update_self, ← hmove.flits, hfront, tail_cons, countP_cons] at hcount
  have hchan : outChan r f.outputPort ∈ chans k := mem_chans.2 (isChan_outChan hr hmove.port_lt)
  have hlink := tally_change (p := isFlit u) hchan (fun c _ hne => hmove.others c hne)
  rw [hmove.pushed, countP_append, countP_singleton] at hlink
  have huid : isFlit u { f with vc := w } = isFlit u f := rfl
  rw [huid] at hlink
  simp only [tracked, hmove.received]
  omega

theorem dataInvariant_tracked (hr : r < k * k) (C : ℕ → ℕ) :
    DataInvariant (fun _ _ => True) k r t
      (fun N => Placed k N ∧ ∀ u, tracked k u (N.midLink k) N = C u) where
  data N N' h hI := by
    refine ⟨hI.1.congr h.flits h.received, fun u => ?_⟩
    rw [tracked, sameData_midLink h, h.flits, h.received]
    exact hI.2 u
  take N N' i hi hI h :=
    ⟨placed_takeFlit hr hi hI.1 h, fun u => (tracked_takeFlit hr hi u h).trans (hI.2 u)⟩
  clear N hnone hI := by
    refine ⟨{ hI.1 with }, fun u => ?_⟩
    have hlink : tally (chans k) (isFlit u) ((clearQueue r N).midLink k) =
        tally (chans k) (isFlit u) (N.midLink k) :=
      tally_congr fun c hc => midLink_clearQueue hnone (mem_chans.1 hc)
    rw [tracked, hlink]
    exact hI.2 u
  switch N N' hI _ h :=
    ⟨placed_switchFlit hI.1 h, fun u => (tracked_switchFlit hr hI.1 u h).trans (hI.2 u)⟩
  requeue N hI := ⟨{ hI.1 with }, hI.2⟩

theorem occurrences_clk (hN : N.Settled) (hP : Placed k N) (h : clk k t N = some N') :
    N'.Settled ∧ Placed k N' ∧ ∀ u, occurrences k N' u = occurrences k N u := by
  obtain ⟨M, hM, rfl, hlink, hsettled⟩ := clk_some hN h
  have hstart : ∀ u, tracked k u ((N.readInputs k t).midLink k) (N.readInputs k t) =
      tracked k u N.link N := by
    intro u
    have htally := tally_congr (p := isFlit u) fun c (hc : c ∈ chans k) =>
      midLink_readInputs (t := t) hN (mem_chans.1 hc)
    rw [tracked, htally]
    rfl
  have hplaced : Placed k (N.readInputs k t) := { hP with }
  have hrun : Placed k M ∧ ∀ u, tracked k u (M.midLink k) M = tracked k u N.link N :=
    DataInvariant.clkRouters (fun r hr => dataInvariant_tracked hr _) ⟨hplaced, hstart⟩
      (Throughout.of_forall (fun M r => routerGuarded_true k t M r) _ _) hM
  obtain ⟨hPM, hcount⟩ := hrun
  refine ⟨hsettled, { hPM with }, fun u => ?_⟩
  have htally := tally_congr (p := isFlit u) fun c (hc : c ∈ chans k) => hlink c (mem_chans.1 hc)
  rw [occurrences_eq hsettled.queue, occurrences_eq hN.queue, ← hcount u, tracked, htally]
  rfl

theorem occurrences_pos (hs : s < k * k)
    (hg : (N.channel (.inject s)).input = some g) : 0 < occurrences k N g.uid := by
  have hle : ((N.channel (.inject s)).input.toList).countP (isFlit g.uid) ≤
      tally (chans k) (isFlit g.uid) (fun c => (N.channel c).input.toList) :=
    single_le_sum (f := fun c => ((N.channel c).input.toList).countP (isFlit g.uid))
      (fun _ _ => Nat.zero_le _) (mem_chans.2 hs)
  have hself : isFlit g.uid g = true := decide_eq_true rfl
  simp only [hg, toList_some, countP_singleton, hself, if_true] at hle
  simp only [occurrences]
  omega

/-- Putting a flit on an inject channel adds it and removes the flit whose place it takes. -/
theorem occurrences_writeFlit (hs : s < k * k) (u : ℕ) (h : SameData (N.writeFlit s f) N') :
    occurrences k N' u + ((N.channel (.inject s)).input.toList).countP (isFlit u) =
      occurrences k N u + if isFlit u f then 1 else 0 := by
  have hchannel : N'.channel = (N.writeFlit s f).channel := h.channel
  have hmem : ChanId.inject s ∈ chans k := mem_chans.2 hs
  have hinput := tally_change (p := isFlit u) (F := fun c => (N.channel c).input.toList)
    (G := fun c => (N'.channel c).input.toList) hmem
    (fun c _ hne => by simp [hchannel, writeFlit, hne])
  have hslot : ((N'.channel (.inject s)).input.toList).countP (isFlit u) =
      if isFlit u f then 1 else 0 := by
    simp [hchannel, writeFlit]
  have hwait : ∀ c, (N'.channel c).waitQueue = (N.channel c).waitQueue ∧
      (N'.channel c).output = (N.channel c).output := by
    intro c
    by_cases hc : c = .inject s
    · simp [hchannel, writeFlit, hc]
    · simp [hchannel, writeFlit, hc]
  have hflits : N'.flits = N.flits := h.flits
  have hqueue : N'.inQueueFlits = N.inQueueFlits := h.inQueueFlits
  have hout : N'.outputBuffer = N.outputBuffer := h.outputBuffer
  have hrec : N'.received = N.received := h.received
  simp only [occurrences, hwait, hflits, hqueue, hout, hrec]
  omega

end NetworkNoC

namespace TrafficManager

open NetworkNoC

/-! ## Serving the nodes -/

/-- Every flit that was made is in exactly one place; a flit counted as received is at its
destination. -/
structure NoLoss (T : TrafficManager) : Prop where
  once : ∀ u < T.flitCount, occurrences meshDimX T.net u = 1
  received : ∀ r, ∀ f ∈ T.net.received r, f.dstId = r

/-- No flit is in two places and only flits that were made are anywhere. -/
structure Sound (T : TrafficManager) : Prop where
  settled : T.net.Settled
  placed : Placed meshDimX T.net
  atMost : ∀ u, occurrences meshDimX T.net u ≤ 1
  fresh : ∀ u, T.flitCount ≤ u → occurrences meshDimX T.net u = 0

/-- The flit handed over, if any, finds the inject channel of its node free. -/
def SlotFree (t : ℤ) (T : TrafficManager) (x : ℕ × ℕ) : Prop :=
  handsOver t T x = true → (T.net.channel (.inject x.1)).input = none

theorem Sound.noLoss_iff {T : TrafficManager} (hT : T.Sound) :
    T.NoLoss ↔ ∀ u < T.flitCount, occurrences meshDimX T.net u = 1 :=
  ⟨NoLoss.once, fun h => ⟨h, hT.placed.received⟩⟩

variable {t : ℤ} {T T' : TrafficManager} {x : ℕ × ℕ}

theorem serveNode_flits (h : T.serveNode t x = some T') :
    (handsOver t T x = false ∧ T'.net = T.net ∧ T'.flitCount = T.flitCount) ∨
    ∃ f, handsOver t T x = true ∧ f.uid = T.flitCount ∧ T'.flitCount = T.flitCount + 1 ∧
      SameData (T.net.writeFlit x.1 f) T'.net ∧
      ∃ packet v, outgoing t T x = some (packet, v) ∧ f.vc = v ∧ f.dstId = packet.dstId := by
  obtain ⟨hnet, _, hcount⟩ := readPacket_frame t T x.1 x.2
  rcases serveNode_cases h with ⟨hhand, rfl⟩ | ⟨R, packet, rest, v, rfl, _, hhand, hsent⟩
  · exact Or.inl ⟨by rw [handsOver, hhand, isSome_none], hnet, hcount⟩
  · refine Or.inr ⟨outFlit t (T.readPacket t x.1 x.2) packet v,
      by rw [handsOver, hhand, isSome_some], hcount, ?_⟩
    rw [← hnet, ← hcount]
    rcases hsent with ⟨_, _, rfl⟩ | ⟨_, _, _, rfl⟩
    · exact ⟨rfl, sameData_setState _ _ _ _ _, packet, v, hhand, rfl, rfl⟩
    · exact ⟨rfl, SameData.refl _, packet, v, hhand, rfl, rfl⟩

theorem settled_writeFlit {N N' : NetworkNoC} {s : ℕ} {f : Flit} (hN : N.Settled)
    (h : SameData (N.writeFlit s f) N') : N'.Settled := by
  refine ⟨fun y => ?_, fun c => ?_⟩
  · rw [h.inQueueFlits]
    exact hN.queue y
  · rw [h.channel]
    by_cases hc : c = .inject s
    · have hs := hN.channel (.inject s)
      simpa [writeFlit, hc, Channel.Settled] using hs
    · simpa [writeFlit, hc] using hN.channel c

theorem sound_serveNode (hx : x.1 < 64) (hT : T.Sound) (h : T.serveNode t x = some T') :
    T'.Sound := by
  rcases serveNode_flits h with ⟨_, hnet, hcount⟩ | ⟨f, _, huid, hcount, hdata, _⟩
  · exact ⟨hnet ▸ hT.settled, hnet ▸ hT.placed, hnet ▸ hT.atMost, hnet ▸ hcount ▸ hT.fresh⟩
  have hocc := fun u => occurrences_writeFlit (k := meshDimX) hx u hdata
  have hflits : T'.net.flits = T.net.flits := hdata.flits
  have hrec : T'.net.received = T.net.received := hdata.received
  refine ⟨settled_writeFlit hT.settled hdata, hT.placed.congr hflits hrec, fun u => ?_,
    fun u hu => ?_⟩
  · -- the new flit was nowhere before
    have hatMost := hT.atMost u
    have hfresh := hT.fresh u
    specialize hocc u
    split_ifs at hocc with hf
    · have hu : f.uid = u := of_decide_eq_true hf
      omega
    · omega
  · have hne : isFlit u f = false := decide_eq_false (by omega)
    have hfresh := hT.fresh u (by omega)
    specialize hocc u
    simp only [hne, Bool.false_eq_true, if_false] at hocc
    omega

/-- A flit that is nowhere stays lost. -/
theorem not_noLoss_serveNode (hx : x.1 < 64) (hT : T.Sound) (hlost : ¬ T.NoLoss)
    (h : T.serveNode t x = some T') : ¬ T'.NoLoss := by
  have hT' := sound_serveNode hx hT h
  rw [hT.noLoss_iff] at hlost
  rw [hT'.noLoss_iff]
  push Not at hlost ⊢
  obtain ⟨u, hu, hocc⟩ := hlost
  rcases serveNode_flits h with ⟨_, hnet, hcount⟩ | ⟨f, _, huid, hcount, hdata, _⟩
  · exact ⟨u, hcount ▸ hu, hnet ▸ hocc⟩
  · refine ⟨u, by omega, ?_⟩
    have hne : isFlit u f = false := decide_eq_false (by omega)
    have hchange := occurrences_writeFlit (k := meshDimX) hx u hdata
    have hatMost := hT.atMost u
    simp only [hne, Bool.false_eq_true, if_false] at hchange
    omega

/-- Serving a queue loses a flit exactly when the inject channel was taken. -/
theorem noLoss_serveNode_iff (hx : x.1 < 64) (hT : T.Sound) (hP : T.NoLoss)
    (h : T.serveNode t x = some T') : T'.NoLoss ↔ SlotFree t T x := by
  have hT' := sound_serveNode hx hT h
  rw [hT'.noLoss_iff]
  rcases serveNode_flits h with ⟨hhand, hnet, hcount⟩ | ⟨f, hhand, huid, hcount, hdata, _⟩
  · refine ⟨fun _ hyes => absurd (hhand.symm.trans hyes) (by simp), fun _ => ?_⟩
    rw [hnet, hcount]
    exact hP.once
  have hocc := fun u => occurrences_writeFlit (k := meshDimX) hx u hdata
  constructor
  · intro hall _
    by_contra hslot
    obtain ⟨g, hg⟩ := ne_none_iff_exists'.1 hslot
    -- the flit that is overwritten was in this place only
    have hgcount := hocc g.uid
    have hself : isFlit g.uid g = true := decide_eq_true rfl
    simp only [hg, toList_some, countP_singleton, hself, if_true] at hgcount
    have hold : g.uid < T.flitCount := by
      by_contra hnew
      have hfresh := hT.fresh g.uid (by omega)
      have hinput : 0 < occurrences meshDimX T.net g.uid := occurrences_pos hx hg
      omega
    have hne : isFlit g.uid f = false := decide_eq_false (by omega)
    simp only [hne, Bool.false_eq_true, if_false, hP.once _ hold] at hgcount
    have hone := hall g.uid (by omega)
    omega
  · intro hfree u hu
    have hchange := hocc u
    rw [hfree hhand] at hchange
    simp only [toList_none, countP_nil] at hchange
    split_ifs at hchange with hf
    · have hnew : f.uid = u := of_decide_eq_true hf
      have hfresh := hT.fresh u (by omega)
      omega
    · have hne : f.uid ≠ u := of_decide_eq_false (by simpa [isFlit] using hf)
      have hold := hP.once u (by omega)
      omega

theorem sound_netClk {net : NetworkNoC} (hT : T.Sound) (h : T.net.clk meshDimX t = some net) :
    Sound { T with net := net } := by
  obtain ⟨hsettled, hplaced, hocc⟩ := occurrences_clk hT.settled hT.placed h
  exact ⟨hsettled, hplaced, fun u => (hocc u).trans_le (hT.atMost u),
    fun u hu => (hocc u).trans (hT.fresh u hu)⟩

theorem sound_clk (hT : T.Sound) (h : T.clk t = some T') : T'.Sound := by
  obtain ⟨net, hnet, hloop⟩ := clk_some h
  exact foldlM_invariant (fun _ hx _ _ => sound_serveNode (mem_nodeTypes.1 hx).1)
    (sound_netClk hT hnet) hloop

/-- A cycle keeps every flit exactly when no flit is handed over on a taken channel. -/
theorem noLoss_clk_iff (hT : T.Sound) (hP : T.NoLoss) (h : T.clk t = some T') :
    T'.NoLoss ↔ ServeGuarded t (SlotFree t) T := by
  obtain ⟨net, hnet, hloop⟩ := clk_some h
  have hsound := sound_netClk hT hnet
  have hnoLoss : NoLoss { T with net := net } := by
    obtain ⟨_, hplaced, hocc⟩ := occurrences_clk hT.settled hT.placed hnet
    exact ⟨fun u hu => (hocc u).trans (hP.once u hu), hplaced.received⟩
  have hiff : T'.NoLoss ↔ Throughout (serveNode t) (SlotFree t) { T with net := net } nodeTypes :=
    foldlM_iff_throughout
      (fun x hx _ _ hS hS' => sound_serveNode (mem_nodeTypes.1 hx).1 hS hS')
      (fun x hx _ _ hS hlost hS' => not_noLoss_serveNode (mem_nodeTypes.1 hx).1 hS hlost hS')
      (fun x hx _ _ hS hPS hS' => noLoss_serveNode_iff (mem_nodeTypes.1 hx).1 hS hPS hS')
      hsound hnoLoss hloop
  rw [hiff]
  constructor
  · intro hG net' hnet'
    obtain rfl : net = net' := some.inj (hnet.symm.trans hnet')
    exact hG
  · intro hG
    exact hG net hnet

end TrafficManager
end EnocGem5.Noc
