import EnocGem5.Noc.Cycle

/-!
# Links — the flits under way between two buffers

A flit that has left a VC passes the output queue of its router, the three places of a channel and
the map of arrived flits before it is buffered again. `link` is this whole path of one channel as a
single queue, oldest flit first. It has two forms: within a cycle the flit at the front is in the
sink's map (`midLink`), between two cycles it is still offered by the channel (`link`).

The reading and the writing pass of a cycle leave links as they are; queuing takes the front flit
and switching appends a flit.
-/

namespace EnocGem5.Noc.NetworkNoC

open Lib Function List Option

/-! ## Links -/

variable (N : NetworkNoC)

/-- The output queue that feeds a channel. -/
def upstream : ChanId → List Flit
  | .chan c => N.outputBuffer (c / 4, c % 4)
  | _ => []

/-- The flits under way that the sink has not been offered yet. -/
def transit (c : ChanId) : List Flit := (N.channel c).queued ++ N.upstream c

/-- The flits under way over channel `c`, between two cycles. -/
def link (c : ChanId) : List Flit := (N.channel c).output.toList ++ N.transit c

/-- The flit of channel `c` that its sink has read in this cycle. -/
def arrived (k : ℕ) (N : NetworkNoC) (c : ChanId) : Option Flit :=
  (sinkOf k c).bind N.inQueueFlits

/-- The flits under way over channel `c`, while the routers run. -/
def midLink (k : ℕ) (N : NetworkNoC) (c : ChanId) : List Flit :=
  (N.arrived k c).toList ++ N.transit c

/-- The channels of a mesh of dimension `k` that lead to a router. -/
def IsChan (k : ℕ) : ChanId → Prop
  | .inject s => s < k * k
  | .eject _ => False
  | .chan c => c < 4 * (k * k)

theorem isChan_inChan {k r i : ℕ} (hr : r < k * k) : IsChan k (inChan k r i) := by
  have hleft0 := neighbour_lt 1 hr
  have hright0 := neighbour_lt 0 hr
  have hleft1 := neighbour_lt 3 hr
  have hright1 := neighbour_lt 2 hr
  simp only [neighbour] at hleft0 hright0 hleft1 hright1
  unfold inChan
  split <;> simp only [IsChan] <;> omega

variable {k i r p : ℕ} {c : ChanId} {N N' : NetworkNoC} {t : ℤ}

theorem exists_sink (hc : IsChan k c) :
    ∃ r i, r < k * k ∧ i < 5 ∧ sinkOf k c = some (r, i) ∧ inChan k r i = c := by
  cases c with
  | inject s => exact ⟨s, 4, hc, by omega, rfl, rfl⟩
  | eject d => exact hc.elim
  | chan c =>
    have hnode : c / 4 < k * k := by
      have : c < 4 * (k * k) := hc
      omega
    have hport : c % 4 < 4 := Nat.mod_lt _ (by omega)
    refine ⟨neighbour k (c / 4) (c % 4), inPort (c % 4), neighbour_lt _ hnode, ?_, rfl, ?_⟩
    · have := inPort_lt (c % 4)
      omega
    · rw [inChan_neighbour hnode hport, outChan, if_pos hport]
      congr 1
      omega

theorem arrived_inChan (N : NetworkNoC) (hr : r < k * k) (hi : i < 5) :
    N.arrived k (inChan k r i) = N.inQueueFlits (r, i) := by
  simp [arrived, sinkOf_inChan hr hi]

theorem upstream_outChan (N : NetworkNoC) (hp : p < 4) :
    N.upstream (outChan r p) = N.outputBuffer (r, p) := by
  rw [outChan, if_pos hp, upstream]
  congr 2 <;> omega

theorem isChan_outChan (hr : r < k * k) (hp : p < 4) : IsChan k (outChan r p) := by
  rw [outChan, if_pos hp, IsChan]
  omega

theorem transit_congr (hc : N'.channel = N.channel)
    (ho : ∀ r, ∀ p < 4, N'.outputBuffer (r, p) = N.outputBuffer (r, p)) :
    N'.transit = N.transit := by
  funext c
  have hup : N'.upstream c = N.upstream c := by
    cases c with
    | chan c => exact ho _ _ (Nat.mod_lt _ (by omega))
    | inject s => rfl
    | eject d => rfl
  rw [transit, transit, hup, hc]

theorem midLink_congr (hc : N'.channel = N.channel) (hq : N'.inQueueFlits = N.inQueueFlits)
    (ho : ∀ r, ∀ p < 4, N'.outputBuffer (r, p) = N.outputBuffer (r, p)) :
    N'.midLink k = N.midLink k := by
  funext c
  rw [midLink, midLink, arrived, arrived, hq, transit_congr hc ho]

/-! ## The passes of a cycle -/

/-- Between two cycles the maps of arrived flits are empty and no channel holds a flit back. -/
structure Settled (N : NetworkNoC) : Prop where
  queue : ∀ x, N.inQueueFlits x = none
  channel : ∀ c, (N.channel c).Settled

/-- Reading the inputs turns the offered flit of every channel into an arrived one. -/
theorem midLink_readInputs (hN : N.Settled)
    (hc : IsChan k c) : (N.readInputs k t).midLink k c = N.link c := by
  obtain ⟨r, i, hr, hi, hsink, hin⟩ := exists_sink hc
  have harr : (N.readInputs k t).arrived k c = (N.channel c).output := by
    simp [arrived, hsink, readInputs, hr, hi, hN.queue, hin]
  have htransit : (N.readInputs k t).transit c = N.transit c := by
    simp only [transit, readInputs, Channel.queued_readInputs]
    cases c <;> rfl
  rw [midLink, link, harr, htransit]

/-- Writing the outputs offers the next flit of every channel and moves the front of every output
queue onto its channel. -/
theorem link_writeOutputs (hc : IsChan k c)
    (harr : N.arrived k c = none) (hin : (N.channel c).input = none) :
    (N.writeOutputs k t).link c = N.midLink k c := by
  have hout := Channel.toList_output_append_queued t (N.channel c)
  rw [midLink, harr, link, transit, transit]
  cases c with
  | inject s =>
    simp only [writeOutputs, sourceOf, upstream, append_nil, toList_none, nil_append]
    exact hout
  | eject d => exact hc.elim
  | chan c =>
    have hnode : c / 4 < k * k := by
      have : c < 4 * (k * k) := hc
      omega
    have hport : c % 4 < 5 := by omega
    simp only [writeOutputs, sourceOf, upstream, hnode, hport, and_self, if_true,
      toList_none, nil_append]
    cases hbuf : N.outputBuffer (c / 4, c % 4) with
    | nil =>
      simp only [sendFront, tail_nil, append_nil]
      exact hout
    | cons f rest =>
      simp only [sendFront, Channel.queued, Channel.send_output, Channel.send_waitQueue,
        Channel.send_input, toList_some, tail_cons] at hout ⊢
      rw [Channel.writeOutputs_input, hin, toList_none, append_nil, append_nil] at hout
      rw [hin, ← hout]
      simp

theorem settled_sendOutputs
    (h : ((N.channel c).writeOutputs t).Settled) : ((N.writeOutputs k t).channel c).Settled := by
  have hsend : ∀ l, (sendFront ((N.channel c).writeOutputs t) l).Settled := by
    intro l
    cases l with
    | nil => exact h
    | cons f l => exact h
  simp only [writeOutputs]
  split
  · split_ifs
    · exact hsend _
    · exact h
  · exact h

/-! ## The steps of a router -/

section Steps

variable {k r : ℕ} {N N' : NetworkNoC}

theorem sameData_midLink (h : SameData N N') : N'.midLink k = N.midLink k :=
  midLink_congr h.channel h.inQueueFlits (fun r p _ => congrFun h.outputBuffer (r, p))

theorem sameData_link (h : SameData N N') : N'.link = N.link := by
  funext c
  rw [link, link, transit_congr h.channel fun r p _ => congrFun h.outputBuffer (r, p), h.channel]

theorem midLink_clearQueue (hnone : ∀ i < 5, N.inQueueFlits (r, i) = none)
    (hc : IsChan k c) : (clearQueue r N).midLink k c = N.midLink k c := by
  obtain ⟨r', i, _, hi, hsink, _⟩ := exists_sink hc
  have harr : (clearQueue r N).arrived k c = N.arrived k c := by
    simp only [arrived, hsink, bind_some, clearQueue]
    split_ifs with h
    · rw [h, hnone i hi]
    · rfl
  rw [midLink, harr]
  rfl

theorem takeFlit_channel (h : takeFlit k r t N i = some N') : N'.channel = N.channel := by
  rcases takeFlit_cases h with ⟨_, rfl⟩ | ⟨f, _, _, ⟨_, rfl⟩ | ⟨_, rfl⟩⟩
  · rfl
  · rfl
  · exact (frame_bufferFlit N r i f.vc t (f.route k r)).1.1

theorem switchFlit_inputs (h : switchFlit k r N = some N') :
    N'.channel = N.channel ∧ N'.inQueueFlits = N.inQueueFlits := by
  rcases switchFlit_cases h with ⟨_, rfl⟩ | ⟨i, v, rest, _, ⟨_, rfl⟩ | ⟨_, f, w, _, _, _, hcases⟩⟩
  · exact ⟨rfl, rfl⟩
  · exact ⟨rfl, rfl⟩
  · rcases hcases with ⟨_, rfl⟩ | rfl
    · have hframe := (frame_moveFlit (N.setSwAllocVcs r rest) r i v f w w).1
      exact ⟨hframe.1, hframe.2.1⟩
    · exact ⟨rfl, rfl⟩

/-- The flit `f` at the front of input `i` of router `r` has been taken by the router. -/
structure Taken (k r i : ℕ) (f : Flit) (N N' : NetworkNoC) : Prop where
  vc_lt : f.vc < 8
  front : N.midLink k (inChan k r i) = f :: N'.midLink k (inChan k r i)
  others : ∀ c, IsChan k c → c ≠ inChan k r i → N'.midLink k c = N.midLink k c

theorem taken_of_inQueueFlits {f : Flit} (hr : r < k * k) (hi : i < 5)
    (hf : N.inQueueFlits (r, i) = some f) (hvc : f.vc < 8) (hc : N'.channel = N.channel)
    (hq : N'.inQueueFlits = update N.inQueueFlits (r, i) none)
    (ho : ∀ r, ∀ p < 4, N'.outputBuffer (r, p) = N.outputBuffer (r, p)) : Taken k r i f N N' := by
  have htransit := transit_congr hc ho
  refine ⟨hvc, ?_, fun c hchan hne => ?_⟩
  · rw [midLink, midLink, arrived_inChan N hr hi, arrived_inChan N' hr hi, hf, hq, htransit]
    simp
  · obtain ⟨r', i', hr', hi', hsink, hin⟩ := exists_sink hchan
    have hne' : (r', i') ≠ (r, i) := by
      intro he
      cases he
      exact hne hin.symm
    have harr : N'.arrived k c = N.arrived k c := by
      simp only [arrived, hsink, bind_some, hq]
      exact update_of_ne hne' _ _
    rw [midLink, midLink, harr, htransit]

/-- Queuing at one input does nothing, counts the front flit of the link as received, or buffers
it. -/
theorem takeFlit_link (hr : r < k * k) (hi : i < 5) (h : takeFlit k r t N i = some N') :
    N' = N ∨ ∃ f, Taken k r i f N N' ∧
      ((xyYxMesh k r f.dstId = 4 ∧ N'.flits = N.flits ∧
          N'.received = update N.received r (N.received r ++ [f.route k r])) ∨
        (xyYxMesh k r f.dstId ≠ 4 ∧ N'.received = N.received ∧
          N'.flits = update N.flits (r, i, f.vc)
            (N.flits (r, i, f.vc) ++ [{ f.route k r with vc := f.vc }]))) := by
  have hchannel := takeFlit_channel h
  rcases takeFlit_cases h with ⟨_, rfl⟩ | ⟨f, hf, hvc, ⟨hport, rfl⟩ | ⟨hport, rfl⟩⟩
  · exact .inl rfl
  · refine .inr ⟨f, taken_of_inQueueFlits hr hi hf hvc hchannel rfl ?_, .inl ⟨hport, rfl, rfl⟩⟩
    intro r' p hp
    have hne : (r', p) ≠ (r, 4) := by
      intro he
      cases he
      omega
    simp [ejectFlit, hne]
  · refine .inr ⟨f, taken_of_inQueueFlits hr hi hf hvc hchannel (takeFlit_inQueueFlits h)
      (by simp), .inr ⟨hport, ?_, by simp⟩⟩
    funext x
    simp

/-- The front flit `f` of VC `(r, i, v)` has been moved to the link of its output port, as a flit
for VC `w`. -/
structure Moved (k r i v w : ℕ) (f : Flit) (N N' : NetworkNoC) : Prop where
  front : (N.flits (r, i, v)).head? = some f
  port_lt : f.outputPort < 4
  outVc : N.outVc (r, i, v) = some w
  flits : N'.flits = Function.update N.flits (r, i, v) (N.flits (r, i, v)).tail
  pushed : N'.midLink k (outChan r f.outputPort) =
    N.midLink k (outChan r f.outputPort) ++ [{ f with vc := w }]
  others : ∀ c, c ≠ outChan r f.outputPort → N'.midLink k c = N.midLink k c
  received : N'.received = N.received

/-- Serving a switch entry moves one flit or none. -/
theorem switchFlit_link (h : switchFlit k r N = some N') :
    (N'.flits = N.flits ∧ N'.midLink k = N.midLink k ∧ N'.received = N.received) ∨
    ∃ i v w f, (∃ rest, N.swAllocVcs r = (i, v) :: rest) ∧ Moved k r i v w f N N' := by
  rcases switchFlit_cases h with ⟨_, rfl⟩ |
    ⟨i, v, rest, hq, ⟨_, rfl⟩ | ⟨_, f, w, hf, hw, hp, hcases⟩⟩
  · exact .inl ⟨rfl, rfl, rfl⟩
  · exact .inl ⟨rfl, rfl, rfl⟩
  · rcases hcases with ⟨_, rfl⟩ | rfl
    · refine .inr ⟨i, v, w, f, ⟨rest, hq⟩, hf, hp, hw, by simp, ?_, ?_, ?_⟩
      · simp only [midLink, transit, upstream_outChan _ hp, arrived, frame_moveFlit,
          outputBuffer_moveFlit, update_self]
        simp [setSwAllocVcs]
      · intro c hc
        have hup : ((N.setSwAllocVcs r rest).moveFlit r i v w w f).upstream c = N.upstream c := by
          cases c with
          | chan c =>
            have hne : (c / 4, c % 4) ≠ (r, f.outputPort) := by
              intro he
              obtain ⟨rfl, hport⟩ := Prod.mk.inj he
              apply hc
              rw [outChan, if_pos hp]
              congr 1
              omega
            simp [upstream, hne]
          | inject s => rfl
          | eject d => rfl
        simp only [midLink, transit, hup, arrived, frame_moveFlit]
        rfl
      · funext x
        simp
    · refine .inl ⟨by simp, midLink_congr rfl rfl (fun _ _ _ => rfl), rfl⟩

end Steps

/-! ## A whole cycle -/

theorem inQueueFlits_routerClk (h : routerClk k t N r = some N') (x : ℕ × ℕ) :
    N'.inQueueFlits x = if x.1 = r then none else N.inQueueFlits x := by
  obtain ⟨N₁, N₂, h₁, h₂, h₃⟩ := routerClk_some h
  obtain ⟨M, M', hM, hM', rfl⟩ := swAllocEvaluate_some h₃
  obtain ⟨P, hP, _, rfl⟩ := inputQueuing_some h₁
  -- after the queuing loop nothing writes the map
  have hstep : ∀ a ∈ range (M.swAllocVcs r).length, ∀ Q Q' : NetworkNoC,
      Q.inQueueFlits = M.inQueueFlits → switchFlit k r Q = some Q' →
      Q'.inQueueFlits = M.inQueueFlits := by
    intro _ _ Q Q' hQ hQ'
    exact (switchFlit_inputs hQ').2.trans hQ
  have hswitch := foldlM_invariant hstep rfl hM'
  have hrest : M.inQueueFlits = (clearQueue r P).inQueueFlits := by
    rw [(sameData_swRequests hM).inQueueFlits, (sameData_clearSwAllocator r N₂).inQueueFlits,
      (sameData_vcAllocEvaluate h₂).inQueueFlits, (sameData_clearVcAllocator r _).inQueueFlits]
  have htake : ∀ y : ℕ × ℕ, y.1 ≠ r → P.inQueueFlits y = N.inQueueFlits y := by
    have hkeep : ∀ i ∈ range 5, ∀ Q Q' : NetworkNoC,
        (∀ y : ℕ × ℕ, y.1 ≠ r → Q.inQueueFlits y = N.inQueueFlits y) →
        takeFlit k r t Q i = some Q' →
        ∀ y : ℕ × ℕ, y.1 ≠ r → Q'.inQueueFlits y = N.inQueueFlits y := by
      intro i _ Q Q' hQ hstep y hy
      rw [takeFlit_inQueueFlits hstep, update_of_ne (by rintro rfl; exact hy rfl), hQ y hy]
    exact foldlM_invariant hkeep (fun _ _ => rfl) hP
  have hfinal : (requeueSwitch r M').inQueueFlits x =
      if x.1 = r then none else P.inQueueFlits x := by
    rw [show (requeueSwitch r M').inQueueFlits = M'.inQueueFlits from rfl, hswitch, hrest]
    rfl
  rw [hfinal]
  split_ifs with hx
  · rfl
  · exact htake x hx

/-- Each router clears its own map, so the pass over the routers leaves all of them empty. -/
theorem inQueueFlits_foldlM {x : ℕ × ℕ} {l : List ℕ}
    (h : l.foldlM (routerClk k t) N = some N') (hx : x.1 ∈ l ∨ N.inQueueFlits x = none) :
    N'.inQueueFlits x = none := by
  induction l generalizing N with
  | nil =>
    cases h
    exact hx.resolve_left not_mem_nil
  | cons r l ih =>
    rcases foldlM_cons_some h with ⟨M, hM, hrest⟩
    refine ih hrest ?_
    rw [inQueueFlits_routerClk hM]
    split_ifs with hr
    · exact .inr rfl
    · exact hx.imp_left fun hmem => (mem_cons.1 hmem).resolve_left hr

theorem channel_clkRouters (h : clkRouters k t N = some N') : N'.channel = N.channel := by
  have hI : ∀ r < k * k, DataInvariant (fun _ _ => True) k r t
      (fun M => M.channel = N.channel) := by
    intro r _
    refine ⟨fun M M' hM hInv => hM.channel.trans hInv, ?_, fun _ _ hInv => hInv, ?_,
      fun _ hInv => hInv⟩
    · intro M M' i _ hInv hstep
      exact (takeFlit_channel hstep).trans hInv
    · intro M M' hInv _ hstep
      exact (switchFlit_inputs hstep).1.trans hInv
  exact DataInvariant.clkRouters hI rfl
    (Throughout.of_forall (fun M r => routerGuarded_true k t M r) _ _) h

/-- What a cycle of a settled network does: the routers run on the links as they were, and the links
they leave are the links between this cycle and the next. -/
theorem clk_some (hN : N.Settled) (h : clk k t N = some N') :
    ∃ M, clkRouters k t (N.readInputs k t) = some M ∧ N' = M.writeOutputs k t ∧
      (∀ c, IsChan k c → N'.link c = M.midLink k c) ∧ N'.Settled := by
  obtain ⟨M, hM, rfl⟩ := map_eq_some_iff.1 h
  have hchannel : M.channel = (N.readInputs k t).channel := channel_clkRouters hM
  have hqueue : ∀ x, M.inQueueFlits x = none := by
    intro x
    refine inQueueFlits_foldlM hM ?_
    by_cases hx : x.1 < k * k
    · exact .inl (mem_range.2 hx)
    · refine .inr ?_
      simp [readInputs, hx, hN.queue]
  have hinput : ∀ c, (M.channel c).input = none := by
    intro c
    simp [hchannel, readInputs]
  refine ⟨M, hM, rfl, fun c hc => ?_, hqueue, fun c => ?_⟩
  · apply link_writeOutputs hc _ (hinput c)
    obtain ⟨r, i, _, _, hsink, _⟩ := exists_sink hc
    simp [arrived, hsink, hqueue]
  · have hsettled : ((M.channel c).writeOutputs t).Settled := by
      rw [hchannel]
      exact Channel.settled_writeOutputs_readInputs (hN.channel c)
    exact settled_sendOutputs hsettled

end EnocGem5.Noc.NetworkNoC
