import EnocGem5.Noc.Cycle

/-!
# SwitchRequests — the pending switch requests of one router

`_InputQueuing` pushes one entry on `_sw_alloc_vcs` for every flit it buffers, and
`_SWAllocEvaluate` drains the queue: an entry whose flit moves is consumed, one that lost is queued
again, and one whose VC is not in the state `active` is dropped although its flit stays.

A router is run against arbitrary surroundings: in every cycle the flits that arrive, the rest of
the network and the states that upstream routers gave to this router's VCs are chosen freely.  The
number of entries of a VC is the number of its flits in every state reached exactly when no entry is
ever dropped.
-/

namespace EnocGem5.Noc

open Lib List Function Option

/-! ## A router in its surroundings -/

namespace Buffer

/-- The buffer with the VC states that the upstream side has set. -/
def withStates (b : Buffer) (s : ℕ → VCState) : Buffer where
  vc := fun v => (b.vc v).setState (s v)
  occupancy := b.occupancy
  occupancy_eq := b.occupancy_eq
  stamped := b.stamped

@[simp] theorem flits_withStates (b : Buffer) (s : ℕ → VCState) :
    (b.withStates s).flits = b.flits :=
  rfl

end Buffer

/-- What one cycle of a router meets: the rest of the network, the flits offered at its inputs and
the states of its VCs. -/
structure Surroundings where
  net : NetworkNoC := {}
  arrivals : ℕ → Option Flit := fun _ => none
  vcState : ℕ → ℕ → VCState
  globalClk : ℤ := 0

namespace NetworkNoC

/-- Router `r` of `N` in the surroundings `e`. Its own queues are kept; since its last `clk`,
`_SendFlits` has sent the front flit of every output. -/
def placed (N : NetworkNoC) (r : ℕ) (e : Surroundings) : NetworkNoC where
  channel := e.net.channel
  buf := fun x => if x.1 = r then (N.buf x).withStates (e.vcState x.2) else e.net.buf x
  inQueueFlits := fun x => if x.1 = r then e.arrivals x.2 else e.net.inQueueFlits x
  outputBuffer := fun x => if x.1 = r then (N.outputBuffer x).tail else e.net.outputBuffer x
  vcAllocator := fun x => if x = r then N.vcAllocator x else e.net.vcAllocator x
  swAllocator := fun x => if x = r then N.swAllocator x else e.net.swAllocator x
  vcAllocVcs := fun x => if x = r then N.vcAllocVcs x else e.net.vcAllocVcs x
  vcAllocVcsTmp := fun x => if x = r then N.vcAllocVcsTmp x else e.net.vcAllocVcsTmp x
  swAllocVcs := fun x => if x = r then N.swAllocVcs x else e.net.swAllocVcs x
  swAllocVcsTmp := fun x => if x = r then N.swAllocVcsTmp x else e.net.swAllocVcsTmp x
  received := fun x => if x = r then N.received x else e.net.received x
  cout := N.cout

def routerStep (k r : ℕ) (N : NetworkNoC) (e : Surroundings) : Option NetworkNoC :=
  routerClk k e.globalClk (N.placed r e) r

/-- Every buffered flit of router `r` has its entry in `_sw_alloc_vcs`. -/
def Balanced (r : ℕ) (N : NetworkNoC) : Prop :=
  ∀ i < numPorts, ∀ v < numVcs, (N.swAllocVcs r).count (i, v) = (N.flits (r, i, v)).length

/-- The entry that `_SWAllocEvaluate` serves next names an active VC, so it is not dropped. -/
def ServesActive (r : ℕ) (N : NetworkNoC) : Prop :=
  ∀ i v rest, N.swAllocVcs r = (i, v) :: rest → N.state (r, i, v) = .active

/-! ## Counting entries -/

/-- The entries of a VC, those already set aside for the next cycle included. -/
def entries (r : ℕ) (N : NetworkNoC) (e : ℕ × ℕ) : ℕ :=
  (N.swAllocVcs r).count e + (N.swAllocVcsTmp r).count e

/-- No VC has more entries than flits, and entries name existing VCs. -/
structure EntriesBounded (r : ℕ) (N : NetworkNoC) : Prop where
  le_flits : ∀ i v, N.entries r (i, v) ≤ (N.flits (r, i, v)).length
  in_range : ∀ e ∈ N.swAllocVcs r ++ N.swAllocVcsTmp r, e.1 < 5 ∧ e.2 < 8

/-- Entries and flits agree. -/
def EntriesMatch (r : ℕ) (N : NetworkNoC) : Prop :=
  ∀ i < 5, ∀ v < 8, N.entries r (i, v) = (N.flits (r, i, v)).length

/-- Entries and flits of each VC have changed by the same number. -/
def InStep (r : ℕ) (N N' : NetworkNoC) : Prop :=
  ∀ e, N'.entries r e + (N.flits (r, e)).length = N.entries r e + (N'.flits (r, e)).length

variable {k r i : ℕ} {t : ℤ} {N N' : NetworkNoC} {e : Surroundings}

theorem EntriesMatch.inStep (hm : EntriesMatch r N) (h : InStep r N N') : EntriesMatch r N' := by
  intro j hj v hv
  have h1 := hm j hj v hv
  have h2 := h (j, v)
  omega

theorem InStep.trans {N'' : NetworkNoC} (h : InStep r N N') (h' : InStep r N' N'') :
    InStep r N N'' := by
  intro e
  have h1 := h e
  have h2 := h' e
  omega

/-- Queuing a flit adds one flit and one entry to the same VC, or neither to any. -/
theorem takeFlit_entries (h : takeFlit k r t N i = some N') :
    (N'.flits = N.flits ∧ N'.swAllocVcs = N.swAllocVcs ∧ N'.swAllocVcsTmp = N.swAllocVcsTmp) ∨
    ∃ v g, v < 8 ∧ N'.flits = Function.update N.flits (r, i, v) (N.flits (r, i, v) ++ [g]) ∧
      N'.swAllocVcs = Function.update N.swAllocVcs r (N.swAllocVcs r ++ [(i, v)]) ∧
      N'.swAllocVcsTmp = N.swAllocVcsTmp := by
  rcases takeFlit_cases h with ⟨_, rfl⟩ | ⟨f, _, hvc, ⟨_, rfl⟩ | ⟨_, rfl⟩⟩
  · exact .inl ⟨rfl, rfl, rfl⟩
  · exact .inl ⟨rfl, rfl, rfl⟩
  · refine .inr ⟨f.vc, { f.route k r with vc := f.vc }, hvc, ?_, ?_, ?_⟩
    · exact flits_bufferFlit N r i f.vc t _
    · exact swAllocVcs_bufferFlit N r i f.vc t _
    · exact (frame_bufferFlit N r i f.vc t _).1.2.2.2.2.1

theorem takeFlit_inStep (h : takeFlit k r t N i = some N') : InStep r N N' := by
  intro e
  rcases takeFlit_entries h with ⟨hf, hs, ht⟩ | ⟨w, g, _, hf, hs, ht⟩
  · rw [entries, entries, hs, ht, hf]
  · by_cases he : e = (i, w)
    · subst he
      simp only [entries, hs, ht, hf, update_self, count_append, count_singleton_self,
        length_append, length_singleton]
      omega
    · have hne : (r, e) ≠ (r, i, w) := fun heq => he (Prod.mk.inj heq).2
      have hcount : List.count e [(i, w)] = 0 := by
        rw [count_eq_zero]
        simpa using he
      simp only [entries, hs, ht, hf, update_self, update_of_ne hne, count_append, hcount]
      omega

/-- What serving the front entry does to the entries and flits: the entry is dropped, consumed
together with the front flit of its VC, or set aside. -/
theorem switchFlit_entries (h : switchFlit k r N = some N') : (N' = N ∧ N.swAllocVcs r = []) ∨
    ∃ i v rest, N.swAllocVcs r = (i, v) :: rest ∧ N'.swAllocVcs r = rest ∧
      ((N.state (r, i, v) ≠ .active ∧ N'.flits = N.flits ∧ N'.swAllocVcsTmp r = N.swAllocVcsTmp r) ∨
        (N.state (r, i, v) = .active ∧
          ((N.flits (r, i, v) ≠ [] ∧ N'.swAllocVcsTmp r = N.swAllocVcsTmp r ∧
              N'.flits = Function.update N.flits (r, i, v) (N.flits (r, i, v)).tail) ∨
            (N'.flits = N.flits ∧ N'.swAllocVcsTmp r = N.swAllocVcsTmp r ++ [(i, v)])))) := by
  rcases switchFlit_cases h with ⟨hnil, rfl⟩ | ⟨i, v, rest, hq, hcases⟩
  · exact .inl ⟨rfl, hnil⟩
  · refine .inr ⟨i, v, rest, hq, ?_⟩
    rcases hcases with ⟨hst, rfl⟩ | ⟨hst, f, w, hf, _, _, ⟨_, rfl⟩ | rfl⟩
    · exact ⟨by simp, .inl ⟨hst, rfl, rfl⟩⟩
    · refine ⟨by simp, .inr ⟨hst, .inl ⟨?_, by simp, by simp⟩⟩⟩
      intro hnil
      simp [hnil] at hf
    · exact ⟨by simp, .inr ⟨hst, .inr ⟨by simp, by simp⟩⟩⟩

/-- Serving the front entry never brings entries closer to flits, keeps their difference for every
VC when the entry is not dropped, and widens it when it is. -/
theorem switchFlit_deficit (h : switchFlit k r N = some N') :
    (∀ e, N'.entries r e + (N.flits (r, e)).length ≤ N.entries r e + (N'.flits (r, e)).length) ∧
    (ServesActive r N → InStep r N N') ∧
    (¬ ServesActive r N → ∃ e ∈ N.swAllocVcs r, N'.entries r e + (N.flits (r, e)).length <
        N.entries r e + (N'.flits (r, e)).length) := by
  rcases switchFlit_entries h with ⟨rfl, hnil⟩ | ⟨i, v, rest, hq, hq', hcases⟩
  · refine ⟨fun _ => le_rfl, fun _ _ => rfl, fun hnot => absurd ?_ hnot⟩
    intro i v rest hq
    rw [hnil] at hq
    cases hq
  · have hserves : ServesActive r N ↔ N.state (r, i, v) = .active := by
      refine ⟨fun hs => hs i v rest hq, fun hst i' v' rest' hq'' => ?_⟩
      rw [hq] at hq''
      cases hq''
      exact hst
    -- every entry is either the one served or untouched in the rest of the queue
    have hcount : ∀ e, (N.swAllocVcs r).count e = rest.count e + if (i, v) = e then 1 else 0 := by
      intro e
      rw [hq, count_cons]
      simp
    rcases hcases with ⟨hst, hf, ht⟩ | ⟨hst, hcases⟩
    · refine ⟨fun e => ?_, fun hs => absurd (hserves.1 hs) hst, fun _ => ⟨(i, v), ?_, ?_⟩⟩
      · simp only [entries, hq', ht, hf, hcount]
        omega
      · simp [hq]
      · simp only [entries, hq', ht, hf, hcount, if_true]
        omega
    · have heq : InStep r N N' := by
        intro e
        rcases hcases with ⟨hne, ht, hf⟩ | ⟨hf, ht⟩
        · simp only [entries, hq', ht, hf, hcount]
          by_cases he : (i, v) = e
          · subst he
            have hpos : 0 < (N.flits (r, i, v)).length := length_pos_of_ne_nil hne
            simp only [update_self, length_tail, if_true]
            omega
          · have hne' : (r, e) ≠ (r, i, v) := fun heq => he (Prod.mk.inj heq).2.symm
            rw [update_of_ne hne', if_neg he]
            omega
        · have hsingle : List.count e [(i, v)] = if (i, v) = e then 1 else 0 := by
            simp [count_cons]
          simp only [entries, hq', ht, hf, hcount, count_append, hsingle]
          omega
      exact ⟨fun e => (heq e).le, fun _ => heq, fun hnot => absurd (hserves.2 hst) hnot⟩

/-! ## Steps -/

theorem EntriesBounded.takeFlit (hb : EntriesBounded r N)
    (hi : i < 5) (h : takeFlit k r t N i = some N') : EntriesBounded r N' := by
  refine ⟨fun j v => ?_, ?_⟩
  · have h1 := takeFlit_inStep h (j, v)
    have h2 := hb.le_flits j v
    omega
  · rcases takeFlit_entries h with ⟨_, hs, ht⟩ | ⟨v, _, hv, _, hs, ht⟩
    · rw [hs, ht]
      exact hb.in_range
    · intro e he
      rw [hs, ht, update_self] at he
      simp only [mem_append, mem_singleton] at he
      rcases he with (he | rfl) | he
      · exact hb.in_range e (mem_append_left _ he)
      · exact ⟨hi, hv⟩
      · exact hb.in_range e (mem_append_right _ he)

theorem EntriesBounded.switchFlit (hb : EntriesBounded r N)
    (h : switchFlit k r N = some N') : EntriesBounded r N' := by
  refine ⟨fun j v => ?_, ?_⟩
  · have h1 := (switchFlit_deficit h).1 (j, v)
    have h2 := hb.le_flits j v
    omega
  · rcases switchFlit_entries h with ⟨rfl, _⟩ | ⟨i, v, rest, hq, hq', hcases⟩
    · exact hb.in_range
    · intro e he
      rw [hq'] at he
      have hsub : e ∈ N.swAllocVcs r ++ N.swAllocVcsTmp r := by
        rcases hcases with ⟨_, _, ht⟩ | ⟨_, ⟨_, ht, _⟩ | ⟨_, ht⟩⟩ <;>
          simp only [ht, hq, mem_append, mem_cons] at he ⊢ <;> tauto
      exact hb.in_range e hsub

/-- From matching entries, a step keeps them matching exactly when it drops none. -/
theorem EntriesMatch.switchFlit_iff (hb : EntriesBounded r N)
    (hm : EntriesMatch r N) (h : switchFlit k r N = some N') :
    EntriesMatch r N' ↔ ServesActive r N := by
  obtain ⟨_, heq, hlt⟩ := switchFlit_deficit h
  constructor
  · intro hm'
    by_contra hnot
    obtain ⟨⟨i, v⟩, he, hstrict⟩ := hlt hnot
    obtain ⟨hi, hv⟩ := hb.in_range _ (mem_append_left _ he)
    have h1 := hm i hi v hv
    have h2 := hm' i hi v hv
    omega
  · intro hs
    exact hm.inStep (heq hs)

theorem not_entriesMatch_switchFlit (hb : EntriesBounded r N)
    (hm : ¬ EntriesMatch r N) (h : switchFlit k r N = some N') : ¬ EntriesMatch r N' := by
  intro hm'
  apply hm
  intro j hj w hw
  have h1 := (switchFlit_deficit h).1 (j, w)
  have h2 := hm' j hj w hw
  have h3 := hb.le_flits j w
  omega

section Phases

variable {r : ℕ} {N N' : NetworkNoC}

theorem EntriesBounded.sameData (hb : EntriesBounded r N) (h : SameData N N') :
    EntriesBounded r N' := by
  refine ⟨fun i v => ?_, ?_⟩
  · rw [entries, h.swAllocVcs, h.swAllocVcsTmp, h.flits]
    exact hb.le_flits i v
  · rw [h.swAllocVcs, h.swAllocVcsTmp]
    exact hb.in_range

theorem entries_requeueSwitch (r : ℕ) (N : NetworkNoC) (e : ℕ × ℕ) :
    (requeueSwitch r N).entries r e = N.entries r e := by
  simp only [NetworkNoC.entries, requeueSwitch, update_self, count_append, count_nil]
  omega

/-- The state of router `r` at the end of a `clk`: nothing is set aside any more. -/
theorem balanced_iff_entriesMatch (h : N.swAllocVcsTmp r = []) :
    Balanced r N ↔ EntriesMatch r N := by
  simp [Balanced, EntriesMatch, NetworkNoC.entries, h]

end Phases

/-! ## Runs -/

/-- What holds of router `r` at the end of every `clk`. -/
structure AtRest (r : ℕ) (N : NetworkNoC) : Prop where
  bounded : EntriesBounded r N
  settled : N.swAllocVcsTmp r = []

theorem flits_placed (N : NetworkNoC) (r : ℕ) (e : Surroundings) (i v : ℕ) :
    (N.placed r e).flits (r, i, v) = N.flits (r, i, v) := by
  simp [flits, view, placed]

theorem entries_placed (N : NetworkNoC) (r : ℕ) (e : Surroundings) (x : ℕ × ℕ) :
    (N.placed r e).entries r x = N.entries r x := by
  simp [NetworkNoC.entries, placed]

/-- Up to the loop that serves the switch entries, a `clk` keeps entries and flits in step. -/
theorem routerStep_some (hN : EntriesBounded r N) (h : routerStep k r N e = some N') :
    ∃ N₁ N₂ M M', inputQueuing k r e.globalClk (N.placed r e) = some N₁ ∧
      vcAllocEvaluate k r (N₁.clearVcAllocator r) = some N₂ ∧
      swRequests r (N₂.clearSwAllocator r) = some M ∧ EntriesBounded r M ∧
      InStep r N M ∧
      (List.range (M.swAllocVcs r).length).foldlM (fun N _ => switchFlit k r N) M = some M' ∧
      N' = requeueSwitch r M' := by
  obtain ⟨N₁, N₂, h₁, h₂, h₃⟩ := routerClk_some h
  obtain ⟨M, M', hM, hM', rfl⟩ := swAllocEvaluate_some h₃
  have hsame : SameData N₁ M := by
    have hvc := (sameData_clearVcAllocator r N₁).trans (sameData_vcAllocEvaluate h₂)
    exact hvc.trans ((sameData_clearSwAllocator r N₂).trans (sameData_swRequests hM))
  have hplaced : EntriesBounded r (N.placed r e) := by
    refine ⟨fun i v => ?_, ?_⟩
    · rw [entries_placed, flits_placed]
      exact hN.le_flits i v
    · simpa [placed] using hN.in_range
  obtain ⟨Q, hQ, _, rfl⟩ := inputQueuing_some h₁
  have hstart : InStep r N (N.placed r e) := fun x => by rw [entries_placed, flits_placed]
  obtain ⟨hb, hstep⟩ :=
      foldlM_invariant (fun i hi P P' (hP : EntriesBounded r P ∧ InStep r N P) htake =>
    ⟨hP.1.takeFlit (mem_range.1 hi) htake, hP.2.trans (takeFlit_inStep htake)⟩) ⟨hplaced, hstart⟩ hQ
  refine ⟨_, N₂, M, M', h₁, h₂, hM, EntriesBounded.sameData (N := clearQueue r Q) { hb with } hsame,
    fun x => ?_, hM', rfl⟩
  rw [entries, hsame.swAllocVcs, hsame.swAllocVcsTmp, hsame.flits]
  exact hstep x

theorem AtRest.routerStep (hN : AtRest r N) (h : routerStep k r N e = some N') : AtRest r N' := by
  obtain ⟨N₁, N₂, M, M', _, _, _, hb, _, hloop, rfl⟩ := routerStep_some hN.bounded h
  have hb' : EntriesBounded r M' :=
    foldlM_invariant (fun _ _ _ _ hb hstep => hb.switchFlit hstep) hb hloop
  refine ⟨⟨fun i v => ?_, ?_⟩, by simp [requeueSwitch]⟩
  · rw [entries_requeueSwitch]
    exact hb'.le_flits i v
  · intro x hx
    apply hb'.in_range
    simp only [requeueSwitch, update_self, append_nil, mem_append] at hx ⊢
    exact hx.symm

/-- One `clk` from matching entries keeps them matching exactly when it drops none. -/
theorem balanced_routerStep (hN : AtRest r N)
    (hbal : Balanced r N) (h : routerStep k r N e = some N') :
    Balanced r N' ↔ RouterGuarded ServesActive k e.globalClk (N.placed r e) r := by
  have hN' := hN.routerStep h
  obtain ⟨N₁, N₂, M, M', h₁, h₂, hM, hb, hstep, hloop, rfl⟩ := routerStep_some hN.bounded h
  have hmM : EntriesMatch r M := ((balanced_iff_entriesMatch hN.settled).1 hbal).inStep hstep
  have hiff : EntriesMatch r M' ↔ Throughout (fun N (_ : ℕ) => switchFlit k r N)
      (fun N _ => ServesActive r N) M (List.range (M.swAllocVcs r).length) :=
    foldlM_iff_throughout (fun _ _ _ _ hb hstep => hb.switchFlit hstep)
      (fun _ _ _ _ hb hm hstep => not_entriesMatch_switchFlit hb hm hstep)
      (fun _ _ _ _ hb hm hstep => hm.switchFlit_iff hb hstep) hb hmM hloop
  have hend : Balanced r (requeueSwitch r M') ↔ EntriesMatch r M' := by
    rw [balanced_iff_entriesMatch hN'.settled]
    simp only [EntriesMatch, entries_requeueSwitch]
    exact Iff.rfl
  rw [hend, hiff]
  constructor
  · intro hG P₁ hP₁ P₂ hP₂ P hP
    -- the phases are functions, so the guard speaks about the states of this run
    obtain rfl : N₁ = P₁ := some.inj (h₁.symm.trans hP₁)
    obtain rfl : N₂ = P₂ := some.inj (h₂.symm.trans hP₂)
    obtain rfl : M = P := some.inj (hM.symm.trans hP)
    exact hG
  · intro hG
    exact hG N₁ h₁ N₂ h₂ M hM

/-- A router started empty keeps one switch request per buffered flit, in every state reached and
for any surroundings, exactly when `_SWAllocEvaluate` never serves an entry whose VC is not
active. -/
theorem balanced_iff_servesActive (k r : ℕ) (es : List Surroundings) :
    Always (routerStep k r) (Balanced r) {} es ↔
      Throughout (routerStep k r)
        (fun N e => RouterGuarded ServesActive k e.globalClk (N.placed r e) r) {} es := by
  have hrest : AtRest r {} := ⟨⟨fun _ _ => by simp [NetworkNoC.entries], by simp⟩, rfl⟩
  refine always_iff_throughout (fun N e N' => AtRest.routerStep) ?_ hrest ?_
  · intro N e N' hN hbal h
    exact balanced_routerStep hN hbal h
  · intro i _ v _
    rfl

/-! ## A dropped request -/

/-- A head for router 1 arrives at the inject port of router 0 while all VCs of router 1 towards it
are reserved. -/
def blockedHead : Surroundings where
  net := { buf := fun x => if x = (1, 1) then ({} : Buffer).withStates fun _ => .routing else {} }
  arrivals := fun i => if i = 4 then
      some { uid := 0, pkt := 0, idx := 0, srcId := 0, dstId := 1, flitType := .head,
             sequenceNo := 0, timestamp := 0, packetType := 0, vc := 0, outputPort := 0 }
    else none
  vcState := fun _ _ => .idle

/-- The head stays buffered in state `vc_alloc` and its switch request is gone after one cycle. -/
theorem blockedHead_dropped : ¬ Always (routerStep 8 0) (Balanced 0) {} [blockedHead] := by
  have heval : (routerStep 8 0 {} blockedHead).map
      (fun N => ((N.swAllocVcs 0).count (4, 0), (N.flits (0, 4, 0)).length)) = some (0, 1) := by
    decide +kernel
  obtain ⟨N, hN, hcount⟩ := Option.map_eq_some_iff.1 heval
  intro h
  have hbal : Balanced 0 N := h.2 N hN
  have h40 := hbal 4 (by decide) 0 (by decide)
  simp only [Prod.mk.injEq] at hcount
  omega

end NetworkNoC
end EnocGem5.Noc
