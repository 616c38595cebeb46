import EnocGem5.Lib.Run
import EnocGem5.Noc.RouterSpec
import EnocGem5.Noc.Network

/-!
# Cycle — guarded router cycles and their invariants

The conditions under which the network behaves concern single steps inside a cycle, those in which a
router serves a switch entry. `RouterGuarded` says that all such steps of one router's `clk` meet a
condition on the state before them.

`DataInvariant` is the proof rule for properties of where flits are: VC allocation does not move
flits, so only queuing and switching have to be looked at.
-/

namespace EnocGem5.Noc

open Lib Option List

namespace NetworkNoC

/-- The state in which `_VCAllocEvaluate` starts: the allocator is cleared. -/
def clearVcAllocator (r : ℕ) (N : NetworkNoC) : NetworkNoC :=
  N.setVcAllocator r (N.vcAllocator r).clear

/-- The state in which `_SWAllocEvaluate` starts: the allocator is cleared. -/
def clearSwAllocator (r : ℕ) (N : NetworkNoC) : NetworkNoC :=
  N.setSwAllocator r (N.swAllocator r).clear

/-- Whenever `ENoCRouter::clk` of router `r` from `N` serves the front entry of `_sw_alloc_vcs`, `G`
holds. -/
def RouterGuarded (G : ℕ → NetworkNoC → Prop) (k : ℕ) (t : ℤ) (N : NetworkNoC) (r : ℕ) : Prop :=
  ∀ N₁ ∈ inputQueuing k r t N, ∀ N₂ ∈ vcAllocEvaluate k r (N₁.clearVcAllocator r),
    ∀ M ∈ swRequests r (N₂.clearSwAllocator r),
      Throughout (fun N (_ : ℕ) => switchFlit k r N) (fun N _ => G r N) M
        (range (M.swAllocVcs r).length)

instance (G : ℕ → NetworkNoC → Prop) [∀ r N, Decidable (G r N)] (k : ℕ) (t : ℤ) (N : NetworkNoC)
    (r : ℕ) : Decidable (RouterGuarded G k t N r) :=
  inferInstanceAs (Decidable (∀ N₁ ∈ inputQueuing k r t N,
    ∀ N₂ ∈ vcAllocEvaluate k r (N₁.clearVcAllocator r), ∀ M ∈ _, Throughout _ _ M _))

/-- All switch steps of a cycle meet their guard. -/
def CycleGuarded (G : ℕ → NetworkNoC → Prop) (k : ℕ) (t : ℤ) (N : NetworkNoC) : Prop :=
  Throughout (routerClk k t) (RouterGuarded G k t) (N.readInputs k t) (range (k * k))

/-! ## Where the flits are -/

/-- Both states hold the same flits in the same places, with the same switch entries, and have
printed the same. -/
structure SameData (N N' : NetworkNoC) : Prop where
  channel : N'.channel = N.channel
  inQueueFlits : N'.inQueueFlits = N.inQueueFlits
  outputBuffer : N'.outputBuffer = N.outputBuffer
  flits : N'.flits = N.flits
  received : N'.received = N.received
  cout : N'.cout = N.cout
  swAllocVcs : N'.swAllocVcs = N.swAllocVcs
  swAllocVcsTmp : N'.swAllocVcsTmp = N.swAllocVcsTmp

variable (N : NetworkNoC)

theorem SameData.refl : SameData N N := by constructor <;> rfl

theorem SameData.trans {N₁ N₂ N₃ : NetworkNoC} (h : SameData N₁ N₂) (h' : SameData N₂ N₃) :
    SameData N₁ N₃ :=
  ⟨h'.channel.trans h.channel, h'.inQueueFlits.trans h.inQueueFlits,
    h'.outputBuffer.trans h.outputBuffer, h'.flits.trans h.flits, h'.received.trans h.received,
    h'.cout.trans h.cout,
    h'.swAllocVcs.trans h.swAllocVcs, h'.swAllocVcsTmp.trans h.swAllocVcsTmp⟩

theorem sameData_setState (r i v : ℕ) (s : VCState) : SameData N (N.setState r i v s) :=
  ⟨rfl, rfl, rfl, flits_setState N r i v s, rfl, rfl, rfl, rfl⟩

theorem sameData_setOutput (r i v p q : ℕ) : SameData N (N.setOutput r i v p q) :=
  ⟨rfl, rfl, rfl, flits_setOutput N r i v p q, rfl, rfl, rfl, rfl⟩

theorem sameData_clearVcAllocator (r : ℕ) (N : NetworkNoC) : SameData N (N.clearVcAllocator r) := by
  constructor <;> rfl

theorem sameData_clearSwAllocator (r : ℕ) (N : NetworkNoC) : SameData N (N.clearSwAllocator r) := by
  constructor <;> rfl

theorem sameData_giveBack (k r p : ℕ) (v : Option ℕ) (N : NetworkNoC) :
    SameData N (giveBack k r p v N) := by
  cases v with
  | none => exact SameData.refl N
  | some v => exact sameData_setState N _ _ _ _

variable {N N' : NetworkNoC} {k r i : ℕ} {t : ℤ}

theorem sameData_requestVC {pos : ℕ} (h : requestVC k r N pos = some N') : SameData N N' := by
  rcases requestVC_cases h with ⟨item, f, _, _, _, rfl | ⟨v, M, _, _, hM, rfl⟩⟩
  · constructor <;> rfl
  · -- the allocator and the queue of waiting entries hold no flits, so only `M` matters
    have hM : SameData N M := by
      rcases hM with ⟨_, rfl⟩ | ⟨_, rfl⟩
      · exact sameData_setState N _ _ _ _
      · exact SameData.refl _
    exact hM.trans (by constructor <;> rfl)

theorem sameData_grantVC (h : grantVC k r N = some N') : SameData N N' := by
  rcases grantVC_cases h with ⟨_, rfl⟩ | ⟨item, rest, f, _, _, ⟨_, rfl⟩ | ⟨_, hgrant⟩⟩
  · exact SameData.refl _
  · constructor <;> rfl
  · have hrest : SameData N (N.setVcAllocVcs r rest) := (by constructor <;> rfl)
    rcases hgrant with ⟨o, _, _, rfl⟩ | ⟨_, rfl⟩
    · exact (hrest.trans (sameData_setState _ _ _ _ _)).trans (sameData_setOutput _ _ _ _ _ _)
    · have hback := hrest.trans (sameData_giveBack k r f.outputPort item.outVc _)
      have hpush : SameData N ((giveBack k r f.outputPort item.outVc
          (N.setVcAllocVcs r rest)).pushVcAllocVcsTmp r { input := item.input, vc := item.vc }) :=
        hback.trans (by constructor <;> rfl)
      exact hpush.trans (sameData_setState _ _ _ _ _)

theorem sameData_vcRequests (h : vcRequests k r N = some N') : SameData N N' := by
  simp only [vcRequests, bind_eq_bind, bind_eq_some_iff] at h
  obtain ⟨M, hM, hN'⟩ := h
  have hloop : SameData N M :=
    foldlM_invariant (fun _ _ _ _ hs hstep => hs.trans (sameData_requestVC hstep))
      (SameData.refl N) hM
  cases hN'
  exact hloop.trans (by constructor <;> rfl)

theorem sameData_vcAllocEvaluate (h : vcAllocEvaluate k r N = some N') : SameData N N' := by
  simp only [vcAllocEvaluate, bind_eq_bind, bind_eq_some_iff] at h
  obtain ⟨M, hM, M', hM', hN'⟩ := h
  have hloop : SameData N M' :=
    foldlM_invariant (fun _ _ _ _ hs hstep => hs.trans (sameData_grantVC hstep))
      (sameData_vcRequests hM) hM'
  cases hN'
  exact hloop.trans (by constructor <;> rfl)

theorem sameData_swRequests (h : swRequests r N = some N') : SameData N N' := by
  simp only [swRequests, bind_eq_bind, bind_eq_some_iff] at h
  obtain ⟨M, hM, hN'⟩ := h
  have hloop : SameData N M := by
    refine foldlM_invariant ?_ (SameData.refl N) hM
    intro _ _ N₁ N₂ hs hstep
    obtain ⟨a, rfl⟩ := requestSwitch_cases hstep
    exact hs.trans (by constructor <;> rfl)
  cases hN'
  exact hloop.trans (by constructor <;> rfl)

/-! ## Proof rule for properties of the flits -/

/-- `Inv` depends on the flits only and is kept by queuing, and by switching steps that meet the
guard. -/
structure DataInvariant (G : ℕ → NetworkNoC → Prop) (k r : ℕ) (t : ℤ) (Inv : NetworkNoC → Prop) :
    Prop where
  data : ∀ N N', SameData N N' → Inv N → Inv N'
  take : ∀ N N' i, i < 5 → Inv N → takeFlit k r t N i = some N' → Inv N'
  clear : ∀ N, (∀ i < 5, N.inQueueFlits (r, i) = none) → Inv N → Inv (clearQueue r N)
  switch : ∀ N N', Inv N → G r N → switchFlit k r N = some N' → Inv N'
  requeue : ∀ N, Inv N → Inv (requeueSwitch r N)

theorem takeFlit_inQueueFlits (h : takeFlit k r t N i = some N') :
    N'.inQueueFlits = Function.update N.inQueueFlits (r, i) none := by
  obtain ⟨M, hM, rfl⟩ := map_eq_some_iff.1 h
  rw [← queueFlit_inQueueFlits hM]
  rfl

/-- After the loop of `_InputQueuing` all inputs are served. -/
theorem foldlM_takeFlit_none {l : List ℕ} (h : l.foldlM (takeFlit k r t) N = some N')
    (hi : i ∈ l ∨ N.inQueueFlits (r, i) = none) : N'.inQueueFlits (r, i) = none := by
  induction l generalizing N with
  | nil =>
    cases h
    exact hi.resolve_left not_mem_nil
  | cons j l ih =>
    rcases foldlM_cons_some h with ⟨M, hM, hrest⟩
    refine ih hrest ?_
    rw [takeFlit_inQueueFlits hM]
    by_cases hij : i = j
    · exact .inr (by simp [hij])
    · rw [Function.update_of_ne (by simp [hij])]
      rcases hi with hi | hi
      · exact .inl ((mem_cons.1 hi).resolve_left hij)
      · exact .inr hi

/-- Queuing as the loop that takes the flits, then the (by now idle) clearing of the map. -/
theorem inputQueuing_some (h : inputQueuing k r t N = some N') :
    ∃ M, (range 5).foldlM (takeFlit k r t) N = some M ∧
      (∀ i < 5, M.inQueueFlits (r, i) = none) ∧ N' = clearQueue r M := by
  rw [inputQueuing_eq] at h
  obtain ⟨M, hM, rfl⟩ := map_eq_some_iff.1 h
  refine ⟨M, hM, fun i hi => ?_, rfl⟩
  exact foldlM_takeFlit_none hM (.inl (mem_range.2 hi))

theorem routerClk_some (h : routerClk k t N r = some N') : ∃ N₁ N₂, inputQueuing k r t N = some N₁ ∧
      vcAllocEvaluate k r (N₁.clearVcAllocator r) = some N₂ ∧
      swAllocEvaluate k r (N₂.clearSwAllocator r) = some N' := by
  simp only [routerClk, bind_eq_bind, bind_eq_some_iff] at h
  obtain ⟨N₁, h₁, N₂, h₂, h₃⟩ := h
  exact ⟨N₁, N₂, h₁, h₂, h₃⟩

theorem swAllocEvaluate_some (h : swAllocEvaluate k r N = some N') :
    ∃ M M', swRequests r N = some M ∧
      (range (M.swAllocVcs r).length).foldlM (fun N _ => switchFlit k r N) M = some M' ∧
      N' = requeueSwitch r M' := by
  simp only [swAllocEvaluate, bind_eq_bind, bind_eq_some_iff] at h
  obtain ⟨M, hM, M', hM', hN'⟩ := h
  exact ⟨M, M', hM, hM', (some.inj hN').symm⟩

namespace DataInvariant

variable {G : ℕ → NetworkNoC → Prop} {k r : ℕ} {t : ℤ} {Inv : NetworkNoC → Prop} {N N' : NetworkNoC}

theorem inputQueuing (hI : DataInvariant G k r t Inv) (hN : Inv N)
    (h : inputQueuing k r t N = some N') : Inv N' := by
  obtain ⟨M, hM, hnone, rfl⟩ := inputQueuing_some h
  apply hI.clear M hnone
  refine foldlM_invariant ?_ hN hM
  intro i hi N₁ N₂ hInv hstep
  exact hI.take N₁ N₂ i (mem_range.1 hi) hInv hstep

theorem routerClk (hI : DataInvariant G k r t Inv) (hN : Inv N) (hG : RouterGuarded G k t N r)
    (h : routerClk k t N r = some N') : Inv N' := by
  obtain ⟨N₁, N₂, h₁, h₂, h₃⟩ := routerClk_some h
  obtain ⟨M, M', hM, hM', rfl⟩ := swAllocEvaluate_some h₃
  have hN₁ : Inv N₁ := hI.inputQueuing hN h₁
  have hN₂ : Inv N₂ := by
    refine hI.data N₁ N₂ ?_ hN₁
    exact (sameData_clearVcAllocator r N₁).trans (sameData_vcAllocEvaluate h₂)
  have hInvM : Inv M := by
    refine hI.data N₂ M ?_ hN₂
    exact (sameData_clearSwAllocator r N₂).trans (sameData_swRequests hM)
  apply hI.requeue M'
  refine foldlM_invariant_of_throughout ?_ hInvM (hG N₁ h₁ N₂ h₂ M hM) hM'
  intro _ _ P P' hP hGP hstep
  exact hI.switch P P' hP hGP hstep

/-- A property of the flits that every router's guarded steps keep survives the second pass of a
cycle. -/
theorem clkRouters (hI : ∀ r < k * k, DataInvariant G k r t Inv) (hN : Inv N)
    (hG : Throughout (NetworkNoC.routerClk k t) (RouterGuarded G k t) N (range (k * k)))
    (h : clkRouters k t N = some N') : Inv N' := by
  refine foldlM_invariant_of_throughout ?_ hN hG h
  intro r hr N₁ N₂ hInv hGr hstep
  exact (hI r (mem_range.1 hr)).routerClk hInv hGr hstep

end DataInvariant

theorem routerGuarded_true (k : ℕ) (t : ℤ) (N : NetworkNoC) (r : ℕ) :
    RouterGuarded (fun _ _ => True) k t N r :=
  fun _ _ _ _ _ _ => Throughout.of_forall (fun _ _ => trivial) _ _

end NetworkNoC
end EnocGem5.Noc
