import EnocGem5.Noc.Router

/-!
# RouterSpec — what each router step can do

One inversion lemma per step function of `Noc.Router`, over three views of the virtual channels: the
flits they hold, their states and their allocated outputs. A virtual channel is named by its router,
input port and number. The invariant proofs use these lemmas and never unfold a step.
-/

namespace EnocGem5.Noc

open Option Function List

/-- A virtual channel of the network: router, input port, number. -/
abbrev Loc := ℕ × ℕ × ℕ

namespace NetworkNoC

/-! ## Views -/

section View

variable {α : Type*} (φ : Buffer → ℕ → α) (N : NetworkNoC) {N' : NetworkNoC} {b : Buffer}

/-- A property of single virtual channels as a function of their name. -/
def view (l : Loc) : α := φ (N.buf (l.1, l.2.1)) l.2.2

variable {φ N}

theorem view_update_same {r i : ℕ}
    (hbuf : N'.buf = update N.buf (r, i) b) (h : φ b = φ (N.buf (r, i))) :
    view φ N' = view φ N := by
  funext l
  rw [view, hbuf, apply_update fun _ => φ, h]
  exact congrFun₂ (update_eq_self (r, i) fun x => φ (N.buf x)) (l.1, l.2.1) l.2.2

theorem view_update {r i v : ℕ} {x : α} (hbuf : N'.buf = update N.buf (r, i) b)
    (h : φ b = update (φ (N.buf (r, i))) v x) : view φ N' = update (view φ N) (r, i, v) x := by
  funext ⟨r', i', w⟩
  by_cases hl : (r', i') = (r, i)
  · obtain ⟨rfl, rfl⟩ := Prod.mk.inj hl
    by_cases hw : w = v
    · subst hw
      simp [view, hbuf, h]
    · simp [view, hbuf, h, hw]
  · have hne : (r', i', w) ≠ (r, i, v) := by
      intro he
      exact hl (by simp_all)
    simp [view, hbuf, update_of_ne hl, update_of_ne hne]

end View

variable (N : NetworkNoC)

def flits : Loc → List Flit := view Buffer.flits N

def state : Loc → VCState := view Buffer.getState N

def outPort : Loc → Option ℕ := view Buffer.getOutputPort N

def outVc : Loc → Option ℕ := view Buffer.getOutputVC N

variable (r i v : ℕ)

@[simp] theorem getOccupancy_eq : N.getOccupancy r i v = (N.flits (r, i, v)).length :=
  (N.buf (r, i)).getOccupancy_eq v

theorem vc_of_mem_flits {l : Loc} {f : Flit} (h : f ∈ N.flits l) : f.vc = l.2.2 :=
  (N.buf (l.1, l.2.1)).stamped _ _ h

@[simp] theorem flits_setState (s : VCState) : (N.setState r i v s).flits = N.flits :=
  view_update_same rfl (by simp)

@[simp] theorem flits_setOutput (p q : ℕ) : (N.setOutput r i v p q).flits = N.flits :=
  view_update_same rfl (by simp)

@[simp] theorem flits_addFlit (f : Flit) :
    (N.addFlit r i v f).flits =
      update N.flits (r, i, v) (N.flits (r, i, v) ++ [{ f with vc := v }]) :=
  view_update rfl (by simp [flits, view])

@[simp] theorem flits_removeFlit :
    (N.removeFlit r i v).flits =
      update N.flits (r, i, v) (N.flits (r, i, v)).tail :=
  view_update rfl (by simp [flits, view])

@[simp] theorem outPort_setState (s : VCState) : (N.setState r i v s).outPort = N.outPort :=
  view_update_same rfl (Buffer.getOutput_setState _ _ _).1

@[simp] theorem outVc_setState (s : VCState) : (N.setState r i v s).outVc = N.outVc :=
  view_update_same rfl (Buffer.getOutput_setState _ _ _).2

@[simp] theorem outPort_addFlit (f : Flit) : (N.addFlit r i v f).outPort = N.outPort :=
  view_update_same rfl (Buffer.getOutput_addFlit _ _ _).1

@[simp] theorem outVc_addFlit (f : Flit) : (N.addFlit r i v f).outVc = N.outVc :=
  view_update_same rfl (Buffer.getOutput_addFlit _ _ _).2

@[simp] theorem outPort_removeFlit : (N.removeFlit r i v).outPort = N.outPort :=
  view_update_same rfl (Buffer.getOutput_removeFlit _ _).1

@[simp] theorem outVc_removeFlit : (N.removeFlit r i v).outVc = N.outVc :=
  view_update_same rfl (Buffer.getOutput_removeFlit _ _).2

/-! ## Frames

The updates of queues and allocators leave the virtual channels. -/

abbrev SameViews (N N' : NetworkNoC) : Prop :=
  N'.flits = N.flits ∧ N'.state = N.state ∧ N'.outPort = N.outPort ∧ N'.outVc = N.outVc

@[simp] theorem views_reportHead (t : ℤ) (f : Flit) :
    SameViews N (N.reportHead r i v t f) := ⟨rfl, rfl, rfl, rfl⟩

@[simp] theorem views_pushOutput (p : ℕ) (f : Flit) :
    SameViews N (N.pushOutput r p f) := ⟨rfl, rfl, rfl, rfl⟩

@[simp] theorem views_setVcAllocVcs (q : List VCRequest) :
    SameViews N (N.setVcAllocVcs r q) := ⟨rfl, rfl, rfl, rfl⟩

@[simp] theorem views_setSwAllocVcs (q : List (ℕ × ℕ)) :
    SameViews N (N.setSwAllocVcs r q) := ⟨rfl, rfl, rfl, rfl⟩

@[simp] theorem views_pushSwAllocVcsTmp (e : ℕ × ℕ) :
    SameViews N (N.pushSwAllocVcsTmp r e) := ⟨rfl, rfl, rfl, rfl⟩

@[simp] theorem views_setVcAllocator (a : ISLIPSparse) :
    SameViews N (N.setVcAllocator r a) := ⟨rfl, rfl, rfl, rfl⟩

/-! ## Buffering, ejecting and moving a flit -/

/-- What is left alone when a flit is buffered and when one is moved. -/
abbrev SameRest (N N' : NetworkNoC) : Prop :=
  N'.channel = N.channel ∧ N'.inQueueFlits = N.inQueueFlits ∧ N'.swAllocator = N.swAllocator ∧
    N'.vcAllocVcsTmp = N.vcAllocVcsTmp ∧ N'.swAllocVcsTmp = N.swAllocVcsTmp ∧
    N'.received = N.received ∧ N'.outPort = N.outPort ∧ N'.outVc = N.outVc

section Moves

variable (t : ℤ) (f : Flit)

@[simp] theorem frame_bufferFlit : SameRest N (N.bufferFlit r i v t f) ∧
    (N.bufferFlit r i v t f).outputBuffer = N.outputBuffer ∧
    (N.bufferFlit r i v t f).vcAllocator = N.vcAllocator := by
  by_cases h : f.flitType = .head
  · simp only [bufferFlit, h, if_true]
    and_intros <;> first | rfl | simp [startVCAlloc]
  · simp only [bufferFlit, h, if_false]
    and_intros <;> first | rfl | simp

@[simp] theorem flits_bufferFlit :
    (N.bufferFlit r i v t f).flits =
      update N.flits (r, i, v) (N.flits (r, i, v) ++ [{ f with vc := v }]) := by
  by_cases h : f.flitType = .head <;> simp [bufferFlit, startVCAlloc, h]

@[simp] theorem vcAllocVcs_bufferFlit :
    (N.bufferFlit r i v t f).vcAllocVcs =
      if f.flitType = .head then
        update N.vcAllocVcs r (N.vcAllocVcs r ++ [{ input := i, vc := v }])
      else N.vcAllocVcs := by
  by_cases h : f.flitType = .head <;> simp only [bufferFlit, startVCAlloc, h, if_true,
    if_false] <;> rfl

@[simp] theorem swAllocVcs_bufferFlit :
    (N.bufferFlit r i v t f).swAllocVcs =
      update N.swAllocVcs r (N.swAllocVcs r ++ [(i, v)]) := by
  by_cases h : f.flitType = .head <;> simp only [bufferFlit, startVCAlloc, h, if_true,
    if_false] <;> rfl

variable (dest_vc out_vc : ℕ)

@[simp] theorem frame_moveFlit : SameRest N (N.moveFlit r i v dest_vc out_vc f) ∧
    (N.moveFlit r i v dest_vc out_vc f).vcAllocVcs = N.vcAllocVcs ∧
    (N.moveFlit r i v dest_vc out_vc f).swAllocVcs = N.swAllocVcs := by
  by_cases h : f.flitType = .tail
  · simp only [moveFlit, h, if_true]
    and_intros <;> first | rfl | simp
  · simp only [moveFlit, h, if_false]
    and_intros <;> first | rfl | simp

@[simp] theorem flits_moveFlit :
    (N.moveFlit r i v dest_vc out_vc f).flits =
      update N.flits (r, i, v) (N.flits (r, i, v)).tail := by
  by_cases h : f.flitType = .tail <;> simp [moveFlit, h]

@[simp] theorem outputBuffer_moveFlit :
    (N.moveFlit r i v dest_vc out_vc f).outputBuffer =
      update N.outputBuffer (r, f.outputPort)
        (N.outputBuffer (r, f.outputPort) ++ [{ f with vc := out_vc }]) := by
  by_cases h : f.flitType = .tail <;> simp only [moveFlit, h, if_true, if_false] <;> rfl

end Moves

/-! ## Input queuing, one input at a time -/

@[simps]
def eraseQueue (r i : ℕ) (N : NetworkNoC) : NetworkNoC :=
  { N with inQueueFlits := Function.update N.inQueueFlits (r, i) none }

@[simp] theorem views_eraseQueue (r i : ℕ) (N : NetworkNoC) :
    SameViews N (N.eraseQueue r i) := ⟨rfl, rfl, rfl, rfl⟩

/-- `queueFlit` that takes the flit out of the map. The source clears the map after the loop, which
reads each entry once, so nothing sees the difference. -/
def takeFlit (k r : ℕ) (t : ℤ) (N : NetworkNoC) (i : ℕ) : Option NetworkNoC :=
  (queueFlit k r t N i).map (eraseQueue r i)

def clearQueue (r : ℕ) (N : NetworkNoC) : NetworkNoC :=
  { N with inQueueFlits := fun x => if x.1 = r then none else N.inQueueFlits x }

variable {k r i pos : ℕ} {t : ℤ} {N N' : NetworkNoC}

/-- The loop body writes no entry of the map and reads only its own. -/
theorem queueFlit_inQueueFlits
    (h : queueFlit k r t N i = some N') : N'.inQueueFlits = N.inQueueFlits := by
  unfold queueFlit at h
  split at h
  · cases h
    rfl
  · split_ifs at h
    · cases h
      rfl
    · cases h
      simp

theorem queueFlit_frame {q : ℕ × ℕ → Option Flit} (h : q (r, i) = N.inQueueFlits (r, i)) :
    queueFlit k r t { N with inQueueFlits := q } i =
      (queueFlit k r t N i).map fun N' => { N' with inQueueFlits := q } := by
  simp only [queueFlit, h]
  cases N.inQueueFlits (r, i) with
  | none => rfl
  | some f =>
    by_cases hhead : f.flitType = .head
    all_goals
      simp only [bufferFlit, Flit.route_flitType, hhead, if_true, if_false]
      split_ifs <;> rfl

theorem foldlM_takeFlit (l : List ℕ) (N : NetworkNoC) (q : ℕ × ℕ → Option Flit)
    (hnd : l.Nodup) (hon : ∀ i ∈ l, q (r, i) = N.inQueueFlits (r, i))
    (hoff : ∀ x, x.1 ≠ r → q x = N.inQueueFlits x) :
    (l.foldlM (takeFlit k r t) { N with inQueueFlits := q }).map (clearQueue r) =
      (l.foldlM (queueFlit k r t) N).map (clearQueue r) := by
  induction l generalizing N q with
  | nil =>
    have hq : (fun x => if x.1 = r then none else q x) =
        fun x => if x.1 = r then none else N.inQueueFlits x := by
      funext x
      by_cases hx : x.1 = r
      · simp [hx]
      · simp [hx, hoff x hx]
    simp [clearQueue, hq]
  | cons i l ih =>
    obtain ⟨hi, hnd'⟩ := nodup_cons.1 hnd
    rw [foldlM_cons, foldlM_cons, takeFlit, queueFlit_frame (hon i mem_cons_self)]
    cases hstep : queueFlit k r t N i with
    | none => rfl
    | some N' =>
      have hN' := queueFlit_inQueueFlits hstep
      refine ih N' (update q (r, i) none) hnd' ?_ ?_
      · intro j hj
        have hji : j ≠ i := by
          rintro rfl
          exact hi hj
        rw [update_of_ne (by simp [hji]), hN']
        exact hon j (mem_cons_of_mem _ hj)
      · intro x hx
        rw [update_of_ne (by rintro rfl; exact hx rfl), hN']
        exact hoff x hx

theorem inputQueuing_eq (k r : ℕ) (t : ℤ) (N : NetworkNoC) :
    inputQueuing k r t N = ((range numPorts).foldlM (takeFlit k r t) N).map (clearQueue r) :=
  (foldlM_takeFlit (range numPorts) N N.inQueueFlits nodup_range
    (fun _ _ => rfl) (fun _ _ => rfl)).symm

/-! ## Inversion of the steps -/

/-- The flit at one input is absent, arrives or is buffered. -/
theorem takeFlit_cases (h : takeFlit k r t N i = some N') :
    (N.inQueueFlits (r, i) = none ∧ N' = N) ∨
    ∃ f, N.inQueueFlits (r, i) = some f ∧ f.vc < 8 ∧
      ((xyYxMesh k r f.dstId = 4 ∧ N' = (N.ejectFlit r (f.route k r)).eraseQueue r i) ∨
        (xyYxMesh k r f.dstId ≠ 4 ∧
          N' = (N.bufferFlit r i f.vc t (f.route k r)).eraseQueue r i)) := by
  unfold takeFlit queueFlit at h
  cases hq : N.inQueueFlits (r, i) with
  | none =>
    simp only [hq, map_some, some.injEq] at h
    refine .inl ⟨rfl, ?_⟩
    rw [← h, eraseQueue, update_eq_self_iff.2 hq.symm]
  | some f =>
    refine .inr ⟨f, rfl, ?_⟩
    simp only [hq, Flit.route_outputPort] at h
    split_ifs at h with hvc hport
    · simp only [map_some, some.injEq] at h
      exact ⟨hvc, .inl ⟨hport, h.symm⟩⟩
    · simp only [map_some, some.injEq] at h
      exact ⟨hvc, .inr ⟨hport, h.symm⟩⟩
    · cases h

/-- The output VC that an entry finds: the first idle VC at the sink, if any. -/
theorem findIdleVC_cases {p : ℕ} {dst : ℤ} {res : NetworkNoC × Option ℕ}
    (h : findIdleVC k r p dst N = some res) :
    p < 4 ∧
    ((res = (N, none) ∧ ∀ v < 8, N.state (neighbour k r p, inPort p, v) ≠ .idle) ∨
      ∃ v < 8, N.state (neighbour k r p, inPort p, v) = .idle ∧
        (((neighbour k r p : ℤ) ≠ dst ∧
            res = (N.setState (neighbour k r p) (inPort p) v .routing, some v)) ∨
          ((neighbour k r p : ℤ) = dst ∧ res = (N, some v)))) := by
  unfold findIdleVC at h
  split_ifs at h with hp
  refine ⟨hp, ?_⟩
  cases hfind : (range numVcs).find? fun v =>
      N.getState (neighbour k r p) (inPort p) v = .idle with
  | none =>
    simp only [hfind, some.injEq] at h
    refine .inl ⟨h.symm, fun v hv => ?_⟩
    have hv := List.find?_eq_none.1 hfind v (mem_range.2 hv)
    exact fun hidle => hv (decide_eq_true hidle)
  | some v =>
    have hv : v < 8 := mem_range.1 (mem_of_find?_eq_some hfind)
    have hdecide := find?_some hfind
    have hidle : N.state (neighbour k r p, inPort p, v) = .idle := of_decide_eq_true hdecide
    refine .inr ⟨v, hv, hidle, ?_⟩
    simp only [hfind] at h
    split_ifs at h with hdst
    · exact .inl ⟨hdst, (some.inj h).symm⟩
    · exact .inr ⟨not_not.1 hdst, (some.inj h).symm⟩

/-- A waiting entry finds no idle VC, reserves one, or picks one at the destination without
reserving it. -/
theorem requestVC_cases (h : requestVC k r N pos = some N') :
    ∃ item f, (N.vcAllocVcs r)[pos]? = some item ∧
      (N.flits (r, item.input, item.vc)).head? = some f ∧ f.outputPort < 4 ∧
      ((N' = N.setVcAllocVcs r ((N.vcAllocVcs r).set pos { item with outVc := none })) ∨
        ∃ v M, v < 8 ∧ N.state (neighbour k r f.outputPort, inPort f.outputPort, v) = .idle ∧
          (((neighbour k r f.outputPort : ℤ) ≠ f.dstId ∧
              M = N.setState (neighbour k r f.outputPort) (inPort f.outputPort) v .routing) ∨
            ((neighbour k r f.outputPort : ℤ) = f.dstId ∧ M = N)) ∧
          N' = (M.setVcAllocVcs r ((N.vcAllocVcs r).set pos { item with
            outVc := some v })).setVcAllocator r
                ((N.vcAllocator r).addRequest (item.input * 8 + item.vc)
                (f.outputPort * 8 + v))) := by
  simp only [requestVC, bind_eq_bind, bind_eq_some_iff] at h
  obtain ⟨item, hitem, f, hf, ⟨M, outVc⟩, hfind, hrest⟩ := h
  obtain ⟨hp, hcases⟩ := findIdleVC_cases hfind
  refine ⟨item, f, hitem, hf, hp, ?_⟩
  rcases hcases with ⟨hres, _⟩ | ⟨v, hv, hidle, ⟨hdst, hres⟩ | ⟨hdst, hres⟩⟩
  · cases hres
    exact .inl (some.inj hrest).symm
  · cases hres
    exact .inr ⟨v, _, hv, hidle, .inl ⟨hdst, rfl⟩, (some.inj hrest).symm⟩
  · cases hres
    exact .inr ⟨v, _, hv, hidle, .inr ⟨hdst, rfl⟩, (some.inj hrest).symm⟩

/-- The front entry is absent, is dropped, is granted its output VC, or gives it back and waits. -/
theorem grantVC_cases (h : grantVC k r N = some N') :
    (N.vcAllocVcs r = [] ∧ N' = N) ∨
    ∃ item rest f, N.vcAllocVcs r = item :: rest ∧
      (N.flits (r, item.input, item.vc)).head? = some f ∧
      ((N.state (r, item.input, item.vc) ≠ .vcAlloc ∧ N' = N.setVcAllocVcs r rest) ∨
        (N.state (r, item.input, item.vc) = .vcAlloc ∧
          ((∃ o, (N.vcAllocator r).outputAssigned (item.input * 8 + item.vc) = some o ∧
              o / 8 = f.outputPort ∧
              N' = ((N.setVcAllocVcs r rest).setState r item.input item.vc .active).setOutput
                r item.input item.vc f.outputPort (o % 8)) ∨
            ((N.vcAllocator r).outputAssigned (item.input * 8 + item.vc) = none ∧
              N' = ((giveBack k r f.outputPort item.outVc
                (N.setVcAllocVcs r rest)).pushVcAllocVcsTmp r
                { input := item.input, vc := item.vc }).setState r item.input item.vc
                .vcAlloc)))) := by
  unfold grantVC at h
  cases hq : N.vcAllocVcs r with
  | nil =>
    rw [hq] at h
    exact .inl ⟨rfl, (some.inj h).symm⟩
  | cons item rest =>
    simp only [hq, bind_eq_bind, bind_eq_some_iff] at h
    obtain ⟨f, hf, hrest⟩ := h
    refine .inr ⟨item, rest, f, rfl, hf, ?_⟩
    split_ifs at hrest with hstate
    · refine .inr ⟨hstate, ?_⟩
      cases ho : (N.vcAllocator r).outputAssigned (item.input * 8 + item.vc) with
      | none =>
        simp only [setVcAllocVcs_vcAllocator, ho] at hrest
        exact .inr ⟨rfl, (some.inj hrest).symm⟩
      | some o =>
        simp only [setVcAllocVcs_vcAllocator, ho] at hrest
        split_ifs at hrest with hport
        refine .inl ⟨o, rfl, hport, ?_⟩
        rw [← some.inj hrest, hport]
    · exact .inl ⟨hstate, (some.inj hrest).symm⟩

/-- A switch request changes nothing but the switch allocator of its router. -/
theorem requestSwitch_cases (h : requestSwitch r N pos = some N') :
    ∃ a, N' = N.setSwAllocator r a := by
  simp only [requestSwitch, bind_eq_bind, bind_eq_some_iff] at h
  obtain ⟨⟨i, v⟩, _, hrest⟩ := h
  split_ifs at hrest
  · simp only [bind_eq_some_iff] at hrest
    obtain ⟨p, _, _, _, hN'⟩ := hrest
    exact ⟨_, (some.inj hN').symm⟩
  · exact ⟨N.swAllocator r, by rw [← some.inj hrest, setSwAllocator, update_eq_self]⟩

/-- The front entry is absent, is dropped because its VC is not active, moves its flit, or waits. -/
theorem switchFlit_cases (h : switchFlit k r N = some N') :
    (N.swAllocVcs r = [] ∧ N' = N) ∨
    ∃ i v rest, N.swAllocVcs r = (i, v) :: rest ∧
      ((N.state (r, i, v) ≠ .active ∧ N' = N.setSwAllocVcs r rest) ∨
        (N.state (r, i, v) = .active ∧ ∃ f w, (N.flits (r, i, v)).head? = some f ∧
          N.outVc (r, i, v) = some w ∧ f.outputPort < 4 ∧
          (((N.flits (neighbour k r f.outputPort, inPort f.outputPort, w)).length < 8 ∧
              N' = (N.setSwAllocVcs r rest).moveFlit r i v w w f) ∨
            N' = ((N.setSwAllocVcs r rest).pushSwAllocVcsTmp r (i, v)).setState r i v
                .active))) := by
  unfold switchFlit at h
  cases hq : N.swAllocVcs r with
  | nil =>
    rw [hq] at h
    exact .inl ⟨rfl, (some.inj h).symm⟩
  | cons e rest =>
    obtain ⟨i, v⟩ := e
    simp only [hq] at h
    refine .inr ⟨i, v, rest, rfl, ?_⟩
    split_ifs at h with hstate
    · refine .inr ⟨hstate, ?_⟩
      simp only [bind_eq_bind, bind_eq_some_iff] at h
      obtain ⟨f, hf, w, hw, free, hfree, hrest⟩ := h
      have hmem : f ∈ N.flits (r, i, v) := mem_of_mem_head? hf
      have hvc : f.vc = v := N.vc_of_mem_flits hmem
      unfold findFreeSpace at hfree
      split_ifs at hfree with hp
      refine ⟨f, w, hf, hw, hp, ?_⟩
      split_ifs at hrest with hgo
      · obtain ⟨w', hw', hN'⟩ := bind_eq_some_iff.1 hrest
        obtain rfl : w = w' := by
          rw [hvc] at hw'
          exact some.inj (hw.symm.trans hw')
        refine .inl ⟨?_, (some.inj hN').symm⟩
        have hlt := hgo.2
        rw [← some.inj hfree] at hlt
        simpa using hlt
      · exact .inr (some.inj hrest).symm
    · exact .inl ⟨hstate, (some.inj h).symm⟩

end NetworkNoC

end EnocGem5.Noc
