import EnocGem5.Pred.Targets

/-!
# BPredUnit — the branch prediction unit of `cpu/pred/bpred_unit.cc`

`predict` is called for a branch when it is fetched, `squash` when branches turn out to be on the
wrong path, `squashCorrective` when a branch was mispredicted, and `update` when branches commit.
For each branch between `predict` and `update` the unit keeps a record, the youngest one first.

The direction predictor (`lookup` and the other virtual functions) is a parameter. Its history
objects are values: a call that may change the object behind the pointer returns it.
-/

namespace EnocGem5.Pred

/-- The virtual functions of `BPredUnit`, on a state `σ` with history objects `η`. -/
structure DirectionPredictor (σ η : Type) where
  uncondBranch : (tid pc : ℕ) → σ → η × σ
  lookup : (tid pc : ℕ) → σ → Bool × η × σ
  btbUpdate : (tid pc : ℕ) → η → σ → η × σ
  update : (tid pc : ℕ) → (taken : Bool) → η → (squashed : Bool) → σ → η × σ
  squash : (tid : ℕ) → η → σ → σ
  getGHR : (tid : ℕ) → η → σ → ℕ

structure Params where
  btb : BTBConfig
  indirect : IndirectConfig
  useIndirect : Bool
  rasSize : ℕ
  rasSize_pos : 0 < rasSize

structure PredictorHistory (PCState η : Type) where
  seqNum : ℕ
  pc : ℕ
  bpHistory : η
  rasTarget : PCState
  rasIndex : ℕ := 0
  predTaken : Bool
  usedRAS : Bool := false
  pushedRAS : Bool := false
  wasCall : Bool := false
  wasReturn : Bool := false
  wasIndirect : Bool := false

/-- The record of a branch before its target is looked for. -/
def PredictorHistory.new {PCState η : Type} (isa : Isa PCState) (seqNum pc : ℕ) (predTaken : Bool)
    (bpHistory : η) : PredictorHistory PCState η where
  seqNum := seqNum
  pc := pc
  bpHistory := bpHistory
  rasTarget := isa.zero
  predTaken := predTaken

structure BPredUnit (PCState σ η : Type) where
  predHist : ℕ → List (PredictorHistory PCState η) := fun _ => []
  btb : DefaultBTB PCState := fun _ => none
  ras : ℕ → ReturnAddrStack PCState
  iPred : IndirectPredictor PCState
  bp : σ

namespace BPredUnit

variable {PCState σ η : Type} (isa : Isa PCState) (D : DirectionPredictor σ η) (P : Params)
  (U : BPredUnit PCState σ η) {R : ReturnAddrStack PCState}

def start (bp : σ) : BPredUnit PCState σ η where
  ras := fun _ => { addrStack := fun _ => isa.zero }
  iPred := { targetCache := fun _ _ => ⟨0, isa.zero⟩ }
  bp := bp

def setHist (tid : ℕ) (hist : List (PredictorHistory PCState η)) : BPredUnit PCState σ η :=
  { U with predHist := Function.update U.predHist tid hist }

def setRAS (tid : ℕ) (ras : ReturnAddrStack PCState) : BPredUnit PCState σ η :=
  { U with ras := Function.update U.ras tid ras }

theorem setRAS_self {U : BPredUnit PCState σ η} {tid : ℕ} : (U.setRAS tid R).ras tid = R :=
  Function.update_self ..

theorem setRAS_of_ne {U : BPredUnit PCState σ η} {tid t : ℕ} (h : t ≠ tid) :
    (U.setRAS tid R).ras t = U.ras t :=
  Function.update_of_ne h ..

/-! ## Predictions -/

/-- A prediction in the making: its record, the target and the direction so far. -/
structure Prediction (PCState η : Type) where
  record : PredictorHistory PCState η
  target : PCState
  taken : Bool

variable (inst : StaticInst)

/-- The direction of a branch, with a record of it. -/
def direction (seqNum : ℕ) (pc : PCState) (tid : ℕ) :
    Prediction PCState η × BPredUnit PCState σ η :=
  let addr := isa.instAddr pc
  if inst.isUncondCtrl then
    let (h, bp) := D.uncondBranch tid addr U.bp
    (⟨.new isa seqNum addr true h, pc, true⟩, { U with bp := bp })
  else
    let (taken, h, bp) := D.lookup tid addr U.bp
    (⟨.new isa seqNum addr taken h, pc, taken⟩, { U with bp := bp })

variable (pc : PCState)

/-- A return takes its target from the stack. -/
def predictReturn (tid : ℕ) (p : Prediction PCState η) :
    Prediction PCState η × BPredUnit PCState σ η :=
  let R := U.ras tid
  ({ p with
      target := isa.buildRetPC pc R.top
      record :=
        { p.record with
          wasReturn := true, usedRAS := true, rasIndex := R.topIdx, rasTarget := R.top } },
    U.setRAS tid (R.pop P.rasSize))

/-- A call leaves its program counter on the stack. -/
def pushCall (tid : ℕ) (p : Prediction PCState η) : Prediction PCState η × BPredUnit PCState σ η :=
  if inst.isCall then
    ({ p with record := { p.record with pushedRAS := true, wasCall := true } },
      U.setRAS tid ((U.ras tid).push P.rasSize pc))
  else (p, U)

/-- A branch without a target is predicted not taken, and a conditional call is taken off the stack
again. -/
def noTarget (tid : ℕ) (p : Prediction PCState η) : Prediction PCState η × BPredUnit PCState σ η :=
  let p := { p with taken := false, target := isa.advancePC inst pc }
  if inst.isCall && !inst.isUncondCtrl then
    ({ p with record := { p.record with pushedRAS := false } },
      U.setRAS tid ((U.ras tid).pop P.rasSize))
  else (p, U)

def predictDirect (tid : ℕ) (p : Prediction PCState η) :
    Prediction PCState η × BPredUnit PCState σ η :=
  let addr := isa.instAddr pc
  if DefaultBTB.valid P.btb U.btb addr tid then
    ({ p with target := DefaultBTB.lookup P.btb U.btb isa addr tid }, U)
  else if !inst.isCall && !inst.isReturn then
    let (h, bp) := D.btbUpdate tid addr p.record.bpHistory U.bp
    noTarget isa P { U with bp := bp } inst pc tid
      { p with record := { p.record with bpHistory := h } }
  else noTarget isa P U inst pc tid p

def predictIndirect (tid : ℕ) (p : Prediction PCState η) :
    Prediction PCState η × BPredUnit PCState σ η :=
  let addr := isa.instAddr pc
  let p := { p with record := { p.record with wasIndirect := true } }
  let (p, U) :=
    match U.iPred.lookup P.indirect addr (D.getGHR tid p.record.bpHistory U.bp) tid with
    | some target => ({ p with target := target }, U)
    | none => noTarget isa P U inst pc tid p
  (p, { U with iPred := U.iPred.recordIndirect addr (isa.instAddr p.target) p.record.seqNum tid })

/-- The target of a branch that is predicted taken. -/
def predictTaken (tid : ℕ) (p : Prediction PCState η) :
    Prediction PCState η × BPredUnit PCState σ η :=
  if inst.isReturn then predictReturn isa P U pc tid p
  else
    let (p, U) := pushCall P U inst pc tid p
    if inst.isDirectCtrl || !P.useIndirect then predictDirect isa D P U inst pc tid p
    else predictIndirect isa D P U inst pc tid p

/-- The direction and the program counter that are predicted, and the unit. -/
def predict (seqNum : ℕ) (pc : PCState) (tid : ℕ) : (Bool × PCState) × BPredUnit PCState σ η :=
  let (p, U) := direction isa D U inst seqNum pc tid
  let (p, U) :=
    if p.taken then predictTaken isa D P U inst pc tid p
    else
      ({ p with
          target := isa.advancePC inst pc
          record := { p.record with wasReturn := inst.isReturn } }, U)
  ((p.taken, p.target), U.setHist tid (p.record :: U.predHist tid))

/-! ## Commits -/

/-- The records of the branches that commit, the oldest one last. -/
def committed (doneSn tid : ℕ) : List (PredictorHistory PCState η) :=
  (U.predHist tid).rtakeWhile (·.seqNum ≤ doneSn)

/-- The direction predictor learns the outcome of a branch. -/
def commitEntry (tid : ℕ) (bp : σ) (e : PredictorHistory PCState η) : σ :=
  (D.update tid e.pc e.predTaken e.bpHistory false bp).2

def update (doneSn tid : ℕ) : BPredUnit PCState σ η :=
  { U with
    iPred := U.iPred.commit P.indirect doneSn tid
    bp := (U.committed doneSn tid).reverse.foldl (commitEntry D tid) U.bp
    predHist := Function.update U.predHist tid ((U.predHist tid).rdropWhile (·.seqNum ≤ doneSn)) }

/-! ## Squashes -/

/-- What is left of the stack when a branch is squashed. -/
def undoRAS (R : ReturnAddrStack PCState) (e : PredictorHistory PCState η) :
    ReturnAddrStack PCState :=
  if e.usedRAS then R.restore e.rasIndex e.rasTarget
  else if e.wasCall && e.pushedRAS then R.pop P.rasSize
  else R

/-- The records of the branches that are squashed, the youngest one first. -/
def squashed (squashedSn tid : ℕ) : List (PredictorHistory PCState η) :=
  (U.predHist tid).takeWhile (squashedSn < ·.seqNum)

def squash (squashedSn tid : ℕ) : BPredUnit PCState σ η :=
  { U with
    iPred := U.iPred.squash squashedSn tid
    ras := Function.update U.ras tid ((U.squashed squashedSn tid).foldl (undoRAS P) (U.ras tid))
    bp := (U.squashed squashedSn tid).foldl (fun bp e => D.squash tid e.bpHistory bp) U.bp
    predHist :=
      Function.update U.predHist tid ((U.predHist tid).dropWhile (squashedSn < ·.seqNum)) }

/-- The record and the stack after a correction. -/
def correctRAS (actuallyTaken : Bool) (R : ReturnAddrStack PCState)
    (e : PredictorHistory PCState η) : PredictorHistory PCState η × ReturnAddrStack PCState :=
  if actuallyTaken then
    if e.wasReturn && !e.usedRAS then ({ e with usedRAS := true }, R.pop P.rasSize) else (e, R)
  else if e.usedRAS then ({ e with usedRAS := false }, R.restore e.rasIndex e.rasTarget)
  else if e.wasCall && e.pushedRAS then ({ e with pushedRAS := false }, R.pop P.rasSize)
  else (e, R)

/-- The target of a branch that is taken after all. -/
def correctTarget (corrTarget : PCState) (actuallyTaken : Bool) (tid ghr random : ℕ)
    (e : PredictorHistory PCState η) : Option (BPredUnit PCState σ η) :=
  if actuallyTaken then
    if e.wasIndirect then
      (U.iPred.recordTarget P.indirect isa ghr corrTarget tid random).map fun iPred =>
        { U with iPred := iPred }
    else some { U with btb := DefaultBTB.update P.btb U.btb e.pc corrTarget tid }
  else some U

/-- The branch at the front of the history was mispredicted. -/
def correct (corrTarget : PCState) (actuallyTaken : Bool) (tid random : ℕ)
    (e : PredictorHistory PCState η) (older : List (PredictorHistory PCState η)) :
    Option (BPredUnit PCState σ η) :=
  let ghr := D.getGHR tid e.bpHistory U.bp
  let (h, bp) := D.update tid e.pc actuallyTaken e.bpHistory true U.bp
  let e := { e with predTaken := actuallyTaken, bpHistory := h }
  let (e, R) := correctRAS P actuallyTaken (U.ras tid) e
  correctTarget isa P ({ U with bp := bp }.setRAS tid R |>.setHist tid (e :: older)) corrTarget
    actuallyTaken tid ghr random e

/-- The second `squash`. Its assertion fails if the youngest branch that is left is another one. -/
def squashCorrective (squashedSn : ℕ) (corrTarget : PCState) (actuallyTaken : Bool)
    (tid random : ℕ) : Option (BPredUnit PCState σ η) :=
  let U := squash D P U squashedSn tid
  match U.predHist tid with
  | [] => some U
  | e :: older =>
    if e.seqNum = squashedSn then correct isa D P U corrTarget actuallyTaken tid random e older
      else none

/-! ## What a prediction leaves -/

open Lib Bool

/-- The direction that `predict` records. -/
def looked (pc : PCState) (tid : ℕ) : Bool :=
  inst.isUncondCtrl || (D.lookup tid (isa.instAddr pc) U.bp).1

/-- There is a target for a branch that is predicted taken. -/
def hasTarget (pc : PCState) (tid : ℕ) (h : η) : Bool :=
  inst.isReturn ||
    if inst.isDirectCtrl || !P.useIndirect then DefaultBTB.valid P.btb U.btb (isa.instAddr pc) tid
    else (U.iPred.lookup P.indirect (isa.instAddr pc) (D.getGHR tid h U.bp) tid).isSome

/-- `predict` finds a target for a branch, if it looks for one. -/
def found (seqNum : ℕ) (pc : PCState) (tid : ℕ) : Bool :=
  let (p, V) := direction isa D U inst seqNum pc tid
  hasTarget isa D P V inst pc tid p.record.bpHistory

variable {isa D P U inst pc} {V : BPredUnit PCState σ η} {tid seqNum : ℕ}
  {p q : Prediction PCState η}

variable (isa D P U inst seqNum pc tid) in
theorem direction_eq :
    ∃ h bp, direction isa D U inst seqNum pc tid =
      (⟨.new isa seqNum (isa.instAddr pc) (U.looked isa D inst pc tid) h, pc,
        U.looked isa D inst pc tid⟩, { U with bp := bp }) := by
  unfold direction looked
  cases inst.isUncondCtrl with
  | true => exact ⟨_, _, rfl⟩
  | false => exact ⟨_, _, rfl⟩

theorem found_of_isReturn (h : inst.isReturn = true) :
    U.found isa D P inst seqNum pc tid = true := by
  unfold found hasTarget
  rw [h]
  exact true_or _

/-- The pushes and pops of a branch at its prediction, and what its record says about them. -/
structure Stacked (P : Params) (U V : BPredUnit PCState σ η) (inst : StaticInst) (tid : ℕ)
    (taken : Bool) (e : PredictorHistory PCState η) : Prop where
  others : ∀ t, t ≠ tid → V.ras t = U.ras t
  wasReturn : e.wasReturn = inst.isReturn
  usedRAS : e.usedRAS = (inst.isReturn && taken)
  pushed : (e.wasCall && e.pushedRAS) = (inst.isCall && !inst.isReturn && taken)
  rasIndex : inst.isReturn → taken → e.rasIndex = (U.ras tid).tos
  tos : (U.ras tid).tos < P.rasSize → (V.ras tid).tos =
    if taken then
      if inst.isReturn then prevSlot P.rasSize (U.ras tid).tos
      else if inst.isCall then nextSlot P.rasSize (U.ras tid).tos
      else (U.ras tid).tos
    else (U.ras tid).tos

namespace Stacked

variable {e : PredictorHistory PCState η}

theorem not_taken (hr : e.usedRAS = false) (hp : e.pushedRAS = false)
    (hw : e.wasReturn = inst.isReturn) (hras : V.ras = U.ras) : Stacked P U V inst tid false e where
  others t _ := congrFun hras t
  wasReturn := hw
  usedRAS := by rw [hr, Bool.and_false]
  pushed := by rw [hp, Bool.and_false, Bool.and_false]
  rasIndex _ h := absurd h false_ne_true
  tos _ := by rw [hras, if_neg Bool.false_ne_true]

theorem predictReturn (hret : inst.isReturn = true) (hcall : p.record.wasCall = false) :
    Stacked P U (predictReturn isa P U pc tid p).2 inst tid true
    (predictReturn isa P U pc tid p).1.record where
  others _ ht := setRAS_of_ne ht
  wasReturn := hret.symm
  usedRAS := by rw [hret]; rfl
  pushed := by
    change (p.record.wasCall && p.record.pushedRAS) = _
    rw [hcall, hret, Bool.not_true, Bool.and_false, Bool.and_true, Bool.false_and]
  rasIndex _ _ := rfl
  tos _ := by
    rw [if_pos rfl, if_pos hret]
    exact congrArg ReturnAddrStack.tos setRAS_self

variable (P U pc tid) in
theorem pushCall (hret : inst.isReturn = false) (hw : p.record.wasReturn = false)
    (hu : p.record.usedRAS = false) (hcall : p.record.wasCall = false) :
    Stacked P U (pushCall P U inst pc tid p).2 inst tid true
    (pushCall P U inst pc tid p).1.record := by
  unfold BPredUnit.pushCall
  cases hc : inst.isCall with
  | true =>
    rw [if_pos rfl]
    exact {
      others := fun _ ht => setRAS_of_ne ht
      wasReturn := hw.trans hret.symm
      usedRAS := hu.trans (by rw [hret]; rfl)
      pushed := by rw [hc, hret]; rfl
      rasIndex := fun h => absurd (hret.symm.trans h) false_ne_true
      tos := fun hlt => by
        rw [if_pos rfl, if_neg (by rw [hret]; exact false_ne_true), if_pos hc]
        rw [setRAS_self]
        exact ReturnAddrStack.push_tos hlt pc }
  | false =>
    rw [if_neg Bool.false_ne_true]
    exact {
      others := fun _ _ => rfl
      wasReturn := hw.trans hret.symm
      usedRAS := hu.trans (by rw [hret]; rfl)
      pushed := by rw [hcall, hc]; rfl
      rasIndex := fun h => absurd (hret.symm.trans h) false_ne_true
      tos := fun _ => by
        rw [if_pos rfl, if_neg (by rw [hret]; exact false_ne_true),
          if_neg (by rw [hc]; exact false_ne_true)] }

/-- Only an unconditional call stays on the stack without a target. -/
theorem noTarget (h : Stacked P U V inst tid true p.record) (hret : inst.isReturn = false) :
    Stacked P U (noTarget isa P V inst pc tid p).2 inst tid inst.isUncondCtrl
      (noTarget isa P V inst pc tid p).1.record := by
  have hnot : ¬ inst.isReturn = true := by
    rw [hret]
    exact false_ne_true
  have hused : p.record.usedRAS = false := by rw [h.usedRAS, hret, Bool.false_and]
  unfold BPredUnit.noTarget
  cases hu : inst.isUncondCtrl with
  | true =>
    rw [Bool.not_true, Bool.and_false, if_neg Bool.false_ne_true]
    exact { h with }
  | false =>
    cases hc : inst.isCall with
    | true =>
      rw [Bool.not_false, Bool.and_true, if_pos rfl]
      refine ⟨fun t ht => ?_, h.wasReturn, ?_, ?_, fun hr => absurd hr hnot, fun hlt => ?_⟩
      · exact (setRAS_of_ne ht).trans (h.others t ht)
      · rw [Bool.and_false]
        exact hused
      · rw [Bool.and_false, Bool.and_false]
      · -- the push of this call is taken back
        rw [setRAS_self, if_neg Bool.false_ne_true, ReturnAddrStack.pop_tos, h.tos hlt, if_pos rfl,
          if_neg hnot, if_pos hc]
        exact prevSlot_nextSlot hlt
    | false =>
      rw [Bool.false_and, if_neg Bool.false_ne_true]
      refine ⟨h.others, h.wasReturn, ?_, ?_, fun hr => absurd hr hnot, fun hlt => ?_⟩
      · rw [Bool.and_false]
        exact hused
      · rw [h.pushed, hc]
        rfl
      · rw [if_neg Bool.false_ne_true, h.tos hlt, if_pos rfl, if_neg hnot,
          if_neg (by rw [hc]; exact false_ne_true)]

end Stacked

/-- What becomes of a prediction when its target is looked for. -/
structure Targeted (isa : Isa PCState) (P : Params) (U V : BPredUnit PCState σ η)
    (inst : StaticInst) (pc : PCState) (tid : ℕ) (found : Bool) (p q : Prediction PCState η) :
    Prop where
  hist : V.predHist = U.predHist
  seqNum : q.record.seqNum = p.record.seqNum
  predTaken : q.record.predTaken = p.record.predTaken
  taken : q.taken = found
  target : found = false → q.target = isa.advancePC inst pc
  stacked : Stacked P U V inst tid (inst.isUncondCtrl || found) q.record

namespace Targeted

variable {q : Prediction PCState η}

/-- Without a target. Only the numbers of the first prediction matter. -/
theorem noTarget (h : Stacked P U V inst tid true q.record) (hret : inst.isReturn = false)
    (hhist : V.predHist = U.predHist) (hseq : q.record.seqNum = p.record.seqNum)
    (hpred : q.record.predTaken = p.record.predTaken) :
    Targeted isa P U (noTarget isa P V inst pc tid q).2 inst pc tid false p
      (noTarget isa P V inst pc tid q).1 := by
  have hstacked : Stacked P U (BPredUnit.noTarget isa P V inst pc tid q).2 inst tid
      inst.isUncondCtrl (BPredUnit.noTarget isa P V inst pc tid q).1.record := h.noTarget hret
  rw [← Bool.or_false inst.isUncondCtrl] at hstacked
  revert hstacked
  unfold BPredUnit.noTarget
  split
  · exact fun hstacked => ⟨hhist, hseq, hpred, rfl, fun _ => rfl, hstacked⟩
  · exact fun hstacked => ⟨hhist, hseq, hpred, rfl, fun _ => rfl, hstacked⟩

theorem hit (h : Stacked P U V inst tid true q.record) (hhist : V.predHist = U.predHist)
    (hseq : q.record.seqNum = p.record.seqNum) (hpred : q.record.predTaken = p.record.predTaken)
    (htaken : q.taken = true) : Targeted isa P U V inst pc tid true p q where
  hist := hhist
  seqNum := hseq
  predTaken := hpred
  taken := htaken
  target hfalse := absurd hfalse.symm false_ne_true
  stacked := by
    rw [Bool.or_true]
    exact h

variable (isa D pc) in
theorem predictDirect (h : Stacked P U V inst tid true p.record) (hret : inst.isReturn = false)
    (hhist : V.predHist = U.predHist) (htaken : p.taken = true) :
    Targeted isa P U (predictDirect isa D P V inst pc tid p).2 inst pc tid
      (DefaultBTB.valid P.btb V.btb (isa.instAddr pc) tid) p
      (predictDirect isa D P V inst pc tid p).1 := by
  unfold BPredUnit.predictDirect
  dsimp only
  cases DefaultBTB.valid P.btb V.btb (isa.instAddr pc) tid with
  | true => exact hit h hhist rfl rfl htaken
  | false =>
    rw [if_neg Bool.false_ne_true]
    -- the direction predictor is told of the miss, unless the branch is a call or a return
    split
    · exact noTarget { h with } hret hhist rfl rfl
    · exact noTarget h hret hhist rfl rfl

variable (isa D pc) in
theorem predictIndirect (h : Stacked P U V inst tid true p.record) (hret : inst.isReturn = false)
    (hhist : V.predHist = U.predHist) (htaken : p.taken = true) :
    Targeted isa P U (predictIndirect isa D P V inst pc tid p).2 inst pc tid
      (V.iPred.lookup P.indirect (isa.instAddr pc) (D.getGHR tid p.record.bpHistory V.bp)
      tid).isSome p (predictIndirect isa D P V inst pc tid p).1 := by
  have hindirect : Stacked P U V inst tid true { p.record with wasIndirect := true } :=
    { h with }
  unfold BPredUnit.predictIndirect
  dsimp only
  cases V.iPred.lookup P.indirect (isa.instAddr pc) (D.getGHR tid p.record.bpHistory V.bp) tid with
  | some target => exact hit { h with } hhist rfl rfl htaken
  | none =>
    let miss := BPredUnit.noTarget isa P V inst pc tid
      { p with record := { p.record with wasIndirect := true } }
    have hmiss : Targeted isa P U miss.2 inst pc tid false p miss.1 :=
      noTarget hindirect hret hhist rfl rfl
    have hst := hmiss.stacked
    exact { hmiss with stacked := { hst with } }

end Targeted

/-- A record as `predict` starts with. -/
structure Prediction.IsNew (p : Prediction PCState η) : Prop where
  taken : p.taken = true
  wasReturn : p.record.wasReturn = false
  usedRAS : p.record.usedRAS = false
  wasCall : p.record.wasCall = false

variable (isa D P U inst pc tid) in
theorem predictTaken_targeted (hp : p.IsNew) {f : Bool}
    (hf : hasTarget isa D P U inst pc tid p.record.bpHistory = f) :
    Targeted isa P U (predictTaken isa D P U inst pc tid p).2 inst pc tid f p
      (predictTaken isa D P U inst pc tid p).1 := by
  subst hf
  unfold predictTaken hasTarget
  cases hret : inst.isReturn with
  | true =>
    exact Targeted.hit (Stacked.predictReturn hret hp.wasCall) rfl rfl rfl hp.taken
  | false =>
    rw [if_neg Bool.false_ne_true, Bool.false_or]
    have hpush := Stacked.pushCall P U pc tid hret hp.wasReturn hp.usedRAS hp.wasCall
    have hdirect := Targeted.predictDirect isa D pc hpush hret
    have hindirect := Targeted.predictIndirect isa D pc hpush hret
    revert hdirect hindirect
    unfold pushCall
    -- a push changes nothing that the search for a target reads
    cases inst.isCall with
    | true =>
      intro hdirect hindirect
      dsimp only
      split
      · have h := hdirect rfl hp.taken
        exact { h with }
      · have h := hindirect rfl hp.taken
        exact { h with }
    | false =>
      intro hdirect hindirect
      dsimp only
      split
      · exact hdirect rfl hp.taken
      · exact hindirect rfl hp.taken

/-- What `predict` returns and leaves: a record of the branch, in front of the others. -/
structure Predicted (isa : Isa PCState) (D : DirectionPredictor σ η) (P : Params)
    (U V : BPredUnit PCState σ η) (inst : StaticInst) (sn : ℕ) (pc : PCState) (tid : ℕ)
    (returned : Bool × PCState) (e : PredictorHistory PCState η) : Prop where
  hist : V.predHist = Function.update U.predHist tid (e :: U.predHist tid)
  seqNum : e.seqNum = sn
  predTaken : e.predTaken = U.looked isa D inst pc tid
  taken : returned.1 = (U.looked isa D inst pc tid && U.found isa D P inst sn pc tid)
  target : U.looked isa D inst pc tid = true → U.found isa D P inst sn pc tid = false →
    returned.2 = isa.advancePC inst pc
  stacked : Stacked P U V inst tid (inst.isUncondCtrl || returned.1) e

variable (isa D P U inst seqNum pc tid) in
theorem predict_spec :
    ∃ e, Predicted isa D P U (U.predict isa D P inst seqNum pc tid).2 inst seqNum pc tid
      (U.predict isa D P inst seqNum pc tid).1 e := by
  rcases direction_eq isa D U inst pc tid seqNum with ⟨h, bp, hdir⟩
  have hfound : U.found isa D P inst seqNum pc tid =
      hasTarget isa D P { U with bp := bp } inst pc tid h := by
    unfold found
    rw [hdir]
    rfl
  unfold predict
  rw [hdir]
  dsimp only
  cases hlook : U.looked isa D inst pc tid with
  | false =>
    -- an unconditional branch is always predicted taken
    have hcond : inst.isUncondCtrl = false := (or_eq_false_iff.1 hlook).1
    refine ⟨_, rfl, rfl, rfl.trans hlook.symm, by rw [hlook]; rfl, ?_, ?_⟩
    · intro htrue
      exact absurd (hlook.symm.trans htrue) false_ne_true
    · rw [hcond]
      exact Stacked.not_taken rfl rfl rfl rfl
  | true =>
    rw [if_pos rfl]
    let p : Prediction PCState η := ⟨.new isa seqNum (isa.instAddr pc) true h, pc, true⟩
    have hnew : p.IsNew := ⟨rfl, rfl, rfl, rfl⟩
    have htarget := predictTaken_targeted isa D P { U with bp := bp } inst pc tid hnew hfound.symm
    have hst := htarget.stacked
    refine ⟨_, ?_, htarget.seqNum, htarget.predTaken.trans hlook.symm, ?_,
      fun _ => htarget.target, ?_⟩
    · change Function.update (predictTaken isa D P { U with bp := bp } inst pc tid p).2.predHist tid
        _ = _
      rw [htarget.hist]
    · rw [hlook, Bool.true_and]
      exact htarget.taken
    · rw [show (_ : Bool × PCState).1 = _ from htarget.taken]
      exact { hst with }

/-! ## What a correction leaves -/

variable {corrTarget : PCState} {actuallyTaken : Bool} {ghr random squashedSn : ℕ}
  {e : PredictorHistory PCState η}

theorem correctTarget_keeps (h : correctTarget isa P U corrTarget actuallyTaken tid ghr random e =
    some V) : V.predHist = U.predHist ∧ V.ras = U.ras := by
  unfold correctTarget at h
  split at h
  · split at h
    · rcases Option.map_eq_some_iff.1 h with ⟨iPred, -, rfl⟩
      exact ⟨rfl, rfl⟩
    · cases h
      exact ⟨rfl, rfl⟩
  · cases h
    exact ⟨rfl, rfl⟩

/-- The branch `e` is in front of `older` after the squash, and gets the record and the stack of
`correctRAS`. -/
structure Corrected (P : Params) (U V : BPredUnit PCState σ η) (actuallyTaken : Bool) (tid : ℕ)
    (e : PredictorHistory PCState η) (older : List (PredictorHistory PCState η)) (h : η) :
    Prop where
  front : U.predHist tid = e :: older
  hist : V.predHist = Function.update U.predHist tid
    ((correctRAS P actuallyTaken (U.ras tid) { e with
    predTaken := actuallyTaken, bpHistory := h }).1 :: older)
  ras : V.ras = Function.update U.ras tid
    (correctRAS P actuallyTaken (U.ras tid) { e with predTaken := actuallyTaken, bpHistory := h }).2

/-- The second `squash` finds no branch, or corrects the one it was called for. -/
theorem squashCorrective_cases
    (h : squashCorrective isa D P U squashedSn corrTarget actuallyTaken tid random = some V) :
    ((squash D P U squashedSn tid).predHist tid = [] ∧ V = squash D P U squashedSn tid) ∨
      ∃ e older h, e.seqNum = squashedSn ∧
        Corrected P (squash D P U squashedSn tid) V actuallyTaken tid e older h := by
  unfold squashCorrective at h
  dsimp only at h
  cases hhist : (squash D P U squashedSn tid).predHist tid with
  | nil =>
    rw [hhist] at h
    exact .inl ⟨rfl, (Option.some.inj h).symm⟩
  | cons e older =>
    rw [hhist] at h
    dsimp only at h
    split at h
    case isTrue hseq =>
      rcases correctTarget_keeps h with ⟨hkept, hras⟩
      exact .inr ⟨e, older, _, hseq, hhist, hkept, hras⟩
    case isFalse => cases h

variable {R : ReturnAddrStack PCState}

theorem correctRAS_seqNum : (correctRAS P actuallyTaken R e).1.seqNum = e.seqNum := by
  unfold correctRAS
  split_ifs <;> rfl

theorem correctRAS_predTaken : (correctRAS P actuallyTaken R e).1.predTaken = e.predTaken := by
  unfold correctRAS
  split_ifs <;> rfl

end BPredUnit
end EnocGem5.Pred
