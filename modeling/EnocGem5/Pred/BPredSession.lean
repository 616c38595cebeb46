import EnocGem5.Lib.Run
import EnocGem5.Pred.BPredUnit

/-!
# BPredSession — the branches behind the calls of a branch prediction unit

Fetch calls `predict` for each branch it meets, commit calls `update`, and both kinds of squashes
come from the stages in between. A session keeps, beside the unit, what is known of each branch:
what the unit answered, what the branch really does, and the direction that a corrective squash has
given. `retired` are the branches that have committed, the youngest one first, each with the
direction that was passed to the direction predictor's `update`.
-/

namespace EnocGem5.Pred

open Lib Function List

structure Branch (PCState : Type) where
  inst : StaticInst
  pc : PCState
  looked : Bool
  found : Bool
  returned : Bool × PCState
  actual : Bool × PCState
  corrected : Option Bool := none
  deriving DecidableEq

namespace Branch

variable {PCState : Type} (b : Branch PCState)

/-- The direction of a branch, as far as the unit has been told. Unconditional branches are
taken. -/
def direction : Bool := b.corrected.getD (b.inst.isUncondCtrl || b.returned.1)

end Branch

/-- The calls. `actual` is the direction and the target that the branch turns out to have. -/
inductive BPredCall (PCState : Type)
  | predict (inst : StaticInst) (seqNum : ℕ) (pc : PCState) (tid : ℕ) (actual : Bool × PCState)
  | squash (squashedSn tid : ℕ)
  | squashCorrective (squashedSn : ℕ) (corrTarget : PCState) (actuallyTaken : Bool) (tid random : ℕ)
  | update (doneSn tid : ℕ)
  deriving DecidableEq

structure BPredSession (PCState σ η : Type) where
  unit : BPredUnit PCState σ η
  branch : ℕ → ℕ → Branch PCState
  retired : ℕ → List (Branch PCState × Bool) := fun _ => []

namespace BPredSession

variable {PCState σ η : Type} (isa : Isa PCState) (D : DirectionPredictor σ η) (P : Params)
  (S : BPredSession PCState σ η)

/-- No branch is in flight, and none has committed. -/
def Idle : Prop := ∀ tid, S.unit.predHist tid = [] ∧ S.retired tid = []

def start (bp : σ) : BPredSession PCState σ η where
  unit := BPredUnit.start isa bp
  branch := fun _ _ => ⟨{}, isa.zero, false, false, (false, isa.zero), (false, isa.zero), none⟩

theorem start_idle (bp : σ) : (start (η := η) isa bp).Idle := fun _ => ⟨rfl, rfl⟩

def branchOf (tid : ℕ) (e : PredictorHistory PCState η) : Branch PCState := S.branch tid e.seqNum

def setBranch (tid seqNum : ℕ) (b : Branch PCState) : BPredSession PCState σ η :=
  { S with branch := Function.update S.branch tid (Function.update (S.branch tid) seqNum b) }

def predict (inst : StaticInst) (seqNum : ℕ) (pc : PCState) (tid : ℕ) (actual : Bool × PCState) :
    BPredSession PCState σ η :=
  let (returned, U) := S.unit.predict isa D P inst seqNum pc tid
  { S.setBranch tid seqNum
      { inst := inst
        pc := pc
        looked := S.unit.looked isa D inst pc tid
        found := S.unit.found isa D P inst seqNum pc tid
        returned := returned
        actual := actual } with
    unit := U }

def correct (squashedSn : ℕ) (actuallyTaken : Bool) (tid : ℕ) (U : BPredUnit PCState σ η) :
    BPredSession PCState σ η :=
  { S.setBranch tid squashedSn { S.branch tid squashedSn with corrected := some actuallyTaken } with
    unit := U }

def update (doneSn tid : ℕ) : BPredSession PCState σ η :=
  { S with
    unit := S.unit.update D P doneSn tid
    retired := Function.update S.retired tid
      ((S.unit.committed doneSn tid).map (fun e => (S.branchOf tid e, e.predTaken))
      ++ S.retired tid) }

def step : BPredCall PCState → Option (BPredSession PCState σ η)
  | .predict inst seqNum pc tid actual => some (S.predict isa D P inst seqNum pc tid actual)
  | .squash squashedSn tid => some { S with unit := S.unit.squash D P squashedSn tid }
  | .squashCorrective squashedSn corrTarget actuallyTaken tid random =>
    (S.unit.squashCorrective isa D P squashedSn corrTarget actuallyTaken tid random).map
      (S.correct squashedSn actuallyTaken tid)
  | .update doneSn tid => some (S.update D P doneSn tid)

/-- The sequence numbers of a thread grow. -/
def InOrder : BPredCall PCState → Prop
  | .predict _ seqNum _ tid _ => ∀ e ∈ S.unit.predHist tid, e.seqNum < seqNum
  | _ => True

instance (c : BPredCall PCState) : Decidable (S.InOrder c) :=
  match c with
  | .predict _ _ _ tid _ => inferInstanceAs (Decidable (∀ e ∈ S.unit.predHist tid, _))
  | .squash .. | .squashCorrective .. | .update .. => isTrue trivial

/-! ## The order of the records -/

/-- Records are kept with the youngest branch first. -/
def Ordered : Prop := ∀ tid, (S.unit.predHist tid).Pairwise fun e older => older.seqNum < e.seqNum

variable {isa : Isa PCState} {D : DirectionPredictor σ η} {P : Params}
  {S S' : BPredSession PCState σ η} {c : BPredCall PCState} {tid t seqNum squashedSn : ℕ}
  {e : PredictorHistory PCState η} {b : Branch PCState}

theorem Idle.ordered (h : S.Idle) : S.Ordered := by
  intro tid
  rw [(h tid).1]
  exact List.Pairwise.nil

/-- Writing what is known of one branch leaves the others alone. -/
theorem branchOf_setBranch_of_ne (h : t ≠ tid ∨ e.seqNum ≠ seqNum) :
    (S.setBranch tid seqNum b).branchOf t e = S.branchOf t e := by
  change Function.update S.branch tid (Function.update (S.branch tid) seqNum b) t e.seqNum = _
  by_cases ht : t = tid
  · subst ht
    have hne : e.seqNum ≠ seqNum := h.resolve_left fun hne => hne rfl
    rw [update_self, update_of_ne hne]
    rfl
  · rw [update_of_ne ht]
    rfl

theorem branchOf_setBranch_self (h : e.seqNum = seqNum) :
    (S.setBranch tid seqNum b).branchOf tid e = b := by
  change Function.update S.branch tid (Function.update (S.branch tid) seqNum b) tid e.seqNum = b
  rw [update_self, h, update_self]

variable (D P) in
theorem Ordered.squash (h : S.Ordered) (squashedSn tid : ℕ) :
    ∀ t, ((S.unit.squash D P squashedSn tid).predHist t).Pairwise fun e older =>
    older.seqNum < e.seqNum := by
  refine (forall_update_iff _ _).2 ⟨?_, fun t _ => h t⟩
  exact (h tid).sublist (dropWhile_sublist _)

/-- The branches that are older than a corrected one have smaller numbers. -/
theorem Ordered.front (h : S.Ordered) {older : List (PredictorHistory PCState η)}
    (hfront : (S.unit.squash D P squashedSn tid).predHist tid = e :: older) :
    (∀ f ∈ older, f.seqNum < e.seqNum) ∧ older.Pairwise fun e older => older.seqNum < e.seqNum := by
  have hpairs := h.squash D P squashedSn tid tid
  rw [hfront] at hpairs
  exact List.pairwise_cons.1 hpairs

theorem Ordered.step (h : S.Ordered) (hin : S.InOrder c) (hS : S.step isa D P c = some S') :
    S'.Ordered := by
  cases c with
  | predict inst seqNum pc tid actual =>
    cases hS
    rcases S.unit.predict_spec isa D P inst pc tid seqNum with ⟨e, he⟩
    intro t
    change ((S.unit.predict isa D P inst seqNum pc tid).2.predHist t).Pairwise _
    rw [he.hist]
    revert t
    refine (forall_update_iff _ _).2 ⟨?_, fun t _ => h t⟩
    refine List.pairwise_cons.2 ⟨fun f hf => ?_, h tid⟩
    rw [he.seqNum]
    exact hin f hf
  | squash squashedSn tid =>
    cases hS
    exact h.squash D P squashedSn tid
  | squashCorrective squashedSn corrTarget actuallyTaken tid random =>
    rcases Option.map_eq_some_iff.1 hS with ⟨U, hU, rfl⟩
    intro t
    change (U.predHist t).Pairwise _
    rcases BPredUnit.squashCorrective_cases hU with ⟨-, rfl⟩ | ⟨e, older, hist, _, hcor⟩
    · exact h.squash D P squashedSn tid t
    · rw [hcor.hist]
      revert t
      refine (forall_update_iff _ _).2 ⟨?_, fun t _ => h.squash D P squashedSn tid t⟩
      rw [pairwise_cons, BPredUnit.correctRAS_seqNum]
      have hfront := h.front hcor.front
      exact hfront
  | update doneSn tid =>
    cases hS
    refine (forall_update_iff _ _).2 ⟨?_, fun t _ => h t⟩
    exact (h tid).sublist (List.rdropWhile_prefix _ _).sublist

end BPredSession

/-! ## A machine with four-byte instructions, and a predictor with one answer -/

def fourByteIsa : Isa ℕ where
  zero := 0
  instAddr := id
  advancePC _ pc := pc + 4
  buildRetPC _ callPC := callPC + 4

def constantly (taken : Bool) : DirectionPredictor Unit Unit where
  uncondBranch _ _ _ := ((), ())
  lookup _ _ _ := (taken, (), ())
  btbUpdate _ _ _ _ := ((), ())
  update _ _ _ _ _ _ := ((), ())
  squash _ _ _ := ()
  getGHR _ _ _ := 0

def smallParams : Params where
  btb := ⟨4, 16, 2, 0⟩
  indirect := ⟨true, true, 4, 2, 16, 3, 2⟩
  useIndirect := true
  rasSize := 4
  rasSize_pos := by decide

end EnocGem5.Pred
