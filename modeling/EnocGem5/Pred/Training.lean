import EnocGem5.Pred.BPredSession

/-!
# Training — the directions that the direction predictor learns

When a branch commits, `update` passes its recorded direction to the direction predictor. The record
starts with the answer of `lookup`, but `predict` returns "not taken" if it finds no target. Such a
branch is not corrected if it is not taken in fact, and then the predictor learns that it was.

`training_iff` says that this is the only way to learn a wrong direction.
-/

namespace EnocGem5.Pred

open Lib List Function Option

variable {PCState σ η : Type}

/-- The branch was predicted taken by the direction predictor, had no target, and falls through. -/
def Branch.Overridden (isa : Isa PCState) (b : Branch PCState) : Prop :=
  b.inst.isUncondCtrl = false ∧ b.looked = true ∧ b.found = false ∧
    b.actual = (false, isa.advancePC b.inst b.pc)

instance [DecidableEq PCState] (isa : Isa PCState) (b : Branch PCState) :
    Decidable (b.Overridden isa) :=
  inferInstanceAs (Decidable (_ ∧ _))

/-- What `predict` returned differs from what the branch does. -/
def Branch.Mispredicted (b : Branch PCState) : Prop := b.returned ≠ b.actual

instance [DecidableEq PCState] (b : Branch PCState) : Decidable b.Mispredicted :=
  inferInstanceAs (Decidable (_ ≠ _))

namespace BPredSession

/-- Branches are corrected, with their actual outcome, if they were mispredicted, and before they
commit. -/
def Allowed (S : BPredSession PCState σ η) : BPredCall PCState → Prop
  | .squashCorrective squashedSn corrTarget actuallyTaken tid _ =>
    (S.branch tid squashedSn).Mispredicted ∧ (S.branch tid squashedSn).actual =
      (actuallyTaken, corrTarget)
  | .update doneSn tid =>
    ∀ e ∈ S.unit.committed doneSn tid, (S.branchOf tid e).Mispredicted →
      (S.branchOf tid e).corrected ≠ none
  | c => S.InOrder c

instance [DecidableEq PCState] (S : BPredSession PCState σ η) (c : BPredCall PCState) :
    Decidable (S.Allowed c) :=
  match c with
  | .predict inst seqNum pc tid actual =>
    inferInstanceAs (Decidable (S.InOrder (.predict inst seqNum pc tid actual)))
  | .squash .. => isTrue trivial
  | .squashCorrective .. => inferInstanceAs (Decidable (_ ∧ _))
  | .update doneSn tid =>
    inferInstanceAs (Decidable (∀ e ∈ S.unit.committed doneSn tid, _ → _))

/-- The direction predictor was updated with the actual directions of the conditional branches. -/
def Trained (S : BPredSession PCState σ η) : Prop :=
  ∀ tid, ∀ r ∈ S.retired tid, r.1.inst.isUncondCtrl = false → r.2 = r.1.actual.1

/-- No branch that was overridden commits. -/
def NoneOverridden (isa : Isa PCState) (S : BPredSession PCState σ η) : BPredCall PCState → Prop
  | .update doneSn tid => ∀ e ∈ S.unit.committed doneSn tid, ¬ (S.branchOf tid e).Overridden isa
  | _ => True

instance [DecidableEq PCState] (isa : Isa PCState) (S : BPredSession PCState σ η)
    (c : BPredCall PCState) : Decidable (S.NoneOverridden isa c) :=
  match c with
  | .predict .. | .squash .. | .squashCorrective .. => isTrue trivial
  | .update doneSn tid => inferInstanceAs (Decidable (∀ e ∈ S.unit.committed doneSn tid, ¬ _))

/-! ## Records and branches -/

/-- The record of a branch agrees with what is known of it. -/
structure Tracks (isa : Isa PCState) (e : PredictorHistory PCState η) (b : Branch PCState) :
    Prop where
  predTaken : e.predTaken = b.corrected.getD b.looked
  taken : b.returned.1 = (b.looked && b.found)
  target : b.looked = true → b.found = false → b.returned.2 = isa.advancePC b.inst b.pc
  corrected : ∀ d, b.corrected = some d → d = b.actual.1 ∧ b.Mispredicted

section Tracks

variable {isa : Isa PCState} {e : PredictorHistory PCState η} {b : Branch PCState}

/-- An overridden branch is not corrected, and its record says that it is taken. -/
theorem Tracks.of_overridden (h : Tracks isa e b) (hover : b.Overridden isa) :
    e.predTaken ≠ b.actual.1 := by
  rcases hover with ⟨-, hlooked, hfound, hactual⟩
  have hreturned : b.returned = b.actual := by
    rw [hactual]
    refine Prod.ext ?_ (h.target hlooked hfound)
    rw [h.taken, hfound, Bool.and_false]
  have hnone : b.corrected = none := by
    cases hcor : b.corrected with
    | none => rfl
    | some d => exact absurd hreturned (h.corrected d hcor).2
  rw [h.predTaken, hnone, hactual, getD_none, hlooked]
  exact Bool.noConfusion

/-- Every other branch that commits is recorded with its actual direction. -/
theorem Tracks.of_not_overridden (h : Tracks isa e b) (hcond : b.inst.isUncondCtrl = false)
    (hseen : b.Mispredicted → b.corrected ≠ none) (hover : ¬ b.Overridden isa) :
    e.predTaken = b.actual.1 := by
  cases hcor : b.corrected with
  | some d =>
    rw [h.predTaken, hcor, getD_some]
    exact (h.corrected d hcor).1
  | none =>
    have hreturned : b.returned = b.actual := by
      by_contra hne
      exact hseen hne hcor
    rw [h.predTaken, hcor, getD_none, ← hreturned, h.taken]
    cases hlooked : b.looked with
    | false => rfl
    | true =>
      cases hfound : b.found with
      | true => rfl
      | false =>
        -- the branch falls through, as it was predicted to in the end
        refine absurd ⟨hcond, hlooked, hfound, ?_⟩ hover
        rw [← hreturned]
        refine Prod.ext ?_ (h.target hlooked hfound)
        rw [h.taken, hfound, Bool.and_false]

end Tracks

structure Tracked (isa : Isa PCState) (S : BPredSession PCState σ η) : Prop where
  ordered : S.Ordered
  tracks : ∀ tid, ∀ e ∈ S.unit.predHist tid, Tracks isa e (S.branchOf tid e)

section Step

variable {isa : Isa PCState} {D : DirectionPredictor σ η} {P : Params}
  {S S' : BPredSession PCState σ η} {c : BPredCall PCState}

theorem Idle.tracked (h : S.Idle) : Tracked isa S where
  ordered := h.ordered
  tracks tid e he := by
    rw [(h tid).1] at he
    exact absurd he not_mem_nil

theorem Allowed.inOrder (h : S.Allowed c) : S.InOrder c := by
  cases c with
  | predict inst seqNum pc tid actual => exact h
  | squash squashedSn tid => trivial
  | squashCorrective squashedSn corrTarget actuallyTaken tid random => trivial
  | update doneSn tid => trivial

theorem Tracked.predict (h : Tracked isa S) {inst : StaticInst} {seqNum tid : ℕ} {pc : PCState}
    {actual : Bool × PCState} (hin : ∀ e ∈ S.unit.predHist tid, e.seqNum < seqNum) :
    ∀ t, ∀ e ∈ (S.predict isa D P inst seqNum pc tid actual).unit.predHist t,
      Tracks isa e ((S.predict isa D P inst seqNum pc tid actual).branchOf t e) := by
  rcases S.unit.predict_spec isa D P inst pc tid seqNum with ⟨new, hnew⟩
  intro t
  change ∀ e ∈ (S.unit.predict isa D P inst seqNum pc tid).2.predHist t,
    Tracks isa e ((S.setBranch tid seqNum _).branchOf t e)
  rw [hnew.hist]
  revert t
  refine (forall_update_iff _ fun t hist => ∀ e ∈ hist,
    Tracks isa e ((S.setBranch tid seqNum _).branchOf t e)).2 ⟨fun e he => ?_, fun t ht e he => ?_⟩
  · rcases mem_cons.1 he with rfl | he
    · rw [branchOf_setBranch_self hnew.seqNum]
      exact { hnew with corrected := fun d hd => by cases hd }
    · rw [branchOf_setBranch_of_ne (.inr (Nat.ne_of_lt (hin e he)))]
      exact h.tracks tid e he
  · rw [branchOf_setBranch_of_ne (.inl ht)]
    exact h.tracks t e he

theorem Tracked.squash (h : Tracked isa S) (squashedSn tid : ℕ) :
    ∀ t, ∀ e ∈ (S.unit.squash D P squashedSn tid).predHist t, Tracks isa e (S.branchOf t e) := by
  refine (forall_update_iff _ fun t hist => ∀ e ∈ hist, Tracks isa e (S.branchOf t e)).2
    ⟨fun e he => ?_, fun t _ => h.tracks t⟩
  exact h.tracks tid e ((dropWhile_sublist _).subset he)

theorem Tracked.correct (h : Tracked isa S) {squashedSn tid random : ℕ} {corrTarget : PCState}
    {actuallyTaken : Bool} {U : BPredUnit PCState σ η}
    (hallowed : S.Allowed (.squashCorrective squashedSn corrTarget actuallyTaken tid random))
    (hU : S.unit.squashCorrective isa D P squashedSn corrTarget actuallyTaken tid random = some U) :
    ∀ t, ∀ e ∈ U.predHist t,
    Tracks isa e ((S.correct squashedSn actuallyTaken tid U).branchOf t e) := by
  have hsquash := h.squash (D := D) (P := P) squashedSn tid
  -- a branch other than the corrected one is known as before
  have hother : ∀ t e, (t ≠ tid ∨ e.seqNum ≠ squashedSn) → Tracks isa e (S.branchOf t e) →
      Tracks isa e ((S.correct squashedSn actuallyTaken tid U).branchOf t e) := by
    intro t e hne he
    change Tracks isa e ((S.setBranch tid squashedSn _).branchOf t e)
    rw [branchOf_setBranch_of_ne hne]
    exact he
  rcases BPredUnit.squashCorrective_cases hU with ⟨hnil, rfl⟩ | ⟨e, older, hist, hseq, hcor⟩
  · intro t e he
    refine hother t e (.inl ?_) (hsquash t e he)
    rintro rfl
    rw [hnil] at he
    exact absurd he not_mem_nil
  · rcases h.ordered.front hcor.front with ⟨holder, -⟩
    rw [hcor.hist]
    refine (forall_update_iff _ fun t hist => ∀ e ∈ hist,
      Tracks isa e ((S.correct squashedSn actuallyTaken tid U).branchOf t e)).2
      ⟨fun f hf => ?_, fun t ht f hf => hother t f (.inl ht) (hsquash t f hf)⟩
    rcases mem_cons.1 hf with rfl | hf
    · have he : Tracks isa e (S.branchOf tid e) := by
        refine hsquash tid e ?_
        rw [hcor.front]
        exact mem_cons_self
      change Tracks isa _ ((S.setBranch tid squashedSn _).branchOf tid _)
      rw [branchOf_setBranch_self (by rw [BPredUnit.correctRAS_seqNum]; exact hseq)]
      have hknown : S.branchOf tid e = S.branch tid squashedSn := by
        rw [← hseq]
        rfl
      rw [hknown] at he
      refine ⟨?_, he.taken, he.target, fun d hd => ⟨?_, hallowed.1⟩⟩
      · rw [BPredUnit.correctRAS_predTaken]
        rfl
      · cases hd
        exact (congrArg Prod.fst hallowed.2).symm
    · refine hother tid f (.inr ?_) (hsquash tid f ?_)
      · rw [← hseq]
        exact Nat.ne_of_lt (holder f hf)
      · rw [hcor.front]
        exact mem_cons_of_mem e hf

theorem Tracked.step (h : Tracked isa S) (hallowed : S.Allowed c)
    (hS : S.step isa D P c = some S') : Tracked isa S' := by
  refine ⟨h.ordered.step hallowed.inOrder hS, ?_⟩
  cases c with
  | predict inst seqNum pc tid actual =>
    cases hS
    exact h.predict hallowed
  | squash squashedSn tid =>
    cases hS
    exact h.squash squashedSn tid
  | squashCorrective squashedSn corrTarget actuallyTaken tid random =>
    rcases Option.map_eq_some_iff.1 hS with ⟨U, hU, rfl⟩
    exact h.correct hallowed hU
  | update doneSn tid =>
    cases hS
    refine (forall_update_iff _ fun t hist => ∀ e ∈ hist, Tracks isa e (S.branchOf t e)).2
      ⟨fun e he => ?_, fun t _ => h.tracks t⟩
    exact h.tracks tid e ((List.rdropWhile_prefix _ _).subset he)

/-- A commit passes the actual directions on exactly if no branch of it was overridden. -/
theorem Tracked.trained_update (h : Tracked isa S) (htrained : S.Trained) {doneSn tid : ℕ}
    (hallowed : S.Allowed (.update doneSn tid)) :
    (S.update D P doneSn tid).Trained ↔ S.NoneOverridden isa (.update doneSn tid) := by
  have htracks : ∀ e ∈ S.unit.committed doneSn tid, Tracks isa e (S.branchOf tid e) := fun e he =>
    h.tracks tid e ((rtakeWhile_suffix _ _).subset he)
  constructor
  · intro hall e he hover
    refine (htracks e he).of_overridden hover ?_
    refine hall tid (S.branchOf tid e, e.predTaken) ?_ hover.1
    change _ ∈ Function.update S.retired tid _ tid
    rw [update_self]
    exact mem_append_left _ (mem_map.2 ⟨e, he, rfl⟩)
  · intro hnone
    refine (forall_update_iff _ fun _ (retired : List (Branch PCState × Bool)) =>
      ∀ r ∈ retired, r.1.inst.isUncondCtrl = false → r.2 = r.1.actual.1).2
      ⟨fun r hr hcond => ?_, fun t _ => htrained t⟩
    rcases mem_append.1 hr with hr | hr
    · rcases mem_map.1 hr with ⟨e, he, rfl⟩
      exact (htracks e he).of_not_overridden hcond (hallowed e he) (hnone e he)
    · exact htrained tid r hr hcond

theorem Tracked.trained_step (h : Tracked isa S) (htrained : S.Trained) (hallowed : S.Allowed c)
    (hS : S.step isa D P c = some S') : S'.Trained ↔ S.NoneOverridden isa c := by
  cases c with
  | predict inst seqNum pc tid actual =>
    cases hS
    exact iff_of_true htrained trivial
  | squash squashedSn tid =>
    cases hS
    exact iff_of_true htrained trivial
  | squashCorrective squashedSn corrTarget actuallyTaken tid random =>
    rcases Option.map_eq_some_iff.1 hS with ⟨U, -, rfl⟩
    exact iff_of_true htrained trivial
  | update doneSn tid =>
    cases hS
    exact h.trained_update htrained hallowed

end Step

/-- In every run in which exactly the mispredicted branches are corrected before they commit, the
direction predictor learns the actual directions of conditional branches exactly if none of them was
predicted taken, found without a target, and falls through. -/
theorem training_iff (isa : Isa PCState) (D : DirectionPredictor σ η) (P : Params)
    (S : BPredSession PCState σ η) (hS : S.Idle) (calls : List (BPredCall PCState))
    (hallowed : Throughout (step isa D P) Allowed S calls) :
    Always (step isa D P) Trained S calls ↔
    Throughout (step isa D P) (NoneOverridden isa) S calls := by
  have htrained : S.Trained := by
    intro tid r hr
    rw [(hS tid).2] at hr
    exact absurd hr not_mem_nil
  exact always_iff_of_throughout (fun _ _ _ => Tracked.step) (fun _ _ _ => Tracked.trained_step)
    hS.tracked htrained hallowed

/-- A branch from 16 to 64 that is mispredicted once, for want of a target. -/
def learnedBranch : List (BPredCall ℕ) :=
  [.predict { isDirectCtrl := true } 1 16 0 (true, 64), .squashCorrective 1 64 true 0 0,
    .update 1 0, .predict { isDirectCtrl := true } 2 16 0 (true, 64), .update 2 0]

theorem training_iff_learned :
    Throughout (step fourByteIsa (constantly true) smallParams) Allowed (start fourByteIsa ())
      learnedBranch ∧ Always (step fourByteIsa (constantly true) smallParams) Trained
      (start fourByteIsa ()) learnedBranch :=
  ⟨by decide,
    (training_iff fourByteIsa (constantly true) smallParams _ (start_idle fourByteIsa ())
    learnedBranch (by decide)).2 (by decide)⟩

/-- A branch that falls through. It has no target, so that "not taken" is returned and it is never
corrected. -/
def fallenThrough : List (BPredCall ℕ) :=
  [.predict { isDirectCtrl := true } 1 16 0 (false, 20), .update 1 0]

/-- The direction predictor learns that it was taken. -/
theorem learns_wrong_direction :
    Throughout (step fourByteIsa (constantly true) smallParams) Allowed (start fourByteIsa ())
      fallenThrough ∧ ¬ Always (step fourByteIsa (constantly true) smallParams) Trained
      (start fourByteIsa ()) fallenThrough := by
  refine ⟨by decide, fun h => ?_⟩
  have hlast := h.last rfl
  have hwrong := hlast 0 _ mem_cons_self rfl
  exact absurd hwrong (by decide)

end BPredSession
end EnocGem5.Pred
