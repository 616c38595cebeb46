import EnocGem5.Pred.BPredSession

/-!
# ReturnStack — the index of the return address stack

Calls push and returns pop when they are predicted, and squashes undo this: the index should be the
one that the surviving branches give, whatever was predicted in between (`Restored`).

Two things go wrong. A call that is corrected to "taken" is not pushed any more. A return that is
corrected to "taken" is popped, but its record has no index to go back to, and a later squash moves
the index to zero. `Repairable` rules out both, and instructions that are calls and returns at the
same time.
-/

namespace EnocGem5.Pred

open Lib List Function BPredUnit

variable {PCState σ η : Type} {n tid squashedSn : ℕ}

variable {actuallyTaken d : Bool}

namespace Branch

variable (b : Branch PCState)

/-- How far a branch moves the index: a taken call up, a taken return down. -/
def effect : ℤ :=
  if b.direction then (if b.inst.isCall then 1 else 0) - (if b.inst.isReturn then 1 else 0) else 0

/-- The record of a taken return has the index to go back to. -/
def Undoable : Prop := b.inst.isReturn = true → b.direction = true → b.looked = true

instance : Decidable b.Undoable :=
  inferInstanceAs (Decidable (_ → _ → _))

def correct (actuallyTaken : Bool) : Branch PCState := { b with corrected := some actuallyTaken }

/-- The index can follow a correction. -/
def Correctable (actuallyTaken : Bool) : Prop :=
  if actuallyTaken then b.inst.isCall = true → b.direction = true else b.Undoable

instance (actuallyTaken : Bool) : Decidable (b.Correctable actuallyTaken) :=
  match actuallyTaken with
  | true => inferInstanceAs (Decidable (_ → _))
  | false => inferInstanceAs (Decidable b.Undoable)

variable {b}

theorem effect_of_not_direction (h : b.direction = false) : b.effect = 0 := by
  unfold effect
  rw [h, if_neg Bool.false_ne_true]

theorem effect_of_direction (h : b.direction = true) :
    b.effect = (if b.inst.isCall then 1 else 0) - (if b.inst.isReturn then 1 else 0) := by
  unfold effect
  rw [h, if_pos rfl]

theorem direction_correct : (b.correct actuallyTaken).direction = actuallyTaken := rfl

/-- A correction to the direction that the branch has already. -/
theorem effect_correct (h : b.direction = d) : (b.correct d).effect = b.effect := by
  unfold effect
  rw [direction_correct, h]
  rfl

end Branch

open Branch

/-! ## Records and the index -/

/-- What the record of a branch says, if the index was `x` before the branch. -/
structure Records (n : ℕ) (x : ℤ) (e : PredictorHistory PCState η) (b : Branch PCState) : Prop where
  not_both : b.inst.isCall = true → b.inst.isReturn = false
  wasReturn : e.wasReturn = b.inst.isReturn
  usedRAS : e.usedRAS = (b.inst.isReturn && b.direction)
  pushed : (e.wasCall && e.pushedRAS) = (b.inst.isCall && b.direction)
  rasIndex : b.inst.isReturn = true → b.looked = true → e.rasIndex = slotOf n x

namespace Records

variable {P : Params} {x : ℤ} {e : PredictorHistory PCState η} {b : Branch PCState}
  {R : ReturnAddrStack PCState}

/-- A prediction moves the index by the effect of the branch, and its record can undo this. -/
theorem of_stacked {U V : BPredUnit PCState σ η}
    (h : BPredUnit.Stacked P U V b.inst tid b.direction e)
    (hboth : b.inst.isCall = true → b.inst.isReturn = false)
    (hlooked : b.inst.isReturn = true → b.looked = true → b.direction = true)
    (hU : (U.ras tid).tos = slotOf P.rasSize x) :
    Records P.rasSize x e b ∧ (V.ras tid).tos = slotOf P.rasSize (x + b.effect) := by
  have hlt : (U.ras tid).tos < P.rasSize := by
    rw [hU]
    exact slotOf_lt P.rasSize_pos x
  constructor
  · refine ⟨hboth, h.wasReturn, h.usedRAS, ?_, fun hret hlook => ?_⟩
    · rw [h.pushed]
      cases hc : b.inst.isCall with
      | false => rfl
      | true =>
        rw [hboth hc]
        rfl
    · rw [h.rasIndex hret (hlooked hret hlook), hU]
  · rw [h.tos hlt, hU]
    cases hd : b.direction with
    | false => rw [if_neg Bool.false_ne_true, effect_of_not_direction hd, add_zero]
    | true =>
      rw [if_pos rfl, effect_of_direction hd]
      cases hc : b.inst.isCall with
      | true =>
        rw [hboth hc, if_neg Bool.false_ne_true, if_pos rfl, if_pos rfl, if_neg Bool.false_ne_true,
          sub_zero]
        exact nextSlot_slotOf P.rasSize_pos x
      | false =>
        cases b.inst.isReturn with
        | true =>
          exact prevSlot_slotOf P.rasSize_pos x
        | false =>
          rw [if_neg Bool.false_ne_true, if_neg Bool.false_ne_true, if_neg Bool.false_ne_true,
            sub_zero, add_zero]

variable (h : Records P.rasSize x e b)

include h in
theorem isCall_of_isReturn (hret : b.inst.isReturn = true) : b.inst.isCall = false := by
  cases hc : b.inst.isCall with
  | false => rfl
  | true => exact absurd (hret.symm.trans (h.not_both hc)) Bool.noConfusion

include h in
/-- Of the three cases of the code, the one that applies is told by the branch. -/
theorem cases :
    (e.usedRAS = true ∧ b.inst.isReturn = true ∧ b.direction = true ∧ b.effect = -1) ∨
      (e.usedRAS = false ∧ (e.wasCall && e.pushedRAS) = true ∧ b.inst.isCall = true ∧
        b.direction = true ∧ b.effect = 1) ∨
      (e.usedRAS = false ∧ (e.wasCall && e.pushedRAS) = false ∧ b.effect = 0) := by
  cases hd : b.direction with
  | false =>
    have hused := h.usedRAS
    have hpushed := h.pushed
    rw [hd, Bool.and_false] at hused hpushed
    exact .inr (.inr ⟨hused, hpushed, effect_of_not_direction hd⟩)
  | true =>
    have hused := h.usedRAS
    have hpushed := h.pushed
    have heffect := effect_of_direction hd
    rw [hd, Bool.and_true] at hused hpushed
    cases hr : b.inst.isReturn with
    | true =>
      rw [hr, h.isCall_of_isReturn hr] at heffect
      exact .inl ⟨hused.trans hr, rfl, rfl, heffect⟩
    | false =>
      cases hc : b.inst.isCall with
      | true =>
        rw [hr, hc] at heffect
        exact .inr (.inl ⟨hused.trans hr, hpushed.trans hc, rfl, rfl, heffect⟩)
      | false =>
        rw [hr, hc] at heffect
        exact .inr (.inr ⟨hused.trans hr, hpushed.trans hc, heffect⟩)

theorem pop_tos (hR : R.tos = slotOf P.rasSize (x + 1)) :
    (R.pop P.rasSize).tos = slotOf P.rasSize x := by
  rw [ReturnAddrStack.pop_tos, hR, prevSlot_slotOf P.rasSize_pos, add_sub_cancel_right]

include h in
/-- Undoing a branch moves the index to where it was before the branch. -/
theorem undoRAS_tos (hundo : b.Undoable)
    (hR : R.tos = slotOf P.rasSize (x + b.effect)) : (undoRAS P R e).tos = slotOf P.rasSize x := by
  unfold undoRAS
  rcases h.cases with ⟨hused, hret, hdir, -⟩ | ⟨hused, hpushed, -, -, heffect⟩ |
    ⟨hused, hpushed, heffect⟩
  · rw [if_pos hused]
    exact h.rasIndex hret (hundo hret hdir)
  · rw [hused, hpushed, if_neg Bool.false_ne_true, if_pos rfl]
    rw [heffect] at hR
    exact pop_tos hR
  · rw [hused, hpushed, if_neg Bool.false_ne_true, if_neg Bool.false_ne_true, hR, heffect, add_zero]

include h in
theorem confirm (hd : b.direction = d) : Records P.rasSize x e (b.correct d) where
  __ := h
  usedRAS := by rw [h.usedRAS, hd]; rfl
  pushed := by rw [h.pushed, hd]; rfl

include h in
theorem correctRAS_true (hcor : b.Correctable true) (hR : R.tos = slotOf P.rasSize (x + b.effect)) :
    Records P.rasSize x (correctRAS P true R e).1 (b.correct true) ∧
      (correctRAS P true R e).2.tos = slotOf P.rasSize (x + (b.correct true).effect) := by
  unfold correctRAS
  rw [if_pos rfl]
  cases hd : b.direction with
  | true =>
    -- nothing changes: a return has been popped already
    have hskip : ¬ (e.wasReturn && !e.usedRAS) = true := by
      rw [h.wasReturn, h.usedRAS, hd, Bool.and_true, Bool.and_not_self]
      exact Bool.false_ne_true
    rw [if_neg hskip, effect_correct hd]
    exact ⟨h.confirm hd, hR⟩
  | false =>
    have hused : e.usedRAS = false := by rw [h.usedRAS, hd, Bool.and_false]
    have hcall : b.inst.isCall = false := by
      cases hc : b.inst.isCall with
      | false => rfl
      | true => exact absurd (hd.symm.trans (hcor hc)) Bool.noConfusion
    have hpushed : (e.wasCall && e.pushedRAS) = (b.inst.isCall && true) := by
      rw [h.pushed, hcall, Bool.false_and, Bool.false_and]
    have heffect : (b.correct true).effect = 0 - (if b.inst.isReturn then 1 else 0) := by
      rw [effect_of_direction direction_correct]
      change (if b.inst.isCall then (1 : ℤ) else 0) - _ = _
      rw [hcall]
      rfl
    rw [effect_of_not_direction hd, add_zero] at hR
    have hpop : (e.wasReturn && !e.usedRAS) = b.inst.isReturn := by
      rw [h.wasReturn, hused, Bool.not_false, Bool.and_true]
    rw [hpop, heffect]
    cases hret : b.inst.isReturn with
    | true =>
      rw [if_pos rfl, if_pos rfl]
      refine ⟨{ h with usedRAS := ?_, pushed := hpushed }, ?_⟩
      · rw [direction_correct, Bool.and_true]
        exact hret.symm
      · rw [ReturnAddrStack.pop_tos, hR, prevSlot_slotOf P.rasSize_pos, zero_sub, sub_eq_add_neg]
    | false =>
      rw [if_neg Bool.false_ne_true, if_neg Bool.false_ne_true, sub_zero, add_zero]
      refine ⟨{ h with usedRAS := ?_, pushed := hpushed }, hR⟩
      change e.usedRAS = (b.inst.isReturn && true)
      rw [hused, hret, Bool.false_and]

/-- The stack after a correction to "not taken" is the one after a squash. -/
theorem correctRAS_false_snd : (correctRAS P false R e).2 = undoRAS P R e := by
  unfold correctRAS undoRAS
  rw [if_neg Bool.false_ne_true]
  split
  · rfl
  · split
    · rfl
    · rfl

include h in
theorem correctRAS_false (hcor : b.Correctable false)
    (hR : R.tos = slotOf P.rasSize (x + b.effect)) :
    Records P.rasSize x (correctRAS P false R e).1 (b.correct false) ∧
      (correctRAS P false R e).2.tos = slotOf P.rasSize (x + (b.correct false).effect) := by
  constructor
  · unfold correctRAS
    rw [if_neg Bool.false_ne_true]
    rcases h.cases with ⟨hused, hret, -, -⟩ | ⟨hused, hpushed, _, -, -⟩ | ⟨hused, hpushed, -⟩
    · rw [if_pos hused]
      refine { h with usedRAS := ?_, pushed := ?_ }
      · rw [direction_correct, Bool.and_false]
      · change (e.wasCall && e.pushedRAS) = (b.inst.isCall && false)
        rw [h.pushed, h.isCall_of_isReturn hret, Bool.false_and, Bool.false_and]
    · rw [hused, hpushed, if_neg Bool.false_ne_true, if_pos rfl]
      refine { h with usedRAS := ?_, pushed := ?_ }
      · rw [direction_correct, Bool.and_false]
      · rw [direction_correct, Bool.and_false, Bool.and_false]
    · rw [hused, hpushed, if_neg Bool.false_ne_true, if_neg Bool.false_ne_true]
      refine { h with usedRAS := ?_, pushed := ?_ }
      · rw [direction_correct, Bool.and_false, hused]
      · rw [direction_correct, Bool.and_false, hpushed]
  · rw [correctRAS_false_snd, effect_of_not_direction direction_correct, add_zero]
    exact h.undoRAS_tos hcor hR

include h in
theorem correctRAS (hcor : b.Correctable actuallyTaken)
    (hR : R.tos = slotOf P.rasSize (x + b.effect)) :
    Records P.rasSize x (correctRAS P actuallyTaken R e).1 (b.correct actuallyTaken) ∧
      (correctRAS P actuallyTaken R e).2.tos =
      slotOf P.rasSize (x + (b.correct actuallyTaken).effect) := by
  cases actuallyTaken with
  | true => exact h.correctRAS_true hcor hR
  | false => exact h.correctRAS_false hcor hR

end Records

/-! ## Histories and the index -/

section Accounted

variable (n : ℕ) (known : PredictorHistory PCState η → Branch PCState) (x : ℤ)

/-- The index that the branches of a history give, from `x` on. -/
def index (hist : List (PredictorHistory PCState η)) : ℤ :=
  x + (hist.map fun e => (known e).effect).sum

/-- Every record of a history is right about the index before its branch. -/
def Accounted : List (PredictorHistory PCState η) → Prop
  | [] => True
  | e :: older => Records n (index known x older) e (known e) ∧ Accounted older

variable {n known x} {known' : PredictorHistory PCState η → Branch PCState} {P : Params}
  {e : PredictorHistory PCState η} {hist newer older : List (PredictorHistory PCState η)}
  {R : ReturnAddrStack PCState}

theorem index_cons : index known x (e :: older) = index known x older + (known e).effect := by
  unfold index
  rw [map_cons, sum_cons]
  ring

theorem index_append : index known x (newer ++ older) =
    index known (index known x older) newer := by
  unfold index
  rw [map_append, sum_append]
  ring

theorem index_congr (h : ∀ e ∈ hist, known' e = known e) :
    index known' x hist = index known x hist := by
  unfold index
  rw [map_congr_left fun e he => congrArg effect (h e he)]

theorem Accounted.congr (h : ∀ e ∈ hist, known' e = known e) (hist_ok : Accounted n known x hist) :
    Accounted n known' x hist := by
  induction hist with
  | nil => trivial
  | cons e older ih =>
    have holder : ∀ f ∈ older, known' f = known f := fun f hf => h f (mem_cons_of_mem e hf)
    refine ⟨?_, ih holder hist_ok.2⟩
    rw [index_congr holder, h e mem_cons_self]
    exact hist_ok.1

theorem accounted_append :
    Accounted n known x (newer ++ older) ↔
      Accounted n known (index known x older) newer ∧ Accounted n known x older := by
  induction newer with
  | nil => exact ⟨fun h => ⟨trivial, h⟩, fun h => h.2⟩
  | cons e newer ih =>
    change Records n (index known x (newer ++ older)) e (known e) ∧
      Accounted n known x (newer ++ older) ↔ (_ ∧ _) ∧ _
    rw [ih, index_append, and_assoc]

/-- Undoing the younger part of a history, the youngest branch first. -/
theorem Accounted.foldl_undoRAS (h : Accounted P.rasSize known x (newer ++ older))
    (hundo : ∀ e ∈ newer, (known e).Undoable)
    (hR : R.tos = slotOf P.rasSize (index known x (newer ++ older))) :
    (newer.foldl (undoRAS P) R).tos = slotOf P.rasSize (index known x older) := by
  induction newer generalizing R with
  | nil => exact hR
  | cons e newer ih =>
    have hrecord : Records P.rasSize (index known x (newer ++ older)) e (known e) := h.1
    have hstep : (undoRAS P R e).tos = slotOf P.rasSize (index known x (newer ++ older)) := by
      apply hrecord.undoRAS_tos (hundo e mem_cons_self)
      rw [hR, cons_append, index_cons]
    exact ih h.2 (fun f hf => hundo f (mem_cons_of_mem e hf)) hstep

end Accounted

/-! ## Sessions -/

namespace BPredSession

variable (S : BPredSession PCState σ η)

/-- The branches that have not been squashed, the youngest one first. -/
def survivors (tid : ℕ) : List (Branch PCState) :=
  (S.unit.predHist tid).map (S.branchOf tid) ++ (S.retired tid).map Prod.fst

/-- The index is the one that the surviving branches give, from `base` on. -/
def Restored (n : ℕ) (base : ℕ → ℕ) : Prop :=
  ∀ tid, (S.unit.ras tid).tos = slotOf n (base tid + ((S.survivors tid).map effect).sum)

/-- No instruction is both a call and a return, no call is corrected to "taken" that is not on the
stack, and no return is undone after such a correction. -/
def Repairable : BPredCall PCState → Prop
  | .predict inst _ _ _ _ => inst.isCall = true → inst.isReturn = false
  | .squash squashedSn tid => ∀ e ∈ S.unit.squashed squashedSn tid, (S.branchOf tid e).Undoable
  | .squashCorrective squashedSn _ actuallyTaken tid _ =>
    (∀ e ∈ S.unit.squashed squashedSn tid, (S.branchOf tid e).Undoable) ∧
      ∀ e ∈ S.unit.predHist tid, e.seqNum = squashedSn →
      (S.branchOf tid e).Correctable actuallyTaken
  | .update _ _ => True

instance (c : BPredCall PCState) : Decidable (S.Repairable c) :=
  match c with
  | .predict .. => inferInstanceAs (Decidable (_ → _))
  | .squash squashedSn tid => inferInstanceAs (Decidable (∀ e ∈ S.unit.squashed squashedSn tid, _))
  | .squashCorrective squashedSn _ _ tid _ =>
    inferInstanceAs (Decidable ((∀ e ∈ S.unit.squashed squashedSn tid, _) ∧
      ∀ e ∈ S.unit.predHist tid, _ → _))
  | .update _ _ => isTrue trivial

/-- The index that the committed branches give. -/
def committedIndex (base : ℕ → ℕ) (tid : ℕ) : ℤ :=
  base tid + ((S.retired tid).map fun r => r.1.effect).sum

structure Agree (n : ℕ) (known : PredictorHistory PCState η → Branch PCState) (x : ℤ)
    (R : ReturnAddrStack PCState) (hist : List (PredictorHistory PCState η)) : Prop where
  tos : R.tos = slotOf n (index known x hist)
  accounted : Accounted n known x hist

structure Stacks (n : ℕ) (base : ℕ → ℕ) : Prop where
  ordered : S.Ordered
  agree : ∀ tid, Agree n (S.branchOf tid) (S.committedIndex base tid) (S.unit.ras tid)
    (S.unit.predHist tid)

variable {S} {S' : BPredSession PCState σ η} {isa : Isa PCState} {D : DirectionPredictor σ η}
  {P : Params} {base : ℕ → ℕ} {c : BPredCall PCState}

theorem Agree.congr {known known' : PredictorHistory PCState η → Branch PCState} {x : ℤ}
    {R : ReturnAddrStack PCState} {hist : List (PredictorHistory PCState η)}
    (h : Agree n known x R hist) (heq : ∀ e ∈ hist, known' e = known e) :
    Agree n known' x R hist where
  tos := by
    rw [index_congr heq]
    exact h.tos
  accounted := h.accounted.congr heq

theorem Stacks.restored (h : S.Stacks n base) : S.Restored n base := by
  intro tid
  rw [(h.agree tid).tos]
  unfold index committedIndex survivors
  rw [map_append, sum_append, map_map, map_map]
  refine congrArg (slotOf n) ?_
  change (_ + ((S.retired tid).map (effect ∘ Prod.fst)).sum) +
    ((S.unit.predHist tid).map (effect ∘ S.branchOf tid)).sum = _
  ring

theorem Idle.stacks (h : S.Idle) (htos : ∀ tid, (S.unit.ras tid).tos < P.rasSize) :
    S.Stacks P.rasSize fun tid => (S.unit.ras tid).tos where
  ordered := h.ordered
  agree tid := by
    rw [(h tid).1]
    refine ⟨?_, trivial⟩
    unfold index committedIndex
    rw [(h tid).2, map_nil, sum_nil, map_nil, sum_nil, add_zero, add_zero]
    exact (slotOf_natCast (htos tid)).symm

section Stacks

variable (h : S.Stacks P.rasSize base)
include h

theorem Stacks.predict {inst : StaticInst} {seqNum : ℕ} {pc : PCState}
    {actual : Bool × PCState} (hin : ∀ e ∈ S.unit.predHist tid, e.seqNum < seqNum)
    (hboth : inst.isCall = true → inst.isReturn = false) (t : ℕ) :
    Agree P.rasSize ((S.predict isa D P inst seqNum pc tid actual).branchOf t)
      (S.committedIndex base t) ((S.unit.predict isa D P inst seqNum pc tid).2.ras t)
      ((S.unit.predict isa D P inst seqNum pc tid).2.predHist t) := by
  rcases S.unit.predict_spec isa D P inst pc tid seqNum with ⟨e, he⟩
  rw [he.hist]
  by_cases ht : t = tid
  · subst ht
    rw [update_self]
    let b : Branch PCState :=
      ⟨inst, pc, S.unit.looked isa D inst pc t, S.unit.found isa D P inst seqNum pc t,
        (S.unit.predict isa D P inst seqNum pc t).1, actual, none⟩
    have hnew : (S.predict isa D P inst seqNum pc t actual).branchOf t e = b :=
      branchOf_setBranch_self he.seqNum
    have hold : ∀ f ∈ S.unit.predHist t,
        (S.predict isa D P inst seqNum pc t actual).branchOf t f = S.branchOf t f := fun f hf =>
      branchOf_setBranch_of_ne (.inr (Nat.ne_of_lt (hin f hf)))
    -- a return that is predicted taken has a target
    have hlooked : b.inst.isReturn = true → b.looked = true → b.direction = true := by
      intro hret hlook
      have htaken : (S.unit.predict isa D P inst seqNum pc t).1.1 = true := by
        rw [he.taken, found_of_isReturn hret, Bool.and_true]
        exact hlook
      change (inst.isUncondCtrl || (S.unit.predict isa D P inst seqNum pc t).1.1) = true
      rw [htaken, Bool.or_true]
    have hagree := h.agree t
    rcases Records.of_stacked he.stacked hboth hlooked hagree.tos with ⟨hrecord, htos⟩
    refine ⟨?_, ?_, hagree.accounted.congr hold⟩
    · rw [index_cons, index_congr hold, hnew]
      exact htos
    · rw [index_congr hold, hnew]
      exact hrecord
  · rw [update_of_ne ht, he.stacked.others t ht]
    exact (h.agree t).congr fun f _ => branchOf_setBranch_of_ne (.inl ht)

theorem Stacks.squash
    (hundo : ∀ e ∈ S.unit.squashed squashedSn tid, (S.branchOf tid e).Undoable) (t : ℕ) :
    Agree P.rasSize (S.branchOf t) (S.committedIndex base t)
      ((S.unit.squash D P squashedSn tid).ras t)
      ((S.unit.squash D P squashedSn tid).predHist t) := by
  change Agree _ _ _ (Function.update S.unit.ras tid _ t) (Function.update S.unit.predHist tid _ t)
  by_cases ht : t = tid
  · subst ht
    rw [update_self, update_self]
    have hparts : S.unit.squashed squashedSn t ++ (S.unit.predHist t).dropWhile
        (squashedSn < ·.seqNum) = S.unit.predHist t := takeWhile_append_dropWhile
    have htos := (h.agree t).tos
    have haccounted := (h.agree t).accounted
    rw [← hparts] at htos haccounted
    exact ⟨haccounted.foldl_undoRAS hundo htos, (accounted_append.1 haccounted).2⟩
  · rw [update_of_ne ht, update_of_ne ht]
    exact h.agree t

theorem Stacks.correct {random : ℕ} {corrTarget : PCState} {U : BPredUnit PCState σ η}
    (hrep : S.Repairable (.squashCorrective squashedSn corrTarget actuallyTaken tid random))
    (hU : S.unit.squashCorrective isa D P squashedSn corrTarget actuallyTaken tid random = some U)
    (t : ℕ) :
    Agree P.rasSize ((S.correct squashedSn actuallyTaken tid U).branchOf t)
      (S.committedIndex base t) (U.ras t) (U.predHist t) := by
  have hsquash := h.squash (D := D) hrep.1
  rcases squashCorrective_cases hU with ⟨hnil, rfl⟩ | ⟨e, older, bpHist, hseq, hcor⟩
  · refine (hsquash t).congr fun f hf => branchOf_setBranch_of_ne (.inl ?_)
    rintro rfl
    rw [hnil] at hf
    exact absurd hf not_mem_nil
  · rw [hcor.hist, hcor.ras]
    by_cases ht : t = tid
    · subst ht
      rw [update_self, update_self]
      have hagree := hsquash t
      rw [hcor.front] at hagree
      have htos := hagree.tos
      rw [index_cons] at htos
      have hrecord : Records P.rasSize (index (S.branchOf t) (S.committedIndex base t) older)
          { e with predTaken := actuallyTaken, bpHistory := bpHist } (S.branchOf t e) := by
        have he := hagree.accounted.1
        exact { he with }
      have hmem : e ∈ S.unit.predHist t := by
        have he : e ∈ (S.unit.squash D P squashedSn t).predHist t := by
          rw [hcor.front]
          exact mem_cons_self
        change e ∈ Function.update S.unit.predHist t _ t at he
        rw [update_self] at he
        exact (dropWhile_sublist _).subset he
      have hfixed := hrecord.correctRAS (hrep.2 e hmem hseq) htos
      have hsame : (correctRAS P actuallyTaken ((S.unit.squash D P squashedSn t).ras t)
          { e with predTaken := actuallyTaken, bpHistory := bpHist }).1.seqNum = squashedSn := by
        rw [correctRAS_seqNum]
        exact hseq
      have hnew : ∀ f : PredictorHistory PCState η, f.seqNum = squashedSn →
          (S.correct squashedSn actuallyTaken t U).branchOf t f =
          (S.branchOf t e).correct actuallyTaken := by
        intro f hf
        change (S.setBranch t squashedSn _).branchOf t f = _
        rw [branchOf_setBranch_self hf, ← hseq]
        rfl
      have hold : ∀ f ∈ older, (S.correct squashedSn actuallyTaken t U).branchOf t f =
          S.branchOf t f := by
        intro f hf
        apply branchOf_setBranch_of_ne
        rw [← hseq]
        exact .inr (Nat.ne_of_lt ((h.ordered.front hcor.front).1 f hf))
      refine ⟨?_, ?_, hagree.accounted.2.congr hold⟩
      · rw [index_cons, index_congr hold, hnew _ hsame]
        exact hfixed.2
      · rw [index_congr hold, hnew _ hsame]
        exact hfixed.1
    · rw [update_of_ne ht, update_of_ne ht]
      exact (hsquash t).congr fun f _ => branchOf_setBranch_of_ne (.inl ht)

theorem Stacks.update {doneSn : ℕ} (t : ℕ) :
    Agree P.rasSize (S.branchOf t) ((S.update D P doneSn tid).committedIndex base t) (S.unit.ras t)
      ((S.unit.update D P doneSn tid).predHist t) := by
  change Agree _ _ (_ + ((Function.update S.retired tid _ t).map _).sum) _
    (Function.update S.unit.predHist tid _ t)
  by_cases ht : t = tid
  · subst ht
    rw [update_self, update_self]
    have hparts : (S.unit.predHist t).rdropWhile (·.seqNum ≤ doneSn) ++ S.unit.committed doneSn t =
        S.unit.predHist t := rdropWhile_append_rtakeWhile
    -- the committed branches move from the history into the index before it
    have hbase :
        (base t : ℤ) + (((S.unit.committed doneSn t).map (fun e => (S.branchOf t e, e.predTaken))
          ++ S.retired t).map fun r => r.1.effect).sum =
        index (S.branchOf t) (S.committedIndex base t) (S.unit.committed doneSn t) := by
      unfold index committedIndex
      rw [map_append, sum_append, map_map]
      change _ + (((S.unit.committed doneSn t).map fun e => (S.branchOf t e).effect).sum + _) = _
      ring
    have htos := (h.agree t).tos
    have haccounted := (h.agree t).accounted
    rw [← hparts] at htos haccounted
    rw [hbase]
    refine ⟨?_, (accounted_append.1 haccounted).1⟩
    rw [← index_append]
    exact htos
  · rw [update_of_ne ht, update_of_ne ht]
    exact h.agree t

theorem Stacks.step (hin : S.InOrder c) (hrep : S.Repairable c)
    (hS : S.step isa D P c = some S') : S'.Stacks P.rasSize base := by
  refine ⟨h.ordered.step hin hS, ?_⟩
  cases c with
  | predict inst seqNum pc tid actual =>
    cases hS
    exact h.predict hin hrep
  | squash squashedSn tid =>
    cases hS
    exact h.squash hrep
  | squashCorrective squashedSn corrTarget actuallyTaken tid random =>
    rcases Option.map_eq_some_iff.1 hS with ⟨U, hU, rfl⟩
    exact h.correct hrep hU
  | update doneSn tid =>
    cases hS
    exact h.update

end Stacks

/-- In every run with growing sequence numbers whose calls are repairable, the index is always the
one that the surviving branches give. -/
theorem ras_restored (isa : Isa PCState) (D : DirectionPredictor σ η) (P : Params)
    (S : BPredSession PCState σ η) (hS : S.Idle) (htos : ∀ tid, (S.unit.ras tid).tos < P.rasSize)
    (calls : List (BPredCall PCState)) (horder : Throughout (step isa D P) InOrder S calls)
    (hrep : Throughout (step isa D P) Repairable S calls) :
    Always (step isa D P) (fun T => T.Restored P.rasSize fun tid => (S.unit.ras tid).tos) S
    calls := by
  exact Always.of_throughout (fun _ => Stacks.restored)
    (fun _ _ _ hT hc => Stacks.step hT hc.1 hc.2) (hS.stacks htos) (horder.and hrep)

/-- A call, a return that is popped, put back and popped again, and another call on the wrong
path. -/
def correctedReturn : List (BPredCall ℕ) :=
  [.predict { isUncondCtrl := true, isCall := true, isDirectCtrl := true } 1 16 0 (true, 64),
    .predict { isReturn := true } 2 64 0 (true, 20), .squashCorrective 2 68 false 0 0,
    .squashCorrective 2 20 true 0 0,
    .predict { isCall := true, isDirectCtrl := true } 3 20 0 (false, 24), .squash 1 0, .update 1 0]

theorem ras_restored_corrected :
    Throughout (step fourByteIsa (constantly true) smallParams) Repairable (start fourByteIsa ())
      correctedReturn ∧ Always (step fourByteIsa (constantly true) smallParams)
      (fun T => T.Restored 4 fun _ => 0) (start fourByteIsa ())
        correctedReturn :=
  ⟨by decide, ras_restored fourByteIsa (constantly true) smallParams _ (start_idle fourByteIsa ())
    (fun _ => smallParams.rasSize_pos) _ (by decide) (by decide)⟩

/-- A conditional call that is predicted not taken, and corrected. -/
def correctedCall : List (BPredCall ℕ) :=
  [.predict { isCall := true, isDirectCtrl := true } 1 16 0 (true, 64),
    .squashCorrective 1 64 true 0 0, .squash 1 0]

/-- A return that is predicted not taken, corrected, and squashed. The call before it stays. -/
def squashedReturn : List (BPredCall ℕ) :=
  [.predict { isUncondCtrl := true, isCall := true, isDirectCtrl := true } 1 16 0 (true, 64),
    .predict { isReturn := true } 2 20 0 (true, 20), .squashCorrective 2 20 true 0 0, .squash 1 0]

/-- The first leaves the index at 0 instead of 1 because the call is not pushed, the second because
the return has no index to go back to. -/
theorem index_not_restored :
    (Throughout (step fourByteIsa (constantly false) smallParams) InOrder (start fourByteIsa ())
      correctedCall ∧ ¬ Always (step fourByteIsa (constantly false) smallParams)
        (fun T => T.Restored 4 fun _ => 0) (start fourByteIsa ()) correctedCall) ∧
    (Throughout (step fourByteIsa (constantly false) smallParams) InOrder (start fourByteIsa ())
      squashedReturn ∧ ¬ Always (step fourByteIsa (constantly false) smallParams)
        (fun T => T.Restored 4 fun _ => 0) (start fourByteIsa ()) squashedReturn) := by
  refine ⟨⟨by decide, fun h => ?_⟩, by decide, fun h => ?_⟩
  · have hzero := h.last rfl 0
    exact absurd hzero (by decide)
  · have hzero := h.last rfl 0
    exact absurd hzero (by decide)

end BPredSession

end EnocGem5.Pred
