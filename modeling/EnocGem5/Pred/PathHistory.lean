import EnocGem5.Lib.Run
import EnocGem5.Pred.Targets

/-!
# PathHistory — how long the path of the indirect predictor gets

`commit` looks at one entry of the path, however many branches it retires, and drops one at most.
-/

namespace EnocGem5.Pred

open Lib List

inductive PathCall
  | recordIndirect (brAddr tgtAddr seqNum : ℕ)
  | commit (seqNum : ℕ)
  | squash (seqNum : ℕ)

namespace IndirectPredictor

variable {PCState : Type} (cfg : IndirectConfig) (tid : ℕ) (I : IndirectPredictor PCState)

def pathStep : PathCall → Option (IndirectPredictor PCState)
  | .recordIndirect brAddr tgtAddr seqNum => some (I.recordIndirect brAddr tgtAddr seqNum tid)
  | .commit seqNum => some (I.commit cfg seqNum tid)
  | .squash seqNum => some (I.squash seqNum tid)

/-- The entries of a thread's path that are not above a sequence number. -/
def retired (seqNum : ℕ) : ℕ :=
  (I.threadInfo tid).pathHist.countP (·.seqNum ≤ seqNum)

/-- Branches are recorded in the order of their sequence numbers. -/
def InOrder : PathCall → Prop
  | .recordIndirect _ _ seqNum => ∀ e ∈ (I.threadInfo tid).pathHist, e.seqNum < seqNum
  | _ => True

instance : ∀ c, Decidable (I.InOrder tid c)
  | .recordIndirect .. => inferInstanceAs (Decidable (∀ e ∈ _, _))
  | .commit _ | .squash _ => .isTrue trivial

/-- Right after `commit` at most `pathLength` entries of the path are retired. -/
def Bounded : PathCall → Prop
  | .commit seqNum => (I.commit cfg seqNum tid).retired tid seqNum ≤ cfg.pathLength
  | _ => True

instance : ∀ c, Decidable (I.Bounded cfg tid c)
  | .commit _ => inferInstanceAs (Decidable (_ ≤ _))
  | .recordIndirect .. | .squash _ => .isTrue trivial

/-- Before `commit` at most `pathLength` entries are retired, or one more that the head index has
come to. -/
def OneToDrop : PathCall → Prop
  | .commit seqNum => I.retired tid seqNum ≤ cfg.pathLength ∨
      (I.retired tid seqNum = cfg.pathLength + 1 ∧
      (I.threadInfo tid).headHistEntry = cfg.pathLength)
  | _ => True

instance : ∀ c, Decidable (I.OneToDrop cfg tid c)
  | .commit _ => inferInstanceAs (Decidable (_ ∨ _))
  | .recordIndirect .. | .squash _ => .isTrue trivial

variable {cfg tid I} {seqNum : ℕ}

variable (cfg tid I seqNum) in
/-- `commit` finds no retired entry at the head index, or it drops the first entry or moves the head
index. -/
theorem commit_cases :
    let info := I.threadInfo tid
    let info' := (I.commit cfg seqNum tid).threadInfo tid
    (info' = info ∧ ∀ e ∈ info.pathHist[info.headHistEntry]?, seqNum < e.seqNum) ∨
      (∃ e ∈ info.pathHist, e.seqNum ≤ seqNum) ∧
        (cfg.pathLength ≤ info.headHistEntry ∧
          info' = { info with pathHist := info.pathHist.tail } ∨
          info.headHistEntry < cfg.pathLength ∧
          info' = { info with headHistEntry := info.headHistEntry + 1 }) := by
  dsimp only
  cases hentry : (I.threadInfo tid).pathHist[(I.threadInfo tid).headHistEntry]? with
  | none => exact .inl ⟨by simp [commit, hentry], nofun⟩
  | some e =>
    by_cases hold : e.seqNum ≤ seqNum
    · refine .inr ⟨⟨e, mem_of_getElem? hentry, hold⟩, ?_⟩
      by_cases hfull : cfg.pathLength ≤ (I.threadInfo tid).headHistEntry
      · exact .inl ⟨hfull, by simp [commit, hentry, hold, hfull, setInfo]⟩
      · exact .inr ⟨by omega, by simp [commit, hentry, hold, hfull, setInfo]⟩
    · exact .inl ⟨by simp [commit, hentry, hold], by simpa using hold⟩

structure PathInv (cfg : IndirectConfig) (info : PathInfo) : Prop where
  sorted : info.pathHist.Pairwise (·.seqNum < ·.seqNum)
  head : info.headHistEntry ≤ cfg.pathLength

/-- Before an entry that is not retired there are all retired ones. -/
theorem countP_le_of_sorted {path : List PathEntry} (hsorted : path.Pairwise (·.seqNum < ·.seqNum))
    {n : ℕ} (hn : ∀ e ∈ path[n]?, seqNum < e.seqNum) : path.countP (·.seqNum ≤ seqNum) ≤ n := by
  induction path generalizing n with
  | nil => exact Nat.zero_le n
  | cons e path ih =>
    rcases pairwise_cons.1 hsorted with ⟨hfirst, hsorted⟩
    cases n with
    | zero =>
      have he : seqNum < e.seqNum := hn e rfl
      rw [Nat.le_zero, countP_eq_zero]
      refine forall_mem_cons.2 ⟨by simpa using he, fun e' he' => ?_⟩
      simpa using he.trans (hfirst e' he')
    | succ n =>
      have hrest := ih hsorted hn
      rw [countP_cons]
      split_ifs <;> omega

theorem commit_bounded_iff (h : PathInv cfg (I.threadInfo tid)) :
    I.Bounded cfg tid (.commit seqNum) ↔ I.OneToDrop cfg tid (.commit seqNum) := by
  have hhead := h.head
  have hcases := commit_cases cfg tid I seqNum
  dsimp only at hcases
  unfold Bounded OneToDrop retired
  dsimp only
  rcases hcases with ⟨hsame, hentry⟩ | ⟨⟨e, he, hold⟩, ⟨hfull, htail⟩ | ⟨hlt, hnext⟩⟩
  -- the head index has passed every retired entry
  · have hretired := countP_le_of_sorted h.sorted hentry
    rw [hsame]
    omega
  · rw [htail]
    have hsorted := h.sorted
    cases hpath : (I.threadInfo tid).pathHist with
    | nil => simp [hpath] at he
    | cons first rest =>
      rw [hpath] at he hsorted
      -- the entry that is dropped is older than the one `commit` looked at
      have hfirst : first.seqNum ≤ seqNum := by
        rcases mem_cons.1 he with rfl | hmem
        · exact hold
        · exact ((pairwise_cons.1 hsorted).1 e hmem).le.trans hold
      simp only [tail_cons, countP_cons, hfirst, decide_true, if_true]
      omega
  -- an index below `pathLength` moves and nothing is dropped
  · rw [hnext]
    dsimp only
    omega

theorem pathInv_step {c : PathCall} {I' : IndirectPredictor PCState}
    (h : PathInv cfg (I.threadInfo tid)) (hc : I.InOrder tid c)
    (hstep : I.pathStep cfg tid c = some I') : PathInv cfg (I'.threadInfo tid) := by
  cases c with
  | recordIndirect brAddr tgtAddr seqNum =>
    cases hstep
    simp only [recordIndirect, setInfo, Function.update_self]
    exact ⟨pairwise_append.2 ⟨h.sorted, pairwise_singleton ..,
      fun e he => forall_mem_singleton.2 (hc e he)⟩, h.head⟩
  | commit seqNum =>
    cases hstep
    rcases commit_cases cfg tid I seqNum with ⟨hsame, -⟩ | ⟨-, ⟨-, htail⟩ | ⟨hlt, hnext⟩⟩
    · exact hsame ▸ h
    · rw [htail]
      exact ⟨h.sorted.tail, h.head⟩
    · rw [hnext]
      exact ⟨h.sorted, hlt⟩
  | squash seqNum =>
    cases hstep
    simp only [squash, setInfo, Function.update_self]
    exact ⟨h.sorted.sublist (takeWhile_sublist _), h.head⟩

/-- The path is bounded right after every `commit` exactly when no `commit` retires more than one
entry too many. -/
theorem bounded_iff_oneToDrop (calls : List PathCall) (targetCache : ℕ → ℕ → IPredEntry PCState)
    (horder : Throughout (pathStep cfg tid) (InOrder tid) { targetCache } calls) :
    Throughout (pathStep cfg tid) (Bounded cfg tid) { targetCache } calls ↔
      Throughout (pathStep cfg tid) (OneToDrop cfg tid) { targetCache } calls := by
  generalize hI : ({ targetCache } : IndirectPredictor PCState) = I at horder ⊢
  have h : PathInv cfg (I.threadInfo tid) := hI ▸ ⟨.nil, Nat.zero_le _⟩
  clear hI
  induction calls generalizing I with
  | nil => exact Iff.rfl
  | cons c calls ih =>
    refine forall₂_congr fun I' hI' => ?_
    rcases horder I' hI' with ⟨hc, hrest⟩
    refine and_congr ?_ (ih I' hrest (pathInv_step h hc hI'))
    cases c with
    | commit seqNum => exact commit_bounded_iff h
    | _ => exact Iff.rfl

/-- An empty predictor whose paths keep one branch. -/
def shortPath : IndirectConfig := ⟨false, false, 1, 1, 1, 1, 0⟩

def noTargets : IndirectPredictor ℕ := { targetCache := fun _ _ => ⟨0, 0⟩ }

theorem retiresTwo_bounded :
    let calls := [PathCall.recordIndirect 0 0 1, .recordIndirect 0 0 2, .commit 1, .commit 2]
    Throughout (pathStep shortPath 0) (InOrder 0) noTargets calls ∧
      Throughout (pathStep shortPath 0) (Bounded shortPath 0) noTargets calls :=
  ⟨by decide, (bounded_iff_oneToDrop _ _ (by decide)).2 (by decide)⟩

/-- Three branches are retired by one `commit`. -/
theorem retiresThree_unbounded :
    let calls := [PathCall.recordIndirect 0 0 1, .recordIndirect 0 0 2, .recordIndirect 0 0 3,
      .commit 3]
    Throughout (pathStep shortPath 0) (InOrder 0) noTargets calls ∧
      ¬ Throughout (pathStep shortPath 0) (Bounded shortPath 0) noTargets calls := by
  decide

end IndirectPredictor
end EnocGem5.Pred
