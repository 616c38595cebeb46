import EnocGem5.Lib.Run

/-!
# ROB — the squash walk of the reorder buffer

`squash` starts a walk over the instructions of a thread, from the youngest one to the oldest one. A
call of `doSquash` goes on where the last one stopped and marks at most `squashWidth` instructions;
a new `squash` starts again. The list is kept in the order of the walk, and the iterator is the
number of instructions that are behind it.

The walk marks the first instructions of the list and nothing else.
-/

namespace EnocGem5.O3

open Lib List Option

structure RobInst where
  seqNum : ℕ
  squashed : Bool := false
  canCommit : Bool := false
  deriving DecidableEq, Repr

/-- `setSquashed` and `setCanCommit`. -/
def RobInst.mark (inst : RobInst) : RobInst := { inst with squashed := true, canCommit := true }

/-- One thread of the reorder buffer, its youngest instruction first; `none` is the end iterator. -/
structure ROB where
  instList : List RobInst := []
  squashIt : Option ℕ := none
  squashedSeqNum : ℕ := 0
  doneSquashing : Bool := true
  deriving DecidableEq, Repr

namespace ROB

/-- The instruction at the iterator; `none` if that is the end. -/
def squashInst (R : ROB) : Option (ℕ × RobInst) :=
  R.squashIt.bind fun i => R.instList[i]?.map (i, ·)

def finish (R : ROB) : ROB := { R with squashIt := none, doneSquashing := true }

def checkDone (R : ROB) : Option ROB :=
  R.squashInst.map fun x => if x.2.seqNum ≤ R.squashedSeqNum then R.finish else R

/-- The loop of `doSquash` for at most `n` more instructions, and the check after it. -/
def squashLoop (R : ROB) : ℕ → Option ROB
  | 0 => R.checkDone
  | n + 1 => R.squashInst.bind fun x =>
    if x.2.seqNum > R.squashedSeqNum then
      let R := { R with instList := R.instList.set x.1 x.2.mark }
      if x.1 + 1 = R.instList.length then some R.finish
        else squashLoop { R with squashIt := some (x.1 + 1) } n
    else R.checkDone

/-- `doSquash`, but for `updateTail`, which moves an iterator that squashing does not read. -/
def doSquash (squashWidth : ℕ) (R : ROB) : Option ROB :=
  -- the assertion: the iterator is not the end
  if R.squashIt = none then none else R.squashInst.bind fun x =>
    if x.2.seqNum < R.squashedSeqNum then some R.finish else R.squashLoop squashWidth

def squash (squashWidth squash_num : ℕ) (R : ROB) : Option ROB :=
  if R.instList = [] then some R
  else doSquash squashWidth { R with
    doneSquashing := false, squashedSeqNum := squash_num, squashIt := some 0 }

/-! ## The walk -/

/-- The list with its first `j` instructions marked. -/
def markFirst (j : ℕ) (l : List RobInst) : List RobInst :=
  l.mapIdx fun i a => if i < j then a.mark else a

/-- The first `j` of the instructions `l` are marked for the number `last`: the walk is among them,
or it is done and they are all that are younger. -/
inductive Walking (l : List RobInst) (j : ℕ) : Option ℕ → ROB → Prop
  | walk {k num : ℕ} (hk : k < l.length) (hkj : k ≤ j)
    (hyoung : ∀ i a, i < j → l[i]? = some a → num < a.seqNum) :
    Walking l j (some num) ⟨markFirst j l, some k, num, false⟩
  | done {last : Option ℕ} {num : ℕ}
    (hyoung : ∀ i a, l[i]? = some a → (i < j ↔ ∃ n ∈ last, n < a.seqNum)) :
    Walking l j last ⟨markFirst j l, none, num, true⟩

variable {l : List RobInst} {j k n num : ℕ}

theorem getElem?_markFirst (j : ℕ) (l : List RobInst) (p : ℕ) :
    (markFirst j l)[p]? = l[p]?.map fun a => if p < j then a.mark else a :=
  getElem?_mapIdx

/-- The walk over the first `k` instructions reaches one more. -/
theorem markFirst_set (hkj : k ≤ j) (hk : k < l.length) :
    (markFirst j l).set k (if k < j then l[k].mark else l[k]).mark =
    markFirst (max j (k + 1)) l := by
  apply ext_getElem?
  intro p
  rcases eq_or_ne k p with rfl | hne
  · rw [getElem?_set_self (by simpa [markFirst] using hk), getElem?_markFirst,
      getElem?_eq_getElem hk]
    split <;> simp [RobInst.mark]
  · have hmax : p < j ↔ p < max j (k + 1) := by omega
    simp only [getElem?_set_ne hne, getElem?_markFirst, hmax]

theorem squashInst_eq (hk : k < l.length) :
    squashInst ⟨markFirst j l, some k, num, false⟩ =
    some (k, if k < j then l[k].mark else l[k]) := by
  rw [squashInst, bind_some, getElem?_markFirst, getElem?_eq_getElem hk]
  rfl

theorem seqNum_mark {P : Prop} [Decidable P] (a : RobInst) :
    (if P then a.mark else a).seqNum = a.seqNum := by
  split <;> rfl

variable (hsorted : l.Pairwise (·.seqNum > ·.seqNum)) (hk : k < l.length) (hkj : k ≤ j)
  (hyoung : ∀ i a, i < j → l[i]? = some a → num < a.seqNum)

include hsorted hk hkj hyoung

/-- Behind an instruction that is not younger there are only older ones. -/
theorem Walking.finish (hold : l[k].seqNum ≤ num) :
    Walking l j (some num) (finish ⟨markFirst j l, some k, num, false⟩) := by
  refine .done fun i a ha => ⟨fun hi => ⟨num, rfl, hyoung i a hi ha⟩, ?_⟩
  rintro ⟨_, ⟨⟩, hlt⟩
  obtain ⟨hi, rfl⟩ := List.getElem?_eq_some_iff.1 ha
  by_contra hij
  rcases eq_or_lt_of_le (hkj.trans (not_lt.1 hij)) with rfl | hki
  · omega
  · have holder := pairwise_iff_getElem.1 hsorted k i hk hi hki
    omega

theorem checkDone_walking :
    ∃ R, checkDone ⟨markFirst j l, some k, num, false⟩ = some R ∧ Walking l j (some num) R ∧
      (R.doneSquashing = true ∨ (R.squashIt = some k ∧ num < l[k].seqNum)) := by
  by_cases hold : l[k].seqNum ≤ num
  · exact ⟨_, by simp [checkDone, squashInst_eq hk, seqNum_mark, hold],
      .finish hsorted hk hkj hyoung hold, .inl rfl⟩
  · exact ⟨_, by simp [checkDone, squashInst_eq hk, seqNum_mark, hold],
      .walk hk hkj hyoung, .inr ⟨rfl, not_le.1 hold⟩⟩

theorem squashLoop_walking : ∃ R j', squashLoop ⟨markFirst j l, some k, num, false⟩ n = some R ∧
    Walking l j' (some num) R ∧ j ≤ j' ∧ j' ≤ max j (k + n) ∧
    (R.doneSquashing = true ∨ R.squashIt = some (k + n)) := by
  induction n generalizing j k with
  | zero =>
    rcases checkDone_walking hsorted hk hkj hyoung with ⟨R, hR, hwalk, hnext⟩
    exact ⟨R, j, hR, hwalk, le_rfl, le_max_left _ _, hnext.imp_right And.left⟩
  | succ n ih =>
    rw [squashLoop, squashInst_eq hk, bind_some]
    simp only [seqNum_mark, gt_iff_lt, markFirst_set hkj hk]
    by_cases hlt : num < l[k].seqNum
    · rw [if_pos hlt]
      have hyoung' : ∀ i a, i < max j (k + 1) → l[i]? = some a → num < a.seqNum := by
        intro i a hi ha
        rcases eq_or_ne i k with rfl | hne
        · exact some.inj ((getElem?_eq_getElem hk).symm.trans ha) ▸ hlt
        · exact hyoung i a (by omega) ha
      have hlength : (markFirst (max j (k + 1)) l).length = l.length := length_mapIdx
      split
      next hlast =>
        -- the oldest instruction is younger than the number, and so are all
        refine ⟨_, _, rfl, .done fun i a ha => ?_, le_max_left _ _, by omega, .inl rfl⟩
        have hi : i < l.length := (List.getElem?_eq_some_iff.1 ha).1
        have hij : i < max j (k + 1) := by omega
        exact iff_of_true hij ⟨num, rfl, hyoung' i a hij ha⟩
      next hlast =>
        rcases ih (k := k + 1) (by omega) (le_max_right _ _) hyoung' with
          ⟨R, j', hR, hwalk, hle, hle', hnext⟩
        exact ⟨R, j', hR, hwalk, by omega, by omega, add_right_comm k 1 n ▸ hnext⟩
    · rw [if_neg hlt]
      rcases checkDone_walking hsorted hk hkj hyoung with ⟨R, hR, hwalk, hnext⟩
      exact ⟨R, j, hR, hwalk, le_rfl, le_max_left _ _,
        hnext.imp_right fun hyoung => absurd hyoung.2 hlt⟩

theorem doSquash_walking : ∃ R j', doSquash n ⟨markFirst j l, some k, num, false⟩ = some R ∧
    Walking l j' (some num) R ∧ j ≤ j' ∧ j' ≤ max j (k + n) ∧
    (R.doneSquashing = true ∨ R.squashIt = some (k + n)) := by
  rw [doSquash, if_neg (by simp), squashInst_eq hk, bind_some]
  simp only [seqNum_mark]
  split
  next hold => exact ⟨_, j, rfl, .finish hsorted hk hkj hyoung hold.le, le_rfl, le_max_left _ _,
    .inl rfl⟩
  next => exact squashLoop_walking hsorted hk hkj hyoung

end ROB

/-! ## Runs -/

inductive RobCall
  | squash (squash_num : ℕ)
  | doSquash
  deriving DecidableEq, Repr

/-- A thread and the last number it was squashed to. -/
structure RobSession where
  rob : ROB
  last : Option ℕ := none

namespace RobSession

def start (insts : List RobInst) (num : ℕ) : RobSession :=
  { rob := { instList := insts, squashedSeqNum := num } }

variable (squashWidth : ℕ) (insts : List RobInst) (S : RobSession)

def step : RobCall → Option RobSession
  | .squash n => (S.rob.squash squashWidth n).map (⟨·, some n⟩)
  | .doSquash => (S.rob.doSquash squashWidth).map (⟨·, S.last⟩)

/-- The numbers of the squashes do not increase. -/
def Allowed (S : RobSession) : RobCall → Prop
  | .squash n => ∀ m ∈ S.last, n ≤ m
  | .doSquash => True

instance : ∀ c, Decidable (S.Allowed c)
  | .squash n => inferInstanceAs (Decidable (∀ m ∈ S.last, n ≤ m))
  | .doSquash => isTrue trivial

/-- What squashing promises of a thread that held `insts` before. -/
structure Sound : Prop where
  exactly : S.rob.doneSquashing = true → ∀ p : ℕ, S.rob.instList[p]? =
    insts[p]?.map fun a => if ∃ n ∈ S.last, n < a.seqNum then a.mark else a
  /-- The assertion of `doSquash` is the only one that fails, and no end iterator is read. -/
  fails : ∀ c, S.Allowed c →
    (S.step squashWidth c = none ↔ c = .doSquash ∧ S.rob.doneSquashing = true)
  marks : ∀ c S', S.Allowed c → S.step squashWidth c = some S' →
    ∃ k, ∀ p, p < k ∨ k + squashWidth ≤ p → S'.rob.instList[p]? = S.rob.instList[p]?
  finishes : 0 < squashWidth → ∃ n ≤ insts.length, ∃ S',
    (replicate n RobCall.doSquash).foldlM (step squashWidth) S = some S' ∧
    S'.rob.doneSquashing = true

variable {squashWidth insts S} {j : ℕ}

/-- An allowed call fails its assertion, or it goes on for at most `squashWidth` instructions. -/
theorem call_cases (squashWidth : ℕ) (hsorted : insts.Pairwise (·.seqNum > ·.seqNum))
    (hS : ROB.Walking insts j S.last S.rob) {c : RobCall} (hc : S.Allowed c) :
    (c = .doSquash ∧ S.rob.doneSquashing = true ∧ S.step squashWidth c = none) ∨
    ((c = .doSquash → S.rob.doneSquashing = false) ∧ ∃ S' k j', S.step squashWidth c = some S' ∧
      ROB.Walking insts j' S'.last S'.rob ∧ k ≤ j ∧ j ≤ j' ∧ j' ≤ max j (k + squashWidth)) := by
  rcases S with ⟨R, last⟩
  cases c with
  | doSquash =>
    cases hS with
    | done => exact .inl ⟨rfl, rfl, rfl⟩
    | @walk k num hk hkj hyoung =>
      rcases ROB.doSquash_walking (n := squashWidth) hsorted hk hkj hyoung with
        ⟨R, j', hR, hwalk, hle, hle', -⟩
      exact .inr ⟨fun _ => rfl, ⟨R, some num⟩, k, j', congrArg (Option.map _) hR, hwalk, hkj, hle,
        hle'⟩
  | squash n =>
    refine .inr ⟨nofun, ?_⟩
    -- what was marked for a larger number is younger than the new one
    have hyoung : ∀ i a, i < j → insts[i]? = some a → n < a.seqNum := by
      intro i a hi ha
      cases hS with
      | walk _ _ hyoung => exact (hc _ rfl).trans_lt (hyoung i a hi ha)
      | done hyoung =>
        rcases (hyoung i a ha).1 hi with ⟨m, hm, hlt⟩
        exact (hc m hm).trans_lt hlt
    by_cases hnil : insts = []
    · subst hnil
      cases hS with
      | walk hk => cases hk
      | done => exact ⟨_, j, j, rfl, .done nofun, le_rfl, le_rfl, le_max_left _ _⟩
    · have hl : R.instList = ROB.markFirst j insts := by
        cases hS <;> rfl
      have hne : ROB.markFirst j insts ≠ [] := by simpa [ROB.markFirst] using hnil
      rcases ROB.doSquash_walking (n := squashWidth) hsorted (length_pos_iff.2 hnil) (Nat.zero_le j)
          hyoung with
        ⟨R', j', hR', hwalk, hle, hle', -⟩
      refine ⟨⟨R', some n⟩, 0, j', ?_, hwalk, Nat.zero_le j, hle, hle'⟩
      simp [step, ROB.squash, hl, hne, hR']

/-- Each call of `doSquash` finishes the walk or moves the iterator, so a walk at `k` ends. -/
theorem finishes_of_walk (hpos : 0 < squashWidth) (hsorted : insts.Pairwise (·.seqNum > ·.seqNum))
    {m k num : ℕ} (hm : insts.length - k ≤ m) (hk : k < insts.length) (hkj : k ≤ j)
    (hyoung : ∀ i a, i < j → insts[i]? = some a → num < a.seqNum) :
    ∃ n ≤ m, ∃ S', (replicate n RobCall.doSquash).foldlM (step squashWidth)
      ⟨⟨ROB.markFirst j insts, some k, num, false⟩, some num⟩ = some S' ∧
      S'.rob.doneSquashing = true := by
  induction m generalizing j k with
  | zero => omega
  | succ m ih =>
    rcases ROB.doSquash_walking (n := squashWidth) hsorted hk hkj hyoung with
      ⟨R, j', hR, hwalk, -, -, hnext⟩
    have hstep : step squashWidth ⟨⟨ROB.markFirst j insts, some k, num, false⟩, some num⟩ .doSquash
        = some ⟨R, some num⟩ := congrArg (Option.map _) hR
    rcases hnext with hdone | hat
    · exact ⟨1, by omega, ⟨R, some num⟩, by simp [hstep], hdone⟩
    · cases hwalk with
      | done => cases hat
      | walk hk' hkj' hyoung' =>
        cases hat
        rcases ih (by omega) hk' hkj' hyoung' with ⟨n, hn, S', hrun, hdone⟩
        exact ⟨n + 1, by omega, S', by rw [replicate_succ, foldlM_cons, hstep]; exact hrun, hdone⟩

theorem sound_of_walking (hsorted : insts.Pairwise (·.seqNum > ·.seqNum))
    (hS : ROB.Walking insts j S.last S.rob) : S.Sound squashWidth insts := by
  have hlist : ∀ {i} {S : RobSession}, ROB.Walking insts i S.last S.rob →
      S.rob.instList = ROB.markFirst i insts := by
    rintro i ⟨R, last⟩ hS
    cases hS <;> rfl
  refine ⟨fun hdone p => ?_, fun c hc => ?_, fun c S' hc hstep => ?_, fun hpos => ?_⟩
  · rw [hlist hS, ROB.getElem?_markFirst]
    rcases S with ⟨R, last⟩
    cases hS with
    | walk => cases hdone
    | done hyoung =>
      refine Option.map_congr fun a ha => ?_
      simp only [hyoung p a ha]
  · rcases call_cases squashWidth hsorted hS hc with ⟨rfl, hdone, h⟩ | ⟨hdone, S', k, j', h, -⟩
    · simp [h, hdone]
    · simpa [h] using hdone
  · rcases call_cases squashWidth hsorted hS hc with ⟨-, -, h⟩ |
      ⟨-, T, k, j', h, hT, hkj, hle, hle'⟩
    · cases h.symm.trans hstep
    · cases h.symm.trans hstep
      refine ⟨k, fun p hp => ?_⟩
      have hiff : p < j' ↔ p < j := by omega
      simp only [hlist hS, hlist hT, ROB.getElem?_markFirst, hiff]
  · rcases S with ⟨R, last⟩
    cases hS with
    | done => exact ⟨0, Nat.zero_le _, _, rfl, rfl⟩
    | walk hk hkj hyoung => exact finishes_of_walk hpos hsorted (Nat.sub_le _ _) hk hkj hyoung

theorem squash_exact (squashWidth num : ℕ) {insts : List RobInst}
    (hsorted : insts.Pairwise (·.seqNum > ·.seqNum)) {calls : List RobCall}
    (hallowed : Throughout (step squashWidth) Allowed (start insts num) calls) :
    Always (step squashWidth) (Sound squashWidth insts) (start insts num) calls := by
  have hstart : ∃ j, ROB.Walking insts j none (start insts num).rob := by
    have hzero : ROB.markFirst 0 insts = insts := by
      apply ext_getElem?
      simp [ROB.getElem?_markFirst]
    have hdone : ROB.Walking insts 0 none ⟨ROB.markFirst 0 insts, none, num, true⟩ :=
      .done (by simp)
    rw [hzero] at hdone
    exact ⟨0, hdone⟩
  have hstep : ∀ (S : RobSession) c S', (∃ j, ROB.Walking insts j S.last S.rob) → S.Allowed c →
      S.step squashWidth c = some S' → ∃ j, ROB.Walking insts j S'.last S'.rob := by
    rintro S c S' ⟨j, hS⟩ hc hstep
    rcases call_cases squashWidth hsorted hS hc with ⟨-, -, h⟩ | ⟨-, T, k, j', h, hT, -⟩
    · cases h.symm.trans hstep
    · cases h.symm.trans hstep
      exact ⟨j', hT⟩
  exact Always.of_throughout (fun S hS => hS.elim fun j hj => sound_of_walking hsorted hj) hstep
    hstart hallowed

/-- Four instructions and a width of one: the first walk is restarted for an older number. -/
theorem squash_exact_restarted :
    Always (step 1) (Sound 1 [⟨9, false, false⟩, ⟨7, false, true⟩, ⟨4, false, false⟩,
    ⟨2, false, false⟩]) (start [⟨9, false, false⟩, ⟨7, false, true⟩, ⟨4, false, false⟩,
    ⟨2, false, false⟩] 0) [.squash 5, .squash 3, .doSquash, .doSquash] :=
  squash_exact 1 0 (by decide) (by decide)

end RobSession
end EnocGem5.O3
