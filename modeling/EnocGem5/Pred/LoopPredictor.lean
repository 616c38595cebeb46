import EnocGem5.Lib.Run

/-!
# LoopPredictor — the loop predictor of L-TAGE

`getLoop` looks a branch up in the four ways of its set. `loopUpdate` trains the entry that was hit,
or allocates one for a taken branch. The tag of a branch is an `int` when it is looked up, and an
entry has room for 16 bits of it.
-/

namespace EnocGem5.Pred

open Lib List Function

structure LoopEntry where
  numIter : BitVec 16 := 0
  currentIter : BitVec 16 := 0
  currentIterSpec : BitVec 16 := 0
  confidence : BitVec 8 := 0
  tag : BitVec 16 := 0
  age : BitVec 8 := 0
  dir : Bool := false

/-- The part of `BranchInfo` that belongs to the loop predictor; a `loopHit` of -1 is `none`. -/
structure BranchInfo where
  loopTag : BitVec 32
  loopIndex : ℕ
  loopHit : Option ℕ := none
  loopPredValid : Bool := false
  currentIter : BitVec 16 := 0
  loopPred : Bool := false
  tagePred : Bool

namespace LoopEntry

variable (e : LoopEntry)

def free : LoopEntry := { e with numIter := 0, age := 0, confidence := 0 }

def countIter : LoopEntry :=
  let e := { e with currentIter := e.currentIter + 1 }
  if e.numIter < e.currentIter then
    if e.numIter ≠ 0 then e.free else { e with confidence := 0 }
  else e

/-- The loop has ended: its length is learnt or compared with that of the last time. -/
def endLoop (taken : Bool) : LoopEntry :=
  if e.currentIter = e.numIter then
    -- just do not predict when the loop count is 1 or 2
    if e.numIter < 3 then { e.free with dir := taken }
    else if e.confidence < 7 then { e with confidence := e.confidence + 1 } else e
  else if e.numIter = 0 then { e with confidence := 0, numIter := e.currentIter }
  else e.free

/-- `loopUpdate` of an entry that was hit. -/
def train (taken : Bool) (bi : BranchInfo) : LoopEntry :=
  if bi.loopPredValid && taken != bi.loopPred then { e.free with currentIter := 0 }
  else
    let e := if bi.loopPredValid && bi.loopPred != bi.tagePred && e.age < 7 then
      { e with age := e.age + 1 } else e
    let e := e.countIter
    if taken = e.dir then e else { e.endLoop taken with currentIter := 0 }

theorem tag_countIter : e.countIter.tag = e.tag := by
  unfold countIter
  dsimp only
  split_ifs <;> rfl

theorem tag_train (taken : Bool) (bi : BranchInfo) : (e.train taken bi).tag = e.tag := by
  unfold train endLoop
  dsimp only
  split_ifs <;> first | rfl | exact tag_countIter _

end LoopEntry

/-- The size of the table is at least 4, and small enough for an index to be an `int`. -/
structure LTAGE where
  logSizeLoopPred : ℕ

namespace LTAGE

variable (P : LTAGE) (ltable : ℕ → LoopEntry)

def lindex (pc : BitVec 64) : ℕ := (pc.toNat &&& 2 ^ (P.logSizeLoopPred - 2) - 1) <<< 2

def loopTag (pc : BitVec 64) : BitVec 32 := (pc >>> (P.logSizeLoopPred - 2)).setWidth 32

/-- `getLoop`, with the part of the branch's record that is known by then. -/
def getLoop (pc : BitVec 64) (tagePred : Bool) : BranchInfo :=
  let bi : BranchInfo :=
    { loopTag := P.loopTag pc, loopIndex := P.lindex pc, tagePred := tagePred }
  match (range 4).find? fun i => (ltable (bi.loopIndex + i)).tag.setWidth 32 = bi.loopTag with
  | none => bi
  | some i =>
    let e := ltable (bi.loopIndex + i)
    { bi with
      loopHit := some i
      loopPredValid := 3 ≤ e.confidence
      currentIter := e.currentIterSpec
      loopPred := if e.currentIterSpec.toNat + 1 = e.numIter.toNat then !e.dir else e.dir }

def specLoopUpdate (pc : BitVec 64) (taken : Bool) (bi : BranchInfo) : ℕ → LoopEntry :=
  let index := P.lindex pc
  let e := ltable index
  if bi.loopHit = none then ltable
  else update ltable index
    { e with currentIterSpec := if taken = e.dir then e.currentIterSpec + 1 else 0 }

/-- The loop of `loopUpdate` for the ways `is`, with the index of the entry that is allocated. Of
`nrand` only the lowest two bits matter. -/
def allocate (bi : BranchInfo) (taken : Bool) (nrand : ℕ) (ltable : ℕ → LoopEntry) :
    List ℕ → (ℕ → LoopEntry) × Option ℕ
  | [] => (ltable, none)
  | i :: is =>
    let idx := bi.loopIndex + (nrand + i) % 4
    let e := ltable idx
    if e.age = 0 then
      (update ltable idx { e.free with
        dir := !taken
        tag := bi.loopTag.setWidth 16
        age := 7
        currentIter := 1 }, some idx)
    else allocate bi taken nrand (update ltable idx { e with age := e.age - 1 }) is

def loopUpdate (taken : Bool) (nrand : ℕ) (bi : BranchInfo) : (ℕ → LoopEntry) × Option ℕ :=
  match bi.loopHit with
  | some i =>
    let idx := bi.loopIndex + i
    (update ltable idx ((ltable idx).train taken bi), none)
  | none => if taken then allocate bi taken nrand ltable [0, 1, 2, 3] else (ltable, none)

inductive LoopCall
  | specLoopUpdate (pc : BitVec 64) (taken : Bool) (bi : BranchInfo)
  | loopUpdate (taken : Bool) (nrand : ℕ) (bi : BranchInfo)

/-- A call that does not allocate the entry `idx` for a branch with another tag. -/
def keep (idx : ℕ) (loopTag : BitVec 32) : LoopCall → Option (ℕ → LoopEntry)
  | .specLoopUpdate pc taken bi => some (P.specLoopUpdate ltable pc taken bi)
  | .loopUpdate taken nrand bi =>
    let r := loopUpdate ltable taken nrand bi
    if r.2 = some idx ∧ bi.loopTag ≠ loopTag then none else some r.1

/-! ## Tags -/

variable {P ltable} {bi : BranchInfo} {pc : BitVec 64} {taken tagePred : Bool} {nrand idx i : ℕ}

theorem setWidth_eq_iff (x : BitVec 16) (t : BitVec 32) :
    x.setWidth 32 = t ↔ t.toNat < 2 ^ 16 ∧ x = t.setWidth 16 := by
  rw [BitVec.toNat_eq, BitVec.toNat_eq, BitVec.toNat_setWidth, BitVec.toNat_setWidth]
  omega

/-- Only the entry that is allocated gets a new tag. -/
structure Retags (bi : BranchInfo) (T : ℕ → LoopEntry) (r : (ℕ → LoopEntry) × Option ℕ) : Prop where
  tag : ∀ j, (r.1 j).tag = if r.2 = some j then bi.loopTag.setWidth 16 else (T j).tag
  way : ∀ idx, r.2 = some idx → ∃ i < 4, bi.loopIndex + i = idx

theorem retags_allocate (is : List ℕ) (T : ℕ → LoopEntry) :
    Retags bi T (allocate bi taken nrand T is) := by
  induction is generalizing T with
  | nil => exact ⟨fun _ => rfl, nofun⟩
  | cons i is ih =>
    simp only [allocate]
    split
    case isTrue =>
      refine ⟨fun j => ?_, fun idx hidx => ⟨_, Nat.mod_lt _ (by decide), Option.some.inj hidx⟩⟩
      by_cases hj : bi.loopIndex + (nrand + i) % 4 = j
      · simp [hj]
      · simp [hj, update_of_ne (Ne.symm hj)]
    case isFalse =>
      refine ⟨fun j => ?_, (ih _).way⟩
      rw [(ih _).tag j]
      by_cases hj : bi.loopIndex + (nrand + i) % 4 = j
      · simp [hj]
      · simp [update_of_ne (Ne.symm hj)]

theorem retags_loopUpdate (T : ℕ → LoopEntry) (taken : Bool) (nrand : ℕ) (bi : BranchInfo) :
    Retags bi T (loopUpdate T taken nrand bi) := by
  unfold loopUpdate
  split
  case h_1 i _ =>
    refine ⟨fun j => ?_, nofun⟩
    by_cases hj : j = bi.loopIndex + i
    · simp [hj, LoopEntry.tag_train]
    · simp [update_of_ne hj]
  case h_2 =>
    split
    · exact retags_allocate _ T
    · exact ⟨fun _ => rfl, nofun⟩

theorem tag_keep {loopTag : BitVec 32} {T : ℕ → LoopEntry} {c : LoopCall}
    (htag : (ltable idx).tag = loopTag.setWidth 16) (h : P.keep ltable idx loopTag c = some T) :
    (T idx).tag = loopTag.setWidth 16 := by
  cases c with
  | specLoopUpdate pc taken bi =>
    cases h
    unfold specLoopUpdate
    split
    · exact htag
    · by_cases hidx : idx = P.lindex pc
      · simp [← hidx, htag]
      · simp [update_of_ne hidx, htag]
  | loopUpdate taken nrand bi =>
    rcases Option.ite_none_left_eq_some.1 h with ⟨hkeep, h⟩
    cases h
    rw [(retags_loopUpdate ltable taken nrand bi).tag idx]
    split
    case isTrue halloc => rw [not_ne_iff.1 fun hne => hkeep ⟨halloc, hne⟩]
    case isFalse => exact htag

theorem getLoop_spec (pc : BitVec 64) (tagePred : Bool) :
    (P.getLoop ltable pc tagePred).loopTag = P.loopTag pc ∧
      (P.getLoop ltable pc tagePred).loopIndex = P.lindex pc ∧
      (P.getLoop ltable pc tagePred).loopHit =
        (range 4).find? fun i => (ltable (P.lindex pc + i)).tag.setWidth 32 = P.loopTag pc := by
  unfold getLoop
  dsimp only
  split
  case h_1 hmiss => exact ⟨rfl, rfl, hmiss.symm⟩
  case h_2 i hhit => exact ⟨rfl, rfl, hhit.symm⟩

theorem loopHit_eq_some_iff : (P.getLoop ltable pc tagePred).loopHit = some i ↔
    (ltable (P.lindex pc + i)).tag.setWidth 32 = P.loopTag pc ∧ i < 4 ∧
      ∀ j < i, (ltable (P.lindex pc + j)).tag.setWidth 32 ≠ P.loopTag pc := by
  simp [(getLoop_spec pc tagePred).2.2, find?_range_eq_some]

/-- A lookup finds the first entry of the set with the tag of the branch, and a tag of more than 16
bits is that of no entry. -/
theorem loopHit_iff (hi : i < 4)
    (htag : (ltable (P.lindex pc + i)).tag = (P.loopTag pc).setWidth 16) :
    (P.getLoop ltable pc tagePred).loopHit = some i ↔ (P.loopTag pc).toNat < 2 ^ 16 ∧
      ∀ j < i, (ltable (P.lindex pc + j)).tag ≠ (ltable (P.lindex pc + i)).tag := by
  rw [loopHit_eq_some_iff]
  simp only [setWidth_eq_iff, ← htag, hi, and_true, true_and, ne_eq, not_and]
  exact and_congr_right fun hfits => forall₂_congr fun j _ => imp_iff_right hfits

/-- Until the entry that was allocated for a branch goes to a branch with another tag, a lookup
finds it if the tag fits into it and no way before it has the same tag. Branches that find one entry
have one tag. -/
theorem getLoop_finds_iff (P : LTAGE) (T₀ T : ℕ → LoopEntry) (pc : BitVec 64)
    (tagePred taken : Bool) (nrand : ℕ) (calls : List LoopCall) :
    (∀ idx, (loopUpdate T taken nrand (P.getLoop T₀ pc tagePred)).2 = some idx →
      ∃ i, P.lindex pc + i = idx ∧ Always (fun T => P.keep T idx (P.loopTag pc))
        (fun T => (P.getLoop T pc tagePred).loopHit = some i ↔ (P.loopTag pc).toNat < 2 ^ 16 ∧
          ∀ j < i, (T (P.lindex pc + j)).tag ≠ (T (P.lindex pc + i)).tag)
        (loopUpdate T taken nrand (P.getLoop T₀ pc tagePred)).1 calls) ∧
    ∀ pc' i, P.lindex pc' = P.lindex pc → (P.getLoop T pc tagePred).loopHit = some i →
      (P.getLoop T pc' tagePred).loopHit = some i → P.loopTag pc' = P.loopTag pc := by
  constructor
  · intro idx hidx
    rcases retags_loopUpdate T taken nrand (P.getLoop T₀ pc tagePred) with ⟨htags, hways⟩
    have htag := htags idx
    rw [if_pos hidx, (getLoop_spec pc tagePred).1] at htag
    rcases (getLoop_spec pc tagePred).2.1 ▸ hways idx hidx with ⟨i, hi, rfl⟩
    refine ⟨i, rfl, Always.of_invariant ?_ (fun T c T' hT h => tag_keep hT h) htag⟩
    intro T hT
    exact loopHit_iff hi hT
  · intro pc' i hindex hpc hpc'
    rw [loopHit_eq_some_iff] at hpc hpc'
    calc P.loopTag pc' = (T (P.lindex pc' + i)).tag.setWidth 32 := hpc'.1.symm
      _ = (T (P.lindex pc + i)).tag.setWidth 32 := by rw [hindex]
      _ = P.loopTag pc := hpc.1

/-- The tag of this branch has 17 bits: right after its allocation the branch is not found. -/
theorem wide_tag_misses :
    let P : LTAGE := ⟨8⟩
    let T : ℕ → LoopEntry := fun _ => {}
    let r := loopUpdate T true 0 (P.getLoop T 0x400000 true)
    r.2 = some 0 ∧ (P.getLoop r.1 0x400000 true).loopHit = none := by
  decide

end LTAGE
end EnocGem5.Pred
