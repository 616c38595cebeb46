import EnocGem5.O3.Rename

/-!
# Scoreboard — when an instruction of the in-order CPU may issue

`cpu/minor/scoreboard.cc` keeps, for each integer, condition code and float register, when its
result comes and from which functional unit. A unit may be unable to take a result from some others
before that; its pipeline turns the list of these units into a bit vector. Vectors of the scoreboard
are functions of the index, and cycles are numbers that do not wrap.
-/

namespace EnocGem5.Minor

open List

/-- The register indices of an ISA. -/
structure RegLayout where
  numIntRegs : ℕ
  numFloatRegs : ℕ
  numCCRegs : ℕ
  fpRegBase : ℕ
  zeroReg : ℕ

namespace RegLayout

variable (R : RegLayout)

def ccRegBase : ℕ := R.fpRegBase + R.numFloatRegs

def miscRegBase : ℕ := R.ccRegBase + R.numCCRegs

def regIdxToClass (reg : ℕ) : O3.RegClass :=
  if reg < R.fpRegBase then .IntRegClass
  else if reg < R.ccRegBase then .FloatRegClass
  else if reg < R.miscRegBase then .CCRegClass
  else .MiscRegClass

def findIndex (reg : ℕ) : Option ℕ :=
  if reg = R.zeroReg then none
  else match R.regIdxToClass reg with
  | .IntRegClass => some reg
  | .FloatRegClass => some (R.numIntRegs + R.numCCRegs + reg - R.fpRegBase)
  | .CCRegClass => some (R.numIntRegs + reg - R.fpRegBase)
  | .MiscRegClass => none

end RegLayout

/-! ## The bit vector of a pipeline -/

/-- An iteration of the loop in the constructor of `FUPipeline`. `resize` cuts off the bits behind
`i`, and beyond its end the vector is read as false. -/
def setForward (bits : ℕ → Bool) (i j : ℕ) : Bool := j = i || j ≤ i && bits j

def cantForwardBits (indices : List ℕ) : ℕ → Bool := indices.foldl setForward fun _ => false

/-- The index is in the list, with no smaller one after it. -/
def Survives (j : ℕ) (indices : List ℕ) : Prop :=
  ∃ later, j :: later <:+ indices ∧ ∀ i ∈ later, j ≤ i

theorem survives_cons {j i : ℕ} {l : List ℕ} :
    Survives j (i :: l) ↔ j = i ∧ (∀ k ∈ l, j ≤ k) ∨ Survives j l := by
  simp [Survives, suffix_cons_iff, or_and_right, exists_or]

theorem foldl_setForward {bits : ℕ → Bool} {indices : List ℕ} {j : ℕ} :
    indices.foldl setForward bits j = true ↔ bits j = true ∧ (∀ i ∈ indices, j ≤ i) ∨
    Survives j indices := by
  induction indices generalizing bits with
  | nil => simp [Survives]
  | cons i l ih =>
    rw [foldl_cons, ih, survives_cons, forall_mem_cons]
    simp only [setForward, Bool.or_eq_true, Bool.and_eq_true, decide_eq_true_eq]
    tauto

/-! ## The scoreboard -/

structure Scoreboard where
  numUnpredictableResults : ℕ → ℕ
  fuIndices : ℕ → ℤ
  returnCycle : ℕ → ℕ

structure MinorDynInst where
  isFault : Bool
  srcRegs : List ℕ

/-- The latency of a source register; the last one given is the default. A null pointer acts as an
empty vector. -/
def relativeLatency (lats : List ℕ) (srcIndex : ℕ) : ℕ := lats.getD srcIndex (lats.getLastD 0)

namespace Scoreboard

variable (S : Scoreboard) (R : RegLayout) (indices lats : List ℕ) (now : ℕ) (flatten : ℕ → ℕ)
  {index latency : ℕ}

def cantForward (bits : ℕ → Bool) (index : ℕ) : Bool := S.fuIndices index ≠ 1 && bits index

def isReady (bits : ℕ → Bool) (latency index : ℕ) : Bool :=
  S.returnCycle index ≤ now + (if S.cantForward bits index then 0 else latency) &&
    S.numUnpredictableResults index = 0

def canInstIssue (inst : MinorDynInst) (bits : ℕ → Bool) : Bool :=
  inst.isFault || inst.srcRegs.zipIdx.all fun (reg, i) =>
    (R.findIndex (flatten reg)).all (S.isReady now bits (relativeLatency lats i))

/-- The unit that produces the register is in the list. -/
def Restricted (index : ℕ) : Prop := S.fuIndices index ∈ indices.map Int.ofNat

instance : DecidablePred (S.Restricted indices) := fun _ => inferInstanceAs (Decidable (_ ∈ _))

def Ready (latency index : ℕ) : Prop :=
  S.numUnpredictableResults index = 0 ∧
    S.returnCycle index ≤ now + if S.Restricted indices index then 0 else latency

/-- Every tracked source is ready. -/
def MayIssue (inst : MinorDynInst) : Prop :=
  ∀ src ∈ inst.srcRegs.zipIdx, ∀ index ∈ R.findIndex (flatten src.1),
    S.Ready indices now (relativeLatency lats src.2) index

/-- The bit at the register's own index says whether its producer is in the list. -/
def Agrees (index : ℕ) : Prop :=
  (S.fuIndices index ≠ 1 ∧ Survives index indices) ↔ S.Restricted indices index

variable {S R indices lats now flatten}

theorem cantForward_iff :
    S.cantForward (cantForwardBits indices) index = true ↔ S.fuIndices index ≠ 1 ∧
    Survives index indices := by
  simp [cantForward, cantForwardBits, foldl_setForward]

theorem isReady_iff {bits : ℕ → Bool} :
    S.isReady now bits latency index = true ↔ S.numUnpredictableResults index = 0 ∧
      S.returnCycle index ≤ now + if S.cantForward bits index then 0 else latency := by
  rw [isReady, Bool.and_eq_true, decide_eq_true_iff, decide_eq_true_iff, and_comm]

theorem isReady_iff_of_agrees
    (h : S.numUnpredictableResults index = 0 → S.returnCycle index ≠ 0 → S.Agrees indices index) :
    S.isReady now (cantForwardBits indices) latency index = true ↔
    S.Ready indices now latency index := by
  rw [isReady_iff, Ready]
  refine and_congr_right fun hpredictable => ?_
  obtain hzero | hpending := eq_or_ne (S.returnCycle index) 0
  · simp [hzero]
  · simp only [cantForward_iff.trans (h hpredictable hpending)]

theorem le_pred_add_ite {n : ℕ} {p : Prop} [Decidable p] (h : n ≠ 0) :
    n ≤ n - 1 + (if p then 0 else 1) ↔ ¬p := by
  by_cases hp : p
  · simp only [hp, if_true, not_true, iff_false]
    omega
  · simp only [hp, if_false, not_false_iff, iff_true]
    omega

/-- Restrictions are honoured exactly while the bits at the indices of registers tell of the units
that produce them. -/
theorem canInstIssue_iff_agrees (S : Scoreboard) (R : RegLayout) (indices : List ℕ) :
    (∀ lats now flatten inst, inst.isFault = false →
        (S.canInstIssue R lats now flatten inst (cantForwardBits indices) = true ↔
          S.MayIssue R indices lats now flatten inst)) ↔
      ∀ reg, ∀ index ∈ R.findIndex reg, S.numUnpredictableResults index = 0 →
        S.returnCycle index ≠ 0 → S.Agrees indices index := by
  constructor
  · intro h reg index hindex hpredictable hpending
    -- a single source, whose result comes one cycle too late unless it is forwarded
    have hsingle : S.isReady (S.returnCycle index - 1) (cantForwardBits indices) 1 index = true ↔
        S.Ready indices (S.returnCycle index - 1) 1 index := by
      simpa [canInstIssue, MayIssue, relativeLatency, Option.mem_def.1 hindex]
        using h [1] (S.returnCycle index - 1) id ⟨false, [reg]⟩ rfl
    rw [isReady_iff, Ready, le_pred_add_ite hpending, le_pred_add_ite hpending] at hsingle
    exact cantForward_iff.symm.trans (not_iff_not.1 (and_congr_right_iff.1 hsingle hpredictable))
  · intro h lats now flatten inst hfault
    simp only [canInstIssue, hfault, Bool.false_or, all_eq_true, Option.all_eq_true]
    exact forall₂_congr fun src _ => forall₂_congr fun index hindex =>
      isReady_iff_of_agrees (h _ index hindex)

/-- The result of register 3 comes from unit 2, which is in the list, in cycle 5; yet it is taken in
cycle 4. -/
theorem issues_too_early :
    let S : Scoreboard := ⟨fun _ => 0, fun _ => 2, fun _ => 5⟩
    let R : RegLayout := ⟨8, 0, 0, 8, 0⟩
    S.canInstIssue R [1] 4 id ⟨false, [3]⟩ (cantForwardBits [2]) = true ∧
      ¬S.MayIssue R [2] [1] 4 id ⟨false, [3]⟩ :=
  ⟨by decide, fun h => absurd (h (3, 0) (by decide) 3 (by decide)).2 (by decide)⟩

end Scoreboard

end EnocGem5.Minor
