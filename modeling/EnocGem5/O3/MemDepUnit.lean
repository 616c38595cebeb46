import EnocGem5.Lib.Run

/-!
# MemDepUnit — memory barriers of the out-of-order CPU

The memory dependence unit holds back loads and stores that come after a barrier. It remembers one
load barrier and one store barrier, those that were inserted last: a load or store that is inserted
while its flag is set becomes a dependent of that barrier, and is moved to the ready list when the
barrier completes.

This orders all accesses after all barriers as long as barriers complete in program order and a
squash that takes the remembered barrier leaves no older one behind: the flag is cleared with the
remembered barrier, whatever else is in flight.
-/

namespace EnocGem5.O3.MemDep

open Lib Function

/-! ## The unit -/

/-- What the unit reads of an instruction. -/
structure DynInst where
  seqNum : ℕ
  isLoad : Bool := false
  isStore : Bool := false
  isMemBarrier : Bool := false
  isWriteBarrier : Bool := false
  deriving DecidableEq, Repr

/-- `MemDepEntry`; dependent entries are given by their sequence numbers. -/
structure MemDepEntry where
  inst : DynInst
  dependInsts : List ℕ := []
  regsReady : Bool := false
  memDepReady : Bool := false
  squashed : Bool := false
  deriving DecidableEq, Repr

/-- The unit of one thread. Entries are shared pointers, which may outlive their place in the hash:
`entries` has them all, `memDepHash` says which ones the hash has. `readyList` is what has been
given to `addReadyMemInst`. -/
structure MemDepUnit where
  entries : ℕ → MemDepEntry := fun s => ⟨⟨s, false, false, false, false⟩, [], false, false, false⟩
  memDepHash : ℕ → Bool := fun _ => false
  instList : List ℕ := []
  loadBarrier : Bool := false
  loadBarrierSN : ℕ := 0
  storeBarrier : Bool := false
  storeBarrierSN : ℕ := 0
  readyList : List ℕ := []

namespace MemDepUnit

def modifyEntry (s : ℕ) (f : MemDepEntry → MemDepEntry) (U : MemDepUnit) : MemDepUnit :=
  { U with entries := update U.entries s (f (U.entries s)) }

variable (inst : DynInst) (U : MemDepUnit)

/-- A new entry in the hash and at the end of the list. -/
def addEntry : MemDepUnit :=
  { U with
    entries := update U.entries inst.seqNum ⟨inst, [], false, false, false⟩
    memDepHash := update U.memDepHash inst.seqNum true
    instList := U.instList ++ [inst.seqNum] }

def moveToReady (s : ℕ) (U : MemDepUnit) : Option MemDepUnit :=
  if (U.entries s).squashed then none else some { U with readyList := U.readyList ++ [s] }

/-- The barrier that is in the way, or the store that the predictor names; 0 for none. -/
def producingStore (predicted : ℕ) (U : MemDepUnit) : ℕ :=
  if inst.isLoad && U.loadBarrier then U.loadBarrierSN
  else if inst.isStore && U.storeBarrier then U.storeBarrierSN
  else predicted

def setRegsReady (readyToIssue : Bool) (s : ℕ) (U : MemDepUnit) : MemDepUnit :=
  if readyToIssue then U.modifyEntry s fun e => { e with regsReady := true } else U

/-- `insert`; `predicted` is the answer of the dependence predictor, `readyToIssue` that of the
instruction. -/
def insert (readyToIssue : Bool) (predicted : ℕ) (U : MemDepUnit) : Option MemDepUnit :=
  let s := inst.seqNum
  let U := U.addEntry inst
  let producing := U.producingStore inst predicted
  let result :=
    if producing ≠ 0 ∧ U.memDepHash producing = true then
      some ((U.setRegsReady readyToIssue s).modifyEntry producing fun e =>
        { e with dependInsts := e.dependInsts ++ [s] })
    else
      let U := U.modifyEntry s fun e => { e with memDepReady := true }
      if readyToIssue then (U.setRegsReady true s).moveToReady s else some U
  if inst.isStore || inst.isLoad then result else none

def insertNonSpec : Option MemDepUnit :=
  if inst.isStore || inst.isLoad then some (U.addEntry inst) else none

def insertBarrier : MemDepUnit :=
  let s := inst.seqNum
  let U :=
    if inst.isMemBarrier then
      { U with loadBarrier := true, loadBarrierSN := s, storeBarrier := true, storeBarrierSN := s }
    else if inst.isWriteBarrier then { U with storeBarrier := true, storeBarrierSN := s }
    else U
  U.addEntry inst

def regsReady (s : ℕ) (U : MemDepUnit) : Option MemDepUnit :=
  if U.memDepHash s then
    let U := U.modifyEntry s fun e => { e with regsReady := true }
    if (U.entries s).memDepReady then U.moveToReady s else some U
  else none

def completed (s : ℕ) (U : MemDepUnit) : Option MemDepUnit :=
  if U.memDepHash s then
    some { U with instList := U.instList.erase s, memDepHash := update U.memDepHash s false }
  else none

/-- An iteration of `wakeDependents`. -/
def wake (s : ℕ) : Option MemDepUnit :=
  let e := U.entries s
  if e.regsReady && !e.squashed then U.moveToReady s
  else some (U.modifyEntry s fun e => { e with memDepReady := true })

def wakeDependents (s : ℕ) (U : MemDepUnit) : Option MemDepUnit :=
  let inst := (U.entries s).inst
  if !inst.isStore && !inst.isMemBarrier && !inst.isWriteBarrier then some U
  else if U.memDepHash s then
    ((U.entries s).dependInsts.foldlM wake U).map fun U =>
      U.modifyEntry s fun e => { e with dependInsts := [] }
  else none

/-- The barrier flags are cleared if the barrier is the one that is remembered. -/
def clearBarriers : MemDepUnit :=
  if inst.isMemBarrier then
    { U with
      loadBarrier := U.loadBarrier && U.loadBarrierSN != inst.seqNum
      storeBarrier := U.storeBarrier && U.storeBarrierSN != inst.seqNum }
  else if inst.isWriteBarrier then
    { U with storeBarrier := U.storeBarrier && U.storeBarrierSN != inst.seqNum }
  else U

def completeBarrier (s : ℕ) (U : MemDepUnit) : Option MemDepUnit :=
  ((U.wakeDependents s).bind fun U => U.completed s).map fun U => U.clearBarriers (U.entries s).inst

/-- The loop of `squash`, from the back of the list. -/
def squashFrom (squashedNum : ℕ) : List ℕ → MemDepUnit → Option MemDepUnit
  | [], U => some U
  | s :: ss, U =>
    if squashedNum < s then
      if U.memDepHash s then
        squashFrom squashedNum ss
          { U.modifyEntry s (fun e => { e with squashed := true }) with
            loadBarrier := U.loadBarrier && s != U.loadBarrierSN
            storeBarrier := U.storeBarrier && s != U.storeBarrierSN
            memDepHash := update U.memDepHash s false
            instList := ss.reverse }
      else none
    else some U

def squash (squashedNum : ℕ) (U : MemDepUnit) : Option MemDepUnit :=
  U.squashFrom squashedNum U.instList.reverse

end MemDepUnit

open MemDepUnit

/-! ## Sequences of calls -/

inductive MemDepCall
  | insert (inst : DynInst) (readyToIssue : Bool) (predicted : ℕ)
  | insertNonSpec (inst : DynInst)
  | insertBarrier (inst : DynInst)
  | regsReady (seqNum : ℕ)
  | wakeDependents (seqNum : ℕ)
  | completed (seqNum : ℕ)
  | completeBarrier (seqNum : ℕ)
  | squash (squashedNum : ℕ)

/-- The unit, and which instructions came by `insert` and which by `insertBarrier`. Sequence numbers
start at 1. -/
structure Session where
  unit : MemDepUnit := {}
  inserted : ℕ → Bool := fun _ => false
  barriers : ℕ → Bool := fun _ => false
  nextSeqNum : ℕ := 1

namespace Session

variable (Q : Session)

/-- Instructions are inserted in program order; barriers complete by `completeBarrier`, the others
by `wakeDependents` and `completed`. -/
def step : MemDepCall → Option Session
  | .insert inst readyToIssue predicted =>
    if Q.nextSeqNum ≤ inst.seqNum then
      (Q.unit.insert inst readyToIssue predicted).map fun U =>
        { Q with
          unit := U
          inserted := update Q.inserted inst.seqNum true
          nextSeqNum := inst.seqNum + 1 }
    else none
  | .insertNonSpec inst =>
    if Q.nextSeqNum ≤ inst.seqNum then
      (Q.unit.insertNonSpec inst).map fun U => { Q with unit := U, nextSeqNum := inst.seqNum + 1 }
    else none
  | .insertBarrier inst =>
    if Q.nextSeqNum ≤ inst.seqNum then
      some { Q with
        unit := Q.unit.insertBarrier inst
        barriers := update Q.barriers inst.seqNum true
        nextSeqNum := inst.seqNum + 1 }
    else none
  | .regsReady s => (Q.unit.regsReady s).map fun U => { Q with unit := U }
  | .wakeDependents s =>
    if Q.barriers s then none else (Q.unit.wakeDependents s).map fun U => { Q with unit := U }
  | .completed s => if Q.barriers s then none else (Q.unit.completed s).map fun U =>
    { Q with unit := U }
  | .completeBarrier s =>
    if Q.barriers s then (Q.unit.completeBarrier s).map fun U => { Q with unit := U } else none
  | .squash sn => (Q.unit.squash sn).map fun U => { Q with unit := U }

def inst (s : ℕ) : DynInst := (Q.unit.entries s).inst

/-- A barrier that is neither completed nor squashed. -/
def InFlight (b : ℕ) : Prop := Q.barriers b = true ∧ Q.unit.memDepHash b = true

instance (b : ℕ) : Decidable (Q.InFlight b) := inferInstanceAs (Decidable (_ ∧ _))

/-- Memory barriers order loads and stores, write barriers order stores. -/
def Orders (b i : DynInst) : Prop :=
  (b.isMemBarrier = true ∧ (i.isLoad = true ∨ i.isStore = true)) ∨
    (b.isWriteBarrier = true ∧ i.isStore = true)

/-- A barrier before the instruction is in flight. -/
def Blocked (i : ℕ) : Prop := ∃ b, Q.InFlight b ∧ b < i ∧ Orders (Q.inst b) (Q.inst i)

/-- No instruction that came by `insert` is on the ready list while it is blocked. -/
def Ordered : Prop := ∀ i ∈ Q.unit.readyList, Q.inserted i = true → ¬ Q.Blocked i

/-- The instructions that a load barrier and a store barrier can be. -/
def isLoadBarrier (i : DynInst) : Bool := i.isMemBarrier

def isStoreBarrier (i : DynInst) : Bool := i.isMemBarrier || i.isWriteBarrier

/-- A squash that takes the barrier that is remembered takes all barriers of its kind. -/
def SquashesAll (kind : DynInst → Bool) (flag : Bool) (barrierSN sn : ℕ) : Prop :=
  flag = true → sn < barrierSN → ∀ b ∈ Q.unit.instList, Q.InFlight b → kind (Q.inst b) = true →
    sn < b

/-- What a call has to respect: an access that is both a load and a store finds one barrier in its
way, not two; a barrier completes after all older ones; and squashes are as above. -/
def Respects : MemDepCall → Prop
  | .insert inst _ _ =>
    inst.isLoad = true → inst.isStore = true → Q.unit.loadBarrier = true →
      Q.unit.storeBarrier = true → Q.unit.loadBarrierSN = Q.unit.storeBarrierSN
  | .completeBarrier s => ∀ b ∈ Q.unit.instList, Q.InFlight b → s ≤ b
  | .squash sn =>
    Q.SquashesAll isLoadBarrier Q.unit.loadBarrier Q.unit.loadBarrierSN sn ∧
      Q.SquashesAll isStoreBarrier Q.unit.storeBarrier Q.unit.storeBarrierSN sn
  | _ => True

instance (kind : DynInst → Bool) (flag : Bool) (barrierSN sn : ℕ) :
    Decidable (Q.SquashesAll kind flag barrierSN sn) :=
  inferInstanceAs (Decidable (_ → _ → ∀ b ∈ _, _))

instance (call : MemDepCall) : Decidable (Q.Respects call) :=
  match call with
  | .insert _ _ _ => inferInstanceAs (Decidable (_ → _ → _ → _ → _))
  | .completeBarrier _ => inferInstanceAs (Decidable (∀ b ∈ _, _))
  | .squash _ => inferInstanceAs (Decidable (_ ∧ _))
  | .insertNonSpec _ | .insertBarrier _ | .regsReady _ | .wakeDependents _ | .completed _ =>
    isTrue trivial

end Session

end EnocGem5.O3.MemDep
