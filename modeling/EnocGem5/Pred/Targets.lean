import EnocGem5.Lib.Ring

/-!
# Targets — where branch predictors find the targets of branches

A branch predictor that expects a branch to be taken needs its target. Returns take it from the
return address stack (`ras.cc`), direct branches from the branch target buffer (`btb.cc`), and
indirect ones from the indirect predictor (`indirect.cc`).

What the instruction set contributes is a parameter (`Isa`): program counters, and how they advance.
-/

namespace EnocGem5.Pred

structure StaticInst where
  isUncondCtrl : Bool := false
  isReturn : Bool := false
  isCall : Bool := false
  isDirectCtrl : Bool := false
  deriving DecidableEq, Repr

/-- The part of `TheISA` that a predictor calls. -/
structure Isa (PCState : Type) where
  zero : PCState
  instAddr : PCState → ℕ
  advancePC : StaticInst → PCState → PCState
  buildRetPC : PCState → PCState → PCState

variable {PCState : Type}

/-! ## Return address stack -/

/-- The entries are an array of `numEntries` program counters. -/
structure ReturnAddrStack (PCState : Type) where
  addrStack : ℕ → PCState
  usedEntries : ℕ := 0
  tos : ℕ := 0

namespace ReturnAddrStack

open Lib

variable (numEntries : ℕ) (R : ReturnAddrStack PCState)

def top : PCState := R.addrStack R.tos

def topIdx : ℕ := R.tos

def incrTos : ℕ := if R.tos + 1 = numEntries then 0 else R.tos + 1

def decrTos : ℕ := if R.tos = 0 then numEntries - 1 else R.tos - 1

def push (returnAddr : PCState) : ReturnAddrStack PCState where
  addrStack := Function.update R.addrStack (R.incrTos numEntries) returnAddr
  usedEntries := if R.usedEntries ≠ numEntries then R.usedEntries + 1 else R.usedEntries
  tos := R.incrTos numEntries

def pop : ReturnAddrStack PCState :=
  { R with
    usedEntries := if 0 < R.usedEntries then R.usedEntries - 1 else R.usedEntries
    tos := R.decrTos numEntries }

def restore (topEntryIdx : ℕ) (restored : PCState) : ReturnAddrStack PCState :=
  { R with
    tos := topEntryIdx
    addrStack := Function.update R.addrStack topEntryIdx restored }

variable {numEntries : ℕ} {R : ReturnAddrStack PCState}

theorem push_tos (h : R.tos < numEntries) (returnAddr : PCState) :
    (R.push numEntries returnAddr).tos = nextSlot numEntries R.tos := by
  change R.incrTos numEntries = _
  unfold incrTos nextSlot
  by_cases hlast : R.tos + 1 = numEntries
  · rw [if_pos hlast, if_pos (Nat.le_of_eq hlast.symm)]
  · rw [if_neg hlast, if_neg (by omega)]

theorem pop_tos : (R.pop numEntries).tos = prevSlot numEntries R.tos := rfl

end ReturnAddrStack

/-! ## Branch target buffer -/

structure BTBConfig where
  numEntries : ℕ
  tagBits : ℕ
  instShiftAmt : ℕ
  log2NumThreads : ℕ

structure BTBEntry (PCState : Type) where
  tag : ℕ
  target : PCState
  tid : ℕ
  valid : Bool

/-- `DefaultBTB`, without the entries that were never written. -/
abbrev DefaultBTB (PCState : Type) := ℕ → Option (BTBEntry PCState)

namespace DefaultBTB

variable (cfg : BTBConfig) (B : DefaultBTB PCState)

def tagShiftAmt : ℕ := cfg.instShiftAmt + Nat.log2 cfg.numEntries

def getIndex (instPC tid : ℕ) : ℕ :=
  ((instPC >>> cfg.instShiftAmt) ^^^
    (tid <<< (tagShiftAmt cfg - cfg.instShiftAmt - cfg.log2NumThreads))) &&& (cfg.numEntries - 1)

def getTag (instPC : ℕ) : ℕ := (instPC >>> tagShiftAmt cfg) &&& (2 ^ cfg.tagBits - 1)

/-- The entry of a branch, if `valid` finds one. -/
def find (instPC tid : ℕ) : Option (BTBEntry PCState) :=
  (B (getIndex cfg instPC tid)).filter fun e => e.valid && getTag cfg instPC = e.tag && e.tid = tid

def valid (instPC tid : ℕ) : Bool := (find cfg B instPC tid).isSome

def lookup (isa : Isa PCState) (instPC tid : ℕ) : PCState :=
  ((find cfg B instPC tid).map BTBEntry.target).getD isa.zero

def update (instPC : ℕ) (target : PCState) (tid : ℕ) : DefaultBTB PCState :=
  Function.update B (getIndex cfg instPC tid) (some ⟨getTag cfg instPC, target, tid, true⟩)

end DefaultBTB

/-! ## Indirect predictor -/

structure IndirectConfig where
  hashGHR : Bool
  hashTargets : Bool
  numSets : ℕ
  numWays : ℕ
  tagBits : ℕ
  pathLength : ℕ
  instShift : ℕ

structure IPredEntry (PCState : Type) where
  tag : ℕ
  target : PCState

structure PathEntry where
  pcAddr : ℕ
  targetAddr : ℕ
  seqNum : ℕ
  deriving DecidableEq, Repr

/-- `ThreadInfo`, with the path in the order in which it was taken. -/
structure PathInfo where
  pathHist : List PathEntry := []
  headHistEntry : ℕ := 0
  deriving DecidableEq, Repr

structure IndirectPredictor (PCState : Type) where
  targetCache : ℕ → ℕ → IPredEntry PCState
  threadInfo : ℕ → PathInfo := fun _ => {}

namespace IndirectPredictor

variable (cfg : IndirectConfig) (I : IndirectPredictor PCState)

/-- The hash of a branch and the targets at the end of a path. -/
def getSetIndex (brAddr ghr : ℕ) (path : List PathEntry) : ℕ :=
  let hash := brAddr >>> cfg.instShift
  let hash := if cfg.hashGHR then hash ^^^ ghr else hash
  let hashShift := Nat.log2 cfg.numSets / cfg.pathLength
  let hash :=
    if cfg.hashTargets then
      (path.reverse.take cfg.pathLength).zipIdx.foldl
        (fun hash (entry, p) => hash ^^^ (entry.targetAddr >>> (cfg.instShift + p * hashShift)))
        hash
    else hash
  hash &&& (cfg.numSets - 1)

def getTag (brAddr : ℕ) : ℕ := (brAddr >>> cfg.instShift) &&& (2 ^ cfg.tagBits - 1)

/-- The first way of a set with a tag. -/
def findWay (set tag : ℕ) : Option ℕ :=
  (List.range cfg.numWays).find? fun way => (I.targetCache set way).tag = tag

def lookup (brAddr ghr tid : ℕ) : Option PCState :=
  let set := getSetIndex cfg brAddr ghr (I.threadInfo tid).pathHist
  (I.findWay cfg set (getTag cfg brAddr)).map fun way => (I.targetCache set way).target

def setInfo (tid : ℕ) (info : PathInfo) : IndirectPredictor PCState :=
  { I with threadInfo := Function.update I.threadInfo tid info }

def recordIndirect (brAddr tgtAddr seqNum tid : ℕ) : IndirectPredictor PCState :=
  let info := I.threadInfo tid
  I.setInfo tid { info with pathHist := info.pathHist ++ [⟨brAddr, tgtAddr, seqNum⟩] }

def commit (seqNum tid : ℕ) : IndirectPredictor PCState :=
  let info := I.threadInfo tid
  match info.pathHist[info.headHistEntry]? with
  | none => I
  | some entry =>
    if entry.seqNum ≤ seqNum then
      if cfg.pathLength ≤ info.headHistEntry
        then I.setInfo tid { info with pathHist := info.pathHist.tail }
      else I.setInfo tid { info with headHistEntry := info.headHistEntry + 1 }
    else I

def squash (seqNum tid : ℕ) : IndirectPredictor PCState :=
  let info := I.threadInfo tid
  I.setInfo tid { info with pathHist := info.pathHist.takeWhile (·.seqNum ≤ seqNum) }

/-- `random` is the result of `rand()`. There is nothing to record without a path. -/
def recordTarget (isa : Isa PCState) (ghr : ℕ) (target : PCState) (tid random : ℕ) :
    Option (IndirectPredictor PCState) :=
  let info := I.threadInfo tid
  info.pathHist.getLast?.map fun entry =>
    let path := info.pathHist.dropLast
    let set := getSetIndex cfg entry.pcAddr ghr path
    let tag := getTag cfg entry.pcAddr
    let way := (I.findWay cfg set tag).getD (random % cfg.numWays)
    { I.setInfo tid
        { info with pathHist := path ++ [{ entry with targetAddr := isa.instAddr target }] } with
      targetCache := Function.update I.targetCache set
        (Function.update (I.targetCache set) way ⟨tag, target⟩) }

end IndirectPredictor

end EnocGem5.Pred
