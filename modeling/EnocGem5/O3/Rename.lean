import EnocGem5.Lib.Outcome
import EnocGem5.Lib.UndoLog
import EnocGem5.Lib.Run

/-!
# Rename — register renaming of the out-of-order CPU

The rename stage maps architectural registers to physical ones. A destination register gets a
physical register from the free list; the one it had before is written into the history buffer, and
goes back to the free list when the instruction commits. A squash walks the history from its newest
end and takes the renames back.

For each class of registers the stage is a pool in the sense of `Lib.UndoLog`: the history entries
of the class are its log. Registers that are not renamed (the zero register and the misc registers)
have entries whose two physical registers are equal.
-/

namespace EnocGem5.O3

open Lib

/-! ## Registers -/

inductive RegClass
  | IntRegClass
  | FloatRegClass
  | CCRegClass
  | MiscRegClass
  deriving DecidableEq, Repr

/-- The rename stage stops: an assertion fails, `getReg` finds its list empty, or a register index
is beyond the end of its map. -/
inductive Halt
  | assertion
  | noFreeReg
  | outOfRange
  deriving DecidableEq, Repr

abbrev Result := Except Halt

def check (b : Bool) : Result Unit := if b then .ok () else .error .assertion

/-- The constants of an ISA and the sizes of `PhysRegFile`. Register indices of all classes share
one range, in which the classes do not overlap, and there is a physical register for each
architectural one. -/
structure RegConfig where
  numIntRegs : ℕ
  numFloatRegs : ℕ
  numCCRegs : ℕ
  fpRegBase : ℕ
  ccRegBase : ℕ
  miscRegBase : ℕ
  maxRegIndex : ℕ
  intZeroReg : ℕ
  floatZeroReg : ℕ
  numPhysIntRegs : ℕ
  numPhysFloatRegs : ℕ
  numPhysCCRegs : ℕ
  int_le : numIntRegs ≤ fpRegBase
  float_le : fpRegBase + numFloatRegs ≤ ccRegBase
  cc_le : ccRegBase + numCCRegs ≤ miscRegBase
  misc_le : miscRegBase ≤ maxRegIndex
  phys_int_le : numIntRegs ≤ numPhysIntRegs
  phys_float_le : numFloatRegs ≤ numPhysFloatRegs
  phys_cc_le : numCCRegs ≤ numPhysCCRegs

namespace RegConfig

variable (M : RegConfig)

/-- The number of architectural registers that are renamed. -/
def numRegs : RegClass → ℕ
  | .IntRegClass => M.numIntRegs
  | .FloatRegClass => M.numFloatRegs
  | .CCRegClass => M.numCCRegs
  | .MiscRegClass => 0

def numPhysRegs : RegClass → ℕ
  | .IntRegClass => M.numPhysIntRegs
  | .FloatRegClass => M.numPhysFloatRegs
  | .CCRegClass => M.numPhysCCRegs
  | .MiscRegClass => 0

def baseFloatRegIndex : ℕ := M.numPhysIntRegs

def baseCCRegIndex : ℕ := M.numPhysIntRegs + M.numPhysFloatRegs

def totalNumPhysRegs : ℕ := M.numPhysIntRegs + M.numPhysFloatRegs + M.numPhysCCRegs

/-- The first index of a class, among all architectural and among all physical registers. -/
def regBase : RegClass → ℕ
  | .IntRegClass => 0
  | .FloatRegClass => M.fpRegBase
  | .CCRegClass => M.ccRegBase
  | .MiscRegClass => M.miscRegBase

def physBase : RegClass → ℕ
  | .IntRegClass => 0
  | .FloatRegClass => M.baseFloatRegIndex
  | .CCRegClass => M.baseCCRegIndex
  | .MiscRegClass => M.totalNumPhysRegs

/-- The map of condition codes has the index -1, which no register has. -/
def zeroReg : RegClass → Option ℕ
  | .IntRegClass => some M.intZeroReg
  | .FloatRegClass => some M.floatZeroReg
  | .CCRegClass => none
  | .MiscRegClass => none

def regIdxToClass (regIdx : ℕ) : Result (RegClass × ℕ) :=
  if regIdx < M.maxRegIndex then
    if regIdx < M.fpRegBase then .ok (.IntRegClass, regIdx)
    else if regIdx < M.ccRegBase then .ok (.FloatRegClass, regIdx - M.fpRegBase)
    else if regIdx < M.miscRegBase then .ok (.CCRegClass, regIdx - M.ccRegBase)
    else .ok (.MiscRegClass, regIdx - M.miscRegBase)
  else .error .assertion

/-- `isIntPhysReg`, `isFloatPhysReg` and `isCCPhysReg`. -/
def isPhysReg (c : RegClass) (reg : ℕ) : Bool :=
  M.physBase c ≤ reg && reg < M.physBase c + M.numPhysRegs c

def physRegs (c : RegClass) : List ℕ := List.range' (M.physBase c) (M.numPhysRegs c)

end RegConfig

/-! ## The stage -/

structure RenameHistory where
  instSeqNum : ℕ
  archReg : ℕ
  newPhysReg : ℕ
  prevPhysReg : ℕ
  deriving DecidableEq, Repr

/-- What renaming reads of an instruction. How an index is flattened depends on the thread's state
at the time of the call. -/
structure DynInst where
  seqNum : ℕ
  destRegs : List ℕ
  flatten : RegClass → ℕ → ℕ

/-- The rename map and the history of a thread, and the free list. -/
structure Rename where
  renameMap : RegClass → ℕ → ℕ
  freeList : RegClass → List ℕ
  historyBuffer : List RenameHistory

namespace Rename

variable (M : RegConfig) (c : RegClass)

def getReg (S : Rename) : Result (ℕ × Rename) :=
  match S.freeList c with
  | [] => .error .noFreeReg
  | reg :: rest => .ok (reg, { S with freeList := Function.update S.freeList c rest })

/-- `SimpleRenameMap::setEntry`. -/
def setClassEntry (archReg physReg : ℕ) (S : Rename) : Rename :=
  { S with
    renameMap := Function.update S.renameMap c (Function.update (S.renameMap c) archReg physReg) }

/-- `SimpleRenameMap::rename`. -/
def simpleRename (archReg : ℕ) (S : Rename) : Result ((ℕ × ℕ) × Rename) :=
  if archReg < M.numRegs c then
    let prevReg := S.renameMap c archReg
    if M.zeroReg c = some archReg then do
      check (prevReg = archReg)
      pure ((archReg, prevReg), S)
    else do
      let (renamedReg, S) ← S.getReg c
      pure ((renamedReg, prevReg), S.setClassEntry c archReg renamedReg)
  else .error .outOfRange

/-- `renameInt`, `renameFloat`, `renameCC` and `renameMisc` of `UnifiedRenameMap`. -/
def rename (relArchReg : ℕ) (S : Rename) : Result ((ℕ × ℕ) × Rename) :=
  match c with
  | .MiscRegClass =>
    let physReg := relArchReg + M.totalNumPhysRegs
    .ok ((physReg, physReg), S)
  | c => do
    let (info, S) ← S.simpleRename M c relArchReg
    check (M.isPhysReg c info.1)
    pure (info, S)

variable (inst : DynInst) (S : Rename)

def renameDestReg (destReg : ℕ) : Result Rename := do
  let (c, relDestReg) ← M.regIdxToClass destReg
  let flatRelDestReg := if c = .MiscRegClass then relDestReg else inst.flatten c relDestReg
  let (info, S) ← S.rename M c flatRelDestReg
  pure { S with
    historyBuffer := ⟨inst.seqNum, flatRelDestReg + M.regBase c, info.1,
      info.2⟩ :: S.historyBuffer }

def renameDestRegs : Result Rename :=
  inst.destRegs.foldlM (renameDestReg M inst) S

/-- `numIntDestRegs`, `numFPDestRegs` and `numCCDestRegs`, which the constructor of an instruction
counts together with its list of registers. -/
def numDestRegs (destRegs : List ℕ) (c : RegClass) : ℕ :=
  destRegs.countP fun r => ((M.regIdxToClass r).toOption.map Prod.fst) = some c

def canRename : Bool :=
  numDestRegs M inst.destRegs .IntRegClass ≤ (S.freeList .IntRegClass).length &&
    numDestRegs M inst.destRegs .FloatRegClass ≤ (S.freeList .FloatRegClass).length &&
    numDestRegs M inst.destRegs .CCRegClass ≤ (S.freeList .CCRegClass).length

def setEntry (archReg physReg : ℕ) (S : Rename) : Result Rename := do
  let (c, relArchReg) ← M.regIdxToClass archReg
  if c = .MiscRegClass then do
    check (physReg = relArchReg + M.totalNumPhysRegs)
    pure S
  else if relArchReg < M.numRegs c then do
    check (M.isPhysReg c physReg)
    pure (S.setClassEntry c relArchReg physReg)
  else .error .outOfRange

def pushReg (reg : ℕ) (S : Rename) : Rename :=
  { S with freeList := Function.update S.freeList c (S.freeList c ++ [reg]) }

def addReg (reg : ℕ) (S : Rename) : Result Rename :=
  if M.isPhysReg .IntRegClass reg then .ok (S.pushReg .IntRegClass reg)
  else if M.isPhysReg .FloatRegClass reg then .ok (S.pushReg .FloatRegClass reg)
  else do
    check (M.isPhysReg .CCRegClass reg)
    pure (S.pushReg .CCRegClass reg)

/-- The mapping of an entry is taken back, if it was really a change. -/
def undoEntry (e : RenameHistory) (S : Rename) : Result Rename :=
  if e.newPhysReg ≠ e.prevPhysReg then do
    let S ← S.setEntry M e.archReg e.prevPhysReg
    S.addReg M e.newPhysReg
  else .ok S

/-- The loop of `doSquash`, from the newest entry on. -/
def squashFrom (squashedSeqNum : ℕ) : List RenameHistory → Rename → Result Rename
  | [], S => .ok S
  | e :: es, S =>
    if squashedSeqNum < e.instSeqNum then do
      let S ← S.undoEntry M e
      squashFrom squashedSeqNum es { S with historyBuffer := es }
    else .ok S

def doSquash (squashedSeqNum : ℕ) (S : Rename) : Result Rename :=
  squashFrom M squashedSeqNum S.historyBuffer S

def freePrev (e : RenameHistory) (S : Rename) : Result Rename :=
  if e.newPhysReg ≠ e.prevPhysReg then S.addReg M e.prevPhysReg else .ok S

/-- The loop of `removeFromHistory`, from the oldest entry on. -/
def removeFrom (instSeqNum : ℕ) : List RenameHistory → Rename → Result Rename
  | [], S => .ok S
  | e :: es, S =>
    if e.instSeqNum ≤ instSeqNum then do
      let S ← S.freePrev M e
      removeFrom instSeqNum es { S with historyBuffer := es.reverse }
    else .ok S

def removeFromHistory (instSeqNum : ℕ) (S : Rename) : Result Rename :=
  removeFrom M instSeqNum S.historyBuffer.reverse S

/-- `PhysRegFile::initFreeList` puts all registers on the free lists. -/
def initFreeList : Rename := ⟨fun _ _ => 0, M.physRegs, []⟩

def initReg (ridx : ℕ) : Result Rename := do
  let (physReg, S) ← S.getReg c
  check (M.isPhysReg c physReg)
  pure (S.setClassEntry c ridx physReg)

/-- The constructor of the CPU gives each architectural register of the thread a physical one. -/
def initClass (c : RegClass) : Result Rename :=
  (List.range (M.numRegs c)).foldlM (initReg M c) S

def init : Result Rename :=
  [RegClass.IntRegClass, .FloatRegClass, .CCRegClass].foldlM (initClass M) (initFreeList M)

end Rename

end EnocGem5.O3
