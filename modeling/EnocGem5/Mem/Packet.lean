import Mathlib

/-!
# Packet — memory commands and packets

The command table of `mem/packet.cc` and the part of `Packet` and `Request` that the crossbar, the
snoop filter and the network model read: the command, the address and its security space, the
snoop flags, and the request's master, flags and time.

Addresses are 64-bit in the source and natural numbers here; the places that truncate them to `int`
say so explicitly.
-/

namespace EnocGem5.Mem

/-! ## Commands -/

inductive Attribute
  | IsRead
  | IsWrite
  | IsUpgrade
  | IsInvalidate
  | NeedsWritable
  | IsRequest
  | IsResponse
  | NeedsResponse
  | IsEviction
  | IsSWPrefetch
  | IsHWPrefetch
  | IsLlsc
  | HasData
  | IsError
  | IsPrint
  | IsFlush
  | FromCache
  deriving DecidableEq, Repr

/-- `MemCmd::Command`. -/
inductive MemCmd
  | InvalidCmd
  | ReadReq
  | ReadResp
  | ReadRespWithInvalidate
  | WriteReq
  | WriteResp
  | WritebackDirty
  | WritebackClean
  | CleanEvict
  | SoftPFReq
  | HardPFReq
  | SoftPFResp
  | HardPFResp
  | WriteLineReq
  | UpgradeReq
  | SCUpgradeReq
  | UpgradeResp
  | SCUpgradeFailReq
  | UpgradeFailResp
  | ReadExReq
  | ReadExResp
  | ReadCleanReq
  | ReadSharedReq
  | LoadLockedReq
  | StoreCondReq
  | StoreCondFailReq
  | StoreCondResp
  | SwapReq
  | SwapResp
  | MessageReq
  | MessageResp
  | MemFenceReq
  | MemFenceResp
  | InvalidDestError
  | BadAddressError
  | FunctionalReadError
  | FunctionalWriteError
  | PrintReq
  | FlushReq
  | InvalidateReq
  | InvalidateResp
  deriving DecidableEq, Repr

namespace MemCmd

open Attribute

/-- The attribute sets of `MemCmd::commandInfo`. -/
def attributes : MemCmd → List Attribute
  | InvalidCmd => []
  | ReadReq => [IsRead, IsRequest, NeedsResponse]
  | ReadResp => [IsRead, IsResponse, HasData]
  | ReadRespWithInvalidate => [IsRead, IsResponse, HasData, IsInvalidate]
  | WriteReq => [IsWrite, NeedsWritable, IsRequest, NeedsResponse, HasData]
  | WriteResp => [IsWrite, IsResponse]
  | WritebackDirty => [IsWrite, IsRequest, IsEviction, HasData, FromCache]
  | WritebackClean => [IsWrite, IsRequest, IsEviction, HasData, FromCache]
  | CleanEvict => [IsRequest, IsEviction, FromCache]
  | SoftPFReq => [IsRead, IsRequest, IsSWPrefetch, NeedsResponse]
  | HardPFReq => [IsRead, IsRequest, IsHWPrefetch, NeedsResponse, FromCache]
  | SoftPFResp => [IsRead, IsResponse, IsSWPrefetch, HasData]
  | HardPFResp => [IsRead, IsResponse, IsHWPrefetch, HasData]
  | WriteLineReq => [IsWrite, NeedsWritable, IsRequest, NeedsResponse, HasData]
  | UpgradeReq => [IsInvalidate, NeedsWritable, IsUpgrade, IsRequest, NeedsResponse, FromCache]
  | SCUpgradeReq =>
    [IsInvalidate, NeedsWritable, IsUpgrade, IsLlsc, IsRequest, NeedsResponse, FromCache]
  | UpgradeResp => [IsUpgrade, IsResponse]
  | SCUpgradeFailReq =>
    [IsRead, NeedsWritable, IsInvalidate, IsLlsc, IsRequest, NeedsResponse, FromCache]
  | UpgradeFailResp => [IsRead, IsResponse, HasData]
  | ReadExReq => [IsRead, NeedsWritable, IsInvalidate, IsRequest, NeedsResponse, FromCache]
  | ReadExResp => [IsRead, IsResponse, HasData]
  | ReadCleanReq => [IsRead, IsRequest, NeedsResponse, FromCache]
  | ReadSharedReq => [IsRead, IsRequest, NeedsResponse, FromCache]
  | LoadLockedReq => [IsRead, IsLlsc, IsRequest, NeedsResponse]
  | StoreCondReq => [IsWrite, NeedsWritable, IsLlsc, IsRequest, NeedsResponse, HasData]
  | StoreCondFailReq => [IsWrite, NeedsWritable, IsLlsc, IsRequest, NeedsResponse, HasData]
  | StoreCondResp => [IsWrite, IsLlsc, IsResponse]
  | SwapReq => [IsRead, IsWrite, NeedsWritable, IsRequest, HasData, NeedsResponse]
  | SwapResp => [IsRead, IsWrite, IsResponse, HasData]
  | MessageReq => [IsWrite, IsRequest, NeedsResponse, HasData]
  | MessageResp => [IsWrite, IsResponse]
  | MemFenceReq => [IsRequest, NeedsResponse]
  | MemFenceResp => [IsResponse]
  | InvalidDestError => [IsResponse, IsError]
  | BadAddressError => [IsResponse, IsError]
  | FunctionalReadError => [IsRead, IsResponse, IsError]
  | FunctionalWriteError => [IsWrite, IsResponse, IsError]
  | PrintReq => [IsRequest, IsPrint]
  | FlushReq => [IsRequest, IsFlush, NeedsWritable]
  | InvalidateReq => [IsInvalidate, IsRequest, NeedsWritable, NeedsResponse, FromCache]
  | InvalidateResp => [IsInvalidate, IsResponse]

/-- The response column of `MemCmd::commandInfo`. -/
def responseCommand : MemCmd → MemCmd
  | ReadReq => ReadResp
  | WriteReq => WriteResp
  | SoftPFReq => SoftPFResp
  | HardPFReq => HardPFResp
  | WriteLineReq => WriteResp
  | UpgradeReq => UpgradeResp
  | SCUpgradeReq => UpgradeResp
  | SCUpgradeFailReq => UpgradeFailResp
  | ReadExReq => ReadExResp
  | ReadCleanReq => ReadResp
  | ReadSharedReq => ReadResp
  | LoadLockedReq => ReadResp
  | StoreCondReq => StoreCondResp
  | StoreCondFailReq => StoreCondResp
  | SwapReq => SwapResp
  | MessageReq => MessageResp
  | MemFenceReq => MemFenceResp
  | InvalidateReq => InvalidateResp
  | _ => InvalidCmd

variable (cmd : MemCmd)

def testCmdAttrib (attrib : Attribute) : Bool := attrib ∈ cmd.attributes

def isRead : Bool := cmd.testCmdAttrib IsRead
def isWrite : Bool := cmd.testCmdAttrib IsWrite
def isUpgrade : Bool := cmd.testCmdAttrib IsUpgrade
def isRequest : Bool := cmd.testCmdAttrib IsRequest
def isResponse : Bool := cmd.testCmdAttrib IsResponse
def needsWritable : Bool := cmd.testCmdAttrib NeedsWritable
def needsResponse : Bool := cmd.testCmdAttrib NeedsResponse
def isInvalidate : Bool := cmd.testCmdAttrib IsInvalidate
def isEviction : Bool := cmd.testCmdAttrib IsEviction
def fromCache : Bool := cmd.testCmdAttrib FromCache
def hasData : Bool := cmd.testCmdAttrib HasData
def isLLSC : Bool := cmd.testCmdAttrib IsLlsc

/-- A writeback is an eviction that carries data. -/
def isWriteback : Bool := cmd.testCmdAttrib IsEviction && cmd.testCmdAttrib HasData

/-- A request never needs a response that is itself a request. -/
theorem responseCommand_isResponse {cmd : MemCmd} (h : cmd.needsResponse = true) :
    cmd.responseCommand.isResponse = true := by
  cases cmd <;> first | rfl | exact absurd h (by decide)

end MemCmd

/-! ## Requests and packets -/

/-- The fields of `Request` that the modelled code reads. -/
structure Request where
  masterId : ℕ
  isInstFetch : Bool := false
  isUncacheable : Bool := false
  time : ℕ := 0
  deriving DecidableEq, Repr

/-- The fields of `Packet` that the modelled code reads. -/
structure Packet where
  cmd : MemCmd
  req : Request
  addr : ℕ
  isSecure : Bool := false
  hasSharers : Bool := false
  cacheResponding : Bool := false
  responderHadWritable : Bool := false
  blockCached : Bool := false
  /-- One of `STATIC_DATA`, `DYNAMIC_DATA` is set, so `getPtr` passes its assertion. -/
  hasPtr : Bool := true
  deriving DecidableEq, Repr

namespace Packet

variable (pkt : Packet)

/-- `Packet::getBlockAddr`: `addr & ~(blk_size - 1)` for a power-of-two block size. -/
def getBlockAddr (blkSize : ℕ) : ℕ := pkt.addr - pkt.addr % blkSize

def isCleanEviction : Bool :=
  pkt.cmd = .CleanEvict || pkt.cmd = .WritebackClean

/-- `Packet::makeResponse`; `none` when one of its two assertions fails. -/
def makeResponse : Option Packet :=
  if pkt.cmd.needsResponse && pkt.cmd.isRequest then
    some { pkt with cmd := pkt.cmd.responseCommand }
  else
    none

end Packet

end EnocGem5.Mem
