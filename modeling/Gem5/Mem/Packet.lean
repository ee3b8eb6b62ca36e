import Mathlib

/-!
# Gem5.Mem.Packet

Memory **commands**, requests and packets (`src/mem/packet.hh`,
`src/mem/packet.cc`, `src/mem/request.hh`).

What a command is, for the caches, is its row of `MemCmd::commandInfo`: a list of
attributes and the command of its response. Every predicate on packets is a
lookup in that table. A request carries the addresses and the request flags; a
packet adds the command and the coherence flags of one hop.

Data payloads, delays and the statistics fields of packets are not modelled.
-/

namespace Gem5.Mem

/-- `MemCmd::Command`. -/
inductive MemCmd
  | invalidCmd
  | readReq
  | readResp
  | readRespWithInvalidate
  | writeReq
  | writeResp
  | writeCompleteResp
  | writebackDirty
  | writebackClean
  | writeClean
  | cleanEvict
  | softPFReq
  | softPFExReq
  | hardPFReq
  | softPFResp
  | hardPFResp
  | writeLineReq
  | upgradeReq
  | scUpgradeReq
  | upgradeResp
  | scUpgradeFailReq
  | upgradeFailResp
  | readExReq
  | readExResp
  | readCleanReq
  | readSharedReq
  | loadLockedReq
  | storeCondReq
  | storeCondFailReq
  | storeCondResp
  | swapReq
  | swapResp
  | memFenceReq
  | memSyncReq
  | memSyncResp
  | memFenceResp
  | cleanSharedReq
  | cleanSharedResp
  | cleanInvalidReq
  | cleanInvalidResp
  | invalidDestError
  | badAddressError
  | functionalReadError
  | functionalWriteError
  | printReq
  | flushReq
  | invalidateReq
  | invalidateResp
  | htmReq
  | htmReqResp
  | htmAbort
  deriving Repr, DecidableEq

inductive Attribute
  | isRead
  | isWrite
  | isUpgrade
  | isInvalidate
  | isClean
  | needsWritable
  | isRequest
  | isResponse
  | needsResponse
  | isEviction
  | isSWPrefetch
  | isHWPrefetch
  | isLlsc
  | hasData
  | isError
  | isPrint
  | isFlush
  | fromCache
  deriving Repr, DecidableEq

namespace MemCmd

open Attribute in
/-- `MemCmd::commandInfo`: the attributes of each command and its response. -/
def commandInfo : MemCmd → List Attribute × MemCmd
  | invalidCmd => ([], invalidCmd)
  | readReq => ([isRead, isRequest, needsResponse], readResp)
  | readResp => ([isRead, isResponse, hasData], invalidCmd)
  | readRespWithInvalidate => ([isRead, isResponse, hasData, isInvalidate], invalidCmd)
  | writeReq => ([isWrite, needsWritable, isRequest, needsResponse, hasData], writeResp)
  | writeResp => ([isWrite, isResponse], invalidCmd)
  | writeCompleteResp => ([isWrite, isResponse], invalidCmd)
  | writebackDirty => ([isWrite, isRequest, isEviction, hasData, fromCache], invalidCmd)
  | writebackClean => ([isWrite, isRequest, isEviction, hasData, fromCache], invalidCmd)
  | writeClean => ([isWrite, isRequest, hasData, fromCache], invalidCmd)
  | cleanEvict => ([isRequest, isEviction, fromCache], invalidCmd)
  | softPFReq => ([isRead, isRequest, isSWPrefetch, needsResponse], softPFResp)
  | softPFExReq =>
    ([isRead, needsWritable, isInvalidate, isRequest, isSWPrefetch, needsResponse], softPFResp)
  | hardPFReq => ([isRead, isRequest, isHWPrefetch, needsResponse, fromCache], hardPFResp)
  | softPFResp => ([isRead, isResponse, isSWPrefetch, hasData], invalidCmd)
  | hardPFResp => ([isRead, isResponse, isHWPrefetch, hasData], invalidCmd)
  | writeLineReq => ([isWrite, needsWritable, isRequest, needsResponse, hasData], writeResp)
  | upgradeReq =>
    ([isInvalidate, needsWritable, isUpgrade, isRequest, needsResponse, fromCache], upgradeResp)
  | scUpgradeReq =>
    ([isInvalidate, needsWritable, isUpgrade, isLlsc, isRequest, needsResponse, fromCache],
      upgradeResp)
  | upgradeResp => ([isUpgrade, isResponse], invalidCmd)
  | scUpgradeFailReq =>
    ([isRead, needsWritable, isInvalidate, isLlsc, isRequest, needsResponse, fromCache],
      upgradeFailResp)
  | upgradeFailResp => ([isRead, isResponse, hasData], invalidCmd)
  | readExReq =>
    ([isRead, needsWritable, isInvalidate, isRequest, needsResponse, fromCache], readExResp)
  | readExResp => ([isRead, isResponse, hasData], invalidCmd)
  | readCleanReq => ([isRead, isRequest, needsResponse, fromCache], readResp)
  | readSharedReq => ([isRead, isRequest, needsResponse, fromCache], readResp)
  | loadLockedReq => ([isRead, isLlsc, isRequest, needsResponse], readResp)
  | storeCondReq =>
    ([isWrite, needsWritable, isLlsc, isRequest, needsResponse, hasData], storeCondResp)
  | storeCondFailReq =>
    ([isWrite, needsWritable, isLlsc, isRequest, needsResponse, hasData], storeCondResp)
  | storeCondResp => ([isWrite, isLlsc, isResponse], invalidCmd)
  | swapReq => ([isRead, isWrite, needsWritable, isRequest, hasData, needsResponse], swapResp)
  | swapResp => ([isRead, isWrite, isResponse, hasData], invalidCmd)
  | memFenceReq => ([isRequest, needsResponse], memFenceResp)
  | memSyncReq => ([isRequest, needsResponse], memSyncResp)
  | memSyncResp => ([isResponse], invalidCmd)
  | memFenceResp => ([isResponse], invalidCmd)
  | cleanSharedReq => ([isRequest, isClean, needsResponse, fromCache], cleanSharedResp)
  | cleanSharedResp => ([isResponse, isClean], invalidCmd)
  | cleanInvalidReq =>
    ([isRequest, isInvalidate, isClean, needsResponse, fromCache], cleanInvalidResp)
  | cleanInvalidResp => ([isResponse, isInvalidate, isClean], invalidCmd)
  | invalidDestError => ([isResponse, isError], invalidCmd)
  | badAddressError => ([isResponse, isError], invalidCmd)
  | functionalReadError => ([isRead, isResponse, isError], invalidCmd)
  | functionalWriteError => ([isWrite, isResponse, isError], invalidCmd)
  | printReq => ([isRequest, isPrint], invalidCmd)
  | flushReq => ([isRequest, isFlush, needsWritable], invalidCmd)
  | invalidateReq =>
    ([isInvalidate, isRequest, needsWritable, needsResponse, fromCache], invalidateResp)
  | invalidateResp => ([isInvalidate, isResponse], invalidCmd)
  | htmReq => ([isRead, isRequest, needsResponse], htmReqResp)
  | htmReqResp => ([isRead, isResponse], invalidCmd)
  | htmAbort => ([isRead, isRequest], invalidCmd)

variable (c : MemCmd)

def testCmdAttrib (a : Attribute) : Bool := a ∈ (commandInfo c).1

def isRead : Bool := c.testCmdAttrib .isRead
def isWrite : Bool := c.testCmdAttrib .isWrite
def isUpgrade : Bool := c.testCmdAttrib .isUpgrade
def isRequest : Bool := c.testCmdAttrib .isRequest
def isResponse : Bool := c.testCmdAttrib .isResponse
def needsWritable : Bool := c.testCmdAttrib .needsWritable
def needsResponse : Bool := c.testCmdAttrib .needsResponse
def isInvalidate : Bool := c.testCmdAttrib .isInvalidate
def isEviction : Bool := c.testCmdAttrib .isEviction
def isClean : Bool := c.testCmdAttrib .isClean
def fromCache : Bool := c.testCmdAttrib .fromCache
def hasData : Bool := c.testCmdAttrib .hasData
def isLLSC : Bool := c.testCmdAttrib .isLlsc
def isSWPrefetch : Bool := c.testCmdAttrib .isSWPrefetch
def isHWPrefetch : Bool := c.testCmdAttrib .isHWPrefetch
def isError : Bool := c.testCmdAttrib .isError

def isWriteback : Bool := c.isEviction && c.hasData

def isPrefetch : Bool := c.isSWPrefetch || c.isHWPrefetch

def responseCommand : MemCmd := (commandInfo c).2

/-- `Packet::hasRespData`: the response to the command carries data. -/
def hasRespData : Bool := c.responseCommand.hasData

end MemCmd

structure RequestFlags where
  instFetch : Bool := false
  uncacheable : Bool := false
  strictOrder : Bool := false
  privileged : Bool := false
  llsc : Bool := false
  memSwap : Bool := false
  memSwapCond : Bool := false
  secure : Bool := false
  clean : Bool := false
  invalidate : Bool := false
  /-- `ATOMIC_RETURN_OP` or `ATOMIC_NO_RETURN_OP`. -/
  atomic : Bool := false
  deriving Repr, DecidableEq

/-- `Request`. An address or a program counter that was not set is `none`. -/
structure Request where
  paddr : Option Nat := none
  vaddr : Option Nat := none
  pc : Option Nat := none
  size : Nat := 0
  requestorId : Nat := 0
  /-- Some bytes are not enabled. -/
  masked : Bool := false
  flags : RequestFlags := {}
  deriving Repr, DecidableEq

namespace Request

variable (r : Request)

def isInstFetch : Bool := r.flags.instFetch
def isUncacheable : Bool := r.flags.uncacheable
def isCacheInvalidate : Bool := r.flags.invalidate

/-- `Request::isCacheMaintenance`: `CLEAN` or `INVALIDATE` is set. -/
def isCacheMaintenance : Bool := r.flags.clean || r.flags.invalidate

end Request

/-- `Packet`. `id` stands for the identity of the packet, and `hasSenderMshr`
says that `findNextSenderState<MSHR>()` finds an MSHR of an upstream cache. -/
structure Packet where
  cmd : MemCmd
  id : Nat := 0
  req : Request := {}
  /-- The instruction that issued the packet. -/
  instrId : Nat := 0
  sourceSet : Nat := 0
  sourceWay : Nat := 0
  addr : Nat := 0
  size : Nat := 0
  secure : Bool := false
  hasSharers : Bool := false
  expressSnoop : Bool := false
  cacheResponding : Bool := false
  responderHadWritable : Bool := false
  satisfied : Bool := false
  writeThrough : Bool := false
  hasSenderMshr : Bool := false
  /-- A conditional swap finds the value it expects. -/
  compareHolds : Bool := false
  deriving Repr, DecidableEq

namespace Packet

variable (p : Packet)

def isRead : Bool := p.cmd.isRead
def isWrite : Bool := p.cmd.isWrite
def isUpgrade : Bool := p.cmd.isUpgrade
def isRequest : Bool := p.cmd.isRequest
def isResponse : Bool := p.cmd.isResponse
def needsWritable : Bool := p.cmd.needsWritable
def needsResponse : Bool := p.cmd.needsResponse
def isInvalidate : Bool := p.cmd.isInvalidate
def isEviction : Bool := p.cmd.isEviction
def isClean : Bool := p.cmd.isClean
def fromCache : Bool := p.cmd.fromCache
def isWriteback : Bool := p.cmd.isWriteback
def isLLSC : Bool := p.cmd.isLLSC
def isError : Bool := p.cmd.isError
def hasData : Bool := p.cmd.hasData
def hasRespData : Bool := p.cmd.hasRespData

def isCleanEviction : Bool := p.cmd = .cleanEvict || p.cmd = .writebackClean

def mustCheckAbove : Bool := p.cmd = .hardPFReq || p.isEviction

def isMaskedWrite : Bool := p.cmd = .writeReq && p.req.masked

/-- `Packet::getOffset`, for a block size that is a power of two. -/
def getOffset (blkSize : Nat) : Nat := p.addr % blkSize

def getBlockAddr (blkSize : Nat) : Nat := p.addr - p.addr % blkSize

def isWholeLineWrite (blkSize : Nat) : Bool :=
  (p.cmd = .writeReq ∨ p.cmd = .writeLineReq) ∧ p.getOffset blkSize = 0 ∧ p.size = blkSize

end Packet

end Gem5.Mem
