import Gem5.Mem.Cache.Cache
import Gem5.Mem.Cache.LoadLocks
import Gem5.Mem.SnoopFilter

/-!
# Gem5.Mem.Atomic.Line

**The atomic mode of the classic memory system, for one block**: caches above a coherent crossbar,
with or without a snoop filter, and a memory below it. The atomic paths are those of
`src/mem/cache/cache.cc` and `base.cc` (`recvAtomic`, `handleAtomicReqMiss`, `handleFill`,
`handleSnoop`, `evictBlock`, `doWritebacksAtomic`) and of `src/mem/coherent_xbar.cc`
(`recvAtomicBackdoor`, `forwardAtomic`).

In atomic mode an access runs to its end before the next one starts: the cache that misses calls the
crossbar, the crossbar calls the other caches and the memory, and all of them change the packet in
place. The state is what is left between accesses: the copy of each cache, the bytes of the memory
and the entry of the snoop filter.

The crossbar is the point of coherency, the caches are mostly inclusive and not read-only, and there
are no caches above them. Cache maintenance, uncacheable accesses and locked accesses take branches
that end in a fault of their own here (`AtomicFault.notModelled`).
-/

namespace Gem5.Mem

open Gem5.Lib Function

/-! ### State -/

structure BusPacket extends XbarPacket where
  data : Nat → UInt8 := fun _ => 0

structure AtomicParams (N : Nat) where
  blkSize : Nat
  cache : Fin N → CacheParams
  writebackClean : Fin N → Bool
  hasFilter : Bool
  xbar : XbarParams
  blkSize_pos : 0 < blkSize
  sameBlkSize : ∀ i, (cache i).blkSize = blkSize
  mostlyIncl : ∀ i, (cache i).mostlyExcl = false
  writable : ∀ i, (cache i).isReadOnly = false
  pointOfCoherency : xbar.pointOfCoherency

/-- One block: the copy in each cache, the bytes in the memory, the entry of the filter. -/
structure AtomicLine (N : Nat) where
  copy : Fin N → LockedBlk
  memory : Nat → UInt8
  entry : Option (SnoopItem N)

inductive AtomicFault
  | blk (e : LockFault)
  | filter (e : FilterFault)
  | cache (e : CacheFault Empty)
  /-- A branch that accesses of this system do not take. -/
  | notModelled
  /-- `handleSnoop`: `assert(pkt->isRequest())` -/
  | notRequest
  /-- "got an invalidating uncacheable snoop request" -/
  | uncacheableSnoop
  /-- `handleSnoop`: `assert(!needs_writable)` -/
  | writableSnoop
  /-- "is passing a Modified line, but keeping the block" -/
  | modifiedKept
  /-- `makeResponse`: `assert(needsResponse())` -/
  | noResponseNeeded
  /-- `forwardAtomic`: the assertions on a snoop response -/
  | snoopResponse
  /-- `recvAtomicBackdoor`: `assert(!pkt->isResponse())`, with a snoop response -/
  | secondResponse
  /-- `assert(pkt->isResponse())` -/
  | notResponse
  /-- `handleFill`: `assert(addr == pkt->getBlockAddr(blkSize))` -/
  | notAligned
  /-- `handleFill`: `assert(pkt->hasData() || pkt->cmd == MemCmd::InvalidateResp)` -/
  | noData
  /-- `handleFill`: `assert(!pkt->hasSharers())`, on an `InvalidateResp` -/
  | sharedWholeLine
  deriving Repr, DecidableEq

def liftFault {ε α : Type} (f : ε → AtomicFault) : Except ε α → Except AtomicFault α
  | .error e => .error (f e)
  | .ok a => .ok a

variable {N : Nat}

variable (blkSize : Nat) (s : AtomicLine N)

def AtomicLine.setCopy (port : Fin N) (c : LockedBlk) : AtomicLine N :=
  { s with copy := Function.update s.copy port c }

@[simp] theorem AtomicLine.setCopy_self (port : Fin N) (c : LockedBlk) :
    (s.setCopy port c).copy port = c := update_self ..

theorem AtomicLine.setCopy_eq_self (src : Fin N) : s.setCopy src (s.copy src) = s := by
  rw [AtomicLine.setCopy, update_eq_self]

theorem AtomicLine.setCopy_of_ne {port j : Fin N} (c : LockedBlk) (h : j ≠ port) :
    (s.setCopy port c).copy j = s.copy j := update_of_ne h ..

variable (pkt : BusPacket)

def BusPacket.makeAtomicResponse : Except AtomicFault BusPacket :=
  if !pkt.needsResponse then .error .noResponseNeeded
  else if !pkt.isRequest then .error .notRequest
  else .ok { pkt with cmd := pkt.cmd.responseCommand, expressSnoop := false }

def BusPacket.setHasSharers : BusPacket := { pkt with hasSharers := true }

def BusPacket.setBlockCached : BusPacket := { pkt with blockCached := true }

/-! ### Snoops of a cache -/

namespace LockedBlk

variable (c : LockedBlk)

def invalidate : LockedBlk := { c with blk := c.blk.invalidate, lockList := [] }

/-- `clearCoherenceBits(WritableBit)`. -/
def downgrade : LockedBlk := { c with blk := { c.blk with writable := false } }

/-- The end of `handleSnoop`: a dirty copy responds to a packet that needs a response. -/
def respondIfDirty (pkt : BusPacket) : Except AtomicFault BusPacket :=
  if c.blk.isDirty && pkt.needsResponse then
    if !pkt.isInvalidate && !pkt.hasSharers then .error .modifiedKept
    else do
      let pkt ← { pkt with
        cacheResponding := true
        responderHadWritable := pkt.responderHadWritable || c.blk.isWritable }.makeAtomicResponse
      return if pkt.hasData then { pkt with data := c.data } else pkt
  else .ok pkt

/-- `Cache::handleSnoop` in atomic mode: the copy and the packet. -/
def handleSnoop (pkt : BusPacket) : Except AtomicFault (LockedBlk × BusPacket) :=
  if !pkt.isRequest then .error .notRequest
  else if pkt.isInvalidate && pkt.req.isUncacheable then .error .uncacheableSnoop
  else if pkt.isClean then .error .notModelled
  else if !c.blk.valid then .ok (c, pkt)
  else if pkt.mustCheckAbove then .ok (c, pkt.setBlockCached)
  else if pkt.isInvalidate then do
    let pkt ← c.respondIfDirty pkt
    return (c.invalidate, pkt)
  else if pkt.isRead then
    if pkt.needsWritable then .error .writableSnoop
    else do
      -- The copy becomes shared before it responds.
      let c := if pkt.req.isUncacheable then c else c.downgrade
      let pkt ← c.respondIfDirty pkt.setHasSharers
      return (c, pkt)
  else do
    let pkt ← c.respondIfDirty pkt
    return (c, pkt)

end LockedBlk

/-! ### The crossbar -/

/-- The loop of `forwardAtomic`: the block, the packet with its own command, and the command of the
snoop response. -/
structure Forwarded (N : Nat) where
  line : AtomicLine N
  pkt : BusPacket
  snoopResponseCmd : Option MemCmd := none

variable (P : AtomicParams N)

def snoopPort (src : Fin N) (f : Forwarded N) (port : Fin N) : Except AtomicFault (Forwarded N) :=
  if port = src then .ok f
  else do
    let (c, pkt) ← (f.line.copy port).handleSnoop f.pkt
    let line := f.line.setCopy port c
    if !pkt.isResponse then return { f with line := line, pkt := pkt }
    if pkt.cmd = f.pkt.cmd ∨ !pkt.cacheResponding ∨ f.snoopResponseCmd.isSome then
      throw .snoopResponse
    let entry ← if P.hasFilter then
        liftFault .filter (SnoopFilter.updateSnoopResponse line.entry pkt.toXbarPacket port src)
      else pure line.entry
    -- The remaining caches see the request again.
    return ⟨{ line with entry := entry }, { pkt with cmd := f.pkt.cmd }, some pkt.cmd⟩

def forwardAtomic (src : Fin N) (dests : List (Fin N)) (line : AtomicLine N) (pkt : BusPacket) :
    Except AtomicFault (Forwarded N) :=
  dests.foldlM (snoopPort P src) { line := line, pkt := pkt }

/-- The snoops of `recvAtomicBackdoor`. The filter says whether an evicted block is still cached, so
evictions are not sent up. -/
def snoopCaches (src : Fin N) (line : AtomicLine N) (pkt : BusPacket) :
    Except AtomicFault (Forwarded N) :=
  if pkt.cmd = .writeClean then .ok { line := line, pkt := pkt }
  else if P.hasFilter then do
    let (entry, dests) ← liftFault .filter
      (SnoopFilter.lookupRequest line.entry pkt.toXbarPacket src)
    let line := { line with entry := SnoopFilter.finishRequest entry }
    if pkt.isEviction then
      return { line := line, pkt := if dests.isEmpty then pkt else pkt.setBlockCached }
    else forwardAtomic P src dests line pkt
  else forwardAtomic P src (List.finRange N) line pkt

/-- `AbstractMemory::access`, of a packet for a whole block. -/
def memoryAccess (memory : Nat → UInt8) (pkt : BusPacket) :
    Except AtomicFault ((Nat → UInt8) × BusPacket) :=
  if pkt.cacheResponding ∨ pkt.cmd = .cleanEvict ∨ pkt.cmd = .writebackClean then .ok (memory, pkt)
  else if pkt.isRead then do
    let pkt ← { pkt with data := memory }.makeAtomicResponse
    return (memory, pkt)
  else if pkt.isWrite then
    if pkt.needsResponse then .error .notModelled else .ok (pkt.data, pkt)
  else .error .notModelled

/-- `recvAtomicBackdoor` after the snoops: the packet is sunk, sent to the memory or answered by the
crossbar. -/
def sendBelow (memory : Nat → UInt8) (pkt : BusPacket) :
    Except AtomicFault ((Nat → UInt8) × BusPacket) :=
  if P.xbar.sinkPacket pkt.toXbarPacket then .ok (memory, pkt)
  else if P.xbar.forwardPacket pkt.toXbarPacket then memoryAccess memory pkt
  else do
    let pkt ← pkt.makeAtomicResponse
    return (memory, pkt)

def tellFilter (src : Fin N) (entry : Option (SnoopItem N)) (pkt : BusPacket) :
    Except AtomicFault (Option (SnoopItem N)) :=
  if P.hasFilter && pkt.isResponse then
    liftFault .filter (SnoopFilter.updateResponse entry pkt.toXbarPacket src)
  else .ok entry

/-- `CoherentXBar::recvAtomicBackdoor`. -/
def CoherentXBar.recvAtomic (src : Fin N) (line : AtomicLine N) (pkt : BusPacket) :
    Except AtomicFault (AtomicLine N × BusPacket) := do
  let f ← snoopCaches P src line pkt
  let (memory, pkt) ← sendBelow P f.line.memory f.pkt
  let entry ← tellFilter P src f.line.entry pkt
  let line := { f.line with memory := memory, entry := entry }
  match f.snoopResponseCmd with
  | none => return (line, pkt)
  | some cmd => if pkt.isResponse then throw .secondResponse else return (line, { pkt with cmd := cmd })

/-! ### The caches -/

/-- A block of the tags with the bytes that the victim left. -/
def LockedBlk.allocated (stale : Nat → UInt8) (pkt : BusPacket) : LockedBlk :=
  ⟨({} : CacheBlk).insert pkt.addr pkt.secure, stale, []⟩

variable (c : LockedBlk)

/-- The end of `handleFill`: the coherence bits and the data. -/
def LockedBlk.fill (pkt : BusPacket) : LockedBlk where
  blk := { c.blk with
    readable := true
    writable := c.blk.writable || !pkt.hasSharers
    dirty := c.blk.dirty || (!pkt.hasSharers && pkt.cacheResponding) }
  data := if pkt.isRead then pkt.data else c.data
  lockList := c.lockList

def LockedBlk.handleFill (allocate : Bool) (stale : Nat → UInt8) (c : LockedBlk)
    (pkt : BusPacket) : Except AtomicFault LockedBlk :=
  if !pkt.isResponse then .error .notResponse
  else if pkt.addr ≠ pkt.getBlockAddr blkSize then .error .notAligned
  else if !c.blk.valid && !(pkt.hasData || pkt.cmd = .invalidateResp) then .error .noData
  else if !c.blk.valid && !allocate then .error .notModelled
  else if pkt.cmd = .invalidateResp ∧ pkt.hasSharers then .error .sharedWholeLine
  else .ok ((if c.blk.valid then c else .allocated stale pkt).fill pkt)

def LockedBlk.satisfy (x : Access) : Except AtomicFault LockedBlk := do
  let (_, c) ← liftFault .blk (c.satisfyRequest blkSize x)
  return c

/-- `Cache::handleAtomicReqMiss` from the response on. -/
def handleAtomicRsp (src : Fin N) (x : Access) (stale : Nat → UInt8) (line : AtomicLine N)
    (rsp : BusPacket) : Except AtomicFault (AtomicLine N) :=
  let wholeLine := x.pkt.isWholeLineWrite P.blkSize
  if !rsp.isResponse then .error .notResponse
  else if !wholeLine && !rsp.isRead && rsp.cmd ≠ .upgradeResp then .error .notModelled
  else do
    let c ← (line.copy src).handleFill P.blkSize ((P.cache src).allocOnFill x.pkt.cmd) stale rsp
    let c ← c.satisfy P.blkSize x
    -- The response to a whole-line write invalidates the other copies, not this one.
    return line.setCopy src (if rsp.isInvalidate && !wholeLine then c.invalidate else c)

def handleAtomicReqMiss (src : Fin N) (x : Access) (stale : Nat → UInt8) (line : AtomicLine N) :
    Except AtomicFault (AtomicLine N) :=
  if x.pkt.isEviction ∨ x.pkt.cmd = .writeClean then .error .notModelled
  else do
    let blk := if (line.copy src).blk.valid then some (line.copy src).blk else none
    let busPkt ← liftFault .cache (createMissPacket (P.cache src) x.pkt blk x.pkt.needsWritable
      (x.pkt.isWholeLineWrite P.blkSize))
    match busPkt with
    | none => throw .notModelled
    | some busPkt => do
        let (line, rsp) ← CoherentXBar.recvAtomic P src line { toPacket := busPkt }
        handleAtomicRsp P src x stale line rsp

/-- `BaseCache::recvAtomic`: `access`, or a miss. -/
def accessAtomic (src : Fin N) (x : Access) (stale : Nat → UInt8) (line : AtomicLine N) :
    Except AtomicFault (AtomicLine N) :=
  if (line.copy src).blk.valid && (line.copy src).blk.serves x.pkt then do
    let c ← (line.copy src).satisfy P.blkSize x
    return line.setCopy src c
  else handleAtomicReqMiss P src x stale line

/-- `Cache::recvAtomic` of a packet of the CPU: the block, and the bytes of a read. -/
def recvAtomic (src : Fin N) (x : Access) (stale : Nat → UInt8) (line : AtomicLine N) :
    Except AtomicFault (AtomicLine N × (Nat → UInt8)) :=
  let x := { x with pkt := promoteWholeLineWrites (P.cache src) x.pkt }
  if x.pkt.cacheResponding ∨ x.pkt.req.isUncacheable ∨ x.pkt.req.isCacheMaintenance then
    .error .notModelled
  else do
    let line ← accessAtomic P src x stale line
    return (line, fun i => (line.copy src).data (x.pkt.getOffset P.blkSize + i))

def writebackBlk : BusPacket where
  cmd := if c.blk.isDirty then .writebackDirty else .writebackClean
  req := { paddr := some c.blk.addr, size := blkSize, flags := { secure := c.blk.secure } }
  addr := c.blk.addr
  size := blkSize
  secure := c.blk.secure
  hasSharers := !c.blk.isWritable
  data := c.data

def cleanEvictBlk : BusPacket where
  cmd := .cleanEvict
  req := { paddr := some c.blk.addr, size := blkSize, flags := { secure := c.blk.secure } }
  addr := c.blk.addr
  size := blkSize
  secure := c.blk.secure

/-- `Cache::evictBlock` and `doWritebacksAtomic`: a copy leaves its cache. -/
def evictAtomic (src : Fin N) (line : AtomicLine N) : Except AtomicFault (AtomicLine N) :=
  let c := line.copy src
  if !c.blk.valid then .ok line
  else do
    let pkt := if c.blk.isDirty || P.writebackClean src then writebackBlk P.blkSize c
      else cleanEvictBlk P.blkSize c
    let (line, _) ← CoherentXBar.recvAtomic P src (line.setCopy src c.invalidate) pkt
    return line

/-! ### Runs -/

/-- An access of a CPU to its cache, or the eviction of a copy. `stale` are the bytes that a victim
left in the block that a miss allocates. -/
inductive AtomicOp (N : Nat)
  | access (src : Fin N) (x : Access) (stale : Nat → UInt8)
  | evict (src : Fin N)

structure ReadEvent where
  access : Access
  returned : Nat → UInt8
  before : List Access

/-- The block with what the CPUs did: the writes and the reads, the newest first. -/
structure AtomicRun (N : Nat) where
  line : AtomicLine N
  initial : Nat → UInt8
  writes : List Access
  reads : List ReadEvent

/-- **The bytes of the most recent writes**: each byte is that of the newest write to it, or the
initial one. -/
def recent (initial : Nat → UInt8) (writes : List Access) : Nat → UInt8 :=
  writes.foldr (fun x bytes => x.writeData (x.pkt.getOffset blkSize) bytes) initial

def AtomicRun.step (s : AtomicRun N) : AtomicOp N → Except AtomicFault (AtomicRun N)
  | .evict src => do
      let line ← evictAtomic P src s.line
      return { s with line := line }
  | .access src x stale => do
      let (line, bytes) ← recvAtomic P src x stale s.line
      return if x.pkt.isWrite then { s with line := line, writes := x :: s.writes }
        else { s with line := line, reads := ⟨x, bytes, s.writes⟩ :: s.reads }

/-- A `ReadReq` or `WriteReq` of a CPU, to bytes of the block at `addr`. -/
structure CpuAccess (blkSize addr : Nat) (secure : Bool) (x : Access) : Prop where
  cmd : x.pkt.cmd = .readReq ∨ x.pkt.cmd = .writeReq
  inBlock : x.pkt.getBlockAddr blkSize = addr ∧ x.pkt.getOffset blkSize + x.pkt.size ≤ blkSize
  paddr : x.pkt.req.paddr = some x.pkt.addr
  secure : x.pkt.secure = secure ∧ x.pkt.req.flags.secure = secure
  flags : x.pkt.cacheResponding = false ∧ x.pkt.hasSharers = false
  cacheable : x.pkt.req.isUncacheable = false ∧ x.pkt.req.isCacheMaintenance = false

instance (blkSize addr : Nat) (secure : Bool) (x : Access) :
    Decidable (CpuAccess blkSize addr secure x) :=
  decidable_of_iff (_ ∧ _ ∧ _ ∧ _ ∧ _ ∧ _)
    ⟨fun ⟨h₁, h₂, h₃, h₄, h₅, h₆⟩ => ⟨h₁, h₂, h₃, h₄, h₅, h₆⟩,
      fun h => ⟨h.cmd, h.inBlock, h.paddr, h.secure, h.flags, h.cacheable⟩⟩

/-- The caches under accesses of their CPUs to one block, and evictions of it. -/
def atomicSystem (addr : Nat) (secure : Bool) : System (AtomicRun N) (AtomicOp N) AtomicFault where
  init s := (∀ i, (s.line.copy i).blk.valid = false) ∧ s.line.entry = none ∧
    s.line.memory = s.initial ∧ s.writes = [] ∧ s.reads = []
  step := AtomicRun.step P
  pre _ op := match op with
    | .access _ x _ => CpuAccess P.blkSize addr secure x
    | .evict _ => True

instance (addr : Nat) (secure : Bool) (s : AtomicRun N) (op) :
    Decidable ((atomicSystem P addr secure).pre s op) := by
  cases op <;> dsimp only [atomicSystem] <;> infer_instance

end Gem5.Mem
