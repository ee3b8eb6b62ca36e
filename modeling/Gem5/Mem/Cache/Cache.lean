import Gem5.Mem.Cache.Blk

/-!
# Gem5.Mem.Cache.Cache

The **timing path of a cache** (`src/mem/cache/base.cc`, `cache.cc`, `tags/base_set_assoc.hh`):
demand requests, responses, snoops, the requests it sends downstream and the prefetches it
issues, with the blocks they read, fill, change and drop.

A prefetcher listens to the cache through its probes (`ppHit`, `ppMiss`, `ppFill`,
`ppInvalidate`, `ppSquash`) and is asked for packets. The cache is modelled over an arbitrary
`Listener`, so one model serves every prefetcher.

What the rest of the simulator decides is an input of each call (`CacheEnv`): the time, the way
the replacement policy picks, whether the write buffer holds the block. The write buffer itself,
compression, write allocators, the limits on MSHRs and targets, and everything that is only
counted, delayed or printed are not modelled.
-/

namespace Gem5.Mem

open Gem5.Lib

/-! ### State -/

structure CacheParams where
  numSets : Nat
  assoc : Nat
  blkSize : Nat
  numSets_pos : 0 < numSets
  /-- `clusivity == mostly_excl` -/
  mostlyExcl : Bool := false
  isReadOnly : Bool := false
  /-- There are caches above. -/
  forwardSnoops : Bool := false
  /-- `name() == "system.cpu_cluster.cpus.icache"` -/
  isIcache : Bool := false

namespace CacheParams

variable (p : CacheParams)

def blkAlign (addr : Nat) : Nat := addr - addr % p.blkSize

/-- `SetAssociative::extractSet`. -/
def setOf (addr : Nat) : Fin p.numSets :=
  ⟨addr / p.blkSize % p.numSets, Nat.mod_lt _ p.numSets_pos⟩

def allocOnFill (cmd : MemCmd) : Bool :=
  !p.mostlyExcl || cmd = .writeLineReq || cmd = .readReq || cmd = .writeReq || cmd.isPrefetch ||
    cmd.isLLSC

end CacheParams

/-- A block of the cache: one of the tags, or `tempBlock`. -/
inductive BlkRef (p : CacheParams)
  | tags (set : Fin p.numSets) (way : Fin p.assoc)
  | temp
  deriving DecidableEq

/-- The blocks and the allocated MSHRs, in the order of their allocation. -/
structure Cache (p : CacheParams) where
  blk : BlkRef p → CacheBlk
  mshrs : List Mshr

namespace Cache

variable {p : CacheParams}

def empty (p : CacheParams) : Cache p := ⟨fun _ => {}, []⟩

variable (c : Cache p)

def findBlock (addr : Nat) (secure : Bool) : Option (BlkRef p) :=
  ((List.finRange p.assoc).find? fun way =>
    (c.blk (.tags (p.setOf addr) way)).matchTag (p.blkAlign addr) secure).map (.tags (p.setOf addr))

def hasBeenPrefetched (addr : Nat) (secure : Bool) : Bool :=
  (c.findBlock addr secure).any fun ref => (c.blk ref).prefetched

/-- `Queue::findMatch`, on the MSHRs. Those of uncacheable accesses never match. -/
def findMatch (blkAddr : Nat) (secure : Bool) : Option Nat :=
  c.mshrs.findIdx? fun m => !m.isUncacheable && m.blkAddr = blkAddr && m.isSecure = secure

def setBlk (ref : BlkRef p) (b : CacheBlk) : Cache p :=
  { c with blk := Function.update c.blk ref b }

end Cache

def Mshr.isCleaning (m : Mshr) : Bool := m.targets.elems.head?.any (·.pkt.isClean)

/-- The prefetcher of a cache, as far as the cache knows it: what it does when a probe fires,
when it is asked for a packet and when that packet is issued. `τ` is what the prefetcher reads
besides its own state `P`, and `ε` are its assertions. -/
structure Listener (p : CacheParams) (P τ ε : Type) where
  /-- `Base::probeNotify`, from `ppHit` and `ppMiss`. -/
  probeNotify : τ → Cache p → Packet → (miss : Bool) → P → Except ε P
  /-- `Base::notifyFill`, from `ppFill`. -/
  notifyFill : τ → Packet → P → Except ε P
  /-- `Base::notifyInvalidate` of a virtual address, from `ppInvalidate`. -/
  notifyInvalidate : τ → Nat → P → Except ε P
  /-- `Base::notifySquash`, from `ppSquash`. -/
  notifySquash : τ → Packet → P → Except ε P
  /-- `Base::getPacket` returns the packet. -/
  getPacket : τ → Packet → P → Except ε P
  /-- `Queued::prefetch_issued_to_pq` of a line and the pair it is prefetched for. -/
  prefetchIssuedToPq : τ → (lineAddr sourceSet sourceWay : Nat) → P → Except ε P

structure CacheState (p : CacheParams) (P : Type) where
  cache : Cache p
  pf : P

/-- What the rest of the simulator supplies to a call. -/
structure CacheEnv (p : CacheParams) (τ : Type) where
  time : Nat := 0
  order : Nat := 0
  /-- The way that `findVictim` picks. -/
  victim : Fin p.assoc
  /-- The write buffer holds the block. -/
  wbMatch : Bool := false
  ext : τ

inductive CacheFault (ε : Type)
  | mshr (e : MshrFault)
  | blk (e : BlkFault)
  | prefetcher (e : ε)
  /-- There is no such MSHR. -/
  | noMshr
  /-- `handleEvictions`: the victim has an MSHR that is neither an upgrade nor a clean. -/
  | victimInUse
  /-- `Request::getVaddr`: the request has no virtual address. -/
  | noVaddr
  /-- `handleTimingReqMiss`: a miss on a block that could have been used. -/
  | usableBlock
  /-- `handleTimingReqMiss`: `assert(!pkt->isWriteback())` -/
  | writebackTarget
  /-- `handleTimingReqMiss`: an uncacheable access is a write or a read. -/
  | uncacheableCmd
  /-- `assert(pkt->isResponse())` -/
  | notResponse
  /-- `recvTimingResp`: a write response is uncacheable. -/
  | writeResponse
  /-- `recvTimingResp`: `assert(!mshr->wasWholeLineWrite || pkt->isInvalidate())` -/
  | wholeLineResponse
  /-- `handleFill`: `assert(addr == pkt->getBlockAddr(blkSize))` -/
  | notAligned
  /-- `handleFill`: `assert(pkt->hasData() || pkt->cmd == MemCmd::InvalidateResp)` -/
  | noData
  /-- `handleFill`: a whole-line write got a shared block. -/
  | sharedWholeLine
  /-- `setValid`: `assert(!isValid())`, on `tempBlock` -/
  | tempInUse
  /-- `setCoherenceBits`: `assert(isValid())`, or the block is null. -/
  | noBlk
  /-- `recvTimingReq`: a cache above is responding. -/
  | responderWritable
  /-- `serviceMSHRTargets`: `assert(tgt_pkt->cmd == MemCmd::HardPFReq)` -/
  | notPrefetch
  /-- `serviceMSHRTargets`: a deferred snoop meets an error. -/
  | snoopError
  /-- `serviceMSHRTargets`: a whole-line write needs a writable block. -/
  | writeLine
  /-- `serviceMSHRTargets`: `assert(!tgt_pkt->hasRespData())` -/
  | dataExpected
  /-- `handleSnoop`: an invalidating uncacheable snoop. -/
  | uncacheableSnoop
  /-- `handleSnoop`: `assert(!needs_writable)`, on a read that does not invalidate. -/
  | writableSnoop
  /-- `createMissPacket` -/
  | missPacket
  /-- `sendMSHRQueuePacket`: `assert(!pkt->isWrite())` -/
  | forwardedWrite
  /-- `sendMSHRQueuePacket`: a hardware prefetch to an allocated block. -/
  | prefetchPresent
  deriving Repr, DecidableEq

namespace CacheState

variable {p : CacheParams} {P : Type}

def setBlk (s : CacheState p P) (ref : BlkRef p) (b : CacheBlk) : CacheState p P :=
  { s with cache := s.cache.setBlk ref b }

def setMshrs (s : CacheState p P) (mshrs : List Mshr) : CacheState p P :=
  { s with cache := { s.cache with mshrs := mshrs } }

def tell {ε : Type} (s : CacheState p P) (f : P → Except ε P) :
    Except (CacheFault ε) (CacheState p P) :=
  match f s.pf with
  | .error e => .error (.prefetcher e)
  | .ok pf => .ok { s with pf := pf }

end CacheState

def ofMshr {ε α : Type} : Except MshrFault α → Except (CacheFault ε) α
  | .error e => .error (.mshr e)
  | .ok a => .ok a

variable {p : CacheParams} {P τ ε : Type} (L : Listener p P τ ε) (env : CacheEnv p τ)

/-! ### Dropping and allocating blocks -/

/-- `BaseCache::invalidateBlock`. Only the instruction cache tells its prefetcher, and only about
the tags. -/
def invalidateBlock (ref : BlkRef p) (s : CacheState p P) :
    Except (CacheFault ε) (CacheState p P) :=
  let b := s.cache.blk ref
  let s := s.setBlk ref b.invalidate
  match ref with
  | .temp => .ok s
  | .tags _ _ => if p.isIcache then s.tell (L.notifyInvalidate env.ext b.vaddr) else .ok s

/-- `Cache::evictBlock`. The packet that goes to the write buffer is not modelled; the bits it
clears are cleared by the invalidation. -/
def evictBlock (ref : BlkRef p) (s : CacheState p P) : Except (CacheFault ε) (CacheState p P) :=
  invalidateBlock L env ref s

variable (pkt : Packet)

/-- `BaseTags::insertBlock`, and the virtual address that the instruction cache adds. -/
def insertBlock (ref : BlkRef p) (s : CacheState p P) : Except (CacheFault ε) (CacheState p P) :=
  let b := (s.cache.blk ref).insert (p.blkAlign pkt.addr) pkt.secure
  if p.isIcache then
    match pkt.req.vaddr with
    | none => .error .noVaddr
    | some vaddr => .ok (s.setBlk ref { b with vaddr := vaddr })
  else .ok (s.setBlk ref b)

/-- `BaseCache::handleEvictions` on the victim alone: whether it could be evicted. A victim with
an outstanding upgrade or clean request stays. -/
def handleEvictions (ref : BlkRef p) (s : CacheState p P) :
    Except (CacheFault ε) (Bool × CacheState p P) :=
  let victim := s.cache.blk ref
  if !victim.valid then .ok (true, s)
  else
    match (s.cache.findMatch victim.addr victim.secure).bind fun i => s.cache.mshrs[i]? with
    | some m =>
      if (!victim.isWritable && m.targets.flags.needsWritable) || m.isCleaning then .ok (false, s)
      else .error .victimInUse
    | none => do
        let s ← evictBlock L env ref s
        return (true, s)

variable (blk : Option (BlkRef p)) (s : CacheState p P)

def allocateBlock :
    Except (CacheFault ε) (Option (BlkRef p) × CacheState p P) := do
  let ref := .tags (p.setOf pkt.addr) env.victim
  let (evicted, s) ← handleEvictions L env ref s
  if evicted then
    let s ← insertBlock pkt ref s
    return (some ref, s)
  else return (none, s)

def maintainClusivity (fromCache : Bool) (blk : Option (BlkRef p)) (s : CacheState p P) :
    Except (CacheFault ε) (CacheState p P) :=
  match blk with
  | none => .ok s
  | some ref =>
    if fromCache && (s.cache.blk ref).valid && !(s.cache.blk ref).isDirty && p.mostlyExcl then
      invalidateBlock L env ref s
    else .ok s

/-- `Cache::satisfyRequest`, on a block of the cache. -/
def satisfyFrom (ref : BlkRef p) (pkt : Packet) (deferredResponse pendingDowngrade : Bool)
    (s : CacheState p P) : Except (CacheFault ε) (Packet × CacheState p P) :=
  match satisfyRequest p.blkSize (s.cache.blk ref) pkt deferredResponse pendingDowngrade with
  | .error e => .error (.blk e)
  | .ok (b, pkt) =>
    if b.valid then .ok (pkt, s.setBlk ref b)
    else do
      let s ← invalidateBlock L env ref s
      return (pkt, s)

/-! ### Demand requests -/

/-- What `access` returns. -/
structure Accessed (p : CacheParams) (P : Type) where
  satisfied : Bool
  blk : Option (BlkRef p)
  pkt : Packet
  state : CacheState p P

/-- A block that `access` is about to write into: the one it found or a newly allocated one. -/
def blockToWrite (pkt : Packet) (s : CacheState p P) :
    Except (CacheFault ε) (Option (BlkRef p) × CacheState p P) :=
  match blk with
  | some ref => .ok (some ref, s)
  | none => do
      let (blk, s) ← allocateBlock L env pkt s
      match blk with
      | none => return (none, s)
      | some ref => return (some ref, s.setBlk ref { s.cache.blk ref with readable := true })

/-- The writeback part of `access`. A clean writeback of a block with an MSHR is dropped. -/
def accessWriteback (pkt : Packet) (s : CacheState p P) : Except (CacheFault ε) (Accessed p P) :=
  if pkt.cmd = .writebackClean ∧ (s.cache.findMatch pkt.addr pkt.secure).isSome then
    .ok ⟨true, blk, pkt, s⟩
  else do
    let (blk, s) ← blockToWrite L env blk pkt s
    match blk with
    | none => return ⟨false, none, pkt, s⟩
    | some ref =>
      let b := s.cache.blk ref
      return ⟨true, some ref, pkt, s.setBlk ref { b with
        dirty := b.dirty || pkt.cmd = .writebackDirty
        writable := b.writable || !pkt.hasSharers }⟩

/-- The `WriteClean` part of `access`. A write-through goes on to the cache below. -/
def accessWriteClean (pkt : Packet) (s : CacheState p P) : Except (CacheFault ε) (Accessed p P) :=
  if blk.isNone && pkt.writeThrough then .ok ⟨false, none, pkt, s⟩
  else do
    let (blk, s) ← blockToWrite L env blk pkt s
    match blk with
    | none => return ⟨false, none, pkt, s⟩
    | some ref =>
      let b := s.cache.blk ref
      return ⟨!pkt.writeThrough, some ref, pkt,
        s.setBlk ref { b with dirty := b.dirty || !pkt.writeThrough }⟩

/-- The block can serve the request as it is. -/
def CacheBlk.serves (b : CacheBlk) (pkt : Packet) : Bool :=
  if pkt.needsWritable then b.isWritable else b.isReadable

/-- The part of `access` for ordinary requests. -/
def accessDemand (pkt : Packet) (s : CacheState p P) : Except (CacheFault ε) (Accessed p P) :=
  match blk with
  -- A store conditional that misses completely fails here and now.
  | none => .ok ⟨pkt.isLLSC && pkt.isWrite, none, pkt, s⟩
  | some ref =>
    if (s.cache.blk ref).serves pkt then do
      let (pkt', s) ← satisfyFrom L env ref pkt false false s
      let s ← maintainClusivity L env pkt'.fromCache blk s
      return ⟨true, blk, pkt', s⟩
    else .ok ⟨false, blk, pkt, s⟩

def access : Except (CacheFault ε) (Accessed p P) :=
  let blk := s.cache.findBlock pkt.addr pkt.secure
  if pkt.req.isUncacheable then
    match blk with
    | none => .ok ⟨false, none, pkt, s⟩
    | some ref => do
        let s ← evictBlock L env ref s
        return ⟨false, none, pkt, s⟩
  else if pkt.req.isCacheMaintenance then .ok ⟨false, blk, pkt, s⟩
  else if pkt.isEviction && env.wbMatch && pkt.isCleanEviction then .ok ⟨true, blk, pkt, s⟩
  else if pkt.isWriteback then accessWriteback L env blk pkt s
  else if pkt.cmd = .cleanEvict then .ok ⟨blk.isSome, blk, pkt, s⟩
  else if pkt.cmd = .writeClean then accessWriteClean L env blk pkt s
  else accessDemand L env blk pkt s

def allocateMissBuffer :
    Except (CacheFault ε) (CacheState p P) := do
  let m ← ofMshr (Mshr.free.allocate (pkt.getBlockAddr p.blkSize) p.blkSize pkt env.time env.order
    (p.allocOnFill pkt.cmd))
  return s.setMshrs (s.cache.mshrs ++ [m])

/-- The packet that a software prefetch leaves in the cache; the one of the core is answered at
once. -/
def softwarePrefetch : Packet where
  cmd := pkt.cmd
  req := { paddr := pkt.req.paddr, size := pkt.req.size, requestorId := pkt.req.requestorId,
           flags := pkt.req.flags }
  addr := pkt.addr
  size := pkt.size
  secure := pkt.secure

/-- A miss on a block with an MSHR: the packet becomes one of its targets. Evictions and
`WriteClean` go elsewhere, and a software prefetch has nothing to do. -/
def coalesce (i : Nat) (pkt : Packet) (s : CacheState p P) :
    Except (CacheFault ε) (CacheState p P) :=
  if pkt.cmd.isSWPrefetch then .ok s
  else if pkt.isWriteback then .error .writebackTarget
  else if pkt.cmd = .cleanEvict ∨ pkt.cmd = .writeClean then .ok s
  else
    match s.cache.mshrs[i]? with
    | none => .error .noMshr
    | some m => do
        let m ← ofMshr (m.allocateTarget pkt env.time env.order (p.allocOnFill pkt.cmd))
        return s.setMshrs (s.cache.mshrs.set i m)

/-- A miss on a block without MSHR. A valid block must not be read until the response. -/
def startMiss (pkt : Packet) (s : CacheState p P) : Except (CacheFault ε) (CacheState p P) :=
  if pkt.isEviction ∨ pkt.cmd = .writeClean then .ok s
  else
    match blk with
    | none => allocateMissBuffer env pkt s
    | some ref =>
      let b := s.cache.blk ref
      if !b.valid then allocateMissBuffer env pkt s
      else if (pkt.needsWritable && !b.isWritable) || pkt.req.isCacheMaintenance then
        allocateMissBuffer env pkt (s.setBlk ref { b with readable := false })
      else .error .usableBlock

def handleTimingReqMiss (blk : Option (BlkRef p)) (pkt : Packet) (s : CacheState p P) :
    Except (CacheFault ε) (CacheState p P) :=
  if pkt.req.isUncacheable then
    if pkt.isWrite then .ok s
    else if pkt.isRead then allocateMissBuffer env pkt s
    else .error .uncacheableCmd
  else
    match s.cache.findMatch (pkt.getBlockAddr p.blkSize) pkt.secure with
    | some i => coalesce env i pkt s
    | none =>
      startMiss env blk (if pkt.cmd.isSWPrefetch then softwarePrefetch pkt else pkt) s

def promoteWholeLineWrites (p : CacheParams) (pkt : Packet) : Packet :=
  if pkt.cmd = .writeReq ∧ pkt.size = p.blkSize ∧ pkt.getOffset p.blkSize = 0 ∧
      !pkt.isMaskedWrite then
    { pkt with cmd := .writeLineReq }
  else pkt

/-- `blk->clearPrefetched()` on the block of a hit. -/
def CacheState.clearPrefetched : CacheState p P :=
  match blk with
  | none => s
  | some ref => s.setBlk ref (s.cache.blk ref).clearPrefetched

/-- `BaseCache::recvTimingReq` after `access`. The prefetcher hears of a hit before the mark of
the prefetch is cleared, and of a miss after it has been handled. -/
def finishReq (r : Accessed p P) : Except (CacheFault ε) (CacheState p P) :=
  if r.satisfied then do
    let s ← r.state.tell (L.probeNotify env.ext r.state.cache r.pkt false)
    return s.clearPrefetched r.blk
  else do
    let s ← handleTimingReqMiss env r.blk r.pkt r.state
    s.tell (L.probeNotify env.ext s.cache r.pkt true)

def recvTimingReq : Except (CacheFault ε) (CacheState p P) :=
  let pkt := promoteWholeLineWrites p pkt
  if pkt.cacheResponding then
    if pkt.needsWritable && !pkt.responderHadWritable then .ok s else .error .responderWritable
  else do
    let r ← access L env pkt s
    finishReq L env r

/-! ### Snoops -/

/-- `Cache::handleSnoop` on a valid block. Snooping the caches above and the response to the
snoop are not modelled. -/
def snoopValid (ref : BlkRef p) (pkt : Packet) (s : CacheState p P) :
    Except (CacheFault ε) (CacheState p P) :=
  let b := s.cache.blk ref
  if pkt.isClean then
    let s := if b.isDirty then s.setBlk ref b.writeClean else s
    if pkt.isInvalidate then invalidateBlock L env ref s else .ok s
  else if pkt.mustCheckAbove then .ok s
  else if pkt.isInvalidate then invalidateBlock L env ref s
  else if pkt.isRead then
    if pkt.needsWritable then .error .writableSnoop
    else if pkt.req.isUncacheable then .ok s
    else .ok (s.setBlk ref { b with writable := false })
  else .ok s

def handleSnoop (pkt : Packet) (s : CacheState p P) : Except (CacheFault ε) (CacheState p P) :=
  if !pkt.isRequest then .error (.blk .notRequest)
  else if pkt.isInvalidate && pkt.req.isUncacheable then .error .uncacheableSnoop
  else
    match blk with
    | none => .ok s
    | some ref => if (s.cache.blk ref).valid then snoopValid L env ref pkt s else .ok s

/-- `Cache::recvTimingSnoopReq`: the MSHR of the block may keep the snoop for later. -/
def recvTimingSnoopReq : Except (CacheFault ε) (CacheState p P) :=
  let blk := s.cache.findBlock pkt.addr pkt.secure
  match s.cache.findMatch (pkt.getBlockAddr p.blkSize) pkt.secure with
  | none => if env.wbMatch && pkt.isEviction then .ok s else handleSnoop L env blk pkt s
  | some i =>
    if pkt.mustCheckAbove then .ok s
    else
      match s.cache.mshrs[i]? with
      | none => .error .noMshr
      | some m => do
          let (deferred, pkt, m) ← ofMshr (m.handleSnoop pkt env.order env.time)
          let s := s.setMshrs (s.cache.mshrs.set i m)
          if deferred || (env.wbMatch && pkt.isEviction) then return s
          else handleSnoop L env blk pkt s

/-! ### Requests to the memory side -/

/-- `Cache::createMissPacket`: the packet to send for a miss, or `none` when the packet of the
target is forwarded as it is. -/
def createMissPacket (p : CacheParams) (pkt : Packet) (blk : Option CacheBlk)
    (needsWritable isWholeLineWrite : Bool) : Except (CacheFault ε) (Option Packet) :=
  let valid := blk.any (·.valid)
  let writable := blk.any (·.isWritable)
  let create (cmd : MemCmd) : Except (CacheFault ε) (Option Packet) :=
    .ok (some { Packet.ofRequest pkt.req cmd p.blkSize 0 with
      hasSharers := pkt.hasSharers && !needsWritable })
  if pkt.isEviction then .error .missPacket
  else if pkt.req.isUncacheable || (!valid && pkt.isUpgrade) || pkt.cmd = .invalidateReq ||
      pkt.isClean then .ok none
  else if !pkt.needsResponse then .error .missPacket
  else if pkt.cmd = .writeLineReq ∧ !isWholeLineWrite then .error .missPacket
  else if isWholeLineWrite then
    if writable then .error .missPacket else create .invalidateReq
  else if valid then
    if !needsWritable || writable then .error .missPacket
    else create (if pkt.isLLSC then .scUpgradeReq else .upgradeReq)
  else if pkt.cmd = .scUpgradeFailReq ∨ pkt.cmd = .storeCondFailReq then create .scUpgradeFailReq
  else if needsWritable then create .readExReq
  else if p.isReadOnly || p.mostlyExcl then create .readCleanReq
  else create .readSharedReq

/-- What the caches above answer when a prefetch is about to be sent. -/
inductive UpwardSnoop
  /-- None of them has the block. -/
  | miss
  /-- One of them will respond; whether with a dirty writable block. -/
  | responding (pendingModifiedResp : Bool)
  /-- One of them has the block: the prefetch is squashed. -/
  | cached

def forceDeallocateTarget (i : Nat) (m : Mshr) (s : CacheState p P) :
    Except (CacheFault ε) (CacheState p P) :=
  match m.targets.elems with
  | [] => .error (.mshr .noTarget)
  | _ :: ts =>
    let m := { m with targets := { m.targets with elems := ts } }
    if ts ≠ [] then .ok (s.setMshrs (s.cache.mshrs.set i m))
    else do
      let (promoted, m) ← ofMshr (m.promoteDeferredTargets env.time)
      if promoted then return s.setMshrs (s.cache.mshrs.set i m)
      else
        let _ ← ofMshr m.deallocate
        return s.setMshrs (s.cache.mshrs.eraseIdx i)

/-- `BaseCache::sendMSHRQueuePacket`. `accepted` is `none` when the packet has to be retried, and
otherwise whether a dirty writable block will come back. A clean request takes the dirty data
of the block along. -/
def sendMshr (i : Nat) (m : Mshr) (accepted : Option Bool) (s : CacheState p P) :
    Except (CacheFault ε) (CacheState p P) :=
  match m.targets.elems with
  | [] => .error (.mshr .noTarget)
  | t :: _ => do
      let blk := s.cache.findBlock m.blkAddr m.isSecure
      let created ← createMissPacket p t.pkt (blk.map s.cache.blk) m.targets.flags.needsWritable
        m.targets.flags.isWholeLineWrite
      let m := { m with isForward := created.isNone }
      if created.isNone && t.pkt.isWrite then throw .forwardedWrite
      match accepted with
      | none => return s.setMshrs (s.cache.mshrs.set i m)
      | some pendingModifiedResp =>
        let m ← ofMshr (m.markInService pendingModifiedResp)
        let s := s.setMshrs (s.cache.mshrs.set i m)
        match blk with
        | none => return s
        | some ref =>
          if (created.getD t.pkt).isClean && (s.cache.blk ref).isDirty then
            return s.setBlk ref (s.cache.blk ref).writeClean
          else return s

/-- `Cache::sendMSHRQueuePacket` of the MSHR with index `i`. -/
def sendMSHRQueuePacket (i : Nat) (upward : UpwardSnoop) (accepted : Option Bool)
    (s : CacheState p P) : Except (CacheFault ε) (CacheState p P) :=
  match s.cache.mshrs[i]? with
  | none => .error .noMshr
  | some m =>
    if m.targets.elems.head?.any (·.pkt.cmd = .hardPFReq) && p.forwardSnoops then
      if (s.cache.findBlock m.blkAddr m.isSecure).isSome then .error .prefetchPresent
      else
        match upward with
        | .miss => sendMshr i m accepted s
        | .responding pendingModifiedResp => do
            let m ← ofMshr (m.markInService pendingModifiedResp)
            return s.setMshrs (s.cache.mshrs.set i m)
        | .cached => forceDeallocateTarget env i m s
    else sendMshr i m accepted s

/-- The prefetch part of `BaseCache::getNextQueueEntry`: the prefetcher has the packet `pkt` to
issue. -/
def issuePrefetch : Except (CacheFault ε) (CacheState p P) := do
  let s ← s.tell (L.getPacket env.ext pkt)
  let pfAddr := pkt.getBlockAddr p.blkSize
  if (s.cache.findBlock pfAddr pkt.secure).isSome || (s.cache.findMatch pfAddr pkt.secure).isSome ||
      env.wbMatch then
    return s
  else
    let s ← match pkt.req.vaddr with
      | none => .ok s
      | some vaddr =>
        s.tell (L.prefetchIssuedToPq env.ext (vaddr >>> 6) pkt.sourceSet pkt.sourceWay)
    allocateMissBuffer env pkt s

/-! ### Responses -/

/-- `handleFill` without a block in the tags: the response is kept in `tempBlock`. -/
def useTempBlock : Except (CacheFault ε) (BlkRef p × CacheState p P) :=
  if (s.cache.blk .temp).valid then .error .tempInUse
  else .ok (.temp, s.setBlk .temp ((s.cache.blk .temp).insert pkt.addr pkt.secure))

variable (allocate : Bool)

/-- The block that `handleFill` fills when there is none yet: a newly allocated one, or
`tempBlock`. -/
def newBlock (s : CacheState p P) : Except (CacheFault ε) (BlkRef p × CacheState p P) :=
  if !allocate then useTempBlock pkt s
  else do
    let (blk, s) ← allocateBlock L env pkt s
    match blk with
    | some ref => return (ref, s)
    | none => useTempBlock pkt s

def blockToFill (s : CacheState p P) : Except (CacheFault ε) (BlkRef p × CacheState p P) :=
  match blk with
  | some ref => .ok (ref, s)
  | none =>
    if !(pkt.hasData || pkt.cmd = .invalidateResp) then .error .noData
    else newBlock L env pkt allocate s

def handleFill (s : CacheState p P) :
    Except (CacheFault ε) (BlkRef p × CacheState p P) := do
  if !pkt.isResponse then throw .notResponse
  if pkt.addr ≠ pkt.getBlockAddr p.blkSize then throw .notAligned
  let (ref, s) ← blockToFill L env pkt blk allocate s
  if pkt.cmd = .invalidateResp ∧ pkt.hasSharers then throw .sharedWholeLine
  let b := s.cache.blk ref
  return (ref, s.setBlk ref { b with
    readable := true
    writable := b.writable || !pkt.hasSharers
    dirty := b.dirty || (!pkt.hasSharers && pkt.cacheResponding) })

/-- `recvTimingResp`: a response that brings the block fills it, and the prefetcher hears of it,
wherever it was put. -/
def fill (m : Mshr) (pkt : Packet) (s : CacheState p P) :
    Except (CacheFault ε) (Option (BlkRef p) × CacheState p P) :=
  let blk := s.cache.findBlock pkt.addr pkt.secure
  if !m.isForward && (pkt.isRead || pkt.cmd = .upgradeResp || m.wasWholeLineWrite) &&
      !pkt.isError then do
    let (ref, s) ← handleFill L env pkt blk m.targets.flags.allocOnFill s
    let s ← s.tell (L.notifyFill env.ext pkt)
    return (some ref, s)
  else .ok (blk, s)

/-- `recvTimingResp`: a clean response makes the block readable again. -/
def restoreReadable : CacheState p P :=
  match blk with
  | none => s
  | some ref =>
    if (s.cache.blk ref).valid && pkt.isClean && !pkt.isInvalidate then
      s.setBlk ref { s.cache.blk ref with readable := true }
    else s

/-- `recvTimingResp`: after a clean response the block can be read. -/
def promoteAfterClean (m : Mshr) (pkt : Packet) (b : Option CacheBlk) : Except MshrFault Mshr :=
  if b.any (·.valid) && pkt.isClean && !pkt.isInvalidate then m.promoteReadable else .ok m

/-- `recvTimingResp`: a writable block serves the targets that were waiting for one. -/
def promoteIfWritable (m : Mshr) (pkt : Packet) (b : Option CacheBlk) : Except MshrFault Mshr :=
  if b.any (·.isWritable) && !pkt.req.isCacheInvalidate then m.promoteWritable else .ok m

/-- `recvTimingResp`: the deferred targets that the block can serve now. -/
def promote (m : Mshr) (pkt : Packet) (b : Option CacheBlk) : Except MshrFault Mshr := do
  let m ← promoteAfterClean m pkt b
  promoteIfWritable m pkt b

/-- `serviceMSHRTargets`, for a target of the CPU side. -/
def serviceCpu (m : Mshr) (pkt : Packet) (blk : Option (BlkRef p)) (isInvalidate : Bool)
    (tgt : Packet) (s : CacheState p P) : Except (CacheFault ε) (CacheState p P) :=
  if tgt.cmd.isSWPrefetch then
    if tgt.needsWritable then
      -- The exclusive copy is expected to be written: it has to answer snoops from now on.
      match blk with
      | none => .error .noBlk
      | some ref =>
        if (s.cache.blk ref).valid then .ok (s.setBlk ref { s.cache.blk ref with dirty := true })
        else .error .noBlk
    else .ok s
  else if tgt.cmd = .writeLineReq ∧ (pkt.isError ∨ !blk.any fun ref => (s.cache.blk ref).isWritable)
    then .error .writeLine
  else
    match blk with
    | none =>
      if pkt.cmd ≠ .upgradeFailResp ∧ !pkt.isError ∧ !pkt.isRead ∧ tgt.hasRespData then
        .error .dataExpected
      else .ok s
    | some ref =>
      if (s.cache.blk ref).valid && (!m.isForward || !pkt.hasData) then do
        let (_, s) ← satisfyFrom L env ref tgt true m.postDowngrade s
        return s
      else if pkt.cmd ≠ .upgradeFailResp ∧ !pkt.isError ∧ !pkt.isRead ∧ tgt.hasRespData then
        .error .dataExpected
      else if pkt.cmd ≠ .upgradeFailResp ∧ isInvalidate ∧ (s.cache.blk ref).valid then
        invalidateBlock L env ref s
      else .ok s

/-- `serviceMSHRTargets`, one target. The block is the one the response found or filled. -/
def serviceTarget (m : Mshr) (pkt : Packet) (blk : Option (BlkRef p)) (isInvalidate : Bool)
    (s : CacheState p P) (t : Target) : Except (CacheFault ε) (CacheState p P) :=
  match t.source with
  | .fromCPU => serviceCpu L env m pkt blk isInvalidate t.pkt s
  | .fromPrefetcher =>
    if t.pkt.cmd ≠ .hardPFReq then .error .notPrefetch
    else
      match blk with
      | none => .ok s
      | some ref => .ok (s.setBlk ref (s.cache.blk ref).setPrefetched)
  | .fromSnoop =>
    if pkt.isError then .error .snoopError else handleSnoop L env blk t.pkt s

/-- `serviceMSHRTargets`, after the targets: what a snoop saved by the MSHR or an invalidating
response does to the block. -/
def settleBlock (m : Mshr) (blk : Option (BlkRef p)) (isInvalidate : Bool) (s : CacheState p P) :
    Except (CacheFault ε) (CacheState p P) :=
  match blk with
  | none => .ok s
  | some ref =>
    let b := s.cache.blk ref
    if !b.valid then .ok s
    else if isInvalidate || m.postInvalidate then invalidateBlock L env ref s
    else if m.postDowngrade then .ok (s.setBlk ref { b with writable := false })
    else .ok s

def serviceMSHRTargets (m : Mshr) (pkt : Packet) (blk : Option (BlkRef p)) (s : CacheState p P) :
    Except (CacheFault ε) (Mshr × CacheState p P) := do
  -- The response to a whole-line write invalidates the other copies, not this one.
  let isInvalidate := pkt.isInvalidate && !m.wasWholeLineWrite
  let (ready, m) ← ofMshr (m.extractServiceableTargets pkt)
  let s ← ready.elems.foldlM (serviceTarget L env m pkt blk isInvalidate) s
  let s ← maintainClusivity L env ready.flags.hasFromCache blk s
  let s ← settleBlock L env m blk isInvalidate s
  return (m, s)

/-- `recvTimingResp`, after the targets: the MSHR is sent again for what it deferred, or freed. -/
def finishMshr (i : Nat) (m : Mshr) (blk : Option (BlkRef p)) (s : CacheState p P) :
    Except (CacheFault ε) (CacheState p P) := do
  let (promoted, m) ← ofMshr (m.promoteDeferredTargets env.time)
  if promoted then
    let m ← ofMshr m.markPending
    let s := s.setMshrs (s.cache.mshrs.set i m)
    match blk with
    | none => return s
    | some ref => return s.setBlk ref { s.cache.blk ref with readable := false }
  else
    let _ ← ofMshr m.deallocate
    return s.setMshrs (s.cache.mshrs.eraseIdx i)

/-- `recvTimingResp`: `tempBlock` is used for one response only. -/
def evictTemp : Except (CacheFault ε) (CacheState p P) :=
  if blk = some .temp ∧ (s.cache.blk .temp).valid then evictBlock L env .temp s else .ok s

/-- `BaseCache::recvTimingResp` of the response to the MSHR with index `i`. -/
def recvTimingResp (i : Nat) (pkt : Packet) (s : CacheState p P) :
    Except (CacheFault ε) (CacheState p P) :=
  if !pkt.isResponse then .error .notResponse
  else if pkt.isWrite then
    if pkt.req.isUncacheable then .ok s else .error .writeResponse
  else
    match s.cache.mshrs[i]? with
    | none => .error .noMshr
    | some m => do
        if m.wasWholeLineWrite && !pkt.isInvalidate then throw .wholeLineResponse
        let (blk, s) ← fill L env m pkt s
        let s := restoreReadable pkt blk s
        let m ← ofMshr (promote m pkt (blk.map s.cache.blk))
        let (m, s) ← serviceMSHRTargets L env m pkt blk s
        let s ← finishMshr env i m blk s
        evictTemp L env blk s

/-- `BaseCache::recvTimingWouldHaveStarved`: the block is dropped. -/
def recvTimingWouldHaveStarved (addr : Nat) (secure : Bool) (s : CacheState p P) :
    Except (CacheFault ε) (CacheState p P) :=
  match s.cache.findBlock addr secure with
  | none => .ok s
  | some ref => invalidateBlock L env ref s

end Gem5.Mem
