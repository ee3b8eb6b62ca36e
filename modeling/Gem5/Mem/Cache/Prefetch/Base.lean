import Gem5.Mem.Packet

/-!
# Gem5.Mem.Cache.Prefetch.Base

What a cache tells its prefetcher about an access
(`src/mem/cache/prefetch/base.hh`, `base.cc`).

A `PrefetchInfo` is built from the packet of the access. The constructor does not
initialise `instr_id`, `sourceSet` and `sourceWay`: a new object finds there whatever its
memory held before, which the model takes as an input (`Uninit`).

Of the accesses of the cache, `probeNotify` ignores some, counts a hit on a block that a prefetch
brought in, and passes on those that its parameters select (`observeAccess`).
-/

namespace Gem5.Prefetch

open Gem5.Mem

/-- What the memory of a new `PrefetchInfo` holds in the fields that no
constructor writes. -/
structure Uninit where
  instrId : Nat := 0
  sourceSet : Nat := 0
  sourceWay : Nat := 0
  deriving Repr, DecidableEq

/-- `Base::PrefetchInfo`, without the copied data. -/
structure PrefetchInfo where
  address : Nat
  pc : Nat
  requestorId : Nat
  validPC : Bool
  secure : Bool
  size : Nat
  write : Bool
  paddress : Nat
  cacheMiss : Bool
  prefetchHit : Bool
  instrId : Nat
  sourceSet : Nat
  sourceWay : Nat
  deriving Repr, DecidableEq

def PrefetchInfo.ofPacket (pkt : Packet) (addr : Nat) (miss : Bool) (raw : Uninit) :
    PrefetchInfo where
  address := addr
  pc := pkt.req.pc.getD 0
  requestorId := pkt.req.requestorId
  validPC := pkt.req.pc.isSome
  secure := pkt.secure
  size := pkt.req.size
  write := pkt.isWrite
  paddress := pkt.req.paddr.getD 0
  cacheMiss := miss
  prefetchHit := false
  instrId := raw.instrId
  sourceSet := raw.sourceSet
  sourceWay := raw.sourceWay

def PrefetchInfo.sameAddr (a b : PrefetchInfo) : Bool :=
  a.address = b.address ∧ a.secure = b.secure

/-! ### Accesses -/

/-- The parameters of `Base` that select the accesses a prefetcher sees. -/
structure BaseParams where
  onMiss : Bool := false
  onRead : Bool := true
  onWrite : Bool := true
  onData : Bool := true
  onInst : Bool := true
  prefetchOnAccess : Bool := false
  prefetchOnPfHit : Bool := false
  useVirtualAddresses : Bool := false

/-- `Base::observeAccess`; `prefetched` is `hasBeenPrefetched` of the packet. -/
def BaseParams.observeAccess (bp : BaseParams) (prefetched : Bool) (pkt : Packet) (miss : Bool) :
    Bool :=
  let fetch := pkt.req.isInstFetch
  let read := pkt.isRead
  if !miss && bp.prefetchOnPfHit then prefetched
  else if !miss && !bp.prefetchOnAccess then false
  else if pkt.req.isUncacheable then false
  else if fetch && !bp.onInst then false
  else if !fetch && !bp.onData then false
  else if !fetch && read && !bp.onRead then false
  else if !fetch && !read && !bp.onWrite then false
  else if !fetch && !read && pkt.isInvalidate then false
  else if pkt.cmd = .cleanEvict then false
  else if bp.onMiss then miss
  else true

/-- The packets that `Base::probeNotify` ignores, in a cache that coalesces no writes. -/
def ignores (pkt : Packet) : Bool := pkt.cmd.isSWPrefetch || pkt.req.isCacheMaintenance

/-- `Base::probeNotify`: the access that is passed on, with the address the prefetcher works
with. -/
def BaseParams.observed (bp : BaseParams) (prefetched : Bool) (pkt : Packet) (miss : Bool)
    (raw : Uninit) : Option PrefetchInfo :=
  if ignores pkt || !bp.observeAccess prefetched pkt miss then none
  else
    (if bp.useVirtualAddresses then pkt.req.vaddr else pkt.req.paddr).map fun addr =>
      .ofPacket pkt addr miss raw

/-- `issuedPrefetches` and `usefulPrefetches`. -/
structure Counters where
  issuedPrefetches : Nat := 0
  usefulPrefetches : Nat := 0
  deriving Repr, DecidableEq

/-- The panic of `Base::probeNotify`. -/
inductive ProbeFault
  /-- "Request must have a physical address" -/
  | noPaddr
  deriving Repr, DecidableEq

def Counters.probeNotify (k : Counters) (prefetched : Bool) (pkt : Packet) :
    Except ProbeFault Counters :=
  if ignores pkt then .ok k
  else if pkt.req.paddr.isNone then .error .noPaddr
  else if prefetched then .ok { k with usefulPrefetches := k.usefulPrefetches + 1 }
  else .ok k

end Gem5.Prefetch
