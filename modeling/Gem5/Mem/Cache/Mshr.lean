import Gem5.Mem.Packet

/-!
# Gem5.Mem.Cache.Mshr

**Miss status holding registers** (`src/mem/cache/mshr.hh`, `mshr.cc`).

An MSHR collects the requests that miss on one block. Those that the request in
flight will serve are its `targets`; those that have to wait for another request are
its `deferredTargets`. Each of the two lists carries summary flags, updated as
targets are added (`add`) or recomputed from the list (`populateFlags`).

The first element of an empty list is read in several places. The model faults
only where the code goes on to dereference what it read. The flags of *other* MSHRs
(`downstreamPending` of the MSHR upstream that sent a packet) and the payload of
packets are not modelled; time and the order counter are inputs.
-/

namespace Gem5.Mem

/-! ### Packets in an MSHR -/

/-- `replaceUpgrade`: an upgrade of a line that is gone becomes a request for the
line, or a store conditional that fails. -/
def replaceUpgrade (pkt : Packet) : Packet :=
  match pkt.cmd with
  | .upgradeReq => { pkt with cmd := .readExReq }
  | .scUpgradeReq => { pkt with cmd := .scUpgradeFailReq }
  | .storeCondReq => { pkt with cmd := .storeCondFailReq }
  | _ => pkt

/-- `Packet(pkt, clear_flags, alloc_data)` with the flags cleared. -/
def Packet.cleared (pkt : Packet) : Packet :=
  { pkt with
    hasSharers := false
    expressSnoop := false
    cacheResponding := false
    responderHadWritable := false
    satisfied := false }

def Packet.ofRequest (req : Request) (cmd : MemCmd) (blkSize id : Nat) : Packet where
  cmd := cmd
  id := id
  req := req
  addr := (req.paddr.map fun a => a - a % blkSize).getD 0
  size := blkSize
  secure := req.paddr.isSome && req.flags.secure

/-- The request flags that forbid merging a write with others. -/
def Request.noMerge (r : Request) : Bool :=
  r.flags.uncacheable || r.flags.strictOrder || r.flags.privileged || r.flags.llsc ||
    r.flags.memSwap || r.flags.memSwapCond || r.flags.secure

inductive Source
  | fromCPU
  | fromSnoop
  | fromPrefetcher
  deriving Repr, DecidableEq

structure Target where
  pkt : Packet
  readyTime : Nat
  order : Nat
  source : Source
  markedPending : Bool
  allocOnFill : Bool
  deriving Repr, DecidableEq

/-! ### Target lists -/

/-- The private flags of an `MSHR::TargetList` that follow the bytes written by its
targets. -/
structure WriteFlags where
  canMergeWrites : Bool := true
  /-- The bytes written by the requests in the list. -/
  writesBitmap : List Bool
  deriving Repr, DecidableEq

namespace WriteFlags

def isWholeLineWrite (w : WriteFlags) : Bool := w.writesBitmap.all id

/-- The bytes of the block that `pkt` touches, added to a bitmap. -/
def fillBytes (bitmap : List Bool) (pkt : Packet) (blkSize : Nat) : List Bool :=
  bitmap.mapIdx fun i written =>
    written || (pkt.getOffset blkSize ≤ i && i < pkt.getOffset blkSize + pkt.size)

/-- `TargetList::updateWriteFlags`; `empty` is whether the list has no targets. -/
def update (w : WriteFlags) (blkSize : Nat) (empty : Bool) (pkt : Packet) : WriteFlags :=
  if w.isWholeLineWrite || !w.canMergeWrites then w
  else if !pkt.isWrite then { w with canMergeWrites := false }
  else
    { canMergeWrites := !pkt.req.noMerge
      -- A special write counts only as the first target: it is not merged with
      -- others, but it may be a whole-line write by itself.
      writesBitmap :=
        if empty || !pkt.req.noMerge then fillBytes w.writesBitmap pkt blkSize
        else w.writesBitmap }

end WriteFlags

/-- The summary flags of an `MSHR::TargetList`. -/
structure TargetFlags where
  needsWritable : Bool := false
  hasUpgrade : Bool := false
  allocOnFill : Bool := false
  hasFromCache : Bool := false
  writes : WriteFlags
  deriving Repr, DecidableEq

namespace TargetFlags

def reset (blkSize : Nat) : TargetFlags where
  writes := { writesBitmap := List.replicate blkSize false }

variable (f : TargetFlags)

def isReset : Bool :=
  !f.needsWritable && !f.hasUpgrade && !f.allocOnFill && !f.hasFromCache && f.writes.canMergeWrites

def isWholeLineWrite : Bool := f.writes.isWholeLineWrite

def updateFlags (blkSize : Nat) (empty : Bool) (pkt : Packet)
    (source : Source) (allocOnFill : Bool) : TargetFlags :=
  if source = .fromSnoop then f
  else
    { needsWritable := f.needsWritable || pkt.needsWritable
      -- A store conditional in an MSHR is an upgrade: without a copy of the block it
      -- would have failed already.
      hasUpgrade := f.hasUpgrade || (pkt.isUpgrade || pkt.cmd = .storeCondReq)
      allocOnFill := f.allocOnFill || allocOnFill
      hasFromCache := f.hasFromCache || (source ≠ .fromPrefetcher && pkt.fromCache)
      writes :=
        if source = .fromPrefetcher then f.writes else f.writes.update blkSize empty pkt }

end TargetFlags

structure TargetList where
  blkSize : Nat
  elems : List Target := []
  flags : TargetFlags := .reset blkSize
  deriving Repr, DecidableEq

namespace TargetList

/-- The flags that `populateFlags` computes for a list of targets. The list is not
empty while its targets are visited. -/
def flagsOf (blkSize : Nat) (elems : List Target) : TargetFlags :=
  elems.foldl (fun f t => f.updateFlags blkSize false t.pkt t.source t.allocOnFill) (.reset blkSize)

def populateFlags (l : TargetList) : TargetList :=
  { l with flags := flagsOf l.blkSize l.elems }

/-- `TargetList::add`. Only a packet that comes from an MSHR upstream is marked
pending. -/
def add (l : TargetList) (pkt : Packet) (readyTime order : Nat) (source : Source)
    (markPending allocOnFill : Bool) : TargetList :=
  { l with
    elems := l.elems ++
      [⟨pkt, readyTime, order, source, markPending && pkt.hasSenderMshr, allocOnFill⟩]
    flags := l.flags.updateFlags l.blkSize l.elems.isEmpty pkt source allocOnFill }

def replaceUpgrades (l : TargetList) : TargetList :=
  if l.flags.hasUpgrade then
    { l with
      elems := l.elems.map fun t => { t with pkt := replaceUpgrade t.pkt }
      flags := { l.flags with hasUpgrade := false } }
  else l

/-- `TargetList::clearDownstreamPending`, over part of a list. -/
def clearPending (elems : List Target) : List Target :=
  elems.map fun t => { t with markedPending := false }

end TargetList

/-! ### The register -/

inductive MshrFault
  /-- `assert(isRequest())`, by `Packet::needsWritable`. -/
  | notRequest
  /-- The first target of an empty list is dereferenced. -/
  | noTarget
  /-- `assert(!inService)`, by `markInService`. -/
  | inService
  /-- `assert(inService)`. -/
  | notInService
  /-- `assert(downstreamPending)`, by `clearDownstreamPending`. -/
  | notDownstreamPending
  /-- `assert(!downstreamPending)`, by `promoteIf`. -/
  | downstreamPending
  /-- `assert(pkt->cmd != MemCmd::HardPFReq)`, by `allocateTarget`. -/
  | prefetchTarget
  /-- "got snoop where needsWritable, does not match isInvalidate" -/
  | snoopMismatch
  /-- `extractServiceableTargets` meets a target from an unexpected source. -/
  | sourceOfTarget
  /-- `assert(t.source == Target::FromCPU)`, on a deferred target. -/
  | sourceOfDeferred
  /-- `assert(!targets.needsWritable)`, by `promoteWritable`. -/
  | needsWritable
  /-- `assert(targets.empty())`, by `deallocate`. -/
  | targetsLeft
  /-- `assert(deferredTargets.isReset())`, by `deallocate`. -/
  | deferredNotReset
  deriving Repr, DecidableEq

/-- `MSHR`. The `post` flags and `pendingModified` mean something only in service. -/
structure Mshr where
  blkAddr : Nat
  blkSize : Nat
  isSecure : Bool
  readyTime : Nat
  order : Nat
  isUncacheable : Bool
  inService : Bool
  downstreamPending : Bool
  pendingModified : Bool
  postInvalidate : Bool
  postDowngrade : Bool
  wasWholeLineWrite : Bool
  isForward : Bool
  targets : TargetList
  deferredTargets : TargetList
  deriving Repr, DecidableEq

/-- A register that was never used. -/
def Mshr.free : Mshr where
  blkAddr := 0
  blkSize := 0
  isSecure := false
  readyTime := 0
  order := 0
  isUncacheable := false
  inService := false
  downstreamPending := false
  pendingModified := false
  postInvalidate := false
  postDowngrade := false
  wasWholeLineWrite := false
  isForward := false
  targets := { blkSize := 0 }
  deferredTargets := { blkSize := 0 }

namespace Mshr

variable (m : Mshr)

/-- `MSHR::allocate`; the target lists of a free register are empty. -/
def allocate (blkAddr blkSize : Nat) (target : Packet) (whenReady order : Nat)
    (allocOnFill : Bool) : Except MshrFault Mshr :=
  if !target.isRequest then .error .notRequest
  else
    let source := if target.cmd = .hardPFReq then .fromPrefetcher else .fromCPU
    .ok { m with
      blkAddr := blkAddr
      blkSize := blkSize
      isSecure := target.secure
      readyTime := whenReady
      order := order
      isForward := false
      wasWholeLineWrite := false
      isUncacheable := target.req.isUncacheable
      inService := false
      downstreamPending := false
      targets := { m.targets with blkSize, flags := .reset blkSize }.add target whenReady order
        source true allocOnFill
      deferredTargets := { m.deferredTargets with blkSize, flags := .reset blkSize } }

def clearDownstreamPending : Except MshrFault Mshr :=
  if !m.downstreamPending then .error .notDownstreamPending
  else .ok { m with
    downstreamPending := false
    targets := { m.targets with elems := TargetList.clearPending m.targets.elems } }

def markInService (pendingModifiedResp : Bool) : Except MshrFault Mshr :=
  if m.inService then .error .inService
  else .ok { m with
    inService := true
    pendingModified := m.targets.flags.needsWritable || pendingModifiedResp
    postInvalidate := false
    postDowngrade := false
    targets := { m.targets with
      elems :=
        if m.downstreamPending then m.targets.elems
        else TargetList.clearPending m.targets.elems }
    wasWholeLineWrite := m.targets.flags.isWholeLineWrite }

/-- `MSHRQueue::markPending`, without the ready list. -/
def markPending : Except MshrFault Mshr :=
  if m.inService then .ok { m with inService := false } else .error .notInService

def deallocate : Except MshrFault Mshr :=
  if m.targets.elems ≠ [] then .error .targetsLeft
  else if !m.deferredTargets.flags.isReset then .error .deferredNotReset
  else .ok { m with
    targets := { m.targets with flags := .reset m.targets.blkSize }
    inService := false }

variable (pkt : Packet)

/-- Whether `allocateTarget` defers a packet. The first target is looked at only when
the packet itself is not a cache maintenance request. -/
def defers : Except MshrFault Bool :=
  if pkt.req.isCacheMaintenance then .ok true
  else
    match m.targets.elems with
    | [] => .error .noTarget
    | t :: _ =>
      .ok (t.pkt.req.isCacheMaintenance || !m.deferredTargets.elems.isEmpty ||
        (m.inService &&
          (m.postInvalidate ||
            (pkt.needsWritable && (!m.pendingModified || m.postDowngrade || m.isForward)))))

def allocateTarget (whenReady order : Nat) (allocOnFill : Bool) :
    Except MshrFault Mshr := do
  if pkt.cmd = .hardPFReq then throw .prefetchTarget
  if !pkt.isRequest then throw .notRequest
  if ← m.defers pkt then
    let pkt := if m.inService && m.postInvalidate then replaceUpgrade pkt else pkt
    return { m with
      deferredTargets := m.deferredTargets.add pkt whenReady order .fromCPU true allocOnFill }
  else
    return { m with
      targets := m.targets.add pkt whenReady order .fromCPU (!m.inService) allocOnFill }

/-! ### Snoops -/

/-- The snoop is logically after the request of this MSHR: save a copy of it, to be
replayed when the response has arrived, and note what it does to the block. -/
def saveSnoop (order curTick : Nat) : Packet × Mshr :=
  let willRespond := m.pendingModified && pkt.needsResponse && !pkt.isClean
  if m.pendingModified || pkt.isInvalidate then
    let copy :=
      if willRespond then pkt.cleared else .ofRequest pkt.req pkt.cmd m.blkSize pkt.id
    (if willRespond then { pkt with cacheResponding := true, responderHadWritable := true }
      else if m.pendingModified && pkt.isClean then { pkt with satisfied := true }
      else pkt,
      { m with
        targets := m.targets.add copy curTick order .fromSnoop
          (m.downstreamPending && m.targets.flags.needsWritable) false
        postInvalidate := m.postInvalidate || (pkt.needsWritable || pkt.isInvalidate) })
  else (pkt, m)

/-- The last part of `handleSnoop`: a read will share the block. -/
def noteDowngrade : Packet × Mshr :=
  if !pkt.needsWritable && !pkt.req.isUncacheable then
    ({ pkt with hasSharers := true }, { m with postDowngrade := true })
  else (pkt, m)

/-- An invalidating snoop that precedes the deferred targets makes their upgrades
ordinary requests. -/
def replaceDeferred : Mshr :=
  if pkt.needsWritable || pkt.req.isCacheInvalidate then
    { m with deferredTargets := m.deferredTargets.replaceUpgrades }
  else m

/-- `MSHR::handleSnoop`: whether the MSHR will respond, the packet with the flags set
on it, and the MSHR. -/
def handleSnoop (order curTick : Nat) : Except MshrFault (Bool × Packet × Mshr) :=
  if !pkt.isRequest then .error .notRequest
  else if pkt.needsWritable ≠ pkt.isInvalidate ∧ !pkt.req.isCacheMaintenance then
    .error .snoopMismatch
  else if !m.inService || (pkt.expressSnoop && m.downstreamPending) then
    -- The snoop precedes the request of this MSHR.
    if pkt.needsWritable || pkt.req.isCacheInvalidate then
      .ok (false, pkt, { m with
        targets := m.targets.replaceUpgrades
        deferredTargets := m.deferredTargets.replaceUpgrades })
    else .ok (false, pkt, m)
  else
    let m := m.replaceDeferred pkt
    if m.postInvalidate then .ok (true, pkt, m)
    else
      match m.targets.elems with
      | [] => .error .noTarget
      | t :: _ =>
        if t.pkt.req.isCacheInvalidate then .ok (true, pkt, m)
        else
          let (pkt', m') := m.saveSnoop pkt order curTick
          let (pkt'', m'') := m'.noteDowngrade pkt'
          .ok (m.pendingModified && pkt.needsResponse && !pkt.isClean, pkt'', m'')

/-! ### Responses -/

/-- The loop of `extractServiceableTargets` for a `ReadRespWithInvalidate`: the
targets that stay and those that are ready. -/
def splitSnoops : List Target → Except MshrFault (List Target × List Target)
  | [] => .ok ([], [])
  | t :: ts => do
      let (stay, ready) ← splitSnoops ts
      match t.source with
      | .fromCPU => return (t :: stay, ready)
      | .fromSnoop => return (stay, t :: ready)
      | .fromPrefetcher => throw .sourceOfTarget

/-- `MSHR::extractServiceableTargets` for the response `pkt`: the targets to service,
and the MSHR. -/
def extractServiceableTargets : Except MshrFault (TargetList × Mshr) :=
  if pkt.cmd = .readRespWithInvalidate then
    match m.targets.elems with
    | [] => .error .noTarget
    | t :: ts => do
        if t.source = .fromSnoop then throw .sourceOfTarget
        let (stay, ready) ← splitSnoops ts
        return ({ m.targets with elems := t :: ready }.populateFlags,
          { m with targets := { m.targets with elems := stay }.populateFlags })
  else
    .ok (m.targets, { m with targets := ({ blkSize := m.blkSize } : TargetList).populateFlags })

/-- The deferred targets that `promoteDeferredTargets` moves, and those that stay: all
up to the first cache maintenance request, or that request alone. -/
def promotable (targets deferred : List Target) : List Target × List Target :=
  match deferred with
  | [] => ([], [])
  | t :: ts =>
    if t.pkt.req.isCacheMaintenance then
      if targets.isEmpty then ([t], ts) else ([], t :: ts)
    else
      ((t :: ts).takeWhile fun t => !t.pkt.req.isCacheMaintenance,
        (t :: ts).dropWhile fun t => !t.pkt.req.isCacheMaintenance)

def promoteDeferredTargets (curTick : Nat) : Except MshrFault (Bool × Mshr) :=
  if m.targets.elems.isEmpty && m.deferredTargets.elems.isEmpty then .ok (false, m)
  else
    let moved := promotable m.targets.elems m.deferredTargets.elems
    let targets := { m.targets with elems := m.targets.elems ++ moved.1 }.populateFlags
    match targets.elems with
    | [] => .error .noTarget
    | t :: _ => .ok (true, { m with
        targets := targets
        deferredTargets := { m.deferredTargets with elems := moved.2 }.populateFlags
        order := t.order
        readyTime := max curTick t.readyTime })

/-- `std::find_if_not` over the deferred targets, with the assertion of the predicates:
the targets before the first that fails `pred`, and the rest. -/
def leading (pred : Target → Bool) : List Target → Except MshrFault (List Target × List Target)
  | [] => .ok ([], [])
  | t :: ts =>
    if t.source ≠ .fromCPU then .error .sourceOfDeferred
    else if pred t then do
      let (moved, rest) ← leading pred ts
      return (t :: moved, rest)
    else .ok ([], t :: ts)

/-- `MSHR::promoteIf`. Only the flags of the deferred list are recomputed. -/
def promoteIf (pred : Target → Bool) : Except MshrFault Mshr := do
  if m.downstreamPending then throw .downstreamPending
  let (moved, rest) ← leading pred m.deferredTargets.elems
  return { m with
    targets := { m.targets with elems := m.targets.elems ++ TargetList.clearPending moved }
    deferredTargets := { m.deferredTargets with elems := rest }.populateFlags }

/-- The predicate of `promoteReadable`. -/
def readable (t : Target) : Bool := !t.pkt.req.isCacheInvalidate && !t.pkt.needsWritable

def promoteReadable : Except MshrFault Mshr :=
  if m.deferredTargets.elems.isEmpty then .ok m
  else if !m.inService then .error .notInService
  else if m.postInvalidate then .ok m
  else m.promoteIf readable

/-- The predicate of `promoteWritable`. -/
def notInvalidating (t : Target) : Bool := !t.pkt.req.isCacheInvalidate

/-- `targets.needsWritable = true`. -/
def setNeedsWritable : Mshr :=
  { m with targets := { m.targets with flags := { m.targets.flags with needsWritable := true } } }

def promoteWritable : Except MshrFault Mshr :=
  if !m.deferredTargets.flags.needsWritable then .ok m
  else if !m.inService then .error .notInService
  else if m.postInvalidate || m.postDowngrade then .ok m
  else
    match m.deferredTargets.elems with
    | [] => .error .noTarget
    | t :: _ =>
      if t.pkt.req.isCacheInvalidate then .ok m
      else if m.targets.flags.needsWritable then .error .needsWritable
      else m.setNeedsWritable.promoteIf notInvalidating

end Mshr

end Gem5.Mem
