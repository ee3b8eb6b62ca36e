import Gem5.Lib.Outcome
import Gem5.Mem.Packet

/-!
# Gem5.Mem.CoherentXBar

**The coherent crossbar** (`CoherentXBar::recvTimingReq` of `src/mem/coherent_xbar.cc`). A request
from a CPU-side port is snooped, and then sunk, forwarded to the memory side, or answered by the
crossbar. The crossbar remembers three things: the port to which the response to a request goes
(`routeTo`), the requests to which a snooped cache responds (`outstandingSnoop`), and the cache
cleans of which one of two packets has arrived (`outstandingCMO`).

The snooped caches, the memory side and the layers of the crossbar are the environment of a call: it
says which flags the snoops set, whether the layer and the port below are free, and whether the
packet could be sent.
-/

namespace Gem5.Mem

/-! ### Packets at a crossbar -/

/-- A packet, with what only a crossbar looks at. `request` is the identity of its request. -/
structure XbarPacket extends Packet where
  /-- `pkt->id` -/
  packetId : Nat := 0
  request : Nat := 0
  toPOC : Bool := false
  toPOU : Bool := false
  blockCached : Bool := false
  deriving Repr, DecidableEq

structure SnoopFlags where
  cacheResponding : Bool := false
  responderHadWritable : Bool := false
  hasSharers : Bool := false
  satisfied : Bool := false
  blockCached : Bool := false
  deriving Repr, DecidableEq

namespace XbarPacket

def snooped (p : XbarPacket) (f : SnoopFlags) : XbarPacket :=
  { p with
    cacheResponding := p.cacheResponding || f.cacheResponding
    responderHadWritable := p.responderHadWritable || f.responderHadWritable
    hasSharers := p.hasSharers || f.hasSharers
    satisfied := p.satisfied || f.satisfied
    blockCached := p.blockCached || f.blockCached }

def makeResponse (p : XbarPacket) : XbarPacket :=
  { p with cmd := p.cmd.responseCommand, expressSnoop := false }

end XbarPacket

/-! ### The crossbar -/

structure XbarParams where
  pointOfCoherency : Bool
  pointOfUnification : Bool
  maxOutstandingSnoopCheck : Nat := 512
  maxRoutingTableSizeCheck : Nat := 512
  /-- `respLayers.size()`: the CPU-side ports -/
  respLayers : Nat

namespace XbarParams

def isDestination (c : XbarParams) (p : XbarPacket) : Bool :=
  (p.toPOC && c.pointOfCoherency) || (p.toPOU && c.pointOfUnification)

def sinkPacket (c : XbarParams) (p : XbarPacket) : Bool :=
  (c.pointOfCoherency && p.cacheResponding) ||
    (c.pointOfCoherency && !(p.isRead || p.isWrite) && !p.needsResponse) ||
    (p.isCleanEviction && p.blockCached) ||
    (p.cacheResponding && (!p.needsWritable || p.responderHadWritable))

def forwardPacket (c : XbarParams) (p : XbarPacket) : Bool :=
  if p.isClean then !c.isDestination p
  else p.isRead || p.isWrite || !c.pointOfCoherency

end XbarParams

inductive XbarFault
  /-- The express snoop and the cache responding flag of a request differ. -/
  | expressSnoop
  /-- An express snoop has to be retried. -/
  | expressRetry
  /-- The crossbar cannot respond to the packet. -/
  | notDirect
  | noResponseNeeded
  | snoopOutstanding
  /-- "Outstanding snoop requests exceeded" -/
  | outstandingSnoops
  | routeExists
  /-- "Routing table exceeds" -/
  | routingTableSize
  | noDeferredResponse
  | noRoute
  | portRange
  deriving Repr, DecidableEq

/-- The tables of the crossbar, and what it has sent: the packets forwarded to the memory side, and
the responses scheduled with their ports, the newest first. -/
structure CoherentXBar where
  routeTo : List (Nat × Nat) := []
  outstandingSnoop : List Nat := []
  outstandingCMO : List (Nat × Option XbarPacket) := []
  forwarded : List XbarPacket := []
  responses : List (XbarPacket × Nat) := []

/-- What a call of `recvTimingReq` meets. -/
structure ReqEnv where
  bypassCaches : Bool := false
  /-- `reqLayers[mem_side_port_id]->tryTiming(src_port)` -/
  layerFree : Bool := true
  /-- `memSidePorts[mem_side_port_id]->tryTiming(pkt)` -/
  belowFree : Bool := true
  snoop : SnoopFlags := {}
  /-- `memSidePorts[mem_side_port_id]->sendTimingReq(pkt)` -/
  sent : Bool := true
  deriving Repr, DecidableEq

namespace CoherentXBar

variable (c : XbarParams) (x : CoherentXBar)

/-- `routeTo[req] = cpu_side_port_id`, with its checks. -/
def insertRoute (request port : Nat) : Except XbarFault CoherentXBar :=
  if x.routeTo.any (·.1 = request) then .error .routeExists
  else if x.routeTo.length + 1 > c.maxRoutingTableSizeCheck then .error .routingTableSize
  else .ok { x with routeTo := (request, port) :: x.routeTo }

/-- `outstandingSnoop.insert(pkt->req)`, with its checks. -/
def insertSnoop (request : Nat) : Except XbarFault CoherentXBar :=
  if x.outstandingSnoop.contains request then .error .snoopOutstanding
  else if x.outstandingSnoop.length + 1 > c.maxOutstandingSnoopCheck then
    .error .outstandingSnoops
  else .ok { x with outstandingSnoop := request :: x.outstandingSnoop }

def remember (request port : Nat) (expectSnoopResp expectResponse : Bool) :
    Except XbarFault CoherentXBar := do
  let x ← if expectSnoopResp then x.insertSnoop c request else pure x
  if expectResponse || expectSnoopResp then x.insertRoute c request port else pure x

/-- A packet of a cache clean at its destination: the response that it completes, if any. -/
def completeClean (p : XbarPacket) (port : Nat) :
    Except XbarFault (CoherentXBar × Option (XbarPacket × Nat)) :=
  match x.outstandingCMO.find? (·.1 = p.packetId) with
  | some (_, deferred) =>
    let outstandingCMO := x.outstandingCMO.filter (·.1 ≠ p.packetId)
    if p.isWrite then
      match deferred with
      | none => .error .noDeferredResponse
      | some rsp =>
        match x.routeTo.find? (·.1 = rsp.request) with
        | none => .error .noRoute
        | some (_, rspPort) =>
          if rspPort < c.respLayers then
            .ok ({ x with
              outstandingCMO := outstandingCMO
              routeTo := x.routeTo.filter (·.1 ≠ rsp.request) }, some (rsp, rspPort))
          else .error .portRange
    else .ok ({ x with outstandingCMO := outstandingCMO }, some (p, port))
  | none =>
    if p.isWrite then
      .ok ({ x with outstandingCMO := (p.packetId, none) :: x.outstandingCMO }, none)
    else
      ({ x with outstandingCMO := (p.packetId, some p) :: x.outstandingCMO }.insertRoute c
        p.request port).map fun x => (x, none)

/-- `schedTimingResp`, of a response that the crossbar makes. -/
def respond : Option (XbarPacket × Nat) → Except XbarFault CoherentXBar
  | none => .ok x
  | some (rsp, port) =>
    if rsp.needsResponse then .ok { x with responses := (rsp.makeResponse, port) :: x.responses }
    else .error .noResponseNeeded

/-- `recvTimingReq` after the snoops, where `p` is the packet with the flags that they set. -/
def process (pkt p : XbarPacket) (port : Nat) (sent : Bool) :
    Except XbarFault (Bool × CoherentXBar) :=
  let expectSnoopResp := !pkt.cacheResponding && p.cacheResponding
  let sink := c.sinkPacket p
  let respondDirectly := !sink && !c.forwardPacket p
  let forward := !sink && c.forwardPacket p
  if respondDirectly && (!p.needsResponse || expectSnoopResp) then .error .notDirect
  else if forward && !sent then
    if pkt.expressSnoop then .error .expressRetry else .ok (false, x)
  else do
    let x := if forward then
        { x with forwarded := { p with
            expressSnoop := p.expressSnoop || p.cacheResponding
            writeThrough := p.writeThrough && !(p.isWrite && c.isDestination p) } :: x.forwarded }
      else x
    let expectResponse := p.needsResponse && !p.cacheResponding && !respondDirectly
    let x ← if pkt.expressSnoop then pure x
      else x.remember c p.request port expectSnoopResp expectResponse
    let (x, rsp) ←
      if ((p.isClean && p.satisfied) || p.cmd = .writeClean) && c.isDestination p then
        x.completeClean c p port
      else pure (x, if respondDirectly then some (p, port) else none)
    let x ← x.respond rsp
    return (true, x)

/-- `CoherentXBar::recvTimingReq`: whether the packet is accepted, and the crossbar. -/
def recvTimingReq (pkt : XbarPacket) (port : Nat) (env : ReqEnv) :
    Except XbarFault (Bool × CoherentXBar) :=
  let snoopCaches := !env.bypassCaches && pkt.cmd ≠ .writeClean
  if pkt.expressSnoop ≠ pkt.cacheResponding then .error .expressSnoop
  else if !pkt.expressSnoop && !env.layerFree then .ok (false, x)
  -- A clean request that goes on needs the memory below to be free before it snoops.
  else if snoopCaches && pkt.isClean && !c.isDestination pkt && !env.belowFree then .ok (false, x)
  else x.process c pkt (if snoopCaches then pkt.snooped env.snoop else pkt) port env.sent

end CoherentXBar

end Gem5.Mem
