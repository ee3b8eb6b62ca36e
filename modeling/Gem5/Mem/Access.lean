import Gem5.Mem.Packet

/-!
# Gem5.Mem.Access

**Accesses with their data.** An access is a packet of an execution context with its payload; it is
performed on the bytes of a block or of a memory, from some position on. What it does to the bytes
is `Packet::writeData` for a write, and `cmpAndSwap` or the atomic operation for a swap. The same
code stands in `BaseCache` and in `AbstractMemory`.
-/

namespace Gem5.Mem

/-- A packet of an execution context and its data. -/
structure Access where
  contextId : Nat
  pkt : Packet
  payload : Nat → UInt8 := fun _ => 0
  /-- `getByteEnable`, for masked writes -/
  byteEnable : Nat → Bool := fun _ => true
  /-- `getAtomicOp`, on the bytes at the address of the access -/
  atomicOp : (Nat → UInt8) → Nat → UInt8 := id
  /-- `getExtraData`: what a conditional swap expects to find -/
  extraData : Nat → UInt8 := fun _ => 0

namespace Access

/-- Replace `size` bytes from position `base` on. -/
def overwrite (base size : Nat) (new mem : Nat → UInt8) : Nat → UInt8 :=
  fun a => if base ≤ a ∧ a < base + size then new (a - base) else mem a

variable (x : Access) (base : Nat) (mem : Nat → UInt8)

def isAtomicOp : Bool := x.pkt.req.flags.atomic

def writeData : Nat → UInt8 :=
  overwrite base x.pkt.size
    (fun i => if x.pkt.isMaskedWrite && !x.byteEnable i then mem (base + i) else x.payload i) mem

/-- `memcmp` finds the bytes that a conditional swap expects. -/
def compareHolds : Bool := (List.range x.pkt.size).all fun i => x.extraData i = mem (base + i)

/-- A swap overwrites the bytes it reads: `overwrite_mem`, or an atomic operation. -/
def overwrites : Bool := x.isAtomicOp || !x.pkt.req.flags.memSwapCond || x.compareHolds base mem

def validSwap : Bool :=
  x.isAtomicOp || !x.pkt.req.flags.memSwapCond || x.pkt.size = 8 || x.pkt.size = 4

def swap : Nat → UInt8 :=
  if x.isAtomicOp then overwrite base x.pkt.size (x.atomicOp fun i => mem (base + i)) mem
  else if x.overwrites base mem then overwrite base x.pkt.size x.payload mem
  else mem

def isLoadLocked : Bool := x.pkt.cmd = .loadLockedReq

variable {x base mem}

end Access

structure AccessEvent where
  contextId : Nat
  low : Nat
  size : Nat
  /-- It was a load-linked. -/
  linked : Bool
  /-- It wrote its bytes. -/
  wrote : Bool
  deriving Repr, DecidableEq

def AccessEvent.Touches (e : AccessEvent) (a : Nat) : Prop := e.low ≤ a ∧ a < e.low + e.size

def Access.event (x : Access) (wrote : Bool) : AccessEvent :=
  ⟨x.contextId, x.pkt.addr, x.pkt.size, x.isLoadLocked, wrote⟩

end Gem5.Mem
