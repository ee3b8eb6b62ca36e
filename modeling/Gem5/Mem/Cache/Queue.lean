import Gem5.Mem.Cache.MshrRuns

/-!
# Gem5.Mem.Cache.Queue

**The MSHR queue and the write queue** (`src/mem/cache/queue.hh`, `mshr_queue.cc`,
`write_queue.cc`).

A queue owns its entries and keeps pointers to them in three lists: the entries in use in the order
of their allocation, those of them that were not sent yet in the order in which they become ready,
and the free entries. A pointer is an index. An entry stores an iterator into each list it is on;
the node it points to holds the entry itself, so erasing at the iterator erases the entry, and the
iterator dangles when the entry is not on the list.
-/

namespace Gem5.Mem

open Gem5.Lib

/-- `QueueEntry`, as far as `Queue` uses it. -/
class QueueEntry (E : Type) (ε : outParam Type) where
  readyTime : E → Nat
  inService : E → Bool
  getNumTargets : E → Nat
  deallocate : E → Except ε E

inductive QueueFault (ε : Type)
  /-- `assert(!freeList.empty())` -/
  | noFree
  /-- `assert(mshr->getNumTargets() == 0)` -/
  | usedEntry
  /-- An iterator is used after its node was erased. -/
  | dangling
  /-- "Failed to add to ready list." -/
  | addToReadyList
  /-- `assert(mshr->hasTargets())`, or the first target of an empty list is popped. -/
  | noTargets
  /-- `assert(readyTime <= curTick())`, by `MSHR::delay` -/
  | notReady
  | entry (e : ε)
  deriving Repr, DecidableEq

structure Queue (E : Type) (numEntries : Nat) where
  numReserve : Nat
  entries : Fin numEntries → E
  allocatedList : List (Fin numEntries)
  readyList : List (Fin numEntries)
  freeList : List (Fin numEntries)
  numInService : Int
  allocated : Int

/-- `std::list::erase` at the iterator of `a`. -/
def eraseIter {α ε : Type} [DecidableEq α] (l : List α) (a : α) : Except (QueueFault ε) (List α) :=
  if a ∈ l then .ok (l.erase a) else .error .dangling

/-- Insert `a` before the first element that is `later`. -/
def insertBefore {α : Type} (later : α → Bool) (a : α) : List α → Option (List α)
  | [] => none
  | b :: l => if later b then some (a :: b :: l) else (insertBefore later a l).map (b :: ·)

namespace Queue

variable {E ε : Type} [QueueEntry E ε] {n : Nat}

/-- `Queue::Queue`, with `n` entries of which `numReserve` are the reserve. -/
def init (n numReserve : Nat) (entry : E) : Queue E n where
  numReserve := numReserve
  entries _ := entry
  allocatedList := []
  readyList := []
  freeList := List.finRange n
  numInService := 0
  allocated := 0

variable (q : Queue E n) (i : Fin n)

def setEntry (e : E) : Queue E n :=
  { q with entries := Function.update q.entries i e }

def readyTime : Nat := QueueEntry.readyTime (q.entries i)

def inService : Bool := QueueEntry.inService (q.entries i)

def isFull : Bool := q.allocated ≥ (n : Int) - q.numReserve

def addToReadyList : Except (QueueFault ε) (List (Fin n)) :=
  match q.readyList.getLast? with
  | none => .ok (q.readyList ++ [i])
  | some back =>
    if q.readyTime back ≤ q.readyTime i then .ok (q.readyList ++ [i])
    else
      match insertBefore (fun j => q.readyTime j > q.readyTime i) i q.readyList with
      | none => .error .addToReadyList
      | some l => .ok l

def getNext (curTick : Nat) : Option (Fin n) :=
  match q.readyList with
  | [] => none
  | front :: _ => if q.readyTime front > curTick then none else some front

/-- The body of `MSHRQueue::allocate` and `WriteQueue::allocate`, which differ in the call that
fills the entry. -/
def allocate (fill : E → Except ε E) : Except (QueueFault ε) (Queue E n) :=
  match q.freeList with
  | [] => .error .noFree
  | i :: free =>
    if QueueEntry.getNumTargets (q.entries i) ≠ 0 then .error .usedEntry
    else
      match fill (q.entries i) with
      | .error e => .error (.entry e)
      | .ok e => do
          let q := { q.setEntry i e with
            freeList := free
            allocatedList := q.allocatedList ++ [i] }
          let readyList ← q.addToReadyList i
          return { q with readyList := readyList, allocated := q.allocated + 1 }

/-- `Queue::deallocate`: an entry that was not sent is on the ready list. -/
def leaveService : Except (QueueFault ε) (Queue E n) :=
  if q.inService i then .ok { q with numInService := q.numInService - 1 }
  else do
    let readyList ← eraseIter q.readyList i
    return { q with readyList := readyList }

def deallocate : Except (QueueFault ε) (Queue E n) := do
  let allocatedList ← eraseIter q.allocatedList i
  let q ← leaveService { q with
    allocatedList := allocatedList
    freeList := i :: q.freeList
    allocated := q.allocated - 1 } i
  match QueueEntry.deallocate (q.entries i) with
  | .error e => throw (.entry e)
  | .ok e => return q.setEntry i e

end Queue

/-! ### The MSHR queue -/

instance : QueueEntry Mshr MshrFault where
  readyTime := Mshr.readyTime
  inService := Mshr.inService
  getNumTargets m := m.targets.elems.length + m.deferredTargets.elems.length
  deallocate := Mshr.deallocate

def Mshr.popTarget (m : Mshr) : Mshr :=
  { m with targets := { m.targets with elems := m.targets.elems.tail } }

abbrev MshrQueue (n : Nat) := Queue Mshr n

namespace MshrQueue

variable {n : Nat}

variable (q : MshrQueue n) (i : Fin n)

def onMshr (r : Except MshrFault Mshr) : Except (QueueFault MshrFault) (MshrQueue n) :=
  match r with
  | .error e => .error (.entry e)
  | .ok m => .ok (q.setEntry i m)

def allocate (blkAddr blkSize : Nat) (pkt : Packet) (whenReady order : Nat)
    (allocOnFill : Bool) : Except (QueueFault MshrFault) (MshrQueue n) :=
  Queue.allocate q fun m => m.allocate blkAddr blkSize pkt whenReady order allocOnFill

/-- `MSHRQueue::delay`. The search starts at the entry itself, and the entry is spliced in front of
what it finds. -/
def delay (curTick delayTicks : Nat) : Except (QueueFault MshrFault) (MshrQueue n) :=
  if ¬q.readyTime i ≤ curTick then .error .notReady
  else if i ∉ q.readyList then .error .dangling
  else
    let q := q.setEntry i { q.entries i with readyTime := curTick + delayTicks }
    let it := (q.readyList.dropWhile (· ≠ i)).find? fun j => q.readyTime i ≥ q.readyTime j
    .ok { q with readyList :=
      match it with
      | none => q.readyList.erase i ++ [i]
      | some j =>
        if j = i then q.readyList
        else (insertBefore (· = j) i (q.readyList.erase i)).getD q.readyList }

def markInService (pendingModifiedResp : Bool) :
    Except (QueueFault MshrFault) (MshrQueue n) := do
  let q ← onMshr q i ((q.entries i).markInService pendingModifiedResp)
  let readyList ← eraseIter q.readyList i
  return { q with readyList := readyList, numInService := q.numInService + 1 }

def markPending : Except (QueueFault MshrFault) (MshrQueue n) := do
  let q ← onMshr q i (q.entries i).markPending
  let readyList ← q.addToReadyList i
  return { q with readyList := readyList, numInService := q.numInService - 1 }

/-- `MSHRQueue::forceDeallocateTarget`: whether the queue is full no longer, and the queue. -/
def forceDeallocateTarget (curTick : Nat) :
    Except (QueueFault MshrFault) (Bool × MshrQueue n) := do
  if (q.entries i).targets.elems = [] then throw .noTargets
  let m := (q.entries i).popTarget
  if m.targets.elems ≠ [] then
    let q' := q.setEntry i m
    return (q.isFull && !q'.isFull, q')
  match m.promoteDeferredTargets curTick with
  | .error e => throw (.entry e)
  | .ok (promoted, m) => do
      let q' ← if promoted then .ok (q.setEntry i m) else (q.setEntry i m).deallocate i
      return (q.isFull && !q'.isFull, q')

end MshrQueue

/-! ### The write queue -/

structure WriteQueueEntry where
  blkAddr : Nat
  blkSize : Nat
  isSecure : Bool
  readyTime : Nat
  order : Nat
  isUncacheable : Bool
  inService : Bool
  targets : List Packet
  deriving Repr, DecidableEq

inductive WriteFault
  /-- "Write queue entry should never have more than one cacheable target" -/
  | secondTarget
  /-- "Write queue entry should be an uncacheable write or a cacheable eviction or a writeclean" -/
  | notWrite
  /-- `assert(target->matchBlockAddr(targets.front().pkt, blkSize))` -/
  | otherBlock
  /-- `assert(targets.empty())`, by `deallocate` -/
  | targetsLeft
  deriving Repr, DecidableEq

namespace WriteQueueEntry

def free : WriteQueueEntry where
  blkAddr := 0
  blkSize := 0
  isSecure := false
  readyTime := 0
  order := 0
  isUncacheable := false
  inService := false
  targets := []

def allocate (e : WriteQueueEntry) (blkAddr blkSize : Nat) (target : Packet)
    (whenReady order : Nat) : Except WriteFault WriteQueueEntry :=
  let uncacheable := target.req.isUncacheable
  if !uncacheable && !e.targets.isEmpty then .error .secondTarget
  else if !((target.isWrite && uncacheable) || (target.isEviction && !uncacheable) ||
      target.cmd = .writeClean) then .error .notWrite
  else if (e.targets ++ [target]).head?.any fun front =>
      target.getBlockAddr blkSize ≠ front.getBlockAddr blkSize || target.secure ≠ front.secure then
    .error .otherBlock
  else .ok {
    blkAddr := blkAddr
    blkSize := blkSize
    isSecure := target.secure
    readyTime := whenReady
    order := order
    isUncacheable := uncacheable
    inService := false
    targets := e.targets ++ [target] }

def deallocate (e : WriteQueueEntry) : Except WriteFault WriteQueueEntry :=
  if e.targets ≠ [] then .error .targetsLeft else .ok { e with inService := false }

end WriteQueueEntry

instance : QueueEntry WriteQueueEntry WriteFault where
  readyTime := WriteQueueEntry.readyTime
  inService := WriteQueueEntry.inService
  getNumTargets e := e.targets.length
  deallocate := WriteQueueEntry.deallocate

abbrev WriteQueue (n : Nat) := Queue WriteQueueEntry n

namespace WriteQueue

variable {n : Nat}

def allocate (q : WriteQueue n) (blkAddr blkSize : Nat) (pkt : Packet) (whenReady order : Nat) :
    Except (QueueFault WriteFault) (WriteQueue n) :=
  Queue.allocate q fun e => e.allocate blkAddr blkSize pkt whenReady order

/-- `WriteQueue::markInService`: an entry that was sent is done. -/
def markInService (q : WriteQueue n) (i : Fin n) : Except (QueueFault WriteFault) (WriteQueue n) :=
  let e := q.entries i
  if e.targets = [] then .error .noTargets
  else (q.setEntry i { e with targets := e.targets.tail }).deallocate i

end WriteQueue

end Gem5.Mem
