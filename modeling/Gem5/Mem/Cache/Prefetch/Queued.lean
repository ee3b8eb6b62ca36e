import Gem5.Mem.Cache.Prefetch.Base

/-!
# Gem5.Mem.Cache.Prefetch.Queued

The **prefetch queues** of a queued prefetcher
(`src/mem/cache/prefetch/queued.hh`, `queued.cc`).

A prefetcher of class `Queued` keeps its candidates in a list ordered by
priority. `addToQueue` inserts by walking the list backwards and, when the list is
full, first drops a packet of the lowest priority; `alreadyInQueue` looks a
candidate up and raises a priority. Both work in place on a `std::list`: an
iterator is modelled by the index of the element it points to, `end()` by the
length of the list. The statistics counters are not modelled.
-/

namespace Gem5.Prefetch

open Gem5.Mem

structure DeferredPacket where
  pfInfo : PrefetchInfo
  /-- When the prefetch becomes ready. -/
  tick : Nat := 0
  /-- The packet of the prefetch, created once its physical address is known. -/
  pkt : Option Packet := none
  priority : Int
  deriving Repr, DecidableEq

/-- `DeferredPacket::operator>`. -/
def DeferredPacket.gt (a b : DeferredPacket) : Bool := b.priority < a.priority

/-- `DeferredPacket::operator<=`. -/
def DeferredPacket.le (a b : DeferredPacket) : Bool := !a.gt b

/-- The `panic_if`s of `addToQueue`. -/
inductive QueueFault
  /-- "Prefetch queue is both full and empty!" -/
  | fullAndEmpty
  /-- "Prefetch queue is full with 1 element!" -/
  | fullWithOne
  deriving Repr, DecidableEq

namespace Queued

/-! ### Adding -/

/-- The eviction loop of `addToQueue`, from the element at `it`: go to the previous
element as long as it has the same priority. -/
def oldestFrom (queue : List DeferredPacket) : Nat → Nat
  | 0 => 0
  | prev + 1 =>
    if (queue[prev]?).map (·.priority) = (queue[prev + 1]?).map (·.priority) then
      oldestFrom queue prev
    else prev + 1

/-- The first half of `addToQueue`: a full queue loses a packet. -/
def makeRoom (queueSize : Nat) (queue : List DeferredPacket) :
    Except QueueFault (List DeferredPacket) :=
  if queue.length = queueSize then
    match queue.length with
    | 0 => .error .fullAndEmpty
    | 1 => .error .fullWithOne
    | last + 1 => .ok (queue.eraseIdx (oldestFrom queue last))
  else .ok queue

/-- The insertion loop of `addToQueue`, from the element at `it`: go to the previous
element while `it` is not the head and `dpp` has a higher priority. -/
def insertFrom (queue : List DeferredPacket) (dpp : DeferredPacket) : Nat → Nat
  | 0 => 0
  | it + 1 => if (queue[it + 1]?).any dpp.gt then insertFrom queue dpp it else it + 1

variable (queue : List DeferredPacket)

/-- The second half of `addToQueue`. -/
def insertByPriority (dpp : DeferredPacket) : List DeferredPacket :=
  if (queue.getLast?).all dpp.le then queue ++ [dpp]
  else
    let it := insertFrom queue dpp (queue.length - 1)
    -- At the head, the new packet still has to be compared with it.
    let it := if it = 0 ∧ (queue[0]?).any dpp.le then it + 1 else it
    queue.insertIdx it dpp

def addToQueue (queueSize : Nat) (queue : List DeferredPacket) (dpp : DeferredPacket) :
    Except QueueFault (List DeferredPacket) := do
  return insertByPriority (← makeRoom queueSize queue) dpp

/-! ### Looking up -/

/-- The search loop of `alreadyInQueue`: whether it found the address, and where
its iterator stands afterwards. The iterator is advanced once more after a match. -/
def searchEnd (pfi : PrefetchInfo) : List DeferredPacket → Bool × Nat
  | [] => (false, 0)
  | dp :: queue =>
    if dp.pfInfo.sameAddr pfi then (true, 1)
    else ((searchEnd pfi queue).1, (searchEnd pfi queue).2 + 1)

/-- The reordering loop of `alreadyInQueue`: the element at `it` is swapped with each
earlier element of lower priority. -/
def swapUp (queue : List DeferredPacket) (it : Nat) : Nat → List DeferredPacket
  | 0 => queue
  | prev + 1 =>
    match queue[it]?, queue[prev]? with
    | some a, some b =>
      if a.gt b then swapUp ((queue.set it b).set prev a) prev prev
      else swapUp queue it prev
    | _, _ => queue

/-- The packet whose priority `alreadyInQueue` raises, and its position: the element
at the iterator, if its priority is below the requested one. -/
def raised (pfi : PrefetchInfo) (priority : Int) : Option (Nat × DeferredPacket) :=
  let it := (searchEnd pfi queue).2
  match queue[it]? with
  | some dp => if dp.priority < priority then some (it, { dp with priority := priority }) else none
  | none => none

/-- `Queued::alreadyInQueue`: the result, and the queue afterwards. -/
def alreadyInQueue (pfi : PrefetchInfo) (priority : Int) : Bool × List DeferredPacket :=
  ((searchEnd pfi queue).1,
    match raised queue pfi priority with
    | some (it, dp) => swapUp (queue.set it dp) it it
    | none => queue)

end Queued

end Gem5.Prefetch
