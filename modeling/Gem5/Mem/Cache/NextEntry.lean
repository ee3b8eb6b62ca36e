import Gem5.Mem.Cache.Queue

/-!
# Gem5.Mem.Cache.NextEntry

**What a cache sends next** (`BaseCache::getNextQueueEntry`, `src/mem/cache/base.cc`): the first
pending entry of the MSHR queue or of the write buffer, or an entry of the other queue that is in
conflict with it, or a prefetch.

Misses and writes of one block should leave in the order of their stamps. The conflict that is
returned is the *first* pending one, its own conflicts are not looked for, and a pending write precedes
a miss whatever their stamps are (`next_in_order_iff`).
-/

namespace Gem5.Mem

/-- `Queue::findPending`; every pending entry has a target. -/
def Queue.findPending {E : Type} {n : Nat} (q : Queue E n) (conflictAddr : E → Bool) : Option (Fin n) :=
  q.readyList.find? fun i => conflictAddr (q.entries i)

/-- A block address with its security space. -/
abbrev LineId := Nat × Bool

def Mshr.block (m : Mshr) : LineId := (m.blkAddr, m.isSecure)

def WriteQueueEntry.block (e : WriteQueueEntry) : LineId := (e.blkAddr, e.isSecure)

/-- What `getNextQueueEntry` reads. -/
structure SendState (n k : Nat) where
  mshrQueue : MshrQueue n
  writeBuffer : WriteQueue k
  curTick : Nat
  /-- The stamp of the next entry. -/
  order : Nat
  /-- The block of the packet that the prefetcher offers, if it may and the cache lacks the block. -/
  prefetch : Option LineId

/-- The entry that is sent; a prefetch gets a new MSHR. -/
inductive NextEntry (n k : Nat)
  | mshr (i : Fin n)
  | write (j : Fin k)
  | prefetch (b : LineId)

namespace SendState

variable {n k : Nat} (s : SendState n k)

def miss (i : Fin n) : Mshr := s.mshrQueue.entries i

def wqEntry (j : Fin k) : WriteQueueEntry := s.writeBuffer.entries j

/-- `findMatch` of both queues, which ignores uncacheable entries. -/
def findMatch (b : LineId) : Bool :=
  (s.mshrQueue.allocatedList.any fun i => !(s.miss i).isUncacheable && (s.miss i).block = b) ||
    s.writeBuffer.allocatedList.any fun j => !(s.wqEntry j).isUncacheable && (s.wqEntry j).block = b

/-- The ready write, if it is favoured: the write buffer is full or no miss is ready. -/
def favouredWrite : Option (Fin k) :=
  if s.writeBuffer.isFull || (s.mshrQueue.getNext s.curTick).isNone then
    s.writeBuffer.getNext s.curTick
  else none

def getNextQueueEntry : Option (NextEntry n k) :=
  match s.favouredWrite with
  | some w =>
    match s.mshrQueue.findPending (·.block = (s.wqEntry w).block) with
    | some c => if (s.miss c).order < (s.wqEntry w).order then some (.mshr c) else some (.write w)
    | none => some (.write w)
  | none =>
    match s.mshrQueue.getNext s.curTick with
    | some m =>
      match s.writeBuffer.findPending (·.block = (s.miss m).block) with
      | some c => some (.write c)
      | none => some (.mshr m)
    | none => (s.prefetch.filter fun b => !s.findMatch b).map .prefetch

def OlderMiss (b : LineId) (order : Nat) : Prop :=
  ∃ i ∈ s.mshrQueue.readyList, (s.miss i).block = b ∧ (s.miss i).order < order

def OlderWrite (b : LineId) (order : Nat) : Prop :=
  ∃ j ∈ s.writeBuffer.readyList, (s.wqEntry j).block = b ∧ (s.wqEntry j).order < order

def Overtakes : NextEntry n k → Prop
  | .mshr i => s.OlderWrite (s.miss i).block (s.miss i).order
  | .write j => s.OlderMiss (s.wqEntry j).block (s.wqEntry j).order
  | .prefetch b => s.OlderWrite b s.order

/-- No pending miss of its block is older than a favoured write, or the first one is older than it
and than every pending write; no pending miss of the block of the next miss is older than the first
pending write; and an older pending write of the block of a prefetch comes with a match. -/
def InOrder : Prop :=
  match s.favouredWrite with
  | some w =>
    ¬s.OlderMiss (s.wqEntry w).block (s.wqEntry w).order ∨
      ∃ c ∈ s.mshrQueue.findPending (·.block = (s.wqEntry w).block),
        (s.miss c).order < (s.wqEntry w).order ∧ ¬s.OlderWrite (s.wqEntry w).block (s.miss c).order
  | none =>
    match s.mshrQueue.getNext s.curTick with
    | some m => ∀ c ∈ s.writeBuffer.findPending (·.block = (s.miss m).block),
        ¬s.OlderMiss (s.miss m).block (s.wqEntry c).order
    | none => ∀ b ∈ s.prefetch, s.OlderWrite b s.order → s.findMatch b = true

end SendState

open SendState

theorem Queue.of_findPending {E : Type} {n : Nat} {q : Queue E n} {block : E → LineId} {b : LineId}
    {i : Fin n} (h : q.findPending (block · = b) = some i) :
    i ∈ q.readyList ∧ block (q.entries i) = b :=
  ⟨List.mem_of_find?_eq_some h, by simpa using List.find?_some h⟩

/-- **When nothing is overtaken**, for every state of the two queues. -/
theorem next_in_order_iff {n k : Nat} (s : SendState n k) :
    (∀ e ∈ s.getNextQueueEntry, ¬s.Overtakes e) ↔ s.InOrder := by
  unfold getNextQueueEntry InOrder
  cases s.favouredWrite with
  | some w =>
    cases hc : s.mshrQueue.findPending (·.block = (s.wqEntry w).block) with
    | none =>
      simp [hc, Overtakes]
    | some c =>
      obtain ⟨hme, hb⟩ := Queue.of_findPending hc
      by_cases hlt : (s.miss c).order < (s.wqEntry w).order
      · have holder : s.OlderMiss (s.wqEntry w).block (s.wqEntry w).order := ⟨c, hme, hb, hlt⟩
        have hbl : (s.miss c).block = (s.wqEntry w).block := hb
        simp [hc, Overtakes, hlt, holder, hbl]
      · simp [hc, Overtakes, hlt]
  | none =>
    cases s.mshrQueue.getNext s.curTick with
    | some m =>
      cases hc : s.writeBuffer.findPending (·.block = (s.miss m).block) with
      | none =>
        have hn : ¬s.OlderWrite (s.miss m).block (s.miss m).order := by
          rintro ⟨j, hj, hb, -⟩
          exact List.find?_eq_none.mp hc j hj (decide_eq_true hb)
        simp [hc, Overtakes, hn]
      | some c =>
        have hbl : (s.wqEntry c).block = (s.miss m).block := (Queue.of_findPending hc).2
        simp [hc, Overtakes, hbl]
    | none =>
      cases s.prefetch with
      | none => simp
      | some b => cases hm : s.findMatch b <;> simp [Option.filter, hm, Overtakes]

/-- Two writes and a miss of one block, stamped 5, 1 and 3, of which the write stamped 5 is ready. -/
def twoWrites : SendState 1 2 where
  mshrQueue := { Queue.init 1 0 { Mshr.free with order := 3, readyTime := 1 } with readyList := [⟨0, Nat.one_pos⟩] }
  writeBuffer := { Queue.init 2 0 WriteQueueEntry.free with
    entries := fun j => { WriteQueueEntry.free with order := if j.val = 0 then 5 else 1 }
    readyList := [⟨0, Nat.two_pos⟩, ⟨1, Nat.one_lt_two⟩] }
  curTick := 0
  order := 6
  prefetch := none

/-- **A miss overtakes an older write**: it is returned as the conflict of a younger one. -/
theorem overtakes_twoWrites : ∃ e ∈ twoWrites.getNextQueueEntry, twoWrites.Overtakes e :=
  ⟨.mshr 0, rfl, 1, by decide, rfl, by decide⟩

end Gem5.Mem
