import Gem5.Mem.Cache.QueueSound

/-!
# Gem5.Mem.Cache.Blocking

**The CPU side of a cache blocks while a queue is full** (`src/mem/cache/base.hh`,
`CacheResponsePort` and `CpuSidePort` of `base.cc`).

The cache keeps a mask of causes, one bit for each resource that ran out, and the port a flag that
follows the mask. A change of a queue is detected by sampling `isFull` around it: a call that fills
the queue sets the cause and a call after which the queue is full no longer clears it. A request
that finds the port blocked is refused and is owed a retry, sent by an event that the port schedules
when it is unblocked and cancels when it is blocked again.

The invariant is one equation for each bit, one for the flag, and one line for the retry
(`Blocking.Consistent`).
-/

namespace Gem5.Mem

open Gem5.Lib Bool MshrQueue Queue

/-! ### The port -/

inductive PortFault
  /-- `assert(!blocked)`, by `setBlocked` -/
  | setBlocked
  /-- `assert(blocked)`, by `clearBlocked` -/
  | clearBlocked
  /-- `EventManager::schedule`: the event is scheduled already. -/
  | schedule
  deriving Repr, DecidableEq

/-- `CacheResponsePort`. -/
structure ResponsePort where
  blocked : Bool := false
  mustSendRetry : Bool := false
  /-- `sendRetryEvent.scheduled()` -/
  retryScheduled : Bool := false
  deriving Repr, DecidableEq

namespace ResponsePort

def setBlocked (p : ResponsePort) : Except PortFault ResponsePort :=
  if p.blocked then .error .setBlocked
  else if p.retryScheduled then
    .ok { blocked := true, mustSendRetry := true, retryScheduled := false }
  else .ok { p with blocked := true }

def clearBlocked (p : ResponsePort) : Except PortFault ResponsePort :=
  if !p.blocked then .error .clearBlocked
  else if p.mustSendRetry then
    if p.retryScheduled then .error .schedule
    else .ok { p with blocked := false, retryScheduled := true }
  else .ok { p with blocked := false }

/-- `CacheResponsePort::processSendRetry`, when the event occurs. -/
def processSendRetry (p : ResponsePort) : ResponsePort :=
  { p with mustSendRetry := false, retryScheduled := false }

/-- `CpuSidePort::tryTiming`; `express` says that the packet is an express snoop or that the caches
are bypassed. -/
def tryTiming (p : ResponsePort) (express : Bool) : Bool × ResponsePort :=
  if express then (true, p)
  else if p.blocked || p.mustSendRetry then (false, { p with mustSendRetry := true })
  else (true, { p with mustSendRetry := false })

/-- A retry that is owed is scheduled, or will be when the port is unblocked. -/
structure Consistent (p : ResponsePort) : Prop where
  retry : p.mustSendRetry → p.blocked ∨ p.retryScheduled
  idle : p.blocked → p.retryScheduled = false
  owed : p.retryScheduled → p.mustSendRetry

variable {p p' : ResponsePort}

theorem Consistent.setBlocked (h : p.Consistent) (hb : p.blocked = false) :
    ∃ p', p.setBlocked = .ok p' ∧ p'.Consistent ∧ p'.blocked ∧
      p'.mustSendRetry = p.mustSendRetry := by
  unfold ResponsePort.setBlocked
  rw [if_neg (by simp [hb])]
  split
  · rename_i hs
    exact ⟨_, rfl, ⟨fun _ => .inl rfl, fun _ => rfl, fun _ => rfl⟩, rfl, (h.owed hs).symm⟩
  · rename_i hs
    have hs := eq_false_of_not_eq_true hs
    exact ⟨_, rfl, ⟨fun _ => .inl rfl, fun _ => hs, h.owed⟩, rfl, rfl⟩

theorem Consistent.clearBlocked (h : p.Consistent) (hb : p.blocked) :
    ∃ p', p.clearBlocked = .ok p' ∧ p'.Consistent ∧ p'.blocked = false ∧
      p'.mustSendRetry = p.mustSendRetry := by
  have hid := h.idle hb
  unfold ResponsePort.clearBlocked
  rw [if_neg (by simp [hb])]
  split
  · rename_i hm
    rw [if_neg (by simp [hid])]
    exact ⟨_, rfl, ⟨fun _ => .inr rfl, fun h => (by cases h), fun _ => hm⟩, rfl, rfl⟩
  · rename_i hm
    refine ⟨_, rfl, ⟨fun h => absurd h hm, fun h => (by cases h), fun h => ?_⟩, rfl, rfl⟩
    rw [hid] at h
    cases h

theorem consistent_processSendRetry (p : ResponsePort) : p.processSendRetry.Consistent where
  retry h := by cases h
  idle _ := rfl
  owed h := by cases h

theorem Consistent.tryTiming (h : p.Consistent) (express : Bool) :
    (p.tryTiming express).2.Consistent ∧ (p.tryTiming express).2.blocked = p.blocked ∧
      (p.mustSendRetry → (p.tryTiming express).2.mustSendRetry) ∧
      ((p.tryTiming express).1 = false → (p.tryTiming express).2.mustSendRetry) := by
  unfold ResponsePort.tryTiming
  split
  · exact ⟨h, rfl, fun h => h, fun h => by cases h⟩
  split
  · rename_i hr
    refine ⟨⟨fun _ => ?_, h.idle, fun _ => rfl⟩, rfl, fun _ => rfl, fun _ => rfl⟩
    rcases or_eq_true_iff.mp hr with hb | hm
    · exact .inl hb
    · exact h.retry hm
  · rename_i hr
    obtain ⟨hb, hm⟩ := or_eq_false_iff.mp (eq_false_of_not_eq_true hr)
    refine ⟨⟨fun h => (by cases h), h.idle, fun hsc => ?_⟩, rfl, fun h => ?_, fun h => (by cases h)⟩
    · have how := h.owed hsc
      rw [hm] at how
      cases how
    · rw [hm] at h
      cases h

end ResponsePort

/-! ### The causes -/

inductive BlockedCause
  | noMSHRs
  | noWBBuffers
  | noTargets
  deriving Repr, DecidableEq

def BlockedCause.index : BlockedCause → Nat
  | .noMSHRs => 0
  | .noWBBuffers => 1
  | .noTargets => 2

/-- `uint8_t flag = 1 << cause` -/
def BlockedCause.flag (cause : BlockedCause) : BitVec 8 := 1#8 <<< cause.index

def BlockedCause.isSet (cause : BlockedCause) (mask : BitVec 8) : Bool :=
  mask.getLsbD cause.index

namespace BlockedCause

theorem isSet_or (c d : BlockedCause) (mask : BitVec 8) :
    d.isSet (mask ||| c.flag) = (d.isSet mask || d = c) := by
  rw [isSet, BitVec.getLsbD_or]
  congr 1
  cases c <;> cases d <;> decide

theorem isSet_clear (c d : BlockedCause) (mask : BitVec 8) :
    d.isSet (mask &&& ~~~c.flag) = (d.isSet mask && d ≠ c) := by
  rw [isSet, BitVec.getLsbD_and]
  congr 1
  cases c <;> cases d <;> decide

theorem ne_zero_of_isSet {c : BlockedCause} {mask : BitVec 8} (h : c.isSet mask = true) :
    mask ≠ 0 := by
  rintro rfl
  cases c <;> cases h

end BlockedCause

/-! ### The cache -/

/-- The part of a cache with `n` MSHRs and `k` entries in the write buffer that blocks its CPU
side. -/
structure Blocking (n k : Nat) where
  mshrQueue : MshrQueue n
  writeBuffer : WriteQueue k
  /-- `uint8_t blocked` -/
  blocked : BitVec 8 := 0
  port : ResponsePort := {}
  noTargetMSHR : Option (Fin n) := none
  /-- A request was refused, and no retry was sent since. -/
  refused : Bool := false

inductive BlockingFault
  | mshrs (e : QueueFault MshrFault)
  | writes (e : QueueFault WriteFault)
  | port (e : PortFault)
  /-- `allocateWriteBuffer`: `assert(pkt->isWrite() || pkt->cmd == MemCmd::CleanEvict)` -/
  | notWrite
  deriving Repr, DecidableEq

namespace Blocking

variable {n k : Nat}

def ofPort {α : Type} : Except PortFault α → Except BlockingFault α
  | .error e => .error (.port e)
  | .ok a => .ok a

def ofMshrs {α : Type} : Except (QueueFault MshrFault) α → Except BlockingFault α
  | .error e => .error (.mshrs e)
  | .ok a => .ok a

def ofWrites {α : Type} : Except (QueueFault WriteFault) α → Except BlockingFault α
  | .error e => .error (.writes e)
  | .ok a => .ok a

variable (s : Blocking n k)

def setBlocked (cause : BlockedCause) : Except BlockingFault (Blocking n k) := do
  let port ← if s.blocked = 0 then ofPort s.port.setBlocked else .ok s.port
  return { s with port := port, blocked := s.blocked ||| cause.flag }

def clearBlocked (cause : BlockedCause) :
    Except BlockingFault (Blocking n k) := do
  let mask := s.blocked &&& ~~~cause.flag
  let port ← if mask = 0 then ofPort s.port.clearBlocked else .ok s.port
  return { s with port := port, blocked := mask }

def blockIf (full : Bool) (cause : BlockedCause) : Except BlockingFault (Blocking n k) :=
  if full then s.setBlocked cause else .ok s

/-- A queue that may be full no longer. -/
def unblockIf (freed : Bool) (cause : BlockedCause) : Except BlockingFault (Blocking n k) :=
  if freed then s.clearBlocked cause else .ok s

def allocateMissBuffer (blkSize : Nat) (pkt : Packet) (time order : Nat)
    (allocOnFill : Bool) : Except BlockingFault (Blocking n k) := do
  let q ← ofMshrs (s.mshrQueue.allocate (pkt.getBlockAddr blkSize) blkSize pkt time order allocOnFill)
  blockIf { s with mshrQueue := q } q.isFull .noMSHRs

def allocateWriteBuffer (blkSize : Nat) (pkt : Packet) (time order : Nat) :
    Except BlockingFault (Blocking n k) := do
  if !(pkt.isWrite || pkt.cmd = .cleanEvict) then throw .notWrite
  let q ← ofWrites (s.writeBuffer.allocate (pkt.getBlockAddr blkSize) blkSize pkt time order)
  blockIf { s with writeBuffer := q } q.isFull .noWBBuffers

variable (i : Fin n)

/-- `BaseCache::recvTimingResp`, where it frees the MSHR. -/
def deallocate : Except BlockingFault (Blocking n k) := do
  let q ← ofMshrs (s.mshrQueue.deallocate i)
  unblockIf { s with mshrQueue := q } (s.mshrQueue.isFull && !q.isFull) .noMSHRs

/-- `Cache::sendMSHRQueuePacket`, where a prefetch is squashed. -/
def forceDeallocateTarget (curTick : Nat) :
    Except BlockingFault (Blocking n k) := do
  let r ← ofMshrs (s.mshrQueue.forceDeallocateTarget i curTick)
  unblockIf { s with mshrQueue := r.2 } r.1 .noMSHRs

/-- `BaseCache::markInService` of an MSHR. -/
def markInService (pendingModifiedResp : Bool) :
    Except BlockingFault (Blocking n k) := do
  let q ← ofMshrs (s.mshrQueue.markInService i pendingModifiedResp)
  unblockIf { s with mshrQueue := q } (s.mshrQueue.isFull && !q.isFull) .noMSHRs

/-- `BaseCache::markInService` of an entry of the write buffer. -/
def markWriteInService (i : Fin k) : Except BlockingFault (Blocking n k) := do
  let q ← ofWrites (s.writeBuffer.markInService i)
  unblockIf { s with writeBuffer := q } (s.writeBuffer.isFull && !q.isFull) .noWBBuffers

/-- `BaseCache::handleTimingReqMiss`: the MSHR has as many targets as it may. -/
def outOfTargets : Except BlockingFault (Blocking n k) :=
  setBlocked { s with noTargetMSHR := some i } .noTargets

/-- `BaseCache::recvTimingResp`: a response clears at least one target. -/
def response : Except BlockingFault (Blocking n k) := do
  if s.noTargetMSHR = some i then
    let s ← s.clearBlocked .noTargets
    return { s with noTargetMSHR := none }
  else return s

def tryTiming (express : Bool) : Blocking n k :=
  { s with
    port := (s.port.tryTiming express).2
    refused := s.refused || !(s.port.tryTiming express).1 }

def processSendRetry : Blocking n k :=
  { s with port := s.port.processSendRetry, refused := false }

end Blocking

inductive BlockingCall (n k : Nat)
  | allocateMissBuffer (blkSize : Nat) (pkt : Packet) (time order : Nat) (allocOnFill : Bool)
  | allocateWriteBuffer (blkSize : Nat) (pkt : Packet) (time order : Nat)
  | deallocate (i : Fin n)
  | forceDeallocateTarget (i : Fin n) (curTick : Nat)
  | markInService (i : Fin n) (pendingModifiedResp : Bool)
  | markWriteInService (i : Fin k)
  | markPending (i : Fin n)
  | delay (i : Fin n) (curTick delayTicks : Nat)
  | mshr (i : Fin n) (c : MshrCall)
  | outOfTargets (i : Fin n)
  | response (i : Fin n)
  | tryTiming (express : Bool)
  | retry

namespace Blocking

variable {n k : Nat}

variable (s : Blocking n k)

def onQueue (a : MshrQueueCall n) : Except BlockingFault (Blocking n k) := do
  let q ← ofMshrs (s.mshrQueue.step a)
  return { s with mshrQueue := q }

def step : BlockingCall n k → Except BlockingFault (Blocking n k)
  | .allocateMissBuffer blkSize pkt time order allocOnFill =>
    s.allocateMissBuffer blkSize pkt time order allocOnFill
  | .allocateWriteBuffer blkSize pkt time order => s.allocateWriteBuffer blkSize pkt time order
  | .deallocate i => s.deallocate i
  | .forceDeallocateTarget i curTick => s.forceDeallocateTarget i curTick
  | .markInService i pendingModifiedResp => s.markInService i pendingModifiedResp
  | .markWriteInService i => s.markWriteInService i
  | .markPending i => s.onQueue (.markPending i)
  | .delay i curTick delayTicks => s.onQueue (.delay i curTick delayTicks)
  | .mshr i c => s.onQueue (.mshr i c)
  | .outOfTargets i => s.outOfTargets i
  | .response i => s.response i
  | .tryTiming express => .ok (s.tryTiming express)
  | .retry => .ok s.processSendRetry

def occurs : BlockingCall n k → Bool
  | .retry => s.port.retryScheduled
  | _ => true

end Blocking

/-- A cache with `mshrs` MSHRs and `writeBuffers` write buffers. The write buffer has a reserve of
one entry for each MSHR. -/
abbrev blockingSystem (mshrs writeBuffers : Nat) :
    System (Blocking mshrs (writeBuffers + mshrs)) (BlockingCall mshrs (writeBuffers + mshrs))
      BlockingFault where
  init s := s = {
    mshrQueue := .init mshrs 0 .free
    writeBuffer := .init (writeBuffers + mshrs) mshrs .free }
  step := Blocking.step
  pre s a := s.occurs a = true

/-! ### When a queue becomes full -/

namespace Queue

variable {E ε : Type} [QueueEntry E ε] {n : Nat} {q q' : Queue E n} {i : Fin n}

theorem isFull_mono (hres : q'.numReserve = q.numReserve) (hle : q.allocated ≤ q'.allocated)
    (h : q.isFull) : q'.isFull := by
  simp only [isFull, decide_eq_true_eq] at h ⊢
  omega

theorem isFull_allocate {fill : E → Except ε E} (h : q.allocate fill = .ok q')
    (hfl : q.isFull) : q'.isFull := by
  obtain ⟨i, free, e, l, -, -, -, rfl⟩ := allocate_cases h
  refine isFull_mono ?_ ?_ hfl
  · rfl
  · show q.allocated ≤ q.allocated + 1
    omega

theorem isFull_deallocate (h : q.deallocate i = .ok q') (hfl : q'.isFull) : q.isFull := by
  obtain ⟨-, e, l, m, rfl, -⟩ := deallocate_cases h
  refine isFull_mono ?_ ?_ hfl
  · rfl
  · show q.allocated - 1 ≤ q.allocated
    omega

end Queue

theorem MshrQueue.isFull_forceDeallocateTarget {n : Nat} {q : MshrQueue n} {i : Fin n}
    {curTick : Nat} {r : Bool × MshrQueue n} (h : q.forceDeallocateTarget i curTick = .ok r)
    (hf : r.2.isFull) : Queue.isFull q = true := by
  rcases (forceDeallocateTarget_cases h).2 with ⟨heq, -⟩ | ⟨promoted, m, -, -, ⟨-, heq⟩ | ⟨-, hde⟩⟩
  · rw [heq] at hf
    exact hf
  · rw [heq] at hf
    exact hf
  · have hse : (setEntry q i m).isFull := isFull_deallocate hde hf
    exact hse

theorem MshrQueue.isFull_step {n : Nat} {q q' : MshrQueue n} {a : MshrQueueCall n}
    (ha : (∃ i, a = .markPending i) ∨ (∃ i t d, a = .delay i t d) ∨ ∃ i c, a = .mshr i c)
    (h : q.step a = .ok q') : Queue.isFull q' = Queue.isFull q := by
  rcases ha with ⟨i, rfl⟩ | ⟨i, t, d, rfl⟩ | ⟨i, c, rfl⟩
  · obtain ⟨l, -, -, rfl⟩ := markPending_cases h
    rfl
  · obtain ⟨-, -, rfl⟩ := delay_readyList h
    rfl
  · obtain ⟨m, -, rfl⟩ := onMshr_eq_ok.mp h
    rfl

open BlockedCause (isSet_or isSet_clear ne_zero_of_isSet)

/-! ### The mask and the flag -/

namespace Blocking

variable {n k : Nat} {s s' : Blocking n k} {cause : BlockedCause} {port : ResponsePort} {α : Type}
  {q : MshrQueue n} {mask : BitVec 8}

/-- The flag of the port follows the mask, and a refused request is owed a retry. -/
structure Follows (s : Blocking n k) : Prop where
  flag : s.port.blocked ↔ s.blocked ≠ 0
  port : s.port.Consistent
  owed : s.refused → s.port.mustSendRetry

/-- Every bit says whether its resource has run out. -/
structure Consistent (s : Blocking n k) : Prop extends Follows s where
  mshrs : BlockedCause.noMSHRs.isSet s.blocked = s.mshrQueue.isFull
  writes : BlockedCause.noWBBuffers.isSet s.blocked = s.writeBuffer.isFull
  targets : BlockedCause.noTargets.isSet s.blocked = s.noTargetMSHR.isSome

def NotPort : BlockingFault → Prop
  | .port _ => False
  | _ => True

theorem Follows.setBlocked (h : s.Follows) (cause : BlockedCause) :
    ∃ port, s.setBlocked cause = .ok { s with port := port, blocked := s.blocked ||| cause.flag } ∧
      Follows { s with port := port, blocked := s.blocked ||| cause.flag } := by
  have hs : s.blocked ||| cause.flag ≠ 0 := ne_zero_of_isSet (c := cause) (by rw [isSet_or]; simp)
  unfold Blocking.setBlocked
  by_cases hz : s.blocked = 0
  · have hop : s.port.blocked = false := by
      refine eq_false_of_not_eq_true fun hb => ?_
      exact h.flag.mp hb hz
    obtain ⟨port, hpo, hco, hbl, hmu⟩ := h.port.setBlocked hop
    refine ⟨port, ?_, ⟨fun _ => hs, fun _ => hbl⟩, hco, fun hr => ?_⟩
    · rw [if_pos hz, hpo]
      rfl
    · exact hmu.trans (h.owed hr)
  · refine ⟨s.port, ?_, ⟨fun _ => hs, fun _ => h.flag.mpr hz⟩, h.port, h.owed⟩
    rw [if_neg hz]
    rfl

theorem Follows.clearBlocked (h : s.Follows) (hse : cause.isSet s.blocked) :
    ∃ port,
      s.clearBlocked cause = .ok { s with port := port, blocked := s.blocked &&& ~~~cause.flag } ∧
        Follows { s with port := port, blocked := s.blocked &&& ~~~cause.flag } := by
  have hcl : s.port.blocked := h.flag.mpr (ne_zero_of_isSet hse)
  unfold Blocking.clearBlocked
  by_cases hz : s.blocked &&& ~~~cause.flag = 0
  · obtain ⟨port, hpo, hco, hbl, hmu⟩ := h.port.clearBlocked hcl
    refine ⟨port, ?_, ⟨fun hb => ?_, fun hn => absurd hz hn⟩, hco, fun hr => ?_⟩
    · rw [if_pos hz, hpo]
      rfl
    · rw [hbl] at hb
      cases hb
    · exact hmu.trans (h.owed hr)
  · refine ⟨s.port, ?_, ⟨fun _ => hz, fun _ => hcl⟩, h.port, h.owed⟩
    rw [if_neg hz]
    rfl

theorem Follows.blockIf (h : s.Follows) (full : Bool) (cause : BlockedCause)
    (hmo : cause.isSet s.blocked → full = true) :
    ∃ port mask, s.blockIf full cause = .ok { s with port := port, blocked := mask } ∧
      Follows { s with port := port, blocked := mask } ∧
      ∀ d : BlockedCause, d.isSet mask = if d = cause then full else d.isSet s.blocked := by
  unfold Blocking.blockIf
  cases full with
  | true =>
    obtain ⟨port, hok, hfo⟩ := h.setBlocked cause
    refine ⟨port, _, by simpa using hok, hfo, fun d => ?_⟩
    rw [isSet_or]
    by_cases hd : d = cause <;> simp [hd]
  | false =>
    refine ⟨s.port, s.blocked, rfl, h, fun d => ?_⟩
    split
    · rename_i hd
      exact eq_false_of_not_eq_true fun hse => by simpa using hmo (hd ▸ hse)
    · rfl

theorem Follows.unblockIf (h : s.Follows) {wasFull full : Bool}
    (hw : cause.isSet s.blocked = wasFull) (hmo : full = true → wasFull = true) :
    ∃ port mask,
      s.unblockIf (wasFull && !full) cause = .ok { s with port := port, blocked := mask } ∧
        Follows { s with port := port, blocked := mask } ∧
        ∀ d : BlockedCause, d.isSet mask = if d = cause then full else d.isSet s.blocked := by
  unfold Blocking.unblockIf
  split
  · rename_i hfr
    obtain ⟨hfl, hno⟩ := and_eq_true_iff.mp hfr
    obtain ⟨port, hok, hfo⟩ := h.clearBlocked (hw.trans hfl)
    refine ⟨port, _, hok, hfo, fun d => ?_⟩
    rw [isSet_clear]
    by_cases hd : d = cause
    · simpa [hd] using hno.symm
    · simp [hd]
  · rename_i hke
    refine ⟨s.port, s.blocked, rfl, h, fun d => ?_⟩
    split
    · rename_i hd
      rw [hd, hw]
      cases full with
      | true => exact hmo rfl
      | false => simpa using hke
    · rfl

/-! ### Every call -/

theorem ofMshrs_outcome {r : Except (QueueFault MshrFault) α} :
    Outcome (fun a => r = .ok a) NotPort (ofMshrs r) := by
  cases r with
  | error e => trivial
  | ok a => rfl

theorem ofWrites_outcome {r : Except (QueueFault WriteFault) α} :
    Outcome (fun a => r = .ok a) NotPort (ofWrites r) := by
  cases r with
  | error e => trivial
  | ok a => rfl

section

variable (h : s.Consistent)

include h

theorem Consistent.mshrs_updated {x : Except BlockingFault (Blocking n k)} (hx : ∃ port mask,
    x = .ok { s with mshrQueue := q, port := port, blocked := mask } ∧
    Follows { s with mshrQueue := q, port := port, blocked := mask } ∧
    ∀ d : BlockedCause, d.isSet mask = if d = .noMSHRs then Queue.isFull q else d.isSet s.blocked) :
    Outcome Consistent NotPort x := by
  obtain ⟨port, mask, rfl, hf, hb⟩ := hx
  exact ⟨hf, hb .noMSHRs, (hb .noWBBuffers).trans h.writes, (hb .noTargets).trans h.targets⟩

theorem Consistent.writes_updated {q : WriteQueue k} {x : Except BlockingFault (Blocking n k)}
    (hx : ∃ port mask, x = .ok { s with writeBuffer := q, port := port, blocked := mask } ∧
    Follows { s with writeBuffer := q, port := port, blocked := mask } ∧
    ∀ d : BlockedCause, d.isSet mask =
      if d = .noWBBuffers then Queue.isFull q else d.isSet s.blocked) :
    Outcome Consistent NotPort x := by
  obtain ⟨port, mask, rfl, hf, hb⟩ := hx
  exact ⟨hf, (hb .noMSHRs).trans h.mshrs, hb .noWBBuffers, (hb .noTargets).trans h.targets⟩

theorem Consistent.mshr_freed (hmo : Queue.isFull q = true → s.mshrQueue.isFull) :
    Outcome Consistent NotPort (unblockIf { s with mshrQueue := q }
      (s.mshrQueue.isFull && !Queue.isFull q) .noMSHRs) :=
  h.mshrs_updated (Follows.unblockIf (s := { s with mshrQueue := q }) ⟨h.flag, h.port, h.owed⟩
    h.mshrs hmo)

theorem Consistent.onQueue {a : MshrQueueCall n}
    (ha : (∃ i, a = .markPending i) ∨ (∃ i t d, a = .delay i t d) ∨ ∃ i c, a = .mshr i c) :
    Outcome Consistent NotPort (s.onQueue a) := by
  refine ofMshrs_outcome.bind fun q hq => ?_
  exact ⟨⟨h.flag, h.port, h.owed⟩, h.mshrs.trans (isFull_step ha hq).symm, h.writes, h.targets⟩

theorem Consistent.step (a : BlockingCall n k) : Outcome Consistent NotPort (s.step a) := by
  cases a with
  | allocateMissBuffer blkSize pkt time order allocOnFill =>
    refine ofMshrs_outcome.bind fun q hq => ?_
    exact h.mshrs_updated (Follows.blockIf (s := { s with mshrQueue := q }) ⟨h.flag, h.port, h.owed⟩
      (isFull q) .noMSHRs fun hs => isFull_allocate hq (h.mshrs.symm.trans hs))
  | allocateWriteBuffer blkSize pkt time order =>
    show Outcome Consistent NotPort (s.allocateWriteBuffer blkSize pkt time order)
    unfold allocateWriteBuffer
    by_cases hwr : (!(pkt.isWrite || pkt.cmd = .cleanEvict)) = true
    · rw [if_pos hwr]
      trivial
    · rw [if_neg hwr]
      refine ofWrites_outcome.bind fun q hq => ?_
      exact h.writes_updated (Follows.blockIf (s := { s with writeBuffer := q })
        ⟨h.flag, h.port, h.owed⟩ (isFull q) .noWBBuffers
        fun hs => isFull_allocate hq (h.writes.symm.trans hs))
  | deallocate i =>
    exact ofMshrs_outcome.bind fun q hq => h.mshr_freed (isFull_deallocate hq)
  | forceDeallocateTarget i curTick =>
    refine ofMshrs_outcome.bind fun r hr => ?_
    rw [(MshrQueue.forceDeallocateTarget_cases hr).1]
    exact h.mshr_freed (isFull_forceDeallocateTarget hr)
  | markInService i pendingModifiedResp =>
    refine ofMshrs_outcome.bind fun q hq => ?_
    obtain ⟨m, -, -, rfl⟩ := markInService_cases hq
    exact h.mshr_freed id
  | markWriteInService i =>
    refine ofWrites_outcome.bind fun q hq => ?_
    have hmo : isFull q = true → s.writeBuffer.isFull := by
      unfold WriteQueue.markInService at hq
      dsimp only at hq
      split at hq
      · cases hq
      · intro hfl
        have hs := isFull_deallocate hq hfl
        exact hs
    exact h.writes_updated (Follows.unblockIf (s := { s with writeBuffer := q })
      ⟨h.flag, h.port, h.owed⟩ h.writes hmo)
  | markPending i => exact h.onQueue (.inl ⟨i, rfl⟩)
  | delay i curTick delayTicks => exact h.onQueue (.inr (.inl ⟨i, _, _, rfl⟩))
  | mshr i c => exact h.onQueue (.inr (.inr ⟨i, c, rfl⟩))
  | outOfTargets i =>
    have hf : Follows { s with noTargetMSHR := some i } := ⟨h.flag, h.port, h.owed⟩
    obtain ⟨port, ho, hf⟩ := hf.setBlocked .noTargets
    show Outcome Consistent NotPort (Blocking.setBlocked _ .noTargets)
    rw [ho]
    refine ⟨hf, ?_, ?_, ?_⟩
    · exact (isSet_or _ _ _).trans (by simpa using h.mshrs)
    · exact (isSet_or _ _ _).trans (by simpa using h.writes)
    · exact (isSet_or _ _ _).trans (by simp)
  | response i =>
    show Outcome Consistent NotPort (s.response i)
    unfold Blocking.response
    split
    · rename_i hn
      have hs : BlockedCause.noTargets.isSet s.blocked := by rw [h.targets, hn]; rfl
      obtain ⟨port, ho, hf⟩ := h.toFollows.clearBlocked hs
      rw [ho]
      refine ⟨⟨hf.flag, hf.port, hf.owed⟩, ?_, ?_, ?_⟩
      · exact (isSet_clear _ _ _).trans (by simpa using h.mshrs)
      · exact (isSet_clear _ _ _).trans (by simpa using h.writes)
      · exact (isSet_clear _ _ _).trans (by simp)
    · exact h
  | tryTiming express =>
    obtain ⟨hpo, hbl, hke, hre⟩ := h.port.tryTiming express
    refine ⟨⟨?_, hpo, fun hr => ?_⟩, h.mshrs, h.writes, h.targets⟩
    · show (s.port.tryTiming express).2.blocked ↔ _
      rw [hbl]
      exact h.flag
    · rcases or_eq_true_iff.mp hr with hr | hr
      · exact hke (h.owed hr)
      · exact hre (by simpa using hr)
  | retry =>
    exact ⟨⟨h.flag, ResponsePort.consistent_processSendRetry _, fun hr => (by cases hr)⟩, h.mshrs,
      h.writes, h.targets⟩

end

end Blocking

variable {mshrs writeBuffers : Nat}

/-- **The blocking protocol.** In a cache with at least one MSHR and one write buffer, the two bits
say whether the queues are full, the port is blocked while any bit is set, no assertion of the port
fires, and a request that was refused and got no retry yet will get one. -/
theorem blocking_protocol (hmshrs : 0 < mshrs) (hwrites : 0 < writeBuffers)
    {s : Blocking mshrs (writeBuffers + mshrs)}
    (hs : (blockingSystem mshrs writeBuffers).Reachable s) :
    (BlockedCause.noMSHRs.isSet s.blocked ↔ s.mshrQueue.isFull) ∧
      (BlockedCause.noWBBuffers.isSet s.blocked ↔ s.writeBuffer.isFull) ∧
      (s.port.blocked ↔ s.blocked ≠ 0) ∧
      (∀ a, (blockingSystem mshrs writeBuffers).pre s a → ∀ e, s.step a ≠ .error (.port e)) ∧
      (s.refused → s.port.blocked ∧ s.port.mustSendRetry ∨ s.port.retryScheduled) := by
  have h : s.Consistent := by
    refine hs.invariant Blocking.Consistent ?_ ?_
    · rintro s rfl
      refine ⟨⟨by simp, ⟨by simp, by simp, by simp⟩, by simp⟩, ?_, ?_, by simp [BlockedCause.isSet]⟩
      · simpa [isFull, init, BlockedCause.isSet] using hmshrs.ne'
      · simpa [isFull, init, BlockedCause.isSet] using hwrites.ne'
    · intro s a s' h _ hst
      exact (h.step a).of_ok hst
  refine ⟨by rw [h.mshrs], by rw [h.writes], h.flag, fun a _ e her => ?_, fun hr => ?_⟩
  · have ho := h.step a
    rw [her] at ho
    exact ho
  · have hm := h.owed hr
    exact (h.port.retry hm).imp (fun hb => ⟨hb, hm⟩) id

/-- The only MSHR is taken, a request is refused, and the MSHR is freed again. -/
def refusedOnce : List (BlockingCall 1 2) :=
  [.allocateMissBuffer 64 { cmd := .readReq, size := 8 } 0 0 true,
    .tryTiming false,
    .forceDeallocateTarget ⟨0, Nat.one_pos⟩ 0]

theorem blocking_protocol_refused_once :
    ∃ s, (blockingSystem 1 1).Reachable s ∧ s.refused ∧ s.blocked = 0 ∧
      (s.port.blocked ∧ s.port.mustSendRetry ∨ s.port.retryScheduled) := by
  obtain ⟨s, hs, hr, hms⟩ := System.Reachable.exists_of_leads
    (S := blockingSystem 1 1) (p := fun s => s.refused ∧ s.blocked = 0)
    refusedOnce (.start rfl) (by decide +kernel)
  exact ⟨s, hs, hr, hms, (blocking_protocol (by decide) (by decide) hs).2.2.2.2 hr⟩

/-- A cache without write buffers or without MSHRs is full from the start, and does not notice
before its first writeback or miss. -/
theorem full_not_blocked :
    (∃ s, (blockingSystem 1 0).Reachable s ∧ s.writeBuffer.isFull ∧
      BlockedCause.noWBBuffers.isSet s.blocked = false) ∧
    ∃ s, (blockingSystem 0 1).Reachable s ∧ s.mshrQueue.isFull ∧
      BlockedCause.noMSHRs.isSet s.blocked = false :=
  ⟨⟨_, .start rfl, rfl, rfl⟩, _, .start rfl, rfl, rfl⟩

end Gem5.Mem
