import Gem5.Lib.Outcome
import Gem5.Mem.Cache.Mshr

/-!
# Gem5.Mem.Cache.Blk

**Cache blocks** (`src/mem/cache/cache_blk.hh`, `src/mem/cache/tags/tagged_entry.hh`) and what
a request does to the block it is satisfied from (`BaseCache::satisfyRequest`,
`Cache::satisfyRequest`).

A block holds the address it caches, its coherence bits and the mark of a prefetch that has
not been used. The bits count only while the block is valid. The data, the lock list and the
fields of the replacement policies are not modelled.
-/

namespace Gem5.Mem

open Gem5.Lib

/-- `CacheBlk`. `addr` is the block address its tag and set stand for. -/
structure CacheBlk where
  valid : Bool := false
  addr : Nat := 0
  secure : Bool := false
  writable : Bool := false
  readable : Bool := false
  dirty : Bool := false
  prefetched : Bool := false
  vaddr : Nat := 0
  deriving Repr, DecidableEq

namespace CacheBlk

/-- `isSet(WritableBit)`. -/
def isWritable (b : CacheBlk) : Bool := b.valid && b.writable

/-- `isSet(ReadableBit)`. -/
def isReadable (b : CacheBlk) : Bool := b.valid && b.readable

/-- `isSet(DirtyBit)`. -/
def isDirty (b : CacheBlk) : Bool := b.valid && b.dirty

def matchTag (b : CacheBlk) (addr : Nat) (secure : Bool) : Bool :=
  b.valid && b.addr = addr && b.secure = secure

def insert (b : CacheBlk) (addr : Nat) (secure : Bool) : CacheBlk :=
  { b with valid := true, addr := addr, secure := secure }

/-- `CacheBlk::invalidate`. The virtual address stays. -/
def invalidate (b : CacheBlk) : CacheBlk :=
  { b with
    valid := false
    secure := false
    writable := false
    readable := false
    dirty := false
    prefetched := false }

def setPrefetched (b : CacheBlk) : CacheBlk := { b with prefetched := true }

def clearPrefetched (b : CacheBlk) : CacheBlk := { b with prefetched := false }

/-- What `writecleanBlk` does to the block: it hands over the ownership. -/
def writeClean (b : CacheBlk) : CacheBlk := { b with writable := false, dirty := false }

end CacheBlk

/-! ### Satisfying a request -/

/-- The assertions of `satisfyRequest`. -/
inductive BlkFault
  /-- `assert(pkt->isRequest())` -/
  | notRequest
  /-- `assert(blk && blk->isValid())` -/
  | invalid
  /-- `assert(pkt->getOffset(blkSize) + pkt->getSize() <= blkSize)` -/
  | outsideBlock
  /-- `assert(blk->isSet(CacheBlk::WritableBit))` -/
  | notWritable
  /-- `assert(pkt->hasRespData())` -/
  | noRespData
  /-- `assert(!pkt->hasSharers())` -/
  | hasSharers
  /-- `assert(pkt->isInvalidate())` -/
  | notInvalidate
  /-- `assert(pkt->getSize() == blkSize)` -/
  | partOfBlock
  /-- `assert(pkt->cmd == MemCmd::ReadExReq || pkt->cmd == MemCmd::SCUpgradeFailReq)` -/
  | exclusiveRead
  deriving Repr, DecidableEq

/-- `BaseCache::satisfyRequest`: the block and the packet with the flags set on it. A block
that comes back invalid has been dropped. -/
def baseSatisfyRequest (blkSize : Nat) (b : CacheBlk) (pkt : Packet) :
    Except BlkFault (CacheBlk × Packet) :=
  if !pkt.isRequest then .error .notRequest
  else if !b.valid then .error .invalid
  else if pkt.getOffset blkSize + pkt.size > blkSize then .error .outsideBlock
  else if pkt.cmd = .swapReq then
    -- Only a conditional swap that fails leaves the block as it was.
    if pkt.req.flags.atomic || !pkt.req.flags.memSwapCond || pkt.compareHolds then
      .ok ({ b with dirty := true }, pkt)
    else .ok (b, pkt)
  else if pkt.isWrite then
    if b.isWritable then .ok ({ b with dirty := true }, pkt) else .error .notWritable
  else if pkt.isRead then
    if pkt.hasRespData then .ok (b, pkt) else .error .noRespData
  else if pkt.isUpgrade then
    if pkt.hasSharers then .error .hasSharers
    else if b.isDirty then .ok ({ b with dirty := false }, { pkt with cacheResponding := true })
    else .ok (b, pkt)
  else if pkt.isClean then .ok ({ b with dirty := false }, pkt)
  else if pkt.isInvalidate then .ok (b.invalidate, pkt)
  else .error .notInvalidate

/-- The part of `Cache::satisfyRequest` for a read by a cache above: whether it gets the block
dirty, writable or shared. -/
def passToCache (blkSize : Nat) (b : CacheBlk) (pkt : Packet)
    (deferredResponse pendingDowngrade : Bool) : Except BlkFault (CacheBlk × Packet) :=
  if pkt.size ≠ blkSize then .error .partOfBlock
  else if pkt.needsWritable then
    if pkt.cmd ≠ .readExReq ∧ pkt.cmd ≠ .scUpgradeFailReq then .error .exclusiveRead
    else if pkt.hasSharers then .error .hasSharers
    else if b.isDirty then .ok ({ b with dirty := false }, { pkt with cacheResponding := true })
    else .ok (b, pkt)
  else if b.isWritable && !pendingDowngrade && !pkt.hasSharers && pkt.cmd ≠ .readCleanReq then
    if b.isDirty then
      if !deferredResponse then
        .ok ({ b with dirty := false }, { pkt with cacheResponding := true })
      else .ok (b, { pkt with hasSharers := true })
    else .ok (b, pkt)
  else .ok (b, { pkt with hasSharers := true })

def satisfyRequest (blkSize : Nat) (b : CacheBlk) (pkt : Packet)
    (deferredResponse pendingDowngrade : Bool) : Except BlkFault (CacheBlk × Packet) := do
  let r ← baseSatisfyRequest blkSize b pkt
  if r.2.isRead && r.2.fromCache then
    passToCache blkSize r.1 r.2 deferredResponse pendingDowngrade
  else return r

namespace CacheBlk

/-- The two blocks hold the same line, with the same mark of an unused prefetch: they differ in
the readable, writable and dirty bits only. -/
def SameLine (b b' : CacheBlk) : Prop :=
  b'.valid = b.valid ∧ b'.addr = b.addr ∧ b'.secure = b.secure ∧ b'.vaddr = b.vaddr ∧
    b'.prefetched = b.prefetched

theorem SameLine.refl (b : CacheBlk) : b.SameLine b := ⟨rfl, rfl, rfl, rfl, rfl⟩

theorem SameLine.trans {a b c : CacheBlk} (h : a.SameLine b) (h' : b.SameLine c) : a.SameLine c :=
  ⟨h'.1.trans h.1, h'.2.1.trans h.2.1, h'.2.2.1.trans h.2.2.1, h'.2.2.2.1.trans h.2.2.2.1,
    h'.2.2.2.2.trans h.2.2.2.2⟩

end CacheBlk

def Packet.SameRequest (pkt pkt' : Packet) : Prop :=
  pkt'.cmd = pkt.cmd ∧ pkt'.req = pkt.req ∧ pkt'.addr = pkt.addr ∧ pkt'.secure = pkt.secure

theorem Packet.SameRequest.refl (pkt : Packet) : pkt.SameRequest pkt := ⟨rfl, rfl, rfl, rfl⟩

theorem Packet.SameRequest.trans {a b c : Packet} (h : a.SameRequest b) (h' : b.SameRequest c) :
    a.SameRequest c :=
  ⟨h'.1.trans h.1, h'.2.1.trans h.2.1, h'.2.2.1.trans h.2.2.1, h'.2.2.2.trans h.2.2.2⟩

variable {r : CacheBlk × Packet} {blkSize : Nat} {b : CacheBlk} {pkt : Packet}
  {deferredResponse pendingDowngrade : Bool}

theorem baseSatisfyRequest_cases (h : baseSatisfyRequest blkSize b pkt = .ok r) :
    b.valid ∧ pkt.SameRequest r.2 ∧ (b.SameLine r.1 ∨ r.1 = b.invalidate ∧ pkt.isRead = false) := by
  obtain ⟨-, h⟩ := guard_eq_ok.mp h
  obtain ⟨hva, h⟩ := guard_eq_ok.mp h
  obtain ⟨-, h⟩ := guard_eq_ok.mp h
  refine ⟨by simpa using hva, ?_⟩
  -- A swap, a write, a read, an upgrade, a clean, an invalidation.
  rcases ite_eq_iff.mp h with ⟨-, h⟩ | ⟨-, h⟩
  · rcases ite_eq_iff.mp h with ⟨-, ⟨⟩⟩ | ⟨-, ⟨⟩⟩ <;> exact ⟨.refl pkt, .inl (.refl b)⟩
  rcases ite_eq_iff.mp h with ⟨-, h⟩ | ⟨-, h⟩
  · obtain ⟨-, ⟨⟩⟩ | ⟨-, ⟨⟩⟩ := ite_eq_iff.mp h
    exact ⟨.refl pkt, .inl (.refl b)⟩
  rcases ite_eq_iff.mp h with ⟨-, h⟩ | ⟨hrd, h⟩
  · obtain ⟨-, ⟨⟩⟩ | ⟨-, ⟨⟩⟩ := ite_eq_iff.mp h
    exact ⟨.refl pkt, .inl (.refl b)⟩
  rcases ite_eq_iff.mp h with ⟨-, h⟩ | ⟨-, h⟩
  · obtain ⟨-, h⟩ := guard_eq_ok.mp h
    rcases ite_eq_iff.mp h with ⟨-, ⟨⟩⟩ | ⟨-, ⟨⟩⟩ <;> exact ⟨.refl pkt, .inl (.refl b)⟩
  rcases ite_eq_iff.mp h with ⟨-, ⟨⟩⟩ | ⟨-, h⟩
  · exact ⟨.refl pkt, .inl (.refl b)⟩
  obtain ⟨-, ⟨⟩⟩ | ⟨-, ⟨⟩⟩ := ite_eq_iff.mp h
  exact ⟨.refl pkt, .inr ⟨rfl, by simpa using hrd⟩⟩

theorem passToCache_cases
    (h : passToCache blkSize b pkt deferredResponse pendingDowngrade = .ok r) :
    b.SameLine r.1 ∧ pkt.SameRequest r.2 := by
  unfold passToCache at h
  repeat' split at h
  all_goals first
    | (obtain rfl := Except.ok.inj h; exact ⟨.refl b, .refl pkt⟩)
    | exact nomatch h

/-- **A request keeps the line of its block or drops it**, and a read keeps it. -/
theorem satisfyRequest_cases
    (h : satisfyRequest blkSize b pkt deferredResponse pendingDowngrade = .ok r) :
    b.valid ∧ pkt.SameRequest r.2 ∧ (b.SameLine r.1 ∨ r.1 = b.invalidate ∧ pkt.isRead = false) := by
  obtain ⟨r₀, hba, h⟩ := bind_eq_ok.mp h
  obtain ⟨hva, hr, hl⟩ := baseSatisfyRequest_cases hba
  refine ⟨hva, ?_⟩
  split at h
  · rename_i hrd
    obtain ⟨hpa, hr'⟩ := passToCache_cases h
    refine ⟨hr.trans hr', ?_⟩
    rcases hl with hl | ⟨-, hn⟩
    · exact .inl (hl.trans hpa)
    · simp only [Packet.isRead, hr.1, Bool.and_eq_true] at hrd hn
      rw [hrd.1] at hn
      cases hn
  · cases h
    exact ⟨hr, hl⟩

end Gem5.Mem
