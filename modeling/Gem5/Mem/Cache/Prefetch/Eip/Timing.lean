import Gem5.Mem.Cache.Prefetch.Eip.Entangled

/-!
# Gem5.Mem.Cache.Prefetch.Eip.Timing

The **timing tables** of the prefetcher. `l1i_timing_mshr_table` tracks the lines
on their way into the cache, with the time of the request and the entangled pair
that caused it; `l1i_timing_cache_table` tracks the lines in the cache, with the
same pair. A line is added to the first table when it is requested, moves to the
second when it is filled and leaves the second when it is invalidated.

The initialisation clears only the valid bits, so what an invalid entry holds is
arbitrary, and a line that is moved without having been tracked keeps whatever
source set its timing-cache entry had.
-/

namespace Gem5.Eip

open Gem5.Lib

structure TimingMshrEntry where
  valid : Bool
  tag : Nat
  sourceSet : Nat
  sourceWay : Nat
  timestamp : Nat
  accessed : Bool
  posHist : Nat
  deriving Repr, DecidableEq

structure TimingCacheEntry where
  valid : Bool
  tag : Nat
  sourceSet : Nat
  sourceWay : Nat
  accessed : Bool
  deriving Repr, DecidableEq

/-- `l1i_timing_mshr_table` and `l1i_timing_cache_table`. -/
structure TimingTables where
  mshr : Nat → TimingMshrEntry
  cache : Nat → Nat → TimingCacheEntry

variable (t : TimingTables) (lineAddr : Nat)

/-- `L1I_TIMING_MSHR_TAG_MASK` and `L1I_TIMING_CACHE_TAG_MASK` both keep
`L1I_HIST_TAG_BITS` bits. -/
def timingMshrTag : Nat := lineAddr &&& (2 ^ l1iHistTagBits - 1)

@[inherit_doc timingMshrTag]
def timingCacheTag : Nat :=
  (lineAddr >>> l1iSetBits) &&& (2 ^ l1iHistTagBits - 1)

def timingSet : Nat := lineAddr % maxNumSet

/-- `l1i_init_timing_tables`, on whatever the memory holds. -/
def l1iInitTimingTables (raw : TimingTables) : TimingTables :=
  { mshr := fun i => { raw.mshr i with valid := false }
    cache := fun i j => { raw.cache i j with valid := false } }

namespace TimingTables

def zero : TimingTables :=
  ⟨fun _ => ⟨false, 0, 0, 0, 0, false, 0⟩, fun _ _ => ⟨false, 0, 0, 0, false⟩⟩

def setMshr (t : TimingTables) (i : Nat) (e : TimingMshrEntry) : TimingTables :=
  { t with mshr := Function.update t.mshr i e }

def setCache (t : TimingTables) (set way : Nat) (e : TimingCacheEntry) : TimingTables :=
  { t with cache := Function.update t.cache set (Function.update (t.cache set) way e) }

end TimingTables

/-! ### Searches -/

def l1iFindTimingMshrEntry : Nat :=
  firstBelow l1iTimingMshrSize fun i =>
    (t.mshr i).tag = timingMshrTag lineAddr ∧ (t.mshr i).valid

def l1iFindTimingCacheEntry : Nat :=
  firstBelow maxNumWay fun j =>
    (t.cache (timingSet lineAddr) j).tag = timingCacheTag lineAddr ∧
      (t.cache (timingSet lineAddr) j).valid

def l1iGetInvalidTimingMshrEntry : Except Fault Nat :=
  let i := firstBelow l1iTimingMshrSize fun i => !(t.mshr i).valid
  if i < l1iTimingMshrSize then .ok i else .error .noFreeTimingMshr

def l1iGetInvalidTimingCacheEntry : Except Fault Nat :=
  let j := firstBelow maxNumWay fun j => !(t.cache (timingSet lineAddr) j).valid
  if j < maxNumWay then .ok j else .error .noFreeTimingCache

def l1iOngoingRequest : Bool :=
  l1iFindTimingMshrEntry t lineAddr < l1iTimingMshrSize

def l1iOngoingAccessedRequest : Bool :=
  let index := l1iFindTimingMshrEntry t lineAddr
  if index = l1iTimingMshrSize then false else (t.mshr index).accessed

/-- `l1i_different_timing_entry_src`: the line is tracked for another source. -/
def l1iDifferentTimingEntrySrc (lineAddr sourceSet sourceWay : Nat) : Bool :=
  let index := l1iFindTimingMshrEntry t lineAddr
  let way := l1iFindTimingCacheEntry t lineAddr
  let e := t.cache (timingSet lineAddr) way
  (index < l1iTimingMshrSize ∧
      ((t.mshr index).sourceSet ≠ sourceSet ∨ (t.mshr index).sourceWay ≠ sourceWay)) ∨
    (way < maxNumWay ∧ (e.sourceSet ≠ sourceSet ∨ e.sourceWay ≠ sourceWay))

/-- `l1i_get_latency`: the time between two cycles, modulo `L1I_TIME_OVERFLOW`. -/
def l1iGetLatency (cycle cyclePrev : Nat) : Nat :=
  let cycleMasked := cycle &&& (l1iTimeOverflow - 1)
  let cyclePrevMasked := cyclePrev &&& (l1iTimeOverflow - 1)
  if cyclePrevMasked > cycleMasked then cycleMasked + l1iTimeOverflow - cyclePrevMasked
  else cycleMasked - cyclePrevMasked

/-- `l1i_get_latency_timing_mshr` at cycle `cycle`: the latency so far of an
accessed outstanding line and the history position of its access. `posHist` is
returned unchanged, with latency `0`, for any other line. -/
def l1iGetLatencyTimingMshr (cycle lineAddr posHist : Nat) : Nat × Nat :=
  let index := l1iFindTimingMshrEntry t lineAddr
  if index = l1iTimingMshrSize then (0, posHist)
  else if ¬(t.mshr index).accessed then (0, posHist)
  else (l1iGetLatency cycle (t.mshr index).timestamp, (t.mshr index).posHist)

/-! ### Updates -/

/-- `l1i_add_timing_entry` at cycle `cycle`. The history position of the entry is
left as it was. -/
def l1iAddTimingEntry (cycle lineAddr sourceSet sourceWay : Nat) : Except Fault TimingTables :=
  if l1iFindTimingMshrEntry t lineAddr < l1iTimingMshrSize then .ok t
  else if l1iFindTimingCacheEntry t lineAddr < maxNumWay then .ok t
  else do
    let i ← l1iGetInvalidTimingMshrEntry t
    return t.setMshr i { t.mshr i with
      valid := true
      tag := timingMshrTag lineAddr
      sourceSet := sourceSet
      sourceWay := sourceWay
      timestamp := cycle &&& (l1iTimeOverflow - 1)
      accessed := false }

def l1iInvalidTimingMshrEntry : Except Fault TimingTables :=
  let index := l1iFindTimingMshrEntry t lineAddr
  if index < l1iTimingMshrSize then
    .ok (t.setMshr index { t.mshr index with valid := false })
  else .error .invalidTimingMshr

def l1iMoveTimingEntry : Except Fault TimingTables :=
  let indexMshr := l1iFindTimingMshrEntry t lineAddr
  let set := timingSet lineAddr
  if indexMshr = l1iTimingMshrSize then do
    let indexCache ← l1iGetInvalidTimingCacheEntry t lineAddr
    return t.setCache set indexCache { t.cache set indexCache with
      valid := true
      tag := timingCacheTag lineAddr
      sourceWay := l1iEtWays
      accessed := true }
  else do
    let indexCache ← l1iGetInvalidTimingCacheEntry t lineAddr
    l1iInvalidTimingMshrEntry
      (t.setCache set indexCache {
        valid := true
        tag := timingCacheTag lineAddr
        sourceSet := (t.mshr indexMshr).sourceSet
        sourceWay := (t.mshr indexMshr).sourceWay
        accessed := (t.mshr indexMshr).accessed })
      lineAddr

def l1iAccessTimingEntry (lineAddr posHist : Nat) : TimingTables :=
  let index := l1iFindTimingMshrEntry t lineAddr
  if index < l1iTimingMshrSize then
    if ¬(t.mshr index).accessed then
      t.setMshr index { t.mshr index with accessed := true, posHist := posHist }
    else t
  else
    let set := timingSet lineAddr
    let way := l1iFindTimingCacheEntry t lineAddr
    if way < maxNumWay then t.setCache set way { t.cache set way with accessed := true } else t

/-- `EIP::notifyInvalidate`: the line leaves the timing cache, and the pair that
brought it in gains or loses confidence. -/
def notifyInvalidate (et : EntangledTable) (addr : Nat) : TimingTables × EntangledTable :=
  let lineAddr := addr >>> log2BlockSize
  let set := timingSet lineAddr
  let way := l1iFindTimingCacheEntry t lineAddr
  if way ≠ maxNumWay then
    let e := t.cache set way
    (t.setCache set way { e with valid := false },
      if e.sourceWay < l1iEtWays then
        l1iUpdateConfidenceEntangledTable et e.sourceSet e.sourceWay lineAddr e.accessed
      else et)
  else (t, et)

end Gem5.Eip
