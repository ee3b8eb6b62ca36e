import Gem5.Mem.Cache.Prefetch.Base
import Gem5.Mem.Cache.Prefetch.Eip.History
import Gem5.Mem.Cache.Prefetch.Eip.Timing

/-!
# Gem5.Mem.Cache.Prefetch.Eip.Prefetcher

The **entangling instruction prefetcher** (`src/mem/cache/prefetch/eip.cc`): its
state and what it does when its cache is accessed, filled, invalidated or told
of a squash.

An access looks up the basic block that starts at its line and the lines
entangled with it, and returns their addresses as prefetch candidates; it then
records the line in the history, if it starts a basic block, and in the timing
tables. A fill looks for a line that was fetched early enough to have prefetched
the filled one and entangles the two.

`cycle` is `get_l1i_current_cycle()` at the time of the call. Addresses are the
64-bit words of the source; the sums that can leave the word are reduced.
-/

namespace Gem5.Eip

open Gem5.Prefetch

/-- `pfInMSHRQ`: the pair a prefetch candidate was issued for. -/
structure PfInMshrQ where
  lineAddr : Nat
  sourceSet : Nat
  sourceWay : Nat
  deriving Repr, DecidableEq

abbrev AddrPriority := Nat × Int

/-- The state of `EIP`. -/
structure Prefetcher where
  hist : HistTable
  timing : TimingTables
  entangled : EntangledTable
  lastBasicBlock : Nat
  consecutiveCount : Nat
  basicBlockMergeDiff : Nat
  pfmq : List PfInMshrQ

/-- `EIP::EIP` at cycle `cycle`, on whatever the memory of the timing tables
holds. -/
def Prefetcher.init (cycle : Nat) (raw : TimingTables) : Prefetcher where
  hist := l1iInitHistTable cycle
  timing := l1iInitTimingTables raw
  entangled := l1iInitEntangledTable
  lastBasicBlock := 0
  consecutiveCount := 0
  basicBlockMergeDiff := 0
  pfmq := []

/-! ### Candidates -/

/-- The variables of `calculatePrefetch` while it collects candidates. -/
structure PfScan where
  entangled : EntangledTable
  format : Nat
  numEntangled : Nat
  bbSize : Nat
  addresses : List AddrPriority
  pfmq : List PfInMshrQ

variable (t : TimingTables)

def PfScan.issue (acc : PfScan) (lineAddr pfAddr sourceSet sourceWay : Nat) : PfScan :=
  if l1iOngoingRequest t lineAddr then acc
  else
    { acc with
      addresses := acc.addresses ++ [(pfAddr, 0)]
      pfmq := acc.pfmq ++ [⟨pfAddr, sourceSet, sourceWay⟩] }

/-- The next lines of the basic block that starts at the accessed line. -/
def PfScan.basicBlock (addr : Nat) (acc : PfScan) : PfScan :=
  (List.range' 1 acc.bbSize).foldl
    (fun acc i =>
      let pfAddr := (addr + i * 2 ^ log2BlockSize) % 2 ^ 64
      acc.issue t (pfAddr >>> log2BlockSize) pfAddr 0 l1iEtWays)
    acc

/-- Line `i` of the basic block of an entangled line. A line that is tracked for
another pair lowers the confidence in this one. -/
def PfScan.entangledLine (sourceSet sourceWay entangledLineAddr : Nat)
    (acc : PfScan) (i : Nat) : Except Fault PfScan :=
  let pfLineAddr := entangledLineAddr + i
  if sourceWay < l1iEtWays then
    let acc := if l1iDifferentTimingEntrySrc t pfLineAddr sourceSet sourceWay then
      { acc with entangled :=
          l1iUpdateConfidenceEntangledTable acc.entangled sourceSet sourceWay pfLineAddr false }
      else acc
    .ok (acc.issue t pfLineAddr ((pfLineAddr <<< log2BlockSize) % 2 ^ 64) sourceSet
      (if i = 0 then sourceWay else l1iEtWays))
  else .error .sourceWay

/-- Slot `k` of the line's entry in the entangled table. -/
def PfScan.slot (lineAddr : Nat) (acc : PfScan) (k : Slot) : Except Fault PfScan :=
  let r := l1iGetEntangledAddrEntangledTable acc.entangled lineAddr k
  let entangledLineAddr := r.1
  if entangledLineAddr ≠ 0 ∧ entangledLineAddr ≠ lineAddr then do
    let formatK ← l1iGetFormatEntangled lineAddr entangledLineAddr
    let bbSize := l1iGetBbsizeEntangledTable acc.entangled entangledLineAddr
    (List.range (bbSize + 1)).foldlM
      (PfScan.entangledLine t r.2.1 r.2.2 entangledLineAddr)
      { acc with
        format := if formatK < acc.format then formatK else acc.format
        numEntangled := acc.numEntangled + 1
        bbSize := bbSize }
  else .ok acc

namespace Prefetcher

variable (s : Prefetcher)

/-- The candidates of an access: its basic block, then the entangled lines. -/
def scan (addr : Nat) : Except Fault PfScan :=
  let lineAddr := addr >>> log2BlockSize
  (List.finRange l1iMaxEntangledPerLine).foldlM (PfScan.slot s.timing lineAddr)
    (PfScan.basicBlock s.timing addr {
      entangled := s.entangled
      format := l1iEntangledNumFormats
      numEntangled := 0
      bbSize := l1iGetBbsizeEntangledTable s.entangled lineAddr
      addresses := []
      pfmq := s.pfmq })

/-! ### Recording the access -/

variable (lineAddr : Nat)

/-- A line that does not continue the current basic block starts a new one: the
size of the finished block goes to the history, and the new one is matched with
the recent blocks that may contain it. -/
def newBasicBlock : Except Fault Prefetcher := do
  let maxBbSize := l1iGetBbsizeEntangledTable s.entangled s.lastBasicBlock
  let hist ←
    if s.consecutiveCount = 0 then .ok s.hist
    else if s.basicBlockMergeDiff > 0 then
      l1iAddBbSizeHistTable s.hist (s.lastBasicBlock - s.basicBlockMergeDiff)
        (s.consecutiveCount + s.basicBlockMergeDiff)
    else
      l1iAddBbSizeHistTable s.hist s.lastBasicBlock (max maxBbSize s.consecutiveCount)
  let mergeDiff ← l1iFindBbMergeHistTable hist lineAddr
  return { s with
    hist := hist
    consecutiveCount := 0
    lastBasicBlock := lineAddr
    basicBlockMergeDiff := mergeDiff }

/-- Insert the line in the history unless it continues or merges with a basic
block, or is there already and not newly missing. Returns `pos_hist`. -/
def recordHistory (cycle lineAddr instrId format numEntangled : Nat)
    (cacheHit consecutive : Bool) : Except Fault (Prefetcher × Nat) :=
  if ¬consecutive ∧ s.basicBlockMergeDiff = 0 ∧
      (l1iFindHistEntry s.hist lineAddr = l1iHistTableEntries ∨
        (¬cacheHit ∧ ¬l1iOngoingAccessedRequest s.timing lineAddr)) then do
    let r ← l1iAddHistTable s.hist s.entangled cycle lineAddr instrId format numEntangled
    return ({ s with hist := r.1, entangled := r.2.1 }, r.2.2)
  else .ok (s, l1iHistTableEntries)

def recordTiming (cycle lineAddr posHist : Nat) (cacheHit : Bool) :
    Except Fault Prefetcher := do
  let timing ←
    if ¬cacheHit ∧ ¬l1iOngoingRequest s.timing lineAddr then
      l1iAddTimingEntry s.timing cycle lineAddr 0 l1iEtWays
    else .ok s.timing
  return { s with timing := l1iAccessTimingEntry timing lineAddr posHist }

/-- The assertions at the top of `calculatePrefetch`: the access hits exactly
when the timing cache holds the line. -/
def checkTimingCache (cacheHit : Bool) : Except Fault Unit :=
  let found := l1iFindTimingCacheEntry s.timing lineAddr
  if ¬cacheHit ∧ found ≠ maxNumWay then .error .missInTimingCache
  else if cacheHit ∧ ¬found < maxNumWay then .error .hitNotInTimingCache
  else .ok ()

def continueBlock : Prefetcher :=
  { s with consecutiveCount := (s.consecutiveCount + 1) % 2 ^ 32 }

/-- What `calculatePrefetch` records of an access with candidates `pf`. A line
without destinations and basic block is not in the entangled table and has
format 0. -/
def record (cycle : Nat) (pfi : PrefetchInfo) (consecutive : Bool)
    (pf : PfScan) : Except Fault (Prefetcher × Nat) := do
  let lineAddr := pfi.address >>> log2BlockSize
  let format := if pf.numEntangled = 0 ∧ pf.bbSize = 0 then 0 else pf.format
  let s ← if consecutive then .ok s else s.newBasicBlock lineAddr
  let r ← s.recordHistory cycle lineAddr pfi.instrId format pf.numEntangled (!pfi.cacheMiss)
    consecutive
  let s ← r.1.recordTiming cycle lineAddr r.2 (!pfi.cacheMiss)
  return (s, r.2)

/-- `calculatePrefetch` for a line other than the one accessed last. -/
def observe (cycle : Nat) (pfi : PrefetchInfo) (consecutive : Bool) :
    Except Fault (Prefetcher × List AddrPriority × Nat) := do
  let pf ← s.scan pfi.address
  if pf.format ≥ pf.numEntangled then
    let r ← ({ s with entangled := pf.entangled, pfmq := pf.pfmq } : Prefetcher).record cycle pfi
      consecutive pf
    return (r.1, pf.addresses, r.2)
  else throw .formatNumEntangled

/-- `EIP::calculatePrefetch`. Besides the candidates it returns its local
variable `pos_hist`: the position of the access in the history, or
`L1I_HIST_TABLE_ENTRIES` when it was not inserted. -/
def calculatePrefetch (cycle : Nat) (pfi : PrefetchInfo) :
    Except Fault (Prefetcher × List AddrPriority × Nat) := do
  let lineAddr := pfi.address >>> log2BlockSize
  s.checkTimingCache lineAddr (!pfi.cacheMiss)
  if s.lastBasicBlock + s.consecutiveCount = lineAddr then
    return (s, [], l1iHistTableEntries)
  else if s.lastBasicBlock + s.consecutiveCount + 1 = lineAddr then
    s.continueBlock.observe cycle pfi true
  else s.observe cycle pfi false

/-! ### Notifications -/

/-- `EIP::notifySquash` of the packet of the instruction at `ip`. -/
def notifySquash (ip instrId : Nat) : Prefetcher :=
  let lineAddr := ip >>> log2BlockSize
  let hist := l1iSquashHistTable s.hist instrId lineAddr
  let last := hist.last
  let e := hist.entries last
  if (e.tag ≤ lineAddr ∧ e.tag + s.basicBlockMergeDiff + s.consecutiveCount ≥ lineAddr) ∨
      (e.tag ≤ lineAddr ∧ e.tag + e.bbSize ≥ lineAddr) then
    { s with
      hist := hist.set last { e with bbSize := 0 }
      lastBasicBlock := e.tag
      consecutiveCount := (lineAddr - e.tag) % 2 ^ 32
      basicBlockMergeDiff := 0 }
  else
    { s with
      hist := hist
      lastBasicBlock := 0
      consecutiveCount := 0
      basicBlockMergeDiff := 0 }

/-- `EIP::notifyFill` of the line at virtual address `addr`. -/
def notifyFill (cycle addr : Nat) : Except Fault Prefetcher := do
  let lineAddr := addr >>> log2BlockSize
  let r := l1iGetLatencyTimingMshr s.timing cycle lineAddr l1iHistTableEntries
  let latency := r.1
  let posHist := r.2
  let timing ← l1iMoveTimingEntry s.timing lineAddr
  let s := { s with timing := timing }
  if latency ≠ 0 ∧ posHist < l1iHistTableEntries then do
    let src ← l1iGetSrcEntangledHistTable s.hist lineAddr posHist latency
    if src.2 ≠ 0 then
      if lineAddr ≠ src.2 then
        let hist := src.1.set posHist { src.1.entries posHist with entSrc := src.2 }
        return { s with hist := hist }
      else throw .selfEntangled
    else return { s with hist := src.1 }
  else return s

def notifyInvalidate (addr : Nat) : Prefetcher :=
  let r := Gem5.Eip.notifyInvalidate s.timing s.entangled addr
  { s with timing := r.1, entangled := r.2 }

/-- `EIP::prefetch_issued_to_pq`: the cache has issued a prefetch. -/
def prefetchIssuedToPq (cycle lineAddr sourceSet sourceWay : Nat) :
    Except Fault Prefetcher := do
  let timing ← l1iAddTimingEntry s.timing cycle lineAddr sourceSet sourceWay
  return { s with timing := timing }

/-! ### The queue of issued candidates -/

def clearPfmq : Prefetcher := { s with pfmq := [] }

end Prefetcher

end Gem5.Eip
