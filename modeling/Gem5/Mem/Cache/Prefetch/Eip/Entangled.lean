import Gem5.Lib.Bits
import Gem5.Lib.Search
import Gem5.Mem.Cache.Prefetch.Eip.Params

/-!
# Gem5.Mem.Cache.Prefetch.Eip.Entangled

The **entangled table** of the prefetcher: 256 sets of 16 ways, each way naming
up to six destination lines of one source line, compressed to the widths of
`l1iEntangledFormats`.

A destination is stored without the high bits it shares with the line that
inserted it; `l1iExtendFormatEntangled` puts the bits of the *looking-up* line
back. The number of destinations a way may hold is its format, so storing a
distant destination (a small format) evicts others.

The model follows `eip.hh` function by function. A set keeps the row
`l1i_entangled_table[set]` together with its replacement pointer
`l1i_entangled_fifo[set]`, since every function touches exactly one set. The
two miss paths that allocate a way (`l1i_add_entangled_table` and
`l1i_add_bbsize_table`) are the same statements in the source and are
`EntangledSet.findOrAllocWay` here.
-/

namespace Gem5.Eip

open Gem5.Lib Function

abbrev Slot := Fin l1iMaxEntangledPerLine

/-- `l1i_entangled_entry`. -/
structure EntangledEntry where
  tag : Nat
  format : Nat
  entangledAddr : Slot → Nat
  entangledConf : Slot → Nat
  bbSize : Nat

structure EntangledSet where
  ways : Nat → EntangledEntry
  fifo : Nat

/-- `l1i_entangled_table` with `l1i_entangled_fifo`. -/
abbrev EntangledTable := Nat → EntangledSet

/-! ### Compression formats -/

/-- The countdown of `l1i_get_format_entangled`, from format `i`. -/
def formatFrom (lineAddr entangledAddr : Nat) : Nat → Except Fault Nat
  | 0 => .error .getFormatEntangled
  | i + 1 =>
    if lineAddr >>> formatBits (i + 1) = entangledAddr >>> formatBits (i + 1) then .ok (i + 1)
    else formatFrom lineAddr entangledAddr i

/-- The largest format whose dropped high bits the two lines share. -/
def l1iGetFormatEntangled (lineAddr entangledAddr : Nat) : Except Fault Nat :=
  formatFrom lineAddr entangledAddr l1iEntangledNumFormats

/-- Rebuild a destination from its stored bits and the source line. -/
def l1iExtendFormatEntangled (lineAddr entangledAddr format : Nat) : Nat :=
  splice lineAddr entangledAddr (formatBits format)

def l1iCompressFormatEntangled (entangledAddr format : Nat) : Nat :=
  entangledAddr &&& (2 ^ formatBits format - 1)

/-! ### Entries -/

namespace EntangledEntry

/-- A freshly allocated way: no destination, no basic-block size. -/
def fresh (tag : Nat) : EntangledEntry where
  tag := tag
  format := l1iEntangledNumFormats
  entangledAddr := fun _ => 0
  entangledConf := fun _ => 0
  bbSize := 0

variable (e : EntangledEntry)

/-- Slot `k` holds a destination: its confidence reached the threshold. -/
def Valid (k : Slot) : Prop :=
  l1iConfidenceCounterThreshold ≤ e.entangledConf k

instance (e : EntangledEntry) (k : Slot) : Decidable (e.Valid k) :=
  inferInstanceAs (Decidable (_ ≤ _))

/-- No slot holds a destination (the flag `dest_free`). -/
def destFree : Bool :=
  (List.finRange l1iMaxEntangledPerLine).all fun k => !decide (e.Valid k)

/-- The destination in slot `k`, as seen from `lineAddr`. -/
def dest (lineAddr : Nat) (k : Slot) : Nat :=
  l1iExtendFormatEntangled lineAddr (e.entangledAddr k) e.format

def setConf (k : Slot) (c : Nat) : EntangledEntry :=
  { e with entangledConf := update e.entangledConf k c }

end EntangledEntry

/-! ### Adding a destination to an entry -/

/-- The variables of one pass over the slots in the eviction loop of
`l1i_add_entangled_table`. -/
structure EvictScan where
  minFormat : Nat
  numValid : Nat
  minValue : Nat
  minPos : Slot

variable (t : EntangledTable) (e : EntangledEntry) (lineAddr : Nat)

/-- One slot of the pass: the format the slot's destination needs, and the
smallest confidence so far. -/
def EvictScan.visit (acc : EvictScan) (k : Slot) : Except Fault EvictScan :=
  if e.Valid k then do
    let formatK ← l1iGetFormatEntangled lineAddr (e.dest lineAddr k)
    let lower := e.entangledConf k < acc.minValue
    return {
      minFormat := if formatK < acc.minFormat then formatK else acc.minFormat
      numValid := acc.numValid + 1
      minValue := if lower then e.entangledConf k else acc.minValue
      minPos := if lower then k else acc.minPos }
  else .ok acc

/-- The pass over all slots, the new destination counted first. -/
def evictScan (lineAddr formatNew : Nat) : Except Fault EvictScan :=
  (List.finRange l1iMaxEntangledPerLine).foldlM (EvictScan.visit e lineAddr) {
    minFormat := formatNew
    numValid := 1
    minValue := l1iConfidenceCounterMaxValue + 1
    minPos := 0 }

/-- Re-encode every destination in the common format `minFormat`. -/
def EntangledEntry.reformat (lineAddr minFormat : Nat) : EntangledEntry :=
  { e with
    entangledAddr := fun k =>
      if e.Valid k then l1iCompressFormatEntangled (e.dest lineAddr k) minFormat
      else e.entangledAddr k
    format := minFormat }

/-- The `while (true)` loop: evict the destination of lowest confidence until
the rest and the new one fit the format they need, then reformat. An entry has
six slots, so `fuel = 7` passes always suffice (`evictLoop_spec`). -/
def evictLoop (lineAddr formatNew : Nat) : Nat → EntangledEntry → Except Fault EntangledEntry
  | 0, _ => .error .addEntangledLoop
  | fuel + 1, e => do
    let scan ← evictScan e lineAddr formatNew
    if scan.numValid > scan.minFormat then
      evictLoop lineAddr formatNew fuel (e.setConf scan.minPos 0)
    else
      return e.reformat lineAddr scan.minFormat

/-- The final loop: store the destination in the first slot without one. -/
def EntangledEntry.store (entangledAddr : Nat) : EntangledEntry :=
  match (List.finRange l1iMaxEntangledPerLine).find? fun k => !decide (e.Valid k) with
  | some k =>
    { e with
      entangledAddr := update e.entangledAddr k (l1iCompressFormatEntangled entangledAddr e.format)
      entangledConf := update e.entangledConf k l1iConfidenceCounterMaxValue }
  | none => e

/-- The part of `l1i_add_entangled_table` after the way is known: refresh the
destination if the way already names it, else make room and store it. -/
def EntangledEntry.addEntangled (lineAddr entangledAddr : Nat) : Except Fault EntangledEntry :=
  match (List.finRange l1iMaxEntangledPerLine).find? fun k =>
      decide (e.Valid k) && decide (e.dest lineAddr k = entangledAddr) with
  | some k => .ok (e.setConf k l1iConfidenceCounterMaxValue)
  | none => do
    let formatNew ← l1iGetFormatEntangled lineAddr entangledAddr
    let e ← evictLoop lineAddr formatNew (l1iMaxEntangledPerLine + 1) e
    return e.store entangledAddr

/-- One slot of `l1i_update_confidence_entangled_table`. -/
def EntangledEntry.updateConf (entangledAddr : Nat) (accessed : Bool) (e : EntangledEntry)
    (k : Slot) : EntangledEntry :=
  if e.Valid k ∧ l1iCompressFormatEntangled (e.entangledAddr k) e.format =
      l1iCompressFormatEntangled entangledAddr e.format then
    let e := if accessed ∧ e.entangledConf k < l1iConfidenceCounterMaxValue then
      e.setConf k (e.entangledConf k + 1) else e
    if ¬accessed ∧ e.entangledConf k > 0 then e.setConf k (e.entangledConf k - 1) else e
  else e

/-! ### Sets -/

def l1iHash : Nat :=
  lineAddr ^^^ (lineAddr >>> 2) ^^^ (lineAddr >>> 5)

def entangledSet : Nat := l1iHash lineAddr % l1iEtSets

/-- The 10-bit tag of a line. Different lines of a set may share it. -/
def entangledTag : Nat :=
  (l1iHash lineAddr >>> l1iEntangledTableIndexBits) &&& (2 ^ l1iTagBits - 1)

namespace EntangledSet

variable (s : EntangledSet)

def setWay (way : Nat) (e : EntangledEntry) : EntangledSet :=
  { s with ways := update s.ways way e }

/-- The first way with the tag, or `l1iEtWays`. -/
def findWay (tag : Nat) : Nat :=
  firstBelow l1iEtWays fun i => (s.ways i).tag = tag

/-- The search of `l1i_try_realocate_evicted_in_available_entangled_table` from
way `i` on, for a way without destinations, preferably one without a
basic-block size. The accumulator is `(free_way, free_with_size)`; the walk
ends at `way`, after fewer than `l1iEtWays` steps. -/
def findFreeWay (s : EntangledSet) (way : Nat) : Nat → Nat → Nat × Bool → Nat × Bool
  | 0, _, acc => acc
  | fuel + 1, i, acc =>
    if i = way then acc
    else if (s.ways i).destFree then
      if acc.1 = way then
        findFreeWay s way fuel ((i + 1) % l1iEtWays) (i, decide ((s.ways i).bbSize ≠ 0))
      else if acc.2 ∧ (s.ways i).bbSize = 0 then (i, false)
      else findFreeWay s way fuel ((i + 1) % l1iEtWays) acc
    else findFreeWay s way fuel ((i + 1) % l1iEtWays) acc

/-- `l1i_try_realocate_evicted_in_available_entangled_table`: before the way at
the replacement pointer is overwritten, copy it over a way with less
information. -/
def l1iTryRealocateEvicted : EntangledSet :=
  let way := s.fifo
  let destFreeWay := (s.ways way).destFree
  if destFreeWay ∧ (s.ways way).bbSize = 0 then s
  else
    let (freeWay, freeWithSize) := s.findFreeWay way l1iEtWays ((way + 1) % l1iEtWays) (way, false)
    if freeWay ≠ way ∧ (¬freeWithSize ∨ (freeWithSize ∧ ¬destFreeWay)) then
      s.setWay freeWay (s.ways way)
    else s

/-- The way of a tag, allocated at the replacement pointer when absent: the
common head of `l1i_add_entangled_table` and `l1i_add_bbsize_table`. -/
def findOrAllocWay (tag : Nat) : EntangledSet × Nat :=
  let way := s.findWay tag
  if way = l1iEtWays then
    let s := s.l1iTryRealocateEvicted
    let way := s.fifo
    ({ s.setWay way (.fresh tag) with fifo := (s.fifo + 1) % l1iEtWays }, way)
  else (s, way)

end EntangledSet

/-! ### The table -/

def l1iInitEntangledTable : EntangledTable :=
  fun _ => { ways := fun _ => .fresh 0, fifo := 0 }

def l1iGetWayEntangledTable : Nat :=
  (t (entangledSet lineAddr)).findWay (entangledTag lineAddr)

def l1iAddEntangledTable (lineAddr entangledAddr : Nat) :
    Except Fault EntangledTable := do
  let set := entangledSet lineAddr
  let (s, way) := (t set).findOrAllocWay (entangledTag lineAddr)
  let e ← (s.ways way).addEntangled lineAddr entangledAddr
  return update t set (s.setWay way e)

def l1iAddBbsizeTable (lineAddr bbSize : Nat) : Except Fault EntangledTable :=
  if bbSize ≤ l1iMergeBbsizeMaxValue then
    let set := entangledSet lineAddr
    let (s, way) := (t set).findOrAllocWay (entangledTag lineAddr)
    let e := s.ways way
    .ok (update t set (s.setWay way { e with bbSize := max e.bbSize bbSize }))
  else .error .addBbsizeTable

/-- `l1i_get_entangled_addr_entangled_table`: the destination in slot `k` (`0`
when there is none), with the set and way it was found in. -/
def l1iGetEntangledAddrEntangledTable (k : Slot) : Nat × Nat × Nat :=
  let set := entangledSet lineAddr
  let way := l1iGetWayEntangledTable t lineAddr
  let e := (t set).ways way
  (if way < l1iEtWays ∧ e.Valid k then e.dest lineAddr k else 0, set, way)

def l1iGetBbsizeEntangledTable : Nat :=
  let way := l1iGetWayEntangledTable t lineAddr
  if way < l1iEtWays then ((t (entangledSet lineAddr)).ways way).bbSize else 0

def l1iUpdateConfidenceEntangledTable (set way entangledAddr : Nat)
    (accessed : Bool) : EntangledTable :=
  if way < l1iEtWays then
    let e := (List.finRange l1iMaxEntangledPerLine).foldl
      (EntangledEntry.updateConf entangledAddr accessed) ((t set).ways way)
    update t set ((t set).setWay way e)
  else t

end Gem5.Eip
