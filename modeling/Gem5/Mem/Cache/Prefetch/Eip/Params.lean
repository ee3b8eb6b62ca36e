import Mathlib

/-!
# Gem5.Mem.Cache.Prefetch.Eip.Params

The sizes and widths of the entangling instruction prefetcher
(`src/mem/cache/prefetch/eip.hh`) and the assertions its functions make.

The `#define`s keep their names. They are reducible, so a table bound and its
value are interchangeable, and `simp` unfolds them.
-/

namespace Gem5.Eip

@[simp] abbrev maxNumSet : Nat := 64
@[simp] abbrev maxNumWay : Nat := 8
@[simp] abbrev log2BlockSize : Nat := 6

@[simp] abbrev l1iHistTableEntries : Nat := 32
@[simp] abbrev l1iHistTableMask : Nat := l1iHistTableEntries - 1
@[simp] abbrev l1iBbMergeEntries : Nat := 5
@[simp] abbrev l1iHistTagBits : Nat := 58
@[simp] abbrev l1iHistNumSearches : Nat := 24

@[simp] abbrev l1iMergeBbsizeMaxValue : Nat := 63

@[simp] abbrev l1iTimeDiffBits : Nat := 20
@[simp] abbrev l1iTimeDiffOverflow : Nat := 2 ^ l1iTimeDiffBits
@[simp] abbrev l1iTimeDiffMask : Nat := l1iTimeDiffOverflow - 1
@[simp] abbrev l1iTimeBits : Nat := 12
@[simp] abbrev l1iTimeOverflow : Nat := 2 ^ l1iTimeBits

@[simp] abbrev l1iEntangledNumFormats : Nat := 6
@[simp] abbrev l1iEtWays : Nat := 16
@[simp] abbrev l1iEntangledTableIndexBits : Nat := 8
@[simp] abbrev l1iEtSets : Nat := 2 ^ l1iEntangledTableIndexBits
@[simp] abbrev l1iMaxEntangledPerLine : Nat := l1iEntangledNumFormats

@[simp] abbrev l1iSetBits : Nat := 6
@[simp] abbrev l1iTimingMshrSize : Nat := 1024

@[simp] abbrev l1iTagBits : Nat := 10
@[simp] abbrev l1iConfidenceCounterMaxValue : Nat := 3
@[simp] abbrev l1iConfidenceCounterThreshold : Nat := 1

/-- `L1I_ENTANGLED_FORMATS`: the destination width of each compression format. -/
def l1iEntangledFormats : List Nat := [58, 28, 18, 13, 10, 8, 6]

/-- `L1I_ENTANGLED_FORMATS[format - 1]`, for `1 ≤ format`. -/
def formatBits (format : Nat) : Nat := l1iEntangledFormats.getD (format - 1) 0

/-- The assertions of the prefetcher. A function of the model that returns one
of them is a call on which the simulator aborts. -/
inductive Fault
  /-- `assert(false)` of `l1i_get_format_entangled`. -/
  | getFormatEntangled
  /-- `assert(bb_size <= L1I_MERGE_BBSIZE_MAX_VALUE)` of `l1i_add_bbsize_table`. -/
  | addBbsizeTable
  /-- The `while (true)` of `l1i_add_entangled_table` is not left. -/
  | addEntangledLoop
  /-- `assert(index < L1I_HIST_TABLE_ENTRIES)` of `l1i_add_bb_size_hist_table`. -/
  | addBbSizeHistTable
  /-- `assert(false)` of `l1i_find_bb_merge_hist_table`. -/
  | findBbMergeHistTable
  /-- The `while` of `l1i_add_hist_table` is not left. -/
  | addHistLoop
  /-- `assert(pos_hist < L1I_HIST_TABLE_ENTRIES)` of
  `l1i_get_src_entangled_hist_table`. -/
  | srcPosHist
  /-- `assert(tag)` of `l1i_get_src_entangled_hist_table`. -/
  | srcTag
  /-- `l1i_get_invalid_timing_mshr_entry`: it must return a free entry. -/
  | noFreeTimingMshr
  /-- `l1i_get_invalid_timing_cache_entry`: it must return a free entry. -/
  | noFreeTimingCache
  /-- `assert(index < L1I_TIMING_MSHR_SIZE)` of `l1i_invalid_timing_mshr_entry`. -/
  | invalidTimingMshr
  /-- `calculatePrefetch`: a cache miss on a line valid in the timing cache. -/
  | missInTimingCache
  /-- `calculatePrefetch`: a cache hit on a line absent from the timing cache. -/
  | hitNotInTimingCache
  /-- `assert(source_way < L1I_ET_WAYS)` of `calculatePrefetch`. -/
  | sourceWay
  /-- `assert(format >= num_entangled)` of `calculatePrefetch`. -/
  | formatNumEntangled
  /-- `assert(line_addr != src_entangled)` of `notifyFill`. -/
  | selfEntangled
  deriving Repr, DecidableEq

end Gem5.Eip
