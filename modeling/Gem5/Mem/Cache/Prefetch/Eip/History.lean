import Gem5.Mem.Cache.Prefetch.Eip.Entangled

/-!
# Gem5.Mem.Cache.Prefetch.Eip.History

The **history table** of the prefetcher: a circular buffer of the last 32 basic
block heads that were fetched.

An entry records when it was inserted only as the difference to the entry
before it, in 20 bits; longer gaps are bridged by filler entries of tag 0. A
squash clears the entries of squashed instructions and moves the head back.
Entries leaving the buffer move their basic-block size and their entangled pair
to the entangled table.

All cycle counts are those of `get_l1i_current_cycle()`. The clock does not run
backwards, so the unsigned difference to `l1i_hist_table_head_time` is the
natural-number one.
-/

namespace Gem5.Eip

open Function

/-- `l1i_hist_entry`. -/
structure HistEntry where
  tag : Nat
  timeDiff : Nat
  bbSize : Nat
  instrId : Nat
  entSrc : Nat
  format : Nat
  numDst : Nat
  deriving Repr, DecidableEq

/-- An entry as `l1i_init_hist_table` writes it. -/
def HistEntry.empty : HistEntry := ⟨0, 0, 0, 0, 0, 0, 0⟩

/-- `l1i_hist_table` with `l1i_hist_table_head` and `l1i_hist_table_head_time`. -/
structure HistTable where
  entries : Nat → HistEntry
  head : Nat
  headTime : Nat

def prevPos (i : Nat) : Nat := (i + l1iHistTableMask) % l1iHistTableEntries

def histTag (lineAddr : Nat) : Nat := lineAddr &&& (2 ^ l1iHistTagBits - 1)

def l1iInitHistTable (cycle : Nat) : HistTable :=
  { entries := fun _ => .empty, head := 0, headTime := cycle }

namespace HistTable

def set (h : HistTable) (i : Nat) (e : HistEntry) : HistTable :=
  { h with entries := update h.entries i e }

/-- Write an entry at the head and advance it; `time` is the new head time. -/
def push (h : HistTable) (e : HistEntry) (time : Nat) : HistTable :=
  { entries := update h.entries h.head e
    head := (h.head + 1) % l1iHistTableEntries
    headTime := time }

def last (h : HistTable) : Nat := prevPos h.head

end HistTable

/-! ### Lookup and basic-block sizes -/

/-- The backward walk of `l1i_find_hist_entry`, `n` entries from `i` on. -/
def findHistFrom (h : HistTable) (tag : Nat) : Nat → Nat → Nat
  | 0, _ => l1iHistTableEntries
  | n + 1, i => if (h.entries i).tag = tag then i else findHistFrom h tag n (prevPos i)

variable (h : HistTable)

def l1iFindHistEntry (lineAddr : Nat) : Nat :=
  findHistFrom h (histTag lineAddr) l1iHistTableEntries h.last

def l1iAddBbSizeHistTable (lineAddr bbSize : Nat) : Except Fault HistTable :=
  let index := l1iFindHistEntry h lineAddr
  if index < l1iHistTableEntries then
    .ok (h.set index { h.entries index with bbSize := bbSize &&& l1iMergeBbsizeMaxValue })
  else .error .addBbSizeHistTable

/-- The walk of `l1i_find_bb_merge_hist_table`: `n` entries left, `count` seen. -/
def findBbMergeFrom (h : HistTable) (tag : Nat) : Nat → Nat → Nat → Except Fault Nat
  | 0, _, _ => .error .findBbMergeHistTable
  | n + 1, count, i =>
    if count ≥ l1iBbMergeEntries then .ok 0
    else if tag > (h.entries i).tag ∧ tag - (h.entries i).tag ≤ (h.entries i).bbSize then
      .ok (tag - (h.entries i).tag)
    else findBbMergeFrom h tag n (count + 1) (prevPos i)

/-- `l1i_find_bb_merge_hist_table`: the distance to a recent basic block that
already covers the line, or `0`. -/
def l1iFindBbMergeHistTable (lineAddr : Nat) : Except Fault Nat :=
  findBbMergeFrom h (histTag lineAddr) l1iHistTableEntries 0 h.last

/-! ### Squashing -/

/-- The variables of the loop of `l1i_squash_hist_table`. -/
structure SquashScan where
  entries : Nat → HistEntry
  last : Nat
  timeToAdd : Nat
  foundSmaller : Bool
  newHead : Nat

/-- The entry a squash leaves behind: empty, its time difference kept only
beyond the newest surviving entry. -/
def HistEntry.squashed (e : HistEntry) (foundSmaller : Bool) : HistEntry :=
  { e with
    tag := 0
    timeDiff := if foundSmaller then e.timeDiff else 0
    bbSize := 0
    instrId := 0
    entSrc := 0 }

def HistEntry.cutBb (e : HistEntry) (lineAddr : Nat) : HistEntry :=
  if e.tag ≤ lineAddr ∧ e.tag + e.bbSize ≥ lineAddr then
    { e with bbSize := lineAddr - e.tag }
  else e

def SquashScan.visit (instrId lineAddr : Nat) (st : SquashScan) : SquashScan :=
  let e := st.entries st.last
  if e.instrId > instrId then
    { st with
      entries := update st.entries st.last (e.squashed st.foundSmaller)
      timeToAdd := if st.foundSmaller then st.timeToAdd else st.timeToAdd + e.timeDiff
      last := prevPos st.last }
  else if st.foundSmaller then
    { st with
      entries := update st.entries st.last (e.cutBb lineAddr)
      last := prevPos st.last }
  else
    { st with
      entries := update st.entries st.last
        { e.cutBb lineAddr with timeDiff := e.timeDiff + st.timeToAdd }
      foundSmaller := true
      newHead := st.last
      last := prevPos st.last }

def SquashScan.start : SquashScan :=
  { entries := h.entries, last := h.last, timeToAdd := 0, foundSmaller := false, newHead := h.last }

def squashScan (instrId lineAddr : Nat) : SquashScan :=
  (SquashScan.visit instrId lineAddr)^[l1iHistTableEntries] (SquashScan.start h)

def l1iSquashHistTable (instrId lineAddr : Nat) : HistTable :=
  { h with
    entries := (squashScan h instrId lineAddr).entries
    head := ((squashScan h instrId lineAddr).newHead + 1) % l1iHistTableEntries }

/-! ### Choosing a source -/

/-- The variables of the loop of `l1i_get_src_entangled_hist_table`. -/
structure SrcScan where
  timeI : Nat
  numSearched : Nat
  bestEntangled : Nat
  posBest : Nat
  formatBest : Nat
  found : Nat

/-- The body of the loop for a candidate entry `e` at `i` whose pair with the
line needs format `formatI`. The flag is set when the loop is left. -/
def SrcScan.consider (acc : SrcScan) (e : HistEntry) (i formatI : Nat) : SrcScan × Bool :=
  let newFormat := if e.numDst = 0 ∨ formatI < e.format then formatI else e.format
  let acc := { acc with numSearched := acc.numSearched + 1 }
  let take (acc : SrcScan) : SrcScan :=
    { acc with bestEntangled := e.tag, posBest := i, formatBest := newFormat }
  let acc := if acc.numSearched = 1 then take acc else acc
  -- A source with a free slot of the pair's own format ends the search at once.
  if e.format ≠ 0 ∧ e.numDst < newFormat ∧ formatI = e.format then (take acc, true)
  else
    let acc :=
      if e.format ≠ 0 then
        if e.numDst < newFormat ∧ acc.found < 2 then { take acc with found := 2 } else acc
      else if acc.found = 0 then { take acc with found := 1 } else acc
    (acc, decide (acc.numSearched = l1iHistNumSearches))

/-- The loop, from position `i` back to `first`. `none` is the early `return 0`
at an older entry of the same line. The walk is shorter than the buffer. -/
def srcWalk (h : HistTable) (tag latency first : Nat) :
    Nat → Nat → SrcScan → Except Fault (Option SrcScan)
  | 0, _, acc => .ok (some acc)
  | fuel + 1, i, acc =>
    if i = first then .ok (some acc)
    else
      let e := h.entries i
      if e.tag = tag then .ok none
      else if e.tag ≠ 0 ∧ acc.timeI ≥ latency then do
        let formatI ← l1iGetFormatEntangled e.tag tag
        let r := acc.consider e i formatI
        if r.2 then pure (some r.1) else
          srcWalk h tag latency first fuel (prevPos i) { r.1 with timeI := r.1.timeI + e.timeDiff }
      else
        srcWalk h tag latency first fuel (prevPos i) { acc with timeI := acc.timeI + e.timeDiff }

/-- `l1i_get_src_entangled_hist_table`: the source to entangle with the line
inserted at `posHist`, or `0`, and the table with the source's format and
destination count updated. -/
def l1iGetSrcEntangledHistTable (lineAddr posHist latency : Nat) : Except Fault (HistTable × Nat) :=
  let tag := histTag lineAddr
  if ¬posHist < l1iHistTableEntries then .error .srcPosHist
  else if tag = 0 then .error .srcTag
  else if (h.entries posHist).tag ≠ tag then .ok (h, 0)
  else do
    let scan ← srcWalk h tag latency h.last l1iHistTableEntries (prevPos posHist)
      { timeI := (h.entries posHist).timeDiff, numSearched := 0, bestEntangled := 0,
        posBest := 0, formatBest := 0, found := 0 }
    match scan with
    | none => return (h, 0)
    | some acc =>
      if acc.bestEntangled ≠ 0 then
        let e := h.entries acc.posBest
        return (h.set acc.posBest { e with format := acc.formatBest, numDst := e.numDst + 1 },
          acc.bestEntangled)
      else return (h, 0)

/-! ### Insertion -/

/-- `l1i_move_history_head_to_entangled`: what the entry about to be overwritten
leaves in the entangled table. -/
def l1iMoveHistoryHeadToEntangled (t : EntangledTable) :
    Except Fault EntangledTable := do
  let e := h.entries h.head
  let t ← if e.bbSize ≠ 0 then
      l1iAddBbsizeTable t e.tag (max (l1iGetBbsizeEntangledTable t e.tag) e.bbSize)
    else .ok t
  if e.entSrc ≠ 0 then l1iAddEntangledTable t e.entSrc e.tag else .ok t

def HistEntry.filler : HistEntry := { HistEntry.empty with timeDiff := l1iTimeDiffMask }

/-- The `while` of `l1i_add_hist_table`: insert fillers until the difference to
the current cycle fits. Every filler advances the head time, so `fuel` larger
than the difference is never exhausted (`addFillers_spec`). -/
def addFillers (cycle : Nat) :
    Nat → HistTable → EntangledTable → Except Fault (HistTable × EntangledTable)
  | 0, _, _ => .error .addHistLoop
  | fuel + 1, h, t =>
    if cycle - h.headTime ≥ l1iTimeDiffOverflow then do
      let t ← l1iMoveHistoryHeadToEntangled h t
      addFillers cycle fuel (h.push .filler (h.headTime + l1iTimeDiffMask)) t
    else .ok (h, t)

/-- `l1i_add_hist_table` at cycle `cycle`: the new tables and the position of
the entry. -/
def l1iAddHistTable (t : EntangledTable) (cycle lineAddr instrId format numDst : Nat) :
    Except Fault (HistTable × EntangledTable × Nat) := do
  let (h, t) ← addFillers cycle (cycle - h.headTime + 1) h t
  let t ← l1iMoveHistoryHeadToEntangled h t
  let e : HistEntry := {
    tag := histTag lineAddr
    timeDiff := (cycle - h.headTime) &&& l1iTimeDiffMask
    bbSize := 0
    instrId := instrId
    entSrc := 0
    format := format
    numDst := numDst }
  return (h.push e cycle, t, h.head)

end Gem5.Eip
