import Gem5.Cpu.Pred.BPredUnit

/-!
# Gem5.Cpu.Pred.Tage

**The TAGE direction predictor.** A bimodal table backed by tagged tables of growing history
lengths. A prediction hashes the branch with the global history of directions and the path
history; the directions predicted are shifted into the histories at once, and taken out again
when predictions are squashed.

* The global history is a table of directions written downwards from `ptGhist`. What indexes the
  tables is not the history itself but foldings of it (`FoldedHistory`), kept up to date
  incrementally.
* What one prediction changed is saved in its `BranchInfo`: the position in the history, the
  foldings before the new direction, and the entry of the bimodal table.
* Banks are numbered from 1 as in the source. `int`s are 32-bit patterns. The numbers drawn at
  commit are a stream that is part of the state.
-/

namespace Gem5.Cpu.Pred

open Gem5.Base (Addr)

/-! ### Parameters -/

structure TageBank where
  histLength : Nat
  logTagTableSize : Nat
  tagTableTagWidth : Nat
  noSkip : Bool

structure TageParams where
  logRatioBiModalHystEntries : Nat
  tagTableCounterBits : Nat
  tagTableUBits : Nat
  histBufferSize : Nat
  maxHist : Nat
  pathHistBits : Nat
  logBimodalTableSize : Nat
  /-- The tagged tables, from bank 1. -/
  banks : List TageBank
  logUResetPeriod : Nat
  initialTCounterValue : Nat
  useAltOnNaBits : Nat
  maxNumAlloc : Nat
  speculativeHistUpdate : Bool
  instShiftAmt : Nat

namespace TageParams

def nHistoryTables (p : TageParams) : Nat := p.banks.length

def bank (p : TageParams) (i : Nat) : TageBank := p.banks.getD (i - 1) ⟨0, 0, 0, true⟩

end TageParams

/-! ### Histories -/

/-- A history folded into `compLength` bits. -/
structure FoldedHistory where
  comp : Nat
  compLength : Nat
  origLength : Nat
  outpoint : Nat
deriving DecidableEq, Repr

namespace FoldedHistory

def init (originalLength compressedLength : Nat) : FoldedHistory where
  comp := 0
  compLength := compressedLength
  origLength := originalLength
  outpoint := originalLength % compressedLength

def update (f : FoldedHistory) (h : Nat → Bool) : FoldedHistory :=
  let comp := (f.comp <<< 1) % 2 ^ 32 ||| (h 0).toNat
  let comp := comp ^^^ ((h f.origLength).toNat <<< f.outpoint)
  let comp := comp ^^^ (comp >>> f.compLength)
  { f with comp := comp &&& (2 ^ f.compLength - 1) }

/-- Go back to `comp`, and update from there. -/
def redo (h : Nat → Bool) (f : FoldedHistory) (comp : Nat) : FoldedHistory :=
  { f with comp := comp }.update h

end FoldedHistory

structure ThreadHistory where
  pathHist : Nat
  globalHistory : Nat → Bool
  ptGhist : Nat
  /-- One for each bank, from bank 1; and so are those of the tags. -/
  computeIndices : List FoldedHistory
  computeTags0 : List FoldedHistory
  computeTags1 : List FoldedHistory

/-- What is saved with a prediction. -/
structure BranchInfo where
  pathHist : Nat
  ptGhist : Nat
  hitBank : Nat
  hitBankIndex : Nat
  altBank : Nat
  altBankIndex : Nat
  bimodalIndex : Nat
  tagePred : Bool
  altTaken : Bool
  condBranch : Bool
  longestMatchPred : Bool
  pseudoNewAlloc : Bool
  biModePred : Bool
  biModeHyst : Bool
  updatedBiMode : Bool
  branchPC : Addr
  tableIndices : Nat → Nat
  tableTags : Nat → Nat
  ci : List Nat
  ct0 : List Nat
  ct1 : List Nat

def BranchInfo.new : BranchInfo where
  pathHist := 0
  ptGhist := 0
  hitBank := 0
  hitBankIndex := 0
  altBank := 0
  altBankIndex := 0
  bimodalIndex := 0
  tagePred := false
  altTaken := false
  condBranch := false
  longestMatchPred := false
  pseudoNewAlloc := false
  biModePred := false
  biModeHyst := false
  updatedBiMode := false
  branchPC := 0
  tableIndices _ := 0
  tableTags _ := 0
  ci := []
  ct0 := []
  ct1 := []

namespace ThreadHistory

variable (p : TageParams) (t : ThreadHistory)

def gHist : Nat → Bool := fun j => t.globalHistory (t.ptGhist + j)

def init : ThreadHistory where
  pathHist := 0
  globalHistory _ := false
  ptGhist := 0
  computeIndices := p.banks.map fun b => .init b.histLength b.logTagTableSize
  computeTags0 := p.banks.map fun b => .init b.histLength b.tagTableTagWidth
  computeTags1 := p.banks.map fun b => .init b.histLength (b.tagTableTagWidth - 1)

/-- Shift a direction in. At the beginning of the table the last `maxHist` directions are first
copied to its end. -/
def updateGHist (dir : Bool) : ThreadHistory :=
  let (tab, pt) :=
    if t.ptGhist = 0 then
      (fun i =>
        if p.histBufferSize - p.maxHist ≤ i ∧ i < p.histBufferSize then
          t.globalHistory (i - (p.histBufferSize - p.maxHist))
        else t.globalHistory i,
        p.histBufferSize - p.maxHist)
    else (t.globalHistory, t.ptGhist)
  { t with globalHistory := Function.update tab (pt - 1) dir, ptGhist := pt - 1 }

def setGHist (dir : Bool) : ThreadHistory :=
  { t with globalHistory := Function.update t.globalHistory t.ptGhist dir }

def updatePath (branchPC : Addr) : ThreadHistory :=
  let pathbit := (branchPC.toNat >>> p.instShiftAmt) % 2
  { t with pathHist := (t.pathHist <<< 1 + pathbit) % 2 ^ 32 &&& (2 ^ p.pathHistBits - 1) }

def updateFolded : ThreadHistory :=
  { t with
    computeIndices := t.computeIndices.map (·.update t.gHist)
    computeTags0 := t.computeTags0.map (·.update t.gHist)
    computeTags1 := t.computeTags1.map (·.update t.gHist) }

/-- The foldings go back to those saved, and take the direction in front in. -/
def redoFolded (bi : BranchInfo) : ThreadHistory :=
  { t with
    computeIndices := t.computeIndices.zipWith (FoldedHistory.redo t.gHist) bi.ci
    computeTags0 := t.computeTags0.zipWith (FoldedHistory.redo t.gHist) bi.ct0
    computeTags1 := t.computeTags1.zipWith (FoldedHistory.redo t.gHist) bi.ct1 }

/-- The part of `updateHistories` that shifts the histories; `bi` saves what it needs to undo
that. -/
def shift (branchPC : Addr) (taken speculative : Bool)
    (bi : BranchInfo) : BranchInfo × ThreadHistory :=
  let t := (t.updateGHist p taken).updatePath p branchPC
  let bi :=
    if speculative then
      { bi with
        ptGhist := t.ptGhist
        pathHist := t.pathHist
        ci := t.computeIndices.map (·.comp)
        ct0 := t.computeTags0.map (·.comp)
        ct1 := t.computeTags1.map (·.comp) }
    else bi
  (bi, t.updateFolded)

/-- The histories after a branch without a target is not taken after all. -/
def btbUpdate (bi : BranchInfo) : ThreadHistory :=
  (t.setGHist false).redoFolded bi

/-- The histories go back to a prediction, with the direction `taken`. -/
def squash (taken : Bool) (bi : BranchInfo) : ThreadHistory :=
  ({ t with pathHist := bi.pathHist, ptGhist := bi.ptGhist }.setGHist taken).redoFolded bi

end ThreadHistory

/-! ### Tables -/

structure TageEntry where
  ctr : Int
  tag : Nat
  u : Nat
deriving DecidableEq, Repr

structure Tage where
  history : ThreadHistory
  btablePrediction : Nat → Bool
  btableHysteresis : Nat → Bool
  gtable : Nat → Nat → TageEntry
  /-- The base implementation has one counter. -/
  useAltPredForNewlyAllocated : Int
  tCounter : Nat
  /-- What the random number generator gives. -/
  random : Nat → Nat
  draws : Nat

/-- `a >> k` of an `int`. -/
def sar32 (a k : Nat) : Nat := ((BitVec.ofNat 32 a).sshiftRight k).toNat

/-- An up-down saturating counter. -/
def ctrUpdate (ctr : Int) (taken : Bool) (nbits : Nat) : Int :=
  if taken then if ctr < 2 ^ (nbits - 1) - 1 then ctr + 1 else ctr
  else if -(2 ^ (nbits - 1)) < ctr then ctr - 1 else ctr

def unsignedCtrUpdate (ctr : Nat) (up : Bool) (nbits : Nat) : Nat :=
  if up then if ctr < 2 ^ nbits - 1 then ctr + 1 else ctr else ctr - 1

namespace Tage

variable (p : TageParams)

/-- The tables after `init`. -/
def init (random : Nat → Nat) : Tage where
  history := .init p
  btablePrediction _ := false
  btableHysteresis _ := true
  gtable _ _ := ⟨0, 0, 0⟩
  useAltPredForNewlyAllocated := 0
  tCounter := p.initialTCounterValue
  random := random
  draws := 0

/-! ### Predicting -/

def bindex (pc : Addr) : Nat :=
  (pc.toNat >>> p.instShiftAmt) &&& (2 ^ p.logBimodalTableSize - 1)

/-- The hash of the path history. -/
def F (A size bank : Nat) : Nat :=
  let log := (p.bank bank).logTagTableSize
  let A := A &&& (2 ^ size - 1)
  let A1 := A &&& (2 ^ log - 1)
  let A2 := sar32 A log
  let A2 := (((A2 <<< bank) &&& (2 ^ log - 1)) + sar32 A2 (log - bank)) % 2 ^ 32
  let A := A1 ^^^ A2
  (((A <<< bank) &&& (2 ^ log - 1)) + sar32 A (log - bank)) % 2 ^ 32

def compOf (folded : List FoldedHistory) (bank : Nat) : Nat :=
  ((folded[bank - 1]?).map (·.comp)).getD 0

variable (t : Tage)

def gindex (pc : Addr) (bank : Nat) : Nat :=
  let b := p.bank bank
  let hlen := if b.histLength > p.pathHistBits then p.pathHistBits else b.histLength
  let shiftedPc := (pc.toNat >>> p.instShiftAmt) % 2 ^ 32
  let dist := (b.logTagTableSize - bank) + (bank - b.logTagTableSize)
  (shiftedPc ^^^ (shiftedPc >>> (dist + 1)) ^^^ compOf t.history.computeIndices bank ^^^
    F p t.history.pathHist hlen bank) &&& (2 ^ b.logTagTableSize - 1)

def gtag (pc : Addr) (bank : Nat) : Nat :=
  (((pc.toNat >>> p.instShiftAmt) ^^^ compOf t.history.computeTags0 bank ^^^
    (compOf t.history.computeTags1 bank <<< 1)) &&&
      (2 ^ (p.bank bank).tagTableTagWidth - 1)) % 2 ^ 16

variable (bi : BranchInfo) (taken : Bool) (branchPC : Addr)

def calculateIndicesAndTags (bi : BranchInfo) : BranchInfo :=
  { bi with tableIndices := t.gindex p branchPC, tableTags := t.gtag p branchPC }

/-- The matching bank with the longest history among the first `i`; 0 if there is none. -/
def matchingBank (p : TageParams) (t : Tage) (bi : BranchInfo) : Nat → Nat
  | 0 => 0
  | i + 1 =>
    if (p.bank (i + 1)).noSkip &&
        (t.gtable (i + 1) (bi.tableIndices (i + 1))).tag == bi.tableTags (i + 1) then i + 1
    else matchingBank p t bi i

def getBimodePred : Bool := t.btablePrediction bi.bimodalIndex

def findBanks : BranchInfo :=
  let hitBank := t.matchingBank p bi p.nHistoryTables
  let altBank := t.matchingBank p bi (hitBank - 1)
  { bi with
    hitBank := hitBank
    hitBankIndex := if 0 < hitBank then bi.tableIndices hitBank else bi.hitBankIndex
    altBank := altBank
    altBankIndex := if 0 < altBank then bi.tableIndices altBank else bi.altBankIndex }

/-- The prediction and the alternate prediction, from the banks that hit. -/
def decidePred : BranchInfo :=
  if 0 < bi.hitBank then
    let ctr := (t.gtable bi.hitBank (bi.tableIndices bi.hitBank)).ctr
    let altTaken :=
      if 0 < bi.altBank then
        decide (0 ≤ (t.gtable bi.altBank (bi.tableIndices bi.altBank)).ctr)
      else t.getBimodePred bi
    let longestMatchPred := decide (0 ≤ ctr)
    let pseudoNewAlloc := decide ((2 * ctr + 1).natAbs ≤ 1)
    { bi with
      altTaken := altTaken
      longestMatchPred := longestMatchPred
      pseudoNewAlloc := pseudoNewAlloc
      tagePred :=
        if t.useAltPredForNewlyAllocated < 0 || !pseudoNewAlloc then longestMatchPred
        else altTaken }
  else
    let altTaken := t.getBimodePred bi
    { bi with altTaken := altTaken, tagePred := altTaken, longestMatchPred := altTaken }

def tagePredict (condBranch : Bool) (bi : BranchInfo) : Bool × BranchInfo :=
  if condBranch then
    let bi := t.calculateIndicesAndTags p branchPC bi
    let bi := t.findBanks p { bi with bimodalIndex := bindex p branchPC }
    let bi := t.decidePred bi
    (bi.tagePred, { bi with branchPC := branchPC, condBranch := true })
  else (true, { bi with branchPC := branchPC, condBranch := false })

/-! ### The bimodal table -/

def hystIndex : Nat :=
  bi.bimodalIndex >>> p.logRatioBiModalHystEntries

def setBimodal (pred hyst : Bool) : Tage :=
  { t with
    btablePrediction := Function.update t.btablePrediction bi.bimodalIndex pred
    btableHysteresis := Function.update t.btableHysteresis (hystIndex p bi) hyst }

def baseUpdate (bi : BranchInfo) : BranchInfo × Tage :=
  let pred := t.btablePrediction bi.bimodalIndex
  let hyst := t.btableHysteresis (hystIndex p bi)
  let inter := 2 * pred.toNat + hyst.toNat
  let inter := if taken then if inter < 3 then inter + 1 else inter else inter - 1
  (if p.speculativeHistUpdate then
      { bi with updatedBiMode := true, biModePred := pred, biModeHyst := hyst }
    else bi,
    t.setBimodal p bi (inter / 2 == 1) (inter % 2 == 1))

/-- `baseUpdate`, if the bimodal table is the provider or backs a provider not yet known to be
useful. -/
def updateBase (bi : BranchInfo) : BranchInfo × Tage :=
  if 0 < bi.hitBank then
    if (t.gtable bi.hitBank bi.hitBankIndex).u = 0 ∧ bi.altBank = 0 then t.baseUpdate p taken bi
    else (bi, t)
  else t.baseUpdate p taken bi

def updateHistories (taken : Bool) (bi : BranchInfo) (speculative : Bool) : BranchInfo × Tage :=
  if speculative != p.speculativeHistUpdate then (bi, t)
  else
    let (bi, history) := t.history.shift p branchPC taken speculative bi
    { t with history := history }.updateBase p taken bi

/-! ### Undoing -/

def btbUpdate : Tage :=
  if p.speculativeHistUpdate then { t with history := t.history.btbUpdate bi } else t

/-- What a squashed prediction did to the bimodal table is undone. -/
def squash : Tage :=
  if bi.updatedBiMode then t.setBimodal p bi bi.biModePred bi.biModeHyst else t

/-- The `squash` with a direction: the histories go back to a prediction. -/
def squashTo (bi : BranchInfo) : Tage :=
  if p.speculativeHistUpdate then { t with history := t.history.squash taken bi } else t

/-! ### Committing -/

def setEntry (bank index : Nat) (f : TageEntry → TageEntry) : Tage :=
  { t with gtable := fun i j => if i = bank ∧ j = index then f (t.gtable i j) else t.gtable i j }

def allocate (p : TageParams) (taken : Bool) (bi : BranchInfo) :
    List Nat → Nat → Tage → Tage
  | [], _, t => t
  | i :: is, numAllocated, t =>
    if (t.gtable i (bi.tableIndices i)).u = 0 then
      let t := t.setEntry i (bi.tableIndices i) fun e =>
        { e with tag := bi.tableTags i, ctr := if taken then 0 else -1 }
      if numAllocated + 1 = p.maxNumAlloc then t
      else allocate p taken bi is (numAllocated + 1) t
    else allocate p taken bi is numAllocated t

/-- The periodic reset of the `u` counters. -/
def handleUReset : Tage :=
  if t.tCounter &&& (2 ^ p.logUResetPeriod - 1) = 0 then
    { t with
      gtable := fun i j =>
        if 1 ≤ i ∧ i ≤ p.nHistoryTables ∧ j < 2 ^ (p.bank i).logTagTableSize then
          { t.gtable i j with u := (t.gtable i j).u >>> 1 }
        else t.gtable i j }
  else t

/-- Entries are allocated in banks with longer histories, one of them freed if none is free. -/
def handleAlloc (bi : BranchInfo) (nrand : Nat) : Tage :=
  let longer := List.range' (bi.hitBank + 1) (p.nHistoryTables - bi.hitBank)
  let min := longer.reverse.foldl (fun min i => Nat.min (t.gtable i (bi.tableIndices i)).u min) 1
  let Y := nrand &&& (2 ^ (p.nHistoryTables - bi.hitBank - 1) - 1)
  let X := bi.hitBank + 1 + (if Y &&& 1 ≠ 0 then if Y &&& 2 ≠ 0 then 2 else 1 else 0)
  let t := if 0 < min then t.setEntry X (bi.tableIndices X) ({ · with u := 0 }) else t
  t.allocate p taken bi (List.range' X (p.nHistoryTables + 1 - X)) 0

def handleAllocAndUReset (alloc taken : Bool) (bi : BranchInfo) (nrand : Nat) : Tage :=
  let t := if alloc then t.handleAlloc p taken bi nrand else t
  { t with tCounter := t.tCounter + 1 }.handleUReset p

/-- The counters of the provider, of the alternate bank and of usefulness. -/
def handleTAGEUpdate (bi : BranchInfo) : BranchInfo × Tage :=
  if 0 < bi.hitBank then
    let t := t.setEntry bi.hitBank bi.hitBankIndex fun e =>
      { e with ctr := ctrUpdate e.ctr taken p.tagTableCounterBits }
    let (bi, t) :=
      if (t.gtable bi.hitBank bi.hitBankIndex).u = 0 then
        if 0 < bi.altBank then
          (bi, t.setEntry bi.altBank bi.altBankIndex fun e =>
            { e with ctr := ctrUpdate e.ctr taken p.tagTableCounterBits })
        else if !p.speculativeHistUpdate then t.baseUpdate p taken bi
        else (bi, t)
      else (bi, t)
    if bi.tagePred != bi.altTaken then
      (bi, t.setEntry bi.hitBank bi.hitBankIndex fun e =>
        { e with u := unsignedCtrUpdate e.u (bi.tagePred == taken) p.tagTableUBits })
    else (bi, t)
  else if !p.speculativeHistUpdate then t.baseUpdate p taken bi
  else (bi, t)

def condBranchUpdate (bi : BranchInfo) (nrand : Nat) : BranchInfo × Tage :=
  let alloc := bi.tagePred != taken && decide (bi.hitBank < p.nHistoryTables)
  let pseudo := decide (0 < bi.hitBank) && bi.pseudoNewAlloc
  let alloc := alloc && !(pseudo && bi.longestMatchPred == taken)
  let t :=
    if pseudo && bi.longestMatchPred != bi.altTaken then
      { t with useAltPredForNewlyAllocated :=
          ctrUpdate t.useAltPredForNewlyAllocated (bi.altTaken == taken) p.useAltOnNaBits }
    else t
  (t.handleAllocAndUReset p alloc taken bi nrand).handleTAGEUpdate p taken bi

def commit (taken : Bool) (bi : BranchInfo) : BranchInfo × Tage :=
  let nrand := t.random t.draws &&& 3
  let t := { t with draws := t.draws + 1 }
  let (bi, t) := if bi.condBranch then t.condBranchUpdate p taken bi nrand else (bi, t)
  t.updateHistories p branchPC taken bi false

end Tage

/-- **TAGE**, as the branch prediction unit uses it. -/
def tage (p : TageParams) : DirectionPredictor Tage BranchInfo where
  lookup t branchPC :=
    let (taken, bi) := t.tagePredict p branchPC true .new
    (taken, t.updateHistories p branchPC taken bi true)
  uncondBranch t branchPC :=
    t.updateHistories p branchPC true (t.tagePredict p branchPC false .new).2 true
  btbUpdate t _ bi := (bi, t.btbUpdate p bi)
  squash t bi := t.squash p bi
  update t branchPC taken bi squashed _ _ :=
    if squashed then (bi, t.squashTo p taken bi) else t.commit p branchPC taken bi

end Gem5.Cpu.Pred
