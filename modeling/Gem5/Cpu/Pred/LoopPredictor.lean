import Mathlib

/-!
# Gem5.Cpu.Pred.LoopPredictor

**The loop predictor of LTAGE.** An entry counts the iterations of one branch and predicts the one
that leaves the loop. With speculation a prediction steps the counter `currentIterSpec` of the entry
it finds, and `squash` writes the counter of its record back. No prediction saves a counter there:
what squashes leave is 0 in every entry that was found.
-/

namespace Gem5.Cpu.Pred

structure LoopPredictorParams where
  logSizeLoopPred : Nat
  loopTableConfidenceBits : Nat
  loopTableTagBits : Nat
  loopTableIterBits : Nat
  logLoopTableAssoc : Nat
  useDirectionBit : Bool
  useSpeculation : Bool
  useHashing : Bool

structure LoopEntry where
  numIter : Nat := 0
  currentIter : Nat := 0
  currentIterSpec : Nat := 0
  confidence : Nat := 0
  tag : Nat := 0
  dir : Bool := false

structure LoopPredictor where
  ltable : Nat → LoopEntry := fun _ => {}
  loopUseCounter : Int := -1

namespace LoopPredictor

/-- What is saved with a prediction; without a hit, `loopHit` is `-1` in the source. -/
structure BranchInfo where
  loopTag : Nat := 0
  currentIter : Nat := 0
  loopPred : Bool := false
  loopPredValid : Bool := false
  loopPredUsed : Bool := false
  loopIndex : Nat := 0
  loopIndexB : Nat := 0
  loopHit : Option Nat := some 0

def confidenceThreshold (p : LoopPredictorParams) : Nat :=
  (2 ^ p.loopTableConfidenceBits - 1) % 2 ^ 8

def loopTagMask (p : LoopPredictorParams) : Nat := (2 ^ p.loopTableTagBits - 1) % 2 ^ 16

def loopNumIterMask (p : LoopPredictorParams) : Nat := (2 ^ p.loopTableIterBits - 1) % 2 ^ 16

def loopSetMask (p : LoopPredictorParams) : Nat :=
  2 ^ (p.logSizeLoopPred - p.logLoopTableAssoc) - 1

def lindex (p : LoopPredictorParams) (pcIn instShiftAmt : Nat) : Nat :=
  let pc := pcIn >>> instShiftAmt
  let pc := if p.useHashing then pc ^^^ pcIn else pc
  (pc &&& loopSetMask p) <<< p.logLoopTableAssoc

def finallindex (p : LoopPredictorParams) (index lowPcBits way : Nat) : Nat :=
  (if p.useHashing then index ^^^ ((lowPcBits >>> way) <<< p.logLoopTableAssoc) else index) + way

def BranchInfo.entry (p : LoopPredictorParams) (bi : BranchInfo) (way : Nat) : Nat :=
  finallindex p bi.loopIndex bi.loopIndexB way

/-- The set and the tag of a branch, as `getLoop` records them before its search. -/
def locate (p : LoopPredictorParams) (pc instShiftAmt : Nat) (bi : BranchInfo) : BranchInfo :=
  let bi := { bi with loopHit := none, loopPredValid := false, loopIndex := lindex p pc instShiftAmt }
  if p.useHashing then
    let pcShift := p.logSizeLoopPred - p.logLoopTableAssoc
    { bi with
      loopIndexB := (pc >>> pcShift) &&& loopSetMask p
      loopTag := ((pc >>> pcShift) ^^^ (pc >>> (pcShift + p.loopTableTagBits))) &&& loopTagMask p }
  else
    let pcShift := instShiftAmt + p.logSizeLoopPred - p.logLoopTableAssoc
    { bi with loopTag := (pc >>> pcShift) &&& loopTagMask p }

def findWay (p : LoopPredictorParams) (ltable : Nat → LoopEntry) (bi : BranchInfo) : Option Nat :=
  (List.range (2 ^ p.logLoopTableAssoc)).find? fun i => (ltable (bi.entry p i)).tag == bi.loopTag

def getLoop (p : LoopPredictorParams) (ltable : Nat → LoopEntry) (pc : Nat) (bi : BranchInfo)
    (speculative : Bool) (instShiftAmt : Nat) : BranchInfo × Bool :=
  let bi := locate p pc instShiftAmt bi
  match findWay p ltable bi with
  | none => (bi, false)
  | some i =>
    let e := ltable (bi.entry p i)
    let iter := if speculative then e.currentIterSpec else e.currentIter
    ({ bi with loopHit := some i, loopPredValid := e.confidence == confidenceThreshold p },
      if iter + 1 == e.numIter then (if p.useDirectionBit then !e.dir else false)
      else if p.useDirectionBit then e.dir else true)

/-- The table with the speculative counter of a record's entry changed. -/
def setSpec (p : LoopPredictorParams) (s : LoopPredictor) (bi : BranchInfo)
    (f : LoopEntry → Nat) : LoopPredictor :=
  match bi.loopHit with
  | none => s
  | some way =>
    let e := s.ltable (bi.entry p way)
    { s with ltable := Function.update s.ltable (bi.entry p way) { e with currentIterSpec := f e } }

def specLoopUpdate (p : LoopPredictorParams) (s : LoopPredictor) (taken : Bool) (bi : BranchInfo) :
    LoopPredictor :=
  setSpec p s bi fun e =>
    if taken != e.dir then 0 else (e.currentIterSpec + 1) &&& loopNumIterMask p

def loopPredict (p : LoopPredictorParams) (s : LoopPredictor) (branchPc : Nat) (condBranch : Bool)
    (bi : BranchInfo) (prevPredTaken : Bool) (instShiftAmt : Nat) :
    LoopPredictor × BranchInfo × Bool :=
  if condBranch then
    let (bi, loopPred) := getLoop p s.ltable branchPc bi p.useSpeculation instShiftAmt
    let used := decide (0 ≤ s.loopUseCounter) && bi.loopPredValid
    let predTaken := if used then loopPred else prevPredTaken
    let bi := { bi with loopPred := loopPred, loopPredUsed := bi.loopPredUsed || used }
    (if p.useSpeculation then specLoopUpdate p s predTaken bi else s, bi, predTaken)
  else (s, bi, prevPredTaken)

/-- `squash`; `squashLoop` does the same. -/
def squash (p : LoopPredictorParams) (s : LoopPredictor) (bi : BranchInfo) : LoopPredictor :=
  setSpec p s bi fun _ => bi.currentIter

/-! ### Undoing speculative steps -/

/-- A prediction of a conditional branch. -/
structure Call where
  branchPc : Nat
  prevPredTaken : Bool
  instShiftAmt : Nat

def predict (p : LoopPredictorParams) (s : LoopPredictor) (c : Call) : LoopPredictor × BranchInfo :=
  let r := loopPredict p s c.branchPc true {} c.prevPredTaken c.instShiftAmt
  (r.1, r.2.1)

/-- Predictions one after the other, and then their squashes from the youngest back. -/
def predictThenSquash (p : LoopPredictorParams) (s : LoopPredictor) : List Call → LoopPredictor
  | [] => s
  | c :: cs =>
    let r := predict p s c
    squash p (predictThenSquash p r.1 cs) r.2

def found (p : LoopPredictorParams) (ltable : Nat → LoopEntry) (c : Call) : Option Nat :=
  let bi := locate p c.branchPc c.instShiftAmt {}
  (findWay p ltable bi).map (bi.entry p)

variable {p : LoopPredictorParams} {s : LoopPredictor}

theorem found_congr {t t' : Nat → LoopEntry} (h : ∀ i, (t i).tag = (t' i).tag) (c : Call) :
    found p t c = found p t' c := by
  simp only [found, findWay, h]

theorem setSpec_ltable (bi : BranchInfo) (f : LoopEntry → Nat) (i : Nat) :
    (setSpec p s bi f).ltable i = if bi.loopHit.map (bi.entry p) = some i then
      { s.ltable i with currentIterSpec := f (s.ltable i) } else s.ltable i := by
  cases h : bi.loopHit with
  | none => simp [setSpec, h]
  | some way =>
    simp only [setSpec, h, Function.update_apply, Option.map_some, Option.some.injEq]
    by_cases hi : i = bi.entry p way
    · simp [hi]
    · simp [hi, Ne.symm hi]

theorem locate_fresh (pc n : Nat) :
    (locate p pc n {}).currentIter = 0 ∧ (locate p pc n {}).loopHit = none := by
  unfold locate
  split <;> exact ⟨rfl, rfl⟩

/-- **The record of a prediction** has the entry found, and no counter of it. -/
theorem predict_record (c : Call) : (predict p s c).2.currentIter = 0 ∧
    (predict p s c).2.loopHit.map ((predict p s c).2.entry p) = found p s.ltable c := by
  simp only [predict, loopPredict, getLoop, found, if_true]
  split
  next h => simp [h, locate_fresh]
  next way h => simp [h, locate_fresh, BranchInfo.entry]

theorem predict_ltable (c : Call) (i : Nat) : ((predict p s c).1.ltable i).tag = (s.ltable i).tag ∧
    (found p s.ltable c ≠ some i → (predict p s c).1.ltable i = s.ltable i) := by
  rw [← (predict_record c).2]
  simp only [predict, loopPredict, if_true]
  split
  · simp only [specLoopUpdate, setSpec_ltable]
    split <;> simp_all
  · exact ⟨rfl, fun _ => rfl⟩

/-- **What undoing leaves**: 0 in every entry that one of the predictions found. -/
theorem currentIterSpec_predictThenSquash (i : Nat) : ∀ (cs : List Call) (s : LoopPredictor),
    ((predictThenSquash p s cs).ltable i).currentIterSpec =
      if ∃ c ∈ cs, found p s.ltable c = some i then 0 else (s.ltable i).currentIterSpec
  | [], s => by simp [predictThenSquash]
  | c :: cs, s => by
    have hta (i : Nat) := (predict_ltable (p := p) (s := s) c i).1
    have hke := (predict_ltable (p := p) (s := s) c i).2
    obtain ⟨hcu, hhi⟩ := predict_record (p := p) (s := s) c
    simp only [predictThenSquash, squash, setSpec_ltable, hcu, hhi,
      apply_ite LoopEntry.currentIterSpec, currentIterSpec_predictThenSquash i cs, found_congr hta,
      List.mem_cons, exists_eq_or_imp]
    by_cases hc : found p s.ltable c = some i
    · simp [hc]
    · simp [hc, hke]

/-- **Squashes restore the counters exactly where they were 0.** -/
theorem undone_iff (p : LoopPredictorParams) (s : LoopPredictor) (cs : List Call) :
    (∀ i, ((predictThenSquash p s cs).ltable i).currentIterSpec = (s.ltable i).currentIterSpec) ↔
      ∀ c ∈ cs, ∀ i, found p s.ltable c = some i → (s.ltable i).currentIterSpec = 0 := by
  simp only [currentIterSpec_predictThenSquash]
  constructor
  · intro h c hc i hi
    rw [← h i, if_pos ⟨c, hc, hi⟩]
  · intro h i
    split
    next hc =>
      obtain ⟨c, hc, hi⟩ := hc
      exact (h c hc i hi).symm
    next => rfl

/-- **The second iteration of a loop is squashed**, and the first one is forgotten. -/
theorem squash_forgets :
    let p : LoopPredictorParams := ⟨2, 2, 4, 4, 1, false, true, false⟩
    let c : Call := ⟨0, false, 0⟩
    let s := (predict p {} c).1
    (s.ltable 0).currentIterSpec = 1 ∧
      ((predictThenSquash p s [c]).ltable 0).currentIterSpec = 0 := by
  decide +kernel

end LoopPredictor

end Gem5.Cpu.Pred
