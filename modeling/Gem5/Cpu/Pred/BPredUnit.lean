import Gem5.Cpu.O3.Fetch

/-!
# Gem5.Cpu.Pred.BPredUnit

**The branch prediction unit.** `predict` asks a direction predictor, the return address
stack, the branch target buffer and the indirect predictor, and keeps a record of what it
did at the front of `predHist`. `squash` takes records off the front and undoes them,
`correct` (the `squash` with an outcome) also repairs the record of the branch that was
mispredicted, and `update` retires records from the back.

* The direction predictor is a parameter (`DirectionPredictor`): the unit reaches it only
  through the virtual functions `lookup`, `uncondBranch`, `btbUpdate`, `squash` and
  `update`.
* What the target buffer and the indirect predictor answer is part of the call.
* The indirect predictor's own history is left out.
-/

namespace Gem5.Cpu.Pred

open List
open Gem5.Base (Addr)
open Gem5.Cpu.O3 (PCState)

/-! ### The return address stack -/

structure ReturnAddrStack where
  addrStack : List PCState
  usedEntries : Nat
  tos : Nat
deriving DecidableEq

namespace ReturnAddrStack

variable (r : ReturnAddrStack)

def numEntries : Nat := r.addrStack.length

/-- A stack after `reset`. -/
def init (numEntries : Nat) : ReturnAddrStack :=
  { addrStack := List.replicate numEntries .zero, usedEntries := 0, tos := 0 }

def incrTos (numEntries tos : Nat) : Nat := if tos + 1 = numEntries then 0 else tos + 1

def decrTos (numEntries tos : Nat) : Nat := if tos = 0 then numEntries - 1 else tos - 1

def top : PCState := r.addrStack.getD r.tos .zero

def topIdx : Nat := r.tos

def countUp : Nat :=
  if r.usedEntries ≠ r.numEntries then r.usedEntries + 1 else r.usedEntries

def push (returnAddr : PCState) : ReturnAddrStack :=
  let tos := incrTos r.numEntries r.tos
  { addrStack := r.addrStack.set tos returnAddr, usedEntries := r.countUp, tos := tos }

def pop : ReturnAddrStack :=
  { r with
    usedEntries := if 0 < r.usedEntries then r.usedEntries - 1 else r.usedEntries
    tos := decrTos r.numEntries r.tos }

def restore (topEntryIdx : Nat) (restored : PCState) : ReturnAddrStack :=
  { addrStack := r.addrStack.set topEntryIdx restored, usedEntries := r.countUp, tos := topEntryIdx }

def empty : Bool := r.usedEntries == 0

def full : Bool := r.usedEntries == r.numEntries

end ReturnAddrStack

/-! ### The state -/

/-- What the unit asks of an instruction. -/
structure StaticInst where
  isUncondCtrl : Bool
  isCall : Bool
  isReturn : Bool
  isDirectCtrl : Bool
  advancePC : PCState → PCState
  buildRetPC : PCState → PCState → PCState

/-- The virtual functions of a direction predictor with state `T`. `H` is what the unit
keeps for it with each prediction, its `bp_history`. -/
structure DirectionPredictor (T H : Type) where
  lookup : T → Addr → Bool × H × T
  uncondBranch : T → Addr → H × T
  btbUpdate : T → Addr → H → H × T
  squash : T → H → T
  /-- `update pc taken history squashed inst corrTarget`. -/
  update : T → Addr → Bool → H → Bool → StaticInst → Addr → H × T

structure PredictorHistory (H : Type) where
  seqNum : Nat
  pc : Addr
  bpHistory : H
  rasTarget : PCState
  rasIndex : Nat
  predTaken : Bool
  usedRAS : Bool
  pushedRAS : Bool
  wasCall : Bool
  wasReturn : Bool
  wasIndirect : Bool
  wasBTBMiss : Bool
  target : Addr
  inst : StaticInst

def PredictorHistory.new {H : Type} (seqNum : Nat) (instPC : Addr) (predTaken : Bool)
    (bpHistory : H) (inst : StaticInst) : PredictorHistory H :=
  { seqNum := seqNum, pc := instPC, bpHistory := bpHistory, rasTarget := .zero, rasIndex := 0
    predTaken := predTaken, usedRAS := false, pushedRAS := false, wasCall := false
    wasReturn := false, wasIndirect := false, wasBTBMiss := false, target := -1, inst := inst }

structure BPredUnit (T H : Type) where
  direction : T
  ras : ReturnAddrStack
  /-- Youngest first. -/
  predHist : List (PredictorHistory H)
  /-- The record retired last. -/
  prevHist : Option (PredictorHistory H)

inductive BPredFault
  /-- The front record is not that of the mispredicted branch. -/
  | frontNotSquashed
deriving DecidableEq, Repr

/-- One call of `predict`, with what the tables answer. -/
structure Prediction where
  inst : StaticInst
  seqNum : Nat
  pc : PCState
  /-- The target in the branch target buffer, if it has a valid entry. -/
  btb : Option PCState
  /-- The target the indirect predictor finds. -/
  indirect : Option PCState

/-- Where `predict` has got to. -/
structure Predicting (T H : Type) where
  predTaken : Bool
  target : PCState
  record : PredictorHistory H
  direction : T
  ras : ReturnAddrStack

variable {T H : Type}

/-! ### Predicting -/

namespace Predicting

variable (d : DirectionPredictor T H) (p : Prediction) (r : Predicting T H)

def useRAS : Predicting T H :=
  { r with
    target := p.inst.buildRetPC p.pc r.ras.top
    ras := r.ras.pop
    record := { r.record with
      wasReturn := true, usedRAS := true, rasIndex := r.ras.topIdx, rasTarget := r.ras.top } }

def pushRAS : Predicting T H :=
  if p.inst.isCall then
    { r with
      ras := r.ras.push p.pc
      record := { r.record with pushedRAS := true, wasCall := true } }
  else r

def popCall : Predicting T H :=
  if p.inst.isCall && !p.inst.isUncondCtrl then
    { r with ras := r.ras.pop, record := { r.record with pushedRAS := false } }
  else r

/-- The branch target buffer has no entry: the direction is altered, and the direction
predictor is told so unless the branch is a call. -/
def missBTB : Predicting T H :=
  let record := { r.record with predTaken := false, wasBTBMiss := true }
  if !p.inst.isCall && !p.inst.isReturn then
    let (bpHistory, direction) := d.btbUpdate r.direction p.pc.pc record.bpHistory
    { r with
      predTaken := false
      direction := direction
      record := { record with bpHistory := bpHistory }
      target := p.inst.advancePC r.target }
  else
    { popCall p { r with predTaken := false, record := record } with
      target := p.inst.advancePC r.target }

/-- A direct branch takes its target from the branch target buffer. -/
def lookupBTB : Predicting T H :=
  match p.btb with
  | some target => { r with target := target }
  | none => r.missBTB d p

def lookupIndirect : Predicting T H :=
  let r := { r with record := { r.record with wasIndirect := true } }
  match p.indirect with
  | some target => { r with target := { p.pc with pc := target.pc, npc := target.npc } }
  | none =>
    { popCall p { r with predTaken := false, record := { r.record with predTaken := false } } with
      target := p.inst.advancePC r.target }

def lookupTarget (iPred : Bool) (p : Prediction) (r : Predicting T H) : Predicting T H :=
  if p.inst.isReturn then r.useRAS p
  else if p.inst.isDirectCtrl || !iPred then (r.pushRAS p).lookupBTB d p
  else (r.pushRAS p).lookupIndirect p

def fallThrough : Predicting T H :=
  { r with
    record := { r.record with wasReturn := p.inst.isReturn }
    target := p.inst.advancePC r.target }

end Predicting

namespace BPredUnit

def predictDirection (d : DirectionPredictor T H) (u : BPredUnit T H) (p : Prediction) :
    Predicting T H :=
  let (predTaken, bpHistory, direction) :=
    if p.inst.isUncondCtrl then (true, d.uncondBranch u.direction p.pc.pc)
    else d.lookup u.direction p.pc.pc
  { predTaken := predTaken, target := p.pc, direction := direction, ras := u.ras
    record := .new p.seqNum p.pc.pc predTaken bpHistory p.inst }

def predicting (d : DirectionPredictor T H) (iPred : Bool) (u : BPredUnit T H)
    (p : Prediction) : Predicting T H :=
  let r := u.predictDirection d p
  if r.predTaken then r.lookupTarget d iPred p else r.fallThrough p

/-- `iPred` says that there is an indirect predictor. What the caller gets is the
direction and the next program counter. -/
def predict (d : DirectionPredictor T H) (iPred : Bool) (u : BPredUnit T H) (p : Prediction) :
    Bool × PCState × BPredUnit T H :=
  let r := u.predicting d iPred p
  (r.predTaken, r.target,
    { u with
      direction := r.direction
      ras := r.ras
      predHist := { r.record with target := r.target.pc } :: u.predHist })

/-! ### Squashing -/

def undoRAS (e : PredictorHistory H) (ras : ReturnAddrStack) : ReturnAddrStack :=
  if e.usedRAS then ras.restore e.rasIndex e.rasTarget
  else if e.wasCall && e.pushedRAS then ras.pop
  else ras

/-- The loop of `squash`, over the records from the front. -/
def squashLoop (d : DirectionPredictor T H) (squashedSn : Nat) :
    List (PredictorHistory H) → BPredUnit T H → BPredUnit T H
  | [], u => { u with predHist := [] }
  | e :: hist, u =>
    if squashedSn < e.seqNum then
      squashLoop d squashedSn hist
        { u with ras := undoRAS e u.ras, direction := d.squash u.direction e.bpHistory }
    else { u with predHist := e :: hist }

/-- The direction predictor goes back to the youngest record left, or to the one retired
last. -/
def restoreDirection (d : DirectionPredictor T H) (u : BPredUnit T H) : BPredUnit T H :=
  match u.predHist, u.prevHist with
  | e :: hist, _ =>
    let (bpHistory, direction) :=
      d.update u.direction e.pc e.predTaken e.bpHistory true e.inst e.target
    { u with direction := direction, predHist := { e with bpHistory := bpHistory } :: hist }
  | [], some e =>
    let (bpHistory, direction) :=
      d.update u.direction e.pc e.predTaken e.bpHistory true e.inst e.target
    { u with direction := direction, prevHist := some { e with bpHistory := bpHistory } }
  | [], none => u

def squash (d : DirectionPredictor T H) (u : BPredUnit T H) (squashedSn : Nat) : BPredUnit T H :=
  (squashLoop d squashedSn u.predHist u).restoreDirection d

/-- The stack and the record of a mispredicted branch once its outcome is known. -/
def correctRAS (actuallyTaken : Bool) (e : PredictorHistory H) (ras : ReturnAddrStack) :
    PredictorHistory H × ReturnAddrStack :=
  if actuallyTaken then
    -- The index and the target that `undoRAS` will restore are not recorded here.
    if e.wasReturn && !e.usedRAS then ({ e with usedRAS := true }, ras.pop) else (e, ras)
  else if e.usedRAS then ({ e with usedRAS := false }, ras.restore e.rasIndex e.rasTarget)
  else if e.wasCall && e.pushedRAS then ({ e with pushedRAS := false }, ras.pop)
  else (e, ras)

/-- The `squash` of a mispredicted branch, with its outcome. -/
def correct (d : DirectionPredictor T H) (u : BPredUnit T H) (squashedSn : Nat)
    (corrTarget : Addr) (actuallyTaken : Bool) : Except BPredFault (BPredUnit T H) :=
  let u := u.squash d squashedSn
  match u.predHist with
  | [] => .ok u
  | e :: hist =>
    if e.seqNum ≠ squashedSn then .error .frontNotSquashed
    else
      let (bpHistory, direction) :=
        d.update u.direction e.pc actuallyTaken e.bpHistory true e.inst corrTarget
      let e := { e with
        predTaken := actuallyTaken, target := corrTarget, bpHistory := bpHistory }
      let (e, ras) := correctRAS actuallyTaken e u.ras
      .ok { u with direction := direction, ras := ras, predHist := e :: hist }

/-! ### Committing -/

/-- The loop of `update`, over the records from the back. -/
def updateLoop (d : DirectionPredictor T H) (doneSn : Nat) :
    List (PredictorHistory H) → BPredUnit T H → BPredUnit T H
  | [], u => { u with predHist := [] }
  | e :: hist, u =>
    if e.seqNum ≤ doneSn then
      let (bpHistory, direction) :=
        d.update u.direction e.pc e.predTaken e.bpHistory false e.inst e.target
      updateLoop d doneSn hist
        { u with
          direction := direction
          prevHist := some (.new e.seqNum e.pc e.predTaken bpHistory e.inst) }
    else { u with predHist := (e :: hist).reverse }

def update (d : DirectionPredictor T H) (u : BPredUnit T H) (doneSn : Nat) : BPredUnit T H :=
  updateLoop d doneSn u.predHist.reverse u

def start (direction : T) (numEntries : Nat) : BPredUnit T H :=
  { direction := direction, ras := .init numEntries, predHist := [], prevHist := none }

/-! ### The numbers of the records -/

variable {d : DirectionPredictor T H} {u u' : BPredUnit T H} {sn : Nat} {corrTarget : Addr}

def numbers (u : BPredUnit T H) : List Nat := u.predHist.map (·.seqNum)

variable {taken : Bool}

theorem predicting_record (d : DirectionPredictor T H) (iPred : Bool) (u : BPredUnit T H)
    (p : Prediction) :
    let r := u.predictDirection d p
    let r' := u.predicting d iPred p
    r'.record.seqNum = p.seqNum ∧
      ((r'.record.bpHistory, r'.direction) = (r.record.bpHistory, r.direction) ∨
        (r'.record.bpHistory, r'.direction) =
          d.btbUpdate r.direction p.pc.pc r.record.bpHistory) := by
  dsimp only
  unfold predicting Predicting.lookupTarget Predicting.lookupBTB Predicting.missBTB
    Predicting.lookupIndirect Predicting.pushRAS Predicting.popCall
  dsimp only
  (repeat' split) <;> exact ⟨rfl, by first | exact .inl rfl | exact .inr rfl⟩

/-- **A prediction adds its number at the front.** -/
theorem numbers_predict (d : DirectionPredictor T H) (iPred : Bool) (u : BPredUnit T H)
    (p : Prediction) : (u.predict d iPred p).2.2.numbers = p.seqNum :: u.numbers := by
  unfold predict numbers
  simp only [map_cons, predicting_record]

theorem squashLoop_predHist (sn : Nat) (hist : List (PredictorHistory H)) (u : BPredUnit T H) :
    (squashLoop d sn hist u).predHist = hist.dropWhile fun e => sn < e.seqNum := by
  induction hist generalizing u with
  | nil => rfl
  | cons e hist ih =>
    unfold squashLoop
    by_cases he : sn < e.seqNum
    · rw [if_pos he, ih, dropWhile_cons_of_pos (by simpa using he)]
    · rw [if_neg he, dropWhile_cons_of_neg (by simpa using he)]

theorem squashLoop_prevHist (sn : Nat) (hist : List (PredictorHistory H)) (u : BPredUnit T H) :
    (squashLoop d sn hist u).prevHist = u.prevHist := by
  induction hist generalizing u with
  | nil => rfl
  | cons e hist ih =>
    unfold squashLoop
    split
    · exact ih _
    · rfl

theorem numbers_restoreDirection (u : BPredUnit T H) :
    (u.restoreDirection d).numbers = u.numbers := by
  unfold restoreDirection numbers
  split
  · rename_i e hist _ hpr
    simp only [hpr, map_cons]
  · rfl
  · rfl

/-- **A squash takes the larger numbers off the front.** -/
theorem numbers_squash (u : BPredUnit T H) (sn : Nat) :
    (u.squash d sn).numbers = u.numbers.dropWhile (sn < ·) := by
  unfold squash
  rw [numbers_restoreDirection]
  unfold numbers
  rw [squashLoop_predHist, dropWhile_map]
  rfl

theorem correctRAS_same (taken : Bool) (e : PredictorHistory H) (ras : ReturnAddrStack) :
    (correctRAS taken e ras).1.seqNum = e.seqNum ∧
      (correctRAS taken e ras).1.bpHistory = e.bpHistory ∧
      (correctRAS taken e ras).1.predTaken = e.predTaken := by
  unfold correctRAS
  (repeat' split) <;> exact ⟨rfl, rfl, rfl⟩

theorem correct_eq_ok (ho : u.correct d sn corrTarget taken = .ok u') :
    ((u.squash d sn).predHist = [] ∧ u' = u.squash d sn) ∨
    ∃ e hist bpHistory direction, (u.squash d sn).predHist = e :: hist ∧ e.seqNum = sn ∧
      d.update (u.squash d sn).direction e.pc taken e.bpHistory true e.inst corrTarget =
        (bpHistory, direction) ∧
      u' = { u.squash d sn with
        direction := direction
        ras := (correctRAS taken { e with
          predTaken := taken, target := corrTarget, bpHistory := bpHistory } (u.squash d sn).ras).2
        predHist := (correctRAS taken { e with
          predTaken := taken, target := corrTarget, bpHistory := bpHistory }
            (u.squash d sn).ras).1 :: hist } := by
  unfold correct at ho
  simp only at ho
  split at ho
  · rename_i hni
    exact .inl ⟨hni, (Except.ok.inj ho).symm⟩
  · rename_i e hist hpr
    split at ho
    · cases ho
    · rename_i hsn
      exact .inr ⟨e, hist, _, _, hpr, not_not.mp hsn, rfl, (Except.ok.inj ho).symm⟩

theorem numbers_correct (hok : u.correct d sn corrTarget taken = .ok u') :
    u'.numbers = u.numbers.dropWhile (sn < ·) := by
  rw [← numbers_squash (d := d)]
  rcases correct_eq_ok hok with ⟨-, rfl⟩ | ⟨e, hist, _, _, hpr, -, -, rfl⟩
  · rfl
  · unfold numbers
    rw [hpr, map_cons, map_cons, (correctRAS_same _ _ _).1]

theorem exists_correct (corrTarget : Addr) (taken : Bool)
    (hh : (u.numbers.dropWhile (sn < ·)).head? = some sn) :
    ∃ u', u.correct d sn corrTarget taken = .ok u' := by
  rw [← numbers_squash] at hh
  unfold numbers at hh
  unfold correct
  simp only
  split
  · exact ⟨_, rfl⟩
  · next e hist hpr =>
    rw [hpr, map_cons, head?_cons, Option.some.injEq] at hh
    rw [if_neg (not_not.mpr hh)]
    exact ⟨_, rfl⟩

theorem updateLoop_predHist (doneSn : Nat) (hist : List (PredictorHistory H))
    (u : BPredUnit T H) : (updateLoop d doneSn hist u).predHist =
      (hist.dropWhile fun e => e.seqNum ≤ doneSn).reverse := by
  induction hist generalizing u with
  | nil => rfl
  | cons e hist ih =>
    unfold updateLoop
    by_cases he : e.seqNum ≤ doneSn
    · rw [if_pos he, dropWhile_cons_of_pos (by simpa using he)]
      exact ih _
    · rw [if_neg he, dropWhile_cons_of_neg (by simpa using he)]

/-- **A commit takes the smaller numbers off the back.** -/
theorem numbers_update (u : BPredUnit T H) (doneSn : Nat) :
    (u.update d doneSn).numbers = (u.numbers.reverse.dropWhile (· ≤ doneSn)).reverse := by
  unfold update numbers
  rw [updateLoop_predHist, ← map_reverse, dropWhile_map, map_reverse]
  rfl

end BPredUnit

/-! ### A predictor without a history -/

def neverTaken : DirectionPredictor Unit Unit where
  lookup _ _ := (false, (), ())
  uncondBranch _ _ := ((), ())
  btbUpdate _ _ _ := ((), ())
  squash _ _ := ()
  update _ _ _ _ _ _ _ := ((), ())

/-- An instruction at `pc`, without answers from the tables. -/
def Prediction.plain (seqNum : Nat) (pc : Addr) (isUncondCtrl isCall isReturn : Bool) :
    Prediction where
  inst := ⟨isUncondCtrl, isCall, isReturn, true, id, fun _ ret => ret⟩
  seqNum := seqNum
  pc := .ofAddr pc
  btb := some (.ofAddr 0x4000#64)
  indirect := none

end Gem5.Cpu.Pred
