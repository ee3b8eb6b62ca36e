import Gem5.Cpu.Pred.BPredUnit

/-!
# Gem5.Cpu.O3.BranchNumbers

**How branches are numbered.** Under fetch-directed prefetching the records of the branch
prediction unit are numbered by a counter of the fetch stage, `seq`. The run-ahead predicts a
branch before it is fetched and queues the number; a fetched branch takes the number at the
front of the queue, or is predicted on the spot; every other instruction inherits `brseq`, the
number of the branch before it. Commit names instructions by these numbers when it tells fetch
what it has committed or squashed.

The model keeps, of fetch, the numbers; of commit, the reorder buffer with the squashed
instructions not yet retired; and between them the signals on their way, since fetch goes on
fetching until a squash arrives. Which way the comparisons of program counters went is part of
the call (`Round`, `matchesFront`).
-/

namespace Gem5.Cpu.O3

open Gem5.Base (Addr)
open Gem5.Lib
open Gem5.Cpu.Pred (BPredUnit DirectionPredictor Prediction BPredFault)

/-- `n - 1`, in 64 bits. -/
def pred64 (n : Nat) : Nat := if n = 0 then 2 ^ 64 - 1 else n - 1

structure DynInst where
  seqNum : Nat
  isControl : Bool
  brSeqNum : Nat
deriving DecidableEq, Repr

structure RobInst where
  inst : DynInst
  squashed : Bool
deriving DecidableEq, Repr

/-- The branch a squash is due to, and how it went. -/
structure Mispredict where
  inst : DynInst
  corrTarget : Addr
  branchTaken : Bool
deriving DecidableEq, Repr

inductive CommitInfo
  | done (doneSeqNum doneBrSeqNum : Nat)
  | squash (doneSeqNum doneBrSeqNum : Nat) (mispredictInst : Option Mispredict)
deriving DecidableEq, Repr

inductive NumberingStatus
  | Running | Squashing | TrapPending
deriving DecidableEq, Repr

/-- How a round of `addToFTQ` that asks the predictor goes on. -/
inductive Round
  /-- The block is queued. -/
  | queued
  /-- The prediction is taken back: the target is no good, or the sizes differ. -/
  | stopped
  /-- The address after the branch is no address, which counts as no block found. -/
  | lost
deriving DecidableEq, Repr

inductive NumberingFault
  | bpred (e : BPredFault)
  /-- `findInst` found no instruction before the one squashed. -/
  | nullSquashInst
deriving DecidableEq, Repr

structure Numbering (T H : Type) where
  bpred : BPredUnit T H
  /-- `prefetchQueueSeqNum`. -/
  queue : List Nat
  seq : Nat
  brseq : Nat
  status : NumberingStatus
  /-- The sequence number of the next instruction. -/
  nextSeqNum : Nat
  /-- The instructions fetched and, as far as fetch knows, neither committed nor squashed;
  oldest first. -/
  insts : List DynInst
  /-- Oldest first. -/
  rob : List RobInst
  /-- The youngest instruction that came to the reorder buffer. -/
  insertedSeqNum : Nat
  lastCommited : DynInst
  /-- The signals on their way to fetch, oldest first. -/
  toFetch : List CommitInfo

inductive NumberingCall
  | addBlock (p : Prediction) (r : Round)
  /-- An instruction is fetched. `matchesFront` says that a branch is the one at the front of
  the queue. -/
  | fetchInst (isControl matchesFront : Bool) (p : Prediction)
  /-- A translation fault is sent down the pipeline in an instruction of its own. -/
  | fetchFault
  /-- A tick without a squash. -/
  | resume
  | checkSignals
  | decodeSquash (inst : DynInst) (corrTarget : Addr) (branchTaken : Bool)
  | insertInst (inst : DynInst)
  /-- The first `n + 1` instructions of the reorder buffer are committed. -/
  | commitInsts (n : Nat)
  | retireSquashed
  | squashAll
  | squashDueToBranch (inst : DynInst) (corrTarget : Addr) (branchTaken : Bool)
  | squashDueToMemOrder (inst : DynInst)

namespace Numbering

variable {T H : Type}

/-! ### Fetch -/

variable (d : DirectionPredictor T H) (s : Numbering T H) (iPred : Bool)

def predict (s : Numbering T H) (p : Prediction) : Numbering T H :=
  { s with bpred := (s.bpred.predict d iPred { p with seqNum := s.seq }).2.2 }

def addBlock (s : Numbering T H) (p : Prediction) (r : Round) : Numbering T H :=
  let s := s.predict d iPred p
  match r with
  | .queued => { s with queue := s.queue ++ [s.seq], seq := s.seq + 1 }
  | .stopped => { s with bpred := s.bpred.squash d (pred64 s.seq), seq := s.seq + 1 }
  | .lost => s

/-- A new instruction under the number `brSeqNum`. -/
def buildInst (isControl : Bool) (brSeqNum : Nat) : Numbering T H :=
  { s with
    insts := s.insts ++ [⟨s.nextSeqNum, isControl, brSeqNum⟩]
    nextSeqNum := s.nextSeqNum + 1 }

def predictHere (s : Numbering T H) (p : Prediction) : Numbering T H :=
  let s := s.predict d iPred p
  { s with brseq := s.seq, seq := s.seq + 1 }.buildInst true s.seq

/-- `lookupAndUpdateNextPC`, and the number of the instruction. -/
def fetchInst (s : Numbering T H)
    (isControl matchesFront : Bool) (p : Prediction) : Numbering T H :=
  if !isControl then s.buildInst false s.brseq
  else
    match s.queue with
    | [] => s.predictHere d iPred p
    | brseq :: queue =>
      if matchesFront then { s with queue := queue, brseq := brseq }.buildInst true brseq
      else
        { s with bpred := s.bpred.squash d (pred64 brseq), queue := [] }.predictHere d iPred p

def fetchFault : Numbering T H :=
  { s with status := .TrapPending, seq := s.seq + 1 }.buildInst false s.seq

def doSquash (doneSeqNum : Nat) : Numbering T H :=
  { s with
    queue := []
    status := .Squashing
    brseq := s.seq
    seq := s.seq + 1
    insts := s.insts.filter (·.seqNum ≤ doneSeqNum) }

def squashBPred (u : BPredUnit T H) (doneBrSeqNum : Nat) :
    Option Mispredict → Except BPredFault (BPredUnit T H)
  | some m =>
    if m.inst.isControl then u.correct d doneBrSeqNum m.corrTarget m.branchTaken
    else .ok (if 0 < doneBrSeqNum then u.squash d doneBrSeqNum else u)
  | none => .ok (if 0 < doneBrSeqNum then u.squash d doneBrSeqNum else u)

/-- The first signal from commit, in `checkSignalsAndUpdate`. -/
def checkSignals : Except NumberingFault (Numbering T H) :=
  match s.toFetch with
  | [] => .ok s
  | .done doneSeqNum doneBrSeqNum :: toFetch => .ok
    { s with
      bpred := s.bpred.update d doneBrSeqNum
      insts := s.insts.filter (doneSeqNum < ·.seqNum)
      toFetch := toFetch }
  | .squash doneSeqNum doneBrSeqNum mispredictInst :: toFetch =>
    match squashBPred d s.bpred doneBrSeqNum mispredictInst with
    | .error e => .error (.bpred e)
    | .ok bpred => .ok { s.doSquash doneSeqNum with bpred := bpred, toFetch := toFetch }

/-- A branch found mispredicted by decode. A stage that is squashing already has nothing
queued. -/
def decodeSquash (inst : DynInst)
    (corrTarget : Addr) (branchTaken : Bool) : Except NumberingFault (Numbering T H) :=
  match s.bpred.correct d inst.brSeqNum corrTarget branchTaken with
  | .error e => .error (.bpred e)
  | .ok bpred => .ok { s.doSquash inst.seqNum with bpred := bpred }

/-! ### Commit -/

/-- Mark what is younger than `squashedInst`, and tell fetch. -/
def commitSquash (squashedInst doneBrSeqNum : Nat)
    (mispredictInst : Option Mispredict) : Numbering T H :=
  { s with
    rob := s.rob.map fun e =>
      { e with squashed := e.squashed || decide (squashedInst < e.inst.seqNum) }
    toFetch := s.toFetch ++ [.squash squashedInst doneBrSeqNum mispredictInst] }

def squashAll : Numbering T H :=
  match s.rob with
  | [] => s.commitSquash s.lastCommited.seqNum s.lastCommited.brSeqNum none
  | e :: _ => s.commitSquash (pred64 e.inst.seqNum) (pred64 e.inst.brSeqNum) none

/-- `ROB::findInst`: the instruction `squashInst`, or the one before it. -/
def findInst (squashInst : Nat) : Option DynInst → List RobInst → Option DynInst
  | _, [] => none
  | last, e :: rob =>
    if e.inst.seqNum = squashInst then some e.inst
    else if e.inst.seqNum < squashInst then findInst squashInst (some e.inst) rob
    else last

def squashDueToBranch (inst : DynInst) (corrTarget : Addr)
    (branchTaken : Bool) : Except NumberingFault (Numbering T H) :=
  match findInst inst.seqNum none s.rob with
  | none => .error .nullSquashInst
  | some squashInst =>
    .ok (s.commitSquash inst.seqNum squashInst.brSeqNum (some ⟨inst, corrTarget, branchTaken⟩))

def squashDueToMemOrder (inst : DynInst) : Except NumberingFault (Numbering T H) :=
  match findInst (pred64 inst.seqNum) none s.rob with
  | none => .error .nullSquashInst
  | some squashInst => .ok (s.commitSquash (pred64 inst.seqNum) squashInst.brSeqNum none)

/-- The instructions `commitInsts` commits; the last one is named in the signal. -/
def commitInsts (n : Nat) : Numbering T H :=
  match s.rob[n]? with
  | none => s
  | some e =>
    { s with
      rob := s.rob.drop (n + 1)
      lastCommited := e.inst
      toFetch := s.toFetch ++ [.done e.inst.seqNum e.inst.brSeqNum] }

/-! ### Runs -/

def step (s : Numbering T H) :
    NumberingCall → Except NumberingFault (Numbering T H)
  | .addBlock p r => .ok (s.addBlock d iPred p r)
  | .fetchInst isControl matchesFront p => .ok (s.fetchInst d iPred isControl matchesFront p)
  | .fetchFault => .ok s.fetchFault
  | .resume => .ok { s with status := if s.status = .Squashing then .Running else s.status }
  | .checkSignals => s.checkSignals d
  | .decodeSquash inst corrTarget branchTaken => s.decodeSquash d inst corrTarget branchTaken
  | .insertInst inst => .ok
    { s with rob := s.rob ++ [⟨inst, false⟩], insertedSeqNum := inst.seqNum }
  | .commitInsts n => .ok (s.commitInsts n)
  | .retireSquashed => .ok { s with rob := s.rob.tail }
  | .squashAll => .ok s.squashAll
  | .squashDueToBranch inst corrTarget branchTaken =>
    s.squashDueToBranch inst corrTarget branchTaken
  | .squashDueToMemOrder inst => s.squashDueToMemOrder inst

/-- What is left of `insts` once the signals have arrived. -/
def survivors : List CommitInfo → List DynInst → List DynInst
  | [], insts => insts
  | .done doneSeqNum _ :: toFetch, insts =>
    survivors toFetch (insts.filter (doneSeqNum < ·.seqNum))
  | .squash doneSeqNum _ _ :: toFetch, insts =>
    survivors toFetch (insts.filter (·.seqNum ≤ doneSeqNum))

/-- The instructions that commit has neither committed nor squashed. -/
def live : List DynInst := survivors s.toFetch s.insts

/-- When each call can come: fetch runs, and the instructions commit and decode speak of are
live. -/
def pre : NumberingCall → Prop
  | .addBlock _ _ | .fetchInst _ _ _ | .fetchFault => s.status = .Running
  | .resume => True
  | .checkSignals => s.toFetch ≠ []
  | .decodeSquash inst _ _ =>
    inst ∈ s.insts ∧ inst.isControl ∧ s.insertedSeqNum < inst.seqNum
  | .insertInst inst => s.live.find? (s.insertedSeqNum < ·.seqNum) = some inst
  | .commitInsts n => n < s.rob.length ∧ ∀ e ∈ s.rob.take (n + 1), e.squashed = false
  | .retireSquashed => ∀ e ∈ s.rob.head?, e.squashed
  | .squashAll => True
  | .squashDueToBranch inst _ _ | .squashDueToMemOrder inst => ⟨inst, false⟩ ∈ s.rob

instance (s : Numbering T H) : DecidablePred s.pre := fun a => by
  cases a <;> dsimp only [pre] <;> infer_instance

/-- **The numbers are as the signals need them.** Nothing is queued when a translation fault
takes its number, no run-ahead prediction is lost, and a squash names a number above 0. -/
def Numbered (s : Numbering T H) : NumberingCall → Prop
  | .addBlock _ r => r ≠ .lost
  | .fetchFault => s.queue = []
  | .squashAll => (∀ e ∈ s.rob.head?, 2 ≤ e.inst.brSeqNum) ∧
      (s.rob = [] → 1 ≤ s.lastCommited.brSeqNum)
  | .squashDueToBranch inst _ _ => inst.isControl ∨ 1 ≤ inst.brSeqNum
  | .squashDueToMemOrder inst =>
    ∀ x ∈ findInst (pred64 inst.seqNum) none s.rob, 1 ≤ x.brSeqNum
  | .fetchInst _ _ _ | .resume | .checkSignals | .decodeSquash _ _ _ | .insertInst _
  | .commitInsts _ | .retireSquashed => True

instance (s : Numbering T H) : DecidablePred s.Numbered := fun a => by
  cases a <;> dsimp only [Numbered] <;> infer_instance

/-- After the reset: `seq` is 1 and `brseq` is 0. -/
def start (t : T) (rasSize : Nat) : Numbering T H where
  bpred := .start t rasSize
  queue := []
  seq := 1
  brseq := 0
  status := .Running
  nextSeqNum := 1
  insts := []
  rob := []
  insertedSeqNum := 0
  lastCommited := ⟨0, false, 0⟩
  toFetch := []

abbrev system : System (Numbering T H) NumberingCall NumberingFault where
  init s := ∃ t rasSize, s = start t rasSize
  step := step d iPred
  pre := pre

end Numbering

end Gem5.Cpu.O3
