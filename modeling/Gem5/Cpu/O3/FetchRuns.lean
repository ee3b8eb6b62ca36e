import Gem5.Cpu.O3.Fetch

/-!
# Gem5.Cpu.O3.FetchRuns

**The fetch stage among its neighbours.** A run is any interleaving of the calls
the stage receives: the four functions `tick` calls, the ends of translations,
the fault it reports to itself a cycle later, responses and retries of the
instruction cache, and waking from a quiesce. Beside the stage, `FetchRun` keeps
where every request is (`Stage`) and the bytes the cache returned for it. They
say which calls can come next: a translation ends once, and only a packet the
cache took is answered. A discarded request stays where it is, so its
translation still ends and its packet is still answered.
-/

namespace Gem5.Cpu.O3

open Gem5.Lib

/-- Where a request is. -/
inductive Stage
  /-- It has not been allocated. -/
  | fresh
  | translating
  /-- Its fault is to be reported in the next cycle. -/
  | deferred
  /-- The cache took its packet and has not answered. -/
  | inFlight
  /-- The cache refused its packet. -/
  | refused
  | answered
  /-- Its line is outside memory, or its fault was sent to commit. -/
  | failed
  /-- Its translation ended without effect. -/
  | gone
deriving DecidableEq, Repr

def Stage.ofEnd : Fetch.TranslationEnd → Stage
  | .ignored | .discarded | .dropped => .gone
  | .noGoodAddr | .trapped => .failed
  | .accepted => .inFlight
  | .refused => .refused
  | .deferred => .deferred

/-- The stage, where its requests are, and what was returned for them. -/
structure FetchRun (D : Type) where
  fetch : Fetch D
  stage : Request → Stage
  returned : Request → Option D

inductive FetchCall (D : Type)
  | checkSignalsAndUpdate (sig : Fetch.Signals)
  | addToFTQ (answers : Nat → Fetch.BlockAnswer)
  | fetch (i : Fetch.FetchInput)
  | pipelineIcacheAccesses (interrupt : Bool)
  | finishTranslation (r : Request) (result : Fetch.TranslationResult) (full : Bool)
  /-- The event in which the stage reports a fault to itself. -/
  | finishTranslationEvent (full : Bool)
  | processCacheCompletion (r : Request) (bytes : D) (stall : Bool)
  | recvReqRetry (accepted : Bool)
  | wakeFromQuiesce

namespace FetchRun

variable {D : Type}

def moveTo (s : FetchRun D) (r : Option Request) (x : Stage) : FetchRun D :=
  { s with stage := r.elim s.stage fun r => Function.update s.stage r x }

def endTranslation (c : FetchParams) (s : FetchRun D) (r : Request)
    (result : Fetch.TranslationResult) (full : Bool) : Except FetchFault (FetchRun D) :=
  (fun p => { s.moveTo (some r) (.ofEnd p.1) with fetch := p.2 }) <$>
    s.fetch.finishTranslation c r result full

def step (c : FetchParams) (s : FetchRun D) : FetchCall D → Except FetchFault (FetchRun D)
  | .checkSignalsAndUpdate sig =>
    (fun f => { s with fetch := f }) <$> s.fetch.checkSignalsAndUpdate sig
  | .addToFTQ answers => (fun f => { s with fetch := f }) <$> s.fetch.addToFTQ c answers
  | .fetch i => (fun f => { s with fetch := f }) <$> s.fetch.fetch c i
  | .pipelineIcacheAccesses interrupt =>
    (fun p => { s.moveTo p.1 .translating with fetch := p.2 }) <$>
      s.fetch.pipelineIcacheAccesses c interrupt
  | .finishTranslation r result full => s.endTranslation c r result full
  | .finishTranslationEvent full =>
    match s.fetch.finishTranslationEvent with
    | none => .ok s
    | some r =>
      { s with fetch := { s.fetch with finishTranslationEvent := none } }.endTranslation c r
        .fault full
  | .processCacheCompletion r bytes stall =>
    (fun f => { s.moveTo (some r) .answered with
      fetch := f, returned := Function.update s.returned r (some bytes) }) <$>
      s.fetch.processCacheCompletion c r bytes stall
  | .recvReqRetry accepted =>
    (fun p => { s.moveTo p.1 .inFlight with fetch := p.2 }) <$> s.fetch.recvReqRetry accepted
  | .wakeFromQuiesce => .ok { s with fetch := { s.fetch with fetchStatus := .Running } }

def pre (s : FetchRun D) : FetchCall D → Prop
  | .pipelineIcacheAccesses _ => s.fetch.fetchStatus ≠ .Squashing
  | .finishTranslation r _ _ => s.stage r = .translating
  | .finishTranslationEvent _ => s.fetch.finishTranslationEvent.isSome
  | .processCacheCompletion r _ _ => s.stage r = .inFlight
  | .wakeFromQuiesce => s.fetch.fetchStatus = .QuiescePending
  | _ => True

instance (s : FetchRun D) : DecidablePred s.pre := fun a => by
  cases a <;> dsimp only [pre] <;> infer_instance

/-- How the translation of a line in the buffers may end: only the head line is outside
memory, or the line requested last while fetch waits for no retry; and only the head line
faults at the program counter, with no other fault waiting. -/
def Orderly (c : FetchParams) (s : FetchRun D) : FetchCall D → Prop
  | .finishTranslation r .notMemory _ => s.fetch.foundPC r = true →
      s.fetch.fetchBufferReqPtr.head? = some r ∨
      (s.fetch.memReq.getLast? = some r ∧ s.fetch.fetchStatus ≠ .IcacheWaitRetry)
  | .finishTranslation r .fault full => s.fetch.foundPC r = true →
      r.vaddr = s.fetch.fetchBufferExpectedPC c →
      s.fetch.fetchBufferReqPtr.head? = some r ∧
      (full = true → s.fetch.finishTranslationEvent = none)
  | .finishTranslationEvent _ => ∀ r ∈ s.fetch.finishTranslationEvent, s.fetch.foundPC r = true →
      r.vaddr = s.fetch.fetchBufferExpectedPC c → s.fetch.fetchBufferReqPtr.head? = some r
  | _ => True

instance (c : FetchParams) (s : FetchRun D) : DecidablePred (s.Orderly c) := fun a => by
  unfold Orderly
  split <;> infer_instance

/-- A stage after its reset: no request has been made. -/
def start (pc : PCState) : FetchRun D where
  fetch := .resetStage pc
  stage _ := .fresh
  returned _ := none

abbrev system (D : Type) (c : FetchParams) : System (FetchRun D) (FetchCall D) FetchFault where
  init s := ∃ pc, s = start pc
  step := step c
  pre := pre

end FetchRun

end Gem5.Cpu.O3
