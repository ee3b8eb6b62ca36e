import Gem5.Lib.System
import Gem5.Base.Bitfield

/-!
# Gem5.Cpu.O3.Fetch

The fetch stage of the out-of-order core with **fetch-directed instruction
prefetching** (`enableFDIP`). Two loops run ahead of the decoder:

* `addToFTQ` walks the branch target buffer from `prefPC` and pushes one entry
  per basic block into the fetch target queue, which is four deques side by
  side: targets, block sizes, sequence numbers, branches. It also notes the
  cache lines of the blocks in `prefetchBufferPC`.
* `pipelineIcacheAccesses` requests one noted line per call. A requested line
  has an entry in four more lists (`fetchBuffer`, `fetchBufferPC`,
  `fetchBufferValid`, `fetchBufferReqPtr`) and its request is in `memReq` until
  it is answered.

`fetch` consumes both from the front.

What surrounds the stage is an input of each call: the contents of the branch
target buffer and the answers of the predictor (`BlockAnswer`, `InstAnswer`),
whether an interrupt or a drain is pending, how a translation ends, whether the
instruction cache takes a packet. `Fetch` is the stage of one thread with the
namespace-level deques to itself. `fetchOffset` is left out: every function that
assigns it assigns `0`; so is `add_front`, which only a stage without
prefetching sets. A violated assertion, or a read from an empty list, is a
`FetchFault`.
-/

namespace Gem5.Cpu.O3

open Gem5.Base (Addr)

/-- A program counter: the address, the next address, the micro-op counters, and
the architecture's flags. -/
structure PCState where
  pc : Addr
  npc : Addr
  upc : Nat
  nupc : Nat
  flags : Nat
deriving DecidableEq, Repr

/-- The state at the start of the instruction at `val`. -/
def PCState.ofAddr (val : Addr) : PCState :=
  { pc := val, npc := val + 4#64, upc := 0, nupc := 1, flags := 0 }

/-- `PCState(0)`, which stands for "no address". -/
def PCState.zero : PCState := .ofAddr 0#64

inductive ThreadStatus
  | Running | Idle | Squashing | Blocked | Fetching | TrapPending | QuiescePending | ItlbWait
  | IcacheWaitResponse | IcacheWaitRetry | IcacheAccessComplete | NoGoodAddr
deriving DecidableEq, Repr

/-- A request for one line. Requests are compared by identity, which `id` is. -/
structure Request where
  id : Nat
  vaddr : Addr
deriving DecidableEq, Repr

/-- The configuration, with what the constructor checks of it. -/
structure FetchParams where
  ftqSize : Nat
  ftqInst : Nat
  fetchBufferSize : Nat
  cacheBlkSize : Nat
  /-- The bytes the decoder takes at a time. -/
  moreBytesSize : Nat
  /-- The limits are 32-bit signed numbers. -/
  ftqInst_lt : ftqInst < 2 ^ 31
  ftqSize_lt : ftqSize < 2 ^ 31
  size_le : fetchBufferSize ≤ cacheBlkSize
  size_mod : cacheBlkSize % fetchBufferSize = 0
  /-- The decoder takes one word at most. -/
  moreBytes_le : moreBytesSize ≤ 8

/-- The decoder's `pcMask`: the address of the word an instruction is in. -/
def FetchParams.pcMask (c : FetchParams) : Addr :=
  ~~~(Base.mask (Base.floorLog2 c.moreBytesSize))

def cacheLineSize : Addr := 64#64

/-- The first address of the line of `a`. -/
def lineOf (a : Addr) : Addr := (a >>> 6) <<< 6

/-- The first address of the fetch buffer segment of `addr`. -/
def FetchParams.fetchBufferAlignPC (c : FetchParams) (addr : Addr) : Addr :=
  addr &&& ~~~(BitVec.ofNat 64 (c.fetchBufferSize - 1))

inductive FetchFault
  | frontOfEmpty
  | endlessLines
  | shouldNotHappen
  | prefSizeMismatch
  | bufferSizes
  | inRom
  | curMacroop
  | pcItNotEnd
  | reqItEnd
  | validBefore
  | notInMemReq
  | pcItPrefPcIt
  | cacheNotBlocked
deriving DecidableEq, Repr

/-! ### State -/

/-- The fetch target queue and the run-ahead program counter. -/
structure Ftq where
  prefetchQueue : List PCState
  prefetchQueueBblSize : List (BitVec 32)
  prefetchQueueSeqNum : List Nat
  prefetchQueueBr : List PCState
  prefPC : PCState
  seq : Nat
deriving DecidableEq

structure NotedLines where
  prefetchBufferPC : List Addr
  prefetchBufferActualPC : List Addr
deriving DecidableEq

/-- The requested lines. A line that has not been answered has no bytes. `nextReq`
is the identity of the next request. -/
structure LineBuffers (D : Type) where
  fetchBuffer : List (Option D)
  fetchBufferPC : List Addr
  fetchBufferValid : List Bool
  fetchBufferReqPtr : List Request
  memReq : List Request
  nextReq : Nat
deriving DecidableEq

/-- The status of the stage and its dealings with the instruction cache. -/
structure IcacheSide where
  fetchStatus : ThreadStatus
  cacheBlocked : Bool
  /-- The packet the cache refused; `retryTid` is the thread exactly when there is one. -/
  retryPkt : Option Request
  /-- The request of the fault that is reported again in the next cycle. -/
  finishTranslationEvent : Option Request
deriving DecidableEq

structure Fetch (D : Type) extends Ftq, NotedLines, LineBuffers D, IcacheSide where
  pc : PCState
  brseq : Nat
  lastPrefPC : PCState
  lastAddrFetched : Addr
  lastProcessedLine : Addr
  fallThroughPrefPC : Addr
deriving DecidableEq

variable {D : Type}

/-- The stage after `resetStage`, at the thread's program counter. -/
def Fetch.resetStage (pc : PCState) : Fetch D where
  prefetchQueue := []
  prefetchQueueBblSize := []
  prefetchQueueSeqNum := []
  prefetchQueueBr := []
  prefPC := pc
  seq := 1
  prefetchBufferPC := []
  prefetchBufferActualPC := []
  fetchBuffer := []
  fetchBufferPC := []
  fetchBufferValid := []
  fetchBufferReqPtr := []
  memReq := []
  fetchStatus := .Running
  pc := pc
  brseq := 0
  lastPrefPC := pc
  lastAddrFetched := 0#64
  lastProcessedLine := 0#64
  fallThroughPrefPC := 0#64
  cacheBlocked := false
  retryPkt := none
  finishTranslationEvent := none
  nextReq := 0

namespace Fetch

variable (c : FetchParams) (s : Fetch D)

/-- The segment of the program counter, which `fetch` needs next. -/
def fetchBufferExpectedPC : Addr :=
  c.fetchBufferAlignPC (s.pc.pc &&& c.pcMask)

/-- `fetchBufferValid.size() > 0 && fetchBufferValid.front()`. -/
def frontValid : Bool :=
  s.fetchBufferValid.head?.getD false

/-- The front line is valid and is the line of the program counter. -/
def frontReady : Bool :=
  s.frontValid && s.fetchBufferPC.head? == some (s.fetchBufferExpectedPC c)

def clearQueue : Fetch D :=
  { s with
    prefetchQueue := [], prefetchQueueBblSize := [], prefetchQueueSeqNum := [],
    prefetchQueueBr := [] }

def clearLines : Fetch D :=
  { s with
    prefetchBufferPC := [], prefetchBufferActualPC := [], fetchBuffer := [], fetchBufferPC := [],
    fetchBufferValid := [], fetchBufferReqPtr := [], memReq := [] }

/-! ### Running ahead -/

/-- What the branch target buffer and the predictor answer about the block that
starts at the run-ahead program counter. -/
structure BlockAnswer where
  /-- `getBblValid`. -/
  bblValid : Bool
  /-- `getBranchPC`. -/
  branchPC : PCState
  /-- `getBblSize`, as an `int`. -/
  bblSize : BitVec 32
  /-- `predict`: taken, and the program counter it leaves behind. -/
  predictTaken : Bool
  target : PCState
  /-- The branch advanced past, which replaces a target below `0x1000`. -/
  advanced : PCState
  /-- The branch is unconditional or indirect. -/
  isUncondOrIndirect : Bool

/-- What `predictNextBasicBlock` returns, with its reference arguments. -/
structure NextBlock where
  nextPC : PCState
  branchPC : PCState
  stopPrefetch : Bool
  instLimitReached : Bool

/-- The instructions of the queued blocks, counted onto `first` in 64-bit words. -/
def numInsts (first : BitVec 64) (sizes : List (BitVec 32)) : BitVec 64 :=
  sizes.foldl (fun n size => n + (size.sdiv 4#32 + 1#32).signExtend 64) first

def predictNextBasicBlock (prefetchPc branchPC : PCState) (a : BlockAnswer) : NextBlock :=
  if !a.bblValid then
    { nextPC := .zero, branchPC := branchPC, stopPrefetch := false, instLimitReached := false }
  else if a.branchPC.pc < prefetchPc.pc then
    { nextPC := .zero, branchPC := a.branchPC, stopPrefetch := false, instLimitReached := false }
  else if BitVec.ofNat 64 c.ftqInst <
      numInsts ((a.branchPC.pc - prefetchPc.pc) / 4#64 + 1#64) s.prefetchQueueBblSize then
    { nextPC := .zero, branchPC := a.branchPC, stopPrefetch := false, instLimitReached := true }
  else
    let notGood : Bool := a.target.pc < 0x1000#64
    { nextPC := if notGood then a.advanced else a.target
      branchPC := a.branchPC
      stopPrefetch := notGood || (a.isUncondOrIndirect && !a.predictTaken)
      instLimitReached := false }

def pushLine (curPCLine actualPC : Addr) : Fetch D :=
  if s.prefetchBufferPC.getLast?.getD s.lastAddrFetched = curPCLine then s
  else
    { s with
      prefetchBufferPC := s.prefetchBufferPC ++ [curPCLine]
      prefetchBufferActualPC := s.prefetchBufferActualPC ++ [actualPC]
      lastAddrFetched := curPCLine }

/-- The loop over the lines of a block. `fallThrough` skips the lines up to the
last one noted. A block that ends in the last line of the address space never
leaves the loop. -/
def pushLines (fallThrough : Bool) (branchPCLine : Addr) :
    Nat → Addr → Addr → Fetch D → Except FetchFault (Fetch D)
  | 0, _, _, _ => .error .endlessLines
  | fuel + 1, curPCLine, actualPC, s =>
    let s := if fallThrough && !(s.lastAddrFetched < curPCLine) then s
      else s.pushLine curPCLine actualPC
    let curPCLine := curPCLine + cacheLineSize
    if curPCLine ≤ branchPCLine then pushLines fallThrough branchPCLine fuel curPCLine curPCLine s
    else .ok s

/-- Forget the line processed last, unless it is the last one noted. -/
def checkProcessedLine : Fetch D :=
  if s.lastProcessedLine ≠ s.lastAddrFetched then { s with lastProcessedLine := 0#64 } else s

/-- Note the lines of the block from `thisPC` to `branchPC`. -/
def addLines (prevPrefPC thisPC branchPC nextPC : PCState) : Except FetchFault (Fetch D) :=
  let curPCLine := lineOf thisPC.pc &&& c.pcMask
  let branchPCLine := lineOf branchPC.pc &&& c.pcMask
  let s := s.checkProcessedLine
  if s.lastProcessedLine = branchPCLine then
    .ok { s with lastProcessedLine := 0#64, lastPrefPC := .zero }
  else
    pushLines (prevPrefPC.pc == s.fallThroughPrefPC) branchPCLine
      ((branchPCLine - curPCLine).toNat / 64 + 1) curPCLine nextPC.pc s

/-- Queue the block from `thisPC` to `branchPC`, which goes on at `nextPC`. -/
def pushBlock (thisPC branchPC nextPC : PCState) : Fetch D :=
  { s with
    prefetchQueue := s.prefetchQueue ++ [nextPC]
    prefetchQueueBblSize := s.prefetchQueueBblSize ++ [(branchPC.pc - thisPC.pc).setWidth 32]
    prefetchQueueSeqNum := s.prefetchQueueSeqNum ++ [s.seq]
    prefetchQueueBr := s.prefetchQueueBr ++ [branchPC]
    seq := s.seq + 1 }

/-- No block is known at `prefPC`: note the line and the next one, and stop. -/
def blockNotFound : Fetch D :=
  let fetchBufferBlockPC := c.fetchBufferAlignPC (s.prefPC.pc &&& c.pcMask)
  let prefetchPCLine :=
    if s.lastAddrFetched = fetchBufferBlockPC then fetchBufferBlockPC + cacheLineSize
    else fetchBufferBlockPC
  { s with
    prefetchBufferPC := s.prefetchBufferPC ++ [prefetchPCLine, prefetchPCLine + cacheLineSize]
    prefetchBufferActualPC :=
      s.prefetchBufferActualPC ++ [prefetchPCLine, prefetchPCLine + cacheLineSize]
    lastAddrFetched := prefetchPCLine + cacheLineSize
    prefPC := .zero
    lastPrefPC := .zero }

/-- What the loop of `addToFTQ` does once the lines of a block are noted: a taken
branch ends it, a fall-through goes on at `nextPC`. -/
def afterBlock (branchPC nextPC : PCState) : Bool × Fetch D :=
  let fetchBufferBlockPC := c.fetchBufferAlignPC (nextPC.pc &&& c.pcMask)
  let s := { s with fallThroughPrefPC := 0#64 }
  if branchPC.pc + 4#64 ≠ nextPC.pc then
    if s.lastAddrFetched = fetchBufferBlockPC then
      (true, { s with
        lastPrefPC := s.prefPC
        lastProcessedLine :=
          if s.lastProcessedLine = s.lastAddrFetched then 0#64 else s.lastProcessedLine })
    else (true, s)
  else
    (false, { s with
      lastPrefPC := if fetchBufferBlockPC = s.lastAddrFetched then s.prefPC else s.lastPrefPC
      lastProcessedLine := 0#64 })

/-- The loop of `addToFTQ`. `answers room` is what is answered in the round whose
block leaves room for `room` more. -/
def addBlocks (c : FetchParams) (answers : Nat → BlockAnswer) :
    Nat → PCState → Fetch D → Except FetchFault (Fetch D)
  | 0, _, s => .ok s
  | room + 1, thisPC, s =>
    let a := answers room
    let b := s.predictNextBasicBlock c thisPC thisPC a
    if b.instLimitReached then .ok s
    else if b.nextPC.pc ≤ 0x10#64 then .ok (s.blockNotFound c)
    else
      let prevPrefPC := s.prefPC
      let s := { s with lastPrefPC := s.prefPC, prefPC := b.nextPC }
      if b.branchPC.pc < thisPC.pc then .error .shouldNotHappen
      else if b.stopPrefetch then
        .ok { s with prefPC := .zero, lastPrefPC := .zero, seq := s.seq + 1 }
      else if a.bblSize.signExtend 64 ≠ b.branchPC.pc - thisPC.pc then
        .ok { s with prefPC := .zero, seq := s.seq + 1 }
      else do
        let s ← (s.pushBlock thisPC b.branchPC b.nextPC).addLines c prevPrefPC thisPC b.branchPC
          b.nextPC
        let (stop, s) := s.afterBlock c b.branchPC b.nextPC
        if stop then .ok s else addBlocks c answers room b.nextPC s

/-- The loop runs while the queue has room; each round that goes on has queued
one block, so the room left counts the rounds. -/
def addToFTQ (answers : Nat → BlockAnswer) (s : Fetch D) : Except FetchFault (Fetch D) :=
  if s.fetchStatus = .Squashing ∨ s.fetchStatus = .TrapPending ∨
      s.fetchStatus = .QuiescePending then .ok s
  else if s.prefPC = .zero ∨ s.prefPC.pc < 0x10#64 then .ok s
  -- The assertions of `preDecodeAllLines`, which only decodes the valid lines.
  else if s.fetchBufferValid.length ≠ s.fetchBufferPC.length ∨
      s.fetchBufferPC.length ≠ s.fetchBuffer.length then .error .bufferSizes
  else if s.prefetchQueue.length ≠ s.prefetchQueueBblSize.length ∨
      s.prefetchQueue.length ≠ s.prefetchQueueSeqNum.length ∨
      s.prefetchQueue.length ≠ s.prefetchQueueBr.length then .error .prefSizeMismatch
  else addBlocks c answers (c.ftqSize - s.prefetchQueue.length) s.prefPC s

/-! ### Fetching -/

/-- What the decoder and the predictor say about one fetched instruction. -/
structure InstAnswer where
  isControl : Bool
  /-- The program counter advanced past the instruction. -/
  advanced : PCState
  /-- `predict`: taken, and the program counter it leaves behind. -/
  predictTaken : Bool
  target : PCState
  isQuiesce : Bool

/-- Keep only the head line, when the predictor was asked by `fetch` itself. -/
def flushBehindHead (nextPC : PCState) (predictTaken : Bool) : Except FetchFault (Fetch D) :=
  match s.prefetchBufferPC with
  | [] => .error .frontOfEmpty
  | front :: _ => .ok
    { s.clearQueue with
      prefPC := nextPC
      fallThroughPrefPC := if predictTaken then 0#64 else nextPC.pc
      lastPrefPC := .zero
      lastProcessedLine := 0#64
      lastAddrFetched := front
      prefetchBufferPC := s.prefetchBufferPC.take 1
      prefetchBufferActualPC := s.prefetchBufferActualPC.take 1
      fetchBuffer := s.fetchBuffer.take 1
      fetchBufferPC := s.fetchBufferPC.take 1
      fetchBufferReqPtr := s.fetchBufferReqPtr.take 1
      fetchBufferValid := s.fetchBufferValid.take 1
      memReq := [] }

def invokePredictor (a : InstAnswer) : Except FetchFault (PCState × Fetch D) :=
  let bad : Bool := a.target.pc < 0x10#64
  let nextPC := if bad then a.advanced else a.target
  let s := { s with brseq := s.seq, seq := s.seq + 1 }
  (fun s => (nextPC, s)) <$> s.flushBehindHead nextPC (!bad && a.predictTaken)

/-- The next program counter after the instruction at `thisPC`: a branch takes it
from the front of the queue, or from the predictor when the queue is empty or its
front is another branch. -/
def lookupAndUpdateNextPC (thisPC : PCState) (a : InstAnswer) :
    Except FetchFault (PCState × Fetch D) :=
  if !a.isControl then .ok (a.advanced, s)
  else
    match s.prefetchQueue, s.prefetchQueueSeqNum, s.prefetchQueueBr with
    | [], _, _ => s.invokePredictor a
    | tempPC :: targets, brseq :: seqNums, branchPC :: branches =>
      let s := { s with
        prefetchQueue := targets
        prefetchQueueBblSize := s.prefetchQueueBblSize.tail
        prefetchQueueSeqNum := seqNums
        prefetchQueueBr := branches
        brseq := brseq }
      if branchPC.pc ≠ thisPC.pc then s.clearQueue.invokePredictor a
      else .ok (if tempPC.pc < 0x10#64 then a.advanced else tempPC, s)
    | _ :: _, _, _ => .error .frontOfEmpty

/-- The loop over the instructions of the head line, up to a quiesce. -/
def fetchInsts : List InstAnswer → PCState → Fetch D → Except FetchFault (PCState × Fetch D)
  | [], thisPC, s => .ok (thisPC, s)
  | a :: insts, thisPC, s => do
    let (nextPC, s) ← s.lookupAndUpdateNextPC thisPC a
    if a.isQuiesce then .ok (nextPC, { s with fetchStatus := .QuiescePending })
    else fetchInsts insts nextPC s

/-- The end of `fetch`: leave the head line when the program counter has left it,
and drop every line when the next one noted is not the one needed. -/
def leaveLine (curMacroop : Bool) : Except FetchFault (Fetch D) :=
  let fetchBufferBlockPC := s.fetchBufferExpectedPC c
  match s.fetchBufferPC with
  | [] => .ok s
  | front :: _ =>
    if fetchBufferBlockPC = front then .ok s
    else if curMacroop then .error .curMacroop
    else
      let s := { s with
        fetchBufferPC := s.fetchBufferPC.tail
        fetchBuffer := s.fetchBuffer.tail
        fetchBufferValid := s.fetchBufferValid.tail
        fetchBufferReqPtr := s.fetchBufferReqPtr.tail
        prefetchBufferPC := s.prefetchBufferPC.tail
        prefetchBufferActualPC :=
          if s.prefetchBufferPC.isEmpty then s.prefetchBufferActualPC
          else s.prefetchBufferActualPC.tail }
      match s.prefetchBufferPC with
      | [] => .ok s
      | next :: _ =>
        if fetchBufferBlockPC = next then .ok s
        else .ok { s.clearLines with
          lastProcessedLine := 0#64, lastAddrFetched := 0#64, fallThroughPrefPC := 0#64,
          lastPrefPC := .zero }

/-- What surrounds one call of `fetch`. -/
structure FetchInput where
  /-- The program counter is in the micro-op ROM. -/
  inRom : Bool
  /-- An interrupt is pending and not delayed. -/
  interrupt : Bool
  /-- The instructions found in the head line, in order. -/
  insts : List InstAnswer
  /-- A macro-op is left unfinished. -/
  curMacroop : Bool

def fetchLine (i : FetchInput) (s : Fetch D) : Except FetchFault (Fetch D) :=
  if s.fetchBufferPC.isEmpty then .ok s
  else do
    let (thisPC, s) ← fetchInsts i.insts s.pc s
    leaveLine c { s with pc := thisPC } i.curMacroop

def fetch (i : FetchInput) (s : Fetch D) : Except FetchFault (Fetch D) :=
  match s.fetchStatus with
  | .IcacheAccessComplete =>
    let s := { s with fetchStatus := .Running }
    if !s.fetchBufferValid.isEmpty && !s.frontValid then .ok s else s.fetchLine c i
  | .Running =>
    if !s.frontReady c then
      if i.inRom then .error .inRom else .ok s
    else if i.interrupt then .ok s
    else s.fetchLine c i
  | .TrapPending | .QuiescePending => .ok s
  | _ =>
    -- `getFetchingThread` picks the thread in any other status only with a valid head line,
    -- or when it is idle, and then the head line is looked at here.
    if s.frontReady c then { s with fetchStatus := .Running }.fetchLine c i else .ok s

/-! ### Requesting lines -/

variable (r : Request)

def pushRequest : Fetch D :=
  { s with
    memReq := s.memReq ++ [r]
    fetchBufferPC := s.fetchBufferPC ++ [r.vaddr]
    fetchBufferValid := s.fetchBufferValid ++ [false]
    fetchBuffer := s.fetchBuffer ++ [none]
    fetchBufferReqPtr := s.fetchBufferReqPtr ++ [r]
    nextReq := s.nextReq + 1 }

/-- Request the line at `vaddr`, unless the cache is blocked or an interrupt is
pending. The request whose translation starts is returned with the stage. -/
def fetchCacheLine (vaddr : Addr) (interrupt : Bool) : Option Request × Fetch D :=
  if s.cacheBlocked || interrupt then (none, s)
  else
    let memReq : Request := { id := s.nextReq, vaddr := c.fetchBufferAlignPC vaddr }
    (some memReq, s.pushRequest memReq)

def noteHeadLine : Fetch D :=
  if s.prefetchBufferPC.isEmpty then
    let curPCLine := lineOf s.pc.pc &&& c.pcMask
    { s with
      prefetchBufferPC := [curPCLine]
      prefetchBufferActualPC := s.prefetchBufferActualPC ++ [s.pc.pc]
      lastAddrFetched := curPCLine
      lastPrefPC := s.prefPC
      lastProcessedLine := 0#64 }
  else s

/-- What is left of `lines` once `pcs` is walked along it; none when they differ
before `pcs` ends. -/
def restOf : List Addr → List Addr → Option (List Addr)
  | [], lines => some lines
  | _ :: _, [] => none
  | pc :: pcs, line :: lines => if line = pc then restOf pcs lines else none

def pipelineIcacheAccesses (interrupt : Bool) : Except FetchFault (Option Request × Fetch D) :=
  if s.fetchStatus = .IcacheWaitRetry ∨ s.fetchStatus = .TrapPending ∨
      s.fetchStatus = .QuiescePending then .ok (none, s)
  else
    let s := s.noteHeadLine c
    match restOf s.fetchBufferPC s.prefetchBufferPC with
    | none => .error .pcItNotEnd
    | some [] => .ok (none, s)
    | some (line :: _) => .ok (s.fetchCacheLine c line interrupt)

/-! ### Translations, responses and retries -/

inductive TranslationResult
  | fault
  /-- The physical address is outside memory. -/
  | notMemory
  /-- The packet is sent, and the cache takes it or not. -/
  | sent (accepted : Bool)
deriving DecidableEq, Repr

inductive TranslationEnd
  /-- The request was discarded before. -/
  | ignored
  /-- Fetch waits for a squash: the line is outside memory. -/
  | noGoodAddr
  /-- The cache has the packet. -/
  | accepted
  /-- The cache refused the packet. -/
  | refused
  /-- A faulting line ahead of the program counter is discarded. -/
  | discarded
  /-- The fault is to be reported in the next cycle. -/
  | deferred
  /-- The fault is dropped, since another one is to be reported. -/
  | dropped
  /-- The fault is sent to commit, which will squash. -/
  | trapped
deriving DecidableEq, Repr

def foundPC : Bool :=
  (s.fetchBufferPC.zip s.fetchBufferReqPtr).any fun p => p.1 == r.vaddr && p.2 == r

/-- Discard the line of `r` and those after it. -/
def eraseFrom : Except FetchFault (Fetch D) :=
  let i := s.fetchBufferReqPtr.idxOf r
  if r ∉ s.memReq then .error .notInMemReq
  else .ok { s with
    fetchBufferPC := s.fetchBufferPC.take i
    fetchBufferValid := s.fetchBufferValid.take i
    fetchBuffer := s.fetchBuffer.take i
    fetchBufferReqPtr := s.fetchBufferReqPtr.take i
    memReq := s.memReq.take (s.memReq.idxOf r) }

/-- The packet of `r` was sent and the cache did not take it. -/
def packetRefused : Except FetchFault (Fetch D) :=
  if r.vaddr = s.fetchBufferExpectedPC c ∧ s.fetchBufferReqPtr.head? = some r then
    if s.retryPkt = none then
      .ok { s with fetchStatus := .IcacheWaitRetry, retryPkt := some r, cacheBlocked := true }
    else .ok { s with cacheBlocked := true }
  else do
    let s ← s.eraseFrom r
    .ok { s with prefPC := .zero, lastPrefPC := .zero, cacheBlocked := true }

/-- The packet of `r` was sent and the cache took it. -/
def packetAccepted : Fetch D :=
  if r.vaddr = s.fetchBufferExpectedPC c ∧ s.fetchBufferPC.length = 1 then
    { s with fetchStatus := .IcacheWaitResponse }
  else s

/-- The translation of a line ahead of the program counter faulted. -/
def faultAhead : Except FetchFault (Fetch D) :=
  let i := s.fetchBufferReqPtr.idxOf r
  if s.fetchBufferPC.take (i + 1) ≠ s.prefetchBufferPC.take (i + 1) then .error .pcItPrefPcIt
  else do
    let s ← s.eraseFrom r
    .ok { s with
      prefetchBufferPC := s.prefetchBufferPC.take i
      prefetchBufferActualPC := s.prefetchBufferActualPC.take i
      prefPC := .zero
      lastPrefPC := .zero }

/-- The translation of a line of the program counter faulted. `full` says that no
instruction can be sent to decode, which the one carrying the fault has to be. -/
def faultHere (full : Bool) : TranslationEnd × Fetch D :=
  if full then
    if s.finishTranslationEvent.isSome then (.dropped, s)
    else (.deferred, { s with finishTranslationEvent := some r })
  else
    (.trapped, { s with
      memReq := [], prefPC := .zero, seq := s.seq + 1, fetchStatus := .TrapPending })

def finishTranslation (result : TranslationResult)
    (full : Bool) : Except FetchFault (TranslationEnd × Fetch D) :=
  if s.memReq.isEmpty || !s.foundPC r then .ok (.ignored, s)
  else
    match result with
    | .notMemory =>
      .ok (.noGoodAddr, { s with fetchStatus := .NoGoodAddr, memReq := s.memReq.dropLast })
    | .sent true => .ok (.accepted, s.packetAccepted c r)
    | .sent false => (fun s => (.refused, s)) <$> s.packetRefused c r
    | .fault =>
      if r.vaddr ≠ s.fetchBufferExpectedPC c then (fun s => (.discarded, s)) <$> s.faultAhead r
      else .ok (s.faultHere r full)

def arrivedStatus (stall : Bool) : ThreadStatus :=
  if stall then .Blocked else .IcacheAccessComplete

/-- Fill the entry of `r` with the bytes of its response. -/
def fillLine (bytes : D) (stall : Bool) : Except FetchFault (Fetch D) :=
  match (s.fetchBufferPC.zip s.fetchBufferReqPtr).findIdx? fun p => p.1 == r.vaddr && p.2 == r with
  | none => .error .reqItEnd
  | some i =>
    if s.fetchBufferValid[i]? = some true then .error .validBefore
    else .ok { s with
      fetchBuffer := s.fetchBuffer.set i (some bytes)
      fetchBufferValid := s.fetchBufferValid.set i true
      memReq := s.memReq.erase r
      fetchStatus := if r.vaddr = s.fetchBufferExpectedPC c ∧ i = 0 then arrivedStatus stall
        else s.fetchStatus }

/-- A stage that waits for the line of `r` stops waiting. -/
def stopWaiting (stall : Bool) : Fetch D :=
  if s.fetchStatus = .IcacheWaitResponse ∧ s.fetchBufferExpectedPC c = r.vaddr then
    { s with fetchStatus := arrivedStatus stall }
  else s

def processCacheCompletion (bytes : D) (stall : Bool) : Except FetchFault (Fetch D) :=
  let s := s.stopWaiting c r stall
  if r ∉ s.memReq then .ok s else s.fillLine c r bytes stall

/-- The cache can take packets again. The request whose packet it takes now is
returned with the stage. -/
def recvReqRetry (accepted : Bool) : Except FetchFault (Option Request × Fetch D) :=
  match s.retryPkt with
  | none => .ok (none, { s with cacheBlocked := false })
  | some r =>
    if s.fetchStatus ≠ .IcacheWaitRetry then
      .ok (none, { s with retryPkt := none, cacheBlocked := false })
    else if !s.cacheBlocked then .error .cacheNotBlocked
    else if !accepted then .ok (none, s)
    else
      match s.fetchBufferPC with
      | [] => .error .frontOfEmpty
      | front :: _ => .ok (some r, { s with
          fetchStatus := if r.vaddr = front then .IcacheWaitResponse else s.fetchStatus
          retryPkt := none
          cacheBlocked := false })

/-! ### Signals -/

def doSquash (newPC : PCState) : Except FetchFault (Fetch D) :=
  if s.retryPkt.isSome && !s.cacheBlocked then .error .cacheNotBlocked
  else .ok { s.clearQueue.clearLines with
    prefPC := newPC
    lastPrefPC := newPC
    lastProcessedLine := 0#64
    lastAddrFetched := 0#64
    fallThroughPrefPC := 0#64
    pc := newPC
    retryPkt := none
    fetchStatus := .Squashing }

structure Signals where
  /-- Commit squashes to this program counter. -/
  commitSquash : Option PCState
  /-- Decode squashes to this program counter. -/
  decodeSquash : Option PCState
  /-- `checkStall`: the stage is to drain. -/
  stall : Bool

/-- The part of `checkSignalsAndUpdate` after the squashes. -/
def checkStallAndUpdate (stall : Bool) : Fetch D :=
  if stall ∧ s.fetchStatus ≠ .IcacheWaitResponse ∧ s.memReq = [] ∧
      s.fetchStatus ≠ .IcacheWaitRetry ∧ s.fetchStatus ≠ .ItlbWait ∧
      s.fetchStatus ≠ .QuiescePending then
    { s with fetchStatus := .Blocked }
  else if s.fetchStatus = .Blocked ∨ s.fetchStatus = .Squashing then
    { s with fetchStatus := .Running }
  else s

def checkHeadLine : Fetch D :=
  if (s.fetchStatus = .IcacheWaitResponse ∨ s.fetchStatus = .IcacheAccessComplete) ∧
      s.frontValid then { s with fetchStatus := .Running } else s

def checkSignalsAndUpdate (sig : Signals) : Except FetchFault (Fetch D) :=
  let s := s.checkHeadLine
  match sig.commitSquash with
  | some newPC => do
    let s ← s.doSquash newPC
    .ok { s with brseq := s.seq, seq := s.seq + 1 }
  | none =>
    match sig.decodeSquash with
    | some newPC =>
      let s := { s with brseq := s.seq, seq := s.seq + 1 }
      if s.fetchStatus ≠ .Squashing then s.doSquash newPC
      else .ok (s.checkStallAndUpdate sig.stall)
    | none => .ok (s.checkStallAndUpdate sig.stall)

end Fetch

end Gem5.Cpu.O3
