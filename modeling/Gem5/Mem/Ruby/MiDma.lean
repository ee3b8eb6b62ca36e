import Gem5.Lib.System

/-!
# Gem5.Mem.Ruby.MiDma

**DMA writes in the MI_example protocol**, followed for one line from the DMA
sequencer to physical memory. `DMASequencer::makeRequest` places the bytes in a
block; the directory (`MI_example-dir.sm`) first takes the line from its owner,
if it has one, and queues a memory request; and
`AbstractController::serviceMemoryQueue` turns the request into a packet.

* The memory request carries the *line* address, so the packet starts at the
  first byte of the line, wherever the DMA starts.
* Its data is the block of the DMA alone: `qw_queueMemoryWBRequest_partialTBE`
  runs on the owner's PUTX and does not read the data that came with it.
* Length 0 stands for a whole block in `serviceMemoryQueue`.

`dmaWrite_exact_iff` says for which writes the line ends up as it should.
-/

namespace Gem5.Mem.Ruby.MiDma

open Gem5.Lib

/-- `DataBlock`: the bytes of a line by offset. -/
abbrev DataBlock := Nat → UInt8

def DataBlock.setData (blk : DataBlock) (data : Nat → UInt8) (offset len : Nat) : DataBlock :=
  fun i => if offset ≤ i ∧ i < offset + len then data (i - offset) else blk i

/-- `DMARequestMsg` of a write. -/
structure DMARequestMsg where
  physicalAddress : Nat
  lineAddress : Nat
  dataBlk : DataBlock
  len : Nat

/-- `MemoryMsg` of type `MEMORY_WB`. -/
structure MemoryMsg where
  addr : Nat
  dataBlk : DataBlock
  len : Nat

section Address

variable (bits : Nat)

def getOffset (addr : Nat) : Nat := addr % 2 ^ bits

def makeLineAddress (addr : Nat) : Nat := addr - addr % 2 ^ bits

/-- `DMASequencer::makeRequest` of a write, in the form in which
`s_sendWriteRequest` passes it on to the directory. -/
def makeRequest (paddr len : Nat) (data : Nat → UInt8) : DMARequestMsg :=
  let offset := getOffset bits paddr
  let len := if offset + len ≤ 2 ^ bits then len else 2 ^ bits - offset
  { physicalAddress := paddr
    lineAddress := makeLineAddress bits paddr
    dataBlk := DataBlock.setData (fun _ => 0) data offset len
    len := len }

/-- The packet `AbstractController::serviceMemoryQueue` makes of a write-back,
performed by memory. -/
def performWrite (memory : Nat → UInt8) (memMsg : MemoryMsg) : Nat → UInt8 :=
  let reqSize := if 0 < memMsg.len then memMsg.len else 2 ^ bits
  fun a =>
    if memMsg.addr ≤ a ∧ a < memMsg.addr + reqSize then
      memMsg.dataBlk (getOffset bits memMsg.addr + (a - memMsg.addr))
    else memory a

end Address

inductive DirState
  | I | M | ID_W | M_DWR | M_DWRI
  deriving DecidableEq

/-- One line: the directory and its TBE, the owner, and the messages in flight. -/
structure Line where
  dir : DirState
  /-- `TBE` of the DMA request; its fields are those of the request. -/
  tbe : Option DMARequestMsg := none
  /-- The block of the L1 that holds the line in `M`. -/
  owner : Option DataBlock
  dmaRequest : Option DMARequestMsg
  /-- An `INV` is on its way to the owner. -/
  inv : Bool := false
  /-- A `PUTX` of the owner, with its data. -/
  putx : Option DataBlock := none
  requestToMemory : Option MemoryMsg := none
  responseFromMemory : Bool := false
  memory : Nat → UInt8
  /-- `da_sendDMAAck` has run. -/
  dmaAcked : Bool := false

inductive Call
  | dmaWrite | inv | putx | serviceMemoryQueue | memoryAck

inductive Idle
  | idle

/-- The transitions of a DMA write, each with its actions. -/
def Line.step (bits : Nat) (s : Line) : Call → Except Idle Line
  | .dmaWrite =>
    match s.dir, s.dmaRequest with
    | .I, some m =>
      .ok { s with
        dir := .ID_W, dmaRequest := none, tbe := some m
        requestToMemory := some ⟨m.lineAddress, m.dataBlk, m.len⟩ }
    | .M, some m => .ok { s with dir := .M_DWR, dmaRequest := none, tbe := some m, inv := true }
    | _, _ => .error .idle
  | .inv =>
    match s.inv, s.owner with
    | true, some blk => .ok { s with inv := false, owner := none, putx := some blk }
    | _, _ => .error .idle
  | .putx =>
    match s.dir, s.putx, s.tbe with
    -- the data of the PUTX goes nowhere
    | .M_DWR, some _, some m =>
      .ok { s with
        dir := .M_DWRI, putx := none
        requestToMemory := some ⟨m.lineAddress, m.dataBlk, m.len⟩ }
    | _, _, _ => .error .idle
  | .serviceMemoryQueue =>
    match s.requestToMemory with
    | some m =>
      .ok { s with
        requestToMemory := none, responseFromMemory := true
        memory := performWrite bits s.memory m }
    | none => .error .idle
  | .memoryAck =>
    match s.dir, s.responseFromMemory with
    | .ID_W, true | .M_DWRI, true =>
      .ok { s with dir := .I, tbe := none, responseFromMemory := false, dmaAcked := true }
    | _, _ => .error .idle

/-- **The coherent value** of the line: the owner's block, in the cache or on its
way to the directory, and the block in memory when there is none. -/
def Line.coherent (s : Line) (lineAddress : Nat) : DataBlock :=
  fun i => match s.owner, s.putx with
    | some blk, _ => blk i
    | none, some blk => blk i
    | none, none => s.memory (lineAddress + i)

/-- A DMA request at the directory, for a line that is uncached or modified by
its owner. -/
def start (memory : Nat → UInt8) (owner : Option DataBlock) (m : DMARequestMsg) : Line :=
  { dir := if owner.isSome then .M else .I, owner := owner, dmaRequest := some m, memory := memory }

def system (bits : Nat) (memory : Nat → UInt8) (owner : Option DataBlock)
    (m : DMARequestMsg) : System Line Call Idle where
  init s := s = start memory owner m
  step := Line.step bits
  pre _ _ := True

variable {bits len paddr : Nat} {memory : Nat → UInt8} {owner : Option DataBlock}
  {m : DMARequestMsg} {s : Line} {owned : Bool}

/-! ### Where a DMA write can be -/

inductive Phase (bits : Nat) (memory : Nat → UInt8) (owner : Option DataBlock)
    (m : DMARequestMsg) : Line → Prop
  | requested : Phase _ memory owner m (start memory owner m)
  | invalidating (blk : DataBlock) (h : owner = some blk) : Phase _ memory owner m
      { dir := .M_DWR, tbe := some m, owner := some blk, dmaRequest := none, inv := true
        memory := memory }
  | writingBack (blk : DataBlock) (h : owner = some blk) : Phase _ memory owner m
      { dir := .M_DWR, tbe := some m, owner := none, dmaRequest := none, putx := some blk
        memory := memory }
  | queued (dir : DirState) (h : dir = .ID_W ∨ dir = .M_DWRI) : Phase _ memory owner m
      { dir := dir, tbe := some m, owner := none, dmaRequest := none
        requestToMemory := some ⟨m.lineAddress, m.dataBlk, m.len⟩, memory := memory }
  | performed (dir : DirState) (h : dir = .ID_W ∨ dir = .M_DWRI) : Phase _ memory owner m
      { dir := dir, tbe := some m, owner := none, dmaRequest := none, responseFromMemory := true
        memory := performWrite bits memory ⟨m.lineAddress, m.dataBlk, m.len⟩ }
  | acked : Phase _ memory owner m
      { dir := .I, owner := none, dmaRequest := none, dmaAcked := true
        memory := performWrite bits memory ⟨m.lineAddress, m.dataBlk, m.len⟩ }

theorem Phase.step {s' : Line} {c : Call} (h : Phase bits memory owner m s)
    (hs : s.step bits c = .ok s') : Phase bits memory owner m s' := by
  cases h with
  | requested =>
    cases owner with
    | none => cases c <;> cases hs; exact .queued _ (.inl rfl)
    | some blk => cases c <;> cases hs; exact .invalidating blk rfl
  | invalidating blk h => cases c <;> cases hs; exact .writingBack blk h
  | writingBack blk h => cases c <;> cases hs; exact .queued _ (.inr rfl)
  | queued dir h => rcases h with rfl | rfl <;> cases c <;> cases hs <;> exact .performed _ (by simp)
  | performed dir h => rcases h with rfl | rfl <;> cases c <;> cases hs <;> exact .acked
  | acked => cases c <;> cases hs

theorem phase_of_reachable (h : (system bits memory owner m).Reachable s) :
    Phase bits memory owner m s := by
  refine h.invariant _ ?_ fun s c s' hs _ hst => hs.step hst
  rintro s rfl
  exact .requested

theorem exists_acked : ∃ s, (system bits memory owner m).Reachable s ∧ s.dmaAcked := by
  have hst : (system bits memory owner m).Reachable (start memory owner m) := .start rfl
  cases owner with
  | none =>
    exact hst.exists_of_leads [.dmaWrite, .serviceMemoryQueue, .memoryAck]
      ⟨trivial, trivial, trivial, rfl⟩
  | some blk =>
    exact hst.exists_of_leads [.dmaWrite, .inv, .putx, .serviceMemoryQueue, .memoryAck]
      ⟨trivial, trivial, trivial, trivial, trivial, rfl⟩

/-! ### Which writes are exact -/

/-- **A DMA write changes only its own bytes**: whenever it is acknowledged, the
bytes `[paddr, paddr + len)` of the line hold the data and all others what they
held before. -/
def Exact (bits paddr len : Nat) (owned : Bool) : Prop :=
  ∀ (memory : Nat → UInt8) (owner : Option DataBlock) (data : Nat → UInt8),
    owner.isSome = owned →
    let m := makeRequest bits paddr len data
    ∀ s, (system bits memory owner m).Reachable s → s.dmaAcked →
      ∀ i < 2 ^ bits, s.coherent m.lineAddress i =
        if paddr ≤ m.lineAddress + i ∧ m.lineAddress + i < paddr + m.len then
          data (m.lineAddress + i - paddr)
        else (start memory owner m).coherent m.lineAddress i

theorem coherent_of_acked (h : (system bits memory owner m).Reachable s)
    (ha : s.dmaAcked) (i : Nat) : s.coherent m.lineAddress i =
      performWrite bits memory ⟨m.lineAddress, m.dataBlk, m.len⟩ (m.lineAddress + i) := by
  cases phase_of_reachable h with
  | acked => rfl
  | _ => cases ha

theorem getOffset_makeLineAddress (addr : Nat) :
    getOffset bits (makeLineAddress bits addr) = 0 := by
  have hdiv := Nat.div_add_mod addr (2 ^ bits)
  have hln : makeLineAddress bits addr = 2 ^ bits * (addr / 2 ^ bits) := by
    unfold makeLineAddress
    omega
  rw [getOffset, hln, Nat.mul_mod_right]

theorem acked_byte {data : Nat → UInt8}
    (h : (system bits memory owner (makeRequest bits paddr len data)).Reachable s)
    (hac : s.dmaAcked) (i : Nat) : let off := getOffset bits paddr
    let m := makeRequest bits paddr len data
    s.coherent m.lineAddress i =
      if i < if 0 < m.len then m.len else 2 ^ bits then
        if off ≤ i ∧ i < off + m.len then data (i - off) else 0
      else memory (m.lineAddress + i) := by
  have hc := coherent_of_acked h hac i
  simp only [performWrite, makeRequest, getOffset_makeLineAddress, Nat.le_add_right, true_and,
    Nat.add_lt_add_iff_left, Nat.add_sub_cancel_left, Nat.zero_add] at hc
  exact hc

section MakeRequest

variable (bits paddr len : Nat) (data : Nat → UInt8)

theorem makeRequest_len : (makeRequest bits paddr len data).len =
    min len (2 ^ bits - getOffset bits paddr) := by
  simp only [makeRequest]
  split <;> omega

theorem makeRequest_lineAddress : (makeRequest bits paddr len data).lineAddress =
    paddr - getOffset bits paddr := rfl

end MakeRequest

/-- An exact write starts with its line, is not empty, and leaves nothing of an
owner's block to lose. -/
theorem conditions_of_exact (hex : Exact bits paddr len owned) :
    getOffset bits paddr = 0 ∧ 0 < len ∧ (owned = true → 2 ^ bits ≤ len) := by
  -- contents that tell memory, owner, data and the padding of the block apart
  obtain ⟨s, hs, hac⟩ := @exists_acked bits (fun _ => 3)
    (if owned then some fun _ => 2 else none) (makeRequest bits paddr len fun _ => 1)
  have hby (i : Nat) (hi : i < 2 ^ bits) :=
    (acked_byte hs hac i).symm.trans (hex _ _ _ (by cases owned <;> rfl) s hs hac i hi)
  have hst (line i : Nat) : (start (fun _ => 3) (if owned then some fun _ => 2 else none)
      (makeRequest bits paddr len fun _ => 1)).coherent line i = if owned then 2 else 3 := by
    cases owned <;> rfl
  simp only [hst, makeRequest_len] at hby
  cases owned <;> grind

theorem exact_of_conditions (hof : getOffset bits paddr = 0) (hlen : 0 < len)
    (how : owned = true → 2 ^ bits ≤ len) : Exact bits paddr len owned := by
  rintro memory owner data rfl m s hs hac i hi
  refine (acked_byte hs hac i).trans ?_
  simp only [m, makeRequest_len, makeRequest_lineAddress, hof]
  have hr : 0 < min len (2 ^ bits) := by omega
  by_cases hin : i < min len (2 ^ bits)
  · simp [hin, hr]
  · cases owner with
    | none => simp [hin, hr, start, Line.coherent]
    | some blk =>
      have := how rfl
      omega

/-- **When a DMA write is exact**: it starts at the first byte of the line, is
not empty, and takes the whole line if the line has an owner. -/
theorem dmaWrite_exact_iff (bits paddr len : Nat) (owned : Bool) :
    Exact bits paddr len owned ↔
      getOffset bits paddr = 0 ∧ 0 < len ∧ (owned = true → 2 ^ bits ≤ len) :=
  ⟨conditions_of_exact, fun h => exact_of_conditions h.1 h.2.1 h.2.2⟩

/-- Four bytes at offset 4 of an uncached line of 64 bytes land at its start, and
four bytes at the start of an owned line lose the owner's other 60. -/
theorem not_exact_partial : ¬Exact 6 68 4 false ∧ ¬Exact 6 64 4 true :=
  ⟨fun h => absurd (conditions_of_exact h).1 (by decide),
    fun h => absurd ((conditions_of_exact h).2.2 rfl) (by decide)⟩

end Gem5.Mem.Ruby.MiDma
