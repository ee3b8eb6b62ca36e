import Gem5.Cpu.O3.FetchCases

/-!
# Gem5.Cpu.O3.FetchTargets

**The fetch target queue is one queue.** The four deques are the columns of one
list of entries (`Ftq.Inv`), each the block that starts where the block before it
goes on. Only `addToFTQ` adds entries and only `lookupAndUpdateNextPC` takes
them; every other function leaves the queue alone, stops the run-ahead (`prefPC`
becomes zero), or empties the queue when it sends `prefPC` elsewhere.
-/

namespace Gem5.Cpu.O3

open BitVec List Fetch Nat Gem5.Lib
open Gem5.Base (Addr)

structure FtqEntry where
  target : PCState
  bblSize : BitVec 32
  seqNum : Nat
  br : PCState

namespace FtqEntry

def start (e : FtqEntry) : Addr := e.br.pc - e.bblSize.signExtend 64

def insts (e : FtqEntry) : Nat := e.bblSize.toNat / 4 + 1

end FtqEntry

/-! ### Counting instructions in words -/

theorem toNat_blockInsts {size : BitVec 32} (h : size.toNat < 2 ^ 31) :
    ((size.sdiv 4#32 + 1#32).signExtend 64).toNat = size.toNat / 4 + 1 := by
  have hms : size.msb = false := by
    rw [msb_eq_false_iff_two_mul_lt]
    omega
  have hdi : size.sdiv 4#32 = size / 4#32 := by
    rw [sdiv_eq, hms]
    rfl
  have hs : (size / 4#32 + 1#32).toNat = size.toNat / 4 + 1 := by
    have h4 : (4#32).toNat = 4 := rfl
    have h1 : (1#32).toNat = 1 := rfl
    rw [toNat_add, toNat_udiv, h4, h1]
    exact mod_eq_of_lt (by omega)
  have hms' : (size / 4#32 + 1#32).msb = false := by
    rw [msb_eq_false_iff_two_mul_lt, hs]
    omega
  rw [hdi, signExtend_eq_setWidth_of_msb_false hms', toNat_setWidth, hs]
  omega

theorem setWidth_signExtend (size : BitVec 32) : (size.signExtend 64).setWidth 32 = size := by
  ext i hi
  have hi' : i < 64 := by omega
  rw [getElem_setWidth, getLsbD_signExtend, if_pos hi, decide_eq_true hi',
    Bool.true_and, getLsbD_eq_getElem hi]

theorem toNat_numInsts {es : List FtqEntry} :
    ∀ (first : BitVec 64), (∀ e ∈ es, e.bblSize.toNat < 2 ^ 31) →
      first.toNat + (es.map (·.insts)).sum < 2 ^ 64 →
      (Fetch.numInsts first (es.map (·.bblSize))).toNat = first.toNat + (es.map (·.insts)).sum := by
  induction es with
  | nil =>
    intro first _ _
    rfl
  | cons e es ih =>
    intro first hs hlt
    have hsz := hs e mem_cons_self
    rw [map_cons, sum_cons] at hlt
    -- The rest is counted onto the count of the first block.
    have hfs : (first + (e.bblSize.sdiv 4#32 + 1#32).signExtend 64).toNat =
        first.toNat + e.insts := by
      rw [toNat_add, toNat_blockInsts hsz]
      exact mod_eq_of_lt (by unfold FtqEntry.insts at hlt; omega)
    have hr := ih (first + (e.bblSize.sdiv 4#32 + 1#32).signExtend 64)
      (fun e' he' => hs e' (mem_cons_of_mem _ he')) (by rw [hfs]; omega)
    rw [hfs] at hr
    rw [map_cons, map_cons, sum_cons, ← add_assoc]
    exact hr

/-! ### The invariant -/

/-- The four deques are the columns of `es`. -/
structure Ftq.Columns (q : Ftq) (es : List FtqEntry) : Prop where
  targets : q.prefetchQueue = es.map (·.target)
  sizes : q.prefetchQueueBblSize = es.map (·.bblSize)
  seqNums : q.prefetchQueueSeqNum = es.map (·.seqNum)
  branches : q.prefetchQueueBr = es.map (·.br)

/-- The queue is a run of blocks, the last of which goes on at `prefPC`. -/
structure Ftq.Inv (c : FetchParams) (q : Ftq) (es : List FtqEntry) : Prop extends q.Columns es where
  room : es.length ≤ c.ftqSize
  increasing : es.Pairwise fun e e' => e.seqNum < e'.seqNum
  below : ∀ e ∈ es, e.seqNum < q.seq
  chained : es.IsChain fun e e' => e'.start = e.target.pc
  last : q.prefPC ≠ .zero → ∀ e ∈ es.getLast?, e.target = q.prefPC
  sized : ∀ e ∈ es, e.bblSize.toNat < 2 ^ 31
  bounded : (es.map (·.insts)).sum ≤ c.ftqInst

namespace Ftq.Inv

variable {c : FetchParams} {q q' : Ftq} {es : List FtqEntry} {e : FtqEntry}

theorem empty (q : Ftq) (h : q.Columns []) : q.Inv c [] :=
  { h with
    room := zero_le _
    increasing := .nil
    below := by simp
    chained := .nil
    last := by simp
    sized := by simp
    bounded := zero_le _ }

theorem stop (h : q.Inv c es) : { q with prefPC := .zero }.Inv c es :=
  { h with last := fun hn => absurd rfl hn }

theorem nextSeq (h : q.Inv c es) : { q with seq := q.seq + 1 }.Inv c es :=
  { h with below := fun e he => lt_succ_of_lt (h.below e he) }

theorem tail (h : q.Inv c (e :: es)) (hq' : q'.Columns es) (hse : q'.seq = q.seq)
    (hpr : q'.prefPC = q.prefPC) : q'.Inv c es :=
  { hq' with
    room := le_of_succ_le h.room
    increasing := h.increasing.of_cons
    below := fun e' he' => hse ▸ h.below e' (mem_cons_of_mem _ he')
    chained := h.chained.tail
    last := fun hn e' he' => by
      rw [hpr] at hn ⊢
      refine h.last hn e' ?_
      cases es with
      | nil => cases he'
      | cons e₂ es => rwa [getLast?_cons_cons]
    sized := fun e' he' => h.sized e' (mem_cons_of_mem _ he')
    bounded := by
      have hsu := h.bounded
      rw [map_cons, sum_cons] at hsu
      omega }

/-- A block that starts at `prefPC` is queued and `prefPC` goes on behind it. -/
theorem push (h : q.Inv c es) (hq' : q'.Columns (es ++ [e])) (hse : q'.seq = q.seq + 1)
    (hpr : q'.prefPC = e.target) (hne : q.prefPC ≠ .zero) (hro : es.length < c.ftqSize)
    (hst : e.start = q.prefPC.pc) (hn : e.seqNum = q.seq) (hsz : e.bblSize.toNat < 2 ^ 31)
    (hbo : (es.map (·.insts)).sum + e.insts ≤ c.ftqInst) : q'.Inv c (es ++ [e]) :=
  { hq' with
    room := by simpa [succ_le_iff] using hro
    increasing := by
      rw [pairwise_append]
      refine ⟨h.increasing, pairwise_singleton _ _, fun e₁ he₁ e₂ he₂ => ?_⟩
      rw [mem_singleton.mp he₂, hn]
      exact h.below e₁ he₁
    below := fun e₁ he₁ => by
      rw [hse]
      rcases mem_append.mp he₁ with he₁ | he₁
      · exact lt_succ_of_lt (h.below e₁ he₁)
      · rw [mem_singleton.mp he₁, hn]
        exact lt_succ_self _
    chained := by
      rw [isChain_append]
      refine ⟨h.chained, isChain_singleton _, fun e₁ he₁ e₂ he₂ => ?_⟩
      obtain rfl : e = e₂ := by simpa using he₂
      rw [hst, h.last hne e₁ he₁]
    last := fun _ e₁ he₁ => by
      rw [getLast?_concat] at he₁
      rw [hpr, Option.mem_some_iff.mp he₁]
    sized := fun e₁ he₁ => by
      rcases mem_append.mp he₁ with he₁ | he₁
      · exact h.sized e₁ he₁
      · rwa [mem_singleton.mp he₁]
    bounded := by simpa using hbo }

end Ftq.Inv

/-! ### Running ahead -/

namespace Fetch

variable {D : Type} {c : FetchParams} {s s' : Fetch D} {es : List FtqEntry}

variable {thisPC nextPC : PCState} {answers : Nat → BlockAnswer} {i : FetchInput} {r : Request}
  {a : BlockAnswer}

/-- **When a block is found within the limit**, it starts at `prefetchPc`, is of the
size the buffer gives, and its instructions fit beside those queued. -/
theorem predictNextBasicBlock_fits (h : s.toFtq.Inv c es)
    (hf : (s.predictNextBasicBlock c thisPC thisPC a).nextPC ≠ .zero)
    (hsz : a.bblSize.signExtend 64 =
      (s.predictNextBasicBlock c thisPC thisPC a).branchPC.pc - thisPC.pc) :
    a.bblSize.toNat < 2 ^ 31 ∧ (es.map (·.insts)).sum + (a.bblSize.toNat / 4 + 1) ≤ c.ftqInst := by
  unfold predictNextBasicBlock at hf hsz
  split at hf
  · exact absurd rfl hf
  split at hf
  · exact absurd rfl hf
  split at hf
  · exact absurd rfl hf
  rename_i hva hg hl
  rw [if_neg hva, if_neg hg, if_neg hl] at hsz
  rw [← hsz, h.sizes] at hl
  have hins := c.ftqInst_lt
  have hbou := h.bounded
  -- A negative size would count as more than `2 ^ 61` instructions.
  have hfs : (a.bblSize.signExtend 64 / 4#64 + 1#64).toNat =
      (a.bblSize.signExtend 64).toNat / 4 + 1 := by
    have h4 : (4#64).toNat = 4 := rfl
    have h1 : (1#64).toNat = 1 := rfl
    rw [toNat_add, toNat_udiv, h4, h1]
    exact mod_eq_of_lt (by omega)
  have hcn := toNat_numInsts (a.bblSize.signExtend 64 / 4#64 + 1#64) h.sized (by rw [hfs]; omega)
  rw [BitVec.not_lt, le_def, hcn, hfs, toNat_ofNat, mod_eq_of_lt (by omega)] at hl
  have hex := toNat_signExtend a.bblSize (v := 64)
  rw [toNat_setWidth] at hex
  cases hms : a.bblSize.msb with
  | true =>
    rw [hms, if_pos rfl] at hex
    omega
  | false =>
    rw [msb_eq_false_iff_two_mul_lt] at hms
    constructor
    · omega
    · omega

/-- **What running ahead leaves alone**: the requested lines, the status, the program
counter and the lines noted before. Each line it notes has `P`. -/
structure RunsAhead (P : Addr → Prop) (s s' : Fetch D) : Prop where
  buffers : s'.toLineBuffers = s.toLineBuffers
  icache : s'.toIcacheSide = s.toIcacheSide
  pc : s'.pc = s.pc
  noted : ∃ ls, s'.prefetchBufferPC = s.prefetchBufferPC ++ ls ∧ ∀ l ∈ ls, P l

/-- Noting lines leaves the queue alone too. -/
structure Notes (P : Addr → Prop) (s s' : Fetch D) : Prop extends RunsAhead P s s' where
  ftq : s'.toFtq = s.toFtq

variable {P : Addr → Prop} {p : PCState × Fetch D} {branchPC : PCState}

theorem RunsAhead.of_eq (hno : s'.prefetchBufferPC = s.prefetchBufferPC)
    (hbu : s'.toLineBuffers = s.toLineBuffers) (hic : s'.toIcacheSide = s.toIcacheSide)
    (hpc : s'.pc = s.pc) : RunsAhead P s s' :=
  ⟨hbu, hic, hpc, [], by rw [hno, append_nil], by simp⟩

theorem RunsAhead.trans {s₁ s₂ s₃ : Fetch D} (h : RunsAhead P s₁ s₂) (h' : RunsAhead P s₂ s₃) :
    RunsAhead P s₁ s₃ where
  buffers := h'.buffers.trans h.buffers
  icache := h'.icache.trans h.icache
  pc := h'.pc.trans h.pc
  noted := by
    obtain ⟨ls, hls, hP⟩ := h.noted
    obtain ⟨ls', hls', hP'⟩ := h'.noted
    refine ⟨ls ++ ls', by rw [hls', hls, List.append_assoc], fun l hl => ?_⟩
    exact (mem_append.mp hl).elim (hP l) (hP' l)

theorem Notes.refl (s : Fetch D) : Notes P s s :=
  ⟨.of_eq rfl rfl rfl rfl, rfl⟩

theorem Notes.trans {s₁ s₂ s₃ : Fetch D} (h : Notes P s₁ s₂) (h' : Notes P s₂ s₃) : Notes P s₁ s₃ :=
  ⟨h.toRunsAhead.trans h'.toRunsAhead, h'.ftq.trans h.ftq⟩

theorem notes_pushLine {l : Addr} (actual : Addr) (hl : P l) : Notes P s (s.pushLine l actual) := by
  unfold pushLine
  split
  · exact .refl s
  · exact ⟨⟨rfl, rfl, rfl, [l], rfl, by simpa using hl⟩, rfl⟩

section

variable (hP : ∀ l, P l → P (l + cacheLineSize))
include hP

theorem notes_pushLines {fallThrough : Bool} {branchLine : Addr} :
    ∀ {fuel : Nat} {l actual : Addr} {s : Fetch D}, P l →
      pushLines fallThrough branchLine fuel l actual s = .ok s' → Notes P s s' := by
  intro fuel
  induction fuel with
  | zero =>
    intro l actual s _ h
    cases h
  | succ fuel ih =>
    intro l actual s hl h
    unfold pushLines at h
    have hon : Notes P s (if fallThrough && !(s.lastAddrFetched < l) then s
        else s.pushLine l actual) := by
      split
      · exact .refl s
      · exact notes_pushLine actual hl
    simp only at h
    split at h
    · exact hon.trans (ih (hP l hl) h)
    · cases h
      exact hon

omit hP in
theorem notes_checkProcessedLine (s : Fetch D) : Notes P s s.checkProcessedLine := by
  unfold checkProcessedLine
  split
  · exact ⟨.of_eq rfl rfl rfl rfl, rfl⟩
  · exact .refl s

theorem notes_addLines (hln : ∀ a, P (lineOf a &&& c.pcMask)) {prevPrefPC : PCState}
    (h : s.addLines c prevPrefPC thisPC branchPC nextPC = .ok s') : Notes P s s' := by
  unfold addLines at h
  have hch := notes_checkProcessedLine (P := P) s
  simp only at h
  split at h
  · cases h
    exact hch.trans ⟨.of_eq rfl rfl rfl rfl, rfl⟩
  · exact hch.trans (notes_pushLines hP (hln _) h)

omit hP in
theorem notes_afterBlock (s : Fetch D) (branchPC nextPC : PCState) :
    Notes P s (s.afterBlock c branchPC nextPC).2 := by
  unfold afterBlock
  simp only
  split
  · split
    · exact ⟨.of_eq rfl rfl rfl rfl, rfl⟩
    · exact ⟨.of_eq rfl rfl rfl rfl, rfl⟩
  · exact ⟨.of_eq rfl rfl rfl rfl, rfl⟩

theorem runsAhead_blockNotFound (hal : ∀ a, P (c.fetchBufferAlignPC a)) (s : Fetch D) :
    RunsAhead P s (s.blockNotFound c) := by
  refine ⟨rfl, rfl, rfl, _, rfl, fun l hl => ?_⟩
  have hfs : P (if s.lastAddrFetched = c.fetchBufferAlignPC (s.prefPC.pc &&& c.pcMask) then
      c.fetchBufferAlignPC (s.prefPC.pc &&& c.pcMask) + cacheLineSize
      else c.fetchBufferAlignPC (s.prefPC.pc &&& c.pcMask)) := by
    split
    · exact hP _ (hal _)
    · exact hal _
  rcases mem_pair.mp hl with rfl | rfl
  · exact hfs
  · exact hP _ hfs

end

/-- A block as the loop of `addToFTQ` finds it: past the early exits. -/
structure FindsBlock (c : FetchParams) (s : Fetch D) (thisPC : PCState) (a : BlockAnswer)
    (branchPC nextPC : PCState) : Prop where
  next : (s.predictNextBasicBlock c thisPC thisPC a).nextPC = nextPC
  branch : (s.predictNextBasicBlock c thisPC thisPC a).branchPC = branchPC
  next_gt : 0x10#64 < nextPC.pc
  branch_ge : thisPC.pc ≤ branchPC.pc
  size : a.bblSize.signExtend 64 = branchPC.pc - thisPC.pc

/-- The stage once the block from `thisPC` is queued. -/
def queued (s : Fetch D) (thisPC branchPC nextPC : PCState) : Fetch D :=
  { s with lastPrefPC := s.prefPC, prefPC := nextPC }.pushBlock thisPC branchPC nextPC

/-- **The ways one round of the loop can go.** -/
theorem addBlocks_cases {room : Nat} (h : addBlocks c answers (room + 1) thisPC s = .ok s') :
    s' = s ∨ s' = s.blockNotFound c ∨
    (∃ lastPrefPC, s' = { s with prefPC := .zero, lastPrefPC, seq := s.seq + 1 }) ∨
    ∃ branchPC nextPC s₁, FindsBlock c s thisPC (answers room) branchPC nextPC ∧
      (s.queued thisPC branchPC nextPC).addLines c s.prefPC thisPC branchPC nextPC = .ok s₁ ∧
      (s' = (s₁.afterBlock c branchPC nextPC).2 ∨
        addBlocks c answers room nextPC (s₁.afterBlock c branchPC nextPC).2 = .ok s') := by
  unfold addBlocks at h
  simp only at h
  split at h
  · exact .inl (eq_of_ok h)
  split at h
  · exact .inr (.inl (eq_of_ok h))
  rw [guard_eq_ok] at h
  obtain ⟨hg, h⟩ := h
  split at h
  · exact .inr (.inr (.inl ⟨_, eq_of_ok h⟩))
  split at h
  · exact .inr (.inr (.inl ⟨_, eq_of_ok h⟩))
  rename_i hlim hf hsto hsz
  obtain ⟨s₁, hli, h⟩ := bind_eq_ok.mp h
  refine .inr (.inr (.inr ⟨_, _, s₁, ⟨rfl, rfl, BitVec.not_le.mp hf, BitVec.not_lt.mp hg,
    Decidable.not_not.mp hsz⟩, hli, ?_⟩))
  split at h
  · exact .inl (eq_of_ok h)
  · exact .inr h

theorem inv_queued (h : s.toFtq.Inv c es) (hn : s.prefPC ≠ .zero) (hro : es.length < c.ftqSize)
    (hf : FindsBlock c s s.prefPC a branchPC nextPC) :
    (s.queued s.prefPC branchPC nextPC).toFtq.Inv c (es ++ [⟨nextPC, a.bblSize, s.seq, branchPC⟩]) := by
  have hnx : nextPC ≠ .zero := by
    rintro rfl
    exact absurd hf.next_gt (by decide)
  obtain ⟨hlt, hbo⟩ := predictNextBasicBlock_fits h (by rw [hf.next]; exact hnx)
    (by rw [hf.branch]; exact hf.size)
  refine h.push ⟨?_, ?_, ?_, ?_⟩ rfl rfl hn hro ?_ rfl hlt hbo
  · show s.prefetchQueue ++ _ = _
    rw [h.targets, map_append, map_singleton]
  · show s.prefetchQueueBblSize ++ _ = _
    rw [h.sizes, map_append, map_singleton, ← hf.size, setWidth_signExtend]
  · show s.prefetchQueueSeqNum ++ _ = _
    rw [h.seqNums, map_append, map_singleton]
  · show s.prefetchQueueBr ++ _ = _
    rw [h.branches, map_append, map_singleton]
  · show branchPC.pc - a.bblSize.signExtend 64 = s.prefPC.pc
    rw [hf.size]
    bv_omega

/-- **Running ahead keeps the queue a run of blocks.** The loop is always at `prefPC`. -/
theorem inv_addBlocks :
    ∀ {room : Nat} {s : Fetch D} {es : List FtqEntry}, s.toFtq.Inv c es → s.prefPC ≠ .zero →
      es.length + room ≤ c.ftqSize → addBlocks c answers room s.prefPC s = .ok s' →
      ∃ es', s'.toFtq.Inv c es' := by
  intro room
  induction room with
  | zero =>
    intro s es h _ _ hok
    cases hok
    exact ⟨es, h⟩
  | succ room ih =>
    intro s es h hne hroo hok
    obtain rfl | rfl | ⟨last, rfl⟩ | ⟨branchPC, nextPC, s₁, hf, hli, hr⟩ := addBlocks_cases hok
    · exact ⟨es, h⟩
    · exact ⟨es, h.stop⟩
    · exact ⟨es, h.nextSeq.stop⟩
    · have hq := inv_queued h hne (by omega) hf
      have hn : Notes (fun _ => True) _ (s₁.afterBlock c branchPC nextPC).2 :=
        (notes_addLines (fun _ _ => trivial) (fun _ => trivial) hli).trans
          (notes_afterBlock s₁ branchPC nextPC)
      rw [← hn.ftq] at hq
      have hpr : (s₁.afterBlock c branchPC nextPC).2.prefPC = nextPC := congrArg Ftq.prefPC hn.ftq
      rcases hr with rfl | hr
      · exact ⟨_, hq⟩
      · refine ih hq ?_ ?_ (by rw [hpr]; exact hr)
        · rw [hpr]
          rintro rfl
          exact absurd hf.next_gt (by decide)
        · rw [length_append, length_singleton]
          omega

theorem inv_addToFTQ (h : s.toFtq.Inv c es)
    (ho : s.addToFTQ c answers = .ok s') : ∃ es', s'.toFtq.Inv c es' := by
  unfold addToFTQ at ho
  split at ho
  · cases ho
    exact ⟨es, h⟩
  split at ho
  · cases ho
    exact ⟨es, h⟩
  rename_i _ hpr
  rw [guard_eq_ok, guard_eq_ok] at ho
  have hlen : s.prefetchQueue.length = es.length := by rw [h.targets, length_map]
  refine inv_addBlocks h (fun heq => hpr (.inl heq)) ?_ ho.2.2
  have hroo := h.room
  omega

/-- **What running ahead leaves alone**, for the whole loop. -/
theorem runsAhead_addBlocks (hP : ∀ l, P l → P (l + cacheLineSize))
    (hln : ∀ a, P (lineOf a &&& c.pcMask)) (hal : ∀ a, P (c.fetchBufferAlignPC a)) :
    ∀ {room : Nat} {thisPC : PCState} {s : Fetch D},
      addBlocks c answers room thisPC s = .ok s' → RunsAhead P s s' := by
  intro room
  induction room with
  | zero =>
    intro thisPC s hok
    cases hok
    exact .of_eq rfl rfl rfl rfl
  | succ room ih =>
    intro thisPC s hok
    obtain rfl | rfl | ⟨last, rfl⟩ | ⟨branchPC, nextPC, s₁, -, hli, hr⟩ := addBlocks_cases hok
    · exact .of_eq rfl rfl rfl rfl
    · exact runsAhead_blockNotFound hP hal s
    · exact .of_eq rfl rfl rfl rfl
    · have hqu : RunsAhead P s (s.queued thisPC branchPC nextPC) := .of_eq rfl rfl rfl rfl
      have hn : RunsAhead P s (s₁.afterBlock c branchPC nextPC).2 :=
        (hqu.trans (notes_addLines hP hln hli).toRunsAhead).trans
          (notes_afterBlock s₁ branchPC nextPC).toRunsAhead
      rcases hr with rfl | hr
      · exact hn
      · exact hn.trans (ih hr)

theorem runsAhead_addToFTQ (hP : ∀ l, P l → P (l + cacheLineSize))
    (hln : ∀ a, P (lineOf a &&& c.pcMask)) (hal : ∀ a, P (c.fetchBufferAlignPC a))
    (ho : s.addToFTQ c answers = .ok s') : RunsAhead P s s' := by
  unfold addToFTQ at ho
  split at ho
  · cases ho
    exact .of_eq rfl rfl rfl rfl
  split at ho
  · cases ho
    exact .of_eq rfl rfl rfl rfl
  rw [guard_eq_ok, guard_eq_ok] at ho
  exact runsAhead_addBlocks hP hln hal ho.2.2

theorem addToFTQ_keeps (ho : s.addToFTQ c answers = .ok s') : RunsAhead (fun _ => True) s s' :=
  runsAhead_addToFTQ (fun _ _ => trivial) (fun _ => trivial) (fun _ => trivial) ho

/-! ### Taking entries -/

theorem inv_flushBehindHead {taken : Bool} (ho : s.flushBehindHead nextPC taken = .ok s') :
    s'.toFtq.Inv c [] := by
  unfold flushBehindHead at ho
  split at ho
  · cases ho
  · cases ho
    exact .empty _ ⟨rfl, rfl, rfl, rfl⟩

theorem inv_invokePredictor {a : InstAnswer} (hok : s.invokePredictor a = .ok p) :
    p.2.toFtq.Inv c [] := by
  obtain ⟨s₁, hfl, rfl⟩ := map_eq_ok.mp hok
  exact inv_flushBehindHead hfl

theorem inv_lookupAndUpdateNextPC {a : InstAnswer} (h : s.toFtq.Inv c es)
    (ho : s.lookupAndUpdateNextPC thisPC a = .ok p) : ∃ es', p.2.toFtq.Inv c es' := by
  unfold lookupAndUpdateNextPC at ho
  split at ho
  · cases ho
    exact ⟨es, h⟩
  cases es with
  | nil =>
    rw [h.targets] at ho
    exact ⟨[], inv_invokePredictor ho⟩
  | cons e es =>
    rw [h.targets, h.seqNums, h.branches] at ho
    simp only [map_cons] at ho
    split at ho
    · exact ⟨[], inv_invokePredictor ho⟩
    · cases ho
      exact ⟨es, h.tail ⟨rfl, by rw [h.sizes]; rfl, rfl, rfl⟩ rfl rfl⟩

theorem inv_fetchInsts :
    ∀ {insts : List InstAnswer} {thisPC : PCState} {s : Fetch D} {es : List FtqEntry}
      {p : PCState × Fetch D}, s.toFtq.Inv c es → fetchInsts insts thisPC s = .ok p →
      ∃ es', p.2.toFtq.Inv c es' := by
  intro insts
  induction insts with
  | nil =>
    intro thisPC s es p h ho
    cases ho
    exact ⟨es, h⟩
  | cons a insts ih =>
    intro thisPC s es p h ho
    obtain ⟨⟨nextPC, s₁⟩, hlo, ho⟩ := bind_eq_ok.mp ho
    obtain ⟨es₁, h₁⟩ := inv_lookupAndUpdateNextPC h hlo
    simp only at ho
    split at ho
    · cases ho
      exact ⟨es₁, h₁⟩
    · exact ih h₁ ho

theorem leaveLine_keeps {curMacroop : Bool} (hok : s.leaveLine c curMacroop = .ok s') :
    s'.toFtq = s.toFtq ∧ s'.toIcacheSide = s.toIcacheSide := by
  obtain ⟨rfl, -⟩ | ⟨actual, rfl, -⟩ | rfl := leaveLine_cases hok
  · exact ⟨rfl, rfl⟩
  · exact ⟨rfl, rfl⟩
  · exact ⟨rfl, rfl⟩

theorem inv_fetch (h : s.toFtq.Inv c es) (hok : s.fetch c i = .ok s') :
    ∃ es', s'.toFtq.Inv c es' := by
  obtain rfl | ⟨-, rfl⟩ | ⟨-, rfl | ⟨-, thisPC, s₁, hin, hle⟩⟩ := fetch_cases hok
  · exact ⟨es, h⟩
  · exact ⟨es, h⟩
  · exact ⟨es, h⟩
  · rw [(leaveLine_keeps hle).1]
    exact inv_fetchInsts (s := { s with fetchStatus := .Running }) h hin

/-! ### The other calls -/

theorem inv_finishTranslation {result : TranslationResult} {full : Bool}
    {p : TranslationEnd × Fetch D} (h : s.toFtq.Inv c es)
    (hok : s.finishTranslation c r result full = .ok p) : p.2.toFtq.Inv c es := by
  obtain ⟨-, rfl⟩ | ⟨-, hen⟩ := finishTranslation_cases hok
  · exact h
  · obtain ⟨ending, f⟩ := p
    cases hen with
    | refusedAhead | discarded => exact h.stop
    | trapped => exact h.nextSeq.stop
    | _ => exact h

theorem inv_checkSignalsAndUpdate {sig : Signals} (h : s.toFtq.Inv c es)
    (hok : s.checkSignalsAndUpdate sig = .ok s') : ∃ es', s'.toFtq.Inv c es' := by
  obtain ⟨newPC, brseq, seq, -, rfl⟩ | ⟨-, status, brseq, seq, rfl, rfl | rfl, -⟩ :=
    checkSignalsAndUpdate_cases hok
  · exact ⟨[], .empty _ ⟨rfl, rfl, rfl, rfl⟩⟩
  · exact ⟨es, h⟩
  · exact ⟨es, h.nextSeq⟩

end Fetch

/-! ### Every run -/

namespace FetchRun

variable {D : Type} {c : FetchParams} {es : List FtqEntry} {s : FetchRun D}

theorem inv_endTranslation {s' : FetchRun D} {r : Request} {result : Fetch.TranslationResult}
    {full : Bool} (h : s.fetch.toFtq.Inv c es) (hok : s.endTranslation c r result full = .ok s') :
    s'.fetch.toFtq.Inv c es := by
  obtain ⟨p, hen, rfl⟩ := map_eq_ok.mp hok
  exact inv_finishTranslation h hen

theorem inv_step {s' : FetchRun D} {a : FetchCall D} (h : s.fetch.toFtq.Inv c es)
    (ho : s.step c a = .ok s') : ∃ es', s'.fetch.toFtq.Inv c es' := by
  cases a with
  | checkSignalsAndUpdate sig =>
    obtain ⟨f, hf, rfl⟩ := map_eq_ok.mp ho
    exact inv_checkSignalsAndUpdate h hf
  | addToFTQ answers =>
    obtain ⟨f, hf, rfl⟩ := map_eq_ok.mp ho
    exact inv_addToFTQ h hf
  | fetch i =>
    obtain ⟨f, hf, rfl⟩ := map_eq_ok.mp ho
    exact inv_fetch h hf
  | pipelineIcacheAccesses interrupt =>
    obtain ⟨p, hp, rfl⟩ := map_eq_ok.mp ho
    obtain ⟨rfl, -⟩ | rfl | ⟨line, rest, -, rfl⟩ := pipelineIcacheAccesses_cases hp
    · exact ⟨es, h⟩
    all_goals exact ⟨es, (noteHeadLine_keeps s.fetch).1.symm ▸ h⟩
  | finishTranslation r result full => exact ⟨es, inv_endTranslation h ho⟩
  | finishTranslationEvent full =>
    obtain rfl | ⟨r, -, hen⟩ := step_event ho
    · exact ⟨es, h⟩
    · exact ⟨es, inv_endTranslation
        (s := { s with fetch := { s.fetch with finishTranslationEvent := none } }) h hen⟩
  | processCacheCompletion r bytes stall =>
    obtain ⟨f, hf, rfl⟩ := map_eq_ok.mp ho
    obtain ⟨b, status, rfl, -⟩ := processCacheCompletion_eq hf
    exact ⟨es, h⟩
  | recvReqRetry accepted =>
    obtain ⟨p, hp, rfl⟩ := map_eq_ok.mp ho
    obtain ⟨-, rfl⟩ | ⟨-, -, rfl⟩ | ⟨-, rfl | ⟨r, status, -, rfl⟩⟩ := recvReqRetry_cases hp
    all_goals exact ⟨es, h⟩
  | wakeFromQuiesce =>
    cases ho
    exact ⟨es, h⟩

theorem inv_reachable (h : (system D c).Reachable s) : ∃ es, s.fetch.toFtq.Inv c es := by
  refine h.invariant (fun s => ∃ es, s.fetch.toFtq.Inv c es) ?_ ?_
  · rintro s ⟨pc, rfl⟩
    exact ⟨[], .empty _ ⟨rfl, rfl, rfl, rfl⟩⟩
  · rintro s a s' ⟨es, hes⟩ _ hok
    exact inv_step hes hok

end FetchRun

/-- **A consistent fetch target queue**: the four deques go together, the sequence
numbers grow, each block starts where the one before it goes on, the run-ahead is at the
end of the last block, and the blocks fit the two limits. -/
structure Ftq.Consistent (c : FetchParams) (q : Ftq) : Prop where
  sizes_length : q.prefetchQueueBblSize.length = q.prefetchQueue.length
  seqNums_length : q.prefetchQueueSeqNum.length = q.prefetchQueue.length
  branches_length : q.prefetchQueueBr.length = q.prefetchQueue.length
  length_le : q.prefetchQueue.length ≤ c.ftqSize
  increasing : q.prefetchQueueSeqNum.Pairwise (· < ·)
  below_seq : ∀ n ∈ q.prefetchQueueSeqNum, n < q.seq
  chained : ∀ i target br size, q.prefetchQueue[i]? = some target →
    q.prefetchQueueBr[i + 1]? = some br → q.prefetchQueueBblSize[i + 1]? = some size →
    br.pc - size.signExtend 64 = target.pc
  last_target : q.prefPC ≠ .zero → q.prefetchQueue ≠ [] → q.prefetchQueue.getLast? = some q.prefPC
  insts_le : (q.prefetchQueueBblSize.map fun size => size.toInt.tdiv 4 + 1).sum ≤ (c.ftqInst : Int)

theorem Ftq.Inv.consistent {c : FetchParams} {q : Ftq} {es : List FtqEntry} (h : q.Inv c es) :
    q.Consistent c where
  sizes_length := by rw [h.sizes, h.targets, length_map, length_map]
  seqNums_length := by rw [h.seqNums, h.targets, length_map, length_map]
  branches_length := by rw [h.branches, h.targets, length_map, length_map]
  length_le := by
    rw [h.targets, length_map]
    exact h.room
  increasing := by
    rw [h.seqNums, pairwise_map]
    exact h.increasing
  below_seq n hn := by
    rw [h.seqNums] at hn
    obtain ⟨e, he, rfl⟩ := mem_map.mp hn
    exact h.below e he
  chained i target br size ht hb hs := by
    rw [h.targets, getElem?_map, Option.map_eq_some_iff] at ht
    rw [h.branches, getElem?_map, Option.map_eq_some_iff] at hb
    rw [h.sizes, getElem?_map, Option.map_eq_some_iff] at hs
    obtain ⟨e, he, rfl⟩ := ht
    obtain ⟨e', he', rfl⟩ := hb
    obtain ⟨e'', he'', rfl⟩ := hs
    obtain rfl : e' = e'' := Option.some.inj (he'.symm.trans he'')
    obtain ⟨hi, rfl⟩ := List.getElem?_eq_some_iff.mp he'
    obtain ⟨_, rfl⟩ := List.getElem?_eq_some_iff.mp he
    exact isChain_iff_getElem.mp h.chained i hi
  last_target hne hq := by
    have hes : es ≠ [] := by
      rintro rfl
      exact hq h.targets
    rw [h.targets, getLast?_map, getLast?_eq_some_getLast hes, Option.map_some,
      h.last hne _ (getLast?_eq_some_getLast hes)]
  insts_le := by
    have hma : (q.prefetchQueueBblSize.map fun size => size.toInt.tdiv 4 + 1) =
        (es.map (·.insts)).map fun n : Nat => (n : Int) := by
      rw [h.sizes, map_map, map_map]
      refine map_congr_left fun e he => ?_
      have hsz := h.sized e he
      have hin : e.bblSize.toInt = e.bblSize.toNat := toInt_eq_toNat_of_lt (by omega)
      simp only [Function.comp_apply, hin, FtqEntry.insts]
      rw [Int.tdiv_eq_ediv_of_nonneg (Int.natCast_nonneg _)]
      omega
    rw [hma, ← cast_list_sum]
    exact_mod_cast h.bounded

/-- **The fetch target queue is consistent in every state of every run.** -/
theorem ftq_consistent {D : Type} {c : FetchParams} {s : FetchRun D}
    (h : (FetchRun.system D c).Reachable s) : s.fetch.toFtq.Consistent c := by
  obtain ⟨es, hes⟩ := FetchRun.inv_reachable h
  exact hes.consistent

def FetchParams.shortQueue : FetchParams where
  ftqSize := 4
  ftqInst := 24
  fetchBufferSize := 64
  cacheBlkSize := 64
  moreBytesSize := 4
  ftqInst_lt := by decide
  ftqSize_lt := by decide
  size_le := by decide
  size_mod := by decide
  moreBytes_le := by decide

/-- Two blocks are queued, the first of which falls through to the second. -/
theorem ftq_consistent_twoBlocks :
    ∃ s : FetchRun Nat, (FetchRun.system Nat .shortQueue).Reachable s ∧
      s.fetch.prefetchQueue.length = 2 ∧ s.fetch.toFtq.Consistent .shortQueue := by
  let blocks : Nat → Fetch.BlockAnswer := fun room =>
    { bblValid := true
      branchPC := .ofAddr (if room = 3 then 0x8010#64 else 0x801c#64)
      bblSize := if room = 3 then 0x10#32 else 0x8#32
      predictTaken := room != 3
      target := .ofAddr (if room = 3 then 0x8014#64 else 0x9000#64)
      advanced := .zero
      isUncondOrIndirect := false }
  exact System.Reachable.exists_and_of_leads [.addToFTQ blocks] (.start ⟨.ofAddr 0x8000#64, rfl⟩)
    (by decide +kernel) fun s hs => ftq_consistent hs

end Gem5.Cpu.O3
