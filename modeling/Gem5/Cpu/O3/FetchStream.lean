import Gem5.Cpu.O3.FetchAligned

/-!
# Gem5.Cpu.O3.FetchStream

**The noted lines follow the program counter.** After a squash the stage runs in ticks:
signals, `addToFTQ`, `fetch`, `pipelineIcacheAccesses`, with translations and responses
in between. Whenever `pipelineIcacheAccesses` finds lines noted, the first of them is the
line of the program counter.

The argument is local to a tick. `addToFTQ` appends, so it changes the front only when no
line is noted; `fetch` ends by comparing the front with the program counter and drops
everything on a mismatch; and `pipelineIcacheAccesses` notes the program counter's line
when none is. So no line is noted at the start of a tick only right after the squash, when
the run-ahead is *at* the program counter (`Restarted`), or after a quiesce.

Two things break it: `lastAddrFetched = 0` stands for "no line noted", and waking from a
quiesce with no line noted lets the run-ahead, wherever it is, note the first line.
-/

namespace Gem5.Cpu.O3

open BitVec FetchRun List Option Gem5.Lib IcacheSide
open Gem5.Base (Addr)

variable {D : Type} {c : FetchParams}

/-! ### Lines as segments -/

theorem getLsbD_lineOf (a : Addr) (i : Nat) :
    (lineOf a).getLsbD i = (a.getLsbD i && !decide (i < 6)) := by
  unfold lineOf
  by_cases hi : i < 6
  · simp [hi]
  · by_cases hi' : i < 64
    · simp [hi, hi', show 6 + (i - 6) = i by omega]
    · rw [getLsbD_of_ge _ i (by omega), getLsbD_of_ge a i (by omega), Bool.false_and]

theorem align_eq_lineOf (hc : c.fetchBufferSize = 64) (a : Addr) :
    c.fetchBufferAlignPC (a &&& c.pcMask) = lineOf a &&& c.pcMask := by
  have hpo : c.fetchBufferSize = 2 ^ 6 := hc
  refine eq_of_getLsbD_eq fun i _ => ?_
  rw [getLsbD_fetchBufferAlignPC hpo, getLsbD_and, getLsbD_and, getLsbD_lineOf]
  cases a.getLsbD i
  · simp
  · simp [Bool.and_comm]

theorem lineOf_and_pcMask (c : FetchParams) (a : Addr) : lineOf a &&& c.pcMask = lineOf a := by
  have hsm : ∀ n ≤ 8, Base.floorLog2 n ≤ 3 := by decide
  have hlog : Base.floorLog2 c.moreBytesSize ≤ 3 := hsm _ c.moreBytes_le
  refine eq_of_getLsbD_eq fun i hi => ?_
  rw [getLsbD_and, getLsbD_lineOf, FetchParams.pcMask, getLsbD_not, Base.getLsbD_mask]
  by_cases hi6 : i < 6
  · simp [hi6]
  · have hlt : ¬ i < Base.floorLog2 c.moreBytesSize := by omega
    simp [hi, hlt]

theorem toNat_lineOf (a : Addr) : (lineOf a).toNat = a.toNat / 64 * 64 := by
  unfold lineOf
  rw [toNat_shiftLeft, toNat_ushiftRight, Nat.shiftLeft_eq]
  omega

theorem lineOf_ne_zero {a b : Addr} (hab : a ≤ b) (ha : lineOf a ≠ 0#64) : lineOf b ≠ 0#64 := by
  intro hb
  apply ha
  have hb' := congrArg BitVec.toNat hb
  rw [toNat_lineOf] at hb'
  have hle : a.toNat ≤ b.toNat := hab
  apply eq_of_toNat_eq
  rw [toNat_lineOf]
  simp only [toNat_ofNat] at hb' ⊢
  omega

namespace Fetch

variable {s s' : Fetch D} {answers : Nat → BlockAnswer} {p : Option Request × Fetch D}
  {i : FetchInput}

def pcLine (c : FetchParams) (s : Fetch D) : Addr := lineOf s.pc.pc &&& c.pcMask

theorem expected_eq_pcLine (hc : c.fetchBufferSize = 64) (s : Fetch D) :
    s.fetchBufferExpectedPC c = s.pcLine c :=
  align_eq_lineOf hc s.pc.pc

/-- **The first noted line is that of the program counter.** -/
def OnPath (c : FetchParams) (s : Fetch D) : Prop :=
  ∀ l ∈ s.prefetchBufferPC.head?, l = s.pcLine c

/-- The run-ahead is at the program counter and has noted nothing, as after a squash. -/
structure Restarted (s : Fetch D) : Prop where
  noted : s.prefetchBufferPC = []
  prefPC : s.prefPC = s.pc
  lastAddrFetched : s.lastAddrFetched = 0#64
  lastProcessedLine : s.lastProcessedLine = 0#64
  fallThroughPrefPC : s.fallThroughPrefPC = 0#64
  line_ne : lineOf s.pc.pc ≠ 0#64

/-! ### Running ahead -/

theorem OnPath.runsAhead {P : Addr → Prop} (h : s.OnPath c) (hn : s.prefetchBufferPC ≠ [])
    (hah : RunsAhead P s s') : s'.OnPath c := by
  obtain ⟨ls, hls, -⟩ := hah.noted
  intro l hl
  have hpc : s'.pcLine c = s.pcLine c := by
    unfold pcLine
    rw [hah.pc]
  rw [hls, head?_append_of_ne_nil _ hn] at hl
  rw [hpc]
  exact h l hl

theorem onPath_addLines {prevPrefPC thisPC branchPC nextPC : PCState}
    (hnt : s.prefetchBufferPC = []) (hla : s.lastAddrFetched = 0#64)
    (hpr : s.lastProcessedLine = 0#64) (hfa : prevPrefPC.pc ≠ s.fallThroughPrefPC)
    (hpc : thisPC.pc = s.pc.pc) (hln : lineOf thisPC.pc ≠ 0#64)
    (hbr : thisPC.pc ≤ branchPC.pc)
    (ho : s.addLines c prevPrefPC thisPC branchPC nextPC = .ok s') :
    s'.OnPath c ∧ s'.prefetchBufferPC ≠ [] := by
  have hch : s.checkProcessedLine = s := by
    unfold checkProcessedLine
    rw [hpr, hla]
    exact if_neg (by simp)
  have hno : ¬ s.lastProcessedLine = lineOf branchPC.pc &&& c.pcMask := by
    rw [hpr, lineOf_and_pcMask]
    exact (lineOf_ne_zero hbr hln).symm
  unfold addLines at ho
  simp only [hch] at ho
  rw [if_neg hno, beq_eq_false_iff_ne.mpr hfa] at ho
  unfold pushLines at ho
  simp only [Bool.false_and] at ho
  -- The first round notes the line where the block starts.
  have hpu : s.pushLine (lineOf thisPC.pc &&& c.pcMask) nextPC.pc =
      { s with
        prefetchBufferPC := [lineOf thisPC.pc &&& c.pcMask]
        prefetchBufferActualPC := s.prefetchBufferActualPC ++ [nextPC.pc]
        lastAddrFetched := lineOf thisPC.pc &&& c.pcMask } := by
    unfold pushLine
    rw [hnt, hla, if_neg]
    · rfl
    · rw [lineOf_and_pcMask]
      exact hln.symm
  rw [hpu] at ho
  have hfs : OnPath c { s with
      prefetchBufferPC := [lineOf thisPC.pc &&& c.pcMask]
      prefetchBufferActualPC := s.prefetchBufferActualPC ++ [nextPC.pc]
      lastAddrFetched := lineOf thisPC.pc &&& c.pcMask } := by
    intro l hl
    rw [← mem_some_iff.mp hl, hpc]
    rfl
  split at ho
  · have hr := (notes_pushLines (P := fun _ => True) (fun _ _ => trivial) trivial ho).toRunsAhead
    refine ⟨hfs.runsAhead (by simp) hr, ?_⟩
    obtain ⟨ls, hls, -⟩ := hr.noted
    rw [hls]
    simp
  · cases ho
    exact ⟨hfs, by simp⟩

theorem onPath_addToFTQ_of_restarted (hc : c.fetchBufferSize = 64) (h : s.Restarted)
    (ho : s.addToFTQ c answers = .ok s') : s'.OnPath c := by
  have hi : s.OnPath c := by
    intro l hl
    rw [h.noted] at hl
    cases hl
  unfold addToFTQ at ho
  split at ho
  · cases ho
    exact hi
  split at ho
  · cases ho
    exact hi
  rename_i _ hpr
  rw [guard_eq_ok, guard_eq_ok] at ho
  obtain ⟨-, -, ho⟩ := ho
  generalize c.ftqSize - s.prefetchQueue.length = room at ho
  cases room with
  | zero =>
    cases ho
    exact hi
  | succ room =>
    obtain rfl | rfl | ⟨last, rfl⟩ | ⟨branchPC, nextPC, s₁, hf, hli, hr⟩ := addBlocks_cases ho
    · exact hi
    · -- No block is known: the line of `prefPC` and the next one are noted.
      intro l hl
      have hn : s.lastAddrFetched ≠ c.fetchBufferAlignPC (s.prefPC.pc &&& c.pcMask) := by
        rw [align_eq_lineOf hc, lineOf_and_pcMask, h.lastAddrFetched, h.prefPC]
        exact h.line_ne.symm
      unfold blockNotFound at hl
      simp only [h.noted, nil_append, head?_cons, if_neg hn, mem_some_iff] at hl
      rw [← hl, align_eq_lineOf hc, h.prefPC]
      rfl
    · intro l hl
      have hl' : l ∈ s.prefetchBufferPC.head? := hl
      rw [h.noted] at hl'
      cases hl'
    · have hg : s.prefPC.pc ≠ s.fallThroughPrefPC := by
        rw [h.fallThroughPrefPC]
        intro hz
        exact hpr (.inr (by rw [hz]; decide))
      obtain ⟨hP, hn⟩ := onPath_addLines (s := s.queued s.prefPC branchPC nextPC)
        h.noted h.lastAddrFetched h.lastProcessedLine hg (congrArg PCState.pc h.prefPC)
        (h.prefPC ▸ h.line_ne) hf.branch_ge hli
      have haf := (notes_afterBlock (P := fun _ => True) (c := c) s₁ branchPC nextPC).toRunsAhead
      have hP' := hP.runsAhead hn haf
      rcases hr with rfl | hr
      · exact hP'
      · have hn' : (s₁.afterBlock c branchPC nextPC).2.prefetchBufferPC ≠ [] := by
          obtain ⟨ls, hls, -⟩ := haf.noted
          rw [hls]
          simp [hn]
        exact hP'.runsAhead hn' (runsAhead_addBlocks (P := fun _ => True)
          (fun _ _ => trivial) (fun _ => trivial) (fun _ => trivial) hr)

/-! ### The end of `fetch` -/

theorem ReadsHead.fetchBufferPC_ne_nil (h : ReadsHead s s') (hn : s.fetchBufferPC ≠ []) :
    s'.fetchBufferPC ≠ [] := by
  obtain ⟨-, hl⟩ | ⟨-, hl⟩ := h.lines
  · rw [hl]
    exact hn
  · rw [hl]
    simpa [LineBuffers.head] using hn

theorem onPath_leaveLine (hc : c.fetchBufferSize = 64) (h : s.Leading c)
    (hn : s.fetchBufferPC ≠ []) {curMacroop : Bool} (hok : s.leaveLine c curMacroop = .ok s') :
    s'.OnPath c := by
  obtain ⟨rfl, hfr⟩ | ⟨actual, rfl, hnx⟩ | rfl := leaveLine_cases hok
  · obtain ⟨more, hmo⟩ := h.leading
    intro l hl
    rw [← hmo, head?_append_of_ne_nil _ hn] at hl
    exact (hfr l hl).trans (expected_eq_pcLine hc _)
  · exact fun l hl => (hnx l hl).trans (expected_eq_pcLine hc _)
  · nofun

theorem onPath_fetch (hc : c.fetchBufferSize = 64) (hl : s.Leading c) (h : s.OnPath c)
    (hok : s.fetch c i = .ok s') : s'.OnPath c := by
  obtain rfl | ⟨-, rfl⟩ | ⟨-, rfl | ⟨hn, thisPC, s₁, hin, hlv⟩⟩ := fetch_cases hok
  · exact h
  · exact h
  · exact h
  · have hrd := readsHead_fetchInsts hin
    have hru : { s with fetchStatus := .Running }.Leading c := hl.of_eq rfl rfl
    have hl₁ := hru.readsHead hrd
    exact onPath_leaveLine (s := { s₁ with pc := thisPC }) hc (hl₁.of_eq rfl rfl)
      (hrd.fetchBufferPC_ne_nil hn) hlv

/-! ### Requesting lines -/

theorem OnPath.of_eq (h : s.OnPath c) (hno : s'.prefetchBufferPC = s.prefetchBufferPC)
    (hpc : s'.pc = s.pc) : s'.OnPath c := by
  unfold OnPath pcLine
  rw [hno, hpc]
  exact h

theorem onPath_noteHeadLine (h : s.OnPath c) : (s.noteHeadLine c).OnPath c := by
  unfold noteHeadLine
  split
  · intro l hl
    exact (mem_some_iff.mp hl).symm
  · exact h

theorem noteHeadLine_ne_nil (s : Fetch D) : (s.noteHeadLine c).prefetchBufferPC ≠ [] := by
  unfold noteHeadLine
  split
  · simp
  · rename_i hn
    simpa using hn

/-! ### What the statuses do -/

/-- The stage waits for nothing that only another squash or a retry ends. -/
def Flowing (s : Fetch D) : Prop :=
  s.fetchStatus ≠ .IcacheWaitRetry ∧ s.fetchStatus ≠ .TrapPending

theorem flowing_of_eq (h : s.Flowing) (hst : s'.fetchStatus = s.fetchStatus) : s'.Flowing := by
  unfold Flowing
  rw [hst]
  exact h

theorem pipelineIcacheAccesses_noted (h : s.Flowing) (hqu : s.fetchStatus ≠ .QuiescePending)
    {interrupt : Bool} (hok : s.pipelineIcacheAccesses c interrupt = .ok p) :
    p.2.prefetchBufferPC = (s.noteHeadLine c).prefetchBufferPC ∧
      p.2.pc = (s.noteHeadLine c).pc ∧ p.2.fetchStatus = s.fetchStatus := by
  have hst : (s.noteHeadLine c).fetchStatus = s.fetchStatus :=
    congrArg fetchStatus (noteHeadLine_keeps s).2.2
  obtain ⟨-, hs | hs | hs⟩ | rfl | ⟨line, rest, -, rfl⟩ := pipelineIcacheAccesses_cases hok
  · exact absurd hs h.1
  · exact absurd hs h.2
  · exact absurd hs hqu
  · exact ⟨rfl, rfl, hst⟩
  · exact ⟨rfl, rfl, hst⟩

theorem checkSignalsAndUpdate_noSquash {sig : Signals} (hco : sig.commitSquash = none)
    (hde : sig.decodeSquash = none) (h : s.Flowing)
    (hok : s.checkSignalsAndUpdate sig = .ok s') :
    ∃ status brseq seq, s' = { s with fetchStatus := status, brseq := brseq, seq := seq } ∧
      (s.fetchStatus = .QuiescePending → status = .QuiescePending) ∧ status ≠ .Squashing ∧
      s'.Flowing := by
  obtain ⟨newPC, brseq, seq, hsq, -⟩ | ⟨-, status, brseq, seq, rfl, -, hst⟩ :=
    checkSignalsAndUpdate_cases hok
  · simp [hco, hde] at hsq
  · refine ⟨status, brseq, seq, rfl, ?_⟩
    obtain ⟨rfl, hn⟩ | ⟨rfl | rfl, -, hn⟩ := hst
    · exact ⟨id, hn, h⟩
    · exact ⟨fun hq => absurd hq hn, by simp, by simp [Flowing]⟩
    · exact ⟨fun hq => absurd hq hn, by simp, by simp [Flowing]⟩

theorem fetch_status (hok : s.fetch c i = .ok s') :
    s'.fetchStatus = s.fetchStatus ∨ s'.fetchStatus = .Running ∨
      s'.fetchStatus = .QuiescePending := by
  obtain rfl | ⟨-, rfl⟩ | ⟨-, rfl | ⟨-, thisPC, s₁, hin, hle⟩⟩ := fetch_cases hok
  · exact .inl rfl
  · exact .inr (.inl rfl)
  · exact .inr (.inl rfl)
  · have hsa : s'.fetchStatus = s₁.fetchStatus := congrArg fetchStatus (leaveLine_keeps hle).2
    rw [hsa]
    obtain hic | hic := (readsHead_fetchInsts hin).icache
    · exact .inr (.inl (congrArg fetchStatus hic))
    · exact .inr (.inr (congrArg fetchStatus hic))

theorem addToFTQ_of_quiescePending (hst : s.fetchStatus = .QuiescePending)
    (hok : s.addToFTQ c answers = .ok s') : s' = s := by
  unfold addToFTQ at hok
  rw [if_pos (.inr (.inr hst))] at hok
  exact eq_of_ok hok

theorem recvReqRetry_of_flowing {accepted : Bool} (h : s.Flowing)
    (hok : s.recvReqRetry accepted = .ok p) :
    ∃ retryPkt, p.2 = { s with retryPkt := retryPkt, cacheBlocked := false } := by
  obtain ⟨-, rfl⟩ | ⟨-, -, rfl⟩ | ⟨hwa, -⟩ := recvReqRetry_cases hok
  · exact ⟨_, rfl⟩
  · exact ⟨_, rfl⟩
  · exact absurd hwa h.1

end Fetch

open Fetch

/-! ### Ticks after a squash -/

structure TickInput where
  signals : Fetch.Signals
  answers : Nat → Fetch.BlockAnswer
  input : Fetch.FetchInput
  interrupt : Bool

inductive TickCall (D : Type)
  | tick (t : TickInput)
  | between (a : FetchCall D)

namespace FetchRun

variable {s s' : FetchRun D}

/-- The part of `tick` before the lines are requested. -/
def runStage (c : FetchParams) (s : FetchRun D) (t : TickInput) :
    Except FetchFault (FetchRun D) := do
  let s ← s.step c (.checkSignalsAndUpdate t.signals)
  let s ← s.step c (.addToFTQ t.answers)
  s.step c (.fetch t.input)

def tick (c : FetchParams) (s : FetchRun D) (t : TickInput) : Except FetchFault (FetchRun D) := do
  let s ← s.runStage c t
  if s.fetch.fetchStatus = .Squashing then .ok s
  else s.step c (.pipelineIcacheAccesses t.interrupt)

/-- No entry waits for the translation of `r`. -/
def Discarded (s : FetchRun D) (r : Request) : Prop :=
  (s.fetch.memReq.isEmpty || !s.fetch.foundPC r)

instance (s : FetchRun D) (r : Request) : Decidable (s.Discarded r) :=
  inferInstanceAs (Decidable (_ = true))

/-- **No squash, no translation failure and no refusal** of a line that is still wanted. -/
def Undisturbed (s : FetchRun D) : TickCall D → Prop
  | .tick t => t.signals.commitSquash = none ∧ t.signals.decodeSquash = none
  | .between (.finishTranslation r result _) => result = .sent true ∨ s.Discarded r
  | .between (.finishTranslationEvent _) =>
    ∀ r ∈ s.fetch.finishTranslationEvent, s.Discarded r
  | .between (.processCacheCompletion _ _ _) => True
  | .between (.recvReqRetry _) => True
  | .between .wakeFromQuiesce => True
  | .between _ => False

def tickStep (c : FetchParams) (s : FetchRun D) : TickCall D → Except FetchFault (FetchRun D)
  | .tick t => s.tick c t
  | .between a => s.step c a

def tickPre (s : FetchRun D) : TickCall D → Prop
  | .tick _ => True
  | .between a => s.pre a

/-- The stage has just been squashed to `newPC`, by commit or by decode. -/
def SquashedTo (c : FetchParams) (newPC : PCState) (s : FetchRun D) : Prop :=
  ∃ s₀ sig, (system D c).Reachable s₀ ∧
    (sig.commitSquash = some newPC ∨
      (sig.commitSquash = none ∧ sig.decodeSquash = some newPC ∧
        s₀.fetch.fetchStatus ≠ .Squashing)) ∧
    s₀.step c (.checkSignalsAndUpdate sig) = .ok s

/-- **The undisturbed runs after a squash**, in ticks. -/
def ticks (D : Type) (c : FetchParams) (newPC : PCState) :
    System (FetchRun D) (TickCall D) FetchFault where
  init := SquashedTo c newPC
  step := tickStep c
  pre s a := s.tickPre a ∧ s.Undisturbed a

/-- The stage is not woken from a quiesce while no line is noted. -/
def WokenWithLines (s : FetchRun D) : TickCall D → Prop
  | .between .wakeFromQuiesce => s.fetch.prefetchBufferPC ≠ []
  | _ => True

/-- **What holds between ticks.** -/
structure Tracking (c : FetchParams) (s : FetchRun D) : Prop where
  reachable : (system D c).Reachable s
  onPath : s.fetch.OnPath c
  flowing : s.fetch.Flowing
  empty : s.fetch.prefetchBufferPC = [] → s.fetch.fetchStatus = .QuiescePending ∨ s.fetch.Restarted

theorem tracking_squashedTo {newPC : PCState} (hln : lineOf newPC.pc ≠ 0#64)
    (h : SquashedTo c newPC s) : s.Tracking c := by
  obtain ⟨s₀, sig, hs₀, hsi, hok⟩ := h
  have hre : (system D c).Reachable s := hs₀.next (a := .checkSignalsAndUpdate sig) trivial hok
  obtain ⟨f, hf, rfl⟩ := map_eq_ok.mp hok
  obtain ⟨pc, brseq, seq, hpc, rfl⟩ | ⟨⟨ho, hd⟩, -⟩ := checkSignalsAndUpdate_cases hf
  · obtain rfl : newPC = pc := by
      rcases hsi with ho | ⟨ho, hd, -⟩
      · simpa [ho] using hpc
      · simpa [ho, hd] using hpc
    refine ⟨hre, nofun, ⟨nofun, nofun⟩, fun _ => .inr ?_⟩
    exact ⟨rfl, rfl, rfl, rfl, rfl, hln⟩
  · rcases hsi with hs | ⟨-, hs, hst⟩
    · simp [hs] at ho
    · simp [hs, hst] at hd

section

variable (hc : c.fetchBufferSize = 64) {t : TickInput} {r : Request}

include hc

/-- **One tick reaches `pipelineIcacheAccesses` on the path.** -/
theorem Tracking.runStage (h : s.Tracking c) (hun : s.Undisturbed (.tick t))
    (hok : s.runStage c t = .ok s') :
    (system D c).Reachable s' ∧ s'.fetch.OnPath c ∧ s'.fetch.Flowing ∧
      s'.fetch.fetchStatus ≠ .Squashing := by
  have hdv : c.DividesLine := by
    unfold FetchParams.DividesLine
    rw [hc]
  obtain ⟨s₁, hsi, hok⟩ := bind_eq_ok.mp hok
  obtain ⟨s₂, had, hf⟩ := bind_eq_ok.mp hok
  have hr₁ : (system D c).Reachable s₁ :=
    h.reachable.next (a := .checkSignalsAndUpdate t.signals) trivial hsi
  have hr₂ : (system D c).Reachable s₂ := hr₁.next (a := .addToFTQ t.answers) trivial had
  have hr' : (system D c).Reachable s' := hr₂.next (a := .fetch t.input) trivial hf
  refine ⟨hr', ?_⟩
  have hle₂ := leading_reachable hdv hr₂
  obtain ⟨f₁, hf₁, rfl⟩ := map_eq_ok.mp hsi
  obtain ⟨f₂, hf₂, rfl⟩ := map_eq_ok.mp had
  obtain ⟨f', hf', rfl⟩ := map_eq_ok.mp hf
  obtain ⟨status, brseq, seq, rfl, hqu, hsq, hfl₁⟩ :=
    checkSignalsAndUpdate_noSquash hun.1 hun.2 h.flowing hf₁
  have hah := runsAhead_addToFTQ (P := fun _ => True) (fun _ _ => trivial)
    (fun _ => trivial) (fun _ => trivial) hf₂
  have hs₂ : f₂.fetchStatus = status := congrArg fetchStatus hah.icache
  have hon₂ : f₂.OnPath c := by
    by_cases hn : s.fetch.prefetchBufferPC = []
    · rcases h.empty hn with hq | he
      · rw [addToFTQ_of_quiescePending (hqu hq) hf₂]
        exact h.onPath
      · refine onPath_addToFTQ_of_restarted hc ?_ hf₂
        exact ⟨he.1, he.2, he.3, he.4, he.5, he.6⟩
    · exact Fetch.OnPath.runsAhead
        (s := { s.fetch with fetchStatus := status, brseq := brseq, seq := seq }) h.onPath hn hah
  refine ⟨onPath_fetch hc hle₂ hon₂ hf', ?_⟩
  have hfl₂ : f₂.Flowing := flowing_of_eq hfl₁ hs₂
  rcases fetch_status hf' with hs | hs | hs
  · exact ⟨flowing_of_eq hfl₂ hs, by rw [hs, hs₂]; exact hsq⟩
  · exact ⟨by simp [Flowing, hs], by simp [hs]⟩
  · exact ⟨by simp [Flowing, hs], by simp [hs]⟩

theorem Tracking.tick (h : s.Tracking c) (hun : s.Undisturbed (.tick t))
    (ho : s.tick c t = .ok s') : s'.Tracking c := by
  obtain ⟨s₁, hru, ho⟩ := bind_eq_ok.mp ho
  obtain ⟨hr, hon, hfl, hsq⟩ := h.runStage hc hun hru
  rw [if_neg hsq] at ho
  have hr' : (system D c).Reachable s' := hr.next (a := .pipelineIcacheAccesses t.interrupt) hsq ho
  obtain ⟨⟨r, f'⟩, hf', rfl⟩ := map_eq_ok.mp ho
  by_cases hq : s₁.fetch.fetchStatus = .QuiescePending
  · unfold pipelineIcacheAccesses at hf'
    rw [if_pos (.inr (.inr hq))] at hf'
    cases hf'
    exact ⟨hr', hon, hfl, fun _ => .inl hq⟩
  · obtain ⟨hn, hpc, hst⟩ := pipelineIcacheAccesses_noted hfl hq hf'
    refine ⟨hr', ?_, flowing_of_eq hfl hst, fun hni => ?_⟩
    · exact Fetch.OnPath.of_eq (onPath_noteHeadLine hon) hn hpc
    · exact absurd (hn.symm.trans hni) (noteHeadLine_ne_nil s₁.fetch)

omit hc in
theorem Tracking.of_lines (h : s.Tracking c) (hre : (system D c).Reachable s')
    (b : LineBuffers D) (side : IcacheSide)
    (heq : s'.fetch = { s.fetch with toLineBuffers := b, toIcacheSide := side })
    (hfl : s'.fetch.Flowing)
    (hqu : s.fetch.prefetchBufferPC = [] → s.fetch.fetchStatus = .QuiescePending →
      side.fetchStatus = .QuiescePending) : s'.Tracking c := by
  refine ⟨hre, ?_, hfl, fun hn => ?_⟩
  · rw [heq]
    exact h.onPath
  · rw [heq] at hn ⊢
    refine (h.empty hn).imp (hqu hn) fun hr => ?_
    exact ⟨hn, hr.prefPC, hr.lastAddrFetched, hr.lastProcessedLine, hr.fallThroughPrefPC,
      hr.line_ne⟩

theorem fetchBufferPC_eq_nil (h : (system D c).Reachable s) (hni : s.fetch.prefetchBufferPC = []) :
    s.fetch.fetchBufferPC = [] := by
  have hdv : c.DividesLine := by
    unfold FetchParams.DividesLine
    rw [hc]
  have hl := (leading_reachable hdv h).leading
  rw [hni] at hl
  exact prefix_nil.mp hl

theorem Tracking.finishTranslation (h : s.Tracking c) {result : Fetch.TranslationResult}
    {full : Bool} (hr : (system D c).Reachable s')
    (hre : result = .sent true ∨ s.Discarded r)
    (hok : s.endTranslation c r result full = .ok s') : s'.Tracking c := by
  obtain ⟨⟨ending, f⟩, hf, rfl⟩ := map_eq_ok.mp hok
  obtain ⟨-, heq⟩ | ⟨hli, hen⟩ := finishTranslation_cases hf
  · cases heq
    exact h.of_lines hr _ _ rfl h.flowing fun _ hq => hq
  obtain rfl | hdi := hre
  · cases hen with
    | accepted => exact h.of_lines hr _ _ rfl h.flowing fun _ hq => hq
    | acceptedAlone hl =>
      refine h.of_lines hr s.fetch.toLineBuffers
        { s.fetch.toIcacheSide with fetchStatus := .IcacheWaitResponse } rfl
        ⟨by simp, by simp⟩ fun hni => ?_
      rw [fetchBufferPC_eq_nil hc h.reachable hni] at hl
      cases hl
  · simp [Discarded, hli] at hdi

theorem Tracking.processCacheCompletion (h : s.Tracking c) {bytes : D} {stall : Bool}
    (hre : (system D c).Reachable s')
    (hok : s.step c (.processCacheCompletion r bytes stall) = .ok s') : s'.Tracking c := by
  obtain ⟨es, hes⟩ := inv_lines h.reachable
  obtain ⟨f, hf, rfl⟩ := map_eq_ok.mp hok
  obtain ⟨b, status, rfl, -, hfl⟩ := processCacheCompletion_eq hf
  obtain ⟨_, -, -, -, -, -, hst⟩ := processCacheCompletion_cases hes.shape hf
  refine h.of_lines hre _ { s.fetch.toIcacheSide with fetchStatus := status } rfl ?_ ?_
  · rcases hfl with hs | har
    · exact flowing_of_eq h.flowing hs
    · rw [har]
      cases stall <;> exact ⟨by simp [arrivedStatus], by simp [arrivedStatus]⟩
  · intro hni hq
    rcases hst with hs | hw | ⟨-, hhd⟩
    · exact hs.trans hq
    · rw [hq] at hw
      cases hw
    · -- The response is for the head line, but there is none.
      have hpc := fetchBufferPC_eq_nil hc h.reachable hni
      rw [hes.shape.pcs, map_eq_nil_iff] at hpc
      rw [hes.shape.reqs, hpc] at hhd
      cases hhd

theorem Tracking.step (h : s.Tracking c) {a : TickCall D} (hpr : s.tickPre a)
    (hu : s.Undisturbed a) (hwo : s.WokenWithLines a) (ho : s.tickStep c a = .ok s') :
    s'.Tracking c := by
  cases a with
  | tick t => exact h.tick hc hu ho
  | between a =>
    have hr : (system D c).Reachable s' := h.reachable.next hpr ho
    cases a with
    | checkSignalsAndUpdate sig => exact hu.elim
    | addToFTQ answers => exact hu.elim
    | fetch i => exact hu.elim
    | pipelineIcacheAccesses interrupt => exact hu.elim
    | finishTranslation r result full => exact h.finishTranslation hc hr hu ho
    | finishTranslationEvent full =>
      obtain rfl | ⟨r, hev, ho⟩ := step_event ho
      · exact h
      · -- The fault was deferred before the squash, which discarded its line.
        obtain ⟨p, hp, rfl⟩ := map_eq_ok.mp ho
        cases hp.symm.trans (if_pos (hu r hev))
        exact h.of_lines hr s.fetch.toLineBuffers
          { s.fetch.toIcacheSide with finishTranslationEvent := none } rfl h.flowing
          fun _ hq => hq
    | processCacheCompletion r bytes stall => exact h.processCacheCompletion hc hr ho
    | recvReqRetry accepted =>
      obtain ⟨p, hp, rfl⟩ := map_eq_ok.mp ho
      obtain ⟨retryPkt, heq⟩ := recvReqRetry_of_flowing h.flowing hp
      refine h.of_lines hr s.fetch.toLineBuffers
        { s.fetch.toIcacheSide with retryPkt := retryPkt, cacheBlocked := false }
        heq ?_ fun _ hq => hq
      exact flowing_of_eq h.flowing (by rw [heq])
    | wakeFromQuiesce =>
      cases ho
      exact h.of_lines hr s.fetch.toLineBuffers
        { s.fetch.toIcacheSide with fetchStatus := .Running } rfl
        ⟨by simp, by simp⟩ fun hni => absurd hni hwo

end

end FetchRun

/-- **The line stream follows the path.** The stage is squashed to a program counter outside
the first line and not woken from a quiesce while no line is noted: when a tick comes to
request lines, the first line noted is the program counter's. -/
theorem firstLine_of_wokenWithLines {newPC : PCState} {s s' : FetchRun D} {t : TickInput}
    (hc : c.fetchBufferSize = 64) (hline : lineOf newPC.pc ≠ 0#64)
    (h : ((FetchRun.ticks D c newPC).restrict FetchRun.WokenWithLines).Reachable s)
    (ht : s.Undisturbed (.tick t)) (hok : s.runStage c t = .ok s') :
    ∀ l ∈ s'.fetch.prefetchBufferPC.head?, l = lineOf s'.fetch.pc.pc &&& c.pcMask := by
  have htr : s.Tracking c := by
    refine h.invariant (fun s => s.Tracking c) ?_ ?_
    · intro s hs
      exact tracking_squashedTo hline hs
    · rintro s a s' hs ⟨⟨hpr, hun⟩, hwo⟩ hok
      exact hs.step hc hpr hun hwo hok
  exact (htr.runStage hc ht hok).2.1

/-- Commit squashes to `newPC`. -/
def squashSignals (newPC : PCState) : Fetch.Signals := ⟨some newPC, none, false⟩

theorem FetchRun.squashedTo_start {newPC : PCState} {s : FetchRun D} (pc : PCState)
    (hok : (FetchRun.start pc).step c (.checkSignalsAndUpdate (squashSignals newPC)) = .ok s) :
    SquashedTo c newPC s :=
  ⟨.start pc, squashSignals newPC, .start ⟨pc, rfl⟩, .inl rfl, hok⟩

/-- A tick that finds the block of 40 bytes at `branchPC - 0x24` in the target buffer. -/
def blockTick (branchPC : Base.Addr) : TickInput where
  signals := ⟨none, none, false⟩
  answers _ :=
    { bblValid := true, branchPC := .ofAddr branchPC, bblSize := 0x24#32, predictTaken := true
      target := .ofAddr 0x2000#64, advanced := .zero, isUncondOrIndirect := true }
  input := ⟨false, false, [], false⟩
  interrupt := false

/-- After a squash to `0x8020` the two lines of the block are noted. -/
theorem firstLine_twoLines :
    ∃ s s' : FetchRun Nat, ((FetchRun.ticks Nat .shortQueue (.ofAddr 0x8020#64)).restrict
        FetchRun.WokenWithLines).Reachable s ∧
      s.runStage .shortQueue (blockTick 0x8044#64) = .ok s' ∧
      s'.fetch.prefetchBufferPC = [0x8000#64, 0x8040#64] ∧
      ∀ l ∈ s'.fetch.prefetchBufferPC.head?,
        l = lineOf s'.fetch.pc.pc &&& FetchParams.shortQueue.pcMask := by
  obtain ⟨s, hs, hru⟩ := Succeeds.exists (show Succeeds (fun s : FetchRun Nat => Succeeds
      (fun s' : FetchRun Nat => s'.fetch.prefetchBufferPC = [0x8000#64, 0x8040#64])
      (s.runStage .shortQueue (blockTick 0x8044#64)))
    ((start (.ofAddr 0x8000#64)).step .shortQueue
      (.checkSignalsAndUpdate (squashSignals (.ofAddr 0x8020#64)))) by decide +kernel)
  obtain ⟨s', hs', hli⟩ := hru.exists
  have hr : ((ticks Nat .shortQueue (.ofAddr 0x8020#64)).restrict
      FetchRun.WokenWithLines).Reachable s := .start (squashedTo_start _ hs)
  exact ⟨s, s', hr, hs', hli, firstLine_of_wokenWithLines rfl (by decide) hr ⟨rfl, rfl⟩ hs'⟩

/-- **The first line of the address space is taken for one already noted**: after a squash to
`0x20` the block's second line comes first, and the program counter's line is never
requested. -/
theorem not_firstLine_lineZero :
    ∃ s s' : FetchRun Nat, (FetchRun.ticks Nat .shortQueue (.ofAddr 0x20#64)).Reachable s ∧
      s.Undisturbed (.tick (blockTick 0x44#64)) ∧
      s.runStage .shortQueue (blockTick 0x44#64) = .ok s' ∧
      s'.fetch.prefetchBufferPC.head? = some 0x40#64 ∧
      lineOf s'.fetch.pc.pc &&& FetchParams.shortQueue.pcMask = 0#64 := by
  obtain ⟨s, hs, hru⟩ := Succeeds.exists (show Succeeds (fun s : FetchRun Nat => Succeeds
      (fun s' : FetchRun Nat => s'.fetch.prefetchBufferPC.head? = some 0x40#64 ∧
        lineOf s'.fetch.pc.pc &&& FetchParams.shortQueue.pcMask = 0#64)
      (s.runStage .shortQueue (blockTick 0x44#64)))
    ((start (.ofAddr 0x8000#64)).step .shortQueue
      (.checkSignalsAndUpdate (squashSignals (.ofAddr 0x20#64)))) by decide +kernel)
  obtain ⟨s', hs', hfr, hln⟩ := hru.exists
  exact ⟨s, s', .start (squashedTo_start _ hs), ⟨rfl, rfl⟩, hs', hfr, hln⟩

end Gem5.Cpu.O3
