import Gem5.Cpu.O3.FetchRuns

/-!
# Gem5.Cpu.O3.FetchCases

**What each call of the stage does**, past its guards and early returns. The functions are
taken apart here once; the invariants of the stage are derived from these lemmas.
-/

namespace Gem5.Cpu.O3

open Gem5.Base (Addr)
open Gem5.Lib

variable {D : Type} {c : FetchParams}

namespace Fetch

variable {s s' : Fetch D} {i : FetchInput} {r : Request} {full : Bool}
  {p : Option Request × Fetch D}

/-! ### Fetching -/

theorem frontValid_of_frontReady (h : s.frontReady c = true) : s.frontValid :=
  (Bool.and_eq_true_iff.mp h).1

/-- **What a call of `fetch` does**: nothing, or note that the line has arrived, or read
the head line, which is valid then, and leave it. -/
theorem fetch_cases (ho : s.fetch c i = .ok s') :
    s' = s ∨
    (s.fetchStatus = .IcacheAccessComplete ∧ s' = { s with fetchStatus := .Running }) ∨
    ((s.fetchBufferValid = [] ∨ s.frontValid) ∧
      (s' = { s with fetchStatus := .Running } ∨ s.fetchBufferPC ≠ [] ∧ ∃ thisPC s₁,
        fetchInsts i.insts s.pc { s with fetchStatus := .Running } = .ok (thisPC, s₁) ∧
        leaveLine c { s₁ with pc := thisPC } i.curMacroop = .ok s')) := by
  have hln : { s with fetchStatus := .Running }.fetchLine c i = .ok s' →
      s' = { s with fetchStatus := .Running } ∨ s.fetchBufferPC ≠ [] ∧ ∃ thisPC s₁,
        fetchInsts i.insts s.pc { s with fetchStatus := .Running } = .ok (thisPC, s₁) ∧
        leaveLine c { s₁ with pc := thisPC } i.curMacroop = .ok s' := by
    intro ho
    unfold fetchLine at ho
    split at ho
    · exact .inl (eq_of_ok ho)
    · rename_i hn
      obtain ⟨⟨thisPC, s₁⟩, hin, ho⟩ := bind_eq_ok.mp ho
      exact .inr ⟨by simpa using hn, thisPC, s₁, hin, ho⟩
  unfold fetch at ho
  split at ho
  case h_1 hst =>
    simp only at ho
    split at ho
    · exact .inr (.inl ⟨hst, eq_of_ok ho⟩)
    · rename_i hfr
      refine .inr (.inr ⟨?_, hln ho⟩)
      simpa [frontValid, imp_iff_not_or] using hfr
  case h_2 hst =>
    split at ho
    · rw [guard_eq_ok] at ho
      exact .inl (eq_of_ok ho.2)
    split at ho
    · exact .inl (eq_of_ok ho)
    · rename_i hr _
      refine .inr (.inr ⟨.inr (frontValid_of_frontReady (by simpa using hr)), hln ?_⟩)
      rw [← hst]
      exact ho
  case h_3 => exact .inl (eq_of_ok ho)
  case h_4 => exact .inl (eq_of_ok ho)
  case h_5 =>
    split at ho
    · rename_i hr
      exact .inr (.inr ⟨.inr (frontValid_of_frontReady hr), hln ho⟩)
    · exact .inl (eq_of_ok ho)

/-- **What leaving a line does**: nothing, or drop the head line, or drop every line when the
next one noted is not that of the program counter. -/
theorem leaveLine_cases {curMacroop : Bool} (ho : s.leaveLine c curMacroop = .ok s') :
    (s' = s ∧ ∀ l ∈ s.fetchBufferPC.head?, l = s.fetchBufferExpectedPC c) ∨
    (∃ actual, s' = { s with
        fetchBufferPC := s.fetchBufferPC.tail, fetchBuffer := s.fetchBuffer.tail
        fetchBufferValid := s.fetchBufferValid.tail, fetchBufferReqPtr := s.fetchBufferReqPtr.tail
        prefetchBufferPC := s.prefetchBufferPC.tail, prefetchBufferActualPC := actual } ∧
      ∀ l ∈ s.prefetchBufferPC.tail.head?, l = s.fetchBufferExpectedPC c) ∨
    s' = { s.clearLines with
      lastProcessedLine := 0#64, lastAddrFetched := 0#64, fallThroughPrefPC := 0#64
      lastPrefPC := .zero } := by
  unfold leaveLine at ho
  simp only at ho
  split at ho
  · rename_i hn
    exact .inl ⟨eq_of_ok ho, by simp [hn]⟩
  rename_i hpc
  split at ho
  · rename_i hfr
    exact .inl ⟨eq_of_ok ho, by simp [hpc, hfr]⟩
  rw [guard_eq_ok] at ho
  obtain ⟨-, ho⟩ := ho
  split at ho
  · rename_i hn
    exact .inr (.inl ⟨_, eq_of_ok ho, by simp [hn]⟩)
  rename_i hno
  split at ho
  · rename_i hnx
    exact .inr (.inl ⟨_, eq_of_ok ho, by simp [hno, hnx]⟩)
  · exact .inr (.inr (eq_of_ok ho))

/-! ### Requesting lines -/

theorem noteHeadLine_keeps (s : Fetch D) :
    (s.noteHeadLine c).toFtq = s.toFtq ∧ (s.noteHeadLine c).toLineBuffers = s.toLineBuffers ∧
      (s.noteHeadLine c).toIcacheSide = s.toIcacheSide := by
  unfold noteHeadLine
  split
  · exact ⟨rfl, rfl, rfl⟩
  · exact ⟨rfl, rfl, rfl⟩

/-- **What a call of `pipelineIcacheAccesses` does**: nothing, or note the head line, and
then request the first noted line that is not requested. -/
theorem pipelineIcacheAccesses_cases {interrupt : Bool}
    (ho : s.pipelineIcacheAccesses c interrupt = .ok p) :
    (p = (none, s) ∧ (s.fetchStatus = .IcacheWaitRetry ∨ s.fetchStatus = .TrapPending ∨
      s.fetchStatus = .QuiescePending)) ∨
    p = (none, s.noteHeadLine c) ∨
    ∃ line rest, restOf s.fetchBufferPC (s.noteHeadLine c).prefetchBufferPC = some (line :: rest) ∧
      p = (some ⟨s.nextReq, c.fetchBufferAlignPC line⟩,
        (s.noteHeadLine c).pushRequest ⟨s.nextReq, c.fetchBufferAlignPC line⟩) := by
  have hb := (noteHeadLine_keeps (c := c) s).2.1
  unfold pipelineIcacheAccesses at ho
  split at ho
  · rename_i hst
    exact .inl ⟨eq_of_ok ho, hst⟩
  simp only at ho
  rw [hb] at ho
  split at ho
  · cases ho
  · exact .inr (.inl (eq_of_ok ho))
  · rename_i line rest hr
    unfold fetchCacheLine at ho
    split at ho
    · exact .inr (.inl (eq_of_ok ho))
    · rw [hb] at ho
      exact .inr (.inr ⟨line, rest, hr, eq_of_ok ho⟩)

/-! ### Translations, responses and retries -/

/-- The line of `r` and those after it are discarded. -/
def erased (s : Fetch D) (r : Request) : Fetch D :=
  { s with
    fetchBufferPC := s.fetchBufferPC.take (s.fetchBufferReqPtr.idxOf r)
    fetchBufferValid := s.fetchBufferValid.take (s.fetchBufferReqPtr.idxOf r)
    fetchBuffer := s.fetchBuffer.take (s.fetchBufferReqPtr.idxOf r)
    fetchBufferReqPtr := s.fetchBufferReqPtr.take (s.fetchBufferReqPtr.idxOf r)
    memReq := s.memReq.take (s.memReq.idxOf r) }

/-- **The ways the translation of a line in the buffers can end.** -/
inductive Ends (c : FetchParams) (s : Fetch D) (r : Request) (full : Bool) :
    TranslationResult → TranslationEnd → Fetch D → Prop
  | notMemory : Ends c s r full .notMemory .noGoodAddr
      { s with fetchStatus := .NoGoodAddr, memReq := s.memReq.dropLast }
  | accepted : Ends c s r full (.sent true) .accepted s
  | acceptedAlone (hlength : s.fetchBufferPC.length = 1) : Ends c s r full (.sent true) .accepted
      { s with fetchStatus := .IcacheWaitResponse }
  | refused (hhead : s.fetchBufferReqPtr.head? = some r) (hretry : s.retryPkt = none) :
      Ends c s r full (.sent false) .refused
        { s with fetchStatus := .IcacheWaitRetry, retryPkt := some r, cacheBlocked := true }
  | refusedAgain (hhead : s.fetchBufferReqPtr.head? = some r) (hretry : s.retryPkt ≠ none) :
      Ends c s r full (.sent false) .refused { s with cacheBlocked := true }
  | refusedAhead (hmem : r ∈ s.memReq) : Ends c s r full (.sent false) .refused
      { s.erased r with prefPC := .zero, lastPrefPC := .zero, cacheBlocked := true }
  | discarded (hmem : r ∈ s.memReq) : Ends c s r full .fault .discarded
      { s.erased r with
        prefetchBufferPC := s.prefetchBufferPC.take (s.fetchBufferReqPtr.idxOf r)
        prefetchBufferActualPC := s.prefetchBufferActualPC.take (s.fetchBufferReqPtr.idxOf r)
        prefPC := .zero
        lastPrefPC := .zero }
  | dropped (hpc : r.vaddr = s.fetchBufferExpectedPC c) (hfull : full = true)
      (hevent : s.finishTranslationEvent ≠ none) : Ends c s r full .fault .dropped s
  | deferred (hpc : r.vaddr = s.fetchBufferExpectedPC c)
      (hevent : s.finishTranslationEvent = none) : Ends c s r full .fault .deferred
        { s with finishTranslationEvent := some r }
  | trapped (hpc : r.vaddr = s.fetchBufferExpectedPC c) : Ends c s r full .fault .trapped
      { s with memReq := [], prefPC := .zero, seq := s.seq + 1, fetchStatus := .TrapPending }

theorem eraseFrom_eq (ho : s.eraseFrom r = .ok s') : r ∈ s.memReq ∧ s' = s.erased r := by
  unfold eraseFrom at ho
  rw [guard_eq_ok, Decidable.not_not] at ho
  exact ho.imp_right fun ho => eq_of_ok ho

theorem ends_of_packetRefused (ho : s.packetRefused c r = .ok s') :
    Ends c s r full (.sent false) .refused s' := by
  unfold packetRefused at ho
  split at ho
  · rename_i hhd
    split at ho
    · cases ho
      exact .refused hhd.2 ‹_›
    · cases ho
      exact .refusedAgain hhd.2 ‹_›
  · obtain ⟨s₁, her, ho⟩ := bind_eq_ok.mp ho
    obtain ⟨hme, rfl⟩ := eraseFrom_eq her
    cases ho
    exact .refusedAhead hme

theorem ends_of_faultAhead (ho : s.faultAhead r = .ok s') :
    Ends c s r full .fault .discarded s' := by
  unfold faultAhead at ho
  rw [guard_eq_ok] at ho
  obtain ⟨s₁, her, ho⟩ := bind_eq_ok.mp ho.2
  obtain ⟨hme, rfl⟩ := eraseFrom_eq her
  cases ho
  exact .discarded hme

theorem finishTranslation_cases {result : TranslationResult} {p : TranslationEnd × Fetch D}
    (ho : s.finishTranslation c r result full = .ok p) :
    ((s.memReq = [] ∨ s.foundPC r = false) ∧ p = (.ignored, s)) ∨
    ((s.memReq ≠ [] ∧ s.foundPC r = true) ∧ Ends c s r full result p.1 p.2) := by
  unfold finishTranslation at ho
  split at ho
  · rename_i hig
    exact .inl ⟨by simpa using hig, eq_of_ok ho⟩
  rename_i hli
  refine .inr ⟨by simpa using hli, ?_⟩
  split at ho
  · cases ho
    exact .notMemory
  · cases ho
    unfold packetAccepted
    split
    · rename_i hal
      exact .acceptedAlone hal.2
    · exact .accepted
  · obtain ⟨f, hf, rfl⟩ := map_eq_ok.mp ho
    exact ends_of_packetRefused hf
  · split at ho
    · obtain ⟨f, hf, rfl⟩ := map_eq_ok.mp ho
      exact ends_of_faultAhead hf
    · rename_i hp
      rw [Decidable.not_not] at hp
      cases ho
      unfold faultHere
      split
      · split
        · rename_i hfl hev
          exact .dropped hp hfl (Option.isSome_iff_ne_none.mp hev)
        · rename_i hev
          exact .deferred hp (by simpa using hev)
      · exact .trapped hp

theorem stopWaiting_eq (s : Fetch D) (stall : Bool) :
    ∃ status, s.stopWaiting c r stall = { s with fetchStatus := status } ∧
      (status = s.fetchStatus ∨
        s.fetchStatus = .IcacheWaitResponse ∧ status = arrivedStatus stall) := by
  unfold stopWaiting
  split
  · rename_i hwa
    exact ⟨_, rfl, .inr ⟨hwa.1, rfl⟩⟩
  · exact ⟨_, rfl, .inl rfl⟩

theorem processCacheCompletion_eq {bytes : D} {stall : Bool}
    (ho : s.processCacheCompletion c r bytes stall = .ok s') :
    ∃ b status, s' = { s with toLineBuffers := b, fetchStatus := status } ∧
      b.fetchBufferPC = s.fetchBufferPC ∧
      (status = s.fetchStatus ∨ status = arrivedStatus stall) := by
  obtain ⟨status, hwa, hs⟩ := stopWaiting_eq (c := c) (r := r) s stall
  have hs' := hs.imp_right And.right
  unfold processCacheCompletion at ho
  simp only [hwa] at ho
  split at ho
  · cases ho
    exact ⟨_, _, rfl, rfl, hs'⟩
  unfold fillLine at ho
  split at ho
  · cases ho
  rw [guard_eq_ok] at ho
  obtain ⟨-, ho⟩ := ho
  cases ho
  refine ⟨_, _, rfl, rfl, ?_⟩
  split
  · exact .inr rfl
  · exact hs'

/-- **A retry**: the packet kept is sent, or given up when fetch no longer waits for it. -/
theorem recvReqRetry_cases {accepted : Bool} (ho : s.recvReqRetry accepted = .ok p) :
    (s.retryPkt = none ∧ p = (none, { s with cacheBlocked := false })) ∨
    (s.retryPkt ≠ none ∧ s.fetchStatus ≠ .IcacheWaitRetry ∧
      p = (none, { s with retryPkt := none, cacheBlocked := false })) ∨
    (s.fetchStatus = .IcacheWaitRetry ∧ (p = (none, s) ∨ ∃ r status, s.retryPkt = some r ∧
      p = (some r, { s with fetchStatus := status, retryPkt := none, cacheBlocked := false }))) := by
  unfold recvReqRetry at ho
  split at ho
  · rename_i hr
    exact .inl ⟨hr, eq_of_ok ho⟩
  rename_i r hr
  split at ho
  · rename_i hst
    exact .inr (.inl ⟨by simp [hr], hst, eq_of_ok ho⟩)
  rename_i hst
  refine .inr (.inr ⟨Decidable.not_not.mp hst, ?_⟩)
  rw [guard_eq_ok] at ho
  obtain ⟨-, ho⟩ := ho
  split at ho
  · exact .inl (eq_of_ok ho)
  split at ho
  · cases ho
  · exact .inr ⟨r, _, hr, eq_of_ok ho⟩

/-! ### Signals -/

/-- The stage after a squash to `newPC`. -/
def squashed (s : Fetch D) (newPC : PCState) (brseq seq : Nat) : Fetch D :=
  { s.clearQueue.clearLines with
    prefPC := newPC, lastPrefPC := newPC, lastProcessedLine := 0#64, lastAddrFetched := 0#64
    fallThroughPrefPC := 0#64, pc := newPC, retryPkt := none, fetchStatus := .Squashing
    brseq := brseq, seq := seq }

theorem doSquash_eq {newPC : PCState} (hok : s.doSquash newPC = .ok s') :
    s' = s.squashed newPC s.brseq s.seq := by
  unfold doSquash at hok
  rw [guard_eq_ok] at hok
  exact eq_of_ok hok.2

/-- Without a squash the signals change the status. A stage that waits for a retry or is
quiesced goes on so, and none is left squashing. -/
theorem checkHeadLine_checkStall (s : Fetch D) (brseq seq : Nat) (stall : Bool) :
    ∃ status, { s.checkHeadLine with brseq := brseq, seq := seq }.checkStallAndUpdate stall =
        { s with fetchStatus := status, brseq := brseq, seq := seq } ∧
      (status = s.fetchStatus ∧ status ≠ .Squashing ∨
        (status = .Running ∨ status = .Blocked) ∧ s.fetchStatus ≠ .IcacheWaitRetry ∧
          s.fetchStatus ≠ .QuiescePending) := by
  have hhd : ∃ status, s.checkHeadLine = { s with fetchStatus := status } ∧
      (status = s.fetchStatus ∨ status = .Running ∧ s.fetchStatus ≠ .IcacheWaitRetry ∧
        s.fetchStatus ≠ .QuiescePending) := by
    unfold checkHeadLine
    split
    · rename_i ht
      refine ⟨_, rfl, .inr ⟨rfl, ?_⟩⟩
      rcases ht.1 with ht | ht <;> simp [ht]
    · exact ⟨_, rfl, .inl rfl⟩
  obtain ⟨status, heq, ht⟩ := hhd
  rw [heq]
  unfold checkStallAndUpdate
  split
  · rename_i hsa
    refine ⟨.Blocked, rfl, .inr ⟨.inr rfl, ?_⟩⟩
    rcases ht with rfl | ⟨-, hn⟩
    · exact ⟨hsa.2.2.2.1, hsa.2.2.2.2.2⟩
    · exact hn
  split
  · rename_i hg
    refine ⟨.Running, rfl, .inr ⟨.inl rfl, ?_⟩⟩
    rcases ht with rfl | ⟨-, hn⟩
    · rcases hg with hg | hg <;> simp at hg <;> simp [hg]
    · exact hn
  · rename_i hg
    refine ⟨status, rfl, ?_⟩
    rcases ht with rfl | ⟨rfl, hn⟩
    · exact .inl ⟨rfl, fun hs => hg (.inr hs)⟩
    · exact .inr ⟨.inl rfl, hn⟩

/-- **What the signals do**: squash, or change the status. -/
theorem checkSignalsAndUpdate_cases {sig : Signals} (ho : s.checkSignalsAndUpdate sig = .ok s') :
    (∃ newPC brseq seq, (sig.commitSquash = some newPC ∨
        sig.commitSquash = none ∧ sig.decodeSquash = some newPC) ∧
      s' = s.squashed newPC brseq seq) ∨
    (sig.commitSquash = none ∧ (sig.decodeSquash = none ∨ s.fetchStatus = .Squashing)) ∧
      ∃ status brseq seq, s' = { s with fetchStatus := status, brseq := brseq, seq := seq } ∧
        (seq = s.seq ∨ seq = s.seq + 1) ∧
        (status = s.fetchStatus ∧ status ≠ .Squashing ∨
          (status = .Running ∨ status = .Blocked) ∧ s.fetchStatus ≠ .IcacheWaitRetry ∧
            s.fetchStatus ≠ .QuiescePending) := by
  have hhd : ∃ status, s.checkHeadLine = { s with fetchStatus := status } ∧
      (status = .Squashing → s.fetchStatus = .Squashing) := by
    unfold checkHeadLine
    split
    · exact ⟨_, rfl, by simp⟩
    · exact ⟨_, rfl, id⟩
  obtain ⟨status, he, hsq⟩ := hhd
  have hup := checkHeadLine_checkStall s
  simp only [he] at hup
  unfold checkSignalsAndUpdate at ho
  simp only [he] at ho
  split at ho
  · rename_i newPC hc
    obtain ⟨s₁, hss, rfl⟩ := bind_ok.mp ho
    rw [doSquash_eq hss]
    exact .inl ⟨newPC, _, _, .inl hc, rfl⟩
  rename_i hc
  split at ho
  · rename_i newPC hd
    split at ho
    · rw [doSquash_eq ho]
      exact .inl ⟨newPC, _, _, .inr ⟨hc, hd⟩, rfl⟩
    · rename_i hs
      obtain ⟨status', he', hs'⟩ := hup s.seq (s.seq + 1) sig.stall
      cases ho
      rw [he']
      exact .inr ⟨⟨hc, .inr (hsq (Decidable.not_not.mp hs))⟩, status', _, _, rfl, .inr rfl, hs'⟩
  · rename_i hd
    obtain ⟨status', he', hs'⟩ := hup s.brseq s.seq sig.stall
    cases ho
    exact .inr ⟨⟨hc, .inl hd⟩, status', s.brseq, s.seq, he', .inl rfl, hs'⟩

end Fetch

theorem FetchRun.step_event {s s' : FetchRun D} {full : Bool}
    (ho : s.step c (.finishTranslationEvent full) = .ok s') :
    s' = s ∨ ∃ r, s.fetch.finishTranslationEvent = some r ∧
      { s with fetch := { s.fetch with finishTranslationEvent := none } }.endTranslation c r .fault
        full = .ok s' := by
  unfold step at ho
  simp only at ho
  split at ho
  · exact .inl (eq_of_ok ho)
  · exact .inr ⟨_, ‹_›, ho⟩

end Gem5.Cpu.O3
