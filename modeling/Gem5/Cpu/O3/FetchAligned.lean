import Gem5.Cpu.O3.FetchLines

/-!
# Gem5.Cpu.O3.FetchAligned

**The requested lines are the first of the noted lines** (`Fetch.Leading`), provided that
a noted line is requested under its own address. The run-ahead notes 64-byte lines
whatever `fetchBufferSize` is, and a request is aligned to `fetchBufferSize`; so the
addresses agree when the fetch buffer divides a line (`aligned_add`, `aligned_lineOf`).
With a larger one the second half of a buffer is noted and the whole of it requested,
and the next call of `pipelineIcacheAccesses` fails.
-/

namespace Gem5.Cpu.O3

open BitVec List Fetch FetchRun Nat Option Gem5.Lib
open Gem5.Base (Addr)

variable {D : Type} {c : FetchParams} {es : List (LineEntry D)} {f : Fetch D}

/-! ### Alignment -/

def FetchParams.DividesLine (c : FetchParams) : Prop := c.fetchBufferSize ∣ 64

/-- A line is requested under its own address. -/
def FetchParams.Aligned (c : FetchParams) (l : Addr) : Prop := c.fetchBufferAlignPC l = l

theorem FetchParams.DividesLine.exists_pow (h : c.DividesLine) :
    ∃ k ≤ 6, c.fetchBufferSize = 2 ^ k :=
  (dvd_prime_pow prime_two).mp h

theorem getLsbD_fetchBufferAlignPC {k : Nat} (hk : c.fetchBufferSize = 2 ^ k) (a : Addr)
    (i : Nat) : (c.fetchBufferAlignPC a).getLsbD i = (a.getLsbD i && !decide (i < k)) := by
  unfold FetchParams.fetchBufferAlignPC
  rw [hk]
  have hms : (BitVec.ofNat 64 (2 ^ k - 1)).getLsbD i = (decide (i < 64) && decide (i < k)) := by
    rw [getLsbD_ofNat, testBit_two_pow_sub_one]
  rw [getLsbD_and, getLsbD_not, hms]
  by_cases hi : i < 64
  · simp [hi]
  · simp [getLsbD_of_ge a i (by omega)]

theorem aligned_iff {k : Nat} (hk : c.fetchBufferSize = 2 ^ k) {l : Addr} :
    c.Aligned l ↔ ∀ i < k, l.getLsbD i = false := by
  constructor
  · intro h i hi
    have hb := getLsbD_fetchBufferAlignPC hk l i
    rw [h] at hb
    simpa [hi] using hb
  · intro h
    refine eq_of_getLsbD_eq fun i _ => ?_
    rw [getLsbD_fetchBufferAlignPC hk]
    by_cases hi : i < k
    · simp [h i hi]
    · simp [hi]

theorem aligned_align (h : c.DividesLine) (a : Addr) : c.Aligned (c.fetchBufferAlignPC a) := by
  obtain ⟨k, -, hk⟩ := h.exists_pow
  rw [aligned_iff hk]
  intro i hi
  rw [getLsbD_fetchBufferAlignPC hk]
  simp [hi]

theorem aligned_lineOf (h : c.DividesLine) (a : Addr) : c.Aligned (lineOf a &&& c.pcMask) := by
  obtain ⟨k, hk6, hk⟩ := h.exists_pow
  rw [aligned_iff hk]
  intro i hi
  have hi6 : i < 6 := by omega
  simp [lineOf, hi6]

theorem aligned_add (h : c.DividesLine) (l : Addr) (hl : c.Aligned l) :
    c.Aligned (l + cacheLineSize) := by
  obtain ⟨k, hk6, hk⟩ := h.exists_pow
  rw [aligned_iff hk] at hl ⊢
  intro i hi
  have hb := hl i hi
  have h64 : cacheLineSize.toNat = 2 ^ 6 := rfl
  rw [← testBit_toNat] at hb ⊢
  rw [toNat_add, h64, testBit_mod_two_pow, add_comm,
    testBit_two_pow_add_gt (by omega), hb, Bool.and_false]

/-! ### The noted lines -/

theorem Fetch.restOf_eq_some {pcs lines rest : List Addr} :
    Fetch.restOf pcs lines = some rest ↔ lines = pcs ++ rest := by
  induction pcs generalizing lines with
  | nil => simp [restOf]
  | cons pc pcs ih =>
    cases lines with
    | nil => simp [restOf]
    | cons line lines =>
      unfold restOf
      by_cases hln : line = pc
      · simp [ih]
      · simp [hln]

namespace Fetch

variable {s s' : Fetch D}

/-- **The requested lines are the first of the noted lines**, all of them aligned. -/
structure Leading (c : FetchParams) (s : Fetch D) : Prop where
  leading : s.fetchBufferPC <+: s.prefetchBufferPC
  aligned : ∀ l ∈ s.prefetchBufferPC, c.Aligned l

section

variable (h : s.Leading c)

include h

theorem Leading.of_eq (hpc : s'.fetchBufferPC = s.fetchBufferPC)
    (hn : s'.prefetchBufferPC = s.prefetchBufferPC) : s'.Leading c := by
  refine ⟨?_, ?_⟩
  · rw [hpc, hn]
    exact h.leading
  · rw [hn]
    exact h.aligned

omit h in
theorem Leading.none (hpc : s.fetchBufferPC = []) (hn : s.prefetchBufferPC = []) : s.Leading c := by
  refine ⟨?_, ?_⟩
  · rw [hpc, hn]
  · rw [hn]
    simp

theorem Leading.runsAhead (hah : RunsAhead c.Aligned s s') : s'.Leading c := by
  obtain ⟨ls, hls, hal⟩ := hah.noted
  have hpc : s'.fetchBufferPC = s.fetchBufferPC := by rw [hah.buffers]
  refine ⟨?_, ?_⟩
  · rw [hpc, hls]
    exact h.leading.trans (prefix_append _ _)
  · rw [hls]
    intro l hl
    exact (mem_append.mp hl).elim (h.aligned l) (hal l)

theorem Leading.take (n : Nat) (hpc : s'.fetchBufferPC = s.fetchBufferPC.take n)
    (hn : s'.prefetchBufferPC = s.prefetchBufferPC.take n) : s'.Leading c := by
  refine ⟨?_, ?_⟩
  · rw [hpc, hn]
    exact h.leading.take n
  · rw [hn]
    exact fun l hl => h.aligned l (mem_of_mem_take hl)

theorem Leading.readsHead (hrd : ReadsHead s s') : s'.Leading c := by
  obtain ⟨hn, hl⟩ | ⟨hn, hl⟩ := hrd.lines
  · exact h.of_eq (congrArg (·.fetchBufferPC) hl) (congrArg (·.prefetchBufferPC) hn)
  · exact h.take 1 (congrArg (·.fetchBufferPC) hl) (congrArg (·.prefetchBufferPC) hn)

theorem Leading.tail (hpc : s'.fetchBufferPC = s.fetchBufferPC.tail)
    (hn : s'.prefetchBufferPC = s.prefetchBufferPC.tail) : s'.Leading c := by
  refine ⟨?_, ?_⟩
  · rw [hpc, hn]
    simpa only [drop_one] using h.leading.drop 1
  · rw [hn]
    exact fun l hl => h.aligned l (mem_of_mem_tail hl)

theorem leading_leaveLine {curMacroop : Bool} (hok : s.leaveLine c curMacroop = .ok s') :
    s'.Leading c := by
  obtain ⟨rfl, -⟩ | ⟨actual, rfl, -⟩ | rfl := leaveLine_cases hok
  · exact h
  · exact h.tail rfl rfl
  · exact .none rfl rfl

theorem leading_fetch {i : FetchInput} (hok : s.fetch c i = .ok s') : s'.Leading c := by
  have hr : { s with fetchStatus := .Running }.Leading c := h.of_eq rfl rfl
  obtain rfl | ⟨-, rfl⟩ | ⟨-, rfl | ⟨-, thisPC, s₁, hin, hle⟩⟩ := fetch_cases hok
  · exact h
  · exact hr
  · exact hr
  · have h₁ := hr.readsHead (readsHead_fetchInsts hin)
    exact leading_leaveLine (s := { s₁ with pc := thisPC }) (h₁.of_eq rfl rfl) hle

end

theorem leading_noteHeadLine (hc : c.DividesLine) (h : s.Leading c) :
    (s.noteHeadLine c).Leading c := by
  unfold noteHeadLine
  split
  · rename_i hem
    rw [List.isEmpty_iff] at hem
    have hpc : s.fetchBufferPC = [] := by
      have hle := h.leading
      rwa [hem, prefix_nil] at hle
    refine ⟨?_, ?_⟩
    · show s.fetchBufferPC <+: _
      rw [hpc]
      exact nil_prefix
    · intro l hl
      rw [mem_singleton.mp hl]
      exact aligned_lineOf hc _
  · exact h

theorem leading_pipelineIcacheAccesses (hc : c.DividesLine) (h : s.Leading c) {interrupt : Bool}
    {p : Option Request × Fetch D} (hok : s.pipelineIcacheAccesses c interrupt = .ok p) :
    p.2.Leading c := by
  have hn := leading_noteHeadLine hc h
  obtain ⟨rfl, -⟩ | rfl | ⟨line, rest, hr, rfl⟩ := pipelineIcacheAccesses_cases hok
  · exact h
  · exact hn
  · rw [restOf_eq_some] at hr
    have hln : c.fetchBufferAlignPC line = line := by
      refine hn.aligned line ?_
      rw [hr]
      simp
    refine ⟨?_, hn.aligned⟩
    show (s.noteHeadLine c).fetchBufferPC ++ [c.fetchBufferAlignPC line] <+:
      (s.noteHeadLine c).prefetchBufferPC
    rw [hln, hr, (noteHeadLine_keeps s).2.1]
    exact ⟨rest, by simp⟩

variable {r : Request}

theorem leading_finishTranslation {result : TranslationResult} {full : Bool}
    {p : TranslationEnd × Fetch D} (h : s.Leading c)
    (hok : s.finishTranslation c r result full = .ok p) : p.2.Leading c := by
  obtain ⟨-, rfl⟩ | ⟨-, hen⟩ := finishTranslation_cases hok
  · exact h
  obtain ⟨ending, f⟩ := p
  cases hen with
  | refusedAhead =>
    have hta := take_prefix (s.fetchBufferReqPtr.idxOf r) s.fetchBufferPC
    exact ⟨hta.trans h.leading, h.aligned⟩
  | discarded => exact h.take _ rfl rfl
  | _ => exact h.of_eq rfl rfl

theorem leading_checkSignalsAndUpdate {sig : Signals} (h : s.Leading c)
    (hok : s.checkSignalsAndUpdate sig = .ok s') : s'.Leading c := by
  obtain ⟨newPC, brseq, seq, -, rfl⟩ | ⟨-, status, brseq, seq, rfl, -⟩ :=
    checkSignalsAndUpdate_cases hok
  · exact .none rfl rfl
  · exact h.of_eq rfl rfl

end Fetch

/-! ### Every run -/

namespace FetchRun

variable {s s' : FetchRun D}

theorem leading_step {a : FetchCall D} (hc : c.DividesLine) (h : s.fetch.Leading c)
    (ho : s.step c a = .ok s') : s'.fetch.Leading c := by
  cases a with
  | checkSignalsAndUpdate sig =>
    obtain ⟨f, hf, rfl⟩ := map_eq_ok.mp ho
    exact leading_checkSignalsAndUpdate h hf
  | addToFTQ answers =>
    obtain ⟨f, hf, rfl⟩ := map_eq_ok.mp ho
    exact h.runsAhead (runsAhead_addToFTQ (aligned_add hc) (aligned_lineOf hc)
      (aligned_align hc) hf)
  | fetch i =>
    obtain ⟨f, hf, rfl⟩ := map_eq_ok.mp ho
    exact leading_fetch h hf
  | pipelineIcacheAccesses interrupt =>
    obtain ⟨p, hp, rfl⟩ := map_eq_ok.mp ho
    exact leading_pipelineIcacheAccesses hc h hp
  | finishTranslation r result full =>
    obtain ⟨p, hen, rfl⟩ := map_eq_ok.mp ho
    exact leading_finishTranslation h hen
  | finishTranslationEvent full =>
    obtain rfl | ⟨r, -, ho⟩ := step_event ho
    · exact h
    · obtain ⟨p, hen, rfl⟩ := map_eq_ok.mp ho
      exact leading_finishTranslation
        (s := { s.fetch with finishTranslationEvent := none }) (h.of_eq rfl rfl) hen
  | processCacheCompletion r bytes stall =>
    obtain ⟨f, hf, rfl⟩ := map_eq_ok.mp ho
    obtain ⟨b, status, rfl, hpc, -⟩ := processCacheCompletion_eq hf
    exact h.of_eq hpc rfl
  | recvReqRetry accepted =>
    obtain ⟨p, hp, rfl⟩ := map_eq_ok.mp ho
    obtain ⟨-, rfl⟩ | ⟨-, -, rfl⟩ | ⟨-, rfl | ⟨r, status, -, rfl⟩⟩ := recvReqRetry_cases hp
    all_goals exact h.of_eq rfl rfl
  | wakeFromQuiesce =>
    cases ho
    exact h.of_eq rfl rfl

theorem inv_lines (h : (system D c).Reachable s) : ∃ es, s.Inv es := by
  refine h.invariant (fun s => ∃ es, s.Inv es) ?_ ?_
  · rintro s ⟨pc, rfl⟩
    exact ⟨[], inv_start pc⟩
  · rintro s a s' ⟨es, hes⟩ hpr hok
    exact hes.step hpr hok

theorem leading_reachable (hc : c.DividesLine) (h : (system D c).Reachable s) :
    s.fetch.Leading c := by
  refine h.invariant (fun s => s.fetch.Leading c) ?_ ?_
  · rintro s ⟨pc, rfl⟩
    exact .none rfl rfl
  · rintro s a s' hle _ hok
    exact leading_step hc hle hok

end FetchRun

/-- **The line buffers go together**: four lists of one length, requested lines that are
the first of the noted ones, requests that all have an entry, and valid entries with the
bytes returned for their own request. -/
structure FetchRun.LinesTogether (c : FetchParams) (s : FetchRun D) : Prop where
  buffer_length : s.fetch.fetchBuffer.length = s.fetch.fetchBufferReqPtr.length
  pc_length : s.fetch.fetchBufferPC.length = s.fetch.fetchBufferReqPtr.length
  valid_length : s.fetch.fetchBufferValid.length = s.fetch.fetchBufferReqPtr.length
  leading : s.fetch.fetchBufferPC <+: s.fetch.prefetchBufferPC
  memReq_subset : ∀ r ∈ s.fetch.memReq, r ∈ s.fetch.fetchBufferReqPtr
  own_bytes : ∀ (i : Nat) r, s.fetch.fetchBufferValid[i]? = some true →
    s.fetch.fetchBufferReqPtr[i]? = some r →
    ∃ b, s.returned r = some b ∧ s.fetch.fetchBuffer[i]? = some (some b)
  pc_it_end : ∀ interrupt, s.fetch.pipelineIcacheAccesses c interrupt ≠ .error .pcItNotEnd
  req_it_found : ∀ r bytes stall, s.fetch.processCacheCompletion c r bytes stall ≠ .error .reqItEnd

theorem Fetch.pipelineIcacheAccesses_pcIt (hc : c.DividesLine) (h : f.Leading c)
    (interrupt : Bool) : f.pipelineIcacheAccesses c interrupt ≠ .error .pcItNotEnd := by
  obtain ⟨rest, hr⟩ := (leading_noteHeadLine hc h).leading
  have hso := restOf_eq_some.mpr hr.symm
  unfold pipelineIcacheAccesses
  split
  · simp
  simp only [hso]
  cases rest with
  | nil => simp
  | cons line rest => simp

theorem Fetch.processCacheCompletion_reqIt (h : f.toLineBuffers.Shape es) (r : Request) (bytes : D)
    (stall : Bool) : f.processCacheCompletion c r bytes stall ≠ .error .reqItEnd := by
  obtain ⟨status, hwa, -⟩ := stopWaiting_eq (c := c) (r := r) f stall
  unfold processCacheCompletion
  simp only [hwa]
  split
  · simp
  rename_i hm
  rw [Decidable.not_not] at hm
  obtain ⟨e, he, -, rfl⟩ := mem_unanswered.mp (h.pending.subset hm)
  unfold fillLine
  split
  · rename_i hn
    rw [h.pcs, h.reqs, zip_map', findIdx?_map, findIdx?_eq_none_iff] at hn
    have hmi := hn e he
    simp at hmi
  · split
    · simp
    · simp

theorem FetchRun.linesTogether {s : FetchRun D} (hc : c.DividesLine) (h : s.Inv es)
    (hl : s.fetch.Leading c) : s.LinesTogether c where
  buffer_length := by rw [h.shape.bytes, h.shape.reqs, length_map, length_map]
  pc_length := by rw [h.shape.pcs, h.shape.reqs, length_map, length_map]
  valid_length := by rw [h.shape.valids, h.shape.reqs, length_map, length_map]
  leading := hl.leading
  memReq_subset r hr := by
    obtain ⟨e, he, -, rfl⟩ := mem_unanswered.mp (h.shape.pending.subset hr)
    rw [h.shape.reqs]
    exact mem_map_of_mem he
  own_bytes i r hv hre := by
    rw [h.shape.valids, getElem?_map, map_eq_some_iff] at hv
    rw [h.shape.reqs, getElem?_map, map_eq_some_iff] at hre
    obtain ⟨e, he, htr⟩ := hv
    obtain ⟨e', he', rfl⟩ := hre
    obtain rfl : e = e' := some.inj (he.symm.trans he')
    obtain ⟨-, b, hby, hrt⟩ := h.filled e (mem_of_getElem? he) htr
    refine ⟨b, hrt, ?_⟩
    rw [h.shape.bytes, getElem?_map, he, map_some, hby]
  pc_it_end := pipelineIcacheAccesses_pcIt hc hl
  req_it_found := processCacheCompletion_reqIt h.shape

/-- **The line buffers go together in every state of every run** of a stage whose fetch
buffer divides a line. -/
theorem lines_together {s : FetchRun D} (hc : c.fetchBufferSize ∣ 64)
    (h : (FetchRun.system D c).Reachable s) : s.LinesTogether c := by
  obtain ⟨es, hes⟩ := inv_lines h
  exact linesTogether hc hes (leading_reachable hc h)

/-- Two lines are requested and both packets are sent; the second is answered first. -/
theorem lines_together_twoLines :
    FetchParams.shortQueue.fetchBufferSize ∣ 64 ∧
    ∃ s : FetchRun Nat, (FetchRun.system Nat .shortQueue).Reachable s ∧
      (s.fetch.memReq = [⟨0, 0x8000#64⟩] ∧ s.fetch.fetchBufferPC = [0x8000#64, 0x8040#64] ∧
        s.fetch.fetchBuffer = [none, some 7]) ∧ s.LinesTogether .shortQueue := by
  have hc : FetchParams.shortQueue.fetchBufferSize ∣ 64 := by decide
  refine ⟨hc, System.Reachable.exists_and_of_leads
    [.addToFTQ fun _ => ⟨false, .zero, 0#32, false, .zero, .zero, false⟩,
      .pipelineIcacheAccesses false, .pipelineIcacheAccesses false,
      .finishTranslation ⟨0, 0x8000#64⟩ (.sent true) false,
      .finishTranslation ⟨1, 0x8040#64⟩ (.sent true) false,
      .processCacheCompletion ⟨1, 0x8040#64⟩ 7 false]
    (.start ⟨.ofAddr 0x8000#64, rfl⟩) (by decide +kernel) fun s hs => lines_together hc hs⟩

/-- A fetch buffer of two lines, in a system with 128-byte cache blocks. -/
def FetchParams.wideBuffer : FetchParams :=
  { shortQueue with
    fetchBufferSize := 128
    cacheBlkSize := 128
    size_le := by decide
    size_mod := by decide }

/-- **A wide fetch buffer breaks the stage**: fetching starts in the second line of a
buffer, the line is noted, the buffer is requested, and the next call finds the requested
address among no noted lines. -/
theorem not_leading_wideBuffer :
    ∃ s : FetchRun Nat, (FetchRun.system Nat .wideBuffer).Reachable s ∧
      ¬ s.fetch.fetchBufferPC <+: s.fetch.prefetchBufferPC ∧
      s.fetch.pipelineIcacheAccesses .wideBuffer false = .error .pcItNotEnd := by
  have hst : (system Nat .wideBuffer).Reachable (.start (.ofAddr 0x8040#64)) := .start ⟨_, rfl⟩
  obtain ⟨s, hs, hpc, hno, hf⟩ := hst.exists_of_leads (p := fun s =>
      s.fetch.fetchBufferPC = [0x8000#64] ∧ s.fetch.prefetchBufferPC = [0x8040#64] ∧
      Faults .pcItNotEnd (s.fetch.pipelineIcacheAccesses .wideBuffer false))
    [.pipelineIcacheAccesses false] (by decide +kernel)
  refine ⟨s, hs, ?_, ?_⟩
  · rw [hpc, hno]
    decide
  · cases hc : s.fetch.pipelineIcacheAccesses .wideBuffer false with
    | ok p =>
      rw [hc] at hf
      exact hf.elim
    | error e =>
      rw [hc] at hf
      exact congrArg Except.error hf

end Gem5.Cpu.O3
