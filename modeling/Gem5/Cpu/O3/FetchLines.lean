import Gem5.Lib.ListCut
import Gem5.Cpu.O3.FetchTargets

/-!
# Gem5.Cpu.O3.FetchLines

**The line buffers are one list of lines.** The four lists of requested lines are
the columns of one list of entries (`LineBuffers.Columns`), and `memReq` holds
unanswered ones of them in the same order. Every function of the stage either adds
an entry at the back, fills one, or drops entries (`Drops`): the front one once it is
valid, those behind the front, those from a given request on, or all of them.
-/

namespace Gem5.Cpu.O3

open Function List Fetch Nat Gem5.Lib
open Gem5.Base (Addr)

structure LineEntry (D : Type) where
  req : Request
  valid : Bool
  bytes : Option D

variable {D : Type}

def unanswered (es : List (LineEntry D)) : List Request := (es.filter (!·.valid)).map (·.req)

theorem mem_unanswered {es : List (LineEntry D)} {r : Request} :
    r ∈ unanswered es ↔ ∃ e ∈ es, e.valid = false ∧ e.req = r := by
  simp [unanswered, and_assoc]

structure LineBuffers.Columns (b : LineBuffers D) (es : List (LineEntry D)) : Prop where
  reqs : b.fetchBufferReqPtr = es.map (·.req)
  pcs : b.fetchBufferPC = es.map (·.req.vaddr)
  valids : b.fetchBufferValid = es.map (·.valid)
  bytes : b.fetchBuffer = es.map (·.bytes)

/-- The columns of a list without repetition, with `memReq` beside them. -/
structure LineBuffers.Shape (b : LineBuffers D) (es : List (LineEntry D)) : Prop extends
    b.Columns es where
  nodup : (es.map (·.req)).Nodup
  pending : b.memReq.Sublist (unanswered es)

/-- **Dropping lines.** What is left is in order, keeps its place in `memReq`, and an
unanswered front line stays in front as long as anything is left. -/
structure Drops (b : LineBuffers D) (es : List (LineEntry D)) (b' : LineBuffers D)
    (es' : List (LineEntry D)) : Prop where
  columns : b'.Columns es'
  sublist : es'.Sublist es
  pending : b'.memReq.Sublist (unanswered es')
  kept : ∀ e ∈ es', e.valid = false → e.req ∈ b.memReq → e.req ∈ b'.memReq
  front : ∀ e ∈ es.head?, e.valid = false → es' = [] ∨ es'.head? = some e
  nextReq : b'.nextReq = b.nextReq

namespace Drops

variable {b b' b'' : LineBuffers D} {es es' es'' : List (LineEntry D)}

theorem refl (h : b.Shape es) : Drops b es b es where
  columns := h.toColumns
  sublist := .refl es
  pending := h.pending
  kept _ _ _ hme := hme
  front _ he _ := .inr he
  nextReq := rfl

theorem trans (h : Drops b es b' es') (h' : Drops b' es' b'' es'') : Drops b es b'' es'' where
  columns := h'.columns
  sublist := h'.sublist.trans h.sublist
  pending := h'.pending
  kept e he hv hme := h'.kept e he hv (h.kept e (h'.sublist.subset he) hv hme)
  front e he hv := by
    rcases h.front e he hv with rfl | hhd
    · exact .inl (sublist_nil.mp h'.sublist)
    · exact h'.front e hhd hv
  nextReq := h'.nextReq.trans h.nextReq

theorem all (hco : b'.Columns []) (hme : b'.memReq = []) (hnx : b'.nextReq = b.nextReq) :
    Drops b es b' [] where
  columns := hco
  sublist := es.nil_sublist
  pending := by rw [hme]; exact nil_sublist _
  kept e he := by cases he
  front _ _ _ := .inl rfl
  nextReq := hnx

theorem shape (h : Drops b es b' es') (hsh : b.Shape es) : b'.Shape es' :=
  { h.columns with
    nodup := (h.sublist.map _).nodup hsh.nodup
    pending := h.pending }

end Drops

/-! ### Reading the head line -/

def NotedLines.head (n : NotedLines) : NotedLines :=
  ⟨n.prefetchBufferPC.take 1, n.prefetchBufferActualPC.take 1⟩

/-- The lines behind the head are dropped, and no answer is awaited. -/
def LineBuffers.head (b : LineBuffers D) : LineBuffers D :=
  { b with
    fetchBuffer := b.fetchBuffer.take 1
    fetchBufferPC := b.fetchBufferPC.take 1
    fetchBufferReqPtr := b.fetchBufferReqPtr.take 1
    fetchBufferValid := b.fetchBufferValid.take 1
    memReq := [] }

namespace Fetch

variable {c : FetchParams} {s s' s₁ s₂ s₃ : Fetch D} {es : List (LineEntry D)}

/-- **What reading the head line does** outside the target queue: the lines behind it may be
dropped, and a quiesce may be pending. -/
structure ReadsHead (s s' : Fetch D) : Prop where
  lines : (s'.toNotedLines = s.toNotedLines ∧ s'.toLineBuffers = s.toLineBuffers) ∨
    (s'.toNotedLines = s.toNotedLines.head ∧ s'.toLineBuffers = s.toLineBuffers.head)
  icache : s'.toIcacheSide = s.toIcacheSide ∨
    s'.toIcacheSide = { s.toIcacheSide with fetchStatus := .QuiescePending }

theorem ReadsHead.trans (h : ReadsHead s₁ s₂) (h' : ReadsHead s₂ s₃) : ReadsHead s₁ s₃ := by
  refine ⟨?_, ?_⟩
  · obtain ⟨hn, hl⟩ | ⟨hn, hl⟩ := h.lines
    · rw [← hn, ← hl]
      exact h'.lines
    · have ht := h'.lines
      simp only [hn, hl, NotedLines.head, LineBuffers.head, take_take, min_self, or_self] at ht
      exact .inr ht
  · obtain hic | hic := h.icache
    · rw [← hic]
      exact h'.icache
    · have ht := h'.icache
      simp only [hic, or_self] at ht
      exact .inr ht

variable {p : PCState × Fetch D} {a : InstAnswer} {i : FetchInput} {r : Request} {bytes : D}

theorem readsHead_invokePredictor (hok : s.invokePredictor a = .ok p) : ReadsHead s p.2 := by
  obtain ⟨s₁, hf, rfl⟩ := map_eq_ok.mp hok
  unfold flushBehindHead at hf
  split at hf
  · cases hf
  · cases hf
    exact ⟨.inr ⟨rfl, rfl⟩, .inl rfl⟩

theorem readsHead_lookupAndUpdateNextPC {thisPC : PCState}
    (ho : s.lookupAndUpdateNextPC thisPC a = .ok p) : ReadsHead s p.2 := by
  unfold lookupAndUpdateNextPC at ho
  split at ho
  · cases ho
    exact ⟨.inl ⟨rfl, rfl⟩, .inl rfl⟩
  split at ho
  · exact readsHead_invokePredictor ho
  · split at ho
    · have hrd := readsHead_invokePredictor ho
      exact ⟨hrd.lines, hrd.icache⟩
    · cases ho
      exact ⟨.inl ⟨rfl, rfl⟩, .inl rfl⟩
  · cases ho

theorem readsHead_fetchInsts :
    ∀ {insts : List InstAnswer} {thisPC : PCState} {s : Fetch D} {p : PCState × Fetch D},
      fetchInsts insts thisPC s = .ok p → ReadsHead s p.2 := by
  intro insts
  induction insts with
  | nil =>
    intro thisPC s p ho
    cases ho
    exact ⟨.inl ⟨rfl, rfl⟩, .inl rfl⟩
  | cons a insts ih =>
    intro thisPC s p ho
    obtain ⟨⟨nextPC, s₁⟩, hlo, ho⟩ := bind_eq_ok.mp ho
    have hrd := readsHead_lookupAndUpdateNextPC hlo
    simp only at ho
    split at ho
    · cases ho
      exact hrd.trans ⟨.inl ⟨rfl, rfl⟩, .inr rfl⟩
    · exact hrd.trans (ih ho)

def HeadValid (es : List (LineEntry D)) : Prop := ∀ e ∈ es.head?, e.valid

theorem headValid_take (h : HeadValid es) : HeadValid (es.take 1) := by
  cases es with
  | nil => exact h
  | cons e es => exact h

section

variable (h : s.toLineBuffers.Shape es)

include h

theorem drops_head (hhd : HeadValid es) :
    Drops s.toLineBuffers es s.toLineBuffers.head (es.take 1) where
  columns := by
    simp only [LineBuffers.head, h.reqs, h.pcs, h.valids, h.bytes, ← map_take]
    exact ⟨rfl, rfl, rfl, rfl⟩
  sublist := take_sublist _ _
  pending := nil_sublist _
  kept e he hnv := by
    cases es with
    | nil => cases he
    | cons e' es =>
      obtain rfl : e = e' := by simpa using he
      exact absurd (hhd e rfl) (by simp [hnv])
  front e he hnv := absurd (hhd e he) (by simp [hnv])
  nextReq := rfl

omit h in
theorem ReadsHead.drops (hrd : ReadsHead s s') (h : s.toLineBuffers.Shape es) (hhd : HeadValid es) :
    ∃ es', Drops s.toLineBuffers es s'.toLineBuffers es' ∧ HeadValid es' := by
  obtain ⟨-, hl⟩ | ⟨-, hl⟩ := hrd.lines
  · rw [hl]
    exact ⟨es, .refl h, hhd⟩
  · rw [hl]
    exact ⟨_, drops_head h hhd, headValid_take hhd⟩

theorem drops_tail (hhd : HeadValid es) (hrq : s'.fetchBufferReqPtr = s.fetchBufferReqPtr.tail)
    (hpc : s'.fetchBufferPC = s.fetchBufferPC.tail)
    (hva : s'.fetchBufferValid = s.fetchBufferValid.tail)
    (hby : s'.fetchBuffer = s.fetchBuffer.tail) (hm : s'.memReq = s.memReq)
    (hnx : s'.nextReq = s.nextReq) : Drops s.toLineBuffers es s'.toLineBuffers es.tail where
  columns := by
    refine ⟨?_, ?_, ?_, ?_⟩
    · rw [hrq, h.reqs, map_tail]
    · rw [hpc, h.pcs, map_tail]
    · rw [hva, h.valids, map_tail]
    · rw [hby, h.bytes, map_tail]
  sublist := tail_sublist es
  pending := by
    rw [hm]
    have hp := h.pending
    cases es with
    | nil => exact hp
    | cons e es =>
      -- A valid line is not in `memReq`, so nothing is lost there.
      have hvl := hhd e rfl
      simpa [unanswered, hvl] using hp
  kept _ _ _ hre := hm ▸ hre
  front e he hnv := absurd (hhd e he) (by simp [hnv])
  nextReq := hnx

theorem drops_leaveLine {curMacroop : Bool} (hhd : HeadValid es)
    (hok : s.leaveLine c curMacroop = .ok s') :
    ∃ es', Drops s.toLineBuffers es s'.toLineBuffers es' := by
  obtain ⟨rfl, -⟩ | ⟨actual, rfl, -⟩ | rfl := leaveLine_cases hok
  · exact ⟨es, .refl h⟩
  · exact ⟨es.tail, drops_tail h hhd rfl rfl rfl rfl rfl rfl⟩
  · exact ⟨[], .all ⟨rfl, rfl, rfl, rfl⟩ rfl rfl⟩

theorem headValid_of_frontValid (hfr : s.fetchBufferValid = [] ∨ s.frontValid) : HeadValid es := by
  intro e he
  cases es with
  | nil => cases he
  | cons e' es =>
    unfold frontValid at hfr
    rw [h.valids] at hfr
    obtain rfl : e' = e := by simpa using he
    simpa using hfr

theorem drops_fetch (hok : s.fetch c i = .ok s') :
    ∃ es', Drops s.toLineBuffers es s'.toLineBuffers es' := by
  obtain rfl | ⟨-, rfl⟩ | ⟨hfr, rfl | ⟨-, thisPC, s₁, hin, hle⟩⟩ := fetch_cases hok
  · exact ⟨es, .refl h⟩
  · exact ⟨es, .refl h⟩
  · exact ⟨es, .refl h⟩
  · obtain ⟨es₁, hd, hhd₁⟩ := (readsHead_fetchInsts hin).drops h (headValid_of_frontValid h hfr)
    obtain ⟨es₂, hd₂⟩ := drops_leaveLine (s := { s₁ with pc := thisPC }) (hd.shape h) hhd₁ hle
    exact ⟨es₂, hd.trans hd₂⟩

end

def StatusOnly (s s' : Fetch D) : Prop :=
  ∃ status, s'.toIcacheSide = { s.toIcacheSide with fetchStatus := status }

theorem StatusOnly.refl (s : Fetch D) : StatusOnly s s := ⟨_, rfl⟩

theorem StatusOnly.trans (h : StatusOnly s₁ s₂) (h' : StatusOnly s₂ s₃) : StatusOnly s₁ s₃ := by
  obtain ⟨x, hx⟩ := h
  obtain ⟨y, hy⟩ := h'
  exact ⟨y, by rw [hy, hx]⟩

theorem ReadsHead.statusOnly (h : ReadsHead s s') : StatusOnly s s' := by
  obtain hic | hic := h.icache
  · exact ⟨_, hic⟩
  · exact ⟨_, hic⟩

theorem statusOnly_fetch (hok : s.fetch c i = .ok s') : StatusOnly s s' := by
  obtain rfl | ⟨-, rfl⟩ | ⟨-, rfl | ⟨-, thisPC, s₁, hin, hle⟩⟩ := fetch_cases hok
  · exact .refl _
  · exact ⟨_, rfl⟩
  · exact ⟨_, rfl⟩
  · have hst : StatusOnly s { s with fetchStatus := .Running } := ⟨_, rfl⟩
    exact (hst.trans (readsHead_fetchInsts hin).statusOnly).trans ⟨_, (leaveLine_keeps hle).2⟩

/-! ### Discarding lines -/

theorem drops_erased (h : s.toLineBuffers.Shape es) (hm : r ∈ s.memReq) :
    Drops s.toLineBuffers es (s.erased r).toLineBuffers (es.takeWhile (·.req ≠ r)) := by
  have hnv : ∀ e ∈ es, e.req = r → (!e.valid) := by
    obtain ⟨e', he', hv', rfl⟩ := mem_unanswered.mp (h.pending.subset hm)
    intro e he hr
    rw [inj_on_of_nodup_map h.nodup he he' hr, hv']
    rfl
  have hc : cutAt r (unanswered es) = unanswered (es.takeWhile (·.req ≠ r)) := cutAt_map_filter hnv
  have hnd : (unanswered es).Nodup := (filter_sublist.map _).nodup h.nodup
  have ht : es.take (s.fetchBufferReqPtr.idxOf r) = es.takeWhile (·.req ≠ r) := by
    rw [h.reqs, take_idxOf_map]
  exact
    { columns := by
        unfold erased
        refine ⟨?_, ?_, ?_, ?_⟩
        · rw [← ht, map_take, h.reqs]
        · rw [← ht, map_take, h.pcs]
        · rw [← ht, map_take, h.valids]
        · rw [← ht, map_take, h.bytes]
      sublist := takeWhile_sublist _
      pending := by
        show (s.memReq.take _).Sublist _
        rw [take_idxOf, ← hc]
        exact cutAt_sublist_cutAt h.pending hnd hm
      kept := fun e he hv hr => by
        show e.req ∈ s.memReq.take _
        rw [take_idxOf]
        refine mem_cutAt_of_sublist h.pending hnd hr ?_
        rw [hc]
        exact mem_unanswered.mpr ⟨e, he, hv, rfl⟩
      front := fun e he _ => by
        cases es with
        | nil => cases he
        | cons e' es =>
          obtain rfl : e' = e := by simpa using he
          by_cases hr : e'.req = r
          · exact .inl (by simp [hr])
          · exact .inr (by simp [hr])
      nextReq := rfl }

theorem checkSignalsAndUpdate_lines {sig : Signals} (hok : s.checkSignalsAndUpdate sig = .ok s') :
    (Drops s.toLineBuffers es s'.toLineBuffers [] ∧ s'.retryPkt = none ∧
      s'.finishTranslationEvent = s.finishTranslationEvent) ∨
    (s'.toLineBuffers = s.toLineBuffers ∧ StatusOnly s s' ∧
      (s.fetchStatus = .IcacheWaitRetry → s'.fetchStatus = .IcacheWaitRetry)) := by
  obtain ⟨newPC, brseq, seq, -, rfl⟩ | ⟨-, status, brseq, seq, rfl, -, hst⟩ :=
    checkSignalsAndUpdate_cases hok
  · exact .inl ⟨.all ⟨rfl, rfl, rfl, rfl⟩ rfl rfl, rfl, rfl⟩
  · refine .inr ⟨rfl, ⟨_, rfl⟩, fun hrt => ?_⟩
    obtain ⟨rfl, -⟩ | ⟨-, hn, -⟩ := hst
    · exact hrt
    · exact absurd hrt hn

/-! ### Adding and filling lines -/

theorem shape_pushRequest (h : s.toLineBuffers.Shape es)
    (hne : ∀ e ∈ es, e.req ≠ r) : (s.pushRequest r).toLineBuffers.Shape (es ++ [⟨r, false, none⟩]) where
  reqs := by
    show s.fetchBufferReqPtr ++ _ = _
    rw [h.reqs, map_append, map_singleton]
  pcs := by
    show s.fetchBufferPC ++ _ = _
    rw [h.pcs, map_append, map_singleton]
  valids := by
    show s.fetchBufferValid ++ _ = _
    rw [h.valids, map_append, map_singleton]
  bytes := by
    show s.fetchBuffer ++ _ = _
    rw [h.bytes, map_append, map_singleton]
  nodup := by
    rw [map_append, nodup_append]
    refine ⟨h.nodup, nodup_singleton r, fun q hq q' hq' => ?_⟩
    obtain ⟨e, he, rfl⟩ := mem_map.mp hq
    rw [mem_singleton.mp hq']
    exact hne e he
  pending := by
    have hsp : unanswered (es ++ [⟨r, false, none⟩]) = unanswered es ++ [r] := by
      simp [unanswered]
    rw [hsp]
    exact h.pending.append (.refl [r])

def answer (r : Request) (bytes : D) (e : LineEntry D) : LineEntry D :=
  if e.req = r then ⟨r, true, some bytes⟩ else e

theorem answer_req (r : Request) (bytes : D) (e : LineEntry D) : (answer r bytes e).req = e.req := by
  unfold answer
  split
  · rename_i hre
    exact hre.symm
  · rfl

theorem map_answer_of_notMem (h : ∀ e ∈ es, e.req ≠ r) : es.map (answer r bytes) = es := by
  refine (map_congr_left fun e he => ?_).trans (map_id es)
  exact if_neg (h e he)

section

variable (h : s.toLineBuffers.Shape es)
include h

theorem find_entry {i : Nat} (hf : (s.fetchBufferPC.zip s.fetchBufferReqPtr).findIdx?
      (fun p => p.1 == r.vaddr && p.2 == r) = some i) :
    ∃ l₁ e l₂, es = l₁ ++ e :: l₂ ∧ l₁.length = i ∧ e.req = r ∧
      (∀ e' ∈ l₁, e'.req ≠ r) ∧ ∀ e' ∈ l₂, e'.req ≠ r := by
  rw [h.pcs, h.reqs, zip_map', findIdx?_map, findIdx?_eq_some_iff_getElem] at hf
  obtain ⟨hi, hr, -⟩ := hf
  have hr' : es[i].req = r := by
    simp only [comp_apply, Bool.and_eq_true, beq_iff_eq] at hr
    exact hr.2
  have hsp : es = es.take i ++ es[i] :: es.drop (i + 1) := by
    rw [getElem_cons_drop, take_append_drop]
  have hnd := h.nodup
  rw [hsp, map_append, map_cons, hr', nodup_append, nodup_cons] at hnd
  refine ⟨es.take i, es[i], es.drop (i + 1), hsp, by simp; omega, hr', ?_, ?_⟩
  · intro e he heq
    exact hnd.2.2 _ (mem_map_of_mem he) r mem_cons_self heq
  · intro e he heq
    exact hnd.2.1.1 (heq ▸ mem_map_of_mem he)

/-- **An answered line** becomes valid with the bytes of its answer, and its request
leaves `memReq`. -/
theorem fillLine_cases {stall : Bool} (ho : s.fillLine c r bytes stall = .ok s') :
    s'.toLineBuffers.Shape (es.map (answer r bytes)) ∧ s'.memReq = s.memReq.erase r ∧
      s'.nextReq = s.nextReq ∧ s'.toNotedLines = s.toNotedLines ∧
      ∃ status, s'.toIcacheSide = { s.toIcacheSide with fetchStatus := status } ∧
        (status = s.fetchStatus ∨ s.fetchBufferReqPtr.head? = some r) := by
  unfold fillLine at ho
  split at ho
  · cases ho
  rename_i i hf
  rw [guard_eq_ok] at ho
  obtain ⟨hnv, ho⟩ := ho
  obtain ⟨l₁, e, l₂, rfl, hl, hr, hl₁, hl₂⟩ := find_entry h hf
  have hva : e.valid = false := by
    rw [h.valids, ← hl] at hnv
    simpa using hnv
  have hma : (l₁ ++ e :: l₂).map (answer r bytes) = l₁ ++ ⟨r, true, some bytes⟩ :: l₂ := by
    rw [map_append, map_cons, map_answer_of_notMem hl₁, map_answer_of_notMem hl₂, answer, if_pos hr]
  cases ho
  refine ⟨?_, rfl, rfl, rfl, _, rfl, ?_⟩
  · rw [hma]
    exact
      { reqs := by
          rw [h.reqs]
          simp [hr]
        pcs := by
          rw [h.pcs]
          simp [hr]
        valids := by
          rw [h.valids, ← hl]
          simp
        bytes := by
          rw [h.bytes, ← hl]
          simp
        nodup := by
          have hnd := h.nodup
          rw [map_append, map_cons, hr] at hnd
          rwa [map_append]
        pending := by
          have hsp : unanswered (l₁ ++ e :: l₂) = unanswered l₁ ++ r :: unanswered l₂ := by
            simp [unanswered, hva, hr]
          have hfl : unanswered (l₁ ++ ⟨r, true, some bytes⟩ :: l₂) =
              unanswered l₁ ++ unanswered l₂ := by
            simp [unanswered]
          have hno : r ∉ unanswered l₁ := fun hme => by
            obtain ⟨e', he', -, heq⟩ := mem_unanswered.mp hme
            exact hl₁ e' he' heq
          have her := h.pending.erase r
          rw [hsp, erase_append_right _ hno, erase_cons_head] at her
          rwa [hfl] }
  · split
    · rename_i hhe
      obtain rfl : l₁ = [] := length_eq_zero_iff.mp (hl.trans hhe.2)
      right
      rw [h.reqs]
      simp [hr]
    · exact .inl rfl

theorem foundPC_iff : s.foundPC r = true ↔ ∃ e ∈ es, e.req = r := by
  unfold foundPC
  rw [h.pcs, h.reqs, zip_map', any_map, any_eq_true]
  constructor
  · rintro ⟨e, he, heq⟩
    simp only [comp_apply, Bool.and_eq_true, beq_iff_eq] at heq
    exact ⟨e, he, heq.2⟩
  · rintro ⟨e, he, rfl⟩
    exact ⟨e, he, by simp⟩

end

end Fetch

/-! ### Every run -/

namespace FetchRun

variable {c : FetchParams} {s s' : FetchRun D} {es es' : List (LineEntry D)}

/-- **The line buffers in a run.** Requests are numbered, the packet to be sent again was
refused, the fault to be reported again was deferred, and a valid line holds what was
returned for its request. -/
structure Inv (s : FetchRun D) (es : List (LineEntry D)) : Prop where
  shape : s.fetch.toLineBuffers.Shape es
  born : ∀ e ∈ es, e.req.id < s.fetch.nextReq
  unborn : ∀ r, s.fetch.nextReq ≤ r.id → s.stage r = .fresh
  retry : ∀ r ∈ s.fetch.retryPkt, s.stage r = .refused
  event : ∀ r ∈ s.fetch.finishTranslationEvent, s.stage r = .deferred
  filled : ∀ e ∈ es, e.valid → s.stage e.req = .answered ∧
    ∃ b, e.bytes = some b ∧ s.returned e.req = some b

theorem inv_start (pc : PCState) : (start pc : FetchRun D).Inv [] where
  shape := ⟨⟨rfl, rfl, rfl, rfl⟩, nodup_nil, List.Sublist.slnil⟩
  born := by simp
  unborn _ _ := rfl
  retry _ hr := by cases hr
  event _ hr := by cases hr
  filled := by simp

variable {f : Fetch D} {r : Request}

section

variable (h : s.Inv es) {bytes : D}

include h

theorem Inv.drop (hd : Drops s.fetch.toLineBuffers es f.toLineBuffers es')
    (hrt : ∀ r ∈ f.retryPkt, s.stage r = .refused)
    (hev : ∀ r ∈ f.finishTranslationEvent, s.stage r = .deferred) :
    { s with fetch := f }.Inv es' where
  shape := hd.shape h.shape
  born e he := by
    rw [hd.nextReq]
    exact h.born e (hd.sublist.subset he)
  unborn r hr := by
    refine h.unborn r ?_
    rw [← hd.nextReq]
    exact hr
  retry := hrt
  event := hev
  filled e he := h.filled e (hd.sublist.subset he)

theorem Inv.move {x : Stage} (hfr : s.stage r ≠ .fresh) (han : s.stage r ≠ .answered)
    (hrt : s.fetch.retryPkt ≠ some r) (hev : s.fetch.finishTranslationEvent ≠ some r) :
    (s.moveTo (some r) x).Inv es where
  shape := h.shape
  born := h.born
  unborn q hq := by
    have hn : q ≠ r := by
      rintro rfl
      exact hfr (h.unborn q hq)
    exact (update_of_ne hn _ _).trans (h.unborn q hq)
  retry q hq := by
    have hn : q ≠ r := by
      rintro rfl
      exact hrt hq
    exact (update_of_ne hn _ _).trans (h.retry q hq)
  event q hq := by
    have hn : q ≠ r := by
      rintro rfl
      exact hev hq
    exact (update_of_ne hn _ _).trans (h.event q hq)
  filled e he hva := by
    obtain ⟨hst, hby⟩ := h.filled e he hva
    have hn : e.req ≠ r := by
      rintro rfl
      exact han hst
    exact ⟨(update_of_ne hn _ _).trans hst, hby⟩

theorem Inv.shrink {m : List Request} (hm : m.Sublist s.fetch.memReq)
    (hf : f.toLineBuffers = { s.fetch.toLineBuffers with memReq := m })
    (hrt : ∀ r ∈ f.retryPkt, s.stage r = .refused)
    (hev : ∀ r ∈ f.finishTranslationEvent, s.stage r = .deferred) :
    { s with fetch := f }.Inv es where
  shape := by
    rw [hf]
    exact { h.shape with pending := hm.trans h.shape.pending }
  born e he := by
    rw [hf]
    exact h.born e he
  unborn r hr := by
    refine h.unborn r ?_
    have hr' : f.nextReq ≤ r.id := hr
    rwa [hf] at hr'
  retry := hrt
  event := hev
  filled := h.filled

theorem Inv.same (hf : f.toLineBuffers = s.fetch.toLineBuffers)
    (hrt : ∀ r ∈ f.retryPkt, s.stage r = .refused)
    (hev : ∀ r ∈ f.finishTranslationEvent, s.stage r = .deferred) :
    { s with fetch := f }.Inv es :=
  h.shrink (.refl _) hf hrt hev

theorem Inv.endTranslation {result : Fetch.TranslationResult} {full : Bool}
    (hs : s.stage r = .translating ∨ s.stage r = .deferred)
    (hev : s.fetch.finishTranslationEvent ≠ some r)
    (hok : s.endTranslation c r result full = .ok s') : ∃ es', s'.Inv es' := by
  obtain ⟨⟨ending, f⟩, hen, rfl⟩ := map_eq_ok.mp hok
  have hrt : s.fetch.retryPkt ≠ some r := fun hr => by
    have hre := h.retry r hr
    rcases hs with hs | hs
    · exact absurd (hre.symm.trans hs) (by decide)
    · exact absurd (hre.symm.trans hs) (by decide)
  have hm (x : Stage) : (s.moveTo (some r) x).Inv es := by
    rcases hs with hs | hs
    · exact h.move (by simp [hs]) (by simp [hs]) hrt hev
    · exact h.move (by simp [hs]) (by simp [hs]) hrt hev
  have hse (x : Stage) : (s.moveTo (some r) x).stage r = x := update_self ..
  obtain ⟨-, heq⟩ | ⟨-, hes⟩ := finishTranslation_cases hen
  · cases heq
    exact ⟨es, hm _⟩
  cases hes with
  | notMemory =>
    exact ⟨es, (hm .failed).shrink (dropLast_sublist _) rfl (hm _).retry (hm _).event⟩
  | accepted => exact ⟨es, hm _⟩
  | acceptedAlone => exact ⟨es, (hm _).same rfl (hm _).retry (hm _).event⟩
  | refused =>
    refine ⟨es, (hm .refused).same rfl (fun q hq => ?_) (hm _).event⟩
    rw [← Option.mem_some_iff.mp hq]
    exact hse _
  | refusedAgain => exact ⟨es, (hm .refused).same rfl (hm _).retry (hm _).event⟩
  | refusedAhead hme =>
    exact ⟨_, (hm .refused).drop (drops_erased h.shape hme) (hm _).retry (hm _).event⟩
  | discarded hme =>
    exact ⟨_, (hm .gone).drop (drops_erased h.shape hme) (hm _).retry (hm _).event⟩
  | dropped => exact ⟨es, hm _⟩
  | deferred =>
    refine ⟨es, (hm .deferred).same rfl (hm _).retry (fun q hq => ?_)⟩
    rw [← Option.mem_some_iff.mp hq]
    exact hse _
  | trapped =>
    exact ⟨es, (hm .failed).shrink (nil_sublist _) rfl (hm _).retry (hm _).event⟩

theorem Inv.statusOnly (hf : Fetch.StatusOnly s.fetch f) :
    (∀ r ∈ f.retryPkt, s.stage r = .refused) ∧
    ∀ r ∈ f.finishTranslationEvent, s.stage r = .deferred := by
  obtain ⟨status, hst⟩ := hf
  rw [hst]
  exact ⟨h.retry, h.event⟩

theorem Inv.push (hf : f.toLineBuffers = s.fetch.toLineBuffers)
    (hic : f.toIcacheSide = s.fetch.toIcacheSide) (hr : r.id = s.fetch.nextReq) :
    { s.moveTo (some r) .translating with fetch := f.pushRequest r }.Inv
      (es ++ [({ req := r, valid := false, bytes := none } : LineEntry D)]) := by
  have hot : ∀ q, s.stage q ≠ .fresh → (s.moveTo (some r) .translating).stage q = s.stage q := by
    intro q hq
    refine update_of_ne ?_ _ _
    rintro rfl
    exact hq (h.unborn q hr.ge)
  have hnx : f.nextReq = s.fetch.nextReq := by rw [hf]
  exact
    { shape := by
        refine shape_pushRequest (hf ▸ h.shape) fun e he heq => ?_
        have hlt := h.born e he
        rw [heq, hr] at hlt
        exact lt_irrefl _ hlt
      born := fun e he => by
        show e.req.id < f.nextReq + 1
        rw [hnx]
        rcases mem_append.mp he with he | he
        · exact lt_succ_of_lt (h.born e he)
        · rw [mem_singleton.mp he]
          exact lt_succ_of_le hr.le
      unborn := fun q hq => by
        have hq' : f.nextReq + 1 ≤ q.id := hq
        have hn : q ≠ r := by
          rintro rfl
          omega
        refine (update_of_ne hn _ _).trans (h.unborn q ?_)
        omega
      retry := fun q hq => by
        have hq' : q ∈ s.fetch.retryPkt := by
          rw [← hic]
          exact hq
        have hs := h.retry q hq'
        exact (hot q (by simp [hs])).trans hs
      event := fun q hq => by
        have hq' : q ∈ s.fetch.finishTranslationEvent := by
          rw [← hic]
          exact hq
        have hs := h.event q hq'
        exact (hot q (by simp [hs])).trans hs
      filled := fun e he hv => by
        rcases mem_append.mp he with he | he
        · obtain ⟨hs, hby⟩ := h.filled e he hv
          exact ⟨(hot e.req (by simp [hs])).trans hs, hby⟩
        · rw [mem_singleton.mp he] at hv
          cases hv }

theorem Inv.answered (hst : s.stage r = .inFlight) (hsh : f.toLineBuffers.Shape es')
    (hes : es' = es ∨ es' = es.map (Fetch.answer r bytes)) (hnx : f.nextReq = s.fetch.nextReq)
    (hic : Fetch.StatusOnly s.fetch f) :
    { s.moveTo (some r) .answered with
      fetch := f, returned := update s.returned r (some bytes) }.Inv es' := by
  have ho : ∀ q, s.stage q ≠ .inFlight →
      (s.moveTo (some r) .answered).stage q = s.stage q ∧
      update s.returned r (some bytes) q = s.returned q := by
    intro q hq
    have hn : q ≠ r := by
      rintro rfl
      exact hq hst
    exact ⟨update_of_ne hn _ _, update_of_ne hn _ _⟩
  have hol : ∀ e ∈ es, e.valid →
      (s.moveTo (some r) .answered).stage e.req = .answered ∧ ∃ b, e.bytes = some b ∧
        update s.returned r (some bytes) e.req = some b := by
    intro e he hv
    obtain ⟨haw, b, hby, hre⟩ := h.filled e he hv
    obtain ⟨hs, hb⟩ := ho e.req (by simp [haw])
    exact ⟨hs.trans haw, b, hby, hb.trans hre⟩
  obtain ⟨hrt, hev⟩ := h.statusOnly hic
  exact
    { shape := hsh
      born := fun e he => by
        rw [hnx]
        rcases hes with rfl | rfl
        · exact h.born e he
        · obtain ⟨e', he', rfl⟩ := mem_map.mp he
          rw [answer_req]
          exact h.born e' he'
      unborn := fun q hq => by
        have hq' : f.nextReq ≤ q.id := hq
        have hfr := h.unborn q (hnx ▸ hq')
        exact (ho q (by simp [hfr])).1.trans hfr
      retry := fun q hq => (ho q (by simp [hrt q hq])).1.trans (hrt q hq)
      event := fun q hq => (ho q (by simp [hev q hq])).1.trans (hev q hq)
      filled := fun e he hv => by
        rcases hes with rfl | rfl
        · exact hol e he hv
        obtain ⟨e', he', rfl⟩ := mem_map.mp he
        by_cases hr : e'.req = r
        · have han : answer r bytes e' = ⟨r, true, some bytes⟩ := if_pos hr
          rw [han]
          exact And.intro (update_self ..) ⟨bytes, rfl, update_self ..⟩
        · have han : answer r bytes e' = e' := if_neg hr
          rw [han] at hv ⊢
          exact hol e' he' hv }

omit h in
/-- **A response**: without effect for a discarded request, else it fills the line. -/
theorem processCacheCompletion_cases {f' : Fetch D} {stall : Bool} (h : f.toLineBuffers.Shape es)
    (ho : f.processCacheCompletion c r bytes stall = .ok f') :
    ∃ es', f'.toLineBuffers.Shape es' ∧ f'.nextReq = f.nextReq ∧
      f'.toNotedLines = f.toNotedLines ∧ Fetch.StatusOnly f f' ∧
      ((es' = es ∧ r ∉ f.memReq ∧ f'.memReq = f.memReq) ∨
        (es' = es.map (Fetch.answer r bytes) ∧ r ∈ f.memReq ∧ f'.memReq = f.memReq.erase r)) ∧
      (f'.fetchStatus = f.fetchStatus ∨ f.fetchStatus = .IcacheWaitResponse ∨
        (r ∈ f.memReq ∧ f.fetchBufferReqPtr.head? = some r)) := by
  obtain ⟨status, heq, hst⟩ := stopWaiting_eq (c := c) (r := r) f stall
  have hw : status = f.fetchStatus ∨ f.fetchStatus = .IcacheWaitResponse ∨
      (r ∈ f.memReq ∧ f.fetchBufferReqPtr.head? = some r) :=
    hst.imp_right fun hst => .inl hst.1
  unfold processCacheCompletion at ho
  simp only [heq] at ho
  split at ho
  · rename_i hm
    cases ho
    exact ⟨es, h, rfl, rfl, ⟨_, rfl⟩, .inl ⟨rfl, hm, rfl⟩, hw⟩
  · rename_i hm
    rw [Decidable.not_not] at hm
    obtain ⟨hsh, hmm, hnx, hno, status', hic, hhd⟩ :=
      fillLine_cases (s := { f with fetchStatus := status }) h ho
    refine ⟨_, hsh, hnx, hno, ⟨_, hic⟩, .inr ⟨rfl, hm, hmm⟩, ?_⟩
    rw [hic]
    rcases hhd with rfl | hhd
    · exact hw
    · exact .inr (.inr ⟨hm, hhd⟩)

/-- **Every call keeps the line buffers.** -/
theorem Inv.step {a : FetchCall D} (hpr : s.pre a) (hk : s.step c a = .ok s') :
    ∃ es', s'.Inv es' := by
  cases a with
  | checkSignalsAndUpdate sig =>
    obtain ⟨f, hf, rfl⟩ := map_eq_ok.mp hk
    rcases checkSignalsAndUpdate_lines hf with
      ⟨hdr, hrt, he⟩ | ⟨hb, ho, -⟩
    · refine ⟨[], h.drop hdr (fun r hr => ?_) (fun r hr => ?_)⟩
      · rw [hrt] at hr
        cases hr
      · rw [he] at hr
        exact h.event r hr
    · exact ⟨es, h.same hb (h.statusOnly ho).1 (h.statusOnly ho).2⟩
  | addToFTQ answers =>
    obtain ⟨f, hf, rfl⟩ := map_eq_ok.mp hk
    have hah := addToFTQ_keeps hf
    have ho := h.statusOnly ⟨_, hah.icache⟩
    exact ⟨es, h.same hah.buffers ho.1 ho.2⟩
  | fetch i =>
    obtain ⟨f, hf, rfl⟩ := map_eq_ok.mp hk
    obtain ⟨es', hdr⟩ := drops_fetch h.shape hf
    have ho := h.statusOnly (statusOnly_fetch hf)
    exact ⟨es', h.drop hdr ho.1 ho.2⟩
  | pipelineIcacheAccesses interrupt =>
    obtain ⟨p, hp, rfl⟩ := map_eq_ok.mp hk
    obtain ⟨-, hb, hic⟩ := noteHeadLine_keeps s.fetch
    obtain ⟨rfl, -⟩ | rfl | ⟨line, rest, -, rfl⟩ := pipelineIcacheAccesses_cases hp
    · exact ⟨es, h⟩
    · have ho := h.statusOnly ⟨_, hic⟩
      exact ⟨es, h.same hb ho.1 ho.2⟩
    · exact ⟨_, h.push hb hic rfl⟩
  | finishTranslation r result full =>
    have hst : s.stage r = .translating := hpr
    refine h.endTranslation (.inl hst) (fun he => ?_) hk
    exact absurd ((h.event r he).symm.trans hst) (by decide)
  | finishTranslationEvent full =>
    obtain rfl | ⟨r, he, hen⟩ := step_event hk
    · exact ⟨es, h⟩
    · have h' : { s with fetch := { s.fetch with finishTranslationEvent := none } }.Inv es :=
        h.same rfl h.retry (by simp)
      exact h'.endTranslation (.inr (h.event r he)) (by simp) hen
  | processCacheCompletion r bytes stall =>
    obtain ⟨f, hf, rfl⟩ := map_eq_ok.mp hk
    obtain ⟨es', hsh, hnx, -, ho, hes, -⟩ := processCacheCompletion_cases h.shape hf
    exact ⟨es', h.answered hpr hsh (hes.imp And.left And.left) hnx ho⟩
  | recvReqRetry accepted =>
    obtain ⟨p, hp, rfl⟩ := map_eq_ok.mp hk
    obtain ⟨-, rfl⟩ | ⟨-, -, rfl⟩ | ⟨-, rfl | ⟨r, status, hrt, rfl⟩⟩ := recvReqRetry_cases hp
    · exact ⟨es, h.same rfl h.retry h.event⟩
    · exact ⟨es, h.same rfl (by simp) h.event⟩
    · exact ⟨es, h⟩
    · have hre := h.retry r hrt
      have h' := h.same (f := { s.fetch with
        fetchStatus := status, retryPkt := none, cacheBlocked := false }) rfl (by simp) h.event
      refine ⟨es, h'.move (by simp [hre]) (by simp [hre]) (by simp) fun he => ?_⟩
      exact absurd ((h.event r he).symm.trans hre) (by decide)
  | wakeFromQuiesce =>
    cases hk
    exact ⟨es, h.same rfl h.retry h.event⟩

end

end FetchRun

end Gem5.Cpu.O3
