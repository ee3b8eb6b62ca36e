import Gem5.Cpu.O3.FetchAligned

/-!
# Gem5.Cpu.O3.FetchHead

**The head line is not lost.** A head line that is not valid waits for something: its
translation, its packet, a retry, or a squash. A refused head packet is remembered in
`retryPkt` together with the status `IcacheWaitRetry`, and the translation of a line
*behind* the head overwrites the status when it ends outside memory; then the retry
throws the head packet away. Two more ends of translations throw a line away: a
fault on the program counter's line empties `memReq` even when another line is the
head, and it is dropped when another fault waits to be reported.

`Orderly` excludes these three, in the state before the call. Every other call is
unrestricted. A head line that has failed is left by a squash only (`FailedAt.step`).
-/

namespace Gem5.Cpu.O3

open Function List Fetch Option Gem5.Lib
open Gem5.Base (Addr)

variable {D : Type} {c : FetchParams} {b : LineBuffers D}

theorem LineBuffers.Columns.unique {es es' : List (LineEntry D)} (h : b.Columns es)
    (h' : b.Columns es') : es = es' := by
  have hr := h.reqs.symm.trans h'.reqs
  have hv := h.valids.symm.trans h'.valids
  have hby := h.bytes.symm.trans h'.bytes
  clear h h'
  induction es generalizing es' with
  | nil => simpa using hr.symm
  | cons e es ih =>
    cases es' with
    | nil => cases hr
    | cons e' es' =>
      simp only [map_cons, cons.injEq] at hr hv hby
      obtain rfl : e = e' := by
        cases e
        cases e'
        simp_all
      rw [ih hr.2 hv.2 hby.2]

namespace FetchRun

variable {s s' : FetchRun D} {es es' : List (LineEntry D)} {e : LineEntry D} {f : Fetch D}
  {r : Request} {x : Stage}

/-- The head line that is not valid is waited for, or a squash is, because of it. -/
def HeadAwaited (s : FetchRun D) : Prop :=
  ∀ r, s.fetch.fetchBufferReqPtr.head? = some r → s.fetch.fetchBufferValid.head? = some false →
    (s.stage r = .translating ∨ s.fetch.finishTranslationEvent = some r) ∨
    s.stage r = .inFlight ∨
    (s.fetch.retryPkt = some r ∧ s.fetch.fetchStatus = .IcacheWaitRetry) ∨
    s.stage r = .failed

/-! ### The invariant -/

def Underway (s : FetchRun D) (r : Request) : Prop :=
  s.stage r = .translating ∨ s.fetch.finishTranslationEvent = some r ∨ s.stage r = .inFlight ∨
    s.fetch.retryPkt = some r

/-- A line is valid, or has failed, or is underway and its request is in `memReq`, without
which an answer would be ignored. -/
def Alive (s : FetchRun D) (e : LineEntry D) : Prop :=
  e.valid ∨ s.stage e.req = .failed ∨ (e.req ∈ s.fetch.memReq ∧ s.Underway e.req)

/-- The head line has failed, and everything behind it waits for the squash. -/
def HeadFailed (s : FetchRun D) (es : List (LineEntry D)) : Prop :=
  ∃ e ∈ es.head?, s.stage e.req = .failed

/-- The packet kept for a retry is that of the head line, and fetch waits for the retry. -/
def RetryIsHead (s : FetchRun D) (es : List (LineEntry D)) : Prop :=
  ∀ r ∈ s.fetch.retryPkt, s.fetch.fetchStatus = .IcacheWaitRetry ∧ ∃ e ∈ es.head?, e.req = r

structure HeadInv (s : FetchRun D) (es : List (LineEntry D)) : Prop extends s.Inv es where
  retryIsHead : s.RetryIsHead es
  alive : s.HeadFailed es ∨ ∀ e ∈ es, s.Alive e

theorem HeadInv.headAwaited (h : s.HeadInv es) : s.HeadAwaited := by
  intro r hr hva
  rw [h.shape.reqs] at hr
  rw [h.shape.valids] at hva
  cases es with
  | nil => cases hr
  | cons e es =>
    obtain rfl : e.req = r := by simpa using hr
    have hnv : e.valid = false := by simpa using hva
    rcases h.alive with ⟨e', he', hf⟩ | hal
    · obtain rfl : e = e' := by simpa using he'
      exact .inr (.inr (.inr hf))
    rcases hal e mem_cons_self with hv | hf | ⟨-, ht | hev | hfl | hrt⟩
    · simp [hnv] at hv
    · exact .inr (.inr (.inr hf))
    · exact .inl (.inl ht)
    · exact .inl (.inr hev)
    · exact .inr (.inl hfl)
    · exact .inr (.inr (.inl ⟨hrt, (h.retryIsHead _ hrt).1⟩))

theorem Inv.not_valid (h : s.Inv es) (he : e ∈ es) (hst : s.stage e.req ≠ .answered) :
    e.valid = false := by
  cases hva : e.valid with
  | false => rfl
  | true => exact absurd (h.filled e he hva).1 hst

theorem HeadFailed.drop {b' : LineBuffers D} (h : s.HeadFailed es) (hin : s.Inv es)
    (hdr : Drops b es b' es') : es' = [] ∨ s.HeadFailed es' := by
  obtain ⟨e, he, hf⟩ := h
  have hnv := hin.not_valid (mem_of_mem_head? he) (by simp [hf])
  exact (hdr.front e he hnv).imp_right fun hhead => ⟨e, hhead, hf⟩

theorem HeadInv.drop (h : s.HeadInv es) (hin : { s with fetch := f }.Inv es')
    (hdr : Drops s.fetch.toLineBuffers es f.toLineBuffers es')
    (hev : f.finishTranslationEvent = s.fetch.finishTranslationEvent)
    (hrt : es' = [] ∨ f.retryPkt = s.fetch.retryPkt)
    (hhead : { s with fetch := f }.RetryIsHead es') : { s with fetch := f }.HeadInv es' := by
  refine { hin with retryIsHead := hhead, alive := ?_ }
  rcases hrt with rfl | hrt
  · exact .inr (by simp)
  rcases h.alive with hf | hal
  · rcases hf.drop h.toInv hdr with rfl | hf
    · exact .inr (by simp)
    · exact .inl hf
  right
  intro e he
  rcases hal e (hdr.sublist.subset he) with hv | hf | ⟨hme, hw⟩
  · exact .inl hv
  · exact .inr (.inl hf)
  · cases hva : e.valid with
    | true => exact .inl hva
    | false =>
      refine .inr (.inr ⟨hdr.kept e he hva hme, ?_⟩)
      unfold Underway at hw ⊢
      rw [hev, hrt]
      exact hw

theorem HeadInv.same (h : s.HeadInv es) (hf : f.toLineBuffers = s.fetch.toLineBuffers)
    (hev : f.finishTranslationEvent = s.fetch.finishTranslationEvent)
    (hrt : f.retryPkt = s.fetch.retryPkt)
    (hst : s.fetch.fetchStatus = .IcacheWaitRetry → f.fetchStatus = .IcacheWaitRetry) :
    { s with fetch := f }.HeadInv es := by
  have hin : { s with fetch := f }.Inv es := h.toInv.same hf (hrt ▸ h.retry) (hev ▸ h.event)
  refine h.drop hin ?_ hev (.inr hrt) fun r hr => ?_
  · rw [hf]
    exact .refl h.shape
  · have hr' : r ∈ s.fetch.retryPkt := hrt ▸ hr
    obtain ⟨hwa, hhead⟩ := h.retryIsHead r hr'
    exact ⟨hst hwa, hhead⟩

/-! ### The end of a translation -/

theorem Alive.move (h : s.Alive e) (hn : e.req ≠ r) (hm : e.req ∈ s.fetch.memReq → e.req ∈ f.memReq)
    (hee : s.fetch.finishTranslationEvent = some e.req → f.finishTranslationEvent = some e.req)
    (hrt : s.fetch.retryPkt = some e.req → f.retryPkt = some e.req) :
    { s.moveTo (some r) x with fetch := f }.Alive e := by
  have hst : (s.moveTo (some r) x).stage e.req = s.stage e.req := update_of_ne hn _ _
  unfold Alive Underway at h ⊢
  simp only [hst]
  rcases h with hv | hfa | ⟨hr, ht | hev | hfl | hre⟩
  · exact .inl hv
  · exact .inr (.inl hfa)
  · exact .inr (.inr ⟨hm hr, .inl ht⟩)
  · exact .inr (.inr ⟨hm hr, .inr (.inl (hee hev))⟩)
  · exact .inr (.inr ⟨hm hr, .inr (.inr (.inl hfl))⟩)
  · exact .inr (.inr ⟨hm hr, .inr (.inr (.inr (hrt hre)))⟩)

theorem HeadFailed.move (h : s.HeadFailed es) (hr : s.stage r ≠ .failed) :
    { s.moveTo (some r) x with fetch := f }.HeadFailed es := by
  obtain ⟨e, he, hf⟩ := h
  have hn : e.req ≠ r := by
    rintro rfl
    exact hr hf
  exact ⟨e, he, (update_of_ne hn _ _).trans hf⟩

/-- Before the translation of `r` ends: every other line is alive, and `r` is in `memReq`. -/
structure Ending (s : FetchRun D) (es : List (LineEntry D)) (r : Request) : Prop extends
    s.Inv es where
  retryIsHead : s.RetryIsHead es
  others : s.HeadFailed es ∨ ∀ e ∈ es, (e.req ≠ r → s.Alive e) ∧ (e.req = r → r ∈ s.fetch.memReq)
  ending : s.stage r = .translating ∨ s.stage r = .deferred
  event_ne : s.fetch.finishTranslationEvent ≠ some r

namespace Ending

variable {r : Request} {f : Fetch D} {x : Stage}

section

variable (h : s.Ending es r)

include h

theorem stage_ne (ht : x ≠ .translating) (hd : x ≠ .deferred) : s.stage r ≠ x := by
  rintro rfl
  exact h.ending.elim ht hd

theorem retryPkt_eq_none {e : LineEntry D} (he : e ∈ es.head?) (hre : e.req = r) :
    s.fetch.retryPkt = none := by
  cases hrt : s.fetch.retryPkt with
  | none => rfl
  | some q =>
    obtain ⟨-, e', he', rfl⟩ := h.retryIsHead q hrt
    obtain rfl : e = e' := some.inj (he.symm.trans he')
    exact absurd (hre ▸ h.retry _ hrt) (h.stage_ne (by decide) (by decide))

theorem alive_of_same (hme : ∀ q, q ≠ r → q ∈ s.fetch.memReq → q ∈ f.memReq)
    (hev : ∀ q, s.fetch.finishTranslationEvent = some q → f.finishTranslationEvent = some q)
    (hrt : ∀ q, s.fetch.retryPkt = some q → f.retryPkt = some q)
    (hse : ∀ e ∈ es, e.req = r → r ∈ s.fetch.memReq →
      { s.moveTo (some r) x with fetch := f }.Alive e) :
    { s.moveTo (some r) x with fetch := f }.HeadFailed es ∨
      ∀ e ∈ es, { s.moveTo (some r) x with fetch := f }.Alive e := by
  rcases h.others with hfa | hot
  · exact .inl (hfa.move (h.stage_ne (by decide) (by decide)))
  right
  intro e he
  obtain ⟨hal, hin⟩ := hot e he
  by_cases hr : e.req = r
  · exact hse e he hr (hin hr)
  · exact (hal hr).move hr (hme _ hr) (hev _) (hrt _)

theorem headInv_drop (hin : { s.moveTo (some r) x with fetch := f }.Inv (es.takeWhile (·.req ≠ r)))
    (hdr : Drops s.fetch.toLineBuffers es f.toLineBuffers (es.takeWhile (·.req ≠ r)))
    (hee : f.finishTranslationEvent = s.fetch.finishTranslationEvent)
    (hrt : f.retryPkt = s.fetch.retryPkt) (hst : f.fetchStatus = s.fetch.fetchStatus) :
    { s.moveTo (some r) x with fetch := f }.HeadInv (es.takeWhile (·.req ≠ r)) := by
  refine { hin with retryIsHead := fun q hq => ?_, alive := ?_ }
  · have hq' : q ∈ s.fetch.retryPkt := hrt ▸ hq
    obtain ⟨hwa, e, he, rfl⟩ := h.retryIsHead q hq'
    refine ⟨hst.trans hwa, e, ?_, rfl⟩
    have hn : e.req ≠ r := by
      rintro rfl
      exact h.stage_ne (by decide) (by decide) (h.retry _ hq')
    cases es with
    | nil => cases he
    | cons e' es =>
      obtain rfl : e' = e := by simpa using he
      simp [hn]
  · rcases h.others with hf | hot
    · rcases hf.drop h.toInv hdr with hni | hf
      · rw [hni]
        exact .inr (by simp)
      · exact .inl (hf.move (h.stage_ne (by decide) (by decide)))
    right
    intro e he
    have hn : e.req ≠ r := by simpa using mem_takeWhile_imp he
    have hal := (hot e (hdr.sublist.subset he)).1 hn
    cases hv : e.valid with
    | true => exact .inl hv
    | false =>
      refine hal.move hn (hdr.kept e he hv) (fun hev => ?_) (fun hr => ?_)
      · rw [hee, hev]
      · rw [hrt, hr]

section

variable (hhead : s.fetch.fetchBufferReqPtr.head? = some r)
include hhead

theorem exists_head : ∃ e ∈ es.head?, e.req = r := by
  rw [h.shape.reqs, head?_map, map_eq_some_iff] at hhead
  exact hhead

theorem headInv_failed (hin : { s.moveTo (some r) .failed with fetch := f }.Inv es)
    (hrt : f.retryPkt = s.fetch.retryPkt) :
    { s.moveTo (some r) .failed with fetch := f }.HeadInv es := by
  obtain ⟨e, he, hr⟩ := h.exists_head hhead
  refine { hin with retryIsHead := fun q hq => ?_, alive := .inl ⟨e, he, ?_⟩ }
  · have hq' : q ∈ f.retryPkt := hq
    rw [hrt, h.retryPkt_eq_none he hr] at hq'
    cases hq'
  · rw [hr]
    exact update_self ..

omit hhead in
theorem headInv_notMemory (hin : { s.moveTo (some r) .failed with fetch := { s.fetch with
      fetchStatus := .NoGoodAddr, memReq := s.fetch.memReq.dropLast } }.Inv es)
    (hor : s.fetch.fetchBufferReqPtr.head? = some r ∨
      (s.fetch.memReq.getLast? = some r ∧ s.fetch.fetchStatus ≠ .IcacheWaitRetry)) :
    { s.moveTo (some r) .failed with fetch := { s.fetch with
      fetchStatus := .NoGoodAddr, memReq := s.fetch.memReq.dropLast } }.HeadInv es := by
  rcases hor with hhead | ⟨hl, hst⟩
  · exact h.headInv_failed hhead hin rfl
  refine { hin with retryIsHead := fun q hq => ?_, alive := ?_ }
  · exact absurd (h.retryIsHead q hq).1 hst
  · refine h.alive_of_same (fun q hq hm => ?_) (fun _ hev => hev) (fun _ hr => hr)
      fun e _ hrq _ => ?_
    · -- Only the last request, which is that of the line, leaves `memReq`.
      rw [← dropLast_append_getLast? r hl, mem_append, mem_singleton] at hm
      exact hm.resolve_right hq
    · exact .inr (.inl (by rw [hrq]; exact update_self ..))

omit hhead in
theorem headInv_accepted {x : ThreadStatus}
    (hin : { s.moveTo (some r) .inFlight with fetch := { s.fetch with fetchStatus := x } }.Inv es)
    (hx : x = s.fetch.fetchStatus ∨ s.fetch.retryPkt = none) :
    { s.moveTo (some r) .inFlight with
      fetch := { s.fetch with fetchStatus := x } }.HeadInv es := by
  refine { hin with retryIsHead := fun q hq => ?_, alive := ?_ }
  · rcases hx with rfl | hn
    · exact h.retryIsHead q hq
    · cases hn.symm.trans hq
  · refine h.alive_of_same (fun _ _ hm => hm) (fun _ hev => hev) (fun _ hr => hr)
      fun e _ hrq hm => ?_
    rw [← hrq] at hm ⊢
    exact .inr (.inr ⟨hm, .inr (.inr (.inl (update_self ..)))⟩)

theorem headInv_refused (hn : s.fetch.retryPkt = none)
    (hin : { s.moveTo (some r) .refused with fetch := { s.fetch with
      fetchStatus := .IcacheWaitRetry, retryPkt := some r, cacheBlocked := true } }.Inv es) :
    { s.moveTo (some r) .refused with fetch := { s.fetch with
      fetchStatus := .IcacheWaitRetry, retryPkt := some r, cacheBlocked := true } }.HeadInv es := by
  refine { hin with retryIsHead := fun q hq => ?_, alive := ?_ }
  · obtain rfl := mem_some_iff.mp hq
    exact ⟨rfl, h.exists_head hhead⟩
  · refine h.alive_of_same (fun _ _ hm => hm) (fun _ hev => hev) (fun q hr => ?_)
      fun e _ hrq hm => ?_
    · rw [hn] at hr
      cases hr
    · rw [← hrq] at hm
      exact .inr (.inr ⟨hm, .inr (.inr (.inr (congrArg some hrq.symm)))⟩)

end

theorem headInv_deferred (hee : s.fetch.finishTranslationEvent = none)
    (hin : { s.moveTo (some r) .deferred with
      fetch := { s.fetch with finishTranslationEvent := some r } }.Inv es) :
    { s.moveTo (some r) .deferred with
      fetch := { s.fetch with finishTranslationEvent := some r } }.HeadInv es := by
  refine { hin with retryIsHead := h.retryIsHead, alive := ?_ }
  refine h.alive_of_same (fun _ _ hm => hm) (fun q hev => ?_) (fun _ hr => hr) fun e _ hrq hm => ?_
  · rw [hee] at hev
    cases hev
  · rw [← hrq] at hm
    exact .inr (.inr ⟨hm, .inr (.inl (congrArg some hrq.symm))⟩)

/-- **An orderly end of a translation loses no line.** -/
theorem headInv {result : Fetch.TranslationResult} {full : Bool}
    (hmm : result = .notMemory → s.fetch.foundPC r = true →
      s.fetch.fetchBufferReqPtr.head? = some r ∨
      (s.fetch.memReq.getLast? = some r ∧ s.fetch.fetchStatus ≠ .IcacheWaitRetry))
    (hfa : result = .fault → s.fetch.foundPC r = true →
      r.vaddr = s.fetch.fetchBufferExpectedPC c → s.fetch.fetchBufferReqPtr.head? = some r ∧
      (full = true → s.fetch.finishTranslationEvent = none))
    (hok : s.endTranslation c r result full = .ok s') : ∃ es', s'.HeadInv es' := by
  obtain ⟨es', hi⟩ := h.toInv.endTranslation h.ending h.event_ne hok
  refine ⟨es', ?_⟩
  obtain ⟨⟨ending, f⟩, hen, rfl⟩ := map_eq_ok.mp hok
  -- Only `refusedAhead` and `discarded` change the entries.
  have hs : s.fetch.toLineBuffers.Columns es' → es = es' := h.shape.toColumns.unique
  have hc := hi.shape.toColumns
  obtain ⟨hig, heq⟩ | ⟨⟨-, hf⟩, hes⟩ := finishTranslation_cases hen
  · cases heq
    obtain rfl := hs hc
    refine { hi with retryIsHead := h.retryIsHead, alive := ?_ }
    refine h.alive_of_same (fun _ _ hm => hm) (fun _ hev => hev) (fun _ hre => hre)
      fun e he hr hm => ?_
    -- A line still in the buffers has its request in `memReq` and is not ignored.
    rcases hig with hni | hn
    · rw [hni] at hm
      cases hm
    · cases hn.symm.trans ((foundPC_iff h.shape).mpr ⟨e, he, hr⟩)
  cases hes with
  | notMemory =>
    obtain rfl := hs ⟨hc.reqs, hc.pcs, hc.valids, hc.bytes⟩
    exact h.headInv_notMemory hi (hmm rfl hf)
  | accepted =>
    obtain rfl := hs hc
    exact h.headInv_accepted hi (.inl rfl)
  | acceptedAlone hl =>
    obtain rfl := hs hc
    -- There is one line, so it is the head line, and no packet waits for a retry.
    obtain ⟨e, he, hr⟩ := (foundPC_iff h.shape).mp hf
    rw [h.shape.pcs, length_map, length_eq_one_iff] at hl
    obtain ⟨e', rfl⟩ := hl
    obtain rfl := mem_singleton.mp he
    exact h.headInv_accepted hi (.inr (h.retryPkt_eq_none (mem_some_self e) hr))
  | refused hhead hn =>
    obtain rfl := hs hc
    exact h.headInv_refused hhead hn hi
  | refusedAgain hhead hso =>
    obtain ⟨e, he, hr⟩ := h.exists_head hhead
    exact absurd (h.retryPkt_eq_none he hr) hso
  | refusedAhead hm | discarded hm =>
    have hdr := drops_erased h.shape hm
    obtain rfl := hdr.columns.unique hc
    exact h.headInv_drop hi hdr rfl rfl rfl
  | dropped hp hfl hee => exact absurd ((hfa rfl hf hp).2 hfl) hee
  | deferred hp hee =>
    obtain rfl := hs hc
    exact h.headInv_deferred hee hi
  | trapped hp =>
    obtain rfl := hs ⟨hc.reqs, hc.pcs, hc.valids, hc.bytes⟩
    exact h.headInv_failed (hfa rfl hf hp).1 hi rfl

end

end Ending

/-! ### The other calls -/

section

variable (h : s.HeadInv es) {r : Request} {f : Fetch D}

include h

theorem HeadInv.ending_of_translating (hs : s.stage r = .translating) : s.Ending es r := by
  refine { h with others := ?_, ending := .inl hs, event_ne := fun hev => ?_ }
  · refine h.alive.imp_right fun hal e he => ⟨fun _ => hal e he, fun hre => ?_⟩
    subst hre
    rcases hal e he with hv | hfa | ⟨hme, -⟩
    · exact absurd ((h.filled e he hv).1.symm.trans hs) (by decide)
    · exact absurd (hfa.symm.trans hs) (by decide)
    · exact hme
  · exact absurd ((h.event r hev).symm.trans hs) (by decide)

theorem HeadInv.ending_of_event (hee : s.fetch.finishTranslationEvent = some r) :
    { s with fetch := { s.fetch with finishTranslationEvent := none } }.Ending es r := by
  have hst := h.event r hee
  have hin : { s with fetch := { s.fetch with finishTranslationEvent := none } }.Inv es :=
    h.toInv.same rfl h.retry (by simp)
  refine { hin with
    retryIsHead := h.retryIsHead
    others := ?_
    ending := .inr hst
    event_ne := by simp }
  refine h.alive.imp_right fun hal e he => ⟨fun hn => ?_, fun hrq => ?_⟩
  · rcases hal e he with hv | hf | ⟨hm, ht | hev | hfl | hr⟩
    · exact .inl hv
    · exact .inr (.inl hf)
    · exact .inr (.inr ⟨hm, .inl ht⟩)
    · rw [hee] at hev
      exact absurd (some.inj hev).symm hn
    · exact .inr (.inr ⟨hm, .inr (.inr (.inl hfl))⟩)
    · exact .inr (.inr ⟨hm, .inr (.inr (.inr hr))⟩)
  · subst hrq
    rcases hal e he with hv | hf | ⟨hm, -⟩
    · exact absurd ((h.filled e he hv).1.symm.trans hst) (by decide)
    · exact absurd (hf.symm.trans hst) (by decide)
    · exact hm

/-- **`fetch` leaves a head line that is not valid alone**; else no packet waits for a
retry. -/
theorem HeadInv.fetch {i : Fetch.FetchInput} (hf : s.fetch.fetch c i = .ok f) :
    ∃ es', { s with fetch := f }.HeadInv es' := by
  obtain ⟨es', hdr⟩ := drops_fetch h.shape hf
  obtain ⟨status, hic⟩ := statusOnly_fetch hf
  have hrt : f.retryPkt = s.fetch.retryPkt := by rw [hic]
  have hev : f.finishTranslationEvent = s.fetch.finishTranslationEvent := by rw [hic]
  cases hpk : s.fetch.retryPkt with
  | none =>
    refine ⟨es', h.drop (h.toInv.drop hdr (hrt ▸ h.retry) (hev ▸ h.event)) hdr hev
      (.inr hrt) fun q hq => ?_⟩
    have hq' : q ∈ f.retryPkt := hq
    rw [hrt, hpk] at hq'
    cases hq'
  | some r =>
    obtain ⟨hwa, e, he, rfl⟩ := h.retryIsHead r hpk
    have hnv := h.toInv.not_valid (mem_of_mem_head? he) (by simp [h.retry _ hpk])
    obtain rfl | ⟨hst, -⟩ | ⟨hfr, -⟩ := fetch_cases hf
    · exact ⟨es, h⟩
    · exact absurd (hwa.symm.trans hst) (by decide)
    · have hva := headValid_of_frontValid h.shape hfr e he
      simp [hnv] at hva

theorem HeadInv.push (hf : f.toLineBuffers = s.fetch.toLineBuffers)
    (hi : f.toIcacheSide = s.fetch.toIcacheSide) (hr : r.id = s.fetch.nextReq) :
    { s.moveTo (some r) .translating with fetch := f.pushRequest r }.HeadInv
      (es ++ [({ req := r, valid := false, bytes := none } : LineEntry D)]) := by
  have hfr := h.unborn r hr.ge
  have hhead : ∀ e ∈ es.head?, e ∈ (es ++ [({ req := r, valid := false, bytes := none } :
      LineEntry D)]).head? := by
    intro e he
    cases es with
    | nil => cases he
    | cons e' es => exact he
  refine { h.toInv.push hf hi hr with retryIsHead := fun q hq => ?_, alive := ?_ }
  · have hq' : q ∈ f.retryPkt := hq
    rw [hi] at hq'
    obtain ⟨hwa, e, he, hrq⟩ := h.retryIsHead q hq'
    refine ⟨?_, e, hhead e he, hrq⟩
    show f.fetchStatus = _
    rw [hi]
    exact hwa
  rcases h.alive with hfa | hal
  · obtain ⟨e, he, hst⟩ := hfa.move (show s.stage r ≠ .failed by simp [hfr])
    exact .inl ⟨e, hhead e he, hst⟩
  right
  intro e he
  rcases mem_append.mp he with hol | he
  · have hn : e.req ≠ r := by
      rintro rfl
      exact absurd (h.born e hol) (by omega)
    refine (hal e hol).move hn (fun hme => ?_) (fun hev => ?_) (fun hre => ?_)
    · show e.req ∈ f.memReq ++ [r]
      rw [hf]
      exact mem_append_left _ hme
    · show f.finishTranslationEvent = _
      rw [hi, hev]
    · show f.retryPkt = _
      rw [hi, hre]
  · rw [mem_singleton.mp he]
    refine .inr (.inr ⟨mem_append_right _ mem_cons_self, .inl ?_⟩)
    exact update_self ..

theorem HeadInv.answered {bytes : D} {stall : Bool} (hs : s.stage r = .inFlight)
    (hf : s.fetch.processCacheCompletion c r bytes stall = .ok f) :
    ∃ es', { s.moveTo (some r) .answered with
      fetch := f, returned := update s.returned r (some bytes) }.HeadInv es' := by
  obtain ⟨es', hsh, hnx, -, ⟨status, hc⟩, hes, hst⟩ := processCacheCompletion_cases h.shape hf
  have hin := h.toInv.answered hs hsh (hes.imp And.left And.left) hnx ⟨_, hc⟩
  -- Every line but that of `r` stays as it is.
  have hhead : ∀ e ∈ es.head?, e.req ≠ r → e ∈ es'.head? := by
    intro e he hn
    rcases hes with ⟨rfl, -⟩ | ⟨rfl, -⟩
    · exact he
    · rw [head?_map, mem_def.mp he, map_some, answer, if_neg hn]
      rfl
  refine ⟨es', { hin with retryIsHead := fun q hq => ?_, alive := ?_ }⟩
  · have hq' : q ∈ f.retryPkt := hq
    rw [hc] at hq'
    obtain ⟨hw, e, he, rfl⟩ := h.retryIsHead q hq'
    have hn : e.req ≠ r := by
      rintro rfl
      exact absurd ((h.retry _ hq').symm.trans hs) (by decide)
    refine ⟨?_, e, hhead e he hn, rfl⟩
    rcases hst with hsa | hrs | ⟨-, hfs⟩
    · exact hsa.trans hw
    · exact absurd (hw.symm.trans hrs) (by decide)
    · rw [h.shape.reqs, head?_map, mem_def.mp he] at hfs
      exact absurd (some.inj hfs) hn
  rcases h.alive with ⟨e, he, ha⟩ | hal
  · have hn : e.req ≠ r := by
      rintro rfl
      exact absurd (ha.symm.trans hs) (by decide)
    exact .inl ⟨e, hhead e he hn, (update_of_ne hn _ _).trans ha⟩
  right
  have hee : f.finishTranslationEvent = s.fetch.finishTranslationEvent := by rw [hc]
  have hrt : f.retryPkt = s.fetch.retryPkt := by rw [hc]
  intro e he
  rcases hes with ⟨rfl, hno, hm⟩ | ⟨rfl, -, hm⟩
  · have hn : e.req ≠ r := by
      rintro rfl
      rcases hal e he with hv | ha | ⟨hi, -⟩
      · exact absurd ((h.filled e he hv).1.symm.trans hs) (by decide)
      · exact absurd (ha.symm.trans hs) (by decide)
      · exact hno hi
    have hmo := (hal e he).move (x := .answered) hn (fun hi => hm ▸ hi)
      (fun hev => hee.trans hev) (fun hre => hrt.trans hre)
    exact hmo
  · obtain ⟨e', he', rfl⟩ := mem_map.mp he
    by_cases hr : e'.req = r
    · exact .inl (by rw [answer, if_pos hr])
    · have han : answer r bytes e' = e' := if_neg hr
      rw [han]
      have hmo := (hal e' he').move (x := .answered) hr
        (fun hi => hm ▸ (mem_erase_of_ne hr).mpr hi)
        (fun hev => hee.trans hev) (fun hre => hrt.trans hre)
      exact hmo

theorem HeadInv.retried {status : ThreadStatus} (hrt : s.fetch.retryPkt = some r)
    (hiv : { s.moveTo (some r) .inFlight with fetch := { s.fetch with
      fetchStatus := status, retryPkt := none, cacheBlocked := false } }.Inv es) :
    { s.moveTo (some r) .inFlight with fetch := { s.fetch with
      fetchStatus := status, retryPkt := none, cacheBlocked := false } }.HeadInv es := by
  have hst := h.retry r hrt
  refine { hiv with retryIsHead := nofun, alive := ?_ }
  rcases h.alive with hf | hal
  · exact .inl (hf.move (by simp [hst]))
  right
  intro e he
  by_cases hrq : e.req = r
  · subst hrq
    rcases hal e he with hv | hf | ⟨hme, -⟩
    · exact .inl hv
    · exact absurd (hf.symm.trans hst) (by decide)
    · exact .inr (.inr ⟨hme, .inr (.inr (.inl (update_self ..)))⟩)
  · refine (hal e he).move hrq (fun hin => hin) (fun hev => hev) fun hr => ?_
    rw [hrt] at hr
    exact absurd (some.inj hr).symm hrq

/-- **Every orderly call keeps the head line.** -/
theorem HeadInv.step {a : FetchCall D} (hpr : s.pre a) (hor : s.Orderly c a)
    (ho : s.step c a = .ok s') : ∃ es', s'.HeadInv es' := by
  cases a with
  | checkSignalsAndUpdate sig =>
    obtain ⟨f, hf, rfl⟩ := map_eq_ok.mp ho
    rcases checkSignalsAndUpdate_lines hf with
      ⟨hdr, hno, he⟩ | ⟨hb, ⟨status, hi⟩, hw⟩
    · have hn : { s with fetch := f }.Inv [] := h.toInv.drop hdr (by simp [hno]) (he ▸ h.event)
      refine ⟨[], h.drop hn hdr he (.inl rfl) fun q hq => ?_⟩
      have hq' : q ∈ f.retryPkt := hq
      rw [hno] at hq'
      cases hq'
    · exact ⟨es, h.same hb (by rw [hi]) (by rw [hi]) hw⟩
  | addToFTQ answers =>
    obtain ⟨f, hf, rfl⟩ := map_eq_ok.mp ho
    have hah := addToFTQ_keeps hf
    have hi := hah.icache
    exact ⟨es, h.same hah.buffers (by rw [hi]) (by rw [hi]) (fun hw => by rw [hi, hw])⟩
  | fetch i =>
    obtain ⟨f, hf, rfl⟩ := map_eq_ok.mp ho
    exact h.fetch hf
  | pipelineIcacheAccesses interrupt =>
    obtain ⟨p, hp, rfl⟩ := map_eq_ok.mp ho
    obtain ⟨-, hb, hi⟩ := noteHeadLine_keeps s.fetch
    obtain ⟨rfl, -⟩ | rfl | ⟨line, rest, -, rfl⟩ := pipelineIcacheAccesses_cases hp
    · exact ⟨es, h⟩
    · exact ⟨es, h.same hb (by rw [hi]) (by rw [hi]) (fun hw => by rw [hi, hw])⟩
    · exact ⟨_, h.push hb hi rfl⟩
  | finishTranslation r result full =>
    refine (h.ending_of_translating hpr).headInv (fun hs => ?_) (fun hs => ?_) ho
    · subst hs
      exact hor
    · subst hs
      exact hor
  | finishTranslationEvent full =>
    obtain rfl | ⟨r, he, hen⟩ := step_event ho
    · exact ⟨es, h⟩
    · refine (h.ending_of_event he).headInv (fun hs => by cases hs) (fun _ => ?_) hen
      intro hfo hpc
      exact ⟨hor r he hfo hpc, fun _ => rfl⟩
  | processCacheCompletion r bytes stall =>
    obtain ⟨f, hf, rfl⟩ := map_eq_ok.mp ho
    exact h.answered hpr hf
  | recvReqRetry accepted =>
    obtain ⟨es', hn⟩ := h.toInv.step hpr ho
    obtain ⟨p, hp, rfl⟩ := map_eq_ok.mp ho
    obtain ⟨-, rfl⟩ | ⟨hso, hst, rfl⟩ | ⟨-, rfl | ⟨r, status, hr, rfl⟩⟩ := recvReqRetry_cases hp
    · exact ⟨es, h.same rfl rfl rfl id⟩
    · obtain ⟨r, hr⟩ := ne_none_iff_exists'.mp hso
      exact absurd (h.retryIsHead r hr).1 hst
    · exact ⟨es, h⟩
    · obtain rfl := h.shape.toColumns.unique hn.shape.toColumns
      exact ⟨es, h.retried hr hn⟩
  | wakeFromQuiesce =>
    cases ho
    refine ⟨es, h.same rfl rfl rfl fun hw => ?_⟩
    exact absurd (hw.symm.trans hpr) (by decide)

end

/-! ### A line that has failed -/

/-- The head line is that of `r`, and has failed. -/
def FailedAt (s : FetchRun D) (r : Request) : Prop :=
  s.fetch.fetchBufferReqPtr.head? = some r ∧ s.stage r = .failed

theorem FailedAt.ne (h : s.FailedAt r) {q : Request} (hq : s.stage q = x) (hx : x ≠ .failed) :
    r ≠ q := by
  rintro rfl
  exact hx (hq.symm.trans h.2)

theorem FailedAt.move (h : s.FailedAt r) {q : Request} (hn : r ≠ q)
    (hf : f.fetchBufferReqPtr.head? = some r) :
    { s.moveTo (some q) x with fetch := f }.FailedAt r :=
  ⟨hf, (update_of_ne hn _ _).trans h.2⟩

theorem FailedAt.endTranslation (h : s.FailedAt r) {q : Request} (hn : r ≠ q)
    {result : Fetch.TranslationResult} {full : Bool}
    (ho : s.endTranslation c q result full = .ok s') : s'.FailedAt r := by
  obtain ⟨⟨ending, f⟩, hen, rfl⟩ := map_eq_ok.mp ho
  refine h.move hn ?_
  have hta : (s.fetch.fetchBufferReqPtr.take (s.fetch.fetchBufferReqPtr.idxOf q)).head? =
      some r := by
    obtain ⟨rs, hrs⟩ := head?_eq_some_iff.mp h.1
    rw [hrs, idxOf_cons_ne _ hn]
    rfl
  obtain ⟨-, heq⟩ | ⟨-, hes⟩ := finishTranslation_cases hen
  · cases heq
    exact h.1
  cases hes with
  | refusedAhead | discarded => exact hta
  | _ => exact h.1

/-- **Only a squash leaves a head line that has failed**: any other call keeps it. -/
theorem FailedAt.step {a : FetchCall D} (h : s.FailedAt r) (hin : s.Inv es) (hpr : s.pre a)
    (ho : s.step c a = .ok s') : s'.FailedAt r ∨ ∃ sig, a = .checkSignalsAndUpdate sig ∧
      (sig.commitSquash ≠ none ∨ sig.decodeSquash ≠ none) := by
  cases a with
  | checkSignalsAndUpdate sig =>
    obtain ⟨f, hf, rfl⟩ := map_eq_ok.mp ho
    obtain ⟨newPC, -, -, hsq, -⟩ | ⟨-, status, brseq, seq, rfl, -⟩ := checkSignalsAndUpdate_cases hf
    · refine .inr ⟨sig, rfl, hsq.imp (fun hc => by simp [hc]) fun hd => by simp [hd.2]⟩
    · exact .inl h
  | addToFTQ answers =>
    obtain ⟨f, hf, rfl⟩ := map_eq_ok.mp ho
    have hah := addToFTQ_keeps hf
    exact .inl ⟨by rw [hah.buffers]; exact h.1, h.2⟩
  | fetch i =>
    obtain ⟨f, hf, rfl⟩ := map_eq_ok.mp ho
    obtain rfl | ⟨-, rfl⟩ | ⟨hfr, -⟩ := fetch_cases hf
    · exact .inl h
    · exact .inl h
    · -- a line that is read has been answered
      have hhd := h.1
      rw [hin.shape.reqs, head?_map, map_eq_some_iff] at hhd
      obtain ⟨e, he, rfl⟩ := hhd
      have hva := headValid_of_frontValid hin.shape hfr e he
      have han := (hin.filled e (mem_of_mem_head? he) hva).1
      cases han.symm.trans h.2
  | pipelineIcacheAccesses interrupt =>
    obtain ⟨p, hp, rfl⟩ := map_eq_ok.mp ho
    obtain ⟨-, hb, -⟩ := noteHeadLine_keeps (c := c) s.fetch
    obtain ⟨rfl, -⟩ | rfl | ⟨line, rest, -, rfl⟩ := pipelineIcacheAccesses_cases hp
    · exact .inl h
    · exact .inl ⟨by rw [hb]; exact h.1, h.2⟩
    · have hfr := hin.unborn ⟨s.fetch.nextReq, c.fetchBufferAlignPC line⟩ le_rfl
      refine .inl (h.move (h.ne hfr (by decide)) ?_)
      simp only [pushRequest, hb, head?_append, h.1]
      rfl
  | finishTranslation q result full =>
    exact .inl (h.endTranslation (h.ne hpr (by decide)) ho)
  | finishTranslationEvent full =>
    obtain rfl | ⟨q, he, hen⟩ := step_event ho
    · exact .inl h
    · have hno : { s with fetch := { s.fetch with finishTranslationEvent := none } }.FailedAt r := h
      exact .inl (hno.endTranslation (h.ne (hin.event q he) (by decide)) hen)
  | processCacheCompletion q bytes stall =>
    obtain ⟨f, hf, rfl⟩ := map_eq_ok.mp ho
    obtain ⟨es', hsh, -, -, -, hes, -⟩ := processCacheCompletion_cases hin.shape hf
    refine .inl (h.move (h.ne hpr (by decide)) ?_)
    have hhd := h.1
    rw [hin.shape.reqs] at hhd
    rcases hes with ⟨rfl, -⟩ | ⟨rfl, -⟩
    · rw [hsh.reqs]
      exact hhd
    · rw [hsh.reqs, List.map_map]
      simpa only [comp_def, answer_req] using hhd
  | recvReqRetry accepted =>
    obtain ⟨p, hp, rfl⟩ := map_eq_ok.mp ho
    obtain ⟨-, rfl⟩ | ⟨-, -, rfl⟩ | ⟨-, rfl | ⟨q, status, hq, rfl⟩⟩ := recvReqRetry_cases hp
    · exact .inl h
    · exact .inl h
    · exact .inl h
    · exact .inl (h.move (h.ne (hin.retry q hq) (by decide)) h.1)
  | wakeFromQuiesce =>
    cases ho
    exact .inl h

end FetchRun

/-- **In every orderly run the head line is awaited**: in every state reached, a head line
that is not valid waits for its translation, its packet or a retry, or has failed and waits
for a squash. -/
theorem headAwaited_of_orderly {s : FetchRun D}
    (h : ((FetchRun.system D c).restrict (FetchRun.Orderly c)).Reachable s) : s.HeadAwaited := by
  have hin : ∃ es, s.HeadInv es := by
    refine h.invariant (fun s => ∃ es, s.HeadInv es) ?_ ?_
    · rintro s ⟨pc, rfl⟩
      exact ⟨[], { FetchRun.inv_start pc with
        retryIsHead := nofun
        alive := .inr (by simp) }⟩
    · rintro s a s' ⟨es, hes⟩ ⟨hpr, hor⟩ hok
      exact hes.step hpr hor hok
  obtain ⟨es, hes⟩ := hin
  exact hes.headAwaited

/-- The calls of a run in which the head packet is refused while the next line, in the
next page, is being translated. -/
def refusedHead : List (FetchCall Nat) :=
  [.addToFTQ fun _ => ⟨false, .zero, 0#32, false, .zero, .zero, false⟩,
    .pipelineIcacheAccesses false, .pipelineIcacheAccesses false,
    .finishTranslation ⟨0, 0x10fc0#64⟩ (.sent false) false]

/-- The head packet waits for its retry. -/
theorem headAwaited_refusedHead :
    ∃ s : FetchRun Nat,
      ((FetchRun.system Nat .shortQueue).restrict (FetchRun.Orderly .shortQueue)).Reachable s ∧
      s.fetch.retryPkt = some ⟨0, 0x10fc0#64⟩ ∧ s.HeadAwaited := by
  exact System.Reachable.exists_and_of_leads refusedHead (.start ⟨.ofAddr 0x10fc0#64, rfl⟩)
    (by decide +kernel) fun s hs => headAwaited_of_orderly hs

/-- **The head line is lost**: the next line turns out to be outside memory, which
overwrites the status, and the retry throws the head packet away. -/
theorem not_headAwaited_notMemory :
    ∃ s : FetchRun Nat, (FetchRun.system Nat .shortQueue).Reachable s ∧ ¬ s.HeadAwaited := by
  have hst : (FetchRun.system Nat .shortQueue).Reachable (.start (.ofAddr 0x10fc0#64)) :=
    .start ⟨_, rfl⟩
  obtain ⟨s, hs, hre, hva, hsg, hrt, hev⟩ := hst.exists_of_leads (p := fun s =>
      s.fetch.fetchBufferReqPtr.head? = some ⟨0, 0x10fc0#64⟩ ∧
      s.fetch.fetchBufferValid.head? = some false ∧ s.stage ⟨0, 0x10fc0#64⟩ = .refused ∧
      s.fetch.retryPkt = none ∧ s.fetch.finishTranslationEvent = none)
    (refusedHead ++ [.finishTranslation ⟨1, 0x11000#64⟩ .notMemory false, .recvReqRetry true])
    (by decide +kernel)
  refine ⟨s, hs, fun h => ?_⟩
  have hwa := h _ hre hva
  simp [hsg, hrt, hev] at hwa

end Gem5.Cpu.O3
