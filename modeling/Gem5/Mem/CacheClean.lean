import Gem5.Lib.Search
import Gem5.Lib.System
import Gem5.Mem.CoherentXBar

/-!
# Gem5.Mem.CacheClean

**Cache cleans at their destination.** A cache clean that meets a dirty copy reaches the crossbar
that is its destination as two packets with one packet id, in either order: the clean request, which
says that it was satisfied, and the `WriteClean` that carries the data. The crossbar answers the
clean when it has seen both.

The tables of the crossbar say at any time which packets have arrived alone
(`CleanRun.Inv`): a clean without its write is in both tables, a write without its clean only in
`outstandingCMO`. A pair leaves nothing in the tables and one response.
-/

namespace Gem5.Mem

open CoherentXBar List Gem5.Lib Packet XbarParams

/-! ### Runs -/

structure Arrival where
  pkt : XbarPacket
  port : Nat
  env : ReqEnv
  deriving Repr, DecidableEq

namespace Arrival

def snooped (a : Arrival) : XbarPacket :=
  if !a.env.bypassCaches && a.pkt.cmd ≠ .writeClean then a.pkt.snooped a.env.snoop else a.pkt

/-- The response to a clean request, and the port that it came from. -/
def response (a : Arrival) : XbarPacket × Nat := (a.snooped.makeResponse, a.port)

/-- A clean request for this crossbar that some cache above has satisfied. -/
def IsClean (c : XbarParams) (a : Arrival) : Prop :=
  (a.pkt.cmd = .cleanSharedReq ∨ a.pkt.cmd = .cleanInvalidReq) ∧ a.snooped.satisfied ∧
    c.isDestination a.pkt ∧ a.snooped.cacheResponding = false

def IsWriteClean (c : XbarParams) (a : Arrival) : Prop :=
  a.pkt.cmd = .writeClean ∧ c.isDestination a.pkt ∧ a.pkt.cacheResponding = false

instance (c : XbarParams) (a : Arrival) : Decidable (a.IsClean c) :=
  inferInstanceAs (Decidable (_ ∧ _))

instance (c : XbarParams) (a : Arrival) : Decidable (a.IsWriteClean c) :=
  inferInstanceAs (Decidable (_ ∧ _))

end Arrival

/-- The crossbar, how it started, and the packets that have arrived since, the newest first. -/
structure CleanRun where
  xbar : CoherentXBar
  start : CoherentXBar
  seen : List Arrival

namespace CleanRun

def Cleaned (c : XbarParams) (seen : List Arrival) (id : Nat) : Prop :=
  ∃ a ∈ seen, a.IsClean c ∧ a.pkt.packetId = id

/-- The `WriteClean` with this packet id has arrived. -/
def Written (c : XbarParams) (seen : List Arrival) (id : Nat) : Prop :=
  ∃ a ∈ seen, a.IsWriteClean c ∧ a.pkt.packetId = id

instance (c : XbarParams) (seen : List Arrival) (id : Nat) : Decidable (Cleaned c seen id) :=
  inferInstanceAs (Decidable (∃ _ ∈ _, _))

instance (c : XbarParams) (seen : List Arrival) (id : Nat) : Decidable (Written c seen id) :=
  inferInstanceAs (Decidable (∃ _ ∈ _, _))

def step (c : XbarParams) (s : CleanRun) (a : Arrival) : Except XbarFault CleanRun :=
  (s.xbar.recvTimingReq c a.pkt a.port a.env).map fun r =>
    { s with xbar := r.2, seen := a :: s.seen }

/-- The clean request or the write of a cache clean arrives for the first time. Cache cleans have
different packet ids and requests, also from those that the crossbar had when the run started, and
the packet is sent when it is forwarded. -/
def Arrives (c : XbarParams) (s : CleanRun) (a : Arrival) : Prop :=
  ((a.IsClean c ∧ ¬Cleaned c s.seen a.pkt.packetId ∧
        (∀ b ∈ s.seen, b.IsClean c → b.pkt.request ≠ a.pkt.request) ∧
        ∀ e ∈ s.start.routeTo, e.1 ≠ a.pkt.request) ∨
      (a.IsWriteClean c ∧ ¬Written c s.seen a.pkt.packetId)) ∧
    (∀ e ∈ s.start.outstandingCMO, e.1 ≠ a.pkt.packetId) ∧
    a.pkt.expressSnoop = false ∧ a.port < c.respLayers ∧ a.env.layerFree ∧
    a.env.sent

instance (c : XbarParams) (s : CleanRun) (a : Arrival) : Decidable (s.Arrives c a) :=
  inferInstanceAs (Decidable (_ ∧ _))

/-- Only a clean request that comes before its write can find the routing table full. -/
def Room (c : XbarParams) (s : CleanRun) (a : Arrival) : Prop :=
  a.IsClean c → ¬Written c s.seen a.pkt.packetId →
    s.xbar.routeTo.length < c.maxRoutingTableSizeCheck

end CleanRun

abbrev cleanSystem (c : XbarParams) : System CleanRun Arrival XbarFault where
  init s := s.xbar = s.start ∧ s.seen = [] ∧ s.xbar.responses = []
  step := CleanRun.step c
  pre := CleanRun.Arrives c

variable {c : XbarParams} {x x' : CoherentXBar} {s s' : CleanRun} {a b : Arrival} {id : Nat}

/-! ### What one arrival does -/

namespace Arrival

@[simp] theorem snooped_packetId : a.snooped.packetId = a.pkt.packetId := by
  unfold snooped; split <;> rfl

@[simp] theorem snooped_request : a.snooped.request = a.pkt.request := by
  unfold snooped; split <;> rfl

@[simp] theorem snooped_cmd : a.snooped.cmd = a.pkt.cmd := by
  unfold snooped; split <;> rfl

@[simp] theorem isDestination_snooped : c.isDestination a.snooped = c.isDestination a.pkt := by
  unfold snooped; split <;> rfl

theorem cacheResponding_of_snooped (h : a.snooped.cacheResponding = false) :
    a.pkt.cacheResponding = false := by
  unfold snooped at h
  split at h
  · exact (Bool.or_eq_false_iff.mp h).1
  · exact h

theorem IsClean.attributes (h : a.IsClean c) : a.snooped.isClean ∧
    a.snooped.isWrite = false ∧ a.snooped.needsResponse ∧ a.snooped.isCleanEviction = false := by
  simp only [isClean, isWrite, needsResponse, isCleanEviction, snooped_cmd]
  rcases h.1 with hcm | hcm <;> rw [hcm] <;> decide

theorem IsClean.recvTimingReq (h : a.IsClean c) (harr : s.Arrives c a) :
    x.recvTimingReq c a.pkt a.port a.env =
      (x.completeClean c a.snooped a.port >>= fun r => (true, ·) <$> r.1.respond r.2) := by
  obtain ⟨-, -, hex, -, hfr, -⟩ := harr
  obtain ⟨hcl, hwr, hn, hev⟩ := h.attributes
  obtain ⟨-, hsa, hd, hr⟩ := h
  have hsi : c.sinkPacket a.snooped = false := by
    simp [sinkPacket, hr, hn, hev]
  have hfo : c.forwardPacket a.snooped = false := by
    simp [forwardPacket, hcl, hd]
  have hpr := cacheResponding_of_snooped hr
  have hpo : x.recvTimingReq c a.pkt a.port a.env =
      x.process c a.pkt a.snooped a.port a.env.sent := by
    simp [CoherentXBar.recvTimingReq, hex, hpr, hfr, hd, snooped]
  rw [hpo]
  simp [process, hsi, hfo, hn, hpr, hr, hcl, hsa, hd, remember, -pure_eq_ok]

theorem IsWriteClean.isWrite (h : a.IsWriteClean c) : a.pkt.isWrite := by
  rw [Packet.isWrite, h.1]; rfl

theorem IsWriteClean.recvTimingReq (h : a.IsWriteClean c) (harr : s.Arrives c a) :
    ∃ sent, x.recvTimingReq c a.pkt a.port a.env =
      ({ x with forwarded := sent :: x.forwarded }.completeClean c a.pkt a.port >>=
        fun r => (true, ·) <$> r.1.respond r.2) := by
  have hwr := h.isWrite
  obtain ⟨hc, hde, hr⟩ := h
  obtain ⟨-, -, hex, -, hfr, hse⟩ := harr
  have hcl : a.pkt.isClean = false := by rw [isClean, hc]; rfl
  have hne : a.pkt.needsResponse = false := by rw [needsResponse, hc]; rfl
  have hsi : c.sinkPacket a.pkt = false := by
    simp [sinkPacket, hr, hwr, isCleanEviction, hc]
  have hfo : c.forwardPacket a.pkt := by
    simp [forwardPacket, hcl, hwr]
  have hpr : x.recvTimingReq c a.pkt a.port a.env = x.process c a.pkt a.pkt a.port a.env.sent := by
    simp [CoherentXBar.recvTimingReq, hex, hr, hfr, hc]
  rw [hpr]
  simp [process, hsi, hfo, hne, hr, hcl, hc, hde, hse, remember]
  exact ⟨_, rfl⟩

end Arrival

/-! ### What the tables say -/

namespace CleanRun

/-- **The tables hold the packets that have arrived alone**, besides what they held at the start, and
every clean that is complete has one response. -/
structure Inv (c : XbarParams) (s : CleanRun) : Prop where
  cmo : ∀ e, e ∈ s.xbar.outstandingCMO ↔ e ∈ s.start.outstandingCMO ∨
    (∃ a ∈ s.seen, a.IsClean c ∧ ¬Written c s.seen a.pkt.packetId ∧
      e = (a.pkt.packetId, some a.snooped)) ∨
    ∃ a ∈ s.seen, a.IsWriteClean c ∧ ¬Cleaned c s.seen a.pkt.packetId ∧ e = (a.pkt.packetId, none)
  route : ∀ e, e ∈ s.xbar.routeTo ↔ e ∈ s.start.routeTo ∨
    ∃ a ∈ s.seen, a.IsClean c ∧ ¬Written c s.seen a.pkt.packetId ∧ e = (a.pkt.request, a.port)
  responses : ∀ r, r ∈ s.xbar.responses ↔
    ∃ a ∈ s.seen, a.IsClean c ∧ Written c s.seen a.pkt.packetId ∧ r = a.response
  once : (s.xbar.responses.map (·.1.packetId)).Nodup
  fresh : ∀ a ∈ s.seen, a.IsClean c →
    a.port < c.respLayers ∧ ∀ e ∈ s.start.routeTo, e.1 ≠ a.pkt.request
  unique : ∀ a ∈ s.seen, ∀ b ∈ s.seen, a.IsClean c → b.IsClean c →
    a.pkt.packetId = b.pkt.packetId ∨ a.pkt.request = b.pkt.request → a = b

@[simp] theorem cleaned_cons : Cleaned c (a :: s.seen) id ↔
    (a.IsClean c ∧ a.pkt.packetId = id) ∨ Cleaned c s.seen id := by
  simp [Cleaned]

@[simp] theorem written_cons : Written c (a :: s.seen) id ↔
    (a.IsWriteClean c ∧ a.pkt.packetId = id) ∨ Written c s.seen id := by
  simp [Written]

theorem not_isWriteClean (h : a.IsClean c) : ¬a.IsWriteClean c := by
  rintro ⟨hcm, -⟩
  rcases h.1 with hcl | hcl <;> rw [hcl] at hcm <;> cases hcm

theorem Arrives.clean (harr : s.Arrives c a) (ha : a.IsClean c) :
    ¬Cleaned c s.seen a.pkt.packetId ∧
      (∀ b ∈ s.seen, b.IsClean c → b.pkt.request ≠ a.pkt.request) ∧
      ∀ e ∈ s.start.routeTo, e.1 ≠ a.pkt.request := by
  rcases harr.1 with h | h
  · exact h.2
  · exact absurd h.1 (not_isWriteClean ha)

theorem Arrives.write (harr : s.Arrives c a) (ha : a.IsWriteClean c) :
    ¬Written c s.seen a.pkt.packetId := by
  rcases harr.1 with h | h
  · exact absurd ha (not_isWriteClean h.1)
  · exact h.2

/-! ### Every arrival keeps the tables -/

theorem response_packetId : a.response.1.packetId = a.pkt.packetId := a.snooped_packetId

theorem Inv.once_cons (hinv : s.Inv c)
    (h : ¬(Cleaned c s.seen b.pkt.packetId ∧ Written c s.seen b.pkt.packetId)) :
    ((b.response :: s.xbar.responses).map (·.1.packetId)).Nodup := by
  refine nodup_cons.mpr ⟨fun hme => ?_, hinv.once⟩
  obtain ⟨r, hr, hi⟩ := mem_map.mp hme
  obtain ⟨b', hb, hcl, hwr, rfl⟩ := (hinv.responses r).mp hr
  replace hi := response_packetId.symm.trans (hi.trans response_packetId)
  exact h ⟨⟨b', hb, hcl, hi⟩, hi ▸ hwr⟩

theorem cleaned_of_mem (hb : b ∈ s.seen) (h : b.IsClean c) : Cleaned c s.seen b.pkt.packetId :=
  ⟨b, hb, h, rfl⟩

theorem written_of_mem (hb : b ∈ s.seen) (h : b.IsWriteClean c) : Written c s.seen b.pkt.packetId :=
  ⟨b, hb, h, rfl⟩

theorem Inv.unique_cons (hinv : s.Inv c) (harr : s.Arrives c a) :
    ∀ b ∈ a :: s.seen, ∀ b' ∈ a :: s.seen, b.IsClean c → b'.IsClean c →
      b.pkt.packetId = b'.pkt.packetId ∨ b.pkt.request = b'.pkt.request → b = b' := by
  have huni := hinv.unique
  have hnew := harr.clean
  grind [cleaned_of_mem]

theorem Inv.fresh_cons (hinv : s.Inv c) (harr : s.Arrives c a) :
    ∀ b ∈ a :: s.seen, b.IsClean c →
      b.port < c.respLayers ∧ ∀ e ∈ s.start.routeTo, e.1 ≠ b.pkt.request := by
  intro b hb hcl
  rcases mem_cons.mp hb with rfl | hb
  · exact ⟨harr.2.2.2.1, (harr.clean hcl).2.2⟩
  · exact hinv.fresh b hb hcl

section Keeps

variable (hinv : s.Inv c) (harr : s.Arrives c a)
include hinv harr

theorem Inv.find_none (hcl : ¬Cleaned c s.seen a.pkt.packetId)
    (hwr : ¬Written c s.seen a.pkt.packetId) :
    s.xbar.outstandingCMO.find? (·.1 = a.pkt.packetId) = none := by
  refine find?_eq_none.mpr fun e he => ?_
  rw [decide_eq_true_eq]
  intro hs
  rcases (hinv.cmo e).mp he with he | ⟨b, hb, hbc, -, rfl⟩ | ⟨b, hb, hbw, -, rfl⟩
  · exact harr.2.1 e he hs
  · exact hcl ⟨b, hb, hbc, hs⟩
  · exact hwr ⟨b, hb, hbw, hs⟩

/-- A clean request without its write enters both tables, if there is room. -/
theorem Inv.clean_first (ha : a.IsClean c) (hwr : ¬Written c s.seen a.pkt.packetId) :
    ∃ s', s'.Inv c ∧ s.step c a = if s.xbar.routeTo.length + 1 > c.maxRoutingTableSizeCheck then
      .error .routingTableSize else .ok s' := by
  obtain ⟨hne, hre, hro⟩ := harr.clean ha
  have hnot := not_isWriteClean ha
  refine ⟨{ s with
    xbar := { s.xbar with
      outstandingCMO := (a.pkt.packetId, some a.snooped) :: s.xbar.outstandingCMO
      routeTo := (a.pkt.request, a.port) :: s.xbar.routeTo }
    seen := a :: s.seen }, ?_, ?_⟩
  · constructor
    case cmo =>
      intro e
      simp only [mem_cons, written_cons, cleaned_cons, hinv.cmo e]
      grind [cleaned_of_mem, written_of_mem]
    case route =>
      intro e
      simp only [mem_cons, written_cons, hinv.route e]
      grind
    case responses =>
      intro r
      simp only [written_cons, hinv.responses r]
      grind
    case once => exact hinv.once
    case fresh => exact hinv.fresh_cons harr
    case unique => exact hinv.unique_cons harr
  · have hf := hinv.find_none harr hne hwr
    have han : s.xbar.routeTo.any (·.1 = a.pkt.request) = false := by
      refine any_eq_false.mpr fun e he => ?_
      rw [decide_eq_true_eq]
      intro hs
      rcases (hinv.route e).mp he with he | ⟨b, hb, hbc, -, rfl⟩
      · exact hro e he hs
      · exact hre b hb hbc hs
    rw [step, ha.recvTimingReq harr]
    simp only [completeClean, Arrival.snooped_packetId, hf, ha.attributes.2.1,
      Arrival.snooped_request, insertRoute, han, Bool.false_eq_true, if_false]
    split <;> rfl

/-- A clean request after its write answers itself, and the pair leaves the table. -/
theorem Inv.clean_second (ha : a.IsClean c) (hwr : Written c s.seen a.pkt.packetId) :
    ∃ s', s'.Inv c ∧ s.step c a = .ok s' := by
  obtain ⟨hn, hreq, hrou⟩ := harr.clean ha
  have hsta := harr.2.1
  refine ⟨{ s with
    xbar := { s.xbar with
      outstandingCMO := s.xbar.outstandingCMO.filter (·.1 ≠ a.pkt.packetId)
      responses := a.response :: s.xbar.responses }
    seen := a :: s.seen }, ?_, ?_⟩
  · constructor
    case cmo =>
      intro e
      simp only [mem_filter, mem_cons, written_cons, cleaned_cons, hinv.cmo e]
      grind
    case route =>
      intro e
      simp only [written_cons, hinv.route e]
      grind
    case responses =>
      intro r
      simp only [mem_cons, written_cons, hinv.responses r]
      grind
    case once => exact hinv.once_cons fun h => hn h.1
    case fresh => exact hinv.fresh_cons harr
    case unique => exact hinv.unique_cons harr
  · obtain ⟨b, hb, hbw, hid⟩ := hwr
    have hme : (a.pkt.packetId, none) ∈ s.xbar.outstandingCMO :=
      (hinv.cmo _).mpr (.inr (.inr ⟨b, hb, hbw, hid ▸ hn, by rw [hid]⟩))
    obtain ⟨e, hf⟩ : ∃ e, s.xbar.outstandingCMO.find? (·.1 = a.pkt.packetId) = some e :=
      Option.isSome_iff_exists.mp (find?_isSome.mpr ⟨_, hme, decide_eq_true rfl⟩)
    rw [step, ha.recvTimingReq harr]
    simp only [completeClean, Arrival.snooped_packetId, hf, ha.attributes.2.1]
    show Except.map _ ((true, ·) <$> respond _ (some (a.snooped, a.port))) = _
    rw [respond, if_pos ha.attributes.2.2.1]
    rfl

theorem Inv.write_first (ha : a.IsWriteClean c) (hcl : ¬Cleaned c s.seen a.pkt.packetId) :
    ∃ s', s'.Inv c ∧ s.step c a = .ok s' := by
  have hne := harr.write ha
  have hnot : ¬a.IsClean c := fun h => not_isWriteClean h ha
  obtain ⟨sent, hre⟩ := ha.recvTimingReq harr
  refine ⟨{ s with
    xbar := { s.xbar with
      outstandingCMO := (a.pkt.packetId, none) :: s.xbar.outstandingCMO
      forwarded := sent :: s.xbar.forwarded }
    seen := a :: s.seen }, ?_, ?_⟩
  · constructor
    case cmo =>
      intro e
      simp only [mem_cons, written_cons, cleaned_cons, hinv.cmo e]
      grind [cleaned_of_mem, written_of_mem]
    case route =>
      intro e
      simp only [written_cons, hinv.route e]
      grind [cleaned_of_mem]
    case responses =>
      intro r
      simp only [written_cons, hinv.responses r]
      grind [cleaned_of_mem]
    case once => exact hinv.once
    case fresh => exact hinv.fresh_cons harr
    case unique => exact hinv.unique_cons harr
  · rw [step, hre]
    simp only [completeClean, hinv.find_none harr hcl hne, ha.isWrite]
    rfl

theorem Inv.write_second (ha : a.IsWriteClean c) (hcl : Cleaned c s.seen a.pkt.packetId) :
    ∃ s', s'.Inv c ∧ s.step c a = .ok s' := by
  have hn := harr.write ha
  have hnot : ¬a.IsClean c := fun h => not_isWriteClean h ha
  obtain ⟨b, hb, hc, hi⟩ := id hcl
  have hst := harr.2.1
  have hfr := (hinv.fresh b hb hc).2
  have hun := hinv.unique
  obtain ⟨sent, hre⟩ := ha.recvTimingReq harr
  refine ⟨{ s with
    xbar := { s.xbar with
      outstandingCMO := s.xbar.outstandingCMO.filter (·.1 ≠ a.pkt.packetId)
      routeTo := s.xbar.routeTo.filter (·.1 ≠ b.pkt.request)
      forwarded := sent :: s.xbar.forwarded
      responses := b.response :: s.xbar.responses }
    seen := a :: s.seen }, ?_, ?_⟩
  · constructor
    case cmo =>
      intro e
      simp only [mem_filter, mem_cons, written_cons, cleaned_cons, hinv.cmo e]
      grind [written_of_mem]
    case route =>
      intro e
      simp only [mem_filter, mem_cons, written_cons, hinv.route e]
      grind
    case responses =>
      intro r
      simp only [mem_cons, written_cons, hinv.responses r]
      grind
    case once => exact hinv.once_cons fun h => hn (hi ▸ h.2)
    case fresh => exact hinv.fresh_cons harr
    case unique => exact hinv.unique_cons harr
  -- The entry of the packet id is the clean request, since its write is new.
  have hen : ∀ e ∈ s.xbar.outstandingCMO, e.1 = a.pkt.packetId →
      e = (a.pkt.packetId, some b.snooped) := by
    intro e he hs
    rcases (hinv.cmo e).mp he with he | ⟨b', hb', hbc', -, rfl⟩ | ⟨b', hb', hbw, -, rfl⟩
    · exact absurd hs (hst e he)
    · obtain rfl := hun b' hb' b hb hbc' hc (.inl (hs.trans hi.symm))
      rw [hi]
    · exact absurd ⟨b', hb', hbw, hs⟩ hn
  have hro : ∀ e ∈ s.xbar.routeTo, e.1 = b.pkt.request → e = (b.pkt.request, b.port) := by
    intro e he hs
    rcases (hinv.route e).mp he with he | ⟨b', hb', hbc', -, rfl⟩
    · exact absurd hs (hfr e he)
    · obtain rfl := hun b' hb' b hb hbc' hc (.inr hs)
      rfl
  have hf : s.xbar.outstandingCMO.find? (·.1 = a.pkt.packetId) =
      some (a.pkt.packetId, some b.snooped) := by
    have hm : (b.pkt.packetId, some b.snooped) ∈ s.xbar.outstandingCMO :=
      (hinv.cmo _).mpr (.inr (.inl ⟨b, hb, hc, hi ▸ hn, rfl⟩))
    exact find?_key_eq_some (hi ▸ hm) hen
  have hfn : s.xbar.routeTo.find? (·.1 = b.pkt.request) = some (b.pkt.request, b.port) := by
    have hm : (b.pkt.request, b.port) ∈ s.xbar.routeTo :=
      (hinv.route _).mpr (.inr ⟨b, hb, hc, hi ▸ hn, rfl⟩)
    exact find?_key_eq_some hm hro
  rw [step, hre]
  simp only [completeClean, hf, ha.isWrite, Arrival.snooped_request, hfn, (hinv.fresh b hb hc).1]
  show Except.map _ ((true, ·) <$> respond _ (some (b.snooped, b.port))) = _
  rw [respond, if_pos hc.attributes.2.2.1]
  rfl

/-- **One arrival**: it is accepted if the routing table has room, and it keeps the tables. -/
theorem Inv.outcome : ((∃ s', s.step c a = .ok s') ↔ s.Room c a) ∧
    ∀ s', s.step c a = .ok s' → s'.Inv c := by
  have hr : (∃ s', s'.Inv c ∧ s.step c a = .ok s') → s.Room c a →
      ((∃ s', s.step c a = .ok s') ↔ s.Room c a) ∧ ∀ s', s.step c a = .ok s' → s'.Inv c := by
    rintro ⟨s₁, hs₁, hs⟩ hr
    rw [hs]
    refine ⟨⟨fun _ => hr, fun _ => ⟨_, rfl⟩⟩, fun s' h => ?_⟩
    cases h
    exact hs₁
  rcases harr.1 with ⟨ha, -⟩ | ⟨ha, -⟩
  · by_cases hw : Written c s.seen a.pkt.packetId
    · exact hr (hinv.clean_second harr ha hw) fun _ hno => absurd hw hno
    · obtain ⟨s₁, hs₁, hs⟩ := hinv.clean_first harr ha hw
      by_cases hfl : s.xbar.routeTo.length + 1 > c.maxRoutingTableSizeCheck
      · rw [hs, if_pos hfl]
        refine ⟨⟨fun ⟨_, h⟩ => (by cases h), fun hr => ?_⟩, fun s' h => (by cases h)⟩
        exact absurd (hr ha hw) (by omega)
      · rw [if_neg hfl] at hs
        exact hr ⟨s₁, hs₁, hs⟩ fun _ _ => by omega
  · have hw : s.Room c a := fun hc => absurd ha (not_isWriteClean hc)
    by_cases hc : Cleaned c s.seen a.pkt.packetId
    · exact hr (hinv.write_second harr ha hc) hw
    · exact hr (hinv.write_first harr ha hc) hw

end Keeps

theorem inv_of_reachable (hs : (cleanSystem c).Reachable s) : s.Inv c := by
  refine hs.invariant (CleanRun.Inv c) ?_ fun s a s' hinv harr h => (hinv.outcome harr).2 s' h
  rintro s ⟨hst, hse, hr⟩
  rw [hst] at hr
  constructor <;> simp [hst, hse, hr]

/-! ### Every pair is answered once -/

/-- A crossbar at the point of coherency with two CPU-side ports, whose routing table has at most
`size` entries. -/
def pocXbar (size : Nat) : XbarParams :=
  { pointOfCoherency := true, pointOfUnification := false, maxRoutingTableSizeCheck := size
    respLayers := 2 }

def cleanPacket (cmd : MemCmd) (id port : Nat) : Arrival where
  pkt := { cmd := cmd, satisfied := true, packetId := id, request := id, toPOC := true }
  port := port
  env := {}

end CleanRun

end Gem5.Mem
