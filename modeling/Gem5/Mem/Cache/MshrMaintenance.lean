import Gem5.Mem.Cache.CacheRuns

/-!
# Gem5.Mem.Cache.MshrMaintenance

**Cache maintenance in an MSHR.** A request to clean or to invalidate a block travels to the point
of coherence on its own: it is never merged with the request of another target, and the targets
behind it wait until its response is there. Only then, when the block has survived, are they moved
up (`promoteReadable`, `promoteWritable`) and serviced with it, behind it. A clean request takes the
dirty data of the block along when it is sent, so the block is not dirty when it is serviced.

The runs are those of one MSHR and of the block of its line: on a response the MSHR promotes, hands
out its targets and prepares the next request, and the other calls come in between.

Two slips lose data (`clean_loses_write`). The promotions stop at an invalidation but not at a clean,
although they are documented to stop at any cache maintenance: a clean that is moved up behind a write
drops what was written. And a write can hit a block while a clean request for it is in flight.
-/

namespace Gem5.Mem

open Gem5.Lib List Mshr MshrRun Target TargetList System.Reachable

/-! ### Runs with whole responses -/

inductive LineEvent
  /-- A call of the cache or of a neighbour. -/
  | call (a : MshrCall)
  /-- The request of the first target is sent. -/
  | send (pendingModifiedResp : Bool)
  /-- A hit, a snoop, a writeback from above or an eviction leaves the block like this. -/
  | touch (b : Option CacheBlk)
  /-- A response, with the block as it is filled, if it is, and as the targets leave it. -/
  | response (pkt : Packet) (filled : CacheBlk) (left : Option CacheBlk) (curTick : Nat)

/-- The calls that are part neither of sending a request nor of handling a response. -/
def MshrCall.betweenResponses : MshrCall → Bool
  | .allocateTarget .. => true
  | .handleSnoop .. => true
  | .setDownstreamPending => true
  | .clearDownstreamPending => true
  | _ => false

def MshrCall.marksInService : MshrCall → Bool
  | .markInService _ => true
  | _ => false

namespace Mshr

/-- The end of `recvTimingResp`: the MSHR waits to be sent again, or is freed. -/
def settle (m : Mshr) (curTick : Nat) : Except MshrFault Mshr := do
  let (promoted, m) ← m.promoteDeferredTargets curTick
  if promoted then m.markPending else m.deallocate

/-- No cache maintenance is among the targets that a response moves up. -/
def keepsMaintenance (m : Mshr) (pkt : Packet) (b : Option CacheBlk) : Prop :=
  ∀ m' ∈ (promote m pkt b).toOption,
    ∀ t ∈ m'.targets.elems.drop m.targets.elems.length, t.pkt.req.isCacheMaintenance = false

instance (m : Mshr) (pkt : Packet) (b : Option CacheBlk) : Decidable (m.keepsMaintenance pkt b) :=
  inferInstanceAs (Decidable (∀ _ ∈ _, _))

end Mshr

namespace MshrRun

/-- `BaseCache::recvTimingResp`, as far as the MSHR is concerned. -/
def respond (s : MshrRun) (pkt : Packet) (b : Option CacheBlk) (curTick : Nat) :
    Except MshrFault MshrRun := do
  let m ← promote s.mshr pkt b
  let (ready, m) ← m.extractServiceableTargets pkt
  let m ← m.settle curTick
  return { s with mshr := m, serviced := s.serviced ++ [ready.elems], sent := none }

end MshrRun

/-- An MSHR with its history, and the block of its line when the cache has it. -/
structure LineRun where
  run : MshrRun
  blk : Option CacheBlk

namespace LineRun

variable (s : LineRun)

/-- `BaseCache::sendMSHRQueuePacket`: a clean request takes the dirty data of the block along. -/
def send (p : CacheParams) (pendingModifiedResp : Bool) : Except (CacheFault Empty) LineRun :=
  match s.run.mshr.targets.elems with
  | [] => .error (.mshr .noTarget)
  | t :: _ => do
      let created ← createMissPacket p t.pkt s.blk s.run.mshr.targets.flags.needsWritable
        s.run.mshr.targets.flags.isWholeLineWrite
      if created.isNone && t.pkt.isWrite then throw .forwardedWrite
      let run ← ofMshr ((s.run.withMshr { s.run.mshr with isForward := created.isNone }).step
        (.markInService pendingModifiedResp))
      return { run, blk := s.blk.map fun b =>
        if (created.getD t.pkt).isClean && b.isDirty then b.writeClean else b }

def found (pkt : Packet) (filled : CacheBlk) : Option CacheBlk :=
  if s.run.mshr.isFill pkt then some filled else s.blk

def handle (p : CacheParams) : LineEvent → Except (CacheFault Empty) LineRun
  | .call a => do
      let run ← ofMshr (s.run.step a)
      return { s with run }
  | .send pendingModifiedResp => s.send p pendingModifiedResp
  | .touch b => .ok { s with blk := b }
  | .response pkt filled left curTick => do
      let run ← ofMshr (s.run.respond pkt (s.found pkt filled) curTick)
      return { run, blk := left }

/-- A response answers a request in flight. A prefetch that a cache above will answer is marked in
service without being sent. -/
def awaits : LineEvent → Prop
  | .call a => a.betweenResponses ∨
      a.marksInService ∧ s.run.mshr.targets.elems.head?.any (·.pkt.cmd = .hardPFReq)
  | .response .. => s.run.sent.isSome
  | _ => True

instance : DecidablePred s.awaits
  | .call _ => inferInstanceAs (Decidable (_ ∨ _))
  | .send _ | .touch _ => inferInstanceAs (Decidable True)
  | .response .. => inferInstanceAs (Decidable (s.run.sent.isSome))

def Dirty (b : Option CacheBlk) : Prop := b.any (·.isDirty)

instance (b : Option CacheBlk) : Decidable (Dirty b) := inferInstanceAs (Decidable (_ = true))

/-- **The responses move no cache maintenance up, and nothing makes the block dirty while a clean
request for it is in flight.** -/
def Keeps : LineEvent → Prop
  | .response pkt filled _ _ => s.run.mshr.keepsMaintenance pkt (s.found pkt filled)
  | .touch b => s.run.sent.any (·.pkt.isClean) → Dirty b → Dirty s.blk
  | _ => True

instance : DecidablePred s.Keeps
  | .call _ | .send _ => inferInstanceAs (Decidable True)
  | .touch _ => inferInstanceAs (Decidable (_ → _ → _))
  | .response .. => inferInstanceAs (Decidable (Mshr.keepsMaintenance _ _ _))

/-- The MSHR has just been allocated. -/
def Starts : Prop := s.run.Starts

end LineRun

abbrev lineSystem (p : CacheParams) : System LineRun LineEvent (CacheFault Empty) where
  init := LineRun.Starts
  step s := s.handle p
  pre := LineRun.awaits

/-! ### Maintenance targets -/

/-- A request of the CPU side to clean or to invalidate the block. -/
def Target.maintains (t : Target) : Bool := t.source = .fromCPU && t.pkt.req.isCacheMaintenance

@[simp] theorem replaceUpgrade_req (pkt : Packet) : (replaceUpgrade pkt).req = pkt.req := by
  unfold replaceUpgrade
  split <;> rfl

@[simp] theorem Target.canon_maintains (t : Target) : t.canon.maintains = t.maintains := by
  show (t.source = .fromCPU && (replaceUpgrade t.pkt).req.isCacheMaintenance) = t.maintains
  rw [replaceUpgrade_req, maintains]

theorem Target.maintains_of_canon {t u : Target} (h : t.canon = u.canon) :
    t.maintains = u.maintains := by
  rw [← canon_maintains, h, canon_maintains]

theorem Target.source_of_canon {t u : Target} (h : t.canon = u.canon) : t.source = u.source :=
  (congrArg source h : t.canon.source = u.canon.source)

theorem Target.isClean_of_canon {t u : Target} (h : t.canon = u.canon) :
    t.pkt.isClean = u.pkt.isClean := by
  have hre : ∀ pkt : Packet, (replaceUpgrade pkt).isClean = pkt.isClean := by
    rintro ⟨cmd⟩
    cases cmd <;> rfl
  rw [← hre, ← hre u.pkt]
  exact congrArg (·.pkt.isClean) h

/-- A maintenance target is the first of the list, and nobody waits behind it. -/
def Alone : List Target → Prop
  | [] => True
  | t :: ts => (∀ u ∈ ts, u.maintains = false) ∧ (t.maintains → ∀ u ∈ ts, u.source = .fromSnoop)

theorem Alone.of_forall {ts : List Target} (h : ∀ t ∈ ts, t.maintains = false) : Alone ts := by
  cases ts with
  | nil => trivial
  | cons t ts =>
    have ht := h t mem_cons_self
    exact ⟨fun u hu => h u (mem_cons_of_mem _ hu), fun hma => by simp [ht] at hma⟩

theorem waiting_of_snoops {ts : List Target} (h : ∀ t ∈ ts, t.source = .fromSnoop) :
    waiting ts = [] := by
  simpa [waiting] using h

theorem Alone.waiting {t : Target} {ts : List Target} (h : Alone (t :: ts))
    (ht : t.maintains) : Gem5.Mem.waiting (t :: ts) = [t.canon] := by
  have hcp : t.source = .fromCPU := by
    simp only [maintains, Bool.and_eq_true, decide_eq_true_eq] at ht
    exact ht.1
  rw [show t :: ts = [t] ++ ts from rfl, waiting_append, waiting_of_snoops (h.2 ht)]
  simp [Gem5.Mem.waiting, hcp]

theorem Alone.singleton (t : Target) : Alone [t] :=
  ⟨fun _ hu => (nomatch hu), fun _ _ hu => (nomatch hu)⟩

/-- The targets are marked, and more of them join behind: snoops, and others only behind a target
that is not maintenance. -/
def Extends (ts ts' : List Target) : Prop :=
  ∃ (f : Target → Target) (extra : List Target), (∀ t, (f t).canon = t.canon) ∧
    ts' = ts.map f ++ extra ∧ ∀ u ∈ extra, u.maintains = false ∧
      (u.source = .fromSnoop ∨ ∃ t ts₀, ts = t :: ts₀ ∧ t.maintains = false)

namespace Extends

variable {ts ts' : List Target}

theorem map {f : Target → Target} (hf : ∀ t, (f t).canon = t.canon) (ts : List Target) :
    Extends ts (ts.map f) :=
  ⟨f, [], hf, (append_nil _).symm, fun _ hu => nomatch hu⟩

theorem refl (ts : List Target) : Extends ts ts := by
  simpa using map (fun _ => rfl) ts

theorem clearPending (ts : List Target) : Extends ts (clearPending ts) :=
  map (f := fun t => { t with markedPending := false }) (fun _ => rfl) ts

theorem replaceUpgrades (l : TargetList) : Extends l.elems l.replaceUpgrades.elems := by
  unfold TargetList.replaceUpgrades
  split
  · exact map (fun t => by simp [canon, replaceUpgrade_idem]) l.elems
  · exact refl _

theorem head (h : Extends ts ts') {t : Target} (ht : ts.head?.map canon = some t.canon) :
    ts'.head?.map canon = some t.canon := by
  obtain ⟨f, extra, hf, rfl, -⟩ := h
  cases ts with
  | nil => cases ht
  | cons t₀ ts =>
    simp [hf, Option.some.inj ht]

theorem alone (h : Extends ts ts') (hts : Alone ts) : Alone ts' := by
  obtain ⟨f, extra, hf, rfl, hex⟩ := h
  have hm : ∀ t, (f t).maintains = t.maintains := fun t => maintains_of_canon (hf t)
  cases ts with
  | nil => exact Alone.of_forall fun u hu => (hex u hu).1
  | cons t ts =>
    refine ⟨fun u hu => ?_, fun hhd u hu => ?_⟩
    · rcases mem_append.mp hu with hu | hu
      · obtain ⟨u₀, hu₀, rfl⟩ := mem_map.mp hu
        rw [hm]
        exact hts.1 u₀ hu₀
      · exact (hex u hu).1
    · rw [hm] at hhd
      rcases mem_append.mp hu with hu | hu
      · obtain ⟨u₀, hu₀, rfl⟩ := mem_map.mp hu
        rw [source_of_canon (hf u₀)]
        exact hts.2 hhd u₀ hu₀
      · rcases (hex u hu).2 with hsn | ⟨t', ts', heq, hn⟩
        · exact hsn
        · -- The head is a maintenance target: only snoops join behind it.
          obtain ⟨rfl, -⟩ := cons.inj heq
          rw [hhd] at hn
          cases hn

end Extends

namespace Mshr

variable {m m' : Mshr}

variable {pkt : Packet} {curTick : Nat} {b : Option CacheBlk}

theorem extends_allocateTarget {whenReady order : Nat} {allocOnFill : Bool}
    (h : m.allocateTarget pkt whenReady order allocOnFill = .ok m') :
    Extends m.targets.elems m'.targets.elems := by
  obtain ⟨-, ⟨p, -, -, rfl⟩ | ⟨t, ts, -, hel, ht, hpk, -, rfl⟩⟩ := allocateTarget_cases h
  · exact .refl _
  · refine ⟨id, _, fun _ => rfl, by rw [map_id]; rfl, fun u hu => ?_⟩
    obtain rfl := mem_singleton.mp hu
    exact ⟨by simp [maintains, hpk], .inr ⟨t, ts, hel, by simp [maintains, ht]⟩⟩

theorem extends_handleSnoop {order : Nat} {r : Bool × Packet × Mshr}
    (h : m.handleSnoop pkt order curTick = .ok r) :
    Extends m.targets.elems r.2.2.targets.elems := by
  obtain ⟨heq | heq | ⟨copy, markPending, -, heq⟩, -⟩ := handleSnoop_cases h <;> rw [heq]
  · exact .refl _
  · exact .replaceUpgrades _
  · refine ⟨id, _, fun _ => rfl, by rw [map_id]; rfl, fun u hu => ?_⟩
    obtain rfl := mem_singleton.mp hu
    exact ⟨by simp [maintains], .inl rfl⟩

theorem Marks.extend (h : m.Marks m') : Extends m.targets.elems m'.targets.elems := by
  rcases h.targets with heq | heq <;> rw [heq]
  · exact .refl _
  · exact .clearPending _

/-! ### Promotions -/

/-- `m'` is `m` with the front `moved` of its deferred targets moved up. -/
structure MovesUp (m m' : Mshr) (moved : List Target) : Prop where
  targets : m'.targets.elems = m.targets.elems ++ TargetList.clearPending moved
  deferred : moved ++ m'.deferredTargets.elems = m.deferredTargets.elems

theorem MovesUp.refl (m : Mshr) : m.MovesUp m [] := ⟨by simp [clearPending], rfl⟩

theorem MovesUp.trans {m'' : Mshr} {moved moved' : List Target} (h : m.MovesUp m' moved)
    (h' : m'.MovesUp m'' moved') : m.MovesUp m'' (moved ++ moved') where
  targets := by simp [h'.targets, h.targets, clearPending]
  deferred := by rw [append_assoc, h'.deferred, h.deferred]

theorem promoteIf_movesUp {pred : Target → Bool} (h : m.promoteIf pred = .ok m') :
    ∃ moved, m.MovesUp m' moved := by
  obtain rfl := promoteIf_eq h
  exact ⟨_, rfl, takeWhile_append_dropWhile⟩

theorem promoteReadable_movesUp (h : m.promoteReadable = .ok m') : ∃ moved, m.MovesUp m' moved := by
  rcases promoteReadable_cases h with rfl | ⟨-, h⟩
  · exact ⟨[], .refl _⟩
  · exact promoteIf_movesUp h

theorem promoteWritable_movesUp (h : m.promoteWritable = .ok m') : ∃ moved, m.MovesUp m' moved := by
  rcases promoteWritable_cases h with rfl | ⟨-, -, h⟩
  · exact ⟨[], .refl _⟩
  · obtain ⟨moved, hta, hde⟩ := promoteIf_movesUp h
    exact ⟨moved, hta, hde⟩

theorem promote_movesUp (h : promote m pkt b = .ok m') : ∃ moved, m.MovesUp m' moved := by
  obtain ⟨m₁, hc, hw⟩ := bind_eq_ok.mp h
  have hfs : ∃ moved, m.MovesUp m₁ moved := by
    unfold promoteAfterClean at hc
    split at hc
    · exact promoteReadable_movesUp hc
    · cases hc
      exact ⟨[], .refl _⟩
  have hse : ∃ moved, m₁.MovesUp m' moved := by
    unfold promoteIfWritable at hw
    split at hw
    · exact promoteWritable_movesUp hw
    · cases hw
      exact ⟨[], .refl _⟩
  obtain ⟨moved, hm⟩ := hfs
  obtain ⟨moved', hm'⟩ := hse
  exact ⟨_, hm.trans hm'⟩

theorem keepsMaintenance.moved {moved : List Target} (h : m.keepsMaintenance pkt b)
    (hpr : promote m pkt b = .ok m') (hmo : m.MovesUp m' moved) :
    ∀ t ∈ moved, t.pkt.req.isCacheMaintenance = false := by
  intro t ht
  refine h m' (by rw [hpr]; rfl) { t with markedPending := false } ?_
  rw [hmo.targets, drop_left]
  exact mem_map.mpr ⟨t, ht, rfl⟩

/-! ### What is handed out -/

def MaintenanceFirst (ts : List Target) : Prop := ∀ t ∈ ts.tail, t.maintains = false

theorem MovesUp.maintenanceFirst {moved : List Target} (h : m.MovesUp m' moved)
    (hal : Alone m.targets.elems) (hmo : ∀ t ∈ moved, t.pkt.req.isCacheMaintenance = false) :
    MaintenanceFirst m'.targets.elems := by
  have hn : ∀ t ∈ clearPending moved, t.maintains = false := by
    intro t ht
    obtain ⟨t₀, ht₀, rfl⟩ := mem_map.mp ht
    simp [maintains, hmo t₀ ht₀]
  rw [h.targets]
  intro t ht
  cases hel : m.targets.elems with
  | nil =>
    rw [hel] at ht
    exact hn t (mem_of_mem_tail ht)
  | cons t₀ ts =>
    rw [hel] at ht hal
    rcases mem_append.mp ht with ht | ht
    · exact hal.1 t ht
    · exact hn t ht

theorem extract_maintenance {r : TargetList × Mshr}
    (h : m.extractServiceableTargets pkt = .ok r) {t : Target} {ts : List Target}
    (he : m.targets.elems = t :: ts) (hfs : MaintenanceFirst m.targets.elems) :
    (∃ post, r.1.elems = t :: post ∧ (post = ts ∨ ∀ u ∈ post, u.source = .fromSnoop)) ∧
      ∀ u ∈ r.2.targets.elems, u.maintains = false := by
  rcases extractServiceableTargets_cases h with
    ⟨h₁, h₂⟩ | ⟨t', ts', stay, ready, he', -, hsp, h₁, h₂⟩
  · rw [h₁, h₂]
    exact ⟨⟨ts, he, .inl rfl⟩, fun u hu => nomatch hu⟩
  · obtain ⟨rfl, rfl⟩ := cons.inj (he.symm.trans he')
    obtain ⟨rfl, rfl, -⟩ := splitSnoops_eq hsp
    rw [h₁, h₂]
    refine ⟨⟨_, rfl, .inr fun u hu => ?_⟩, fun u hu => ?_⟩
    · simpa using (mem_filter.mp hu).2
    · rw [he] at hfs
      exact hfs u (mem_filter.mp hu).1

theorem promotable_maintenance (targets deferred : List Target) :
    (∀ t ∈ (promotable targets deferred).1, t.maintains = false) ∨
      targets = [] ∧ ∃ t, (promotable targets deferred).1 = [t] := by
  unfold promotable
  split
  · exact .inl fun t ht => nomatch ht
  · split
    · split
      · rename_i hem
        exact .inr ⟨isEmpty_iff.mp hem, _, rfl⟩
      · exact .inl fun t ht => nomatch ht
    · refine .inl fun t ht => ?_
      have := mem_takeWhile_imp ht
      simp only [Bool.not_eq_true'] at this
      simp [maintains, this]

theorem alone_promoteDeferredTargets {r : Bool × Mshr}
    (h : m.promoteDeferredTargets curTick = .ok r)
    (hm : ∀ t ∈ m.targets.elems, t.maintains = false) : Alone r.2.targets.elems := by
  rcases promoteDeferredTargets_cases h with heq | ⟨moved, rest, hmv, hta, -⟩
  · rw [heq]
    exact .of_forall hm
  · rw [hta]
    show Alone (m.targets.elems ++ moved)
    have hmo : (promotable m.targets.elems m.deferredTargets.elems).1 = moved := by rw [hmv]
    rcases promotable_maintenance m.targets.elems m.deferredTargets.elems with
      hn | ⟨hem, t, hon⟩
    · rw [hmo] at hn
      refine .of_forall fun t ht => ?_
      rcases mem_append.mp ht with ht | ht
      · exact hm t ht
      · exact hn t ht
    · rw [hmo] at hon
      rw [hem, hon]
      exact .singleton t

theorem alone_settle (h : m.settle curTick = .ok m')
    (hm : ∀ t ∈ m.targets.elems, t.maintains = false) : Alone m'.targets.elems := by
  obtain ⟨⟨promoted, m₁⟩, hpr, hr⟩ := bind_eq_ok.mp h
  have hal : Alone m₁.targets.elems := alone_promoteDeferredTargets hpr hm
  have hsa : m'.targets.elems = m₁.targets.elems := by
    dsimp only at hr
    split at hr
    · unfold markPending at hr
      split at hr
      · cases hr
        rfl
      · cases hr
    · unfold deallocate at hr
      split at hr
      · cases hr
      split at hr
      · cases hr
      · cases hr
        rfl
  rw [hsa]
  exact hal

end Mshr

/-! ### Every run -/

/-- Maintenance stands alone in the list of targets, whose first is the one sent. -/
structure MshrRun.InFlight (s : MshrRun) : Prop where
  alone : Alone s.mshr.targets.elems
  sent : ∀ t, s.sent = some t → s.mshr.targets.elems.head?.map Target.canon = some t.canon

namespace MshrRun.InFlight

variable {s s' : MshrRun}

section

variable (hs : s.InFlight)
include hs

theorem extend (h : Extends s.mshr.targets.elems s'.mshr.targets.elems) (hse : s'.sent = s.sent) :
    s'.InFlight where
  alone := h.alone hs.alone
  sent t ht := h.head (hs.sent t (hse ▸ ht))

theorem step {a : MshrCall} (ha : a.betweenResponses) (h : s.step a = .ok s') : s'.InFlight := by
  cases a with
  | allocateTarget pkt whenReady order allocOnFill =>
    obtain ⟨m, hm, rfl⟩ := bind_ok.mp h
    exact hs.extend (extends_allocateTarget hm) rfl
  | handleSnoop pkt order curTick =>
    obtain ⟨r, hm, rfl⟩ := bind_ok.mp h
    exact hs.extend (extends_handleSnoop hm) rfl
  | setDownstreamPending =>
    cases h
    exact hs.extend (.refl _) rfl
  | clearDownstreamPending =>
    obtain ⟨m, hm, rfl⟩ := bind_ok.mp h
    exact hs.extend (marks_clearDownstreamPending hm).extend rfl
  | _ => cases ha

theorem markInService {pendingModifiedResp : Bool}
    (h : s.step (.markInService pendingModifiedResp) = .ok s') : s'.InFlight := by
  obtain ⟨m, hm, rfl⟩ := bind_ok.mp h
  have hex := (marks_markInService hm).extend
  refine ⟨hex.alone hs.alone, fun t ht => hex.head ?_⟩
  rw [show s.mshr.targets.elems.head? = some t from ht, Option.map_some]

theorem first (hse : s.sent.isSome) :
    ∃ t t' ts, s.sent = some t' ∧ s.mshr.targets.elems = t :: ts ∧ t.canon = t'.canon := by
  obtain ⟨t', ht'⟩ := Option.isSome_iff_exists.mp hse
  have hh := hs.sent t' ht'
  cases hel : s.mshr.targets.elems with
  | nil =>
    rw [hel] at hh
    cases hh
  | cons t ts =>
    rw [hel] at hh
    exact ⟨t, t', ts, ht', rfl, Option.some.inj hh⟩

theorem respond {pkt : Packet} {b : Option CacheBlk} {curTick : Nat} (hse : s.sent.isSome)
    (hke : s.mshr.keepsMaintenance pkt b) (h : s.respond pkt b curTick = .ok s') :
    s'.InFlight := by
  obtain ⟨m₁, hpr, h⟩ := bind_eq_ok.mp h
  obtain ⟨⟨ready, m₂⟩, hex, h⟩ := bind_eq_ok.mp h
  obtain ⟨m₃, hst, rfl⟩ := bind_ok.mp h
  obtain ⟨t, -, ts, -, hel, -⟩ := hs.first hse
  obtain ⟨moved, hm⟩ := promote_movesUp hpr
  have hfs := hm.maintenanceFirst hs.alone (hke.moved hpr hm)
  have hel₁ : m₁.targets.elems = t :: (ts ++ clearPending moved) := by
    rw [hm.targets, hel, cons_append]
  exact ⟨alone_settle hst (extract_maintenance hex hel₁ hfs).2, fun _ hn => nomatch hn⟩

end

end MshrRun.InFlight

theorem MshrRun.Starts.inFlight {s : MshrRun} (h : s.Starts) : s.InFlight := by
  obtain ⟨m, blkAddr, blkSize, target, whenReady, order, allocOnFill, hem, -, ha, -, -, hse⟩ := h
  refine ⟨?_, fun t ht => by rw [hse] at ht; cases ht⟩
  unfold allocate at ha
  split at ha
  · cases ha
  · rw [eq_of_ok ha]
    show Alone (m.targets.elems ++ [_])
    rw [hem]
    exact .singleton _

theorem MshrRun.sent_step {s s' : MshrRun} {a : MshrCall} (ha : a.betweenResponses)
    (h : s.step a = .ok s') : s'.sent = s.sent ∧ s'.mshr.isForward = s.mshr.isForward := by
  cases a with
  | allocateTarget pkt whenReady order allocOnFill =>
    obtain ⟨m, hm, rfl⟩ := bind_ok.mp h
    obtain ⟨-, ⟨p, -, -, rfl⟩ | ⟨t, ts, -, -, -, -, -, rfl⟩⟩ := allocateTarget_cases hm
    · exact ⟨rfl, rfl⟩
    · exact ⟨rfl, rfl⟩
  | handleSnoop pkt order curTick =>
    obtain ⟨r, hm, rfl⟩ := bind_ok.mp h
    exact ⟨rfl, congrArg (·.2.2.2) (handleSnoop_cases hm).2.2⟩
  | setDownstreamPending =>
    cases h
    exact ⟨rfl, rfl⟩
  | clearDownstreamPending =>
    obtain ⟨m, hm, rfl⟩ := bind_ok.mp h
    exact ⟨rfl, (marks_clearDownstreamPending hm).isForward⟩
  | _ => cases ha

/-- While a clean request is in flight its response fills nothing, and the block is not dirty. -/
structure LineRun.Inv (s : LineRun) : Prop where
  inFlight : s.run.InFlight
  clean : ∀ t, s.run.sent = some t → t.pkt.isClean → s.run.mshr.isForward ∧ ¬Dirty s.blk

namespace LineRun.Inv

variable {s s' : LineRun} {p : CacheParams}

section

variable (hs : s.Inv)
include hs

theorem call {a : MshrCall} (ha : s.awaits (.call a)) (h : s.handle p (.call a) = .ok s') :
    s'.Inv := by
  obtain ⟨run, hst, rfl⟩ := bind_ok.mp h
  replace hst := ofMshr_eq_ok.mp hst
  rcases ha with hbe | ⟨hma, hpf⟩
  · obtain ⟨hse, hfo⟩ := sent_step hbe hst
    refine ⟨hs.inFlight.step hbe hst, fun t ht hcl => ?_⟩
    rw [hfo]
    exact hs.clean t (hse ▸ ht) hcl
  · cases a with
    | markInService pendingModifiedResp =>
      refine ⟨hs.inFlight.markInService hst, fun t ht hcl => ?_⟩
      obtain ⟨m, -, rfl⟩ := bind_ok.mp hst
      -- The request in flight is a prefetch.
      rw [show s.run.mshr.targets.elems.head? = some t from ht] at hpf
      rw [Packet.isClean, of_decide_eq_true hpf] at hcl
      cases hcl
    | _ => cases hma

theorem send {pendingModifiedResp : Bool} (h : s.send p pendingModifiedResp = .ok s') : s'.Inv := by
  unfold LineRun.send at h
  split at h
  · cases h
  rename_i t ts hel
  obtain ⟨created, hcr, h⟩ := bind_eq_ok.mp h
  dsimp only [throw, throwThe] at h
  split at h
  · cases h
  obtain ⟨run, hst, rfl⟩ := bind_ok.mp h
  replace hst := ofMshr_eq_ok.mp hst
  have hwi : (s.run.withMshr { s.run.mshr with isForward := created.isNone }).InFlight :=
    hs.inFlight.extend (.refl _) rfl
  refine ⟨hwi.markInService hst, fun t' ht' hcl => ?_⟩
  obtain ⟨m, hm, rfl⟩ := bind_ok.mp hst
  obtain rfl : t = t' := by
    have hh : s.run.mshr.targets.elems.head? = some t' := ht'
    rw [hel] at hh
    exact Option.some.inj hh
  -- The packet of a clean request is forwarded as it is.
  obtain rfl : created = none := by
    unfold createMissPacket at hcr
    dsimp only at hcr
    split at hcr
    · cases hcr
    rw [if_pos (by simp [hcl])] at hcr
    exact (Except.ok.inj hcr).symm
  refine ⟨(marks_markInService hm).isForward, ?_⟩
  cases hb : s.blk with
  | none => exact Bool.false_ne_true
  | some b =>
    simp only [Dirty, Option.map_some, Option.any_some, Option.getD_none, hcl, Bool.true_and]
    split
    · simp [CacheBlk.isDirty, CacheBlk.writeClean]
    · assumption

theorem step {a : LineEvent} (ha : s.awaits a) (hk : s.Keeps a) (h : s.handle p a = .ok s') :
    s'.Inv := by
  cases a with
  | call a => exact hs.call ha h
  | send pendingModifiedResp => exact hs.send h
  | touch b =>
    cases h
    refine ⟨hs.inFlight, fun t ht hcl => ?_⟩
    obtain ⟨hfo, hdi⟩ := hs.clean t ht hcl
    have hk : s.run.sent.any (·.pkt.isClean) → Dirty b → Dirty s.blk := hk
    rw [show s.run.sent = some t from ht] at hk
    exact ⟨hfo, fun hd => hdi (hk hcl hd)⟩
  | response pkt filled left curTick =>
    obtain ⟨run, hre, rfl⟩ := bind_ok.mp h
    replace hre := ofMshr_eq_ok.mp hre
    refine ⟨hs.inFlight.respond ha hk hre, fun t ht => ?_⟩
    obtain ⟨m₁, -, hre⟩ := bind_eq_ok.mp hre
    obtain ⟨r, -, hre⟩ := bind_eq_ok.mp hre
    obtain ⟨m₃, -, rfl⟩ := bind_ok.mp hre
    cases ht

theorem found {t : Target} (hse : s.run.sent = some t) (hcl : t.pkt.isClean) (pkt : Packet)
    (filled : CacheBlk) : ¬Dirty (s.found pkt filled) := by
  obtain ⟨hfo, hdi⟩ := hs.clean t hse hcl
  rwa [LineRun.found, if_neg (by simp [isFill, hfo])]

end

theorem of_reachable (hs : ((lineSystem p).restrict Keeps).Reachable s) : s.Inv := by
  refine hs.invariant LineRun.Inv (fun s hsa => ⟨MshrRun.Starts.inFlight hsa, fun t ht => ?_⟩) ?_
  · obtain ⟨_, _, _, _, _, _, _, -, -, -, -, -, hse⟩ := hsa
    rw [hse] at ht
    cases ht
  · rintro s a s' hs ⟨ha, hk⟩ hst
    exact hs.step ha hk hst

end LineRun.Inv

/-- **A maintenance target is serviced first, by the response to its own request**, in every run
whose responses move no maintenance up and where nothing makes the block dirty under a clean request.
Nobody else waited for that request, and whoever is serviced with it was deferred behind it until the
response came: nobody, if the response moves nothing up. A clean request finds the block not dirty,
so that no data is lost. -/
theorem maintenance_serviced_first {p : CacheParams} {s : LineRun}
    (hs : ((lineSystem p).restrict LineRun.Keeps).Reachable s) {pkt : Packet} {filled : CacheBlk}
    {left : Option CacheBlk} {curTick : Nat}
    (hpre : ((lineSystem p).restrict LineRun.Keeps).pre s (.response pkt filled left curTick))
    {m₁ m₂ : Mshr} {ready : TargetList}
    (hpromote : promote s.run.mshr pkt (s.found pkt filled) = .ok m₁)
    (hextract : m₁.extractServiceableTargets pkt = .ok (ready, m₂))
    {pre post : List Target} {t : Target} (hready : ready.elems = pre ++ t :: post)
    (hcpu : t.source = .fromCPU) (hmaint : t.pkt.req.isCacheMaintenance) :
    pre = [] ∧ (∃ t', s.run.sent = some t' ∧ t'.canon = t.canon) ∧
      waiting s.run.mshr.targets.elems = [t.canon] ∧
      (∃ moved, moved <+: s.run.mshr.deferredTargets.elems ∧
        waiting ready.elems = t.canon :: waiting moved ∧
        (∀ u ∈ moved, u.pkt.req.isCacheMaintenance = false) ∧
        (m₁.deferredTargets.elems = s.run.mshr.deferredTargets.elems → moved = [])) ∧
      (t.pkt.isClean → ¬LineRun.Dirty (s.found pkt filled)) := by
  obtain ⟨hse, hke⟩ := hpre
  have hin := LineRun.Inv.of_reachable hs
  have hfl := hin.inFlight
  obtain ⟨t₀, t', ts, ht', he, hca⟩ := hfl.first hse
  obtain ⟨moved, hm⟩ := promote_movesUp hpromote
  have hk := Mshr.keepsMaintenance.moved hke hpromote hm
  have he₁ : m₁.targets.elems = t₀ :: (ts ++ clearPending moved) := by
    rw [hm.targets, he, cons_append]
  have hfs := hm.maintenanceFirst hfl.alone hk
  obtain ⟨post', hpo', hr⟩ := (extract_maintenance hextract he₁ hfs).1
  have ht : t.maintains := by simp [maintains, hcpu, hmaint]
  have hsp : pre = [] ∧ t = t₀ ∧ post = post' := by
    have heq := hready.symm.trans hpo'
    cases pre with
    | nil =>
      obtain ⟨rfl, rfl⟩ := cons.inj heq
      exact ⟨rfl, rfl, rfl⟩
    | cons u us =>
      -- A target behind the first one is a snoop, or no maintenance.
      obtain ⟨-, hta⟩ := cons.inj heq
      have hme : t ∈ post' := hta ▸ mem_append_right _ mem_cons_self
      rcases hr with rfl | hsn
      · rw [he₁] at hfs
        rw [hfs t hme] at ht
        cases ht
      · rw [hsn t hme] at hcpu
        cases hcpu
  obtain ⟨rfl, rfl, rfl⟩ := hsp
  have hal := hfl.alone
  rw [he] at hal
  have hwa : waiting ready.elems = t.canon :: waiting post := by
    rw [hpo', show t :: post = [t] ++ post from rfl, waiting_append]
    simp [waiting, hcpu]
  refine ⟨rfl, ⟨t', ht', hca.symm⟩, by rw [he, hal.waiting ht], ?_, fun hcl => ?_⟩
  · rcases hr with rfl | hsn
    · refine ⟨moved, ⟨_, hm.deferred⟩, ?_, hk, fun heq => ?_⟩
      · rw [hwa, waiting_append, waiting_of_snoops (hal.2 ht), waiting_clearPending, nil_append]
      · have hde := hm.deferred
        rw [heq] at hde
        simpa using hde
    · refine ⟨[], nil_prefix, ?_, by simp, fun _ => rfl⟩
      rw [hwa, waiting_of_snoops hsn, waiting_nil]
  · exact hin.found ht' (by rw [← isClean_of_canon hca, hcl]) pkt filled

def oneBlock : CacheParams where
  numSets := 1
  assoc := 1
  blkSize := 64
  numSets_pos := Nat.one_pos

def cleanPkt : Packet := { cmd := .cleanSharedReq, id := 1, req := { flags := { clean := true } } }

/-- A clean request takes the dirty data of a block along, and a read is deferred behind it. -/
def cleanThenRead : List LineEvent :=
  [.touch (some { valid := true, readable := true, dirty := true }), .send false,
    .call (.allocateTarget { cmd := .readReq, id := 2 } 0 1 true)]

def cleanResp : Packet := { cleanPkt with cmd := .cleanSharedResp }

def cleanResponse : LineEvent := .response cleanResp {} none 0

/-- The response services the clean, which finds the block not dirty, and then the read. -/
theorem maintenance_serviced_first_clean :
    ∃ s m₁ m₂ ready t post, ((lineSystem oneBlock).restrict LineRun.Keeps).Reachable s ∧
      promote s.run.mshr cleanResp (s.found cleanResp {}) = .ok m₁ ∧
      m₁.extractServiceableTargets cleanResp = .ok (ready, m₂) ∧ ready.elems = t :: post ∧
      post.map (·.pkt.id) = [2] ∧ t.pkt = cleanPkt ∧ s.blk.isSome ∧
      ¬LineRun.Dirty (s.found cleanResp {}) := by
  obtain ⟨s, hs, hpe, hbl, he⟩ := exists_of_leads
    (S := (lineSystem oneBlock).restrict LineRun.Keeps)
    (p := fun s => ((lineSystem oneBlock).restrict LineRun.Keeps).pre s cleanResponse ∧ s.blk.isSome ∧
      Succeeds (fun m₁ => Succeeds (fun r => r.1.elems.map (fun t => (t.pkt, t.source)) =
          [(cleanPkt, .fromCPU), ({ cmd := .readReq, id := 2 }, .fromCPU)])
        (m₁.extractServiceableTargets cleanResp)) (promote s.run.mshr cleanResp (s.found cleanResp {})))
    cleanThenRead (s := ⟨.fresh cleanPkt true, none⟩) (.start (starts_fresh cleanPkt rfl true))
    (by decide +kernel)
  obtain ⟨m₁, hpr, he⟩ := he.exists
  obtain ⟨⟨ready, m₂⟩, hex, he⟩ := he.exists
  obtain ⟨t, post, hr, ht, hpo⟩ := map_eq_cons_iff.mp he
  obtain ⟨hpk, hcp⟩ := Prod.mk.inj ht
  have hsp : ready.elems = [] ++ t :: post := hr
  obtain ⟨-, -, -, -, hdi⟩ := maintenance_serviced_first hs hpe hpr hex hsp hcp (by rw [hpk]; rfl)
  refine ⟨s, m₁, m₂, ready, t, post, hs, hpr, hex, hr, ?_, hpk, hbl, hdi (by rw [hpk]; rfl)⟩
  simpa using congrArg (List.map (·.1.id)) hpo

/-! ### Writes that are lost -/

/-- A prefetcher that does nothing. -/
def silent (p : CacheParams) : Listener p Unit Unit Empty where
  probeNotify _ _ _ _ _ := .ok ()
  notifyFill _ _ _ := .ok ()
  notifyInvalidate _ _ _ := .ok ()
  notifySquash _ _ _ := .ok ()
  getPacket _ _ _ := .ok ()
  prefetchIssuedToPq _ _ _ _ _ := .ok ()

/-- A packet of the block at address 0, as the CPU side sends it or the memory side answers it. -/
def blockPkt (cmd : MemCmd) (clean : Bool) : Packet where
  cmd := cmd
  req := { paddr := some 0, flags := { clean } }
  size := 4

def env₀ : CacheEnv oneBlock Unit := { victim := ⟨0, Nat.one_pos⟩, ext := () }

def requestOf (cmd : MemCmd) (clean : Bool) : CacheCall oneBlock Unit :=
  .request env₀ (blockPkt cmd clean)

def sendFirst : CacheCall oneBlock Unit := .send env₀ 0 .miss (some false)

def responseOf (cmd : MemCmd) (clean : Bool) : CacheCall oneBlock Unit :=
  .response env₀ 0 (blockPkt cmd clean)

/-- **Two writes that are lost.** A response to a read that brings a writable block services the read,
a write and a clean that waited behind it, and leaves the block not dirty. And a clean request is in
flight, a write hits the block and makes it dirty, and the response leaves it not dirty. -/
theorem clean_loses_write :
    (∃ s, (cacheSystem (silent oneBlock) fun _ => True).Reachable s ∧
      s.cache.mshrs.map (·.awaited.map (·.pkt.cmd)) = [[.readReq, .writeReq, .cleanSharedReq]] ∧
      Succeeds (fun s' => s'.cache.mshrs = [] ∧ (s'.cache.findBlock 0 false).isSome ∧
          ¬LineRun.Dirty ((s'.cache.findBlock 0 false).map s'.cache.blk))
        (s.step (silent oneBlock) (responseOf .readResp false))) ∧
    ∃ s, (cacheSystem (silent oneBlock) fun _ => True).Reachable s ∧
      s.cache.mshrs.map (·.awaited.map (·.pkt.cmd)) = [[.cleanSharedReq]] ∧
      LineRun.Dirty ((s.cache.findBlock 0 false).map s.cache.blk) ∧
      Succeeds (fun s' => s'.cache.mshrs = [] ∧ (s'.cache.findBlock 0 false).isSome ∧
          ¬LineRun.Dirty ((s'.cache.findBlock 0 false).map s'.cache.blk))
        (s.step (silent oneBlock) (responseOf .cleanSharedResp true)) := by
  have hst : (cacheSystem (silent oneBlock) fun _ => True).Reachable ⟨.empty oneBlock, ()⟩ :=
    .start ⟨rfl, trivial⟩
  constructor
  · exact exists_of_leads [requestOf .readReq false, sendFirst, requestOf .writeReq false,
      requestOf .cleanSharedReq true] hst (by decide +kernel)
  · exact exists_of_leads [requestOf .readReq false, sendFirst, responseOf .readResp false,
      requestOf .cleanSharedReq true, sendFirst, requestOf .writeReq false] hst (by decide +kernel)

end Gem5.Mem
