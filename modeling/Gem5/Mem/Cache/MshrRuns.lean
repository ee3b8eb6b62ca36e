import Gem5.Lib.System
import Gem5.Mem.Cache.Mshr

/-!
# Gem5.Mem.Cache.MshrRuns

The **life of one MSHR**: it is allocated for a miss, collects targets and snoops,
is sent, gets responses and promotes what it deferred. A run may make the calls in
any order the assertions allow; it keeps, beside the register, the targets that were
added to it, the lists that were handed out to be serviced, and the target at its
head when the request in flight was sent.

**Targets are conserved** (`targets_conserved`): what was handed out, followed by the
two lists, is what was added, in order. A target is followed through the lists up to
the two changes the code makes to it in place, the replacement of an upgrade and the
clearing of its pending mark.
-/

namespace Gem5.Mem

open Gem5.Lib List Mshr TargetList

structure MshrRun where
  mshr : Mshr
  /-- The targets added for the CPU side or the prefetcher. -/
  added : List Target
  /-- The lists returned by `extractServiceableTargets`. -/
  serviced : List (List Target)
  /-- The first target when the request in flight was sent. -/
  sent : Option Target

inductive MshrCall
  | allocateTarget (pkt : Packet) (whenReady order : Nat) (allocOnFill : Bool)
  | handleSnoop (pkt : Packet) (order curTick : Nat)
  | setForward (isForward : Bool)
  | markInService (pendingModifiedResp : Bool)
  | markPending
  | setDownstreamPending
  | clearDownstreamPending
  | promoteReadable
  | promoteWritable
  | extractServiceableTargets (pkt : Packet)
  | promoteDeferredTargets (curTick : Nat)

namespace MshrRun

def withMshr (s : MshrRun) (m : Mshr) : MshrRun := { s with mshr := m }

def step (s : MshrRun) : MshrCall → Except MshrFault MshrRun
  | .allocateTarget pkt whenReady order allocOnFill => do
      let m ← s.mshr.allocateTarget pkt whenReady order allocOnFill
      return { s with
        mshr := m
        added := s.added ++ [⟨pkt, whenReady, order, .fromCPU, false, allocOnFill⟩] }
  | .handleSnoop pkt order curTick => do
      let r ← s.mshr.handleSnoop pkt order curTick
      return s.withMshr r.2.2
  | .setForward isForward => .ok (s.withMshr { s.mshr with isForward := isForward })
  | .markInService pendingModifiedResp => do
      let m ← s.mshr.markInService pendingModifiedResp
      return { s with mshr := m, sent := s.mshr.targets.elems.head? }
  | .markPending => do
      let m ← s.mshr.markPending
      return s.withMshr m
  | .setDownstreamPending => .ok (s.withMshr { s.mshr with downstreamPending := true })
  | .clearDownstreamPending => do
      let m ← s.mshr.clearDownstreamPending
      return s.withMshr m
  | .promoteReadable => do
      let m ← s.mshr.promoteReadable
      return s.withMshr m
  | .promoteWritable => do
      let m ← s.mshr.promoteWritable
      return s.withMshr m
  | .extractServiceableTargets pkt => do
      let r ← s.mshr.extractServiceableTargets pkt
      return { s with mshr := r.2, serviced := s.serviced ++ [r.1.elems], sent := none }
  | .promoteDeferredTargets curTick => do
      let r ← s.mshr.promoteDeferredTargets curTick
      return s.withMshr r.2

def Starts (s : MshrRun) : Prop :=
  ∃ (m : Mshr) (blkAddr blkSize : Nat) (target : Packet) (whenReady order : Nat)
    (allocOnFill : Bool),
    m.targets.elems = [] ∧ m.deferredTargets.elems = [] ∧
      m.allocate blkAddr blkSize target whenReady order allocOnFill = .ok s.mshr ∧
      s.added = s.mshr.targets.elems ∧ s.serviced = [] ∧ s.sent = none

end MshrRun

/-- The run of a register allocated for a miss on the block at address 0. -/
def MshrRun.fresh (target : Packet) (allocOnFill : Bool) : MshrRun :=
  let m := ((Mshr.free.allocate 0 64 target 0 0 allocOnFill).toOption).getD Mshr.free
  ⟨m, m.targets.elems, [], none⟩

theorem MshrRun.starts_fresh (target : Packet) (h : target.isRequest)
    (allocOnFill : Bool) : (MshrRun.fresh target allocOnFill).Starts := by
  refine ⟨free, 0, 64, target, 0, 0, allocOnFill, rfl, rfl, ?_, rfl, rfl, rfl⟩
  simp [MshrRun.fresh, allocate, h, Except.toOption]

abbrev mshrSystem : System MshrRun MshrCall MshrFault where
  init := MshrRun.Starts
  step := MshrRun.step
  pre _ _ := True

/-! ### Following a target -/

/-- A target without the marks that the lists change in place. -/
def Target.canon (t : Target) : Target :=
  { t with pkt := replaceUpgrade t.pkt, markedPending := false }

def waiting (ts : List Target) : List Target :=
  (ts.filter fun t => t.source ≠ .fromSnoop).map Target.canon

theorem replaceUpgrade_idem (pkt : Packet) :
    replaceUpgrade (replaceUpgrade pkt) = replaceUpgrade pkt := by
  obtain ⟨cmd⟩ := pkt
  cases cmd <;> rfl

@[simp] theorem waiting_append (ts us : List Target) :
    waiting (ts ++ us) = waiting ts ++ waiting us := by
  simp [waiting]

@[simp] theorem waiting_nil : waiting [] = [] := rfl

theorem waiting_map {f : Target → Target} (hs : ∀ t, (f t).source = t.source)
    (hc : ∀ t, (f t).canon = t.canon) (ts : List Target) : waiting (ts.map f) = waiting ts := by
  induction ts with
  | nil => rfl
  | cons t ts ih =>
    by_cases h : t.source = .fromSnoop
    · simpa [waiting, hs, h] using ih
    · simpa [waiting, hs, h, hc] using ih

@[simp] theorem waiting_clearPending (ts : List Target) : waiting (clearPending ts) = waiting ts :=
  waiting_map (f := fun t => { t with markedPending := false }) (fun _ => rfl) (fun _ => rfl) ts

@[simp] theorem waiting_replaceUpgrades (l : TargetList) :
    waiting l.replaceUpgrades.elems = waiting l.elems := by
  unfold replaceUpgrades
  split
  · refine waiting_map (f := fun t => { t with pkt := replaceUpgrade t.pkt }) (fun _ => rfl)
      (fun t => ?_) _
    simp [Target.canon, replaceUpgrade_idem]
  · rfl

/-! ### What the calls do to the lists -/

namespace Mshr

variable {m m' : Mshr}

variable {pkt : Packet} {pred : Target → Bool} {curTick order : Nat}

theorem allocateTarget_cases {whenReady : Nat} {allocOnFill : Bool}
    (h : m.allocateTarget pkt whenReady order allocOnFill = .ok m') :
    pkt.isRequest ∧
      ((∃ p, m.defers pkt = .ok true ∧ (p = pkt ∨ p = replaceUpgrade pkt) ∧
          m' = { m with deferredTargets :=
            m.deferredTargets.add p whenReady order .fromCPU true allocOnFill }) ∨
        (∃ t ts, m.defers pkt = .ok false ∧ m.targets.elems = t :: ts ∧
          t.pkt.req.isCacheMaintenance = false ∧ pkt.req.isCacheMaintenance = false ∧
          m.deferredTargets.elems = [] ∧
          m' = { m with targets :=
            m.targets.add pkt whenReady order .fromCPU (!m.inService) allocOnFill })) := by
  unfold allocateTarget at h
  simp only [throw, throwThe, pure_eq_ok] at h
  split at h
  · cases h
  split at h
  · cases h
  rename_i hre
  refine ⟨by simpa using hre, ?_⟩
  cases hd : m.defers pkt with
  | error e => simp [hd] at h
  | ok deferred =>
    simp only [hd] at h
    cases deferred with
    | true =>
      refine .inl ⟨_, rfl, ?_, eq_of_ok h⟩
      split
      · exact .inr rfl
      · exact .inl rfl
    | false =>
      right
      unfold defers at hd
      split at hd
      · cases hd
      rename_i hma
      split at hd
      · cases hd
      rename_i t ts hel
      have hn := Except.ok.inj hd
      simp only [Bool.or_eq_false_iff, Bool.not_eq_false'] at hn
      exact ⟨t, ts, rfl, hel, hn.1.1, by simpa using hma, isEmpty_iff.mp hn.1.2, eq_of_ok h⟩

/-- What no snoop changes. -/
def place (m : Mshr) : Nat × Bool × Nat × Bool := (m.blkSize, m.inService, m.readyTime, m.isForward)

theorem handleSnoop_cases {r : Bool × Packet × Mshr} (h : m.handleSnoop pkt order curTick = .ok r) :
    (r.2.2.targets = m.targets ∨ r.2.2.targets = m.targets.replaceUpgrades ∨
        ∃ copy markPending, copy.isRequest ∧ r.2.2.targets =
          m.targets.add copy curTick order .fromSnoop markPending false) ∧
      (r.2.2.deferredTargets = m.deferredTargets ∨
        r.2.2.deferredTargets = m.deferredTargets.replaceUpgrades) ∧ r.2.2.place = m.place := by
  have hr : (m.replaceDeferred pkt).targets = m.targets ∧
      ((m.replaceDeferred pkt).deferredTargets = m.deferredTargets ∨
        (m.replaceDeferred pkt).deferredTargets = m.deferredTargets.replaceUpgrades) ∧
      (m.replaceDeferred pkt).place = m.place := by
    unfold replaceDeferred
    split
    · exact ⟨rfl, .inr rfl, rfl⟩
    · exact ⟨rfl, .inl rfl, rfl⟩
  have hs : ∀ m₁ : Mshr, ((m₁.saveSnoop pkt order curTick).2.targets = m₁.targets ∨
      ∃ copy markPending, copy.cmd = pkt.cmd ∧ (m₁.saveSnoop pkt order curTick).2.targets =
        m₁.targets.add copy curTick order .fromSnoop markPending false) ∧
      (m₁.saveSnoop pkt order curTick).2.deferredTargets = m₁.deferredTargets ∧
      (m₁.saveSnoop pkt order curTick).2.place = m₁.place := by
    intro m₁
    unfold saveSnoop
    split
    · refine ⟨.inr ⟨_, _, ?_, rfl⟩, rfl, rfl⟩
      split <;> rfl
    · exact ⟨.inl rfl, rfl, rfl⟩
  have hn : ∀ (m₁ : Mshr) (p : Packet), (m₁.noteDowngrade p).2.targets = m₁.targets ∧
      (m₁.noteDowngrade p).2.deferredTargets = m₁.deferredTargets ∧
      (m₁.noteDowngrade p).2.place = m₁.place := by
    intro m₁ p
    unfold noteDowngrade
    split <;> exact ⟨rfl, rfl, rfl⟩
  unfold handleSnoop at h
  dsimp only at h
  split at h
  · cases h
  rename_i hre
  split at h
  · cases h
  split at h
  · -- The snoop precedes the request of this MSHR.
    split at h <;> cases h
    · exact ⟨.inr (.inl rfl), .inr rfl, rfl⟩
    · exact ⟨.inl rfl, .inl rfl, rfl⟩
  split at h
  · cases h
    exact ⟨.inl hr.1, hr.2⟩
  split at h
  · cases h
  split at h <;> cases h
  · exact ⟨.inl hr.1, hr.2⟩
  · rw [(hn _ _).1, (hn _ _).2.1, (hn _ _).2.2, (hs _).2.1, (hs _).2.2]
    refine ⟨?_, hr.2⟩
    rcases (hs (m.replaceDeferred pkt)).1 with heq | ⟨copy, markPending, hcm, heq⟩
    · exact .inl (heq.trans hr.1)
    · refine .inr (.inr ⟨copy, markPending, ?_, by rw [heq, hr.1]⟩)
      rw [Packet.isRequest, hcm]
      simpa [Packet.isRequest] using hre

structure Marks (m m' : Mshr) : Prop where
  targets : m'.targets = m.targets ∨
    m'.targets = { m.targets with elems := TargetList.clearPending m.targets.elems }
  deferred : m'.deferredTargets = m.deferredTargets
  blkSize : m'.blkSize = m.blkSize
  isForward : m'.isForward = m.isForward

theorem marks_markInService {pendingModifiedResp : Bool}
    (h : m.markInService pendingModifiedResp = .ok m') : m.Marks m' := by
  unfold markInService at h
  split at h
  · cases h
  · cases h
    cases hdow : m.downstreamPending with
    | true => exact ⟨.inl rfl, rfl, rfl, rfl⟩
    | false => exact ⟨.inr rfl, rfl, rfl, rfl⟩

theorem marks_markPending (h : m.markPending = .ok m') : m.Marks m' := by
  unfold markPending at h
  split at h
  · cases h
    exact ⟨.inl rfl, rfl, rfl, rfl⟩
  · cases h

theorem marks_clearDownstreamPending (h : m.clearDownstreamPending = .ok m') : m.Marks m' := by
  unfold clearDownstreamPending at h
  split at h
  · cases h
  · cases h
    exact ⟨.inr rfl, rfl, rfl, rfl⟩

theorem extractServiceableTargets_cases {r : TargetList × Mshr}
    (h : m.extractServiceableTargets pkt = .ok r) :
    (r.1 = m.targets ∧
        r.2 = { m with targets := ({ blkSize := m.blkSize } : TargetList).populateFlags }) ∨
      ∃ t ts stay ready, m.targets.elems = t :: ts ∧ t.source ≠ .fromSnoop ∧
        splitSnoops ts = .ok (stay, ready) ∧
        r.1 = { m.targets with elems := t :: ready }.populateFlags ∧
        r.2 = { m with targets := { m.targets with elems := stay }.populateFlags } := by
  unfold extractServiceableTargets at h
  split at h
  · right
    split at h
    · cases h
    · rename_i t ts hel
      split at h
      · cases h
      · rename_i hsr
        obtain ⟨⟨stay, ready⟩, hsp, rfl⟩ := bind_ok.mp h
        exact ⟨t, ts, stay, ready, hel, hsr, hsp, rfl, rfl⟩
  · cases h
    exact .inl ⟨rfl, rfl⟩

theorem splitSnoops_eq {ts stay ready : List Target} (h : splitSnoops ts = .ok (stay, ready)) :
    stay = ts.filter (·.source = .fromCPU) ∧ ready = ts.filter (·.source = .fromSnoop) ∧
      ∀ t ∈ ts, t.source ≠ .fromPrefetcher := by
  induction ts generalizing stay ready with
  | nil =>
    cases h
    simp
  | cons t ts ih =>
    obtain ⟨⟨stay', ready'⟩, hts, h⟩ := bind_eq_ok.mp h
    obtain ⟨rfl, rfl, hpf⟩ := ih hts
    cases hsr : t.source <;> simp only [hsr] at h
    · cases h
      simp [hsr]
      simpa using hpf
    · cases h
      simp [hsr]
      simpa using hpf
    · cases h

theorem promotable_append (targets deferred : List Target) :
    (promotable targets deferred).1 ++ (promotable targets deferred).2 = deferred := by
  unfold promotable
  split
  · rfl
  · split
    · split <;> rfl
    · exact takeWhile_append_dropWhile

theorem promoteDeferredTargets_cases {r : Bool × Mshr}
    (h : m.promoteDeferredTargets curTick = .ok r) :
    r.2 = m ∨ ∃ moved rest, promotable m.targets.elems m.deferredTargets.elems = (moved, rest) ∧
      r.2.targets = { m.targets with elems := m.targets.elems ++ moved }.populateFlags ∧
      r.2.deferredTargets = { m.deferredTargets with elems := rest }.populateFlags ∧
      r.2.blkSize = m.blkSize := by
  unfold promoteDeferredTargets at h
  dsimp only at h
  split at h
  · cases h
    exact .inl rfl
  split at h
  · cases h
  · cases h
    exact .inr ⟨_, _, rfl, rfl, rfl, rfl⟩

/-- The search stops at the first deferred target that fails the predicate. -/
theorem leading_eq {ts moved rest : List Target} (h : leading pred ts = .ok (moved, rest)) :
    moved = ts.takeWhile pred ∧ rest = ts.dropWhile pred := by
  induction ts generalizing moved rest with
  | nil =>
    cases h
    exact ⟨rfl, rfl⟩
  | cons t ts ih =>
    unfold leading at h
    split at h
    · cases h
    split at h
    · rename_i hpr
      obtain ⟨⟨moved', rest'⟩, hts, h⟩ := bind_eq_ok.mp h
      cases h
      obtain ⟨rfl, rfl⟩ := ih hts
      simp [hpr]
    · rename_i hpr
      cases h
      simp [hpr]

theorem promoteIf_eq (h : m.promoteIf pred = .ok m') :
    m' = { m with
      targets := { m.targets with
        elems := m.targets.elems ++ clearPending (m.deferredTargets.elems.takeWhile pred) }
      deferredTargets := { m.deferredTargets with
        elems := m.deferredTargets.elems.dropWhile pred }.populateFlags } := by
  unfold promoteIf at h
  split at h
  · cases h
  · obtain ⟨⟨moved, rest⟩, hle, h⟩ := bind_eq_ok.mp h
    obtain ⟨rfl, rfl⟩ := leading_eq hle
    exact eq_of_ok h

theorem promoteReadable_cases (h : m.promoteReadable = .ok m') :
    m' = m ∨ m.postInvalidate = false ∧ m.promoteIf readable = .ok m' := by
  unfold promoteReadable at h
  split at h
  · exact .inl (eq_of_ok h)
  split at h
  · cases h
  split at h
  · exact .inl (eq_of_ok h)
  · rename_i hpo
    exact .inr ⟨by simpa using hpo, h⟩

/-- `promoteWritable` has something to do: a deferred target waits for a writable block,
no snoop takes it away, and the first one is not an invalidation. -/
def MovesWritable (m : Mshr) : Prop :=
  m.deferredTargets.flags.needsWritable ∧ m.postInvalidate = false ∧
    m.postDowngrade = false ∧ m.deferredTargets.elems.head?.any notInvalidating = true

instance : DecidablePred MovesWritable := fun _ => inferInstanceAs (Decidable (_ ∧ _))

theorem promoteWritable_cases (h : m.promoteWritable = .ok m') :
    m' = m ∨ m.MovesWritable ∧ m.targets.flags.needsWritable = false ∧
      m.setNeedsWritable.promoteIf notInvalidating = .ok m' := by
  unfold promoteWritable at h
  split at h
  · exact .inl (eq_of_ok h)
  split at h
  · cases h
  split at h
  · exact .inl (eq_of_ok h)
  split at h
  · cases h
  split at h
  · exact .inl (eq_of_ok h)
  split at h
  · cases h
  · rename_i hne _ hp _ t ts hel hin hta
    simp only [Bool.or_eq_true, not_or, Bool.not_eq_true] at hp
    exact .inr ⟨⟨by simpa using hne, hp.1, hp.2, by simpa [hel, notInvalidating] using hin⟩,
      by simpa using hta, h⟩

end Mshr

/-! ### Conservation -/

namespace Mshr

variable {m m' : Mshr}

/-- Those whom the register has still to answer, in order. -/
def awaited (m : Mshr) : List Target :=
  waiting m.targets.elems ++ waiting m.deferredTargets.elems

variable {pkt : Packet} {curTick order : Nat}

theorem awaited_allocateTarget {whenReady : Nat} {allocOnFill : Bool}
    (h : m.allocateTarget pkt whenReady order allocOnFill = .ok m') :
    m'.awaited = m.awaited ++ waiting [⟨pkt, whenReady, order, .fromCPU, false, allocOnFill⟩] := by
  obtain ⟨-, ⟨p, -, hp, rfl⟩ | ⟨t, ts, -, -, -, -, hde, rfl⟩⟩ := allocateTarget_cases h
  · have hca : replaceUpgrade p = replaceUpgrade pkt := by
      rcases hp with rfl | rfl
      · rfl
      · exact replaceUpgrade_idem pkt
    simp [awaited, add, waiting, Target.canon, hca]
  · simp [awaited, add, waiting, Target.canon, hde]

theorem awaited_handleSnoop {r : Bool × Packet × Mshr} (h : m.handleSnoop pkt order curTick = .ok r) :
    r.2.2.awaited = m.awaited := by
  obtain ⟨hta, hde, -⟩ := handleSnoop_cases h
  unfold awaited
  congr 1
  · rcases hta with he | he | ⟨copy, markPending, -, he⟩
    · rw [he]
    · rw [he, waiting_replaceUpgrades]
    · rw [he]
      simp [add, waiting]
  · rcases hde with he | he
    · rw [he]
    · rw [he, waiting_replaceUpgrades]

theorem Marks.awaited (h : m.Marks m') : m'.awaited = m.awaited := by
  unfold Mshr.awaited
  rcases h.targets with heq | heq <;> simp [heq, h.deferred]

theorem awaited_promoteIf {pred : Target → Bool} (h : m.promoteIf pred = .ok m') :
    m'.awaited = m.awaited := by
  obtain rfl := promoteIf_eq h
  have hsp := congrArg waiting
    (takeWhile_append_dropWhile (p := pred) (l := m.deferredTargets.elems))
  rw [waiting_append] at hsp
  simpa [awaited, populateFlags] using hsp

theorem awaited_promoteReadable (h : m.promoteReadable = .ok m') : m'.awaited = m.awaited := by
  rcases promoteReadable_cases h with rfl | ⟨-, h⟩
  · rfl
  · exact awaited_promoteIf h

theorem awaited_promoteWritable (h : m.promoteWritable = .ok m') : m'.awaited = m.awaited := by
  rcases promoteWritable_cases h with rfl | ⟨-, -, h⟩
  · rfl
  · exact awaited_promoteIf (m := m.setNeedsWritable) h

theorem waiting_splitSnoops {ts stay ready : List Target}
    (h : splitSnoops ts = .ok (stay, ready)) : waiting ready = [] ∧ waiting stay = waiting ts := by
  obtain ⟨rfl, rfl, hpf⟩ := splitSnoops_eq h
  constructor
  · simp [waiting]
  · simp only [waiting, filter_filter]
    congr 1
    refine filter_congr fun t ht => ?_
    cases hsrc : t.source <;> simp_all

theorem awaited_extractServiceableTargets {r : TargetList × Mshr}
    (h : m.extractServiceableTargets pkt = .ok r) :
    waiting r.1.elems ++ r.2.awaited = m.awaited := by
  rcases extractServiceableTargets_cases h with
    ⟨h₁, h₂⟩ | ⟨t, ts, stay, ready, hel, -, hsp, h₁, h₂⟩
  · simp [awaited, h₁, h₂, populateFlags]
  · obtain ⟨hre, hst⟩ := waiting_splitSnoops hsp
    have ht : ∀ us, waiting (t :: us) = waiting [t] ++ waiting us := fun us => waiting_append [t] us
    simp only [awaited, h₁, h₂, hel, populateFlags, ht ready, ht ts, hre, hst,
      append_nil, append_assoc]

theorem awaited_promoteDeferredTargets {r : Bool × Mshr}
    (h : m.promoteDeferredTargets curTick = .ok r) : r.2.awaited = m.awaited := by
  rcases promoteDeferredTargets_cases h with heq | ⟨moved, rest, hmo, h₁, h₂, -⟩
  · rw [heq]
  · have hsp := congrArg waiting (promotable_append m.targets.elems m.deferredTargets.elems)
    rw [hmo] at hsp
    simp [awaited, h₁, h₂, ← hsp, populateFlags]

end Mshr

/-- Somebody waits for exactly what was added, in the order it was added. -/
def MshrRun.Conserved (s : MshrRun) : Prop :=
  waiting s.serviced.flatten ++ s.mshr.awaited = waiting s.added

variable {s : MshrRun}

theorem MshrRun.Conserved.withMshr (hs : s.Conserved) {m : Mshr} (h : m.awaited = s.mshr.awaited) :
    (s.withMshr m).Conserved := by
  simp only [Conserved, MshrRun.withMshr] at hs ⊢
  rw [h, hs]

theorem MshrRun.Conserved.step {s' : MshrRun} {a : MshrCall} (hs : s.Conserved)
    (h : s.step a = .ok s') : s'.Conserved := by
  cases a with
  | allocateTarget pkt whenReady order allocOnFill =>
    obtain ⟨m, hm, rfl⟩ := bind_ok.mp h
    simp only [Conserved, waiting_append] at hs ⊢
    rw [awaited_allocateTarget hm, ← append_assoc, hs]
  | handleSnoop pkt order curTick =>
    obtain ⟨r, hm, rfl⟩ := bind_ok.mp h
    exact hs.withMshr (awaited_handleSnoop hm)
  | setForward isForward =>
    cases h
    exact hs
  | markInService pendingModifiedResp =>
    obtain ⟨m, hm, rfl⟩ := bind_ok.mp h
    exact hs.withMshr (marks_markInService hm).awaited
  | markPending =>
    obtain ⟨m, hm, rfl⟩ := bind_ok.mp h
    exact hs.withMshr (marks_markPending hm).awaited
  | setDownstreamPending =>
    cases h
    exact hs
  | clearDownstreamPending =>
    obtain ⟨m, hm, rfl⟩ := bind_ok.mp h
    exact hs.withMshr (marks_clearDownstreamPending hm).awaited
  | promoteReadable =>
    obtain ⟨m, hm, rfl⟩ := bind_ok.mp h
    exact hs.withMshr (awaited_promoteReadable hm)
  | promoteWritable =>
    obtain ⟨m, hm, rfl⟩ := bind_ok.mp h
    exact hs.withMshr (awaited_promoteWritable hm)
  | extractServiceableTargets pkt =>
    obtain ⟨r, hm, rfl⟩ := bind_ok.mp h
    simp only [Conserved, flatten_append, flatten_singleton, waiting_append, append_assoc] at hs ⊢
    rw [awaited_extractServiceableTargets hm, hs]
  | promoteDeferredTargets curTick =>
    obtain ⟨r, hm, rfl⟩ := bind_ok.mp h
    exact hs.withMshr (awaited_promoteDeferredTargets hm)

theorem MshrRun.Starts.conserved (h : s.Starts) : s.Conserved := by
  obtain ⟨m, blkAddr, blkSize, target, whenReady, order, allocOnFill, -, hde, ha, had, hse, -⟩ := h
  have hel : s.mshr.deferredTargets.elems = [] := by
    unfold allocate at ha
    split at ha
    · cases ha
    · rw [eq_of_ok ha]
      exact hde
  simp [Conserved, awaited, hse, had, hel]

/-- **No target is lost, duplicated or reordered**: in every run, the targets handed
out so far, followed by the targets and the deferred targets, are those that were
added, in order. -/
theorem targets_conserved {s : MshrRun} (hs : mshrSystem.Reachable s) :
    waiting (s.serviced.flatten ++ s.mshr.targets.elems ++ s.mshr.deferredTargets.elems) =
      waiting s.added := by
  have hco : s.Conserved := hs.invariant MshrRun.Conserved
    (fun _ hsa => MshrRun.Starts.conserved hsa) (fun _ _ _ h _ hst => h.step hst)
  rw [waiting_append, waiting_append, append_assoc]
  exact hco

/-- A write that misses behind a read: after the response to the read, the read has
been handed out and the write is the target of the next request. -/
theorem targets_conserved_read_write :
    ∃ s, mshrSystem.Reachable s ∧ s.mshr.targets.elems.map (·.pkt.id) = [2] ∧
      waiting (s.serviced.flatten ++ s.mshr.targets.elems ++ s.mshr.deferredTargets.elems) =
        waiting s.added := by
  exact System.Reachable.exists_and_of_leads
    [.markInService false, .allocateTarget { cmd := .writeReq, id := 2 } 0 1 true,
      .extractServiceableTargets { cmd := .readResp }, .promoteDeferredTargets 0]
    (.start (MshrRun.starts_fresh { cmd := .readReq, id := 1 } rfl true))
    (by decide +kernel) fun s hs => targets_conserved hs

end Gem5.Mem
