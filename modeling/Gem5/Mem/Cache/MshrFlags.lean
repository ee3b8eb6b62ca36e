import Gem5.Mem.Cache.MshrRuns

/-!
# Gem5.Mem.Cache.MshrFlags

**The summary flags of the target lists.** `TargetList::add` updates the flags as a
target arrives, `populateFlags` recomputes them from the list. The two ways agree
(`TargetFlags.Tracks`) except in two places:

* a special write (one that may not be merged) that covers the whole block and is
  the first of its list counts as a whole-line write for `add` only;
* `promoteIf` moves targets without updating the flags of the list they move to, and
  `promoteWritable` sets `needsWritable` there by hand.
-/

namespace Gem5.Mem

open Gem5.Lib List Mshr MshrRun TargetList WriteFlags TargetFlags System.Reachable

/-! ### One update -/

namespace WriteFlags

variable {v w : WriteFlags}

/-- The write flags agree and will agree after the same updates: the written bytes
matter only as long as writes are merged. -/
structure Tracks (v w : WriteFlags) : Prop where
  isWholeLineWrite : v.isWholeLineWrite = w.isWholeLineWrite
  canMergeWrites : v.canMergeWrites = w.canMergeWrites
  writesBitmap : v.canMergeWrites → v.writesBitmap = w.writesBitmap

theorem Tracks.refl (w : WriteFlags) : Tracks w w := ⟨rfl, rfl, fun _ => rfl⟩

theorem Tracks.update (h : Tracks v w) (blkSize : Nat) (pkt : Packet) :
    Tracks (v.update blkSize false pkt) (w.update blkSize false pkt) := by
  unfold WriteFlags.update
  rw [← h.isWholeLineWrite, ← h.canMergeWrites]
  split
  · exact h
  · have hme : v.canMergeWrites := by simp_all
    have hby := h.writesBitmap hme
    split
    · exact ⟨h.isWholeLineWrite, rfl, fun hc => by simp at hc⟩
    · rw [hby]
      exact .refl _

theorem update_isWholeLineWrite (h : w.isWholeLineWrite) (blkSize : Nat) (empty : Bool)
    (pkt : Packet) : (w.update blkSize empty pkt).isWholeLineWrite := by
  simp [update, h]

instance (v w : WriteFlags) : Decidable (v.Tracks w) :=
  decidable_of_iff (_ ∧ _ ∧ _)
    ⟨fun h => ⟨h.1, h.2.1, h.2.2⟩, fun h => ⟨h.1, h.2, h.3⟩⟩

end WriteFlags

/-- The packet is a write that is not merged and that covers the whole block. -/
def Packet.specialLineWrite (pkt : Packet) (blkSize : Nat) : Bool :=
  pkt.isWrite && pkt.req.noMerge &&
    WriteFlags.isWholeLineWrite
      { writesBitmap := WriteFlags.fillBytes (List.replicate blkSize false) pkt blkSize }

namespace TargetFlags

variable {f g : TargetFlags} {blkSize : Nat} {pkt : Packet} {source : Source} {alloc : Bool}

/-- The flags of `f` and `g` have the same values, as far as they can be asked for. -/
structure Agrees (f g : TargetFlags) : Prop where
  needsWritable : f.needsWritable = g.needsWritable
  hasUpgrade : f.hasUpgrade = g.hasUpgrade
  allocOnFill : f.allocOnFill = g.allocOnFill
  hasFromCache : f.hasFromCache = g.hasFromCache
  isWholeLineWrite : f.isWholeLineWrite = g.isWholeLineWrite

/-- The flags agree and will agree after the same updates. -/
structure Tracks (f g : TargetFlags) : Prop where
  needsWritable : f.needsWritable = g.needsWritable
  hasUpgrade : f.hasUpgrade = g.hasUpgrade
  allocOnFill : f.allocOnFill = g.allocOnFill
  hasFromCache : f.hasFromCache = g.hasFromCache
  writes : f.writes.Tracks g.writes

theorem Tracks.refl (f : TargetFlags) : Tracks f f := ⟨rfl, rfl, rfl, rfl, .refl _⟩

theorem Tracks.agrees (h : Tracks f g) : Agrees f g :=
  ⟨h.needsWritable, h.hasUpgrade, h.allocOnFill, h.hasFromCache, h.writes.isWholeLineWrite⟩

theorem Tracks.updateFlags (h : Tracks f g) :
    Tracks (f.updateFlags blkSize false pkt source alloc)
      (g.updateFlags blkSize false pkt source alloc) := by
  unfold TargetFlags.updateFlags
  split
  · exact h
  · refine ⟨by rw [h.needsWritable], by rw [h.hasUpgrade], by rw [h.allocOnFill],
      by rw [h.hasFromCache], ?_⟩
    split
    · exact h.writes
    · exact h.writes.update blkSize pkt

theorem Tracks.eq_reset (h : Tracks f (.reset blkSize)) : f = .reset blkSize := by
  obtain ⟨hn, hu, ha, hc, -, hm, hb⟩ := h
  obtain ⟨_, _, _, _, ⟨_, _⟩⟩ := f
  simp_all [reset]

/-- **The first target of a list** gets the flags that a recomputation gives, unless it
is a special whole-line write. -/
theorem tracks_first (h : source = .fromCPU → pkt.specialLineWrite blkSize = false) (b : Bool) :
    Tracks ((reset blkSize).updateFlags blkSize b pkt source alloc)
      ((reset blkSize).updateFlags blkSize false pkt source alloc) := by
  unfold updateFlags
  split
  · exact .refl _
  · refine ⟨rfl, rfl, rfl, rfl, ?_⟩
    split
    · exact .refl _
    · have hcp : source = .fromCPU := by cases source <;> simp_all
      have hsp := h hcp
      unfold update
      split
      · exact .refl _
      split
      · exact .refl _
      · rename_i hop hwr
        cases hm : pkt.req.noMerge with
        | false => simpa [hm] using WriteFlags.Tracks.refl _
        | true =>
          -- A special write that leaves some byte of the block alone.
          refine ⟨?_, rfl, fun hc => by simp at hc⟩
          have hno : (fillBytes (replicate blkSize false) pkt blkSize).all id = false := by
            simpa [Packet.specialLineWrite, WriteFlags.isWholeLineWrite, hm,
              show pkt.isWrite by simpa using hwr] using hsp
          have hol : (replicate blkSize false).all id = false := by
            simpa [WriteFlags.isWholeLineWrite, reset] using hop
          cases b with
          | false => rfl
          | true => simpa [WriteFlags.isWholeLineWrite, reset, hol] using hno

/-- Adding the target changes none of the flags `f`, `needsWritable` and the writes apart. -/
structure Covers (f : TargetFlags) (t : Target) : Prop where
  hasUpgrade : t.pkt.isUpgrade ∨ t.pkt.cmd = .storeCondReq → f.hasUpgrade
  allocOnFill : t.allocOnFill → f.allocOnFill
  hasFromCache : t.pkt.fromCache → f.hasFromCache

instance (f : TargetFlags) : DecidablePred f.Covers := fun _ =>
  decidable_of_iff (_ ∧ _ ∧ _)
    ⟨fun h => ⟨h.1, h.2.1, h.2.2⟩, fun h => ⟨h.1, h.2, h.3⟩⟩

theorem foldl_updateFlags (blkSize : Nat) :
    ∀ (ts : List Target) (g : TargetFlags), (∀ t ∈ ts, t.source = .fromCPU) →
      let r := ts.foldl (fun g t => g.updateFlags blkSize false t.pkt t.source t.allocOnFill) g
      r.needsWritable = (g.needsWritable || ts.any (·.pkt.needsWritable)) ∧
      r.hasUpgrade =
        (g.hasUpgrade || ts.any fun t => t.pkt.isUpgrade || t.pkt.cmd = .storeCondReq) ∧
      r.allocOnFill = (g.allocOnFill || ts.any (·.allocOnFill)) ∧
      r.hasFromCache = (g.hasFromCache || ts.any (·.pkt.fromCache)) ∧
      (g.isWholeLineWrite → r.isWholeLineWrite) := by
  intro ts
  induction ts with
  | nil => simp
  | cons t ts ih =>
    intro g hcp
    have hsr := hcp t mem_cons_self
    obtain ⟨hne, hup, hal, hca, hwr⟩ := ih (g.updateFlags blkSize false t.pkt t.source t.allocOnFill)
      fun u hu => hcp u (mem_cons_of_mem t hu)
    simp only [foldl_cons, hne, hup, hal, hca, any_cons]
    refine ⟨?_, ?_, ?_, ?_, fun hw => hwr ?_⟩
    · simp [updateFlags, hsr, Bool.or_assoc]
    · simp [updateFlags, hsr, Bool.or_assoc]
    · simp [updateFlags, hsr, Bool.or_assoc]
    · simp [updateFlags, hsr, Bool.or_assoc]
    · simpa [updateFlags, hsr, TargetFlags.isWholeLineWrite] using update_isWholeLineWrite hw ..

theorem Agrees.foldl_covered (h : Agrees f g) {ts : List Target} (hco : ∀ t ∈ ts, f.Covers t)
    (hcp : ∀ t ∈ ts, t.source = .fromCPU)
    (hwr : (ts.foldl (fun g t => g.updateFlags blkSize false t.pkt t.source t.allocOnFill)
      g).isWholeLineWrite → f.isWholeLineWrite) :
    Agrees { f with needsWritable := f.needsWritable || ts.any (·.pkt.needsWritable) }
      (ts.foldl (fun g t => g.updateFlags blkSize false t.pkt t.source t.allocOnFill) g) := by
  obtain ⟨hne, hup, hal, hca, hwh⟩ := foldl_updateFlags blkSize ts g hcp
  refine ⟨?_, ?_, ?_, ?_, ?_⟩
  · rw [hne, h.needsWritable]
  · rw [hup, ← h.hasUpgrade, eq_comm, Bool.or_eq_left_iff_imp, any_eq_true]
    rintro ⟨t, ht, hu⟩
    exact (hco t ht).hasUpgrade (by simpa using hu)
  · rw [hal, ← h.allocOnFill, eq_comm, Bool.or_eq_left_iff_imp, any_eq_true]
    rintro ⟨t, ht, ha⟩
    exact (hco t ht).allocOnFill ha
  · rw [hca, ← h.hasFromCache, eq_comm, Bool.or_eq_left_iff_imp, any_eq_true]
    rintro ⟨t, ht, hc⟩
    exact (hco t ht).hasFromCache hc
  · exact Bool.eq_iff_iff.mpr ⟨fun hf => hwh (h.isWholeLineWrite ▸ hf), hwr⟩

end TargetFlags

/-! ### Lists -/

namespace TargetList

variable {l : TargetList} {pkt : Packet}

/-- The flags of the list are those `populateFlags` would give it. -/
def Described (l : TargetList) : Prop := l.flags.Agrees l.populateFlags.flags

def Tracked (l : TargetList) : Prop := l.flags.Tracks (flagsOf l.blkSize l.elems)

/-- The bytes noted as written are those of the writes in the list. -/
def UpToDate (l : TargetList) : Prop := l.flags.writes.Tracks (flagsOf l.blkSize l.elems).writes

instance (l : TargetList) : Decidable l.UpToDate := inferInstanceAs (Decidable (WriteFlags.Tracks _ _))

theorem Tracked.described (h : l.Tracked) : l.Described := TargetFlags.Tracks.agrees h

theorem Described.tracked (h : l.Described) (hup : l.UpToDate) : l.Tracked :=
  ⟨h.needsWritable, h.hasUpgrade, h.allocOnFill, h.hasFromCache, hup⟩

theorem tracked_populateFlags (l : TargetList) : l.populateFlags.Tracked := .refl _

variable (blkSize : Nat) (ts us : List Target)

theorem flagsOf_append :
    flagsOf blkSize (ts ++ us) =
      us.foldl (fun f t => f.updateFlags blkSize false t.pkt t.source t.allocOnFill)
        (flagsOf blkSize ts) := by
  simp [flagsOf]

theorem flagsOf_clearPending :
    flagsOf blkSize (ts ++ clearPending us) = flagsOf blkSize (ts ++ us) := by
  simp [flagsOf, clearPending, foldl_map]

theorem Described.clearPending (h : l.Described) :
    ({ l with elems := TargetList.clearPending l.elems } : TargetList).Described := by
  have hfl := flagsOf_clearPending l.blkSize [] l.elems
  simp only [Described, populateFlags] at h ⊢
  rwa [← nil_append (TargetList.clearPending l.elems), hfl]

theorem Described.addSnoop (h : l.Described) (readyTime order : Nat) (markPending allocOnFill : Bool) :
    (l.add pkt readyTime order .fromSnoop markPending allocOnFill).Described := by
  simpa [Described, populateFlags, TargetList.add, flagsOf_append, updateFlags] using h

theorem Tracked.isReset (h : l.Tracked) (hni : l.elems = []) : l.flags.isReset := by
  unfold Tracked at h
  rw [hni] at h
  rw [h.eq_reset]
  rfl

theorem Tracked.add (h : l.Tracked) {source : Source}
    (hfs : l.elems = [] → source = .fromCPU → pkt.specialLineWrite l.blkSize = false)
    (readyTime order : Nat) (markPending allocOnFill : Bool) :
    (l.add pkt readyTime order source markPending allocOnFill).Tracked := by
  unfold Tracked at h ⊢
  simp only [TargetList.add, flagsOf_append]
  cases hel : l.elems with
  | nil =>
    rw [hel] at h
    rw [h.eq_reset]
    exact tracks_first (hfs hel) _
  | cons t ts =>
    rw [hel] at h
    exact h.updateFlags

theorem replaceUpgrade_attributes (h : pkt.isRequest) :
    (replaceUpgrade pkt).needsWritable = pkt.needsWritable ∧
      (replaceUpgrade pkt).isWrite = pkt.isWrite ∧
      (replaceUpgrade pkt).fromCache = pkt.fromCache ∧
      ((replaceUpgrade pkt).isUpgrade || decide ((replaceUpgrade pkt).cmd = .storeCondReq))
        = false := by
  obtain ⟨cmd⟩ := pkt
  cases cmd <;> first | exact ⟨rfl, rfl, rfl, rfl⟩ | exact absurd h Bool.false_ne_true

theorem replaceUpgrade_fields (pkt : Packet) :
    (replaceUpgrade pkt).req = pkt.req ∧ (replaceUpgrade pkt).addr = pkt.addr ∧
      (replaceUpgrade pkt).size = pkt.size := by
  obtain ⟨cmd⟩ := pkt
  cases cmd <;> exact ⟨rfl, rfl, rfl⟩

theorem update_replaceUpgrade (h : pkt.isRequest) (w : WriteFlags) (blkSize : Nat)
    (empty : Bool) : w.update blkSize empty (replaceUpgrade pkt) = w.update blkSize empty pkt := by
  obtain ⟨hre, had, hsz⟩ := replaceUpgrade_fields pkt
  unfold update fillBytes Packet.getOffset
  rw [(replaceUpgrade_attributes h).2.1, hre, had, hsz]

theorem specialLineWrite_replaceUpgrade (h : pkt.isRequest) (blkSize : Nat) :
    (replaceUpgrade pkt).specialLineWrite blkSize = pkt.specialLineWrite blkSize := by
  obtain ⟨hre, had, hsz⟩ := replaceUpgrade_fields pkt
  unfold Packet.specialLineWrite fillBytes Packet.getOffset
  rw [(replaceUpgrade_attributes h).2.1, hre, had, hsz]

/-- **Replacing an upgrade** changes what the flags should say in `hasUpgrade` only. -/
theorem updateFlags_replaceUpgrade {f : TargetFlags} {t : Target} (h : t.pkt.isRequest)
    (blkSize : Nat) :
    { f with hasUpgrade := false }.updateFlags blkSize false (replaceUpgrade t.pkt) t.source
        t.allocOnFill =
      { f.updateFlags blkSize false t.pkt t.source t.allocOnFill with hasUpgrade := false } := by
  obtain ⟨hne, -, hca, hup⟩ := replaceUpgrade_attributes h
  unfold updateFlags
  rw [hne, hca, hup, update_replaceUpgrade h]
  split <;> rfl

theorem flagsOf_replaceUpgrade (hre : ∀ t ∈ ts, t.pkt.isRequest) :
    flagsOf blkSize (ts.map fun t => { t with pkt := replaceUpgrade t.pkt }) =
      { flagsOf blkSize ts with hasUpgrade := false } := by
  have hfl : ∀ (ts : List Target) (f : TargetFlags), (∀ t ∈ ts, t.pkt.isRequest) →
      (ts.map fun t => { t with pkt := replaceUpgrade t.pkt }).foldl
          (fun f t => f.updateFlags blkSize false t.pkt t.source t.allocOnFill)
          { f with hasUpgrade := false } =
        { ts.foldl (fun f t => f.updateFlags blkSize false t.pkt t.source t.allocOnFill) f with
          hasUpgrade := false } := by
    intro ts
    induction ts with
    | nil => intros; rfl
    | cons t ts ih =>
      intro f hts
      simp only [map_cons, foldl_cons]
      rw [updateFlags_replaceUpgrade (hts t (by simp)), ih _ fun u hu => hts u (by simp [hu])]
  exact hfl ts (reset blkSize) hre

theorem Tracked.replaceUpgrades (h : l.Tracked) (hre : ∀ t ∈ l.elems, t.pkt.isRequest) :
    l.replaceUpgrades.Tracked := by
  unfold TargetList.replaceUpgrades
  split
  case isFalse => exact h
  case isTrue =>
    unfold Tracked
    rw [flagsOf_replaceUpgrade _ _ hre]
    exact ⟨h.needsWritable, rfl, h.allocOnFill, h.hasFromCache, h.writes⟩

theorem Described.replaceUpgrades (h : l.Described) (hre : ∀ t ∈ l.elems, t.pkt.isRequest) :
    l.replaceUpgrades.Described := by
  unfold TargetList.replaceUpgrades
  split
  case isFalse => exact h
  case isTrue =>
    unfold Described populateFlags
    rw [flagsOf_replaceUpgrade _ _ hre]
    exact ⟨h.needsWritable, rfl, h.allocOnFill, h.hasFromCache, h.isWholeLineWrite⟩

theorem flagsOf_needsWritable (h : ∀ t ∈ ts, t.source ≠ .fromSnoop → t.pkt.needsWritable = false) :
    (flagsOf blkSize ts).needsWritable = false := by
  have hfo : ∀ (us : List Target) (f : TargetFlags), (∀ t ∈ us, t ∈ ts) →
      f.needsWritable = false →
      (us.foldl (fun f t => f.updateFlags blkSize false t.pkt t.source t.allocOnFill)
        f).needsWritable = false := by
    intro us
    induction us with
    | nil => exact fun f _ hf => hf
    | cons t us ih =>
      intro f hus hf
      refine ih _ (fun u hu => hus u (by simp [hu])) ?_
      show (f.updateFlags _ _ _ _ _).needsWritable = false
      unfold updateFlags
      split
      · exact hf
      · rename_i hsr
        simp [hf, h t (hus t (by simp)) hsr]
  exact hfo ts _ (fun t ht => ht) rfl

end TargetList

/-! ### Runs -/

/-- The flags describe the targets, and follow the deferred ones. -/
structure Mshr.FlagsInv (m : Mshr) : Prop where
  targets : m.targets.Described
  deferred : m.deferredTargets.Tracked
  deferredSize : m.deferredTargets.blkSize = m.blkSize
  fromCPU : ∀ t ∈ m.deferredTargets.elems, t.source = .fromCPU
  targetRequests : ∀ t ∈ m.targets.elems, t.pkt.isRequest
  deferredRequests : ∀ t ∈ m.deferredTargets.elems, t.pkt.isRequest

def MshrRun.StartsOrdinary (s : MshrRun) : Prop :=
  ∀ t ∈ s.mshr.targets.elems, t.pkt.specialLineWrite s.mshr.blkSize = false

/-- What a promotion moves does not show in the flags of the targets: each target is covered,
and the writes among them do not complete the line. -/
structure Mshr.Absorbs (m : Mshr) (pred : Target → Bool) : Prop where
  covers : ∀ t ∈ m.deferredTargets.elems.takeWhile pred, m.targets.flags.Covers t
  writes : (flagsOf m.targets.blkSize (m.targets.elems ++
    m.deferredTargets.elems.takeWhile pred)).isWholeLineWrite → m.targets.flags.isWholeLineWrite

instance (m : Mshr) (pred : Target → Bool) : Decidable (m.Absorbs pred) :=
  decidable_of_iff (_ ∧ _) ⟨fun h => ⟨h.1, h.2⟩, fun h => ⟨h.1, h.2⟩⟩

/-- The calls after which the flags still describe the lists. A special whole-line write
does not become the first deferred target; a target joins the others while their writes are up
to date; what is promoted does not show in the flags of the targets; and what is promoted
because it needs a writable block joins targets none of which does. -/
def MshrRun.Faithful (s : MshrRun) : MshrCall → Prop
  | .allocateTarget pkt _ _ _ =>
    if s.mshr.defers pkt = .ok true then
      s.mshr.deferredTargets.elems = [] → pkt.specialLineWrite s.mshr.blkSize = false
    else s.mshr.targets.UpToDate
  | .promoteReadable => s.mshr.postInvalidate = false → s.mshr.Absorbs Mshr.readable
  | .promoteWritable =>
    s.mshr.MovesWritable →
      (∀ t ∈ s.mshr.targets.elems, t.source ≠ .fromSnoop → t.pkt.needsWritable = false) ∧
      s.mshr.Absorbs Mshr.notInvalidating ∧
      ∃ t ∈ s.mshr.deferredTargets.elems.takeWhile Mshr.notInvalidating, t.pkt.needsWritable
  | _ => True

instance (s : MshrRun) : DecidablePred s.Faithful := fun a => by
  cases a <;> dsimp only [MshrRun.Faithful] <;> infer_instance

def faithfulSystem : System MshrRun MshrCall MshrFault :=
  (mshrSystem.startIn MshrRun.StartsOrdinary).restrict MshrRun.Faithful

namespace Mshr

variable {m m' : Mshr} {pkt : Packet} {pred : Target → Bool}

theorem isRequest_replaceUpgrade (h : pkt.isRequest) : (replaceUpgrade pkt).isRequest := by
  obtain ⟨cmd⟩ := pkt
  cases cmd <;> exact h

theorem requests_replaceUpgrades {l : TargetList} (h : ∀ t ∈ l.elems, t.pkt.isRequest) :
    ∀ t ∈ l.replaceUpgrades.elems, t.pkt.isRequest := by
  unfold replaceUpgrades
  split
  · simpa using fun t ht => isRequest_replaceUpgrade (h t ht)
  · exact h

theorem promoteIf_ne_needsWritable : m.promoteIf pred ≠ .error .needsWritable := by
  have hle : ∀ ts, leading pred ts ≠ .error .needsWritable := by
    intro ts
    induction ts with
    | nil => exact fun h => by cases h
    | cons t ts ih =>
      unfold leading
      split
      · exact fun h => by cases h
      split
      · cases hts : leading pred ts with
        | ok r => exact fun h => by cases h
        | error e => exact fun h => ih (hts.trans h)
      · exact fun h => by cases h
  unfold promoteIf
  split
  · exact fun h => by cases h
  · cases hts : leading pred m.deferredTargets.elems with
    | ok r => exact fun h => by cases h
    | error e =>
      intro h
      have he : e = .needsWritable := Except.error.inj h
      exact hle _ (hts.trans (congrArg Except.error he))

theorem promoteWritable_error (h : m.promoteWritable = .error .needsWritable) :
    m.MovesWritable ∧ m.targets.flags.needsWritable := by
  unfold promoteWritable at h
  split at h
  · cases h
  split at h
  · cases h
  split at h
  · cases h
  split at h
  · cases h
  split at h
  · cases h
  split at h
  · rename_i hne _ hp _ t ts hel hin hta
    simp only [Bool.or_eq_true, not_or, Bool.not_eq_true] at hp
    exact ⟨⟨by simpa using hne, hp.1, hp.2, by simpa [hel, notInvalidating] using hin⟩, hta⟩
  · exact absurd h promoteIf_ne_needsWritable

section

variable (h : m.FlagsInv) {curTick order : Nat}

include h

/-- **Promotion.** The targets that move do not show in the flags of the list they join, whose
`needsWritable` says what it should afterwards. -/
theorem FlagsInv.promoteIf {m₁ : Mshr} (hm₁ : m₁ = m ∨ m₁ = m.setNeedsWritable)
    (hne : m₁.targets.flags.needsWritable = (m.targets.flags.needsWritable ||
      (m.deferredTargets.elems.takeWhile pred).any (·.pkt.needsWritable)))
    (hab : m.Absorbs pred) (hm : m₁.promoteIf pred = .ok m') : m'.FlagsInv := by
  have hmo : ∀ t ∈ m.deferredTargets.elems.takeWhile pred, t ∈ m.deferredTargets.elems :=
    (takeWhile_sublist pred).subset
  have hst : ∀ t ∈ m.deferredTargets.elems.dropWhile pred, t ∈ m.deferredTargets.elems :=
    (dropWhile_sublist pred).subset
  have htr := h.targets.foldl_covered hab.covers (fun t ht => h.fromCPU t (hmo t ht))
    (flagsOf_append m.targets.blkSize _ _ ▸ hab.writes)
  rw [← hne, populateFlags, ← flagsOf_append, ← flagsOf_clearPending] at htr
  obtain rfl := promoteIf_eq hm
  have hre : ∀ t ∈ m.targets.elems ++
      clearPending (m.deferredTargets.elems.takeWhile pred),
      t.pkt.isRequest := by
    intro t ht
    rcases mem_append.mp ht with ht | ht
    · exact h.targetRequests t ht
    · obtain ⟨u, hu, rfl⟩ := mem_map.mp ht
      exact h.deferredRequests u (hmo u hu)
  rcases hm₁ with rfl | rfl
  all_goals exact ⟨htr, .refl _, h.deferredSize, fun t ht => h.fromCPU t (hst t ht), hre,
    fun t ht => h.deferredRequests t (hst t ht)⟩

theorem FlagsInv.allocateTarget {whenReady : Nat} {allocOnFill : Bool}
    (hfa : if m.defers pkt = .ok true then
      m.deferredTargets.elems = [] → pkt.specialLineWrite m.blkSize = false
      else m.targets.UpToDate)
    (hm : m.allocateTarget pkt whenReady order allocOnFill = .ok m') : m'.FlagsInv := by
  obtain ⟨hr, ⟨p, hde, hp, rfl⟩ | ⟨t, ts, hde, hel, -, -, -, rfl⟩⟩ := allocateTarget_cases hm
  · rw [if_pos hde] at hfa
    have hpr : p.isRequest := by
      rcases hp with rfl | rfl
      · exact hr
      · exact isRequest_replaceUpgrade hr
    have hsp : p.specialLineWrite m.blkSize = pkt.specialLineWrite m.blkSize := by
      rcases hp with rfl | rfl
      · rfl
      · exact specialLineWrite_replaceUpgrade hr _
    refine ⟨h.targets, ?_, h.deferredSize, ?_, h.targetRequests, ?_⟩
    · refine h.deferred.add (fun hn _ => ?_) _ _ _ _
      rw [h.deferredSize, hsp]
      exact hfa hn
    · simpa [add, or_imp, forall_and] using h.fromCPU
    · simpa [add, or_imp, forall_and] using ⟨h.deferredRequests, hpr⟩
  · rw [if_neg (by simp [hde])] at hfa
    refine ⟨?_, h.deferred, h.deferredSize, h.fromCPU, ?_, h.deferredRequests⟩
    · have htr := h.targets.tracked hfa
      exact (htr.add (fun hn => absurd (hel.symm.trans hn) (by simp)) _ _ _ _).described
    · simpa [add, or_imp, forall_and] using ⟨h.targetRequests, hr⟩

omit h in
theorem replaceUpgrades_blkSize (l : TargetList) : l.replaceUpgrades.blkSize = l.blkSize := by
  unfold replaceUpgrades
  split <;> rfl

theorem FlagsInv.handleSnoop {r : Bool × Packet × Mshr}
    (hm : m.handleSnoop pkt order curTick = .ok r) : r.2.2.FlagsInv := by
  obtain ⟨hta, hde, hpl⟩ := handleSnoop_cases hm
  have hsz : r.2.2.blkSize = m.blkSize := congrArg Prod.fst hpl
  have ht : r.2.2.targets.Described ∧ ∀ t ∈ r.2.2.targets.elems, t.pkt.isRequest := by
    rcases hta with he | he | ⟨copy, markPending, hco, he⟩ <;> rw [he]
    · exact ⟨h.targets, h.targetRequests⟩
    · exact ⟨h.targets.replaceUpgrades h.targetRequests, requests_replaceUpgrades h.targetRequests⟩
    · refine ⟨h.targets.addSnoop _ _ _ _, ?_⟩
      simpa [add, or_imp, forall_and] using ⟨h.targetRequests, hco⟩
  rcases hde with he | he
  · exact ⟨ht.1, he ▸ h.deferred, by rw [he, hsz, h.deferredSize], he ▸ h.fromCPU, ht.2,
      he ▸ h.deferredRequests⟩
  · refine ⟨ht.1, ?_, ?_, ?_, ht.2, ?_⟩ <;> rw [he]
    · exact h.deferred.replaceUpgrades h.deferredRequests
    · rw [replaceUpgrades_blkSize, hsz, h.deferredSize]
    · unfold replaceUpgrades
      split
      · simpa using h.fromCPU
      · exact h.fromCPU
    · exact requests_replaceUpgrades h.deferredRequests

theorem FlagsInv.marks (hm : m.Marks m') : m'.FlagsInv := by
  obtain ⟨hta, hd, hsz⟩ := hm
  have ht : m'.targets.Described ∧ ∀ t ∈ m'.targets.elems, t.pkt.isRequest := by
    rcases hta with heq | heq <;> rw [heq]
    · exact ⟨h.targets, h.targetRequests⟩
    · exact ⟨h.targets.clearPending, by simpa [clearPending] using h.targetRequests⟩
  exact ⟨ht.1, hd ▸ h.deferred, by rw [hd, hsz, h.deferredSize],
    hd ▸ h.fromCPU, ht.2, hd ▸ h.deferredRequests⟩

theorem FlagsInv.extractServiceableTargets {r : TargetList × Mshr}
    (hm : m.extractServiceableTargets pkt = .ok r) : r.2.FlagsInv := by
  rcases extractServiceableTargets_cases hm with
    ⟨-, heq⟩ | ⟨t, ts, stay, ready, hel, -, hsp, -, heq⟩
  · rw [heq]
    exact ⟨(tracked_populateFlags _).described, h.deferred, h.deferredSize, h.fromCPU,
      fun t ht => by simp [populateFlags] at ht, h.deferredRequests⟩
  · rw [heq]
    refine ⟨(tracked_populateFlags _).described, h.deferred, h.deferredSize, h.fromCPU,
      fun u hu => ?_, h.deferredRequests⟩
    obtain ⟨rfl, -⟩ := splitSnoops_eq hsp
    have hme : u ∈ ts := (mem_filter.mp hu).1
    exact h.targetRequests u (by simp [hel, hme])

theorem FlagsInv.promoteDeferredTargets {r : Bool × Mshr}
    (hm : m.promoteDeferredTargets curTick = .ok r) : r.2.FlagsInv := by
  rcases promoteDeferredTargets_cases hm with heq | ⟨moved, rest, hmo, h₁, h₂, hsz⟩
  · rwa [heq]
  · have hap := promotable_append m.targets.elems m.deferredTargets.elems
    rw [hmo] at hap
    have hmv : ∀ t ∈ moved, t ∈ m.deferredTargets.elems := by
      intro t ht
      rw [← hap]
      exact mem_append_left _ ht
    have hr : ∀ t ∈ rest, t ∈ m.deferredTargets.elems := by
      intro t ht
      rw [← hap]
      exact mem_append_right _ ht
    refine ⟨?_, ?_, ?_, ?_, ?_, ?_⟩
    · rw [h₁]
      exact (tracked_populateFlags _).described
    · rw [h₂]
      exact tracked_populateFlags _
    · rw [h₂, hsz]
      exact h.deferredSize
    · rw [h₂]
      exact fun t ht => h.fromCPU t (hr t ht)
    · rw [h₁]
      intro t ht
      rcases mem_append.mp ht with ht | ht
      · exact h.targetRequests t ht
      · exact h.deferredRequests t (hmv t ht)
    · rw [h₂]
      exact fun t ht => h.deferredRequests t (hr t ht)

end

end Mshr

theorem MshrRun.Starts.flagsInv {s : MshrRun} (h : s.Starts) (hor : s.StartsOrdinary) :
    s.mshr.FlagsInv := by
  obtain ⟨m, blkAddr, blkSize, target, whenReady, order, allocOnFill, ht, hd, ha, -⟩ := h
  unfold allocate at ha
  split at ha
  · cases ha
  · rename_i hre
    unfold MshrRun.StartsOrdinary at hor
    rw [eq_of_ok ha] at hor ⊢
    refine ⟨?_, ?_, rfl, ?_, ?_, ?_⟩
    · refine (TargetList.Tracked.add ?_ (fun _ _ => ?_) _ _ _ _).described
      · unfold TargetList.Tracked
        rw [ht]
        exact .refl _
      · simpa [add, ht] using hor
    · unfold TargetList.Tracked
      rw [hd]
      exact .refl _
    · simp [hd]
    · simpa [add, ht] using hre
    · simp [hd]

theorem Mshr.FlagsInv.step {s s' : MshrRun} {a : MshrCall} (hs : s.mshr.FlagsInv)
    (ha : s.Faithful a) (h : s.step a = .ok s') : s'.mshr.FlagsInv := by
  cases a with
  | allocateTarget pkt whenReady order allocOnFill =>
    obtain ⟨m, hm, rfl⟩ := bind_ok.mp h
    exact hs.allocateTarget ha hm
  | handleSnoop pkt order curTick =>
    obtain ⟨r, hm, rfl⟩ := bind_ok.mp h
    exact hs.handleSnoop hm
  | setForward isForward =>
    cases h
    exact ⟨hs.targets, hs.deferred, hs.deferredSize, hs.fromCPU, hs.targetRequests,
      hs.deferredRequests⟩
  | markInService pendingModifiedResp =>
    obtain ⟨m, hm, rfl⟩ := bind_ok.mp h
    exact hs.marks (marks_markInService hm)
  | markPending =>
    obtain ⟨m, hm, rfl⟩ := bind_ok.mp h
    exact hs.marks (marks_markPending hm)
  | setDownstreamPending =>
    cases h
    exact hs.marks ⟨.inl rfl, rfl, rfl, rfl⟩
  | clearDownstreamPending =>
    obtain ⟨m, hm, rfl⟩ := bind_ok.mp h
    exact hs.marks (marks_clearDownstreamPending hm)
  | promoteReadable =>
    obtain ⟨m, hm, rfl⟩ := bind_ok.mp h
    rcases promoteReadable_cases hm with rfl | ⟨hpo, hm⟩
    · exact hs
    · refine hs.promoteIf (.inl rfl) ?_ (ha hpo) hm
      -- What is promoted here needs no writable block.
      have hn : (s.mshr.deferredTargets.elems.takeWhile readable).any
          (·.pkt.needsWritable) = false := by
        refine any_eq_false.mpr fun t ht => ?_
        have hpr := all_eq_true.mp all_takeWhile t ht
        simp only [readable, Bool.and_eq_true, Bool.not_eq_true'] at hpr
        simp [hpr.2]
      rw [hn, Bool.or_false]
  | promoteWritable =>
    obtain ⟨m, hm, rfl⟩ := bind_ok.mp h
    rcases promoteWritable_cases hm with rfl | ⟨hmo, -, hm⟩
    · exact hs
    · obtain ⟨-, hco, t, ht, hne⟩ := ha hmo
      refine hs.promoteIf (.inr rfl) ?_ hco hm
      have hso : (s.mshr.deferredTargets.elems.takeWhile notInvalidating).any
          (·.pkt.needsWritable) := any_eq_true.mpr ⟨t, ht, hne⟩
      rw [hso, Bool.or_true]
      rfl
  | extractServiceableTargets pkt =>
    obtain ⟨r, hm, rfl⟩ := bind_ok.mp h
    exact hs.extractServiceableTargets hm
  | promoteDeferredTargets curTick =>
    obtain ⟨r, hm, rfl⟩ := bind_ok.mp h
    exact hs.promoteDeferredTargets hm

/-- **The flags describe the lists** in every run of faithful calls: for both lists they
are what `populateFlags` would compute, so that an MSHR without targets can be
deallocated and `promoteWritable` finds no target that already needs a writable
block. -/
theorem flags_describe_targets {s : MshrRun} (hs : faithfulSystem.Reachable s) :
    s.mshr.targets.Described ∧ s.mshr.deferredTargets.Described ∧
      (s.mshr.deferredTargets.elems = [] → s.mshr.deferredTargets.flags.isReset) ∧
      (s.mshr.targets.elems = [] → s.mshr.deferredTargets.elems = [] →
        ∃ m, s.mshr.deallocate = .ok m) ∧
      (s.Faithful .promoteWritable → s.mshr.promoteWritable ≠ .error .needsWritable) := by
  have hi : s.mshr.FlagsInv := by
    refine invariant (fun s => s.mshr.FlagsInv) ?_ ?_ hs
    · rintro s ⟨hsa, hor⟩
      exact hsa.flagsInv hor
    · intro s a s' h hp hst
      exact h.step hp.2 hst
  refine ⟨hi.targets, hi.deferred.described, hi.deferred.isReset,
    fun hta hde => ?_, fun hfa her => ?_⟩
  · unfold deallocate
    rw [if_neg (by simp [hta]), if_neg (by simp [hi.deferred.isReset hde])]
    exact ⟨_, rfl⟩
  · obtain ⟨hmo, hfl⟩ := promoteWritable_error her
    have hn := flagsOf_needsWritable s.mshr.targets.blkSize _ (hfa hmo).1
    rw [hi.targets.needsWritable, populateFlags, hn] at hfl
    cases hfl

/-- A write promoted behind a read that came back writable. -/
theorem flags_describe_promoted_write :
    ∃ s, faithfulSystem.Reachable s ∧ s.mshr.targets.elems.map (·.pkt.id) = [1, 2] ∧
      s.mshr.targets.Described := by
  have hst : faithfulSystem.init (fresh { cmd := .readReq, id := 1 } true) :=
    ⟨starts_fresh _ rfl true, by unfold MshrRun.StartsOrdinary; decide⟩
  have hle : faithfulSystem.Leads (fun s => s.mshr.targets.elems.map (·.pkt.id) = [1, 2])
      [.markInService false, .allocateTarget { cmd := .writeReq, id := 2 } 0 1 true,
        .promoteWritable] (fresh { cmd := .readReq, id := 1 } true) := by
    unfold faithfulSystem
    decide +kernel
  obtain ⟨s, hs, hid⟩ := exists_of_leads _ (.start hst) hle
  exact ⟨s, hs, hid, (flags_describe_targets hs).1⟩

/-- **The flags can be wrong, and an assertion can fire.** A prefetch that comes back
writable with a deferred `ReadExReq` of another cache: `hasFromCache` stays false. A
secure write of the whole line: a recomputation would not call it a whole-line write.
A write in flight with a cache clean and another write deferred behind it: a writable
response violates the assertion of `promoteWritable`. -/
theorem flags_can_mislead :
    (∃ s, mshrSystem.Reachable s ∧ s.mshr.targets.flags.hasFromCache = false ∧
      s.mshr.targets.populateFlags.flags.hasFromCache) ∧
    (∃ s, mshrSystem.Reachable s ∧ s.mshr.targets.flags.isWholeLineWrite ∧
      s.mshr.targets.populateFlags.flags.isWholeLineWrite = false) ∧
    (∃ s, mshrSystem.Reachable s ∧ Faults .needsWritable s.mshr.promoteWritable) := by
  refine ⟨?_, ?_, ?_⟩
  · exact exists_of_leads
      [.markInService false, .allocateTarget { cmd := .readExReq, size := 64 } 0 1 true,
        .promoteWritable]
      (.start (starts_fresh { cmd := .hardPFReq, size := 64 } rfl true))
      (by decide +kernel)
  · exact exists_of_leads [] (.start (starts_fresh
        { cmd := .writeLineReq, size := 64, req := { flags := { secure := true } } } rfl true))
      (by decide +kernel)
  · exact exists_of_leads [.markInService false,
        .allocateTarget { cmd := .cleanSharedReq, req := { flags := { clean := true } } } 0 1 true,
        .allocateTarget { cmd := .writeReq } 0 2 true]
      (.start (starts_fresh { cmd := .writeReq } rfl true))
      (by decide +kernel)

end Gem5.Mem
