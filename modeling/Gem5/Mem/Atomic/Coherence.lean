import Gem5.Mem.Atomic.Bus

/-!
# Gem5.Mem.Atomic.Coherence

**Coherence in atomic mode.** In every run, at most one cache has the block dirty, a writable copy is
the only copy, and no assertion fails (`Coherent`). The bytes are a second invariant (`Fresh`): every
valid copy holds the bytes of the most recent writes, and so does the memory when no copy is dirty.

`Fresh` needs a condition. A write of a whole line that misses does not fetch the line: it sends an
invalidation, the copies of the other caches are dropped, dirty or not, and the write is to fill the
new block. `Packet::isWholeLineWrite` looks at the offset and the size only, so a masked write of the
size of a block takes this path too, and the bytes it does not enable are those of the victim that
the block held before (`masked_write_loses_bytes`).
-/

namespace Gem5.Mem

open CacheBlk Function Gem5.Lib Access Packet
open AtomicLine (setCopy_self setCopy_of_ne)

variable {N : Nat} {P : AtomicParams N} {p : CacheParams} {secure : Bool}

/-! ### The accesses of a cache -/

/-- An access after `promoteWholeLineWrites`. -/
structure CacheAccess (blkSize addr : Nat) (x : Access) : Prop where
  cmd : x.pkt.cmd = .readReq ∨ x.pkt.cmd = .writeReq ∨
    x.pkt.cmd = .writeLineReq ∧ x.pkt.isWholeLineWrite blkSize = true
  inBlock : x.pkt.getBlockAddr blkSize = addr ∧ x.pkt.getOffset blkSize + x.pkt.size ≤ blkSize
  paddr : x.pkt.req.paddr = some x.pkt.addr
  flags : x.pkt.cacheResponding = false ∧ x.pkt.hasSharers = false
  cacheable : x.pkt.req.isUncacheable = false ∧ x.pkt.req.isCacheMaintenance = false

def Access.promoted (p : CacheParams) (x : Access) : Access :=
  { x with pkt := promoteWholeLineWrites p x.pkt }

def Access.Enabled (x : Access) : Prop :=
  x.pkt.isMaskedWrite → ∀ i < x.pkt.size, x.byteEnable i = true

instance (x : Access) : Decidable x.Enabled := inferInstanceAs (Decidable (_ → _))

structure Access.SameWrite (x x' : Access) : Prop where
  isWrite : x'.pkt.isWrite = x.pkt.isWrite
  writeData : ∀ base mem, x'.writeData base mem = x.writeData base mem
  place : ∀ blkSize, x'.pkt.getOffset blkSize = x.pkt.getOffset blkSize
  wholeLine : ∀ blkSize, x'.pkt.isWholeLineWrite blkSize = x.pkt.isWholeLineWrite blkSize
  enabled : x.Enabled → x'.Enabled

theorem CpuAccess.promoted {blkSize addr : Nat} {x : Access} (hp : p.blkSize = blkSize)
    (h : CpuAccess blkSize addr secure x) :
    CacheAccess blkSize addr (x.promoted p) ∧ x.SameWrite (x.promoted p) := by
  by_cases hpr : x.pkt.cmd = .writeReq ∧ x.pkt.size = p.blkSize ∧
      x.pkt.getOffset p.blkSize = 0 ∧ !x.pkt.isMaskedWrite
  · obtain ⟨hcm, hsz, hof, hm⟩ := hpr
    have hx : x.promoted p = { x with pkt := { x.pkt with cmd := .writeLineReq } } := by
      rw [Access.promoted, promoteWholeLineWrites, if_pos ⟨hcm, hsz, hof, hm⟩]
    rw [hx]
    refine ⟨⟨.inr (.inr ⟨rfl, ?_⟩), h.inBlock, h.paddr, h.flags, h.cacheable⟩, ?_⟩
    · subst hp
      simp only [getOffset] at hof
      simp [isWholeLineWrite, getOffset, hof, hsz]
    · refine ⟨?_, fun base mem => ?_, fun _ => rfl, fun _ => ?_, fun _ => nofun⟩
      · simp only [isWrite, hcm]
        rfl
      · have hm' : x.pkt.isMaskedWrite = false := by simpa using hm
        rw [writeData, writeData, hm']
        rfl
      · simp [isWholeLineWrite, getOffset, hcm]
  · have hx : x.promoted p = x := by
      rw [Access.promoted, promoteWholeLineWrites, if_neg hpr]
    rw [hx]
    exact ⟨⟨h.cmd.elim .inl fun h => .inr (.inl h), h.inBlock, h.paddr, h.flags, h.cacheable⟩,
      ⟨rfl, fun _ _ => rfl, fun _ => rfl, fun _ => rfl, id⟩⟩

/-! ### Hits -/

section Access

variable {blkSize addr : Nat} {x : Access} {c : LockedBlk}

section

variable (h : CacheAccess blkSize addr x)

include h

theorem CacheAccess.attributes :
    x.pkt.cmd.isRequest ∧ x.pkt.cmd ≠ .swapReq ∧ x.pkt.cmd.isLLSC = false ∧
      x.pkt.cmd.isRead = !x.pkt.cmd.isWrite ∧
      (x.pkt.cmd.isWrite = false → x.pkt.cmd.hasRespData) := by
  rcases h.cmd with h | h | ⟨h, -⟩ <;> rw [h] <;> decide

theorem baseSatisfyRequest_access {b : CacheBlk} (hv : b.valid)
    (hwr : x.pkt.isWrite → b.isWritable) (holds : Bool) :
    baseSatisfyRequest blkSize b { x.pkt with compareHolds := holds } =
      .ok ({ b with dirty := b.dirty || x.pkt.isWrite }, { x.pkt with compareHolds := holds }) := by
  obtain ⟨hr, hsw, -, hrd, hda⟩ := h.attributes
  have hi : ¬x.pkt.getOffset blkSize + x.pkt.size > blkSize := Nat.not_lt.mpr h.inBlock.2
  have hi' : ¬({ x.pkt with compareHolds := holds } : Packet).getOffset blkSize + x.pkt.size >
    blkSize := hi
  cases hw : x.pkt.cmd.isWrite with
  | false =>
    simp [baseSatisfyRequest, isRequest, isWrite, isRead, hasRespData,
      hr, hsw, hrd, hw, hda hw, hi']
    rw [← hv]
  | true =>
    simp [baseSatisfyRequest, isRequest, isWrite, hr, hsw, hw, hv, hi', hwr hw]

theorem satisfy_read (hrd : x.pkt.isWrite = false) (hva : c.blk.valid) :
    c.satisfy blkSize x = .ok c := by
  obtain ⟨-, hsw, hll, hrw, -⟩ := h.attributes
  have hr : x.pkt.isRead := hrw.trans (by simp [show x.pkt.cmd.isWrite = false from hrd])
  rw [LockedBlk.satisfy, LockedBlk.satisfyRequest, baseSatisfyRequest_access h hva (by simp [hrd])]
  simp only [hrd, hr, hsw, show x.pkt.isLLSC = false from hll]
  simp [liftFault]

theorem satisfy_write (hwr : x.pkt.isWrite) (hw : c.blk.isWritable) :
    ∃ locks, c.satisfy blkSize x =
      .ok ⟨{ c.blk with dirty := true }, x.writeData (x.pkt.getOffset blkSize) c.data, locks⟩ := by
  obtain ⟨-, hsw, hll, -⟩ := h.attributes
  have hch : (checkWrite c.lockList x).1 := by
    rw [checkWrite, show x.pkt.isLLSC = false from hll]
    split <;> rfl
  refine ⟨(checkWrite c.lockList x).2, ?_⟩
  rw [LockedBlk.satisfy, LockedBlk.satisfyRequest,
    baseSatisfyRequest_access h (valid_of_isWritable hw) fun _ => hw]
  simp only [hwr, hsw, hch]
  simp [liftFault]

end

/-! ### Misses -/

def missCmd (blkSize : Nat) (x : Access) (c : LockedBlk) : MemCmd :=
  if x.pkt.isWholeLineWrite blkSize then .invalidateReq
  else if c.blk.valid then .upgradeReq
  else if x.pkt.isWrite then .readExReq
  else .readSharedReq

theorem missCmd_request (blkSize : Nat) (x : Access) (c : LockedBlk) :
    BusRequest (missCmd blkSize x c) := by
  unfold missCmd
  split_ifs <;> simp [BusRequest]

theorem CacheAccess.missAttributes (h : CacheAccess blkSize addr x) :
    x.pkt.cmd.isEviction = false ∧ x.pkt.cmd.isUpgrade = false ∧ x.pkt.cmd ≠ .invalidateReq ∧
      x.pkt.cmd.isClean = false ∧ x.pkt.cmd.needsResponse ∧
      x.pkt.cmd.needsWritable = x.pkt.cmd.isWrite ∧ x.pkt.cmd ≠ .scUpgradeFailReq ∧
      x.pkt.cmd ≠ .storeCondFailReq := by
  rcases h.cmd with h | h | ⟨h, -⟩ <;> rw [h] <;> decide

theorem createMissPacket_access (hp : p.blkSize = blkSize) (hin : p.mostlyExcl = false)
    (hrw : p.isReadOnly = false) (h : CacheAccess blkSize addr x)
    (hm : c.blk.valid → x.pkt.isWrite ∧ c.blk.isWritable = false) :
    (createMissPacket p x.pkt (if c.blk.valid then some c.blk else none) x.pkt.needsWritable
        (x.pkt.isWholeLineWrite blkSize) : Except (CacheFault Empty) (Option Packet)) =
      .ok (some (ofRequest x.pkt.req (missCmd blkSize x c) blkSize 0)) := by
  obtain ⟨hev, hup, hiv, hcl, hre, hn, hsc, hsf⟩ := h.missAttributes
  have hln : ¬(x.pkt.cmd = .writeLineReq ∧ (!x.pkt.isWholeLineWrite blkSize)) := by
    rintro ⟨hcm, hno⟩
    rcases h.cmd with h | h | ⟨-, hw⟩
    · simp [h] at hcm
    · simp [h] at hcm
    · simp [hw] at hno
  have hn' : x.pkt.needsWritable = x.pkt.isWrite := hn
  unfold createMissPacket
  rw [if_neg (by simp [isEviction, hev]),
    if_neg (by simp [h.cacheable.1, isUpgrade, hup, hiv, isClean, hcl]),
    if_neg (by simp [needsResponse, hre]), if_neg hln, hn']
  simp only [h.flags.2, hp]
  cases hw : x.pkt.isWholeLineWrite blkSize with
  | true =>
    have hno : (if c.blk.valid then some c.blk else none).any (·.isWritable) = false := by
      cases hv : c.blk.valid <;> simp [hv, hm]
    simp [missCmd, hw, hno]
    rfl
  | false =>
    cases hv : c.blk.valid with
    | true =>
      obtain ⟨hwr, hwi⟩ := hm hv
      have hll : x.pkt.isLLSC = false := h.attributes.2.2.1
      simp [missCmd, hw, hv, hwr, hwi, hll]
      rfl
    | false =>
      cases hwr : x.pkt.isWrite <;> simp [missCmd, hw, hv, hwr, hsc, hsf, hin, hrw] <;> rfl

/-- **What a fill makes of a copy.** -/
structure Filled (c : LockedBlk) (stale : Nat → UInt8) (rsp : BusPacket) (c' : LockedBlk) : Prop where
  valid : c'.blk.valid
  readable : c'.blk.readable
  writable : c'.blk.writable = (c.blk.isWritable || !rsp.hasSharers)
  dirty : c'.blk.dirty = (c.blk.isDirty || !rsp.hasSharers && rsp.cacheResponding)
  data : c'.data = if rsp.isRead then rsp.data else if c.blk.valid then c.data else stale

theorem handleFill_spec (c : LockedBlk) (stale : Nat → UInt8) {rsp : BusPacket} (hr : rsp.isResponse)
    (hal : rsp.addr = rsp.getBlockAddr blkSize)
    (hda : c.blk.valid = false → rsp.hasData ∨ rsp.cmd = .invalidateResp)
    (hsh : rsp.cmd = .invalidateResp → rsp.hasSharers = false) :
    ∃ c', c.handleFill blkSize true stale rsp = .ok c' ∧ Filled c stale rsp c' := by
  have hok : ¬(rsp.cmd = .invalidateResp ∧ rsp.hasSharers) := by
    rintro ⟨hcm, hsr⟩
    simp [hsh hcm] at hsr
  refine ⟨(if c.blk.valid then c else .allocated stale rsp).fill rsp, ?_, ?_⟩
  · cases hv : c.blk.valid with
    | true => simp [LockedBlk.handleFill, hr, ← hal, hv, hok]
    | false => simpa [LockedBlk.handleFill, hr, ← hal, hv, hok, or_iff_not_imp_left] using hda hv
  · cases hv : c.blk.valid with
    | true => constructor <;> simp [LockedBlk.fill, isWritable, isDirty, hv]
    | false =>
      constructor <;> simp [LockedBlk.fill, LockedBlk.allocated, CacheBlk.insert,
        isWritable, isDirty, hv]

end Access

/-! ### Coherence -/

section Coherence

variable {src : Fin N} {s s' : AtomicLine N} {pkt rsp : BusPacket} {x : Access} {c c' : LockedBlk}
  {stale bytes : Nat → UInt8} {addr : Nat}

variable {cmd : MemCmd} {blkSize : Nat}

theorem snoopCopy_invalidate (hin : cmd.isInvalidate) (c : LockedBlk) :
    (snoopCopy cmd c).blk.valid = false := by
  cases hva : c.blk.valid <;> simp [snoopCopy, hva, hin, LockedBlk.invalidate, invalidate]

theorem snoopCopy_shared (hin : cmd.isInvalidate = false) (c : LockedBlk) :
    (snoopCopy cmd c).blk.valid = c.blk.valid ∧ (snoopCopy cmd c).blk.isDirty = c.blk.isDirty ∧
      (snoopCopy cmd c).blk.isWritable = false ∧
      (snoopCopy cmd c).blk.readable = c.blk.readable ∧ (snoopCopy cmd c).data = c.data := by
  cases hva : c.blk.valid <;> simp [snoopCopy, hva, hin, LockedBlk.downgrade, isDirty, isWritable]

theorem Coherent.of_alone (src : Fin N) (hal : ∀ j ≠ src, (s.copy j).blk.valid = false)
    (hre : (s.copy src).blk.readable)
    (htr : P.hasFilter → Tracks s.entry s.copy) : Coherent P s := by
  have hs : ∀ i, (s.copy i).blk.valid → i = src := fun i hi => by
    by_contra hn
    simp [hal i hn] at hi
  exact
    { oneOwner := fun i j hi hj => (hs i (valid_of_isDirty hi)).trans
        (hs j (valid_of_isDirty hj)).symm
      exclusive := fun i j hi hj => (hs i (valid_of_isWritable hi)).trans (hs j hj).symm
      readable := fun i hi => hs i hi ▸ hre
      tracked := htr }

theorem Coherent.of_shared (hc : Coherent P s) (hin : cmd.isInvalidate = false)
    (hot : ∀ j ≠ src, s'.copy j = snoopCopy cmd (s.copy j))
    (hwr : (s'.copy src).blk.isWritable = false) (hdi : (s'.copy src).blk.isDirty = false)
    (hre : (s'.copy src).blk.readable)
    (htr : P.hasFilter → Tracks s'.entry s'.copy) : Coherent P s' := by
  have how : ∀ i, (s'.copy i).blk.isDirty → (s.copy i).blk.isDirty := by
    intro i hi
    by_cases hn : i = src
    · simp [hn, hdi] at hi
    · rwa [hot i hn, (snoopCopy_shared hin _).2.1] at hi
  have hno : ∀ i, (s'.copy i).blk.isWritable = false := by
    intro i
    by_cases hn : i = src
    · rw [hn, hwr]
    · rw [hot i hn, (snoopCopy_shared hin _).2.2.1]
  exact
    { oneOwner := fun i j hi hj => hc.oneOwner i j (how i hi) (how j hj)
      exclusive := fun i j hi _ => by simp [hno i] at hi
      readable := fun i hi => by
        by_cases hn : i = src
        · rw [hn, hre]
        · obtain ⟨hva, -, -, hrd, -⟩ := snoopCopy_shared hin (s.copy i)
          rw [hot i hn] at hi ⊢
          exact hrd.trans (hc.readable i (hva.symm.trans hi))
      tracked := htr }

theorem Tracks.granted {copy : Fin N → LockedBlk} {exclusive : Bool} (h : Tracks s.entry s.copy)
    (hot : ∀ j ≠ src, (copy j).blk.valid → (s.copy j).blk.valid ∧ exclusive = false) :
    Tracks (some (s.item.granted src exclusive)) copy := by
  have hsr : (s.item.granted src exclusive).holder src = true := update_self ..
  refine ⟨fun i hi => ⟨_, rfl, ?_⟩, ?_, ?_⟩
  · by_cases hn : i = src
    · rw [hn, hsr]
    · obtain ⟨hva, rfl⟩ := hot i hn hi
      exact (update_of_ne hn _ _).trans (h.item_holder hva)
  · rintro _ ⟨⟩ i
    by_cases hn : i = src
    · rw [hn]
      exact update_self ..
    · exact (update_of_ne hn _ _).trans (h.item_idle i)
  · rintro _ ⟨⟩
    exact SnoopItem.isNull_eq_false src (by simp [SnoopItem.interested, hsr])

theorem Answered.copy_of_ne (h : Answered P src s pkt s' rsp) {j : Fin N} (hj : j ≠ src) :
    s'.copy j = snoopCopy pkt.cmd (s.copy j) := by
  rw [h.copies]
  exact if_pos (mem_others.mpr hj)

theorem Answered.copy_src (h : Answered P src s pkt s' rsp) : s'.copy src = s.copy src := by
  rw [h.copies]
  exact if_neg fun hsr => mem_others.mp hsr rfl

/-- **A fill keeps the block coherent.** -/
theorem Coherent.fill (hco : Coherent P s) (han : Answered P src s pkt s' rsp)
    (hf : Filled (s.copy src) stale rsp c')
    (hsh : pkt.isInvalidate = false → (s.copy src).blk.valid = false) :
    Coherent P (s'.setCopy src c') := by
  have hc : ∀ j ≠ src, (s'.setCopy src c').copy j = snoopCopy pkt.cmd (s.copy j) :=
    fun j hj => (setCopy_of_ne _ _ hj).trans (han.copy_of_ne hj)
  have hr : ((s'.setCopy src c').copy src).blk.readable := by
    rw [setCopy_self, hf.readable]
  have htr : P.hasFilter → Tracks (s'.setCopy src c').entry (s'.setCopy src c').copy := by
    intro hfl
    obtain ⟨exclusive, hex, hen⟩ := han.tracked hfl
    rw [show (s'.setCopy src c').entry = _ from hen]
    refine (hco.tracked hfl).granted fun j hj hv => ?_
    rw [hc j hj] at hv
    cases hi : pkt.cmd.isInvalidate with
    | true => simp [snoopCopy_invalidate hi] at hv
    | false =>
      rw [(snoopCopy_shared hi _).1] at hv
      exact ⟨hv, Bool.eq_false_iff.mpr fun h => by
        simp [isInvalidate, hi] at hex
        simp [hex] at h⟩
  cases hi : pkt.cmd.isInvalidate with
  | true =>
    exact .of_alone src (fun j hj => by rw [hc j hj, snoopCopy_invalidate hi]) hr htr
  | false =>
    have hs := han.hasSharers
    rw [show pkt.isInvalidate = false from hi, Bool.not_false] at hs
    cases hay : anyCached (others src) s.copy with
    | false =>
      -- Nobody has a copy: the new one is exclusive.
      have hn : ∀ j ≠ src, (s.copy j).blk.valid = false := fun j hj =>
        Bool.eq_false_iff.mpr (List.any_eq_false.mp hay j (mem_others.mpr hj))
      refine .of_alone src (fun j hj => ?_) hr htr
      rw [hc j hj, (snoopCopy_shared hi _).1, hn j hj]
    | true =>
      rw [hay] at hs
      have hnv := hsh hi
      refine hco.of_shared hi hc ?_ ?_ hr htr
      · simp [isWritable, hf.writable, hs, hnv]
      · simp [isDirty, hf.dirty, hs, hnv]

/-- **A write keeps the block coherent.** -/
theorem Coherent.write (hco : Coherent P s) (hwr : (s.copy src).blk.isWritable)
    (hc : c.blk = { (s.copy src).blk with dirty := true }) : Coherent P (s.setCopy src c) := by
  have hv := valid_of_isWritable hwr
  refine .of_alone src (fun j hj => ?_) ?_ fun hfl => ?_
  · rw [setCopy_of_ne _ _ hj]
    exact Bool.eq_false_iff.mpr fun h => hj (hco.exclusive src j hwr h).symm
  · rw [setCopy_self, hc]
    exact hco.readable src hv
  · obtain ⟨hho, hid, hus⟩ := hco.tracked hfl
    refine ⟨fun i hi => hho i ?_, hid, hus⟩
    by_cases hn : i = src
    · rw [hn, hv]
    · rwa [setCopy_of_ne _ _ hn] at hi

/-- **An eviction keeps the block coherent.** -/
theorem Coherent.evict (hc : Coherent P s)
    (hcp : s'.copy = update s.copy src (s.copy src).invalidate)
    (htr : P.hasFilter → Tracks s'.entry s'.copy) : Coherent P s' := by
  have hk : ∀ i, (s'.copy i).blk.valid → s'.copy i = s.copy i := by
    intro i hi
    by_cases hn : i = src
    · simp [hcp, hn, LockedBlk.invalidate, invalidate] at hi
    · rw [hcp, update_of_ne hn]
  exact
    { oneOwner := fun i j hi hj => by
        rw [hk i (valid_of_isDirty hi)] at hi
        rw [hk j (valid_of_isDirty hj)] at hj
        exact hc.oneOwner i j hi hj
      exclusive := fun i j hi hj => by
        rw [hk i (valid_of_isWritable hi)] at hi
        rw [hk j hj] at hj
        exact hc.exclusive i j hi hj
      readable := fun i hi => by
        rw [hk i hi]
        exact hc.readable i (hk i hi ▸ hi)
      tracked := htr }

/-! ### Bytes -/

/-- **The bytes are up to date**: those of the valid copies, and those of the memory when no copy is
dirty. -/
structure Fresh (blkSize : Nat) (s : AtomicLine N) (bytes : Nat → UInt8) : Prop where
  copies : ∀ i, (s.copy i).blk.valid → ∀ a < blkSize, (s.copy i).data a = bytes a
  memory : (∀ i, (s.copy i).blk.isDirty = false) → ∀ a < blkSize, s.memory a = bytes a

theorem writeData_congr {base : Nat} {mem mem' : Nat → UInt8} (h : ∀ a < blkSize, mem a = mem' a) :
    ∀ a < blkSize, x.writeData base mem a = x.writeData base mem' a := by
  intro a ha
  simp only [writeData, overwrite]
  split
  · have hin : base + (a - base) = a := by omega
    rw [hin, h a ha]
  · exact h a ha

theorem writeData_wholeLine (hwh : x.pkt.isWholeLineWrite blkSize = true) (hen : x.Enabled)
    (mem mem' : Nat → UInt8) :
    ∀ a < blkSize, x.writeData (x.pkt.getOffset blkSize) mem a =
      x.writeData (x.pkt.getOffset blkSize) mem' a := by
  intro a ha
  simp only [isWholeLineWrite, decide_eq_true_eq] at hwh
  obtain ⟨-, hof, hsz⟩ := hwh
  have hal : (x.pkt.isMaskedWrite && !x.byteEnable a) = false := by
    cases hms : x.pkt.isMaskedWrite with
    | false => rfl
    | true => simp [hen hms a (hsz ▸ ha)]
  simp [writeData, overwrite, hof, hsz, ha, hal]

theorem Fresh.write (hco : Coherent P s) (hwr : (s.copy src).blk.isWritable)
    (hc : c.blk = { (s.copy src).blk with dirty := true })
    (hdat : ∀ a < blkSize, c.data a = bytes a) : Fresh blkSize (s.setCopy src c) bytes where
  copies i hi := by
    by_cases hn : i = src
    · rwa [hn, setCopy_self]
    · rw [setCopy_of_ne _ _ hn] at hi
      exact absurd (hco.exclusive src i hwr hi).symm hn
  memory hcl := by
    have hsr := hcl src
    simp [hc, isDirty, valid_of_isWritable hwr] at hsr

theorem Fresh.evict (hfr : Fresh blkSize s bytes) (hva : (s.copy src).blk.valid)
    (hc : s'.copy = update s.copy src (s.copy src).invalidate)
    (hme : s'.memory = if (s.copy src).blk.isDirty then (s.copy src).data else s.memory) :
    Fresh blkSize s' bytes where
  copies i hi := by
    by_cases hn : i = src
    · simp [hc, hn, LockedBlk.invalidate, invalidate] at hi
    · rw [hc, update_of_ne hn] at hi ⊢
      exact hfr.copies i hi
  memory hcl := by
    rw [hme]
    cases hdi : (s.copy src).blk.isDirty with
    | true => exact hfr.copies src hva
    | false =>
      refine hfr.memory fun i => ?_
      by_cases hn : i = src
      · rw [hn, hdi]
      · simpa [hc, update_of_ne hn] using hcl i

theorem dirty_of_invalid {b : CacheBlk} (h : b.valid = false) : b.isDirty = false := by
  rw [isDirty, h, Bool.false_and]

theorem Filled.fresh (hfr : Fresh blkSize s bytes) (hcm : BusRequest pkt.cmd)
    (han : Answered P src s pkt s' rsp) (hfi : Filled (s.copy src) stale rsp c')
    (hs : (s.copy src).blk.valid = !pkt.hasRespData) : ∀ a < blkSize, c'.data a = bytes a := by
  have hrd : rsp.isRead = pkt.hasRespData := by
    rw [isRead, han.cmd]
    exact hcm.below.2.2.2.2
  rw [hfi.data, hrd]
  cases hd : pkt.hasRespData with
  | false =>
    replace hs : (s.copy src).blk.valid := hs.trans (by rw [hd]; rfl)
    rw [if_pos hs]
    exact hfr.copies src hs
  | true =>
    replace hs : (s.copy src).blk.valid = false := hs.trans (by rw [hd]; rfl)
    by_cases how : ∃ i ≠ src, (s.copy i).blk.isDirty
    · obtain ⟨i, hn, hdi⟩ := how
      rw [(han.owner i hn hdi).2 hd]
      exact hfr.copies i (valid_of_isDirty hdi)
    · have hcl : ∀ i ≠ src, (s.copy i).blk.isDirty = false := fun i hi =>
        Bool.eq_false_iff.mpr fun h => how ⟨i, hi, h⟩
      rw [(han.noOwner hcl).2 hd]
      refine hfr.memory fun i => ?_
      by_cases hn : i = src
      · rw [hn, dirty_of_invalid hs]
      · exact hcl i hn

theorem Fresh.share (hfr : Fresh blkSize s bytes) (hin : pkt.isInvalidate = false)
    (hnv : (s.copy src).blk.valid = false) (han : Answered P src s pkt s' rsp)
    (hdat : ∀ a < blkSize, c'.data a = bytes a) : Fresh blkSize (s'.setCopy src c') bytes where
  copies i hi := by
    by_cases hn : i = src
    · rwa [hn, setCopy_self]
    · obtain ⟨hva, -, -, -, hke⟩ := snoopCopy_shared hin (s.copy i)
      rw [setCopy_of_ne _ _ hn, han.copy_of_ne hn] at hi ⊢
      rw [hke]
      exact hfr.copies i (hva.symm.trans hi)
  memory hcl := by
    rw [show (s'.setCopy src c').memory = s.memory from han.memory]
    refine hfr.memory fun i => ?_
    by_cases hn : i = src
    · rw [hn, dirty_of_invalid hnv]
    · have hi := hcl i
      rwa [setCopy_of_ne _ _ hn, han.copy_of_ne hn, (snoopCopy_shared hin _).2.1] at hi

end Coherence

/-! ### Accesses -/

section Accesses

variable {src : Fin N} {s s' : AtomicLine N} {x : Access} {stale : Nat → UInt8} {addr blkSize : Nat}
  {c : LockedBlk}

def Access.applied (x : Access) (blkSize : Nat) (bytes : Nat → UInt8) : Nat → UInt8 :=
  if x.pkt.isWrite then x.writeData (x.pkt.getOffset blkSize) bytes else bytes

/-- A write of a whole line to a cache without a copy enables all of its bytes. -/
def FillsLine (blkSize : Nat) (x : Access) (c : LockedBlk) : Prop :=
  x.pkt.isWholeLineWrite blkSize = true → c.blk.valid = false → x.Enabled

instance (blkSize : Nat) (x : Access) (c : LockedBlk) : Decidable (FillsLine blkSize x c) :=
  inferInstanceAs (Decidable (_ → _ → _))

/-- **What an access keeps**: the block stays coherent, the cache has a copy, and the bytes are those
of the access if the write fills the line. -/
structure Performed (P : AtomicParams N) (src : Fin N) (x : Access) (s s' : AtomicLine N) : Prop where
  coherent : Coherent P s'
  valid : (s'.copy src).blk.valid
  fresh : ∀ bytes, Fresh P.blkSize s bytes → FillsLine P.blkSize x (s.copy src) →
    Fresh P.blkSize s' (x.applied P.blkSize bytes)

theorem satisfy_performed (hx : CacheAccess P.blkSize addr x) (hc : Coherent P (s'.setCopy src c))
    (hv : c.blk.valid) (hwi : x.pkt.isWrite → c.blk.isWritable)
    (hrd : x.pkt.isWrite = false → ∀ bytes, Fresh P.blkSize s bytes →
      Fresh P.blkSize (s'.setCopy src c) bytes)
    (hwr : x.pkt.isWrite → ∀ bytes, Fresh P.blkSize s bytes →
      FillsLine P.blkSize x (s.copy src) → ∀ a < P.blkSize,
        x.writeData (x.pkt.getOffset P.blkSize) c.data a =
          x.writeData (x.pkt.getOffset P.blkSize) bytes a) :
    ∃ c', c.satisfy P.blkSize x = .ok c' ∧ Performed P src x s (s'.setCopy src c') := by
  cases hw : x.pkt.isWrite with
  | false =>
    refine ⟨c, satisfy_read hx hw hv, hc, by simp [hv], fun bytes hfr _ => ?_⟩
    rw [applied, hw]
    exact hrd hw bytes hfr
  | true =>
    obtain ⟨locks, hsa⟩ := satisfy_write hx hw (hwi hw)
    have hs : (s'.setCopy src c).copy src = c := setCopy_self ..
    have hst : ∀ c', (s'.setCopy src c).setCopy src c' = s'.setCopy src c' := fun c' => by
      simp [AtomicLine.setCopy]
    have hr : ((s'.setCopy src c).copy src).blk.isWritable := by
      rw [hs, hwi hw]
    refine ⟨_, hsa, ?_, by simp [hv], fun bytes hfr hfi => ?_⟩
    · rw [← hst]
      exact hc.write hr (by rw [hs])
    · rw [← hst, applied, hw]
      exact .write hc hr (by rw [hs]) (hwr hw bytes hfr hfi)

theorem hit_performed (hx : CacheAccess P.blkSize addr x) (hcoh : Coherent P s)
    (hv : (s.copy src).blk.valid) (hse : (s.copy src).blk.serves x.pkt) :
    ∃ c', (s.copy src).satisfy P.blkSize x = .ok c' ∧ Performed P src x s (s.setCopy src c') := by
  refine satisfy_performed hx (by rwa [s.setCopy_eq_self]) hv (fun hw => ?_)
    (fun _ bytes hfr => by rwa [s.setCopy_eq_self]) fun _ bytes hfr _ => ?_
  · have hne : x.pkt.needsWritable := hx.missAttributes.2.2.2.2.2.1.trans hw
    rwa [serves, if_pos hne] at hse
  · exact writeData_congr (hfr.copies src hv)

def missPacket (blkSize : Nat) (x : Access) (c : LockedBlk) : BusPacket :=
  { toPacket := Packet.ofRequest x.pkt.req (missCmd blkSize x c) blkSize 0 }

section

variable (hx : CacheAccess blkSize addr x)

include hx

theorem missPacket_fresh (c : LockedBlk) : FreshRequest (missPacket blkSize x c) :=
  ⟨missCmd_request blkSize x c, hx.cacheable.1, hx.cacheable.2, rfl, rfl⟩

theorem missCmd_cases (hmi : c.blk.valid → x.pkt.isWrite) :
    (x.pkt.isWholeLineWrite blkSize = true ∧ x.pkt.isWrite ∧ missCmd blkSize x c = .invalidateReq) ∨
      (x.pkt.isWholeLineWrite blkSize = false ∧ c.blk.valid ∧ x.pkt.isWrite ∧
        missCmd blkSize x c = .upgradeReq) ∨
      (x.pkt.isWholeLineWrite blkSize = false ∧ c.blk.valid = false ∧ x.pkt.isWrite ∧
        missCmd blkSize x c = .readExReq) ∨
      (x.pkt.isWholeLineWrite blkSize = false ∧ c.blk.valid = false ∧ x.pkt.isWrite = false ∧
        missCmd blkSize x c = .readSharedReq) := by
  cases hw : x.pkt.isWholeLineWrite blkSize with
  | true =>
    have hwr : x.pkt.isWrite := by
      rcases hx.cmd with h | h | ⟨h, -⟩
      · simp [isWholeLineWrite, h] at hw
      · rw [isWrite, h]
        rfl
      · rw [isWrite, h]
        rfl
    simp [missCmd, hw, hwr]
  | false =>
    cases hv : c.blk.valid with
    | true => simp [missCmd, hw, hv, hmi hv]
    | false => cases hwr : x.pkt.isWrite <;> simp [missCmd, hw, hv, hwr]

omit hx in
theorem handleAtomicRsp_spec (stale : Nat → UInt8) {rsp : BusPacket}
    (hx : CacheAccess P.blkSize addr x)
    (hmi : (s.copy src).blk.valid → x.pkt.isWrite)
    (ha : Answered P src s (missPacket P.blkSize x (s.copy src)) s' rsp) :
    ∃ c, Filled (s.copy src) stale rsp c ∧
      ∀ c', c.satisfy P.blkSize x = .ok c' →
        handleAtomicRsp P src x stale s' rsp = .ok (s'.setCopy src c') := by
  have hcm : rsp.cmd = (missCmd P.blkSize x (s.copy src)).responseCommand := ha.cmd
  have hal : rsp.addr = rsp.getBlockAddr P.blkSize := by
    have had : rsp.addr = x.pkt.addr - x.pkt.addr % P.blkSize :=
      ha.addr.1.trans (by simp [missPacket, ofRequest, hx.paddr])
    rw [getBlockAddr, had, Nat.sub_mod_eq_zero_of_mod_eq (Nat.mod_mod ..).symm, Nat.sub_zero]
  have hsh : rsp.hasSharers = (anyCached (others src) s.copy &&
      !(missCmd P.blkSize x (s.copy src)).isInvalidate) := ha.hasSharers
  -- What the checks read, by the kind of the miss.
  obtain ⟨hr, hda, hki, hdr, hsr⟩ : rsp.isResponse ∧
      ((s.copy src).blk.valid = false → rsp.hasData ∨ rsp.cmd = .invalidateResp) ∧
      (!x.pkt.isWholeLineWrite P.blkSize && !rsp.isRead && rsp.cmd ≠ .upgradeResp) = false ∧
      (rsp.isInvalidate && !x.pkt.isWholeLineWrite P.blkSize) = false ∧
      (rsp.cmd = .invalidateResp → rsp.hasSharers = false) := by
    simp only [isResponse, hasData, isRead, isInvalidate, hcm, hsh]
    rcases missCmd_cases hx hmi with ⟨hw, -, h⟩ | ⟨hw, hva, -, h⟩ | ⟨hw, -, -, h⟩ | ⟨hw, -, -, h⟩
    · rw [h, hw]
      exact ⟨rfl, fun _ => .inr rfl, rfl, rfl, fun _ => Bool.and_false _⟩
    · rw [h, hw, hva]
      exact ⟨rfl, fun h => absurd h (by decide), rfl, rfl, fun _ => Bool.and_false _⟩
    · rw [h, hw]
      exact ⟨rfl, fun _ => .inl rfl, rfl, rfl, fun _ => Bool.and_false _⟩
    · rw [h, hw]
      exact ⟨rfl, fun _ => .inl rfl, rfl, rfl, fun h => absurd h (by decide)⟩
  obtain ⟨c, hfi, hfl⟩ := handleFill_spec (s.copy src) stale hr hal hda hsr
  refine ⟨c, hfl, fun c' hsa => ?_⟩
  have hall : (P.cache src).allocOnFill x.pkt.cmd := by
    simp [CacheParams.allocOnFill, P.mostlyIncl]
  rw [handleAtomicRsp, hr, hki, hdr, ha.copy_src, hall]
  exact bind_eq_ok.mpr ⟨c, hfi, bind_eq_ok.mpr ⟨c', hsa, rfl⟩⟩

theorem missCmd_isInvalidate (hmi : c.blk.valid → x.pkt.isWrite) :
    (missCmd blkSize x c).isInvalidate = x.pkt.isWrite := by
  rcases missCmd_cases hx hmi with ⟨-, hw, h⟩ | ⟨-, -, hw, h⟩ | ⟨-, -, hw, h⟩ | ⟨-, -, hw, h⟩ <;>
    rw [h, hw] <;> rfl

theorem missCmd_hasRespData (hmi : c.blk.valid → x.pkt.isWrite)
    (hso : x.pkt.isWholeLineWrite blkSize = false ∨ c.blk.valid) :
    c.blk.valid = !(missCmd blkSize x c).hasRespData := by
  rcases missCmd_cases hx hmi with ⟨hwh, -, h⟩ | ⟨-, hv, -, h⟩ | ⟨-, hv, -, h⟩ | ⟨-, hv, -, h⟩
  · rw [h, hso.resolve_left (by simp [hwh])]
    rfl
  all_goals
    rw [h, hv]
    rfl

end

/-- **A miss is filled and satisfied.** -/
theorem miss_performed (hx : CacheAccess P.blkSize addr x) (hc : Coherent P s)
    (hm : (s.copy src).blk.valid → x.pkt.isWrite ∧ (s.copy src).blk.isWritable = false) :
    ∃ s', handleAtomicReqMiss P src x stale s = .ok s' ∧ Performed P src x s s' := by
  have hv : (s.copy src).blk.valid → x.pkt.isWrite := fun h => (hm h).1
  have hin := missCmd_isInvalidate hx hv
  have hcm := missCmd_request P.blkSize x (s.copy src)
  obtain ⟨s', rsp, hse, ha⟩ := CoherentXBar.recvAtomic_request src
    (missPacket_fresh hx (s.copy src)) hc
  obtain ⟨c, hi, hrs⟩ := handleAtomicRsp_spec stale hx hv ha
  have hnv : x.pkt.isWrite = false → (s.copy src).blk.valid = false := fun hr =>
    Bool.eq_false_iff.mpr fun h => by simp [hv h] at hr
  have hd : x.pkt.isWholeLineWrite P.blkSize = false ∨ (s.copy src).blk.valid →
      ∀ bytes, Fresh P.blkSize s bytes → ∀ a < P.blkSize, c.data a = bytes a := fun hs bytes hf =>
    hi.fresh hf hcm ha (missCmd_hasRespData hx hv hs)
  have hri : x.pkt.isWrite → c.blk.isWritable := fun hw => by
    have hsh : rsp.hasSharers = false := by
      rw [ha.hasSharers, show (missPacket P.blkSize x (s.copy src)).isInvalidate from
        hin.trans hw, Bool.not_true, Bool.and_false]
    simp [isWritable, hi.valid, hi.writable, hsh]
  have hrd : x.pkt.isWrite = false → ∀ bytes, Fresh P.blkSize s bytes →
      Fresh P.blkSize (s'.setCopy src c) bytes := fun hr bytes hf => by
    have hp : x.pkt.isWholeLineWrite P.blkSize = false := by
      rcases missCmd_cases hx hv with ⟨-, hw, -⟩ | ⟨hp, -⟩ | ⟨hp, -⟩ | ⟨hp, -⟩
      · simp [hr] at hw
      all_goals exact hp
    have hke : (missPacket P.blkSize x (s.copy src)).isInvalidate = false := hin.trans hr
    exact hf.share hke (hnv hr) ha (hd (.inl hp) bytes hf)
  have hwr : x.pkt.isWrite → ∀ bytes, Fresh P.blkSize s bytes →
      FillsLine P.blkSize x (s.copy src) → ∀ a < P.blkSize,
        x.writeData (x.pkt.getOffset P.blkSize) c.data a =
          x.writeData (x.pkt.getOffset P.blkSize) bytes a := fun hw bytes hf hfl => by
    by_cases hs : x.pkt.isWholeLineWrite P.blkSize = false ∨ (s.copy src).blk.valid
    · exact writeData_congr (hd hs bytes hf)
    · simp only [not_or, Bool.not_eq_false, Bool.not_eq_true] at hs
      exact writeData_wholeLine hs.1 (hfl hs.1 hs.2) _ _
  obtain ⟨c', hsa, hpe⟩ := satisfy_performed hx (hc.fill ha hi fun h =>
    hnv (hin.symm.trans h)) hi.valid hri hrd hwr
  refine ⟨s'.setCopy src c', ?_, hpe⟩
  have hno : ¬(x.pkt.isEviction ∨ x.pkt.cmd = .writeClean) := by
    rcases hx.cmd with h | h | ⟨h, -⟩ <;> rw [isEviction, h] <;> decide
  have hpa : liftFault AtomicFault.cache (createMissPacket (P.cache src) x.pkt
      (if (s.copy src).blk.valid then some (s.copy src).blk else none) x.pkt.needsWritable
      (x.pkt.isWholeLineWrite P.blkSize)) =
        .ok (some (missPacket P.blkSize x (s.copy src)).toPacket) := by
    rw [createMissPacket_access (P.sameBlkSize src) (P.mostlyIncl src) (P.writable src) hx hm]
    rfl
  rw [handleAtomicReqMiss, if_neg hno]
  exact bind_eq_ok.mpr ⟨_, hpa, bind_eq_ok.mpr ⟨(s', rsp), hse, hrs c' hsa⟩⟩

/-- **Every access is performed.** -/
theorem accessAtomic_performed (src : Fin N) (stale : Nat → UInt8) (hx : CacheAccess P.blkSize addr x)
    (hc : Coherent P s) : ∃ s', accessAtomic P src x stale s = .ok s' ∧ Performed P src x s s' := by
  by_cases hh : ((s.copy src).blk.valid && (s.copy src).blk.serves x.pkt)
  · obtain ⟨hv, hse⟩ := Bool.and_eq_true_iff.mp hh
    obtain ⟨c', hsa, hpe⟩ := hit_performed hx hc hv hse
    refine ⟨s.setCopy src c', ?_, hpe⟩
    rw [accessAtomic, if_pos hh]
    exact bind_eq_ok.mpr ⟨c', hsa, rfl⟩
  · rw [accessAtomic, if_neg hh]
    refine miss_performed hx hc fun hv => ?_
    have hn : (s.copy src).blk.serves x.pkt = false := by simpa [hv] using hh
    have hne : x.pkt.needsWritable = x.pkt.isWrite := hx.missAttributes.2.2.2.2.2.1
    rw [serves, hne] at hn
    cases hw : x.pkt.isWrite with
    | true => exact ⟨rfl, by simpa [hw] using hn⟩
    | false => simp [hw, isReadable, hv, hc.readable src hv] at hn

theorem Access.SameWrite.performed {x' : Access} (h : x.SameWrite x')
    (hp : Performed P src x' s s') : Performed P src x s s' where
  coherent := hp.coherent
  valid := hp.valid
  fresh bytes hfr hfi := by
    have hap : x.applied P.blkSize bytes = x'.applied P.blkSize bytes := by
      rw [applied, applied, h.isWrite, h.place, h.writeData]
    rw [hap]
    refine hp.fresh bytes hfr fun hwh hnv => h.enabled (hfi ?_ hnv)
    rwa [h.wholeLine] at hwh

/-- **Every access of a CPU is performed**, and a read returns the bytes of the copy. -/
theorem recvAtomic_performed (src : Fin N) (stale : Nat → UInt8)
    (hx : CpuAccess P.blkSize addr secure x) (hco : Coherent P s) :
    ∃ s', recvAtomic P src x stale s =
        .ok (s', fun i => (s'.copy src).data (x.pkt.getOffset P.blkSize + i)) ∧
      Performed P src x s s' := by
  obtain ⟨hpr, hs⟩ := hx.promoted (P.sameBlkSize src)
  obtain ⟨s', hac, hpe⟩ := accessAtomic_performed src stale hpr hco
  have hno : ¬((x.promoted (P.cache src)).pkt.cacheResponding ∨
      (x.promoted (P.cache src)).pkt.req.isUncacheable ∨
      (x.promoted (P.cache src)).pkt.req.isCacheMaintenance) := by
    simp [hpr.flags, hpr.cacheable]
  refine ⟨s', (if_neg hno).trans (bind_eq_ok.mpr ⟨s', hac, ?_⟩), hs.performed hpe⟩
  rw [← hs.place]
  rfl

end Accesses

/-- **Every eviction is performed.** -/
theorem evictAtomic_performed (src : Fin N) {s : AtomicLine N} (hc : Coherent P s) :
    ∃ s', evictAtomic P src s = .ok s' ∧ Coherent P s' ∧
      ∀ bytes, Fresh P.blkSize s bytes → Fresh P.blkSize s' bytes := by
  cases hv : (s.copy src).blk.valid with
  | false =>
    refine ⟨s, ?_, hc, fun _ h => h⟩
    rw [evictAtomic, hv]
    rfl
  | true =>
    obtain ⟨s', hev, hcp, hme, htr⟩ := evictAtomic_spec hc hv
    exact ⟨s', hev, hc.evict hcp htr, fun _ h => h.evict hv hcp hme⟩

/-! ### Runs -/

section Runs

variable {addr : Nat} {secure : Bool} {s : AtomicRun N}

/-- The bytes of the block and of the reads are those of the most recent writes. -/
structure Recent (blkSize : Nat) (s : AtomicRun N) : Prop where
  fresh : Fresh blkSize s.line (recent blkSize s.initial s.writes)
  reads : ∀ r ∈ s.reads, ∀ j < r.access.pkt.size,
    r.returned j = recent blkSize s.initial r.before (r.access.pkt.getOffset blkSize + j)

/-- The condition on an operation: a write of a whole line to a cache without a copy enables all of
its bytes. -/
def KeepsBytes (P : AtomicParams N) (s : AtomicRun N) : AtomicOp N → Prop
  | .access src x _ => FillsLine P.blkSize x (s.line.copy src)
  | .evict _ => True

instance (P : AtomicParams N) (s : AtomicRun N) : ∀ op, Decidable (KeepsBytes P s op)
  | .access src x _ => inferInstanceAs (Decidable (FillsLine P.blkSize x (s.line.copy src)))
  | .evict _ => isTrue trivial

/-- **One operation.** -/
theorem step_spec (hc : Coherent P s.line) (op : AtomicOp N)
    (hpr : (atomicSystem P addr secure).pre s op) :
    ∃ s', AtomicRun.step P s op = .ok s' ∧ Coherent P s'.line ∧
      (Recent P.blkSize s → KeepsBytes P s op → Recent P.blkSize s') := by
  cases op with
  | evict src =>
    obtain ⟨line, hev, hc', hf⟩ := evictAtomic_performed src hc
    exact ⟨{ s with line := line }, bind_eq_ok.mpr ⟨line, hev, rfl⟩, hc',
      fun h _ => ⟨hf _ h.fresh, h.reads⟩⟩
  | access src x stale =>
    have hx : CpuAccess P.blkSize addr secure x := hpr
    obtain ⟨line, hr, hp⟩ := recvAtomic_performed src stale hx hc
    cases hw : x.pkt.isWrite with
    | true =>
      refine ⟨{ s with line := line, writes := x :: s.writes },
        bind_eq_ok.mpr ⟨_, hr, ?_⟩, hp.coherent, fun h hk => ⟨?_, h.reads⟩⟩
      · simp only [hw]
        rfl
      · have hf := hp.fresh _ h.fresh hk
        rwa [applied, hw] at hf
    | false =>
      refine ⟨{ s with
        line := line
        reads := ⟨x, fun i => (line.copy src).data (x.pkt.getOffset P.blkSize + i), s.writes⟩ ::
          s.reads }, bind_eq_ok.mpr ⟨_, hr, ?_⟩, hp.coherent, fun h hk => ?_⟩
      · simp only [hw]
        rfl
      · have hf := hp.fresh _ h.fresh hk
        rw [applied, hw] at hf
        refine ⟨hf, List.forall_mem_cons.mpr ⟨fun j hj => ?_, h.reads⟩⟩
        have hin : x.pkt.getOffset P.blkSize + j < P.blkSize :=
          (Nat.add_lt_add_left hj _).trans_le hx.inBlock.2
        exact hf.copies src hp.valid _ hin

theorem Coherent.of_invalid {line : AtomicLine N} (hn : ∀ i, (line.copy i).blk.valid = false)
    (hen : line.entry = none) : Coherent P line where
  oneOwner i j hi := by simp [dirty_of_invalid (hn i)] at hi
  exclusive i j hi := by simp [isWritable, hn i] at hi
  readable i hi := by simp [hn i] at hi
  tracked _ := ⟨fun i hi => by simp [hn i] at hi, by simp [hen], by simp [hen]⟩

theorem coherent_of_init (h : (atomicSystem P addr secure).init s) :
    Coherent P s.line ∧ Recent P.blkSize s := by
  obtain ⟨hnv, hen, hme, hwr, hre⟩ := h
  refine ⟨.of_invalid hnv hen, ⟨⟨fun i hi => ?_, fun _ a _ => ?_⟩, ?_⟩⟩
  · simp [hnv i] at hi
  · rw [hme, hwr]
    rfl
  · simp [hre]

theorem coherent_of_reachable (h : (atomicSystem P addr secure).Reachable s) :
    Coherent P s.line := by
  refine h.invariant (fun s => Coherent P s.line) (fun s hs => (coherent_of_init hs).1) ?_
  intro s op s' hc hpr hst
  obtain ⟨s'', hst', hc', -⟩ := step_spec hc op hpr
  obtain rfl := Except.ok.inj (hst'.symm.trans hst)
  exact hc'

theorem recent_of_reachable
    (h : ((atomicSystem P addr secure).restrict (KeepsBytes P)).Reachable s) :
    Recent P.blkSize s := by
  refine (h.invariant (fun s => Coherent P s.line ∧ Recent P.blkSize s) ?_ ?_).2
  · intro s hs
    have hin : (atomicSystem P addr secure).init s := hs
    exact coherent_of_init hin
  · rintro s op s' ⟨hc, hr⟩ ⟨hpr, hke⟩ hst
    obtain ⟨s'', hst', hc', hr'⟩ := step_spec hc op hpr
    obtain rfl := Except.ok.inj (hst'.symm.trans hst)
    exact ⟨hc', hr' hr hke⟩

/-- **Coherence in atomic mode.** In every run no assertion fails, at most one cache has the block
dirty and a writable copy is the only one. In every run in which the writes of whole lines to caches
without a copy enable all of their bytes, every read returns the bytes of the most recent writes. -/
theorem atomic_coherence (P : AtomicParams N) (addr : Nat) (secure : Bool) :
    (atomicSystem P addr secure).FaultFree ∧
      (∀ s, (atomicSystem P addr secure).Reachable s →
        (∀ i j, (s.line.copy i).blk.isDirty → (s.line.copy j).blk.isDirty → i = j) ∧
        ∀ i j, (s.line.copy i).blk.isWritable → (s.line.copy j).blk.valid → i = j) ∧
      ∀ s, ((atomicSystem P addr secure).restrict (KeepsBytes P)).Reachable s →
        ∀ r ∈ s.reads, ∀ j < r.access.pkt.size, r.returned j = recent P.blkSize s.initial r.before
            (r.access.pkt.getOffset P.blkSize + j) := by
  refine ⟨fun s op hs hpr => ?_, fun s hs => ?_, fun s hs => (recent_of_reachable hs).reads⟩
  · obtain ⟨s', hst, -⟩ := step_spec (coherent_of_reachable hs) op hpr
    exact ⟨s', hst⟩
  · exact ⟨(coherent_of_reachable hs).oneOwner, (coherent_of_reachable hs).exclusive⟩

def twoCaches : AtomicParams 2 where
  blkSize := 64
  cache _ := { numSets := 1, assoc := 1, blkSize := 64, numSets_pos := Nat.one_pos }
  writebackClean _ := false
  hasFilter := true
  xbar := { pointOfCoherency := true, pointOfUnification := true, respLayers := 2 }
  blkSize_pos := Nat.succ_pos _
  sameBlkSize _ := rfl
  mostlyIncl _ := rfl
  writable _ := rfl
  pointOfCoherency := rfl

def blockAccess (cmd : MemCmd) (offset size : Nat) (value : UInt8) (masked : Bool) : Access where
  contextId := 0
  pkt := {
    cmd := cmd
    addr := offset
    size := size
    req := { paddr := some offset, size := size, masked := masked } }
  payload := fun _ => value
  byteEnable := fun i => i ≠ 1

def coldBlock : AtomicRun 2 where
  line := ⟨fun _ => ⟨{}, fun _ => 0, []⟩, fun _ => 0, none⟩
  initial := fun _ => 0
  writes := []
  reads := []

/-- One cache writes a byte, the other reads it after writing its neighbour. -/
theorem atomic_coherence_two :
    ∃ s, ((atomicSystem twoCaches 0 false).restrict (KeepsBytes twoCaches)).Reachable s ∧
      s.reads.length = 1 ∧
      ∀ r ∈ s.reads, ∀ j < r.access.pkt.size, r.returned j =
        recent 64 s.initial r.before (r.access.pkt.getOffset 64 + j) := by
  exact System.Reachable.exists_and_of_leads
    [.access 0 (blockAccess .writeReq 1 1 9 false) fun _ => 0,
      .access 1 (blockAccess .writeReq 2 1 8 false) fun _ => 0,
      .access 0 (blockAccess .readReq 1 2 0 false) fun _ => 0]
    (.start (s := coldBlock) ⟨fun _ => rfl, rfl, rfl, rfl, rfl⟩) (by decide +kernel)
    (atomic_coherence twoCaches 0 false).2.2

/-- **A masked write of the size of a block loses the bytes that it does not enable.** One cache
writes a byte; the other then writes the whole line with that byte disabled and reads the byte. -/
theorem masked_write_loses_bytes :
    ∃ s, (atomicSystem twoCaches 0 false).Reachable s ∧
      ∃ r ∈ s.reads, ∃ j < r.access.pkt.size, r.returned j ≠
        recent 64 s.initial r.before (r.access.pkt.getOffset 64 + j) :=
  System.Reachable.exists_of_leads
    [.access 0 (blockAccess .writeReq 1 1 9 false) fun _ => 0,
      .access 1 (blockAccess .writeReq 0 64 1 true) fun _ => 0,
      .access 1 (blockAccess .readReq 1 1 0 false) fun _ => 0]
    (.start (s := coldBlock) ⟨fun _ => rfl, rfl, rfl, rfl, rfl⟩) (by decide +kernel)

theorem Fresh.flush {srcs : List (Fin N)} {line : AtomicLine N} {bytes : Nat → UInt8}
    (hc : Coherent P line) (hf : Fresh P.blkSize line bytes)
    (hin : ∀ i, (line.copy i).blk.valid → i ∈ srcs) :
    ∃ line', srcs.foldlM (fun line src => evictAtomic P src line) line = .ok line' ∧
      ∀ a < P.blkSize, line'.memory a = bytes a := by
  induction srcs generalizing line with
  | nil => exact ⟨line, rfl, hf.memory fun i => dirty_of_invalid (by simpa using hin i)⟩
  | cons src srcs ih =>
    obtain ⟨line', hev, hc', hfr⟩ := evictAtomic_performed src hc
    have hin' : ∀ i, (line'.copy i).blk.valid → i ∈ srcs := by
      intro i hi
      cases hv : (line.copy src).blk.valid with
      | false =>
        obtain rfl : line = line' := by simpa [evictAtomic, hv] using hev
        grind
      | true =>
        obtain ⟨line₁, hev₁, hcp, -⟩ := evictAtomic_spec hc hv
        obtain rfl := Except.ok.inj (hev₁.symm.trans hev)
        rcases eq_or_ne i src with rfl | he
        · simp [hcp, LockedBlk.invalidate, CacheBlk.invalidate] at hi
        · rw [hcp, update_of_ne he] at hi
          grind
    obtain ⟨line₂, hfo, hme⟩ := ih hc' (hfr _ hf) hin'
    exact ⟨line₂, bind_eq_ok.mpr ⟨line', hev, hfo⟩, hme⟩

/-- **No write is lost.** Every valid copy has the bytes of the most recent writes, and the memory
has them once the caches have evicted the block, in any order. -/
theorem atomic_writes_kept
    (h : ((atomicSystem P addr secure).restrict (KeepsBytes P)).Reachable s) :
    (∀ i, (s.line.copy i).blk.valid → ∀ a < P.blkSize,
      (s.line.copy i).data a = recent P.blkSize s.initial s.writes a) ∧
    ∀ srcs : List (Fin N), (∀ i, i ∈ srcs) →
      ∃ line, srcs.foldlM (fun line src => evictAtomic P src line) s.line = .ok line ∧
        ∀ a < P.blkSize, line.memory a = recent P.blkSize s.initial s.writes a := by
  have hf := (recent_of_reachable h).fresh
  exact ⟨hf.copies, fun srcs hal => hf.flush (coherent_of_reachable h.of_restrict) fun i _ => hal i⟩

theorem atomic_writes_kept_two :
    ∃ s, ((atomicSystem twoCaches 0 false).restrict (KeepsBytes twoCaches)).Reachable s ∧
      s.line.memory 1 = 0 ∧
      ∃ line, [1, 0].foldlM (fun line src => evictAtomic twoCaches src line) s.line = .ok line ∧
        ∀ a < 64, line.memory a = recent 64 s.initial s.writes a :=
  System.Reachable.exists_and_of_leads [.access 0 (blockAccess .writeReq 1 1 9 false) fun _ => 0]
    (.start (s := coldBlock) ⟨fun _ => rfl, rfl, rfl, rfl, rfl⟩) (by decide +kernel)
    fun _ hs => (atomic_writes_kept hs).2 _ (by decide)

end Runs

end Gem5.Mem
