import Gem5.Mem.Atomic.Line

/-!
# Gem5.Mem.Atomic.Bus

**What a request does on the bus.** A miss sends one of four requests to the crossbar: a shared read,
an exclusive read, an upgrade or an invalidation. Whatever the order of the snoops, and with or
without the filter, the other copies are downgraded or dropped, a dirty one supplies the data, and
otherwise the memory does (`CoherentXBar.recvAtomic_request`). An eviction leaves the other copies
alone (`CoherentXBar.recvAtomic_evict`).

Two facts about the block make this work: at most one copy is dirty, so at most one cache responds,
and the filter knows every valid copy, so the ports that it leaves out have nothing to do.
-/

namespace Gem5.Mem

open BusPacket Function List AtomicLine Bool CacheBlk SnoopItem Gem5.Lib Packet XbarParams CoherentXBar
open SnoopFilter (lookupRequest finishRequest updateSnoopResponse updateResponse)

variable {N : Nat} {P : AtomicParams N} {cmd : MemCmd} {pkt : BusPacket}

/-! ### Requests and evictions -/

def BusRequest (cmd : MemCmd) : Prop :=
  cmd = .readSharedReq ∨ cmd = .readExReq ∨ cmd = .upgradeReq ∨ cmd = .invalidateReq

theorem BusRequest.attributes (h : BusRequest cmd) :
    cmd.isRequest ∧ cmd.isResponse = false ∧ cmd.isClean = false ∧
      cmd.isEviction = false ∧ cmd ≠ .hardPFReq ∧ cmd ≠ .writeClean ∧ cmd.needsResponse ∧
      cmd.fromCache ∧
      (cmd.isInvalidate = false → cmd.isRead ∧ cmd.needsWritable = false) ∧
      cmd.responseCommand.isResponse ∧ cmd.responseCommand ≠ cmd ∧
      cmd.responseCommand.isEviction = false := by
  rcases h with rfl | rfl | rfl | rfl <;> decide

def snoopCopy (cmd : MemCmd) (c : LockedBlk) : LockedBlk :=
  if c.blk.valid then if cmd.isInvalidate then c.invalidate else c.downgrade else c

def BusPacket.passed (pkt : BusPacket) (cached : Bool) : BusPacket :=
  { pkt with hasSharers := pkt.hasSharers || (cached && !pkt.isInvalidate) }

/-- The packet to which a dirty copy has responded, with the command of the request. -/
def BusPacket.supplied (pkt : BusPacket) (c : LockedBlk) : BusPacket :=
  { pkt with
    hasSharers := pkt.hasSharers || !pkt.isInvalidate
    cacheResponding := true
    responderHadWritable := pkt.responderHadWritable || (pkt.isInvalidate && c.blk.isWritable)
    expressSnoop := false
    data := if pkt.cmd.hasRespData then c.data else pkt.data }

/-- The response of a dirty copy. -/
def BusPacket.answered (pkt : BusPacket) (c : LockedBlk) : BusPacket :=
  { pkt.supplied c with cmd := pkt.cmd.responseCommand }

theorem BusRequest.mustCheckAbove (h : BusRequest pkt.cmd) : pkt.mustCheckAbove = false := by
  obtain ⟨-, -, -, hev, hpf, -⟩ := h.attributes
  rw [Packet.mustCheckAbove, isEviction, hev, decide_eq_false hpf]
  rfl

variable {c : LockedBlk}

theorem respondIfDirty_clean (hcl : c.blk.isDirty = false) (pkt : BusPacket) :
    c.respondIfDirty pkt = .ok pkt := by
  rw [LockedBlk.respondIfDirty, hcl]
  rfl

theorem makeAtomicResponse_request (pkt : BusPacket) (hcm : BusRequest pkt.cmd) :
    pkt.makeAtomicResponse = .ok { pkt with cmd := pkt.cmd.responseCommand, expressSnoop := false } := by
  obtain ⟨hre, -, -, -, -, -, hrs, -⟩ := hcm.attributes
  simp [makeAtomicResponse, needsResponse, isRequest, hre, hrs]

theorem respondIfDirty_dirty (hdi : c.blk.isDirty) (hcm : BusRequest pkt.cmd)
    (hpa : pkt.isInvalidate ∨ pkt.hasSharers) :
    c.respondIfDirty pkt = .ok { pkt with
      cacheResponding := true
      responderHadWritable := pkt.responderHadWritable || c.blk.isWritable
      cmd := pkt.cmd.responseCommand
      expressSnoop := false
      data := if pkt.cmd.hasRespData then c.data else pkt.data } := by
  obtain ⟨-, -, -, -, -, -, hre, -⟩ := hcm.attributes
  have hke : (!pkt.isInvalidate && !pkt.hasSharers) = false := by
    rcases hpa with h | h <;> simp [h]
  rw [LockedBlk.respondIfDirty, hdi, show pkt.needsResponse from hre, hke,
    makeAtomicResponse_request]
  · change Except.ok (if pkt.cmd.hasRespData then _ else _) = _
    cases pkt.cmd.hasRespData <;> rfl
  · exact hcm

/-- **A snoop by a request**: an invalid copy is not concerned, a dirty one responds. -/
theorem handleSnoop_request (hc : BusRequest pkt.cmd) (hca : pkt.req.isUncacheable = false) :
    c.handleSnoop pkt = .ok (snoopCopy pkt.cmd c,
      if c.blk.isDirty then pkt.answered c else pkt.passed c.blk.valid) := by
  obtain ⟨hr, -, hcl, -, -, -, hres, -, hrd, -⟩ := hc.attributes
  replace hr : pkt.isRequest := hr
  replace hcl : pkt.isClean = false := hcl
  replace hrd : pkt.isInvalidate = false → pkt.isRead ∧ pkt.needsWritable = false := hrd
  unfold LockedBlk.handleSnoop
  simp only [hr, hcl, hc.mustCheckAbove, hca, Bool.not_true, Bool.and_false]
  cases hv : c.blk.valid with
  | false => simp [snoopCopy, passed, isDirty, hv]
  | true =>
    have hco : snoopCopy pkt.cmd c =
        if pkt.isInvalidate then c.invalidate else c.downgrade := if_pos hv
    rw [hco]
    cases hi : pkt.isInvalidate with
    | false =>
      simp only [hrd hi, Bool.not_true, false_eq_true, if_false, if_true]
      cases hd : c.blk.isDirty with
      | false =>
        rw [respondIfDirty_clean (c := c.downgrade) hd, passed, hi]
        simp [setHasSharers]
      | true =>
        have hrs := respondIfDirty_dirty (c := c.downgrade) hd
          (show BusRequest pkt.setHasSharers.cmd from hc) (.inr rfl)
        rw [hrs, answered, supplied, hi]
        simp [LockedBlk.downgrade, isWritable, setHasSharers]
        rfl
    | true =>
      cases hd : c.blk.isDirty with
      | false =>
        rw [respondIfDirty_clean hd, passed, hi]
        simp
      | true =>
        rw [respondIfDirty_dirty hd hc (.inl hi), answered, supplied, hi]
        simp

/-! ### Snooped ports -/

section Snoops

variable {src port : Fin N} {f : Forwarded N} {entry : Option (SnoopItem N)} {rest : List (Fin N)}
  {copy : Fin N → LockedBlk}

theorem snoopPort_clean (hn : port ≠ src) (hcm : BusRequest f.pkt.cmd)
    (hca : f.pkt.req.isUncacheable = false)
    (hcl : (f.line.copy port).blk.isDirty = false) :
    snoopPort P src f port = .ok { f with
      line := f.line.setCopy port (snoopCopy f.pkt.cmd (f.line.copy port))
      pkt := f.pkt.passed (f.line.copy port).blk.valid } := by
  have hre : (f.pkt.passed (f.line.copy port).blk.valid).isResponse = false := hcm.attributes.2.1
  rw [snoopPort, if_neg hn, handleSnoop_request hcm hca, hcl]
  change (if !(f.pkt.passed (f.line.copy port).blk.valid).isResponse then _ else _) = _
  rw [hre]
  rfl

def SnoopItem.requestedBy (item : SnoopItem N) (port : Fin N) : SnoopItem N :=
  { item with requested := update item.requested port true }

/-- What a snoop response makes of an entry: the line goes to the requestor, alone when the packet
invalidates. -/
def SnoopItem.granted (item : SnoopItem N) (port : Fin N) (exclusive : Bool) : SnoopItem N where
  requested := update item.requested port false
  holder := update (if exclusive then fun _ => false else item.holder) port true

theorem updateSnoopResponse_answered (src : Fin N) (c : LockedBlk) {item : SnoopItem N}
    (hcm : BusRequest pkt.cmd) (hca : pkt.req.isUncacheable = false)
    (hsh : pkt.isInvalidate → pkt.hasSharers = false) (hho : item.holder port = true) :
    updateSnoopResponse (some (item.requestedBy src)) (pkt.answered c).toXbarPacket port
      src = .ok (some (item.granted src pkt.isInvalidate)) := by
  obtain ⟨-, -, -, -, -, -, -, -, -, hre, -, hev⟩ := hcm.attributes
  have hsr : (pkt.answered c).hasSharers = !pkt.isInvalidate := by
    cases hin : pkt.isInvalidate <;> simp [answered, supplied, hin, hsh]
  have hwb : (pkt.answered c).isWriteback = false := by
    rw [isWriteback, MemCmd.isWriteback, show (pkt.answered c).cmd.isEviction = false from hev]
    rfl
  unfold updateSnoopResponse
  rw [show (pkt.answered c).isResponse from hre,
    show (pkt.answered c).cacheResponding from rfl,
    show (pkt.answered c).req.isUncacheable = false from hca, hwb, hsr]
  simp [hho, granted, requestedBy]

/-- The entry of the filter before and after a snoop response by a port. -/
def Granted (P : AtomicParams N) (src port : Fin N) (exclusive : Bool)
    (entry entry' : Option (SnoopItem N)) : Prop :=
  if P.hasFilter then ∃ item : SnoopItem N, item.holder port = true ∧
    entry = some (item.requestedBy src) ∧ entry' = some (item.granted src exclusive)
  else entry' = entry

/-- **The port of the dirty copy.** -/
theorem snoopPort_dirty (hn : port ≠ src) (hc : BusRequest f.pkt.cmd)
    (hca : f.pkt.req.isUncacheable = false)
    (hsh : f.pkt.isInvalidate → f.pkt.hasSharers = false)
    (hdi : (f.line.copy port).blk.isDirty) (hfs : f.snoopResponseCmd = none)
    (hen : Granted P src port f.pkt.isInvalidate f.line.entry entry) :
    snoopPort P src f port = .ok
      ⟨{ f.line.setCopy port (snoopCopy f.pkt.cmd (f.line.copy port)) with entry := entry },
        f.pkt.supplied (f.line.copy port), some f.pkt.cmd.responseCommand⟩ := by
  obtain ⟨-, -, -, -, -, -, -, -, -, hre, hc', -⟩ := hc.attributes
  have hok : ¬((f.pkt.answered (f.line.copy port)).cmd = f.pkt.cmd ∨
      (!(f.pkt.answered (f.line.copy port)).cacheResponding) ∨
      f.snoopResponseCmd.isSome) := by
    simp [answered, supplied, hc', hfs]
  rw [snoopPort, if_neg hn, handleSnoop_request hc hca, hdi, if_pos rfl]
  change (if !(f.pkt.answered (f.line.copy port)).isResponse then _ else _) = _
  rw [show (f.pkt.answered (f.line.copy port)).isResponse from hre]
  rw [Bool.not_true, if_neg hok]
  cases hfl : P.hasFilter with
  | false =>
    obtain rfl : entry = f.line.entry := by simpa [Granted, hfl] using hen
    rfl
  | true =>
    obtain ⟨item, hho, hbe, rfl⟩ : ∃ item : SnoopItem N, item.holder port = true ∧
        f.line.entry = some (item.requestedBy src) ∧
        entry = some (item.granted src f.pkt.isInvalidate) := by
      simpa [Granted, hfl] using hen
    have hup := updateSnoopResponse_answered src (f.line.copy port) hc hca hsh hho
    change (liftFault .filter (updateSnoopResponse f.line.entry _ _ _) >>= _) = _
    rw [hbe, hup]
    rfl

/-! ### All snooped ports -/

def snoopedCopies (dests : List (Fin N)) (cmd : MemCmd) (copy : Fin N → LockedBlk) :
    Fin N → LockedBlk :=
  fun j => if j ∈ dests then snoopCopy cmd (copy j) else copy j

def anyCached (dests : List (Fin N)) (copy : Fin N → LockedBlk) : Bool :=
  dests.any fun j => (copy j).blk.valid

theorem snoopedCopies_cons {cmd : MemCmd} (hpo : port ∉ rest) :
    snoopedCopies rest cmd (update copy port (snoopCopy cmd (copy port))) =
      snoopedCopies (port :: rest) cmd copy := by
  funext j
  by_cases hj : j = port
  · subst hj
    simp [snoopedCopies, hpo]
  · simp [snoopedCopies, hj]

theorem anyCached_update (hpo : port ∉ rest) :
    anyCached rest (update copy port c) = anyCached rest copy := by
  rw [anyCached, anyCached, Bool.eq_iff_iff, any_eq_true, any_eq_true]
  refine exists_congr fun j => and_congr_right fun hj => ?_
  rw [update_of_ne (ne_of_mem_of_not_mem hj hpo)]

variable (pkt : BusPacket) (cached : Bool)

theorem BusPacket.passed_false : pkt.passed false = pkt := by
  simp [passed]

theorem BusPacket.passed_passed (a b : Bool) : (pkt.passed a).passed b = pkt.passed (a || b) := by
  cases a <;> cases b <;> simp [passed, isInvalidate]

theorem BusPacket.supplied_passed (c : LockedBlk) :
    (pkt.passed cached).supplied c = pkt.supplied c := by
  cases cached <;> cases h : pkt.cmd.isInvalidate <;> simp [passed, supplied, isInvalidate]

theorem BusPacket.passed_supplied (c : LockedBlk) :
    (pkt.supplied c).passed cached = pkt.supplied c := by
  cases cached <;> cases h : pkt.cmd.isInvalidate <;> simp [passed, supplied, isInvalidate]

theorem foldlM_snoopPort_clean {dests : List (Fin N)} (hnd : dests.Nodup) (hsr : src ∉ dests)
    (hcm : BusRequest f.pkt.cmd) (hc : f.pkt.req.isUncacheable = false)
    (hcl : ∀ j ∈ dests, (f.line.copy j).blk.isDirty = false) :
    dests.foldlM (snoopPort P src) f = .ok
      ⟨⟨snoopedCopies dests f.pkt.cmd f.line.copy, f.line.memory, f.line.entry⟩,
        f.pkt.passed (anyCached dests f.line.copy), f.snoopResponseCmd⟩ := by
  induction dests generalizing f with
  | nil =>
    rw [show anyCached [] f.line.copy = false from rfl, passed_false]
    rfl
  | cons port rest ih =>
    obtain ⟨hp, hnd⟩ := nodup_cons.mp hnd
    obtain ⟨hn, hsr⟩ := not_or.mp (mem_cons.not.mp hsr)
    have hr : ∀ j ∈ rest, ((f.line.setCopy port
        (snoopCopy f.pkt.cmd (f.line.copy port))).copy j).blk.isDirty = false := by
      intro j hj
      rw [setCopy_of_ne _ _ (ne_of_mem_of_not_mem hj hp)]
      exact hcl j (by simp [hj])
    rw [foldlM_cons, snoopPort_clean (Ne.symm hn) hcm hc (hcl port (by simp))]
    refine (ih (f := ⟨f.line.setCopy port (snoopCopy f.pkt.cmd (f.line.copy port)),
      f.pkt.passed (f.line.copy port).blk.valid, f.snoopResponseCmd⟩) hnd hsr hcm hc
      hr).trans ?_
    rw [passed_passed, setCopy, anyCached_update hp]
    congr 3
    exact snoopedCopies_cons hp

/-- **One dirty copy among the ports**: it supplies the data wherever it stands. -/
theorem foldlM_snoopPort_dirty {before after : List (Fin N)} {owner : Fin N}
    (hn : (before ++ owner :: after).Nodup) (hs : src ∉ before ++ owner :: after)
    (hc : BusRequest f.pkt.cmd) (ha : f.pkt.req.isUncacheable = false)
    (hsh : f.pkt.isInvalidate → f.pkt.hasSharers = false)
    (hfs : f.snoopResponseCmd = none) (hd : (f.line.copy owner).blk.isDirty)
    (hcl : ∀ j ∈ before ++ after, (f.line.copy j).blk.isDirty = false)
    (hen : Granted P src owner f.pkt.isInvalidate f.line.entry entry) :
    (before ++ owner :: after).foldlM (snoopPort P src) f = .ok
      ⟨⟨snoopedCopies (before ++ owner :: after) f.pkt.cmd f.line.copy, f.line.memory, entry⟩,
        f.pkt.supplied (f.line.copy owner), some f.pkt.cmd.responseCommand⟩ := by
  induction before generalizing f with
  | nil =>
    obtain ⟨ho, hn⟩ := nodup_cons.mp hn
    obtain ⟨he, hs⟩ := not_or.mp (mem_cons.not.mp hs)
    rw [nil_append, foldlM_cons, snoopPort_dirty (Ne.symm he) hc ha hsh hd hfs hen]
    refine (foldlM_snoopPort_clean (f := ⟨⟨(f.line.setCopy owner (snoopCopy f.pkt.cmd
      (f.line.copy owner))).copy, f.line.memory, entry⟩, f.pkt.supplied (f.line.copy owner),
      some f.pkt.cmd.responseCommand⟩) hn hs hc ha fun j hj => ?_).trans ?_
    · rw [setCopy_of_ne _ _ (ne_of_mem_of_not_mem hj ho)]
      exact hcl j hj
    · rw [passed_supplied]
      congr 3
      exact snoopedCopies_cons ho
  | cons port rest ih =>
    obtain ⟨hp, hn⟩ := nodup_cons.mp hn
    obtain ⟨he, hs⟩ := not_or.mp (mem_cons.not.mp hs)
    have ho : owner ≠ port := fun h => hp (by simp [h])
    have hco : (f.line.setCopy port (snoopCopy f.pkt.cmd (f.line.copy port))).copy owner =
        f.line.copy owner := setCopy_of_ne _ _ ho
    rw [cons_append, foldlM_cons, snoopPort_clean (Ne.symm he) hc ha (hcl port (by simp))]
    refine (ih (f := ⟨f.line.setCopy port (snoopCopy f.pkt.cmd (f.line.copy port)),
      f.pkt.passed (f.line.copy port).blk.valid, f.snoopResponseCmd⟩) hn hs hc ha
      ?_ hfs (hco ▸ hd) ?_ hen).trans ?_
    · intro hi
      have hi : f.pkt.isInvalidate := hi
      simp [passed, hi, hsh hi]
    · intro j hj
      have he : j ≠ port := by
        rintro rfl
        exact hp ((mem_append.mp hj).elim (by simp +contextual) (by simp +contextual))
      rw [setCopy_of_ne _ _ he]
      exact hcl j (mem_cons_of_mem _ hj)
    · rw [supplied_passed]
      congr 3
      exact snoopedCopies_cons hp

theorem foldlM_snoopPort_src (dests : List (Fin N)) :
    dests.foldlM (snoopPort P src) f = (dests.filter (· ≠ src)).foldlM (snoopPort P src) f := by
  rw [foldlM_filter]
  congr 1
  funext f port
  by_cases hpo : port = src <;> simp [snoopPort, hpo]

end Snoops

/-! ### The snoops of a request -/

/-- The entry of the filter knows the valid copies, no request is on its way, and there is no entry
without a port. -/
structure Tracks (entry : Option (SnoopItem N)) (copy : Fin N → LockedBlk) : Prop where
  holder : ∀ i, (copy i).blk.valid → ∃ item, entry = some item ∧ item.holder i = true
  idle : ∀ item, entry = some item → ∀ i, item.requested i = false
  used : ∀ item, entry = some item → item.isNull = false

/-- **Coherence**: a dirty copy has no rival, a writable copy is the only one, and the filter knows
the copies. -/
structure Coherent (P : AtomicParams N) (s : AtomicLine N) : Prop where
  oneOwner : ∀ i j, (s.copy i).blk.isDirty → (s.copy j).blk.isDirty → i = j
  exclusive : ∀ i j, (s.copy i).blk.isWritable → (s.copy j).blk.valid → i = j
  readable : ∀ i, (s.copy i).blk.valid → (s.copy i).blk.readable
  tracked : P.hasFilter → Tracks s.entry s.copy

structure FreshRequest (pkt : BusPacket) : Prop where
  cmd : BusRequest pkt.cmd
  cacheable : pkt.req.isUncacheable = false
  notMaintenance : pkt.req.isCacheMaintenance = false
  hasSharers : pkt.hasSharers = false
  cacheResponding : pkt.cacheResponding = false

def others (src : Fin N) : List (Fin N) := (List.finRange N).filter (· ≠ src)

/-- The ports include those of the valid copies elsewhere. -/
structure Covers (src : Fin N) (dests : List (Fin N)) (copy : Fin N → LockedBlk) : Prop where
  nodup : dests.Nodup
  notSrc : src ∉ dests
  valid : ∀ j ≠ src, (copy j).blk.valid → j ∈ dests

section Request

variable {src : Fin N} {dests : List (Fin N)} {copy : Fin N → LockedBlk} {s : AtomicLine N}
  {pkt : BusPacket} {b : CacheBlk}

theorem mem_others {j : Fin N} : j ∈ others src ↔ j ≠ src := by simp [others]

theorem Covers.snoopedCopies (h : Covers src dests copy) (cmd : MemCmd) :
    snoopedCopies dests cmd copy = snoopedCopies (others src) cmd copy := by
  funext j
  by_cases hj : j = src
  · subst hj
    simp [Mem.snoopedCopies, h.notSrc, mem_others]
  · cases hv : (copy j).blk.valid with
    | true => simp [Mem.snoopedCopies, h.valid j hj hv, mem_others, hj]
    | false => simp [Mem.snoopedCopies, snoopCopy, hv]

theorem Covers.anyCached (h : Covers src dests copy) :
    anyCached dests copy = anyCached (others src) copy := by
  rw [Mem.anyCached, Mem.anyCached, Bool.eq_iff_iff, any_eq_true, any_eq_true]
  constructor
  · rintro ⟨j, hj, hv⟩
    exact ⟨j, mem_others.mpr (ne_of_mem_of_not_mem hj h.notSrc), hv⟩
  · rintro ⟨j, hj, hv⟩
    exact ⟨j, h.valid j (mem_others.mp hj) hv, hv⟩

theorem CacheBlk.valid_of_isDirty (h : b.isDirty) : b.valid :=
  (and_eq_true_iff.mp h).1

theorem CacheBlk.valid_of_isWritable (h : b.isWritable) : b.valid :=
  (and_eq_true_iff.mp h).1

theorem forwardAtomic_clean (hpk : FreshRequest pkt)
    (hc : Covers src (dests.filter (· ≠ src)) s.copy)
    (hcl : ∀ j ≠ src, (s.copy j).blk.isDirty = false) :
    forwardAtomic P src dests s pkt = .ok
      ⟨⟨snoopedCopies (others src) pkt.cmd s.copy, s.memory, s.entry⟩,
        pkt.passed (anyCached (others src) s.copy), none⟩ := by
  rw [forwardAtomic, foldlM_snoopPort_src, ← hc.snoopedCopies, ← hc.anyCached]
  exact foldlM_snoopPort_clean hc.nodup hc.notSrc hpk.cmd hpk.cacheable fun j hj =>
    hcl j (ne_of_mem_of_not_mem hj hc.notSrc)

variable {owner : Fin N}

theorem forwardAtomic_dirty (hpk : FreshRequest pkt)
    (hc : Covers src (dests.filter (· ≠ src)) s.copy) (hn : owner ≠ src)
    (hd : (s.copy owner).blk.isDirty)
    (hcl : ∀ j ≠ owner, (s.copy j).blk.isDirty = false) {entry : Option (SnoopItem N)}
    (hen : Granted P src owner pkt.isInvalidate s.entry entry) :
    forwardAtomic P src dests s pkt = .ok
      ⟨⟨snoopedCopies (others src) pkt.cmd s.copy, s.memory, entry⟩,
        pkt.supplied (s.copy owner), some pkt.cmd.responseCommand⟩ := by
  obtain ⟨before, after, hsp⟩ := append_of_mem (hc.valid owner hn (valid_of_isDirty hd))
  have hnd : (before ++ owner :: after).Nodup := hsp ▸ hc.nodup
  have how : owner ∉ before ++ after := (nodup_middle.mp hnd |> nodup_cons.mp).1
  rw [forwardAtomic, foldlM_snoopPort_src, ← hc.snoopedCopies, hsp]
  exact foldlM_snoopPort_dirty hnd (hsp ▸ hc.notSrc) hpk.cmd hpk.cacheable
    (fun _ => hpk.hasSharers) rfl hd (fun j hj => hcl j (ne_of_mem_of_not_mem hj how))
    hen

/-- The entry that a request finds. -/
def AtomicLine.item (s : AtomicLine N) : SnoopItem N := s.entry.getD {}

theorem Tracks.item_idle (h : Tracks s.entry s.copy) (i : Fin N) : s.item.requested i = false := by
  cases hen : s.entry with
  | none => simp [item, hen]
  | some item => simpa [AtomicLine.item, hen] using h.idle item hen i

theorem Tracks.item_holder (h : Tracks s.entry s.copy) {i : Fin N}
    (hva : (s.copy i).blk.valid) : s.item.holder i = true := by
  obtain ⟨item, hen, hho⟩ := h.holder i hva
  simpa [AtomicLine.item, hen] using hho

def SnoopItem.selected (item : SnoopItem N) (src : Fin N) : List (Fin N) :=
  (List.finRange N).filter fun p => item.interested p && p ≠ src

theorem lookupRequest_request (hpk : FreshRequest pkt) (htr : Tracks s.entry s.copy) :
    lookupRequest s.entry pkt.toXbarPacket src =
      .ok (some (s.item.requestedBy src), s.item.selected src) := by
  obtain ⟨-, -, -, -, -, -, hre, hfr, -⟩ := hpk.cmd.attributes
  unfold lookupRequest
  simp only [hpk.cacheable, hpk.cacheResponding, show pkt.fromCache from hfr,
    show pkt.needsResponse from hre]
  have hid : (s.entry.getD {}).requested src = false := htr.item_idle src
  simp [hid, item, requestedBy, selected]

theorem SnoopItem.isNull_eq_false {item : SnoopItem N} (port : Fin N)
    (h : item.interested port = true) : item.isNull = false := by
  rw [isNull, all_eq_false]
  exact ⟨port, mem_finRange port, by simp [h]⟩

theorem finishRequest_requestedBy (item : SnoopItem N) :
    finishRequest (some (item.requestedBy src)) = some (item.requestedBy src) := by
  have hnu : (item.requestedBy src).isNull = false :=
    isNull_eq_false src (by simp [interested, requestedBy])
  simp [finishRequest, eraseIfNullEntry, hnu]

/-- **The filter selects every cache with a valid copy.** -/
theorem Tracks.covers (src : Fin N) (h : Tracks s.entry s.copy) :
    Covers src ((s.item.selected src).filter (· ≠ src)) s.copy where
  nodup := ((nodup_finRange N).filter _).filter _
  notSrc := by simp
  valid j hj hva := by simp [selected, interested, h.item_holder hva, hj]

theorem covers_finRange : Covers src ((List.finRange N).filter (· ≠ src)) copy where
  nodup := (nodup_finRange N).filter _
  notSrc := by simp
  valid j hj _ := by simp [hj]

/-- The entry while a request is on its way. -/
def AtomicLine.lookedUp (P : AtomicParams N) (s : AtomicLine N) (src : Fin N) :
    Option (SnoopItem N) :=
  if P.hasFilter then some (s.item.requestedBy src) else s.entry

theorem snoopCaches_request (src : Fin N) (hpk : FreshRequest pkt) (hco : Coherent P s) :
    ∃ dests, Covers src (dests.filter (· ≠ src)) s.copy ∧
      snoopCaches P src s pkt = forwardAtomic P src dests { s with entry := s.lookedUp P src } pkt := by
  obtain ⟨-, -, -, hev, -, hcl, -⟩ := hpk.cmd.attributes
  rw [snoopCaches, if_neg hcl]
  cases hfl : P.hasFilter with
  | false => exact ⟨_, covers_finRange, by simp [lookedUp, hfl]⟩
  | true =>
    have htr := hco.tracked hfl
    refine ⟨s.item.selected src, htr.covers src, ?_⟩
    rw [lookupRequest_request hpk htr, lookedUp, if_pos hfl]
    change (if pkt.isEviction then _ else forwardAtomic P src _ _ pkt) = _
    rw [if_neg (by simp [isEviction, hev]), finishRequest_requestedBy]

/-! ### The answer to a request -/

/-- **The answer of the bus to a request.** -/
structure Answered (P : AtomicParams N) (src : Fin N) (s : AtomicLine N) (pkt : BusPacket)
    (s' : AtomicLine N) (rsp : BusPacket) : Prop where
  copies : s'.copy = snoopedCopies (others src) pkt.cmd s.copy
  memory : s'.memory = s.memory
  cmd : rsp.cmd = pkt.cmd.responseCommand
  addr : rsp.addr = pkt.addr ∧ rsp.secure = pkt.secure
  hasSharers : rsp.hasSharers = (anyCached (others src) s.copy && !pkt.isInvalidate)
  owner : ∀ i ≠ src, (s.copy i).blk.isDirty →
    rsp.cacheResponding ∧ (pkt.hasRespData → rsp.data = (s.copy i).data)
  noOwner : (∀ i ≠ src, (s.copy i).blk.isDirty = false) →
    rsp.cacheResponding = false ∧ (pkt.hasRespData → rsp.data = s.memory)
  tracked : P.hasFilter → ∃ exclusive, (exclusive = true → pkt.isInvalidate) ∧
    s'.entry = some (s.item.granted src exclusive)

def BusPacket.fromBelow (pkt : BusPacket) (memory : Nat → UInt8) : BusPacket :=
  { pkt with
    cmd := pkt.cmd.responseCommand
    expressSnoop := false
    data := if pkt.cmd.hasRespData then memory else pkt.data }

theorem BusRequest.below {cmd : MemCmd} (h : BusRequest cmd) :
    cmd ≠ .cleanEvict ∧ cmd ≠ .writebackClean ∧ cmd.isWrite = false ∧
      cmd.isRead = cmd.hasRespData ∧ cmd.responseCommand.isRead = cmd.hasRespData := by
  rcases h with rfl | rfl | rfl | rfl <;> decide

theorem sinkPacket_request (hcm : BusRequest pkt.cmd) (hre : pkt.cacheResponding = false) :
    P.xbar.sinkPacket pkt.toXbarPacket = false := by
  obtain ⟨-, -, -, -, -, -, hrs, -⟩ := hcm.attributes
  obtain ⟨hc, hwb, -⟩ := hcm.below
  simp [sinkPacket, hre, needsResponse, isCleanEviction, hrs, hc, hwb]

theorem sendBelow_request (pkt : BusPacket) (hc : BusRequest pkt.cmd)
    (hr : pkt.cacheResponding = false) (memory : Nat → UInt8) :
    sendBelow P memory pkt = .ok (memory, pkt.fromBelow memory) := by
  obtain ⟨-, -, hcl, -⟩ := hc.attributes
  obtain ⟨hce, hwb, hwr, hrd, -⟩ := hc.below
  have hfo : P.xbar.forwardPacket pkt.toXbarPacket = pkt.cmd.hasRespData := by
    simp [forwardPacket, isClean, isRead, isWrite, hcl, hwr, hrd, P.pointOfCoherency]
  rw [sendBelow, sinkPacket_request hc hr, hfo]
  cases hd : pkt.cmd.hasRespData with
  | false =>
    rw [makeAtomicResponse_request pkt hc, fromBelow, hd]
    rfl
  | true =>
    have hac : ¬(pkt.cacheResponding ∨ pkt.cmd = .cleanEvict ∨ pkt.cmd = .writebackClean) := by
      simp [hr, hce, hwb]
    rw [memoryAccess, if_neg hac, isRead, hrd, hd, if_pos rfl,
      makeAtomicResponse_request { pkt with data := memory } hc, fromBelow, hd]
    rfl

theorem updateResponse_request {item : SnoopItem N} (hre : pkt.isResponse)
    (hca : pkt.req.isUncacheable = false) (hno : pkt.req.isCacheMaintenance = false) :
    updateResponse (some (item.requestedBy src)) pkt.toXbarPacket src =
      .ok (some (item.granted src false)) := by
  simp [updateResponse, hre, hca, hno, requestedBy, granted]

theorem Coherent.granted (hco : Coherent P s) (src : Fin N) (exclusive : Bool)
    (hva : (s.copy owner).blk.valid) :
    ∃ entry, Granted P src owner exclusive (s.lookedUp P src) entry ∧
      (P.hasFilter → entry = some (s.item.granted src exclusive)) := by
  cases hf : P.hasFilter with
  | false => exact ⟨s.lookedUp P src, by simp [Granted, hf], by simp⟩
  | true =>
    have hho := (hco.tracked hf).item_holder hva
    refine ⟨some (s.item.granted src exclusive), ?_, fun _ => rfl⟩
    rw [Granted, if_pos hf, lookedUp, if_pos hf]
    exact ⟨s.item, hho, rfl, rfl⟩

theorem CoherentXBar.recvAtomic_owned (hp : FreshRequest pkt) (hc : Coherent P s)
    (hn : owner ≠ src) (hd : (s.copy owner).blk.isDirty) :
    ∃ s' rsp, recvAtomic P src s pkt = .ok (s', rsp) ∧ Answered P src s pkt s' rsp := by
  have hri : ∀ j ≠ owner, (s.copy j).blk.isDirty = false := fun j hj =>
    eq_false_iff.mpr fun h => hj (hc.oneOwner j owner h hd)
  obtain ⟨entry, hen, htr⟩ := hc.granted src pkt.isInvalidate (valid_of_isDirty hd)
  obtain ⟨dests, hco, hsn⟩ := snoopCaches_request src hp hc
  rw [forwardAtomic_dirty (s := { s with entry := s.lookedUp P src }) hp hco hn hd hri hen] at hsn
  have hr : (pkt.supplied (s.copy owner)).isResponse = false := hp.cmd.attributes.2.1
  have hbe : sendBelow P s.memory (pkt.supplied (s.copy owner)) =
      .ok (s.memory, pkt.supplied (s.copy owner)) :=
    if_pos (by simp [sinkPacket, P.pointOfCoherency, supplied])
  have hte : tellFilter P src entry (pkt.supplied (s.copy owner)) = .ok entry :=
    if_neg (by simp [hr])
  have han : anyCached (others src) s.copy :=
    any_eq_true.mpr ⟨owner, mem_others.mpr hn, valid_of_isDirty hd⟩
  refine ⟨⟨snoopedCopies (others src) pkt.cmd s.copy, s.memory, entry⟩,
    pkt.answered (s.copy owner), ?_, ?_⟩
  · refine bind_eq_ok.mpr ⟨_, hsn, bind_eq_ok.mpr ⟨_, hbe, bind_eq_ok.mpr ⟨_, hte, ?_⟩⟩⟩
    exact if_neg (by simp [hr])
  · exact
    { copies := rfl
      memory := rfl
      cmd := rfl
      addr := ⟨rfl, rfl⟩
      hasSharers := by simp [answered, supplied, hp.hasSharers, han]
      owner := fun i _ hi => by
        obtain rfl := hc.oneOwner i owner hi hd
        exact ⟨rfl, fun hda => if_pos hda⟩
      noOwner := fun hno => by simp [hno owner hn] at hd
      tracked := fun hfl => ⟨pkt.isInvalidate, id, htr hfl⟩ }

theorem CoherentXBar.recvAtomic_unowned (hp : FreshRequest pkt) (hco : Coherent P s)
    (hcl : ∀ j ≠ src, (s.copy j).blk.isDirty = false) :
    ∃ s' rsp, recvAtomic P src s pkt = .ok (s', rsp) ∧ Answered P src s pkt s' rsp := by
  obtain ⟨dests, hcv, hsn⟩ := snoopCaches_request src hp hco
  rw [forwardAtomic_clean (s := { s with entry := s.lookedUp P src }) hp hcv hcl] at hsn
  have hr : ((pkt.passed (anyCached (others src) s.copy)).fromBelow s.memory).isResponse := by
    obtain ⟨-, -, -, -, -, -, -, -, -, hr, -⟩ := hp.cmd.attributes
    exact hr
  obtain ⟨entry, hte, htr⟩ : ∃ entry, tellFilter P src (s.lookedUp P src)
        ((pkt.passed (anyCached (others src) s.copy)).fromBelow s.memory) = .ok entry ∧
      (P.hasFilter → entry = some (s.item.granted src false)) := by
    cases hf : P.hasFilter with
    | false => exact ⟨s.lookedUp P src, if_neg (by simp [hf]), by simp⟩
    | true =>
      refine ⟨some (s.item.granted src false), ?_, fun _ => rfl⟩
      rw [tellFilter, hr, hf, lookedUp, if_pos hf,
        updateResponse_request hr hp.cacheable hp.notMaintenance]
      rfl
  have hbe := sendBelow_request (P := P) (pkt.passed (anyCached (others src) s.copy))
    hp.cmd hp.cacheResponding s.memory
  refine ⟨⟨snoopedCopies (others src) pkt.cmd s.copy, s.memory, entry⟩,
    (pkt.passed (anyCached (others src) s.copy)).fromBelow s.memory, ?_, ?_⟩
  · refine bind_eq_ok.mpr ⟨_, hsn, bind_eq_ok.mpr ⟨_, hbe, bind_eq_ok.mpr ⟨_, hte, ?_⟩⟩⟩
    rfl
  · exact
    { copies := rfl
      memory := rfl
      cmd := rfl
      addr := ⟨rfl, rfl⟩
      hasSharers := by simp [fromBelow, passed, hp.hasSharers]
      owner := fun i hi hdi => by simp [hcl i hi] at hdi
      noOwner := fun _ => ⟨hp.cacheResponding, fun hda => if_pos hda⟩
      tracked := fun hf => ⟨false, by simp, htr hf⟩ }

/-- **Every request on the bus is answered.** -/
theorem CoherentXBar.recvAtomic_request (src : Fin N) (hpk : FreshRequest pkt) (hc : Coherent P s) :
    ∃ s' rsp, recvAtomic P src s pkt = .ok (s', rsp) ∧ Answered P src s pkt s' rsp := by
  by_cases how : ∃ owner ≠ src, (s.copy owner).blk.isDirty
  · obtain ⟨owner, hn, hdi⟩ := how
    exact recvAtomic_owned hpk hc hn hdi
  · refine recvAtomic_unowned hpk hc fun j hj => eq_false_iff.mpr fun h => how ⟨j, hj, h⟩

end Request

/-! ### Evictions -/

def BusEviction (cmd : MemCmd) : Prop :=
  cmd = .writebackDirty ∨ cmd = .writebackClean ∨ cmd = .cleanEvict

theorem BusEviction.attributes (h : BusEviction cmd) :
    cmd.isRequest ∧ cmd.isResponse = false ∧ cmd.isClean = false ∧
      cmd.isInvalidate = false ∧ cmd.isEviction ∧ cmd ≠ .writeClean ∧
      cmd.needsResponse = false ∧ cmd.fromCache ∧ cmd.isRead = false := by
  rcases h with rfl | rfl | rfl <;> decide

section Evictions

variable {src port : Fin N} {s : AtomicLine N} {f : Forwarded N} {pkt : BusPacket}
  {item : SnoopItem N}

theorem handleSnoop_eviction (hcm : BusEviction pkt.cmd) (c : LockedBlk) :
    c.handleSnoop pkt = .ok (c, if c.blk.valid then pkt.setBlockCached else pkt) := by
  obtain ⟨hre, -, hcl, hin, hev, -⟩ := hcm.attributes
  have hab : pkt.mustCheckAbove := by simp [mustCheckAbove, isEviction, hev]
  unfold LockedBlk.handleSnoop
  cases hval : c.blk.valid <;> simp [isRequest, isClean, isInvalidate, hre, hcl, hin, hab]

theorem snoopPort_eviction (src port : Fin N) (hcm : BusEviction f.pkt.cmd) :
    ∃ cached, snoopPort P src f port = .ok { f with pkt := { f.pkt with blockCached := cached } } := by
  by_cases hp : port = src
  · exact ⟨f.pkt.blockCached, if_pos hp⟩
  · have hre : ∀ cached, ({ f.pkt with blockCached := cached } : BusPacket).isResponse = false :=
      fun _ => hcm.attributes.2.1
    refine ⟨f.pkt.blockCached || (f.line.copy port).blk.valid, ?_⟩
    have hpk : (if (f.line.copy port).blk.valid then f.pkt.setBlockCached else f.pkt) =
        { f.pkt with blockCached := f.pkt.blockCached || (f.line.copy port).blk.valid } := by
      cases (f.line.copy port).blk.valid <;> simp [setBlockCached]
    rw [snoopPort, if_neg hp, handleSnoop_eviction hcm, hpk]
    refine (if_pos (by simp [hre])).trans ?_
    rw [setCopy_eq_self]
    rfl

theorem foldlM_snoopPort_eviction (src : Fin N) (hcm : BusEviction f.pkt.cmd) (dests : List (Fin N)) :
    ∃ cached, dests.foldlM (snoopPort P src) f =
      .ok { f with pkt := { f.pkt with blockCached := cached } } := by
  induction dests generalizing f with
  | nil => exact ⟨f.pkt.blockCached, rfl⟩
  | cons port rest ih =>
    obtain ⟨cached, hpo⟩ := snoopPort_eviction (P := P) src port hcm
    rw [foldlM_cons, hpo]
    exact ih hcm

def SnoopItem.released (item : SnoopItem N) (port : Fin N) : SnoopItem N :=
  { item with holder := update item.holder port false }

theorem lookupRequest_eviction (hcm : BusEviction pkt.cmd)
    (hca : pkt.req.isUncacheable = false) (hcc : pkt.blockCached = false)
    (hho : item.holder src = true) :
    lookupRequest (some item) pkt.toXbarPacket src =
      .ok (some (item.released src), item.selected src) := by
  obtain ⟨-, -, -, -, hev, -, hre, hfr, -⟩ := hcm.attributes
  simp [lookupRequest, fromCache, needsResponse, isEviction, hev,
    hre, hfr, hca, hcc, hho, released, selected]

theorem snoopCaches_eviction (hcm : BusEviction pkt.cmd)
    (hcc : pkt.req.isUncacheable = false) (hc : pkt.blockCached = false)
    (hho : P.hasFilter → ∃ item, s.entry = some item ∧ item.holder src = true) :
    ∃ entry cached, snoopCaches P src s pkt =
        .ok ⟨⟨s.copy, s.memory, entry⟩, { pkt with blockCached := cached }, none⟩ ∧
      (P.hasFilter → entry = (s.item.released src).eraseIfNullEntry) := by
  obtain ⟨-, -, -, -, hev, hcl, -⟩ := hcm.attributes
  rw [snoopCaches, if_neg hcl]
  cases hfl : P.hasFilter with
  | false =>
    obtain ⟨cached, hfo⟩ := foldlM_snoopPort_eviction (P := P)
      (f := ⟨s, pkt, none⟩) src hcm (finRange N)
    exact ⟨s.entry, cached, hfo, by simp⟩
  | true =>
    obtain ⟨item, hen, hie⟩ := hho hfl
    refine ⟨(item.released src).eraseIfNullEntry, !(item.selected src).isEmpty, ?_, ?_⟩
    · rw [hen, lookupRequest_eviction hcm hcc hc hie]
      change (if pkt.isEviction then _ else _) = _
      rw [show pkt.isEviction from hev]
      cases (item.selected src).isEmpty with
      | true => simp [finishRequest, ← hc]
      | false => simp [finishRequest, setBlockCached]
    · simp [AtomicLine.item, hen]

theorem sendBelow_eviction (pkt : BusPacket) (hcm : BusEviction pkt.cmd)
    (hrs : pkt.cacheResponding = false) (memory : Nat → UInt8) :
    sendBelow P memory pkt = .ok (if pkt.cmd = .writebackDirty then pkt.data else memory, pkt) := by
  obtain ⟨-, -, hcl, -, -, -, hr, -, hrd⟩ := hcm.attributes
  replace hcl : pkt.isClean = false := hcl
  replace hr : pkt.needsResponse = false := hr
  replace hrd : pkt.isRead = false := hrd
  have hwr : pkt.isWrite = decide (pkt.cmd ≠ .cleanEvict) := by
    rcases hcm with h | h | h <;> rw [isWrite, h] <;> rfl
  rcases hcm with h | h | h <;>
    simp [sendBelow, sinkPacket, forwardPacket, memoryAccess, hrs,
      P.pointOfCoherency, hcl, hr, hrd, hwr, isCleanEviction, h]

theorem Tracks.of_eraseIfNullEntry {copy : Fin N → LockedBlk}
    (hh : ∀ i, (copy i).blk.valid → item.holder i = true)
    (hid : ∀ i, item.requested i = false) : Tracks item.eraseIfNullEntry copy := by
  cases hn : item.isNull with
  | true =>
    rw [eraseIfNullEntry, if_pos hn]
    refine ⟨fun i hv => ?_, by simp, by simp⟩
    have hus : item.isNull = false := isNull_eq_false i (by simp [interested, hh i hv])
    simp [hus] at hn
  | false =>
    rw [eraseIfNullEntry, hn]
    refine ⟨fun i hv => ⟨item, rfl, hh i hv⟩, ?_, ?_⟩
    · rintro _ ⟨⟩
      exact hid
    · rintro _ ⟨⟩
      exact hn

theorem CoherentXBar.recvAtomic_eviction (src : Fin N) (hcm : BusEviction pkt.cmd)
    (hca : pkt.req.isUncacheable = false) (hcc : pkt.blockCached = false)
    (hre : pkt.cacheResponding = false)
    (hho : P.hasFilter → ∃ item, s.entry = some item ∧ item.holder src = true) :
    ∃ s' rsp, recvAtomic P src s pkt = .ok (s', rsp) ∧ s'.copy = s.copy ∧
      s'.memory = (if pkt.cmd = .writebackDirty then pkt.data else s.memory) ∧
      (P.hasFilter → s'.entry = (s.item.released src).eraseIfNullEntry) := by
  obtain ⟨entry, cached, hsn, hen⟩ := snoopCaches_eviction hcm hca hcc hho
  have hbe := sendBelow_eviction (P := P) { pkt with blockCached := cached } hcm hre s.memory
  have hrs : ({ pkt with blockCached := cached } : BusPacket).isResponse = false :=
    hcm.attributes.2.1
  have hte : tellFilter P src entry { pkt with blockCached := cached } = .ok entry :=
    if_neg (by simp [hrs])
  refine ⟨⟨s.copy, if pkt.cmd = .writebackDirty then pkt.data else s.memory, entry⟩,
    { pkt with blockCached := cached }, ?_, rfl, rfl, hen⟩
  refine bind_eq_ok.mpr ⟨_, hsn, bind_eq_ok.mpr ⟨_, hbe, bind_eq_ok.mpr ⟨_, hte, ?_⟩⟩⟩
  rfl

/-- **Evictions.** The copy is gone, its data is in the memory if it was dirty, and the rest of the
block is as it was. -/
theorem evictAtomic_spec (hc : Coherent P s) (hv : (s.copy src).blk.valid) :
    ∃ s', evictAtomic P src s = .ok s' ∧
      s'.copy = update s.copy src (s.copy src).invalidate ∧
      s'.memory = (if (s.copy src).blk.isDirty then (s.copy src).data else s.memory) ∧
      (P.hasFilter → Tracks s'.entry s'.copy) := by
  obtain ⟨pkt, hpk, hcm, hca, hcc, hre, hda⟩ : ∃ pkt,
      pkt = (if (s.copy src).blk.isDirty || P.writebackClean src then
        writebackBlk P.blkSize (s.copy src) else cleanEvictBlk P.blkSize (s.copy src)) ∧
      BusEviction pkt.cmd ∧ pkt.req.isUncacheable = false ∧ pkt.blockCached = false ∧
      pkt.cacheResponding = false ∧
      (if pkt.cmd = .writebackDirty then pkt.data else s.memory) =
        if (s.copy src).blk.isDirty then (s.copy src).data else s.memory := by
    refine ⟨_, rfl, ?_⟩
    cases hdi : (s.copy src).blk.isDirty <;> cases P.writebackClean src <;>
      simp [writebackBlk, cleanEvictBlk, BusEviction, hdi, Request.isUncacheable]
  obtain ⟨s', rsp, hse, hcp, hme, hen⟩ := recvAtomic_eviction (P := P)
    (s := s.setCopy src (s.copy src).invalidate) src hcm hca hcc hre
    fun hf => (hc.tracked hf).holder src hv
  refine ⟨s', ?_, hcp, hme.trans hda, fun hf => ?_⟩
  · rw [evictAtomic, hv]
    refine (if_neg (by simp)).trans (bind_eq_ok.mpr ⟨(s', rsp), ?_, rfl⟩)
    rw [← hpk]
    exact hse
  · have htr := hc.tracked hf
    rw [hen hf, hcp]
    refine Tracks.of_eraseIfNullEntry (fun i hi => ?_) htr.item_idle
    by_cases hn : i = src
    · simp [hn, LockedBlk.invalidate, invalidate] at hi
    · rw [setCopy_of_ne _ _ hn] at hi
      exact (update_of_ne hn _ _).trans (htr.item_holder hi)

end Evictions

end Gem5.Mem
