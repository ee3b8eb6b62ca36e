import Gem5.Mem.Cache.Cache
import Gem5.Mem.Cache.MshrRuns

/-!
# Gem5.Mem.Cache.CacheRuns

A **cache under arbitrary traffic**, and what its functions do to the blocks.

Most of the code only changes bits of one block, or drops it (`Quiet`). The exceptions are few: a
block is allocated for a fill or a write from above (`allocateBlock_cases`), and the mark of a
prefetch is set by a response and cleared by a hit. Results about the blocks go by these facts
and never look into the functions again.
-/

namespace Gem5.Mem

open Gem5.Lib Cache List Mshr Option CacheBlk Except

/-! ### The system -/

inductive CacheCall (p : CacheParams) (τ : Type)
  | request (env : CacheEnv p τ) (pkt : Packet)
  | response (env : CacheEnv p τ) (i : Nat) (pkt : Packet)
  | snoop (env : CacheEnv p τ) (pkt : Packet)
  | send (env : CacheEnv p τ) (i : Nat) (upward : UpwardSnoop) (accepted : Option Bool)
  | prefetch (env : CacheEnv p τ) (pkt : Packet)
  | starved (env : CacheEnv p τ) (addr : Nat) (secure : Bool)
  | squash (env : CacheEnv p τ) (pkt : Packet)

variable {p : CacheParams} {P τ ε : Type} {L : Listener p P τ ε} {env : CacheEnv p τ}

def CacheState.step (L : Listener p P τ ε) (s : CacheState p P) :
    CacheCall p τ → Except (CacheFault ε) (CacheState p P)
  | .request env pkt => recvTimingReq L env pkt s
  | .response env i pkt => recvTimingResp L env i pkt s
  | .snoop env pkt => recvTimingSnoopReq L env pkt s
  | .send env i upward accepted => sendMSHRQueuePacket env i upward accepted s
  | .prefetch env pkt => issuePrefetch L env pkt s
  | .starved env addr secure => recvTimingWouldHaveStarved L env addr secure s
  | .squash env pkt => s.tell (L.notifySquash env.ext pkt)

abbrev cacheSystem (L : Listener p P τ ε) (init : P → Prop) :
    System (CacheState p P) (CacheCall p τ) (CacheFault ε) where
  init s := s.cache = .empty p ∧ init s.pf
  step := CacheState.step L
  pre _ _ := True

/-! ### Reading and writing blocks -/

namespace Cache

variable {c : Cache p} {ref : BlkRef p} {addr : Nat} {secure : Bool}

@[simp] theorem setBlk_self (c : Cache p) (ref : BlkRef p) (b : CacheBlk) :
    (c.setBlk ref b).blk ref = b := by
  simp [setBlk]

theorem setBlk_of_ne (c : Cache p) {r : BlkRef p} (b : CacheBlk) (h : r ≠ ref) :
    (c.setBlk ref b).blk r = c.blk r := by
  simp [setBlk, h]

/-- No line is cached twice. -/
def Distinct (c : Cache p) : Prop :=
  ∀ set way way', (c.blk (.tags set way)).valid → (c.blk (.tags set way')).valid →
    (c.blk (.tags set way)).addr = (c.blk (.tags set way')).addr →
    (c.blk (.tags set way)).secure = (c.blk (.tags set way')).secure → way = way'

variable {b : CacheBlk} {way : Fin p.assoc}

theorem matchTag_iff :
    b.matchTag addr secure = true ↔ b.valid ∧ b.addr = addr ∧ b.secure = secure := by
  simp [matchTag, and_assoc]

theorem findBlock_spec (h : c.findBlock addr secure = some ref) :
    ∃ way, ref = .tags (p.setOf addr) way ∧ (c.blk ref).matchTag (p.blkAlign addr) secure = true := by
  obtain ⟨way, hf, rfl⟩ := map_eq_some_iff.mp h
  exact ⟨way, rfl, find?_some (p := fun way =>
    (c.blk (.tags (p.setOf addr) way)).matchTag (p.blkAlign addr) secure) hf⟩

theorem findBlock_valid (h : c.findBlock addr secure = some ref) : (c.blk ref).valid := by
  obtain ⟨-, -, hma⟩ := findBlock_spec h
  exact (matchTag_iff.mp hma).1

theorem not_matchTag_of_findBlock (h : c.findBlock addr secure = none) (way : Fin p.assoc) :
    (c.blk (.tags (p.setOf addr) way)).matchTag (p.blkAlign addr) secure = false := by
  simp only [findBlock, map_eq_none_iff, find?_eq_none] at h
  simpa using h way

section

variable (hc : c.Distinct)
include hc

/-- In a cache without duplicates `findBlock` finds whatever holds the line. -/
theorem Distinct.findBlock
    (h : (c.blk (.tags (p.setOf addr) way)).matchTag (p.blkAlign addr) secure = true) :
    c.findBlock addr secure = some (.tags (p.setOf addr) way) := by
  cases hf : c.findBlock addr secure with
  | none =>
    rw [not_matchTag_of_findBlock hf way] at h
    cases h
  | some ref =>
    obtain ⟨way', rfl, hma⟩ := findBlock_spec hf
    obtain ⟨hv, ha, hs⟩ := matchTag_iff.mp h
    obtain ⟨hv', ha', hs'⟩ := matchTag_iff.mp hma
    rw [hc _ way' way hv' hv (ha'.trans ha.symm) (hs'.trans hs.symm)]

/-- Changing bits, dropping a block or writing `tempBlock` makes no duplicates. -/
theorem Distinct.setBlk
    (hb : b.valid → ref ≠ .temp → (c.blk ref).valid ∧ b.addr = (c.blk ref).addr ∧
      b.secure = (c.blk ref).secure) : (c.setBlk ref b).Distinct := by
  intro set way way' hv hv' ha hs
  have key : ∀ w, ((c.setBlk ref b).blk (.tags set w)).valid →
      (c.blk (.tags set w)).valid ∧
        ((c.setBlk ref b).blk (.tags set w)).addr = (c.blk (.tags set w)).addr ∧
        ((c.setBlk ref b).blk (.tags set w)).secure = (c.blk (.tags set w)).secure := by
    intro w hw
    rcases eq_or_ne (.tags set w) ref with rfl | hn
    · rw [setBlk_self] at hw ⊢
      exact hb hw (by simp)
    · rw [setBlk_of_ne c b hn] at hw ⊢
      exact ⟨hw, rfl, rfl⟩
  obtain ⟨h₁, ha₁, hs₁⟩ := key way hv
  obtain ⟨h₂, ha₂, hs₂⟩ := key way' hv'
  exact hc set way way' h₁ h₂ (by rw [← ha₁, ha, ha₂]) (by rw [← hs₁, hs, hs₂])

theorem Distinct.findBlock_setBlk (h : c.findBlock addr secure = some ref)
    (hl : (c.blk ref).SameLine b) : (c.setBlk ref b).findBlock addr secure = some ref := by
  obtain ⟨way, rfl, hma⟩ := findBlock_spec h
  obtain ⟨hv, ha, hs⟩ := matchTag_iff.mp hma
  refine (hc.setBlk fun hv _ => ⟨hl.1 ▸ hv, hl.2.1, hl.2.2.1⟩).findBlock ?_
  rw [setBlk_self]
  exact matchTag_iff.mpr ⟨hl.1.trans hv, hl.2.1.trans ha, hl.2.2.1.trans hs⟩

theorem Distinct.insert (hno : c.findBlock addr secure = none) (ha : b.addr = p.blkAlign addr)
    (hs : b.secure = secure) : (c.setBlk (.tags (p.setOf addr) way) b).Distinct := by
  have key : ∀ set w, .tags set w ≠ (.tags (p.setOf addr) way : BlkRef p) → set = p.setOf addr →
      (c.blk (.tags set w)).valid → (c.blk (.tags set w)).addr = p.blkAlign addr →
      (c.blk (.tags set w)).secure = secure → False := by
    rintro set w - rfl hv ha hs
    have := not_matchTag_of_findBlock hno w
    rw [matchTag_iff.mpr ⟨hv, ha, hs⟩] at this
    cases this
  intro set w w' hv hv' hd he
  rcases eq_or_ne (.tags set w) (.tags (p.setOf addr) way : BlkRef p) with hq | hn
  · rcases eq_or_ne (.tags set w') (.tags (p.setOf addr) way : BlkRef p) with hq' | hn'
    · exact (BlkRef.tags.inj (hq.trans hq'.symm)).2
    · rw [setBlk_of_ne c b hn'] at hv' hd he
      rw [hq, setBlk_self] at hd he
      exact (key set w' hn' (BlkRef.tags.inj hq).1 hv' (hd.symm.trans ha) (he.symm.trans hs)).elim
  · rw [setBlk_of_ne c b hn] at hv hd he
    rcases eq_or_ne (.tags set w') (.tags (p.setOf addr) way : BlkRef p) with hq' | hn'
    · rw [hq', setBlk_self] at hd he
      exact (key set w hn (BlkRef.tags.inj hq').1 hv (hd.trans ha) (he.trans hs)).elim
    · rw [setBlk_of_ne c b hn'] at hv' hd he
      exact hc set w w' hv hv' hd he

end

theorem distinct_empty (p : CacheParams) : (Cache.empty p).Distinct := by
  intro set way way' hv
  cases hv

end Cache

/-! ### Quiet functions -/

/-- Bits of the block are changed, or the block is dropped. -/
inductive BlkMove (L : Listener p P τ ε) (env : CacheEnv p τ) (blk : Option (BlkRef p)) :
    CacheState p P → CacheState p P → Prop
  | touch {s : CacheState p P} {ref : BlkRef p} (hr : blk = some ref) {b : CacheBlk}
      (h : (s.cache.blk ref).SameLine b) : BlkMove L env blk s (s.setBlk ref b)
  | drop {s s' : CacheState p P} {ref : BlkRef p} (hr : blk = some ref)
      (hvalid : (s.cache.blk ref).valid) (h : invalidateBlock L env ref s = .ok s') :
      BlkMove L env blk s s'

/-- The function only changes bits of the block or drops it. -/
def Quiet (L : Listener p P τ ε) (env : CacheEnv p τ) (blk : Option (BlkRef p)) :
    CacheState p P → CacheState p P → Prop :=
  Relation.ReflTransGen (BlkMove L env blk)

variable {s s' : CacheState p P} {ref : BlkRef p} {blk : Option (BlkRef p)} {pkt : Packet}

theorem tell_cases {f : P → Except ε P} (h : s.tell f = .ok s') :
    ∃ pf, f s.pf = .ok pf ∧ s' = { s with pf := pf } := by
  unfold CacheState.tell at h
  split at h
  · cases h
  · exact ⟨_, ‹_›, eq_of_ok h⟩

theorem ofMshr_eq_ok {α : Type} {x : Except MshrFault α} {a : α} :
    (ofMshr x : Except (CacheFault ε) α) = .ok a ↔ x = .ok a := by
  cases x with
  | error e => simp [ofMshr]
  | ok b => simp [ofMshr]

theorem invalidateBlock_cases (h : invalidateBlock L env ref s = .ok s') :
    s'.cache = s.cache.setBlk ref (s.cache.blk ref).invalidate ∧
      ((ref = .temp ∨ p.isIcache = false) ∧ s'.pf = s.pf ∨
        ref ≠ .temp ∧ p.isIcache ∧
          L.notifyInvalidate env.ext (s.cache.blk ref).vaddr s.pf = .ok s'.pf) := by
  unfold invalidateBlock at h
  split at h
  · cases h
    exact ⟨rfl, .inl ⟨.inl rfl, rfl⟩⟩
  · split at h
    · rename_i hic
      obtain ⟨pf, hpf, rfl⟩ := tell_cases h
      exact ⟨rfl, .inr ⟨by simp, hic, hpf⟩⟩
    · rename_i hic
      cases h
      exact ⟨rfl, .inl ⟨.inr (by simpa using hic), rfl⟩⟩

theorem invalidateBlock_cache (h : invalidateBlock L env ref s = .ok s') :
    s'.cache = s.cache.setBlk ref (s.cache.blk ref).invalidate :=
  (invalidateBlock_cases h).1

namespace Quiet

theorem refl : Quiet L env blk s s := Relation.ReflTransGen.refl

theorem of_ok (h : (.ok s : Except (CacheFault ε) _) = .ok s') : Quiet L env blk s s' := by
  cases h
  exact .refl

theorem trans {s'' : CacheState p P} (h : Quiet L env blk s s') (h' : Quiet L env blk s' s'') :
    Quiet L env blk s s'' :=
  Relation.ReflTransGen.trans h h'

theorem touch {b : CacheBlk} (h : (s.cache.blk ref).SameLine b) :
    Quiet L env (some ref) s (s.setBlk ref b) :=
  .single (.touch rfl h)

theorem drop (hva : (s.cache.blk ref).valid)
    (h : invalidateBlock L env ref s = .ok s') : Quiet L env (some ref) s s' :=
  .single (.drop rfl hva h)

theorem frame (h : Quiet L env blk s s') :
    s'.cache.mshrs = s.cache.mshrs ∧
      ∀ r, (s.cache.blk r).SameLine (s'.cache.blk r) ∨
        (s'.cache.blk r).valid = false ∧ (s'.cache.blk r).prefetched = false := by
  induction h with
  | refl => exact ⟨rfl, fun r => .inl (.refl _)⟩
  | @tail s₁ s₂ _ hmo ih =>
    obtain ⟨hms, hs⟩ := ih
    obtain ⟨ref, b, rfl, hca, hb⟩ : ∃ ref b, blk = some ref ∧
        s₂.cache = s₁.cache.setBlk ref b ∧ ((s₁.cache.blk ref).SameLine b ∨
          b.valid = false ∧ b.prefetched = false) := by
      cases hmo with
      | touch hr hl => exact ⟨_, _, hr, rfl, .inl hl⟩
      | drop hr _ hin => exact ⟨_, _, hr, invalidateBlock_cache hin, .inr ⟨rfl, rfl⟩⟩
    rw [hca]
    refine ⟨hms, fun r => ?_⟩
    rcases eq_or_ne r ref with rfl | hn
    · rw [setBlk_self]
      rcases hb with hl | hgo
      · rcases hs r with h | ⟨hv, hpf⟩
        · exact .inl (h.trans hl)
        · exact .inr ⟨hl.1.trans hv, hl.2.2.2.2.trans hpf⟩
      · exact .inr hgo
    · rw [setBlk_of_ne _ b hn]
      exact hs r

theorem distinct (h : Quiet L env blk s s') (hs : s.cache.Distinct) : s'.cache.Distinct := by
  induction h with
  | refl => exact hs
  | tail _ hmo ih =>
    cases hmo with
    | touch _ hln => exact ih.setBlk fun hv _ => ⟨hln.1 ▸ hv, hln.2.1, hln.2.2.1⟩
    | drop _ _ hin =>
      rw [invalidateBlock_cache hin]
      exact ih.setBlk fun hv _ => by cases hv

variable {addr : Nat} {secure : Bool}

theorem findBlock (h : Quiet L env blk s s') (hs : s.cache.Distinct)
    (hf : s'.cache.findBlock addr secure = some ref) :
    s.cache.findBlock addr secure = some ref ∧ (s.cache.blk ref).SameLine (s'.cache.blk ref) := by
  obtain ⟨way, rfl, hma⟩ := findBlock_spec hf
  obtain ⟨hv, ha, hse⟩ := matchTag_iff.mp hma
  rcases h.frame.2 (.tags (p.setOf addr) way) with hl | ⟨hin, -⟩
  · exact ⟨hs.findBlock (matchTag_iff.mpr ⟨hl.1 ▸ hv, hl.2.1 ▸ ha, hl.2.2.1 ▸ hse⟩), hl⟩
  · rw [hv] at hin
    cases hin

theorem findBlock_none (h : Quiet L env blk s s') (hs : s.cache.Distinct)
    (hn : s.cache.findBlock addr secure = none) : s'.cache.findBlock addr secure = none := by
  cases hf : s'.cache.findBlock addr secure with
  | none => rfl
  | some ref =>
    rw [(h.findBlock hs hf).1] at hn
    cases hn

end Quiet

theorem satisfyFrom_quiet {deferredResponse pendingDowngrade : Bool} {r : Packet × CacheState p P}
    (h : satisfyFrom L env ref pkt deferredResponse pendingDowngrade s = .ok r) :
    pkt.SameRequest r.1 ∧ Quiet L env (some ref) s r.2 := by
  unfold satisfyFrom at h
  split at h
  · cases h
  · rename_i b pkt' hsa
    obtain ⟨hva, hr, hln⟩ := satisfyRequest_cases hsa
    split at h
    · rename_i hb
      cases h
      rcases hln with hln | ⟨rfl, -⟩
      · exact ⟨hr, .touch hln⟩
      · cases hb
    · obtain ⟨s₁, hin, rfl⟩ := bind_ok.mp h
      exact ⟨hr, .drop hva hin⟩

theorem maintainClusivity_quiet {fromCache : Bool}
    (h : maintainClusivity L env fromCache blk s = .ok s') : Quiet L env blk s s' := by
  unfold maintainClusivity at h
  split at h
  · exact .of_ok h
  · split at h
    · rename_i hco
      simp only [Bool.and_eq_true] at hco
      exact .drop hco.1.1.2 h
    · exact .of_ok h

theorem maintainClusivity_inclusive (hp : p.mostlyExcl = false) (fromCache : Bool) :
    maintainClusivity L env fromCache blk s = .ok s := by
  unfold maintainClusivity
  split
  · rfl
  · rw [if_neg (by simp [hp])]

theorem snoopValid_quiet (hv : (s.cache.blk ref).valid)
    (h : snoopValid L env ref pkt s = .ok s') : Quiet L env (some ref) s s' := by
  have hcl : (s.cache.blk ref).SameLine (s.cache.blk ref).writeClean := .refl _
  unfold snoopValid at h
  split at h
  · have hq : Quiet L env (some ref) s
        (if (s.cache.blk ref).isDirty then s.setBlk ref (s.cache.blk ref).writeClean else s) := by
      split
      · exact .touch hcl
      · exact .refl
    split at h
    · refine hq.trans (.drop ?_ h)
      split
      · exact (congrArg valid (setBlk_self _ _ _)).trans hv
      · exact hv
    · cases h
      exact hq
  split at h
  · exact .of_ok h
  split at h
  · exact .drop hv h
  split at h
  · split at h
    · cases h
    split at h
    · exact .of_ok h
    · cases h
      exact .touch (.refl _)
  · exact .of_ok h

theorem handleSnoop_quiet (h : handleSnoop L env blk pkt s = .ok s') : Quiet L env blk s s' := by
  unfold handleSnoop at h
  split at h
  · cases h
  split at h
  · cases h
  split at h
  · exact .of_ok h
  · split at h
    · exact snoopValid_quiet ‹_› h
    · exact .of_ok h

variable {m : Mshr} {isInvalidate : Bool} {i : Nat} {r : BlkRef p × CacheState p P}
  {allocate : Bool} {accepted : Option Bool}

theorem settleBlock_quiet
    (h : settleBlock L env m blk isInvalidate s = .ok s') : Quiet L env blk s s' := by
  unfold settleBlock at h
  dsimp only at h
  split at h
  · exact .of_ok h
  split at h
  · exact .of_ok h
  rename_i hva
  split at h
  · exact .drop (by simpa using hva) h
  split at h <;> cases h
  · exact .touch (.refl _)
  · exact .refl

theorem restoreReadable_quiet : Quiet L env blk s (restoreReadable pkt blk s) := by
  unfold restoreReadable
  split
  · exact .refl
  · split
    · exact .touch (.refl _)
    · exact .refl

theorem evictTemp_quiet (h : evictTemp L env blk s = .ok s') : Quiet L env blk s s' := by
  unfold evictTemp at h
  split at h
  · rename_i hco
    obtain ⟨rfl, hva⟩ := hco
    exact .drop hva h
  · exact .of_ok h

theorem serviceCpu_quiet {resp : Packet}
    (h : serviceCpu L env m resp blk isInvalidate pkt s = .ok s') : Quiet L env blk s s' := by
  unfold serviceCpu at h
  split at h
  · split at h
    · split at h
      · cases h
      · split at h
        · cases h
          exact .touch (.refl _)
        · cases h
    · exact .of_ok h
  split at h
  · cases h
  split at h
  · split at h
    · cases h
    · exact .of_ok h
  split at h
  · obtain ⟨r, hsa, rfl⟩ := bind_ok.mp h
    exact (satisfyFrom_quiet hsa).2
  split at h
  · cases h
  split at h
  · rename_i hco
    exact .drop hco.2.2 h
  · exact .of_ok h

/-! ### Allocating a block -/

theorem insertBlock_cases (h : insertBlock pkt ref s = (.ok s' : Except (CacheFault ε) _)) :
    ∃ b : CacheBlk, s' = s.setBlk ref b ∧ b.valid ∧ b.addr = p.blkAlign pkt.addr ∧
      b.secure = pkt.secure ∧ b.prefetched = (s.cache.blk ref).prefetched ∧
      (p.isIcache → pkt.req.vaddr = some b.vaddr) := by
  unfold insertBlock at h
  split at h
  · split at h
    · cases h
    · rename_i vaddr hva
      exact ⟨_, eq_of_ok h, rfl, rfl, rfl, rfl, fun _ => hva⟩
  · rename_i hic
    exact ⟨_, eq_of_ok h, rfl, rfl, rfl, rfl, fun hi => absurd hi hic⟩

theorem handleEvictions_cases {r : Bool × CacheState p P}
    (h : handleEvictions L env ref s = .ok r) :
    (r = (false, s) ∧ (s.cache.blk ref).valid ∧
        (s.cache.findMatch (s.cache.blk ref).addr (s.cache.blk ref).secure).isSome) ∨
      r.1 ∧ Quiet L env (some ref) s r.2 ∧ (r.2.cache.blk ref).valid = false := by
  unfold handleEvictions at h
  dsimp only at h
  split at h
  · rename_i hv
    cases h
    exact .inr ⟨rfl, .refl, by simpa using hv⟩
  rename_i hv
  have hv : (s.cache.blk ref).valid := by simpa using hv
  split at h
  · rename_i m hms
    split at h
    · cases h
      refine .inl ⟨rfl, hv, ?_⟩
      obtain ⟨i, hi, -⟩ := bind_eq_some_iff.mp hms
      rw [hi]
      rfl
    · cases h
  · obtain ⟨s₁, hev, rfl⟩ := bind_ok.mp h
    refine .inr ⟨rfl, .drop hv hev, ?_⟩
    rw [invalidateBlock_cache hev, setBlk_self]
    rfl

theorem allocateBlock_cases {r : Option (BlkRef p) × CacheState p P}
    (h : allocateBlock L env pkt s = .ok r) :
    (r = (none, s) ∧ ∃ b, b = s.cache.blk (.tags (p.setOf pkt.addr) env.victim) ∧
        b.valid ∧ (s.cache.findMatch b.addr b.secure).isSome) ∨
      ∃ s₁, r.1 = some (.tags (p.setOf pkt.addr) env.victim) ∧
        Quiet L env (some (.tags (p.setOf pkt.addr) env.victim)) s s₁ ∧
        (s₁.cache.blk (.tags (p.setOf pkt.addr) env.victim)).valid = false ∧
        insertBlock pkt (.tags (p.setOf pkt.addr) env.victim) s₁ =
          (.ok r.2 : Except (CacheFault ε) _) := by
  obtain ⟨⟨evicted, s₁⟩, hei, hr⟩ := bind_eq_ok.mp h
  rcases handleEvictions_cases hei with ⟨heq, hbu⟩ | ⟨hev, hqu, hnv⟩
  · cases heq
    cases hr
    exact .inl ⟨rfl, _, rfl, hbu⟩
  · obtain rfl : evicted = true := hev
    obtain ⟨s₂, hin, rfl⟩ := bind_ok.mp hr
    exact .inr ⟨s₁, rfl, hqu, hnv, hin⟩

theorem allocateBlock_spec {s₁ : CacheState p P} (hs : s.cache.Distinct)
    (hn : s.cache.findBlock pkt.addr pkt.secure = none)
    (h : allocateBlock L env pkt s = .ok (some ref, s₁)) :
    s₁.cache.Distinct ∧ s₁.cache.findBlock pkt.addr pkt.secure = some ref ∧
      s₁.cache.mshrs = s.cache.mshrs := by
  rcases allocateBlock_cases h with ⟨heq, -⟩ | ⟨s₀, hre, hq, -, hin⟩
  · cases heq
  cases hre
  obtain ⟨b, rfl, hva, had, hse, -⟩ := insertBlock_cases hin
  have hd : (s₀.cache.setBlk (.tags (p.setOf pkt.addr) env.victim) b).Distinct :=
    (hq.distinct hs).insert (hq.findBlock_none hs hn) had hse
  refine ⟨hd, hd.findBlock ?_, hq.frame.1⟩
  rw [setBlk_self]
  exact matchTag_iff.mpr ⟨hva, had, hse⟩

/-! ### Requests -/

theorem promoteWholeLineWrites_spec (pkt : Packet) :
    (promoteWholeLineWrites p pkt).req = pkt.req ∧
      (promoteWholeLineWrites p pkt).addr = pkt.addr ∧
      (promoteWholeLineWrites p pkt).secure = pkt.secure ∧
      (pkt.cmd ≠ .hardPFReq → (promoteWholeLineWrites p pkt).cmd ≠ .hardPFReq) := by
  unfold promoteWholeLineWrites
  split
  · exact ⟨rfl, rfl, rfl, fun _ => by simp⟩
  · exact ⟨rfl, rfl, rfl, id⟩

theorem promoteWholeLineWrites_read (hrd : pkt.isRead) : promoteWholeLineWrites p pkt = pkt := by
  unfold promoteWholeLineWrites
  rw [if_neg]
  rintro ⟨hcm, -⟩
  rw [Packet.isRead, hcm] at hrd
  cases hrd

/-- A request that finds its block is satisfied by it. -/
def CacheBlk.hits (b : CacheBlk) (pkt : Packet) : Bool :=
  pkt.isEviction || if pkt.cmd = .writeClean then !pkt.writeThrough else b.serves pkt

/-- What `access` does when it allocates no block: it works on the block it finds. -/
structure Accessed.OnFound (L : Listener p P τ ε) (env : CacheEnv p τ) (s : CacheState p P)
    (pkt : Packet) (r : Accessed p P) : Prop where
  quiet : Quiet L env (s.cache.findBlock pkt.addr pkt.secure) s r.state
  blk : pkt.req.isUncacheable = false → r.blk = s.cache.findBlock pkt.addr pkt.secure
  /-- An uncacheable access misses and leaves no copy behind. -/
  flushed : pkt.req.isUncacheable → r.satisfied = false ∧ r.blk = none ∧
    ∀ ref, s.cache.findBlock pkt.addr pkt.secure = some ref → (r.state.cache.blk ref).valid = false
  /-- Any other access misses only when the block it finds does not do. -/
  missed : pkt.req.isUncacheable = false → pkt.req.isCacheMaintenance = false →
    r.satisfied = false →
    ∀ ref, s.cache.findBlock pkt.addr pkt.secure = some ref → (s.cache.blk ref).hits pkt = false

/-- What `access` does when it allocates a block for a write from above. -/
structure Accessed.OnAllocated (L : Listener p P τ ε) (env : CacheEnv p τ) (s : CacheState p P)
    (pkt : Packet) (r : Accessed p P) : Prop where
  absent : s.cache.findBlock pkt.addr pkt.secure = none
  cmd : pkt.isWriteback ∨ pkt.cmd = .writeClean
  allocated : ∃ ref s₁, allocateBlock L env pkt s = .ok (some ref, s₁) ∧ r.blk = some ref ∧
    Quiet L env (some ref) s₁ r.state
  satisfied : r.satisfied

theorem blockToWrite_cases {r : Option (BlkRef p) × CacheState p P}
    (h : blockToWrite L env blk pkt s = .ok r) :
    (r = (blk, s)) ∨ blk = none ∧ ∃ ref s₁, allocateBlock L env pkt s = .ok (some ref, s₁) ∧
      r.1 = some ref ∧ Quiet L env (some ref) s₁ r.2 := by
  unfold blockToWrite at h
  split at h
  · exact .inl (eq_of_ok h)
  · obtain ⟨⟨blk', s₁⟩, hal, h⟩ := bind_eq_ok.mp h
    dsimp only at h
    split at h
    · cases h
      rcases allocateBlock_cases hal with ⟨heq, -⟩ | ⟨-, heq, -⟩
      · exact .inl heq
      · cases heq
    · cases h
      exact .inr ⟨rfl, _, s₁, hal, rfl, .touch (.refl _)⟩

theorem Accessed.OnFound.cached {r : Accessed p P} (hca : pkt.req.isUncacheable = false)
    (hq : Quiet L env (s.cache.findBlock pkt.addr pkt.secure) s r.state)
    (hb : r.blk = s.cache.findBlock pkt.addr pkt.secure)
    (hm : ∀ ref, s.cache.findBlock pkt.addr pkt.secure = some ref → r.satisfied = false →
      (s.cache.blk ref).hits pkt = false) : r.OnFound L env s pkt :=
  ⟨hq, fun _ => hb, fun hu => by simp [hca] at hu, fun _ _ hs ref hf => hm ref hf hs⟩

theorem blockToWrite_touch {r : Accessed p P} {q : Option (BlkRef p) × CacheState p P}
    (hca : pkt.req.isUncacheable = false) (hcm : pkt.isWriteback ∨ pkt.cmd = .writeClean)
    (hbl : blockToWrite L env (s.cache.findBlock pkt.addr pkt.secure) pkt s = .ok q)
    (hb : r.blk = q.1) (hq : Quiet L env q.1 q.2 r.state)
    (hm : ∀ ref, s.cache.findBlock pkt.addr pkt.secure = some ref → q.1 = some ref →
      r.satisfied = false → (s.cache.blk ref).hits pkt = false)
    (hs : s.cache.findBlock pkt.addr pkt.secure = none → q.1.isSome → r.satisfied) :
    r.OnFound L env s pkt ∨ r.OnAllocated L env s pkt := by
  rcases blockToWrite_cases hbl with rfl | ⟨hn, ref, s₁, hal, he, hqu⟩
  · exact .inl (.cached hca hq hb fun ref hf => hm ref hf hf)
  · rw [he] at hb hq
    exact .inr ⟨hn, hcm, ⟨ref, s₁, hal, hb, hqu.trans hq⟩, hs hn (by simp [he])⟩

theorem accessWriteback_cases {r : Accessed p P} (hcm : pkt.isWriteback)
    (hca : pkt.req.isUncacheable = false)
    (h : accessWriteback L env (s.cache.findBlock pkt.addr pkt.secure) pkt s = .ok r) :
    r.pkt = pkt ∧ (r.OnFound L env s pkt ∨ r.OnAllocated L env s pkt) := by
  unfold accessWriteback at h
  split at h
  · cases h
    exact ⟨rfl, .inl (.cached hca .refl rfl fun _ _ hs => by cases hs)⟩
  · obtain ⟨⟨blk', s₁⟩, hbl, h⟩ := bind_eq_ok.mp h
    dsimp only at h
    split at h <;> obtain rfl := ok.inj h <;> refine ⟨rfl, ?_⟩
    · exact blockToWrite_touch hca (.inl hcm) hbl rfl .refl (fun _ _ => nofun) fun _ => nofun
    · exact blockToWrite_touch hca (.inl hcm) hbl rfl (.touch (.refl _)) (fun _ _ _ => nofun)
        fun _ _ => rfl

theorem accessWriteClean_cases {r : Accessed p P} (hm : pkt.cmd = .writeClean)
    (hca : pkt.req.isUncacheable = false)
    (h : accessWriteClean L env (s.cache.findBlock pkt.addr pkt.secure) pkt s = .ok r) :
    r.pkt = pkt ∧ (r.OnFound L env s pkt ∨ r.OnAllocated L env s pkt) := by
  have hev : pkt.isEviction = false := by simp [Packet.isEviction, hm]; rfl
  have hhi : ∀ b : CacheBlk, b.hits pkt = !pkt.writeThrough := by
    intro b
    simp [hits, hm, hev]
  unfold accessWriteClean at h
  split at h
  · rename_i ho
    cases h
    have hn : s.cache.findBlock pkt.addr pkt.secure = none := by
      simp only [Bool.and_eq_true, isNone_iff_eq_none] at ho
      exact ho.1
    exact ⟨rfl, .inl (.cached hca .refl hn.symm (by simp [hn]))⟩
  · rename_i ho
    obtain ⟨⟨blk', s₁⟩, hbl, h⟩ := bind_eq_ok.mp h
    dsimp only at h
    split at h <;> obtain rfl := ok.inj h <;> refine ⟨rfl, ?_⟩
    · exact blockToWrite_touch hca (.inr hm) hbl rfl .refl (fun _ _ => nofun) fun _ => nofun
    · refine blockToWrite_touch hca (.inr hm) hbl rfl (.touch (.refl _))
        (fun _ _ _ hs => (hhi _).trans hs) fun hn _ => ?_
      simpa [hn] using ho

theorem accessDemand_cases {r : Accessed p P} (hev : pkt.isEviction = false)
    (hce : pkt.cmd ≠ .writeClean) (hca : pkt.req.isUncacheable = false)
    (h : accessDemand L env (s.cache.findBlock pkt.addr pkt.secure) pkt s = .ok r) :
    pkt.SameRequest r.pkt ∧ r.OnFound L env s pkt := by
  unfold accessDemand at h
  split at h
  · rename_i hn
    cases h
    exact ⟨.refl pkt, .cached hca .refl hn.symm (by simp [hn])⟩
  · rename_i ref hfo
    split at h
    · obtain ⟨r₁, hsa, h⟩ := bind_eq_ok.mp h
      obtain ⟨s₂, hcl, rfl⟩ := bind_ok.mp h
      obtain ⟨hre, hqu⟩ := satisfyFrom_quiet hsa
      refine ⟨hre, .cached hca ?_ rfl fun _ _ hs => by cases hs⟩
      rw [hfo] at hcl ⊢
      exact hqu.trans (maintainClusivity_quiet hcl)
    · rename_i hse
      cases h
      refine ⟨.refl pkt, .cached hca .refl rfl fun ref' hf _ => ?_⟩
      obtain rfl := some.inj (hfo.symm.trans hf)
      simpa [hits, hev, hce] using hse

/-- **What an access does**: it works on the block it finds, or it allocates one for a write from
above. -/
theorem access_cases {r : Accessed p P} (h : access L env pkt s = .ok r) :
    pkt.SameRequest r.pkt ∧ (r.OnFound L env s pkt ∨ r.OnAllocated L env s pkt) := by
  unfold access at h
  dsimp only at h
  split at h
  · rename_i hn
    split at h
    · rename_i hno
      cases h
      refine ⟨.refl pkt, .inl ⟨.refl, fun hc => absurd hn (by simp [hc]),
        fun _ => ⟨rfl, rfl, fun ref hf => ?_⟩, fun hc => absurd hn (by simp [hc])⟩⟩
      rw [hno] at hf
      cases hf
    · rename_i ref hfo
      obtain ⟨s₁, he, rfl⟩ := bind_ok.mp h
      have hva := findBlock_valid hfo
      refine ⟨.refl pkt, .inl ⟨?_, fun hc => absurd hn (by simp [hc]),
        fun _ => ⟨rfl, rfl, fun ref' hf => ?_⟩, fun hc => absurd hn (by simp [hc])⟩⟩
      · rw [hfo]
        exact .drop hva he
      · obtain rfl := some.inj (hfo.symm.trans hf)
        rw [invalidateBlock_cache he, setBlk_self]
        rfl
  rename_i hn
  have ha : pkt.req.isUncacheable = false := by simpa using hn
  split at h
  · rename_i hma
    cases h
    exact ⟨.refl pkt, .inl ⟨.refl, fun _ => rfl, fun hu => absurd hu hn,
      fun _ hm => absurd hma (by simp [hm])⟩⟩
  split at h
  · cases h
    exact ⟨.refl pkt, .inl (.cached ha .refl rfl fun _ _ hs => by cases hs)⟩
  split at h
  · rename_i hwb
    obtain ⟨hpk, hr⟩ := accessWriteback_cases hwb ha h
    exact ⟨hpk ▸ .refl pkt, hr⟩
  rename_i hwb
  split at h
  · cases h
    exact ⟨.refl pkt, .inl (.cached ha .refl rfl fun ref hf => by simp [hf])⟩
  rename_i he
  split at h
  · rename_i hcm
    obtain ⟨hpk, hr⟩ := accessWriteClean_cases hcm ha h
    exact ⟨hpk ▸ .refl pkt, hr⟩
  · rename_i hcl
    -- An eviction is a writeback or a `CleanEvict`.
    have hnt : pkt.isEviction = false := by
      obtain ⟨cmd⟩ := pkt
      cases cmd <;> first | rfl | exact absurd rfl hwb | exact absurd rfl he
    obtain ⟨hre, hr⟩ := accessDemand_cases hnt hcl ha h
    exact ⟨hre, .inl hr⟩

/-! ### MSHRs -/

/-- The registers wait for nobody new: at most one of them has changed, or has been freed. -/
def Settled (ms ms' : List Mshr) : Prop :=
  ms' = ms ∨ ∃ i m, ms[i]? = some m ∧
    ((∃ m', ms' = ms.set i m' ∧ m'.awaited.Sublist m.awaited) ∨ ms' = ms.eraseIdx i)

theorem Settled.set {ms : List Mshr} (hm : ms[i]? = some m) (m' : Mshr)
    (h : m'.awaited = m.awaited) : Settled ms (ms.set i m') :=
  .inr ⟨i, m, hm, .inl ⟨m', rfl, h ▸ .refl _⟩⟩

def Joined (ms ms' : List Mshr) (pkt : Packet) : Prop :=
  (∃ (blkAddr blkSize whenReady order : Nat) (allocOnFill : Bool) (tgt : Packet) (m : Mshr),
      tgt.cmd = pkt.cmd ∧
        Mshr.free.allocate blkAddr blkSize tgt whenReady order allocOnFill = .ok m ∧
        ms' = ms ++ [m]) ∨
    ∃ i m m' whenReady order allocOnFill, ms[i]? = some m ∧
      m.allocateTarget pkt whenReady order allocOnFill = .ok m' ∧ ms' = ms.set i m'

@[simp] theorem CacheState.setMshrs_mshrs (s : CacheState p P) (ms : List Mshr) :
    (s.setMshrs ms).cache.mshrs = ms := rfl

theorem allocateMissBuffer_cases
    (h : allocateMissBuffer env pkt s = (.ok s' : Except (CacheFault ε) _)) :
    ∃ ms, s' = s.setMshrs ms ∧ Joined s.cache.mshrs ms pkt := by
  obtain ⟨m, hal, rfl⟩ := bind_ok.mp h
  exact ⟨_, rfl, .inl ⟨_, _, _, _, _, pkt, m, rfl, ofMshr_eq_ok.mp hal, rfl⟩⟩

/-- A miss makes the block unreadable, at most, and becomes a target, at most. -/
theorem handleTimingReqMiss_cases
    (h : handleTimingReqMiss env blk pkt s = (.ok s' : Except (CacheFault ε) _)) :
    ∃ s₁ ms, Quiet L env blk s s₁ ∧ s' = s₁.setMshrs ms ∧
      (ms = s.cache.mshrs ∨ Joined s.cache.mshrs ms pkt) := by
  have hs : s' = s → ∃ s₁ ms, Quiet L env blk s s₁ ∧ s' = s₁.setMshrs ms ∧
      (ms = s.cache.mshrs ∨ Joined s.cache.mshrs ms pkt) := by
    rintro rfl
    exact ⟨s', _, .refl, rfl, .inl rfl⟩
  have hi : ∀ (tgt : Packet) (s₁ : CacheState p P), tgt.cmd = pkt.cmd → Quiet L env blk s s₁ →
      allocateMissBuffer env tgt s₁ = (.ok s' : Except (CacheFault ε) _) →
      ∃ s₁ ms, Quiet L env blk s s₁ ∧ s' = s₁.setMshrs ms ∧
        (ms = s.cache.mshrs ∨ Joined s.cache.mshrs ms pkt) := by
    intro tgt s₁ hd hq hi
    obtain ⟨m, hal, rfl⟩ := bind_ok.mp hi
    rw [hq.frame.1]
    exact ⟨s₁, _, hq, rfl, .inr (.inl ⟨_, _, _, _, _, tgt, m, hd, ofMshr_eq_ok.mp hal, rfl⟩)⟩
  unfold handleTimingReqMiss at h
  split at h
  · split at h
    · exact hs (eq_of_ok h)
    split at h
    · exact hi pkt s rfl .refl h
    · cases h
  split at h
  · unfold coalesce at h
    split at h
    · exact hs (eq_of_ok h)
    split at h
    · cases h
    split at h
    · exact hs (eq_of_ok h)
    split at h
    · cases h
    · rename_i i _ _ _ _ _ m hm
      obtain ⟨m', had, rfl⟩ := bind_ok.mp h
      exact ⟨s, _, .refl, rfl, .inr (.inr ⟨i, m, m', _, _, _, hm, ofMshr_eq_ok.mp had, rfl⟩)⟩
  · have hd : (if pkt.cmd.isSWPrefetch then softwarePrefetch pkt else pkt).cmd = pkt.cmd := by
      split <;> rfl
    revert h
    generalize (if pkt.cmd.isSWPrefetch then softwarePrefetch pkt else pkt) = tgt at hd ⊢
    intro h
    unfold startMiss at h
    split at h
    · exact hs (eq_of_ok h)
    split at h
    · exact hi tgt s hd .refl h
    · dsimp only at h
      split at h
      · exact hi tgt s hd .refl h
      split at h
      · refine hi tgt _ hd (.touch ?_) h
        exact .refl _
      · cases h

theorem recvTimingSnoopReq_cases (h : recvTimingSnoopReq L env pkt s = .ok s') :
    ∃ ms, Settled s.cache.mshrs ms ∧
      Quiet L env (s.cache.findBlock pkt.addr pkt.secure) (s.setMshrs ms) s' := by
  unfold recvTimingSnoopReq at h
  dsimp only at h
  split at h
  · refine ⟨s.cache.mshrs, .inl rfl, ?_⟩
    split at h
    · exact .of_ok h
    · exact handleSnoop_quiet h
  split at h
  · exact ⟨s.cache.mshrs, .inl rfl, .of_ok h⟩
  split at h
  · cases h
  · rename_i i _ _ _ m hm
    obtain ⟨r, hsn, h⟩ := bind_eq_ok.mp h
    have haw := awaited_handleSnoop (ofMshr_eq_ok.mp hsn)
    refine ⟨_, .set hm _ haw, ?_⟩
    split at h
    · exact .of_ok h
    · exact handleSnoop_quiet h

theorem sendMshr_cases (hm : s.cache.mshrs[i]? = some m)
    (h : sendMshr i m accepted s = (.ok s' : Except (CacheFault ε) _)) :
    ∃ blk ms, Settled s.cache.mshrs ms ∧ Quiet L env blk (s.setMshrs ms) s' := by
  unfold sendMshr at h
  split at h
  · cases h
  obtain ⟨created, -, h⟩ := bind_eq_ok.mp h
  dsimp only [throw, throwThe] at h
  split at h
  · cases h
  split at h
  · cases h
    exact ⟨none, _, .set hm { m with isForward := created.isNone } rfl, .refl⟩
  · obtain ⟨m', hma, h⟩ := bind_eq_ok.mp h
    have haw := (marks_markInService (ofMshr_eq_ok.mp hma)).awaited
    have hs := Settled.set hm _ haw
    split at h
    · cases h
      exact ⟨none, _, hs, .refl⟩
    · rename_i ref _
      split at h <;> cases h
      · exact ⟨some ref, _, hs, .touch (.refl _)⟩
      · exact ⟨none, _, hs, .refl⟩

theorem forceDeallocateTarget_cases (hm : s.cache.mshrs[i]? = some m)
    (h : forceDeallocateTarget env i m s = (.ok s' : Except (CacheFault ε) _)) :
    ∃ ms, Settled s.cache.mshrs ms ∧ s' = s.setMshrs ms := by
  unfold forceDeallocateTarget at h
  split at h
  · cases h
  rename_i t ts hel
  have hp : ({ m with targets := { m.targets with elems := ts } } : Mshr).awaited.Sublist
      m.awaited := by
    have hco : waiting (t :: ts) = waiting [t] ++ waiting ts := waiting_append [t] ts
    simp only [awaited, hel, hco, append_assoc]
    exact sublist_append_right _ _
  split at h
  · cases h
    exact ⟨_, .inr ⟨i, m, hm, .inl ⟨_, rfl, hp⟩⟩, rfl⟩
  · obtain ⟨⟨promoted, m'⟩, hpr, h⟩ := bind_eq_ok.mp h
    have haw := awaited_promoteDeferredTargets (ofMshr_eq_ok.mp hpr)
    dsimp only at h
    split at h
    · cases h
      exact ⟨_, .inr ⟨i, m, hm, .inl ⟨m', rfl, haw ▸ hp⟩⟩, rfl⟩
    · obtain ⟨-, -, rfl⟩ := bind_ok.mp h
      exact ⟨_, .inr ⟨i, m, hm, .inr rfl⟩, rfl⟩

theorem sendMSHRQueuePacket_cases {upward : UpwardSnoop}
    (h : sendMSHRQueuePacket env i upward accepted s = (.ok s' : Except (CacheFault ε) _)) :
    ∃ blk ms, Settled s.cache.mshrs ms ∧ Quiet L env blk (s.setMshrs ms) s' := by
  unfold sendMSHRQueuePacket at h
  split at h
  · cases h
  rename_i m hm
  split at h
  · split at h
    · cases h
    cases upward with
    | miss => exact sendMshr_cases hm h
    | responding pendingModifiedResp =>
      obtain ⟨m', hma, rfl⟩ := bind_ok.mp h
      have haw := (marks_markInService (ofMshr_eq_ok.mp hma)).awaited
      exact ⟨none, _, .set hm _ haw, .refl⟩
    | cached =>
      obtain ⟨ms, hse, rfl⟩ := forceDeallocateTarget_cases hm h
      exact ⟨none, ms, hse, .refl⟩
  · exact sendMshr_cases hm h

theorem issuePrefetch_cases (h : issuePrefetch L env pkt s = .ok s') :
    ∃ pf, L.getPacket env.ext pkt s.pf = .ok pf ∧
      (s' = { s with pf := pf } ∨
        s.cache.findBlock (pkt.getBlockAddr p.blkSize) pkt.secure = none ∧
        ∃ pf' ms, (pkt.req.vaddr = none ∧ pf' = pf ∨ ∃ vaddr, pkt.req.vaddr = some vaddr ∧
            L.prefetchIssuedToPq env.ext (vaddr >>> 6) pkt.sourceSet pkt.sourceWay pf = .ok pf') ∧
          Joined s.cache.mshrs ms pkt ∧ s' = ({ s with pf := pf' } : CacheState p P).setMshrs ms) := by
  obtain ⟨s₁, hte, h⟩ := bind_eq_ok.mp h
  obtain ⟨pf, hpf, rfl⟩ := tell_cases hte
  refine ⟨pf, hpf, ?_⟩
  dsimp only at h
  split at h
  · exact .inl (eq_of_ok h)
  rename_i hm
  simp only [Bool.or_eq_true, not_or, not_isSome_iff_eq_none] at hm
  right
  refine ⟨hm.1.1, ?_⟩
  split at h
  · rename_i hv
    obtain ⟨ms, rfl, hj⟩ := allocateMissBuffer_cases h
    exact ⟨pf, ms, .inl ⟨hv, rfl⟩, hj, rfl⟩
  · rename_i vaddr hv
    obtain ⟨s₂, hto, h⟩ := bind_eq_ok.mp h
    obtain ⟨pf', hpf', rfl⟩ := tell_cases hto
    obtain ⟨ms, rfl, hj⟩ := allocateMissBuffer_cases h
    exact ⟨pf', ms, .inr ⟨vaddr, hv, hpf'⟩, hj, rfl⟩

/-! ### Responses -/

/-- The block that a fill goes to, and the cache before its bits are set. -/
inductive FillsInto (L : Listener p P τ ε) (env : CacheEnv p τ) (pkt : Packet)
    (s : CacheState p P) : BlkRef p → CacheState p P → Prop
  | found {ref : BlkRef p} (h : s.cache.findBlock pkt.addr pkt.secure = some ref) :
      FillsInto L env pkt s ref s
  | allocated {ref : BlkRef p} {s₁ : CacheState p P}
      (hnone : s.cache.findBlock pkt.addr pkt.secure = none)
      (h : allocateBlock L env pkt s = .ok (some ref, s₁)) : FillsInto L env pkt s ref s₁
  | temp (hnone : s.cache.findBlock pkt.addr pkt.secure = none)
      (hvalid : (s.cache.blk .temp).valid = false) :
      FillsInto L env pkt s .temp (s.setBlk .temp ((s.cache.blk .temp).insert pkt.addr pkt.secure))

/-- A fill that goes to `tempBlock` was not meant to allocate, or its victim has an MSHR. -/
def TempFill (env : CacheEnv p τ) (pkt : Packet) (allocate : Bool) (s : CacheState p P) : Prop :=
  allocate = false ∨
    (s.cache.blk (.tags (p.setOf pkt.addr) env.victim)).valid ∧
      (s.cache.findMatch (s.cache.blk (.tags (p.setOf pkt.addr) env.victim)).addr
        (s.cache.blk (.tags (p.setOf pkt.addr) env.victim)).secure).isSome

theorem useTempBlock_cases (hn : s.cache.findBlock pkt.addr pkt.secure = none)
    (h : useTempBlock pkt s = (.ok r : Except (CacheFault ε) _)) : FillsInto L env pkt s r.1 r.2 := by
  unfold useTempBlock at h
  split at h
  · cases h
  · rename_i hva
    cases h
    exact .temp hn (by simpa using hva)

theorem newBlock_cases (hn : s.cache.findBlock pkt.addr pkt.secure = none)
    (h : newBlock L env pkt allocate s = .ok r) :
    FillsInto L env pkt s r.1 r.2 ∧ (r.1 = .temp → TempFill env pkt allocate s) := by
  unfold newBlock at h
  split at h
  · rename_i ha
    exact ⟨useTempBlock_cases hn h, fun _ => .inl (by simpa using ha)⟩
  · obtain ⟨⟨blk, s₁⟩, ha, hr⟩ := bind_eq_ok.mp h
    rcases allocateBlock_cases ha with ⟨heq, b, rfl, hbu⟩ | ⟨s₂, hso, -⟩
    · cases heq
      exact ⟨useTempBlock_cases hn hr, fun _ => .inr hbu⟩
    · obtain rfl : blk = _ := hso
      cases hr
      exact ⟨.allocated hn ha, fun hte => by cases hte⟩

theorem blockToFill_cases
    (h : blockToFill L env pkt (s.cache.findBlock pkt.addr pkt.secure) allocate s = .ok r) :
    FillsInto L env pkt s r.1 r.2 ∧ (r.1 = .temp → TempFill env pkt allocate s) := by
  unfold blockToFill at h
  split at h
  · rename_i ref hf
    cases h
    refine ⟨.found hf, fun hte => ?_⟩
    obtain ⟨way, rfl, -⟩ := findBlock_spec hf
    cases hte
  · rename_i hn
    split at h
    · cases h
    · exact newBlock_cases hn h

theorem handleFill_cases
    (h : handleFill L env pkt (s.cache.findBlock pkt.addr pkt.secure) allocate s = .ok r) :
    pkt.addr = p.blkAlign pkt.addr ∧ (r.1 = .temp → TempFill env pkt allocate s) ∧
      ∃ s₁ b, FillsInto L env pkt s r.1 s₁ ∧ (s₁.cache.blk r.1).SameLine b ∧
        r.2 = s₁.setBlk r.1 b := by
  unfold handleFill at h
  dsimp only [throw, throwThe] at h
  split at h
  · cases h
  split at h
  · cases h
  rename_i hal
  obtain ⟨r₁, hbl, h⟩ := bind_eq_ok.mp h
  obtain ⟨hin, hte⟩ := blockToFill_cases hbl
  split at h
  · cases h
  · cases h
    refine ⟨not_not.mp hal, hte, r₁.2, _, hin, ?_, rfl⟩
    exact .refl _

def Mshr.isFill (m : Mshr) (pkt : Packet) : Bool :=
  !m.isForward && (pkt.isRead || pkt.cmd = .upgradeResp || m.wasWholeLineWrite) && !pkt.isError

theorem fill_cases {r : Option (BlkRef p) × CacheState p P} (h : fill L env m pkt s = .ok r) :
    (m.isFill pkt = false ∧ r = (s.cache.findBlock pkt.addr pkt.secure, s)) ∨
      m.isFill pkt = true ∧ ∃ ref s₁ b pf, r = (some ref, { s₁.setBlk ref b with pf := pf }) ∧
        pkt.addr = p.blkAlign pkt.addr ∧
        (ref = .temp → TempFill env pkt m.targets.flags.allocOnFill s) ∧
        FillsInto L env pkt s ref s₁ ∧ (s₁.cache.blk ref).SameLine b ∧
        L.notifyFill env.ext pkt s₁.pf = .ok pf := by
  unfold fill at h
  split at h
  · rename_i hf
    obtain ⟨⟨ref, s₂⟩, hha, h⟩ := bind_eq_ok.mp h
    obtain ⟨s₃, hte, rfl⟩ := bind_ok.mp h
    obtain ⟨pf, hpf, rfl⟩ := tell_cases hte
    obtain ⟨hal, htm, s₁, b, hin, hln, hse⟩ := handleFill_cases hha
    obtain rfl : s₂ = s₁.setBlk ref b := hse
    exact .inr ⟨hf, ref, s₁, b, pf, rfl, hal, htm, hin, hln, hpf⟩
  · rename_i hf
    exact .inl ⟨by simpa [isFill] using hf, eq_of_ok h⟩

theorem awaited_promote {m' : Mshr} {b : Option CacheBlk} (h : promote m pkt b = .ok m') :
    m'.awaited = m.awaited := by
  obtain ⟨m₁, hl, hw⟩ := bind_eq_ok.mp h
  trans m₁.awaited
  · unfold promoteIfWritable at hw
    split at hw
    · exact awaited_promoteWritable hw
    · rw [ok.inj hw]
  · unfold promoteAfterClean at hl
    split at hl
    · exact awaited_promoteReadable hl
    · rw [ok.inj hl]

theorem finishMshr_cases (h : finishMshr env i m blk s = (.ok s' : Except (CacheFault ε) _)) :
    ∃ ms, ((∃ m', ms = s.cache.mshrs.set i m' ∧ m'.awaited = m.awaited) ∨
        ms = s.cache.mshrs.eraseIdx i) ∧ Quiet L env blk (s.setMshrs ms) s' := by
  obtain ⟨⟨promoted, m₁⟩, hpr, h⟩ := bind_eq_ok.mp h
  have haw := awaited_promoteDeferredTargets (ofMshr_eq_ok.mp hpr)
  dsimp only at h
  split at h
  · obtain ⟨m₂, hpe, h⟩ := bind_eq_ok.mp h
    have haw₂ := (marks_markPending (ofMshr_eq_ok.mp hpe)).awaited
    refine ⟨_, .inl ⟨m₂, rfl, haw₂.trans haw⟩, ?_⟩
    split at h <;> cases h
    · exact .refl
    · exact .touch (.refl _)
  · obtain ⟨-, -, rfl⟩ := bind_ok.mp h
    exact ⟨_, .inr rfl, .refl⟩

/-- **What a response does**: it fills or finds a block (`fill`), the targets that are ready are
serviced from it one by one, and the MSHR goes on with the others. In between and afterwards the
block is changed quietly. -/
theorem recvTimingResp_cases (h : recvTimingResp L env i pkt s = .ok s') :
    s' = s ∨ ∃ (m m₁ m₂ : Mshr) (blk : Option (BlkRef p)) (ready : TargetList)
        (s₁ s₂ s₃ s₄ : CacheState p P) (isInvalidate : Bool), s.cache.mshrs[i]? = some m ∧
      fill L env m pkt s = .ok (blk, s₁) ∧ Quiet L env blk s₁ s₂ ∧ m₁.awaited = m.awaited ∧
      m₁.extractServiceableTargets pkt = .ok (ready, m₂) ∧
      ready.elems.foldlM (serviceTarget L env m₂ pkt blk isInvalidate) s₂ = .ok s₃ ∧
      Quiet L env blk s₃ s₄ ∧ ∃ ms, ((∃ m', ms = s₄.cache.mshrs.set i m' ∧ m'.awaited = m₂.awaited) ∨
        ms = s₄.cache.mshrs.eraseIdx i) ∧ Quiet L env blk (s₄.setMshrs ms) s' := by
  unfold recvTimingResp at h
  split at h
  · cases h
  split at h
  · split at h
    · exact .inl (eq_of_ok h)
    · cases h
  split at h
  · cases h
  rename_i m hm
  split at h
  · cases h
  obtain ⟨⟨blk, s₁⟩, hfi, h⟩ := bind_eq_ok.mp h
  obtain ⟨m₁, hpr, h⟩ := bind_eq_ok.mp h
  obtain ⟨⟨m₂, s₄⟩, hs, h⟩ := bind_eq_ok.mp h
  obtain ⟨s₅, hfn, hte⟩ := bind_eq_ok.mp h
  obtain ⟨⟨ready, m₃⟩, hex, hs⟩ := bind_eq_ok.mp hs
  obtain ⟨s₃, hlo, hs⟩ := bind_eq_ok.mp hs
  obtain ⟨s₃', hcl, hs⟩ := bind_eq_ok.mp hs
  obtain ⟨s₃'', hse, hs⟩ := bind_eq_ok.mp hs
  obtain ⟨rfl, rfl⟩ := Prod.mk.inj (ok.inj hs)
  obtain ⟨ms, hms, hqu⟩ := finishMshr_cases (L := L) hfn
  exact .inr ⟨m, m₁, m₃, blk, ready, s₁, _, s₃, s₃'', _, hm, hfi, restoreReadable_quiet,
    awaited_promote (ofMshr_eq_ok.mp hpr), ofMshr_eq_ok.mp hex, hlo,
    (maintainClusivity_quiet hcl).trans (settleBlock_quiet hse), ms, hms,
    hqu.trans (evictTemp_quiet hte)⟩

theorem serviceTarget_cases {t : Target}
    (h : serviceTarget L env m pkt blk isInvalidate s t = .ok s') :
    Quiet L env blk s s' ∨ t.source = .fromPrefetcher ∧ ∃ ref, blk = some ref ∧
      s' = s.setBlk ref (s.cache.blk ref).setPrefetched := by
  unfold serviceTarget at h
  split at h
  · exact .inl (serviceCpu_quiet h)
  · rename_i hso
    split at h
    · cases h
    split at h <;> cases h
    · exact .inl .refl
    · exact .inr ⟨hso, _, rfl, rfl⟩
  · split at h
    · cases h
    · exact .inl (handleSnoop_quiet h)

end Gem5.Mem
