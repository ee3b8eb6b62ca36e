import Gem5.Mem.Cache.CacheRuns
import Gem5.Mem.Cache.Prefetch.Base

/-!
# Gem5.Mem.Cache.Prefetch.Throttle

The **throttling of queued prefetchers** (`Queued::getMaxPermittedPrefetches`).

How many candidates of an access become prefetches depends on the share of the issued prefetches
that were useful. A prefetch is counted as issued when the cache takes its packet, and as useful
when an access finds the block marked as prefetched; the mark is set when the prefetch fills the
block and is meant to be cleared by the first access that uses it.

Every useful prefetch, every marked block and every prefetch on its way is paid for by an issued
one (`Paid`), as long as no access is counted without clearing the mark. A hit clears it. An access
that misses on a valid marked block — a write to a block that is not writable — does not, and can
be counted again and again (`useful_exceeds_issued`).
-/

namespace Gem5.Prefetch

open Gem5.Lib Gem5.Mem Cache CacheState Finset

/-- `Queued::getMaxPermittedPrefetches`, on 64-bit words. -/
def Queued.getMaxPermittedPrefetches (throttleControlPct : Nat) (k : Counters) (total : Nat) : Nat :=
  if total > 0 ∧ k.issuedPrefetches > 0 then
    let throttlePfs := total * throttleControlPct % 2 ^ 64 / 100
    let unthrottled := (total + 2 ^ 64 - throttlePfs) % 2 ^ 64
    let minPfs := if unthrottled = 0 then 1 else unthrottled
    let rest := (total + 2 ^ 64 - minPfs) % 2 ^ 64
    (minPfs + rest * k.usefulPrefetches % 2 ^ 64 / k.issuedPrefetches) % 2 ^ 64
  else total

/-- **An accuracy of at most one keeps the throttle within bounds.** -/
theorem Queued.getMaxPermittedPrefetches_bounds {throttleControlPct : Nat} {k : Counters}
    (hpc : throttleControlPct ≤ 100) (hk : k.usefulPrefetches ≤ k.issuedPrefetches) {total : Nat}
    (hto : 1 ≤ total) (hwor : total < 2 ^ 64) :
    1 ≤ getMaxPermittedPrefetches throttleControlPct k total ∧
      getMaxPermittedPrefetches throttleControlPct k total ≤ total := by
  unfold getMaxPermittedPrefetches
  split
  · have hth : total * throttleControlPct % 2 ^ 64 / 100 ≤ total := by
      refine Nat.div_le_of_le_mul ((Nat.mod_le _ _).trans ?_)
      rw [Nat.mul_comm 100]
      exact Nat.mul_le_mul_left _ hpc
    dsimp only
    generalize total * throttleControlPct % 2 ^ 64 / 100 = throttlePfs at hth ⊢
    generalize hmi : (if (total + 2 ^ 64 - throttlePfs) % 2 ^ 64 = 0 then 1
      else (total + 2 ^ 64 - throttlePfs) % 2 ^ 64) = minPfs
    have hbou : 1 ≤ minPfs ∧ minPfs ≤ total := by
      rw [← hmi]
      split <;> omega
    have hr : (total + 2 ^ 64 - minPfs) % 2 ^ 64 = total - minPfs := by omega
    rw [hr]
    have hsh : (total - minPfs) * k.usefulPrefetches % 2 ^ 64 / k.issuedPrefetches ≤
        total - minPfs := by
      refine Nat.div_le_of_le_mul ((Nat.mod_le _ _).trans ?_)
      rw [Nat.mul_comm k.issuedPrefetches]
      exact Nat.mul_le_mul_left _ hk
    generalize (total - minPfs) * k.usefulPrefetches % 2 ^ 64 / k.issuedPrefetches = share at hsh ⊢
    omega
  · exact ⟨hto, le_rfl⟩

/-! ### The cache and the counters -/

variable {p : CacheParams} {ms ms' : List Mshr} {m : Mshr} {i : Nat} {pkt : Packet} {c : Cache p}

/-- The counters of a prefetcher, listening to a cache. Which packets it issues is left open. -/
def counterListener (p : CacheParams) : Listener p Counters Unit ProbeFault where
  probeNotify _ c pkt _ k := k.probeNotify (c.hasBeenPrefetched pkt.addr pkt.secure) pkt
  notifyFill _ _ k := .ok k
  notifyInvalidate _ _ k := .ok k
  notifySquash _ _ k := .ok k
  getPacket _ _ k := .ok { k with issuedPrefetches := k.issuedPrefetches + 1 }
  prefetchIssuedToPq _ _ _ _ k := .ok k

/-- A cache never gets a hardware prefetch from above: `createMissPacket` turns those of the caches
above into reads. -/
def demandRequests (_ : CacheState p Counters) : CacheCall p Unit → Prop
  | .request _ pkt => pkt.cmd ≠ .hardPFReq
  | _ => True

instance (s : CacheState p Counters) (a : CacheCall p Unit) : Decidable (demandRequests s a) := by
  unfold demandRequests
  split <;> infer_instance

abbrev throttleSystem (p : CacheParams) :
    System (CacheState p Counters) (CacheCall p Unit) (CacheFault ProbeFault) :=
  (cacheSystem (counterListener p) (· = {})).restrict demandRequests

/-- A request that is counted and finds a marked block is satisfied by that block. -/
def markedHits (s : CacheState p Counters) : CacheCall p Unit → Prop
  | .request _ pkt => ignores pkt = true ∨ pkt.req.isUncacheable ∨
      ∀ ref ∈ s.cache.findBlock pkt.addr pkt.secure,
        (s.cache.blk ref).prefetched → (s.cache.blk ref).hits pkt = true
  | _ => True

instance (s : CacheState p Counters) (a : CacheCall p Unit) : Decidable (markedHits s a) := by
  unfold markedHits
  split <;> infer_instance

/-! ### Paying for what is marked -/

instance : Fintype (BlkRef p) :=
  Fintype.ofEquiv (Option (Fin p.numSets × Fin p.assoc)) {
    toFun := fun o => o.elim .temp fun sw => .tags sw.1 sw.2
    invFun := fun
      | .tags set way => some (set, way)
      | .temp => none
    left_inv := fun o => by cases o <;> rfl
    right_inv := fun r => by cases r <;> rfl }

def marked (c : Cache p) : Nat := ∑ ref : BlkRef p, (c.blk ref).prefetched.toNat

def prefetches (m : Mshr) : Nat := m.awaited.countP (·.source = .fromPrefetcher)

theorem countP_waiting (ts : List Target) :
    (waiting ts).countP (·.source = .fromPrefetcher) = ts.countP (·.source = .fromPrefetcher) := by
  rw [waiting, List.countP_map, List.countP_filter]
  refine List.countP_congr fun t _ => ?_
  cases hso : t.source <;> simp [Target.canon, hso]

/-- The prefetches on their way. -/
def pending (ms : List Mshr) : Nat := (ms.map prefetches).sum

theorem marked_setBlk (c : Cache p) (ref : BlkRef p) (b : CacheBlk) :
    marked (c.setBlk ref b) + (c.blk ref).prefetched.toNat = marked c + b.prefetched.toNat := by
  have hsp : ∀ c : Cache p, marked c = (c.blk ref).prefetched.toNat +
      ∑ r ∈ univ.erase ref, (c.blk r).prefetched.toNat :=
    fun c => (add_sum_erase _ _ (mem_univ ref)).symm
  have hres : ∑ r ∈ univ.erase ref, ((c.setBlk ref b).blk r).prefetched.toNat =
      ∑ r ∈ univ.erase ref, (c.blk r).prefetched.toNat :=
    sum_congr rfl fun r hr => by rw [setBlk_of_ne c b (ne_of_mem_erase hr)]
  rw [hsp, hsp c, setBlk_self]
  omega

theorem marked_mono {c' : Cache p} (h : ∀ ref, (c'.blk ref).prefetched → (c.blk ref).prefetched) :
    marked c' ≤ marked c := by
  refine sum_le_sum fun ref _ => ?_
  cases hc' : (c'.blk ref).prefetched <;> simp_all

theorem pending_append (ms : List Mshr) (m : Mshr) : pending (ms ++ [m]) = pending ms + prefetches m := by
  simp [pending]

theorem pending_eraseIdx (h : ms[i]? = some m) :
    pending (ms.eraseIdx i) + prefetches m = pending ms := by
  induction ms generalizing i with
  | nil => cases h
  | cons m₀ ms ih =>
    cases i with
    | zero =>
      cases h
      simp only [pending, List.eraseIdx_cons_zero, List.map_cons, List.sum_cons]
      omega
    | succ i =>
      have := ih (by simpa using h)
      simp only [pending, List.eraseIdx_cons_succ, List.map_cons, List.sum_cons] at this ⊢
      omega

theorem pending_set (h : ms[i]? = some m) (m' : Mshr) :
    pending (ms.set i m') + prefetches m = pending ms + prefetches m' := by
  have hm' : (ms.set i m')[i]? = some m' := by
    rw [List.getElem?_set_self', h]
    rfl
  have hold := pending_eraseIdx h
  have hne := pending_eraseIdx hm'
  rw [List.eraseIdx_set_eq] at hne
  omega

theorem pending_settled (h : Settled ms ms') : pending ms' ≤ pending ms := by
  rcases h with rfl | ⟨i, m, hm, ⟨m', rfl, hsu⟩ | rfl⟩
  · exact le_rfl
  · have hle : prefetches m' ≤ prefetches m := hsu.countP_le
    have := pending_set hm m'
    omega
  · have := pending_eraseIdx hm
    omega

/-- Only a hardware prefetch adds to the prefetches on their way. -/
theorem pending_joined (h : Joined ms ms' pkt) :
    pending ms' ≤ pending ms + 1 ∧ (pkt.cmd ≠ .hardPFReq → pending ms' = pending ms) := by
  rcases h with ⟨blkAddr, blkSize, whenReady, order, allocOnFill, tgt, m, hcm, ha, rfl⟩ |
    ⟨i, m, m', whenReady, order, allocOnFill, hm, had, rfl⟩
  · have hnw : prefetches m = if pkt.cmd = .hardPFReq then 1 else 0 := by
      unfold Mshr.allocate at ha
      split at ha
      · cases ha
      · cases ha
        rw [hcm]
        by_cases hpf : pkt.cmd = .hardPFReq <;>
          simp [prefetches, Mshr.awaited, Mshr.free, TargetList.add, waiting, Target.canon, hpf]
    rw [pending_append, hnw]
    split
    · rename_i hpf
      exact ⟨le_rfl, fun hn => absurd hpf hn⟩
    · exact ⟨by omega, fun _ => by omega⟩
  · have hsam : prefetches m' = prefetches m := by
      simp [prefetches, Mshr.awaited_allocateTarget had, waiting, Target.canon]
    have := pending_set hm m'
    exact ⟨by omega, fun _ => by omega⟩

/-- Every useful prefetch, every marked block and the `n` prefetches on their way have been
issued. -/
structure Paid (s : CacheState p Counters) (n : Nat) : Prop where
  distinct : s.cache.Distinct
  paid : s.pf.usefulPrefetches + marked s.cache + n ≤ s.pf.issuedPrefetches

namespace Paid

variable {s s' : CacheState p Counters} {n n' : Nat} {env : CacheEnv p Unit} {ref : BlkRef p}
  {blk : Option (BlkRef p)} {pkt : Packet}

section

variable (h : Paid s n)

include h

theorem mono (hn : n' ≤ n) : Paid s n' :=
  ⟨h.distinct, by have := h.paid; omega⟩

theorem setMshrs (ms : List Mshr) : Paid (s.setMshrs ms) n :=
  ⟨h.distinct, h.paid⟩

theorem setBlk {b : CacheBlk} (hdi : (s.cache.setBlk ref b).Distinct)
    (hmar : b.prefetched → (s.cache.blk ref).prefetched) : Paid (s.setBlk ref b) n := by
  refine ⟨hdi, ?_⟩
  have hpai := h.paid
  have hset := marked_setBlk s.cache ref b
  have hle : b.prefetched.toNat ≤ (s.cache.blk ref).prefetched.toNat := by
    cases hb : b.prefetched <;> simp_all
  have heq : marked (s.setBlk ref b).cache = marked (s.cache.setBlk ref b) := rfl
  have hpf : (s.setBlk ref b).pf = s.pf := rfl
  rw [hpf]
  omega

omit h in
theorem mark (h : Paid s (n + 1)) : Paid (s.setBlk ref (s.cache.blk ref).setPrefetched) n := by
  refine ⟨h.distinct.setBlk fun hv _ => ⟨hv, rfl, rfl⟩, ?_⟩
  have hpai := h.paid
  have hset := marked_setBlk s.cache ref (s.cache.blk ref).setPrefetched
  have hmar : (s.cache.blk ref).setPrefetched.prefetched.toNat = 1 := rfl
  show s.pf.usefulPrefetches + marked (s.cache.setBlk ref (s.cache.blk ref).setPrefetched) + n ≤
    s.pf.issuedPrefetches
  omega

theorem useMark (hma : (s.cache.blk ref).prefetched) : Paid (({ s with pf := { s.pf with
      usefulPrefetches := s.pf.usefulPrefetches + 1 } } : CacheState p Counters).clearPrefetched
        (some ref)) n := by
  refine ⟨h.distinct.setBlk fun hv _ => ⟨hv, rfl, rfl⟩, ?_⟩
  have hpai := h.paid
  have hse := marked_setBlk s.cache ref (s.cache.blk ref).clearPrefetched
  have hcle : (s.cache.blk ref).clearPrefetched.prefetched.toNat = 0 := rfl
  rw [hma, Bool.toNat_true] at hse
  show s.pf.usefulPrefetches + 1 + marked (s.cache.setBlk ref (s.cache.blk ref).clearPrefetched) +
    n ≤ s.pf.issuedPrefetches
  omega

theorem clearPrefetched : Paid (s.clearPrefetched blk) n := by
  cases blk with
  | none => exact h
  | some ref =>
    exact h.setBlk (h.distinct.setBlk fun hv _ => ⟨hv, rfl, rfl⟩) fun hm => by cases hm

theorem quiet (hq : Quiet (counterListener p) env blk s s') : Paid s' n := by
  have hp : s'.pf = s.pf := by
    induction hq with
    | refl => rfl
    | tail _ hmo ih =>
      rw [← ih]
      cases hmo with
      | touch => rfl
      | drop _ _ hin =>
        rcases (invalidateBlock_cases hin).2 with ⟨-, hp⟩ | ⟨-, -, hp⟩
        · exact hp
        · exact eq_of_ok hp
  refine ⟨hq.distinct h.distinct, ?_⟩
  have hmar : marked s'.cache ≤ marked s.cache := by
    refine marked_mono fun r hr => ?_
    rcases hq.frame.2 r with hln | ⟨-, hgo⟩
    · rw [← hln.2.2.2.2]
      exact hr
    · rw [hgo] at hr
      cases hr
  have hpai := h.paid
  rw [hp]
  omega

theorem allocateBlock {s₁ : CacheState p Counters}
    (hn : s.cache.findBlock pkt.addr pkt.secure = none)
    (hal : Gem5.Mem.allocateBlock (counterListener p) env pkt s = .ok (some ref, s₁)) :
    Paid s₁ n := by
  have hsp := allocateBlock_spec h.distinct hn hal
  rcases allocateBlock_cases hal with ⟨heq, -⟩ | ⟨s₀, hre, hqu, -, hin⟩
  · cases heq
  cases hre
  obtain ⟨b, rfl, -, -, -, hma, -⟩ := insertBlock_cases hin
  exact (h.quiet hqu).setBlk hsp.1 fun hb => hma ▸ hb

end

/-! ### Requests -/

variable {r : Accessed p Counters}

theorem access (h : Paid s n) (hr : Gem5.Mem.access (counterListener p) env pkt s = .ok r) :
    Paid r.state n ∧ r.state.cache.mshrs = s.cache.mshrs := by
  rcases (access_cases hr).2 with hf | hal
  · exact ⟨h.quiet hf.quiet, hf.quiet.frame.1⟩
  · obtain ⟨ref, s₁, ha, -, hq⟩ := hal.allocated
    have hsp := allocateBlock_spec h.distinct hal.absent ha
    exact ⟨(h.allocateBlock hal.absent ha).quiet hq, hq.frame.1.trans hsp.2.2⟩

theorem hit_blk (h : Paid s n) (hr : Gem5.Mem.access (counterListener p) env pkt s = .ok r)
    (hsa : r.satisfied) (hfi : r.state.cache.findBlock pkt.addr pkt.secure = some ref) :
    r.blk = some ref := by
  rcases (access_cases hr).2 with hf | hal
  · have hca : pkt.req.isUncacheable = false := by
      by_contra hu
      have := (hf.flushed (by simpa using hu)).1
      rw [hsa] at this
      cases this
    rw [hf.blk hca]
    exact (hf.quiet.findBlock h.distinct hfi).1
  · obtain ⟨ref', s₁, hao, hbl, hqu⟩ := hal.allocated
    have hsp := allocateBlock_spec h.distinct hal.absent hao
    rw [hbl, ← hsp.2.1]
    exact (hqu.findBlock hsp.1 hfi).1

theorem miss_marked (h : Paid s n) (hr : Gem5.Mem.access (counterListener p) env pkt s = .ok r)
    (hs : r.satisfied = false) (hma : pkt.req.isCacheMaintenance = false)
    (hfi : r.state.cache.findBlock pkt.addr pkt.secure = some ref) :
    pkt.req.isUncacheable = false ∧ s.cache.findBlock pkt.addr pkt.secure = some ref ∧
      (s.cache.blk ref).SameLine (r.state.cache.blk ref) ∧ (s.cache.blk ref).hits pkt = false := by
  rcases (access_cases hr).2 with hf | hal
  · obtain ⟨hol, hln⟩ := hf.quiet.findBlock h.distinct hfi
    have hc : pkt.req.isUncacheable = false := by
      by_contra hu
      have hg := (hf.flushed (by simpa using hu)).2.2 ref hol
      rw [findBlock_valid hfi] at hg
      cases hg
    exact ⟨hc, hol, hln, hf.missed hc hma hs ref hol⟩
  · rw [hal.satisfied] at hs
    cases hs

end Paid

theorem probeNotify_cases {k k' : Counters} {prefetched : Bool}
    (h : k.probeNotify prefetched pkt = .ok k') :
    k' = k ∨ ignores pkt = false ∧ prefetched = true ∧
      k' = { k with usefulPrefetches := k.usefulPrefetches + 1 } := by
  unfold Counters.probeNotify at h
  split at h
  · exact .inl (eq_of_ok h)
  rename_i hig
  split at h
  · cases h
  split at h
  · rename_i hpf
    exact .inr ⟨by simpa using hig, hpf, eq_of_ok h⟩
  · exact .inl (eq_of_ok h)

theorem hasBeenPrefetched_iff {addr : Nat} {secure : Bool} :
    c.hasBeenPrefetched addr secure = true ↔
      ∃ ref, c.findBlock addr secure = some ref ∧ (c.blk ref).prefetched := by
  unfold hasBeenPrefetched
  cases c.findBlock addr secure with
  | none => simp
  | some ref => simp

theorem promoteWholeLineWrites_hits (pkt : Packet) (b : CacheBlk) :
    b.hits (promoteWholeLineWrites p pkt) = b.hits pkt := by
  unfold promoteWholeLineWrites
  split
  · rename_i hcm
    simp only [CacheBlk.hits, CacheBlk.serves, Packet.isEviction, Packet.needsWritable, hcm.1]
    rfl
  · rfl

theorem promoteWholeLineWrites_ignores (pkt : Packet) :
    ignores (promoteWholeLineWrites p pkt) = ignores pkt := by
  unfold promoteWholeLineWrites
  split
  · rename_i hcm
    simp only [ignores, hcm.1]
    rfl
  · rfl

namespace Paid

variable {s s' : CacheState p Counters} {n : Nat} {env : CacheEnv p Unit}
  {blk : Option (BlkRef p)} {pkt : Packet} {r : Accessed p Counters}

section

variable (h : Paid s (pending s.cache.mshrs))

include h

theorem finishReq (hc : pkt.cmd ≠ .hardPFReq)
    (hhi : ignores pkt = false → pkt.req.isUncacheable = false →
      ∀ ref ∈ s.cache.findBlock pkt.addr pkt.secure,
        (s.cache.blk ref).prefetched → (s.cache.blk ref).hits pkt = true)
    (hr : Gem5.Mem.access (counterListener p) env pkt s = .ok r)
    (hi : Gem5.Mem.finishReq (counterListener p) env r = .ok s') :
    Paid s' (pending s'.cache.mshrs) := by
  obtain ⟨hp, hh⟩ := h.access hr
  obtain ⟨⟨hc', hre, had, hse⟩, -⟩ := access_cases hr
  have hig : ignores r.pkt = ignores pkt := by rw [ignores, hc', hre, ignores]
  unfold Gem5.Mem.finishReq at hi
  split at hi
  · rename_i hs
    obtain ⟨s₁, ht, hi⟩ := bind_eq_ok.mp hi
    obtain ⟨k, hpr, rfl⟩ := tell_cases ht
    cases hi
    have hh' : ∀ k, (({ r.state with pf := k } : CacheState p Counters).clearPrefetched
        r.blk).cache.mshrs = s.cache.mshrs := by
      intro k
      rw [← hh]
      cases r.blk <;> rfl
    rw [hh']
    rcases probeNotify_cases hpr with rfl | ⟨-, hpf, rfl⟩
    · exact hp.clearPrefetched
    · obtain ⟨ref, hf, hm⟩ := hasBeenPrefetched_iff.mp hpf
      rw [had, hse] at hf
      rw [h.hit_blk hr hs hf]
      exact hp.useMark hm
  · rename_i hs
    have hs : r.satisfied = false := by simpa using hs
    obtain ⟨s₂, hmi, ht⟩ := bind_eq_ok.mp hi
    obtain ⟨s₁, ms, hq, rfl, hms⟩ := handleTimingReqMiss_cases (L := counterListener p) hmi
    obtain ⟨k, hpr, rfl⟩ := tell_cases ht
    have hpe : pending ms = pending s.cache.mshrs := by
      rw [hh] at hms
      rcases hms with rfl | hjo
      · rfl
      · exact (pending_joined hjo).2 (hc' ▸ hc)
    have hp' : Paid (s₁.setMshrs ms) (pending ms) := by
      rw [hpe]
      exact (hp.quiet hq).setMshrs ms
    rcases probeNotify_cases hpr with rfl | ⟨hg, hpf, rfl⟩
    · exact hp'
    · -- The counted miss has found a marked block, which `hhi` excludes.
      rw [hig] at hg
      obtain ⟨ref, hf, hm⟩ := hasBeenPrefetched_iff.mp hpf
      rw [had, hse] at hf
      have hma : pkt.req.isCacheMaintenance = false := by
        simp only [ignores, Bool.or_eq_false_iff] at hg
        exact hg.2
      obtain ⟨hf', hln⟩ := hq.findBlock hp.distinct hf
      obtain ⟨hca, hol, hln', hn⟩ := h.miss_marked hr hs hma hf'
      have hm' : (s.cache.blk ref).prefetched := by
        rw [← hln'.2.2.2.2, ← hln.2.2.2.2]
        exact hm
      rw [hhi hg hca ref hol hm'] at hn
      cases hn

theorem request (hcm : pkt.cmd ≠ .hardPFReq) (hma : markedHits s (.request env pkt))
    (hs : recvTimingReq (counterListener p) env pkt s = .ok s') :
    Paid s' (pending s'.cache.mshrs) := by
  obtain ⟨hre, had, hse, hcm'⟩ := promoteWholeLineWrites_spec (p := p) pkt
  unfold recvTimingReq at hs
  dsimp only at hs
  split at hs
  · split at hs
    · cases hs
      exact h
    · cases hs
  · obtain ⟨r, hr, hfn⟩ := bind_eq_ok.mp hs
    refine h.finishReq (hcm' hcm) ?_ hr hfn
    rw [promoteWholeLineWrites_ignores, hre, had, hse]
    intro hi hca ref hf hmr
    rw [promoteWholeLineWrites_hits]
    rcases hma with hi' | hu | hhi
    · rw [hi] at hi'
      cases hi'
    · rw [hca] at hu
      cases hu
    · exact hhi ref hf hmr

/-! ### Responses -/

omit h in
theorem fill {s₁ : CacheState p Counters} (h : Paid s n)
    (hfl : Gem5.Mem.fill (counterListener p) env m pkt s = .ok (blk, s₁)) :
    Paid s₁ n ∧ s₁.cache.mshrs = s.cache.mshrs := by
  rcases fill_cases hfl with ⟨-, heq⟩ | ⟨-, ref, s₀, b, k, heq, -, -, hin, hln, hno⟩
  · obtain ⟨-, rfl⟩ := Prod.mk.inj heq
    exact ⟨h, rfl⟩
  obtain ⟨-, rfl⟩ := Prod.mk.inj heq
  cases hno
  have hpl : Paid s₀ n ∧ s₀.cache.mshrs = s.cache.mshrs := by
    cases hin with
    | found hfi => exact ⟨h, rfl⟩
    | allocated hn hal =>
      exact ⟨h.allocateBlock hn hal, (allocateBlock_spec h.distinct hn hal).2.2⟩
    | temp hn hval =>
      exact ⟨h.setBlk (h.distinct.setBlk fun _ hte => absurd rfl hte) id, rfl⟩
  have hq : Quiet (counterListener p) env (some ref) s₀ (s₀.setBlk ref b) := .touch hln
  exact ⟨hpl.1.quiet hq, hq.frame.1.trans hpl.2⟩

omit h in
theorem serviceTargets {isInvalidate : Bool} {ts : List Target}
    (h : Paid s (n + ts.countP (·.source = .fromPrefetcher)))
    (hl : ts.foldlM (serviceTarget (counterListener p) env m pkt blk isInvalidate) s = .ok s') :
    Paid s' n ∧ s'.cache.mshrs = s.cache.mshrs := by
  induction ts generalizing s with
  | nil =>
    cases hl
    exact ⟨h, rfl⟩
  | cons t ts ih =>
    obtain ⟨s₁, hsr, hl⟩ := bind_eq_ok.mp hl
    have hon : Paid s₁ (n + ts.countP (·.source = .fromPrefetcher)) ∧
        s₁.cache.mshrs = s.cache.mshrs := by
      rcases serviceTarget_cases hsr with hq | ⟨hso, ref, -, rfl⟩
      · refine ⟨(h.mono ?_).quiet hq, hq.frame.1⟩
        rw [List.countP_cons]
        omega
      · refine ⟨Paid.mark (h.mono ?_), rfl⟩
        rw [List.countP_cons, if_pos (by simp [hso])]
        omega
    obtain ⟨hpa, hms⟩ := ih hon.1 hl
    exact ⟨hpa, hms.trans hon.2⟩

theorem response (hst : recvTimingResp (counterListener p) env i pkt s = .ok s') :
    Paid s' (pending s'.cache.mshrs) := by
  rcases recvTimingResp_cases hst with rfl | ⟨m, m₁, m₂, blk, ready, s₁, s₂, s₃, s₄, isInvalidate,
    hm, hfi, hq₁, hpr, hex, hlo, hq₂, ms, hms, hq₃⟩
  · exact h
  obtain ⟨hp₁, hs₁⟩ := h.fill hfi
  have hcnt : prefetches m = ready.elems.countP (·.source = .fromPrefetcher) + prefetches m₂ := by
    rw [prefetches, ← hpr, ← Mshr.awaited_extractServiceableTargets hex,
      List.countP_append, countP_waiting, prefetches]
  have hoth := pending_eraseIdx hm
  obtain ⟨hp₃, hs₃⟩ := Paid.serviceTargets (n := pending (s.cache.mshrs.eraseIdx i) +
    prefetches m₂) ((hp₁.quiet hq₁).mono (by omega)) hlo
  have hs : s₄.cache.mshrs = s.cache.mshrs := hq₂.frame.1.trans (hs₃.trans (hq₁.frame.1.trans hs₁))
  rw [hq₃.frame.1]
  refine (((hp₃.quiet hq₂).mono ?_).setMshrs ms).quiet hq₃
  rw [hs] at hms
  rcases hms with ⟨m', rfl, haw⟩ | rfl
  · have hset := pending_set hm m'
    have hsam : prefetches m' = prefetches m₂ := by rw [prefetches, haw, prefetches]
    simp only [setMshrs_mshrs]
    omega
  · simp only [setMshrs_mshrs]
    omega

/-! ### Every call -/

theorem step {a : CacheCall p Unit} (hcm : demandRequests s a) (hma : markedHits s a)
    (hs : s.step (counterListener p) a = .ok s') : Paid s' (pending s'.cache.mshrs) := by
  cases a with
  | request env pkt => exact h.request hcm hma hs
  | response env i pkt => exact h.response hs
  | snoop env pkt =>
    obtain ⟨ms, hse, hq⟩ := recvTimingSnoopReq_cases hs
    rw [hq.frame.1]
    exact ((h.mono (pending_settled hse)).setMshrs ms).quiet hq
  | send env i upward accepted =>
    obtain ⟨blk, ms, hse, hq⟩ := sendMSHRQueuePacket_cases (L := counterListener p) hs
    rw [hq.frame.1]
    exact ((h.mono (pending_settled hse)).setMshrs ms).quiet hq
  | prefetch env pkt =>
    have hpai := h.paid
    obtain ⟨k, hge, hca⟩ := issuePrefetch_cases hs
    cases hge
    rcases hca with rfl | ⟨-, k', ms, hk', hjo, rfl⟩
    · exact ⟨h.distinct, by dsimp only; omega⟩
    · have hle := (pending_joined hjo).1
      have hsa : k' = { s.pf with issuedPrefetches := s.pf.issuedPrefetches + 1 } := by
        rcases hk' with ⟨-, rfl⟩ | ⟨vaddr, -, hk'⟩
        · rfl
        · exact eq_of_ok hk'
      subst hsa
      refine ⟨h.distinct, ?_⟩
      show s.pf.usefulPrefetches + marked s.cache + pending ms ≤ s.pf.issuedPrefetches + 1
      omega
  | starved env addr secure =>
    change recvTimingWouldHaveStarved (counterListener p) env addr secure s = .ok s' at hs
    unfold recvTimingWouldHaveStarved at hs
    split at hs
    · cases hs
      exact h
    · have hq := Quiet.drop (findBlock_valid ‹_›) hs
      rw [hq.frame.1]
      exact h.quiet hq
  | squash env pkt =>
    cases hs
    exact h

end

end Paid

theorem paid_empty (p : CacheParams) : Paid (⟨.empty p, {}⟩ : CacheState p Counters) 0 := by
  refine ⟨distinct_empty p, ?_⟩
  simp [marked, empty]

/-- **Throttling stays within bounds** in every run in which an access that is counted hits when it
finds a marked block. -/
theorem throttle_bounded {s : CacheState p Counters}
    (h : ((throttleSystem p).restrict markedHits).Reachable s) :
    s.pf.usefulPrefetches ≤ s.pf.issuedPrefetches ∧
      ∀ throttleControlPct ≤ 100, ∀ n, 1 ≤ n → n < 2 ^ 64 →
        1 ≤ Queued.getMaxPermittedPrefetches throttleControlPct s.pf n ∧
          Queued.getMaxPermittedPrefetches throttleControlPct s.pf n ≤ n := by
  have hpa : Paid s (pending s.cache.mshrs) := by
    refine h.invariant (fun s => Paid s (pending s.cache.mshrs)) ?_ ?_
    · rintro ⟨c, k⟩ ⟨hc, hk⟩
      obtain rfl : c = .empty p := hc
      obtain rfl : k = {} := hk
      exact paid_empty p
    · rintro s a s' hs ⟨⟨-, hcm⟩, hma⟩ hst
      exact hs.step hcm hma hst
  have hl : s.pf.usefulPrefetches ≤ s.pf.issuedPrefetches := by
    have := hpa.paid
    omega
  exact ⟨hl, fun pct hpc n hn hwo => Queued.getMaxPermittedPrefetches_bounds hpc hl hn hwo⟩

def oneBlock : CacheParams := { numSets := 1, assoc := 1, blkSize := 64, numSets_pos := by decide }

def oneBlockEnv : CacheEnv oneBlock Unit := { victim := ⟨0, by decide⟩, ext := () }

def blockZero (cmd : MemCmd) : Packet :=
  { cmd, req := { paddr := some 0, size := 8 }, size := 8 }

/-- A prefetch of the block at address 0, which arrives shared or not. -/
def prefetchZero (shared : Bool) : List (CacheCall oneBlock Unit) :=
  [.prefetch oneBlockEnv (blockZero .hardPFReq),
    .send oneBlockEnv 0 .miss (some false),
    .response oneBlockEnv 0 { blockZero .readResp with hasSharers := shared }]

/-- A useful prefetch is counted once when it is used by a read and by a write. -/
theorem throttle_bounded_useful_once :
    ∃ s : CacheState oneBlock Counters,
      ((throttleSystem oneBlock).restrict markedHits).Reachable s ∧
        s.pf = ⟨1, 1⟩ ∧ Queued.getMaxPermittedPrefetches 100 s.pf 10 ≤ 10 := by
  exact System.Reachable.exists_and_of_leads
    (prefetchZero false ++ [.request oneBlockEnv (blockZero .readReq),
      .request oneBlockEnv (blockZero .writeReq)])
    (s := ⟨.empty oneBlock, {}⟩) (.start ⟨rfl, rfl⟩) (by decide +kernel)
    fun s hs => ((throttle_bounded hs).2 100 (by decide) 10 (by decide) (by decide)).2

/-- **One prefetch is counted as useful by every write that misses on it**: the block arrived
shared, both writes wait for an upgrade, and nine candidates more than there are may be issued. -/
theorem useful_exceeds_issued :
    ∃ s : CacheState oneBlock Counters, (throttleSystem oneBlock).Reachable s ∧
      s.pf = ⟨1, 2⟩ ∧ Queued.getMaxPermittedPrefetches 100 s.pf 10 = 19 :=
  System.Reachable.exists_of_leads
    (prefetchZero true ++ [.request oneBlockEnv (blockZero .writeReq),
      .request oneBlockEnv (blockZero .writeReq)])
    (s := ⟨.empty oneBlock, {}⟩) (.start ⟨rfl, rfl⟩) (by decide +kernel)

end Gem5.Prefetch
