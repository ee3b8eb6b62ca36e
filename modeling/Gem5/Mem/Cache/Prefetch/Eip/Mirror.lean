import Gem5.Mem.Cache.CacheRuns
import Gem5.Mem.Cache.Prefetch.Eip.PrefetcherSound
import Gem5.Mem.Cache.Prefetch.Eip.TimingSound

/-!
# Gem5.Mem.Cache.Prefetch.Eip.Mirror

The prefetcher keeps its own idea of what the instruction cache holds, the **timing cache**. It is
told of every fill and of every block that leaves the tags, and asserts at each access that a hit
is in the timing cache and a miss is not.

Both the tags and the timing cache are read as slots that hold virtual lines (`tagLine`,
`TimingTables.cached`). A block that is dropped frees the slot of its line in both, a block that is
filled takes a slot in both, and nothing else changes either, so the two hold the same lines
(`Mirrored`).

Three things break this. A fill for which no block can be allocated goes to `tempBlock`: it is
reported, but the tags never hold the line and dropping `tempBlock` is not reported. A block that is
being cleaned cannot be read: an access to it misses although it is there (`timing_cache_diverges`).
And the sets of the timing cache are those of the virtual lines: where a physical line has another
index, a set of the timing cache can be full when the set of the tags has room.
-/

namespace Gem5.Eip

open Gem5.Lib Gem5.Mem Gem5.Prefetch Function Cache Prefetcher Prod Packet

/-! ### The listener -/

/-- The instruction cache: 64 sets of 8 ways, with blocks of 64 bytes. -/
def l1i : CacheParams where
  numSets := 64
  assoc := 8
  blkSize := 64
  numSets_pos := by decide
  isReadOnly := true
  isIcache := true

/-- The assertions of the prefetcher and of what it calls. -/
inductive ProbeFault
  /-- `Base::probeNotify`: "Request must have a physical address" -/
  | noPaddr
  /-- `Request::getVaddr`: the request has no virtual address. -/
  | noVaddr
  | eip (e : Fault)
  deriving Repr, DecidableEq

/-- What the prefetcher reads besides its state: the cycle, and the memory its `PrefetchInfo` is
built in. -/
structure ProbeInput where
  cycle : Nat := 0
  raw : Uninit := {}

def ofFault {α : Type} : Except Fault α → Except ProbeFault α
  | .error e => .error (.eip e)
  | .ok a => .ok a

theorem ofFault_eq_ok {α : Type} {x : Except Fault α} {a : α} : ofFault x = .ok a ↔ x = .ok a := by
  cases x with
  | error e => simp [ofFault]
  | ok b => simp [ofFault]

/-- `Base::probeNotify` and `Queued::notify`: the prefetcher is trained with the access, if it is
one it observes. -/
def probeNotify (bp : BaseParams) (x : ProbeInput) (c : Cache l1i) (pkt : Packet) (miss : Bool)
    (pf : Prefetcher) : Except ProbeFault Prefetcher :=
  if ignores pkt then .ok pf
  else if pkt.req.paddr.isNone then .error .noPaddr
  else
    match bp.observed (c.hasBeenPrefetched pkt.addr pkt.secure) pkt miss x.raw with
    | none => .ok pf
    | some pfi => do
        let r ← ofFault (pf.calculatePrefetch x.cycle pfi)
        return r.1.clearPfmq

/-- The entangling prefetcher, listening to the instruction cache. The prefetch queue is not part of
its state; which packets it issues is left open. -/
def eipListener (bp : BaseParams) : Listener l1i Prefetcher ProbeInput ProbeFault where
  probeNotify := probeNotify bp
  notifyFill x pkt pf :=
    match pkt.req.vaddr with
    | none => .error .noVaddr
    | some vaddr => ofFault (pf.notifyFill x.cycle vaddr)
  notifyInvalidate _ vaddr pf := .ok (pf.notifyInvalidate vaddr)
  notifySquash _ pkt pf := .ok (pf.notifySquash (pkt.req.pc.getD 0) pkt.instrId)
  getPacket _ _ pf := .ok pf
  prefetchIssuedToPq x lineAddr sourceSet sourceWay pf :=
    ofFault (pf.prefetchIssuedToPq x.cycle lineAddr sourceSet sourceWay)

/-- The physical line, and the security state, of each virtual line. -/
structure LineMap where
  line : Nat → Nat × Bool
  injective : ∀ v w, v < 2 ^ 58 → w < 2 ^ 58 → line v = line w → v = w

/-- A line and its translation have the same index in a cache of 64 sets. -/
def LineMap.KeepsIndex (φ : LineMap) : Prop := ∀ v < 2 ^ 58, (φ.line v).1 % 64 = v % 64

def LineMap.Translates (φ : LineMap) (pkt : Packet) : Prop :=
  ∀ vaddr ∈ pkt.req.vaddr,
    vaddr < 2 ^ 64 ∧ φ.line (vaddr >>> log2BlockSize) = (pkt.addr / 64, pkt.secure)

instance (φ : LineMap) (pkt : Packet) : Decidable (φ.Translates pkt) :=
  inferInstanceAs (Decidable (∀ _ ∈ pkt.req.vaddr, _ ∧ _))

variable {bp : BaseParams} {φ : LineMap}

/-- Addresses are translated by `φ`, and an instruction cache is only read and maintained. -/
def Fetches (φ : LineMap) (_ : CacheState l1i Prefetcher) : CacheCall l1i ProbeInput → Prop
  | .request _ pkt => φ.Translates pkt ∧ (pkt.isRead ∨ pkt.req.isCacheMaintenance)
  | .response _ _ pkt => φ.Translates pkt
  | .prefetch _ pkt => φ.Translates pkt
  | _ => True

instance (s : CacheState l1i Prefetcher) : DecidablePred (Fetches φ s) := fun a => by
  cases a <;> dsimp only [Fetches] <;> infer_instance

abbrev eipSystem (bp : BaseParams) (φ : LineMap) :
    System (CacheState l1i Prefetcher) (CacheCall l1i ProbeInput) (CacheFault ProbeFault) :=
  (cacheSystem (eipListener bp) fun pf => ∃ cycle raw, pf = .init cycle raw).restrict (Fetches φ)

instance (env : CacheEnv l1i ProbeInput) (pkt : Packet) (allocate : Bool)
    (s : CacheState l1i Prefetcher) : Decidable (TempFill env pkt allocate s) :=
  inferInstanceAs (Decidable (_ ∨ _))

/-- An access that is reported and finds its block can use it, and a fill finds no block and gets
one of the tags. -/
def Regular (s : CacheState l1i Prefetcher) : CacheCall l1i ProbeInput → Prop
  | .request _ pkt => ignores pkt = true ∨ pkt.req.isUncacheable ∨
      ∀ ref ∈ s.cache.findBlock pkt.addr pkt.secure, (s.cache.blk ref).serves pkt = true
  | .response env i pkt => ∀ m ∈ s.cache.mshrs[i]?, m.isFill pkt = true →
      s.cache.findBlock pkt.addr pkt.secure = none ∧ ¬TempFill env pkt m.targets.flags.allocOnFill s
  | _ => True

instance (s : CacheState l1i Prefetcher) : DecidablePred (Regular s) := fun a => by
  cases a <;> dsimp only [Regular] <;> infer_instance

/-! ### The timing cache as slots -/

def TimingTables.cached (t : TimingTables) (a : Fin maxNumSet × Fin maxNumWay) : Option Nat :=
  t.lineOf (.cache a.1 a.2)

section Cached

variable {t t' : TimingTables} {v : Nat}

theorem exclusive_cached (h : Exclusive t.lineOf) : Exclusive t.cached := by
  intro a b k ha hb
  obtain ⟨hse, hwa⟩ := TimingSlot.cache.inj (h _ _ k ha hb)
  exact Prod.ext hse hwa

theorem cached_update {f : TimingSlot → Option Nat} {set : Fin maxNumSet} {way : Fin maxNumWay}
    {o : Option Nat} (hf : ∀ set way, f (.cache set way) = t.lineOf (.cache set way))
    (h : t'.lineOf = update f (.cache set way) o) : t'.cached = update t.cached (set, way) o := by
  funext a
  rcases eq_or_ne a (set, way) with rfl | hn
  · rw [TimingTables.cached, h, update_self, update_self]
  · have hsl : (.cache a.1 a.2 : TimingSlot) ≠ .cache set way := by
      intro heq
      obtain ⟨hse, hwa⟩ := TimingSlot.cache.inj heq
      exact hn (Prod.ext hse hwa)
    rw [TimingTables.cached, h, update_of_ne hsl, update_of_ne hn, hf]
    rfl

theorem cached_congr (h : ∀ set way, t'.lineOf (.cache set way) = t.lineOf (.cache set way)) :
    t'.cached = t.cached :=
  funext fun a => h a.1 a.2

theorem find_iff_held (hv : v < 2 ^ 58) :
    l1iFindTimingCacheEntry t v < maxNumWay ↔ Held t.cached v := by
  constructor
  · intro hf
    exact ⟨(setOf v, ⟨_, hf⟩), lineOf_of_findCache hv hf⟩
  · rintro ⟨⟨set, way⟩, hln⟩
    exact findCache_of_lineOf hv hln

theorem cached_of_full (hno : ¬∃ j, l1iGetInvalidTimingCacheEntry t v = .ok j) (w : Fin maxNumWay) :
    ∃ k, t.cached (setOf v, w) = some k ∧ k % 64 = v % 64 := by
  have hva : (t.cache (timingSet v) w).valid := by
    by_contra hiv
    refine hno ⟨_, if_pos (firstBelow_lt w.isLt ?_)⟩
    simpa using hiv
  refine ⟨maxNumSet * (t.cache (timingSet v) w).tag + timingSet v, if_pos hva, ?_⟩
  rw [maxNumSet, Nat.mul_add_mod]
  exact Nat.mod_mod v 64

theorem held_notifyInvalidate (h : Exclusive t.lineOf) (et : EntangledTable) (addr : Nat)
    (hv : addr >>> log2BlockSize < 2 ^ 58) (w : Nat) :
    Held (notifyInvalidate t et addr).1.cached w ↔
      Held t.cached w ∧ w ≠ addr >>> log2BlockSize := by
  have hl := lineOf_notifyInvalidate t et addr
  by_cases hf : l1iFindTimingCacheEntry t (addr >>> log2BlockSize) < maxNumWay
  · rw [dif_pos hf] at hl
    have hsl : t.cached (setOf (addr >>> log2BlockSize), ⟨_, hf⟩) =
        some (addr >>> log2BlockSize) := lineOf_of_findCache hv hf
    rw [cached_update (fun _ _ => rfl) hl]
    exact (exclusive_cached h).held_free hsl w
  · rw [dif_neg hf] at hl
    rw [cached_congr fun set way => congrFun hl _]
    refine ⟨fun hw => ⟨hw, ?_⟩, And.left⟩
    rintro rfl
    exact hf ((find_iff_held hv).mpr hw)

theorem held_move (hv : v < 2 ^ 58) (hok : l1iMoveTimingEntry t v = .ok t') (w : Nat) :
    Held t'.cached w ↔ Held t.cached w ∨ w = v := by
  obtain ⟨way, hfr, -, hln⟩ := lineOf_move hv hok
  have hsl : t.cached (setOf v, way) = none := hfr
  have hot : ∀ set way, (if hm : l1iFindTimingMshrEntry t v < l1iTimingMshrSize then
      update t.lineOf (.mshr ⟨_, hm⟩) none else t.lineOf) (.cache set way) =
        t.lineOf (.cache set way) := by
    intro set way
    split
    · rw [update_of_ne (by simp)]
    · rfl
  rw [cached_update hot hln]
  exact held_fill hsl v w

theorem cached_add {cycle sourceSet sourceWay : Nat} (hv : v < 2 ^ 58)
    (hok : l1iAddTimingEntry t cycle v sourceSet sourceWay = .ok t') : t'.cached = t.cached := by
  rcases l1iAddTimingEntry_cases hv hok with rfl | ⟨-, i, hln⟩
  · rfl
  · refine cached_congr fun set way => ?_
    rw [hln, update_of_ne (by simp)]

theorem cached_access (t : TimingTables) (v posHist : Nat) :
    (l1iAccessTimingEntry t v posHist).cached = t.cached :=
  cached_congr fun _ _ => congrFun (lineOf_access t v posHist) _

end Cached

/-! ### What the prefetcher does to the timing cache -/

namespace Prefetcher

variable {s s' : Prefetcher}

/-- The timing cache holds the same lines, and the tables stay exclusive. -/
def KeepsCached (s s' : Prefetcher) : Prop :=
  Exclusive s.timing.lineOf → Exclusive s'.timing.lineOf ∧ s'.timing.cached = s.timing.cached

theorem KeepsCached.of_eq (h : s'.timing = s.timing) : KeepsCached s s' :=
  fun hs => ⟨h ▸ hs, by rw [h]⟩

/-- **An access leaves the timing cache as it is.** -/
theorem calculatePrefetch_keeps {pfi : PrefetchInfo} {cycle : Nat}
    {r : Prefetcher × List AddrPriority × Nat} (hl : pfi.address >>> log2BlockSize < 2 ^ 58)
    (h : s.calculatePrefetch cycle pfi = .ok r) : KeepsCached s r.1 := by
  intro hs
  rcases calculatePrefetch_cases h with rfl | ⟨-, t, ha, hti⟩
  · exact ⟨hs, rfl⟩
  · rw [hti, lineOf_access, cached_access]
    rcases ha with rfl | ha
    · exact ⟨hs, rfl⟩
    · exact ⟨exclusive_add hs hl ha, cached_add hl ha⟩

end Prefetcher

/-! ### The tags as slots -/

def tagLine (c : Cache l1i) (a : Fin l1i.numSets × Fin l1i.assoc) : Option Nat :=
  let b := c.blk (.tags a.1 a.2)
  if b.valid then some (b.vaddr >>> log2BlockSize) else none

/-- A valid entry holds the translation of its virtual address, and sits in its set. -/
structure TagOk (φ : LineMap) (set : Fin l1i.numSets) (b : CacheBlk) : Prop where
  vaddr_lt : b.vaddr < 2 ^ 64
  translated : φ.line (b.vaddr >>> log2BlockSize) = (b.addr / 64, b.secure)
  aligned : l1i.blkAlign b.addr = b.addr
  set_eq : l1i.setOf b.addr = set

/-- The tags hold translated lines, none of them twice. -/
structure Tagged (φ : LineMap) (c : Cache l1i) : Prop where
  distinct : c.Distinct
  ok : ∀ set way, (c.blk (.tags set way)).valid → TagOk φ set (c.blk (.tags set way))

theorem shiftRight_lt {vaddr : Nat} (h : vaddr < 2 ^ 64) : vaddr >>> log2BlockSize < 2 ^ 58 := by
  rw [log2BlockSize]
  omega

theorem blkAlign_l1i (addr : Nat) : l1i.blkAlign addr = addr - addr % 64 := rfl

theorem setOf_l1i {addr addr' : Nat} (h : addr / 64 = addr' / 64) :
    l1i.setOf addr = l1i.setOf addr' :=
  Fin.ext (show addr / 64 % 64 = addr' / 64 % 64 by rw [h])

section Tags

variable {c : Cache l1i} {set : Fin l1i.numSets} {way : Fin l1i.assoc} {v addr : Nat} {secure : Bool}

theorem tagLine_eq_some :
    tagLine c (set, way) = some v ↔ (c.blk (.tags set way)).valid ∧
      (c.blk (.tags set way)).vaddr >>> log2BlockSize = v := by
  simp [tagLine]

theorem Tagged.exclusive (h : Tagged φ c) : Exclusive (tagLine c) := by
  rintro ⟨set, way⟩ ⟨set', way'⟩ v ha hb
  obtain ⟨hv, hln⟩ := tagLine_eq_some.mp ha
  obtain ⟨hv', hln'⟩ := tagLine_eq_some.mp hb
  have ho := h.ok set way hv
  have ho' := h.ok set' way' hv'
  have ht := ho.translated
  have ht' := ho'.translated
  rw [hln] at ht
  rw [hln', ht] at ht'
  obtain ⟨hdiv, hse⟩ := mk.inj ht'
  have had : (c.blk (.tags set way)).addr = (c.blk (.tags set' way')).addr := by
    have hal := ho.aligned
    have hal' := ho'.aligned
    rw [blkAlign_l1i] at hal hal'
    omega
  obtain rfl : set = set' := by rw [← ho.set_eq, ← ho'.set_eq, had]
  rw [h.distinct set way way' hv hv' had hse]

/-- **A search of the tags finds the virtual lines they hold.** This is where two virtual lines
must not share a physical one. -/
theorem Tagged.findBlock_iff (h : Tagged φ c) (hv : v < 2 ^ 58)
    (hln : φ.line v = (addr / 64, secure)) :
    (c.findBlock addr secure).isSome ↔ Held (tagLine c) v := by
  constructor
  · intro hf
    obtain ⟨ref, hf⟩ := Option.isSome_iff_exists.mp hf
    obtain ⟨way, rfl, hma⟩ := findBlock_spec hf
    obtain ⟨ha, had, hs⟩ := matchTag_iff.mp hma
    have ho := h.ok _ way ha
    refine ⟨(l1i.setOf addr, way), tagLine_eq_some.mpr ⟨ha, ?_⟩⟩
    refine φ.injective _ _ (shiftRight_lt ho.vaddr_lt) hv ?_
    rw [ho.translated, hln, had, hs]
    rw [blkAlign_l1i, Prod.mk.injEq]
    exact ⟨by omega, rfl⟩
  · rintro ⟨⟨set, way⟩, hhe⟩
    obtain ⟨ha, rfl⟩ := tagLine_eq_some.mp hhe
    have ho := h.ok set way ha
    obtain ⟨hdi, hs⟩ := mk.inj (ho.translated.symm.trans hln)
    have hal := ho.aligned
    have hai : (c.blk (.tags set way)).addr = l1i.blkAlign addr := by
      rw [blkAlign_l1i] at hal ⊢
      omega
    have hse : l1i.setOf addr = set := (setOf_l1i hdi.symm).trans ho.set_eq
    subst hse
    rw [h.distinct.findBlock (matchTag_iff.mpr ⟨ha, hai, hs⟩)]
    rfl

theorem Tagged.set_of_tagLine (h : Tagged φ c) (hφ : φ.KeepsIndex)
    (hln : tagLine c (set, way) = some v) : set.val = v % 64 := by
  obtain ⟨ha, rfl⟩ := tagLine_eq_some.mp hln
  have ho := h.ok set way ha
  have hin := hφ _ (shiftRight_lt ho.vaddr_lt)
  rw [ho.translated] at hin
  exact (congrArg Fin.val ho.set_eq).symm.trans hin

/-- The entry keeps what identifies its line. -/
def SameTag (b b' : CacheBlk) : Prop :=
  b'.valid = b.valid ∧ b'.addr = b.addr ∧ b'.secure = b.secure ∧ b'.vaddr = b.vaddr

theorem SameTag.of_sameLine {b b' : CacheBlk} (h : b.SameLine b') : SameTag b b' :=
  ⟨h.1, h.2.1, h.2.2.1, h.2.2.2.1⟩

variable {b : CacheBlk} {ref : BlkRef l1i}

theorem Tagged.setBlk (h : Tagged φ c) (hb : SameTag (c.blk ref) b) :
    Tagged φ (c.setBlk ref b) where
  distinct := h.distinct.setBlk fun hv _ => ⟨hb.1 ▸ hv, hb.2.1, hb.2.2.1⟩
  ok set way hv := by
    rcases eq_or_ne (.tags set way) ref with rfl | hn
    · rw [setBlk_self] at hv ⊢
      obtain ⟨hvl, had, hse, hva⟩ := hb
      obtain ⟨hlt, htr, hal, hst⟩ := h.ok set way (hvl ▸ hv)
      exact ⟨hva ▸ hlt, by rw [hva, had, hse, htr], by rw [had, hal], by rw [had, hst]⟩
    · rw [setBlk_of_ne c b hn] at hv ⊢
      exact h.ok set way hv

theorem Tagged.drop (h : Tagged φ c) (ref : BlkRef l1i) :
    Tagged φ (c.setBlk ref (c.blk ref).invalidate) where
  distinct := h.distinct.setBlk fun hv _ => by cases hv
  ok set way hv := by
    rcases eq_or_ne (.tags set way) ref with rfl | hn
    · rw [setBlk_self] at hv
      cases hv
    · rw [setBlk_of_ne c _ hn] at hv ⊢
      exact h.ok set way hv

theorem Tagged.insert (h : Tagged φ c)
    (hdi : (c.setBlk (.tags set way) b).Distinct) (hb : TagOk φ set b) :
    Tagged φ (c.setBlk (.tags set way) b) where
  distinct := hdi
  ok set' way' hv := by
    rcases eq_or_ne (.tags set' way' : BlkRef l1i) (.tags set way) with heq | hn
    · obtain ⟨rfl, rfl⟩ := BlkRef.tags.inj heq
      rw [setBlk_self]
      exact hb
    · rw [setBlk_of_ne c b hn] at hv ⊢
      exact h.ok set' way' hv

theorem tagLine_setBlk_temp (c : Cache l1i) (b : CacheBlk) :
    tagLine (c.setBlk .temp b) = tagLine c := by
  funext a
  rw [tagLine, setBlk_of_ne c b (by simp), tagLine]

theorem tagLine_setBlk (c : Cache l1i) (set : Fin l1i.numSets) (way : Fin l1i.assoc)
    (b : CacheBlk) : tagLine (c.setBlk (.tags set way) b) = update (tagLine c) (set, way)
      (if b.valid then some (b.vaddr >>> log2BlockSize) else none) := by
  funext a
  rcases eq_or_ne a (set, way) with rfl | hn
  · rw [tagLine, setBlk_self, update_self]
  · have hre : (.tags a.1 a.2 : BlkRef l1i) ≠ .tags set way := by
      intro heq
      obtain ⟨hse, hwa⟩ := BlkRef.tags.inj heq
      exact hn (Prod.ext hse hwa)
    rw [tagLine, setBlk_of_ne c b hre, update_of_ne hn, tagLine]

theorem tagLine_setBlk_same (hb : SameTag (c.blk ref) b) :
    tagLine (c.setBlk ref b) = tagLine c := by
  cases ref with
  | temp => exact tagLine_setBlk_temp c b
  | tags set way =>
    rw [tagLine_setBlk, hb.1, hb.2.2.2]
    exact update_eq_self (set, way) (tagLine c)

end Tags

/-! ### The two hold the same lines -/

structure Mirrored (φ : LineMap) (s : CacheState l1i Prefetcher) : Prop where
  tagged : Tagged φ s.cache
  exclusive : Exclusive s.pf.timing.lineOf
  mirror : ∀ v, Held s.pf.timing.cached v ↔ Held (tagLine s.cache) v

namespace Mirrored

variable {s s' : CacheState l1i Prefetcher} {env : CacheEnv l1i ProbeInput}
  {blk : Option (BlkRef l1i)} {pkt : Packet} {ref : BlkRef l1i}

section

variable (h : Mirrored φ s)

include h

theorem find_iff {v addr : Nat} {secure : Bool} (hv : v < 2 ^ 58)
    (hln : φ.line v = (addr / 64, secure)) :
    l1iFindTimingCacheEntry s.pf.timing v < maxNumWay ↔ (s.cache.findBlock addr secure).isSome := by
  rw [find_iff_held hv, h.mirror, h.tagged.findBlock_iff hv hln]

theorem setBlk {b : CacheBlk} (hb : SameTag (s.cache.blk ref) b) : Mirrored φ (s.setBlk ref b) where
  tagged := h.tagged.setBlk hb
  exclusive := h.exclusive
  mirror v := by
    show Held s.pf.timing.cached v ↔ Held (tagLine (s.cache.setBlk ref b)) v
    rw [tagLine_setBlk_same hb]
    exact h.mirror v

theorem setMshrs (ms : List Mshr) : Mirrored φ (s.setMshrs ms) :=
  ⟨⟨h.tagged.distinct, h.tagged.ok⟩, h.exclusive, h.mirror⟩

theorem setPf {pf : Prefetcher} (hpf : Prefetcher.KeepsCached s.pf pf) :
    Mirrored φ { s with pf := pf } := by
  obtain ⟨hex, hca⟩ := hpf h.exclusive
  refine ⟨h.tagged, hex, fun v => ?_⟩
  rw [hca]
  exact h.mirror v

theorem drop (hv : (s.cache.blk ref).valid)
    (hin : invalidateBlock (eipListener bp) env ref s = .ok s') : Mirrored φ s' := by
  obtain ⟨hc, hpf⟩ := invalidateBlock_cases hin
  have ht : Tagged φ s'.cache := hc ▸ h.tagged.drop ref
  cases ref with
  | temp =>
    have hs : s'.pf = s.pf := by
      rcases hpf with ⟨-, hs⟩ | ⟨hne, -⟩
      · exact hs
      · exact absurd rfl hne
    refine ⟨ht, hs ▸ h.exclusive, fun v => ?_⟩
    rw [hs, hc]
    exact h.mirror v
  | tags set way =>
    have hn : s.pf.notifyInvalidate (s.cache.blk (.tags set way)).vaddr = s'.pf := by
      rcases hpf with ⟨hte | hno, -⟩ | ⟨-, -, hn⟩
      · cases hte
      · cases hno
      · exact Except.ok.inj hn
    have hok := h.tagged.ok set way hv
    have hsl : tagLine s.cache (set, way) =
        some ((s.cache.blk (.tags set way)).vaddr >>> log2BlockSize) :=
      tagLine_eq_some.mpr ⟨hv, rfl⟩
    refine ⟨ht, ?_, fun v => ?_⟩
    · rw [← hn]
      exact exclusive_notifyInvalidate h.exclusive _ _
    · rw [← hn, hc, tagLine_setBlk]
      exact (held_notifyInvalidate h.exclusive _ _ (shiftRight_lt hok.vaddr_lt) v).trans
        ((and_congr_left' (h.mirror v)).trans (h.tagged.exclusive.held_free hsl v).symm)

theorem quiet (hqu : Quiet (eipListener bp) env blk s s') : Mirrored φ s' := by
  induction hqu with
  | refl => exact h
  | tail _ hmo ih =>
    cases hmo with
    | touch _ hln => exact ih.setBlk (.of_sameLine hln)
    | drop _ hva hin => exact ih.drop hva hin

end

end Mirrored

/-! ### Accesses -/

variable {pkt : Packet} {r : Accessed l1i Prefetcher} {env : CacheEnv l1i ProbeInput}
  {s : CacheState l1i Prefetcher} {pfi : PrefetchInfo} {raw : Uninit}

theorem observed_virtual {prefetched miss : Bool} (hbp : bp.useVirtualAddresses)
    (h : bp.observed prefetched pkt miss raw = some pfi) :
    ignores pkt = false ∧ bp.observeAccess prefetched pkt miss = true ∧
      ∃ vaddr, pkt.req.vaddr = some vaddr ∧ pfi = .ofPacket pkt vaddr miss raw := by
  unfold BaseParams.observed at h
  by_cases hc : (ignores pkt || !bp.observeAccess prefetched pkt miss)
  · rw [if_pos hc] at h
    cases h
  · rw [if_neg hc, if_pos hbp] at h
    obtain ⟨vaddr, hva, rfl⟩ := Option.map_eq_some_iff.mp h
    simp only [Bool.or_eq_true, not_or, Bool.not_eq_true, Bool.not_eq_false'] at hc
    exact ⟨hc.1, hc.2, vaddr, hva, rfl⟩

theorem cacheable_of_observeAccess {prefetched : Bool}
    (h : bp.observeAccess prefetched pkt true = true) : pkt.req.isUncacheable = false := by
  cases hun : pkt.req.isUncacheable with
  | false => rfl
  | true => simp [BaseParams.observeAccess, hun] at h

theorem read_cmd {cmd : MemCmd} (h : cmd.isRead) :
    cmd.isEviction = false ∧ cmd.isWriteback = false ∧ cmd ≠ .cleanEvict ∧ cmd ≠ .writeClean ∧
      (cmd.isLLSC && cmd.isWrite) = false := by
  revert h
  cases cmd <;> decide

theorem access_read_hit (hrd : pkt.isRead) (hma : pkt.req.isCacheMaintenance = false)
    (h : access (eipListener bp) env pkt s = .ok r) (hs : r.satisfied) :
    ∃ ref b, s.cache.findBlock pkt.addr pkt.secure = some ref ∧
      (s.cache.blk ref).SameLine b ∧ r.state = s.setBlk ref b := by
  obtain ⟨hev, hwb, hce, hwc, hsc⟩ := read_cmd hrd
  unfold access at h
  dsimp only at h
  split at h
  · split at h
    · rw [eq_of_ok h] at hs
      cases hs
    · obtain ⟨s₁, -, h⟩ := bind_eq_ok.mp h
      rw [eq_of_ok h] at hs
      cases hs
  rw [if_neg (by simp [hma]), if_neg (by simp [isEviction, hev]),
    if_neg (by simp [isWriteback, hwb])] at h
  unfold accessDemand at h
  split at h
  · rw [eq_of_ok h] at hs
    exact absurd hs (by simp [isLLSC, isWrite, hsc])
  rename_i ref hf
  split at h
  · obtain ⟨⟨pkt', s₁⟩, ht, h⟩ := bind_eq_ok.mp h
    obtain ⟨s₂, hcl, rfl⟩ := bind_ok.mp h
    rw [maintainClusivity_inclusive rfl] at hcl
    obtain rfl : s₁ = s₂ := Except.ok.inj hcl
    unfold satisfyFrom at ht
    split at ht
    · cases ht
    rename_i b pkt'' hre
    obtain ⟨hva, -, hln | ⟨-, hn⟩⟩ := satisfyRequest_cases hre
    · rw [if_pos (hln.1.trans hva)] at ht
      obtain ⟨-, rfl⟩ := mk.inj (Except.ok.inj ht)
      exact ⟨ref, b, hf, hln, rfl⟩
    · rw [hrd] at hn
      cases hn
  · rw [eq_of_ok h] at hs
    cases hs

theorem access_maintenance (hmai : pkt.req.isCacheMaintenance)
    (h : access (eipListener bp) env pkt s = .ok r) : r.satisfied = false := by
  unfold access at h
  dsimp only at h
  split at h
  · split at h
    · rw [eq_of_ok h]
    · obtain ⟨s₁, -, h⟩ := bind_eq_ok.mp h
      rw [eq_of_ok h]
  · rw [eq_of_ok h]

theorem access_fetch (hfe : pkt.isRead ∨ pkt.req.isCacheMaintenance)
    (h : access (eipListener bp) env (promoteWholeLineWrites l1i pkt) s = .ok r) :
    (promoteWholeLineWrites l1i pkt).SameRequest r.pkt ∧
      r.OnFound (eipListener bp) env s (promoteWholeLineWrites l1i pkt) := by
  obtain ⟨hsa, hf | hal⟩ := access_cases h
  · exact ⟨hsa, hf⟩
  · rcases hfe with hrd | hm
    · rw [promoteWholeLineWrites_read hrd] at hal
      obtain ⟨-, hwb, -, hwc, -⟩ := read_cmd hrd
      rcases hal.cmd with hc | hc
      · rw [isWriteback, hwb] at hc
        cases hc
      · exact absurd hc hwc
    · rw [← (promoteWholeLineWrites_spec pkt).1] at hm
      have hmi := access_maintenance hm h
      rw [hal.satisfied] at hmi
      cases hmi

theorem read_of_not_ignored {pkt' : Packet} (hfe : pkt.isRead ∨ pkt.req.isCacheMaintenance)
    (hs : (promoteWholeLineWrites l1i pkt).SameRequest pkt') (hig : ignores pkt' = false) :
    pkt.isRead ∧ pkt.req.isCacheMaintenance = false ∧ pkt.SameRequest pkt' := by
  have hm : pkt.req.isCacheMaintenance = false := by
    rw [← (promoteWholeLineWrites_spec pkt).1, ← hs.2.1]
    simp only [ignores, Bool.or_eq_false_iff] at hig
    exact hig.2
  have hrd := hfe.resolve_right (by simp [hm])
  rw [promoteWholeLineWrites_read hrd] at hs
  exact ⟨hrd, hm, hs⟩

/-- The accesses that `recvTimingReq` reports to the prefetcher: the state it is in then, the
packet, and whether it missed. -/
inductive Reports (bp : BaseParams) (env : CacheEnv l1i ProbeInput) (pkt : Packet)
    (s : CacheState l1i Prefetcher) : CacheState l1i Prefetcher → Packet → Bool → Prop
  | hit {r : Accessed l1i Prefetcher}
      (h : access (eipListener bp) env (promoteWholeLineWrites l1i pkt) s = .ok r)
      (hsat : r.satisfied) : Reports bp env pkt s r.state r.pkt false
  | miss {r : Accessed l1i Prefetcher} {s₁ : CacheState l1i Prefetcher}
      (h : access (eipListener bp) env (promoteWholeLineWrites l1i pkt) s = .ok r)
      (hsat : r.satisfied = false)
      (hmiss : handleTimingReqMiss env r.blk r.pkt r.state =
        (.ok s₁ : Except (CacheFault ProbeFault) _)) : Reports bp env pkt s s₁ r.pkt true

namespace Mirrored

variable {s s' s₁ : CacheState l1i Prefetcher} {env : CacheEnv l1i ProbeInput}
  {blk : Option (BlkRef l1i)} {pkt : Packet} {miss : Bool}

section

variable (h : Mirrored φ s) {pkt' : Packet} {x : ProbeInput} {pf : Prefetcher} {m : Mshr}

include h

/-- **A reported access is checked in a state where tags and timing cache agree**, and unless it is
ignored it hits exactly when its block is in the tags. -/
theorem reports (hf : Fetches φ s (.request env pkt)) (hrg : Regular s (.request env pkt))
    (hrp : Reports bp env pkt s s' pkt' miss) :
    Mirrored φ s' ∧ φ.Translates pkt' ∧ (ignores pkt' = false →
      (miss = true → pkt'.req.isUncacheable = false) →
      (s'.cache.findBlock pkt'.addr pkt'.secure).isSome = !miss) := by
  obtain ⟨htr, hf⟩ := hf
  obtain ⟨hre, had, hse, -⟩ := promoteWholeLineWrites_spec pkt
  have ht : ∀ r : Accessed l1i Prefetcher,
      (promoteWholeLineWrites l1i pkt).SameRequest r.pkt → φ.Translates r.pkt := by
    rintro r ⟨-, hre', had', hse'⟩ vaddr hv
    rw [hre', hre] at hv
    rw [had', hse', had, hse]
    exact htr vaddr hv
  cases hrp with
  | @hit r ha hsa =>
    obtain ⟨hs, ho⟩ := access_fetch hf ha
    refine ⟨h.quiet ho.quiet, ht r hs, fun hi _ => ?_⟩
    obtain ⟨hr, hm, hp⟩ := read_of_not_ignored hf hs hi
    rw [hp.2.2.1, hp.2.2.2]
    rw [promoteWholeLineWrites_read hr] at ha
    obtain ⟨ref, b, hfi, hln, hst⟩ := access_read_hit hr hm ha hsa
    have haf : r.state.cache.findBlock pkt.addr pkt.secure = some ref := by
      rw [hst]
      exact h.tagged.distinct.findBlock_setBlk hfi hln
    rw [haf]
    rfl
  | @miss r _ ha hsa hms =>
    obtain ⟨hs, ho⟩ := access_fetch hf ha
    obtain ⟨s₁, ms, hq, rfl, -⟩ := handleTimingReqMiss_cases (L := eipListener bp) hms
    have hmi := h.quiet ho.quiet
    refine ⟨(hmi.quiet hq).setMshrs ms, ht r hs, fun hi hc => ?_⟩
    obtain ⟨hr, hm, hp⟩ := read_of_not_ignored hf hs hi
    have hc : pkt.req.isUncacheable = false := hp.2.1 ▸ hc rfl
    have hi' : ignores pkt = false := by rw [← hi, ignores, ignores, hp.1, hp.2.1]
    rw [hp.2.2.1, hp.2.2.2]
    rw [promoteWholeLineWrites_read hr] at ho
    have hn : s.cache.findBlock pkt.addr pkt.secure = none := by
      rcases hrg with hi'' | hu | hsr
      · rw [hi'] at hi''
        cases hi''
      · rw [hc] at hu
        cases hu
      · cases hfi : s.cache.findBlock pkt.addr pkt.secure with
        | none => rfl
        | some ref =>
          have hnt := ho.missed hc hm hsa ref hfi
          obtain ⟨hev, -, -, hwc, -⟩ := read_cmd hr
          rw [CacheBlk.hits, isEviction, hev, if_neg hwc, hsr ref hfi] at hnt
          cases hnt
    have hn₁ := ho.quiet.findBlock_none h.tagged.distinct hn
    have hn₂ := hq.findBlock_none hmi.tagged.distinct hn₁
    show (s₁.cache.findBlock pkt.addr pkt.secure).isSome = false
    rw [hn₂]
    rfl

theorem checks (hbp : bp.useVirtualAddresses) (hfe : Fetches φ s (.request env pkt))
    (hre : Regular s (.request env pkt)) (hrp : Reports bp env pkt s s' pkt' miss)
    {prefetched : Bool} (hob : bp.observed prefetched pkt' miss raw = some pfi) :
    s'.pf.checkTimingCache (pfi.address >>> log2BlockSize) (!pfi.cacheMiss) = .ok () := by
  obtain ⟨h', htr, hfo⟩ := h.reports hfe hre hrp
  obtain ⟨hig, hoe, vaddr, hva, rfl⟩ := observed_virtual hbp hob
  obtain ⟨hlt, hln⟩ := htr vaddr hva
  have hf := h'.find_iff (shiftRight_lt hlt) hln
  rw [hfo hig fun hmi => cacheable_of_observeAccess (hmi ▸ hoe)] at hf
  have hle : l1iFindTimingCacheEntry s'.pf.timing (vaddr >>> log2BlockSize) ≤ maxNumWay :=
    firstBelow_le _ _
  show s'.pf.checkTimingCache (vaddr >>> log2BlockSize) (!miss) = .ok ()
  unfold checkTimingCache
  cases miss with
  | true =>
    have hnot : ¬l1iFindTimingCacheEntry s'.pf.timing (vaddr >>> log2BlockSize) < maxNumWay :=
      fun hlt => by simpa using hf.mp hlt
    rw [if_neg (by rintro ⟨-, hne⟩; omega), if_neg (by simp)]
  | false => rw [if_neg (by simp), if_neg (by simpa using hf.mpr rfl)]

theorem probe (hbp : bp.useVirtualAddresses) (htr : φ.Translates pkt)
    (ho : probeNotify bp x s.cache pkt miss s.pf = .ok pf) : Mirrored φ { s with pf := pf } := by
  unfold probeNotify at ho
  split at ho
  · cases ho
    exact h
  split at ho
  · cases ho
  split at ho
  · cases ho
    exact h
  · rename_i pfi hob
    obtain ⟨-, -, vaddr, hva, rfl⟩ := observed_virtual hbp hob
    obtain ⟨r, hca, rfl⟩ := bind_ok.mp ho
    refine h.setPf ?_
    exact calculatePrefetch_keeps (shiftRight_lt (htr vaddr hva).1) (ofFault_eq_ok.mp hca)

theorem clearPrefetched : Mirrored φ (s.clearPrefetched blk) := by
  cases blk with
  | none => exact h
  | some ref => exact h.setBlk ⟨rfl, rfl, rfl, rfl⟩

theorem request (hbp : bp.useVirtualAddresses) (hfe : Fetches φ s (.request env pkt))
    (hr : Regular s (.request env pkt))
    (hs : recvTimingReq (eipListener bp) env pkt s = .ok s') : Mirrored φ s' := by
  unfold recvTimingReq at hs
  dsimp only at hs
  split at hs
  · split at hs
    · cases hs
      exact h
    · cases hs
  obtain ⟨r, hac, hf⟩ := bind_eq_ok.mp hs
  unfold finishReq at hf
  split at hf
  · rename_i hsa
    obtain ⟨h', htr, -⟩ := h.reports hfe hr (.hit hac hsa)
    obtain ⟨s₁, ht, hf⟩ := bind_eq_ok.mp hf
    obtain ⟨pf, hpr, rfl⟩ := tell_cases ht
    cases hf
    exact (h'.probe hbp htr hpr).clearPrefetched
  · rename_i hsa
    obtain ⟨s₁, hmi, ht⟩ := bind_eq_ok.mp hf
    obtain ⟨h', htr, -⟩ := h.reports hfe hr (.miss hac (by simpa using hsa) hmi)
    obtain ⟨pf, hpr, rfl⟩ := tell_cases ht
    exact h'.probe hbp htr hpr

/-! ### Fills -/

/-- **A line whose set of the tags has a free way has a free entry in the timing cache**: a full set
of the timing cache would hold as many lines as the set of the tags has ways, and the tags would hold
them all in that set. -/
theorem exists_invalid (hφ : φ.KeepsIndex) {v addr : Nat} {secure : Bool} (way : Fin l1i.assoc)
    (hv : v < 2 ^ 58) (hln : φ.line v = (addr / 64, secure))
    (hfr : tagLine s.cache (l1i.setOf addr, way) = none) :
    ∃ j, l1iGetInvalidTimingCacheEntry s.pf.timing v = .ok j := by
  have hset : (l1i.setOf addr).val = v % 64 := by
    rw [← hφ v hv, hln]
    rfl
  by_contra hno
  have hall := cached_of_full hno
  -- The way of the tags that holds the line of each entry.
  have hway : ∀ w : Fin maxNumWay, ∃ w' : Fin l1i.assoc,
      tagLine s.cache (l1i.setOf addr, w') = s.pf.timing.cached (setOf v, w) := by
    intro w
    obtain ⟨k, hk, hin⟩ := hall w
    obtain ⟨⟨set, w'⟩, hw'⟩ := (h.mirror k).mp ⟨_, hk⟩
    have hse : set = l1i.setOf addr :=
      Fin.ext ((h.tagged.set_of_tagLine hφ hw').trans (hin.trans hset.symm))
    exact ⟨w', by rw [← hse, hw', hk]⟩
  choose g hg using hway
  have hinj : Function.Injective (g : Fin 8 → Fin 8) := by
    intro w w' heq
    obtain ⟨k, hk, -⟩ := hall w
    have hk' : s.pf.timing.cached (setOf v, w') = some k := by
      rw [← hg w', ← show g w = g w' from heq, hg w, hk]
    exact (mk.inj (exclusive_cached h.exclusive _ _ k hk hk')).2
  obtain ⟨w, hw⟩ := Finite.surjective_of_injective hinj way
  obtain ⟨k, hk, -⟩ := hall w
  rw [← hg w, show g w = way from hw, hfr] at hk
  cases hk

/-- **A fill finds a free entry in the timing cache.** -/
theorem fill_exists_invalid (hφ : φ.KeepsIndex) (htr : φ.Translates pkt) {allocate : Bool}
    {ref : BlkRef l1i} (hn : s.cache.findBlock pkt.addr pkt.secure = none)
    (hnt : ¬TempFill env pkt allocate s) (hfi : handleFill (eipListener bp) env pkt
      (s.cache.findBlock pkt.addr pkt.secure) allocate s = .ok (ref, s₁)) {vaddr : Nat}
    (hva : pkt.req.vaddr = some vaddr) :
    ∃ j, l1iGetInvalidTimingCacheEntry s₁.pf.timing (vaddr >>> log2BlockSize) = .ok j := by
  obtain ⟨-, hte, s₂, b, hin, -, heq⟩ := handleFill_cases hfi
  obtain rfl : s₁ = s₂.setBlk ref b := heq
  obtain ⟨hlt, hln⟩ := htr vaddr hva
  cases hin with
  | found hf =>
    rw [hn] at hf
    cases hf
  | temp => exact absurd (hte rfl) hnt
  | allocated _ hall =>
    rcases allocateBlock_cases hall with ⟨heq, -⟩ | ⟨s₀, -, hq, hfr, hin⟩
    · cases heq
    obtain ⟨b', rfl, -⟩ := insertBlock_cases hin
    refine (h.quiet hq).exists_invalid hφ env.victim (shiftRight_lt hlt) hln ?_
    simp [tagLine, hfr]

theorem allocated {ref : BlkRef l1i} (htr : φ.Translates pkt)
    (hal : pkt.addr = l1i.blkAlign pkt.addr)
    (hn : s.cache.findBlock pkt.addr pkt.secure = none)
    (hall : allocateBlock (eipListener bp) env pkt s = .ok (some ref, s₁))
    (hnt : (eipListener bp).notifyFill x pkt s₁.pf = .ok pf) :
    Mirrored φ { s₁ with pf := pf } := by
  have hdi := (allocateBlock_spec h.tagged.distinct hn hall).1
  rcases allocateBlock_cases hall with ⟨heq, -⟩ | ⟨s₀, href, hq, hfr, hin⟩
  · cases heq
  -- The victim has gone: `s₀` is the cache with a free entry.
  have h₀ := h.quiet hq
  have hn₀ := hq.findBlock_none h.tagged.distinct hn
  obtain ⟨b, rfl, hva, ha, hse, -, hd⟩ := insertBlock_cases hin
  have hd : pkt.req.vaddr = some b.vaddr := hd rfl
  obtain ⟨hlt, hln⟩ := htr b.vaddr hd
  have hv := shiftRight_lt hlt
  rw [← hal] at ha
  have hm : l1iMoveTimingEntry s₀.pf.timing (b.vaddr >>> log2BlockSize) = .ok pf.timing := by
    simp only [eipListener, hd] at hnt
    exact (notifyFill_cases (ofFault_eq_ok.mp hnt)).1
  have hf : ¬l1iFindTimingCacheEntry s₀.pf.timing (b.vaddr >>> log2BlockSize) < maxNumWay := by
    rw [h₀.find_iff hv hln, hn₀]
    simp
  have hsl : tagLine s₀.cache (l1i.setOf pkt.addr, env.victim) = none := by
    simp [tagLine, hfr]
  refine ⟨h₀.tagged.insert hdi ?_, exclusive_move h₀.exclusive hv hf hm, fun w => ?_⟩
  · exact ⟨hlt, by rw [hln, ha, hse], by rw [ha, ← hal], by rw [ha]⟩
  · show Held pf.timing.cached w ↔ Held (tagLine (s₀.cache.setBlk _ b)) w
    rw [tagLine_setBlk, hva]
    exact (held_move hv hm w).trans ((or_congr_left (h₀.mirror w)).trans (held_fill hsl _ w).symm)

theorem fill (htr : φ.Translates pkt)
    (hre : m.isFill pkt = true → s.cache.findBlock pkt.addr pkt.secure = none ∧
      ¬TempFill env pkt m.targets.flags.allocOnFill s)
    (hfi : Gem5.Mem.fill (eipListener bp) env m pkt s = .ok (blk, s₁)) : Mirrored φ s₁ := by
  rcases fill_cases hfi with ⟨-, heq⟩ | ⟨his, ref, s₂, b, pf, heq, hal, hte, hin, hln, hno⟩
  · obtain ⟨-, rfl⟩ := mk.inj heq
    exact h
  obtain ⟨-, rfl⟩ := mk.inj heq
  obtain ⟨hn, hnt⟩ := hre his
  cases hin with
  | found hf =>
    rw [hn] at hf
    cases hf
  | temp => exact absurd (hte rfl) hnt
  | allocated _ hall =>
    exact (h.allocated htr hal hn hall hno).setBlk (.of_sameLine hln)

theorem serviceTargets {isInvalidate : Bool} {ts : List Target}
    (hlo : ts.foldlM (serviceTarget (eipListener bp) env m pkt blk isInvalidate) s = .ok s') :
    Mirrored φ s' := by
  refine Outcome.of_ok (Outcome.foldlM (Mirrored φ) (fun s t hs => ?_) ts h :
    Outcome (Mirrored φ) (fun _ => True) _) hlo
  cases hsr : serviceTarget (eipListener bp) env m pkt blk isInvalidate s t with
  | error e => trivial
  | ok s₁ =>
    rcases serviceTarget_cases hsr with hqu | ⟨-, ref, -, rfl⟩
    · exact hs.quiet hqu
    · exact hs.setBlk ⟨rfl, rfl, rfl, rfl⟩

theorem response {i : Nat} (htr : φ.Translates pkt) (hre : Regular s (.response env i pkt))
    (hst : recvTimingResp (eipListener bp) env i pkt s = .ok s') : Mirrored φ s' := by
  rcases recvTimingResp_cases hst with rfl | ⟨m, m₁, m₂, blk, ready, s₁, s₂, s₃, s₄, isInvalidate,
    hm, hfi, hq₁, -, -, hlo, hq₂, ms, -, hq₃⟩
  · exact h
  · have hfl := h.fill htr (hre m hm) hfi
    exact ((((hfl.quiet hq₁).serviceTargets hlo).quiet hq₂).setMshrs ms).quiet hq₃

/-! ### Every call -/

theorem step {a : CacheCall l1i ProbeInput} (hbp : bp.useVirtualAddresses)
    (hf : Fetches φ s a) (hr : Regular s a) (hs : s.step (eipListener bp) a = .ok s') :
    Mirrored φ s' := by
  cases a with
  | request env pkt => exact h.request hbp hf hr hs
  | response env i pkt => exact h.response hf hr hs
  | snoop env pkt =>
    obtain ⟨ms, -, hq⟩ := recvTimingSnoopReq_cases hs
    exact (h.setMshrs ms).quiet hq
  | send env i upward accepted =>
    obtain ⟨blk, ms, -, hq⟩ := sendMSHRQueuePacket_cases (L := eipListener bp) hs
    exact (h.setMshrs ms).quiet hq
  | prefetch env pkt =>
    obtain ⟨pf, hge, hca⟩ := issuePrefetch_cases hs
    cases hge
    rcases hca with rfl | ⟨-, pf', ms, his, -, rfl⟩
    · exact h
    · refine Mirrored.setMshrs (h.setPf ?_) ms
      rcases his with ⟨-, rfl⟩ | ⟨vaddr, hva, his⟩
      · exact .of_eq rfl
      · obtain ⟨t, had, rfl⟩ := bind_ok.mp (ofFault_eq_ok.mp his)
        have hv := shiftRight_lt (hf vaddr hva).1
        exact fun hex => ⟨exclusive_add hex hv had, cached_add hv had⟩
  | starved env addr secure =>
    change recvTimingWouldHaveStarved (eipListener bp) env addr secure s = .ok s' at hs
    unfold recvTimingWouldHaveStarved at hs
    split at hs
    · cases hs
      exact h
    · exact h.drop (findBlock_valid ‹_›) hs
  | squash env pkt =>
    cases hs
    refine h.setPf (.of_eq ?_)
    unfold notifySquash
    dsimp only
    split <;> rfl

end

theorem start (cycle : Nat) (raw : TimingTables) : Mirrored φ ⟨.empty l1i, .init cycle raw⟩ where
  tagged := ⟨distinct_empty l1i, fun _ _ hv => by cases hv⟩
  exclusive := by
    show Exclusive (l1iInitTimingTables raw).lineOf
    rw [lineOf_init]
    exact exclusive_empty
  mirror v := by
    constructor <;> rintro ⟨a, ha⟩ <;> cases ha

end Mirrored

/-- **The timing cache mirrors the instruction cache**, in every run whose steps are regular: a
line is valid in the timing cache exactly when the tags hold a valid block for it, and every access
that the cache reports passes the assertions at the top of `calculatePrefetch`. Where translation
keeps the index of a line, every fill that is reported finds a free entry. -/
theorem timing_cache_mirrors (hbp : bp.useVirtualAddresses)
    {s : CacheState l1i Prefetcher} (hs : ((eipSystem bp φ).restrict Regular).Reachable s) :
    (∀ v < 2 ^ 58, l1iFindTimingCacheEntry s.pf.timing v < maxNumWay ↔
      (s.cache.findBlock ((φ.line v).1 * 64) (φ.line v).2).isSome) ∧
    (∀ env pkt, ((eipSystem bp φ).restrict Regular).pre s (.request env pkt) →
      ∀ s' pkt' miss, Reports bp env pkt s s' pkt' miss → ∀ prefetched raw pfi,
        bp.observed prefetched pkt' miss raw = some pfi →
        s'.pf.checkTimingCache (pfi.address >>> log2BlockSize) (!pfi.cacheMiss) = .ok ()) ∧
    (φ.KeepsIndex → ∀ env i pkt, ((eipSystem bp φ).restrict Regular).pre s (.response env i pkt) →
      ∀ m ∈ s.cache.mshrs[i]?, m.isFill pkt → ∀ ref s', handleFill (eipListener bp) env pkt
          (s.cache.findBlock pkt.addr pkt.secure) m.targets.flags.allocOnFill s = .ok (ref, s') →
        ∀ vaddr ∈ pkt.req.vaddr,
          ∃ j, l1iGetInvalidTimingCacheEntry s'.pf.timing (vaddr >>> log2BlockSize) = .ok j) := by
  have hm : Mirrored φ s := by
    refine hs.invariant (Mirrored φ) ?_ ?_
    · rintro ⟨c, pf⟩ ⟨hc, cycle, raw, hpf⟩
      obtain rfl : c = .empty l1i := hc
      obtain rfl : pf = .init cycle raw := hpf
      exact .start cycle raw
    · rintro s a s' hs ⟨⟨-, hf⟩, hr⟩ hst
      exact hs.step hbp hf hr hst
  refine ⟨fun v hv => hm.find_iff hv ?_, ?_, ?_⟩
  · rw [Nat.mul_div_cancel _ (by decide)]
  · rintro env pkt ⟨⟨-, hf⟩, hr⟩ s' pkt' miss hre prefetched raw pfi hob
    exact hm.checks hbp hf hr hre hob
  · rintro hφ env i pkt ⟨⟨-, hf⟩, hr⟩ m hmi hfi ref s' hfl vaddr hva
    obtain ⟨hn, hnt⟩ := hr m hmi hfi
    exact hm.fill_exists_invalid hφ hf hn hnt hfl hva

/-! ### A line that is brought in by a prefetch and cleaned -/

/-- The parameters of `EIPPrefetcher`. -/
def eipParams : BaseParams := { useVirtualAddresses := true }

/-- Virtual and physical addresses are the same. -/
def LineMap.identity : LineMap where
  line v := (v, false)
  injective _ _ _ _ h := (Prod.mk.inj h).1

def envAt (cycle : Nat) : CacheEnv l1i ProbeInput :=
  { victim := ⟨0, by decide⟩, ext := { cycle } }

/-- The packets of the line at `0x1000`. -/
def packetOf (cmd : MemCmd) (flags : RequestFlags) : Packet where
  cmd := cmd
  req := { paddr := some 0x1000, vaddr := some 0x1000, size := 64, flags }
  addr := 0x1000
  size := 64

def prefetchCall : CacheCall l1i ProbeInput := .prefetch (envAt 10) (packetOf .hardPFReq {})

def sendCall : CacheCall l1i ProbeInput := .send (envAt 11) 0 .miss (some false)

def fillCall : CacheCall l1i ProbeInput := .response (envAt 19) 0 (packetOf .readResp {})

def cleanCall : CacheCall l1i ProbeInput :=
  .request (envAt 50) (packetOf .cleanSharedReq { clean := true })

def fetchCall : CacheCall l1i ProbeInput :=
  .request (envAt 60) (packetOf .readReq { instFetch := true })

def emptyState : CacheState l1i Prefetcher := ⟨.empty l1i, .init 0 .zero⟩

/-- The state after `prefetchCall`, with the entry of the timing table written out: the searches
of the later calls then compare its index with a literal. -/
def prefetched : CacheState l1i Prefetcher :=
  match emptyState.step (eipListener eipParams) prefetchCall with
  | .ok s => { s with pf := { s.pf with
      timing := emptyState.pf.timing.setMshr 0 ⟨true, 64, 0, 0, 10, false, 0⟩ } }
  | .error _ => emptyState

set_option maxRecDepth 10000 in
theorem reachable_prefetched :
    ((eipSystem eipParams .identity).restrict Regular).Reachable prefetched := by
  have hst : ((eipSystem eipParams .identity).restrict Regular).Reachable emptyState :=
    .start ⟨rfl, 0, .zero, rfl⟩
  exact hst.next (a := prefetchCall) (by decide +kernel) rfl

/-- The fill of the prefetch finds a free entry. The line is filled and read: it is in both tables. -/
theorem timing_cache_mirrors_prefetch :
    (∃ s, ((eipSystem eipParams .identity).restrict Regular).Reachable s ∧ ∃ ref s',
      handleFill (eipListener eipParams) (envAt 19) (packetOf .readResp {}) none true s =
        .ok (ref, s') ∧ ∃ j, l1iGetInvalidTimingCacheEntry s'.pf.timing 64 = .ok j) ∧
    ∃ s, ((eipSystem eipParams .identity).restrict Regular).Reachable s ∧
      (s.cache.findBlock 0x1000 false).isSome ∧
      l1iFindTimingCacheEntry s.pf.timing 64 < maxNumWay := by
  constructor
  · obtain ⟨s, hs, hpr, hno, hm, hfl⟩ := System.Reachable.exists_of_leads
      (S := (eipSystem eipParams .identity).restrict Regular)
      (p := fun s => ((eipSystem eipParams .identity).restrict Regular).pre s fillCall ∧
        s.cache.findBlock 0x1000 false = none ∧
        s.cache.mshrs[0]?.any (fun m => m.isFill (packetOf .readResp {}) &&
          m.targets.flags.allocOnFill) ∧
        Succeeds (fun _ => True)
          (handleFill (eipListener eipParams) (envAt 19) (packetOf .readResp {}) none true s))
      [sendCall] reachable_prefetched (by decide +kernel)
    obtain ⟨⟨ref, s'⟩, hfl, -⟩ := hfl.exists
    refine ⟨s, hs, ref, s', hfl, ?_⟩
    cases hms : s.cache.mshrs[0]? with
    | none => simp [hms] at hm
    | some m =>
      rw [hms, Option.any_some, Bool.and_eq_true] at hm
      refine (timing_cache_mirrors rfl hs).2.2 (fun _ _ => rfl) _ _ _ hpr m hms hm.1 ref s' ?_ 0x1000
        rfl
      rw [hm.2]
      exact hno ▸ hfl
  · obtain ⟨s, hs, hf⟩ := System.Reachable.exists_of_leads
      (S := (eipSystem eipParams .identity).restrict Regular)
      (p := fun s => (s.cache.findBlock 0x1000 false).isSome)
      [sendCall, fillCall, fetchCall] reachable_prefetched (by decide +kernel)
    exact ⟨s, hs, hf, ((timing_cache_mirrors rfl hs).1 64 (by decide)).mpr hf⟩

/-- **A fetch aborts the simulation while its line is being cleaned.** The block is valid and the
timing cache holds the line, but until the clean request is answered the block cannot be read: the
fetch is a miss, and a miss must not be in the timing cache. -/
theorem timing_cache_diverges :
    ∃ s, (eipSystem eipParams .identity).Reachable s ∧
      (s.cache.findBlock 0x1000 false).isSome ∧
      l1iFindTimingCacheEntry s.pf.timing 64 < maxNumWay ∧
      (eipSystem eipParams .identity).pre s fetchCall ∧
      Faults (.prefetcher (.eip .missInTimingCache)) (s.step (eipListener eipParams) fetchCall) :=
  System.Reachable.exists_of_leads [sendCall, fillCall, cleanCall] reachable_prefetched.of_restrict
    (by decide +kernel)

end Gem5.Eip
