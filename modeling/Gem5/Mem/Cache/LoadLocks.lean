import Gem5.Lib.System
import Gem5.Mem.Access
import Gem5.Mem.Cache.Blk

/-!
# Gem5.Mem.Cache.LoadLocks

**Load-linked and store-conditional in a cache block** (`CacheBlk::Lock`, `trackLoadLocked`,
`clearLoadLocks` and `checkWrite` of `src/mem/cache/cache_blk.hh`, and
`BaseCache::satisfyRequest`).

A load-linked leaves a lock on its bytes. A write by another context that meets those bytes removes
the lock, and a store-conditional succeeds when its context has a lock that covers it. The invariant
is one sentence about each lock: its load-linked happened, and no other context has written to its
bytes since (`Guarded`).

Writes remove locks in `checkWrite`. A swap or an atomic operation writes the block without calling
it: the locks of other contexts survive (`storeCond_after_swap`).
-/

namespace Gem5.Mem

open Gem5.Lib Bool List

/-! ### Locks -/

structure Lock where
  contextId : Nat
  lowAddr : Nat
  highAddr : Nat
  deriving Repr, DecidableEq

namespace Access

/-- `req->getPaddr()` -/
def reqLow (x : Access) : Nat := x.pkt.req.paddr.getD 0

/-- `req_low + req->getSize() - 1`, in 64 bits -/
def reqHigh (x : Access) : Nat := (x.reqLow + x.pkt.req.size + (2 ^ 64 - 1)) % 2 ^ 64

/-- `Lock(req)`. -/
def lock (x : Access) : Lock := ⟨x.contextId, x.reqLow, x.reqHigh⟩

end Access

namespace Lock

def matchesReq (l : Lock) (x : Access) : Bool :=
  l.contextId = x.contextId && l.lowAddr ≤ x.reqLow && x.reqHigh ≤ l.highAddr

def intersects (l : Lock) (x : Access) : Bool := x.reqLow ≤ l.highAddr && l.lowAddr ≤ x.reqHigh

end Lock

def trackLoadLocked (locks : List Lock) (x : Access) : List Lock :=
  x.lock :: locks.filter fun l => !l.intersects x

def clearLoadLocks (locks : List Lock) (x : Access) : List Lock :=
  locks.filter fun l => !(l.intersects x && l.contextId ≠ x.contextId)

/-- `CacheBlk::checkWrite`: whether the write proceeds, and the locks. -/
def checkWrite (locks : List Lock) (x : Access) : Bool × List Lock :=
  if !x.pkt.isLLSC && locks.isEmpty then (true, locks)
  else if x.pkt.isLLSC then
    (locks.any (·.matchesReq x), clearLoadLocks (locks.eraseP (·.matchesReq x)) x)
  else (true, clearLoadLocks locks x)

/-! ### The block -/

structure LockedBlk where
  blk : CacheBlk
  data : Nat → UInt8
  lockList : List Lock

inductive LockFault
  | blk (e : BlkFault)
  /-- "Invalid size for conditional read/write" -/
  | swapSize
  deriving Repr, DecidableEq

/-- `BaseCache::satisfyRequest` on the data and the locks too: whether the data was written, and the
block. -/
def LockedBlk.satisfyRequest (blkSize : Nat) (b : LockedBlk) (x : Access) :
    Except LockFault (Bool × LockedBlk) :=
  let base := x.pkt.getOffset blkSize
  let compareHolds := x.compareHolds base b.data
  match baseSatisfyRequest blkSize b.blk { x.pkt with compareHolds := compareHolds } with
  | .error e => .error (.blk e)
  | .ok (blk, _) =>
    if x.pkt.cmd = .swapReq then
      if x.validSwap then
        .ok (x.overwrites base b.data, { b with blk := blk, data := x.swap base b.data })
      else .error .swapSize
    else if x.pkt.isWrite then
      let (ok, lockList) := checkWrite b.lockList x
      .ok (ok, ⟨blk, if ok then x.writeData base b.data else b.data, lockList⟩)
    else if x.pkt.isRead then
      .ok (false, { b with
        blk := blk
        lockList := if x.pkt.isLLSC then trackLoadLocked b.lockList x else b.lockList })
    else .ok (false, { b with blk := blk, lockList := if blk.valid then b.lockList else [] })

/-! ### Runs -/

/-- A block and the accesses that were satisfied from it, the newest first. -/
structure LockRun where
  blk : LockedBlk
  log : List AccessEvent

def LockRun.step (blkSize : Nat) (s : LockRun) (x : Access) : Except LockFault LockRun := do
  let (wrote, blk) ← s.blk.satisfyRequest blkSize x
  return ⟨blk, x.event wrote :: s.log⟩

/-- A load, load-linked, store, store-conditional or swap of some bytes of the block. -/
def OnBlock (blkSize : Nat) (s : LockRun) (x : Access) : Prop :=
  x.pkt.cmd ∈ [.readReq, .loadLockedReq, .writeReq, .writeLineReq, .storeCondReq, .swapReq] ∧
    x.pkt.getBlockAddr blkSize = s.blk.blk.addr ∧ x.pkt.req.paddr = some x.pkt.addr ∧
    x.pkt.req.size = x.pkt.size ∧ 0 < x.pkt.size ∧ x.pkt.addr + x.pkt.size ≤ 2 ^ 64

instance (blkSize : Nat) (s : LockRun) (x : Access) : Decidable (OnBlock blkSize s x) :=
  inferInstanceAs (Decidable (_ ∧ _))

/-- A resident writable block under accesses of any contexts. -/
abbrev lockSystem (blkSize : Nat) : System LockRun Access LockFault where
  init s := s.blk.blk.isWritable ∧ s.blk.lockList = [] ∧ s.log = []
  step := LockRun.step blkSize
  pre := OnBlock blkSize

def SwapsApart (blkSize : Nat) (s : LockRun) (x : Access) : Prop :=
  x.pkt.cmd = .swapReq → x.overwrites (x.pkt.getOffset blkSize) s.blk.data →
    ∀ l ∈ s.blk.lockList, l.contextId ≠ x.contextId → l.intersects x = false

instance (blkSize : Nat) (s : LockRun) (x : Access) : Decidable (SwapsApart blkSize s x) :=
  inferInstanceAs (Decidable (_ → _ → ∀ _ ∈ _, _ → _))

variable {blkSize : Nat} {s s' : LockRun} {x : Access} {b : LockedBlk} {wrote : Bool}

/-! ### What one access does to the data -/

theorem Access.overwrite_ne {base size i : Nat} {new mem : Nat → UInt8}
    (h : overwrite base size new mem i ≠ mem i) : base ≤ i ∧ i < base + size := by
  by_contra hn
  exact h (if_neg hn)

/-- **The bytes that change** are those of an access that is said to have written. -/
theorem LockedBlk.satisfyRequest_data {b' : LockedBlk} {i : Nat}
    (h : b.satisfyRequest blkSize x = .ok (wrote, b')) (hi : b'.data i ≠ b.data i) :
    wrote = true ∧ x.pkt.getOffset blkSize ≤ i ∧ i < x.pkt.getOffset blkSize + x.pkt.size := by
  unfold LockedBlk.satisfyRequest at h
  dsimp only at h
  split at h
  · cases h
  split at h
  · split at h
    · cases h
      dsimp only [Access.swap] at hi
      split at hi
      · rename_i hat
        exact ⟨by simp [Access.overwrites, hat], Access.overwrite_ne hi⟩
      split at hi
      · rename_i hov
        exact ⟨hov, Access.overwrite_ne hi⟩
      · exact absurd rfl hi
    · cases h
  split at h
  · cases h
    dsimp only at hi
    split at hi
    · rename_i hok
      exact ⟨hok, Access.overwrite_ne hi⟩
    · exact absurd rfl hi
  split at h
  · cases h
    exact absurd rfl hi
  · cases h
    exact absurd rfl hi

theorem LockRun.step_data {i : Nat} (hon : OnBlock blkSize s x) (h : s.step blkSize x = .ok s')
    (hi : s'.blk.data i ≠ s.blk.data i) :
    ∃ e, s'.log = e :: s.log ∧ e.wrote ∧ e.Touches (s.blk.blk.addr + i) := by
  obtain ⟨⟨wrote, b⟩, hsa, rfl⟩ := bind_ok.mp h
  obtain ⟨hwr, hle, hlt⟩ := LockedBlk.satisfyRequest_data hsa hi
  have had : s.blk.blk.addr + x.pkt.getOffset blkSize = x.pkt.addr := by
    rw [← hon.2.1]
    exact Nat.sub_add_cancel (Nat.mod_le _ _)
  refine ⟨x.event wrote, rfl, hwr, ?_, ?_⟩
  · show x.pkt.addr ≤ _
    omega
  · show _ < x.pkt.addr + x.pkt.size
    omega

/-! ### What one access does to the locks -/

variable {l : Lock} {locks : List Lock}

theorem mem_clearLoadLocks (h : l ∈ clearLoadLocks locks x) :
    l ∈ locks ∧ (l.contextId ≠ x.contextId → l.intersects x = false) := by
  obtain ⟨hme, hke⟩ := mem_filter.mp h
  refine ⟨hme, fun hct => eq_false_iff.mpr fun hm => ?_⟩
  simp [hm, hct] at hke

theorem mem_checkWrite (h : l ∈ (checkWrite locks x).2) :
    l ∈ locks ∧ (l.contextId ≠ x.contextId → l.intersects x = false) := by
  unfold checkWrite at h
  split at h
  · rename_i hem
    rw [isEmpty_iff.mp (and_eq_true_iff.mp hem).2] at h
    cases h
  split at h
  · obtain ⟨hme, hap⟩ := mem_clearLoadLocks h
    exact ⟨mem_of_mem_eraseP hme, hap⟩
  · exact mem_clearLoadLocks h

theorem mem_lockList (hon : OnBlock blkSize s x) (hap : SwapsApart blkSize s x)
    (h : s.blk.satisfyRequest blkSize x = .ok (wrote, b)) (hl : l ∈ b.lockList) :
    (l ∈ s.blk.lockList ∧ (wrote = true → l.contextId ≠ x.contextId → l.intersects x = false)) ∨
      x.isLoadLocked ∧ l = x.lock := by
  unfold LockedBlk.satisfyRequest at h
  dsimp only at h
  split at h
  · cases h
  split at h
  · rename_i hsw
    split at h
    · cases h
      exact .inl ⟨hl, fun hwr => hap hsw hwr l hl⟩
    · cases h
  split at h
  · cases h
    obtain ⟨hme, hm⟩ := mem_checkWrite hl
    exact .inl ⟨hme, fun _ => hm⟩
  split at h
  · rename_i hntS hn hrd
    cases h
    split at hl
    · rename_i hll
      rcases mem_cons.mp hl with rfl | hl
      · refine .inr ⟨?_, rfl⟩
        have hcm := hon.1
        rw [Packet.isLLSC] at hll
        rw [Packet.isWrite] at hn
        rw [Access.isLoadLocked]
        revert hcm hll hn
        cases x.pkt.cmd <;> decide
      · exact .inl ⟨(mem_filter.mp hl).1, fun h => (by cases h)⟩
    · exact .inl ⟨hl, fun h => (by cases h)⟩
  · cases h
    split at hl
    · exact .inl ⟨hl, fun h => (by cases h)⟩
    · cases hl

/-! ### What a lock stands for -/

def Lock.Covers (l : Lock) (a : Nat) : Prop := l.lowAddr ≤ a ∧ a ≤ l.highAddr

/-- **The load-linked that left the lock happened, and no other context has written to its bytes
since.** -/
def Guarded (log : List AccessEvent) (l : Lock) : Prop :=
  Since (fun e => e.contextId ≠ l.contextId → e.wrote → ∀ a, e.Touches a → ¬l.Covers a)
    (fun e => e.linked ∧ e.contextId = l.contextId ∧ ∀ a, e.Touches a ↔ l.Covers a) log

section

variable (hon : OnBlock blkSize s x)
include hon

theorem OnBlock.bounds : x.reqLow = x.pkt.addr ∧ x.reqHigh + 1 = x.pkt.addr + x.pkt.size := by
  obtain ⟨-, -, hpa, hsz, hpos, hfit⟩ := hon
  have hl : x.reqLow = x.pkt.addr := by simp [Access.reqLow, hpa]
  refine ⟨hl, ?_⟩
  rw [Access.reqHigh, hl]
  omega

theorem OnBlock.not_covers (h : l.intersects x = false) {a : Nat} (ha : (x.event wrote).Touches a) :
    ¬l.Covers a := by
  obtain ⟨hlow, hhig⟩ := hon.bounds
  obtain ⟨hle, hlt⟩ : x.pkt.addr ≤ a ∧ a < x.pkt.addr + x.pkt.size := ha
  simp only [Lock.intersects, and_eq_false_iff, decide_eq_false_iff_not] at h
  rintro ⟨hl, hh⟩
  omega

theorem OnBlock.touches_iff (a : Nat) : (x.event wrote).Touches a ↔ x.lock.Covers a := by
  obtain ⟨hlow, hhig⟩ := hon.bounds
  show x.pkt.addr ≤ a ∧ a < x.pkt.addr + x.pkt.size ↔ x.reqLow ≤ a ∧ a ≤ x.reqHigh
  omega

end

theorem Guarded.step (hgu : ∀ l ∈ s.blk.lockList, Guarded s.log l)
    (hon : OnBlock blkSize s x) (hap : SwapsApart blkSize s x)
    (h : s.blk.satisfyRequest blkSize x = .ok (wrote, b)) (hl : l ∈ b.lockList) :
    Guarded (x.event wrote :: s.log) l := by
  rcases mem_lockList hon hap h hl with ⟨hme, hm⟩ | ⟨hli, rfl⟩
  · refine .later (fun hct hwr a ha => ?_) (hgu l hme)
    exact hon.not_covers (hm hwr (hct.symm)) ha
  · exact .now ⟨hli, rfl, hon.touches_iff⟩

theorem guarded_of_reachable (h : ((lockSystem blkSize).restrict (SwapsApart blkSize)).Reachable s) :
    ∀ l ∈ s.blk.lockList, Guarded s.log l := by
  refine h.invariant (fun s => ∀ l ∈ s.blk.lockList, Guarded s.log l) ?_ ?_
  · rintro s ⟨-, hem, -⟩ l hl
    rw [hem] at hl
    cases hl
  · rintro s x s' hgu ⟨hon, hap⟩ hst l hl
    obtain ⟨⟨wrote, b⟩, hsa, rfl⟩ := bind_ok.mp hst
    exact Guarded.step hgu hon hap hsa hl

/-! ### Store-conditionals -/

theorem exists_lock_of_storeCond (hsc : x.pkt.cmd = .storeCondReq)
    (h : s.blk.satisfyRequest blkSize x = .ok (true, b)) :
    ∃ l ∈ s.blk.lockList, l.matchesReq x = true := by
  unfold LockedBlk.satisfyRequest at h
  dsimp only at h
  split at h
  · cases h
  have hwr : x.pkt.isWrite := by rw [Packet.isWrite, hsc]; rfl
  have hll : x.pkt.isLLSC := by rw [Packet.isLLSC, hsc]; rfl
  rw [if_neg (by simp [hsc]), if_pos hwr] at h
  have hok : (checkWrite s.blk.lockList x).1 := (Prod.mk.inj (Except.ok.inj h)).1
  rw [checkWrite, if_neg (by simp [hll]), if_pos hll] at hok
  exact any_eq_true.mp hok

/-- **A store-conditional succeeds only under a load-linked that still holds.** In a run in which no
swap writes to the locked bytes of another context, a store-conditional that writes follows a
load-linked of its context, of a range of bytes that includes its own, since which no other context
has written to that range. -/
theorem storeCond_after_loadLocked
    (hs : ((lockSystem blkSize).restrict (SwapsApart blkSize)).Reachable s)
    (hon : OnBlock blkSize s x) (hsc : x.pkt.cmd = .storeCondReq)
    (hok : s.blk.satisfyRequest blkSize x = .ok (true, b)) :
    ∃ ll : AccessEvent, ll.linked ∧ ll.contextId = x.contextId ∧
      (∀ a, (x.event true).Touches a → ll.Touches a) ∧
      Since (fun e => e.contextId ≠ x.contextId → e.wrote →
        ∀ a, e.Touches a → ¬ll.Touches a) (fun e => e = ll) s.log := by
  obtain ⟨l, hl, hm⟩ := exists_lock_of_storeCond hsc hok
  simp only [Lock.matchesReq, and_eq_true, decide_eq_true_eq] at hm
  obtain ⟨⟨hct, hlo⟩, hhi⟩ := hm
  have hco : ∀ a, (x.event true).Touches a → l.Covers a := by
    intro a ha
    obtain ⟨hle, hg⟩ := (hon.touches_iff a).mp ha
    exact ⟨Nat.le_trans hlo hle, Nat.le_trans hg hhi⟩
  obtain ⟨ll, ⟨hli, hlc, hby⟩, hsi⟩ := (guarded_of_reachable hs l hl).exists_made
  refine ⟨ll, hli, hlc.trans hct, fun a ha => (hby a).mpr (hco a ha), ?_⟩
  refine hsi.imp (fun e hke hot hwr a ha hll => ?_) fun e he => he
  exact hke (hct ▸ hot) hwr a ha ((hby a).mp hll)

def accessOf (cmd : MemCmd) (contextId : Nat) : Access where
  contextId := contextId
  pkt := { cmd := cmd, size := 8, req := { paddr := some 0, size := 8 } }
  payload := fun _ => 1

def unlocked : LockRun :=
  ⟨⟨{ valid := true, readable := true, writable := true }, fun _ => 0, []⟩, []⟩

/-- Context 1 swaps, then context 0 links and stores. -/
theorem storeCond_after_loadLocked_swap_first :
    ∃ (s : LockRun) (b : LockedBlk), ((lockSystem 64).restrict (SwapsApart 64)).Reachable s ∧
      s.blk.satisfyRequest 64 (accessOf .storeCondReq 0) = .ok (true, b) ∧
      ∃ ll : AccessEvent, ll.linked ∧ ll.contextId = 0 ∧
        (∀ a, ((accessOf .storeCondReq 0).event true).Touches a → ll.Touches a) ∧
        Since (fun e => e.contextId ≠ 0 → e.wrote →
          ∀ a, e.Touches a → ¬ll.Touches a) (fun e => e = ll) s.log := by
  obtain ⟨s, hs, hon, hok⟩ := System.Reachable.exists_of_leads
    (S := (lockSystem 64).restrict (SwapsApart 64))
    (p := fun s => OnBlock 64 s (accessOf .storeCondReq 0) ∧
      Succeeds (fun r => r.1) (s.blk.satisfyRequest 64 (accessOf .storeCondReq 0)))
    [accessOf .swapReq 1, accessOf .loadLockedReq 0]
    (.start (s := unlocked) ⟨rfl, rfl, rfl⟩) (by decide +kernel)
  obtain ⟨⟨wrote, b⟩, hsa, hwr⟩ := hok.exists
  obtain rfl : wrote = true := hwr
  exact ⟨s, b, hs, hsa, storeCond_after_loadLocked hs hon rfl hsa⟩

/-- **A swap by another context goes unnoticed.** Context 0 links, context 1 swaps the same bytes,
and the store-conditional of context 0 succeeds. -/
theorem storeCond_after_swap :
    ∃ (s : LockRun) (b : LockedBlk), (lockSystem 64).Reachable s ∧
      OnBlock 64 s (accessOf .storeCondReq 0) ∧
      s.blk.satisfyRequest 64 (accessOf .storeCondReq 0) = .ok (true, b) ∧
      ¬∃ ll : AccessEvent, ll.linked ∧ ll.contextId = 0 ∧
        (∀ a, ((accessOf .storeCondReq 0).event true).Touches a → ll.Touches a) ∧
        Since (fun e => e.contextId ≠ 0 → e.wrote →
          ∀ a, e.Touches a → ¬ll.Touches a) (fun e => e = ll) s.log := by
  obtain ⟨s, hs, hlo, hon, hok⟩ := System.Reachable.exists_of_leads (S := lockSystem 64)
    (p := fun s => s.log = [⟨1, 0, 8, false, true⟩, ⟨0, 0, 8, true, false⟩] ∧
      OnBlock 64 s (accessOf .storeCondReq 0) ∧
      Succeeds (fun r => r.1) (s.blk.satisfyRequest 64 (accessOf .storeCondReq 0)))
    [accessOf .loadLockedReq 0, accessOf .swapReq 1]
    (.start (s := unlocked) ⟨rfl, rfl, rfl⟩) (by decide +kernel)
  obtain ⟨⟨wrote, b⟩, hsa, hwr⟩ := hok.exists
  obtain rfl : wrote = true := hwr
  refine ⟨s, b, hs, hon, hsa, ?_⟩
  rintro ⟨ll, hl, -, hco, hsi⟩
  rw [hlo] at hsi
  cases hsi with
  | now h =>
    rw [← h] at hl
    cases hl
  | later h _ =>
    have hto : ll.Touches 0 := hco 0 ⟨Nat.le_refl 0, by decide⟩
    exact h (by decide) rfl 0 ⟨Nat.le_refl 0, by decide⟩ hto

end Gem5.Mem
