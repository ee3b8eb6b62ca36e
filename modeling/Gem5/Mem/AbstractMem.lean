import Gem5.Lib.System
import Gem5.Mem.Access

/-!
# Gem5.Mem.AbstractMem

**Load-linked and store-conditional at memory** (`AbstractMemory` of `src/mem/abstract_mem.cc`).

A memory without caches above it keeps one record for each context: the granule of 16 bytes that the
context linked last. A store to an address removes the records of its granule, and a
store-conditional succeeds when its context has a record of its granule. The invariant says of each
record that it is of the last load-linked of its context, and that no other context has written to
its granule since (`LockedAddr.Holds`).

Two kinds of access write to a granule and keep its records: a swap, and a store that starts in the
granule before it (`storeCond_after_memory_swap`).
-/

namespace Gem5.Mem

open Gem5.Lib List Packet Access

/-! ### The memory -/

structure LockedAddr where
  addr : Nat
  contextId : Nat
  deriving Repr, DecidableEq

/-- `LockedAddr::mask`: the granule of an address. -/
def LockedAddr.mask (paddr : Nat) : Nat := paddr - paddr % 16

/-- `LockedAddr(req)`. -/
def Access.lockedAddr (x : Access) : LockedAddr :=
  ⟨LockedAddr.mask (x.pkt.req.paddr.getD 0), x.contextId⟩

/-- The bytes of a memory, by address, and its records. Without real memory (`null`) there are no
bytes. -/
structure AbstractMemory where
  /-- `AddrRange(addr, addr + size).isSubset(range)` -/
  inRange : Nat → Nat → Bool
  pmemAddr : Option (Nat → UInt8)
  lockedAddrList : List LockedAddr

inductive MemFault
  | outOfRange
  /-- "Swap only works if there is real memory" -/
  | noMemory
  /-- "Invalid size for conditional read/write" -/
  | swapSize
  | instFetch
  | readAndWrite
  | llscFromCache
  /-- "Unexpected packet" -/
  | unexpected
  deriving Repr, DecidableEq

namespace AbstractMemory

/-- The loop of `trackLoadLocked`: the record of the context gets the new address. -/
def updateRecord (new : LockedAddr) : List LockedAddr → Option (List LockedAddr)
  | [] => none
  | r :: rs =>
    if r.contextId = new.contextId then some ({ r with addr := new.addr } :: rs)
    else (updateRecord new rs).map (r :: ·)

def trackLoadLocked (records : List LockedAddr) (x : Access) : List LockedAddr :=
  (updateRecord x.lockedAddr records).getD (x.lockedAddr :: records)

def checkLockedAddrList (records : List LockedAddr) (x : Access) : Bool × List LockedAddr :=
  let allowStore := !x.pkt.isLLSC || records.any fun r => r = x.lockedAddr
  (allowStore,
    if allowStore then records.filter fun r => r.addr ≠ x.lockedAddr.addr else records)

def writeOK (records : List LockedAddr) (x : Access) : Bool × List LockedAddr :=
  if records.isEmpty then (!x.pkt.isLLSC, records) else checkLockedAddrList records x

/-- `AbstractMemory::access`: whether the access stored its data, and the memory. -/
def access (m : AbstractMemory) (x : Access) : Except MemFault (Bool × AbstractMemory) :=
  if x.pkt.cacheResponding then .ok (false, m)
  else if x.pkt.cmd = .cleanEvict ∨ x.pkt.cmd = .writebackClean then .ok (false, m)
  else if !m.inRange x.pkt.addr x.pkt.size then .error .outOfRange
  else if x.pkt.cmd = .swapReq then
    match m.pmemAddr with
    | none => if x.isAtomicOp then .ok (false, m) else .error .noMemory
    | some mem =>
      if !x.validSwap then .error .swapSize
      else if !x.isAtomicOp && x.pkt.req.isInstFetch then .error .instFetch
      else .ok (x.overwrites x.pkt.addr mem, { m with pmemAddr := some (x.swap x.pkt.addr mem) })
  else if x.pkt.isRead then
    if x.pkt.isWrite then .error .readAndWrite
    else if x.pkt.isLLSC then
      if x.pkt.fromCache then .error .llscFromCache
      else .ok (false, { m with lockedAddrList := trackLoadLocked m.lockedAddrList x })
    else .ok (false, m)
  else if x.pkt.isInvalidate || x.pkt.isClean then
    if x.pkt.isWrite then .error .readAndWrite else .ok (false, m)
  else if x.pkt.isWrite then
    let (ok, records) := writeOK m.lockedAddrList x
    if !ok then .ok (false, { m with lockedAddrList := records })
    else if x.pkt.req.isInstFetch then .error .instFetch
    else .ok (true, { m with
      pmemAddr := m.pmemAddr.map (x.writeData x.pkt.addr)
      lockedAddrList := records })
  else .error .unexpected

end AbstractMemory

/-! ### Runs -/

/-- A memory and the accesses that were performed on it, the newest first. -/
structure MemRun where
  mem : AbstractMemory
  log : List AccessEvent

def MemRun.step (s : MemRun) (x : Access) : Except MemFault MemRun := do
  let (wrote, mem) ← s.mem.access x
  return ⟨mem, x.event wrote :: s.log⟩

/-- The memory performs the access, and the address of the packet is that of its request. -/
def OnMemory (x : Access) : Prop :=
  x.pkt.cacheResponding = false ∧ x.pkt.req.paddr = some x.pkt.addr

def memSystem : System MemRun Access MemFault where
  init s := s.mem.lockedAddrList = [] ∧ s.log = []
  step := MemRun.step
  pre _ x := OnMemory x

def Access.TouchesGranule (x : Access) (g : Nat) : Prop :=
  x.pkt.addr < g + 16 ∧ g < x.pkt.addr + x.pkt.size

/-- Of the granules that another context has linked, a store touches only the one it starts in, and
a swap none. -/
def StoresApart (s : MemRun) (x : Access) : Prop :=
  x.pkt.isWrite → ∀ r ∈ s.mem.lockedAddrList, r.contextId ≠ x.contextId →
    x.TouchesGranule r.addr → x.pkt.cmd ≠ .swapReq ∧ r.addr = x.lockedAddr.addr

instance (s : MemRun) (x : Access) : Decidable (memSystem.pre s x) :=
  inferInstanceAs (Decidable (_ ∧ _))

instance (s : MemRun) (x : Access) : Decidable (StoresApart s x) :=
  inferInstanceAs (Decidable (_ → ∀ _ ∈ _, _ → _ ∧ _ → _))

variable {s : MemRun} {m m' : AbstractMemory} {x : Access} {wrote : Bool} {r new : LockedAddr}
  {records records' : List LockedAddr}

/-! ### What one access does to the records -/

theorem isLoadLocked_of_read (hrd : x.pkt.isRead) (hll : x.pkt.isLLSC)
    (hwr : ¬x.pkt.isWrite) (hc : ¬x.pkt.fromCache) : x.isLoadLocked := by
  rw [isRead] at hrd
  rw [isLLSC] at hll
  rw [isWrite] at hwr
  rw [fromCache] at hc
  rw [isLoadLocked]
  revert hrd hll hwr hc
  cases x.pkt.cmd <;> decide

/-- **The three things that an access can do to the records**: nothing, the record of a load-linked,
and the check of a store. -/
theorem AbstractMemory.access_cases (hon : OnMemory x) (h : m.access x = .ok (wrote, m')) :
    (x.isLoadLocked = false ∧ (wrote = true → x.pkt.cmd = .swapReq ∧ x.pkt.isWrite) ∧
        m'.lockedAddrList = m.lockedAddrList) ∨
      (x.isLoadLocked ∧ wrote = false ∧ m'.lockedAddrList = trackLoadLocked m.lockedAddrList x) ∨
      (x.isLoadLocked = false ∧ x.pkt.isWrite ∧
        writeOK m.lockedAddrList x = (wrote, m'.lockedAddrList)) := by
  have hq : x.isLoadLocked = false → wrote = false → m'.lockedAddrList = m.lockedAddrList →
      (x.isLoadLocked = false ∧ (wrote = true → x.pkt.cmd = .swapReq ∧ x.pkt.isWrite) ∧
        m'.lockedAddrList = m.lockedAddrList) := by
    rintro hl rfl hsa
    exact ⟨hl, fun h => (by cases h), hsa⟩
  unfold access at h
  rw [if_neg (by simp [hon.1])] at h
  rcases ite_eq_iff.mp h with ⟨hcl, ⟨⟩⟩ | ⟨-, h⟩
  · refine .inl (hq ?_ rfl rfl)
    rcases hcl with hcm | hcm <;> simp [isLoadLocked, hcm]
  obtain ⟨-, h⟩ := guard_eq_ok.mp h
  rcases ite_eq_iff.mp h with ⟨hsw, h⟩ | ⟨-, h⟩
  · have hl : x.isLoadLocked = false := by simp [isLoadLocked, hsw]
    have hw : x.pkt.isWrite := by rw [isWrite, hsw]; rfl
    cases hm : m.pmemAddr with
    | none =>
      rw [hm] at h
      obtain ⟨-, ⟨⟩⟩ | ⟨-, ⟨⟩⟩ := ite_eq_iff.mp h
      exact .inl (hq hl rfl rfl)
    | some mem =>
      rw [hm] at h
      obtain ⟨-, h⟩ := guard_eq_ok.mp h
      obtain ⟨-, ⟨⟩⟩ := guard_eq_ok.mp h
      exact .inl ⟨hl, fun _ => ⟨hsw, hw⟩, rfl⟩
  rcases ite_eq_iff.mp h with ⟨hrd, h⟩ | ⟨hrd, h⟩
  · obtain ⟨hw, h⟩ := guard_eq_ok.mp h
    rcases ite_eq_iff.mp h with ⟨hll, h⟩ | ⟨hll, ⟨⟩⟩
    · obtain ⟨hca, ⟨⟩⟩ := guard_eq_ok.mp h
      exact .inr (.inl ⟨isLoadLocked_of_read hrd hll hw hca, rfl, rfl⟩)
    · refine .inl (hq ?_ rfl rfl)
      exact Bool.eq_false_iff.mpr fun hl => hll (by
        rw [isLLSC, of_decide_eq_true hl]; rfl)
  have hl : x.isLoadLocked = false := Bool.eq_false_iff.mpr fun hl => hrd (by
    rw [isRead, of_decide_eq_true hl]; rfl)
  rcases ite_eq_iff.mp h with ⟨-, h⟩ | ⟨-, h⟩
  · obtain ⟨-, ⟨⟩⟩ := guard_eq_ok.mp h
    exact .inl (hq hl rfl rfl)
  obtain ⟨hw, h⟩ | ⟨-, ⟨⟩⟩ := ite_eq_iff.mp h
  refine .inr (.inr ⟨hl, hw, ?_⟩)
  obtain ⟨ok, records, hok⟩ : ∃ ok records, writeOK m.lockedAddrList x = (ok, records) :=
    ⟨_, _, rfl⟩
  rw [hok] at h ⊢
  rcases ite_eq_iff.mp h with ⟨hfa, ⟨⟩⟩ | ⟨hsu, h⟩
  · rw [show ok = false by simpa using hfa]
  · obtain ⟨-, ⟨⟩⟩ := guard_eq_ok.mp h
    rw [show ok = true by simpa using hsu]

/-! ### One record for each context -/

def OneEach (records : List LockedAddr) : Prop := (records.map (·.contextId)).Nodup

open AbstractMemory

theorem updateRecord_eq_none : updateRecord new records = none ↔
    new.contextId ∉ records.map (·.contextId) := by
  induction records with
  | nil => simp [updateRecord]
  | cons r rs ih =>
    by_cases hct : r.contextId = new.contextId
    · simp [updateRecord, hct]
    · simp [updateRecord, hct, Ne.symm hct, ih]

theorem map_updateRecord (h : updateRecord new records = some records') :
    records'.map (·.contextId) = records.map (·.contextId) := by
  induction records generalizing records' with
  | nil => cases h
  | cons r rs ih =>
    rw [updateRecord] at h
    split at h
    · cases h
      rfl
    · obtain ⟨rs', hrs, rfl⟩ := Option.map_eq_some_iff.mp h
      simp [ih hrs]

theorem mem_updateRecord (hon : OneEach records) (h : updateRecord new records = some records')
    (hr : r ∈ records') : r = new ∨ (r ∈ records ∧ r.contextId ≠ new.contextId) := by
  induction records generalizing records' with
  | nil => cases h
  | cons r₀ rs ih =>
    obtain ⟨hfs, hre⟩ := nodup_cons.mp hon
    rw [updateRecord] at h
    split at h
    · rename_i hct
      cases h
      rcases mem_cons.mp hr with rfl | hr
      · exact .inl (by cases new; simp_all)
      · refine .inr ⟨mem_cons_of_mem _ hr, fun heq => hfs ?_⟩
        show r₀.contextId ∈ _
        rw [hct, ← heq]
        exact mem_map_of_mem hr
    · rename_i hct
      obtain ⟨rs', hrs, rfl⟩ := Option.map_eq_some_iff.mp h
      rcases mem_cons.mp hr with rfl | hr
      · exact .inr ⟨mem_cons_self, hct⟩
      · exact (ih hre hrs hr).imp_right fun ⟨hme, hn⟩ => ⟨mem_cons_of_mem _ hme, hn⟩

theorem OneEach.trackLoadLocked (hon : OneEach records) : OneEach (trackLoadLocked records x) := by
  unfold AbstractMemory.trackLoadLocked OneEach
  cases hup : updateRecord x.lockedAddr records with
  | none => exact nodup_cons.mpr ⟨updateRecord_eq_none.mp hup, hon⟩
  | some records' =>
    show (records'.map (·.contextId)).Nodup
    rw [map_updateRecord hup]
    exact hon

theorem mem_trackLoadLocked (hon : OneEach records) (hr : r ∈ trackLoadLocked records x) :
    r = x.lockedAddr ∨ (r ∈ records ∧ r.contextId ≠ x.contextId) := by
  unfold trackLoadLocked at hr
  cases hu : updateRecord x.lockedAddr records with
  | none =>
    rw [hu] at hr
    rcases mem_cons.mp hr with rfl | hr
    · exact .inl rfl
    · refine .inr ⟨hr, fun heq => updateRecord_eq_none.mp hu ?_⟩
      exact mem_map.mpr ⟨r, hr, heq⟩
  | some records' =>
    rw [hu] at hr
    exact mem_updateRecord hon hu hr

theorem writeOK_sublist : (writeOK records x).2.Sublist records := by
  unfold writeOK checkLockedAddrList
  split
  · exact List.Sublist.refl _
  · dsimp only
    split
    · exact filter_sublist
    · exact List.Sublist.refl _

theorem ne_of_mem_writeOK (ho : (writeOK records x).1) (hr : r ∈ (writeOK records x).2) :
    r.addr ≠ x.lockedAddr.addr := by
  have hme := writeOK_sublist.subset hr
  unfold writeOK at ho hr
  rw [if_neg (fun hem => by simp [isEmpty_iff.mp hem] at hme)] at ho hr
  unfold checkLockedAddrList at ho hr
  dsimp only at ho hr
  rw [if_pos ho] at hr
  exact of_decide_eq_true (mem_filter.mp hr).2

theorem mem_of_storeCond (hll : x.pkt.isLLSC) (ho : (writeOK records x).1) :
    x.lockedAddr ∈ records := by
  unfold writeOK checkLockedAddrList at ho
  split at ho
  · simp [hll] at ho
  · simpa [hll] using ho

/-! ### What a record stands for -/

/-- **The record is of the last load-linked of its context, and no other context has written to the
granule since.** -/
def LockedAddr.Holds (log : List AccessEvent) (r : LockedAddr) : Prop :=
  Since (fun e => (e.contextId = r.contextId → e.linked = false) ∧
      (e.contextId ≠ r.contextId → e.wrote → ∀ a, e.Touches a → mask a ≠ r.addr))
    (fun e => e.linked ∧ e.contextId = r.contextId ∧ mask e.low = r.addr) log

/-- The invariant of a run: one record for each context, and every record holds. -/
structure MemRun.Inv (s : MemRun) : Prop where
  one : OneEach s.mem.lockedAddrList
  holds : ∀ r ∈ s.mem.lockedAddrList, r.Holds s.log

theorem OnMemory.lockedAddr_addr (hon : OnMemory x) :
    x.lockedAddr.addr = LockedAddr.mask x.pkt.addr := by
  simp [lockedAddr, hon.2]

theorem Access.touchesGranule {a : Nat} (ha : (x.event wrote).Touches a) :
    x.TouchesGranule (LockedAddr.mask a) := by
  obtain ⟨hle, hlt⟩ : x.pkt.addr ≤ a ∧ a < x.pkt.addr + x.pkt.size := ha
  unfold TouchesGranule LockedAddr.mask
  omega

theorem MemRun.Inv.access (hi : s.Inv) (hon : OnMemory x) (hap : StoresApart s x)
    (h : s.mem.access x = .ok (wrote, m')) : MemRun.Inv ⟨m', x.event wrote :: s.log⟩ := by
  rcases access_cases hon h with
    ⟨hl, hsw, hs⟩ | ⟨hl, rfl, htr⟩ | ⟨hl, hwr, hok⟩
  · refine ⟨hs ▸ hi.one, fun r hr => ?_⟩
    have hr : r ∈ s.mem.lockedAddrList := hs ▸ hr
    refine .later ⟨fun _ => hl, fun hc hw a ha hgr => ?_⟩ (hi.holds r hr)
    obtain ⟨hcm, hwr⟩ := hsw hw
    exact (hap hwr r hr (hc.symm) (hgr ▸ touchesGranule ha)).1 hcm
  · refine ⟨htr ▸ hi.one.trackLoadLocked, fun r hr => ?_⟩
    rcases mem_trackLoadLocked hi.one (htr ▸ hr) with rfl | ⟨hr, hc⟩
    · exact .now ⟨hl, rfl, hon.lockedAddr_addr.symm⟩
    · exact .later ⟨fun h => absurd h.symm hc, fun _ h => (by cases h)⟩ (hi.holds r hr)
  · obtain ⟨hw, hre⟩ := Prod.mk.inj hok
    have hsu : m'.lockedAddrList.Sublist s.mem.lockedAddrList := hre ▸ writeOK_sublist
    refine ⟨(hsu.map _).nodup hi.one, fun r hr => ?_⟩
    have hm := hsu.subset hr
    refine .later ⟨fun _ => hl, fun hc hst a ha hgr => ?_⟩ (hi.holds r hm)
    -- The record survived a store, so the store does not start in its granule.
    have hn : r.addr ≠ x.lockedAddr.addr := ne_of_mem_writeOK (hw.trans hst) (hre ▸ hr)
    exact hn (hap hwr r hm (hc.symm) (hgr ▸ touchesGranule ha)).2

theorem MemRun.inv_of_reachable (h : (memSystem.restrict StoresApart).Reachable s) : s.Inv := by
  refine h.invariant MemRun.Inv ?_ ?_
  · rintro s ⟨hem, -⟩
    refine ⟨?_, ?_⟩ <;> simp [OneEach, hem]
  · rintro s x s' hin ⟨hon, hap⟩ hst
    obtain ⟨⟨wrote, m⟩, hac, rfl⟩ := bind_ok.mp hst
    exact hin.access hon hap hac

/-! ### Store-conditionals -/

/-- **A store-conditional succeeds only under a load-linked that still holds.** In a run in which
stores and swaps touch no granule linked by another context, other than the granule a store starts
in, a store-conditional that writes goes to the granule of the last load-linked of its context, and
no other context has written to the granule since. -/
theorem memory_storeCond_after_loadLocked
    (hs : (memSystem.restrict StoresApart).Reachable s) (hon : OnMemory x)
    (hsc : x.pkt.cmd = .storeCondReq) (hok : s.mem.access x = .ok (true, m')) :
    Since (fun e => (e.contextId = x.contextId → e.linked = false) ∧
        (e.contextId ≠ x.contextId → e.wrote →
          ∀ a, e.Touches a → LockedAddr.mask a ≠ LockedAddr.mask x.pkt.addr))
      (fun e => e.linked ∧ e.contextId = x.contextId ∧
        LockedAddr.mask e.low = LockedAddr.mask x.pkt.addr) s.log := by
  rcases access_cases hon hok with ⟨-, hsw, -⟩ | ⟨-, hwo, -⟩ | ⟨-, -, hwr⟩
  · have hcm := (hsw rfl).1
    rw [hsc] at hcm
    cases hcm
  · cases hwo
  · have hll : x.pkt.isLLSC := by rw [isLLSC, hsc]; rfl
    have hme := mem_of_storeCond hll (congrArg Prod.fst hwr)
    have hh := (MemRun.inv_of_reachable hs).holds _ hme
    rw [LockedAddr.Holds, hon.lockedAddr_addr] at hh
    exact hh

def memAccessOf (cmd : MemCmd) (contextId addr : Nat) : Access where
  contextId := contextId
  pkt := { cmd := cmd, addr := addr, size := 8, req := { paddr := some addr, size := 8 } }
  payload := fun _ => 1

def zeroMemory : MemRun := ⟨⟨fun _ _ => true, some fun _ => 0, []⟩, []⟩

/-- Context 1 swaps and stores, then context 0 links and stores. -/
theorem memory_storeCond_swap_first :
    ∃ (s : MemRun) (m : AbstractMemory), (memSystem.restrict StoresApart).Reachable s ∧
      s.mem.access (memAccessOf .storeCondReq 0 8) = .ok (true, m) ∧
      Since (fun e => (e.contextId = 0 → e.linked = false) ∧
          (e.contextId ≠ 0 → e.wrote → ∀ a, e.Touches a → LockedAddr.mask a ≠ LockedAddr.mask 8))
        (fun e => e.linked ∧ e.contextId = 0 ∧
          LockedAddr.mask e.low = LockedAddr.mask 8) s.log := by
  obtain ⟨s, hs, hok⟩ := System.Reachable.exists_of_leads (S := memSystem.restrict StoresApart)
    (p := fun s => Succeeds (fun r => r.1) (s.mem.access (memAccessOf .storeCondReq 0 8)))
    [memAccessOf .swapReq 1 0, memAccessOf .writeReq 1 8, memAccessOf .loadLockedReq 0 0]
    (.start (s := zeroMemory) ⟨rfl, rfl⟩) (by decide +kernel)
  obtain ⟨⟨wrote, m⟩, hac, hwr⟩ := hok.exists
  obtain rfl : wrote = true := hwr
  exact ⟨s, m, hs, hac, memory_storeCond_after_loadLocked hs ⟨rfl, rfl⟩ rfl hac⟩

/-- Context 0 links the granule at 16, another access writes to it, and the store-conditional of
context 0 succeeds all the same. -/
def StoreCondOverlooks (y : Access) : Prop :=
  ∃ (s : MemRun) (m : AbstractMemory), memSystem.Reachable s ∧
    s.log = [y.event true, (memAccessOf .loadLockedReq 0 16).event false] ∧
    s.mem.access (memAccessOf .storeCondReq 0 16) = .ok (true, m) ∧
    ¬Since (fun e => (e.contextId = 0 → e.linked = false) ∧
        (e.contextId ≠ 0 → e.wrote → ∀ a, e.Touches a → LockedAddr.mask a ≠ LockedAddr.mask 16))
      (fun e => e.linked ∧ e.contextId = 0 ∧ LockedAddr.mask e.low = LockedAddr.mask 16) s.log

theorem storeCondOverlooks {y : Access} (hct : y.contextId ≠ 0) (hto : (y.event true).Touches 16)
    (hle : memSystem.Leads
      (fun s => s.log = [y.event true, (memAccessOf .loadLockedReq 0 16).event false] ∧
        Succeeds (fun r => r.1) (s.mem.access (memAccessOf .storeCondReq 0 16)))
      [memAccessOf .loadLockedReq 0 16, y] zeroMemory) : StoreCondOverlooks y := by
  obtain ⟨s, hs, hl, hok⟩ := System.Reachable.exists_of_leads _
    (.start (S := memSystem) ⟨rfl, rfl⟩) hle
  obtain ⟨⟨wrote, m⟩, hac, hwr⟩ := hok.exists
  obtain rfl : wrote = true := hwr
  refine ⟨s, m, hs, hl, hac, fun hsi => ?_⟩
  rw [hl] at hsi
  cases hsi with
  | now h => exact hct h.2.1
  | later h _ => exact h.2 hct rfl 16 hto rfl

/-- **Neither a swap nor a store that starts below a granule removes its record.** -/
theorem storeCond_after_memory_swap :
    StoreCondOverlooks (memAccessOf .swapReq 1 16) ∧
      StoreCondOverlooks (memAccessOf .writeReq 1 12) :=
  ⟨storeCondOverlooks (by decide) ⟨by decide, by decide⟩ (by decide +kernel),
    storeCondOverlooks (by decide) ⟨by decide, by decide⟩ (by decide +kernel)⟩

end Gem5.Mem
