import Gem5.Base.Bitfield
import Gem5.Lib.Outcome

/-!
# Gem5.Cpu.O3.LsqUnit

**Store-to-load forwarding.** A load looks through the stores before it, from the youngest
back to the first one not written back. The first store that has any of its bytes decides: the
load takes them all from it, or is put back. Where no store has any, it goes to memory.

A software prefetch is a load that skips the search.
-/

namespace Gem5.Cpu.O3

open List Nat Gem5.Lib
open Gem5.Base (Addr)

abbrev Byte := BitVec 8

structure StoreRequest where
  size : BitVec 32
  isMasked : Bool
  /-- `CLEAN` or `INVALIDATE` -/
  isCacheMaintenance : Bool
  cacheBlockZero : Bool
deriving DecidableEq

/-- An entry of the store queue with its instruction. The request of an atomic instruction, and
of no other, is atomic. -/
structure SQEntry where
  valid : Bool
  completed : Bool
  seqNum : Nat
  effAddr : Addr
  effAddrValid : Bool
  strictlyOrdered : Bool
  isAtomic : Bool
  request : StoreRequest
  size : BitVec 32
  data : List Byte
  isAllZeros : Bool
deriving DecidableEq

structure LoadInst where
  seqNum : Nat
  /-- The place of the first store after the load. -/
  sqIt : Nat
  isDataPrefetch : Bool
  vaddr : Addr
  size : BitVec 32
  isLLSC : Bool

inductive LsqFault
  | beforeStoreWB
  | invalidStore
  | youngerStore
  | effAddrUnknown
  /-- "Should not check one of these" -/
  | completedStore
  | storeTooLarge
deriving DecidableEq

structure LsqUnit where
  storeQueue : List SQEntry
  /-- The first store that has not been written back. -/
  storeWBIt : Nat
  /-- The store and the load of `stalled`, by their numbers. -/
  stalled : Option (Nat × Nat)
deriving DecidableEq

inductive ReadResult
  | forwarded (memData : List Byte)
  | memory
  | rescheduled
deriving DecidableEq

inductive AddrRangeCoverage
  | NoAddrRangeCoverage
  | PartialAddrRangeCoverage
  | FullAddrRangeCoverage

/-! ### The two calls -/

def dataSize : Nat := 4096

/-- `LSQUnit::write`, on the entry of the store. -/
def SQEntry.write (e : SQEntry) (req : StoreRequest) (data : List Byte) : Except LsqFault SQEntry :=
  let storeNoData := req.cacheBlockZero || req.isCacheMaintenance
  if ¬(req.size.toNat ≤ dataSize ∨ storeNoData) then .error .storeTooLarge
  else .ok { e with
    request := req
    size := req.size
    isAllZeros := storeNoData
    data :=
      if !req.cacheBlockZero && !req.isCacheMaintenance && !e.isAtomic then
        data.take req.size.toNat ++ e.data.drop req.size.toNat
      else e.data }

/-- How much of the load the store has. The size of a store is read as an `int`. -/
def coverage (load : LoadInst) (e : SQEntry) : AddrRangeCoverage :=
  let reqS := load.vaddr
  let reqE := reqS + load.size.setWidth 64
  let stS := e.effAddr
  let stE := stS + e.size.signExtend 64
  let storeHasLowerLimit := stS ≤ reqS
  let storeHasUpperLimit := reqE ≤ stE
  let lowerLoadHasStorePart := reqS < stE
  let upperLoadHasStorePart := stS < reqE
  let anyPart := (storeHasLowerLimit ∨ upperLoadHasStorePart) ∧
    (storeHasUpperLimit ∨ lowerLoadHasStorePart)
  if !e.isAtomic ∧ storeHasLowerLimit ∧ storeHasUpperLimit ∧ !load.isLLSC then
    if e.request.isMasked then .PartialAddrRangeCoverage else .FullAddrRangeCoverage
  else if (!load.isLLSC ∧ (storeHasLowerLimit ∧ lowerLoadHasStorePart ∨
        storeHasUpperLimit ∧ upperLoadHasStorePart ∨
        lowerLoadHasStorePart ∧ upperLoadHasStorePart)) ∨
      (load.isLLSC ∧ anyPart) ∨ (e.isAtomic ∧ anyPart) then .PartialAddrRangeCoverage
  else .NoAddrRangeCoverage

/-- What a store that has the whole load gives it. The offset is an `int`. -/
def SQEntry.forward (e : SQEntry) (load : LoadInst) : List Byte :=
  let shiftAmt := ((load.vaddr - e.effAddr).setWidth 32).toNat
  if e.isAllZeros then List.replicate load.size.toNat 0
  else (e.data.drop shiftAmt).take load.size.toNat

namespace LsqUnit

/-- The oldest load that has to wait for a store is the one noted. -/
def stall (u : LsqUnit) (load : LoadInst) (e : SQEntry) : LsqUnit :=
  match u.stalled with
  | some (_, stalling) =>
    if load.seqNum < stalling then { u with stalled := some (e.seqNum, load.seqNum) } else u
  | none => { u with stalled := some (e.seqNum, load.seqNum) }

/-- The search of `LSQUnit::read`, over the stores from the youngest. -/
def searchStores (u : LsqUnit) (load : LoadInst) :
    List SQEntry → Except LsqFault (ReadResult × LsqUnit)
  | [] => .ok (.memory, u)
  | e :: stores =>
    if !e.valid then .error .invalidStore
    else if ¬e.seqNum < load.seqNum then .error .youngerStore
    else if e.size = 0#32 ∨ e.strictlyOrdered ∨ e.request.isCacheMaintenance then
      searchStores u load stores
    else if !e.effAddrValid then .error .effAddrUnknown
    else match coverage load e with
      | .FullAddrRangeCoverage => .ok (.forwarded (e.forward load), u)
      | .PartialAddrRangeCoverage =>
        if e.completed then .error .completedStore else .ok (.rescheduled, u.stall load e)
      | .NoAddrRangeCoverage => searchStores u load stores

def olderStores (u : LsqUnit) (load : LoadInst) : List SQEntry :=
  ((u.storeQueue.take load.sqIt).drop u.storeWBIt).reverse

/-- `LSQUnit::read`, from the search on. -/
def read (u : LsqUnit) (load : LoadInst) : Except LsqFault (ReadResult × LsqUnit) :=
  if load.sqIt < u.storeWBIt then .error .beforeStoreWB
  else if load.isDataPrefetch then .ok (.memory, u)
  else u.searchStores load (u.olderStores load)

end LsqUnit

/-! ### Program order -/

/-- The store has the byte at `a`. -/
def SQEntry.Covers (e : SQEntry) (a : Nat) : Prop :=
  e.effAddr.toNat ≤ a ∧ a < e.effAddr.toNat + e.size.toNat

instance (e : SQEntry) (a : Nat) : Decidable (e.Covers a) := inferInstanceAs (Decidable (_ ∧ _))

def SQEntry.Overlaps (e : SQEntry) (load : LoadInst) : Prop :=
  ∃ i < load.size.toNat, e.Covers (load.vaddr.toNat + i)

instance (e : SQEntry) (load : LoadInst) : Decidable (e.Overlaps load) :=
  inferInstanceAs (Decidable (∃ _ < _, _))

def SQEntry.Blocks (e : SQEntry) (load : LoadInst) : Prop :=
  e.isAtomic ∨ e.request.isMasked ∨ load.isLLSC ∨
    ∃ i < load.size.toNat, ¬e.Covers (load.vaddr.toNat + i)

instance (e : SQEntry) (load : LoadInst) : Decidable (e.Blocks load) :=
  inferInstanceAs (Decidable (_ ∨ _ ∨ _ ∨ ∃ _ < _, _))

def StoreRequest.written (req : StoreRequest) (data : List Byte) (i : Nat) : Option Byte :=
  if req.cacheBlockZero then some 0 else data[i]?

/-- `data` is what the store of the entry was called with. -/
def SQEntry.WrittenBy (e : SQEntry) (data : List Byte) : Prop :=
  e.size.toNat ≤ data.length ∧ ∃ e₀ : SQEntry, e₀.write e.request data = .ok e

/-- **An older store that has executed**, on a range that does not wrap. -/
structure SQEntry.Executed (e : SQEntry) (load : LoadInst) : Prop where
  valid : e.valid
  older : e.seqNum < load.seqNum
  effAddrValid : e.effAddrValid
  notStrict : e.strictlyOrdered = false
  notMaintenance : e.request.isCacheMaintenance = false
  notCompleted : e.completed = false
  size_pos : 0 < e.size.toNat
  size_lt : e.size.toNat < 2 ^ 31
  no_wrap : e.effAddr.toNat + e.size.toNat < 2 ^ 64
  written : ∃ data, e.WrittenBy data

/-- **A load after stores that have executed**, on a range that does not wrap. -/
structure LsqUnit.Searches (u : LsqUnit) (load : LoadInst) : Prop where
  storeWBIt_le : u.storeWBIt ≤ load.sqIt
  executed : ∀ e ∈ u.olderStores load, e.Executed load
  size_pos : 0 < load.size.toNat
  no_wrap : load.vaddr.toNat + load.size.toNat < 2 ^ 64

/-- **A result of program order**: bytes forwarded are those of the youngest store that has them,
memory is asked when no store has any, and the load is put back when the youngest store that has
any cannot give it all. -/
structure LsqUnit.InOrder (u : LsqUnit) (load : LoadInst) (r : ReadResult) : Prop where
  forwarded : ∀ bytes, r = .forwarded bytes → ∀ i < load.size.toNat, ∃ e,
    (u.olderStores load).find? (·.Covers (load.vaddr.toNat + i)) = some e ∧
    ∀ data, e.WrittenBy data →
      bytes[i]? = e.request.written data (load.vaddr.toNat + i - e.effAddr.toNat)
  memory : r = .memory → ∀ e ∈ u.olderStores load, ¬e.Overlaps load
  rescheduled : ∀ e, (u.olderStores load).find? (·.Overlaps load) = some e → e.Blocks load →
    r = .rescheduled

variable {e : SQEntry} {load : LoadInst} {u : LsqUnit} {data : List Byte}

/-- **The tests on the limits decide what they are meant to.** -/
theorem coverage_eq (he : e.Executed load) (hlo : 0 < load.size.toNat)
    (hwr : load.vaddr.toNat + load.size.toNat < 2 ^ 64) :
    coverage load e = if e.Overlaps load then
      if e.Blocks load then .PartialAddrRangeCoverage else .FullAddrRangeCoverage
    else .NoAddrRangeCoverage := by
  have hsz := he.size_pos
  have hre : (load.vaddr + load.size.setWidth 64).toNat = load.vaddr.toNat + load.size.toNat := by
    rw [BitVec.toNat_add, BitVec.toNat_setWidth, mod_eq_of_lt (by omega : load.size.toNat < _),
      mod_eq_of_lt hwr]
  have hst : (e.effAddr + e.size.signExtend 64).toNat = e.effAddr.toNat + e.size.toNat := by
    have hms : e.size.msb = false := by
      rw [BitVec.msb_eq_false_iff_two_mul_lt]
      have := he.size_lt
      omega
    rw [BitVec.signExtend_eq_setWidth_of_msb_false hms, BitVec.toNat_add, BitVec.toNat_setWidth,
      mod_eq_of_lt (by omega : e.size.toNat < _), mod_eq_of_lt he.no_wrap]
  have hove : e.Overlaps load ↔ e.effAddr.toNat < load.vaddr.toNat + load.size.toNat ∧
      load.vaddr.toNat < e.effAddr.toNat + e.size.toNat := by
    unfold SQEntry.Overlaps SQEntry.Covers
    refine ⟨fun ⟨i, hi, hcov⟩ => by omega, fun h => ?_⟩
    exact ⟨e.effAddr.toNat - load.vaddr.toNat, by omega, by omega, by omega⟩
  have hpa : (∃ i < load.size.toNat, ¬e.Covers (load.vaddr.toNat + i)) ↔
      ¬(e.effAddr.toNat ≤ load.vaddr.toNat ∧
        load.vaddr.toNat + load.size.toNat ≤ e.effAddr.toNat + e.size.toNat) := by
    unfold SQEntry.Covers
    refine ⟨fun ⟨i, hi, hmis⟩ => by omega, fun h => ?_⟩
    by_cases hlow : e.effAddr.toNat ≤ load.vaddr.toNat
    · exact ⟨load.size.toNat - 1, by omega, by omega⟩
    · exact ⟨0, hlo, by omega⟩
  unfold coverage
  simp only [SQEntry.Blocks, hpa, BitVec.le_def, BitVec.lt_def, hre, hst]
  cases e.isAtomic <;> cases load.isLLSC <;> cases e.request.isMasked <;> grind

/-- **The first store that has a byte of the load decides.** -/
theorem searchStores_eq (hlo : 0 < load.size.toNat)
    (hwr : load.vaddr.toNat + load.size.toNat < 2 ^ 64) {stores : List SQEntry}
    (hex : ∀ e ∈ stores, e.Executed load) :
    u.searchStores load stores = .ok (match stores.find? (·.Overlaps load) with
      | none => (.memory, u)
      | some e =>
        if e.Blocks load then (.rescheduled, u.stall load e)
        else (.forwarded (e.forward load), u)) := by
  induction stores with
  | nil => rfl
  | cons e stores ih =>
    obtain ⟨he, hst⟩ := forall_mem_cons.mp hex
    have hsz : e.size ≠ 0#32 := by
      rintro hz
      exact absurd he.size_pos (by simp [hz])
    simp only [LsqUnit.searchStores, he.valid, he.older, hsz, he.notStrict, he.notMaintenance,
      he.effAddrValid, he.notCompleted, coverage_eq he hlo hwr]
    by_cases hov : e.Overlaps load
    · by_cases hbl : e.Blocks load
      · simp [hov, hbl]
      · simp [hov, hbl]
    · simpa [hov] using ih hst

theorem data_of_write {e₀ : SQEntry} (he : e.Executed load) (hat : e.isAtomic = false)
    (hok : e₀.write e.request data = .ok e) :
    e.isAllZeros = e.request.cacheBlockZero ∧ (e.request.cacheBlockZero = false →
      e.data = data.take e.size.toNat ++ e₀.data.drop e.size.toNat) := by
  unfold SQEntry.write at hok
  rw [guard_eq_ok] at hok
  have heq := (eq_of_ok hok.2)
  have hat₀ : e₀.isAtomic = false := by rwa [heq] at hat
  refine ⟨?_, fun hz => ?_⟩
  · rw [heq]
    simp [he.notMaintenance]
  · rw [heq]
    simp [he.notMaintenance, hat₀, hz]

/-- **What is forwarded is what the store writes.** -/
theorem forward_written {i : Nat} (he : e.Executed load) (hbl : ¬e.Blocks load)
    (hi : i < load.size.toNat) (hda : e.WrittenBy data) :
    e.Covers (load.vaddr.toNat + i) ∧ (e.forward load)[i]? =
      e.request.written data (load.vaddr.toNat + i - e.effAddr.toNat) := by
  simp only [SQEntry.Blocks, not_or, not_exists, not_and, not_not, Bool.not_eq_true] at hbl
  obtain ⟨hat, -, -, hc⟩ := hbl
  refine ⟨hc i hi, ?_⟩
  have hl : e.effAddr.toNat ≤ load.vaddr.toNat := (hc 0 (by omega)).1
  obtain ⟨-, hlt⟩ := hc i hi
  have hsh : ((load.vaddr - e.effAddr).setWidth 32).toNat = load.vaddr.toNat - e.effAddr.toNat := by
    rw [BitVec.toNat_setWidth, BitVec.toNat_sub_of_le (BitVec.le_def.mpr hl),
      mod_eq_of_lt (by omega)]
  obtain ⟨hlen, e₀, hok⟩ := hda
  obtain ⟨hze, hby⟩ := data_of_write he hat hok
  unfold SQEntry.forward StoreRequest.written
  rw [hze]
  cases hz : e.request.cacheBlockZero with
  | true => simp [hi]
  | false =>
    simp only [hsh, hby hz, Nat.sub_add_comm hl, Bool.false_eq_true, if_false]
    rw [getElem?_take_of_lt hi, getElem?_drop,
      getElem?_append_left (by simp; omega), getElem?_take_of_lt (by omega)]

/-- **Store-to-load forwarding keeps program order**, for a load that is not a prefetch. -/
theorem read_in_order (h : u.Searches load) (hprefetch : load.isDataPrefetch = false) :
    Succeeds (fun r => u.InOrder load r.1) (u.read load) := by
  rw [LsqUnit.read, if_neg (not_lt.mpr h.storeWBIt_le), hprefetch,
    searchStores_eq h.size_pos h.no_wrap h.executed]
  cases hf : (u.olderStores load).find? (·.Overlaps load) with
  | none =>
    refine ⟨nofun, fun _ e he => ?_, fun e hs => ?_⟩
    · simpa using find?_eq_none.mp hf e he
    · rw [hf] at hs
      cases hs
  | some e =>
    have he := h.executed e (mem_of_find?_eq_some hf)
    by_cases hb : e.Blocks load
    · simp only [if_pos hb]
      exact ⟨nofun, nofun, fun _ _ _ => rfl⟩
    · simp only [if_neg hb]
      refine ⟨fun bytes hby i hi => ?_, nofun, fun e' hs hb' => ?_⟩
      · cases hby
        obtain ⟨data, hd⟩ := he.written
        obtain ⟨-, younger, older, hsp, hn⟩ := find?_eq_some_iff_append.mp hf
        refine ⟨e, find?_eq_some_iff_append.mpr ⟨?_, younger, older, hsp, fun x hx => ?_⟩,
          fun data hd => (forward_written he hb hi hd).2⟩
        · simpa using (forward_written he hb hi hd).1
        · have hx := hn x hx
          simp only [Bool.not_eq_true', decide_eq_false_iff_not] at hx ⊢
          exact fun hco => hx ⟨i, hi, hco⟩
      · rw [hf] at hs
        cases hs
        exact absurd hb' hb

def storeOf (seqNum : Nat) (effAddr : Addr) (first second : Byte) : SQEntry :=
  ⟨true, false, seqNum, effAddr, true, false, false, ⟨2, false, false, false⟩, 2, [first, second],
    false⟩

theorem executed_storeOf {seqNum : Nat} {effAddr : Addr} (first second : Byte)
    (hs : seqNum < load.seqNum) (hw : effAddr.toNat + 2 < 2 ^ 64) :
    (storeOf seqNum effAddr first second).Executed load :=
  ⟨rfl, hs, rfl, rfl, rfl, rfl, Nat.two_pos, by simp [storeOf], hw, [first, second], le_rfl,
    storeOf seqNum effAddr 0 0, rfl⟩

/-- A store of two bytes at `0x1000`. -/
def oneStore : LsqUnit where
  storeQueue := [storeOf 1 0x1000 0xab 0xcd]
  storeWBIt := 0
  stalled := none

def loadAfter (isDataPrefetch : Bool) : LoadInst := ⟨2, 1, isDataPrefetch, 0x1001, 1, false⟩

/-- A second store, which overlaps the first in that byte. -/
def twoStores : LsqUnit := { oneStore with storeQueue := oneStore.storeQueue ++ [storeOf 2 0x1001 1 2] }

def loadAfterTwo : LoadInst := ⟨3, 2, false, 0x1001, 2, false⟩

/-- The bytes are those of the second store, also the one that the first wrote too. -/
theorem read_in_order_twoStores : twoStores.Searches loadAfterTwo ∧
    twoStores.read loadAfterTwo = .ok (.forwarded [1, 2], twoStores) ∧
    Succeeds (fun r => twoStores.InOrder loadAfterTwo r.1) (twoStores.read loadAfterTwo) := by
  have hs : twoStores.Searches loadAfterTwo := by
    refine ⟨zero_le _, fun e he => ?_, by decide, by decide⟩
    have he' : e ∈ [storeOf 2 0x1001 1 2, storeOf 1 0x1000 0xab 0xcd] := he
    simp only [mem_cons, not_mem_nil, or_false] at he'
    obtain rfl | rfl := he'
    · exact executed_storeOf 1 2 (by decide) (by decide)
    · exact executed_storeOf 0xab 0xcd (by decide) (by decide)
  exact ⟨hs, rfl, read_in_order hs rfl⟩

theorem searches_oneStore (isDataPrefetch : Bool) : oneStore.Searches (loadAfter isDataPrefetch) where
  storeWBIt_le := zero_le _
  executed e he := by
    obtain rfl := mem_singleton.mp he
    exact executed_storeOf 0xab 0xcd Nat.one_lt_two (by decide)
  size_pos := by decide +revert
  no_wrap := by decide +revert

/-- **A software prefetch goes to memory** past a store that has its byte. -/
theorem prefetch_skips_stores : oneStore.Searches (loadAfter true) ∧
    ¬Succeeds (fun r => oneStore.InOrder (loadAfter true) r.1)
      (oneStore.read (loadAfter true)) := by
  refine ⟨searches_oneStore true, fun h => ?_⟩
  have hor : oneStore.InOrder (loadAfter true) .memory := h
  exact hor.memory rfl _ (mem_singleton.mpr rfl) (by decide)

end Gem5.Cpu.O3
