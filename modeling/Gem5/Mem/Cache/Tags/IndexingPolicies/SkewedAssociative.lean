import Gem5.Base.Bitfield
import Gem5.Lib.ShiftRegister

/-!
# Gem5.Mem.Cache.Tags.IndexingPolicies.SkewedAssociative

**Skewed-associative indexing** (`src/mem/cache/tags/indexing_policies/skewed_associative.cc`). Each
way has its own function from addresses to sets. The tag of a block does not determine the set it
would have in a conventional cache, and the address of a block is regenerated from the tag, the set
and the way by undoing the skewing function of the way.

`hash` is a step of a shift register over the set bits and `dehash` is the step back. Both are
linear over exclusive or. Half of the skewing functions combine the hash of the set bits with the
set bits themselves; they are undone by going around the register (`hash_iterate_hash_xor`), the others
by one step.
-/

namespace Gem5.Mem

open Gem5.Base Gem5.Lib BitVec Function Nat

/-! ### The policy -/

/-- `SkewedAssociative`, with the checks of its constructor and of `BaseIndexingPolicy`. -/
structure SkewedAssociative where
  assoc : Nat
  numSets : Nat
  setShift : Nat
  assoc_pos : 0 < assoc
  numSets_lt : numSets < 2 ^ 32
  isPowerOf2_numSets : isPowerOf2 numSets
  two_lt_numSets : 2 < numSets
  bits_le : setShift + 2 * (floorLog2 numSets - 1 + 1) ≤ 64

structure ReplaceableEntry where
  set : BitVec 32
  way : Nat

namespace SkewedAssociative

variable (p : SkewedAssociative)

def msbShift : Nat := floorLog2 p.numSets - 1

def setMask : Addr := BitVec.ofNat 64 (p.numSets - 1)

def tagShift : Nat := p.setShift + floorLog2 p.numSets

def hash (addr : Addr) : Addr :=
  let lsb : BitVec 8 := (bit addr 0).setWidth 8
  let msb : BitVec 8 := (bit addr p.msbShift).setWidth 8
  let xorBit := msb ^^^ lsb
  insertBit (addr >>> 1) p.msbShift (xorBit.setWidth 64)

def dehash (addr : Addr) : Addr :=
  let msb : BitVec 8 := (bit addr (p.msbShift - 1)).setWidth 8
  let xorBit : BitVec 8 := (bit addr p.msbShift).setWidth 8
  let lsb := msb ^^^ xorBit
  let addrNoMsb := mbits addr (p.msbShift - 1) 0
  insertBit (addrNoMsb <<< 1) 0 (lsb.setWidth 64)

/-- The set bits of a conventional cache: `addr1`. -/
def addr1 (addr : Addr) : Addr := bits addr p.msbShift 0

/-- The bits above the set bits: `addr2`. -/
def addr2 (addr : Addr) : Addr := bits addr (2 * (p.msbShift + 1) - 1) (p.msbShift + 1)

def skewFunction (way : Nat) (addr1 addr2 : Addr) : Addr :=
  match Fin.ofNat 8 way with
  | 0 => p.hash addr1 ^^^ p.hash addr2 ^^^ addr2
  | 1 => p.hash addr1 ^^^ p.hash addr2 ^^^ addr1
  | 2 => p.hash addr1 ^^^ p.dehash addr2 ^^^ addr2
  | 3 => p.hash addr1 ^^^ p.dehash addr2 ^^^ addr1
  | 4 => p.dehash addr1 ^^^ p.hash addr2 ^^^ addr2
  | 5 => p.dehash addr1 ^^^ p.hash addr2 ^^^ addr1
  | 6 => p.dehash addr1 ^^^ p.dehash addr2 ^^^ addr2
  | 7 => p.dehash addr1 ^^^ p.dehash addr2 ^^^ addr1

def skew (addr : Addr) (way : Nat) : Addr :=
  p.hash^[way / 8] (p.skewFunction way (p.addr1 addr) (p.addr2 addr))

/-- The switch of `SkewedAssociative::deskew`, once the piled-up hashes are undone. -/
def deskewFunction (way : Nat) (addr1 addr2 : Addr) : Addr :=
  match Fin.ofNat 8 way with
  | 0 => p.dehash (addr1 ^^^ p.hash addr2 ^^^ addr2)
  | 1 => p.hash^[p.msbShift] (addr1 ^^^ p.hash addr2)
  | 2 => p.dehash (addr1 ^^^ p.dehash addr2 ^^^ addr2)
  | 3 => p.hash^[p.msbShift] (addr1 ^^^ p.dehash addr2)
  | 4 => p.hash (addr1 ^^^ p.hash addr2 ^^^ addr2)
  | 5 => p.hash^[p.msbShift + 1] (addr1 ^^^ p.hash addr2)
  | 6 => p.hash (addr1 ^^^ p.dehash addr2 ^^^ addr2)
  | 7 => p.hash^[p.msbShift + 1] (addr1 ^^^ p.dehash addr2)

def deskew (addr : Addr) (way : Nat) : Addr :=
  let addr1 := if 8 ≤ way then p.dehash^[way / 8] (p.addr1 addr) else p.addr1 addr
  p.deskewFunction way addr1 (p.addr2 addr)

def extractSet (addr : Addr) (way : Nat) : BitVec 32 :=
  (p.skew (addr >>> p.setShift) way &&& p.setMask).setWidth 32

def extractTag (addr : Addr) : Addr := addr >>> p.tagShift

def regenerateAddr (tag : Addr) (entry : ReplaceableEntry) : Addr :=
  let addrSet := (tag <<< (p.msbShift + 1)) ||| entry.set.setWidth 64
  (tag <<< p.tagShift) ||| ((p.deskew addrSet entry.way &&& p.setMask) <<< p.setShift)

/-! ### Set bits -/

theorem numSets_eq : p.numSets = 2 ^ floorLog2 p.numSets :=
  eq_two_pow_floorLog2 p.isPowerOf2_numSets (p.numSets_lt.trans (by decide))

theorem msbShift_pos : 0 < p.msbShift := by
  have hlt : 2 ^ 1 < 2 ^ floorLog2 p.numSets := by
    rw [← numSets_eq]
    exact p.two_lt_numSets
  have hlog := (Nat.pow_lt_pow_iff_right (by decide)).mp hlt
  unfold msbShift
  omega

theorem floorLog2_numSets : floorLog2 p.numSets = p.msbShift + 1 := by
  have hpos := p.msbShift_pos
  unfold msbShift at *
  omega

theorem msbShift_lt : p.msbShift < 32 := by
  have hle := p.bits_le
  unfold msbShift
  omega

theorem setMask_eq : p.setMask = mask (p.msbShift + 1) := by
  have hlt := p.msbShift_lt
  refine eq_of_toNat_eq ?_
  rw [toNat_mask, setMask, min_eq_left (by omega), p.numSets_eq, p.floorLog2_numSets]
  refine mod_eq_of_lt ?_
  have hpow : 2 ^ (p.msbShift + 1) ≤ 2 ^ 64 := Nat.pow_le_pow_right (by decide) (by omega)
  omega

/-- A word of the width of a set index. -/
def Narrow (x : Addr) : Prop := ∀ i, p.msbShift < i → x.getLsbD i = false

variable {x : Addr}

theorem narrow_iff_lt : p.Narrow x ↔ x.toNat < p.numSets := by
  rw [numSets_eq, p.floorLog2_numSets]
  constructor
  · intro h
    refine lt_pow_two_of_testBit _ fun i hi => ?_
    exact h i hi
  · intro h i hi
    exact testBit_lt_two_pow (h.trans_le (Nat.pow_le_pow_right (by decide) hi))

variable {p} in
theorem Narrow.ext {y : Addr} (hx : p.Narrow x) (hy : p.Narrow y)
    (h : ∀ i ≤ p.msbShift, x.getLsbD i = y.getLsbD i) : x = y := by
  refine eq_of_getLsbD_eq fun i _ => ?_
  by_cases hi : i ≤ p.msbShift
  · exact h i hi
  · rw [hx i (Nat.lt_of_not_le hi), hy i (Nat.lt_of_not_le hi)]

variable {p} {i : Nat} in
theorem Narrow.xor {y : Addr} (hx : p.Narrow x) (hy : p.Narrow y) : p.Narrow (x ^^^ y) := by
  intro i hi
  rw [getLsbD_xor, hx i hi, hy i hi, Bool.xor_false]

variable (addr : Addr) (way : Nat)

theorem narrow_addr1 : p.Narrow (p.addr1 addr) := by
  intro i hi
  rw [addr1, getLsbD_bits _ (zero_le _), decide_eq_false (by omega), Bool.and_false]

theorem narrow_addr2 : p.Narrow (p.addr2 addr) := by
  intro i hi
  rw [addr2, getLsbD_bits _ (by omega), decide_eq_false (by omega), Bool.and_false]

theorem xor_cancel_right (x c : Addr) : x ^^^ c ^^^ c = x := by
  rw [BitVec.xor_assoc, BitVec.xor_self, BitVec.xor_zero]

theorem xor_cancel_middle (x c d : Addr) : x ^^^ c ^^^ d ^^^ c = x ^^^ d := by
  rw [BitVec.xor_assoc x c d, BitVec.xor_comm c d, ← BitVec.xor_assoc, xor_cancel_right]

/-! ### The hash -/

theorem getLsbD_hash (x : Addr) (hi : i < 64) : (p.hash x).getLsbD i =
    if i = p.msbShift then (x.getLsbD 0 ^^ x.getLsbD p.msbShift) else x.getLsbD (i + 1) := by
  have hlt := p.msbShift_lt
  rw [hash, getLsbD_insertBit _ (by omega) _ hi]
  simp only [getLsbD_setWidth, getLsbD_xor, getLsbD_ushiftRight, getLsbD_bit,
    add_comm 1 i, Bool.xor_comm (x.getLsbD 0)]
  simp

theorem getLsbD_dehash (x : Addr) (hi : i < 64) : (p.dehash x).getLsbD i =
    if i = 0 then (x.getLsbD (p.msbShift - 1) ^^ x.getLsbD p.msbShift)
    else (x.getLsbD (i - 1) && decide (i ≤ p.msbShift)) := by
  have hlt := p.msbShift_lt
  have hpos := p.msbShift_pos
  rw [dehash, getLsbD_insertBit _ (by omega) _ hi]
  by_cases h0 : i = 0
  · rw [if_pos h0, if_pos h0]
    simp only [getLsbD_setWidth, getLsbD_xor, getLsbD_bit]
    simp
  · rw [if_neg h0, if_neg h0, getLsbD_shiftLeft, getLsbD_mbits _ (by omega)]
    have hon : ¬ i < 1 := by omega
    have hif : i - 1 ≤ p.msbShift - 1 ↔ i ≤ p.msbShift := by omega
    simp only [hi, hon, hif, decide_true, decide_false, Bool.not_false, Bool.true_and,
      zero_le, true_and]

variable {p} in
theorem Narrow.hash (h : p.Narrow x) : p.Narrow (p.hash x) := by
  intro i hi
  by_cases h64 : i < 64
  · rw [getLsbD_hash _ _ h64, if_neg (by omega)]
    exact h _ (by omega)
  · exact getLsbD_of_ge _ _ (Nat.le_of_not_lt h64)

theorem narrow_dehash (x : Addr) : p.Narrow (p.dehash x) := by
  intro i hi
  by_cases h64 : i < 64
  · rw [getLsbD_dehash _ _ h64, if_neg (by omega), decide_eq_false (by omega), Bool.and_false]
  · exact getLsbD_of_ge _ _ (Nat.le_of_not_lt h64)

variable {p} in
theorem Narrow.hash_iterate (h : p.Narrow x) (k : Nat) : p.Narrow (p.hash^[k] x) := by
  induction k with
  | zero => exact h
  | succ k ih =>
    rw [iterate_succ_apply']
    exact ih.hash

theorem dehash_hash (h : p.Narrow x) : p.dehash (p.hash x) = x := by
  have hlt := p.msbShift_lt
  have hpo := p.msbShift_pos
  refine (p.narrow_dehash _).ext h fun i hi => ?_
  rw [getLsbD_dehash _ _ (by omega)]
  by_cases h0 : i = 0
  · rw [if_pos h0, getLsbD_hash _ _ (by omega), getLsbD_hash _ _ (by omega), if_neg (by omega),
      if_pos rfl, Nat.sub_add_cancel hpo, h0]
    cases x.getLsbD 0 <;> simp
  · rw [if_neg h0, getLsbD_hash _ _ (by omega), if_neg (by omega),
      Nat.sub_add_cancel (by omega), decide_eq_true hi, Bool.and_true]

theorem hash_dehash (h : p.Narrow x) : p.hash (p.dehash x) = x := by
  have hlt := p.msbShift_lt
  have hpos := p.msbShift_pos
  refine (p.narrow_dehash x).hash.ext h fun i hi => ?_
  rw [getLsbD_hash _ _ (by omega)]
  by_cases hms : i = p.msbShift
  · rw [if_pos hms, getLsbD_dehash _ _ (by omega), getLsbD_dehash _ _ (by omega), if_pos rfl,
      if_neg (by omega), decide_eq_true le_rfl, Bool.and_true, hms]
    cases x.getLsbD (p.msbShift - 1) <;> simp
  · rw [if_neg hms, getLsbD_dehash _ _ (by omega), if_neg (by omega), Nat.add_sub_cancel,
      decide_eq_true (by omega), Bool.and_true]

theorem hash_xor (x y : Addr) : p.hash (x ^^^ y) = p.hash x ^^^ p.hash y := by
  refine eq_of_getLsbD_eq fun i hi => ?_
  simp only [getLsbD_xor, getLsbD_hash _ _ hi]
  split
  · cases x.getLsbD 0 <;> cases x.getLsbD p.msbShift <;> simp
  · rfl

theorem hash_iterate_xor_distrib (x y : Addr) (k : Nat) :
    p.hash^[k] (x ^^^ y) = p.hash^[k] x ^^^ p.hash^[k] y := by
  induction k with
  | zero => rfl
  | succ k ih => simp only [iterate_succ_apply', ih, hash_xor]

theorem isShiftRegister_hash : IsShiftRegister BitVec.getLsbD p.msbShift p.hash where
  shift x i hi := by
    have hlt := p.msbShift_lt
    rw [getLsbD_hash _ _ (by omega), if_neg (by omega)]
  feed x := by
    have hlt := p.msbShift_lt
    rw [getLsbD_hash _ _ (by omega), if_pos rfl]

/-- **Around the register.** One hash more than `msbShift` is the start and `msbShift` hashes. -/
theorem hash_iterate_succ (h : p.Narrow x) :
    p.hash^[p.msbShift + 1] x = x ^^^ p.hash^[p.msbShift] x := by
  refine (h.hash_iterate _).ext (h.xor (h.hash_iterate _)) fun i hi => ?_
  rw [p.isShiftRegister_hash.bit_iterate_succ x hi, getLsbD_xor]

theorem hash_iterate_hash_xor (h : p.Narrow x) : p.hash^[p.msbShift] (p.hash x ^^^ x) = x := by
  rw [hash_iterate_xor_distrib, ← iterate_succ_apply, hash_iterate_succ p h, xor_cancel_right]

theorem hash_iterate_dehash_xor (h : p.Narrow x) :
    p.hash^[p.msbShift + 1] (p.dehash x ^^^ x) = x := by
  rw [iterate_succ_apply, hash_xor, p.hash_dehash h, BitVec.xor_comm, hash_iterate_hash_xor p h]

theorem dehash_iterate_hash_iterate (h : p.Narrow x) (k : Nat) :
    p.dehash^[k] (p.hash^[k] x) = x := by
  induction k with
  | zero => rfl
  | succ k ih =>
    rw [iterate_succ_apply, iterate_succ_apply', p.dehash_hash (h.hash_iterate k), ih]

/-! ### Skewing and back -/

theorem narrow_skewFunction {a b : Addr} (ha : p.Narrow a) (hb : p.Narrow b) :
    p.Narrow (p.skewFunction way a b) := by
  have hd := p.narrow_dehash a
  have hdb := p.narrow_dehash b
  unfold skewFunction
  split
  · exact (ha.hash.xor hb.hash).xor hb
  · exact (ha.hash.xor hb.hash).xor ha
  · exact (ha.hash.xor hdb).xor hb
  · exact (ha.hash.xor hdb).xor ha
  · exact (hd.xor hb.hash).xor hb
  · exact (hd.xor hb.hash).xor ha
  · exact (hd.xor hdb).xor hb
  · exact (hd.xor hdb).xor ha

theorem deskewFunction_skewFunction {a : Addr} (ha : p.Narrow a) (b : Addr) :
    p.deskewFunction way (p.skewFunction way a b) b = a := by
  unfold deskewFunction skewFunction
  split <;> simp only [xor_cancel_middle, xor_cancel_right, p.dehash_hash ha, p.hash_dehash ha,
    p.hash_iterate_hash_xor ha, p.hash_iterate_dehash_xor ha]

theorem narrow_skew : p.Narrow (p.skew addr way) :=
  (p.narrow_skewFunction way (p.narrow_addr1 addr) (p.narrow_addr2 addr)).hash_iterate _

/-- **`deskew` undoes `skew`**, from any word with the skewed bits in place of the set bits. -/
theorem deskew_of_skew {addr skewed : Addr} {way : Nat} (hlo : p.addr1 skewed = p.skew addr way)
    (hhi : p.addr2 skewed = p.addr2 addr) : p.deskew skewed way = p.addr1 addr := by
  have hna := p.narrow_skewFunction way (p.narrow_addr1 addr) (p.narrow_addr2 addr)
  have hun : (if 8 ≤ way then p.dehash^[way / 8] (p.addr1 skewed) else p.addr1 skewed) =
      p.skewFunction way (p.addr1 addr) (p.addr2 addr) := by
    rw [hlo, skew]
    split
    · exact p.dehash_iterate_hash_iterate hna _
    · rw [div_eq_of_lt (by omega)]
      rfl
  rw [deskew, hun, hhi, p.deskewFunction_skewFunction way (p.narrow_addr1 addr)]

/-! ### Addresses -/

theorem and_setMask (h : p.Narrow x) : x &&& p.setMask = x := by
  refine eq_of_getLsbD_eq fun i hi => ?_
  rw [getLsbD_and, setMask_eq, getLsbD_mask, decide_eq_true hi, Bool.and_true]
  by_cases hl : p.msbShift < i
  · rw [h i hl, Bool.false_and]
  · rw [decide_eq_true (by omega), Bool.and_true]

theorem setWidth_extractSet :
    (p.extractSet addr way).setWidth 64 = p.skew (addr >>> p.setShift) way := by
  have hn := p.narrow_skew (addr >>> p.setShift) way
  have hlt := p.msbShift_lt
  rw [extractSet, p.and_setMask hn]
  refine eq_of_getLsbD_eq fun i hi => ?_
  rw [getLsbD_setWidth, getLsbD_setWidth, decide_eq_true hi, Bool.true_and]
  by_cases h32 : i < 32
  · rw [decide_eq_true h32, Bool.true_and]
  · rw [decide_eq_false h32, Bool.false_and, hn i (by omega)]

theorem getLsbD_addrSet (hx : p.Narrow x) (hi : i < 64) :
    ((addr >>> p.tagShift) <<< (p.msbShift + 1) ||| x).getLsbD i =
      if i ≤ p.msbShift then x.getLsbD i else addr.getLsbD (p.setShift + i) := by
  rw [getLsbD_or, getLsbD_shiftLeft, getLsbD_ushiftRight, decide_eq_true hi,
    Bool.true_and, tagShift, p.floorLog2_numSets]
  by_cases hl : i ≤ p.msbShift
  · rw [if_pos hl, decide_eq_true (by omega), Bool.not_true, Bool.false_and, Bool.false_or]
  · rw [if_neg hl, hx i (Nat.lt_of_not_le hl), Bool.or_false, decide_eq_false (by omega),
      Bool.not_false, Bool.true_and]
    congr 1
    omega

theorem regenerateAddr_extractSet :
    p.regenerateAddr (p.extractTag addr) ⟨p.extractSet addr way, way⟩ =
      addr &&& ~~~ mask p.setShift := by
  have hle := p.bits_le
  have hsk := p.narrow_skew (addr >>> p.setShift) way
  have hlo := p.floorLog2_numSets
  have hde : p.deskew ((addr >>> p.tagShift) <<< (p.msbShift + 1) |||
      p.skew (addr >>> p.setShift) way) way = p.addr1 (addr >>> p.setShift) := by
    refine p.deskew_of_skew ?_ ?_
    · refine (p.narrow_addr1 _).ext hsk fun i hi => ?_
      rw [addr1, getLsbD_bits _ (zero_le _), zero_add, p.getLsbD_addrSet _ hsk (by omega),
        if_pos hi, decide_eq_true hi, Bool.and_true]
    · refine (p.narrow_addr2 _).ext (p.narrow_addr2 _) fun i hi => ?_
      rw [addr2, addr2, getLsbD_bits _ (by omega), getLsbD_bits _ (by omega),
        p.getLsbD_addrSet _ hsk (by omega), if_neg (by omega), getLsbD_ushiftRight]
  refine eq_of_getLsbD_eq fun i hi => ?_
  simp only [regenerateAddr, extractTag, setWidth_extractSet, hde, p.and_setMask (p.narrow_addr1 _)]
  -- below `setShift` both are zero, below `tagShift` the set bits come back, above is the tag
  rw [getLsbD_or, getLsbD_shiftLeft, getLsbD_ushiftRight,
    getLsbD_shiftLeft, getLsbD_and, getLsbD_not, getLsbD_mask, tagShift, hlo,
    addr1, getLsbD_bits _ (zero_le _), getLsbD_ushiftRight, zero_add]
  by_cases hs : i < p.setShift
  · simp [hs]
    omega
  · by_cases ht : i < p.setShift + (p.msbShift + 1)
    · have hid : p.setShift + (i - p.setShift) = i := by omega
      have hin : i - p.setShift ≤ p.msbShift := by omega
      simp only [hi, ht, hs, hid, hin, decide_true, decide_false, Bool.not_true,
        Bool.not_false, Bool.true_and, Bool.and_true, Bool.false_and, Bool.false_or]
    · have hid : p.setShift + (p.msbShift + 1) + (i - (p.setShift + (p.msbShift + 1))) = i := by
        omega
      have hou : ¬ i - p.setShift ≤ p.msbShift := by omega
      simp only [hi, ht, hs, hid, hou, decide_true, decide_false, Bool.not_false,
        Bool.true_and, Bool.and_true, Bool.and_false, Bool.or_false]

/-- **Skewed indexing is invertible.** `hash` and `dehash` are mutually inverse on set indices,
`deskew` undoes `skew` for every way, and the address of a block is regenerated from its tag, set
and way. -/
theorem skewed_indexing_invertible :
    (∀ x : Addr, x.toNat < p.numSets → p.dehash (p.hash x) = x ∧ p.hash (p.dehash x) = x ∧
      (p.hash x).toNat < p.numSets ∧ (p.dehash x).toNat < p.numSets) ∧
    (∀ (addr skewed : Addr) (way : Nat), p.addr1 skewed = p.skew addr way →
      p.addr2 skewed = p.addr2 addr → p.deskew skewed way = p.addr1 addr) ∧
    ∀ (addr : Addr) (way : Nat),
      p.regenerateAddr (addr >>> p.tagShift) ⟨p.extractSet addr way, way⟩ =
        addr &&& ~~~ mask p.setShift := by
  refine ⟨fun x hx => ?_, fun addr skewed way => p.deskew_of_skew, p.regenerateAddr_extractSet⟩
  have hn := p.narrow_iff_lt.mpr hx
  exact ⟨p.dehash_hash hn, p.hash_dehash hn, p.narrow_iff_lt.mp hn.hash,
    p.narrow_iff_lt.mp (p.narrow_dehash x)⟩

def fourSets : SkewedAssociative where
  assoc := 2
  numSets := 4
  setShift := 6
  assoc_pos := by decide
  numSets_lt := by decide
  isPowerOf2_numSets := by decide
  two_lt_numSets := by decide
  bits_le := by decide

theorem skewed_indexing_invertible_fourSets :
    fourSets.regenerateAddr (0xabcd#64 >>> fourSets.tagShift)
      ⟨fourSets.extractSet 0xabcd#64 1, 1⟩ = 0xabcd#64 &&& ~~~ mask 6 :=
  (skewed_indexing_invertible fourSets).2.2 0xabcd#64 1

end SkewedAssociative

end Gem5.Mem
