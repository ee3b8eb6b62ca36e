import Mathlib

/-!
# Gem5.Base.Bitfield

**Bit fields of machine words** (`src/base/bitfield.hh`, `src/base/intmath.hh`). The functions are
written with masks and shifts as in the source, on words of 64 bits. Each has one lemma that gives
the bits of its result, and no proof elsewhere unfolds them.

Bit positions are of type `unsigned`. The position after the last one is computed in 32 bits, so
that an empty field is written with the position `-1`.
-/

namespace Gem5.Base

open BitVec Nat

abbrev Addr := BitVec 64

instance : LawfulBEq Addr := inferInstance

/-! ### Fields -/

def mask (nbits : Nat) : Addr :=
  if 64 ≤ nbits then BitVec.allOnes 64 else (1#64 <<< nbits) - 1

def mbits (val : Addr) (first last : Nat) : Addr :=
  val &&& (mask ((first + 1) % 2 ^ 32) &&& ~~~ mask last)

def maskRange (first last : Nat) : Addr :=
  mbits (BitVec.allOnes 64) first last

def bits (val : Addr) (first last : Nat) : Addr :=
  (val >>> last) &&& mask (first - last + 1)

def bit (val : Addr) (b : Nat) : Addr :=
  bits val b b

def insertBits (val : Addr) (first last : Nat) (bitVal : Addr) : Addr :=
  let bmask := maskRange first last
  (val &&& ~~~ bmask) ||| ((bitVal <<< last) &&& bmask)

def insertBit (val : Addr) (b : Nat) (bitVal : Addr) : Addr :=
  insertBits val b b bitVal

variable (val : Addr) (nbits first last : Nat)

theorem toNat_mask : (mask nbits).toNat = 2 ^ min nbits 64 - 1 := by
  unfold mask
  split
  next h => rw [toNat_allOnes, min_eq_right h]
  next h =>
    have hlt : nbits < 64 := Nat.lt_of_not_le h
    have hpo : 2 ^ nbits < 2 ^ 64 := Nat.pow_lt_pow_right (by decide) hlt
    have hpos : 0 < 2 ^ nbits := Nat.two_pow_pos nbits
    have hon : (1 : Addr).toNat = 1 := rfl
    rw [min_eq_left hlt.le, toNat_sub, toNat_shiftLeft, toNat_ofNat, hon, one_shiftLeft,
      mod_eq_of_lt hpo]
    omega

@[simp] theorem getLsbD_mask (i : Nat) :
    (mask nbits).getLsbD i = (decide (i < nbits) && decide (i < 64)) := by
  rw [getLsbD, toNat_mask, testBit_two_pow_sub_one, ← Bool.decide_and]
  exact decide_eq_decide.mpr Nat.lt_min

theorem getLsbD_maskRange (i : Nat) :
    (maskRange first last).getLsbD i = decide (last ≤ i ∧ i < (first + 1) % 2 ^ 32 ∧ i < 64) := by
  simp only [maskRange, mbits, getLsbD_and, getLsbD_allOnes, getLsbD_not, getLsbD_mask]
  grind

theorem getLsbD_mbits {first : Nat} (h : first < 64) (last i : Nat) :
    (mbits val first last).getLsbD i = (val.getLsbD i && decide (last ≤ i ∧ i ≤ first)) := by
  simp only [mbits, getLsbD_and, getLsbD_not, getLsbD_mask]
  grind

theorem getLsbD_bits {first last : Nat} (h : last ≤ first) (i : Nat) :
    (bits val first last).getLsbD i = (val.getLsbD (last + i) && decide (last + i ≤ first)) := by
  rw [bits, getLsbD_and, getLsbD_ushiftRight, getLsbD_mask]
  by_cases hi : last + i < 64
  · grind
  · rw [getLsbD_of_ge _ _ (Nat.le_of_not_lt hi), Bool.false_and, Bool.false_and]

theorem getLsbD_bit (b i : Nat) : (bit val b).getLsbD i = (val.getLsbD b && decide (i = 0)) := by
  rw [bit, getLsbD_bits val le_rfl]
  cases i with
  | zero => simp
  | succ i => simp

variable {i : Nat}

theorem getLsbD_insertBits (bitVal : Addr) (hi : i < 64) :
    (insertBits val first last bitVal).getLsbD i =
      if last ≤ i ∧ i < (first + 1) % 2 ^ 32 then bitVal.getLsbD (i - last) else val.getLsbD i := by
  simp only [insertBits, getLsbD_or, getLsbD_and, getLsbD_not, getLsbD_maskRange]
  grind

theorem getLsbD_insertBit {b : Nat} (hb : b < 64) (bitVal : Addr) (hi : i < 64) :
    (insertBit val b bitVal).getLsbD i = if i = b then bitVal.getLsbD 0 else val.getLsbD i := by
  rw [insertBit, getLsbD_insertBits _ _ _ _ hi]
  by_cases hib : i = b
  · rw [if_pos (by omega), if_pos hib, hib, Nat.sub_self]
  · rw [if_neg (by omega), if_neg hib]

/-! ### Single bits -/

variable {w n : Nat} {value : Addr} {p : Nat × Nat}

theorem getLsbD_one_shiftLeft (i j : Nat) : (1#w <<< i).getLsbD j = decide (j = i ∧ j < w) := by
  grind

theorem one_shiftLeft_and_ne_zero (m : BitVec w) (i : Nat) :
    (1#w <<< i) &&& m ≠ 0 ↔ m.getLsbD i = true := by
  change ¬ (1#w <<< i) &&& m = 0#w ↔ _
  rw [zero_iff_eq_false]
  simp only [getLsbD_and, getLsbD_one_shiftLeft]
  constructor
  · intro h
    by_contra hb
    refine h fun j => ?_
    by_cases hj : j = i
    · rw [hj, Bool.eq_false_of_not_eq_true hb, Bool.and_false]
    · rw [decide_eq_false fun h => hj h.1, Bool.false_and]
  · intro hb h
    have hz := h i
    rw [hb, decide_eq_true ⟨rfl, lt_of_getLsbD hb⟩] at hz
    cases hz

/-! ### Counts -/

def popCount (val : Addr) : Nat :=
  val.cpop.toNat

/-- `ctz64`, which is 64 for zero. -/
def ctz64 (value : Addr) : Nat :=
  value.ctz.toNat

theorem getLsbD_ctz64 (h : value ≠ 0#64) : value.getLsbD (ctz64 value) :=
  getLsbD_true_ctz_of_ne_zero h

theorem getLsbD_of_lt_ctz64 (h : i < ctz64 value) : value.getLsbD i = false :=
  getLsbD_false_of_lt_ctz h

theorem ctz64_lt (h : value ≠ 0#64) : ctz64 value < 64 :=
  lt_of_getLsbD (getLsbD_ctz64 h)

/-! ### Powers of two -/

/-- One step of `floorLog2`: if a bit of the upper `w` of `2 * w` bits is set, the lower ones are
shifted off and counted. -/
def floorLog2Step (w : Nat) (p : Nat × Nat) : Nat × Nat :=
  if p.2 &&& ((2 ^ w - 1) <<< w) ≠ 0 then (p.1 + w, p.2 >>> w) else p

/-- `floorLog2`, on 64 bits. -/
def floorLog2 (x : Nat) : Nat :=
  (floorLog2Step 1 <| floorLog2Step 2 <| floorLog2Step 4 <| floorLog2Step 8 <|
    floorLog2Step 16 <| floorLog2Step 32 (0, x)).1

def isPowerOf2 (n : Nat) : Bool :=
  n != 0 && n &&& (n - 1) == 0

theorem floorLog2Step_cases (hlt : p.2 < 2 ^ (2 * w)) :
    (p.2 < 2 ^ w ∧ floorLog2Step w p = p) ∨
      (2 ^ w ≤ p.2 ∧ floorLog2Step w p = (p.1 + w, p.2 >>> w)) := by
  by_cases hl : 2 ^ w ≤ p.2
  · refine .inr ⟨hl, if_pos fun hz => ?_⟩
    obtain ⟨i, hi, hb⟩ := exists_ge_and_testBit_of_ge_two_pow hl
    have hi2 : i < 2 * w := by
      by_contra hg
      exact absurd (ge_two_pow_of_testBit hb)
        (not_le.mpr (hlt.trans_le (Nat.pow_le_pow_right (by decide) (Nat.le_of_not_lt hg))))
    have hfa := congrArg (testBit · i) hz
    simp [hb, hi] at hfa
    omega
  · refine .inl ⟨Nat.lt_of_not_le hl, if_neg (not_not.mpr (eq_of_testBit_eq fun i => ?_))⟩
    rw [testBit_and, zero_testBit]
    by_cases hi : w ≤ i
    · rw [testBit_lt_two_pow ((Nat.lt_of_not_le hl).trans_le
        (Nat.pow_le_pow_right (by decide) hi)), Bool.false_and]
    · simp [hi]

theorem floorLog2Step_spec (hpo : p.2 ≠ 0) (hlt : p.2 < 2 ^ (2 * w)) :
    (floorLog2Step w p).2 ≠ 0 ∧ (floorLog2Step w p).2 < 2 ^ w ∧
      (floorLog2Step w p).1 + Nat.log 2 (floorLog2Step w p).2 = p.1 + Nat.log 2 p.2 := by
  obtain ⟨hw, heq⟩ | ⟨hw, heq⟩ := floorLog2Step_cases hlt
  · rw [heq]
    exact ⟨hpo, hw, rfl⟩
  · rw [heq]
    have hlog : w ≤ log 2 p.2 := le_log_of_pow_le (by decide) hw
    refine ⟨?_, ?_, ?_⟩
    · rw [shiftRight_eq_div_pow]
      exact (div_pos hw (Nat.two_pow_pos w)).ne'
    · rw [shiftRight_eq_div_pow]
      exact Nat.div_lt_of_lt_mul (by rwa [← pow_add, ← Nat.two_mul])
    · simp only [shiftRight_eq_div_pow, log_div_base_pow]
      omega

theorem floorLog2_eq_log {x : Nat} (hpo : x ≠ 0) (hl : x < 2 ^ 64) : floorLog2 x = Nat.log 2 x := by
  obtain ⟨h32, hl32, ho32⟩ := floorLog2Step_spec (p := (0, x)) hpo (w := 32) hl
  obtain ⟨h16, hl16, ho16⟩ := floorLog2Step_spec h32 (w := 16) hl32
  obtain ⟨h8, hl8, ho8⟩ := floorLog2Step_spec h16 (w := 8) hl16
  obtain ⟨h4, hl4, ho4⟩ := floorLog2Step_spec h8 (w := 4) hl8
  obtain ⟨h2, hl2, ho2⟩ := floorLog2Step_spec h4 (w := 2) hl4
  obtain ⟨h1, hl1, ho1⟩ := floorLog2Step_spec h2 (w := 1) hl2
  rw [pow_one] at hl1
  rw [log_of_lt hl1] at ho1
  unfold floorLog2
  simp only at ho32
  omega

theorem isPowerOf2_iff : isPowerOf2 n ↔ ∃ k, n = 2 ^ k := by
  simp only [isPowerOf2, Bool.and_eq_true, bne_iff_ne, beq_iff_eq]
  constructor
  · intro ⟨hpo, han⟩
    have hl : 2 ^ log 2 n ≤ n := pow_log_le_self 2 hpo
    refine ⟨log 2 n, hl.antisymm' ?_⟩
    by_contra hlt
    -- the top bit of `n` is also the top bit of `n - 1`
    have ht : ∀ m, 2 ^ log 2 n ≤ m → m ≤ n → m.testBit (log 2 n) := fun m hm hmn =>
      testBit_of_two_pow_le_and_two_pow_add_one_gt hm
        (hmn.trans_lt (lt_pow_succ_log_self (by decide) n))
    have hfa := congrArg (testBit · (log 2 n)) han
    simp [ht n hl le_rfl, ht (n - 1) (by omega) (by omega)] at hfa
  · rintro ⟨k, rfl⟩
    exact ⟨(Nat.two_pow_pos k).ne', by rw [and_two_pow_sub_one_eq_mod, mod_self]⟩

theorem eq_two_pow_floorLog2 (h : isPowerOf2 n) (hlt : n < 2 ^ 64) : n = 2 ^ floorLog2 n := by
  obtain ⟨k, rfl⟩ := isPowerOf2_iff.mp h
  rw [floorLog2_eq_log (Nat.two_pow_pos k).ne' hlt, log_pow (by decide)]

end Gem5.Base
