import Mathlib

/-!
# 128-bit products

The portable multiplications of `base/intmath.hh`. A word is cut into two halves, the four partial
products of halves fit a word each, and what has to be shown is that summing the middle ones by
their halves loses no carry.
-/

namespace Gem5.Base

open Nat BitVec

/-- `mulUnsignedManual`: the high and the low word of a product, from 32-bit partial products. -/
def mulUnsignedManual (valA valB : BitVec 64) : BitVec 64 × BitVec 64 :=
  let low := valA * valB
  let A := ((valA >>> 32).setWidth 32).setWidth 64
  let a := (valA.setWidth 32).setWidth 64
  let B := ((valB >>> 32).setWidth 32).setWidth 64
  let b := (valB.setWidth 32).setWidth 64
  let ab := a * b
  let Ab := A * b
  let aB := a * B
  let AB := A * B
  let c1 := ((ab >>> 32).setWidth 32).setWidth 64
  -- The halves are added first and the carry out of their lowest bits afterwards.
  let c2 := (c1 >>> 1) + (Ab >>> 1) + (aB >>> 1)
  let c2 := c2 + (((c1 &&& 1) + (Ab &&& 1) + (aB &&& 1)) >>> 1)
  (AB + c2 >>> 31, low)

/-- `mulUnsigned`, in a build with 128-bit integers and in one without. -/
def mulUnsigned (int128 : Bool) (valA valB : BitVec 64) : BitVec 64 × BitVec 64 :=
  if int128 then
    let val := valA.setWidth 128 * valB.setWidth 128
    ((val >>> 64).setWidth 64, val.setWidth 64)
  else mulUnsignedManual valA valB

/-- `mulSignedManual`: the unsigned product, its high word corrected for each negative operand. -/
def mulSignedManual (int128 : Bool) (valA valB : BitVec 64) : BitVec 64 × BitVec 64 :=
  let (uHigh, uLow) := mulUnsigned int128 valA valB
  let uHigh := if valA.toInt < 0 then uHigh - valB else uHigh
  let uHigh := if valB.toInt < 0 then uHigh - valA else uHigh
  (uHigh, uLow)

/-! ### The unsigned product -/

theorem mul_le_of_lt_half {m n : Nat} (hm : m < 2 ^ 32) (hn : n < 2 ^ 32) :
    m * n ≤ (2 ^ 32 - 1) * (2 ^ 32 - 1) :=
  Nat.mul_le_mul (by omega) (by omega)

/-- **The carry of the middle place is exact**: adding the halves first loses no carry. -/
theorem toNat_middleCarry {c1 Ab aB : BitVec 64} (hc : c1.toNat < 2 ^ 32)
    (hA : Ab.toNat ≤ (2 ^ 32 - 1) * (2 ^ 32 - 1)) (hB : aB.toNat ≤ (2 ^ 32 - 1) * (2 ^ 32 - 1)) :
    (((c1 >>> 1) + (Ab >>> 1) + (aB >>> 1) +
        (((c1 &&& 1) + (Ab &&& 1) + (aB &&& 1)) >>> 1)) >>> 31).toNat =
      (c1.toNat + Ab.toNat + aB.toNat) / 2 ^ 32 := by
  have han (x : BitVec 64) : (x &&& 1).toNat = x.toNat % 2 := by
    exact and_one_is_mod _
  simp only [toNat_ushiftRight, toNat_add, han, shiftRight_eq_div_pow]
  omega

theorem mul_eq_places (m n : Nat) :
    m * n = (m / 2 ^ 32) * (n / 2 ^ 32) * 2 ^ 64 +
      ((m / 2 ^ 32) * (n % 2 ^ 32) + (m % 2 ^ 32) * (n / 2 ^ 32)) * 2 ^ 32 +
      (m % 2 ^ 32) * (n % 2 ^ 32) := by
  conv_lhs => rw [← div_add_mod m (2 ^ 32), ← div_add_mod n (2 ^ 32)]
  ring

/-- **The portable product is exact.** -/
theorem mulUnsignedManual_exact (valA valB : BitVec 64) :
    (mulUnsignedManual valA valB).1.toNat * 2 ^ 64 + (mulUnsignedManual valA valB).2.toNat =
      valA.toNat * valB.toNat := by
  have hl (x : BitVec 64) : ((x.setWidth 32).setWidth 64).toNat = x.toNat % 2 ^ 32 := by
    rw [toNat_setWidth_of_le (by decide), toNat_setWidth]
  have hh (x : BitVec 64) : (((x >>> 32).setWidth 32).setWidth 64).toNat = x.toNat / 2 ^ 32 := by
    rw [hl, toNat_ushiftRight]
    omega
  have hl' (x : BitVec 64) : x.toNat % 2 ^ 32 < 2 ^ 32 := mod_lt _ (by decide)
  have hh' (x : BitVec 64) : x.toNat / 2 ^ 32 < 2 ^ 32 := by omega
  have hab := mul_le_of_lt_half (hl' valA) (hl' valB)
  have hAb := mul_le_of_lt_half (hh' valA) (hl' valB)
  have haB := mul_le_of_lt_half (hl' valA) (hh' valB)
  have hAB := mul_le_of_lt_half (hh' valA) (hh' valB)
  have hp := mul_eq_places valA.toNat valB.toNat
  have hm {x y : BitVec 64} {m n : Nat} (hx : x.toNat = m) (hy : y.toNat = n)
      (h : m * n ≤ (2 ^ 32 - 1) * (2 ^ 32 - 1)) : (x * y).toNat = m * n := by
    rw [toNat_mul, hx, hy, mod_eq_of_lt (by omega)]
  simp only [mulUnsignedManual]
  rw [toNat_add, toNat_middleCarry, hh, hm (hh _) (hh _) hAB, hm (hl _) (hl _) hab,
    hm (hh _) (hl _) hAb, hm (hl _) (hh _) haB, toNat_mul]
  · omega
  · rw [hh]
    exact hh' _
  · rwa [hm (hh _) (hl _) hAb]
  · rwa [hm (hl _) (hh _) haB]

theorem mulUnsigned_exact (int128 : Bool) (valA valB : BitVec 64) :
    (mulUnsigned int128 valA valB).1.toNat * 2 ^ 64 + (mulUnsigned int128 valA valB).2.toNat =
      valA.toNat * valB.toNat := by
  cases int128 with
  | false => exact mulUnsignedManual_exact valA valB
  | true =>
    have hlt := Nat.mul_lt_mul'' valA.isLt valB.isLt
    simp [mulUnsigned, shiftRight_eq_div_pow]
    omega

/-! ### The signed product -/

theorem toInt_cases (x : BitVec 64) :
    (0 ≤ x.toInt ∧ x.toInt < 2 ^ 63 ∧ (x.toNat : Int) = x.toInt) ∨
      (-2 ^ 63 ≤ x.toInt ∧ x.toInt < 0 ∧ (x.toNat : Int) = x.toInt + 2 ^ 64) := by
  rw [toInt_eq_toNat_cond]
  split <;> omega

theorem toInt_append_eq {hi low : BitVec 64} {z : Int} (hz : z.natAbs ≤ 2 ^ 63 * 2 ^ 63)
    (hmod : ((hi.toNat : Int) * 2 ^ 64 + low.toNat - z) % 2 ^ 128 = 0) :
    (hi ++ low).toInt = z := by
  rw [toInt_append, if_neg (by decide)]
  rcases toInt_cases hi with h | h <;> omega

/-- **The signed product is exact**: of the four partial terms of
`(a + 2^64) * (b + 2^64)` the two corrections remove the middle ones, and the last is a whole turn
of 128 bits. -/
theorem mulSignedManual_exact (int128 : Bool) (valA valB : BitVec 64) :
    ((mulSignedManual int128 valA valB).1 ++ (mulSignedManual int128 valA valB).2).toInt =
      valA.toInt * valB.toInt := by
  have hu : ((mulUnsigned int128 valA valB).1.toNat : Int) * 2 ^ 64 +
      (mulUnsigned int128 valA valB).2.toNat = valA.toNat * valB.toNat := by
    exact_mod_cast mulUnsigned_exact int128 valA valB
  have hr (x : BitVec 64) : x.toInt.natAbs ≤ 2 ^ 63 := by
    rcases toInt_cases x with h | h <;> omega
  apply toInt_append_eq
  · rw [Int.natAbs_mul]
    exact Nat.mul_le_mul (hr valA) (hr valB)
  simp only [mulSignedManual]
  rcases toInt_cases valA with ⟨hA, -, hA'⟩ | ⟨-, hA, hA'⟩ <;>
    rcases toInt_cases valB with ⟨hB, -, hB'⟩ | ⟨-, hB, hB'⟩ <;>
    rw [hA', hB'] at hu <;>
    simp only [hA, hB, Int.not_lt.2, if_true, if_false, toNat_sub] <;>
    ring_nf at hu <;>
    omega

/-- **Portable 64-bit multiplication**: the unsigned words hold the exact product and the signed
words its two's-complement form. -/
theorem mulManual_exact (valA valB : BitVec 64) :
    (mulUnsignedManual valA valB).1.toNat * 2 ^ 64 + (mulUnsignedManual valA valB).2.toNat =
        valA.toNat * valB.toNat ∧
      ∀ int128, ((mulSignedManual int128 valA valB).1 ++
        (mulSignedManual int128 valA valB).2).toInt = valA.toInt * valB.toInt :=
  ⟨mulUnsignedManual_exact valA valB, fun int128 => mulSignedManual_exact int128 valA valB⟩

end Gem5.Base
