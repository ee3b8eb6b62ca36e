import Mathlib

/-!
# Gem5.Lib.XorFold

**A bit history folded into `width` bits.** The fold of `h 0, h 1, …, h (n - 1)` is the exclusive
or of the bits `h j`, each at position `j % width`. It can be kept up to date as the history is
shifted: shift the fold, put the new bit in, take the one that leaves the history out at
`n % width`, and wrap the bit that left the fold around (`wrap_shift_xorFold`).
-/

namespace Gem5.Lib

open Nat

def xorFold (width : Nat) (h : Nat → Bool) : Nat → Nat
  | 0 => 0
  | n + 1 => xorFold width h n ^^^ ((h n).toNat <<< (n % width))

/-- Add what is above `width` bits to what is below. -/
def wrapXor (width x : Nat) : Nat := (x ^^^ (x >>> width)) &&& (2 ^ width - 1)

variable {width : Nat} {h g : Nat → Bool}

theorem toNat_shiftLeft_lt (b : Bool) {k n : Nat} (hk : k < n) : b.toNat <<< k < 2 ^ n := by
  have hle : b.toNat * 2 ^ k ≤ 1 * 2 ^ k := mul_le_mul_right _ (Bool.toNat_le b)
  have hlt : 2 ^ k < 2 ^ n := Nat.pow_lt_pow_right (by decide) hk
  omega

theorem xorFold_lt (hw : 0 < width) (h : Nat → Bool) (n : Nat) : xorFold width h n < 2 ^ width := by
  induction n with
  | zero => exact Nat.two_pow_pos width
  | succ n ih => exact xor_lt_two_pow ih (toNat_shiftLeft_lt _ (mod_lt n hw))

theorem wrapXor_xor (width x y : Nat) :
    wrapXor width (x ^^^ y) = wrapXor width x ^^^ wrapXor width y := by
  unfold wrapXor
  rw [shiftRight_xor_distrib, ← and_xor_distrib_right]
  ac_rfl

/-- A single bit, at most one position too high. -/
theorem wrapXor_bit (hw : 0 < width) (b : Bool) {k : Nat} (hk : k ≤ width) :
    wrapXor width (b.toNat <<< k) = b.toNat <<< (k % width) := by
  unfold wrapXor
  rw [and_two_pow_sub_one_eq_mod]
  cases b with
  | false => simp
  | true =>
    rcases hk.eq_or_lt with rfl | hlt
    · have hsh : (true.toNat <<< k) >>> k = 1 := by simp
      rw [hsh]
      have hon : 1 < 2 ^ k := Nat.one_lt_two_pow hw.ne'
      simp [xor_mod_two_pow, one_shiftLeft, mod_eq_of_lt hon]
    · rw [mod_eq_of_lt hlt]
      have hsm := toNat_shiftLeft_lt true hlt
      rw [shiftRight_eq_div_pow, div_eq_of_lt hsm, xor_zero, mod_eq_of_lt hsm]

theorem shiftLeft_one_or (x : Nat) (b : Bool) : x <<< 1 ||| b.toNat = x <<< 1 ^^^ b.toNat := by
  refine eq_of_testBit_eq fun i => ?_
  rw [testBit_or, testBit_xor]
  cases i with
  | zero => simp
  | succ i =>
    have hb : b.toNat.testBit (i + 1) = false := by
      refine testBit_lt_two_pow ?_
      exact (Bool.toNat_le b).trans_lt (Nat.one_lt_two_pow (succ_ne_zero i))
    rw [hb]
    simp

/-- Every bit moves up by one, and the one at the top to the bottom. -/
theorem wrapXor_xorFold (hw : 0 < width) (hsu : ∀ j, g (j + 1) = h j) (n : Nat) :
    wrapXor width (xorFold width h n <<< 1) ^^^ (g 0).toNat = xorFold width g (n + 1) := by
  induction n with
  | zero => simp [wrapXor, xorFold]
  | succ n ih =>
    have hmo : (n % width + 1) % width = (n + 1) % width := mod_add_mod n width 1
    have hl : n % width + 1 ≤ width := mod_lt n hw
    rw [xorFold, shiftLeft_xor_distrib, wrapXor_xor, ← shiftLeft_add, wrapXor_bit hw _ hl, hmo]
    rw [xorFold, ← ih, hsu n]
    ac_rfl

/-- **The fold after a shift** of the history by one bit. -/
theorem wrap_shift_xorFold (hw : 0 < width) (hsu : ∀ j, g (j + 1) = h j) (n : Nat) :
    wrapXor width ((xorFold width h n <<< 1 ||| (g 0).toNat) ^^^
      ((g n).toNat <<< (n % width))) = xorFold width g n := by
  have hne : wrapXor width (g 0).toNat = (g 0).toNat := by
    have hbi := wrapXor_bit hw (g 0) (zero_le width)
    rwa [zero_mod] at hbi
  have hou : wrapXor width ((g n).toNat <<< (n % width)) = (g n).toNat <<< (n % width) := by
    rw [wrapXor_bit hw _ (mod_lt n hw).le, mod_mod]
  rw [shiftLeft_one_or, wrapXor_xor, wrapXor_xor, hne, hou, wrapXor_xorFold hw hsu,
    xorFold, Nat.xor_assoc, Nat.xor_self, xor_zero]

end Gem5.Lib
