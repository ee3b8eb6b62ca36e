import Mathlib

/-!
# Gem5.Lib.Bits

Splitting a word at a bit position. `high`/`low` parts are spelled with shifts
and masks in the sources; the lemmas below move between that spelling and
division with remainder, where `omega` and the `Nat.mod` lemmas apply.
-/

namespace Gem5.Lib

open Nat

/-- Words that agree above bit `i` agree above every higher bit. -/
theorem shiftRight_eq_of_le {a b i j : Nat} (h : a >>> i = b >>> i) (hij : i ≤ j) :
    a >>> j = b >>> j := by
  obtain ⟨d, rfl⟩ := Nat.exists_eq_add_of_le hij
  rw [shiftRight_add, shiftRight_add, h]

theorem eq_of_high_low {a b i : Nat} (hh : a >>> i = b >>> i)
    (hlo : a % 2 ^ i = b % 2 ^ i) : a = b := by
  rw [shiftRight_eq_div_pow, shiftRight_eq_div_pow] at hh
  rw [← div_add_mod a (2 ^ i), ← div_add_mod b (2 ^ i), hh, hlo]

def splice (a b i : Nat) : Nat :=
  ((a >>> i) <<< i) ||| (b &&& (2 ^ i - 1))

theorem splice_eq (a b i : Nat) : splice a b i = 2 ^ i * (a / 2 ^ i) + b % 2 ^ i := by
  have hlt : b % 2 ^ i < 2 ^ i := mod_lt _ (Nat.two_pow_pos i)
  unfold splice
  rw [and_two_pow_sub_one_eq_mod, ← shiftLeft_add_eq_or_of_lt hlt,
    shiftLeft_eq, shiftRight_eq_div_pow]
  ring

@[simp] theorem splice_high (a b i : Nat) : splice a b i >>> i = a >>> i := by
  have hlt : b % 2 ^ i < 2 ^ i := mod_lt _ (Nat.two_pow_pos i)
  rw [splice_eq, shiftRight_eq_div_pow, shiftRight_eq_div_pow,
    mul_add_div (Nat.two_pow_pos i), div_eq_of_lt hlt, add_zero]

@[simp] theorem splice_low (a b i : Nat) : splice a b i % 2 ^ i = b % 2 ^ i := by
  rw [splice_eq, mul_add_mod, mod_mod]

theorem splice_lt {a b i j : Nat} (ha : a < 2 ^ j) (hij : i ≤ j) : splice a b i < 2 ^ j := by
  have hh : splice a b i >>> j = 0 := by
    rw [shiftRight_eq_of_le (splice_high a b i) hij, shiftRight_eq_zero _ _ ha]
  rw [shiftRight_eq_div_pow] at hh
  exact (div_eq_zero_iff_lt (Nat.two_pow_pos j)).mp hh

end Gem5.Lib
