import Mathlib

/-!
# Gem5.Lib.ShiftRegister

**Shift registers with one tap.** A step of a register of `n + 1` bits shifts every bit down by one
position and fills the top with the exclusive or of the old lowest and highest bits. Bit `0` of the
successive states is a stream of which every state is a window, and the recurrence of the stream
says that `n + 1` steps are `n` steps and the start together.
-/

namespace Gem5.Lib

structure IsShiftRegister {σ : Type*} (bit : σ → Nat → Bool) (n : Nat) (step : σ → σ) : Prop where
  shift : ∀ x, ∀ i < n, bit (step x) i = bit x (i + 1)
  feed : ∀ x, bit (step x) n = (bit x 0 ^^ bit x n)

namespace IsShiftRegister

variable {σ : Type*} {bit : σ → Nat → Bool} {n : Nat} {step : σ → σ}

section

variable (h : IsShiftRegister bit n step)
include h

/-- Every state is a window of the stream. -/
theorem bit_iterate (x : σ) : ∀ k i, i ≤ n → bit (step^[k] x) i = bit (step^[k + i] x) 0 := by
  intro k i
  induction i generalizing k with
  | zero => intro _; rfl
  | succ i ih =>
    intro hi
    rw [← h.shift _ i (by omega), ← Function.iterate_succ_apply' step, ih (k + 1) (by omega),
      Nat.add_right_comm, Nat.add_assoc]

/-- The recurrence of the stream. -/
theorem bit_zero_iterate (x : σ) (k : Nat) :
    bit (step^[k + (n + 1)] x) 0 = (bit (step^[k] x) 0 ^^ bit (step^[k + n] x) 0) := by
  calc bit (step^[k + (n + 1)] x) 0
      = bit (step^[k + 1] x) n := by rw [h.bit_iterate x (k + 1) n (Nat.le_refl n)]; congr 2; omega
    _ = (bit (step^[k] x) 0 ^^ bit (step^[k] x) n) := by
        rw [Function.iterate_succ_apply', h.feed]
    _ = (bit (step^[k] x) 0 ^^ bit (step^[k + n] x) 0) := by rw [h.bit_iterate x k n (Nat.le_refl n)]

/-- **`n + 1` steps are `n` steps and the start, together.** -/
theorem bit_iterate_succ (x : σ) {i : Nat} (hi : i ≤ n) :
    bit (step^[n + 1] x) i = (bit x i ^^ bit (step^[n] x) i) := by
  have hst : bit x i = bit (step^[i] x) 0 := by
    simpa using h.bit_iterate x 0 i hi
  rw [h.bit_iterate x (n + 1) i hi, h.bit_iterate x n i hi, hst, Nat.add_comm (n + 1) i,
    Nat.add_comm n i, h.bit_zero_iterate]

end

end IsShiftRegister

end Gem5.Lib
