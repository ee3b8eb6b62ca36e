import Mathlib

/-!
# Gem5.Lib.RollingBuffer

**A history in a table that is re-based when it is full.** The table is written downwards: the
newest element is at `pt`, the one before it at `pt + 1`, and so on. A push at position 0 first
copies the newest `window` elements to the end of the table, `period` positions up, and goes on
from there. So the newest elements are always next to each other, without a wrap-around.

An older position is still good as long as the pushes after it have not come around to its
window (`push_frame`): fewer than `period - window` pushes ago.
-/

namespace Gem5.Lib

open Function

variable {α : Type*}

structure RollingBuffer (α : Type*) where
  tab : Nat → α
  pt : Nat

namespace RollingBuffer

variable {period window : Nat}

/-- Copy the first `window` elements to the end. -/
def rollOver (period window : Nat) (tab : Nat → α) : Nat → α :=
  fun i => if period ≤ i ∧ i < period + window then tab (i - period) else tab i

def push (period window : Nat) (r : RollingBuffer α) (a : α) : RollingBuffer α :=
  if r.pt = 0 then
    ⟨update (rollOver period window r.tab) (period - 1) a, period - 1⟩
  else ⟨update r.tab (r.pt - 1) a, r.pt - 1⟩

def setNewest (r : RollingBuffer α) (a : α) : RollingBuffer α :=
  { r with tab := update r.tab r.pt a }

/-- The position of the buffer `k` pushes ago. -/
def back (period pt k : Nat) : Nat := if pt + k < period then pt + k else pt + k - period

variable {r : RollingBuffer α} {a : α} {pt j k : Nat}

theorem back_zero (hpt : pt < period) : back period pt 0 = pt := by
  unfold back
  rw [if_pos (by omega), Nat.add_zero]

theorem back_lt (hpt : pt < period) (hk : k < period) : back period pt k < period := by
  unfold back
  split <;> omega

theorem back_back {l : Nat} (hpt : pt < period) (hkl : k + l < period) :
    back period (back period pt k) l = back period pt (k + l) := by
  unfold back
  split <;> split <;> split <;> omega

section

variable (hpt : r.pt < period)
include hpt

theorem push_pt_lt : (r.push period window a).pt < period := by
  unfold push
  split
  · change period - 1 < period
    omega
  · change r.pt - 1 < period
    omega

/-- **The position before a push is one push ago.** -/
theorem back_push (hk : k + 1 < period) :
    back period (r.push period window a).pt (k + 1) = back period r.pt k := by
  unfold push
  split
  · simp only [back]
    split <;> split <;> omega
  · simp only [back]
    split <;> split <;> omega

omit hpt in
theorem push_newest : (r.push period window a).tab (r.push period window a).pt = a := by
  unfold push
  split
  · exact update_self _ _ _
  · exact update_self _ _ _

theorem push_older (hj : j < window) :
    (r.push period window a).tab ((r.push period window a).pt + (j + 1)) = r.tab (r.pt + j) := by
  unfold push
  split
  · next hz =>
    simp only
    rw [update_of_ne (by omega), rollOver, if_pos (by omega)]
    congr 1
    omega
  · next hpos =>
    simp only
    rw [update_of_ne (by omega)]
    congr 1
    omega

/-- **A push leaves the recent windows alone.** -/
theorem push_frame (hk : k + 1 < period - window) (hj : j ≤ window) :
    (r.push period window a).tab (back period r.pt k + j) = r.tab (back period r.pt k + j) := by
  unfold push
  split
  · next hz =>
    have hba : back period r.pt k = k := by
      unfold back
      split <;> omega
    simp only [hba]
    rw [update_of_ne (by omega), rollOver, if_neg (by omega)]
  · next hpos =>
    have hn : back period r.pt k + j ≠ r.pt - 1 := by
      unfold back
      split <;> omega
    exact update_of_ne hn _ _

end

theorem setNewest_frame (hpos : 0 < k) (hk : k < period - window) (hj : j ≤ window) :
    (r.setNewest a).tab (back period r.pt k + j) = r.tab (back period r.pt k + j) := by
  have hn : back period r.pt k + j ≠ r.pt := by
    unfold back
    split <;> omega
  exact update_of_ne hn _ _

theorem setNewest_newest : (r.setNewest a).tab r.pt = a := update_self _ _ _

theorem setNewest_older (hj : 0 < j) : (r.setNewest a).tab (r.pt + j) = r.tab (r.pt + j) :=
  update_of_ne (by omega) _ _

/-- An element replaced at once might as well not have been pushed. -/
theorem push_setNewest {a' : α} :
    (r.push period window a).setNewest a' = r.push period window a' := by
  unfold push setNewest
  split
  · simp only [update_idem]
  · simp only [update_idem]

/-! ### The sequence in the buffer -/

/-- **The buffer holds the sequence `h`**, newest first: a window of it at the current position
and at those of the last `n` pushes. -/
structure Holds (period window n : Nat) (r : RollingBuffer α) (h : Nat → α) : Prop where
  pt_lt : r.pt < period
  recent : ∀ k ≤ n, ∀ j ≤ window, r.tab (back period r.pt k + j) = h (k + j)

variable {n : Nat} {h g : Nat → α}

section

variable (hholds : Holds period window n r h)

include hholds

theorem Holds.newest : ∀ j ≤ window, r.tab (r.pt + j) = h j := by
  intro j hj
  have hz := hholds.recent 0 (Nat.zero_le n) j hj
  rwa [back_zero hholds.pt_lt, Nat.zero_add] at hz

theorem Holds.mono {n' : Nat} (hn : n' ≤ n) : Holds period window n' r h :=
  ⟨hholds.pt_lt, fun k hk => hholds.recent k (Nat.le_trans hk hn)⟩

theorem Holds.push (hn : n + 1 < period - window) (hz : g 0 = a) (hs : ∀ j, g (j + 1) = h j) :
    Holds period window (n + 1) (r.push period window a) g := by
  refine ⟨push_pt_lt hholds.pt_lt, fun k hk j hj => ?_⟩
  cases k with
  | zero =>
    rw [back_zero (push_pt_lt hholds.pt_lt), Nat.zero_add]
    cases j with
    | zero => rw [Nat.add_zero, push_newest, hz]
    | succ j =>
      rw [push_older hholds.pt_lt hj, hs]
      exact hholds.newest j (by omega)
  | succ k =>
    have hsu : k + 1 + j = k + j + 1 := by omega
    rw [back_push hholds.pt_lt (by omega), push_frame hholds.pt_lt (by omega) hj, hsu, hs]
    exact hholds.recent k (by omega) j hj

theorem Holds.goBack (hn : n < period - window) (hk : k ≤ n) :
    Holds period window (n - k) ⟨r.tab, RollingBuffer.back period r.pt k⟩ fun j => h (k + j) := by
  refine ⟨back_lt hholds.pt_lt (by omega), fun l hl j hj => ?_⟩
  rw [back_back hholds.pt_lt (by omega), hholds.recent (k + l) (by omega) j hj, Nat.add_assoc]

theorem Holds.setNewest (hn : n < period - window) (hz : g 0 = a)
    (hs : ∀ j, g (j + 1) = h (j + 1)) : Holds period window n (r.setNewest a) g := by
  refine ⟨hholds.pt_lt, fun k hk j hj => ?_⟩
  change (r.setNewest a).tab (RollingBuffer.back period r.pt k + j) = g (k + j)
  cases k with
  | zero =>
    rw [back_zero hholds.pt_lt, Nat.zero_add]
    cases j with
    | zero => rw [Nat.add_zero, setNewest_newest, hz]
    | succ j =>
      rw [setNewest_older (Nat.succ_pos j), hs]
      exact hholds.newest (j + 1) hj
  | succ k =>
    have hsu : k + 1 + j = k + j + 1 := by omega
    rw [setNewest_frame (Nat.succ_pos k) (by omega) hj, hholds.recent (k + 1) hk j hj, hsu, hs]

end

end RollingBuffer

end Gem5.Lib
