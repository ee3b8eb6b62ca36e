import Mathlib

/-!
# Gem5.Lib.Search

The `for` loop that returns the first index satisfying a test, and the bound of
the loop when there is none. Tables of the simulator are searched this way.
-/

namespace Gem5.Lib

open List Nat

/-- Test `n` indices from `i` on. -/
def firstFrom (p : Nat → Bool) : Nat → Nat → Nat
  | 0, i => i
  | n + 1, i => if p i then i else firstFrom p n (i + 1)

def firstBelow (n : Nat) (p : Nat → Bool) : Nat := firstFrom p n 0

variable {p : Nat → Bool} {n j : Nat}

theorem firstFrom_spec : ∀ n i, i ≤ firstFrom p n i ∧ firstFrom p n i ≤ i + n ∧
    (firstFrom p n i < i + n → p (firstFrom p n i)) ∧
    ∀ j, i ≤ j → j < firstFrom p n i → p j = false := by
  intro n
  induction n with
  | zero =>
    intro i
    exact ⟨le_rfl, le_rfl, fun h => absurd h (lt_irrefl i),
      fun j hj hl => absurd (lt_of_le_of_lt hj hl) (lt_irrefl i)⟩
  | succ n ih =>
    intro i
    rw [firstFrom]
    cases hp : p i with
    | true => simp only [if_true]; exact ⟨le_rfl, by omega, fun _ => hp, fun j _ _ => by omega⟩
    | false =>
      obtain ⟨hge, hle, hso, hn⟩ := ih (i + 1)
      simp only [Bool.false_eq_true, if_false]
      refine ⟨by omega, by omega, fun hl => hso (by omega), fun j hj hl => ?_⟩
      rcases eq_or_lt_of_le hj with rfl | hj
      · exact hp
      · exact hn j hj hl

theorem firstBelow_le (n : Nat) (p : Nat → Bool) : firstBelow n p ≤ n := by
  have := (firstFrom_spec (p := p) n 0).2.1
  simpa [firstBelow] using this

/-- A returned index satisfies the test. -/
theorem firstBelow_spec (h : firstBelow n p < n) : p (firstBelow n p) := by
  have := (firstFrom_spec (p := p) n 0).2.2.1
  simp only [Nat.zero_add] at this
  exact this h

/-- No smaller index satisfies the test. -/
theorem firstBelow_min (h : j < firstBelow n p) : p j = false :=
  (firstFrom_spec n 0).2.2.2 j (zero_le j) h

/-- The search succeeds when there is something to find. -/
theorem firstBelow_lt (hj : j < n) (hp : p j = true) : firstBelow n p < n := by
  rcases lt_or_ge (firstBelow n p) n with h | h
  · exact h
  · have := firstBelow_min (lt_of_lt_of_le hj h)
    rw [hp] at this
    exact absurd this (by simp)

/-- The search finds the only index there is to find. -/
theorem firstBelow_eq (hj : j < n) (hp : p j = true) (hon : ∀ i < n, p i = true → i = j) :
    firstBelow n p = j :=
  hon _ (firstBelow_lt hj hp) (firstBelow_spec (firstBelow_lt hj hp))

/-- A failed search leaves nothing. -/
theorem not_of_firstBelow_eq (h : firstBelow n p = n) (hj : j < n) : p j = false :=
  firstBelow_min (by rw [h]; exact hj)

/-- A search for an index that fails `p` succeeds unless all of them satisfy it. -/
theorem firstBelow_not_lt (h : (List.range n).countP p < n) : firstBelow n (fun i => !p i) < n := by
  have hlt : (range n).countP p < (range n).length := by rwa [length_range]
  obtain ⟨i, hi, hp⟩ := countP_lt_length_iff.mp hlt
  exact firstBelow_lt (mem_range.mp hi) (by rw [hp]; rfl)

/-! ### The best of several candidates -/

def bestOf {α : Type*} (size : α → Nat) (first : α) (candidate : Nat → α) (n : Nat) : α :=
  (List.range n).foldl (fun best i => if size (candidate i) < size best then candidate i else best)
    first

/-- **The best candidate is the first one of the least size.** -/
theorem bestOf_cases {α : Type*} (size : α → Nat) (first : α) (candidate : Nat → α) (n : Nat) :
    (bestOf size first candidate n = first ∧ ∀ i < n, size first ≤ size (candidate i)) ∨
      ∃ i < n, bestOf size first candidate n = candidate i ∧ size (candidate i) < size first ∧
        (∀ j < i, size (candidate i) < size (candidate j)) ∧
        ∀ j < n, size (candidate i) ≤ size (candidate j) := by
  induction n with
  | zero => exact .inl ⟨rfl, fun i hi => absurd hi (not_lt_zero i)⟩
  | succ n ih =>
    have hst : bestOf size first candidate (n + 1) =
        if size (candidate n) < size (bestOf size first candidate n) then candidate n
        else bestOf size first candidate n := by
      rw [bestOf, range_succ, foldl_append]
      rfl
    rw [hst]
    rcases ih with ⟨hb, hl⟩ | ⟨i, hi, hb, hfs, hbe, hl⟩ <;> rw [hb]
    · split
      · rename_i ht
        have hn := fun j hj => ht.trans_le (hl j hj)
        exact .inr ⟨n, n.lt_succ_self, rfl, ht, hn,
          Nat.forall_lt_succ_right.mpr ⟨fun j hj => (hn j hj).le, le_rfl⟩⟩
      · rename_i hg
        exact .inl ⟨rfl, Nat.forall_lt_succ_right.mpr ⟨hl, Nat.le_of_not_lt hg⟩⟩
    · split
      · rename_i ht
        have hn := fun j hj => ht.trans_le (hl j hj)
        exact .inr ⟨n, n.lt_succ_self, rfl, ht.trans hfs, hn,
          Nat.forall_lt_succ_right.mpr ⟨fun j hj => (hn j hj).le, le_rfl⟩⟩
      · rename_i hg
        exact .inr ⟨i, hi.trans n.lt_succ_self, rfl, hfs, hbe,
          Nat.forall_lt_succ_right.mpr ⟨hl, Nat.le_of_not_lt hg⟩⟩

/-! ### Tables with keys -/

theorem find?_key_eq_some {κ β : Type*} [DecidableEq κ] {l : List (κ × β)} {k : κ} {v : β}
    (hme : (k, v) ∈ l) (hon : ∀ e ∈ l, e.1 = k → e = (k, v)) :
    l.find? (·.1 = k) = some (k, v) := by
  cases hf : l.find? (·.1 = k) with
  | none => exact absurd (decide_eq_true rfl) (find?_eq_none.mp hf _ hme)
  | some e =>
    have hke : decide (e.1 = k) := by
      simpa using find?_some hf
    rw [hon e (mem_of_find?_eq_some hf) (of_decide_eq_true hke)]

end Gem5.Lib
