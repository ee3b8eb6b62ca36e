import Mathlib

/-!
# Gem5.Lib.LinkedList

**Doubly linked lists.** The nodes of a list point to the next and the previous one. `Linked` says
that the pointers describe a list, position by position. A node is moved to one end by closing the
gap it leaves and linking it before the first or after the last node; the pointers then describe the
list with the node moved (`Linked.moveFront`, `Linked.moveBack`).
-/

namespace Gem5.Lib

open List

variable {α : Type*} {k j : Nat} {x : α}

structure Linked (next prev : α → Option α) (l : List α) : Prop where
  nodup : l.Nodup
  next_eq : ∀ {k x}, l[k]? = some x → next x = l[k + 1]?
  prev_zero : ∀ {x}, l[0]? = some x → prev x = none
  prev_succ : ∀ {k x}, l[k + 1]? = some x → prev x = l[k]?

/-- The nodes met from a pointer on, at most `fuel` of them. -/
def follow (next : α → Option α) : Nat → Option α → List α
  | 0, _ => []
  | _ + 1, none => []
  | fuel + 1, some x => x :: follow next fuel (next x)

theorem index_unique {l : List α} (h : l.Nodup) (hj : l[j]? = some x) (hk : l[k]? = some x) :
    j = k :=
  (getElem?_inj (List.getElem?_eq_some_iff.mp hj).1 h).mp (hj.trans hk.symm)

namespace Linked

variable {next prev : α → Option α} {l : List α}

/-- Following the pointers from a position on gives the rest of the list. -/
theorem follow_eq (h : Linked next prev l) :
    ∀ (fuel k : Nat), l.length ≤ fuel + k → follow next fuel l[k]? = l.drop k := by
  intro fuel
  induction fuel with
  | zero =>
    intro k hle
    rw [drop_eq_nil_of_le (by omega), follow]
  | succ fuel ih =>
    intro k hle
    cases hk : l[k]? with
    | none =>
      rw [drop_eq_nil_of_le (getElem?_eq_none_iff.mp hk), follow]
    | some x =>
      obtain ⟨hlt, hx⟩ := List.getElem?_eq_some_iff.mp hk
      rw [follow, h.next_eq hk, ih (k + 1) (by omega), drop_eq_getElem_cons hlt, hx]

theorem index_ne (h : Linked next prev l) {i : Nat} {y : α} (hx : l[i]? = some x)
    (hy : l[j]? = some y) (hn : i ≠ j) : x ≠ y := by
  rintro rfl
  exact hn (index_unique h.nodup hx hy)

theorem getElem?_eraseIdx_cases {i : Nat} (hx : (l.eraseIdx k)[i]? = some x) :
    (i < k ∧ l[i]? = some x) ∨ (k ≤ i ∧ l[i + 1]? = some x) := by
  rw [getElem?_eraseIdx] at hx
  split at hx
  next h => exact .inl ⟨h, hx⟩
  next h => exact .inr ⟨Nat.le_of_not_lt h, hx⟩

/-- Read from the end, the roles of the pointers are swapped. -/
theorem reverse (h : Linked next prev l) : Linked prev next l.reverse := by
  -- the mirror image of a position
  have hm : ∀ {k : Nat} {x : α}, l.reverse[k]? = some x →
      k < l.length ∧ l[l.length - 1 - k]? = some x := by
    intro k x hx
    have hk : k < l.length := by simpa using (List.getElem?_eq_some_iff.mp hx).1
    exact ⟨hk, by rwa [getElem?_reverse hk] at hx⟩
  refine ⟨nodup_reverse.mpr h.nodup, ?_, ?_, ?_⟩
  · intro k x hx
    obtain ⟨hk, hx⟩ := hm hx
    by_cases hl : k + 1 < l.length
    · rw [getElem?_reverse hl]
      exact h.prev_succ (by rwa [show l.length - 1 - (k + 1) + 1 = l.length - 1 - k by omega])
    · rw [getElem?_eq_none (by simpa using Nat.le_of_not_lt hl)]
      exact h.prev_zero (by rwa [show l.length - 1 - k = 0 by omega] at hx)
  · intro x hx
    obtain ⟨hk, hx⟩ := hm hx
    rw [h.next_eq hx, getElem?_eq_none (by omega)]
  · intro k x hx
    obtain ⟨hk, hx⟩ := hm hx
    rw [h.next_eq hx, getElem?_reverse (by omega)]
    congr 1
    omega

theorem reverse_eraseIdx_reverse (hlen : j + k + 1 = l.length) :
    (l.reverse.eraseIdx j).reverse = l.eraseIdx k := by
  rw [eraseIdx_eq_take_drop_succ, eraseIdx_eq_take_drop_succ, reverse_append,
    take_reverse, drop_reverse, reverse_reverse, reverse_reverse]
  congr 2
  · omega
  · omega

section Move

variable [DecidableEq α]

/-- The next pointers once `b`, not the first, is moved before the first node `a`. -/
def nextFront (next prev : α → Option α) (a b : α) (x : α) : Option α :=
  if x = b then some a else if prev b = some x then next b else next x

/-- The previous pointers once `b`, not the first, is moved before the first node `a`. -/
def prevFront (next prev : α → Option α) (a b : α) (x : α) : Option α :=
  if x = b then none
  else if x = a then some b
  else if next b = some x then prev b else prev x

/-- **Moving a node to the front.** -/
theorem moveFront (h : Linked next prev l) {a b : α} (ha : l[0]? = some a)
    (hb : l[k + 1]? = some b) :
    Linked (nextFront next prev a b) (prevFront next prev a b) (b :: l.eraseIdx (k + 1)) := by
  have hn : ∀ {i : Nat} {x : α}, (l.eraseIdx (k + 1))[i]? = some x → x ≠ b := by
    intro i x hx
    obtain ⟨hi, hx⟩ | ⟨hi, hx⟩ := getElem?_eraseIdx_cases hx
    · exact h.index_ne hx hb (by omega)
    · exact h.index_ne hx hb (by omega)
  refine ⟨?_, ?_, ?_, ?_⟩
  · obtain ⟨hk, rfl⟩ := List.getElem?_eq_some_iff.mp hb
    exact (getElem_cons_eraseIdx_perm hk).nodup_iff.mpr h.nodup
  · intro j x hx
    cases j with
    | zero =>
      obtain rfl : b = x := by simpa using hx
      simp [nextFront, getElem?_eraseIdx, ha]
    | succ i =>
      rw [getElem?_cons_succ] at hx ⊢
      have hxb := hn hx
      rw [getElem?_eraseIdx, nextFront, if_neg hxb, h.prev_succ hb, h.next_eq hb]
      obtain ⟨hi, hx⟩ | ⟨hi, hx⟩ := getElem?_eraseIdx_cases hx
      · by_cases hik : i = k
        · -- the node before the gap
          rw [if_pos (hik ▸ hx), if_neg (by omega), hik]
        · rw [if_neg fun hk => hik (index_unique h.nodup hx hk), if_pos (by omega), h.next_eq hx]
      · rw [if_neg fun hk => by have := index_unique h.nodup hx hk; omega, if_neg (by omega),
          h.next_eq hx]
  · intro x hx
    obtain rfl : b = x := by simpa using hx
    simp [prevFront]
  · intro j x hx
    rw [getElem?_cons_succ] at hx
    have hxb := hn hx
    rw [prevFront, if_neg hxb]
    cases j with
    | zero =>
      have hxa : x = a := by
        rw [getElem?_eraseIdx, ha] at hx
        exact (Option.some.inj hx).symm
      simp [hxa]
    | succ i =>
      rw [getElem?_cons_succ, getElem?_eraseIdx, h.next_eq hb, h.prev_succ hb]
      obtain ⟨hi, hx⟩ | ⟨hi, hx⟩ := getElem?_eraseIdx_cases hx
      · rw [if_neg (h.index_ne hx ha (by omega)),
          if_neg fun hk => by have := index_unique h.nodup hx hk; omega, if_pos (by omega),
          h.prev_succ hx]
      · rw [if_neg (h.index_ne hx ha (by omega))]
        by_cases hik : i = k
        · -- the node after the gap
          rw [if_pos (hik ▸ hx), if_pos (by omega), hik]
        · rw [if_neg fun hk => by have := index_unique h.nodup hx hk; omega, if_neg (by omega),
            h.prev_succ hx]

def nextBack (next prev : α → Option α) (z b : α) : α → Option α := prevFront prev next z b

/-- The previous pointers once `b`, not the last, is moved after the last node `z`. -/
def prevBack (next prev : α → Option α) (z b : α) : α → Option α := nextFront prev next z b

/-- **Moving a node to the back.** -/
theorem moveBack (h : Linked next prev l) {b z : α} {n : Nat} (hz : l[n]? = some z)
    (hlen : l.length = n + 1) (hb : l[k]? = some b) (hk : k < n) :
    Linked (nextBack next prev z b) (prevBack next prev z b) (l.eraseIdx k ++ [b]) := by
  have hfs : l.reverse[0]? = some z := by
    rw [getElem?_reverse (by omega), ← hz]
    congr 1
    omega
  have hmo : l.reverse[n - k - 1 + 1]? = some b := by
    rw [getElem?_reverse (by omega), ← hb]
    congr 1
    omega
  have hfr := (h.reverse.moveFront hfs hmo).reverse
  rwa [reverse_cons, reverse_eraseIdx_reverse (show n - k - 1 + 1 + k + 1 = l.length by omega)]
    at hfr

end Move

end Linked

end Gem5.Lib
