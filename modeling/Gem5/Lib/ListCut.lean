import Mathlib

/-!
# Gem5.Lib.ListCut

**Cutting lists** at an element: what stands before its first occurrence. Two lists
that go together, one of them with gaps (a sublist), are cut at the same element and
still go together.

A sorted list is cut at a bound. Dropping from one end while a predicate holds is
filtering, when the predicate can only change once along the list.
-/

namespace Gem5.Lib

open List

section

variable {α β : Type*} [DecidableEq α]

/-- What stands before `a`. -/
def cutAt (a : α) (l : List α) : List α := l.takeWhile (· ≠ a)

/-- A list is cut where the column that holds the element is. -/
theorem take_idxOf_map (f : β → α) (a : α) (l : List β) :
    l.take ((l.map f).idxOf a) = l.takeWhile (f · ≠ a) := by
  induction l with
  | nil => rfl
  | cons x l ih =>
    by_cases hx : f x = a
    · simp [hx]
    · simp [hx, ih]

theorem take_idxOf (a : α) (l : List α) : l.take (l.idxOf a) = cutAt a l := by
  simpa [cutAt] using take_idxOf_map id a l

/-- Cutting and dropping elements commute when the element cut at is not dropped. -/
theorem cutAt_map_filter {f : β → α} {p : β → Bool} {a : α} {l : List β}
    (h : ∀ x ∈ l, f x = a → p x = true) :
    cutAt a ((l.filter p).map f) = ((l.takeWhile (f · ≠ a)).filter p).map f := by
  unfold cutAt
  induction l with
  | nil => rfl
  | cons x l ih =>
    have ht := ih fun y hy => h y (mem_cons_of_mem _ hy)
    by_cases hx : f x = a
    · simp [h x mem_cons_self hx, hx]
    · cases hp : p x with
      | true => simpa [hp, hx] using ht
      | false => simpa [hp, hx] using ht

theorem cutAt_sublist_cutAt {a : α} {l₁ l₂ : List α} (h : l₁.Sublist l₂) (hnd : l₂.Nodup)
    (ha : a ∈ l₁) : (cutAt a l₁).Sublist (cutAt a l₂) := by
  unfold cutAt
  induction h with
  | slnil => cases ha
  | @cons l₁ l₂ x h ih =>
    have hx : x ≠ a := by
      rintro rfl
      exact (nodup_cons.mp hnd).1 (h.subset ha)
    rw [takeWhile_cons_of_pos (by simpa using hx)]
    exact (ih (nodup_cons.mp hnd).2 ha).cons x
  | @cons_cons l₁ l₂ x h ih =>
    by_cases hx : x = a
    · simp [hx]
    · rw [takeWhile_cons_of_pos (by simpa using hx), takeWhile_cons_of_pos (by simpa using hx)]
      refine (ih (nodup_cons.mp hnd).2 ?_).cons_cons x
      exact (mem_cons.mp ha).resolve_left fun heq => hx heq.symm

theorem mem_cutAt_of_sublist {a x : α} {l₁ l₂ : List α} (h : l₁.Sublist l₂) (hn : l₂.Nodup)
    (hx : x ∈ l₁) (hc : x ∈ cutAt a l₂) : x ∈ cutAt a l₁ := by
  unfold cutAt at *
  induction h with
  | slnil => cases hx
  | @cons l₁ l₂ y h ih =>
    have hne : x ≠ y := by
      rintro rfl
      exact (nodup_cons.mp hn).1 (h.subset hx)
    by_cases hy : y = a
    · simp [hy] at hc
    · rw [takeWhile_cons_of_pos (by simpa using hy)] at hc
      exact ih (nodup_cons.mp hn).2 hx ((mem_cons.mp hc).resolve_left hne)
  | @cons_cons l₁ l₂ y h ih =>
    by_cases hy : y = a
    · simp [hy] at hc
    · rw [takeWhile_cons_of_pos (by simpa using hy)] at hc ⊢
      rcases mem_cons.mp hx with rfl | hm
      · exact mem_cons_self
      · refine mem_cons_of_mem _ (ih (nodup_cons.mp hn).2 hm ?_)
        refine (mem_cons.mp hc).resolve_left ?_
        rintro rfl
        exact (nodup_cons.mp hn).1 (h.subset hm)

end

/-! ### Sorted lists -/

variable {α : Type*} {b : Nat} {f : α → Nat} {l : List α}

/-- A predicate that holds of `a` whenever it holds of something after `a`. -/
theorem dropWhile_eq_filter {p : α → Bool} (h : l.Pairwise fun a b => p b = true → p a = true) :
    l.dropWhile p = l.filter fun a => !p a := by
  induction l with
  | nil => rfl
  | cons a l ih =>
    rw [pairwise_cons] at h
    cases ha : p a with
    | true =>
      rw [dropWhile_cons_of_pos ha, filter_cons_of_neg (by simp [ha]), ih h.2]
    | false =>
      rw [dropWhile_cons_of_neg (by simp [ha]), filter_cons_of_pos (by simp [ha])]
      -- What follows fails the predicate too.
      have hal : ∀ b ∈ l, (!p b) := by
        intro b hb
        cases hpb : p b with
        | true => exact absurd (h.1 b hb hpb) (by simp [ha])
        | false => rfl
      rw [filter_eq_self.mpr hal]

theorem filter_le_eq_nil (h : ∀ a ∈ l, b < f a) : l.filter (f · ≤ b) = [] := by
  simpa [filter_eq_nil_iff] using h

theorem filter_le_eq_self (h : ∀ a ∈ l, f a ≤ b) : l.filter (f · ≤ b) = l := by
  simpa [filter_eq_self] using h

variable {l : List Nat}

section

variable (h : l.Pairwise (· < ·))
include h

/-- The larger elements of an increasing list, from the front of the reversed list. -/
theorem reverse_dropWhile_gt (b : Nat) :
    l.reverse.dropWhile (b < ·) = (l.filter (· ≤ b)).reverse := by
  have hre : l.reverse.Pairwise fun x y => decide (b < y) → decide (b < x) := by
    rw [pairwise_reverse]
    refine h.imp fun {x y} hxy hx => ?_
    simp only [decide_eq_true_eq] at hx ⊢
    omega
  rw [dropWhile_eq_filter hre, filter_reverse]
  congr 1
  refine filter_congr fun x _ => ?_
  rw [← decide_not]
  exact decide_eq_decide.mpr Nat.not_lt

/-- The smaller elements of an increasing list, from its front. -/
theorem dropWhile_le (b : Nat) : l.dropWhile (· ≤ b) = l.filter (b < ·) := by
  have hl : l.Pairwise fun x y => decide (y ≤ b) → decide (x ≤ b) := by
    refine h.imp fun {x y} hxy hy => ?_
    simp only [decide_eq_true_eq] at hy ⊢
    omega
  rw [dropWhile_eq_filter hl]
  refine filter_congr fun x _ => ?_
  rw [← decide_not]
  exact decide_eq_decide.mpr Nat.not_le

theorem getLast?_eq_of_sorted (hme : b ∈ l) (hl : ∀ n ∈ l, n ≤ b) : l.getLast? = some b := by
  obtain ⟨front, back, rfl⟩ := append_of_mem hme
  cases back with
  | nil => exact getLast?_concat
  | cons n back =>
    rw [pairwise_append, pairwise_cons] at h
    have hgt := h.2.1.1 n mem_cons_self
    exact absurd (hl n (by simp)) (Nat.not_le.mpr hgt)

end

end Gem5.Lib
