import Mathlib

/-!
# Gem5.Lib.LruStack

**Least recently used replacement.** A fully associative cache of `m` blocks holds the `m` most
recently used keys, the most recent first. The caches of all sizes hold prefixes of one stack
(`lruAccess_take`), so that a hit in a small cache is a hit in every larger one. Two sizes have the
same number of hits on a trace exactly when no access finds its key between the two
(`lruHits_take_eq_iff`).
-/

namespace Gem5.Lib

open List

variable {α : Type*} [DecidableEq α]

def lruAccess (m : Nat) (l : List α) (a : α) : List α :=
  (a :: l.erase a).take m

def lruHit (l : List α) (a : α) : Nat := if a ∈ l then 1 else 0

/-- The number of hits of a cache of `m` blocks with the contents `l` on a trace. -/
def lruHits (m : Nat) : List α → List α → Nat
  | _, [] => 0
  | l, a :: trace => lruHit l a + lruHits m (lruAccess m l a) trace

/-- Every access that hits the cache of `n` blocks finds its key among the first `m`. -/
def ReuseWithin (m n : Nat) : List α → List α → Prop
  | _, [] => True
  | l, a :: trace => (a ∈ l → a ∈ l.take m) ∧ ReuseWithin m n (lruAccess n l a) trace

variable {l : List α} {a : α} {m n : Nat}

theorem lruHit_of_mem (h : a ∈ l) : lruHit l a = 1 := if_pos h

theorem lruHit_of_notMem (h : a ∉ l) : lruHit l a = 0 := if_neg h

/-- A key found at position `r` is moved to the front. -/
theorem lruAccess_of_getElem? {r : Nat} (hnd : l.Nodup) (hlen : l.length ≤ m)
    (hr : l[r]? = some a) : lruAccess m l a = a :: l.eraseIdx r := by
  obtain ⟨hlt, rfl⟩ := List.getElem?_eq_some_iff.mp hr
  rw [lruAccess, hnd.erase_getElem r hlt, take_of_length_le]
  rw [length_cons, length_eraseIdx, if_pos hlt]
  omega

/-- A key that is not found is put in front. -/
theorem lruAccess_of_notMem (h : a ∉ l) : lruAccess m l a = (a :: l).take m := by
  rw [lruAccess, erase_of_not_mem h]

theorem take_erase_of_mem : ∀ {m : Nat} {l : List α}, a ∈ l.take (m + 1) →
    (l.erase a).take m = (l.take (m + 1)).erase a := by
  intro m l
  induction l generalizing m with
  | nil => simp
  | cons b l ih =>
    intro hm
    by_cases hb : b = a
    · simp [hb]
    · have hbe : (b == a) = false := by simpa using hb
      cases m with
      | zero =>
        have hab : a = b := by simpa using hm
        exact absurd hab.symm hb
      | succ m =>
        have hta : a ∈ l.take (m + 1) := by
          have : a = b ∨ a ∈ l.take (m + 1) := by simpa using hm
          exact this.resolve_left fun h => hb h.symm
        simp only [take_succ_cons, erase_cons, hbe]
        simp [ih hta]

theorem take_erase_of_notMem : ∀ {m : Nat} {l : List α}, a ∉ l.take (m + 1) →
    (l.erase a).take m = l.take m := by
  intro m l
  induction l generalizing m with
  | nil => simp
  | cons b l ih =>
    intro hm
    simp only [take_succ_cons, mem_cons, not_or] at hm
    have hbe : (b == a) = false := by simpa using fun h : b = a => hm.1 h.symm
    cases m with
    | zero => simp
    | succ m =>
      simp only [erase_cons, hbe]
      simp [ih hm.2]

/-- **Stack inclusion.** The smaller cache holds a prefix of the larger one. -/
theorem lruAccess_take (hmn : m ≤ n) (l : List α) (a : α) :
    (lruAccess n l a).take m = lruAccess m (l.take m) a := by
  rw [lruAccess, lruAccess, take_take, Nat.min_eq_left hmn]
  cases m with
  | zero => simp
  | succ m =>
    rw [take_succ_cons, take_succ_cons]
    by_cases hm : a ∈ l.take (m + 1)
    · have hle : ((l.take (m + 1)).erase a).length ≤ m := by
        rw [length_erase_of_mem hm, length_take]
        omega
      rw [take_erase_of_mem hm, take_of_length_le hle]
    · rw [take_erase_of_notMem hm, erase_of_not_mem hm, take_take, Nat.min_eq_left (Nat.le_succ m)]

theorem lruHits_take_le (hmn : m ≤ n) : ∀ (trace l : List α),
    lruHits m (l.take m) trace ≤ lruHits n l trace := by
  intro trace
  induction trace with
  | nil => intro l; exact Nat.le_refl 0
  | cons a trace ih =>
    intro l
    rw [lruHits, ← lruAccess_take hmn]
    refine Nat.add_le_add ?_ (ih _)
    by_cases h : a ∈ l.take m
    · have hsho := lruHit_of_mem h
      have hlon := lruHit_of_mem (mem_of_mem_take h)
      omega
    · rw [lruHit_of_notMem h]
      exact Nat.zero_le _

/-- Two sizes agree on a trace exactly when no key is found between them. -/
theorem lruHits_take_eq_iff (hmn : m ≤ n) : ∀ (trace l : List α),
    lruHits m (l.take m) trace = lruHits n l trace ↔ ReuseWithin m n l trace := by
  intro trace
  induction trace with
  | nil => intro l; exact iff_of_true rfl trivial
  | cons a trace ih =>
    intro l
    rw [lruHits, lruHits, ← lruAccess_take hmn, ReuseWithin, ← ih]
    have hle := lruHits_take_le hmn trace (lruAccess n l a)
    by_cases hs : a ∈ l.take m
    · rw [lruHit_of_mem hs, lruHit_of_mem (mem_of_mem_take hs)]
      exact ⟨fun h => ⟨fun _ => hs, by omega⟩, fun h => by omega⟩
    · by_cases hl : a ∈ l
      · rw [lruHit_of_notMem hs, lruHit_of_mem hl]
        exact ⟨fun h => by omega, fun h => absurd (h.1 hl) hs⟩
      · rw [lruHit_of_notMem hs, lruHit_of_notMem hl]
        exact ⟨fun h => ⟨fun h' => absurd h' hl, by omega⟩, fun h => by omega⟩

end Gem5.Lib
