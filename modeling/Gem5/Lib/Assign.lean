import Mathlib

/-!
# Gem5.Lib.Assign

**Maps filled by assignments.** Entries are assigned one after the other, and a later entry replaces
an earlier one with its key. Every entry can be read back when entries with the same key are the
same.
-/

namespace Gem5.Lib

open Function

variable {κ β : Type*} [DecidableEq κ] {l : List (κ × β)} {f : κ → Option β} {k : κ} {v : β}

def assignAll (l : List (κ × β)) (f : κ → Option β) : κ → Option β :=
  l.foldl (fun f e => update f e.1 (some e.2)) f

theorem assignAll_cons (e : κ × β) (l : List (κ × β)) :
    assignAll (e :: l) f = assignAll l (update f e.1 (some e.2)) := rfl

theorem mem_of_assignAll (h : assignAll l f k = some v) : (k, v) ∈ l ∨ f k = some v := by
  induction l generalizing f with
  | nil => exact .inr h
  | cons e l ih =>
    rw [assignAll_cons] at h
    rcases ih h with hme | hf
    · exact .inl (List.mem_cons_of_mem _ hme)
    · by_cases hk : k = e.1
      · subst hk
        rw [update_self] at hf
        exact .inl (by rw [← Option.some.inj hf]; exact List.mem_cons_self)
      · rw [update_of_ne hk] at hf
        exact .inr hf

theorem not_mem_of_assignAll (h : assignAll l f k = none) : f k = none ∧ ∀ e ∈ l, e.1 ≠ k := by
  induction l generalizing f with
  | nil => exact ⟨h, fun e he => (by cases he)⟩
  | cons e l ih =>
    rw [assignAll_cons] at h
    obtain ⟨hf, hl⟩ := ih h
    by_cases hk : k = e.1
    · subst hk
      rw [update_self] at hf
      cases hf
    · rw [update_of_ne hk] at hf
      refine ⟨hf, fun e' he' => ?_⟩
      rcases List.mem_cons.mp he' with rfl | he'
      · exact fun h => hk h.symm
      · exact hl e' he'

theorem exists_assignAll (h : (k, v) ∈ l) : ∃ w, assignAll l f k = some w := by
  cases hrd : assignAll l f k with
  | none => exact absurd rfl ((not_mem_of_assignAll hrd).2 (k, v) h)
  | some w => exact ⟨w, rfl⟩

/-- **Every entry is read back exactly when no key has two values.** -/
theorem assignAll_eq_iff (l : List (κ × β)) :
    (∀ e ∈ l, assignAll l (fun _ => none) e.1 = some e.2) ↔
      ∀ e ∈ l, ∀ e' ∈ l, e.1 = e'.1 → e.2 = e'.2 := by
  constructor
  · intro hrd e he e' he' hke
    have h := hrd e he
    rw [hke, hrd e' he'] at h
    exact (Option.some.inj h).symm
  · intro hon e he
    obtain ⟨w, hw⟩ := exists_assignAll he
    rcases mem_of_assignAll hw with hme | hn
    · rw [hw, hon e he (e.1, w) hme rfl]
    · cases hn

end Gem5.Lib
