import Mathlib

/-!
# Gem5.Lib.Slots

Tables of **slots that hold keys**: `f a = some k` when slot `a` holds key `k`.
A table in which every key sits in at most one slot is `Exclusive`. Freeing a
slot keeps a table exclusive, and so does filling a slot with a key that no slot
holds; a table that is only ever changed in these two ways never holds a key
twice.
-/

namespace Gem5.Lib

open Function

variable {σ κ : Type*}

/-- Every key is held by at most one slot. -/
def Exclusive (f : σ → Option κ) : Prop :=
  ∀ a b k, f a = some k → f b = some k → a = b

/-- No slot holds the key. -/
def Absent (f : σ → Option κ) (k : κ) : Prop := ∀ a, f a ≠ some k

/-- Some slot holds the key. -/
def Held (f : σ → Option κ) (k : κ) : Prop := ∃ a, f a = some k

theorem exclusive_empty : Exclusive (fun _ : σ => (none : Option κ)) :=
  fun _ _ _ h => absurd h (by simp)

variable [DecidableEq σ] {f : σ → Option κ} {k : κ} {a : σ}

section

variable (hf : Exclusive f)
include hf

theorem Exclusive.free (a : σ) : Exclusive (update f a none) := by
  have hol : ∀ b k, update f a none b = some k → f b = some k := by
    intro b k hb
    rcases eq_or_ne b a with rfl | hn
    · exact absurd hb (by simp)
    · rwa [update_of_ne hn] at hb
  intro b c k hb hc
  exact hf b c k (hol b k hb) (hol c k hc)

theorem Exclusive.fill (hk : Absent f k) (a : σ) : Exclusive (update f a (some k)) := by
  have hs : ∀ b l, b ≠ a → f b = some l → some k ≠ some l := by
    intro b l _ hb heq
    exact hk b (heq ▸ hb)
  intro b c l hb hc
  rcases eq_or_ne b a with rfl | hba
  · rcases eq_or_ne c b with rfl | hcb
    · rfl
    · rw [update_self] at hb
      rw [update_of_ne hcb] at hc
      exact absurd hb (hs c l hcb hc)
  · rw [update_of_ne hba] at hb
    rcases eq_or_ne c a with rfl | hca
    · rw [update_self] at hc
      exact absurd hc (hs b l hba hb)
    · rw [update_of_ne hca] at hc
      exact hf b c l hb hc

theorem Exclusive.absent_free (ha : f a = some k) : Absent (update f a none) k := by
  intro b hb
  rcases eq_or_ne b a with rfl | hn
  · exact absurd hb (by simp)
  · rw [update_of_ne hn] at hb
    exact hn (hf b a k hb ha)

theorem Exclusive.held_free (ha : f a = some k) (l : κ) :
    Held (update f a none) l ↔ Held f l ∧ l ≠ k := by
  constructor
  · rintro ⟨b, hb⟩
    have hn : b ≠ a := by
      rintro rfl
      rw [update_self] at hb
      cases hb
    rw [update_of_ne hn] at hb
    refine ⟨⟨b, hb⟩, ?_⟩
    rintro rfl
    exact hn (hf b a l hb ha)
  · rintro ⟨⟨b, hb⟩, hl⟩
    refine ⟨b, ?_⟩
    rw [update_of_ne, hb]
    rintro rfl
    rw [ha] at hb
    exact hl (Option.some.inj hb).symm

end

theorem held_fill (ha : f a = none) (k l : κ) :
    Held (update f a (some k)) l ↔ Held f l ∨ l = k := by
  constructor
  · rintro ⟨b, hb⟩
    rcases eq_or_ne b a with rfl | hn
    · rw [update_self] at hb
      exact .inr (Option.some.inj hb).symm
    · rw [update_of_ne hn] at hb
      exact .inl ⟨b, hb⟩
  · rintro (⟨b, hb⟩ | rfl)
    · refine ⟨b, ?_⟩
      rw [update_of_ne, hb]
      rintro rfl
      rw [ha] at hb
      cases hb
    · exact ⟨a, update_self ..⟩

end Gem5.Lib
