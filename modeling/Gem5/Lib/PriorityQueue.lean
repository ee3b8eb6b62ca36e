import Mathlib

/-!
# Gem5.Lib.PriorityQueue

**Priority queues with arbitrary tie breaking.** The elements of the queue are kept in a list, in
whatever order the queue likes. `push` adds an element and `pop` takes out one of those with the
least key: nothing else is promised.
-/

namespace Gem5.Lib

structure PriorityQueue (α : Type*) (key : α → Nat) where
  push : α → List α → List α
  pop : List α → Option (α × List α)
  push_perm : ∀ a l, (push a l).Perm (a :: l)
  pop_perm : ∀ l a rest, pop l = some (a, rest) → l.Perm (a :: rest)
  pop_le : ∀ l a rest, pop l = some (a, rest) → ∀ b ∈ rest, key a ≤ key b
  pop_isSome : ∀ l, l ≠ [] → (pop l).isSome

namespace PriorityQueue

variable {α : Type*} {key : α → Nat} {l : List α}

theorem exists_pop (q : PriorityQueue α key) (h : l ≠ []) :
    ∃ a rest, q.pop l = some (a, rest) ∧ l.Perm (a :: rest) := by
  obtain ⟨⟨a, rest⟩, hp⟩ := Option.isSome_iff_exists.mp (q.pop_isSome l h)
  exact ⟨a, rest, hp, q.pop_perm l a rest hp⟩

def popFirst (key : α → Nat) : List α → Option (α × List α)
  | [] => none
  | a :: l =>
    match popFirst key l with
    | none => some (a, l)
    | some (b, rest) => if key a ≤ key b then some (a, l) else some (b, a :: rest)

theorem popFirst_eq_none (h : popFirst key l = none) : l = [] := by
  cases l with
  | nil => rfl
  | cons a l =>
    rw [popFirst] at h
    split at h
    · cases h
    · split at h <;> cases h

theorem popFirst_spec {rest : List α} {a : α} (h : popFirst key l = some (a, rest)) :
    l.Perm (a :: rest) ∧ ∀ b ∈ rest, key a ≤ key b := by
  induction l generalizing a rest with
  | nil => cases h
  | cons c l ih =>
    rw [popFirst] at h
    split at h
    · rename_i hn
      cases h
      rw [popFirst_eq_none hn]
      exact ⟨.refl _, fun b hb => (by cases hb)⟩
    · rename_i b rest' hso
      obtain ⟨hp, hl⟩ := ih hso
      split at h <;> obtain ⟨rfl, rfl⟩ := Prod.mk.inj (Option.some.inj h)
      · rename_i hk
        refine ⟨.refl _, fun b' hb' => ?_⟩
        rcases List.mem_cons.mp (hp.mem_iff.mp hb') with rfl | hb'
        · exact hk
        · exact hk.trans (hl b' hb')
      · rename_i hk
        refine ⟨(hp.cons c).trans (.swap b c rest'), fun b' hb' => ?_⟩
        rcases List.mem_cons.mp hb' with rfl | hb'
        · exact Nat.le_of_not_le hk
        · exact hl b' hb'

def oldestFirst (key : α → Nat) : PriorityQueue α key where
  push a l := l ++ [a]
  pop := popFirst key
  push_perm a l := List.perm_append_singleton a l
  pop_perm _ _ _ h := (popFirst_spec h).1
  pop_le _ _ _ h := (popFirst_spec h).2
  pop_isSome _ h := Option.isSome_iff_ne_none.mpr fun hnone => h (popFirst_eq_none hnone)

def newestFirst (key : α → Nat) : PriorityQueue α key :=
  { oldestFirst key with push := List.cons, push_perm := fun _ _ => .refl _ }

end PriorityQueue

end Gem5.Lib
