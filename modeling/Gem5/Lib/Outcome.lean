import Mathlib

/-!
# Gem5.Lib.Outcome

**Pre- and postconditions of calls that may fault.** `Outcome post err x` says
that the call `x` either returns a value that satisfies `post` or violates an
assertion that satisfies `err`. It composes along `>>=` and along loops, so the
outcome of a function follows from the outcomes of the calls it makes, in the
order it makes them.
-/

namespace Gem5.Lib

universe u v

variable {ε : Type u} {α β : Type v}

/-- The call returns a value satisfying `post` or faults with one satisfying
`err`. -/
def Outcome (post : α → Prop) (err : ε → Prop) : Except ε α → Prop
  | .ok a => post a
  | .error e => err e

/-- The call returns a value that satisfies `post`. -/
abbrev Succeeds (post : α → Prop) : Except ε α → Prop := Outcome post fun _ => False

/-- The call violates the assertion `e`. -/
abbrev Faults (e : ε) : Except ε α → Prop := Outcome (fun _ => False) fun e' => e' = e

instance {post : α → Prop} {err : ε → Prop} [DecidablePred post] [DecidablePred err] :
    DecidablePred (Outcome post err)
  | .ok a => inferInstanceAs (Decidable (post a))
  | .error e => inferInstanceAs (Decidable (err e))

variable {post : α → Prop} {post' : β → Prop} {err : ε → Prop} {x : Except ε α} {f : α → Except ε β}

@[simp] theorem ok_bind (a : α) : (.ok a >>= f) = f a := rfl

@[simp] theorem error_bind (e : ε) : (.error e >>= f) = .error e := rfl

@[simp] theorem pure_eq_ok (a : α) : (pure a : Except ε α) = .ok a := rfl

/-- **Peeling a sequence of calls**: it succeeds when the first call does and the
rest succeeds on its result. -/
theorem bind_eq_ok {r : β} : (x >>= f) = .ok r ↔ ∃ a, x = .ok a ∧ f a = .ok r := by
  cases x with
  | error e => simp
  | ok a => simp

/-- Peeling a function off the result of a call. -/
theorem map_eq_ok {f : α → β} {r : β} : f <$> x = .ok r ↔ ∃ a, x = .ok a ∧ f a = r := by
  cases x with
  | error e => simp [Functor.map, Except.map]
  | ok a => simp [Functor.map, Except.map]

/-- Peeling the last call: what is returned is a function of its result. -/
theorem bind_ok {g : α → β} {r : β} : (x >>= fun a => .ok (g a)) = .ok r ↔
    ∃ a, x = .ok a ∧ g a = r := by
  cases x with
  | error e => simp
  | ok a => simp

theorem eq_of_ok {a b : α} (h : (.ok a : Except ε α) = .ok b) : b = a :=
  (Except.ok.inj h).symm

/-- **Passing a guard.** -/
theorem guard_eq_ok {c : Prop} [Decidable c] {e : ε} {r : α} :
    (if c then .error e else x) = .ok r ↔ ¬c ∧ x = .ok r := by
  by_cases hc : c
  · simp [hc]
  · simp [hc]

theorem Succeeds.exists (h : Succeeds post x) : ∃ a, x = .ok a ∧ post a := by
  cases x with
  | error e => exact h.elim
  | ok a => exact ⟨a, rfl, h⟩

theorem Succeeds.of_exists (h : ∃ a, x = .ok a ∧ post a) : Succeeds post x := by
  obtain ⟨a, rfl, ha⟩ := h
  exact ha

/-- What is returned satisfies the postcondition. -/
theorem Outcome.of_ok {a : α} (h : Outcome post err x) (hx : x = .ok a) : post a := by
  rw [hx] at h
  exact h

/-- **The sequence rule.** -/
theorem Outcome.bind (hx : Outcome post err x) (hf : ∀ a, post a → Outcome post' err (f a)) :
    Outcome post' err (x >>= f) := by
  cases x with
  | error e => exact hx
  | ok a => exact hf a hx

/-- The consequence rule. -/
theorem Outcome.imp {post₂ : α → Prop} {err₂ : ε → Prop} (hx : Outcome post err x)
    (hpo : ∀ a, post a → post₂ a) (her : ∀ e, err e → err₂ e) : Outcome post₂ err₂ x := by
  cases x with
  | error e => exact her e hx
  | ok a => exact hpo a hx

/-- **The loop rule**: what one iteration preserves holds after the loop. -/
theorem Outcome.foldlM {γ : Type*} (inv : α → Prop) {f : α → γ → Except ε α}
    (hf : ∀ a c, inv a → Outcome inv err (f a c)) :
    ∀ (cs : List γ) {a : α}, inv a → Outcome inv err (cs.foldlM f a) := by
  intro cs
  induction cs with
  | nil => intro a ha; exact ha
  | cons c cs ih =>
    intro a ha
    exact (hf a c ha).bind fun a' ha' => ih ha'

/-- The loop rule for a loop over the numbers below `n`, with an invariant that counts them. -/
theorem Outcome.foldlM_range (inv : Nat → α → Prop) {f : α → Nat → Except ε α} {n : Nat} {a : α}
    (hin : inv 0 a) (hf : ∀ j < n, ∀ a, inv j a → Outcome (inv (j + 1)) err (f a j)) :
    Outcome (inv n) err ((List.range n).foldlM f a) := by
  induction n with
  | zero => exact hin
  | succ n ih =>
    rw [List.range_succ, List.foldlM_append]
    refine (ih fun j hj => hf j (Nat.lt_succ_of_lt hj)).bind fun a' ha' => ?_
    exact (hf n (Nat.lt_succ_self n) a' ha').bind fun a'' ha'' => ha''

/-- Membership in a list of indices is decided with this. -/
instance lawfulBEqFin (n : Nat) : LawfulBEq (Fin n) := inferInstance

end Gem5.Lib
