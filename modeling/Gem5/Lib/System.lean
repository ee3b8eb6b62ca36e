import Gem5.Lib.Outcome

/-!
# Gem5.Lib.System

Systems driven by **calls that may fault**. A component of the simulator is a
state, a partial step function (a call returns the next state or the assertion
it violates), and a contract on the callers. Every safety result of the
development has one of two shapes over such a system:

* an **invariant** — a property of every state the component can reach while
  its callers respect the contract (`System.Reachable.invariant`);
* **fault freedom** — no call made within the contract from a reachable state
  violates an assertion (`System.FaultFree`).

Runs are not lists of states: a state is reachable when some sequence of calls
leads to it, and the sequence itself is recovered by carrying it in the state
where a result needs it.
-/

namespace Gem5.Lib

/-- A component: where it starts, what one call does, and what its callers
promise. `ε` is the type of the assertions a call can violate. -/
structure System (σ α ε : Type*) where
  /-- The states a run may start in. -/
  init : σ → Prop
  /-- One call: the next state, or the violated assertion. -/
  step : σ → α → Except ε σ
  /-- The contract on the callers, in the state before the call. -/
  pre : σ → α → Prop

namespace System

variable {σ α ε : Type*}

/-- The states reached by sequences of calls within the contract. -/
inductive Reachable (S : System σ α ε) : σ → Prop
  | start {s : σ} (h : S.init s) : Reachable S s
  | next {s s' : σ} {a : α} (h : Reachable S s) (hp : S.pre s a)
      (hs : S.step s a = .ok s') : Reachable S s'

variable {S : System σ α ε}

/-- **The invariant rule**: what holds initially and is preserved by every call
within the contract holds in every reachable state. -/
theorem Reachable.invariant (Inv : σ → Prop) (hin : ∀ s, S.init s → Inv s)
    (hst : ∀ s a s', Inv s → S.pre s a → S.step s a = .ok s' → Inv s')
    {s : σ} (h : S.Reachable s) : Inv s := by
  induction h with
  | start h => exact hin _ h
  | next _ hp hs ih => exact hst _ _ _ ih hp hs

/-- The calls can be made one after the other, within the contract and without
a fault, and end in a state that satisfies `p`. -/
def Leads (S : System σ α ε) (p : σ → Prop) : List α → σ → Prop
  | [], s => p s
  | a :: as, s => S.pre s a ∧ Succeeds (S.Leads p as) (S.step s a)

instance Leads.decidable (S : System σ α ε) (p : σ → Prop) [DecidablePred p]
    [∀ s a, Decidable (S.pre s a)] : ∀ as, DecidablePred (S.Leads p as)
  | [], s => inferInstanceAs (Decidable (p s))
  | _ :: as, _ =>
    have := Leads.decidable S p as
    inferInstanceAs (Decidable (_ ∧ _))

/-- A run made of explicit calls. -/
theorem Reachable.exists_of_leads {p : σ → Prop} :
    ∀ (as : List α) {s : σ}, S.Reachable s → S.Leads p as s → ∃ s', S.Reachable s' ∧ p s' := by
  intro as
  induction as with
  | nil =>
    intro s hs hp
    exact ⟨s, hs, hp⟩
  | cons a as ih =>
    rintro s hs ⟨hpr, hr⟩
    cases hst : S.step s a with
    | error e =>
      rw [hst] at hr
      exact hr.elim
    | ok s' =>
      rw [hst] at hr
      exact ih (hs.next hpr hst) hr

/-- The same run, with what follows of the state it ends in. -/
theorem Reachable.exists_and_of_leads {p q : σ → Prop} {s : σ} (as : List α) (hs : S.Reachable s)
    (hl : S.Leads p as s) (hq : ∀ s', S.Reachable s' → q s') :
    ∃ s', S.Reachable s' ∧ p s' ∧ q s' := by
  obtain ⟨s', hs', hp⟩ := exists_of_leads as hs hl
  exact ⟨s', hs', hp, hq s' hs'⟩

/-- No call within the contract from a reachable state violates an assertion. -/
def FaultFree (S : System σ α ε) : Prop :=
  ∀ s a, S.Reachable s → S.pre s a → ∃ s', S.step s a = .ok s'

/-- The same component under a stricter contract: the callers promise `p` too. -/
def restrict (S : System σ α ε) (p : σ → α → Prop) : System σ α ε :=
  { S with pre := fun s a => S.pre s a ∧ p s a }

instance (S : System σ α ε) (p : σ → α → Prop) [∀ s a, Decidable (S.pre s a)]
    [∀ s a, Decidable (p s a)] : ∀ s a, Decidable ((S.restrict p).pre s a) :=
  fun s a => inferInstanceAs (Decidable (S.pre s a ∧ p s a))

theorem Reachable.of_restrict {p : σ → α → Prop} {s : σ}
    (h : (S.restrict p).Reachable s) : S.Reachable s := by
  induction h with
  | start hin => exact .start hin
  | next _ hpr hst ih => exact ih.next hpr.1 hst

/-- The same component, started in fewer states. -/
def startIn (S : System σ α ε) (p : σ → Prop) : System σ α ε :=
  { S with init := fun s => S.init s ∧ p s }

instance (S : System σ α ε) (p : σ → Prop) [∀ s a, Decidable (S.pre s a)] :
    ∀ s a, Decidable ((S.startIn p).pre s a) :=
  fun s a => inferInstanceAs (Decidable (S.pre s a))

end System

/-! ### Logs

A log lists the events of a run, the newest first. An event added to it either starts a stretch in
which something that happened is not undone, or prolongs one. -/

variable {α : Type*} {kept kept' made made' : α → Prop} {e : α} {log : List α}

inductive Since (kept made : α → Prop) : List α → Prop
  | now {e : α} {log : List α} (h : made e) : Since kept made (e :: log)
  | later {e : α} {log : List α} (h : kept e) (hs : Since kept made log) :
      Since kept made (e :: log)

theorem Since.imp (hke : ∀ e, kept e → kept' e) (hma : ∀ e, made e → made' e)
    (h : Since kept made log) : Since kept' made' log := by
  induction h with
  | now h => exact .now (hma _ h)
  | later h _ ih => exact .later (hke _ h) ih

theorem Since.exists_made (h : Since kept made log) :
    ∃ m, made m ∧ Since kept (fun e => e = m) log := by
  induction h with
  | now h => exact ⟨_, h, .now rfl⟩
  | later h _ ih =>
    obtain ⟨m, hm, hsi⟩ := ih
    exact ⟨m, hm, .later h hsi⟩

end Gem5.Lib
