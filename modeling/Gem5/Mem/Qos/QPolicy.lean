import Gem5.Lib.Outcome

/-!
# Gem5.Mem.Qos.QPolicy

**Least recently granted** (`src/mem/qos/q_policy.cc`). `toServe` lists the requestors in the order in
which they are to be served, and `selectPacket` takes the first packet of the first of them that has
one. Both of its panics test the opposite of what their messages say: a requestor that is known is
"unrecognized", and a list that is not empty "is empty". What passes both reads the front of an empty
list, so that no packet is ever selected.
-/

namespace Gem5.Mem

open Gem5.Lib Function

/-- The panics of `selectPacket`, and the front of an empty list. -/
inductive LrgFault
  | packetWithoutRequest
  | unrecognizedRequestor
  | toServeIsEmpty
  | front
  deriving DecidableEq

/-- `LrgQueuePolicy`, with the requestors its controller knows, in the order of their arrival. -/
structure LrgQueuePolicy (ρ : Type) where
  requestors : List ρ := []
  toServe : List ρ := []
  deriving DecidableEq

namespace LrgQueuePolicy

variable {ρ : Type} [DecidableEq ρ] (p : LrgQueuePolicy ρ)

/-- `hasRequestor` of the controller. -/
def hasRequestor (id : ρ) : Bool := id ∈ p.requestors

/-- `addRequestor` of the controller, which logs a packet after it is enqueued. -/
def addRequestor (id : ρ) : LrgQueuePolicy ρ :=
  if p.hasRequestor id then p else { p with requestors := p.requestors ++ [id] }

def enqueuePacket (id : ρ) : LrgQueuePolicy ρ :=
  if !p.hasRequestor id then { p with toServe := p.toServe ++ [id] } else p

/-- The loop over the queue, from its packet `i` on. A packet is the requestor of its request, if it
has one. The loop ends at a packet of the front of `toServe`, or with the first packet of each
requestor. -/
def selectLoop (track : ρ → Option Nat) (i : Nat) :
    List (Option ρ) → Except LrgFault (Option Nat × (ρ → Option Nat))
  | [] => .ok (none, track)
  | none :: _ => .error .packetWithoutRequest
  | some id :: q =>
    if p.hasRequestor id then .error .unrecognizedRequestor
    else if p.toServe.length > 0 then .error .toServeIsEmpty
    else
      match p.toServe with
      | [] => .error .front
      | front :: _ =>
        if front = id then .ok (some i, track)
        else selectLoop (if track id = none then update track id (some i) else track) (i + 1) q

/-- `selectPacket`: the position of the packet, or none for the end of the queue. -/
def selectPacket (q : List (Option ρ)) : Except LrgFault (Option Nat × LrgQueuePolicy ρ) := do
  let (found, track) ← p.selectLoop (fun _ => none) 0 q
  match found with
  | some i => .ok (some i, { p with toServe := p.toServe.tail ++ p.toServe.head?.toList })
  | none => .ok (p.toServe.findSome? track, p)

/-! ### What it is for -/

/-- Requestor `r` goes before `r'`: it was granted less recently, or never and has arrived before.
The last grant comes first in `granted`. -/
def Before (granted : List ρ) (r r' : ρ) : Prop :=
  if r ∈ granted then r' ∈ granted ∧ granted.idxOf r' < granted.idxOf r
  else r' ∈ granted ∨ p.requestors.idxOf r < p.requestors.idxOf r'

/-- **A selection is fair**: the packet is the oldest of the requestor that goes before the others. -/
def Grants (granted : List ρ) (q : List (Option ρ)) : Prop :=
  q ≠ [] → ∃ i r p', p.selectPacket q = .ok (some i, p') ∧ q[i]? = some (some r) ∧
    (∀ j < i, q[j]? ≠ some (some r)) ∧ ∀ r', some r' ∈ q → r' = r ∨ p.Before granted r r'

variable {p} {q : List (Option ρ)}

theorem selectPacket_cons (pkt : Option ρ) : ∃ e, p.selectPacket (pkt :: q) = .error e := by
  have hl : ∃ e, p.selectLoop (fun _ => none) 0 (pkt :: q) = .error e := by
    cases pkt with
    | none => exact ⟨_, rfl⟩
    | some id =>
      rw [selectLoop]
      split
      · exact ⟨_, rfl⟩
      cases p.toServe with
      | nil => exact ⟨_, rfl⟩
      | cons front toServe => exact ⟨_, rfl⟩
  obtain ⟨e, he⟩ := hl
  exact ⟨e, by rw [selectPacket, he, error_bind]⟩

/-- **A selection is fair only when there is nothing to select.** -/
theorem grants_iff (p : LrgQueuePolicy ρ) (granted : List ρ) (q : List (Option ρ)) :
    p.Grants granted q ↔ q = [] := by
  constructor
  · intro h
    cases q with
    | nil => rfl
    | cons pkt q =>
      obtain ⟨i, r, p', hs, -⟩ := h (List.cons_ne_nil pkt q)
      obtain ⟨e, he⟩ := selectPacket_cons (p := p) (q := q) pkt
      rw [he] at hs
      cases hs
  · intro hq hne
    exact absurd hq hne

/-- One packet of one requestor, which its controller knows once the packet is logged. -/
theorem not_grants_enqueued :
    let p := (enqueuePacket {} 7).addRequestor 7
    p.toServe = [7] ∧ p.selectPacket [some 7] = .error .unrecognizedRequestor ∧
      ¬ p.Grants [] [some 7] := by
  refine ⟨rfl, rfl, fun h => ?_⟩
  obtain ⟨i, r, p', hs, -⟩ := h (by decide)
  cases hs

end LrgQueuePolicy

end Gem5.Mem
