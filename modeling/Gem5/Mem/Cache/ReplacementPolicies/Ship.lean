import Gem5.Lib.System
import Gem5.Mem.Packet

/-!
# Gem5.Mem.Cache.ReplacementPolicies.Ship

**Signature-based hit prediction** (`src/mem/cache/replacement_policies/ship_rp.cc`). The counter of a
signature is to rise with a hit and to fall with an entry that is invalidated and was never hit.
`invalidate` tests the flag the other way round: it detrains the entries that *were* hit.
-/

namespace Gem5.Mem

open Gem5.Lib Function

/-- `SatCounter8`, with 0 as its initial value. -/
structure SatCounter where
  maxVal : Nat
  counter : Nat := 0

namespace SatCounter

def inc (c : SatCounter) : SatCounter :=
  if c.counter < c.maxVal then { c with counter := c.counter + 1 } else c

def dec (c : SatCounter) : SatCounter :=
  if c.counter > 0 then { c with counter := c.counter - 1 } else c

def saturate (c : SatCounter) : SatCounter := { c with counter := c.maxVal }

end SatCounter

inductive SHiPKind
  | mem
  | pc

structure SHiPParams where
  kind : SHiPKind
  numRRPVBits : Nat
  hitPriority : Bool
  /-- In percent. -/
  insertionThreshold : Nat
  shctSize : Nat

/-- `SHiPMem::getSignature` and `SHiPPC::getSignature`. -/
def SHiPParams.getSignature (p : SHiPParams) (pkt : Packet) : Nat :=
  match p.kind with
  | .mem => pkt.addr % p.shctSize
  | .pc => pkt.req.pc.getD 0 % p.shctSize

structure SHiPReplData where
  rrpv : SatCounter
  valid : Bool := false
  signature : Nat := 0
  outcome : Bool := false

/-- The policy and its entries, the counters the training is meant to make, and for each entry the
signature it was inserted with and whether it has been hit or invalidated since. -/
structure SHiPRun (ι : Type) where
  entries : ι → SHiPReplData
  SHCT : Nat → SatCounter
  trained : Nat → SatCounter
  inserted : ι → Option (Nat × Bool) := fun _ => none

inductive SHiPCall (ι : Type)
  /-- `long` is what the draw of `BRRIP::reset` decides. -/
  | reset (i : ι) (pkt : Packet) (long : Bool)
  | touch (i : ι) (pkt : Packet)
  | invalidate (i : ι)

namespace SHiPRun

variable {ι : Type} [DecidableEq ι]

def reset (p : SHiPParams) (s : SHiPRun ι) (i : ι) (pkt : Packet) (long : Bool) : SHiPRun ι :=
  let signature := p.getSignature pkt
  let rrpv := (s.entries i).rrpv.saturate
  let rrpv := if long then rrpv.dec else rrpv
  -- the saturation of the counter, a quotient, against the threshold
  let near := p.insertionThreshold * (s.SHCT signature).maxVal ≤ 100 * (s.SHCT signature).counter
  { s with
    entries := update s.entries i ⟨if near then rrpv.dec else rrpv, true, signature, false⟩
    inserted := update s.inserted i (some (signature, false)) }

def touch (p : SHiPParams) (s : SHiPRun ι) (i : ι) (pkt : Packet) : SHiPRun ι :=
  let signature := p.getSignature pkt
  let e := s.entries i
  let rrpv := if p.hitPriority then { e.rrpv with counter := 0 } else e.rrpv.dec
  { entries := update s.entries i { e with outcome := true, rrpv := rrpv }
    SHCT := update s.SHCT signature (s.SHCT signature).inc
    trained := update s.trained signature (s.trained signature).inc
    inserted := update s.inserted i (some (signature, true)) }

def invalidate (s : SHiPRun ι) (i : ι) : SHiPRun ι :=
  let e := s.entries i
  { entries := update s.entries i { e with valid := false }
    SHCT := if e.outcome then update s.SHCT e.signature (s.SHCT e.signature).dec else s.SHCT
    trained := match s.inserted i with
      | some (signature, false) => update s.trained signature (s.trained signature).dec
      | _ => s.trained
    inserted := update s.inserted i ((s.inserted i).map fun x => (x.1, true)) }

def step (p : SHiPParams) (s : SHiPRun ι) : SHiPCall ι → Except Unit (SHiPRun ι)
  | .reset i pkt long => .ok (s.reset p i pkt long)
  | .touch i pkt => .ok (s.touch p i pkt)
  | .invalidate i => .ok (s.invalidate i)

/-- An entry is touched by packets with the signature it was inserted with. -/
def pre (p : SHiPParams) (s : SHiPRun ι) : SHiPCall ι → Prop
  | .touch i pkt => (s.inserted i).map (·.1) = some (p.getSignature pkt)
  | _ => True

/-- **Nothing to detrain**: an entry is invalidated when the counter of its signature is 0, or
without a hit when it was never inserted or is invalidated already. -/
def Untrained (s : SHiPRun ι) : SHiPCall ι → Prop
  | .invalidate i => (s.SHCT (s.entries i).signature).counter = 0 ∨
    ((s.entries i).outcome = false ∧ ∀ x ∈ s.inserted i, x.2 = true)
  | _ => True

instance (p : SHiPParams) (s : SHiPRun ι) : DecidablePred (s.pre p) := fun a => by
  cases a <;> dsimp only [pre] <;> infer_instance

instance (s : SHiPRun ι) : DecidablePred s.Untrained := fun a => by
  cases a <;> dsimp only [Untrained] <;> infer_instance

abbrev system (ι : Type) [DecidableEq ι] (p : SHiPParams) : System (SHiPRun ι) (SHiPCall ι) Unit where
  init s := s = ⟨fun _ => ⟨⟨2 ^ p.numRRPVBits - 1, 0⟩, false, 0, false⟩,
    fun _ => ⟨2 ^ p.numRRPVBits - 1, 0⟩, fun _ => ⟨2 ^ p.numRRPVBits - 1, 0⟩, fun _ => none⟩
  step := step p
  pre := pre p

/-- The counters are the ones meant, and an entry has the signature it was inserted with. -/
structure Inv (s : SHiPRun ι) : Prop where
  trained : s.SHCT = s.trained
  signature : ∀ i, ∀ x ∈ s.inserted i, (s.entries i).signature = x.1

variable {p : SHiPParams} {s s' : SHiPRun ι} {i : ι} {pkt : Packet}

theorem dec_of_zero {c : SatCounter} (h : c.counter = 0) : c.dec = c := by
  simp [SatCounter.dec, h]

theorem Inv.reset (h : s.Inv) (long : Bool) : (s.reset p i pkt long).Inv := by
  refine ⟨h.trained, fun j x hx => ?_⟩
  by_cases hj : j = i
  · subst hj
    simp only [SHiPRun.reset, update_self, Option.mem_some_iff] at hx ⊢
    rw [← hx]
  · simp only [SHiPRun.reset, update_of_ne hj] at hx ⊢
    exact h.signature j x hx

theorem Inv.touch (h : s.Inv) (hp : s.pre p (.touch i pkt)) : (s.touch p i pkt).Inv := by
  refine ⟨?_, fun j x hx => ?_⟩
  · simp only [SHiPRun.touch, h.trained]
  · by_cases hj : j = i
    · subst hj
      obtain ⟨y, hy, he⟩ := Option.map_eq_some_iff.mp hp
      simp only [SHiPRun.touch, update_self, Option.mem_some_iff] at hx ⊢
      rw [← hx, h.signature j y hy, he]
    · simp only [SHiPRun.touch, update_of_ne hj] at hx ⊢
      exact h.signature j x hx

theorem Inv.invalidate (h : s.Inv) (hu : s.Untrained (.invalidate i)) : (s.invalidate i).Inv := by
  -- a counter at 0 does not move, in whichever direction the flag is tested
  have hc : (s.invalidate i).SHCT = s.SHCT := by
    simp only [SHiPRun.invalidate]
    rcases hu with hz | ⟨hno, -⟩
    · simp only [dec_of_zero hz, update_eq_self, ite_self]
    · simp [hno]
  have ht : (s.invalidate i).trained = s.trained := by
    simp only [SHiPRun.invalidate]
    split
    · rename_i signature hi
      rcases hu with hz | ⟨-, hin⟩
      · have hs : (s.trained signature).counter = 0 := by
          rw [← h.trained, show signature = _ from (h.signature i _ hi).symm]
          exact hz
        rw [dec_of_zero hs, update_eq_self]
      · cases hin _ hi
    · rfl
  refine ⟨hc.trans (h.trained.trans ht.symm), fun j x hx => ?_⟩
  by_cases hj : j = i
  · subst hj
    simp only [SHiPRun.invalidate, update_self] at hx ⊢
    obtain ⟨y, hy, rfl⟩ := Option.map_eq_some_iff.mp hx
    exact h.signature j y hy
  · simp only [SHiPRun.invalidate, update_of_ne hj] at hx ⊢
    exact h.signature j x hx

/-- **The counters are trained as meant** in every run that invalidates an entry only when there is
nothing to detrain. -/
theorem trained_of_untrained (h : ((system ι p).restrict Untrained).Reachable s) :
    s.SHCT = s.trained := by
  have hi : s.Inv := by
    refine h.invariant Inv ?_ ?_
    · rintro _ rfl
      exact ⟨rfl, fun _ => nofun⟩
    · rintro s a s' hs ⟨hp, hu⟩ ho
      cases a with
      | reset i pkt long =>
        cases ho
        exact hs.reset long
      | touch i pkt =>
        cases ho
        exact hs.touch hp
      | invalidate i =>
        cases ho
        exact hs.invalidate hu
  exact hi.trained

/-- An entry that is invalidated already is invalidated once more after a hit on the other one. -/
theorem trained_of_untrained_hit :
    ∃ s, ((system Nat ⟨.mem, 2, true, 50, 4⟩).restrict Untrained).Reachable s ∧
      (s.SHCT 1).counter = 1 ∧ s.SHCT = s.trained :=
  System.Reachable.exists_and_of_leads
    [.reset 0 { cmd := .readReq, addr := 5 } false, .invalidate 0,
      .reset 1 { cmd := .readReq, addr := 5 } false, .touch 1 { cmd := .readReq, addr := 5 },
      .invalidate 0]
    (.start rfl) (by decide +kernel) fun _ hs => trained_of_untrained hs

/-- An entry is hit and invalidated: its hit is taken back. -/
theorem invalidate_detrains_hit : ∃ s, (system Nat ⟨.mem, 2, true, 50, 4⟩).Reachable s ∧
    (s.SHCT 1).counter = 0 ∧ (s.trained 1).counter = 1 :=
  System.Reachable.exists_of_leads
    [.reset 0 { cmd := .readReq, addr := 5 } false, .touch 0 { cmd := .readReq, addr := 5 },
      .invalidate 0] (.start rfl) (by decide +kernel)

end SHiPRun

end Gem5.Mem
