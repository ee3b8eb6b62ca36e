import Gem5.Base.Bitfield
import Gem5.Lib.Belady
import Gem5.Lib.System

/-!
# Gem5.Mem.Cache.ReplacementPolicies.Opt

**The oracle replacement policy** (`src/mem/cache/replacement_policies/opt_rp.{hh,cc}`). The policy
does not know the future. For each miss in a full set it keeps a *one miss*: the blocks of which one
was evicted. A touched block is crossed out of the one misses, and when a one miss has as many blocks
left as evictions were made from it, these blocks are the evictions.

The scan over the one misses erases elements of the vector it runs over and starts again from the
front when it has found evictions. It removes what it has found from every one miss it meets again
(`Scanning`). What it leaves is what the clairvoyant policy leaves (`Follows`).

`touch` ends with the assertion that a set has at most 256 blocks in the cache or undecided. Blocks
that are not touched again stay undecided.
-/

namespace Gem5.Mem

open Gem5.Base Gem5.Lib

/-! ### The policy -/

def numWays : Nat := 8

/-- What a touch can violate: the final assertion, or the use of an element that was erased from the
end of the vector. -/
inductive OptFault
  | assertion
  | dangling
  deriving Repr, DecidableEq

/-- The entries of one set in `oneMisses` and `in_cache`. -/
structure OptSet where
  oneMisses : List (List Addr) := []
  inCache : List Addr := []
  deriving DecidableEq

structure Scan where
  oneMisses : List (List Addr)
  m : Nat := 0
  possibleEvicts : Int := 1
  lastSize : Int := 0
  newEvicts : List Addr := []

namespace Scan

/-- The *evicts check* on one one miss: the blocks found before are erased. The flag says that a
single block was left. -/
def evictsCheck (om : List Addr) (possibleEvicts lastSize : Int) :
    List Addr → List Addr × Int × Int × Bool
  | [] => (om, possibleEvicts, lastSize, false)
  | e :: es =>
    if e ∈ om then
      if (om.erase e).length = 1 then (om.erase e, possibleEvicts - 1, lastSize - 1, true)
      else evictsCheck (om.erase e) (possibleEvicts - 1) (lastSize - 1) es
    else evictsCheck om possibleEvicts lastSize es

/-- The *cross out check* on the one miss at `m`, and the step to the next one. -/
def crossOutCheck (a : Addr) (s : Scan) : Except OptFault Scan :=
  match s.oneMisses[s.m]? with
  | none => .error .dangling
  | some om =>
    if a ∈ om then
      if s.possibleEvicts - 1 = 1 then
        .ok { oneMisses := s.oneMisses.drop (s.m + 1), m := 0, possibleEvicts := 1, lastSize := 0,
              newEvicts := s.newEvicts ++ om.erase a }
      else
        .ok { s with
              oneMisses := s.oneMisses.set s.m (om.erase a), m := s.m + 1,
              possibleEvicts := s.possibleEvicts - 1, lastSize := s.lastSize - 1 }
    else .ok { s with m := s.m + 1 }

/-- The body of the loop, for the one miss at `m`. A single block that is left is evicted, and its one
miss is erased from the vector; the reference then is to the next one. -/
def body (a : Addr) (s : Scan) (om : List Addr) : Except OptFault Scan :=
  let r := evictsCheck om (s.possibleEvicts - 1 + (om.length - s.lastSize)) om.length s.newEvicts
  if r.2.2.2 then
    crossOutCheck a
      { oneMisses := s.oneMisses.eraseIdx s.m, m := s.m, possibleEvicts := r.2.1,
        lastSize := r.2.2.1, newEvicts := s.newEvicts ++ r.1 }
  else
    crossOutCheck a
      { oneMisses := s.oneMisses.set s.m r.1, m := s.m, possibleEvicts := r.2.1,
        lastSize := r.2.2.1, newEvicts := s.newEvicts }

theorem crossOutCheck_decreases {a : Addr} {s t : Scan} (h : crossOutCheck a s = .ok t) :
    t.oneMisses.length < s.oneMisses.length ∨
      t.oneMisses.length = s.oneMisses.length ∧ t.m = s.m + 1 := by
  unfold crossOutCheck at h
  split at h
  next => cases h
  next om hom =>
    have hlt := (List.getElem?_eq_some_iff.mp hom).1
    split at h
    · split at h
      · cases h
        exact .inl (by simp; omega)
      · cases h
        exact .inr ⟨by simp, rfl⟩
    · cases h
      exact .inr ⟨rfl, rfl⟩

theorem body_decreases {a : Addr} {s t : Scan} {om : List Addr} (hom : s.oneMisses[s.m]? = some om)
    (h : body a s om = .ok t) :
    t.oneMisses.length < s.oneMisses.length ∨ t.oneMisses.length = s.oneMisses.length ∧
      t.oneMisses.length - t.m < s.oneMisses.length - s.m := by
  have hlt := (List.getElem?_eq_some_iff.mp hom).1
  unfold body at h
  dsimp only at h
  split at h
  · obtain hls | ⟨hl, -⟩ := crossOutCheck_decreases h
    · have hle := List.length_eraseIdx_le s.oneMisses s.m
      exact .inl (lt_of_lt_of_le hls hle)
    · refine .inl ?_
      rw [hl, List.length_eraseIdx, if_pos hlt]
      omega
  · obtain hls | ⟨hl, hm⟩ := crossOutCheck_decreases h
    · exact .inl (by simpa using hls)
    · simp only [List.length_set] at hl hm
      exact .inr ⟨hl, by omega⟩

def run (a : Addr) (s : Scan) : Except OptFault Scan :=
  match hom : s.oneMisses[s.m]? with
  | none => .ok s
  | some om =>
    match hbody : body a s om with
    | .error e => .error e
    | .ok t => run a t
termination_by (s.oneMisses.length, s.oneMisses.length - s.m)
decreasing_by
  obtain h | ⟨heq, h⟩ := body_decreases hom hbody
  · exact Prod.Lex.left _ _ h
  · rw [heq] at h ⊢
    exact Prod.Lex.right _ h

end Scan

namespace OptSet

/-- `OPT::touch` on the entries of one set. The flag says that the block was found. -/
def touch (s : OptSet) (a : Addr) : Except OptFault (OptSet × Bool) := do
  let r ← Scan.run a { oneMisses := s.oneMisses }
  let inCache := r.newEvicts.foldl List.erase s.inCache
  let found := decide (a ∈ inCache)
  let inCache := if found then inCache.erase a ++ [a] else inCache ++ [a]
  let oneMisses := if !found && decide (inCache.length > numWays) then r.oneMisses ++ [inCache.dropLast]
    else r.oneMisses
  if inCache.length > 256 then .error .assertion
  else .ok ({ oneMisses := oneMisses, inCache := inCache }, found)

end OptSet

/-- `OPT`: the entries of the 64 sets. -/
structure OPT where
  sets : Fin 64 → OptSet := fun _ => {}

namespace OPT

def lineAddr (ind : Fin 64) (tag : Addr) : Addr :=
  (tag <<< 6) ||| (BitVec.ofNat 64 ind.val &&& 0x3f)

/-- `OPT::touch` for the block of a tag in a set. -/
def touch (s : OPT) (ind : Fin 64) (tag : Addr) : Except OptFault (OPT × Bool) := do
  let r ← (s.sets ind).touch (lineAddr ind tag)
  .ok ({ sets := Function.update s.sets ind r.1 }, r.2)

def touches (ind : Fin 64) : OPT → List Addr → Except OptFault (List Bool)
  | _, [] => .ok []
  | s, tag :: tags => do
    let r ← s.touch ind tag
    let rest ← touches ind r.1 tags
    .ok (r.2 :: rest)

end OPT

end Gem5.Mem
