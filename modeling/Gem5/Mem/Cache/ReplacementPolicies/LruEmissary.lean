import Mathlib

/-!
# Gem5.Mem.Cache.ReplacementPolicies.LruEmissary

**The victim of EMISSARY** (`src/mem/cache/replacement_policies/lru_emissary_rp.cc`). One scan counts
the preserved candidates and keeps the oldest of all and the oldest that is not preserved. When every
candidate is preserved and preserving is allowed, the latter is still the first candidate. The counts
are `uint8_t`, and the search for the latter starts again when its count wraps.
-/

namespace Gem5.Mem.LRUEmissary

open List

variable {ι : Type} (preserve : ι → Bool) (lastTouchTick : ι → Nat)

structure Scan (ι : Type) where
  victimNotSt : ι
  lruEntry : ι
  numNotPreserved : Nat := 0
  numpreserve : Nat := 0

def older (candidate entry : ι) : ι :=
  if lastTouchTick candidate < lastTouchTick entry then candidate else entry

def Scan.visit (s : Scan ι) (candidate : ι) : Scan ι :=
  let lruEntry := older lastTouchTick candidate s.lruEntry
  if preserve candidate then
    { s with numpreserve := (s.numpreserve + 1) % 2 ^ 8, lruEntry := lruEntry }
  else
    let numNotPreserved := (s.numNotPreserved + 1) % 2 ^ 8
    { s with
      numNotPreserved := numNotPreserved
      victimNotSt := if numNotPreserved = 1 then candidate
        else older lastTouchTick candidate s.victimNotSt
      lruEntry := lruEntry }

/-- `getVictim` of the candidates `c :: cs`. -/
def getVictim (preserveWays : Int) (c : ι) (cs : List ι) : ι :=
  let s := (c :: cs).foldl (Scan.visit preserve lastTouchTick) ⟨c, c, 0, 0⟩
  if s.numpreserve > preserveWays then s.lruEntry else s.victimNotSt

/-- The candidates that are not preserved. -/
def free (l : List ι) : List ι := l.filter fun c => !preserve c

/-- The candidates the victim is to be the oldest of. -/
def eligible (preserveWays : Int) (l : List ι) : List ι :=
  if l.countP preserve ≤ preserveWays ∧ free preserve l ≠ [] then free preserve l else l

/-- The candidates `victimNotSt` is the oldest of. -/
def scanned (c : ι) (l : List ι) : List ι :=
  if free preserve l = [] then [c]
  else (free preserve l).drop (((free preserve l).length - 1) / 2 ^ 8 * 2 ^ 8)

/-- A least recently touched one of the candidates. -/
def Oldest (l : List ι) (v : ι) : Prop :=
  v ∈ l ∧ ∀ c ∈ l, lastTouchTick v ≤ lastTouchTick c

variable {preserve} {tick} {c d v : ι} {l : List ι} {s : Scan ι}

theorem Oldest.snoc (h : Oldest tick l v) : Oldest tick (l ++ [d]) (older tick d v) := by
  unfold older
  split
  next hd =>
    refine ⟨mem_append_right _ (mem_singleton_self d), fun c hc => ?_⟩
    rcases mem_append.mp hc with hc | hc
    · exact Nat.le_of_lt (Nat.lt_of_lt_of_le hd (h.2 c hc))
    · exact mem_singleton.mp hc ▸ Nat.le_refl _
  next hd =>
    refine ⟨mem_append_left _ h.1, fun c hc => ?_⟩
    rcases mem_append.mp hc with hc | hc
    · exact h.2 c hc
    · rw [mem_singleton.mp hc]
      exact Nat.le_of_not_lt hd

/-- What the scan knows after the candidates `l`. -/
structure Scanned (preserve : ι → Bool) (tick : ι → Nat) (c : ι) (l : List ι)
    (s : Scan ι) : Prop where
  numpreserve : s.numpreserve = l.countP preserve % 2 ^ 8
  numNotPreserved : s.numNotPreserved = (free preserve l).length % 2 ^ 8
  lruEntry : Oldest tick (c :: l) s.lruEntry
  victimNotSt : Oldest tick (scanned preserve c l) s.victimNotSt

theorem Scanned.visit (h : Scanned preserve tick c l s) (d : ι) :
    Scanned preserve tick c (l ++ [d]) (s.visit preserve tick d) := by
  have hl : Oldest tick (c :: (l ++ [d])) (older tick d s.lruEntry) := h.lruEntry.snoc
  cases hd : preserve d with
  | true =>
    have hf : free preserve (l ++ [d]) = free preserve l := by simp [free, hd]
    simp only [Scan.visit, hd, if_true]
    exact ⟨by simp [h.numpreserve, hd], by rw [hf, h.numNotPreserved], hl,
      by rw [scanned, hf]; exact h.victimNotSt⟩
  | false =>
    have hf : free preserve (l ++ [d]) = free preserve l ++ [d] := by simp [free, hd]
    have hn : (s.numNotPreserved + 1) % 2 ^ 8 = ((free preserve l).length + 1) % 2 ^ 8 := by
      rw [h.numNotPreserved, Nat.mod_add_mod]
    simp only [Scan.visit, hd, Bool.false_eq_true, if_false, hn]
    refine ⟨by simp [h.numpreserve, hd], by rw [hf, length_append, length_singleton], hl, ?_⟩
    rw [scanned, hf, if_neg (by simp), length_append, length_singleton, Nat.add_sub_cancel]
    split
    next h1 =>
      -- the count starts again
      rw [show (free preserve l).length / 2 ^ 8 * 2 ^ 8 = (free preserve l).length by omega, drop_left]
      exact ⟨mem_singleton_self d, by simp⟩
    next h1 =>
      rw [drop_append_of_le_length (Nat.div_mul_le_self _ _)]
      refine Oldest.snoc ?_
      have hv := h.victimNotSt
      rw [scanned, if_neg fun he => h1 (by simp [he])] at hv
      rwa [show (free preserve l).length / 2 ^ 8 = ((free preserve l).length - 1) / 2 ^ 8 by omega]

theorem scanned_foldl (c : ι) (cs l : List ι) (h : Scanned preserve tick c l s) :
    Scanned preserve tick c (l ++ cs) (cs.foldl (Scan.visit preserve tick) s) := by
  induction cs generalizing l s with
  | nil => rwa [append_nil]
  | cons d cs ih => simpa using ih _ (h.visit d)

theorem scanned_subset {w : Int} {cs : List ι} (h : v ∈ scanned preserve c (c :: cs)) :
    v ∈ eligible preserve w (c :: cs) := by
  unfold scanned at h
  unfold eligible
  split at h
  next hf => rw [if_neg fun hp => hp.2 hf, mem_singleton.mp h]; exact mem_cons_self
  next hf =>
    have hv := mem_of_mem_drop h
    split
    next => exact hv
    next => exact (mem_filter.mp hv).1

/-- **The victim is the least recently touched eligible candidate** exactly when more are preserved
than allowed, as the source counts them, or one of those scanned for it is. -/
theorem oldest_getVictim_iff (preserve : ι → Bool) (tick : ι → Nat) (w : Int) (c : ι) (cs : List ι) :
    Oldest tick (eligible preserve w (c :: cs)) (getVictim preserve tick w c cs) ↔
      w < ((c :: cs).countP preserve % 2 ^ 8 : Nat) ∨ ∃ d ∈ scanned preserve c (c :: cs),
        ∀ e ∈ eligible preserve w (c :: cs), tick d ≤ tick e := by
  have h : Scanned preserve tick c (c :: cs) ((c :: cs).foldl (Scan.visit preserve tick) ⟨c, c, 0, 0⟩) :=
    scanned_foldl c (c :: cs) [] ⟨rfl, rfl, by simp [Oldest], by simp [scanned, free, Oldest]⟩
  simp only [getVictim, h.numpreserve]
  by_cases hw : w < ((c :: cs).countP preserve % 2 ^ 8 : Nat)
  · have he : eligible preserve w (c :: cs) = c :: cs := if_neg fun hp => by omega
    rw [if_pos hw, he]
    refine iff_of_true ⟨?_, fun e he => h.lruEntry.2 e (mem_cons_of_mem c he)⟩ (.inl hw)
    simpa using h.lruEntry.1
  · rw [if_neg hw]
    constructor
    · intro ho
      exact .inr ⟨_, h.victimNotSt.1, ho.2⟩
    · intro ho
      obtain ⟨d, hd, hl⟩ := ho.resolve_left hw
      exact ⟨scanned_subset h.victimNotSt.1, fun e he => Nat.le_trans (h.victimNotSt.2 d hd) (hl e he)⟩

/-- All candidates are preserved and two may be: the newer one is the victim. -/
theorem getVictim_all_preserved : ¬ Oldest id (eligible (fun _ => true) 2 [5, 3])
    (getVictim (fun _ => true) id 2 5 [3]) := by
  rw [show getVictim (fun _ => true) id 2 5 [3] = 5 by decide]
  exact fun h => absurd (h.2 3 (by decide)) (by decide)

end Gem5.Mem.LRUEmissary
