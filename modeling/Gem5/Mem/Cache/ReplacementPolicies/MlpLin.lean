import Gem5.Lib.Search

/-!
# Gem5.Mem.Cache.ReplacementPolicies.MlpLin

**The MLP-aware LIN policy** (`src/mem/cache/replacement_policies/mlp_lin_rp.cc`). Eight passes over
the candidates write their recencies, from the oldest on, and the victim has the least sum of recency
and weighted miss cost. A pass that finds nothing newer writes to the first candidate. The recencies
are the LRU ranks when there are as many candidates as passes. The sum is unsigned and wraps around.
-/

namespace Gem5.Mem

open Gem5.Lib Finset Function

structure LinBlocks where
  lastTouchTick : Nat → Nat
  missCost : Nat → Nat
  recencyStack : Nat → Nat

namespace LinBlocks

/-- The search of one pass: the oldest of the first `n` candidates newer than `lru`. -/
def nextNewer (tick : Nat → Nat) (lru : Nat) : Nat → Option Nat
  | 0 => none
  | n + 1 =>
    let temp := nextNewer tick lru n
    if tick lru < tick n ∧ ∀ t ∈ temp, tick n < tick t then some n else temp

/-- The first `i + 1` passes: the candidate chosen last, and the recencies. -/
def passes (b : LinBlocks) (n : Nat) : Nat → Nat × (Nat → Nat)
  | 0 =>
    let lru := bestOf b.lastTouchTick 0 id n
    (lru, update b.recencyStack lru 0)
  | i + 1 =>
    let (lru, recency) := passes b n i
    let temp := (nextNewer b.lastTouchTick lru n).getD 0
    (temp, update recency temp (i + 1))

/-- The value a candidate is compared by, as the unsigned sum of the source. -/
def score (b : LinBlocks) (recency : Nat → Nat) (i : Nat) : Nat :=
  (recency i + 4 * b.missCost i) % 2 ^ 32

/-- `getVictim`: the victim, and the recencies it leaves. -/
def getVictim (b : LinBlocks) (n : Nat) : Nat × (Nat → Nat) :=
  let recency := (b.passes n 7).2
  (bestOf (b.score recency) 0 id n, recency)

/-- The LRU rank: how many candidates are older. -/
def rank (b : LinBlocks) (n i : Nat) : Nat := #{j ∈ range n | b.lastTouchTick j < b.lastTouchTick i}

/-- What a candidate should be compared by. -/
def weight (b : LinBlocks) (n i : Nat) : Nat := b.rank n i + 4 * b.missCost i

/-- The victim has the least weight, and the recencies are the LRU ranks. -/
def ByRank (b : LinBlocks) (n : Nat) : Prop :=
  (b.getVictim n).1 < n ∧ (∀ i < n, b.weight n (b.getVictim n).1 ≤ b.weight n i) ∧
    ∀ i < n, (b.getVictim n).2 i = b.rank n i

variable {b : LinBlocks} {tick : Nat → Nat} {n k lru t j : Nat}

theorem bestOf_least (size : Nat → Nat) (h : 0 < n) :
    bestOf size 0 id n < n ∧ ∀ j < n, size (bestOf size 0 id n) ≤ size j := by
  rcases bestOf_cases size 0 id n with ⟨hb, hl⟩ | ⟨i, hi, hb, -, -, hl⟩ <;> rw [hb]
  · exact ⟨h, hl⟩
  · exact ⟨hi, hl⟩

theorem nextNewer_spec (tick : Nat → Nat) (lru n : Nat) :
    (∀ t ∈ nextNewer tick lru n, t < n ∧ tick lru < tick t) ∧
      ∀ j < n, tick lru < tick j → ∃ t ∈ nextNewer tick lru n, tick t ≤ tick j := by
  induction n with
  | zero => simp [nextNewer]
  | succ n ih =>
    rw [nextNewer]
    split
    · rename_i hn
      refine ⟨fun t ht => ?_, fun j hj he => ⟨n, rfl, ?_⟩⟩
      · cases ht
        exact ⟨n.lt_succ_self, hn.1⟩
      · rcases Nat.lt_succ_iff_lt_or_eq.mp hj with hj | rfl
        · obtain ⟨t, ht, hl⟩ := ih.2 j hj he
          exact (hn.2 t ht).le.trans hl
        · exact le_rfl
    · rename_i hno
      refine ⟨fun t ht => ⟨(ih.1 t ht).1.trans n.lt_succ_self, (ih.1 t ht).2⟩, fun j hj he => ?_⟩
      rcases Nat.lt_succ_iff_lt_or_eq.mp hj with hj | rfl
      · exact ih.2 j hj he
      · simpa [he] using hno

theorem le_of_nextNewer (h : nextNewer tick lru n = none) (hj : j < n) : tick j ≤ tick lru := by
  by_contra hne
  obtain ⟨t, ht, -⟩ := (nextNewer_spec tick lru n).2 j hj (Nat.lt_of_not_le hne)
  simp [h] at ht

theorem nextNewer_le (h : nextNewer tick lru n = some t) (hj : j < n) (hne : tick lru < tick j) :
    tick t ≤ tick j := by
  obtain ⟨t', ht, hl⟩ := (nextNewer_spec tick lru n).2 j hj hne
  cases h.symm.trans ht
  exact hl

theorem rank_lt (ht : t < n) : b.rank n t < n := by
  have h : #{j ∈ range n | b.lastTouchTick j < b.lastTouchTick t} < #(range n) :=
    card_lt_card (filter_ssubset.mpr ⟨t, mem_range.mpr ht, lt_irrefl _⟩)
  rwa [card_range] at h

variable (hinj : Set.InjOn b.lastTouchTick (Set.Iio n))
include hinj

theorem rank_nextNewer (hlr : lru < n) (h : nextNewer b.lastTouchTick lru n = some t) :
    b.rank n t = b.rank n lru + 1 := by
  have hn := ((nextNewer_spec ..).1 t h).2
  rw [rank, rank, ← card_insert_of_notMem (a := lru) (by simp)]
  congr 1
  ext j
  simp only [mem_filter, mem_range, mem_insert]
  constructor
  · rintro ⟨hj, hlt⟩
    rcases lt_trichotomy (b.lastTouchTick j) (b.lastTouchTick lru) with hj' | heq | hj'
    · exact .inr ⟨hj, hj'⟩
    · exact .inl (hinj hj hlr heq)
    · exact absurd hlt (nextNewer_le h hj hj').not_gt
  · rintro (rfl | ⟨hj, hlt⟩)
    · exact ⟨hlr, hn⟩
    · exact ⟨hj, hlt.trans hn⟩

theorem nextNewer_eq_none (hlr : lru < n) :
    nextNewer b.lastTouchTick lru n = none ↔ b.rank n lru + 1 = n := by
  cases hp : nextNewer b.lastTouchTick lru n with
  | none =>
    refine iff_of_true rfl ?_
    have hol : {j ∈ range n | b.lastTouchTick j < b.lastTouchTick lru} = (range n).erase lru := by
      ext j
      simp only [mem_filter, mem_range, mem_erase]
      refine ⟨fun h => ⟨fun heq => h.2.ne (by rw [heq]), h.1⟩, fun h => ⟨h.2, ?_⟩⟩
      exact (le_of_nextNewer hp h.2).lt_of_ne fun heq => h.1 (hinj h.2 hlr heq)
    rw [rank, hol, card_erase_add_one (mem_range.mpr hlr), card_range]
  | some t =>
    refine iff_of_false (by simp) fun h => ?_
    have := rank_lt (b := b) ((nextNewer_spec ..).1 t hp).1
    rw [rank_nextNewer hinj hlr hp, h] at this
    exact absurd this (lt_irrefl n)

/-- **Pass `k` reaches the candidate of rank `k`**, and the candidates up to it have their ranks. -/
theorem passes_spec (hk : k < n) : (b.passes n k).1 < n ∧ b.rank n (b.passes n k).1 = k ∧
    ∀ j < n, b.lastTouchTick j ≤ b.lastTouchTick (b.passes n k).1 →
      (b.passes n k).2 j = b.rank n j := by
  induction k with
  | zero =>
    rw [passes]
    dsimp only
    obtain ⟨hl, hla⟩ := bestOf_least b.lastTouchTick hk
    have hr : b.rank n (bestOf b.lastTouchTick 0 id n) = 0 :=
      card_eq_zero.mpr (filter_eq_empty_iff.mpr fun j hj => (hla j (mem_range.mp hj)).not_gt)
    refine ⟨hl, hr, fun j hj hle => ?_⟩
    rw [hinj hj hl (hle.antisymm (hla j hj)), hr, update_self]
  | succ k ih =>
    obtain ⟨hl, hr, hbe⟩ := ih (Nat.lt_of_succ_lt hk)
    cases hp : nextNewer b.lastTouchTick (b.passes n k).1 n with
    | none =>
      have := (nextNewer_eq_none hinj hl).mp hp
      omega
    | some t =>
      obtain ⟨ht, hnew⟩ := (nextNewer_spec ..).1 t hp
      have hrn := rank_nextNewer hinj hl hp
      rw [hr] at hrn
      simp only [passes, hp, Option.getD_some]
      refine ⟨ht, hrn, fun j hj hle => ?_⟩
      rcases eq_or_ne j t with rfl | hn
      · rw [update_self, hrn]
      · rw [update_of_ne hn]
        refine hbe j hj (Nat.le_of_not_lt fun hl => hn (hinj hj ht (hle.antisymm ?_)))
        exact nextNewer_le hp hj hl

/-- The passes after the last rank write to the first candidate, and only larger values. -/
theorem le_passes (h0 : 0 < n) (hk : n ≤ k) : n ≤ (b.passes n k).2 0 := by
  induction k, hk using Nat.le_induction with
  | base =>
    obtain ⟨k, rfl⟩ := Nat.exists_eq_succ_of_ne_zero h0.ne'
    obtain ⟨hlt, hra, -⟩ := passes_spec hinj k.lt_succ_self
    have hp := (nextNewer_eq_none hinj hlt).mpr (by rw [hra])
    simp only [passes, hp, Option.getD_none, update_self, le_refl]
  | succ k hk ih =>
    rw [passes]
    dsimp only
    rw [update_apply]
    split
    · exact Nat.le_succ_of_le hk
    · exact ih

omit hinj

/-- **The choice is the one by LRU ranks just when there are eight candidates**, as long as no weight
overflows. With fewer the recency of the first one is too large. -/
theorem byRank_iff (b : LinBlocks) (n : Nat) (h0 : 0 < n) (h8 : n ≤ 8)
    (hinj : Set.InjOn b.lastTouchTick (Set.Iio n)) (hcost : ∀ i < n, b.weight n i < 2 ^ 32) :
    b.ByRank n ↔ n = 8 := by
  constructor
  · rintro ⟨-, -, hr⟩
    by_contra hne
    have hl : n ≤ (b.getVictim n).2 0 := le_passes (k := 7) hinj h0 (by omega)
    rw [hr 0 h0] at hl
    exact absurd (rank_lt h0) hl.not_gt
  · rintro rfl
    obtain ⟨hlt, hla, hbe⟩ := passes_spec (k := 7) hinj (by decide)
    have hr : ∀ i < 8, (b.getVictim 8).2 i = b.rank 8 i := fun i hi =>
      hbe i hi (le_of_nextNewer ((nextNewer_eq_none hinj hlt).mpr (by rw [hla])) hi)
    have hs : ∀ i < 8, b.score (b.getVictim 8).2 i = b.weight 8 i := fun i hi => by
      rw [score, hr i hi]
      exact Nat.mod_eq_of_lt (hcost i hi)
    obtain ⟨hv, hle⟩ := bestOf_least (b.score (b.getVictim 8).2) h0
    refine ⟨hv, fun i hi => ?_, hr⟩
    exact (hs _ hv).ge.trans ((hle i hi).trans_eq (hs i hi))

theorem byRank_iff_ticks : ByRank ⟨id, id, id⟩ 8 :=
  (byRank_iff ⟨id, id, id⟩ 8 (by decide) le_rfl (Set.injOn_id _) (by decide)).mpr rfl

/-- Of two candidates the first is newer and costs nothing. It is left with recency 7, and the other
one is chosen. Of eight candidates the newest has a miss cost of `2 ^ 30`: its score wraps around,
and it is chosen. -/
theorem getVictim_misled :
    (let b : LinBlocks := ⟨fun i => 10 - i, id, id⟩
    b.rank 2 0 = 1 ∧ (b.getVictim 2).2 0 = 7 ∧ (b.getVictim 2).1 = 1 ∧
      b.weight 2 0 < b.weight 2 1) ∧
    let b : LinBlocks := ⟨id, fun i => if i = 7 then 2 ^ 30 else 2, id⟩
    (b.getVictim 8).1 = 7 ∧ b.weight 8 0 < b.weight 8 7 := by
  decide +kernel

end LinBlocks

end Gem5.Mem
