import Mathlib

/-!
# Gem5.Lib.BitGaps

**Removing and inserting bits.** A word is closed up at some positions: the bits there are dropped and
the bits above move down. The bit at a position that stays is then found at its *rank*, the number of
positions below it that stay (`Squeezed`). Opening a word up at positions is the reverse (`Opened`).

Both are done one position after the other, in increasing order (`Squeezed.cons`, `Opened.cons`).
-/

namespace Gem5.Lib

open List Nat

/-! ### Ranks -/

def rank (gaps : List Nat) (p : Nat) : Nat :=
  Nat.count (· ∉ gaps) p

variable {gaps : List Nat} {l p q : Nat}

@[simp] theorem rank_nil (p : Nat) : rank [] p = p := by
  simp [rank]

variable {gaps' : List Nat}

theorem rank_congr (h : ∀ p, p ∈ gaps ↔ p ∈ gaps') (p : Nat) : rank gaps p = rank gaps' p := by
  simp only [rank, h]

theorem rank_succ_of_notMem (h : p ∉ gaps) : rank gaps (p + 1) = rank gaps p + 1 := by
  rw [rank, count_succ, if_pos h]
  rfl

theorem rank_succ_of_mem (h : p ∈ gaps) : rank gaps (p + 1) = rank gaps p := by
  rw [rank, count_succ, if_neg (not_not.mpr h)]
  rfl

theorem rank_lt (h : p ∉ gaps) (hpq : p < q) : rank gaps p < rank gaps q :=
  count_strict_mono h hpq

theorem rank_cons_of_le (h : p ≤ l) : rank (l :: gaps) p = rank gaps p := by
  induction p with
  | zero => rfl
  | succ p ih =>
    have hn : p ≠ l := by omega
    by_cases hp : p ∈ gaps
    · rw [rank_succ_of_mem hp, rank_succ_of_mem (mem_cons_of_mem l hp), ih (by omega)]
    · rw [rank_succ_of_notMem hp, rank_succ_of_notMem (by simp [hn, hp]), ih (by omega)]

theorem rank_cons_of_lt (hl : l ∉ gaps) (h : l < p) : rank (l :: gaps) p + 1 = rank gaps p := by
  induction p with
  | zero => exact absurd h (not_lt_zero l)
  | succ p ih =>
    by_cases hpl : p = l
    · subst hpl
      rw [rank_succ_of_mem mem_cons_self, rank_succ_of_notMem hl, rank_cons_of_le (le_refl p)]
    · by_cases hp : p ∈ gaps
      · rw [rank_succ_of_mem hp, rank_succ_of_mem (mem_cons_of_mem l hp), ih (by omega)]
      · rw [rank_succ_of_notMem hp, rank_succ_of_notMem (by simp [hpl, hp]), ih (by omega)]

theorem rank_add_length (hnd : gaps.Nodup) (h : ∀ d ∈ gaps, d < p) :
    rank gaps p + gaps.length = p := by
  induction gaps with
  | nil => rw [rank_nil]; rfl
  | cons d gaps ih =>
    rw [nodup_cons] at hnd
    have hran := rank_cons_of_lt hnd.1 (h d mem_cons_self)
    have hr := ih hnd.2 fun d' hd' => h d' (mem_cons_of_mem d hd')
    rw [length_cons]
    omega

theorem exists_rank (gaps : List Nat) (k : Nat) : ∃ p, p ∉ gaps ∧ rank gaps p = k := by
  have hin : {p | p ∉ gaps}.Infinite := (finite_toSet gaps).infinite_compl
  exact ⟨nth (· ∉ gaps) k, nth_mem_of_infinite hin k, count_nth_of_infinite hin k⟩

/-! ### Words -/

variable {w : Nat} {x y z : BitVec w}

def Squeezed (gaps : List Nat) (x y : BitVec w) : Prop :=
  ∀ p, p ∉ gaps → y.getLsbD (rank gaps p) = x.getLsbD p

theorem Squeezed.nil (x : BitVec w) : Squeezed [] x x := fun p _ => by rw [rank_nil]

theorem Squeezed.unique (hy : Squeezed gaps x y) (hz : Squeezed gaps x z) : y = z := by
  refine BitVec.eq_of_getLsbD_eq fun k _ => ?_
  obtain ⟨p, hp, rfl⟩ := exists_rank gaps k
  rw [hy p hp, hz p hp]

theorem Squeezed.congr (h : ∀ p, p ∈ gaps ↔ p ∈ gaps')
    (hy : Squeezed gaps x y) : Squeezed gaps' x y := fun p hp => by
  rw [← rank_congr h]
  exact hy p (mt (h p).mp hp)

/-- **A further bit is removed**, above those removed before. -/
theorem Squeezed.cons (hy : Squeezed gaps x y) (hnd : gaps.Nodup) (hl : ∀ d ∈ gaps, d < l)
    (hz : ∀ k, z.getLsbD k =
      if k < l - gaps.length then y.getLsbD k else y.getLsbD (k + 1)) :
    Squeezed (l :: gaps) x z := by
  intro p hp
  rw [mem_cons, not_or] at hp
  have hln : l ∉ gaps := fun hme => lt_irrefl l (hl l hme)
  have hran := rank_add_length hnd hl
  rw [hz, ← hy p hp.2]
  obtain hlt | hgt := lt_or_gt_of_ne hp.1
  · have := rank_lt hp.2 hlt
    rw [rank_cons_of_le hlt.le, if_pos (by omega)]
  · have := rank_lt hln hgt
    have hco := rank_cons_of_lt hln hgt
    rw [if_neg (by omega), hco]

structure Opened (gaps : List Nat) (y z : BitVec w) : Prop where
  kept : ∀ p < w, p ∉ gaps → z.getLsbD p = y.getLsbD (rank gaps p)
  filled : ∀ p ∈ gaps, z.getLsbD p = (decide (0 < p) && z.getLsbD (p - 1))

theorem Opened.nil (y : BitVec w) : Opened [] y y :=
  ⟨fun p _ _ => by rw [rank_nil], fun _ h => absurd h not_mem_nil⟩

theorem Opened.congr (h : ∀ p, p ∈ gaps ↔ p ∈ gaps') (hz : Opened gaps y z) : Opened gaps' y z :=
  ⟨fun p hpw hp => by rw [← rank_congr h]; exact hz.kept p hpw (mt (h p).mp hp),
    fun p hp => hz.filled p ((h p).mpr hp)⟩

/-- **A further bit is inserted**, above those inserted before. -/
theorem Opened.cons {v : BitVec w} (hz : Opened gaps y z) (hl : ∀ d ∈ gaps, d < l) (hlw : l < w)
    (hv : ∀ k < w, v.getLsbD k =
      if k < l then z.getLsbD k else (decide (0 < k) && z.getLsbD (k - 1))) :
    Opened (l :: gaps) y v := by
  have hln : l ∉ gaps := fun hm => lt_irrefl l (hl l hm)
  have ho : ∀ k, k < l → v.getLsbD k = z.getLsbD k := fun k hk => by
    rw [hv k (by omega), if_pos hk]
  refine ⟨fun p hpw hp => ?_, fun p hp => ?_⟩
  · rw [mem_cons, not_or] at hp
    obtain ht | hgt := lt_or_gt_of_ne hp.1
    · rw [ho p ht, hz.kept p hpw hp.2, rank_cons_of_le ht.le]
    · -- the bit comes from the position below, which is above all gaps so far
      have hb : p - 1 ∉ gaps := fun hm => by have := hl _ hm; omega
      have hcon := rank_cons_of_lt hln hgt
      have hsu := rank_succ_of_notMem hb
      rw [Nat.sub_add_cancel (by omega)] at hsu
      rw [hv p hpw, if_neg (by omega), decide_eq_true (by omega), Bool.true_and,
        hz.kept _ (by omega) hb]
      congr 1
      omega
  · obtain rfl | hm := mem_cons.mp hp
    · rw [hv p hlw, if_neg (lt_irrefl p)]
      by_cases hpo : 0 < p
      · rw [ho (p - 1) (by omega)]
      · rw [decide_eq_false hpo, Bool.false_and, Bool.false_and]
    · have ht := hl p hm
      rw [ho p ht, hz.filled p hm, ho (p - 1) (by omega)]

def below (gaps : List Nat) (x : BitVec w) : Nat → Bool
  | 0 => false
  | p + 1 => if p ∈ gaps then below gaps x p else x.getLsbD p

/-- **What the gaps are filled with.** -/
theorem Opened.getLsbD_filled (hz : Opened gaps y z)
    (hxy : ∀ p < w, p ∉ gaps → x.getLsbD p = y.getLsbD (rank gaps p)) (hp : p < w) :
    z.getLsbD p = if p ∈ gaps then below gaps x p else x.getLsbD p := by
  induction p with
  | zero =>
    split
    next hm => rw [hz.filled 0 hm]; rfl
    next hm => rw [hz.kept 0 hp hm, hxy 0 hp hm]
  | succ p ih =>
    split
    next hm =>
      rw [hz.filled _ hm, decide_eq_true (succ_pos p), Bool.true_and, Nat.add_sub_cancel,
        ih (by omega), below]
    next hm => rw [hz.kept _ hp hm, hxy _ hp hm]

end Gem5.Lib
