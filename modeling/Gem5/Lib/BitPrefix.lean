import Mathlib

/-!
# Gem5.Lib.BitPrefix

**Prefixes of bit vectors**, read from the most significant bit. A prefix of a
key is given by the key together with a *mask* whose leading bits are the ones
that count. `Agree n a b` says that two keys have the same first `n` bits; the
mask tests that programs perform on keys are all instances of it.
-/

namespace Gem5.Lib.BitPrefix

open BitVec

variable {w n m : Nat} {a b c : BitVec w}

/-! ### Keys with the same first bits -/

def Agree (n : Nat) (a b : BitVec w) : Prop :=
  ∀ j, j < n → a.getMsbD j = b.getMsbD j

instance (n : Nat) (a b : BitVec w) : Decidable (Agree n a b) :=
  inferInstanceAs (Decidable (∀ j, j < n → a.getMsbD j = b.getMsbD j))

@[simp] theorem Agree.zero : Agree 0 a b := fun _ h => absurd h (Nat.not_lt_zero _)

@[simp] theorem Agree.refl : Agree n a a := fun _ _ => rfl

theorem Agree.symm (h : Agree n a b) : Agree n b a := fun j hj => (h j hj).symm

theorem Agree.trans (h : Agree n a b) (h' : Agree n b c) : Agree n a c :=
  fun j hj => (h j hj).trans (h' j hj)

theorem Agree.mono (h : Agree n a b) (hm : m ≤ n) : Agree m a b :=
  fun j hj => h j (hj.trans_le hm)

theorem agree_succ : Agree (n + 1) a b ↔ Agree n a b ∧ a.getMsbD n = b.getMsbD n :=
  Nat.forall_lt_succ_right

/-- **One bit has two values**: of two keys that part after `n` bits, each key
with the same `n` bits follows one of them by one more bit. -/
theorem agree_succ_or (hab : Agree n a b) (hn : ¬Agree (n + 1) a b) (hc : Agree n c a) :
    Agree (n + 1) c a ∨ Agree (n + 1) c b := by
  rw [agree_succ] at hn
  rw [agree_succ, agree_succ]
  have hbi : a.getMsbD n ≠ b.getMsbD n := fun h => hn ⟨hab, h⟩
  by_cases h : c.getMsbD n = a.getMsbD n
  · exact .inl ⟨hc, h⟩
  · refine .inr ⟨hc.trans hab, ?_⟩
    revert h hbi
    cases c.getMsbD n <;> cases a.getMsbD n <;> cases b.getMsbD n <;> simp

/-! ### Masks of leading bits -/

def prefixMask (w n : Nat) : BitVec w :=
  BitVec.allOnes w <<< (w - n)

theorem getMsbD_prefixMask (n j : Nat) :
    (prefixMask w n).getMsbD j = (decide (j < w) && decide (j < n)) := by
  rw [prefixMask]
  by_cases hj : j < w
  · by_cases hn : j < n
    · simp [hj, hn]
      omega
    · simp [hj, hn]
      omega
  · simp [hj]
    omega

/-- **Comparing under a mask of leading bits** compares prefixes. -/
theorem and_prefixMask_eq_iff (hn : n ≤ w) :
    a &&& prefixMask w n = b &&& prefixMask w n ↔ Agree n a b := by
  constructor
  · intro h j hj
    have hbi := congrArg (getMsbD · j) h
    simpa [getMsbD_prefixMask, hj, hj.trans_le hn] using hbi
  · intro h
    refine eq_of_getMsbD_eq fun j hj => ?_
    by_cases hjn : j < n
    · simp [h j hjn]
    · simp [getMsbD_prefixMask, hjn]

theorem agree_and_prefixMask (h : m ≤ n) : Agree m (a &&& prefixMask w n) a := by
  intro j hj
  by_cases hw : j < w
  · simp [getMsbD_prefixMask, hw, hj.trans_le h]
  · simp [getMsbD_eq_getLsbD, hw]

theorem and_prefixMask_idem : a &&& prefixMask w n &&& prefixMask w n = a &&& prefixMask w n := by
  rw [BitVec.and_assoc, BitVec.and_self]

theorem prefixMask_and (n m : Nat) :
    prefixMask w n &&& prefixMask w m = prefixMask w (min n m) := by
  refine eq_of_getMsbD_eq fun j hj => ?_
  simp [getMsbD_prefixMask, hj]

theorem prefixMask_inj (hn : n ≤ w) (hm : m ≤ w) : prefixMask w n = prefixMask w m ↔ n = m := by
  constructor
  · intro h
    by_contra hne
    have hb := congrArg (getMsbD · (min n m)) h
    simp only [getMsbD_prefixMask] at hb
    rcases Nat.lt_or_gt_of_ne hne with hl | hl
    · simp [min_eq_left hl.le, hl, hl.trans_le hm] at hb
    · simp [min_eq_right hl.le, hl, hl.trans_le hn] at hb
  · rintro rfl
    rfl

/-- The mask test for **"no longer than"**. -/
theorem prefixMask_and_eq_iff (hn : n ≤ w) :
    prefixMask w n &&& prefixMask w m = prefixMask w n ↔ n ≤ m := by
  rw [prefixMask_and, prefixMask_inj (min_le_left n m |>.trans hn) hn, min_eq_left_iff]

@[simp] theorem prefixMask_zero : prefixMask w 0 = 0#w := by
  refine eq_of_getMsbD_eq fun j hj => ?_
  simp [getMsbD_prefixMask]

@[simp] theorem prefixMask_self : prefixMask w w = BitVec.allOnes w := by
  rw [prefixMask, Nat.sub_self, shiftLeft_zero]

def length (mask : BitVec w) : Nat :=
  if mask = 0#w then 0 else w - mask.ctz.toNat

@[simp] theorem length_zero : length 0#w = 0 := if_pos rfl

theorem length_le (mask : BitVec w) : length mask ≤ w := by
  unfold length
  split
  · exact Nat.zero_le w
  · exact Nat.sub_le _ _

theorem length_prefixMask (hn : n ≤ w) : length (prefixMask w n) = n := by
  rcases Nat.eq_zero_or_pos n with rfl | hpos
  · simp
  · have hb : ∀ i, (prefixMask w n).getLsbD i = (decide (i < w) && decide (w - n ≤ i)) := by
      intro i
      simp only [prefixMask]
      by_cases h : i < w <;> by_cases h' : w - n ≤ i <;> (simp [h, h']; try omega)
    have hne : prefixMask w n ≠ 0#w := by
      intro h
      have := hb (w - n)
      simp [h] at this
      omega
    have hs := getLsbD_true_ctz_of_ne_zero hne
    rw [hb] at hs
    have hle : ¬w - n < (prefixMask w n).ctz.toNat := by
      intro hlt
      have := getLsbD_false_of_lt_ctz hlt
      rw [hb] at this
      simp at this
      omega
    rw [length, if_neg hne]
    simp at hs
    omega

end Gem5.Lib.BitPrefix
