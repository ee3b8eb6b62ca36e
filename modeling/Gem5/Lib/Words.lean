import Mathlib

/-!
# Gem5.Lib.Words

**Cutting words into chunks and putting chunks together.** A list of words of `n * w` bits is cut into
chunks of `w` bits, the low bits of a word first. Putting the chunks together is the inverse, in
both directions.
-/

namespace Gem5.Lib

open BitVec List Nat

variable {w n k : Nat}

def splitWords (w n : Nat) (words : List (BitVec (n * w))) : List (BitVec w) :=
  (List.range (words.length * n)).map fun i =>
    (words.getD (i / n) 0 >>> (i % n * w)).setWidth w

def joinWord (chunks : List (BitVec w)) (n i : Nat) : BitVec (n * w) :=
  (List.range n).foldr (fun j acc => acc ||| (chunks.getD (n * i + j) 0).setWidth (n * w) <<< (j * w)) 0

def joinWords (chunks : List (BitVec w)) (n k : Nat) : List (BitVec (n * w)) :=
  (List.range k).map (joinWord chunks n)

variable (words : List (BitVec (n * w))) (chunks : List (BitVec w))

@[simp] theorem length_splitWords : (splitWords w n words).length = words.length * n := by
  simp [splitWords]

@[simp] theorem length_joinWords : (joinWords chunks n k).length = k := by
  simp [joinWords]

theorem getLsbD_foldr_or {W : Nat} (f : Nat → BitVec W) (l : List Nat) (b : Nat) :
    (l.foldr (fun j acc => acc ||| f j) 0).getLsbD b = l.any fun j => (f j).getLsbD b := by
  induction l with
  | nil => simp
  | cons j l ih => rw [foldr_cons, getLsbD_or, ih, any_cons, Bool.or_comm]

theorem getLsbD_joinWord (n i : Nat) {b : Nat} (hb : b < n * w) :
    (joinWord chunks n i).getLsbD b = (chunks.getD (n * i + b / w) 0).getLsbD (b % w) := by
  have hw : 0 < w := Nat.pos_of_ne_zero fun h => by simp [h] at hb
  rw [joinWord, getLsbD_foldr_or]
  rw [Bool.eq_iff_iff, any_eq_true]
  constructor
  · rintro ⟨j, -, hi⟩
    simp only [getLsbD_shiftLeft, getLsbD_setWidth, Bool.and_eq_true, Bool.not_eq_true',
      decide_eq_false_iff_not] at hi
    obtain ⟨⟨-, hle⟩, -, hi⟩ := hi
    have hlt := lt_of_getLsbD hi
    obtain ⟨r, rfl⟩ : ∃ r, b = j * w + r := ⟨b - j * w, by omega⟩
    rw [Nat.add_sub_cancel_left] at hi hlt
    rwa [Nat.mul_comm j w, mul_add_div hw, div_eq_of_lt hlt, mul_add_mod, mod_eq_of_lt hlt]
  · intro hi
    have hqu : b / w < n := Nat.div_lt_of_lt_mul (by rwa [Nat.mul_comm])
    refine ⟨b / w, mem_range.mpr hqu, ?_⟩
    have hdiv : b / w * w + b % w = b := by rw [Nat.mul_comm]; exact div_add_mod b w
    have hsu : b - b / w * w = b % w := by omega
    simp only [getLsbD_shiftLeft, getLsbD_setWidth, hsu, hi]
    simp
    omega

theorem getD_splitWords {i : Nat} (hi : i < words.length * n) :
    (splitWords w n words).getD i 0 = (words.getD (i / n) 0 >>> (i % n * w)).setWidth w := by
  rw [splitWords, getD_eq_getElem?_getD, getElem?_map, getElem?_range hi]
  rfl

theorem joinWords_splitWords (hw : 0 < w) (hn : 0 < n) :
    joinWords (splitWords w n words) n words.length = words := by
  refine ext_getElem (length_joinWords _) fun i _ hi => ?_
  simp only [joinWords, getElem_map, getElem_range]
  refine eq_of_getLsbD_eq fun b hb => ?_
  have hq : b / w < n := Nat.div_lt_of_lt_mul (by rwa [Nat.mul_comm])
  have hid : n * i + b / w < words.length * n := by
    calc n * i + b / w < n * i + n := Nat.add_lt_add_left hq _
      _ = n * (i + 1) := by rw [Nat.mul_succ]
      _ ≤ words.length * n := by rw [Nat.mul_comm]; exact mul_le_mul_right n hi
  rw [getLsbD_joinWord _ _ _ hb, getD_splitWords _ hid, mul_add_div hn,
    div_eq_of_lt hq, mul_add_mod, mod_eq_of_lt hq, Nat.add_zero,
    getD_eq_getElem _ _ hi, getLsbD_setWidth, getLsbD_ushiftRight]
  have hdi : b / w * w + b % w = b := by rw [Nat.mul_comm]; exact div_add_mod b w
  rw [hdi, decide_eq_true (mod_lt b hw), Bool.true_and]

theorem splitWords_joinWords (hn : 0 < n) (hle : chunks.length = k * n) :
    splitWords w n (joinWords chunks n k) = chunks := by
  refine ext_getElem (by simp [hle]) fun i h hi => ?_
  have hqu : i / n < k := Nat.div_lt_of_lt_mul (by rw [Nat.mul_comm]; omega)
  have hwo : (joinWords chunks n k).getD (i / n) 0 = joinWord chunks n (i / n) := by
    rw [getD_eq_getElem _ _ (by simpa using hqu)]
    simp [joinWords]
  simp only [splitWords, getElem_map, getElem_range, hwo]
  refine eq_of_getLsbD_eq fun b hb => ?_
  have hre : i % n * w + b < n * w := by
    calc i % n * w + b < i % n * w + w := Nat.add_lt_add_left hb _
      _ = (i % n + 1) * w := by rw [Nat.succ_mul]
      _ ≤ n * w := mul_le_mul_right w (mod_lt i hn)
  rw [getLsbD_setWidth, getLsbD_ushiftRight, getLsbD_joinWord _ _ _ hre,
    decide_eq_true hb, Bool.true_and, Nat.mul_comm (i % n) w, mul_add_div (by omega),
    div_eq_of_lt hb, Nat.add_zero, mul_add_mod, mod_eq_of_lt hb, div_add_mod,
    getD_eq_getElem _ _ hi]

end Gem5.Lib
