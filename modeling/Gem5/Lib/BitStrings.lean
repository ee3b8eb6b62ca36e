import Mathlib

/-!
# Gem5.Lib.BitStrings

**Bit strings stored as numbers.** `bitsToNat` reads a string with its most significant bit first. With
its length a string is determined by its number. Without the length, two strings have the same number
when they differ only in zeros at the start.
-/

namespace Gem5.Lib

open List Bool Nat

/-- The number that a bit string writes, the most significant bit first. -/
def bitsToNat (p : List Bool) : Nat := p.foldl (fun n b => 2 * n + b.toNat) 0

variable {p q : List Bool}

@[simp] theorem bitsToNat_nil : bitsToNat [] = 0 := rfl

@[simp] theorem bitsToNat_concat (p : List Bool) (b : Bool) :
    bitsToNat (p ++ [b]) = 2 * bitsToNat p + b.toNat := by
  simp [bitsToNat]

theorem bitsToNat_lt (p : List Bool) : bitsToNat p < 2 ^ p.length := by
  induction p using reverseRecOn with
  | nil => simp
  | append_singleton p b ih =>
    have hb := b.toNat_lt
    rw [bitsToNat_concat, length_append, length_singleton]
    omega

theorem bitsToNat_append (p q : List Bool) :
    bitsToNat (p ++ q) = bitsToNat p * 2 ^ q.length + bitsToNat q := by
  induction q using reverseRecOn with
  | nil => simp
  | append_singleton q b ih =>
    rw [← append_assoc, bitsToNat_concat, ih, bitsToNat_concat, length_append, length_singleton]
    ring

theorem bitsToNat_cons (b : Bool) (p : List Bool) :
    bitsToNat (b :: p) = b.toNat * 2 ^ p.length + bitsToNat p := by
  have := bitsToNat_append [b] p
  simpa [bitsToNat] using this

theorem eq_of_bitsToNat_eq (hl : p.length = q.length) (h : bitsToNat p = bitsToNat q) : p = q := by
  induction p generalizing q with
  | nil => exact (length_eq_zero_iff.mp hl.symm).symm
  | cons b p ih =>
    cases q with
    | nil => simp at hl
    | cons b' q =>
      replace hl : p.length = q.length := succ.inj hl
      have hp := bitsToNat_lt p
      have hq := bitsToNat_lt q
      rw [bitsToNat_cons, bitsToNat_cons, hl] at h
      rw [hl] at hp
      cases b <;> cases b' <;> simp only [toNat_false, toNat_true] at h
      · rw [ih hl (by omega)]
      · omega
      · omega
      · rw [ih hl (by omega)]

theorem bitsToNat_shiftRight_of_isPrefix (h : p <+: q) :
    bitsToNat q >>> (q.length - p.length) = bitsToNat p := by
  obtain ⟨r, rfl⟩ := h
  rw [bitsToNat_append, length_append, Nat.add_sub_cancel_left, shiftRight_eq_div_pow,
    add_comm, add_mul_div_right _ _ (Nat.two_pow_pos _),
    div_eq_of_lt (bitsToNat_lt r), zero_add]

theorem isPrefix_iff : p <+: q ↔
    p.length ≤ q.length ∧ bitsToNat q >>> (q.length - p.length) = bitsToNat p := by
  refine ⟨fun h => ⟨h.length_le, bitsToNat_shiftRight_of_isPrefix h⟩, fun ⟨hl, h⟩ => ?_⟩
  have ht : (q.take p.length).length = p.length := length_take_of_le hl
  have hpr : q.take p.length <+: q := take_prefix _ _
  have hn := bitsToNat_shiftRight_of_isPrefix hpr
  rw [ht, h] at hn
  rw [eq_of_bitsToNat_eq ht.symm hn]
  exact hpr

/-- Zeros at the start do not count. -/
theorem bitsToNat_dropWhile (p : List Bool) : bitsToNat (p.dropWhile (!·)) = bitsToNat p := by
  induction p with
  | nil => rfl
  | cons b p ih =>
    cases b with
    | true => rfl
    | false =>
      rw [dropWhile_cons_of_pos rfl, ih, bitsToNat_cons]
      simp

theorem length_eq_of_bitsToNat_eq (h : bitsToNat (true :: p) = bitsToNat (true :: q)) :
    p.length = q.length := by
  rw [bitsToNat_cons, bitsToNat_cons] at h
  have hp := bitsToNat_lt p
  have hq := bitsToNat_lt q
  simp only [toNat_true] at h
  rcases lt_trichotomy p.length q.length with hlt | heq | hgt
  · have := Nat.pow_le_pow_right two_pos (succ_le_of_lt hlt)
    omega
  · exact heq
  · have := Nat.pow_le_pow_right two_pos (succ_le_of_lt hgt)
    omega

theorem bitsToNat_pos (p : List Bool) : 0 < bitsToNat (true :: p) := by
  rw [bitsToNat_cons]
  have := Nat.two_pow_pos p.length
  simp only [toNat_true]
  omega

/-- **Two strings have the same number when they differ in zeros at the start only.** -/
theorem bitsToNat_eq_iff : bitsToNat p = bitsToNat q ↔ p.dropWhile (!·) = q.dropWhile (!·) := by
  constructor
  · intro h
    rw [← bitsToNat_dropWhile p, ← bitsToNat_dropWhile q] at h
    have hhd : ∀ l : List Bool, l.dropWhile (!·) = [] ∨ ∃ r, l.dropWhile (!·) = true :: r := by
      intro l
      cases hl : l.dropWhile (!·) with
      | nil => exact .inl rfl
      | cons b r =>
        have hb := head_dropWhile_not (!·) (by rw [hl]; exact cons_ne_nil _ _)
        simp only [hl, head_cons, not_eq_false'] at hb
        exact .inr ⟨r, by rw [hb]⟩
    rcases hhd p with hp | ⟨r, hp⟩ <;> rcases hhd q with hq | ⟨r', hq⟩ <;> rw [hp, hq] at h ⊢
    · exact absurd h (Nat.ne_of_lt (bitsToNat_pos r'))
    · exact absurd h.symm (Nat.ne_of_lt (bitsToNat_pos r))
    · exact eq_of_bitsToNat_eq (congrArg (· + 1) (length_eq_of_bitsToNat_eq h)) h
  · intro h
    rw [← bitsToNat_dropWhile p, ← bitsToNat_dropWhile q, h]

end Gem5.Lib
