import Gem5.Base.AddrRange

/-!
# Gem5.Base.AddrRangeOffset

**Interleaved ranges tile memory.** Bounds that are multiples of `2 ^ height`, where no mask has a bit
from `height` on, are not affected by the interleaving: removing the interleaving bits divides them by
the number of stripes and keeps the order of addresses and bounds (`removeIntlvBits_lt_iff`). Between
the bounds, the bits that are left determine the address (`Solves.unique`) and can be chosen freely
(`exists_solves`), so that the offsets are exactly the numbers below the size.

The match value has 8 bits, and the selector 32.
-/

namespace Gem5.Base

open Gem5.Lib BitVec Nat Set

namespace AddrRange

variable {r : AddrRange} {height p : Nat} {c a : Addr}

/-! ### Aligned bounds -/

/-- No mask has a bit from `height` on. -/
def Below (r : AddrRange) (height : Nat) : Prop :=
  ∀ m ∈ r.masks, m.toNat < 2 ^ height

section

variable (hb : r.Below height)
include hb

theorem Below.pivots_lt (h : Triangular r.masks) :
    ∀ p ∈ pivots r.masks, p < height := fun p hp => by
  obtain ⟨m, hm, rfl⟩ := List.mem_map.mp hp
  have hbi := getLsbD_true_ctz_of_ne_zero (h.ne_zero m hm)
  by_contra hg
  have hlt := (hb m hm).trans_le (Nat.pow_le_pow_right (by decide) (Nat.le_of_not_lt hg))
  rw [BitVec.getLsbD, Nat.testBit_lt_two_pow hlt] at hbi
  cases hbi

theorem Below.rank_add (h : Triangular r.masks) (hp : height ≤ p) :
    rank (pivots r.masks) p + r.masks.length = p := by
  have hra := rank_add_length h.nodup fun d hd => lt_of_lt_of_le (hb.pivots_lt h d hd) hp
  rwa [pivots, List.length_map] at hra

theorem removeIntlvBits_shiftRight (h : Triangular r.masks) (a : Addr) :
    r.removeIntlvBits a >>> (height - r.masks.length) = a >>> height := by
  refine eq_of_getLsbD_eq fun k _ => ?_
  have hhei := hb.rank_add h (le_refl height)
  have hran := hb.rank_add h (le_add_right height k)
  have hno : height + k ∉ pivots r.masks := fun hme => by
    have := hb.pivots_lt h _ hme
    omega
  rw [getLsbD_ushiftRight, getLsbD_ushiftRight, ← squeezed_removeIntlvBits h a _ hno]
  congr 1
  omega

omit hb in
theorem getLsbD_of_dvd (hc : 2 ^ height ∣ c.toNat) (hp : p < height) : c.getLsbD p = false := by
  obtain ⟨q, hq⟩ := hc
  rw [getLsbD, hq, testBit_two_pow_mul, decide_eq_false (by omega), Bool.false_and]

theorem removeIntlvBits_of_dvd (h : Triangular r.masks) (hc : 2 ^ height ∣ c.toNat) :
    r.removeIntlvBits c = c >>> r.masks.length := by
  refine eq_of_getLsbD_eq fun k _ => ?_
  obtain ⟨p, hp, rfl⟩ := exists_rank (pivots r.masks) k
  rw [squeezed_removeIntlvBits h c p hp, getLsbD_ushiftRight]
  by_cases hh : height ≤ p
  · rw [add_comm, hb.rank_add h hh]
  · have hlt := rank_lt hp (Nat.lt_of_not_le hh)
    have htop := hb.rank_add h (le_refl height)
    rw [getLsbD_of_dvd hc (by omega), getLsbD_of_dvd hc (by omega)]

/-- **The order with respect to aligned bounds is kept.** -/
theorem removeIntlvBits_lt_iff (h : Triangular r.masks) (a : Addr) (hc : 2 ^ height ∣ c.toNat) :
    r.removeIntlvBits a < r.removeIntlvBits c ↔ a < c := by
  have hsh : ∀ x : Addr, (r.removeIntlvBits x).toNat / 2 ^ (height - r.masks.length) =
      x.toNat / 2 ^ height := fun x => by
    have := congrArg BitVec.toNat (removeIntlvBits_shiftRight hb h x)
    rwa [toNat_ushiftRight, toNat_ushiftRight, shiftRight_eq_div_pow, shiftRight_eq_div_pow] at this
  have hdv : 2 ^ (height - r.masks.length) ∣ (r.removeIntlvBits c).toNat := by
    obtain ⟨q, hq⟩ := hc
    have htop := hb.rank_add h (le_refl height)
    rw [removeIntlvBits_of_dvd hb h ⟨q, hq⟩, toNat_ushiftRight, shiftRight_eq_div_pow, hq]
    refine ⟨q, Nat.div_eq_of_eq_mul_left (Nat.two_pow_pos _) ?_⟩
    rw [mul_right_comm, ← pow_add]
    congr 2
    omega
  rw [lt_def, lt_def]
  have hlt_iff : ∀ {x y k : Nat}, 2 ^ k ∣ y → (x < y ↔ x / 2 ^ k < y / 2 ^ k) := fun {x y k} hy => by
    rw [div_lt_iff_lt_mul (Nat.two_pow_pos k), Nat.div_mul_cancel hy]
  rw [hlt_iff hdv, hlt_iff hc, hsh, hsh]

end

/-! ### Offsets -/

structure Aligned (r : AddrRange) (height : Nat) : Prop where
  below : r.Below height
  start_dvd : 2 ^ height ∣ r.start.toNat
  end_dvd : 2 ^ height ∣ r.endAddr.toNat
  le : r.valid

theorem Aligned.toNat_size (ha : r.Aligned height) (h : Triangular r.masks) :
    r.size.toNat = (r.removeIntlvBits r.endAddr).toNat - (r.removeIntlvBits r.start).toNat := by
  have htop := ha.below.rank_add h (le_refl height)
  have hle : r.start.toNat ≤ r.endAddr.toNat := le_def.mp (of_decide_eq_true ha.le)
  have hdv : 2 ^ r.masks.length ∣ r.start.toNat := (pow_dvd_pow 2 (by omega)).trans ha.start_dvd
  obtain ⟨q, hq⟩ := hdv
  have hsu : (r.endAddr - r.start).toNat = r.endAddr.toNat - r.start.toNat := by
    rw [toNat_sub]
    omega
  rw [removeIntlvBits_of_dvd ha.below h ha.end_dvd, removeIntlvBits_of_dvd ha.below h ha.start_dvd,
    size, toNat_ushiftRight, toNat_ushiftRight, toNat_ushiftRight, hsu,
    shiftRight_eq_div_pow, shiftRight_eq_div_pow, shiftRight_eq_div_pow, hq,
    sub_mul_div, Nat.mul_div_cancel_left _ (Nat.two_pow_pos _)]

theorem Aligned.inBounds_iff (ha : r.Aligned height) (h : Triangular r.masks) (a : Addr) :
    r.inBounds a ↔ (r.removeIntlvBits r.start).toNat ≤ (r.removeIntlvBits a).toNat ∧
      (r.removeIntlvBits a).toNat < (r.removeIntlvBits r.endAddr).toNat := by
  have hst := removeIntlvBits_lt_iff ha.below h a ha.start_dvd
  have hen := removeIntlvBits_lt_iff ha.below h a ha.end_dvd
  rw [lt_def, lt_def] at hst hen
  rw [inBounds, decide_eq_true_eq, ge_iff_le, le_def, lt_def]
  omega

theorem contains_iff (hms : r.masks ≠ []) (hle : r.masks.length ≤ 32) (a : Addr) :
    r.contains a ↔ r.inBounds a ∧ Solves r.masks r.intlvMatch.getLsbD a := by
  rw [← matchesSel_iff hms hle, contains]
  by_cases hin : r.inBounds a <;> simp [hin]

theorem toNat_getOffset (hms : r.masks ≠ []) (ha : r.Aligned height) (h : Triangular r.masks)
    (hin : r.inBounds a) : (r.getOffset a).toNat =
      (r.removeIntlvBits a).toNat - (r.removeIntlvBits r.start).toNat := by
  have hint : r.interleaved := by simpa [interleaved] using List.length_pos_iff.mpr hms
  have hbou := (ha.inBounds_iff h a).mp hin
  rw [getOffset, if_neg (by simp [hin]), if_pos hint, toNat_sub]
  omega

/-- **The offsets are the numbers below the size.** -/
theorem getOffset_bijOn (hm : r.masks ≠ []) (hl : r.masks.length ≤ 32)
    (h : Triangular r.masks) (ha : r.Aligned height) :
    Set.BijOn r.getOffset {a | r.contains a} {o | o < r.size} := by
  have hsz := ha.toNat_size h
  refine ⟨fun a hi => ?_, fun a hi a' hi' heq => ?_, fun o ho => ?_⟩
  · have hu := ((contains_iff hm hl a).mp hi).1
    have hof := toNat_getOffset hm ha h hu
    have := (ha.inBounds_iff h a).mp hu
    rw [mem_ofPred_eq, lt_def]
    omega
  · obtain ⟨hu, hs⟩ := (contains_iff hm hl a).mp hi
    obtain ⟨hu', hs'⟩ := (contains_iff hm hl a').mp hi'
    refine eq_of_removeIntlvBits_eq h hs hs' (eq_of_toNat_eq ?_)
    have hof := toNat_getOffset hm ha h hu
    have hof' := toNat_getOffset hm ha h hu'
    have := (ha.inBounds_iff h a).mp hu
    have := (ha.inBounds_iff h a').mp hu'
    rw [heq] at hof
    omega
  · rw [mem_ofPred_eq, lt_def] at ho
    have hend := removeIntlvBits_lt h r.endAddr
    have hsum : (o + r.removeIntlvBits r.start).toNat =
        o.toNat + (r.removeIntlvBits r.start).toNat := by
      rw [toNat_add]
      omega
    obtain ⟨a, hs, hr⟩ := exists_removeIntlvBits_eq h r.intlvMatch.getLsbD
      (b := o + r.removeIntlvBits r.start) (by omega)
    have hu : r.inBounds a := (ha.inBounds_iff h a).mpr (by rw [hr]; omega)
    refine ⟨a, (contains_iff hm hl a).mpr ⟨hu, hs⟩, eq_of_toNat_eq ?_⟩
    rw [toNat_getOffset hm ha h hu, hr]
    omega

/-! ### Stripes -/

def withMatch (r : AddrRange) (i : Fin (2 ^ r.masks.length)) : AddrRange :=
  { r with
    intlvMatch := BitVec.ofNat 8 i
    fits := fun _ => by
      rw [toNat_ofNat]
      exact lt_of_le_of_lt (mod_le _ _) i.isLt }

theorem sel_lt (r : AddrRange) (a : Addr) : (r.sel a).toNat < 2 ^ r.masks.length := by
  refine lt_pow_two_of_testBit _ fun j hj => ?_
  by_cases hj32 : j < 32
  · have hs := getLsbD_sel r a hj32
    rw [List.getElem?_eq_none hj] at hs
    exact hs
  · exact getLsbD_of_ge _ _ (Nat.le_of_not_lt hj32)

/-- **Each address between the bounds is in one of the stripes.** -/
theorem existsUnique_withMatch_contains (hle : r.masks.length ≤ 8) (hin : r.inBounds a) :
    ∃! i : Fin (2 ^ r.masks.length), (r.withMatch i).contains a := by
  have hpow : 2 ^ r.masks.length ≤ 2 ^ 8 := Nat.pow_le_pow_right (by decide) hle
  have hif : ∀ i : Fin (2 ^ r.masks.length), (r.withMatch i).contains a ↔
      i.val = (r.sel a).toNat := fun i => by
    have hco : (r.withMatch i).contains a = (r.sel a == (BitVec.ofNat 8 i).setWidth 32) :=
      if_pos hin
    rw [hco, beq_iff_eq, toNat_eq, toNat_setWidth, toNat_ofNat,
      mod_eq_of_lt (show i.val < 2 ^ 8 by omega), mod_eq_of_lt (by omega), eq_comm]
  have hse := sel_lt r a
  refine ⟨⟨_, hse⟩, (hif _).mpr rfl, fun i hi => Fin.ext ((hif i).mp hi)⟩

theorem interleaved_ranges_tile (r : AddrRange) (height : Nat) (hmasks : r.masks ≠ [])
    (hlen : r.masks.length ≤ 32) (h : Triangular r.masks) (ha : r.Aligned height) :
    Set.BijOn r.getOffset {a | r.contains a} {o | o < r.size} ∧
      (∀ i a, (r.withMatch i).contains a → r.inBounds a) ∧
      (r.masks.length ≤ 8 →
        ∀ a, r.inBounds a → ∃! i : Fin (2 ^ r.masks.length), (r.withMatch i).contains a) := by
  refine ⟨getOffset_bijOn hmasks hlen h ha, fun i a hi => ?_,
    fun hlen a hi => existsUnique_withMatch_contains hlen hi⟩
  by_contra hou
  have hbo : (r.withMatch i).inBounds a = false := Bool.eq_false_of_not_eq_true hou
  rw [contains, hbo] at hi
  cases hi

def fourStripes : AddrRange :=
  { start := 0x40, endAddr := 0x100, masks := [0b110100, 0b101000], intlvMatch := 2 }

theorem triangular_fourStripes : Triangular fourStripes.masks :=
  ⟨by simp [fourStripes], by decide +kernel⟩

theorem aligned_fourStripes : fourStripes.Aligned 6 :=
  ⟨by simp [Below, fourStripes], by decide +kernel, by decide +kernel, by decide +kernel⟩

theorem interleaved_ranges_tile_fourStripes :
    Set.BijOn fourStripes.getOffset {a | fourStripes.contains a} {o | o < fourStripes.size} ∧
      (∀ i a, (fourStripes.withMatch i).contains a → fourStripes.inBounds a) ∧
      (fourStripes.masks.length ≤ 8 → ∀ a, fourStripes.inBounds a →
        ∃! i : Fin (2 ^ fourStripes.masks.length), (fourStripes.withMatch i).contains a) :=
  interleaved_ranges_tile fourStripes 6 (by decide) (by decide) triangular_fourStripes
    aligned_fourStripes

def invalidRange : AddrRange :=
  { start := 4, endAddr := 0, masks := [1] }

/-- More stripes than match values. -/
def nineMasks : AddrRange :=
  { start := 0, endAddr := 0x200, masks := [1, 2, 4, 8, 16, 32, 64, 128, 256] }

/-- An invalid range has no addresses and a size. With nine masks, addresses are in no stripe. -/
theorem invalid_or_many_stripes_do_not_tile :
    ¬ Set.BijOn invalidRange.getOffset {a | invalidRange.contains a} {o | o < invalidRange.size} ∧
      nineMasks.inBounds 256 ∧
      ¬ ∃ i : Fin (2 ^ nineMasks.masks.length), (nineMasks.withMatch i).contains 256 := by
  refine ⟨fun hbi => ?_, by decide +kernel, fun ⟨i, hi⟩ => ?_⟩
  · obtain ⟨a, hin, -⟩ := hbi.surjOn (show (0 : Addr) ∈ {o | o < invalidRange.size} by decide +kernel)
    have hbo : invalidRange.inBounds a = false := by
      simp only [inBounds, invalidRange, decide_eq_false_iff_not, ge_iff_le, le_def, lt_def]
      simp
    rw [mem_ofPred_eq, contains, hbo] at hin
    cases hin
  · have hco : (nineMasks.withMatch i).contains 256 =
        (nineMasks.sel 256 == (BitVec.ofNat 8 i).setWidth 32) :=
      if_pos (show nineMasks.inBounds 256 by decide +kernel)
    have hse : nineMasks.sel 256 = 256#32 := by decide +kernel
    rw [hco, hse, beq_iff_eq, toNat_eq, toNat_setWidth, toNat_ofNat, toNat_ofNat] at hi
    omega

end AddrRange

end Gem5.Base
