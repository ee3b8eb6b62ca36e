import Mathlib

/-!
# Gem5.Lib.ParitySystem

**Systems of parity equations.** An equation asks for the parity of the bits of a word under a mask.
When the lowest bits of the masks are distinct, the system is triangular: the bits at these *pivots*
are determined by the bits at the other positions, from the highest pivot down, and every choice of
the other bits has a solution (`Solves.unique`, `exists_solves`).
-/

namespace Gem5.Lib

open BitVec List Nat

/-! ### Parity -/

/-- The sum modulo two of the first `n` values. -/
def xorUpTo (f : Nat → Bool) : Nat → Bool
  | 0 => false
  | n + 1 => xorUpTo f n ^^ f n

variable {n p : Nat}

theorem xorUpTo_congr {f g : Nat → Bool} (h : ∀ i < n, f i = g i) : xorUpTo f n = xorUpTo g n := by
  induction n with
  | zero => rfl
  | succ n ih => rw [xorUpTo, xorUpTo, ih fun i hi => h i (by omega), h n (by omega)]

theorem xorUpTo_xor (f g : Nat → Bool) (n : Nat) :
    xorUpTo (fun i => f i ^^ g i) n = (xorUpTo f n ^^ xorUpTo g n) := by
  induction n with
  | zero => rfl
  | succ n ih =>
    rw [xorUpTo, xorUpTo, xorUpTo, ih]
    simp only [Bool.xor_assoc, Bool.xor_left_comm]

theorem xorUpTo_false (n : Nat) : xorUpTo (fun _ => false) n = false := by
  induction n with
  | zero => rfl
  | succ n ih => rw [xorUpTo, ih]; rfl

theorem xorUpTo_single (hp : p < n) (b : Bool) : xorUpTo (fun i => decide (i = p) && b) n = b := by
  induction n with
  | zero => exact absurd hp (not_lt_zero p)
  | succ n ih =>
    rw [xorUpTo]
    by_cases hpn : p = n
    · subst hpn
      have hz : xorUpTo (fun i => decide (i = p) && b) p = xorUpTo (fun _ => false) p :=
        xorUpTo_congr fun i hi => by rw [decide_eq_false (by omega), Bool.false_and]
      rw [hz, xorUpTo_false, decide_eq_true rfl, Bool.true_and, Bool.false_xor]
    · rw [ih (by omega), decide_eq_false (Ne.symm hpn), Bool.false_and, Bool.xor_false]

theorem xorUpTo_mem (f : Nat → Bool) : ∀ {l : List Nat}, l.Nodup → (∀ p ∈ l, p < n) →
    xorUpTo (fun i => decide (i ∈ l) && f i) n = (l.countP f % 2 == 1) := by
  intro l
  induction l with
  | nil => intro _ _; simp [xorUpTo_false]
  | cons p l ih =>
    intro hnd hlt
    rw [nodup_cons] at hnd
    have hsp : xorUpTo (fun i => decide (i ∈ p :: l) && f i) n =
        xorUpTo (fun i => (decide (i = p) && f p) ^^ (decide (i ∈ l) && f i)) n := by
      refine xorUpTo_congr fun i _ => ?_
      by_cases hip : i = p
      · subst hip
        simp [hnd.1]
      · simp [hip]
    rw [hsp, xorUpTo_xor, xorUpTo_single (hlt p mem_cons_self),
      ih hnd.2 fun q hq => hlt q (mem_cons_of_mem p hq), countP_cons]
    obtain h | h := mod_two_eq_zero_or_one (l.countP f)
    · cases f p <;> simp [add_mod, h]
    · cases f p <;> simp [add_mod, h]

variable {w : Nat} {x y m : BitVec w}

def parity (x : BitVec w) : Bool :=
  xorUpTo x.getLsbD w

theorem parity_xor (x y : BitVec w) : parity (x ^^^ y) = (parity x ^^ parity y) := by
  unfold parity
  rw [← xorUpTo_xor]
  exact xorUpTo_congr fun i _ => getLsbD_xor

theorem cpopNatRec_mod_two (x : BitVec w) (n acc : Nat) :
    x.cpopNatRec n acc % 2 = ((acc % 2 == 1) ^^ xorUpTo x.getLsbD n).toNat := by
  induction n generalizing acc with
  | zero =>
    change acc % 2 = _
    obtain h | h := mod_two_eq_zero_or_one acc
    · rw [h]; rfl
    · rw [h]; rfl
  | succ n ih =>
    rw [cpopNatRec_succ, ih, xorUpTo]
    obtain h | h := mod_two_eq_zero_or_one acc
    · cases x.getLsbD n <;> simp [add_mod, h]
    · cases x.getLsbD n <;> simp [add_mod, h]

theorem cpop_mod_two (x : BitVec w) : x.cpop.toNat % 2 = (parity x).toNat := by
  have hlt : x.cpopNatRec w 0 < 2 ^ w := by
    have := cpopNatRec_zero_le (x := x) w
    exact Nat.lt_of_le_of_lt this Nat.lt_two_pow_self
  rw [cpop, toNat_ofNat, mod_eq_of_lt hlt, cpopNatRec_mod_two]
  simp [parity]

/-- The parity under a mask depends on the bits of the mask. -/
theorem parity_and_congr (h : ∀ i < w, m.getLsbD i = true → x.getLsbD i = y.getLsbD i) :
    parity (x &&& m) = parity (y &&& m) := by
  refine xorUpTo_congr fun i hi => ?_
  rw [getLsbD_and, getLsbD_and]
  cases hm : m.getLsbD i with
  | false => rw [Bool.and_false, Bool.and_false]
  | true => rw [h i hi hm]

/-- The parities of words that differ in at most one bit of the mask. -/
theorem parity_and_single (hp : p < w) (hm : m.getLsbD p = true)
    (h : ∀ i < w, i ≠ p → m.getLsbD i = true → x.getLsbD i = y.getLsbD i) :
    (parity (x &&& m) ^^ parity (y &&& m)) = (x.getLsbD p ^^ y.getLsbD p) := by
  rw [← parity_xor]
  refine (xorUpTo_congr fun i hi => ?_).trans (xorUpTo_single hp _)
  rw [getLsbD_xor, getLsbD_and, getLsbD_and]
  by_cases hip : i = p
  · rw [hip, hm, decide_eq_true rfl, Bool.and_true, Bool.and_true, Bool.true_and]
  · rw [decide_eq_false hip, Bool.false_and]
    cases hmi : m.getLsbD i with
    | false => rw [Bool.and_false, Bool.and_false, Bool.false_xor]
    | true => rw [h i hi hip hmi, Bool.xor_self]

/-! ### Systems -/

def Solves (masks : List (BitVec w)) (t : Nat → Bool) (x : BitVec w) : Prop :=
  ∀ {j : Nat} {m : BitVec w}, masks[j]? = some m → parity (x &&& m) = t j

def pivots (masks : List (BitVec w)) : List Nat :=
  masks.map (·.ctz.toNat)

structure Triangular (masks : List (BitVec w)) : Prop where
  ne_zero : ∀ m ∈ masks, m ≠ 0#w
  nodup : (pivots masks).Nodup

variable {masks : List (BitVec w)} {t : Nat → Bool}

theorem ctz_lt (h : m ≠ 0#w) : m.ctz.toNat < w :=
  lt_of_getLsbD (getLsbD_true_ctz_of_ne_zero h)

theorem Triangular.pivots_lt (h : Triangular masks) : ∀ p ∈ pivots masks, p < w := fun p hp => by
  obtain ⟨m, hm, rfl⟩ := mem_map.mp hp
  exact ctz_lt (h.ne_zero m hm)

theorem Triangular.tail (h : Triangular (m :: masks)) : Triangular masks :=
  ⟨fun m' hm' => h.ne_zero m' (mem_cons_of_mem m hm'), (nodup_cons.mp h.nodup).2⟩

theorem Triangular.index_unique (h : Triangular masks) {i j : Nat} {m' : BitVec w}
    (hi : masks[i]? = some m) (hj : masks[j]? = some m') (hp : m.ctz.toNat = m'.ctz.toNat) :
    i = j := by
  obtain ⟨hilt, rfl⟩ := List.getElem?_eq_some_iff.mp hi
  obtain ⟨hjlt, rfl⟩ := List.getElem?_eq_some_iff.mp hj
  have hlen : (pivots masks).length = masks.length := length_map _
  have hsa : (pivots masks)[i] = (pivots masks)[j] := by simpa [pivots] using hp
  exact h.nodup.getElem_inj_iff.mp hsa

/-- **The bits at the pivots are determined by the others**, from the highest down. -/
theorem Solves.unique (h : Triangular masks) (hx : Solves masks t x) (hy : Solves masks t y)
    (hxy : ∀ p < w, p ∉ pivots masks → x.getLsbD p = y.getLsbD p) : x = y := by
  have hal : ∀ n p, w ≤ p + n → x.getLsbD p = y.getLsbD p := by
    intro n
    induction n with
    | zero => exact fun p hp => (getLsbD_of_ge x p hp).trans (getLsbD_of_ge y p hp).symm
    | succ n ih =>
      intro p hp
      by_cases hpw : p < w
      · by_cases hme : p ∈ pivots masks
        · obtain ⟨m, hm, rfl⟩ := mem_map.mp hme
          obtain ⟨j, hj⟩ := mem_iff_getElem?.mp hm
          have hpa : (parity (x &&& m) ^^ parity (y &&& m)) = false := by
            rw [hx hj, hy hj, Bool.xor_self]
          rw [parity_and_single hpw (getLsbD_true_ctz_of_ne_zero (h.ne_zero m hm))
            fun i _ hne hmi => ?_] at hpa
          · exact bne_eq_false_iff_eq.mp hpa
          · -- the other bits of the mask are above the pivot
            refine ih i ?_
            have hge : ¬ i < m.ctz.toNat := fun hlt => by
              rw [getLsbD_false_of_lt_ctz hlt] at hmi
              cases hmi
            omega
        · exact hxy p hpw hme
      · rw [getLsbD_of_ge _ _ (by omega), getLsbD_of_ge _ _ (by omega)]
  exact eq_of_getLsbD_eq fun i _ => hal w i (by omega)

theorem exists_flip (hp : p < w) (hm : m.getLsbD p = true) (b : Bool) (x : BitVec w) :
    ∃ y, parity (y &&& m) = b ∧ ∀ i, i ≠ p → y.getLsbD i = x.getLsbD i := by
  by_cases hb : parity (x &&& m) = b
  · exact ⟨x, hb, fun _ _ => rfl⟩
  · have hbi : ∀ i, (x ^^^ twoPow w p).getLsbD i = (x.getLsbD i ^^ decide (p = i)) :=
      fun i => by rw [getLsbD_xor, getLsbD_twoPow, decide_eq_true hp, Bool.true_and]
    have hof : ∀ i, i ≠ p → (x ^^^ twoPow w p).getLsbD i = x.getLsbD i := fun i hi => by
      rw [hbi, decide_eq_false (hi.symm), Bool.xor_false]
    have hfl := parity_and_single hp hm fun i _ hi _ => hof i hi
    rw [hbi] at hfl
    refine ⟨x ^^^ twoPow w p, ?_, hof⟩
    have hn : parity ((x ^^^ twoPow w p) &&& m) ≠ parity (x &&& m) := fun heq => by
      rw [heq] at hfl
      simp at hfl
    rw [Bool.eq_not.mpr hn, Bool.eq_not.mpr hb, Bool.not_not]

/-- **Every choice of the bits off the pivots has a solution.** -/
theorem exists_solves (h : Triangular masks) (t : Nat → Bool) (x : BitVec w) :
    ∃ y, Solves masks t y ∧ ∀ p < w, p ∉ pivots masks → y.getLsbD p = x.getLsbD p := by
  -- by induction on the number of positions for which the equations are solved, from the top
  have hal : ∀ n, ∃ y : BitVec w, (∀ j (m : BitVec w), masks[j]? = some m →
      w ≤ m.ctz.toNat + n → parity (y &&& m) = t j) ∧
      ∀ p < w, p ∉ pivots masks → y.getLsbD p = x.getLsbD p := by
    intro n
    induction n with
    | zero =>
      refine ⟨x, fun j m hj hg => ?_, fun _ _ _ => rfl⟩
      have := ctz_lt (h.ne_zero m (mem_of_getElem? hj))
      omega
    | succ n ih =>
      obtain ⟨y, hy, ho⟩ := ih
      by_cases hex : ∃ (j : Nat) (m : BitVec w), masks[j]? = some m ∧ w = m.ctz.toNat + (n + 1)
      · obtain ⟨j, m, hj, hpiv⟩ := hex
        have hn := h.ne_zero m (mem_of_getElem? hj)
        obtain ⟨y', hy', ho'⟩ := exists_flip (ctz_lt hn) (getLsbD_true_ctz_of_ne_zero hn) (t j) y
        refine ⟨y', fun j' m' hj' hg => ?_, fun p hp hme => ?_⟩
        · by_cases hjj : j' = j
          · subst hjj
            obtain rfl : m' = m := Option.some.inj (hj'.symm.trans hj)
            exact hy'
          · -- the equations with high pivots do not have this bit
            have hn' : m'.ctz.toNat ≠ m.ctz.toNat := fun hp => hjj (h.index_unique hj' hj hp)
            rw [← hy j' m' hj' (by omega)]
            refine parity_and_congr fun i _ hm => ho' i fun hi => ?_
            rw [getLsbD_false_of_lt_ctz (by omega)] at hm
            cases hm
        · rw [ho' p fun hp' => hme (mem_map.mpr ⟨m, mem_of_getElem? hj, hp'.symm⟩)]
          exact ho p hp hme
      · refine ⟨y, fun j m hj hg => hy j m hj ?_, ho⟩
        by_contra hlt
        exact hex ⟨j, m, hj, by omega⟩
  obtain ⟨y, hy, ho⟩ := hal w
  exact ⟨y, fun {j m} hj => hy j m hj (by omega), ho⟩

end Gem5.Lib
