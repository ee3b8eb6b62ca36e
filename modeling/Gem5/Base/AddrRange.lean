import Gem5.Base.Bitfield
import Gem5.Lib.BitGaps
import Gem5.Lib.ParitySystem

/-!
# Gem5.Base.AddrRange

**Address ranges** (`src/base/addr_range.hh`). A range is interleaved when it has masks: each mask
gives one bit of a selector, the parity of the bits of the address under it, and the addresses whose
selector is the match value are in the range.

The lowest bit of each mask is redundant for the addresses of the range. `removeIntlvBits` drops these
bits and `addIntlvBits` puts them back. The selector is computed in an `int`, and so is the mask that
`addIntlvBits` clears the lowest bit with; a shift of these by 32 or more is undefined in the source.
-/

namespace Gem5.Base

open Gem5.Lib BitVec List Nat

/-! ### The class -/

/-- `AddrRange`, with the check of its constructors. -/
structure AddrRange where
  start : Addr
  endAddr : Addr
  masks : List Addr := []
  intlvMatch : BitVec 8 := 0
  fits : masks ≠ [] → intlvMatch.toNat < 2 ^ masks.length := by decide
  deriving DecidableEq

/-- What a function of a range can end with instead of a result: a panic, with the ranges it names, or
a shift that is undefined. -/
inductive RangeFault
  | cannotTestIntersection (r s : AddrRange)
  | cannotTestSubset (r : AddrRange)
  | undefinedShift
  deriving DecidableEq

namespace AddrRange

def interleaved (r : AddrRange) : Bool :=
  decide (0 < r.masks.length)

def size (r : AddrRange) : Addr :=
  (r.endAddr - r.start) >>> r.masks.length

def valid (r : AddrRange) : Bool :=
  decide (r.start ≤ r.endAddr)

def inBounds (r : AddrRange) (a : Addr) : Bool :=
  decide (a ≥ r.start ∧ a < r.endAddr)

/-- The loop of `contains` that computes the selector. -/
def selLoop (a : Addr) : Nat → List Addr → BitVec 32 → BitVec 32
  | _, [], sel => sel
  | i, mask :: masks, sel =>
    selLoop a (i + 1) masks (sel ||| (BitVec.ofNat 32 (popCount (a &&& mask) % 2) <<< i))

def sel (r : AddrRange) (a : Addr) : BitVec 32 :=
  selLoop a 0 r.masks 0

def matchesSel (r : AddrRange) (a : Addr) : Bool :=
  r.sel a == r.intlvMatch.setWidth 32

def contains (r : AddrRange) (a : Addr) : Bool :=
  if r.inBounds a then r.matchesSel a else false

def masksLsb (r : AddrRange) : List Nat :=
  (r.masks.map ctz64).insertionSort (· ≤ ·)

def removeLoop : Nat → List Nat → Addr → Addr
  | _, [], a => a
  | i, intlvBit :: lsbs, a =>
    removeLoop (i + 1) lsbs
      (if intlvBit > 0 then
        insertBits (a >>> 1) ((intlvBit + 2 ^ 32 - i - 1) % 2 ^ 32) 0 a
      else a >>> 1)

def removeIntlvBits (r : AddrRange) (a : Addr) : Addr :=
  if r.interleaved then removeLoop 0 r.masksLsb a else a

/-- The loop of `addIntlvBits` that makes room for the bits. -/
def openLoop : List Nat → Addr → Addr
  | [], a => a
  | intlvBit :: lsbs, a =>
    openLoop lsbs (if intlvBit > 0 then insertBits (a <<< 1) (intlvBit - 1) 0 a else a <<< 1)

/-- The complement of `1 << lsb`, an `int`, as a mask for an address. -/
def notBit (lsb : Nat) : Addr :=
  (~~~ (1#32 <<< lsb)).signExtend 64

/-- The loop of `addIntlvBits` that sets the lowest bit of each mask. -/
def matchLoop (intlvMatch : BitVec 8) : Nat → List Addr → Addr → Except RangeFault Addr
  | _, [], a => .ok a
  | i, mask :: masks, a =>
    let lsb := ctz64 mask
    if 32 ≤ lsb ∨ 32 ≤ i then .error .undefinedShift
    else
      let intlvBit : Addr := bit (intlvMatch.setWidth 64) i
      let masked := a &&& mask &&& notBit lsb
      matchLoop intlvMatch (i + 1) masks
        (insertBit a lsb (intlvBit ^^^ BitVec.ofNat 64 (popCount masked)))

def addIntlvBits (r : AddrRange) (a : Addr) : Except RangeFault Addr :=
  if r.interleaved then matchLoop r.intlvMatch 0 r.masks (openLoop r.masksLsb a) else .ok a

def maxAddr : Addr := BitVec.allOnes 64

def getOffset (r : AddrRange) (a : Addr) : Addr :=
  if !r.inBounds a then maxAddr
  else if r.interleaved then r.removeIntlvBits a - r.removeIntlvBits r.start
  else a - r.start

/-- The masks of a range combined in an `int`, by `granularity`. -/
def combinedMask (r : AddrRange) : BitVec 32 :=
  r.masks.foldl (fun combined mask => combined ||| mask.setWidth 32) 0

def granularity (r : AddrRange) : Except RangeFault Addr :=
  if r.interleaved then
    let lowestBit := ctz64 (r.combinedMask.signExtend 64)
    if 64 ≤ lowestBit then .error .undefinedShift else .ok (1#64 <<< lowestBit)
  else .ok r.size

def mergesWith (r s : AddrRange) : Bool :=
  decide (s.start = r.start ∧ s.endAddr = r.endAddr ∧ s.masks = r.masks)

def intersects (r s : AddrRange) : Except RangeFault Bool :=
  if r.start ≥ s.endAddr ∨ r.endAddr ≤ s.start then .ok false
  else if !r.interleaved && !s.interleaved then .ok true
  else if s.size = 1 then .ok (r.contains s.start)
  else if r.mergesWith s then .ok (r.intlvMatch == s.intlvMatch)
  else .error (.cannotTestIntersection r s)

def isSubset (r s : AddrRange) : Except RangeFault Bool :=
  if r.interleaved then .error (.cannotTestSubset r)
  else if s.interleaved then
    if s.contains r.start && s.contains (r.endAddr - 1) then do
      let granularity ← s.granularity
      .ok (decide (r.size ≤ granularity))
    else .ok false
  else .ok (decide (r.start ≥ s.start ∧ r.endAddr ≤ s.endAddr))

/-- `operator<` -/
def lt (r s : AddrRange) : Bool :=
  if r.start ≠ s.start then decide (r.start < s.start)
  else if r.interleaved && s.interleaved then decide (r.intlvMatch < s.intlvMatch)
  else r.interleaved

def rangeSize (start size : Addr) : AddrRange :=
  { start := start, endAddr := start + size }

/-! ### Removing and making room for bits -/

theorem getLsbD_remove {l i : Nat} (hi : i ≤ l) (hl : l < 64) (a : Addr) (k : Nat) :
    (if l > 0 then insertBits (a >>> 1) ((l + 2 ^ 32 - i - 1) % 2 ^ 32) 0 a
      else a >>> 1).getLsbD k = if k < l - i then a.getLsbD k else a.getLsbD (k + 1) := by
  by_cases hk : k < 64
  · by_cases hp : l > 0
    · -- the position after the last one is `l - i`, also when there is none
      have hfs : ((l + 2 ^ 32 - i - 1) % 2 ^ 32 + 1) % 2 ^ 32 = l - i := by omega
      rw [if_pos hp, getLsbD_insertBits _ _ _ _ hk, hfs, getLsbD_ushiftRight,
        Nat.sub_zero, add_comm 1 k]
      simp only [zero_le, true_and]
    · rw [if_neg hp, if_neg (by omega), getLsbD_ushiftRight, add_comm]
  · rw [getLsbD_of_ge _ k (by omega), getLsbD_of_ge _ (k + 1) (by omega)]
    split
    · exact (getLsbD_of_ge _ k (by omega)).symm
    · rfl

theorem getLsbD_open {l : Nat} (hl : l < 64) (a : Addr) {k : Nat} (hk : k < 64) :
    (if l > 0 then insertBits (a <<< 1) (l - 1) 0 a else a <<< 1).getLsbD k =
      if k < l then a.getLsbD k else (decide (0 < k) && a.getLsbD (k - 1)) := by
  have hsh : (a <<< 1).getLsbD k = (decide (0 < k) && a.getLsbD (k - 1)) := by
    grind
  by_cases hp : l > 0
  · have hfs : (l - 1 + 1) % 2 ^ 32 = l := by omega
    rw [if_pos hp, getLsbD_insertBits _ _ _ _ hk, hfs, hsh, Nat.sub_zero]
    simp only [zero_le, true_and]
  · rw [if_neg hp, hsh, if_neg (by omega)]

theorem squeezed_removeLoop {x : Addr} : ∀ {lsbs done : List Nat} {a : Addr}, done.Nodup →
    lsbs.Pairwise (· < ·) → (∀ l ∈ lsbs, l < 64 ∧ ∀ d ∈ done, d < l) → Squeezed done x a →
    Squeezed (lsbs.reverse ++ done) x (removeLoop done.length lsbs a) := by
  intro lsbs
  induction lsbs with
  | nil => intro done a _ _ _ h; exact h
  | cons l lsbs ih =>
    intro done a hnd hs hlt h
    obtain ⟨hl64, hl⟩ := hlt l mem_cons_self
    rw [pairwise_cons] at hs
    have hcnt := rank_add_length hnd hl
    have hnx := h.cons hnd hl (getLsbD_remove (by omega) hl64 a)
    rw [reverse_cons, List.append_assoc]
    refine @ih (l :: done) _ (nodup_cons.mpr ⟨fun hd => lt_irrefl l (hl l hd), hnd⟩)
      hs.2 (fun l' hl' => ⟨(hlt l' (mem_cons_of_mem l hl')).1, fun d hd => ?_⟩) hnx
    obtain rfl | hd := mem_cons.mp hd
    · exact hs.1 l' hl'
    · exact (hlt l' (mem_cons_of_mem l hl')).2 d hd

theorem opened_openLoop {y : Addr} : ∀ {lsbs done : List Nat} {a : Addr},
    lsbs.Pairwise (· < ·) → (∀ l ∈ lsbs, l < 64 ∧ ∀ d ∈ done, d < l) → Opened done y a →
    Opened (lsbs.reverse ++ done) y (openLoop lsbs a) := by
  intro lsbs
  induction lsbs with
  | nil => intro done a _ _ h; exact h
  | cons l lsbs ih =>
    intro done a hs hlt h
    obtain ⟨hl64, hl⟩ := hlt l mem_cons_self
    rw [pairwise_cons] at hs
    have hnx := h.cons hl hl64 fun k hk => getLsbD_open hl64 a hk
    rw [reverse_cons, List.append_assoc]
    refine @ih (l :: done) _ hs.2
      (fun l' hl' => ⟨(hlt l' (mem_cons_of_mem l hl')).1, fun d hd => ?_⟩) hnx
    obtain rfl | hd := mem_cons.mp hd
    · exact hs.1 l' hl'
    · exact (hlt l' (mem_cons_of_mem l hl')).2 d hd

variable {r : AddrRange}

theorem mem_masksLsb (p : Nat) : p ∈ r.masksLsb ↔ p ∈ pivots r.masks :=
  (perm_insertionSort _ _).mem_iff

section

variable (h : Triangular r.masks)

include h

theorem sorted_masksLsb : r.masksLsb.Pairwise (· < ·) := by
  have hnd : r.masksLsb.Nodup := (perm_insertionSort _ _).nodup_iff.mpr h.nodup
  have hso : r.masksLsb.Pairwise (· ≤ ·) := pairwise_insertionSort _ _
  exact (hso.and hnd).imp fun h => lt_of_le_of_ne h.1 h.2

/-- **The bits at the lowest bits of the masks are removed.** -/
theorem squeezed_removeIntlvBits (a : Addr) :
    Squeezed (pivots r.masks) a (r.removeIntlvBits a) := by
  unfold removeIntlvBits
  split
  next =>
    have hlo := squeezed_removeLoop nodup_nil (sorted_masksLsb h)
      (fun l hl => ⟨h.pivots_lt l ((mem_masksLsb l).mp hl), fun _ hd => absurd hd not_mem_nil⟩)
      (Squeezed.nil a)
    exact hlo.congr fun p => by simp [mem_masksLsb]
  next hn =>
    have hni : r.masks = [] := by simpa [interleaved] using hn
    rw [hni]
    exact Squeezed.nil a

/-- **There is room for the lowest bits of the masks.** -/
theorem opened_openLoop_masksLsb (b : Addr) :
    Opened (pivots r.masks) b (openLoop r.masksLsb b) := by
  have hlo := opened_openLoop (sorted_masksLsb h)
    (fun l hl => ⟨h.pivots_lt l ((mem_masksLsb l).mp hl), fun _ hd => absurd hd not_mem_nil⟩)
    (Opened.nil b)
  exact hlo.congr fun p => by simp [mem_masksLsb]

theorem rank_pivots_add {p : Nat} (hp : 64 ≤ p) : rank (pivots r.masks) p + r.masks.length = p := by
  have hra := rank_add_length h.nodup fun d hd => lt_of_lt_of_le (h.pivots_lt d hd) hp
  rwa [pivots, length_map] at hra

theorem removeIntlvBits_lt (a : Addr) :
    (r.removeIntlvBits a).toNat < 2 ^ (64 - r.masks.length) := by
  refine lt_pow_two_of_testBit _ fun k hk => ?_
  obtain ⟨p, hp, rfl⟩ := exists_rank (pivots r.masks) k
  have htop := rank_pivots_add h (le_refl 64)
  have hp64 : 64 ≤ p := by
    by_contra hlt
    have := rank_lt hp (Nat.lt_of_not_le hlt)
    omega
  exact (squeezed_removeIntlvBits h a p hp).trans (getLsbD_of_ge a p hp64)

theorem removeIntlvBits_eq {a b : Addr} (hb : b.toNat < 2 ^ (64 - r.masks.length))
    (hab : ∀ p < 64, p ∉ pivots r.masks → a.getLsbD p = b.getLsbD (rank (pivots r.masks) p)) :
    r.removeIntlvBits a = b := by
  refine (squeezed_removeIntlvBits h a).unique fun p hp => ?_
  by_cases hp64 : p < 64
  · exact (hab p hp64 hp).symm
  · have hran := rank_pivots_add h (Nat.le_of_not_lt hp64)
    have hlt := hb.trans_le (Nat.pow_le_pow_right (by decide)
      (show 64 - r.masks.length ≤ rank (pivots r.masks) p by omega))
    rw [getLsbD_of_ge a p (by omega), getLsbD, testBit_lt_two_pow hlt]

/-- **Every word without the top bits is left of an address that solves the equations.** -/
theorem exists_removeIntlvBits_eq (t : Nat → Bool) {b : Addr}
    (hb : b.toNat < 2 ^ (64 - r.masks.length)) :
    ∃ a, Solves r.masks t a ∧ r.removeIntlvBits a = b := by
  obtain ⟨a, hso, hof⟩ := exists_solves h t (openLoop r.masksLsb b)
  refine ⟨a, hso, removeIntlvBits_eq h hb fun p hp64 hp => ?_⟩
  rw [hof p hp64 hp, (opened_openLoop_masksLsb h b).kept p hp64 hp]

/-- **Of the addresses that solve the equations, only one is left as a given word.** -/
theorem eq_of_removeIntlvBits_eq {t : Nat → Bool} {a a' : Addr} (ha : Solves r.masks t a)
    (ha' : Solves r.masks t a') (heq : r.removeIntlvBits a = r.removeIntlvBits a') : a = a' := by
  refine ha.unique h ha' fun p _ hp => ?_
  rw [← squeezed_removeIntlvBits h a p hp, heq, squeezed_removeIntlvBits h a' p hp]

end

/-! ### Containment -/

theorem popCount_mod_two (a : Addr) : popCount a % 2 = (parity a).toNat :=
  cpop_mod_two a

theorem getLsbD_ofNat_toNat (w : Nat) (b : Bool) (k : Nat) (hw : 0 < w) :
    (BitVec.ofNat w b.toNat).getLsbD k = (decide (k = 0) && b) := by
  cases b with
  | false => simp
  | true =>
    cases k with
    | zero => simp [hw]
    | succ k => simp

theorem getLsbD_selLoop (a : Addr) {j : Nat} (hj : j < 32) : ∀ (masks : List Addr) (i : Nat)
    (s : BitVec 32), (selLoop a i masks s).getLsbD j = (s.getLsbD j || (decide (i ≤ j) &&
      (masks[j - i]?).elim false fun m => parity (a &&& m))) := by
  intro masks
  induction masks with
  | nil => intro i s; simp [selLoop]
  | cons m masks ih =>
    intro i s
    rw [selLoop, ih, getLsbD_or, getLsbD_shiftLeft, popCount_mod_two,
      getLsbD_ofNat_toNat _ _ _ (by decide), Bool.or_assoc, decide_eq_true hj]
    congr 1
    obtain hlt | rfl | hgt := Nat.lt_trichotomy j i
    · simp [hlt, not_le.mpr (lt_succ_of_lt hlt)]
    · simp
    · obtain ⟨k, rfl⟩ := Nat.exists_eq_add_of_lt hgt
      have hid' : i + k + 1 - i = k + 1 := by omega
      rw [hid']
      simp
      omega

theorem getLsbD_sel (r : AddrRange) (a : Addr) {j : Nat} (hj : j < 32) :
    (r.sel a).getLsbD j = (r.masks[j]?).elim false fun m => parity (a &&& m) := by
  rw [sel, getLsbD_selLoop a hj]
  simp

theorem matchesSel_iff_getLsbD (r : AddrRange) (a : Addr) :
    r.matchesSel a ↔ ∀ j < 32, (r.sel a).getLsbD j = r.intlvMatch.getLsbD j := by
  rw [matchesSel, beq_iff_eq]
  refine ⟨fun h j hj => ?_, fun h => eq_of_getLsbD_eq fun j hj => ?_⟩
  · rw [h, getLsbD_setWidth, decide_eq_true hj, Bool.true_and]
  · rw [h j hj, getLsbD_setWidth, decide_eq_true hj, Bool.true_and]

theorem matchesSel_of_solves (hms : r.masks ≠ []) {a : Addr}
    (h : Solves r.masks r.intlvMatch.getLsbD a) : r.matchesSel a := by
  refine (matchesSel_iff_getLsbD r a).mpr fun j hj => ?_
  rw [getLsbD_sel r a hj]
  cases hm : r.masks[j]? with
  | some m =>
    rw [Option.elim_some]
    exact h hm
  | none =>
    -- a match value has no bits beyond those of the selector
    have hg := getElem?_eq_none_iff.mp hm
    have hlt : r.intlvMatch.toNat < 2 ^ j :=
      lt_of_lt_of_le (r.fits hms) (Nat.pow_le_pow_right (by decide) hg)
    rw [Option.elim_none, getLsbD, testBit_lt_two_pow hlt]

/-- **An address matches when it solves the parity equations**, for as many masks as the selector has
bits. -/
theorem matchesSel_iff (hms : r.masks ≠ []) (hlen : r.masks.length ≤ 32) (a : Addr) :
    r.matchesSel a ↔ Solves r.masks r.intlvMatch.getLsbD a := by
  refine ⟨fun h {j m} hm => ?_, matchesSel_of_solves hms⟩
  have hj := (List.getElem?_eq_some_iff.mp hm).1
  have := (matchesSel_iff_getLsbD r a).mp h j (by omega)
  rwa [getLsbD_sel r a (by omega), hm, Option.elim_some] at this

end AddrRange

end Gem5.Base
