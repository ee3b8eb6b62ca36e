import Gem5.Base.AddrRange

/-!
# Gem5.Base.AddrRangeOrder

**How two ranges lie to each other.** Ranges are `Apart` when their bounds are disjoint or they are
different stripes of the same bounds; then they have no address in common. The order that the map of
ranges is kept in (`AddrRange.lt`) is refined by `Before`, in which each range is apart from the next.

The test `intersects` decides this, except for a range of size 1, which is tested by its first address
(`NoUnit`).
-/

namespace Gem5.Base

open Gem5.Lib BitVec List Except

namespace AddrRange

variable {r e f q : AddrRange}

/-! ### The order of ranges -/

theorem mergesWith_iff : r.mergesWith e ↔
    r.start = e.start ∧ r.endAddr = e.endAddr ∧ r.masks = e.masks := by
  rw [mergesWith, decide_eq_true_eq]
  exact ⟨fun ⟨hs, he, hm⟩ => ⟨hs.symm, he.symm, hm.symm⟩,
    fun ⟨hs, he, hm⟩ => ⟨hs.symm, he.symm, hm.symm⟩⟩

theorem interleaved_congr (h : r.masks = e.masks) : r.interleaved = e.interleaved := by
  rw [interleaved, interleaved, h]

theorem lt_iff : r.lt e ↔ r.start < e.start ∨ r.start = e.start ∧ r.interleaved ∧
    (e.interleaved → r.intlvMatch < e.intlvMatch) := by
  unfold lt
  by_cases hst : r.start = e.start
  · cases hr : r.interleaved <;> cases he : e.interleaved <;> simp [hst]
  · simp [hst]

theorem start_le_of_lt (h : r.lt e) : r.start ≤ e.start := by
  obtain h | ⟨h, -⟩ := lt_iff.mp h
  · bv_omega
  · bv_omega

theorem start_le_of_not_lt (h : ¬ r.lt e) : e.start ≤ r.start := by
  rw [lt_iff] at h
  bv_omega

def BoundsApart (r e : AddrRange) : Prop :=
  r.start ≥ e.endAddr ∨ r.endAddr ≤ e.start

def OtherStripe (r e : AddrRange) : Prop :=
  r.mergesWith e ∧ r.interleaved ∧ r.intlvMatch ≠ e.intlvMatch

/-- The bounds are disjoint, or the ranges are different stripes. -/
def Apart (r e : AddrRange) : Prop :=
  r.BoundsApart e ∨ r.OtherStripe e

/-- The order of the entries in the tree: one range ends before the other starts, or they are stripes
in the order of their match values. -/
def Before (e f : AddrRange) : Prop :=
  e.endAddr ≤ f.start ∨ e.mergesWith f ∧ e.interleaved ∧ e.intlvMatch < f.intlvMatch

theorem OtherStripe.lt_iff (h : r.OtherStripe e) : r.lt e ↔ r.intlvMatch < e.intlvMatch := by
  obtain ⟨hm, hi, -⟩ := h
  obtain ⟨hst, -, hms⟩ := mergesWith_iff.mp hm
  rw [AddrRange.lt_iff]
  refine ⟨fun h => ?_, fun h => .inr ⟨hst, hi, fun _ => h⟩⟩
  obtain h | ⟨-, -, h⟩ := h
  · bv_omega
  · exact h (by rwa [← interleaved_congr hms])

theorem mergesWith_trans (h : r.mergesWith e) (h' : e.mergesWith f) : r.mergesWith f := by
  rw [mergesWith_iff] at *
  exact ⟨h.1.trans h'.1, h.2.1.trans h'.2.1, h.2.2.trans h'.2.2⟩

theorem mergesWith_symm (h : r.mergesWith e) : e.mergesWith r := by
  rw [mergesWith_iff] at *
  exact ⟨h.1.symm, h.2.1.symm, h.2.2.symm⟩

theorem Before.start_le (h : e.Before f) (he : e.start < e.endAddr) : e.start ≤ f.start := by
  obtain hle | ⟨hm, -, -⟩ := h
  · bv_omega
  · exact BitVec.le_of_eq (mergesWith_iff.mp hm).1

theorem lt_of_lt_of_before (h : r.lt e) (hb : e.Before f) (he : e.start < e.endAddr) : r.lt f := by
  rw [lt_iff] at h ⊢
  obtain hle | ⟨hm, hi, hma⟩ := hb
  · left
    bv_omega
  · obtain ⟨hst, -, hmsk⟩ := mergesWith_iff.mp hm
    rw [← hst]
    obtain h | ⟨hs, hr, h⟩ := h
    · exact .inl h
    · exact .inr ⟨hs, hr, fun _ => BitVec.lt_trans (h hi) hma⟩

theorem Apart.of_next (h : r.Apart e) (hlt : r.lt e) (hb : e.Before f) (he : e.start < e.endAddr) :
    r.Apart f := by
  have hl := start_le_of_lt hlt
  obtain (hge | hend) | hot := h
  · bv_omega
  · exact .inl (.inr (by have := hb.start_le he; bv_omega))
  · have hma := hot.lt_iff.mp hlt
    obtain ⟨hm, hi, -⟩ := hot
    obtain hl' | ⟨hm', -, hma'⟩ := hb
    · have := (mergesWith_iff.mp hm).2.1
      exact .inl (.inr (by bv_omega))
    · exact .inr ⟨mergesWith_trans hm hm', hi, by bv_omega⟩

theorem Apart.of_prev (h : r.Apart f) (hnl : ¬ r.lt f) (hb : e.Before f) (hf : f.start < f.endAddr) :
    r.Apart e := by
  have hl := start_le_of_not_lt hnl
  obtain (hge | hend) | hot := h
  · refine .inl (.inl ?_)
    obtain hl' | ⟨hm', -, -⟩ := hb
    · bv_omega
    · have := (mergesWith_iff.mp hm').2.1
      bv_omega
  · obtain hl' | ⟨hm', -, -⟩ := hb
    · exact .inl (.inl (by bv_omega))
    · have := (mergesWith_iff.mp hm').1
      exact .inl (.inr (by bv_omega))
  · have hma := mt hot.lt_iff.mpr hnl
    obtain ⟨hm, hi, hne⟩ := hot
    obtain hl' | ⟨hm', -, hma'⟩ := hb
    · exact .inl (.inl (by bv_omega))
    · exact .inr ⟨mergesWith_trans hm (mergesWith_symm hm'), hi, by bv_omega⟩

theorem Apart.before_of_not_lt (h : r.Apart e) (hnl : ¬ r.lt e) (hr : r.start < r.endAddr) :
    e.Before r := by
  have hle := start_le_of_not_lt hnl
  obtain (hg | hend) | hot := h
  · exact .inl hg
  · bv_omega
  · have hmat := mt hot.lt_iff.mpr hnl
    obtain ⟨hm, hi, hne⟩ := hot
    refine .inr ⟨mergesWith_symm hm, ?_, by bv_omega⟩
    rwa [← interleaved_congr (mergesWith_iff.mp hm).2.2]

theorem Apart.before_of_lt (h : r.Apart e) (hlt : r.lt e) (he : e.start < e.endAddr) :
    r.Before e := by
  have hle := start_le_of_lt hlt
  obtain (hge | hen) | hot := h
  · bv_omega
  · exact .inl hen
  · exact .inr ⟨hot.1, hot.2.1, hot.lt_iff.mp hlt⟩

/-! ### Addresses -/

variable {a : Addr}

theorem contains_inBounds (h : r.contains a) : r.start ≤ a ∧ a < r.endAddr := by
  rw [contains] at h
  split at h
  next hin => exact of_decide_eq_true hin
  next => cases h

theorem sel_of_contains (h : r.contains a) : r.sel a = r.intlvMatch.setWidth 32 := by
  rw [contains] at h
  split at h
  next => exact eq_of_beq h
  next => cases h

theorem start_lt_of_contains (h : r.contains a) : r.start < r.endAddr := by
  have := contains_inBounds h
  bv_omega

/-- The ranges have an address in common. -/
def Meets (r e : AddrRange) : Prop :=
  ∃ a, r.contains a ∧ e.contains a

theorem Apart.not_meets (h : r.Apart e) : ¬ r.Meets e := by
  intro ⟨a, hr, he⟩
  obtain (hge | hend) | ⟨hm, -, hne⟩ := h
  · have := contains_inBounds hr
    have := contains_inBounds he
    bv_omega
  · have := contains_inBounds hr
    have := contains_inBounds he
    bv_omega
  · have hse : r.sel a = e.sel a := by rw [sel, sel, (mergesWith_iff.mp hm).2.2]
    rw [sel_of_contains hr, sel_of_contains he] at hse
    bv_omega

theorem Before.apart (h : e.Before f) : e.Apart f := by
  obtain hl | ⟨hm, hi, hlt⟩ := h
  · exact .inl (.inr hl)
  · exact .inr ⟨hm, hi, by bv_omega⟩

theorem contains_congr (hm : r.mergesWith e) (hma : r.intlvMatch = e.intlvMatch) (a : Addr) :
    r.contains a = e.contains a := by
  obtain ⟨hst, hen, hms⟩ := mergesWith_iff.mp hm
  rw [contains, contains, inBounds, inBounds, matchesSel, matchesSel, sel, sel, hst, hen, hms, hma]

theorem contains_of_plain (hpl : r.interleaved = false) (hn : ∃ a, r.contains a) (a : Addr) :
    r.contains a = r.inBounds a := by
  obtain ⟨b, hb⟩ := hn
  have hni : r.masks = [] := by simpa [interleaved] using hpl
  have hs : ∀ a, r.sel a = 0 := fun a => by rw [sel, hni, selLoop]
  rw [contains, matchesSel, ← sel_of_contains hb, hs, hs]
  cases r.inBounds a <;> rfl

/-! ### The tests -/

def NoUnit (r e : AddrRange) : Prop :=
  e.size = 1 → r.interleaved ∨ e.interleaved → r.BoundsApart e

section

variable (hu : r.NoUnit e)
include hu

/-- **The test for an intersection**, when ranges of size 1 do not matter. -/
theorem intersects_cases :
    (r.BoundsApart e ∧ r.intersects e = .ok false) ∨
    (¬ r.BoundsApart e ∧ r.interleaved = false ∧ e.interleaved = false ∧
      r.intersects e = .ok true) ∨
    (¬ r.BoundsApart e ∧ (r.interleaved ∨ e.interleaved) ∧ r.mergesWith e ∧
      r.intersects e = .ok (r.intlvMatch == e.intlvMatch)) ∨
    (¬ r.BoundsApart e ∧ (r.interleaved ∨ e.interleaved) ∧ ¬ r.mergesWith e ∧
      r.intersects e = .error (.cannotTestIntersection r e)) := by
  unfold intersects
  by_cases hb : r.BoundsApart e
  · exact .inl ⟨hb, if_pos hb⟩
  · refine .inr ?_
    have hno : ¬ (r.start ≥ e.endAddr ∨ r.endAddr ≤ e.start) := hb
    rw [if_neg hno]
    by_cases hp : r.interleaved = false ∧ e.interleaved = false
    · exact .inl ⟨hb, hp.1, hp.2, if_pos (by simp [hp])⟩
    · have hi : r.interleaved ∨ e.interleaved := by
        cases hr : r.interleaved <;> cases he : e.interleaved <;> simp_all
      have hsz : e.size ≠ 1 := fun hsz => hb (hu hsz hi)
      rw [if_neg (by simpa using hp), if_neg hsz]
      by_cases hm : r.mergesWith e
      · exact .inr (.inl ⟨hb, hi, hm, if_pos hm⟩)
      · exact .inr (.inr ⟨hb, hi, hm, if_neg hm⟩)

theorem apart_of_intersects (h : r.intersects e = .ok false) : r.Apart e := by
  obtain ⟨hb, -⟩ | ⟨-, -, -, ht⟩ | ⟨-, hi, hm, ht⟩ | ⟨-, -, -, ht⟩ := intersects_cases hu
  · exact .inl hb
  · rw [ht] at h
    cases h
  · rw [ht] at h
    have hr : r.interleaved := by
      rw [← interleaved_congr (mergesWith_iff.mp hm).2.2] at hi
      exact hi.elim id id
    exact .inr ⟨hm, hr, fun heq => by simp [heq] at h⟩
  · rw [ht] at h
    cases h

theorem not_apart_of_intersects (h : r.intersects e = .ok true) : ¬ r.Apart e := by
  intro hap
  obtain ⟨-, ht⟩ | ⟨hb, hr, -, ht⟩ | ⟨hb, -, hm, ht⟩ | ⟨-, -, -, ht⟩ := intersects_cases hu
  · rw [ht] at h
    cases h
  · obtain hba | ⟨-, hi, -⟩ := hap
    · exact hb hba
    · rw [hr] at hi
      cases hi
  · obtain hba | ⟨-, -, hn⟩ := hap
    · exact hb hba
    · rw [ht] at h
      exact hn (by simpa using h)
  · rw [ht] at h
    cases h

/-- **Ranges that the test finds to intersect meet.** -/
theorem meets_of_intersects (hr : ∃ a, r.contains a) (he : ∃ a, e.contains a)
    (h : r.intersects e = .ok true) : r.Meets e := by
  obtain ⟨-, ht⟩ | ⟨hb, hrp, hep, -⟩ | ⟨-, -, hm, ht⟩ | ⟨-, -, -, ht⟩ := intersects_cases hu
  · rw [ht] at h
    cases h
  · -- the larger of the starts is in both
    obtain ⟨a, ha⟩ := hr
    obtain ⟨b, hb'⟩ := he
    have hrlt := start_lt_of_contains ha
    have helt := start_lt_of_contains hb'
    have hnot : ¬ (r.start ≥ e.endAddr ∨ r.endAddr ≤ e.start) := hb
    refine ⟨if r.start ≤ e.start then e.start else r.start, ?_, ?_⟩
    · rw [contains_of_plain hrp ⟨a, ha⟩, inBounds, decide_eq_true_eq]
      split <;> bv_omega
    · rw [contains_of_plain hep ⟨b, hb'⟩, inBounds, decide_eq_true_eq]
      split <;> bv_omega
  · rw [ht] at h
    obtain ⟨a, ha⟩ := hr
    exact ⟨a, ha, (contains_congr hm (by simpa using h) a).symm.trans ha⟩
  · rw [ht] at h
    cases h

end

def HasGranularity (r : AddrRange) : Prop :=
  r.interleaved → r.combinedMask ≠ 0

theorem toNat_one_shiftLeft {k : Nat} (hk : k < 64) : (1#64 <<< k).toNat = 2 ^ k := by
  rw [toNat_shiftLeft, Nat.shiftLeft_eq, toNat_ofNat, Nat.one_mul]
  exact Nat.mod_eq_of_lt (Nat.pow_lt_pow_right (by decide) hk)

theorem granularity_ge (hg : r.HasGranularity) (hi : r.interleaved) :
    ∃ g, r.granularity = .ok g ∧ 1 ≤ g := by
  have hn : r.combinedMask.signExtend 64 ≠ 0#64 := fun hz => hg hi (by
    refine eq_of_getLsbD_eq fun j hj => ?_
    have hb := congrArg (getLsbD · j) hz
    simp only [getLsbD_signExtend, getLsbD_zero] at hb
    rw [if_pos hj, decide_eq_true (by omega)] at hb
    exact hb.trans getLsbD_zero.symm)
  have hlt := ctz64_lt hn
  refine ⟨1#64 <<< ctz64 (r.combinedMask.signExtend 64), ?_, ?_⟩
  · rw [granularity, if_pos hi]
    exact if_neg (by omega)
  · rw [le_def, toNat_one_shiftLeft hlt]
    exact Nat.two_pow_pos _

/-- **The test for a single address** is containment. -/
theorem isSubset_rangeSize (ha : a ≠ maxAddr) (hn : ∃ b, e.contains b)
    (hg : e.HasGranularity) : (rangeSize a 1).isSubset e = .ok (e.contains a) := by
  have hsz : (rangeSize a 1).size = 1 := by
    simp only [size, rangeSize, length_nil]
    bv_omega
  have hl : (rangeSize a 1).endAddr - 1 = a := by
    simp only [rangeSize]
    bv_omega
  rw [isSubset, hl]
  by_cases hi : e.interleaved
  · obtain ⟨g, hgr, hge⟩ := granularity_ge hg hi
    rw [if_pos hi]
    change (if e.contains a && e.contains a then _ else _) = _
    rw [hgr, hsz]
    cases e.contains a with
    | true => exact congrArg ok (decide_eq_true hge)
    | false => rfl
  · have hpl : e.interleaved = false := by simpa using hi
    rw [if_neg hi, contains_of_plain hpl hn]
    refine congrArg ok (decide_eq_decide.mpr ?_)
    have hmax : a.toNat ≠ 2 ^ 64 - 1 := fun h => ha (eq_of_toNat_eq h)
    simp only [rangeSize]
    bv_omega

/-! ### Ranges within a stripe -/

theorem sel_congr {b : Addr} {k : Nat} (hms : ∀ m ∈ r.masks, ∀ i < k, m.getLsbD i = false)
    (h : a.toNat / 2 ^ k = b.toNat / 2 ^ k) : r.sel a = r.sel b := by
  refine eq_of_getLsbD_eq fun j hj => ?_
  rw [getLsbD_sel r a hj, getLsbD_sel r b hj]
  cases hm : r.masks[j]? with
  | none => rw [Option.elim_none, Option.elim_none]
  | some m =>
    rw [Option.elim_some, Option.elim_some]
    refine parity_and_congr fun i _ hb => ?_
    have hi : k ≤ i := by
      by_contra hlt
      rw [hms m (mem_of_getElem? hm) i (by omega)] at hb
      cases hb
    have hd := congrArg (Nat.testBit · (i - k)) h
    simp only [Nat.testBit_div_two_pow, Nat.sub_add_cancel hi] at hd
    exact hd

theorem getLsbD_foldl_or {i : Nat} (hi : i < 32) (masks : List Addr) (c : BitVec 32) :
    (masks.foldl (fun combined mask => combined ||| mask.setWidth 32) c).getLsbD i =
      (c.getLsbD i || masks.any (·.getLsbD i)) := by
  induction masks generalizing c with
  | nil => simp
  | cons m masks ih =>
    rw [foldl_cons, ih, getLsbD_or, getLsbD_setWidth, decide_eq_true hi, Bool.true_and,
      any_cons, Bool.or_assoc]

/-- **The granularity is the size of a stripe**: no mask has a bit below it. -/
theorem granularity_spec (hi : r.interleaved) {g : Addr} (hg : r.granularity = .ok g) :
    ∃ k, g.toNat = 2 ^ k ∧ ∀ m ∈ r.masks, ∀ i < k, m.getLsbD i = false := by
  rw [granularity, if_pos hi] at hg
  dsimp only at hg
  split at hg
  · cases hg
  rename_i hk
  obtain rfl := ok.inj hg
  have hb : ∀ j < 32, (r.combinedMask.signExtend 64).getLsbD j = r.combinedMask.getLsbD j := by
    intro j hj
    rw [getLsbD_signExtend, if_pos hj, decide_eq_true (by omega), Bool.true_and]
  have hlow : ctz64 (r.combinedMask.signExtend 64) < 32 := by
    by_contra hge
    have hn : r.combinedMask.signExtend 64 ≠ 0#64 := fun hz => hk (by rw [hz]; decide +kernel)
    -- the lowest bit is then a copy of the sign, which is below it
    have hs := getLsbD_ctz64 hn
    rw [getLsbD_signExtend, if_neg hge, msb_eq_getLsbD_last, ← hb 31 (by decide),
      getLsbD_of_lt_ctz64 (by omega)] at hs
    simp at hs
  refine ⟨_, toNat_one_shiftLeft (by omega), fun m hm i hlt => ?_⟩
  have hz := getLsbD_of_lt_ctz64 hlt
  rw [hb i (by omega), combinedMask, getLsbD_foldl_or (by omega), Bool.or_eq_false_iff] at hz
  simpa using any_eq_false.mp hz.2 m hm

/-- **The test for a subset is sound** on a range with stripes. -/
theorem contains_of_isSubset (hq : q.interleaved = false) (hi : r.interleaved)
    (h : q.isSubset r = .ok true) (ha : q.inBounds a) : r.contains a := by
  rw [isSubset, if_neg (by simp [hq]), if_pos hi] at h
  split at h
  · rename_i he
    rw [Bool.and_eq_true] at he
    cases hg : r.granularity with
    | error => rw [hg] at h; cases h
    | ok g =>
      rw [hg] at h
      obtain ⟨k, hk, hms⟩ := granularity_spec hi hg
      have hl : q.size ≤ g := of_decide_eq_true (ok.inj h)
      have hni : q.masks = [] := by simpa [interleaved] using hq
      rw [size, hni, length_nil, le_def, hk] at hl
      have hfst := contains_inBounds he.1
      have hla := contains_inBounds he.2
      rw [inBounds, decide_eq_true_eq] at ha
      -- the range reaches into at most one more stripe
      have hdiv := Nat.add_div_right q.start.toNat (Nat.two_pow_pos k)
      have hst : q.start.toNat / 2 ^ k ≤ a.toNat / 2 ^ k := Nat.div_le_div_right (by bv_omega)
      have hend : a.toNat / 2 ^ k ≤ (q.endAddr - 1).toNat / 2 ^ k :=
        Nat.div_le_div_right (by bv_omega)
      have hnx : (q.endAddr - 1).toNat / 2 ^ k ≤ (q.start.toNat + 2 ^ k) / 2 ^ k :=
        Nat.div_le_div_right (by bv_omega)
      have hin : r.inBounds a := decide_eq_true (by bv_omega)
      rw [contains, if_pos hin, matchesSel, beq_iff_eq]
      rcases Nat.eq_or_lt_of_le hst with heq | hlt
      · rw [← sel_congr hms heq, sel_of_contains he.1]
      · rw [sel_congr hms (b := q.endAddr - 1) (by omega), sel_of_contains he.2]
  · cases h

/-! ### When the tests are right -/

/-- **The test for a subset is sound**: a plain range found to be a subset has all its addresses in
the range. -/
def SubsetSound (r : AddrRange) : Prop :=
  ∀ q : AddrRange, q.interleaved = false → (∃ a, q.contains a) → q.isSubset r = .ok true →
    ∀ a, q.inBounds a → r.contains a

/-- **The test for an intersection is right**: it tells whether there is a common address. -/
def IntersectsRight (r : AddrRange) : Prop :=
  ∀ q : AddrRange, q.interleaved = false → (∃ a, q.contains a) →
    r.valid → ∀ b, q.intersects r = .ok b → (b = true ↔ q.Meets r)

/-- **The tests on a range are right.** -/
def TestsRight (r : AddrRange) : Prop := r.SubsetSound ∧ r.IntersectsRight

/-- A plain range with room between its bounds has an address. -/
def SubsetTestable (r : AddrRange) : Prop :=
  r.interleaved = false → r.start < r.endAddr → ∃ a, r.contains a

/-- A range with stripes and of size 1 has its first address only. A plain range has an address, or
no other range lies across its bounds. -/
def Testable (r : AddrRange) : Prop :=
  r.valid → if r.interleaved then r.size = 1 → ∀ a, r.contains a ↔ a = r.start
    else (∃ a, r.contains a) ∨
      ∀ q : AddrRange, q.interleaved = false → (∃ a, q.contains a) → q.BoundsApart r

theorem contains_rangeSize (start size x : Addr) :
    (rangeSize start size).contains x = decide (start ≤ x ∧ x < start + size) := by
  rw [contains]
  cases hin : (rangeSize start size).inBounds x with
  | true => exact hin.symm
  | false => exact hin.symm

theorem intersects_of_overlap (hq : q.interleaved = false) (hb : ¬ q.BoundsApart r) :
    q.intersects r = if r.interleaved then
        if r.size = 1 then .ok (q.contains r.start) else .error (.cannotTestIntersection q r)
      else .ok true := by
  have hme : r.interleaved → ¬ q.mergesWith r := fun hi hm => by
    rw [← interleaved_congr (mergesWith_iff.mp hm).2.2, hq] at hi
    cases hi
  have hno : ¬ (q.start ≥ r.endAddr ∨ q.endAddr ≤ r.start) := hb
  rw [intersects, if_neg hno, hq]
  cases hi : r.interleaved with
  | false => rfl
  | true => simp [hme hi]

theorem start_lt_of_size (hv : r.valid) (hsz : r.size = 1) : r.start < r.endAddr := by
  have hle : r.start ≤ r.endAddr := of_decide_eq_true hv
  have hne : r.endAddr - r.start ≠ 0#64 := fun h => by
    rw [size, h] at hsz
    simp at hsz
  bv_omega

theorem contains_bounds (hlt : r.start < r.endAddr) :
    (rangeSize r.start (r.endAddr - r.start)).contains r.start := by
  rw [contains_rangeSize, decide_eq_true_eq]
  bv_omega

theorem subsetSound_iff : r.SubsetSound ↔ r.SubsetTestable := by
  constructor
  · intro h hpl hlt
    have hin : (rangeSize r.start (r.endAddr - r.start)).inBounds r.start :=
      contains_inBounds (contains_bounds hlt) |> decide_eq_true
    refine ⟨_, h _ rfl ⟨_, contains_bounds hlt⟩ ?_ _ hin⟩
    rw [isSubset, if_neg (by simp [interleaved, rangeSize]), if_neg (by simp [hpl])]
    refine congrArg ok (decide_eq_true ?_)
    simp only [rangeSize]
    bv_omega
  · intro h q hq hn hs a ha
    have hlt : q.start < q.endAddr := start_lt_of_contains hn.choose_spec
    by_cases hi : r.interleaved
    · exact contains_of_isSubset hq hi hs ha
    · rw [isSubset, if_neg (by simp [hq]), if_neg hi] at hs
      have hle := of_decide_eq_true (ok.inj hs)
      have hpl : r.interleaved = false := by simpa using hi
      rw [contains_of_plain hpl (h hpl (by bv_omega)), inBounds, decide_eq_true_eq]
      rw [inBounds, decide_eq_true_eq] at ha
      bv_omega

theorem Testable.subsetTestable (h : r.Testable) : r.SubsetTestable := by
  intro hpl hlt
  have hr := h (decide_eq_true (by bv_omega))
  rw [if_neg (by simp [hpl])] at hr
  refine hr.resolve_right fun hap => ?_
  have hno := hap _ rfl ⟨_, contains_bounds hlt⟩
  simp only [BoundsApart, rangeSize] at hno
  bv_omega

theorem Testable.intersectsRight (h : r.Testable) : r.IntersectsRight := by
  intro q hq hn hv b hb
  by_cases hp : q.BoundsApart r
  · have hfa : q.intersects r = .ok false := if_pos hp
    obtain rfl := ok.inj (hfa.symm.trans hb)
    exact iff_of_false Bool.false_ne_true (Apart.not_meets (.inl hp))
  · have ht := intersects_of_overlap hq hp
    have hr := h hv
    split at hr
    · next hi =>
      rw [if_pos hi, hb] at ht
      split at ht
      · next hsz =>
        rw [ok.inj ht]
        refine ⟨fun hst => ⟨_, hst, (hr hsz _).mpr rfl⟩, ?_⟩
        rintro ⟨a, hqa, hra⟩
        rwa [← (hr hsz a).mp hra]
      · cases ht
    · next hi =>
      rw [if_neg hi] at ht
      obtain rfl := ok.inj (ht.symm.trans hb)
      refine iff_of_true rfl ?_
      refine meets_of_intersects (fun _ h => by simp [hq, hi] at h) hn ?_ ht
      exact hr.resolve_right fun hal => hp (hal q hq hn)

theorem IntersectsRight.testable (h : r.IntersectsRight) : r.Testable := by
  intro hv
  split
  · next hi =>
    intro hsz a
    have hlt := start_lt_of_size hv hsz
    by_cases hin : r.start ≤ a ∧ a < r.endAddr
    · -- the single address as a range
      have hm : ∀ x, (rangeSize a 1).contains x ↔ x = a := by
        intro x
        rw [contains_rangeSize, decide_eq_true_eq]
        bv_omega
      have hov : ¬ (rangeSize a 1).BoundsApart r := by
        simp only [BoundsApart, rangeSize]
        bv_omega
      have ht := intersects_of_overlap rfl hov
      rw [if_pos hi, if_pos hsz] at ht
      have hif := h _ rfl ⟨a, (hm a).mpr rfl⟩ hv _ ht
      simp only [Meets, hm, exists_eq_left] at hif
      exact hif.symm.trans eq_comm
    · refine iff_of_false (fun hc => hin (contains_inBounds hc)) ?_
      rintro rfl
      exact hin ⟨BitVec.le_refl _, hlt⟩
  · next hi =>
    refine or_iff_not_imp_left.mpr fun hem q hq hn => ?_
    by_contra hov
    have ht := intersects_of_overlap hq hov
    rw [if_neg hi] at ht
    obtain ⟨a, -, ha⟩ := (h q hq hn hv _ ht).mp rfl
    exact hem ⟨a, ha⟩

/-- **When the tests on a range are right**: the test for a subset when there is an address between
the bounds of a plain range, and the test for an intersection, with both, when the range is
testable. -/
theorem testsRight_iff (r : AddrRange) :
    (r.SubsetSound ↔ r.SubsetTestable) ∧ (r.IntersectsRight ↔ r.Testable) ∧
      (r.TestsRight ↔ r.Testable) :=
  ⟨subsetSound_iff, ⟨IntersectsRight.testable, Testable.intersectsRight⟩, fun h => h.2.testable,
    fun h => ⟨subsetSound_iff.mpr h.subsetTestable, h.intersectsRight⟩⟩

def oddByte : AddrRange := { start := 0, endAddr := 2, masks := [1], intlvMatch := 1 }

def unmatched : AddrRange := { start := 0, endAddr := 10, intlvMatch := 5 }

/-- **A byte that is not in the range is found to intersect it**: the range is tested by its first
address. A plain range is found to be a subset of one that has no address. -/
theorem intersects_oddByte :
    ((rangeSize 0 1).intersects oddByte = .ok true ∧ ¬ (rangeSize 0 1).Meets oddByte) ∧
    ((rangeSize 0 1).isSubset unmatched = .ok true ∧ unmatched.contains 0 = false) := by
  refine ⟨⟨by decide +kernel, fun ⟨a, hq, hr⟩ => ?_⟩, by decide +kernel, by decide +kernel⟩
  have hz : a = 0#64 := by
    have := contains_inBounds hq
    simp only [rangeSize] at this
    bv_omega
  rw [hz] at hr
  exact absurd hr (by decide +kernel)

end AddrRange

end Gem5.Base
