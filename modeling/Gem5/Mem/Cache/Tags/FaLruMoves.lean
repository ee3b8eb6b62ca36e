import Gem5.Mem.Cache.Tags.FaLru

/-!
# Gem5.Mem.Cache.Tags.FaLruMoves

**Moves to the head and to the tail.** A state describes a list when its pointers link the list, the
masks say which sizes a position is within and the boundaries are the last blocks within the sizes.
The loops of `CacheTracking` change masks and boundaries only, one size at a time (`HeadLoop`,
`TailLoop`), and the pointers are changed after them.
-/

namespace Gem5.Mem

open Gem5.Base Gem5.Lib Function List Nat Linked Option

/-! ### Sizes in blocks -/

namespace FALRUParams

variable (p : FALRUParams)

/-- The blocks of the `i`-th tracked cache. -/
def cap (i : Nat) : Nat := (p.minTrackedSize <<< i) / p.blkSize

theorem exponents : ∃ x y, p.blkSize = 2 ^ x ∧ p.minTrackedSize = 2 ^ (x + y) ∧
    p.size = 2 ^ (x + y + p.numTrackedCaches) ∧ 0 < p.numTrackedCaches ∧
    p.numTrackedCaches < 32 := by
  have hsz := p.size_lt
  have hmi := p.minTrackedSize_lt
  have hb := eq_two_pow_floorLog2 p.isPowerOf2_blkSize (by have := p.blkSize_le; omega)
  have hm := eq_two_pow_floorLog2 p.isPowerOf2_minTrackedSize (by omega)
  have hs := eq_two_pow_floorLog2 p.isPowerOf2_size (by omega)
  have hbm : floorLog2 p.blkSize ≤ floorLog2 p.minTrackedSize := by
    have hle := p.blkSize_le
    rw [hb, hm] at hle
    exact (Nat.pow_le_pow_iff_right (by decide)).mp hle
  have hms : floorLog2 p.minTrackedSize < floorLog2 p.size := by
    rw [hm, hs] at hmi
    exact (Nat.pow_lt_pow_iff_right (by decide)).mp hmi
  have hs32 : floorLog2 p.size < 32 := by
    rw [hs] at hsz
    exact (Nat.pow_lt_pow_iff_right (by decide)).mp hsz
  have hk : p.numTrackedCaches = floorLog2 p.size - floorLog2 p.minTrackedSize :=
    if_pos p.minTrackedSize_lt
  refine ⟨floorLog2 p.blkSize, floorLog2 p.minTrackedSize - floorLog2 p.blkSize, hb, ?_, ?_, ?_, ?_⟩
  · rwa [Nat.add_sub_cancel' hbm]
  · rw [Nat.add_sub_cancel' hbm, hk, Nat.add_sub_cancel' hms.le]
    exact hs
  · omega
  · omega

theorem cap_eq_two_pow : ∃ y, (∀ i, p.cap i = 2 ^ (y + i)) ∧
    p.numBlocks = 2 ^ (y + p.numTrackedCaches) ∧ (p.blkSize < p.minTrackedSize ↔ 0 < y) := by
  obtain ⟨x, y, hb, hm, hs, -, -⟩ := p.exponents
  refine ⟨y, fun i => ?_, ?_, ?_⟩
  · rw [cap, hb, hm, shiftLeft_eq, ← pow_add, add_assoc,
      Nat.pow_div (le_add_right _ _) (by decide), Nat.add_sub_cancel_left]
  · rw [numBlocks, hb, hs, add_assoc, Nat.pow_div (le_add_right _ _) (by decide),
      Nat.add_sub_cancel_left]
  · rw [hb, hm, Nat.pow_lt_pow_iff_right (by decide)]
    omega

theorem numTrackedCaches_pos : 0 < p.numTrackedCaches := by
  obtain ⟨x, y, -, -, -, hpo, -⟩ := p.exponents
  exact hpo

theorem numTrackedCaches_lt : p.numTrackedCaches < 32 := by
  obtain ⟨x, y, -, -, -, -, hlt⟩ := p.exponents
  exact hlt

theorem cap_pos (i : Nat) : 0 < p.cap i := by
  obtain ⟨y, hca, -, -⟩ := p.cap_eq_two_pow
  rw [hca]
  exact Nat.two_pow_pos _

theorem cap_lt_cap {i j : Nat} (h : i < j) : p.cap i < p.cap j := by
  obtain ⟨y, hc, -, -⟩ := p.cap_eq_two_pow
  rw [hc, hc]
  exact Nat.pow_lt_pow_right (by decide) (by omega)

theorem cap_lt_iff {i j : Nat} : p.cap i < p.cap j ↔ i < j := by
  refine ⟨fun h => ?_, p.cap_lt_cap⟩
  by_contra hle
  obtain rfl | hlt := (Nat.le_of_not_lt hle).eq_or_lt
  · omega
  · have := p.cap_lt_cap hlt
    omega

theorem cap_numTrackedCaches : p.cap p.numTrackedCaches = p.numBlocks := by
  obtain ⟨y, hca, hn, -⟩ := p.cap_eq_two_pow
  rw [hca, hn]

theorem cap_lt {i : Nat} (h : i < p.numTrackedCaches) : p.cap i < p.numBlocks := by
  rw [← p.cap_numTrackedCaches]
  exact p.cap_lt_cap h

theorem two_le_cap (h : p.blkSize < p.minTrackedSize) (i : Nat) : 2 ≤ p.cap i := by
  obtain ⟨y, hca, -, hy⟩ := p.cap_eq_two_pow
  rw [hca, show y + i = (y + i - 1) + 1 by have := hy.mp h; omega]
  have := Nat.two_pow_pos (y + i - 1)
  omega

theorem cap_zero_of_eq (h : ¬ p.blkSize < p.minTrackedSize) : p.cap 0 = 1 := by
  obtain ⟨y, hca, -, hy⟩ := p.cap_eq_two_pow
  rw [hca, show y + 0 = 0 by have := mt hy.mpr h; omega, pow_zero]

theorem two_le_numBlocks : 2 ≤ p.numBlocks := by
  have hpos := p.cap_pos 0
  have hlt := p.cap_lt p.numTrackedCaches_pos
  omega

theorem mul_blkSize_eq (i : Nat) : p.minTrackedSize <<< i = p.cap i * p.blkSize := by
  obtain ⟨x, y, hb, hm, -, -, -⟩ := p.exponents
  refine (Nat.div_mul_cancel ?_).symm
  rw [hb, hm, shiftLeft_eq, ← pow_add]
  exact pow_dvd_pow 2 (by omega)

theorem blkSize_pos : 0 < p.blkSize := by
  obtain ⟨x, y, hb, -, -, -, -⟩ := p.exponents
  rw [hb]
  exact Nat.two_pow_pos x

theorem mul_blkSize_lt_iff (q i : Nat) : q * p.blkSize < p.minTrackedSize <<< i ↔ q < p.cap i := by
  rw [mul_blkSize_eq]
  exact Nat.mul_lt_mul_right p.blkSize_pos

@[simp] theorem getLsbD_inAllCachesMask (i : Nat) :
    p.inAllCachesMask.getLsbD i = decide (i < p.numTrackedCaches) := by
  have hlt := p.numTrackedCaches_lt
  rw [inAllCachesMask, BitVec.getLsbD_setWidth, getLsbD_mask]
  grind

end FALRUParams

namespace FALRU

variable {p : FALRUParams} {s t : FALRU p} {l : List (Fin p.numBlocks)} {blk : Fin p.numBlocks}

/-! ### What a state says about the list -/

structure Listed (s : FALRU p) (l : List (Fin p.numBlocks)) : Prop where
  linked : Linked (fun b => (s.blks b).next) (fun b => (s.blks b).prev) l
  length : l.length = p.numBlocks
  head : l[0]? = some s.head
  tail : l[p.numBlocks - 1]? = some s.tail

def Masked (s : FALRU p) (l : List (Fin p.numBlocks)) : Prop :=
  ∀ q b, l[q]? = some b → ∀ i, (s.blks b).inCachesMask.getLsbD i =
    decide (i < p.numTrackedCaches ∧ q < p.cap i)

def Bounded (s : FALRU p) (l : List (Fin p.numBlocks)) : Prop :=
  ∀ i < p.numTrackedCaches, s.boundaries i = l[p.cap i - 1]?

/-- The moves do not touch what the tag store looks up and counts. -/
structure SameTags (s t : FALRU p) : Prop where
  valid : ∀ b, (t.blks b).valid = (s.blks b).valid
  tag : ∀ b, (t.blks b).tag = (s.blks b).tag
  secure : ∀ b, (t.blks b).secure = (s.blks b).secure
  tagHash : t.tagHash = s.tagHash
  hits : t.hits = s.hits

theorem SameTags.refl (s : FALRU p) : SameTags s s :=
  ⟨fun _ => rfl, fun _ => rfl, fun _ => rfl, rfl, rfl⟩

@[simp] theorem blks_modify (s : FALRU p) (b : Fin p.numBlocks)
    (f : FALRUBlk p.numBlocks → FALRUBlk p.numBlocks) (x : Fin p.numBlocks) :
    (s.modify b f).blks x = if x = b then f (s.blks b) else s.blks x :=
  update_apply _ _ _ _

/-! ### The loops of `CacheTracking`

The loops change masks and boundaries only. The state in the middle of a loop is the state before it
with other masks and boundaries. -/

def retrack (s : FALRU p) (masks : Fin p.numBlocks → BitVec 32)
    (boundaries : Nat → Option (Fin p.numBlocks)) : FALRU p :=
  { s with
    blks := fun b => { s.blks b with inCachesMask := masks b }
    boundaries := boundaries }

variable {masks : Fin p.numBlocks → BitVec 32} {boundaries : Nat → Option (Fin p.numBlocks)}
  {update : BitVec 32} {j : Nat}

theorem setMask_retrack (b : Fin p.numBlocks) (m : BitVec 32) :
    (s.retrack masks boundaries).setMask b m =
      s.retrack (Function.update masks b m) boundaries := by
  simp only [setMask, modify, retrack]
  congr 1
  funext x
  by_cases hx : x = b
  · simp [hx]
  · simp [hx]

theorem sameTags_retrack : SameTags s (s.retrack masks boundaries) :=
  ⟨fun _ => rfl, fun _ => rfl, fun _ => rfl, rfl, rfl⟩

theorem Listed.retrack (h : Listed s l) : Listed (s.retrack masks boundaries) l :=
  ⟨h.linked, h.length, h.head, h.tail⟩

theorem retrack_run {f : FALRU p → Nat → Except FALRUFault (FALRU p)}
    (inv : Nat → (Fin p.numBlocks → BitVec 32) → (Nat → Option (Fin p.numBlocks)) → Prop)
    (hin : inv 0 (fun b => (s.blks b).inCachesMask) s.boundaries)
    (hst : ∀ j < p.numTrackedCaches, ∀ masks boundaries, inv j masks boundaries →
      ∃ masks' boundaries', f (s.retrack masks boundaries) j =
        .ok (s.retrack masks' boundaries') ∧ inv (j + 1) masks' boundaries') :
    Succeeds (fun t => ∃ masks boundaries, t = s.retrack masks boundaries ∧
        inv p.numTrackedCaches masks boundaries)
      ((List.range p.numTrackedCaches).foldlM f s) := by
  refine Outcome.foldlM_range (fun j t => ∃ masks boundaries, t = s.retrack masks boundaries ∧
    inv j masks boundaries) ⟨_, _, rfl, hin⟩ ?_
  rintro j hj _ ⟨masks, boundaries, rfl, h⟩
  obtain ⟨masks', boundaries', heq, h'⟩ := hst j hj masks boundaries h
  rw [heq]
  exact ⟨masks', boundaries', rfl, h'⟩

theorem update_if_lt {β : Type} {f g h : Nat → β} (hf : ∀ i, f i = if i < j then g i else h i)
    (i : Nat) : Function.update f j (g j) i = if i < j + 1 then g i else h i := by
  by_cases hij : i = j
  · rw [hij, update_self, if_pos (lt_succ_self j)]
  · rw [update_of_ne hij, hf]
    by_cases hlt : i < j
    · rw [if_pos hlt, if_pos (by omega)]
    · rw [if_neg hlt, if_neg (by omega)]

theorem test_iff {q : Prop} [Decidable q] (h : update.getLsbD j = decide q) :
    (1#32 <<< j) &&& update ≠ 0 ↔ q := by
  rw [one_shiftLeft_and_ne_zero, h, decide_eq_true_eq]

theorem Listed.getElem?_iff (h : Listed s l) {q k : Nat} {b : Fin p.numBlocks} (hq : l[q]? = some b) :
    l[k]? = some b ↔ k = q :=
  ⟨fun hk => index_unique h.linked.nodup hk hq, fun hk => by rw [hk, hq]⟩

theorem Listed.exists_getElem (h : Listed s l) {q : Nat} (hq : q < p.numBlocks) :
    ∃ b, l[q]? = some b :=
  ⟨_, getElem?_eq_getElem (by rw [h.length]; exact hq)⟩

/-- A boundary once the block at position `r`, not the head, is moved to the head. The boundary of a
single block is lost: the source takes the block before the old head. -/
def headBoundary (p : FALRUParams) (l : List (Fin p.numBlocks)) (r i : Nat) :
    Option (Fin p.numBlocks) :=
  if p.cap i = 1 then none else (l.eraseIdx r)[p.cap i - 2]?

/-- What the loop of `moveBlockToHead` has done for the sizes below `j`, when the block is at
position `r`. -/
structure HeadLoop (s : FALRU p) (l : List (Fin p.numBlocks)) (r j : Nat)
    (masks : Fin p.numBlocks → BitVec 32) (boundaries : Nat → Option (Fin p.numBlocks)) : Prop where
  masks : ∀ b i, (masks b).getLsbD i = ((s.blks b).inCachesMask.getLsbD i &&
    !decide (i < j ∧ p.cap i ≤ r ∧ l[p.cap i - 1]? = some b))
  boundaries : ∀ i, boundaries i = if i < j then headBoundary p l r i else s.boundaries i

theorem HeadLoop.step (hl : Listed s l) (hb : Bounded s l) {r : Nat} (hr : l[r]? = some blk)
    (hr0 : 0 < r) (hj : j < p.numTrackedCaches) (hup : update.getLsbD j = decide (p.cap j ≤ r))
    (h : HeadLoop s l r j masks boundaries) :
    ∃ masks' boundaries', boundaryToHead update blk (s.retrack masks boundaries) j =
      .ok (s.retrack masks' boundaries') ∧ HeadLoop s l r (j + 1) masks' boundaries' := by
  have hpos := p.cap_pos j
  have hcap := p.cap_lt hj
  have ho : boundaries j = l[p.cap j - 1]? := by
    rw [h.boundaries, if_neg (lt_irrefl j), hb j hj]
  by_cases he : p.cap j ≤ r
  · -- the block was outside: the last block inside falls out
    obtain ⟨b, ha⟩ := hl.exists_getElem (q := p.cap j - 1) (by omega)
    have hpr : (s.blks b).prev = headBoundary p l r j := by
      unfold headBoundary
      by_cases hon : p.cap j = 1
      · rw [if_pos hon]
        exact hl.linked.prev_zero (by rwa [hon] at ha)
      · rw [if_neg hon, getElem?_eraseIdx, if_pos (by omega)]
        exact hl.linked.prev_succ (by rwa [show p.cap j - 2 + 1 = p.cap j - 1 by omega])
    refine ⟨Function.update masks b (masks b &&& ~~~ (1#32 <<< j)),
      Function.update boundaries j (headBoundary p l r j), ?_, ?_, update_if_lt h.boundaries⟩
    · have hde : (s.retrack masks boundaries).boundaries j = some b := ho.trans ha
      simp only [boundaryToHead]
      rw [if_pos ((test_iff hup).mpr he), hde]
      refine bind_eq_ok.mpr ⟨b, rfl, ?_⟩
      rw [setMask_retrack, ← hpr]
      rfl
    · intro x i
      by_cases hx : x = b
      · rw [hx, update_self, BitVec.getLsbD_and, h.masks]
        by_cases hi : i = j
        · simp [hi, he, ha]
        · grind
      · rw [update_of_ne hx, h.masks]
        by_cases hi : i = j
        · have hxb : ¬ b = x := fun h => hx h.symm
          simp [hi, ha, hxb]
        · grind
  · -- the block was inside
    have hms : ∀ b i, (masks b).getLsbD i = ((s.blks b).inCachesMask.getLsbD i &&
        !decide (i < j + 1 ∧ p.cap i ≤ r ∧ l[p.cap i - 1]? = some b)) := by
      intro b i
      rw [h.masks]
      by_cases hi : i = j
      · simp [hi, he]
      · grind
    refine ⟨masks, Function.update boundaries j (headBoundary p l r j), ?_, hms,
      update_if_lt h.boundaries⟩
    have hne : headBoundary p l r j =
        if p.cap j - 2 < r then l[p.cap j - 2]? else l[p.cap j - 2 + 1]? := by
      rw [headBoundary, if_neg (by omega), getElem?_eraseIdx]
    simp only [boundaryToHead]
    rw [if_neg (mt (test_iff hup).mp he), hne]
    by_cases ha : p.cap j - 1 = r
    · have hbl : (s.retrack masks boundaries).boundaries j = some blk := by
        rw [← hr, ← ha]
        exact ho
      have hpr : (s.blks blk).prev = l[r - 1]? :=
        hl.linked.prev_succ (by rwa [Nat.sub_add_cancel hr0])
      rw [if_pos hbl, if_pos (by omega), show p.cap j - 2 = r - 1 by omega, ← hpr]
      rfl
    · have hbl : (s.retrack masks boundaries).boundaries j ≠ some blk := fun h =>
        ha (index_unique hl.linked.nodup (ho.symm.trans h) hr)
      rw [if_neg hbl, if_neg (by omega), show p.cap j - 2 + 1 = p.cap j - 1 by omega, ← ho,
        update_eq_self]

variable {r : Nat}

theorem moveBlockToHead_spec (hl : Listed s l) (hm : Masked s l) (hb : Bounded s l)
    (hr : l[r]? = some blk) (hr0 : 0 < r) : ∃ masks boundaries,
      s.moveBlockToHead blk = .ok (s.retrack masks boundaries) ∧
      Masked (s.retrack masks boundaries) (blk :: l.eraseIdx r) ∧
      ∀ i < p.numTrackedCaches, boundaries i = headBoundary p l r i := by
  have hup : ∀ j < p.numTrackedCaches,
      (p.inAllCachesMask ^^^ (s.blks blk).inCachesMask).getLsbD j = decide (p.cap j ≤ r) := by
    intro j hj
    rw [BitVec.getLsbD_xor, p.getLsbD_inAllCachesMask, hm r blk hr]
    grind
  have hin : HeadLoop s l r 0 (fun b => (s.blks b).inCachesMask) s.boundaries :=
    ⟨fun b i => by simp, fun i => by simp⟩
  obtain ⟨_, hfo, masks, boundaries, rfl, hlo⟩ := (retrack_run
    (HeadLoop s l r) hin fun j hj masks boundaries h => h.step hl hb hr hr0 hj (hup j hj)).exists
  refine ⟨update masks blk p.inAllCachesMask, boundaries, ?_, ?_, fun i hi => ?_⟩
  · simp only [moveBlockToHead, hfo]
    exact congrArg Except.ok (setMask_retrack blk p.inAllCachesMask)
  · intro q b hq i
    simp only [retrack]
    cases q with
    | zero =>
      obtain rfl : blk = b := by simpa using hq
      have hp := p.cap_pos i
      simp [hp]
    | succ q =>
      -- the position before the move tells which sizes the block was within
      have hp : ∀ q', l[q']? = some b → q' ≠ r → ((masks b).getLsbD i = decide
          (i < p.numTrackedCaches ∧ q' < p.cap i ∧ ¬ (p.cap i ≤ r ∧ p.cap i - 1 = q'))) := by
        intro q' hq' _
        rw [hlo.masks, hm q' b hq']
        have hiff := hl.getElem?_iff hq' (k := p.cap i - 1)
        grind
      obtain ⟨hlt, hq⟩ | ⟨hle, hq⟩ := getElem?_eraseIdx_cases hq
      · rw [update_of_ne (hl.linked.index_ne hq hr (by omega)), hp q hq (by omega)]
        refine decide_eq_decide.mpr ?_
        omega
      · rw [update_of_ne (hl.linked.index_ne hq hr (by omega)), hp _ hq (by omega)]
        refine decide_eq_decide.mpr ?_
        omega
  · rw [hlo.boundaries, if_pos hi]

/-- What the loop of `moveBlockToTail` has done for the sizes below `j`, when the block is at
position `r`. -/
structure TailLoop (s : FALRU p) (l : List (Fin p.numBlocks)) (r j : Nat)
    (masks : Fin p.numBlocks → BitVec 32) (boundaries : Nat → Option (Fin p.numBlocks)) : Prop where
  masks : ∀ b i, (masks b).getLsbD i = ((s.blks b).inCachesMask.getLsbD i ||
    decide (i < j ∧ r < p.cap i ∧ l[p.cap i]? = some b))
  boundaries : ∀ i, boundaries i = if i < j then (l.eraseIdx r)[p.cap i - 1]? else s.boundaries i

theorem TailLoop.step (hl : Listed s l) (hb : Bounded s l) (hr : l[r]? = some blk)
    (hj : j < p.numTrackedCaches) (hup : update.getLsbD j = decide (r < p.cap j))
    (h : TailLoop s l r j masks boundaries) :
    ∃ masks' boundaries', boundaryToTail update blk (s.retrack masks boundaries) j =
      .ok (s.retrack masks' boundaries') ∧ TailLoop s l r (j + 1) masks' boundaries' := by
  have hj32 := hj.trans p.numTrackedCaches_lt
  have hp := p.cap_pos j
  have hca := p.cap_lt hj
  have hbo : boundaries j = l[p.cap j - 1]? := by
    rw [h.boundaries, if_neg (lt_irrefl j), hb j hj]
  by_cases ht : r < p.cap j
  · -- the block was inside: the first block outside takes its place
    obtain ⟨b, hla⟩ := hl.exists_getElem (q := p.cap j - 1) (by omega)
    obtain ⟨c, hf⟩ := hl.exists_getElem hca
    have hnx : (s.blks b).next = some c := by
      rw [← hf, hl.linked.next_eq hla, Nat.sub_add_cancel hp]
    have hcb : c ≠ blk := hl.linked.index_ne hf hr (by omega)
    have hne : (l.eraseIdx r)[p.cap j - 1]? = some c := by
      rw [getElem?_eraseIdx, if_neg (by omega), Nat.sub_add_cancel hp, hf]
    refine ⟨Function.update masks c (masks c ||| (1#32 <<< j)),
      Function.update boundaries j (l.eraseIdx r)[p.cap j - 1]?, ?_, ?_, update_if_lt h.boundaries⟩
    · have hde : (s.retrack masks boundaries).boundaries j = some b := hbo.trans hla
      have hnx' : ((s.retrack masks boundaries).blks b).next = some c := hnx
      have hno : ¬ some c = some blk := fun h => hcb (some.inj h)
      simp only [boundaryToTail]
      rw [if_pos ((test_iff hup).mpr ht), hde]
      refine bind_eq_ok.mpr ⟨b, rfl, ?_⟩
      rw [hnx', if_neg hno, hne]
      refine bind_eq_ok.mpr ⟨c, rfl, ?_⟩
      exact congrArg Except.ok (setMask_retrack c _)
    · intro x i
      by_cases hx : x = c
      · rw [hx, update_self, BitVec.getLsbD_or, h.masks]
        by_cases hi : i = j
        · simp [hi, hj32, ht, hf]
        · grind
      · rw [update_of_ne hx, h.masks]
        by_cases hi : i = j
        · have hxc : ¬ c = x := fun h => hx h.symm
          simp [hi, hf, hxc]
        · grind
  · -- the block was outside
    have hsa : (l.eraseIdx r)[p.cap j - 1]? = boundaries j := by
      rw [getElem?_eraseIdx, if_pos (by omega), hbo]
    refine ⟨masks, Function.update boundaries j (l.eraseIdx r)[p.cap j - 1]?, ?_, ?_,
      update_if_lt h.boundaries⟩
    · simp only [boundaryToTail]
      rw [if_neg (mt (test_iff hup).mp ht), hsa, update_eq_self]
    · intro b i
      rw [h.masks]
      by_cases hi : i = j
      · simp [hi, ht]
      · grind

theorem moveBlockToTail_spec (hl : Listed s l) (hm : Masked s l) (hb : Bounded s l)
    (hr : l[r]? = some blk) (hrn : r < p.numBlocks - 1) : ∃ masks boundaries,
      s.moveBlockToTail blk = .ok (s.retrack masks boundaries) ∧
      Masked (s.retrack masks boundaries) (l.eraseIdx r ++ [blk]) ∧
      Bounded (s.retrack masks boundaries) (l.eraseIdx r ++ [blk]) := by
  have hup : ∀ j < p.numTrackedCaches,
      (s.blks blk).inCachesMask.getLsbD j = decide (r < p.cap j) := by
    intro j hj
    rw [hm r blk hr]
    simp [hj]
  have hlen : (l.eraseIdx r).length = p.numBlocks - 1 := by
    rw [length_eraseIdx, hl.length, if_pos (by omega)]
  have hin : TailLoop s l r 0 (fun b => (s.blks b).inCachesMask) s.boundaries :=
    ⟨fun b i => by simp, fun i => by simp⟩
  obtain ⟨_, hfo, masks, boundaries, rfl, hlo⟩ := (retrack_run
    (TailLoop s l r) hin fun j hj masks boundaries h => h.step hl hb hr hj (hup j hj)).exists
  refine ⟨update masks blk 0, boundaries, ?_, ?_, fun i hi => ?_⟩
  · simp only [moveBlockToTail, hfo]
    exact congrArg Except.ok (setMask_retrack blk 0)
  · intro q b hq i
    simp only [retrack]
    have hqn : q < p.numBlocks := by
      have := (List.getElem?_eq_some_iff.mp hq).1
      rw [length_append, length_singleton] at this
      omega
    by_cases hla : q = p.numBlocks - 1
    · -- the moved block is within no tracked size
      have hca : i < p.numTrackedCaches → p.cap i < p.numBlocks := p.cap_lt
      grind
    · rw [getElem?_append_left (by omega)] at hq
      have hp : ∀ q', l[q']? = some b → q' ≠ r → ((masks b).getLsbD i = decide
          (i < p.numTrackedCaches ∧ (q' < p.cap i ∨ r < p.cap i ∧ p.cap i = q'))) := by
        intro q' hq' _
        rw [hlo.masks, hm q' b hq']
        have hiff := hl.getElem?_iff hq' (k := p.cap i)
        grind
      obtain ⟨hlt, hq⟩ | ⟨hle, hq⟩ := getElem?_eraseIdx_cases hq
      · rw [update_of_ne (hl.linked.index_ne hq hr (by omega)), hp q hq (by omega)]
        refine decide_eq_decide.mpr ?_
        omega
      · rw [update_of_ne (hl.linked.index_ne hq hr (by omega)), hp _ hq (by omega)]
        refine decide_eq_decide.mpr ?_
        omega
  · have hca := p.cap_lt hi
    rw [getElem?_append_left (by omega)]
    exact (hlo.boundaries i).trans (if_pos hi)

/-! ### Relinking -/

section Fields

variable (s : FALRU p) (b x : Fin p.numBlocks) (ptr : Option (Fin p.numBlocks))

@[simp] theorem next_setNext :
    ((s.setNext b ptr).blks x).next = if x = b then ptr else (s.blks x).next := by
  simp only [setNext, blks_modify]
  split <;> rfl

@[simp] theorem prev_setNext : ((s.setNext b ptr).blks x).prev = (s.blks x).prev := by
  simp only [setNext, blks_modify]
  split <;> simp_all

@[simp] theorem inCachesMask_setNext :
    ((s.setNext b ptr).blks x).inCachesMask = (s.blks x).inCachesMask := by
  simp only [setNext, blks_modify]
  split <;> simp_all

@[simp] theorem prev_setPrev :
    ((s.setPrev b ptr).blks x).prev = if x = b then ptr else (s.blks x).prev := by
  simp only [setPrev, blks_modify]
  split <;> rfl

@[simp] theorem next_setPrev : ((s.setPrev b ptr).blks x).next = (s.blks x).next := by
  simp only [setPrev, blks_modify]
  split <;> simp_all

@[simp] theorem inCachesMask_setPrev :
    ((s.setPrev b ptr).blks x).inCachesMask = (s.blks x).inCachesMask := by
  simp only [setPrev, blks_modify]
  split <;> simp_all

theorem sameTags_modify {f : FALRUBlk p.numBlocks → FALRUBlk p.numBlocks}
    (hf : ∀ blk, (f blk).valid = blk.valid ∧ (f blk).tag = blk.tag ∧ (f blk).secure = blk.secure) :
    SameTags s (s.modify b f) := by
  refine ⟨fun x => ?_, fun x => ?_, fun x => ?_, rfl, rfl⟩
  all_goals
    rw [blks_modify]
    split
    next h => simp [h, hf]
    next => rfl

theorem sameTags_setNext : SameTags s (s.setNext b ptr) :=
  sameTags_modify s b fun _ => ⟨rfl, rfl, rfl⟩

theorem sameTags_setPrev : SameTags s (s.setPrev b ptr) :=
  sameTags_modify s b fun _ => ⟨rfl, rfl, rfl⟩

end Fields

theorem SameTags.trans {u : FALRU p} (h : SameTags s t) (h' : SameTags t u) : SameTags s u where
  valid b := (h'.valid b).trans (h.valid b)
  tag b := (h'.tag b).trans (h.tag b)
  secure b := (h'.secure b).trans (h.secure b)
  tagHash := h'.tagHash.trans h.tagHash
  hits := h'.hits.trans h.hits

theorem SameTags.ends (h : SameTags s t) (head tail : Fin p.numBlocks) :
    SameTags s { t with head := head, tail := tail } :=
  ⟨h.valid, h.tag, h.secure, h.tagHash, h.hits⟩

structure Unlinked (s t : FALRU p) (blk : Fin p.numBlocks) : Prop where
  next : ∀ x, (t.blks x).next =
    if (s.blks blk).prev = some x then (s.blks blk).next else (s.blks x).next
  prev : ∀ x, (t.blks x).prev =
    if (s.blks blk).next = some x then (s.blks blk).prev else (s.blks x).prev
  masks : ∀ x, (t.blks x).inCachesMask = (s.blks x).inCachesMask
  boundaries : t.boundaries = s.boundaries
  same : SameTags s t

theorem unlinked_between {before after : Fin p.numBlocks}
    (hpr : (s.blks blk).prev = some before) (hnx : (s.blks blk).next = some after) :
    Unlinked s ((s.setNext before (some after)).setPrev after (some before)) blk where
  next x := by
    rw [hpr, hnx]
    simp [eq_comm]
  prev x := by
    rw [hpr, hnx]
    simp [eq_comm]
  masks x := by simp
  boundaries := rfl
  same := (sameTags_setNext s before _).trans (sameTags_setPrev _ after _)

section

variable (hl : Listed s l)

include hl

theorem Listed.index_lt (hr : l[r]? = some blk) : r < p.numBlocks := by
  rw [← hl.length]
  exact (List.getElem?_eq_some_iff.mp hr).1

theorem Listed.prev_eq (hr : l[r + 1]? = some blk) : (s.blks blk).prev = l[r]? :=
  hl.linked.prev_succ hr

theorem Listed.next_eq (hr : l[r]? = some blk) : (s.blks blk).next = l[r + 1]? :=
  hl.linked.next_eq hr

theorem unlinkToHead_spec (hr : l[r + 1]? = some blk) :
    ∃ t, s.unlinkToHead blk = .ok t ∧ Unlinked s t blk ∧ t.head = s.head ∧
      (l.eraseIdx (r + 1))[p.numBlocks - 2]? = some t.tail := by
  have hrn := hl.index_lt hr
  obtain ⟨before, hb⟩ := hl.exists_getElem (q := r) (by omega)
  have hp : (s.blks blk).prev = some before := (hl.prev_eq hr).trans hb
  rw [getElem?_eraseIdx]
  by_cases ht : blk = s.tail
  · have hla : r + 1 = p.numBlocks - 1 := index_unique hl.linked.nodup (ht ▸ hr) hl.tail
    have hn : (s.blks blk).next = none := by
      rw [hl.next_eq hr, getElem?_eq_none (by rw [hl.length]; omega)]
    refine ⟨{ s.setNext before none with tail := before }, ?_, ⟨fun x => ?_, fun x => ?_, fun x => ?_,
      rfl, (sameTags_setNext s before none).ends _ _⟩, rfl, ?_⟩
    · rw [unlinkToHead, if_pos ht, if_neg (not_not.mpr hn), hp]
      rfl
    · rw [hp, hn]
      simp [eq_comm]
    · rw [hn]
      simp
    · simp
    · rw [if_pos (by omega), ← hb]
      congr 1
      omega
  · have hla : r + 1 ≠ p.numBlocks - 1 := fun h =>
      ht (some.inj ((h ▸ hr).symm.trans hl.tail))
    obtain ⟨after, haf⟩ := hl.exists_getElem (q := r + 1 + 1) (by omega)
    have hn : (s.blks blk).next = some after := (hl.next_eq hr).trans haf
    refine ⟨_, ?_, unlinked_between hp hn, rfl, ?_⟩
    · simp [unlinkToHead, ht, hp, hn, deref]
    · rw [if_neg (by omega), show p.numBlocks - 2 + 1 = p.numBlocks - 1 by omega]
      exact hl.tail

theorem unlinkToTail_spec (hr : l[r]? = some blk) (hrn : r < p.numBlocks - 1) :
    ∃ t, s.unlinkToTail blk = .ok t ∧ Unlinked s t blk ∧ t.tail = s.tail ∧
      (l.eraseIdx r)[0]? = some t.head := by
  obtain ⟨after, haf⟩ := hl.exists_getElem (q := r + 1) (by omega)
  have hn : (s.blks blk).next = some after := (hl.next_eq hr).trans haf
  cases r with
  | zero =>
    have hhd : blk = s.head := some.inj (hr.symm.trans hl.head)
    have hp : (s.blks blk).prev = none := hl.linked.prev_zero hr
    refine ⟨{ s.setPrev after none with head := after }, ?_, ⟨fun x => ?_, fun x => ?_, fun x => ?_,
      rfl, (sameTags_setPrev s after none).ends _ _⟩, rfl, ?_⟩
    · rw [unlinkToTail, if_pos hhd, if_neg (not_not.mpr hp), hn]
      rfl
    · rw [hp]
      simp
    · rw [hp, hn]
      simp [eq_comm]
    · simp
    · rw [getElem?_eraseIdx, if_neg (by omega), haf]
  | succ r =>
    have hhd : blk ≠ s.head := hl.linked.index_ne hr hl.head (by omega)
    obtain ⟨before, hbe⟩ := hl.exists_getElem (q := r) (by omega)
    have hp : (s.blks blk).prev = some before := (hl.prev_eq hr).trans hbe
    refine ⟨_, ?_, unlinked_between hp hn, rfl, ?_⟩
    · simp [unlinkToTail, hhd, hp, hn, deref]
    · rw [getElem?_eraseIdx]
      exact hl.head

/-- **`moveToHead`** moves the block to the front of the list and keeps the masks right. A boundary is
lost when its size is a single block. -/
theorem moveToHead_spec (hm : Masked s l) (hb : Bounded s l) (hr : l[r]? = some blk) :
    ∃ t, s.moveToHead blk = .ok t ∧ Listed t (blk :: l.eraseIdx r) ∧
      Masked t (blk :: l.eraseIdx r) ∧ SameTags s t ∧ ∀ i < p.numTrackedCaches,
        t.boundaries i = if r = 0 then s.boundaries i else headBoundary p l r i := by
  cases r with
  | zero =>
    have hhd : blk = s.head := some.inj (hr.symm.trans hl.head)
    have heq : blk :: l.eraseIdx 0 = l := by
      cases l with
      | nil => simp at hr
      | cons b l => simpa using hr.symm
    rw [heq]
    exact ⟨s, by rw [moveToHead, if_pos hhd], hl, hm, .refl s, fun i _ => by rw [if_pos rfl]⟩
  | succ r =>
    have hhd : blk ≠ s.head := hl.linked.index_ne hr hl.head (by omega)
    obtain ⟨masks, boundaries, htr, hma, hbo⟩ := moveBlockToHead_spec hl hm hb hr (by omega)
    have hlr : Listed (s.retrack masks boundaries) l := hl.retrack
    obtain ⟨t, hun, ht, hth, htt⟩ := unlinkToHead_spec hlr hr
    refine ⟨t.linkHead blk, ?_, ⟨?_, ?_, rfl, ?_⟩, fun q b hq i => ?_, ?_, fun i hi => ?_⟩
    · simp only [moveToHead, if_neg hhd, htr, hun, ok_bind]
    · convert hlr.linked.moveFront hl.head hr using 1
      · funext x
        simp [linkHead, nextFront, ht.next, hth, retrack]
      · funext x
        simp only [linkHead, prevFront, prev_setPrev, prev_setNext, ht.prev, hth, retrack]
        grind
    · rw [length_cons, length_eraseIdx, hl.length, if_pos (hl.index_lt hr)]
      omega
    · rw [show p.numBlocks - 1 = p.numBlocks - 2 + 1 by omega]
      exact htt
    · rw [← hma q b hq i]
      simp [linkHead, ht.masks]
    · exact sameTags_retrack.trans (ht.same.trans (((sameTags_setNext _ _ _).trans
        ((sameTags_setPrev _ _ _).trans (sameTags_setPrev _ _ _))).ends _ _))
    · rw [← hbo i hi]
      exact congrFun ht.boundaries i

theorem eraseIdx_append_tail : l.eraseIdx (p.numBlocks - 1) ++ [s.tail] = l := by
  have hta := hl.tail
  have hlen := hl.length
  obtain ⟨h, heq⟩ := List.getElem?_eq_some_iff.mp hta
  rw [← heq, eraseIdx_eq_take_drop_succ, drop_eq_nil_of_le (by omega), append_nil,
    take_append_getElem h, take_of_length_le (by omega)]

/-- **`moveToTail`** moves the block to the back of the list and keeps masks and boundaries right. -/
theorem moveToTail_spec (hm : Masked s l) (hb : Bounded s l) (hr : l[r]? = some blk) :
    ∃ t, s.moveToTail blk = .ok t ∧ Listed t (l.eraseIdx r ++ [blk]) ∧
      Masked t (l.eraseIdx r ++ [blk]) ∧ Bounded t (l.eraseIdx r ++ [blk]) ∧ SameTags s t ∧
      t.tail = blk := by
  have hrn := hl.index_lt hr
  by_cases ha : blk = s.tail
  · have hla : r = p.numBlocks - 1 := index_unique hl.linked.nodup (ha ▸ hr) hl.tail
    rw [hla, ha, eraseIdx_append_tail hl]
    exact ⟨s, by rw [moveToTail, if_pos rfl], hl, hm, hb, .refl s, rfl⟩
  · have hla : r ≠ p.numBlocks - 1 := fun h =>
      ha (some.inj ((h ▸ hr).symm.trans hl.tail))
    obtain ⟨masks, boundaries, htr, hma, hbo⟩ := moveBlockToTail_spec hl hm hb hr (by omega)
    have hlr : Listed (s.retrack masks boundaries) l := hl.retrack
    obtain ⟨t, hun, ht, htt, hth⟩ := unlinkToTail_spec hlr hr (by omega)
    have hle : (l.eraseIdx r).length = p.numBlocks - 1 := by
      rw [length_eraseIdx, hl.length, if_pos hrn]
    refine ⟨t.linkTail blk, ?_, ⟨?_, ?_, ?_, ?_⟩, fun q b hq i => ?_, fun i hi => ?_, ?_, rfl⟩
    · simp only [moveToTail, if_neg ha, htr, hun, ok_bind]
    · convert hlr.linked.moveBack hl.tail (by rw [hl.length]; omega) hr (by omega) using 1
      · funext x
        simp only [linkTail, nextBack, prevFront, next_setNext, next_setPrev, ht.next, htt, retrack]
        grind
      · funext x
        simp [linkTail, prevBack, nextFront, ht.prev, htt, retrack]
    · rw [length_append, length_singleton]
      omega
    · rw [getElem?_append_left (by omega)]
      exact hth
    · rw [← hle, getElem?_concat_length]
      rfl
    · rw [← hma q b hq i]
      simp [linkTail, ht.masks]
    · rw [← hbo i hi]
      exact congrFun ht.boundaries i
    · exact sameTags_retrack.trans (ht.same.trans (((sameTags_setPrev _ _ _).trans
        ((sameTags_setNext _ _ _).trans (sameTags_setNext _ _ _))).ends _ _))

end

end FALRU

end Gem5.Mem
