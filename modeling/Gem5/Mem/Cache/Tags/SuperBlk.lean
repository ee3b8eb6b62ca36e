import Gem5.Lib.System

/-!
# Gem5.Mem.Cache.Tags.SuperBlk

**Superblocks of a compressed cache** (`src/mem/cache/tags/super_blk.{hh,cc}` and
`CompressedTags::findVictim`). The blocks of a superblock share the data storage of one block. The
first one sets a compression factor, and the others are admitted as long as there are fewer blocks
than the factor and each fits in its share of the storage.

The shares add up when every block fits in its own (`SuperBlk.Inv`). The first block is not
admitted: its size gives the factor, and `alignToPowerOfTwo` rounds the quotient up.
-/

namespace Gem5.Mem

open Gem5.Lib Function Finset List Nat

/-! ### Compression factors -/

/-- `alignToPowerOfTwo`, in 64 bits. -/
def alignToPowerOfTwo (val : Nat) : Nat :=
  let val := (val + (2 ^ 64 - 1)) % 2 ^ 64
  let val := val ||| val >>> 1
  let val := val ||| val >>> 2
  let val := val ||| val >>> 4
  let val := val ||| val >>> 8
  let val := val ||| val >>> 16
  let val := val ||| val >>> 32
  (val + 1) % 2 ^ 64

/-- The parameters of the superblocks. The quotients of the sizes are computed in double precision,
and are exact for the block sizes that occur. -/
structure SuperBlkParams where
  blkSize : Nat
  numBlocksPerSector : Nat
  blkSize_le : 8 * blkSize ≤ 2 ^ 53

namespace SuperBlkParams

variable (p : SuperBlkParams)

/-- `CHAR_BIT * blkSize` -/
def blkSizeBits : Nat := 8 * p.blkSize

/-- `SuperBlk::calculateCompressionFactor`, returned as a `uint8_t`. -/
def calculateCompressionFactor (size : Nat) : Nat :=
  let compressionFactor :=
    if size > p.blkSizeBits then 1
    else if size = 0 then p.blkSizeBits
    else alignToPowerOfTwo (p.blkSizeBits / size)
  min compressionFactor p.numBlocksPerSector % 256

/-- The quotient of the size is not rounded up, or the number of blocks limits the factor. -/
def NotRoundedUp (size : Nat) : Prop :=
  size = 0 ∨ p.blkSizeBits < size ∨ (∃ k < 64, p.blkSizeBits / size = 2 ^ k) ∨
    p.numBlocksPerSector ≤ p.blkSizeBits / size

instance (size : Nat) : Decidable (p.NotRoundedUp size) :=
  inferInstanceAs (Decidable (_ ∨ _ ∨ (∃ k < 64, _) ∨ _))

end SuperBlkParams

/-! ### Superblocks -/

structure CompressionBlk where
  valid : Bool := false
  sizeBits : Nat := 0
  compressed : Bool := false
  deriving Repr, DecidableEq

/-- `SuperBlk`, with the tag and the secure bit of its `TaggedEntry`. -/
structure SuperBlk (p : SuperBlkParams) where
  tag : Nat × Bool := (0, false)
  blks : Fin p.numBlocksPerSector → CompressionBlk := fun _ => {}
  compressionFactor : Nat := 1

inductive OverwriteType
  | dataContraction
  | unchanged
  | dataExpansion
  deriving Repr, DecidableEq

inductive SuperBlkFault
  /-- "Overwriting valid sector!" -/
  | overwritingSector
  /-- The inserted block was not invalidated. -/
  | validBlock
  | noValidBlock
  deriving Repr, DecidableEq

namespace SuperBlk

variable {p : SuperBlkParams} (b : SuperBlk p)

def valid : Finset (Fin p.numBlocksPerSector) := Finset.univ.filter fun i => (b.blks i).valid

/-- `SectorBlk::getNumValid`: the counter is a `uint8_t`. -/
def getNumValid : Nat := b.valid.card % 256

/-- `SectorBlk::isValid` and `TaggedEntry::matchTag`. -/
def matchTag (tag : Nat × Bool) : Bool := 0 < b.getNumValid && b.tag = tag

/-- `SuperBlk::isCompressed`: the compression bit of the first valid block other than `ignored`. -/
def isCompressed (ignored : Option (Fin p.numBlocksPerSector)) : Bool :=
  match (List.finRange p.numBlocksPerSector).find? fun i => (b.blks i).valid && ignored ≠ some i with
  | some i => (b.blks i).compressed
  | none => true

def canCoAllocate (compressedSize : Nat) : Bool :=
  b.getNumValid < b.compressionFactor && compressedSize ≤ p.blkSizeBits / b.compressionFactor

def setCompressionFactor (factor : Nat) : SuperBlk p :=
  if b.getNumValid ≤ 1 then { b with compressionFactor := factor } else b

variable (i : Fin p.numBlocksPerSector)

def setBlk (blk : CompressionBlk) : SuperBlk p :=
  { b with blks := update b.blks i blk }

def setSizeBits (size : Nat) : Except SuperBlkFault (SuperBlk p) :=
  let factor := p.calculateCompressionFactor size
  let b := (b.setBlk i { b.blks i with sizeBits := size }).setCompressionFactor factor
  if b.getNumValid < 1 then .error .noValidBlock
  else
    let compressed := if b.getNumValid = 1 then factor ≠ 1 else b.isCompressed (some i)
    .ok (b.setBlk i { b.blks i with compressed := compressed })

def checkExpansionContraction (size : Nat) : OverwriteType :=
  let factor := p.calculateCompressionFactor size
  if factor < b.compressionFactor then .dataExpansion
  else if factor > b.compressionFactor then .dataContraction
  else .unchanged

/-- `CompressionBlk::invalidate`; the superblock is invalid with its last block. -/
def invalidateBlk : SuperBlk p :=
  let b := b.setBlk i { b.blks i with valid := false, compressed := false }
  if b.getNumValid = 0 then { b with compressionFactor := 1 } else b

/-- `SectorSubBlk::insert` and `setValid`. -/
def insertBlk (tag : Nat × Bool) : Except SuperBlkFault (SuperBlk p) :=
  if (b.blks i).valid then .error .validBlock
  else if 0 < b.getNumValid && b.tag ≠ tag then .error .overwritingSector
  else .ok { b.setBlk i { b.blks i with valid := true } with tag := tag }

def evictAll : SuperBlk p :=
  (List.finRange p.numBlocksPerSector).foldl
    (fun b i => if (b.blks i).valid then b.invalidateBlk i else b) b

end SuperBlk

/-! ### The tags -/

abbrev CompressedTags (p : SuperBlkParams) (k : Nat) := Fin k → SuperBlk p

variable {p : SuperBlkParams} {k : Nat}

/-- A block to allocate: its tag, its offset in the superblock, its compressed size, the superblocks
that may hold it, and the one that the replacement policy gives up. -/
structure Allocation (p : SuperBlkParams) (k : Nat) where
  tag : Nat × Bool
  offset : Fin p.numBlocksPerSector
  size : Nat
  entries : List (Fin k)
  victim : Fin k

/-- `CompressedTags::findVictim`: the superblock, and whether the block joins those that are there. -/
def CompressedTags.findVictim (t : CompressedTags p k) (a : Allocation p k) : Fin k × Bool :=
  match a.entries.find? fun e => (t e).matchTag a.tag && !((t e).blks a.offset).valid &&
      (t e).isCompressed none && (t e).canCoAllocate a.size with
  | some e => (e, true)
  | none => (a.victim, false)

inductive TagsCall (p : SuperBlkParams) (k : Nat)
  | allocate (a : Allocation p k)
  | update (e : Fin k) (i : Fin p.numBlocksPerSector) (size : Nat)
  | evict (e : Fin k) (i : Fin p.numBlocksPerSector)

namespace CompressedTags

variable (t : CompressedTags p k)

/-- `BaseCache::allocateBlock`: a victim that is not joined loses its blocks. -/
def allocateBlock (a : Allocation p k) : Except SuperBlkFault (CompressedTags p k) := do
  let (e, coAllocation) := t.findVictim a
  let b ← (if coAllocation then t e else (t e).evictAll).insertBlk a.offset a.tag
  let b ← b.setSizeBits a.offset a.size
  return update t e b

def step : TagsCall p k → Except SuperBlkFault (CompressedTags p k)
  | .allocate a => t.allocateBlock a
  | .update e i size => ((t e).setSizeBits i size).map fun b => update t e b
  | .evict e i => .ok (update t e ((t e).invalidateBlk i))

/-- Valid blocks are updated, without expansion or contraction, and evicted. -/
def pre : TagsCall p k → Prop
  | .allocate _ => True
  | .update e i size =>
    ((t e).blks i).valid ∧ (t e).checkExpansionContraction size = .unchanged
  | .evict e i => ((t e).blks i).valid

instance (c) : Decidable (t.pre c) := by
  cases c <;> dsimp only [pre] <;> infer_instance

/-- A size that gives the factor is not rounded up; a block that joins others may have any size
that is admitted. -/
def SizesFit : TagsCall p k → Prop
  | .allocate a => (t.findVictim a).2 = false → p.NotRoundedUp a.size
  | .update _ _ size => p.NotRoundedUp size
  | .evict _ _ => True

instance (c) : Decidable (t.SizesFit c) := by
  cases c <;> dsimp only [SizesFit] <;> infer_instance

end CompressedTags

def CompressedTags.empty (p : SuperBlkParams) (k : Nat) : CompressedTags p k := fun _ => {}

/-- The superblocks of a compressed cache, all of them empty at the start. -/
abbrev tagsSystem (p : SuperBlkParams) (k : Nat) :
    System (CompressedTags p k) (TagsCall p k) SuperBlkFault where
  init t := t = CompressedTags.empty p k
  step := CompressedTags.step
  pre := CompressedTags.pre

/-! ### Shares of the storage -/

theorem alignToPowerOfTwo_two_pow {j : Nat} (hj : j < 64) : alignToPowerOfTwo (2 ^ j) = 2 ^ j := by
  have hpos := Nat.two_pow_pos j
  have hlt : 2 ^ j < 2 ^ 64 := Nat.pow_lt_pow_right (by decide) hj
  have hsm : ∀ s, (2 ^ j - 1) ||| (2 ^ j - 1) >>> s = 2 ^ j - 1 := by
    intro s
    apply eq_of_testBit_eq
    intro i
    by_cases hi : i < j
    · simp [hi]
    · simp [show ¬s + i < j by omega]
  have hpr : (2 ^ j + (2 ^ 64 - 1)) % 2 ^ 64 = 2 ^ j - 1 := by omega
  simp only [alignToPowerOfTwo, hpr, hsm]
  omega

theorem SuperBlkParams.NotRoundedUp.le_share {size : Nat} (h : p.NotRoundedUp size)
    (hfac : 2 ≤ p.calculateCompressionFactor size) :
    size ≤ p.blkSizeBits / p.calculateCompressionFactor size := by
  have hm : p.calculateCompressionFactor size ≤ min (if size > p.blkSizeBits then 1
        else if size = 0 then p.blkSizeBits
        else alignToPowerOfTwo (p.blkSizeBits / size)) p.numBlocksPerSector := mod_le _ _
  rw [le_div_iff_mul_le (by omega)]
  rcases Nat.eq_zero_or_pos size with rfl | hpos
  · simp
  have hqu : p.calculateCompressionFactor size ≤ p.blkSizeBits / size := by
    rcases h with h | h | ⟨j, hj, h⟩ | h
    · omega
    · rw [if_pos h] at hm
      omega
    · have hl : ¬size > p.blkSizeBits := by
        intro hgt
        rw [div_eq_of_lt hgt] at h
        exact absurd h (Nat.ne_of_lt (Nat.two_pow_pos j))
      rw [if_neg hl, if_neg (by omega), h, alignToPowerOfTwo_two_pow hj] at hm
      omega
    · omega
  calc size * p.calculateCompressionFactor size ≤ size * (p.blkSizeBits / size) :=
        mul_le_mul_left _ hqu
    _ ≤ p.blkSizeBits := mul_div_le _ _

namespace SuperBlk

variable {b b' : SuperBlk p} {i : Fin p.numBlocksPerSector} {size : Nat}

/-- **Every block fits in its share**, and there are no more blocks than shares. -/
structure Inv (b : SuperBlk p) : Prop where
  factor_lt : b.compressionFactor < 256
  card_le : b.valid.card ≤ max 1 b.compressionFactor
  fits : 2 ≤ b.compressionFactor → ∀ i ∈ b.valid,
    (b.blks i).sizeBits ≤ p.blkSizeBits / b.compressionFactor

theorem mem_valid : i ∈ b.valid ↔ (b.blks i).valid := by simp [valid]

theorem Inv.getNumValid_eq (h : b.Inv) : b.getNumValid = b.valid.card := by
  have := h.factor_lt
  have := h.card_le
  rw [SuperBlk.getNumValid]
  omega

variable {blk : CompressionBlk} {j : Fin p.numBlocksPerSector} {tag : Nat × Bool}

theorem mem_valid_setBlk :
    j ∈ (b.setBlk i blk).valid ↔ if j = i then blk.valid = true else j ∈ b.valid := by
  rw [mem_valid, mem_valid, setBlk]
  by_cases hj : j = i
  · subst hj
    simp
  · simp [hj]

theorem sizeBits_setBlk :
    ((b.setBlk i blk).blks j).sizeBits = if j = i then blk.sizeBits else (b.blks j).sizeBits := by
  rw [setBlk]
  by_cases hj : j = i
  · subst hj
    simp
  · simp [hj]

theorem valid_setBlk_of_eq (h : blk.valid = (b.blks i).valid) :
    (b.setBlk i blk).valid = b.valid := by
  ext j
  rw [mem_valid_setBlk, h]
  split
  · rename_i hj
    rw [hj, mem_valid]
  · rfl

@[simp] theorem blks_setCompressionFactor (factor : Nat) :
    (b.setCompressionFactor factor).blks = b.blks := by
  unfold setCompressionFactor
  split <;> rfl

@[simp] theorem valid_setCompressionFactor (factor : Nat) :
    (b.setCompressionFactor factor).valid = b.valid := by
  rw [valid, valid, blks_setCompressionFactor]

theorem compressionFactor_setCompressionFactor (factor : Nat) :
    (b.setCompressionFactor factor).compressionFactor =
      if b.getNumValid ≤ 1 then factor else b.compressionFactor := by
  unfold setCompressionFactor
  split <;> rfl

theorem setSizeBits_spec (h : b.setSizeBits i size = .ok b') :
    b'.valid = b.valid ∧
      b'.compressionFactor =
        (if b.getNumValid ≤ 1 then p.calculateCompressionFactor size else b.compressionFactor) ∧
      ∀ j, (b'.blks j).sizeBits = if j = i then size else (b.blks j).sizeBits := by
  have hv : (b.setBlk i { b.blks i with sizeBits := size }).valid = b.valid :=
    valid_setBlk_of_eq rfl
  unfold setSizeBits at h
  dsimp only at h
  split at h
  · cases h
  cases h
  refine ⟨?_, ?_, fun j => ?_⟩
  · refine (valid_setBlk_of_eq ?_).trans ((valid_setCompressionFactor _).trans hv)
    rfl
  · refine (compressionFactor_setCompressionFactor _).trans ?_
    rw [getNumValid, hv]
    rfl
  · rw [sizeBits_setBlk, blks_setCompressionFactor, sizeBits_setBlk, sizeBits_setBlk]
    simp only [if_true]
    split <;> rfl

theorem invalidateBlk_spec : (b.invalidateBlk i).valid = b.valid.erase i ∧
    ((b.invalidateBlk i).compressionFactor = b.compressionFactor ∨
      (b.valid.erase i).card % 256 = 0 ∧ (b.invalidateBlk i).compressionFactor = 1) ∧
    ∀ j, ((b.invalidateBlk i).blks j).sizeBits = (b.blks j).sizeBits := by
  have hv : (b.setBlk i { b.blks i with valid := false, compressed := false }).valid =
      b.valid.erase i := by
    ext j
    rw [mem_valid_setBlk]
    split <;> simp_all
  have hsz : ∀ j, ((b.setBlk i { b.blks i with valid := false, compressed := false }).blks
      j).sizeBits = (b.blks j).sizeBits := by
    intro j
    rw [sizeBits_setBlk]
    split
    · rename_i hj
      rw [hj]
    · rfl
  unfold invalidateBlk
  dsimp only
  split
  · rename_i hl
    rw [getNumValid, hv] at hl
    exact ⟨hv, .inr ⟨hl, rfl⟩, hsz⟩
  · exact ⟨hv, .inl rfl, hsz⟩

theorem insertBlk_spec (h : b.insertBlk i tag = .ok b') :
    i ∉ b.valid ∧ b'.valid = insert i b.valid ∧ b'.compressionFactor = b.compressionFactor ∧
      ∀ j, (b'.blks j).sizeBits = (b.blks j).sizeBits := by
  unfold insertBlk at h
  split at h
  · cases h
  rename_i hnv
  split at h
  · cases h
  cases h
  refine ⟨fun hme => hnv (mem_valid.mp hme), ?_, rfl, fun j => ?_⟩
  · ext j
    refine (mem_valid_setBlk).trans ?_
    split <;> simp_all
  · refine (sizeBits_setBlk).trans ?_
    split
    · rename_i hj
      rw [hj]
    · rfl

theorem evictAll_valid (b : SuperBlk p) : b.evictAll.valid = ∅ := by
  -- The blocks visited are invalid, and those to come are all the valid ones.
  have hlo : ∀ (l : List (Fin p.numBlocksPerSector)) (b : SuperBlk p),
      (l.foldl (fun b i => if (b.blks i).valid then b.invalidateBlk i else b) b).valid =
        b.valid \ l.toFinset := by
    intro l
    induction l with
    | nil => simp
    | cons i l ih =>
      intro b
      rw [foldl_cons, ih, toFinset_cons]
      split
      · rw [invalidateBlk_spec.1]
        ext j
        simp only [mem_sdiff, mem_erase, mem_insert]
        tauto
      · rename_i hnv
        have hi : i ∉ b.valid := fun h => hnv (mem_valid.mp h)
        ext j
        simp only [mem_sdiff, mem_insert]
        constructor
        · rintro ⟨hj, hl⟩
          exact ⟨hj, fun h => h.elim (fun h => hi (h ▸ hj)) hl⟩
        · rintro ⟨hj, hl⟩
          exact ⟨hj, fun h => hl (.inr h)⟩
  rw [evictAll, hlo]
  ext j
  simp

/-! ### Every call keeps the shares -/

theorem Inv.alone (h : b.setSizeBits i size = .ok b') (hsz : p.NotRoundedUp size)
    (hv : b.valid = {i}) : b'.Inv := by
  obtain ⟨hv', hf, hsi⟩ := setSizeBits_spec h
  have hnu : b.getNumValid = 1 := by rw [getNumValid, hv, card_singleton]
  rw [hnu] at hf
  refine ⟨?_, ?_, fun htw j hj => ?_⟩
  · rw [hf]
    exact mod_lt _ (by decide)
  · rw [hv', hv]
    exact le_max_left _ _
  · rw [hv', hv, Finset.mem_singleton] at hj
    rw [hf] at htw ⊢
    rw [hsi, if_pos hj]
    exact hsz.le_share htw

theorem Inv.joins {b₁ : SuperBlk p} (hin : b.Inv) (hon : 0 < b.getNumValid)
    (hc : b.canCoAllocate size = true) (his : b.insertBlk i tag = .ok b₁)
    (h : b₁.setSizeBits i size = .ok b') : b'.Inv := by
  obtain ⟨hne, hv₁, hf₁, hs₁⟩ := insertBlk_spec his
  obtain ⟨hv', hf, hs⟩ := setSizeBits_spec h
  simp only [canCoAllocate, Bool.and_eq_true, decide_eq_true_eq] at hc
  obtain ⟨hro, hfi⟩ := hc
  rw [hin.getNumValid_eq] at hon hro
  have hlt := hin.factor_lt
  have hcr : b₁.valid.card = b.valid.card + 1 := by
    rw [hv₁, card_insert_of_notMem hne]
  have hnum : b₁.getNumValid = b.valid.card + 1 := by
    rw [getNumValid, hcr, mod_eq_of_lt (by omega)]
  rw [if_neg (by omega), hf₁] at hf
  refine ⟨by rw [hf]; exact hlt, ?_, fun htw j hj => ?_⟩
  · rw [hv', hcr]
    omega
  · rw [hf, hs]
    split
    · exact hfi
    · rename_i hj'
      rw [hv', hv₁, mem_insert] at hj
      rw [hs₁]
      exact hin.fits (hf ▸ htw) j (hj.resolve_left hj')

theorem Inv.update (hin : b.Inv) (hsz : p.NotRoundedUp size)
    (hs : b.checkExpansionContraction size = .unchanged) (h : b.setSizeBits i size = .ok b') :
    b'.Inv := by
  obtain ⟨hv', hf, hsi⟩ := setSizeBits_spec h
  have heq : p.calculateCompressionFactor size = b.compressionFactor := by
    unfold checkExpansionContraction at hs
    dsimp only at hs
    split at hs
    · cases hs
    split at hs
    · cases hs
    omega
  rw [heq, ite_self] at hf
  refine ⟨by rw [hf]; exact hin.factor_lt, by rw [hv', hf]; exact hin.card_le, fun ht j hj => ?_⟩
  rw [hf] at ht ⊢
  rw [hsi]
  split
  · rw [← heq] at ht ⊢
    exact hsz.le_share ht
  · exact hin.fits ht j (hv' ▸ hj)

theorem Inv.evict (hin : b.Inv) : (b.invalidateBlk i).Inv := by
  obtain ⟨hv, hf, hsi⟩ := invalidateBlk_spec
  have hle : (b.valid.erase i).card ≤ b.valid.card := card_le_card (erase_subset _ _)
  have hcar := hin.card_le
  have hlt := hin.factor_lt
  rcases hf with hf | ⟨hla, hf⟩
  · refine ⟨by rw [hf]; exact hlt, by rw [hv, hf]; omega, fun htw j hj => ?_⟩
    rw [hf] at htw ⊢
    rw [hsi]
    exact hin.fits htw j (Finset.mem_of_mem_erase (hv ▸ hj))
  · refine ⟨by rw [hf]; decide, by rw [hv, hf]; omega, fun htw => ?_⟩
    omega

theorem Inv.sum_le (hin : b.Inv) (hman : 1 < b.valid.card) :
    ∑ i ∈ b.valid, (b.blks i).sizeBits ≤ 8 * p.blkSize := by
  have hcar := hin.card_le
  have htw : 2 ≤ b.compressionFactor := by omega
  calc ∑ i ∈ b.valid, (b.blks i).sizeBits ≤ b.valid.card • (p.blkSizeBits / b.compressionFactor) :=
        sum_le_card_nsmul _ _ _ (hin.fits htw)
    _ ≤ b.compressionFactor * (p.blkSizeBits / b.compressionFactor) := by
        exact mul_le_mul_right _ (by omega)
    _ ≤ 8 * p.blkSize := mul_div_le _ _

end SuperBlk

/-! ### Runs -/

theorem CompressedTags.findVictim_cases (t : CompressedTags p k) (a : Allocation p k) :
    (∃ e, t.findVictim a = (e, true) ∧ 0 < (t e).getNumValid ∧ (t e).canCoAllocate a.size) ∨
      t.findVictim a = (a.victim, false) := by
  unfold findVictim
  split
  · rename_i e hf
    have ht := find?_some hf
    simp only [SuperBlk.matchTag, Bool.and_eq_true, decide_eq_true_eq] at ht
    exact .inl ⟨e, rfl, ht.1.1.1.1, ht.2⟩
  · exact .inr rfl

theorem CompressedTags.inv_step {t t' : CompressedTags p k} {c : TagsCall p k}
    (hi : ∀ e, (t e).Inv) (hpr : t.pre c) (hft : t.SizesFit c) (h : t.step c = .ok t') :
    ∀ e, (t' e).Inv := by
  -- A call changes one superblock.
  have hu : ∀ (e : Fin k) (b : SuperBlk p), b.Inv → ∀ e', (update t e b e').Inv := by
    intro e b hb e'
    by_cases he : e' = e
    · subst he
      rwa [update_self]
    · rw [update_of_ne he]
      exact hi e'
  cases c with
  | allocate a =>
    rcases t.findVictim_cases a with ⟨e, hf, hon, hca⟩ | hf
    · simp only [step, allocateBlock, hf] at h
      obtain ⟨b₁, hin, h⟩ := bind_eq_ok.mp h
      obtain ⟨b₂, hs, rfl⟩ := bind_ok.mp h
      exact hu e b₂ ((hi e).joins hon hca hin hs)
    · simp only [step, allocateBlock, hf] at h
      obtain ⟨b₁, hin, h⟩ := bind_eq_ok.mp h
      obtain ⟨b₂, hs, rfl⟩ := bind_ok.mp h
      refine hu a.victim b₂ (SuperBlk.Inv.alone hs (hft (by rw [hf])) ?_)
      rw [(SuperBlk.insertBlk_spec hin).2.1, if_neg Bool.false_ne_true, SuperBlk.evictAll_valid]
      rfl
  | update e i size =>
    obtain ⟨b, hs, rfl⟩ : ∃ b, (t e).setSizeBits i size = .ok b ∧ update t e b = t' := by
      cases hs : (t e).setSizeBits i size with
      | error f =>
        rw [step, hs] at h
        cases h
      | ok b =>
        rw [step, hs] at h
        exact ⟨b, rfl, Except.ok.inj h⟩
    exact hu e b ((hi e).update hft hpr.2 hs)
  | evict e i =>
    cases h
    exact hu e _ (hi e).evict

theorem CompressedTags.inv_of_reachable {t : CompressedTags p k}
    (h : ((tagsSystem p k).restrict CompressedTags.SizesFit).Reachable t) : ∀ e, (t e).Inv := by
  refine h.invariant (fun t => ∀ e, (t e).Inv) ?_ ?_
  · rintro t rfl e
    have hon : (empty p k e).compressionFactor = 1 := rfl
    have hn : (empty p k e).valid = ∅ := by simp [SuperBlk.valid, empty]
    refine ⟨by rw [hon]; decide, by rw [hn]; exact zero_le _, fun htwo => ?_⟩
    omega
  · rintro t c t' hin ⟨hpr, hfi⟩ hst
    exact inv_step hin hpr hfi hst

/-- **The blocks of a superblock fit in its storage.** In a run in which no size that gives a factor
has it rounded up, the sizes of the valid blocks of a superblock add up to at most the size of a
block, whenever there is more than one. -/
theorem superblock_fits {t : CompressedTags p k}
    (h : ((tagsSystem p k).restrict CompressedTags.SizesFit).Reachable t) (e : Fin k)
    (hmany : 1 < (t e).valid.card) : ∑ i ∈ (t e).valid, ((t e).blks i).sizeBits ≤ 8 * p.blkSize :=
  (CompressedTags.inv_of_reachable h e).sum_le hmany

def fourBlocks : SuperBlkParams := ⟨64, 4, by decide⟩

def allocationOf (offset : Fin 4) (size : Nat) : TagsCall fourBlocks 1 :=
  .allocate ⟨(1, false), offset, size, [0], 0⟩

/-- Four blocks of a quarter of the storage. -/
theorem superblock_fits_quarters :
    ∃ t : CompressedTags fourBlocks 1, 1 < (t 0).valid.card ∧
      ∑ i ∈ (t 0).valid, ((t 0).blks i).sizeBits ≤ 8 * 64 := by
  obtain ⟨t, ht, hm⟩ := System.Reachable.exists_of_leads
    (S := (tagsSystem fourBlocks 1).restrict CompressedTags.SizesFit)
    (p := fun t => 1 < (t 0).valid.card)
    [allocationOf 0 128, allocationOf 1 128, allocationOf 2 128, allocationOf 3 128]
    (.start rfl) (by decide +kernel)
  exact ⟨t, hm, superblock_fits ht 0 hm⟩

/-- **The factor is rounded up.** A block of 170 bits goes into storage of 512 bits three times, and
gets a factor of four. Three more blocks of a quarter of the storage join it. -/
theorem superblock_overflows :
    ∃ t : CompressedTags fourBlocks 1, (tagsSystem fourBlocks 1).Reachable t ∧
      1 < (t 0).valid.card ∧ 8 * 64 < ∑ i ∈ (t 0).valid, ((t 0).blks i).sizeBits :=
  System.Reachable.exists_of_leads
    [allocationOf 0 170, allocationOf 1 128, allocationOf 2 128, allocationOf 3 128]
    (.start rfl) (by decide +kernel)

end Gem5.Mem
