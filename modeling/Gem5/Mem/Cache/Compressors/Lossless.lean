import Gem5.Mem.Cache.Compressors.Dictionary

/-!
# Gem5.Mem.Cache.Compressors.Lossless

**The compressors of `Compressors.py`** that use a dictionary, with their pattern factories, and which
blocks they restore.

The match location of a pattern is a `uint8_t` when the pattern is decompressed. The patterns of
`CPack` match an entry anywhere in the dictionary, so a chunk whose best entry comes after the first
256 is decoded with another entry (`Cpack.decodes_iff`). The dictionary patterns of the other
compressors are bound to one of the first two entries, or keep the whole word.

`BaseDelta` starts with a zero base. A block with as many chunks as the dictionary has entries does
not fit when each chunk is a new base (`BaseDelta.fits_iff`).
-/

namespace Gem5.Mem.Compressors

open Gem5.Lib Nat PatternKind Pattern

/-! ### The pattern factories -/

def cpackPatterns : List (PatternInfo 32) :=
  [⟨.maskedValue 0 0xFFFFFFFF, 2, false, true, false⟩,
   ⟨.masked 0xFFFFFFFF, 6, true, true, false⟩,
   ⟨.maskedValue 0 0xFFFFFF00, 4, false, true, false⟩,
   ⟨.masked 0xFFFFFF00, 8, true, true, false⟩,
   ⟨.masked 0xFFFF0000, 8, true, true, false⟩]

/-- The patterns of `FPC`. They have no match location. -/
def fpcPatterns : List (PatternInfo 32) :=
  [⟨.maskedValue 0 0xFFFFFFFF, 3, false, false, true⟩,
   ⟨.signExtended 4, 3, false, false, false⟩,
   ⟨.signExtended 8, 3, false, false, false⟩,
   ⟨.signExtended 16, 3, false, false, false⟩,
   ⟨.maskedValue 0 0x0000FFFF, 3, false, false, false⟩,
   ⟨.signExtendedTwoHalfwords, 3, false, false, false⟩,
   ⟨.repeatedValue 8, 3, false, false, false⟩]

/-- A pattern of `FPCD`: they all have a prefix of four bits and allocate. -/
def fpcdPattern (kind : PatternKind 32) : PatternInfo 32 := ⟨kind, 4, true, true, false⟩

/-- The patterns of `FPCD`. The previous word is at index one, the penultimate one at index zero. -/
def fpcdPatterns : List (PatternInfo 32) :=
  [fpcdPattern (.maskedValue 0 0xFFFFFFFF),
   fpcdPattern (.maskedValue 0xFFFFFFFF 0xFFFFFFFF),
   fpcdPattern (.locatedMasked 0xFFFFFFFF 1),
   fpcdPattern (.locatedMasked 0xFFFFFFFF 0),
   fpcdPattern (.maskedValue 0 0xFFFFFF00),
   fpcdPattern (.maskedValue 0 0x00FFFFFF),
   fpcdPattern (.repeatedValue 8),
   fpcdPattern (.locatedMasked 0xFFFFFF00 1),
   fpcdPattern (.locatedMasked 0xFFFFFF00 0),
   fpcdPattern (.maskedValue 0 0xFFFF0000),
   fpcdPattern (.maskedValue 0 0xFF00FF00),
   fpcdPattern (.maskedValue 0xFFFFFFFF 0xFFFF0000),
   fpcdPattern (.maskedValue 0 0x0000FFFF),
   fpcdPattern (.locatedMasked 0xFFFF0000 1),
   fpcdPattern (.locatedMasked 0xFFFF0000 0)]

def repeatedQwordsPatterns : List (PatternInfo 64) :=
  [⟨.locatedMasked 0xFFFFFFFFFFFFFFFF 0, 0, false, true, false⟩]

/-- The patterns of `BaseDelta<BaseType, DeltaSizeBits>`. -/
def baseDeltaPatterns (w deltaSizeBits : Nat) : List (PatternInfo w) :=
  [⟨.delta deltaSizeBits, 1, false, true, false⟩]

def zeroPatterns : List (PatternInfo 64) :=
  [⟨.maskedValue 0 0xFFFFFFFFFFFFFFFF, 0, false, true, false⟩]

/-! ### The compressors -/

/-- The compressors of `Compressors.py` that use a dictionary. -/
inductive CompressorClass
  | cpack
  | fpc (zeroRunBits : Nat)
  | fpcd
  | repeatedQwords
  | base64Delta8
  | base64Delta16
  | base64Delta32
  | base32Delta8
  | base32Delta16
  | base16Delta8
  | zero
  deriving Repr, DecidableEq

namespace CompressorClass

def chunkSizeBits : CompressorClass → Nat
  | cpack | fpc _ | fpcd | base32Delta8 | base32Delta16 => 32
  | repeatedQwords | base64Delta8 | base64Delta16 | base64Delta32 | zero => 64
  | base16Delta8 => 16

def deltaSizeBits : CompressorClass → Option Nat
  | base64Delta8 | base32Delta8 | base16Delta8 => some 8
  | base64Delta16 | base32Delta16 => some 16
  | base64Delta32 => some 32
  | _ => none

end CompressorClass

/-- `BaseDelta<BaseType, DeltaSizeBits>`. -/
def baseDelta {w n : Nat} (hword : n * w = 64) (deltaSizeBits dictionarySize blkSize : Nat) :
    DictionaryCompressor w where
  subclass := .baseDelta
  patterns := baseDeltaPatterns w deltaSizeBits
  uncompressedLength := 1 + deltaSizeBits
  dictionarySize := dictionarySize
  blkSize := blkSize
  numChunksPer64 := n
  word_bits := hword
  wellFormed := by simp [baseDeltaPatterns, PatternKind.WellFormed, PatternKind.usesDictionary]

def cpack (dictionarySize blkSize : Nat) : DictionaryCompressor 32 where
  subclass := .cpack
  patterns := cpackPatterns
  uncompressedLength := 2
  dictionarySize := dictionarySize
  blkSize := blkSize
  numChunksPer64 := 2
  word_bits := rfl
  wellFormed := by decide

def fpc (zeroRunBits dictionarySize blkSize : Nat) : DictionaryCompressor 32 where
  subclass := .fpc zeroRunBits
  patterns := fpcPatterns
  uncompressedLength := 3
  uncompressedLocated := false
  dictionarySize := dictionarySize
  blkSize := blkSize
  numChunksPer64 := 2
  word_bits := rfl
  wellFormed := by decide

def fpcd (dictionarySize blkSize : Nat) : DictionaryCompressor 32 where
  subclass := .fpcd
  patterns := fpcdPatterns
  uncompressedLength := 4
  dictionarySize := dictionarySize
  blkSize := blkSize
  numChunksPer64 := 2
  word_bits := rfl
  wellFormed := by decide

def repeatedQwords (dictionarySize blkSize : Nat) : DictionaryCompressor 64 where
  subclass := .repeatedQwords
  patterns := repeatedQwordsPatterns
  uncompressedLength := 0
  dictionarySize := dictionarySize
  blkSize := blkSize
  numChunksPer64 := 1
  word_bits := rfl
  wellFormed := by decide

def zero (dictionarySize blkSize : Nat) : DictionaryCompressor 64 where
  subclass := .zero
  patterns := zeroPatterns
  uncompressedLength := 0
  dictionarySize := dictionarySize
  blkSize := blkSize
  numChunksPer64 := 1
  word_bits := rfl
  wellFormed := by decide

def CompressorClass.compressor (cacheLineSize blkSize : Nat) :
    (k : CompressorClass) → DictionaryCompressor k.chunkSizeBits
  | cpack => Compressors.cpack cacheLineSize blkSize
  | fpc zeroRunBits => Compressors.fpc zeroRunBits 1 blkSize
  | fpcd => Compressors.fpcd 2 blkSize
  | repeatedQwords => Compressors.repeatedQwords cacheLineSize blkSize
  | base64Delta8 => baseDelta (n := 1) rfl 8 cacheLineSize blkSize
  | base64Delta16 => baseDelta (n := 1) rfl 16 cacheLineSize blkSize
  | base64Delta32 => baseDelta (n := 1) rfl 32 cacheLineSize blkSize
  | base32Delta8 => baseDelta (n := 2) rfl 8 cacheLineSize blkSize
  | base32Delta16 => baseDelta (n := 2) rfl 16 cacheLineSize blkSize
  | base16Delta8 => baseDelta (n := 4) rfl 8 cacheLineSize blkSize
  | zero => Compressors.zero cacheLineSize blkSize

open DictionaryCompressor

/-! ### `CPack` -/

namespace Cpack

/-- A word that fits a byte. `CPack` does not put it in its dictionary. -/
def isByte (x : BitVec 32) : Bool := x &&& 0xFFFFFF00 = 0

/-- How many bytes of a word the patterns of `CPack` find in an entry. -/
def sharedBytes (x e : BitVec 32) : Nat :=
  if x = e then 4
  else if x &&& 0xFFFFFF00 = e &&& 0xFFFFFF00 then 3
  else if x &&& 0xFFFF0000 = e &&& 0xFFFF0000 then 2
  else 0

def sharedPattern : Nat → PatternInfo 32
  | 4 => ⟨.masked 0xFFFFFFFF, 6, true, true, false⟩
  | 3 => ⟨.masked 0xFFFFFF00, 8, true, true, false⟩
  | 2 => ⟨.masked 0xFFFF0000, 8, true, true, false⟩
  | _ => ⟨.uncompressed, 2, true, true, false⟩

theorem located_shared (n : Nat) : (sharedPattern n).located := by
  unfold sharedPattern
  split <;> rfl

theorem allocate_shared (n : Nat) : (sharedPattern n).allocate := by
  unfold sharedPattern
  split <;> rfl

variable {D B : Nat}

theorem and_full (x : BitVec 32) : x &&& 0xFFFFFFFF = x := BitVec.and_allOnes

variable {x e : BitVec 32} {dict : List (BitVec 32)} {loc : Int}

theorem not_zero_pattern (hx : isByte x = false) :
    ((0 : BitVec 32) &&& 0xFFFFFFFF = x &&& 0xFFFFFFFF ↔ False) ∧
      ((0 : BitVec 32) &&& 0xFFFFFF00 = x &&& 0xFFFFFF00 ↔ False) := by
  have hby : x &&& 0xFFFFFF00 ≠ 0 := of_decide_eq_false hx
  refine ⟨iff_false_intro fun h => hby ?_, iff_false_intro fun h => hby ?_⟩
  · rw [and_full, and_full] at h
    rw [← h]
    rfl
  · rw [← h]
    rfl

theorem getPattern_none (hx : isByte x = false) :
    (cpack D B).getPattern x 0 (-1) = (sharedPattern 0).create x (-1) := by
  obtain ⟨hword, hby⟩ := not_zero_pattern hx
  have hlo : (0 : Int) ≤ -1 ↔ False := by decide
  simp only [getPattern, cpack, cpackPatterns, List.find?_cons, isPattern, hword,
    hby, hlo, decide_false, List.find?_nil]
  rfl

theorem getPattern_entry (hx : isByte x = false) (e : BitVec 32) (i : Nat) :
    (cpack D B).getPattern x e i = (sharedPattern (sharedBytes x e)).create x i := by
  obtain ⟨hword, hby⟩ := not_zero_pattern hx
  have hlo : (0 : Int) ≤ i ↔ True := iff_true_intro (Int.natCast_nonneg i)
  have hfl : x &&& 0xFFFFFFFF = e &&& 0xFFFFFFFF ↔ x = e := by rw [and_full, and_full]
  simp only [getPattern, cpack, cpackPatterns, List.find?_cons, isPattern, hword,
    hby, hlo, decide_false, decide_true, Bool.true_and, hfl]
  unfold sharedBytes
  by_cases h4 : x = e
  · simp only [h4, if_true]
    rfl
  by_cases h3 : x &&& 0xFFFFFF00 = e &&& 0xFFFFFF00
  · simp only [h4, h3, decide_true, if_true, if_false]
    rfl
  by_cases h2 : x &&& 0xFFFF0000 = e &&& 0xFFFF0000
  · simp only [h4, h3, h2, decide_true, if_true, if_false]
    rfl
  · simp only [h4, h3, h2, if_false]
    rfl

theorem sharedBytes_mem (x e : BitVec 32) : sharedBytes x e ∈ [4, 3, 2, 0] := by
  unfold sharedBytes
  split_ifs <;> decide

theorem size_lt_iff {a b : Nat} (ha : a ∈ [4, 3, 2, 0]) (hb : b ∈ [4, 3, 2, 0]) (x : BitVec 32)
    (i j : Int) :
    ((sharedPattern a).create x i).getSizeBits < ((sharedPattern b).create x j).getSizeBits ↔
      b < a := by
  have hta : ∀ a ∈ [4, 3, 2, 0], ∀ b ∈ [4, 3, 2, 0],
      ((sharedPattern a).kind.numUnmatchedBits + (sharedPattern a).length <
        (sharedPattern b).kind.numUnmatchedBits + (sharedPattern b).length ↔ b < a) := by
    decide +kernel
  have hpl : ∀ a ∈ [4, 3, 2, 0], (sharedPattern a).zeroRun = false := by decide
  simp only [getSizeBits, PatternInfo.create, hpl a ha, hpl b hb]
  exact hta a ha b hb

theorem info_byte (hx : isByte x = true) (h : loc < 0 ∨ e ≠ x) :
    ((cpack D B).getPattern x e loc).info =
      if x = 0 then ⟨.maskedValue 0 0xFFFFFFFF, 2, false, true, false⟩
      else ⟨.maskedValue 0 0xFFFFFF00, 4, false, true, false⟩ := by
  have hby : (0 : BitVec 32) &&& 0xFFFFFF00 = x &&& 0xFFFFFF00 ↔ True :=
    iff_true_intro (of_decide_eq_true hx).symm
  have hword : (0 : BitVec 32) &&& 0xFFFFFFFF = x &&& 0xFFFFFFFF ↔ x = 0 := by
    rw [and_full, and_full, eq_comm]
  have hen : (decide (0 ≤ loc) && decide (x &&& 0xFFFFFFFF = e &&& 0xFFFFFFFF)) = false := by
    rw [and_full, and_full, Bool.and_eq_false_iff, decide_eq_false_iff_not, decide_eq_false_iff_not,
      Int.not_le]
    exact h.imp_right Ne.symm
  simp only [getPattern, cpack, cpackPatterns, List.find?_cons, isPattern, hword, hen, hby]
  by_cases hz : x = 0
  · simp only [hz, if_true]
    rfl
  · simp only [hz, if_false]
    rfl

theorem bestPattern_byte (hx : isByte x = true) (hdi : ∀ e ∈ dict, isByte e = false) :
    (cpack D B).bestPattern dict x = (cpack D B).getPattern x 0 (-1) := by
  have hsz : ∀ p q : Pattern 32, p.info = q.info → p.info.zeroRun = false →
      p.getSizeBits = q.getSizeBits := by
    intro p q hin hpl
    rw [getSizeBits, getSizeBits, ← hin, hpl]
    rfl
  rcases bestOf_cases getSizeBits ((cpack D B).getPattern x 0 (-1))
    (fun i => (cpack D B).getPattern x (dict.getD i 0) i) dict.length
    with ⟨h, -⟩ | ⟨i, hi, -, hlt, -⟩
  · exact h
  · have hn : dict.getD i 0 ≠ x := by
      rw [List.getD_eq_getElem _ _ hi]
      intro heq
      have := hdi _ (List.getElem_mem hi)
      rw [heq, hx] at this
      exact nomatch this
    have hen : ((cpack D B).getPattern x (dict.getD i 0) i).info = _ := info_byte hx (.inr hn)
    have hno : ((cpack D B).getPattern x 0 (-1)).info = _ := info_byte hx (.inl (by decide))
    refine absurd (hsz _ _ (hen.trans hno.symm) ?_) hlt.ne
    rw [hen]
    split <;> rfl

theorem allocate_byte (hx : isByte x = true) :
    ((cpack D B).getPattern x 0 (-1)).info.allocate = false := by
  rw [info_byte hx (.inl (by decide))]
  split <;> rfl

theorem allocate_word (hx : isByte x = false) (dict : List (BitVec 32)) :
    ((cpack D B).bestPattern dict x).info.allocate := by
  rcases bestPattern_cases dict x with h | ⟨i, -, h⟩ <;> rw [h]
  · rw [getPattern_none hx]
    exact allocate_shared 0
  · rw [getPattern_entry hx]
    exact allocate_shared _

/-- **The dictionary of `CPack`** after some chunks: the chunks that do not fit a byte. -/
theorem foldl_after (hd : ∀ e ∈ dict, isByte e = false) (chunks : List (BitVec 32)) :
    chunks.foldl (cpack D B).after dict = dict ++ chunks.filter (!isByte ·) := by
  induction chunks generalizing dict with
  | nil => simp
  | cons x chunks ih =>
    cases hx : isByte x with
    | true =>
      have haf : (cpack D B).after dict x = dict := by
        rw [after, bestPattern_byte hx hd, update, allocate_byte hx]
        rfl
      rw [List.foldl_cons, haf, ih hd]
      simp [hx]
    | false =>
      have haf : (cpack D B).after dict x = dict ++ [x] := by
        rw [after, update, allocate_word hx]
        rfl
      rw [List.foldl_cons, haf, ih]
      · simp [hx]
      · simpa [or_imp, forall_and] using ⟨hd, hx⟩

def BestIsNear (dict : List (BitVec 32)) (x : BitVec 32) : Prop :=
  ∀ e ∈ dict, 0 < sharedBytes x e → ∃ e' ∈ dict.take 256, sharedBytes x e ≤ sharedBytes x e'

theorem sharedBytes_le_of_decompress {d : BitVec 32} (hsh : 0 < sharedBytes x e)
    (h : ((sharedPattern (sharedBytes x e)).create x loc).decompress d = x) :
    sharedBytes x e ≤ sharedBytes x d := by
  have hma : ∀ mask : BitVec 32, (x &&& ~~~mask) ||| (d &&& mask) = x →
      x &&& mask = d &&& mask := by
    intro mask he
    rw [← he]
    ext i hi
    cases hm : mask[i] <;> simp [hm]
  by_cases h4 : x = e
  · have hv : sharedBytes x e = 4 := if_pos h4
    rw [hv] at h ⊢
    have he := hma 0xFFFFFFFF h
    rw [and_full, and_full] at he
    rw [sharedBytes, if_pos he]
  by_cases h3 : x &&& 0xFFFFFF00 = e &&& 0xFFFFFF00
  · have hv : sharedBytes x e = 3 := by rw [sharedBytes, if_neg h4, if_pos h3]
    rw [hv] at h ⊢
    rw [sharedBytes, if_pos (hma 0xFFFFFF00 h)]
    split <;> decide
  by_cases h2 : x &&& 0xFFFF0000 = e &&& 0xFFFF0000
  · have hv : sharedBytes x e = 2 := by rw [sharedBytes, if_neg h4, if_neg h3, if_pos h2]
    rw [hv] at h ⊢
    rw [sharedBytes, if_pos (hma 0xFFFF0000 h)]
    split_ifs <;> decide
  · rw [sharedBytes, if_neg h4, if_neg h3, if_neg h2] at hsh
    exact nomatch hsh

theorem mem_take_of_lt {i : Nat} (hi : i < dict.length) (hnea : i < 256) :
    dict.getD i 0 ∈ dict.take 256 := by
  rw [List.getD_eq_getElem _ _ hi]
  exact List.mem_take_iff_getElem.mpr ⟨i, by omega, rfl⟩

/-- **`CPack` decodes a word** exactly when its best entry is one of the first 256. -/
theorem decodes_iff (stray : Nat → BitVec 32) (hx : isByte x = false) (dict : List (BitVec 32)) :
    (cpack D B).Decodes stray dict x ↔ BestIsNear dict x := by
  have hn : (0 : Nat) ∈ [4, 3, 2, 0] := by decide
  have hm : ∀ i, sharedBytes x (dict.getD i 0) ∈ [4, 3, 2, 0] := fun i => sharedBytes_mem x _
  rcases bestOf_cases getSizeBits ((cpack D B).getPattern x 0 (-1))
    (fun i => (cpack D B).getPattern x (dict.getD i 0) i) dict.length
    with ⟨hb, hl⟩ | ⟨i, hi, hb, hlt, hbe, hl⟩
  · simp only [getPattern_entry hx, getPattern_none hx, ← not_lt, size_lt_iff (hm _) hn] at hl
    refine iff_of_true ?_ fun e he hp => ?_
    · exact (congrArg _ hb).trans (decoded_unmatched stray dict x)
    · obtain ⟨j, hj, rfl⟩ := List.getElem_of_mem he
      rw [← List.getD_eq_getElem _ 0 hj] at hp
      exact absurd hp (hl j hj)
  · simp only [getPattern_entry hx, getPattern_none hx, ← not_lt,
      size_lt_iff (hm _) hn, size_lt_iff (hm _) (hm _)] at hlt hbe hl
    by_cases hne : i < 256
    · refine iff_of_true ?_ fun e he _ => ⟨_, mem_take_of_lt hi hne, ?_⟩
      · exact (congrArg _ hb).trans (decoded_matched stray hi x (.inl hne))
      · obtain ⟨j, hj, rfl⟩ := List.getElem_of_mem he
        rw [← List.getD_eq_getElem _ 0 hj]
        exact not_lt.mp (hl j hj)
    · refine iff_of_false (fun hd => ?_) fun h => ?_
      · -- The location is truncated, to an entry that the search had passed over.
        have hwr : i % 256 < i := by omega
        rw [Decodes, show (cpack D B).bestPattern dict x = _ from hb, getPattern_entry hx, decoded,
          getMatchLocation_create (located_shared _),
          entryAt_of_lt _ _ (hwr.trans hi)] at hd
        exact absurd (sharedBytes_le_of_decompress hlt hd) (not_le.mpr (hbe _ hwr))
      · obtain ⟨e', he', hle⟩ := h (dict.getD i 0)
          (by rw [List.getD_eq_getElem _ _ hi]; exact List.getElem_mem hi) hlt
        obtain ⟨j, hj, rfl⟩ := List.mem_take_iff_getElem.mp he'
        rw [← List.getD_eq_getElem _ 0] at hle
        exact absurd hle (not_le.mpr (hbe j (by omega)))

/-- **When `CPack` restores a block**: the best entry for each word is one of the first 256. -/
def Near (chunks : List (BitVec 32)) : Prop :=
  ∀ pre x, pre ++ [x] <+: chunks → isByte x = false → BestIsNear (pre.filter (!isByte ·)) x

theorem allDecode_iff (stray : Nat → BitVec 32) (chunks : List (BitVec 32)) :
    (cpack D B).AllDecode stray [] chunks ↔ Near chunks := by
  have hwo : ∀ pre : List (BitVec 32), ∀ e ∈ pre.filter (!isByte ·), isByte e = false := by
    simp
  refine forall_congr' fun pre => forall_congr' fun x => imp_congr_right fun _ => ?_
  rw [foldl_after (by simp), List.nil_append]
  cases hx : isByte x with
  | true =>
    refine iff_of_true ?_ fun h => nomatch h
    rw [Decodes, bestPattern_byte hx (hwo pre)]
    exact decoded_unmatched stray _ x
  | false => exact (decodes_iff stray hx _).trans (by simp)

end Cpack

/-! ### The base-delta compressors -/

namespace BaseDelta

variable {w n d D B : Nat} {hword : n * w = 64} {chunks : List (BitVec w)}

theorem info_base (x base : BitVec w) (i : Nat) :
    ((baseDelta hword d D B).getPattern x base i).info =
      if isValidDelta d x base then ⟨.delta d, 1, false, true, false⟩
      else ⟨.uncompressed, 1 + d, true, true, false⟩ := by
  have hlo : (delta d).isPattern x base (i : Int) = isValidDelta d x base := by
    simp [isPattern]
  simp only [getPattern, baseDelta, baseDeltaPatterns, List.find?_cons, hlo]
  cases isValidDelta d x base <;> rfl

theorem size_base (x base : BitVec w) (i : Nat) :
    ((baseDelta hword d D B).getPattern x base i).getSizeBits =
      if isValidDelta d x base then d + 1 else w + (1 + d) := by
  rw [getSizeBits, info_base]
  split <;> rfl

/-- A chunk becomes a new base exactly when it is close to none of the bases. -/
theorem allocate_iff (dict : List (BitVec w)) (x : BitVec w) :
    ((baseDelta hword d D B).bestPattern dict x).info.allocate ↔
      ∀ base ∈ dict, isValidDelta d x base = false := by
  have hw : 0 < w := (numChunksPer64_pos (c := baseDelta hword d D B)).2
  have hno : ((baseDelta hword d D B).getPattern x 0 (-1)).getSizeBits = w + (1 + d) := rfl
  rcases bestOf_cases getSizeBits ((baseDelta hword d D B).getPattern x 0 (-1))
    (fun i => (baseDelta hword d D B).getPattern x (dict.getD i 0) i) dict.length
    with ⟨hb, hle⟩ | ⟨i, hi, hb, hlt, -⟩
  · refine iff_of_true (congrArg (·.info.allocate) hb) fun base hba => ?_
    obtain ⟨j, hj, rfl⟩ := List.getElem_of_mem hba
    have hl := hle j hj
    rw [size_base, List.getD_eq_getElem _ _ hj] at hl
    split at hl
    · omega
    · rename_i hv
      exact Bool.eq_false_iff.mpr hv
  · have hv : isValidDelta d x (dict.getD i 0) := by
      rw [size_base] at hlt
      split at hlt
      · assumption
      · exact absurd hlt (lt_irrefl _)
    refine iff_of_false ?_ fun h => ?_
    · rw [show (baseDelta hword d D B).bestPattern dict x = _ from hb, info_base, if_pos hv]
      exact Bool.false_ne_true
    · rw [List.getD_eq_getElem _ _ hi, h _ (List.getElem_mem hi)] at hv
      exact nomatch hv

/-- Every chunk is a new base: it is close neither to zero nor to an earlier chunk. -/
def AllNew (deltaSizeBits : Nat) (chunks : List (BitVec w)) : Prop :=
  ∀ pre x, pre ++ [x] <+: chunks → ∀ base ∈ 0 :: pre, isValidDelta deltaSizeBits x base = false

theorem allNew_concat {x : BitVec w} :
    AllNew d (chunks ++ [x]) ↔
      AllNew d chunks ∧ ∀ base ∈ 0 :: chunks, isValidDelta d x base = false := by
  constructor
  · intro h
    exact ⟨fun pre y hp => h pre y (hp.trans (List.prefix_append _ _)), h chunks x List.prefix_rfl⟩
  · rintro ⟨hch, hx⟩ pre y hp
    rcases List.prefix_concat_iff.mp hp with heq | hp
    · obtain ⟨rfl, hy⟩ := List.append_inj' heq rfl
      obtain rfl := List.singleton_inj.mp hy
      exact hx
    · exact hch pre y hp

theorem bases_of_chunks (chunks : List (BitVec w)) :
    (AllNew d chunks → chunks.foldl (baseDelta hword d D B).after [0] = 0 :: chunks) ∧
      (¬AllNew d chunks →
        (chunks.foldl (baseDelta hword d D B).after [0]).length ≤ chunks.length) := by
  induction chunks using List.reverseRecOn with
  | nil => exact ⟨fun _ => rfl, fun h => absurd (fun pre x hpr => by simp at hpr) h⟩
  | append_singleton chunks x ih =>
    obtain ⟨hal, hno⟩ := ih
    have haf : ∀ dict, (baseDelta hword d D B).after dict x =
        if ((baseDelta hword d D B).bestPattern dict x).info.allocate then dict ++ [x]
        else dict := fun dict => rfl
    rw [List.foldl_append, List.foldl_cons, List.foldl_nil, haf, allNew_concat]
    by_cases hn : AllNew d chunks
    · rw [hal hn]
      simp only [hn, true_and, allocate_iff]
      refine ⟨fun h => by rw [if_pos h]; rfl, fun h => by rw [if_neg h]; simp⟩
    · refine ⟨fun h => absurd h.1 hn, fun _ => ?_⟩
      have hle := hno hn
      split <;> simp only [List.length_append, List.length_singleton] <;> omega

/-- **When the bases fit**: there is an entry more than there are chunks, or some chunk is close to
zero or to an earlier chunk. -/
theorem fits_iff (hl : chunks.length ≤ D) :
    (chunks.foldl (baseDelta hword d D B).after [0]).length ≤ D ↔
      chunks.length < D ∨ ¬AllNew d chunks := by
  obtain ⟨hal, hno⟩ := bases_of_chunks (D := D) (B := B) chunks
  by_cases hn : AllNew d chunks
  · rw [hal hn]
    simp [hn]
  · exact iff_of_true ((hno hn).trans hl) (.inr hn)

theorem bestPattern_zero (x : BitVec w) :
    (baseDelta hword d D B).bestPattern [0] x =
      if isValidDelta d x 0 then (baseDelta hword d D B).getPattern x 0 (0 : Nat)
      else (baseDelta hword d D B).getPattern x 0 (-1) := by
  have hw : 0 < w := (numChunksPer64_pos (c := baseDelta hword d D B)).2
  have hn : ((baseDelta hword d D B).getPattern x 0 (-1)).getSizeBits = w + (1 + d) := rfl
  have hbe : (baseDelta hword d D B).bestPattern [0] x =
      if ((baseDelta hword d D B).getPattern x 0 (0 : Nat)).getSizeBits <
          ((baseDelta hword d D B).getPattern x 0 (-1)).getSizeBits then
        (baseDelta hword d D B).getPattern x 0 (0 : Nat)
      else (baseDelta hword d D B).getPattern x 0 (-1) := rfl
  rw [hbe, size_base, hn]
  cases isValidDelta d x 0 with
  | false => simp
  | true => simp; omega

theorem locations_zero (hD : D < 256) (hpo : 0 < D) :
    (∀ l ∈ (baseDelta hword d D B).locations [0] chunks, l < D) ↔
      ∀ x ∈ chunks, isValidDelta d x 0 := by
  induction chunks with
  | nil => simp [locations]
  | cons x chunks ih =>
    rw [locations, List.forall_mem_cons, List.forall_mem_cons, after, update, bestPattern_zero]
    cases hva : isValidDelta d x 0 with
    | false =>
      refine iff_of_false (fun h => ?_) fun h => absurd h.1 Bool.false_ne_true
      have hlt := h.1
      rw [if_neg Bool.false_ne_true, location_unmatched] at hlt
      omega
    | true =>
      have hin : ((baseDelta hword d D B).getPattern x 0 (0 : Nat)).info = _ := info_base x 0 0
      rw [hva, if_pos rfl] at hin
      have hlo : ((baseDelta hword d D B).getPattern x 0 (0 : Nat)).getMatchLocation = 0 :=
        getMatchLocation_create (congrArg PatternInfo.located hin) x 0
      rw [if_pos rfl, hin, if_neg Bool.false_ne_true, ih, hlo]
      exact and_congr_left fun _ => iff_of_true hpo rfl

theorem readsInside_iff {comp : CompData w} (h : (baseDelta hword d D B).compress chunks = .ok comp) :
    (baseDelta hword d D B).ReadsInside comp ↔ 256 ≤ D ∨ ∀ x ∈ chunks, isValidDelta d x 0 := by
  rcases lt_or_ge D 256 with hD | hD
  · obtain ⟨dict, hr, -⟩ := bind_eq_ok.mp h
    have had : (baseDelta hword d D B).addToDictionary [] 0 = .ok dict := hr
    obtain ⟨hro, rfl⟩ := addToDictionary_eq_ok.mp had
    rw [DictionaryCompressor.readsInside_iff hr h]
    refine (locations_zero hD (hro (.inr (.inr (.inl rfl))))).trans ?_
    exact (or_iff_right (not_le.mpr hD)).symm
  · exact iff_of_true (readsInside_of_le hD) (.inl hD)

end BaseDelta

/-! ### All the compressors -/

namespace CompressorClass

variable {cacheLineSize blkSize : Nat}

/-- **Which blocks a compressor restores.** `CPack`: those where the best entry of each word is one of
the first 256. `BaseDelta`: those with fewer chunks than the dictionary has entries, or with a chunk
that is no new base. The others: all. -/
def Restores (cacheLineSize : Nat) (data : List (BitVec 64)) : CompressorClass → Prop
  | cpack => Cpack.Near ((cpack.compressor cacheLineSize (8 * data.length)).toChunks data)
  | k => match k.deltaSizeBits with
      | none => True
      | some d =>
        let chunks := (k.compressor cacheLineSize (8 * data.length)).toChunks data
        chunks.length < cacheLineSize ∨ ¬BaseDelta.AllNew d chunks

end CompressorClass

variable {D w : Nat} {data : List (BitVec 64)}

theorem cpack_restore_iff (hfi : ((cpack D (8 * data.length)).toChunks data).length ≤ D)
    (stray : Nat → BitVec 32) :
    (cpack D (8 * data.length)).restore stray data = .ok data ↔
      Cpack.Near ((cpack D (8 * data.length)).toChunks data) := by
  rw [restore_eq_iff rfl rfl (fun _ => zero_le _)
    (fun h => by simp [cpack] at h), Cpack.allDecode_iff]
  refine and_iff_right fun hap => ?_
  have hl := length_foldl_after_le hap ((cpack D (8 * data.length)).toChunks data) []
  rw [List.length_nil, zero_add] at hl
  exact hl.trans hfi

theorem fpc_restore (zeroRunBits : Nat) (stray : Nat → BitVec 32) :
    (fpc zeroRunBits 1 (8 * data.length)).restore stray data = .ok data := by
  have hne : ∀ p ∈ fpcPatterns, p.kind.isNear := by decide
  refine (restore_eq_iff rfl rfl (fun _ => zero_le _)
    (fun h => by simp [fpc] at h) stray).mpr ⟨fun h => ?_, fun pre x _ => ?_⟩
  · simp [appendOnly, fpc] at h
  · exact decodes_of_isNear hne stray _ x

theorem fpcd_restore (stray : Nat → BitVec 32) :
    (fpcd 2 (8 * data.length)).restore stray data = .ok data := by
  have hne : ∀ p ∈ fpcdPatterns, p.kind.isNear := by decide
  refine (restore_eq_iff rfl rfl (fun _ => zero_le _)
    (fun h => by simp [fpcd] at h) stray).mpr ⟨fun h => ?_, fun pre x _ => ?_⟩
  · simp [appendOnly, fpcd] at h
  · exact decodes_of_isNear hne stray _ x

theorem toChunks_ne_nil (c : DictionaryCompressor w) (hbl : data ≠ []) : c.toChunks data ≠ [] := by
  intro h
  have hl := c.length_toChunks data
  rw [h, List.length_nil, eq_comm, mul_eq_zero, List.length_eq_zero_iff] at hl
  exact hl.elim hbl c.numChunksPer64_pos.1.ne'

theorem repeatedQwords_restore (hbl : data ≠ [])
    (hfi : ((repeatedQwords D (8 * data.length)).toChunks data).length ≤ D)
    (stray : Nat → BitVec 64) :
    (repeatedQwords D (8 * data.length)).restore stray data = .ok data := by
  have hne : ∀ p ∈ repeatedQwordsPatterns, p.kind.isNear := by decide
  have hap : (repeatedQwords D (8 * data.length)).appendOnly := .inr (.inl rfl)
  have hl := length_foldl_after_le hap ((repeatedQwords D (8 * data.length)).toChunks data) []
  rw [List.length_nil, zero_add] at hl
  refine (restore_eq_iff rfl rfl (fun _ => zero_le _)
    (fun _ => ?_) stray).mpr ⟨fun _ => hl.trans hfi, fun pre x _ => ?_⟩
  · obtain ⟨x, chunks, hch⟩ := List.exists_cons_of_ne_nil
      (toChunks_ne_nil (repeatedQwords D (8 * data.length)) hbl)
    rw [hch]
    -- The first word finds no entry, so it becomes one.
    exact length_le_foldl_after hap chunks [x]
  · exact decodes_of_isNear hne stray _ x

theorem zero_restore (hfi : ((zero D (8 * data.length)).toChunks data).length ≤ D)
    (stray : Nat → BitVec 64) : (zero D (8 * data.length)).restore stray data = .ok data := by
  have hne : ∀ p ∈ zeroPatterns, p.kind.isNear := by decide
  have hap : (zero D (8 * data.length)).appendOnly := .inr (.inr (.inr rfl))
  have hl := length_foldl_after_le hap ((zero D (8 * data.length)).toChunks data) []
  rw [List.length_nil, zero_add] at hl
  refine (restore_eq_iff rfl rfl (fun _ => zero_le _)
    (fun h => by simp [zero] at h) stray).mpr ⟨fun _ => hl.trans hfi, fun pre x _ => ?_⟩
  exact decodes_of_isNear hne stray _ x

theorem baseDelta_restore_iff {n d : Nat} (hword : n * w = 64) (hbl : data ≠ [])
    (hf : ((baseDelta hword d D (8 * data.length)).toChunks data).length ≤ D)
    (stray : Nat → BitVec w) :
    (baseDelta hword d D (8 * data.length)).restore stray data = .ok data ↔
      ((baseDelta hword d D (8 * data.length)).toChunks data).length < D ∨
        ¬BaseDelta.AllNew d ((baseDelta hword d D (8 * data.length)).toChunks data) := by
  have hne : ∀ p ∈ baseDeltaPatterns w d, p.kind.isNear := by
    simp [baseDeltaPatterns, isNear]
  have hap : (baseDelta hword d D (8 * data.length)).appendOnly := .inr (.inr (.inl rfl))
  have hp : 0 < D := (List.length_pos_iff.mpr
    (toChunks_ne_nil (baseDelta hword d D (8 * data.length)) hbl)).trans_le hf
  have hro : (baseDelta hword d D (8 * data.length)).HasRoom [] := fun _ => hp
  have hre : (baseDelta hword d D (8 * data.length)).resetDictionary = .ok [0] :=
    addToDictionary_eq_ok.mpr ⟨hro, rfl⟩
  rw [restore_eq_iff rfl hre (fun _ => hp)
    (fun h => by simp [baseDelta] at h), ← BaseDelta.fits_iff hf]
  constructor
  · exact fun h => h.1 hap
  · exact fun h => ⟨fun _ => h, fun pre x _ =>
      decodes_of_isNear hne stray _ x⟩

/-- **Which blocks the dictionary compressors restore.** Every block with as many chunks as fit the
dictionary is compressed, and decompression gives its words back, except for the blocks of `CPack`
where a word matches an entry past the first 256 best, and the blocks of `BaseDelta` where the zero
base takes the last entry. -/
theorem dictionary_restores (k : CompressorClass) (cacheLineSize : Nat) (data : List (BitVec 64))
    (hblk : data ≠ []) (hfits : (k.compressor cacheLineSize (8 * data.length)).appendOnly →
      ((k.compressor cacheLineSize (8 * data.length)).toChunks data).length ≤ cacheLineSize)
    (stray : Nat → BitVec k.chunkSizeBits) :
    (k.compressor cacheLineSize (8 * data.length)).restore stray data = .ok data ↔
      k.Restores cacheLineSize data := by
  cases k with
  | cpack => exact cpack_restore_iff (hfits (.inl rfl)) stray
  | fpc zeroRunBits => exact iff_of_true (fpc_restore zeroRunBits stray) trivial
  | fpcd => exact iff_of_true (fpcd_restore stray) trivial
  | repeatedQwords =>
    exact iff_of_true (repeatedQwords_restore hblk (hfits (.inr (.inl rfl))) stray) trivial
  | base64Delta8 | base64Delta16 | base64Delta32 | base32Delta8 | base32Delta16 | base16Delta8 =>
    exact baseDelta_restore_iff _ hblk (hfits (.inr (.inr (.inl rfl)))) stray
  | zero => exact iff_of_true (zero_restore (hfits (.inr (.inr (.inr rfl)))) stray) trivial

/-- Two words that are not close to each other still fit, with the zero base. -/
theorem dictionary_restores_two :
    (CompressorClass.base64Delta8.compressor 16 16).restore (fun _ => 0) [1, 1000] =
      .ok [1, 1000] :=
  (dictionary_restores .base64Delta8 16 [1, 1000] (by decide) (fun _ => by decide)
    fun _ => 0).mpr (.inl (by decide))

/-! ### The entries that are read -/

/-- The blocks that read no entry past the dictionary: the dictionary has an entry for each `uint8_t`,
the block is empty, or each of its chunks is close to the zero base. -/
def CompressorClass.Located (cacheLineSize : Nat) (data : List (BitVec 64)) (k : CompressorClass) :
    Prop :=
  let c := k.compressor cacheLineSize (8 * data.length)
  256 ≤ c.dictionarySize ∨ data = [] ∨
    ∃ d ∈ k.deltaSizeBits, ∀ x ∈ c.toChunks data, isValidDelta d x 0

/-- **When decompression stays inside the dictionary.** -/
theorem dictionary_reads_inside (k : CompressorClass) (cacheLineSize : Nat)
    (data : List (BitVec 64)) {comp : CompData k.chunkSizeBits}
    (h : (k.compressor cacheLineSize (8 * data.length)).compress
      ((k.compressor cacheLineSize (8 * data.length)).toChunks data) = .ok comp) :
    (k.compressor cacheLineSize (8 * data.length)).ReadsInside comp ↔
      k.Located cacheLineSize data := by
  have hni : (k.compressor cacheLineSize (8 * data.length)).toChunks data = [] ↔ data = [] :=
    ⟨not_imp_not.mp (toChunks_ne_nil _), fun hda => by
      rw [← List.length_eq_zero_iff, length_toChunks, hda, List.length_nil, zero_mul]⟩
  cases k with
  | cpack | fpc | fpcd | repeatedQwords | zero =>
    rw [readsInside_iff_of_empty rfl h, hni]
    simp [CompressorClass.Located, CompressorClass.deltaSizeBits]
  | base64Delta8 | base64Delta16 | base64Delta32 | base32Delta8 | base32Delta16 | base16Delta8 =>
    refine (BaseDelta.readsInside_iff h).trans (or_congr_right ?_)
    constructor
    · exact fun hal => .inr ⟨_, rfl, hal⟩
    · rintro (rfl | ⟨d, ⟨⟩, hal⟩)
      · exact fun x hx => nomatch hx
      · exact hal

/-- A dictionary of 256 entries has every location. -/
theorem dictionary_reads_inside_large :
    ∃ comp, (CompressorClass.cpack.compressor 256 8).compress
        ((CompressorClass.cpack.compressor 256 8).toChunks [1]) = .ok comp ∧
      (CompressorClass.cpack.compressor 256 8).ReadsInside comp := by
  refine ⟨_, rfl, (dictionary_reads_inside .cpack 256 [1] rfl).mpr ?_⟩
  exact .inl (by decide)

/-- **A word without an entry**: the location that `FPC` reads is 255, and its dictionary has one
entry. -/
theorem fpc_reads_outside :
    ∃ comp, ((CompressorClass.fpc 3).compressor 64 8).compress
        (((CompressorClass.fpc 3).compressor 64 8).toChunks [0]) = .ok comp ∧
      ¬((CompressorClass.fpc 3).compressor 64 8).ReadsInside comp := by
  refine ⟨_, rfl, fun h => ?_⟩
  exact absurd (h _ List.mem_cons_self) (by decide)

/-! ### A block that is not restored -/

def upperWord (i : Nat) : BitVec 32 := BitVec.ofNat 32 ((i + 1) * 2 ^ 16)

/-- The chunks of a block of 2048 bytes: 257 different words, the last of them again, and zeros. -/
def farChunks : List (BitVec 32) :=
  (List.range 257).map upperWord ++ [upperWord 256] ++ List.replicate 254 0

def farMatch : List (BitVec 64) := (joinWords farChunks 2 256).map (BitVec.cast rfl)

theorem toNat_upperWord {i : Nat} (hi : i < 257) : (upperWord i).toNat = (i + 1) * 2 ^ 16 := by
  exact mod_eq_of_lt (by omega)

theorem isByte_upperWord : ∀ i < 257, Cpack.isByte (upperWord i) = false := by
  decide +kernel

/-- The second of the two words matches the entry at index 256, and no entry before it. -/
theorem farChunks_not_near : ¬Cpack.Near farChunks := by
  intro h
  have hb := h ((List.range 257).map upperWord) (upperWord 256) (List.prefix_append _ _)
    (isByte_upperWord 256 (by decide))
  have hfl : ((List.range 257).map upperWord).filter (!Cpack.isByte ·) =
      (List.range 257).map upperWord := by
    refine List.filter_eq_self.mpr fun e he => ?_
    obtain ⟨i, hi, rfl⟩ := List.mem_map.mp he
    rw [isByte_upperWord i (List.mem_range.mp hi)]
    rfl
  have hs : Cpack.sharedBytes (upperWord 256) (upperWord 256) = 4 := if_pos rfl
  rw [hfl] at hb
  obtain ⟨e, he, hl⟩ := hb (upperWord 256)
    (List.mem_map.mpr ⟨256, List.mem_range.mpr (by decide), rfl⟩) (by rw [hs]; decide)
  rw [← List.map_take, List.take_range] at he
  obtain ⟨i, hi, rfl⟩ := List.mem_map.mp he
  have hlt : i < 256 := List.mem_range.mp hi
  have hn : upperWord 256 ≠ upperWord i := by
    intro heq
    have := congrArg BitVec.toNat heq
    rw [toNat_upperWord (by decide), toNat_upperWord (by omega)] at this
    omega
  rw [hs, Cpack.sharedBytes, if_neg hn] at hl
  split_ifs at hl <;> omega

/-- **A block that `CPack` does not restore.** -/
theorem cpack_not_lossless :
    (CompressorClass.cpack.compressor 2048 2048).restore (fun _ => 0) farMatch ≠ .ok farMatch := by
  have hle : 8 * farMatch.length = 2048 := by
    rw [farMatch, List.length_map, length_joinWords]
  have hch : (cpack 2048 2048).toChunks farMatch = farChunks := by
    have hjo := map_cast_cast rfl (joinWords farChunks 2 256)
    rw [toChunks]
    exact (congrArg _ hjo).trans (splitWords_joinWords farChunks (by decide) (by decide +kernel))
  have hif := @cpack_restore_iff 2048 farMatch
  rw [hle, hch] at hif
  exact fun h => farChunks_not_near ((hif (by decide +kernel) fun _ => 0).mp h)

end Gem5.Mem.Compressors
