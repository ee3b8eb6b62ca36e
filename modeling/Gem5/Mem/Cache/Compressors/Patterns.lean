import Mathlib

/-!
# Gem5.Mem.Cache.Compressors.Patterns

**The patterns of the dictionary compressors** (`DictionaryCompressor<T>::Pattern` and its
subclasses in `src/mem/cache/compressors/dictionary_compressor.hh`, and
`FPC::SignExtendedTwoHalfwords`).

A pattern stands for a word of `w` bits. It stores what its constructor keeps of the word, and gives
the word back from that and, for the masked patterns, from a dictionary entry. A word that matches a
pattern is what the pattern decompresses to, with the entry that it was matched against
(`PatternKind.decompress_of_isPattern`).

Dictionary entries are arrays of bytes in the sources. `toDictionaryEntry` and `fromDictionaryEntry`
are inverse to each other, and an entry is its word here.
-/

namespace Gem5.Mem.Compressors

open BitVec List

inductive PatternKind (w : Nat)
  | uncompressed
  | masked (mask : BitVec w)
  | maskedValue (value mask : BitVec w)
  | locatedMasked (mask : BitVec w) (location : Nat)
  | repeatedValue (repBits : Nat)
  | delta (deltaSizeBits : Nat)
  | signExtended (n : Nat)
  | signExtendedTwoHalfwords
  deriving Repr, DecidableEq

variable {w : Nat}

def lowMask (w n : Nat) : BitVec w := BitVec.ofNat w (2 ^ n - 1)

def sext (n : Nat) (val : BitVec w) : BitVec w :=
  if val.getLsbD (n - 1) then val ||| ~~~lowMask w n else val

def szext (n : Nat) (val : BitVec w) : BitVec w :=
  if val.getLsbD (n - 1) then val ||| ~~~lowMask w n else val &&& lowMask w n

def halfword (data : BitVec w) (i : Nat) : BitVec 16 := (data >>> (16 * i)).setWidth 16

/-- A word of `w` bits that repeats the low `repBits` bits of `value`. -/
def repeatBits (repBits : Nat) (value : BitVec w) (times : Nat) : BitVec w :=
  (List.range times).foldl (fun acc _ => acc <<< repBits ||| value) 0

/-- `isValidDelta`: the distance to a base fits the bits of the delta. -/
def isValidDelta (deltaSizeBits : Nat) (bytes baseBytes : BitVec w) : Bool :=
  let limit : Int := if deltaSizeBits = 0 then 0 else 2 ^ (deltaSizeBits - 1) - 1
  let delta := (bytes - baseBytes).toInt
  decide (-limit ≤ delta) && decide (delta ≤ limit)

namespace PatternKind

/-- `isPattern`, with the dictionary entry and its location, which is negative when there is none. -/
def isPattern (bytes dictBytes : BitVec w) (matchLocation : Int) : PatternKind w → Bool
  | uncompressed => true
  | masked mask => 0 ≤ matchLocation && bytes &&& mask = dictBytes &&& mask
  | maskedValue value mask => value &&& mask = bytes &&& mask
  | locatedMasked mask location =>
    matchLocation = location && 0 ≤ matchLocation && bytes &&& mask = dictBytes &&& mask
  | repeatedValue repBits =>
    (List.range (w / repBits)).all fun i =>
      (bytes >>> (repBits * i)).setWidth repBits = bytes.setWidth repBits
  | delta deltaSizeBits => 0 ≤ matchLocation && isValidDelta deltaSizeBits bytes dictBytes
  | signExtended n => bytes = szext n bytes
  | signExtendedTwoHalfwords =>
    -- A signed halfword is compared with an unsigned one, both promoted to `int`.
    (List.range 2).all fun i =>
      (halfword bytes i).toInt = (szext 8 (halfword bytes i)).toNat

/-- What the constructor keeps of the word. -/
def stored (bytes : BitVec w) : PatternKind w → BitVec w
  | uncompressed | delta _ => bytes
  | masked mask | maskedValue _ mask | locatedMasked mask _ => bytes &&& ~~~mask
  | repeatedValue repBits => (bytes.setWidth repBits).setWidth w
  | signExtended n => bytes &&& lowMask w n
  | signExtendedTwoHalfwords =>
    ((bytes >>> 16).setWidth 8).setWidth w <<< 16 ||| (bytes.setWidth 8).setWidth w

def numUnmatchedBits : PatternKind w → Nat
  | uncompressed => w
  | masked mask | maskedValue _ mask | locatedMasked mask _ =>
    (List.range w).countP fun i => !mask.getLsbD i
  | repeatedValue repBits => repBits
  | delta deltaSizeBits => deltaSizeBits
  | signExtended n => n
  | signExtendedTwoHalfwords => 16

/-- `decompress`, from what was stored and a dictionary entry. -/
def decompress (stored dictBytes : BitVec w) : PatternKind w → BitVec w
  | uncompressed | delta _ => stored
  | masked mask | locatedMasked mask _ => stored ||| (dictBytes &&& mask)
  | maskedValue value mask => stored ||| (value &&& mask)
  | repeatedValue repBits => repeatBits repBits stored (w / repBits)
  | signExtended n => sext n stored
  | signExtendedTwoHalfwords =>
    ((((stored >>> 16).setWidth 8).signExtend 16).setWidth w <<< 16) |||
      ((stored.setWidth 8).signExtend 16).setWidth w

def usesDictionary : PatternKind w → Bool
  | masked _ | locatedMasked _ _ => true
  | _ => false

/-- The pattern is not matched against an entry past the first 256. -/
def isNear : PatternKind w → Bool
  | masked _ => false
  | locatedMasked _ location => location < 256
  | _ => true

/-- The template arguments fit the word. -/
def WellFormed : PatternKind w → Prop
  | repeatedValue repBits => 0 < repBits ∧ repBits ∣ w
  | signExtended n => 0 < n
  | signExtendedTwoHalfwords => w = 32
  | _ => True

instance : DecidablePred (WellFormed (w := w)) := fun kind => by
  cases kind <;> dsimp only [WellFormed] <;> infer_instance

/-! ### Each pattern gives its word back -/

variable {loc : Int} {x e : BitVec w} {kind : PatternKind w} {repBits : Nat}

theorem location_nonneg (hus : kind.usesDictionary) (h : kind.isPattern x e loc) : 0 ≤ loc := by
  cases kind with
  | masked mask =>
    simp only [isPattern, Bool.and_eq_true, decide_eq_true_eq] at h
    exact h.1
  | locatedMasked mask location =>
    simp only [isPattern, Bool.and_eq_true, decide_eq_true_eq] at h
    exact h.1.2
  | _ => exact nomatch hus

theorem merge_masked {mask : BitVec w} (h : x &&& mask = e &&& mask) :
    (x &&& ~~~mask) ||| (e &&& mask) = x := by
  rw [← h, ← and_or_distrib_left]
  simp

theorem getLsbD_lowMask (n i : Nat) : (lowMask w n).getLsbD i = (decide (i < n) && decide (i < w)) := by
  simp [lowMask, getLsbD_ofNat, Bool.and_comm]

theorem sext_of_szext {n : Nat} (hn : 0 < n) (h : x = szext n x) :
    sext n (x &&& lowMask w n) = x := by
  have hsi : (x &&& lowMask w n).getLsbD (n - 1) = x.getLsbD (n - 1) := by
    rw [getLsbD_and, getLsbD_lowMask]
    cases hb : x.getLsbD (n - 1) with
    | false => rfl
    | true =>
      have := lt_of_getLsbD hb
      simp only [Bool.true_and, Bool.and_eq_true, decide_eq_true_eq]
      omega
  rw [sext, hsi]
  rw [szext] at h
  split at h
  · rename_i hb
    rw [if_pos hb]
    have hme : ∀ y m : BitVec w, (y &&& m) ||| ~~~m = y ||| ~~~m := by
      intro y m
      ext i hi
      cases hm : m[i] <;> simp [hm]
    rw [hme]
    exact h.symm
  · rename_i hb
    rw [if_neg hb]
    exact h.symm

theorem halfword_lt {h : BitVec 16} (he : h.toInt = (szext 8 h).toNat) : h.toNat < 128 := by
  rw [szext] at he
  split at he
  · have hb : (h ||| ~~~lowMask 16 8).getLsbD 15 = true := by
      rw [getLsbD_or, getLsbD_not, getLsbD_lowMask]
      simp
    have hge : 2 ^ 15 ≤ (h ||| ~~~lowMask 16 8).toNat := Nat.ge_two_pow_of_testBit hb
    have hlt := toInt_lt (x := h)
    omega
  · rename_i hb
    have hlow : (h &&& lowMask 16 8).toNat = h.toNat % 256 := by
      exact Nat.and_two_pow_sub_one_eq_mod h.toNat 8
    have hcle : h.toNat / 2 ^ 7 % 2 = 0 := by
      rw [getLsbD, Nat.testBit_eq_decide_div_mod_eq, decide_eq_true_eq] at hb
      omega
    rw [toInt_eq_toNat_cond] at he
    split at he <;> omega

theorem getLsbD_halfword (x : BitVec w) (k : Nat) {i : Nat} (hi : i < 16) :
    (halfword x k).getLsbD i = x.getLsbD (16 * k + i) := by
  rw [halfword, getLsbD_setWidth]
  simp [hi]

theorem getLsbD_repeatBits {value : BitVec w} (hpos : 0 < repBits)
    (hva : ∀ i, repBits ≤ i → value.getLsbD i = false) (times : Nat) {i : Nat} (hi : i < w) :
    (repeatBits repBits value times).getLsbD i =
      (decide (i < repBits * times) && value.getLsbD (i % repBits)) := by
  induction times generalizing i with
  | zero => simp [repeatBits]
  | succ times ih =>
    have hst : repeatBits repBits value (times + 1) =
        repeatBits repBits value times <<< repBits ||| value := by
      rw [repeatBits, range_succ, foldl_append]
      rfl
    rw [hst, getLsbD_or, getLsbD_shiftLeft, Nat.mul_succ]
    rcases Nat.lt_or_ge i repBits with hl | hh
    · rw [Nat.mod_eq_of_lt hl]
      simp only [hl, decide_true, Bool.not_true, Bool.and_false, Bool.false_and, Bool.false_or]
      simp only [Nat.lt_add_left _ hl, decide_true, Bool.true_and]
    · rw [ih (by omega), hva i hh, ← Nat.mod_eq_sub_mod hh]
      simp [hi, hh, Nat.sub_lt_iff_lt_add hh]

theorem repeated_round_trip (hp : 0 < repBits) (hdv : repBits ∣ w)
    (h : (repeatedValue repBits).isPattern x e loc) :
    repeatBits repBits ((x.setWidth repBits).setWidth w) (w / repBits) = x := by
  have hva : ∀ i, repBits ≤ i → ((x.setWidth repBits).setWidth w).getLsbD i = false := by
    intro i hi
    simp [Nat.not_lt.mpr hi]
  refine eq_of_getLsbD_eq fun i hi => ?_
  rw [getLsbD_repeatBits hp hva _ hi, Nat.mul_div_cancel' hdv]
  have hr : i % repBits < repBits := Nat.mod_lt i hp
  have hqu : i / repBits < w / repBits := Nat.div_lt_div_of_lt_of_dvd hdv hi
  have hpa := all_eq_true.mp h (i / repBits) (mem_range.mpr hqu)
  have hb := congrArg (getLsbD · (i % repBits)) (of_decide_eq_true hpa)
  simp only [getLsbD_setWidth, getLsbD_ushiftRight, hr, decide_true, Bool.true_and,
    Nat.div_add_mod] at hb
  simp only [getLsbD_setWidth, hi, hr, hb, (Nat.mod_le i repBits).trans_lt hi,
    decide_true, Bool.true_and]

theorem halfwords_round_trip {x e : BitVec 32}
    (h : (signExtendedTwoHalfwords : PatternKind 32).isPattern x e loc) (d : BitVec 32) :
    (signExtendedTwoHalfwords : PatternKind 32).decompress (signExtendedTwoHalfwords.stored x) d
      = x := by
  have hcl : ∀ k < 2, ∀ i, 7 ≤ i → i < 16 → x.getLsbD (16 * k + i) = false := by
    intro k hk i hl hh
    have hsm := halfword_lt (of_decide_eq_true (all_eq_true.mp h k (mem_range.mpr hk)))
    rw [← getLsbD_halfword x k hh]
    exact Nat.testBit_lt_two_pow (hsm.trans_le (Nat.pow_le_pow_right (n := 2) (by decide) hl))
  refine eq_of_getLsbD_eq fun i hi => ?_
  have hl := hcl 0 (by decide)
  have hh := hcl 1 (by decide)
  simp only [decompress, stored, getLsbD_or, getLsbD_shiftLeft,
    getLsbD_setWidth, getLsbD_signExtend, getLsbD_ushiftRight,
    msb_eq_getLsbD_last]
  grind

/-- **A matching pattern decompresses to its word**, from the dictionary entry it was matched
against, or from any entry when it does not use the dictionary. -/
theorem decompress_of_isPattern (hw : kind.WellFormed) {d : BitVec w} (h : kind.isPattern x e loc)
    (hd : kind.usesDictionary → d = e) : kind.decompress (kind.stored x) d = x := by
  cases kind with
  | uncompressed | delta => rfl
  | maskedValue value mask => exact merge_masked (of_decide_eq_true h).symm
  | masked | locatedMasked =>
    simp only [isPattern, Bool.and_eq_true, decide_eq_true_eq] at h
    rw [stored, hd rfl]
    exact merge_masked h.2
  | repeatedValue repBits => exact repeated_round_trip hw.1 hw.2 h
  | signExtended n => exact sext_of_szext hw (of_decide_eq_true h)
  | signExtendedTwoHalfwords =>
    obtain rfl : w = 32 := hw
    exact halfwords_round_trip h d

end PatternKind

end Gem5.Mem.Compressors
