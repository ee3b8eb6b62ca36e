import Gem5.Lib.Outcome
import Gem5.Lib.Search
import Gem5.Lib.Words
import Gem5.Mem.Cache.Compressors.Patterns

/-!
# Gem5.Mem.Cache.Compressors.Dictionary

**The dictionary compressors** (`src/mem/cache/compressors/dictionary_compressor_impl.hh`, with the
overrides of `CPack`, `FPC`, `FPCD`, `RepeatedQwords`, `BaseDelta` and `Zero`).

A block is cut into chunks. Each chunk becomes the smallest pattern that it matches, with no
dictionary entry or with one of the entries so far, and may become an entry itself. Decompression
goes through the patterns and builds the dictionary again.

The two dictionaries stay equal as long as each chunk is decoded, so a block is restored exactly
when each chunk is decoded with the dictionary of its own compression
(`DictionaryCompressor.restore_eq_iff`).
-/

namespace Gem5.Mem.Compressors

open Gem5.Lib List PatternKind

variable {w : Nat}

/-! ### Patterns with their sizes -/

/-- What a pattern class hands to the constructor of `Pattern`. -/
structure PatternInfo (w : Nat) where
  kind : PatternKind w
  /-- Length, in bits, of the code and match location. -/
  length : Nat
  allocate : Bool
  /-- The match location is handed on. The class uses `-1` otherwise. -/
  located : Bool := true
  /-- `FPC::ZeroRun`, which overrides `getSizeBits`. -/
  zeroRun : Bool := false
  deriving Repr, DecidableEq

/-- `Pattern`, with the fields of `FPC::ZeroRun`. -/
structure Pattern (w : Nat) where
  info : PatternInfo w
  matchLocation : Int
  stored : BitVec w
  runLength : Nat := 0
  realSize : Nat := 0
  deriving Repr, DecidableEq

def PatternInfo.create (info : PatternInfo w) (bytes : BitVec w) (matchLocation : Int) :
    Pattern w where
  info := info
  matchLocation := if info.located then matchLocation else -1
  stored := info.kind.stored bytes

namespace Pattern

def getSizeBits (p : Pattern w) : Nat :=
  if p.info.zeroRun then p.realSize else p.info.kind.numUnmatchedBits + p.info.length

/-- `getMatchLocation` returns the location as a `uint8_t`. -/
def getMatchLocation (p : Pattern w) : Nat := (p.matchLocation % 256).toNat

def decompress (p : Pattern w) (dictBytes : BitVec w) : BitVec w :=
  p.info.kind.decompress p.stored dictBytes

end Pattern

/-! ### The compressor -/

/-- The classes that derive from `DictionaryCompressor`. -/
inductive Subclass
  | cpack
  | fpc (zeroRunSizeBits : Nat)
  | fpcd
  | repeatedQwords
  | baseDelta
  | zero
  deriving Repr, DecidableEq

inductive CompressorFault
  | dictionaryFull
  | noEntries
  deriving Repr, DecidableEq

/-- **A dictionary compressor**: its class, its pattern factory and its parameters. The patterns fit
the chunks, and a pattern that reads the dictionary keeps its match location. -/
structure DictionaryCompressor (w : Nat) where
  subclass : Subclass
  /-- The factory, up to the uncompressed pattern. -/
  patterns : List (PatternInfo w)
  uncompressedLength : Nat
  uncompressedLocated : Bool := true
  dictionarySize : Nat
  blkSize : Nat
  numChunksPer64 : Nat
  word_bits : numChunksPer64 * w = 64
  wellFormed : ∀ p ∈ patterns, p.kind.WellFormed ∧ (p.kind.usesDictionary → p.located)

structure CompData (w : Nat) where
  entries : List (Pattern w) := []
  sizeBits : Nat := 0

namespace DictionaryCompressor

variable (c : DictionaryCompressor w)

/-- The last pattern of the factory: an `UncompressedPattern`, which always allocates. -/
def uncompressed : PatternInfo w where
  kind := .uncompressed
  length := c.uncompressedLength
  allocate := true
  located := c.uncompressedLocated

/-- `getPattern`: the first pattern of the factory that matches. -/
def getPattern (bytes dictBytes : BitVec w) (matchLocation : Int) : Pattern w :=
  ((c.patterns.find? (·.kind.isPattern bytes dictBytes matchLocation)).getD c.uncompressed).create
    bytes matchLocation

variable (dictionary : List (BitVec w))

/-- `addToDictionary`. The dictionary is the list of its valid entries. -/
def addToDictionary (data : BitVec w) : Except CompressorFault (List (BitVec w)) :=
  match c.subclass with
  | .fpc _ => pure dictionary
  | .fpcd =>
    -- Two entries: the penultimate word, then the previous one.
    if dictionary.length = 2 then pure [dictionary.getD 1 0, data]
    else pure (dictionary ++ [data])
  | .cpack | .repeatedQwords | .baseDelta | .zero =>
    if dictionary.length < c.dictionarySize then pure (dictionary ++ [data])
    else throw .dictionaryFull

/-- `resetDictionary`. A base-delta compressor adds a zero base. -/
def resetDictionary : Except CompressorFault (List (BitVec w)) :=
  match c.subclass with
  | .baseDelta => c.addToDictionary [] 0
  | _ => pure []

/-- The search of `compressValue`. -/
def bestPattern (data : BitVec w) : Pattern w :=
  bestOf Pattern.getSizeBits (c.getPattern data 0 (-1))
    (fun i => c.getPattern data (dictionary.getD i 0) i) dictionary.length

/-- The word of a pattern that allocates is added to the dictionary. -/
def allocateFor (pattern : Pattern w) (dictionary : List (BitVec w)) (data : BitVec w) :
    Except CompressorFault (List (BitVec w)) :=
  if pattern.info.allocate then c.addToDictionary dictionary data else pure dictionary

def compressValue (data : BitVec w) :
    Except CompressorFault (Pattern w × List (BitVec w)) := do
  let dictionary' ← c.allocateFor (c.bestPattern dictionary data) dictionary data
  pure (c.bestPattern dictionary data, dictionary')

/-- `FPCCompData::addEntry` on a zero run. The first pattern of a run holds its size. -/
def extendZeroRun (zeroRunSizeBits : Nat) (entries : List (Pattern w)) (pattern : Pattern w) :
    Pattern w :=
  let sized := { pattern with realSize := pattern.info.length + zeroRunSizeBits }
  if pattern.info.zeroRun then
    match entries.getLast? with
    | none => sized
    | some last =>
      if last.info.zeroRun && last.runLength != 2 ^ zeroRunSizeBits - 1 then
        { pattern with runLength := last.runLength + 1 }
      else sized
  else pattern

def addEntry (comp : CompData w) (pattern : Pattern w) : CompData w :=
  let pattern := match c.subclass with
    | .fpc zeroRunSizeBits => extendZeroRun zeroRunSizeBits comp.entries pattern
    | _ => pattern
  { entries := comp.entries ++ [pattern], sizeBits := comp.sizeBits + pattern.getSizeBits }

def compressChunk (s : CompData w × List (BitVec w)) (value : BitVec w) :
    Except CompressorFault (CompData w × List (BitVec w)) := do
  let (pattern, dictionary) ← c.compressValue s.2 value
  pure (c.addEntry s.1 pattern, dictionary)

/-- What the overrides of `compress` do with the result. `DEFAULT_MAX_NUM_BASES` is two. -/
def finishCompress (comp : CompData w) (dictionary : List (BitVec w)) :
    Except CompressorFault (CompData w) :=
  match c.subclass with
  | .baseDelta =>
    if 2 < dictionary.length then pure { comp with sizeBits := c.blkSize * 8 }
    else pure { comp with sizeBits := comp.sizeBits + w * (2 - dictionary.length) }
  | .repeatedQwords =>
    if dictionary.length < 1 then throw .noEntries
    else if 1 < dictionary.length then pure { comp with sizeBits := c.blkSize * 8 }
    else pure comp
  | .zero => pure (if 0 < dictionary.length then { comp with sizeBits := c.blkSize * 8 } else comp)
  | _ => pure comp

def compress (chunks : List (BitVec w)) : Except CompressorFault (CompData w) := do
  let dictionary ← c.resetDictionary
  let (comp, dictionary) ← chunks.foldlM c.compressChunk ({}, dictionary)
  c.finishCompress comp dictionary

/-- The entry at a location: the entries that are not valid are zero, and what lies past the
dictionary is arbitrary. -/
def entryAt (stray : Nat → BitVec w) (dictionary : List (BitVec w)) (i : Nat) : BitVec w :=
  dictionary.getD i (if i < c.dictionarySize then 0 else stray i)

def decoded (stray : Nat → BitVec w) (dictionary : List (BitVec w)) (pattern : Pattern w) :
    BitVec w :=
  pattern.decompress (c.entryAt stray dictionary pattern.getMatchLocation)

def decompressValue (stray : Nat → BitVec w) (dictionary : List (BitVec w)) (pattern : Pattern w) :
    Except CompressorFault (BitVec w × List (BitVec w)) := do
  let dictionary' ← c.allocateFor pattern dictionary (c.decoded stray dictionary pattern)
  pure (c.decoded stray dictionary pattern, dictionary')

/-- The loop of `decompress`. -/
def decompressValues (stray : Nat → BitVec w) :
    List (BitVec w) → List (Pattern w) → Except CompressorFault (List (BitVec w))
  | _, [] => pure []
  | dictionary, pattern :: patterns => do
      let (value, dictionary) ← c.decompressValue stray dictionary pattern
      let values ← decompressValues stray dictionary patterns
      pure (value :: values)

def toChunks (data : List (BitVec 64)) : List (BitVec w) :=
  splitWords w c.numChunksPer64 (data.map (BitVec.cast c.word_bits.symm))

def decompress (stray : Nat → BitVec w) (comp : CompData w) :
    Except CompressorFault (List (BitVec 64)) := do
  let dictionary ← c.resetDictionary
  let values ← c.decompressValues stray dictionary comp.entries
  pure ((joinWords values c.numChunksPer64 (c.blkSize / 8)).map (BitVec.cast c.word_bits))

def restore (stray : Nat → BitVec w) (data : List (BitVec 64)) :
    Except CompressorFault (List (BitVec 64)) := do
  c.decompress stray (← c.compress (c.toChunks data))

/-! ### The pattern of a chunk -/

variable {c}

theorem getPattern_spec (x e : BitVec w) (loc : Int) :
    ∃ info : PatternInfo w, c.getPattern x e loc = info.create x loc ∧
      info.kind.isPattern x e loc ∧ info.kind.WellFormed ∧
      (info.kind.usesDictionary → info.located ∧ info ∈ c.patterns) := by
  unfold getPattern
  cases hf : c.patterns.find? (·.kind.isPattern x e loc) with
  | none => exact ⟨c.uncompressed, rfl, rfl, trivial, fun h => nomatch h⟩
  | some info =>
    have hm := mem_of_find?_eq_some hf
    exact ⟨info, rfl, find?_some (p := fun i : PatternInfo w => i.kind.isPattern x e loc) hf,
      (c.wellFormed info hm).1, fun h => ⟨(c.wellFormed info hm).2 h, hm⟩⟩

/-- The pattern of a chunk is matched without an entry, or against one of the entries. -/
theorem bestPattern_cases (dict : List (BitVec w)) (x : BitVec w) :
    c.bestPattern dict x = c.getPattern x 0 (-1) ∨
      ∃ i < dict.length, c.bestPattern dict x = c.getPattern x (dict.getD i 0) i := by
  rcases bestOf_cases Pattern.getSizeBits (c.getPattern x 0 (-1))
    (fun i => c.getPattern x (dict.getD i 0) i) dict.length with ⟨h, -⟩ | ⟨i, hi, h, -⟩
  · exact .inl h
  · exact .inr ⟨i, hi, h⟩

def Decodes (c : DictionaryCompressor w) (stray : Nat → BitVec w) (dict : List (BitVec w))
    (x : BitVec w) : Prop :=
  c.decoded stray dict (c.bestPattern dict x) = x

theorem getMatchLocation_create {info : PatternInfo w} (hlo : info.located) (x : BitVec w)
    (i : Nat) : (info.create x i).getMatchLocation = i % 256 := by
  simp only [Pattern.getMatchLocation, PatternInfo.create, hlo, if_true]
  omega

variable {dict chunks values dict' : List (BitVec w)} {x : BitVec w} {stray : Nat → BitVec w}
  {ps : List (Pattern w)} {data : List (BitVec 64)} {p : Pattern w}
  {s s' : CompData w × List (BitVec w)} {i : Nat}

theorem entryAt_of_lt (c : DictionaryCompressor w) (stray : Nat → BitVec w) (hi : i < dict.length) :
    c.entryAt stray dict i = dict.getD i 0 := by
  rw [entryAt, getD_eq_getElem _ _ hi, getD_eq_getElem _ _ hi]

theorem decoded_unmatched (stray : Nat → BitVec w) (dict : List (BitVec w)) (x : BitVec w) :
    c.decoded stray dict (c.getPattern x 0 (-1)) = x := by
  obtain ⟨info, heq, hp, hwf, -⟩ := getPattern_spec x 0 (-1)
  rw [heq]
  refine decompress_of_isPattern hwf hp fun hus => ?_
  have := location_nonneg hus hp
  omega

/-- **A chunk is decoded unless its pattern is masked and its entry lies past the first 256.** -/
theorem decoded_matched (stray : Nat → BitVec w) (hi : i < dict.length) (x : BitVec w)
    (hn : i < 256 ∨ (c.getPattern x (dict.getD i 0) i).info.kind.usesDictionary = false) :
    c.decoded stray dict (c.getPattern x (dict.getD i 0) i) = x := by
  obtain ⟨info, heq, hpa, hwf, hue⟩ := getPattern_spec x (dict.getD i 0) i
  rw [heq] at hn ⊢
  refine decompress_of_isPattern hwf hpa fun hus => ?_
  rcases hn with hlt | hno
  · rw [getMatchLocation_create (hue hus).1, Nat.mod_eq_of_lt hlt, entryAt_of_lt c stray hi]
  · rw [show info.kind.usesDictionary = false from hno] at hus
    exact nomatch hus

/-- **A compressor whose patterns only use near entries decodes every chunk.** -/
theorem decodes_of_isNear (hn : ∀ p ∈ c.patterns, p.kind.isNear) (stray : Nat → BitVec w)
    (dict : List (BitVec w)) (x : BitVec w) : c.Decodes stray dict x := by
  unfold Decodes
  rcases bestPattern_cases dict x with h | ⟨i, hi, h⟩ <;> rw [h]
  · exact decoded_unmatched stray dict x
  · refine decoded_matched stray hi x ?_
    obtain ⟨info, heq, hp, -, hus⟩ := getPattern_spec x (dict.getD i 0) i
    rw [show (c.getPattern x (dict.getD i 0) i).info = info from congrArg Pattern.info heq]
    cases hk : info.kind with
    | masked mask =>
      have hm := (hus (by rw [hk]; rfl)).2
      exact absurd (hn info hm) (by rw [hk]; exact Bool.false_ne_true)
    | locatedMasked mask location =>
      have hm := (hus (by rw [hk]; rfl)).2
      have hl := hn info hm
      rw [hk] at hl hp
      have hlt : location < 256 := of_decide_eq_true hl
      simp only [isPattern, Bool.and_eq_true, decide_eq_true_eq] at hp
      exact .inl (by omega)
    | _ => exact .inr rfl

/-! ### The two dictionaries -/

/-- The classes that only add entries. -/
def appendOnly (c : DictionaryCompressor w) : Prop :=
  c.subclass = .cpack ∨ c.subclass = .repeatedQwords ∨ c.subclass = .baseDelta ∨ c.subclass = .zero

def push (c : DictionaryCompressor w) (dict : List (BitVec w)) (x : BitVec w) : List (BitVec w) :=
  match c.subclass with
  | .fpc _ => dict
  | .fpcd => if dict.length = 2 then [dict.getD 1 0, x] else dict ++ [x]
  | _ => dict ++ [x]

def update (c : DictionaryCompressor w) (p : Pattern w) (dict : List (BitVec w)) (x : BitVec w) :
    List (BitVec w) :=
  if p.info.allocate then c.push dict x else dict

def after (c : DictionaryCompressor w) (dict : List (BitVec w)) (x : BitVec w) : List (BitVec w) :=
  c.update (c.bestPattern dict x) dict x

def HasRoom (c : DictionaryCompressor w) (dict : List (BitVec w)) : Prop :=
  c.appendOnly → dict.length < c.dictionarySize

theorem addToDictionary_eq_ok :
    c.addToDictionary dict x = .ok dict' ↔ c.HasRoom dict ∧ c.push dict x = dict' := by
  unfold addToDictionary push HasRoom appendOnly
  cases c.subclass <;> simp <;> split <;> simp_all [throw, throwThe]

theorem allocateFor_eq_ok :
    c.allocateFor p dict x = .ok dict' ↔
      (p.info.allocate → c.HasRoom dict) ∧ c.update p dict x = dict' := by
  unfold allocateFor update
  cases p.info.allocate with
  | false => simp
  | true => simpa using addToDictionary_eq_ok

theorem compressChunk_eq_ok :
    c.compressChunk s x = .ok s' ↔
      ((c.bestPattern s.2 x).info.allocate → c.HasRoom s.2) ∧
        s' = (c.addEntry s.1 (c.bestPattern s.2 x), c.after s.2 x) := by
  simp only [compressChunk, compressValue, bind_assoc, bind_eq_ok, allocateFor_eq_ok, pure_bind]
  constructor
  · rintro ⟨dict, ⟨hr, rfl⟩, h⟩
    exact ⟨hr, eq_of_ok h⟩
  · rintro ⟨hr, rfl⟩
    exact ⟨_, ⟨hr, rfl⟩, rfl⟩

theorem addEntry_entries (comp : CompData w) (p : Pattern w) :
    ∃ p' : Pattern w, (c.addEntry comp p).entries = comp.entries ++ [p'] ∧
      p'.info = p.info ∧ p'.matchLocation = p.matchLocation ∧ p'.stored = p.stored := by
  refine ⟨_, rfl, ?_⟩
  cases c.subclass with
  | fpc bits =>
    simp only [extendZeroRun]
    split
    · split
      · exact ⟨rfl, rfl, rfl⟩
      · split <;> exact ⟨rfl, rfl, rfl⟩
    · exact ⟨rfl, rfl, rfl⟩
  | _ => exact ⟨rfl, rfl, rfl⟩

theorem decompressValues_cons_eq_ok :
    c.decompressValues stray dict (p :: ps) = .ok values ↔
      (p.info.allocate → c.HasRoom dict) ∧
        ∃ rest, c.decompressValues stray (c.update p dict (c.decoded stray dict p)) ps = .ok rest ∧
          values = c.decoded stray dict p :: rest := by
  simp only [decompressValues, decompressValue, bind_assoc, bind_eq_ok, allocateFor_eq_ok,
    pure_bind]
  constructor
  · rintro ⟨dict', ⟨hro, rfl⟩, rest, hr, h⟩
    exact ⟨hro, rest, hr, eq_of_ok h⟩
  · rintro ⟨hro, rest, hr, rfl⟩
    exact ⟨_, ⟨hro, rfl⟩, rest, hr, rfl⟩

def AllDecode (c : DictionaryCompressor w) (stray : Nat → BitVec w) (dict : List (BitVec w))
    (chunks : List (BitVec w)) : Prop :=
  ∀ pre x, pre ++ [x] <+: chunks → c.Decodes stray (pre.foldl c.after dict) x

theorem allDecode_cons :
    c.AllDecode stray dict (x :: chunks) ↔
      c.Decodes stray dict x ∧ c.AllDecode stray (c.after dict x) chunks := by
  constructor
  · intro h
    refine ⟨h [] x (by simp), fun pre y hp => h (x :: pre) y ?_⟩
    simpa using hp
  · rintro ⟨hx, hr⟩ pre y hp
    cases pre with
    | nil =>
      obtain ⟨rfl, -⟩ := cons_prefix_cons.mp hp
      exact hx
    | cons z pre =>
      obtain ⟨rfl, hta⟩ := cons_prefix_cons.mp hp
      exact hr pre y hta

/-- **The simulation of the two dictionaries**: from one dictionary, the patterns of some chunks give
the chunks back exactly when every chunk is decoded. -/
theorem foldlM_compressChunk (h : chunks.foldlM c.compressChunk s = .ok s')
    (stray : Nat → BitVec w) :
    s'.2 = chunks.foldl c.after s.2 ∧
      ∃ ps, s'.1.entries = s.1.entries ++ ps ∧ ps.length = chunks.length ∧
        (c.decompressValues stray s.2 ps = .ok chunks ↔ c.AllDecode stray s.2 chunks) := by
  induction chunks generalizing s with
  | nil =>
    obtain rfl : s = s' := Except.ok.inj h
    exact ⟨rfl, [], by simp, rfl, iff_of_true rfl fun pre x hpr => by simp at hpr⟩
  | cons x chunks ih =>
    rw [foldlM_cons, bind_eq_ok] at h
    obtain ⟨s₁, hch, hr⟩ := h
    obtain ⟨hro, rfl⟩ := compressChunk_eq_ok.mp hch
    obtain ⟨hdi, ps, hps, hle, hif⟩ := ih hr
    obtain ⟨p, hen, hin, hlo, hst⟩ := addEntry_entries s.1 (c.bestPattern s.2 x)
    refine ⟨hdi, p :: ps, by rw [hps, hen, append_assoc]; rfl, congrArg (· + 1) hle, ?_⟩
    have hda : c.decoded stray s.2 p = c.decoded stray s.2 (c.bestPattern s.2 x) := by
      simp only [decoded, Pattern.decompress, Pattern.getMatchLocation, hin, hlo, hst]
    have hup : ∀ y, c.update p s.2 y = c.update (c.bestPattern s.2 x) s.2 y := by
      intro y
      simp only [update, hin]
    rw [decompressValues_cons_eq_ok, hda, hup, hin, allDecode_cons, ← hif]
    constructor
    · rintro ⟨-, rest, hd, hva⟩
      obtain ⟨hx, rfl⟩ := cons.inj hva
      rw [← hx] at hd
      exact ⟨hx.symm, hd⟩
    · rintro ⟨hx, hd⟩
      rw [show c.decoded stray s.2 (c.bestPattern s.2 x) = x from hx]
      exact ⟨hro, chunks, hd, rfl⟩

/-! ### Room for the entries -/

theorem length_le_after (dict : List (BitVec w)) (x : BitVec w) (hap : c.appendOnly) :
    dict.length ≤ (c.after dict x).length := by
  unfold after update push
  rcases hap with h | h | h | h <;> rw [h] <;> split <;> simp

theorem length_le_foldl_after (hap : c.appendOnly) (chunks dict : List (BitVec w)) :
    dict.length ≤ (chunks.foldl c.after dict).length := by
  induction chunks generalizing dict with
  | nil => exact le_rfl
  | cons x chunks ih => exact (length_le_after dict x hap).trans (ih _)

theorem length_foldl_after_le (hap : c.appendOnly) (chunks dict : List (BitVec w)) :
    (chunks.foldl c.after dict).length ≤ dict.length + chunks.length := by
  induction chunks generalizing dict with
  | nil => exact le_rfl
  | cons x chunks ih =>
    have haf : (c.after dict x).length ≤ dict.length + 1 := by
      unfold after update push
      rcases hap with h | h | h | h <;> rw [h] <;> split <;> simp
    calc (chunks.foldl c.after (c.after dict x)).length
        ≤ (c.after dict x).length + chunks.length := ih _
      _ ≤ dict.length + 1 + chunks.length := Nat.add_le_add_right haf _
      _ = dict.length + (x :: chunks).length := by rw [length_cons]; omega

theorem foldlM_compressChunk_isOk (hf : c.appendOnly → s.2.length ≤ c.dictionarySize) :
    (∃ s', chunks.foldlM c.compressChunk s = .ok s') ↔
      (c.appendOnly → (chunks.foldl c.after s.2).length ≤ c.dictionarySize) := by
  induction chunks generalizing s with
  | nil => exact iff_of_true ⟨s, rfl⟩ hf
  | cons x chunks ih =>
    have hln : c.appendOnly → ((c.after s.2 x).length ≤ c.dictionarySize ↔
        ((c.bestPattern s.2 x).info.allocate → s.2.length < c.dictionarySize)) := by
      intro ha
      have hle := hf ha
      unfold after update push
      rcases ha with h | h | h | h <;> rw [h] <;> split <;> simp_all
    simp only [foldlM_cons, bind_eq_ok, compressChunk_eq_ok]
    constructor
    · rintro ⟨s', s₁, ⟨hro, rfl⟩, hr⟩
      exact (ih fun ha => (hln ha).mpr fun h => hro h ha).mp ⟨s', hr⟩
    · intro h
      have haf : c.appendOnly → (c.after s.2 x).length ≤ c.dictionarySize := fun ha =>
        (length_le_foldl_after ha chunks _).trans (h ha)
      obtain ⟨s', hs'⟩ := (ih (s := (c.addEntry s.1 (c.bestPattern s.2 x), c.after s.2 x))
        haf).mpr h
      exact ⟨s', _, ⟨fun hal ha => (hln ha).mp (haf ha) hal, rfl⟩, hs'⟩

/-! ### Whole blocks -/

theorem numChunksPer64_pos : 0 < c.numChunksPer64 ∧ 0 < w := by
  have h := c.word_bits
  constructor <;> refine Nat.pos_of_ne_zero fun hz => ?_ <;> simp [hz] at h

theorem length_decompressValues (h : c.decompressValues stray dict ps = .ok values) :
    values.length = ps.length := by
  induction ps generalizing dict values with
  | nil =>
    rw [eq_of_ok h]
    rfl
  | cons p ps ih =>
    obtain ⟨-, rest, hr, rfl⟩ := decompressValues_cons_eq_ok.mp h
    rw [length_cons, ih hr, length_cons]

theorem finishCompress_entries {comp comp' : CompData w}
    (h : c.finishCompress comp dict = .ok comp') : comp'.entries = comp.entries := by
  unfold finishCompress at h
  split at h
  · split at h <;> rw [eq_of_ok h]
  · split at h
    · exact nomatch h
    · split at h <;> rw [eq_of_ok h]
  · rw [eq_of_ok h]
    split <;> rfl
  · rw [eq_of_ok h]

theorem finishCompress_isOk (comp : CompData w)
    (h : c.subclass = .repeatedQwords → 1 ≤ dict.length) :
    ∃ comp', c.finishCompress comp dict = .ok comp' := by
  unfold finishCompress
  split
  · split <;> exact ⟨_, rfl⟩
  · rename_i hsu
    rw [if_neg (Nat.not_lt.mpr (h hsu))]
    split <;> exact ⟨_, rfl⟩
  · exact ⟨_, rfl⟩
  · exact ⟨_, rfl⟩

theorem length_toChunks (data : List (BitVec 64)) :
    (c.toChunks data).length = data.length * c.numChunksPer64 := by
  simp [toChunks]

theorem map_cast_cast {m n : Nat} (h : m = n) (words : List (BitVec m)) :
    (words.map (BitVec.cast h)).map (BitVec.cast h.symm) = words := by
  simp [Function.comp_def]

theorem join_eq_iff (hle : values.length = (c.toChunks data).length) :
    (joinWords values c.numChunksPer64 data.length).map (BitVec.cast c.word_bits) = data ↔
      values = c.toChunks data := by
  obtain ⟨hn, hw⟩ := numChunksPer64_pos
  constructor
  · intro h
    rw [toChunks, ← h, map_cast_cast]
    refine (splitWords_joinWords values hn ?_).symm
    rw [hle, length_toChunks]
  · rintro rfl
    have hj := joinWords_splitWords (data.map (BitVec.cast c.word_bits.symm)) hw hn
    rw [length_map] at hj
    rw [toChunks, hj, map_cast_cast]

/-- **A block is restored** exactly when its entries fit the dictionary and each of its chunks is
decoded with the dictionary of its own compression. -/
theorem restore_eq_iff (hblk : c.blkSize = 8 * data.length) (hre : c.resetDictionary = .ok dict)
    (hfi : c.appendOnly → dict.length ≤ c.dictionarySize)
    (hen : c.subclass = .repeatedQwords → 1 ≤ ((c.toChunks data).foldl c.after dict).length)
    (stray : Nat → BitVec w) :
    c.restore stray data = .ok data ↔
      (c.appendOnly → ((c.toChunks data).foldl c.after dict).length ≤ c.dictionarySize) ∧
        c.AllDecode stray dict (c.toChunks data) := by
  have hwo : c.blkSize / 8 = data.length := by omega
  rw [← foldlM_compressChunk_isOk (s := ({}, dict)) hfi]
  simp only [restore, compress, decompress, hre, bind_eq_ok, hwo]
  constructor
  · rintro ⟨comp, ⟨d, hd, s, hr, hf⟩, d', hd', values, hv, hjo⟩
    cases hd
    cases hd'
    obtain ⟨-, ps, hps, hl, hif⟩ := foldlM_compressChunk hr stray
    rw [finishCompress_entries hf, hps] at hv
    obtain rfl := (join_eq_iff ((length_decompressValues hv).trans hl)).mp (Except.ok.inj hjo)
    exact ⟨⟨s, hr⟩, hif.mp hv⟩
  · rintro ⟨⟨s, hr⟩, hde⟩
    obtain ⟨hdi, ps, hps, hl, hif⟩ := foldlM_compressChunk hr stray
    obtain ⟨comp, hf⟩ := finishCompress_isOk s.1 (fun h => hdi ▸ hen h)
    refine ⟨comp, ⟨dict, rfl, s, hr, hf⟩, dict, rfl, c.toChunks data, ?_, ?_⟩
    · rw [finishCompress_entries hf, hps]
      exact hif.mpr hde
    · exact congrArg Except.ok ((join_eq_iff rfl).mpr rfl)

/-! ### The entries that decompression reads -/

def locations (c : DictionaryCompressor w) (dict : List (BitVec w)) : List (BitVec w) → List Nat
  | [] => []
  | x :: chunks => (c.bestPattern dict x).getMatchLocation :: c.locations (c.after dict x) chunks

theorem foldlM_locations (h : chunks.foldlM c.compressChunk s = .ok s') :
    s'.1.entries.map Pattern.getMatchLocation =
      s.1.entries.map Pattern.getMatchLocation ++ c.locations s.2 chunks := by
  induction chunks generalizing s with
  | nil =>
    obtain rfl : s = s' := Except.ok.inj h
    simp [locations]
  | cons x chunks ih =>
    rw [foldlM_cons, bind_eq_ok] at h
    obtain ⟨s₁, hch, hr⟩ := h
    obtain ⟨-, rfl⟩ := compressChunk_eq_ok.mp hch
    obtain ⟨p, hen, -, hlo, -⟩ := addEntry_entries s.1 (c.bestPattern s.2 x)
    rw [ih hr, hen]
    simp [locations, Pattern.getMatchLocation, hlo]

/-- **Decompression reads entries of the dictionary only.** -/
def ReadsInside (c : DictionaryCompressor w) (comp : CompData w) : Prop :=
  ∀ p ∈ comp.entries, p.getMatchLocation < c.dictionarySize

variable {comp : CompData w}

theorem readsInside_iff (hre : c.resetDictionary = .ok dict) (h : c.compress chunks = .ok comp) :
    c.ReadsInside comp ↔ ∀ l ∈ c.locations dict chunks, l < c.dictionarySize := by
  simp only [compress, hre, bind_eq_ok] at h
  obtain ⟨_, ⟨⟩, s, hru, hfi⟩ := h
  have hma : s.1.entries.map Pattern.getMatchLocation = c.locations dict chunks :=
    foldlM_locations hru
  rw [ReadsInside, finishCompress_entries hfi, ← hma, forall_mem_map]

theorem readsInside_of_le (hsz : 256 ≤ c.dictionarySize) : c.ReadsInside comp := by
  intro p _
  have hlt : p.getMatchLocation < 256 := by
    unfold Pattern.getMatchLocation
    omega
  exact hlt.trans_le hsz

theorem location_unmatched (x : BitVec w) : (c.getPattern x 0 (-1)).getMatchLocation = 255 := by
  simp [getPattern, PatternInfo.create, Pattern.getMatchLocation]

theorem readsInside_iff_of_empty (hr : c.resetDictionary = .ok [])
    (h : c.compress chunks = .ok comp) :
    c.ReadsInside comp ↔ 256 ≤ c.dictionarySize ∨ chunks = [] := by
  constructor
  · rw [readsInside_iff hr h]
    intro hrd
    cases chunks with
    | nil => exact .inr rfl
    | cons x chunks =>
      have hfs := hrd _ mem_cons_self
      rw [show c.bestPattern [] x = c.getPattern x 0 (-1) from rfl, location_unmatched] at hfs
      exact .inl hfs
  · rintro (hsz | rfl)
    · exact readsInside_of_le hsz
    · exact (readsInside_iff hr h).mpr nofun

end DictionaryCompressor

end Gem5.Mem.Compressors
