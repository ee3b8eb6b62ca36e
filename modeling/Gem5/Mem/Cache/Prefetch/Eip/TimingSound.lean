import Gem5.Lib.Slots
import Gem5.Lib.System
import Gem5.Mem.Cache.Prefetch.Eip.Timing

/-!
# Gem5.Mem.Cache.Prefetch.Eip.TimingSound

**Every line is tracked at most once.** The two timing tables are read as one
assignment of lines to slots (`TimingTables.lineOf`), in which each operation of
the model fills one slot, frees one slot, moves a line, or changes nothing. An
assignment that starts empty and changes in these ways only holds no line twice
(`Gem5.Lib.Exclusive`).

The tags of the two tables truncate a line differently. For lines of 58 bits,
the width of every mask, no tag loses information and the assignment determines
the outcome of every search.
-/

namespace Gem5.Eip

open TimingTables Function Fin Nat Gem5.Lib

/-- The entries of the two tables. -/
inductive TimingSlot
  | mshr (i : Fin l1iTimingMshrSize)
  | cache (set : Fin maxNumSet) (way : Fin maxNumWay)
  deriving DecidableEq

/-- The entry is valid and tagged with the line, as the searches see it. -/
def TimingTables.Holds (t : TimingTables) (lineAddr : Nat) : TimingSlot → Prop
  | .mshr i => (t.mshr i).valid ∧ (t.mshr i).tag = timingMshrTag lineAddr
  | .cache set way => set = timingSet lineAddr ∧ (t.cache set way).valid ∧
      (t.cache set way).tag = timingCacheTag lineAddr

def TimingTables.lineOf (t : TimingTables) : TimingSlot → Option Nat
  | .mshr i => if (t.mshr i).valid then some (t.mshr i).tag else none
  | .cache set way =>
    if (t.cache set way).valid then some (maxNumSet * (t.cache set way).tag + set) else none

variable {t t' : TimingTables} {lineAddr cycle sourceSet sourceWay : Nat} {s : TimingRun}

/-! ### Tags -/

theorem timingMshrTag_of_lt (h : lineAddr < 2 ^ 58) : timingMshrTag lineAddr = lineAddr :=
  and_two_pow_sub_one_of_lt_two_pow h

theorem timingCacheTag_of_lt (h : lineAddr < 2 ^ 58) : timingCacheTag lineAddr = lineAddr / 64 := by
  have hlt : lineAddr >>> 6 < 2 ^ 58 := by
    omega
  rw [timingCacheTag, and_two_pow_sub_one_of_lt_two_pow hlt, shiftRight_eq_div_pow]

theorem timingSet_lt (lineAddr : Nat) : timingSet lineAddr < maxNumSet := mod_lt _ (by decide)

def setOf (lineAddr : Nat) : Fin maxNumSet := ⟨timingSet lineAddr, timingSet_lt lineAddr⟩

theorem line_of_tag_set {set : Nat} (tag : Nat) (h : lineAddr < 2 ^ 58) (hset : set < 64) :
    maxNumSet * tag + set = lineAddr ↔ set = timingSet lineAddr ∧ tag = timingCacheTag lineAddr := by
  rw [timingCacheTag_of_lt h]
  simp only [timingSet, maxNumSet]
  omega

/-- For lines of 58 bits the assignment says what the searches see. -/
theorem holds_iff_lineOf (t : TimingTables) (h : lineAddr < 2 ^ 58) (a : TimingSlot) :
    t.Holds lineAddr a ↔ t.lineOf a = some lineAddr := by
  cases a with
  | mshr i =>
    rw [Holds, lineOf, timingMshrTag_of_lt h]
    simp
  | cache set way =>
    have hln := line_of_tag_set (t.cache set way).tag h set.isLt
    rw [Holds, lineOf]
    cases hval : (t.cache set way).valid with
    | false => simp
    | true =>
      rw [if_pos rfl, Option.some.injEq, hln]
      simp

/-! ### Searches -/

section Searches

variable (h : lineAddr < 2 ^ 58)
include h

theorem lineOf_of_findMshr (hf : l1iFindTimingMshrEntry t lineAddr < l1iTimingMshrSize) :
    t.lineOf (.mshr ⟨l1iFindTimingMshrEntry t lineAddr, hf⟩) = some lineAddr := by
  obtain ⟨hta, hva⟩ := of_decide_eq_true (firstBelow_spec hf)
  rw [← holds_iff_lineOf t h]
  exact ⟨hva, hta⟩

theorem not_lineOf_of_findMshr
    (hf : ¬l1iFindTimingMshrEntry t lineAddr < l1iTimingMshrSize) (i : Fin l1iTimingMshrSize) :
    t.lineOf (.mshr i) ≠ some lineAddr := by
  intro hln
  obtain ⟨hva, hta⟩ := (holds_iff_lineOf t h _).mpr hln
  exact hf (firstBelow_lt i.isLt (decide_eq_true ⟨hta, hva⟩))

theorem lineOf_of_findCache (hf : l1iFindTimingCacheEntry t lineAddr < maxNumWay) :
    t.lineOf (.cache (setOf lineAddr) ⟨l1iFindTimingCacheEntry t lineAddr, hf⟩) =
      some lineAddr := by
  obtain ⟨hta, hva⟩ := of_decide_eq_true (firstBelow_spec hf)
  rw [← holds_iff_lineOf t h]
  exact ⟨rfl, hva, hta⟩

theorem not_lineOf_of_findCache
    (hf : ¬l1iFindTimingCacheEntry t lineAddr < maxNumWay) (set : Fin maxNumSet)
    (way : Fin maxNumWay) : t.lineOf (.cache set way) ≠ some lineAddr := by
  intro hln
  obtain ⟨hse, hv, hta⟩ := (holds_iff_lineOf t h _).mpr hln
  rw [hse] at hv hta
  exact hf (firstBelow_lt way.isLt (decide_eq_true ⟨hta, hv⟩))

theorem absent_of_find (hms : ¬l1iFindTimingMshrEntry t lineAddr < l1iTimingMshrSize)
    (hca : ¬l1iFindTimingCacheEntry t lineAddr < maxNumWay) : Absent t.lineOf lineAddr := by
  intro a
  cases a with
  | mshr i => exact not_lineOf_of_findMshr h hms i
  | cache set way => exact not_lineOf_of_findCache h hca set way

theorem findCache_of_lineOf {set : Fin maxNumSet} {way : Fin maxNumWay}
    (hln : t.lineOf (.cache set way) = some lineAddr) :
    l1iFindTimingCacheEntry t lineAddr < maxNumWay := by
  by_contra hf
  exact not_lineOf_of_findCache h hf set way hln

end Searches

/-! ### What a write does to the assignment -/

theorem lineOf_setMshr (t : TimingTables) (i : Fin l1iTimingMshrSize) (e : TimingMshrEntry) :
    (t.setMshr i e).lineOf = update t.lineOf (.mshr i) (if e.valid then some e.tag else none) := by
  funext a
  cases a with
  | mshr j =>
    rcases eq_or_ne j i with rfl | hn
    · simp [lineOf, setMshr]
    · rw [update_of_ne (by simpa using hn)]
      simp [lineOf, setMshr, val_ne_of_ne hn]
  | cache set way =>
    rfl

theorem lineOf_setCache (t : TimingTables) (set : Fin maxNumSet) (way : Fin maxNumWay)
    (e : TimingCacheEntry) :
    (t.setCache set way e).lineOf =
      update t.lineOf (.cache set way)
        (if e.valid then some (maxNumSet * e.tag + set) else none) := by
  funext a
  cases a with
  | mshr j =>
    rfl
  | cache set' way' =>
    rcases eq_or_ne set' set with rfl | hs
    · rcases eq_or_ne way' way with rfl | hw
      · simp [lineOf, setCache]
      · rw [update_of_ne (by simpa using hw)]
        simp [lineOf, setCache, val_ne_of_ne hw]
    · rw [update_of_ne (by simp [hs])]
      simp [lineOf, setCache, val_ne_of_ne hs]

/-! ### Operations -/

theorem lineOf_init (raw : TimingTables) : (l1iInitTimingTables raw).lineOf = fun _ => none := by
  funext a
  cases a <;> rfl

theorem l1iAddTimingEntry_cases (h : lineAddr < 2 ^ 58)
    (ho : l1iAddTimingEntry t cycle lineAddr sourceSet sourceWay = .ok t') :
    t' = t ∨ Absent t.lineOf lineAddr ∧
      ∃ i, t'.lineOf = update t.lineOf (.mshr i) (some lineAddr) := by
  unfold l1iAddTimingEntry at ho
  split at ho
  · exact Or.inl (eq_of_ok ho)
  · rename_i hms
    split at ho
    · exact Or.inl (eq_of_ok ho)
    · rename_i hca
      obtain ⟨i, hf, rfl⟩ := bind_ok.mp ho
      have hi : i < l1iTimingMshrSize := by
        unfold l1iGetInvalidTimingMshrEntry at hf
        dsimp only at hf
        split at hf
        · rwa [eq_of_ok hf]
        · exact absurd hf (by simp)
      refine Or.inr ⟨absent_of_find h hms hca, ⟨i, hi⟩, ?_⟩
      rw [lineOf_setMshr t ⟨i, hi⟩, if_pos rfl, timingMshrTag_of_lt h]

theorem l1iAddTimingEntry_ok (hfr : l1iFindTimingMshrEntry t lineAddr < l1iTimingMshrSize ∨
      l1iFindTimingCacheEntry t lineAddr < maxNumWay ∨
      (List.range l1iTimingMshrSize).countP (fun i => (t.mshr i).valid) < l1iTimingMshrSize)
    (cycle sourceSet sourceWay : Nat) :
    ∃ t', l1iAddTimingEntry t cycle lineAddr sourceSet sourceWay = .ok t' := by
  unfold l1iAddTimingEntry
  split
  · exact ⟨t, rfl⟩
  · rename_i hms
    split
    · exact ⟨t, rfl⟩
    · rename_i hca
      have hcn := (hfr.resolve_left hms).resolve_left hca
      rw [l1iGetInvalidTimingMshrEntry, if_pos (firstBelow_not_lt hcn)]
      exact ⟨_, rfl⟩

/-- The entry a line gets in the timing cache when it is moved: the source and
the access flag of its timing-MSHR entry, or those of an untracked line. -/
def movedEntry (t : TimingTables) (lineAddr way : Nat) : TimingCacheEntry :=
  let m := t.mshr (l1iFindTimingMshrEntry t lineAddr)
  if l1iFindTimingMshrEntry t lineAddr = l1iTimingMshrSize then
    { valid := true
      tag := timingCacheTag lineAddr
      sourceSet := (t.cache (timingSet lineAddr) way).sourceSet
      sourceWay := l1iEtWays
      accessed := true }
  else
    { valid := true
      tag := timingCacheTag lineAddr
      sourceSet := m.sourceSet
      sourceWay := m.sourceWay
      accessed := m.accessed }

theorem l1iGetInvalidTimingCacheEntry_spec {way : Nat}
    (ho : l1iGetInvalidTimingCacheEntry t lineAddr = .ok way) :
    way < maxNumWay ∧ (t.cache (timingSet lineAddr) way).valid = false := by
  unfold l1iGetInvalidTimingCacheEntry at ho
  dsimp only at ho
  split at ho
  · rename_i hlt
    cases ho
    exact ⟨hlt, by simpa using firstBelow_spec hlt⟩
  · exact absurd ho (by simp)

/-- **What a move does**: it writes `movedEntry` to a free way of the line's set
and drops the line's timing-MSHR entry, if it has one. -/
theorem l1iMoveTimingEntry_eq (t : TimingTables) (lineAddr : Nat) :
    l1iMoveTimingEntry t lineAddr = (fun way =>
      let c := t.setCache (timingSet lineAddr) way (movedEntry t lineAddr way)
      if l1iFindTimingMshrEntry t lineAddr < l1iTimingMshrSize then
        c.setMshr (l1iFindTimingMshrEntry t lineAddr)
          { t.mshr (l1iFindTimingMshrEntry t lineAddr) with valid := false }
      else c) <$> l1iGetInvalidTimingCacheEntry t lineAddr := by
  have hle : l1iFindTimingMshrEntry t lineAddr ≤ l1iTimingMshrSize := firstBelow_le _ _
  unfold l1iMoveTimingEntry
  dsimp only
  split
  · rename_i hn
    simp only [movedEntry, hn, if_true]
    rfl
  · rename_i hso
    have hf : l1iFindTimingMshrEntry t lineAddr < l1iTimingMshrSize := by omega
    simp only [movedEntry, if_neg hso, if_pos hf]
    -- The second search runs on a table with the same timing-MSHR part.
    exact congrArg (_ >>= ·) (funext fun way => if_pos hf)

@[simp] theorem movedEntry_valid (t : TimingTables) (lineAddr way : Nat) :
    (movedEntry t lineAddr way).valid := by
  unfold movedEntry
  split <;> rfl

@[simp] theorem movedEntry_tag (t : TimingTables) (lineAddr way : Nat) :
    (movedEntry t lineAddr way).tag = timingCacheTag lineAddr := by
  unfold movedEntry
  split <;> rfl

theorem lineOf_move (h : lineAddr < 2 ^ 58) (hok : l1iMoveTimingEntry t lineAddr = .ok t') :
    ∃ way, t.lineOf (.cache (setOf lineAddr) way) = none ∧
      (t'.cache (timingSet lineAddr) way) = movedEntry t lineAddr way ∧
      t'.lineOf = update (if hm : l1iFindTimingMshrEntry t lineAddr < l1iTimingMshrSize then
          update t.lineOf (.mshr ⟨_, hm⟩) none
        else t.lineOf) (.cache (setOf lineAddr) way) (some lineAddr) := by
  rw [l1iMoveTimingEntry_eq] at hok
  obtain ⟨way, hge, rfl⟩ := map_eq_ok.mp hok
  obtain ⟨hw, hfr⟩ := l1iGetInvalidTimingCacheEntry_spec hge
  have hln : maxNumSet * timingCacheTag lineAddr + (setOf lineAddr : Nat) = lineAddr :=
    (line_of_tag_set _ h (timingSet_lt lineAddr)).mpr ⟨rfl, rfl⟩
  have hc : (t.setCache (timingSet lineAddr) way (movedEntry t lineAddr way)).lineOf =
      update t.lineOf (.cache (setOf lineAddr) ⟨way, hw⟩) (some lineAddr) := by
    have hse := lineOf_setCache t (setOf lineAddr) ⟨way, hw⟩ (movedEntry t lineAddr way)
    rwa [movedEntry_valid, movedEntry_tag, hln] at hse
  refine ⟨⟨way, hw⟩, ?_, ?_, ?_⟩
  · simp only [lineOf, setOf, hfr, Bool.false_eq_true, if_false]
  · split <;> simp [setCache, setMshr]
  · split
    · rename_i hm
      have hms := lineOf_setMshr (t.setCache (timingSet lineAddr) way (movedEntry t lineAddr way))
        ⟨_, hm⟩ { t.mshr (l1iFindTimingMshrEntry t lineAddr) with valid := false }
      rw [hms, hc, if_neg (by simp), update_comm (by simp)]
    · exact hc

theorem lineOf_access (t : TimingTables) (lineAddr posHist : Nat) :
    (l1iAccessTimingEntry t lineAddr posHist).lineOf = t.lineOf := by
  unfold l1iAccessTimingEntry
  dsimp only
  split
  · rename_i hm
    split
    · exact (lineOf_setMshr t ⟨_, hm⟩ _).trans (update_eq_self _ _)
    · rfl
  · split
    · rename_i hw
      exact (lineOf_setCache t (setOf lineAddr) ⟨_, hw⟩ _).trans (update_eq_self _ _)
    · rfl

theorem lineOf_notifyInvalidate (t : TimingTables) (et : EntangledTable) (addr : Nat) :
    (notifyInvalidate t et addr).1.lineOf =
      if hw : l1iFindTimingCacheEntry t (addr >>> log2BlockSize) < maxNumWay then
        update t.lineOf (.cache (setOf (addr >>> log2BlockSize)) ⟨_, hw⟩) none
      else t.lineOf := by
  have hle : l1iFindTimingCacheEntry t (addr >>> log2BlockSize) ≤ maxNumWay := firstBelow_le _ _
  unfold notifyInvalidate
  by_cases hw : l1iFindTimingCacheEntry t (addr >>> log2BlockSize) < maxNumWay
  · rw [dif_pos hw, if_pos (by omega)]
    have hfr := lineOf_setCache t (setOf (addr >>> log2BlockSize)) ⟨_, hw⟩
      { t.cache (timingSet (addr >>> log2BlockSize))
          (l1iFindTimingCacheEntry t (addr >>> log2BlockSize)) with valid := false }
    rwa [if_neg (by simp)] at hfr
  · rw [dif_neg hw, if_neg (by omega)]

/-! ### Exclusiveness -/

section

variable (ht : Exclusive t.lineOf)

include ht

theorem exclusive_add (h : lineAddr < 2 ^ 58)
    (hok : l1iAddTimingEntry t cycle lineAddr sourceSet sourceWay = .ok t') :
    Exclusive t'.lineOf := by
  rcases l1iAddTimingEntry_cases h hok with rfl | ⟨hab, i, hln⟩
  · exact ht
  · rw [hln]
    exact ht.fill hab (.mshr i)

theorem exclusive_drop (h : lineAddr < 2 ^ 58)
    (hca : ¬l1iFindTimingCacheEntry t lineAddr < maxNumWay) :
    let f := if hm : l1iFindTimingMshrEntry t lineAddr < l1iTimingMshrSize then
        update t.lineOf (.mshr ⟨_, hm⟩) none
      else t.lineOf
    Exclusive f ∧ Absent f lineAddr := by
  by_cases hm : l1iFindTimingMshrEntry t lineAddr < l1iTimingMshrSize
  · simp only [dif_pos hm]
    exact ⟨ht.free _, ht.absent_free (lineOf_of_findMshr h hm)⟩
  · simp only [dif_neg hm]
    exact ⟨ht, absent_of_find h hm hca⟩

theorem exclusive_move (h : lineAddr < 2 ^ 58)
    (hca : ¬l1iFindTimingCacheEntry t lineAddr < maxNumWay)
    (hok : l1iMoveTimingEntry t lineAddr = .ok t') : Exclusive t'.lineOf := by
  obtain ⟨way, _, _, hln⟩ := lineOf_move h hok
  obtain ⟨hex, hab⟩ := exclusive_drop ht h hca
  rw [hln]
  exact hex.fill hab _

theorem exclusive_notifyInvalidate (et : EntangledTable) (addr : Nat) :
    Exclusive (notifyInvalidate t et addr).1.lineOf := by
  rw [lineOf_notifyInvalidate]
  split
  · exact ht.free _
  · exact ht

end

theorem l1iMoveTimingEntry_ok
    (hfr : (List.range maxNumWay).countP (fun j => (t.cache (timingSet lineAddr) j).valid) <
      maxNumWay) : ∃ t', l1iMoveTimingEntry t lineAddr = .ok t' := by
  rw [l1iMoveTimingEntry_eq, l1iGetInvalidTimingCacheEntry, if_pos (firstBelow_not_lt hfr)]
  exact ⟨_, rfl⟩

/-! ### Runs of the timing tables -/

/-- The timing tables, and the entangled table an invalidation reports to. -/
structure TimingRun where
  tables : TimingTables
  entangled : EntangledTable

inductive TimingCall where
  | addTimingEntry (cycle lineAddr sourceSet sourceWay : Nat)
  | accessTimingEntry (lineAddr posHist : Nat)
  | moveTimingEntry (lineAddr : Nat)
  | notifyInvalidate (addr : Nat)

def TimingRun.step (s : TimingRun) : TimingCall → Except Fault TimingRun
  | .addTimingEntry cycle lineAddr sourceSet sourceWay => do
      let t ← l1iAddTimingEntry s.tables cycle lineAddr sourceSet sourceWay
      return { s with tables := t }
  | .accessTimingEntry lineAddr posHist =>
    .ok { s with tables := l1iAccessTimingEntry s.tables lineAddr posHist }
  | .moveTimingEntry lineAddr => do
      let t ← l1iMoveTimingEntry s.tables lineAddr
      return { s with tables := t }
  | .notifyInvalidate addr =>
    let r := notifyInvalidate s.tables s.entangled addr
    .ok { tables := r.1, entangled := r.2 }

/-- The contract: lines have 58 bits; an untracked line is added while fewer than
1024 are outstanding; a line is moved while it is not in the timing cache, into
a set with fewer than 8 valid ways. -/
def TimingRun.pre (s : TimingRun) : TimingCall → Prop
  | .addTimingEntry _ lineAddr _ _ => lineAddr < 2 ^ 58 ∧
      (l1iFindTimingMshrEntry s.tables lineAddr < l1iTimingMshrSize ∨
        l1iFindTimingCacheEntry s.tables lineAddr < maxNumWay ∨
        (List.range l1iTimingMshrSize).countP (fun i => (s.tables.mshr i).valid) <
          l1iTimingMshrSize)
  | .accessTimingEntry lineAddr _ => lineAddr < 2 ^ 58
  | .moveTimingEntry lineAddr => lineAddr < 2 ^ 58 ∧
      ¬l1iFindTimingCacheEntry s.tables lineAddr < maxNumWay ∧
      (List.range maxNumWay).countP (fun j => (s.tables.cache (timingSet lineAddr) j).valid) <
        maxNumWay
  | .notifyInvalidate addr => addr < 2 ^ 64

def timingSystem : System TimingRun TimingCall Fault where
  init s := ∃ raw, s = { tables := l1iInitTimingTables raw, entangled := l1iInitEntangledTable }
  step := TimingRun.step
  pre := TimingRun.pre

instance (s a) : Decidable (timingSystem.pre s a) := by
  cases a <;> dsimp only [timingSystem, TimingRun.pre] <;> infer_instance

theorem exclusive_step {s' : TimingRun} {a : TimingCall} (hs : Exclusive s.tables.lineOf)
    (hp : timingSystem.pre s a) (ho : s.step a = .ok s') : Exclusive s'.tables.lineOf := by
  cases a with
  | addTimingEntry cycle lineAddr sourceSet sourceWay =>
    obtain ⟨t, had, rfl⟩ := bind_ok.mp ho
    exact exclusive_add hs hp.1 had
  | accessTimingEntry lineAddr posHist =>
    cases ho
    rw [lineOf_access]
    exact hs
  | moveTimingEntry lineAddr =>
    obtain ⟨t, hmo, rfl⟩ := bind_ok.mp ho
    exact exclusive_move hs hp.1 hp.2.1 hmo
  | notifyInvalidate addr =>
    cases ho
    exact exclusive_notifyInvalidate hs _ addr

theorem exclusive_reachable (hs : timingSystem.Reachable s) : Exclusive s.tables.lineOf := by
  refine System.Reachable.invariant (fun s => Exclusive s.tables.lineOf) ?_ ?_ hs
  · rintro s ⟨raw, rfl⟩
    rw [lineOf_init]
    exact exclusive_empty
  · intro s a s' hin hp hok
    exact exclusive_step hin hp hok

theorem timing_faultFree : timingSystem.FaultFree := by
  intro s a _ hp
  cases a with
  | addTimingEntry cycle lineAddr sourceSet sourceWay =>
    obtain ⟨t, had⟩ := l1iAddTimingEntry_ok hp.2 cycle sourceSet sourceWay
    exact ⟨_, bind_eq_ok.mpr ⟨t, had, rfl⟩⟩
  | accessTimingEntry lineAddr posHist => exact ⟨_, rfl⟩
  | moveTimingEntry lineAddr =>
    obtain ⟨t, hmo⟩ := l1iMoveTimingEntry_ok hp.2.2
    exact ⟨_, bind_eq_ok.mpr ⟨t, hmo, rfl⟩⟩
  | notifyInvalidate addr => exact ⟨_, rfl⟩

theorem find_after_move (ht : Exclusive t.lineOf) (h : lineAddr < 2 ^ 58)
    (hca : ¬l1iFindTimingCacheEntry t lineAddr < maxNumWay)
    (hok : l1iMoveTimingEntry t lineAddr = .ok t') :
    l1iFindTimingMshrEntry t' lineAddr = l1iTimingMshrSize ∧
      l1iFindTimingCacheEntry t' lineAddr < maxNumWay ∧
      t'.cache (timingSet lineAddr) (l1iFindTimingCacheEntry t' lineAddr) =
        movedEntry t lineAddr (l1iFindTimingCacheEntry t' lineAddr) := by
  have hex := exclusive_move ht h hca hok
  obtain ⟨way, _, hen, hln⟩ := lineOf_move h hok
  have hwa : t'.lineOf (.cache (setOf lineAddr) way) = some lineAddr := by
    rw [hln, update_self]
  have hf := findCache_of_lineOf h hwa
  have heq := hex _ _ _ (lineOf_of_findCache h hf) hwa
  have hwy : l1iFindTimingCacheEntry t' lineAddr = way := by
    injection heq with _ hw
    exact congrArg val hw
  refine ⟨?_, hf, hwy ▸ hen⟩
  by_contra hne
  have hle : l1iFindTimingMshrEntry t' lineAddr ≤ l1iTimingMshrSize := firstBelow_le _ _
  have hm : l1iFindTimingMshrEntry t' lineAddr < l1iTimingMshrSize := by omega
  exact TimingSlot.noConfusion (hex _ _ _ (lineOf_of_findMshr h hm) hwa)

/-- **The timing tables track every line once and lose nothing on a move.** In
every run within the contract, each line has at most one valid entry across the
two tables; no assertion fires; and after a move the line's entry in the timing
cache carries the source and the access flag of its timing-MSHR entry, or counts
as accessed without a source if it had none. -/
theorem timing_tables_consistent :
    (∀ s, timingSystem.Reachable s → ∀ lineAddr < 2 ^ 58, ∀ a b,
      s.tables.Holds lineAddr a → s.tables.Holds lineAddr b → a = b) ∧
    timingSystem.FaultFree ∧
    ∀ s s' lineAddr, timingSystem.Reachable s → timingSystem.pre s (.moveTimingEntry lineAddr) →
      s.step (.moveTimingEntry lineAddr) = .ok s' →
      let i := l1iFindTimingMshrEntry s.tables lineAddr
      let m := s.tables.mshr i
      let e := s'.tables.cache (timingSet lineAddr) (l1iFindTimingCacheEntry s'.tables lineAddr)
      l1iFindTimingMshrEntry s'.tables lineAddr = l1iTimingMshrSize ∧
      l1iFindTimingCacheEntry s'.tables lineAddr < maxNumWay ∧
      (i < l1iTimingMshrSize →
        e.sourceSet = m.sourceSet ∧ e.sourceWay = m.sourceWay ∧ e.accessed = m.accessed) ∧
      (i = l1iTimingMshrSize → e.sourceWay = l1iEtWays ∧ e.accessed) := by
  refine ⟨fun s hs lineAddr h a b ha hb => ?_, timing_faultFree, ?_⟩
  · exact exclusive_reachable hs a b lineAddr ((holds_iff_lineOf _ h a).mp ha)
      ((holds_iff_lineOf _ h b).mp hb)
  · intro s s' lineAddr hs hp hok
    obtain ⟨t, hmo, rfl⟩ := bind_ok.mp hok
    obtain ⟨hms, hf, hen⟩ := find_after_move (exclusive_reachable hs) hp.1 hp.2.1 hmo
    refine ⟨hms, hf, fun hi => ?_, fun hi => ?_⟩
    · rw [hen, movedEntry, if_neg (by omega)]
      exact ⟨rfl, rfl, rfl⟩
    · rw [hen, movedEntry, if_pos hi]
      exact ⟨rfl, rfl⟩

/-- Line 5, requested for the pair at set 3, way 2 and not accessed on its way,
takes the pair to the timing cache. -/
theorem timing_tables_consistent_line_five :
    ∃ s s', timingSystem.Reachable s ∧ timingSystem.pre s (.moveTimingEntry 5) ∧
      s.step (.moveTimingEntry 5) = .ok s' ∧
      let e := s'.tables.cache (timingSet 5) (l1iFindTimingCacheEntry s'.tables 5)
      e.sourceSet = 3 ∧ e.sourceWay = 2 ∧ e.accessed = false := by
  obtain ⟨s, hs, hpr, hi, hse, hw, hac⟩ := System.Reachable.exists_of_leads (S := timingSystem)
    (p := fun s => timingSystem.pre s (.moveTimingEntry 5) ∧
      l1iFindTimingMshrEntry s.tables 5 = 0 ∧ (s.tables.mshr 0).sourceSet = 3 ∧
      (s.tables.mshr 0).sourceWay = 2 ∧ (s.tables.mshr 0).accessed = false)
    [.addTimingEntry 10 5 3 2]
    (.start ⟨⟨fun _ => ⟨false, 0, 0, 0, 0, false, 0⟩, fun _ _ => ⟨false, 0, 0, 0, false⟩⟩, rfl⟩)
    (by decide +kernel)
  obtain ⟨s', hok⟩ := timing_tables_consistent.2.1 s _ hs hpr
  obtain ⟨_, _, hm, _⟩ := timing_tables_consistent.2.2 s s' 5 hs hpr hok
  rw [hi] at hm
  obtain ⟨hse', hw', hac'⟩ := hm (by decide)
  exact ⟨s, s', hs, hpr, hok, hse'.trans hse, hw'.trans hw, hac'.trans hac⟩

end Gem5.Eip
