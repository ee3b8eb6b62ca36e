import Gem5.Lib.System
import Gem5.Mem.Cache.Prefetch.Eip.History

/-!
# Gem5.Mem.Cache.Prefetch.Eip.HistorySound

What the history table records about **time**.

No entry stores when it was inserted. `ringPos h k` is the position of the
`k`-th newest entry and `timeAhead h k` the sum of the time differences of the
`k` newest ones, so `headTime - timeAhead h k` is the cycle the table *claims*
for the insertion of the `k`-th. The walk of `l1i_get_src_entangled_hist_table`
compares these claims; whether it selects timely sources depends on how they
relate to the cycles at which the entries really were inserted.

* Insertion, fillers included, keeps the claimed cycles of all other entries.
* A squash keeps the claimed cycles of all surviving entries but one: the time
  of the removed entries is added to the newest survivor, whose claimed cycle
  thereby jumps to `headTime`.
-/

namespace Gem5.Eip

open Gem5.Lib Function Nat HistTable SquashScan

/-! ### Positions by age -/

/-- The position of the `k`-th newest entry: `k + 1` steps back from the head. -/
def ringPos (h : HistTable) (k : Nat) : Nat := (h.head + 31 * (k + 1)) % 32

theorem ringPos_lt (h : HistTable) (k : Nat) : ringPos h k < 32 := mod_lt _ (by decide)

theorem ringPos_zero (h : HistTable) : ringPos h 0 = h.last := rfl

theorem prevPos_ringPos (h : HistTable) (k : Nat) : prevPos (ringPos h k) = ringPos h (k + 1) := by
  simp only [prevPos, ringPos, l1iHistTableMask, l1iHistTableEntries]
  omega

theorem ringPos_add (h : HistTable) (k : Nat) : ringPos h (k + 32) = ringPos h k := by
  simp only [ringPos]
  omega

variable {h : HistTable} {instrId lineAddr k n i p : Nat} {e : HistEntry} {st : SquashScan}

theorem ringPos_inj {j : Nat} (hj : j < 32) (hk : k < 32) (heq : ringPos h j = ringPos h k) :
    j = k := by
  simp only [ringPos] at heq
  omega

theorem exists_ringPos (h : HistTable) (hi : i < 32) : ∃ k < 32, ringPos h k = i := by
  refine ⟨(h.head + 31 * (i + 1)) % 32, mod_lt _ (by decide), ?_⟩
  simp only [ringPos]
  omega

theorem ringPos_31 (hh : h.head < 32) : ringPos h 31 = h.head := by
  simp only [ringPos]
  omega

variable (h)

/-- The time between the insertion of the `k`-th newest entry and the head time,
as recorded. -/
def timeAhead (k : Nat) : Nat :=
  ∑ j ∈ Finset.range k, (h.entries (ringPos h j)).timeDiff

@[simp] theorem timeAhead_zero : timeAhead h 0 = 0 := rfl

theorem timeAhead_succ (k : Nat) :
    timeAhead h (k + 1) = timeAhead h k + (h.entries (ringPos h k)).timeDiff :=
  Finset.sum_range_succ _ _

@[simp] theorem set_entries_self (p : Nat) (e : HistEntry) : (h.set p e).entries p = e :=
  update_self _ _ _

theorem set_entries_of_ne (e : HistEntry) (hn : i ≠ p) : (h.set p e).entries i = h.entries i :=
  update_of_ne hn _ _

variable {h}

theorem set_same_field {β : Type*} (field : HistEntry → β) (he : field e = field (h.entries p))
    (i : Nat) : field ((h.set p e).entries i) = field (h.entries i) := by
  rcases eq_or_ne i p with rfl | hn
  · rw [set_entries_self, he]
  · rw [set_entries_of_ne h e hn]

/-! ### Insertion -/

theorem ringPos_push (h : HistTable) (e : HistEntry) (time k : Nat) :
    ringPos (h.push e time) (k + 1) = ringPos h k := by
  simp only [ringPos, push, l1iHistTableEntries]
  omega

theorem ringPos_push_zero (hh : h.head < 32) (e : HistEntry) (time : Nat) :
    ringPos (h.push e time) 0 = h.head := by
  simp only [ringPos, push, l1iHistTableEntries]
  omega

theorem push_entries (hh : h.head < 32) (e : HistEntry) (time : Nat) (hk : k < 31) :
    (h.push e time).entries (ringPos h k) = h.entries (ringPos h k) := by
  have hn : ringPos h k ≠ h.head := by
    rw [← ringPos_31 hh]
    intro heq
    have := ringPos_inj (by omega) (by omega) heq
    omega
  exact update_of_ne hn _ _

theorem timeAhead_push (hh : h.head < 32) (e : HistEntry) (time : Nat) :
    ∀ k ≤ 31, timeAhead (h.push e time) (k + 1) = e.timeDiff + timeAhead h k := by
  intro k
  induction k with
  | zero =>
    intro _
    rw [timeAhead_succ, ringPos_push_zero hh, timeAhead_zero]
    simp [push]
  | succ k ih =>
    intro hk
    rw [timeAhead_succ, ih (by omega), ringPos_push, push_entries hh e time (by omega),
      timeAhead_succ]
    omega

/-! ### Squashing -/

/-- The age of the newest entry a squash keeps; `32` when it keeps none. -/
def survivor (h : HistTable) (instrId : Nat) : Nat :=
  firstBelow l1iHistTableEntries fun k => (h.entries (ringPos h k)).instrId ≤ instrId

theorem instrId_le_of_survivor (hm : survivor h instrId < 32) :
    (h.entries (ringPos h (survivor h instrId))).instrId ≤ instrId :=
  of_decide_eq_true (firstBelow_spec hm)

theorem survivor_le (hl : (h.entries (ringPos h k)).instrId ≤ instrId) :
    survivor h instrId ≤ k := by
  rcases lt_or_ge k (survivor h instrId) with hlt | hg
  · exact absurd hl (of_decide_eq_false (firstBelow_min hlt))
  · exact hg

def squashEntry (h : HistTable) (instrId lineAddr k : Nat) : HistEntry :=
  let e := h.entries (ringPos h k)
  if e.instrId > instrId then e.squashed (survivor h instrId < k)
  else if k = survivor h instrId then
    { e.cutBb lineAddr with timeDiff := e.timeDiff + timeAhead h k }
  else e.cutBb lineAddr

/-- The loop of `l1i_squash_hist_table` after `n` iterations. -/
structure SquashInv (h : HistTable) (instrId lineAddr n : Nat) (st : SquashScan) : Prop where
  last : st.last = ringPos h n
  found : st.foundSmaller = decide (survivor h instrId < n)
  time : st.timeToAdd = timeAhead h (min n (survivor h instrId))
  newHead : st.newHead = if survivor h instrId < n then ringPos h (survivor h instrId) else h.last
  visited : ∀ k < n, st.entries (ringPos h k) = squashEntry h instrId lineAddr k
  unvisited : ∀ k < 32, n ≤ k → st.entries (ringPos h k) = h.entries (ringPos h k)

theorem SquashInv.start (h : HistTable) (instrId lineAddr : Nat) :
    SquashInv h instrId lineAddr 0 (start h) where
  last := (ringPos_zero h).symm
  found := by simp [SquashScan.start]
  time := by simp [SquashScan.start]
  newHead := by simp [SquashScan.start]
  visited := fun k hk => absurd hk (not_lt_zero k)
  unvisited := fun _ _ _ => rfl

theorem SquashInv.next {foundSmaller : Bool} {timeToAdd newHead : Nat}
    (hs : SquashInv h instrId lineAddr n st) (hn : n < 32) (he : e = squashEntry h instrId lineAddr n)
    (hf : foundSmaller = decide (survivor h instrId < n + 1))
    (ht : timeToAdd = timeAhead h (min (n + 1) (survivor h instrId)))
    (hh : newHead = if survivor h instrId < n + 1 then ringPos h (survivor h instrId) else h.last) :
    SquashInv h instrId lineAddr (n + 1) { st with
      entries := update st.entries st.last e, last := prevPos st.last, foundSmaller := foundSmaller
      timeToAdd := timeToAdd, newHead := newHead } := by
  have hne : ∀ k < 32, k ≠ n → ringPos h k ≠ st.last := by
    intro k hk hkn heq
    rw [hs.last] at heq
    exact hkn (ringPos_inj hk hn heq)
  refine ⟨by rw [hs.last, prevPos_ringPos], hf, ht, hh, fun k hk => ?_, fun k hk hnk => ?_⟩ <;>
    dsimp only
  · rcases Nat.lt_succ_iff_lt_or_eq.mp hk with hlt | rfl
    · rw [update_of_ne (hne k (by omega) (by omega)), hs.visited k hlt]
    · rw [← hs.last, update_self, he]
  · rw [update_of_ne (hne k hk (by omega)), hs.unvisited k hk (by omega)]

theorem SquashInv.visit (hs : SquashInv h instrId lineAddr n st) (hn : n < 32) :
    SquashInv h instrId lineAddr (n + 1) (st.visit instrId lineAddr) := by
  have hen : st.entries st.last = h.entries (ringPos h n) := by
    rw [hs.last]; exact hs.unvisited n hn le_rfl
  unfold SquashScan.visit
  rw [hen]
  by_cases hq : (h.entries (ringPos h n)).instrId > instrId
  · -- A squashed entry is not the survivor; before it, its time is collected.
    have hne : survivor h instrId ≠ n := by
      intro heq
      have hl : survivor h instrId < 32 := heq ▸ hn
      have := instrId_le_of_survivor hl
      rw [heq] at this
      omega
    rw [if_pos hq]
    refine hs.next hn (by simp only [squashEntry, if_pos hq, hs.found]) ?_ ?_ ?_
    · rw [hs.found]
      exact decide_eq_decide.mpr ⟨fun h => by omega, fun h => by omega⟩
    · rw [hs.found, hs.time]
      rcases lt_or_ge (survivor h instrId) n with hl | hg
      · rw [if_pos (by simpa using hl), min_eq_right (by omega), min_eq_right (by omega)]
      · rw [if_neg (by simpa using hg), min_eq_left (by omega), min_eq_left (by omega),
          timeAhead_succ]
    · rw [hs.newHead]
      rcases lt_or_ge (survivor h instrId) n with hl | hg
      · rw [if_pos hl, if_pos (by omega)]
      · rw [if_neg (by omega), if_neg (by omega)]
  · rw [if_neg hq]
    have hle : survivor h instrId ≤ n := survivor_le (by omega)
    by_cases hf : survivor h instrId < n
    · rw [if_pos (by rw [hs.found]; simpa using hf)]
      refine hs.next hn ?_ ?_ ?_ ?_
      · simp only [squashEntry, if_neg hq, if_neg (by omega : ¬n = survivor h instrId)]
      · rw [hs.found]
        exact decide_eq_decide.mpr ⟨fun h => by omega, fun _ => hf⟩
      · rw [hs.time, min_eq_right (by omega), min_eq_right (by omega)]
      · rw [hs.newHead, if_pos hf, if_pos (by omega)]
    · obtain hn' : n = survivor h instrId := by omega
      rw [if_neg (by rw [hs.found]; simpa using hf)]
      refine hs.next hn ?_ ?_ ?_ ?_
      · simp only [squashEntry, if_neg hq, hs.time, ← hn', min_self, if_true]
      · simp [← hn']
      · rw [hs.time, ← hn', min_self, min_eq_right (by omega)]
      · rw [if_pos (by omega), hs.last, ← hn']

variable (h)

theorem squashInv_iterate (instrId lineAddr : Nat) :
    ∀ n ≤ 32, SquashInv h instrId lineAddr n ((visit instrId lineAddr)^[n] (start h)) := by
  intro n
  induction n with
  | zero => intro _; exact SquashInv.start h instrId lineAddr
  | succ n ih =>
    intro hn
    rw [iterate_succ_apply']
    exact (ih (by omega)).visit (by omega)

theorem squashScan_inv (instrId lineAddr : Nat) :
    SquashInv h instrId lineAddr l1iHistTableEntries (squashScan h instrId lineAddr) := by
  exact squashInv_iterate h instrId lineAddr l1iHistTableEntries le_rfl

theorem squash_entries (instrId lineAddr : Nat) (hk : k < 32) :
    (l1iSquashHistTable h instrId lineAddr).entries (ringPos h k) =
      squashEntry h instrId lineAddr k := by
  simp only [l1iSquashHistTable]
  exact (squashScan_inv h instrId lineAddr).visited k hk

theorem ringPos_squash (instrId lineAddr k : Nat) :
    ringPos (l1iSquashHistTable h instrId lineAddr) k = ringPos h (k + survivor h instrId) := by
  have hm : survivor h instrId ≤ 32 := firstBelow_le _ _
  have hhd := (squashScan_inv h instrId lineAddr).newHead
  simp only [ringPos, l1iSquashHistTable, l1iHistTableEntries, HistTable.last, prevPos,
    l1iHistTableMask] at hhd ⊢
  rw [hhd]
  split <;> omega

theorem squash_headTime (instrId lineAddr : Nat) :
    (l1iSquashHistTable h instrId lineAddr).headTime = h.headTime := by
  simp only [l1iSquashHistTable]

theorem squash_head_lt (instrId lineAddr : Nat) :
    (l1iSquashHistTable h instrId lineAddr).head < 32 := by
  exact mod_lt _ (by decide)

variable {h}

@[simp] theorem cutBb_tag (e : HistEntry) (lineAddr : Nat) : (e.cutBb lineAddr).tag = e.tag := by
  unfold HistEntry.cutBb; split <;> rfl

@[simp] theorem cutBb_timeDiff (e : HistEntry) (lineAddr : Nat) :
    (e.cutBb lineAddr).timeDiff = e.timeDiff := by
  unfold HistEntry.cutBb; split <;> rfl

theorem squashEntry_timeDiff_of_lt (hk : survivor h instrId < k) :
    (squashEntry h instrId lineAddr k).timeDiff = (h.entries (ringPos h k)).timeDiff := by
  simp only [squashEntry]
  split
  · simp [HistEntry.squashed, hk]
  · rw [if_neg (by omega)]
    exact cutBb_timeDiff _ _

theorem squashEntry_tag_ne_zero (hn : (squashEntry h instrId lineAddr k).tag ≠ 0) :
    (h.entries (ringPos h k)).instrId ≤ instrId ∧
      (squashEntry h instrId lineAddr k).tag = (h.entries (ringPos h k)).tag := by
  simp only [squashEntry] at hn ⊢
  split at hn
  · exact absurd rfl hn
  · rename_i hsq
    rw [if_neg hsq]
    refine ⟨by omega, ?_⟩
    split <;> exact cutBb_tag _ _

theorem timeAhead_squash (h : HistTable) (instrId lineAddr : Nat) :
    ∀ k, k + survivor h instrId < 32 →
      timeAhead (l1iSquashHistTable h instrId lineAddr) (k + 1) =
        timeAhead h (k + 1 + survivor h instrId) := by
  intro k
  induction k with
  | zero =>
    intro hm
    have hp := ringPos_squash h instrId lineAddr 0
    rw [zero_add] at hp hm
    rw [timeAhead_succ, timeAhead_zero, hp, squash_entries h instrId lineAddr hm, zero_add,
      add_comm 1, timeAhead_succ]
    have := instrId_le_of_survivor hm
    simp only [squashEntry]
    rw [if_neg (by omega)]
    simp only [if_true]
    omega
  | succ k ih =>
    intro hk
    rw [timeAhead_succ, ih (by omega), ringPos_squash,
      squash_entries h instrId lineAddr (by omega), squashEntry_timeDiff_of_lt (by omega),
      show k + 1 + 1 + survivor h instrId = (k + 1 + survivor h instrId) + 1 by omega,
      timeAhead_succ]

/-! ### Choosing a source -/

theorem consider_best (acc : SrcScan) (e : HistEntry) (i formatI : Nat) :
    (acc.consider e i formatI).1.timeI = acc.timeI ∧
      ((acc.consider e i formatI).1.bestEntangled = acc.bestEntangled ∨
        (acc.consider e i formatI).1.bestEntangled = e.tag) := by
  unfold SrcScan.consider
  dsimp only
  split_ifs <;> simp

theorem l1iGetSrcEntangledHistTable_cases {h' : HistTable} {posHist latency src : Nat}
    (hs : l1iGetSrcEntangledHistTable h lineAddr posHist latency = .ok (h', src)) :
    h' = h ∨ ∃ p format, h' = h.set p
      { h.entries p with format := format, numDst := (h.entries p).numDst + 1 } := by
  unfold l1iGetSrcEntangledHistTable at hs
  dsimp only at hs
  split at hs
  · exact absurd hs (by simp)
  · split at hs
    · exact absurd hs (by simp)
    · split at hs
      · exact Or.inl (congrArg Prod.fst (Except.ok.inj hs)).symm
      · obtain ⟨scan, _, hr⟩ := bind_eq_ok.mp hs
        cases scan with
        | none => exact Or.inl (congrArg Prod.fst (Except.ok.inj hr)).symm
        | some acc =>
          dsimp only at hr
          split at hr
          · exact Or.inr ⟨acc.posBest, acc.formatBest, (congrArg Prod.fst (Except.ok.inj hr)).symm⟩
          · exact Or.inl (congrArg Prod.fst (Except.ok.inj hr)).symm

end Gem5.Eip
