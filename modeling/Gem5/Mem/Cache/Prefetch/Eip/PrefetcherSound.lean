import Gem5.Mem.Cache.Prefetch.Eip.EntangledSound
import Gem5.Mem.Cache.Prefetch.Eip.HistorySound
import Gem5.Mem.Cache.Prefetch.Eip.Prefetcher

/-!
# Gem5.Mem.Cache.Prefetch.Eip.PrefetcherSound

The prefetcher keeps the invariant of its entangled table, so the assertions
that rely on it never fire.

Two things have to be carried through every notification: the entangled table
satisfies `TableInv`, and what the history table will spill into it is in range
(`HistTable.WF`). The candidate loop of `calculatePrefetch` then finds no more
destinations than the smallest of their formats, because every destination it
finds is a slot of one entry, and all of them share at least the high bits that
the entry's format drops.
-/

namespace Gem5.Eip

open Gem5.Lib Gem5.Prefetch EntangledEntry Function List Nat Succeeds

/-! ### What the history spills is in range -/

/-- Tag and source are lines, and the basic-block size fits its field. -/
structure HistEntry.WF (e : HistEntry) : Prop where
  tag_lt : e.tag < 2 ^ 58
  bbSize_le : e.bbSize ≤ l1iMergeBbsizeMaxValue
  entSrc_lt : e.entSrc < 2 ^ 58

/-- Every entry is in range, and so is the head. -/
structure HistTable.WF (h : HistTable) : Prop where
  head_lt : h.head < l1iHistTableEntries
  entry : ∀ i < l1iHistTableEntries, (h.entries i).WF

theorem histTag_lt (lineAddr : Nat) : histTag lineAddr < 2 ^ 58 := by
  rw [histTag, and_two_pow_sub_one_eq_mod]
  exact mod_lt _ (by decide)

variable {tag : Nat} {t' : EntangledTable}

theorem HistEntry.WF.of_tag (h : tag < 2 ^ 58) (timeDiff instrId format numDst : Nat) :
    HistEntry.WF ⟨tag, timeDiff, 0, instrId, 0, format, numDst⟩ :=
  ⟨h, zero_le _, Nat.two_pow_pos 58⟩

theorem HistEntry.WF.dropBb {e : HistEntry} (he : e.WF) : { e with bbSize := 0 }.WF :=
  ⟨he.tag_lt, zero_le _, he.entSrc_lt⟩

namespace HistTable.WF

theorem init (cycle : Nat) : (l1iInitHistTable cycle).WF :=
  ⟨by simp [l1iInitHistTable], fun _ _ => HistEntry.WF.of_tag (by decide) 0 0 0 0⟩

variable {h : HistTable} {e : HistEntry}

theorem set (hw : h.WF) (p : Nat) (he : p < l1iHistTableEntries → e.WF) : (h.set p e).WF := by
  refine ⟨hw.head_lt, fun i hi => ?_⟩
  rcases eq_or_ne i p with rfl | hn
  · rw [set_entries_self]
    exact he hi
  · rw [set_entries_of_ne h e hn]
    exact hw.entry i hi

theorem push (hw : h.WF) (he : e.WF) (time : Nat) : (h.push e time).WF := by
  refine ⟨mod_lt _ (by decide), fun i hi => ?_⟩
  rcases eq_or_ne i h.head with rfl | hn
  · simpa [HistTable.push] using he
  · simpa [HistTable.push, update_of_ne hn] using hw.entry i hi

theorem squashEntry (hw : h.WF) (instrId lineAddr k : Nat) :
    (Gem5.Eip.squashEntry h instrId lineAddr k).WF := by
  have he := hw.entry _ (ringPos_lt h k)
  have hc : ((h.entries (ringPos h k)).cutBb lineAddr).WF := by
    unfold HistEntry.cutBb
    split
    · refine ⟨he.tag_lt, ?_, he.entSrc_lt⟩
      have := he.bbSize_le
      dsimp only
      omega
    · exact he
  unfold Gem5.Eip.squashEntry
  dsimp only
  split
  · exact ⟨by simp [HistEntry.squashed], zero_le _, by simp [HistEntry.squashed]⟩
  · split
    · exact ⟨hc.tag_lt, hc.bbSize_le, hc.entSrc_lt⟩
    · exact hc

theorem squash (hw : h.WF) (instrId lineAddr : Nat) :
    (l1iSquashHistTable h instrId lineAddr).WF := by
  refine ⟨squash_head_lt h instrId lineAddr, fun i hi => ?_⟩
  obtain ⟨k, hk, rfl⟩ := exists_ringPos h hi
  rw [squash_entries h instrId lineAddr hk]
  exact hw.squashEntry instrId lineAddr k

theorem l1iAddBbSizeHistTable (hw : h.WF) (lineAddr bbSize : Nat) :
    Outcome HistTable.WF (· = .addBbSizeHistTable)
      (Gem5.Eip.l1iAddBbSizeHistTable h lineAddr bbSize) := by
  unfold Gem5.Eip.l1iAddBbSizeHistTable
  dsimp only
  split
  · refine hw.set _ fun hlt => ?_
    have he := hw.entry _ hlt
    exact ⟨he.tag_lt, and_le_right, he.entSrc_lt⟩
  · rfl

end HistTable.WF

/-! ### Spilling to the entangled table -/

variable {t : EntangledTable} {t₀ : EntangledTable} {acc : PfScan} {h : HistTable}
  {lineAddr format addr numEntangled : Nat}

theorem l1iGetBbsizeEntangledTable_le (ht : TableInv t) (lineAddr : Nat) :
    l1iGetBbsizeEntangledTable t lineAddr ≤ l1iMergeBbsizeMaxValue := by
  unfold l1iGetBbsizeEntangledTable
  dsimp only
  split
  · rename_i hwa
    exact ((ht _ (entangledSet_lt lineAddr)).entry _ hwa).bbSize_le
  · exact zero_le _

theorem l1iMoveHistoryHeadToEntangled_spec (hw : h.WF) (ht : TableInv t) :
    Succeeds TableInv (l1iMoveHistoryHeadToEntangled h t) := by
  have he := hw.entry _ hw.head_lt
  have hp : ∀ t', TableInv t' → Succeeds TableInv (if (h.entries h.head).entSrc ≠ 0 then
      l1iAddEntangledTable t' (h.entries h.head).entSrc (h.entries h.head).tag else .ok t') := by
    intro t' ht'
    split
    · exact of_exists (ht'.l1iAddEntangledTable he.entSrc_lt he.tag_lt)
    · exact ht'
  unfold l1iMoveHistoryHeadToEntangled
  dsimp only
  split
  · have hbb := max_le (l1iGetBbsizeEntangledTable_le ht (h.entries h.head).tag) he.bbSize_le
    exact (of_exists (ht.l1iAddBbsizeTable _ hbb)).bind hp
  · exact hp t ht

theorem addFillers_spec (cycle : Nat) :
    ∀ (fuel : Nat) {h : HistTable} {t : EntangledTable}, h.WF → TableInv t →
      cycle - h.headTime < fuel →
      Succeeds (fun r => r.1.WF ∧ TableInv r.2) (addFillers cycle fuel h t) := by
  intro fuel
  induction fuel with
  | zero => intro h t _ _ hlt; exact absurd hlt (not_lt_zero _)
  | succ fuel ih =>
    intro h t hw ht hlt
    rw [addFillers]
    split
    · rename_i hov
      refine (l1iMoveHistoryHeadToEntangled_spec hw ht).bind fun t' ht' => ?_
      refine ih (hw.push (HistEntry.WF.of_tag (by decide) _ 0 0 0) _) ht' ?_
      simp only [HistTable.push, l1iTimeDiffMask, l1iTimeDiffOverflow, l1iTimeDiffBits] at hov ⊢
      omega
    · exact ⟨hw, ht⟩

theorem l1iAddHistTable_spec (hw : h.WF) (ht : TableInv t)
    (cycle lineAddr instrId format numDst : Nat) :
    Succeeds (fun r => r.1.WF ∧ TableInv r.2.1)
      (l1iAddHistTable h t cycle lineAddr instrId format numDst) := by
  refine (addFillers_spec cycle _ hw ht (lt_succ_self _)).bind fun r hr => ?_
  obtain ⟨hw', ht'⟩ := hr
  refine (l1iMoveHistoryHeadToEntangled_spec hw' ht').bind fun t₂ ht₂ => ?_
  exact ⟨hw'.push (HistEntry.WF.of_tag (histTag_lt lineAddr) _ instrId format numDst) cycle, ht₂⟩

/-! ### Selecting a source -/

theorem srcWalk_spec (hw : h.WF) (hta : tag < 2 ^ 58) (latency first : Nat) :
    ∀ (fuel i : Nat) (acc : SrcScan), i < l1iHistTableEntries → acc.bestEntangled < 2 ^ 58 →
      Succeeds (fun r : Option SrcScan => ∀ acc' ∈ r, acc'.bestEntangled < 2 ^ 58)
        (srcWalk h tag latency first fuel i acc) := by
  intro fuel
  induction fuel with
  | zero =>
    intro i acc _ ha acc' ha'
    obtain rfl : acc = acc' := by simpa using ha'
    exact ha
  | succ fuel ih =>
    intro i acc hi ha
    have hpr : prevPos i < l1iHistTableEntries := mod_lt _ (by decide)
    have he := hw.entry i hi
    rw [srcWalk]
    split
    · intro acc' ha'
      obtain rfl : acc = acc' := by simpa using ha'
      exact ha
    · dsimp only
      split
      · intro acc' ha'
        exact absurd ha' (by simp)
      · split
        · obtain ⟨f, hf, _⟩ := l1iGetFormatEntangled_spec he.tag_lt hta
          rw [hf]
          obtain ⟨_, hb⟩ := consider_best acc (h.entries i) i f
          have hb' : (acc.consider (h.entries i) i f).1.bestEntangled < 2 ^ 58 := by
            rcases hb with hol | hne
            · rwa [hol]
            · rw [hne]
              exact he.tag_lt
          show Succeeds _ (if _ then _ else _)
          split
          · intro acc' ha'
            obtain rfl : _ = acc' := by simpa using ha'
            exact hb'
          · exact ih _ _ hpr hb'
        · exact ih _ _ hpr ha

theorem l1iGetSrcEntangledHistTable_spec (hw : h.WF) (lineAddr posHist latency : Nat) :
    Outcome (fun r => r.1.WF ∧ r.2 < 2 ^ 58) (fun f => f = .srcPosHist ∨ f = .srcTag)
      (l1iGetSrcEntangledHistTable h lineAddr posHist latency) := by
  unfold l1iGetSrcEntangledHistTable
  dsimp only
  split
  · exact Or.inl rfl
  · split
    · exact Or.inr rfl
    · split
      · exact ⟨hw, Nat.two_pow_pos 58⟩
      · have hpr : prevPos posHist < l1iHistTableEntries := mod_lt _ (by decide)
        have hwa := srcWalk_spec hw (histTag_lt lineAddr) latency h.last l1iHistTableEntries
          (prevPos posHist)
          { timeI := (h.entries posHist).timeDiff, numSearched := 0, bestEntangled := 0,
            posBest := 0, formatBest := 0, found := 0 } hpr (Nat.two_pow_pos 58)
        refine (hwa.imp (fun _ => id) fun _ => False.elim).bind fun r hr => ?_
        cases r with
        | none => exact ⟨hw, Nat.two_pow_pos 58⟩
        | some acc =>
          have hbe := hr acc rfl
          show Outcome _ _ (if _ then _ else _)
          split
          · refine ⟨hw.set _ fun hlt => ?_, hbe⟩
            have he := hw.entry _ hlt
            exact ⟨he.tag_lt, he.bbSize_le, he.entSrc_lt⟩
          · exact ⟨hw, Nat.two_pow_pos 58⟩

/-! ### Confidence updates -/

structure EntangledEntry.Weaker (e' e : EntangledEntry) : Prop where
  tag : e'.tag = e.tag
  format : e'.format = e.format
  addr : e'.entangledAddr = e.entangledAddr
  bbSize : e'.bbSize = e.bbSize
  valid : ∀ k, e'.Valid k → e.Valid k

theorem EntangledEntry.Weaker.refl (e : EntangledEntry) : e.Weaker e :=
  ⟨rfl, rfl, rfl, rfl, fun _ => id⟩

theorem EntangledEntry.Weaker.trans {a b c : EntangledEntry} (ha : a.Weaker b)
    (hb : b.Weaker c) : a.Weaker c :=
  ⟨ha.tag.trans hb.tag, ha.format.trans hb.format, ha.addr.trans hb.addr,
    ha.bbSize.trans hb.bbSize, fun k hk => hb.valid k (ha.valid k hk)⟩

theorem EntangledEntry.Weaker.setConf {e : EntangledEntry} {k : Slot} (hk : e.Valid k) (c : Nat) :
    (e.setConf k c).Weaker e := by
  refine ⟨rfl, rfl, rfl, rfl, fun j hj => ?_⟩
  rw [setConf_valid_iff] at hj
  split at hj
  · rename_i hjk
    exact hjk ▸ hk
  · exact hj

theorem EntangledEntry.Weaker.updateConf (a : Nat) (accessed : Bool) (e : EntangledEntry)
    (k : Slot) : (e.updateConf a accessed k).Weaker e := by
  unfold EntangledEntry.updateConf
  split
  · rename_i hk
    cases accessed with
    | true =>
      split
      · exact .setConf hk.1 _
      · exact .refl e
    | false =>
      simp only [Bool.false_eq_true, false_and, if_false]
      split
      · exact .setConf hk.1 _
      · exact .refl e
  · exact .refl e

theorem EntangledEntry.Weaker.foldl_updateConf (a : Nat) (accessed : Bool) (ks : List Slot) :
    ∀ e : EntangledEntry, (ks.foldl (EntangledEntry.updateConf a accessed) e).Weaker e := by
  induction ks with
  | nil => intro e; exact .refl e
  | cons k ks ih =>
    intro e
    exact (ih _).trans (.updateConf a accessed e k)

def TableWeaker (t' t : EntangledTable) : Prop :=
  ∀ set way, ((t' set).ways way).Weaker ((t set).ways way)

theorem TableWeaker.refl (t : EntangledTable) : TableWeaker t t := fun _ _ => .refl _

theorem TableWeaker.updateConfidence (h : TableWeaker t' t) (set way a : Nat) (accessed : Bool) :
    TableWeaker (l1iUpdateConfidenceEntangledTable t' set way a accessed) t := by
  intro set₁ way₁
  refine EntangledEntry.Weaker.trans ?_ (h set₁ way₁)
  unfold l1iUpdateConfidenceEntangledTable
  split
  · rcases eq_or_ne set₁ set with rfl | hse
    · rw [update_self, EntangledSet.setWay_ways]
      split
      · rename_i hwa
        rw [hwa]
        exact .foldl_updateConf a accessed _ _
      · exact .refl _
    · rw [update_of_ne hse]
      exact .refl _
  · exact .refl _

theorem TableWeaker.getWay (h : TableWeaker t' t) (lineAddr : Nat) :
    l1iGetWayEntangledTable t' lineAddr = l1iGetWayEntangledTable t lineAddr := by
  simp only [l1iGetWayEntangledTable, EntangledSet.findWay, (h _ _).tag]

/-! ### The candidate loop -/

@[simp] theorem issue_entangled (t : TimingTables) (acc : PfScan) (l a s w : Nat) :
    (acc.issue t l a s w).entangled = acc.entangled := by
  unfold PfScan.issue; split <;> rfl

@[simp] theorem issue_format (t : TimingTables) (acc : PfScan) (l a s w : Nat) :
    (acc.issue t l a s w).format = acc.format := by
  unfold PfScan.issue; split <;> rfl

@[simp] theorem issue_numEntangled (t : TimingTables) (acc : PfScan) (l a s w : Nat) :
    (acc.issue t l a s w).numEntangled = acc.numEntangled := by
  unfold PfScan.issue; split <;> rfl

def PfScan.Keeps (t₀ : EntangledTable) (format numEntangled : Nat) (acc : PfScan) : Prop :=
  TableInv acc.entangled ∧ TableWeaker acc.entangled t₀ ∧ acc.format = format ∧
    acc.numEntangled = numEntangled

theorem PfScan.Keeps.entangledLine (h : acc.Keeps t₀ format numEntangled) (t : TimingTables)
    {set way : Nat} (hwa : way < l1iEtWays) (line i : Nat) :
    Succeeds (PfScan.Keeps t₀ format numEntangled) (acc.entangledLine t set way line i) := by
  obtain ⟨hin, hw, hfo, hnu⟩ := h
  unfold PfScan.entangledLine
  rw [if_pos hwa]
  refine ⟨?_, ?_, ?_, ?_⟩
  · rw [issue_entangled]
    split
    · exact hin.l1iUpdateConfidenceEntangledTable set way _ false
    · exact hin
  · rw [issue_entangled]
    split
    · exact hw.updateConfidence set way _ false
    · exact hw
  · rw [issue_format]
    split <;> exact hfo
  · rw [issue_numEntangled]
    split <;> exact hnu

/-- The state of the candidate loop after the slots `ks`: the entry of the line
has only lost destinations, those counted are slots that held one, and their
formats are no smaller than the entry's. -/
structure SlotScanInv (t₀ : EntangledTable) (lineAddr : Nat) (ks : List Slot) (acc : PfScan) :
    Prop where
  table : TableInv acc.entangled
  weaker : TableWeaker acc.entangled t₀
  count : acc.numEntangled ≤ (ks.filter fun k => decide (l1iGetWayEntangledTable t₀ lineAddr <
    l1iEtWays ∧ ((t₀ (entangledSet lineAddr)).ways (l1iGetWayEntangledTable t₀ lineAddr)).Valid k)).length
  format : l1iGetWayEntangledTable t₀ lineAddr < l1iEtWays →
    ((t₀ (entangledSet lineAddr)).ways (l1iGetWayEntangledTable t₀ lineAddr)).format ≤ acc.format

theorem SlotScanInv.slot {ks : List Slot} (hl : lineAddr < 2 ^ 58)
    (h : SlotScanInv t₀ lineAddr ks acc) (t : TimingTables) (k : Slot) :
    Succeeds (SlotScanInv t₀ lineAddr (ks ++ [k])) (acc.slot t lineAddr k) := by
  have hwa := h.weaker.getWay lineAddr
  have hcn := h.count
  unfold PfScan.slot
  dsimp only [l1iGetEntangledAddrEntangledTable]
  rw [hwa]
  by_cases hc : l1iGetWayEntangledTable t₀ lineAddr < l1iEtWays ∧
      ((acc.entangled (entangledSet lineAddr)).ways (l1iGetWayEntangledTable t₀ lineAddr)).Valid k
  · simp only [if_pos hc]
    obtain ⟨ht, hv⟩ := hc
    have hw := h.weaker (entangledSet lineAddr) (l1iGetWayEntangledTable t₀ lineAddr)
    have hv₀ := hw.valid k hv
    have he := (h.table _ (entangledSet_lt lineAddr)).entry _ ht
    have hfl : acc.numEntangled + 1 ≤ ((ks ++ [k]).filter fun k => decide
        (l1iGetWayEntangledTable t₀ lineAddr < l1iEtWays ∧ ((t₀ (entangledSet lineAddr)).ways
          (l1iGetWayEntangledTable t₀ lineAddr)).Valid k)).length := by
      rw [filter_append, filter_singleton, decide_eq_true ⟨ht, hv₀⟩]
      simpa using hcn
    split
    · obtain ⟨f, hf, _⟩ := l1iGetFormatEntangled_spec hl (dest_lt he hl k)
      have hle := format_le_of_dest he hl hf
      rw [hw.format] at hle
      have hfor := h.format ht
      rw [hf]
      refine Outcome.imp (Outcome.foldlM (PfScan.Keeps t₀
        (if f < acc.format then f else acc.format) (acc.numEntangled + 1))
        (fun a i ha => ha.entangledLine t ht _ i) _ ⟨h.table, h.weaker, rfl, rfl⟩)
        (fun a ha => ?_) (fun _ => id)
      obtain ⟨hin, hwe, hf', hnu⟩ := ha
      refine ⟨hin, hwe, ?_, fun _ => ?_⟩
      · rw [hnu]
        exact hfl
      · rw [hf']
        split <;> assumption
    · exact ⟨h.table, h.weaker, by omega, h.format⟩
  · simp only [if_neg hc, ne_eq]
    refine ⟨h.table, h.weaker, le_trans hcn ?_, h.format⟩
    rw [filter_append, length_append]
    exact le_add_right _ _

theorem SlotScanInv.foldlM (hl : lineAddr < 2 ^ 58) (t : TimingTables) (ks : List Slot) :
    ∀ (done : List Slot) {acc : PfScan}, SlotScanInv t₀ lineAddr done acc →
      Succeeds (SlotScanInv t₀ lineAddr (done ++ ks)) (ks.foldlM (PfScan.slot t lineAddr) acc) := by
  induction ks with
  | nil =>
    intro done acc h
    rw [append_nil]
    exact h
  | cons k ks ih =>
    intro done acc h
    refine (h.slot hl t k).bind fun acc' h' => ?_
    rw [show done ++ k :: ks = (done ++ [k]) ++ ks by simp]
    exact ih (done ++ [k]) h'

theorem basicBlock_keeps (t : TimingTables) (addr : Nat) (h : acc.Keeps t₀ format numEntangled) :
    (acc.basicBlock t addr).Keeps t₀ format numEntangled := by
  refine foldlRecOn _ _ h fun acc' h' i _ => ?_
  simpa only [PfScan.Keeps, issue_entangled, issue_format, issue_numEntangled] using h'

/-- **The candidate loop** keeps the table's invariant and counts no more
destinations than the smallest of their formats. -/
theorem Prefetcher.scan_spec {s : Prefetcher} (ht : TableInv s.entangled) (hadr : addr < 2 ^ 64) :
    Succeeds (fun pf => TableInv pf.entangled ∧ pf.numEntangled ≤ pf.format) (s.scan addr) := by
  have hl : addr >>> 6 < 2 ^ 58 := by
    omega
  obtain ⟨hin, hwe, hfo, hnu⟩ :
      PfScan.Keeps s.entangled l1iEntangledNumFormats 0 (PfScan.basicBlock s.timing addr
        { entangled := s.entangled, format := l1iEntangledNumFormats, numEntangled := 0,
          bbSize := l1iGetBbsizeEntangledTable s.entangled (addr >>> log2BlockSize),
          addresses := [], pfmq := s.pfmq }) :=
    basicBlock_keeps s.timing addr ⟨ht, .refl _, rfl, rfl⟩
  refine (SlotScanInv.foldlM hl s.timing _ [] ⟨hin, hwe, ?_, fun hlt => ?_⟩).imp
    (fun pf hpf => ?_) (fun _ => id)
  · rw [hnu]
    exact zero_le _
  · rw [hfo]
    exact ((ht _ (entangledSet_lt _)).entry _ hlt).format_le
  · refine ⟨hpf.table, le_trans hpf.count ?_⟩
    by_cases hlt : l1iGetWayEntangledTable s.entangled (addr >>> 6) < l1iEtWays
    · refine le_trans ?_ (hpf.format hlt)
      refine le_trans ?_ ((ht _ (entangledSet_lt _)).entry _ hlt).card_le
      rw [card_validSlots]
      simp [hlt]
    · simp [hlt]

/-! ### Notifications -/

/-- The assertions that rely on the entangled table and on what it is fed. -/
def Fault.isEntangledAssert : Fault → Bool
  | .getFormatEntangled | .addBbsizeTable | .addEntangledLoop | .addHistLoop
  | .sourceWay | .formatNumEntangled => true
  | _ => false

structure Prefetcher.Inv (s : Prefetcher) : Prop where
  table : TableInv s.entangled
  hist : s.hist.WF

/-- The call keeps the invariant, or violates an assertion of another kind. -/
abbrev KeepsInv {α : Type} (state : α → Prefetcher) : Except Fault α → Prop :=
  Outcome (fun r => (state r).Inv) fun f => f.isEntangledAssert = false

namespace Prefetcher

theorem Inv.init (cycle : Nat) (raw : TimingTables) : (Prefetcher.init cycle raw).Inv :=
  ⟨tableInv_init, HistTable.WF.init cycle⟩

theorem l1iAddTimingEntry_outcome (t : TimingTables) (cycle lineAddr set way : Nat) :
    Outcome (fun _ => True) (fun f => f.isEntangledAssert = false)
      (l1iAddTimingEntry t cycle lineAddr set way) := by
  unfold l1iAddTimingEntry l1iGetInvalidTimingMshrEntry
  dsimp only
  split
  · trivial
  · split
    · trivial
    · split
      · trivial
      · rfl

theorem findBbMergeFrom_outcome (h : HistTable) (tag : Nat) :
    ∀ n count i, Outcome (fun _ => True) (fun f => f.isEntangledAssert = false)
      (findBbMergeFrom h tag n count i) := by
  intro n
  induction n with
  | zero => intro count i; rfl
  | succ n ih =>
    intro count i
    rw [findBbMergeFrom]
    split
    · trivial
    · split
      · trivial
      · exact ih _ _

variable {s : Prefetcher}

section

variable (hs : s.Inv) {pfi : PrefetchInfo}

include hs

theorem Inv.newBasicBlock (lineAddr : Nat) : KeepsInv id (s.newBasicBlock lineAddr) := by
  have hr : ∀ h : HistTable, h.WF → KeepsInv id (do
      let mergeDiff ← l1iFindBbMergeHistTable h lineAddr
      return { s with
        hist := h
        consecutiveCount := 0
        lastBasicBlock := lineAddr
        basicBlockMergeDiff := mergeDiff } : Except Fault Prefetcher) := by
    intro h hw
    exact (findBbMergeFrom_outcome h _ _ _ _).bind fun _ _ => ⟨hs.table, hw⟩
  have had : ∀ line bb, Outcome HistTable.WF (fun f => f.isEntangledAssert = false)
      (l1iAddBbSizeHistTable s.hist line bb) := by
    intro line bb
    exact (hs.hist.l1iAddBbSizeHistTable line bb).imp (fun _ => id) fun f hf => hf ▸ rfl
  unfold Prefetcher.newBasicBlock
  split
  · exact hr _ hs.hist
  · split
    · exact (had _ _).bind hr
    · exact (had _ _).bind hr

theorem Inv.recordHistory (cycle lineAddr instrId format numEntangled : Nat)
    (cacheHit consecutive : Bool) :
    KeepsInv Prod.fst
      (s.recordHistory cycle lineAddr instrId format numEntangled cacheHit consecutive) := by
  unfold Prefetcher.recordHistory
  split
  · refine Outcome.bind ((l1iAddHistTable_spec hs.hist hs.table cycle lineAddr instrId format
      numEntangled).imp (fun _ => id) fun _ => False.elim) fun r hr => ?_
    exact ⟨hr.2, hr.1⟩
  · exact hs

theorem Inv.recordTiming (cycle lineAddr posHist : Nat) (cacheHit : Bool) :
    KeepsInv id (s.recordTiming cycle lineAddr posHist cacheHit) := by
  unfold Prefetcher.recordTiming
  split
  · exact (l1iAddTimingEntry_outcome _ _ _ _ _).bind fun _ _ => ⟨hs.table, hs.hist⟩
  · exact ⟨hs.table, hs.hist⟩

omit hs in
theorem checkTimingCache_outcome (s : Prefetcher) (lineAddr : Nat) (cacheHit : Bool) :
    Outcome (fun _ => True) (fun f => f.isEntangledAssert = false)
      (s.checkTimingCache lineAddr cacheHit) := by
  unfold checkTimingCache
  dsimp only
  split
  · rfl
  · split
    · rfl
    · trivial

theorem Inv.record (cycle : Nat) (pfi : PrefetchInfo) (consecutive : Bool) (pf : PfScan) :
    KeepsInv Prod.fst (s.record cycle pfi consecutive pf) := by
  have hre : ∀ s' : Prefetcher, s'.Inv → KeepsInv Prod.fst (do
      let r ← s'.recordHistory cycle (pfi.address >>> log2BlockSize) pfi.instrId
        (if pf.numEntangled = 0 ∧ pf.bbSize = 0 then 0 else pf.format) pf.numEntangled
        (!pfi.cacheMiss) consecutive
      let s ← r.1.recordTiming cycle (pfi.address >>> log2BlockSize) r.2 (!pfi.cacheMiss)
      return (s, r.2) : Except Fault (Prefetcher × Nat)) := by
    intro s' hs'
    refine (hs'.recordHistory cycle _ _ _ _ _ _).bind fun r hr => ?_
    exact (hr.recordTiming cycle _ _ _).bind fun s'' hs'' => hs''
  unfold Prefetcher.record
  dsimp only
  split
  · exact hre s hs
  · exact (hs.newBasicBlock _).bind hre

theorem Inv.observe (cycle : Nat) (had : pfi.address < 2 ^ 64) (consecutive : Bool) :
    KeepsInv Prod.fst (s.observe cycle pfi consecutive) := by
  refine Outcome.bind ((scan_spec hs.table had).imp (fun _ => id) fun _ => False.elim)
    fun pf hpf => ?_
  rw [if_pos hpf.2]
  exact (Inv.record (s := { s with entangled := pf.entangled, pfmq := pf.pfmq })
    ⟨hpf.1, hs.hist⟩ cycle pfi consecutive pf).bind fun r hr => hr

/-- **`calculatePrefetch`** keeps the invariant and never finds more destinations
than their format allows. -/
theorem Inv.calculatePrefetch (cycle : Nat) (had : pfi.address < 2 ^ 64) :
    KeepsInv Prod.fst (s.calculatePrefetch cycle pfi) := by
  refine (checkTimingCache_outcome s _ _).bind fun _ _ => ?_
  split
  · exact hs
  · split
    · exact Inv.observe (s := s.continueBlock) ⟨hs.table, hs.hist⟩ cycle had true
    · exact hs.observe cycle had false

theorem Inv.notifySquash (ip instrId : Nat) : (s.notifySquash ip instrId).Inv := by
  have hw := hs.hist.squash instrId (ip >>> log2BlockSize)
  unfold Prefetcher.notifySquash
  dsimp only
  split
  · exact ⟨hs.table, hw.set _ fun hlt => (hw.entry _ hlt).dropBb⟩
  · exact ⟨hs.table, hw⟩

omit hs in
theorem l1iMoveTimingEntry_outcome (t : TimingTables) (lineAddr : Nat) :
    Outcome (fun _ => True) (fun f => f.isEntangledAssert = false)
      (l1iMoveTimingEntry t lineAddr) := by
  have hw : Outcome (fun _ => True) (fun f => f.isEntangledAssert = false)
      (l1iGetInvalidTimingCacheEntry t lineAddr) := by
    unfold l1iGetInvalidTimingCacheEntry
    dsimp only
    split
    · trivial
    · rfl
  unfold l1iMoveTimingEntry
  dsimp only
  split
  · exact hw.bind fun _ _ => trivial
  · refine hw.bind fun way _ => ?_
    unfold l1iInvalidTimingMshrEntry
    dsimp only
    split
    · trivial
    · rfl

theorem Inv.notifyFill (cycle addr : Nat) : KeepsInv id (s.notifyFill cycle addr) := by
  refine (l1iMoveTimingEntry_outcome _ _).bind fun timing _ => ?_
  split
  · refine Outcome.bind ((l1iGetSrcEntangledHistTable_spec hs.hist _ _ _).imp (fun _ => id)
      fun f hf => ?_) fun src hr => ?_
    · rcases hf with rfl | rfl <;> rfl
    · split
      · split
        · refine ⟨hs.table, hr.1.set _ fun hlt => ?_⟩
          have he := hr.1.entry _ hlt
          exact ⟨he.tag_lt, he.bbSize_le, hr.2⟩
        · rfl
      · exact ⟨hs.table, hr.1⟩
  · exact ⟨hs.table, hs.hist⟩

theorem Inv.notifyInvalidate (addr : Nat) : (s.notifyInvalidate addr).Inv := by
  refine ⟨?_, hs.hist⟩
  unfold Prefetcher.notifyInvalidate Gem5.Eip.notifyInvalidate
  dsimp only
  split
  · split
    · exact hs.table.l1iUpdateConfidenceEntangledTable _ _ _ _
    · exact hs.table
  · exact hs.table

theorem Inv.prefetchIssuedToPq (cycle lineAddr sourceSet sourceWay : Nat) :
    KeepsInv id (s.prefetchIssuedToPq cycle lineAddr sourceSet sourceWay) := by
  exact (l1iAddTimingEntry_outcome _ _ _ _ _).bind fun _ _ => ⟨hs.table, hs.hist⟩

end

/-! ### What an access stores -/

section Stores

variable {s s' : Prefetcher} {cycle lineAddr : Nat}

/-- The line is in the history at `pos`, if `pos` is a position, after the size of a block may
have been noted; a miss may be in the latency table, and the line is marked accessed. -/
structure Stores (s : Prefetcher) (cycle lineAddr instrId : Nat) (s' : Prefetcher) (pos : Nat) :
    Prop where
  hist : ∃ hist, (hist = s.hist ∨ ∃ line bb, l1iAddBbSizeHistTable s.hist line bb = .ok hist) ∧
    (s'.hist = hist ∧ pos = l1iHistTableEntries ∨ ∃ t t' format numEntangled,
      l1iAddHistTable hist t cycle lineAddr instrId format numEntangled = .ok (s'.hist, t', pos))
  timing : ∃ t, (t = s.timing ∨ l1iAddTimingEntry s.timing cycle lineAddr 0 l1iEtWays = .ok t) ∧
    s'.timing = l1iAccessTimingEntry t lineAddr pos

theorem newBasicBlock_cases (h : s.newBasicBlock lineAddr = .ok s') :
    s'.timing = s.timing ∧
      (s'.hist = s.hist ∨ ∃ line bb, l1iAddBbSizeHistTable s.hist line bb = .ok s'.hist) := by
  have hr : ∀ hist : HistTable, (do
      let mergeDiff ← l1iFindBbMergeHistTable hist lineAddr
      return { s with
        hist := hist
        consecutiveCount := 0
        lastBasicBlock := lineAddr
        basicBlockMergeDiff := mergeDiff } : Except Fault Prefetcher) = .ok s' →
      s'.timing = s.timing ∧ hist = s'.hist := by
    intro hist hok
    obtain ⟨mergeDiff, -, rfl⟩ := bind_ok.mp hok
    exact ⟨rfl, rfl⟩
  unfold newBasicBlock at h
  split at h
  · exact (hr _ h).imp_right fun heq => .inl heq.symm
  · split at h <;> obtain ⟨hist, had, h⟩ := bind_eq_ok.mp h <;>
      exact (hr _ h).imp_right fun heq => .inr ⟨_, _, heq ▸ had⟩

theorem recordTiming_cases {posHist : Nat} {cacheHit : Bool}
    (h : s.recordTiming cycle lineAddr posHist cacheHit = .ok s') :
    s'.hist = s.hist ∧ ∃ t, (t = s.timing ∨
        l1iAddTimingEntry s.timing cycle lineAddr 0 l1iEtWays = .ok t) ∧
      s'.timing = l1iAccessTimingEntry t lineAddr posHist := by
  unfold recordTiming at h
  split at h
  · obtain ⟨t, had, rfl⟩ := bind_ok.mp h
    exact ⟨rfl, t, .inr had, rfl⟩
  · cases h
    exact ⟨rfl, s.timing, .inl rfl, rfl⟩

variable {pfi : PrefetchInfo} {consecutive : Bool} {r : Prefetcher × List AddrPriority × Nat}

theorem record_stores {pf : PfScan} {r : Prefetcher × Nat}
    (h : s.record cycle pfi consecutive pf = .ok r) :
    Stores s cycle (pfi.address >>> log2BlockSize) pfi.instrId r.1 r.2 := by
  have hr : ∀ s₁ : Prefetcher, s₁.timing = s.timing →
      (s₁.hist = s.hist ∨ ∃ line bb, l1iAddBbSizeHistTable s.hist line bb = .ok s₁.hist) → (do
      let r ← s₁.recordHistory cycle (pfi.address >>> log2BlockSize) pfi.instrId
        (if pf.numEntangled = 0 ∧ pf.bbSize = 0 then 0 else pf.format) pf.numEntangled
        (!pfi.cacheMiss) consecutive
      let s ← r.1.recordTiming cycle (pfi.address >>> log2BlockSize) r.2 (!pfi.cacheMiss)
      return (s, r.2) : Except Fault (Prefetcher × Nat)) = .ok r →
      Stores s cycle (pfi.address >>> log2BlockSize) pfi.instrId r.1 r.2 := by
    intro s₁ ht hb ho
    obtain ⟨r₁, hh, ho⟩ := bind_eq_ok.mp ho
    obtain ⟨s₂, hre, rfl⟩ := bind_ok.mp ho
    obtain ⟨hsa, had⟩ := recordTiming_cases hre
    unfold recordHistory at hh
    split at hh
    · obtain ⟨⟨hist, t, pos⟩, hae, rfl⟩ := bind_ok.mp hh
      obtain rfl : s₂.hist = hist := hsa
      exact ⟨⟨_, hb, .inr ⟨_, _, _, _, hae⟩⟩, ht ▸ had⟩
    · cases hh
      exact ⟨⟨_, hb, .inl ⟨hsa, rfl⟩⟩, ht ▸ had⟩
  unfold record at h
  dsimp only at h
  split at h
  · exact hr s rfl (.inl rfl) h
  · obtain ⟨s₁, hb, h⟩ := bind_eq_ok.mp h
    obtain ⟨ht, hh⟩ := newBasicBlock_cases hb
    exact hr s₁ ht hh h

theorem observe_stores (h : s.observe cycle pfi consecutive = .ok r) :
    Stores s cycle (pfi.address >>> log2BlockSize) pfi.instrId r.1 r.2.2 := by
  obtain ⟨pf, -, h⟩ := bind_eq_ok.mp h
  split at h
  · obtain ⟨r₁, hre, rfl⟩ := bind_ok.mp h
    obtain ⟨hhi, hti⟩ := record_stores hre
    exact ⟨hhi, hti⟩
  · cases h

/-- **An access** to the line accessed last does nothing, any other is stored. -/
theorem calculatePrefetch_cases (h : s.calculatePrefetch cycle pfi = .ok r) :
    r = (s, [], l1iHistTableEntries) ∨
      Stores s cycle (pfi.address >>> log2BlockSize) pfi.instrId r.1 r.2.2 := by
  obtain ⟨-, -, h⟩ := bind_eq_ok.mp h
  split at h
  · cases h
    exact .inl rfl
  split at h
  · obtain ⟨hhi, hti⟩ := observe_stores h
    exact .inr ⟨hhi, hti⟩
  · exact .inr (observe_stores h)

/-- **A fill** moves its line to the timing cache, and may note its source in the history. -/
theorem notifyFill_cases (h : s.notifyFill cycle addr = .ok s') :
    l1iMoveTimingEntry s.timing (addr >>> log2BlockSize) = .ok s'.timing ∧
      (s'.hist = s.hist ∨ ∃ pos latency src,
        l1iGetSrcEntangledHistTable s.hist (addr >>> log2BlockSize) pos latency = .ok src ∧
        (s'.hist = src.1 ∨
          s'.hist = src.1.set pos { src.1.entries pos with entSrc := src.2 })) := by
  obtain ⟨t, hm, h⟩ := bind_eq_ok.mp h
  split at h
  · obtain ⟨src, hsr, h⟩ := bind_eq_ok.mp h
    split at h
    · split at h
      · cases h
        exact ⟨hm, .inr ⟨_, _, src, hsr, .inr rfl⟩⟩
      · cases h
    · cases h
      exact ⟨hm, .inr ⟨_, _, src, hsr, .inl rfl⟩⟩
  · cases h
    exact ⟨hm, .inl rfl⟩

end Stores

end Prefetcher

end Gem5.Eip
