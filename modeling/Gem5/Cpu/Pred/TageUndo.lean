import Gem5.Cpu.Pred.RasUndo
import Gem5.Cpu.Pred.TageHistory

/-!
# Gem5.Cpu.Pred.TageUndo

**What a squash gives back of the direction history.** `BPredUnit::squash` undoes the bimodal
table record by record, and then asks TAGE to go back to the youngest record left, with the
direction that record has. A ghost keeps the predictor as it was right after each prediction.

The direction in the record is the one that was shifted into the history, unless the unit
altered it afterwards without telling TAGE (`Altered`): a call that missed the branch target
buffer, and any branch that missed the indirect predictor, are recorded as not taken while the
history has them as taken. A squash that goes back to such a record clears the bit; one that goes
back to any other record restores everything (`squash_restores_iff`).
-/

namespace Gem5.Cpu.Pred

open List BPredUnit Function Nat Tage Gem5.Lib RollingBuffer
open Gem5.Base (Addr)
open BPredUnit (squashedOf squashLoop updateLoop)
open FoldedHistory (redo)

/-! ### Foldings that are redone -/

section Redo

variable {g h : Nat → Bool} {folded : List FoldedHistory} {comps comps' : List Nat} {maxHist : Nat}

theorem redo_comps (g : Nat → Bool) (folded : List FoldedHistory) :
    folded.zipWith (redo g) (folded.map (·.comp)) = folded.map (·.update g) := by
  rw [zipWith_map_right, zipWith_self]
  rfl

theorem redo_redo (g h : Nat → Bool) (hl : folded.length = comps'.length) :
    (folded.zipWith (redo h) comps').zipWith (redo g) comps = folded.zipWith (redo g) comps := by
  induction folded generalizing comps comps' with
  | nil => rfl
  | cons f folded ih =>
    cases comps' with
    | nil => exact (nomatch hl)
    | cons comp' comps' =>
      cases comps with
      | nil => rfl
      | cons comp comps =>
        rw [zipWith_cons_cons, zipWith_cons_cons, ih (succ.inj hl)]
        rfl

theorem redo_congr (hfo : ∀ f ∈ folded, f.origLength ≤ maxHist) (hgh : ∀ j ≤ maxHist, g j = h j) :
    folded.zipWith (redo g) comps = folded.zipWith (redo h) comps := by
  induction folded generalizing comps with
  | nil => rfl
  | cons f folded ih =>
    cases comps with
    | nil => rfl
    | cons comp comps =>
      rw [zipWith_cons_cons, ih fun f hf => hfo f (mem_cons_of_mem _ hf)]
      congr 1
      unfold redo FoldedHistory.update
      rw [hgh 0 (zero_le _), hgh f.origLength (hfo f mem_cons_self)]

end Redo

/-! ### One prediction -/

namespace Tage

variable {p : TageParams} {t t' : Tage} {b : Bool} {bi : BranchInfo}

def bimodal (t : Tage) : (Nat → Bool) × (Nat → Bool) := (t.btablePrediction, t.btableHysteresis)

theorem squash_history (p : TageParams) (t : Tage) (bi : BranchInfo) :
    (t.squash p bi).history = t.history := by
  unfold squash
  split
  · rfl
  · rfl

theorem squash_bimodal_congr (p : TageParams) (h : t.bimodal = t'.bimodal) (bi : BranchInfo) :
    (t.squash p bi).bimodal = (t'.squash p bi).bimodal := by
  unfold bimodal at h ⊢
  obtain ⟨hpr, hhy⟩ := Prod.mk.inj h
  unfold squash setBimodal
  split
  · simp only [hpr, hhy]
  · exact h

/-- **The direction `b` is shifted in**, and `bi` saves what it takes to go back. -/
structure Shifted (p : TageParams) (t : Tage) (b : Bool) (bi : BranchInfo) (t' : Tage) : Prop where
  buffer : t'.history.buffer = t.history.buffer.push p.period p.maxHist b
  pointer : bi.ptGhist = t'.history.ptGhist
  path : bi.pathHist = t'.history.pathHist
  ci : bi.ci = t.history.computeIndices.map (·.comp)
  ct0 : bi.ct0 = t.history.computeTags0.map (·.comp)
  ct1 : bi.ct1 = t.history.computeTags1.map (·.comp)
  indices : t'.history.computeIndices =
    t.history.computeIndices.zipWith (FoldedHistory.redo t'.history.gHist) bi.ci
  tags0 : t'.history.computeTags0 =
    t.history.computeTags0.zipWith (FoldedHistory.redo t'.history.gHist) bi.ct0
  tags1 : t'.history.computeTags1 =
    t.history.computeTags1.zipWith (FoldedHistory.redo t'.history.gHist) bi.ct1
  undone : (t'.squash p bi).bimodal = t.bimodal

theorem Shifted.lengths (h : Shifted p t b bi t') :
    t.history.computeIndices.length = bi.ci.length ∧
      t.history.computeTags0.length = bi.ct0.length ∧
      t.history.computeTags1.length = bi.ct1.length := by
  rw [h.ci, h.ct0, h.ct1, length_map, length_map, length_map]
  exact ⟨rfl, rfl, rfl⟩

theorem baseUpdate_undone (hspec : p.speculativeHistUpdate) (t : Tage) (taken : Bool)
    (bi : BranchInfo) :
    ((t.baseUpdate p taken bi).2.squash p (t.baseUpdate p taken bi).1).bimodal = t.bimodal := by
  unfold baseUpdate squash
  simp only [hspec, if_true]
  unfold bimodal setBimodal hystIndex
  simp only [update_idem, update_eq_self]

/-- What an update of the bimodal table leaves of a record. -/
structure Based (p : TageParams) (t : Tage) (bi : BranchInfo) (r : BranchInfo × Tage) : Prop where
  history : r.2.history = t.history
  undone : (r.2.squash p r.1).bimodal = t.bimodal
  ptGhist : r.1.ptGhist = bi.ptGhist
  pathHist : r.1.pathHist = bi.pathHist
  ci : r.1.ci = bi.ci
  ct0 : r.1.ct0 = bi.ct0
  ct1 : r.1.ct1 = bi.ct1

section

variable (hspec : p.speculativeHistUpdate)

include hspec

theorem based_updateBase (t : Tage) (taken : Bool) (hne : bi.updatedBiMode = false) :
    Based p t bi (t.updateBase p taken bi) := by
  have hb : Based p t bi (t.baseUpdate p taken bi) := by
    refine ⟨rfl, baseUpdate_undone hspec t taken bi, ?_, ?_, ?_, ?_, ?_⟩ <;>
      simp only [baseUpdate, hspec, if_true]
  unfold updateBase
  split
  · split
    · exact hb
    · refine ⟨rfl, ?_, rfl, rfl, rfl, rfl, rfl⟩
      unfold squash
      rw [if_neg (by simp [hne])]
  · exact hb

theorem shifted_updateHistories (hma : p.maxHist ≤ p.histBufferSize) (t : Tage) (branchPC : Addr)
    (taken : Bool) (hn : bi.updatedBiMode = false) :
    Shifted p t taken (t.updateHistories p branchPC taken bi true).1
      (t.updateHistories p branchPC taken bi true).2 := by
  have hun : t.updateHistories p branchPC taken bi true =
      { t with history := (t.history.shift p branchPC taken true bi).2 }.updateBase p taken
        (t.history.shift p branchPC taken true bi).1 := by
    unfold updateHistories
    rw [if_neg (by simp [hspec])]
  have hn' : (t.history.shift p branchPC taken true bi).1.updatedBiMode = false := hn
  obtain ⟨hh, hud, hpt, hpa, hc, hc0, hc1⟩ := based_updateBase hspec
    { t with history := (t.history.shift p branchPC taken true bi).2 } taken hn'
  rw [hun]
  constructor
  · rw [hh]
    exact ThreadHistory.buffer_updateGHist hma t.history taken
  · rw [hpt, hh]
    rfl
  · rw [hpa, hh]
    rfl
  · rw [hc]
    rfl
  · rw [hc0]
    rfl
  · rw [hc1]
    rfl
  · rw [hc, hh]
    exact (redo_comps _ _).symm
  · rw [hc0, hh]
    exact (redo_comps _ _).symm
  · rw [hc1, hh]
    exact (redo_comps _ _).symm
  · exact hud

/-- **A branch without a target** is as if `false` had been shifted in at once. -/
theorem Shifted.btbUpdate (h : Shifted p t b bi t') : Shifted p t false bi (t'.btbUpdate p bi) := by
  have hun : t'.btbUpdate p bi = { t' with history := t'.history.btbUpdate bi } := by
    unfold Tage.btbUpdate
    rw [if_pos hspec]
  rw [hun]
  obtain ⟨hc, hct0, hct1⟩ := h.lengths
  constructor
  · change t'.history.buffer.setNewest false = _
    rw [h.buffer]
    exact push_setNewest
  · exact h.pointer
  · exact h.path
  · exact h.ci
  · exact h.ct0
  · exact h.ct1
  · change t'.history.computeIndices.zipWith _ bi.ci = _
    rw [h.indices, redo_redo _ _ hc]
    rfl
  · change t'.history.computeTags0.zipWith _ bi.ct0 = _
    rw [h.tags0, redo_redo _ _ hct0]
    rfl
  · change t'.history.computeTags1.zipWith _ bi.ct1 = _
    rw [h.tags1, redo_redo _ _ hct1]
    rfl
  · have hsa : bimodal { t' with history := t'.history.btbUpdate bi } = t'.bimodal := rfl
    rw [← h.undone]
    exact squash_bimodal_congr p hsa bi

end

theorem decidePred_updatedBiMode (t : Tage) (bi : BranchInfo) :
    (t.decidePred bi).updatedBiMode = bi.updatedBiMode := by
  unfold decidePred
  split
  · rfl
  · rfl

theorem tagePredict_updatedBiMode (p : TageParams) (t : Tage) (branchPC : Addr)
    (condBranch : Bool) : (t.tagePredict p branchPC condBranch .new).2.updatedBiMode = false := by
  unfold tagePredict
  split
  · simp only [decidePred_updatedBiMode]
    rfl
  · rfl

end Tage

/-! ### The record of a prediction -/

/-- **A direction altered behind the predictor's back.** -/
def PredictorHistory.altered {H : Type} (e : PredictorHistory H) : Bool :=
  e.wasBTBMiss && e.wasCall || e.wasIndirect && !e.predTaken

open PredictorHistory (altered)

namespace Predicting

variable {p : TageParams} {t : Tage} {q : Prediction} {r : Predicting Tage BranchInfo}

/-- The predictor has shifted a direction in, which is the one recorded unless the record says
otherwise. -/
def Told (p : TageParams) (t : Tage) (r : Predicting Tage BranchInfo) : Prop :=
  ∃ b, Tage.Shifted p t b r.record.bpHistory r.direction ∧
    (b = r.record.predTaken ↔ r.record.altered = false)

structure Taken (p : TageParams) (t : Tage) (call : Bool) (r : Predicting Tage BranchInfo) :
    Prop where
  shifted : Tage.Shifted p t true r.record.bpHistory r.direction
  predTaken : r.record.predTaken
  wasCall : r.record.wasCall = call
  wasIndirect : r.record.wasIndirect = false
  wasBTBMiss : r.record.wasBTBMiss = false

theorem Told.popCall (h : r.Told p t) : (r.popCall q).Told p t := by
  unfold Predicting.popCall
  split
  · exact h
  · exact h

theorem Taken.lookupBTB (hspec : p.speculativeHistUpdate) (h : r.Taken p t q.inst.isCall)
    (hre : q.inst.isReturn = false) : (r.lookupBTB (tage p) q).Told p t := by
  unfold Predicting.lookupBTB
  split
  · exact ⟨true, h.shifted, by
      simp [altered, h.predTaken, h.wasBTBMiss]⟩
  · unfold missBTB
    simp only [hre]
    cases hc : q.inst.isCall with
    | false =>
      -- TAGE is told that the branch is not taken after all.
      refine ⟨false, h.shifted.btbUpdate hspec, ?_⟩
      simp [altered, h.wasCall, h.wasIndirect, hc]
    | true =>
      have hto : Told p t { r with
          predTaken := false
          record := { r.record with predTaken := false, wasBTBMiss := true } } := by
        refine ⟨true, h.shifted, ?_⟩
        simp [altered, h.wasCall, hc]
      exact hto.popCall

theorem Taken.lookupIndirect (h : r.Taken p t q.inst.isCall) : (r.lookupIndirect q).Told p t := by
  unfold Predicting.lookupIndirect
  split
  · exact ⟨true, h.shifted, by simp [altered, h.predTaken, h.wasBTBMiss]⟩
  · have hto : Told p t { r with
        predTaken := false
        record := { r.record with wasIndirect := true, predTaken := false } } := by
      refine ⟨true, h.shifted, ?_⟩
      simp [altered]
    exact hto.popCall

theorem Taken.pushRAS (h : r.Taken p t false) : (r.pushRAS q).Taken p t q.inst.isCall := by
  unfold Predicting.pushRAS
  split
  · next hc => exact ⟨h.shifted, h.predTaken, hc.symm, h.wasIndirect, h.wasBTBMiss⟩
  · next hc =>
    refine ⟨h.shifted, h.predTaken, ?_, h.wasIndirect, h.wasBTBMiss⟩
    rw [h.wasCall]
    simpa using hc

theorem Taken.lookupTarget (hspec : p.speculativeHistUpdate) (h : r.Taken p t false)
    (iPred : Bool) : (r.lookupTarget (tage p) iPred q).Told p t := by
  unfold Predicting.lookupTarget
  split
  · exact ⟨true, h.shifted, by
      simp [useRAS, altered, h.predTaken, h.wasBTBMiss]⟩
  · next hre =>
    split
    · exact h.pushRAS.lookupBTB hspec (by simpa using hre)
    · exact h.pushRAS.lookupIndirect

end Predicting

namespace BPredUnit

variable {p : TageParams}

theorem shifted_predictDirection (hspec : p.speculativeHistUpdate)
    (hm : p.maxHist ≤ p.histBufferSize) (u : BPredUnit Tage BranchInfo) (q : Prediction) :
    Tage.Shifted p u.direction (u.predictDirection (tage p) q).predTaken
      (u.predictDirection (tage p) q).record.bpHistory
      (u.predictDirection (tage p) q).direction := by
  unfold predictDirection
  cases q.inst.isUncondCtrl with
  | true =>
    exact shifted_updateHistories hspec hm _ _ _ (tagePredict_updatedBiMode p _ _ false)
  | false =>
    exact shifted_updateHistories hspec hm _ _ _ (tagePredict_updatedBiMode p _ _ true)

/-- **What a prediction does to TAGE**, and what its record says of it. -/
theorem told_predicting (hspec : p.speculativeHistUpdate)
    (hma : p.maxHist ≤ p.histBufferSize) (iPred : Bool) (u : BPredUnit Tage BranchInfo)
    (q : Prediction) : (u.predicting (tage p) iPred q).Told p u.direction := by
  have hsh := shifted_predictDirection hspec hma u q
  unfold predicting
  simp only
  split
  · next ht =>
    rw [ht] at hsh
    have hre : (u.predictDirection (tage p) q).record.predTaken := ht
    exact Predicting.Taken.lookupTarget hspec ⟨hsh, hre, rfl, rfl, rfl⟩ iPred
  · refine ⟨_, hsh, ?_⟩
    simp only [Predicting.fallThrough, altered]
    simp [predictDirection, PredictorHistory.new]

end BPredUnit

/-! ### Commits -/

namespace Tage

variable {p : TageParams}

/-- A commit leaves the histories and the bimodal table alone, since both are updated
speculatively. -/
structure Untouched (t t' : Tage) : Prop where
  history : t'.history = t.history
  bimodal : t'.bimodal = t.bimodal

theorem Untouched.trans {t t' t'' : Tage} (h : Untouched t t') (h' : Untouched t' t'') :
    Untouched t t'' :=
  ⟨h'.history.trans h.history, h'.bimodal.trans h.bimodal⟩

theorem untouched_allocate (taken : Bool) (bi : BranchInfo) (is : List Nat) (numAllocated : Nat)
    (t : Tage) : Untouched t (allocate p taken bi is numAllocated t) := by
  induction is generalizing numAllocated t with
  | nil => exact ⟨rfl, rfl⟩
  | cons i is ih =>
    unfold allocate
    simp only
    split
    · split
      · exact ⟨rfl, rfl⟩
      · refine Untouched.trans ?_ (ih _ _)
        exact ⟨rfl, rfl⟩
    · exact ih _ _

theorem untouched_handleUReset (t : Tage) : Untouched t (t.handleUReset p) := by
  unfold handleUReset
  split
  · exact ⟨rfl, rfl⟩
  · exact ⟨rfl, rfl⟩

theorem untouched_handleAllocAndUReset (t : Tage) (alloc taken : Bool) (bi : BranchInfo)
    (nrand : Nat) : Untouched t (t.handleAllocAndUReset p alloc taken bi nrand) := by
  have hal : Untouched t (if alloc then t.handleAlloc p taken bi nrand else t) := by
    split
    · refine Untouched.trans ?_ (untouched_allocate taken bi _ _ _)
      split
      · exact ⟨rfl, rfl⟩
      · exact ⟨rfl, rfl⟩
    · exact ⟨rfl, rfl⟩
  refine hal.trans (Untouched.trans ?_ (untouched_handleUReset _))
  exact ⟨rfl, rfl⟩

theorem untouched_handleTAGEUpdate (hspec : p.speculativeHistUpdate) (t : Tage)
    (taken : Bool) (bi : BranchInfo) :
    (t.handleTAGEUpdate p taken bi).1 = bi ∧ Untouched t (t.handleTAGEUpdate p taken bi).2 := by
  unfold handleTAGEUpdate
  simp only [hspec, Bool.not_true, Bool.false_eq_true, if_false]
  split
  · split
    · split
      · split <;> exact ⟨rfl, rfl, rfl⟩
      · split <;> exact ⟨rfl, rfl, rfl⟩
    · split <;> exact ⟨rfl, rfl, rfl⟩
  · exact ⟨rfl, rfl, rfl⟩

theorem untouched_commit (hspec : p.speculativeHistUpdate) (t : Tage) (branchPC : Addr)
    (taken : Bool) (bi : BranchInfo) :
    (t.commit p branchPC taken bi).1 = bi ∧ Untouched t (t.commit p branchPC taken bi).2 := by
  have hsk : ∀ (bi : BranchInfo) (t : Tage),
      t.updateHistories p branchPC taken bi false = (bi, t) := by
    intro bi t
    unfold updateHistories
    rw [if_pos (by simp [hspec])]
  unfold commit
  simp only [hsk]
  split
  · obtain ⟨hb, hun⟩ := untouched_handleTAGEUpdate hspec (handleAllocAndUReset p
        (if decide (0 < bi.hitBank) && bi.pseudoNewAlloc && bi.longestMatchPred != bi.altTaken then
          { t with
            draws := t.draws + 1
            useAltPredForNewlyAllocated :=
              ctrUpdate t.useAltPredForNewlyAllocated (bi.altTaken == taken) p.useAltOnNaBits }
        else { t with draws := t.draws + 1 })
        (bi.tagePred != taken && decide (bi.hitBank < p.nHistoryTables) &&
          !(decide (0 < bi.hitBank) && bi.pseudoNewAlloc && bi.longestMatchPred == taken))
        taken bi (t.random t.draws &&& 3)) taken bi
    refine ⟨hb, Untouched.trans ?_ hun⟩
    refine Untouched.trans ?_ (untouched_handleAllocAndUReset _ _ _ _ _)
    split
    · exact ⟨rfl, rfl⟩
    · exact ⟨rfl, rfl⟩
  · exact ⟨rfl, rfl, rfl⟩

end Tage

/-! ### Runs -/

/-- What a ghost notes of a prediction: the predictor right after it, or right after its outcome
was corrected. -/
structure TageNote where
  after : Tage
  corrected : Bool

structure TageRun where
  unit : BPredUnit Tage BranchInfo
  /-- One note for each record. -/
  noted : List TageNote

namespace TageRun

def step (p : TageParams) (iPred : Bool) (s : TageRun) : PredCall → Except BPredFault TageRun
  | .predict q =>
    let unit := (s.unit.predict (tage p) iPred q).2.2
    .ok { unit := unit, noted := ⟨unit.direction, false⟩ :: s.noted }
  | .squash sn => .ok
    { unit := s.unit.squash (tage p) sn
      noted := s.noted.drop (BPredUnit.squashedOf sn s.unit.predHist) }
  | .correct sn corrTarget taken =>
    (fun unit =>
      { unit := unit
        noted :=
          match s.noted.drop (BPredUnit.squashedOf sn s.unit.predHist) with
          | [] => []
          | _ :: noted => ⟨unit.direction, true⟩ :: noted }) <$>
      s.unit.correct (tage p) sn corrTarget taken
  | .update doneSn => .ok
    { unit := s.unit.update (tage p) doneSn
      noted := s.noted.take (s.unit.update (tage p) doneSn).predHist.length }

/-- A predictor whose pointer is in the table, and whose foldings are of histories it keeps. -/
structure WF (p : TageParams) (t : ThreadHistory) : Prop where
  pt_lt : t.ptGhist < p.period
  indices : ∀ f ∈ t.computeIndices, f.origLength ≤ p.maxHist
  tags0 : ∀ f ∈ t.computeTags0, f.origLength ≤ p.maxHist
  tags1 : ∀ f ∈ t.computeTags1, f.origLength ≤ p.maxHist

/-- Every run of a unit that predicts with TAGE, and has predicted nothing so far. -/
abbrev system (p : TageParams) (iPred : Bool) (rasSize : Nat) : System TageRun PredCall BPredFault where
  init s := ∃ t : Tage, WF p t.history ∧ p.maxHist * 2 < p.histBufferSize ∧
    s = ⟨.start t rasSize, []⟩
  step := step p iPred
  pre _ _ := True

/-- Fewer predictions in flight than the table of directions can take back. -/
def FewInFlight (p : TageParams) (s : TageRun) : PredCall → Prop
  | .predict _ => s.unit.predHist.length + 1 < p.histBufferSize - 2 * p.maxHist
  | _ => True

end TageRun

/-- **The same histories and bimodal table**: the directions kept, the path, all foldings. -/
structure Tage.SameHistory (p : TageParams) (t t' : Tage) : Prop where
  directions : ∀ j ≤ p.maxHist, t.history.gHist j = t'.history.gHist j
  path : t.history.pathHist = t'.history.pathHist
  indices : t.history.computeIndices = t'.history.computeIndices
  tags0 : t.history.computeTags0 = t'.history.computeTags0
  tags1 : t.history.computeTags1 = t'.history.computeTags1
  bimodal : t.bimodal = t'.bimodal

/-! ### Going back -/

namespace TageRun

variable {p : TageParams} {t t' : ThreadHistory} {bi bi' : BranchInfo} {k sn l : Nat}
  {e e' : PredictorHistory BranchInfo} {note : TageNote} {b taken : Bool}
  {folded : List FoldedHistory} {u : BPredUnit Tage BranchInfo} {g : Nat → Bool} {comps : List Nat}

/-- `bi` has a saved folding for each bank. -/
structure Fits (p : TageParams) (t : ThreadHistory) (bi : BranchInfo) : Prop where
  pointer_lt : bi.ptGhist < p.period
  ci : t.computeIndices.length = bi.ci.length
  ct0 : t.computeTags0.length = bi.ct0.length
  ct1 : t.computeTags1.length = bi.ct1.length

/-- **The record with `k` younger ones leads back** to what was noted, up to the direction in
front. -/
structure LeadsBack (p : TageParams) (t : ThreadHistory) (k : Nat)
    (e : PredictorHistory BranchInfo) (note : TageNote) : Prop where
  pointer : e.bpHistory.ptGhist = RollingBuffer.back p.period t.ptGhist k
  older : ∀ j, 0 < j → j ≤ p.maxHist →
    t.globalHistory (e.bpHistory.ptGhist + j) = note.after.history.gHist j
  path : e.bpHistory.pathHist = note.after.history.pathHist
  indices : t.computeIndices.zipWith (FoldedHistory.redo note.after.history.gHist) e.bpHistory.ci =
    note.after.history.computeIndices
  tags0 : t.computeTags0.zipWith (FoldedHistory.redo note.after.history.gHist) e.bpHistory.ct0 =
    note.after.history.computeTags0
  tags1 : t.computeTags1.zipWith (FoldedHistory.redo note.after.history.gHist) e.bpHistory.ct1 =
    note.after.history.computeTags1
  told : note.after.history.gHist 0 = e.predTaken ↔ (note.corrected || !e.altered)

theorem length_redo (h : folded.length = comps.length) :
    (folded.zipWith (redo g) comps).length = folded.length := by
  rw [length_zipWith, ← h, min_self]

theorem mem_redo {maxHist : Nat} (h : ∀ f ∈ folded, f.origLength ≤ maxHist) :
    ∀ f ∈ folded.zipWith (redo g) comps, f.origLength ≤ maxHist := by
  induction folded generalizing comps with
  | nil => exact nofun
  | cons f folded ih =>
    cases comps with
    | nil => exact nofun
    | cons comp comps =>
      intro f' hf'
      rcases mem_cons.mp hf' with rfl | hf'
      · exact h f mem_cons_self
      · exact ih (fun f hf => h f (mem_cons_of_mem _ hf)) f' hf'

theorem WF.squash (h : WF p t) (hfi : Fits p t bi) (taken : Bool) : WF p (t.squash taken bi) :=
  ⟨hfi.pointer_lt, mem_redo h.indices, mem_redo h.tags0, mem_redo h.tags1⟩

theorem Fits.squash (h : Fits p t bi') (hf : Fits p t bi) (taken : Bool) :
    Fits p (t.squash taken bi) bi' :=
  ⟨h.pointer_lt, (length_redo hf.ci).trans h.ci, (length_redo hf.ct0).trans h.ct0,
    (length_redo hf.ct1).trans h.ct1⟩

theorem squash_gHist_zero (t : ThreadHistory) (taken : Bool) (bi : BranchInfo) :
    (t.squash taken bi).gHist 0 = taken :=
  setNewest_newest (r := ⟨t.globalHistory, bi.ptGhist⟩)

theorem squash_gHist_pos (t : ThreadHistory) (taken : Bool) (bi : BranchInfo) {j : Nat}
    (hj : 0 < j) : (t.squash taken bi).gHist j = t.globalHistory (bi.ptGhist + j) :=
  setNewest_older (r := ⟨t.globalHistory, bi.ptGhist⟩) hj

theorem LeadsBack.redone (h : LeadsBack p t k e note) (hf : Fits p t bi) (taken : Bool)
    (hpo : e.bpHistory.ptGhist = back p.period bi.ptGhist l)
    (holder : ∀ j, 0 < j → j ≤ p.maxHist → (t.squash taken bi).globalHistory
      (e.bpHistory.ptGhist + j) = t.globalHistory (e.bpHistory.ptGhist + j)) :
    LeadsBack p (t.squash taken bi) l e note := by
  refine ⟨hpo, fun j hj hjm => (holder j hj hjm).trans (h.older j hj hjm), h.path, ?_, ?_,
    ?_, h.told⟩
  · rw [← h.indices]
    exact redo_redo _ _ hf.ci
  · rw [← h.tags0]
    exact redo_redo _ _ hf.ct0
  · rw [← h.tags1]
    exact redo_redo _ _ hf.ct1

theorem LeadsBack.squash {note' : TageNote} (h : LeadsBack p t (k + l) e' note')
    (hb : bi.ptGhist = back p.period t.ptGhist k) (hfi : Fits p t bi) (hwf : WF p t)
    (hpo : 0 < l) (hkl : k + l < p.period - p.maxHist) (taken : Bool) :
    LeadsBack p (t.squash taken bi) l e' note' := by
  have hp : e'.bpHistory.ptGhist = back p.period bi.ptGhist l := by
    rw [h.pointer, hb, back_back hwf.pt_lt (by omega)]
  refine h.redone hfi taken hp fun j hj hjm => ?_
  rw [hp]
  exact setNewest_frame (r := ⟨t.globalHistory, bi.ptGhist⟩) hpo (by omega) hjm

theorem leadsBack_correct {after : Tage} (hf : Fits p t bi)
    (ha : after.history = t.squash taken bi) (hb : e'.bpHistory = bi)
    (hta : e'.predTaken = taken) : LeadsBack p (t.squash taken bi) 0 e' ⟨after, true⟩ := by
  refine ⟨?_, ?_, ?_, ?_, ?_, ?_, ?_⟩
  · rw [hb]
    exact (back_zero hf.pointer_lt).symm
  · intro j hj hjma
    rw [hb, ha]
    rfl
  · rw [hb, ha]
    rfl
  · rw [hb, ha]
    exact redo_redo _ _ hf.ci
  · rw [hb, ha]
    exact redo_redo _ _ hf.ct0
  · rw [hb, ha]
    exact redo_redo _ _ hf.ct1
  · rw [ha, squash_gHist_zero, hta]
    simp

theorem fits_of_shifted {t t' : Tage} (h : Tage.Shifted p t b bi t') (hwf : WF p t.history) :
    Fits p t.history bi := by
  obtain ⟨hc, hct0, hct1⟩ := h.lengths
  refine ⟨?_, hc, hct0, hct1⟩
  rw [h.pointer]
  change t'.history.buffer.pt < _
  rw [h.buffer]
  exact push_pt_lt hwf.pt_lt

/-- **A record predicted before**, after one more prediction. -/
theorem LeadsBack.shifted {t t' : Tage} (h : LeadsBack p t.history k e note)
    (hs : Tage.Shifted p t b bi t') (hwf : WF p t.history)
    (hk : k + 1 < p.period - p.maxHist) : LeadsBack p t'.history (k + 1) e note := by
  have hb := hs.buffer
  have hf := fits_of_shifted hs hwf
  refine ⟨?_, ?_, h.path, ?_, ?_, ?_, h.told⟩
  · change _ = back p.period t'.history.buffer.pt (k + 1)
    rw [hb, back_push hwf.pt_lt (by omega)]
    exact h.pointer
  · intro j hj hjm
    rw [← h.older j hj hjm, h.pointer]
    change t'.history.buffer.tab _ = _
    rw [hb]
    exact push_frame hwf.pt_lt (by omega) hjm
  · rw [← h.indices, hs.indices, redo_redo _ _ hf.ci]
  · rw [← h.tags0, hs.tags0, redo_redo _ _ hf.ct0]
  · rw [← h.tags1, hs.tags1, redo_redo _ _ hf.ct1]

/-- **The record of a prediction**, right after it. -/
theorem leadsBack_shifted {t t' : Tage} (hs : Tage.Shifted p t b e.bpHistory t')
    (hwf : WF p t.history) (hto : b = e.predTaken ↔ e.altered = false) :
    LeadsBack p t'.history 0 e ⟨t', false⟩ := by
  have hf := fits_of_shifted hs hwf
  have hz : t'.history.gHist 0 = b := by
    change t'.history.buffer.tab t'.history.buffer.pt = b
    rw [hs.buffer]
    exact push_newest
  refine ⟨?_, ?_, hs.path, ?_, ?_, ?_, ?_⟩
  · rw [← hs.pointer, back_zero hf.pointer_lt]
  · intro j hj hjma
    rw [hs.pointer]
    rfl
  · rw [hs.indices, redo_redo _ _ hf.ci]
  · rw [hs.tags0, redo_redo _ _ hf.ct0]
  · rw [hs.tags1, redo_redo _ _ hf.ct1]
  · rw [hz, hto]
    simp

/-! ### The invariant -/

/-- The bimodal table after the records in front are squashed. -/
def undo (p : TageParams) (hist : List (PredictorHistory BranchInfo)) (t : Tage) : Tage :=
  hist.foldl (fun t e => t.squash p e.bpHistory) t

theorem undo_history (hist : List (PredictorHistory BranchInfo)) (t : Tage) :
    (undo p hist t).history = t.history := by
  induction hist generalizing t with
  | nil => rfl
  | cons e hist ih => exact (ih _).trans (squash_history p t e.bpHistory)

/-- **Every record leads back to its note**: the histories directly, and the bimodal table one
record after the other. -/
structure Inv (p : TageParams) (t : Tage) (hist : List (PredictorHistory BranchInfo))
    (prev : Option (PredictorHistory BranchInfo)) (noted : List TageNote) : Prop where
  maxHist_lt : p.maxHist * 2 < p.histBufferSize
  inFlight_lt : hist.length < p.histBufferSize - 2 * p.maxHist
  wf : WF p t.history
  noted_length : noted.length = hist.length
  fits : ∀ e ∈ hist, Fits p t.history e.bpHistory
  prevFits : ∀ e ∈ prev, Fits p t.history e.bpHistory
  leadsBack : ∀ (k : Nat) e note, hist[k]? = some e → noted[k]? = some note →
    LeadsBack p t.history k e note
  bimodal : ∀ note, noted[0]? = some note → t.bimodal = note.after.bimodal
  undoes : ∀ (k : Nat) e note note', hist[k]? = some e → noted[k]? = some note →
    noted[k + 1]? = some note' → (note.after.squash p e.bpHistory).bimodal = note'.after.bimodal

namespace Inv

variable {t t' : Tage} {hist hist' : List (PredictorHistory BranchInfo)}
  {prev : Option (PredictorHistory BranchInfo)} {noted : List TageNote} {taken : Bool}

theorem empty (hma : p.maxHist * 2 < p.histBufferSize) (hwf : WF p t.history)
    (hpr : ∀ e ∈ prev, Fits p t.history e.bpHistory) : Inv p t [] prev [] := by
  refine ⟨hma, ?_, hwf, rfl, ?_, hpr, ?_, ?_, ?_⟩
  · rw [length_nil]
    omega
  · exact fun e he => (nomatch he)
  · exact fun k e note hk => (nomatch hk)
  · exact nofun
  · exact fun k e note note' hk => (nomatch hk)

section

variable (h : Inv p t hist prev noted)

include h

theorem bound : hist.length < p.period - p.maxHist := by
  have hlt := h.inFlight_lt
  unfold TageParams.period
  omega

theorem undo_bimodal :
    ∀ {k : Nat} {note : TageNote}, noted[k]? = some note →
      (undo p (hist.take k) t).bimodal = note.after.bimodal := by
  intro k
  induction k with
  | zero =>
    intro note hn
    exact h.bimodal note hn
  | succ k ih =>
    intro note hn
    have hlen := h.noted_length
    have hlt : k + 1 < noted.length := (List.getElem?_eq_some_iff.mp hn).1
    have hk : k < noted.length := by omega
    have hkh : k < hist.length := by omega
    have hpr : noted[k]? = some noted[k] := getElem?_eq_getElem hk
    have he : hist[k]? = some hist[k] := getElem?_eq_getElem hkh
    rw [take_add_one, he, undo, foldl_append]
    change (squash p (undo p (hist.take k) t) hist[k].bpHistory).bimodal = _
    rw [squash_bimodal_congr p (ih hpr), h.undoes k _ _ note he hpr hn]

theorem predict (hpr : hist.length + 1 < p.histBufferSize - 2 * p.maxHist)
    (hs : Tage.Shifted p t b e.bpHistory t') (hto : b = e.predTaken ↔ e.altered = false) :
    Inv p t' (e :: hist) prev (⟨t', false⟩ :: noted) := by
  have hper : hist.length + 1 < p.period - p.maxHist := by
    unfold TageParams.period
    omega
  have he := fits_of_shifted hs h.wf
  have hke : ∀ bi, Fits p t.history bi → Fits p t'.history bi := by
    intro bi hf
    refine ⟨hf.pointer_lt, ?_, ?_, ?_⟩
    · rw [hs.indices, length_redo he.ci, hf.ci]
    · rw [hs.tags0, length_redo he.ct0, hf.ct0]
    · rw [hs.tags1, length_redo he.ct1, hf.ct1]
  constructor
  · exact h.maxHist_lt
  · exact hpr
  · refine ⟨hs.pointer ▸ he.pointer_lt, ?_, ?_, ?_⟩
    · rw [hs.indices]
      exact mem_redo h.wf.indices
    · rw [hs.tags0]
      exact mem_redo h.wf.tags0
    · rw [hs.tags1]
      exact mem_redo h.wf.tags1
  · exact congrArg succ h.noted_length
  · intro e' he'
    rcases mem_cons.mp he' with rfl | he'
    · exact hke _ he
    · exact hke _ (h.fits e' he')
  · exact fun e' he' => hke _ (h.prevFits e' he')
  · intro k e' note hk hn
    cases k with
    | zero =>
      cases hk
      cases hn
      exact leadsBack_shifted hs h.wf hto
    | succ k =>
      have hlt : k < hist.length := lt_of_succ_lt_succ (List.getElem?_eq_some_iff.mp hk).1
      exact (h.leadsBack k e' note hk hn).shifted hs h.wf (by omega)
  · intro note hn
    cases hn
    rfl
  · intro k e' note note' hk hn hn'
    cases k with
    | zero =>
      cases hk
      cases hn
      rw [hs.undone]
      exact h.bimodal note' hn'
    | succ k => exact h.undoes k e' note note' hk hn hn'

/-- **A squash goes back to the `k`th record.** -/
theorem squash (hk : hist[k]? = some e) (taken : Bool) :
    Inv p { undo p (hist.take k) t with history := t.history.squash taken e.bpHistory }
      (hist.drop k) prev (noted.drop k) := by
  have hbou := h.bound
  have hle := h.noted_length
  have hlt : k < hist.length := (List.getElem?_eq_some_iff.mp hk).1
  have hf := h.fits e (mem_of_getElem? hk)
  have hn : noted[k]? = some noted[k] := getElem?_eq_getElem (by omega)
  have hba := h.leadsBack k e _ hk hn
  constructor
  · exact h.maxHist_lt
  · have hlt := h.inFlight_lt
    rw [length_drop]
    omega
  · exact h.wf.squash hf taken
  · rw [length_drop, length_drop, hle]
  · exact fun e' he' => (h.fits e' (mem_of_mem_drop he')).squash hf taken
  · exact fun e' he' => (h.prevFits e' he').squash hf taken
  · intro l e' note' he' hn'
    rw [getElem?_drop] at he' hn'
    cases l with
    | zero =>
      rw [add_zero, hk] at he'
      cases he'
      exact (h.leadsBack k e note' hk hn').redone hf taken (back_zero hf.pointer_lt).symm
        fun _ hj _ => squash_gHist_pos t.history taken e.bpHistory hj
    | succ l =>
      have hkl := (List.getElem?_eq_some_iff.mp he').1
      exact (h.leadsBack (k + (l + 1)) e' note' he' hn').squash hba.pointer hf h.wf
        (succ_pos l) (by omega) taken
  · intro note' hn'
    rw [getElem?_drop] at hn'
    exact h.undo_bimodal hn'
  · intro l e' note' note'' he' hn' hn''
    rw [getElem?_drop] at he' hn' hn''
    exact h.undoes (k + l) e' note' note'' he' hn' hn''

omit h in
theorem squash_none (h : Inv p t hist none noted) : Inv p (undo p hist t) [] none [] := by
  refine .empty h.maxHist_lt ?_ fun e he => (nomatch he)
  rw [undo_history]
  exact h.wf

omit h in
/-- **The record in front is corrected.** -/
theorem correct (h : Inv p t (e :: hist) prev (note :: noted)) (hb : e'.bpHistory = e.bpHistory)
    (hta : e'.predTaken = taken) :
    Inv p { t with history := t.history.squash taken e.bpHistory } (e' :: hist) prev
      (⟨{ t with history := t.history.squash taken e.bpHistory }, true⟩ :: noted) := by
  have hs := h.squash (k := 0) rfl taken
  have hfi := h.fits e mem_cons_self
  have hsa : t.bimodal = note.after.bimodal := h.bimodal note rfl
  constructor
  · exact hs.maxHist_lt
  · exact hs.inFlight_lt
  · exact hs.wf
  · exact hs.noted_length
  · intro e'' he''
    rcases mem_cons.mp he'' with rfl | he''
    · rw [hb]
      exact hs.fits e mem_cons_self
    · exact hs.fits e'' (mem_cons_of_mem _ he'')
  · exact hs.prevFits
  · intro k e'' note' hk hn
    cases k with
    | zero =>
      cases hk
      cases hn
      exact leadsBack_correct hfi rfl hb hta
    | succ k => exact hs.leadsBack (k + 1) e'' note' hk hn
  · intro note' hn
    cases hn
    rfl
  · intro k e'' note' note'' hk hn hn'
    cases k with
    | zero =>
      cases hk
      cases hn
      have hco : Tage.bimodal { t with history := t.history.squash taken e.bpHistory } =
          note.after.bimodal := hsa
      rw [hb, squash_bimodal_congr p hco]
      exact h.undoes 0 e note note'' rfl rfl hn'
    | succ k => exact hs.undoes (k + 1) e'' note' note'' hk hn hn'

theorem commit {prev' : Option (PredictorHistory BranchInfo)} (hu : Tage.Untouched t t')
    (hh : hist' <+: hist) (hpr : ∀ e ∈ prev', Fits p t.history e.bpHistory) :
    Inv p t' hist' prev' (noted.take hist'.length) := by
  have hle := h.noted_length
  have hl := hh.length_le
  have hgt : ∀ (k : Nat) e, hist'[k]? = some e → hist[k]? = some e := by
    intro k e hk
    obtain ⟨rest, rfl⟩ := hh
    rw [getElem?_append_left (List.getElem?_eq_some_iff.mp hk).1, hk]
  have hg : ∀ (k : Nat) note, (noted.take hist'.length)[k]? = some note →
      noted[k]? = some note := by
    intro k note hk
    rw [getElem?_take] at hk
    split at hk
    · exact hk
    · cases hk
  constructor
  · exact h.maxHist_lt
  · exact hl.trans_lt h.inFlight_lt
  · rw [hu.history]
    exact h.wf
  · rw [length_take, hle]
    exact min_eq_left hl
  · rw [hu.history]
    exact fun e he => h.fits e (hh.subset he)
  · rw [hu.history]
    exact hpr
  · rw [hu.history]
    exact fun k e note hk hn => h.leadsBack k e note (hgt k e hk) (hg k note hn)
  · intro note hn
    rw [hu.bimodal]
    exact h.bimodal note (hg 0 note hn)
  · intro k e note note' hk hn hn'
    exact h.undoes k e note note' (hgt k e hk) (hg k note hn) (hg (k + 1) note' hn')

end

end Inv

/-! ### The unit's squash and commit -/

theorem squashLoop_direction (sn : Nat) (hist : List (PredictorHistory BranchInfo))
    (u : BPredUnit Tage BranchInfo) :
    (squashLoop (tage p) sn hist u).direction =
      undo p (hist.take (squashedOf sn hist)) u.direction := by
  induction hist generalizing u with
  | nil => rfl
  | cons e hist ih =>
    unfold squashLoop
    by_cases he : sn < e.seqNum
    · rw [if_pos he, squashedOf_cons_of_lt he, ih]
      rfl
    · rw [if_neg he, squashedOf_cons_of_not_lt he]
      rfl

section

variable (hspec : p.speculativeHistUpdate)

include hspec

theorem squashTo_eq (t : Tage) (taken : Bool) (bi : BranchInfo) :
    t.squashTo p taken bi = { t with history := t.history.squash taken bi } := by
  unfold squashTo
  rw [if_pos hspec]

theorem squash_cons {hist : List (PredictorHistory BranchInfo)}
    (hdr : u.predHist.drop (squashedOf sn u.predHist) = e :: hist) :
    (u.squash (tage p) sn).direction =
      { undo p (u.predHist.take (squashedOf sn u.predHist)) u.direction with
        history := u.direction.history.squash e.predTaken e.bpHistory } ∧
    (u.squash (tage p) sn).predHist = e :: hist ∧
    (u.squash (tage p) sn).prevHist = u.prevHist := by
  have hpr := squashLoop_predHist_drop (d := tage p) sn u
  rw [hdr] at hpr
  unfold BPredUnit.squash restoreDirection
  rw [hpr]
  refine ⟨?_, rfl, squashLoop_prevHist sn u.predHist u⟩
  change squashTo p (squashLoop (tage p) sn u.predHist u).direction _ _ = _
  rw [squashTo_eq hspec, squashLoop_direction, undo_history]

theorem squash_nil (hdr : u.predHist.drop (squashedOf sn u.predHist) = []) :
    (u.squash (tage p) sn).predHist = [] ∧ (u.squash (tage p) sn).prevHist = u.prevHist ∧
    (u.squash (tage p) sn).direction =
      match u.prevHist with
      | some e => { undo p u.predHist u.direction with
          history := u.direction.history.squash e.predTaken e.bpHistory }
      | none => undo p u.predHist u.direction := by
  have hpr := squashLoop_predHist_drop (d := tage p) sn u
  have hal : u.predHist.take (squashedOf sn u.predHist) = u.predHist :=
    take_of_length_le (drop_eq_nil_iff.mp hdr)
  have hd := squashLoop_direction (p := p) sn u.predHist u
  have hpv := squashLoop_prevHist (d := tage p) sn u.predHist u
  rw [hdr] at hpr
  rw [hal] at hd
  unfold BPredUnit.squash restoreDirection
  rw [hpr, hpv]
  cases hpH : u.prevHist with
  | none => exact ⟨hpr, hpv.trans hpH, hd⟩
  | some e =>
    refine ⟨rfl, rfl, ?_⟩
    change squashTo p (squashLoop (tage p) sn u.predHist u).direction _ _ = _
    rw [squashTo_eq hspec, hd, undo_history]

end

def RunInv (p : TageParams) (s : TageRun) : Prop :=
  Inv p s.unit.direction s.unit.predHist s.unit.prevHist s.noted

variable {s s' : TageRun}

theorem RunInv.squash (hspec : p.speculativeHistUpdate) (h : RunInv p s) (sn : Nat) :
    RunInv p
      { unit := s.unit.squash (tage p) sn
        noted := s.noted.drop (squashedOf sn s.unit.predHist) } := by
  unfold RunInv at h ⊢
  cases hd : s.unit.predHist.drop (squashedOf sn s.unit.predHist) with
  | cons e hist =>
    obtain ⟨hdi, hpr, hpv⟩ := squash_cons hspec hd
    have hk : s.unit.predHist[squashedOf sn s.unit.predHist]? = some e := by
      have hhd := congrArg head? hd
      rwa [head?_drop] at hhd
    have hsq := h.squash hk e.predTaken
    simp only [hdi, hpr, hpv]
    rw [hd] at hsq
    exact hsq
  | nil =>
    obtain ⟨hpr, hpv, hdi⟩ := squash_nil hspec hd
    have hno : s.noted.drop (squashedOf sn s.unit.predHist) = [] := by
      rw [drop_eq_nil_iff, h.noted_length]
      exact drop_eq_nil_iff.mp hd
    simp only [hdi, hpr, hpv, hno]
    cases hpH : s.unit.prevHist with
    | none =>
      rw [hpH] at h
      exact h.squash_none
    | some e =>
      rw [hpH] at h
      -- Nothing is left: the predictor goes back to the branch committed last.
      have hf := h.prevFits e rfl
      exact .empty h.maxHist_lt (h.wf.squash hf _) fun e' he' => (h.prevFits e' he').squash hf _

theorem RunInv.predict (hspec : p.speculativeHistUpdate) (h : RunInv p s) (iPred : Bool)
    (q : Prediction) (hpr : s.FewInFlight p (.predict q)) :
    RunInv p
      { unit := (s.unit.predict (tage p) iPred q).2.2
        noted := ⟨(s.unit.predict (tage p) iPred q).2.2.direction, false⟩ :: s.noted } := by
  have hmax := h.maxHist_lt
  obtain ⟨b, hsh, hto⟩ := told_predicting hspec (by omega) iPred s.unit q
  exact Inv.predict h hpr hsh hto

variable {iPred : Bool}

section

variable (hspec : p.speculativeHistUpdate)

include hspec

theorem RunInv.correct (h : RunInv p s) {corrTarget : Addr}
    (hok : s.step p iPred (.correct sn corrTarget taken) = .ok s') : RunInv p s' := by
  obtain ⟨u', hu', rfl⟩ := map_eq_ok.mp hok
  have hs := h.squash hspec sn
  unfold RunInv at hs ⊢
  rcases correct_eq_ok hu' with
    ⟨hni, rfl⟩ | ⟨e, hist, bpHistory, direction, hpr, -, hup, rfl⟩
  · simp only at hs ⊢
    have hl := hs.noted_length
    rw [hni, length_nil, length_eq_zero_iff] at hl
    rw [hl] at hs ⊢
    exact hs
  · rw [hpr] at hs
    cases hn : s.noted.drop (squashedOf sn s.unit.predHist) with
    | nil =>
      rw [hn] at hs
      exact (nomatch hs.noted_length)
    | cons note noted =>
      rw [hn] at hs
      obtain ⟨hb, hd⟩ := Prod.mk.inj hup
      rw [squashTo_eq hspec] at hd
      subst hb
      subst hd
      obtain ⟨-, hbp, ht⟩ := correctRAS_same taken { e with
        predTaken := taken, target := corrTarget } (s.unit.squash (tage p) sn).ras
      exact hs.correct hbp ht

theorem updateLoop_spec (doneSn : Nat) (hist : List (PredictorHistory BranchInfo))
    (u : BPredUnit Tage BranchInfo) :
    Tage.Untouched u.direction (updateLoop (tage p) doneSn hist u).direction ∧
    ∀ e ∈ (updateLoop (tage p) doneSn hist u).prevHist,
      e ∈ u.prevHist ∨ ∃ e' ∈ hist, e.bpHistory = e'.bpHistory := by
  induction hist generalizing u with
  | nil => exact ⟨⟨rfl, rfl⟩, fun e he => .inl he⟩
  | cons e hist ih =>
    unfold updateLoop
    split
    · obtain ⟨hb, hun⟩ := untouched_commit hspec u.direction e.pc e.predTaken e.bpHistory
      obtain ⟨hun', hpr⟩ := ih { u with
        direction := (u.direction.commit p e.pc e.predTaken e.bpHistory).2
        prevHist := some (.new e.seqNum e.pc e.predTaken
          (u.direction.commit p e.pc e.predTaken e.bpHistory).1 e.inst) }
      refine ⟨hun.trans hun', fun e' he' => .inr ?_⟩
      rcases hpr e' he' with hne | ⟨e'', he'', heq⟩
      · cases hne
        exact ⟨e, mem_cons_self, hb⟩
      · exact ⟨e'', mem_cons_of_mem _ he'', heq⟩
    · exact ⟨⟨rfl, rfl⟩, fun e he => .inl he⟩

theorem RunInv.update (h : RunInv p s) (doneSn : Nat) :
    RunInv p
      { unit := s.unit.update (tage p) doneSn
        noted := s.noted.take (s.unit.update (tage p) doneSn).predHist.length } := by
  obtain ⟨hun, hpr⟩ := updateLoop_spec hspec doneSn s.unit.predHist.reverse s.unit
  refine h.commit hun (update_predHist_initial s.unit doneSn) ?_
  intro e he
  rcases hpr e he with hol | ⟨e', he', heq⟩
  · exact h.prevFits e hol
  · rw [heq]
    exact h.fits e' (mem_reverse.mp he')

theorem RunInv.step (h : RunInv p s) {a : PredCall} (hpr : s.FewInFlight p a)
    (ho : s.step p iPred a = .ok s') : RunInv p s' := by
  cases a with
  | predict q =>
    cases ho
    exact h.predict hspec iPred q hpr
  | squash sn =>
    cases ho
    exact h.squash hspec sn
  | correct sn corrTarget taken => exact h.correct hspec ho
  | update doneSn =>
    cases ho
    exact h.update hspec doneSn

theorem runInv_of_reachable {rasSize : Nat}
    (h : ((system p iPred rasSize).restrict (FewInFlight p)).Reachable s) : RunInv p s := by
  refine h.invariant (RunInv p) ?_ ?_
  · rintro s ⟨t, hwf, hma, rfl⟩
    exact .empty hma hwf fun e he => (nomatch he)
  · rintro s a s' hs ⟨-, hpr⟩ hok
    exact hs.step hspec hpr hok

end

/-- **A squash restores the direction history exactly when the record it goes back to has the
direction that was predicted**: global history, path history, foldings and bimodal table are as
they were right after that prediction, unless the unit altered the record afterwards. -/
theorem squash_restores_iff (hspec : p.speculativeHistUpdate) {iPred : Bool}
    {rasSize : Nat} (h : ((system p iPred rasSize).restrict (FewInFlight p)).Reachable s)
    (squashedSn : Nat) {e : PredictorHistory BranchInfo} {note : TageNote}
    (he : s.unit.predHist[BPredUnit.squashedOf squashedSn s.unit.predHist]? = some e)
    (hnote : s.noted[BPredUnit.squashedOf squashedSn s.unit.predHist]? = some note) :
    (s.unit.squash (tage p) squashedSn).direction.SameHistory p note.after ↔
      note.corrected ∨ e.altered = false := by
  have hi : Inv p s.unit.direction s.unit.predHist s.unit.prevHist s.noted :=
    runInv_of_reachable hspec h
  set k := squashedOf squashedSn s.unit.predHist with hk
  have hlt := (List.getElem?_eq_some_iff.mp he).1
  have hdr : s.unit.predHist.drop k = e :: s.unit.predHist.drop (k + 1) := by
    rw [drop_eq_getElem_cons hlt]
    rw [getElem?_eq_getElem hlt] at he
    rw [Option.some.inj he]
  obtain ⟨hdc, -, -⟩ := squash_cons hspec hdr
  have hb := hi.leadsBack k e note he hnote
  have hto : note.after.history.gHist 0 = e.predTaken ↔ note.corrected ∨ e.altered = false := by
    rw [hb.told]
    simp
  rw [hdc, ← hto]
  constructor
  · intro hsa
    rw [← hsa.directions 0 (zero_le _)]
    exact squash_gHist_zero _ _ _
  · intro hbi
    have hd : ∀ j ≤ p.maxHist, (s.unit.direction.history.squash e.predTaken e.bpHistory).gHist j =
          note.after.history.gHist j := by
      intro j hj
      rcases Nat.eq_zero_or_pos j with rfl | hp
      · rw [squash_gHist_zero, hbi]
      · rw [squash_gHist_pos _ _ _ hp, hb.older j hp hj]
    refine ⟨hd, hb.path, ?_, ?_, ?_, hi.undo_bimodal hnote⟩
    · exact (redo_congr hi.wf.indices hd).trans hb.indices
    · exact (redo_congr hi.wf.tags0 hd).trans hb.tags0
    · exact (redo_congr hi.wf.tags1 hd).trans hb.tags1

instance (p : TageParams) (s : TageRun) : DecidablePred (s.FewInFlight p)
  | .predict _ => inferInstanceAs (Decidable (_ < _))
  | .squash _ | .correct .. | .update _ => isTrue trivial

def oneBankStart : TageRun := ⟨.start (.init HistoryRun.oneBank fun _ => 0) 4, []⟩

theorem reachable_oneBankStart :
    ((system HistoryRun.oneBank false 4).restrict (FewInFlight HistoryRun.oneBank)).Reachable
      oneBankStart :=
  .start ⟨_, ⟨by decide, by decide, by decide, by decide⟩, by decide, rfl⟩

/-- A conditional branch survives the squash of the one after it. -/
theorem squash_restores_conditional :
    ∃ s : TageRun,
      ((system HistoryRun.oneBank false 4).restrict (FewInFlight HistoryRun.oneBank)).Reachable s ∧
      ∃ note, s.noted[1]? = some note ∧ s.unit.predHist.length = 2 ∧
        (s.unit.squash (tage HistoryRun.oneBank) 1).direction.SameHistory HistoryRun.oneBank
          note.after := by
  obtain ⟨s, hs, hle, hntd, hsq, hal⟩ := reachable_oneBankStart.exists_of_leads
    (p := fun s => s.unit.predHist.length = 2 ∧ s.noted.length = 2 ∧
      squashedOf 1 s.unit.predHist = 1 ∧
      (s.unit.predHist[1]?).map (·.altered) = some false)
    [.predict (.plain 1 0x101#64 false false false), .predict (.plain 2 0x200#64 true true false)]
    (by decide +kernel)
  obtain ⟨e, he, hal⟩ := Option.map_eq_some_iff.mp hal
  obtain ⟨note, hn⟩ : ∃ note, s.noted[1]? = some note := ⟨_, getElem?_eq_getElem (by omega)⟩
  refine ⟨s, hs, note, hn, hle, ?_⟩
  rw [← hsq] at he hn
  exact (squash_restores_iff rfl hs 1 he hn).mpr (.inr hal)

/-- **A call without a target loses its bit**: the history has it as taken, its record as not
taken, and the squash of the branch after it puts the record's direction in. -/
theorem not_squash_restores_missedCall :
    ∃ s : TageRun,
      ((system HistoryRun.oneBank false 4).restrict (FewInFlight HistoryRun.oneBank)).Reachable s ∧
      s.unit.predHist.length = 2 ∧ BPredUnit.squashedOf 1 s.unit.predHist = 1 ∧
      ∃ note, s.noted[1]? = some note ∧ note.corrected = false ∧
        note.after.history.gHist 0 = true ∧
        (s.unit.squash (tage HistoryRun.oneBank) 1).direction.history.gHist 0 = false ∧
        ¬ (s.unit.squash (tage HistoryRun.oneBank) 1).direction.SameHistory HistoryRun.oneBank
          note.after := by
  obtain ⟨s, hs, hle, hsq, hn, hb⟩ := reachable_oneBankStart.exists_of_leads
    (p := fun s => s.unit.predHist.length = 2 ∧ squashedOf 1 s.unit.predHist = 1 ∧
      (s.noted[1]?).map (fun note => (note.corrected, note.after.history.gHist 0)) =
        some (false, true) ∧
      (s.unit.squash (tage HistoryRun.oneBank) 1).direction.history.gHist 0 = false)
    [.predict { Prediction.plain 1 0x101#64 true true false with btb := none },
      .predict (.plain 2 0x200#64 false false false)] (by decide +kernel)
  obtain ⟨note, hn, hva⟩ := Option.map_eq_some_iff.mp hn
  obtain ⟨hco, ht⟩ := Prod.mk.inj hva
  refine ⟨s, hs, hle, hsq, note, hn, hco, ht, hb, fun hsa => ?_⟩
  have hd := hsa.directions 0 (zero_le _)
  rw [hb, ht] at hd
  exact (nomatch hd)

end TageRun

end Gem5.Cpu.Pred
