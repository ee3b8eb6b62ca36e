import Gem5.Cpu.Pred.TageUndo

/-!
# Gem5.Cpu.Pred.TageBimodal

**What trains the bimodal table.** A branch that no tagged table knows is predicted by a two-bit
counter. With speculative histories `updateHistories` steps the counter towards the direction
predicted, and nothing steps it towards the outcome. Without them a commit steps it twice, in
`handleTAGEUpdate` and in `updateHistories`. Either way an unconditional branch, whose record has no
index of its own, steps entry 0.
-/

namespace Gem5.Cpu.Pred.Tage

open Gem5.Base (Addr)
open HistoryRun (oneBank)

def counter (p : TageParams) (b : (Nat → Bool) × (Nat → Bool)) (index : Nat) : Nat :=
  2 * (b.1 index).toNat + (b.2 (index >>> p.logRatioBiModalHystEntries)).toNat

def saturate (counter : Nat) (taken : Bool) : Nat :=
  if taken then if counter < 3 then counter + 1 else counter else counter - 1

def stepEntry (p : TageParams) (index : Nat) (taken : Bool) (b : (Nat → Bool) × (Nat → Bool)) :
    (Nat → Bool) × (Nat → Bool) :=
  let counter := saturate (counter p b index) taken
  (Function.update b.1 index (counter / 2 == 1),
    Function.update b.2 (index >>> p.logRatioBiModalHystEntries) (counter % 2 == 1))

/-- A predicted branch is corrected, if it has to be, and committed. -/
def finish (p : TageParams) (r : BranchInfo × Tage) (branchPC : Addr) (taken corrected : Bool) :
    Tage :=
  ((if corrected then r.2.squashTo p taken r.1 else r.2).commit p branchPC taken r.1).2

/-- A branch is predicted, corrected and committed before the next one. -/
def serve (p : TageParams) (t : Tage) (branchPC : Addr) (condBranch taken corrected : Bool) : Tage :=
  finish p (if condBranch then ((tage p).lookup t branchPC).2
    else (tage p).uncondBranch t branchPC) branchPC taken corrected

def NoHit (p : TageParams) (t : Tage) (branchPC : Addr) : Prop :=
  (t.tagePredict p branchPC true .new).2.hitBank = 0

variable {p : TageParams} {t t' : Tage} {bi bi' : BranchInfo}

theorem counter_stepEntry (i : Nat) (taken : Bool) (b : (Nat → Bool) × (Nat → Bool)) :
    counter p (stepEntry p i taken b) i = saturate (counter p b i) taken := by
  have hbi : ∀ n < 4, 2 * (n / 2 == 1).toNat + (n % 2 == 1).toNat = n := by
    decide
  simp only [counter, stepEntry, Function.update_self]
  refine hbi (saturate _ taken) ?_
  have hp := (b.1 i).toNat_le
  have hh := (b.2 (i >>> p.logRatioBiModalHystEntries)).toNat_le
  unfold saturate
  split_ifs <;> omega

/-- Stepping entry 0 as taken changes nothing exactly where it is saturated. -/
theorem stepEntry_zero_iff (b : (Nat → Bool) × (Nat → Bool)) :
    stepEntry p 0 true b = b ↔ b.1 0 = true ∧ b.2 0 = true := by
  simp only [stepEntry, Prod.ext_iff, Function.update_eq_self_iff, counter, Nat.zero_shiftRight]
  generalize b.1 0 = x, b.2 0 = y
  revert x y
  decide

/-- `r` is left by an update that stepped the counter of a branch without a tagged entry. -/
structure Stepped (p : TageParams) (t : Tage) (taken : Bool) (bi : BranchInfo)
    (r : BranchInfo × Tage) : Prop where
  bimodal : r.2.bimodal = stepEntry p bi.bimodalIndex taken t.bimodal
  hitBank : r.1.hitBank = 0
  index : r.1.bimodalIndex = bi.bimodalIndex

section
variable (h0 : bi.hitBank = 0) (taken : Bool)
include h0

theorem stepped_baseUpdate (hb : t'.bimodal = t.bimodal) (hi : bi.bimodalIndex = bi'.bimodalIndex) :
    Stepped p t taken bi' (t'.baseUpdate p taken bi) := by
  refine ⟨by rw [← hb, ← hi]; rfl, ?_, ?_⟩
  · simp only [baseUpdate]
    split <;> exact h0
  · simp only [baseUpdate]
    split <;> exact hi

variable (branchPC : Addr)

theorem stepped_updateHistories :
    Stepped p t taken bi (t.updateHistories p branchPC taken bi p.speculativeHistUpdate) := by
  simp only [updateHistories, bne_self_eq_false, Bool.false_eq_true, if_false, updateBase,
    ThreadHistory.shift]
  split
  · simp only [h0, Nat.lt_irrefl, if_false]
    exact stepped_baseUpdate (by rfl) taken (by rfl) (by rfl)
  · simp only [h0, Nat.lt_irrefl, if_false]
    exact stepped_baseUpdate (by exact h0) taken (by rfl) (by rfl)

/-- **A commit steps the counter twice**, or with speculative histories not at all. -/
theorem bimodal_commit : (t.commit p branchPC taken bi).2.bimodal =
    if p.speculativeHistUpdate then t.bimodal
    else if bi.condBranch then
      stepEntry p bi.bimodalIndex taken (stepEntry p bi.bimodalIndex taken t.bimodal)
    else stepEntry p bi.bimodalIndex taken t.bimodal := by
  cases hs : p.speculativeHistUpdate with
  | true => exact (untouched_commit hs t branchPC taken bi).2.bimodal
  | false =>
    have hh {t : Tage} {bi : BranchInfo} (h0 : bi.hitBank = 0) :=
      (hs ▸ stepped_updateHistories (t := t) h0 taken branchPC).bimodal
    simp only [commit, Bool.false_eq_true, if_false]
    split
    · simp only [condBranchUpdate, handleTAGEUpdate, h0, hs, Nat.lt_irrefl, if_false, decide_false,
        Bool.false_and, Bool.not_false, if_true, Bool.false_eq_true]
      have hb := stepped_baseUpdate (p := p) (t := t) h0 taken
        (untouched_handleAllocAndUReset (p := p) { t with draws := t.draws + 1 }
          (bi.tagePred != taken && decide (0 < p.nHistoryTables) && true) taken bi
          (t.random t.draws &&& 3)).bimodal rfl
      rw [hh hb.hitBank, hb.index, hb.bimodal]
    · exact hh h0

/-- **What serving the branch leaves**, if it was predicted with the direction `pred`. -/
theorem bimodal_finish (pred corrected : Bool) :
    (finish p (t.updateHistories p branchPC pred bi true) branchPC taken corrected).bimodal =
      if p.speculativeHistUpdate then stepEntry p bi.bimodalIndex pred t.bimodal
      else if bi.condBranch then
        stepEntry p bi.bimodalIndex taken (stepEntry p bi.bimodalIndex taken t.bimodal)
      else stepEntry p bi.bimodalIndex taken t.bimodal := by
  have hsq (r : BranchInfo × Tage) :
      (if corrected then r.2.squashTo p taken r.1 else r.2).bimodal = r.2.bimodal := by
    unfold squashTo
    split
    · split <;> rfl
    · rfl
  cases hs : p.speculativeHistUpdate with
  | true =>
    have h := hs ▸ stepped_updateHistories (t := t) h0 pred branchPC
    rw [finish, bimodal_commit h.hitBank, hs, hsq, if_pos rfl, if_pos rfl, h.bimodal]
  | false =>
    have h : t.updateHistories p branchPC pred bi true = (bi, t) := by
      simp [updateHistories, hs]
    rw [h, finish, bimodal_commit h0, hs, hsq]
    rfl

end

theorem tagePredict_noHit {branchPC : Addr} (h : NoHit p t branchPC) :
    (t.tagePredict p branchPC true .new).1 = t.btablePrediction (bindex p branchPC) ∧
      (t.tagePredict p branchPC true .new).2.bimodalIndex = bindex p branchPC ∧
      (t.tagePredict p branchPC true .new).2.condBranch = true := by
  simp only [NoHit, tagePredict, if_true, decidePred] at h ⊢
  split at h
  next hpo => exact absurd h (by simpa [findBanks] using hpo.ne')
  next h0 =>
    rw [if_neg h0]
    exact ⟨rfl, rfl, trivial⟩

theorem counter_serve_iff {branchPC : Addr} (h : NoHit p t branchPC) (taken corrected : Bool) :
    counter p (t.serve p branchPC true taken corrected).bimodal (bindex p branchPC) =
        saturate (counter p t.bimodal (bindex p branchPC)) taken ↔
      t.btablePrediction (bindex p branchPC) = taken := by
  obtain ⟨hp, hi, hc⟩ := tagePredict_noHit h
  have hs := bimodal_finish (p := p) (t := t) h taken branchPC
    (t.tagePredict p branchPC true .new).1 corrected
  rw [hi, hc, hp] at hs
  simp only [serve, tage, if_true, hp, hs]
  rw [apply_ite (counter p · (bindex p branchPC))]
  simp only [counter_stepEntry]
  -- What is left is about two bits of the table and one of each other Boolean.
  simp only [counter, Tage.bimodal]
  clear hs
  generalize t.btablePrediction (bindex p branchPC) = x, t.btableHysteresis _ = y,
    p.speculativeHistUpdate = z
  revert x y z taken
  decide

/-- An unconditional branch leaves the table alone exactly where entry 0 is saturated. -/
theorem bimodal_serve_iff (t : Tage) (branchPC : Addr) (corrected : Bool) :
    (t.serve p branchPC false true corrected).bimodal = t.bimodal ↔
      t.btablePrediction 0 = true ∧ t.btableHysteresis 0 = true := by
  have hs := bimodal_finish (p := p) (t := t)
    (show (t.tagePredict p branchPC false .new).2.hitBank = 0 from rfl) true branchPC true corrected
  have hne : (t.tagePredict p branchPC false .new).2.bimodalIndex = 0 ∧
      (t.tagePredict p branchPC false .new).2.condBranch = false := ⟨rfl, rfl⟩
  simp only [serve, tage, Bool.false_eq_true, if_false, hs, hne, ite_self]
  exact stepEntry_zero_iff t.bimodal

/-! ### Sequences of branches -/

/-- A branch with its outcome. An unconditional one is taken. -/
inductive Served
  | cond (branchPC : Addr) (taken corrected : Bool)
  | uncond (branchPC : Addr) (corrected : Bool)

def Served.next (p : TageParams) (t : Tage) : Served → Tage
  | cond branchPC taken corrected => t.serve p branchPC true taken corrected
  | uncond branchPC corrected => t.serve p branchPC false true corrected

/-- A conditional branch without a tagged entry steps its counter once towards the outcome, and an
unconditional one steps nothing. -/
def Served.Trains (p : TageParams) (t : Tage) : Served → Prop
  | cond branchPC taken corrected => NoHit p t branchPC →
      counter p (t.serve p branchPC true taken corrected).bimodal (bindex p branchPC) =
        saturate (counter p t.bimodal (bindex p branchPC)) taken
  | uncond branchPC corrected => (t.serve p branchPC false true corrected).bimodal = t.bimodal

/-- The counter predicts a conditional branch right, and entry 0 is saturated at an unconditional
one. -/
def Served.Agrees (p : TageParams) (t : Tage) : Served → Prop
  | cond branchPC taken _ => NoHit p t branchPC → t.btablePrediction (bindex p branchPC) = taken
  | uncond .. => t.btablePrediction 0 = true ∧ t.btableHysteresis 0 = true

/-- Each branch of a sequence meets the tables as the branches before it left them. -/
def Along (p : TageParams) (P : Tage → Served → Prop) : Tage → List Served → Prop
  | _, [] => True
  | t, b :: bs => P t b ∧ Along p P (b.next p t) bs

/-- **Training follows the outcomes exactly where the predictions were right**: in every sequence of
branches served one after the other, each is trained as it should be exactly when each conditional
one was predicted right and each unconditional one found entry 0 saturated. -/
theorem trained_iff (p : TageParams) (t : Tage) (bs : List Served) :
    Along p (Served.Trains p) t bs ↔ Along p (Served.Agrees p) t bs := by
  induction bs generalizing t with
  | nil => exact .rfl
  | cons b bs ih =>
    refine and_congr ?_ (ih _)
    cases b with
    | cond branchPC taken corrected =>
      exact forall_congr' fun h => counter_serve_iff h taken corrected
    | uncond branchPC corrected => exact bimodal_serve_iff t branchPC corrected

/-- A branch that is not taken twice is trained right. -/
theorem trained_iff_notTaken : NoHit oneBank (init oneBank id) 1 ∧
    Along oneBank (Served.Trains oneBank) (init oneBank id)
      [.cond 1 false false, .cond 1 false false] := by
  refine ⟨?_, (trained_iff _ _ _).mpr ⟨fun _ => ?_, fun _ => ?_, trivial⟩⟩
  · unfold NoHit
    decide +kernel
  · rfl
  · decide +kernel

/-- **A weakly not-taken branch that is taken** ends strongly not taken or strongly taken, and an
unconditional branch makes entry 0 weakly taken. -/
theorem serve_mistrains :
    let p := { oneBank with speculativeHistUpdate := true }
    let q := { oneBank with speculativeHistUpdate := false }
    (counter p (init p id).bimodal 1 = 1 ∧ NoHit p (init p id) 1 ∧
      counter p ((init p id).serve p 1 true true true).bimodal 1 = 0 ∧
      counter p ((init p id).serve p 1 false true false).bimodal 0 = 2) ∧
    counter q (init q id).bimodal 1 = 1 ∧ NoHit q (init q id) 1 ∧
      counter q ((init q id).serve q 1 true true true).bimodal 1 = 3 := by
  unfold NoHit
  decide +kernel

end Gem5.Cpu.Pred.Tage
