import Gem5.Lib.RollingBuffer
import Gem5.Lib.XorFold
import Gem5.Cpu.Pred.Tage

/-!
# Gem5.Cpu.Pred.TageHistory

**The folded histories are exact.** Whatever is predicted, corrected and squashed, each
`FoldedHistory` holds the fold of the outcomes of the surviving branches, as if it were computed
from scratch:

    comp  =  xor of  outcome j <<< (j % compLength)  over  j < origLength

`update` keeps that up to date from the bit that leaves the history, which it reads from the
table of directions. So the table has to have the last `maxHist + 1` outcomes at `ptGhist`, also
after a squash, when `ptGhist` goes back; and it has them as long as fewer than
`histBufferSize - 2 * maxHist` predictions are in flight (`Gem5.Lib.RollingBuffer`).
-/

namespace Gem5.Cpu.Pred

open List Nat ThreadHistory Gem5.Lib TageParams RollingBuffer
open Gem5.Base (Addr)

/-- After so many branches the table of directions is at the same place again. -/
def TageParams.period (p : TageParams) : Nat := p.histBufferSize - p.maxHist

/-- The outcomes of branches, youngest first, and `false` before the first one. -/
def outcomeAt (outcomes : List Bool) : Nat → Bool := fun j => outcomes.getD j false

theorem outcomeAt_drop (outcomes : List Bool) (k j : Nat) :
    outcomeAt (outcomes.drop k) j = outcomeAt outcomes (k + j) := by
  unfold outcomeAt
  rw [getD_eq_getElem?_getD, getD_eq_getElem?_getD, getElem?_drop]

/-! ### One folding -/

/-- Lengths for a folding of a history that is kept, into a width that an `unsigned` has. -/
structure FoldFits (maxHist origLength compLength : Nat) : Prop where
  origLength_pos : 1 ≤ origLength
  origLength_le : origLength ≤ maxHist
  compLength_pos : 1 ≤ compLength
  compLength_lt : compLength < 32

namespace FoldedHistory

variable {maxHist : Nat} {f : FoldedHistory} {h gHist : Nat → Bool}

def Fits (maxHist : Nat) (f : FoldedHistory) : Prop :=
  FoldFits maxHist f.origLength f.compLength

def foldOf (f : FoldedHistory) (h : Nat → Bool) : Nat := xorFold f.compLength h f.origLength

/-- **A folding is exact**, if it is one the table can serve. -/
structure Exact (maxHist : Nat) (h : Nat → Bool) (f : FoldedHistory) : Prop where
  outpoint : f.outpoint = f.origLength % f.compLength
  comp : f.Fits maxHist → f.comp = f.foldOf h

theorem foldOf_lt (hf : f.Fits maxHist) (h : Nat → Bool) : f.foldOf h < 2 ^ 31 :=
  (xorFold_lt hf.compLength_pos h f.origLength).trans_le
    (Nat.pow_le_pow_right (by decide) (le_of_lt_succ hf.compLength_lt))

/-- **One more outcome**, read from the table together with the one that leaves. -/
theorem Exact.update {outcomes : List Bool} {b : Bool} (hex : f.Exact maxHist (outcomeAt outcomes))
    (hgH : ∀ j ≤ maxHist, gHist j = outcomeAt (b :: outcomes) j) :
    (f.update gHist).Exact maxHist (outcomeAt (b :: outcomes)) := by
  refine ⟨hex.outpoint, fun hf => ?_⟩
  change f.Fits maxHist at hf
  have hlt := foldOf_lt hf (outcomeAt outcomes)
  have hsh : (f.foldOf (outcomeAt outcomes) <<< 1) % 2 ^ 32 =
      f.foldOf (outcomeAt outcomes) <<< 1 := by
    omega
  have hwr := wrap_shift_xorFold hf.compLength_pos
    (g := outcomeAt (b :: outcomes)) (fun j => rfl) f.origLength
  rw [← hgH 0 (zero_le _), ← hgH _ hf.origLength_le] at hwr
  unfold FoldedHistory.update
  simp only [hex.comp hf, hsh, hex.outpoint]
  exact hwr

end FoldedHistory

/-! ### The foldings of all banks -/

section Banks

variable {maxHist : Nat} {h : Nat → Bool} {outcomes : List Bool} {b : Bool} {gHist : Nat → Bool}
  {folded : List FoldedHistory} {comps comps' : List Nat}

/-- **Saved foldings** are those of `h`. -/
def Saves (maxHist : Nat) (h : Nat → Bool) : List FoldedHistory → List Nat → Prop :=
  List.Forall₂ fun f comp => f.Fits maxHist → comp = f.foldOf h

def ExactAll (maxHist : Nat) (h : Nat → Bool) (folded : List FoldedHistory) : Prop :=
  ∀ f ∈ folded, f.Exact maxHist h

theorem ExactAll.saves (hex : ExactAll maxHist h folded) :
    Saves maxHist h folded (folded.map (·.comp)) := by
  unfold Saves
  rw [forall₂_map_right_iff, forall₂_same]
  exact fun f hf => (hex f hf).comp

theorem ExactAll.map_update (hex : ExactAll maxHist (outcomeAt outcomes) folded)
    (hgH : ∀ j ≤ maxHist, gHist j = outcomeAt (b :: outcomes) j) :
    ExactAll maxHist (outcomeAt (b :: outcomes)) (folded.map (·.update gHist)) := by
  intro f hf
  obtain ⟨f, hf', rfl⟩ := mem_map.mp hf
  exact (hex f hf').update hgH

section

variable (hsaves : Saves maxHist h folded comps)
include hsaves

theorem Saves.map_update (gHist : Nat → Bool) :
    Saves maxHist h (folded.map (·.update gHist)) comps := by
  unfold Saves
  rw [forall₂_map_left_iff]
  exact hsaves

theorem Saves.redo (gHist : Nat → Bool) (hl : folded.length = comps'.length) :
    Saves maxHist h (folded.zipWith (FoldedHistory.redo gHist) comps') comps := by
  induction hsaves generalizing comps' with
  | nil => exact .nil
  | cons hf _ ih =>
    cases comps' with
    | nil => exact (nomatch hl)
    | cons comp' comps' => exact .cons hf (ih (succ.inj hl))

omit hsaves in
/-- **The foldings are restored** from those before a branch, and take its outcome in. -/
theorem Saves.exact_redo {h' : Nat → Bool} (hsaves : Saves maxHist (outcomeAt outcomes) folded comps)
    (hex : ExactAll maxHist h' folded)
    (hgH : ∀ j ≤ maxHist, gHist j = outcomeAt (b :: outcomes) j) :
    ExactAll maxHist (outcomeAt (b :: outcomes))
      (folded.zipWith (FoldedHistory.redo gHist) comps) := by
  induction hsaves with
  | nil => exact nofun
  | @cons f comp folded comps hco _ ih =>
    intro g hg
    rcases mem_cons.mp hg with rfl | hg
    · have hf := hex f mem_cons_self
      have hsa : FoldedHistory.Exact maxHist (outcomeAt outcomes) { f with comp := comp } :=
        ⟨hf.outpoint, hco⟩
      exact hsa.update hgH
    · exact ih (fun f hf => hex f (mem_cons_of_mem _ hf)) g hg

theorem Saves.length_eq : folded.length = comps.length :=
  List.Forall₂.length_eq hsaves

end

end Banks

/-! ### Runs -/

structure HistoryRun where
  history : ThreadHistory
  /-- The predictions in flight, youngest first. -/
  inFlight : List BranchInfo
  /-- The branch committed last. -/
  committed : Option BranchInfo
  /-- The outcomes of the surviving branches, youngest first. -/
  outcomes : List Bool

inductive HistoryCall
  /-- A speculative update for a prediction. -/
  | update (branchPC : Addr) (taken : Bool) (bi : BranchInfo)
  /-- The branch predicted last has no target. -/
  | btbMiss
  /-- Back to the prediction with `k` younger ones, which has the outcome `taken`. -/
  | squash (k : Nat) (taken : Bool)
  /-- The oldest prediction is committed. -/
  | commit

namespace HistoryRun

/-- The predictions a squash can go back to. -/
def infos (s : HistoryRun) : List BranchInfo := s.inFlight ++ s.committed.toList

variable (p : TageParams)

def step (s : HistoryRun) : HistoryCall → Except Empty HistoryRun
  | .update branchPC taken bi =>
    let (bi, history) := s.history.shift p branchPC taken true bi
    .ok { s with
      history := history, inFlight := bi :: s.inFlight, outcomes := taken :: s.outcomes }
  | .btbMiss =>
    match s.inFlight with
    | [] => .ok s
    | bi :: _ => .ok
      { s with history := s.history.btbUpdate bi, outcomes := false :: s.outcomes.tail }
  | .squash k taken =>
    match s.infos[k]? with
    | none => .ok s
    | some bi => .ok
      { s with
        history := s.history.squash taken bi
        inFlight := s.inFlight.drop k
        outcomes := taken :: s.outcomes.drop (k + 1) }
  | .commit => .ok { s with inFlight := s.inFlight.dropLast, committed := s.inFlight.getLast? }

def pre (s : HistoryRun) : HistoryCall → Prop
  | .update _ _ _ => s.inFlight.length + 1 < p.histBufferSize - 2 * p.maxHist
  | .btbMiss | .commit => s.inFlight ≠ []
  | .squash k _ => k < s.infos.length

instance (p : TageParams) (s : HistoryRun) : DecidablePred (s.pre p) := fun a => by
  cases a <;> dsimp only [pre] <;> infer_instance

def start : HistoryRun := ⟨.init p, [], none, []⟩

/-- Every run of a predictor whose table is long enough, which `init` asserts. -/
abbrev system : System HistoryRun HistoryCall Empty where
  init s := p.maxHist * 2 < p.histBufferSize ∧ s = start p
  step := step p
  pre s a := s.pre p a

end HistoryRun

/-! ### The table -/

namespace ThreadHistory

def buffer (t : ThreadHistory) : RollingBuffer Bool := ⟨t.globalHistory, t.ptGhist⟩

variable {p : TageParams}

theorem buffer_updateGHist (hmax : p.maxHist ≤ p.histBufferSize) (t : ThreadHistory) (dir : Bool) :
    (t.updateGHist p dir).buffer = t.buffer.push p.period p.maxHist dir := by
  have hpe : p.period + p.maxHist = p.histBufferSize := by
    unfold period
    omega
  unfold buffer updateGHist push rollOver
  rw [hpe]
  by_cases hz : t.ptGhist = 0
  · simp only [hz]
    rfl
  · simp only [hz, if_false]

structure Exact (maxHist : Nat) (outcomes : List Bool) (t : ThreadHistory) : Prop where
  indices : ExactAll maxHist (outcomeAt outcomes) t.computeIndices
  tags0 : ExactAll maxHist (outcomeAt outcomes) t.computeTags0
  tags1 : ExactAll maxHist (outcomeAt outcomes) t.computeTags1

/-- The foldings saved in `bi` are those of `outcomes`. -/
structure Saved (maxHist : Nat) (outcomes : List Bool) (t : ThreadHistory) (bi : BranchInfo) :
    Prop where
  indices : Saves maxHist (outcomeAt outcomes) t.computeIndices bi.ci
  tags0 : Saves maxHist (outcomeAt outcomes) t.computeTags0 bi.ct0
  tags1 : Saves maxHist (outcomeAt outcomes) t.computeTags1 bi.ct1

variable {t t' : ThreadHistory} {outcomes outcomes' : List Bool} {maxHist : Nat} {b : Bool}
  {bi bi' : BranchInfo}

theorem Exact.updateFolded (hex : t.Exact maxHist outcomes)
    (hgH : ∀ j ≤ maxHist, t.gHist j = outcomeAt (b :: outcomes) j) :
    t.updateFolded.Exact maxHist (b :: outcomes) :=
  ⟨hex.indices.map_update hgH, hex.tags0.map_update hgH, hex.tags1.map_update hgH⟩

theorem Saved.updateFolded (hs : t.Saved maxHist outcomes bi) :
    t.updateFolded.Saved maxHist outcomes bi :=
  ⟨hs.indices.map_update _, hs.tags0.map_update _, hs.tags1.map_update _⟩

theorem Saved.redoFolded (hs : t.Saved maxHist outcomes bi)
    (hs' : t.Saved maxHist outcomes' bi') : (t.redoFolded bi').Saved maxHist outcomes bi :=
  ⟨hs.indices.redo _ hs'.indices.length_eq, hs.tags0.redo _ hs'.tags0.length_eq,
    hs.tags1.redo _ hs'.tags1.length_eq⟩

theorem exact_init (p : TageParams) : (ThreadHistory.init p).Exact maxHist [] := by
  have hz : ∀ c L, xorFold c (outcomeAt []) L = 0 := by
    intro c L
    induction L with
    | zero => rfl
    | succ L ih =>
      rw [xorFold, ih]
      simp [outcomeAt]
  have hin : ∀ L c, (FoldedHistory.init L c).Exact maxHist (outcomeAt []) :=
    fun L c => ⟨rfl, fun _ => (hz c L).symm⟩
  refine ⟨?_, ?_, ?_⟩ <;> intro f hf <;> obtain ⟨bank, -, rfl⟩ := mem_map.mp hf
  · exact hin _ _
  · exact hin _ _
  · exact hin _ _

end ThreadHistory

/-! ### The invariant -/

namespace HistoryRun

variable {p : TageParams} {s s' : HistoryRun}

structure Inv (p : TageParams) (s : HistoryRun) : Prop where
  inFlight_lt : s.inFlight.length < p.histBufferSize - 2 * p.maxHist
  holds : s.history.buffer.Holds p.period p.maxHist s.inFlight.length (outcomeAt s.outcomes)
  exact : s.history.Exact p.maxHist s.outcomes
  pointers : ∀ k bi, s.infos[k]? = some bi →
    bi.ptGhist = RollingBuffer.back p.period s.history.ptGhist k
  saved : ∀ k bi, s.infos[k]? = some bi → s.history.Saved p.maxHist (s.outcomes.drop (k + 1)) bi
  path : ∀ bi, s.infos[0]? = some bi → bi.pathHist = s.history.pathHist

namespace Inv

theorem bound (h : s.Inv p) : s.inFlight.length < p.period - p.maxHist := by
  have hlt := h.inFlight_lt
  unfold period
  omega

theorem pt_lt (h : s.Inv p) : s.history.ptGhist < p.period := h.holds.pt_lt

theorem infos_length (s : HistoryRun) : s.infos.length ≤ s.inFlight.length + 1 := by
  unfold infos
  cases s.committed with
  | none => simp
  | some bi => simp

variable {bi : BranchInfo}

theorem le_of_infos {k : Nat} (hk : s.infos[k]? = some bi) : k ≤ s.inFlight.length := by
  have hlt := (List.getElem?_eq_some_iff.mp hk).1
  have hle := infos_length s
  omega

theorem start (hmax : p.maxHist * 2 < p.histBufferSize) : (HistoryRun.start p).Inv p := by
  refine ⟨?_, ⟨?_, ?_⟩, exact_init p, ?_, ?_, ?_⟩
  · change 0 < _
    omega
  · change 0 < p.period
    unfold period
    omega
  · exact fun k _ j _ => rfl
  · exact nofun
  · exact nofun
  · exact nofun

section

variable (h : s.Inv p)
include h

theorem update {branchPC : Addr} {taken : Bool}
    (hpr : s.inFlight.length + 1 < p.histBufferSize - 2 * p.maxHist) :
    Inv p
      { s with
        history := (s.history.shift p branchPC taken true bi).2
        inFlight := (s.history.shift p branchPC taken true bi).1 :: s.inFlight
        outcomes := taken :: s.outcomes } := by
  have hpe : s.inFlight.length + 1 < p.period - p.maxHist := by
    unfold period
    omega
  have hb := buffer_updateGHist (by omega : p.maxHist ≤ p.histBufferSize) s.history taken
  have hh := h.holds.push hpe (a := taken) (g := outcomeAt (taken :: s.outcomes)) rfl fun j => rfl
  rw [← hb] at hh
  have hex : ((s.history.updateGHist p taken).updatePath p branchPC).Exact p.maxHist s.outcomes :=
    ⟨h.exact.indices, h.exact.tags0, h.exact.tags1⟩
  refine ⟨hpr, hh, hex.updateFolded hh.newest, ?_, ?_, ?_⟩
  · intro k bi hk
    cases k with
    | zero =>
      cases hk
      exact (back_zero hh.pt_lt).symm
    | succ k =>
      have hl := le_of_infos hk
      rw [h.pointers k bi hk]
      change _ = back p.period (s.history.updateGHist p taken).buffer.pt (k + 1)
      rw [hb]
      exact (back_push h.holds.pt_lt (by
        simp only [length_cons] at hl
        omega)).symm
  · intro k bi hk
    cases k with
    | zero =>
      cases hk
      exact ThreadHistory.Saved.updateFolded
        ⟨h.exact.indices.saves, h.exact.tags0.saves, h.exact.tags1.saves⟩
    | succ k =>
      have hs := h.saved k bi hk
      exact ThreadHistory.Saved.updateFolded
        ⟨hs.indices, hs.tags0, hs.tags1⟩
  · intro bi hk
    cases hk
    rfl

/-- **Back to a prediction**, whose outcome is replaced. -/
theorem squash {k : Nat} (hk : s.infos[k]? = some bi) (taken : Bool) :
    Inv p
      { s with
        history := s.history.squash taken bi
        inFlight := s.inFlight.drop k
        outcomes := taken :: s.outcomes.drop (k + 1) } := by
  have hle := le_of_infos hk
  have hbo := h.bound
  have hs := h.saved k bi hk
  have hp := h.pointers k bi hk
  have hh := (h.holds.goBack hbo hle).setNewest (by omega)
    (g := outcomeAt (taken :: s.outcomes.drop (k + 1))) rfl fun j => by
      change outcomeAt (s.outcomes.drop (k + 1)) j = _
      rw [outcomeAt_drop]
      congr 1
      omega
  have hln : (s.inFlight.drop k).length = s.inFlight.length - k := length_drop
  set t := ({ s.history with pathHist := bi.pathHist, ptGhist := bi.ptGhist }.setGHist taken)
    with ht
  have hbu : t.buffer = RollingBuffer.setNewest
      ⟨s.history.globalHistory, back p.period s.history.ptGhist k⟩ taken := by
    rw [← hp]
    rfl
  have hh' : t.buffer.Holds p.period p.maxHist (s.inFlight.length - k)
      (outcomeAt (taken :: s.outcomes.drop (k + 1))) := by
    rw [hbu]
    exact hh
  have hs' : t.Saved p.maxHist (s.outcomes.drop (k + 1)) bi := ⟨hs.indices, hs.tags0, hs.tags1⟩
  have hex : t.Exact p.maxHist s.outcomes := ⟨h.exact.indices, h.exact.tags0, h.exact.tags1⟩
  -- Older predictions keep what they saved; only their distance from the front changes.
  have holder : ∀ l bi', ((s.inFlight.drop k) ++ s.committed.toList)[l]? = some bi' →
      s.infos[k + l]? = some bi' := by
    intro l bi' hl
    unfold infos
    rw [← getElem?_drop, drop_append_of_le_length hle]
    exact hl
  have hre : (t.redoFolded bi).Exact p.maxHist _ :=
    ⟨hs'.indices.exact_redo hex.indices hh'.newest, hs'.tags0.exact_redo hex.tags0 hh'.newest,
      hs'.tags1.exact_redo hex.tags1 hh'.newest⟩
  refine ⟨?_, ?_, hre, ?_, ?_, ?_⟩
  · have hlt := h.inFlight_lt
    simp only [hln]
    omega
  · simp only [hln]
    exact hh'
  · intro l bi' hl
    have hm := holder l bi' hl
    have hlk := le_of_infos hm
    rw [h.pointers (k + l) bi' hm]
    change _ = back p.period bi.ptGhist l
    rw [hp, back_back h.pt_lt (by omega)]
  · intro l bi' hl
    have hm := holder l bi' hl
    have ho := h.saved (k + l) bi' hm
    have hdr : (taken :: s.outcomes.drop (k + 1)).drop (l + 1) = s.outcomes.drop (k + l + 1) := by
      rw [drop_succ_cons, drop_drop]
      congr 1
      omega
    have ho' : t.Saved p.maxHist ((taken :: s.outcomes.drop (k + 1)).drop (l + 1)) bi' := by
      rw [hdr]
      exact ⟨ho.indices, ho.tags0, ho.tags1⟩
    exact ho'.redoFolded hs'
  · intro bi' hz
    have hm := holder 0 bi' hz
    rw [add_zero, hk] at hm
    cases hm
    rfl

theorem btbMiss {inFlight : List BranchInfo} (hin : s.inFlight = bi :: inFlight) :
    Inv p { s with history := s.history.btbUpdate bi, outcomes := false :: s.outcomes.tail } := by
  have hk : s.infos[0]? = some bi := by
    unfold infos
    rw [hin]
    rfl
  have hp := h.pointers 0 bi hk
  rw [back_zero h.pt_lt] at hp
  have hsa : s.history.squash false bi = s.history.btbUpdate bi := by
    unfold ThreadHistory.squash btbUpdate
    rw [hp, h.path bi hk]
  have hsq := h.squash hk false
  rwa [zero_add, drop_one, hsa] at hsq

theorem commit :
    Inv p { s with inFlight := s.inFlight.dropLast, committed := s.inFlight.getLast? } := by
  have hle : s.inFlight.dropLast.length ≤ s.inFlight.length := by
    rw [length_dropLast]
    omega
  have hin : ∀ (k : Nat) (bi : BranchInfo),
      (s.inFlight.dropLast ++ s.inFlight.getLast?.toList)[k]? = some bi →
      s.infos[k]? = some bi := by
    intro k bi hk
    have hsa : s.inFlight.dropLast ++ s.inFlight.getLast?.toList = s.inFlight := by
      cases hl : s.inFlight.getLast? with
      | none => simp [getLast?_eq_none_iff.mp hl]
      | some bi => exact dropLast_append_getLast? bi hl
    rw [hsa] at hk
    have hlt := (List.getElem?_eq_some_iff.mp hk).1
    unfold infos
    rw [getElem?_append_left hlt, hk]
  refine ⟨hle.trans_lt h.inFlight_lt, h.holds.mono hle, h.exact, ?_, ?_, ?_⟩
  · exact fun k bi hk => h.pointers k bi (hin k bi hk)
  · exact fun k bi hk => h.saved k bi (hin k bi hk)
  · exact fun bi hk => h.path bi (hin 0 bi hk)

theorem step {a : HistoryCall} (hpr : s.pre p a) (ho : s.step p a = .ok s') : s'.Inv p := by
  cases a with
  | update branchPC taken bi =>
    cases ho
    exact h.update hpr
  | btbMiss =>
    unfold HistoryRun.step at ho
    simp only at ho
    split at ho
    · cases ho
      exact h
    · next bi inFlight hin =>
      cases ho
      exact h.btbMiss hin
  | squash k taken =>
    unfold HistoryRun.step at ho
    simp only at ho
    split at ho
    · cases ho
      exact h
    · next bi hk =>
      cases ho
      exact h.squash hk taken
  | commit =>
    cases ho
    exact h.commit

end

end Inv

/-- **Folded histories are exact** in every run with fewer than `histBufferSize - 2 * maxHist`
predictions in flight, also when the table of directions wraps around. -/
theorem folded_exact (h : (system p).Reachable s) :
    ∀ f ∈ s.history.computeIndices ++ s.history.computeTags0 ++ s.history.computeTags1,
      1 ≤ f.origLength → f.origLength ≤ p.maxHist → 1 ≤ f.compLength → f.compLength < 32 →
      f.comp = xorFold f.compLength (outcomeAt s.outcomes) f.origLength := by
  have hin : s.Inv p := by
    refine h.invariant (Inv p) ?_ ?_
    · rintro s ⟨hm, rfl⟩
      exact Inv.start hm
    · exact fun s a s' hs hpr hok => hs.step hpr hok
  intro f hf hor hm hco hw
  have hfi : f.Fits p.maxHist := ⟨hor, hm, hco, hw⟩
  rcases mem_append.mp hf with hf | hf
  · rcases mem_append.mp hf with hf | hf
    · exact (hin.exact.indices f hf).comp hfi
    · exact (hin.exact.tags0 f hf).comp hfi
  · exact (hin.exact.tags1 f hf).comp hfi

/-- One bank, with a history of three branches folded into two bits, and a table that is full
after seven branches. -/
def oneBank : TageParams where
  logRatioBiModalHystEntries := 0
  tagTableCounterBits := 3
  tagTableUBits := 2
  histBufferSize := 10
  maxHist := 3
  pathHistBits := 4
  logBimodalTableSize := 2
  banks := [⟨3, 2, 3, true⟩]
  logUResetPeriod := 18
  initialTCounterValue := 2 ^ 17
  useAltOnNaBits := 4
  maxNumAlloc := 1
  speculativeHistUpdate := true
  instShiftAmt := 0

/-- The table wraps around, the last branch has no target, and the two youngest ones are
squashed. -/
theorem folded_exact_wrapped :
    ∃ s : HistoryRun, (system oneBank).Reachable s ∧
      s.outcomes = [true, true, false, true, true, false, true] ∧
      s.history.computeIndices.length = 1 ∧
      ∀ f ∈ s.history.computeIndices, f.comp = 3 ∧ f.comp = xorFold 2 (outcomeAt s.outcomes) 3 := by
  have hst : (system oneBank).Reachable (start oneBank) := .start ⟨by decide, rfl⟩
  obtain ⟨s, hs, hou, hin⟩ := hst.exists_of_leads
    (p := fun s => s.outcomes = [true, true, false, true, true, false, true] ∧
      s.history.computeIndices = [⟨3, 2, 3, 1⟩])
    [.update 0x10#64 true .new, .update 0x11#64 false .new, .update 0x12#64 true .new, .commit,
      .update 0x13#64 true .new, .commit, .update 0x14#64 false .new, .commit,
      .update 0x15#64 true .new, .commit, .update 0x16#64 false .new, .commit,
      .update 0x17#64 true .new, .commit, .update 0x18#64 true .new, .btbMiss, .squash 2 true]
    (by decide +kernel)
  refine ⟨s, hs, hou, by rw [hin]; rfl, ?_⟩
  intro f hf
  have hex := folded_exact hs f (mem_append_left _ (mem_append_left _ hf))
  rw [hin, mem_singleton] at hf
  subst hf
  exact ⟨rfl, hex (by decide) (by decide) (by decide) (by decide)⟩

end HistoryRun

end Gem5.Cpu.Pred
