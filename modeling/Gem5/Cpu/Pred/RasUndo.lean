import Gem5.Cpu.Pred.BPredUnit

/-!
# Gem5.Cpu.Pred.RasUndo

**A squash gives the return address stack back.** What is live of the stack is its top index
and the `usedEntries` entries from there down. Every record says how to undo its prediction:
put an entry back, take one off, or nothing. Walking the records from the front undoes the
live part step by step, so a squash leaves the stack as it was before the oldest squashed
prediction.

One correction breaks this: a return predicted not taken and found taken pops the stack, but
records neither the index nor the entry it took off.
-/

namespace Gem5.Cpu.Pred

open List BPredUnit Bool Function PredictorHistory ReturnAddrStack Gem5.Lib
open Gem5.Base (Addr)
open Gem5.Cpu.O3 (PCState)

variable {T H : Type} {n : Nat}

/-! ### The live part of the stack -/

namespace ReturnAddrStack

/-- The entry `i` below the one at `tos`, in a circle of `n`. -/
def slot (n tos i : Nat) : Nat := if i ≤ tos then tos - i else tos + n - i

/-- **The live entries**, from the top down. -/
def live (r : ReturnAddrStack) : List PCState :=
  (List.range r.usedEntries).map fun i => r.addrStack.getD (slot r.numEntries r.tos i) .zero

/-- What a squash has to give back. -/
def view (r : ReturnAddrStack) : Nat × List PCState := (r.tos, r.live)

structure WF (n : Nat) (r : ReturnAddrStack) : Prop where
  length : r.addrStack.length = n
  used_le : r.usedEntries ≤ n
  tos_lt : 0 < n → r.tos < n

variable {r : ReturnAddrStack} {tos idx i : Nat}

@[simp] theorem length_live (r : ReturnAddrStack) : r.live.length = r.usedEntries := by
  simp [live]

theorem decrTos_lt (h : tos < n) : decrTos n tos < n := by
  unfold decrTos
  split <;> omega

theorem incrTos_lt (h : tos < n) : incrTos n tos < n := by
  unfold incrTos
  split <;> omega

theorem decrTos_incrTos (n tos : Nat) : decrTos n (incrTos n tos) = tos := by
  unfold decrTos incrTos
  split <;> split <;> omega

theorem slot_succ (htos : tos < n) (hi : i + 1 < n) :
    slot n tos (i + 1) = slot n (decrTos n tos) i := by
  unfold slot decrTos
  split <;> split <;> split <;> omega

theorem slot_ne (hi : i + 1 < n) : slot n tos (i + 1) ≠ tos := by
  unfold slot
  split <;> omega

theorem wf_init (n : Nat) : (init n).WF n where
  length := length_replicate
  used_le := Nat.zero_le n
  tos_lt h := h

section

variable (h : r.WF n)

include h

theorem WF.restore (hid : idx < n) (hfl : r.usedEntries < n) (x : PCState) :
    (r.restore idx x).WF n where
  length := by rw [ReturnAddrStack.restore, length_set, h.length]
  used_le := by
    simp only [ReturnAddrStack.restore, countUp]
    split <;> omega
  tos_lt _ := hid

theorem view_restore (hid : idx < n) (hfl : r.usedEntries < n) (hto : r.tos = decrTos n idx)
    (x : PCState) : (r.restore idx x).view = (idx, x :: r.live) := by
  have hcn : r.countUp = r.usedEntries + 1 := by
    unfold countUp
    rw [if_pos]
    rw [numEntries, h.length]
    exact hfl.ne
  have hli : (r.restore idx x).live = x :: r.live := by
    unfold live
    simp only [restore, hcn, numEntries, length_set, h.length]
    rw [range_succ_eq_map, map_cons, map_map]
    congr 1
    · simp [slot, h.length, hid]
    · refine map_congr_left fun i hi => ?_
      have hi' : i + 1 < n := by
        rw [mem_range] at hi
        omega
      simp only [comp_apply, getD]
      rw [getElem?_set_ne (slot_ne hi').symm, slot_succ hid hi', hto]
  unfold view
  rw [hli]
  rfl

theorem WF.push_eq (x : PCState) : r.push x = r.restore (incrTos n r.tos) x := by
  unfold push ReturnAddrStack.restore
  rw [numEntries, h.length]

theorem WF.push (hfl : r.usedEntries < n) (x : PCState) : (r.push x).WF n := by
  have hid : incrTos n r.tos < n := incrTos_lt (h.tos_lt (by omega))
  rw [h.push_eq]
  exact h.restore hid hfl x

theorem view_push (hfl : r.usedEntries < n) (x : PCState) :
    (r.push x).view = (incrTos n r.tos, x :: r.live) := by
  have hto : r.tos < n := h.tos_lt (by omega)
  rw [h.push_eq]
  exact view_restore h (incrTos_lt hto) hfl (decrTos_incrTos n r.tos).symm x

theorem WF.pop : r.pop.WF n where
  length := h.length
  used_le := by
    have hle := h.used_le
    simp only [ReturnAddrStack.pop]
    split <;> omega
  tos_lt hpo := by
    simp only [ReturnAddrStack.pop, numEntries, h.length]
    exact decrTos_lt (h.tos_lt hpo)

theorem view_pop (hem : 0 < r.usedEntries) :
    r.pop.tos = decrTos n r.tos ∧ r.live = r.top :: r.pop.live := by
  have hto : r.tos < n := h.tos_lt (lt_of_lt_of_le hem h.used_le)
  refine ⟨by simp [pop, numEntries, h.length], ?_⟩
  obtain ⟨used, hus⟩ := Nat.exists_eq_succ_of_ne_zero hem.ne'
  unfold live
  simp only [pop, hus, numEntries, h.length, top]
  rw [range_succ_eq_map, map_cons, map_map]
  congr 1
  refine map_congr_left fun i hi => ?_
  have hi' : i + 1 < n := by
    have hle := h.used_le
    rw [mem_range] at hi
    omega
  simp only [comp_apply, slot_succ hto hi']

theorem pop_of_live {x : PCState} {rest : List PCState} (hl : r.live = x :: rest) :
    r.pop.tos = decrTos n r.tos ∧ r.pop.live = rest := by
  have hem : 0 < r.usedEntries := by
    rw [← length_live r, hl]
    simp
  obtain ⟨hto, hpo⟩ := view_pop h hem
  exact ⟨hto, (cons.inj (hpo.symm.trans hl)).2⟩

end

end ReturnAddrStack

open ReturnAddrStack (decrTos incrTos decrTos_incrTos pop_of_live view_push view_pop view_restore)

/-! ### Records undo their predictions -/

/-- What the stack was before a prediction, and the direction predicted. -/
structure Noted where
  before : ReturnAddrStack
  taken : Bool

namespace PredictorHistory

/-- **Undoing the prediction of `e`** leads from the view `after` to the view `before`. -/
def Undoes (n : Nat) (e : PredictorHistory H) (after before : Nat × List PCState) : Prop :=
  if e.usedRAS then
    before = (e.rasIndex, e.rasTarget :: after.2) ∧ after.1 = ReturnAddrStack.decrTos n before.1
  else if e.wasCall && e.pushedRAS then
    (∃ x, after.2 = x :: before.2) ∧ before.1 = ReturnAddrStack.decrTos n after.1
  else before = after

/-- A record, what was noted of its prediction, and the view after it. -/
structure Agrees (n : Nat) (e : PredictorHistory H) (note : Noted)
    (after : Nat × List PCState) : Prop where
  wf : note.before.WF n
  undoes : e.Undoes n after note.before.view
  used : e.usedRAS → e.wasReturn
  pushed : e.wasReturn → e.pushedRAS = false
  /-- A return predicted taken has recorded the top of the stack. -/
  recorded : e.wasReturn → note.taken → ∃ rest, note.before.view = (e.rasIndex, e.rasTarget :: rest)

/-- The records of `predHist`, youngest first, from the present view backwards. -/
def Chain (n : Nat) :
    Nat × List PCState → List (PredictorHistory H) → List Noted → Prop
  | _, [], [] => True
  | after, e :: hist, note :: noted => e.Agrees n note after ∧ Chain n note.before.view hist noted
  | _, _, _ => False

variable {e : PredictorHistory H} {note : Noted} {r : ReturnAddrStack} {after : Nat × List PCState}

theorem Chain.take {hi' : List (PredictorHistory H)} :
    ∀ {after : Nat × List PCState} {hist : List (PredictorHistory H)} {noted : List Noted},
      Chain n after hist noted → hi' <+: hist → Chain n after hi' (noted.take hi'.length) := by
  induction hi' with
  | nil =>
    intro after hist noted _ _
    trivial
  | cons e hi' ih =>
    rintro after hist noted h ⟨rest, rfl⟩
    cases noted with
    | nil => exact h.elim
    | cons note noted => exact ⟨h.1, ih h.2 (prefix_append _ _)⟩

theorem Chain.eq_nil {hist : List (PredictorHistory H)} (h : Chain n after hist []) :
    hist = [] := by
  cases hist with
  | nil => rfl
  | cons e hist => exact h.elim

/-- **One step of a squash** gives back the stack before the prediction. -/
theorem Agrees.undoRAS (h : e.Agrees n note r.view) (hr : r.WF n) :
    (BPredUnit.undoRAS e r).WF n ∧ (BPredUnit.undoRAS e r).view = note.before.view := by
  have hu := h.undoes
  unfold Undoes at hu
  unfold BPredUnit.undoRAS
  split at hu
  · rename_i hus
    rw [if_pos hus]
    obtain ⟨hb, ht⟩ := hu
    have hid : note.before.tos = e.rasIndex := congrArg Prod.fst hb
    have hl : note.before.live = e.rasTarget :: r.live := congrArg Prod.snd hb
    have hfl : r.usedEntries < n := by
      have hln := congrArg length hl
      have hle := h.wf.used_le
      simp only [length_live, length_cons] at hln
      omega
    have hlt : e.rasIndex < n := hid ▸ h.wf.tos_lt (by omega)
    have ht' : r.tos = decrTos n e.rasIndex := by
      rw [hb] at ht
      exact ht
    exact ⟨hr.restore hlt hfl _, (view_restore hr hlt hfl ht' _).trans hb.symm⟩
  rename_i hus
  rw [if_neg hus]
  split at hu
  · rename_i hp
    rw [if_pos hp]
    obtain ⟨⟨x, hl⟩, ht⟩ := hu
    obtain ⟨ht', hpo⟩ := pop_of_live hr hl
    exact ⟨hr.pop, Prod.ext (ht'.trans ht.symm) hpo⟩
  · rename_i hp
    rw [if_neg hp]
    exact ⟨hr, hu.symm⟩

theorem undoes_of_eq {view : Nat × List PCState} (hus : e.usedRAS = false)
    (hpu : e.pushedRAS = false) : e.Undoes n view view := by
  unfold Undoes
  rw [if_neg (by simp [hus]), if_neg (by simp [hpu])]

theorem undoes_of_used {before : Nat × List PCState} (hus : e.usedRAS)
    (hbe : before = (e.rasIndex, e.rasTarget :: after.2)) (hto : after.1 = decrTos n before.1) :
    e.Undoes n after before := by
  unfold Undoes
  rw [if_pos hus]
  exact ⟨hbe, hto⟩

/-- **A correction** of the front record keeps it undoable, if a return that it pops the
stack for was predicted taken once. -/
theorem Agrees.correctRAS (h : e.Agrees n note r.view) (hr : r.WF n) {taken : Bool}
    (hrc : taken = true → e.wasReturn → note.taken) :
    (BPredUnit.correctRAS taken e r).2.WF n ∧
      (BPredUnit.correctRAS taken e r).1.Agrees n note (BPredUnit.correctRAS taken e r).2.view := by
  obtain ⟨hb, hv⟩ := h.undoRAS hr
  unfold BPredUnit.undoRAS at hb hv
  unfold BPredUnit.correctRAS
  split
  · rename_i hta
    split
    · rename_i he
      rw [and_eq_true, not_eq_true'] at he
      obtain ⟨he, hu⟩ := he
      -- The return was corrected before: the stack is as it was before the prediction.
      rw [if_neg (by simp [hu]), if_neg (by simp [h.pushed he])] at hv
      obtain ⟨rest, hre⟩ := h.recorded he (hrc hta he)
      have hli : r.live = e.rasTarget :: rest := congrArg Prod.snd (hv.trans hre)
      obtain ⟨hto, hpo⟩ := pop_of_live hr hli
      refine ⟨hr.pop, h.wf, ?_, fun _ => he, h.pushed, h.recorded⟩
      refine undoes_of_used rfl ?_ ?_
      · rw [hre, ← hpo]
        rfl
      · rw [← hv]
        exact hto
    · exact ⟨hr, h⟩
  split
  · rename_i hu
    rw [if_pos hu] at hb hv
    refine ⟨hb, h.wf, ?_, nofun, h.pushed, h.recorded⟩
    rw [hv]
    exact undoes_of_eq rfl (h.pushed (h.used hu))
  rename_i hu
  split
  · rename_i hpu
    rw [if_neg hu, if_pos hpu] at hb hv
    refine ⟨hb, h.wf, ?_, h.used, fun _ => rfl, h.recorded⟩
    rw [hv]
    exact undoes_of_eq (by simpa using hu) rfl
  · exact ⟨hr, h⟩

end PredictorHistory

/-! ### What a prediction does to the stack -/

namespace Predicting

variable {p : Prediction} {r : Predicting T H} {d : DirectionPredictor T H}

/-- **What a call or another branch has done to the stack**: a call has pushed its address,
and has taken it off again if it is conditional and found no target. -/
structure Settled (p : Prediction) (ras : ReturnAddrStack) (r : Predicting T H) : Prop where
  used : r.record.usedRAS = false
  wasReturn : r.record.wasReturn = false
  stack : (r.record.pushedRAS = false ∧ r.ras = ras) ∨
    (p.inst.isCall ∧ r.record.pushedRAS = false ∧ r.ras = (ras.push p.pc).pop) ∨
    (p.inst.isCall ∧ r.record.wasCall ∧ r.record.pushedRAS ∧ r.ras = ras.push p.pc)

/-- The same, before a target is looked for. -/
def Pushed (p : Prediction) (ras : ReturnAddrStack) (r : Predicting T H) : Prop :=
  r.record.usedRAS = false ∧ r.record.wasReturn = false ∧
    if p.inst.isCall then
      r.record.wasCall ∧ r.record.pushedRAS ∧ r.ras = ras.push p.pc
    else r.record.pushedRAS = false ∧ r.ras = ras

variable {ras : ReturnAddrStack}

theorem pushed_pushRAS (hus : r.record.usedRAS = false) (hr : r.record.wasReturn = false)
    (hpu : r.record.pushedRAS = false) : (r.pushRAS p).Pushed p r.ras := by
  unfold pushRAS Pushed
  split
  · exact ⟨hus, hr, rfl, rfl, rfl⟩
  · exact ⟨hus, hr, hpu, rfl⟩

section

variable (h : r.Pushed p ras)
include h

theorem Pushed.settled : r.Settled p ras := by
  obtain ⟨hus, hre, hst⟩ := h
  refine ⟨hus, hre, ?_⟩
  split at hst
  · rename_i hca
    exact .inr (.inr ⟨hca, hst⟩)
  · exact .inl hst

theorem Pushed.popCall : (r.popCall p).Settled p ras := by
  unfold Predicting.popCall
  split
  · rename_i hc
    rw [and_eq_true] at hc
    obtain ⟨hus, hre, hst⟩ := h
    rw [if_pos hc.1] at hst
    exact ⟨hus, hre, .inr (.inl ⟨hc.1, rfl, congrArg pop hst.2.2⟩)⟩
  · exact h.settled

theorem Pushed.lookupBTB (d : DirectionPredictor T H) : (r.lookupBTB d p).Settled p ras := by
  unfold Predicting.lookupBTB
  split
  · exact ⟨h.settled.used, h.settled.wasReturn, h.settled.stack⟩
  unfold missBTB
  split
  · exact ⟨h.settled.used, h.settled.wasReturn, h.settled.stack⟩
  · have hp := Pushed.popCall (r := { r with
      predTaken := false, record := { r.record with predTaken := false, wasBTBMiss := true } }) h
    exact ⟨hp.used, hp.wasReturn, hp.stack⟩

theorem Pushed.lookupIndirect : (r.lookupIndirect p).Settled p ras := by
  unfold Predicting.lookupIndirect
  split
  · exact ⟨h.settled.used, h.settled.wasReturn, h.settled.stack⟩
  · have hp := Pushed.popCall (r := { r with
      predTaken := false
      record := { r.record with wasIndirect := true, predTaken := false } }) h
    exact ⟨hp.used, hp.wasReturn, hp.stack⟩

end

end Predicting

namespace BPredUnit

variable {d : DirectionPredictor T H} {iPred : Bool} {u u' : BPredUnit T H} {p : Prediction}

/-- **The stack has room**: a return that pops it does not find it empty, a call that pushes
does not find it full. -/
def HasRoom (d : DirectionPredictor T H) (u : BPredUnit T H) (p : Prediction) : Prop :=
  (u.predictDirection d p).predTaken →
    if p.inst.isReturn then u.ras.empty = false else p.inst.isCall → u.ras.full = false

instance (d : DirectionPredictor T H) (u : BPredUnit T H) (p : Prediction) :
    Decidable (HasRoom d u p) :=
  inferInstanceAs (Decidable (_ → ite _ _ _))

theorem agrees_of_settled {r : Predicting T H} {taken : Bool} {target : Addr} (hu : u.ras.WF n)
    (hf : p.inst.isCall → u.ras.usedEntries < n) (h : r.Settled p u.ras) :
    r.ras.WF n ∧ ({ r.record with target := target }).Agrees n ⟨u.ras, taken⟩ r.ras.view := by
  have hre : r.record.wasReturn → taken = true →
      ∃ rest, u.ras.view = (r.record.rasIndex, r.record.rasTarget :: rest) := by
    rw [h.wasReturn]
    exact nofun
  have hn : r.record.usedRAS → r.record.wasReturn := by
    rw [h.used]
    exact nofun
  have hnt : r.record.wasReturn → r.record.pushedRAS = false := by
    rw [h.wasReturn]
    exact nofun
  rcases h.stack with ⟨hp, hr⟩ | ⟨hc, hp, hr⟩ | ⟨hc, hwa, hp, hr⟩
  · rw [hr]
    exact ⟨hu, hu, undoes_of_eq h.used hp, hn, hnt, hre⟩
  · have hps := hu.push (hf hc) p.pc
    have hv := view_push hu (hf hc) p.pc
    have hli : (u.ras.push p.pc).live = p.pc :: u.ras.live := congrArg Prod.snd hv
    obtain ⟨hto, hpo⟩ := pop_of_live hps hli
    have hsa : (u.ras.push p.pc).pop.view = u.ras.view := by
      refine Prod.ext ?_ hpo
      have htp : (u.ras.push p.pc).tos = incrTos n u.ras.tos := congrArg Prod.fst hv
      exact hto.trans (by rw [htp, decrTos_incrTos]; rfl)
    rw [hr]
    refine ⟨hps.pop, hu, ?_, hn, hnt, hre⟩
    rw [hsa]
    exact undoes_of_eq h.used hp
  · have hv := view_push hu (hf hc) p.pc
    rw [hr]
    refine ⟨hu.push (hf hc) p.pc, hu, ?_, hn, hnt, hre⟩
    unfold PredictorHistory.Undoes
    rw [if_neg (by simp [h.used]), if_pos (by simp [hwa, hp]), hv]
    exact ⟨⟨p.pc, rfl⟩, (decrTos_incrTos n u.ras.tos).symm⟩

/-- **The record of a prediction undoes it.** -/
theorem agrees_predict (iPred : Bool) (hu : u.ras.WF n) (hr : u.HasRoom d p) :
    (u.predict d iPred p).2.2.ras.WF n ∧
    ∃ e, (u.predict d iPred p).2.2.predHist = e :: u.predHist ∧
      e.Agrees n ⟨u.ras, (u.predictDirection d p).predTaken⟩ (u.predict d iPred p).2.2.ras.view := by
  suffices h : (u.predicting d iPred p).ras.WF n ∧
      ({ (u.predicting d iPred p).record with
          target := (u.predicting d iPred p).target.pc }).Agrees n
        ⟨u.ras, (u.predictDirection d p).predTaken⟩ (u.predicting d iPred p).ras.view by
    exact ⟨h.1, _, rfl, h.2⟩
  unfold predicting
  simp only
  split
  · rename_i ht
    have hr' := hr ht
    unfold Predicting.lookupTarget
    split
    · rename_i hre
      rw [if_pos hre] at hr'
      have hem : 0 < u.ras.usedEntries := by
        simpa [empty, Nat.pos_iff_ne_zero] using hr'
      obtain ⟨hto, hpo⟩ := view_pop hu hem
      have hb : u.ras.view = (u.ras.topIdx, u.ras.top :: u.ras.pop.live) := by
        unfold view
        rw [hpo]
        rfl
      exact ⟨hu.pop, hu, undoes_of_used rfl hb hto, fun _ => rfl, fun _ => rfl, fun _ _ => ⟨_, hb⟩⟩
    · rename_i hre
      rw [if_neg hre] at hr'
      have hfl : p.inst.isCall → u.ras.usedEntries < n := by
        intro hca
        have hn : u.ras.usedEntries ≠ n := by
          simpa [full, numEntries, hu.length] using hr' hca
        exact lt_of_le_of_ne hu.used_le hn
      have hp : ((u.predictDirection d p).pushRAS p).Pushed p u.ras :=
        Predicting.pushed_pushRAS rfl rfl rfl
      split
      · exact agrees_of_settled hu hfl (hp.lookupBTB d)
      · exact agrees_of_settled hu hfl hp.lookupIndirect
  · rename_i ht
    refine ⟨hu, hu, undoes_of_eq rfl rfl, nofun, fun _ => rfl, fun _ hfa => absurd hfa ht⟩

/-! ### Whole squashes -/

def squashedOf (sn : Nat) (hist : List (PredictorHistory H)) : Nat :=
  (hist.takeWhile fun e => sn < e.seqNum).length

variable {hist : List (PredictorHistory H)} {e : PredictorHistory H} {sn : Nat} {noted : List Noted}

theorem squashedOf_cons_of_lt (he : sn < e.seqNum) :
    squashedOf sn (e :: hist) = squashedOf sn hist + 1 := by
  unfold squashedOf
  rw [takeWhile_cons_of_pos (by simpa using he), length_cons]

theorem squashedOf_cons_of_not_lt (he : ¬ sn < e.seqNum) : squashedOf sn (e :: hist) = 0 := by
  unfold squashedOf
  rw [takeWhile_cons_of_neg (by simpa using he), length_nil]

theorem chain_squashLoop (sn : Nat) :
    ∀ {hist : List (PredictorHistory H)} {noted : List Noted} {u : BPredUnit T H},
      u.ras.WF n → PredictorHistory.Chain n u.ras.view hist noted →
      (squashLoop d sn hist u).ras.WF n ∧
      PredictorHistory.Chain n (squashLoop d sn hist u).ras.view (squashLoop d sn hist u).predHist
        (noted.drop (squashedOf sn hist)) ∧
      (squashedOf sn hist = 0 → (squashLoop d sn hist u).ras = u.ras) ∧
      ∀ note ∈ (noted.take (squashedOf sn hist)).getLast?,
        (squashLoop d sn hist u).ras.view = note.before.view := by
  intro hist
  induction hist with
  | nil =>
    intro noted u hu hc
    exact ⟨hu, hc, fun _ => rfl, fun _ h => absurd h (Option.not_mem_none _)⟩
  | cons e hist ih =>
    intro noted u hu hc
    cases noted with
    | nil => exact hc.elim
    | cons note noted =>
      obtain ⟨hag, hc⟩ := hc
      unfold squashLoop
      by_cases he : sn < e.seqNum
      · obtain ⟨hwf, hv⟩ := hag.undoRAS hu
        rw [if_pos he, squashedOf_cons_of_lt he]
        obtain ⟨hwf', hc', hz, hl⟩ := ih (u := { u with
          ras := undoRAS e u.ras, direction := d.squash u.direction e.bpHistory }) hwf
          (hv ▸ hc)
        refine ⟨hwf', hc', fun h => absurd h (Nat.succ_ne_zero _), fun oldest ho => ?_⟩
        rw [take_succ_cons, getLast?_cons, Option.mem_some_iff] at ho
        cases hr : (noted.take (squashedOf sn hist)).getLast? with
        | some x =>
          rw [hr] at ho
          exact ho ▸ hl x hr
        | none =>
          -- Nothing older goes: what this record gave back stays.
          rw [hr] at ho
          have hn : squashedOf sn hist = 0 := by
            rw [getLast?_eq_none_iff, take_eq_nil_iff] at hr
            rcases hr with hk | rfl
            · exact hk
            · rw [hc.eq_nil]
              rfl
          rw [hz hn, ← show note = oldest from ho]
          exact hv
      · rw [if_neg he, squashedOf_cons_of_not_lt he]
        exact ⟨hu, ⟨hag, hc⟩, fun _ => rfl, fun _ h => absurd h (Option.not_mem_none _)⟩

theorem restoreDirection_ras (u : BPredUnit T H) : (u.restoreDirection d).ras = u.ras := by
  unfold restoreDirection
  split
  · rfl
  · rfl
  · rfl

theorem restoreDirection_predHist_nil (h : u.predHist = []) :
    (u.restoreDirection d).predHist = [] := by
  unfold restoreDirection
  rw [h]
  split
  · contradiction
  · rfl
  · exact h

theorem restoreDirection_predHist_cons (h : u.predHist = e :: hist) :
    ∃ bpHistory, (u.restoreDirection d).predHist = { e with bpHistory := bpHistory } :: hist := by
  unfold restoreDirection
  rw [h]
  exact ⟨_, rfl⟩

theorem chain_restoreDirection (h : PredictorHistory.Chain n u.ras.view u.predHist noted) :
    PredictorHistory.Chain n (u.restoreDirection d).ras.view (u.restoreDirection d).predHist
      noted := by
  rw [restoreDirection_ras]
  cases hp : u.predHist with
  | nil =>
    rw [restoreDirection_predHist_nil hp]
    rw [hp] at h
    exact h
  | cons e hist =>
    obtain ⟨bpHistory, hre⟩ := restoreDirection_predHist_cons hp
    rw [hp] at h
    rw [hre]
    cases noted with
    | nil => exact h.elim
    | cons note noted =>
      obtain ⟨⟨hwf, hun, hus, hpu, hrc⟩, hch⟩ := h
      exact ⟨⟨hwf, hun, hus, hpu, hrc⟩, hch⟩

theorem squashLoop_predHist_drop (sn : Nat) (u : BPredUnit T H) :
    (squashLoop d sn u.predHist u).predHist = u.predHist.drop (squashedOf sn u.predHist) := by
  rw [squashLoop_predHist]
  exact ((congrArg (drop _) takeWhile_append_dropWhile.symm).trans (drop_left' rfl)).symm

theorem update_predHist_initial (u : BPredUnit T H) (doneSn : Nat) :
    (u.update d doneSn).predHist <+: u.predHist := by
  unfold update
  rw [updateLoop_predHist]
  have hsu := dropWhile_suffix (l := u.predHist.reverse) fun e => decide (e.seqNum ≤ doneSn)
  simpa using reverse_prefix.mpr hsu

theorem squash_predHist_cons (h : (u.squash d sn).predHist = e :: hist) :
    ∃ e₀, u.predHist.drop (squashedOf sn u.predHist) = e₀ :: hist ∧
      e = { e₀ with bpHistory := e.bpHistory } := by
  rw [← squashLoop_predHist_drop]
  cases hpr : (squashLoop d sn u.predHist u).predHist with
  | nil => exact (nomatch (restoreDirection_predHist_nil hpr).symm.trans h)
  | cons e₀ hist₀ =>
    obtain ⟨bpHistory, hre⟩ := restoreDirection_predHist_cons hpr
    obtain ⟨rfl, rfl⟩ := cons.inj (hre.symm.trans h)
    exact ⟨e₀, rfl, rfl⟩

/-- **A squash gives back the stack** before the oldest record it takes off. -/
theorem chain_squash (sn : Nat) (hu : u.ras.WF n)
    (h : PredictorHistory.Chain n u.ras.view u.predHist noted) :
    (u.squash d sn).ras.WF n ∧
    PredictorHistory.Chain n (u.squash d sn).ras.view (u.squash d sn).predHist
      (noted.drop (squashedOf sn u.predHist)) ∧
    (squashedOf sn u.predHist = 0 → (u.squash d sn).ras = u.ras) ∧
    ∀ note ∈ (noted.take (squashedOf sn u.predHist)).getLast?,
      (u.squash d sn).ras.view = note.before.view := by
  obtain ⟨hwf, hch, hz, hl⟩ := chain_squashLoop sn hu h
  unfold squash
  refine ⟨?_, chain_restoreDirection hch, ?_, ?_⟩
  · rw [restoreDirection_ras]
    exact hwf
  · rw [restoreDirection_ras]
    exact hz
  · rw [restoreDirection_ras]
    exact hl

end BPredUnit

/-! ### Runs -/

/-- The unit, with what is noted of every prediction in `predHist`. -/
structure PredRun (T H : Type) where
  unit : BPredUnit T H
  noted : List Noted

inductive PredCall
  | predict (p : Prediction)
  | squash (squashedSn : Nat)
  | correct (squashedSn : Nat) (corrTarget : Addr) (actuallyTaken : Bool)
  | update (doneSn : Nat)

namespace PredRun

variable {d : DirectionPredictor T H} {iPred : Bool} {s s' : PredRun T H}

variable (d)

def step (iPred : Bool) (s : PredRun T H) :
    PredCall → Except BPredFault (PredRun T H)
  | .predict p => .ok
    { unit := (s.unit.predict d iPred p).2.2
      noted := ⟨s.unit.ras, (s.unit.predictDirection d p).predTaken⟩ :: s.noted }
  | .squash sn => .ok
    { unit := s.unit.squash d sn, noted := s.noted.drop (BPredUnit.squashedOf sn s.unit.predHist) }
  | .correct sn corrTarget taken =>
    (fun unit =>
      { unit := unit, noted := s.noted.drop (BPredUnit.squashedOf sn s.unit.predHist) }) <$>
      s.unit.correct d sn corrTarget taken
  | .update doneSn => .ok
    { unit := s.unit.update d doneSn
      noted := s.noted.take (s.unit.update d doneSn).predHist.length }

/-- The record a correction finds, with what was noted of its prediction. -/
def corrected (s : PredRun T H) (sn : Nat) : Option (PredictorHistory H × Noted) :=
  ((s.unit.predHist.zip s.noted).drop (BPredUnit.squashedOf sn s.unit.predHist)).head?

/-- **No live entry too many or too few**: the calls that would overflow the stack, or pop
it empty, do not come. -/
def pre (s : PredRun T H) : PredCall → Prop
  | .predict p => s.unit.HasRoom d p
  | .correct sn _ taken =>
    taken = true → ∀ r ∈ s.corrected sn, r.1.wasReturn → r.1.usedRAS = false →
      (s.unit.squash d sn).ras.empty = false
  | _ => True

/-- A stack of `n` entries, and nothing predicted. -/
abbrev system (iPred : Bool) (n : Nat) : System (PredRun T H) PredCall BPredFault where
  init s := ∃ t, s = ⟨.start t n, []⟩
  step := step d iPred
  pre := pre d

variable {d}

def ReturnsPredicted (s : PredRun T H) : PredCall → Prop
  | .correct sn _ taken =>
    taken = true → ∀ r ∈ s.corrected sn, r.1.wasReturn → r.2.taken
  | _ => True

/-- **The invariant**: the records lead back through the stacks noted. -/
structure RasInv (n : Nat) (s : PredRun T H) : Prop where
  wf : s.unit.ras.WF n
  chain : PredictorHistory.Chain n s.unit.ras.view s.unit.predHist s.noted

theorem RasInv.predict (h : s.RasInv n) {p : Prediction} (hro : s.unit.HasRoom d p)
    (hok : s.step d iPred (.predict p) = .ok s') : s'.RasInv n := by
  cases hok
  obtain ⟨hwf, e, hpr, hag⟩ := agrees_predict iPred h.wf hro
  refine ⟨hwf, ?_⟩
  rw [hpr]
  exact ⟨hag, h.chain⟩

theorem RasInv.correct (h : s.RasInv n) {sn : Nat} {corrTarget : Addr} {taken : Bool}
    (hrt : s.ReturnsPredicted (.correct sn corrTarget taken))
    (hok : s.step d iPred (.correct sn corrTarget taken) = .ok s') : s'.RasInv n := by
  obtain ⟨u', hu', rfl⟩ := map_eq_ok.mp hok
  obtain ⟨hw, hc, -, -⟩ := chain_squash sn h.wf h.chain
  rcases correct_eq_ok hu' with ⟨-, rfl⟩ | ⟨e, hist, bpHistory, direction, hpr, -, -, rfl⟩
  · exact ⟨hw, hc⟩
  obtain ⟨e₀, hf, he⟩ := squash_predHist_cons hpr
  rw [hpr] at hc
  cases hn : s.noted.drop (squashedOf sn s.unit.predHist) with
  | nil =>
    rw [hn] at hc
    exact hc.elim
  | cons note noted =>
    rw [hn] at hc
    obtain ⟨ha, hc⟩ := hc
    have hco : s.corrected sn = some (e₀, note) := by
      unfold corrected
      rw [zip, drop_zipWith, hf, hn]
      rfl
    have hre : taken = true → e.wasReturn → note.taken := by
      intro hta hr
      refine hrt hta (e₀, note) hco ?_
      rw [he] at hr
      exact hr
    obtain ⟨hw', ha'⟩ := PredictorHistory.Agrees.correctRAS (e := { e with
      predTaken := taken, target := corrTarget, bpHistory := bpHistory })
      ⟨ha.wf, ha.undoes, ha.used, ha.pushed, ha.recorded⟩ hw hre
    exact ⟨hw', ha', hc⟩

theorem updateLoop_ras (doneSn : Nat) (hist : List (PredictorHistory H)) (u : BPredUnit T H) :
    (BPredUnit.updateLoop d doneSn hist u).ras = u.ras := by
  induction hist generalizing u with
  | nil => rfl
  | cons e hist ih =>
    unfold updateLoop
    split
    · exact ih _
    · rfl

/-- A commit takes records off the back, which leaves the others as they were. -/
theorem RasInv.update (h : s.RasInv n) {doneSn : Nat}
    (hok : s.step d iPred (.update doneSn) = .ok s') : s'.RasInv n := by
  cases hok
  have hr : (s.unit.update d doneSn).ras = s.unit.ras := updateLoop_ras doneSn _ _
  refine ⟨hr ▸ h.wf, ?_⟩
  rw [hr]
  exact h.chain.take (update_predHist_initial s.unit doneSn)

theorem RasInv.step (h : s.RasInv n) {a : PredCall} (hpr : s.pre d a)
    (hre : s.ReturnsPredicted a) (ho : s.step d iPred a = .ok s') : s'.RasInv n := by
  cases a with
  | predict p => exact h.predict hpr ho
  | squash sn =>
    cases ho
    obtain ⟨hwf, hch, -, -⟩ := chain_squash sn h.wf h.chain
    exact ⟨hwf, hch⟩
  | correct sn corrTarget taken => exact h.correct hre ho
  | update doneSn => exact h.update ho

end PredRun

/-- **A squash leaves the stack as it was before the first squashed prediction**: the same
top, and the same live entries. A squash that takes nothing off leaves the stack alone. -/
theorem ras_restored_of_returnsPredicted {d : DirectionPredictor T H} {iPred : Bool}
    {s : PredRun T H}
    (h : ((PredRun.system d iPred n).restrict PredRun.ReturnsPredicted).Reachable s)
    (squashedSn : Nat) :
    (∀ note ∈ (s.noted.take (BPredUnit.squashedOf squashedSn s.unit.predHist)).getLast?,
      (s.unit.squash d squashedSn).ras.tos = note.before.tos ∧
      (s.unit.squash d squashedSn).ras.live = note.before.live) ∧
    (BPredUnit.squashedOf squashedSn s.unit.predHist = 0 →
      (s.unit.squash d squashedSn).ras = s.unit.ras) := by
  have hin : s.RasInv n := by
    refine h.invariant (fun s => s.RasInv n) ?_ ?_
    · rintro s ⟨t, rfl⟩
      exact ⟨wf_init n, trivial⟩
    · rintro s a s' hs ⟨hpr, hre⟩ hok
      exact hs.step hpr hre hok
  obtain ⟨-, -, hz, hl⟩ := chain_squash squashedSn hin.wf hin.chain
  refine ⟨fun note hno => ?_, hz⟩
  have hv := hl note hno
  exact ⟨congrArg Prod.fst hv, congrArg Prod.snd hv⟩

instance (d : DirectionPredictor T H) (s : PredRun T H) : DecidablePred (s.pre d) := fun a => by
  cases a <;> dsimp only [PredRun.pre] <;> infer_instance

instance (s : PredRun T H) : DecidablePred s.ReturnsPredicted := fun a => by
  cases a <;> dsimp only [PredRun.ReturnsPredicted] <;> infer_instance

/-- A call pushes, a return pops, and the squash of the return gives the entry back. -/
theorem ras_restored_callReturn :
    ∃ s : PredRun Unit Unit,
      ((PredRun.system neverTaken false 4).restrict PredRun.ReturnsPredicted).Reachable s ∧
      s.unit.ras.live = [] ∧ (s.unit.squash neverTaken 1).ras.live = [.ofAddr 0x100#64] := by
  have hst : ((PredRun.system neverTaken false 4).restrict PredRun.ReturnsPredicted).Reachable
      ⟨.start () 4, []⟩ := .start ⟨(), rfl⟩
  obtain ⟨s, hs, hem, hsq, hn⟩ := hst.exists_of_leads (p := fun s =>
      s.unit.ras.live = [] ∧ squashedOf 1 s.unit.predHist = 1 ∧
      (s.noted.map (·.before.live)).head? = some [.ofAddr 0x100#64])
    [.predict (.plain 1 0x100#64 true true false), .predict (.plain 2 0x200#64 true false true)]
    (by decide +kernel)
  refine ⟨s, hs, hem, ?_⟩
  have hr := (ras_restored_of_returnsPredicted hs 1).1
  cases hl : s.noted with
  | nil =>
    rw [hl] at hn
    exact (nomatch hn)
  | cons note noted =>
    rw [hl] at hn hr
    rw [hsq] at hr
    exact (hr note rfl).2.trans (Option.some.inj hn)

/-- **A return predicted not taken loses the stack**: it is corrected to taken, which pops the
stack, and squashed by an older branch, which puts the record's initial values back. -/
theorem not_ras_restored_returnNotTaken :
    ∃ s : PredRun Unit Unit, (PredRun.system neverTaken false 4).Reachable s ∧
      ∃ note ∈ (s.noted.take (BPredUnit.squashedOf 2 s.unit.predHist)).getLast?,
        note.before.tos = 1 ∧ note.before.live = [.ofAddr 0x100#64] ∧
        (s.unit.squash neverTaken 2).ras.tos = 0 ∧
        (s.unit.squash neverTaken 2).ras.live = [.zero] := by
  exact System.Reachable.exists_of_leads
    [.predict (.plain 1 0x100#64 true true false), .predict (.plain 2 0x200#64 false false false),
      .predict (.plain 3 0x300#64 false false true), .correct 3 0x104#64 true]
    (.start ⟨(), rfl⟩) (by decide +kernel)

end Gem5.Cpu.Pred
