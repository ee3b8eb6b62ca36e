import Gem5.Lib.Ranked
import Gem5.Mem.Cache.Queue

/-!
# Gem5.Mem.Cache.QueueSound

**The lists and counters of a queue agree** (`Queue.WellFormed`), in every run of calls that violate
no assertion: each operation moves one entry between the lists.

The **order of the ready list** is another matter. `addToReadyList` inserts at the right place, but
a pending entry whose `readyTime` changes stays where it is. `MSHRQueue::delay` means to move it and
does not: its search starts at the entry itself and stops there (`delay_readyList`).
`forceDeallocateTarget` does not try when it promotes deferred targets. The order survives where the
new time fits the entry's place in the list (`Queue.Fits`).
-/

namespace Gem5.Mem

open Gem5.Lib OrderDual List Mshr MshrQueue Queue List.Nodup

/-! ### Lists -/

section Lists

variable {α : Type} {a : α} {l l' : List α}

theorem eraseIter_eq_ok {ε : Type} [DecidableEq α] :
    (eraseIter l a : Except (QueueFault ε) (List α)) = .ok l' ↔ a ∈ l ∧ l' = l.erase a := by
  unfold eraseIter
  split <;> simp_all [eq_comm]

theorem insertBefore_eq_enter {ρ : Type*} [LinearOrder ρ] (rank : α → ρ)
    (h : insertBefore (fun b => rank b < rank a) a l = some l') : l' = enter rank a l := by
  induction l generalizing l' with
  | nil => cases h
  | cons b l ih =>
    rw [insertBefore] at h
    by_cases hb : rank b < rank a
    · rw [if_pos (by simpa using hb)] at h
      rw [← Option.some.inj h]
      simp [enter, hb]
    · rw [if_neg (by simpa using hb)] at h
      obtain ⟨r, hr, rfl⟩ := Option.map_eq_some_iff.mp h
      rw [ih hr]
      simp [enter, hb]

end Lists

namespace Queue

variable {E ε : Type} [QueueEntry E ε] {n : Nat} {q q' : Queue E n} {i j : Fin n} {e : E}
  {l : List (Fin n)}

/-! ### One entry changes -/

@[simp] theorem setEntry_self (q : Queue E n) (i : Fin n) (e : E) :
    (q.setEntry i e).entries i = e := by
  simp [setEntry]

theorem setEntry_of_ne (q : Queue E n) (e : E) (h : j ≠ i) :
    (q.setEntry i e).entries j = q.entries j := by
  simp [setEntry, h]

@[simp] theorem setEntry_allocatedList (q : Queue E n) (i : Fin n) (e : E) :
    (q.setEntry i e).allocatedList = q.allocatedList := rfl

@[simp] theorem setEntry_readyList (q : Queue E n) (i : Fin n) (e : E) :
    (q.setEntry i e).readyList = q.readyList := rfl

theorem filter_setEntry (p : E → Bool) (h : i ∉ l) :
    l.filter (fun j => p ((q.setEntry i e).entries j)) = l.filter fun j => p (q.entries j) := by
  refine filter_congr fun j hj => ?_
  rw [setEntry_of_ne q e (ne_of_mem_of_not_mem hj h)]

/-! ### The lists and the counters -/

/-- The entries in use that were not sent. -/
def pending (q : Queue E n) : List (Fin n) := q.allocatedList.filter fun i => !q.inService i

def sent (q : Queue E n) : List (Fin n) := q.allocatedList.filter fun i => q.inService i

/-- **The lists and counters agree.** -/
structure WellFormed (q : Queue E n) : Prop where
  /-- Every entry is in use or free, and on one list once. -/
  partition : (q.allocatedList ++ q.freeList).Perm (List.finRange n)
  allocated_eq : q.allocated = q.allocatedList.length
  inService_eq : q.numInService = q.sent.length
  ready : q.readyList.Perm q.pending

theorem wellFormed_init (n numReserve : Nat) (entry : E) :
    (init n numReserve entry).WellFormed where
  partition := .refl _
  allocated_eq := rfl
  inService_eq := rfl
  ready := .refl _

namespace WellFormed

section

variable (h : q.WellFormed)
include h

theorem nodup : q.allocatedList.Nodup :=
  (nodup_append.mp (h.partition.nodup_iff.mpr (nodup_finRange n))).1

theorem mem_readyList : i ∈ q.readyList ↔ i ∈ q.allocatedList ∧ q.inService i = false := by
  simp [h.ready.mem_iff, pending]

theorem nodup_readyList : q.readyList.Nodup :=
  h.ready.nodup_iff.mpr (h.nodup.filter _)

theorem setEntry (hsa : QueueEntry.inService e = q.inService i) : (q.setEntry i e).WellFormed := by
  have hsr : ∀ j, (q.setEntry i e).inService j = q.inService j := by
    intro j
    rcases eq_or_ne j i with rfl | hn
    · simpa [inService] using hsa
    · simp [inService, setEntry_of_ne q e hn]
  refine ⟨h.partition, h.allocated_eq, ?_, ?_⟩
  · show q.numInService = ((q.setEntry i e).sent).length
    simpa [sent, hsr] using h.inService_eq
  · simpa [pending, hsr] using h.ready

end

end WellFormed

theorem filter_perm_cons {p p' : Fin n → Bool} (hl : l.Nodup) (hi : i ∈ l) (hp : p i = true)
    (hp' : p' i = false) (hsa : ∀ j, j ≠ i → p' j = p j) :
    (l.filter p).Perm (i :: l.filter p') := by
  have hr : (l.erase i).filter p' = (l.erase i).filter p := by
    refine filter_congr fun j hj => hsa j ?_
    rintro rfl
    exact absurd hj (not_mem_erase hl)
  have hpe := perm_cons_erase hi
  have h₁ : (l.filter p).Perm (i :: (l.erase i).filter p) := by
    simpa [hp] using hpe.filter p
  have h₂ : (l.filter p').Perm ((l.erase i).filter p') := by
    simpa [hp'] using hpe.filter p'
  exact h₁.trans (.cons i (hr ▸ h₂.symm))

/-! ### The ready list -/

theorem addToReadyList_cases (h : q.addToReadyList i = .ok l) :
    (l = q.readyList ++ [i] ∧ ∀ back ∈ q.readyList.getLast?, q.readyTime back ≤ q.readyTime i) ∨
      l = enter (fun j => toDual (q.readyTime j)) i q.readyList := by
  unfold addToReadyList at h
  split at h
  · rename_i hl
    exact .inl ⟨eq_of_ok h, by simp [hl]⟩
  · rename_i back hl
    split at h
    · rename_i hle
      exact .inl ⟨eq_of_ok h, by simpa [hl] using hle⟩
    · split at h
      · cases h
      · rename_i l' hin
        rw [eq_of_ok h]
        exact .inr (insertBefore_eq_enter (fun j => toDual (q.readyTime j)) hin)

theorem addToReadyList_perm (h : q.addToReadyList i = .ok l) : l.Perm (i :: q.readyList) := by
  rcases addToReadyList_cases h with ⟨rfl, -⟩ | rfl
  · exact perm_append_singleton i q.readyList
  · exact enter_perm

/-- The entries become ready in the order of the ready list. -/
def Sorted (q : Queue E n) : Prop := q.readyList.Pairwise fun i j => q.readyTime i ≤ q.readyTime j

instance (q : Queue E n) : Decidable q.Sorted := inferInstanceAs (Decidable (List.Pairwise _ _))

theorem Sorted.addToReadyList (h : q.Sorted) (had : q.addToReadyList i = .ok l) :
    l.Pairwise fun i j => q.readyTime i ≤ q.readyTime j := by
  have hr : Ranked (fun j => toDual (q.readyTime j)) q.readyList := h
  rcases addToReadyList_cases had with ⟨rfl, hl⟩ | rfl
  · exact hr.concat hl
  · exact hr.enter

/-- **The first entry is ready when any is.** -/
theorem Sorted.getNext (h : q.Sorted) {curTick : Nat} (hi : i ∈ q.readyList)
    (hrea : q.readyTime i ≤ curTick) : (q.getNext curTick).isSome := by
  unfold Queue.getNext
  split
  · rename_i hni
    simp [hni] at hi
  · rename_i front rest hl
    have hfro : q.readyTime front ≤ q.readyTime i := by
      rw [Sorted, hl] at h
      rw [hl] at hi
      rcases mem_cons.mp hi with rfl | hi
      · exact le_rfl
      · exact (pairwise_cons.mp h).1 i hi
    rw [if_neg (by omega)]
    rfl

/-- The entries in front of `i` on the ready list, and those behind it. -/
def before (q : Queue E n) (i : Fin n) : List (Fin n) := q.readyList.takeWhile (· ≠ i)

@[inherit_doc before]
def behind (q : Queue E n) (i : Fin n) : List (Fin n) := (q.readyList.dropWhile (· ≠ i)).tail

theorem dropWhile_ne_of_mem (h : i ∈ l) :
    l.dropWhile (· ≠ i) = i :: (l.dropWhile (· ≠ i)).tail := by
  induction l with
  | nil => simp at h
  | cons j l ih =>
    by_cases hj : j = i
    · simp [hj]
    · have hr : i ∈ l := by simpa [Ne.symm hj] using h
      simpa [hj] using ih hr

theorem readyList_split (h : i ∈ q.readyList) : q.readyList = q.before i ++ i :: q.behind i := by
  rw [before, behind, ← dropWhile_ne_of_mem h, takeWhile_append_dropWhile]

/-- The entry can be ready at `t` and stay where it is. -/
def Fits (q : Queue E n) (i : Fin n) (t : Nat) : Prop :=
  (∀ j ∈ q.before i, q.readyTime j ≤ t) ∧ ∀ j ∈ q.behind i, t ≤ q.readyTime j

instance (q : Queue E n) (i : Fin n) (t : Nat) : Decidable (q.Fits i t) :=
  inferInstanceAs (Decidable (_ ∧ _))

theorem readyTime_setEntry_of_ne (h : j ≠ i) : (q.setEntry i e).readyTime j = q.readyTime j := by
  simp [readyTime, setEntry_of_ne q e h]

theorem Sorted.congr (h : q.Sorted) (hli : q'.readyList.Sublist q.readyList)
    (ht : ∀ j ∈ q'.readyList, q'.readyTime j = q.readyTime j) : q'.Sorted := by
  refine (List.Pairwise.sublist hli h).imp_of_mem fun hi hj hl => ?_
  rw [ht _ hi, ht _ hj]
  exact hl

theorem Sorted.setEntry (h : q.Sorted)
    (hsa : i ∈ q.readyList → QueueEntry.readyTime e = q.readyTime i) :
    (q.setEntry i e).Sorted := by
  refine h.congr (.refl _) fun j hj => ?_
  rcases eq_or_ne j i with rfl | hn
  · rw [readyTime, setEntry_self]
    exact hsa hj
  · exact readyTime_setEntry_of_ne hn

theorem Sorted.setEntry_fits (h : q.Sorted) (hq : q.WellFormed)
    (hfi : i ∈ q.readyList → q.Fits i (QueueEntry.readyTime e)) : (q.setEntry i e).Sorted := by
  by_cases hi : i ∈ q.readyList
  · obtain ⟨hbe, hbh⟩ := hfi hi
    have hsp := readyList_split hi
    have hnd := hq.nodup_readyList
    rw [hsp] at hnd
    obtain ⟨-, hno, hdi⟩ := nodup_append.mp hnd
    have hnt : ∀ j ∈ q.before i, j ≠ i := fun j hj => hdi j hj i (by simp)
    have hn : ∀ j ∈ q.behind i, j ≠ i := by
      rintro j hj rfl
      exact (nodup_cons.mp hno).1 hj
    have hse : (q.setEntry i e).readyTime i = QueueEntry.readyTime e := by simp [readyTime]
    rw [Sorted, hsp] at h
    obtain ⟨hsr, hs, hcr⟩ := pairwise_append.mp h
    have hs := (pairwise_cons.mp hs).2
    show List.Pairwise _ q.readyList
    rw [hsp]
    refine pairwise_append.mpr ⟨?_, pairwise_cons.mpr ⟨fun j hj => ?_, ?_⟩, ?_⟩
    · refine hsr.imp_of_mem fun {a b} ha hb hl => ?_
      rwa [readyTime_setEntry_of_ne (hnt a ha), readyTime_setEntry_of_ne (hnt b hb)]
    · rw [hse, readyTime_setEntry_of_ne (hn j hj)]
      exact hbh j hj
    · refine hs.imp_of_mem fun {a b} ha hb hl => ?_
      rwa [readyTime_setEntry_of_ne (hn a ha), readyTime_setEntry_of_ne (hn b hb)]
    · intro a ha b hb
      rw [readyTime_setEntry_of_ne (hnt a ha)]
      rcases mem_cons.mp hb with rfl | hb
      · rw [hse]
        exact hbe a ha
      · rw [readyTime_setEntry_of_ne (hn b hb)]
        exact hcr a ha b (by simp [hb])
  · exact h.setEntry fun hme => absurd hme hi

/-! ### Allocation -/

variable {fill : E → Except ε E}

theorem allocate_cases (h : q.allocate fill = .ok q') :
    ∃ i free e l, q.freeList = i :: free ∧ fill (q.entries i) = .ok e ∧
      ({ q.setEntry i e with
        freeList := free, allocatedList := q.allocatedList ++ [i] } : Queue E n).addToReadyList i =
          .ok l ∧
      q' = { q.setEntry i e with
        freeList := free
        allocatedList := q.allocatedList ++ [i]
        readyList := l
        allocated := q.allocated + 1 } := by
  unfold allocate at h
  split at h
  · cases h
  · rename_i i free hfr
    split at h
    · cases h
    · split at h
      · cases h
      · rename_i e hfi
        obtain ⟨l, had, hre⟩ := bind_eq_ok.mp h
        exact ⟨i, free, e, l, hfr, hfi, had, eq_of_ok hre⟩

theorem WellFormed.not_mem_of_free (h : q.WellFormed) {free : List (Fin n)}
    (hfr : q.freeList = i :: free) : i ∉ q.allocatedList := by
  intro hme
  have hnd := h.partition.nodup_iff.mpr (nodup_finRange n)
  exact (nodup_append.mp hnd).2.2 i hme i (by simp [hfr]) rfl

theorem WellFormed.allocate (h : q.WellFormed)
    (hid : ∀ e e', fill e = .ok e' → QueueEntry.inService e' = false)
    (hal : q.allocate fill = .ok q') : q'.WellFormed := by
  obtain ⟨i, free, e, l, hfr, hfi, had, rfl⟩ := allocate_cases hal
  have hi := h.not_mem_of_free hfr
  have hsr := hid _ _ hfi
  refine ⟨?_, ?_, ?_, ?_⟩
  · rw [append_assoc, singleton_append, ← hfr]
    exact h.partition
  · simp [h.allocated_eq]
  · show q.numInService = _
    rw [h.inService_eq, sent, sent, filter_append]
    have hn : [i].filter (fun j => QueueEntry.inService ((q.setEntry i e).entries j)) = [] := by
      simp [hsr]
    have hol := filter_setEntry (q := q) (e := e) QueueEntry.inService hi
    simp only [inService, hn, hol, append_nil]
  · refine (addToReadyList_perm had).trans ?_
    rw [pending, filter_append]
    have hn : [i].filter (fun j => !QueueEntry.inService ((q.setEntry i e).entries j)) = [i] := by
      simp [hsr]
    have hol := filter_setEntry (q := q) (e := e) (fun e => !QueueEntry.inService e) hi
    simp only [inService, hn, hol]
    exact (h.ready.cons i).trans (perm_append_singleton i _).symm

theorem Sorted.allocate (h : q.Sorted) (hq : q.WellFormed)
    (hal : q.allocate fill = .ok q') : q'.Sorted := by
  obtain ⟨i, free, e, l, hfr, -, had, rfl⟩ := allocate_cases hal
  have hi : i ∉ q.readyList := fun hm => hq.not_mem_of_free hfr (hq.mem_readyList.mp hm).1
  have hso : (q.setEntry i e).Sorted := h.setEntry fun hm => absurd hm hi
  exact Sorted.addToReadyList (q := { q.setEntry i e with
    freeList := free, allocatedList := q.allocatedList ++ [i] }) hso had

/-! ### Deallocation -/

theorem deallocate_cases (h : q.deallocate i = .ok q') :
    i ∈ q.allocatedList ∧ ∃ e l k, q' = { q.setEntry i e with
        allocatedList := q.allocatedList.erase i
        freeList := i :: q.freeList
        readyList := l
        numInService := k
        allocated := q.allocated - 1 } ∧
      ((q.inService i = true ∧ l = q.readyList ∧ k = q.numInService - 1) ∨
        (q.inService i = false ∧ i ∈ q.readyList ∧ l = q.readyList.erase i ∧
          k = q.numInService)) := by
  obtain ⟨al, hal, h⟩ := bind_eq_ok.mp h
  obtain ⟨hi, rfl⟩ := eraseIter_eq_ok.mp hal
  obtain ⟨q₁, he, h⟩ := bind_eq_ok.mp h
  split at h
  · cases h
  · rename_i e hdea
    cases h
    refine ⟨hi, e, ?_⟩
    unfold leaveService at he
    split at he
    · rename_i hsr
      cases he
      exact ⟨_, _, rfl, .inl ⟨hsr, rfl, rfl⟩⟩
    · rename_i hsr
      obtain ⟨l, hl, hre⟩ := bind_eq_ok.mp he
      obtain ⟨hr, rfl⟩ := eraseIter_eq_ok.mp hl
      cases hre
      exact ⟨_, _, rfl, .inr ⟨Bool.eq_false_of_not_eq_true hsr, hr, rfl, rfl⟩⟩

theorem WellFormed.deallocate (h : q.WellFormed) (hde : q.deallocate i = .ok q') :
    q'.WellFormed := by
  obtain ⟨hi, e, l, k, rfl, hc⟩ := deallocate_cases hde
  have hp := perm_cons_erase hi
  have hn : i ∉ q.allocatedList.erase i := not_mem_erase h.nodup
  have hse := filter_setEntry (q := q) (e := e) QueueEntry.inService hn
  have hpe := filter_setEntry (q := q) (e := e) (fun e => !QueueEntry.inService e) hn
  refine ⟨?_, ?_, ?_, ?_⟩
  · exact perm_middle.trans ((hp.symm.append_right q.freeList).trans h.partition)
  · show q.allocated - 1 = ((q.allocatedList.erase i).length : Int)
    have hl := hp.length_eq
    rw [length_cons] at hl
    rw [h.allocated_eq]
    omega
  · show k = ((filter _ (q.allocatedList.erase i)).length : Int)
    simp only [inService] at hse ⊢
    rw [hse]
    have hl := (hp.filter fun j => q.inService j).length_eq
    rcases hc with ⟨hs, -, rfl⟩ | ⟨hs, -, -, rfl⟩
    · rw [filter_cons_of_pos (by simpa using hs), length_cons] at hl
      rw [h.inService_eq, sent]
      simp only [inService] at hl ⊢
      omega
    · rw [filter_cons_of_neg (by simp [hs])] at hl
      rw [h.inService_eq, sent]
      simp only [inService] at hl ⊢
      omega
  · show l.Perm (filter _ (q.allocatedList.erase i))
    simp only [inService] at hpe ⊢
    rw [hpe]
    have hf := hp.filter fun j => !q.inService j
    rcases hc with ⟨hs, rfl, -⟩ | ⟨hs, hrea, rfl, -⟩
    · rw [filter_cons_of_neg (by simp [hs])] at hf
      exact h.ready.trans hf
    · rw [filter_cons_of_pos (by simp [hs])] at hf
      exact ((cons_perm_iff_perm_erase.mp (h.ready.trans hf).symm).2).symm

theorem Sorted.deallocate (h : q.Sorted) (hq : q.WellFormed) (hde : q.deallocate i = .ok q') :
    q'.Sorted := by
  obtain ⟨hi, e, l, k, rfl, hca⟩ := deallocate_cases hde
  have hs : l.Sublist q.readyList ∧ i ∉ l := by
    rcases hca with ⟨hsr, rfl, -⟩ | ⟨-, -, rfl, -⟩
    · refine ⟨.refl _, fun hme => ?_⟩
      rw [(hq.mem_readyList.mp hme).2] at hsr
      cases hsr
    · exact ⟨erase_sublist, not_mem_erase hq.nodup_readyList⟩
  refine h.congr hs.1 fun j hj => ?_
  exact readyTime_setEntry_of_ne (ne_of_mem_of_not_mem hj hs.2)

/-! ### Sending and recalling -/

theorem inService_setEntry_of_ne (h : j ≠ i) : (q.setEntry i e).inService j = q.inService j := by
  simp [inService, setEntry_of_ne q e h]

theorem WellFormed.send (h : q.WellFormed) (hi : i ∈ q.readyList)
    (he : QueueEntry.inService e = true) :
    ({ q.setEntry i e with
      readyList := q.readyList.erase i
      numInService := q.numInService + 1 } : Queue E n).WellFormed := by
  obtain ⟨hm, hpn⟩ := h.mem_readyList.mp hi
  have hs : (q.setEntry i e).inService i = true := by simpa [inService] using he
  refine ⟨h.partition, h.allocated_eq, ?_, ?_⟩
  · have hp : (q.setEntry i e).sent.Perm (i :: q.sent) :=
      filter_perm_cons h.nodup hm hs hpn fun j hj => (inService_setEntry_of_ne hj).symm
    show q.numInService + 1 = ((q.setEntry i e).sent.length : Int)
    rw [hp.length_eq, h.inService_eq]
    simp
  · have hp : q.pending.Perm (i :: (q.setEntry i e).pending) :=
      filter_perm_cons h.nodup hm (by simp [hpn]) (by simp [hs])
        fun j hj => by rw [inService_setEntry_of_ne hj]
    exact ((cons_perm_iff_perm_erase.mp (h.ready.trans hp).symm).2).symm

theorem WellFormed.recall (h : q.WellFormed) (hi : i ∈ q.allocatedList)
    (hs : q.inService i = true) (he : QueueEntry.inService e = false)
    (hl : l.Perm (i :: q.readyList)) :
    ({ q.setEntry i e with
      readyList := l
      numInService := q.numInService - 1 } : Queue E n).WellFormed := by
  have hpn : (q.setEntry i e).inService i = false := by simpa [inService] using he
  refine ⟨h.partition, h.allocated_eq, ?_, ?_⟩
  · have hp : q.sent.Perm (i :: (q.setEntry i e).sent) :=
      filter_perm_cons h.nodup hi hs hpn fun j hj => inService_setEntry_of_ne hj
    show q.numInService - 1 = ((q.setEntry i e).sent.length : Int)
    rw [h.inService_eq, hp.length_eq]
    simp
  · have hp : (q.setEntry i e).pending.Perm (i :: q.pending) :=
      filter_perm_cons h.nodup hi (by simp [hpn]) (by simp [hs])
        fun j hj => by rw [inService_setEntry_of_ne hj]
    exact hl.trans ((h.ready.cons i).trans hp.symm)

end Queue

/-! ### Calls on one MSHR -/

namespace Mshr

variable {m m' : Mshr} {curTick : Nat}

def call (m : Mshr) (c : MshrCall) : Except MshrFault Mshr := do
  let s ← MshrRun.step ⟨m, [], [], none⟩ c
  return s.mshr

/-- An MSHR is sent and recalled by the queue. It is promoted by the queue, or in service, when the
response has arrived. -/
def Internal (m : Mshr) : MshrCall → Prop
  | .markInService _ => False
  | .markPending => False
  | .promoteDeferredTargets _ => m.inService
  | _ => True

instance (m : Mshr) : DecidablePred m.Internal
  | .markInService _ | .markPending => isFalse id
  | .promoteDeferredTargets _ => inferInstanceAs (Decidable (m.inService = true))
  | .allocateTarget .. | .handleSnoop .. | .setForward _ | .setDownstreamPending
  | .clearDownstreamPending | .promoteReadable | .promoteWritable
  | .extractServiceableTargets _ => isTrue trivial

def KeepsPlace (m m' : Mshr) : Prop :=
  m'.inService = m.inService ∧ (m.inService = false → m'.readyTime = m.readyTime)

theorem promoteIf_keeps {pred : Target → Bool} (h : m.promoteIf pred = .ok m') :
    KeepsPlace m m' := by
  rw [promoteIf_eq h]
  exact ⟨rfl, fun _ => rfl⟩

theorem promoteDeferredTargets_time {promoted : Bool}
    (h : m.promoteDeferredTargets curTick = .ok (promoted, m')) :
    m'.inService = m.inService ∧ (promoted = false ∧ m' = m ∨
      promoted = true ∧ (m.targets.elems = [] → ∃ t ∈ m.deferredTargets.elems.head?,
        m'.readyTime = max curTick t.readyTime)) := by
  unfold promoteDeferredTargets at h
  dsimp only at h
  split at h
  · cases h
    exact ⟨rfl, .inl ⟨rfl, rfl⟩⟩
  · split at h
    · cases h
    · rename_i t ts hel
      cases h
      refine ⟨rfl, .inr ⟨rfl, fun hni => ⟨t, ?_, rfl⟩⟩⟩
      have hmo : (promotable m.targets.elems m.deferredTargets.elems).1 = t :: ts := by
        simpa [TargetList.populateFlags, hni] using hel
      rw [← promotable_append m.targets.elems m.deferredTargets.elems, hmo]
      rfl

theorem call_keeps {c : MshrCall} (hc : m.Internal c) (h : m.call c = .ok m') :
    KeepsPlace m m' := by
  obtain ⟨s, hs, rfl⟩ := bind_ok.mp h
  cases c with
  | markInService | markPending => exact hc.elim
  | setForward | setDownstreamPending =>
    cases hs
    exact ⟨rfl, fun _ => rfl⟩
  | allocateTarget pkt whenReady order allocOnFill =>
    obtain ⟨m₁, hm₁, rfl⟩ := bind_ok.mp hs
    rcases (allocateTarget_cases hm₁).2 with ⟨_, _, _, rfl⟩ | ⟨_, _, _, _, _, _, _, rfl⟩ <;>
      exact ⟨rfl, fun _ => rfl⟩
  | handleSnoop pkt order curTick =>
    obtain ⟨r, hr, rfl⟩ := bind_ok.mp hs
    have hpl := (handleSnoop_cases hr).2.2
    exact ⟨congrArg (·.2.1) hpl, fun _ => congrArg (·.2.2.1) hpl⟩
  | clearDownstreamPending =>
    obtain ⟨m₁, hm₁, rfl⟩ := bind_ok.mp hs
    unfold clearDownstreamPending at hm₁
    split at hm₁
    · cases hm₁
    · cases hm₁
      exact ⟨rfl, fun _ => rfl⟩
  | promoteReadable =>
    obtain ⟨m₁, hm₁, rfl⟩ := bind_ok.mp hs
    rcases promoteReadable_cases hm₁ with rfl | ⟨-, hif⟩
    · exact ⟨rfl, fun _ => rfl⟩
    · exact promoteIf_keeps hif
  | promoteWritable =>
    obtain ⟨m₁, hm₁, rfl⟩ := bind_ok.mp hs
    rcases promoteWritable_cases hm₁ with rfl | ⟨-, -, hif⟩
    · exact ⟨rfl, fun _ => rfl⟩
    · exact promoteIf_keeps (m := m.setNeedsWritable) hif
  | extractServiceableTargets pkt =>
    obtain ⟨r, hr, rfl⟩ := bind_ok.mp hs
    rcases extractServiceableTargets_cases hr with ⟨-, heq⟩ | ⟨_, _, _, _, -, -, -, -, heq⟩ <;>
    · rw [heq]
      exact ⟨rfl, fun _ => rfl⟩
  | promoteDeferredTargets curTick =>
    obtain ⟨⟨promoted, m₁⟩, hr, rfl⟩ := bind_ok.mp hs
    refine ⟨(promoteDeferredTargets_time hr).1, fun hp => ?_⟩
    have hse : m.inService := hc
    rw [hse] at hp
    cases hp

end Mshr

/-! ### Calls on an MSHR queue -/

inductive MshrQueueCall (n : Nat)
  | allocate (blkAddr blkSize : Nat) (pkt : Packet) (whenReady order : Nat) (allocOnFill : Bool)
  | markInService (i : Fin n) (pendingModifiedResp : Bool)
  | markPending (i : Fin n)
  | delay (i : Fin n) (curTick delayTicks : Nat)
  | forceDeallocateTarget (i : Fin n) (curTick : Nat)
  | deallocate (i : Fin n)
  | mshr (i : Fin n) (c : MshrCall)

namespace MshrQueue

variable {n curTick : Nat} {q q' : MshrQueue n} {i : Fin n} {a : MshrQueueCall n}

def step (q : MshrQueue n) : MshrQueueCall n → Except (QueueFault MshrFault) (MshrQueue n)
  | .allocate blkAddr blkSize pkt whenReady order allocOnFill =>
    q.allocate blkAddr blkSize pkt whenReady order allocOnFill
  | .markInService i pendingModifiedResp => q.markInService i pendingModifiedResp
  | .markPending i => q.markPending i
  | .delay i curTick delayTicks => q.delay i curTick delayTicks
  | .forceDeallocateTarget i curTick => do
      let r ← q.forceDeallocateTarget i curTick
      return r.2
  | .deallocate i => Queue.deallocate q i
  | .mshr i c => q.onMshr i ((q.entries i).call c)

def InUse (q : MshrQueue n) : MshrQueueCall n → Prop
  | .allocate .. => True
  | .markInService i _ => i ∈ q.allocatedList
  | .markPending i => i ∈ q.allocatedList
  | .delay i _ _ => i ∈ q.allocatedList
  | .forceDeallocateTarget i _ => i ∈ q.allocatedList
  | .deallocate i => i ∈ q.allocatedList
  | .mshr i c => i ∈ q.allocatedList ∧ (q.entries i).Internal c

instance (q : MshrQueue n) : DecidablePred (InUse q) := fun a => by
  cases a <;> dsimp only [InUse] <;> infer_instance

/-- A pending MSHR whose time changes fits its place: when it is delayed, nothing behind it is ready
before it, and when its last target is dropped, the time of the target that is promoted fits. -/
def KeepsOrder (q : MshrQueue n) : MshrQueueCall n → Prop
  | .delay i curTick delayTicks => ∀ j ∈ q.behind i, curTick + delayTicks ≤ q.readyTime j
  | .forceDeallocateTarget i curTick =>
    q.inService i = true ∨ (q.entries i).popTarget.targets.elems ≠ [] ∨
      ∀ t ∈ (q.entries i).deferredTargets.elems.head?, q.Fits i (max curTick t.readyTime)
  | _ => True

instance (q : MshrQueue n) : DecidablePred (KeepsOrder q) := fun a => by
  cases a <;> dsimp only [KeepsOrder] <;> infer_instance

theorem onMshr_eq_ok {r : Except MshrFault Mshr} :
    q.onMshr i r = .ok q' ↔ ∃ m, r = .ok m ∧ q' = q.setEntry i m := by
  unfold onMshr
  cases r with
  | error e => simp
  | ok m => simp [eq_comm]

/-- **A delayed entry does not move.** -/
theorem delay_readyList {delayTicks : Nat} (h : q.delay i curTick delayTicks = .ok q') :
    q.readyTime i ≤ curTick ∧ i ∈ q.readyList ∧
      q' = q.setEntry i { q.entries i with readyTime := curTick + delayTicks } := by
  unfold delay at h
  split at h
  · cases h
  · rename_i hre
    split at h
    · cases h
    · rename_i hm
      have hm : i ∈ q.readyList := not_not.mp hm
      refine ⟨not_not.mp hre, hm, ?_⟩
      rw [eq_of_ok h]
      rw [setEntry_readyList, dropWhile_ne_of_mem hm, find?_cons_of_pos (by simp)]
      simp only [if_true]
      rfl

theorem forceDeallocateTarget_cases {r : Bool × MshrQueue n}
    (h : q.forceDeallocateTarget i curTick = .ok r) :
    r.1 = (q.isFull && !r.2.isFull) ∧
      ((r.2 = q.setEntry i (q.entries i).popTarget ∧
          (q.entries i).popTarget.targets.elems ≠ []) ∨
        ∃ promoted m, (q.entries i).popTarget.targets.elems = [] ∧
          (q.entries i).popTarget.promoteDeferredTargets curTick = .ok (promoted, m) ∧
          (promoted = true ∧ r.2 = q.setEntry i m ∨
            promoted = false ∧ (q.setEntry i m).deallocate i = .ok r.2)) := by
  unfold forceDeallocateTarget at h
  simp only [throw, throwThe] at h
  split at h
  · cases h
  split at h
  · rename_i hl
    cases h
    exact ⟨rfl, .inl ⟨rfl, hl⟩⟩
  · rename_i hl
    split at h
    · cases h
    · rename_i promoted m hpr
      cases promoted with
      | true =>
        cases h
        exact ⟨rfl, .inr ⟨true, m, not_not.mp hl, hpr, .inl ⟨rfl, rfl⟩⟩⟩
      | false =>
        obtain ⟨q₁, hq₁, rfl⟩ := bind_ok.mp h
        exact ⟨rfl, .inr ⟨false, m, not_not.mp hl, hpr, .inr ⟨rfl, hq₁⟩⟩⟩

theorem markInService_cases {pendingModifiedResp : Bool}
    (h : q.markInService i pendingModifiedResp = .ok q') :
    ∃ m, m.inService ∧ i ∈ q.readyList ∧ q' = { q.setEntry i m with
      readyList := q.readyList.erase i
      numInService := q.numInService + 1 } := by
  obtain ⟨q₁, hma, h⟩ := bind_eq_ok.mp h
  obtain ⟨m, hm, rfl⟩ := onMshr_eq_ok.mp hma
  obtain ⟨l, hl, hre⟩ := bind_eq_ok.mp h
  obtain ⟨hi, rfl⟩ := eraseIter_eq_ok.mp hl
  refine ⟨m, ?_, hi, eq_of_ok hre⟩
  unfold Mshr.markInService at hm
  split at hm
  · cases hm
  · rw [eq_of_ok hm]

theorem markPending_cases (h : q.markPending i = .ok q') :
    ∃ l, q.inService i = true ∧
      (q.setEntry i { q.entries i with inService := false }).addToReadyList i = .ok l ∧
      q' = { q.setEntry i { q.entries i with inService := false } with
        readyList := l
        numInService := q.numInService - 1 } := by
  obtain ⟨q₁, hma, h⟩ := bind_eq_ok.mp h
  obtain ⟨m, hm, rfl⟩ := onMshr_eq_ok.mp hma
  obtain ⟨l, hl, hre⟩ := bind_eq_ok.mp h
  unfold Mshr.markPending at hm
  split at hm
  · rename_i hse
    cases hm
    exact ⟨l, hse, hl, eq_of_ok hre⟩
  · cases hm

theorem allocate_idle {blkAddr blkSize whenReady order : Nat} {pkt : Packet} {allocOnFill : Bool}
    (m m' : Mshr) (h : m.allocate blkAddr blkSize pkt whenReady order allocOnFill = .ok m') :
    m'.inService = false := by
  unfold Mshr.allocate at h
  split at h
  · cases h
  · rw [eq_of_ok h]

/-! ### The invariants, call by call -/

theorem wellFormed_step (h : q.WellFormed) (hus : q.InUse a) (hs : q.step a = .ok q') :
    q'.WellFormed := by
  cases a with
  | allocate => exact h.allocate allocate_idle hs
  | markInService i resp =>
    obtain ⟨m, hse, hi, rfl⟩ := markInService_cases hs
    exact h.send hi hse
  | markPending i =>
    obtain ⟨l, hse, hl, rfl⟩ := markPending_cases hs
    have hpe := addToReadyList_perm hl
    exact h.recall hus hse rfl hpe
  | delay i curTick delayTicks =>
    obtain ⟨-, -, rfl⟩ := delay_readyList hs
    exact h.setEntry rfl
  | forceDeallocateTarget i curTick =>
    obtain ⟨r, hfo, rfl⟩ := bind_ok.mp hs
    rcases (forceDeallocateTarget_cases hfo).2 with ⟨heq, -⟩ |
      ⟨promoted, m, -, hpr, ⟨-, heq⟩ | ⟨-, hde⟩⟩
    · rw [heq]
      exact h.setEntry rfl
    · rw [heq]
      exact h.setEntry (promoteDeferredTargets_time hpr).1
    · exact (h.setEntry (promoteDeferredTargets_time hpr).1).deallocate hde
  | deallocate i => exact h.deallocate hs
  | mshr i c =>
    obtain ⟨m, hm, rfl⟩ := onMshr_eq_ok.mp hs
    exact h.setEntry (call_keeps hus.2 hm).1

theorem sorted_step (hq : q.WellFormed) (h : q.Sorted) (hus : q.InUse a) (hk : q.KeepsOrder a)
    (hs : q.step a = .ok q') : q'.Sorted := by
  cases a with
  | allocate blkAddr blkSize pkt whenReady order allocOnFill =>
    have hal : Queue.allocate q
      (fun m => m.allocate blkAddr blkSize pkt whenReady order allocOnFill) = .ok q' := hs
    exact h.allocate hq hal
  | markInService i resp =>
    obtain ⟨m, -, -, rfl⟩ := markInService_cases hs
    refine h.congr erase_sublist fun j hj => ?_
    exact readyTime_setEntry_of_ne (ne_of_mem_of_not_mem hj (not_mem_erase hq.nodup_readyList))
  | markPending i =>
    obtain ⟨l, -, hl, rfl⟩ := markPending_cases hs
    have hst : (q.setEntry i { q.entries i with inService := false }).Sorted :=
      h.setEntry fun _ => rfl
    exact hst.addToReadyList hl
  | delay i curTick delayTicks =>
    obtain ⟨hre, hi, rfl⟩ := delay_readyList hs
    refine h.setEntry_fits hq fun _ => ⟨fun j hj => ?_, hk⟩
    -- What stands in front is ready already.
    have hle : q.readyTime j ≤ q.readyTime i := by
      rw [Queue.Sorted, readyList_split hi] at h
      exact (pairwise_append.mp h).2.2 j hj i (by simp)
    exact hle.trans (hre.trans (Nat.le_add_right _ _))
  | forceDeallocateTarget i curTick =>
    obtain ⟨r, hfo, rfl⟩ := bind_ok.mp hs
    have hp : (q.setEntry i (q.entries i).popTarget).Sorted := h.setEntry fun _ => rfl
    rcases (forceDeallocateTarget_cases hfo).2 with ⟨heq, -⟩ |
      ⟨promoted, m, hni, hpm, ⟨hpr, heq⟩ | ⟨hpr, hde⟩⟩
    · rw [heq]
      exact hp
    · obtain ⟨-, ⟨hn, -⟩ | ⟨-, hti⟩⟩ := promoteDeferredTargets_time hpm
      · rw [hpr] at hn
        cases hn
      · obtain ⟨t, ht, hti⟩ := hti hni
        rw [heq]
        refine h.setEntry_fits hq fun hi => ?_
        rcases hk with hse | hlf | hfi
        · rw [(hq.mem_readyList.mp hi).2] at hse
          cases hse
        · exact absurd hni hlf
        · show q.Fits i m.readyTime
          rw [hti]
          exact hfi t ht
    · obtain ⟨hse, ⟨-, rfl⟩ | ⟨hy, -⟩⟩ := promoteDeferredTargets_time hpm
      · exact hp.deallocate (hq.setEntry rfl) hde
      · rw [hpr] at hy
        cases hy
  | deallocate i => exact h.deallocate hq hs
  | mshr i c =>
    obtain ⟨m, hm, rfl⟩ := onMshr_eq_ok.mp hs
    exact h.setEntry fun hi =>
      (call_keeps hus.2 hm).2 (hq.mem_readyList.mp hi).2

end MshrQueue

/-! ### Every run -/

/-- An MSHR queue of `n` entries under arbitrary calls on the MSHRs in use. -/
abbrev mshrQueueSystem (n numReserve : Nat) :
    System (MshrQueue n) (MshrQueueCall n) (QueueFault MshrFault) where
  init q := q = Queue.init n numReserve .free
  step := MshrQueue.step
  pre := MshrQueue.InUse

variable {n numReserve : Nat}

theorem wellFormed_of_reachable {q : MshrQueue n} (h : (mshrQueueSystem n numReserve).Reachable q) :
    q.WellFormed := by
  refine h.invariant Queue.WellFormed ?_ ?_
  · rintro q rfl
    exact wellFormed_init n numReserve _
  · intro q a q' hq hus hst
    exact wellFormed_step hq hus hst

/-- **The structure of the MSHR queue**, in every run in which a pending entry whose time changes
fits its place in the ready list. -/
theorem mshrQueue_structure {q : MshrQueue n}
    (h : ((mshrQueueSystem n numReserve).restrict MshrQueue.KeepsOrder).Reachable q) :
    (q.allocatedList ++ q.freeList).Perm (List.finRange n) ∧
      q.allocated = q.allocatedList.length ∧
      q.numInService = (q.allocatedList.filter fun i => q.inService i).length ∧
      (q.readyList.Nodup ∧ ∀ i, i ∈ q.readyList ↔ i ∈ q.allocatedList ∧ q.inService i = false) ∧
      (q.readyList.Pairwise fun i j => q.readyTime i ≤ q.readyTime j) ∧
      ∀ curTick, (∃ i ∈ q.allocatedList, q.inService i = false ∧ q.readyTime i ≤ curTick) →
        (q.getNext curTick).isSome := by
  have hq := wellFormed_of_reachable h.of_restrict
  have hs : q.WellFormed ∧ q.Sorted := by
    refine h.invariant (fun q => q.WellFormed ∧ q.Sorted) ?_ ?_
    · rintro q rfl
      exact ⟨wellFormed_init n numReserve _, List.Pairwise.nil⟩
    · rintro q a q' ⟨hq, hs⟩ ⟨hus, hke⟩ hst
      exact ⟨wellFormed_step hq hus hst, sorted_step hq hs hus hke hst⟩
  refine ⟨hq.partition, hq.allocated_eq, hq.inService_eq,
    ⟨hq.nodup_readyList, fun i => hq.mem_readyList⟩, hs.2, ?_⟩
  rintro curTick ⟨i, hi, hpe, hre⟩
  exact hs.2.getNext (hq.mem_readyList.mpr ⟨hi, hpe⟩) hre

/-- Two write misses, ready at 0 and at 5, of which the first is delayed at 10. -/
def delayFirst (delayTicks : Nat) : List (MshrQueueCall 2) :=
  [.allocate 0 64 { cmd := .writeReq, size := 8 } 0 0 true,
    .allocate 64 64 { cmd := .writeReq, addr := 64, size := 8 } 5 1 true,
    .delay 0 10 delayTicks]

/-- Nothing is delayed when the other entry has been sent. -/
theorem mshrQueue_structure_two_misses :
    ∃ q, ((mshrQueueSystem 2 0).restrict MshrQueue.KeepsOrder).Reachable q ∧
      q.readyList = [0] ∧ (q.getNext 110).isSome := by
  obtain ⟨q, hq, hr⟩ := System.Reachable.exists_of_leads
    (S := (mshrQueueSystem 2 0).restrict MshrQueue.KeepsOrder)
    (p := fun q => q.readyList = [0] ∧
      ∃ i ∈ q.allocatedList, q.inService i = false ∧ q.readyTime i ≤ 110)
    [.allocate 0 64 { cmd := .writeReq, size := 8 } 0 0 true,
      .allocate 64 64 { cmd := .writeReq, addr := 64, size := 8 } 5 1 true,
      .markInService 1 false, .delay 0 10 100]
    (.start rfl) (by decide +kernel)
  exact ⟨q, hq, hr.1, (mshrQueue_structure hq).2.2.2.2.2 110 hr.2⟩

/-- **A delayed MSHR holds up the ones behind it**: at time 20 the second miss has been ready for
long, and `getNext` finds nothing. -/
theorem delay_hides_ready :
    ∃ q, (mshrQueueSystem 2 0).Reachable q ∧
      ¬(q.readyList.Pairwise fun i j => q.readyTime i ≤ q.readyTime j) ∧
      (∃ i ∈ q.allocatedList, q.inService i = false ∧ q.readyTime i ≤ 20) ∧
      q.getNext 20 = none :=
  System.Reachable.exists_of_leads (delayFirst 100) (.start rfl) (by decide +kernel)

end Gem5.Mem
