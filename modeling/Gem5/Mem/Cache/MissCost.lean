import Gem5.Lib.System

/-!
# Gem5.Mem.Cache.MissCost

**The miss costs of the MSHRs** (`updateMissCost` in `mshr.hh` and `mshr_queue.cc`). An allocation
and a response charge every MSHR in use with the cycles since its last charge, divided by the number
of MSHRs in use. `MSHR::allocate` clears the cost and not the cycle of the last charge, so the first
charge is also for the time the MSHR was free.
-/

namespace Gem5.Mem

open Gem5.Lib Function

/-- A number as a `float`: 24 significant bits, ties to even. -/
def toFloat (n : Nat) : Nat :=
  let unit := 2 ^ (n.log2 - 23)
  let up := unit < 2 * (n % unit) ∨ unit = 2 * (n % unit) ∧ n / unit % 2 = 1
  (n / unit + if up then 1 else 0) * unit

theorem toFloat_of_lt {n : Nat} (h : n < 2 ^ 24) : toFloat n = n := by
  have hlo : n.log2 - 23 = 0 := by
    rcases eq_or_ne n 0 with rfl | hn
    · rfl
    · have := (Nat.log2_lt hn).mpr h
      omega
  simp [toFloat, hlo, Nat.mod_one]

structure MissCost where
  missCost : Nat := 0
  lastCycle : Nat := 0
  allocatedAt : Nat := 0

def MissCost.updateMissCost (m : MissCost) (N curCycle : Nat) : MissCost :=
  { m with
    missCost := toFloat (m.missCost + toFloat ((curCycle - m.lastCycle) / N))
    lastCycle := curCycle }

/-- The MSHR queue as far as costs go: the ready list and the targets have no part in them. -/
structure CostQueue where
  mshrs : Nat → MissCost
  allocatedList : List Nat
  freeList : List Nat
  curCycle : Nat

inductive CostCall
  | allocateMissBuffer (cycle : Nat)
  | recvTimingResp (cycle : Nat)
  | deallocate (i : Nat)

namespace CostQueue

def updateMissCost (q : CostQueue) (cycle : Nat) : CostQueue :=
  { q with
    curCycle := cycle
    mshrs := q.allocatedList.foldl (fun mshrs i =>
      update mshrs i ((mshrs i).updateMissCost q.allocatedList.length cycle)) q.mshrs }

/-- The call of `MSHRQueue::allocate` fails when no MSHR is free. -/
def step (q : CostQueue) : CostCall → Except Unit CostQueue
  | .allocateMissBuffer cycle =>
    let q := q.updateMissCost cycle
    match q.freeList with
    | [] => .error ()
    | i :: free => .ok { q with
        mshrs := update q.mshrs i { q.mshrs i with missCost := 0, allocatedAt := cycle }
        allocatedList := q.allocatedList ++ [i]
        freeList := free }
  | .recvTimingResp cycle => .ok (q.updateMissCost cycle)
  | .deallocate i => .ok { q with
      allocatedList := q.allocatedList.erase i
      freeList := i :: q.freeList }

/-- Cycles do not decrease, and what is deallocated is in use. -/
def pre (q : CostQueue) : CostCall → Prop
  | .allocateMissBuffer cycle | .recvTimingResp cycle => q.curCycle ≤ cycle
  | .deallocate i => i ∈ q.allocatedList

def charge (q : CostQueue) (cycle i : Nat) : Nat :=
  (cycle - (q.mshrs i).lastCycle) / q.allocatedList.length

/-- **A charge is for no more than the time in use**: an MSHR that was last charged before it was
allocated is charged with no more cycles than have passed since, and no cost reaches `2 ^ 24`. -/
def Current (q : CostQueue) : CostCall → Prop
  | .allocateMissBuffer cycle | .recvTimingResp cycle => ∀ i ∈ q.allocatedList,
    ((q.mshrs i).allocatedAt ≤ (q.mshrs i).lastCycle ∨
      q.charge cycle i ≤ cycle - (q.mshrs i).allocatedAt) ∧
    (q.mshrs i).missCost + q.charge cycle i < 2 ^ 24
  | .deallocate _ => True

instance (q : CostQueue) : DecidablePred q.pre := fun a => by
  cases a <;> dsimp only [pre] <;> infer_instance

instance (q : CostQueue) : DecidablePred q.Current := fun a => by
  cases a <;> dsimp only [Current] <;> infer_instance

abbrev system (n : Nat) : System CostQueue CostCall Unit where
  init q := q = ⟨fun _ => {}, [], List.range n, 0⟩
  step := step
  pre := pre

/-- The cost of an MSHR in use is not larger than the time from its allocation to the last charge. -/
def Inv (q : CostQueue) : Prop := ∀ i, (q.mshrs i).lastCycle ≤ q.curCycle ∧
  (i ∈ q.allocatedList → (q.mshrs i).allocatedAt ≤ q.curCycle ∧ ((q.mshrs i).missCost = 0 ∨
    (q.mshrs i).missCost + (q.mshrs i).allocatedAt ≤ (q.mshrs i).lastCycle))

variable {q q' : CostQueue} {n cycle : Nat}

/-- Charged in `cycle`, with no more than the time since the allocation. -/
structure Paid (cycle : Nat) (m : MissCost) : Prop where
  missCost_le : m.missCost + m.allocatedAt ≤ cycle
  missCost_lt : m.missCost < 2 ^ 24
  lastCycle_eq : m.lastCycle = cycle

/-- **One charge**, of numbers that are small enough for a `float`. -/
theorem Inv.paid (h : q.Inv) (hl : q.curCycle ≤ cycle) (hcu : q.Current (.recvTimingResp cycle))
    {i : Nat} (hi : i ∈ q.allocatedList) :
    Paid cycle ((q.mshrs i).updateMissCost q.allocatedList.length cycle) := by
  obtain ⟨hla, hin⟩ := h i
  obtain ⟨hal, hco⟩ := hin hi
  obtain ⟨htime, hlt⟩ := hcu i hi
  have hdiv : q.charge cycle i ≤ cycle - (q.mshrs i).lastCycle := Nat.div_le_self _ _
  have heq : ((q.mshrs i).updateMissCost q.allocatedList.length cycle).missCost =
      (q.mshrs i).missCost + q.charge cycle i := by
    show toFloat (_ + toFloat (q.charge cycle i)) = _
    rw [toFloat_of_lt (n := q.charge cycle i) (by omega), toFloat_of_lt hlt]
  refine ⟨?_, heq ▸ hlt, rfl⟩
  rw [heq]
  show _ + (q.mshrs i).allocatedAt ≤ cycle
  omega

theorem Paid.again {m : MissCost} (h : Paid cycle m) (N : Nat) :
    Paid cycle (m.updateMissCost N cycle) := by
  have heq : m.updateMissCost N cycle = m := by
    have hz : toFloat ((cycle - m.lastCycle) / N) = 0 := by
      rw [h.lastCycle_eq, Nat.sub_self, Nat.zero_div]
      rfl
    rw [MissCost.updateMissCost, hz, Nat.add_zero, toFloat_of_lt h.missCost_lt, ← h.lastCycle_eq]
  rw [heq]
  exact h

theorem Inv.updateMissCost (h : q.Inv) (hl : q.curCycle ≤ cycle)
    (hcu : q.Current (.recvTimingResp cycle)) : (q.updateMissCost cycle).Inv := by
  -- in the middle of the charge an MSHR is as it was, or has paid
  have hal : ∀ i, (q.updateMissCost cycle).mshrs i = q.mshrs i ∨
      Paid cycle ((q.updateMissCost cycle).mshrs i) := by
    refine List.foldlRecOn (motive := fun mshrs : Nat → MissCost =>
      ∀ i, mshrs i = q.mshrs i ∨ Paid cycle (mshrs i)) _ _ (fun i => .inl rfl) ?_
    intro mshrs hms j hj i
    rcases eq_or_ne i j with rfl | hn
    · rw [update_self]
      rcases hms i with hsa | hpa
      · rw [hsa]
        exact .inr (h.paid hl hcu hj)
      · exact .inr (hpa.again _)
    · rw [update_of_ne hn]
      exact hms i
  intro i
  rcases hal i with hsa | ⟨hco, -, hla⟩
  · rw [hsa]
    obtain ⟨hla, hin⟩ := h i
    exact ⟨hla.trans hl, fun hi => ⟨(hin hi).1.trans hl, (hin hi).2⟩⟩
  · exact ⟨hla.le, fun _ => ⟨le_trans (Nat.le_add_left _ _) hco, .inr (hla.symm ▸ hco)⟩⟩

theorem Inv.step {a : CostCall} (h : q.Inv) (hpr : q.pre a) (hc : q.Current a)
    (ho : q.step a = .ok q') : q'.Inv := by
  cases a with
  | allocateMissBuffer cycle =>
    have hq := h.updateMissCost hpr hc
    simp only [CostQueue.step] at ho
    split at ho
    · cases ho
    · rename_i j free _
      cases ho
      intro i
      rcases eq_or_ne i j with rfl | hn
      · have hcy : cycle ≤ (q.updateMissCost cycle).curCycle := le_rfl
        simp [(hq i).1, hcy]
      · simpa [update_of_ne hn, hn] using hq i
  | recvTimingResp cycle =>
    cases ho
    exact h.updateMissCost hpr hc
  | deallocate j =>
    cases ho
    exact fun i => ⟨(h i).1, fun hi => (h i).2 (List.mem_of_mem_erase hi)⟩

/-- **A miss costs no more than its cycles**, in every run whose charges are for the time in use. -/
theorem missCost_le_elapsed (h : ((system n).restrict Current).Reachable q) :
    ∀ i ∈ q.allocatedList, (q.mshrs i).missCost ≤ q.curCycle - (q.mshrs i).allocatedAt := by
  have hin : q.Inv := by
    refine h.invariant Inv ?_ ?_
    · rintro q rfl i
      exact ⟨le_rfl, nofun⟩
    · rintro q a q' hq ⟨hpr, hcu⟩ hok
      exact hq.step hpr hcu hok
  intro i hi
  have hi' := (hin i).2 hi
  have hla := (hin i).1
  omega

/-- Two misses: the second is in use for twenty cycles, and is first charged with half of the
thirty since the start. -/
theorem missCost_le_elapsed_two : ∃ q, ((system 2).restrict Current).Reachable q ∧
    (q.mshrs 1).missCost = 15 ∧ (q.mshrs 1).missCost ≤ q.curCycle - (q.mshrs 1).allocatedAt := by
  have hst : ((system 2).restrict Current).Reachable _ := .start rfl
  obtain ⟨q, hq, hme, hco⟩ := hst.exists_of_leads
    (p := fun q => 1 ∈ q.allocatedList ∧ (q.mshrs 1).missCost = 15)
    [.allocateMissBuffer 0, .allocateMissBuffer 10, .recvTimingResp 30] (by decide +kernel)
  exact ⟨q, hq, hco, missCost_le_elapsed hq 1 hme⟩

/-- An MSHR that is first allocated in cycle 100 costs 101 cycles in cycle 101. -/
theorem missCost_stale : ∃ q, (system 1).Reachable q ∧ q.allocatedList = [0] ∧
    (q.mshrs 0).allocatedAt = 100 ∧ q.curCycle = 101 ∧ (q.mshrs 0).missCost = 101 :=
  System.Reachable.exists_of_leads [.allocateMissBuffer 100, .recvTimingResp 101] (.start rfl)
    (by decide +kernel)

end CostQueue

end Gem5.Mem
