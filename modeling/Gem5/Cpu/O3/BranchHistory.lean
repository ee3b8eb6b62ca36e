import Gem5.Lib.ListCut
import Gem5.Cpu.O3.BranchNumbers

/-!
# Gem5.Cpu.O3.BranchHistory

**The records of the predictor are those of the pipeline.** In order of their numbers, the
records in `predHist` belong to the branches fetched and not yet committed or squashed, and
then to the run-ahead queue:

    predHist, from the back  =  numbers of the live branches  ++  prefetchQueueSeqNum

Everything else follows from this equation. It is kept because a signal of commit cuts the
instructions and the numbers at the same place (`Cut`): instructions are numbered in order,
and a branch has a larger number than everything fetched before it (`Ordered`).

Three things break it: squashes that name the number 0 or one below it, translation faults
(`not_predHist_matches_zeroAndFault`), and a run-ahead prediction whose branch ends the address
space, which is kept without a number of its own.
-/

namespace Gem5.Cpu.O3

open List Nat Gem5.Lib List.Subset Gem5.Cpu.O3.Numbering
open Gem5.Base (Addr)
open Gem5.Cpu.Pred (BPredUnit DirectionPredictor Prediction BPredFault neverTaken)

namespace Numbering

variable {T H : Type} {d : DirectionPredictor T H} {iPred : Bool} {i : DynInst}
  {insts : List DynInst} {n : Nat}

/-! ### Instructions in order -/

/-- The numbers of the branches among `insts`. -/
def branches (insts : List DynInst) : List Nat :=
  (insts.filter (·.isControl)).map (·.brSeqNum)

theorem mem_branches : n ∈ branches insts ↔ ∃ i ∈ insts, i.isControl ∧ i.brSeqNum = n := by
  simp [branches, and_assoc]

/-- **Numbers follow the program**: instructions, the numbers queued, and the counters above
them. -/
structure Ordered (insts : List DynInst) (queue : List Nat) (seq next : Nat) : Prop where
  unique : ∀ a ∈ insts, ∀ b ∈ insts, a.seqNum = b.seqNum → a = b
  le : ∀ a ∈ insts, ∀ b ∈ insts, a.seqNum < b.seqNum → a.brSeqNum ≤ b.brSeqNum
  lt : ∀ a ∈ insts, ∀ b ∈ insts, a.seqNum < b.seqNum → b.isControl → a.brSeqNum < b.brSeqNum
  lt_next : ∀ a ∈ insts, a.seqNum < next
  lt_seq : ∀ a ∈ insts, a.brSeqNum < seq
  lt_queue : ∀ a ∈ insts, ∀ n ∈ queue, a.brSeqNum < n

variable {insts' : List DynInst} {queue queue' : List Nat} {seq seq' next next' : Nat}

section

variable (h : Ordered insts queue seq next)
include h

theorem Ordered.mono (hi : insts' ⊆ insts) (hq : ∀ n ∈ queue', n ∈ queue ∨ seq ≤ n)
    (hse : seq ≤ seq') (hnx : next ≤ next') :
    Ordered insts' queue' seq' next' where
  unique a ha b hb := h.unique a (hi ha) b (hi hb)
  le a ha b hb := h.le a (hi ha) b (hi hb)
  lt a ha b hb := h.lt a (hi ha) b (hi hb)
  lt_next a ha := (h.lt_next a (hi ha)).trans_le hnx
  lt_seq a ha := (h.lt_seq a (hi ha)).trans_le hse
  lt_queue a ha n hn := by
    rcases hq n hn with hme | hfr
    · exact h.lt_queue a (hi ha) n hme
    · exact (h.lt_seq a (hi ha)).trans_le hfr

theorem Ordered.append (hi : i.seqNum = next) (hs : ∀ a ∈ insts', a ∈ insts ∨ a = i)
    (hao : ∀ a ∈ insts, a.brSeqNum ≤ i.brSeqNum)
    (hct : i.isControl → ∀ a ∈ insts, a.brSeqNum < i.brSeqNum) (hq : queue' ⊆ queue)
    (hlt : ∀ n ∈ queue', i.brSeqNum < n) (hse : seq ≤ seq') (his : i.brSeqNum < seq') :
    Ordered insts' queue' seq' (next + 1) := by
  have ho : ∀ a ∈ insts, a.seqNum < i.seqNum := by
    intro a ha
    rw [hi]
    exact h.lt_next a ha
  constructor
  · intro a ha b hb hab
    rcases hs a ha with ha | rfl <;> rcases hs b hb with hb | rfl
    · exact h.unique a ha b hb hab
    · exact absurd hab (ho a ha).ne
    · exact absurd hab.symm (ho b hb).ne
    · rfl
  · intro a ha b hb hab
    rcases hs a ha with ha | rfl <;> rcases hs b hb with hb | rfl
    · exact h.le a ha b hb hab
    · exact hao a ha
    · exact absurd hab (ho b hb).not_gt
    · exact le_rfl
  · intro a ha b hb hab hc
    rcases hs a ha with ha | rfl <;> rcases hs b hb with hb | rfl
    · exact h.lt a ha b hb hab hc
    · exact hct hc a ha
    · exact absurd hab (ho b hb).not_gt
    · exact absurd hab (lt_irrefl _)
  · intro a ha
    rcases hs a ha with ha | rfl
    · exact (h.lt_next a ha).trans (lt_succ_self next)
    · omega
  · intro a ha
    rcases hs a ha with ha | rfl
    · exact (h.lt_seq a ha).trans_le hse
    · exact his
  · intro a ha n hn
    rcases hs a ha with ha | rfl
    · exact h.lt_queue a ha n (hq hn)
    · exact hlt n hn

theorem Ordered.sorted (hso : insts.Pairwise (·.seqNum < ·.seqNum))
    (hq : queue.Pairwise (· < ·)) : (branches insts ++ queue).Pairwise (· < ·) := by
  rw [pairwise_append]
  refine ⟨?_, hq, ?_⟩
  · unfold branches
    rw [pairwise_map]
    refine (hso.filter _).imp_of_mem fun {a b} ha hb hab => ?_
    rw [mem_filter] at ha hb
    exact h.lt a ha.1 b hb.1 hab hb.2
  · intro n hn m hm
    obtain ⟨i, hi, -, rfl⟩ := mem_branches.mp hn
    exact h.lt_queue i hi m hm

end

/-! ### Signals cut -/

/-- **The instructions up to `doneSeqNum` are those numbered up to `doneBrSeqNum`.** -/
structure Cut (insts : List DynInst) (queue : List Nat) (doneSeqNum doneBrSeqNum : Nat) : Prop where
  insts : ∀ i ∈ insts, i.isControl → (i.seqNum ≤ doneSeqNum ↔ i.brSeqNum ≤ doneBrSeqNum)
  queue : ∀ n ∈ queue, doneBrSeqNum < n

variable {doneSeqNum doneBrSeqNum : Nat}

section

variable (h : Cut insts queue doneSeqNum doneBrSeqNum)

include h

theorem Cut.mono (hin : insts' ⊆ insts) (hq : ∀ n ∈ queue', n ∈ queue ∨ doneBrSeqNum < n) :
    Cut insts' queue' doneSeqNum doneBrSeqNum where
  insts i hi := h.insts i (hin hi)
  queue n hn := (hq n hn).elim (h.queue n) id

theorem Cut.append (hq : queue' ⊆ queue) (hlt : doneSeqNum < i.seqNum)
    (hi : i.isControl → doneBrSeqNum < i.brSeqNum) :
    Cut (insts ++ [i]) queue' doneSeqNum doneBrSeqNum := by
  refine ⟨forall_mem_append.mpr ⟨h.insts, forall_mem_singleton.mpr ?_⟩,
    fun n hn => h.queue n (hq hn)⟩
  intro hct
  have habo := hi hct
  omega

theorem Cut.filter_le :
    (branches insts ++ queue).filter (· ≤ doneBrSeqNum) =
      branches (insts.filter (·.seqNum ≤ doneSeqNum)) := by
  rw [filter_append, filter_le_eq_nil h.queue, append_nil]
  unfold branches
  rw [filter_map, filter_filter, filter_filter]
  congr 1
  refine filter_congr fun i hi => ?_
  cases hct : i.isControl with
  | false => simp
  | true => simp [h.insts i hi hct]

theorem Cut.filter_lt :
    (branches insts ++ queue).filter (doneBrSeqNum < ·) =
      branches (insts.filter (doneSeqNum < ·.seqNum)) ++ queue := by
  have hq : queue.filter (doneBrSeqNum < ·) = queue := by
    rw [filter_eq_self]
    intro n hn
    simpa using h.queue n hn
  rw [filter_append]
  unfold branches
  rw [filter_map, filter_filter, filter_filter]
  congr 2
  refine filter_congr fun i hi => ?_
  cases hct : i.isControl with
  | false => simp
  | true =>
    have hiff := h.insts i hi hct
    have hlt : doneBrSeqNum < i.brSeqNum ↔ doneSeqNum < i.seqNum := by omega
    simp [hlt]

end

theorem Ordered.cut {A : List DynInst} (h : Ordered A queue seq next) (hin : insts ⊆ A)
    {x : DynInst} (hx : x ∈ A) (hq : queue' ⊆ queue) :
    Cut insts queue' x.seqNum x.brSeqNum where
  insts i hi hct := by
    constructor
    · intro hl
      rcases hl.eq_or_lt with heq | hlt
      · rw [h.unique i (hin hi) x hx heq]
      · exact h.le i (hin hi) x hx hlt
    · intro hl
      by_contra hgt
      exact absurd (h.lt x hx i (hin hi) (not_le.mp hgt) hct) (not_lt.mpr hl)
  queue n hn := h.lt_queue x hx n (hq hn)

structure Named (insts : List DynInst) (inserted doneSeqNum doneBrSeqNum : Nat)
    (mispredictInst : Option Mispredict) : Prop where
  mispredict : ∀ m ∈ mispredictInst, m.inst.isControl →
    m.inst ∈ insts ∧ m.inst.seqNum = doneSeqNum ∧ m.inst.brSeqNum = doneBrSeqNum ∧
      doneSeqNum ≤ inserted
  other : (∀ m ∈ mispredictInst, m.inst.isControl = false) → 0 < doneBrSeqNum

/-- **The signals on their way cut where they should**, each in what the ones before it leave. -/
def Arrives (seq next inserted : Nat) :
    List CommitInfo → List DynInst → List Nat → Prop
  | [], _, _ => True
  | .done doneSeqNum doneBrSeqNum :: toFetch, insts, queue =>
    Cut insts queue doneSeqNum doneBrSeqNum ∧ doneSeqNum < next ∧ doneBrSeqNum < seq ∧
      Arrives seq next inserted toFetch (insts.filter (doneSeqNum < ·.seqNum)) queue
  | .squash doneSeqNum doneBrSeqNum mispredictInst :: toFetch, insts, queue =>
    Cut insts queue doneSeqNum doneBrSeqNum ∧ doneSeqNum < next ∧ doneBrSeqNum < seq ∧
      Named insts inserted doneSeqNum doneBrSeqNum mispredictInst ∧
      Arrives seq next inserted toFetch (insts.filter (·.seqNum ≤ doneSeqNum)) []

def queueAfter : List CommitInfo → List Nat → List Nat
  | [], queue => queue
  | .done _ _ :: toFetch, queue => queueAfter toFetch queue
  | .squash _ _ _ :: toFetch, _ => queueAfter toFetch []

variable {inserted inserted' : Nat} {toFetch : List CommitInfo}

theorem survivors_append (toFetch toFetch' : List CommitInfo) (insts : List DynInst) :
    survivors (toFetch ++ toFetch') insts = survivors toFetch' (survivors toFetch insts) := by
  induction toFetch generalizing insts with
  | nil => rfl
  | cons m toFetch ih =>
    cases m with
    | done | squash => exact ih _

/-- Signals drop instructions one by one, whatever stands beside them. -/
theorem survivors_eq_filter (toFetch : List CommitInfo) :
    ∃ p : DynInst → Bool, ∀ insts, survivors toFetch insts = insts.filter p := by
  induction toFetch with
  | nil => exact ⟨fun _ => true, fun insts => (filter_true insts).symm⟩
  | cons m toFetch ih =>
    obtain ⟨p, hp⟩ := ih
    cases m with
    | done | squash => exact ⟨_, fun insts => (hp _).trans filter_filter⟩

theorem survivors_sublist (toFetch : List CommitInfo) (insts : List DynInst) :
    (survivors toFetch insts).Sublist insts := by
  obtain ⟨p, hp⟩ := survivors_eq_filter toFetch
  rw [hp]
  exact filter_sublist

theorem survivors_subset (toFetch : List CommitInfo) (insts : List DynInst) :
    survivors toFetch insts ⊆ insts :=
  (survivors_sublist toFetch insts).subset

/-- The order in which instructions are dropped does not matter. -/
theorem survivors_filter (p : DynInst → Bool) (toFetch : List CommitInfo)
    (insts : List DynInst) : survivors toFetch (insts.filter p) = (survivors toFetch insts).filter p := by
  obtain ⟨q, hq⟩ := survivors_eq_filter toFetch
  rw [hq, hq, filter_comm]

theorem survivors_append_insts (toFetch : List CommitInfo) (insts insts' : List DynInst) :
    survivors toFetch (insts ++ insts') = survivors toFetch insts ++ survivors toFetch insts' := by
  obtain ⟨p, hp⟩ := survivors_eq_filter toFetch
  rw [hp, hp, hp, filter_append]

theorem queueAfter_subset (toFetch : List CommitInfo) (queue : List Nat) :
    queueAfter toFetch queue ⊆ queue := by
  induction toFetch generalizing queue with
  | nil => exact refl queue
  | cons m toFetch ih =>
    cases m with
    | done => exact ih queue
    | squash => exact List.Subset.trans (ih []) (nil_subset queue)

/-- **A new signal** has to cut in what the others leave. -/
theorem arrives_append {m : CommitInfo} :
    ∀ {toFetch : List CommitInfo} {insts : List DynInst} {queue : List Nat},
      Arrives seq next inserted toFetch insts queue →
      Arrives seq next inserted [m] (survivors toFetch insts) (queueAfter toFetch queue) →
      Arrives seq next inserted (toFetch ++ [m]) insts queue := by
  intro toFetch
  induction toFetch with
  | nil => exact fun _ hm => hm
  | cons m' toFetch ih =>
    intro insts queue h hm
    cases m' with
    | done => exact ⟨h.1, h.2.1, h.2.2.1, ih h.2.2.2 hm⟩
    | squash => exact ⟨h.1, h.2.1, h.2.2.1, h.2.2.2.1, ih h.2.2.2.2 hm⟩

theorem Arrives.filter {p : DynInst → Bool} (hs : seq ≤ seq') (hx : next ≤ next')
    (hin : inserted ≤ inserted') (hp : ∀ i : DynInst, i.seqNum ≤ inserted → p i = true) :
    ∀ {toFetch : List CommitInfo} {insts : List DynInst} {queue queue' : List Nat},
      Arrives seq next inserted toFetch insts queue →
      (∀ n ∈ queue', n ∈ queue ∨ seq ≤ n) →
      Arrives seq' next' inserted' toFetch (insts.filter p) queue' := by
  intro toFetch
  induction toFetch with
  | nil => exact fun _ _ => trivial
  | cons m toFetch ih =>
    intro insts queue queue' h hq
    cases m with
    | done doneSeqNum doneBrSeqNum =>
      obtain ⟨hc, hx', hs', hr⟩ := h
      refine ⟨?_, hx'.trans_le hx, hs'.trans_le hs, ?_⟩
      · exact hc.mono (filter_subset_self _) fun n hn =>
          (hq n hn).imp_right hs'.trans_le
      · rw [filter_comm]
        exact ih hr hq
    | squash doneSeqNum doneBrSeqNum mispredictInst =>
      obtain ⟨hc, hx', hs', hna, hr⟩ := h
      refine ⟨?_, hx'.trans_le hx, hs'.trans_le hs, ⟨?_, hna.other⟩, ?_⟩
      · exact hc.mono (filter_subset_self _) fun n hn =>
          (hq n hn).imp_right hs'.trans_le
      · intro m hm hct
        obtain ⟨hme, hsn, hbr, hl⟩ := hna.mispredict m hm hct
        have hpm : p m.inst := hp m.inst (by omega)
        exact ⟨mem_filter.mpr ⟨hme, hpm⟩, hsn, hbr, hl.trans hin⟩
      · rw [filter_comm]
        exact ih hr nofun

theorem Arrives.mono (h : Arrives seq next inserted toFetch insts queue) (hse : seq ≤ seq')
    (hnx : next ≤ next') (hin : inserted ≤ inserted')
    (hq : ∀ n ∈ queue', n ∈ queue ∨ seq ≤ n) :
    Arrives seq' next' inserted' toFetch insts queue' := by
  have hfl := Arrives.filter hse hnx hin (fun _ _ => rfl) h hq
  rwa [filter_true] at hfl

/-- **A new instruction**: a signal on its way is about older ones, or squashes it. -/
theorem Arrives.append (hi : i.seqNum = next) (hs : seq ≤ seq') :
    ∀ {toFetch : List CommitInfo} {insts : List DynInst} {queue queue' : List Nat},
      Arrives seq next inserted toFetch insts queue → queue' ⊆ queue →
      (i.isControl → i.brSeqNum ∈ queue ∨ seq ≤ i.brSeqNum) →
      Arrives seq' (next + 1) inserted toFetch (insts ++ [i]) queue' := by
  intro toFetch
  induction toFetch with
  | nil => exact fun _ _ _ => trivial
  | cons m toFetch ih =>
    intro insts queue queue' h hq hfr
    cases m with
    | done doneSeqNum doneBrSeqNum =>
      obtain ⟨hu, hnx', hs', hr⟩ := h
      have hl : doneSeqNum < i.seqNum := by omega
      refine ⟨?_, by omega, by omega, ?_⟩
      · exact hu.append hq hl fun hc => (hfr hc).elim (hu.queue _) hs'.trans_le
      · rw [filter_append, filter_cons_of_pos (by simpa using hl)]
        exact ih hr hq hfr
    | squash doneSeqNum doneBrSeqNum mispredictInst =>
      obtain ⟨hu, hnx', hs', hna, hr⟩ := h
      have hl : doneSeqNum < i.seqNum := by omega
      refine ⟨?_, by omega, by omega, ⟨?_, hna.other⟩, ?_⟩
      · exact hu.append hq hl fun hc => (hfr hc).elim (hu.queue _) hs'.trans_le
      · intro m hm hct
        exact (hna.mispredict m hm hct).imp_left (mem_append_left _)
      · rw [filter_append, filter_cons_of_neg (by simpa using hl), filter_nil, append_nil]
        exact hr.mono hs (le_succ next) le_rfl fun n hn => .inl hn

/-! ### The invariant -/

variable {s s' : Numbering T H} {e : RobInst}

/-- The instructions that are compared with each other. -/
def around (s : Numbering T H) : List DynInst :=
  s.lastCommited :: (s.rob.map (·.inst) ++ s.insts)

structure Inv (s : Numbering T H) : Prop where
  hist : s.bpred.numbers = (branches s.insts ++ s.queue).reverse
  ordered : Ordered s.around s.queue s.seq s.nextSeqNum
  queueSorted : s.queue.Pairwise (· < ·)
  queue_lt : ∀ n ∈ s.queue, n < s.seq
  brseq_lt : s.brseq < s.seq
  brseq_lt_queue : ∀ n ∈ s.queue, s.brseq < n
  /-- Only a fault is numbered above `brseq`, and nothing is fetched after it. -/
  current : s.status ≠ .TrapPending → ∀ a ∈ s.around, a.brSeqNum ≤ s.brseq
  instsSorted : s.insts.Pairwise (·.seqNum < ·.seqNum)
  robSorted : s.rob.Pairwise (·.inst.seqNum < ·.inst.seqNum)
  rob_pos : ∀ e ∈ s.rob, 0 < e.inst.seqNum
  rob_le : ∀ e ∈ s.rob, e.inst.seqNum ≤ s.insertedSeqNum
  /-- The live part of the reorder buffer is what has come to it and is live. -/
  rob_live : s.live.filter (·.seqNum ≤ s.insertedSeqNum) =
    (s.rob.filter fun e => !e.squashed).map (·.inst)
  inserted_lt : s.insertedSeqNum < s.nextSeqNum
  committed : ∀ i ∈ s.live, s.lastCommited.seqNum < i.seqNum
  arrives : Arrives s.seq s.nextSeqNum s.insertedSeqNum s.toFetch s.insts s.queue

namespace Inv

theorem insts_subset (s : Numbering T H) : s.insts ⊆ s.around := by
  intro i hi
  exact mem_cons_of_mem _ (mem_append_right _ hi)

theorem rob_subset (he : e ∈ s.rob) : e.inst ∈ s.around :=
  mem_cons_of_mem _ (mem_append_left _ (mem_map_of_mem he))

variable {rob : List RobInst} {mispredictInst : Option Mispredict} {corrTarget : Addr}
  {branchTaken : Bool}

theorem around_subset (hro : rob ⊆ s.rob) (hin : insts ⊆ s.insts) :
    (s.lastCommited :: (rob.map (·.inst) ++ insts)) ⊆ s.around := by
  refine cons_subset_cons _ (append_subset.mpr ⟨?_, ?_⟩)
  · exact List.Subset.trans (map_subset _ hro) (subset_append_left _ _)
  · exact List.Subset.trans hin (subset_append_right _ _)

theorem live_subset (s : Numbering T H) : s.live ⊆ s.around :=
  List.Subset.trans (survivors_subset s.toFetch s.insts) (insts_subset s)

theorem sorted (h : s.Inv) : (branches s.insts ++ s.queue).Pairwise (· < ·) :=
  (h.ordered.mono (insts_subset s) (fun _ hn => .inl hn) le_rfl le_rfl).sorted h.instsSorted
    h.queueSorted

theorem lt_seq (h : s.Inv) : ∀ n ∈ branches s.insts ++ s.queue, n < s.seq := by
  intro n hn
  rcases mem_append.mp hn with hn | hn
  · obtain ⟨i, hi, -, rfl⟩ := mem_branches.mp hn
    exact h.ordered.lt_seq i (insts_subset s hi)
  · exact h.queue_lt n hn

theorem start (t : T) (rasSize : Nat) : (start t rasSize : Numbering T H).Inv := by
  have ho : ∀ a ∈ (Numbering.start t rasSize : Numbering T H).around, a = ⟨0, false, 0⟩ := by
    intro a ha
    simpa [around, Numbering.start] using ha
  constructor
  · rfl
  · constructor
    · intro a ha b hb _
      rw [ho a ha, ho b hb]
    · intro a ha b hb _
      rw [ho a ha, ho b hb]
    · intro a ha b hb hab
      rw [ho a ha, ho b hb] at hab
      exact absurd hab (lt_irrefl _)
    · intro a ha
      rw [ho a ha]
      exact Nat.zero_lt_one
    · intro a ha
      rw [ho a ha]
      exact Nat.zero_lt_one
    · exact nofun
  · exact .nil
  · exact nofun
  · exact Nat.zero_lt_one
  · exact nofun
  · intro _ a ha
    rw [ho a ha]
    exact le_rfl
  · exact .nil
  · exact .nil
  · exact nofun
  · exact nofun
  · rfl
  · exact Nat.zero_lt_one
  · exact nofun
  · trivial

/-! ### Fetch -/

/-- **An instruction is fetched** under a number above everything before it. -/
theorem append (h : s.Inv) (u : BPredUnit T H) (queue : List Nat) (brseq seq : Nat)
    (status : NumberingStatus) (c : Bool) (b : Nat)
    (hhi : u.numbers = (branches (s.insts ++ [⟨s.nextSeqNum, c, b⟩]) ++ queue).reverse)
    (hq : queue.Sublist s.queue) (ho : ∀ a ∈ s.around, a.brSeqNum ≤ b)
    (hct : c = true → ∀ a ∈ s.around, a.brSeqNum < b)
    (hfr : c = true → b ∈ s.queue ∨ s.seq ≤ b) (hs : s.seq ≤ seq) (hb : b < seq)
    (hlt : ∀ n ∈ queue, b < n) (hbr : brseq < seq) (hbe : ∀ n ∈ queue, brseq < n)
    (hcu : status ≠ .TrapPending → b ≤ brseq) :
    Inv { s with
      bpred := u, queue := queue, brseq := brseq, seq := seq, status := status
      insts := s.insts ++ [⟨s.nextSeqNum, c, b⟩], nextSeqNum := s.nextSeqNum + 1 } := by
  have hne : ∀ i ∈ survivors s.toFetch [⟨s.nextSeqNum, c, b⟩], i.seqNum = s.nextSeqNum := by
    intro i hi
    rw [mem_singleton.mp (survivors_subset _ _ hi)]
  refine { h with
    hist := hhi
    ordered := ?_
    queueSorted := h.queueSorted.sublist hq
    queue_lt := fun n hn => (h.queue_lt n (hq.subset hn)).trans_le hs
    brseq_lt := hbr
    brseq_lt_queue := hbe
    current := ?_
    instsSorted := ?_
    rob_live := ?_
    inserted_lt := h.inserted_lt.trans (lt_succ_self _)
    committed := ?_
    arrives := Arrives.append (i := ⟨s.nextSeqNum, c, b⟩) rfl hs h.arrives hq.subset hfr }
  · refine h.ordered.append (i := ⟨s.nextSeqNum, c, b⟩) rfl ?_ ho hct hq.subset hlt hs hb
    intro a ha
    simp only [around, mem_cons, mem_append] at ha ⊢
    tauto
  · intro hst a ha
    simp only [around, mem_cons, mem_append, not_mem_nil, or_false] at ha
    have hl : a.brSeqNum ≤ b := by
      rcases ha with rfl | ha | ha | rfl
      · exact ho _ (mem_cons_self)
      · exact ho a (mem_cons_of_mem _ (mem_append_left _ ha))
      · exact ho a (insts_subset s ha)
      · exact le_rfl
    exact hl.trans (hcu hst)
  · rw [pairwise_append]
    refine ⟨h.instsSorted, pairwise_singleton _ _, ?_⟩
    intro i hi j hj
    rw [mem_singleton.mp hj]
    exact h.ordered.lt_next i (insts_subset s hi)
  · simp only [live]
    rw [survivors_append_insts, filter_append]
    have hno : (survivors s.toFetch [⟨s.nextSeqNum, c, b⟩]).filter
        (·.seqNum ≤ s.insertedSeqNum) = [] :=
      filter_le_eq_nil fun i hi => (hne i hi).symm ▸ h.inserted_lt
    rw [hno, append_nil]
    exact h.rob_live
  · intro i hi
    simp only [live] at hi
    rw [survivors_append_insts] at hi
    rcases mem_append.mp hi with hi | hi
    · exact h.committed i hi
    · rw [hne i hi]
      exact h.ordered.lt_next _ mem_cons_self

theorem numbers_predict (h : s.Inv) (p : Prediction) :
    (s.predict d iPred p).bpred.numbers = s.seq :: (branches s.insts ++ s.queue).reverse := by
  unfold predict
  rw [BPredUnit.numbers_predict, h.hist]

theorem pred64_of_lt {m : Nat} (h : m < n) : pred64 n = n - 1 := by
  unfold pred64
  rw [if_neg (by omega)]

theorem numbers_stopped (h : s.Inv) (p : Prediction) :
    ((s.predict d iPred p).bpred.squash d (pred64 s.seq)).numbers =
      (branches s.insts ++ s.queue).reverse := by
  rw [BPredUnit.numbers_squash, h.numbers_predict, pred64_of_lt h.brseq_lt,
    dropWhile_cons_of_pos (by
      have hpos := h.brseq_lt
      simp only [decide_eq_true_eq]
      omega)]
  rw [reverse_dropWhile_gt h.sorted, filter_le_eq_self fun n hn => le_sub_one_of_lt (h.lt_seq n hn)]

theorem addBlock (h : s.Inv) (hst : s.status = .Running) {p : Prediction} {r : Round}
    (hr : r ≠ .lost) : (s.addBlock d iPred p r).Inv := by
  have hc := h.current (by rw [hst]; simp)
  have hl := lt_succ_self s.seq
  cases r with
  | lost => exact absurd rfl hr
  | queued =>
    have hfr : ∀ n ∈ s.queue ++ [s.seq], n ∈ s.queue ∨ s.seq ≤ n := fun n hn =>
      (mem_append.mp hn).imp_right fun hn => (mem_singleton.mp hn).ge
    refine { h with
      hist := ?_
      ordered := h.ordered.mono (refl _) hfr (le_succ _) le_rfl
      queueSorted := pairwise_append.mpr ⟨h.queueSorted, pairwise_singleton _ _, fun n hn => ?_⟩
      queue_lt := forall_mem_append.mpr ⟨fun n hn => (h.queue_lt n hn).trans hl, ?_⟩
      brseq_lt := h.brseq_lt.trans hl
      brseq_lt_queue := forall_mem_append.mpr ⟨h.brseq_lt_queue, ?_⟩
      current := fun _ => hc
      arrives := h.arrives.mono (le_succ _) le_rfl le_rfl hfr }
    · change (s.predict d iPred p).bpred.numbers = _
      rw [h.numbers_predict]
      simp [Numbering.addBlock, predict]
    · exact forall_mem_singleton.mpr (h.queue_lt n hn)
    · exact forall_mem_singleton.mpr hl
    · exact forall_mem_singleton.mpr h.brseq_lt
  | stopped =>
    exact { h with
      hist := h.numbers_stopped p
      ordered := h.ordered.mono (refl _) (fun n hn => .inl hn) (le_succ _) le_rfl
      queue_lt := fun n hn => (h.queue_lt n hn).trans hl
      brseq_lt := h.brseq_lt.trans hl
      current := fun _ => hc
      arrives := h.arrives.mono (le_succ _) le_rfl le_rfl fun n hn => .inl hn }

variable {u : BPredUnit T H} {inst : DynInst}

section

variable (h : s.Inv) {squashInst : Nat} {x : DynInst}

include h

theorem predictHere (hu : u.numbers = (branches s.insts).reverse) (p : Prediction) :
    ({ s with bpred := u, queue := [] }.predictHere d iPred p).Inv := by
  refine h.append (u.predict d iPred { p with seqNum := s.seq }).2.2 [] s.seq (s.seq + 1) s.status
    true s.seq ?_
    (nil_sublist _) ?_ ?_ ?_ (le_succ _) (lt_succ_self _) nofun
    (lt_succ_self _) nofun (fun _ => le_rfl)
  · rw [BPredUnit.numbers_predict, hu]
    simp [branches]
  · exact fun a ha => (h.ordered.lt_seq a ha).le
  · exact fun _ a ha => h.ordered.lt_seq a ha
  · exact fun _ => .inr le_rfl

theorem fetchInst (hst : s.status = .Running) (isControl matchesFront : Bool) (p : Prediction) :
    (s.fetchInst d iPred isControl matchesFront p).Inv := by
  have hcu := h.current (by rw [hst]; simp)
  unfold Numbering.fetchInst
  cases isControl with
  | false =>
    refine h.append s.bpred s.queue s.brseq s.seq s.status false s.brseq ?_ (List.Sublist.refl _) hcu
      nofun nofun le_rfl h.brseq_lt
      h.brseq_lt_queue h.brseq_lt h.brseq_lt_queue (fun _ => le_rfl)
    rw [h.hist]
    simp [branches]
  | true =>
    simp only [Bool.not_true, Bool.false_eq_true, if_false]
    cases hq : s.queue with
    | nil =>
      have hhi : s.bpred.numbers = (branches s.insts).reverse := by
        rw [h.hist, hq, append_nil]
      have hsa : s = { s with bpred := s.bpred, queue := [] } := by rw [← hq]
      rw [hsa]
      exact h.predictHere hhi p
    | cons brseq queue =>
      have hs := h.queueSorted
      rw [hq, pairwise_cons] at hs
      have hm : brseq ∈ s.queue := by
        rw [hq]
        exact mem_cons_self
      simp only
      split
      · refine h.append s.bpred queue brseq s.seq s.status true brseq ?_ ?_ ?_ ?_ (fun _ => .inl hm)
          le_rfl (h.queue_lt brseq hm) hs.1 (h.queue_lt brseq hm) hs.1
          (fun _ => le_rfl)
        · rw [h.hist, hq]
          simp [branches]
        · rw [hq]
          exact sublist_cons_self _ _
        · exact fun a ha => (h.ordered.lt_queue a ha brseq hm).le
        · exact fun _ a ha => h.ordered.lt_queue a ha brseq hm
      · -- The queue is about another path: its records go.
        refine h.predictHere ?_ p
        have hp : 0 < brseq := (zero_le _).trans_lt (h.brseq_lt_queue brseq hm)
        have hct : (branches s.insts ++ s.queue).filter (· ≤ brseq - 1) = branches s.insts := by
          rw [filter_append, filter_le_eq_self, filter_le_eq_nil, append_nil]
          · intro n hn
            rw [hq] at hn
            rcases mem_cons.mp hn with rfl | hn
            · exact sub_one_lt_of_lt hp
            · exact (sub_le _ _).trans_lt (hs.1 n hn)
          · intro n hn
            obtain ⟨i, hi, -, rfl⟩ := mem_branches.mp hn
            exact le_sub_one_of_lt (h.ordered.lt_queue i (insts_subset s hi) brseq hm)
        rw [BPredUnit.numbers_squash, h.hist, reverse_dropWhile_gt h.sorted, pred64_of_lt hp, hct]

/-- **A fault is fetched** while nothing is queued. -/
theorem fetchFault (hq : s.queue = []) : s.fetchFault.Inv := by
  refine h.append s.bpred s.queue s.brseq (s.seq + 1) .TrapPending false s.seq ?_ (List.Sublist.refl _)
    (fun a ha => (h.ordered.lt_seq a ha).le) nofun
    nofun (le_succ _) (lt_succ_self _) ?_
    (h.brseq_lt.trans (lt_succ_self _)) h.brseq_lt_queue (fun hn => absurd rfl hn)
  · rw [h.hist]
    simp [branches]
  · rw [hq]
    exact nofun

theorem resume : Inv { s with status := if s.status = .Squashing then .Running else s.status } := by
  refine { h with current := fun hst => h.current ?_ }
  intro htr
  simp [htr] at hst

/-! ### Squashes arrive -/

theorem squashed (toFetch : List CommitInfo)
    (hhi : u.numbers = (branches (s.insts.filter (·.seqNum ≤ doneSeqNum))).reverse)
    (hli : survivors toFetch (s.insts.filter (·.seqNum ≤ doneSeqNum)) ⊆ s.live)
    (hro : (survivors toFetch (s.insts.filter (·.seqNum ≤ doneSeqNum))).filter
      (·.seqNum ≤ s.insertedSeqNum) = s.live.filter (·.seqNum ≤ s.insertedSeqNum))
    (harr : Arrives (s.seq + 1) s.nextSeqNum s.insertedSeqNum toFetch
      (s.insts.filter (·.seqNum ≤ doneSeqNum)) []) :
    Inv { s.doSquash doneSeqNum with bpred := u, toFetch := toFetch } := by
  have har : (s.doSquash doneSeqNum).around ⊆ s.around :=
    around_subset (s := s) (refl _) (filter_subset_self _)
  refine { h with
    hist := ?_
    ordered := h.ordered.mono har nofun (le_succ _) le_rfl
    queueSorted := .nil
    queue_lt := nofun
    brseq_lt := lt_succ_self _
    brseq_lt_queue := nofun
    current := fun _ a ha => (h.ordered.lt_seq a (har ha)).le
    instsSorted := h.instsSorted.filter _
    rob_live := hro.trans h.rob_live
    committed := fun i hi => h.committed i (hli hi)
    arrives := harr }
  rw [hhi]
  simp [doSquash]

theorem dropWhile_numbers (hcu : Cut s.insts s.queue doneSeqNum doneBrSeqNum) :
    s.bpred.numbers.dropWhile (doneBrSeqNum < ·) =
      (branches (s.insts.filter (·.seqNum ≤ doneSeqNum))).reverse := by
  rw [h.hist, reverse_dropWhile_gt h.sorted, hcu.filter_le]

theorem numbers_squashBPred (hcu : Cut s.insts s.queue doneSeqNum doneBrSeqNum)
    (hn : Named s.insts s.insertedSeqNum doneSeqNum doneBrSeqNum mispredictInst)
    (ho : squashBPred d s.bpred doneBrSeqNum mispredictInst = .ok u) :
    u.numbers = (branches (s.insts.filter (·.seqNum ≤ doneSeqNum))).reverse := by
  rw [← h.dropWhile_numbers hcu]
  unfold squashBPred at ho
  split at ho
  · next m =>
    split at ho
    · exact BPredUnit.numbers_correct ho
    · next hct =>
      have hp := hn.other (by simpa using hct)
      cases ho
      rw [if_pos hp, BPredUnit.numbers_squash]
  · have hp := hn.other (by simp)
    cases ho
    rw [if_pos hp, BPredUnit.numbers_squash]

theorem checkSignals (ho : s.checkSignals d = .ok s') : s'.Inv := by
  unfold Numbering.checkSignals at ho
  have har := h.arrives
  have hl : s.live = survivors s.toFetch s.insts := rfl
  split at ho
  · cases ho
    exact h
  · next doneSeqNum doneBrSeqNum toFetch ht =>
    cases ho
    rw [ht] at har hl
    obtain ⟨hc, -, -, hr⟩ := har
    have hao : (s.lastCommited :: (s.rob.map (·.inst) ++
        s.insts.filter (doneSeqNum < ·.seqNum))) ⊆ s.around :=
      around_subset (refl _) (filter_subset_self _)
    have hro := h.rob_live
    have hco := h.committed
    rw [hl] at hro hco
    refine { h with
      hist := ?_
      ordered := h.ordered.mono hao (fun n hn => .inl hn) le_rfl le_rfl
      current := fun hst a ha => h.current hst a (hao ha)
      instsSorted := h.instsSorted.filter _
      rob_live := hro
      committed := hco
      arrives := hr }
    rw [BPredUnit.numbers_update, h.hist, reverse_reverse, dropWhile_le h.sorted, hc.filter_lt]
  · next doneSeqNum doneBrSeqNum mispredictInst toFetch ht =>
    split at ho
    · cases ho
    · next u hu =>
      cases ho
      rw [ht] at har hl
      obtain ⟨hc, -, -, hna, hr⟩ := har
      refine h.squashed toFetch (h.numbers_squashBPred hc hna hu) ?_ ?_
        (hr.mono (le_succ _) le_rfl le_rfl fun n hn => .inl hn)
      · rw [hl]
        exact refl _
      · rw [hl]
        rfl

theorem decodeSquash (hpr : s.pre (.decodeSquash inst corrTarget branchTaken))
    (ho : s.decodeSquash d inst corrTarget branchTaken = .ok s') : s'.Inv := by
  obtain ⟨hme, -, hins⟩ := hpr
  have hcu : Cut s.insts s.queue inst.seqNum inst.brSeqNum :=
    h.ordered.cut (insts_subset s) (insts_subset s hme) (refl _)
  unfold Numbering.decodeSquash at ho
  split at ho
  · cases ho
  · next u hu =>
    cases ho
    refine h.squashed s.toFetch ?_ ?_ ?_ ?_
    · rw [BPredUnit.numbers_correct hu, h.dropWhile_numbers hcu]
    · rw [survivors_filter]
      exact filter_subset_self _
    · rw [survivors_filter, filter_filter]
      refine filter_congr fun i _ => ?_
      simp only [← Bool.decide_and, decide_eq_decide]
      omega
    · refine h.arrives.filter (le_succ _) le_rfl le_rfl ?_ nofun
      intro i hi
      simp only [decide_eq_true_eq]
      omega

/-! ### Commit -/

theorem live_sorted : s.live.Pairwise (·.seqNum < ·.seqNum) :=
  h.instsSorted.sublist (survivors_sublist s.toFetch s.insts)

theorem mem_rob (hi : i ∈ s.live) (hl : i.seqNum ≤ s.insertedSeqNum) : ⟨i, false⟩ ∈ s.rob := by
  have hm : i ∈ s.live.filter (·.seqNum ≤ s.insertedSeqNum) :=
    mem_filter.mpr ⟨hi, by simpa using hl⟩
  rw [h.rob_live] at hm
  obtain ⟨e, he, rfl⟩ := mem_map.mp hm
  obtain ⟨he, hsq⟩ := mem_filter.mp he
  have heq : e.squashed = false := by simpa using hsq
  rw [← heq]
  exact he

theorem mem_live (hi : ⟨i, false⟩ ∈ s.rob) : i ∈ s.live := by
  have hm : i ∈ (s.rob.filter fun e => !e.squashed).map (·.inst) :=
    mem_map.mpr ⟨⟨i, false⟩, mem_filter.mpr ⟨hi, rfl⟩, rfl⟩
  rw [← h.rob_live] at hm
  exact (mem_filter.mp hm).1

/-- **Commit squashes**, at a place where instructions and numbers agree. -/
theorem commitSquash {squashedInst : Nat}
    (hcu : Cut s.live (queueAfter s.toFetch s.queue) squashedInst doneBrSeqNum)
    (hnx : squashedInst < s.nextSeqNum) (hse : doneBrSeqNum < s.seq)
    (hna : Named s.live s.insertedSeqNum squashedInst doneBrSeqNum mispredictInst) :
    (s.commitSquash squashedInst doneBrSeqNum mispredictInst).Inv := by
  have hl : (s.commitSquash squashedInst doneBrSeqNum mispredictInst).live =
      s.live.filter (·.seqNum ≤ squashedInst) := survivors_append _ _ _
  have har : (s.commitSquash squashedInst doneBrSeqNum mispredictInst).around = s.around := by
    simp [around, Numbering.commitSquash]
  have hor := h.ordered
  have hc := h.current
  rw [← har] at hor hc
  refine { h with
    ordered := hor
    current := hc
    robSorted := pairwise_map.mpr h.robSorted
    rob_pos := forall_mem_map.mpr h.rob_pos
    rob_le := forall_mem_map.mpr h.rob_le
    rob_live := ?_
    committed := fun i hi => h.committed i (mem_filter.mp (hl ▸ hi)).1
    arrives := arrives_append h.arrives ⟨hcu, hnx, hse, hna, trivial⟩ }
  · rw [hl, filter_comm]
    change (s.live.filter (·.seqNum ≤ s.insertedSeqNum)).filter _ = _
    rw [h.rob_live]
    simp only [Numbering.commitSquash, filter_map, map_map, filter_filter]
    congr 1
    refine filter_congr fun e _ => ?_
    simp only [Function.comp_apply, Bool.not_or, ← decide_not, not_lt, Bool.and_comm]

theorem head_le (hr : s.rob = e :: rob) : ∀ i ∈ s.live, e.inst.seqNum ≤ i.seqNum := by
  intro i hi
  have hs := h.robSorted
  have hl := h.rob_le e (by rw [hr]; exact mem_cons_self)
  rw [hr, pairwise_cons] at hs
  rcases le_or_gt i.seqNum s.insertedSeqNum with hin | hou
  · have hm := h.mem_rob hi hin
    rw [hr] at hm
    rcases mem_cons.mp hm with heq | hm
    · rw [← heq]
    · exact (hs.1 _ hm).le
  · exact hl.trans hou.le

/-- The trap of an instruction numbered from 2 on, or after one. -/
theorem squashAll (hhd : ∀ e ∈ s.rob.head?, 2 ≤ e.inst.brSeqNum)
    (hem : s.rob = [] → 1 ≤ s.lastCommited.brSeqNum) : s.squashAll.Inv := by
  unfold Numbering.squashAll
  have hq := queueAfter_subset s.toFetch s.queue
  split
  · next hni =>
    have hm : s.lastCommited ∈ s.around := mem_cons_self
    refine h.commitSquash (h.ordered.cut (live_subset s) hm hq)
      (h.ordered.lt_next _ hm) (h.ordered.lt_seq _ hm) ⟨nofun, ?_⟩
    exact fun _ => hem hni
  · next e rob hr =>
    have he : e ∈ s.rob := by
      rw [hr]
      exact mem_cons_self
    have hm : e.inst ∈ s.around := rob_subset he
    have hpo := h.rob_pos e he
    have hbr : 2 ≤ e.inst.brSeqNum := hhd e (by rw [hr]; rfl)
    have hlt := h.ordered.lt_next _ hm
    have hseq := h.ordered.lt_seq _ hm
    rw [pred64_of_lt hpo, pred64_of_lt hbr]
    refine h.commitSquash ⟨?_, ?_⟩ (by omega) (by omega) ⟨nofun, ?_⟩
    · intro i hi _
      have hg := h.head_le hr i hi
      have hbrl : e.inst.brSeqNum ≤ i.brSeqNum := by
        rcases hg.eq_or_lt with heq | hlt
        · rw [h.ordered.unique _ hm i (live_subset s hi) heq]
        · exact h.ordered.le _ hm i (live_subset s hi) hlt
      omega
    · intro n hn
      have hbel := h.ordered.lt_queue _ hm n (hq hn)
      omega
    · exact fun _ => by omega

omit h in
/-- **`findInst` finds** the last entry not younger than `squashInst`. -/
theorem findInst_spec :
    ∀ {rob : List RobInst} {last : Option DynInst}, rob.Pairwise (·.inst.seqNum < ·.inst.seqNum) →
      (∀ y ∈ last, y.seqNum < squashInst ∧ ∀ e ∈ rob, y.seqNum < e.inst.seqNum) →
      findInst squashInst last rob = some x →
      (x ∈ last ∨ ∃ e ∈ rob, e.inst = x) ∧ x.seqNum ≤ squashInst ∧
        ∀ e ∈ rob, e.inst.seqNum ≤ squashInst → e.inst.seqNum ≤ x.seqNum := by
  intro rob
  induction rob with
  | nil => exact nofun
  | cons e rob ih =>
    intro last hs hla hf
    obtain ⟨hhd, hs⟩ := pairwise_cons.mp hs
    unfold findInst at hf
    split at hf
    · next heq =>
      cases hf
      refine ⟨.inr ⟨e, mem_cons_self, rfl⟩, heq.le, ?_⟩
      intro e' he' hl
      exact hl.trans heq.ge
    · next hne =>
      split at hf
      · next hlt =>
        obtain ⟨hm, hl, hlr⟩ := ih hs (by
          intro y hy
          cases hy
          exact ⟨hlt, hhd⟩) hf
        refine ⟨.inr ?_, hl, ?_⟩
        · rcases hm with hm | ⟨e', he', rfl⟩
          · cases hm
            exact ⟨e, mem_cons_self, rfl⟩
          · exact ⟨e', mem_cons_of_mem _ he', rfl⟩
        · intro e' he' hl'
          rcases mem_cons.mp he' with rfl | he'
          · rcases hm with hm | ⟨e', he', rfl⟩
            · cases hm
              exact le_rfl
            · exact (hhd e' he').le
          · exact hlr e' he' hl'
      · next hge =>
        have hx := hla x hf
        refine ⟨.inl hf, hx.1.le, ?_⟩
        intro e' he' hl'
        rcases mem_cons.mp he' with rfl | he'
        · omega
        · have hgt := hhd e' he'
          omega

theorem findInst_cut (hl : squashInst ≤ s.insertedSeqNum)
    (hf : findInst squashInst none s.rob = some x) :
    x ∈ s.around ∧ Cut s.live (queueAfter s.toFetch s.queue) squashInst x.brSeqNum := by
  obtain ⟨hme, hxl, hla⟩ := findInst_spec h.robSorted (by simp) hf
  obtain ⟨e, he, rfl⟩ := hme.resolve_left (by simp)
  have har := rob_subset he
  have hc : Cut s.live (queueAfter s.toFetch s.queue) e.inst.seqNum e.inst.brSeqNum :=
    h.ordered.cut (live_subset s) har (queueAfter_subset _ _)
  refine ⟨har, ⟨fun i hi hct => ?_, hc.queue⟩⟩
  rw [← hc.insts i hi hct]
  constructor
  · exact fun hi' => hla _ (h.mem_rob hi (hi'.trans hl)) hi'
  · exact fun hi' => hi'.trans hxl

theorem squashDueToBranch (hp : ⟨inst, false⟩ ∈ s.rob) (hpo : inst.isControl ∨ 1 ≤ inst.brSeqNum)
    (ho : s.squashDueToBranch inst corrTarget branchTaken = .ok s') : s'.Inv := by
  have hl := h.rob_le _ hp
  have hme := rob_subset hp
  unfold Numbering.squashDueToBranch at ho
  split at ho
  · cases ho
  · next x hf =>
    cases ho
    obtain ⟨hx, hxl, hla⟩ := findInst_spec h.robSorted (by simp) hf
    obtain ⟨hxm, hcu⟩ := h.findInst_cut hl hf
    have hxi : x = inst := h.ordered.unique x hxm inst hme (le_antisymm hxl (hla _ hp le_rfl))
    subst hxi
    refine h.commitSquash hcu (h.ordered.lt_next _ hme) (h.ordered.lt_seq _ hme) ⟨?_, ?_⟩
    · intro m hm _
      cases hm
      exact ⟨h.mem_live hp, rfl, rfl, hl⟩
    · intro hot
      have hct : x.isControl = false := hot _ rfl
      exact hpo.resolve_left (by simp [hct])

theorem squashDueToMemOrder (hpr : ⟨inst, false⟩ ∈ s.rob)
    (hp : ∀ x ∈ findInst (pred64 inst.seqNum) none s.rob, 1 ≤ x.brSeqNum)
    (ho : s.squashDueToMemOrder inst = .ok s') : s'.Inv := by
  have hle : inst.seqNum ≤ s.insertedSeqNum := h.rob_le _ hpr
  have hlt : inst.seqNum < s.nextSeqNum := h.ordered.lt_next _ (rob_subset hpr)
  have hin : 0 < inst.seqNum := h.rob_pos _ hpr
  unfold Numbering.squashDueToMemOrder at ho
  rw [pred64_of_lt hin] at ho hp
  split at ho
  · cases ho
  · next x hf =>
    cases ho
    obtain ⟨hxm, hcu⟩ := h.findInst_cut (by omega) hf
    refine h.commitSquash hcu (by omega) (h.ordered.lt_seq _ hxm) ⟨nofun, fun _ => hp x hf⟩

theorem insertInst (hpr : s.pre (.insertInst inst)) :
    Inv { s with rob := s.rob ++ [⟨inst, false⟩], insertedSeqNum := inst.seqNum } := by
  obtain ⟨hlt, older, younger, hl, hsk⟩ := find?_eq_some_iff_append.mp hpr
  have hg : s.insertedSeqNum < inst.seqNum := by simpa using hlt
  have hm : inst ∈ s.live := by
    rw [hl]
    simp
  have hs := h.live_sorted
  rw [hl, pairwise_append, pairwise_cons] at hs
  have holder : ∀ i ∈ older, i.seqNum ≤ s.insertedSeqNum := by
    intro i hi
    simpa using hsk i hi
  have hy := filter_le_eq_nil hs.2.1.1
  have hy' : younger.filter (·.seqNum ≤ s.insertedSeqNum) = [] :=
    filter_le_eq_nil fun i hi => hg.trans (hs.2.1.1 i hi)
  have har : around { s with
      rob := s.rob ++ [⟨inst, false⟩], insertedSeqNum := inst.seqNum } ⊆ s.around := by
    intro a ha
    have hin : inst ∈ s.insts := survivors_subset _ _ hm
    simp only [around, map_append, map_cons, map_nil, mem_cons,
      mem_append, not_mem_nil, or_false] at ha ⊢
    rcases ha with ha | (ha | rfl) | ha
    · exact .inl ha
    · exact .inr (.inl ha)
    · exact .inr (.inr hin)
    · exact .inr (.inr ha)
  refine { h with
    ordered := h.ordered.mono har (fun _ hn => .inl hn) le_rfl le_rfl
    current := fun hst a ha => h.current hst a (har ha)
    robSorted := pairwise_append.mpr ⟨h.robSorted, pairwise_singleton _ _, fun e he =>
      forall_mem_singleton.mpr ((h.rob_le e he).trans_lt hg)⟩
    rob_pos := forall_mem_append.mpr ⟨h.rob_pos, forall_mem_singleton.mpr ((zero_le _).trans_lt hg)⟩
    rob_le := forall_mem_append.mpr
      ⟨fun e he => (h.rob_le e he).trans hg.le, forall_mem_singleton.mpr le_rfl⟩
    rob_live := ?_
    inserted_lt := h.ordered.lt_next _ (live_subset s hm)
    arrives := h.arrives.mono le_rfl le_rfl hg.le fun n hn => .inl hn }
  have hr := h.rob_live
  change s.live.filter _ = _
  rw [hl, filter_append, filter_cons_of_neg (by simpa using hg), hy',
    append_nil, filter_le_eq_self holder] at hr
  rw [hl, filter_append, filter_cons_of_pos (by simp), hy,
    filter_le_eq_self fun i hi => (holder i hi).trans hg.le, hr]
  simp

theorem retireSquashed (hpr : s.pre .retireSquashed) : Inv { s with rob := s.rob.tail } := by
  rw [← drop_one]
  have hs := drop_sublist 1 s.rob
  have har := around_subset hs.subset (refl s.insts)
  refine { h with
    ordered := h.ordered.mono har (fun _ hn => .inl hn) le_rfl le_rfl
    current := fun hst a ha => h.current hst a (har ha)
    robSorted := h.robSorted.sublist hs
    rob_pos := fun e he => h.rob_pos e (hs.subset he)
    rob_le := fun e he => h.rob_le e (hs.subset he)
    rob_live := h.rob_live.trans ?_ }
  cases hro : s.rob with
  | nil => rfl
  | cons e rob =>
    have hsq : e.squashed := hpr e (by rw [hro]; rfl)
    rw [filter_cons_of_neg (by simp [hsq])]
    rfl

theorem filter_rob (hn : n < s.rob.length) (p : RobInst → Bool) :
    (s.rob.filter p).filter (s.rob[n].inst.seqNum < ·.inst.seqNum) =
      (s.rob.drop (n + 1)).filter p := by
  have hs : s.rob = s.rob.take n ++ s.rob[n] :: s.rob.drop (n + 1) := by
    rw [← drop_eq_getElem_cons hn, take_append_drop]
  generalize s.rob[n] = e at hs ⊢
  generalize s.rob.take n = older at hs
  generalize s.rob.drop (n + 1) = younger at hs ⊢
  have hso := h.robSorted
  rw [hs, pairwise_append, pairwise_cons] at hso
  have holder : older.filter (e.inst.seqNum < ·.inst.seqNum) = [] := by
    rw [filter_eq_nil_iff]
    intro e' he'
    have hlt := hso.2.2 e' he' e mem_cons_self
    simp only [decide_eq_true_eq]
    omega
  have hyo : younger.filter (e.inst.seqNum < ·.inst.seqNum) = younger := by
    rw [filter_eq_self]
    intro e' he'
    simpa using hso.2.1.1 e' he'
  rw [filter_comm, hs, filter_append, filter_cons_of_neg (by simp), holder, hyo, nil_append]

theorem commitInsts (hpr : s.pre (.commitInsts n)) : (s.commitInsts n).Inv := by
  obtain ⟨hl, huns⟩ := hpr
  unfold Numbering.commitInsts
  rw [getElem?_eq_getElem hl]
  set e := s.rob[n] with he
  have hme : e ∈ s.rob := getElem_mem hl
  have hs := drop_sublist (n + 1) s.rob
  have hr' := around_subset hs.subset (refl s.insts)
  have hin := rob_subset hme
  have hr : (e.inst :: ((s.rob.drop (n + 1)).map (·.inst) ++ s.insts)) ⊆ s.around := by
    refine cons_subset.mpr ⟨hin, ?_⟩
    exact List.Subset.trans (subset_cons_self _ _) hr'
  have hli : survivors (s.toFetch ++ [.done e.inst.seqNum e.inst.brSeqNum]) s.insts =
      s.live.filter (e.inst.seqNum < ·.seqNum) := survivors_append _ _ _
  refine { h with
    ordered := h.ordered.mono hr (fun _ hn => .inl hn) le_rfl le_rfl
    current := fun hst a ha => h.current hst a (hr ha)
    robSorted := h.robSorted.sublist hs
    rob_pos := fun e he => h.rob_pos e (hs.subset he)
    rob_le := fun e he => h.rob_le e (hs.subset he)
    rob_live := ?_
    committed := ?_
    arrives := ?_ }
  · change (survivors _ s.insts).filter _ = _
    rw [hli, filter_comm, h.rob_live, filter_map]
    congr 1
    exact h.filter_rob hl _
  · intro i hi
    have hi' : i ∈ s.live.filter (e.inst.seqNum < ·.seqNum) := by
      rw [← hli]
      exact hi
    simpa using (mem_filter.mp hi').2
  · refine arrives_append h.arrives ⟨?_, h.ordered.lt_next _ hin, h.ordered.lt_seq _ hin, trivial⟩
    exact h.ordered.cut (live_subset s) hin (queueAfter_subset _ _)

/-- **A correction finds its own record at the front**, where it replaces the outcome. -/
theorem exists_correct (hm : inst ∈ s.insts) (hct : inst.isControl)
    (corrTarget : Addr) (branchTaken : Bool) :
    ∃ u, s.bpred.correct d inst.brSeqNum corrTarget branchTaken = .ok u ∧
      u.numbers.head? = some inst.brSeqNum := by
  have hc : Cut s.insts s.queue inst.seqNum inst.brSeqNum :=
    h.ordered.cut (insts_subset s) (insts_subset s hm) (refl _)
  have hfl := hc.filter_le
  have hnu := h.dropWhile_numbers hc
  have hs := h.sorted.filter (· ≤ inst.brSeqNum)
  rw [hfl] at hs
  -- The branch itself is the last one the cut leaves.
  have hl : (branches (s.insts.filter (·.seqNum ≤ inst.seqNum))).getLast? = some inst.brSeqNum := by
    refine getLast?_eq_of_sorted hs ?_ ?_
    · exact mem_branches.mpr ⟨inst, mem_filter.mpr ⟨hm, by simp⟩, hct, rfl⟩
    · intro n hn
      rw [← hfl] at hn
      simpa using (mem_filter.mp hn).2
  have hhd : (s.bpred.numbers.dropWhile (inst.brSeqNum < ·)).head? = some inst.brSeqNum := by
    rw [hnu, head?_reverse, hl]
  obtain ⟨u, hu⟩ := BPredUnit.exists_correct corrTarget branchTaken hhd
  refine ⟨u, hu, ?_⟩
  rw [BPredUnit.numbers_correct hu, hhd]

end

end Inv

/-! ### Runs -/

theorem Inv.step (h : s.Inv) {a : NumberingCall} (hp : s.pre a) (hn : s.Numbered a)
    (ho : s.step d iPred a = .ok s') : s'.Inv := by
  cases a with
  | addBlock p r =>
    cases ho
    exact h.addBlock hp hn
  | fetchInst isControl matchesFront p =>
    cases ho
    exact h.fetchInst hp isControl matchesFront p
  | fetchFault =>
    cases ho
    exact h.fetchFault hn
  | resume =>
    cases ho
    exact h.resume
  | checkSignals => exact h.checkSignals ho
  | decodeSquash inst corrTarget branchTaken => exact h.decodeSquash hp ho
  | insertInst inst =>
    cases ho
    exact h.insertInst hp
  | commitInsts n =>
    cases ho
    exact h.commitInsts hp
  | retireSquashed =>
    cases ho
    exact h.retireSquashed hp
  | squashAll =>
    cases ho
    exact h.squashAll hn.1 hn.2
  | squashDueToBranch inst corrTarget branchTaken =>
    exact h.squashDueToBranch hp hn ho
  | squashDueToMemOrder inst => exact h.squashDueToMemOrder hp hn ho

theorem inv_of_reachable (h : ((system d iPred).restrict Numbered).Reachable s) : s.Inv := by
  refine h.invariant Inv ?_ ?_
  · rintro s ⟨t, rasSize, rfl⟩
    exact Inv.start t rasSize
  · rintro s a s' hs ⟨hpr, hnu⟩ hok
    exact hs.step hpr hnu hok

/-- **The records match the pipeline**: they decrease from the front, each branch owns one, and
the others are queued. -/
structure Matches (s : Numbering T H) : Prop where
  decreasing : s.bpred.numbers.Pairwise (· > ·)
  owns : ∀ i ∈ s.insts, i.isControl → s.bpred.numbers.count i.brSeqNum = 1
  unshared : ∀ i ∈ s.insts, ∀ j ∈ s.insts, i.isControl → j.isControl →
    i.brSeqNum = j.brSeqNum → i = j
  other : ∀ n ∈ s.bpred.numbers, (∀ i ∈ s.insts, i.isControl → i.brSeqNum ≠ n) → n ∈ s.queue

/-- **A squash from commit is clean**: no record of a squashed branch remains, and a mispredicted
branch finds its own at the front. -/
def SquashesCleanly (d : DirectionPredictor T H) (s : Numbering T H) : Prop :=
  ∀ doneSeqNum doneBrSeqNum mispredictInst toFetch,
    s.toFetch = .squash doneSeqNum doneBrSeqNum mispredictInst :: toFetch →
    ∃ s', s.checkSignals d = .ok s' ∧
      (∀ i ∈ s.insts, i.isControl → doneSeqNum < i.seqNum → i.brSeqNum ∉ s'.bpred.numbers) ∧
      ∀ m ∈ mispredictInst, m.inst.isControl → s'.bpred.numbers.head? = some m.inst.brSeqNum

theorem Inv.matches_pipeline (h : s.Inv) : s.Matches := by
  have hd : s.bpred.numbers.Pairwise (· > ·) := by
    rw [h.hist, pairwise_reverse]
    exact h.sorted
  have hm : ∀ n, n ∈ s.bpred.numbers ↔ n ∈ branches s.insts ∨ n ∈ s.queue := by
    intro n
    rw [h.hist, mem_reverse, mem_append]
  refine ⟨hd, ?_, ?_, ?_⟩
  · intro i hi hct
    refine count_eq_one_of_mem (hd.imp fun hab => hab.ne') ?_
    exact (hm _).mpr (.inl (mem_branches.mpr ⟨i, hi, hct, rfl⟩))
  · intro i hi j hj hco hcn he
    have hi' := Inv.insts_subset s hi
    have hj' := Inv.insts_subset s hj
    rcases lt_trichotomy i.seqNum j.seqNum with hlt | hsa | hgt
    · exact absurd he (h.ordered.lt i hi' j hj' hlt hcn).ne
    · exact h.ordered.unique i hi' j hj' hsa
    · exact absurd he.symm (h.ordered.lt j hj' i hi' hgt hco).ne
  · intro n hn hno
    refine ((hm n).mp hn).resolve_left fun hbr => ?_
    obtain ⟨i, hi, hct, he⟩ := mem_branches.mp hbr
    exact hno i hi hct he

theorem Inv.exists_squashBPred (h : s.Inv) {mispredictInst : Option Mispredict}
    (hna : Named s.insts s.insertedSeqNum doneSeqNum doneBrSeqNum mispredictInst) :
    ∃ u, squashBPred d s.bpred doneBrSeqNum mispredictInst = .ok u ∧
      ∀ m ∈ mispredictInst, m.inst.isControl → u.numbers.head? = some m.inst.brSeqNum := by
  cases mispredictInst with
  | none => exact ⟨_, rfl, nofun⟩
  | some m =>
    cases hc : m.inst.isControl with
    | false =>
      refine ⟨if 0 < doneBrSeqNum then s.bpred.squash d doneBrSeqNum else s.bpred, ?_, ?_⟩
      · simp [squashBPred, hc]
      · intro m' hm' hc'
        cases hm'
        rw [hc] at hc'
        exact (nomatch hc')
    | true =>
      obtain ⟨hme, -, hbr, -⟩ := hna.mispredict m rfl hc
      obtain ⟨u, hu, hhd⟩ := h.exists_correct (d := d) hme hc m.corrTarget m.branchTaken
      refine ⟨u, ?_, ?_⟩
      · simp only [squashBPred, hc, if_true, ← hbr, hu]
      · intro m' hm' _
        cases hm'
        exact hhd

theorem Inv.squashesCleanly (h : s.Inv) : s.SquashesCleanly d := by
  intro doneSeqNum doneBrSeqNum mispredictInst toFetch ht
  have har := h.arrives
  rw [ht] at har
  obtain ⟨hcu, -, -, hn, -⟩ := har
  obtain ⟨u, hu, hhd⟩ := h.exists_squashBPred (d := d) hn
  have hnu := h.numbers_squashBPred hcu hn hu
  refine ⟨{ s.doSquash doneSeqNum with bpred := u, toFetch := toFetch }, ?_, ?_, hhd⟩
  · simp only [Numbering.checkSignals, ht, hu]
  · intro i hi hct hlt hm
    rw [hnu, mem_reverse] at hm
    obtain ⟨j, hj, hco, heq⟩ := mem_branches.mp hm
    obtain ⟨hj, hl⟩ := mem_filter.mp hj
    rw [h.matches_pipeline.unshared j hj i hi hco hct heq] at hl
    simp only [decide_eq_true_eq] at hl
    omega

/-- **The branch history matches the pipeline**, in every run whose squashes name numbers above
0 and whose translation faults find nothing queued. -/
theorem predHist_matches_of_numbered (h : ((system d iPred).restrict Numbered).Reachable s) :
    s.Matches ∧ s.SquashesCleanly d ∧
      ∀ inst corrTarget branchTaken, s.pre (.decodeSquash inst corrTarget branchTaken) →
        ∃ s', s.decodeSquash d inst corrTarget branchTaken = .ok s' ∧
          s'.bpred.numbers.head? = some inst.brSeqNum := by
  have hin := inv_of_reachable h
  refine ⟨hin.matches_pipeline, hin.squashesCleanly, ?_⟩
  rintro inst corrTarget branchTaken ⟨hme, hct, -⟩
  obtain ⟨u, hu, hhd⟩ := hin.exists_correct (d := d) hme hct corrTarget branchTaken
  refine ⟨{ s.doSquash inst.seqNum with bpred := u }, ?_, hhd⟩
  simp only [decodeSquash, hu]

def branchAt (pc : Addr) : Prediction := .plain 0 pc false false false

/-- A mispredicted branch, with one fetched after it and one predicted ahead. -/
theorem predHist_matches_mispredict :
    ∃ s s' : Numbering Unit Unit,
      ((system neverTaken false).restrict Numbered).Reachable s ∧ s.bpred.numbers = [3, 2, 1] ∧
      s.Matches ∧ s.checkSignals neverTaken = .ok s' ∧ s'.bpred.numbers.head? = some 1 := by
  have hst : ((system neverTaken false).restrict Numbered).Reachable (start () 4) :=
    .start ⟨(), 4, rfl⟩
  obtain ⟨s, hs, hnu, hto⟩ := hst.exists_of_leads (p := fun s => s.bpred.numbers = [3, 2, 1] ∧
      s.toFetch = [.squash 1 1 (some ⟨⟨1, true, 1⟩, 0x900#64, true⟩)])
    [.fetchInst true false (branchAt 0x100#64), .fetchInst true false (branchAt 0x104#64),
      .addBlock (branchAt 0x200#64) .queued, .insertInst ⟨1, true, 1⟩,
      .squashDueToBranch ⟨1, true, 1⟩ 0x900#64 true] (by decide +kernel)
  obtain ⟨hma, hcl, -⟩ := predHist_matches_of_numbered hs
  obtain ⟨s', hok, -, hhd⟩ := hcl _ _ _ _ hto
  exact ⟨s, s', hs, hnu, hma, hok, hhd _ rfl rfl⟩

/-- **A record outlives its branch.** An order violation before the first branch names the number
0, which squashes nothing. A translation fault is numbered above the queue, so its trap drops the
queue and keeps the records. -/
theorem not_predHist_matches_zeroAndFault :
    (∃ s : Numbering Unit Unit, (system neverTaken false).Reachable s ∧
      s.insts = [⟨1, false, 0⟩] ∧ s.queue = [] ∧ s.bpred.numbers = [1] ∧ ¬ s.Matches) ∧
    ∃ s : Numbering Unit Unit, (system neverTaken false).Reachable s ∧
      s.insts = [] ∧ s.queue = [] ∧ s.bpred.numbers = [1] ∧ ¬ s.Matches := by
  have hst : (system neverTaken false).Reachable (start () 4) := .start ⟨(), 4, rfl⟩
  constructor
  · obtain ⟨s, hs, hi, hq, hn⟩ := hst.exists_of_leads
      (p := fun s => s.insts = [⟨1, false, 0⟩] ∧ s.queue = [] ∧ s.bpred.numbers = [1])
      [.fetchInst false false (branchAt 0#64), .fetchInst false false (branchAt 0#64),
        .fetchInst true false (branchAt 0x108#64), .insertInst ⟨1, false, 0⟩,
        .insertInst ⟨2, false, 0⟩, .squashDueToMemOrder ⟨2, false, 0⟩, .checkSignals]
      (by decide +kernel)
    refine ⟨s, hs, hi, hq, hn, fun hma => ?_⟩
    have hm := hma.other 1 (by simp [hn]) (by simp [hi])
    rw [hq] at hm
    exact (nomatch hm)
  · obtain ⟨s, hs, hi, hq, hn⟩ := hst.exists_of_leads
      (p := fun s => s.insts = [] ∧ s.queue = [] ∧ s.bpred.numbers = [1])
      [.addBlock (branchAt 0x200#64) .queued, .fetchFault, .insertInst ⟨1, false, 2⟩,
        .squashAll, .checkSignals] (by decide +kernel)
    refine ⟨s, hs, hi, hq, hn, fun hma => ?_⟩
    have hm := hma.other 1 (by simp [hn]) (by simp [hi])
    rw [hq] at hm
    exact (nomatch hm)

/-- **The reorder buffer is in program order**, in the same runs. Its live part is what came to it
and is neither committed nor squashed, also while signals are on their way, and is younger than
what is committed. -/
theorem rob_in_order (h : ((system d iPred).restrict Numbered).Reachable s) :
    s.rob.Pairwise (·.inst.seqNum < ·.inst.seqNum) ∧
      (s.rob.filter fun e => !e.squashed).map (·.inst) =
        s.live.filter (·.seqNum ≤ s.insertedSeqNum) ∧
      ∀ e ∈ s.rob, e.squashed = false → s.lastCommited.seqNum < e.inst.seqNum := by
  have hin := inv_of_reachable h
  refine ⟨hin.robSorted, hin.rob_live.symm, fun e he hsq => ?_⟩
  have hme : e.inst ∈ (s.rob.filter fun e => !e.squashed).map (·.inst) :=
    mem_map_of_mem (mem_filter.mpr ⟨he, by simp [hsq]⟩)
  rw [← hin.rob_live] at hme
  exact hin.committed _ (mem_filter.mp hme).1

/-- The first of two branches is mispredicted. -/
theorem rob_in_order_mispredict :
    ∃ s : Numbering Unit Unit, ((system neverTaken false).restrict Numbered).Reachable s ∧
      s.rob.map (·.squashed) = [false, true] ∧
      ∀ e ∈ s.rob, e.squashed = false → s.lastCommited.seqNum < e.inst.seqNum :=
  System.Reachable.exists_and_of_leads
    [.fetchInst true false (branchAt 0x100#64), .fetchInst true false (branchAt 0x104#64),
      .insertInst ⟨1, true, 1⟩, .insertInst ⟨2, true, 2⟩,
      .squashDueToBranch ⟨1, true, 1⟩ 0x900#64 true]
    (.start ⟨(), 4, rfl⟩) (by decide +kernel) fun _ hs => (rob_in_order hs).2.2

end Numbering

end Gem5.Cpu.O3
