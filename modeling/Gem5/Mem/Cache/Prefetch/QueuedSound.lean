import Gem5.Lib.Ranked
import Gem5.Lib.System
import Gem5.Mem.Cache.Prefetch.Queued

/-!
# Gem5.Mem.Cache.Prefetch.QueuedSound

**The order of the prefetch queue.** A prefetch queue is meant to be a stable
priority queue: sorted by priority, first come first served among equals, and
losing the oldest packet of the lowest priority when it overflows. Over a sorted
queue,

* the eviction of `addToQueue` drops the first packet of the lowest priority;
* the raise of `alreadyInQueue` is a removal followed by `enter`;
* the insertion of `addToQueue` is `enter` when at most one packet, or every
  packet, stays in front of the new one. Its backward walk stops *at* the last
  packet that must stay in front, and inserts before it
  (`insertByPriority_early`); only the tail and the head are special-cased.
-/

namespace Gem5.Prefetch.Queued

open List Nat Gem5.Lib System.Reachable
open DeferredPacket (priority gt le)

variable {queue l r hi lo front rest : List DeferredPacket} {dpp dp v b : DeferredPacket}
  {queueSize it : Nat}

theorem le_iff {a : DeferredPacket} : a.le b = true ↔ a.priority ≤ b.priority := by
  simp [le, gt]

/-! ### Eviction -/

/-- The eviction loop stops at the first packet of the lowest priority. -/
theorem oldestFrom_eq (hfr : ∀ b ∈ front, v.priority < b.priority)
    (hr : ∀ b ∈ rest, b.priority = v.priority) :
    ∀ i, front.length ≤ i → i < (front ++ v :: rest).length →
      oldestFrom (front ++ v :: rest) i = front.length := by
  have hlo : ∀ i, front.length ≤ i → i < (front ++ v :: rest).length →
      ((front ++ v :: rest)[i]?).map (·.priority) = some v.priority := by
    intro i hi hl
    rw [getElem?_append_right hi]
    cases hk : i - front.length with
    | zero => rfl
    | succ k =>
      have hk' : k < rest.length := by simp at hl; omega
      simpa [getElem?_eq_getElem hk'] using hr _ (getElem_mem hk')
  intro i
  induction i with
  | zero =>
    intro hi _
    exact (le_zero.mp hi).symm
  | succ i ih =>
    intro hi hl
    rcases lt_or_ge i front.length with hl' | hg
    · -- The previous packet belongs to a high level.
      have hpr : ((front ++ v :: rest)[i]?).map (·.priority) = some front[i].priority := by
        simp [getElem?_append_left hl', getElem?_eq_getElem hl']
      have hn := hfr _ (getElem_mem hl')
      rw [oldestFrom, hpr, hlo _ hi hl, if_neg (by simpa using hn.ne')]
      omega
    · rw [oldestFrom, hlo _ hg (by omega), hlo _ hi hl, if_pos rfl]
      exact ih hg (by omega)

/-- What `makeRoom` does to a sorted queue: nothing while there is room, and
otherwise the loss of the first packet of the lowest priority. -/
inductive MadeRoom (queueSize : Nat) : List DeferredPacket → List DeferredPacket → Prop
  | room {queue : List DeferredPacket} (h : queue.length < queueSize) :
      MadeRoom queueSize queue queue
  | evict {front rest : List DeferredPacket} {v : DeferredPacket}
      (hfull : (front ++ v :: rest).length = queueSize)
      (hfront : ∀ b ∈ front, v.priority < b.priority)
      (hrest : ∀ b ∈ rest, b.priority = v.priority) :
      MadeRoom queueSize (front ++ v :: rest) (front ++ rest)

theorem makeRoom_spec (hsz : 2 ≤ queueSize) (h : Ranked priority queue)
    (hl : queue.length ≤ queueSize) :
    Succeeds (MadeRoom queueSize queue) (makeRoom queueSize queue) := by
  unfold makeRoom
  split
  case isFalse hne => exact .room (by omega)
  case isTrue hfl =>
    obtain ⟨front, v, rest, rfl, hfr, hr⟩ := h.exists_lowest (ne_nil_of_length_pos (by omega))
    split
    case h_1 h0 => omega
    case h_2 h1 => omega
    case h_3 last hla hl' =>
      have hid := oldestFrom_eq hfr hr last (by simp at hl'; omega) (by omega)
      show MadeRoom _ _ _
      rw [hid, eraseIdx_append_of_length_le (le_refl _)]
      simpa using MadeRoom.evict hfl hfr hr

namespace MadeRoom

variable {queueSize : Nat} {queue' : List DeferredPacket}

section

variable (h : MadeRoom queueSize queue queue')

include h

theorem sublist : queue'.Sublist queue := by
  cases h with
  | room h => exact .refl _
  | evict _ _ _ => simp

theorem length_lt : queue'.length < queueSize := by
  cases h with
  | room h => exact h
  | evict hfl _ _ => simp at hfl ⊢; omega

theorem level_suffix (p : Int) : level priority p queue' <:+ level priority p queue := by
  cases h with
  | room h => exact suffix_refl _
  | evict _ hfr _ => exact level_remove_lowest hfr p

end

end MadeRoom

/-! ### Insertion -/

/-- The insertion loop stops at the last packet that must stay in front of the new
one, or at the head. -/
theorem insertFrom_eq (hh : ∀ b ∈ hi, dpp.priority ≤ b.priority)
    (hl : ∀ b ∈ lo, b.priority < dpp.priority) :
    ∀ i, hi.length ≤ i + 1 → i < (hi ++ lo).length →
      insertFrom (hi ++ lo) dpp i = hi.length - 1 := by
  intro i
  induction i with
  | zero =>
    intro h _
    simp only [insertFrom]
    omega
  | succ i ih =>
    intro h hlt
    rcases lt_or_ge (i + 1) hi.length with hin | ho
    · have hle := hh _ (getElem_mem hin)
      have hst : ((hi ++ lo)[i + 1]?).any dpp.gt = false := by
        simpa [getElem?_append_left hin, getElem?_eq_getElem hin, gt] using hle
      rw [insertFrom, hst, if_neg (by simp)]
      omega
    · have hl' : i + 1 - hi.length < lo.length := by simp at hlt; omega
      have hg : ((hi ++ lo)[i + 1]?).any dpp.gt := by
        simpa [getElem?_append_right ho, getElem?_eq_getElem hl', gt] using hl _ (getElem_mem hl')
      rw [insertFrom, hg]
      exact ih ho (by omega)

theorem insertIdx_length_append : (hi ++ lo).insertIdx hi.length dpp = hi ++ dpp :: lo := by
  induction hi with
  | nil => rfl
  | cons b hi ih => simpa using ih

theorem insertByPriority_walk (hh : ∀ b ∈ hi, dpp.priority ≤ b.priority)
    (hl : ∀ b ∈ lo, b.priority < dpp.priority) (hn : lo ≠ []) :
    insertByPriority (hi ++ lo) dpp =
      (hi ++ lo).insertIdx (if hi.length = 1 then 1 else hi.length - 1) dpp := by
  have hp : 0 < lo.length := length_pos_iff.mpr hn
  have hba : ((hi ++ lo).getLast?).all dpp.le = false := by
    have hla := hl _ (getLast_mem hn)
    simp [getLast?_eq_some_getLast hn, le, gt, hla]
  have hwa := insertFrom_eq hh hl ((hi ++ lo).length - 1) (by simp; omega) (by simp; omega)
  have hhd : ((hi ++ lo)[0]?).any dpp.le = decide (hi ≠ []) := by
    cases hi with
    | nil =>
      have h0 := hl _ (getElem_mem hp)
      simp [getElem?_eq_getElem hp, le, gt, h0]
    | cons a hi => simpa using le_iff.mpr (hh a (by simp))
  unfold insertByPriority
  rw [hba]
  simp only [hwa, hhd]
  cases hi with
  | nil => rfl
  | cons a hi => cases hi <;> simp

theorem insertFrom_le (queue : List DeferredPacket) (dpp : DeferredPacket) (i : Nat) :
    insertFrom queue dpp i ≤ i := by
  induction i with
  | zero => exact le_refl _
  | succ i ih =>
    rw [insertFrom]
    split
    · omega
    · exact le_refl _

/-- Wherever it goes, the new packet is added and nothing is lost. -/
theorem insertByPriority_perm : (insertByPriority queue dpp).Perm (dpp :: queue) := by
  unfold insertByPriority
  split
  case isTrue => exact perm_append_singleton _ _
  case isFalse hba =>
    have hn : queue ≠ [] := fun hni => hba (by simp [hni])
    have hpos : 0 < queue.length := length_pos_iff.mpr hn
    have hle := insertFrom_le queue dpp (queue.length - 1)
    refine perm_insertIdx _ _ ?_
    split <;> omega

/-- **When the insertion is right**: at most one packet, or every packet, stays in
front of the new one. -/
theorem insertByPriority_eq_enter (h : Ranked priority queue)
    (hk : queue.countP (dpp.priority ≤ ·.priority) ≤ 1 ∨
      queue.length ≤ queue.countP (dpp.priority ≤ ·.priority)) :
    insertByPriority queue dpp = enter priority dpp queue := by
  obtain ⟨hi, lo, rfl, hh, hl⟩ := h.exists_split dpp.priority
  have hcn : (hi ++ lo).countP (dpp.priority ≤ ·.priority) = hi.length := by
    rw [countP_append, countP_eq_length.mpr (by simpa using hh),
      countP_eq_zero.mpr (by simpa using hl), Nat.add_zero]
  rw [hcn] at hk
  rw [enter_split hh hl]
  rcases eq_or_ne lo [] with rfl | hn
  · -- Nobody is outranked: the packet goes to the tail.
    have hba : (hi.getLast?).all dpp.le := by
      cases hla : hi.getLast? with
      | none => rfl
      | some b => exact le_iff.mpr (hh b (mem_of_getLast? hla))
    simp [insertByPriority, hba]
  · have hpos : 0 < lo.length := length_pos_iff.mpr hn
    rw [insertByPriority_walk hh hl hn]
    match hi, hk with
    | [], _ => simp
    | [a], _ => simp
    | a :: b :: hi, hk =>
      simp only [length_append, length_cons] at hk
      omega

/-- **When it is wrong**: with two or more packets to stay in front and one to
overtake, the new packet is put before the last of the former. -/
theorem insertByPriority_early (hh : ∀ c ∈ hi ++ [b], dpp.priority ≤ c.priority)
    (hl : ∀ c ∈ lo, c.priority < dpp.priority) (hne : hi ≠ []) (hl' : lo ≠ []) :
    insertByPriority (hi ++ b :: lo) dpp = hi ++ dpp :: b :: lo := by
  have hw := insertByPriority_walk hh hl hl'
  rw [append_assoc, singleton_append] at hw
  rw [hw, if_neg (by simp; omega), length_append, length_singleton,
    Nat.add_sub_cancel, insertIdx_length_append]

/-! ### Raising a priority -/

theorem swapUp_stay (h : ∀ b ∈ l, dp.priority ≤ b.priority) (hit : queue[it]? = some dp) :
    ∀ prev, prev ≤ l.length → (∀ k < prev, queue[k]? = l[k]?) → swapUp queue it prev = queue := by
  intro prev
  induction prev with
  | zero => intros; rfl
  | succ prev ih =>
    intro hln hg
    have hk : prev < l.length := hln
    have hpr := hg prev (lt_succ_self _)
    rw [getElem?_eq_getElem hk] at hpr
    have hl := h _ (getElem_mem hk)
    rw [swapUp, hit, hpr]
    simp only [gt, not_lt.mpr hl]
    exact ih (by omega) fun k hk' => hg k (by omega)

/-- **The reordering loop** moves the packet in front of the ones it outranks. -/
theorem swapUp_eq (h : Ranked priority l) :
    swapUp (l ++ dp :: r) l.length l.length = enter priority dp l ++ r := by
  induction l using reverseRecOn generalizing r with
  | nil => rfl
  | append_singleton l b ih =>
    obtain ⟨hl, -, hcr⟩ := pairwise_append.mp h
    rw [length_append, length_singleton, append_assoc, singleton_append]
    by_cases hb : b.priority < dp.priority
    · have hmo : swapUp (l ++ b :: dp :: r) (l.length + 1) (l.length + 1) =
          swapUp (l ++ dp :: b :: r) l.length l.length := by
        rw [swapUp]
        simp [gt, hb]
      rw [hmo, ih hl, enter_append_of_lt (by simpa using hb)]
      simp
    · have hst : ∀ c ∈ l ++ [b], dp.priority ≤ c.priority := by
        intro c hc
        rcases mem_append.mp hc with hc | hc
        · exact (not_lt.mp hb).trans (hcr c hc b (by simp))
        · simpa [mem_singleton.mp hc] using hb
      rw [swapUp_stay hst (by simp) (l.length + 1) (by simp) fun k hk => ?_,
        ← append_nil (l ++ [b]), enter_append hst]
      · simp [enter]
      · rw [← singleton_append, ← append_assoc, getElem?_append_left (by simpa using hk)]

theorem alreadyInQueue_raised (h : Ranked priority queue) {pfi : PrefetchInfo} {priority : Int}
    (hr : raised queue pfi priority = some (it, dp)) :
    ∃ l d r, queue = l ++ d :: r ∧ l.length = it ∧
      (alreadyInQueue queue pfi priority).2 = enter DeferredPacket.priority dp (l ++ r) := by
  have hge : ∃ d, queue[it]? = some d ∧ d.priority < dp.priority := by
    simp only [raised] at hr
    split at hr
    · split at hr
      · rename_i d hd hlt
        obtain ⟨rfl, rfl⟩ := Prod.mk.injEq .. ▸ Option.some.inj hr
        exact ⟨d, hd, hlt⟩
      · simp at hr
    · simp at hr
  obtain ⟨d, hd, hlt⟩ := hge
  obtain ⟨hit, rfl⟩ := List.getElem?_eq_some_iff.mp hd
  have hsp : queue = queue.take it ++ queue[it] :: queue.drop (it + 1) := by simp
  have hle : (queue.take it).length = it := by simp; omega
  refine ⟨_, _, _, hsp, hle, ?_⟩
  obtain ⟨hl, hdr, -⟩ := pairwise_append.mp (hsp ▸ h)
  have hlo : ∀ c ∈ queue.drop (it + 1), c.priority < dp.priority := fun c hc =>
    ((pairwise_cons.mp hdr).1 c hc).trans_lt hlt
  have hse : queue.set it dp = queue.take it ++ dp :: queue.drop (it + 1) :=
    set_eq_take_cons_drop dp hit
  rw [enter_append_of_lt hlo, ← swapUp_eq hl, hle]
  simp only [alreadyInQueue, hr, hse]

/-! ### The packet that is found

The iterator of the search is advanced once more after the match, so the packet that is raised is the
one *behind* the match. -/

/-- The first packet of `queue` with the address of `pfi` is `dp`. -/
structure FirstMatch (queue : List DeferredPacket) (pfi : PrefetchInfo) (l : List DeferredPacket)
    (dp : DeferredPacket) (r : List DeferredPacket) : Prop where
  split : queue = l ++ dp :: r
  before : ∀ b ∈ l, b.pfInfo.sameAddr pfi = false
  same : dp.pfInfo.sameAddr pfi = true

/-- **A redundant prefetch is merged**: it is found if some packet has its address, and the first such
packet takes the higher of the two priorities, the queue staying sorted. -/
def Merges (queue : List DeferredPacket) (pfi : PrefetchInfo) (p : Int) : Prop :=
  ((alreadyInQueue queue pfi p).1 ↔ ∃ dp ∈ queue, dp.pfInfo.sameAddr pfi = true) ∧
  ∀ l dp r, FirstMatch queue pfi l dp r →
    (alreadyInQueue queue pfi p).2.Perm (l ++ { dp with priority := max dp.priority p } :: r) ∧
      Ranked priority (alreadyInQueue queue pfi p).2

/-- Neither the match nor the packet behind it is to be raised, or the packet behind it is a copy. -/
def Mergeable (queue : List DeferredPacket) (pfi : PrefetchInfo) (p : Int) : Prop :=
  ∀ l dp r, FirstMatch queue pfi l dp r →
    (p ≤ dp.priority ∧ ∀ e ∈ r.head?, p ≤ e.priority) ∨ (dp.priority < p ∧ r.head? = some dp)

section

variable {pfi : PrefetchInfo} {p : Int}

theorem searchEnd_fst : (searchEnd pfi queue).1 ↔ ∃ dp ∈ queue, dp.pfInfo.sameAddr pfi = true := by
  induction queue with
  | nil => simp [searchEnd]
  | cons dp queue ih =>
    rw [searchEnd]
    split
    next hs => simp [hs]
    next hs => simp [hs, ih]

variable (hf : FirstMatch queue pfi l dp r)

include hf

theorem FirstMatch.searchEnd_snd : (searchEnd pfi queue).2 = l.length + 1 := by
  obtain ⟨rfl, hl, hd⟩ := hf
  induction l with
  | nil => simp [searchEnd, hd]
  | cons b l ih =>
    have hr := ih fun c hc => hl c (mem_cons_of_mem b hc)
    simp [searchEnd, hl b mem_cons_self, hr]

theorem FirstMatch.kept (hr : ∀ e ∈ r.head?, p ≤ e.priority) :
    (alreadyInQueue queue pfi p).2 = queue := by
  have hra : raised queue pfi p = none := by
    simp only [raised, hf.searchEnd_snd]
    cases r with
    | nil => simp [hf.split]
    | cons e r => simpa [hf.split] using hr e rfl
  simp only [alreadyInQueue, hra]

theorem FirstMatch.behind (h : Ranked priority queue) {e : DeferredPacket} {r' : List DeferredPacket}
    (hr : r = e :: r') (he : e.priority < p) :
    (alreadyInQueue queue pfi p).2 = enter priority { e with priority := p } (l ++ dp :: r') := by
  have hra : raised queue pfi p = some (l.length + 1, { e with priority := p }) := by
    simp only [raised, hf.searchEnd_snd]
    simp [hf.split, hr, he]
  obtain ⟨l₁, d, r₁, hq, hle, hre⟩ := alreadyInQueue_raised h hra
  have hq' : (l ++ [dp]) ++ e :: r' = l₁ ++ d :: r₁ := by simpa [hf.split, hr] using hq
  obtain ⟨rfl, heq⟩ := append_inj hq' (by simp [hle])
  obtain ⟨rfl, rfl⟩ := cons.inj heq
  simpa using hre

end

/-- **When a redundant prefetch is merged.** -/
theorem merges_iff_mergeable (h : Ranked priority queue) (pfi : PrefetchInfo) (p : Int) :
    Merges queue pfi p ↔ Mergeable queue pfi p := by
  refine ⟨fun hm l dp r hf => ?_, fun hm => ⟨searchEnd_fst, fun l dp r hf => ?_⟩⟩
  · obtain ⟨hp, -⟩ := hm.2 l dp r hf
    have hk (hr : ∀ e ∈ r.head?, p ≤ e.priority) : p ≤ dp.priority := by
      rw [hf.kept hr, hf.split, perm_append_left_iff] at hp
      have hsa := singleton_perm_singleton.mp ((perm_append_right_iff r).mp hp)
      exact (le_max_right _ _).trans_eq (congrArg priority hsa).symm
    cases r with
    | nil => exact .inl ⟨hk (by simp), by simp⟩
    | cons e r =>
      rcases le_or_gt p e.priority with he | he
      · exact .inl ⟨hk (by simpa using he), by simpa using he⟩
      · -- What is raised stands for the match only if the two are copies.
        rw [hf.behind h rfl he] at hp
        have hcn := (enter_perm.symm.trans hp).count_eq e
        have hn : ({ e with priority := p } : DeferredPacket) ≠ e := fun hq =>
          he.ne' (congrArg priority hq)
        rw [count_cons_of_ne hn, count_append, count_append, count_cons, count_cons,
          count_cons_self] at hcn
        have hq : dp = e := by
          by_contra hot
          rw [if_neg (by simpa using hot)] at hcn
          omega
        exact .inr ⟨hq ▸ he, congrArg some hq.symm⟩
  · rcases hm l dp r hf with ⟨hl, hr⟩ | ⟨hlt, hr⟩
    · rw [hf.kept hr, max_eq_left hl, ← hf.split]
      exact ⟨.refl _, h⟩
    · obtain ⟨r, rfl⟩ := head?_eq_some_iff.mp hr
      rw [hf.behind h rfl hlt, max_eq_right hlt.le]
      have hre : Ranked priority (l ++ dp :: r) := by
        refine Pairwise.sublist ?_ (hf.split ▸ h)
        simp
      exact ⟨enter_perm.trans perm_middle.symm, hre.enter⟩

/-! ### Runs -/

/-- A queue together with its history: the packets in the order in which they came
to their priority, by an insertion or by a raise, and whether a priority was ever
raised. Without raises, `arrivals` lists the insertions. -/
structure QueueRun where
  queue : List DeferredPacket := []
  arrivals : List DeferredPacket := []
  raises : Bool := false

inductive QueueCall
  | add (dpp : DeferredPacket)
  | find (pfi : PrefetchInfo) (priority : Int)

def QueueRun.step (queueSize : Nat) (s : QueueRun) : QueueCall → Except QueueFault QueueRun
  | .add dpp => do
      return { s with
        queue := ← addToQueue queueSize s.queue dpp
        arrivals := s.arrivals ++ [dpp] }
  | .find pfi priority =>
    let queue := (alreadyInQueue s.queue pfi priority).2
    match raised s.queue pfi priority with
    | some (_, dp) => .ok { queue, arrivals := s.arrivals ++ [dp], raises := true }
    | none => .ok { s with queue }

/-- A queue of `queueSize` packets under arbitrary calls, starting empty. -/
abbrev queueSystem (queueSize : Nat) : System QueueRun QueueCall QueueFault where
  init s := s = {}
  step := QueueRun.step queueSize
  pre _ _ := True

/-- The insertions for which `addToQueue` finds the right place: at most one queued
packet has the priority of the new one or a higher one, or all have, up to the one
that a full queue is about to lose. -/
def Placeable (queueSize : Nat) (s : QueueRun) : QueueCall → Prop
  | .add dpp =>
    s.queue.countP (dpp.priority ≤ ·.priority) ≤ 1 ∨
      s.queue.length ≤ s.queue.countP (dpp.priority ≤ ·.priority) +
        if s.queue.length = queueSize then 1 else 0
  | .find _ _ => True

instance (queueSize : Nat) (s : QueueRun) : DecidablePred (Placeable queueSize s)
  | .add _ => inferInstanceAs (Decidable (_ ∨ _))
  | .find _ _ => inferInstanceAs (Decidable True)

/-- **A stable priority queue**: bounded, sorted, and at each priority in order of
arrival; without raises, each priority has lost packets from its front only. -/
structure QueueRun.Ordered (queueSize : Nat) (s : QueueRun) : Prop where
  length_le : s.queue.length ≤ queueSize
  ranked : Ranked DeferredPacket.priority s.queue
  arrived (p : Int) : (level DeferredPacket.priority p s.queue).Sublist
    (level DeferredPacket.priority p s.arrivals)
  fifo (h : s.raises = false) (p : Int) : level DeferredPacket.priority p s.queue <:+
    level DeferredPacket.priority p s.arrivals

theorem level_append (p : Int) :
    level priority p (l ++ r) = level priority p l ++ level priority p r := by
  simp [level]

theorem MadeRoom.placeable {room : List DeferredPacket} (h : MadeRoom queueSize queue room)
    (hp : queue.countP (dpp.priority ≤ ·.priority) ≤ 1 ∨ queue.length ≤
      queue.countP (dpp.priority ≤ ·.priority) + if queue.length = queueSize then 1 else 0) :
    room.countP (dpp.priority ≤ ·.priority) ≤ 1 ∨
      room.length ≤ room.countP (dpp.priority ≤ ·.priority) := by
  rcases hp with hp | hp
  · exact .inl ((h.sublist.countP_le).trans hp)
  · right
    cases h with
    | room h => rwa [if_neg (Nat.ne_of_lt h)] at hp
    | @evict front rest v hfl hfr hr =>
      replace hp : (front ++ v :: rest).length ≤
          (front ++ v :: rest).countP (dpp.priority ≤ ·.priority) + 1 := by
        rwa [if_pos hfl] at hp
      by_cases hv : dpp.priority ≤ v.priority
      · -- The new packet outranks nobody.
        refine (countP_eq_length.mpr fun b hb => ?_).ge
        rcases mem_append.mp hb with hb | hb
        · simpa using hv.trans (hfr b hb).le
        · simpa using hv.trans (hr b hb).ge
      · simp [hv] at hp ⊢
        omega

namespace QueueRun.Ordered

variable {queueSize : Nat} {s : QueueRun}

theorem add (h : s.Ordered queueSize) (hsz : 2 ≤ queueSize)
    (hp : Placeable queueSize s (.add dpp)) :
    Succeeds (QueueRun.Ordered queueSize) (s.step queueSize (.add dpp)) := by
  refine Outcome.bind ((makeRoom_spec hsz h.ranked h.length_le).bind fun room ho => ?_)
    (fun queue' (hq : ∃ room, MadeRoom queueSize s.queue room ∧
      queue' = enter priority dpp room) => ?_)
  · have ha : Ranked priority room := h.ranked.sublist ho.sublist
    exact ⟨room, ho, insertByPriority_eq_enter ha (ho.placeable hp)⟩
  · obtain ⟨room, ho, rfl⟩ := hq
    have ha : Ranked priority room := h.ranked.sublist ho.sublist
    refine ⟨?_, ha.enter, fun p => ?_, fun hr p => ?_⟩
    · have hlen : (enter priority dpp room).length = room.length + 1 := enter_perm.length_eq
      have := ho.length_lt
      dsimp only
      omega
    · rw [ha.level_enter, level_append]
      exact ((ho.level_suffix p).sublist.trans (h.arrived p)).append_right _
    · rw [ha.level_enter, level_append]
      exact suffix_append_self_iff.mpr ((ho.level_suffix p).trans (h.fifo hr p))

theorem find (h : s.Ordered queueSize) (pfi : PrefetchInfo) (priority : Int) :
    Succeeds (QueueRun.Ordered queueSize) (s.step queueSize (.find pfi priority)) := by
  simp only [QueueRun.step]
  cases hr : raised s.queue pfi priority with
  | none =>
    have hsa : (alreadyInQueue s.queue pfi priority).2 = s.queue := by
      simp only [alreadyInQueue, hr]
    rw [hsa]
    exact h
  | some found =>
    obtain ⟨it, dp⟩ := found
    obtain ⟨l, d, r, hq, -, hre⟩ := alreadyInQueue_raised h.ranked hr
    have hra : Ranked DeferredPacket.priority (l ++ r) := by
      refine List.Pairwise.sublist ?_ (hq ▸ h.ranked)
      simp
    show QueueRun.Ordered _ _
    refine ⟨?_, ?_, fun p => ?_, fun hr => absurd hr (by simp)⟩
    · have hl := h.length_le
      have hl' : (enter DeferredPacket.priority dp (l ++ r)).length = (l ++ r).length + 1 :=
        enter_perm.length_eq
      rw [hq] at hl
      simp only [hre, hl']
      simp at hl ⊢
      omega
    · simpa only [hre] using hra.enter
    · have hsu : (level DeferredPacket.priority p (l ++ r)).Sublist
          (level DeferredPacket.priority p s.queue) := by
        rw [hq]
        exact List.Sublist.filter _ (by simp)
      simp only [hre]
      rw [hra.level_enter, level_append p (l := s.arrivals)]
      exact (hsu.trans (h.arrived p)).append_right _

end QueueRun.Ordered

/-- A full queue loses exactly one packet, the first of the lowest priority. -/
def LosesOldest (queue : List DeferredPacket) (dpp : DeferredPacket)
    (queue' : List DeferredPacket) : Prop :=
  ∃ front v rest, queue = front ++ v :: rest ∧ (∀ b ∈ front, v.priority < b.priority) ∧
    (∀ b ∈ rest, b.priority = v.priority) ∧ queue'.Perm (dpp :: (front ++ rest))

/-- **The prefetch queue is a stable priority queue** in every run whose insertions
are placeable: its calls return, it is bounded and sorted, each priority keeps the
order of arrival, and a full queue loses the oldest packet of the lowest priority. -/
theorem queue_ordered (queueSize : Nat) (hsize : 2 ≤ queueSize) {s : QueueRun}
    (hs : ((queueSystem queueSize).restrict (Placeable queueSize)).Reachable s) :
    s.Ordered queueSize ∧ ∀ dpp,
      Succeeds (fun queue' => s.queue.length = queueSize → LosesOldest s.queue dpp queue')
        (addToQueue queueSize s.queue dpp) := by
  have hor : s.Ordered queueSize := by
    refine invariant _ ?_ ?_ hs
    · rintro s rfl
      exact ⟨zero_le _, .nil, fun p => .refl _, fun _ p => suffix_refl _⟩
    · intro s a s' h hp hst
      cases a with
      | add dpp => exact (h.add hsize hp.2).of_ok hst
      | find pfi priority => exact (h.find pfi priority).of_ok hst
  refine ⟨hor, fun dpp => ?_⟩
  refine (makeRoom_spec hsize hor.ranked hor.length_le).bind fun room hro hfl => ?_
  cases s
  cases hro with
  | room h => omega
  | evict _ hfr hr => exact ⟨_, _, _, rfl, hfr, hr, insertByPriority_perm⟩

def candidate (addr : Nat) (priority : Int) : DeferredPacket where
  pfInfo := .ofPacket { cmd := .readReq } addr true {}
  priority := priority

/-- A queue of two: the older of two equal packets makes room for a better one. -/
theorem queue_ordered_of_two :
    ∃ s, ((queueSystem 2).restrict (Placeable 2)).Reachable s ∧
      s.queue = [candidate 192 5, candidate 128 1] ∧ s.Ordered 2 := by
  exact exists_and_of_leads
    [.add (candidate 64 1), .add (candidate 128 1), .add (candidate 192 5)] (.start rfl)
    (by decide +kernel) fun s hs => (queue_ordered 2 (by decide) hs).1

/-- **A packet in the middle comes out of order**: of priorities 10, 5 and 1, a packet
of priority 3 is put before the one of priority 5. -/
theorem queue_not_ranked :
    ∃ s, (queueSystem 4).Reachable s ∧ s.queue.map (·.priority) = [10, 3, 5, 1] ∧
      ¬ Ranked DeferredPacket.priority s.queue := by
  exact exists_of_leads
    [.add (candidate 64 10), .add (candidate 128 5), .add (candidate 192 1), .add (candidate 256 3)]
    (.start rfl) (by decide +kernel)

/-- A prefetch that asks for no more than the packets have. -/
theorem merges_lower : Merges [candidate 64 5, candidate 128 5] (candidate 64 0).pfInfo 3 := by
  refine (merges_iff_mergeable (by decide) _ _).mpr fun l dp r hf => .inl ?_
  have hfi : ∀ e ∈ l ++ dp :: r, (3 : Int) ≤ e.priority := hf.split ▸ by decide
  exact ⟨hfi dp (by simp), fun e he => hfi e (by simp [mem_of_mem_head? he])⟩

/-- **The wrong packet is raised**: the first one is asked for, and the second one overtakes it. -/
theorem not_merges_behind : ¬Merges [candidate 64 1, candidate 128 0] (candidate 64 1).pfInfo 5 :=
  fun h => absurd (h.2 [] _ _ ⟨rfl, by simp, by decide⟩).1 (by decide)

end Gem5.Prefetch.Queued
